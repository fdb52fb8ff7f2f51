import Patchbay.Proofs.Dict
import Patchbay.Proofs.Document.Managed
import Patchbay.Proofs.Grouping.Disbanded
/-!
# Groups that are filled again

Relinking empties the groups before it fills them. If every member is in the first group of its id
and the groups list their members in the order of the graph, then the groups come out of it as they
were.

## Main definitions

* `Graph.Gathered`: the groups of a graph are those that relinking makes.

## Main statements

* `Graph.Settled.gathered`: relinking gathers the members.
* `Graph.Gathered.relinkGroups`: relinking changes nothing where the members are gathered.
-/
namespace Patchbay

/-- Arenas are told apart by their keys. -/
theorem Arena.eq_of_get? {α : Type} {a b : Arena α} (hnext : a.next = b.next)
    (h : ∀ k, a.get? k = b.get? k) : a = b := by
  refine congrArg Arena.mk (Array.ext hnext fun i hi hj => ?_)
  have hi' := h i
  simpa [get?, hi, hj] using hi'

namespace Graph
variable {d g h : Graph}

/-! ### Groups that are filled again -/

/-- Every member is in the first group of its id, and the groups list their members in the order of
the graph. -/
structure Gathered (g : Graph) : Prop where
  grouped : Grouped g
  members_nodup : g.members.Nodup
  live : ∀ k, k ∈ g.members ↔ (g.node? k).isSome = true
  home : ∀ {k n}, g.node? k = some n → n.group = n.groupId.bind g.groupIndex.get?
  listed : ∀ b ∈ g.clusters,
    b.members = g.members.filter fun k => (g.node? k).bind (·.group) = some b.key

/-- Groups are looked up by what they are called, whoever their members are. -/
theorem groupIndex_mapGroups {f : Group → Group} (hid : ∀ b, (f b).id = b.id)
    (hkey : ∀ b, (f b).key = b.key) (g : Graph) : (g.mapGroups f).groupIndex = g.groupIndex := by
  rw [groupIndex_eq, groupIndex_eq, mapGroups, Forest.preorder_map, Dict.firsts, Dict.firsts,
    List.foldl_map]
  simp only [hid, hkey]

/-- Relinking gathers the members. -/
theorem Settled.gathered (hd : d.Unresolved) (a : Settled d h) : Gathered h := by
  have hindex : h.groupIndex = d.groupIndex := by
    rw [a.eq]
    exact groupIndex_mapGroups (f := d.gathered) (fun _ => rfl) (fun _ => rfl) d
  have hgroup (k : NodeKey) : (h.node? k).bind (·.group) = homeOf? d.groupIndex d k := by
    rw [a.node, homeOf?]
    cases d.node? k <;> rfl
  refine ⟨a.grouped hd, a.members ▸ hd.nodes.members_nodup, fun k => ?_, fun {k n} hn => ?_,
    fun b hb => ?_⟩
  · rw [a.members, hd.nodes.live, a.node, Option.isSome_map]
  · have hk := hgroup k
    rw [a.node] at hn
    obtain ⟨m, hm, rfl⟩ := Option.map_eq_some_iff.1 hn
    have hhome : homeOf? d.groupIndex d k = m.groupId.bind d.groupIndex.get? := by
      rw [homeOf?, hm, Option.bind_some]
    rw [hindex, Node.settled]
    split
    · exact hhome
    · next hnone => simpa using hnone
  · rw [a.clusters_eq] at hb
    obtain ⟨c, -, rfl⟩ := List.mem_map.1 hb
    rw [a.members]
    exact List.filter_congr fun k _ => by rw [hgroup]; rfl

namespace Gathered

/-- What wires do to a graph does not matter. -/
theorem of_sameCore (hg : Gathered g) (a : SameCore g h) : Gathered h := by
  have hindex : h.groupIndex = g.groupIndex := by rw [groupIndex_eq, groupIndex_eq, a.groups]
  refine ⟨hg.grouped.of_sameCore a, a.members ▸ hg.members_nodup, fun k => ?_, fun {k n} hn => ?_,
    fun b hb => ?_⟩
  · have hk := congrArg Option.isSome (a.nodes k)
    rw [Option.isSome_map, Option.isSome_map] at hk
    rw [a.members, hg.live, hk]
  · obtain ⟨m, hm, hcore⟩ := a.node? hn
    have hgroup : m.group = n.group := (congrArg Node.group hcore :)
    have hid : m.groupId = n.groupId := (congrArg Node.groupId hcore :)
    rw [hindex, ← hgroup, ← hid]
    exact hg.home hm
  · have hclusters : h.clusters = g.clusters := by rw [clusters, clusters, a.groups, a.loose]
    rw [hg.listed b (hclusters ▸ hb), a.members]
    exact List.filter_congr fun k _ => by rw [a.group?_node]

/-- Every group that has members is the first of its id. -/
theorem emptied (hg : Gathered g) {b : Group} (hb : b ∈ g.clusters) :
    b.emptied (g.groupIndex.entries.map (·.2)) = { b with members := [] } := by
  rw [Group.emptied]
  split
  · rfl
  · next hout =>
    have hnone : b.members = [] := List.eq_nil_iff_forall_not_mem.2 fun k hk => by
      obtain ⟨n, hn, hnb⟩ := hg.grouped.listed b hb k hk
      rw [hg.home hn] at hnb
      obtain ⟨id, -, hid⟩ := Option.bind_eq_some_iff.1 hnb
      exact hout (Dict.mem_values_of_get? hid)
    rw [← hnone]

theorem freed (hg : Gathered g) {k : NodeKey} {n : Node} (hn : g.node? k = some n) :
    n.freed (g.groupIndex.entries.map (·.2)) = n.ungrouped := by
  rw [Node.freed]
  split
  · rfl
  · next hout =>
    have hnone : n.group = none := by
      cases hna : n.group with
      | none => rfl
      | some a =>
        have hhome := hg.home hn
        rw [hna] at hhome
        obtain ⟨id, -, hid⟩ := Option.bind_eq_some_iff.1 hhome.symm
        exact absurd (Dict.mem_values_of_get? hid) (by simpa [hna] using hout)
    rw [Node.ungrouped, ← hg.grouped.ungrouped hn hnone, ← hnone]

/-- A node that has left its group is put into the same one again. -/
theorem placed_ungrouped (hg : Gathered g) {k : NodeKey} {n : Node} (hn : g.node? k = some n) :
    n.ungrouped.placed (n.groupId.bind g.groupIndex.get?) n.groupId = n := by
  have hid : (if n.group.isSome then n.groupId else none) = n.groupId := by
    split
    · rfl
    · next hnone => exact (hg.grouped.ungrouped hn (by simpa using hnone)).symm
  rw [← hg.home hn, Node.placed, hid, Node.ungrouped]

/-- Relinking changes nothing where the members are gathered. -/
theorem relinkGroups (hg : Gathered g) : g.relinkGroups = g := by
  let index := g.groupIndex
  let wanted (k : NodeKey) : Option String := (g.node? k).bind (·.groupId)
  -- all groups are emptied, and all members are without a group
  obtain ⟨cleared, hclear, hnext⟩ := exists_foldl_clearGroup (index.entries.map (·.2)) g
  have hnode (k : NodeKey) : cleared.get? k = (g.node? k).map Node.ungrouped := by
    have hk := hg.grouped.mutual.node?_foldl_clearGroup (index.entries.map (·.2)) k
    rw [hclear] at hk
    refine hk.trans ?_
    cases hn : g.node? k with
    | none => rfl
    | some n => exact congrArg some (hg.freed hn)
  let c : Graph := { g.mapGroups (fun b => { b with members := [] }) with nodes := cleared }
  have hc : index.entries.foldl (fun g e => g.clearGroup e.2) g = c := by
    rw [List.foldl_map] at hclear
    refine hclear.trans ?_
    simp only [mapGroups, c]
    congr 1
    · exact Forest.map_congr fun b hb => hg.emptied (List.mem_append_left _ hb)
    · exact Forest.map_congr fun b hb => hg.emptied (List.mem_append_right _ hb)
  have halone : ∀ k ∈ g.members, ∃ n, c.node? k = some n ∧ n.group = none := by
    intro k hk
    obtain ⟨n, hn⟩ := Option.isSome_iff_exists.1 ((hg.live k).1 hk)
    exact ⟨n.ungrouped, (hnode k).trans (by rw [hn]; rfl), rfl⟩
  have hindex (id : String) (a : GroupKey) (ha : index.get? id = some a) :
      (c.group? a).map (·.id) = some id := by
    have hgroup : c.group? a = (g.group? a).map fun b => { b with members := [] } :=
      group?_mapGroups g (f := fun b => { b with members := [] }) (fun _ => rfl) a
    rw [hgroup, Option.map_map]
    exact id_group?_groupIndex hg.grouped.keys_nodup ha
  -- every member finds the group that it has just left
  obtain ⟨nodes, hrun, hnext', hnodes⟩ := foldl_regroup hg.members_nodup halone hindex wanted
  have hsame : nodes = g.nodes := by
    refine Arena.eq_of_get? (hnext'.trans hnext) fun k => (hnodes k).trans ?_
    rw [show c.node? k = _ from hnode k]
    cases hn : g.node? k with
    | none =>
      rw [Option.map_none, Option.map_none, ite_self]
      exact hn.symm
    | some n =>
      have hk : k ∈ g.members := (hg.live k).2 (Option.isSome_of_mem hn)
      have hwanted : wanted k = n.groupId := by simp only [wanted, hn, Option.bind_some]
      rw [if_pos hk, Option.map_some, Option.map_some, hwanted, hg.placed_ungrouped hn]
      exact hn.symm
  have hhome {k : NodeKey} : (wanted k).bind index.get? = (g.node? k).bind (·.group) := by
    simp only [wanted]
    cases hn : g.node? k with
    | none => rfl
    | some n => exact (hg.home hn).symm
  have hfilled {b : Group} (hb : b ∈ g.clusters) : { b with
      members := [] ++ g.members.filter fun k => (wanted k).bind index.get? = some b.key } = b := by
    simp only [hhome, List.nil_append, ← hg.listed b hb]
  have hmap (f : Forest) (hf : f.preorder ⊆ g.clusters) :
      (f.map fun b => { b with members := [] }).map (fun b => { b with
        members := b.members ++ g.members.filter fun k => (wanted k).bind index.get? = some b.key }) =
        f := by
    rw [Forest.map_map]
    exact Forest.map_eq_self fun b hb => hfilled (hf hb)
  have hlast : (g.members.map fun k => (k, wanted k)).foldl
      (fun g e => regroup index g e.1 e.2) c = g := by
    rw [hrun, hsame]
    simp only [mapGroups, c]
    rw [hmap g.groups (List.subset_append_left _ _), hmap g.loose (List.subset_append_right _ _)]
  simp only [Graph.relinkGroups]
  rw [hc]
  exact hlast

end Gathered
end Graph
end Patchbay
