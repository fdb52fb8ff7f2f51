import Patchbay.Proofs.Document.Accepted
import Patchbay.Proofs.Grouping.Ancestry
import Patchbay.Proofs.Grouping.GroupedInside
/-!
# Groups of graphs in use

A graph in use was made empty or read from a document, whatever that said of groups and parents, and
was changed by its operations since. Its groups form a forest, and every node of it is in the one
group that lists it, or in none.

## Main definitions

* `Managed`: the graphs that reading and the operations of the graph lead to.

## Main statements

* `Graph.Unresolved.groupedInside_relink`: relinking houses the members.
* `Managed.nested_and_membershipsAgree`: the groups of a graph in use, and their members.
-/
namespace Patchbay
namespace Graph

/-! ### Graphs that were read -/

section Reading
variable {d h u : Graph}

theorem Settled.clusters_eq (a : Settled d h) : h.clusters = d.clusters.map d.gathered := by
  rw [a.eq]
  simp [clusters, mapGroups]

/-- A node is put into the first group of its id. -/
theorem Settled.exists_home (a : Settled d h) {k : NodeKey} {b : GroupKey}
    (hk : (h.node? k).bind (·.group) = some b) : ∃ c ∈ d.groups.preorder,
      c.key = b ∧ (d.node? k).isSome = true ∧ homeOf? d.groupIndex d k = some b ∧
      (h.node? k).bind (·.groupId) = some c.id := by
  rw [a.node] at hk ⊢
  obtain ⟨m, hm, hmb⟩ := Option.bind_eq_some_iff.1 hk
  obtain ⟨n, hn, rfl⟩ := Option.map_eq_some_iff.1 hm
  have hhome : homeOf? d.groupIndex d k = some b := hmb
  have hid := hhome
  rw [homeOf?, hn, Option.bind_some] at hid
  obtain ⟨id, hid, hb⟩ := Option.bind_eq_some_iff.1 hid
  rw [groupIndex_eq] at hb
  obtain ⟨c, hc, hcid, hcb⟩ := Dict.exists_of_get?_firsts hb
  refine ⟨c, hc, hcb, Option.isSome_of_mem hn, hhome, ?_⟩
  rw [hn, Option.map_some, Option.bind_some, Node.settled, hhome]
  simpa only [Option.isSome_some, if_true, hid] using hcid.symm

/-- Relinking tells every membership on both sides. -/
theorem Settled.grouped (hd : d.Unresolved) (a : Settled d h) : Grouped h := by
  have hkeys (bs : List Group) : (bs.map d.gathered).map (·.key) = bs.map (·.key) := by
    rw [List.map_map]
    rfl
  have hlive {k : NodeKey} : k ∈ d.members ↔ (d.node? k).isSome = true := hd.nodes.live k
  refine ⟨?_, ?_, ?_, ?_, fun {k n b} hn hb => ?_, fun {k n} hn hnone => ?_⟩
  · rw [a.clusters_eq, hkeys]
    exact hd.groups.keys_nodup
  · rw [a.clusters_eq, List.forall_mem_map, show h.nextGroup = d.nextGroup by rw [a.eq]; rfl]
    exact hd.groups.keys_lt
  · rw [a.clusters_eq, List.forall_mem_map]
    exact fun b _ => hd.nodes.members_nodup.filter _
  · rw [a.clusters_eq, List.forall_mem_map]
    intro b _ k hk
    obtain ⟨hmem, hhome⟩ := List.mem_filter.1 hk
    obtain ⟨n, hn⟩ := Option.isSome_iff_exists.1 (hlive.1 hmem)
    exact ⟨_, by rw [a.node, hn]; rfl, of_decide_eq_true hhome⟩
  · obtain ⟨c, hc, rfl, hk, hhome, hid⟩ := a.exists_home (by rw [hn]; exact hb)
    rw [hn, Option.bind_some] at hid
    refine ⟨d.gathered c, ?_, rfl, hid, List.mem_filter.2 ⟨hlive.2 hk, decide_eq_true hhome⟩⟩
    rw [a.clusters_eq]
    exact List.mem_map_of_mem (List.mem_append_left _ hc)
  · rw [a.node] at hn
    obtain ⟨m, hm, rfl⟩ := Option.map_eq_some_iff.1 hn
    have hhome : homeOf? d.groupIndex d k = none := hnone
    rw [Node.settled, hhome]
    rfl

/-- After relinking, the nodes are in their groups, and wires change nothing of that. -/
theorem Unresolved.core_relink (hu : u.Unresolved) : ∃ s, Settled u.reindex s ∧
    SameCore s { u.relink.1 with mainId := s.mainId } := by
  obtain ⟨s, a, -, hrun⟩ := hu.exists_relink
  have hcore := sameCore_relinkWires s.pinIndex s s.links
  refine ⟨s, a, ?_⟩
  rw [hrun, relinkMain_eq]
  exact { hcore with mainId := rfl }

/-- Relinking houses the members. -/
theorem Unresolved.groupedInside_relink (hu : u.Unresolved) : GroupedInside u.relink.1 := by
  have hd := hu.reindexed
  obtain ⟨g, a, hsame⟩ := hu.core_relink
  have hg : GroupedInside g := by
    refine ⟨a.grouped hd, fun id k hk => ?_, fun {k b} hk => ?_⟩
    · rw [nodeWithId?, a.index_eq, index_reindex] at hk
      obtain ⟨j, hj, hid, rfl⟩ := Dict.exists_of_get?_firsts hk
      exact ⟨a.members ▸ hj, (a.idOf? j).trans hid⟩
    · obtain ⟨c, hc, rfl, hlive, -⟩ := a.exists_home hk
      refine ⟨a.members ▸ (hd.nodes.live k).2 hlive, ?_⟩
      rw [a.eq]
      change c.key ∈ (u.reindex.groups.map u.reindex.gathered).keys
      rw [Forest.keys, Forest.preorder_map, List.map_map]
      exact List.mem_map_of_mem hc
  have hh := hg.noneJoins (hg.grouped.of_sameCore hsame) (hg.indexed.of_sameRoll hsame.sameRoll)
    hsame.noneJoins
  exact hh.noneJoins (hh.grouped.withMembers _ _ _) hh.indexed
    (noneJoins_of_nodes rfl rfl (fun _ => .inl) (Nat.le_refl _))

end Reading

end Graph

/-- The graphs that are made empty or read from documents, and what operations of the graph make of
them. -/
inductive Managed : Graph → Prop where
  | new (ids : IdSupply) (name : String) (category : Category) : Managed (.new ids name category)
  | load {r : Registry} {ids : IdSupply} {name : String} {category : Category} {j : Json} {g : Graph}
    (h : (Document.load r (.new ids name category) j).result = .ok g) : Managed g
  | edit {g : Graph} (hg : Managed g) (e : Edit) (he : e.Admissible g) (hm : e.Managing g) :
    Managed (e.apply g)

theorem Managed.groupedInside {g : Graph} (h : Managed g) : g.GroupedInside := by
  induction h with
  | new ids name category => exact .new ids name category
  | load h =>
    obtain ⟨u, hu, rfl⟩ := Document.exists_unresolved_of_load h
    exact hu.groupedInside_relink
  | edit _ e he hm ih => exact ih.apply he hm

namespace GiveTake

/-- What is written of a group. -/
def groupRecord (id : String) (parent : Option String) : Json :=
  .object [("id", .string id), ("parent_id", .ofOption parent)]

/-- A node in a group within another one. A second group of its id has a parent that nobody knows.
-/
def innerTwice : Json :=
  .object [("id", .string "G"), ("category", .string "data_flow"),
    ("nodes", .array [
      .object [("id", .string "a"), ("type", .string "give"), ("group_id", .string "inner")],
      .object [("id", .string "b"), ("type", .string "take"), ("group_id", .string "gone")]]),
    ("groups", .array [groupRecord "outer" none, groupRecord "inner" (some "outer"),
      groupRecord "inner" (some "gone")])]

/-- A new group takes a node, and the inner group leaves the outer one. -/
def regrouping : List Edit :=
  [.createGroup "new" ⟨0, 0, 1, 1⟩ (some 0), .moveNodeToGroup 1 (some 3), .reparentGroup 1 none]

end GiveTake

/-- Whatever a document says of groups and parents, and whatever is done to the graph that was read:
its groups form a forest, and every node is in the one group that lists it, or in none. -/
theorem Managed.nested_and_membershipsAgree {g : Graph} (h : Managed g) :
    g.Nested ∧ g.MembershipsAgree :=
  ⟨h.groupedInside.grouped.nested, h.groupedInside.membershipsAgree⟩

/-- Groups that were read and groups that were made form a forest together. -/
theorem Managed.nested_and_membershipsAgree_regrouped : ∃ g,
    Managed g ∧ g.allGroups.map (·.members) = [[], [1], [], [0]] ∧
      g.Nested ∧ g.MembershipsAgree := by
  obtain ⟨g, hg, hread⟩ := GiveTake.exists_of_read (j := GiveTake.innerTwice) (P := fun g =>
    (GiveTake.regrouping.foldl Edit.apply g).allGroups.map (·.members) = [[], [1], [], [0]])
    (by decide +kernel)
  have h := Managed.load hg
  have h := h.edit (.createGroup "new" ⟨0, 0, 1, 1⟩ (some 0)) trivial trivial
  have h := h.edit (.moveNodeToGroup 1 (some 3)) trivial trivial
  have h := h.edit (.reparentGroup 1 none) trivial trivial
  exact ⟨_, h, of_decide_eq_true hread, Managed.nested_and_membershipsAgree h⟩

end Patchbay
