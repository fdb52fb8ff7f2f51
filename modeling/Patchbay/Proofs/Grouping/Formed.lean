import Patchbay.Proofs.Grouping.Disbanded
import Patchbay.Proofs.Wiring.Frame
/-!
# Forming a group around nodes

A new group is hung up empty. Then the nodes of a list join it one after the other, each of them
after it has left the group that it was in. Nodes that are not in the graph, and places of the list
without a node, are passed over. In the end the bounds are drawn around those that did join.

## Main definitions

* `Group.regrouped`: a group after some nodes have moved to one group.
* `Graph.Formed`: what a graph is after a group was formed in it.

## Main statements

* `Layout.exists_createGroup`: a new group stands at the end of the list of its parent.
* `Graph.Mutual.exists_joinGroup`: one node joins a group.
* `Layout.exists_foldl_addNode`: the nodes of a list join a group.
* `Layout.createGroupAround_iff`: when a group is formed, and what comes of it.
-/
namespace Patchbay

theorem nodup_eraseDups {α : Type} [BEq α] [LawfulBEq α] (xs : List α) : xs.eraseDups.Nodup := by
  induction hl : xs.length using Nat.strong_induction_on generalizing xs with
  | _ m ih =>
  cases xs with
  | nil => exact List.nodup_nil
  | cons x xs =>
    rw [List.eraseDups_cons, List.nodup_cons, List.mem_eraseDups]
    have hlt : (xs.filter fun y => !y == x).length < m := by
      have hle := List.length_filter_le (fun y => !y == x) xs
      rw [List.length_cons] at hl
      omega
    exact ⟨by simp, ih _ hlt _ rfl⟩

/-! ### Groups and nodes that change -/

/-- The group without some nodes. -/
def Group.withoutNodes (ks : List NodeKey) (b : Group) : Group :=
  { b with members := b.members.filter (· ∉ ks) }

@[simp] theorem Group.key_withoutNodes (ks : List NodeKey) (b : Group) :
    (b.withoutNodes ks).key = b.key := rfl

theorem Group.withoutNodes_of_not_mem {k : NodeKey} {b : Group} (hk : k ∉ b.members) :
    b.withoutNodes [k] = b := by
  have hall : b.members.filter (· ∉ [k]) = b.members :=
    List.filter_eq_self.2 fun j hj => by simpa using fun e : j = k => hk (e ▸ hj)
  rw [withoutNodes, hall]

/-- The group after some nodes have moved to the group under a key: that one lists them last, and
every other one has lost them. -/
def Group.regrouped (a : GroupKey) (ks : List NodeKey) (b : Group) : Group :=
  if b.key = a then { b with members := b.members ++ ks } else b.withoutNodes ks

@[simp] theorem Group.key_regrouped (a : GroupKey) (ks : List NodeKey) (b : Group) :
    (b.regrouped a ks).key = b.key := by
  simp only [regrouped]
  split <;> rfl

@[simp] theorem Group.id_regrouped (a : GroupKey) (ks : List NodeKey) (b : Group) :
    (b.regrouped a ks).id = b.id := by
  simp only [regrouped]
  split <;> rfl

@[simp] theorem Group.regrouped_nil (a : GroupKey) (b : Group) : b.regrouped a [] = b := by
  simp [regrouped, withoutNodes]

theorem Group.regrouped_regrouped (a : GroupKey) (ks js : List NodeKey) (b : Group) :
    (b.regrouped a ks).regrouped a js = b.regrouped a (ks ++ js) := by
  by_cases hb : b.key = a
  · simp [regrouped, hb]
  · simp [regrouped, withoutNodes, hb, List.filter_filter, Bool.and_comm]

/-- The node as a member of a group. -/
def Node.joined (a : GroupKey) (id : Option String) (n : Node) : Node :=
  { n with group := some a, groupId := id }

/-! ### A place for a tree -/

namespace Forest
variable {f f' : Forest} {t : Tree} {o : Option GroupKey} {k : GroupKey}

theorem detach?_eq_none (hk : k ∉ f.keys) : f.detach? k = none := by
  rw [← Option.map_eq_none_iff, detach?_map_fst]
  exact tree?_eq_none hk

/-- The last root is taken out again. -/
theorem detach?_plant (hk : t.root.key ∉ f.keys) :
    (f.plant t).detach? t.root.key = some (t, f) := by
  induction f with
  | nil => simp [plant, append, ofTree, detach?]
  | cons a cs rest _ ih =>
    rw [keys_cons, List.mem_cons, List.mem_append, not_or, not_or] at hk
    obtain ⟨ha, hcs, hrest⟩ := hk
    have hlast : (rest.append (ofTree t)).detach? t.root.key = some (t, rest) := ih hrest
    simp only [plant, append, detach?, if_neg (Ne.symm ha), detach?_eq_none hcs, hlast,
      Option.map_some]

theorem tree?_map {h : Group → Group} (hh : ∀ a, (h a).key = a.key) (f : Forest) (k : GroupKey) :
    (f.map h).tree? k = (f.tree? k).map fun t => ⟨h t.root, t.children.map h⟩ := by
  rw [← detach?_map_fst, ← detach?_map_fst, detach?_map hh, Option.map_map, Option.map_map]
  rfl

end Forest

namespace Graph
open Forest

variable {g h : Graph} {a : GroupKey} {k : NodeKey} {n : Node}

/-! ### One node joins a group -/

namespace Mutual

/-- A group that a node does not name does not list it. -/
theorem not_mem_members (hm : Mutual g) (hn : g.node? k = some n) {b : Group}
    (hb : b ∈ g.clusters) (hne : n.group ≠ some b.key) : k ∉ b.members := by
  intro hk
  obtain ⟨m, hmk, hmb⟩ := hm.exists_node hb hk
  obtain rfl : n = m := Option.some.inj (hn.symm.trans hmk)
  exact hne hmb

/-- A node leaves the group that it is in, and no other group has it. -/
theorem exists_leaveAnyGroup (hm : Mutual g) (hn : g.node? k = some n) : ∃ nodes,
    g.leaveAnyGroup k = { g.mapGroups (Group.withoutNodes [k]) with nodes } ∧
      ∀ j, nodes.get? j =
        if j = k then some (if n.group.isNone then n else n.ungrouped) else g.node? j := by
  have hstay {b : Group} (hb : b ∈ g.clusters) (hout : n.group ≠ some b.key) :
      b.withoutNodes [k] = b := Group.withoutNodes_of_not_mem (hm.not_mem_members hn hb hout)
  cases hgroup : n.group with
  | none =>
    have hsame (f : Forest) (hf : f.preorder ⊆ g.clusters) :
        f.map (Group.withoutNodes [k]) = f :=
      Forest.map_eq_self fun b hb => hstay (hf hb) (by simp [hgroup])
    refine ⟨g.nodes, ?_, fun j => ?_⟩
    · have hleave : g.leaveAnyGroup k = g := by simp [leaveAnyGroup, hn, hgroup]
      rw [hleave, mapGroups, hsame _ (List.subset_append_left _ _),
        hsame _ (List.subset_append_right _ _)]
    · by_cases hj : j = k
      · subst hj
        simpa [node?] using hn
      · simp [hj, node?]
  | some c =>
    obtain ⟨b, hb, rfl⟩ := hm.exists_group hn hgroup
    have hk : k ∈ b.members := (hm.mem_members_iff b hb k).2 ⟨n, hn, hgroup⟩
    have hin : (g.group? b.key).any (fun (b : Group) => k ∈ b.members) = true := by
      rw [group?_of_mem hm.keys_nodup hb]
      simpa using hk
    have herase {c : Group} (hc : c ∈ g.clusters) :
        (if c.key = b.key then { c with members := c.members.erase k } else c) =
          c.withoutNodes [k] := by
      split
      · rw [(hm.members_nodup c hc).erase_eq_filter]
        simp [Group.withoutNodes, bne, beq_eq_decide]
      · next hne => exact (hstay hc (by simpa [hgroup] using Ne.symm hne)).symm
    have hmap (f : Forest) (hf : f.preorder ⊆ g.clusters) :
        f.modify b.key (fun c => { c with members := c.members.erase k }) =
          f.map (Group.withoutNodes [k]) :=
      Forest.map_congr fun c hc => herase (hf hc)
    refine ⟨g.nodes.modify k fun m =>
      if m.group = some b.key then { m with group := none, groupId := none } else m, ?_,
      fun j => ?_⟩
    · simp only [leaveAnyGroup, hn, Option.bind_some, hgroup, leaveGroup, hin, if_true,
        modifyGroup, modifyNode, hmap _ (List.subset_append_left _ _),
        hmap _ (List.subset_append_right _ _)]
      rfl
    · rw [Arena.get?_modify]
      by_cases hj : j = k
      · subst hj
        have hnode : g.nodes.get? j = some n := hn
        simp [hnode, hgroup, Node.ungrouped]
      · simp [hj, Ne.symm hj, node?]

/-- A node joins a group that it is not in: the group lists it last, and no other group has it. -/
theorem exists_joinGroup (hm : Mutual g) (hn : g.node? k = some n) (hne : n.group ≠ some a) :
    ∃ nodes, g.joinGroup a k = { g.mapGroups (Group.regrouped a [k]) with nodes } ∧
      ∀ j, nodes.get? j = if j = k then
        (g.node? j).map (Node.joined a ((g.group? a).map (·.id))) else g.node? j := by
  obtain ⟨nodes, hleave, hnodes⟩ := hm.exists_leaveAnyGroup hn
  have hid : ((g.leaveAnyGroup k).group? a).map (·.id) = (g.group? a).map (·.id) := by
    have hkey := group?_mapGroups g (f := Group.withoutNodes [k]) (fun _ => rfl) a
    rw [hleave]
    exact (congrArg (Option.map (·.id)) hkey).trans (Option.map_map ..)
  have hmap {b : Group} (hb : b ∈ g.clusters) :
      (if (b.withoutNodes [k]).key = a then
        { b.withoutNodes [k] with members := (b.withoutNodes [k]).members ++ [k] }
      else b.withoutNodes [k]) =
          b.regrouped a [k] := by
    by_cases hba : b.key = a
    · rw [Group.withoutNodes_of_not_mem (hm.not_mem_members hn hb (hba ▸ hne))]
      simp [Group.regrouped, hba]
    · simp [Group.regrouped, hba]
  have hforest (f : Forest) (hf : f.preorder ⊆ g.clusters) :
      (f.map (Group.withoutNodes [k])).modify a (fun b => { b with members := b.members ++ [k] }) =
        f.map (Group.regrouped a [k]) := by
    rw [Forest.modify, Forest.map_map]
    exact Forest.map_congr fun b hb => hmap (hf hb)
  have hjoin : ¬ (g.node? k).bind (·.group) = some a := by
    rw [hn]
    exact hne
  refine ⟨nodes.modify k (Node.joined a ((g.group? a).map (·.id))), ?_, fun j => ?_⟩
  · simp only [joinGroup, if_neg hjoin, hid]
    rw [hleave]
    simp only [mapGroups, modifyGroup, modifyNode, hforest _ (List.subset_append_left _ _),
      hforest _ (List.subset_append_right _ _)]
    rfl
  · rw [Arena.get?_modify, hnodes]
    by_cases hj : j = k
    · subst hj
      rw [if_pos rfl, if_pos rfl, if_pos rfl, hn]
      cases n.group <;> rfl
    · rw [if_neg hj, if_neg hj, if_neg (Ne.symm hj)]

/-- Memberships are mutual after a node has joined a group. -/
theorem joinGroup (hm : Mutual g) (ha : (g.group? a).isSome = true) (hn : g.node? k = some n)
    (hne : n.group ≠ some a) : Mutual (g.joinGroup a k) := by
  obtain ⟨nodes, heq, hnodes⟩ := hm.exists_joinGroup hn hne
  rw [heq]
  have hfrom {b : Group} (hb : b ∈ (g.mapGroups (Group.regrouped a [k])).clusters) :
      ∃ c ∈ g.clusters, c.regrouped a [k] = b := by
    rw [clusters_mapGroups] at hb
    exact List.mem_map.1 hb
  have hto {c : Group} (hc : c ∈ g.clusters) :
      c.regrouped a [k] ∈ (g.mapGroups (Group.regrouped a [k])).clusters := by
    rw [clusters_mapGroups]
    exact List.mem_map_of_mem hc
  have hout {c : Group} (hc : c ∈ g.clusters) (hca : c.key = a) : k ∉ c.members :=
    hm.not_mem_members hn hc (hca ▸ hne)
  refine ⟨?_, fun b hb => ?_, fun b hb => ?_, fun b hb j => ?_, fun {j m c} hj hc => ?_⟩
  · change ((g.mapGroups (Group.regrouped a [k])).clusters.map (·.key)).Nodup
    rw [clusters_mapGroups, List.map_map]
    simpa only [Function.comp_def, Group.key_regrouped] using hm.keys_nodup
  · obtain ⟨c, hc, rfl⟩ := hfrom hb
    rw [Group.key_regrouped]
    exact hm.keys_lt c hc
  · obtain ⟨c, hc, rfl⟩ := hfrom hb
    by_cases hca : c.key = a
    · simpa [Group.regrouped, hca, List.nodup_append, hm.members_nodup c hc] using
        fun j hj => (fun e : j = k => hout hc hca (e ▸ hj))
    · simpa [Group.regrouped, Group.withoutNodes, hca] using (hm.members_nodup c hc).filter _
  · obtain ⟨c, hc, rfl⟩ := hfrom hb
    have hnamed : (∃ m, nodes.get? j = some m ∧ m.group = some c.key) ↔
        if j = k then c.key = a else j ∈ c.members := by
      rw [hnodes, hm.mem_members_iff c hc]
      by_cases hj : j = k
      · subst hj
        simp [hn, Node.joined, eq_comm]
      · simp [hj]
    rw [Group.key_regrouped]
    refine Iff.trans ?_ hnamed.symm
    by_cases hj : j = k
    · subst hj
      by_cases hca : c.key = a <;> simp [Group.regrouped, Group.withoutNodes, hca]
    · by_cases hca : c.key = a <;> simp [Group.regrouped, Group.withoutNodes, hca, hj]
  · replace hj : nodes.get? j = some m := hj
    rw [hnodes] at hj
    obtain ⟨b, hb, hkey⟩ : ∃ b ∈ g.clusters, b.key = c := by
      split at hj
      · obtain ⟨m, -, rfl⟩ := Option.map_eq_some_iff.1 hj
        obtain ⟨b, hb⟩ := Option.isSome_iff_exists.1 ha
        obtain rfl : a = c := Option.some.inj hc
        exact ⟨b, mem_of_group? hb⟩
      · exact hm.exists_group hj hc
    exact ⟨_, hto hb, (Group.key_regrouped _ _ b).trans hkey⟩

/-- Memberships are mutual after an empty group has come under a fresh key. -/
theorem add (hm : Mutual g) {b : Group} (hkey : b.key = g.nextGroup) (hb : b.members = [])
    (hclusters : h.clusters.Perm (b :: g.clusters)) (hnodes : h.nodes = g.nodes)
    (hnext : h.nextGroup = g.nextGroup + 1) : Mutual h := by
  have hnode (k : NodeKey) : h.node? k = g.node? k := by simp only [node?, hnodes]
  have hfresh {c : Group} (hc : c ∈ g.clusters) : c.key ≠ b.key :=
    hkey ▸ Nat.ne_of_lt (hm.keys_lt c hc)
  have hin {c : Group} : c ∈ h.clusters ↔ c = b ∨ c ∈ g.clusters := by
    rw [hclusters.mem_iff, List.mem_cons]
  refine ⟨?_, fun c hc => ?_, fun c hc => ?_, fun c hc k => ?_, fun {k n a} hn ha => ?_⟩
  · rw [(hclusters.map Group.key).nodup_iff, List.map_cons, List.nodup_cons]
    refine ⟨fun hmem => ?_, hm.keys_nodup⟩
    obtain ⟨c, hc, hcb⟩ := List.mem_map.1 hmem
    exact hfresh hc hcb
  · rw [hnext]
    rcases hin.1 hc with rfl | hc
    · exact hkey ▸ Nat.lt_succ_self _
    · exact Nat.lt_succ_of_lt (hm.keys_lt c hc)
  · rcases hin.1 hc with rfl | hc
    · simp [hb]
    · exact hm.members_nodup c hc
  · rw [hnode]
    rcases hin.1 hc with rfl | hc
    · simp only [hb, List.not_mem_nil, false_iff]
      rintro ⟨n, hn, hnc⟩
      obtain ⟨d, hd, hdc⟩ := hm.exists_group hn hnc
      exact hfresh hd hdc
    · exact hm.mem_members_iff c hc k
  · rw [hnode] at hn
    obtain ⟨c, hc, hca⟩ := hm.exists_group hn ha
    exact ⟨c, hin.2 (.inr hc), hca⟩

end Mutual
end Graph

namespace Layout
open Patchbay.Graph Forest

variable {g h : Graph} {a : GroupKey} {k : NodeKey}

/-! ### A new group -/

/-- The group that comes next. -/
def freshGroup (g : Graph) (name : String) (bounds : Rect Float) : Group where
  key := g.nextGroup
  id := g.freshId.1
  name
  bounds

theorem newGroup_eq (g : Graph) (name : String) (bounds : Rect Float) :
    g.newGroup name bounds = (g.nextGroup, { g with
      ids := g.ids.fresh.2
      nextGroup := g.nextGroup + 1
      loose := g.loose.plant ⟨freshGroup g name bounds, .nil⟩ }) := rfl

/-- A loose group that lies elsewhere becomes a child with all that lies below it. -/
theorem adoptGroup_of_detach? {parent c : GroupKey} {t : Tree} {loose : Forest}
    (hd : g.loose.detach? c = some (t, loose)) (hne : c ≠ parent)
    (hfar : g.descends parent c = false) : (g.adoptGroup parent (some c)).2 =
      { g with loose := loose.adopt parent t, groups := g.groups.adopt parent t } := by
  have ht := tree?_of_detach? hd
  simp only [adoptGroup, Option.bind_some, ht, key_of_tree? ht, hne, hfar, Bool.false_eq_true,
    or_self, if_false, hd]

/-- A new group without children stands at the end of the list of its parent. -/
theorem exists_createGroup (hm : Mutual g) {parent : Option GroupKey}
    (hp : ∀ p, parent = some p → g.ownsGroup p = true) (name : String) (bounds : Rect Float) :
    ∃ groups l, Hung ⟨freshGroup g name bounds, .nil⟩ parent l [] g.groups groups ∧
      createGroup g name bounds parent = (some g.nextGroup,
        { g with ids := g.ids.fresh.2, nextGroup := g.nextGroup + 1, groups }) := by
  have hfresh : g.nextGroup ∉ g.clusters.map (·.key) := fun hmem => by
    obtain ⟨b, hb, hkey⟩ := List.mem_map.1 hmem
    exact Nat.ne_of_lt (hm.keys_lt b hb) hkey
  rw [clusters, List.map_append, List.mem_append, not_or] at hfresh
  obtain ⟨hout, hloose⟩ := hfresh
  have hd : (g.loose.plant ⟨freshGroup g name bounds, .nil⟩).detach? g.nextGroup =
      some (⟨freshGroup g name bounds, .nil⟩, g.loose) :=
    detach?_plant (t := ⟨freshGroup g name bounds, .nil⟩) hloose
  cases parent with
  | none =>
    refine ⟨_, _, hung_plant g.groups _, ?_⟩
    simp only [createGroup, newGroup_eq, registerGroup, hd]
  | some p =>
    have hpg : p ∈ g.groups.keys := (ownsGroup_iff g p).1 (hp p rfl)
    have hpl : p ∉ g.loose.keys := not_mem_loose hm.keys_nodup hpg
    have hne : g.nextGroup ≠ p := fun e => hout (e ▸ hpg)
    have hdesc : (g.newGroup name bounds).2.descends p g.nextGroup = false := by
      rw [newGroup_eq, Graph.descends, Bool.or_eq_false_iff, ← Bool.not_eq_true, ← Bool.not_eq_true]
      refine ⟨fun h => hout (mem_keys_of_descends h).2, fun h => ?_⟩
      have hin := (mem_keys_of_descends h).1
      rw [keys, preorder_plant, List.map_append, List.mem_append] at hin
      refine hin.elim hpl fun hin => hne (Eq.symm ?_)
      simpa [Tree.preorder, Forest.preorder, freshGroup] using hin
    refine ⟨_, _, hung_adopt (keys_groups_nodup hm.keys_nodup) hpg _, ?_⟩
    have hadopt := adoptGroup_of_detach? (g := (g.newGroup name bounds).2) hd hne hdesc
    simp only [createGroup, hp p rfl, if_true]
    rw [newGroup_eq] at hadopt ⊢
    rw [hadopt, adopt_of_not_mem hpl]

/-! ### The nodes of a list join -/

theorem addNode_of_contains (l : Layout) (hk : g.contains k = true) (ha : g.ownsGroup a = true) :
    (l.addNode g k a false 0).2 = g.joinGroup a k := by
  simp [addNode, moveNodeToGroup, hk, ha]

theorem addNode_of_not_contains (l : Layout) (hk : g.contains k = false) :
    (l.addNode g k a false 0).2 = g := by
  simp [addNode, moveNodeToGroup, hk]

/-- Groups keep their ids when nodes move between them. -/
theorem id_group?_regrouped (g : Graph) (a : GroupKey) (ks : List NodeKey) (nodes : Arena Node) :
    (Graph.group? { g.mapGroups (Group.regrouped a ks) with nodes } a).map (·.id) =
      (g.group? a).map (·.id) := by
  have hkey := group?_mapGroups g (Group.key_regrouped a ks) a
  refine (congrArg (Option.map (·.id)) hkey).trans ((Option.map_map ..).trans ?_)
  exact congrArg (Option.map · _) (funext fun b => Group.id_regrouped a ks b)

theorem ownsGroup_regrouped (g : Graph) (a : GroupKey) (ks : List NodeKey) (nodes : Arena Node) :
    Graph.ownsGroup { g.mapGroups (Group.regrouped a ks) with nodes } a = g.ownsGroup a := by
  simp only [ownsGroup, mapGroups, Forest.has, Forest.get?_map (Group.key_regrouped a ks),
    Option.isSome_map]

/-- The nodes of a list that are in the graph join a group one after the other. -/
theorem exists_foldl_addNode (l : Layout) (hm : Mutual g) (ha : g.ownsGroup a = true)
    {ks : List NodeKey} (hn : ks.Nodup)
    (hout : ∀ k ∈ ks, ∀ n, g.node? k = some n → n.group ≠ some a) :
    ∃ nodes, ks.foldl (fun g k => (l.addNode g k a false 0).2) g =
        { g.mapGroups (Group.regrouped a (ks.filter g.contains)) with nodes } ∧
      ∀ j, nodes.get? j = if j ∈ ks.filter g.contains then
        (g.node? j).map (Node.joined a ((g.group? a).map (·.id))) else g.node? j := by
  induction ks generalizing g with
  | nil =>
    have hsame (f : Forest) : f.map (Group.regrouped a []) = f :=
      Forest.map_eq_self fun b _ => Group.regrouped_nil a b
    refine ⟨g.nodes, by simp [mapGroups, hsame], fun j => by simp [node?]⟩
  | cons k ks ih =>
    rw [List.nodup_cons] at hn
    obtain ⟨hk, hn⟩ := hn
    rw [List.foldl_cons]
    cases hc : g.contains k with
    | false =>
      have hrest := ih hm ha hn fun j hj => hout j (List.mem_cons_of_mem k hj)
      rwa [addNode_of_not_contains l hc, List.filter_cons_of_neg (by simp [hc])]
    | true =>
      obtain ⟨n, hnode, -⟩ := (Option.any_eq_true _ _).1 hc
      have hne : n.group ≠ some a := hout k List.mem_cons_self n hnode
      have hag : (g.group? a).isSome = true := by
        rw [group?, Option.isSome_or]
        exact Bool.or_eq_true_iff.2 (.inl ha)
      obtain ⟨nodes, hjoin, hnodes⟩ := hm.exists_joinGroup hnode hne
      have hmutual := hm.joinGroup hag hnode hne
      have hcontains : (g.joinGroup a k).contains = g.contains :=
        funext (sameWiring_joinGroup g a k).contains
      have hid : ((g.joinGroup a k).group? a).map (·.id) = (g.group? a).map (·.id) := by
        rw [hjoin, id_group?_regrouped]
      have howns : (g.joinGroup a k).ownsGroup a = true := by
        rw [hjoin, ownsGroup_regrouped, ha]
      obtain ⟨nodes', hrest, hnodes'⟩ := ih hmutual howns hn fun j hj m hmj => by
        have hjk : j ≠ k := fun e => hk (e ▸ hj)
        refine hout j (List.mem_cons_of_mem k hj) m ?_
        rw [hjoin] at hmj
        exact (by simpa [hjk] using hnodes j : nodes.get? j = g.node? j) ▸ hmj
      rw [addNode_of_contains l hc ha, hrest, List.filter_cons_of_pos hc]
      rw [hcontains] at hnodes' ⊢
      have hcomp : Group.regrouped a (ks.filter g.contains) ∘ Group.regrouped a [k] =
          Group.regrouped a (k :: ks.filter g.contains) :=
        funext (Group.regrouped_regrouped a [k] _)
      refine ⟨nodes', by rw [hjoin]; simp only [mapGroups, Forest.map_map, hcomp], fun j => ?_⟩
      rw [hnodes', hid]
      have hj : (g.joinGroup a k).node? j = nodes.get? j := by rw [hjoin]; rfl
      rw [hj, hnodes]
      by_cases hjk : j = k
      · subst hjk
        simp [hk]
      · simp [hjk]

theorem setBounds_id (g : Graph) (a : GroupKey) : setBounds g a id = g := by
  have hsame (f : Forest) : f.modify a (fun b => { b with bounds := id b.bounds }) = f :=
    Forest.map_eq_self fun b _ => ite_self b
  rw [setBounds, modifyGroup, hsame, hsame]

/-- The bounds of a group without children are drawn around its members, if it has any. -/
theorem fit_of_leaf (l : Layout) {b : Group} (ht : g.tree? a = some ⟨b, .nil⟩) (padding : Float) :
    l.fit g a padding = setBounds g a fun old =>
      if b.members = [] then old else l.boundsOf g b.members padding := by
  have hmembers : ((g.tree? a).map (·.members)).getD [] = b.members := by
    simp [ht, Tree.members, Forest.members]
  simp only [fit, hmembers]
  cases b.members with
  | nil => exact (setBounds_id g a).symm
  | cons k ks => rfl

end Layout

namespace Graph
open Forest

/-- The graph after a group has been formed around some of its nodes. -/
structure Formed (l : Layout) (g : Graph) (name : String) (ks : List NodeKey) (padding : Float)
    (parent : Option GroupKey) (new : Group) (h : Graph) : Prop where
  /-- Nothing but nodes and groups has changed, and a key and an id are handed out. -/
  rest : { h with nodes := g.nodes, groups := g.groups, loose := g.loose, ids := g.ids,
                  nextGroup := g.nextGroup } = g
  fresh : ∀ b ∈ g.clusters, b.key ≠ new.key
  group? : h.group? new.key = some new
  id : new.id = g.freshId.1
  name : new.name = name
  /-- The members are the nodes of the list that are in the graph. -/
  members : new.members = ks.filter g.contains
  /-- The bounds are drawn around the members. If there are none they are drawn around the list. -/
  bounds : new.bounds =
    if new.members = [] then l.boundsOf g ks padding else l.boundsOf h new.members padding
  /-- The group is the last one in the list of its parent. The others stand where they stood and
  have lost the nodes. -/
  childrenOf : ∀ o, h.groups.childrenOf o =
    (g.groups.childrenOf o).map (Group.withoutNodes new.members) ++ if o = parent then [new] else []
  allGroups : h.allGroups.filter (·.key ≠ new.key) =
    g.allGroups.map (Group.withoutNodes new.members)
  loose : h.loose = g.loose.map (Group.withoutNodes new.members)
  /-- The members name the group and keep its id, and no other node has changed. -/
  node? : ∀ k, h.node? k = if k ∈ new.members then
    (g.node? k).map fun n => { n with group := some new.key, groupId := some new.id }
    else g.node? k

end Graph

namespace Layout
open Patchbay.Graph Forest

variable {g : Graph}

/-- The group as it is after a new group has taken its members. -/
def settled (new b : Group) : Group := if b.key = new.key then new else b.withoutNodes new.members

@[simp] theorem key_settled (new b : Group) : (settled new b).key = b.key := by
  by_cases hb : b.key = new.key <;> simp [settled, hb]

/-- The nodes of a list join a group that was just hung up, and its bounds are drawn. -/
theorem exists_fit_foldl_addNode (l : Layout) (hm : Mutual g) {b : Group} {ks : List NodeKey}
    (hn : ks.Nodup) (ht : g.groups.tree? b.key = some ⟨b, .nil⟩) (hempty : b.members = [])
    (padding : Float) : ∃ nodes new, new = { b with
      members := ks.filter g.contains
      bounds := if ks.filter g.contains = [] then b.bounds
        else l.boundsOf { g with nodes } (ks.filter g.contains) padding } ∧
      l.fit (ks.foldl (fun g k => (l.addNode g k b.key false 0).2) g) b.key padding =
        { g.mapGroups (settled new) with nodes } ∧
      ∀ k, nodes.get? k = if k ∈ ks.filter g.contains then
        (g.node? k).map (Node.joined b.key (some b.id)) else g.node? k := by
  have hin : b ∈ g.clusters := List.mem_append_left _ <| by
    have hhouse : b ∈ g.withDescendants b.key := withDescendants_eq hm ht ▸ List.mem_cons_self
    exact List.mem_of_mem_filter hhouse
  have howns : g.ownsGroup b.key = true := by
    rw [ownsGroup_iff, mem_keys_iff_tree?, ht]
    rfl
  have hout : ∀ k ∈ ks, ∀ n, g.node? k = some n → n.group ≠ some b.key := by
    intro k _ n hnode hgroup
    have hk := (hm.mem_members_iff b hin k).2 ⟨n, hnode, hgroup⟩
    simp [hempty] at hk
  obtain ⟨nodes, hrun, hnodes⟩ := exists_foldl_addNode l hm howns hn hout
  rw [group?_of_mem hm.keys_nodup hin, Option.map_some] at hnodes
  set moved := ks.filter g.contains with hmoved
  refine ⟨nodes, _, rfl, ?_, hnodes⟩
  have hleaf : Graph.tree? { g.mapGroups (Group.regrouped b.key moved) with nodes } b.key =
      some ⟨b.regrouped b.key moved, .nil⟩ := by
    simp only [Graph.tree?, mapGroups, tree?_map (Group.key_regrouped b.key moved), ht]
    rfl
  have hmembers : (b.regrouped b.key moved).members = moved := by
    simp [Group.regrouped, hempty]
  -- under the key of the group there is no other one
  have hforest (f : Forest) (hf : f.preorder ⊆ g.clusters) (draw : Rect Float → Rect Float) :
      (f.map (Group.regrouped b.key moved)).modify b.key
          (fun c => { c with bounds := draw c.bounds }) =
        f.map (settled { b with members := moved, bounds := draw b.bounds }) := by
    rw [Forest.modify, Forest.map_map]
    refine Forest.map_congr fun c hc => ?_
    by_cases hcb : c.key = b.key
    · obtain rfl : c = b := List.inj_on_of_nodup_map hm.keys_nodup (hf hc) hin hcb
      simp [settled, Group.regrouped, hempty]
    · simp [settled, Group.regrouped, hcb]
  rw [hrun, fit_of_leaf l hleaf, hmembers]
  let draw (old : Rect Float) : Rect Float :=
    if moved = [] then old else l.boundsOf { g with nodes } moved padding
  have hgroups := hforest g.groups (List.subset_append_left _ _) draw
  have hloose := hforest g.loose (List.subset_append_right _ _) draw
  change { g with
    nodes
    groups := (g.groups.map (Group.regrouped b.key moved)).modify b.key
      fun c => { c with bounds := draw c.bounds }
    loose := (g.loose.map (Group.regrouped b.key moved)).modify b.key
      fun c => { c with bounds := draw c.bounds } } = _
  rw [hgroups, hloose]
  rfl

/-- A group around some nodes is hung up at the end of the list of its parent and takes those of
them that are in the graph. -/
theorem exists_createGroupAround (hm : Mutual g) (l : Layout) (name : String)
    (ks : List (Option NodeKey)) (padding : Float) {parent : Option GroupKey}
    (hp : ∀ p, parent = some p → g.ownsGroup p = true) :
    ∃ groups left nodes b new, Hung ⟨b, .nil⟩ parent left [] g.groups groups ∧
      groups.keys.Nodup ∧ b.key = g.nextGroup ∧ new = { b with
        id := g.freshId.1
        name
        members := (listed ks).filter g.contains
        bounds := if (listed ks).filter g.contains = [] then l.boundsOf g (listed ks) padding
          else l.boundsOf { g with nodes } ((listed ks).filter g.contains) padding } ∧
      l.createGroupAround g name ks padding parent = (some new.key, { g with
        nodes
        ids := g.ids.fresh.2
        nextGroup := g.nextGroup + 1
        groups := groups.map (settled new)
        loose := g.loose.map (settled new) }) ∧
      ∀ k, nodes.get? k = if k ∈ new.members then
        (g.node? k).map (Node.joined new.key (some new.id)) else g.node? k := by
  set bounds := l.boundsOf g (listed ks) padding with hbounds
  obtain ⟨groups, left, hung, hcreate⟩ := exists_createGroup hm hp name bounds
  set h : Graph := { g with ids := g.ids.fresh.2, nextGroup := g.nextGroup + 1, groups } with hh
  have hmutual : Mutual h := by
    refine hm.add (b := freshGroup g name bounds) rfl rfl ?_ rfl rfl
    exact hung.preorder_perm.append_right g.loose.preorder
  have hn : groups.keys.Nodup := keys_groups_nodup hmutual.keys_nodup
  have ht : h.groups.tree? (freshGroup g name bounds).key = some ⟨freshGroup g name bounds, .nil⟩ :=
    hung.tree? hn
  obtain ⟨nodes, new, hnew, hrun, hnodes⟩ :=
    exists_fit_foldl_addNode l hmutual (nodup_eraseDups _) ht rfl padding
  have hcontains : h.contains = g.contains := rfl
  rw [hcontains] at hnew hnodes
  refine ⟨groups, left, nodes, freshGroup g name bounds, new, hung, hn, rfl, hnew, ?_, ?_⟩
  · simp only [createGroupAround]
    rw [← hbounds, hcreate]
    subst hnew
    exact congrArg (Prod.mk _) hrun
  · subst hnew
    exact hnodes

/-- What a graph is after a group has been formed around the nodes of a list. -/
theorem formed (hm : Mutual g) (l : Layout) (name : String) (ks : List (Option NodeKey))
    (padding : Float) {parent : Option GroupKey}
    (hp : ∀ p, parent = some p → g.ownsGroup p = true) :
    ∃ new, (l.createGroupAround g name ks padding parent).1 = some new.key ∧
      g.Formed l name (listed ks) padding parent new
        (l.createGroupAround g name ks padding parent).2 := by
  obtain ⟨groups, left, nodes, b, new, hung, hn, hbkey, hnew, heq, hnodes⟩ :=
    exists_createGroupAround hm l name ks padding hp
  have hkey : new.key = b.key := by rw [hnew]
  have hbnew : settled new b = new := if_pos hkey.symm
  have hfresh {c : Group} (hc : c ∈ g.clusters) : c.key ≠ new.key := by
    rw [hkey, hbkey]
    exact Nat.ne_of_lt (hm.keys_lt c hc)
  have hrest {cs : List Group} (hcs : cs ⊆ g.clusters) :
      cs.map (settled new) = cs.map (Group.withoutNodes new.members) :=
    List.map_congr_left fun c hc => if_neg (hfresh (hcs hc))
  have hgroups : g.groups.preorder ⊆ g.clusters := List.subset_append_left _ _
  obtain ⟨before, after, hwithout, hwith⟩ := hung.preorder
  have hbefore : before ⊆ g.clusters :=
    fun c hc => hgroups (hwithout ▸ List.mem_append_left _ hc)
  have hafter : after ⊆ g.clusters :=
    fun c hc => hgroups (hwithout ▸ List.mem_append_right _ hc)
  have hstay {cs : List Group} (hcs : cs ⊆ g.clusters) :
      (cs.map (Group.withoutNodes new.members)).filter (·.key ≠ new.key) =
        cs.map (Group.withoutNodes new.members) := by
    refine List.filter_eq_self.2 fun c hc => decide_eq_true ?_
    obtain ⟨d, hd, rfl⟩ := List.mem_map.1 hc
    have hne : d.key ≠ new.key := hfresh (hcs hd)
    exact hne
  rw [heq]
  refine ⟨new, rfl, rfl, fun c hc => hfresh hc, ?_, by rw [hnew], by rw [hnew], by rw [hnew], ?_,
    fun o => ?_, ?_, ?_, hnodes⟩
  · have hb : b ∈ groups.preorder := by simp [hwith, Tree.preorder]
    have hget : (groups.map (settled new)).get? new.key = some new := by
      rw [get?_map (key_settled new), hkey, get?_of_mem hn hb, Option.map_some, hbnew]
    simp only [Graph.group?, hget, Option.some_or]
  · rw [hnew]
    rfl
  · rw [childrenOf_map (key_settled new), hung.childrenOf_leaf hn, List.map_append,
      hrest fun c hc => hgroups (childrenOf_subset g.groups o hc)]
    split
    · rw [List.map_singleton, hbnew]
    · rfl
  · simp only [allGroups, preorder_map, hwith, hwithout, Tree.preorder, Forest.preorder,
      List.map_append, List.map_cons, List.cons_append, List.nil_append, hbnew, hrest hbefore,
      hrest hafter, List.filter_append, hstay hbefore]
    rw [List.filter_cons_of_neg (by simp), hstay hafter]
  · exact Forest.map_congr fun c hc => if_neg (hfresh (List.mem_append_right _ hc))

/-- A group is formed around the nodes of a list, in which some places may hold no node, unless it
shall stand below a group that the graph does not own. Of the nodes the new group has those that are
in the graph, in the order in which they first occur. -/
theorem createGroupAround_iff (hm : Mutual g) (l : Layout) (name : String)
    (ks : List (Option NodeKey)) (padding : Float) (parent : Option GroupKey) :
    ((∃ p, parent = some p ∧ g.ownsGroup p = false) →
      l.createGroupAround g name ks padding parent = (none, g)) ∧
    ((∀ p, parent = some p → g.ownsGroup p = true) →
      ∃ new, (l.createGroupAround g name ks padding parent).1 = some new.key ∧
        g.Formed l name ks.reduceOption.eraseDups padding parent new
          (l.createGroupAround g name ks padding parent).2) := by
  refine ⟨?_, formed hm l name ks padding⟩
  rintro ⟨p, rfl, hp⟩
  simp [createGroupAround, createGroup, hp]

/-- Of a list with a gap, a loose node, a node that is dead and a node that occurs twice, two nodes
leave their groups for the new one. It cannot stand below a group that there is not. -/
theorem createGroupAround_threeGroups :
    let g := Edit.apply threeGroups (.newNode (.pinless "s"))
    let ks := [none, some 1, some 3, some 0, some 7, some 1]
    let r := createGroupAround {} g "w" ks 8 (some 2)
    g.Mutual ∧ g.ownsGroup 2 = true ∧ g.ownsGroup 5 = false ∧
      createGroupAround {} g "w" ks 8 (some 5) = (none, g) ∧
      (∃ new, r.1 = some new.key ∧
        g.Formed {} "w" ks.reduceOption.eraseDups 8 (some 2) new r.2) ∧
      r.2.allGroups.map (·.members) = [[], [], [2], [1, 0]] := by
  intro g ks r
  have hm : g.Mutual :=
    (reachable_threeGroups.edit (.newNode (.pinless "s")) (Node.fresh_ofSpecs ..)).grouped.mutual
  have htwo : g.ownsGroup 2 = true := rfl
  have hfive : g.ownsGroup 5 = false := rfl
  have hmembers : (createGroupAround {} (Edit.apply threeGroups (.newNode (.pinless "s"))) "w"
      [none, some 1, some 3, some 0, some 7, some 1] 8
        (some 2)).2.allGroups.map (·.members) = [[], [], [2], [1, 0]] := by decide +kernel
  obtain ⟨-, hformed⟩ := createGroupAround_iff hm {} "w" ks 8 (some 2)
  obtain ⟨hrefused, -⟩ := createGroupAround_iff hm {} "w" ks 8 (some 5)
  refine ⟨hm, htwo, hfive, hrefused ⟨5, rfl, hfive⟩, hformed ?_, hmembers⟩
  rintro p ⟨⟩
  exact htwo

end Layout
end Patchbay
