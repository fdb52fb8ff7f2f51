import Patchbay.Proofs.Grouping.Mutual
/-!
# Destroying groups

A group that is destroyed takes along what lies below it. First all of these groups let their
members go, and then their tree is taken out of the forest. So exactly the members of the tree lose
their group, and what stands elsewhere in the forest stays as it is. The layout has no way of its
own to destroy a group: it leaves that to the graph.

## Main definitions

* `Node.freed`: a node without its group, if that is one of those that go.
* `Graph.Disbanded`: what the graph is after a group was destroyed.

## Main statements

* `Graph.Mutual.node?_foldl_clearGroup`: which nodes groups let go that are emptied.
* `Graph.removeGroup_iff`: when a group is destroyed, and what comes of it.
-/
namespace Patchbay

/-- The node without its group. -/
def Node.ungrouped (n : Node) : Node := { n with group := none, groupId := none }

/-- The node without its group, if it is one of those that go. -/
def Node.freed (gone : List GroupKey) (n : Node) : Node :=
  if n.group.any (· ∈ gone) then n.ungrouped else n

theorem Node.freed_singleton (n : Node) (a : GroupKey) :
    n.freed [a] = if n.group = some a then n.ungrouped else n := by
  cases hn : n.group <;> simp [freed, hn]

@[simp] theorem Node.freed_nil (n : Node) : n.freed [] = n := by
  cases hn : n.group <;> simp [freed, hn]

theorem Node.freed_cons (n : Node) (a : GroupKey) (ks : List GroupKey) :
    (n.freed [a]).freed ks = n.freed (a :: ks) := by
  obtain hn | ⟨b, hn⟩ := n.group.eq_none_or_eq_some
  · simp [freed, hn]
  · by_cases hb : b = a <;> by_cases hbs : b ∈ ks <;> simp [freed, hn, hb, hbs, ungrouped]

/-- A node that still names a group names one that stays. -/
theorem Node.group_freed_eq_some {n : Node} {gone : List GroupKey} {a : GroupKey} :
    (n.freed gone).group = some a ↔ n.group = some a ∧ a ∉ gone := by
  obtain hn | ⟨b, hn⟩ := n.group.eq_none_or_eq_some
  · simp [freed, hn]
  · by_cases hb : b ∈ gone
    · simp only [freed, hn, Option.any_some, hb, decide_true, if_true, ungrouped, Option.some.injEq,
        reduceCtorEq, false_iff, not_and, not_not]
      rintro rfl
      exact hb
    · simp only [freed, hn, Option.any_some, hb, decide_false, Bool.false_eq_true, if_false,
        Option.some.injEq]
      exact ⟨fun h => ⟨h, h ▸ hb⟩, And.left⟩

namespace Graph
variable {g h : Graph} {a : GroupKey}

/-! ### Groups that are emptied -/

/-- Nothing but nodes and groups changes when groups are cleared, and no key is handed out. -/
theorem exists_foldl_clearGroup (ks : List GroupKey) (g : Graph) : ∃ nodes,
    ks.foldl clearGroup g = { g.mapGroups (Group.emptied ks) with nodes } ∧
      nodes.next = g.nodes.next := by
  have hnext (f : Node → Node) (js : List NodeKey) (a : Arena Node) :
      (js.foldl (fun a k => a.modify k f) a).next = a.next := by
    induction js generalizing a with
    | nil => rfl
    | cons j js ih => exact (ih _).trans (Arena.next_modify a j f)
  have hclear (g : Graph) (a : GroupKey) : ∃ nodes groups loose,
      g.clearGroup a = { g with nodes, groups, loose } ∧ nodes.next = g.nodes.next := by
    rw [clearGroup, foldl_modifyNode]
    exact ⟨_, _, _, rfl, hnext _ _ _⟩
  have hall : ∃ nodes groups loose,
      ks.foldl clearGroup g = { g with nodes, groups, loose } ∧ nodes.next = g.nodes.next := by
    induction ks generalizing g with
    | nil => exact ⟨g.nodes, g.groups, g.loose, rfl, rfl⟩
    | cons k ks ih =>
      obtain ⟨nodes, groups, loose, hk, hkn⟩ := hclear g k
      obtain ⟨nodes', groups', loose', hks, hksn⟩ := ih (g.clearGroup k)
      refine ⟨nodes', groups', loose', ?_, ?_⟩
      · rw [List.foldl_cons, hks, hk]
      · rw [hksn, hk, hkn]
  obtain ⟨nodes, groups, loose, hrun, hn⟩ := hall
  obtain ⟨hgroups, hloose⟩ := groups_foldl_clearGroup ks g
  rw [hrun] at hgroups hloose
  refine ⟨nodes, ?_, hn⟩
  rw [hrun, mapGroups, ← hgroups, ← hloose]

namespace Mutual

/-- The members of a group that is cleared are ungrouped. -/
theorem node?_clearGroup (hm : Mutual g) (a : GroupKey) (k : NodeKey) :
    (g.clearGroup a).node? k = (g.node? k).map (Node.freed [a]) := by
  have hnodup : (((g.group? a).map (·.members)).getD []).Nodup := by
    cases hb : g.group? a with
    | none => exact List.nodup_nil
    | some b => exact hm.members_nodup b (mem_of_group? hb).1
  rw [Graph.node?_clearGroup g a hnodup]
  cases hn : g.node? k with
  | none => simp
  | some n =>
    split
    · exact congrArg some (n.freed_singleton a).symm
    · next hout =>
      have hother : n.group ≠ some a := fun hna => by
        obtain ⟨b, hb, rfl⟩ := hm.exists_group hn hna
        rw [group?_of_mem hm.keys_nodup hb] at hout
        exact hout ((hm.mem_members_iff b hb k).2 ⟨n, hn, hna⟩)
      rw [Option.map_some, n.freed_singleton, if_neg hother]

/-- Memberships are mutual after a group has lost its members. -/
theorem clearGroup (hm : Mutual g) (a : GroupKey) : Mutual (g.clearGroup a) := by
  have hclusters : (g.clearGroup a).clusters = g.clusters.map (Group.emptied [a]) := by
    rw [clusters_clearGroup]
    exact List.map_congr_left fun b _ => by simp [Group.emptied]
  have hfrom {b : Group} (hb : b ∈ (g.clearGroup a).clusters) :
      ∃ c ∈ g.clusters, c.emptied [a] = b := by
    rw [hclusters] at hb
    exact List.mem_map.1 hb
  refine ⟨?_, fun b hb => ?_, fun b hb => ?_, fun b hb k => ?_, fun {k n c} hn hc => ?_⟩
  · rw [hclusters, List.map_map]
    simpa only [Function.comp_def, Group.key_emptied] using hm.keys_nodup
  · obtain ⟨c, hc, rfl⟩ := hfrom hb
    rw [Group.key_emptied, nextGroup_clearGroup]
    exact hm.keys_lt c hc
  · obtain ⟨c, hc, rfl⟩ := hfrom hb
    rw [Group.emptied]
    split
    · exact List.nodup_nil
    · exact hm.members_nodup c hc
  · obtain ⟨c, hc, rfl⟩ := hfrom hb
    have hnamed : (∃ n, (g.clearGroup a).node? k = some n ∧ n.group = some c.key) ↔
        k ∈ c.members ∧ c.key ∉ [a] := by
      simp only [hm.node?_clearGroup, Option.map_eq_some_iff, hm.mem_members_iff c hc]
      constructor
      · rintro ⟨-, ⟨n, hn, rfl⟩, hnc⟩
        obtain ⟨hnc, hout⟩ := Node.group_freed_eq_some.1 hnc
        exact ⟨⟨n, hn, hnc⟩, hout⟩
      · rintro ⟨⟨n, hn, hnc⟩, hout⟩
        exact ⟨_, ⟨n, hn, rfl⟩, Node.group_freed_eq_some.2 ⟨hnc, hout⟩⟩
    rw [Group.key_emptied, hnamed, Group.emptied]
    split
    · next hin => simp [hin]
    · next hout => simp [hout]
  · rw [hm.node?_clearGroup, Option.map_eq_some_iff] at hn
    obtain ⟨n, hn, rfl⟩ := hn
    obtain ⟨b, hb, hkey⟩ := hm.exists_group hn (Node.group_freed_eq_some.1 hc).1
    refine ⟨b.emptied [a], ?_, (Group.key_emptied _ b).trans hkey⟩
    rw [hclusters]
    exact List.mem_map_of_mem hb

/-- The members of groups that are cleared one after the other are ungrouped. -/
theorem node?_foldl_clearGroup (hm : Mutual g) (ks : List GroupKey) (k : NodeKey) :
    (ks.foldl Graph.clearGroup g).node? k = (g.node? k).map (Node.freed ks) := by
  induction ks generalizing g with
  | nil =>
    rw [funext Node.freed_nil, Option.map_id']
    rfl
  | cons a ks ih =>
    rw [List.foldl_cons, ih (hm.clearGroup a), hm.node?_clearGroup, Option.map_map]
    exact congrArg (Option.map · _) (funext fun n => n.freed_cons a ks)

/-- The nodes that are freed are the members of the groups that go. -/
theorem map_freed (hm : Mutual g) {bs : List Group} (hbs : bs ⊆ g.clusters) (k : NodeKey) :
    (g.node? k).map (Node.freed (bs.map (·.key))) =
      if k ∈ bs.flatMap (·.members) then (g.node? k).map Node.ungrouped else g.node? k := by
  cases hn : g.node? k with
  | none => simp
  | some n =>
    have hin : k ∈ bs.flatMap (·.members) ↔ n.group.any (· ∈ bs.map (·.key)) = true := by
      rw [hm.mem_flatMap_members_iff hbs, hn, Option.any_eq_true]
      simp
    simp only [hin, Option.map_some, Node.freed]
    split <;> rfl

end Mutual
end Graph

/-! ### The forest without a tree -/

namespace Forest

/-- What stands in a forest without the tree stands in the same place of the forest with it. -/
theorem Hung.subset {t : Tree} {o : Option GroupKey} {l r : List Group} {f f' : Forest}
    (h : Hung t o l r f' f) : f'.roots ⊆ f.roots ∧ f'.edges ⊆ f.edges := by
  induction h with
  | here rest =>
    refine ⟨List.subset_cons_self _ _, ?_⟩
    exact fun e he => List.mem_append_right _ (List.mem_append_right _ he)
  | later a cs _ ih | beside a cs _ ih =>
    refine ⟨List.cons_subset_cons a ih.1, fun e he => ?_⟩
    simp only [edges, List.mem_append] at he ⊢
    exact he.imp_right (Or.imp_right (ih.2 ·))
  | child a rest _ ih | deeper a rest _ ih =>
    refine ⟨List.Subset.refl _, fun e he => ?_⟩
    simp only [edges, List.mem_append] at he ⊢
    exact he.imp (List.map_subset _ ih.1 ·) (Or.imp_left (ih.2 ·))

/-- The groups outside a tree keep their parents when the tree is taken out. -/
theorem Hung.parent?_without {t : Tree} {o : Option GroupKey} {l r : List Group} {f f' : Forest}
    (h : Hung t o l r f' f) (hn : f.keys.Nodup) {b : Group} (hb : b ∈ f'.preorder) :
    f'.parent? b.key = f.parent? b.key := by
  obtain ⟨u, hu⟩ := exists_owns hb
  have hin : f.Owns u b := by
    cases u with
    | none => exact h.subset.1 hu
    | some p => exact h.subset.2 hu
  rw [parent?_of_owns (h.keys_nodup hn) hu, parent?_of_owns hn hin]

end Forest

namespace Graph
open Forest

variable {g h : Graph} {a : GroupKey}

/-- The graph after a group has been destroyed. -/
structure Disbanded (g : Graph) (a : GroupKey) (h : Graph) : Prop where
  /-- Nothing but nodes and the groups of the graph has changed. -/
  rest : { h with nodes := g.nodes, groups := g.groups } = g
  /-- The group is gone with all that lay below it. The others are as they were, in their order. -/
  allGroups : h.allGroups = g.allGroups.filter (· ∉ g.withDescendants a)
  parent? : ∀ b ∈ h.allGroups, h.groups.parent? b.key = g.groups.parent? b.key
  /-- The lists of those that are left lack the group and are else as they were. -/
  childrenOf : ∀ o, (∀ b ∈ g.withDescendants a, o ≠ some b.key) →
    h.groups.childrenOf o = (g.groups.childrenOf o).filter (·.key ≠ a)
  /-- The members of the groups that are gone are in no group, and no other node has changed. -/
  node? : ∀ k, h.node? k = if k ∈ (g.withDescendants a).flatMap (·.members)
    then (g.node? k).map Node.ungrouped else g.node? k

/-- A tree of the graph is emptied and taken out of the forest. -/
theorem exists_removeGroup (hm : Mutual g) (ha : g.ownsGroup a = true) :
    ∃ t o l r groups nodes, g.groups.tree? a = some t ∧ Hung t o l r groups g.groups ∧
      g.removeGroup a = (true, { g with nodes, groups }) ∧
      ∀ k, nodes.get? k = (g.node? k).map (Node.freed (t.preorder.map (·.key))) := by
  obtain ⟨t, ht⟩ := exists_tree? ha
  obtain ⟨f, o, l, r, hd, hung⟩ := exists_hung ht
  have hn := keys_groups_nodup hm.keys_nodup
  have hclear : g.clearTree t = (t.preorder.map (·.key)).foldl Graph.clearGroup g := by
    rw [clearTree, List.foldl_map]
  obtain ⟨nodes, hnodes, -⟩ := exists_foldl_clearGroup (t.preorder.map (·.key)) g
  have hin {j : GroupKey} (hj : j ∈ t.preorder.map (·.key)) : j ∈ (ofTree t).keys := by
    rwa [keys, preorder_ofTree]
  -- what does not belong to the tree has nothing to lose
  have hkeep {f : Forest} (hout : ∀ j ∈ (ofTree t).keys, j ∉ f.keys) :
      f.map (Group.emptied (t.preorder.map (·.key))) = f :=
    Forest.map_eq_self fun b hb => if_neg fun hj => hout _ (hin hj) (Forest.mem_keys hb)
  have hloose : g.loose.map (Group.emptied (t.preorder.map (·.key))) = g.loose :=
    hkeep fun j hj => not_mem_loose hm.keys_nodup (hung.mem_keys hj)
  refine ⟨t, o, l, r, f, nodes, ht, hung, ?_, fun k => ?_⟩
  · simp only [removeGroup, ht, (detach?_clearTree g).1 hd]
    rw [hkeep fun j hj => hung.disjoint hn hj, hclear, hnodes, mapGroups, hloose]
  · rw [← hm.node?_foldl_clearGroup, hnodes]
    rfl

theorem disbanded (hm : Mutual g) (ha : g.ownsGroup a = true) :
    (g.removeGroup a).1 = true ∧ g.Disbanded a (g.removeGroup a).2 := by
  obtain ⟨t, o, l, r, groups, nodes, ht, hung, heq, hnodes⟩ := exists_removeGroup hm ha
  have hn := keys_groups_nodup hm.keys_nodup
  have hkey := key_of_tree? ht
  rw [heq]
  refine ⟨rfl, rfl, ?_, fun b hb => hung.parent?_without hn hb, fun u hu => ?_, fun k => ?_⟩
  · rw [withDescendants_eq hm ht]
    exact (hung.filter_preorder hn).symm
  · rw [withDescendants_eq hm ht] at hu
    have hout : ∀ j ∈ (ofTree t).keys, u ≠ some j := by
      rw [keys, preorder_ofTree]
      exact List.forall_mem_map.2 hu
    exact hkey ▸ (hung.filter_childrenOf hn u hout).symm
  · rw [← hm.map_freed (withDescendants_subset g a), withDescendants_eq hm ht]
    exact hnodes k

/-- A group of the graph is destroyed together with what lies below it, and their members are in no
group then. A group that the graph does not own stays, as does everything. -/
theorem removeGroup_iff (hm : Mutual g) (a : GroupKey) :
    (g.removeGroup a).1 = g.ownsGroup a ∧
    (g.ownsGroup a = false → (g.removeGroup a).2 = g) ∧
    (g.ownsGroup a = true → g.Disbanded a (g.removeGroup a).2) := by
  cases ha : g.ownsGroup a with
  | true =>
    obtain ⟨hyes, hgone⟩ := disbanded hm ha
    exact ⟨hyes, nofun, fun _ => hgone⟩
  | false =>
    have hnone : g.groups.tree? a = none := by
      rw [← Bool.not_eq_true, ownsGroup_iff] at ha
      exact tree?_eq_none ha
    rw [removeGroup_of_not_owned hnone]
    exact ⟨rfl, fun _ => rfl, nofun⟩

/-- The first root goes with its child, and their members stay without a group. The member of the
second root stays where it is. -/
theorem removeGroup_threeGroups :
    threeGroups.Mutual ∧ threeGroups.ownsGroup 0 = true ∧
      threeGroups.Disbanded 0 (threeGroups.removeGroup 0).2 ∧
      (threeGroups.removeGroup 0).2.groups.keys = [2] ∧
      ([0, 1, 2].map fun k => ((threeGroups.removeGroup 0).2.node? k).map (·.group)) =
        [some none, some none, some (some 2)] ∧
      (threeGroups.removeGroup 1).2.groups.keys = [0, 2] ∧
      (threeGroups.removeGroup 3).1 = false := by
  obtain ⟨-, -, hgone⟩ := removeGroup_iff mutual_threeGroups 0
  exact ⟨mutual_threeGroups, rfl, hgone rfl, by rfl, by rfl, by rfl, by rfl⟩

end Graph
end Patchbay
