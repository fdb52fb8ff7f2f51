import Patchbay.Proofs.Grouping.Mutual
/-!
# Asking what lies below a group

Whether a node is in a group or below it can be asked in three ways: search the members of the
group and of what lies below it, look the node up in the list of all these members, or start at the
group that the node names and go from parent to parent. The first two ways follow children and
members, the third one follows parents. Where memberships are mutual all of them come to one answer.

Ids of groups may be shared, unlike their keys. A search for an id finds the first group that has
it, parents before children.

## Main definitions

* `FirstWithId`: the first group of a list that has an id.
* `Graph.Surveyed`: all that is asked of a group about what lies below it.

## Main statements

* `Graph.Mutual.mem_members_iff_descends`: the nodes below a group are those from whose group the
  way upward leads to it.
* `Graph.Mutual.surveyed`: all ways to ask come to one answer.
-/
namespace Patchbay

/-- The first group of a list that has an id, or none if no group has it. -/
def FirstWithId (id : String) (bs : List Group) : Option Group → Prop
  | some b => b.id = id ∧ ∃ before after, bs = before ++ b :: after ∧ ∀ c ∈ before, c.id ≠ id
  | none => ∀ b ∈ bs, b.id ≠ id

theorem firstWithId_find? (id : String) (bs : List Group) :
    FirstWithId id bs (bs.find? fun b => b.id = id) := by
  cases hb : bs.find? fun b => b.id = id with
  | none => simpa [FirstWithId] using hb
  | some b => simpa [FirstWithId, List.find?_eq_some_iff_append] using hb

namespace Graph
variable {g : Graph} {a : GroupKey} {t : Tree}

theorem firstWithId_groupWithId? (g : Graph) (id : String) :
    FirstWithId id g.allGroups (g.groupWithId? id) := by
  rw [groupWithId?, Forest.find?_eq, allGroups]
  exact firstWithId_find? id _

/-- The way upward to a group of the graph does not pass beside the graph. -/
theorem descends_of_mem (hn : (g.clusters.map (·.key)).Nodup) (ha : a ∈ g.groups.keys)
    (j : GroupKey) : g.descends j a = g.groups.descends j a := by
  have hloose : g.loose.descends j a = false := by
    rw [← Bool.not_eq_true]
    exact fun h => not_mem_loose hn ha (Forest.mem_keys_of_descends h).2
  rw [descends, hloose, Bool.or_false]

/-- All that is asked of a group about what lies below it, with one answer to each question. -/
structure Surveyed (g : Graph) (a : GroupKey) (t : Tree) : Prop where
  /-- The group and what lies below it are listed as the graph lists them. -/
  preorder : t.preorder = g.allGroups.filter fun b => b.key = a || g.descends b.key a
  /-- The members of these groups are listed group by group. -/
  members : t.members = t.preorder.flatMap (·.members)
  members_nodup : t.members.Nodup
  /-- The search for a node succeeds if the node is listed. -/
  holds_iff : ∀ k, t.holds k = true ↔ k ∈ t.members
  /-- Listed are the nodes in the group, and those in groups that descend from it. -/
  mem_members_iff : ∀ k, k ∈ t.members ↔
    ∃ n j, g.node? k = some n ∧ n.group = some j ∧ (j = a ∨ g.descends j a = true)
  /-- A group descends from this one if it is reached by going from parent to parent. -/
  descends_iff : ∀ j, g.descends j a = true ↔ Relation.TransGen g.Above a j
  /-- The search for an id finds the first group of the list. -/
  withId? : ∀ id, FirstWithId id t.preorder (t.withId? id)

namespace Mutual

theorem preorder_subset (hm : Mutual g) (ht : g.groups.tree? a = some t) :
    t.preorder ⊆ g.clusters := withDescendants_eq hm ht ▸ withDescendants_subset g a

theorem preorder_eq_filter (hm : Mutual g) (ht : g.groups.tree? a = some t)
    (ha : a ∈ g.groups.keys) :
    t.preorder = g.allGroups.filter fun b => b.key = a || g.descends b.key a := by
  simp only [descends_of_mem hm.keys_nodup ha]
  exact (withDescendants_eq hm ht).symm

theorem nodup_members (hm : Mutual g) (ht : g.groups.tree? a = some t) : t.members.Nodup := by
  have hkeys : (t.preorder.map (·.key)).Nodup := by
    rw [← withDescendants_eq hm ht]
    exact (keys_groups_nodup hm.keys_nodup).sublist (List.filter_sublist.map _)
  rw [t.members_eq_flatMap]
  exact hm.nodup_flatMap_members (hm.preorder_subset ht) hkeys

/-- The nodes below a group are those from whose group the way upward leads to it. -/
theorem mem_members_iff_descends (hm : Mutual g) (ht : g.groups.tree? a = some t)
    (ha : a ∈ g.groups.keys) (k : NodeKey) : k ∈ t.members ↔
      ∃ n j, g.node? k = some n ∧ n.group = some j ∧ (j = a ∨ g.descends j a = true) := by
  have hbelow (j : GroupKey) :
      j ∈ t.preorder.map (·.key) ↔ j = a ∨ g.descends j a = true := by
    rw [descends_of_mem hm.keys_nodup ha]
    exact Forest.mem_keys_preorder_iff (keys_groups_nodup hm.keys_nodup) ht
  rw [t.members_eq_flatMap, hm.mem_flatMap_members_iff (hm.preorder_subset ht)]
  simp only [hbelow]

/-- Where memberships are mutual, it makes no difference in which way a group of the graph is asked
about what lies below it, and a search for an id finds the first group that has it. -/
theorem surveyed (hm : Mutual g) :
    (∀ a, g.ownsGroup a = true → ∃ t, g.tree? a = some t ∧ g.Surveyed a t) ∧
    ∀ id, FirstWithId id g.allGroups (g.groupWithId? id) := by
  refine ⟨fun a ha => ?_, g.firstWithId_groupWithId?⟩
  obtain ⟨t, ht⟩ := exists_tree? ha
  rw [ownsGroup_iff] at ha
  have hnested : g.Nested := .of_keys_nodup hm.keys_nodup
  refine ⟨t, by rw [Graph.tree?, ht, Option.some_or], ?_⟩
  exact {
    preorder := hm.preorder_eq_filter ht ha
    members := t.members_eq_flatMap
    members_nodup := hm.nodup_members ht
    holds_iff := t.holds_iff
    mem_members_iff := hm.mem_members_iff_descends ht ha
    descends_iff := fun j => hnested.descends_iff j a
    withId? := fun id => by
      rw [t.withId?_eq]
      exact firstWithId_find? id _ }

end Mutual

/-- The two roots of `threeGroups` again. Below the child of the first one stands a group with the
id of the second one, and the node of the first root has moved there. -/
def fourGroups : Graph :=
  [.newGroup "c" "d" ⟨0, 0, 0, 0⟩, .adoptGroup 1 (some 3), .joinGroup 3 0].foldl Edit.apply
    threeGroups

theorem reachable_fourGroups : Reachable fourGroups :=
  reachable_threeGroups.edits ⟨trivial, rfl, ⟨rfl, rfl⟩, trivial⟩

/-- The first root has no member of its own and finds two nodes below it, and not the node of the
second root. The id that two groups have leads to the deeper one, which comes first. -/
theorem surveyed_fourGroups :
    fourGroups.Mutual ∧ fourGroups.ownsGroup 0 = true ∧
      (∃ t, fourGroups.tree? 0 = some t ∧ fourGroups.Surveyed 0 t ∧
        t.root.members = [] ∧ t.members = [1, 0] ∧ t.preorder.map (·.key) = [0, 1, 3] ∧
        [0, 1, 2].map t.holds = [true, true, false]) ∧
      fourGroups.allGroups.map (fun b => (b.key, b.id)) = [(0, "a"), (1, "b"), (3, "c"), (2, "c")] ∧
      (fourGroups.groupWithId? "c").map (·.key) = some 3 ∧ fourGroups.groupWithId? "z" = none := by
  have hm : fourGroups.Mutual := reachable_fourGroups.grouped.mutual
  obtain ⟨howned, -⟩ := hm.surveyed
  obtain ⟨t, ht, hsurveyed⟩ := howned 0 rfl
  refine ⟨hm, rfl, ⟨t, ht, hsurveyed, ?_⟩, by rfl, by rfl, by rfl⟩
  cases ht
  exact ⟨rfl, rfl, rfl, rfl⟩

end Graph
end Patchbay
