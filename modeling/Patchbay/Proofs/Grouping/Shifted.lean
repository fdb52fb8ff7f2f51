import Patchbay.Proofs.Grouping.Mutual
/-!
# Moving groups over the canvas

A group that moves takes its members along, and what lies below it, as far as that is asked for.
Groups and nodes move one after the other. As no group stands in two places and no node is listed
twice, each of them moves once.

## Main definitions

* `Layout.movedGroups`: the groups that move with a group.
* `Graph.Shifted`: what a graph is after some of its groups have moved.

## Main statements

* `Graph.node?_foldl`: nodes that are changed by parts, each of them in one part.
* `Layout.moveGroup_shifted`: what a group takes along.
-/
namespace Patchbay

/-- The group moved by an offset, if it is one of those that move. -/
def Group.shifted (moving : List GroupKey) (dx dy : Float) (b : Group) : Group :=
  if b.key ∈ moving then { b with bounds := b.bounds.translate dx dy } else b

theorem Group.shifted_nil (dx dy : Float) (b : Group) : b.shifted [] dx dy = b := by
  simp [shifted]

/-- A group that is not among the others moves once, whether it is the first one or not. -/
theorem Group.shifted_cons {a : GroupKey} {ks : List GroupKey} (ha : a ∉ ks) (dx dy : Float)
    (b : Group) : (if b.key = a then { b with bounds := b.bounds.translate dx dy } else b).shifted
      ks dx dy = b.shifted (a :: ks) dx dy := by
  by_cases hb : b.key = a
  · subst hb
    simp [shifted, ha]
  · simp [shifted, hb]

/-- The node moved by an offset. -/
def Node.shifted (dx dy : Float) (n : Node) : Node :=
  { n with position := n.position.translate dx dy }

namespace Graph

/-- Nodes that are changed by parts are changed once if no node is in two parts. -/
theorem node?_foldl {β : Type} {step : Graph → β → Graph} {part : β → List NodeKey}
    {f : Node → Node} {bs : List β} (hn : (bs.flatMap part).Nodup)
    (hstep : ∀ b ∈ bs, ∀ g k,
      (step g b).node? k = if k ∈ part b then (g.node? k).map f else g.node? k)
    (g : Graph) (k : NodeKey) :
    (bs.foldl step g).node? k =
      if k ∈ bs.flatMap part then (g.node? k).map f else g.node? k := by
  induction bs generalizing g with
  | nil => simp
  | cons b bs ih =>
    rw [List.flatMap_cons, List.nodup_append] at hn
    obtain ⟨-, hrest, hdisj⟩ := hn
    have hout : k ∈ part b → k ∉ bs.flatMap part := fun hk hks => hdisj k hk k hks rfl
    rw [List.foldl_cons, ih hrest fun c hc => hstep c (List.mem_cons_of_mem b hc),
      hstep b List.mem_cons_self, List.flatMap_cons]
    by_cases hk : k ∈ part b
    · simp [hk, hout hk]
    · simp [hk]

/-- The graph after some groups have moved by an offset, with their members if asked. -/
structure Shifted (g : Graph) (moving : List Group) (dx dy : Float) (withNodes : Bool)
    (h : Graph) : Prop where
  /-- Nothing but nodes and the groups of the graph has changed. -/
  rest : { h with nodes := g.nodes, groups := g.groups } = g
  /-- The groups stand in the forest as they stood. Those that move have new bounds, of the size of
  the old ones. -/
  groups : h.groups = g.groups.map fun b => if b ∈ moving
    then { b with bounds := { b.bounds with x := b.bounds.x + dx, y := b.bounds.y + dy } } else b
  /-- Only the positions of their members have changed, and only if nodes move at all. -/
  node? : ∀ k, h.node? k = if withNodes = true ∧ ∃ b ∈ moving, k ∈ b.members
    then (g.node? k).map fun n =>
      { n with position := ⟨n.position.x + dx, n.position.y + dy⟩ }
    else g.node? k

end Graph

namespace Layout
open Patchbay.Graph

variable {g : Graph} {a : GroupKey} {dx dy : Float} {withNodes : Bool}

/-- The nodes that move with a group. -/
def movedMembers (withNodes : Bool) (b : Group) : List NodeKey :=
  if withNodes then b.members else []

/-- The members of a group that moves, and no other nodes, move with it. -/
theorem node?_moveOne {b : Group} (hb : b.members.Nodup) (g : Graph) (k : NodeKey) :
    (moveOne dx dy withNodes g b).node? k = if k ∈ movedMembers withNodes b
      then (g.node? k).map (Node.shifted dx dy) else g.node? k := by
  cases withNodes with
  | false => simp [moveOne, movedMembers, setBounds]
  | true =>
    simp only [moveOne, if_true, movedMembers]
    rw [node?_foldl_modifyNode _ hb]
    rfl

theorem exists_moveOne (dx dy : Float) (withNodes : Bool) (g : Graph) (b : Group) : ∃ nodes,
    moveOne dx dy withNodes g b = { g.mapGroups (fun c =>
      if c.key = b.key then { c with bounds := c.bounds.translate dx dy } else c) with nodes } := by
  cases withNodes with
  | false => exact ⟨g.nodes, rfl⟩
  | true =>
    simp only [moveOne, if_true, foldl_modifyNode]
    exact ⟨_, rfl⟩

/-- Groups with different keys move once each, and nothing but nodes changes besides. -/
theorem exists_foldl_moveOne {bs : List Group} (hn : (bs.map (·.key)).Nodup) (dx dy : Float)
    (withNodes : Bool) (g : Graph) :
    ∃ nodes, bs.foldl (moveOne dx dy withNodes) g =
      { g.mapGroups (Group.shifted (bs.map (·.key)) dx dy) with nodes } := by
  induction bs generalizing g with
  | nil =>
    refine ⟨g.nodes, ?_⟩
    have hnil (f : Forest) : f.map (Group.shifted [] dx dy) = f :=
      Forest.map_eq_self fun b _ => Group.shifted_nil dx dy b
    simp [mapGroups, hnil]
  | cons b bs ih =>
    rw [List.map_cons, List.nodup_cons] at hn
    obtain ⟨hout, hn⟩ := hn
    obtain ⟨nodes, hone⟩ := exists_moveOne dx dy withNodes g b
    obtain ⟨nodes', hrest⟩ := ih hn (moveOne dx dy withNodes g b)
    refine ⟨nodes', ?_⟩
    have hcomp : (Group.shifted (bs.map (·.key)) dx dy) ∘ (fun c : Group =>
        if c.key = b.key then { c with bounds := c.bounds.translate dx dy } else c) =
        Group.shifted (b.key :: bs.map (·.key)) dx dy :=
      funext (Group.shifted_cons hout dx dy)
    rw [List.foldl_cons, hrest, hone, List.map_cons]
    simp only [mapGroups, Forest.map_map, hcomp]

/-- Groups of the graph that move one after the other. -/
theorem shifted_foldl_moveOne (hm : Mutual g) {bs : List Group} (hbs : bs.Sublist g.allGroups)
    (dx dy : Float) (withNodes : Bool) :
    g.Shifted bs dx dy withNodes (bs.foldl (moveOne dx dy withNodes) g) := by
  have hkeys := keys_groups_nodup hm.keys_nodup
  have hn : (bs.map (·.key)).Nodup := (hbs.map Group.key).nodup hkeys
  have hin : bs ⊆ g.clusters := fun b hb => List.mem_append_left _ (hbs.subset hb)
  have hmoves {b : Group} (hb : b ∈ g.clusters) : b.key ∈ bs.map (·.key) ↔ b ∈ bs := by
    refine ⟨fun h => ?_, fun h => List.mem_map_of_mem h⟩
    obtain ⟨c, hc, hkey⟩ := List.mem_map.1 h
    rwa [← List.inj_on_of_nodup_map hm.keys_nodup (hin hc) hb hkey]
  obtain ⟨nodes, heq⟩ := exists_foldl_moveOne hn dx dy withNodes g
  have hloose : g.loose.map (Group.shifted (bs.map (·.key)) dx dy) = g.loose := by
    refine Forest.map_eq_self fun b hb => if_neg fun hmem => ?_
    obtain ⟨c, hc, hkey⟩ := List.mem_map.1 hmem
    exact not_mem_loose hm.keys_nodup (Forest.mem_keys (hbs.subset hc))
      (hkey ▸ Forest.mem_keys hb)
  refine ⟨?_, ?_, fun k => ?_⟩
  · rw [heq]
    simp only [mapGroups, hloose]
  · rw [heq]
    refine Forest.map_congr fun b hb => ?_
    simp only [Group.shifted, hmoves (List.mem_append_left _ hb)]
    rfl
  · have hnodup : (bs.flatMap (movedMembers withNodes)).Nodup := by
      cases withNodes with
      | false =>
        have hnone : bs.flatMap (movedMembers false) = [] :=
          List.flatMap_eq_nil_iff.2 fun _ _ => rfl
        rw [hnone]
        exact List.nodup_nil
      | true => exact hm.nodup_flatMap_members hin hn
    have hmember : k ∈ bs.flatMap (movedMembers withNodes) ↔
        withNodes = true ∧ ∃ b ∈ bs, k ∈ b.members := by
      cases withNodes <;> simp [movedMembers]
    rw [node?_foldl hnodup fun b hb => node?_moveOne (hm.members_nodup b (hin hb))]
    simp only [hmember]
    rfl

/-- The groups that move with a group: those below it too, if asked. -/
def movedGroups (g : Graph) (a : GroupKey) (withChildren : Bool) : List Group :=
  if withChildren then g.withDescendants a else (g.groups.get? a).toList

theorem movedGroups_sublist (hn : g.groups.keys.Nodup) (a : GroupKey) (withChildren : Bool) :
    (movedGroups g a withChildren).Sublist g.allGroups := by
  cases withChildren with
  | true => exact List.filter_sublist
  | false =>
    cases hb : g.groups.get? a with
    | none => simp [movedGroups, hb]
    | some b =>
      have hin : b ∈ g.allGroups := ((Forest.get?_eq_some_iff hn).1 hb).1
      simpa [movedGroups, hb] using hin

theorem moveGroup_eq (hm : Mutual g) (ha : g.ownsGroup a = true) (dx dy : Float)
    (withNodes withChildren : Bool) : moveGroup g a dx dy withNodes withChildren =
      (movedGroups g a withChildren).foldl (moveOne dx dy withNodes) g := by
  have hn := keys_groups_nodup hm.keys_nodup
  obtain ⟨t, ht⟩ := exists_tree? ha
  have hroot : g.groups.get? a = some t.root := by
    rw [Forest.get?_eq_some_iff hn]
    refine ⟨?_, Forest.key_of_tree? ht⟩
    have hin : t.root ∈ g.withDescendants a := withDescendants_eq hm ht ▸ List.mem_cons_self
    exact List.mem_of_mem_filter hin
  simp only [moveGroup, Graph.tree?, ht, Option.some_or, movedGroups, withDescendants_eq hm ht,
    hroot,
    Option.toList_some]

/-- A group of the graph that moves by an offset moves with all groups below it, or alone, and with
all members of the groups that move, or without them. Each group and each node that moves does so
once, and nothing else moves. -/
theorem moveGroup_shifted (hm : Mutual g) (ha : g.ownsGroup a = true) (dx dy : Float)
    (withNodes withChildren : Bool) : g.Shifted (movedGroups g a withChildren) dx dy withNodes
      (moveGroup g a dx dy withNodes withChildren) := by
  rw [moveGroup_eq hm ha]
  exact shifted_foldl_moveOne hm (movedGroups_sublist (keys_groups_nodup hm.keys_nodup) a _) dx dy _

/-- The first root moves with its child and both members, then alone, then without any node. -/
theorem moveGroup_shifted_threeGroups :
    threeGroups.Mutual ∧ threeGroups.ownsGroup 0 = true ∧
      (movedGroups threeGroups 0 true).map (·.key) = [0, 1] ∧
      (movedGroups threeGroups 0 false).map (·.key) = [0] ∧
      threeGroups.Shifted (movedGroups threeGroups 0 true) 3 4 true
        (moveGroup threeGroups 0 3 4 true true) ∧
      threeGroups.Shifted (movedGroups threeGroups 0 false) 3 4 true
        (moveGroup threeGroups 0 3 4 true false) ∧
      threeGroups.Shifted (movedGroups threeGroups 0 true) 3 4 false
        (moveGroup threeGroups 0 3 4 false true) :=
  ⟨mutual_threeGroups, rfl, by rfl, by rfl, moveGroup_shifted mutual_threeGroups rfl 3 4 true true,
    moveGroup_shifted mutual_threeGroups rfl 3 4 true false,
    moveGroup_shifted mutual_threeGroups rfl 3 4 false true⟩

end Layout
end Patchbay
