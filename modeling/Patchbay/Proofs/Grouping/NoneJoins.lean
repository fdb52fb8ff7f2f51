import Patchbay.Proofs.Grouping.Groups
/-!
# Groups that nobody enters

Most operations let nodes leave groups, or they move groups about in the graph. They put no node
into a group, and no group of the graph beside it.

## Main definitions

* `Edit.MovesMembers`: the operations that do.
* `Graph.NoneJoins`: no node enters a group, and no group leaves the graph.

## Main statements

* `Graph.Grouped.noneJoins_apply`: what all other operations have in common.
-/
namespace Patchbay

/-- An operation that puts nodes into groups, or takes groups out of the graph. -/
def Edit.MovesMembers : Edit → Prop
  | joinGroup .. | moveNodeToGroup .. | createGroupAround .. | addToGroup .. | releaseGroup .. => True
  | _ => False

namespace Graph

/-! ### No node enters a group -/

/-- Nodes that are in a group were in it before and do not cease to be members. Groups beside the
graph were there before, or are new. -/
structure NoneJoins (g h : Graph) : Prop where
  node : ∀ {k a}, (h.node? k).bind (·.group) = some a →
    (g.node? k).bind (·.group) = some a ∧ (k ∈ g.members → k ∈ h.members)
  loose : ∀ {a}, a ∈ h.loose.keys → a ∈ g.loose.keys ∨ g.nextGroup ≤ a
  next : g.nextGroup ≤ h.nextGroup

namespace NoneJoins
variable {g h l : Graph}

@[simp] protected theorem refl (g : Graph) : NoneJoins g g :=
  ⟨fun h => ⟨h, fun hm => hm⟩, .inl, Nat.le_refl _⟩

protected theorem trans (a : NoneJoins g h) (b : NoneJoins h l) : NoneJoins g l := by
  refine ⟨fun hk => ?_, fun ha => ?_, Nat.le_trans a.next b.next⟩
  · obtain ⟨hk, hl⟩ := b.node hk
    obtain ⟨hk, hh⟩ := a.node hk
    exact ⟨hk, hl ∘ hh⟩
  · rcases b.loose ha with ha | ha
    · exact a.loose ha
    · exact .inr (Nat.le_trans a.next ha)

theorem foldl {α : Type} {f : Graph → α → Graph} (hf : ∀ g x, NoneJoins g (f g x)) (xs : List α)
    (g : Graph) : NoneJoins g (xs.foldl f g) := by
  induction xs generalizing g with
  | nil => exact .refl g
  | cons x xs ih => exact (hf g x).trans (ih (f g x))

end NoneJoins

section Confining
variable {g h : Graph}

theorem SameCore.noneJoins (a : SameCore g h) : NoneJoins g h := by
  refine ⟨fun {k _} hk => ?_, fun ha => ?_, ?_⟩
  · rw [a.group?_node] at hk
    exact ⟨hk, fun hm => a.members ▸ hm⟩
  · exact .inl (a.loose ▸ ha)
  · exact Nat.le_of_eq a.nextGroup.symm

/-- Groups change their places. -/
theorem noneJoins_of_nodes (hnodes : h.nodes = g.nodes) (hmembers : h.members = g.members)
    (hloose : ∀ a ∈ h.loose.keys, a ∈ g.loose.keys ∨ g.nextGroup ≤ a)
    (hnext : g.nextGroup ≤ h.nextGroup) : NoneJoins g h := by
  refine ⟨fun hk => ?_, fun ha => hloose _ ha, hnext⟩
  rw [node?, hnodes] at hk
  exact ⟨hk, fun hm => hmembers ▸ hm⟩

/-- A node may leave its group. -/
theorem noneJoins_modifyNode (g : Graph) (k : NodeKey) {f : Node → Node}
    (hf : ∀ n, (f n).group = n.group ∨ (f n).group = none) : NoneJoins g (g.modifyNode k f) := by
  refine ⟨fun {j a} hj => ⟨?_, fun hm => hm⟩, .inl, Nat.le_refl _⟩
  rw [node?_modifyNode] at hj
  split at hj
  · obtain ⟨m, hm, hma⟩ := Option.bind_eq_some_iff.1 hj
    obtain ⟨n, hn, rfl⟩ := Option.map_eq_some_iff.1 hm
    rw [hn, Option.bind_some]
    rcases hf n with h | h
    · exact h.symm.trans hma
    · rw [h] at hma
      cases hma
  · exact hj

theorem noneJoins_modifyGroup (g : Graph) (a : GroupKey) {f : Group → Group}
    (hf : ∀ b, (f b).key = b.key) : NoneJoins g (g.modifyGroup a f) := by
  refine noneJoins_of_nodes rfl rfl (fun k hk => .inl ?_) (Nat.le_refl _)
  have hkeys : (g.loose.modify a f).keys = g.loose.keys := by
    rw [Forest.keys, Forest.modify, Forest.preorder_map, List.map_map]
    refine List.map_congr_left fun b _ => ?_
    simp only [Function.comp_apply]
    split
    · exact hf b
    · rfl
  exact hkeys ▸ hk

theorem noneJoins_leaveGroup (g : Graph) (a : GroupKey) (k : NodeKey) :
    NoneJoins g (g.leaveGroup a k).2 := by
  simp only [leaveGroup]
  split
  · refine .trans (noneJoins_modifyGroup g a ?_) (noneJoins_modifyNode _ k fun n => ?_)
    · exact fun _ => rfl
    split
    · exact .inr rfl
    · exact .inl rfl
  · exact .refl g

theorem noneJoins_leaveAnyGroup (g : Graph) (k : NodeKey) : NoneJoins g (g.leaveAnyGroup k) := by
  simp only [leaveAnyGroup]
  split
  · exact noneJoins_leaveGroup g _ k
  · exact .refl g

theorem noneJoins_clearGroup (g : Graph) (a : GroupKey) : NoneJoins g (g.clearGroup a) := by
  simp only [clearGroup]
  refine .trans (.foldl (fun g k => noneJoins_modifyNode g k fun n => ?_) _ g)
    (noneJoins_modifyGroup _ a fun _ => rfl)
  split
  · exact .inr rfl
  · exact .inl rfl

theorem noneJoins_clearTree (g : Graph) (t : Tree) : NoneJoins g (g.clearTree t) :=
  .foldl (fun g (b : Group) => noneJoins_clearGroup g b.key) _ g

/-! ### Groups that move and go -/

/-- What is taken out of a forest leaves no new key behind. -/
theorem mem_keys_of_detach? {f f' : Forest} {t : Tree} {a k : GroupKey}
    (hd : f.detach? a = some (t, f')) (hk : k ∈ t.preorder.map (·.key) ∨ k ∈ f'.keys) :
    k ∈ f.keys := by
  refine ((Forest.preorder_detach? hd).map (·.key)).mem_iff.2 ?_
  rw [List.map_append, List.mem_append]
  exact hk

theorem noneJoins_registerGroup (g : Graph) (a : GroupKey) : NoneJoins g (g.registerGroup a) := by
  simp only [registerGroup]
  split
  · next hd =>
    exact noneJoins_of_nodes rfl rfl (fun k hk => .inl (mem_keys_of_detach? hd (.inr hk)))
      (Nat.le_refl _)
  · exact .refl g

theorem noneJoins_removeGroup (g : Graph) (a : GroupKey) : NoneJoins g (g.removeGroup a).2 := by
  simp only [removeGroup]
  split
  · exact .refl g
  · next t _ =>
    refine (noneJoins_clearTree g t).trans ?_
    split
    · exact noneJoins_of_nodes rfl rfl (fun _ => .inl) (Nat.le_refl _)
    · exact .refl _

theorem noneJoins_dropGroup (g : Graph) (a : GroupKey) : NoneJoins g (g.dropGroup a) := by
  simp only [dropGroup]
  split
  · exact .refl g
  · next t _ =>
    refine (noneJoins_clearTree g t).trans ?_
    split
    · next hd =>
      exact noneJoins_of_nodes rfl rfl (fun k hk => .inl (mem_keys_of_detach? hd (.inr hk)))
        (Nat.le_refl _)
    · exact .refl _

theorem noneJoins_reparentGroup (g : Graph) (a : GroupKey) (parent : Option GroupKey) :
    NoneJoins g (g.reparentGroup a parent).2 := by
  simp only [reparentGroup]
  split
  · split
    · exact .refl g
    · split
      · split <;> exact noneJoins_of_nodes rfl rfl (fun _ => .inl) (Nat.le_refl _)
      · exact .refl g
  · exact .refl g

theorem mem_keys_of_adopt {f : Forest} {t : Tree} {a k : GroupKey} (h : k ∈ (f.adopt a t).keys) :
    k ∈ t.preorder.map (·.key) ∨ k ∈ f.keys := by
  induction f with
  | nil => exact .inr h
  | cons b cs rest ihc ih =>
    rw [Forest.keys_cons, List.mem_cons, List.mem_append]
    rw [Forest.adopt] at h
    split at h
    · rw [Forest.keys_cons, Forest.keys, Forest.preorder_plant, List.map_append, List.mem_cons,
        List.mem_append, List.mem_append] at h
      tauto
    · rw [Forest.keys_cons, List.mem_cons, List.mem_append] at h
      tauto

theorem noneJoins_adoptGroup (g : Graph) (parent : GroupKey) (child : Option GroupKey) :
    NoneJoins g (g.adoptGroup parent child).2 := by
  simp only [adoptGroup]
  split
  · exact .refl g
  · split
    · exact noneJoins_dropGroup g _
    · split
      · next hd =>
        exact noneJoins_of_nodes rfl rfl
          (fun k hk => .inl (mem_keys_of_detach? hd (mem_keys_of_adopt hk))) (Nat.le_refl _)
      · exact .refl g

/-- A new group has a key that no other group has had. -/
theorem noneJoins_newGroup (g : Graph) (name : String) (bounds : Rect Float) :
    NoneJoins g (g.newGroup name bounds).2 := by
  refine noneJoins_of_nodes rfl rfl (fun a ha => ?_) (Nat.le_succ _)
  have hkeys : (g.newGroup name bounds).2.loose.keys = g.loose.keys ++ [g.nextGroup] := by
    simp [newGroup, freshId, Forest.keys, Tree.preorder, Forest.preorder]
  rw [hkeys, List.mem_append, List.mem_singleton] at ha
  exact ha.imp_right fun h => Nat.le_of_eq h.symm

theorem noneJoins_createGroup (g : Graph) (name : String) (bounds : Rect Float)
    (parent : Option GroupKey) : NoneJoins g (Layout.createGroup g name bounds parent).2 := by
  have hnew := noneJoins_newGroup g name bounds
  simp only [Layout.createGroup]
  split
  · exact hnew.trans (noneJoins_registerGroup _ _)
  · split
    · exact hnew.trans (noneJoins_adoptGroup _ _ _)
    · exact .refl g

/-! ### Nodes that come and go -/

theorem noneJoins_newNode (g : Graph) {n : Node} (hn : n.Fresh) : NoneJoins g (g.newNode n).2 := by
  refine ⟨fun {k a} hk => ⟨?_, fun hm => hm⟩, .inl, Nat.le_refl _⟩
  rw [node?_newNode] at hk
  split at hk
  · rw [Option.bind_some, hn.group] at hk
    cases hk
  · exact hk

theorem noneJoins_dropNode (g : Graph) (k : NodeKey) : NoneJoins g (g.dropNode k) := by
  obtain ⟨l, hsame, hdrop⟩ := exists_dropNode g k
  refine (noneJoins_leaveAnyGroup g k).trans (hsame.noneJoins.trans ?_)
  rw [hdrop]
  refine ⟨fun {j a} hj => ⟨?_, fun hm => hm⟩, .inl, Nat.le_refl _⟩
  rw [node?_eraseNode] at hj
  split at hj
  · cases hj
  · exact hj

theorem noneJoins_insertNode (g : Graph) (k : NodeKey) : NoneJoins g (g.insertNode k).2 := by
  simp only [insertNode]
  split
  · exact .refl g
  · split
    · exact noneJoins_dropNode g k
    · exact ⟨fun hj => ⟨hj, List.mem_append_left _⟩, .inl, Nat.le_refl _⟩

/-- A node that is removed from the graph has left its group before. -/
theorem Grouped.noneJoins_removeNode (hg : Grouped g) (k : NodeKey) :
    NoneJoins g (g.removeNode k).2 := by
  rcases removeNode_cases g k with h | ⟨n, l, mainId, -, -, a, -, h⟩
  · rw [h]
    exact .refl g
  · rw [h]
    refine a.noneJoins.trans ((noneJoins_leaveAnyGroup l k).trans
      (.trans ?_ (noneJoins_dropNode _ k)))
    refine ⟨fun {j b} hj => ⟨hj, fun hm => ?_⟩, .inl, Nat.le_refl _⟩
    have hne : j ≠ k := by
      rintro rfl
      obtain ⟨m, hm, hmb⟩ := Option.bind_eq_some_iff.1 hj
      rw [(hg.of_sameCore a).group_leaveAnyGroup hm] at hmb
      cases hmb
    exact (List.mem_erase_of_ne hne).2 hm

/-! ### Layouts -/

theorem noneJoins_ungroup (g : Graph) (k : NodeKey) : NoneJoins g (g.moveNodeToGroup k none).2 := by
  simp only [moveNodeToGroup]
  split
  · exact (noneJoins_leaveAnyGroup g k).trans (noneJoins_modifyNode _ k fun _ => .inl rfl)
  · exact .refl g

theorem noneJoins_setBounds (g : Graph) (a : GroupKey) (f : Rect Float → Rect Float) :
    NoneJoins g (Layout.setBounds g a f) := noneJoins_modifyGroup g a fun _ => rfl

theorem noneJoins_fit (l : Layout) (g : Graph) (a : GroupKey) (padding : Float) :
    NoneJoins g (l.fit g a padding) := by
  simp only [Layout.fit]
  split
  · exact .refl g
  · exact noneJoins_setBounds g a _

theorem noneJoins_expandAround (l : Layout) (g : Graph) (a : GroupKey) (k : NodeKey)
    (padding : Float) : NoneJoins g (l.expandAround g a k padding) := by
  simp only [Layout.expandAround]
  split
  · exact noneJoins_setBounds g a _
  · exact .refl g

theorem noneJoins_moveOne (g : Graph) (dx dy : Float) (withNodes : Bool) (b : Group) :
    NoneJoins g (Layout.moveOne dx dy withNodes g b) := by
  have hmoved := noneJoins_setBounds g b.key (·.translate dx dy)
  simp only [Layout.moveOne]
  split
  · refine hmoved.trans (.foldl (fun g k => ?_) _ _)
    exact noneJoins_modifyNode g k fun _ => .inl rfl
  · exact hmoved

/-- All but a few operations confine what they change. -/
theorem Grouped.noneJoins_apply (hg : Grouped g) {e : Edit} (he : e.Admissible g)
    (hs : ¬ e.MovesMembers) :
    NoneJoins g (e.apply g) := by
  cases e with
  | joinGroup | moveNodeToGroup | createGroupAround | addToGroup | releaseGroup =>
    exact absurd trivial hs
  | newNode n => exact noneJoins_newNode g he
  | insertNode k => exact noneJoins_insertNode g k
  | dropNode k => exact noneJoins_dropNode g k
  | removeNode k => exact hg.noneJoins_removeNode k
  | removeNodeWithId id =>
    simp only [Edit.apply, removeNodeWithId]
    split
    · exact hg.noneJoins_removeNode _
    · exact .refl g
  | connect s t => exact (sameCore_connect g s t).noneJoins
  | connectNamed a output b input =>
    simp only [Edit.apply, connectNamed]
    split
    · exact (sameCore_connect g _ _).noneJoins
    · exact .refl g
  | removeWire w => exact (sameCore_removeWire g w).noneJoins
  | removeWireWithId id =>
    simp only [Edit.apply, removeWireWithId]
    split
    · exact (sameCore_removeWire g _).noneJoins
    · exact .refl g
  | setId | setName | setCategory | setPolicy =>
    exact noneJoins_of_nodes rfl rfl (fun _ => .inl) (Nat.le_refl _)
  | setMain id =>
    simp only [Edit.apply, setMain]
    split
    · exact noneJoins_of_nodes rfl rfl (fun _ => .inl) (Nat.le_refl _)
    · split
      · exact noneJoins_of_nodes rfl rfl (fun _ => .inl) (Nat.le_refl _)
      · exact .refl g
  | nameNode k | placeNode k | enableNode k => exact noneJoins_modifyNode g k fun _ => .inl rfl
  | setValue r v => exact (sameCore_modifyPin g r _).noneJoins
  | newGroup id name bounds =>
    exact .trans (noneJoins_newGroup g name bounds) (noneJoins_modifyGroup _ _ fun _ => rfl)
  | dropGroup a => exact noneJoins_dropGroup g a
  | nameGroup a | setBounds a => exact noneJoins_modifyGroup g a fun _ => rfl
  | leaveGroup a k => exact noneJoins_leaveGroup g a k
  | clearGroup a => exact noneJoins_clearGroup g a
  | adoptGroup parent child => exact noneJoins_adoptGroup g parent child
  | registerGroup a => exact noneJoins_registerGroup g a
  | removeGroup a => exact noneJoins_removeGroup g a
  | reparentGroup a parent => exact noneJoins_reparentGroup g a parent
  | createGroup name bounds parent => exact noneJoins_createGroup g name bounds parent
  | removeFromGroup k a =>
    simp only [Edit.apply, Layout.removeNode]
    split
    · exact noneJoins_ungroup g k
    · exact .refl g
  | moveGroup a dx dy withNodes withChildren =>
    simp only [Edit.apply, Layout.moveGroup]
    split
    · exact .refl g
    · exact .foldl (fun g (b : Group) => noneJoins_moveOne g dx dy withNodes b) _ g
  | fit l a padding => exact noneJoins_fit l g a padding
  | expandAround l a k padding => exact noneJoins_expandAround l g a k padding
  | constrain l a k wanted grow padding =>
    simp only [Edit.apply, Layout.constrain]
    split
    · exact noneJoins_setBounds g a fun _ => _
    · exact .refl g

end Confining

end Graph
end Patchbay
