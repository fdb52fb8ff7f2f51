import Patchbay.Proofs.Edit
import Patchbay.Proofs.Grouping.Core
/-!
# The roll of members

Which nodes are members, under which ids they are found and which one is the main node is decided
when nodes come and go. No other operation has a say in it.

## Main definitions

* `Graph.SameRoll`: two graphs with the same members under the same ids.
* `Edit.ChangesMembers`: the operations that change the members, or the main node.

## Main statements

* `Graph.sameRoll_apply`: all other operations leave the members alone.
-/
namespace Patchbay
namespace Graph

/-- Two graphs with the same members under the same ids, and with the same main node. -/
structure SameRoll (g h : Graph) : Prop where
  ids : ∀ k, h.idOf? k = g.idOf? k
  members : h.members = g.members
  index : h.index = g.index
  mainId : h.mainId = g.mainId

namespace SameRoll
variable {g h l : Graph}

@[simp] protected theorem refl (g : Graph) : SameRoll g g := ⟨fun _ => rfl, rfl, rfl, rfl⟩

protected theorem trans (a : SameRoll g h) (b : SameRoll h l) : SameRoll g l :=
  ⟨fun k => (b.ids k).trans (a.ids k), b.members.trans a.members, b.index.trans a.index,
    b.mainId.trans a.mainId⟩

theorem nodeWithId? (a : SameRoll g h) (id : String) : h.nodeWithId? id = g.nodeWithId? id := by
  simp only [Graph.nodeWithId?, a.index]

end SameRoll

theorem SameWiring.sameRoll {g h : Graph} (a : SameWiring g h) : SameRoll g h :=
  ⟨a.ids, a.members, a.index, a.mainId⟩

theorem SameCore.sameRoll {g h : Graph} (a : SameCore g h) : SameRoll g h := by
  refine ⟨fun k => ?_, a.members, a.index, a.mainId⟩
  have hid := congrArg (Option.map Node.id) (a.nodes k)
  rw [Option.map_map, Option.map_map] at hid
  exact hid

/-- A node leaves its group and loses its wires before it is destroyed. -/
theorem exists_dropNode (g : Graph) (k : NodeKey) :
    ∃ l, SameCore (g.leaveAnyGroup k) l ∧ g.dropNode k = { l with nodes := l.nodes.erase k } :=
  ⟨_, SameCore.foldl sameCore_releasePin
    ((g.leaveAnyGroup k).pinRefs k .input ++ (g.leaveAnyGroup k).pinRefs k .output) _, rfl⟩

/-- A node that is destroyed stays on the roll. -/
theorem roll_dropNode (g : Graph) (k : NodeKey) : (g.dropNode k).members = g.members ∧
    (g.dropNode k).index = g.index ∧ (g.dropNode k).mainId = g.mainId := by
  obtain ⟨l, a, hdrop⟩ := exists_dropNode g k
  have b := sameWiring_leaveAnyGroup g k
  rw [hdrop]
  exact ⟨a.members.trans b.members, a.index.trans b.index, a.mainId.trans b.mainId⟩

/-- A member loses its wires, its group and its place on the roll before it is destroyed. -/
theorem removeNode_cases (g : Graph) (k : NodeKey) :
    (g.removeNode k).2 = g ∨ ∃ n l mainId, g.node? k = some n ∧ g.contains k = true ∧ SameCore g l ∧
      (mainId = (l.leaveAnyGroup k).mainId ∧ mainId ≠ some n.id ∨ mainId = none) ∧
      (g.removeNode k).2 =
        ({ l.leaveAnyGroup k with
          mainId
          index := (l.leaveAnyGroup k).index.erase n.id
          members := (l.leaveAnyGroup k).members.erase k } : Graph).dropNode k := by
  simp only [Graph.removeNode]
  split
  · exact .inl rfl
  next n hn =>
  split
  · next hk =>
    have hsame := (sameCore_disconnectTouching g k).trans (sameCore_dropTouching _ k)
    generalize (g.disconnectTouching k).dropTouching k = l at hsame ⊢
    by_cases hmain : (l.leaveAnyGroup k).mainId = some n.id
    · exact .inr ⟨n, l, none, hn, hk, hsame, .inr rfl, by simp only [hmain, if_true]⟩
    · exact .inr ⟨n, l, _, hn, hk, hsame, .inl ⟨rfl, hmain⟩, by simp only [hmain, if_false]⟩
  · exact .inl rfl

end Graph

/-- An operation that changes the members, or the main node. -/
def Edit.ChangesMembers : Edit → Prop
  | newNode .. | insertNode .. | dropNode .. | removeNode .. | removeNodeWithId .. | setMain .. =>
    True
  | _ => False

namespace Graph

/-- All other operations leave the members and the main node alone. -/
theorem sameRoll_apply (g : Graph) {e : Edit} (he : ¬ e.ChangesMembers) :
    SameRoll g (e.apply g) := by
  cases e with
  | newNode | insertNode | dropNode | removeNode | removeNodeWithId | setMain =>
    exact absurd trivial he
  | connect s t => exact (sameCore_connect g s t).sameRoll
  | connectNamed a output b input =>
    simp only [Edit.apply, connectNamed]
    split
    · exact (sameCore_connect g _ _).sameRoll
    · exact .refl g
  | removeWire w => exact (sameCore_removeWire g w).sameRoll
  | removeWireWithId id =>
    simp only [Edit.apply, removeWireWithId]
    split
    · exact (sameCore_removeWire g _).sameRoll
    · exact .refl g
  | setId | setName | setCategory | setPolicy | nameGroup | setBounds | newGroup =>
    exact ⟨fun _ => rfl, rfl, rfl, rfl⟩
  | nameNode k | placeNode k | enableNode k =>
    exact SameWiring.sameRoll (sameWiring_modifyNode g k (fun _ => rfl) fun _ _ => rfl)
  | setValue r v => exact (sameCore_modifyPin g r _).sameRoll
  | dropGroup a => exact (sameWiring_dropGroup g a).sameRoll
  | joinGroup a k => exact (sameWiring_joinGroup g a k).sameRoll
  | leaveGroup a k => exact (sameWiring_leaveGroup g a k).sameRoll
  | clearGroup a => exact (sameWiring_clearGroup g a).sameRoll
  | adoptGroup parent child => exact (sameWiring_adoptGroup g parent child).sameRoll
  | releaseGroup parent child => exact (sameWiring_releaseGroup g parent child).sameRoll
  | registerGroup a => exact (sameWiring_registerGroup g a).sameRoll
  | removeGroup a => exact (sameWiring_removeGroup g a).sameRoll
  | moveNodeToGroup k a => exact (sameWiring_moveNodeToGroup g k a).sameRoll
  | reparentGroup a parent => exact (sameWiring_reparentGroup g a parent).sameRoll
  | createGroup name bounds parent => exact (sameWiring_createGroup g name bounds parent).sameRoll
  | createGroupAround l name ks padding parent =>
    exact (sameWiring_createGroupAround l g name ks padding parent).sameRoll
  | addToGroup l k a adjust padding => exact (sameWiring_addNode l g k a adjust padding).sameRoll
  | removeFromGroup k a => exact (sameWiring_removeFromGroup g k a).sameRoll
  | moveGroup a dx dy withNodes withChildren =>
    exact (sameWiring_moveGroup g a dx dy withNodes withChildren).sameRoll
  | fit l a padding => exact (sameWiring_fit l g a padding).sameRoll
  | expandAround l a k padding => exact (sameWiring_expandAround l g a k padding).sameRoll
  | constrain l a k wanted grow padding =>
    exact (sameWiring_constrain l g a k wanted grow padding).sameRoll

end Graph
end Patchbay
