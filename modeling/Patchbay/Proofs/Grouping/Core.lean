import Patchbay.Proofs.Wiring.Frame
/-!
# What wiring leaves as it is

Wires change pins and nothing else of a node. They leave the groups alone, and which nodes are
members and which one is the main node.

## Main definitions

* `Node.core`: a node without its pins.
* `Graph.SameCore`: two graphs that agree in everything but pins and wires.

## Main statements

* `Graph.sameCore_connect`, `Graph.sameCore_removeWire`: wires come and go without any effect on
  the rest of the graph.
-/
namespace Patchbay

/-- The node without its pins. -/
def Node.core (n : Node) : Node := { n with inputs := [], outputs := [] }

@[simp] theorem Node.core_modifyPin (n : Node) (s : Side) (i : Nat) (f : Pin → Pin) :
    (n.modifyPin s i f).core = n.core := by
  cases s <;> rfl

namespace Graph

/-- Two graphs that agree in everything but pins and wires. -/
structure SameCore (g h : Graph) : Prop where
  nodes : ∀ k, (h.node? k).map Node.core = (g.node? k).map Node.core
  members : h.members = g.members
  index : h.index = g.index
  mainId : h.mainId = g.mainId
  groups : h.groups = g.groups
  loose : h.loose = g.loose
  nextGroup : h.nextGroup = g.nextGroup

namespace SameCore
variable {g h l : Graph}

@[simp] protected theorem refl (g : Graph) : SameCore g g :=
  ⟨fun _ => rfl, rfl, rfl, rfl, rfl, rfl, rfl⟩

protected theorem trans (a : SameCore g h) (b : SameCore h l) : SameCore g l :=
  ⟨fun k => (b.nodes k).trans (a.nodes k), b.members.trans a.members, b.index.trans a.index,
    b.mainId.trans a.mainId, b.groups.trans a.groups, b.loose.trans a.loose,
    b.nextGroup.trans a.nextGroup⟩

/-- Steps that keep the core keep it when they follow each other. -/
theorem foldl {α : Type} {f : Graph → α → Graph} (hf : ∀ g x, SameCore g (f g x))
    (xs : List α) (g : Graph) : SameCore g (xs.foldl f g) := by
  induction xs generalizing g with
  | nil => exact .refl g
  | cons x xs ih => exact (hf g x).trans (ih (f g x))

/-- A node of the one graph is a node of the other one, but for the pins. -/
theorem node? (a : SameCore g h) {k : NodeKey} {n : Node} (hn : h.node? k = some n) :
    ∃ m, g.node? k = some m ∧ m.core = n.core := by
  have hk := a.nodes k
  rw [hn, Option.map_some] at hk
  exact Option.map_eq_some_iff.1 hk.symm

theorem group? (a : SameCore g h) (b : GroupKey) : h.group? b = g.group? b := by
  rw [Graph.group?, Graph.group?, a.groups, a.loose]

/-- Nodes stay in their groups. -/
theorem group?_node (a : SameCore g h) (k : NodeKey) :
    (h.node? k).bind (·.group) = (g.node? k).bind (·.group) := by
  have hk := congrArg (Option.bind · Node.group) (a.nodes k)
  simp only [Option.bind_map] at hk
  exact hk

end SameCore

/-- Wires, their order and the ids still to come do not matter. -/
theorem sameCore_of_eq {g h : Graph} (hnodes : h.nodes = g.nodes) (hmembers : h.members = g.members)
    (hindex : h.index = g.index) (hmain : h.mainId = g.mainId) (hgroups : h.groups = g.groups)
    (hloose : h.loose = g.loose) (hnext : h.nextGroup = g.nextGroup) : SameCore g h :=
  ⟨fun k => by simp only [Graph.node?, hnodes], hmembers, hindex, hmain, hgroups, hloose, hnext⟩

@[simp] theorem sameCore_modifyPin (g : Graph) (r : PinRef) (f : Pin → Pin) :
    SameCore g (g.modifyPin r f) := by
  refine ⟨fun k => ?_, rfl, rfl, rfl, rfl, rfl, rfl⟩
  rw [modifyPin, node?_modifyNode]
  split
  · cases g.node? k <;> simp
  · rfl

@[simp] theorem sameCore_modifyWire (g : Graph) (w : WireKey) (f : Wire → Wire) :
    SameCore g (g.modifyWire w f) := sameCore_of_eq rfl rfl rfl rfl rfl rfl rfl

theorem sameCore_detachEnd (g : Graph) (r : Option PinRef) (w : WireKey) :
    SameCore g (g.detachEnd r w) := by
  cases r with
  | none => exact .refl g
  | some r => exact sameCore_modifyPin g r _

theorem sameCore_setSource (g : Graph) (w : WireKey) (r : Option PinRef) :
    SameCore g (g.setSource w r) := by
  simp only [setSource]
  split
  · exact .refl g
  · split
    · exact .refl g
    · next c _ _ =>
      refine (sameCore_detachEnd g c.source w).trans ?_
      split
      · exact sameCore_modifyWire _ w _
      · exact (sameCore_modifyWire _ w _).trans (sameCore_modifyPin _ _ _)

theorem sameCore_setTarget (g : Graph) (w : WireKey) (r : Option PinRef) :
    SameCore g (g.setTarget w r) := by
  simp only [setTarget]
  split
  · exact .refl g
  · split
    · exact .refl g
    · next c _ _ =>
      refine (sameCore_detachEnd g c.target w).trans ?_
      split
      · exact sameCore_modifyWire _ w _
      · exact (sameCore_modifyWire _ w _).trans (sameCore_modifyPin _ _ _)

theorem sameCore_transfer (g : Graph) (w : WireKey) : SameCore g (g.transfer w) := by
  simp only [transfer]
  split
  · split
    · split
      · exact .refl g
      · exact sameCore_modifyPin g _ _
    · exact .refl g
  · exact .refl g

theorem sameCore_disconnect (g : Graph) (w : WireKey) : SameCore g (g.disconnect w) := by
  simp only [disconnect]
  split
  · exact .refl g
  · refine .trans (.trans ?_ (sameCore_detachEnd _ _ w)) (sameCore_modifyWire _ w _)
    split
    · exact .refl g
    · next t _ =>
      split
      · exact (sameCore_modifyPin g t _).trans (sameCore_modifyPin _ t _)
      · exact sameCore_modifyPin g t _

theorem sameCore_dropWire (g : Graph) (w : WireKey) : SameCore g (g.dropWire w) := by
  simp only [dropWire]
  split
  · exact .refl g
  · next c _ =>
    refine (sameCore_detachEnd g c.source w).trans ((sameCore_detachEnd _ c.target w).trans ?_)
    exact sameCore_of_eq rfl rfl rfl rfl rfl rfl rfl

/-! ### Wires that come and go -/

theorem sameCore_removeWire (g : Graph) (w : WireKey) : SameCore g (g.removeWire w).2 := by
  simp only [removeWire]
  split
  · refine (sameCore_disconnect g w).trans (.trans ?_ (sameCore_dropWire _ w))
    exact sameCore_of_eq rfl rfl rfl rfl rfl rfl rfl
  · exact .refl g

theorem sameCore_joinPins (g : Graph) (s t : PinRef) : SameCore g (g.joinPins s t).2 := by
  simp only [joinPins]
  refine .trans ?_ (sameCore_transfer _ _)
  refine .trans ?_ (sameCore_setTarget _ _ _)
  refine .trans ?_ (sameCore_setSource _ _ _)
  exact sameCore_of_eq rfl rfl rfl rfl rfl rfl rfl

theorem sameCore_connect (g : Graph) (s t : PinRef) : SameCore g (g.connect s t).2 := by
  have hfree : SameCore g (g.freeInput t) := by
    simp only [freeInput]
    split
    · split
      · exact sameCore_removeWire g _
      · exact sameCore_disconnect g _
    · exact .refl g
  simp only [connect]
  split
  · exact .refl g
  · have hjoin := hfree.trans (sameCore_joinPins _ s t)
    generalize (g.freeInput t).joinPins s t = j at hjoin ⊢
    exact hjoin.trans (sameCore_of_eq rfl rfl rfl rfl rfl rfl rfl)

theorem sameCore_disconnectTouching (g : Graph) (k : NodeKey) :
    SameCore g (g.disconnectTouching k) := by
  refine SameCore.foldl (fun g w => ?_) g.links g
  split
  · exact sameCore_disconnect g w
  · exact .refl g

theorem sameCore_dropTouching (g : Graph) (k : NodeKey) : SameCore g (g.dropTouching k) := by
  refine .trans ?_ (SameCore.foldl sameCore_dropWire _ _)
  exact sameCore_of_eq rfl rfl rfl rfl rfl rfl rfl

theorem sameCore_releasePin (g : Graph) (r : PinRef) : SameCore g (g.releasePin r) := by
  simp only [releasePin]
  split
  · exact SameCore.foldl (fun g w => sameCore_modifyWire g w _) _ g
  · exact .refl g

end Graph
end Patchbay
