import Patchbay.Layout
/-!
# What wires see of a graph

Wires depend on the ids of nodes, on the pins but for their values, and on the records of
members and wires. Two graphs that agree in all of that have the same wiring. Most operations
leave the wiring as it is: whatever sets values, groups nodes or moves things about.

## Main definitions

* `Pin.bare`: a pin without its values.
* `Graph.SameWiring`: two graphs that agree in everything that wires depend on.
-/
namespace Patchbay

/-! ### Pins without values -/

/-- The pin without its values. -/
def Pin.bare (p : Pin) : Pin := { p with value := .null, initial := .null }

@[simp] theorem Pin.bare_assign (p : Pin) (v : Value) : (p.assign v).bare = p.bare := by
  simp only [Pin.assign]; split <;> rfl

@[simp] theorem Pin.bare_reset (p : Pin) : p.reset.bare = p.bare := rfl

/-- Two pins that agree but for their values agree in all that `bare` keeps. -/
theorem Pin.of_bare_eq {p q : Pin} (h : p.bare = q.bare) :
    p.id = q.id ∧ p.name = q.name ∧ p.type = q.type ∧ p.flow = q.flow ∧ p.orphan = q.orphan ∧
      p.incoming = q.incoming ∧ p.outgoing = q.outgoing := by
  cases p; cases q
  simp_all [Pin.bare]

theorem Node.pin?_modifyPin (n : Node) (s s' : Side) (i j : Nat) (f : Pin → Pin) :
    (n.modifyPin s i f).pin? s' j =
      if s = s' ∧ i = j then (n.pin? s' j).map f else n.pin? s' j := by
  cases s <;> cases s' <;> simp [Node.modifyPin, Node.pin?, Node.pins, List.getElem?_modify] <;>
    split <;> simp_all

@[simp] theorem Node.id_modifyPin (n : Node) (s : Side) (i : Nat) (f : Pin → Pin) :
    (n.modifyPin s i f).id = n.id := by
  cases s <;> rfl

namespace Graph

/-- The id of the node under a key. -/
def idOf? (g : Graph) (k : NodeKey) : Option String := (g.node? k).map (·.id)

theorem node?_newNode (g : Graph) (n : Node) (k : NodeKey) :
    (g.newNode n).2.node? k = if k = g.nodes.next then some n else g.node? k :=
  Arena.get?_push g.nodes n k

theorem node?_eraseNode (g : Graph) (k j : NodeKey) :
    ({ g with nodes := g.nodes.erase k } : Graph).node? j = if k = j then none else g.node? j :=
  Arena.get?_erase g.nodes k j

/-- The references to the pins on a side of a node lead to all of them. -/
theorem mem_pinRefs_iff {g : Graph} {k : NodeKey} {side : Side} {r : PinRef} :
    r ∈ g.pinRefs k side ↔ r.node = k ∧ r.side = side ∧ (g.pin? r).isSome = true := by
  obtain ⟨j, s, i⟩ := r
  rw [pinRefs]
  cases hn : g.node? k with
  | none =>
    refine iff_of_false List.not_mem_nil ?_
    rintro ⟨rfl, -, hp⟩
    simp [pin?, hn] at hp
  | some n =>
    simp only [List.mem_map, List.mem_range, PinRef.mk.injEq]
    constructor
    · rintro ⟨i, hi, rfl, rfl, rfl⟩
      simpa [pin?, hn, Node.pin?] using hi
    · rintro ⟨rfl, rfl, hp⟩
      exact ⟨i, by simpa [pin?, hn, Node.pin?] using hp, rfl, rfl, rfl⟩

theorem pin?_modifyNode_of_pins (g : Graph) (k : NodeKey) {f : Node → Node}
    (hf : ∀ n s, (f n).pins s = n.pins s) (r : PinRef) :
    (g.modifyNode k f).pin? r = g.pin? r := by
  simp only [pin?, node?_modifyNode]
  split
  · cases g.node? r.node <;> simp [Node.pin?, hf]
  · rfl

theorem pin?_modifyPin (g : Graph) (r r' : PinRef) (f : Pin → Pin) :
    (g.modifyPin r f).pin? r' = if r = r' then (g.pin? r').map f else g.pin? r' := by
  obtain ⟨k, s, i⟩ := r
  obtain ⟨k', s', i'⟩ := r'
  simp only [pin?, modifyPin, node?_modifyNode, PinRef.mk.injEq]
  by_cases hk : k = k'
  · subst hk
    cases hn : g.node? k with
    | none => simp
    | some n =>
      simp only [if_true, Option.map_some, Option.bind_some, Node.pin?_modifyPin, true_and]
  · simp [hk]

@[simp] theorem idOf?_modifyPin (g : Graph) (r : PinRef) (f : Pin → Pin) (k : NodeKey) :
    (g.modifyPin r f).idOf? k = g.idOf? k := by
  simp only [idOf?, modifyPin, node?_modifyNode]
  split
  · cases g.node? k <;> simp
  · rfl

theorem contains_eq (g : Graph) (k : NodeKey) :
    g.contains k = (g.idOf? k).any fun id => g.nodeWithId? id = some k := by
  simp only [contains, idOf?]
  cases g.node? k <;> rfl

/-- What no step changes is unchanged after all of them. -/
theorem foldl_unchanged {α β : Type} (F : Graph → β) {f : Graph → α → Graph}
    (hf : ∀ g x, F (f g x) = F g) (xs : List α) (g : Graph) : F (xs.foldl f g) = F g := by
  induction xs generalizing g with
  | nil => rfl
  | cons x xs ih => rw [List.foldl_cons, ih, hf]

/-! ### Graphs with the same wiring -/

/-- Two graphs that agree in everything that wires depend on, and in their main node. -/
structure SameWiring (g h : Graph) : Prop where
  ids : ∀ k, h.idOf? k = g.idOf? k
  pins : ∀ r, (h.pin? r).map Pin.bare = (g.pin? r).map Pin.bare
  wires : h.wires = g.wires
  members : h.members = g.members
  index : h.index = g.index
  links : h.links = g.links
  mainId : h.mainId = g.mainId

namespace SameWiring
variable {g h l : Graph}

@[simp] protected theorem refl (g : Graph) : SameWiring g g :=
  ⟨fun _ => rfl, fun _ => rfl, rfl, rfl, rfl, rfl, rfl⟩

protected theorem symm (a : SameWiring g h) : SameWiring h g :=
  ⟨fun k => (a.ids k).symm, fun r => (a.pins r).symm, a.wires.symm, a.members.symm,
    a.index.symm, a.links.symm, a.mainId.symm⟩

protected theorem trans (a : SameWiring g h) (b : SameWiring h l) : SameWiring g l :=
  ⟨fun k => (b.ids k).trans (a.ids k), fun r => (b.pins r).trans (a.pins r),
    b.wires.trans a.wires, b.members.trans a.members, b.index.trans a.index,
    b.links.trans a.links, b.mainId.trans a.mainId⟩

/-- Steps that keep the wiring keep it when they follow each other. -/
theorem foldl {α : Type} {f : Graph → α → Graph} (hf : ∀ g x, SameWiring g (f g x))
    (xs : List α) (g : Graph) : SameWiring g (xs.foldl f g) := by
  induction xs generalizing g with
  | nil => exact .refl g
  | cons x xs ih => exact (hf g x).trans (ih (f g x))

theorem wire? (a : SameWiring g h) (w : WireKey) : h.wire? w = g.wire? w := by
  simp only [Graph.wire?, a.wires]

theorem nodeWithId? (a : SameWiring g h) (id : String) : h.nodeWithId? id = g.nodeWithId? id := by
  simp only [Graph.nodeWithId?, a.index]

theorem contains (a : SameWiring g h) (k : NodeKey) : h.contains k = g.contains k := by
  simp only [contains_eq, a.ids, a.nodeWithId?]

/-- A pin of the one graph is a pin of the other one, but for the values. -/
theorem pin? (a : SameWiring g h) {r : PinRef} {p : Pin} (hp : h.pin? r = some p) :
    ∃ q, g.pin? r = some q ∧ q.bare = p.bare := by
  have hr := a.pins r
  rw [hp, Option.map_some] at hr
  exact Option.map_eq_some_iff.1 hr.symm

/-- Which pins hold values is a matter of the wiring. -/
theorem any_data (a : SameWiring g h) (r : PinRef) :
    (h.pin? r).any (!·.flow) = (g.pin? r).any (!·.flow) := by
  have hr := congrArg (Option.any (!·.flow)) (a.pins r)
  simp only [Option.any_map] at hr
  exact hr

end SameWiring

/-! ### Operations that keep the wiring -/

theorem sameWiring_modifyNode (g : Graph) (k : NodeKey) {f : Node → Node}
    (hid : ∀ n, (f n).id = n.id) (hf : ∀ n s, (f n).pins s = n.pins s) :
    SameWiring g (g.modifyNode k f) where
  ids j := by
    simp only [idOf?, node?_modifyNode]
    split
    · cases g.node? j <;> simp [hid]
    · rfl
  pins r := by rw [pin?_modifyNode_of_pins g k hf]
  wires := rfl
  members := rfl
  index := rfl
  links := rfl
  mainId := rfl

theorem sameWiring_modifyPin (g : Graph) (r : PinRef) {f : Pin → Pin}
    (hf : ∀ p, (f p).bare = p.bare) : SameWiring g (g.modifyPin r f) where
  ids k := idOf?_modifyPin g r f k
  pins r' := by
    rw [pin?_modifyPin]
    split
    · cases g.pin? r' <;> simp [hf]
    · rfl
  wires := rfl
  members := rfl
  index := rfl
  links := rfl
  mainId := rfl

@[simp] theorem sameWiring_modifyGroup (g : Graph) (a : GroupKey) (f : Group → Group) :
    SameWiring g (g.modifyGroup a f) :=
  ⟨fun _ => rfl, fun _ => rfl, rfl, rfl, rfl, rfl, rfl⟩

theorem sameWiring_transfer (g : Graph) (w : WireKey) : SameWiring g (g.transfer w) := by
  simp only [transfer]
  split
  · split
    · split
      · exact .refl g
      · exact sameWiring_modifyPin g _ fun p => Pin.bare_assign p _
    · exact .refl g
  · exact .refl g

theorem sameWiring_leaveGroup (g : Graph) (a : GroupKey) (k : NodeKey) :
    SameWiring g (g.leaveGroup a k).2 := by
  simp only [leaveGroup]
  split
  · refine (sameWiring_modifyGroup g a _).trans (sameWiring_modifyNode _ k ?_ ?_)
    · intro n; split <;> rfl
    · intro n s; split <;> cases s <;> rfl
  · exact .refl g

theorem sameWiring_leaveAnyGroup (g : Graph) (k : NodeKey) : SameWiring g (g.leaveAnyGroup k) := by
  simp only [leaveAnyGroup]
  split
  · exact sameWiring_leaveGroup g _ k
  · exact .refl g

theorem sameWiring_joinGroup (g : Graph) (a : GroupKey) (k : NodeKey) :
    SameWiring g (g.joinGroup a k) := by
  simp only [joinGroup]
  split
  · exact .refl g
  · have hn (l : Graph) (id : Option String) : SameWiring l
        (l.modifyNode k fun n => { n with group := some a, groupId := id }) :=
      sameWiring_modifyNode l k (fun _ => rfl) fun _ s => by cases s <;> rfl
    exact (sameWiring_leaveAnyGroup g k).trans ((sameWiring_modifyGroup _ a _).trans (hn _ _))

theorem sameWiring_clearGroup (g : Graph) (a : GroupKey) : SameWiring g (g.clearGroup a) := by
  refine (SameWiring.foldl (fun g k => sameWiring_modifyNode g k ?_ ?_) _ g).trans
    (sameWiring_modifyGroup _ a _)
  · intro n; split <;> rfl
  · intro n s; split <;> cases s <;> rfl

theorem sameWiring_clearTree (g : Graph) (t : Tree) : SameWiring g (g.clearTree t) :=
  .foldl (fun g (a : Group) => sameWiring_clearGroup g a.key) t.preorder g

/-- Where groups stand, what ids are still to come and how the graph is called does not matter to
wires. -/
theorem sameWiring_of_eq {g h : Graph} (hnodes : h.nodes = g.nodes) (hwires : h.wires = g.wires)
    (hmembers : h.members = g.members) (hindex : h.index = g.index) (hlinks : h.links = g.links)
    (hmain : h.mainId = g.mainId) : SameWiring g h where
  ids k := by simp only [idOf?, node?, hnodes]
  pins r := by simp only [pin?, node?, hnodes]
  wires := hwires
  members := hmembers
  index := hindex
  links := hlinks
  mainId := hmain

theorem sameWiring_newGroup (g : Graph) (name : String) (bounds : Rect Float) :
    SameWiring g (g.newGroup name bounds).2 := sameWiring_of_eq rfl rfl rfl rfl rfl rfl

theorem sameWiring_registerGroup (g : Graph) (a : GroupKey) :
    SameWiring g (g.registerGroup a) := by
  simp only [registerGroup]
  split
  · exact sameWiring_of_eq rfl rfl rfl rfl rfl rfl
  · exact .refl g

theorem sameWiring_dropGroup (g : Graph) (a : GroupKey) : SameWiring g (g.dropGroup a) := by
  simp only [dropGroup]
  split
  · exact .refl g
  · next t _ =>
    refine (sameWiring_clearTree g t).trans ?_
    split
    · exact sameWiring_of_eq rfl rfl rfl rfl rfl rfl
    · exact .refl _

theorem sameWiring_removeGroup (g : Graph) (a : GroupKey) : SameWiring g (g.removeGroup a).2 := by
  simp only [removeGroup]
  split
  · exact .refl g
  · next t _ =>
    refine (sameWiring_clearTree g t).trans ?_
    split
    · exact sameWiring_of_eq rfl rfl rfl rfl rfl rfl
    · exact .refl _

theorem sameWiring_moveNodeToGroup (g : Graph) (k : NodeKey) (a : Option GroupKey) :
    SameWiring g (g.moveNodeToGroup k a).2 := by
  simp only [moveNodeToGroup]
  split
  · split
    · exact (sameWiring_leaveAnyGroup g k).trans
        (sameWiring_modifyNode _ k (fun _ => rfl) fun _ s => by cases s <;> rfl)
    · split
      · exact sameWiring_joinGroup g _ k
      · exact .refl g
  · exact .refl g

theorem sameWiring_reparentGroup (g : Graph) (a : GroupKey) (parent : Option GroupKey) :
    SameWiring g (g.reparentGroup a parent).2 := by
  simp only [reparentGroup]
  split
  · split
    · exact .refl g
    · split
      · split <;> exact sameWiring_of_eq rfl rfl rfl rfl rfl rfl
      · exact .refl g
  · exact .refl g

theorem sameWiring_adoptGroup (g : Graph) (parent : GroupKey) (child : Option GroupKey) :
    SameWiring g (g.adoptGroup parent child).2 := by
  simp only [adoptGroup]
  split
  · exact .refl g
  · split
    · exact sameWiring_dropGroup g _
    · split
      · exact sameWiring_of_eq rfl rfl rfl rfl rfl rfl
      · exact .refl g

theorem sameWiring_releaseGroup (g : Graph) (parent child : GroupKey) :
    SameWiring g (g.releaseGroup parent child).2 := by
  simp only [releaseGroup]
  split
  · split
    · exact sameWiring_of_eq rfl rfl rfl rfl rfl rfl
    · split
      · exact sameWiring_of_eq rfl rfl rfl rfl rfl rfl
      · exact .refl g
  · exact .refl g

/-! ### Layouts -/

theorem sameWiring_setBounds (g : Graph) (a : GroupKey) (f : Rect Float → Rect Float) :
    SameWiring g (Layout.setBounds g a f) := sameWiring_modifyGroup g a _

theorem sameWiring_createGroup (g : Graph) (name : String) (bounds : Rect Float)
    (parent : Option GroupKey) : SameWiring g (Layout.createGroup g name bounds parent).2 := by
  have hnew := sameWiring_newGroup g name bounds
  simp only [Layout.createGroup]
  split
  · exact hnew.trans (sameWiring_registerGroup _ _)
  · split
    · exact hnew.trans (sameWiring_adoptGroup _ _ _)
    · exact .refl g

theorem sameWiring_fit (l : Layout) (g : Graph) (a : GroupKey) (padding : Float) :
    SameWiring g (l.fit g a padding) := by
  simp only [Layout.fit]
  split
  · exact .refl g
  · exact sameWiring_setBounds g a _

theorem sameWiring_expandAround (l : Layout) (g : Graph) (a : GroupKey) (k : NodeKey)
    (padding : Float) : SameWiring g (l.expandAround g a k padding) := by
  simp only [Layout.expandAround]
  split
  · exact sameWiring_setBounds g a _
  · exact .refl g

theorem sameWiring_addNode (l : Layout) (g : Graph) (k : NodeKey) (a : GroupKey) (adjust : Bool)
    (padding : Float) : SameWiring g (l.addNode g k a adjust padding).2 := by
  have hmove := sameWiring_moveNodeToGroup g k (some a)
  simp only [Layout.addNode]
  split
  · next h hm =>
    rw [hm] at hmove
    split
    · exact hmove.trans (sameWiring_expandAround l h a k padding)
    · exact hmove
  · next h hm =>
    rw [hm] at hmove
    exact hmove

theorem sameWiring_removeFromGroup (g : Graph) (k : NodeKey) (a : GroupKey) :
    SameWiring g (Layout.removeNode g k a).2 := by
  simp only [Layout.removeNode]
  split
  · exact sameWiring_moveNodeToGroup g k none
  · exact .refl g

theorem sameWiring_createGroupAround (l : Layout) (g : Graph) (name : String)
    (ks : List (Option NodeKey)) (padding : Float) (parent : Option GroupKey) :
    SameWiring g (l.createGroupAround g name ks padding parent).2 := by
  have hcreate := sameWiring_createGroup g name (l.boundsOf g (Layout.listed ks) padding) parent
  simp only [Layout.createGroupAround]
  split
  · next h hc =>
    rw [hc] at hcreate
    exact hcreate
  · next a h hc =>
    rw [hc] at hcreate
    have hadd := SameWiring.foldl (fun g k => sameWiring_addNode l g k a false 0)
      (Layout.listed ks) h
    exact hcreate.trans (hadd.trans (sameWiring_fit l _ a padding))

theorem sameWiring_moveGroup (g : Graph) (a : GroupKey) (dx dy : Float)
    (withNodes withChildren : Bool) :
    SameWiring g (Layout.moveGroup g a dx dy withNodes withChildren) := by
  have hplace (g : Graph) (k : NodeKey) : SameWiring g (g.modifyNode k fun n =>
      { n with position := n.position.translate dx dy }) :=
    sameWiring_modifyNode g k (fun _ => rfl) fun _ s => by cases s <;> rfl
  have hone (g : Graph) (b : Group) : SameWiring g (Layout.moveOne dx dy withNodes g b) := by
    simp only [Layout.moveOne]
    split
    · exact (sameWiring_setBounds g b.key _).trans (.foldl hplace b.members _)
    · exact sameWiring_setBounds g b.key _
  simp only [Layout.moveGroup]
  split
  · exact .refl g
  · exact .foldl hone _ g

theorem sameWiring_constrain (l : Layout) (g : Graph) (a : GroupKey) (k : NodeKey)
    (wanted : Point Float) (grow : Bool) (padding : Float) :
    SameWiring g (l.constrain g a k wanted grow padding).2 := by
  simp only [Layout.constrain]
  split
  · exact sameWiring_setBounds g a fun _ => _
  · exact .refl g

end Graph
end Patchbay
