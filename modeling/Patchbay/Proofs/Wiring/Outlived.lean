import Patchbay.Proofs.Wiring.EndsKnown
/-!
# Wires that outlive a node

Nodes and wires can be handled without a graph: a wire is put between any two pins, or made without
ends and given them later, and a node is destroyed while wires lead to it. As long as no step makes
a pin forget a wire that has an end there, no wire is left with an end that leads nowhere.

## Main definitions

* `Graph.Tidy`: wires begin and end at pins that are there, and the pins know them.
* `Handling`: what is done to nodes and wires by hand, with `Handling.Possible` for what is alive
  and `Handling.Careful` for the steps after which every pin knows its wires.
* `Handled`, `CarefullyHandled`: the graphs that any history, and a careful one, lead to.

## Main statements

* `Handling.settles`: what one step does to wires and pins that know each other.
* `CarefullyHandled.tidy`: after a careful history every pin knows its wires.
* `CarefullyHandled.ends_alive`: careful steps, and no others, leave no end at a destroyed node.
-/
namespace Patchbay
namespace Graph
section Ends
variable {g h : Graph} {w : WireKey} {r : PinRef}

/-! ### Graphs whose pins know their wires -/

/-- Wires begin and end at pins that are there, and the pins know them. -/
structure Tidy (g : Graph) : Prop where
  endsExist : g.EndsExist
  sided : g.Sided
  endsKnown : g.EndsKnown

namespace Tidy

theorem loosens (hg : Tidy g) (a : Loosens g h) (b : Keeps g h) : Tidy h :=
  ⟨b.endsExist hg.endsExist fun hw => .inl (a.hasEnd hw), b.sided hg.sided, hg.endsKnown.loosens a⟩

theorem releases (hg : Tidy g) : g.Releases :=
  (endsKnown_iff_releases hg.endsExist hg.sided).1 hg.endsKnown

/-- A fresh node has no wires. -/
theorem newNode (hg : Tidy g) {n : Node} (hn : n.Fresh) : Tidy (g.newNode n).2 := by
  have hpin {r : PinRef} (hr : r.node ≠ g.nodes.next) : (g.newNode n).2.pin? r = g.pin? r := by
    rw [pin?, node?_newNode, if_neg hr, pin?]
  have hend {w : WireKey} {r : PinRef} (hw : g.HasEnd w r) :
      (g.newNode n).2.pin? r = g.pin? r := by
    refine hpin fun hr => ?_
    have hsome := hg.endsExist hw
    rw [pin?, hr, node?, Arena.get?_next] at hsome
    cases hsome
  refine ⟨fun w r hw => ?_, fun r p hp => ?_, fun w r p hw hp => ?_⟩
  · rw [hend hw]
    exact hg.endsExist hw
  · by_cases hr : r.node = g.nodes.next
    · rw [pin?, node?_newNode, if_pos hr] at hp
      exact (hn.pins r.side p (List.mem_of_getElem? hp)).oneSided r.side
    · exact hg.sided ((hpin hr).symm.trans hp)
  · exact hg.endsKnown hw ((hend hw).symm.trans hp)

/-- A node that is destroyed leaves no wire behind. -/
theorem dropNode (hg : Tidy g) (k : NodeKey) : Tidy (g.dropNode k) := by
  have a := loosens_dropNode g k
  have b := (sameWiring_leaveAnyGroup g k).keeps
  refine ⟨fun w r hw => ?_, fun r p hp => ?_, hg.endsKnown.loosens a⟩
  · rw [pin?_dropNode, if_neg (Ne.symm (hg.releases hw)), b.isSome]
    exact hg.endsExist (a.hasEnd hw)
  · rw [pin?_dropNode] at hp
    split at hp
    · cases hp
    · exact b.sided hg.sided hp

end Tidy

/-- After a step wires begin and end at pins that are there, and the pins know them exactly if the
step was a careful one. -/
structure Settles (h : Graph) (careful : Prop) : Prop where
  endsExist : h.EndsExist
  sided : h.Sided
  endsKnown_iff : h.EndsKnown ↔ careful

theorem Settles.tidy {careful : Prop} (a : Settles h careful) (hc : careful) : Tidy h :=
  ⟨a.endsExist, a.sided, a.endsKnown_iff.2 hc⟩

theorem Settles.releases_iff {careful : Prop} (a : Settles h careful) : careful ↔ h.Releases :=
  a.endsKnown_iff.symm.trans (endsKnown_iff_releases a.endsExist a.sided)

theorem Tidy.settles (hg : Tidy g) : Settles g True :=
  ⟨hg.endsExist, hg.sided, iff_true_intro hg.endsKnown⟩

/-- A wire whose end is moved is known as before if the move is a careful one. -/
theorem Moves.settles {old new other : Option PinRef} (a : Moves g h w old new other) (hg : Tidy g)
    (hnew : ∀ r, new = some r → (g.pin? r).isSome = true) :
    Settles h (CarefulMove g w old new other) :=
  ⟨a.endsExist hg.endsExist hnew, a.keeps.sided hg.sided, a.careful hg.endsExist hnew,
    a.endsKnown hg.endsKnown⟩

/-- The pins of a new wire know it, and they go on to know the others if no input among them has
one. -/
theorem settles_joinPins (hg : Tidy g) {s t : PinRef} (hs : (g.pin? s).isSome = true)
    (ht : (g.pin? t).isSome = true) :
    Settles (g.joinPins s t).2 (g.Vacant g.wires.next s ∧ g.Vacant g.wires.next t) := by
  obtain ⟨g₁, g₂, h₁, h₂, a⟩ := exists_moves_joinPins g s t
  have hs (r : PinRef) (hr : some s = some r) : (g.pin? r).isSome = true :=
    Option.some.inj hr ▸ hs
  have ht (r : PinRef) (hr : some t = some r) : (g₁.pin? r).isSome = true := by
    rw [h₁.keeps.isSome]
    exact Option.some.inj hr ▸ ht
  have hg₁ := h₁.endsExist hg.endsExist hs
  refine ⟨a.keeps.endsExist (h₂.endsExist hg₁ ht) fun hw => .inl (a.hasEnd.1 hw),
    a.keeps.sided (h₂.keeps.sided (h₁.keeps.sided hg.sided)), ?_⟩
  have hvacant : g₁.Vacant g.wires.next t ↔ g.Vacant g.wires.next t := by
    refine forall_congr' fun _ => forall_congr' fun v => ?_
    by_cases hv : v = g.wires.next
    · exact iff_of_true (fun _ => hv) fun _ => hv
    · rw [h₁.others v hv t]
  constructor
  · intro hm
    have hm₂ : g₂.EndsKnown := hm.loosens a.symm.loosens
    -- the pin that the wire got first knows it, whatever comes to the second one
    have hm₁ : g₁.EndsKnown := by
      refine h₂.endsKnown_of (fun {r p} hr hp => ?_) hm₂
      rw [h₁.pin] at hp
      obtain ⟨q, -, rfl⟩ := Option.map_eq_some_iff.1 hp
      exact (Pin.knows_moved q r.side _).2 (.inl hr)
    exact ⟨(h₁.careful hg.endsExist hs hm₁).comes s rfl,
      hvacant.1 ((h₂.careful hg₁ ht hm₂).comes t rfl)⟩
  · rintro ⟨hvs, hvt⟩
    have hm₁ := h₁.endsKnown hg.endsKnown ⟨by simp, fun r hr => Option.some.inj hr ▸ hvs⟩
    have hm₂ := h₂.endsKnown hm₁ ⟨by simp, fun r hr => Option.some.inj hr ▸ hvacant.2 hvt⟩
    exact hm₂.loosens a.loosens

end Ends
end Graph

/-! ### Histories -/

/-- What is done to nodes and wires by hand. -/
inductive Handling where
  | newNode (n : Node)
  | dropNode (k : NodeKey)
  /-- Put a wire between any two pins. -/
  | join (s t : PinRef)
  /-- Make a wire without ends that keeps ids of pins. -/
  | newWire (id sourceId targetId : String)
  | setSource (w : WireKey) (r : Option PinRef)
  | setTarget (w : WireKey) (r : Option PinRef)
  | transfer (w : WireKey)
  | disconnect (w : WireKey)
  | dropWire (w : WireKey)

namespace Handling
variable {g : Graph}

/-- The nodes and the wires afterwards. -/
def apply (g : Graph) : Handling → Graph
  | newNode n => (g.newNode n).2
  | dropNode k => g.dropNode k
  | join s t => (g.joinPins s t).2
  | newWire id sourceId targetId => (g.newWire { id, sourceId, targetId }).2
  | setSource w r => g.setSource w r
  | setTarget w r => g.setTarget w r
  | transfer w => g.transfer w
  | disconnect w => g.disconnect w
  | dropWire w => g.dropWire w

/-- Only what is alive can be handled, and a node is made without wires. -/
def Possible (g : Graph) : Handling → Prop
  | newNode n => n.Fresh
  | dropNode k => (g.node? k).isSome
  | join s t => (g.pin? s).isSome ∧ (g.pin? t).isSome
  | newWire .. => True
  | setSource w r | setTarget w r => (g.wire? w).isSome ∧ ∀ e, r = some e → (g.pin? e).isSome
  | transfer w | disconnect w | dropWire w => (g.wire? w).isSome

/-- Ends come to inputs at which no other wire has an end, and do not leave a pin at which the wire
has its other end. -/
def Careful (g : Graph) : Handling → Prop
  | join s t => g.Vacant g.wires.next s ∧ g.Vacant g.wires.next t
  | setSource w r => ∀ c, g.wire? w = some c → c.source ≠ r → g.CarefulMove w c.source r c.target
  | setTarget w r => ∀ c, g.wire? w = some c → c.target ≠ r → g.CarefulMove w c.target r c.source
  | _ => True

/-- The pins go on to know their wires exactly if the handling is a careful one. -/
theorem settles (hg : g.Tidy) {x : Handling} (hx : x.Possible g) :
    Graph.Settles (x.apply g) (x.Careful g) := by
  cases x with
  | newNode n => exact (hg.newNode hx).settles
  | dropNode k => exact (hg.dropNode k).settles
  | join s t => exact Graph.settles_joinPins hg hx.1 hx.2
  | newWire id sourceId targetId =>
    have hends {v : WireKey} {r : PinRef} := Graph.hasEnd_newWire (g := g)
      (c := { id, sourceId, targetId }) (v := v) (r := r) rfl rfl
    exact Graph.Tidy.settles ⟨fun w r hw => hg.endsExist (hends.1 hw), hg.sided,
      fun w r p hw hp => hg.endsKnown (hends.1 hw) hp⟩
  | setSource w r =>
    obtain ⟨c, hw⟩ := Option.isSome_iff_exists.1 hx.1
    by_cases hne : c.source = r
    · have hsame : g.setSource w r = g := by simp [Graph.setSource, hw, hne]
      have hcareful : Careful g (setSource w r) := fun d hd hn => by
        obtain rfl := Option.some.inj (hw.symm.trans hd)
        exact absurd hne hn
      simpa only [apply, hsame, hcareful] using hg.settles
    · have hcareful : Careful g (setSource w r) ↔ g.CarefulMove w c.source r c.target := by
        simp [Careful, hw, hne]
      rw [hcareful]
      exact (Graph.moves_setSource hw hne).settles hg hx.2
  | setTarget w r =>
    obtain ⟨c, hw⟩ := Option.isSome_iff_exists.1 hx.1
    by_cases hne : c.target = r
    · have hsame : g.setTarget w r = g := by simp [Graph.setTarget, hw, hne]
      have hcareful : Careful g (setTarget w r) := fun d hd hn => by
        obtain rfl := Option.some.inj (hw.symm.trans hd)
        exact absurd hne hn
      simpa only [apply, hsame, hcareful] using hg.settles
    · have hcareful : Careful g (setTarget w r) ↔ g.CarefulMove w c.target r c.source := by
        simp [Careful, hw, hne]
      rw [hcareful]
      exact (Graph.moves_setTarget hw hne).settles hg hx.2
  | transfer w =>
    have a := Graph.sameWiring_transfer g w
    exact (hg.loosens a.loosens a.keeps).settles
  | disconnect w =>
    exact (hg.loosens (Graph.loosens_disconnect g w) (Graph.keeps_disconnect g w)).settles
  | dropWire w =>
    exact (hg.loosens (Graph.loosens_dropWire g w) (Graph.keeps_dropWire g w)).settles

end Handling

/-- The nodes and wires that any history leads to. -/
inductive Handled : Graph → Prop where
  | new (ids : IdSupply) (name : String) (category : Category) : Handled (.new ids name category)
  | handle {g : Graph} (hg : Handled g) (x : Handling) (hx : x.Possible g) : Handled (x.apply g)

/-- The nodes and wires that a careful history leads to. -/
inductive CarefullyHandled : Graph → Prop where
  | new (ids : IdSupply) (name : String) (category : Category) :
      CarefullyHandled (.new ids name category)
  | handle {g : Graph} (hg : CarefullyHandled g) (x : Handling) (hx : x.Possible g)
      (hc : x.Careful g) :
      CarefullyHandled (x.apply g)

theorem CarefullyHandled.tidy {g : Graph} (hg : CarefullyHandled g) : g.Tidy := by
  induction hg with
  | new ids name category =>
    have hends (w : WireKey) (r : PinRef) : ¬ (Graph.new ids name category).HasEnd w r := by
      simp [Graph.HasEnd, Graph.sourceOf?, Graph.targetOf?, Graph.wire?, Graph.new, Arena.get?]
    have hpins (r : PinRef) : (Graph.new ids name category).pin? r = none := by
      simp [Graph.pin?, Graph.node?, Graph.new, Arena.get?]
    exact ⟨fun w r hw => absurd hw (hends w r),
      fun r p hp => absurd ((hpins r).symm.trans hp) (Option.some_ne_none p).symm,
      fun w r p hw => absurd hw (hends w r)⟩
  | handle _ x hx hc ih => exact (Handling.settles ih hx).tidy hc

namespace Handling

/-- A node with an output. -/
def giver : Node :=
  { id := "a", type := "t", name := "a", inputs := [], behaviour := pure ()
    outputs := [(PinSpec.data "x" .int (.int 7)).pin "a.x"] }

/-- A node with an input. -/
def taker : Node :=
  { id := "b", type := "t", name := "b", outputs := [], behaviour := pure ()
    inputs := [(PinSpec.data "y" .int).pin "b.y"] }

/-- Two nodes, one of which can give the other a value. -/
def pair : Graph := [newNode giver, newNode taker].foldl apply (.new {})

/-- The wire from the one node to the other. -/
def wiring : Handling := .join ⟨0, .output, 0⟩ ⟨1, .input, 0⟩

theorem fresh : giver.Fresh ∧ taker.Fresh := by
  have hpin (s : PinSpec) (id : String) : (s.pin id).Free := ⟨rfl, rfl, rfl⟩
  constructor
  · exact ⟨by rintro (_ | _) <;> simp [giver, Node.pins, hpin], rfl, rfl⟩
  · exact ⟨by rintro (_ | _) <;> simp [taker, Node.pins, hpin], rfl, rfl⟩

/-- The first wire between the two nodes ousts no other. -/
theorem careful_wiring : wiring.Careful pair := by
  have hends (v : WireKey) (r : PinRef) : ¬ pair.HasEnd v r := by
    have hwires : pair.wires = {} := rfl
    simp [Graph.HasEnd, Graph.sourceOf?, Graph.targetOf?, Graph.wire?, hwires, Arena.get?]
  exact ⟨fun _ v hv => absurd hv (hends v _), fun _ v hv => absurd hv (hends v _)⟩

end Handling

/-- After a careful history no wire has an end at a node that is gone, and this stays so whatever
node is destroyed next. It is lost with the first step that is not a careful one: then there is a
node that leaves a wire behind if it is destroyed. -/
theorem CarefullyHandled.ends_alive {g : Graph} (hg : CarefullyHandled g) :
    g.EndsExist ∧ g.Releases ∧
    ∀ x : Handling, x.Possible g → (x.Careful g ↔ (x.apply g).Releases) :=
  ⟨hg.tidy.endsExist, hg.tidy.releases, fun _ hx => (Handling.settles hg.tidy hx).releases_iff⟩

/-- A wire outlives the node at which it ends. -/
theorem CarefullyHandled.ends_alive_outlived :
    let g := [Handling.wiring, .dropNode 1].foldl Handling.apply Handling.pair
    g.sourceOf? 0 = some ⟨0, .output, 0⟩ ∧ g.targetOf? 0 = none ∧ CarefullyHandled g ∧ g.EndsExist ∧
      g.Releases ∧ ∀ x : Handling, x.Possible g → (x.Careful g ↔ (x.apply g).Releases) := by
  intro g
  have hpair : CarefullyHandled Handling.pair :=
    ((CarefullyHandled.new {} "Graph" .controlFlow).handle (.newNode Handling.giver)
      Handling.fresh.1 trivial).handle (.newNode Handling.taker) Handling.fresh.2 trivial
  have hwired := hpair.handle Handling.wiring ⟨rfl, rfl⟩ Handling.careful_wiring
  have hg : CarefullyHandled g := hwired.handle (.dropNode 1) rfl trivial
  exact ⟨by decide, by decide, hg, hg.ends_alive⟩

/-- A second wire into an input makes it forget the first one, which then outlives the node. -/
theorem Handled.not_forall_endsExist : ¬ ∀ g, Handled g → g.EndsExist := by
  intro hclaim
  let g := [Handling.wiring, .wiring, .dropNode 1].foldl Handling.apply Handling.pair
  have hpair : Handled Handling.pair := ((Handled.new {} "Graph" .controlFlow).handle
    (.newNode Handling.giver) Handling.fresh.1).handle (.newNode Handling.taker)
    Handling.fresh.2
  have htwice := (hpair.handle Handling.wiring ⟨rfl, rfl⟩).handle Handling.wiring ⟨rfl, rfl⟩
  have hg : Handled g := htwice.handle (.dropNode 1) rfl
  have hend : g.HasEnd 0 ⟨1, .input, 0⟩ := .inr (by decide)
  exact absurd (hclaim g hg hend) (by decide)

end Patchbay
