import Patchbay.Graph.Basic
/-!
# Wires and pins

A wire knows the pins at its ends and the pins know their wires. The operations here keep
the two views in step: an end is moved by detaching the wire from the pin before and
attaching it to the pin after. An input remembers only the wire attached last.
-/
namespace Patchbay.Graph

/-- Attach a wire to a pin. -/
def attach (g : Graph) (r : PinRef) (w : WireKey) : Graph := g.modifyPin r (·.attach r.side w)

/-- Detach a wire from a pin. -/
def detach (g : Graph) (r : PinRef) (w : WireKey) : Graph := g.modifyPin r (·.detach r.side w)

/-- Detach a wire from the pin at one of its ends, if there is one. -/
def detachEnd (g : Graph) (r : Option PinRef) (w : WireKey) : Graph :=
  match r with
  | some r => g.detach r w
  | none => g

/-- The id of a pin, or a text if there is no such pin. -/
def pinIdOr (g : Graph) (r : PinRef) (otherwise : String) : String :=
  ((g.pin? r).map (·.id)).getD otherwise

/-- Let a wire begin at a pin, or nowhere. A pin lends the wire its id. -/
def setSource (g : Graph) (w : WireKey) (r : Option PinRef) : Graph :=
  match g.wire? w with
  | none => g
  | some c =>
    if c.source = r then g
    else
      let g := g.detachEnd c.source w
      match r with
      | none => g.modifyWire w fun c => { c with source := none }
      | some p =>
        let id := g.pinIdOr p c.sourceId
        (g.modifyWire w fun c => { c with source := some p, sourceId := id }).attach p w

/-- Let a wire end at a pin, or nowhere. A pin lends the wire its id. -/
def setTarget (g : Graph) (w : WireKey) (r : Option PinRef) : Graph :=
  match g.wire? w with
  | none => g
  | some c =>
    if c.target = r then g
    else
      let g := g.detachEnd c.target w
      match r with
      | none => g.modifyWire w fun c => { c with target := none }
      | some p =>
        let id := g.pinIdOr p c.targetId
        (g.modifyWire w fun c => { c with target := some p, targetId := id }).attach p w

/-- Copy the value at the source of a wire to its target. Flow pins have no part in it. -/
def transfer (g : Graph) (w : WireKey) : Graph :=
  match g.wire? w with
  | some { source := some s, target := some t, .. } =>
    match g.pin? s with
    | some p => if p.flow then g else g.modifyPin t (·.assign p.value)
    | none => g
  | _ => g

/-- Take a wire off both pins. An input that it fed returns to its initial value. -/
def disconnect (g : Graph) (w : WireKey) : Graph :=
  match g.wire? w with
  | none => g
  | some c =>
    let g := match c.target with
      | none => g
      | some t =>
        let fed := (g.pin? t).any fun (p : Pin) => p.incoming = some w
        let g := g.detach t w
        if fed then g.modifyPin t Pin.reset else g
    let g := g.detachEnd c.source w
    g.modifyWire w fun c => { c with source := none, target := none }

/-- Put a wire without ends beside the graph. -/
def newWire (g : Graph) (c : Wire) : WireKey × Graph :=
  (g.wires.next, { g with wires := g.wires.push c })

/-- Put a wire between two pins beside the graph; a value passes at once. -/
def joinPins (g : Graph) (s t : PinRef) : WireKey × Graph :=
  let (id, g) := g.freshId
  let (w, g) := g.newWire { id, sourceId := g.pinIdOr s "", targetId := g.pinIdOr t "" }
  (w, ((g.setSource w (some s)).setTarget w (some t)).transfer w)

/-- End the life of a wire. The pins forget it and keep their values. -/
def dropWire (g : Graph) (w : WireKey) : Graph :=
  match g.wire? w with
  | none => g
  | some c =>
    let g := (g.detachEnd c.source w).detachEnd c.target w
    { g with wires := g.wires.erase w }

/-- The node at the source of a wire. -/
def sourceNode? (g : Graph) (w : WireKey) : Option NodeKey :=
  ((g.wire? w).bind (·.source)).bind g.owner?

/-- The node at the target of a wire. -/
def targetNode? (g : Graph) (w : WireKey) : Option NodeKey :=
  ((g.wire? w).bind (·.target)).bind g.owner?

/-- Does a wire begin or end at a node? -/
def involves (g : Graph) (w : WireKey) (k : NodeKey) : Bool :=
  g.sourceNode? w = some k || g.targetNode? w = some k

/-- Does a wire carry control? The source decides, or the target if there is no source. -/
def isFlowWire (g : Graph) (w : WireKey) : Bool :=
  match g.wire? w with
  | some { source := some s, .. } => (g.pin? s).any (·.flow)
  | some { source := none, target := some t, .. } => (g.pin? t).any (·.flow)
  | _ => false

/-- Are two pins of one kind, and their types compatible if they carry values? -/
def sameKind (p q : Pin) : Bool := p.flow = q.flow && (p.flow || p.type.compatible q.type)

/-- Does a wire lead from an output of a node to an input of a node of the same kind? -/
def isValidWire (g : Graph) (w : WireKey) : Bool :=
  match g.wire? w with
  | some { source := some s, target := some t, .. } =>
    (g.owner? s).isSome && (g.owner? t).isSome &&
      s.side = .output && t.side = .input &&
      (match g.pin? s, g.pin? t with
        | some p, some q => sameKind p q
        | _, _ => false)
  | _ => false

/-- May a wire join two pins? They must belong to different nodes, lie on different sides
and be of the same kind, and the input must be free unless a wire may be replaced. -/
def canConnect (g : Graph) (a b : PinRef) (replace : Bool) : Bool :=
  a ≠ b && (g.owner? a).isSome && (g.owner? b).isSome && g.owner? a ≠ g.owner? b &&
    a.side ≠ b.side &&
    (match g.pin? a, g.pin? b with
      | some p, some q =>
        let input := if a.side = .input then p else q
        (input.incoming.isNone || replace) && sameKind p q
      | _, _ => false)

@[simp] theorem links_modifyPin (g : Graph) (r : PinRef) (f : Pin → Pin) :
    (g.modifyPin r f).links = g.links := rfl

@[simp] theorem members_modifyPin (g : Graph) (r : PinRef) (f : Pin → Pin) :
    (g.modifyPin r f).members = g.members := rfl

@[simp] theorem wire?_modifyPin (g : Graph) (r : PinRef) (f : Pin → Pin) (w : WireKey) :
    (g.modifyPin r f).wire? w = g.wire? w := rfl

@[simp] theorem wire?_detachEnd (g : Graph) (r : Option PinRef) (w v : WireKey) :
    (g.detachEnd r w).wire? v = g.wire? v := by
  cases r <;> rfl

@[simp] theorem wire?_transfer (g : Graph) (w v : WireKey) :
    (g.transfer w).wire? v = g.wire? v := by
  simp only [transfer]
  split
  · split
    · split <;> rfl
    · rfl
  · rfl

/-- A wire that was taken off both pins has no end any more. -/
theorem resolved_disconnect (g : Graph) (w : WireKey) {c : Wire}
    (h : (g.disconnect w).wire? w = some c) : c.resolved = false := by
  simp only [disconnect] at h
  split at h
  · next hw => simp [hw] at h
  · next d hw =>
    rw [wire?_modifyWire] at h
    simp only [if_true, Option.map_eq_some_iff] at h
    obtain ⟨e, -, rfl⟩ := h
    rfl

end Patchbay.Graph
