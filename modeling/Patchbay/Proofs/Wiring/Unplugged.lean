import Patchbay.Proofs.Wiring.Attached
import Patchbay.Proofs.Wiring.Coherent
/-!
# Wires that are taken off their pins

In a graph whose links are coherent a listed wire is known at both of its ends and nowhere else. To
take it off its pins therefore frees the input that it fed and takes it off the list of the output
at which it began, and does nothing else to any pin, however many wires went before it.

## Main definitions

* `Pin.without`: a pin after some wires are gone.
* `Graph.Unplugged`: a graph some of whose wires were taken off their pins.

## Main statements

* `Graph.Unplugged.disconnect`: one more wire of a coherent graph is taken off its pins.
* `Graph.Coherent.unplugged_disconnectTouching`: so are all wires that touch a node.
-/
namespace Patchbay
namespace Pin
variable {s : Side} {w : WireKey}

/-- The pin after some wires are gone: an input that one of them fed is free and holds its initial
value, and an output does not know them any more. -/
def without (p : Pin) (s : Side) (gone : WireKey → Bool) : Pin :=
  match s with
  | .input => if p.incoming.any gone then { p with incoming := none, value := p.initial } else p
  | .output => { p with outgoing := p.outgoing.filter fun w => !gone w }

@[simp] theorem without_false (p : Pin) (s : Side) : p.without s (fun _ => false) = p := by
  cases s
  · cases h : p.incoming <;> simp [without, h]
  · simp [without]

/-- Only the wires that a pin knows matter. -/
theorem without_congr {p : Pin} {gone gone' : WireKey → Bool}
    (h : ∀ w, p.Knows s w → gone w = gone' w) : p.without s gone = p.without s gone' := by
  cases s with
  | input =>
    cases hi : p.incoming with
    | none => simp [without, hi]
    | some v => simp [without, hi, h v hi]
  | output =>
    have hsame : p.outgoing.filter (fun w => !gone w) = p.outgoing.filter fun w => !gone' w :=
      List.filter_congr fun w hw => by rw [h w hw]
    simp only [without, hsame]

/-- Wires can go one after the other. -/
theorem without_without (p : Pin) (s : Side) (gone : WireKey → Bool) (w : WireKey) :
    (p.without s gone).without s (· = w) = p.without s fun v => v = w || gone v := by
  cases s with
  | input =>
    cases h : p.incoming with
    | none => simp [without, h]
    | some v => by_cases hv : gone v = true <;> simp [without, h, hv]
  | output => simp [without, List.filter_filter]

/-- A pin that does not know a wire is not changed when the wire goes. -/
theorem without_of_not_knows {p : Pin} (h : ¬ p.Knows s w) : p.without s (· = w) = p := by
  cases s with
  | input =>
    have h : p.incoming ≠ some w := h
    cases hi : p.incoming with
    | none => simp [without, hi]
    | some v =>
      have hv : v ≠ w := fun e => h (e ▸ hi)
      simp [without, hi, hv]
  | output =>
    have h : w ∉ p.outgoing := h
    have hsame : p.outgoing.filter (fun v => !decide (v = w)) = p.outgoing := by
      rw [List.filter_eq_self]
      intro v hv
      simpa using fun e : v = w => h (e ▸ hv)
    simp [without, hsame]

/-- A pin goes on to know the wires that are not gone. -/
theorem knows_without (p : Pin) (s : Side) (gone : WireKey → Bool) (w : WireKey) :
    (p.without s gone).Knows s w ↔ p.Knows s w ∧ gone w = false := by
  cases s with
  | input =>
    cases h : p.incoming with
    | none => simp [without, Knows, h]
    | some v => by_cases hv : gone v = true <;> simp [without, Knows, h, hv] <;> grind
  | output => simp [without, Knows]

end Pin

namespace Graph
variable {g h : Graph} {gone : WireKey → Bool} {w : WireKey}

/-! ### One wire -/

/-- A wire without ends is on no pin that it could be taken off. -/
theorem pin?_disconnect_of_loose {c : Wire} (hw : g.wire? w = some c) (hs : c.source = none)
    (ht : c.target = none) (r : PinRef) : (g.disconnect w).pin? r = g.pin? r := by
  simp [disconnect, hw, hs, ht, detachEnd]

/-- A wire that its input knows is taken off its two pins. -/
theorem pin?_disconnect {c : Wire} {s t : PinRef} (hw : g.wire? w = some c)
    (hs : c.source = some s) (ht : c.target = some t) (hss : s.side = .output)
    (hts : t.side = .input) (hfed : ∀ q, g.pin? t = some q → q.incoming = some w) (r : PinRef) :
    (g.disconnect w).pin? r =
      if r = s ∨ r = t then (g.pin? r).map (·.without r.side (· = w)) else g.pin? r := by
  have hne : s ≠ t := by
    rintro rfl
    rw [hss] at hts
    cases hts
  have hreset : (if ((g.pin? t).any fun p => p.incoming = some w) = true
      then (g.detach t w).modifyPin t Pin.reset else g.detach t w).pin? r =
        if r = t then (g.pin? r).map (·.without r.side (· = w)) else g.pin? r := by
    by_cases hr : r = t
    · subst hr
      cases hq : g.pin? r with
      | none => simp [hq, detach, pin?_modifyPin]
      | some q =>
        simp [detach, pin?_modifyPin, hq, hfed q hq, hts, Pin.without, Pin.detach, Pin.reset]
    · rw [if_neg hr]
      split <;> simp [detach, pin?_modifyPin, Ne.symm hr]
  simp only [disconnect, hw, hs, ht, pin?_modifyWire, pin?_detachEnd, Option.some.injEq, hreset]
  by_cases hr : r = s
  · subst hr
    simp [hne, hss, Pin.without, Pin.detach]
  · simp [hr, Ne.symm hr]

/-! ### Several wires -/

/-- A graph some of whose wires were taken off their pins. They are still listed, and the pins of
nodes that are not members did not take part. -/
structure Unplugged (g h : Graph) (gone : WireKey → Bool) : Prop extends Severed g h gone where
  pins : ∀ r, h.pin? r =
    if r.node ∈ g.members then (g.pin? r).map (·.without r.side gone) else g.pin? r

protected theorem Unplugged.refl (g : Graph) : Unplugged g g fun _ => false :=
  ⟨.refl g, fun r => by cases g.pin? r <;> simp⟩

/-- In a coherent graph the pins that know a listed wire are those at its ends. -/
theorem Coherent.knows_iff (hg : g.Coherent) (hw : w ∈ g.links) {r : PinRef} {p : Pin}
    (hr : r.node ∈ g.members) (hp : g.pin? r = some p) :
    p.Knows r.side w ↔ g.sourceOf? w = some r ∨ g.targetOf? w = some r := by
  obtain ⟨c, s, t, q, q', hc, j⟩ := hg.joined w hw
  have hsource : g.sourceOf? w = some s := by simp [sourceOf?, hc, j.source]
  have htarget : g.targetOf? w = some t := by simp [targetOf?, hc, j.target]
  cases hside : r.side with
  | input =>
    have hs : g.sourceOf? w ≠ some r := fun h => by
      obtain rfl := Option.some.inj (hsource.symm.trans h)
      rw [j.source_side] at hside
      cases hside
    rw [or_iff_right hs]
    exact (hg.incoming hr hp w).trans (and_iff_right hw)
  | output =>
    have ht : g.targetOf? w ≠ some r := fun h => by
      obtain rfl := Option.some.inj (htarget.symm.trans h)
      rw [j.target_side] at hside
      cases hside
    rw [or_iff_left ht]
    change w ∈ p.outgoing ↔ _
    rw [(hg.outgoing hr hside hp).1, wiresFrom_eq, List.mem_filter, and_iff_right hw,
      decide_eq_true_iff]

/-- One more wire of a coherent graph is taken off its pins. -/
theorem Unplugged.disconnect (a : Unplugged g h gone) (hg : g.Coherent) (hw : w ∈ g.links) :
    Unplugged g (h.disconnect w) fun v => v = w || gone v := by
  refine ⟨a.toSevered.disconnect w, fun r => ?_⟩
  obtain ⟨c, s, t, p, q, hc, j⟩ := hg.joined w hw
  cases hgone : gone w with
  | true =>
    have hsame : (fun v => decide (v = w) || gone v) = gone := by
      funext v
      by_cases hv : v = w <;> simp [hv, hgone]
    have hloose := a.wire? w
    rw [if_pos hgone, hc, Option.map_some] at hloose
    rw [pin?_disconnect_of_loose hloose rfl rfl, a.pins, hsame]
  | false =>
    have hwire := a.wire? w
    rw [if_neg (by simp [hgone]), hc] at hwire
    have hsource : g.sourceOf? w = some s := by simp [sourceOf?, hc, j.source]
    have htarget : g.targetOf? w = some t := by simp [targetOf?, hc, j.target]
    have hfed (q' : Pin) (hq' : h.pin? t = some q') : q'.incoming = some w := by
      rw [a.pins, if_pos j.target_member, j.target_pin, Option.map_some] at hq'
      cases hq'
      have hknows := (hg.knows_iff hw j.target_member j.target_pin).2 (.inr htarget)
      have hknows := (Pin.knows_without q t.side gone w).2 ⟨hknows, hgone⟩
      rw [j.target_side] at hknows ⊢
      exact hknows
    rw [pin?_disconnect hwire j.source j.target j.source_side j.target_side hfed, a.pins]
    by_cases hr : r.node ∈ g.members
    · simp only [if_pos hr]
      split
      · cases g.pin? r <;> simp [Pin.without_without]
      · next hne =>
        cases hp : g.pin? r with
        | none => rfl
        | some p' =>
          -- the wire is not known at a pin at which it has no end
          have hforeign : ¬ (p'.without r.side gone).Knows r.side w := by
            rw [Pin.knows_without, hg.knows_iff hw hr hp, hsource, htarget]
            rintro ⟨h | h, -⟩
            · exact hne (.inl (Option.some.inj h).symm)
            · exact hne (.inr (Option.some.inj h).symm)
          simp only [Option.map_some, ← Pin.without_without, Pin.without_of_not_knows hforeign]
    · simp only [if_neg hr]
      rw [if_neg]
      rintro (rfl | rfl)
      · exact hr j.source_member
      · exact hr j.target_member

/-- The wires of a coherent graph that touch a node are taken off their pins. -/
theorem Coherent.unplugged_disconnectTouching (hg : g.Coherent) (k : NodeKey) :
    Unplugged g (g.disconnectTouching k) fun w => w ∈ g.links && g.touches k w :=
  disconnectTouching_of (R := fun gone h => Unplugged g h gone) Unplugged.toSevered
    (fun _ hw _ _ a => a.disconnect hg hw) (.refl g) k

end Graph
end Patchbay
