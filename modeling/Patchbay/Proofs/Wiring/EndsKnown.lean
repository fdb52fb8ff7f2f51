import Patchbay.Proofs.Wiring.Attached
/-!
# Pins that mind their wires

A node that is destroyed has its pins tell the wires that they know, and only those: a wire that a
pin has forgotten keeps an end there. When an end of a wire is moved, a pin forgets a wire in two
ways. An input forgets the wire that another one ousts, and a pin forgets the wire itself if one end
leaves it while the other end stays.

## Main definitions

* `Graph.HasEnd`: a wire begins or ends at a pin.
* `Graph.EndsKnown`: a pin knows the wires that have an end at it.
* `Graph.Releases`: no wire has an end at a node once the node is destroyed.
* `Graph.Moves`: one end of a wire is moved, with `Graph.CarefulMove` for a move after which every
  pin knows its wires.

## Main statements

* `Graph.hasEnd_dropNode`: what a node leaves behind are the wires that its pins do not tell.
* `Graph.endsKnown_iff_releases`: nothing is left behind exactly if every pin knows its wires.
* `Graph.Moves.endsKnown`, `Graph.Moves.careful`: pins know their wires after careful moves only.
* `Graph.moves_setSource`, `Graph.moves_setTarget`, `Graph.exists_moves_joinPins`: ends are moved.
-/
namespace Patchbay

/-! ### Pins that are known on one side -/

/-- A pin knows wires on its own side only. -/
def Pin.OneSided (p : Pin) : Side → Prop
  | .input => p.outgoing = []
  | .output => p.incoming = none

namespace Pin
variable {p q : Pin} {s : Side} {v w : WireKey}

theorem OneSided.attach (h : p.OneSided s) (w : WireKey) : (p.attach s w).OneSided s := by
  cases s with
  | input => exact h
  | output =>
    simp only [Pin.attach]
    split <;> exact h

theorem OneSided.detach (h : p.OneSided s) (w : WireKey) : (p.detach s w).OneSided s := by
  cases s with
  | input =>
    simp only [Pin.detach]
    split <;> exact h
  | output => exact h

theorem OneSided.congr (h : p.OneSided s) (hb : p.bare = q.bare) : q.OneSided s := by
  obtain ⟨-, -, -, -, -, hi, ho⟩ := of_bare_eq hb
  cases s with
  | input => exact ho.symm.trans h
  | output => exact hi.symm.trans h

theorem Free.oneSided (h : p.Free) (s : Side) : p.OneSided s := by
  cases s with
  | input => exact h.outgoing
  | output => exact h.incoming

/-- The wires that a pin tells of its end are those that it knows. -/
theorem OneSided.mem_iff (h : p.OneSided s) :
    w ∈ p.incoming.toList ++ p.outgoing ↔ p.Knows s w := by
  cases s with
  | input =>
    have h : p.outgoing = [] := h
    simp [Knows, h]
  | output =>
    have h : p.incoming = none := h
    simp [Knows, h]

theorem knows_attach (p : Pin) (s : Side) (w : WireKey) : (p.attach s w).Knows s w := by
  cases s with
  | input => exact incoming_attach_input p w
  | output => exact mem_outgoing_attach p w

theorem not_knows_detach (p : Pin) (s : Side) (w : WireKey) : ¬ (p.detach s w).Knows s w := by
  cases s with
  | input =>
    simp only [detach]
    split
    · exact (Option.some_ne_none w).symm
    · next h => exact h
  | output => exact not_mem_outgoing_detach p w

/-- What a pin knows besides a wire that is attached to it, it knew before; an input has forgotten
it. -/
theorem knows_attach_iff (hv : v ≠ w) :
    (p.attach s w).Knows s v ↔ p.Knows s v ∧ s = .output := by
  cases s with
  | input => exact ⟨fun h => absurd (Option.some.inj h).symm hv, fun h => absurd h.2 (by simp)⟩
  | output =>
    refine ⟨fun h => ⟨?_, rfl⟩, fun h => knows_attach_output h.1⟩
    have h : v ∈ (p.attach .output w).outgoing := h
    simp only [attach] at h
    split at h
    · exact h
    · exact (List.mem_append.1 h).resolve_right fun h => hv (List.mem_singleton.1 h)

/-- A pin forgets no wire but the one that is detached, and learns nothing. -/
theorem knows_detach_iff (hv : v ≠ w) : (p.detach s w).Knows s v ↔ p.Knows s v := by
  refine ⟨fun h => ?_, fun h => knows_detach h hv⟩
  cases s with
  | input =>
    simp only [detach] at h
    split at h
    · cases h
    · exact h
  | output => exact (List.mem_filter.1 h).1

/-- The pin after an end of a wire has been moved off it, or to it. -/
def moved (p : Pin) (s : Side) (w : WireKey) (off on : Prop) [Decidable off] [Decidable on] :
    Pin :=
  let p := if off then p.detach s w else p
  if on then p.attach s w else p

section Moved
variable {off on : Prop} [Decidable off] [Decidable on]

theorem OneSided.moved (h : p.OneSided s) (w : WireKey) : (p.moved s w off on).OneSided s := by
  simp only [Pin.moved]
  split <;> split <;> simp only [h, OneSided.attach, OneSided.detach]

theorem knows_moved (p : Pin) (s : Side) (w : WireKey) :
    (p.moved s w off on).Knows s w ↔ on ∨ p.Knows s w ∧ ¬ off := by
  simp only [moved]
  split
  · next hon => exact iff_of_true (knows_attach _ s w) (.inl hon)
  · next hon =>
    split
    · next hoff => simp [hon, hoff, not_knows_detach]
    · next hoff => simp [hon, hoff]

theorem knows_moved_iff (hv : v ≠ w) :
    (p.moved s w off on).Knows s v ↔ p.Knows s v ∧ (on → s = .output) := by
  simp only [moved]
  split
  · next hon => split <;> simp [knows_attach_iff hv, knows_detach_iff hv, hon]
  · next hon => split <;> simp [knows_detach_iff hv, hon]

end Moved

end Pin

namespace Graph

/-! ### Ends of wires -/

/-- A wire begins or ends at a pin. -/
def HasEnd (g : Graph) (w : WireKey) (r : PinRef) : Prop :=
  g.sourceOf? w = some r ∨ g.targetOf? w = some r

/-- Wires begin and end at pins that are there. -/
def EndsExist (g : Graph) : Prop := ∀ ⦃w r⦄, g.HasEnd w r → (g.pin? r).isSome = true

/-- A pin knows the wires that begin or end at it. -/
def EndsKnown (g : Graph) : Prop := ∀ ⦃w r p⦄, g.HasEnd w r → g.pin? r = some p → p.Knows r.side w

/-- Pins know wires on their own side only. -/
def Sided (g : Graph) : Prop := ∀ ⦃r p⦄, g.pin? r = some p → p.OneSided r.side

/-- A pin knows a wire, on either side, and tells it when it goes. -/
def Tells (g : Graph) (r : PinRef) (w : WireKey) : Prop :=
  ∃ p, g.pin? r = some p ∧ w ∈ p.incoming.toList ++ p.outgoing

/-- Whatever node is destroyed, no wire has an end at it then. -/
def Releases (g : Graph) : Prop := ∀ ⦃k w r⦄, (g.dropNode k).HasEnd w r → r.node ≠ k

/-- No wire but one has an end at an input. -/
def Vacant (g : Graph) (w : WireKey) (r : PinRef) : Prop :=
  r.side = .input → ∀ v, g.HasEnd v r → v = w

section Ends
variable {g h l : Graph} {k : NodeKey} {v w : WireKey} {r e : PinRef}

theorem hasEnd_of_wire (hw : g.wire? w = h.wire? w) : g.HasEnd w r ↔ h.HasEnd w r := by
  simp only [HasEnd, sourceOf?, targetOf?, hw]

theorem hasEnd_iff {c : Wire} (hw : g.wire? w = some c) :
    g.HasEnd w r ↔ c.source = some r ∨ c.target = some r := by
  simp only [HasEnd, sourceOf?, targetOf?, hw, Option.bind_some]

theorem SameWiring.hasEnd (a : SameWiring g h) : h.HasEnd w r ↔ g.HasEnd w r :=
  hasEnd_of_wire (a.wire? w)

theorem SameWiring.tells (a : SameWiring g h) : h.Tells r w ↔ g.Tells r w := by
  have hpin {g h : Graph} (a : SameWiring g h) : h.Tells r w → g.Tells r w := by
    rintro ⟨p, hp, hw⟩
    obtain ⟨q, hq, hb⟩ := a.pin? hp
    obtain ⟨-, -, -, -, -, hi, ho⟩ := Pin.of_bare_eq hb
    exact ⟨q, hq, by rwa [hi, ho]⟩
  exact ⟨hpin a, hpin a.symm⟩

theorem Loosens.hasEnd (a : Loosens g h) (hw : h.HasEnd w r) : g.HasEnd w r :=
  hw.imp a.source a.target

/-! ### What a node leaves behind -/

theorem hasEnd_forgetPin :
    (g.forgetPin e v).HasEnd w r ↔ g.HasEnd w r ∧ ¬ (r = e ∧ w = v) := by
  have hwire : (g.forgetPin e v).wire? w = _ := wire?_modifyWire g v w _
  by_cases hv : v = w
  · subst hv
    rw [if_pos rfl] at hwire
    cases hc : g.wire? v with
    | none => simp [HasEnd, sourceOf?, targetOf?, hwire, hc]
    | some c =>
      rw [hc] at hwire
      rw [hasEnd_iff hwire, hasEnd_iff hc]
      have hend (x : Option PinRef) :
          (if x = some e then none else x) = some r ↔ x = some r ∧ r ≠ e := by
        split
        · next hx => simp [hx, eq_comm]
        · next hx => exact ⟨fun h => ⟨h, fun hr => hx (hr ▸ h)⟩, And.left⟩
      simp only [hend, and_true, or_and_right]
  · rw [if_neg hv] at hwire
    rw [hasEnd_of_wire hwire]
    simp [Ne.symm hv]

/-- The wires in a list forget a pin one after the other. -/
theorem hasEnd_foldl_forgetPin (ws : List WireKey) :
    (ws.foldl (fun g w => g.forgetPin e w) g).HasEnd w r ↔ g.HasEnd w r ∧ ¬ (r = e ∧ w ∈ ws) := by
  induction ws generalizing g with
  | nil => simp
  | cons v ws ih =>
    rw [List.foldl_cons, ih, hasEnd_forgetPin]
    grind

theorem pin?_releasePin : (g.releasePin e).pin? r = g.pin? r := by
  have hforget (ws : List WireKey) (g : Graph) :
      (ws.foldl (fun g w => g.forgetPin e w) g).pin? r = g.pin? r := by
    induction ws generalizing g with
    | nil => rfl
    | cons v ws ih => exact ih (g.forgetPin e v)
  simp only [releasePin]
  split
  · exact hforget _ g
  · rfl

/-- A pin that goes is forgotten by the wires that it tells. -/
theorem hasEnd_releasePin :
    (g.releasePin e).HasEnd w r ↔ g.HasEnd w r ∧ ¬ (r = e ∧ g.Tells r w) := by
  simp only [releasePin]
  split
  · next p hp =>
    rw [hasEnd_foldl_forgetPin]
    refine and_congr_right fun _ => not_congr (and_congr_right fun hr => ?_)
    subst hr
    refine ⟨fun hw => ⟨p, hp, hw⟩, ?_⟩
    rintro ⟨q, hq, hw⟩
    obtain rfl : p = q := Option.some.inj (hp.symm.trans hq)
    exact hw
  · next hp =>
    refine (and_iff_left ?_).symm
    rintro ⟨rfl, p, hq, -⟩
    cases hp.symm.trans hq

/-- The pins in a list go one after the other. -/
theorem hasEnd_foldl_releasePin (rs : List PinRef) :
    (rs.foldl releasePin g).HasEnd w r ↔ g.HasEnd w r ∧ ¬ (r ∈ rs ∧ g.Tells r w) := by
  induction rs generalizing g with
  | nil => simp
  | cons e rs ih =>
    have htells : (g.releasePin e).Tells r w ↔ g.Tells r w := by rw [Tells, pin?_releasePin, Tells]
    rw [List.foldl_cons, ih, hasEnd_releasePin, htells]
    grind

theorem mem_pinRefs {p : Pin} (hp : g.pin? r = some p) :
    r ∈ g.pinRefs k .input ++ g.pinRefs k .output ↔ r.node = k := by
  rw [List.mem_append, mem_pinRefs_iff, mem_pinRefs_iff, hp]
  cases r.side <;> simp

theorem pin?_foldl_releasePin (rs : List PinRef) : (rs.foldl releasePin g).pin? r = g.pin? r := by
  induction rs generalizing g with
  | nil => rfl
  | cons e rs ih => rw [List.foldl_cons, ih, pin?_releasePin]

/-- The pins of other nodes stay. -/
theorem pin?_dropNode (g : Graph) (k : NodeKey) (r : PinRef) :
    (g.dropNode k).pin? r = if k = r.node then none else (g.leaveAnyGroup k).pin? r := by
  rw [dropNode, pin?, node?_eraseNode]
  split
  · rfl
  · exact pin?_foldl_releasePin _

/-- A wire keeps an end at a node that is destroyed exactly if the pin does not tell it. -/
theorem hasEnd_dropNode (g : Graph) (k : NodeKey) (w : WireKey) (r : PinRef) :
    (g.dropNode k).HasEnd w r ↔ g.HasEnd w r ∧ ¬ (r.node = k ∧ g.Tells r w) := by
  have a := sameWiring_leaveAnyGroup g k
  have hdrop : (g.dropNode k).HasEnd w r ↔ (((g.leaveAnyGroup k).pinRefs k .input ++
      (g.leaveAnyGroup k).pinRefs k .output).foldl releasePin (g.leaveAnyGroup k)).HasEnd w r :=
    hasEnd_of_wire rfl
  rw [hdrop, hasEnd_foldl_releasePin, a.hasEnd, ← a.tells]
  refine and_congr_right fun _ => not_congr (and_congr_left ?_)
  rintro ⟨p, hp, -⟩
  exact mem_pinRefs hp

/-- Every node releases its wires exactly if every pin knows its wires. -/
theorem endsKnown_iff_releases (hg : EndsExist g) (hs : Sided g) : g.EndsKnown ↔ g.Releases := by
  constructor
  · intro hm k w r hw hk
    obtain ⟨hw, hn⟩ := (hasEnd_dropNode g k w r).1 hw
    obtain ⟨p, hp⟩ := Option.isSome_iff_exists.1 (hg hw)
    exact hn ⟨hk, p, hp, (hs hp).mem_iff.2 (hm hw hp)⟩
  · intro hr w r p hw hp
    by_contra hn
    refine hr ((hasEnd_dropNode g r.node w r).2 ⟨hw, ?_⟩) rfl
    rintro ⟨-, q, hq, hmem⟩
    obtain rfl : p = q := Option.some.inj (hp.symm.trans hq)
    exact hn ((hs hp).mem_iff.1 hmem)

/-! ### Pins that stay -/

/-- Every pin stays, and what it knows stays on its side. -/
structure Keeps (g h : Graph) : Prop where
  isSome : ∀ r, (h.pin? r).isSome = (g.pin? r).isSome
  pin : ∀ {r p}, h.pin? r = some p →
    ∃ q, g.pin? r = some q ∧ (q.OneSided r.side → p.OneSided r.side)

namespace Keeps

theorem of_pin (hp : ∀ r, h.pin? r = g.pin? r) : Keeps g h :=
  ⟨fun r => by rw [hp], fun {r p} h => ⟨p, (hp r).symm.trans h, fun hs => hs⟩⟩

/-- Pins are changed, but not what they know on the other side. -/
theorem of_map {f : PinRef → Pin → Pin} (hp : ∀ r, h.pin? r = (g.pin? r).map (f r))
    (hf : ∀ r p, p.OneSided r.side → (f r p).OneSided r.side) : Keeps g h := by
  refine ⟨fun r => by rw [hp, Option.isSome_map], fun {r p} h => ?_⟩
  rw [hp] at h
  obtain ⟨q, hq, rfl⟩ := Option.map_eq_some_iff.1 h
  exact ⟨q, hq, hf r q⟩

protected theorem trans (a : Keeps g h) (b : Keeps h l) : Keeps g l := by
  refine ⟨fun r => (b.isSome r).trans (a.isSome r), fun hp => ?_⟩
  obtain ⟨q, hq, hqp⟩ := b.pin hp
  obtain ⟨q', hq', hqq⟩ := a.pin hq
  exact ⟨q', hq', fun hs => hqp (hqq hs)⟩

theorem sided (a : Keeps g h) (hg : Sided g) : Sided h := by
  intro r p hp
  obtain ⟨q, hq, hqp⟩ := a.pin hp
  exact hqp (hg hq)

theorem endsExist (a : Keeps g h) (hg : EndsExist g)
    (hends : ∀ {w r}, h.HasEnd w r → g.HasEnd w r ∨ (g.pin? r).isSome = true) : EndsExist h := by
  intro w r hw
  rw [a.isSome]
  exact (hends hw).elim (fun hw => hg hw) fun hr => hr

end Keeps

theorem SameWiring.keeps (a : SameWiring g h) : Keeps g h := by
  refine ⟨fun r => ?_, fun hp => ?_⟩
  · have hr := congrArg Option.isSome (a.pins r)
    rwa [Option.isSome_map, Option.isSome_map] at hr
  · obtain ⟨q, hq, hb⟩ := a.pin? hp
    exact ⟨q, hq, fun hs => hs.congr hb⟩

theorem keeps_detachEnd (g : Graph) (e : Option PinRef) (w : WireKey) :
    Keeps g (g.detachEnd e w) := by
  refine .of_map (f := fun r p => p.moved r.side w (e = some r) False) (fun r => ?_)
    fun r p hp => hp.moved w
  rw [pin?_detachEnd]
  split
  · next he => simp [Pin.moved, he]
  · next he => simp [Pin.moved, he]

theorem keeps_disconnect (g : Graph) (w : WireKey) : Keeps g (g.disconnect w) := by
  simp only [disconnect]
  split
  · exact .of_pin fun _ => rfl
  · next c _ =>
    refine .trans (.trans ?_ (keeps_detachEnd _ c.source w)) (.of_pin fun _ => rfl)
    split
    · exact .of_pin fun _ => rfl
    · next t _ =>
      refine (keeps_detachEnd g (some t) w).trans ?_
      split
      · exact (sameWiring_modifyPin _ t Pin.bare_reset).keeps
      · exact .of_pin fun _ => rfl

theorem keeps_dropWire (g : Graph) (w : WireKey) : Keeps g (g.dropWire w) := by
  simp only [dropWire]
  split
  · exact .of_pin fun _ => rfl
  · next c _ =>
    exact ((keeps_detachEnd g c.source w).trans (keeps_detachEnd _ c.target w)).trans
      (.of_pin fun _ => rfl)

/-- Every pin still knows its wires after wires have lost ends. -/
theorem EndsKnown.loosens (hg : EndsKnown g) (a : Loosens g h) : EndsKnown h := by
  intro w r p hw hp
  obtain ⟨q, hq, hqp⟩ := a.pin hp
  refine (hqp w (hg (a.hasEnd hw) hq)).resolve_right fun hn => ?_
  exact hw.elim hn.1 hn.2

/-! ### Ends that move -/

/-- One end of a wire is moved from where it was, while its other end stays where it is. -/
structure Moves (g h : Graph) (w : WireKey) (old new other : Option PinRef) : Prop where
  ne : old ≠ new
  before : ∀ r, g.HasEnd w r ↔ old = some r ∨ other = some r
  after : ∀ r, h.HasEnd w r ↔ new = some r ∨ other = some r
  others : ∀ v, v ≠ w → ∀ r, h.HasEnd v r ↔ g.HasEnd v r
  pin : ∀ r, h.pin? r = (g.pin? r).map (·.moved r.side w (old = some r) (new = some r))

/-- The end of a wire is moved in such a way that no pin forgets a wire. -/
structure CarefulMove (g : Graph) (w : WireKey) (old new other : Option PinRef) : Prop where
  /-- The end does not leave a pin at which the other end stays. -/
  leaves : ∀ r, old = some r → other ≠ some r
  /-- The end does not come to an input at which another wire has an end. -/
  comes : ∀ r, new = some r → g.Vacant w r

namespace Moves
variable {old new other : Option PinRef}

theorem keeps (a : Moves g h w old new other) : Keeps g h := .of_map a.pin fun _ _ hp => hp.moved w

theorem endsExist (a : Moves g h w old new other) (hg : EndsExist g)
    (hnew : ∀ r, new = some r → (g.pin? r).isSome = true) : EndsExist h := by
  refine a.keeps.endsExist hg fun {v r} hv => ?_
  by_cases hne : v = w
  · subst hne
    rcases (a.after r).1 hv with hr | hr
    · exact .inr (hnew r hr)
    · exact .inl ((a.before r).2 (.inr hr))
  · exact .inl ((a.others v hne r).1 hv)

theorem endsKnown (a : Moves g h w old new other) (hg : g.EndsKnown)
    (hc : CarefulMove g w old new other) : h.EndsKnown := by
  intro v r p hv hp
  rw [a.pin] at hp
  obtain ⟨q, hq, rfl⟩ := Option.map_eq_some_iff.1 hp
  by_cases hne : v = w
  · subst hne
    rw [Pin.knows_moved]
    refine ((a.after r).1 hv).imp (fun hr => hr) fun hr => ?_
    exact ⟨hg ((a.before r).2 (.inr hr)) hq, fun hold => hc.leaves r hold hr⟩
  · have hv := (a.others v hne r).1 hv
    refine (Pin.knows_moved_iff hne).2 ⟨hg hv hq, fun hnew => ?_⟩
    cases hs : r.side with
    | input => exact absurd (hc.comes r hnew hs v hv) hne
    | output => rfl

/-- A move after which every pin knows its wires was a careful one. -/
theorem careful (a : Moves g h w old new other) (hg : EndsExist g)
    (hnew : ∀ r, new = some r → (g.pin? r).isSome = true) (hh : h.EndsKnown) :
    CarefulMove g w old new other := by
  have hknown {v : WireKey} {r : PinRef} (hr : (g.pin? r).isSome = true) (hv : h.HasEnd v r) :
      ∃ p, (Pin.moved p r.side w (old = some r) (new = some r)).Knows r.side v := by
    obtain ⟨p, hp⟩ := Option.isSome_iff_exists.1 hr
    exact ⟨p, hh hv (by rw [a.pin, hp]; rfl)⟩
  refine ⟨fun r hold hother => ?_, fun r hr hside v hv => ?_⟩
  · have hw := (a.before r).2 (.inr hother)
    obtain ⟨p, hp⟩ := hknown (hg hw) ((a.after r).2 (.inr hother))
    rcases (Pin.knows_moved p r.side w).1 hp with hn | ⟨-, hn⟩
    · exact a.ne (hold.trans hn.symm)
    · exact hn hold
  · by_contra hne
    obtain ⟨p, hp⟩ := hknown (hnew r hr) ((a.others v hne r).2 hv)
    cases hside.symm.trans (((Pin.knows_moved_iff hne).1 hp).2 hr)

/-- What every pin knows after an end has come, it knew before. -/
theorem endsKnown_of (a : Moves g h w none new other)
    (hother : ∀ {r p}, other = some r → g.pin? r = some p → p.Knows r.side w) (hh : h.EndsKnown) :
    g.EndsKnown := by
  intro v r p hv hp
  by_cases hne : v = w
  · subst hne
    exact hother (((a.before r).1 hv).resolve_left (Option.some_ne_none r).symm) hp
  · have hpin := (a.pin r).trans (congrArg _ hp)
    exact ((Pin.knows_moved_iff hne).1 (hh ((a.others v hne r).2 hv) hpin)).1

end Moves

/-- A wire is taken off one pin and attached to another one, and its record is changed. -/
def setEnd (g : Graph) (w : WireKey) (old new : Option PinRef) (f : Wire → Wire) : Graph :=
  let g := (g.detachEnd old w).modifyWire w f
  match new with
  | none => g
  | some r => g.attach r w

section Wires
variable {c : Wire} {new : Option PinRef}

theorem wire?_setEnd (g : Graph) (w : WireKey) (old new : Option PinRef) (f : Wire → Wire)
    (v : WireKey) : (g.setEnd w old new f).wire? v =
      if w = v then (g.wire? v).map f else g.wire? v := by
  cases new <;> simp only [setEnd, attach, wire?_modifyPin, wire?_modifyWire, wire?_detachEnd]

theorem pin?_setEnd (g : Graph) (w : WireKey) (old new : Option PinRef) (f : Wire → Wire)
    (r : PinRef) : (g.setEnd w old new f).pin? r =
      (g.pin? r).map (·.moved r.side w (old = some r) (new = some r)) := by
  cases new with
  | none =>
    simp only [setEnd, pin?_modifyWire, pin?_detachEnd, Pin.moved]
    split <;> simp
  | some n =>
    simp only [setEnd, pin?_attach, pin?_modifyWire, pin?_detachEnd, Option.some.injEq, Pin.moved]
    split <;> split <;> simp [Function.comp_def, *]

theorem moves_setEnd {f : Wire → Wire} {old other : Option PinRef} (hw : g.wire? w = some c)
    (hne : old ≠ new)
    (hc : ∀ r, c.source = some r ∨ c.target = some r ↔ old = some r ∨ other = some r)
    (hf : ∀ r, (f c).source = some r ∨ (f c).target = some r ↔ new = some r ∨ other = some r) :
    Moves g (g.setEnd w old new f) w old new other where
  ne := hne
  before r := (hasEnd_iff hw).trans (hc r)
  after r := by
    have hwire : (g.setEnd w old new f).wire? w = some (f c) := by
      rw [wire?_setEnd, if_pos rfl, hw, Option.map_some]
    exact (hasEnd_iff hwire).trans (hf r)
  others v hv r := hasEnd_of_wire ((wire?_setEnd g w old new f v).trans (if_neg (Ne.symm hv)))
  pin := pin?_setEnd g w old new f

/-- The source of a wire is moved. -/
theorem moves_setSource (hw : g.wire? w = some c) (hne : c.source ≠ new) :
    Moves g (g.setSource w new) w c.source new c.target := by
  simp only [setSource, hw, if_neg hne]
  cases new with
  | none => exact moves_setEnd hw hne (fun _ => .rfl) fun _ => .rfl
  | some n => exact moves_setEnd hw hne (fun _ => .rfl) fun _ => .rfl

/-- The target of a wire is moved. -/
theorem moves_setTarget (hw : g.wire? w = some c) (hne : c.target ≠ new) :
    Moves g (g.setTarget w new) w c.target new c.source := by
  simp only [setTarget, hw, if_neg hne]
  cases new with
  | none => exact moves_setEnd hw hne (fun _ => or_comm) fun _ => or_comm
  | some n => exact moves_setEnd hw hne (fun _ => or_comm) fun _ => or_comm

/-- A wire without ends is put beside the graph. -/
theorem hasEnd_newWire (hs : c.source = none) (ht : c.target = none) :
    (g.newWire c).2.HasEnd v r ↔ g.HasEnd v r := by
  have hwire : (g.newWire c).2.wire? v = if v = g.wires.next then some c else g.wire? v :=
    Arena.get?_push g.wires c v
  split at hwire
  · next hv =>
    have hnone : g.wire? v = none := hv ▸ Arena.get?_next g.wires
    rw [hasEnd_iff hwire, hs, ht]
    simp [HasEnd, sourceOf?, targetOf?, hnone]
  · exact hasEnd_of_wire hwire

end Wires

/-- A new wire between two pins gets its ends one after the other. -/
theorem exists_moves_joinPins (g : Graph) (s t : PinRef) : ∃ g₁ g₂,
    Moves g g₁ g.wires.next none (some s) none ∧
    Moves g₁ g₂ g.wires.next none (some t) (some s) ∧ SameWiring g₂ (g.joinPins s t).2 := by
  let c : Wire := { id := g.freshId.1, sourceId := g.pinIdOr s "", targetId := g.pinIdOr t "" }
  let g₀ : Graph := (g.freshId.2.newWire c).2
  have hends (v : WireKey) (r : PinRef) : g₀.HasEnd v r ↔ g.HasEnd v r :=
    hasEnd_newWire (g := g.freshId.2) rfl rfl
  have hw : g₀.wire? g.wires.next = some c := (Arena.get?_push g.wires c _).trans (if_pos rfl)
  have hsource : Moves g₀ (g₀.setSource _ (some s)) _ _ (some s) _ :=
    moves_setSource hw (Option.some_ne_none s).symm
  obtain ⟨d, hd, hds, hdt⟩ : ∃ d, (g₀.setSource g.wires.next (some s)).wire? g.wires.next = some d ∧
      d.source = some s ∧ d.target = none := by
    rw [setSource_of_none hw rfl]
    simp only [attach, wire?_modifyPin, wire?_modifyWire, if_true, hw, Option.map_some]
    exact ⟨_, rfl, rfl, rfl⟩
  have htarget : Moves _ _ _ _ (some t) _ :=
    moves_setTarget hd (hdt ▸ (Option.some_ne_none t).symm)
  rw [hds, hdt] at htarget
  exact ⟨_, _, { hsource with
    before := fun r => (hends _ r).symm.trans (hsource.before r)
    others := fun v hv r => (hsource.others v hv r).trans (hends v r) }, htarget,
    sameWiring_transfer _ _⟩

end Ends
end Graph
end Patchbay
