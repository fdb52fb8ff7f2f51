import Patchbay.Graph.Relink
import Patchbay.Proofs.Grouping.Core
import Patchbay.Proofs.Edit
import Patchbay.Proofs.Wiring.Wired
/-!
# Wires that find their pins

After reading, the wires know their pins only by id. Relinking joins them one after the other, and
each takes the value at its source along. An output never ends a wire, so the values at the sources
are those that were read, in whatever order the wires come.

## Main definitions

* `Pin.linked`: a pin with the wires that were joined to it so far.
* `Graph.Findable`: both pins of a wire are found under the ids that it keeps.
* `Graph.Rewired`: a graph whose wires are joined so far.

## Main statements

* `Graph.Rewired.step`: one wire is joined.
* `Graph.Rewired.run`: all wires are joined, one after the other.
-/
namespace Patchbay

variable {S T : WireKey → PinRef}

/-- A pin with the wires that were joined to it so far. The value of a fed input comes from the
source of its wire. -/
def Pin.linked (g : Graph) (S T : WireKey → PinRef) (done : List WireKey) (r : PinRef) (p : Pin) :
    Pin :=
  { p with
    incoming := done.find? fun w => T w = r
    outgoing := done.filter fun w => S w = r
    value := ((done.find? fun w => T w = r).bind fun w =>
      if p.flow then none else (g.pin? (S w)).map (·.value)).getD p.value }

/-- A wire with the ends that were found for it. -/
def Wire.joined (s t : PinRef) (c : Wire) : Wire := { c with source := some s, target := some t }

namespace Graph

/-- Both pins of a wire are found under the ids that it keeps, and they are of one kind. -/
structure Findable (g : Graph) (index : Dict PinRef) (w : WireKey) (s t : PinRef) : Prop where
  wire : ∃ c, g.wire? w = some c ∧ c.source = none ∧ c.target = none ∧
    index.get? c.sourceId = some s ∧ index.get? c.targetId = some t ∧
    g.pinIdOr s c.sourceId = c.sourceId ∧ g.pinIdOr t c.targetId = c.targetId
  pins : ∃ p q, g.pin? s = some p ∧ g.pin? t = some q ∧ p.flow = q.flow
  source_side : s.side = .output
  target_side : t.side = .input

/-- What a graph is called, and the order of its wires. -/
def head (g : Graph) : String × String × Category × List WireKey :=
  (g.id, g.name, g.category, g.links)

/-- A graph whose wires are joined so far. -/
structure Rewired (g h : Graph) (S T : WireKey → PinRef) (done : List WireKey) : Prop where
  core : SameCore g h
  head : h.head = g.head
  pin : ∀ r, h.pin? r = (g.pin? r).map (Pin.linked g S T done r)
  wire : ∀ w, h.wire? w = if w ∈ done then (g.wire? w).map (Wire.joined (S w) (T w)) else g.wire? w

/-- Before any wire is joined, no pin has one. -/
theorem Rewired.nil {g : Graph} (hfree : ∀ {r p}, g.pin? r = some p → p.Free) :
    Rewired g g S T [] := by
  refine ⟨.refl g, rfl, fun r => ?_, fun w => rfl⟩
  cases hp : g.pin? r with
  | none => rfl
  | some p =>
    have hf := hfree hp
    obtain ⟨id, name, type, flow, value, initial, orphan, incoming, outgoing⟩ := p
    obtain rfl : incoming = none := hf.incoming
    obtain rfl : outgoing = [] := hf.outgoing
    rfl

/-- A wire without a source gets one whose id it keeps, or stays without. -/
theorem setSource_of_loose {g : Graph} {w : WireKey} {c : Wire} {e : Option PinRef}
    (hw : g.wire? w = some c) (hs : c.source = none)
    (hid : ∀ s, e = some s → g.pinIdOr s c.sourceId = c.sourceId) :
    (g.setSource w e).head = g.head ∧
    (∀ v, (g.setSource w e).wire? v =
      if w = v then some { c with source := e } else g.wire? v) ∧
    ∀ r, (g.setSource w e).pin? r =
      if e = some r then (g.pin? r).map (·.attach r.side w) else g.pin? r := by
  cases e with
  | none =>
    have hsame : g.setSource w none = g := by simp [setSource, hw, hs]
    rw [hsame]
    refine ⟨rfl, fun v => ?_, fun r => rfl⟩
    split
    · next h => rw [← h, hw, ← hs]
    · rfl
  | some s =>
    rw [setSource_of_none hw hs, hid s rfl]
    refine ⟨rfl, fun v => ?_, fun r => ?_⟩
    · simp only [attach, wire?_modifyPin, wire?_modifyWire]
      split
      · next h => rw [← h, hw, Option.map_some]
      · rfl
    · rw [pin?_attach, pin?_modifyWire]
      simp only [Option.some.injEq]

/-- A wire without a target gets one whose id it keeps, or stays without. -/
theorem setTarget_of_loose {g : Graph} {w : WireKey} {c : Wire} {e : Option PinRef}
    (hw : g.wire? w = some c) (ht : c.target = none)
    (hid : ∀ t, e = some t → g.pinIdOr t c.targetId = c.targetId) :
    (g.setTarget w e).head = g.head ∧
    (∀ v, (g.setTarget w e).wire? v =
      if w = v then some { c with target := e } else g.wire? v) ∧
    ∀ r, (g.setTarget w e).pin? r =
      if e = some r then (g.pin? r).map (·.attach r.side w) else g.pin? r := by
  cases e with
  | none =>
    have hsame : g.setTarget w none = g := by simp [setTarget, hw, ht]
    rw [hsame]
    refine ⟨rfl, fun v => ?_, fun r => rfl⟩
    split
    · next h => rw [← h, hw, ← ht]
    · rfl
  | some t =>
    rw [setTarget_of_none hw ht, hid t rfl]
    refine ⟨rfl, fun v => ?_, fun r => ?_⟩
    · simp only [attach, wire?_modifyPin, wire?_modifyWire]
      split
      · next h => rw [← h, hw, Option.map_some]
      · rfl
    · rw [pin?_attach, pin?_modifyWire]
      simp only [Option.some.injEq]

/-- A wire without ends is joined to two pins whose ids it keeps. -/
theorem setEnds_of_loose {g : Graph} {w : WireKey} {c : Wire} {s t : PinRef} (hst : s ≠ t)
    (hw : g.wire? w = some c) (hs : c.source = none) (ht : c.target = none)
    (hsid : g.pinIdOr s c.sourceId = c.sourceId) (htid : g.pinIdOr t c.targetId = c.targetId) :
    ((g.setSource w (some s)).setTarget w (some t)).head = g.head ∧
    (∀ v, ((g.setSource w (some s)).setTarget w (some t)).wire? v =
      if w = v then some (c.joined s t) else g.wire? v) ∧
    ∀ r, ((g.setSource w (some s)).setTarget w (some t)).pin? r =
      if s = r ∨ t = r then (g.pin? r).map (·.attach r.side w) else g.pin? r := by
  obtain ⟨hhead₁, hwire₁, hpin₁⟩ := setSource_of_loose (e := some s) hw hs fun _ h => by
    rwa [← Option.some.inj h]
  have htid₁ : (g.setSource w (some s)).pinIdOr t c.targetId = c.targetId := by
    rw [pinIdOr, hpin₁, if_neg fun h => hst (Option.some.inj h)]
    exact htid
  obtain ⟨hhead₂, hwire₂, hpin₂⟩ := setTarget_of_loose (e := some t)
    ((hwire₁ w).trans (if_pos rfl)) ht fun _ h => by rwa [← Option.some.inj h]
  refine ⟨hhead₂.trans hhead₁, fun v => ?_, fun r => ?_⟩
  · rw [hwire₂, hwire₁]
    split <;> rfl
  · rw [hpin₂, hpin₁]
    by_cases hsr : s = r <;> by_cases htr : t = r
    · exact absurd (hsr.trans htr.symm) hst
    · simp [hsr, htr]
    · simp [hsr, htr]
    · simp [hsr, htr]

theorem head_transfer (g : Graph) (w : WireKey) : (g.transfer w).head = g.head := by
  simp only [transfer]
  split
  · split
    · split <;> rfl
    · rfl
  · rfl

/-- A wire that finds its pins changes nothing but pins and wires. -/
theorem sameCore_relinkWire (index : Dict PinRef) (g : Graph) (w : WireKey) :
    SameCore g (relinkWire index g w).1 := by
  simp only [relinkWire]
  split
  · exact .refl g
  · exact ((sameCore_setSource g w _).trans (sameCore_setTarget _ w _)).trans (sameCore_transfer _ w)

theorem sameCore_relinkWires (index : Dict PinRef) (g : Graph) (ws : List WireKey) :
    SameCore g (relinkWires index g ws).1 := by
  induction ws generalizing g with
  | nil => exact .refl g
  | cons w ws ih => exact (sameCore_relinkWire index g w).trans (ih _)

/-- One more wire is joined. -/
theorem Rewired.step {g h : Graph} {index : Dict PinRef} {done : List WireKey} {w : WireKey}
    (hr : Rewired g h S T done) (hw : w ∉ done) (hf : g.Findable index w (S w) (T w))
    (hT : ∀ v ∈ done, T v ≠ T w) (hsides : ∀ v ∈ done, (S v).side = .output ∧ (T v).side = .input) :
    Rewired g (relinkWire index h w).1 S T (done ++ [w]) := by
  obtain ⟨c, hc, hcs, hct, hs, ht, hsid, htid⟩ := hf.wire
  obtain ⟨p, q, hp, hq, hflow⟩ := hf.pins
  have hst : S w ≠ T w := fun e => by
    have := hf.source_side
    rw [e, hf.target_side] at this
    cases this
  have hwire : h.wire? w = some c := by rw [hr.wire, if_neg hw, hc]
  -- no wire was joined to the input so far
  have hfirst : (done.find? fun v => T v = T w) = none :=
    List.find?_eq_none.2 fun v hv => by simpa using hT v hv
  have hfeeder : h.feederOf? w (T w) = none := by
    simp [feederOf?, hr.pin, hq, Pin.linked, hfirst]
  have hids (r : PinRef) (other : String) : h.pinIdOr r other = g.pinIdOr r other := by
    simp only [pinIdOr, hr.pin, Option.map_map]
    rfl
  obtain ⟨hhead, hwire₁, hpin₁⟩ := setEnds_of_loose hst hwire hcs hct ((hids _ _).trans hsid)
    ((hids _ _).trans htid)
  have hrelink : (relinkWire index h w).1 =
      ((h.setSource w (some (S w))).setTarget w (some (T w))).transfer w := by
    simp [relinkWire, hwire, hs, ht, hfeeder]
  have hcore := sameCore_relinkWire index h w
  -- the value at the source is the one that was read
  have hvalue : (done.find? fun v => T v = S w) = none := by
    refine List.find?_eq_none.2 fun v hv h => ?_
    have := (hsides v hv).2
    rw [of_decide_eq_true h, hf.source_side] at this
    cases this
  obtain ⟨p₁, hp₁, hp₁f, hp₁v⟩ : ∃ p₁, ((h.setSource w (some (S w))).setTarget w
      (some (T w))).pin? (S w) = some p₁ ∧ p₁.flow = p.flow ∧ p₁.value = p.value := by
    rw [hpin₁, if_pos (.inl rfl), hr.pin, hp]
    refine ⟨_, rfl, ?_⟩
    rw [hf.source_side]
    simp only [Pin.attach, Pin.linked, hvalue]
    split <;> exact ⟨rfl, rfl⟩
  have hpin₂ := pin?_transfer ((hwire₁ w).trans (if_pos rfl)) rfl rfl hp₁
  rw [hrelink] at hcore ⊢
  refine ⟨hr.core.trans hcore, (head_transfer _ w).trans (hhead.trans hr.head), fun r => ?_,
    fun v => ?_⟩
  · rw [hpin₂, hpin₁, hr.pin]
    by_cases htr : T w = r
    · subst htr
      have hout : (done.filter fun v => S v = T w) ++ [w].filter (fun v => S v = T w) =
          done.filter fun v => S v = T w := by simp [hst]
      rw [if_pos rfl, if_pos (.inr rfl), hq, Option.map_some, Option.map_some, Option.map_some,
        Option.map_some, hf.target_side]
      simp only [Pin.linked, hfirst, Pin.attach, List.find?_append, List.filter_append, hout,
        hp₁f, hp₁v, Pin.assign, hflow]
      cases q.flow <;> simp [hp]
    · by_cases hsr : S w = r
      · subst hsr
        have hnew : w ∉ done.filter fun v => S v = S w := fun h => hw (List.mem_filter.1 h).1
        rw [if_neg htr, if_pos (.inl rfl), hp, Option.map_some, Option.map_some, Option.map_some,
          hf.source_side]
        simp [Pin.linked, Pin.attach, List.find?_append, List.filter_append, htr, hw]
      · rw [if_neg htr, if_neg (not_or.2 ⟨hsr, htr⟩)]
        refine congrArg (Option.map · _) (funext fun p => ?_)
        simp [Pin.linked, List.find?_append, List.filter_append, htr, hsr]
  · rw [wire?_transfer, hwire₁, hr.wire]
    by_cases hv : w = v
    · subst hv
      simp [hc]
    · simp [hv, Ne.symm hv]

/-- All wires are joined, one after the other, if no two of them end at one pin. -/
theorem Rewired.run {g h : Graph} {index : Dict PinRef} {done ws : List WireKey}
    (hr : Rewired g h S T done) (hn : (done ++ ws).Nodup)
    (hf : ∀ w ∈ done ++ ws, g.Findable index w (S w) (T w))
    (hT : ∀ v ∈ done ++ ws, ∀ w ∈ done ++ ws, T v = T w → v = w) :
    Rewired g (relinkWires index h ws).1 S T (done ++ ws) := by
  induction ws generalizing h done with
  | nil => rwa [List.append_nil]
  | cons w ws ih =>
    have hmem {v : WireKey} (hv : v ∈ done) : v ∈ done ++ w :: ws := List.mem_append_left _ hv
    have hself : w ∈ done ++ w :: ws := List.mem_append_right _ List.mem_cons_self
    have hw : w ∉ done := fun h => (List.nodup_append.1 hn).2.2 w h w List.mem_cons_self rfl
    have hstep := hr.step hw (hf w hself)
      (fun v hv e => hw (hT v (hmem hv) w hself e ▸ hv))
      fun v hv => ⟨(hf v (hmem hv)).source_side, (hf v (hmem hv)).target_side⟩
    rw [List.append_cons] at hn hf hT ⊢
    exact ih hstep hn hf hT

end Graph
end Patchbay
