import Patchbay.Proofs.Wiring.Removed
/-!
# What a new wire changes

A wire from an output to an input is refused unless the two pins fit, and a refusal changes nothing.
In a graph whose links are coherent the wire that fed the input before is destroyed first: it is
taken off the list and off its two pins, and no other pin and no other wire notices it. Then the new
wire is listed last, its two pins know it, and a data input holds the value of the output.

A flow input is reset as well when its wire gives way. If its initial value was changed, it holds a
value afterwards that it did not hold before.

## Main definitions

* `Graph.Fits`: when two pins can be wired together.
* `Graph.Freed`: a graph after the wire into an input was destroyed.
* `Graph.Connected`: a graph with a new wire between two pins.

## Main statements

* `Graph.Coherent.connect_iff`: pins are wired together if they fit, and what comes of it.
* `Graph.not_forall_value_connect`: a flow input can get another value by it.
-/
namespace Patchbay

theorem Pin.flow_attach (p : Pin) (s : Side) (w : WireKey) : (p.attach s w).flow = p.flow := by
  cases s with
  | input => rfl
  | output => simp only [attach]; split <;> rfl

theorem Pin.value_attach (p : Pin) (s : Side) (w : WireKey) : (p.attach s w).value = p.value := by
  cases s with
  | input => rfl
  | output => simp only [attach]; split <;> rfl

/-- An input from which its wire is taken holds its initial value. -/
theorem Pin.without_own (q : Pin) : q.without .input (fun w => q.incoming = some w) =
    { q with incoming := none, value := if q.incoming.isSome then q.initial else q.value } := by
  cases q with
  | mk id name type flow value initial orphan incoming outgoing => cases incoming <;> simp [without]

namespace Graph
variable {g h : Graph} {s t : PinRef} {p q : Pin} {w : WireKey}

/-! ### When pins fit -/

/-- Two pins that can be wired together: an output and an input of different members, both for
control or both for values of compatible types. The input must be free unless wires are replaced. -/
structure Fits (g : Graph) (s t : PinRef) (p q : Pin) : Prop where
  source_member : s.node ∈ g.members
  target_member : t.node ∈ g.members
  distinct : s.node ≠ t.node
  source_side : s.side = .output
  target_side : t.side = .input
  flow : p.flow = q.flow
  type : p.flow = false → p.type.compatible q.type = true
  free : g.replaceInputs = true ∨ q.incoming = none

theorem canConnect_iff (hs : g.owner? s = some s.node) (ht : g.owner? t = some t.node)
    (hp : g.pin? s = some p) (hq : g.pin? t = some q) (hout : s.side = .output)
    (hin : t.side = .input) : g.canConnect s t g.replaceInputs = true ↔
      s.node ≠ t.node ∧ p.flow = q.flow ∧ (p.flow = false → p.type.compatible q.type = true) ∧
        (g.replaceInputs = true ∨ q.incoming = none) := by
  have hne : s ≠ t := by
    rintro rfl
    rw [hin] at hout
    cases hout
  simp only [canConnect, hs, ht, hp, hq, hout, hin, sameKind]
  cases p.flow <;> simp [hne] <;> tauto

/-- In a coherent graph a wire is refused exactly if the pins do not fit. -/
theorem Coherent.refusal?_eq_none_iff (hg : g.Coherent) (hp : g.pin? s = some p)
    (hq : g.pin? t = some q) : g.refusal? s t = none ↔ g.Fits s t p q := by
  have hrule (hs : s.node ∈ g.members) (ht : t.node ∈ g.members) (hout : s.side = .output)
      (hin : t.side = .input) : g.refusal? s t = none ↔ g.canConnect s t g.replaceInputs = true := by
    simp only [refusal?, hg.owner?_of_pin hs hp, hg.owner?_of_pin ht hq, (hg.contains_iff _).2 hs,
      (hg.contains_iff _).2 ht, hout, hin]
    cases g.canConnect s t g.replaceInputs <;> simp
  constructor
  · intro h
    obtain ⟨_, _, -, -, hs, ht, hout, hin, -⟩ := of_not_refused h
    have hs := (hg.contains_iff _).1 hs
    have ht := (hg.contains_iff _).1 ht
    obtain ⟨hne, hflow, htype, hfree⟩ := (canConnect_iff (hg.owner?_of_pin hs hp)
      (hg.owner?_of_pin ht hq) hp hq hout hin).1 ((hrule hs ht hout hin).1 h)
    exact ⟨hs, ht, hne, hout, hin, hflow, htype, hfree⟩
  · intro f
    rw [hrule f.source_member f.target_member f.source_side f.target_side]
    exact (canConnect_iff (hg.owner?_of_pin f.source_member hp)
      (hg.owner?_of_pin f.target_member hq) hp hq f.source_side f.target_side).2
      ⟨f.distinct, f.flow, f.type, f.free⟩

/-! ### Freeing an input -/

/-- A graph after the wire into an input was destroyed, if there was one. -/
structure Freed (g h : Graph) (gone : WireKey → Bool) : Prop where
  links : h.links = g.links.filter fun w => !gone w
  wires : ∀ w, h.wire? w = if gone w then none else g.wire? w
  next : h.wires.next = g.wires.next
  pins : ∀ r, h.pin? r =
    if r.node ∈ g.members then (g.pin? r).map (·.without r.side gone) else g.pin? r
  core : SameCore g h
  header : h.header = g.header

protected theorem Freed.refl (g : Graph) : Freed g g fun _ => false :=
  ⟨by simp, fun _ => rfl, rfl, fun r => by cases g.pin? r <;> simp, .refl g, rfl⟩

theorem next_detachEnd (g : Graph) (r : Option PinRef) (w : WireKey) :
    (g.detachEnd r w).wires.next = g.wires.next := by
  cases r <;> rfl

theorem next_disconnect (g : Graph) (w : WireKey) :
    (g.disconnect w).wires.next = g.wires.next := by
  simp only [disconnect]
  split
  · rfl
  · refine (Arena.next_modify _ _ _).trans ((next_detachEnd _ _ w).trans ?_)
    split
    · rfl
    · split <;> rfl

/-- A wire of a coherent graph is taken off its two pins and destroyed. -/
theorem Coherent.freed_removeWire (hg : g.Coherent) (hw : w ∈ g.links) :
    Freed g (g.removeWire w).2 (· = w) := by
  have hgone : (fun v => decide (v = w) || false) = fun v => decide (v = w) := by
    funext v
    simp
  have a := (Unplugged.refl g).disconnect hg hw
  rw [hgone] at a
  obtain ⟨c, s, t, p, q, hc, -⟩ := hg.joined w hw
  have hloose : (g.disconnect w).wire? w = some { c with source := none, target := none } := by
    rw [a.wire? w, if_pos (decide_eq_true rfl), hc]
    rfl
  have hremove : (g.removeWire w).2 = { g.disconnect w with
      links := (g.disconnect w).links.erase w, wires := (g.disconnect w).wires.erase w } := by
    simp only [removeWire, hw, if_true]
    exact dropWire_of_loose (g := { g.disconnect w with links := (g.disconnect w).links.erase w })
      hloose rfl rfl
  have hcore := sameCore_removeWire g w
  rw [hremove] at hcore ⊢
  refine ⟨?_, fun v => ?_, ?_, a.pins, hcore, header_disconnect g w⟩
  · rw [a.links, hg.links_nodup.erase_eq_filter]
    rfl
  · refine (Arena.get?_erase _ w v).trans ?_
    have hwire := a.wire? v
    by_cases hv : v = w
    · simp [hv]
    · rw [if_neg (by simpa using hv)] at hwire
      rw [if_neg (Ne.symm hv), if_neg (by simpa using hv)]
      exact hwire
  · exact (Arena.next_erase _ w).trans (next_disconnect g w)

/-- An input of a member is freed from the wire that feeds it. -/
theorem Coherent.freed_freeInput (hg : g.Coherent) (ht : t.node ∈ g.members)
    (hq : g.pin? t = some q) : Freed g (g.freeInput t) fun w => q.incoming = some w := by
  cases hi : q.incoming with
  | none =>
    have hsame : g.freeInput t = g := by simp [freeInput, hq, hi]
    rw [hsame]
    simpa using Freed.refl g
  | some w =>
    have hw : w ∈ g.links := ((hg.incoming ht hq w).1 hi).1
    have hfree : g.freeInput t = (g.removeWire w).2 := by simp [freeInput, hq, hi, hw]
    rw [hfree]
    simpa [eq_comm] using hg.freed_removeWire hw

/-! ### Joining pins -/

/-- A new wire is attached to its two pins, and a value passes. No other pin notices it. -/
theorem pin?_joinPins (hp : g.pin? s = some p) (hq : g.pin? t = some q) (hst : s ≠ t)
    (r : PinRef) : (g.joinPins s t).2.pin? r =
      if t = r then some (if p.flow then q.attach t.side g.wires.next
        else (q.attach t.side g.wires.next).assign p.value)
      else if s = r then some (p.attach s.side g.wires.next) else g.pin? r := by
  obtain ⟨g₁, g₂, g₃, hpin₁, -, hsourced, htargeted, heq⟩ := exists_joinPins g s t
  have hwire := (joined_joinPins hp hq hst).2.wire? g.wires.next
  rw [if_pos rfl, heq, wire?_transfer] at hwire
  have hpin (r : PinRef) : g₃.pin? r =
      if t = r then (g.pin? r).map (·.attach r.side g.wires.next)
      else if s = r then (g.pin? r).map (·.attach r.side g.wires.next) else g.pin? r := by
    rw [htargeted.pin, hsourced.pin, hpin₁]
    split
    · next h => rw [if_neg (h ▸ hst)]
    · rfl
  have hp₃ := hpin s
  rw [if_neg hst.symm, if_pos rfl, hp, Option.map_some] at hp₃
  rw [heq, pin?_transfer hwire rfl rfl hp₃, Pin.flow_attach, Pin.value_attach, hpin]
  by_cases ht : t = r
  · subst ht
    rw [if_pos rfl, if_pos rfl, if_pos rfl, hq]
    rfl
  · rw [if_neg ht, if_neg ht, if_neg ht]
    by_cases hs : s = r
    · subst hs
      rw [if_pos rfl, if_pos rfl, hp]
      rfl
    · rw [if_neg hs, if_neg hs]

/-! ### A new wire -/

/-- A graph with a new wire from an output to an input, which takes the place of the wire that the
input knew before. -/
structure Connected (g h : Graph) (s t : PinRef) (p q : Pin) (w : WireKey) : Prop where
  fresh : g.wire? w = none
  links : h.links = (g.links.filter fun v => q.incoming ≠ some v) ++ [w]
  wire : h.wire? w = some
    { id := g.freshId.1, sourceId := p.id, targetId := q.id, source := some s, target := some t }
  /-- The wire that gives way is destroyed, and the others are what they were. -/
  wires : ∀ v, v ≠ w → h.wire? v = if q.incoming = some v then none else g.wire? v
  source : h.pin? s =
    some { p with outgoing := (p.outgoing.filter fun v => q.incoming ≠ some v) ++ [w] }
  /-- A data input holds the value of the output. A flow input is reset if its wire gave way. -/
  target : h.pin? t = some { q with
    incoming := some w
    value := if q.flow then if q.incoming.isSome then q.initial else q.value else p.value }
  /-- The output at which the wire began that gives way forgets it. -/
  former : ∀ v r e, q.incoming = some v → g.sourceOf? v = some r → r ≠ s → g.pin? r = some e →
    h.pin? r = some { e with outgoing := e.outgoing.filter fun u => u ≠ v }
  others : ∀ r, r ≠ s → r ≠ t → (∀ v, q.incoming = some v → g.sourceOf? v ≠ some r) →
    h.pin? r = g.pin? r
  values : ∀ r, r ≠ t → (h.pin? r).map (·.value) = (g.pin? r).map (·.value)
  core : SameCore g h
  header : h.header = g.freshId.2.header

/-- Freeing an input leaves every pin alone that the wire does not end at. -/
theorem Freed.pin?_of_other (a : Freed g h fun w => q.incoming = some w) (hg : g.Coherent)
    (ht : t.node ∈ g.members) (hq : g.pin? t = some q) {r : PinRef} (hrt : r ≠ t)
    (hr : ∀ v, q.incoming = some v → g.sourceOf? v ≠ some r) : h.pin? r = g.pin? r := by
  rw [a.pins]
  split
  · next hmember =>
    cases he : g.pin? r with
    | none => rfl
    | some e =>
      have hstay (w : WireKey) (hw : e.Knows r.side w) :
          decide (q.incoming = some w) = (fun _ => false) w := by
        rw [decide_eq_false_iff_not]
        intro hgone
        obtain ⟨hlisted, htarget⟩ := (hg.incoming ht hq w).1 hgone
        rcases (hg.knows_iff hlisted hmember he).1 hw with hsource | hend
        · exact hr w hgone hsource
        · exact hrt (Option.some.inj (hend.symm.trans htarget))
      rw [Option.map_some, Pin.without_congr hstay, Pin.without_false]
  · rfl

/-- An output of a coherent graph does not know a wire that is still to come. -/
theorem Coherent.next_not_mem (hg : g.Coherent) (hs : s.node ∈ g.members) (hout : s.side = .output)
    (hp : g.pin? s = some p) : g.wires.next ∉ p.outgoing := by
  intro hw
  rw [(hg.outgoing hs hout hp).1] at hw
  obtain ⟨c, _, _, _, _, hc, -⟩ := hg.joined _ (List.mem_filter.1 hw).1
  have hdead : g.wire? g.wires.next = none := Arena.get?_next _
  rw [hdead] at hc
  cases hc

theorem header_setSource (g : Graph) (w : WireKey) (r : Option PinRef) :
    (g.setSource w r).header = g.header := by
  simp only [setSource]
  split
  · rfl
  · split
    · rfl
    · split <;> exact header_detachEnd g _ w

theorem header_setTarget (g : Graph) (w : WireKey) (r : Option PinRef) :
    (g.setTarget w r).header = g.header := by
  simp only [setTarget]
  split
  · rfl
  · split
    · rfl
    · split <;> exact header_detachEnd g _ w

theorem header_transfer (g : Graph) (w : WireKey) : (g.transfer w).header = g.header := by
  simp only [transfer]
  split
  · split
    · split <;> rfl
    · rfl
  · rfl

theorem header_freshId (a : h.header = g.header) : h.freshId.2.header = g.freshId.2.header := by
  simp only [header, Prod.mk.injEq] at a
  simp only [header, freshId, a]

/-- A new wire takes a fresh id. -/
theorem header_joinPins (g : Graph) (s t : PinRef) :
    (g.joinPins s t).2.header = g.freshId.2.header := by
  rw [joinPins]
  exact (header_transfer _ _).trans ((header_setTarget _ _ _).trans (header_setSource _ _ _))

section Joining
variable {l : Graph}

/-- The output and the input once the wire into the input is gone. -/
theorem Freed.ends (a : Freed g l fun w => q.incoming = some w) (f : g.Fits s t p q)
    (hp : g.pin? s = some p) (hq : g.pin? t = some q) :
    l.pin? s = some { p with outgoing := p.outgoing.filter fun v => q.incoming ≠ some v } ∧
      l.pin? t = some { q with
        incoming := none, value := if q.incoming.isSome then q.initial else q.value } := by
  have hs := a.pins s
  have ht := a.pins t
  rw [if_pos f.source_member, hp, Option.map_some, f.source_side] at hs
  rw [if_pos f.target_member, hq, Option.map_some, f.target_side, Pin.without_own] at ht
  simp only [Pin.without, ← decide_not] at hs
  exact ⟨hs, ht⟩

/-- The output and the input once they are joined. -/
theorem Freed.ends_joinPins (a : Freed g l fun w => q.incoming = some w) (hg : g.Coherent)
    (f : g.Fits s t p q) (hp : g.pin? s = some p) (hq : g.pin? t = some q) :
    (l.joinPins s t).2.pin? s = some { p with
        outgoing := (p.outgoing.filter fun v => q.incoming ≠ some v) ++ [g.wires.next] } ∧
      (l.joinPins s t).2.pin? t = some { q with
        incoming := some g.wires.next
        value := if q.flow then if q.incoming.isSome then q.initial else q.value else p.value } := by
  obtain ⟨hs, ht⟩ := a.ends f hp hq
  have hst : s ≠ t := fun e => f.distinct (e ▸ rfl)
  have hpins := pin?_joinPins hs ht hst
  rw [a.next] at hpins
  have hnew : g.wires.next ∉ p.outgoing.filter fun v => q.incoming ≠ some v :=
    fun h => hg.next_not_mem f.source_member f.source_side hp (List.mem_filter.1 h).1
  constructor
  · rw [hpins, if_neg hst.symm, if_pos rfl, f.source_side, Pin.attach, if_neg hnew]
  · rw [hpins, if_pos rfl, f.target_side, f.flow]
    cases q.flow <;> simp [Pin.attach, Pin.assign]

/-- The other pins once the output and the input are joined. -/
theorem Freed.pin?_joinPins_of_ne (a : Freed g l fun w => q.incoming = some w)
    (f : g.Fits s t p q) (hp : g.pin? s = some p) (hq : g.pin? t = some q) {r : PinRef}
    (hrs : r ≠ s) (hrt : r ≠ t) : (l.joinPins s t).2.pin? r = l.pin? r := by
  obtain ⟨hs, ht⟩ := a.ends f hp hq
  rw [pin?_joinPins hs ht fun e => f.distinct (e ▸ rfl), if_neg hrt.symm, if_neg hrs.symm]

/-- The wires once the output and the input are joined. -/
theorem Freed.joined (a : Freed g l fun w => q.incoming = some w) (f : g.Fits s t p q)
    (hp : g.pin? s = some p) (hq : g.pin? t = some q) : (l.joinPins s t).1 = g.wires.next ∧
      Joined l (l.joinPins s t).2 g.wires.next
        { id := g.freshId.1, sourceId := p.id, targetId := q.id, source := some s,
          target := some t } s t := by
  obtain ⟨hs, ht⟩ := a.ends f hp hq
  have hids : l.ids = g.ids := congrArg (·.1) a.header
  have hfresh : l.freshId.1 = g.freshId.1 := by simp only [freshId, hids]
  have hjoined := joined_joinPins hs ht fun e => f.distinct (e ▸ rfl)
  rw [← a.next, ← hfresh]
  exact hjoined

/-- The output at which the wire began that is gone has forgotten it. -/
theorem Freed.former (a : Freed g l fun w => q.incoming = some w) (hg : g.Coherent)
    (ht : t.node ∈ g.members) (hq : g.pin? t = some q) {r : PinRef} {e : Pin}
    (hw : q.incoming = some w) (hr : g.sourceOf? w = some r) (he : g.pin? r = some e) :
    r.side = .output ∧ l.pin? r = some { e with outgoing := e.outgoing.filter fun u => u ≠ w } := by
  obtain ⟨c, s, t, _, _, hc, j⟩ := hg.joined w ((hg.incoming ht hq w).1 hw).1
  obtain rfl : s = r := by
    rw [sourceOf?, hc] at hr
    exact Option.some.inj (j.source.symm.trans hr)
  refine ⟨j.source_side, ?_⟩
  rw [a.pins, if_pos j.source_member, he, Option.map_some, j.source_side]
  simp [Pin.without, hw, eq_comm]

end Joining

/-- How pins that fit are wired together. -/
theorem Coherent.connect_of_fits (hg : g.Coherent) (hp : g.pin? s = some p)
    (hq : g.pin? t = some q) (f : g.Fits s t p q) :
    ∃ l m, Freed g l (fun w => q.incoming = some w) ∧ m = (l.joinPins s t).2 ∧
      g.connect s t = (some g.wires.next, { m with links := m.links ++ [g.wires.next] }) := by
  have a := hg.freed_freeInput f.target_member hq
  refine ⟨g.freeInput t, _, a, rfl, ?_⟩
  simp only [connect, (hg.refusal?_eq_none_iff hp hq).2 f, (a.joined f hp hq).1]

/-- Pins that fit are wired together. -/
theorem Coherent.connected (hg : g.Coherent) (hp : g.pin? s = some p) (hq : g.pin? t = some q)
    (f : g.Fits s t p q) : (g.connect s t).1 = some g.wires.next ∧
      g.Connected (g.connect s t).2 s t p q g.wires.next := by
  obtain ⟨l, m, a, hm, hconnect⟩ := hg.connect_of_fits hp hq f
  obtain ⟨-, hjoined⟩ := a.joined f hp hq
  obtain ⟨hsource, htarget⟩ := a.ends_joinPins hg f hp hq
  have hpin {r : PinRef} := a.pin?_joinPins_of_ne f hp hq (r := r)
  have hheader := (header_joinPins l s t).trans (header_freshId a.header)
  have hcore := sameCore_connect g s t
  rw [← hm] at hjoined hsource htarget hpin hheader
  have hformer (v : WireKey) (r : PinRef) (e : Pin) (hv : q.incoming = some v)
      (hr : g.sourceOf? v = some r) (hrs : r ≠ s) (he : g.pin? r = some e) :
      m.pin? r = some { e with outgoing := e.outgoing.filter fun u => u ≠ v } := by
    obtain ⟨hside, hforgets⟩ := a.former hg f.target_member hq hv hr he
    have hrt : r ≠ t := by
      rintro rfl
      exact absurd (hside.symm.trans f.target_side) nofun
    rw [hpin hrs hrt, hforgets]
  have hothers (r : PinRef) (hrs : r ≠ s) (hrt : r ≠ t)
      (hr : ∀ v, q.incoming = some v → g.sourceOf? v ≠ some r) : m.pin? r = g.pin? r :=
    (hpin hrs hrt).trans (a.pin?_of_other hg f.target_member hq hrt hr)
  have hvalues (r : PinRef) (hrt : r ≠ t) : (m.pin? r).map (·.value) = (g.pin? r).map (·.value) := by
    by_cases hrs : r = s
    · rw [hrs, hsource, hp]
      rfl
    · by_cases hr : ∀ v, q.incoming = some v → g.sourceOf? v ≠ some r
      · rw [hothers r hrs hrt hr]
      · simp only [not_forall, not_not] at hr
        obtain ⟨v, hv, hr⟩ := hr
        cases he : g.pin? r with
        | none => rw [hpin hrs hrt, a.pins, he]; simp
        | some e => rw [hformer v r e hv hr hrs he]; rfl
  rw [hconnect] at hcore ⊢
  refine ⟨rfl, Arena.get?_next _, ?_, (hjoined.wire? _).trans (if_pos rfl), fun v hv => ?_, hsource,
    htarget, hformer, hothers, hvalues, hcore, hheader⟩
  · simp only [hjoined.links, a.links, ne_eq, decide_not]
  · refine (hjoined.wire? v).trans ?_
    rw [if_neg hv, a.wires]
    simp only [decide_eq_true_eq]

/-- In a coherent graph two pins are wired together exactly if they fit. If they do not, the graph
stays as it is. If they do, the wire that fed the input is gone, the new wire is listed last, a data
input holds the value of the output, and nothing else has changed. -/
theorem Coherent.connect_iff (hg : g.Coherent) (hp : g.pin? s = some p) (hq : g.pin? t = some q) :
    ((g.connect s t).1.isSome = true ↔ g.Fits s t p q) ∧
    ((g.connect s t).1 = none → (g.connect s t).2 = g) ∧
    ∀ w, (g.connect s t).1 = some w → g.Connected (g.connect s t).2 s t p q w := by
  cases hr : g.refusal? s t with
  | some r =>
    have hnot : ¬ g.Fits s t p q := fun f => by
      rw [(hg.refusal?_eq_none_iff hp hq).2 f] at hr
      cases hr
    simp [connect_of_refusal hr, hnot]
  | none =>
    have f := (hg.refusal?_eq_none_iff hp hq).1 hr
    obtain ⟨hkey, hconnected⟩ := hg.connected hp hq f
    rw [hkey]
    exact ⟨⟨fun _ => f, fun _ => rfl⟩, nofun, fun w hw => Option.some.inj hw ▸ hconnected⟩

/-- A node with an output for control. -/
def starter (id : String) : Node :=
  { id, type := "s", name := id, inputs := [], behaviour := pure ()
    outputs := [(PinSpec.control "out").pin (id ++ ".out")] }

/-- A node with an input for control. -/
def ender (id : String) : Node :=
  { id, type := "e", name := id, outputs := [], behaviour := pure ()
    inputs := [(PinSpec.control "in").pin (id ++ ".in")] }

/-- Two outputs for control and an input to which the first of them leads. Another initial value was
given to that input. -/
def twoStarters : Graph :=
  ([Edit.newNode (starter "a"), .insertNode 0, .newNode (starter "b"), .insertNode 1,
    .newNode (ender "c"), .insertNode 2,
    .connect ⟨0, .output, 0⟩ ⟨2, .input, 0⟩].foldl Edit.apply (.new {})).modifyPin ⟨2, .input, 0⟩
      fun p => { p with initial := .bool true }

theorem coherent_twoStarters : twoStarters.Coherent := by
  have hfree (s : PinSpec) (id : String) : (s.pin id).Free := ⟨rfl, rfl, rfl⟩
  have hstart (id : String) : (starter id).Fresh :=
    ⟨by rintro (_ | _) <;> simp [starter, Node.pins, hfree], rfl, rfl⟩
  have hend (id : String) : (ender id).Fresh :=
    ⟨by rintro (_ | _) <;> simp [ender, Node.pins, hfree], rfl, rfl⟩
  have hg : Reachable ([Edit.newNode (starter "a"), .insertNode 0, .newNode (starter "b"),
      .insertNode 1, .newNode (ender "c"), .insertNode 2,
      .connect ⟨0, .output, 0⟩ ⟨2, .input, 0⟩].foldl Edit.apply (.new {})) :=
    (Reachable.new {} "Graph" .controlFlow).edits
      ⟨hstart "a", List.not_mem_nil, hstart "b", (by decide : (1 : Nat) ∉ [0]),
        hend "c", (by decide : (2 : Nat) ∉ [0, 1]), trivial, trivial⟩
  exact hg.wired.coherent.congr (sameWiring_modifyPin _ _ fun _ => rfl)

/-- The second output is wired to the input in place of the first one. -/
theorem Coherent.connect_iff_twoStarters :
    let g := twoStarters
    let s : PinRef := ⟨1, .output, 0⟩
    let t : PinRef := ⟨2, .input, 0⟩
    ∃ p q, g.Coherent ∧ g.pin? s = some p ∧ g.pin? t = some q ∧ g.links = [0] ∧ g.Fits s t p q ∧
      (g.connect s t).1 = some 1 ∧ g.Connected (g.connect s t).2 s t p q 1 ∧
      (g.connect s t).2.links = [1] := by
  intro g s t
  have hp : g.pin? s = some { (PinSpec.control "out").pin "b.out" with outgoing := [] } := by decide
  have hq : g.pin? t = some { (PinSpec.control "in").pin "c.in" with
    incoming := some 0, initial := .bool true } := by decide
  obtain ⟨hfits, -, hconnected⟩ := coherent_twoStarters.connect_iff hp hq
  have hkey : (g.connect s t).1 = some 1 := by decide
  exact ⟨_, _, coherent_twoStarters, hp, hq, by decide, hfits.1 (hkey ▸ rfl), hkey,
    hconnected 1 hkey, by decide⟩

/-- An input for control can get another value when its wire gives way. -/
theorem not_forall_value_connect : ¬ ∀ (g : Graph) (s t : PinRef) (p q : Pin), g.Coherent →
    g.pin? s = some p → g.pin? t = some q → (g.connect s t).1.isSome = true → q.flow = true →
    ((g.connect s t).2.pin? t).map (·.value) = some q.value := by
  intro hclaim
  have hkept := hclaim twoStarters ⟨1, .output, 0⟩ ⟨2, .input, 0⟩ _ _ coherent_twoStarters rfl rfl
    (by decide) rfl
  exact absurd hkept (by decide)

end Graph
end Patchbay
