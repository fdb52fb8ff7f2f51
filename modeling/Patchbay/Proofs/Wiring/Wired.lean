import Mathlib.Data.List.Nodup
import Patchbay.Proofs.Wiring.Sync
/-!
# Graphs that are wired

In a graph that only its own operations have changed, every live wire is listed, both of its
ends are found, and it joins pins that go together at two different members. Wires come and go
without harm to that.

## Main definitions

* `Graph.Joins`: a wire leads from one pin to another as wires should.
* `Graph.Wired`: pins and wires agree, and every wire joins two members.

## Main statements

* `Graph.Wired.without`: a wired graph stays wired when wires leave it.
* `Graph.Wired.removeWire`, `Graph.Wired.connect`: one wire goes, or comes in.
-/
namespace Patchbay

/-- A node with a pin of an id has it at some place of some side. -/
theorem Node.hasPinId_iff (n : Node) (id : String) :
    n.hasPinId id = true ↔ ∃ s, ∃ i : Nat, ∃ p : Pin, n.pin? s i = some p ∧ p.id = id := by
  have hside (ps : List Pin) : (ps.findIdx? fun p => p.id = id).isSome = true ↔
      ∃ i : Nat, ∃ p : Pin, ps[i]? = some p ∧ p.id = id := by
    rw [List.findIdx?_isSome, List.any_eq_true]
    constructor
    · rintro ⟨p, hp, h⟩
      obtain ⟨i, hi⟩ := List.mem_iff_getElem?.1 hp
      exact ⟨i, p, hi, of_decide_eq_true h⟩
    · rintro ⟨i, p, hi, h⟩
      exact ⟨p, List.mem_of_getElem? hi, decide_eq_true h⟩
  have hin := hside n.inputs
  have hout := hside n.outputs
  simp only [Node.hasPinId, Node.pinWithId?, Node.pin?]
  constructor
  · intro h
    split at h
    · next i hi =>
      obtain ⟨j, p, hj, hp⟩ := hin.1 (by simp [hi])
      exact ⟨.input, j, p, hj, hp⟩
    · obtain ⟨j, p, hj, hp⟩ := hout.1 (by simpa using h)
      exact ⟨.output, j, p, hj, hp⟩
  · rintro ⟨s, i, p, hi, hp⟩
    split
    · rfl
    · next hnone =>
      cases s with
      | input => simpa [hnone] using hin.2 ⟨i, p, hi, hp⟩
      | output => simpa using hout.2 ⟨i, p, hi, hp⟩

namespace Graph

/-- A wire leads from an output of a member to an input of another member, the pins are of one
kind, and the wire keeps their ids. -/
structure Joins (g : Graph) (c : Wire) (s t : PinRef) (p q : Pin) : Prop where
  source : c.source = some s
  target : c.target = some t
  source_side : s.side = .output
  target_side : t.side = .input
  distinct : s.node ≠ t.node
  source_member : s.node ∈ g.members
  target_member : t.node ∈ g.members
  source_pin : g.pin? s = some p
  target_pin : g.pin? t = some q
  kind : sameKind p q = true
  source_id : c.sourceId = p.id
  target_id : c.targetId = q.id

/-- Control leads to control, and values to values. -/
theorem Joins.flow_eq {g : Graph} {c : Wire} {s t : PinRef} {p q : Pin} (j : Joins g c s t p q) :
    p.flow = q.flow := by
  have h := j.kind
  simp only [sameKind, Bool.and_eq_true, decide_eq_true_eq] at h
  exact h.1

/-- Pins and wires agree, every live wire is listed and joins two members, and the index leads
to the members. -/
structure Wired (g : Graph) : Prop extends Synced g where
  live : ∀ w, w ∈ g.links ↔ (g.wire? w).isSome
  joined : ∀ {w c}, g.wire? w = some c → ∃ s t p q, g.Joins c s t p q
  adopted : ∀ {r p}, g.pin? r = some p → p.orphan = false
  members_nodup : g.members.Nodup
  members_live : ∀ k ∈ g.members, ∃ id, g.idOf? k = some id
  indexed : ∀ id k, g.nodeWithId? id = some k ↔ k ∈ g.members ∧ g.idOf? k = some id

/-- A wire joins the same pins in a graph with the same nodes and pins. -/
theorem Joins.congr {g h : Graph} {c : Wire} {s t : PinRef} {p q : Pin} (j : Joins g c s t p q)
    (a : SameShell g h) : ∃ p' q', Joins h c s t p' q' := by
  obtain ⟨p', hp', hp⟩ := a.symm.pin? j.source_pin
  obtain ⟨q', hq', hq⟩ := a.symm.pin? j.target_pin
  obtain ⟨hpi, -, hpt, hpf, -⟩ := Pin.of_shell_eq hp
  obtain ⟨hqi, -, hqt, hqf, -⟩ := Pin.of_shell_eq hq
  refine ⟨p', q', { j with
    source_member := a.members ▸ j.source_member
    target_member := a.members ▸ j.target_member
    source_pin := hp'
    target_pin := hq'
    kind := ?_
    source_id := j.source_id.trans hpi.symm
    target_id := j.target_id.trans hqi.symm }⟩
  have hk := j.kind
  simp only [sameKind] at hk ⊢
  rw [hpf, hqf, hpt, hqt]
  exact hk

namespace Wired
variable {g h : Graph}

/-- A graph with the nodes and pins of a wired graph is wired if its wires join pins as they
could there. -/
theorem of_shell (hg : Wired g) (a : SameShell g h) (hs : Synced h)
    (hlive : ∀ w, w ∈ h.links ↔ (h.wire? w).isSome)
    (hj : ∀ {w c}, h.wire? w = some c → ∃ s t p q, g.Joins c s t p q) : Wired h := by
  refine ⟨hs, hlive, ?_, ?_, ?_, ?_, ?_⟩
  · intro w c hw
    obtain ⟨s, t, p, q, j⟩ := hj hw
    exact ⟨s, t, j.congr a⟩
  · intro r p hp
    obtain ⟨q, hq, hb⟩ := a.pin? hp
    exact (Pin.of_shell_eq hb).2.2.2.2 ▸ hg.adopted hq
  · rw [a.members]; exact hg.members_nodup
  · intro k hk
    rw [a.ids]
    exact hg.members_live k (a.members ▸ hk)
  · intro id k
    rw [a.nodeWithId?, a.members, a.ids]
    exact hg.indexed id k

/-- Graphs with the same wiring are wired alike. -/
theorem congr (hg : Wired g) (a : SameWiring g h) : Wired h := by
  refine hg.of_shell a.sameShell (hg.toSynced.congr a) ?_ ?_
  · intro w; rw [a.links, a.wire?]; exact hg.live w
  · intro w c hw; rw [a.wire?] at hw; exact hg.joined hw

/-- The main node does not matter to wires. -/
theorem withMain (hg : Wired g) (id : Option String) : Wired { g with mainId := id } :=
  hg.of_shell ⟨fun _ => rfl, fun _ => rfl, rfl, rfl⟩ { hg.toSynced with } hg.live hg.joined

theorem setMain (hg : Wired g) (id : Option String) : Wired (g.setMain id).2 := by
  simp only [Graph.setMain]
  split
  · exact hg.withMain none
  · split
    · exact hg.withMain _
    · exact hg

/-- A graph stays wired when wires leave it. -/
theorem without (hg : Wired g) {gone : WireKey → Bool} (a : Without g h gone) : Wired h := by
  refine hg.of_shell a.shell a.synced ?_ ?_
  · intro w
    rw [a.links, a.wire?, List.mem_filter, hg.live]
    cases gone w <;> simp
  · intro w c hw
    rw [a.wire?] at hw
    split at hw
    · cases hw
    · exact hg.joined hw

/-- A node is found under its own id exactly if it is a member. -/
theorem contains_iff (hg : Wired g) (k : NodeKey) : g.contains k = true ↔ k ∈ g.members := by
  rw [contains_eq, Option.any_eq_true]
  constructor
  · rintro ⟨id, -, h⟩
    exact ((hg.indexed id k).1 (of_decide_eq_true h)).1
  · intro hk
    obtain ⟨id, hid⟩ := hg.members_live k hk
    exact ⟨id, hid, decide_eq_true ((hg.indexed id k).2 ⟨hk, hid⟩)⟩

/-- An empty graph is wired. -/
theorem new (ids : IdSupply) (name : String) (category : Category) :
    Wired (.new ids name category) := by
  have hpin (r : PinRef) : (Graph.new ids name category).pin? r = none := by
    simp [Graph.new, pin?, node?, Arena.get?]
  have hwire (w : WireKey) : (Graph.new ids name category).wire? w = none := by
    simp [Graph.new, wire?, Arena.get?]
  have hlinks : (Graph.new ids name category).links = [] := rfl
  have hmembers : (Graph.new ids name category).members = [] := rfl
  have hindex (id : String) : (Graph.new ids name category).nodeWithId? id = none := rfl
  constructor
  · constructor <;> simp [sourceOf?, targetOf?, hpin, hwire, hlinks]
  all_goals simp [hpin, hwire, hlinks, hmembers, hindex]

end Wired

/-! ### Wires without ends -/

/-- A graph after some of its wires lost their ends. They are still listed. -/
structure Severed (g h : Graph) (gone : WireKey → Bool) : Prop where
  shell : SameShell g h
  links : h.links = g.links
  wire? : ∀ w, h.wire? w =
    if gone w then (g.wire? w).map fun c => { c with source := none, target := none }
    else g.wire? w

namespace Severed
variable {g h : Graph} {gone : WireKey → Bool}

protected theorem refl (g : Graph) : Severed g g fun _ => false :=
  ⟨.refl g, rfl, fun _ => rfl⟩

/-- One more wire loses its ends. -/
theorem disconnect (a : Severed g h gone) (w : WireKey) :
    Severed g (h.disconnect w) fun v => v = w || gone v where
  shell := a.shell.trans (sameShell_disconnect h w)
  links := (links_disconnect h w).trans a.links
  wire? v := by
    rw [wire?_disconnect, a.wire?]
    by_cases hv : w = v
    · subst hv
      cases g.wire? w <;> cases gone w <;> simp
    · simp [hv, Ne.symm hv]

theorem sourceOf? (a : Severed g h gone) (w : WireKey) :
    h.sourceOf? w = if gone w then none else g.sourceOf? w := by
  rw [Graph.sourceOf?, a.wire?]
  split
  · cases g.wire? w <;> rfl
  · rfl

theorem targetOf? (a : Severed g h gone) (w : WireKey) :
    h.targetOf? w = if gone w then none else g.targetOf? w := by
  rw [Graph.targetOf?, a.wire?]
  split
  · cases g.wire? w <;> rfl
  · rfl

end Severed

/-- A graph after some of its wires were taken off their pins. -/
structure Loosened (g h : Graph) (gone : WireKey → Bool) : Prop extends Severed g h gone where
  synced : Synced h

/-- Once wires are off their pins, they can be taken off the list and destroyed. -/
theorem Loosened.without {g h : Graph} {gone : WireKey → Bool} (a : Loosened g h gone)
    (hg : Wired g) (hgone : ∀ w, gone w → w ∈ g.links) :
    Without g ((h.links.filter gone).foldl dropWire
      { h with links := h.links.filter fun w => !gone w }) gone := by
  have hloose (w : WireKey) (hw : gone w) :
      ∃ c, h.wire? w = some c ∧ c.source = none ∧ c.target = none := by
    obtain ⟨c, hc⟩ := Option.isSome_iff_exists.1 ((hg.live w).1 (hgone w hw))
    refine ⟨{ c with source := none, target := none }, ?_, rfl, rfl⟩
    simp [a.wire?, hw, hc]
  have b := without_of_loose a.synced (fun w hw => a.links ▸ hgone w hw) hloose
  refine ⟨a.shell.trans b.shell, b.synced, ?_, ?_⟩
  · rw [b.links, a.links]
  · intro w
    rw [b.wire?, a.wire?]
    split <;> rfl

/-- One more wire is taken off its pins. -/
theorem Loosened.disconnect {g h : Graph} {gone : WireKey → Bool} (a : Loosened g h gone)
    (w : WireKey) : Loosened g (h.disconnect w) fun v => v = w || gone v :=
  ⟨a.toSevered.disconnect w, a.synced.disconnect w⟩

theorem Loosened.refl {g : Graph} (hg : Synced g) : Loosened g g fun _ => false :=
  ⟨.refl g, hg⟩

/-- A wire of the graph is removed without a trace. -/
theorem without_removeWire {g : Graph} (hg : Wired g) {w : WireKey} (hw : w ∈ g.links) :
    Without g (g.removeWire w).2 (· = w) := by
  have hgone : (fun v => decide (v = w) || false) = fun v => decide (v = w) := by
    funext v; simp
  have a := (Loosened.refl hg.toSynced).disconnect w
  rw [hgone] at a
  have a := a.without hg fun v hv => of_decide_eq_true hv ▸ hw
  have hone : (g.disconnect w).links.filter (· = w) = [w] := by
    rw [links_disconnect, List.filter_eq, List.count_eq_one_of_mem hg.nodup hw]
    rfl
  have hrest : (g.disconnect w).links.filter (fun v => !decide (v = w)) =
      (g.disconnect w).links.erase w := by
    rw [List.Nodup.erase_eq_filter (by simpa using hg.nodup)]
    refine List.filter_congr fun v _ => ?_
    by_cases hv : v = w <;> simp [hv]
  rw [hone, hrest] at a
  rw [List.foldl_cons, List.foldl_nil] at a
  simp only [removeWire, hw, if_true]
  exact a

theorem Wired.removeWire {g : Graph} (hg : Wired g) (w : WireKey) :
    Wired (g.removeWire w).2 := by
  by_cases hw : w ∈ g.links
  · exact hg.without (without_removeWire hg hw)
  · rw [removeWire_of_not_mem hw]
    exact hg

/-! ### New wires -/

/-- Freeing an input removes the wire that feeds it, and nothing else. -/
theorem freeInput_spec {g : Graph} (hg : Wired g) (t : PinRef) :
    Wired (g.freeInput t) ∧ SameShell g (g.freeInput t) ∧
      ∀ {p}, (g.freeInput t).pin? t = some p → p.incoming = none := by
  cases hw : (g.pin? t).bind (·.incoming) with
  | none =>
    simp only [freeInput, hw]
    refine ⟨hg, .refl g, fun {p} hp => ?_⟩
    simpa [hp] using hw
  | some w =>
    obtain ⟨q, hq, hqi⟩ := Option.bind_eq_some_iff.1 hw
    have htgt : g.targetOf? w = some t := (hg.incoming hq w).1 hqi
    have hmem : w ∈ g.links := hg.target_listed htgt
    have a := without_removeWire hg hmem
    simp only [freeInput, hw, hmem, if_true]
    have hwired := hg.removeWire w
    refine ⟨hwired, a.shell, fun {p} hp => ?_⟩
    rw [Option.eq_none_iff_forall_not_mem]
    intro v hv
    -- whatever feeds the input now fed it before, and so it was the wire that is gone
    have hv := (hwired.incoming hp v).1 hv
    have hvt : g.targetOf? v = some t := by
      simp only [targetOf?, a.wire?] at hv ⊢
      split at hv
      · cases hv
      · exact hv
    have hvw : v = w := by
      have h := (hg.incoming hq v).2 hvt
      rw [hqi] at h
      exact (Option.some.inj h).symm
    simp [targetOf?, a.wire?, hvw] at hv

/-- A graph with a new wire between two pins, which is not listed yet. -/
structure Joined (g h : Graph) (w : WireKey) (c : Wire) (s t : PinRef) : Prop where
  shell : SameShell g h
  links : h.links = g.links
  wire? : ∀ v, h.wire? v = if v = w then some c else g.wire? v
  pins : ∀ r, (h.pin? r).map Pin.bare =
    (g.pin? r).map fun p => (if r = s ∨ r = t then p.attach r.side w else p).bare

section Attached
variable {s t r : PinRef} {p : Pin} {w : WireKey}

/-- A wire that is attached to two pins feeds the input. -/
theorem incoming_attached (hs : s.side = .output) (ht : t.side = .input) :
    (if r = s ∨ r = t then p.attach r.side w else p).incoming =
      if r = t then some w else p.incoming := by
  by_cases hrt : r = t
  · simp [hrt, ht, Pin.attach]
  · rw [if_neg hrt]
    split
    · next h =>
      rw [h.resolve_right hrt, hs]
      simp only [Pin.attach]
      split <;> rfl
    · rfl

/-- A new wire that is attached to two pins is the last one of the output. -/
theorem outgoing_attached (hs : s.side = .output) (ht : t.side = .input) (hw : w ∉ p.outgoing) :
    (if r = s ∨ r = t then p.attach r.side w else p).outgoing =
      if r = s then p.outgoing ++ [w] else p.outgoing := by
  by_cases hrs : r = s
  · simp [hrs, hs, Pin.attach, hw]
  · rw [if_neg hrs]
    split
    · next h => rw [h.resolve_left hrs, ht]; rfl
    · rfl

end Attached

/-- Pins and wires agree when a new wire is attached to two pins of which the input is free. -/
theorem Synced.add {g h : Graph} (hg : Synced g) {w : WireKey} {c : Wire} {s t : PinRef}
    {p q : Pin} (hunlisted : w ∉ g.links) (hfresh : g.wire? w = none) (j : Joins g c s t p q)
    (hfree : q.incoming = none) (hlinks : h.links = g.links ++ [w])
    (hwire : ∀ v, h.wire? v = if v = w then some c else g.wire? v)
    (hpins : ∀ r, (h.pin? r).map Pin.bare =
      (g.pin? r).map fun p => (if r = s ∨ r = t then p.attach r.side w else p).bare) :
    Synced h := by
  have hsource (v : WireKey) : h.sourceOf? v = if v = w then some s else g.sourceOf? v := by
    simp only [sourceOf?, hwire]
    split
    · exact j.source
    · rfl
  have htarget (v : WireKey) : h.targetOf? v = if v = w then some t else g.targetOf? v := by
    simp only [targetOf?, hwire]
    split
    · exact j.target
    · rfl
  have hlisted {v : WireKey} (hv : v = w ∨ v ∈ g.links) : v ∈ h.links := by
    rw [hlinks, List.mem_append, List.mem_singleton]
    exact hv.symm
  have hpin {r : PinRef} {p' : Pin} (hp : h.pin? r = some p') : ∃ p₀, g.pin? r = some p₀ ∧
      (if r = s ∨ r = t then p₀.attach r.side w else p₀).bare = p'.bare := by
    have hr := hpins r
    rw [hp, Option.map_some] at hr
    exact Option.map_eq_some_iff.1 hr.symm
  refine ⟨?_, fun {v r} hv => ?_, fun {v r} hv => ?_, fun {v r} hv => ?_, fun {v r} hv => ?_,
    fun {r p'} hp v => ?_, fun {r p'} hp => ?_⟩
  · rw [hlinks, List.nodup_append]
    refine ⟨hg.nodup, by simp, fun a ha b hb => ?_⟩
    rw [List.mem_singleton.1 hb]
    exact fun e => hunlisted (e ▸ ha)
  · rw [hsource] at hv
    split at hv
    · next e => exact hlisted (.inl e)
    · exact hlisted (.inr (hg.source_listed hv))
  · rw [htarget] at hv
    split at hv
    · next e => exact hlisted (.inl e)
    · exact hlisted (.inr (hg.target_listed hv))
  · rw [hsource] at hv
    split at hv
    · exact Option.some.inj hv ▸ j.source_side
    · exact hg.source_side hv
  · rw [htarget] at hv
    split at hv
    · exact Option.some.inj hv ▸ j.target_side
    · exact hg.target_side hv
  · obtain ⟨p₀, hp₀, hb⟩ := hpin hp
    have hi := hg.incoming hp₀ v
    rw [← (Pin.of_bare_eq hb).2.2.2.2.2.1, htarget, incoming_attached j.source_side j.target_side]
    by_cases hrt : r = t
    · subst hrt
      obtain rfl : p₀ = q := Option.some.inj (hp₀.symm.trans j.target_pin)
      rw [hfree] at hi
      by_cases hv : v = w
      · simp [hv]
      · simp [hv, Ne.symm hv, ← hi]
    · rw [if_neg hrt, hi]
      by_cases hv : v = w
      · have hwt : g.targetOf? w = none := by simp [targetOf?, hfresh]
        simp [hv, hwt, Ne.symm hrt]
      · simp [hv]
  · obtain ⟨p₀, hp₀, hb⟩ := hpin hp
    have ho := hg.outgoing hp₀
    have hw : w ∉ p₀.outgoing := fun hw => hunlisted (List.mem_filter.1 (ho ▸ hw)).1
    have hold : g.links.filter (fun v => h.sourceOf? v = some r) = p₀.outgoing := by
      rw [ho]
      refine List.filter_congr fun v hv => ?_
      have hne : v ≠ w := fun e => hunlisted (e ▸ hv)
      rw [hsource, if_neg hne]
    rw [← (Pin.of_bare_eq hb).2.2.2.2.2.2, outgoing_attached j.source_side j.target_side hw,
      hlinks, List.filter_append, hold]
    by_cases hrs : r = s
    · simp [hrs, hsource]
    · simp [hsource, hrs, Ne.symm hrs]

/-- A graph stays wired when a new wire joins two pins of which the input is free. -/
theorem Wired.add {g h : Graph} (hg : Wired g) {w : WireKey} {c : Wire} {s t : PinRef} {p q : Pin}
    (hfresh : g.wire? w = none) (j : Joins g c s t p q) (hfree : q.incoming = none)
    (a : Joined g h w c s t) : Wired { h with links := h.links ++ [w] } := by
  have hunlisted : w ∉ g.links := by simp [hg.live, hfresh]
  have hshell : SameShell g { h with links := h.links ++ [w] } :=
    ⟨a.shell.ids, a.shell.pins, a.shell.members, a.shell.index⟩
  have hlinks : ({ h with links := h.links ++ [w] } : Graph).links = g.links ++ [w] :=
    congrArg (· ++ [w]) a.links
  have hwire (v : WireKey) : ({ h with links := h.links ++ [w] } : Graph).wire? v =
      if v = w then some c else g.wire? v := a.wire? v
  refine hg.of_shell hshell (hg.toSynced.add hunlisted hfresh j hfree hlinks hwire a.pins) ?_ ?_
  · intro v
    rw [hlinks, hwire, List.mem_append, hg.live]
    by_cases hv : v = w <;> simp [hv]
  · intro v d hv
    rw [hwire] at hv
    split at hv
    · exact ⟨s, t, p, q, Option.some.inj hv ▸ j⟩
    · exact hg.joined hv

theorem setSource_of_none {g : Graph} {w : WireKey} {c : Wire} (hw : g.wire? w = some c)
    (hc : c.source = none) (s : PinRef) :
    g.setSource w (some s) = (g.modifyWire w fun d =>
      { d with source := some s, sourceId := g.pinIdOr s c.sourceId }).attach s w := by
  simp [setSource, hw, hc, detachEnd]

theorem setTarget_of_none {g : Graph} {w : WireKey} {c : Wire} (hw : g.wire? w = some c)
    (hc : c.target = none) (t : PinRef) :
    g.setTarget w (some t) = (g.modifyWire w fun d =>
      { d with target := some t, targetId := g.pinIdOr t c.targetId }).attach t w := by
  simp [setTarget, hw, hc, detachEnd]

theorem sameShell_attach (g : Graph) (r : PinRef) (w : WireKey) : SameShell g (g.attach r w) :=
  sameShell_modifyPin g r fun p => Pin.shell_attach p _ w

theorem pin?_attach (g : Graph) (r r' : PinRef) (w : WireKey) :
    (g.attach r w).pin? r' =
      if r = r' then (g.pin? r').map (·.attach r'.side w) else g.pin? r' := by
  simp only [attach, pin?_modifyPin]
  split
  · next h => rw [h]
  · rfl

/-- A value passes along a wire from one pin to another. -/
theorem pin?_transfer {g : Graph} {w : WireKey} {c : Wire} {s t : PinRef} {p : Pin}
    (hw : g.wire? w = some c) (hs : c.source = some s) (ht : c.target = some t)
    (hp : g.pin? s = some p) (r : PinRef) : (g.transfer w).pin? r =
      if t = r then (g.pin? r).map fun q => if p.flow then q else q.assign p.value
      else g.pin? r := by
  obtain ⟨id, sourceId, targetId, source, target⟩ := c
  obtain rfl : source = some s := hs
  obtain rfl : target = some t := ht
  simp only [transfer, hw, hp]
  split
  · simp
  · rw [pin?_modifyPin]

theorem pinIdOr_of_pin? {g : Graph} {r : PinRef} {p : Pin} (h : g.pin? r = some p)
    (otherwise : String) : g.pinIdOr r otherwise = p.id := by
  simp [pinIdOr, h]

/-- A new wire between two pins has a fresh key and keeps the ids of its pins. -/
theorem joined_joinPins {g : Graph} {s t : PinRef} {p q : Pin} (hp : g.pin? s = some p)
    (hq : g.pin? t = some q) (hst : s ≠ t) :
    (g.joinPins s t).1 = g.wires.next ∧
      Joined g (g.joinPins s t).2 g.wires.next
        { id := g.freshId.1, sourceId := p.id, targetId := q.id, source := some s,
          target := some t } s t := by
  -- the graph with the wire, before an end of the wire is set
  let c : Wire := { id := g.freshId.1, sourceId := p.id, targetId := q.id }
  let g₁ : Graph := { g.freshId.2 with wires := g.wires.push c }
  let w := g.wires.next
  have hshell₁ : SameShell g g₁ := ⟨fun _ => rfl, fun _ => rfl, rfl, rfl⟩
  have hpin₁ (r : PinRef) : g₁.pin? r = g.pin? r := rfl
  have hwire₁ (v : WireKey) : g₁.wire? v = if v = w then some c else g.wire? v :=
    Arena.get?_push g.wires c v
  have hw₁ : g₁.wire? w = some c := by simp [hwire₁]
  have hsource := setSource_of_none hw₁ rfl s
  rw [pinIdOr_of_pin? (hpin₁ s ▸ hp)] at hsource
  let d : Wire := { c with source := some s }
  have hw₂ : (g₁.setSource w (some s)).wire? w = some d := by
    rw [hsource]
    simp only [attach, wire?_modifyPin, wire?_modifyWire, hw₁, if_true, Option.map_some]
    rfl
  have htarget := setTarget_of_none hw₂ rfl t
  have hpin₂ (r : PinRef) : (g₁.setSource w (some s)).pin? r =
      if s = r then (g.pin? r).map (·.attach r.side w) else g.pin? r := by
    rw [hsource, pin?_attach, pin?_modifyWire, hpin₁]
  rw [pinIdOr_of_pin? (by rw [hpin₂, if_neg hst, hq])] at htarget
  have hjoin : g.joinPins s t =
      (w, ((g₁.setSource w (some s)).setTarget w (some t)).transfer w) := by
    have hs : g.freshId.2.pinIdOr s "" = p.id := pinIdOr_of_pin? hp _
    have ht : g.freshId.2.pinIdOr t "" = q.id := pinIdOr_of_pin? hq _
    simp only [joinPins, newWire, hs, ht]
    rfl
  have htransfer := sameWiring_transfer ((g₁.setSource w (some s)).setTarget w (some t)) w
  rw [hjoin]
  refine ⟨rfl, ?_, ?_, ?_, ?_⟩
  · refine .trans ?_ htransfer.sameShell
    rw [htarget]
    refine .trans ?_ (sameShell_attach _ t w)
    refine .trans ?_ (sameShell_modifyWire _ w _)
    rw [hsource]
    refine .trans hshell₁ (.trans ?_ (sameShell_attach _ s w))
    exact sameShell_modifyWire _ w _
  · rw [htransfer.links, htarget, hsource]
    rfl
  · intro v
    rw [htransfer.wire?, htarget, hsource]
    simp only [attach, wire?_modifyPin, wire?_modifyWire, hwire₁]
    by_cases hv : w = v
    · simp [← hv, c, w]
    · simp [hv, Ne.symm hv, w]
  · intro r
    rw [htransfer.pins, htarget, pin?_attach, pin?_modifyWire, hpin₂]
    by_cases hs : s = r <;> by_cases ht : t = r
    · exact absurd (hs.trans ht.symm) hst
    · simp [w, hs, ht, Ne.symm ht, Option.map_map, Function.comp_def]
    · simp [w, hs, ht, Ne.symm hs, Option.map_map, Function.comp_def]
    · simp [hs, ht, Ne.symm hs, Ne.symm ht]

/-- What is known of two pins when a wire between them is not refused. -/
theorem of_not_refused {g : Graph} {s t : PinRef} (h : g.refusal? s t = none) :
    ∃ p q, g.pin? s = some p ∧ g.pin? t = some q ∧ g.contains s.node = true ∧
      g.contains t.node = true ∧ s.side = .output ∧ t.side = .input ∧ s.node ≠ t.node ∧
      sameKind p q = true := by
  have howner {r : PinRef} {k : NodeKey} (hr : g.owner? r = some k) :
      k = r.node ∧ ∃ p, g.pin? r = some p := by
    obtain ⟨p, hp, hk⟩ := Option.bind_eq_some_iff.1 hr
    split at hk
    · cases hk
    · exact ⟨(Option.some.inj hk).symm, p, hp⟩
  simp only [refusal?] at h
  split at h
  · next a b ha hb =>
    obtain ⟨rfl, p, hp⟩ := howner ha
    obtain ⟨rfl, q, hq⟩ := howner hb
    split at h
    · cases h
    · next hin =>
      split at h
      · cases h
      · next hside =>
        split at h
        · cases h
        · next hcan =>
          simp only [canConnect, hp, hq, ha, hb] at hcan
          simp only [not_or, Decidable.not_not] at hside
          simp_all
  · cases h

/-- The input at which a new wire ends is free of other wires, and everything joins. -/
theorem Wired.connect {g : Graph} (hg : Wired g) (s t : PinRef) : Wired (g.connect s t).2 := by
  simp only [Graph.connect]
  split
  · exact hg
  next hr =>
  obtain ⟨p, q, hp, hq, hsin, htin, hs, ht, hne, hk⟩ := of_not_refused hr
  obtain ⟨hfree, hshell, hinput⟩ := freeInput_spec hg t
  obtain ⟨p', hp', hpe⟩ := hshell.symm.pin? hp
  obtain ⟨q', hq', hqe⟩ := hshell.symm.pin? hq
  have hst : s ≠ t := fun e => hne (e ▸ rfl)
  obtain ⟨hw, hj⟩ := joined_joinPins hp' hq' hst
  have hmember {k : NodeKey} (h : g.contains k = true) : k ∈ (g.freeInput t).members :=
    hshell.members ▸ (hg.contains_iff k).1 h
  have hjoins : Joins (g.freeInput t)
      { id := (g.freeInput t).freshId.1, sourceId := p'.id, targetId := q'.id, source := some s,
        target := some t } s t p' q' :=
    { source := rfl
      target := rfl
      source_side := hs
      target_side := ht
      distinct := hne
      source_member := hmember hsin
      target_member := hmember htin
      source_pin := hp'
      target_pin := hq'
      kind := by
        obtain ⟨-, -, hpt, hpf, -⟩ := Pin.of_shell_eq hpe
        obtain ⟨-, -, hqt, hqf, -⟩ := Pin.of_shell_eq hqe
        simp only [sameKind] at hk ⊢
        rw [hpf, hqf, hpt, hqt]
        exact hk
      source_id := rfl
      target_id := rfl }
  have hadd := hfree.add (Arena.get?_next _) hjoins (hinput hq') hj
  rw [← hw] at hadd
  exact hadd

theorem Wired.connectNamed {g : Graph} (hg : Wired g) (a : NodeKey) (output : String)
    (b : NodeKey) (input : String) : Wired (g.connectNamed a output b input).2 := by
  simp only [Graph.connectNamed]
  split
  · exact hg.connect _ _
  · exact hg

end Graph
end Patchbay
