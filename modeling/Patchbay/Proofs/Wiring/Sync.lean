import Patchbay.Proofs.Wiring.Frame
/-!
# Pins and wires that agree

Every link is kept twice: the wire knows its ends, and the pins at the ends know the wire. The
operations on single wires change both sides together. While a node is being removed some
wires have lost their ends already and are still listed; pins and wires agree even then.

## Main definitions

* `Graph.sourceOf?`, `Graph.targetOf?`: the ends of a wire.
* `Graph.SameShell`: two graphs that agree in nodes and pins, but for values and wires.
* `Graph.Synced`: what the pins know of wires is what the wires say.
-/
namespace Patchbay

/-! ### Pins without wires -/

namespace Pin

/-- The pin without its values and wires. -/
def shell (p : Pin) : Pin := { p.bare with incoming := none, outgoing := [] }

/-- The pin after a wire is gone. -/
def unplug (p : Pin) (w : WireKey) : Pin :=
  { p with
    incoming := if p.incoming = some w then none else p.incoming
    outgoing := p.outgoing.filter (· ≠ w) }

@[simp] theorem shell_bare (p : Pin) : p.bare.shell = p.shell := rfl

@[simp] theorem shell_reset (p : Pin) : p.reset.shell = p.shell := rfl

@[simp] theorem shell_attach (p : Pin) (s : Side) (w : WireKey) :
    (p.attach s w).shell = p.shell := by
  cases s
  · rfl
  · simp only [attach]; split <;> rfl

@[simp] theorem shell_detach (p : Pin) (s : Side) (w : WireKey) :
    (p.detach s w).shell = p.shell := by
  cases s
  · simp only [detach]; split <;> rfl
  · rfl

/-- Pins with the same shell agree in all that wires do not change. -/
theorem of_shell_eq {p q : Pin} (h : p.shell = q.shell) :
    p.id = q.id ∧ p.name = q.name ∧ p.type = q.type ∧ p.flow = q.flow ∧
      p.orphan = q.orphan := by
  cases p; cases q
  simp_all [shell, bare]

end Pin

theorem Arena.get?_foldl_erase {α : Type} (ks : List Nat) (a : Arena α) (k : Nat) :
    (ks.foldl Arena.erase a).get? k = if k ∈ ks then none else a.get? k := by
  induction ks generalizing a with
  | nil => simp
  | cons j ks ih =>
    simp only [List.foldl_cons, ih, Arena.get?_erase, List.mem_cons]
    by_cases hk : k ∈ ks
    · simp [hk]
    · by_cases hj : j = k
      · simp [hj]
      · simp [hk, hj, Ne.symm hj]

namespace Graph

/-! ### Graphs with the same nodes and pins -/

/-- Two graphs that agree in nodes and pins, but for the values and the wires. -/
structure SameShell (g h : Graph) : Prop where
  ids : ∀ k, h.idOf? k = g.idOf? k
  pins : ∀ r, (h.pin? r).map Pin.shell = (g.pin? r).map Pin.shell
  members : h.members = g.members
  index : h.index = g.index

namespace SameShell
variable {g h l : Graph}

@[simp] protected theorem refl (g : Graph) : SameShell g g :=
  ⟨fun _ => rfl, fun _ => rfl, rfl, rfl⟩

protected theorem trans (a : SameShell g h) (b : SameShell h l) : SameShell g l :=
  ⟨fun k => (b.ids k).trans (a.ids k), fun r => (b.pins r).trans (a.pins r),
    b.members.trans a.members, b.index.trans a.index⟩

theorem nodeWithId? (a : SameShell g h) (id : String) : h.nodeWithId? id = g.nodeWithId? id := by
  simp only [Graph.nodeWithId?, a.index]

/-- A pin of the one graph is a pin of the other one, but for the values and the wires. -/
theorem pin? (a : SameShell g h) {r : PinRef} {p : Pin} (hp : h.pin? r = some p) :
    ∃ q, g.pin? r = some q ∧ q.shell = p.shell := by
  have hr := a.pins r
  rw [hp, Option.map_some] at hr
  exact Option.map_eq_some_iff.1 hr.symm

protected theorem symm (a : SameShell g h) : SameShell h g :=
  ⟨fun k => (a.ids k).symm, fun r => (a.pins r).symm, a.members.symm, a.index.symm⟩

/-- Pins stay with their nodes. -/
theorem owner? (a : SameShell g h) (r : PinRef) : h.owner? r = g.owner? r := by
  have hpin := congrArg (Option.bind · fun p => if p.orphan then none else some r.node) (a.pins r)
  simp only [Option.bind_map] at hpin
  exact hpin

end SameShell

theorem SameWiring.sameShell {g h : Graph} (a : SameWiring g h) : SameShell g h where
  ids := a.ids
  pins r := by
    have hr := congrArg (Option.map Pin.shell) (a.pins r)
    simpa only [Option.map_map, Function.comp_def, Pin.shell_bare] using hr
  members := a.members
  index := a.index

theorem sameShell_modifyPin (g : Graph) (r : PinRef) {f : Pin → Pin}
    (hf : ∀ p, (f p).shell = p.shell) : SameShell g (g.modifyPin r f) where
  ids k := idOf?_modifyPin g r f k
  pins r' := by
    rw [pin?_modifyPin]
    split
    · cases g.pin? r' <;> simp [hf]
    · rfl
  members := rfl
  index := rfl

@[simp] theorem sameShell_modifyWire (g : Graph) (w : WireKey) (f : Wire → Wire) :
    SameShell g (g.modifyWire w f) :=
  ⟨fun _ => rfl, fun _ => rfl, rfl, rfl⟩

theorem sameShell_detachEnd (g : Graph) (r : Option PinRef) (w : WireKey) :
    SameShell g (g.detachEnd r w) := by
  cases r with
  | none => exact .refl g
  | some r => exact sameShell_modifyPin g r fun p => Pin.shell_detach p _ w

theorem sameShell_disconnect (g : Graph) (w : WireKey) : SameShell g (g.disconnect w) := by
  simp only [disconnect]
  split
  · exact .refl g
  · refine SameShell.trans (SameShell.trans ?_ (sameShell_detachEnd _ _ w))
      (sameShell_modifyWire _ w _)
    split
    · exact .refl g
    · next t _ =>
      have hd : SameShell g (g.detach t w) := sameShell_detachEnd g (some t) w
      split
      · exact hd.trans (sameShell_modifyPin _ t Pin.shell_reset)
      · exact hd

/-! ### Pins that know their wires -/

/-- The pin at which a wire begins. -/
def sourceOf? (g : Graph) (w : WireKey) : Option PinRef := (g.wire? w).bind (·.source)

/-- The pin at which a wire ends. -/
def targetOf? (g : Graph) (w : WireKey) : Option PinRef := (g.wire? w).bind (·.target)

theorem SameWiring.sourceOf? {g h : Graph} (a : SameWiring g h) (w : WireKey) :
    h.sourceOf? w = g.sourceOf? w := by
  simp only [Graph.sourceOf?, a.wire?]

theorem SameWiring.targetOf? {g h : Graph} (a : SameWiring g h) (w : WireKey) :
    h.targetOf? w = g.targetOf? w := by
  simp only [Graph.targetOf?, a.wire?]

theorem wiresFrom_eq (g : Graph) (r : PinRef) :
    g.wiresFrom r = g.links.filter fun w => g.sourceOf? w = some r := by
  refine List.filter_congr fun w _ => ?_
  rw [Bool.eq_iff_iff]
  simp [sourceOf?, Option.any_eq_true, Option.bind_eq_some_iff]

theorem wireTo?_eq (g : Graph) (r : PinRef) :
    g.wireTo? r = g.links.find? fun w => g.targetOf? w = some r := by
  simp only [wireTo?]
  congr 1
  funext w
  rw [Bool.eq_iff_iff]
  simp [targetOf?, Option.any_eq_true, Option.bind_eq_some_iff]

/-- What the pins know of wires is what the wires say: an input knows the one wire that ends at
it, and an output the wires that begin at it, as they are listed. -/
structure Synced (g : Graph) : Prop where
  nodup : g.links.Nodup
  source_listed : ∀ {w s}, g.sourceOf? w = some s → w ∈ g.links
  target_listed : ∀ {w t}, g.targetOf? w = some t → w ∈ g.links
  source_side : ∀ {w s}, g.sourceOf? w = some s → s.side = .output
  target_side : ∀ {w t}, g.targetOf? w = some t → t.side = .input
  incoming : ∀ {r p}, g.pin? r = some p → ∀ w, p.incoming = some w ↔ g.targetOf? w = some r
  outgoing : ∀ {r p}, g.pin? r = some p →
    p.outgoing = g.links.filter fun w => g.sourceOf? w = some r

/-- Pins and wires agree in every graph with the same wiring. -/
theorem Synced.congr {g h : Graph} (hs : Synced g) (a : SameWiring g h) : Synced h := by
  refine ⟨?_, ?_, ?_, ?_, ?_, ?_, ?_⟩
  · rw [a.links]; exact hs.nodup
  · intro w s hw; rw [a.sourceOf?] at hw; rw [a.links]; exact hs.source_listed hw
  · intro w t hw; rw [a.targetOf?] at hw; rw [a.links]; exact hs.target_listed hw
  · intro w s hw; rw [a.sourceOf?] at hw; exact hs.source_side hw
  · intro w t hw; rw [a.targetOf?] at hw; exact hs.target_side hw
  · intro r p hp w
    obtain ⟨q, hq, hb⟩ := a.pin? hp
    rw [a.targetOf?, ← (Pin.of_bare_eq hb).2.2.2.2.2.1]
    exact hs.incoming hq w
  · intro r p hp
    obtain ⟨q, hq, hb⟩ := a.pin? hp
    simp only [← (Pin.of_bare_eq hb).2.2.2.2.2.2, hs.outgoing hq, a.links, a.sourceOf?]

/-! ### Taking a wire off its pins -/

theorem pin?_detachEnd (g : Graph) (e : Option PinRef) (w : WireKey) (r : PinRef) :
    (g.detachEnd e w).pin? r =
      if e = some r then (g.pin? r).map (·.detach r.side w) else g.pin? r := by
  cases e with
  | none => rfl
  | some e =>
    simp only [detachEnd, detach, pin?_modifyPin, Option.some.injEq]
    split
    · next h => rw [h]
    · rfl

@[simp] theorem pin?_modifyWire (g : Graph) (w : WireKey) (f : Wire → Wire) (r : PinRef) :
    (g.modifyWire w f).pin? r = g.pin? r := rfl

namespace Synced
variable {g : Graph} {r : PinRef} {p : Pin} {w : WireKey}

/-- An input knows no wire that leaves it, and an output none that feeds it. -/
theorem detach_eq_unplug (hs : Synced g) (hp : g.pin? r = some p) :
    p.detach r.side w = p.unplug w := by
  have hside : r.side = .input ∧ p.outgoing = [] ∨ r.side = .output ∧ p.incoming = none := by
    cases hr : r.side with
    | input =>
      refine .inl ⟨rfl, ?_⟩
      rw [hs.outgoing hp, List.filter_eq_nil_iff]
      intro v _ hv
      simpa [hr] using hs.source_side (of_decide_eq_true hv)
    | output =>
      refine .inr ⟨rfl, ?_⟩
      rw [Option.eq_none_iff_forall_not_mem]
      intro v hv
      simpa [hr] using hs.target_side ((hs.incoming hp v).1 hv)
  rcases hside with ⟨hr, ho⟩ | ⟨hr, hi⟩
  · rw [hr]
    simp only [Pin.detach, Pin.unplug, ho, List.filter_nil]
    split
    · simp [← ho]
    · cases p; simp_all
  · rw [hr]
    simp [Pin.detach, Pin.unplug, hi]

/-- A pin at which a wire neither begins nor ends does not change when the wire goes. -/
theorem unplug_eq_self (hs : Synced g) (hp : g.pin? r = some p) (hsrc : g.sourceOf? w ≠ some r)
    (htgt : g.targetOf? w ≠ some r) : p.unplug w = p := by
  have hi : p.incoming ≠ some w := fun h => htgt ((hs.incoming hp w).1 h)
  have ho : p.outgoing.filter (· ≠ w) = p.outgoing := by
    rw [List.filter_eq_self]
    intro v hv
    rw [hs.outgoing hp, List.mem_filter] at hv
    have hv := of_decide_eq_true hv.2
    exact decide_eq_true fun h => hsrc (h ▸ hv)
  cases p
  simp_all [Pin.unplug]

end Synced

theorem wire?_disconnect (g : Graph) (w v : WireKey) :
    (g.disconnect w).wire? v =
      if w = v then (g.wire? v).map fun c => { c with source := none, target := none }
      else g.wire? v := by
  simp only [disconnect]
  split
  · next h =>
    split
    · next e => subst e; simp [h]
    · rfl
  · rw [wire?_modifyWire, wire?_detachEnd]
    split <;> split <;> first | rfl | (split <;> rfl)

theorem sourceOf?_disconnect (g : Graph) (w v : WireKey) :
    (g.disconnect w).sourceOf? v = if w = v then none else g.sourceOf? v := by
  simp only [sourceOf?, wire?_disconnect]
  split
  · cases g.wire? v <;> rfl
  · rfl

theorem targetOf?_disconnect (g : Graph) (w v : WireKey) :
    (g.disconnect w).targetOf? v = if w = v then none else g.targetOf? v := by
  simp only [targetOf?, wire?_disconnect]
  split
  · cases g.wire? v <;> rfl
  · rfl

@[simp] theorem links_detachEnd (g : Graph) (r : Option PinRef) (w : WireKey) :
    (g.detachEnd r w).links = g.links := by
  cases r <;> rfl

@[simp] theorem links_disconnect (g : Graph) (w : WireKey) :
    (g.disconnect w).links = g.links := by
  simp only [disconnect]
  split
  · rfl
  · change (Graph.detachEnd _ _ w).links = g.links
    rw [links_detachEnd]
    split
    · rfl
    · split <;> rfl

/-- A wire that is taken off its pins is forgotten by every pin. -/
theorem bare_pin?_disconnect {g : Graph} (hs : Synced g) (w : WireKey) (r : PinRef) :
    ((g.disconnect w).pin? r).map Pin.bare = (g.pin? r).map fun p => (p.unplug w).bare := by
  cases hp : g.pin? r with
  | none =>
    have h := (sameShell_disconnect g w).pins r
    rw [hp] at h
    simpa using h
  | some p =>
    have hdetach := hs.detach_eq_unplug (w := w) hp
    have hself := hs.unplug_eq_self (w := w) hp
    simp only [disconnect]
    split
    · next hw =>
      have hsrc : g.sourceOf? w ≠ some r := by simp [sourceOf?, hw]
      have htgt : g.targetOf? w ≠ some r := by simp [targetOf?, hw]
      rw [hp, Option.map_some, Option.map_some, hself hsrc htgt]
    · next c hw =>
      have hsrc : g.sourceOf? w = c.source := by simp [sourceOf?, hw]
      have htgt : g.targetOf? w = c.target := by simp [targetOf?, hw]
      have hends (s : PinRef) (h : c.source = some s) (h' : c.target = some s) : False := by
        have h₁ := hs.source_side (hsrc.trans h)
        have h₂ := hs.target_side (htgt.trans h')
        rw [h₁] at h₂
        cases h₂
      rw [hsrc, htgt] at hself
      rw [pin?_modifyWire, pin?_detachEnd]
      -- the end at which the pin lies decides which of the two detachments changes it
      cases ht : c.target with
      | none =>
        simp only [hp]
        by_cases he : c.source = some r
        · simp [he, hdetach]
        · simp [he, hself he (by simp [ht])]
      | some t =>
        by_cases he : t = r
        · subst he
          have he : c.source ≠ some t := fun h => hends t h ht
          simp only [he, if_false]
          split <;> simp [detach, pin?_modifyPin, hp, hdetach]
        · have hpart : (if ((g.pin? t).any fun p => p.incoming = some w) = true
              then (g.detach t w).modifyPin t Pin.reset else g.detach t w).pin? r = some p := by
            split <;> simp [detach, pin?_modifyPin, he, hp]
          simp only [hpart]
          by_cases hc : c.source = some r
          · simp [hc, hdetach]
          · simp [hc, hself hc (by simp [ht, he])]

/-- Taking a wire off its pins keeps pins and wires in agreement. -/
theorem Synced.disconnect {g : Graph} (hs : Synced g) (w : WireKey) :
    Synced (g.disconnect w) := by
  have hpin {r : PinRef} {p : Pin} (hp : (g.disconnect w).pin? r = some p) :
      ∃ q, g.pin? r = some q ∧ (q.unplug w).bare = p.bare := by
    have h := bare_pin?_disconnect hs w r
    rw [hp, Option.map_some] at h
    exact Option.map_eq_some_iff.1 h.symm
  refine ⟨?_, ?_, ?_, ?_, ?_, ?_, ?_⟩
  · simpa using hs.nodup
  · intro v s h
    rw [sourceOf?_disconnect] at h
    split at h
    · cases h
    · simpa using hs.source_listed h
  · intro v t h
    rw [targetOf?_disconnect] at h
    split at h
    · cases h
    · simpa using hs.target_listed h
  · intro v s h
    rw [sourceOf?_disconnect] at h
    split at h
    · cases h
    · exact hs.source_side h
  · intro v t h
    rw [targetOf?_disconnect] at h
    split at h
    · cases h
    · exact hs.target_side h
  · intro r p hp v
    obtain ⟨q, hq, hb⟩ := hpin hp
    rw [← (Pin.of_bare_eq hb).2.2.2.2.2.1, targetOf?_disconnect]
    have hi := hs.incoming hq v
    by_cases hv : w = v
    · subst hv
      simp only [Pin.unplug, if_true, reduceCtorEq, iff_false]
      split <;> simp_all
    · simp only [Pin.unplug, hv, if_false, ← hi]
      split <;> simp_all
  · intro r p hp
    obtain ⟨q, hq, hb⟩ := hpin hp
    rw [← (Pin.of_bare_eq hb).2.2.2.2.2.2, links_disconnect]
    simp only [Pin.unplug, hs.outgoing hq, List.filter_filter, sourceOf?_disconnect]
    refine List.filter_congr fun v _ => ?_
    by_cases hv : w = v <;> simp [hv, eq_comm]

/-! ### Wires that leave the graph -/

/-- A graph after some wires are gone. Their pins forgot them, and all else is as it was. -/
structure Without (g h : Graph) (gone : WireKey → Bool) : Prop where
  shell : SameShell g h
  synced : Synced h
  links : h.links = g.links.filter fun w => !gone w
  wire? : ∀ w, h.wire? w = if gone w then none else g.wire? w

/-- Wires without ends can be taken off the list. -/
theorem Synced.unlist {g h : Graph} (hs : Synced g) {gone : WireKey → Bool}
    (hpin : ∀ r, h.pin? r = g.pin? r) (hlinks : h.links = g.links.filter fun w => !gone w)
    (hsource : ∀ w, h.sourceOf? w = g.sourceOf? w) (htarget : ∀ w, h.targetOf? w = g.targetOf? w)
    (hloose : ∀ w, gone w → g.sourceOf? w = none ∧ g.targetOf? w = none) : Synced h := by
  have hkept {w : WireKey} (hw : w ∈ g.links) (h' : g.sourceOf? w ≠ none ∨ g.targetOf? w ≠ none) :
      w ∈ h.links := by
    rw [hlinks, List.mem_filter]
    refine ⟨hw, ?_⟩
    rw [Bool.not_eq_true', ← Bool.not_eq_true]
    intro hg
    have := hloose w hg
    simp_all
  refine ⟨?_, ?_, ?_, ?_, ?_, ?_, ?_⟩
  · rw [hlinks]; exact hs.nodup.filter _
  · intro w s hw
    rw [hsource] at hw
    exact hkept (hs.source_listed hw) (.inl (by simp [hw]))
  · intro w t hw
    rw [htarget] at hw
    exact hkept (hs.target_listed hw) (.inr (by simp [hw]))
  · intro w s hw; rw [hsource] at hw; exact hs.source_side hw
  · intro w t hw; rw [htarget] at hw; exact hs.target_side hw
  · intro r p hp w
    rw [hpin] at hp
    rw [htarget]
    exact hs.incoming hp w
  · intro r p hp
    rw [hpin] at hp
    rw [hs.outgoing hp, hlinks, List.filter_filter]
    refine List.filter_congr fun w _ => ?_
    rw [hsource]
    by_cases hw : gone w = true
    · simp [(hloose w hw).1]
    · simp [hw]

/-- A wire without ends dies unnoticed by any pin. -/
theorem dropWire_of_loose {g : Graph} {w : WireKey} {c : Wire} (hw : g.wire? w = some c)
    (hs : c.source = none) (ht : c.target = none) :
    g.dropWire w = { g with wires := g.wires.erase w } := by
  simp [dropWire, hw, hs, ht, detachEnd]

theorem foldl_dropWire_of_loose {ws : List WireKey} (hn : ws.Nodup) {g : Graph}
    (h : ∀ w ∈ ws, ∃ c, g.wire? w = some c ∧ c.source = none ∧ c.target = none) :
    ws.foldl dropWire g = { g with wires := ws.foldl Arena.erase g.wires } := by
  induction ws generalizing g with
  | nil => rfl
  | cons w ws ih =>
    obtain ⟨hw, hn⟩ := List.nodup_cons.1 hn
    obtain ⟨c, hc, hs, ht⟩ := h w List.mem_cons_self
    rw [List.foldl_cons, dropWire_of_loose hc hs ht, ih hn]
    · rfl
    · intro v hv
      obtain ⟨d, hd, hends⟩ := h v (List.mem_cons_of_mem w hv)
      refine ⟨d, ?_, hends⟩
      have hne : ¬ w = v := fun e => hw (e ▸ hv)
      have hv' : (g.wires.erase w).get? v = g.wires.get? v := by
        rw [Arena.get?_erase, if_neg hne]
      exact hv'.trans hd

/-- Wires without ends leave the graph together. -/
theorem without_of_loose {g : Graph} (hs : Synced g) {gone : WireKey → Bool}
    (hlive : ∀ w, gone w → w ∈ g.links)
    (hloose : ∀ w, gone w → ∃ c, g.wire? w = some c ∧ c.source = none ∧ c.target = none) :
    Without g ((g.links.filter gone).foldl dropWire
      { g with links := g.links.filter fun w => !gone w }) gone := by
  have hdrop := foldl_dropWire_of_loose (hs.nodup.filter gone)
    (g := { g with links := g.links.filter fun w => !gone w })
    fun w hw => hloose w (List.mem_filter.1 hw).2
  have hwire (w : WireKey) : ((g.links.filter gone).foldl Arena.erase g.wires).get? w =
      if gone w then none else g.wire? w := by
    rw [Arena.get?_foldl_erase]
    by_cases hg : gone w = true
    · simp [hg, hlive w hg]
    · simp [hg]; rfl
  have hends (w : WireKey) (h : gone w) : g.sourceOf? w = none ∧ g.targetOf? w = none := by
    obtain ⟨c, hc, hs, ht⟩ := hloose w h
    simp [sourceOf?, targetOf?, hc, hs, ht]
  rw [hdrop]
  refine ⟨⟨fun _ => rfl, fun _ => rfl, rfl, rfl⟩, ?_, rfl, hwire⟩
  refine hs.unlist (fun _ => rfl) rfl ?_ ?_ hends
  · intro w
    simp only [sourceOf?, Graph.wire?] at hwire hends ⊢
    rw [hwire w]
    split
    · next h => rw [(hends w h).1]; rfl
    · rfl
  · intro w
    simp only [targetOf?, Graph.wire?] at hwire hends ⊢
    rw [hwire w]
    split
    · next h => rw [(hends w h).2]; rfl
    · rfl

end Graph
end Patchbay
