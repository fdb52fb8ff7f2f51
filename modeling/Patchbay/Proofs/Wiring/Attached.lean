import Patchbay.Proofs.Wiring.Members
/-!
# Pins that know their wires

A wire is used along its pins: whoever looks for it asks the output at which it begins and the input
at which it ends. Even among wires that lead where no wire should, an output does not forget a wire
that begins at it. An input knows the wire that ends at it as long as no wire begins at an input.

## Main definitions

* `Graph.Loosens`: wires lose ends, and pins forget only wires that have lost them.
* `Graph.Attached`: an output knows the wires that begin at it.
* `Graph.Fed`: an input knows the wire that ends at it.

## Main statements

* `Graph.Attached.connect`, `Graph.Fed.connect`: a new wire is known at both ends.
* `Graph.loosens_removeWire`, `Graph.loosens_removeNode`: what goes is forgotten, and nothing else.
-/
namespace Patchbay

/-- An input knows one wire, and an output knows many. -/
def Pin.Knows (p : Pin) : Side → WireKey → Prop
  | .input, w => p.incoming = some w
  | .output, w => w ∈ p.outgoing

namespace Pin
variable {p q : Pin} {s : Side} {v w : WireKey}

theorem knows_congr (h : p.bare = q.bare) : p.Knows s w ↔ q.Knows s w := by
  obtain ⟨-, -, -, -, -, hi, ho⟩ := of_bare_eq h
  cases s
  · exact iff_of_eq (congrArg (· = some w) hi)
  · exact iff_of_eq (congrArg (w ∈ ·) ho)

/-- Only the wire that is detached is forgotten. -/
theorem knows_detach (h : p.Knows s v) (hv : v ≠ w) : (p.detach s w).Knows s v := by
  cases s with
  | input =>
    have h : p.incoming = some v := h
    simp only [detach, h, Option.some.injEq, if_neg hv]
    exact h
  | output => exact List.mem_filter.2 ⟨h, decide_eq_true hv⟩

/-- An output forgets no wire when another one is attached to it. -/
theorem knows_attach_output (h : p.Knows .output v) : (p.attach .output w).Knows .output v := by
  simp only [attach]
  split
  · exact h
  · exact List.mem_append_left _ h

end Pin

namespace Graph

/-! ### Wires that lose ends -/

/-- Wires lose ends, and pins forget only wires that have lost them. -/
structure Loosens (g h : Graph) : Prop where
  source : ∀ {w r}, h.sourceOf? w = some r → g.sourceOf? w = some r
  target : ∀ {w r}, h.targetOf? w = some r → g.targetOf? w = some r
  pin : ∀ {r p}, h.pin? r = some p → ∃ q, g.pin? r = some q ∧ ∀ w, q.Knows r.side w →
    p.Knows r.side w ∨ h.sourceOf? w ≠ some r ∧ h.targetOf? w ≠ some r

namespace Loosens
variable {g h l : Graph}

@[simp] protected theorem refl (g : Graph) : Loosens g g :=
  ⟨fun hw => hw, fun hw => hw, fun hp => ⟨_, hp, fun _ => .inl⟩⟩

protected theorem trans (a : Loosens g h) (b : Loosens h l) : Loosens g l := by
  refine ⟨fun hw => a.source (b.source hw), fun hw => a.target (b.target hw), fun {r p} hp => ?_⟩
  obtain ⟨q, hq, hqp⟩ := b.pin hp
  obtain ⟨q', hq', hqq⟩ := a.pin hq
  refine ⟨q', hq', fun w hw => ?_⟩
  rcases hqq w hw with hw | ⟨hs, ht⟩
  · exact hqp w hw
  · exact .inr ⟨fun h => hs (b.source h), fun h => ht (b.target h)⟩

theorem foldl {α : Type} {f : Graph → α → Graph} (hf : ∀ g x, Loosens g (f g x)) (xs : List α)
    (g : Graph) : Loosens g (xs.foldl f g) := by
  induction xs generalizing g with
  | nil => exact .refl g
  | cons x xs ih => exact (hf g x).trans (ih (f g x))

/-- Nothing is lost as long as the pins and the wires are the same. -/
theorem of_eq (hnodes : h.nodes = g.nodes) (hwires : h.wires = g.wires) : Loosens g h := by
  refine ⟨fun hw => ?_, fun hw => ?_, fun {r p} hp => ⟨p, ?_, fun _ => .inl⟩⟩
  · simpa only [sourceOf?, wire?, hwires] using hw
  · simpa only [targetOf?, wire?, hwires] using hw
  · simpa only [pin?, node?, hnodes] using hp

end Loosens

theorem SameWiring.loosens {g h : Graph} (a : SameWiring g h) : Loosens g h := by
  refine ⟨fun hw => (a.sourceOf? _).symm.trans hw, fun hw => (a.targetOf? _).symm.trans hw,
    fun {r p} hp => ?_⟩
  obtain ⟨q, hq, hb⟩ := a.pin? hp
  exact ⟨q, hq, fun w hw => .inl ((Pin.knows_congr hb).1 hw)⟩

/-- A wire without ends can be forgotten by every pin. -/
theorem loosens_of_ends {g h : Graph} {w : WireKey} (hs : h.sourceOf? w = none)
    (ht : h.targetOf? w = none) (hwire : ∀ v, v ≠ w → h.wire? v = g.wire? v)
    (hpin : ∀ {r p}, h.pin? r = some p → ∃ q, g.pin? r = some q ∧
      ∀ v, v ≠ w → q.Knows r.side v → p.Knows r.side v) : Loosens g h := by
  refine ⟨fun {v r} hv => ?_, fun {v r} hv => ?_, fun {r p} hp => ?_⟩
  · by_cases hvw : v = w
    · rw [hvw, hs] at hv
      cases hv
    · rwa [sourceOf?, hwire v hvw] at hv
  · by_cases hvw : v = w
    · rw [hvw, ht] at hv
      cases hv
    · rwa [targetOf?, hwire v hvw] at hv
  · obtain ⟨q, hq, hqp⟩ := hpin hp
    refine ⟨q, hq, fun v hv => ?_⟩
    by_cases hvw : v = w
    · rw [hvw, hs, ht]
      exact .inr ⟨(Option.some_ne_none r).symm, (Option.some_ne_none r).symm⟩
    · exact .inl (hqp v hvw hv)

/-- A pin from which a wire is detached forgets that wire only. -/
theorem knows_of_detachEnd {g : Graph} {e : Option PinRef} {w : WireKey} {r : PinRef} {p : Pin}
    (hp : (g.detachEnd e w).pin? r = some p) :
    ∃ q, g.pin? r = some q ∧ ∀ v, v ≠ w → q.Knows r.side v → p.Knows r.side v := by
  rw [pin?_detachEnd] at hp
  split at hp
  · obtain ⟨q, hq, rfl⟩ := Option.map_eq_some_iff.1 hp
    exact ⟨q, hq, fun v hvw hv => Pin.knows_detach hv hvw⟩
  · exact ⟨p, hp, fun _ _ hv => hv⟩

theorem loosens_disconnect (g : Graph) (w : WireKey) : Loosens g (g.disconnect w) := by
  refine loosens_of_ends ((sourceOf?_disconnect g w w).trans (if_pos rfl))
    ((targetOf?_disconnect g w w).trans (if_pos rfl))
    (fun v hv => (wire?_disconnect g w v).trans (if_neg (Ne.symm hv))) fun {r p} hp => ?_
  simp only [disconnect] at hp
  split at hp
  · exact ⟨p, hp, fun _ _ hv => hv⟩
  · next c _ =>
    obtain ⟨q, hq, hqp⟩ := knows_of_detachEnd hp
    split at hq
    · exact ⟨q, hq, hqp⟩
    · next t _ =>
      have hdetach {q' : Pin} (hq' : (g.detach t w).pin? r = some q')
          (hqq : ∀ v, q'.Knows r.side v → q.Knows r.side v) :
          ∃ q₀, g.pin? r = some q₀ ∧ ∀ v, v ≠ w → q₀.Knows r.side v → p.Knows r.side v := by
        obtain ⟨q₀, hq₀, hknows⟩ := knows_of_detachEnd (e := some t) hq'
        exact ⟨q₀, hq₀, fun v hvw hv => hqp v hvw (hqq v (hknows v hvw hv))⟩
      split at hq
      · obtain ⟨q', hq', hb⟩ :=
          (sameWiring_modifyPin (g.detach t w) t Pin.bare_reset).pin? hq
        exact hdetach hq' fun v hv => (Pin.knows_congr hb).1 hv
      · exact hdetach hq fun v hv => hv

theorem loosens_dropWire (g : Graph) (w : WireKey) : Loosens g (g.dropWire w) := by
  cases hw : g.wire? w with
  | none =>
    rw [dropWire, hw]
    exact .refl g
  | some c =>
    have hwire (v : WireKey) : (g.dropWire w).wire? v = if w = v then none else g.wire? v := by
      rw [dropWire, hw]
      refine (Arena.get?_erase _ w v).trans ?_
      rw [← wire?, wire?_detachEnd, wire?_detachEnd]
    refine loosens_of_ends (by rw [sourceOf?, hwire, if_pos rfl]; rfl)
      (by rw [targetOf?, hwire, if_pos rfl]; rfl)
      (fun v hv => (hwire v).trans (if_neg (Ne.symm hv))) fun {r p} hp => ?_
    rw [dropWire, hw] at hp
    obtain ⟨q, hq, hqp⟩ := knows_of_detachEnd (e := c.target) hp
    obtain ⟨q', hq', hqq⟩ := knows_of_detachEnd hq
    exact ⟨q', hq', fun v hvw hv => hqp v hvw (hqq v hvw hv)⟩

theorem loosens_forgetPin (g : Graph) (r : PinRef) (w : WireKey) :
    Loosens g (g.forgetPin r w) := by
  have hwire (v : WireKey) : (g.forgetPin r w).wire? v = _ := wire?_modifyWire g w v _
  refine ⟨fun {v e} hv => ?_, fun {v e} hv => ?_, fun hp => ⟨_, hp, fun _ => .inl⟩⟩
  · rw [sourceOf?, hwire] at hv
    split at hv
    · rw [Option.bind_map] at hv
      obtain ⟨c, hc, hcs⟩ := Option.bind_eq_some_iff.1 hv
      refine Option.bind_eq_some_iff.2 ⟨c, hc, ?_⟩
      simp only [Function.comp_apply] at hcs
      split at hcs
      · cases hcs
      · exact hcs
    · exact hv
  · rw [targetOf?, hwire] at hv
    split at hv
    · rw [Option.bind_map] at hv
      obtain ⟨c, hc, hct⟩ := Option.bind_eq_some_iff.1 hv
      refine Option.bind_eq_some_iff.2 ⟨c, hc, ?_⟩
      simp only [Function.comp_apply] at hct
      split at hct
      · cases hct
      · exact hct
    · exact hv

theorem loosens_releasePin (g : Graph) (r : PinRef) : Loosens g (g.releasePin r) := by
  simp only [releasePin]
  split
  · exact .foldl (fun g w => loosens_forgetPin g r w) _ g
  · exact .refl g

/-! ### What goes is forgotten -/

theorem loosens_dropNode (g : Graph) (k : NodeKey) : Loosens g (g.dropNode k) := by
  have hrelease := (sameWiring_leaveAnyGroup g k).loosens.trans (.foldl loosens_releasePin
    ((g.leaveAnyGroup k).pinRefs k .input ++ (g.leaveAnyGroup k).pinRefs k .output) _)
  rw [dropNode]
  generalize ((g.leaveAnyGroup k).pinRefs k .input ++ (g.leaveAnyGroup k).pinRefs k .output).foldl
    releasePin (g.leaveAnyGroup k) = l at hrelease ⊢
  refine hrelease.trans ⟨fun hw => hw, fun hw => hw, fun {r p} hp => ⟨p, ?_, fun _ => .inl⟩⟩
  rw [pin?, node?_eraseNode] at hp
  split at hp
  · cases hp
  · exact hp

theorem loosens_removeWire (g : Graph) (w : WireKey) : Loosens g (g.removeWire w).2 := by
  simp only [removeWire]
  split
  · refine (loosens_disconnect g w).trans (.trans ?_ (loosens_dropWire _ w))
    exact .of_eq rfl rfl
  · exact .refl g

theorem loosens_freeInput (g : Graph) (t : PinRef) : Loosens g (g.freeInput t) := by
  simp only [freeInput]
  split
  · split
    · exact loosens_removeWire g _
    · exact loosens_disconnect g _
  · exact .refl g

theorem loosens_disconnectTouching (g : Graph) (k : NodeKey) :
    Loosens g (g.disconnectTouching k) := by
  refine .foldl (fun g w => ?_) g.links g
  split
  · exact loosens_disconnect g w
  · exact .refl g

/-- Once the wires at a member are taken off their pins, no wire gets an end before it is gone. -/
theorem loosens_removeNode_of_contains {g : Graph} {k : NodeKey} (hk : g.contains k = true) :
    Loosens (g.disconnectTouching k) (g.removeNode k).2 := by
  have hdrop (h : Graph) : Loosens h (h.dropTouching k) := by
    refine .trans ?_ (.foldl loosens_dropWire _ _)
    exact .of_eq rfl rfl
  obtain ⟨n, hn, -⟩ := (Option.any_eq_true _ _).1 hk
  simp only [removeNode, hn, hk, if_true]
  refine .trans ?_ (loosens_dropNode _ k)
  refine (hdrop _).trans ((sameWiring_leaveAnyGroup _ k).loosens.trans ?_)
  split <;> exact .of_eq rfl rfl

theorem loosens_removeNode (g : Graph) (k : NodeKey) : Loosens g (g.removeNode k).2 := by
  cases hk : g.contains k with
  | true => exact (loosens_disconnectTouching g k).trans (loosens_removeNode_of_contains hk)
  | false =>
    rw [removeNode_of_not_contains hk]
    exact .refl g

/-! ### Wires that are known -/

/-- An output knows the wires that begin at it. -/
def Attached (g : Graph) : Prop :=
  ∀ ⦃w r p⦄, g.sourceOf? w = some r → r.side = .output → g.pin? r = some p → w ∈ p.outgoing

/-- No wire begins at an input, and an input knows the wire that ends at it. -/
structure Fed (g : Graph) : Prop where
  source_side : ∀ {w r}, g.sourceOf? w = some r → r.side = .output
  incoming : ∀ {w r p}, g.targetOf? w = some r → r.side = .input → g.pin? r = some p →
    p.incoming = some w

section Losing
variable {g h : Graph}

/-- Outputs still know their wires after other wires have gone. -/
theorem Attached.loosens (hg : Attached g) (a : Loosens g h) : Attached h := by
  intro w r p hw hr hp
  obtain ⟨q, hq, hqp⟩ := a.pin hp
  have hknown : q.Knows r.side w := by
    rw [hr]
    exact hg (a.source hw) hr hq
  rcases hqp w hknown with hknown | ⟨hs, -⟩
  · rwa [hr] at hknown
  · exact absurd hw hs

/-- Inputs still know their wires after other wires have gone. -/
theorem Fed.loosens (hg : Fed g) (a : Loosens g h) : Fed h := by
  refine ⟨fun hw => hg.source_side (a.source hw), fun {w r p} hw hr hp => ?_⟩
  obtain ⟨q, hq, hqp⟩ := a.pin hp
  have hknown : q.Knows r.side w := by
    rw [hr]
    exact hg.incoming (a.target hw) hr hq
  rcases hqp w hknown with hknown | ⟨-, ht⟩
  · rwa [hr] at hknown
  · exact absurd hw ht

end Losing

/-! ### Wires that get ends -/

section Ends
variable {g h : Graph} {e : PinRef} {w : WireKey} {c : Wire}

/-- A wire that begins or ends at a pin is attached there. -/
theorem Attached.attach (hg : Attached g)
    (hpin : ∀ r, h.pin? r = if e = r then (g.pin? r).map (·.attach r.side w) else g.pin? r)
    (hsource : ∀ {v r}, h.sourceOf? v = some r → g.sourceOf? v = some r ∨ v = w ∧ r = e) :
    Attached h := by
  intro v r p hv hr hp
  rw [hpin] at hp
  split at hp
  · obtain ⟨q, hq, rfl⟩ := Option.map_eq_some_iff.1 hp
    rw [hr]
    rcases hsource hv with hv | ⟨rfl, -⟩
    · exact Pin.knows_attach_output (hg hv hr hq)
    · exact Pin.mem_outgoing_attach q v
  · next he =>
    rcases hsource hv with hv | ⟨-, rfl⟩
    · exact hg hv hr hp
    · exact absurd rfl he

/-- A wire that begins at an output, or ends at an input at which no other wire ends, is attached
there. -/
theorem Fed.attach (hg : Fed g)
    (hpin : ∀ r, h.pin? r = if e = r then (g.pin? r).map (·.attach r.side w) else g.pin? r)
    (hsource : ∀ {v r}, h.sourceOf? v = some r → r.side = .output)
    (htarget : ∀ {v r p}, h.targetOf? v = some r → r.side = .input → g.pin? r = some p →
      g.targetOf? v = some r ∧ r ≠ e ∨ v = w ∧ r = e) : Fed h := by
  refine ⟨hsource, fun {v r p} hv hr hp => ?_⟩
  rw [hpin] at hp
  split at hp
  · next he =>
    obtain ⟨q, hq, rfl⟩ := Option.map_eq_some_iff.1 hp
    rcases htarget hv hr hq with ⟨-, hne⟩ | ⟨rfl, -⟩
    · exact absurd he.symm hne
    · rw [hr]
      rfl
  · next he =>
    rcases htarget hv hr hp with ⟨hv, -⟩ | ⟨-, rfl⟩
    · exact hg.incoming hv hr hp
    · exact absurd rfl he

/-- A wire gets a source. -/
structure Sourced (g h : Graph) (w : WireKey) (s : PinRef) : Prop where
  pin : ∀ r, h.pin? r = if s = r then (g.pin? r).map (·.attach r.side w) else g.pin? r
  source : ∀ v, h.sourceOf? v = if v = w then some s else g.sourceOf? v
  target : ∀ v, h.targetOf? v = g.targetOf? v
  live : (h.wire? w).isSome = true
  links : h.links = g.links

theorem sourced_setSource (hw : g.wire? w = some c) (hc : c.source = none) (s : PinRef) :
    Sourced g (g.setSource w (some s)) w s := by
  rw [setSource_of_none hw hc]
  refine ⟨fun r => by rw [pin?_attach, pin?_modifyWire], fun v => ?_, fun v => ?_, ?_, rfl⟩
  on_goal 3 => simp [attach, wire?_modifyWire, hw]
  all_goals
    simp only [sourceOf?, targetOf?, attach, wire?_modifyPin, wire?_modifyWire]
    by_cases hv : w = v
    · subst hv
      simp [hw]
    · simp [hv, Ne.symm hv]

/-- A wire gets a target. -/
structure Targeted (g h : Graph) (w : WireKey) (t : PinRef) : Prop where
  pin : ∀ r, h.pin? r = if t = r then (g.pin? r).map (·.attach r.side w) else g.pin? r
  source : ∀ v, h.sourceOf? v = g.sourceOf? v
  target : ∀ v, h.targetOf? v = if v = w then some t else g.targetOf? v
  links : h.links = g.links

theorem targeted_setTarget (hw : g.wire? w = some c) (hc : c.target = none) (t : PinRef) :
    Targeted g (g.setTarget w (some t)) w t := by
  rw [setTarget_of_none hw hc]
  refine ⟨fun r => by rw [pin?_attach, pin?_modifyWire], fun v => ?_, fun v => ?_, rfl⟩
  all_goals
    simp only [sourceOf?, targetOf?, attach, wire?_modifyPin, wire?_modifyWire]
    by_cases hv : w = v
    · subst hv
      simp [hw]
    · simp [hv, Ne.symm hv]

theorem Attached.sourced {s : PinRef} (hg : Attached g) (a : Sourced g h w s) : Attached h := by
  refine hg.attach a.pin fun {v r} hv => ?_
  rw [a.source] at hv
  split at hv
  · next hvw => exact .inr ⟨hvw, (Option.some.inj hv).symm⟩
  · exact .inl hv

theorem Attached.targeted {t : PinRef} (hg : Attached g) (a : Targeted g h w t) : Attached h :=
  hg.attach a.pin fun hv => .inl ((a.source _).symm.trans hv)

theorem Fed.sourced {s : PinRef} (hg : Fed g) (a : Sourced g h w s) (hs : s.side = .output) :
    Fed h := by
  refine hg.attach a.pin (fun {v r} hv => ?_)
    fun {v r _} hv hr _ => .inl ⟨(a.target v).symm.trans hv, ?_⟩
  · rw [a.source] at hv
    split at hv
    · exact Option.some.inj hv ▸ hs
    · exact hg.source_side hv
  · rintro rfl
    rw [hs] at hr
    cases hr

theorem Fed.targeted {t : PinRef} (hg : Fed g) (a : Targeted g h w t)
    (hfree : t.side = .input → ∀ {p}, g.pin? t = some p → ∀ v, g.targetOf? v ≠ some t) : Fed h := by
  refine hg.attach a.pin (fun hv => hg.source_side ((a.source _).symm.trans hv))
    fun {v r _} hv hr hp => ?_
  rw [a.target] at hv
  split at hv
  · next hvw => exact .inr ⟨hvw, (Option.some.inj hv).symm⟩
  · exact .inl ⟨hv, fun e => hfree (e ▸ hr) (e ▸ hp) v (e ▸ hv)⟩

/-- No wire ends at an input that was freed. -/
theorem Fed.targetOf?_freeInput {t : PinRef} {p : Pin} (hg : Fed g) (ht : t.side = .input)
    (hp : g.pin? t = some p) (v : WireKey) : (g.freeInput t).targetOf? v ≠ some t := by
  intro hv
  -- only the wire that the input knows could end there, and that one was taken off its pins
  have hknown : p.incoming = some v := hg.incoming ((loosens_freeInput g t).target hv) ht hp
  have hnone : (g.disconnect v).targetOf? v = none :=
    (targetOf?_disconnect g v v).trans (if_pos rfl)
  have hloosens : Loosens (g.disconnect v) (g.freeInput t) := by
    simp only [freeInput, hp, Option.bind_some, hknown]
    split
    · next hmem =>
      simp only [removeWire, hmem, if_true]
      refine .trans ?_ (loosens_dropWire _ v)
      exact .of_eq rfl rfl
    · exact .refl _
  rw [hloosens.target hv] at hnone
  cases hnone

/-- A new wire is joined to its two pins, one after the other, and then a value passes. -/
theorem exists_joinPins (g : Graph) (s t : PinRef) : ∃ g₁ g₂ g₃, (∀ r, g₁.pin? r = g.pin? r) ∧
    Loosens g g₁ ∧ Sourced g₁ g₂ g.wires.next s ∧ Targeted g₂ g₃ g.wires.next t ∧
      (g.joinPins s t).2 = g₃.transfer g.wires.next := by
  let c : Wire := { id := g.freshId.1, sourceId := g.pinIdOr s "", targetId := g.pinIdOr t "" }
  let g₁ : Graph := { g.freshId.2 with wires := g.wires.push c }
  have hwire (v : WireKey) : g₁.wire? v = if v = g.wires.next then some c else g.wire? v :=
    Arena.get?_push g.wires c v
  have hw : g₁.wire? g.wires.next = some c := (hwire _).trans (if_pos rfl)
  have hsource := sourced_setSource hw rfl s
  obtain ⟨d, hd⟩ := Option.isSome_iff_exists.1 hsource.live
  have hdt : d.target = none := by
    have h := hsource.target g.wires.next
    rwa [targetOf?, targetOf?, hd, hw, Option.bind_some, Option.bind_some] at h
  refine ⟨g₁, _, _, fun _ => rfl, ⟨fun {v r} hv => ?_, fun {v r} hv => ?_,
    fun hp => ⟨_, hp, fun _ => .inl⟩⟩, hsource, targeted_setTarget hd hdt t, rfl⟩
  · rw [sourceOf?, hwire] at hv
    split at hv
    · cases hv
    · exact hv
  · rw [targetOf?, hwire] at hv
    split at hv
    · cases hv
    · exact hv

theorem Attached.connect (hg : Attached g) (s t : PinRef) : Attached (g.connect s t).2 := by
  simp only [Graph.connect]
  split
  · exact hg
  · obtain ⟨g₁, g₂, g₃, -, h₁, h₂, h₃, heq⟩ := exists_joinPins (g.freeInput t) s t
    have h₄ := heq ▸ (sameWiring_transfer g₃ (g.freeInput t).wires.next).loosens
    have hjoined := ((((hg.loosens (loosens_freeInput g t)).loosens h₁).sourced h₂).targeted
      h₃).loosens h₄
    exact hjoined.loosens (.of_eq rfl rfl)

theorem Fed.connect (hg : Fed g) (s t : PinRef) : Fed (g.connect s t).2 := by
  simp only [Graph.connect]
  split
  · exact hg
  · next hr =>
    obtain ⟨p, q, -, hq, -, -, hs, ht, -⟩ := of_not_refused hr
    obtain ⟨g₁, g₂, g₃, -, h₁, h₂, h₃, heq⟩ := exists_joinPins (g.freeInput t) s t
    have h₄ := heq ▸ (sameWiring_transfer g₃ (g.freeInput t).wires.next).loosens
    have hsourced := ((hg.loosens (loosens_freeInput g t)).loosens h₁).sourced h₂ hs
    have hjoined := hsourced.targeted h₃ fun _ _ _ v hv =>
      hg.targetOf?_freeInput ht hq v (h₁.target ((h₂.target v).symm.trans hv))
    exact (hjoined.loosens h₄).loosens (.of_eq rfl rfl)

end Ends

end Graph
end Patchbay
