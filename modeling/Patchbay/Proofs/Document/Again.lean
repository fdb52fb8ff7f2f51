import Patchbay.Proofs.Document.Gathered
import Patchbay.Proofs.Run.Values
/-!
# Relinking twice

Relinking looks up what a graph stores by id. When it is done a second time, the groups have
members, the wires have ends and the inputs have values. All of that is found again as it is,
however often an id occurs, as long as the ids that a wire keeps lead from an output to an input. A
wire that found its input taken finds it taken again, by the same wire.

## Main definitions

* `Graph.Directed`: the ids that a wire keeps lead from an output to an input.
* `Graph.Oriented`: all wires of a graph do so.
* `Graph.Found`: a wire has the ends that relinking finds for it.
* `Graph.Relinked`: all that relinking restores is in its place.
* `Graph.Assembled`: the graphs that come about when parts are added that know each other by id.

## Main statements

* `Graph.Linking.step`, `Graph.Linking.run`: wires are found one after the other.
* `Graph.Unresolved.relinked`: relinking puts all into its place.
* `Graph.Relinked.relink`: relinking changes nothing where all is in its place.
* `Graph.Assembled.relink_relink`: relinking twice is relinking once.
-/
namespace Patchbay

/-! ### Values that pass once -/

/-- The pin with the value that it is given, if it is given one. -/
def Pin.take (v : Option Value) (p : Pin) : Pin := v.elim p p.assign

namespace Pin
variable {p : Pin}

@[simp] theorem take_none (p : Pin) : p.take none = p := rfl

@[simp] theorem incoming_take (p : Pin) (v : Option Value) :
    (p.take v).incoming = p.incoming := by
  cases v with
  | none => rfl
  | some v => exact (of_bare_eq (bare_assign p v)).2.2.2.2.2.1

/-- A value that was taken is taken again without a change. -/
@[simp] theorem take_take (p : Pin) (v : Option Value) : (p.take v).take v = p.take v := by
  cases v with
  | none => rfl
  | some v => cases h : p.flow <;> simp [take, assign, h]

@[simp] theorem datum?_attach (p : Pin) (s : Side) (w : WireKey) :
    (p.attach s w).datum? = p.datum? := by
  cases s with
  | input => rfl
  | output => simp only [attach]; split <;> rfl

theorem datum?_take (p : Pin) (v : Option Value) : (p.take v).datum? = p.datum?.map v.getD := by
  cases v with
  | none => cases h : p.datum? <;> simp [h]
  | some v => cases h : p.flow <;> simp [take, assign, h]

end Pin

namespace Graph
variable {g h u : Graph} {index : Dict PinRef} {v w : WireKey} {c : Wire}

/-! ### What relinking leaves as it is -/

theorem sameShell_setSource (g : Graph) (w : WireKey) (r : Option PinRef) :
    SameShell g (g.setSource w r) := by
  simp only [setSource]
  split
  · exact .refl g
  · split
    · exact .refl g
    · next c _ _ =>
      refine (sameShell_detachEnd g c.source w).trans ?_
      split
      · exact sameShell_modifyWire _ w _
      · exact (sameShell_modifyWire _ w _).trans (sameShell_attach _ _ w)

theorem sameShell_setTarget (g : Graph) (w : WireKey) (r : Option PinRef) :
    SameShell g (g.setTarget w r) := by
  simp only [setTarget]
  split
  · exact .refl g
  · split
    · exact .refl g
    · next c _ _ =>
      refine (sameShell_detachEnd g c.target w).trans ?_
      split
      · exact sameShell_modifyWire _ w _
      · exact (sameShell_modifyWire _ w _).trans (sameShell_attach _ _ w)

theorem sameShell_relinkWire (index : Dict PinRef) (g : Graph) (w : WireKey) :
    SameShell g (relinkWire index g w).1 := by
  simp only [relinkWire]
  split
  · exact .refl g
  · exact ((sameShell_setSource g w _).trans (sameShell_setTarget _ w _)).trans
      (sameWiring_transfer _ w).sameShell

theorem sameShell_relinkWires (index : Dict PinRef) (g : Graph) (ws : List WireKey) :
    SameShell g (relinkWires index g ws).1 := by
  induction ws generalizing g with
  | nil => exact .refl g
  | cons w ws ih => exact (sameShell_relinkWire index g w).trans (ih _)

namespace SameShell

theorem map_id (a : SameShell g h) (r : PinRef) :
    (h.pin? r).map (·.id) = (g.pin? r).map (·.id) := by
  have hr := congrArg (Option.map Pin.id) (a.pins r)
  rwa [Option.map_map, Option.map_map] at hr

theorem pinRefs (a : SameShell g h) (k : NodeKey) (s : Side) : h.pinRefs k s = g.pinRefs k s := by
  let count (l : Graph) : Nat := ((l.node? k).map fun n => (n.pins s).length).getD 0
  have hrefs (l : Graph) : l.pinRefs k s = (List.range (count l)).map (⟨k, s, ·⟩) := by
    simp only [Graph.pinRefs, count]
    cases l.node? k <;> rfl
  have hcount (l : Graph) (i : Nat) : i < count l ↔ (l.pin? ⟨k, s, i⟩).isSome = true := by
    simp only [count, Graph.pin?]
    cases l.node? k <;> simp [Node.pin?]
  have hsame (i : Nat) : i < count h ↔ i < count g := by
    have hr := congrArg Option.isSome (a.pins ⟨k, s, i⟩)
    rw [Option.isSome_map, Option.isSome_map] at hr
    rw [hcount, hcount, hr]
  have heq : count h = count g := by
    have hh := hsame (count h)
    have hg := hsame (count g)
    omega
  rw [hrefs, hrefs, heq]

/-- The same pins are found under the same ids. -/
theorem pinIndex (a : SameShell g h) : h.pinIndex = g.pinIndex := by
  have hid : (fun r => (h.pin? r).map (·.id)) = fun r => (g.pin? r).map (·.id) := funext a.map_id
  simp only [pinIndex_eq, a.members, a.pinRefs, hid]

end SameShell

/-! ### Transfers -/

theorem modifyPin_eq_self {r : PinRef} {f : Pin → Pin} (h : ∀ p, g.pin? r = some p → f p = p) :
    g.modifyPin r f = g := by
  refine modifyNode_eq_self fun n hn => ?_
  have hlist {ps : List Pin} (hps : n.pins r.side = ps) : ps.modify r.index f = ps := by
    refine List.ext_getElem? fun i => ?_
    rw [List.getElem?_modify]
    split
    · next hi =>
      subst hi
      cases hp : ps[r.index]? with
      | none => rfl
      | some p => exact congrArg some (h p (by simp [pin?, hn, Node.pin?, hps, hp]))
    · simp
  obtain ⟨k, s, i⟩ := r
  cases s with
  | input => exact congrArg (fun inputs => ({ n with inputs } : Node)) (hlist rfl)
  | output => exact congrArg (fun outputs => ({ n with outputs } : Node)) (hlist rfl)

/-- A transfer gives the target of a wire the value at its source. -/
theorem transfer_eq (hw : g.wire? w = some c) : g.transfer w =
    match c.target with
    | some t => g.modifyPin t (Pin.take (c.source.bind g.datum?))
    | none => g := by
  obtain ⟨id, sourceId, targetId, source, target⟩ := c
  have hnothing (t : PinRef) : g.modifyPin t (Pin.take none) = g := modifyPin_eq_self fun _ _ => rfl
  cases target with
  | none => cases source <;> simp only [transfer, hw]
  | some t =>
    cases source with
    | none => simp only [transfer, hw, Option.bind_none, hnothing]
    | some s =>
      simp only [transfer, hw, Option.bind_some, datum?]
      cases hp : g.pin? s with
      | none => exact (hnothing t).symm
      | some p =>
        cases hf : p.flow with
        | true => simp [hf, hnothing]
        | false => simp [hf]; rfl

theorem pin?_transfer_eq (hw : g.wire? w = some c) (r : PinRef) : (g.transfer w).pin? r =
    if c.target = some r then (g.pin? r).map (Pin.take (c.source.bind g.datum?)) else g.pin? r := by
  rw [transfer_eq hw]
  cases c.target with
  | none => rfl
  | some t => simp only [pin?_modifyPin, Option.some.injEq]

/-! ### Ends that are found -/

/-- The pin at which a wire is to end, unless another wire feeds it. -/
def targetFor? (index : Dict PinRef) (g : Graph) (w : WireKey) (c : Wire) : Option PinRef :=
  (index.get? c.targetId).filter fun t => (g.feederOf? w t).isNone

theorem get?_of_targetFor? {t : PinRef} (h : targetFor? index g w c = some t) :
    index.get? c.targetId = some t ∧ g.feederOf? w t = none := by
  obtain ⟨ht, hfree⟩ := Option.filter_eq_some_iff.1 h
  exact ⟨ht, Option.isNone_iff_eq_none.1 hfree⟩

/-- An input is free for a wire if it knows no other one. -/
theorem feederOf?_eq_none_iff {t : PinRef} {p : Pin} (ht : t.side = .input)
    (hp : g.pin? t = some p) : g.feederOf? w t = none ↔ ∀ v, p.incoming = some v → v = w := by
  rw [feederOf?, if_pos ht, hp, Option.bind_some]
  cases p.incoming with
  | none => simp
  | some v => by_cases hv : v = w <;> simp [hv]

theorem relinkWire_eq (hw : g.wire? w = some c) : (relinkWire index g w).1 =
    ((g.setSource w (index.get? c.sourceId)).setTarget w (targetFor? index g w c)).transfer w := by
  simp only [relinkWire, hw, targetFor?]
  cases index.get? c.targetId with
  | none => rfl
  | some t => cases hf : g.feederOf? w t <;> simp [hf, Option.filter_some]

/-- The ids that a wire keeps are not those of pins on the wrong sides. -/
def Directed (index : Dict PinRef) (c : Wire) : Prop :=
  (∀ s ∈ index.get? c.sourceId, s.side = .output) ∧ ∀ t ∈ index.get? c.targetId, t.side = .input

instance (index : Dict PinRef) (c : Wire) : Decidable (Directed index c) :=
  inferInstanceAs (Decidable (_ ∧ _))

/-- The ids that the wires of the graph keep are not those of pins on the wrong sides. -/
def Oriented (g : Graph) : Prop := ∀ w ∈ g.links, ∀ c ∈ g.wire? w, Directed g.pinIndex c

instance (g : Graph) : Decidable g.Oriented :=
  inferInstanceAs (Decidable (∀ w ∈ g.links, ∀ c ∈ g.wire? w, Directed g.pinIndex c))

/-- Only pins are found, under the ids that they have. -/
def Indexes (index : Dict PinRef) (g : Graph) : Prop :=
  ∀ ⦃id r⦄, index.get? id = some r → (g.pin? r).map (·.id) = some id

/-- A wire has the ends that relinking finds for it, and its value has passed. -/
structure Found (index : Dict PinRef) (g : Graph) (w : WireKey) (c : Wire) : Prop where
  wire : g.wire? w = some c
  source : c.source = index.get? c.sourceId
  target : c.target = targetFor? index g w c
  taken : ∀ {t q}, c.target = some t → g.pin? t = some q →
    q.incoming = some w ∧ q.take (c.source.bind g.datum?) = q

/-- Relinking leaves a wire as it is that has the ends found for it. -/
theorem Found.relinkWire (hf : Found index g w c) : (relinkWire index g w).1 = g := by
  have hsource : g.setSource w (index.get? c.sourceId) = g := by
    simp only [setSource, hf.wire, hf.source, if_true]
  have htarget : g.setTarget w (targetFor? index g w c) = g := by
    simp only [setTarget, hf.wire, hf.target, if_true]
  rw [relinkWire_eq hf.wire, hsource, htarget, transfer_eq hf.wire]
  cases ht : c.target with
  | none => rfl
  | some t => exact modifyPin_eq_self fun q hq => (hf.taken ht hq).2

theorem relinkWires_of_found {ws : List WireKey} (hf : ∀ w ∈ ws, ∃ c, Found index g w c) :
    (relinkWires index g ws).1 = g := by
  induction ws with
  | nil => rfl
  | cons w ws ih =>
    obtain ⟨⟨c, hc⟩, hws⟩ := List.forall_mem_cons.1 hf
    simp only [relinkWires, hc.relinkWire, ih hws]

/-! ### Wires that are joined for the first time -/

/-- A wire without ends gets those that are found for it, and the value passes. -/
structure Resolves (g h : Graph) (w : WireKey) (c : Wire) (s t : Option PinRef) : Prop where
  wire : ∀ v, h.wire? v = if w = v then some { c with source := s, target := t } else g.wire? v
  datum : ∀ r, r.side = .output → h.datum? r = g.datum? r
  input : ∀ r, r.side = .input → t ≠ some r → h.pin? r = g.pin? r
  taken : ∀ {r q}, t = some r → h.pin? r = some q →
    q.incoming = some w ∧ q.take (s.bind h.datum?) = q
  given : ∀ {r}, t = some r → h.datum? r = (g.datum? r).map (s.bind g.datum?).getD

theorem resolves_of_loose {s t : Option PinRef} (hw : g.wire? w = some c) (hs : c.source = none)
    (ht : c.target = none) (hsid : ∀ r, s = some r → (g.pin? r).map (·.id) = some c.sourceId)
    (htid : ∀ r, t = some r → (g.pin? r).map (·.id) = some c.targetId)
    (hsout : ∀ r, s = some r → r.side = .output) (htin : ∀ r, t = some r → r.side = .input) :
    Resolves g (((g.setSource w s).setTarget w t).transfer w) w c s t := by
  obtain ⟨-, hwire₁, hpin₁⟩ := setSource_of_loose hw hs fun r hr => by
    rw [pinIdOr, hsid r hr, Option.getD_some]
  obtain ⟨-, hwire₂, hpin₂⟩ := setTarget_of_loose ((hwire₁ w).trans (if_pos rfl)) ht fun r hr => by
    rw [pinIdOr, (sameShell_setSource g w s).map_id, htid r hr, Option.getD_some]
  generalize g.setSource w s = g₁ at hwire₁ hpin₁ hwire₂ hpin₂
  generalize g₁.setTarget w t = g₂ at hwire₂ hpin₂
  have hwire (v : WireKey) : g₂.wire? v =
      if w = v then some { c with source := s, target := t } else g.wire? v := by
    rw [hwire₂, hwire₁]
    split <;> rfl
  have hpin₃ (r : PinRef) : (g₂.transfer w).pin? r =
      if t = some r then (g₂.pin? r).map (Pin.take (s.bind g₂.datum?)) else g₂.pin? r :=
    pin?_transfer_eq ((hwire w).trans (if_pos rfl)) r
  have hkept {r : PinRef} (hr : t ≠ some r) : (g₂.transfer w).pin? r = g₁.pin? r := by
    rw [hpin₃, if_neg hr, hpin₂, if_neg hr]
  have hout {r : PinRef} (hr : r.side = .output) : t ≠ some r := fun h => by
    rw [htin r h] at hr
    cases hr
  have hin {r : PinRef} (hr : r.side = .input) : g₁.pin? r = g.pin? r := by
    rw [hpin₁, if_neg fun h => ?_]
    rw [hsout r h] at hr
    cases hr
  have hdatum {l : Graph} {r : PinRef} (hl : l.pin? r = g₁.pin? r) : l.datum? r = g.datum? r := by
    rw [datum?, datum?, hl, hpin₁]
    cases g.pin? r <;> split <;> simp
  -- the source keeps its value while the target takes it
  have hsource {l : Graph} (hl : ∀ r, r.side = .output → l.pin? r = g₁.pin? r) :
      s.bind l.datum? = s.bind g.datum? := by
    cases s with
    | none => rfl
    | some s => exact hdatum (hl s (hsout s rfl))
  have hfilled {r : PinRef} (hr : t = some r) : (g₂.transfer w).pin? r =
      (g.pin? r).map fun p => (p.attach .input w).take (s.bind g.datum?) := by
    rw [hpin₃, if_pos hr, hsource fun r hr => (hpin₂ r).trans (if_neg (hout hr)), hpin₂, if_pos hr,
      hin (htin r hr), htin r hr, Option.map_map]
    rfl
  refine ⟨fun v => (wire?_transfer g₂ w v).trans (hwire v), fun r hr => hdatum (hkept (hout hr)),
    fun r hr hne => (hkept hne).trans (hin hr), fun {r q} hr hq => ?_, fun {r} hr => ?_⟩
  · rw [hfilled hr] at hq
    obtain ⟨p, -, rfl⟩ := Option.map_eq_some_iff.1 hq
    rw [hsource fun r hr => hkept (hout hr), Pin.incoming_take]
    exact ⟨rfl, Pin.take_take _ _⟩
  · rw [datum?, hfilled hr, datum?]
    cases g.pin? r <;> simp [Pin.datum?_take]

theorem resolves_relinkWire (hn : Indexes index g) (hw : g.wire? w = some c)
    (hs : c.source = none) (ht : c.target = none) (hd : Directed index c) :
    Resolves g (relinkWire index g w).1 w c (index.get? c.sourceId) (targetFor? index g w c) := by
  rw [relinkWire_eq hw]
  exact resolves_of_loose hw hs ht (fun _ hr => hn hr)
    (fun _ hr => hn (get?_of_targetFor? hr).1) hd.1
    fun r hr => hd.2 r (get?_of_targetFor? hr).1

/-- In the middle of relinking, the wires that had their turn are found, and no input knows another
one. -/
structure Linking (index : Dict PinRef) (g : Graph) (done : List WireKey) : Prop where
  indexes : Indexes index g
  known : ∀ {t p v}, t.side = .input → g.pin? t = some p → p.incoming = some v → v ∈ done
  found : ∀ v ∈ done, ∃ d, Found index g v d ∧ Directed index d

namespace Linking
variable {done : List WireKey}

/-- No wire that had its turn names the input that the next one gets. -/
theorem targetFor?_ne (hl : Linking index g done) (hw : w ∉ done) (hc : Directed index c)
    {t : PinRef} (ht : targetFor? index g w c = some t) {d : Wire} (hd : Found index g v d) :
    index.get? d.targetId ≠ some t := by
  intro htarget
  obtain ⟨hget, hfree⟩ := get?_of_targetFor? ht
  obtain ⟨p, hp, -⟩ := Option.map_eq_some_iff.1 (hl.indexes hget)
  have hside : t.side = .input := hc.2 t hget
  rw [feederOf?_eq_none_iff hside hp] at hfree
  have hempty (x : WireKey) : p.incoming ≠ some x := fun hx =>
    hw (hfree x hx ▸ hl.known hside hp hx)
  -- the input was free for the earlier wire too, which then feeds it
  have hfree' : g.feederOf? v t = none :=
    (feederOf?_eq_none_iff hside hp).2 fun x hx => absurd hx (hempty x)
  have htaken := hd.target
  rw [targetFor?, htarget, Option.filter_some, hfree', Option.isNone_none, if_pos rfl] at htaken
  exact hempty v (hd.taken htaken hp).1

/-- One more wire is found. -/
theorem step (hl : Linking index g done) (hw : w ∉ done) (hc : Directed index c)
    (a : SameShell g h)
    (j : Resolves g h w c (index.get? c.sourceId) (targetFor? index g w c)) :
    Linking index h (done ++ [w]) := by
  have hsame {d : Wire} {x : WireKey} (hd : Directed index d)
      (hne : ∀ t, index.get? d.targetId = some t → targetFor? index g w c ≠ some t) :
      targetFor? index h x d = targetFor? index g x d := by
    rw [targetFor?, targetFor?]
    cases ht : index.get? d.targetId with
    | none => rfl
    | some t => simp only [Option.filter_some, feederOf?, j.input t (hd.2 t ht) (hne t ht)]
  refine ⟨fun id r hr => (a.map_id r).trans (hl.indexes hr), fun {t p x} ht hp hx => ?_,
    fun x hx => ?_⟩
  · by_cases htw : targetFor? index g w c = some t
    · have hknown := (j.taken htw hp).1
      rw [Option.some.inj (hx.symm.trans hknown)]
      exact List.mem_append_right _ (List.mem_singleton_self w)
    · rw [j.input t ht htw] at hp
      exact List.mem_append_left _ (hl.known ht hp hx)
  · rcases List.mem_append.1 hx with hx | hx
    · obtain ⟨d, hd, hdir⟩ := hl.found x hx
      have hne (t : PinRef) (ht : index.get? d.targetId = some t) :
          targetFor? index g w c ≠ some t := fun e => hl.targetFor?_ne hw hc e hd ht
      have hxw : ¬ w = x := fun e => hw (e ▸ hx)
      refine ⟨d, ⟨(j.wire x).trans ((if_neg hxw).trans hd.wire), hd.source,
        hd.target.trans (hsame hdir hne).symm, fun {t q} ht hq => ?_⟩, hdir⟩
      have hget := (get?_of_targetFor? (hd.target.symm.trans ht)).1
      rw [j.input t (hdir.2 t hget) (hne t hget)] at hq
      have hgiven : d.source.bind h.datum? = d.source.bind g.datum? := by
        cases hs : d.source with
        | none => rfl
        | some s => exact j.datum s (hdir.1 s (hd.source.symm.trans hs))
      rw [hgiven]
      exact hd.taken ht hq
    · obtain rfl : x = w := List.mem_singleton.1 hx
      refine ⟨_, ⟨(j.wire x).trans (if_pos rfl), rfl, ?_, fun ht hq => j.taken ht hq⟩, hc⟩
      cases htx : targetFor? index g x c with
      | none =>
        refine (htx.symm.trans (hsame hc fun t _ => ?_).symm :)
        rw [htx]
        exact (Option.some_ne_none t).symm
      | some t =>
        -- the wire is known by the input that it got
        obtain ⟨hget, -⟩ := get?_of_targetFor? htx
        obtain ⟨q, hq, -⟩ := Option.map_eq_some_iff.1 ((a.map_id t).trans (hl.indexes hget))
        have hfree : h.feederOf? x t = none := (feederOf?_eq_none_iff (hc.2 t hget) hq).2
          fun y hy => Option.some.inj (hy.symm.trans (j.taken htx hq).1)
        rw [targetFor?, hget, Option.filter_some, hfree, Option.isNone_none, if_pos rfl]

/-- All wires are found, one after the other. -/
theorem run {ws : List WireKey} (hl : Linking index g done) (hn : (done ++ ws).Nodup)
    (hws : ∀ w ∈ ws, ∃ c, g.wire? w = some c ∧ c.source = none ∧ c.target = none ∧
      Directed index c) : Linking index (relinkWires index g ws).1 (done ++ ws) := by
  induction ws generalizing g done with
  | nil => rwa [List.append_nil]
  | cons w ws ih =>
    obtain ⟨⟨c, hw, hs, ht, hc⟩, hws⟩ := List.forall_mem_cons.1 hws
    have hout : w ∉ done := fun h => (List.nodup_append.1 hn).2.2 w h w List.mem_cons_self rfl
    have j := resolves_relinkWire hl.indexes hw hs ht hc
    have hnext : (done ++ [w] ++ ws).Nodup := by rwa [← List.append_cons]
    rw [List.append_cons]
    refine ih (hl.step hout hc (sameShell_relinkWire index g w) j) hnext fun v hv => ?_
    have hvw : ¬ w = v := fun e =>
      (List.nodup_cons.1 (List.nodup_append.1 hn).2.1).1 (e ▸ hv)
    obtain ⟨d, hd, hrest⟩ := hws v hv
    exact ⟨d, ((j.wire v).trans (if_neg hvw)).trans hd, hrest⟩

end Linking

/-! ### All in its place -/

/-- All that relinking restores is in its place. -/
structure Relinked (g : Graph) : Prop where
  indexed : g.index = .firsts g.idOf? (fun k => k) g.members
  owned : ∀ {r p}, g.pin? r = some p → p.orphan = false
  gathered : Gathered g
  found : ∀ w ∈ g.links, ∃ c, Found g.pinIndex g w c
  main : ∀ id, g.mainId = some id → (g.nodeWithId? id).isSome = true

theorem indexes_pinIndex (g : Graph) : Indexes g.pinIndex g := by
  intro id r hr
  rw [pinIndex_eq] at hr
  obtain ⟨s, -, hid, rfl⟩ := Dict.exists_of_get?_firsts hr
  exact hid

theorem exists_relinkMain (g : Graph) : ∃ mainId, g.relinkMain.1 = { g with mainId } ∧
    ∀ id, mainId = some id → (g.nodeWithId? id).isSome = true :=
  ⟨_, relinkMain_eq g, fun _ hid => (Option.filter_eq_some_iff.1 hid).2⟩

theorem relinkMain_of_found (hg : ∀ id, g.mainId = some id → (g.nodeWithId? id).isSome = true) :
    g.relinkMain.1 = g := by
  simp only [relinkMain]
  split
  · rfl
  · next id hid => rw [if_pos (hg id hid)]

/-- Relinking changes nothing where all is in its place. -/
theorem Relinked.relink (hg : Relinked g) : g.relink.1 = g := by
  have hindex : g.reindex = g :=
    congrArg (fun index => ({ g with index } : Graph)) (g.index_reindex.trans hg.indexed.symm)
  simp only [Graph.relink, hindex, adoptPins_of_owned hg.owned, hg.gathered.relinkGroups,
    relinkWires_of_found hg.found, relinkMain_of_found hg.main]

theorem Settled.sameShell (a : Settled u.reindex g) : SameShell u.reindex g :=
  ⟨a.idOf?, fun r => congrArg (Option.map Pin.shell) (a.pin? r), a.members, a.index_eq⟩

theorem Settled.pinIndex (a : Settled u.reindex g) : g.pinIndex = u.pinIndex :=
  a.sameShell.pinIndex

namespace Unresolved

/-- When the groups are settled, the wires are still to be joined. -/
theorem wires_to_join (hu : u.Unresolved) (hd : u.Oriented) (a : Settled u.reindex g) :
    ∀ w ∈ g.links, ∃ c, g.wire? w = some c ∧ c.source = none ∧ c.target = none ∧
      Directed g.pinIndex c := by
  intro w hw
  rw [a.links] at hw
  obtain ⟨c, hc⟩ := Option.isSome_iff_exists.1 (hu.wires.live w hw)
  obtain ⟨hs, ht⟩ := hu.wires.loose hc
  exact ⟨c, (a.wire? w).trans hc, hs, ht, a.pinIndex ▸ hd w hw c hc⟩

/-- Relinking puts all into its place. -/
theorem relinked (hu : u.Unresolved) (hd : u.Oriented) : Relinked u.relink.1 := by
  obtain ⟨g, a, hloose, hrelink⟩ := hu.exists_relink
  have hnodup : g.links.Nodup := a.links ▸ hu.wires.links_nodup
  -- the wires are found one after the other
  have hlinking : Linking g.pinIndex (relinkWires g.pinIndex g g.links).1 g.links := by
    have hempty : Linking g.pinIndex g [] := by
      refine ⟨indexes_pinIndex g, fun {t p v} _ hp hv => ?_, nofun⟩
      rw [a.pin?] at hp
      rw [(hu.nodes.free hp).incoming] at hv
      cases hv
    exact hempty.run hnodup (hu.wires_to_join hd a)
  have hlinks := (pending_of_loose g.pinIndex hnodup fun w _ => hloose w).links
  have hsame := sameShell_relinkWires g.pinIndex g g.links
  have hcore := sameCore_relinkWires g.pinIndex g g.links
  rw [hrelink]
  generalize (relinkWires g.pinIndex g g.links).1 = h at hlinking hlinks hsame hcore
  have hgathered := (a.gathered hu.reindexed).of_sameCore hcore
  obtain ⟨mainId, hmain, hfound⟩ := h.exists_relinkMain
  rw [hmain]
  refine ⟨?_, fun {r p} hp => ?_, ?_, fun w hw => ?_, hfound⟩
  · have hids : h.idOf? = u.idOf? := funext fun k => (hsame.ids k).trans (a.idOf? k)
    change h.index = .firsts h.idOf? (fun k => k) h.members
    rw [hsame.index, a.index_eq, index_reindex, hids, hsame.members, a.members]
    rfl
  · obtain ⟨q, hq, hshell⟩ := hsame.pin? hp
    rw [a.pin?] at hq
    rw [← (Pin.of_shell_eq hshell).2.2.2.2]
    exact (hu.nodes.free hq).owned
  · exact ⟨hgathered.grouped.withMembers _ _ _, hgathered.members_nodup, hgathered.live,
      hgathered.home, hgathered.listed⟩
  · obtain ⟨c, hc, -⟩ := hlinking.found w (hlinks ▸ hw)
    rw [← hsame.pinIndex] at hc
    exact ⟨c, hc.wire, hc.source, hc.target, hc.taken⟩

end Unresolved

/-! ### Graphs that are put together -/

/-- A node comes to the graph. -/
def addNode (g : Graph) (n : Node) : Graph := ((g.newNode n).2.insertNode (g.newNode n).1).2

/-- A wire comes to the graph. -/
def addWire (g : Graph) (c : Wire) : Graph := ((g.newWire c).2.insertWire (g.newWire c).1).2

/-- A group with an id is put beside the graph. -/
def addGroup (g : Graph) (id name : String) (bounds : Rect Float) : Graph :=
  (g.newGroup name bounds).2.modifyGroup (g.newGroup name bounds).1 fun b => { b with id }

/-- The graphs that come about when parts are added that know each other by id: nodes outside of
groups with free pins, wires without ends and groups without members, whatever ids they have. -/
inductive Assembled : Graph → Prop where
  | new (ids : IdSupply) (name : String) (category : Category) : Assembled (.new ids name category)
  | addNode {g : Graph} (hg : Assembled g) {n : Node} (hgroup : n.group = none)
    (hpins : ∀ s, ∀ p ∈ n.pins s, p.Free) :
    Assembled (g.addNode n)
  | addWire {g : Graph} (hg : Assembled g) {c : Wire} (hs : c.source = none)
    (ht : c.target = none) :
    Assembled (g.addWire c)
  | addGroup {g : Graph} (hg : Assembled g) (id name : String) (bounds : Rect Float) :
    Assembled (g.addGroup id name bounds)
  | registerGroup {g : Graph} (hg : Assembled g) (a : GroupKey) : Assembled (g.registerGroup a)
  | adoptGroup {g : Graph} (hg : Assembled g) (parent : GroupKey) (child : Option GroupKey) :
    Assembled (g.adoptGroup parent child).2
  | claim {g : Graph} (hg : Assembled g) (k : NodeKey) (groupId : Option String) :
    Assembled (g.modifyNode k fun n => { n with groupId })
  | describe {g : Graph} (hg : Assembled g) (ids : IdSupply) (id name : String)
    (category : Category) (mainId : Option String) :
    Assembled { g with ids, id, name, category, mainId }

theorem Assembled.unresolved (hg : Assembled g) : g.Unresolved := by
  induction hg with
  | new ids name category => exact .new ids name category
  | addNode _ hgroup hpins ih => exact ih.addNode hgroup hpins
  | addWire _ hs ht ih => exact ih.addWire hs ht
  | addGroup _ id name bounds ih => exact ih.newGroup id name bounds
  | registerGroup _ a ih => exact ih.registerGroup a
  | adoptGroup _ parent child ih => exact ih.adoptGroup parent child
  | claim _ k _ ih => exact ih.modifyNode k (fun _ => rfl) fun _ s => by cases s <;> rfl
  | describe _ _ _ _ _ _ ih => exact ⟨{ ih.groups with }, { ih.nodes with }, { ih.wires with }⟩

/-! ### Ids that occur twice -/

namespace RepeatedIds

/-- A node that says which group it is in. -/
def node (id groupId : String) (inputs outputs : List PinSpec) : Node where
  id
  type := "t"
  name := id
  inputs := inputs.map fun p => p.pin p.name
  outputs := outputs.map fun p => p.pin p.name
  groupId := some groupId
  behaviour := pure ()

theorem free (id groupId : String) (inputs outputs : List PinSpec) :
    ∀ s, ∀ p ∈ (node id groupId inputs outputs).pins s, p.Free := by
  rintro (_ | _) p hp <;> obtain ⟨c, -, rfl⟩ := List.mem_map.1 hp <;> exact ⟨rfl, rfl, rfl⟩

/-- Two groups and two inputs have one id, two wires go into one input, and a wire and the main node
name what is not there. -/
def graph : Graph :=
  let g := (Graph.new {} "g" .dataFlow).addNode (node "a" "q" [] [.data "x" .int (.int 7)])
  let g := (g.addNode (node "b" "q" [.data "y" .int] [])).addNode
    (node "c" "lost" [.data "y" .int] [])
  let g := (g.addWire { id := "u", sourceId := "x", targetId := "y" }).addWire
    { id := "v", sourceId := "x", targetId := "y" }
  let g := g.addWire { id := "w", sourceId := "x", targetId := "lost" }
  let g := (g.addGroup "q" "first" ⟨0, 0, 1, 1⟩).registerGroup 0
  let g := (g.addGroup "q" "second" ⟨0, 0, 1, 1⟩).registerGroup 1
  { g with mainId := some "lost" }

theorem assembled : graph.Assembled := by
  have h := ((Assembled.new {} "g" .dataFlow).addNode rfl
    (free "a" "q" [] [.data "x" .int (.int 7)])).addNode rfl (free "b" "q" [.data "y" .int] [])
  have h := (h.addNode rfl (free "c" "lost" [.data "y" .int] [])).addWire
    (c := { id := "u", sourceId := "x", targetId := "y" }) rfl rfl
  have h := (h.addWire (c := { id := "v", sourceId := "x", targetId := "y" }) rfl rfl).addWire
    (c := { id := "w", sourceId := "x", targetId := "lost" }) rfl rfl
  have h := (h.addGroup "q" "first" ⟨0, 0, 1, 1⟩).registerGroup 0
  have h := (h.addGroup "q" "second" ⟨0, 0, 1, 1⟩).registerGroup 1
  exact h.describe _ _ _ _ (some "lost")

end RepeatedIds

end Graph

/-- Relinking twice is relinking once, however often an id occurs, unless a wire names an input as
its source or an output as its target. -/
theorem Graph.Assembled.relink_relink {g : Graph} (h : g.Assembled)
    (hd : ∀ w ∈ g.links, ∀ c ∈ g.wire? w, Directed g.pinIndex c) :
    g.relink.1.relink.1 = g.relink.1 :=
  (h.unresolved.relinked hd).relink

/-- Where ids repeat, too, what was found is found again, and what was not found is not found. -/
theorem Graph.Assembled.relink_relink_repeatedIds :
    RepeatedIds.graph.Assembled ∧
    (∀ w ∈ RepeatedIds.graph.links, ∀ c ∈ RepeatedIds.graph.wire? w,
      Directed RepeatedIds.graph.pinIndex c) ∧
    RepeatedIds.graph.relink.1.links.map RepeatedIds.graph.relink.1.targetOf? =
      [some ⟨1, .input, 0⟩, none, none] ∧
    RepeatedIds.graph.relink.1.datum? ⟨1, .input, 0⟩ = some (.int 7) ∧
    RepeatedIds.graph.relink.1.allGroups.map (·.members) = [[0, 1], []] ∧
    RepeatedIds.graph.relink.1.mainId = none ∧
    RepeatedIds.graph.relink.1.relink.1 = RepeatedIds.graph.relink.1 := by
  have hd : ∀ w ∈ RepeatedIds.graph.links, ∀ c ∈ RepeatedIds.graph.wire? w,
      Directed RepeatedIds.graph.pinIndex c := by decide +kernel
  exact ⟨RepeatedIds.assembled, hd, by decide +kernel, by decide +kernel, by decide +kernel,
    by decide +kernel, Graph.Assembled.relink_relink RepeatedIds.assembled hd⟩

end Patchbay
