import Patchbay.Proofs.Document.Again
/-!
# Values that pass

Relinking joins the wires of a graph one after the other. An input is fed by the first wire that
names it as its target and takes the value that is on the source of that wire. The sources are
outputs, which no wire changes, so all values that pass are those that were there before.

## Main definitions

* `Graph.feeder?`: the first wire of a list that names an input.
* `Graph.given?`: the value on the pin that a wire names as its source.
* `Graph.Passed`: some wires are joined, and their values have passed.

## Main statements

* `Graph.Pending.told`: wires go on to name the same pins.
* `Graph.Passed.step`, `Graph.Passed.run`: values pass along one wire after the other.
-/
namespace Patchbay.Graph

variable {g h : Graph} {index : Dict PinRef} {done ws : List WireKey} {w : WireKey} {c : Wire}

/-- The first wire of a list that names an input as its target. -/
def feeder? (g : Graph) (index : Dict PinRef) (ws : List WireKey) (t : PinRef) : Option WireKey :=
  ws.find? fun w => ((g.wire? w).bind fun c => index.get? c.targetId) = some t

/-- The value on the pin that a wire names as its source. -/
def given? (g : Graph) (index : Dict PinRef) (w : WireKey) : Option Value :=
  ((g.wire? w).bind fun c => index.get? c.sourceId).bind g.datum?

theorem feeder?_append (hw : g.wire? w = some c) (t : PinRef) : g.feeder? index (done ++ [w]) t =
    (g.feeder? index done t).or (if index.get? c.targetId = some t then some w else none) := by
  rw [feeder?, List.find?_append, List.find?_singleton, hw, Option.bind_some]
  simp only [decide_eq_true_eq]
  rfl

/-! ### What wires tell of themselves -/

/-- A wire without ends gets those that are found for it, and nothing else of the wires changes. -/
theorem relinkWire_of_loose (hn : Indexes index g) (hw : g.wire? w = some c) (hs : c.source = none)
    (ht : c.target = none) : (relinkWire index g w).1.head = g.head ∧
      ∀ v, (relinkWire index g w).1.wire? v = if w = v then
        some { c with source := index.get? c.sourceId, target := targetFor? index g w c }
      else g.wire? v := by
  obtain ⟨hhead₁, hwire₁, -⟩ := setSource_of_loose hw hs fun r hr => by
    rw [pinIdOr, hn hr, Option.getD_some]
  obtain ⟨hhead₂, hwire₂, -⟩ := setTarget_of_loose (e := targetFor? index g w c)
    ((hwire₁ w).trans (if_pos rfl)) ht fun r hr => by
      rw [pinIdOr, (sameShell_setSource g w _).map_id, hn (get?_of_targetFor? hr).1,
        Option.getD_some]
  rw [relinkWire_eq hw]
  refine ⟨(head_transfer _ w).trans (hhead₂.trans hhead₁), fun v => ?_⟩
  rw [wire?_transfer, hwire₂, hwire₁]
  split <;> rfl

/-- Joining wires leaves the head of the graph as it is, and the wires go on to name the same pins.
-/
theorem Pending.told (a : Pending index g ws) (hn : Indexes index g) :
    (relinkWires index g ws).1.head = g.head ∧
      ∀ v, ((relinkWires index g ws).1.wire? v).map Wire.loose = (g.wire? v).map Wire.loose := by
  induction a with
  | nil => exact ⟨rfl, fun _ => rfl⟩
  | @cons g w ws hloose _ _ ih =>
    have hshell := sameShell_relinkWire index g w
    obtain ⟨hhead, hrest⟩ := ih fun id r hr => (hshell.map_id r).trans (hn hr)
    cases hw : g.wire? w with
    | none =>
      have hsame : (relinkWire index g w).1 = g := by simp only [relinkWire, hw]
      rw [hsame] at hhead hrest
      simp only [relinkWires, hsame]
      exact ⟨hhead, hrest⟩
    | some c =>
      obtain ⟨hs, ht⟩ := hloose
      rw [Graph.sourceOf?, hw, Option.bind_some] at hs
      rw [Graph.targetOf?, hw, Option.bind_some] at ht
      obtain ⟨hhead₁, hwire₁⟩ := relinkWire_of_loose hn hw hs ht
      refine ⟨hhead.trans hhead₁, fun v => (hrest v).trans ?_⟩
      rw [hwire₁]
      split
      · next hv => rw [← hv, hw]; rfl
      · rfl

/-! ### Wires that are joined one after the other -/

/-- Some wires are joined, and their values have passed. -/
structure Passed (index : Dict PinRef) (g h : Graph) (done : List WireKey) : Prop where
  shell : SameShell g h
  waiting : ∀ w, w ∉ done → h.wire? w = g.wire? w
  known : ∀ {t p}, t.side = .input → h.pin? t = some p → p.incoming = g.feeder? index done t
  output : ∀ {r}, r.side = .output → h.datum? r = g.datum? r
  input : ∀ {t}, t.side = .input →
    h.datum? t = (g.datum? t).map ((g.feeder? index done t).bind (g.given? index)).getD

/-- Before any wire is joined, no value has passed. -/
theorem Passed.nil (hfree : ∀ {r p}, g.pin? r = some p → p.Free) : Passed index g g [] where
  shell := .refl g
  waiting _ _ := rfl
  known _ hp := (hfree hp).incoming
  output _ := rfl
  input {t} _ := by cases g.datum? t <;> simp [feeder?]

namespace Passed

/-- A wire gets the input that it names, unless an earlier wire names it too. -/
theorem targetFor?_eq_some_iff (a : Passed index g h done) (hn : Indexes index g) (hw : w ∉ done)
    (hc : Directed index c) (t : PinRef) : targetFor? index h w c = some t ↔
      index.get? c.targetId = some t ∧ g.feeder? index done t = none := by
  rw [targetFor?, Option.filter_eq_some_iff, Option.isNone_iff_eq_none]
  refine and_congr_right fun hget => ?_
  obtain ⟨p, hp, -⟩ := Option.map_eq_some_iff.1 ((a.shell.map_id t).trans (hn hget))
  rw [feederOf?_eq_none_iff (hc.2 t hget) hp, a.known (hc.2 t hget) hp,
    Option.eq_none_iff_forall_ne_some]
  refine forall_congr' fun v => ⟨fun hself hv => ?_, fun hne hv => absurd hv hne⟩
  exact hw (hself hv ▸ List.mem_of_find?_eq_some hv)

/-- One more value passes. -/
theorem step (a : Passed index g h done) (hn : Indexes index g) (hw : w ∉ done)
    (hwc : g.wire? w = some c) (hs : c.source = none) (ht : c.target = none)
    (hc : Directed index c) : Passed index g (relinkWire index h w).1 (done ++ [w]) := by
  have hwire : h.wire? w = some c := (a.waiting w hw).trans hwc
  have hnh : Indexes index h := fun id r hr => (a.shell.map_id r).trans (hn hr)
  have j := resolves_relinkWire hnh hwire hs ht hc
  have htarget := a.targetFor?_eq_some_iff hn hw hc
  -- the value that passes is the one that was at the source from the beginning
  have hgiven : (index.get? c.sourceId).bind h.datum? = g.given? index w := by
    rw [given?, hwc, Option.bind_some]
    exact Option.bind_congr fun s hget => a.output (hc.1 s hget)
  have hfed {t : PinRef} (h : targetFor? index h w c = some t) :
      g.feeder? index done t = none ∧ g.feeder? index (done ++ [w]) t = some w := by
    obtain ⟨hget, hnone⟩ := (htarget t).1 h
    rw [feeder?_append hwc, hnone, if_pos hget]
    exact ⟨rfl, rfl⟩
  have hsame {t : PinRef} (h : targetFor? index h w c ≠ some t) :
      g.feeder? index (done ++ [w]) t = g.feeder? index done t := by
    rw [feeder?_append hwc]
    split
    · next hget =>
      have hsome : g.feeder? index done t ≠ none := fun hnone => h ((htarget t).2 ⟨hget, hnone⟩)
      exact Option.or_of_isSome (Option.isSome_iff_ne_none.2 hsome)
    · exact Option.or_none
  refine ⟨a.shell.trans (sameShell_relinkWire index h w), fun v hv => ?_, fun {t p} hside hp => ?_,
    fun {r} hside => (j.datum r hside).trans (a.output hside), fun {t} hside => ?_⟩
  · rw [List.mem_append, List.mem_singleton, not_or] at hv
    rw [j.wire, if_neg (Ne.symm hv.2), a.waiting v hv.1]
  · by_cases htw : targetFor? index h w c = some t
    · rw [(hfed htw).2]
      exact (j.taken htw hp).1
    · rw [hsame htw]
      exact a.known hside ((j.input t hside htw).symm.trans hp)
  · by_cases htw : targetFor? index h w c = some t
    · obtain ⟨hnone, hsome⟩ := hfed htw
      have hbefore : h.datum? t = g.datum? t := by
        rw [a.input hside, hnone]
        cases g.datum? t <;> rfl
      rw [j.given htw, hgiven, hsome, hbefore, Option.bind_some]
    · rw [hsame htw, ← a.input hside, datum?, datum?, j.input t hside htw]

/-- All values pass, one after the other. -/
theorem run (a : Passed index g h done) (hn : Indexes index g) (hnodup : (done ++ ws).Nodup)
    (hws : ∀ w ∈ ws, ∃ c, g.wire? w = some c ∧ c.source = none ∧ c.target = none ∧
      Directed index c) : Passed index g (relinkWires index h ws).1 (done ++ ws) := by
  induction ws generalizing h done with
  | nil => rwa [List.append_nil]
  | cons w ws ih =>
    obtain ⟨⟨c, hwc, hs, ht, hc⟩, hws⟩ := List.forall_mem_cons.1 hws
    have hw : w ∉ done := fun h => (List.nodup_append.1 hnodup).2.2 w h w List.mem_cons_self rfl
    rw [List.append_cons] at hnodup ⊢
    exact ih (a.step hn hw hwc hs ht hc) hnodup hws

end Passed
end Patchbay.Graph
