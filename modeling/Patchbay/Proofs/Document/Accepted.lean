import Patchbay.Proofs.Document.RoundTrip
import Patchbay.Proofs.Document.Unresolved
import Patchbay.Proofs.Wiring.Attached
/-!
# Wires of accepted documents

A document may give wires that begin at inputs, end at outputs or share an input. Relinking joins
what its ids name, whichever pins these are. When such a graph is validated later on, every output
still knows the wires that begin at it. The inputs know their wires only if no wire of the document
began at an input.

## Main definitions

* `Edit.Rewires`: the operations that make and remove wires.

## Main statements

* `Graph.Attached.apply`, `Graph.Fed.apply`: what rewiring keeps.
* `Graph.Attached.relinkWires`, `Graph.Fed.relinkWires`: what relinking makes.
* `Document.accepted_of_load`: what a validated graph that came from a document looks like.
-/
namespace Patchbay

/-- An operation that makes or removes wires: pins are joined, a wire is removed, or a node with all
its wires. -/
def Edit.Rewires : Edit → Prop
  | .connect .. | .connectNamed .. | .removeWire .. | .removeWireWithId .. | .removeNode ..
  | .removeNodeWithId .. | .setPolicy .. => True
  | _ => False

namespace Graph

/-! ### What rewiring keeps -/

section Rewiring
variable {g : Graph} {I : Graph → Prop}

/-- What holds on through joining pins and losing wires holds on through rewiring. -/
theorem apply_of_rewires (hconnect : ∀ g s t, I g → I (g.connect s t).2)
    (hloosens : ∀ {g h}, I g → Loosens g h → I h) (hg : I g) {e : Edit} (he : e.Rewires) :
    I (e.apply g) := by
  cases e with
  | connect s t => exact hconnect g s t hg
  | connectNamed a output b input =>
    simp only [Edit.apply, Graph.connectNamed]
    split
    · exact hconnect g _ _ hg
    · exact hg
  | removeWire w => exact hloosens hg (loosens_removeWire g w)
  | removeWireWithId id =>
    simp only [Edit.apply, Graph.removeWireWithId]
    split
    · exact hloosens hg (loosens_removeWire g _)
    · exact hg
  | removeNode k => exact hloosens hg (loosens_removeNode g k)
  | removeNodeWithId id =>
    simp only [Edit.apply, Graph.removeNodeWithId]
    split
    · exact hloosens hg (loosens_removeNode g _)
    · exact hg
  | setPolicy replace => exact hloosens hg (.of_eq rfl rfl)
  | _ => exact he.elim

/-- A whole sequence of operations keeps what each of them keeps. -/
theorem foldl_apply_of_rewires (hconnect : ∀ g s t, I g → I (g.connect s t).2)
    (hloosens : ∀ {g h}, I g → Loosens g h → I h) {es : List Edit} (hes : ∀ e ∈ es, e.Rewires)
    (hg : I g) : I (es.foldl Edit.apply g) := by
  induction es generalizing g with
  | nil => exact hg
  | cons e es ih =>
    obtain ⟨he, hes⟩ := List.forall_mem_cons.1 hes
    exact ih hes (apply_of_rewires hconnect hloosens hg he)

theorem Attached.rewire (hg : Attached g) {es : List Edit} (hes : ∀ e ∈ es, e.Rewires) :
    Attached (es.foldl Edit.apply g) :=
  foldl_apply_of_rewires (fun _ s t h => h.connect s t) Attached.loosens hes hg

theorem Fed.rewire (hg : Fed g) {es : List Edit} (hes : ∀ e ∈ es, e.Rewires) :
    Fed (es.foldl Edit.apply g) :=
  foldl_apply_of_rewires (fun _ s t h => h.connect s t) Fed.loosens hes hg

end Rewiring

/-! ### What relinking makes -/

section Relinking
variable {g : Graph} {index : Dict PinRef} {w : WireKey} {ws : List WireKey}

/-- A wire has no end. -/
def Loose (g : Graph) (w : WireKey) : Prop := g.sourceOf? w = none ∧ g.targetOf? w = none

/-- A wire gets the source that is found for it. -/
theorem setSource_cases {c : Wire} (hw : g.wire? w = some c) (hc : c.source = none)
    (e : Option PinRef) : g.setSource w e = g ∨ ∃ s, Sourced g (g.setSource w e) w s := by
  cases e with
  | none => exact .inl (by simp [setSource, hw, hc])
  | some s => exact .inr ⟨s, sourced_setSource hw hc s⟩

/-- A wire gets the target that is found for it. -/
theorem setTarget_cases {c : Wire} (hw : g.wire? w = some c) (hc : c.target = none)
    (e : Option PinRef) :
    g.setTarget w e = g ∨ ∃ t, e = some t ∧ Targeted g (g.setTarget w e) w t := by
  cases e with
  | none => exact .inl (by simp [setTarget, hw, hc])
  | some t => exact .inr ⟨t, rfl, targeted_setTarget hw hc t⟩

/-- The ends of a wire are found one after the other. An input that another wire feeds is none of
them. -/
theorem exists_relinkWire (index : Dict PinRef) (hw : g.Loose w) : ∃ g₁ g₂,
    (g₁ = g ∨ ∃ s, Sourced g g₁ w s) ∧
    (g₂ = g₁ ∨ ∃ t, Targeted g₁ g₂ w t ∧ g.feederOf? w t = none) ∧
    SameWiring g₂ (relinkWire index g w).1 := by
  cases hc : g.wire? w with
  | none =>
    refine ⟨g, g, .inl rfl, .inl rfl, ?_⟩
    simp only [relinkWire, hc]
    exact .refl g
  | some c =>
    obtain ⟨hs, ht⟩ := hw
    rw [sourceOf?, hc, Option.bind_some] at hs
    rw [targetOf?, hc, Option.bind_some] at ht
    simp only [relinkWire, hc]
    generalize hg₁ : g.setSource w (index.get? c.sourceId) = g₁
    have hsource : g₁ = g ∨ ∃ s, Sourced g g₁ w s := hg₁ ▸ setSource_cases hc hs _
    obtain ⟨d, hd, hdt⟩ : ∃ d, g₁.wire? w = some d ∧ d.target = none := by
      rcases hsource with rfl | ⟨s, a⟩
      · exact ⟨c, hc, ht⟩
      · obtain ⟨d, hd⟩ := Option.isSome_iff_exists.1 a.live
        have htarget := a.target w
        rw [targetOf?, targetOf?, hd, hc, Option.bind_some, Option.bind_some, ht] at htarget
        exact ⟨d, hd, htarget⟩
    refine ⟨g₁, _, hsource, ?_, sameWiring_transfer _ w⟩
    refine (setTarget_cases hd hdt _).imp_right ?_
    rintro ⟨t, hfound, ha⟩
    refine ⟨t, ha, ?_⟩
    split at hfound
    · cases hfound
    · next hfree =>
      rw [hfound, Option.bind_some, Option.isSome_map, Bool.not_eq_true,
        Option.isSome_eq_false_iff, Option.isNone_iff_eq_none] at hfree
      exact hfree

/-- No other wire gets an end. -/
theorem ends_relinkWire (index : Dict PinRef) (hw : g.Loose w) {v : WireKey} (hv : v ≠ w) :
    (relinkWire index g w).1.sourceOf? v = g.sourceOf? v ∧
      (relinkWire index g w).1.targetOf? v = g.targetOf? v := by
  obtain ⟨g₁, g₂, h₁, h₂, a⟩ := exists_relinkWire index hw
  have hends₁ : g₁.sourceOf? v = g.sourceOf? v ∧ g₁.targetOf? v = g.targetOf? v := by
    rcases h₁ with rfl | ⟨s, b⟩
    · exact ⟨rfl, rfl⟩
    · exact ⟨(b.source v).trans (if_neg hv), b.target v⟩
  rw [a.sourceOf?, a.targetOf?, ← hends₁.1, ← hends₁.2]
  rcases h₂ with rfl | ⟨t, b, -⟩
  · exact ⟨rfl, rfl⟩
  · exact ⟨b.source v, (b.target v).trans (if_neg hv)⟩

theorem links_relinkWire (index : Dict PinRef) (hw : g.Loose w) :
    (relinkWire index g w).1.links = g.links := by
  obtain ⟨g₁, g₂, h₁, h₂, a⟩ := exists_relinkWire index hw
  have hlinks₁ : g₁.links = g.links := by
    rcases h₁ with rfl | ⟨s, b⟩
    · rfl
    · exact b.links
  rw [a.links, ← hlinks₁]
  rcases h₂ with rfl | ⟨t, b, -⟩
  · rfl
  · exact b.links

theorem Attached.relinkWire (hg : Attached g) (hw : g.Loose w) :
    Attached (relinkWire index g w).1 := by
  obtain ⟨g₁, g₂, h₁, h₂, a⟩ := exists_relinkWire index hw
  have hg₁ : Attached g₁ := by
    rcases h₁ with rfl | ⟨s, b⟩
    · exact hg
    · exact hg.sourced b
  have hg₂ : Attached g₂ := by
    rcases h₂ with rfl | ⟨t, b, -⟩
    · exact hg₁
    · exact hg₁.targeted b
  exact hg₂.loosens a.loosens

/-- An input that no other wire feeds is fed by the wire that is joined to it. -/
theorem Fed.relinkWire (hg : Fed g) (hw : g.Loose w)
    (hout : ∀ s, (relinkWire index g w).1.sourceOf? w = some s → s.side = .output) :
    Fed (relinkWire index g w).1 := by
  obtain ⟨g₁, g₂, h₁, h₂, a⟩ := exists_relinkWire index hw
  have hsource : (Graph.relinkWire index g w).1.sourceOf? w = g₁.sourceOf? w := by
    rw [a.sourceOf?]
    rcases h₂ with rfl | ⟨t, b, -⟩
    · rfl
    · exact b.source w
  have hg₁ : Fed g₁ := by
    rcases h₁ with rfl | ⟨s, b⟩
    · exact hg
    · exact hg.sourced b (hout s (hsource.trans ((b.source w).trans (if_pos rfl))))
  have hg₂ : Fed g₂ := by
    rcases h₂ with rfl | ⟨t, b, hfeeder⟩
    · exact hg₁
    · refine hg₁.targeted b fun ht p hp v hv => ?_
      -- a wire that ends at the input already would be known there, and relinking would spare it
      obtain ⟨q, hq⟩ : ∃ q, g.pin? t = some q := by
        rcases h₁ with rfl | ⟨s, c⟩
        · exact ⟨p, hp⟩
        · rw [c.pin] at hp
          split at hp
          · exact (Option.map_eq_some_iff.1 hp).imp fun _ h => h.1
          · exact ⟨p, hp⟩
      have hv : g.targetOf? v = some t := by
        rcases h₁ with rfl | ⟨s, c⟩
        · exact hv
        · exact (c.target v).symm.trans hv
      have hvw : v ≠ w := by
        rintro rfl
        rw [hw.2] at hv
        cases hv
      simp [feederOf?, ht, hq, hg.incoming hv ht hq, hvw] at hfeeder
  exact hg₂.loosens a.loosens

/-- The wires that are joined later on have no ends yet. -/
theorem Loose.relinkWire (hw : g.Loose w) {v : WireKey} (hv : v ≠ w) (hloose : g.Loose v) :
    (relinkWire index g w).1.Loose v := by
  obtain ⟨hs, ht⟩ := ends_relinkWire index hw hv
  exact ⟨hs.trans hloose.1, ht.trans hloose.2⟩

/-- Wires that are joined one after the other. None of them has an end until its turn comes. -/
inductive Pending (index : Dict PinRef) : Graph → List WireKey → Prop where
  | nil (g : Graph) : Pending index g []
  | cons {g : Graph} {w : WireKey} {ws : List WireKey} (loose : g.Loose w) (once : w ∉ ws)
    (later : Pending index (Graph.relinkWire index g w).1 ws) : Pending index g (w :: ws)

theorem pending_of_loose (index : Dict PinRef) (hn : ws.Nodup) (hloose : ∀ w ∈ ws, g.Loose w) :
    Pending index g ws := by
  induction ws generalizing g with
  | nil => exact .nil g
  | cons w ws ih =>
    obtain ⟨hw, hn⟩ := List.nodup_cons.1 hn
    obtain ⟨hwl, hloose⟩ := List.forall_mem_cons.1 hloose
    exact .cons hwl hw (ih hn fun v hv => hwl.relinkWire (fun e => hw (e ▸ hv)) (hloose v hv))

namespace Pending

/-- A wire that is not to be joined begins where it began. -/
theorem sourceOf? (h : Pending index g ws) {v : WireKey} (hv : v ∉ ws) :
    (relinkWires index g ws).1.sourceOf? v = g.sourceOf? v := by
  induction h with
  | nil => rfl
  | cons hw _ _ ih =>
    rw [List.mem_cons, not_or] at hv
    exact (ih hv.2).trans (ends_relinkWire index hw hv.1).1

theorem links (h : Pending index g ws) : (relinkWires index g ws).1.links = g.links := by
  induction h with
  | nil => rfl
  | cons hw _ _ ih => exact ih.trans (links_relinkWire index hw)

theorem attached (h : Pending index g ws) (hg : Attached g) :
    Attached (relinkWires index g ws).1 := by
  induction h with
  | nil => exact hg
  | cons hw _ _ ih => exact ih (hg.relinkWire hw)

theorem fed (h : Pending index g ws) (hg : Fed g)
    (hout : ∀ w ∈ ws, ∀ s, (relinkWires index g ws).1.sourceOf? w = some s → s.side = .output) :
    Fed (relinkWires index g ws).1 := by
  induction h with
  | nil => exact hg
  | cons hw once later ih =>
    obtain ⟨hself, hout⟩ := List.forall_mem_cons.1 hout
    exact ih (hg.relinkWire hw fun s hs => hself s ((later.sourceOf? once).trans hs)) hout

end Pending

theorem loosens_relinkMain (g : Graph) : Loosens g g.relinkMain.1 := by
  rw [relinkMain_eq]
  exact .of_eq rfl rfl

@[simp] theorem links_relinkMain (g : Graph) : g.relinkMain.1.links = g.links := by
  rw [relinkMain_eq]

@[simp] theorem sourceOf?_relinkMain (g : Graph) (w : WireKey) :
    g.relinkMain.1.sourceOf? w = g.sourceOf? w := by
  rw [relinkMain_eq]
  rfl

end Relinking

namespace Unresolved
variable {u : Graph}

theorem reindexed (hu : u.Unresolved) : u.reindex.Unresolved :=
  ⟨{ hu.groups with }, { hu.nodes with }, { hu.wires with }⟩

/-- Before wires are relinked, the nodes are in their groups and no wire has an end. -/
theorem exists_relink (hu : u.Unresolved) : ∃ g : Graph, Settled u.reindex g ∧ (∀ w, g.Loose w) ∧
    u.relink.1 = (relinkWires g.pinIndex g g.links).1.relinkMain.1 := by
  have a := hu.reindexed.settled
  refine ⟨u.reindex.relinkGroups, a, fun w => ?_, by simp only [relink, hu.reindexed.adoptPins]⟩
  rw [Loose, sourceOf?, targetOf?, a.wire?]
  cases hc : u.reindex.wire? w with
  | none => exact ⟨rfl, rfl⟩
  | some c => exact hu.wires.loose hc

/-- After relinking, every output knows the wires that begin at it. -/
theorem attached_relink (hu : u.Unresolved) : Attached u.relink.1 := by
  obtain ⟨g, a, hloose, hrun⟩ := hu.exists_relink
  have hg : Attached g := fun w r p hw => by
    rw [(hloose w).1] at hw
    cases hw
  have hpending : Pending g.pinIndex g g.links :=
    pending_of_loose _ (a.links ▸ hu.wires.links_nodup) fun w _ => hloose w
  rw [hrun]
  exact (hpending.attached hg).loosens (loosens_relinkMain _)

/-- After relinking, every input knows the wire that ends at it if no wire begins at an input. -/
theorem fed_relink (hu : u.Unresolved)
    (hout : ∀ w ∈ u.relink.1.links, ∀ s, u.relink.1.sourceOf? w = some s → s.side = .output) :
    Fed u.relink.1 := by
  obtain ⟨g, a, hloose, hrun⟩ := hu.exists_relink
  have hpending : Pending g.pinIndex g g.links :=
    pending_of_loose _ (a.links ▸ hu.wires.links_nodup) fun w _ => hloose w
  have hg : Fed g := by
    refine ⟨fun {w r} hw => ?_, fun {w r p} hw => ?_⟩
    · rw [(hloose w).1] at hw
      cases hw
    · rw [(hloose w).2] at hw
      cases hw
  rw [hrun, links_relinkMain, hpending.links] at hout
  simp only [sourceOf?_relinkMain] at hout
  rw [hrun]
  exact (hpending.fed hg hout).loosens (loosens_relinkMain _)

end Unresolved

/-! ### What validation finds -/

section Validation
variable {g : Graph} {w : WireKey}

/-- The pin at which a wire begins knows it. -/
def Departs (g : Graph) (w : WireKey) : Prop :=
  ∃ s p, g.sourceOf? w = some s ∧ g.pin? s = some p ∧ w ∈ p.outgoing

/-- The pin at which a wire ends knows no other wire. -/
def Arrives (g : Graph) (w : WireKey) : Prop :=
  ∃ t p, g.targetOf? w = some t ∧ g.pin? t = some p ∧ p.incoming = some w

/-- A wire of a validated graph leads from an output to an input. -/
theorem exists_of_validate (h : g.validate = true) (hw : w ∈ g.links) : ∃ s t p q,
    g.sourceOf? w = some s ∧ s.side = .output ∧ g.pin? s = some p ∧
    g.targetOf? w = some t ∧ t.side = .input ∧ g.pin? t = some q := by
  have hvalid := List.all_eq_true.1 h w hw
  simp only [Bool.and_eq_true, isValidWire] at hvalid
  obtain ⟨⟨hvalid, -⟩, -⟩ := hvalid
  split at hvalid
  · next s t hc =>
    simp only [Bool.and_eq_true, decide_eq_true_eq] at hvalid
    obtain ⟨⟨⟨-, hs⟩, ht⟩, hkind⟩ := hvalid
    split at hkind
    · next p q hp hq =>
      refine ⟨s, t, p, q, ?_, hs, hp, ?_, ht, hq⟩
      · rw [sourceOf?, hc]; rfl
      · rw [targetOf?, hc]; rfl
    · cases hkind
  · cases hvalid

theorem Attached.departs (hg : Attached g) (h : g.validate = true) (hw : w ∈ g.links) :
    g.Departs w := by
  obtain ⟨s, -, p, -, hs, hside, hp, -⟩ := exists_of_validate h hw
  exact ⟨s, p, hs, hp, hg hs hside hp⟩

theorem Fed.arrives (hg : Fed g) (h : g.validate = true) (hw : w ∈ g.links) : g.Arrives w := by
  obtain ⟨-, t, -, q, -, -, -, ht, hside, hq⟩ := exists_of_validate h hw
  exact ⟨t, q, ht, hq, hg.incoming ht hside hq⟩

end Validation

end Graph

/-! ### Two wires between two pins -/

namespace GiveTake

/-- What is written of a wire. -/
def wireRecord (id source target : String) : Json :=
  .object [("id", .string id), ("source_pin_id", .string source), ("target_pin_id", .string target)]

/-- A giver and a taker, and two wires between them. -/
def document (first second : Json) : Json :=
  .object [("id", .string "G"), ("category", .string "data_flow"),
    ("nodes", .array [
      .object [("id", .string "a"), ("type", .string "give"), ("inputs", .array []),
        ("outputs", .array [.object [("id", .string "x")]])],
      .object [("id", .string "b"), ("type", .string "take"),
        ("inputs", .array [.object [("id", .string "y")]]), ("outputs", .array [])]]),
    ("connections", .array [first, second])]

/-- The second wire goes into the input that the first one feeds. -/
def doubled : Json := document (wireRecord "c" "x" "y") (wireRecord "d" "x" "y")

/-- The second wire leads from the input back to the output. -/
def crossed : Json := document (wireRecord "c" "x" "y") (wireRecord "d" "y" "x")

/-- The graph of a document. -/
def read (j : Json) : Except Document.Raised Graph :=
  (Document.load registry (.new {}) j).result

/-- What is seen of the graph of a document is true of that graph. -/
theorem exists_of_read {j : Json} {P : Graph → Bool} (h : (read j).toOption.any P = true) :
    ∃ g, read j = .ok g ∧ P g = true := by
  cases hg : read j with
  | error e =>
    rw [hg] at h
    cases h
  | ok g =>
    rw [hg] at h
    exact ⟨g, rfl, h⟩

/-- The second wire is removed. -/
def removal : List Edit := [.removeWireWithId "d"]

theorem rewires_removal : ∀ e ∈ removal, e.Rewires := by
  simp [removal, Edit.Rewires]

end GiveTake

/-! ### Graphs that came from documents -/

/-- Whatever a document says, its wires are removed and new ones are made: if the graph is valid in
the end, then all its outputs know the wires that begin at them. Its inputs know the wires that end
at them if no wire of the document began at an input. -/
theorem Document.accepted_of_load {r : Registry} {ids : IdSupply} {name : String}
    {category : Category} {j : Json} {g : Graph}
    (h : (load r (.new ids name category) j).result = .ok g) {es : List Edit}
    (hes : ∀ e ∈ es, e.Rewires) (hv : (es.foldl Edit.apply g).validate = true) {w : WireKey}
    (hw : w ∈ (es.foldl Edit.apply g).links) :
    (es.foldl Edit.apply g).Departs w ∧
      ((∀ v ∈ g.links, ∀ s, g.sourceOf? v = some s → s.side = .output) →
        (es.foldl Edit.apply g).Arrives w) := by
  obtain ⟨u, hu, rfl⟩ := exists_unresolved_of_load h
  exact ⟨(hu.attached_relink.rewire hes).departs hv hw,
    fun hout => ((hu.fed_relink hout).rewire hes).arrives hv hw⟩

/-- A document with two wires into one input is accepted once the second wire is gone. -/
theorem Document.accepted_of_load_doubled :
    ∃ g, GiveTake.read GiveTake.doubled = .ok g ∧
      (∀ e ∈ GiveTake.removal, e.Rewires) ∧
      (GiveTake.removal.foldl Edit.apply g).validate = true ∧
      0 ∈ (GiveTake.removal.foldl Edit.apply g).links ∧
      (∀ v ∈ g.links, ∀ s, g.sourceOf? v = some s → s.side = .output) ∧
      (GiveTake.removal.foldl Edit.apply g).Departs 0 ∧
      (GiveTake.removal.foldl Edit.apply g).Arrives 0 := by
  have hcomputed : (GiveTake.read GiveTake.doubled).toOption.any (fun g =>
      (GiveTake.removal.foldl Edit.apply g).validate &&
      decide (0 ∈ (GiveTake.removal.foldl Edit.apply g).links) &&
      g.links.all fun v => (g.sourceOf? v).all fun s => decide (s.side = .output)) = true := by
    decide +kernel
  obtain ⟨g, hg, hread⟩ := GiveTake.exists_of_read hcomputed
  simp only [Bool.and_eq_true, List.all_eq_true, Option.all_eq_true, decide_eq_true_eq] at hread
  obtain ⟨⟨hv, hw⟩, hout⟩ := hread
  obtain ⟨hdeparts, harrives⟩ := Document.accepted_of_load hg GiveTake.rewires_removal hv hw
  exact ⟨g, hg, GiveTake.rewires_removal, hv, hw, hout, hdeparts, harrives hout⟩

/-- A wire of a document may begin at an input and take the place of the wire that the input knows.
When it goes, a valid graph is left whose input knows no wire at all. -/
theorem Document.not_forall_arrives_of_load :
    ¬ ∀ (r : Registry) (ids : IdSupply) (name : String) (category : Category) (j : Json) (g : Graph)
      (es : List Edit), (load r (.new ids name category) j).result = .ok g →
      (∀ e ∈ es, e.Rewires) → (es.foldl Edit.apply g).validate = true →
      ∀ w ∈ (es.foldl Edit.apply g).links,
        (es.foldl Edit.apply g).Departs w ∧ (es.foldl Edit.apply g).Arrives w := by
  intro h
  have hcomputed : (GiveTake.read GiveTake.crossed).toOption.any (fun g =>
      let g' := GiveTake.removal.foldl Edit.apply g
      g'.validate && decide (0 ∈ g'.links) && decide (g'.targetOf? 0 = some ⟨1, .input, 0⟩) &&
        ((g'.pin? ⟨1, .input, 0⟩).bind (·.incoming)).isNone) = true := by
    decide +kernel
  obtain ⟨g, hg, hread⟩ := GiveTake.exists_of_read hcomputed
  simp only [Bool.and_eq_true, decide_eq_true_eq, Option.isNone_iff_eq_none] at hread
  obtain ⟨⟨⟨hv, hw⟩, ht⟩, hnone⟩ := hread
  obtain ⟨-, t, p, ht', hp, hknown⟩ :=
    h GiveTake.registry {} "Graph" .controlFlow GiveTake.crossed g _ hg
      GiveTake.rewires_removal hv 0 hw
  obtain rfl : t = ⟨1, .input, 0⟩ := Option.some.inj (ht'.symm.trans ht)
  rw [hp, Option.bind_some, hknown] at hnone
  cases hnone

end Patchbay
