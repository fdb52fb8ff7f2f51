import Patchbay.Proofs.Document.RoundTrip
import Patchbay.Proofs.Document.Written
import Patchbay.Proofs.Store.Gained
/-!
# Loading what was saved

A graph that is saved becomes a version that holds its document as a text. Whoever loads this version
reads the text, and all that can go wrong then is a place that is not made of numbers.

## Main definitions

* `Registry.Knows`: a registry makes nodes of the types that a graph has.

## Main statements

* `Catalogue.exists_loadFrom_print`: which documents of graphs become graphs.
* `Catalogue.loadVersion_of_save`: as long as it is there, the version that a graph was saved as is
  loaded exactly if the places that the graph tells are made of numbers.
-/
namespace Patchbay

/-- A registry makes nodes of the types that a graph has. -/
def Registry.Knows (r : Registry) (g : Graph) : Prop :=
  ∀ n ∈ g.memberNodes, ∀ ids, (r.create n.type ids).isSome = true

namespace Store.Catalogue
variable {c d : Catalogue} {now : Timestamp} {slug : String} {name : Option String} {g : Graph}
  {v : Version} {id : Nat} {journal : Journal}

/-! ### What is stored -/

/-- The document of a version is the one that is stored under its number. -/
theorem Filed.documentOf_eq (hc : c.Filed) (hv : v ∈ c.versions) {i : Int64}
    (hi : i.toInt = v.id) : c.documentOf i = .ok v.document := by
  have hfind : (c.versions.find? fun w => (w.id : Int) = i.toInt) = some v := by
    have hkey : (c.versions.find? fun w => w.id = v.id) = some v := by
      refine find?_key_of_mem (List.pairwise_map.2 (hc.ids.imp fun hlt => ?_)) hv
      exact Nat.ne_of_lt hlt
    rw [← hkey]
    refine List.find?_congr fun w _ => decide_eq_decide.2 ?_
    rw [hi, Int.ofNat_inj]
  simp only [documentOf, version, hc.need_eq, hfind]
  rfl

theorem exists_of_documentOf {i : Int64} {text : String} (h : c.documentOf i = .ok text) :
    ∃ v ∈ c.versions, (v.id : Int) = i.toInt ∧ v.document = text := by
  simp only [documentOf, version] at h
  cases hneed : c.need .version with
  | error e =>
    rw [hneed] at h
    cases h
  | ok _ =>
    rw [hneed] at h
    cases hv : c.versions.find? fun v => (v.id : Int) = i.toInt with
    | none =>
      simp only [hv] at h
      cases h
    | some v =>
      simp only [hv] at h
      have hid := List.find?_some hv
      exact ⟨v, List.mem_of_find?_eq_some hv, of_decide_eq_true hid, Except.ok.inj h⟩

/-- A graph that is saved becomes the version that is told. -/
theorem Filed.exists_version_of_save (hc : c.Filed)
    (h : (Work.save now slug g name).run .never c = (.ok (id, journal), d)) :
    d.Filed ∧ ∃ v ∈ d.versions, v.id = id ∧ v.document = (Document.ofGraph g).print none := by
  have hafter : d = c.after now (.save slug g name) := by
    rw [after_eq, carryOut, Request.work, Work.result_map, Work.result_eq_ok_iff.2 h]
    rfl
  refine ⟨hafter ▸ hc.after_any now _, ?_⟩
  obtain ⟨-, -, rfl, -, rfl⟩ := exists_of_save h
  exact ⟨_, List.mem_append_right _ (List.mem_singleton_self _), rfl, rfl⟩

/-! ### What is loaded -/

/-- The document of a graph becomes a graph if what is read of it does. -/
theorem loadFrom_print (r : Registry) (empty g : Graph) :
    (loadFrom r empty (.ok ((Document.ofGraph g).print none))).1.toOption =
      (Document.load r empty (Document.ofGraph g).reread).result.toOption := by
  have hparse := Document.parse_eq_ok_iff.2 (Document.parse_print_ofGraph g none)
  simp only [loadFrom, Document.loadText, hparse]
  cases Document.load r empty (Document.ofGraph g).reread with
  | mk result journal => cases result <;> rfl

theorem exists_loadFrom_print (r : Registry) (empty g : Graph) :
    (∃ l, (loadFrom r empty (.ok ((Document.ofGraph g).print none))).1 = .ok l) ↔
      ∃ l, (Document.load r empty (Document.ofGraph g).reread).result = .ok l := by
  have hsome {ε : Type} (x : Except ε Graph) : (∃ l, x = .ok l) ↔ x.toOption.isSome = true := by
    cases x <;> simp [Except.toOption]
  rw [hsome, hsome, loadFrom_print]

/-- The version that a graph was saved as is loaded as long as it is there, if the places that the
graph tells are made of numbers, and only then. -/
theorem Filed.exists_loadVersion_iff (hd : d.Filed) (hv : v ∈ d.versions)
    (hdocument : v.document = (Document.ofGraph g).print none) {r : Registry} (hr : r.Knows g)
    (empty : Graph) {i : Int64} (hi : i.toInt = v.id) (qs : List (Timestamp × Request)) :
    (∃ l, ((d.afterAll qs).loadVersion r empty i).1 = .ok l) ↔
      (∃ w ∈ (d.afterAll qs).versions, w.id = v.id) ∧ g.Placed := by
  have he : (d.afterAll qs).Filed := hd.afterAll qs
  have hsame {w : Version} (hw : w ∈ (d.afterAll qs).versions) (hid : w.id = v.id) :
      (d.afterAll qs).documentOf i = .ok ((Document.ofGraph g).print none) := by
    obtain rfl := hd.eq_of_id_afterAll hv hw hid
    rw [he.documentOf_eq hw hi, hdocument]
  constructor
  · rintro ⟨l, hl⟩
    cases hthere : (d.afterAll qs).documentOf i with
    | error e =>
      rw [loadVersion, hthere] at hl
      cases hl
    | ok text =>
      obtain ⟨w, hw, hid, -⟩ := exists_of_documentOf hthere
      have hid : w.id = v.id := Int.ofNat_inj.1 (hid.trans hi)
      rw [loadVersion, hsame hw hid] at hl
      obtain ⟨l', hl'⟩ := (exists_loadFrom_print r empty g).1 ⟨l, hl⟩
      exact ⟨⟨w, hw, hid⟩, Document.placed_of_load_reread hr hl'⟩
  · rintro ⟨⟨w, hw, hid⟩, hplaced⟩
    rw [loadVersion, hsame hw hid, exists_loadFrom_print]
    exact Document.exists_load_reread r empty hplaced

end Store.Catalogue

/-! ### A graph that is lost and one that is not -/

theorem Registry.Covers.knows {r : Registry} {g : Graph} (h : r.Covers g) : r.Knows g := by
  intro n hn ids
  obtain ⟨k, hk, hkn⟩ := List.mem_filterMap.1 hn
  obtain ⟨m, ids', hcreate, -⟩ := h k hk n hkn ids
  exact Option.isSome_of_mem hcreate

namespace GiveTake

/-- There is a place for graphs that are run by control. -/
def opened : List (Timestamp × Store.Request) := [(⟨0⟩, .create { slug := "a", name := "n" })]

/-- Another version comes and goes, and a third one stays. -/
def laterRequests : List (Timestamp × Store.Request) :=
  [(⟨2⟩, .save "a" (.new {}) none), (⟨2⟩, .deleteVersion 2), (⟨3⟩, .save "a" (.new {}) none)]

/-- A graph that is run by control is saved there. -/
theorem exists_save {g : Graph} (h : g.category = .controlFlow) : ∃ d journal,
    (Store.Work.save ⟨1⟩ "a" g none).run .never (Store.Catalogue.fresh.afterAll opened) =
      (.ok (1, journal), d) := by
  have hget : ((Store.Catalogue.fresh.afterAll opened).get "a").toOption.join.map (·.category) =
      some .controlFlow := by decide +kernel
  have hpermit : (Store.Catalogue.fresh.afterAll opened).permit = .ok () := by decide +kernel
  have hlast : (Store.Catalogue.fresh.afterAll opened).lastId = 0 := by decide +kernel
  generalize Store.Catalogue.fresh.afterAll opened = c at hget hpermit hlast
  obtain ⟨m, hm, hcategory⟩ := Option.map_eq_some_iff.1 hget
  have hm : c.get "a" = .ok (some m) := by
    cases hr : c.get "a" with
    | error e =>
      rw [hr] at hm
      cases hm
    | ok o =>
      rw [hr] at hm
      exact congrArg Except.ok hm
  simp only [← Store.Work.result_eq_ok_iff, Store.Work.result_save, hm, hpermit, hlast, bind,
    Except.bind, hcategory, h, ne_eq, not_true_eq_false, if_false]
  exact ⟨_, _, rfl⟩

/-- A node goes to a place that is not made of numbers. -/
def atNotANumber : Graph := (Edit.placeNode 0 ⟨Decimal.Binary.notANumber, 0⟩).apply graph

theorem knows_atNotANumber : registry.Knows atNotANumber := by
  have htypes : ∀ n ∈ atNotANumber.memberNodes, n.type = "give" ∨ n.type = "take" := by
    decide +kernel
  intro n hn ids
  rcases htypes n hn with h | h <;> rw [h] <;> rfl

end GiveTake

/-- Whatever was asked of a catalogue before: if a graph is saved as a version, then there is a
version of this number. Whatever is asked of the catalogue afterwards: the version of this number is
loaded by a registry that knows its types, exactly if it is still there and all places that the
graph tells are made of numbers. -/
theorem Store.Catalogue.loadVersion_of_save {qs : List (Timestamp × Request)} {now : Timestamp}
    {slug : String} {g : Graph} {name : Option String} {id : Nat} {d : Catalogue} {journal : Journal}
    (h : (Work.save now slug g name).run .never (fresh.afterAll qs) = (.ok (id, journal), d))
    {r : Registry} (hr : r.Knows g) (empty : Graph) {i : Int64} (hi : i.toInt = id) :
    (∃ v ∈ d.versions, v.id = id) ∧ ∀ rs : List (Timestamp × Request),
      (∃ l, ((d.afterAll rs).loadVersion r empty i).1 = .ok l) ↔
        (∃ v ∈ (d.afterAll rs).versions, v.id = id) ∧ g.Placed := by
  obtain ⟨hd, v, hv, rfl, hdocument⟩ := (filed_afterAll qs).exists_version_of_save h
  exact ⟨⟨v, hv, rfl⟩, hd.exists_loadVersion_iff hv hdocument hr empty hi⟩

/-- Two nodes in their groups are saved and loaded, also when another version has been saved and
deleted again. -/
theorem Store.Catalogue.loadVersion_of_save_giveTake : ∃ d journal,
    (Work.save ⟨1⟩ "a" GiveTake.graph none).run .never (fresh.afterAll GiveTake.opened) =
      (.ok (1, journal), d) ∧
      GiveTake.registry.Knows GiveTake.graph ∧ (1 : Int64).toInt = (1 : Nat) ∧
      GiveTake.graph.Placed ∧
      ∃ l, ((d.afterAll GiveTake.laterRequests).loadVersion GiveTake.registry (.new {}) 1).1 =
        .ok l := by
  have hplaced : GiveTake.graph.Placed := by decide +kernel
  have hknows := GiveTake.covers.knows
  obtain ⟨d, journal, hsave⟩ := GiveTake.exists_save (g := GiveTake.graph) (by decide +kernel)
  obtain ⟨-, hloads⟩ := Store.Catalogue.loadVersion_of_save hsave hknows (.new {}) (i := 1) rfl
  have hids : (((Work.save ⟨1⟩ "a" GiveTake.graph none).run .never
      (fresh.afterAll GiveTake.opened)).2.afterAll GiveTake.laterRequests).versions.map (·.id) =
        [1, 3] := by decide +kernel
  rw [hsave] at hids
  have hthere : 1 ∈ (d.afterAll GiveTake.laterRequests).versions.map (·.id) :=
    hids ▸ List.mem_cons_self
  exact ⟨d, journal, hsave, hknows, rfl, hplaced,
    (hloads _).2 ⟨List.mem_map.1 hthere, hplaced⟩⟩

/-- A node can be put to a place that is not made of numbers. Its graph is saved and cannot be loaded
again. -/
theorem Store.Catalogue.not_forall_loadVersion_of_save :
    ¬ ∀ (g : Graph) (r : Registry) (qs : List (Timestamp × Request)) (now : Timestamp)
      (slug : String) (name : Option String) (id : Nat) (d : Catalogue) (journal : Journal)
      (i : Int64), Reachable g → r.Knows g →
      (Work.save now slug g name).run .never (fresh.afterAll qs) = (.ok (id, journal), d) →
      i.toInt = id → ∃ l, (d.loadVersion r (.new {}) i).1 = .ok l := by
  intro h
  have hreachable : Reachable GiveTake.atNotANumber :=
    GiveTake.reachable.edit (.placeNode 0 _) trivial
  have hlost : ¬ GiveTake.atNotANumber.Placed := by decide +kernel
  obtain ⟨d, journal, hsave⟩ :=
    GiveTake.exists_save (g := GiveTake.atNotANumber) (by decide +kernel)
  have hloads := h _ _ _ _ _ _ _ _ _ 1 hreachable GiveTake.knows_atNotANumber hsave rfl
  obtain ⟨hd, v, hv, hid, hdocument⟩ := (filed_afterAll _).exists_version_of_save hsave
  have hi : (1 : Int64).toInt = v.id := hid ▸ rfl
  exact hlost ((hd.exists_loadVersion_iff hv hdocument GiveTake.knows_atNotANumber _ hi []).1
    hloads).2

end Patchbay
