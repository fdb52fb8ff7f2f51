import Patchbay.Proofs.Document.Category
import Patchbay.Proofs.Store.Saved
/-!
# Categories of saved graphs

A graph is saved only under a slug of its category. The category of a slug may be changed later, but
as long as this is not done to a slug with versions, every version tells the category of its slug,
and so does every graph that is loaded.

## Main definitions

* `Request.Recategorizes`: a request changes the category of a slug that has versions.
* `Catalogue.Faithful`: no request in a row does that.
* `Catalogue.Catalogued`: versions and loaded graphs are of the category that is told for their slug.

## Main statements

* `Catalogue.Filed.matched_after_iff`: the requests that keep the versions as their slugs tell.
* `Catalogue.catalogued_afterAll`: what holds after faithful requests.
-/
namespace Patchbay.Store

/-- A request changes the category of a slug that has versions. -/
def Request.Recategorizes (c : Catalogue) : Request → Prop
  | .update m => (∃ v ∈ c.versions, v.slug = Text.untilNul m.slug) ∧
      ∃ r ∈ c.row? m.slug, r.category ≠ m.category.label
  | _ => False

instance (c : Catalogue) : (q : Request) → Decidable (q.Recategorizes c)
  | .update _ => inferInstanceAs (Decidable (_ ∧ _))
  | .create _ | .delete _ | .save .. | .deleteVersion _ | .prune .. =>
    inferInstanceAs (Decidable False)

/-- If a request saves a graph, then one of some kind. -/
def Request.Saves (P : Graph → Prop) : Request → Prop
  | .save _ g _ => P g
  | _ => True

instance (P : Graph → Prop) [DecidablePred P] : (q : Request) → Decidable (q.Saves P)
  | .save _ g _ => inferInstanceAs (Decidable (P g))
  | .create _ | .update _ | .delete _ | .deleteVersion _ | .prune .. =>
    inferInstanceAs (Decidable True)

namespace Catalogue

/-- No request changes the category of a slug that has versions. -/
def Faithful : Catalogue → List (Timestamp × Request) → Prop
  | _, [] => True
  | c, q :: qs => ¬ q.2.Recategorizes c ∧ (c.after q.1 q.2).Faithful qs

instance (c : Catalogue) (qs : List (Timestamp × Request)) : Decidable (c.Faithful qs) := by
  induction qs generalizing c with
  | nil => exact inferInstanceAs (Decidable True)
  | cons q qs ih => exact @instDecidableAnd _ _ inferInstance (ih _)

/-- Versions and loaded graphs are of the category that is told for their slug. -/
structure Catalogued (c : Catalogue) : Prop where
  /-- The document of a version names the category of its slug. -/
  told : ∀ v ∈ c.versions, ∃ m j, c.get v.slug = .ok (some m) ∧ Json.parse v.document = .ok j ∧
    j.member? "category" = some (.string m.category.label)
  /-- The graph that is loaded from a slug is of the category of the slug. -/
  latest : ∀ slug r empty g, (c.loadLatest r empty slug).1 = .ok g →
    ∃ m, c.get slug = .ok (some m) ∧ g.category = m.category
  /-- The graph that is loaded from a version is of the category of its slug. -/
  version : ∀ id r empty g, (c.loadVersion r empty id).1 = .ok g → ∃ v ∈ c.versions,
    (v.id : Int) = id.toInt ∧ ∃ m, c.get v.slug = .ok (some m) ∧ g.category = m.category

/-- Every version holds the document of a graph of some kind, which is of the category of its slug.
-/
def Matched (P : Graph → Prop) (c : Catalogue) : Prop :=
  ∀ v ∈ c.versions, ∃ g, P g ∧ v.document = (Document.ofGraph g).print none ∧
    ∀ r ∈ c.graphs, r.slug = v.slug → r.category = g.category.label

variable {P : Graph → Prop} {c d : Catalogue} {now : Timestamp} {q : Request} {v : Version}

theorem category_injective {a b : Category} (h : a.label = b.label) : a = b := by
  have hb := Category.ofLabel?_label b
  rw [← h, Category.ofLabel?_label] at hb
  exact Option.some.inj hb

/-! ### One request -/

namespace Matched

/-- Versions go on to match their slugs if no row of theirs changes its category. -/
theorem of_rows (hm : c.Matched P) (hversions : d.versions ⊆ c.versions)
    (hrows : ∀ v ∈ d.versions, ∀ s ∈ d.graphs, s.slug = v.slug →
      ∃ r ∈ c.graphs, r.slug = v.slug ∧ s.category = r.category) : d.Matched P := by
  intro v hv
  obtain ⟨g, hg, hdocument, hcategory⟩ := hm v (hversions hv)
  refine ⟨g, hg, hdocument, fun s hs hslug => ?_⟩
  obtain ⟨r, hr, hrslug, hsame⟩ := hrows v hv s hs hslug
  exact hsame.trans (hcategory r hr hrslug)

/-- Versions and rows may go, while what is told of a slug stays. -/
theorem of_subset (hm : c.Matched P) (hversions : d.versions ⊆ c.versions)
    (hrows : d.graphs ⊆ c.graphs) : d.Matched P :=
  hm.of_rows hversions fun _ _ s hs hslug => ⟨s, hrows hs, hslug, rfl⟩

/-- A row that is touched keeps its category. -/
theorem touched (hm : c.Matched P) (now : Timestamp) (slug : String) :
    ({ c with graphs := c.graphs.map (Catalogue.touched now slug) } : Catalogue).Matched P := by
  refine hm.of_rows (List.Subset.refl _) fun v hv s hs hslug => ?_
  obtain ⟨r, hr, rfl⟩ := List.mem_map.1 hs
  exact ⟨r, hr, (slug_touched now slug r).symm.trans hslug, category_touched now slug r⟩

/-- A version comes with the document of a graph of the category of its slug. -/
theorem addVersion (hm : c.Matched P) {g : Graph} (hg : P g) {v : Version}
    (hdocument : v.document = (Document.ofGraph g).print none)
    (hcategory : ∀ r ∈ c.graphs, r.slug = v.slug → r.category = g.category.label) {lastId : Nat} :
    ({ c with versions := c.versions ++ [v], lastId } : Catalogue).Matched P := by
  intro w hw
  rcases List.mem_append.1 hw with hw | hw
  · exact hm w hw
  · rw [List.mem_singleton.1 hw]
    exact ⟨g, hg, hdocument, hcategory⟩

end Matched

namespace Filed

/-- There is one row for a version, which tells what is known of its graph. -/
theorem exists_row (hc : c.Filed) (hv : v ∈ c.versions) : ∃ r ∈ c.graphs, ∃ category : Category,
    r.slug = v.slug ∧ r.category = category.label ∧
      c.get v.slug = .ok (some { r with category }) := by
  obtain ⟨r, hr, hslug⟩ := hc.owned v hv
  have hfind := find?_key_of_mem hc.slugs hr
  rw [hslug] at hfind
  obtain ⟨category, hcategory, hfolder⟩ := hc.exists_folder hfind
  refine ⟨r, hr, category, hslug, hcategory, ?_⟩
  rw [hc.get_eq (hslug ▸ hc.plain r hr), hfolder]
  rfl

/-- The row of a folder tells the category of the folder. -/
theorem category_of_folder (hc : c.Filed) {slug : String} {f : Folder}
    (hf : c.folder? slug = some f) {r : Row} (hr : r ∈ c.graphs) (hslug : r.slug = slug) :
    r.category = f.about.category.label := by
  have hfind := find?_key_of_mem hc.slugs hr
  rw [hslug] at hfind
  obtain ⟨category, hcategory, hfolder⟩ := hc.exists_folder hfind
  obtain rfl := Option.some.inj (hf.symm.trans hfolder)
  exact hcategory

end Filed

/-- A step that does not change the category of a slug with versions keeps the versions as their
slugs tell. -/
theorem Step.matched (h : c.Step now q d) (hc : c.Filed) (hm : c.Matched P) (hq : q.Plain)
    (hsaves : q.Saves P) (hkeeps : ¬ q.Recategorizes c) : d.Matched P := by
  cases h with
  | taken | unknown | unplaced | misplaced => exact hm
  | create hr =>
    -- nothing was saved under a slug that is created
    refine hm.of_rows (List.Subset.refl _) fun v hv s hs hslug => ?_
    rcases List.mem_append.1 hs with hs | hs
    · exact ⟨s, hs, hslug, rfl⟩
    · rw [List.mem_singleton.1 hs] at hslug
      exact absurd hslug.symm (hc.slug_ne_of_none hr hv)
  | @update m old hr =>
    obtain ⟨hold, holdslug⟩ := mem_of_find? hr
    refine hm.of_rows (List.Subset.refl _) fun v hv s hs hslug => ?_
    obtain ⟨r, hr', rfl⟩ := List.mem_map.1 hs
    by_cases hslugs : r.slug = m.slug
    · rw [if_pos hslugs] at hslug ⊢
      have hvslug : v.slug = m.slug := hslug.symm.trans holdslug
      refine ⟨old, hold, hslug, ?_⟩
      by_contra hne
      refine hkeeps ⟨⟨v, hv, hvslug.trans hq.1.untilNul_eq.symm⟩, old, ?_, fun e => hne e.symm⟩
      rw [row?_of_plain hq.1, hr]
      rfl
    · rw [if_neg hslugs] at hslug ⊢
      exact ⟨r, hr', hslug, rfl⟩
  | delete =>
    exact hm.of_subset List.filter_sublist.subset List.filter_sublist.subset
  | @save slug g name f hf hg =>
    refine (hm.touched now slug).addVersion hsaves rfl fun s hs hslug => ?_
    obtain ⟨r, hr, rfl⟩ := List.mem_map.1 hs
    have hcategory := hc.category_of_folder hf hr ((slug_touched now slug r).symm.trans hslug)
    rw [category_touched, hcategory, hg]
  | deleteVersion | prune =>
    exact hm.of_subset List.filter_sublist.subset (List.Subset.refl _)

namespace Filed

/-- A request that does not change the category of a slug with versions keeps the versions as their
slugs tell. -/
theorem matched_after (hc : c.Filed) (hm : c.Matched P) (hq : q.Plain) (hsaves : q.Saves P)
    (hkeeps : ¬ q.Recategorizes c) : (c.after now q).Matched P :=
  (hc.step hq now).matched hc hm hq hsaves hkeeps

/-- Two graphs of one text are of one category. -/
theorem category_eq_of_print_eq {g h : Graph}
    (heq : (Document.ofGraph g).print none = (Document.ofGraph h).print none) :
    g.category = h.category := by
  have hmember (g : Graph) : (Document.ofGraph g).reread.member? "category" =
      some (.string g.category.label) := by
    rw [Document.Loader.member?_of_written rfl, Json.reread_string]
  have hparse := Document.parse_print_ofGraph g none
  rw [heq, Document.parse_print_ofGraph, Except.ok.injEq] at hparse
  have hlabel := hmember g
  rw [← hparse, hmember, Option.some.injEq, Json.string.injEq] at hlabel
  exact category_injective hlabel.symm

/-- The requests that keep the versions as their slugs tell are those that do not change the category
of a slug with versions. -/
theorem matched_after_iff (hc : c.Filed) (hm : c.Matched P) (hq : q.Plain) (hsaves : q.Saves P) :
    (c.after now q).Matched P ↔ ¬ q.Recategorizes c := by
  refine ⟨fun hafter hchanges => ?_, hc.matched_after hm hq hsaves⟩
  cases q with
  | update m =>
    obtain ⟨⟨v, hv, hslug⟩, old, hold, hne⟩ := hchanges
    rw [hq.1.untilNul_eq] at hslug
    rw [Option.mem_def, row?_of_plain hq.1] at hold
    obtain ⟨hmem, holdslug⟩ := mem_of_find? hold
    rw [after_eq, hc.update_eq hq, hold] at hafter
    obtain ⟨g, -, hdocument, hcategory⟩ := hm v hv
    obtain ⟨h, -, hdocument', hcategory'⟩ := hafter v hv
    have hrow := hcategory' (changed now m old)
      (List.mem_map.2 ⟨old, hmem, if_pos holdslug⟩) (holdslug.trans hslug.symm)
    have hsame := category_eq_of_print_eq (hdocument.symm.trans hdocument')
    refine hne ((hcategory old hmem (holdslug.trans hslug.symm)).trans ?_)
    rw [hsame]
    exact hrow.symm
  | _ => exact hchanges

end Filed

/-! ### What is loaded -/

/-- A graph that is loaded was read from a document. -/
theorem exists_load_of_loadFrom {r : Registry} {empty g : Graph} {document : Except Error String}
    (h : (loadFrom r empty document).1 = .ok g) : ∃ text j, document = .ok text ∧
      Json.parse text = .ok j ∧ (Document.load r empty j).result = .ok g := by
  cases document with
  | error e => cases h
  | ok text =>
    simp only [loadFrom, Document.loadText] at h
    cases hj : Document.parse text with
    | error e =>
      rw [hj] at h
      cases h
    | ok j =>
      rw [hj] at h
      refine ⟨text, j, rfl, Document.parse_eq_ok_iff.1 hj, ?_⟩
      simp only at h
      cases hl : Document.load r empty j with
      | mk result journal =>
        rw [hl] at h
        cases result with
        | error e => cases h
        | ok l => exact congrArg Except.ok (Except.ok.inj h)

/-- The document of the newest version is that of a version of the slug. -/
theorem exists_of_latestDocument {slug text : String} (h : c.latestDocument slug = .ok text) :
    ∃ v ∈ c.versions, v.slug = Text.untilNul slug ∧ v.document = text := by
  simp only [latestDocument] at h
  cases hhas : c.has slug with
  | error e =>
    rw [hhas] at h
    cases h
  | ok b =>
    rw [hhas] at h
    cases b with
    | false => cases h
    | true =>
      simp only [latest] at h
      cases hneed : c.need .latest with
      | error e =>
        rw [hneed] at h
        cases h
      | ok _ =>
        rw [hneed] at h
        cases hv : (c.history slug).head? with
        | none =>
          simp only [hv] at h
          cases h
        | some v =>
          simp only [hv] at h
          obtain ⟨hmem, hslug⟩ := mem_history.1 (List.mem_of_mem_head? hv)
          exact ⟨v, hmem, hslug, Except.ok.inj h⟩

namespace Filed

/-- The document of a version names the category that is told for its slug. -/
theorem told (hc : c.Filed) (hm : c.Matched P) (hv : v ∈ c.versions) : ∃ m j,
    c.get v.slug = .ok (some m) ∧ Json.parse v.document = .ok j ∧
      j.member? "category" = some (.string m.category.label) := by
  obtain ⟨g, -, hdocument, hrow⟩ := hm v hv
  obtain ⟨r, hr, category, hslug, hcategory, hget⟩ := hc.exists_row hv
  have hsame : category = g.category := category_injective (hcategory.symm.trans (hrow r hr hslug))
  refine ⟨_, (Document.ofGraph g).reread, hget, ?_, ?_⟩
  · rw [hdocument, Document.parse_print_ofGraph]
  · rw [Document.Loader.member?_of_written rfl, Json.reread_string, hsame]

theorem catalogued (hc : c.Filed) (hm : c.Matched P) : c.Catalogued := by
  have hcategory {v : Version} {r : Registry} {empty g : Graph} {j : Json} (hv : v ∈ c.versions)
      (hj : Json.parse v.document = .ok j) (hg : (Document.load r empty j).result = .ok g) :
      ∃ m, c.get v.slug = .ok (some m) ∧ g.category = m.category := by
    obtain ⟨m, k, hget, hparse, hmember⟩ := hc.told hm hv
    obtain rfl := Except.ok.inj (hparse.symm.trans hj)
    exact ⟨m, hget, category_injective (Document.category_of_load hmember hg)⟩
  refine ⟨fun v => hc.told hm, fun slug r empty g h => ?_, fun id r empty g h => ?_⟩
  · obtain ⟨text, j, hlatest, hj, hg⟩ := exists_load_of_loadFrom h
    obtain ⟨v, hv, hslug, rfl⟩ := exists_of_latestDocument hlatest
    obtain ⟨m, hget, hsame⟩ := hcategory hv hj hg
    rw [hslug, get_untilNul] at hget
    exact ⟨m, hget, hsame⟩
  · obtain ⟨text, j, hversion, hj, hg⟩ := exists_load_of_loadFrom h
    obtain ⟨v, hv, hid, rfl⟩ := exists_of_documentOf hversion
    exact ⟨v, hv, hid, hcategory hv hj hg⟩

/-- A slug with versions is loaded if the places of its graphs are made of numbers. -/
theorem exists_loadLatest (hc : c.Filed) (hm : c.Matched Graph.Placed) {slug : String}
    (hslug : c.history slug ≠ []) (r : Registry) (empty : Graph) :
    ∃ g, (c.loadLatest r empty slug).1 = .ok g := by
  obtain ⟨v, vs, hhistory⟩ := List.exists_cons_of_ne_nil hslug
  obtain ⟨hv, hvslug⟩ := mem_history.1 (hhistory ▸ List.mem_cons_self)
  obtain ⟨g, hplaced, hdocument, -⟩ := hm v hv
  have hhas : c.has slug = .ok true := by
    obtain ⟨s, hs, hsslug⟩ := hc.owned v hv
    have hfind := find?_key_of_mem hc.slugs hs
    rw [hsslug, hvslug] at hfind
    simp only [has, hc.need_eq, row?, hfind]
    rfl
  have hlatest : c.latestDocument slug = .ok ((Document.ofGraph g).print none) := by
    simp only [latestDocument, hhas, latest, hc.need_eq, hhistory]
    rw [← hdocument]
    rfl
  rw [loadLatest, hlatest, exists_loadFrom_print]
  exact Document.exists_load_reread r empty hplaced

end Filed

/-! ### Requests one after the other -/

namespace Filed

/-- Whatever its texts are, a request that does not change the category of a slug with versions keeps
the versions as their slugs tell. -/
theorem matched_after_any (hc : c.Filed) (hm : c.Matched P) (hsaves : q.Saves P)
    (hkeeps : ¬ q.Recategorizes c) : (c.after now q).Matched P := by
  rw [after_cut]
  refine hc.matched_after hm q.plain_cut ?_ fun hchanges => hkeeps ?_
  · cases q <;> exact hsaves
  · cases q with
    | update m =>
      simpa only [Request.cut, Request.Recategorizes, row?_untilNul, untilNul_untilNul] using hchanges
    | _ => exact hchanges

theorem matched_afterAll (hc : c.Filed) (hm : c.Matched P) {qs : List (Timestamp × Request)}
    (h : c.Faithful qs) (hsaves : ∀ q ∈ qs, q.2.Saves P) : (c.afterAll qs).Matched P := by
  induction qs generalizing c with
  | nil => exact hm
  | cons q qs ih =>
    obtain ⟨hq, hqs⟩ := List.forall_mem_cons.1 hsaves
    exact ih (hc.after_any q.1 q.2) (hc.matched_after_any hm hq h.1) h.2 hqs

end Filed

/-- Whatever is asked of a catalogue, as long as no request changes the category of a slug with
versions: its versions tell the categories of their slugs, and so does every graph that is loaded. A
slug with versions is loaded if its graphs were saved with places that are made of numbers. -/
theorem catalogued_afterAll {qs : List (Timestamp × Request)} (h : fresh.Faithful qs) :
    (fresh.afterAll qs).Catalogued ∧
      ((∀ q ∈ qs, q.2.Saves Graph.Placed) → ∀ slug, (fresh.afterAll qs).history slug ≠ [] →
        ∀ r empty, ∃ g m, ((fresh.afterAll qs).loadLatest r empty slug).1 = .ok g ∧
          (fresh.afterAll qs).get slug = .ok (some m) ∧ g.category = m.category) := by
  have hc := filed_afterAll qs
  have hm : (fresh.afterAll qs).Matched fun _ => True :=
    filed_fresh.matched_afterAll nofun h fun q _ => by cases q.2 <;> trivial
  refine ⟨hc.catalogued hm, fun hsaves slug hslug r empty => ?_⟩
  obtain ⟨g, hg⟩ :=
    hc.exists_loadLatest (filed_fresh.matched_afterAll nofun h hsaves) hslug r empty
  obtain ⟨m, hget, hsame⟩ := (hc.catalogued hm).latest slug r empty g hg
  exact ⟨g, m, hg, hget, hsame⟩

end Catalogue

namespace Histories

/-- A slug is of one category at first and of another one when its first version is saved. Later it
gets another name. -/
def settledFirst : List (Timestamp × Request) :=
  [(⟨0⟩, .create { slug := "a", name := "n" }),
    (⟨1⟩, .update { slug := "a", name := "n", category := .dataFlow }),
    (⟨2⟩, .save "a" (.new {} "g" .controlFlow) none), (⟨2⟩, .save "a" (.new {} "g" .dataFlow) none),
    (⟨3⟩, .update { slug := "a", name := "m", category := .dataFlow })]

/-- The category of a slug with a version is changed. -/
def changedLater : List (Timestamp × Request) :=
  [(⟨0⟩, .create { slug := "a", name := "n" }), (⟨1⟩, .save "a" (.new {} "g" .controlFlow) none),
    (⟨2⟩, .update { slug := "a", name := "n", category := .dataFlow })]

end Histories

/-- The version of a slug whose category was settled before is loaded. -/
theorem Catalogue.catalogued_afterAll_settledFirst :
    Catalogue.fresh.Faithful Histories.settledFirst ∧
      ((Catalogue.fresh.afterAll Histories.settledFirst).history "a").map (·.id) = [1] ∧
      (Catalogue.fresh.afterAll Histories.settledFirst).Catalogued ∧
      ∃ g m,
        ((Catalogue.fresh.afterAll Histories.settledFirst).loadLatest {} (.new {}) "a").1 = .ok g ∧
        (Catalogue.fresh.afterAll Histories.settledFirst).get "a" = .ok (some m) ∧
        g.category = m.category := by
  have hfaithful : Catalogue.fresh.Faithful Histories.settledFirst := by decide +kernel
  have hids : ((Catalogue.fresh.afterAll Histories.settledFirst).history "a").map (·.id) = [1] := by
    decide +kernel
  have hsaves : ∀ q ∈ Histories.settledFirst, q.2.Saves Graph.Placed := by decide +kernel
  obtain ⟨hcatalogued, hloads⟩ := Catalogue.catalogued_afterAll hfaithful
  refine ⟨hfaithful, hids, hcatalogued, hloads hsaves "a" (fun hnil => ?_) {} (.new {})⟩
  rw [hnil] at hids
  cases hids

/-- The category of a slug can be changed when it has versions, which keep theirs. -/
theorem Catalogue.not_forall_catalogued_afterAll :
    ¬ ∀ qs : List (Timestamp × Request), (fresh.afterAll qs).Catalogued := by
  intro h
  have hdocument : (fresh.afterAll Histories.changedLater).versions.map (·.document) =
      [(Document.ofGraph (.new {} "g" .controlFlow)).print none] := rfl
  have hcategory :
      ((fresh.afterAll Histories.changedLater).get "a").toOption.join.map (·.category) =
      some .dataFlow := by decide +kernel
  have hslug : (fresh.afterAll Histories.changedLater).versions.map (·.slug) = ["a"] := rfl
  obtain ⟨v, hv⟩ : ∃ v, (fresh.afterAll Histories.changedLater).versions = [v] :=
    List.length_eq_one_iff.1 rfl
  rw [hv, List.map_singleton, List.singleton_inj] at hdocument hslug
  obtain ⟨m, j, hget, hj, hmember⟩ :=
    (h Histories.changedLater).told v (hv ▸ List.mem_singleton_self v)
  -- the document tells one category and the row another one
  rw [hslug] at hget
  rw [hget] at hcategory
  have hm : m.category = .dataFlow := Option.some.inj hcategory
  rw [hdocument, Document.parse_print_ofGraph, Except.ok.injEq] at hj
  rw [← hj, Document.Loader.member?_of_written rfl, Json.reread_string, hm,
    Option.some.injEq, Json.string.injEq] at hmember
  exact absurd hmember (by decide)

end Patchbay.Store
