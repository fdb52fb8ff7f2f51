import Mathlib.Data.List.Perm.Basic
import Mathlib.Data.String.Basic
import Patchbay.Proofs.Grouping.Forest
import Patchbay.Proofs.Store.Ledger
/-!
# Catalogues in order

In a catalogue in order no two graphs have one slug, every version belongs to a graph, and later
versions have greater numbers and no earlier times. A listing by time and number, the newest first,
is then the versions as they were saved, backwards. What a request does to such a catalogue is told
without tables and errors of tables.

## Main definitions

* `Catalogue.Filed`: a catalogue whose rows and versions fit together.
* `Catalogue.Orderly`: a catalogue whose versions were also saved one after the other.
* `Catalogue.Before`: nothing was saved after a point in time.
* `Catalogue.Step`: what a request leaves of such a catalogue.

## Main statements

* `Catalogue.Filed.create_eq`, `update_eq`, `delete_eq`, `save_eq`, `deleteVersion_eq` and
  `Catalogue.Orderly.prune_eq`: what the requests do.
* `Catalogue.Filed.step`: every request is one of the steps.
* `Catalogue.Orderly.history_eq`: the listing of the versions of a graph.
-/
namespace Patchbay.Store

/-- Listed in this order, of two versions of different numbers one only comes before the other. -/
theorem Version.listedBefore_iff {v w : Version} :
    v.listedBefore w = true ↔ w.created < v.created ∨ v.created = w.created ∧ w.id ≤ v.id := by
  simp [Version.listedBefore]

theorem Version.listedBefore_trans (u v w : Version) (huv : u.listedBefore v = true)
    (hvw : v.listedBefore w = true) : u.listedBefore w = true := by
  rw [listedBefore_iff] at *
  rcases huv with huv | ⟨he, hle⟩
  · rcases hvw with hvw | ⟨he', -⟩
    · exact .inl (lt_trans hvw huv)
    · exact .inl (he' ▸ huv)
  · rcases hvw with hvw | ⟨he', hle'⟩
    · exact .inl (he ▸ hvw)
    · exact .inr ⟨he.trans he', hle'.trans hle⟩

theorem Version.listedBefore_total (v w : Version) :
    (v.listedBefore w || w.listedBefore v) = true := by
  rw [Bool.or_eq_true, listedBefore_iff, listedBefore_iff]
  rcases lt_trichotomy v.created w.created with h | h | h
  · exact .inr (.inl h)
  · rcases Nat.le_total w.id v.id with hid | hid
    · exact .inl (.inr ⟨h, hid⟩)
    · exact .inr (.inr ⟨h.symm, hid⟩)
  · exact .inl (.inl h)

/-! ### Old versions -/

namespace Work
variable {c : Catalogue} {v : Version} {slug : String}

/-- Where no two versions have one number, the old ones are those of the listing that are not at its
front. -/
theorem isOld_iff (hids : (c.versions.map (·.id)).Nodup) (hv : v ∈ c.versions) {keep : Nat} :
    isOld slug keep c v = true ↔
      v.slug = Text.untilNul slug ∧ v ∉ (c.history slug).take keep := by
  have hmem : v.id ∈ ((c.history slug).take keep).map (·.id) ↔ v ∈ (c.history slug).take keep := by
    refine ⟨fun h => ?_, List.mem_map_of_mem⟩
    obtain ⟨w, hw, hid⟩ := List.mem_map.1 h
    have hwv := (Catalogue.mem_history.1 (List.mem_of_mem_take hw)).1
    exact List.inj_on_of_nodup_map hids hwv hv hid ▸ hw
  rw [isOld, Bool.and_eq_true, decide_eq_true_eq, decide_eq_true_eq, hmem]

/-- They are those behind its front. -/
theorem isOld_iff_mem_drop (hids : (c.versions.map (·.id)).Nodup) (hv : v ∈ c.versions)
    {keep : Nat} : isOld slug keep c v = true ↔ v ∈ (c.history slug).drop keep := by
  have hnodup : (c.history slug).Nodup :=
    (List.mergeSort_perm _ _).nodup_iff.2 ((hids.of_map _).filter _)
  rw [isOld_iff hids hv]
  constructor
  · rintro ⟨hslug, hfront⟩
    have hall := Catalogue.mem_history.2 ⟨hv, hslug⟩
    rw [← List.take_append_drop keep (c.history slug), List.mem_append] at hall
    exact hall.resolve_left hfront
  · intro h
    exact ⟨(Catalogue.mem_history.1 (List.mem_of_mem_drop h)).2,
      fun hfront => List.disjoint_take_drop hnodup (Nat.le_refl keep) hfront h⟩

theorem isOld_of_mem_take (hids : (c.versions.map (·.id)).Nodup) {keep : Nat}
    (hv : v ∈ (c.history slug).take keep) : isOld slug keep c v = false := by
  have hmem := (Catalogue.mem_history.1 (List.mem_of_mem_take hv)).1
  exact Bool.eq_false_iff.2 fun h => ((isOld_iff hids hmem).1 h).2 hv

theorem isOld_of_mem_drop (hids : (c.versions.map (·.id)).Nodup) {keep : Nat}
    (hv : v ∈ (c.history slug).drop keep) : isOld slug keep c v = true :=
  (isOld_iff_mem_drop hids (Catalogue.mem_history.1 (List.mem_of_mem_drop hv)).1).2 hv

/-- What is not old is the front of the listing. -/
theorem filter_isOld (hids : (c.versions.map (·.id)).Nodup) (slug : String) (keep : Nat) :
    (c.history slug).filter (fun v => !isOld slug keep c v) = (c.history slug).take keep := by
  have hfront : ((c.history slug).take keep).filter (fun v => !isOld slug keep c v) =
      (c.history slug).take keep :=
    List.filter_eq_self.2 fun v hv => by rw [isOld_of_mem_take hids hv]; rfl
  have hback : ((c.history slug).drop keep).filter (fun v => !isOld slug keep c v) = [] :=
    List.filter_eq_nil_iff.2 fun v hv => by rw [isOld_of_mem_drop hids hv]; decide
  conv_lhs => rw [← List.take_append_drop keep (c.history slug)]
  rw [List.filter_append, hfront, hback, List.append_nil]

/-- There are as many old versions as there are behind the front. -/
theorem countP_isOld (hids : (c.versions.map (·.id)).Nodup) (slug : String) (keep : Nat) :
    c.versions.countP (isOld slug keep c) = ((c.history slug).drop keep).length := by
  have hperm : (c.history slug).Perm (c.versions.filter fun v => v.slug = Text.untilNul slug) :=
    List.mergeSort_perm _ _
  have hslugs : c.versions.countP (isOld slug keep c) =
      (c.versions.filter fun v => v.slug = Text.untilNul slug).countP (isOld slug keep c) := by
    rw [List.countP_filter]
    refine List.countP_congr fun v hv => ?_
    rw [Bool.and_eq_true, decide_eq_true_eq]
    exact ⟨fun h => ⟨h, ((isOld_iff hids hv).1 h).1⟩, And.left⟩
  have hfront : ((c.history slug).take keep).countP (isOld slug keep c) = 0 :=
    List.countP_eq_zero.2 fun v hv => by rw [isOld_of_mem_take hids hv]; decide
  have hback : ((c.history slug).drop keep).countP (isOld slug keep c) =
      ((c.history slug).drop keep).length :=
    List.countP_eq_length.2 fun v hv => isOld_of_mem_drop hids hv
  rw [hslugs, ← hperm.countP_eq]
  conv_lhs => rw [← List.take_append_drop keep (c.history slug)]
  rw [List.countP_append, hfront, hback, Nat.zero_add]

/-- Where no two versions have one number, pruning takes the versions away that are behind the front
of the listing. -/
theorem result_prune_eq (hids : (c.versions.map (·.id)).Nodup) (slug : String) (keep : Nat) :
    (prune slug keep).result c = do
      c.need .prune
      c.permit
      return ((((c.history slug).drop keep).length,
          if (c.history slug).drop keep = [] then [] else
            [.info ("Pruned " ++ Numeral.natText ((c.history slug).drop keep).length ++
              " old version(s) of '" ++ slug ++ "'")]), { c with
        versions := c.versions.filter fun v => v ∉ (c.history slug).drop keep }) := by
  have hversions : c.versions.filter (fun v => !isOld slug keep c v) =
      c.versions.filter fun v => v ∉ (c.history slug).drop keep := by
    refine List.filter_congr fun v hv => ?_
    rw [Bool.eq_iff_iff, decide_eq_true_eq, ← isOld_iff_mem_drop hids hv, Bool.not_eq_true',
      Bool.not_eq_true]
  rw [result_prune, countP_isOld hids, hversions]
  simp only [List.length_eq_zero_iff]

end Work

namespace Catalogue

/-- A catalogue whose rows and versions fit together. -/
structure Filed (c : Catalogue) : Prop where
  tables : c.tables = .present
  writable : c.readOnly = false
  slugs : (c.graphs.map (·.slug)).Nodup
  plain : ∀ r ∈ c.graphs, Plain r.slug
  categories : ∀ r ∈ c.graphs, ∃ category : Category, r.category = category.label
  owned : ∀ v ∈ c.versions, ∃ r ∈ c.graphs, r.slug = v.slug
  ids : c.versions.Pairwise fun v w => v.id < w.id
  last : ∀ v ∈ c.versions, v.id ≤ c.lastId

/-- A catalogue whose versions were also saved one after the other. -/
structure Orderly (c : Catalogue) : Prop extends c.Filed where
  times : c.versions.Pairwise fun v w => v.created ≤ w.created

/-- Nothing was saved after a point in time. -/
def Before (c : Catalogue) (now : Timestamp) : Prop := ∀ v ∈ c.versions, v.created ≤ now.utc

theorem filed_fresh : fresh.Filed where
  tables := rfl
  writable := rfl
  slugs := List.nodup_nil
  plain := nofun
  categories := nofun
  owned := nofun
  ids := .nil
  last := nofun

theorem orderly_fresh : fresh.Orderly := { filed_fresh with times := .nil }

theorem before_fresh (now : Timestamp) : fresh.Before now := nofun

variable {c : Catalogue} {slug : String} {r : Row} {v w : Version}

/-! ### Rows and folders -/

theorem row?_of_plain (h : Plain slug) (c : Catalogue) :
    c.row? slug = c.graphs.find? fun r => r.slug = slug := by
  rw [row?, h.untilNul_eq]

/-- A category that is told by its name is understood. -/
theorem metadata_of_label {category : Category} (h : r.category = category.label) :
    r.metadata = .ok { r with category } := by
  rw [Row.metadata, h, Category.ofLabel?_label]

theorem folder?_of_row {category : Category}
    (hr : c.graphs.find? (fun r => r.slug = slug) = some r) (hl : r.category = category.label) :
    c.folder? slug = some
      { about := { r with category }, versions := c.versions.filter fun v => v.slug = slug } := by
  rw [folder?, hr, Option.bind_some, metadata_of_label hl]
  rfl

theorem mem_of_find? (h : c.graphs.find? (fun r => r.slug = slug) = some r) :
    r ∈ c.graphs ∧ r.slug = slug :=
  ⟨List.mem_of_find?_eq_some h, by simpa using List.find?_some h⟩

/-- The row of a graph that is created now. -/
def created (now : Timestamp) (m : Metadata) : Row where
  slug := m.slug
  name := m.name
  description := m.description
  category := m.category.label
  created := now.utc
  updated := now.utc

/-- The row of a graph with what is known of it from now on. -/
def changed (now : Timestamp) (m : Metadata) (r : Row) : Row :=
  { r with
    name := m.name, description := m.description, category := m.category.label
    updated := now.utc }

/-- The row of a graph that is saved now. -/
def touched (now : Timestamp) (slug : String) (r : Row) : Row :=
  if r.slug = slug then { r with updated := now.utc } else r

/-- What a request leaves of a catalogue whose rows and versions fit together. -/
inductive Step (c : Catalogue) (now : Timestamp) : Request → Catalogue → Prop
  /-- The slug is taken. -/
  | taken {m : Metadata} {r : Row} (hr : c.graphs.find? (fun r => r.slug = m.slug) = some r) :
      Step c now (.create m) c
  | create {m : Metadata} (hr : c.graphs.find? (fun r => r.slug = m.slug) = none) :
      Step c now (.create m) { c with graphs := c.graphs ++ [created now m] }
  /-- There is no row to update. -/
  | unknown {m : Metadata} (hr : c.graphs.find? (fun r => r.slug = m.slug) = none) :
      Step c now (.update m) c
  | update {m : Metadata} {old : Row}
      (hr : c.graphs.find? (fun r => r.slug = m.slug) = some old) :
      Step c now (.update m) { c with
        graphs := c.graphs.map fun r => if r.slug = m.slug then changed now m old else r }
  | delete {slug : String} : Step c now (.delete slug) { c with
      graphs := c.graphs.filter (·.slug ≠ slug)
      versions := c.versions.filter (·.slug ≠ slug) }
  /-- There is no folder to save a graph in. -/
  | unplaced {slug : String} {g : Graph} {name : Option String} (hf : c.folder? slug = none) :
      Step c now (.save slug g name) c
  /-- The graph is not of the category of the slug. -/
  | misplaced {slug : String} {g : Graph} {name : Option String} {f : Folder}
      (hf : c.folder? slug = some f) (hg : f.about.category ≠ g.category) :
      Step c now (.save slug g name) c
  | save {slug : String} {g : Graph} {name : Option String} {f : Folder}
      (hf : c.folder? slug = some f) (hg : f.about.category = g.category) :
      Step c now (.save slug g name) { c with
        graphs := c.graphs.map (touched now slug)
        versions := c.versions ++ [c.ledger.newVersion now slug g name]
        lastId := c.lastId + 1 }
  | deleteVersion {id : Int64} : Step c now (.deleteVersion id) { c with
      versions := c.versions.filter fun v => (v.id : Int) ≠ id.toInt }
  | prune {slug : String} {keep : Nat} : Step c now (.prune slug keep) { c with
      versions := c.versions.filter fun v => !Work.isOld slug keep c v }

namespace Filed

theorem need_eq (hc : c.Filed) (q : Query) : c.need q = .ok () := by
  simp only [need, hc.tables]

theorem permit_eq (hc : c.Filed) : c.permit = .ok () := by
  simp only [permit, hc.writable, Bool.false_eq_true, if_false]

/-- Where there is a row there is a folder. -/
theorem exists_folder (hc : c.Filed) (hr : c.graphs.find? (fun r => r.slug = slug) = some r) :
    ∃ category : Category, r.category = category.label ∧ c.folder? slug = some
      { about := { r with category }
        versions := c.versions.filter fun v => v.slug = slug } := by
  obtain ⟨category, hcategory⟩ := hc.categories r (mem_of_find? hr).1
  exact ⟨category, hcategory, folder?_of_row hr hcategory⟩

theorem folder?_eq_none_iff (hc : c.Filed) :
    c.folder? slug = none ↔ c.graphs.find? (fun r => r.slug = slug) = none := by
  constructor
  · intro h
    by_contra hr
    obtain ⟨r, hr⟩ := Option.ne_none_iff_exists'.1 hr
    obtain ⟨category, -, hf⟩ := hc.exists_folder hr
    rw [hf] at h
    cases h
  · intro h
    rw [folder?, h, Option.bind_none]

/-- A folder is that of its slug. -/
theorem slug_about (hc : c.Filed) {f : Folder} (h : c.folder? slug = some f) :
    f.about.slug = slug := by
  cases hr : c.graphs.find? fun r => r.slug = slug with
  | none =>
    rw [hc.folder?_eq_none_iff.2 hr] at h
    cases h
  | some r =>
    obtain ⟨category, -, hf⟩ := hc.exists_folder hr
    obtain rfl := Option.some.inj (hf.symm.trans h)
    exact (mem_of_find? hr).2

/-- What is known of a graph is in its folder. -/
theorem get_eq (hc : c.Filed) (hs : Plain slug) :
    c.get slug = .ok ((c.folder? slug).map (·.about)) := by
  simp only [get, hc.need_eq, row?_of_plain hs]
  cases hr : c.graphs.find? fun r => r.slug = slug with
  | none =>
    rw [hc.folder?_eq_none_iff.2 hr]
    rfl
  | some r =>
    obtain ⟨category, hcategory, hf⟩ := hc.exists_folder hr
    rw [hf]
    simp only [metadata_of_label hcategory]
    rfl

/-- Where there is no row there are no versions. -/
theorem slug_ne_of_none (hc : c.Filed) (h : c.graphs.find? (fun r => r.slug = slug) = none)
    (hv : v ∈ c.versions) : v.slug ≠ slug := by
  rintro rfl
  obtain ⟨r, hr, hslug⟩ := hc.owned v hv
  simpa [hslug] using List.find?_eq_none.1 h r hr

theorem nodup_ids (hc : c.Filed) : (c.versions.map (·.id)).Nodup :=
  List.pairwise_map.2 (hc.ids.imp fun hlt => Nat.ne_of_lt hlt)

theorem nodup_versions (hc : c.Filed) : c.versions.Nodup :=
  hc.nodup_ids.of_map _

/-- Two versions of one number are the same. -/
theorem eq_of_id_eq (hc : c.Filed) (hv : v ∈ c.versions) (hw : w ∈ c.versions)
    (h : v.id = w.id) : v = w :=
  List.inj_on_of_nodup_map hc.nodup_ids hv hw h

/-! ### What a request does -/

/-- A graph is created where there is none. -/
theorem create_eq (hc : c.Filed) {m : Metadata} (hm : (Request.create m).Plain)
    (now : Timestamp) : c.carryOut now (.create m) =
    match c.graphs.find? fun r => r.slug = m.slug with
    | some _ => .error (.duplicate m.slug)
    | none => .ok (.done, { c with graphs := c.graphs ++ [created now m] }) := by
  obtain ⟨hslug, hname, hdescription⟩ := hm
  simp only [carryOut, Request.work, Work.result_map, Work.result_create, has, hc.need_eq,
    row?_of_plain hslug, hslug.untilNul_eq, hname.untilNul_eq, hdescription.untilNul_eq,
    hc.permit_eq]
  cases c.graphs.find? fun r => r.slug = m.slug <;> rfl

/-- What is known of a graph is replaced where there is one. -/
theorem update_eq (hc : c.Filed) {m : Metadata} (hm : (Request.update m).Plain)
    (now : Timestamp) : c.carryOut now (.update m) =
    match c.graphs.find? fun r => r.slug = m.slug with
    | none => .error (.unknownGraph m.slug)
    | some old => .ok (.done, { c with
        graphs := c.graphs.map fun r => if r.slug = m.slug then changed now m old else r }) := by
  obtain ⟨hslug, hname, hdescription⟩ := hm
  simp only [carryOut, Request.work, Work.result_map, Work.result_update, hc.need_eq, hc.permit_eq,
    hslug.untilNul_eq, hname.untilNul_eq, hdescription.untilNul_eq]
  cases hr : c.graphs.find? fun r => r.slug = m.slug with
  | none =>
    have hcount : c.graphs.countP (·.slug = m.slug) = 0 :=
      List.countP_eq_zero.2 (List.find?_eq_none.1 hr)
    simp only [hcount, if_true]
    rfl
  | some old =>
    obtain ⟨hold, hslugold⟩ := mem_of_find? hr
    have hcount : c.graphs.countP (·.slug = m.slug) ≠ 0 := fun h => by
      exact List.countP_eq_zero.1 h old hold (decide_eq_true hslugold)
    simp only [hcount, if_false]
    refine congrArg (fun rs => Except.ok (Answer.done, { c with graphs := rs })) ?_
    refine List.map_congr_left fun r hmem => ?_
    by_cases h : r.slug = m.slug
    · rw [if_pos h, if_pos h, List.inj_on_of_nodup_map hc.slugs hmem hold (h.trans hslugold.symm)]
      rfl
    · rw [if_neg h, if_neg h]

/-- A graph goes with its versions. Where there is none, there is nothing to delete. -/
theorem delete_eq (hc : c.Filed) (hslug : Plain slug) (now : Timestamp) :
    c.carryOut now (.delete slug) = .ok (.done, { c with
      graphs := c.graphs.filter (·.slug ≠ slug)
      versions := c.versions.filter (·.slug ≠ slug) }) := by
  simp only [carryOut, Request.work, Work.result_map, Work.result_delete, hc.need_eq, hc.permit_eq,
    hslug.untilNul_eq]
  refine congrArg (fun vs => Except.ok (Answer.done, { c with
    graphs := c.graphs.filter (·.slug ≠ slug), versions := vs })) ?_
  refine List.filter_congr fun v hv => decide_eq_decide.2 (not_congr ⟨fun h => ?_, fun h => ?_⟩)
  · obtain ⟨r, hr, hrv⟩ := List.mem_map.1 h
    exact hrv.symm.trans (of_decide_eq_true (List.mem_filter.1 hr).2)
  · obtain ⟨r, hr, hrv⟩ := hc.owned v hv
    exact List.mem_map.2 ⟨r, List.mem_filter.2 ⟨hr, decide_eq_true (hrv.trans h)⟩, hrv⟩

/-- A graph is saved under a slug of its category, with the next number. -/
theorem save_eq (hc : c.Filed) {name : Option String} {g : Graph}
    (hq : (Request.save slug g name).Plain) (now : Timestamp) :
    c.carryOut now (.save slug g name) =
    match c.folder? slug with
    | none => .error (.unknownGraph slug)
    | some f =>
      if f.about.category ≠ g.category then .error (.otherCategory slug f.about.category g.category)
      else .ok (.saved (c.lastId + 1), { c with
        graphs := c.graphs.map (touched now slug)
        versions := c.versions ++ [c.ledger.newVersion now slug g name]
        lastId := c.lastId + 1 }) := by
  obtain ⟨hslug, hname⟩ := hq
  have hname : name.map Text.untilNul = name := by
    cases name with
    | none => rfl
    | some s => exact congrArg some (hname s rfl).untilNul_eq
  simp only [carryOut, Request.work, Work.result_map, Work.result_save, hc.get_eq hslug]
  cases hf : c.folder? slug with
  | none => rfl
  | some f =>
    obtain rfl := hc.slug_about hf
    simp only [Option.map_some, bind, Except.bind, hname, hc.permit_eq, hslug.untilNul_eq]
    by_cases hg : f.about.category = g.category
    · rw [if_neg (not_not_intro hg), if_neg (not_not_intro hg)]
      rfl
    · rw [if_pos hg, if_pos hg]
      rfl

theorem deleteVersion_eq (hc : c.Filed) (id : Int64) (now : Timestamp) :
    c.carryOut now (.deleteVersion id) = .ok (.done, { c with
      versions := c.versions.filter fun v => (v.id : Int) ≠ id.toInt }) := by
  simp only [carryOut, Request.work, Work.result_map, Work.result_deleteVersion, hc.need_eq,
    hc.permit_eq]
  rfl

/-- Every request is one of the steps. -/
theorem step (hc : c.Filed) {q : Request} (hq : q.Plain) (now : Timestamp) :
    c.Step now q (c.after now q) := by
  cases q with
  | create m =>
    rw [after_eq, hc.create_eq hq]
    cases hr : c.graphs.find? fun r => r.slug = m.slug with
    | some r => exact .taken hr
    | none => exact .create hr
  | update m =>
    rw [after_eq, hc.update_eq hq]
    cases hr : c.graphs.find? fun r => r.slug = m.slug with
    | none => exact .unknown hr
    | some old => exact .update hr
  | delete slug =>
    rw [after_eq, hc.delete_eq hq]
    exact .delete
  | save slug g name =>
    rw [after_eq, hc.save_eq hq]
    cases hf : c.folder? slug with
    | none => exact .unplaced hf
    | some f =>
      by_cases hg : f.about.category = g.category
      · simp only [ne_eq, hg, not_true_eq_false, if_false]
        exact .save hf hg
      · simp only [ne_eq, hg, not_false_eq_true, if_true]
        exact .misplaced hf hg
  | deleteVersion id =>
    rw [after_eq, hc.deleteVersion_eq]
    exact .deleteVersion
  | prune slug keep =>
    simp only [after_eq, carryOut, Request.work, Work.result_map, Work.result_prune, hc.need_eq,
      hc.permit_eq]
    exact .prune

/-- The versions that pruning takes away are those of the listing that are not at its front. -/
theorem isOld_iff (hc : c.Filed) (hslug : Plain slug) (keep : Nat) (hv : v ∈ c.versions) :
    Work.isOld slug keep c v = true ↔ v.slug = slug ∧ v ∉ (c.history slug).take keep := by
  rw [Work.isOld_iff hc.nodup_ids hv, hslug.untilNul_eq]

end Filed

namespace Orderly

/-! ### The listing -/

/-- The versions of a graph are listed backwards. -/
theorem history_eq (hc : c.Orderly) (hs : Plain slug) :
    c.history slug = (c.versions.filter fun v => v.slug = slug).reverse := by
  have hids := (hc.ids.and hc.times).filter fun v => decide (v.slug = slug)
  rw [history, hs.untilNul_eq]
  generalize c.versions.filter (fun v => decide (v.slug = slug)) = vs at *
  have hperm : (vs.mergeSort Version.listedBefore).Perm vs.reverse :=
    (List.mergeSort_perm vs _).trans (List.reverse_perm vs).symm
  have hsorted := List.pairwise_mergeSort Version.listedBefore_trans Version.listedBefore_total vs
  have hback : vs.reverse.Pairwise fun v w => v.listedBefore w = true := by
    rw [List.pairwise_reverse]
    refine hids.imp fun {v w} h => Version.listedBefore_iff.2 ?_
    rcases lt_or_eq_of_le h.2 with hlt | heq
    · exact .inl hlt
    · exact .inr ⟨heq.symm, Nat.le_of_lt h.1⟩
  -- of two versions listed before each other the numbers are the same, and so are the versions
  refine hperm.eq_of_pairwise (fun v w hv hw hvw hwv => ?_) hsorted hback
  rw [Version.listedBefore_iff] at hvw hwv
  have hid : v.id = w.id := by
    rcases hvw with h | ⟨he, h⟩
    · rcases hwv with h' | ⟨he', -⟩
      · exact absurd h' (lt_asymm h)
      · exact absurd h (he' ▸ lt_irrefl _)
    · rcases hwv with h' | ⟨-, h'⟩
      · exact absurd h' (he ▸ lt_irrefl _)
      · exact Nat.le_antisymm h' h
  have hnodup : (vs.map (·.id)).Nodup :=
    List.pairwise_map.2 (hids.imp fun h => Nat.ne_of_lt h.1)
  exact List.inj_on_of_nodup_map hnodup (List.mem_mergeSort.1 hv) (List.mem_reverse.1 hw) hid

/-- The first versions of a graph go, as many as are too many. -/
theorem prune_run (hc : c.Orderly) (hslug : Plain slug) (keep : Nat) :
    ∃ journal, (Work.prune slug keep).result c =
      .ok (((c.versions.filter fun v => v.slug = slug).length - keep, journal), { c with
        versions := c.versions.filter fun v => v ∉
          (c.versions.filter fun v => v.slug = slug).take
            ((c.versions.filter fun v => v.slug = slug).length - keep) }) ∧
      ((c.versions.filter fun v => v.slug = slug).length ≤ keep → journal = []) := by
  have hdrop : (c.history slug).drop keep = ((c.versions.filter fun v => v.slug = slug).take
      ((c.versions.filter fun v => v.slug = slug).length - keep)).reverse := by
    rw [hc.history_eq hslug, List.drop_reverse]
  simp only [Work.result_prune_eq hc.nodup_ids, hc.need_eq, hc.permit_eq, hdrop, List.mem_reverse,
    List.length_reverse, List.length_take_of_le (Nat.sub_le _ _)]
  refine ⟨_, rfl, fun hle => if_pos ?_⟩
  rw [Nat.sub_eq_zero_of_le hle]
  rfl

theorem prune_eq (hc : c.Orderly) (hslug : Plain slug) (keep : Nat) (now : Timestamp) :
    c.carryOut now (.prune slug keep) =
      .ok (.removed ((c.versions.filter fun v => v.slug = slug).length - keep), { c with
        versions := c.versions.filter fun v => v ∉
          (c.versions.filter fun v => v.slug = slug).take
            ((c.versions.filter fun v => v.slug = slug).length - keep) }) := by
  obtain ⟨journal, hrun, -⟩ := hc.prune_run hslug keep
  rw [carryOut, Request.work, Work.result_map, hrun]
  rfl

end Orderly
end Catalogue
end Patchbay.Store
