import Mathlib.Data.List.Find
import Patchbay.Proofs.Store.Calendar
import Patchbay.Proofs.Store.Orderly
/-!
# Requests to a catalogue and to a ledger

A request does to a catalogue in order what it does to the ledger that the catalogue stands for, and
it is answered or refused in the same way. As requests leave the catalogue in order, this holds of
all that happens to a catalogue from its beginning.

## Main definitions

* `Request.cut`: a request with its texts up to their first NUL characters.
* `Catalogue.Ticking`: requests whose times never go backwards.

## Main statements

* `Catalogue.Orderly.ledger_carryOut`: one request to a catalogue and to its ledger.
* `Catalogue.Step.filed`, `Catalogue.Step.mem_versions_iff`: what every step preserves, and which
  versions come and go.
* `Catalogue.Orderly.after`: a request leaves a catalogue in order.
* `Catalogue.Orderly.afterAll`: requests one after the other.
* `Catalogue.filed_afterAll`: any requests at any times leave rows and versions together.
-/
namespace Patchbay.Store
namespace Catalogue
variable {c d : Catalogue} {slug : String} {now : Timestamp} {q : Request}

/-! ### Folders of changed catalogues -/

/-- A folder changes only if its row or its versions do. -/
theorem folder?_congr
    (hrow : d.graphs.find? (fun r => r.slug = slug) = c.graphs.find? fun r => r.slug = slug)
    (hversions : (d.versions.filter fun v => v.slug = slug) =
      c.versions.filter fun v => v.slug = slug) : d.folder? slug = c.folder? slug := by
  rw [folder?, folder?, hrow, hversions]

/-- Rows are found in the same places as long as their slugs stay. -/
theorem find?_map_row {f : Row → Row} (hf : ∀ r, (f r).slug = r.slug) (rs : List Row)
    (slug : String) : (rs.map f).find? (fun r => r.slug = slug) =
      (rs.find? fun r => r.slug = slug).map f := by
  rw [List.find?_map]
  simp only [Function.comp_def, hf]

theorem ledger_eq {l : Ledger} (h : ∀ slug, d.folder? slug = l.folder? slug)
    (hid : d.lastId = l.lastId) : d.ledger = l := by
  cases l
  simp only [ledger, Ledger.mk.injEq]
  exact ⟨funext h, hid⟩

/-- One folder is put into a ledger, and all others stay. -/
theorem ledger_eq_put {f : Option Folder} (hself : d.folder? slug = f)
    (hother : ∀ s, s ≠ slug → d.folder? s = c.folder? s) (hid : d.lastId = c.lastId) :
    d.ledger = c.ledger.put slug f := by
  refine ledger_eq (fun s => ?_) hid
  by_cases hs : s = slug
  · subst hs
    simpa [Ledger.put] using hself
  · simpa [Ledger.put, hs] using hother s hs

/-- The slugs of rows stay when one row is replaced by one of its slug. -/
theorem slug_replaced {old : Row} (hold : old.slug = slug) (r : Row) :
    (if r.slug = slug then old else r).slug = r.slug := by
  split
  · next h => rw [hold, h]
  · rfl

theorem slug_touched (now : Timestamp) (slug : String) (r : Row) :
    (touched now slug r).slug = r.slug := by
  rw [touched]
  split <;> rfl

theorem category_touched (now : Timestamp) (slug : String) (r : Row) :
    (touched now slug r).category = r.category := by
  rw [touched]
  split <;> rfl

/-- A row of another slug is not concerned. -/
theorem find?_map_row_of_ne {f : Row → Row} (hf : ∀ r, (f r).slug = r.slug)
    (hsame : ∀ r, r.slug ≠ slug → f r = r) {s : String} (hs : s ≠ slug) (rs : List Row) :
    (rs.map f).find? (fun r => r.slug = s) = rs.find? fun r => r.slug = s := by
  rw [find?_map_row hf]
  cases hr : rs.find? fun r => r.slug = s with
  | none => rfl
  | some r =>
    have hslug : r.slug = s := by simpa using List.find?_some hr
    rw [Option.map_some, hsame r (hslug ▸ hs)]

namespace Orderly

/-! ### One request -/

theorem ledger_create (hc : c.Orderly) {m : Metadata} (hq : (Request.create m).Plain)
    (now : Timestamp) : (c.carryOut now (.create m)).map (fun r => (r.1, r.2.ledger)) =
      c.ledger.carryOut now (.create m) := by
  rw [hc.create_eq hq]
  simp only [Ledger.carryOut, folder?_ledger]
  cases hr : c.graphs.find? fun r => r.slug = m.slug with
  | some r =>
    obtain ⟨category, -, hf⟩ := hc.exists_folder hr
    rw [hf]
    rfl
  | none =>
    rw [hc.folder?_eq_none_iff.2 hr]
    refine congrArg (fun l => Except.ok (Answer.done, l)) (ledger_eq_put ?_ (fun s hs => ?_) rfl)
    · have hnone : (c.versions.filter fun v => v.slug = m.slug) = [] :=
        List.filter_eq_nil_iff.2 fun v hv => by simpa using hc.slug_ne_of_none hr hv
      rw [folder?_of_row (r := created now m) (by simp [hr, created]) rfl]
      simp only [hnone, created]
    · refine folder?_congr ?_ rfl
      simp [List.find?_append, created, Ne.symm hs]

theorem ledger_update (hc : c.Orderly) {m : Metadata} (hq : (Request.update m).Plain)
    (now : Timestamp) : (c.carryOut now (.update m)).map (fun r => (r.1, r.2.ledger)) =
      c.ledger.carryOut now (.update m) := by
  rw [hc.update_eq hq]
  simp only [Ledger.carryOut, folder?_ledger]
  cases hr : c.graphs.find? fun r => r.slug = m.slug with
  | none =>
    rw [hc.folder?_eq_none_iff.2 hr]
    rfl
  | some old =>
    obtain ⟨category, -, hf⟩ := hc.exists_folder hr
    have hold : (changed now m old).slug = m.slug := (mem_of_find? hr).2
    rw [hf]
    refine congrArg (fun l => Except.ok (Answer.done, l)) (ledger_eq_put ?_ (fun s hs => ?_) rfl)
    · have hrow : (c.graphs.map fun r => if r.slug = m.slug then changed now m old else r).find?
          (fun r => r.slug = m.slug) = some (changed now m old) := by
        rw [find?_map_row (slug_replaced hold), hr, Option.map_some, if_pos (mem_of_find? hr).2]
      rw [folder?_of_row hrow (show _ = m.category.label from rfl)]
      simp only [changed, (mem_of_find? hr).2]
    · refine folder?_congr ?_ rfl
      exact find?_map_row_of_ne (slug_replaced hold) (fun r h => if_neg h) hs c.graphs

theorem ledger_delete (hc : c.Orderly) (hslug : Plain slug) (now : Timestamp) :
    (c.carryOut now (.delete slug)).map (fun r => (r.1, r.2.ledger)) =
      c.ledger.carryOut now (.delete slug) := by
  rw [hc.delete_eq hslug]
  refine congrArg (fun l => Except.ok (Answer.done, l)) (ledger_eq_put ?_ (fun s hs => ?_) rfl)
  · rw [folder?, List.find?_eq_none.2 (by simp), Option.bind_none]
  · refine folder?_congr ?_ ?_
    · rw [List.find?_filter]
      refine List.find?_congr fun r _ => ?_
      by_cases hr : r.slug = s <;> simp [hr, hs]
    · rw [List.filter_filter]
      refine List.filter_congr fun v _ => ?_
      by_cases hv : v.slug = s <;> simp [hv, hs]

theorem ledger_save (hc : c.Orderly) {g : Graph} {name : Option String}
    (hq : (Request.save slug g name).Plain) (now : Timestamp) :
    (c.carryOut now (.save slug g name)).map (fun r => (r.1, r.2.ledger)) =
      c.ledger.carryOut now (.save slug g name) := by
  rw [hc.save_eq hq]
  simp only [Ledger.carryOut, folder?_ledger]
  cases hr : c.graphs.find? fun r => r.slug = slug with
  | none =>
    rw [hc.folder?_eq_none_iff.2 hr]
    rfl
  | some r =>
    obtain ⟨category, hl, hf⟩ := hc.exists_folder hr
    obtain ⟨-, rfl⟩ := mem_of_find? hr
    rw [hf]
    by_cases hg : category = g.category
    · simp only [hg, ne_eq, not_true_eq_false, if_false]
      refine congrArg (fun l => Except.ok (Answer.saved (c.lastId + 1), l))
        (ledger_eq (fun s => ?_) rfl)
      by_cases hs : s = r.slug
      · subst hs
        have hrow : (c.graphs.map (touched now r.slug)).find? (fun t => t.slug = r.slug) =
            some { r with updated := now.utc } := by
          rw [find?_map_row (slug_touched now r.slug), hr, Option.map_some, touched, if_pos rfl]
        rw [folder?_of_row hrow (hg ▸ hl)]
        simp [Ledger.put, Ledger.newVersion]
      · simp only [Ledger.put, folder?_ledger, Function.update_of_ne hs]
        refine folder?_congr ?_ ?_
        · exact find?_map_row_of_ne (slug_touched now r.slug) (fun t h => if_neg h) hs c.graphs
        · simp [Ledger.newVersion, Ne.symm hs]
    · simp only [ne_eq, hg, not_false_eq_true, if_true]
      rfl

theorem ledger_deleteVersion (hc : c.Orderly) (id : Int64) (now : Timestamp) :
    (c.carryOut now (.deleteVersion id)).map (fun r => (r.1, r.2.ledger)) =
      c.ledger.carryOut now (.deleteVersion id) := by
  rw [hc.deleteVersion_eq]
  refine congrArg (fun l => Except.ok (Answer.done, l)) (ledger_eq (fun s => ?_) rfl)
  simp only [folder?_ledger, folder?, List.filter_filter]
  cases c.graphs.find? fun r => r.slug = s with
  | none => rfl
  | some r =>
    rw [Option.bind_some, Option.bind_some, Option.map_map]
    refine congrArg (Option.map · _) (funext fun about => ?_)
    simp only [Function.comp_apply, List.filter_filter, Bool.and_comm]

/-- What is left of a list without repetitions when its first items go. -/
theorem filter_not_mem_take {vs : List Version} (hn : vs.Nodup) (k : Nat) :
    vs.filter (fun v => v ∉ vs.take k) = vs.drop k := by
  have hsplit := List.take_append_drop k vs
  have hdisjoint := List.disjoint_take_drop hn (Nat.le_refl k)
  generalize vs.take k = xs at *
  generalize vs.drop k = ys at *
  rw [← hsplit, List.filter_append, List.filter_eq_nil_iff.2 (by simp), List.nil_append]
  exact List.filter_eq_self.2 fun v hv => by simpa using fun hx => hdisjoint hx hv

theorem ledger_prune (hc : c.Orderly) (hslug : Plain slug) (keep : Nat) (now : Timestamp) :
    (c.carryOut now (.prune slug keep)).map (fun r => (r.1, r.2.ledger)) =
      c.ledger.carryOut now (.prune slug keep) := by
  have hnodup : (c.versions.filter fun v => v.slug = slug).Nodup := hc.nodup_versions.filter _
  rw [hc.prune_eq hslug]
  simp only [Ledger.carryOut, folder?_ledger]
  cases hr : c.graphs.find? fun r => r.slug = slug with
  | none =>
    have hnone : (c.versions.filter fun v => v.slug = slug) = [] :=
      List.filter_eq_nil_iff.2 fun v hv => by simpa using hc.slug_ne_of_none hr hv
    rw [hc.folder?_eq_none_iff.2 hr, hnone]
    simp
    rfl
  | some r =>
    obtain ⟨category, hl, hf⟩ := hc.exists_folder hr
    rw [hf]
    refine congrArg (fun l => Except.ok (Answer.removed _, l))
      (ledger_eq_put ?_ (fun s hs => ?_) rfl)
    · have hkept := filter_not_mem_take hnodup
        ((c.versions.filter fun v => v.slug = slug).length - keep)
      have hfolder (vs : List Version) := folder?_of_row (c := { c with versions := vs }) hr hl
      rw [hfolder, ← hkept, List.filter_filter, List.filter_filter]
      simp only [Bool.and_comm]
    · refine folder?_congr rfl ?_
      rw [List.filter_filter]
      refine List.filter_congr fun v _ => ?_
      by_cases hv : v.slug = s
      · have hout : v ∉ (c.versions.filter fun v => v.slug = slug) := fun h => by
          simp [hv, hs] at h
        simpa [hv] using fun h => hout (List.mem_of_mem_take h)
      · simp [hv]

/-- A request does to a catalogue in order what it does to its ledger. -/
theorem ledger_carryOut (hc : c.Orderly) (hq : q.Plain) (now : Timestamp) :
    (c.carryOut now q).map (fun r => (r.1, r.2.ledger)) = c.ledger.carryOut now q := by
  cases q with
  | create m => exact hc.ledger_create hq now
  | update m => exact hc.ledger_update hq now
  | delete slug => exact hc.ledger_delete hq now
  | save slug g name => exact hc.ledger_save hq now
  | deleteVersion id => exact hc.ledger_deleteVersion id now
  | prune slug keep => exact hc.ledger_prune hq keep now

/-! ### Catalogues stay in order -/

end Orderly

namespace Filed

/-- Some versions go. -/
theorem filterVersions (hc : c.Filed) (p : Version → Bool) :
    ({ c with versions := c.versions.filter p } : Catalogue).Filed where
  tables := hc.tables
  writable := hc.writable
  slugs := hc.slugs
  plain := hc.plain
  categories := hc.categories
  owned v hv := hc.owned v (List.mem_filter.1 hv).1
  ids := hc.ids.filter p
  last v hv := hc.last v (List.mem_filter.1 hv).1

/-- Rows are changed, but for their slugs. -/
theorem mapRows (hc : c.Filed) {f : Row → Row} (hslug : ∀ r, (f r).slug = r.slug)
    (hcategory : ∀ r ∈ c.graphs, ∃ category : Category, (f r).category = category.label) :
    ({ c with graphs := c.graphs.map f } : Catalogue).Filed where
  tables := hc.tables
  writable := hc.writable
  slugs := by
    simp only [List.map_map, Function.comp_def, hslug]
    exact hc.slugs
  plain := List.forall_mem_map.2 fun r hr => (hslug r).symm ▸ hc.plain r hr
  categories := List.forall_mem_map.2 hcategory
  owned v hv := by
    obtain ⟨r, hr, hv⟩ := hc.owned v hv
    exact ⟨f r, List.mem_map_of_mem hr, (hslug r).trans hv⟩
  ids := hc.ids
  last := hc.last

/-- A graph comes under a slug of its own. -/
theorem addRow (hc : c.Filed) {r : Row} {category : Category} (hr : r.category = category.label)
    (hplain : Plain r.slug) (hslug : c.graphs.find? (fun t => t.slug = r.slug) = none) :
    ({ c with graphs := c.graphs ++ [r] } : Catalogue).Filed where
  tables := hc.tables
  writable := hc.writable
  slugs := by
    rw [List.map_append, List.nodup_append]
    refine ⟨hc.slugs, List.nodup_singleton _, fun s hs t ht => ?_⟩
    obtain ⟨u, hu, rfl⟩ := List.mem_map.1 hs
    rw [List.map_singleton, List.mem_singleton] at ht
    simpa [ht] using List.find?_eq_none.1 hslug u hu
  plain t ht := by
    rcases List.mem_append.1 ht with ht | ht
    · exact hc.plain t ht
    · exact List.mem_singleton.1 ht ▸ hplain
  categories t ht := by
    rcases List.mem_append.1 ht with ht | ht
    · exact hc.categories t ht
    · exact ⟨category, List.mem_singleton.1 ht ▸ hr⟩
  owned v hv := by
    obtain ⟨t, ht, hv⟩ := hc.owned v hv
    exact ⟨t, List.mem_append_left _ ht, hv⟩
  ids := hc.ids
  last := hc.last

/-- A graph goes with its versions. -/
theorem dropRow (hc : c.Filed) (slug : String) : ({ c with
    graphs := c.graphs.filter (·.slug ≠ slug)
    versions := c.versions.filter (·.slug ≠ slug) } : Catalogue).Filed where
  tables := hc.tables
  writable := hc.writable
  slugs := hc.slugs.sublist (List.filter_sublist.map _)
  plain r hr := hc.plain r (List.mem_filter.1 hr).1
  categories r hr := hc.categories r (List.mem_filter.1 hr).1
  owned v hv := by
    obtain ⟨hv, hne⟩ := List.mem_filter.1 hv
    obtain ⟨r, hr, hslug⟩ := hc.owned v hv
    exact ⟨r, List.mem_filter.2 ⟨hr, hslug ▸ hne⟩, hslug⟩
  ids := hc.ids.filter _
  last v hv := hc.last v (List.mem_filter.1 hv).1

/-- A version comes with the next number. -/
theorem addVersion (hc : c.Filed) {v : Version} (hid : v.id = c.lastId + 1)
    (hslug : ∃ r ∈ c.graphs, r.slug = v.slug) :
    ({ c with versions := c.versions ++ [v], lastId := c.lastId + 1 } : Catalogue).Filed where
  tables := hc.tables
  writable := hc.writable
  slugs := hc.slugs
  plain := hc.plain
  categories := hc.categories
  owned w hw := by
    rcases List.mem_append.1 hw with hw | hw
    · exact hc.owned w hw
    · exact List.mem_singleton.1 hw ▸ hslug
  ids := by
    refine List.pairwise_append.2 ⟨hc.ids, List.pairwise_singleton _ _, fun w hw u hu => ?_⟩
    rw [List.mem_singleton.1 hu, hid]
    exact Nat.lt_succ_of_le (hc.last w hw)
  last w hw := by
    rcases List.mem_append.1 hw with hw | hw
    · exact Nat.le_succ_of_le (hc.last w hw)
    · rw [List.mem_singleton.1 hw, hid]

end Filed

/-! ### Steps -/

namespace Step

/-- A step leaves the rows and the versions of a catalogue together. -/
theorem filed (h : c.Step now q d) (hc : c.Filed) (hq : q.Plain) : d.Filed := by
  cases h with
  | taken | unknown | unplaced | misplaced => exact hc
  | create hr => exact hc.addRow rfl hq.1 hr
  | update hr =>
    refine hc.mapRows (slug_replaced (mem_of_find? hr).2) fun r hmem => ?_
    split
    · exact ⟨_, rfl⟩
    · exact hc.categories r hmem
  | @delete slug => exact hc.dropRow slug
  | @save slug g name f hf hg =>
    have hrow : ∃ r ∈ c.graphs.map (touched now slug), r.slug = slug := by
      cases hr : c.graphs.find? fun r => r.slug = slug with
      | none =>
        rw [hc.folder?_eq_none_iff.2 hr] at hf
        cases hf
      | some r =>
        obtain ⟨hmem, hslug⟩ := mem_of_find? hr
        exact ⟨_, List.mem_map_of_mem hmem, (slug_touched now slug r).trans hslug⟩
    have hrows := hc.mapRows (slug_touched now slug) fun r hr =>
      category_touched now slug r ▸ hc.categories r hr
    exact hrows.addVersion (v := c.ledger.newVersion now slug g name) rfl hrow
  | deleteVersion | prune => exact hc.filterVersions _

/-- A step leaves some of the versions, or adds one. -/
theorem versions (h : c.Step now q d) : (∃ p, d.versions = c.versions.filter p) ∨
    ∃ v, q.Adds c now v ∧ d.versions = c.versions ++ [v] := by
  have hall : c.versions = c.versions.filter fun _ => true := by simp
  cases h with
  | taken | create | unknown | update | unplaced | misplaced => exact .inl ⟨_, hall⟩
  | delete | deleteVersion | prune => exact .inl ⟨_, rfl⟩
  | save hf hg => exact .inr ⟨_, ⟨⟨_, hf, hg⟩, rfl⟩, rfl⟩

/-- Numbers are given upwards, and no number is given twice. -/
theorem lastId_le (h : c.Step now q d) :
    c.lastId ≤ d.lastId ∧ ∀ w ∈ d.versions, w ∈ c.versions ∨ c.lastId < w.id := by
  cases h with
  | taken | create | unknown | update | unplaced | misplaced =>
    exact ⟨Nat.le_refl _, fun w => .inl⟩
  | delete | deleteVersion | prune =>
    exact ⟨Nat.le_refl _, fun w hw => .inl (List.mem_filter.1 hw).1⟩
  | save hf hg =>
    refine ⟨Nat.le_succ _, fun w hw => (List.mem_append.1 hw).imp_right fun hw => ?_⟩
    rw [List.mem_singleton.1 hw]
    exact Nat.lt_succ_self _

/-- The versions after a step are those that it did not take away, and the one that it added. -/
theorem mem_versions_iff (h : c.Step now q d) (hc : c.Filed) (hq : q.Plain) {v : Version} :
    v ∈ d.versions ↔ v ∈ c.versions ∧ ¬ q.Removes c v ∨ q.Adds c now v := by
  cases h with
  | taken | create | unknown | update | delete | deleteVersion =>
    simp [Request.Removes, Request.Adds]
  | unplaced hf => simp [Request.Removes, Request.Adds, hf]
  | misplaced hf hg | save hf hg => simp [Request.Removes, Request.Adds, hf, hg]
  | @prune slug keep =>
    simp only [Request.Removes, Request.Adds, or_false, List.mem_filter, Bool.not_eq_true',
      ← Bool.not_eq_true]
    exact and_congr_right fun hv => not_congr (hc.isOld_iff hq keep hv)

end Step

namespace Filed

/-- A request leaves the rows and the versions of a catalogue together. -/
theorem after (hc : c.Filed) (hq : q.Plain) (now : Timestamp) : (c.after now q).Filed :=
  (hc.step hq now).filed hc hq

theorem mem_versions_after (hc : c.Filed) (hq : q.Plain) {v : Version} :
    v ∈ (c.after now q).versions ↔ v ∈ c.versions ∧ ¬ q.Removes c v ∨ q.Adds c now v :=
  (hc.step hq now).mem_versions_iff hc hq

end Filed

theorem created_of_adds {v : Version} (h : q.Adds c now v) : v.created = now.utc := by
  cases q with
  | save slug g name => exact congrArg Version.created h.2
  | _ => cases h

namespace Orderly

theorem filterVersions (hc : c.Orderly) (p : Version → Bool) :
    ({ c with versions := c.versions.filter p } : Catalogue).Orderly :=
  { hc.toFiled.filterVersions p with times := hc.times.filter p }

/-- A request leaves a catalogue in order. -/
theorem after (hc : c.Orderly) (hb : c.Before now) (hq : q.Plain) : (c.after now q).Orderly := by
  refine { hc.toFiled.after hq now with times := ?_ }
  rcases (hc.step hq now).versions with ⟨p, hp⟩ | ⟨v, hv, hadd⟩
  · exact hp ▸ hc.times.filter p
  · rw [hadd]
    refine List.pairwise_append.2 ⟨hc.times, List.pairwise_singleton _ _, fun w hw u hu => ?_⟩
    rw [List.mem_singleton.1 hu, created_of_adds hv]
    exact hb w hw

/-- What was saved by now was saved by any later time. -/
theorem before_after (hc : c.Orderly) (hb : c.Before now) (hq : q.Plain) {later : Timestamp}
    (hl : later.OnClock) (hle : now.ms ≤ later.ms) : (c.after now q).Before later := by
  intro v hv
  have hutc : now.utc ≤ later.utc := Timestamp.utc_le_utc hl hle
  rcases (hc.mem_versions_after hq).1 hv with ⟨hv, -⟩ | hv
  · exact (hb v hv).trans hutc
  · rwa [created_of_adds hv]

end Orderly

/-! ### Requests one after the other -/

/-- What is left of a ledger is what is left of its catalogue. -/
theorem Orderly.ledger_after (hc : c.Orderly) (hq : q.Plain) (now : Timestamp) :
    (c.after now q).ledger = c.ledger.after now q := by
  have h := hc.ledger_carryOut hq now
  rw [after_eq, Ledger.after, ← h]
  cases c.carryOut now q <;> rfl

theorem Orderly.answer_eq (hc : c.Orderly) (hq : q.Plain) (now : Timestamp) :
    (c.carryOut now q).map (·.1) = (c.ledger.carryOut now q).map (·.1) := by
  rw [← hc.ledger_carryOut hq now]
  cases c.carryOut now q <;> rfl

/-- Requests whose times never go backwards, and whose texts have no NUL characters. -/
structure Ticking (qs : List (Timestamp × Request)) : Prop where
  onClock : ∀ q ∈ qs, q.1.OnClock
  forwards : qs.Pairwise fun p q => p.1.ms ≤ q.1.ms
  plain : ∀ q ∈ qs, q.2.Plain

instance (qs : List (Timestamp × Request)) : Decidable (Ticking qs) :=
  decidable_of_iff ((∀ q ∈ qs, q.1.OnClock) ∧ (qs.Pairwise fun p q => p.1.ms ≤ q.1.ms) ∧
      ∀ q ∈ qs, q.2.Plain)
    ⟨fun h => ⟨h.1, h.2.1, h.2.2⟩, fun h => ⟨h.1, h.2, h.3⟩⟩

namespace Ticking
variable {ps qs : List (Timestamp × Request)} {p : Timestamp × Request}

theorem tail (h : Ticking (p :: qs)) : Ticking qs where
  onClock q hq := h.onClock q (List.mem_cons_of_mem _ hq)
  forwards := (List.pairwise_cons.1 h.forwards).2
  plain q hq := h.plain q (List.mem_cons_of_mem _ hq)

theorem left (h : Ticking (ps ++ qs)) : Ticking ps where
  onClock q hq := h.onClock q (List.mem_append_left _ hq)
  forwards := (List.pairwise_append.1 h.forwards).1
  plain q hq := h.plain q (List.mem_append_left _ hq)

theorem right (h : Ticking (ps ++ qs)) : Ticking qs where
  onClock q hq := h.onClock q (List.mem_append_right _ hq)
  forwards := (List.pairwise_append.1 h.forwards).2.1
  plain q hq := h.plain q (List.mem_append_right _ hq)

/-- The first request leaves a catalogue in order, to which the others come later. -/
theorem head (h : Ticking (p :: qs)) (hc : c.Orderly) (hb : ∀ q ∈ p :: qs, c.Before q.1) :
    (c.after p.1 p.2).Orderly ∧ ∀ q ∈ qs, (c.after p.1 p.2).Before q.1 := by
  have hp := h.plain p List.mem_cons_self
  have hnow := hb p List.mem_cons_self
  refine ⟨hc.after hnow hp, fun q hq => ?_⟩
  exact hc.before_after hnow hp (h.onClock q (List.mem_cons_of_mem _ hq))
    ((List.pairwise_cons.1 h.forwards).1 q hq)

end Ticking

/-- Requests leave a catalogue in order, do to it what they do to its ledger, and are answered in
the same way. -/
theorem Orderly.afterAll (hc : c.Orderly) {qs : List (Timestamp × Request)} (hqs : Ticking qs)
    (hb : ∀ q ∈ qs, c.Before q.1) : (c.afterAll qs).Orderly ∧
      (c.afterAll qs).ledger = c.ledger.afterAll qs ∧ c.answers qs = c.ledger.answers qs := by
  induction qs generalizing c with
  | nil => exact ⟨hc, rfl, rfl⟩
  | cons q qs ih =>
    have hq := hqs.plain q List.mem_cons_self
    obtain ⟨hd, hlater⟩ := hqs.head hc hb
    obtain ⟨horder, hledger, hanswers⟩ := ih hd hqs.tail hlater
    rw [hc.ledger_after hq] at hledger hanswers
    refine ⟨horder, hledger, ?_⟩
    rw [answers, Ledger.answers, hc.answer_eq hq, hanswers]

theorem orderly_afterAll {qs : List (Timestamp × Request)} (hqs : Ticking qs) :
    (fresh.afterAll qs).Orderly :=
  (orderly_fresh.afterAll hqs fun _ _ => before_fresh _).1

/-- What was saved before the later requests was saved by their times. -/
theorem Ticking.before_right {ps qs : List (Timestamp × Request)} (h : Ticking (ps ++ qs))
    {q : Timestamp × Request} (hq : q ∈ qs) (hc : c.Orderly) (hb : ∀ p ∈ ps ++ qs, c.Before p.1) :
    (c.afterAll ps).Before q.1 := by
  induction ps generalizing c with
  | nil => exact hb q hq
  | cons p ps ih =>
    obtain ⟨hd, hlater⟩ := h.head hc hb
    exact ih h.tail hd hlater

end Catalogue

/-! ### Any texts at any times -/

theorem plain_untilNul (s : String) : Plain (Text.untilNul s) := by
  rw [Plain, Text.untilNul, String.toList_ofList]
  intro h
  have hne := List.mem_takeWhile_imp h
  simp at hne

/-- The request with its texts up to their first NUL characters. -/
def Request.cut : Request → Request
  | .create m => .create { m with
      slug := Text.untilNul m.slug, name := Text.untilNul m.name
      description := Text.untilNul m.description }
  | .update m => .update { m with
      slug := Text.untilNul m.slug, name := Text.untilNul m.name
      description := Text.untilNul m.description }
  | .delete slug => .delete (Text.untilNul slug)
  | .save slug g name => .save (Text.untilNul slug) g (name.map Text.untilNul)
  | .deleteVersion id => .deleteVersion id
  | .prune slug keep => .prune (Text.untilNul slug) keep

theorem Request.plain_cut (q : Request) : q.cut.Plain := by
  cases q with
  | create m | update m => exact ⟨plain_untilNul _, plain_untilNul _, plain_untilNul _⟩
  | delete slug | prune slug keep => exact plain_untilNul slug
  | save slug g name =>
    refine ⟨plain_untilNul slug, fun s hs => ?_⟩
    obtain ⟨t, -, rfl⟩ := Option.map_eq_some_iff.1 hs
    exact plain_untilNul t
  | deleteVersion id => trivial

namespace Catalogue
variable (c : Catalogue) (now : Timestamp)

theorem untilNul_untilNul (s : String) : Text.untilNul (Text.untilNul s) = Text.untilNul s :=
  (plain_untilNul s).untilNul_eq

theorem row?_untilNul (slug : String) : c.row? (Text.untilNul slug) = c.row? slug := by
  rw [row?, row?, untilNul_untilNul]

theorem get_untilNul (slug : String) : c.get (Text.untilNul slug) = c.get slug := by
  rw [get, get, row?_untilNul]

/-- Results are put together in the same way when their errors are forgotten. -/
theorem toOption_bind {α β : Type} (x : Except Error α) (f : α → Except Error β) :
    (x >>= f).toOption = x.toOption.bind fun a => (f a).toOption := by
  cases x <;> rfl

theorem toOption_map {α β : Type} (x : Except Error α) (f : α → β) :
    (x.map f).toOption = x.toOption.map f := by
  cases x <;> rfl

theorem toOption_throw {α : Type} (e : Error) : (throw e : Except Error α).toOption = none := rfl

theorem toOption_pure {α : Type} (a : α) : (pure a : Except Error α).toOption = some a := rfl

/-- What is there after a request does not depend on what comes after a NUL character. -/
theorem after_cut (q : Request) : c.after now q = c.after now q.cut := by
  have hhas (s : String) : c.has (Text.untilNul s) = c.has s := by rw [has, has, row?_untilNul]
  have hold (s : String) (keep : Nat) : Work.isOld (Text.untilNul s) keep = Work.isOld s keep := by
    funext c v
    rw [Work.isOld, Work.isOld, history, history, untilNul_untilNul]
  have hname : (Text.untilNul ∘ Text.untilNul) = Text.untilNul := funext untilNul_untilNul
  -- errors and messages, which tell the texts as they were given, are not kept
  suffices h : (c.carryOut now q).toOption.map (·.2) = (c.carryOut now q.cut).toOption.map (·.2) by
    rw [after_eq, after_eq, h]
  cases q with
  | create m =>
    simp only [Request.cut, carryOut, Request.work, Work.result_map, Work.result_create, hhas,
      untilNul_untilNul, toOption_map, toOption_bind, toOption_throw, toOption_pure, apply_ite,
      Option.map_bind, Option.map_some, Option.map_none, Option.bind_none, Function.comp_def]
  | update m =>
    simp only [Request.cut, carryOut, Request.work, Work.result_map, Work.result_update,
      untilNul_untilNul, toOption_map, toOption_bind, toOption_throw, toOption_pure, apply_ite,
      Option.map_bind, Option.map_some, Option.map_none, Option.bind_none, Function.comp_def]
  | delete slug =>
    simp only [Request.cut, carryOut, Request.work, Work.result_map, Work.result_delete,
      untilNul_untilNul, toOption_map, toOption_bind, toOption_pure, Option.map_bind,
      Option.map_some, Function.comp_def]
  | save slug g name =>
    simp only [Request.cut, carryOut, Request.work, Work.result_map, Work.result_save, get_untilNul,
      untilNul_untilNul, Option.map_map, hname, toOption_map, toOption_bind, Option.map_bind]
    refine Option.bind_congr fun o _ => ?_
    cases o with
    | none => rfl
    | some m =>
      by_cases hg : m.category = g.category <;> simp only [hg, ne_eq, not_true_eq_false,
        not_false_eq_true, if_true, if_false, toOption_bind, toOption_throw, toOption_pure,
        Option.map_bind, Option.map_some, Option.map_none, Option.bind_none, Function.comp_def]
  | deleteVersion id => rfl
  | prune slug keep =>
    simp only [Request.cut, carryOut, Request.work, Work.result_map, Work.result_prune, hold,
      toOption_map, toOption_bind, toOption_pure, Option.map_bind, Option.map_some,
      Function.comp_def]

/-- A request with any texts leaves the rows and the versions of a catalogue together. -/
theorem Filed.after_any {c : Catalogue} (hc : c.Filed) (now : Timestamp) (q : Request) :
    (c.after now q).Filed := by
  rw [after_cut]
  exact hc.after q.plain_cut now

theorem Filed.afterAll {c : Catalogue} (hc : c.Filed) (qs : List (Timestamp × Request)) :
    (c.afterAll qs).Filed := by
  induction qs generalizing c with
  | nil => exact hc
  | cons q qs ih => exact ih (hc.after_any q.1 q.2)

/-- A version that came later has a number that was not given before. -/
theorem Filed.mem_or_lt_afterAll {c : Catalogue} (hc : c.Filed) {qs : List (Timestamp × Request)}
    {w : Version} (hw : w ∈ (c.afterAll qs).versions) : w ∈ c.versions ∨ c.lastId < w.id := by
  induction qs generalizing c with
  | nil => exact .inl hw
  | cons q qs ih =>
    have hstep := hc.step q.2.plain_cut q.1
    rw [← after_cut] at hstep
    obtain ⟨hle, hnew⟩ := hstep.lastId_le
    rcases ih (hc.after_any q.1 q.2) hw with hw | hlt
    · exact hnew w hw
    · exact .inr (Nat.lt_of_le_of_lt hle hlt)

/-- A version that is there later under the number of a version is that version. -/
theorem Filed.eq_of_id_afterAll {c : Catalogue} (hc : c.Filed) {qs : List (Timestamp × Request)}
    {v w : Version} (hv : v ∈ c.versions) (hw : w ∈ (c.afterAll qs).versions) (hid : w.id = v.id) :
    w = v := by
  rcases hc.mem_or_lt_afterAll hw with hw | hlt
  · exact hc.eq_of_id_eq hw hv hid
  · have hle := hc.last v hv
    omega

/-- Any requests at any times leave rows and versions together. -/
theorem filed_afterAll (qs : List (Timestamp × Request)) : (fresh.afterAll qs).Filed :=
  filed_fresh.afterAll qs

end Catalogue
end Patchbay.Store
