import Patchbay.Proofs.Store.Refined
/-!
# What can be relied on

Whatever was asked of a catalogue, it tells what the ledger has that was asked the same. What was
saved stays as it was until a request takes it away, and no number is given twice.

## Main definitions

* `Catalogue.Tells`: a catalogue tells what a ledger has.
* `Catalogue.Reliable`: what can be relied on at the next request.
* `Catalogue.Lasts`: what can be relied on over many requests.

## Main statements

* `Catalogue.reliable_afterAll`: all that can be relied on, after any requests.
-/
namespace Patchbay.Store

/-- Pruning leaves the newest versions in a folder. -/
theorem Ledger.versions_after_prune (l : Ledger) (now : Timestamp) (slug : String) (keep : Nat) :
    (l.after now (.prune slug keep)).versions slug =
      (l.versions slug).drop ((l.versions slug).length - keep) := by
  simp only [after, carryOut, versions]
  cases hf : l.folder? slug with
  | none => simp [Except.toOption, hf]
  | some f => simp [Except.toOption, put]

theorem Ledger.versions_after_prune_of_ne (l : Ledger) (now : Timestamp) {slug other : String}
    (h : other ≠ slug) (keep : Nat) :
    (l.after now (.prune slug keep)).versions other = l.versions other := by
  simp only [after, carryOut, versions]
  cases hf : l.folder? slug with
  | none => rfl
  | some f => simp [Except.toOption, put, h]

namespace Catalogue
variable {c : Catalogue} {slug : String} {v w : Version}

/-- What a catalogue is asked for, it answers from a ledger. -/
structure Tells (c : Catalogue) (l : Ledger) : Prop where
  has : ∀ slug, Plain slug → c.has slug = .ok (l.folder? slug).isSome
  get : ∀ slug, Plain slug → c.get slug = .ok ((l.folder? slug).map (·.about))
  list : ∃ ms, c.list = .ok ms ∧ (ms.map (·.slug)).Nodup ∧
    ∀ m, m ∈ ms ↔ ∃ f, l.folder? m.slug = some f ∧ f.about = m
  versionsOf : ∀ slug, Plain slug → c.versionsOf slug = .ok (l.versions slug).reverse
  latest : ∀ slug, Plain slug → c.latest slug = .ok (l.versions slug).getLast?
  version : ∀ id : Int64, ∃ o, c.version id = .ok o ∧
    ∀ v, o = some v ↔ v ∈ l.versions v.slug ∧ (v.id : Int) = id.toInt

/-- What can be relied on at the next request. -/
structure Reliable (c : Catalogue) : Prop where
  /-- The numbers of a listing decrease. -/
  descending : ∀ slug, Plain slug → (c.history slug).Pairwise fun v w => w.id < v.id
  /-- Every version belongs to a graph. -/
  owned : ∀ v ∈ c.versions, c.has v.slug = .ok true
  /-- A graph that is created has no versions. -/
  bare : ∀ now m d journal, (Request.create m).Plain →
    (Work.create now m).run .never c = (.ok ((), journal), d) → d.versionsOf m.slug = .ok []
  /-- A version stays as it is unless the request takes it away. -/
  kept : ∀ now (q : Request), q.Plain → ∀ v ∈ c.versions,
    v ∈ (c.after now q).versions ↔ ¬ q.Removes c v
  /-- A version that is new has a new number. -/
  numbered : ∀ now (q : Request), q.Plain → ∀ v ∈ (c.after now q).versions,
    v ∈ c.versions ∨ v.id = c.lastId + 1
  /-- Pruning keeps the front of one listing and nothing else changes. It is done once for all. -/
  pruned : ∀ slug keep, Plain slug → ∃ d journal,
    (Work.prune slug keep).run .never c = (.ok ((c.history slug).length - keep, journal), d) ∧
    d.history slug = (c.history slug).take keep ∧
    (∀ other, Plain other → other ≠ slug → d.history other = c.history other) ∧
    d.graphs = c.graphs ∧ (Work.prune slug keep).run .never d = (.ok (0, []), d)
  /-- What is refused changes nothing. -/
  refused : ∀ now q e, c.carryOut now q = .error e → c.after now q = c
  /-- What fails changes nothing either if something stands against any of the statements. -/
  undone : ∀ t now (q : Request) e d, (q.work now).run t c = (.error e, d) → d = c

/-- What can be relied on from one moment to a later one: a version that is there later under the
number of a version is that version, and a version that is not there any more was taken away. -/
def Lasts (c : Catalogue) (qs : List (Timestamp × Request)) : Prop :=
  ∀ v ∈ c.versions, (∀ w ∈ (c.afterAll qs).versions, w.id = v.id → w = v) ∧
    (v ∈ (c.afterAll qs).versions ∨
      ∃ ps q rs, qs = ps ++ q :: rs ∧ v ∈ (c.afterAll ps).versions ∧ q.2.Removes (c.afterAll ps) v)

namespace Orderly

/-! ### What a catalogue tells -/

/-- The versions in a folder are those of its slug. -/
theorem versions_ledger (hc : c.Orderly) (slug : String) :
    c.ledger.versions slug = c.versions.filter fun v => v.slug = slug := by
  rw [Ledger.versions, folder?_ledger]
  cases hr : c.graphs.find? fun r => r.slug = slug with
  | none =>
    have hnone : (c.versions.filter fun v => v.slug = slug) = [] :=
      List.filter_eq_nil_iff.2 fun v hv => by simpa using hc.slug_ne_of_none hr hv
    rw [hc.folder?_eq_none_iff.2 hr, hnone]
    rfl
  | some r =>
    obtain ⟨category, -, hf⟩ := hc.exists_folder hr
    rw [hf]
    rfl

theorem has_eq (hc : c.Orderly) (hs : Plain slug) : c.has slug = .ok (c.folder? slug).isSome := by
  simp only [has, hc.need_eq, row?_of_plain hs]
  cases hr : c.graphs.find? fun r => r.slug = slug with
  | none =>
    rw [hc.folder?_eq_none_iff.2 hr]
    rfl
  | some r =>
    obtain ⟨category, -, hf⟩ := hc.exists_folder hr
    rw [hf]
    rfl

/-- Rows are told one by one. -/
theorem mapM_metadata (rs : List Row)
    (h : ∀ r ∈ rs, ∃ category : Category, r.category = category.label) :
    ∃ ms, rs.mapM Row.metadata = .ok ms ∧ ms.map (·.slug) = rs.map (·.slug) ∧
      ∀ m, m ∈ ms ↔ ∃ r ∈ rs, r.metadata = .ok m := by
  induction rs with
  | nil => exact ⟨[], rfl, rfl, by simp⟩
  | cons r rs ih =>
    obtain ⟨⟨category, hr⟩, hrs⟩ := List.forall_mem_cons.1 h
    obtain ⟨ms, hms, hslugs, hmem⟩ := ih hrs
    have hmetadata := metadata_of_label hr
    refine ⟨{ r with category } :: ms, ?_, ?_, fun m => ?_⟩
    · rw [List.mapM_cons, hmetadata, hms]
      rfl
    · rw [List.map_cons, List.map_cons, hslugs]
    · simp only [List.mem_cons, hmem, exists_eq_or_imp, hmetadata, Except.ok.injEq]
      rw [eq_comm]

theorem tells (hc : c.Orderly) : c.Tells c.ledger where
  has slug hs := hc.has_eq hs
  get slug hs := hc.get_eq hs
  list := by
    have hperm := List.mergeSort_perm c.graphs Row.listedBefore
    obtain ⟨ms, hms, hslugs, hmem⟩ := mapM_metadata (c.graphs.mergeSort Row.listedBefore)
      fun r hr => hc.categories r (hperm.mem_iff.1 hr)
    refine ⟨ms, ?_, hslugs ▸ (hperm.map _).nodup_iff.2 hc.slugs, fun m => ?_⟩
    · simp only [Catalogue.list, hc.need_eq]
      exact hms
    · rw [hmem]
      constructor
      · rintro ⟨r, hr, hm⟩
        have hr := hperm.mem_iff.1 hr
        obtain ⟨category, hl⟩ := hc.categories r hr
        rw [metadata_of_label hl] at hm
        obtain rfl := Except.ok.inj hm
        exact ⟨_, folder?_of_row (find?_key_of_mem hc.slugs hr) hl, rfl⟩
      · rintro ⟨f, hf, hm⟩
        cases hr : c.graphs.find? fun r => r.slug = m.slug with
        | none =>
          rw [folder?_ledger, hc.folder?_eq_none_iff.2 hr] at hf
          cases hf
        | some r =>
          obtain ⟨category, hl, hf'⟩ := hc.exists_folder hr
          obtain rfl := Option.some.inj (hf'.symm.trans hf)
          exact ⟨r, hperm.mem_iff.2 (mem_of_find? hr).1, hm ▸ metadata_of_label hl⟩
  versionsOf slug hs := by
    simp only [Catalogue.versionsOf, hc.need_eq, hc.history_eq hs, hc.versions_ledger]
    rfl
  latest slug hs := by
    simp only [Catalogue.latest, hc.need_eq, hc.history_eq hs, hc.versions_ledger,
      List.head?_reverse]
    rfl
  version id := by
    refine ⟨c.versions.find? fun v => (v.id : Int) = id.toInt, ?_, fun v => ?_⟩
    · simp only [Catalogue.version, hc.need_eq]
      rfl
    · rw [hc.versions_ledger, List.mem_filter]
      constructor
      · intro h
        exact ⟨⟨List.mem_of_find?_eq_some h, decide_eq_true rfl⟩, by simpa using List.find?_some h⟩
      · rintro ⟨⟨hv, -⟩, hid⟩
        have hids : (c.versions.map fun v => (v.id : Int)).Nodup :=
          List.pairwise_map.2 (hc.ids.imp fun hlt => by omega)
        exact hid ▸ find?_key_of_mem hids hv

/-! ### The next request -/

theorem pairwise_history (hc : c.Orderly) (hs : Plain slug) :
    (c.history slug).Pairwise fun v w => w.id < v.id := by
  rw [hc.history_eq hs, List.pairwise_reverse]
  exact hc.ids.filter _

theorem has_slug (hc : c.Orderly) (hv : v ∈ c.versions) : c.has v.slug = .ok true := by
  obtain ⟨r, hr, hslug⟩ := hc.owned v hv
  have hfound := find?_key_of_mem hc.slugs hr
  obtain ⟨category, -, hf⟩ := hc.exists_folder hfound
  rw [← hslug, hc.has_eq (hc.plain r hr), hf]
  rfl

/-- A graph that is created has no versions. -/
theorem versionsOf_created (hc : c.Orderly) {now : Timestamp} {m : Metadata} {d : Catalogue}
    {journal : Journal} (hm : (Request.create m).Plain)
    (h : (Work.create now m).run .never c = (.ok ((), journal), d)) :
    d.versionsOf m.slug = .ok [] := by
  have hrun := hc.create_eq hm now
  rw [carryOut, Request.work, Work.result_map, Work.result_eq_ok_iff.2 h] at hrun
  cases hr : c.graphs.find? fun r => r.slug = m.slug with
  | some r =>
    rw [hr] at hrun
    cases hrun
  | none =>
    rw [hr] at hrun
    obtain rfl : d = _ := congrArg Prod.snd (Except.ok.inj hrun)
    have hnone : (c.versions.filter fun v => v.slug = Text.untilNul m.slug) = [] := by
      rw [hm.1.untilNul_eq]
      exact List.filter_eq_nil_iff.2 fun v hv => by simpa using hc.slug_ne_of_none hr hv
    simp only [Catalogue.versionsOf, need, hc.tables, history, hnone, List.mergeSort_nil]
    rfl

/-- The listing of a graph is its folder backwards. -/
theorem history_eq_versions (hc : c.Orderly) (hs : Plain slug) :
    c.history slug = (c.ledger.versions slug).reverse := by
  rw [hc.history_eq hs, hc.versions_ledger]

/-- No version is added that is there already. -/
theorem not_adds (hc : c.Orderly) (hv : v ∈ c.versions) (now : Timestamp) (q : Request) :
    ¬ q.Adds c now v := by
  intro h
  cases q with
  | save slug g name =>
    have hid : v.id = c.lastId + 1 := congrArg Version.id h.2
    have hle := hc.last v hv
    omega
  | _ => exact h

/-- Pruning keeps the front of one listing and nothing else changes. -/
theorem prune_spec (hc : c.Orderly) (hs : Plain slug) (keep : Nat) : ∃ d journal,
    (Work.prune slug keep).run .never c = (.ok ((c.history slug).length - keep, journal), d) ∧
    ((c.history slug).length ≤ keep → d = c ∧ journal = []) ∧ d.Orderly ∧
    d.history slug = (c.history slug).take keep ∧
    (∀ other, Plain other → other ≠ slug → d.history other = c.history other) ∧
    d.graphs = c.graphs := by
  obtain ⟨journal, hrun, hjournal⟩ := hc.prune_run hs keep
  have hd := hc.filterVersions fun v => v ∉ (c.versions.filter fun v => v.slug = slug).take
    ((c.versions.filter fun v => v.slug = slug).length - keep)
  have hledger := hc.ledger_after (q := .prune slug keep) hs ⟨0⟩
  rw [after_eq, carryOut, Request.work, Work.result_map, hrun] at hledger
  have hlength : (c.history slug).length = (c.versions.filter fun v => v.slug = slug).length := by
    rw [hc.history_eq hs, List.length_reverse]
  rw [hlength]
  refine ⟨_, journal, Work.result_eq_ok_iff.1 hrun, fun hle => ⟨?_, hjournal hle⟩, hd, ?_,
    fun other ho hne => ?_, rfl⟩
  · simp [Nat.sub_eq_zero_of_le hle]
  · rw [hd.history_eq_versions hs, hc.history_eq_versions hs, List.take_reverse]
    exact congrArg List.reverse ((congrArg (Ledger.versions · slug) hledger).trans
      (Ledger.versions_after_prune _ _ slug keep))
  · rw [hd.history_eq_versions ho, hc.history_eq_versions ho]
    exact congrArg List.reverse ((congrArg (Ledger.versions · other) hledger).trans
      (Ledger.versions_after_prune_of_ne _ _ hne keep))

theorem reliable (hc : c.Orderly) : c.Reliable where
  descending slug hs := hc.pairwise_history hs
  owned v hv := hc.has_slug hv
  bare now m d journal hm h := hc.versionsOf_created hm h
  kept now q hq v hv := by
    rw [hc.mem_versions_after hq]
    simp [hv, hc.not_adds hv]
  numbered now q hq v hv := by
    rcases (hc.mem_versions_after hq).1 hv with ⟨hv, -⟩ | hv
    · exact .inl hv
    · cases q with
      | save slug g name => exact .inr (congrArg Version.id hv.2)
      | _ => cases hv
  pruned slug keep hs := by
    obtain ⟨d, journal, hrun, -, hd, hself, hother, hgraphs⟩ := hc.prune_spec hs keep
    obtain ⟨d', journal', hrun', hsame, -⟩ := hd.prune_spec hs keep
    have hle : (d.history slug).length ≤ keep := by
      rw [hself]
      exact List.length_take_le _ _
    obtain ⟨rfl, rfl⟩ := hsame hle
    rw [Nat.sub_eq_zero_of_le hle] at hrun'
    exact ⟨d', journal, hrun, hself, hother, hgraphs, hrun'⟩
  refused now q e h := by
    rw [after_eq, h]
    rfl
  undone t now q e d h := q.safe_work now t c e d h

/-! ### Many requests -/

/-- A version is there until a request takes it away. -/
theorem mem_or_removed (hc : c.Orderly) {qs : List (Timestamp × Request)} (hqs : Ticking qs)
    (hb : ∀ q ∈ qs, c.Before q.1) (hv : v ∈ c.versions) : v ∈ (c.afterAll qs).versions ∨
      ∃ ps q rs, qs = ps ++ q :: rs ∧ v ∈ (c.afterAll ps).versions ∧
        q.2.Removes (c.afterAll ps) v := by
  induction qs generalizing c with
  | nil => exact .inl hv
  | cons q qs ih =>
    by_cases hgone : q.2.Removes c v
    · exact .inr ⟨[], q, qs, rfl, hv, hgone⟩
    · have hq := hqs.plain q List.mem_cons_self
      obtain ⟨hd, hlater⟩ := hqs.head hc hb
      have hstays := (hc.reliable.kept q.1 q.2 hq v hv).2 hgone
      rcases ih hd hqs.tail hlater hstays with hthere | ⟨ps, p, rs, rfl, hthere, hgone⟩
      · exact .inl hthere
      · exact .inr ⟨q :: ps, p, rs, rfl, hthere, hgone⟩

theorem lasts (hc : c.Orderly) {qs : List (Timestamp × Request)} (hqs : Ticking qs)
    (hb : ∀ q ∈ qs, c.Before q.1) : c.Lasts qs := by
  intro v hv
  exact ⟨fun w hw hid => hc.toFiled.eq_of_id_afterAll hv hw hid, hc.mem_or_removed hqs hb hv⟩

end Orderly

/-- Whatever was asked of a catalogue, at times that do not go backwards and with texts that have no
NUL characters: it answered like the ledger that was asked the same, it tells what that ledger has,
and what was saved lasts. -/
theorem reliable_afterAll {qs : List (Timestamp × Request)} (hqs : Ticking qs) :
    fresh.answers qs = ({} : Ledger).answers qs ∧
      (fresh.afterAll qs).Tells (({} : Ledger).afterAll qs) ∧ (fresh.afterAll qs).Reliable ∧
      ∀ ps rs, qs = ps ++ rs → (fresh.afterAll ps).Lasts rs := by
  obtain ⟨hc, hledger, hanswers⟩ := orderly_fresh.afterAll hqs fun _ _ => before_fresh _
  rw [ledger_fresh] at hledger hanswers
  refine ⟨hanswers, hledger ▸ hc.tells, hc.reliable, ?_⟩
  rintro ps rs rfl
  exact (orderly_afterAll hqs.left).lasts hqs.right fun q hq =>
    hqs.before_right hq orderly_fresh fun _ _ => before_fresh _

end Catalogue

namespace Histories

/-- Two graphs are created, a third time one of them in vain. Versions are saved at one time, some
go, and a slug is used again. -/
def twoSlugs : List (Timestamp × Request) :=
  let about (slug : String) : Metadata := { slug, name := "n", category := .dataFlow }
  let g : Graph := .new {} "g" .dataFlow
  [(⟨0⟩, .create (about "a")), (⟨1⟩, .create (about "b")), (⟨1⟩, .create (about "a")),
    (⟨5⟩, .save "a" g none), (⟨5⟩, .save "a" g (some "second")), (⟨5⟩, .save "b" g none),
    (⟨5⟩, .save "a" (.new {}) none), (⟨7⟩, .save "a" g none), (⟨7⟩, .prune "a" 2),
    (⟨8⟩, .deleteVersion 4), (⟨9⟩, .delete "b"), (⟨9⟩, .create (about "b"))]

end Histories

/-- Two graphs are left, one of them with the version that was saved second. -/
theorem Catalogue.reliable_afterAll_twoSlugs :
    Catalogue.Ticking Histories.twoSlugs ∧
      ((({} : Ledger).afterAll Histories.twoSlugs).versions "a").map (·.id) = [2] ∧
      ((({} : Ledger).afterAll Histories.twoSlugs).versions "b").map (·.id) = [] ∧
      (Catalogue.fresh.afterAll Histories.twoSlugs).Tells
        (({} : Ledger).afterAll Histories.twoSlugs) ∧
      (Catalogue.fresh.afterAll Histories.twoSlugs).Reliable := by
  have hticking : Catalogue.Ticking Histories.twoSlugs := by decide +kernel
  obtain ⟨-, htells, hreliable, -⟩ := Catalogue.reliable_afterAll hticking
  exact ⟨hticking, by decide +kernel, by decide +kernel, htells, hreliable⟩

end Patchbay.Store
