import Patchbay.Proofs.Store.Refined
/-!
# The version that a catalogue gains

Saving a graph adds one version to a catalogue, with a number that no version had. Pruning after
that takes versions of the same graph only, the oldest first, and so leaves the new one, unless the
clock went backwards. For this it is enough that versions have numbers of their own: rows and
versions need not fit together, and the categories of rows need not be any.

## Main definitions

* `Catalogue.Numbered`: a catalogue whose versions have numbers of their own.
* `Catalogue.Gains`: one version comes, and of its graph at most so many stay.

## Main statements

* `Catalogue.exists_of_create`, `Catalogue.exists_of_save`, `Catalogue.eq_of_prune`: what it takes
  to create a graph, to save and to prune, and what comes of it.
* `Catalogue.exists_save_of_create`: a graph that was just created can be saved.
* `Catalogue.gains_of_save`, `Catalogue.Gains.prune`: what saving and pruning come to.
-/
namespace Patchbay.Store
namespace Catalogue
variable {c d e : Catalogue} {now : Timestamp} {slug : String} {g : Graph} {name : Option String}
  {m : Metadata} {id n : Nat} {v : Version} {journal : Journal}

/-! ### What requests need -/

theorem tables_of_need {q : Query} (h : c.need q = .ok ()) : c.tables = .present := by
  unfold need at h
  split at h <;> first | assumption | cases h

theorem need_of_tables (h : c.tables = .present) (q : Query) : c.need q = .ok () := by
  rw [need, h]

theorem readOnly_of_permit (h : c.permit = .ok ()) : c.readOnly = false := by
  unfold permit at h
  split at h
  · cases h
  · next hw => exact Bool.eq_false_iff.2 hw

theorem permit_of_readOnly (h : c.readOnly = false) : c.permit = .ok () := by
  rw [permit, h]
  rfl

/-- A part of a request that succeeds is followed by the rest. -/
theorem exists_of_bind {α β : Type} {x : Except Error α} {f : α → Except Error β} {b : β}
    (h : x >>= f = .ok b) : ∃ a, x = .ok a ∧ f a = .ok b := by
  cases x with
  | error e => cases h
  | ok a => exact ⟨a, rfl, h⟩

theorem has_eq_ok_iff {b : Bool} :
    c.has slug = .ok b ↔ c.tables = .present ∧ b = (c.row? slug).isSome := by
  constructor
  · intro h
    obtain ⟨⟨⟩, hneed, h⟩ := exists_of_bind h
    exact ⟨tables_of_need hneed, (Except.ok.inj h).symm⟩
  · rintro ⟨ht, rfl⟩
    rw [has, need_of_tables ht]
    rfl

/-- A graph is created where there is none, in a catalogue with tables that may be changed. -/
theorem exists_of_create (h : (Work.create now m).run .never c = (.ok ((), journal), d)) :
    c.tables = .present ∧ c.readOnly = false ∧ c.row? m.slug = none ∧
      ∃ r : Row, r.slug = Text.untilNul m.slug ∧ r.category = m.category.label ∧
        d = { c with graphs := c.graphs ++ [r] } := by
  rw [← Work.result_eq_ok_iff, Work.result_create] at h
  obtain ⟨b, hhas, h⟩ := exists_of_bind h
  obtain ⟨ht, rfl⟩ := has_eq_ok_iff.1 hhas
  cases hrow : c.row? m.slug with
  | some r =>
    rw [hrow] at h
    cases h
  | none =>
    rw [hrow] at h
    obtain ⟨⟨⟩, hpermit, h⟩ := exists_of_bind h
    cases h
    exact ⟨ht, readOnly_of_permit hpermit, rfl, _, rfl, rfl, rfl⟩

/-- What is known of a graph is told by its row. -/
theorem exists_of_get (h : c.get slug = .ok (some m)) : c.tables = .present ∧
    ∃ r ∈ c.graphs, r.slug = Text.untilNul slug ∧ r.metadata = .ok m := by
  obtain ⟨⟨⟩, hneed, h⟩ := exists_of_bind h
  refine ⟨tables_of_need hneed, ?_⟩
  cases hrow : c.row? slug with
  | none =>
    rw [hrow] at h
    cases h
  | some r =>
    rw [hrow] at h
    obtain ⟨m', hm, h⟩ := exists_of_bind h
    cases h
    exact ⟨r, List.mem_of_find?_eq_some hrow, by simpa using List.find?_some hrow, hm⟩

/-- A graph is saved under the slug of a graph of its category, with the next number. -/
theorem exists_of_save (h : (Work.save now slug g name).run .never c = (.ok (id, journal), d)) :
    c.tables = .present ∧ c.readOnly = false ∧ id = c.lastId + 1 ∧
      (∃ r ∈ c.graphs, r.slug = Text.untilNul slug) ∧
      d = { c with
        graphs := c.graphs.map (touched now (Text.untilNul slug))
        versions := c.versions ++
          [c.ledger.newVersion now (Text.untilNul slug) g (name.map Text.untilNul)]
        lastId := c.lastId + 1 } := by
  rw [← Work.result_eq_ok_iff, Work.result_save] at h
  obtain ⟨o, hget, h⟩ := exists_of_bind h
  cases o with
  | none => cases h
  | some m =>
    obtain ⟨ht, r, hr, hslug, -⟩ := exists_of_get hget
    simp only at h
    split at h
    · cases h
    obtain ⟨⟨⟩, hpermit, h⟩ := exists_of_bind h
    cases h
    exact ⟨ht, readOnly_of_permit hpermit, rfl, ⟨r, hr, hslug⟩, rfl⟩

/-- A graph that was just created can be saved. -/
theorem exists_save_of_create (h : (Work.create now m).run .never c = (.ok ((), journal), d))
    (hg : m.category = g.category) (later : Timestamp) (name : Option String) :
    ∃ r e, (Work.save later m.slug g name).run .never d = (.ok r, e) := by
  obtain ⟨ht, hw, hnone, r, hslug, hcategory, hd⟩ := exists_of_create h
  have htables : d.tables = .present := hd ▸ ht
  have hreadOnly : d.readOnly = false := hd ▸ hw
  have hrow : d.row? m.slug = some r := by
    rw [row?] at hnone ⊢
    rw [hd, List.find?_append, hnone]
    simp [hslug]
  have hmeta : r.metadata = .ok { r with category := m.category } := metadata_of_label hcategory
  have hget : d.get m.slug = .ok (some { r with category := m.category }) := by
    rw [get, need_of_tables htables, hrow]
    simp only [hmeta]
    rfl
  simp only [← Work.result_eq_ok_iff, Work.result_save, hget, bind, Except.bind, hg, ne_eq,
    not_true_eq_false, if_false, permit_of_readOnly hreadOnly]
  exact ⟨_, _, rfl⟩

/-- Versions are pruned in a catalogue with tables that may be changed. -/
theorem eq_of_prune (h : (Work.prune slug n).run .never c = (.ok (id, journal), d)) :
    c.tables = .present ∧ c.readOnly = false ∧ d = { c with
      versions := c.versions.filter fun v => !Work.isOld slug n c v } := by
  rw [← Work.result_eq_ok_iff, Work.result_prune] at h
  obtain ⟨⟨⟩, hneed, h⟩ := exists_of_bind h
  obtain ⟨⟨⟩, hpermit, h⟩ := exists_of_bind h
  cases h
  exact ⟨tables_of_need hneed, readOnly_of_permit hpermit, rfl⟩

theorem exists_prune (ht : c.tables = .present) (hw : c.readOnly = false) (slug : String)
    (n : Nat) : ∃ r d, (Work.prune slug n).run .never c = (.ok r, d) := by
  simp only [← Work.result_eq_ok_iff, Work.result_prune, need_of_tables ht, permit_of_readOnly hw]
  exact ⟨_, _, rfl⟩

/-! ### Versions with numbers of their own -/

/-- No two versions have one number, and none has one that is still to be given. -/
structure Numbered (c : Catalogue) : Prop where
  ids : (c.versions.map (·.id)).Nodup
  last : ∀ v ∈ c.versions, v.id ≤ c.lastId

/-- A catalogue gains a version of a graph. If the versions of the graph are limited, the oldest
ones go, as many as are too many. A limit of zero is none. -/
structure Gains (c d : Catalogue) (limit : Nat) (v : Version) : Prop where
  number : v.id = c.lastId + 1
  /-- The version has a greater number than the others. -/
  new : ∀ w ∈ c.versions, w.id < v.id
  /-- No other version comes. -/
  sublist : d.versions.Sublist (c.versions ++ [v])
  all : limit = 0 → d.versions = c.versions ++ [v]
  /-- Versions of other graphs stay. -/
  others : d.versions.filter (fun w => w.slug ≠ v.slug) = c.versions.filter fun w => w.slug ≠ v.slug
  count : limit ≠ 0 → (d.versions.filter fun w => w.slug = v.slug).length =
    min limit ((c.versions.filter fun w => w.slug = v.slug).length + 1)
  /-- The version stays unless the clock went backwards. -/
  kept : (∀ w ∈ c.versions, w.slug = v.slug → w.created ≤ v.created) → v ∈ d.versions
  /-- There is a graph for the version, and the other graphs are what they were. -/
  placed : ∃ r ∈ d.graphs, r.slug = v.slug
  graphs : d.graphs.filter (fun r => r.slug ≠ v.slug) = c.graphs.filter fun r => r.slug ≠ v.slug

/-- What a catalogue gains over one with the same versions and the same other graphs. -/
theorem Gains.congr {n : Nat} (h : d.Gains e n v) (hversions : d.versions = c.versions)
    (hlast : d.lastId = c.lastId) (hgraphs : d.graphs.filter (fun r => r.slug ≠ v.slug) =
      c.graphs.filter fun r => r.slug ≠ v.slug) : c.Gains e n v where
  number := hlast ▸ h.number
  new := hversions ▸ h.new
  sublist := hversions ▸ h.sublist
  all := hversions ▸ h.all
  others := hversions ▸ h.others
  count := hversions ▸ h.count
  kept := hversions ▸ h.kept
  placed := h.placed
  graphs := h.graphs.trans hgraphs

theorem Numbered.congr (h : c.Numbered) (hversions : d.versions = c.versions)
    (hlast : d.lastId = c.lastId) : d.Numbered where
  ids := hversions ▸ h.ids
  last := by
    rw [hversions, hlast]
    exact h.last

/-- Rows of other graphs are not touched. -/
theorem filter_touched (now : Timestamp) (slug : String) (rs : List Row) :
    (rs.map (touched now slug)).filter (fun r => r.slug ≠ slug) =
      rs.filter fun r => r.slug ≠ slug := by
  induction rs with
  | nil => rfl
  | cons r rs ih =>
    rw [List.map_cons, List.filter_cons, List.filter_cons, slug_touched, ih]
    by_cases hr : r.slug = slug
    · simp [hr]
    · simp [hr, touched]

/-- One version comes when a graph is saved. -/
theorem gains_of_save (hc : c.Numbered)
    (h : (Work.save now slug g name).run .never c = (.ok (id, journal), d)) :
    ∃ v, v.id = id ∧ v.slug = Text.untilNul slug ∧ v.created = now.utc ∧ c.Gains d 0 v ∧
      d.Numbered := by
  obtain ⟨-, -, rfl, ⟨r, hr, hslug⟩, rfl⟩ := exists_of_save h
  let v := c.ledger.newVersion now (Text.untilNul slug) g (name.map Text.untilNul)
  have hnew : ∀ w ∈ c.versions, w.id < v.id := fun w hw => Nat.lt_succ_of_le (hc.last w hw)
  refine ⟨v, rfl, rfl, rfl, ?_, ?_⟩
  · exact {
      number := rfl
      new := hnew
      sublist := List.Sublist.refl _
      all := fun _ => rfl
      others := by simp [v, Ledger.newVersion]
      count := fun h => absurd rfl h
      kept := fun _ => List.mem_append_right _ (List.mem_singleton_self v)
      placed := ⟨_, List.mem_map_of_mem hr, (slug_touched _ _ r).trans hslug⟩
      graphs := filter_touched now _ c.graphs }
  · refine ⟨?_, fun w hw => ?_⟩
    · rw [List.map_append, List.nodup_append]
      refine ⟨hc.ids, List.nodup_singleton _, fun i hi j hj => ?_⟩
      obtain ⟨w, hw, rfl⟩ := List.mem_map.1 hi
      exact List.mem_singleton.1 hj ▸ Nat.ne_of_lt (hnew w hw)
    · rcases List.mem_append.1 hw with hw | hw
      · exact Nat.le_succ_of_le (hc.last w hw)
      · rw [List.mem_singleton.1 hw]
        exact Nat.le_refl _

/-! ### Versions that are pruned -/

/-- The listing of a graph begins with a version that is younger and has a greater number than the
others. -/
theorem head_history (hv : v ∈ c.versions) (hslug : v.slug = Text.untilNul slug)
    (hyoung : ∀ w ∈ c.versions, w.slug = v.slug → w ≠ v → w.created ≤ v.created ∧ w.id < v.id) :
    (c.history slug).head? = some v := by
  have hmem := mem_history.2 ⟨hv, hslug⟩
  have hsorted := List.pairwise_mergeSort Version.listedBefore_trans Version.listedBefore_total
    (c.versions.filter fun v => v.slug = Text.untilNul slug)
  change (c.history slug).Pairwise _ at hsorted
  cases hh : c.history slug with
  | nil =>
    rw [hh] at hmem
    cases hmem
  | cons w ws =>
    rw [hh] at hmem hsorted
    rcases List.mem_cons.1 hmem with rfl | hmem
    · rfl
    · have hbefore := Version.listedBefore_iff.1 ((List.pairwise_cons.1 hsorted).1 v hmem)
      obtain ⟨hw, hw'⟩ := mem_history.1 (hh ▸ List.mem_cons_self : w ∈ c.history slug)
      by_cases he : w = v
      · exact congrArg some he
      · obtain ⟨hcreated, hid⟩ := hyoung w hw (hw'.trans hslug.symm) he
        rcases hbefore with hlt | ⟨-, hle⟩
        · exact absurd hlt (not_lt_of_ge hcreated)
        · exact absurd hid (Nat.not_lt_of_le hle)

/-- As many versions of a graph are left as may be. -/
theorem Numbered.length_prune (hc : c.Numbered) (slug : String) (n : Nat) :
    ((c.versions.filter fun v => !Work.isOld slug n c v).filter
      fun v => v.slug = Text.untilNul slug).length =
      min n (c.versions.filter fun v => v.slug = Text.untilNul slug).length := by
  have hperm : (c.history slug).Perm (c.versions.filter fun v => v.slug = Text.untilNul slug) :=
    List.mergeSort_perm _ _
  rw [List.filter_comm, ← (hperm.filter _).length_eq, Work.filter_isOld hc.ids, List.length_take,
    hperm.length_eq]

/-- Pruning after a version was gained takes the oldest versions of its graph. -/
theorem Gains.prune (h : c.Gains d 0 v) (hd : d.Numbered) (hslug : v.slug = Text.untilNul slug)
    (hn : n ≠ 0) (hp : (Work.prune slug n).run .never d = (.ok (id, journal), e)) :
    c.Gains e n v := by
  obtain ⟨-, -, rfl⟩ := eq_of_prune hp
  have hversions := h.all rfl
  have hv : v ∈ d.versions := hversions ▸ List.mem_append_right _ (List.mem_singleton_self v)
  refine {
    number := h.number
    new := h.new
    sublist := List.filter_sublist.trans h.sublist
    all := fun h => absurd h hn
    others := ?_
    count := fun _ => ?_
    kept := fun hclock => ?_
    placed := h.placed
    graphs := h.graphs }
  · rw [← h.others, List.filter_comm, List.filter_eq_self]
    intro w hw
    obtain ⟨hw, hother⟩ := List.mem_filter.1 hw
    rw [Bool.not_eq_true', Bool.eq_false_iff]
    refine fun hold => of_decide_eq_true hother ?_
    exact ((Work.isOld_iff hd.ids hw).1 hold).1.trans hslug.symm
  · have hlength : (d.versions.filter fun w => w.slug = v.slug).length =
        (c.versions.filter fun w => w.slug = v.slug).length + 1 := by
      rw [hversions, List.filter_append]
      simp
    rw [← hlength, hslug]
    exact hd.length_prune slug n
  · have hhead : (d.history slug).head? = some v := head_history hv hslug fun w hw hs hne => by
      rw [hversions] at hw
      have hw := (List.mem_append.1 hw).resolve_right fun h => hne (List.mem_singleton.1 h)
      exact ⟨hclock w hw hs, h.new w hw⟩
    have hfront : v ∈ (d.history slug).take n := by
      obtain ⟨k, rfl⟩ := Nat.exists_eq_succ_of_ne_zero hn
      obtain ⟨ws, hws⟩ := List.head?_eq_some_iff.1 hhead
      rw [hws]
      exact List.mem_cons_self
    exact List.mem_filter.2 ⟨hv, by rw [Work.isOld_of_mem_take hd.ids hfront]; rfl⟩

end Catalogue
end Patchbay.Store
