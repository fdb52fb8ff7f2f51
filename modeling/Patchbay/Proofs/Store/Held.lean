import Patchbay.Store.Session
/-!
# What a file holds of a catalogue

A session settles and removes the files beside that of its catalogue, and a journal may grow
anywhere. None of this reaches the catalogue itself: the file holds what it held before, until the
session writes a catalogue into it.

## Main definitions

* `Disk.held`: the catalogue that a file holds.
* `Disk.Aside`: only companions of a file differ, the lock apart.
* `Path.Sound`: a path that a catalogue can be kept under.

## Main statements

* `Disk.held_append?`: a text that is added to a file changes no catalogue.
* `Disk.Aside.held`: what is done beside a file leaves what it holds.
* `Session.settle_aside`, `Session.stop_aside`: what a session does beside its file.
* `Session.held_write`: a catalogue that is written is held.
-/
namespace Patchbay

theorem Text.join_append_last (sep s t : String) (l : List String) :
    join sep (l ++ [s ++ t]) = join sep (l ++ [s]) ++ t := by
  induction l with
  | nil => rfl
  | cons a l ih =>
    cases l with
    | nil => exact String.append_assoc.symm
    | cons b l =>
      have hcons (u : String) :
          join sep (a :: b :: l ++ [u]) = a ++ sep ++ join sep (b :: l ++ [u]) := rfl
      rw [hcons, hcons, ih, ← String.append_assoc]

namespace Store

/-! ### Paths of companions -/

namespace Path
variable {p : Path}

/-- A path that a catalogue can be kept under: it leads to a name, and that is no device. -/
structure Sound (p : Path) : Prop where
  named : p.names ≠ []
  stored : p.device? = none

/-- The key of a companion goes on with its ending. -/
theorem key_companion (h : p.names ≠ []) (k : Companion) :
    (p.companion k).key = p.key ++ k.ending := by
  have hlast : p.names.dropLast ++ [p.names.getLast h] = p.names := List.dropLast_concat_getLast h
  have hbeside : (p.companion k).names = p.names.dropLast ++ [p.names.getLast h ++ k.ending] := by
    simp [companion, beside, List.getLast?_eq_some_getLast h]
  rw [key, hbeside, Text.join_append_last, hlast, key, String.append_assoc]
  rfl

theorem key_companion_ne (h : p.names ≠ []) (k : Companion) : (p.companion k).key ≠ p.key := by
  rw [key_companion h]
  intro he
  have hlength := congrArg String.length he
  cases k <;> simp [Companion.ending] at hlength

theorem companion_injective (h : p.names ≠ []) {k l : Companion}
    (he : (p.companion k).key = (p.companion l).key) : k = l := by
  rw [key_companion h, key_companion h] at he
  have hending : k.ending = l.ending := by simpa using he
  revert hending
  cases k <;> cases l <;> decide

/-- Paths of one key are the same to a disk. -/
theorem device?_congr {q : Path} (h : q.key = p.key) : q.device? = p.device? := by
  rw [device?, device?, h]

end Path

/-! ### Files and what they hold -/

namespace Disk
variable {d e f : Disk} {p q : Path} {c : Catalogue}

theorem fileAt?_congr (h : q.key = p.key) (d : Disk) : d.fileAt? q = d.fileAt? p := by
  rw [fileAt?, fileAt?, Path.device?_congr h, h]

theorem fileAt?_putAt_of_ne (h : q.key ≠ p.key) (d : Disk) (f : File) :
    (d.putAt q f).fileAt? p = d.fileAt? p := by
  unfold putAt
  split
  · rfl
  · rw [fileAt?, fileAt?, Dict.get?_insert_of_ne _ (Ne.symm h)]

theorem fileAt?_removeAt_of_ne (h : q.key ≠ p.key) (d : Disk) :
    (d.removeAt q).fileAt? p = d.fileAt? p := by
  rw [fileAt?, fileAt?, removeAt, Dict.get?_erase, if_neg (Ne.symm h)]

/-- The catalogue that a file holds; one without graphs if the file is none or something else. -/
def held (d : Disk) (p : Path) : Catalogue :=
  match d.fileAt? p with
  | some (.catalogue c) => c
  | _ => {}

theorem held_congr (h : e.fileAt? p = d.fileAt? p) : e.held p = d.held p := by
  rw [held, held, h]

theorem held_of_catalogue (h : d.fileAt? p = some (.catalogue c)) : d.held p = c := by
  rw [held, h]

theorem held_of_text {s : String} (h : d.fileAt? p = some (.text s)) : d.held p = {} := by
  rw [held, h]

theorem held_of_none (h : d.fileAt? p = none) : d.held p = {} := by
  rw [held, h]

/-! ### Journals in files -/

/-- A text is added to one file only, and to none that is a catalogue. -/
theorem append?_cases {path s : String} (h : d.append? path s = some e) :
    e = d ∨ e = d.putAt (Path.ofString path) (.text ((d.read? path).getD "" ++ s)) ∧
      ∀ c, d.fileAt? (Path.ofString path) ≠ some (.catalogue c) := by
  unfold append? at h
  split at h
  · exact .inl (Option.some.inj h).symm
  · next hnot =>
    simp only [write?] at h
    split at h
    · exact .inr ⟨(Option.some.inj h).symm, fun c hc => hnot c hc⟩
    · cases h

/-- A text that is added to a file changes no catalogue. -/
theorem held_append? {path s : String} (h : d.append? path s = some e) (p : Path) :
    e.held p = d.held p := by
  rcases append?_cases h with rfl | ⟨rfl, hnot⟩
  · rfl
  · by_cases hkey : (Path.ofString path).key = p.key
    -- The file is a text before and after.
    · have hold : d.held p = {} := by
        rw [held, ← fileAt?_congr hkey]
        split
        · next hc => exact absurd hc (hnot _)
        · rfl
      by_cases hv : (Path.ofString path).device?.isSome
      · rw [putAt_of_device d hv]
      · rw [hold, held, ← fileAt?_congr hkey, fileAt?_putAt d (by simpa using hv)]
    · exact held_congr (fileAt?_putAt_of_ne hkey d _)

theorem fileAt?_append?_of_ne {path s : String} (h : d.append? path s = some e)
    (hkey : (Path.ofString path).key ≠ p.key) : e.fileAt? p = d.fileAt? p := by
  rcases append?_cases h with rfl | ⟨rfl, -⟩
  · rfl
  · exact fileAt?_putAt_of_ne hkey d _

/-- Where there is a file already, no other one comes. -/
theorem isSome_fileAt?_append? {path s : String} (h : d.append? path s = some e)
    (hthere : (d.file? path).isSome = true) (p : Path) :
    (e.fileAt? p).isSome = (d.fileAt? p).isSome := by
  by_cases hkey : (Path.ofString path).key = p.key
  · have hold : (d.fileAt? p).isSome = true := by rwa [← fileAt?_congr hkey]
    rw [hold]
    rcases append?_cases h with rfl | ⟨rfl, -⟩
    · exact hold
    · by_cases hv : (Path.ofString path).device?.isSome
      · rw [putAt_of_device d hv]
        exact hold
      · rw [← fileAt?_congr hkey, fileAt?_putAt d (by simpa using hv)]
        rfl
  · rw [fileAt?_append?_of_ne h hkey]

/-! ### Beside a file -/

/-- Only companions of a file differ, and of them not the lock. -/
def Aside (p : Path) (d e : Disk) : Prop :=
  ∀ q : Path, (∀ k : Companion, k ≠ .lock → (p.companion k).key ≠ q.key) →
    e.fileAt? q = d.fileAt? q

namespace Aside

protected theorem refl (p : Path) (d : Disk) : Aside p d d := fun _ _ => rfl

protected theorem trans (h : Aside p d e) (h' : Aside p e f) : Aside p d f :=
  fun q hq => (h' q hq).trans (h q hq)

protected theorem removeAt {k : Companion} (hk : k ≠ .lock) (d : Disk) :
    Aside p d (d.removeAt (p.companion k)) :=
  fun _ hq => fileAt?_removeAt_of_ne (hq k hk) d

protected theorem putAt {k : Companion} (hk : k ≠ .lock) (d : Disk) (f : File) :
    Aside p d (d.putAt (p.companion k) f) :=
  fun _ hq => fileAt?_putAt_of_ne (hq k hk) d f

protected theorem removeLog (p : Path) (d : Disk) : Aside p d (d.removeLog p) :=
  (Aside.removeAt (by decide) d).trans (.removeAt (by decide) _)

theorem fileAt? (h : Aside p d e) (hp : p.names ≠ []) : e.fileAt? p = d.fileAt? p :=
  h p fun k _ => Path.key_companion_ne hp k

/-- What is done beside a file leaves what it holds. -/
theorem held (h : Aside p d e) (hp : p.names ≠ []) : e.held p = d.held p :=
  held_congr (h.fileAt? hp)

theorem lock (h : Aside p d e) (hp : p.names ≠ []) :
    e.fileAt? (p.companion .lock) = d.fileAt? (p.companion .lock) :=
  h _ fun _ hk he => hk (Path.companion_injective hp he)

end Aside
end Disk

/-! ### What sessions do beside their files -/

namespace Session
variable {s t : Session} {d e : Disk} {p : Path} {o : Obstacle}

theorem settleJournal_cases (h : s.settleJournal d p = .ok e) :
    e = d ∨ e = d.removeAt (p.companion .journal) := by
  cases hj : (d.textAt (p.companion .journal)).toList with
  | nil =>
    simp only [settleJournal, hj] at h
    exact .inl (Except.ok.inj h).symm
  | cons c cs =>
    simp only [settleJournal, hj] at h
    repeat' split at h
    all_goals cases h
    all_goals first | exact .inl rfl | exact .inr rfl

theorem settleJournal_aside (h : s.settleJournal d p = .ok e) : d.Aside p e := by
  rcases settleJournal_cases h with rfl | rfl
  · exact .refl p e
  · exact .removeAt (by decide) d

theorem settleLog_aside {logging : Bool} (h : s.settleLog d p = .ok (logging, e)) :
    d.Aside p e := by
  simp only [settleLog] at h
  split at h
  · cases h
    exact .refl p d
  · split at h
    · cases h
      exact .removeAt (by decide) d
    · split at h
      · cases h
      · cases h
        split
        · exact .putAt (by decide) d _
        · exact .refl p d

/-- A session takes hold of its file without touching it. All that the session learns is whether
changes are kept apart. -/
theorem settle_aside {r : Except Obstacle Session} (h : s.settle d p = (r, e)) :
    d.Aside p e ∧ ∀ t, r = .ok t → ∃ logging, t = { s with logging } := by
  unfold settle at h
  split at h
  · cases h
    exact ⟨.refl p d, fun t ht => ⟨s.logging, (Except.ok.inj ht).symm⟩⟩
  · split at h
    · cases h
      exact ⟨.refl p d, fun _ ht => by cases ht⟩
    · split at h
      · cases h
        exact ⟨.refl p d, fun _ ht => by cases ht⟩
      · next hj =>
        split at h
        · cases h
          exact ⟨settleJournal_aside hj, fun _ ht => by cases ht⟩
        · next hl =>
          cases h
          exact ⟨(settleJournal_aside hj).trans (settleLog_aside hl),
            fun t ht => ⟨_, (Except.ok.inj ht).symm⟩⟩

theorem stop_aside (hp : ∀ q, s.place = .file q → q = p) (d : Disk) : d.Aside p (s.stop d) := by
  unfold stop
  split
  · next q hq =>
    split
    · exact hp q hq ▸ .removeLog q d
    · exact .refl p d
  · exact .refl p d

/-! ### Writing -/

theorem fileAt?_write_of_ne {q : Path} (hq : p.key ≠ q.key)
    (hj : (p.companion .journal).key ≠ q.key) (s : Session) (d : Disk) (c : Catalogue) :
    (s.write d p c).fileAt? q = d.fileAt? q := by
  rw [write, Disk.fileAt?_putAt_of_ne hq]
  split
  · rfl
  · exact Disk.fileAt?_removeAt_of_ne hj d

/-- A catalogue that is written is held. -/
theorem held_write (hp : p.Sound) (s : Session) (d : Disk) (c : Catalogue) :
    (s.write d p c).held p = c :=
  Disk.held_of_catalogue (fileAt?_write s d hp.stored c)

end Session
end Store
end Patchbay
