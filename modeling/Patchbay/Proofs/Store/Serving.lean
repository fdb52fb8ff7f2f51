import Patchbay.Proofs.Store.Held
/-!
# Sessions at work

A session that may change its file works on what the file holds: it sees that, and what it keeps is
held from then on. Once it has hold of the file, nothing but a text in the place of the log of
changes can stand against that later. A session that may change nothing leaves its file as it is.

## Main definitions

* `Address.file`: the path that an address leads to.
* `Address.Fouled`: a journal goes into the log of changes, although changes cannot be kept apart.
* `Catalogue.Alike`: catalogues with the same graphs and versions.
* `Session.Clear`: nothing stands against a session that takes hold of its file.
* `Session.Open`, `Session.Shut`, `Session.Serves`: sessions that may change a catalogue, that may
  not, and both.

## Main statements

* `Session.Open.look`, `Session.Open.keep`, `Session.Shut.look`: what such a session sees and keeps.
* `Session.Open.append`: a journal that grows in a file beside such a session.
* `Session.start_spec`: how a session begins.
-/
namespace Patchbay.Store

/-- Two catalogues with the same graphs and versions, of which the numbers go on in one way. -/
structure Catalogue.Alike (c d : Catalogue) : Prop where
  graphs : c.graphs = d.graphs
  versions : c.versions = d.versions
  lastId : c.lastId = d.lastId

protected theorem Catalogue.Alike.refl (c : Catalogue) : c.Alike c := ⟨rfl, rfl, rfl⟩

/-- The current schema has nothing to do with graphs and versions. -/
theorem Catalogue.alike_of_migrate {c m : Catalogue} {path : String} {o : Option Obstacle}
    (h : c.migrate path o = .ok m) : m.Alike c := by
  unfold migrate at h
  split at h
  · cases h
  · split at h
    · cases h
      exact .refl c
    · split at h
      · cases h
      · cases h
        exact ⟨rfl, rfl, rfl⟩

/-! ### Addresses -/

namespace Address

/-- The path that an address leads to, whatever is on the way. -/
def file (a : Address) : Path :=
  let asked := Path.ofOctets a.name.toList
  asked.stations.head?.getD asked

/-- The file in which the catalogue of an address is kept, if it is kept in a file. -/
def file? (a : Address) : Option Path := if a.isPrivate then none else some a.file

/-- A journal goes into the log of changes, although changes cannot be kept apart. -/
def Fouled (a : Address) (log : Option String) : Prop :=
  a.canLog = false ∧ ∃ path ∈ log, (Path.ofString path).key = (a.file.companion .log).key

theorem file_of_locate? {a : Address} {d : Disk} {p : Path} (h : d.locate? a.name = some p) :
    p = a.file := by
  simp only [Disk.locate?] at h
  split at h
  · cases h
  · exact (Option.some.inj h).symm

end Address

namespace Session
variable {s t : Session} {d e : Disk} {p : Path} {c : Catalogue} {log : Option String} {a : Address}

/-! ### Taking hold of a file -/

/-- Nothing stands against taking hold of a file, now or later. -/
def Clear (s : Session) (d : Disk) (p : Path) : Prop :=
  s.address.isFixed = true ∨ s.logging = true ∨ s.lockObstacle? d p = none ∧
    (d.textAt (p.companion .log) = "" ∨ s.address.canLog = true)

theorem lockObstacle?_congr
    (h : (e.fileAt? (p.companion .lock)).isSome = (d.fileAt? (p.companion .lock)).isSome) :
    s.lockObstacle? e p = s.lockObstacle? d p := by
  simp only [lockObstacle?, h]

/-- What stands beside a file matters by its lock and by its log. -/
theorem Clear.congr (h : s.Clear d p)
    (hlock : (e.fileAt? (p.companion .lock)).isSome = (d.fileAt? (p.companion .lock)).isSome)
    (hlog : e.fileAt? (p.companion .log) = d.fileAt? (p.companion .log) ∨
      s.address.canLog = true) : s.Clear e p := by
  rcases h with h | h | ⟨hfree, htext⟩
  · exact .inl h
  · exact .inr (.inl h)
  · refine .inr (.inr ⟨(lockObstacle?_congr hlock).trans hfree, ?_⟩)
    rcases hlog with hlog | hlog
    · rwa [Disk.textAt, hlog]
    · exact .inr hlog

/-- A journal is worked off by a session that may write. -/
theorem exists_settleJournal (hw : s.readOnly = false) (d : Disk) (p : Path) :
    ∃ e, s.settleJournal d p = .ok e := by
  cases hj : (d.textAt (p.companion .journal)).toList with
  | nil =>
    simp only [settleJournal, hj]
    exact ⟨d, rfl⟩
  | cons c cs =>
    simp only [settleJournal, hj, hw]
    repeat' split
    all_goals first | exact ⟨_, rfl⟩ | contradiction

theorem textAt_removeAt (d : Disk) (p : Path) : (d.removeAt p).textAt p = "" := by
  cases hv : p.device? with
  | none => rw [Disk.textAt, Disk.fileAt?_removeAt d hv]; rfl
  | some v => rw [Disk.textAt, Disk.fileAt?_of_device _ (by rw [hv]; rfl)]; rfl

/-- Once a log of changes is settled there is none, unless changes go on being kept apart. -/
theorem log_of_settleLog {logging : Bool} (h : s.settleLog d p = .ok (logging, e)) :
    logging = true ∨ e.textAt (p.companion .log) = "" := by
  simp only [settleLog] at h
  split at h
  · next hempty =>
    cases h
    exact .inr hempty
  · split at h
    · cases h
      exact .inr (textAt_removeAt d _)
    · split at h
      · cases h
      · cases h
        exact .inl rfl

theorem exists_settleLog
    (h : d.textAt (p.companion .log) = "" ∨ s.address.canLog = true) :
    ∃ logging e, s.settleLog d p = .ok (logging, e) := by
  simp only [settleLog]
  rcases h with h | h
  · exact ⟨_, _, if_pos h⟩
  · simp only [h]
    repeat' split
    all_goals first | exact ⟨_, _, rfl⟩ | contradiction

/-- A session that has taken hold of a file can do so again. -/
theorem clear_of_settle (hp : p.names ≠ []) (h : s.settle d p = (.ok t, e)) : t.Clear e p := by
  have haside := (settle_aside h).1
  unfold settle at h
  split at h
  · next hx =>
    cases h
    rcases Bool.or_eq_true_iff.1 hx with hx | hx
    · exact .inl hx
    · exact .inr (.inl hx)
  · split at h
    · cases h
    · next hfree =>
      split at h
      · cases h
      · split at h
        · cases h
        · next hl =>
          cases h
          rcases log_of_settleLog hl with rfl | htext
          · exact .inr (.inl rfl)
          · refine .inr (.inr ⟨?_, .inl htext⟩)
            exact (lockObstacle?_congr (congrArg Option.isSome (haside.lock hp))).trans hfree

/-- Where nothing stands against it, a session that may write takes hold of its file. -/
theorem Clear.exists_settle (h : s.Clear d p) (hw : s.readOnly = false) (hp : p.names ≠ []) :
    ∃ t e, s.settle d p = (.ok t, e) := by
  unfold settle
  by_cases hx : (s.address.isFixed || s.logging) = true
  · exact ⟨s, d, if_pos hx⟩
  · rw [if_neg hx]
    rcases h with h | h | ⟨hfree, htext⟩
    · exact absurd (Bool.or_eq_true_iff.2 (.inl h)) hx
    · exact absurd (Bool.or_eq_true_iff.2 (.inr h)) hx
    -- The journal is worked off first, which leaves the log of changes alone.
    · obtain ⟨d₁, hj⟩ := exists_settleJournal hw d p
      have hsame : d₁.textAt (p.companion .log) = d.textAt (p.companion .log) := by
        rcases settleJournal_cases hj with rfl | rfl
        · rfl
        · have hne : (p.companion .journal).key ≠ (p.companion .log).key := fun he => by
            cases Path.companion_injective hp he
          rw [Disk.textAt, Disk.textAt, Disk.fileAt?_removeAt_of_ne hne]
      obtain ⟨logging, e, hl⟩ := exists_settleLog (s := s) (hsame ▸ htext)
      simp only [hfree, hj, hl]
      exact ⟨_, _, rfl⟩

theorem Clear.write (h : s.Clear d p) (hp : p.names ≠ []) (c : Catalogue) :
    s.Clear (s.write d p c) p := by
  have hother {k : Companion} (hk : k ≠ .journal) :
      (s.write d p c).fileAt? (p.companion k) = d.fileAt? (p.companion k) := by
    refine fileAt?_write_of_ne (Ne.symm (Path.key_companion_ne hp k)) (fun he => hk ?_) s d c
    exact (Path.companion_injective hp he).symm
  exact h.congr (congrArg Option.isSome (hother (by decide))) (.inl (hother (by decide)))

/-! ### What a session sees -/

theorem held_of_catalogueAt (h : d.catalogueAt p = .ok c) : c = d.held p := by
  unfold Disk.catalogueAt at h
  cases hf : d.fileAt? p with
  | none =>
    rw [hf] at h
    rw [Disk.held_of_none hf]
    exact (Except.ok.inj h).symm
  | some f =>
    rw [hf] at h
    cases f with
    | catalogue c' =>
      rw [Disk.held_of_catalogue hf]
      exact (Except.ok.inj h).symm
    | text s =>
      rw [Disk.held_of_text hf]
      simp only [Option.getD_some, File.catalogue?] at h
      split at h
      · exact (Except.ok.inj h).symm
      · cases h

/-- A file with tables is a catalogue. -/
theorem fileAt?_of_tables (h : (d.held p).tables = .present) :
    d.fileAt? p = some (.catalogue (d.held p)) := by
  unfold Disk.held at h ⊢
  split at h
  · next hf => exact hf
  · cases h

/-- A session reads what its file holds, and has hold of the file then. -/
theorem read_spec {r : Except Obstacle Catalogue} (hp : p.names ≠ [])
    (h : s.read d p = (r, t, e)) :
    d.Aside p e ∧ (∃ logging, t = { s with logging }) ∧
      (∀ c, r = .ok c → c = d.held p ∧ t.Clear e p) ∧
      (s.Clear d p → s.readOnly = false →
        t.Clear e p ∧ ((d.held p).tables = .present → ∃ c, r = .ok c)) := by
  unfold read at h
  cases hs : s.settle d p with
  | mk r' e' =>
    rw [hs] at h
    obtain ⟨haside, ht⟩ := settle_aside hs
    cases r' with
    | error o =>
      cases h
      refine ⟨haside, ⟨s.logging, rfl⟩, fun c hc => ?_, fun hclear hw => ?_⟩
      · cases hc
      obtain ⟨u, e', hok⟩ := hclear.exists_settle hw hp
      cases hs.symm.trans hok
    | ok u =>
      cases h
      have hclear := clear_of_settle hp hs
      refine ⟨haside, ht _ rfl, fun c hc => ⟨?_, hclear⟩, fun _ _ => ⟨hclear, fun htables => ?_⟩⟩
      · exact (held_of_catalogueAt hc).trans (haside.held hp)
      · rw [Disk.catalogueAt, haside.fileAt? hp, fileAt?_of_tables htables]
        exact ⟨_, rfl⟩

theorem without_ne_present (k : Knowledge) (o : Obstacle) : k.without o ≠ .present := by
  unfold Knowledge.without
  split <;> nofun

/-- A session heeds the tables of a catalogue if there are any, and only then. -/
theorem heed_eq_present_iff (k : Knowledge) (tables : Tables) :
    (k.heed tables).1 = .present ↔ tables = .present := by
  unfold Knowledge.heed
  split
  · next h => exact iff_of_true rfl h
  · next h =>
    refine iff_of_false ?_ h
    split <;> nofun

/-- What a session sees of a file that is not said to be fixed. -/
theorem look_of_file (hp : p.names ≠ []) (hplace : s.place = .file p)
    (hx : s.address.isFixed = false) (h : s.look d false = (c, t, e)) :
    d.Aside p e ∧ t.place = .file p ∧ t.address = s.address ∧ c.readOnly = s.readOnly ∧
      (c.tables = .present → c = { d.held p with readOnly := s.readOnly }) ∧
      (s.Clear d p → s.readOnly = false →
        t.Clear e p ∧ ((d.held p).tables = .present → c.tables = .present)) := by
  cases hr : s.read d p with
  | mk r ue =>
    obtain ⟨u, e'⟩ := ue
    obtain ⟨haside, ⟨logging, rfl⟩, hok, hwrite⟩ := read_spec hp hr
    simp only [look, hplace, Bool.false_and, hx, hr, Bool.false_eq_true, if_false] at h
    cases r with
    | error o =>
      cases h
      refine ⟨haside, rfl, rfl, rfl, fun ht => absurd ht (without_ne_present _ o), ?_⟩
      intro hclear hw
      obtain ⟨hclear, hthere⟩ := hwrite hclear hw
      refine ⟨hclear, fun htables => ?_⟩
      obtain ⟨c, hc⟩ := hthere htables
      cases hc
    | ok c' =>
      obtain ⟨rfl, -⟩ := hok c' rfl
      cases h
      refine ⟨haside, rfl, rfl, rfl, fun ht => ?_, fun hclear hw => ⟨(hwrite hclear hw).1, ?_⟩⟩
      · rw [heed_eq_present_iff] at ht
        simp only [Knowledge.heed, ht, if_true]
        rfl
      · exact (heed_eq_present_iff _ _).2

/-! ### Sessions that may change their catalogue -/

/-- A session that may change the catalogue of an address, and the catalogue that it works on. -/
inductive Open (log : Option String) (a : Address) (s : Session) (d : Disk) : Catalogue → Prop
  /-- The file of the address holds the catalogue. -/
  | file (stored : a.isPrivate = false) (address : s.address = a) (place : s.place = .file a.file)
      (sound : a.file.Sound) (writable : a.isReadOnly = false)
      (hold : a.Fouled log ∨ s.Clear d a.file) : Open log a s d (d.held a.file)
  /-- The catalogue is kept nowhere. -/
  | nowhere {c : Catalogue} (stored : a.isPrivate = true) (place : s.place = .nowhere c)
      (writable : c.readOnly = false) : Open log a s d c

/-- The catalogue is seen as it is. It stays in sight unless the log of changes is fouled. -/
theorem Open.look {c₁ : Catalogue} (h : s.Open log a d c) (hl : s.look d false = (c₁, t, e)) :
    t.Open log a e c ∧ c₁.readOnly = false ∧
      (c₁.tables = .present → c₁ = { c with readOnly := false }) ∧
      (c.tables = .present → a.Fouled log ∨ c₁.tables = .present) := by
  cases h with
  | file stored address place sound writable hold =>
    have hx : s.address.isFixed = false := by
      rw [address]
      simp only [Address.isReadOnly, Bool.or_eq_false_iff, Bool.and_eq_false_iff] at writable
      refine writable.2.resolve_left fun hname => ?_
      simp [Address.isPrivate] at stored hname
      simp [stored] at hname
    obtain ⟨haside, hplace, haddress, hreadOnly, hpresent, hclear⟩ :=
      look_of_file sound.named place hx hl
    have hw : s.readOnly = false := (congrArg Address.isReadOnly address).trans writable
    have hheld := haside.held sound.named
    refine ⟨?_, hreadOnly.trans hw, fun ht => hw ▸ hpresent ht, fun ht => ?_⟩
    · rw [← hheld]
      exact .file stored (haddress.trans address) hplace sound writable
        (hold.imp_right fun h => (hclear h hw).1)
    · exact hold.imp_right fun h => (hclear h hw).2 ht
  | nowhere stored place writable =>
    rw [Session.look, place] at hl
    cases hl
    refine ⟨.nowhere stored place writable, writable, fun _ => ?_, .inr⟩
    rw [← writable]

/-- What a session keeps is what it works on from then on. -/
theorem Open.keep {c₁ : Catalogue} (h : s.Open log a d c) (hw : c₁.readOnly = false)
    (hk : s.keep d c₁ = (t, e)) : t.Open log a e c₁ := by
  cases h with
  | file stored address place sound writable hold =>
    simp only [Session.keep, place] at hk
    cases hk
    split
    · next hf =>
      rw [← Disk.held_of_catalogue hf]
      exact .file stored address place sound writable hold
    · have hopen : s.Open log a (s.write d a.file c₁) ((s.write d a.file c₁).held a.file) :=
        .file stored address place sound writable (hold.imp_right (·.write sound.named c₁))
      rwa [held_write sound] at hopen
  | nowhere stored place writable =>
    simp only [Session.keep, place] at hk
    cases hk
    exact .nowhere stored rfl hw

/-! ### Sessions that change nothing -/

/-- A session that may not change the file of an address. -/
inductive Shut (a : Address) (s : Session) : Prop
  | file (stored : a.isPrivate = false) (address : s.address = a) (place : s.place = .file a.file)
      (sound : a.file.Sound) (readOnly : a.isReadOnly = true)
  /-- What the file held is remembered. -/
  | fixed {c : Catalogue} (stored : a.isPrivate = false) (sound : a.file.Sound)
      (place : s.place = .nowhere c) (readOnly : c.readOnly = true)

theorem Shut.sound (h : s.Shut a) : a.file.Sound := by
  cases h <;> assumption

/-- A file that is said to be fixed is seen once, and is not to be changed. -/
theorem lookOnce_cases (h : s.lookOnce d p = (c, t)) :
    c.readOnly = true ∧ (t = s ∨ t = { s with place := .nowhere c }) := by
  unfold lookOnce at h
  repeat' split at h
  all_goals cases h
  all_goals first | exact ⟨rfl, .inl rfl⟩ | exact ⟨rfl, .inr rfl⟩

/-- What such a session sees may not be changed, and the file stays as it is. -/
theorem Shut.look (h : s.Shut a) (hl : s.look d false = (c, t, e)) :
    t.Shut a ∧ c.readOnly = true ∧ e.held a.file = d.held a.file := by
  cases h with
  | file stored address place sound readOnly =>
    have hr : s.readOnly = true := (congrArg Address.isReadOnly address).trans readOnly
    by_cases hx : s.address.isFixed = true
    · cases hr' : s.lookOnce d a.file with
      | mk c' t' =>
        simp only [Session.look, place, Bool.false_and, hx, hr', Bool.false_eq_true, if_false,
          if_true] at hl
        cases hl
        obtain ⟨hreadOnly, rfl | rfl⟩ := lookOnce_cases hr'
        · exact ⟨.file stored address place sound readOnly, hreadOnly, rfl⟩
        · exact ⟨.fixed stored sound rfl hreadOnly, hreadOnly, rfl⟩
    · obtain ⟨haside, hplace, haddress, hreadOnly, -⟩ :=
        look_of_file sound.named place (Bool.eq_false_iff.2 hx) hl
      exact ⟨.file stored (haddress.trans address) hplace sound readOnly, hreadOnly.trans hr,
        haside.held sound.named⟩
  | fixed stored sound place readOnly =>
    rw [Session.look, place] at hl
    cases hl
    exact ⟨.fixed stored sound place readOnly, readOnly, rfl⟩

/-! ### Sessions at work -/

/-- A session works on the catalogue of an address, which it may change or not. -/
inductive Serves (log : Option String) (a : Address) (s : Session) (d : Disk) : Catalogue → Prop
  | ofOpen {c : Catalogue} (h : s.Open log a d c) : Serves log a s d c
  | ofShut (h : s.Shut a) : Serves log a s d (d.held a.file)

/-- The file of a session that ends holds what the session worked on. -/
theorem Serves.held_stop (h : s.Serves log a d c) (hs : a.isPrivate = false) :
    (s.stop d).held a.file = c := by
  have hstop (hsound : a.file.Sound) (hplace : ∀ q, s.place = .file q → q = a.file) :
      (s.stop d).held a.file = d.held a.file :=
    (stop_aside hplace d).held hsound.named
  cases h with
  | ofOpen h =>
    cases h with
    | file stored address place sound writable hold =>
      refine hstop sound fun q hq => ?_
      rw [place] at hq
      exact (Place.file.inj hq).symm
    | nowhere stored => simp [stored] at hs
  | ofShut h =>
    refine hstop h.sound fun q hq => ?_
    cases h with
    | file stored address place =>
      rw [place] at hq
      exact (Place.file.inj hq).symm
    | fixed stored sound place =>
      rw [place] at hq
      cases hq

/-! ### Journals in files -/

/-- A journal in a file stands against nothing, unless the file is the log of changes. -/
theorem Open.append {path text : String} (h : s.Open (some path) a d c)
    (happend : d.append? path text = some e) (hthere : (d.file? path).isSome = true) :
    s.Open (some path) a e c := by
  cases h with
  | file stored address place sound writable hold =>
    rw [← Disk.held_append? happend a.file]
    refine .file stored address place sound writable ?_
    rcases hold with hold | hclear
    · exact .inl hold
    · by_cases hkey : (Path.ofString path).key = (a.file.companion .log).key
      · cases hlog : a.canLog with
        | true =>
          refine .inr (hclear.congr (Disk.isSome_fileAt?_append? happend hthere _) (.inr ?_))
          rw [address, hlog]
        | false => exact .inl ⟨hlog, path, rfl, hkey⟩
      · exact .inr (hclear.congr (Disk.isSome_fileAt?_append? happend hthere _)
          (.inl (Disk.fileAt?_append?_of_ne happend hkey)))
  | nowhere stored place writable => exact .nowhere stored place writable

theorem Serves.append {path text : String} (h : s.Serves (some path) a d c)
    (happend : d.append? path text = some e) (hthere : (d.file? path).isSome = true) :
    s.Serves (some path) a e c := by
  cases h with
  | ofOpen h => exact .ofOpen (h.append happend hthere)
  | ofShut h => exact Disk.held_append? happend a.file ▸ .ofShut h

/-! ### Beginnings -/

/-- A file is found where its address leads, and one that is made holds nothing. -/
theorem reach_spec (h : reach d a = .ok (p, e)) :
    p = a.file ∧ p.names ≠ [] ∧ e.held p = d.held p := by
  unfold reach at h
  cases hp : d.locate? a.name with
  | none =>
    rw [hp] at h
    cases h
  | some q =>
    rw [hp] at h
    obtain rfl := Address.file_of_locate? hp
    simp only at h
    split at h
    · cases h
    · split at h
      · cases h
      · split at h
        · cases h
        · next hcan =>
          have hnames : a.file.names ≠ [] := fun hn => by
            simp [Disk.canHoldAt, Disk.isDirectory, Path.isUpward, hn] at hcan
          split at h
          · cases h
            exact ⟨rfl, hnames, rfl⟩
          · next hno =>
            split at h
            · cases h
              have hnone : d.fileAt? a.file = none := by simpa using hno
              have hdevice : a.file.device? = none := by
                cases hv : a.file.device? with
                | none => rfl
                | some v => cases (Disk.fileAt?_of_device d (by rw [hv]; rfl)).symm.trans hnone
              refine ⟨rfl, hnames, ?_⟩
              rw [Disk.held_of_none hnone, Disk.held_of_text (Disk.fileAt?_putAt d hdevice _)]
            · cases h

/-- A device has no tables, and none can be made. -/
theorem device?_of_migrate {m : Catalogue} (hplace : s.place = .file p)
    (h : (d.held p).migrate s.path s.obstacle? = .ok m) : p.device? = none := by
  cases hv : p.device? with
  | none => rfl
  | some v =>
    have hheld : d.held p = {} := Disk.held_of_text (Disk.fileAt?_of_device d (by rw [hv]; rfl))
    have hobstacle : ∃ o, s.obstacle? = some o := by
      simp only [obstacle?, hplace, hv]
      split
      · exact ⟨_, rfl⟩
      · cases v <;> exact ⟨_, rfl⟩
    obtain ⟨o, ho⟩ := hobstacle
    rw [hheld, ho] at h
    cases h

/-- A session that has hold of its file works on what the file holds. -/
theorem Clear.serves (h : s.Clear d a.file) (log : Option String) (hstored : a.isPrivate = false)
    (haddress : s.address = a) (hplace : s.place = .file a.file) (hsound : a.file.Sound) :
    s.Serves log a d (d.held a.file) := by
  cases hw : a.isReadOnly with
  | true => exact .ofShut (.file hstored haddress hplace hsound hw)
  | false => exact .ofOpen (.file hstored haddress hplace hsound hw (.inr h))

/-- Where a session begins, and what it works on then. -/
theorem prepare_spec (log : Option String) {r : Except Error Session}
    (hstored : a.isPrivate = false) (haddress : s.address = a) (hplace : s.place = .file a.file)
    (hnames : a.file.names ≠ []) (h : s.prepare d = (r, e)) :
    (∀ x, r = .error x → e.held a.file = d.held a.file) ∧
      ∀ t, r = .ok t → ∃ c, t.Serves log a e c ∧ c.Alike (d.held a.file) := by
  simp only [prepare, hplace] at h
  cases hr : s.read d a.file with
  | mk rc ue =>
    obtain ⟨u, e'⟩ := ue
    obtain ⟨haside, ⟨logging, rfl⟩, hok, -⟩ := read_spec hnames hr
    have hheld := haside.held hnames
    have hstop : (({ s with logging } : Session).stop e').held a.file = d.held a.file := by
      refine ((stop_aside (fun q hq => ?_) e').held hnames).trans hheld
      exact (Place.file.inj (hplace.symm.trans hq)).symm
    simp only [hr] at h
    cases rc with
    | error o =>
      cases h
      exact ⟨fun _ _ => hstop, fun t ht => by cases ht⟩
    | ok c =>
      obtain ⟨rfl, hclear⟩ := hok c rfl
      have hread : (Except.ok (d.held a.file)).mapError Error.blocked = .ok (d.held a.file) := rfl
      simp only [hread] at h
      cases hm : (d.held a.file).migrate s.path (Session.obstacle? { s with logging }) with
      | error x =>
        simp only [hm] at h
        cases h
        exact ⟨fun _ _ => hstop, fun t ht => by cases ht⟩
      | ok m =>
        have hsound : a.file.Sound :=
          ⟨hnames, device?_of_migrate (s := { s with logging }) hplace hm⟩
        simp only [hm] at h
        split at h
        -- The catalogue is brought to the current schema and written.
        · cases h
          refine ⟨fun _ hx => (by cases hx), fun t ht => ⟨m, ?_, Catalogue.alike_of_migrate hm⟩⟩
          cases ht
          let u : Session := { s with logging, knowledge := .tables }
          have hserves := (Clear.write (s := u) hclear hnames m).serves log hstored haddress hplace
            hsound
          rwa [held_write hsound] at hserves
        · have hall : ∃ k, r = .ok { s with logging, knowledge := k } ∧ e = e' := by
            split at h
            · cases h
              exact ⟨_, rfl, rfl⟩
            · cases h
              exact ⟨_, rfl, rfl⟩
          obtain ⟨k, rfl, rfl⟩ := hall
          refine ⟨fun _ hx => (by cases hx), fun t ht => ⟨_, ?_, .refl _⟩⟩
          cases ht
          have hk : ({ s with logging, knowledge := k } : Session).Clear e a.file := hclear
          exact hheld ▸ hk.serves log hstored haddress hplace hsound

/-- Whether a session begins or not, its file holds what it held. One that begins works on that. -/
theorem start_spec (log : Option String) {path : String} {r : Except Error Session}
    (h : start d path = (r, e)) :
    (∀ x, r = .error x → ∀ a, Address.ofText (Text.untilNul path) = .ok a →
      a.isPrivate = false → e.held a.file = d.held a.file) ∧
    ∀ t, r = .ok t → ∃ a c, Address.ofText (Text.untilNul path) = .ok a ∧ t.Serves log a e c ∧
      c.Alike (if a.isPrivate then {} else d.held a.file) := by
  unfold start connect at h
  cases ha : Address.ofText (Text.untilNul path) with
  | error x =>
    simp only [ha] at h
    cases h
    exact ⟨fun _ _ a ha => (by cases ha), fun t ht => (by cases ht)⟩
  | ok a =>
    simp only [ha] at h
    cases hprivate : a.isPrivate with
    | true =>
      simp only [hprivate, if_true] at h
      simp only [prepare] at h
      generalize Session.obstacle? { path, address := a, place := .nowhere {} } = o at h
      cases h
      refine ⟨fun x _ b hb hstored => ?_, fun t ht => ?_⟩
      · cases hb
        cases hprivate.symm.trans hstored
      · cases o with
        | some o => cases ht
        | none =>
          cases ht
          refine ⟨a, _, rfl, .ofOpen (.nowhere hprivate rfl rfl), ?_⟩
          rw [hprivate]
          exact ⟨rfl, rfl, rfl⟩
    | false =>
      simp only [hprivate, Bool.false_eq_true, if_false] at h
      cases hreach : reach d a with
      | error o =>
        simp only [hreach] at h
        cases h
        exact ⟨fun _ _ _ _ _ => rfl, fun t ht => (by cases ht)⟩
      | ok pd =>
        obtain ⟨p, d'⟩ := pd
        simp only [hreach] at h
        obtain ⟨rfl, hnames, hheld⟩ := reach_spec hreach
        obtain ⟨herror, hok⟩ := prepare_spec log hprivate rfl rfl hnames h
        refine ⟨fun x hx b hb _ => ?_, fun t ht => ?_⟩
        · cases hb
          exact (herror x hx).trans hheld
        · obtain ⟨c, hserves, halike⟩ := hok t ht
          rw [hheld] at halike
          exact ⟨a, c, rfl, hserves, by rwa [hprivate]⟩

end Session
end Patchbay.Store
