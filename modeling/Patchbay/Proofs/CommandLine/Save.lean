import Patchbay.Proofs.CommandLine.Ends
import Patchbay.Proofs.Store.Gained
/-!
# Saving a graph from the command line

A graph is saved in steps: a graph is created under the slug if there is none, a version is saved,
and versions are pruned if their number is limited. The limit is read when the version has been
saved already. So a limit that is no number makes the command fail with the version in the
catalogue; every other failure leaves all graphs and versions as they were.

## Main definitions

* `Options.file?`: the file of the catalogue that the options name.
* `Settings.versionLimit?`: how many versions of a graph may be kept.
* `Adds`: what a command has added to a catalogue.

## Main statements

* `ends_saveGraph`: what saving a graph ends in.
* `execute_save`: what a command line that saves a graph comes to.
-/
namespace Patchbay

/-- How many versions of a graph may be kept; zero for any number. There is none if the setting is
not the number of anything. -/
def Settings.versionLimit? (s : Settings) : Option Nat :=
  match s.getInt "max_versions_per_graph" 0 with
  | .ok n => if n < 0 then none else some n.toInt.toNat
  | .error _ => none

namespace CommandLine
open Store

/-- The file of the catalogue that the options name, if they name one that is kept in a file. -/
def Options.file? (o : Options) : Option Path :=
  match Address.ofText (Text.untilNul o.dbPath) with
  | .ok a => a.file?
  | .error _ => none

/-- What is printed when a version was saved. -/
def savedText (slug : String) (id : Nat) : String :=
  "Saved '" ++ slug ++ "' as version " ++ Numeral.natText id ++ "\n"

/-- A command has told of a version, and added it to the catalogue that the options name. A
catalogue that is kept nowhere gets its first version. -/
structure Adds (o : Options) (now : Timestamp) (before : Disk) (printed : List Printed)
    (after : Disk) (limit : Nat) (v : Version) : Prop where
  printed : printed = [.text (savedText o.slug v.id)]
  slug : v.slug = Text.untilNul o.slug
  created : v.created = now.utc
  gains : ∀ p, o.file? = some p → (before.held p).Gains (after.held p) limit v
  alone : o.file? = none → v.id = 1

/-- The disk when a command is over. -/
def Shell.final (s : Shell) : Disk := s.session.elim s.disk (·.stop s.disk)

/-- All graphs and versions are as they were. -/
def Spared (o : Options) (before after : Disk) : Prop :=
  ∀ p, o.file? = some p → (after.held p).Alike (before.held p)

/-- The journal goes into the log of changes of the catalogue, which has none. -/
def Options.Fouled (o : Options) (log : Option String) : Prop :=
  ∃ a, Address.ofText (Text.untilNul o.dbPath) = .ok a ∧ a.Fouled log

variable {o : Options} {disk : Disk} {now : Timestamp} {log : Option String}
  {printed : List Printed} {a : Address} {c d : Catalogue} {s : Shell} {v : Version} {limit : Nat}
  {E : Shell → Prop}

/-! ### Requests -/

theorem careful_create (now : Timestamp) (m : Metadata) : Careful (.create now m) where
  safe := Work.safe_create now m
  needs c _ j d h := by
    obtain ⟨ht, hw, -, r, -, -, rfl⟩ := Catalogue.exists_of_create h
    exact ⟨ht, hw, hw⟩

theorem careful_save (now : Timestamp) (slug : String) (g : Graph) (name : Option String) :
    Careful (.save now slug g name) where
  safe := Work.safe_save now slug g name
  needs c id j d h := by
    obtain ⟨ht, hw, -, -, rfl⟩ := Catalogue.exists_of_save h
    exact ⟨ht, hw, hw⟩

theorem careful_prune (slug : String) (n : Nat) : Careful (.prune slug n) where
  safe := Work.safe_prune slug n
  needs c count j d h := by
    obtain ⟨ht, hw, rfl⟩ := Catalogue.eq_of_prune h
    exact ⟨ht, hw, hw⟩

/-! ### What a command comes to -/

theorem file?_eq (ha : Address.ofText (Text.untilNul o.dbPath) = .ok a) : o.file? = a.file? := by
  rw [Options.file?, ha]

/-- The file of a command that works on a catalogue holds that in the end. -/
theorem Shell.Working.held_final (disk : Disk) {p : Path}
    (hs : s.Working (fun t d => t.Serves log a d c) now log printed)
    (ha : Address.ofText (Text.untilNul o.dbPath) = .ok a) (hp : o.file? = some p) :
    s.final.held p = c ∧ stock disk a = disk.held p := by
  obtain ⟨t, ht, hserves⟩ := hs.session
  rw [file?_eq ha, Address.file?] at hp
  cases hprivate : a.isPrivate with
  | true =>
    rw [hprivate] at hp
    cases hp
  | false =>
    rw [hprivate] at hp
    cases hp
    refine ⟨?_, ?_⟩
    · rw [final, ht]
      exact hserves.held_stop hprivate
    · rw [stock, hprivate]
      rfl

/-- A command that works on a catalogue like the old one has spared it. -/
theorem Shell.Working.spared
    (hs : s.Working (fun t d => t.Serves log a d c) now log printed)
    (ha : Address.ofText (Text.untilNul o.dbPath) = .ok a) (hc : c.Alike (stock disk a)) :
    Spared o disk s.final := by
  intro p hp
  obtain ⟨hfinal, hstock⟩ := hs.held_final disk ha hp
  exact hfinal.symm ▸ hstock ▸ hc

theorem Shell.Working.adds {id : Nat}
    (hs : s.Working (fun t d => t.Serves log a d c) now log [.text (savedText o.slug id)])
    (ha : Address.ofText (Text.untilNul o.dbPath) = .ok a) (hid : v.id = id)
    (hslug : v.slug = Text.untilNul o.slug) (hcreated : v.created = now.utc)
    (hgains : (stock disk a).Gains c limit v) : Adds o now disk s.printed s.final limit v where
  printed := hid ▸ hs.printed
  slug := hslug
  created := hcreated
  gains p hp := by
    obtain ⟨hfinal, hstock⟩ := hs.held_final disk ha hp
    exact hfinal.symm ▸ hstock ▸ hgains
  alone hnone := by
    rw [file?_eq ha, Address.file?] at hnone
    have hprivate : a.isPrivate = true := by
      by_contra h
      rw [if_neg h] at hnone
      cases hnone
    rw [hgains.number, stock, if_pos hprivate]

/-! ### Saving a graph -/

/-- A command that saved a graph has added a version, of as many as may be kept. -/
def Saved (o : Options) (settings : Settings) (now : Timestamp) (disk : Disk) (code : Nat)
    (s : Shell) : Prop :=
  code = 0 ∧ ∃ limit v, settings.versionLimit? = some limit ∧
    Adds o now disk s.printed s.final limit v

/-- A command that failed has spared all graphs and versions, unless the log of changes was fouled
or the limit was bad, which is found out when the version has been added. -/
def Failed (o : Options) (settings : Settings) (log : Option String) (now : Timestamp) (disk : Disk)
    (s : Shell) : Prop :=
  Spared o disk s.final ∨ o.Fouled log ∨
    settings.versionLimit? = none ∧ ∃ v, Adds o now disk s.printed s.final 0 v

theorem Shell.Working.serves (hs : s.Working (fun t d => t.Open log a d c) now log printed) :
    s.Working (fun t d => t.Serves log a d c) now log printed := by
  obtain ⟨t, ht, hopen⟩ := hs.session
  exact { hs.toAt with session := ⟨t, ht, .ofOpen hopen⟩ }

theorem unlocked (h : c.readOnly = false) : { c with readOnly := false } = c := by
  rw [← h]

theorem toNat_ne_zero {n : Int64} (h : 0 < n) : n.toInt.toNat ≠ 0 := by
  have hpos : (0 : Int) < n.toInt := Int64.lt_iff_toInt_lt.1 h
  omega

theorem toNat_eq_zero {n : Int64} (hpos : ¬ 0 < n) : n.toInt.toNat = 0 := by
  have hle : n.toInt ≤ 0 := Int.not_lt.1 fun h => hpos (Int64.lt_iff_toInt_lt.2 h)
  omega

theorem Shell.Working.serves_shut {d : Disk}
    (hs : s.Working (fun t e => t.Shut a ∧ e.held a.file = d.held a.file) now log printed) :
    s.Working (fun t e => t.Serves log a e (d.held a.file)) now log printed := by
  obtain ⟨t, ht, hshut, hheld⟩ := hs.session
  exact { hs.toAt with session := ⟨t, ht, hheld ▸ .ofShut hshut⟩ }

/-- The limit is read when the version has been saved. -/
theorem ends_limit {settings : Settings} {id : Nat}
    (ha : Address.ofText (Text.untilNul o.dbPath) = .ok a) (hid : v.id = id)
    (hslug : v.slug = Text.untilNul o.slug) (hcreated : v.created = now.utc)
    (hgains : (stock disk a).Gains c 0 v) (hc : c.Numbered) (ht : c.tables = .present)
    (hw : c.readOnly = false) :
    Ends (Shell.Working (fun t d => t.Open log a d c) now log [.text (savedText o.slug id)])
      (do
        let limit ← need .settings (settings.getInt "max_versions_per_graph" 0)
        if limit < 0 then throw .negativeVersions
        if 0 < limit then
          let _ ← change (.prune o.slug limit.toInt.toNat)
        return 0)
      (Saved o settings now disk) (Failed o settings log now disk) := by
  -- The limit can be no number or below zero, and the version stays either way.
  have hbad (hnone : settings.versionLimit? = none) (s : Shell)
      (hs : s.Working (fun t d => t.Open log a d c) now log [.text (savedText o.slug id)]) :
      Failed o settings log now disk s :=
    .inr (.inr ⟨hnone, v, hs.serves.adds ha hid hslug hcreated hgains⟩)
  refine Ends.bind (Q := fun n s => settings.getInt "max_versions_per_graph" 0 = .ok n ∧
    s.Working (fun t d => t.Open log a d c) now log [.text (savedText o.slug id)])
    (.need (fun n hn s hs => ⟨hn, hs⟩) fun e he s hs => ?_) fun n => ?_
  · exact hbad (by rw [Settings.versionLimit?, he]) s hs
  refine .assume fun hn => ?_
  by_cases hneg : n < 0
  · rw [if_pos hneg]
    refine .throw_bind (hbad ?_)
    rw [Settings.versionLimit?, hn]
    exact if_pos hneg
  have hlimit : settings.versionLimit? = some n.toInt.toNat := by
    rw [Settings.versionLimit?, hn]
    exact if_neg hneg
  rw [if_neg hneg]
  split
  · next hpos =>
    refine (ends_change (careful_prune o.slug n.toInt.toNat)).bind_mono (fun s hs => ?_)
      fun count => .pure fun s hs => ?_
    · rcases hs.2 ht with hfouled | ⟨e, d, he⟩
      · exact .inr (.inl ⟨a, ha, hfouled⟩)
      · obtain ⟨r, d', hr⟩ := Catalogue.exists_prune ht hw o.slug n.toInt.toNat
        rw [unlocked hw, hr] at he
        cases he
    · obtain ⟨c', j, hprune, hs⟩ := hs
      rw [unlocked hw] at hprune
      refine ⟨rfl, _, v, hlimit, hs.serves.adds ha hid hslug hcreated ?_⟩
      exact hgains.prune hc hslug (toNat_ne_zero hpos) hprune
  · next hpos =>
    refine .pure fun s hs => ⟨rfl, _, v, hlimit, hs.serves.adds ha hid hslug hcreated ?_⟩
    rwa [toNat_eq_zero hpos]

/-- A version is saved once there is a graph under the slug. -/
theorem ends_version {settings : Settings} {g : Graph}
    (ha : Address.ofText (Text.untilNul o.dbPath) = .ok a) (hc : c.Numbered)
    (ht : c.tables = .present)
    (hbase : ∀ d v, v.slug = Text.untilNul o.slug → c.Gains d 0 v → (stock disk a).Gains d 0 v)
    (hfail : (∃ r d, (Work.save now o.slug g o.versionName).run .never
      { c with readOnly := false } = (.ok r, d)) ∨ c.Alike (stock disk a)) :
    Ends (Shell.Working (fun t d => t.Open log a d c) now log [])
      (do
        let id ← change (.save now o.slug g o.versionName)
        print ("Saved '" ++ o.slug ++ "' as version " ++ Numeral.natText id ++ "\n")
        let limit ← need .settings (settings.getInt "max_versions_per_graph" 0)
        if limit < 0 then throw .negativeVersions
        if 0 < limit then
          let _ ← change (.prune o.slug limit.toInt.toNat)
        return 0)
      (Saved o settings now disk) (Failed o settings log now disk) := by
  refine (ends_change (careful_save now o.slug g o.versionName)).bind_mono (fun s hs => ?_)
    fun id => ?_
  · rcases hs.2 ht with hfouled | ⟨e, d, he⟩
    · exact .inr (.inl ⟨a, ha, hfouled⟩)
    · rcases hfail with ⟨r, d', hr⟩ | halike
      · rw [hr] at he
        cases he
      · exact .inl (hs.1.serves.spared ha halike)
  · refine Ends.ofExists fun d => Ends.ofExists fun j => .assume fun hsave => ?_
    have hnumbered : ({ c with readOnly := false } : Catalogue).Numbered := ⟨hc.ids, hc.last⟩
    obtain ⟨v, hid, hslug, hcreated, hgains, hd⟩ := Catalogue.gains_of_save hnumbered hsave
    obtain ⟨htables, hreadOnly, -, -, rfl⟩ := Catalogue.exists_of_save hsave
    refine (ends_print _).bind fun _ => ?_
    exact ends_limit ha hid hslug hcreated (hbase _ v hslug (hgains.congr rfl rfl rfl)) hd ht rfl

/-- Before a catalogue is open none has changed. -/
theorem spared_of_none (hs : s.session = none)
    (h : ∀ a, Address.ofText (Text.untilNul o.dbPath) = .ok a → a.isPrivate = false →
      s.disk.held a.file = disk.held a.file) : Spared o disk s.final := by
  intro p hp
  rw [Shell.final, hs, Option.elim_none]
  unfold Options.file? at hp
  split at hp
  · next a ha =>
    cases hprivate : a.isPrivate with
    | true =>
      rw [Address.file?, hprivate] at hp
      cases hp
    | false =>
      rw [Address.file?, hprivate] at hp
      cases hp
      exact h a ha hprivate ▸ .refl _
  · cases hp

theorem numbered_stock (ha : Address.ofText (Text.untilNul o.dbPath) = .ok a)
    (hnumbered : ∀ p, o.file? = some p → (disk.held p).Numbered) : (stock disk a).Numbered := by
  rw [stock]
  split
  · exact ⟨List.nodup_nil, fun _ hv => (List.not_mem_nil hv).elim⟩
  · next hprivate => exact hnumbered a.file ((file?_eq ha).trans (if_neg hprivate))

/-- What saving a graph ends in. -/
theorem ends_saveGraph (o : Options) (settings : Settings)
    (hnumbered : ∀ p, o.file? = some p → (disk.held p).Numbered) :
    Ends (Shell.Idle disk now log) (saveGraph o settings) (Saved o settings now disk)
      (Failed o settings log now disk) := by
  unfold saveGraph
  refine (ends_graphOf o).bind_mono (fun s hs => .inl ?_) fun g => ?_
  · exact spared_of_none hs.session fun a _ _ => hs.held a.file
  refine (ends_openCatalogue o).bind_mono (fun s hs => .inl ?_) fun _ => ?_
  · exact spared_of_none hs.1 hs.2
  refine .get fun s hs => ?_
  obtain ⟨t, ht, a, c, ha, hserves, halike⟩ := hs.session
  have hc : c.Numbered := (numbered_stock ha hnumbered).congr halike.versions halike.lastId
  simp only [hs.now]
  cases hserves with
  | ofShut hshut =>
    -- Whichever request comes next is refused.
    have hspared (u : Shell) (hu : u.Working
        (fun t d => t.Shut a ∧ d.held a.file = s.disk.held a.file) now log []) :
        Failed o settings log now disk u :=
      .inl (hu.serves_shut.spared ha halike)
    have hs' : s.Working (fun t d => t.Shut a ∧ d.held a.file = s.disk.held a.file) now log [] :=
      { hs.toAt with session := ⟨t, ht, hshut, rfl⟩ }
    refine .known hs' (ends_catalogue_shut.bind fun c₁ => ?_)
    refine Ends.bind (Q := fun _ => Shell.Working
      (fun t d => t.Shut a ∧ d.held a.file = s.disk.held a.file) now log [])
      (.need (fun _ _ u hu => hu.1) fun _ _ u hu => hspared u hu.1) fun b => ?_
    split
    · exact (ends_change_shut (careful_create now _)).bind_mono hspared fun _ _ h => h.elim
    · exact (ends_change_shut (careful_save now o.slug g o.versionName)).bind_mono hspared
        fun _ _ h => h.elim
  | ofOpen hopen =>
    have hs' : s.Working (fun t d => t.Open log a d c) now log [] :=
      { hs.toAt with session := ⟨t, ht, hopen⟩ }
    refine .known hs' (ends_catalogue.bind fun c₁ => ?_)
    refine Ends.bind (Q := fun b s => c.tables = .present ∧
      s.Working (fun t d => t.Open log a d c) now log [])
      (.need (fun b hb s hs => ?_) fun e he s hs => .inl (hs.1.serves.spared ha halike))
      fun b => ?_
    · have htables := (Catalogue.has_eq_ok_iff.1 hb).1
      have hsame := hs.2.2.1 htables
      rw [hsame] at htables
      exact ⟨htables, hs.1⟩
    refine .assume fun htables => ?_
    split
    · refine (ends_change (careful_create now _)).bind_mono
        (fun s hs => .inl (hs.1.serves.spared ha halike)) fun _ => ?_
      refine Ends.ofExists fun c' => Ends.ofExists fun j => .assume fun hcreate => ?_
      obtain ⟨r, d', hr⟩ := Catalogue.exists_save_of_create hcreate rfl now o.versionName
      obtain ⟨ht', hw, -, row, hslug, -, hc'⟩ := Catalogue.exists_of_create hcreate
      have hw' : c'.readOnly = false := hc' ▸ hw
      -- The new row is one of the graph that is saved, so the other graphs are still the same.
      refine ends_version ha (hc.congr (hc' ▸ rfl) (hc' ▸ rfl)) (hc' ▸ htables)
        (fun d v hv hgains => ?_) (.inl ⟨r, d', by rwa [unlocked hw']⟩)
      subst hc'
      refine hgains.congr halike.versions halike.lastId ?_
      have hrow : [row].filter (fun r => r.slug ≠ v.slug) = [] := by simp [hslug, hv]
      rw [List.filter_append, hrow, List.append_nil, halike.graphs]
    · refine ends_version ha hc htables (fun d v _ hgains => ?_) (.inr halike)
      exact hgains.congr halike.versions halike.lastId (congrArg _ halike.graphs)

/-! ### Command lines -/

/-- A list of arguments that names a command is carried out as it says. -/
theorem ends_carryOut {args : List String} {P : Shell → Prop} {Q : Nat → Shell → Prop}
    (h : Ends P (perform o) Q E) (hargs : Options.parse args {} = .ok (some o))
    (hcommand : o.command ≠ "") : Ends P (carryOut args) Q E := by
  unfold carryOut
  rw [hargs]
  refine Ends.bind (Q := fun r s => r = some o ∧ P s) (.pure fun s hs => ⟨rfl, hs⟩) fun r => ?_
  refine .assume fun hr => ?_
  subst hr
  simp only [if_neg hcommand]
  exact h

/-- What a command line that saves a graph comes to. It succeeds, and one version has been added, of
which the number is printed and beside which no more of its graph are kept than the limit permits.
Or it fails, and all graphs and versions are what they were, unless it was the limit that was bad:
then the version has been added all the same. The journal must not go into the log of changes. -/
theorem execute_save {args : List String} {o : Options}
    (hargs : Options.parse args {} = .ok (some o)) (hsave : o.command = "save") (disk : Disk)
    (now : Timestamp) (ids : IdSupply) (watch : Run.Stopwatch)
    (hnumbered : ∀ p, o.file? = some p → (disk.held p).Numbered) :
    let out := execute disk now ids watch args
    (out.code = 0 ∧ ∃ settings limit v, o.settings disk = .ok settings ∧
      settings.versionLimit? = some limit ∧ Adds o now disk out.printed out.disk limit v) ∨
    out.code = 1 ∧ (Spared o disk out.disk ∨ ∃ settings, o.settings disk = .ok settings ∧
      (o.Fouled (settings.get? "log_file") ∨
        settings.versionLimit? = none ∧ ∃ v, Adds o now disk out.printed out.disk 0 v)) := by
  have hrun : Ends (fun s => s.disk = disk ∧ s.Idle disk now none) (perform o)
      (fun code s => ∃ settings, o.settings disk = .ok settings ∧ Saved o settings now disk code s)
      (fun s => Spared o disk s.final ∨ ∃ settings, o.settings disk = .ok settings ∧
        Failed o settings (settings.get? "log_file") now disk s) := by
    have hidle {log : Option String} (s : Shell) (hs : s.Idle disk now log) :
        Spared o disk s.final := spared_of_none hs.session fun a _ _ => hs.held a.file
    unfold perform
    refine (ends_settingsOf o).bind_mono (fun s hs => .inl (hidle s hs)) fun settings => ?_
    refine .assume fun hsettings => (ends_setUp o settings).bind_mono ?_ fun _ => ?_
    · rintro s ⟨log, hs⟩
      exact .inl (hidle s hs)
    simp only [hsave]
    split
    · exact .throw_bind fun s hs => .inl (hidle s hs)
    split
    · exact .throw_bind fun s hs => .inl (hidle s hs)
    exact (ends_saveGraph o settings hnumbered).mono
      (fun _ _ h => ⟨settings, hsettings, h⟩) fun _ h => .inr ⟨settings, hsettings, h⟩
  have hend := ends_carryOut hrun hargs (by rw [hsave]; decide)
    (⟨rfl, ⟨rfl, rfl, rfl⟩, rfl, fun _ => rfl⟩ :
      ({ disk, now, ids, watch } : Shell).disk = disk ∧ Shell.Idle disk now none _)
  unfold execute
  cases hr : (carryOut args).run { disk, now, ids, watch } with
  | mk r s =>
    rw [hr] at hend
    cases r with
    | ok code =>
      obtain ⟨settings, hsettings, rfl, limit, v, hlimit, hadds⟩ := hend
      exact .inl ⟨rfl, settings, limit, v, hsettings, hlimit, hadds⟩
    | error e =>
      refine .inr ⟨rfl, ?_⟩
      rcases hend with hspared | ⟨settings, hsettings, hspared | hfouled | hbad⟩
      · exact .inl hspared
      · exact .inl hspared
      · exact .inr ⟨settings, hsettings, .inl hfouled⟩
      · exact .inr ⟨settings, hsettings, .inr hbad⟩

namespace SecondSave

/-- Save an empty graph under a slug that has a version. -/
def arguments : List String := ["save", "g", "--db", "d", "--slug", "a", "--config", "f"]

def options : Options :=
  { command := "save", graphPath := "g", configPath := "f", dbPath := "d", slug := "a" }

def catalogue : Catalogue where
  schema := 1
  tables := .present
  graphs := [⟨"a", "Graph", "", "control_flow", "1970-01-01T00:00:00Z", "1970-01-01T00:00:00Z"⟩]
  versions := [⟨1, "a", none, "\x7b\x7d", 0, 0, "1970-01-01T00:00:00Z"⟩]
  lastId := 1

/-- A disk with the catalogue, an empty graph and a limit for versions. -/
def files (limit : String) : Disk where
  files := ((Dict.empty.insert "f" (.text ("max_versions_per_graph=" ++ limit))).insert "g"
    (.text "\x7b\x7d")).insert "d" (.catalogue catalogue)

theorem file?_options : options.file? = some (.ofString "d") := by decide +kernel

theorem held_files (limit : String) : (files limit).held (.ofString "d") = catalogue := by
  have hkey : (Path.ofString "d").key = "d" := by decide +kernel
  have hdevice : (Path.ofString "d").device? = none := by decide +kernel
  refine Disk.held_of_catalogue ?_
  rw [Disk.fileAt?, hdevice, hkey]
  exact Dict.get?_insert_self _ _ _

theorem numbered_files (limit : String) :
    ∀ p, options.file? = some p → ((files limit).held p).Numbered := by
  intro p hp
  obtain rfl := Option.some.inj (file?_options.symm.trans hp)
  rw [held_files]
  exact ⟨by decide, by decide⟩

/-- What saving with a limit comes to. -/
def outcome (limit : String) : Outcome := execute (files limit) ⟨0⟩ {} (fun _ => 0) arguments

end SecondSave

/-- Of two versions the one that was saved just now is kept. -/
theorem execute_save_secondSave :
    Options.parse SecondSave.arguments {} = .ok (some SecondSave.options) ∧
    (∀ p, SecondSave.options.file? = some p → ((SecondSave.files "1").held p).Numbered) ∧
    ∃ v, Adds SecondSave.options ⟨0⟩ (SecondSave.files "1") (SecondSave.outcome "1").printed
      (SecondSave.outcome "1").disk 1 v := by
  have hparse : Options.parse SecondSave.arguments {} = .ok (some SecondSave.options) := rfl
  have hcode : (SecondSave.outcome "1").code = 0 := by decide +kernel
  have hlimit : ((SecondSave.options.settings (SecondSave.files "1")).toOption.bind
      Settings.versionLimit?) = some 1 := by decide +kernel
  rcases execute_save hparse rfl (SecondSave.files "1") ⟨0⟩ {} (fun _ => 0)
    (SecondSave.numbered_files "1") with
    ⟨-, settings, limit, v, hsettings, hsome, hadds⟩ | ⟨hone, -⟩
  · rw [hsettings] at hlimit
    obtain rfl := Option.some.inj (hsome.symm.trans hlimit)
    exact ⟨hparse, SecondSave.numbered_files "1", v, hadds⟩
  · cases hcode.symm.trans hone

/-- Not every command line that fails spares all versions: a limit below zero is complained about
when the version has been saved. -/
theorem not_forall_spared : ¬ ∀ (args : List String) (o : Options) (disk : Disk) (now : Timestamp)
    (ids : IdSupply) (watch : Run.Stopwatch), Options.parse args {} = .ok (some o) →
    o.command = "save" → (∀ p, o.file? = some p → (disk.held p).Numbered) →
    (execute disk now ids watch args).code = 1 →
    Spared o disk (execute disk now ids watch args).disk := by
  intro h
  have hspared := h SecondSave.arguments SecondSave.options (SecondSave.files "-1") ⟨0⟩ {}
    (fun _ => 0) rfl rfl
    (SecondSave.numbered_files "-1") (by decide +kernel) _ SecondSave.file?_options
  -- There was one version, and there are two when the limit is looked at.
  have hlength := congrArg List.length hspared.versions
  rw [SecondSave.held_files] at hlength
  revert hlength
  decide +kernel

end CommandLine
end Patchbay
