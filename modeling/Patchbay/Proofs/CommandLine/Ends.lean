import Patchbay.CommandLine
import Patchbay.Proofs.Store.Rollback
import Patchbay.Proofs.Store.Serving
/-!
# What parts of a command end in

A part of a command ends with a result or fails, and in both cases it leaves its surroundings in
some state. Statements about parts are put together in the way in which the parts are.

## Main definitions

* `Ends`: begun in a state of one kind, a part ends or fails in states of other kinds.
* `Shell.Idle`: a command that has no catalogue open.
* `Shell.Working`: a command that has one open.

## Main statements

* `Ends.bind`: parts follow each other.
* `ends_openCatalogue`: a catalogue is opened.
* `ends_catalogue`, `ends_change`: the open catalogue is looked at and changed.
* `ends_change_shut`: a catalogue that may not be changed is not.
-/
namespace Patchbay.CommandLine
open Store

/-- Begun in a state of one kind, a part of a command ends in a state of a second kind, or it fails
in a state of a third kind. -/
def Ends {α : Type} (P : Shell → Prop) (x : Command α) (Q : α → Shell → Prop) (E : Shell → Prop) :
    Prop :=
  ∀ ⦃s⦄, P s → match x.run s with
    | (.ok a, s') => Q a s'
    | (.error _, s') => E s'

namespace Ends
variable {α β : Type} {P : Shell → Prop} {x : Command α} {f : α → Command β}
  {Q Q' : α → Shell → Prop} {R : β → Shell → Prop} {E E' : Shell → Prop}

/-- Parts of a command follow each other. -/
protected theorem bind (hx : Ends P x Q E) (hf : ∀ a, Ends (Q a) (f a) R E) :
    Ends P (x >>= f) R E := by
  intro s hs
  have hstep := hx hs
  change match ExceptT.bindCont f (x s).1 (x s).2 with
    | (.ok b, s') => R b s'
    | (.error _, s') => E s'
  change match x s with
    | (.ok a, s') => Q a s'
    | (.error _, s') => E s' at hstep
  cases hr : x s with
  | mk r s₁ =>
    rw [hr] at hstep
    cases r with
    | error e => exact hstep
    | ok a => exact hf a hstep

theorem mono (h : Ends P x Q' E') (hQ : ∀ a s, Q' a s → Q a s) (hE : ∀ s, E' s → E s) :
    Ends P x Q E := by
  intro s hs
  have hstep := h hs
  cases hr : x.run s with
  | mk r s₁ =>
    rw [hr] at hstep
    cases r with
    | error e => exact hE s₁ hstep
    | ok a => exact hQ a s₁ hstep

/-- Parts of a command follow each other, and less is said about a failure of the first. -/
theorem bind_mono (hx : Ends P x Q E') (hE : ∀ s, E' s → E s) (hf : ∀ a, Ends (Q a) (f a) R E) :
    Ends P (x >>= f) R E :=
  (hx.mono (fun _ _ h => h) hE).bind hf

/-- A part that only sees to its state. -/
protected theorem modify {R : PUnit → Shell → Prop} {f : Shell → Shell}
    (h : ∀ s, P s → R ⟨⟩ (f s)) : Ends P (modify f) R E :=
  fun s hs => h s hs

protected theorem pure {a : α} (h : ∀ s, P s → Q a s) : Ends P (Pure.pure a) Q E :=
  fun s hs => h s hs

protected theorem throw {e : Failure} (h : ∀ s, P s → E s) :
    Ends P (MonadExcept.throw e : Command α) Q E :=
  fun s hs => h s hs

/-- What would follow a failure does not matter. -/
theorem throw_bind {e : Failure} (h : ∀ s, P s → E s) :
    Ends P ((MonadExcept.throw e : Command α) >>= f) R E :=
  Ends.bind (Q := fun _ _ => False) (.throw h) fun _ _ h => h.elim

/-- The state is known from then on. -/
protected theorem get {f : Shell → Command β} (h : ∀ s, P s → Ends (· = s) (f s) R E) :
    Ends P (MonadState.get >>= f) R E :=
  fun s hs => h s hs rfl

/-- What does not depend on the state is known before a part begins. -/
theorem assume {p : Prop} (h : p → Ends P x Q E) : Ends (fun s => p ∧ P s) x Q E :=
  fun _ hs => h hs.1 hs.2

/-- What is known of the state may depend on it. -/
theorem known {s : Shell} (hs : P s) (h : Ends P x Q E) : Ends (· = s) x Q E :=
  fun _ ht => ht ▸ h hs

theorem ofExists {ι : Type} {P : ι → Shell → Prop} (h : ∀ i, Ends (P i) x Q E) :
    Ends (fun s => ∃ i, P i s) x Q E :=
  fun _ ⟨i, hs⟩ => h i hs

/-- The state is looked at and stays. -/
protected theorem look : Ends P MonadState.get (fun _ s => P s) E := fun _ hs => hs

/-- The result of a part is there, or its failure. -/
protected theorem need {ε : Type} {failure : ε → Failure} {r : Except ε α}
    (hok : ∀ a, r = .ok a → ∀ s, P s → Q a s) (herror : ∀ e, r = .error e → ∀ s, P s → E s) :
    Ends P (need failure r) Q E := by
  cases r with
  | ok a => exact .pure (hok a rfl)
  | error e => exact .throw (herror e rfl)

end Ends

/-! ### The state of a command -/

/-- A command that has printed something, and whose journal goes somewhere. -/
structure Shell.At (now : Timestamp) (log : Option String) (printed : List Printed) (s : Shell) :
    Prop where
  now : s.now = now
  logFile : s.logFile = log
  printed : s.printed = printed

/-- A command that has no catalogue open, and files that hold the catalogues of a disk. -/
structure Shell.Idle (disk : Disk) (now : Timestamp) (log : Option String) (s : Shell) : Prop
    extends s.At now log [] where
  session : s.session = none
  held : ∀ p, s.disk.held p = disk.held p

/-- A command that has a catalogue open. -/
structure Shell.Working (W : Session → Disk → Prop) (now : Timestamp) (log : Option String)
    (printed : List Printed) (s : Shell) : Prop extends s.At now log printed where
  session : ∃ t, s.session = some t ∧ W t s.disk

variable {disk : Disk} {now : Timestamp} {log : Option String} {printed : List Printed}
  {a : Address} {c : Catalogue} {E : Shell → Prop}

/-- Reports to the journal change nothing but files that are no catalogues. -/
theorem report_cases (s : Shell) (j : Journal) :
    (s.report j).now = s.now ∧ (s.report j).logFile = s.logFile ∧
      (s.report j).printed = s.printed ∧ (s.report j).session = s.session ∧
      ((s.report j).disk = s.disk ∨ ∃ path text, s.logFile = some path ∧
        s.disk.append? path text = some (s.report j).disk ∧ (s.disk.file? path).isSome = true) := by
  unfold Shell.report
  cases hlog : s.logFile with
  | none => exact ⟨rfl, rfl, rfl, rfl, .inl rfl⟩
  | some path =>
    simp only
    split
    · exact ⟨rfl, hlog, rfl, rfl, .inl rfl⟩
    · next hthere =>
      refine ⟨rfl, rfl, rfl, rfl, ?_⟩
      cases happend : s.disk.append? path (logText s.now (j.admitted s.level)) with
      | none => exact .inl rfl
      | some d =>
        exact .inr ⟨path, _, rfl, happend, by simpa [Option.isSome_iff_ne_none] using hthere⟩

theorem Shell.At.report {s : Shell} (h : s.At now log printed) (j : Journal) :
    (s.report j).At now log printed := by
  obtain ⟨hnow, hlog, hprinted, -⟩ := report_cases s j
  exact ⟨hnow.trans h.now, hlog.trans h.logFile, hprinted.trans h.printed⟩

theorem ends_report_idle (j : Journal) : Ends (Shell.Idle disk now log) (report j)
    (fun _ => Shell.Idle disk now log) E := by
  refine .modify fun s hs => ?_
  obtain ⟨-, -, -, hsession, hdisk⟩ := report_cases s j
  refine { hs.report j with session := hsession.trans hs.session, held := fun p => ?_ }
  rcases hdisk with hdisk | ⟨path, text, -, happend, -⟩
  · exact hdisk ▸ hs.held p
  · exact (Disk.held_append? happend p).trans (hs.held p)

/-- What holds of a session however a journal grows beside it. -/
def Lasting (log : Option String) (W : Session → Disk → Prop) : Prop :=
  ∀ t d path text e, log = some path → d.append? path text = some e →
    (d.file? path).isSome = true → W t d → W t e

theorem ends_report {W : Session → Disk → Prop} (hW : Lasting log W) (j : Journal) :
    Ends (Shell.Working W now log printed) (report j)
      (fun _ => Shell.Working W now log printed) E := by
  refine .modify fun s hs => ?_
  obtain ⟨t, ht, hw⟩ := hs.session
  obtain ⟨-, -, -, hsession, hdisk⟩ := report_cases s j
  refine { hs.report j with session := ⟨t, hsession.trans ht, ?_⟩ }
  rcases hdisk with hdisk | ⟨path, text, hlog, happend, hthere⟩
  · exact hdisk ▸ hw
  · exact hW t _ path text _ (hs.logFile.symm.trans hlog) happend hthere hw

/-! ### Parts -/

theorem ends_print {W : Session → Disk → Prop} (t : String) :
    Ends (Shell.Working W now log printed) (print t)
      (fun _ => Shell.Working W now log (printed ++ [.text t])) E :=
  .modify fun _ hs => {
    now := hs.now
    logFile := hs.logFile
    printed := congrArg (· ++ [.text t]) hs.printed
    session := hs.session }

theorem ends_graphOf (o : Options) : Ends (Shell.Idle disk now log) (graphOf o)
    (fun _ => Shell.Idle disk now log) (Shell.Idle disk now log) := by
  unfold graphOf
  refine Ends.look.bind fun s => ?_
  refine Ends.bind (Q := fun _ => Shell.Idle disk now log) ?_ fun empty => ?_
  · exact Ends.look.bind fun _ => .pure fun _ h => h
  · exact (ends_report_idle _).bind fun _ => .need (fun _ _ _ h => h) (fun _ _ _ h => h)

/-- The catalogue that the address of a path leads to, as a disk has it. One that is kept nowhere
has nothing in it at first. -/
def stock (disk : Disk) (a : Address) : Catalogue := if a.isPrivate then {} else disk.held a.file

/-- A session works on a catalogue that is like another one, apart from its schema. -/
def Takes (log : Option String) (path : String) (disk : Disk) (t : Session) (d : Disk) : Prop :=
  ∃ a c, Address.ofText (Text.untilNul path) = .ok a ∧ t.Serves log a d c ∧ c.Alike (stock disk a)

theorem lasting_serves (log : Option String) (a : Address) (c : Catalogue) :
    Lasting log fun t d => t.Serves log a d c := by
  rintro t d path text e rfl happend hthere h
  exact h.append happend hthere

theorem lasting_takes (path : String) (disk : Disk) : Lasting log (Takes log path disk) := by
  rintro t d file text e hlog happend hthere ⟨a, c, ha, hserves, halike⟩
  exact ⟨a, c, ha, lasting_serves log a c t d file text e hlog happend hthere hserves, halike⟩

/-- A catalogue is opened. If that fails, no catalogue has changed. -/
theorem ends_openCatalogue (o : Options) :
    Ends (Shell.Idle disk now log) (openCatalogue o)
      (fun _ => Shell.Working (Takes log o.dbPath disk) now log [])
      (fun s => s.session = none ∧ ∀ a, Address.ofText (Text.untilNul o.dbPath) = .ok a →
        a.isPrivate = false → s.disk.held a.file = disk.held a.file) := by
  unfold openCatalogue
  refine .get fun s hs => ?_
  cases hstart : Session.start s.disk o.dbPath with
  | mk r d =>
    obtain ⟨herror, hok⟩ := Session.start_spec log hstart
    refine Ends.bind (Q := fun _ t => t = { s with disk := d }) (fun _ _ => rfl) fun _ => ?_
    refine Ends.bind (Q := fun t u => u = { s with disk := d } ∧ r = .ok t) ?_ fun t => ?_
    · refine .need (fun t ht u hu => ⟨hu, ht⟩) fun x hx u hu => ?_
      subst hu
      refine ⟨hs.session, fun a ha hstored => ?_⟩
      exact (herror x hx a ha hstored).trans (hs.held _)
    · refine Ends.bind (Q := fun _ => Shell.Working (Takes log o.dbPath disk) now log [])
        (.modify fun u hu => ?_) fun _ => ?_
      · obtain ⟨rfl, hr⟩ := hu
        obtain ⟨a, c, ha, hserves, halike⟩ := hok t hr
        refine { hs.toAt with session := ⟨t, rfl, a, c, ha, hserves, ?_⟩ }
        rwa [stock, ← hs.held]
      · exact ends_report (lasting_takes o.dbPath disk) _

/-! ### Work on a catalogue -/

theorem run_catalogue {s : Shell} {t t' : Session} {d : Disk} (ht : s.session = some t)
    (hl : t.look s.disk false = (c, t', d)) :
    catalogue.run s = (.ok c, { s with session := some t', disk := d }) := by
  change ((.ok (_ : Catalogue × Shell).1, (_ : Catalogue × Shell).2) : Except Failure _ × Shell) = _
  rw [ht]
  simp only [hl]

/-- The open catalogue is seen as it is, unless the log of its changes is fouled. -/
theorem ends_catalogue :
    Ends (Shell.Working (fun t d => t.Open log a d c) now log printed) catalogue
      (fun c₁ s => s.Working (fun t d => t.Open log a d c) now log printed ∧ c₁.readOnly = false ∧
        (c₁.tables = .present → c₁ = { c with readOnly := false }) ∧
        (c.tables = .present → a.Fouled log ∨ c₁.tables = .present)) E := by
  intro s hs
  obtain ⟨t, ht, hopen⟩ := hs.session
  cases hl : t.look s.disk false with
  | mk c₁ td =>
    obtain ⟨t', d⟩ := td
    obtain ⟨hopen, hfacts⟩ := hopen.look hl
    rw [run_catalogue ht hl]
    exact ⟨{ hs.toAt with session := ⟨t', rfl, hopen⟩ }, hfacts⟩

/-- A catalogue that may not be changed is seen, and stays. -/
theorem ends_catalogue_shut :
    Ends (Shell.Working (fun t d => t.Shut a ∧ d.held a.file = c) now log printed) catalogue
      (fun c₁ s => s.Working (fun t d => t.Shut a ∧ d.held a.file = c) now log printed ∧
        c₁.readOnly = true) E := by
  intro s hs
  obtain ⟨t, ht, hshut, hheld⟩ := hs.session
  cases hl : t.look s.disk false with
  | mk c₁ td =>
    obtain ⟨t', d⟩ := td
    obtain ⟨hshut, hreadOnly, hsame⟩ := hshut.look hl
    rw [run_catalogue ht hl]
    exact ⟨{ hs.toAt with session := ⟨t', rfl, hshut, hsame.trans hheld⟩ }, hreadOnly⟩

variable {α : Type} {w : Work (α × Journal)}

/-- Work that changes nothing when it fails. To be carried out it needs tables and the permission to
write, which it leaves as they are. -/
structure Careful (w : Work (α × Journal)) : Prop where
  safe : w.Safe
  needs : ∀ c a j d, w.run .never c = (.ok (a, j), d) →
    c.tables = .present ∧ c.readOnly = false ∧ d.readOnly = false

theorem lasting_open (log : Option String) (a : Address) (c : Catalogue) :
    Lasting log fun t d => t.Open log a d c := by
  rintro t d path text e rfl happend hthere h
  exact h.append happend hthere

theorem Shell.Working.keep {s : Shell} {c' : Catalogue}
    (h : s.Working (fun t d => t.Open log a d c) now log printed) (hw : c'.readOnly = false) :
    (s.keep c').Working (fun t d => t.Open log a d c') now log printed := by
  obtain ⟨t, ht, hopen⟩ := h.session
  cases hk : t.keep s.disk c' with
  | mk t' d =>
    have hkeep : s.keep c' = { s with session := some t', disk := d } := by
      simp only [Shell.keep, ht, hk]
    rw [hkeep]
    exact { h.toAt with session := ⟨t', rfl, hopen.keep hw hk⟩ }

/-- What work on the open catalogue changes is kept. The work fails only if it does on the catalogue
as it is, or if the log of changes is fouled. -/
theorem ends_change (hw : Careful w) :
    Ends (Shell.Working (fun t d => t.Open log a d c) now log printed) (change w)
      (fun x s => ∃ c' j, w.run .never { c with readOnly := false } = (.ok (x, j), c') ∧
        s.Working (fun t d => t.Open log a d c') now log printed)
      (fun s => s.Working (fun t d => t.Open log a d c) now log printed ∧
        (c.tables = .present → a.Fouled log ∨
          ∃ e d, w.run .never { c with readOnly := false } = (.error e, d))) := by
  unfold change
  refine ends_catalogue.bind fun c₁ => ?_
  cases hr : w.run .never c₁ with
  | mk r c' =>
    cases r with
    | ok xj =>
      obtain ⟨x, j⟩ := xj
      obtain ⟨htables, -, hreadOnly⟩ := hw.needs c₁ x j c' hr
      refine Ends.bind
        (Q := fun _ s => w.run .never { c with readOnly := false } = (.ok (x, j), c') ∧
          s.Working (fun t d => t.Open log a d c') now log printed)
        (.modify fun s hs => ?_) fun _ => ?_
      · obtain ⟨hs, -, hpresent, -⟩ := hs
        exact ⟨hpresent htables ▸ hr, hs.keep hreadOnly⟩
      · refine .assume fun hrun => (ends_report (lasting_open log a c') j).bind fun _ => ?_
        exact .pure fun s hs => ⟨c', j, hrun, hs⟩
    | error e =>
      -- nothing was changed, so there is nothing to keep
      obtain rfl := hw.safe _ _ _ _ hr
      simp only [ne_eq, not_true_eq_false, if_false]
      refine .throw fun s hs => ?_
      obtain ⟨hs, -, hpresent, hfouled⟩ := hs
      exact ⟨hs, fun ht => (hfouled ht).imp_right fun ht => ⟨e, _, hpresent ht ▸ hr⟩⟩

/-- A catalogue that may not be changed is not. -/
theorem ends_change_shut (hw : Careful w) :
    Ends (Shell.Working (fun t d => t.Shut a ∧ d.held a.file = c) now log printed) (change w)
      (fun _ _ => False)
      (Shell.Working (fun t d => t.Shut a ∧ d.held a.file = c) now log printed) := by
  unfold change
  refine ends_catalogue_shut.bind fun c₁ => ?_
  cases hr : w.run .never c₁ with
  | mk r c' =>
    cases r with
    | ok xj =>
      intro s hs
      have hreadOnly := (hw.needs c₁ _ _ c' hr).2.1
      rw [hs.2] at hreadOnly
      cases hreadOnly
    | error e =>
      obtain rfl := hw.safe _ _ _ _ hr
      simp only [ne_eq, not_true_eq_false, if_false]
      exact .throw fun s hs => hs.1

/-! ### Settings -/

/-- The settings that a command heeds. -/
def Options.settings (o : Options) (disk : Disk) : Except SettingsError Settings :=
  if o.configPath = "" then .ok {} else loadSettings disk o.configPath

theorem ends_settingsOf (o : Options) :
    Ends (fun s => s.disk = disk ∧ s.Idle disk now none) (settingsOf o)
      (fun settings s => o.settings disk = .ok settings ∧ s.Idle disk now none)
      (Shell.Idle disk now none) := by
  unfold settingsOf
  split
  · next hpath => exact .pure fun s hs => ⟨if_pos hpath, hs.2⟩
  · next hpath =>
    refine .get fun s hs => ?_
    refine .need (fun settings hsettings t ht => ?_) fun _ _ t ht => ht ▸ hs.2
    have hfile : o.settings disk = .ok settings := by
      rw [Options.settings, if_neg hpath, ← hs.1]
      exact hsettings
    exact ⟨hfile, ht ▸ hs.2⟩

/-- To set up a command changes no catalogue. -/
theorem ends_setUp (o : Options) (settings : Settings) :
    Ends (Shell.Idle disk now none) (setUp o settings)
      (fun _ => Shell.Idle disk now (settings.get? "log_file"))
      (fun s => ∃ log, s.Idle disk now log) := by
  have hrest (log : Option String) : Ends (Shell.Idle disk now log) (do
      let wanted ← need Failure.settings (settings.getBool "enable_performance_monitoring" true)
      let registry := Builtin.registerAll {}
      modify fun s => { s with registry, profile := { enabled := wanted && !o.noProfiler } }
      report [.debug ("Registered " ++ Numeral.natText registry.size ++ " node types")])
      (fun _ => Shell.Idle disk now log) (fun s => ∃ log, s.Idle disk now log) := by
    refine Ends.bind (Q := fun _ => Shell.Idle disk now log) ?_ fun wanted => ?_
    · exact .need (fun _ _ s hs => hs) fun _ _ s hs => ⟨log, hs⟩
    · refine Ends.bind (Q := fun _ => Shell.Idle disk now log) (.modify fun s hs => ?_) fun _ => ?_
      · exact { hs with }
      · exact ends_report_idle _
  unfold setUp
  simp only
  split
  · exact .throw fun s hs => ⟨none, hs⟩
  · refine Ends.bind (Q := fun _ => Shell.Idle disk now none) (.modify fun s hs => ?_) fun _ => ?_
    · exact { hs with }
    · split
      · next hlog => exact hlog ▸ hrest none
      · next path hlog =>
        refine .get fun s hs => ?_
        split
        · exact .throw fun t ht => ht ▸ ⟨none, hs⟩
        · next d happend =>
          refine Ends.bind (Q := fun _ => Shell.Idle disk now (some path)) (.modify fun t ht => ?_)
            fun _ => hlog ▸ hrest (some path)
          subst ht
          exact {
            now := hs.now
            logFile := rfl
            printed := hs.printed
            session := hs.session
            held := fun p => (Disk.held_append? happend p).trans (hs.held p) }

end Patchbay.CommandLine
