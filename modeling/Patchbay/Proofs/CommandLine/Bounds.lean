import Patchbay.Proofs.CommandLine.Ends
import Patchbay.Proofs.CommandLine.Trimmed
/-!
# The number of steps that a run is given

A run is given a number of steps by an argument or by a setting. In both places the number is read
from text by the same reader. But a setting has to be a number as a whole, and what stands behind
the number in an argument is not looked at, so that a misspelt argument starts a run for which the
setting would have been refused.

## Main definitions

* `launch`: the part of a command in which a graph is run.
* `Arrives`: what a command that runs a graph comes to, told by the number of steps.
* `wordBound?`, `lineBound?`: the number of steps that an argument or a setting stands for.

## Main statements

* `wordBound?_eq_lineBound?_iff`: when the two stand for the same.
* `arrives_execute`: arguments and settings are heeded in this way.
* `not_forall_arrives`: two texts that are not taken for the same.
-/
namespace Patchbay.CommandLine

/-! ### Numbers of steps -/

/-- The count that an integer stands for. -/
def count? (n : Int64) : Option Nat := if n < 0 then none else some n.toInt.toNat

/-- The number of steps that an argument stands for. -/
def wordBound? (s : List Char) : Option Nat :=
  match Numeral.read s with
  | .ok (n, _) => count? n
  | .error _ => none

/-- The number of steps that a setting stands for. -/
def lineBound? (s : List Char) : Option Nat :=
  match Numeral.readAll (Settings.trim s) with
  | .ok n => count? n
  | .error _ => none

theorem count?_eq_none_iff {n : Int64} : count? n = none ↔ ¬ 0 ≤ n := by
  rw [count?, Int64.not_le]
  split <;> simp_all

/-- As a setting a number counts if there are only blanks and line breaks behind it. -/
theorem lineBound?_eq (s : List Char) : lineBound? s =
    match Numeral.read s with
    | .ok (n, rest) => if rest.all Settings.isTail then count? n else none
    | .error _ => none := by
  have hok (n : Int64) := Numeral.readAll_trim_eq_ok_iff (s := s) (n := n)
  unfold lineBound?
  cases htrim : Numeral.readAll (Settings.trim s) with
  | ok n =>
    obtain ⟨rest, hread, hrest⟩ := (hok n).1 htrim
    simp only [hread]
    rw [if_pos (List.all_eq_true.2 hrest)]
  | error e =>
    cases hread : Numeral.read s with
    | error e => rfl
    | ok r =>
      have hnot : r.2.all Settings.isTail = false := by
        rw [Bool.eq_false_iff]
        intro hall
        cases htrim.symm.trans ((hok r.1).2 ⟨r.2, hread, List.all_eq_true.1 hall⟩)
      simp [hnot]

/-- An argument and a setting stand for the same number of steps, or for none, unless there is
something behind the number. -/
theorem wordBound?_eq_lineBound?_iff (s : List Char) : wordBound? s = lineBound? s ↔
    ∀ n rest, Numeral.read s = .ok (n, rest) → 0 ≤ n → ∀ c ∈ rest, Settings.isTail c = true := by
  rw [wordBound?, lineBound?_eq]
  cases Numeral.read s with
  | error e => simp
  | ok r =>
    obtain ⟨n, rest⟩ := r
    have hone : (∀ m t, Except.ok (n, rest) = (Except.ok (m, t) : Except NumberError _) → 0 ≤ m →
        ∀ c ∈ t, Settings.isTail c = true) ↔ (0 ≤ n → rest.all Settings.isTail = true) :=
      ⟨fun h hn => List.all_eq_true.2 (h n rest rfl hn), by
        rintro h m t ⟨⟩ hm
        exact List.all_eq_true.1 (h hm)⟩
    rw [hone]
    by_cases hrest : rest.all Settings.isTail = true
    · exact iff_of_true (if_pos hrest).symm fun _ => hrest
    · simp only [if_neg hrest, count?_eq_none_iff]
      exact ⟨fun hn h => absurd h hn, fun h hn => hrest (h hn)⟩

/-! ### Running a graph -/

/-- A graph is run, within limits. -/
def launch (g : Graph) (replaceInputs : Bool) (limits : Run.Options) : Command Nat := do
  let s ← get
  let start : Run.State := { graph := { g with replaceInputs }, profile := s.profile }
  let outcome := (Run.Engine.ofGraph g limits).run s.watch start
  report outcome.state.journal.toList
  let result ← need .run outcome.result
  print (result.toJson.print (some 2) ++ "\n")
  let profile := outcome.state.profile
  if profile.enabled then emit (.profile profile)
  return if result.succeeded then 0 else 1

/-- A graph file is read and the limits are found out before anything is run. -/
theorem runGraph_eq (o : Options) (settings : Settings) : runGraph o settings = (do
    let g ← graphOf o
    let replaceInputs ← need .settings (Graph.replacePolicy settings)
    let limits ← limits o settings
    launch g replaceInputs limits) := rfl

/-! ### Parts of a command -/

/-- Once a part of a command has succeeded the rest is carried out. -/
theorem run_bind_of_ok {α β : Type} {x : Command α} {f : α → Command β} {s t : Shell} {a : α}
    (h : x.run s = (.ok a, t)) : (x >>= f).run s = (f a).run t := by
  change ExceptT.bindCont f (x s).1 (x s).2 = _
  rw [show x s = _ from h]
  rfl

theorem run_bind_of_error {α β : Type} {x : Command α} {f : α → Command β} {s t : Shell}
    {e : Failure} (h : x.run s = (.error e, t)) : (x >>= f).run s = (.error e, t) := by
  change ExceptT.bindCont f (x s).1 (x s).2 = _
  rw [show x s = _ from h]
  rfl

theorem run_get (s : Shell) : (get : Command Shell).run s = (.ok s, s) := rfl

theorem run_emptyGraph (s : Shell) : emptyGraph.run s = (.ok (.new s.ids), s) := rfl

theorem run_report (j : Journal) (s : Shell) : (report j).run s = (.ok ⟨⟩, s.report j) := rfl

theorem run_need {ε α : Type} (failure : ε → Failure) (a : α) (s : Shell) :
    (need failure (.ok a)).run s = (.ok a, s) := rfl

theorem run_need_error {ε α : Type} (failure : ε → Failure) (e : ε) (s : Shell) :
    (need failure (.error e) : Command α).run s = (.error (failure e), s) := rfl

theorem run_emit (p : Printed) (s : Shell) :
    (emit p).run s = (.ok ⟨⟩, { s with printed := s.printed ++ [p] }) := rfl

theorem run_print (text : String) (s : Shell) :
    (print text).run s = (.ok ⟨⟩, { s with printed := s.printed ++ [.text text] }) := rfl

/-- A run that is launched fails only for a reason that the run itself gives. -/
theorem exists_of_launch {g : Graph} {replaceInputs : Bool} {limits : Run.Options} {s t : Shell}
    {e : Failure} (h : (launch g replaceInputs limits).run s = (.error e, t)) :
    ∃ r, e = .run r := by
  unfold launch at h
  rw [run_bind_of_ok (run_get s)] at h
  simp only at h
  rw [run_bind_of_ok (run_report _ s)] at h
  generalize (Run.Engine.ofGraph g limits).run s.watch _ = outcome at h
  cases hresult : outcome.result with
  | error r =>
    rw [hresult, run_bind_of_error (run_need_error _ r _)] at h
    cases h
    exact ⟨r, rfl⟩
  | ok result =>
    -- What is left is to print, which never fails.
    rw [hresult, run_bind_of_ok (run_need _ _ _), run_bind_of_ok (run_print _ _)] at h
    split at h
    · rw [run_bind_of_ok (run_emit _ _)] at h
      cases h
    · cases h

/-- What a command comes to that is carried out from some state on. -/
def conclude (x : Command Nat) (s : Shell) : Outcome :=
  match x.run s with
  | (.ok code, s) => finish s code none
  | (.error e, s) => finish s 1 (some e)

theorem execute_eq (disk : Store.Disk) (now : Timestamp) (ids : IdSupply) (watch : Run.Stopwatch)
    (args : List String) :
    execute disk now ids watch args = conclude (carryOut args) { disk, now, ids, watch } := rfl

/-! ### Before a graph is run -/

section
variable (disk : Store.Disk) (now : Timestamp) (ids : IdSupply) (watch : Run.Stopwatch)
  (path : String)

/-- A command that is set up without any settings. -/
def ready : Shell :=
  { disk, now, ids, watch, profile := { enabled := true }, registry := Builtin.registerAll {} }

/-- What reading a graph file comes to. -/
def opened : Document.Loaded :=
  Store.loadGraph disk (Builtin.registerAll {}) (.new ids) path

/-- A command that has read a graph file. -/
def Shell.opened : Shell :=
  (ready disk now ids watch).report (CommandLine.opened disk ids path).journal

/-- To set up a command, no settings are needed. -/
theorem run_setUp {o : Options} {settings : Settings} (hlevel : o.logLevel = none)
    (hprofile : o.noProfiler = false)
    (hsettings : ∀ name ≠ "max_steps", settings.get? name = none) :
    (setUp o settings).run { disk, now, ids, watch } = (.ok (), ready disk now ids watch) := by
  unfold setUp
  simp only [hlevel, hprofile, Settings.getString, Settings.getBool,
    hsettings "log_level" (by decide), hsettings "log_file" (by decide),
    hsettings "enable_performance_monitoring" (by decide)]
  rfl

variable {disk now ids watch path} {o : Options} {settings : Settings} {g : Graph}

theorem run_settingsOf (hfile : o.settings disk = .ok settings) :
    (settingsOf o).run { disk, now, ids, watch } = (.ok settings, { disk, now, ids, watch }) := by
  unfold settingsOf
  unfold Options.settings at hfile
  split at hfile
  · next hconfig =>
    rw [if_pos hconfig]
    cases hfile
    rfl
  · next hconfig =>
    rw [if_neg hconfig, run_bind_of_ok (run_get _), hfile]
    rfl

theorem run_graphOf (hpath : o.graphPath = path) (hg : (opened disk ids path).result = .ok g) :
    (graphOf o).run (ready disk now ids watch) =
      (.ok g, Shell.opened disk now ids watch path) := by
  have hload : Store.loadGraph (ready disk now ids watch).disk (ready disk now ids watch).registry
      (.new (ready disk now ids watch).ids) o.graphPath = opened disk ids path := by
    rw [hpath]
    rfl
  unfold graphOf
  rw [run_bind_of_ok (run_get _), run_bind_of_ok (run_emptyGraph _), hload,
    run_bind_of_ok (run_report _ _), hg]
  rfl

/-- A graph file is run once it has been read and the limits are known. -/
theorem conclude_perform (hcommand : o.command = "run") (hpath : o.graphPath = path)
    (hne : path ≠ "") (hlevel : o.logLevel = none) (hprofile : o.noProfiler = false)
    (hfile : o.settings disk = .ok settings)
    (hsettings : ∀ name ≠ "max_steps", settings.get? name = none)
    (hg : (opened disk ids path).result = .ok g) :
    conclude (perform o) { disk, now, ids, watch } =
      conclude (limits o settings >>= launch g true) (Shell.opened disk now ids watch path) := by
  have hpolicy : Graph.replacePolicy settings = .ok true := by
    rw [Graph.replacePolicy, Settings.getBool, hsettings _ (by decide)]
  have hthere : ¬ (o.command ≠ "load" ∧ o.graphPath = "") := fun h => hne (hpath.symm.trans h.2)
  have hneeds : ¬ (needsDatabase o.command = true ∧ (o.dbPath = "" ∨ o.slug = "")) := by
    rw [hcommand]
    exact fun h => absurd h.1 (by decide)
  have hrun : (perform o).run { disk, now, ids, watch } =
      (limits o settings >>= launch g true).run (Shell.opened disk now ids watch path) := by
    unfold perform
    rw [run_bind_of_ok (run_settingsOf hfile),
      run_bind_of_ok (run_setUp _ _ _ _ hlevel hprofile hsettings)]
    rw [if_neg hthere, if_neg hneeds]
    simp only [hcommand]
    rw [runGraph_eq, run_bind_of_ok (run_graphOf hpath hg), hpolicy,
      run_bind_of_ok (run_need _ _ _)]
  rw [conclude, hrun]
  rfl

/-! ### Limits -/

/-- A word that is neither an option nor a question for help. -/
structure Ordinary (arg : String) : Prop where
  named : arg ≠ ""
  option : Valued.ofWord? arg = none
  help : ¬ (arg = "-h" ∨ arg = "--help")
  profiler : arg ≠ "--no-profiler"

/-- A graph is to be run, and an option says more. -/
theorem parse_run (h : Ordinary path) {word : String} {v : Valued}
    (hword : Valued.ofWord? word = some v) (value : String) :
    Options.parse ["run", path, word, value] {} =
      some <$> ({ command := "run", graphPath := path } : Options).assign value v := by
  have hcommand : Options.word {} "run" = .ok { command := "run" } := rfl
  have hpath : Options.word { command := "run" } path =
      .ok { command := "run", graphPath := path } := by
    rw [Options.word, if_neg h.profiler]
    rfl
  rw [Options.parse, show Valued.ofWord? "run" = none from rfl]
  simp only [hcommand]
  rw [if_neg (by decide), Options.parse, h.option]
  simp only [if_neg h.help, hpath]
  rw [Options.parse, hword]
  simp only
  cases ({ command := "run", graphPath := path } : Options).assign value v with
  | ok o => rfl
  | error e => rfl

/-- Limits are found that leave a number of steps, or a command fails for want of them. -/
inductive Settles (x : Command Run.Options) : Option Nat → Prop where
  | refused {e : Failure} (kind : ∀ r, e ≠ .run r) (run : ∀ s, x.run s = (.error e, s)) :
      Settles x none
  | found {k : Nat} (run : ∀ s, x.run s = (.ok { maxSteps := k }, s)) : Settles x (some k)

theorem settles_argument {n : Int64} (h : o.maxSteps = some n) :
    Settles (limits o {}) (count? n) := by
  have hlimits (s : Shell) : (limits o {}).run s =
      if n < 0 then (.error .negativeSteps, s) else (.ok { maxSteps := n.toInt.toNat }, s) := by
    unfold limits
    rw [show Run.Options.ofSettings {} = .ok {} from rfl, run_bind_of_ok (run_need _ _ _), h]
    simp only
    split <;> rfl
  unfold count?
  split
  · next hn => exact .refused (e := .negativeSteps) nofun fun s => by rw [hlimits, if_pos hn]
  · next hn => exact .found fun s => by rw [hlimits, if_neg hn]

theorem ofSettings_eq {value : String} (hvalue : settings.get? "max_steps" = some value)
    (hsettings : ∀ name ≠ "max_steps", settings.get? name = none) :
    Run.Options.ofSettings settings =
      match Numeral.readAll value.toList with
      | .ok n =>
        if n < 0 then .error (.negative "max_steps") else .ok { maxSteps := n.toInt.toNat }
      | .error _ => .error (.notInteger "max_steps" value) := by
  have hvisits : settings.getCount "max_visits_per_node" 1000 = .ok 1000 := by
    rw [Settings.getCount, Settings.getInt, hsettings _ (by decide)]
    rfl
  have hfail : settings.getBool "fail_on_step_limit" false = .ok false := by
    rw [Settings.getBool, hsettings _ (by decide)]
  have hsteps : settings.getInt "max_steps" (Int64.ofNat 10000) =
      match Numeral.readAll value.toList with
      | .ok n => .ok n
      | .error _ => .error (.notInteger "max_steps" value) := by
    unfold Settings.getInt
    generalize settings.get? "max_steps" = found at hvalue ⊢
    subst hvalue
    rfl
  unfold Run.Options.ofSettings
  simp only [hvisits, hfail]
  rw [Settings.getCount, hsteps]
  cases Numeral.readAll value.toList with
  | error e => rfl
  | ok n =>
    change (if n < 0 then _ else Except.ok n.toInt.toNat) >>= _ = _
    simp only
    split
    · rfl
    · rfl

theorem settles_setting {value : List Char} (h : o.maxSteps = none)
    (hvalue : settings.get? "max_steps" = some (String.ofList (Settings.trim value)))
    (hsettings : ∀ name ≠ "max_steps", settings.get? name = none) :
    Settles (limits o settings) (lineBound? value) := by
  have hlimits {r : Except SettingsError Run.Options}
      (hr : Run.Options.ofSettings settings = r) (s : Shell) :
      (limits o settings).run s = (need Failure.settings r).run s := by
    unfold limits
    rw [hr, h]
    cases r with
    | ok a => rfl
    | error e => rfl
  have hsettled := ofSettings_eq hvalue hsettings
  rw [String.toList_ofList] at hsettled
  unfold lineBound? count?
  split
  · next n hn =>
    rw [hn] at hsettled
    simp only at hsettled
    split
    · next hneg =>
      rw [if_pos hneg] at hsettled
      exact .refused (e := .settings _) nofun (hlimits hsettled)
    · next hneg =>
      rw [if_neg hneg] at hsettled
      exact .found (hlimits hsettled)
  · next e he =>
    rw [he] at hsettled
    exact .refused (e := .settings _) nofun (hlimits hsettled)

/-! ### Command lines -/

section
variable (disk now ids watch path g)

/-- What a command comes to that runs a graph. Either it fails before any node is run: nothing has
been done, or only the graph file has been read. Or the graph is run with a number of steps. -/
inductive Arrives : Option Nat → Outcome → Prop where
  | refused {s : Shell} {e : Failure}
      (before : s = { disk, now, ids, watch } ∨ s = Shell.opened disk now ids watch path)
      (kind : ∀ r, e ≠ .run r) : Arrives none (finish s 1 (some e))
  | launched (k : Nat) : Arrives (some k)
      (conclude (launch g true { maxSteps := k }) (Shell.opened disk now ids watch path))

end

variable {b : Option Nat} {out : Outcome}

/-- A run that is launched does not fail for the reasons that keep it from being launched. -/
theorem Arrives.isSome_iff (h : Arrives disk now ids watch path g b out) :
    b.isSome = true ↔ ∀ e, out.failure = some e → ∃ r, e = .run r := by
  cases h with
  | refused before kind =>
    refine iff_of_false nofun fun h => ?_
    obtain ⟨r, hr⟩ := h _ rfl
    exact kind r hr
  | launched k =>
    refine iff_of_true rfl fun e he => ?_
    unfold conclude at he
    split at he
    · cases he
    · next t hrun =>
      obtain rfl := Option.some.inj he
      exact exists_of_launch hrun

theorem Settles.arrives {x : Command Run.Options} (h : Settles x b) :
    Arrives disk now ids watch path g b
      (conclude (x >>= launch g true) (Shell.opened disk now ids watch path)) := by
  cases h with
  | refused kind run =>
    rw [conclude, run_bind_of_error (run _)]
    exact .refused (.inr rfl) kind
  | found run =>
    rw [conclude, run_bind_of_ok (run _)]
    exact .launched _

/-- A run that is given an argument for its number of steps. -/
theorem arrives_argument (hpath : Ordinary path) (hg : (opened disk ids path).result = .ok g)
    (s : String) :
    Arrives disk now ids watch path g (wordBound? s.toList)
      (execute disk now ids watch ["run", path, "--max-steps", s]) := by
  have hparse := parse_run hpath (show Valued.ofWord? "--max-steps" = some .maxSteps from rfl) s
  rw [execute_eq]
  unfold wordBound? carryOut
  rw [hparse, Options.assign]
  cases Numeral.read s.toList with
  | error e => exact .refused (e := .badSteps e) (.inl rfl) nofun
  | ok r =>
    let o : Options := { command := "run", graphPath := path, maxSteps := some r.1 }
    have hlimits : Settles (limits o {}) (count? r.1) := settles_argument rfl
    have hsettled : Arrives disk now ids watch path g (count? r.1)
        (conclude (limits o {} >>= launch g true) (Shell.opened disk now ids watch path)) :=
      hlimits.arrives
    rwa [← conclude_perform (o := o) rfl rfl hpath.named rfl rfl rfl (fun _ _ => rfl) hg]
      at hsettled

/-- A run that is given a setting for its number of steps. -/
theorem arrives_setting (hpath : Ordinary path) (hg : (opened disk ids path).result = .ok g)
    {s config text : String} (hs : '\n' ∉ s.toList) (hconfig : config ≠ "")
    (hfile : Store.loadSettings disk config = .ok (Settings.parse text))
    (htext : text = "max_steps = " ++ s ∨ text = "max_steps = " ++ s ++ "\n") :
    Arrives disk now ids watch path g (lineBound? s.toList)
      (execute disk now ids watch ["run", path, "--config", config]) := by
  have hparse := parse_run hpath (show Valued.ofWord? "--config" = some .config from rfl) config
  have hget (name : String) : (Settings.parse text).get? name =
      if name = "max_steps" then some (String.ofList (Settings.trim s.toList)) else none := by
    have hline : text.toList = "max_steps".toList ++ ' ' :: '=' :: ' ' :: s.toList ∨
        text.toList = "max_steps".toList ++ ' ' :: '=' :: ' ' :: s.toList ++ ['\n'] := by
      rcases htext with rfl | rfl
      · exact .inl (by simp)
      · exact .inr (by simp)
    rw [Settings.get?_parse_of_line (by simp) (by simp; decide) hs hline, String.ofList_toList]
  let o : Options := { command := "run", graphPath := path, configPath := config }
  have hsettings : o.settings disk = .ok (Settings.parse text) := by
    rw [Options.settings, if_neg hconfig]
    exact hfile
  have hother : ∀ name ≠ "max_steps", (Settings.parse text).get? name = none :=
    fun name hname => (hget name).trans (if_neg hname)
  have hlimits : Settles (limits o (Settings.parse text)) (lineBound? s.toList) :=
    settles_setting rfl (hget "max_steps") hother
  have hsettled : Arrives disk now ids watch path g (lineBound? s.toList)
      (conclude (limits o (Settings.parse text) >>= launch g true)
        (Shell.opened disk now ids watch path)) :=
    hlimits.arrives
  rw [← conclude_perform (o := o) rfl rfl hpath.named rfl rfl hsettings hother hg] at hsettled
  rw [execute_eq]
  unfold carryOut
  rw [hparse, Options.assign]
  exact hsettled

/-- Two command lines that run a graph, one with a text for an argument and the other with the same
text for a setting. Each is refused before any node is run, or it runs the graph with the number of
steps that the text stands for there. That is the same in both places unless the text begins with a
number that is not negative, and something else than blanks stands behind it. -/
theorem arrives_execute (hpath : Ordinary path) (hg : (opened disk ids path).result = .ok g)
    {s config text : String} (hs : '\n' ∉ s.toList) (hconfig : config ≠ "")
    (hfile : Store.loadSettings disk config = .ok (Settings.parse text))
    (htext : text = "max_steps = " ++ s ∨ text = "max_steps = " ++ s ++ "\n") :
    Arrives disk now ids watch path g (wordBound? s.toList)
      (execute disk now ids watch ["run", path, "--max-steps", s]) ∧
    Arrives disk now ids watch path g (lineBound? s.toList)
      (execute disk now ids watch ["run", path, "--config", config]) ∧
    (wordBound? s.toList = lineBound? s.toList ↔ ∀ n rest,
      Numeral.read s.toList = .ok (n, rest) → 0 ≤ n → ∀ c ∈ rest, Settings.isTail c = true) :=
  ⟨arrives_argument hpath hg s, arrives_setting hpath hg hs hconfig hfile htext,
    wordBound?_eq_lineBound?_iff s.toList⟩

/-- A path with no `@` in front is read as it is. -/
theorem loadSettings_of_read (hpath : path.toList.head? ≠ some '@') {text : String}
    (hread : disk.read? path = some text) :
    Store.loadSettings disk path = .ok (Settings.parse text) := by
  unfold Store.loadSettings
  split
  · next rest hrest => exact absurd (congrArg List.head? hrest) hpath
  · dsimp only
    rw [hread]

namespace OneNode

/-- A graph of one node, at which a run begins. -/
def graph : String :=
  "\x7b\"main_node_id\":\"s\",\"nodes\":[\x7b\"id\":\"s\",\"type\":\"start\"\x7d]\x7d"

/-- A disk with the graph, and a setting for the number of steps. -/
def files (steps : String) : Store.Disk where
  files := (Dict.empty.insert "f" (.text ("max_steps = " ++ steps))).insert "g" (.text graph)

theorem ordinary : Ordinary "g" := ⟨by decide, rfl, by decide, by decide⟩

theorem exists_graph : ∀ s ∈ ["2", "2x"], ∃ g, (opened (files s) {} "g").result = .ok g := by
  have hread : ∀ s ∈ ["2", "2x"], (opened (files s) {} "g").result.toOption.isSome = true := by
    decide +kernel
  intro s hs
  cases hresult : (opened (files s) {} "g").result with
  | ok g => exact ⟨g, rfl⟩
  | error e =>
    have hnone := hread s hs
    rw [hresult] at hnone
    cases hnone

theorem loadSettings_files : ∀ s ∈ ["2", "2x"],
    Store.loadSettings (files s) "f" = .ok (Settings.parse ("max_steps = " ++ s)) := by
  have hread : ∀ s ∈ ["2", "2x"], (files s).read? "f" = some ("max_steps = " ++ s) := by
    decide +kernel
  exact fun s hs => loadSettings_of_read (by decide) (hread s hs)

/-- What running the graph comes to, with a text for an argument and with it for a setting. -/
def byArgument (s : String) : Outcome :=
  execute (files s) ⟨0⟩ {} (fun _ => 0) ["run", "g", "--max-steps", s]

@[inherit_doc byArgument]
def bySetting (s : String) : Outcome :=
  execute (files s) ⟨0⟩ {} (fun _ => 0) ["run", "g", "--config", "f"]

end OneNode

/-- Two steps are two steps in both places. -/
theorem arrives_execute_oneNode : ∃ g, (opened (OneNode.files "2") {} "g").result = .ok g ∧
    Arrives (OneNode.files "2") ⟨0⟩ {} (fun _ => 0) "g" g (some 2) (OneNode.byArgument "2") ∧
    Arrives (OneNode.files "2") ⟨0⟩ {} (fun _ => 0) "g" g (some 2) (OneNode.bySetting "2") := by
  obtain ⟨g, hg⟩ := OneNode.exists_graph "2" (by simp)
  have hword : wordBound? "2".toList = some 2 := by decide +kernel
  have hline : lineBound? "2".toList = some 2 := by decide +kernel
  have hboth : Arrives (OneNode.files "2") ⟨0⟩ {} (fun _ => 0) "g" g (wordBound? "2".toList)
        (OneNode.byArgument "2") ∧
      Arrives (OneNode.files "2") ⟨0⟩ {} (fun _ => 0) "g" g (lineBound? "2".toList)
        (OneNode.bySetting "2") ∧ _ :=
    arrives_execute OneNode.ordinary hg (by decide) (by decide)
      (OneNode.loadSettings_files "2" (by simp)) (.inl rfl)
  rw [hword, hline] at hboth
  exact ⟨g, hg, hboth.1, hboth.2.1⟩

/-- Not every text is taken for the same in both places. A letter behind a number is overlooked in
an argument, and the graph is run; in a setting it is complained about. -/
theorem not_forall_arrives : ¬ ∀ (disk : Store.Disk) (now : Timestamp) (ids : IdSupply)
    (watch : Run.Stopwatch) (path : String) (g : Graph) (s config text : String),
    Ordinary path → (opened disk ids path).result = .ok g → '\n' ∉ s.toList → config ≠ "" →
    Store.loadSettings disk config = .ok (Settings.parse text) → text = "max_steps = " ++ s →
    let argument := execute disk now ids watch ["run", path, "--max-steps", s]
    let setting := execute disk now ids watch ["run", path, "--config", config]
    argument.failure.isSome ∧ setting.failure.isSome ∨
      ∃ k, Arrives disk now ids watch path g (some k) argument ∧
        Arrives disk now ids watch path g (some k) setting := by
  intro h
  obtain ⟨g, hg⟩ := OneNode.exists_graph "2x" (by simp)
  have hargument : (OneNode.byArgument "2x").failure = none := by decide +kernel
  have hsetting : (OneNode.bySetting "2x").failure =
      some (.settings (.notInteger "max_steps" "2x")) := by decide +kernel
  rcases h (OneNode.files "2x") ⟨0⟩ {} (fun _ => 0) "g" g "2x" "f" _ OneNode.ordinary hg (by decide)
    (by decide) (OneNode.loadSettings_files "2x" (by simp)) rfl with ⟨hfail, -⟩ | ⟨k, -, hlaunched⟩
  · change (OneNode.byArgument "2x").failure.isSome = true at hfail
    rw [hargument] at hfail
    cases hfail
  · obtain ⟨r, hr⟩ := hlaunched.isSome_iff.1 rfl _ hsetting
    cases hr

end

end Patchbay.CommandLine
