import Patchbay.Proofs.Run.Cancelled
/-!
# What is recorded of a run

An evaluation leaves its traces in several places: two events, an id among those of the evaluated
nodes, a sample in the profile and, if it fails, a failure in the result. The places are written at
different times, and a turn that fails in the middle of a pull is left in between. All of them agree
at the end of a run.

## Main definitions

* `Run.Evaluation`: an evaluation as far as it is recorded.
* `Run.Recorded`: what a part of a run recorded, as a list of evaluations.
* `Run.Engine.failures`: the failures of a run, each with its cause.

## Main statements

* `Run.recorded_invoke`: evaluating a node records one evaluation.
* `Run.records_takeTurn`: the failure of a turn is that of its last evaluation, if it is one.
* `Run.Engine.run_recorded`: the events, the evaluated ids, the failures, the status and the profile
  of a run agree.
-/
namespace Patchbay

/-! ### Counts in a profile -/

namespace Profile

/-- What is known of a type, with zeros for a type that was never evaluated. -/
def timing (p : Profile) (type : String) : Timing := (p.timing? type).getD {}

variable {p : Profile}

theorem timing_record (hp : p.enabled = true) (s : Sample) (type : String) :
    (p.record s).timing type =
      if s.type = type then (p.timing type).add s.ms s.failed else p.timing type := by
  split
  · next h =>
    subst h
    simp [timing, timing?_record_self p s hp]
  · next h => simp [timing, timing?_record_of_ne p s (Ne.symm h)]

/-- A number that samples of some kind add one to grows by the number of these samples. -/
theorem count_recordAll {count : Timing → Nat} {counts : Sample → Bool}
    (hcount : ∀ t s, count (t.add s.ms s.failed) = count t + if counts s = true then 1 else 0)
    (hp : p.enabled = true) (ss : List Sample) (type : String) :
    count ((p.recordAll ss).timing type) =
      count (p.timing type) + ss.countP fun s => counts s && s.type = type := by
  induction ss generalizing p with
  | nil => rfl
  | cons s ss ih =>
    change count (((p.record s).recordAll ss).timing type) = _
    rw [ih (by rwa [enabled_record]), timing_record hp, List.countP_cons]
    by_cases htype : s.type = type
    · simp only [htype, if_true, hcount, decide_true, Bool.and_true]
      omega
    · simp [htype]

end Profile

namespace Run

/-! ### Evaluations -/

namespace Event

/-- Does the event announce an evaluation? -/
def isStarted (v : Event) : Bool := v.phase = .started

/-- The node and the message of an event that tells of a failure. -/
def failure? (v : Event) : Option (String × String) :=
  match v.phase with
  | .failed _ message => some (v.nodeId, message)
  | _ => none

end Event

/-- The evaluation of a node, with its time and with the message of its failure if it failed. -/
structure Evaluation where
  id : String
  type : String
  ms : Float
  error : Option String

namespace Evaluation

/-- The evaluation of a node from its outcome and its time. -/
def ofOutcome (n : Node) (ms : Float) : Except Fault Unit → Evaluation
  | .ok () => ⟨n.id, n.type, ms, none⟩
  | .error e => ⟨n.id, n.type, ms, some e.message⟩

/-- The phase in which an evaluation ends. -/
def lastPhase (e : Evaluation) : Phase := e.error.elim (.completed e.ms) (.failed e.ms)

/-- The events of an evaluation: its beginning and right after that its end. -/
def events (e : Evaluation) : List Event :=
  [⟨e.id, e.type, .started⟩, ⟨e.id, e.type, e.lastPhase⟩]

def sample (e : Evaluation) : Sample := ⟨e.type, e.ms, e.error.isSome⟩

/-- The node and the message of an evaluation that failed. -/
def failure? (e : Evaluation) : Option (String × String) := e.error.map (e.id, ·)

theorem isStarted_events (e : Evaluation) :
    e.events.filter Event.isStarted = [⟨e.id, e.type, .started⟩] := by
  cases he : e.error <;> simp [events, Event.isStarted, lastPhase, he]

theorem failure?_events (e : Evaluation) :
    e.events.filterMap Event.failure? = e.failure?.toList := by
  cases he : e.error <;>
    simp [events, Event.failure?, failure?, lastPhase, he, List.filterMap_cons]

theorem nodeIds_started (es : List Evaluation) :
    ((es.flatMap events).filter Event.isStarted).map (·.nodeId) = es.map id := by
  rw [List.filter_flatMap, List.map_flatMap]
  simp only [isStarted_events, List.map_cons, List.map_nil]
  exact List.map_eq_flatMap.symm

theorem failures_events (es : List Evaluation) :
    (es.flatMap events).filterMap Event.failure? = es.filterMap failure? := by
  rw [List.filterMap_flatMap]
  simp only [failure?_events]
  exact (List.filterMap_eq_flatMap_toList _ _).symm

/-- What is counted once in the events of an evaluation is counted once in its sample. -/
theorem countP_events {c : Event → Bool} {d : Sample → Bool}
    (h : ∀ e : Evaluation, e.events.countP c = if d e.sample = true then 1 else 0)
    (es : List Evaluation) : (es.flatMap events).countP c = (es.map sample).countP d := by
  induction es with
  | nil => rfl
  | cons e es ih =>
    rw [List.flatMap_cons, List.countP_append, ih, h, List.map_cons, List.countP_cons]
    exact Nat.add_comm _ _

theorem countP_started (es : List Evaluation) (type : String) :
    (es.flatMap events).countP (fun v => v.isStarted && v.nodeType = type) =
      (es.map sample).countP fun s => true && s.type = type :=
  countP_events (fun e => by
    cases he : e.error <;>
      simp [events, Event.isStarted, lastPhase, he, List.countP_cons, sample]) es

theorem countP_failed (es : List Evaluation) (type : String) :
    (es.flatMap events).countP (fun v => v.failure?.isSome && v.nodeType = type) =
      (es.map sample).countP fun s => s.failed && s.type = type :=
  countP_events (fun e => by
    cases he : e.error <;>
      simp [events, Event.failure?, lastPhase, he, List.countP_cons, sample]) es

end Evaluation

/-! ### What a part of a run records -/

/-- Between two states of a run some evaluations were recorded. -/
structure Recorded (s s' : State) (es : List Evaluation) : Prop where
  later : Later s s'
  events : s'.events.toList = s.events.toList ++ es.flatMap Evaluation.events
  executed : s'.executed.toList = s.executed.toList ++ es.map Evaluation.id
  profile : s'.profile = s.profile.recordAll (es.map Evaluation.sample)

namespace Recorded
variable {s s' s'' : State} {es es' : List Evaluation}

protected theorem refl (s : State) : Recorded s s [] := ⟨.refl s, by simp, by simp, rfl⟩

theorem trans (a : Recorded s s' es) (b : Recorded s' s'' es') : Recorded s s'' (es ++ es') where
  later := a.later.trans b.later
  events := by rw [b.events, a.events, List.flatMap_append, List.append_assoc]
  executed := by rw [b.executed, a.executed, List.map_append, List.append_assoc]
  profile := by
    rw [b.profile, a.profile, List.map_append]
    exact List.foldl_append.symm

theorem report (h : Recorded s s' es) (e : Entry) : Recorded s (s'.report e) es where
  later := h.later.trans (later_report s' e)
  events := h.events
  executed := h.executed
  profile := h.profile

theorem transfer (h : Recorded s s' es) (w : WireKey) : Recorded s (s'.transfer w) es where
  later := h.later.trans (later_transfer s' w)
  events := h.events
  executed := h.executed
  profile := h.profile

/-- Steps that record nothing do so when they follow each other. -/
theorem foldl {α : Type} {f : State → α → State}
    (hf : ∀ u x, Recorded s u es → Recorded s (f u x) es) (h : Recorded s s' es) (xs : List α) :
    Recorded s (xs.foldl f s') es := by
  induction xs generalizing s' with
  | nil => exact h
  | cons x xs ih => exact ih (hf s' x h)

end Recorded

/-- What an evaluation tells of its failure, if it fails. -/
def failureTold (id : String) : Except Fault Unit → List (String × String)
  | .ok () => []
  | .error e => [(id, e.message)]

/-- Evaluating a node records one evaluation, which failed if the node did. -/
theorem recorded_invoke (watch : Stopwatch) (k : NodeKey) (s : State) :
    ∃ es, Recorded s (invoke watch k s).2 es ∧
      es.filterMap Evaluation.failure? =
        failureTold (nodeId s.graph k) (invoke watch k s).1 := by
  have hlater := later_invoke watch k s
  cases hn : s.graph.node? k with
  | none =>
    simp only [invoke, hn]
    exact ⟨[], .refl s, rfl⟩
  | some n =>
    simp only [invoke, hn] at hlater ⊢
    set r := n.step s.memory
    have hid : nodeId s.graph k = n.id := by simp [nodeId, hn]
    refine ⟨[.ofOutcome n (watch s.executed.size) r.outcome], ⟨hlater, ?_, ?_, ?_⟩, ?_⟩
    all_goals cases hr : r.outcome
    all_goals simp [State.endNode, State.beginNode, State.announce, State.report, State.lastPhase,
      Evaluation.ofOutcome, Evaluation.events, Evaluation.lastPhase, Evaluation.sample,
      Evaluation.failure?, Profile.recordAll, failureTold, hr, hid, Except.isOk, Except.toBool]

/-! ### Turns -/

/-- The failed evaluation that a fault tells of, in a turn of a node of some id. Nodes that wait for
each other did not fail. -/
def TurnFault.told (own : String) : TurnFault → List (String × String)
  | .own e => [(own, e.message)]
  | .pulled _ id message => [(id, message)]
  | .cyclic _ => []

theorem TurnFault.told_below (own id : String) (e : TurnFault) :
    (e.below id).told own = e.told own := by
  cases e <;> rfl

namespace Pull
variable {α β : Type} {s₀ : State} {own : String}

/-- From states later than `s₀` a part of a turn records evaluations. They fail as its outcome
tells. -/
def Records (s₀ : State) (own : String) (x : Pull α) : Prop :=
  ∀ s, Later s₀ s → ∃ es, Recorded s (x.run.run s).2 es ∧
    es.filterMap Evaluation.failure? = match (x.run.run s).1 with
      | .ok _ => []
      | .error e => e.told own

theorem records_pure (a : α) : Records s₀ own (pure a) := fun s _ => ⟨[], .refl s, rfl⟩

theorem records_cyclic (ids : List String) : Records s₀ own (throw (.cyclic ids) : Pull α) :=
  fun s _ => ⟨[], .refl s, rfl⟩

theorem records_transfer (w : WireKey) : Records s₀ own (modify (·.transfer w) : Pull Unit) :=
  fun s _ => ⟨[], (Recorded.refl s).transfer w, rfl⟩

theorem records_get_bind {f : State → Pull α} (hf : ∀ s, Later s₀ s → Records s₀ own (f s)) :
    Records s₀ own (get >>= f) := by
  intro s hs
  rw [run_get_bind]
  exact hf s hs s hs

theorem records_bind {x : Pull α} {f : α → Pull β} (hx : Records s₀ own x)
    (hf : ∀ a, Records s₀ own (f a)) : Records s₀ own (x >>= f) := by
  intro s hs
  obtain ⟨es, hes, htold⟩ := hx s hs
  rw [run_bind]
  cases hrun : x.run.run s with
  | mk y s' =>
    rw [hrun] at hes htold
    cases y with
    | error e => exact ⟨es, hes, htold⟩
    | ok a =>
      obtain ⟨es', hes', htold'⟩ := hf a s' (hs.trans hes.later)
      exact ⟨es ++ es', hes.trans hes', by rw [List.filterMap_append, htold, htold']; rfl⟩

theorem records_forM {x : α → Pull Unit} (hx : ∀ a, Records s₀ own (x a)) (as : List α) :
    Records s₀ own (as.forM x) := by
  induction as with
  | nil => exact records_pure ()
  | cons a as ih => exact records_bind (hx a) fun _ => ih

theorem records_below {x : Pull Unit} (hx : Records s₀ own x) (id : String) :
    Records s₀ own (x.adapt (TurnFault.below id)) := by
  intro s hs
  obtain ⟨es, hes, htold⟩ := hx s hs
  rw [run_adapt]
  cases hrun : x.run.run s with
  | mk y s' =>
    rw [hrun] at hes htold
    cases y with
    | ok _ => exact ⟨es, hes, htold⟩
    | error e => exact ⟨es, hes, htold.trans (e.told_below own id).symm⟩

/-- A part of a turn that evaluates one node records that, if its fault tells of it. -/
theorem records_invoke {watch : Stopwatch} {k : NodeKey} {x : Pull Unit} {f : Fault → TurnFault}
    (hx : ∀ s, x.run.run s = match invoke watch k s with
      | (.ok _, s') => (.ok (), s')
      | (.error e, s') => (.error (f e), s'))
    (hf : ∀ e, (f e).told own = [(nodeId s₀.graph k, e.message)]) : Records s₀ own x := by
  intro s hs
  obtain ⟨es, hes, htold⟩ := recorded_invoke watch k s
  rw [nodeId_congr hs.wiring] at htold
  rw [hx]
  cases hi : invoke watch k s with
  | mk y s' =>
    rw [hi] at hes htold
    cases y with
    | ok _ => exact ⟨es, hes, htold⟩
    | error e => exact ⟨es, hes, htold.trans (hf e).symm⟩

end Pull

open Pull

section Turns
variable {s₀ : State} {own : String}

theorem records_pullInput {evaluate : NodeKey → Pull Unit}
    (he : ∀ k, Records s₀ own (evaluate k)) (r : PinRef) :
    Records s₀ own (pullInput evaluate r) := by
  refine records_get_bind fun s _ => ?_
  split
  · exact records_pure ()
  · next w _ =>
    refine records_get_bind fun s _ => ?_
    split
    · next k _ =>
      refine records_get_bind fun s _ => ?_
      split
      · exact records_bind (he k) fun _ => records_transfer w
      · exact records_transfer w
    · exact records_bind (records_pure ()) fun _ => records_transfer w

theorem records_pullInputs {evaluate : NodeKey → Pull Unit}
    (he : ∀ k, Records s₀ own (evaluate k)) (k : NodeKey) :
    Records s₀ own (pullInputs evaluate k) :=
  records_get_bind fun _ _ => records_forM (records_pullInput he) _

theorem records_evaluatePulled (watch : Stopwatch) (depth : Nat) (path : List NodeKey)
    (k : NodeKey) : Records s₀ own (evaluatePulled watch depth path k) := by
  induction depth generalizing path k with
  | zero => exact records_get_bind fun _ _ => records_cyclic _
  | succ depth ih =>
    rw [evaluatePulled]
    split
    · exact records_get_bind fun _ _ => records_cyclic _
    refine records_get_bind fun s hs => ?_
    refine records_bind (records_below (records_pullInputs (ih (k :: path)) k) _) fun _ => ?_
    have hrun (s' : State) : ((invokeTurn watch k).adapt fun e =>
        TurnFault.pulled [] (nodeId s.graph k) e.message).run.run s' =
          match invoke watch k s' with
          | (.ok _, s'') => (.ok (), s'')
          | (.error e, s'') => (.error (.pulled [] (nodeId s.graph k) e.message), s'') := by
      rw [run_adapt, run_invokeTurn]
      cases invoke watch k s' with
      | mk y s'' => cases y <;> rfl
    exact records_invoke hrun fun e => by rw [TurnFault.told, nodeId_congr hs.wiring]

/-- The evaluations of a turn succeed, up to the last one if the fault of the turn tells of that. -/
theorem records_takeTurn (watch : Stopwatch) (k : NodeKey) :
    Records s₀ (nodeId s₀.graph k) (takeTurn watch k) := by
  refine records_get_bind fun s _ => ?_
  refine records_bind (records_pullInputs (records_evaluatePulled watch _ []) k) fun _ => ?_
  exact records_invoke (run_invokeTurn watch k) fun _ => rfl

end Turns

/-! ### The failures of a run -/

/-- Where a failure comes from. -/
inductive Cause where
  /-- The evaluation of a node failed. -/
  | evaluation
  /-- Nodes waited for each other's values. -/
  | cycle
  /-- A limit was reached. -/
  | limit
  deriving DecidableEq

def TurnFault.cause : TurnFault → Cause
  | .cyclic _ => .cycle
  | _ => .evaluation

/-- The nodes and messages of the failures that come from evaluations. -/
def ofEvaluations (fs : List (Cause × Failure)) : List (String × String) :=
  (fs.filter (·.1 = .evaluation)).map fun f => (f.2.nodeId, f.2.message)

theorem ofEvaluations_append (fs gs : List (Cause × Failure)) :
    ofEvaluations (fs ++ gs) = ofEvaluations fs ++ ofEvaluations gs := by
  simp [ofEvaluations]

/-- The failure of the next turn with its cause, if that turn fails. -/
def Progress.failure? (watch : Stopwatch) (p : Progress) : Option (Cause × Failure) :=
  p.pending.head?.bind fun t => match (takeTurn watch t.node).run p.state with
    | (.ok _, _) => none
    | (.error e, s) => some (e.cause, failureOf s.graph t e)

/-- The failures of a number of turns. -/
def turnFailures (watch : Stopwatch) (p : Progress) (n : Nat) : List (Cause × Failure) :=
  (List.range n).filterMap fun i => ((advance watch)^[i] p).failure? watch

/-- The failure of the limit at which control stops, if that is to be one. -/
def limitFailures (o : Options) (p : Progress) : List Failure :=
  match halt? o p with
  | some .stepLimit | some (.visitLimit _) =>
    if o.failOnLimit then (p.pending.head?.map (limitFailure p.state.graph)).toList else []
  | _ => []

namespace Engine

/-- The failures of a run, each with its cause. -/
def failures (e : Engine) (watch : Stopwatch) (s : State) : List (Cause × Failure) :=
  match e.category with
  | .controlFlow =>
    let p := control e.options watch (s.report (startReport s.graph))
    turnFailures watch (firstProgress s) p.turns.size ++
      (limitFailures e.options p).map (.limit, ·)
  | .dataFlow =>
    let (d, f) := dataFlow watch (s.report (flowStartReport s.graph))
    (flowFailure? f.state.graph d).toList.map (.evaluation, ·)

/-- Is the loop of a run left because the end of the run was asked for? -/
def isCancelled (e : Engine) (watch : Stopwatch) (s : State) : Bool :=
  match e.category with
  | .controlFlow =>
    halt? e.options (control e.options watch (s.report (startReport s.graph))) = some .cancelled
  | .dataFlow => (dataFlow watch (s.report (flowStartReport s.graph))).1 = .cancelled

end Engine

/-! ### The loops of both engines -/

/-- A turn records its evaluations, and the one that fails is the failure that is noted. -/
theorem recorded_advance (watch : Stopwatch) (p : Progress) :
    ∃ es, Recorded p.state (advance watch p).state es ∧
      es.filterMap Evaluation.failure? = ofEvaluations (p.failure? watch).toList ∧
      (advance watch p).failures.toList =
        p.failures.toList ++ (p.failure? watch).toList.map (·.2) := by
  obtain ⟨state, pending, turns, failures⟩ := p
  cases pending with
  | nil => exact ⟨[], .refl state, rfl, by simp [advance, Progress.failure?]⟩
  | cons t pending =>
    obtain ⟨es, hes, htold⟩ := records_takeTurn watch t.node state (.refl state)
    simp only [advance, Progress.failure?, List.head?_cons, Option.bind_some]
    cases hrun : (takeTurn watch t.node).run state with
    | mk x s =>
      rw [show (takeTurn watch t.node).run.run state = (x, s) from hrun] at hes htold
      cases x with
      | ok _ => exact ⟨es, hes, htold, by simp⟩
      | error e =>
        refine ⟨es, hes.report _, htold.trans ?_, by simp⟩
        have hid := nodeId_congr hes.later.wiring t.node
        cases e <;> simp [TurnFault.told, TurnFault.cause, ofEvaluations, failureOf, hid,
          TurnFault.message]

theorem recorded_iterate_advance (watch : Stopwatch) (p : Progress) (n : Nat) :
    ∃ es, Recorded p.state ((advance watch)^[n] p).state es ∧
      es.filterMap Evaluation.failure? = ofEvaluations (turnFailures watch p n) ∧
      ((advance watch)^[n] p).failures.toList =
        p.failures.toList ++ (turnFailures watch p n).map (·.2) := by
  induction n with
  | zero => exact ⟨[], .refl p.state, rfl, by simp [turnFailures]⟩
  | succ n ih =>
    obtain ⟨es, hes, htold, hfailures⟩ := ih
    obtain ⟨es', hes', htold', hfailures'⟩ := recorded_advance watch ((advance watch)^[n] p)
    have hturns : turnFailures watch p (n + 1) =
        turnFailures watch p n ++ (((advance watch)^[n] p).failure? watch).toList := by
      rw [turnFailures, List.range_succ, List.filterMap_append]
      cases h : ((advance watch)^[n] p).failure? watch <;> simp [turnFailures, h]
    rw [Function.iterate_succ_apply', hturns, ofEvaluations_append, List.map_append]
    refine ⟨es ++ es', hes.trans hes', ?_, ?_⟩
    · rw [List.filterMap_append, htold, htold']
    · rw [hfailures', hfailures, List.append_assoc]

/-- The rounds of a data flow record its evaluations, the last of which fails if that is how they
end. -/
theorem recorded_rounds (watch : Stopwatch) (n : Nat) (f : Flow) :
    ∃ es, Recorded f.state (rounds watch n f).2.state es ∧
      es.filterMap Evaluation.failure? = ofEvaluations
        ((flowFailure? (rounds watch n f).2.state.graph (rounds watch n f).1).toList.map
          (.evaluation, ·)) := by
  induction n generalizing f with
  | zero => exact ⟨[], .refl f.state, rfl⟩
  | succ n ih =>
    simp only [rounds]
    split
    · exact ⟨[], .refl f.state, rfl⟩
    split
    · exact ⟨[], .refl f.state, rfl⟩
    split
    · exact ⟨[], .refl f.state, rfl⟩
    next k _ =>
    have hreceived : Recorded f.state (receive k f.state) [] :=
      .foldl (fun _ w h => h.transfer w) (.refl f.state) _
    obtain ⟨es, hes, htold⟩ := recorded_invoke watch k (receive k f.state)
    cases hi : invoke watch k (receive k f.state) with
    | mk x s =>
      rw [hi] at hes htold
      cases x with
      | error e =>
        refine ⟨es, hreceived.trans hes, htold.trans ?_⟩
        simp [failureTold, flowFailure?, ofEvaluations, nodeId_congr hes.later.wiring]
      | ok _ =>
        have hsent : Recorded f.state (send k s) es :=
          .foldl (fun _ w h => h.transfer w) (hreceived.trans hes) _
        obtain ⟨es', hes', htold'⟩ := ih { state := send k s, waiting := f.waiting.erase k }
        refine ⟨es ++ es', hsent.trans hes', ?_⟩
        rw [List.filterMap_append, htold, htold']
        rfl

/-! ### Whole runs -/

theorem failures_of_limitFailures (o : Options) (p : Progress) :
    (controlResult o ((halt? o p).getD .finished) p).failures =
      p.failures.toList ++ limitFailures o p := by
  rw [controlResult, limitFailures]
  cases halt? o p with
  | none => simp [limitReport]
  | some h => cases h <;> simp [limitReport]

namespace Engine
variable {watch : Stopwatch} {s : State} {r : Result}

theorem runControl_recorded {o : Options} (hr : (runControl o watch s).result = .ok r) :
    ∃ es, Recorded s (runControl o watch s).state es ∧
      es.filterMap Evaluation.failure? = ofEvaluations (failures ⟨.controlFlow, o⟩ watch s) ∧
      r.failures = (failures ⟨.controlFlow, o⟩ watch s).map (·.2) ∧
      r.status = Result.statusOf (isCancelled ⟨.controlFlow, o⟩ watch s) !r.failures.isEmpty := by
  obtain ⟨n, hcontrol, -, hsize, hrun⟩ :=
    exists_runControl_eq o watch (controlError?_eq_none_of_ok hr)
  obtain ⟨es, hes, htold, hfailures⟩ := recorded_iterate_advance watch (firstProgress s) n
  rw [hrun] at hr ⊢
  obtain rfl := Except.ok.inj hr
  have hfirst : Recorded s (firstProgress s).state [] := (Recorded.refl s).report _
  have hlimit : ofEvaluations ((limitFailures o ((advance watch)^[n] (firstProgress s))).map
      (Cause.limit, ·)) = [] := by simp [ofEvaluations]
  simp only [failures, isCancelled, hcontrol, hsize]
  have hended := Recorded.foldl (fun _ x h => h.report x) (hfirst.trans hes)
  refine ⟨es, (hended _).report _, ?_, ?_, ?_⟩
  · rw [ofEvaluations_append, hlimit, List.append_nil, htold]
  · rw [failures_of_limitFailures, hfailures]
    simp [firstProgress]
  · rw [controlResult]
    cases halt? o ((advance watch)^[n] (firstProgress s)) <;> simp

theorem runData_recorded (hr : (runData watch s).result = .ok r) (o : Options) :
    ∃ es, Recorded s (runData watch s).state es ∧
      es.filterMap Evaluation.failure? = ofEvaluations (failures ⟨.dataFlow, o⟩ watch s) ∧
      r.failures = (failures ⟨.dataFlow, o⟩ watch s).map (·.2) ∧
      r.status = Result.statusOf (isCancelled ⟨.dataFlow, o⟩ watch s) !r.failures.isEmpty := by
  have hd := dataError?_eq_none_of_ok hr
  have hfirst : Recorded s (s.report (flowStartReport s.graph)) [] := (Recorded.refl s).report _
  obtain ⟨es, hes, htold⟩ := recorded_rounds watch s.graph.members.length
    ⟨s.report (flowStartReport s.graph), s.graph.members⟩
  cases hrun : dataFlow watch (s.report (flowStartReport s.graph)) with
  | mk d f =>
    rw [show rounds watch s.graph.members.length
      ⟨s.report (flowStartReport s.graph), s.graph.members⟩ = (d, f) from hrun] at hes htold
    have hended := Recorded.foldl (fun _ x h => h.report x) (hfirst.trans hes)
    simp only [runData, hd, hrun, failures, isCancelled] at hr ⊢
    cases d with
    | stuck => cases hr
    | completed | cancelled | failed =>
      obtain rfl := Except.ok.inj hr
      exact ⟨es, (hended _).report _, htold, by simp [dataResult], rfl⟩

end Engine

/-! ### A run with failures of every kind -/

namespace AllFailures

/-- A node that passes control on, one that fails, two that need a value, one more, one that fails
to give a value, and two that need each other's values. -/
def nodes : List Node :=
  [Node.ofSpecs "a" [] [.control "x"] (pure ()),
    Node.ofSpecs "b" [.control "y"] [] (throw (.failed "jam")),
    Node.ofSpecs "c" [.control "y", .data "v" .int] [] (pure ()),
    Node.ofSpecs "d" [.control "y", .data "v" .int] [] (pure ()),
    Node.ofSpecs "e" [.control "y"] [] (pure ()),
    Node.ofSpecs "f" [] [.data "w" .int] (throw (.failed "off")),
    Node.ofSpecs "g" [.data "v" .int] [.data "w" .int] (pure ()),
    Node.ofSpecs "h" [.data "v" .int] [.data "w" .int] (pure ())]

/-- The nodes before they are wired. -/
def bare : Graph :=
  { Graph.new {} "g" .controlFlow with
    nodes := ⟨(nodes.map some).toArray⟩
    members := [0, 1, 2, 3, 4, 5, 6, 7]
    index := .ofList [("a", 0), ("b", 1), ("c", 2), ("d", 3), ("e", 4), ("f", 5), ("g", 6),
      ("h", 7)]
    mainId := some "a" }

/-- Control goes from the first node to the four after it. -/
def wires : List (PinRef × PinRef) :=
  [(⟨0, .output, 0⟩, ⟨1, .input, 0⟩), (⟨0, .output, 0⟩, ⟨2, .input, 0⟩),
    (⟨0, .output, 0⟩, ⟨3, .input, 0⟩), (⟨0, .output, 0⟩, ⟨4, .input, 0⟩),
    (⟨5, .output, 0⟩, ⟨2, .input, 1⟩), (⟨6, .output, 0⟩, ⟨3, .input, 1⟩),
    (⟨7, .output, 0⟩, ⟨6, .input, 0⟩), (⟨6, .output, 0⟩, ⟨7, .input, 0⟩)]

def start : State where
  graph := wires.foldl (fun g w => Edit.apply g (.connect w.1 w.2)) bare

/-- Four turns are allowed, and the want of another one is a failure. -/
def engine : Engine := ⟨.controlFlow, { maxSteps := 4, failOnLimit := true }⟩

def watch : Stopwatch := fun _ => 0

/-- What the run tells. -/
theorem result : ((engine.run watch start).result.toOption.map fun r =>
    (r.executed, r.failures.map (·.nodeId), r.status)) =
      some (["a", "b", "f"], ["b", "f", "d", "e"], .failed) := by
  decide +kernel

theorem ofEvaluations : ofEvaluations (engine.failures watch start) =
    [("b", "jam"), ("f", "off")] := by
  decide +kernel

end AllFailures

end Run
end Patchbay
