import Patchbay.Proofs.Run.Nesting
import Patchbay.Run.Engine
/-!
# The wish to end a run

The end of a run is asked for before it or by a node that is evaluated. From then on nothing may be
evaluated, so that the evaluated nodes end with the one that asked. A data flow looks for the wish
before each of its nodes. Control looks for it before each turn only: it keeps to the wish of the
node of a turn, but a pulled node that asks is followed by the other nodes of its turn.

## Main definitions

* `Node.NeverCancels`: a node that never asks for the end of a run.
* `Run.Heeds`: nothing is evaluated once the end was asked for.

## Main statements

* `Run.Heeds.exists_request`: the evaluated nodes end with the one that asked for the end.
* `Run.Engine.run_heeds`: a data flow heeds the wish, and so does control if no pulled node asks.
* `Run.not_forall_heeds_run`: a node is evaluated although a node that it pulled asked for the end.
-/
namespace Patchbay

/-- No step of a node asks for the end of the run, whatever values stand on its pins. -/
def Node.NeverCancels (n : Node) : Prop :=
  ∀ n' : Node, n'.blank = n.blank → ∀ m, (n'.step m).cancelled = false

/-- A node whose steps do nothing asks for nothing. -/
theorem Node.neverCancels_of_idle {n : Node} (h : n.behaviour = pure ()) : n.NeverCancels := by
  intro n' hlike m
  have hbehaviour : n'.blank.behaviour = n.blank.behaviour := congrArg Node.behaviour hlike
  have hidle : n'.behaviour = pure () := hbehaviour.trans h
  simp only [step, attempt, hidle]
  split <;> rfl

namespace Run

theorem Token.requested_after_eq (t : Token) (asked : Bool) :
    (t.after asked).requested = (t.requested || t.cancellable && asked) := by
  simp [Token.requested, Token.after, Bool.and_or_distrib_left]

/-- The token after a step of a node. -/
theorem token_invoke (watch : Stopwatch) {k : NodeKey} {s : State} {n : Node}
    (hn : s.graph.node? k = some n) :
    (invoke watch k s).2.token = s.token.after (n.step s.memory).cancelled := by
  simp only [invoke, hn]
  rfl

/-! ### Heeding the wish -/

/-- A run comes from a state to another one by copying values, by reports and by evaluating nodes.
It evaluates a node only as long as the end was not asked for. -/
inductive Heeds (watch : Stopwatch) (s : State) : State → Prop where
  | start : Heeds watch s s
  | copy {u : State} (h : Heeds watch s u) (w : WireKey) : Heeds watch s (u.transfer w)
  | report {u : State} (h : Heeds watch s u) (e : Entry) : Heeds watch s (u.report e)
  | evaluate {u : State} (h : Heeds watch s u) (hc : u.token.requested = false) (k : NodeKey) :
    Heeds watch s (invoke watch k u).2

namespace Heeds
variable {watch : Stopwatch} {s t u : State}

theorem trans (a : Heeds watch s t) (b : Heeds watch t u) : Heeds watch s u := by
  induction b with
  | start => exact a
  | copy _ w ih => exact ih.copy w
  | report _ e ih => exact ih.report e
  | evaluate _ hc k ih => exact ih.evaluate hc k

theorem foldl_transfer (h : Heeds watch s t) (ws : List WireKey) :
    Heeds watch s (ws.foldl State.transfer t) := by
  induction ws generalizing t with
  | nil => exact h
  | cons w ws ih => exact ih (h.copy w)

theorem foldl_report (h : Heeds watch s t) (es : List Entry) :
    Heeds watch s (es.foldl State.report t) := by
  induction es generalizing t with
  | nil => exact h
  | cons e es ih => exact ih (h.report e)

theorem later (h : Heeds watch s t) : Later s t := by
  induction h with
  | start => exact .refl s
  | copy _ w ih => exact ih.trans (later_transfer _ w)
  | report _ e ih => exact ih.trans (later_report _ e)
  | evaluate _ _ k ih => exact ih.trans (later_invoke watch k _)

/-- Nothing is evaluated if the end was asked for before. -/
theorem executed_eq (h : Heeds watch s t) (hs : s.token.requested = true) :
    t.executed = s.executed := by
  induction h with
  | start => rfl
  | copy _ _ ih => exact ih
  | report _ _ ih => exact ih
  | evaluate h hc => cases (h.later.requested hs).symm.trans hc

/-- If the end was asked for meanwhile, a node asked for it that is the last one evaluated. -/
theorem exists_request (h : Heeds watch s t) (hs : s.token.requested = false)
    (ht : t.token.requested = true) :
    ∃ u k n, Heeds watch s u ∧ u.token.requested = false ∧ u.graph.node? k = some n ∧
      (n.step u.memory).cancelled = true ∧ t.executed = u.executed.push n.id := by
  induction h with
  | start => cases hs.symm.trans ht
  | copy _ _ ih => exact ih ht
  | report _ _ ih => exact ih ht
  | @evaluate u h hc k =>
    cases hn : u.graph.node? k with
    | none =>
      simp only [invoke, hn] at ht
      cases hc.symm.trans ht
    | some n =>
      rw [token_invoke watch hn, Token.requested_after_eq, hc, Bool.false_or,
        Bool.and_eq_true] at ht
      exact ⟨u, k, n, h, hc, hn, ht.2, executed_invoke watch hn⟩

end Heeds

/-! ### Turns -/

section Turns
variable {watch : Stopwatch} {d : Nat} {s₀ s s' : State}

/-- A node that never cancels does not ask for the end. -/
theorem requested_invoke (hs : Later s₀ s) {k : NodeKey}
    (hk : ∀ n, s₀.graph.node? k = some n → n.NeverCancels) (hc : s.token.requested = false) :
    (invoke watch k s).2.token.requested = false := by
  cases hn : s.graph.node? k with
  | none => simpa only [invoke, hn] using hc
  | some n =>
    have hblank := hs.nodes k
    rw [hn, Option.map_some] at hblank
    obtain ⟨n₀, hn₀, hlike⟩ := Option.map_eq_some_iff.1 hblank.symm
    rw [token_invoke watch hn, Token.requested_after_eq, hc, hk n₀ hn₀ n hlike.symm s.memory]
    simp

/-- Pulling among nodes that never cancel heeds the wish, since none is made. -/
theorem Pulling.heeds
    (hp : ∀ k, isPulled s₀.graph k = true → ∀ n, s₀.graph.node? k = some n → n.NeverCancels)
    {path : List NodeKey} {rs : List PinRef} {x : Except TurnFault Unit}
    (h : Pulling watch d path (.inputs rs) s x s') (hs : Later s₀ s)
    (hc : s.token.requested = false) : Heeds watch s s' ∧ s'.token.requested = false := by
  have hkept : Later s₀ s' ∧ Heeds watch s s' ∧ s'.token.requested = false := by
    refine h.preserves (I := fun u => Later s₀ u ∧ Heeds watch s u ∧ u.token.requested = false)
      (R := fun _ => True) (K := fun k => isPulled s₀.graph k = true)
      (fun hu => isPulled_of_pulledSource? hu.1) (fun _ _ => trivial) ?_ ?_ ⟨hs, .start, hc⟩
      fun _ _ => trivial
    · rintro _ u - w - - - ⟨hlater, hheeds, hcu⟩
      exact ⟨hlater.trans (later_transfer u w), hheeds.copy w, hcu⟩
    · rintro u k ⟨hlater, hheeds, hcu⟩ hk
      exact ⟨hlater.trans (later_invoke watch k u), hheeds.evaluate hcu k,
        requested_invoke hlater (hp k hk) hcu⟩
  exact hkept.2

/-- A turn that pulls nodes that never cancel heeds the wish. -/
theorem Taking.heeds
    (hp : ∀ k, isPulled s₀.graph k = true → ∀ n, s₀.graph.node? k = some n → n.NeverCancels)
    {k : NodeKey} {x : Except TurnFault Unit} (h : Taking watch d k s x s') (hs : Later s₀ s)
    (hc : s.token.requested = false) : Heeds watch s s' := by
  cases h with
  | starve hin => exact (hin.heeds hp hs hc).1
  | evaluate hin hi =>
    obtain ⟨hbefore, hc₁⟩ := hin.heeds hp hs hc
    obtain rfl := congrArg Prod.snd hi
    exact hbefore.evaluate hc₁ k
  | fail hin hi =>
    obtain ⟨hbefore, hc₁⟩ := hin.heeds hp hs hc
    obtain rfl := congrArg Prod.snd hi
    exact hbefore.evaluate hc₁ k

end Turns

/-- Before every turn that a run of control took nobody had asked for the end. -/
theorem requested_of_halt? {o : Options} {p : Progress} (hp : halt? o p = none) :
    p.state.token.requested = false := by
  obtain ⟨t, ts, hts⟩ := exists_pending_of_halt? hp
  rw [← Bool.not_eq_true]
  intro hc
  cases (halt?_of_requested o hts hc).symm.trans hp

/-! ### Whole runs -/

/-- Control among data nodes that never cancel heeds the wish. -/
theorem heeds_iterate_advance {o : Options} {watch : Stopwatch} {p : Progress}
    (hg : ∀ k, p.state.graph.contains k = true → k ∈ p.state.graph.members)
    (hp : ∀ k, isPulled p.state.graph k = true →
      ∀ n, p.state.graph.node? k = some n → n.NeverCancels) {n : Nat}
    (hn : ∀ i < n, halt? o ((advance watch)^[i] p) = none) :
    Heeds watch p.state ((advance watch)^[n] p).state := by
  induction n with
  | zero => exact .start
  | succ n ih =>
    have hbefore := ih fun i hi => hn i (Nat.lt_succ_of_lt hi)
    have hhalt := hn n (Nat.lt_succ_self n)
    have hlater := later_iterate_advance watch p n
    obtain ⟨t, ts, hts⟩ := exists_pending_of_halt? hhalt
    obtain ⟨es, hes⟩ := state_advance watch hts
    have hturn := (taking_takeTurn hg hlater watch t.node).heeds hp hlater
      (requested_of_halt? hhalt)
    rw [Function.iterate_succ_apply', hes]
    exact (hbefore.trans hturn).foldl_report es

/-! ### Data flows -/

theorem token_foldl_transfer (ws : List WireKey) (s : State) :
    (ws.foldl State.transfer s).token = s.token := by
  induction ws generalizing s with
  | nil => rfl
  | cons w ws ih => exact ih (s.transfer w)

/-- The rounds of a data flow heed the wish. -/
theorem heeds_rounds (watch : Stopwatch) (n : Nat) (f : Flow) :
    Heeds watch f.state (rounds watch n f).2.state := by
  induction n generalizing f with
  | zero => exact .start
  | succ n ih =>
    simp only [rounds]
    split
    · exact .start
    split
    · exact .start
    next hc =>
    split
    · exact .start
    next k _ =>
    have hreceive : Heeds watch f.state (receive k f.state) := Heeds.start.foldl_transfer _
    have hc : (receive k f.state).token.requested = false := by
      rw [receive, token_foldl_transfer]
      exact Bool.not_eq_true _ ▸ hc
    have hinvoke {y : Except Fault Unit} {s : State}
        (hs : invoke watch k (receive k f.state) = (y, s)) : Heeds watch f.state s := by
      have h := hreceive.evaluate hc k
      rwa [hs] at h
    split
    · next e s hs => exact hinvoke hs
    · next s hs =>
      have hsend : Heeds watch f.state (send k s) := (hinvoke hs).foldl_transfer _
      exact hsend.trans (ih ⟨send k s, f.waiting.erase k⟩)

/-- A data flow heeds the wish. -/
theorem heeds_runData (watch : Stopwatch) (s : State) : Heeds watch s (runData watch s).state := by
  simp only [runData]
  split
  · exact .start
  · have hrounds := heeds_rounds watch s.graph.members.length
      ⟨s.report (flowStartReport s.graph), s.graph.members⟩
    have hend := ((Heeds.start.report _).trans hrounds).foldl_report
      (flowReport? (dataFlow watch (s.report (flowStartReport s.graph))).2
        (dataFlow watch (s.report (flowStartReport s.graph))).1).toList
    split
    · exact hend
    · exact hend.report _

/-- A run of control among data nodes that never cancel heeds the wish. -/
theorem heeds_runControl (o : Options) (watch : Stopwatch) {s : State}
    (hg : ∀ k, s.graph.contains k = true → k ∈ s.graph.members)
    (hp : ∀ k, isPulled s.graph k = true → ∀ n, s.graph.node? k = some n → n.NeverCancels) :
    Heeds watch s (runControl o watch s).state := by
  cases he : controlError? s.graph with
  | some e =>
    simp only [runControl, he]
    exact .start
  | none =>
    obtain ⟨n, -, hn, -, hrun⟩ := exists_runControl_eq o watch he
    rw [hrun]
    have hturns : Heeds watch (firstProgress s).state
        ((advance watch)^[n] (firstProgress s)).state := heeds_iterate_advance hg hp hn
    exact (((Heeds.start.report _).trans hturns).foldl_report _).report _

/-- What a result tells of the evaluated nodes is what was evaluated. -/
theorem executed_of_result (e : Engine) (watch : Stopwatch) {s : State} {r : Result}
    (hr : (e.run watch s).result = .ok r) :
    r.executed = (e.run watch s).state.executed.toList := by
  obtain ⟨category, o⟩ := e
  cases category with
  | controlFlow =>
    change (runControl o watch s).result = .ok r at hr
    change r.executed = (runControl o watch s).state.executed.toList
    obtain ⟨n, -, -, -, hrun⟩ := exists_runControl_eq o watch (controlError?_eq_none_of_ok hr)
    rw [hrun] at hr ⊢
    obtain rfl := Except.ok.inj hr
    rw [executed_report, executed_foldl_report]
    rfl
  | dataFlow =>
    change (runData watch s).result = .ok r at hr
    change r.executed = (runData watch s).state.executed.toList
    obtain ⟨-, hexecuted, hresult⟩ := runData_of_dataFlow (dataError?_eq_none_of_ok hr) rfl
    rw [hr] at hresult
    split at hresult
    · cases hresult
    · obtain rfl := Except.ok.inj hresult
      rw [hexecuted]
      rfl

/-- Control takes turns only as long as nobody asked for the end. -/
theorem requested_before_turn {o : Options} {watch : Stopwatch} {s : State} {r : Result}
    (hr : (runControl o watch s).result = .ok r) {i : Nat} (hi : i < r.steps) :
    ((advance watch)^[i] (firstProgress s)).state.token.requested = false :=
  requested_of_halt? (halt?_of_lt_steps hr hi)

/-- Control evaluates nothing if the end was asked for before. -/
theorem executed_runControl_of_requested (o : Options) (watch : Stopwatch) {s : State}
    (hs : s.token.requested = true) : (runControl o watch s).state.executed = s.executed := by
  cases he : controlError? s.graph with
  | some e => simp [runControl, he]
  | none =>
    obtain ⟨n, -, hn, -, hrun⟩ := exists_runControl_eq o watch he
    obtain rfl : n = 0 := by
      by_contra hne
      have hc : s.token.requested = false := requested_of_halt? (hn 0 (Nat.pos_of_ne_zero hne))
      cases hs.symm.trans hc
    rw [hrun]
    simp only [executed_report, executed_foldl_report]
    rfl

/-- Nothing is evaluated in a run whose end was asked for before, control takes no turn after the
one in which the end was asked for, and a data flow heeds the wish of every node. So does control if
none of the data nodes that it may pull asks for the end: then the evaluated nodes end with the one
that asked. -/
theorem Engine.run_heeds (e : Engine) (watch : Stopwatch) {s : State}
    (hg : ∀ k, s.graph.contains k = true → k ∈ s.graph.members) :
    (∀ r, (e.run watch s).result = .ok r →
      r.executed = (e.run watch s).state.executed.toList ∧
      (e.category = .controlFlow → ∀ i < r.steps,
        ((advance watch)^[i] (firstProgress s)).state.token.requested = false)) ∧
    (s.token.requested = true → (e.run watch s).state.executed = s.executed) ∧
    ((e.category = .controlFlow →
        ∀ k, isPulled s.graph k = true → ∀ n, s.graph.node? k = some n → n.NeverCancels) →
      Heeds watch s (e.run watch s).state ∧
      (s.token.requested = false → (e.run watch s).state.token.requested = true →
        ∃ u k n, Heeds watch s u ∧ u.token.requested = false ∧ u.graph.node? k = some n ∧
          (n.step u.memory).cancelled = true ∧
          (e.run watch s).state.executed = u.executed.push n.id)) := by
  refine ⟨fun r hr => ⟨executed_of_result e watch hr, fun hcategory i hi => ?_⟩, fun hs => ?_,
    fun hp => ?_⟩
  · simp only [Engine.run, hcategory] at hr
    exact requested_before_turn hr hi
  · cases hcategory : e.category with
    | controlFlow =>
      simp only [Engine.run, hcategory]
      exact executed_runControl_of_requested e.options watch hs
    | dataFlow =>
      simp only [Engine.run, hcategory]
      exact (heeds_runData watch s).executed_eq hs
  · have hheeds : Heeds watch s (e.run watch s).state := by
      cases hcategory : e.category with
      | controlFlow =>
        simp only [Engine.run, hcategory]
        exact heeds_runControl e.options watch hg (hp hcategory)
      | dataFlow =>
        simp only [Engine.run, hcategory]
        exact heeds_runData watch s
    exact ⟨hheeds, hheeds.exists_request⟩

/-! ### Nodes in a hurry -/

namespace Cancelling

/-- A node that passes control on, one that passes it on and needs a value, one that gives a value,
and one where control ends. -/
def nodes (second third : Behaviour) : List Node :=
  [Node.ofSpecs "a" [] [.control "x"] (pure ()),
    Node.ofSpecs "b" [.control "y", .data "v" .int] [.control "x"] second,
    Node.ofSpecs "c" [] [.data "w" .int] third,
    Node.ofSpecs "d" [.control "y"] [] (pure ())]

/-- The nodes before they are wired. -/
def bare (second third : Behaviour) : Graph :=
  { Graph.new {} "g" .controlFlow with
    nodes := ⟨((nodes second third).map some).toArray⟩
    members := [0, 1, 2, 3]
    index := .ofList [("a", 0), ("b", 1), ("c", 2), ("d", 3)]
    mainId := some "a" }

/-- Control goes from the first node to the second and on to the last, and a value from the third to
the second. -/
def wires : List (PinRef × PinRef) :=
  [(⟨0, .output, 0⟩, ⟨1, .input, 0⟩), (⟨2, .output, 0⟩, ⟨1, .input, 1⟩),
    (⟨1, .output, 0⟩, ⟨3, .input, 0⟩)]

def graph (second third : Behaviour) : Graph :=
  wires.foldl (fun g w => Edit.apply g (.connect w.1 w.2)) (bare second third)

/-- A run whose end can be asked for. -/
def start (second third : Behaviour) : State where
  graph := graph second third
  token := { cancellable := true }

def engine : Engine := ⟨.controlFlow, {}⟩

theorem sameCore (b c : Behaviour) : Graph.SameCore (bare b c) (graph b c) := by
  have hconnect (g : Graph) (w : PinRef × PinRef) :
      Graph.SameCore g (Edit.apply g (.connect w.1 w.2)) := Graph.sameCore_connect g w.1 w.2
  unfold graph
  exact Graph.SameCore.foldl hconnect wires (bare b c)

/-- The nodes of the graph behave as they did before they were wired. -/
theorem exists_of_node? {b c : Behaviour} {k : NodeKey} {n : Node}
    (hn : (start b c).graph.node? k = some n) :
    ∃ n₀, (nodes b c)[k]? = some n₀ ∧ n₀.id = n.id ∧ n₀.behaviour = n.behaviour := by
  simp only [start] at hn
  obtain ⟨n₀, hn₀, hcore⟩ := (sameCore b c).node? hn
  have hid : n₀.core.id = n.core.id := congrArg Node.id hcore
  have hbehaviour : n₀.core.behaviour = n.core.behaviour := congrArg Node.behaviour hcore
  refine ⟨n₀, ?_, hid, hbehaviour⟩
  rw [← hn₀]
  cases h : (nodes b c)[k]? <;> simp [Graph.node?, bare, Arena.get?, h]

theorem mem_of_contains (b c : Behaviour) (k : NodeKey)
    (hk : (start b c).graph.contains k = true) : k ∈ (start b c).graph.members := by
  obtain ⟨n, hn, -⟩ := (Option.any_eq_true _ _).1 hk
  obtain ⟨n₀, hn₀, -⟩ := exists_of_node? hn
  have hlt : k < 4 := (List.getElem?_eq_some_iff.1 hn₀).1
  simp only [start]
  rw [(sameCore b c).members]
  exact List.mem_range.2 hlt

/-- What comes of a run in which the one node or the other asks for the end. -/
theorem outcome (s : State)
    (hs : s = start Step.cancel (pure ()) ∨ s = start (pure ()) Step.cancel) :
    s.token.requested = false ∧ (engine.run (fun _ => 0) s).state.token.requested = true ∧
      (engine.run (fun _ => 0) s).state.executed = #["a", "c", "b"] := by
  rcases hs with rfl | rfl <;> decide +kernel

end Cancelling

/-- A node asks for the end, and the node behind it is not evaluated any more. -/
theorem Engine.run_heeds_cancelling :
    let s := Cancelling.start Step.cancel (pure ())
    (∀ k, s.graph.contains k = true → k ∈ s.graph.members) ∧
      ∃ u k n, Heeds (fun _ => 0) s u ∧ u.token.requested = false ∧ u.graph.node? k = some n ∧
        (n.step u.memory).cancelled = true ∧ #["a", "c", "b"] = u.executed.push n.id := by
  have hg := Cancelling.mem_of_contains Step.cancel (pure ())
  have hp (_ : Cancelling.engine.category = .controlFlow) (k : NodeKey)
      (hk : isPulled (Cancelling.start Step.cancel (pure ())).graph k = true) (n : Node)
      (hn : (Cancelling.start Step.cancel (pure ())).graph.node? k = some n) : n.NeverCancels := by
    obtain ⟨n₀, hn₀, -, hbehaviour⟩ := Cancelling.exists_of_node? hn
    have hk1 : k ≠ 1 := by
      rintro rfl
      exact absurd hk (by decide +kernel)
    have hlt : k < 4 := (List.getElem?_eq_some_iff.1 hn₀).1
    refine Node.neverCancels_of_idle (hbehaviour.symm.trans ?_)
    have hcases : ∀ j < 4, j ≠ 1 → j = 0 ∨ j = 2 ∨ j = 3 := by omega
    obtain rfl | rfl | rfl := hcases k hlt hk1
    all_goals
      obtain rfl := Option.some.inj hn₀
      rfl
  obtain ⟨hs, hc, hexecuted⟩ := Cancelling.outcome _ (.inl rfl)
  have hheeds := (Engine.run_heeds Cancelling.engine (fun _ => 0) hg).2.2 hp
  obtain ⟨u, k, n, hu, hcu, hn, hask, hlast⟩ := hheeds.2 hs hc
  exact ⟨hg, u, k, n, hu, hcu, hn, hask, hexecuted.symm.trans hlast⟩

/-- A pulled node asks for the end, and the node that pulled it is evaluated all the same. -/
theorem not_forall_heeds_run :
    ¬ ∀ (e : Engine) (watch : Stopwatch) (s : State), Heeds watch s (e.run watch s).state := by
  intro h
  have hheeds := h Cancelling.engine (fun _ => 0) (Cancelling.start (pure ()) Step.cancel)
  obtain ⟨hs, hc, hexecuted⟩ := Cancelling.outcome _ (.inr rfl)
  obtain ⟨u, k, n, hu, -, hn, hask, hlast⟩ := hheeds.exists_request hs hc
  have hid : n.id = "b" := by
    have hback := congrArg Array.back? (hexecuted.symm.trans hlast)
    simpa using hback.symm
  obtain ⟨m, hm, hlike⟩ : ∃ m, (Cancelling.start (pure ()) Step.cancel).graph.node? k = some m ∧
      m.blank = n.blank := by
    have hblank := hu.later.nodes k
    rw [hn, Option.map_some] at hblank
    exact Option.map_eq_some_iff.1 hblank.symm
  obtain ⟨n₀, hn₀, hid₀, hbehaviour⟩ := Cancelling.exists_of_node? hm
  have hidle : n₀.behaviour = pure () := by
    have hb : n₀.id = "b" := by
      have hid' : m.blank.id = n.blank.id := congrArg Node.id hlike
      exact hid₀.trans (Eq.trans hid' hid)
    have hmem := List.mem_of_getElem? hn₀
    simp only [Cancelling.nodes, List.mem_cons, List.not_mem_nil, or_false] at hmem
    rcases hmem with rfl | rfl | rfl | rfl
    · rfl
    · rfl
    · exact absurd hb (by decide)
    · rfl
  have hpatient := Node.neverCancels_of_idle (hbehaviour.symm.trans hidle) n hlike.symm u.memory
  cases hask.symm.trans hpatient

end Run
end Patchbay
