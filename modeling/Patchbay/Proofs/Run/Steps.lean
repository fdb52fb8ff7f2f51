import Patchbay.Proofs.Run.Nesting
import Patchbay.Proofs.Run.Values
import Patchbay.Run.Engine
/-!
# The single steps of a run

Whatever becomes of a run, it only ever reports, copies the value of a wire of the graph, or
evaluates a member. What these three steps preserve is preserved by every run, also by one that is
cancelled, stops at a bound, or ends in the middle of a pull.

## Main definitions

* `Run.Steps`: a state that single steps lead to.

## Main statements

* `Run.Engine.steps_run`: runs consist of single steps.
-/
namespace Patchbay.Run

/-- A node that is evaluated for the value of a wire is a member. -/
theorem mem_members_of_pulledSource? {s₀ s : State} (hg : s₀.graph.Coherent) (hs : Later s₀ s)
    {w : WireKey} {k : NodeKey} (hk : pulledSource? s.graph w = some k) : k ∈ s₀.graph.members := by
  have hpulled := isPulled_of_pulledSource? hs hk
  exact (hg.contains_iff k).1 (Bool.and_eq_true_iff.1 hpulled).1

/-- A state that is reached from another one by reports, by copying values along wires of the graph
and by evaluating its members. -/
inductive Steps (watch : Stopwatch) (s : State) : State → Prop where
  | start : Steps watch s s
  | report {u : State} (h : Steps watch s u) (e : Entry) : Steps watch s (u.report e)
  | copy {u : State} (h : Steps watch s u) {w : WireKey} (hw : w ∈ s.graph.links) :
    Steps watch s (u.transfer w)
  | evaluate {u : State} (h : Steps watch s u) {k : NodeKey} (hk : k ∈ s.graph.members) :
    Steps watch s (invoke watch k u).2

namespace Steps
variable {watch : Stopwatch} {s₀ s s' : State}

theorem later (h : Steps watch s₀ s) : Later s₀ s := by
  induction h with
  | start => exact .refl s₀
  | report _ e ih => exact ih.trans (later_report _ e)
  | copy _ _ ih => exact ih.trans (later_transfer _ _)
  | evaluate _ _ ih => exact ih.trans (later_invoke watch _ _)

theorem trans (h : Steps watch s₀ s) (h' : Steps watch s s') : Steps watch s₀ s' := by
  induction h' with
  | start => exact h
  | report _ e ih => exact ih.report e
  | copy _ hw ih => exact ih.copy (h.later.wiring.links ▸ hw)
  | evaluate _ hk ih => exact ih.evaluate (h.later.wiring.members ▸ hk)

theorem foldl_report (h : Steps watch s₀ s) (es : List Entry) :
    Steps watch s₀ (es.foldl State.report s) := by
  induction es generalizing s with
  | nil => exact h
  | cons e es ih => exact ih (h.report e)

theorem foldl_transfer (h : Steps watch s₀ s) {ws : List WireKey}
    (hws : ∀ w ∈ ws, w ∈ s₀.graph.links) : Steps watch s₀ (ws.foldl State.transfer s) := by
  induction ws generalizing s with
  | nil => exact h
  | cons w ws ih =>
    exact ih (h.copy (hws w List.mem_cons_self)) fun v hv => hws v (List.mem_cons_of_mem _ hv)

theorem evaluate_eq {k : NodeKey} {x : Except Fault Unit} (h : Steps watch s₀ s)
    (hk : k ∈ s₀.graph.members) (hi : invoke watch k s = (x, s')) : Steps watch s₀ s' := by
  have h' := h.evaluate hk
  rwa [hi] at h'

/-! ### Control -/

/-- Pulling on behalf of members copies along wires and evaluates members. -/
theorem pulling {d : Nat} {path : List NodeKey} {task : Demand} {x : Except TurnFault Unit}
    (hg : s₀.graph.Coherent) (hp : Pulling watch d path task s x s') (h : Steps watch s₀ s)
    (htask : task.Within (·.node ∈ s₀.graph.members) (· ∈ s₀.graph.members)) :
    Steps watch s₀ s' := by
  refine hp.preserves (I := Steps watch s₀) ?_ ?_ ?_ (fun hs hk => hs.evaluate hk) h htask
  · intro u w k hu hk
    exact mem_members_of_pulledSource? hg hu.later hk
  · intro g k r hk hr
    obtain ⟨rfl, -⟩ := mem_dataInputs_iff.1 hr
    exact hk
  · intro u v r w hu hr hw hv
    have hmem : r.node ∈ u.graph.members := hu.later.wiring.members ▸ hr
    have hlink := ((feeder?_eq_some_iff (hg.congr hu.later.wiring) hmem).1 hw).1
    exact hv.copy (hu.later.wiring.links ▸ hlink)

theorem pulling_dataInputs {d : Nat} {path : List NodeKey} {k : NodeKey}
    {x : Except TurnFault Unit} (hg : s₀.graph.Coherent)
    (hp : Pulling watch d path (.inputs (dataInputs s.graph k)) s x s') (h : Steps watch s₀ s)
    (hk : k ∈ s₀.graph.members) : Steps watch s₀ s' := by
  refine h.pulling hg hp fun r hr => ?_
  obtain ⟨rfl, -⟩ := mem_dataInputs_iff.1 hr
  exact hk

theorem taking {d : Nat} {k : NodeKey} {x : Except TurnFault Unit} (hg : s₀.graph.Coherent)
    (ht : Taking watch d k s x s') (h : Steps watch s₀ s) (hk : k ∈ s₀.graph.members) :
    Steps watch s₀ s' := by
  cases ht with
  | starve hin => exact h.pulling_dataInputs hg hin hk
  | evaluate hin hi => exact (h.pulling_dataInputs hg hin hk).evaluate_eq hk hi
  | fail hin hi => exact (h.pulling_dataInputs hg hin hk).evaluate_eq hk hi

theorem advance {p : Progress} (hg : s₀.graph.Coherent) (h : Steps watch s₀ p.state) {t : Turn}
    {ts : List Turn} (hts : p.pending = t :: ts) (ht : t.node ∈ s₀.graph.members) :
    Steps watch s₀ (Run.advance watch p).state := by
  obtain ⟨es, hes⟩ := state_advance watch hts
  have htaking := taking_takeTurn (fun k => (hg.contains_iff k).1) h.later watch t.node
  rw [hes]
  exact (h.taking hg htaking ht).foldl_report es

end Steps

section
variable {o : Options} {watch : Stopwatch} {p₀ : Progress} {main : NodeKey} {n : Nat}

theorem Traced.iterate (hg : p₀.state.graph.Coherent) (h : Traced watch p₀ main 0 p₀)
    (hp : ∀ i < n, halt? o ((Run.advance watch)^[i] p₀) = none) :
    Traced watch p₀ main n ((Run.advance watch)^[n] p₀) := by
  induction n with
  | zero => exact h
  | succ n ih =>
    obtain ⟨t, ts, hts⟩ := exists_pending_of_halt? (hp n (Nat.lt_succ_self n))
    rw [Function.iterate_succ_apply']
    exact (ih fun i hi => hp i (Nat.lt_succ_of_lt hi)).advance hg hts

/-- The nodes of pending turns are members, so that turns evaluate members. -/
theorem Steps.iterate (hg : p₀.state.graph.Coherent) (h : Traced watch p₀ main 0 p₀)
    (hp : ∀ i < n, halt? o ((Run.advance watch)^[i] p₀) = none) :
    Steps watch p₀.state ((Run.advance watch)^[n] p₀).state := by
  induction n with
  | zero => exact .start
  | succ n ih =>
    have hbefore : ∀ i < n, halt? o ((Run.advance watch)^[i] p₀) = none :=
      fun i hi => hp i (Nat.lt_succ_of_lt hi)
    obtain ⟨t, ts, hts⟩ := exists_pending_of_halt? (hp n (Nat.lt_succ_self n))
    obtain ⟨ns, ht⟩ := (h.iterate hg hbefore).pending t (hts ▸ List.mem_cons_self)
    rw [Function.iterate_succ_apply']
    exact (ih hbefore).advance hg hts ht.mem_members

/-- The node of a turn that a run takes is a member through which control passes. -/
theorem exists_turn_of_lt_steps {s : State} {r : Result} (hg : s.graph.Coherent)
    (hr : (runControl o watch s).result = .ok r) {i : Nat} (hi : i < r.steps) : ∃ t ts,
      ((Run.advance watch)^[i] (firstProgress s)).pending = t :: ts ∧ t.node ∈ s.graph.members ∧
      (s.graph.node? t.node).any (·.hasFlow) = true ∧
      Later s ((Run.advance watch)^[i] (firstProgress s)).state := by
  obtain ⟨main, hmain, hflow⟩ := mainNode?_of_controlError? (controlError?_eq_none_of_ok hr)
  have hfirst : Traced watch (firstProgress s) main 0 (firstProgress s) := .first hg hmain hflow
  have hbefore := hfirst.iterate hg fun j hj => halt?_of_lt_steps hr (hj.trans hi)
  obtain ⟨t, ts, hts⟩ := exists_pending_of_halt? (halt?_of_lt_steps hr hi)
  obtain ⟨ns, ht⟩ := hbefore.pending t (hts ▸ List.mem_cons_self)
  exact ⟨t, ts, hts, ht.mem_members, ht.flow, (later_report s _).trans hbefore.later⟩

end

/-! ### Data flow -/

namespace Steps
variable {watch : Stopwatch} {s₀ s : State} {k : NodeKey}

theorem receive (hg : s₀.graph.Coherent) (h : Steps watch s₀ s) (hk : k ∈ s₀.graph.members) :
    Steps watch s₀ (Run.receive k s) := by
  have hs := hg.congr h.later.wiring
  refine h.foldl_transfer fun w hw => ?_
  have hlink := ((mem_received_iff hs (h.later.wiring.members ▸ hk) w).1 hw).1
  exact h.later.wiring.links ▸ hlink

theorem send (hg : s₀.graph.Coherent) (h : Steps watch s₀ s) (hk : k ∈ s₀.graph.members) :
    Steps watch s₀ (Run.send k s) := by
  have hs := hg.congr h.later.wiring
  refine h.foldl_transfer fun w hw => ?_
  have hlink := (feeds_of_mem_sent hs (h.later.wiring.members ▸ hk) hw).1
  exact h.later.wiring.links ▸ hlink

theorem rounds (hg : s₀.graph.Coherent) (n : Nat) {f : Flow} (h : Steps watch s₀ f.state)
    (hf : ∀ k ∈ f.waiting, k ∈ s₀.graph.members) :
    Steps watch s₀ (Run.rounds watch n f).2.state := by
  induction n generalizing f with
  | zero => exact h
  | succ n ih =>
    simp only [Run.rounds]
    split
    · exact h
    split
    · exact h
    split
    · exact h
    next k hready =>
    have hk := hf k (List.mem_of_find?_eq_some hready)
    have hreceived := h.receive hg hk
    split
    · next e s hi => exact hreceived.evaluate_eq hk hi
    · next s hi =>
      have hsent := (hreceived.evaluate_eq hk hi).send hg hk
      exact ih hsent fun j hj => hf j (List.mem_of_mem_erase hj)

end Steps

/-! ### Whole runs -/

/-- A run of control consists of single steps. -/
theorem steps_runControl (o : Options) (watch : Stopwatch) {s : State} (hg : s.graph.Coherent) :
    Steps watch s (runControl o watch s).state := by
  cases he : controlError? s.graph with
  | some e =>
    simp only [runControl, he]
    exact .start
  | none =>
    obtain ⟨k, hk, hflow⟩ := mainNode?_of_controlError? he
    obtain ⟨n, -, hn, -, hrun⟩ := exists_runControl_eq o watch he
    have hfirst : Steps watch s (firstProgress s).state := .report .start _
    rw [hrun]
    exact ((hfirst.trans (.iterate hg (.first hg hk hflow) hn)).foldl_report _).report _

/-- A data flow consists of single steps. -/
theorem steps_runData (watch : Stopwatch) {s : State} (hg : s.graph.Coherent) :
    Steps watch s (runData watch s).state := by
  have hrounds : Steps watch s (dataFlow watch (s.report (flowStartReport s.graph))).2.state :=
    Steps.rounds hg _ (.report .start _) fun _ hk => hk
  have hended := hrounds.foldl_report
  simp only [runData]
  split
  · exact .start
  split
  · exact hended _
  · exact (hended _).report _

/-- Every run in a graph with coherent links consists of single steps, whatever becomes of it. -/
theorem Engine.steps_run (e : Engine) (watch : Stopwatch) {s : State} (hg : s.graph.Coherent) :
    Steps watch s (e.run watch s).state := by
  simp only [Engine.run]
  split
  · exact steps_runControl e.options watch hg
  · exact steps_runData watch hg

end Patchbay.Run
