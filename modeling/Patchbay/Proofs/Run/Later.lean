import Patchbay.Proofs.Wiring.Frame
import Patchbay.Run.Control
import Patchbay.Run.Data
/-!
# What a run leaves as it is

A run evaluates nodes and copies values. It never changes the wiring of its graph, it makes no
node and destroys none, and it never takes back the wish to end it.

## Main definitions

* `Node.Reliable`: a node whose steps never fail.
* `Run.Later`: a state that a run can come to from another one, as far as the above goes.
* `Run.Pull.Proceeds`: a part of a turn leads only to later states.

## Main statements

* `Run.later_invoke`: evaluating a node leads to a later state.
* `Run.proceeds_takeTurn`: taking a turn leads to a later state.
-/
namespace Patchbay

/-! ### Nodes -/

theorem map_bare_assignAll (ps : List Pin) (vs : List Value) :
    (assignAll ps vs).map Pin.bare = ps.map Pin.bare := by
  induction ps generalizing vs with
  | nil => cases vs <;> rfl
  | cons p ps ih => cases vs <;> simp [assignAll, ih]

/-- A step changes values of pins at most. -/
theorem Node.map_bare_pins_step (n : Node) (m : Memory) (s : Side) :
    ((n.step m).node.pins s).map Pin.bare = (n.pins s).map Pin.bare := by
  cases s with
  | input => simp [Node.pins]
  | output =>
    simp only [Node.pins, Node.step]
    split
    · exact map_bare_assignAll n.outputs _
    · rfl

/-- The pin without the value that it holds, if it can hold one. -/
def Pin.blank (p : Pin) : Pin := p.assign .null

@[simp] theorem Pin.blank_assign (p : Pin) (v : Value) : (p.assign v).blank = p.blank := by
  cases hp : p.flow <;> simp [Pin.blank, Pin.assign, hp]

theorem map_blank_assignAll (ps : List Pin) (vs : List Value) :
    (assignAll ps vs).map Pin.blank = ps.map Pin.blank := by
  induction ps generalizing vs with
  | nil => cases vs <;> rfl
  | cons p ps ih => cases vs <;> simp [assignAll, ih]

theorem map_blank_modify (ps : List Pin) (i : Nat) (v : Value) :
    (ps.modify i (·.assign v)).map Pin.blank = ps.map Pin.blank := by
  refine List.ext_getElem? fun j => ?_
  simp only [List.getElem?_map, List.getElem?_modify]
  cases ps[j]? <;> simp
  split <;> simp

namespace Node

/-- The node without the values on its pins and without a trace of its last evaluation. -/
def blank (n : Node) : Node :=
  { n with
    inputs := n.inputs.map Pin.blank
    outputs := n.outputs.map Pin.blank
    state := .normal
    lastError := ""
    selection := none }

@[simp] theorem blank_modifyPin (n : Node) (s : Side) (i : Nat) (v : Value) :
    (n.modifyPin s i (·.assign v)).blank = n.blank := by
  cases s <;> simp [modifyPin, blank, map_blank_modify]

@[simp] theorem blank_step (n : Node) (m : Memory) : (n.step m).node.blank = n.blank := by
  simp only [step]
  split
  · simp [blank, map_blank_assignAll]
  · rfl

/-- A node whose steps succeed, whatever values stand on its pins and whatever the steps before
left behind. -/
def Reliable (n : Node) : Prop :=
  ∀ n' : Node, n'.blank = n.blank → ∀ m, (n'.step m).outcome = .ok ()

/-- A node whose steps do nothing does not fail. -/
theorem reliable_of_idle {n : Node} (h : n.behaviour = pure ()) : n.Reliable := by
  intro n' hlike m
  have hbehaviour : n'.blank.behaviour = n.blank.behaviour := congrArg Node.behaviour hlike
  have hidle : n'.behaviour = pure () := hbehaviour.trans h
  simp only [step, attempt, hidle]
  split <;> rfl

end Node

namespace Run

/-! ### States -/

/-- A state with the nodes and the wiring of another one, and with its wish to end the run if it
has one. -/
structure Later (s s' : State) : Prop where
  wiring : Graph.SameWiring s.graph s'.graph
  nodes : ∀ k, (s'.graph.node? k).map Node.blank = (s.graph.node? k).map Node.blank
  size : s'.graph.nodes.next = s.graph.nodes.next
  requested : s.token.requested = true → s'.token.requested = true

namespace Later
variable {s s' s'' : State}

protected theorem refl (s : State) : Later s s := ⟨.refl s.graph, fun _ => rfl, rfl, id⟩

protected theorem trans (a : Later s s') (b : Later s' s'') : Later s s'' :=
  ⟨a.wiring.trans b.wiring, fun k => (b.nodes k).trans (a.nodes k), b.size.trans a.size,
    b.requested ∘ a.requested⟩

/-- Steps that lead to later states do so when they follow each other. -/
theorem foldl {α : Type} {f : State → α → State} (hf : ∀ s x, Later s (f s x)) (xs : List α)
    (s : State) : Later s (xs.foldl f s) := by
  induction xs generalizing s with
  | nil => exact .refl s
  | cons x xs ih => exact (hf s x).trans (ih (f s x))

end Later

@[simp] theorem token_foldl_report (es : List Entry) (s : State) :
    (es.foldl State.report s).token = s.token := by
  induction es generalizing s with
  | nil => rfl
  | cons e es ih => exact ih (s.report e)

@[simp] theorem graph_foldl_report (es : List Entry) (s : State) :
    (es.foldl State.report s).graph = s.graph := by
  induction es generalizing s with
  | nil => rfl
  | cons e es ih => exact ih (s.report e)

@[simp] theorem executed_foldl_report (es : List Entry) (s : State) :
    (es.foldl State.report s).executed = s.executed := by
  induction es generalizing s with
  | nil => rfl
  | cons e es ih => exact ih (s.report e)

theorem later_report (s : State) (e : Entry) : Later s (s.report e) :=
  ⟨.refl s.graph, fun _ => rfl, rfl, id⟩

theorem next_transfer (g : Graph) (w : WireKey) : (g.transfer w).nodes.next = g.nodes.next := by
  simp only [Graph.transfer]
  split
  · split
    · split
      · rfl
      · exact Arena.next_modify _ _ _
    · rfl
  · rfl

theorem blank_node?_transfer (g : Graph) (w : WireKey) (k : NodeKey) :
    ((g.transfer w).node? k).map Node.blank = (g.node? k).map Node.blank := by
  simp only [Graph.transfer]
  split
  · split
    · split
      · rfl
      · rw [Graph.modifyPin, Graph.node?_modifyNode]
        split
        · cases g.node? k <;> simp
        · rfl
    · rfl
  · rfl

theorem later_transfer (s : State) (w : WireKey) : Later s (s.transfer w) :=
  ⟨Graph.sameWiring_transfer s.graph w, blank_node?_transfer s.graph w,
    next_transfer s.graph w, id⟩

/-- A node that was evaluated has the wiring that it had before. -/
theorem sameWiring_step (g : Graph) {k : NodeKey} {n : Node} (hn : g.node? k = some n)
    (m : Memory) : Graph.SameWiring g (g.modifyNode k fun _ => (n.step m).node) where
  ids j := by
    simp only [Graph.idOf?, Graph.node?_modifyNode]
    split
    · next h => subst h; simp [hn]
    · rfl
  pins r := by
    simp only [Graph.pin?, Graph.node?_modifyNode]
    split
    · next h =>
      have hpins := congrArg (·[r.index]?) (n.map_bare_pins_step m r.side)
      simpa [← h, hn, Node.pin?] using hpins
    · rfl
  wires := rfl
  members := rfl
  index := rfl
  links := rfl
  mainId := rfl

/-- Evaluating a node changes values, and whether it asked for the end of the run is kept. -/
theorem later_invoke (watch : Stopwatch) (k : NodeKey) (s : State) :
    Later s (invoke watch k s).2 := by
  simp only [invoke]
  split
  · exact .refl s
  · next n hn =>
    refine ⟨sameWiring_step s.graph hn s.memory, fun j => ?_, Arena.next_modify _ _ _,
      Token.requested_after _⟩
    change ((s.graph.modifyNode k fun _ => (n.step s.memory).node).node? j).map Node.blank = _
    rw [Graph.node?_modifyNode]
    split
    · next h => subst h; simp [hn]
    · rfl

theorem later_receive (k : NodeKey) (s : State) : Later s (receive k s) :=
  .foldl later_transfer _ s

theorem later_send (k : NodeKey) (s : State) : Later s (send k s) :=
  .foldl later_transfer _ s

/-! ### Parts of a turn -/

namespace Pull

/-- Whatever comes of a part of a turn, it leads to a later state. -/
def Proceeds {α : Type} (x : Pull α) : Prop := ∀ s, Later s (x.run.run s).2

variable {α β : Type}

theorem proceeds_pure (a : α) : Proceeds (pure a) := fun s => .refl s

theorem proceeds_throw (e : TurnFault) : Proceeds (throw e : Pull α) := fun s => .refl s

theorem proceeds_get : Proceeds (get : Pull State) := fun s => .refl s

theorem proceeds_modify {f : State → State} (hf : ∀ s, Later s (f s)) :
    Proceeds (modify f : Pull Unit) := hf

theorem run_bind (x : Pull α) (f : α → Pull β) (s : State) :
    (x >>= f).run.run s = match x.run.run s with
      | (.ok a, s') => (f a).run.run s'
      | (.error e, s') => (.error e, s') := by
  change ExceptT.bindCont f (x.run.run s).1 (x.run.run s).2 = _
  obtain ⟨_ | _, s'⟩ := x.run.run s <;> rfl

theorem proceeds_bind {x : Pull α} {f : α → Pull β} (hx : Proceeds x)
    (hf : ∀ a, Proceeds (f a)) : Proceeds (x >>= f) := by
  intro s
  have hxs := hx s
  rw [run_bind]
  split
  · next a s' h => rw [h] at hxs; exact hxs.trans (hf a s')
  · next e s' h => rw [h] at hxs; exact hxs

theorem proceeds_adapt {x : Pull α} (f : TurnFault → TurnFault) (hx : Proceeds x) :
    Proceeds (x.adapt f) := by
  intro s
  rw [ExceptT.run_adapt, StateT.run_map]
  exact hx s

theorem proceeds_forM {x : α → Pull Unit} (hx : ∀ a, Proceeds (x a)) (as : List α) :
    Proceeds (as.forM x) := by
  induction as with
  | nil => exact proceeds_pure ()
  | cons a as ih => exact proceeds_bind (hx a) fun _ => ih

theorem proceeds_ite {c : Prop} [Decidable c] {x y : Pull α} (hx : Proceeds x)
    (hy : Proceeds y) : Proceeds (if c then x else y) := by
  split
  · exact hx
  · exact hy

end Pull

open Pull

theorem proceeds_pullInput {evaluate : NodeKey → Pull Unit} (he : ∀ k, Proceeds (evaluate k))
    (r : PinRef) : Proceeds (pullInput evaluate r) := by
  refine proceeds_bind proceeds_get fun s => ?_
  split
  · exact proceeds_pure ()
  · next w _ =>
    have hcopy : Proceeds (modify (·.transfer w) : Pull Unit) :=
      proceeds_modify fun s => later_transfer s w
    refine proceeds_bind proceeds_get fun s => ?_
    split
    · next k _ =>
      refine proceeds_bind proceeds_get fun s => ?_
      split
      · exact proceeds_bind (he k) fun _ => hcopy
      · exact hcopy
    · exact proceeds_bind (proceeds_pure ()) fun _ => hcopy

theorem proceeds_pullInputs {evaluate : NodeKey → Pull Unit} (he : ∀ k, Proceeds (evaluate k))
    (k : NodeKey) : Proceeds (pullInputs evaluate k) :=
  proceeds_bind proceeds_get fun _ => proceeds_forM (proceeds_pullInput he) _

theorem proceeds_invokeTurn (watch : Stopwatch) (k : NodeKey) :
    Proceeds (invokeTurn watch k) := by
  intro s
  have h := later_invoke watch k s
  change Later s (invokeTurn watch k s).2
  simp only [invokeTurn]
  split
  · next s' hs => rw [hs] at h; exact h
  · next e s' hs => rw [hs] at h; exact h

theorem proceeds_evaluatePulled (watch : Stopwatch) (depth : Nat) (path : List NodeKey)
    (k : NodeKey) : Proceeds (evaluatePulled watch depth path k) := by
  induction depth generalizing path k with
  | zero => exact proceeds_bind proceeds_get fun s => proceeds_throw _
  | succ depth ih =>
    refine proceeds_ite (proceeds_bind proceeds_get fun s => proceeds_throw _) ?_
    refine proceeds_bind proceeds_get fun s => ?_
    refine proceeds_bind (proceeds_adapt _ (proceeds_pullInputs (ih (k :: path)) k)) fun _ => ?_
    exact proceeds_adapt _ (proceeds_invokeTurn watch k)

/-- Taking a turn leads to a later state, whatever comes of it. -/
theorem proceeds_takeTurn (watch : Stopwatch) (k : NodeKey) : Proceeds (takeTurn watch k) := by
  refine proceeds_bind proceeds_get fun s => ?_
  refine proceeds_bind (proceeds_pullInputs (proceeds_evaluatePulled watch _ []) k) fun _ => ?_
  exact proceeds_invokeTurn watch k

end Run
end Patchbay
