import Patchbay.Builtin
import Patchbay.Proofs.Document.Reload
import Patchbay.Proofs.Run.Later
/-!
# Which flow outputs a step exercises

A step chooses among the flow outputs of its node by two calls, as often as it likes and in any
order: one fires the output of a name, the other takes back what was chosen so far. A run of a step
is told by its calls, since nothing else that it does touches the choice. Every step begins without
a choice, so that its own calls alone decide which outputs it exercises.

## Main definitions

* `Choice`: a call by which a step chooses.
* `Course`: a run of a step, told by its calls.
* `Idle`, `Fired`: what calls come to, taken together.
* `Visit`: an evaluation of a node among others.
* `Node.Exercises`: the flow outputs of some names are exercised, in the order of their declaration.

## Main statements

* `Builtin.told_behaviour`: the steps of the built-in types can be told by their calls.
* `exercised_visited`: which flow outputs are exercised after a step.
-/
namespace Patchbay

/-! ### Calls -/

/-- A call by which a step chooses among the flow outputs of its node. -/
inductive Choice where
  | fire (name : String)
  | halt
  deriving DecidableEq

/-- Does the first of some outputs that have a name pass control on? -/
def fires (outputs : List Pin) (name : String) : Bool :=
  (outputs.find? fun p => p.name = name).any (·.flow)

namespace Choice

/-- To make the call. -/
def make : Choice → Step Unit
  | fire name => Step.fire name
  | halt => Step.halt

/-- What a call makes of the choice so far. A refused call leaves it. -/
def apply (ok : String → Bool) (chosen : Option (List String)) : Choice → Option (List String)
  | fire name => if ok name then some (chosen.getD [] ++ [name]) else chosen
  | halt => some []

end Choice

theorem Step.locate_map_snd (pins : List Pin) (name : String) :
    (Step.locate pins name).map (·.2) = pins.find? fun p => p.name = name := by
  have hpins : pins.zipIdx.map Prod.fst = pins := List.zipIdx_map_fst 0 pins
  rw [Step.locate, Option.map_map]
  conv_rhs => rw [← hpins, List.find?_map]
  rfl

/-- What follows a part of a step that succeeds goes on where that part ends. -/
theorem Step.bind_of_ok {α β : Type} {x : Step α} {f : α → Step β} {v : StepView} {s t : StepState}
    {a : α} (h : x v s = (.ok a, t)) : (x >>= f) v s = f a v t := by
  change ExceptT.bindCont (fun a => f a v) (x v s).1 (x v s).2 = _
  rw [h]
  rfl

theorem Step.read_eq (v : StepView) (s : StepState) : (read : Step StepView) v s = (.ok v, s) := rfl

/-- To fire an output is refused if the first output of its name is none that passes control on. -/
theorem Step.fire_eq (name : String) (v : StepView) (s : StepState) :
    Step.fire name v s =
      if fires v.outputs name then
        (.ok (), { s with selection := some (s.selection.getD [] ++ [name]) })
      else (.error (.noFlowOutput v.type name), s) := by
  rw [fires, ← Step.locate_map_snd, Step.fire, Step.bind_of_ok (Step.read_eq v s)]
  cases Step.locate v.outputs name with
  | none => rfl
  | some r => cases hr : r.2.flow <;> simp [hr] <;> rfl

/-- A call does to the choice what it is said to do. -/
theorem Choice.selection_make (c : Choice) (v : StepView) (s : StepState) :
    (c.make v s).2.selection = c.apply (fires v.outputs) s.selection := by
  cases c with
  | halt => rfl
  | fire name =>
    rw [make, Step.fire_eq, apply]
    split <;> rfl

/-! ### Runs told by their calls -/

/-- A run of a step, told by its calls: what it does besides leaves the choice alone. A refused call
ends the run only if the step lets it. -/
inductive Course (v : StepView) : StepState → List Choice → StepState → Prop where
  | done (s : StepState) : Course v s [] s
  | aside {s t u : StepState} {cs : List Choice} (h : t.selection = s.selection)
      (rest : Course v t cs u) : Course v s cs u
  | call {s u : StepState} {cs : List Choice} (c : Choice) (rest : Course v (c.make v s).2 cs u) :
      Course v s (c :: cs) u

namespace Course
variable {v : StepView} {s t u : StepState} {cs ds : List Choice}

theorem of_selection (h : t.selection = s.selection) : Course v s [] t := .aside h (.done t)

theorem trans (h : Course v s cs t) (h' : Course v t ds u) : Course v s (cs ++ ds) u := by
  induction h with
  | done => exact h'
  | aside hs _ ih => exact .aside hs (ih h')
  | call c _ ih => exact .call c (ih h')

/-- The choice at the end of a run is what its calls make of the choice at its beginning. -/
theorem selection (h : Course v s cs t) :
    t.selection = cs.foldl (Choice.apply (fires v.outputs)) s.selection := by
  induction h with
  | done => rfl
  | aside hs _ ih => rw [ih, hs]
  | call c _ ih => rw [ih, Choice.selection_make, List.foldl_cons]

end Course

namespace Step
variable {α β : Type}

/-- Every run of a step can be told by its calls. -/
def Told (x : Step α) : Prop := ∀ v s, ∃ cs, Course v s cs (x v s).2

namespace Told
variable {x : Step α} {f : α → Step β}

/-- A step that leaves the choice alone makes no call. -/
theorem of_selection (h : ∀ v s, (x v s).2.selection = s.selection) : x.Told :=
  fun v s => ⟨[], .of_selection (h v s)⟩

theorem make (c : Choice) : c.make.Told := fun _ _ => ⟨[c], .call c (.done _)⟩

protected theorem pure (a : α) : (Pure.pure a : Step α).Told := .of_selection fun _ _ => rfl

protected theorem throw (e : Fault) : (MonadExcept.throw e : Step α).Told :=
  .of_selection fun _ _ => rfl

protected theorem bind (hx : x.Told) (hf : ∀ a, (f a).Told) : (x >>= f).Told := by
  intro v s
  obtain ⟨cs, hcs⟩ := hx v s
  change ∃ cs, Course v s cs (ExceptT.bindCont (fun a => f a v) (x v s).1 (x v s).2).2
  cases hr : (x v s).1 with
  | error e => exact ⟨cs, hcs⟩
  | ok a =>
    obtain ⟨ds, hds⟩ := hf a v (x v s).2
    exact ⟨cs ++ ds, hcs.trans hds⟩

/-- A step may go on when a part of it fails. -/
protected theorem tryCatch {handle : Fault → Step α} (hx : x.Told) (hh : ∀ e, (handle e).Told) :
    (MonadExcept.tryCatch x handle : Step α).Told := by
  intro v s
  obtain ⟨cs, hcs⟩ := hx v s
  change ∃ cs, Course v s cs (ExceptT.tryCatch (x v) (fun e => handle e v) s).2
  simp only [ExceptT.tryCatch, ExceptT.mk, bind, StateT.bind]
  rcases hr : x v s with ⟨r, t⟩
  rw [hr] at hcs
  cases r with
  | ok a => exact ⟨cs, hcs⟩
  | error e =>
    obtain ⟨ds, hds⟩ := hh e v t
    exact ⟨cs ++ ds, hcs.trans hds⟩

protected theorem get : (MonadState.get : Step StepState).Told := .of_selection fun _ _ => rfl

protected theorem read : (MonadReader.read : Step StepView).Told := .of_selection fun _ _ => rfl

protected theorem modify {f : StepState → StepState} (h : ∀ s, (f s).selection = s.selection) :
    (modify f : Step PUnit).Told :=
  .of_selection fun _ s => h s

protected theorem input (name : String) : (Step.input name).Told := by
  refine Told.read.bind fun v => ?_
  split
  · exact .pure _
  · exact .pure _

protected theorem hasInput (name : String) : (Step.hasInput name).Told :=
  (Told.input name).bind fun _ => .pure _

protected theorem isConnected (name : String) : (Step.isConnected name).Told := by
  refine Told.read.bind fun v => ?_
  split
  · exact .pure _
  · exact .pure _

protected theorem output (name : String) : (Step.output name).Told := by
  refine Told.read.bind fun v => ?_
  split
  · exact Told.get.bind fun _ => .pure _
  · exact .pure _

protected theorem setOutput (name : String) (a : Value) : (Step.setOutput name a).Told := by
  refine Told.read.bind fun v => ?_
  split
  · split
    · exact Told.read.bind fun _ => .throw _
    · exact .modify fun _ => rfl
  · exact Told.read.bind fun _ => .throw _

protected theorem report (e : Entry) : (Step.report e).Told := .modify fun _ => rfl

protected theorem complain (message : String) : (Step.complain message).Told :=
  .modify fun _ => rfl

protected theorem orFault (r : Except Value.ReadError α) : (Step.orFault r).Told := by
  cases r with
  | ok a => exact .pure a
  | error e => exact .throw _

end Told
end Step

/-- A step that makes calls in their order, whether they are refused or not. -/
def Choice.makeAll (cs : List Choice) : Behaviour :=
  cs.forM fun c => tryCatch c.make fun _ => pure ()

/-- Any calls can be the calls of a step. -/
theorem Choice.course_makeAll (v : StepView) (cs : List Choice) (s : StepState) :
    Course v s cs (makeAll cs v s).2 := by
  induction cs generalizing s with
  | nil => exact .done s
  | cons c cs ih =>
    -- a refused call leaves the state of the step as it is
    have hone : (tryCatch c.make fun _ => pure () : Step Unit) v s = (.ok (), (c.make v s).2) := by
      cases c with
      | halt => rfl
      | fire name =>
        change ExceptT.tryCatch (Step.fire name v) (fun _ => pure ()) s = _
        simp only [ExceptT.tryCatch, ExceptT.mk, bind, StateT.bind, make, Step.fire_eq]
        split <;> rfl
    have hrest : makeAll (c :: cs) v s = makeAll cs v (c.make v s).2 := Step.bind_of_ok hone
    rw [hrest]
    exact .call c (ih _)

theorem Builtin.told_withOperands {f : Value → Value → Step Unit} (hf : ∀ a b, (f a b).Told) :
    (Builtin.withOperands f).Told := by
  refine (Step.Told.input _).bind fun a => (Step.Told.input _).bind fun b => ?_
  split
  · exact .complain _
  · exact hf a b

theorem Builtin.told_operation (name : String) (onInts : Int64 → Int64 → Int64)
    (onDoubles : Double → Double → Double) :
    (Builtin.operation name onInts onDoubles).behaviour.Told :=
  told_withOperands fun _ _ => (Step.Told.orFault _).bind fun _ => .setOutput _ _

theorem Builtin.told_branch : Builtin.branch.behaviour.Told := by
  refine (Step.Told.input _).bind fun condition => ?_
  split
  · exact .complain _
  · exact (Step.Told.orFault _).bind fun b => .make (.fire (if b then "true" else "false"))

theorem Builtin.told_counter : Builtin.counter.behaviour.Told := by
  refine (Step.Told.output _).bind fun count => ?_
  split
  · exact .setOutput _ _
  · exact (Step.Told.orFault _).bind fun _ => .setOutput _ _

theorem Builtin.told_divide : Builtin.divide.behaviour.Told := by
  refine told_withOperands fun a b => (Step.Told.orFault _).bind fun y => ?_
  split
  · exact .complain _
  · exact (Step.Told.orFault _).bind fun _ => .setOutput _ _

theorem Builtin.told_lessThan : Builtin.lessThan.behaviour.Told :=
  told_withOperands fun _ _ => (Step.Told.orFault _).bind fun _ => .setOutput _ _

/-- Whatever a built-in type does, it can be told by its calls. -/
theorem Builtin.told_behaviour : ∀ d ∈ Builtin.all, d.behaviour.Told := by
  have hnothing : (pure () : Behaviour).Told := .pure ()
  have htitle : Builtin.title.Told := Step.Told.read.bind fun _ => .pure _
  have hreport (name : String) (entry : String → Value → Entry) :
      (do Step.report (entry (← Builtin.title) (← Step.input name)) : Behaviour).Told :=
    htitle.bind fun _ => (Step.Told.input name).bind fun _ => .report _
  simp only [Builtin.all, Builtin.constants, List.cons_append, List.nil_append,
    List.forall_mem_cons, List.not_mem_nil, false_imp_iff, implies_true, and_true]
  exact ⟨hnothing, hnothing, told_branch, hnothing, told_counter,
    hreport "message" fun title v => .info (title ++ " " ++ v.text), hnothing, hnothing, hnothing,
    hnothing, hreport "value" fun title v => .debug (title ++ " = " ++ v.text),
    told_operation _ _ _, told_operation _ _ _, told_operation _ _ _, told_divide, told_lessThan⟩

/-! ### What calls come to -/

/-- Calls that choose nothing: each of them fires an output and is refused. -/
def Idle (ok : String → Bool) (cs : List Choice) : Prop :=
  ∀ c ∈ cs, ∃ name, c = .fire name ∧ ok name = false

/-- After the last halt among the calls, a name was fired and not refused. -/
def Fired (ok : String → Bool) (cs : List Choice) (name : String) : Prop :=
  ok name = true ∧ ∃ before after, cs = before ++ .fire name :: after ∧ .halt ∉ after

section Calls
variable {ok : String → Bool} {cs : List Choice} {c : Choice} {name : String}

theorem idle_concat : Idle ok (cs ++ [c]) ↔
    Idle ok cs ∧ ∃ name, c = .fire name ∧ ok name = false := by
  simp only [Idle, List.mem_append, List.mem_singleton, or_imp, forall_and, forall_eq]

/-- What calls have fired when one more is made. -/
theorem fired_concat : Fired ok (cs ++ [c]) name ↔
    c ≠ .halt ∧ (Fired ok cs name ∨ c = .fire name ∧ ok name = true) := by
  constructor
  · rintro ⟨hok, before, after, h, hhalt⟩
    rcases List.eq_nil_or_concat after with rfl | ⟨after, last, rfl⟩
    · obtain ⟨-, hlast⟩ := List.append_inj' h rfl
      cases hlast
      exact ⟨nofun, .inr ⟨rfl, hok⟩⟩
    · rw [List.concat_eq_append] at h hhalt
      rw [← List.cons_append, ← List.append_assoc] at h
      obtain ⟨hcs, hlast⟩ := List.append_inj' h rfl
      cases hlast
      refine ⟨fun hc => hhalt ?_, .inl ⟨hok, before, after, hcs, fun hmem => hhalt ?_⟩⟩
      · exact List.mem_append_right after (List.mem_singleton.2 hc.symm)
      · exact List.mem_append_left _ hmem
  · rintro ⟨hc, ⟨hok, before, after, rfl, hhalt⟩ | ⟨rfl, hok⟩⟩
    · refine ⟨hok, before, after ++ [c], by simp, fun hmem => ?_⟩
      rcases List.mem_append.1 hmem with hmem | hmem
      · exact hhalt hmem
      · exact hc (List.mem_singleton.1 hmem).symm
    · exact ⟨hok, cs, [], rfl, List.not_mem_nil⟩

theorem Idle.not_fired (h : Idle ok cs) (name : String) : ¬ Fired ok cs name := by
  rintro ⟨hok, before, after, rfl, -⟩
  obtain ⟨other, hother, hrefused⟩ := h (.fire name) (by simp)
  cases hother
  exact Bool.false_ne_true (hrefused.symm.trans hok)

/-- Nothing is chosen as long as every call is refused. -/
theorem foldl_apply_eq_none_iff : cs.foldl (Choice.apply ok) none = none ↔ Idle ok cs := by
  induction cs using List.reverseRecOn with
  | nil => simp [Idle]
  | append_singleton cs c ih =>
    rw [List.foldl_append, idle_concat, ← ih, List.foldl_cons, List.foldl_nil]
    cases c with
    | halt => simp [Choice.apply]
    | fire name => cases hok : ok name <;> simp [Choice.apply, hok]

/-- What is chosen has been fired after the last halt. -/
theorem mem_foldl_apply {names : List String} (h : cs.foldl (Choice.apply ok) none = some names) :
    name ∈ names ↔ Fired ok cs name := by
  induction cs using List.reverseRecOn generalizing names with
  | nil => cases h
  | append_singleton cs c ih =>
    rw [List.foldl_append, List.foldl_cons, List.foldl_nil] at h
    rw [fired_concat]
    cases c with
    | halt =>
      cases h
      simp
    | fire other =>
      cases hok : ok other with
      | false =>
        simp only [Choice.apply, hok] at h
        have hother : ¬ (Choice.fire other = .fire name ∧ ok name = true) := by
          rintro ⟨heq, hname⟩
          cases heq
          exact Bool.false_ne_true (hok.symm.trans hname)
        rw [ih h, or_iff_left hother]
        exact (and_iff_right nofun).symm
      | true =>
        simp only [Choice.apply, hok, if_true] at h
        cases h
        have hbefore : name ∈ (cs.foldl (Choice.apply ok) none).getD [] ↔ Fired ok cs name := by
          cases hcs : cs.foldl (Choice.apply ok) none with
          | none =>
            have hidle := foldl_apply_eq_none_iff.1 hcs
            exact iff_of_false List.not_mem_nil (hidle.not_fired name)
          | some names => exact ih hcs
        have hname : name = other ↔ Choice.fire other = .fire name ∧ ok name = true := by
          constructor
          · rintro rfl
            exact ⟨rfl, hok⟩
          · rintro ⟨heq, -⟩
            cases heq
            rfl
        rw [List.mem_append, List.mem_singleton, hbefore, hname]
        exact (and_iff_right nofun).symm

end Calls

/-! ### Exercised outputs -/

/-- The node has the outputs that a type declares. -/
def Definition.Declares (d : Definition) (n : Node) : Prop :=
  n.outputs.map Pin.kind = d.outputs.map fun s => (s.name, s.type, s.flow)

/-- Does the first output of a name pass control on? -/
def Definition.fires (d : Definition) (name : String) : Bool :=
  (d.findOutput? name).any (·.flow)

/-- The node exercises the declared flow outputs whose names meet a condition, in the order of
their declaration. -/
structure Node.Exercises (n : Node) (d : Definition) (P : String → Prop) : Prop where
  ordered : n.exercised.Pairwise (· < ·)
  mem_iff : ∀ i, i ∈ n.exercised ↔ ∃ s, d.outputs[i]? = some s ∧ s.flow = true ∧ P s.name

/-- When the node is evaluated, its step makes these calls. -/
def Node.Calls (n : Node) (memory : Memory) (cs : List Choice) : Prop :=
  Course n.view { values := n.outputs.map (·.value), memory } cs (n.attempt memory).2

section Exercised
variable {d : Definition} {n : Node} {P : String → Prop}

theorem Definition.Declares.fires_eq (h : d.Declares n) : Patchbay.fires n.outputs = d.fires := by
  funext name
  have hkind : (n.outputs.find? fun p => p.name = name).map Pin.kind =
      (d.findOutput? name).map fun s => (s.name, s.type, s.flow) := by
    have hfind := congrArg (List.find? fun k : String × ValueType × Bool => k.1 = name) h
    rwa [List.find?_map, List.find?_map] at hfind
  have hflow := congrArg (Option.any (·.2.2)) hkind
  rwa [Option.any_map, Option.any_map] at hflow

theorem Node.ordered_exercised (n : Node) : n.exercised.Pairwise (· < ·) := by
  have hall : (n.outputs.zipIdx.map Prod.snd).Pairwise (· < ·) := by
    rw [List.zipIdx_map_snd]
    exact List.pairwise_lt_range' ..
  exact hall.sublist (List.filter_sublist.map Prod.snd)

theorem Node.mem_exercised_iff {i : Nat} : i ∈ n.exercised ↔ ∃ p, n.outputs[i]? = some p ∧
    p.flow = true ∧ ∀ names, n.selection = some names → p.name ∈ names := by
  simp only [Node.exercised, List.mem_map, List.mem_filter, Prod.exists,
    List.mem_zipIdx_iff_getElem?, Bool.and_eq_true]
  constructor
  · rintro ⟨p, j, ⟨hp, hflow, hname⟩, rfl⟩
    refine ⟨p, hp, hflow, fun names hnames => ?_⟩
    rw [hnames] at hname
    exact of_decide_eq_true hname
  · rintro ⟨p, hp, hflow, hnames⟩
    refine ⟨p, i, ⟨hp, hflow, ?_⟩, rfl⟩
    cases hs : n.selection with
    | none => rfl
    | some names => exact decide_eq_true (hnames names hs)

/-- Which flow outputs are exercised is decided by the selection. -/
theorem Node.exercises_of_declares (h : d.Declares n)
    (hP : ∀ name, P name ↔ ∀ names, n.selection = some names → name ∈ names) :
    n.Exercises d P := by
  refine ⟨n.ordered_exercised, fun i => ?_⟩
  have hi := congrArg (·[i]?) h
  simp only [List.getElem?_map] at hi
  rw [Node.mem_exercised_iff]
  constructor
  · rintro ⟨p, hp, hflow, hname⟩
    rw [hp, Option.map_some] at hi
    obtain ⟨s, hs, hkind⟩ := Option.map_eq_some_iff.1 hi.symm
    simp only [Pin.kind, Prod.mk.injEq] at hkind
    obtain ⟨hsame, -, hboth⟩ := hkind
    exact ⟨s, hs, hboth.trans hflow, hsame ▸ (hP p.name).2 hname⟩
  · rintro ⟨s, hs, hflow, hname⟩
    rw [hs, Option.map_some] at hi
    obtain ⟨p, hp, hkind⟩ := Option.map_eq_some_iff.1 hi
    simp only [Pin.kind, Prod.mk.injEq] at hkind
    obtain ⟨hsame, -, hboth⟩ := hkind
    exact ⟨p, hp, hboth.trans hflow, hsame ▸ (hP s.name).1 hname⟩

end Exercised

/-! ### Evaluations of a node -/

/-- An evaluation of a node among others: what is done to the node before, which keeps the declared
outputs, and what earlier steps have left behind. -/
structure Visit where
  prepare : Node → Node
  keeps : ∀ d n, Definition.Declares d n → d.Declares (prepare n)
  memory : Memory := []

/-- To evaluate the node. -/
def Visit.evaluate (v : Visit) (n : Node) : Node := ((v.prepare n).step v.memory).node

/-- A node of the type after some evaluations. -/
def Definition.visited (d : Definition) (ids : IdSupply) (vs : List Visit) : Node :=
  vs.foldl (fun n v => v.evaluate n) (d.make ids).1

theorem Definition.declares_make (d : Definition) (ids : IdSupply) : d.Declares (d.make ids).1 :=
  Node.map_kind_makePins d.outputs _

/-- A step keeps the outputs as they are declared. -/
theorem Definition.Declares.step {d : Definition} {n : Node} (h : d.Declares n) (m : Memory) :
    d.Declares (n.step m).node := by
  have hbare := congrArg (List.map Pin.kind) (n.map_bare_pins_step m .output)
  rw [List.map_map, List.map_map] at hbare
  exact hbare.trans h

theorem Definition.declares_visited (d : Definition) (ids : IdSupply) (vs : List Visit) :
    d.Declares (d.visited ids vs) := by
  induction vs using List.reverseRecOn with
  | nil => exact d.declares_make ids
  | append_singleton vs v ih =>
    rw [visited, List.foldl_append]
    exact (v.keeps d _ ih).step v.memory

/-- What a step does has nothing to do with earlier choices. -/
theorem Node.step_of_selection (n : Node) (choice : Option (List String)) (m : Memory) :
    { n with selection := choice }.step m = n.step m := by
  cases hn : n.enabled with
  | false => simp only [Node.step, hn]; rfl
  | true => simp only [Node.step, hn, if_true]; rfl

theorem Node.selection_step_of_disabled {n : Node} (h : n.enabled = false) (m : Memory) :
    (n.step m).node.selection = none := by
  rw [Node.step, h]
  rfl

/-- A step has chosen what its calls come to. -/
theorem Node.Calls.selection {n : Node} {m : Memory} {cs : List Choice} (h : n.Calls m cs)
    (hn : n.enabled = true) :
    (n.step m).node.selection = cs.foldl (Choice.apply (fires n.outputs)) none := by
  rw [Node.step, hn, if_pos rfl]
  exact Course.selection h

/-- After every step of a node, whatever steps came before, the flow outputs exercised are all of
them, in the order of their declaration, if the step made no call that was carried out, or if the
node is disabled; otherwise those that the step fired after its last halt. -/
theorem exercised_visited (d : Definition) (ids : IdSupply) (vs : List Visit) (v : Visit) :
    let n := v.prepare (d.visited ids vs)
    let after := d.visited ids (vs ++ [v])
    (n.enabled = false → after.Exercises d fun _ => True) ∧
    (n.enabled = true → ∀ cs, n.Calls v.memory cs →
      (Idle d.fires cs → after.Exercises d fun _ => True) ∧
      (¬ Idle d.fires cs → after.Exercises d (Fired d.fires cs))) ∧
    ∀ choice, { n with selection := choice }.step v.memory = n.step v.memory := by
  intro n after
  have hn : d.Declares n := v.keeps d _ (d.declares_visited ids vs)
  have hafter : after = (n.step v.memory).node := by
    rw [show after = d.visited ids (vs ++ [v]) from rfl, Definition.visited, List.foldl_append]
    rfl
  have hdeclares : d.Declares after := hafter ▸ hn.step v.memory
  refine ⟨fun hdisabled => ?_, fun henabled cs hcs => ⟨fun hidle => ?_, fun hchoice => ?_⟩,
    fun choice => n.step_of_selection choice v.memory⟩
  · have hnone : after.selection = none := hafter ▸ Node.selection_step_of_disabled hdisabled _
    exact Node.exercises_of_declares hdeclares fun _ => by simp [hnone]
  all_goals
    have hselection : after.selection = cs.foldl (Choice.apply d.fires) none := by
      rw [hafter, hcs.selection henabled, hn.fires_eq]
  · have hnone : after.selection = none := hselection.trans (foldl_apply_eq_none_iff.2 hidle)
    exact Node.exercises_of_declares hdeclares fun _ => by simp [hnone]
  · have hsome : after.selection ≠ none := fun hnone =>
      hchoice (foldl_apply_eq_none_iff.1 (hselection.symm.trans hnone))
    obtain ⟨names, hnames⟩ := Option.ne_none_iff_exists'.1 hsome
    refine Node.exercises_of_declares hdeclares fun name => ?_
    rw [← mem_foldl_apply (hselection.symm.trans hnames), hnames]
    simp

namespace RepeatedNames

/-- One call too early, one that is refused since a data output is the first of its name, and one
that two outputs answer to. -/
def calls : List Choice := [.fire "z", .halt, .fire "y", .fire "x"]

def definition : Definition where
  name := "repeated"
  category := "flow"
  outputs := [.control "x", .data "y" .int, .control "x", .control "y", .control "z"]
  behaviour := Choice.makeAll calls

def disabled : Visit where
  prepare n := { n with enabled := false }
  keeps _ _ h := h

def enabled : Visit where
  prepare n := { n with enabled := true }
  keeps _ _ h := h

/-- The node when its second step begins. -/
def node : Node := enabled.prepare (definition.visited {} [disabled])

end RepeatedNames

/-- After a step while it was disabled, a node makes calls of every kind. -/
theorem exercised_visited_repeatedNames :
    RepeatedNames.node.enabled = true ∧ RepeatedNames.node.Calls [] RepeatedNames.calls ∧
    ¬ Idle RepeatedNames.definition.fires RepeatedNames.calls ∧
    (RepeatedNames.definition.visited {} [RepeatedNames.disabled, RepeatedNames.enabled]).Exercises
      RepeatedNames.definition (Fired RepeatedNames.definition.fires RepeatedNames.calls) := by
  have hcalls : RepeatedNames.node.Calls [] RepeatedNames.calls := Choice.course_makeAll _ _ _
  have hchoice : ¬ Idle RepeatedNames.definition.fires RepeatedNames.calls := fun h => by
    obtain ⟨name, hname, -⟩ := h .halt (by decide)
    cases hname
  have h :=
    exercised_visited RepeatedNames.definition {} [RepeatedNames.disabled] RepeatedNames.enabled
  exact ⟨rfl, hcalls, hchoice, (h.2.1 rfl RepeatedNames.calls hcalls).2 hchoice⟩

example :
    (RepeatedNames.definition.visited {}
      [RepeatedNames.disabled, RepeatedNames.enabled]).exercised = [0, 2] := by decide +kernel

end Patchbay
