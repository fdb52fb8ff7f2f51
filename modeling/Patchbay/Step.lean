import Patchbay.Graph.Pin
import Patchbay.Journal
/-!
# Evaluation steps

What a node does when it is evaluated is a step: a computation that sees the node's
identity and pins, and that can write the values of data outputs, choose flow outputs,
complain, report to the journal, ask for the end of the run and remember things for later. A
step that fails keeps what it wrote before.
-/
namespace Patchbay

/-- Why a step fails. -/
inductive Fault where
  /-- A value could not be read as the type needed. -/
  | unreadable (e : Value.ReadError)
  | noFlowOutput (type pin : String)
  | noDataOutput (type pin : String)
  /-- The step gave up with a message. -/
  | failed (message : String)
  /-- The step refused its input with a message. -/
  | refused (message : String)
  /-- The step broke off without saying why. -/
  | unnamed
  deriving DecidableEq

/-- The wording of a fault. -/
def Fault.message (e : Fault) : String :=
  Text.untilNul <| match e with
    | .unreadable e => e.message
    | .noFlowOutput type pin => "Node '" ++ type ++ "' has no flow output: " ++ pin
    | .noDataOutput type pin => "Node '" ++ type ++ "' has no data output: " ++ pin
    | .failed message => message
    | .refused message => message
    | .unnamed => "Unknown error"

/-- What a step can see: the node's identity and its pins. -/
structure StepView where
  id : String
  type : String
  name : String
  inputs : List Pin
  outputs : List Pin

/-- What steps leave behind for the steps after them, of whichever node. -/
abbrev Memory := List Value

/-- What a step can change. -/
structure StepState where
  /-- The values of the output pins, in their order. -/
  values : List Value
  /-- The names of the flow outputs chosen so far; none before the first choice. -/
  selection : Option (List String) := none
  /-- The message with which the node fails once the step is over. -/
  complaint : Option String := none
  journal : Journal := []
  /-- Was the end of the run asked for? -/
  cancelled : Bool := false
  memory : Memory := []

/-- A computation inside an evaluation step. -/
abbrev Step := ReaderT StepView (ExceptT Fault (StateM StepState))

/-- What the nodes of a type do when they are evaluated. -/
abbrev Behaviour := Step Unit

namespace Step

/-- The first pin of a name, with its place. -/
def locate (pins : List Pin) (name : String) : Option (Nat × Pin) :=
  (pins.zipIdx.find? (fun p => p.1.name = name)).map fun p => (p.2, p.1)

/-- The value of a data input; null if there is no such input. -/
def input (name : String) : Step Value := do
  match locate (← read).inputs name with
  | some (_, p) => return if p.flow then .null else p.value
  | none => return .null

/-- Is there a value other than null on a data input? -/
def hasInput (name : String) : Step Bool := return !(← input name).isNull

/-- Does a wire feed the input? -/
def isConnected (name : String) : Step Bool := do
  match locate (← read).inputs name with
  | some (_, p) => return p.incoming.isSome
  | none => return false

/-- The value of a data output; null if there is no such output. -/
def output (name : String) : Step Value := do
  match locate (← read).outputs name with
  | some (i, p) =>
    let s ← get
    return if p.flow then .null else s.values[i]?.getD .null
  | none => return .null

/-- Write the value of a data output. -/
def setOutput (name : String) (v : Value) : Step Unit := do
  match locate (← read).outputs name with
  | some (i, p) =>
    if p.flow then throw (.noDataOutput (← read).type name)
    else modify fun s => { s with values := s.values.set i v }
  | none => throw (.noDataOutput (← read).type name)

/-- Choose a flow output. -/
def fire (name : String) : Step Unit := do
  match locate (← read).outputs name with
  | some (_, p) =>
    if p.flow then
      modify fun s => { s with selection := some (s.selection.getD [] ++ [name]) }
    else throw (.noFlowOutput (← read).type name)
  | none => throw (.noFlowOutput (← read).type name)

/-- Take back every choice: no flow output is chosen. -/
def halt : Step Unit := modify fun s => { s with selection := some [] }

/-- Fail with a message once the step is over. -/
def complain (message : String) : Step Unit :=
  modify fun s => { s with complaint := some message }

/-- Report to the journal. -/
def report (e : Entry) : Step Unit := modify fun s => { s with journal := s.journal ++ [e] }

/-- Ask for the end of the run. -/
def cancel : Step Unit := modify fun s => { s with cancelled := true }

/-- What earlier steps left behind. -/
def remembered : Step Memory := return (← get).memory

/-- Leave something behind for later steps. -/
def remember (m : Memory) : Step Unit := modify fun s => { s with memory := m }

/-- The result of reading a value, or the fault that it cannot be read. -/
def orFault {α : Type} : Except Value.ReadError α → Step α
  | .ok a => return a
  | .error e => throw (.unreadable e)

end Step
end Patchbay
