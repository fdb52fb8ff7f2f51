import Patchbay.Registry
/-!
# The built-in node types

The types that every registry can be filled with: entry points, branches and loops for
control, constants and sinks for values, and arithmetic. Arithmetic on two integers stays in
integers; otherwise both operands are read as doubles.
-/
namespace Patchbay.Builtin
open Definition

/-! ### Control -/

def start : Definition :=
  describe ⟨"start", "flow", "", [], [], pure ()⟩ "Entry point of a control-flow graph"
    |>.flowOutput

def sequence : Definition :=
  describe ⟨"sequence", "flow", "", [], [], pure ()⟩ "Runs both outputs in order"
    |>.flowInput |>.flowOutput "then_0" |>.flowOutput "then_1"

def branch : Definition :=
  (⟨"branch", "flow", "", [], [], pure ()⟩ : Definition)
    |>.flowInput |>.input "condition" .bool (.bool false)
    |>.flowOutput "true" |>.flowOutput "false"
    |>.onStep do
      let condition ← Step.input "condition"
      if condition.isNull then Step.complain "Input 'condition' is not set"
      else
        let b ← Step.orFault condition.asBool
        Step.fire (if b then "true" else "false")

def merge : Definition :=
  (⟨"merge", "flow", "", [], [], pure ()⟩ : Definition)
    |>.flowInput "in_0" |>.flowInput "in_1" |>.flowOutput

def counter : Definition :=
  (⟨"counter", "flow", "", [], [], pure ()⟩ : Definition)
    |>.flowInput |>.flowOutput |>.output "count" .int (.int 0)
    |>.onStep do
      let count ← Step.output "count"
      let n ← if count.isNull then pure 0 else Step.orFault count.asInt
      Step.setOutput "count" (.int (n + 1))

/-- The name of a node in brackets. -/
def title : Step String := return "[" ++ (← read).name ++ "]"

def print : Definition :=
  (⟨"print", "flow", "", [], [], pure ()⟩ : Definition)
    |>.flowInput |>.flowOutput |>.input "message" .any
    |>.onStep do
      Step.report (.info ((← title) ++ " " ++ (← Step.input "message").text))

/-! ### Values -/

/-- A type whose nodes hold one value. -/
def constant (name : String) (type : ValueType) (initial : Value) : Definition :=
  (⟨name, "value", "", [], [], pure ()⟩ : Definition) |>.output "value" type initial

def constants : List Definition :=
  [constant "int_value" .int (.int 0), constant "double_value" .double (.double (.of 0)),
    constant "string_value" .string (.string ""), constant "bool_value" .bool (.bool false)]

def sink : Definition :=
  describe ⟨"output", "value", "", [], [], pure ()⟩ "Data-flow sink"
    |>.input "value" .any
    |>.onStep do
      Step.report (.debug ((← title) ++ " = " ++ (← Step.input "value").text))

/-! ### Arithmetic -/

/-- The complaint about two operands that cannot be reckoned with. -/
def operandComplaint? (a b : Value) : Option String :=
  if a.isNull then some "Input 'a' is not set"
  else if b.isNull then some "Input 'b' is not set"
  else if a.isNumeric && b.isNumeric then none
  else some "Inputs must be numeric"

/-- A step on two operands, or the complaint about them. -/
def withOperands (f : Value → Value → Step Unit) : Behaviour := do
  let a ← Step.input "a"
  let b ← Step.input "b"
  match operandComplaint? a b with
  | some message => Step.complain message
  | none => f a b

/-- The result of an operation on two numbers. -/
def compute (onInts : Int64 → Int64 → Int64) (onDoubles : Double → Double → Double)
    (a b : Value) : Except Value.ReadError Value :=
  match a, b with
  | .int m, .int n => .ok (.int (onInts m n))
  | _, _ => do return .double (onDoubles (← a.asDouble) (← b.asDouble))

/-- The type of an operation with two operands. -/
def operation (name : String) (onInts : Int64 → Int64 → Int64)
    (onDoubles : Double → Double → Double) : Definition :=
  (⟨name, "math", "", [], [], pure ()⟩ : Definition)
    |>.input "a" .any (.int 0) |>.input "b" .any (.int 0) |>.output "result" .any
    |>.onStep (withOperands fun a b => do
      Step.setOutput "result" (← Step.orFault (compute onInts onDoubles a b)))

def add : Definition := operation "add" (· + ·) (· + ·)

def subtract : Definition := operation "subtract" (· - ·) (· - ·)

def multiply : Definition := operation "multiply" (· * ·) (· * ·)

def divide : Definition :=
  (⟨"divide", "math", "", [], [], pure ()⟩ : Definition)
    |>.input "a" .any (.int 0) |>.input "b" .any (.int 1) |>.output "result" .double
    |>.onStep (withOperands fun a b => do
      let y ← Step.orFault b.asDouble
      if y.agrees (.of 0) then Step.complain "Division by zero"
      else
        let x ← Step.orFault a.asDouble
        Step.setOutput "result" (.double (x / y)))

/-- Is the first of two numbers less than the second, both read as doubles? -/
def isLess (a b : Value) : Except Value.ReadError Bool :=
  do return (← a.asDouble).less (← b.asDouble)

def lessThan : Definition :=
  (⟨"less_than", "math", "", [], [], pure ()⟩ : Definition)
    |>.input "a" .any (.int 0) |>.input "b" .any (.int 0)
    |>.output "result" .bool (.bool false)
    |>.onStep (withOperands fun a b => do
      Step.setOutput "result" (.bool (← Step.orFault (isLess a b))))

/-- All built-in types. -/
def all : List Definition :=
  [start, sequence, branch, merge, counter, print] ++ constants ++
    [sink, add, subtract, multiply, divide, lessThan]

/-- A registry with the built-in types registered in it. -/
def registerAll (r : Registry) : Registry := all.foldl (fun r d => r.register (some d)) r

end Patchbay.Builtin
