import Patchbay.Document.Graph
import Patchbay.Document.Reader
/-!
# Runs of the reader

Reading either fails or comes to a result and a changed draft. A run without failure is put
together from the runs of its parts, and the parts that read what was written for a value, a pin
or a node come to that value, pin or node again.

## Main definitions

* `Loader.Runs`: a part of reading comes to a result and a draft.
* `Pin.restored`, `Node.restored`: a new pin or node with what is written of another one.

## Main statements

* `toValue_ofValue`: a value is read as it was written.
* `Loader.Runs.nodeOf`: a node is read as it was written.
-/
namespace Patchbay

/-- A new pin with the id and the value of another one. Flow pins take no value. -/
def Pin.restored (p q : Pin) : Pin := { q with id := p.id }.assign p.value

/-- A new node with all that is written of another one. -/
def Node.restored (n m : Node) : Node :=
  { m with
    id := n.id
    name := n.name
    position := n.position
    enabled := n.enabled
    groupId := n.groupId
    inputs := List.zipWith Pin.restored n.inputs m.inputs
    outputs := List.zipWith Pin.restored n.outputs m.outputs }

namespace Document

/-- A value is read as it was written. -/
@[simp] theorem toValue_ofValue (v : Value) : toValue (ofValue v) = .ok v := by
  cases v with
  | null => rfl
  | int n =>
    simp [toValue, ofValue, content, typeName, Value.type, ValueType.label, Json.member?,
      orMismatch, Json.asString, Json.isNull, Json.kind, readAs, Json.asInt]
    rfl
  | double x => rfl
  | string s => rfl
  | bool b => rfl

/-- A text that may be missing is read as it was written. -/
theorem optionalString_of_member {j : Json} {key : String} {o : Option String}
    (h : j.member? key = some (.ofOption o)) : j.optionalString key = .ok o := by
  simp only [Json.optionalString, h]
  cases o <;> rfl

namespace Loader
variable {α β : Type}

/-- A part of reading comes to a result and a draft. -/
def Runs (x : Loader α) (d : Draft) (a : α) (d' : Draft) : Prop := x.run d = (.ok a, d')

/-- What was raised is raised again as something else. -/
theorem run_rethrow (x : Loader α) (g : Raised → Raised) (d : Draft) :
    (tryCatch x fun e => throw (g e)).run d = match x.run d with
      | (.ok a, d') => (.ok a, d')
      | (.error e, d') => (.error (g e), d') := by
  have hrun : x d = x.run d := rfl
  change (ExceptT.tryCatch x fun e => throw (g e)) d = _
  simp only [ExceptT.tryCatch, ExceptT.mk, bind, StateT.bind, hrun]
  cases x.run d with
  | mk r d' => cases r <;> rfl

namespace Runs
variable {x : Loader α} {f : α → Loader β} {d d₁ d₂ : Draft} {a : α} {b : β}

protected theorem pure (a : α) (d : Draft) : Runs (Pure.pure a) d a d := rfl

/-- Parts of reading follow each other. -/
protected theorem bind (hx : Runs x d a d₁) (hf : Runs (f a) d₁ b d₂) : Runs (x >>= f) d b d₂ := by
  have hx : x d = (.ok a, d₁) := hx
  change ExceptT.bindCont f (x d).1 (x d).2 = _
  rw [hx]
  exact hf

/-- A part of reading comes to the same whatever becomes of what it could raise. -/
theorem rethrow_iff {g : Raised → Raised} :
    Runs (tryCatch x fun e => throw (g e)) d a d₁ ↔ Runs x d a d₁ := by
  rw [Runs, Runs, run_rethrow]
  rcases x.run d with ⟨_ | _, _⟩
  · exact iff_of_false nofun nofun
  · exact Iff.rfl

theorem change (f : Graph → Graph) (d : Draft) :
    Runs (Loader.change f) d () { d with graph := f d.graph } := rfl

/-- A change without effect does nothing. -/
theorem unchanged {f : Graph → Graph} {d : Draft} (h : f d.graph = d.graph) :
    Runs (Loader.change f) d () d := by
  have hrun := change f d
  rwa [h] at hrun

theorem freshId (g : Graph) (j : Journal) :
    Runs Loader.freshId ⟨g, j⟩ g.freshId.1 ⟨g.freshId.2, j⟩ := rfl

theorem get (d : Draft) : Runs (MonadState.get : Loader Draft) d d d := rfl

theorem set (d d' : Draft) : Runs (MonadStateOf.set d' : Loader PUnit) d ⟨⟩ d' := rfl

theorem need (a : α) (d : Draft) : Runs (Loader.need (.ok a)) d a d := rfl

/-- Numbers are read as they were written. -/
theorem numbers (xs : List Float) (d : Draft) :
    Runs (Loader.numbers xs.length (xs.map fun x => Json.double (.of x))) d xs d := by
  rw [Loader.numbers, List.take_of_length_le (Nat.le_of_eq (List.length_map _))]
  induction xs with
  | nil => exact .pure [] d
  | cons x xs ih =>
    rw [List.map_cons, List.mapM_cons]
    refine ((need (Double.of x) d).bind (Runs.pure x d)).bind ?_
    exact ih.bind (Runs.pure (x :: xs) d)

theorem forM_nil (f : α → Loader PUnit) (d : Draft) : Runs ([].forM f) d ⟨⟩ d := rfl

theorem forM_cons {f : α → Loader PUnit} {a : α} {as : List α} (ha : Runs (f a) d ⟨⟩ d₁)
    (has : Runs (as.forM f) d₁ ⟨⟩ d₂) : Runs ((a :: as).forM f) d ⟨⟩ d₂ := ha.bind has

/-- A pin is read as it was written. -/
theorem pin {p q : Pin} (hflow : q.flow = p.flow) (d : Draft) :
    Runs (Loader.pin (ofPin p) q) d (p.restored q) d := by
  have hid : (ofPin p).member? "id" = some (.string p.id) := rfl
  have hvalue : (ofPin p).member? "value" = if p.flow then none else some (ofValue p.value) := by
    simp only [ofPin]
    split <;> rfl
  simp only [Loader.pin, hid, hvalue, Json.asString]
  refine (Runs.need p.id d).bind ((Runs.pure { q with id := p.id } d).bind ?_)
  cases hp : p.flow with
  | true =>
    have hsame : p.restored q = { q with id := p.id } := by
      simp [Pin.restored, Pin.assign, hflow, hp]
    rw [hsame]
    rfl
  | false =>
    have hq : ¬ q.flow = true := by simp [hflow, hp]
    simp only [Bool.false_eq_true, if_false, toValue_ofValue]
    rw [if_neg hq]
    exact .pure _ d

theorem pinList {ps qs : List Pin} (h : qs.map (·.flow) = ps.map (·.flow)) (d : Draft) :
    Runs (Loader.pinList (ps.map ofPin) qs) d (List.zipWith Pin.restored ps qs) d := by
  induction ps generalizing qs with
  | nil =>
    obtain rfl : qs = [] := List.map_eq_nil_iff.1 h
    rfl
  | cons p ps ih =>
    cases qs with
    | nil => cases h
    | cons q qs =>
      obtain ⟨hq, hqs⟩ := List.cons.inj h
      exact (pin hq d).bind ((ih hqs).bind (.pure _ d))

/-- A node is read as it was written. -/
theorem nodeOf {n m : Node} (hflow : ∀ s, (m.pins s).map (·.flow) = (n.pins s).map (·.flow))
    (type : String) (d : Draft) :
    Runs (Loader.nodeOf (ofNode n) n.id type m) d (n.restored m) d := by
  have hgroup : (ofNode n).optionalString "group_id" = .ok n.groupId :=
    optionalString_of_member rfl
  have hposition : itemsOf? (ofNode n) "position" 2 =
      some [.double n.position.x, .double n.position.y] := rfl
  simp only [Loader.nodeOf, hgroup, hposition]
  refine (Runs.need n.name d).bind ((Runs.need n.enabled d).bind ((Runs.need n.groupId d).bind ?_))
  refine (Runs.numbers [n.position.x, n.position.y] d).bind ?_
  refine (Runs.pure n.position d).bind ((pinList (hflow .input) d).bind ?_)
  exact (pinList (hflow .output) d).bind (.pure _ d)

end Runs
end Loader
end Document
end Patchbay
