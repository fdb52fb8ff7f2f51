import Patchbay.Proofs.Decimal.Widened
import Patchbay.Proofs.Run.Choices
/-!
# Comparison and subtraction of integers

The two built-in types that tell how integers are ordered go different ways: a subtraction of
integers stays in integers, but a comparison reads both as doubles. Integers with more than 53 bits
can come to the same double, and then neither is less than the other.

## Main definitions

* `Node.Operates`: a node of a type with two operands is about to be evaluated on two values.
* `Node.Gives`: a step succeeds and leaves a value on the only output.

## Main statements

* `Node.Operates.gives_lessThan`, `Node.Operates.gives_subtract`: what the two types compute.
* `Builtin.lessThan_subtract`: how far the two agree on the order of two integers.
-/
namespace Patchbay
open Decimal.Binary (shortened)

/-! ### Nodes with two operands -/

/-- The first input of a name holds a value. -/
def Node.Holds (n : Node) (name : String) (v : Value) : Prop :=
  ∃ p, n.inputs.find? (fun p => p.name = name) = some p ∧ p.flow = false ∧ p.value = v

/-- A node of a type is about to be evaluated on two operands. -/
structure Node.Operates (n : Node) (d : Definition) (a b : Value) : Prop where
  enabled : n.enabled = true
  behaviour : n.behaviour = d.behaviour
  outputs : d.Declares n
  left : n.Holds "a" a
  right : n.Holds "b" b

/-- A step of the node succeeds and leaves a value on the only output. -/
def Node.Gives (n : Node) (memory : Memory) (v : Value) : Prop :=
  (n.step memory).outcome = .ok () ∧ (n.step memory).node.outputs.map (·.value) = [v]

theorem Node.Gives.unique {n : Node} {m : Memory} {v w : Value} (h : n.Gives m v)
    (h' : n.Gives m w) : v = w :=
  List.singleton_inj.1 (h.2.symm.trans h'.2)

/-- A new node of a type, whose first two inputs are given values. -/
def Definition.given (d : Definition) (ids : IdSupply) (a b : Value) : Node :=
  ((d.make ids).1.modifyPin .input 0 (·.assign a)).modifyPin .input 1 (·.assign b)

/-- A new node operates on the values that its inputs are given. -/
theorem Definition.operates_given {d : Definition} {x y : Value}
    (hd : d.inputs = [.data "a" .any x, .data "b" .any y]) (ids : IdSupply) (a b : Value) :
    (d.given ids a b).Operates d a b := by
  obtain ⟨name, category, description, inputs, outputs, behaviour⟩ := d
  obtain rfl : inputs = _ := hd
  exact ⟨rfl, rfl, Definition.declares_make _ ids, ⟨_, rfl, rfl, rfl⟩, ⟨_, rfl, rfl, rfl⟩⟩

section Operations
variable {n : Node} {d : Definition} {a b v : Value} {x y : Int64}

/-- A step reads the value that the input holds. -/
theorem Node.Holds.input {name : String} (h : n.Holds name v) (s : StepState) :
    Step.input name n.view s = (.ok v, s) := by
  obtain ⟨p, hp, hflow, rfl⟩ := h
  rw [← Step.locate_map_snd] at hp
  obtain ⟨⟨i, q⟩, hq, rfl⟩ := Option.map_eq_some_iff.1 hp
  simp only at hflow
  rw [Step.input, Step.bind_of_ok (Step.read_eq n.view s),
    show Step.locate n.view.inputs name = some (i, q) from hq]
  simp only [hflow, Bool.false_eq_true, if_false]
  rfl

/-- A step writes the only output. -/
theorem Node.setOutput_single {p : Pin} (hp : n.outputs = [p]) (hflow : p.flow = false) (v : Value)
    (s : StepState) :
    Step.setOutput p.name v n.view s = (.ok (), { s with values := s.values.set 0 v }) := by
  have hlocate : Step.locate n.view.outputs p.name = some (0, p) := by
    simp [Step.locate, Node.view, hp]
  rw [Step.setOutput, Step.bind_of_ok (Step.read_eq n.view s), hlocate]
  simp only [hflow, Bool.false_eq_true, if_false]
  rfl

/-- An operation is carried out on operands that can be reckoned with. -/
theorem Node.Operates.run_withOperands (h : n.Operates d a b)
    (hoperands : Builtin.operandComplaint? a b = none) (f : Value → Value → Step Unit)
    (s : StepState) : Builtin.withOperands f n.view s = f a b n.view s := by
  rw [Builtin.withOperands, Step.bind_of_ok (h.left.input s), Step.bind_of_ok (h.right.input s),
    hoperands]

/-- A node of a type with one output gives what its operation writes there. -/
theorem Node.Operates.gives {f : Value → Value → Step Unit} {type : ValueType} {initial : Value}
    (h : n.Operates d a b) (hd : d.behaviour = Builtin.withOperands f)
    (houtputs : d.outputs = [.data "result" type initial])
    (hoperands : Builtin.operandComplaint? a b = none) (hf : f a b = Step.setOutput "result" v)
    (m : Memory) : n.Gives m v := by
  have hkind : n.outputs.map Pin.kind = [("result", type, false)] := by
    rw [h.outputs, houtputs]
    rfl
  obtain ⟨p, hp, hkind⟩ := List.map_eq_singleton_iff.1 hkind
  simp only [Pin.kind, Prod.mk.injEq] at hkind
  obtain ⟨hname, -, hflow⟩ := hkind
  have hattempt : n.attempt m = (.ok (), { values := [v], memory := m }) := by
    rw [Node.attempt, h.behaviour, hd, h.run_withOperands hoperands, hf, ← hname,
      Node.setOutput_single hp hflow, hp]
    rfl
  rw [Node.Gives, Node.step, if_pos h.enabled]
  simp only [hattempt]
  refine ⟨rfl, ?_⟩
  simp [hp, assignAll, hflow]

theorem natAbs_toInt_le (x : Int64) : x.toInt.natAbs ≤ 2 ^ 63 := by
  have hlow := x.le_toInt
  have hhigh := x.toInt_lt
  omega

/-- Of two integers one is less than the other if it is less after both are rounded to doubles. -/
theorem Node.Operates.gives_lessThan (h : n.Operates Builtin.lessThan (.int x) (.int y))
    (m : Memory) : n.Gives m (.bool (decide (shortened x.toInt < shortened y.toInt))) := by
  have hless : Builtin.isLess (.int x) (.int y) =
      .ok (decide (shortened x.toInt < shortened y.toInt)) :=
    congrArg Except.ok (decide_eq_decide.2
      (Decimal.Binary.ofInt_lt_ofInt_iff (natAbs_toInt_le x) (natAbs_toInt_le y)))
  refine h.gives rfl rfl rfl ?_ m
  simp only [hless]
  rfl

/-- Two integers are subtracted in 64 bits. -/
theorem Node.Operates.gives_subtract (h : n.Operates Builtin.subtract (.int x) (.int y))
    (m : Memory) : n.Gives m (.int (x - y)) :=
  h.gives rfl rfl rfl rfl m

end Operations

/-! ### Order and difference -/

theorem toInt_sub_of_fits {x y : Int64} (h : Numeral.fits (x.toInt - y.toInt) = true) :
    (x - y).toInt = x.toInt - y.toInt := by
  simp only [Numeral.fits, Bool.and_eq_true, decide_eq_true_eq] at h
  rw [Int64.toInt_sub]
  exact Int.bmod_eq_of_le h.1 (Int.lt_of_le_of_lt h.2 (by decide))

/-- A difference that has a place in 64 bits is negative if the first integer is less. -/
theorem sub_neg_iff_of_fits {x y : Int64} (h : Numeral.fits (x.toInt - y.toInt) = true) :
    x - y < 0 ↔ x < y := by
  rw [Int64.lt_iff_toInt_lt, Int64.lt_iff_toInt_lt, toInt_sub_of_fits h]
  exact sub_neg

/-- Both types have a result for any two integers. The comparison holds if the first integer is
less, unless the two are the same double; that is not so if they have 53 bits at most or if they lie
far apart. The difference is exact and tells the order whenever it has a place in 64 bits. -/
theorem Builtin.lessThan_subtract {x y : Int64} {l s : Node}
    (hl : l.Operates lessThan (.int x) (.int y)) (hs : s.Operates subtract (.int x) (.int y))
    (ml ms : Memory) :
    ∃ less difference, l.Gives ml (.bool less) ∧ s.Gives ms (.int difference) ∧
      (less = true ↔ x < y ∧ shortened x.toInt ≠ shortened y.toInt) ∧
      (x.toInt.natAbs ≤ 2 ^ 53 ∧ y.toInt.natAbs ≤ 2 ^ 53 ∨ 2 ^ 10 < |y.toInt - x.toInt| →
        (less = true ↔ x < y)) ∧
      (Numeral.fits (x.toInt - y.toInt) = true →
        difference.toInt = x.toInt - y.toInt ∧ (difference < 0 ↔ x < y)) := by
  have hless : decide (shortened x.toInt < shortened y.toInt) = true ↔
      x < y ∧ shortened x.toInt ≠ shortened y.toInt := by
    rw [decide_eq_true_iff, Decimal.Binary.shortened_lt_iff, Int64.lt_iff_toInt_lt]
  refine ⟨_, _, hl.gives_lessThan ml, hs.gives_subtract ms, hless, fun h => ?_,
    fun h => ⟨toInt_sub_of_fits h, sub_neg_iff_of_fits h⟩⟩
  rw [hless]
  refine and_iff_left_of_imp fun hlt => ?_
  rw [Int64.lt_iff_toInt_lt] at hlt
  rcases h with ⟨hx, hy⟩ | hfar
  · rw [Decimal.Binary.shortened_eq_self hx, Decimal.Binary.shortened_eq_self hy]
    exact hlt.ne
  · rw [abs_of_pos (sub_pos.2 hlt)] at hfar
    exact (Decimal.Binary.shortened_lt_of_far (natAbs_toInt_le x) (natAbs_toInt_le y) hfar).ne

/-- Past 53 bits the comparison fails on two integers that are the same double and holds on two that
lie far apart. The differences are exact. -/
theorem Builtin.lessThan_subtract_past_53_bits :
    let x : Int64 := 9007199254740992
    let near : Int64 := 9007199254740993
    let far : Int64 := 9007199254742992
    (∀ y ∈ [near, far], (lessThan.given {} (.int x) (.int y)).Operates lessThan (.int x) (.int y) ∧
      (subtract.given {} (.int x) (.int y)).Operates subtract (.int x) (.int y) ∧ x < y) ∧
    (lessThan.given {} (.int x) (.int near)).Gives [] (.bool false) ∧
    (subtract.given {} (.int x) (.int near)).Gives [] (.int (-1)) ∧
    (lessThan.given {} (.int x) (.int far)).Gives [] (.bool true) ∧
    (subtract.given {} (.int x) (.int far)).Gives [] (.int (-2000)) := by
  intro x near far
  have hl (y : Int64) :
      (lessThan.given {} (.int x) (.int y)).Operates lessThan (.int x) (.int y) :=
    Definition.operates_given rfl _ _ _
  have hs (y : Int64) :
      (subtract.given {} (.int x) (.int y)).Operates subtract (.int x) (.int y) :=
    Definition.operates_given rfl _ _ _
  have hless : ∀ y ∈ [near, far], x < y := by
    simp only [List.forall_mem_cons, Int64.lt_iff_toInt_lt]
    exact ⟨by decide +kernel, by decide +kernel, List.forall_mem_nil _⟩
  obtain ⟨less, difference, hnear, hnearby, hiff, -, hfits⟩ :=
    lessThan_subtract (hl near) (hs near) [] []
  have hsame : shortened x.toInt = shortened near.toInt := by decide +kernel
  obtain rfl : less = false := by
    rw [Bool.eq_false_iff]
    exact fun h => (hiff.1 h).2 hsame
  have hone : x.toInt - near.toInt = (-1 : Int64).toInt := by decide +kernel
  obtain rfl : difference = -1 := Int64.toInt_inj.1 ((hfits (by decide +kernel)).1.trans hone)
  obtain ⟨less, difference, hfar, hfaraway, -, hapart, hfits⟩ :=
    lessThan_subtract (hl far) (hs far) [] []
  have hdistance : 2 ^ 10 < |far.toInt - x.toInt| := by decide +kernel
  obtain rfl : less = true := (hapart (.inr hdistance)).2 (hless far (by simp))
  have hfarther : x.toInt - far.toInt = (-2000 : Int64).toInt := by decide +kernel
  obtain rfl : difference = -2000 :=
    Int64.toInt_inj.1 ((hfits (by decide +kernel)).1.trans hfarther)
  exact ⟨fun y hy => ⟨hl y, hs y, hless y hy⟩, hnear, hnearby, hfar, hfaraway⟩

/-- Past 53 bits an integer need not be less than the next one. -/
theorem Builtin.not_forall_gives_lessThan :
    ¬ ∀ (x y : Int64) (n : Node) (m : Memory), n.Operates lessThan (.int x) (.int y) →
      n.Gives m (.bool (decide (x < y))) := by
  intro h
  have hn := Definition.operates_given (d := lessThan) rfl {} (.int 9007199254740992)
    (.int 9007199254740993)
  have hsame := (hn.gives_lessThan []).unique (h _ _ _ [] hn)
  revert hsame
  decide +kernel

end Patchbay
