import Patchbay.Proofs.Document.Loader
/-!
# Written values that contradict themselves

A written value names its type and has a content, and the two need not go together. Most of what is
wrong with a written value is found out by the reader of values, who says so in its own words. But
the name of the type is taken for a text, and the content for what the type asks for, without a look
at what they are, and where they are something else it is the library of JSON values that complains.

## Main definitions

* `kindOf?`: the kind of content that a type asks for.
* `Mistyped`: a written value with a name or a content of the wrong kind.

## Main statements

* `toValue_eq_mismatch_iff`: which written values are of the wrong kind where.
* `toValue_or_mistyped`: values are read as they were written, and everything else is read or
  refused by the reader of values, unless it contradicts itself.
* `not_forall_toValue`: a text where an integer is asked for.
-/
namespace Patchbay.Document

/-- The kind of content that a type asks for. The type `any` takes what it finds. -/
def kindOf? : ValueType → Option Json.Kind
  | .any => none
  | .int | .double => some .number
  | .string => some .string
  | .bool => some .bool

/-- A written value is of the wrong kind somewhere: the name of its type is no text, or there is a
content, and it is of another kind than the type asks for. -/
inductive Mistyped (j : Json) : Json.Mismatch → Prop where
  | name {t : Json} (type : j.member? "type" = some t) (kind : t.kind ≠ .string) :
      Mistyped j ⟨.string, t.kind⟩
  | content {t : ValueType} {c : Json} {k : Json.Kind}
      (type : j.member? "type" = some (.string t.label)) (value : j.member? "value" = some c)
      (there : c.kind ≠ .null) (wanted : kindOf? t = some k) (kind : c.kind ≠ k) :
      Mistyped j ⟨k, c.kind⟩

variable {j c : Json} {m : Json.Mismatch}

/-! ### Reading a content -/

theorem asInt_eq_error_iff : c.asInt = .error m ↔ c.kind ≠ .number ∧ m = ⟨.number, c.kind⟩ := by
  cases c <;> simp [Json.asInt, Json.kind, eq_comm]

theorem asDouble_eq_error_iff :
    c.asDouble = .error m ↔ c.kind ≠ .number ∧ m = ⟨.number, c.kind⟩ := by
  cases c <;> simp [Json.asDouble, Json.kind, eq_comm]

theorem asString_eq_error_iff :
    c.asString = .error m ↔ c.kind ≠ .string ∧ m = ⟨.string, c.kind⟩ := by
  cases c <;> simp [Json.asString, Json.kind, eq_comm]

theorem asBool_eq_error_iff : c.asBool = .error m ↔ c.kind ≠ .bool ∧ m = ⟨.bool, c.kind⟩ := by
  cases c <;> simp [Json.asBool, Json.kind, eq_comm]

theorem map_orMismatch_eq_error_iff {α : Type} (f : α → Value) (r : Except Json.Mismatch α) :
    f <$> orMismatch r = .error (.jsonKind m) ↔ r = .error m := by
  cases r with
  | ok a => exact iff_of_false nofun nofun
  | error e =>
    constructor
    · rintro ⟨⟩
      rfl
    · rintro ⟨⟩
      rfl

/-- A content is refused as one of the wrong kind exactly if it is of another kind than the type
asks for. -/
theorem readAs_eq_mismatch_iff (t : ValueType) :
    readAs t c = .error (.jsonKind m) ↔ ∃ k, kindOf? t = some k ∧ c.kind ≠ k ∧ m = ⟨k, c.kind⟩ := by
  cases t with
  | any =>
    refine iff_of_false ?_ (by simp [kindOf?])
    cases c <;> simp [readAs, inferred?, Raised.ofWords]
  | int => simp [readAs, kindOf?, map_orMismatch_eq_error_iff, asInt_eq_error_iff]
  | double => simp [readAs, kindOf?, map_orMismatch_eq_error_iff, asDouble_eq_error_iff]
  | string => simp [readAs, kindOf?, map_orMismatch_eq_error_iff, asString_eq_error_iff]
  | bool => simp [readAs, kindOf?, map_orMismatch_eq_error_iff, asBool_eq_error_iff]

theorem map_orMismatch_cases {α : Type} {f : α → Value} {r : Except Json.Mismatch α} {e : Raised}
    (h : f <$> orMismatch r = .error e) : ∃ m, e = .jsonKind m := by
  cases r with
  | ok a => cases h
  | error m =>
    cases h
    exact ⟨m, rfl⟩

/-- What is raised for a value: a complaint that calls something invalid, or the kind of a JSON
value. -/
def OfValue (e : Raised) : Prop :=
  (∃ words, e = .complaint ("Invalid " ++ words)) ∨ ∃ m, e = .jsonKind m

theorem ofValue_ofWords (words : String) : OfValue (.ofWords ("Invalid " ++ words)) :=
  .inl ⟨Text.untilNul words,
    congrArg (Raised.complaint · none) (Text.untilNul_append (by decide) _)⟩

theorem readAs_cases {t : ValueType} {e : Raised} (h : readAs t c = .error e) : OfValue e := by
  cases t with
  | any =>
    simp only [readAs] at h
    split at h
    · cases h
    · cases h
      exact ofValue_ofWords "value for type 'any'"
  | int | double | string | bool => exact .inr (map_orMismatch_cases h)

/-! ### Reading a written value -/

/-- A name that stands for a type is the label of that type. -/
theorem ofLabel?_eq_some_iff {name : String} {t : ValueType} :
    ValueType.ofLabel? name = some t ↔ name = t.label := by
  constructor
  · intro h
    have hfound := List.find?_some (l := ValueType.all) h
    exact (of_decide_eq_true hfound).symm
  · rintro rfl
    exact ValueType.ofLabel?_label t

/-- What is made of a written value that names its type. -/
theorem toValue_of_name {name : String} (h : j.member? "type" = some (.string name)) :
    toValue j = match j.member? "value" with
      | none => .ok .null
      | some c =>
        if name = "null" ∨ c.isNull then .ok .null
        else
          match ValueType.ofLabel? name with
          | some t => readAs t c
          | none => .error (.complaint ("Invalid value: " ++ ValueType.unknownMessage name)) := by
  rw [toValue, h]
  change (match j.member? "value" with
    | none => _
    | some c => _) = _
  cases j.member? "value" with
  | none => rfl
  | some c =>
    simp only [typeOf]
    cases ValueType.ofLabel? name <;> rfl

/-- What is made of a written value that has something else in place of the name of its type. -/
theorem toValue_of_no_name {t : Json} (h : j.member? "type" = some t) (ht : t.kind ≠ .string) :
    toValue j = .error (.jsonKind ⟨.string, t.kind⟩) := by
  rw [toValue, h]
  change (orMismatch t.asString >>= _) = _
  rw [asString_eq_error_iff.2 ⟨ht, rfl⟩]
  rfl

/-- What is made of a written value with a content of a type. -/
theorem toValue_of_content {t : ValueType} (htype : j.member? "type" = some (.string t.label))
    (hvalue : j.member? "value" = some c) (hthere : c.kind ≠ .null) : toValue j = readAs t c := by
  have hnull : ¬ (t.label = "null" ∨ c.isNull = true) := by
    rintro (hnull | hnull)
    · exact absurd hnull (by cases t <;> decide)
    · exact hthere (of_decide_eq_true hnull)
  rw [toValue_of_name htype, hvalue]
  simp only [if_neg hnull, ValueType.ofLabel?_label]

theorem Mistyped.refused (h : Mistyped j m) : toValue j = .error (.jsonKind m) := by
  cases h with
  | name htype ht => exact toValue_of_no_name htype ht
  | content htype hvalue hthere hwanted hkind =>
    rw [toValue_of_content htype hvalue hthere]
    exact (readAs_eq_mismatch_iff _).2 ⟨_, hwanted, hkind, rfl⟩

theorem mistyped_of_toValue (h : toValue j = .error (.jsonKind m)) : Mistyped j m := by
  cases htype : j.member? "type" with
  | none =>
    rw [toValue, htype] at h
    cases h
  | some t =>
    by_cases ht : t.kind = .string
    · obtain ⟨name, rfl⟩ : ∃ s, t = .string s := by
        cases t with
        | string s => exact ⟨s, rfl⟩
        | _ => cases ht
      rw [toValue_of_name htype] at h
      cases hvalue : j.member? "value" with
      | none =>
        rw [hvalue] at h
        cases h
      | some c =>
        simp only [hvalue] at h
        split at h
        · cases h
        · next hthere =>
          split at h
          · next t hlabel =>
            obtain ⟨k, hwanted, hkind, rfl⟩ := (readAs_eq_mismatch_iff t).1 h
            rw [ofLabel?_eq_some_iff] at hlabel
            subst hlabel
            refine .content htype hvalue (fun hnull => hthere (.inr ?_)) hwanted hkind
            exact decide_eq_true hnull
          · cases h
    · rw [toValue_of_no_name htype ht] at h
      cases h
      exact .name htype ht

/-- A written value that is refused is complained about, or the library of JSON values raises the
kind of one of its members. -/
theorem toValue_cases {e : Raised} (h : toValue j = .error e) : OfValue e := by
  cases htype : j.member? "type" with
  | none =>
    rw [toValue, htype] at h
    cases h
    exact ofValue_ofWords "value: missing 'type'"
  | some t =>
    by_cases ht : t.kind = .string
    · obtain ⟨name, rfl⟩ : ∃ s, t = .string s := by
        cases t with
        | string s => exact ⟨s, rfl⟩
        | _ => cases ht
      rw [toValue_of_name htype] at h
      repeat' split at h
      · cases h
      · cases h
      · exact readAs_cases h
      · cases h
        exact .inl ⟨"value: " ++ ValueType.unknownMessage name, by rw [← String.append_assoc]; rfl⟩
    · rw [toValue_of_no_name htype ht] at h
      cases h
      exact .inr ⟨_, rfl⟩

/-- Which written values are of the wrong kind where. -/
theorem toValue_eq_mismatch_iff : toValue j = .error (.jsonKind m) ↔ Mistyped j m :=
  ⟨mistyped_of_toValue, Mistyped.refused⟩

/-- Values are read as they were written. Whatever else is to be read is a value, or it is refused
by the reader of values, unless it is of the wrong kind somewhere. -/
theorem toValue_or_mistyped (v : Value) (j : Json) :
    toValue (ofValue v) = .ok v ∧
    (((∃ v, toValue j = .ok v) ∨ ∃ e, toValue j = .error e ∧ e.isOwn = true) ↔
      ∀ m, ¬ Mistyped j m) := by
  refine ⟨toValue_ofValue v, ?_⟩
  simp only [← toValue_eq_mismatch_iff]
  cases hj : toValue j with
  | ok v => simp
  | error e =>
    rcases toValue_cases hj with ⟨words, rfl⟩ | ⟨m, rfl⟩
    · exact iff_of_true (.inr ⟨_, rfl, rfl⟩) nofun
    · exact iff_of_false (by simp [Raised.isOwn]) fun h => h m rfl

/-- Not everything is read or refused by the reader of values: a text is no integer. -/
theorem not_forall_toValue : ¬ ∀ j, (∃ v, toValue j = .ok v) ∨
    ∃ e, toValue j = .error e ∧ e.isOwn = true := by
  intro h
  have hrefused : toValue (.object [("type", .string "int"), ("value", .string "3")]) =
      .error (.jsonKind ⟨.number, .string⟩) := rfl
  rcases h (.object [("type", .string "int"), ("value", .string "3")]) with ⟨v, hv⟩ | ⟨e, he, how⟩
  · cases hrefused.symm.trans hv
  · cases Except.error.inj (he.symm.trans hrefused)
    cases how

end Patchbay.Document
