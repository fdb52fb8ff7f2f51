import Patchbay.Proofs.Document.Mistyped
/-!
# Documents that are refused

Reading a document asks for many things that may be missing or of the wrong kind, and each of them
is complained about where it is found, or raises something that is caught where the document is
read. So in the end it is the reader of documents that refuses the document, in its own words. Only
a text with a number that no double comes close to is refused by the reader of JSON texts alone:
what it raises then is not what is caught.

## Main definitions

* `Raised.Worded`: something raised in the words of the reader of documents.
* `Loader.Faults`: a part of reading whose own complaints are worded so.

## Main statements

* `Loader.Faults.members`: nothing that reading a document raises is a complaint in other words.
* `refusals_worded`: who refuses documents and texts, and in which words.
* `not_forall_isOwn`: a refusal that comes from the reader of JSON texts.
-/
namespace Patchbay

namespace Document

/-! ### Refusals and their words -/

namespace Raised
variable {e : Raised}

/-- Something raised in words that call something invalid, or the document malformed. -/
def Worded (e : Raised) : Prop :=
  ∃ rest, e.headline = "Invalid " ++ rest ∨ e.headline = "Malformed graph JSON: " ++ rest

theorem worded_ofWords (t : String) : (ofWords ("Invalid " ++ t)).Worded :=
  ⟨Text.untilNul t, .inl (Text.untilNul_append (by decide) t)⟩

theorem worded_under_malformed (e : Raised) : (e.under "Malformed graph JSON: ").Worded :=
  ⟨e.headline, .inr rfl⟩

/-- What is raised for a document is a complaint in such words, or something that is caught. -/
def OfDocument (e : Raised) : Prop := e.isOwn = true → e.Worded

theorem ofDocument_ofWords (t : String) : (ofWords ("Invalid " ++ t)).OfDocument :=
  fun _ => worded_ofWords t

end Raised

/-- Whatever was raised while the members of a document were read, the document is refused by its
reader. -/
theorem isOwn_refusal (e : Raised) : (Loader.refusal e).isOwn = true := by
  cases e <;> rfl

/-- Its words are those of the reader, unless a complaint in other words was raised. -/
theorem worded_refusal {e : Raised} (h : e.OfDocument) : (Loader.refusal e).Worded := by
  cases e with
  | complaint headline detail? => exact h rfl
  | _ => exact Raised.worded_under_malformed _

/-- A value that cannot be read is called invalid, unless something is raised that is caught. -/
theorem ofDocument_of_toValue {j : Json} {e : Raised} (h : toValue j = .error e) :
    e.OfDocument := by
  rcases toValue_cases h with ⟨words, rfl⟩ | ⟨m, rfl⟩
  · exact fun _ => ⟨_, .inl rfl⟩
  · exact nofun

/-! ### Reading that fails -/

namespace Loader
variable {α β : Type}

/-- Whatever a part of reading raises is raised for the document. -/
def Faults (x : Loader α) : Prop :=
  ∀ ⦃d e d'⦄, x.run d = (.error e, d') → e.OfDocument

namespace Faults
variable {x : Loader α} {f : α → Loader β}

protected theorem pure (a : α) : Faults (Pure.pure a) := by
  intro d e d' h
  cases h

protected theorem throw {e : Raised} (he : e.OfDocument) :
    Faults (MonadExcept.throw e : Loader α) := by
  intro d e' d' h
  cases h
  exact he

/-- Parts of reading follow each other. -/
protected theorem bind (hx : Faults x) (hf : ∀ a, Faults (f a)) : Faults (x >>= f) := by
  intro d e d' h
  have h : ExceptT.bindCont f (x d).1 (x d).2 = (.error e, d') := h
  cases hr : x d with
  | mk r d₁ =>
    rw [hr] at h
    cases r with
    | error e' =>
      cases h
      exact hx hr
    | ok a => exact hf a h

protected theorem change (f : Graph → Graph) : Faults (Loader.change f) := by
  intro d e d' h
  cases h

protected theorem report (r : Entry) : Faults (Loader.report r) := by
  intro d e d' h
  cases h

protected theorem get : Faults (MonadState.get : Loader Draft) := by
  intro d e d' h
  cases h

protected theorem set (d : Draft) : Faults (MonadStateOf.set d : Loader PUnit) := by
  intro d₀ e d' h
  cases h

protected theorem freshId : Faults Loader.freshId := by
  intro d e d' h
  cases h

protected theorem need (r : Except Json.Mismatch α) : Faults (Loader.need r) := by
  cases r with
  | ok a => exact .pure a
  | error e => exact .throw nofun

protected theorem forM {f : α → Loader PUnit} (h : ∀ a, Faults (f a)) (as : List α) :
    Faults (as.forM f) := by
  induction as with
  | nil => exact .pure _
  | cons a as ih => exact (h a).bind fun _ => ih

protected theorem numbers (count : Nat) (js : List Json) : Faults (Loader.numbers count js) := by
  rw [Loader.numbers]
  induction js.take count with
  | nil => exact .pure _
  | cons j js ih =>
    rw [List.mapM_cons]
    have hone : Faults (do return (← Loader.need j.asDouble).toFloat) :=
      (Faults.need _).bind fun _ => .pure _
    exact hone.bind fun _ => ih.bind fun _ => .pure _

/-! ### The parts of a document -/

protected theorem pin (j : Json) (p : Pin) : Faults (Loader.pin j p) := by
  simp only [Loader.pin]
  split
  case' h_1 => refine (Faults.need _).bind fun id => ?_
  all_goals
    refine (Faults.pure _).bind fun p => ?_
    split
    · split
      · exact .pure _
      · split
        · exact .pure _
        · next e he => exact .throw (ofDocument_of_toValue he)
    · exact .pure _

protected theorem pinList (js : List Json) (ps : List Pin) : Faults (Loader.pinList js ps) := by
  induction js generalizing ps with
  | nil => exact .pure ps
  | cons j js ih =>
    cases ps with
    | nil => exact .pure []
    | cons p ps => exact (Faults.pin j p).bind fun _ => (ih ps).bind fun _ => .pure _

protected theorem pins (j : Json) (key : String) (ps : List Pin) :
    Faults (Loader.pins j key ps) := by
  simp only [Loader.pins]
  split
  · exact .pure ps
  · split
    · exact .pinList _ ps
    · exact .throw (Raised.ofDocument_ofWords "node: pin list must be an array")

protected theorem nodeOf (j : Json) (id type : String) (n : Node) :
    Faults (Loader.nodeOf j id type n) := by
  simp only [Loader.nodeOf]
  refine (Faults.need _).bind fun name => (Faults.need _).bind fun enabled =>
    (Faults.need _).bind fun groupId => ?_
  have hrest (position : Point Float) : Faults (do
      let inputs ← Loader.pins j "inputs" n.inputs
      let outputs ← Loader.pins j "outputs" n.outputs
      return { n with id, name, enabled, groupId, position, inputs, outputs } : Loader Node) :=
    (Faults.pins _ _ _).bind fun _ => (Faults.pins _ _ _).bind fun _ => .pure _
  split
  · exact hrest _
  · refine (Faults.numbers _ _).bind fun _ => ?_
    split <;> exact hrest _

protected theorem node (r : Registry) (j : Json) : Faults (Loader.node r j) := by
  simp only [Loader.node]
  split
  · refine (Faults.need _).bind fun id => (Faults.need _).bind fun type =>
      Faults.get.bind fun d => ?_
    split
    · exact .report _
    · exact (Faults.set _).bind fun _ => (Faults.nodeOf j id type _).bind fun _ => .change _
  · exact .throw (Raised.ofDocument_ofWords "node: missing 'id' or 'type'")

protected theorem wire (j : Json) : Faults (Loader.wire j) := by
  simp only [Loader.wire]
  split
  · split
    case' h_1 => refine (Faults.need _).bind fun id => ?_
    case' h_2 => refine Faults.freshId.bind fun id => ?_
    all_goals exact (Faults.need _).bind fun _ => (Faults.need _).bind fun _ => .change _
  · exact .throw (Raised.ofDocument_ofWords "connection: missing pin ids")

protected theorem claim (groupId : String) (j : Json) : Faults (Loader.claim groupId j) :=
  (Faults.need _).bind fun _ => .change _

protected theorem place (read : Dict GroupKey) (parent : Option String) (a : GroupKey) :
    Faults (Loader.place read parent a) := by
  simp only [Loader.place]
  split
  · exact .change _
  · split
    · exact .change _
    · exact (Faults.report _).bind fun _ => .change _

protected theorem group (read : Dict GroupKey) (j : Json) : Faults (Loader.group read j) := by
  simp only [Loader.group]
  refine (Faults.need _).bind fun name => Faults.freshId.bind fun fresh => ?_
  split
  case' h_1 => refine (Faults.need _).bind fun id => ?_
  all_goals
    split
    case' h_2 =>
      refine (Faults.numbers _ _).bind fun bounds => ?_
      split
    -- what is left is the same for a group with bounds and for one without
    all_goals
      exact (Faults.forM (Faults.claim _) _).bind fun _ => (Faults.need _).bind fun _ =>
        Faults.get.bind fun _ => (Faults.set _).bind fun _ => (Faults.place _ _ _).bind fun _ =>
          .pure _

protected theorem groups (read : Dict GroupKey) (js : List Json) :
    Faults (Loader.groups read js) := by
  induction js generalizing read with
  | nil => exact .pure _
  | cons j js ih => exact (Faults.group read j).bind fun read => ih read

protected theorem category (j : Json) : Faults (Loader.category j) := by
  simp only [Loader.category]
  split
  · exact .pure _
  · refine (Faults.need _).bind fun _ => ?_
    split
    · exact .pure _
    · exact .throw nofun

protected theorem graphId (j : Json) : Faults (Loader.graphId j) := by
  simp only [Loader.graphId]
  split
  · exact .pure _
  · exact .freshId

/-- Whatever is raised while the members of a document are read is raised for the document. -/
protected theorem members (r : Registry) (j : Json) : Faults (Loader.members r j) :=
  (Faults.need _).bind fun _ => (Faults.graphId j).bind fun _ =>
    (Faults.category j).bind fun _ => (Faults.change _).bind fun _ =>
      (Faults.forM (Faults.node r) _).bind fun _ => (Faults.forM Faults.wire _).bind fun _ =>
        (Faults.groups _ _).bind fun _ => (Faults.need _).bind fun _ =>
          Faults.get.bind fun _ => .set _

end Faults

/-- A document is refused for being none, or for what its members raise. -/
theorem document_cases {r : Registry} {j : Json} {d d' : Draft} {e : Raised}
    (h : (Loader.document r j).run d = (.error e, d')) :
    e = .ofWords "Invalid graph: expected a JSON object" ∨
      ∃ e', (Loader.members r j).run d = (.error e', d') ∧ e = refusal e' := by
  simp only [Loader.document] at h
  split at h
  · cases h
    exact .inl rfl
  · change (tryCatch (Loader.members r j) fun e => throw (refusal e)).run d = _ at h
    rw [run_rethrow] at h
    cases hr : (Loader.members r j).run d with
    | mk res d₁ =>
      rw [hr] at h
      cases res with
      | ok u => cases h
      | error e' =>
        cases h
        exact .inr ⟨e', rfl, rfl⟩

end Loader

/-! ### Whole documents and texts -/

variable {r : Registry} {empty : Graph} {e : Raised}

/-- A document is refused by its reader, in its own words. -/
theorem worded_of_load {j : Json} (h : (load r empty j).result = .error e) :
    e.isOwn = true ∧ e.Worded := by
  unfold load at h
  split at h
  · cases h
  · next hd =>
    cases h
    rcases Loader.document_cases hd with rfl | ⟨e', hmembers, rfl⟩
    · exact ⟨rfl, Raised.worded_ofWords "graph: expected a JSON object"⟩
    · exact ⟨isOwn_refusal e', worded_refusal (Loader.Faults.members r j hmembers)⟩

/-- A text that is no JSON is refused in words of the reader of documents, unless the reader of JSON
texts meets a number that is too large. -/
theorem parse_cases {text : String} (h : parse text = .error e) :
    ∃ p, Json.parse text = .error p ∧ (e.isOwn = true ↔ p ≠ .tooLarge) ∧
      (e.isOwn = true → e.Worded) := by
  unfold parse at h
  cases hp : Json.parse text with
  | ok j =>
    rw [hp] at h
    cases h
  | error p =>
    rw [hp] at h
    cases h
    refine ⟨p, rfl, ?_⟩
    cases p with
    | tooLarge => exact ⟨iff_of_false nofun fun h => h rfl, nofun⟩
    | _ => exact ⟨iff_of_true rfl nofun, fun _ => ⟨"graph JSON: ", .inl rfl⟩⟩

/-- A document is refused by the reader of documents, in its own words. So is a text, unless the
reader of JSON texts meets a number that is too large before anything else that is wrong. -/
theorem refusals_worded (r : Registry) (empty : Graph) :
    (∀ j e, (load r empty j).result = .error e → e.isOwn = true ∧ e.Worded) ∧
    ∀ text e, (loadText r empty text).result = .error e →
      (e.isOwn = true ↔ Json.parse text ≠ .error .tooLarge) ∧ (e.isOwn = true → e.Worded) := by
  refine ⟨fun _ _ => worded_of_load, fun text e h => ?_⟩
  unfold loadText at h
  split at h
  · next hparse =>
    obtain ⟨hown, hworded⟩ := worded_of_load h
    refine ⟨iff_of_true hown fun hlarge => ?_, fun _ => hworded⟩
    rw [parse, hlarge] at hparse
    cases hparse
  · next hparse =>
    cases h
    obtain ⟨p, hp, hown, hworded⟩ := parse_cases hparse
    rw [hp]
    exact ⟨hown.trans (not_congr ⟨congrArg _, Except.error.inj⟩), hworded⟩

/-- A node without an id, a text that is no JSON, and a list with a number that no double comes
close to. -/
theorem refusals_worded_three :
    (∃ e, (load default (Graph.new {})
        (.object [("nodes", .array [.object [("type", .string "start")]])])).result = .error e ∧
      e = .ofWords "Invalid node: missing 'id' or 'type'" ∧ e.isOwn = true ∧ e.Worded) ∧
    (∃ e, (loadText default (Graph.new {}) "\x7bnot json").result = .error e ∧
      e = (Raised.jsonSyntax (.unexpected 'n')).under "Invalid graph JSON: " ∧ e.isOwn = true ∧
      e.Worded) ∧
    ((loadText default (Graph.new {}) "[1e999").result = .error .jsonRange ∧
      Raised.jsonRange.isOwn ≠ true) := by
  have h := refusals_worded default (Graph.new {})
  have hword := h.2 "\x7bnot json"
    ((Raised.jsonSyntax (.unexpected 'n')).under "Invalid graph JSON: ") rfl
  have hnumber := h.2 "[1e999" .jsonRange rfl
  have hsyntax := hword.1.2 nofun
  have htyped := h.1 (.object [("nodes", .array [.object [("type", .string "start")]])]) _ rfl
  exact ⟨⟨_, rfl, rfl, htyped⟩, ⟨_, rfl, rfl, hsyntax, hword.2 hsyntax⟩, rfl,
    fun how => hnumber.1.1 how rfl⟩

/-- Not every text is refused by the reader of documents, if it is refused: no double comes close to
a one followed by 999 zeros. -/
theorem not_forall_isOwn : ¬ ∀ text e, (loadText default (Graph.new {}) text).result = .error e →
    e.isOwn = true := by
  intro h
  have hparse : Json.parse "1e999" = .error .tooLarge := rfl
  have hload : (loadText default (Graph.new {}) "1e999").result = .error .jsonRange := by
    rw [loadText, parse, hparse]
    rfl
  exact absurd (h _ _ hload) (by decide)

end Document
end Patchbay
