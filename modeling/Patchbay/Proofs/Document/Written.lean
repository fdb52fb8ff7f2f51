import Patchbay.Proofs.Document.Unresolved
import Patchbay.Proofs.Document.Whole
import Patchbay.Proofs.Json.Texts
/-!
# Documents as texts

The document of a graph is written as a text and read again. All of it comes back but doubles that
are no numbers: these are null afterwards. A pin takes null as its value, while the places of nodes
and the bounds of groups must be numbers. So the text of a graph is read exactly when all that the
graph says of places is made of numbers.

## Main definitions

* `Graph.Placed`: all places that a graph tells are made of numbers.
* `Loader.Succeeds`, `Loader.Fails`: a part of reading never fails, or always does.

## Main statements

* `Document.tidy_ofGraph`: a text can tell the document of a graph.
* `Document.parse_print_ofGraph`: what is read of that text.
* `Document.exists_load_reread`, `Document.placed_of_load_reread`: it becomes a graph again, if all
  places are made of numbers.
-/
namespace Patchbay

/-- The numbers that a place is told by. -/
def Point.numbers (p : Point Float) : List Float := [p.x, p.y]

/-- The numbers that a region is told by. -/
def Rect.numbers (r : Rect Float) : List Float := [r.x, r.y, r.width, r.height]

/-- All places that a graph tells are made of numbers. -/
structure Graph.Placed (g : Graph) : Prop where
  nodes : ∀ n ∈ g.memberNodes, ∀ x ∈ n.position.numbers, Json.isNumber x = true
  groups : ∀ b ∈ g.groups.preorder, ∀ x ∈ b.bounds.numbers, Json.isNumber x = true

instance (g : Graph) : Decidable g.Placed :=
  decidable_of_iff ((∀ n ∈ g.memberNodes, ∀ x ∈ n.position.numbers, Json.isNumber x = true) ∧
      ∀ b ∈ g.groups.preorder, ∀ x ∈ b.bounds.numbers, Json.isNumber x = true)
    ⟨fun h => ⟨h.1, h.2⟩, fun h => ⟨h.nodes, h.groups⟩⟩

namespace Json

/-- An object that lists its members by ascending key. -/
theorem Tidy.record {ms : List (String × Json)} (ascending : (ms.map (·.1)).Pairwise (· < ·))
    (h : ∀ m ∈ ms, m.2.Tidy) : (Json.object ms).Tidy :=
  .object (List.pairwise_map.1 ascending) h

theorem tidy_ofOption (o : Option String) : (ofOption o).Tidy := by
  cases o with
  | none => exact .null
  | some s => exact .string s

/-- Objects are read as objects. -/
@[simp] theorem isObject_reread (j : Json) : j.reread.isObject = j.isObject := by
  cases j with
  | double x =>
    rw [isObject, reread_double, kind_rereadDouble]
    split <;> rfl
  | _ => simp [isObject, kind]

@[simp] theorem reread_ofOption (o : Option String) : (ofOption o).reread = ofOption o := by
  cases o <;> simp [ofOption]

end Json

namespace Document

/-! ### What a text can tell -/

theorem tidy_content (v : Value) : (content v).Tidy := by
  cases v with
  | null => exact .null
  | int n =>
    refine .int ?_
    have hlow := n.minValue_le_toInt
    have hhigh := n.toInt_lt
    rw [Json.Parser.hasPlace, Bool.and_eq_true, decide_eq_true_eq, decide_eq_true_eq]
    refine ⟨hlow, hhigh.trans_le ?_⟩
    decide
  | double x => exact .double x
  | string s => exact .string s
  | bool b => exact .bool b

theorem tidy_ofValue (v : Value) : (ofValue v).Tidy := by
  rw [ofValue]
  exact .record (by simp only [List.map_cons, List.map_nil]; decide) (by simp [tidy_content, Json.Tidy.string])

theorem tidy_ofPin (p : Pin) : (ofPin p).Tidy := by
  rw [ofPin]
  split
  · rw [List.append_nil]
    exact .record (by simp only [List.map_cons, List.map_nil]; decide)
      (by simp [Json.Tidy.string, Json.Tidy.bool])
  · exact .record (by simp only [List.map_append, List.map_cons, List.map_nil]; decide)
      (by simp [tidy_ofValue, Json.Tidy.string, Json.Tidy.bool])

theorem tidy_ofPins (ps : List Pin) : (Json.array (ps.map ofPin)).Tidy :=
  .array (List.forall_mem_map.2 fun p _ => tidy_ofPin p)

theorem tidy_ofPoint (p : Point Float) : (ofPoint p).Tidy :=
  .array (by simp [Json.Tidy.double])

theorem tidy_ofRect (r : Rect Float) : (ofRect r).Tidy :=
  .array (by simp [Json.Tidy.double])

theorem tidy_ofNode (n : Node) : (ofNode n).Tidy := by
  rw [ofNode]
  exact .record (by simp only [List.map_cons, List.map_nil]; decide)
    (by simp [tidy_ofPins, tidy_ofPoint, Json.tidy_ofOption, Json.Tidy.string, Json.Tidy.bool])

theorem tidy_ofWire (w : Wire) : (ofWire w).Tidy := by
  rw [ofWire]
  exact .record (by simp only [List.map_cons, List.map_nil]; decide) (by simp [Json.Tidy.string])

theorem tidy_ofGroup (g : Graph) (parent : Option String) (a : Group) :
    (ofGroup g parent a).Tidy := by
  have hnodes : (Json.array ((a.members.filterMap g.node?).map fun n => .string n.id)).Tidy :=
    .array (List.forall_mem_map.2 fun n _ => .string n.id)
  rw [ofGroup]
  exact .record (by simp only [List.map_cons, List.map_nil]; decide) (by simp [hnodes, tidy_ofRect, Json.tidy_ofOption, Json.Tidy.string])

/-- The documents of a forest are those of its groups. -/
theorem exists_of_mem_ofForest {g : Graph} {parent : Option String} {f : Forest} {j : Json}
    (h : j ∈ ofForest g parent f) : ∃ a ∈ f.preorder, ∃ p, j = ofGroup g p a := by
  induction f generalizing parent with
  | nil => cases h
  | cons a cs rest ihc ih =>
    rcases List.mem_cons.1 h with rfl | h
    · exact ⟨a, List.mem_cons_self, parent, rfl⟩
    · rcases List.mem_append.1 h with h | h
      · obtain ⟨b, hb, hj⟩ := ihc h
        exact ⟨b, List.mem_cons_of_mem a (List.mem_append_left _ hb), hj⟩
      · obtain ⟨b, hb, hj⟩ := ih h
        exact ⟨b, List.mem_cons_of_mem a (List.mem_append_right _ hb), hj⟩

/-- Every group of a forest is told. -/
theorem exists_ofGroup_mem {g : Graph} (parent : Option String) {f : Forest} {a : Group}
    (h : a ∈ f.preorder) : ∃ p, ofGroup g p a ∈ ofForest g parent f := by
  induction f generalizing parent with
  | nil => cases h
  | cons b cs rest ihc ih =>
    rcases List.mem_cons.1 h with rfl | h
    · exact ⟨parent, List.mem_cons_self⟩
    · rcases List.mem_append.1 h with h | h
      · obtain ⟨p, hp⟩ := ihc (some b.id) h
        exact ⟨p, List.mem_cons_of_mem _ (List.mem_append_left _ hp)⟩
      · obtain ⟨p, hp⟩ := ih parent h
        exact ⟨p, List.mem_cons_of_mem _ (List.mem_append_right _ hp)⟩

/-- A text can tell the document of a graph. -/
theorem tidy_ofGraph (g : Graph) : (ofGraph g).Tidy := by
  have hwires : (Json.array ((g.links.filterMap g.wire?).map ofWire)).Tidy :=
    .array (List.forall_mem_map.2 fun w _ => tidy_ofWire w)
  have hnodes : (Json.array ((g.members.filterMap g.node?).map ofNode)).Tidy :=
    .array (List.forall_mem_map.2 fun n _ => tidy_ofNode n)
  have hgroups : (Json.array (ofForest g none g.groups)).Tidy := .array fun j hj => by
    obtain ⟨a, -, p, rfl⟩ := exists_of_mem_ofForest hj
    exact tidy_ofGroup g p a
  rw [ofGraph]
  exact .record (by simp only [List.map_cons, List.map_nil]; decide)
    (by simp [hwires, hnodes, hgroups, Json.tidy_ofOption, Json.Tidy.string])

/-- What is read of the text of a graph. -/
theorem parse_print_ofGraph (g : Graph) (indent : Option ℕ) :
    Json.parse ((ofGraph g).print indent) = .ok (ofGraph g).reread :=
  Json.parse_print (tidy_ofGraph g) indent

/-! ### Parts of reading that do not fail, and parts that do -/

namespace Loader
variable {α β : Type}

/-- A part of reading never fails. -/
def Succeeds (x : Loader α) : Prop := ∀ d, ∃ a d', Runs x d a d'

/-- A part of reading always fails. -/
def Fails (x : Loader α) : Prop := Leads (fun _ => True) x fun _ _ => False

namespace Succeeds
variable {x : Loader α} {f : α → Loader β}

protected theorem bind (hx : Succeeds x) (hf : ∀ a, Succeeds (f a)) : Succeeds (x >>= f) := by
  intro d
  obtain ⟨a, d₁, ha⟩ := hx d
  obtain ⟨b, d₂, hb⟩ := hf a d₁
  exact ⟨b, d₂, ha.bind hb⟩

protected theorem pure (a : α) : Succeeds (pure a) := fun d => ⟨a, d, .pure a d⟩

/-- A result that is there already is taken on. -/
theorem pure_bind {a : α} (h : Succeeds (f a)) : Succeeds (pure a >>= f) := h

/-- What is there as it is wanted is taken on. -/
theorem need_bind {r : Except Json.Mismatch α} {a : α} (hr : r = .ok a) (h : Succeeds (f a)) :
    Succeeds (Loader.need r >>= f) := by
  rw [hr]
  exact h

protected theorem rethrow {g : Raised → Raised} (hx : Succeeds x) :
    Succeeds (tryCatch x fun e => throw (g e)) := fun d => by
  obtain ⟨a, d₁, ha⟩ := hx d
  exact ⟨a, d₁, Runs.rethrow_iff.2 ha⟩

protected theorem change (f : Graph → Graph) : Succeeds (Loader.change f) :=
  fun d => ⟨_, _, .change f d⟩

protected theorem report (e : Entry) : Succeeds (Loader.report e) := fun _ => ⟨_, _, rfl⟩

protected theorem freshId : Succeeds Loader.freshId := fun d => ⟨_, _, .freshId d.graph d.journal⟩

protected theorem get {f : Draft → Loader α} (h : ∀ d, Succeeds (f d)) :
    Succeeds (MonadState.get >>= f) :=
  fun d => h d d

protected theorem set (d : Draft) : Succeeds (MonadStateOf.set d : Loader PUnit) :=
  fun d₀ => ⟨_, _, .set d₀ d⟩

protected theorem forM {f : α → Loader PUnit} {as : List α} (h : ∀ a ∈ as, Succeeds (f a)) :
    Succeeds (as.forM f) := by
  induction as with
  | nil => exact .pure _
  | cons a as ih =>
    obtain ⟨ha, has⟩ := List.forall_mem_cons.1 h
    exact ha.bind fun _ => ih has

/-- Numbers are read. -/
protected theorem numbers {xs : List Float} (h : ∀ x ∈ xs, Json.isNumber x = true) :
    Succeeds (Loader.numbers xs.length (xs.map fun x => (Json.double (.of x)).reread)) := by
  have hsame : (xs.map fun x => (Json.double (.of x)).reread) =
      xs.map fun x => Json.double (.of x) :=
    List.map_congr_left fun x hx => by
      rw [Json.reread_double, Json.rereadDouble, Double.toFloat_of, if_pos (h x hx)]
  rw [hsame]
  exact fun d => ⟨xs, d, .numbers xs d⟩

end Succeeds

namespace Fails
variable {x : Loader α} {f : α → Loader β}

theorem bind_left (hx : Fails x) : Fails (x >>= f) := hx.bind fun _ _ _ _ _ h => h.elim

theorem bind_right (hf : ∀ a, Fails (f a)) : Fails (x >>= f) :=
  Leads.bind (J := fun _ _ => True) (fun _ _ _ _ _ => trivial) hf

/-- What is there as it is wanted does not help. -/
theorem need_bind {r : Except Json.Mismatch α} {a : α} (hr : r = .ok a) (h : Fails (f a)) :
    Fails (Loader.need r >>= f) := by
  rw [hr]
  exact h

protected theorem throw (e : Raised) : Fails (MonadExcept.throw e : Loader α) :=
  Leads.throw e

protected theorem rethrow {g : Raised → Raised} (hx : Fails x) :
    Fails (tryCatch x fun e => throw (g e)) := Leads.rethrow hx

protected theorem get {f : Draft → Loader α} (h : ∀ d, Fails (f d)) :
    Fails (MonadState.get >>= f) := bind_right h

protected theorem forM {f : α → Loader PUnit} {a : α} {as : List α} (ha : a ∈ as)
    (h : Fails (f a)) : Fails (as.forM f) := by
  induction as with
  | nil => cases ha
  | cons b as ih =>
    rcases List.mem_cons.1 ha with rfl | ha
    · exact h.bind_left
    · exact bind_right fun _ => ih ha

/-- What is no number is not read as one. -/
protected theorem numbers {xs : List Float} (h : ∃ x ∈ xs, Json.isNumber x = false) :
    Fails (Loader.numbers xs.length (xs.map fun x => (Json.double (.of x)).reread)) := by
  obtain ⟨x, hx, hnot⟩ := h
  have hnull : (Json.double (.of x)).reread = .null := by
    rw [Json.reread_double, Json.rereadDouble, Double.toFloat_of, hnot]
    rfl
  rw [Loader.numbers, List.take_of_length_le (Nat.le_of_eq (List.length_map _))]
  induction xs with
  | nil => cases hx
  | cons y xs ih =>
    rw [List.map_cons, List.mapM_cons]
    rcases List.mem_cons.1 hx with rfl | hx
    · rw [hnull]
      exact bind_left (bind_left (.throw _))
    · exact bind_right fun _ => bind_left (ih hx)

end Fails

/-! ### Reading what was written of a graph -/

/-- Every value is read, if not always as it was. -/
theorem exists_toValue_reread (v : Value) : ∃ v', toValue (ofValue v).reread = .ok v' := by
  have hsame {c : Json} (hc : c.reread = c) (name : String) :
      (Json.object [("type", .string name), ("value", c)]).reread =
        .object [("type", .string name), ("value", c)] := by
    simp [hc]
  cases v with
  | double x =>
    by_cases hx : Json.isNumber x.toFloat = true
    · refine ⟨.double (.of x.toFloat), ?_⟩
      simp only [ofValue, content, Json.reread_object, List.map_cons, List.map_nil,
        Json.reread_string, Json.reread_double, Json.rereadDouble, if_pos hx]
      rfl
    · refine ⟨.null, ?_⟩
      simp only [ofValue, content, Json.reread_object, List.map_cons, List.map_nil,
        Json.reread_string, Json.reread_double, Json.rereadDouble, if_neg hx]
      rfl
  | _ =>
    rw [ofValue, hsame (by simp [content]), ← ofValue]
    exact ⟨_, toValue_ofValue _⟩

namespace Succeeds

theorem pin (p q : Pin) : Succeeds (Loader.pin (ofPin p).reread q) := by
  have hid : (ofPin p).reread.member? "id" = some (.string p.id) := by
    rw [Json.member?_reread, show (ofPin p).member? "id" = some (.string p.id) from rfl,
      Option.map_some, Json.reread_string]
  have hvalue : (ofPin p).reread.member? "value" =
      if p.flow then none else some (ofValue p.value).reread := by
    rw [Json.member?_reread, ofPin]
    split <;> rfl
  obtain ⟨v, hv⟩ := exists_toValue_reread p.value
  simp only [Loader.pin, hid, hvalue]
  refine need_bind (a := p.id) rfl (pure_bind ?_)
  split
  · next h =>
    split at h
    · cases h
    · obtain rfl := Option.some.inj h
      split
      · exact .pure _
      · rw [hv]
        exact .pure _
  · exact .pure _

theorem pinList (ps qs : List Pin) :
    Succeeds (Loader.pinList (ps.map fun p => (ofPin p).reread) qs) := by
  induction ps generalizing qs with
  | nil => exact .pure qs
  | cons p ps ih =>
    cases qs with
    | nil => exact .pure []
    | cons q qs => exact (pin p q).bind fun _ => (ih qs).bind fun _ => .pure _

end Succeeds

section Parts
variable {g : Graph} {n : Node}

/-- What is read under a key of an object that was written. -/
theorem member?_of_written {j m : Json} {key : String} (h : j.member? key = some m) :
    j.reread.member? key = some m.reread := by
  rw [Json.member?_reread, h, Option.map_some]

/-- What is read of a member of an object that was written. -/
theorem memberOr_of_written {α : Type} {j m : Json} {key : String}
    {read : Json → Except Json.Mismatch α} {a fallback : α} (hj : j.isObject = true)
    (hm : j.member? key = some m) (hread : read m.reread = .ok a) :
    j.reread.memberOr key read fallback = .ok a := by
  simp only [Json.memberOr, Json.isObject_reread, hj, member?_of_written hm, if_true, hread]

/-- The pins of a node are read. -/
theorem succeeds_pins {j : Json} {key : String} {ps : List Pin}
    (h : j.member? key = some (.array (ps.map ofPin))) (qs : List Pin) :
    Succeeds (Loader.pins j.reread key qs) := by
  simp only [Loader.pins, member?_of_written h, Json.reread_array, Json.items?, List.map_map]
  exact .pinList ps qs

/-- The items of an array that was written are read. -/
theorem itemsOf?_of_written {j : Json} {key : String} {js : List Json} {least : Nat}
    (h : j.member? key = some (.array js)) (hleast : least ≤ js.length) :
    itemsOf? j.reread key least = some (js.map Json.reread) := by
  rw [itemsOf?, member?_of_written h, Json.reread_array, Option.bind_some, Json.items?,
    Option.filter_some, List.length_map]
  exact if_pos (decide_eq_true hleast)

theorem itemsOf_of_written {j : Json} {key : String} {js : List Json}
    (h : j.member? key = some (.array js)) : itemsOf j.reread key = js.map Json.reread := by
  rw [itemsOf, itemsOf?_of_written h (Nat.zero_le _)]
  rfl

/-- What may be missing is read as it was written. -/
theorem optionalString_of_written {j : Json} {key : String} {o : Option String}
    (h : j.member? key = some (.ofOption o)) : j.reread.optionalString key = .ok o :=
  optionalString_of_member (by rw [member?_of_written h, Json.reread_ofOption])

/-- Numbers that were written are there. -/
theorem itemsOf?_of_numbers {j : Json} {key : String} {xs : List Float}
    (h : j.member? key = some (.array (xs.map fun x => .double (.of x)))) :
    itemsOf? j.reread key xs.length = some (xs.map fun x => (Json.double (.of x)).reread) := by
  rw [itemsOf?_of_written h (Nat.le_of_eq (List.length_map _).symm), List.map_map]
  rfl

theorem itemsOf?_position (n : Node) : itemsOf? (ofNode n).reread "position" 2 =
    some (n.position.numbers.map fun x => (Json.double (.of x)).reread) :=
  itemsOf?_of_numbers (show (ofNode n).member? "position" =
    some (.array (n.position.numbers.map fun x => .double (.of x))) from rfl)

/-- A node is read if its place is made of numbers. -/
theorem succeeds_nodeOf (h : ∀ x ∈ n.position.numbers, Json.isNumber x = true) (id type : String)
    (m : Node) : Succeeds (Loader.nodeOf (ofNode n).reread id type m) := by
  have hname : (ofNode n).reread.memberOr "name" Json.asString type = .ok n.name :=
    memberOr_of_written rfl rfl (by rw [Json.reread_string]; rfl)
  have henabled : (ofNode n).reread.memberOr "enabled" Json.asBool true = .ok n.enabled :=
    memberOr_of_written rfl rfl (by rw [Json.reread_bool]; rfl)
  have hgroup : (ofNode n).reread.optionalString "group_id" = .ok n.groupId :=
    optionalString_of_written rfl
  simp only [Loader.nodeOf, itemsOf?_position]
  refine .need_bind hname (.need_bind henabled (.need_bind hgroup ?_))
  refine (Succeeds.numbers h).bind fun xs => ?_
  have hrest (position : Point Float) : Succeeds (do
      let inputs ← Loader.pins (ofNode n).reread "inputs" m.inputs
      let outputs ← Loader.pins (ofNode n).reread "outputs" m.outputs
      return { m with id, name := n.name, enabled := n.enabled, groupId := n.groupId, position, inputs, outputs } : Loader Node) :=
    (succeeds_pins rfl _).bind fun _ => (succeeds_pins rfl _).bind fun _ => .pure _
  split
  · exact .pure_bind (hrest _)
  · exact .pure_bind (hrest _)

/-- A node is not read if its place is not made of numbers. -/
theorem fails_nodeOf (h : ∃ x ∈ n.position.numbers, Json.isNumber x = false) (id type : String)
    (m : Node) : Fails (Loader.nodeOf (ofNode n).reread id type m) := by
  simp only [Loader.nodeOf, itemsOf?_position]
  refine .bind_right fun name => .bind_right fun enabled => .bind_right fun groupId => ?_
  exact (Fails.numbers h).bind_left

/-- A node that was written is read, or left out, if its place is made of numbers. -/
theorem succeeds_node (r : Registry) (h : ∀ x ∈ n.position.numbers, Json.isNumber x = true) :
    Succeeds (Loader.node r (ofNode n).reread) := by
  have hid : (ofNode n).reread.member? "id" = some (Json.string n.id).reread :=
    member?_of_written rfl
  have htype : (ofNode n).reread.member? "type" = some (Json.string n.type).reread :=
    member?_of_written rfl
  simp only [Loader.node, hid, htype, Json.reread_string]
  refine .need_bind (a := n.id) rfl (.need_bind (a := n.type) rfl (.get fun d => ?_))
  split
  · exact .report _
  · exact (Succeeds.set _).bind fun _ => (succeeds_nodeOf h _ _ _).bind fun _ => .change _

/-- A node that was written is refused if it can be made and its place is not made of numbers. -/
theorem fails_node {r : Registry} (hr : ∀ ids, (r.create n.type ids).isSome = true)
    (h : ∃ x ∈ n.position.numbers, Json.isNumber x = false) :
    Fails (Loader.node r (ofNode n).reread) := by
  have hid : (ofNode n).reread.member? "id" = some (Json.string n.id).reread :=
    member?_of_written rfl
  have htype : (ofNode n).reread.member? "type" = some (Json.string n.type).reread :=
    member?_of_written rfl
  simp only [Loader.node, hid, htype, Json.reread_string]
  refine .need_bind (a := n.id) rfl (.need_bind (a := n.type) rfl (.get fun d => ?_))
  obtain ⟨⟨m, ids⟩, hcreate⟩ := Option.isSome_iff_exists.1 (hr d.graph.ids)
  rw [hcreate]
  exact .bind_right fun _ => (fails_nodeOf h _ _ _).bind_left

theorem succeeds_wire (c : Wire) : Succeeds (Loader.wire (ofWire c).reread) := by
  have hid : (ofWire c).reread.member? "id" = some (Json.string c.id).reread :=
    member?_of_written rfl
  have hs : (ofWire c).reread.member? "source_pin_id" = some (Json.string c.sourceId).reread :=
    member?_of_written rfl
  have ht : (ofWire c).reread.member? "target_pin_id" = some (Json.string c.targetId).reread :=
    member?_of_written rfl
  simp only [Loader.wire, hid, hs, ht, Json.reread_string]
  exact .need_bind (a := c.id) rfl (.need_bind (a := c.sourceId) rfl
    (.need_bind (a := c.targetId) rfl (.change _)))

/-! ### Groups -/

theorem itemsOf?_bounds (g : Graph) (parent : Option String) (b : Group) :
    itemsOf? (ofGroup g parent b).reread "bounds" 4 =
      some (b.bounds.numbers.map fun x => (Json.double (.of x)).reread) :=
  itemsOf?_of_numbers (show (ofGroup g parent b).member? "bounds" =
    some (.array (b.bounds.numbers.map fun x => .double (.of x))) from rfl)

theorem memberOr_name_ofGroup (g : Graph) (parent : Option String) (b : Group) :
    (ofGroup g parent b).reread.memberOr "name" Json.asString "Group" = .ok b.name :=
  memberOr_of_written rfl rfl (by rw [Json.reread_string]; rfl)

/-- What follows the bounds of a group is read. -/
theorem succeeds_members (read : Dict GroupKey) (parent : Option String) (b : Group)
    (bounds : Rect Float) : Succeeds (do
      ((b.members.filterMap g.node?).map (Json.reread ∘ fun n => Json.string n.id)).forM
        (Loader.claim b.id)
      let parent ← need ((ofGroup g parent b).reread.optionalString "parent_id")
      let d ← get
      let (a, graph) := d.graph.newGroup b.name bounds
      set { d with graph := graph.modifyGroup a fun c => { c with id := b.id } }
      Loader.place read parent a
      return if read.has b.id then read else read.insert b.id a : Loader (Dict GroupKey)) := by
  have hparent : (ofGroup g parent b).reread.optionalString "parent_id" = .ok parent :=
    optionalString_of_written rfl
  refine (Succeeds.forM ?_).bind fun _ => .need_bind hparent (.get fun d => ?_)
  · refine List.forall_mem_map.2 fun n _ => ?_
    rw [Function.comp_apply, Json.reread_string]
    exact .need_bind (a := n.id) rfl (.change _)
  · refine (Succeeds.set _).bind fun _ => Succeeds.bind ?_ fun _ => .pure _
    simp only [Loader.place]
    split
    · exact .change _
    · split
      · exact .change _
      · exact (Succeeds.report _).bind fun _ => .change _

/-- A group is read if its bounds are made of numbers. -/
theorem succeeds_group (read : Dict GroupKey) (parent : Option String) {b : Group}
    (h : ∀ x ∈ b.bounds.numbers, Json.isNumber x = true) :
    Succeeds (Loader.group read (ofGroup g parent b).reread) := by
  have hid : (ofGroup g parent b).reread.member? "id" = some (Json.string b.id).reread :=
    member?_of_written rfl
  have hnodes : itemsOf (ofGroup g parent b).reread "node_ids" =
      ((b.members.filterMap g.node?).map fun n => Json.string n.id).map Json.reread :=
    itemsOf_of_written rfl
  simp only [Loader.group, hid, hnodes, itemsOf?_bounds, List.map_map, Json.reread_string]
  refine .need_bind (memberOr_name_ofGroup g parent b) (Succeeds.freshId.bind fun fresh => ?_)
  refine .need_bind (a := b.id) rfl ((Succeeds.numbers h).bind fun xs => ?_)
  split
  · exact .pure_bind (succeeds_members read parent b _)
  · exact .pure_bind (succeeds_members read parent b _)

/-- A group is not read if its bounds are not made of numbers. -/
theorem fails_group (read : Dict GroupKey) (parent : Option String) {b : Group}
    (h : ∃ x ∈ b.bounds.numbers, Json.isNumber x = false) :
    Fails (Loader.group read (ofGroup g parent b).reread) := by
  have hid : (ofGroup g parent b).reread.member? "id" = some (Json.string b.id).reread :=
    member?_of_written rfl
  simp only [Loader.group, hid, itemsOf?_bounds]
  refine .bind_right fun name => .bind_right fun fresh => .bind_right fun id => ?_
  exact (Fails.numbers h).bind_left

theorem succeeds_groups {js : List Json} (h : ∀ j ∈ js, ∀ read, Succeeds (Loader.group read j))
    (read : Dict GroupKey) : Succeeds (Loader.groups read js) := by
  induction js generalizing read with
  | nil => exact .pure _
  | cons j js ih =>
    obtain ⟨hj, hjs⟩ := List.forall_mem_cons.1 h
    exact (hj read).bind fun read => ih hjs read

theorem fails_groups {j : Json} {js : List Json} (hj : j ∈ js)
    (h : ∀ read, Fails (Loader.group read j)) (read : Dict GroupKey) :
    Fails (Loader.groups read js) := by
  induction js generalizing read with
  | nil => cases hj
  | cons k js ih =>
    rcases List.mem_cons.1 hj with rfl | hj
    · exact (h read).bind_left
    · exact .bind_right fun read => ih hj read

/-! ### Whole documents -/

theorem succeeds_category (g : Graph) : Succeeds (Loader.category (ofGraph g).reread) := by
  have hcategory : (ofGraph g).reread.member? "category" =
      some (Json.string g.category.label).reread := member?_of_written rfl
  simp only [Loader.category, hcategory, Json.reread_string]
  refine .need_bind (a := g.category.label) rfl ?_
  rw [Category.ofLabel?_label]
  exact .pure _

theorem succeeds_graphId (j : Json) : Succeeds (Loader.graphId j) := by
  simp only [Loader.graphId]
  split
  · exact .pure _
  · exact .freshId

theorem itemsOf_nodes (g : Graph) : itemsOf (ofGraph g).reread "nodes" =
    g.memberNodes.map fun n => (ofNode n).reread := by
  rw [itemsOf_of_written (show (ofGraph g).member? "nodes" =
    some (.array (g.memberNodes.map ofNode)) from rfl), List.map_map]
  rfl

theorem itemsOf_groups (g : Graph) : itemsOf (ofGraph g).reread "groups" =
    (ofForest g none g.groups).map Json.reread :=
  itemsOf_of_written rfl

/-- The text of a graph is read if the places that it tells are made of numbers. -/
theorem succeeds_document (r : Registry) (h : g.Placed) :
    Succeeds (Loader.document r (ofGraph g).reread) := by
  have hobject : (ofGraph g).reread.isObject = true := Json.isObject_reread _
  have hname : (ofGraph g).reread.memberOr "name" Json.asString "Graph" = .ok g.name :=
    memberOr_of_written rfl rfl (by rw [Json.reread_string]; rfl)
  have hwires : itemsOf (ofGraph g).reread "connections" =
      (g.linkWires.map ofWire).map Json.reread := itemsOf_of_written rfl
  have hmain : (ofGraph g).reread.optionalString "main_node_id" = .ok g.mainId :=
    optionalString_of_written rfl
  simp only [Loader.document, members, hobject, itemsOf_nodes, itemsOf_groups, hwires]
  refine .rethrow ?_
  refine .need_bind hname ((succeeds_graphId _).bind fun id => (succeeds_category g).bind fun c => ?_)
  refine (Succeeds.change _).bind fun _ => (Succeeds.forM ?_).bind fun _ =>
    (Succeeds.forM ?_).bind fun _ => (succeeds_groups ?_ _).bind fun _ => .need_bind hmain ?_
  · exact List.forall_mem_map.2 fun n hn => succeeds_node r (h.nodes n hn)
  · exact List.forall_mem_map.2 (List.forall_mem_map.2 fun c _ => succeeds_wire c)
  · refine List.forall_mem_map.2 fun j hj read => ?_
    obtain ⟨b, hb, p, rfl⟩ := exists_of_mem_ofForest hj
    exact succeeds_group read p (h.groups b hb)
  · exact .get fun d => .set _

/-- The text of a graph is refused if a place that it tells is not made of numbers and its nodes can
be made. -/
theorem fails_document {r : Registry}
    (hr : ∀ n ∈ g.memberNodes, ∀ ids, (r.create n.type ids).isSome = true) (h : ¬ g.Placed) :
    Fails (Loader.document r (ofGraph g).reread) := by
  have hwrong : (∃ n ∈ g.memberNodes, ∃ x ∈ n.position.numbers, Json.isNumber x = false) ∨
      ∃ b ∈ g.groups.preorder, ∃ x ∈ b.bounds.numbers, Json.isNumber x = false := by
    by_contra hnone
    simp only [not_or, not_exists, not_and, Bool.not_eq_false] at hnone
    exact h ⟨hnone.1, hnone.2⟩
  simp only [Loader.document, members, Json.isObject_reread, itemsOf_nodes, itemsOf_groups]
  refine .rethrow ?_
  refine .bind_right fun name => .bind_right fun id => .bind_right fun c => .bind_right fun _ => ?_
  rcases hwrong with ⟨n, hn, hx⟩ | ⟨b, hb, hx⟩
  · exact (Fails.forM (List.mem_map_of_mem hn) (fails_node (hr n hn) hx)).bind_left
  · obtain ⟨p, hp⟩ := exists_ofGroup_mem none hb
    refine .bind_right fun _ => .bind_right fun _ => .bind_left ?_
    exact fails_groups (List.mem_map_of_mem hp) (fun read => fails_group read p hx) _

end Parts
end Loader

/-- What is read of the text of a graph becomes a graph again if the places that it tells are made of
numbers. -/
theorem exists_load_reread (r : Registry) (empty : Graph) {g : Graph} (h : g.Placed) :
    ∃ l, (load r empty (ofGraph g).reread).result = .ok l := by
  obtain ⟨u, d, hrun⟩ := Loader.succeeds_document r h { graph := empty }
  have hrun : (Loader.document r (ofGraph g).reread).run { graph := empty } = (.ok u, d) := hrun
  rw [load, hrun]
  exact ⟨_, rfl⟩

/-- What is read of the text of a graph becomes a graph only if the places that it tells are made of
numbers. -/
theorem placed_of_load_reread {r : Registry} {empty g l : Graph}
    (hr : ∀ n ∈ g.memberNodes, ∀ ids, (r.create n.type ids).isSome = true)
    (h : (load r empty (ofGraph g).reread).result = .ok l) : g.Placed := by
  by_contra hnot
  exact of_load (Loader.fails_document hr hnot) trivial h

end Document
end Patchbay
