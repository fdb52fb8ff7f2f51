import Mathlib.Data.List.Basic
import Patchbay.Graph.Relink
import Patchbay.Proofs.Wiring.Frame
/-!
# Indexes by id

Relinking looks up nodes, groups and pins in indexes that are made on the spot. Under each id an
index has the first that has it; if no two have one id, it has them all.

## Main definitions

* `Dict.firsts`: some values by their keys, of which the first under a key counts.

## Main statements

* `Graph.index_reindex`, `Graph.groupIndex_eq`, `Graph.pinIndex_eq`: the three indexes are made
  alike.
-/
namespace Patchbay
universe u

namespace Dict
variable {α : Type} {β : Type u} {key : α → Option String} {val : α → β}

/-- Some values by their keys, of which the first under a key counts. -/
def firsts (key : α → Option String) (val : α → β) (xs : List α) : Dict β :=
  xs.foldl (fun d x => match key x with
    | some id => if d.has id then d else d.insert id (val x)
    | none => d) .empty

theorem get?_firsts (xs : List α) (id : String) :
    (firsts key val xs).get? id = (xs.find? fun x => key x = some id).map val := by
  have hfold (d : Dict β) : (xs.foldl (fun d x => match key x with
      | some id => if d.has id then d else d.insert id (val x)
      | none => d) d).get? id =
      (d.get? id).or ((xs.find? fun x => key x = some id).map val) := by
    induction xs generalizing d with
    | nil => simp
    | cons x xs ih =>
      rw [List.foldl_cons, ih, List.find?_cons]
      cases hx : key x with
      | none => simp
      | some i =>
        by_cases hi : i = id
        · subst hi
          cases hd : d.get? i <;> simp [Dict.has, hd]
        · have hne : ¬ (some i = some id) := fun e => hi (Option.some.inj e)
          by_cases hh : d.has i = true <;> simp [hh, hne, Dict.get?_insert, Ne.symm hi]
  exact hfold .empty

/-- A value is found under its key if it is the only one there. -/
theorem get?_firsts_of_unique {xs : List α} {x : α} {id : String} (hx : x ∈ xs)
    (hid : key x = some id) (hu : ∀ y ∈ xs, key y = some id → y = x) :
    (firsts key val xs).get? id = some (val x) := by
  rw [get?_firsts]
  have hfound : (xs.find? fun x => key x = some id).isSome = true :=
    List.find?_isSome.2 ⟨x, hx, decide_eq_true hid⟩
  obtain ⟨y, hy⟩ := Option.isSome_iff_exists.1 hfound
  have hkey := List.find?_some hy
  rw [hy, hu y (List.mem_of_find?_eq_some hy) (of_decide_eq_true hkey)]
  rfl

/-- What is found under a key is there. -/
theorem exists_of_get?_firsts {xs : List α} {id : String} {b : β}
    (h : (firsts key val xs).get? id = some b) : ∃ x ∈ xs, key x = some id ∧ val x = b := by
  rw [get?_firsts] at h
  obtain ⟨x, hx, hb⟩ := Option.map_eq_some_iff.1 h
  have hkey := List.find?_some hx
  exact ⟨x, List.mem_of_find?_eq_some hx, of_decide_eq_true hkey, hb⟩

end Dict

namespace Graph

theorem index_reindex (g : Graph) : g.reindex.index = .firsts g.idOf? (fun k => k) g.members := by
  refine List.foldl_ext _ _ _ fun d k _ => ?_
  simp only [idOf?]
  cases g.node? k <;> rfl

theorem groupIndex_eq (g : Graph) :
    g.groupIndex = .firsts (fun b : Group => some b.id) (·.key) g.groups.preorder := rfl

/-- A main node that is not found is none. -/
theorem relinkMain_eq (g : Graph) : g.relinkMain.1 =
    { g with mainId := g.mainId.filter fun id => (g.nodeWithId? id).isSome } := by
  have hself {mainId : Option String} (h : g.mainId = mainId) : g = { g with mainId } := by
    rw [← h]
  obtain hid | ⟨id, hid⟩ := g.mainId.eq_none_or_eq_some
  · simp only [relinkMain, hid, Option.filter_none]
    exact hself hid
  · simp only [relinkMain, hid, Option.filter_some]
    split
    · exact hself hid
    · rfl

theorem pinIndex_eq (g : Graph) : g.pinIndex = .firsts (fun r => (g.pin? r).map (·.id)) (fun r => r)
    (g.members.flatMap fun k => g.pinRefs k .input ++ g.pinRefs k .output) := by
  refine List.foldl_ext _ _ _ fun d r _ => ?_
  cases h : g.pin? r <;> simp only [h, Option.map_none, Option.map_some]

/-- The pins of nodes are listed. -/
theorem mem_flatMap_pinRefs {g : Graph} {r : PinRef} {p : Pin} (hp : g.pin? r = some p)
    {ks : List NodeKey} (hr : r.node ∈ ks) :
    r ∈ ks.flatMap fun k => g.pinRefs k .input ++ g.pinRefs k .output := by
  refine List.mem_flatMap.2 ⟨r.node, hr, ?_⟩
  rw [List.mem_append, mem_pinRefs_iff, mem_pinRefs_iff, hp]
  cases r.side <;> simp

/-- A pin of a member is found under its id if no two pins of members have one id. -/
theorem get?_pinIndex {g : Graph} {r : PinRef} {p : Pin} (hr : r.node ∈ g.members)
    (hp : g.pin? r = some p) (hids : ∀ r' p', g.pin? r' = some p' → p'.id = p.id → r' = r) :
    g.pinIndex.get? p.id = some r := by
  rw [pinIndex_eq]
  refine Dict.get?_firsts_of_unique (mem_flatMap_pinRefs hp hr) (by rw [hp, Option.map_some])
    fun r' _ hid => ?_
  obtain ⟨p', hp', hid⟩ := Option.map_eq_some_iff.1 hid
  exact hids r' p' hp' hid

end Graph
end Patchbay
