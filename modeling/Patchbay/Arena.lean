/-!
# Arenas

An arena keeps live values under stable keys. A key is handed out once, by `push`, and
is never used again: `erase` leaves its cell empty for good, so a key that outlives its
value is found dead rather than pointing at a newcomer.
-/
namespace Patchbay
universe u

/-- Cells in the order in which their keys were handed out; an empty cell is a dead key. -/
structure Arena (α : Type u) where
  cells : Array (Option α) := #[]

namespace Arena
variable {α : Type u}

instance : Inhabited (Arena α) := ⟨{}⟩

/-- The arena without any value. -/
def empty : Arena α := {}

/-- The key that the next `push` hands out. -/
def next (a : Arena α) : Nat := a.cells.size

/-- The value under a key, if it is still alive. -/
def get? (a : Arena α) (k : Nat) : Option α := a.cells[k]?.getD none

/-- Store a value under the key `next`. -/
def push (a : Arena α) (x : α) : Arena α := ⟨a.cells.push (some x)⟩

/-- Change the value under a key; a dead key stays dead. -/
def modify (a : Arena α) (k : Nat) (f : α → α) : Arena α :=
  ⟨a.cells.modify k (Option.map f)⟩

/-- End the life of a key. -/
def erase (a : Arena α) (k : Nat) : Arena α := ⟨a.cells.setIfInBounds k none⟩

/-- Is the key in use? -/
def has (a : Arena α) (k : Nat) : Bool := (a.get? k).isSome

/-- The keys in use, in the order in which they were handed out. -/
def keys (a : Arena α) : List Nat := (List.range a.next).filter a.has

@[simp] theorem get?_empty (k : Nat) : (empty : Arena α).get? k = none := by
  simp [empty, get?]

@[simp] theorem next_push (a : Arena α) (x : α) : (a.push x).next = a.next + 1 := by
  simp [push, next]

@[simp] theorem next_modify (a : Arena α) (k : Nat) (f : α → α) :
    (a.modify k f).next = a.next := by
  simp [modify, next]

@[simp] theorem next_erase (a : Arena α) (k : Nat) : (a.erase k).next = a.next := by
  simp [erase, next]

theorem get?_push (a : Arena α) (x : α) (k : Nat) :
    (a.push x).get? k = if k = a.next then some x else a.get? k := by
  by_cases h : k = a.next <;> simp [push, get?, next, Array.getElem?_push] at h ⊢ <;> simp [h]

/-- A fresh key was dead before. -/
@[simp] theorem get?_next (a : Arena α) : a.get? a.next = none := by
  simp [get?, next]

theorem get?_modify (a : Arena α) (k j : Nat) (f : α → α) :
    (a.modify k f).get? j = if k = j then (a.get? j).map f else a.get? j := by
  by_cases h : k = j
  · subst h
    cases hk : a.cells[k]? <;> simp [modify, get?, Array.getElem?_modify, hk]
  · simp [modify, get?, Array.getElem?_modify, h]

theorem get?_erase (a : Arena α) (k j : Nat) :
    (a.erase k).get? j = if k = j then none else a.get? j := by
  by_cases h : k = j
  · subst h
    by_cases hk : k < a.cells.size <;> simp [erase, get?, hk]
  · simp [erase, get?, h]

theorem lt_next_of_get? {a : Arena α} {k : Nat} {x : α} (h : a.get? k = some x) :
    k < a.next := by
  by_cases hk : k < a.cells.size
  · exact hk
  · simp [get?, hk] at h

theorem mem_keys {a : Arena α} {k : Nat} : k ∈ a.keys ↔ ∃ x, a.get? k = some x := by
  simp only [keys, List.mem_filter, List.mem_range, has, Option.isSome_iff_exists]
  exact ⟨fun h => h.2, fun ⟨x, hx⟩ => ⟨lt_next_of_get? hx, x, hx⟩⟩

end Arena
end Patchbay
