/-!
# Dictionaries with text keys

A dictionary lists its entries by ascending key, so that two dictionaries with the same
look-ups are the same list and every listing of keys is sorted.
-/
namespace Patchbay
universe u

/-- Entries by strictly ascending key. -/
structure Dict (α : Type u) where
  entries : List (String × α)
  ascending : entries.Pairwise (fun a b => a.1 < b.1)

namespace Dict
variable {α : Type u}

/-- The dictionary without entries. -/
def empty : Dict α := ⟨[], .nil⟩

instance : Inhabited (Dict α) := ⟨empty⟩

/-- Put a value under a key into an ascending list, in place of an entry with that key. -/
def insertEntry (k : String) (v : α) : List (String × α) → List (String × α)
  | [] => [(k, v)]
  | (j, w) :: rest =>
    if k < j then (k, v) :: (j, w) :: rest
    else if k = j then (k, v) :: rest
    else (j, w) :: insertEntry k v rest

theorem mem_insertEntry {k : String} {v : α} {l : List (String × α)} {e : String × α}
    (h : e ∈ insertEntry k v l) : e = (k, v) ∨ e ∈ l := by
  induction l with
  | nil => simp_all [insertEntry]
  | cons a l ih =>
    simp only [insertEntry] at h
    split at h
    · simp_all
    · split at h
      · rcases List.mem_cons.1 h with h | h
        · exact .inl h
        · exact .inr (List.mem_cons_of_mem _ h)
      · rcases List.mem_cons.1 h with h | h
        · exact .inr (h ▸ List.mem_cons_self)
        · exact (ih h).imp id (List.mem_cons_of_mem _)

theorem ascending_insertEntry (k : String) (v : α) {l : List (String × α)}
    (h : l.Pairwise (fun a b => a.1 < b.1)) :
    (insertEntry k v l).Pairwise (fun a b => a.1 < b.1) := by
  induction l with
  | nil => simp [insertEntry]
  | cons a l ih =>
    obtain ⟨ha, hl⟩ := List.pairwise_cons.1 h
    simp only [insertEntry]
    split
    · next hk =>
      refine List.pairwise_cons.2 ⟨fun b hb => ?_, h⟩
      rcases List.mem_cons.1 hb with rfl | hb
      · exact hk
      · exact String.lt_trans hk (ha b hb)
    · next hk =>
      split
      · next he => exact List.pairwise_cons.2 ⟨fun b hb => he ▸ ha b hb, hl⟩
      · next he =>
        have hlt : a.1 < k := by
          apply String.not_le.1
          intro hle
          exact he (String.le_antisymm hle (String.not_lt.1 hk))
        refine List.pairwise_cons.2 ⟨fun b hb => ?_, ih hl⟩
        rcases mem_insertEntry hb with rfl | hb
        · exact hlt
        · exact ha b hb

/-- Put a value under a key; an entry with that key is replaced. -/
def insert (d : Dict α) (k : String) (v : α) : Dict α :=
  ⟨insertEntry k v d.entries, ascending_insertEntry k v d.ascending⟩

/-- Remove the entry under a key. -/
def erase (d : Dict α) (k : String) : Dict α :=
  ⟨d.entries.filter (fun e => e.1 ≠ k), d.ascending.filter _⟩

/-- The value under a key. -/
def get? (d : Dict α) (k : String) : Option α :=
  (d.entries.find? (fun e => e.1 = k)).map (·.2)

/-- Is there an entry under the key? -/
def has (d : Dict α) (k : String) : Bool := (d.get? k).isSome

/-- The number of entries. -/
def size (d : Dict α) : Nat := d.entries.length

/-- The keys, ascending. -/
def keys (d : Dict α) : List String := d.entries.map (·.1)

/-- The dictionary of a list of entries, of which the last under a key counts. -/
def ofList (l : List (String × α)) : Dict α :=
  l.foldl (fun d e => d.insert e.1 e.2) empty

@[simp] theorem get?_empty (k : String) : (empty : Dict α).get? k = none := rfl

@[simp] theorem size_empty : (empty : Dict α).size = 0 := rfl

theorem ascending_keys (d : Dict α) : d.keys.Pairwise (· < ·) :=
  List.pairwise_map.2 d.ascending

@[simp] theorem length_keys (d : Dict α) : d.keys.length = d.size := by
  simp [keys, size]

private theorem find?_insertEntry_self (k : String) (v : α) (l : List (String × α)) :
    ((insertEntry k v l).find? (fun e => e.1 = k)).map (·.2) = some v := by
  induction l with
  | nil => simp [insertEntry]
  | cons a l ih =>
    simp only [insertEntry]
    split
    · simp
    · split
      · simp
      · next hne => simpa [List.find?_cons, show ¬ a.1 = k from fun h => hne h.symm] using ih

private theorem find?_insertEntry_of_ne {j k : String} (h : j ≠ k) (v : α)
    (l : List (String × α)) :
    (insertEntry k v l).find? (fun e => e.1 = j) = l.find? (fun e => e.1 = j) := by
  induction l with
  | nil => simp [insertEntry, Ne.symm h]
  | cons a l ih =>
    simp only [insertEntry]
    split
    · simp [Ne.symm h]
    · split
      · next he => subst he; simp [Ne.symm h]
      · rw [List.find?_cons, List.find?_cons, ih]

@[simp] theorem get?_insert_self (d : Dict α) (k : String) (v : α) :
    (d.insert k v).get? k = some v := find?_insertEntry_self k v d.entries

theorem get?_insert_of_ne (d : Dict α) {j k : String} (h : j ≠ k) (v : α) :
    (d.insert k v).get? j = d.get? j := by
  simp only [get?, insert, find?_insertEntry_of_ne h]

theorem get?_insert (d : Dict α) (j k : String) (v : α) :
    (d.insert k v).get? j = if j = k then some v else d.get? j := by
  by_cases h : j = k
  · subst h; simp
  · simp [h, get?_insert_of_ne d h]

theorem get?_erase (d : Dict α) (j k : String) :
    (d.erase k).get? j = if j = k then none else d.get? j := by
  have key : ∀ l : List (String × α),
      (l.filter (fun e => e.1 ≠ k)).find? (fun e => e.1 = j) =
        if j = k then none else l.find? (fun e => e.1 = j) := by
    intro l
    induction l with
    | nil => simp
    | cons a l ih =>
      by_cases h : j = k <;> by_cases ha : a.1 = k <;> by_cases hj : a.1 = j <;>
        simp_all
  simp only [get?, erase, key]
  split <;> rfl

theorem mem_keys {d : Dict α} {k : String} : k ∈ d.keys ↔ d.has k = true := by
  simp only [keys, has, get?, Option.isSome_map, List.find?_isSome, List.mem_map]
  constructor
  · rintro ⟨e, he, rfl⟩; exact ⟨e, he, by simp⟩
  · rintro ⟨e, he, h⟩; exact ⟨e, he, by simpa using h⟩

end Dict
end Patchbay
