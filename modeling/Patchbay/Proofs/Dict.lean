import Mathlib.Data.List.Induction
import Mathlib.Data.List.Nodup
import Mathlib.Data.List.Perm.Basic
import Patchbay.Dict
/-!
# Look-ups in dictionaries

A dictionary is told by its look-ups: the entries are what is found under the keys, and two
dictionaries with the same look-ups are the same. In a dictionary that is made of a list of entries
the last one under each key is found.

## Main statements

* `Dict.ext_get?`: dictionaries with the same look-ups are the same.
* `Dict.get?_ofList_eq_some_iff`: what is found in the dictionary of a list.
* `Dict.ofList_perm`: the order of entries with different keys does not matter.
-/
namespace Patchbay.Dict
universe u
variable {α : Type u}

/-! ### Entries -/

theorem nodup_keys (d : Dict α) : (d.entries.map Prod.fst).Nodup := by
  refine d.ascending_keys.imp ?_
  rintro a b hlt rfl
  exact String.lt_irrefl _ hlt

theorem get?_eq_some_iff {d : Dict α} {k : String} {v : α} :
    d.get? k = some v ↔ (k, v) ∈ d.entries := by
  rw [get?, Option.map_eq_some_iff]
  constructor
  · rintro ⟨⟨j, w⟩, h, rfl⟩
    obtain rfl : j = k := by simpa using List.find?_some h
    exact List.mem_of_find?_eq_some h
  · intro h
    have hfound : (d.entries.find? fun e => e.1 = k).isSome := by
      rw [List.find?_isSome]
      exact ⟨_, h, decide_eq_true rfl⟩
    obtain ⟨e, he⟩ := Option.isSome_iff_exists.1 hfound
    have hkey : e.1 = k := by simpa using List.find?_some he
    have hone : e = (k, v) :=
      List.inj_on_of_nodup_map d.nodup_keys (List.mem_of_find?_eq_some he) h hkey
    exact ⟨e, he, by rw [hone]⟩

/-- What is found in a dictionary is one of its values. -/
theorem mem_values_of_get? {d : Dict α} {k : String} {v : α} (h : d.get? k = some v) :
    v ∈ d.entries.map (·.2) :=
  List.mem_map_of_mem (get?_eq_some_iff.1 h)

/-- Dictionaries with the same look-ups are the same. -/
theorem ext_get? {d e : Dict α} (h : ∀ k, d.get? k = e.get? k) : d = e := by
  have hperm : d.entries.Perm e.entries := by
    refine (List.perm_ext_iff_of_nodup d.nodup_keys.of_map e.nodup_keys.of_map).2 fun ⟨k, v⟩ => ?_
    rw [← get?_eq_some_iff, ← get?_eq_some_iff, h k]
  have hentries : d.entries = e.entries := by
    refine hperm.eq_of_pairwise (fun a b _ _ hab hba => ?_) d.ascending e.ascending
    exact absurd (String.lt_trans hab hba) (String.lt_irrefl _)
  cases d; cases e
  simpa using hentries

/-! ### Lists of entries -/

/-- Of the entries under a key the last one counts. -/
theorem get?_ofList (l : List (String × α)) (k : String) :
    (ofList l).get? k = (l.reverse.find? fun e => e.1 = k).map (·.2) := by
  induction l using List.reverseRecOn with
  | nil => rfl
  | append_singleton l e ih =>
    have hlast : ofList (l ++ [e]) = (ofList l).insert e.1 e.2 := List.foldl_concat _ _ _ _
    rw [hlast, get?_insert, ih, List.reverse_concat, List.find?_cons]
    by_cases hk : e.1 = k
    · simp [hk]
    · simp [hk, Ne.symm hk]

/-- What is found under a key is the last value there. -/
theorem get?_ofList_eq_some_iff {l : List (String × α)} {k : String} {v : α} :
    (ofList l).get? k = some v ↔
      ∃ before after, l = before ++ (k, v) :: after ∧ ∀ e ∈ after, e.1 ≠ k := by
  rw [get?_ofList, Option.map_eq_some_iff]
  constructor
  · rintro ⟨e, he, rfl⟩
    obtain ⟨hkey, after, before, hl, hafter⟩ := List.find?_eq_some_iff_append.1 he
    obtain rfl : e.1 = k := of_decide_eq_true hkey
    refine ⟨before.reverse, after.reverse, ?_, fun e he => ?_⟩
    · rw [← List.reverse_reverse l, hl]
      simp
    · simpa using hafter e (List.mem_reverse.1 he)
  · rintro ⟨before, after, rfl, hafter⟩
    refine ⟨(k, v), List.find?_eq_some_iff_append.2 ⟨decide_eq_true rfl, after.reverse,
      before.reverse, by simp, fun e he => ?_⟩, rfl⟩
    simpa using hafter e (List.mem_reverse.1 he)

/-- The keys of a dictionary are those of the entries that it is made of. -/
theorem mem_keys_ofList {l : List (String × α)} {k : String} :
    k ∈ (ofList l).keys ↔ k ∈ l.map Prod.fst := by
  rw [mem_keys, has, get?_ofList, Option.isSome_map, List.find?_isSome]
  simp

theorem insert_comm (d : Dict α) {j k : String} (h : j ≠ k) (v w : α) :
    (d.insert j v).insert k w = (d.insert k w).insert j v := by
  refine ext_get? fun i => ?_
  simp only [get?_insert]
  by_cases hk : i = k
  · have hj : i ≠ j := fun hj => h (hj.symm.trans hk)
    simp [hk, Ne.symm h]
  · simp [hk]

/-- The order of a list of entries does not matter if no two of them have one key. -/
theorem ofList_perm {l l' : List (String × α)} (hp : l.Perm l') (hn : (l.map Prod.fst).Nodup) :
    ofList l = ofList l' := by
  refine hp.foldl_eq' (fun a ha b hb d => ?_) Dict.empty
  by_cases hab : a.1 = b.1
  · rw [List.inj_on_of_nodup_map hn ha hb hab]
  · exact insert_comm d hab a.2 b.2

/-- Entries by ascending key are a dictionary already. -/
theorem entries_ofList {l : List (String × α)} (h : l.Pairwise fun a b => a.1 < b.1) :
    (ofList l).entries = l := by
  have hlast {k : String} {v : α} {d : List (String × α)} (hd : ∀ e ∈ d, e.1 < k) :
      insertEntry k v d = d ++ [(k, v)] := by
    induction d with
    | nil => rfl
    | cons e d ih =>
      obtain ⟨he, hd⟩ := List.forall_mem_cons.1 hd
      rw [insertEntry, if_neg fun hlt => String.lt_irrefl _ (String.lt_trans he hlt),
        if_neg fun heq => String.lt_irrefl _ (heq ▸ he), ih hd]
      rfl
  have hfold (l : List (String × α)) (d : Dict α) (hl : (d.entries ++ l).Pairwise
      fun a b => a.1 < b.1) : (l.foldl (fun d e => d.insert e.1 e.2) d).entries = d.entries ++ l := by
    induction l generalizing d with
    | nil => exact (List.append_nil _).symm
    | cons e l ih =>
      have hinsert : (d.insert e.1 e.2).entries = d.entries ++ [e] :=
        hlast fun a ha => (List.pairwise_append.1 hl).2.2 a ha e List.mem_cons_self
      have hsplit : d.entries ++ e :: l = (d.insert e.1 e.2).entries ++ l := by
        rw [hinsert, List.append_assoc]
        rfl
      rw [List.foldl_cons, ih _ (hsplit ▸ hl), hsplit]
  exact hfold l Dict.empty h

end Patchbay.Dict
