import Mathlib.Data.List.Nodup
import Patchbay.Graph.Group
/-!
# Rearranging forests

Groups move from one place of a forest to another, or from forest to forest. Which groups there
are depends only on their list, parents before children, and a move permutes that list.

## Main statements

* `Forest.mem_keys_iff_tree?`: a tree is found exactly under the keys of a forest.
* `Forest.preorder_detach?`: a tree that is taken out takes its groups along.
* `Forest.preorder_adopt`: a tree that is put in brings its groups.
* `Forest.preorder_adopt_detach?`: a tree moves below a group that is not one of its own.
-/
namespace Patchbay

/-- An item is found under its key if no other item has it. -/
theorem find?_key_of_mem {α β : Type} [DecidableEq β] {key : α → β} {xs : List α}
    (hn : (xs.map key).Nodup) {x : α} (hx : x ∈ xs) :
    xs.find? (fun y => key y = key x) = some x := by
  have hfound : (xs.find? fun y => key y = key x).isSome = true :=
    List.find?_isSome.2 ⟨x, hx, by simp⟩
  obtain ⟨y, hy⟩ := Option.isSome_iff_exists.1 hfound
  have hkey : key y = key x := by simpa using List.find?_some hy
  rw [hy, List.inj_on_of_nodup_map hn (List.mem_of_find?_eq_some hy) hx hkey]

namespace Forest

variable {f f' : Forest} {t : Tree} {k : GroupKey}

theorem get?_eq (f : Forest) (k : GroupKey) :
    f.get? k = f.preorder.find? (fun a => a.key = k) := find?_eq _ f

theorem get?_of_mem (hn : f.keys.Nodup) {b : Group} (hb : b ∈ f.preorder) :
    f.get? b.key = some b := by
  rw [get?_eq]
  exact find?_key_of_mem hn hb

theorem keys_cons (a : Group) (cs rest : Forest) :
    (cons a cs rest).keys = a.key :: (cs.keys ++ rest.keys) := by
  simp [keys, preorder]

@[simp] theorem keys_append (f g : Forest) : (f.append g).keys = f.keys ++ g.keys := by
  simp [keys]

theorem map_map (h h' : Group → Group) (f : Forest) : (f.map h).map h' = f.map (h' ∘ h) := by
  induction f with
  | nil => rfl
  | cons a cs rest ihc ih => simp [map, ihc, ih]

theorem map_congr {h h' : Group → Group} (hh : ∀ a ∈ f.preorder, h a = h' a) :
    f.map h = f.map h' := by
  induction f with
  | nil => rfl
  | cons a cs rest ihc ih =>
    rw [map, map, hh a List.mem_cons_self,
      ihc fun b hb => hh b (List.mem_cons_of_mem a (List.mem_append_left _ hb)),
      ih fun b hb => hh b (List.mem_cons_of_mem a (List.mem_append_right _ hb))]

/-- A change that changes no group. -/
theorem map_eq_self {h : Group → Group} (hh : ∀ a ∈ f.preorder, h a = a) : f.map h = f := by
  rw [map_congr hh]
  clear hh
  induction f with
  | nil => rfl
  | cons a cs rest ihc ih => rw [map, ihc, ih]

theorem key_of_tree? (h : f.tree? k = some t) : t.root.key = k := by
  induction f with
  | nil => simp [tree?] at h
  | cons a cs rest ihc ih =>
    simp only [tree?] at h
    split at h
    · next hk => cases h; exact hk
    · rcases Option.or_eq_some_iff.1 h with h | ⟨-, h⟩
      · exact ihc h
      · exact ih h

/-- A tree is found exactly under the keys of a forest. -/
theorem mem_keys_iff_tree? (f : Forest) (k : GroupKey) :
    k ∈ f.keys ↔ (f.tree? k).isSome = true := by
  induction f with
  | nil => simp [keys, preorder, tree?]
  | cons a cs rest ihc ih =>
    rw [keys_cons, List.mem_cons, List.mem_append, ihc, ih, tree?]
    split
    · next h => simp [h]
    · next h => simp [Ne.symm h, Option.isSome_or]

theorem exists_tree?_of_mem (h : k ∈ f.keys) : ∃ t, f.tree? k = some t :=
  Option.isSome_iff_exists.1 ((mem_keys_iff_tree? f k).1 h)

theorem mem_keys_iff_get? (f : Forest) (k : GroupKey) :
    k ∈ f.keys ↔ (f.get? k).isSome = true := by
  rw [get?_eq, List.find?_isSome, keys, List.mem_map]
  simp

/-- A tree is taken out of a forest exactly where it is found. -/
theorem detach?_map_fst (f : Forest) (k : GroupKey) :
    (f.detach? k).map (·.1) = f.tree? k := by
  induction f with
  | nil => rfl
  | cons a cs rest ihc ih =>
    simp only [detach?, tree?]
    split
    · rfl
    · rw [← ihc, ← ih]
      cases detach? k cs <;> cases detach? k rest <;> rfl

theorem detach?_of_tree? (h : f.tree? k = some t) : ∃ f', f.detach? k = some (t, f') := by
  rw [← detach?_map_fst, Option.map_eq_some_iff] at h
  obtain ⟨⟨t', f'⟩, h, rfl⟩ := h
  exact ⟨f', h⟩

theorem tree?_of_detach? (h : f.detach? k = some (t, f')) : f.tree? k = some t := by
  rw [← detach?_map_fst, h]
  rfl

theorem perm_bring_front {α : Type} (a : α) (xs ys zs : List α) :
    (a :: (xs ++ (ys ++ zs))).Perm (ys ++ a :: (xs ++ zs)) := by
  have hswap : (xs ++ (ys ++ zs)).Perm (ys ++ (xs ++ zs)) := by
    rw [← List.append_assoc, ← List.append_assoc]
    exact List.perm_append_comm.append_right zs
  exact (hswap.cons a).trans List.perm_middle.symm

/-- A tree that is taken out of a forest takes its groups along, and no other. -/
theorem preorder_detach? (h : f.detach? k = some (t, f')) :
    f.preorder.Perm (t.preorder ++ f'.preorder) := by
  induction f generalizing f' with
  | nil => simp [detach?] at h
  | cons a cs rest ihc ih =>
    simp only [detach?] at h
    split at h
    · cases h
      exact .refl _
    · split at h
      · next t' cs' hcs =>
        cases h
        have hperm := ((ihc hcs).append_right rest.preorder).cons a
        rw [List.append_assoc] at hperm
        exact hperm.trans List.perm_middle.symm
      · obtain ⟨⟨t', rest'⟩, hrest, heq⟩ := Option.map_eq_some_iff.1 h
        cases heq
        exact (((ih hrest).append_left cs.preorder).cons a).trans (perm_bring_front a _ _ _)

/-- A forest without a key does not change when a tree is put below that key. -/
theorem adopt_of_not_mem (hk : k ∉ f.keys) (t : Tree) : f.adopt k t = f := by
  induction f with
  | nil => rfl
  | cons a cs rest ihc ih =>
    rw [keys_cons, List.mem_cons, List.mem_append, not_or, not_or] at hk
    rw [adopt, if_neg (Ne.symm hk.1), ihc hk.2.1, ih hk.2.2]

/-- A tree that is put below a group brings its groups, and no other. -/
theorem preorder_adopt (hn : f.keys.Nodup) (hk : k ∈ f.keys) (t : Tree) :
    (f.adopt k t).preorder.Perm (t.preorder ++ f.preorder) := by
  induction f with
  | nil => simp [keys, preorder] at hk
  | cons a cs rest ihc ih =>
    rw [keys_cons, List.nodup_cons, List.nodup_append] at hn
    obtain ⟨-, hcs, hrest, hdisj⟩ := hn
    rw [keys_cons, List.mem_cons, List.mem_append] at hk
    rw [adopt]
    split
    · simp only [preorder, plant, preorder_append, preorder_ofTree]
      rw [List.append_assoc]
      exact perm_bring_front a _ t.preorder _
    · next hne =>
      simp only [preorder]
      rcases hk.resolve_left (Ne.symm hne) with hk | hk
      · have hout : k ∉ rest.keys := fun h => hdisj k hk k h rfl
        have hperm := ((ihc hcs hk).append_right rest.preorder).cons a
        rw [List.append_assoc] at hperm
        rw [adopt_of_not_mem hout]
        exact hperm.trans List.perm_middle.symm
      · have hout : k ∉ cs.keys := fun h => hdisj k h k hk rfl
        rw [adopt_of_not_mem hout]
        exact (((ih hrest hk).append_left cs.preorder).cons a).trans (perm_bring_front a _ _ _)

/-- Changed groups are taken out as they would have been before. -/
theorem detach?_map {h : Group → Group} (hh : ∀ a, (h a).key = a.key) (f : Forest) (k : GroupKey) :
    (f.map h).detach? k =
      (f.detach? k).map fun p => (⟨h p.1.root, p.1.children.map h⟩, p.2.map h) := by
  induction f with
  | nil => rfl
  | cons a cs rest ihc ih =>
    simp only [map, detach?, hh, ihc, ih]
    split
    · rfl
    · cases detach? k cs <;> cases detach? k rest <;> rfl

theorem mem_keys_iff_ancestors? (f : Forest) (k : GroupKey) :
    k ∈ f.keys ↔ (f.ancestors? k).isSome = true := by
  induction f with
  | nil => simp [keys, preorder, ancestors?]
  | cons a cs rest ihc ih =>
    rw [keys_cons, List.mem_cons, List.mem_append, ihc, ih, ancestors?]
    split
    · next h => simp [h]
    · next h => simp [Ne.symm h, Option.isSome_or]

/-- The way upward stays in the forest. -/
theorem mem_of_ancestors? {as : List Group} (h : f.ancestors? k = some as) : as ⊆ f.preorder := by
  induction f generalizing as with
  | nil => cases h
  | cons a cs rest ihc ih =>
    simp only [ancestors?] at h
    split at h
    · cases h
      exact List.nil_subset _
    · rcases Option.or_eq_some_iff.1 h with h | ⟨-, h⟩
      · obtain ⟨bs, hbs, rfl⟩ := Option.map_eq_some_iff.1 h
        exact List.cons_subset_cons a fun b hb => List.mem_append_left _ (ihc hbs hb)
      · exact fun b hb => List.mem_cons_of_mem a (List.mem_append_right _ (ih h hb))

theorem keys_of_tree? (h : f.tree? k = some t) : t.root.key = k ∧ t.children.keys ⊆ f.keys := by
  refine ⟨key_of_tree? h, ?_⟩
  obtain ⟨f', hd⟩ := detach?_of_tree? h
  intro j hj
  have hperm := (preorder_detach? hd).map (·.key)
  refine hperm.mem_iff.2 ?_
  rw [List.map_append, List.mem_append]
  exact .inl (List.mem_cons_of_mem _ hj)

/-- What stands in a tree below its root descends from the root. -/
theorem descends_of_tree? (hn : f.keys.Nodup) (ht : f.tree? k = some t) {j : GroupKey}
    (hj : j ∈ t.children.keys) : f.descends j k = true := by
  induction f with
  | nil => simp [tree?] at ht
  | cons a cs rest ihc ih =>
    rw [keys_cons, List.nodup_cons, List.nodup_append] at hn
    obtain ⟨ha, hcs, hrest, hdisj⟩ := hn
    simp only [tree?] at ht
    split at ht
    · next hak =>
      subst hak
      cases ht
      have hne : a.key ≠ j := fun e => ha (List.mem_append_left _ (e ▸ hj))
      obtain ⟨as, has⟩ := Option.isSome_iff_exists.1 ((mem_keys_iff_ancestors? _ _).1 hj)
      simp [descends, ancestors?, hne, has]
    · rcases Option.or_eq_some_iff.1 ht with ht | ⟨-, ht⟩
      · have hmem := (keys_of_tree? ht).2 hj
        have hne : a.key ≠ j := fun e => ha (List.mem_append_left _ (e ▸ hmem))
        have hbelow := ihc hcs ht
        obtain ⟨as, has⟩ := Option.isSome_iff_exists.1 ((mem_keys_iff_ancestors? _ _).1 hmem)
        simp only [descends, has, Option.getD_some] at hbelow
        simp [descends, ancestors?, hne, has, hbelow]
      · have hmem := (keys_of_tree? ht).2 hj
        have hne : a.key ≠ j := fun e => ha (List.mem_append_right _ (e ▸ hmem))
        have hout : cs.ancestors? j = none := by
          rw [← Option.not_isSome_iff_eq_none, ← mem_keys_iff_ancestors?]
          exact fun h => hdisj j h j hmem rfl
        have hbelow := ih hrest ht
        simpa [descends, ancestors?, hne, hout] using hbelow

/-- A tree moves below a group that is not one of its own, and no group is lost. -/
theorem preorder_adopt_detach? (hn : f.keys.Nodup) (h : f.detach? k = some (t, f'))
    {j : GroupKey} (hj : j ∈ f.keys) (hne : j ≠ k) (hd : f.descends j k = false) :
    (f'.adopt j t).preorder.Perm f.preorder := by
  have ht := tree?_of_detach? h
  have hperm := preorder_detach? h
  have hkeys : f.keys.Perm (t.root.key :: (t.children.keys ++ f'.keys)) := by
    simpa [keys, Tree.preorder] using hperm.map (·.key)
  have hj' : j ∈ f'.keys := by
    have hj := hkeys.mem_iff.1 hj
    rw [List.mem_cons, List.mem_append, key_of_tree? ht] at hj
    rcases hj with hj | hj | hj
    · exact absurd hj hne
    · rw [descends_of_tree? hn ht hj] at hd
      cases hd
    · exact hj
  have hn' : f'.keys.Nodup := by
    have hn := hkeys.nodup_iff.1 hn
    exact (List.nodup_append.1 (List.nodup_cons.1 hn).2).2.1
  exact (preorder_adopt hn' hj' t).trans hperm.symm

@[simp] theorem preorder_plant (f : Forest) (t : Tree) :
    (f.plant t).preorder = f.preorder ++ t.preorder := by
  simp [plant, Tree.preorder]

end Forest
end Patchbay
