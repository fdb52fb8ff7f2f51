import Mathlib.Data.List.TakeWhile
import Patchbay.Proofs.Dict
import Patchbay.Registry
/-!
# What a registry knows

Types are registered and taken away again in any order. Of all that was done the last that touched
a name counts: if it registered a type there, then that type stands under the name, in the category
and of the kind that it was registered with, and otherwise nothing stands there. The listings and
the look-ups of a registry tell what stands, each in its way.

## Main definitions

* `Registry.Change`: what can be done to a registry.
* `Registry.Standing`: the type that was registered last under a name.
* `Registry.Means`: the type that a query stands for.
* `Registry.Tells`: listings and look-ups that tell what stands.

## Main statements

* `Registry.get?_apply_eq_some_iff`: what one change does to the type under a name.
* `Registry.get?_after_eq_some_iff`: what is under a name after some changes.
* `Registry.find?_after_eq_some_iff`: what a query finds after some changes.
* `Registry.tells_after`: listings and look-ups after some changes.
-/
namespace Patchbay.Registry

/-! ### Changes -/

/-- What can be done to a registry. -/
inductive Change where
  | register (d : Option Definition)
  | registerFactory (name category : String) (factory : Option Factory)
  | unregister (name : String)
  | clear

/-- The registry after a change. -/
def Change.apply (r : Registry) : Change → Registry
  | register d => r.register d
  | registerFactory name category factory => r.registerFactory name category factory
  | unregister name => r.unregister name
  | clear => r.clear

/-- The registry that some changes lead to from an empty one. -/
def after (cs : List Change) : Registry := cs.foldl Change.apply {}

/-- A change that registers a type under a name. Nothing is registered for a definition or a factory
that is not there. -/
inductive Change.Registers : Change → String → Registration → Prop where
  | definition (d : Definition) :
      Registers (register (some d)) d.name ⟨d.category, .definition d⟩
  | factory (name category : String) (f : Factory) :
      Registers (registerFactory name category (some f)) name ⟨category, .factory f⟩

/-- A change that has an effect on a name: a type is registered there, or what is there goes. -/
inductive Change.Touches (name : String) : Change → Prop where
  | registers {c : Change} {e : Registration} (h : c.Registers name e) : Touches name c
  | unregister : Touches name (unregister name)
  | clear : Touches name clear

section Change
variable {c : Change} {name j : String} {e f : Registration}

theorem Change.Registers.apply_eq (h : c.Registers j f) (r : Registry) :
    c.apply r = ⟨r.entries.insert j f⟩ := by
  cases h <;> rfl

/-- A change registers one type at most. -/
theorem Change.Registers.unique (h : c.Registers j f) (h' : c.Registers name e) :
    name = j ∧ e = f := by
  cases h <;> cases h' <;> exact ⟨rfl, rfl⟩

theorem Change.Registers.touches_iff (h : c.Registers j f) : c.Touches name ↔ name = j := by
  constructor
  · rintro (h' | _ | _)
    · exact (h.unique h').1
    · cases h
    · cases h
  · rintro rfl
    exact .registers h

/-- A change that registers nothing takes away what it touches. -/
theorem Change.get?_apply_of_not_registers (h : ∀ j f, ¬ c.Registers j f) (r : Registry) :
    (c.apply r).entries.get? name = some e ↔ ¬ c.Touches name ∧ r.entries.get? name = some e := by
  cases c with
  | register d =>
    cases d with
    | some d => exact absurd (.definition d) (h _ _)
    | none => exact (and_iff_right (by rintro ⟨⟨⟩⟩)).symm
  | registerFactory j category factory =>
    cases factory with
    | some f => exact absurd (.factory j category f) (h _ _)
    | none => exact (and_iff_right (by rintro ⟨⟨⟩⟩)).symm
  | unregister j =>
    have htouches : (unregister j).Touches name ↔ name = j := by
      constructor
      · rintro (⟨⟨⟩⟩ | _)
        rfl
      · rintro rfl
        exact .unregister
    rw [htouches, apply, Registry.unregister, Dict.get?_erase]
    by_cases hj : name = j
    · simp [hj]
    · simp [hj]
  | clear => exact iff_of_false nofun fun h => h.1 .clear

/-- Under a name there is what a change registers there, or what was there before if the change does
not touch the name. -/
theorem get?_apply_eq_some_iff (r : Registry) (c : Change) (name : String) (e : Registration) :
    (c.apply r).entries.get? name = some e ↔
      c.Registers name e ∨ ¬ c.Touches name ∧ r.entries.get? name = some e := by
  by_cases hc : ∃ j f, c.Registers j f
  · obtain ⟨j, f, hc⟩ := hc
    rw [hc.apply_eq, Dict.get?_insert, hc.touches_iff]
    by_cases hj : name = j
    · subst hj
      simp only [if_true, Option.some.injEq, not_true_eq_false, false_and, or_false]
      refine ⟨?_, fun h => (hc.unique h).2.symm⟩
      rintro rfl
      exact hc
    · have hnot : ¬ c.Registers name e := fun h => hj (hc.unique h).1
      simp only [if_neg hj, hnot, false_or]
      exact (and_iff_right hj).symm
  · have hnone : ∀ j f, ¬ c.Registers j f := fun j f h => hc ⟨j, f, h⟩
    rw [Change.get?_apply_of_not_registers hnone, or_iff_right (hnone name e)]

end Change

/-! ### What stands -/

/-- A change registered the type under the name, and no later one touched the name. -/
def Standing (cs : List Change) (name : String) (e : Registration) : Prop :=
  ∃ before c after, cs = before ++ c :: after ∧ c.Registers name e ∧ ∀ d ∈ after, ¬ d.Touches name

section Standing
variable {cs : List Change} {c : Change} {name q : String} {e : Registration}

theorem not_standing_nil : ¬ Standing [] name e := by
  rintro ⟨before, c, after, h, -⟩
  cases before <;> cases h

/-- One more change registers the type, or leaves what stands alone. -/
theorem standing_concat_iff : Standing (cs ++ [c]) name e ↔
    c.Registers name e ∨ ¬ c.Touches name ∧ Standing cs name e := by
  constructor
  · rintro ⟨before, d, after, h, hd, hafter⟩
    rcases List.eq_nil_or_concat' after with rfl | ⟨after, d', rfl⟩
    · obtain ⟨-, ⟨⟩⟩ := List.append_inj' h rfl
      exact .inl hd
    · rw [← List.cons_append, ← List.append_assoc] at h
      obtain ⟨rfl, ⟨⟩⟩ := List.append_inj' h rfl
      exact .inr ⟨hafter c (by simp), before, d, after, rfl, hd, fun d' hd' =>
        hafter d' (List.mem_append_left _ hd')⟩
  · rintro (hc | ⟨hc, before, d, after, rfl, hd, hafter⟩)
    · exact ⟨cs, c, [], rfl, hc, nofun⟩
    · refine ⟨before, d, after ++ [c], by simp, hd, fun d' hd' => ?_⟩
      rcases List.mem_append.1 hd' with hd' | hd'
      · exact hafter d' hd'
      · rwa [List.mem_singleton.1 hd']

/-- After some changes there is under a name what stands there. -/
theorem get?_after_eq_some_iff : (after cs).entries.get? name = some e ↔ Standing cs name e := by
  -- From the end, for the last change is the one that counts.
  induction cs using List.reverseRecOn with
  | nil => exact iff_of_false nofun not_standing_nil
  | append_singleton cs c ih =>
    have hlast : after (cs ++ [c]) = c.apply (after cs) := List.foldl_concat _ _ _ _
    rw [hlast, get?_apply_eq_some_iff, ih, standing_concat_iff]

theorem get?_after_eq_none_iff : (after cs).entries.get? name = none ↔ ∀ e, ¬ Standing cs name e := by
  rw [Option.eq_none_iff_forall_ne_some]
  exact forall_congr' fun e => not_congr get?_after_eq_some_iff

/-! ### Queries -/

/-- A query stands for the type under that name. If there is none, and there is a slash in the
query, it stands for the type under what follows the first slash. -/
inductive Means (cs : List Change) : String → Registration → Prop where
  | itself {q : String} {e : Registration} (h : Standing cs q e) : Means cs q e
  | behind {category name : String} {e : Registration}
    (hnone : ∀ e, ¬ Standing cs (category ++ "/" ++ name) e) (hfirst : '/' ∉ category.toList)
    (h : Standing cs name e) : Means cs (category ++ "/" ++ name) e

/-- What follows the first slash of a text. -/
theorem afterSlash?_eq_some_iff : afterSlash? q = some name ↔
    ∃ category : String, '/' ∉ category.toList ∧ q = category ++ "/" ++ name := by
  rw [afterSlash?]
  constructor
  · intro h
    split at h
    · next c rest hrest =>
      obtain rfl := Option.some.inj h
      have hq : q.toList.takeWhile (· ≠ '/') ++ c :: rest = q.toList := by
        rw [← hrest, List.takeWhile_append_dropWhile]
      have hc : c = '/' := by
        have hhead := List.head?_dropWhile_not (fun c => decide (c ≠ '/')) q.toList
        rw [hrest] at hhead
        simpa using hhead
      refine ⟨String.ofList (q.toList.takeWhile (· ≠ '/')), fun hmem => ?_, ?_⟩
      · rw [String.toList_ofList] at hmem
        simpa using List.mem_takeWhile_imp hmem
      · refine String.toList_inj.1 (hq.symm.trans ?_)
        simp [hc]
    · cases h
  · rintro ⟨category, hfirst, rfl⟩
    have hskip : ∀ c ∈ category.toList, decide (c ≠ '/') = true := by
      intro c hc
      rw [decide_eq_true_iff]
      rintro rfl
      exact hfirst hc
    have hrest : (category ++ "/" ++ name).toList.dropWhile (· ≠ '/') = '/' :: name.toList := by
      rw [String.toList_append, String.toList_append, List.append_assoc,
        List.dropWhile_append_of_pos hskip]
      rfl
    rw [hrest]
    simp

/-- After some changes a query finds what it stands for. -/
theorem find?_after_eq_some_iff : (after cs).find? q = some e ↔ Means cs q e := by
  rw [find?, Option.or_eq_some_iff, get?_after_eq_some_iff, get?_after_eq_none_iff,
    Option.bind_eq_some_iff]
  constructor
  · rintro (h | ⟨hnone, name, hname, h⟩)
    · exact .itself h
    · obtain ⟨category, hfirst, rfl⟩ := afterSlash?_eq_some_iff.1 hname
      exact .behind hnone hfirst (get?_after_eq_some_iff.1 h)
  · rintro (h | ⟨hnone, hfirst, h⟩)
    · exact .inl h
    · exact .inr ⟨hnone, _, afterSlash?_eq_some_iff.2 ⟨_, hfirst, rfl⟩,
        get?_after_eq_some_iff.2 h⟩

end Standing

/-! ### Listings -/

section Listings
variable {r : Registry} {name category : String}

theorem mem_names : name ∈ r.names ↔ ∃ e, r.entries.get? name = some e := by
  rw [names, Dict.mem_keys, Dict.has, Option.isSome_iff_exists]

theorem mem_namesIn : name ∈ r.namesIn category ↔
    ∃ e, r.entries.get? name = some e ∧ e.category = category := by
  simp only [namesIn, List.mem_map, List.mem_filter, decide_eq_true_eq, Dict.get?_eq_some_iff]
  constructor
  · rintro ⟨⟨j, e⟩, ⟨he, hcategory⟩, rfl⟩
    exact ⟨e, he, hcategory⟩
  · rintro ⟨e, he, hcategory⟩
    exact ⟨(name, e), ⟨he, hcategory⟩, rfl⟩

theorem mem_categories : category ∈ r.categories ↔ ∃ name, name ∈ r.namesIn category := by
  simp only [categories, Dict.mem_keys_ofList, List.map_map, List.mem_map, mem_namesIn,
    Dict.get?_eq_some_iff]
  constructor
  · rintro ⟨⟨name, e⟩, he, rfl⟩
    exact ⟨name, e, he, rfl⟩
  · rintro ⟨name, e, he, rfl⟩
    exact ⟨(name, e), he, rfl⟩

theorem ascending_categories (r : Registry) : r.categories.Pairwise (· < ·) :=
  Dict.ascending_keys _

/-- Categories have no names in common. -/
theorem disjoint_namesIn (r : Registry) :
    r.categories.Pairwise fun c c' => (r.namesIn c).Disjoint (r.namesIn c') := by
  refine r.ascending_categories.imp fun {c c'} hlt name h h' => ?_
  obtain ⟨e, he, rfl⟩ := mem_namesIn.1 h
  obtain ⟨e', he', rfl⟩ := mem_namesIn.1 h'
  obtain rfl := Option.some.inj (he.symm.trans he')
  exact String.lt_irrefl _ hlt

/-- The names by category are all names, each of them once. -/
theorem perm_names (r : Registry) : (r.categories.flatMap r.namesIn).Perm r.names := by
  have hnodup : (r.categories.flatMap r.namesIn).Nodup :=
    List.nodup_flatMap.2 ⟨fun _ _ => r.entries.nodup_keys.sublist (List.filter_sublist.map _),
      r.disjoint_namesIn⟩
  refine (List.perm_ext_iff_of_nodup hnodup r.entries.nodup_keys).2 fun name => ?_
  change _ ↔ name ∈ r.names
  rw [List.mem_flatMap, mem_names]
  constructor
  · rintro ⟨c, -, h⟩
    obtain ⟨e, he, -⟩ := mem_namesIn.1 h
    exact ⟨e, he⟩
  · rintro ⟨e, he⟩
    have hname : name ∈ r.namesIn e.category := mem_namesIn.2 ⟨e, he, rfl⟩
    exact ⟨e.category, mem_categories.2 ⟨name, hname⟩, hname⟩

end Listings

/-! ### Registries after changes -/

/-- The listings of a registry are in order and the look-ups find what was registered last. -/
structure Tells (r : Registry) (cs : List Change) : Prop where
  names_ascending : r.names.Pairwise (· < ·)
  names_length : r.names.length = r.size
  categories_ascending : r.categories.Pairwise (· < ·)
  /-- No name is in two categories. -/
  disjoint : r.categories.Pairwise fun c c' => (r.namesIn c).Disjoint (r.namesIn c')
  /-- No category is without names. -/
  inhabited : ∀ c ∈ r.categories, r.namesIn c ≠ []
  /-- The names by category are all names. -/
  together : (r.categories.flatMap r.namesIn).Perm r.names
  named : ∀ name, name ∈ r.names ↔ ∃ e, Standing cs name e
  /-- The last registration of a name settles its category. -/
  filed : ∀ name c, name ∈ r.namesIn c ↔ ∃ e, Standing cs name e ∧ e.category = c
  has : ∀ q, r.has q = true ↔ ∃ e, Means cs q e
  /-- A definition is shown, and makes the nodes. -/
  definition : ∀ {q category d}, Means cs q ⟨category, .definition d⟩ →
    r.definition? q = some d ∧ ∀ ids, r.create q ids = some (d.make ids)
  /-- A factory shows no definition. It makes the nodes, or refuses to. -/
  factory : ∀ {q category f}, Means cs q ⟨category, .factory f⟩ →
    r.definition? q = none ∧ ∀ ids, r.create q ids = f.make ids
  unknown : ∀ {q}, (∀ e, ¬ Means cs q e) → r.definition? q = none ∧ ∀ ids, r.create q ids = none

/-- Whatever was done to a registry, its listings and its look-ups agree on what was registered last
under each name. -/
theorem tells_after (cs : List Change) : (after cs).Tells cs where
  names_ascending := ascending_names _
  names_length := length_names _
  categories_ascending := ascending_categories _
  disjoint := disjoint_namesIn _
  inhabited c hc := by
    obtain ⟨name, hname⟩ := mem_categories.1 hc
    exact List.ne_nil_of_mem hname
  together := perm_names _
  named name := by simp only [mem_names, get?_after_eq_some_iff]
  filed name c := by simp only [mem_namesIn, get?_after_eq_some_iff]
  has q := by simp only [Registry.has, Option.isSome_iff_exists, find?_after_eq_some_iff]
  definition h := by
    have hfound := find?_after_eq_some_iff.2 h
    exact ⟨by rw [definition?, hfound, Option.bind_some], fun ids => by
      rw [create, hfound, Option.bind_some]⟩
  factory h := by
    have hfound := find?_after_eq_some_iff.2 h
    exact ⟨by rw [definition?, hfound, Option.bind_some], fun ids => by
      rw [create, hfound, Option.bind_some]⟩
  unknown {q} h := by
    have hnone : (after cs).find? q = none :=
      Option.eq_none_iff_forall_ne_some.2 fun e he => h e (find?_after_eq_some_iff.1 he)
    exact ⟨by rw [definition?, hnone, Option.bind_none], fun ids => by
      rw [create, hnone, Option.bind_none]⟩

end Patchbay.Registry
