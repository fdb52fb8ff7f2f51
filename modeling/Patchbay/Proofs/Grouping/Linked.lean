import Mathlib.Data.List.Nodup
import Mathlib.Logic.Function.Basic
import Mathlib.Logic.Relation
import Patchbay.Graph.Pin
/-!
# Groups that know their parents

In memory a group holds a link to its parent and the list of its children, and the graph lists the
roots. Whoever wants to know what lies above a group goes from parent to parent, and whoever moves a
group changes links and lists in place.

Each walk is a relation between where it begins and what it comes to. Nothing is assumed of its end:
where links lead round in a circle a walk comes to nothing. What is done to groups is told in the
same way, since it begins with walks.

## Main definitions

* `Hierarchy`: groups as they are linked.
* `Hierarchy.Climbs`, `Hierarchy.Tops`: going from parent to parent.
* `Hierarchy.Collects`: listing groups with what lies below them.
* `Hierarchy.Adds`, `Hierarchy.Reparents`, `Hierarchy.Removes`: what is done to groups.
* `Hierarchy.Agrees`: parents and children tell the same.

## Main statements

* `Hierarchy.climbs_iff_transGen`, `Hierarchy.owned_iff`: where the walks upward end.
* `Hierarchy.Agrees.eq`: links that agree are told by the lists of children alone.
* `Hierarchy.Reparents.unique`: what is done to a group has one outcome.
-/
namespace Patchbay

/-- Groups as they are linked: each knows its parent, and its children in their order. The graph
lists its roots. -/
@[ext] structure Hierarchy where
  parent : GroupKey → Option GroupKey
  children : GroupKey → List GroupKey
  roots : List GroupKey

namespace Hierarchy

/-! ### Walks -/

/-- Going from parent to parent in search of a group: it is found, or the way ends. -/
inductive Climbs (l : Hierarchy) (above : GroupKey) : GroupKey → Bool → Prop where
  | top {k : GroupKey} (h : l.parent k = none) : Climbs l above k false
  | found {k : GroupKey} (h : l.parent k = some above) : Climbs l above k true
  | on {k p : GroupKey} {found : Bool} (h : l.parent k = some p) (hne : p ≠ above)
    (hrest : Climbs l above p found) : Climbs l above k found

/-- Going from parent to parent as long as there is one. -/
inductive Tops (l : Hierarchy) : GroupKey → GroupKey → Prop where
  | top {k : GroupKey} (h : l.parent k = none) : Tops l k k
  | on {k p r : GroupKey} (h : l.parent k = some p) (hrest : Tops l p r) : Tops l k r

/-- Does the graph list the topmost group above a group? -/
def Owned (l : Hierarchy) (k : GroupKey) (owned : Bool) : Prop :=
  ∃ r, l.Tops k r ∧ decide (r ∈ l.roots) = owned

/-- Listing groups, each with what lies below it behind it. -/
inductive Collects (l : Hierarchy) : List GroupKey → List GroupKey → Prop where
  | nil : Collects l [] []
  | cons {k : GroupKey} {ks below rest : List GroupKey} (hbelow : Collects l (l.children k) below)
    (hrest : Collects l ks rest) : Collects l (k :: ks) (k :: (below ++ rest))

/-! ### Changes of links -/

/-- Put a group at the end of the children of another one. -/
def link (l : Hierarchy) (p c : GroupKey) : Hierarchy :=
  { l with
    parent := Function.update l.parent c (some p)
    children := Function.update l.children p (l.children p ++ [c]) }

/-- Take a group from its parent. -/
def unlink (l : Hierarchy) (p c : GroupKey) : Hierarchy :=
  { l with
    parent := Function.update l.parent c none
    children := Function.update l.children p ((l.children p).erase c) }

/-- Put a group at the end of the roots. -/
def addRoot (l : Hierarchy) (c : GroupKey) : Hierarchy := { l with roots := l.roots ++ [c] }

/-- Take a group out of the list in which it stands. -/
def take (l : Hierarchy) (c : GroupKey) : Hierarchy :=
  match l.parent c with
  | some p => l.unlink p c
  | none => { l with roots := l.roots.erase c }

/-- Destroy groups. -/
def forget (l : Hierarchy) (ks : List GroupKey) : Hierarchy :=
  { l with
    parent := fun k => if k ∈ ks then none else l.parent k
    children := fun k => if k ∈ ks then [] else l.children k }

/-- A group that is linked is the last child of its parent. -/
theorem children_link (l : Hierarchy) (p c q : GroupKey) :
    (l.link p c).children q = l.children q ++ if q = p then [c] else [] := by
  by_cases hq : q = p
  · subst hq
    simp [Hierarchy.link]
  · simp [Hierarchy.link, hq]

theorem children_unlink (l : Hierarchy) (p c q : GroupKey) :
    (l.unlink p c).children q = if q = p then (l.children p).erase c else l.children q :=
  Function.update_apply _ _ _ _

theorem parent_take (l : Hierarchy) (c k : GroupKey) :
    (l.take c).parent k = if k = c then none else l.parent k := by
  rw [take]
  split
  · exact Function.update_apply _ _ _ _
  · next hc =>
    split
    · next hk => rw [hk, hc]
    · rfl

/-! ### What is done to groups -/

/-- Hand a group over to another one, which takes it in as its last child. If it is that group
itself, or lies above it, it is destroyed. -/
inductive Adds (l : Hierarchy) (p c : GroupKey) : Bool × Hierarchy → Prop where
  | itself {ks : List GroupKey} (h : c = p) (hks : l.Collects [c] ks) :
    Adds l p c (false, l.forget ks)
  | above {ks : List GroupKey} (hne : c ≠ p) (h : l.Climbs c p true) (hks : l.Collects [c] ks) :
    Adds l p c (false, l.forget ks)
  | added (hne : c ≠ p) (h : l.Climbs c p false) : Adds l p c (true, l.link p c)

/-- Let go of a child. -/
def release (l : Hierarchy) (p c : GroupKey) : Bool × Hierarchy :=
  if c ∈ l.children p then (true, l.unlink p c) else (false, l)

/-- May a group get another parent, or become a root? -/
inductive Admits (l : Hierarchy) (a : GroupKey) : Option GroupKey → Bool → Prop where
  | foreign {parent : Option GroupKey} (h : l.Owned a false) : Admits l a parent false
  | root (h : l.Owned a true) : Admits l a none true
  | foreignParent {p : GroupKey} (h : l.Owned a true) (hp : l.Owned p false) :
    Admits l a (some p) false
  | itself (h : l.Owned a true) : Admits l a (some a) false
  | asked {p : GroupKey} {below : Bool} (h : l.Owned a true) (hp : l.Owned p true) (hne : p ≠ a)
    (hbelow : l.Climbs a p below) : Admits l a (some p) (!below)

/-- Give a group another parent, or make it a root. -/
inductive Reparents (l : Hierarchy) (a : GroupKey) :
    Option GroupKey → Bool × Hierarchy → Prop where
  | refused {parent : Option GroupKey} (h : l.Admits a parent false) :
    Reparents l a parent (false, l)
  | stays {parent : Option GroupKey} (h : l.Admits a parent true) (hstay : l.parent a = parent) :
    Reparents l a parent (true, l)
  | raised (h : l.Admits a none true) (hmove : l.parent a ≠ none) :
    Reparents l a none (true, (l.take a).addRoot a)
  | moved {p : GroupKey} {added : Bool} {l' : Hierarchy} (h : l.Admits a (some p) true)
    (hmove : l.parent a ≠ some p) (hadds : (l.take a).Adds p a (added, l')) :
    Reparents l a (some p) (true, l')

/-- Destroy a group with all that lies below it. -/
inductive Removes (l : Hierarchy) (a : GroupKey) : Bool × Hierarchy → Prop where
  | foreign (h : l.Owned a false) : Removes l a (false, l)
  | removed {ks : List GroupKey} (h : l.Owned a true) (hks : (l.take a).Collects [a] ks) :
    Removes l a (true, (l.take a).forget ks)

/-! ### Links that agree -/

/-- A group is the parent of those that it lists as its children, and lists each of them once. -/
structure Agrees (l : Hierarchy) : Prop where
  parent_iff : ∀ k p, l.parent k = some p ↔ k ∈ l.children p
  nodup : ∀ p, (l.children p).Nodup

namespace Agrees
variable {l l' : Hierarchy} {p c : GroupKey}

/-- The lists of children tell all that the links to the parents tell. -/
theorem eq (h : l.Agrees) (h' : l'.Agrees) (hchildren : ∀ q, l.children q = l'.children q)
    (hroots : l.roots = l'.roots) : l = l' := by
  refine Hierarchy.ext (funext fun k => Option.ext fun q => ?_) (funext hchildren) hroots
  rw [h.parent_iff, h'.parent_iff, hchildren]

theorem not_mem (h : l.Agrees) (hc : l.parent c = none) (q : GroupKey) : c ∉ l.children q :=
  fun hmem => by
    rw [(h.parent_iff c q).2 hmem] at hc
    cases hc

theorem link (h : l.Agrees) (hc : l.parent c = none) (p : GroupKey) : (l.link p c).Agrees := by
  refine ⟨fun k q => ?_, fun q => ?_⟩
  · rw [children_link, List.mem_append, ← h.parent_iff]
    by_cases hk : k = c
    · subst hk
      by_cases hq : q = p
      · simp [Hierarchy.link, hq]
      · simp [Hierarchy.link, hq, hc, Ne.symm hq]
    · have hparent : (l.link p c).parent k = l.parent k := Function.update_of_ne hk _ _
      rw [hparent]
      split
      · simp [hk]
      · simp
  · rw [children_link]
    split
    · exact (h.nodup q).append (List.nodup_singleton c) (List.disjoint_singleton.2 (h.not_mem hc q))
    · simpa using h.nodup q

/-- A group that is taken out is missing in every list of children. -/
theorem children_take (h : l.Agrees) (c q : GroupKey) :
    (l.take c).children q = (l.children q).filter (· ≠ c) := by
  have hsame (hc : c ∉ l.children q) : l.children q = (l.children q).filter (· ≠ c) := by
    refine (List.filter_eq_self.2 fun k hk => ?_).symm
    exact decide_eq_true (ne_of_mem_of_not_mem hk hc)
  rw [take]
  split
  · next p hp =>
    by_cases hq : q = p
    · subst hq
      rw [children_unlink, if_pos rfl, (h.nodup q).erase_eq_filter]
      exact List.filter_congr fun k _ => by rw [decide_not, bne, beq_eq_decide]
    · have hout : c ∉ l.children q := fun hmem =>
        hq (Option.some.inj (((h.parent_iff c q).2 hmem).symm.trans hp))
      rw [children_unlink, if_neg hq, ← hsame hout]
  · next hc => exact hsame (h.not_mem hc q)

theorem take (h : l.Agrees) (c : GroupKey) : (l.take c).Agrees := by
  refine ⟨fun k q => ?_, fun q => h.children_take c q ▸ (h.nodup q).filter _⟩
  rw [h.children_take, List.mem_filter, decide_eq_true_eq, ← h.parent_iff, parent_take]
  by_cases hk : k = c
  · simp [hk]
  · simp [hk]

/-- Groups that are destroyed together with all their children take their links along. -/
theorem forget (h : l.Agrees) {ks : List GroupKey}
    (hks : ∀ {k p}, l.parent k = some p → (k ∈ ks ↔ p ∈ ks)) : (l.forget ks).Agrees := by
  refine ⟨fun k q => ?_, fun q => ?_⟩
  · simp only [Hierarchy.forget]
    by_cases hq : l.parent k = some q
    · have hmem := (h.parent_iff k q).1 hq
      simp only [hks hq, hq]
      split <;> simp [hmem]
    · have hmem : k ∉ l.children q := fun hmem => hq ((h.parent_iff k q).2 hmem)
      split <;> split <;> simp [hq, hmem]
  · simp only [Hierarchy.forget]
    split
    · exact List.nodup_nil
    · exact h.nodup q

end Agrees

/-! ### Where walks end -/

section Walks
variable {l : Hierarchy} {above k r : GroupKey} {found : Bool}

/-- One group is the parent of another one. -/
def Above (l : Hierarchy) (p k : GroupKey) : Prop := l.parent k = some p

theorem Climbs.found_iff (h : l.Climbs above k found) :
    found = true ↔ Relation.TransGen l.Above above k := by
  induction h with
  | top h =>
    refine iff_of_false Bool.false_ne_true fun hway => ?_
    obtain ⟨p, -, hp⟩ := Relation.TransGen.tail'_iff.1 hway
    cases h.symm.trans hp
  | found h => exact iff_of_true rfl (.single h)
  | on h hne _ ih =>
    rw [ih]
    refine ⟨fun hway => hway.tail h, fun hway => ?_⟩
    obtain ⟨q, hq, hqk⟩ := Relation.TransGen.tail'_iff.1 hway
    obtain rfl := Option.some.inj (h.symm.trans hqk)
    exact (Relation.reflTransGen_iff_eq_or_transGen.1 hq).resolve_left hne

theorem Climbs.unique {found' : Bool} (h : l.Climbs above k found) (h' : l.Climbs above k found') :
    found = found' :=
  Bool.eq_iff_iff.2 (h.found_iff.trans h'.found_iff.symm)

/-- Where no way upward goes on for ever, the search comes to an end. -/
theorem exists_climbs (hwf : WellFounded l.Above) (above k : GroupKey) :
    ∃ found, l.Climbs above k found := by
  induction k using hwf.induction with
  | _ k ih =>
  cases hk : l.parent k with
  | none => exact ⟨false, .top hk⟩
  | some p =>
    by_cases hp : p = above
    · exact ⟨true, .found (hp ▸ hk)⟩
    · obtain ⟨found, h⟩ := ih p hk
      exact ⟨found, .on hk hp h⟩

theorem climbs_iff_transGen (hwf : WellFounded l.Above) : l.Climbs above k found ↔
    (found = true ↔ Relation.TransGen l.Above above k) := by
  refine ⟨Climbs.found_iff, fun h => ?_⟩
  obtain ⟨found', h'⟩ := exists_climbs hwf above k
  obtain rfl : found = found' := Bool.eq_iff_iff.2 (h.trans h'.found_iff.symm)
  exact h'

/-- The topmost group has no parent, and the way upward leads to it. -/
theorem tops_iff : l.Tops k r ↔ l.parent r = none ∧ Relation.ReflTransGen l.Above r k := by
  constructor
  · intro h
    induction h with
    | top h => exact ⟨h, .refl⟩
    | on h _ ih => exact ⟨ih.1, ih.2.tail h⟩
  · rintro ⟨hr, hway⟩
    induction hway with
    | refl => exact .top hr
    | tail _ h ih => exact .on h ih

theorem Tops.unique {r' : GroupKey} (h : l.Tops k r) (h' : l.Tops k r') : r = r' := by
  induction h with
  | top h =>
    cases h' with
    | top _ => rfl
    | on hp _ => cases h.symm.trans hp
  | on h _ ih =>
    cases h' with
    | top hk => cases hk.symm.trans h
    | on hp hrest =>
      obtain rfl := Option.some.inj (h.symm.trans hp)
      exact ih hrest

theorem exists_tops (hwf : WellFounded l.Above) (k : GroupKey) : ∃ r, l.Tops k r := by
  induction k using hwf.induction with
  | _ k ih =>
  cases hk : l.parent k with
  | none => exact ⟨k, .top hk⟩
  | some p =>
    obtain ⟨r, h⟩ := ih p hk
    exact ⟨r, .on hk h⟩

theorem Owned.unique {owned owned' : Bool} (h : l.Owned k owned) (h' : l.Owned k owned') :
    owned = owned' := by
  obtain ⟨r, hr, rfl⟩ := h
  obtain ⟨r', hr', rfl⟩ := h'
  rw [hr.unique hr']

/-- A group is owned if the way upward leads from it to a listed root. -/
theorem owned_iff (hwf : WellFounded l.Above) (hroots : ∀ r ∈ l.roots, l.parent r = none)
    {owned : Bool} : l.Owned k owned ↔
      (owned = true ↔ ∃ r ∈ l.roots, Relation.ReflTransGen l.Above r k) := by
  obtain ⟨r, hr⟩ := exists_tops hwf k
  have hlisted : (∃ r ∈ l.roots, Relation.ReflTransGen l.Above r k) ↔ r ∈ l.roots := by
    refine ⟨fun ⟨r', hr', hway⟩ => ?_, fun h => ⟨r, h, (tops_iff.1 hr).2⟩⟩
    exact hr.unique (tops_iff.2 ⟨hroots r' hr', hway⟩) ▸ hr'
  rw [hlisted]
  constructor
  · rintro ⟨r', hr', rfl⟩
    rw [hr.unique hr', decide_eq_true_iff]
  · exact fun h => ⟨r, hr, Bool.eq_iff_iff.2 (decide_eq_true_iff.trans h.symm)⟩

/-- Groups are listed in one way only. -/
theorem Collects.unique {ks xs ys : List GroupKey} (h : l.Collects ks xs) (h' : l.Collects ks ys) :
    xs = ys := by
  induction h generalizing ys with
  | nil =>
    cases h'
    rfl
  | cons _ _ ihbelow ihrest =>
    cases h' with
    | cons hbelow hrest => rw [ihbelow hbelow, ihrest hrest]

end Walks

/-! ### One outcome -/

section Outcomes
variable {l : Hierarchy} {a c p : GroupKey} {parent : Option GroupKey} {x y : Bool × Hierarchy}

theorem Adds.unique (h : l.Adds p c x) (h' : l.Adds p c y) : x = y := by
  cases h with
  | itself hp hks =>
    cases h' with
    | itself _ hks' => rw [hks.unique hks']
    | above hne _ _ | added hne _ => exact absurd hp hne
  | above hne hp hks =>
    cases h' with
    | itself hp' _ => exact absurd hp' hne
    | above _ _ hks' => rw [hks.unique hks']
    | added _ hp' => cases hp.unique hp'
  | added hne hp =>
    cases h' with
    | itself hp' _ => exact absurd hp' hne
    | above _ hp' _ => cases hp.unique hp'
    | added _ _ => rfl

theorem Admits.unique {admitted admitted' : Bool} (h : l.Admits a parent admitted)
    (h' : l.Admits a parent admitted') : admitted = admitted' := by
  cases h with
  | foreign h =>
    cases h' with
    | foreign _ => rfl
    | root h' | foreignParent h' _ | itself h' | asked h' _ _ _ => cases h.unique h'
  | root h =>
    cases h' with
    | foreign h' => cases h.unique h'
    | root _ => rfl
  | foreignParent h hp =>
    cases h' with
    | foreign h' => cases h.unique h'
    | foreignParent _ _ => rfl
    | itself h' => cases hp.unique h'
    | asked _ hp' _ _ => cases hp.unique hp'
  | itself h =>
    cases h' with
    | foreign h' | foreignParent _ h' => cases h.unique h'
    | itself _ => rfl
    | asked _ _ hne _ => exact absurd rfl hne
  | asked h hp hne hbelow =>
    cases h' with
    | foreign h' => cases h.unique h'
    | foreignParent _ hp' => cases hp.unique hp'
    | itself _ => exact absurd rfl hne
    | asked _ _ _ hbelow' => rw [hbelow.unique hbelow']

theorem Reparents.unique (h : l.Reparents a parent x) (h' : l.Reparents a parent y) : x = y := by
  cases h with
  | refused h =>
    cases h' with
    | refused _ => rfl
    | stays h' _ | raised h' _ | moved h' _ _ => cases h.unique h'
  | stays h hstay =>
    cases h' with
    | refused h' => cases h.unique h'
    | stays _ _ => rfl
    | raised _ hmove | moved _ hmove _ => exact absurd hstay hmove
  | raised h hmove =>
    cases h' with
    | refused h' => cases h.unique h'
    | stays _ hstay => exact absurd hstay hmove
    | raised _ _ => rfl
  | moved h hmove hadds =>
    cases h' with
    | refused h' => cases h.unique h'
    | stays _ hstay => exact absurd hstay hmove
    | moved _ _ hadds' =>
      obtain ⟨-, rfl⟩ := Prod.mk.inj (hadds.unique hadds')
      rfl

theorem Removes.unique (h : l.Removes a x) (h' : l.Removes a y) : x = y := by
  cases h with
  | foreign h =>
    cases h' with
    | foreign _ => rfl
    | removed h' _ => cases h.unique h'
  | removed h hks =>
    cases h' with
    | foreign h' => cases h.unique h'
    | removed _ hks' => rw [hks.unique hks']

end Outcomes
end Hierarchy
end Patchbay
