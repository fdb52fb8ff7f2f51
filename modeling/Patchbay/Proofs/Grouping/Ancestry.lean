import Mathlib.Logic.Relation
import Mathlib.Order.WellFounded
import Patchbay.Proofs.Grouping.Groups
/-!
# Ancestry

A group is owned by the list in which it stands: the roots of the forest, or the children of another
group. The parent of a group is found by a search for its key. As no two groups have one key, the
group that is found is the owner, and whoever follows the parents upward comes to a root.

## Main definitions

* `Forest.Owns`: a group stands among the roots, or among the children of another group.
* `Graph.Above`: one group is the parent of another one.
* `Graph.Nested`: the groups of the graph form a forest.

## Main statements

* `Forest.parent?_eq_iff`: the parent of a group is its owner.
* `Graph.Nested.of_keys_nodup`: groups with different keys form a forest.
-/
namespace Patchbay
namespace Forest

variable {f f' : Forest} {a b c p : Group} {cs rest : Forest} {k : GroupKey}

/-- Every group that stands among the children of another one, together with that one. -/
def edges : Forest → List (Group × Group)
  | nil => []
  | cons a cs rest => cs.roots.map (a, ·) ++ (cs.edges ++ rest.edges)

/-- A group stands among the roots, or among the children of another group. -/
def Owns (f : Forest) (o : Option Group) (c : Group) : Prop :=
  match o with
  | none => c ∈ f.roots
  | some p => (p, c) ∈ f.edges

theorem roots_subset (f : Forest) : f.roots ⊆ f.preorder := by
  induction f with
  | nil => exact List.Subset.refl _
  | cons a cs rest _ ih =>
    exact List.cons_subset_cons a fun b hb => List.mem_append_right _ (ih hb)

/-- Parents are listed before their children. -/
theorem sublist_of_mem_edges (h : (p, c) ∈ f.edges) : [p, c].Sublist f.preorder := by
  induction f with
  | nil => cases h
  | cons a cs rest ihc ih =>
    rcases List.mem_append.1 h with h | h
    · obtain ⟨b, hb, heq⟩ := List.mem_map.1 h
      cases heq
      have hchild : c ∈ cs.preorder := roots_subset cs hb
      exact (List.singleton_sublist.2 (List.mem_append_left _ hchild)).cons_cons _
    · rcases List.mem_append.1 h with h | h
      · exact ((ihc h).trans (List.sublist_append_left _ _)).cons a
      · exact ((ih h).trans (List.sublist_append_right _ _)).cons a

theorem mem_of_mem_edges (h : (p, c) ∈ f.edges) : p ∈ f.preorder ∧ c ∈ f.preorder := by
  have hsub := (sublist_of_mem_edges h).subset
  exact ⟨hsub List.mem_cons_self, hsub (List.mem_cons_of_mem p List.mem_cons_self)⟩

/-- Every group of a forest has an owner. -/
theorem exists_owns (hc : c ∈ f.preorder) : ∃ o, f.Owns o c := by
  induction f with
  | nil => cases hc
  | cons a cs rest ihc ih =>
    rcases List.mem_cons.1 hc with rfl | hc
    · exact ⟨none, List.mem_cons_self⟩
    · rcases List.mem_append.1 hc with hc | hc
      · obtain ⟨o, ho⟩ := ihc hc
        cases o with
        | none => exact ⟨some a, List.mem_append_left _ (List.mem_map_of_mem ho)⟩
        | some p =>
          exact ⟨some p, List.mem_append_right _ (List.mem_append_left _ ho)⟩
      · obtain ⟨o, ho⟩ := ih hc
        cases o with
        | none => exact ⟨none, List.mem_cons_of_mem a ho⟩
        | some p =>
          exact ⟨some p, List.mem_append_right _ (List.mem_append_right _ ho)⟩

/-! ### Ancestors -/

theorem mem_keys (hb : b ∈ f.preorder) : b.key ∈ f.keys := List.mem_map_of_mem hb

theorem ancestors?_eq_none (hk : k ∉ f.keys) : f.ancestors? k = none := by
  rwa [← Option.not_isSome_iff_eq_none, ← mem_keys_iff_ancestors?]

theorem ancestors?_of_mem_children (hn : (cons a cs rest).keys.Nodup) (hk : k ∈ cs.keys) :
    (cons a cs rest).ancestors? k = (cs.ancestors? k).map (a :: ·) := by
  rw [keys_cons, List.nodup_cons] at hn
  have hne : a.key ≠ k := fun e => hn.1 (e ▸ List.mem_append_left _ hk)
  obtain ⟨as, has⟩ := Option.isSome_iff_exists.1 ((mem_keys_iff_ancestors? cs k).1 hk)
  simp [ancestors?, hne, has]

theorem ancestors?_of_mem_rest (hn : (cons a cs rest).keys.Nodup) (hk : k ∈ rest.keys) :
    (cons a cs rest).ancestors? k = rest.ancestors? k := by
  rw [keys_cons, List.nodup_cons, List.nodup_append] at hn
  have hne : a.key ≠ k := fun e => hn.1 (e ▸ List.mem_append_right _ hk)
  have hout : cs.ancestors? k = none := ancestors?_eq_none fun h => hn.2.2.2 k h k hk rfl
  simp [ancestors?, hne, hout]

theorem ancestors?_of_mem_roots (hn : f.keys.Nodup) (hb : b ∈ f.roots) :
    f.ancestors? b.key = some [] := by
  induction f with
  | nil => cases hb
  | cons a cs rest _ ih =>
    rcases List.mem_cons.1 hb with rfl | hb
    · simp [ancestors?]
    · rw [ancestors?_of_mem_rest hn (mem_keys (roots_subset rest hb))]
      rw [keys_cons, List.nodup_cons, List.nodup_append] at hn
      exact ih hn.2.2.1 hb

/-- A child has one ancestor more than its parent: the parent itself. -/
theorem ancestors?_of_mem_edges (hn : f.keys.Nodup) (h : (p, c) ∈ f.edges) :
    ∃ as, f.ancestors? p.key = some as ∧ f.ancestors? c.key = some (as ++ [p]) := by
  induction f with
  | nil => cases h
  | cons a cs rest ihc ih =>
    have hparts := hn
    rw [keys_cons, List.nodup_cons, List.nodup_append] at hparts
    obtain ⟨-, hncs, hnrest, -⟩ := hparts
    rcases List.mem_append.1 h with h | h
    · obtain ⟨b, hb, heq⟩ := List.mem_map.1 h
      cases heq
      refine ⟨[], by simp [ancestors?], ?_⟩
      rw [ancestors?_of_mem_children hn (mem_keys (roots_subset cs hb)),
        ancestors?_of_mem_roots hncs hb]
      rfl
    · rcases List.mem_append.1 h with h | h
      · obtain ⟨hp, hc⟩ := mem_of_mem_edges h
        obtain ⟨as, hpas, hcas⟩ := ihc hncs h
        refine ⟨a :: as, ?_, ?_⟩
        · rw [ancestors?_of_mem_children hn (mem_keys hp), hpas]
          rfl
        · rw [ancestors?_of_mem_children hn (mem_keys hc), hcas]
          rfl
      · obtain ⟨hp, hc⟩ := mem_of_mem_edges h
        rw [ancestors?_of_mem_rest hn (mem_keys hp), ancestors?_of_mem_rest hn (mem_keys hc)]
        exact ih hnrest h

/-! ### Parents -/

theorem parent?_of_owns (hn : f.keys.Nodup) {o : Option Group} (h : f.Owns o c) :
    f.parent? c.key = o := by
  cases o with
  | none => rw [parent?, ancestors?_of_mem_roots hn h]; rfl
  | some p =>
    obtain ⟨as, -, has⟩ := ancestors?_of_mem_edges hn h
    rw [parent?, has, Option.bind_some, List.getLast?_concat]

/-- The parent of a group is its owner, and a group without a parent is a root. -/
theorem parent?_eq_iff (hn : f.keys.Nodup) (hc : c ∈ f.preorder) (o : Option Group) :
    f.parent? c.key = o ↔ f.Owns o c := by
  refine ⟨fun h => ?_, parent?_of_owns hn⟩
  obtain ⟨o', ho'⟩ := exists_owns hc
  rwa [← h, parent?_of_owns hn ho']

/-- One group is the parent of another one. -/
def Above (f : Forest) (k j : GroupKey) : Prop := (f.parent? j).map (·.key) = some k

theorem above_of_mem_edges (hn : f.keys.Nodup) (h : (p, c) ∈ f.edges) : f.Above p.key c.key := by
  rw [Above, parent?_of_owns (o := some p) hn h]
  rfl

theorem exists_edge_of_above (hn : f.keys.Nodup) {j : GroupKey} (h : f.Above k j) :
    ∃ p c, (p, c) ∈ f.edges ∧ p.key = k ∧ c.key = j := by
  obtain ⟨p, hp, hpk⟩ := Option.map_eq_some_iff.1 h
  have hj : j ∈ f.keys := by
    rw [mem_keys_iff_ancestors?]
    obtain ⟨as, has, -⟩ := Option.bind_eq_some_iff.1 hp
    exact Option.isSome_of_mem has
  obtain ⟨c, hc, rfl⟩ := List.mem_map.1 hj
  exact ⟨p, c, (parent?_eq_iff hn hc (some p)).1 hp, hpk, rfl⟩

/-- Whoever goes from group to parent comes to an end. -/
theorem wellFounded_above (hn : f.keys.Nodup) : WellFounded f.Above := by
  refine Subrelation.wf ?_ (measure fun k => ((f.ancestors? k).getD []).length).wf
  intro k j h
  obtain ⟨p, c, hpc, rfl, rfl⟩ := exists_edge_of_above hn h
  obtain ⟨as, hp, hc⟩ := ancestors?_of_mem_edges hn hpc
  change ((f.ancestors? p.key).getD []).length < ((f.ancestors? c.key).getD []).length
  simp [hp, hc]

/-- A group lies below another one exactly if the way upward leads there. -/
theorem descends_iff (hn : f.keys.Nodup) (k above : GroupKey) :
    f.descends k above = true ↔ Relation.TransGen f.Above above k := by
  refine ⟨fun h => ?_, fun h => ?_⟩
  · induction k using (wellFounded_above hn).induction with
    | _ k ih =>
    have hk : k ∈ f.keys := by
      rw [mem_keys_iff_ancestors?, Option.isSome_iff_ne_none]
      rintro hnone
      simp [descends, hnone] at h
    obtain ⟨c, hc, rfl⟩ := List.mem_map.1 hk
    obtain ⟨o, ho⟩ := exists_owns hc
    cases o with
    | none => simp [descends, ancestors?_of_mem_roots hn ho] at h
    | some p =>
      obtain ⟨as, hp, hcas⟩ := ancestors?_of_mem_edges hn ho
      have hstep := above_of_mem_edges hn ho
      simp only [descends, hcas, Option.getD_some, List.any_append, Bool.or_eq_true,
        List.any_cons, List.any_nil, Bool.or_false, decide_eq_true_eq] at h
      rcases h with h | rfl
      · refine (ih p.key hstep ?_).tail hstep
        simpa [descends, hp] using h
      · exact .single hstep
  · induction h with
    | single h =>
      obtain ⟨p, c, hpc, rfl, rfl⟩ := exists_edge_of_above hn h
      obtain ⟨as, -, hc⟩ := ancestors?_of_mem_edges hn hpc
      simp [descends, hc]
    | tail _ h ih =>
      obtain ⟨p, c, hpc, rfl, rfl⟩ := exists_edge_of_above hn h
      obtain ⟨as, hp, hc⟩ := ancestors?_of_mem_edges hn hpc
      simp only [descends, hp, Option.getD_some] at ih
      simp [descends, hc, ih]

/-- A forest has the groups from which the way upward leads to one of its roots. -/
theorem mem_keys_iff_exists_root (hn : f.keys.Nodup) (k : GroupKey) :
    k ∈ f.keys ↔ ∃ r ∈ f.roots, Relation.ReflTransGen f.Above r.key k := by
  refine ⟨fun hk => ?_, ?_⟩
  · induction k using (wellFounded_above hn).induction with
    | _ k ih =>
    obtain ⟨c, hc, rfl⟩ := List.mem_map.1 hk
    obtain ⟨o, ho⟩ := exists_owns hc
    cases o with
    | none => exact ⟨c, ho, .refl⟩
    | some p =>
      have hstep := above_of_mem_edges hn ho
      obtain ⟨r, hr, hway⟩ := ih p.key hstep (mem_keys (mem_of_mem_edges ho).1)
      exact ⟨r, hr, hway.tail hstep⟩
  · rintro ⟨r, hr, hway⟩
    rcases hway.cases_tail with heq | ⟨j, -, h⟩
    · exact heq ▸ mem_keys (roots_subset f hr)
    · obtain ⟨p, c, hpc, -, rfl⟩ := exists_edge_of_above hn h
      exact mem_keys (mem_of_mem_edges hpc).2

/-! ### Two forests side by side -/

@[simp] theorem ancestors?_append (f f' : Forest) (k : GroupKey) :
    (f.append f').ancestors? k = (f.ancestors? k).or (f'.ancestors? k) := by
  induction f with
  | nil => rfl
  | cons a cs rest _ ih =>
    simp only [append, ancestors?, ih]
    split
    · rfl
    · rw [Option.or_assoc]

@[simp] theorem edges_append (f f' : Forest) : (f.append f').edges = f.edges ++ f'.edges := by
  induction f with
  | nil => rfl
  | cons a cs rest _ ih => simp [append, edges, ih]

end Forest

namespace Graph

/-- One group is the parent of another one. -/
def Above (g : Graph) (k j : GroupKey) : Prop := (g.parent? j).map (·.key) = some k

/-- The groups of the graph form a forest, and whoever follows the parents upward comes to an end.
-/
structure Nested (g : Graph) : Prop where
  /-- Every group of the graph is listed once. -/
  keys_nodup : (g.allGroups.map (·.key)).Nodup
  mem_keys_iff : ∀ a, a ∈ g.allGroups.map (·.key) ↔ g.ownsGroup a = true
  parent_first : ∀ b ∈ g.allGroups, ∀ p, g.parent? b.key = some p → [p, b].Sublist g.allGroups
  /-- The parent of a group is the one in whose list it stands. -/
  parent?_eq_iff : ∀ b ∈ g.allGroups, ∀ o, g.parent? b.key = o ↔ g.groups.Owns o b
  wellFounded : WellFounded g.Above
  descends_iff : ∀ a above, g.descends a above = true ↔ Relation.TransGen g.Above above a
  not_descends_self : ∀ a, g.descends a a = false
  owns_iff : ∀ a, g.ownsGroup a = true ↔
    ∃ r ∈ g.groups.roots, Relation.ReflTransGen g.Above r.key a

section Keys
variable {g : Graph} (hn : (g.clusters.map (·.key)).Nodup)
include hn

/-- All groups in one forest. -/
theorem keys_append_nodup : (g.groups.append g.loose).keys.Nodup := by
  rw [Forest.keys_append, Forest.keys, Forest.keys, ← List.map_append]
  exact hn

/-- The ancestors of a group are those in the forest in which it stands. -/
theorem ancestors?_cases (a : GroupKey) :
    g.groups.ancestors? a = none ∨ g.loose.ancestors? a = none := by
  by_cases ha : a ∈ g.groups.keys
  · exact .inr (Forest.ancestors?_eq_none (not_mem_loose hn ha))
  · exact .inl (Forest.ancestors?_eq_none ha)

theorem parent?_eq (a : GroupKey) : g.parent? a = (g.groups.append g.loose).parent? a := by
  simp only [Graph.parent?, Forest.parent?, Forest.ancestors?_append]
  rcases ancestors?_cases hn a with h | h <;> simp [h]

theorem descends_eq (a above : GroupKey) :
    g.descends a above = (g.groups.append g.loose).descends a above := by
  simp only [Graph.descends, Forest.descends, Forest.ancestors?_append]
  rcases ancestors?_cases hn a with h | h <;> simp [h]

theorem above_eq : g.Above = (g.groups.append g.loose).Above := by
  funext k j
  rw [Graph.Above, Forest.Above, parent?_eq hn]

theorem parent?_of_mem {a : GroupKey} (ha : a ∈ g.groups.keys) :
    g.parent? a = g.groups.parent? a := by
  rw [Graph.parent?, Forest.parent?, Forest.parent?,
    Forest.ancestors?_eq_none (not_mem_loose hn ha), Option.bind_none, Option.or_none]

/-- Nobody comes from the one forest to the other. -/
theorem mem_keys_of_reflTransGen {a r : GroupKey} (hr : r ∈ g.groups.keys)
    (h : Relation.ReflTransGen g.Above r a) : a ∈ g.groups.keys := by
  induction h with
  | refl => exact hr
  | tail _ h ih =>
    rw [above_eq hn] at h
    obtain ⟨p, c, hpc, rfl, rfl⟩ := Forest.exists_edge_of_above (keys_append_nodup hn) h
    rw [Forest.edges_append] at hpc
    rcases List.mem_append.1 hpc with hpc | hpc
    · exact Forest.mem_keys (Forest.mem_of_mem_edges hpc).2
    · exact absurd (Forest.mem_keys (Forest.mem_of_mem_edges hpc).1) (not_mem_loose hn ih)

/-- If no two groups have one key, the groups form a forest. -/
theorem Nested.of_keys_nodup : g.Nested := by
  have hgroups := keys_groups_nodup hn
  have howns (a : GroupKey) : a ∈ g.groups.keys ↔ g.ownsGroup a = true :=
    Forest.mem_keys_iff_get? g.groups a
  have hparent {b : Group} (hb : b ∈ g.allGroups) (o : Option Group) :
      g.parent? b.key = o ↔ g.groups.Owns o b := by
    rw [parent?_of_mem hn (Forest.mem_keys hb)]
    exact Forest.parent?_eq_iff hgroups hb o
  have hdescends (a above : GroupKey) :
      g.descends a above = true ↔ Relation.TransGen g.Above above a := by
    rw [descends_eq hn, above_eq hn]
    exact Forest.descends_iff (keys_append_nodup hn) a above
  have hwf : WellFounded g.Above := by
    rw [above_eq hn]
    exact Forest.wellFounded_above (keys_append_nodup hn)
  refine ⟨hgroups, howns, fun b hb p hp => ?_, fun b hb o => hparent hb o, hwf, hdescends,
    fun a => ?_, fun a => ?_⟩
  · exact Forest.sublist_of_mem_edges ((hparent hb (some p)).1 hp)
  · rw [← Bool.not_eq_true, hdescends]
    exact hwf.transGen.irrefl.irrefl a
  · rw [← howns]
    refine ⟨fun ha => ?_, fun ⟨r, hr, h⟩ => ?_⟩
    · obtain ⟨r, hr, h⟩ := (Forest.mem_keys_iff_exists_root hgroups a).1 ha
      refine ⟨r, hr, Relation.ReflTransGen.mono (fun k j hkj => ?_) _ _ h⟩
      obtain ⟨p, c, hpc, -, rfl⟩ := Forest.exists_edge_of_above hgroups hkj
      rwa [Above, parent?_of_mem hn (Forest.mem_keys (Forest.mem_of_mem_edges hpc).2)]
    · exact mem_keys_of_reflTransGen hn (Forest.mem_keys (Forest.roots_subset _ hr)) h

end Keys

/-- If groups and nodes agree, the groups form a forest. -/
theorem Grouped.nested {g : Graph} (hg : Grouped g) : g.Nested := .of_keys_nodup hg.keys_nodup

end Graph
end Patchbay
