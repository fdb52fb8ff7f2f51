import Patchbay.Proofs.Grouping.Ancestry
/-!
# Moving a group to another parent

A group that gets another parent is taken out of the list in which it stands and put at the end of
another one. What lies below it comes along as it is. It cannot be put below itself: the way upward
from the new parent would lead to it, and that is so exactly for the groups of its own tree.

## Main definitions

* `Forest.subtree`: a group with all that lies below it.
* `Forest.childrenOf`: the groups in the list of an owner, in their order.
* `Graph.Reparented`: what the graph is after a group has moved.

## Main statements

* `Forest.descends_iff_mem`: the way upward leads to a group exactly from what lies below it.
* `Graph.reparentGroup_iff`: when a group moves, and what comes of it.
-/
namespace Patchbay
namespace Forest

variable {f f' : Forest} {t : Tree} {a p : Group} {cs rest : Forest} {j k : GroupKey}

/-- The group under a key with all groups below it, parents before children. -/
def subtree (f : Forest) (k : GroupKey) : List Group := ((f.tree? k).map Tree.preorder).getD []

/-- The groups in the list of an owner, in their order: the roots, or the children of a group. -/
def childrenOf (f : Forest) : Option GroupKey → List Group
  | none => f.roots
  | some k => (f.edges.filter fun e => e.1.key = k).map (·.2)

theorem subtree_of_tree? (h : f.tree? k = some t) : f.subtree k = t.preorder := by
  rw [subtree, h]
  rfl

/-- Under a key stands the group that has it. -/
theorem get?_eq_some_iff (hn : f.keys.Nodup) {b : Group} :
    f.get? k = some b ↔ b ∈ f.preorder ∧ b.key = k := by
  refine ⟨fun h => ?_, fun ⟨hb, hk⟩ => hk ▸ get?_of_mem hn hb⟩
  rw [get?_eq] at h
  exact ⟨List.mem_of_find?_eq_some h, by simpa using List.find?_some h⟩

/-- The same groups in another order are found under the same keys. -/
theorem get?_of_perm (hn : f.keys.Nodup) (h : f'.preorder.Perm f.preorder) (k : GroupKey) :
    f'.get? k = f.get? k := by
  have hn' : f'.keys.Nodup := (h.map Group.key).nodup_iff.2 hn
  ext b
  rw [get?_eq_some_iff hn', get?_eq_some_iff hn, h.mem_iff]

theorem get?_map {h : Group → Group} (hkey : ∀ b, (h b).key = b.key) (f : Forest) (k : GroupKey) :
    (f.map h).get? k = (f.get? k).map h := by
  simp only [get?_eq, preorder_map, List.find?_map, Function.comp_def, hkey]

/-! ### What lies below a group -/

theorem tree?_eq_none (hk : k ∉ f.keys) : f.tree? k = none := by
  rwa [← Option.not_isSome_iff_eq_none, ← mem_keys_iff_tree?]

/-- Whoever lies below a group is in the forest, and so is the group. -/
theorem mem_keys_of_descends (h : f.descends j k = true) : j ∈ f.keys ∧ k ∈ f.keys := by
  rw [descends] at h
  cases has : f.ancestors? j with
  | none => simp [has] at h
  | some as =>
    rw [has, Option.getD_some, List.any_eq_true] at h
    obtain ⟨b, hb, hbk⟩ := h
    refine ⟨(mem_keys_iff_ancestors? f j).2 (Option.isSome_of_mem has), ?_⟩
    exact of_decide_eq_true hbk ▸ mem_keys (mem_of_ancestors? has hb)

theorem descends_of_mem_children (hn : (cons a cs rest).keys.Nodup) (hj : j ∈ cs.keys) :
    (cons a cs rest).descends j k = (decide (a.key = k) || cs.descends j k) := by
  obtain ⟨as, has⟩ := Option.isSome_iff_exists.1 ((mem_keys_iff_ancestors? cs j).1 hj)
  simp [descends, ancestors?_of_mem_children hn hj, has]

theorem descends_of_mem_rest (hn : (cons a cs rest).keys.Nodup) (hj : j ∈ rest.keys) :
    (cons a cs rest).descends j k = rest.descends j k := by
  rw [descends, descends, ancestors?_of_mem_rest hn hj]

theorem mem_of_descends (hn : f.keys.Nodup) (ht : f.tree? k = some t)
    (h : f.descends j k = true) : j ∈ t.children.keys := by
  induction f with
  | nil => cases ht
  | cons a cs rest ihc ih =>
    have hparts := hn
    rw [keys_cons, List.nodup_cons, List.nodup_append] at hparts
    obtain ⟨ha, hcs, hrest, hdisj⟩ := hparts
    have hj := (mem_keys_of_descends h).1
    rw [keys_cons, List.mem_cons, List.mem_append] at hj
    rcases hj with rfl | hj | hj
    · simp [descends, ancestors?] at h
    · rw [descends_of_mem_children hn hj, Bool.or_eq_true, decide_eq_true_eq] at h
      rcases h with rfl | h
      · simp only [tree?, if_true, Option.some.injEq] at ht
        exact ht ▸ hj
      · have hk := (mem_keys_of_descends h).2
        have hne : a.key ≠ k := fun e => ha (e ▸ List.mem_append_left _ hk)
        rw [tree?, if_neg hne, tree?_eq_none fun hout => hdisj k hk k hout rfl,
          Option.or_none] at ht
        exact ihc hcs ht h
    · rw [descends_of_mem_rest hn hj] at h
      have hk := (mem_keys_of_descends h).2
      have hne : a.key ≠ k := fun e => ha (e ▸ List.mem_append_right _ hk)
      rw [tree?, if_neg hne, tree?_eq_none fun hin => hdisj k hin k hk rfl, Option.none_or] at ht
      exact ih hrest ht h

/-- The way upward leads to a group exactly from what lies below it. -/
theorem descends_iff_mem (hn : f.keys.Nodup) (ht : f.tree? k = some t) :
    f.descends j k = true ↔ j ∈ t.children.keys :=
  ⟨mem_of_descends hn ht, descends_of_tree? hn ht⟩

/-- A tree consists of a group and of what lies below it. -/
theorem mem_keys_preorder_iff (hn : f.keys.Nodup) (ht : f.tree? k = some t) :
    j ∈ t.preorder.map (·.key) ↔ j = k ∨ f.descends j k = true := by
  rw [Tree.preorder, List.map_cons, List.mem_cons, key_of_tree? ht, descends_iff_mem hn ht]
  rfl

/-! ### The lists of the owners -/

@[simp] theorem roots_append (f g : Forest) : (f.append g).roots = f.roots ++ g.roots := by
  induction f with
  | nil => rfl
  | cons a cs rest _ ih => simp [append, roots, ih]

@[simp] theorem childrenOf_append (f g : Forest) (o : Option GroupKey) :
    (f.append g).childrenOf o = f.childrenOf o ++ g.childrenOf o := by
  cases o <;> simp [childrenOf]

@[simp] theorem roots_map (h : Group → Group) (f : Forest) : (f.map h).roots = f.roots.map h := by
  induction f with
  | nil => rfl
  | cons a cs rest _ ih => simp [map, roots, ih]

@[simp] theorem edges_map (h : Group → Group) (f : Forest) :
    (f.map h).edges = f.edges.map (Prod.map h h) := by
  induction f with
  | nil => rfl
  | cons a cs rest ihc ih => simp [map, edges, ihc, ih]

/-- Groups that are changed and keep their keys stay where they are. -/
theorem childrenOf_map {h : Group → Group} (hkey : ∀ b, (h b).key = b.key) (f : Forest)
    (o : Option GroupKey) : (f.map h).childrenOf o = (f.childrenOf o).map h := by
  cases o with
  | none => exact roots_map h f
  | some k =>
    simp only [childrenOf, edges_map, List.filter_map, List.map_map, Function.comp_def, Prod.map,
      hkey]

theorem childrenOf_cons (a : Group) (cs rest : Forest) (j : GroupKey) :
    (cons a cs rest).childrenOf (some j) =
      (if a.key = j then cs.roots else []) ++
        (cs.childrenOf (some j) ++ rest.childrenOf (some j)) := by
  simp only [childrenOf, edges, List.filter_append, List.map_append, List.filter_map,
    List.map_map]
  congr 1
  split
  · next h => simp [Function.comp_def, h]
  · next h => simp [Function.comp_def, h]

theorem exists_edge_of_mem_childrenOf {c : Group} (h : c ∈ f.childrenOf (some j)) :
    ∃ p, p.key = j ∧ (p, c) ∈ f.edges := by
  obtain ⟨⟨p, c⟩, he, rfl⟩ := List.mem_map.1 h
  rw [List.mem_filter, decide_eq_true_eq] at he
  exact ⟨p, he.2, he.1⟩

theorem childrenOf_subset (f : Forest) (o : Option GroupKey) : f.childrenOf o ⊆ f.preorder := by
  intro c hc
  cases o with
  | none => exact roots_subset f hc
  | some j =>
    obtain ⟨p, -, he⟩ := exists_edge_of_mem_childrenOf hc
    exact (mem_of_mem_edges he).2

theorem childrenOf_eq_nil (hj : j ∉ f.keys) : f.childrenOf (some j) = [] := by
  refine List.eq_nil_iff_forall_not_mem.2 fun c hc => hj ?_
  obtain ⟨p, rfl, he⟩ := exists_edge_of_mem_childrenOf hc
  exact mem_keys (mem_of_mem_edges he).1

/-- No list names a group that is not in the forest. -/
theorem filter_childrenOf (hk : k ∉ f.keys) (o : Option GroupKey) :
    (f.childrenOf o).filter (·.key ≠ k) = f.childrenOf o := by
  refine List.filter_eq_self.2 fun c hc => decide_eq_true fun e => hk ?_
  exact e ▸ mem_keys (childrenOf_subset f o hc)

theorem childrenOf_of_mem_children (hn : (cons a cs rest).keys.Nodup) (hj : j ∈ cs.keys) :
    (cons a cs rest).childrenOf (some j) = cs.childrenOf (some j) := by
  rw [keys_cons, List.nodup_cons, List.nodup_append, List.mem_append] at hn
  obtain ⟨ha, -, -, hdisj⟩ := hn
  have hne : a.key ≠ j := fun e => ha (.inl (e ▸ hj))
  have hout : j ∉ rest.keys := fun hout => hdisj j hj j hout rfl
  rw [childrenOf_cons, if_neg hne, childrenOf_eq_nil hout, List.append_nil, List.nil_append]

theorem childrenOf_of_mem_rest (hn : (cons a cs rest).keys.Nodup) (hj : j ∈ rest.keys) :
    (cons a cs rest).childrenOf (some j) = rest.childrenOf (some j) := by
  rw [keys_cons, List.nodup_cons, List.nodup_append, List.mem_append] at hn
  obtain ⟨ha, -, -, hdisj⟩ := hn
  have hne : a.key ≠ j := fun e => ha (.inr (e ▸ hj))
  have hout : j ∉ cs.keys := fun hin => hdisj j hin j hj rfl
  rw [childrenOf_cons, if_neg hne, childrenOf_eq_nil hout, List.nil_append, List.nil_append]

theorem childrenOf_root (hn : (cons a cs rest).keys.Nodup) :
    (cons a cs rest).childrenOf (some a.key) = cs.roots := by
  rw [keys_cons, List.nodup_cons, List.mem_append, not_or] at hn
  rw [childrenOf_cons, if_pos rfl, childrenOf_eq_nil hn.1.1, childrenOf_eq_nil hn.1.2,
    List.append_nil, List.append_nil]

theorem keys_nodup_children (hn : (cons a cs rest).keys.Nodup) : cs.keys.Nodup := by
  rw [keys_cons, List.nodup_cons, List.nodup_append] at hn
  exact hn.2.1

theorem keys_nodup_rest (hn : (cons a cs rest).keys.Nodup) : rest.keys.Nodup := by
  rw [keys_cons, List.nodup_cons, List.nodup_append] at hn
  exact hn.2.2.1

/-! ### A tree in a list -/

/-- The second forest is the first one with a tree in the list of an owner, between the groups that
stand before it and those that stand after it. -/
inductive Hung (t : Tree) : Option GroupKey → List Group → List Group → Forest → Forest → Prop where
  | here (rest : Forest) : Hung t none [] rest.roots rest (cons t.root t.children rest)
  | later {l r : List Group} {rest rest' : Forest} (a : Group) (cs : Forest)
    (h : Hung t none l r rest rest') : Hung t none (a :: l) r (cons a cs rest) (cons a cs rest')
  | child {l r : List Group} {cs cs' : Forest} (a : Group) (rest : Forest)
    (h : Hung t none l r cs cs') : Hung t (some a.key) l r (cons a cs rest) (cons a cs' rest)
  | deeper {k : GroupKey} {l r : List Group} {cs cs' : Forest} (a : Group) (rest : Forest)
    (h : Hung t (some k) l r cs cs') : Hung t (some k) l r (cons a cs rest) (cons a cs' rest)
  | beside {k : GroupKey} {l r : List Group} {rest rest' : Forest} (a : Group) (cs : Forest)
    (h : Hung t (some k) l r rest rest') : Hung t (some k) l r (cons a cs rest) (cons a cs rest')

/-- A tree that is taken out stood in the list of an owner. -/
theorem hung_of_detach? (h : f.detach? k = some (t, f')) : ∃ o l r, Hung t o l r f' f := by
  induction f generalizing f' with
  | nil => cases h
  | cons a cs rest ihc ih =>
    simp only [detach?] at h
    split at h
    · cases h
      exact ⟨none, [], _, .here _⟩
    · split at h
      · next hd =>
        cases h
        obtain ⟨o, l, r, hung⟩ := ihc hd
        cases o with
        | none => exact ⟨_, l, r, .child a rest hung⟩
        | some j => exact ⟨_, l, r, .deeper a rest hung⟩
      · obtain ⟨⟨t', rest'⟩, hd, heq⟩ := Option.map_eq_some_iff.1 h
        cases heq
        obtain ⟨o, l, r, hung⟩ := ih hd
        cases o with
        | none => exact ⟨_, a :: l, r, .later a cs hung⟩
        | some j => exact ⟨_, l, r, .beside a cs hung⟩

/-- The tree of a group can be taken out, and stood in the list of an owner. -/
theorem exists_hung (h : f.tree? k = some t) :
    ∃ f' o l r, f.detach? k = some (t, f') ∧ Hung t o l r f' f := by
  obtain ⟨f', hd⟩ := detach?_of_tree? h
  obtain ⟨o, l, r, hung⟩ := hung_of_detach? hd
  exact ⟨f', o, l, r, hd, hung⟩

theorem hung_plant (f : Forest) (t : Tree) : Hung t none f.roots [] f (f.plant t) := by
  induction f with
  | nil => exact .here nil
  | cons a cs rest _ ih => exact .later a cs ih

/-- A tree that a group adopts is the last one among its children. -/
theorem hung_adopt (hn : f.keys.Nodup) (hk : k ∈ f.keys) (t : Tree) :
    Hung t (some k) (f.childrenOf (some k)) [] f (f.adopt k t) := by
  induction f with
  | nil => cases hk
  | cons a cs rest ihc ih =>
    have hparts := hn
    rw [keys_cons, List.nodup_cons, List.nodup_append] at hparts
    obtain ⟨-, -, -, hdisj⟩ := hparts
    rw [keys_cons, List.mem_cons, List.mem_append] at hk
    rw [adopt]
    split
    · next hak =>
      subst hak
      rw [childrenOf_root hn]
      exact .child a rest (hung_plant cs t)
    · next hne =>
      rcases hk.resolve_left (Ne.symm hne) with hk | hk
      · rw [adopt_of_not_mem fun h => hdisj k hk k h rfl, childrenOf_of_mem_children hn hk]
        exact .deeper a rest (ihc (keys_nodup_children hn) hk)
      · rw [adopt_of_not_mem fun h => hdisj k h k hk rfl, childrenOf_of_mem_rest hn hk]
        exact .beside a cs (ih (keys_nodup_rest hn) hk)

namespace Hung
variable {o : Option GroupKey} {l r : List Group}

/-- The groups of the tree stand together, and the others keep their order. -/
theorem preorder (h : Hung t o l r f' f) :
    ∃ before after, f'.preorder = before ++ after ∧ f.preorder = before ++ (t.preorder ++ after) := by
  induction h with
  | here rest => exact ⟨[], rest.preorder, rfl, rfl⟩
  | later a cs _ ih | beside a cs _ ih =>
    obtain ⟨before, after, hwithout, hwith⟩ := ih
    refine ⟨a :: (cs.preorder ++ before), after, ?_, ?_⟩
    · simp [Forest.preorder, hwithout]
    · simp [Forest.preorder, hwith]
  | child a rest _ ih | deeper a rest _ ih =>
    obtain ⟨before, after, hwithout, hwith⟩ := ih
    refine ⟨a :: before, after ++ rest.preorder, ?_, ?_⟩
    · simp [Forest.preorder, hwithout]
    · simp [Forest.preorder, hwith]

theorem preorder_perm (h : Hung t o l r f' f) : f.preorder.Perm (t.preorder ++ f'.preorder) := by
  obtain ⟨before, after, hwithout, hwith⟩ := h.preorder
  rw [hwith, hwithout, ← List.append_assoc, ← List.append_assoc]
  exact List.perm_append_comm.append_right after

theorem keys_perm (h : Hung t o l r f' f) : f.keys.Perm ((ofTree t).keys ++ f'.keys) := by
  have hkeys := h.preorder_perm.map (·.key)
  rw [List.map_append] at hkeys
  rwa [keys, keys, keys, preorder_ofTree]

theorem disjoint (h : Hung t o l r f' f) (hn : f.keys.Nodup) (hj : j ∈ (ofTree t).keys) :
    j ∉ f'.keys := fun hj' =>
  (List.nodup_append.1 (h.keys_perm.nodup_iff.1 hn)).2.2 j hj j hj' rfl

theorem mem_keys (h : Hung t o l r f' f) (hj : j ∈ (ofTree t).keys) : j ∈ f.keys :=
  h.keys_perm.mem_iff.2 (List.mem_append_left _ hj)

theorem mem_keys_of_without (h : Hung t o l r f' f) (hj : j ∈ f'.keys) : j ∈ f.keys :=
  h.keys_perm.mem_iff.2 (List.mem_append_right _ hj)

/-- A forest without the tree has no key twice either. -/
theorem keys_nodup (h : Hung t o l r f' f) (hn : f.keys.Nodup) : f'.keys.Nodup :=
  (List.nodup_append.1 (h.keys_perm.nodup_iff.1 hn)).2.1

theorem owner_mem (h : Hung t o l r f' f) (ho : o = some k) : k ∈ f'.keys := by
  induction h with
  | here | later => cases ho
  | child a rest h =>
    cases ho
    exact List.mem_cons_self
  | deeper a rest h ih =>
    rw [keys_cons]
    exact List.mem_cons_of_mem _ (List.mem_append_left _ (ih ho))
  | beside a cs h ih =>
    rw [keys_cons]
    exact List.mem_cons_of_mem _ (List.mem_append_right _ (ih ho))

/-- The tree is found as it was hung up. -/
theorem tree? (h : Hung t o l r f' f) (hn : f.keys.Nodup) : f.tree? t.root.key = some t := by
  have hroot : t.root.key ∈ (ofTree t).keys := by simp [keys]
  induction h with
  | here rest => simp [Forest.tree?]
  | later a cs h ih | beside a cs h ih =>
    have hrest := ih (keys_nodup_rest hn)
    rw [keys_cons, List.nodup_cons, List.nodup_append, List.mem_append] at hn
    obtain ⟨ha, -, -, hdisj⟩ := hn
    have hin := h.mem_keys hroot
    have hne : a.key ≠ t.root.key := fun e => ha (.inr (e ▸ hin))
    rw [Forest.tree?, if_neg hne, tree?_eq_none fun hout => hdisj _ hout _ hin rfl, hrest,
      Option.none_or]
  | child a rest h ih | deeper a rest h ih =>
    have hcs := ih (keys_nodup_children hn)
    rw [keys_cons, List.nodup_cons, List.mem_append] at hn
    have hne : a.key ≠ t.root.key := fun e => hn.1 (.inl (e ▸ h.mem_keys hroot))
    rw [Forest.tree?, if_neg hne, hcs, Option.some_or]

/-- The list of the owner, without the tree and with it. -/
theorem childrenOf_owner (h : Hung t o l r f' f) (hn : f.keys.Nodup) :
    f'.childrenOf o = l ++ r ∧ f.childrenOf o = l ++ t.root :: r := by
  have hn' := h.keys_nodup hn
  induction h with
  | here rest => exact ⟨rfl, rfl⟩
  | later a cs h ih =>
    obtain ⟨hwithout, hwith⟩ := ih (keys_nodup_rest hn) (keys_nodup_rest hn')
    exact ⟨congrArg (a :: ·) hwithout, congrArg (a :: ·) hwith⟩
  | child a rest h ih =>
    rw [childrenOf_root hn, childrenOf_root hn']
    exact ih (keys_nodup_children hn) (keys_nodup_children hn')
  | deeper a rest h ih =>
    have hk := h.owner_mem rfl
    rw [childrenOf_of_mem_children hn (h.mem_keys_of_without hk), childrenOf_of_mem_children hn' hk]
    exact ih (keys_nodup_children hn) (keys_nodup_children hn')
  | beside a cs h ih =>
    have hk := h.owner_mem rfl
    rw [childrenOf_of_mem_rest hn (h.mem_keys_of_without hk), childrenOf_of_mem_rest hn' hk]
    exact ih (keys_nodup_rest hn) (keys_nodup_rest hn')

/-- The lists of the tree come along as they are. -/
theorem childrenOf_of_mem (h : Hung t o l r f' f) (hn : f.keys.Nodup)
    (hj : j ∈ (ofTree t).keys) : f.childrenOf (some j) = (ofTree t).childrenOf (some j) := by
  induction h with
  | here rest =>
    have hout : j ∉ rest.keys := disjoint (.here rest) hn hj
    rw [ofTree, childrenOf_cons, childrenOf_cons, childrenOf_eq_nil hout]
    rfl
  | later a cs h ih | beside a cs h ih =>
    rw [childrenOf_of_mem_rest hn (h.mem_keys hj)]
    exact ih (keys_nodup_rest hn)
  | child a rest h ih | deeper a rest h ih =>
    rw [childrenOf_of_mem_children hn (h.mem_keys hj)]
    exact ih (keys_nodup_children hn)

/-- All other lists are the same with the tree as without it. -/
theorem childrenOf_of_ne (h : Hung t o l r f' f) (u : Option GroupKey) (hne : u ≠ o)
    (hout : ∀ j ∈ (ofTree t).keys, u ≠ some j) : f.childrenOf u = f'.childrenOf u := by
  induction h generalizing u with
  | here rest =>
    cases u with
    | none => exact absurd rfl hne
    | some j =>
      have hj : j ∉ (ofTree t).keys := fun hj => hout j hj rfl
      have hsplit := childrenOf_append (ofTree t) rest (some j)
      rwa [childrenOf_eq_nil hj] at hsplit
  | later a cs h ih =>
    cases u with
    | none => exact absurd rfl hne
    | some j => rw [childrenOf_cons, childrenOf_cons, ih _ hne hout]
  | child a rest h ih =>
    cases u with
    | none => rfl
    | some j =>
      have hj : a.key ≠ j := fun e => hne (e ▸ rfl)
      rw [childrenOf_cons, childrenOf_cons, if_neg hj, if_neg hj, ih (some j) nofun hout]
  | deeper a rest h ih =>
    cases u with
    | none => rfl
    | some j =>
      have hroots : Forest.roots _ = Forest.roots _ := ih none nofun nofun
      rw [childrenOf_cons, childrenOf_cons, ih _ hne hout, hroots]
  | beside a cs h ih =>
    cases u with
    | none => exact congrArg (a :: ·) (ih none nofun nofun)
    | some j => rw [childrenOf_cons, childrenOf_cons, ih _ hne hout]

theorem root_mem (t : Tree) : t.root.key ∈ (ofTree t).keys := List.mem_cons_self

/-- A group without children comes to the end of one list and changes no other one. -/
theorem childrenOf_leaf (h : Hung ⟨a, .nil⟩ o l [] f' f) (hn : f.keys.Nodup)
    (u : Option GroupKey) :
    f.childrenOf u = f'.childrenOf u ++ if u = o then [a] else [] := by
  by_cases hu : u = o
  · subst hu
    obtain ⟨hwithout, hwith⟩ := h.childrenOf_owner hn
    rw [if_pos rfl, hwith, hwithout, List.append_nil]
  · rw [if_neg hu, List.append_nil]
    by_cases ha : u = some a.key
    · subst ha
      rw [h.childrenOf_of_mem hn (root_mem _), childrenOf_eq_nil (h.disjoint hn (root_mem _))]
      have hroot : (ofTree ⟨a, .nil⟩).keys.Nodup := List.nodup_singleton a.key
      exact (childrenOf_root hroot).trans (List.append_nil []).symm
    · refine h.childrenOf_of_ne u hu fun j hj e => ha ?_
      rw [e, List.mem_singleton.1 hj]

theorem keys_nodup_tree (h : Hung t o l r f' f) (hn : f.keys.Nodup) : (ofTree t).keys.Nodup :=
  (List.nodup_append.1 (h.keys_perm.nodup_iff.1 hn)).1

/-- Whoever takes the root of the tree out of all lists has the lists without the tree. -/
theorem filter_childrenOf (h : Hung t o l r f' f) (hn : f.keys.Nodup) (u : Option GroupKey)
    (hout : ∀ j ∈ (ofTree t).keys, u ≠ some j) :
    (f.childrenOf u).filter (·.key ≠ t.root.key) = f'.childrenOf u := by
  have hgone := h.disjoint hn (root_mem t)
  have hsame := Forest.filter_childrenOf hgone u
  by_cases hu : u = o
  · subst hu
    obtain ⟨hwithout, hwith⟩ := h.childrenOf_owner hn
    rw [hwithout, List.filter_append] at hsame
    rw [hwith, hwithout, List.filter_append, List.filter_cons_of_neg (by simp), hsame]
  · rw [h.childrenOf_of_ne u hu hout, hsame]

theorem filter_childrenOf_tree (h : Hung t o l r f' f) (hn : f.keys.Nodup) (j : GroupKey) :
    ((ofTree t).childrenOf (some j)).filter (·.key ≠ t.root.key) =
      (ofTree t).childrenOf (some j) := by
  have hn := h.keys_nodup_tree hn
  rw [ofTree, keys_cons, List.nodup_cons, List.mem_append, not_or] at hn
  obtain ⟨⟨hin, hout⟩, -⟩ := hn
  have hroots : t.children.roots.filter (·.key ≠ t.root.key) = t.children.roots :=
    Forest.filter_childrenOf hin none
  rw [ofTree, childrenOf_cons, List.filter_append, List.filter_append,
    Forest.filter_childrenOf hin, Forest.filter_childrenOf hout]
  split
  · rw [hroots]
  · rfl

/-- The parent of the root is the owner of the list in which the tree hangs. -/
theorem parent? (h : Hung t o l r f' f) (hn : f.keys.Nodup) :
    (f.parent? t.root.key).map (·.key) = o := by
  have hroot : t.root ∈ f.childrenOf o := by simp [(h.childrenOf_owner hn).2]
  cases o with
  | none => rw [parent?_of_owns (o := none) hn hroot, Option.map_none]
  | some k =>
    obtain ⟨p, rfl, he⟩ := exists_edge_of_mem_childrenOf hroot
    rw [parent?_of_owns (o := some p) hn he, Option.map_some]

/-- A tree that hangs in one place and then in another one: its root is missing in the list in which
it stood and is the last one in the list into which it comes. -/
theorem childrenOf_move {o' : Option GroupKey} {l' : List Group} {f'' : Forest}
    (h : Hung t o l r f' f) (h' : Hung t o' l' [] f' f'') (hn : f.keys.Nodup)
    (u : Option GroupKey) :
    f''.childrenOf u = (f.childrenOf u).filter (·.key ≠ t.root.key) ++
      if u = o' then [t.root] else [] := by
  have hn'' : f''.keys.Nodup := (h'.keys_perm.trans h.keys_perm.symm).nodup_iff.2 hn
  -- a list inside the tree moves with it; of the others, two know the root
  by_cases hin : ∃ j ∈ (ofTree t).keys, u = some j
  · obtain ⟨j, hj, rfl⟩ := hin
    have hne : some j ≠ o' := fun e => h.disjoint hn hj (h'.owner_mem e.symm)
    rw [h.childrenOf_of_mem hn hj, h'.childrenOf_of_mem hn'' hj, h.filter_childrenOf_tree hn,
      if_neg hne, List.append_nil]
  · have hout : ∀ j ∈ (ofTree t).keys, u ≠ some j := fun j hj e => hin ⟨j, hj, e⟩
    rw [h.filter_childrenOf hn u hout]
    split
    · next hu =>
      subst hu
      obtain ⟨hwithout, hwith⟩ := h'.childrenOf_owner hn''
      rw [hwith, hwithout, List.append_nil]
    · next hu => rw [h'.childrenOf_of_ne u hu hout, List.append_nil]

/-- The groups outside the tree are those of the forest without it, in their order. -/
theorem filter_preorder (h : Hung t o l r f' f) (hn : f.keys.Nodup) :
    f.preorder.filter (· ∉ t.preorder) = f'.preorder := by
  have hout : f'.preorder.filter (· ∉ t.preorder) = f'.preorder := by
    refine List.filter_eq_self.2 fun b hb => decide_eq_true fun hbt => ?_
    refine h.disjoint hn (j := b.key) ?_ (Forest.mem_keys hb)
    exact Forest.mem_keys ((preorder_ofTree t).symm ▸ hbt)
  have htree : t.preorder.filter (· ∉ t.preorder) = [] := by simp
  obtain ⟨before, after, hwithout, hwith⟩ := h.preorder
  rw [hwithout, List.filter_append] at hout
  rw [hwith, hwithout, List.filter_append, List.filter_append, htree, List.nil_append, hout]

end Hung
end Forest

namespace Graph
open Forest

/-- The graph after a group has got another parent, or none. -/
structure Reparented (g : Graph) (a : GroupKey) (parent : Option GroupKey) (h : Graph) : Prop where
  /-- Nothing but the places of the groups has changed. -/
  rest : { h with groups := g.groups } = g
  /-- The group is found with all that lay below it, as it lay there. -/
  tree? : h.groups.tree? a = g.groups.tree? a
  parent? : (h.groups.parent? a).map (·.key) = parent
  /-- The group is the last one in the list of its parent, and the lists are else as they were. -/
  childrenOf : ∀ o, h.groups.childrenOf o = (g.groups.childrenOf o).filter (·.key ≠ a) ++
    if o = parent then (g.groups.get? a).toList else []
  perm : h.allGroups.Perm g.allGroups
  /-- The groups outside the tree that moves keep their order. -/
  order : h.allGroups.filter (· ∉ g.groups.subtree a) = g.allGroups.filter (· ∉ g.groups.subtree a)
  /-- Under each key there is the same group, with its id, its bounds and its members. -/
  group? : ∀ b, h.group? b = g.group? b
  node? : ∀ k, h.node? k = g.node? k

variable {g : Graph}

theorem ownsGroup_iff (g : Graph) (a : GroupKey) : g.ownsGroup a = true ↔ a ∈ g.groups.keys :=
  (mem_keys_iff_get? _ _).symm

theorem exists_tree? {a : GroupKey} (ha : g.ownsGroup a = true) :
    ∃ t, g.groups.tree? a = some t :=
  exists_tree?_of_mem ((ownsGroup_iff g a).1 ha)

/-- A group may move unless it is not there, or would come below itself. -/
theorem canReparent_iff (hn : g.groups.keys.Nodup) (a : GroupKey) (parent : Option GroupKey) :
    g.canReparent a parent = true ↔ g.ownsGroup a = true ∧ ∀ p, parent = some p →
      g.ownsGroup p = true ∧ p ∉ (g.groups.subtree a).map (·.key) := by
  cases parent with
  | none => simp [canReparent]
  | some p =>
    simp only [canReparent, Bool.and_eq_true, Option.some.injEq, forall_eq']
    refine and_congr_right fun ha => ?_
    obtain ⟨t, ht⟩ := exists_tree? ha
    simp [subtree_of_tree? ht, mem_keys_preorder_iff hn ht, and_assoc]

/-- The answer tells whether the group may move. -/
theorem reparentGroup_fst (g : Graph) (a : GroupKey) (parent : Option GroupKey) :
    (g.reparentGroup a parent).1 = g.canReparent a parent := by
  cases hcan : g.canReparent a parent with
  | false => rw [reparentGroup_of_refused hcan]
  | true =>
    simp only [reparentGroup, hcan, if_true]
    split
    · rfl
    · split
      · split <;> rfl
      · rfl

theorem reparentGroup_of_parent {a : GroupKey} {parent : Option GroupKey}
    (hcan : g.canReparent a parent = true) (hstay : (g.groups.parent? a).map (·.key) = parent) :
    g.reparentGroup a parent = (true, g) := by
  simp only [reparentGroup, hcan, if_true, if_pos hstay]

/-- A group that moves is taken out of one list and put at the end of another one. -/
theorem exists_hung_of_canReparent (hn : g.groups.keys.Nodup) {a : GroupKey}
    {parent : Option GroupKey} (hcan : g.canReparent a parent = true)
    (hmove : (g.groups.parent? a).map (·.key) ≠ parent) :
    ∃ t o l r l' f groups, g.groups.tree? a = some t ∧ Hung t o l r f g.groups ∧
      Hung t parent l' [] f groups ∧ g.reparentGroup a parent = (true, { g with groups }) := by
  have hcond := (canReparent_iff hn a parent).1 hcan
  obtain ⟨ha, hparent⟩ := hcond
  obtain ⟨t, ht⟩ := exists_tree? ha
  obtain ⟨f, o, l, r, hd, hung⟩ := exists_hung ht
  cases parent with
  | none =>
    refine ⟨t, o, l, r, f.roots, f, f.plant t, ht, hung, hung_plant f t, ?_⟩
    simp only [reparentGroup, hcan, if_true, if_neg hmove, hd]
  | some p =>
    obtain ⟨hp, hout⟩ := hparent p rfl
    rw [subtree_of_tree? ht] at hout
    rw [ownsGroup_iff] at hp
    have hpf : p ∈ f.keys := by
      have hp := hung.keys_perm.mem_iff.1 hp
      rw [List.mem_append, keys, preorder_ofTree] at hp
      exact hp.resolve_left hout
    refine ⟨t, o, l, r, f.childrenOf (some p), f, f.adopt p t, ht, hung,
      hung_adopt (hung.keys_nodup hn) hpf t, ?_⟩
    simp only [reparentGroup, hcan, if_true, if_neg hmove, hd]

theorem reparented (hn : g.groups.keys.Nodup) {a : GroupKey} {parent : Option GroupKey}
    (hcan : g.canReparent a parent = true)
    (hmove : (g.groups.parent? a).map (·.key) ≠ parent) :
    g.Reparented a parent (g.reparentGroup a parent).2 := by
  obtain ⟨t, o, l, r, l', f, groups, ht, hung, hung', heq⟩ :=
    exists_hung_of_canReparent hn hcan hmove
  obtain rfl := key_of_tree? ht
  have hperm : groups.preorder.Perm g.groups.preorder :=
    hung'.preorder_perm.trans hung.preorder_perm.symm
  have hn' : groups.keys.Nodup := (hperm.map Group.key).nodup_iff.2 hn
  have hroot : t.root ∈ g.groups.preorder :=
    hung.preorder_perm.mem_iff.2 (List.mem_append_left _ List.mem_cons_self)
  rw [heq]
  refine ⟨rfl, ht ▸ hung'.tree? hn', hung'.parent? hn', fun u => ?_, hperm, ?_, fun b => ?_,
    fun k => rfl⟩
  · rw [hung.childrenOf_move hung' hn u, get?_of_mem hn hroot]
    rfl
  · rw [subtree_of_tree? ht]
    exact (hung'.filter_preorder hn').trans (hung.filter_preorder hn).symm
  · simp only [Graph.group?, get?_of_perm hn hperm]

/-- A group of the graph moves below any group of the graph that is not in its own tree, and to the
roots. It comes to the end of the list of its new parent with all that lies below it, unless it has
that parent already. A group that may not move leaves the graph as it is. -/
theorem reparentGroup_iff (hn : g.groups.keys.Nodup) (a : GroupKey) (parent : Option GroupKey) :
    ((g.reparentGroup a parent).1 = true ↔ g.ownsGroup a = true ∧ ∀ p, parent = some p →
      g.ownsGroup p = true ∧ p ∉ (g.groups.subtree a).map (·.key)) ∧
    ((g.reparentGroup a parent).1 = false → (g.reparentGroup a parent).2 = g) ∧
    ((g.reparentGroup a parent).1 = true →
      if (g.groups.parent? a).map (·.key) = parent then (g.reparentGroup a parent).2 = g
      else g.Reparented a parent (g.reparentGroup a parent).2) := by
  rw [← canReparent_iff hn, reparentGroup_fst]
  refine ⟨.rfl, fun hcan => ?_, fun hcan => ?_⟩
  · rw [reparentGroup_of_refused hcan]
  · split
    · next hstay => rw [reparentGroup_of_parent hcan hstay]
    · next hmove => exact reparented hn hcan hmove

/-- Two roots, the first of which has a child with a child of its own. -/
def chainBesideRoot : Graph :=
  [.newGroup "a" "a" ⟨0, 0, 0, 0⟩, .registerGroup 0, .newGroup "b" "b" ⟨0, 0, 0, 0⟩,
    .adoptGroup 0 (some 1), .newGroup "c" "c" ⟨0, 0, 0, 0⟩, .adoptGroup 1 (some 2),
    .newGroup "d" "d" ⟨0, 0, 0, 0⟩, .registerGroup 3].foldl Edit.apply (.new {})

/-- The child moves below the second root, and its own child comes along. It cannot move below that
one. -/
theorem reparentGroup_chainBesideRoot :
    chainBesideRoot.groups.keys = [0, 1, 2, 3] ∧
      (chainBesideRoot.reparentGroup 1 (some 2)).1 = false ∧
      (chainBesideRoot.reparentGroup 1 (some 3)).1 = true ∧
      chainBesideRoot.Reparented 1 (some 3) (chainBesideRoot.reparentGroup 1 (some 3)).2 ∧
      (chainBesideRoot.reparentGroup 1 (some 3)).2.groups.keys = [0, 3, 1, 2] := by
  have hkeys : chainBesideRoot.groups.keys = [0, 1, 2, 3] := by rfl
  have hn : chainBesideRoot.groups.keys.Nodup := by rw [hkeys]; decide
  obtain ⟨-, -, hmoved⟩ := reparentGroup_iff hn 1 (some 3)
  have hparent : (chainBesideRoot.groups.parent? 1).map (·.key) ≠ some 3 := by decide
  have hone : (chainBesideRoot.reparentGroup 1 (some 3)).1 = true := by rfl
  have hstay := hmoved hone
  rw [if_neg hparent] at hstay
  exact ⟨hkeys, by rfl, hone, hstay, by rfl⟩

end Graph
end Patchbay
