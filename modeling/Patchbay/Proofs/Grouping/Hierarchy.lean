import Patchbay.Proofs.Grouping.Linked
import Patchbay.Proofs.Grouping.Surveyed
/-!
# The links of a forest

Groups that know their parents and their children make up a forest. The links are read off from the
forest here, and it is shown that both come to the same: whoever walks along the links finds what a
search of the forest finds, and whoever changes links in place has the links of the forest that is
changed. So nothing is lost by keeping groups in a forest, where no link can lead round in a circle.

## Main definitions

* `Forest.hierarchy`: the links of the groups of a forest.
* `Graph.hierarchy`: the links of the groups of a graph and of those beside it.
* `Graph.Held`: a group that stands by itself beside the graph.
* `Hierarchy.Does`, `Hierarchy.DoesAll`: what operations on groups do to their links.

## Main statements

* `Graph.climbs_iff`, `Graph.owned_iff`: walks upward end, and tell what the forest tells.
* `Graph.collects_iff`, `Graph.collects_roots_iff`: groups are listed in the order of the forest.
* `Graph.adds_adoptGroup`, `Graph.release_hierarchy`, `Graph.reparents_reparentGroup`,
  `Graph.removes_removeGroup`: groups that come and go change their links as the forest changes.
* `Graph.doesAll_iff`: so it is after any operations on groups.
-/
namespace Patchbay

namespace Forest
variable {f f' f'' x : Forest} {t : Tree} {o : Option GroupKey} {l r l' r' : List Group}
  {k p above : GroupKey} {rs rs' : List GroupKey}

/-! ### Forests side by side -/

theorem keys_ofTree (t : Tree) : (ofTree t).keys = t.preorder.map (·.key) := by
  rw [keys, preorder_ofTree, Tree.preorder]

@[simp] theorem tree?_append (f f' : Forest) (k : GroupKey) :
    (f.append f').tree? k = (f.tree? k).or (f'.tree? k) := by
  induction f with
  | nil => rfl
  | cons a cs rest _ ih =>
    simp only [append, tree?, ih]
    split
    · rfl
    · rw [Option.or_assoc]

theorem map_append (h : Group → Group) (f f' : Forest) :
    (f.append f').map h = (f.map h).append (f'.map h) := by
  induction f with
  | nil => rfl
  | cons a cs rest _ ih => simp [append, map, ih]

/-- Of two forests side by side the one that has the group adopts the tree. -/
theorem adopt_append (hn : (f.append f').keys.Nodup) (k : GroupKey) (t : Tree) :
    (f.append f').adopt k t = (f.adopt k t).append (f'.adopt k t) := by
  induction f with
  | nil => rfl
  | cons a cs rest _ ih =>
    have hrest := ih (keys_nodup_rest hn)
    simp only [append, adopt]
    split
    · next hk =>
      subst hk
      rw [append, keys_cons, List.nodup_cons, keys_append] at hn
      rw [append, adopt_of_not_mem fun h => hn.1 (by simp [h])]
    · rw [append, hrest]

@[simp] theorem roots_adopt (k : GroupKey) (t : Tree) (f : Forest) :
    (f.adopt k t).roots = f.roots := by
  induction f with
  | nil => rfl
  | cons a cs rest _ ih =>
    rw [adopt]
    split
    · rfl
    · rw [roots, ih, roots]

theorem mem_keys_ofTree_iff (hn : f.keys.Nodup) (ht : f.tree? k = some t) :
    p ∈ (ofTree t).keys ↔ k = p ∨ f.descends p k = true := by
  rw [keys_ofTree, mem_keys_preorder_iff hn ht, eq_comm]

theorem roots_sublist (f : Forest) : f.roots.Sublist f.preorder := by
  induction f with
  | nil => exact .slnil
  | cons a cs rest _ ih => exact (ih.trans (List.sublist_append_right _ _)).cons_cons a

theorem nodup_keys_childrenOf (hn : f.keys.Nodup) (o : Option GroupKey) :
    ((f.childrenOf o).map (·.key)).Nodup := by
  have hroots {f : Forest} (hn : f.keys.Nodup) : (f.roots.map (·.key)).Nodup :=
    hn.sublist (f.roots_sublist.map _)
  cases o with
  | none => exact hroots hn
  | some j =>
    induction f with
    | nil => exact List.nodup_nil
    | cons a cs rest ihc ih =>
      by_cases hj : j ∈ (cons a cs rest).keys
      · rw [keys_cons, List.mem_cons, List.mem_append] at hj
        rcases hj with rfl | hj | hj
        · rw [childrenOf_root hn]
          exact hroots (keys_nodup_children hn)
        · rw [childrenOf_of_mem_children hn hj]
          exact ihc (keys_nodup_children hn)
        · rw [childrenOf_of_mem_rest hn hj]
          exact ih (keys_nodup_rest hn)
      · rw [childrenOf_eq_nil hj]
        exact List.nodup_nil

/-- A group that stands among the roots can be taken out of the forest. -/
theorem exists_hung_of_root (hn : f.keys.Nodup) {b : Group} (hb : b ∈ f.roots) :
    ∃ t f' l r, t.root.key = b.key ∧ f.detach? b.key = some (t, f') ∧ Hung t none l r f' f := by
  obtain ⟨t, ht⟩ := exists_tree?_of_mem (mem_keys (roots_subset f hb))
  obtain ⟨f', o, l, r, hd, hung⟩ := exists_hung ht
  have hkey := key_of_tree? ht
  have ho : none = o := by
    rw [← hung.parent? hn, hkey, parent?_of_owns (o := none) hn hb, Option.map_none]
  exact ⟨t, f', l, r, hkey, hd, ho ▸ hung⟩

/-- A tree hangs as it does if further groups stand behind the roots. -/
theorem Hung.append_right (h : Hung t o l r f' f) (x : Forest) :
    Hung t o l (r ++ if o = none then x.roots else []) (f'.append x) (f.append x) := by
  induction h with
  | here rest =>
    rw [if_pos rfl, ← roots_append]
    exact .here _
  | later a cs _ ih => exact .later a cs ih
  | child a rest h =>
    rw [if_neg nofun, List.append_nil]
    exact .child a _ h
  | deeper a rest h =>
    rw [if_neg nofun, List.append_nil]
    exact .deeper a _ h
  | beside a cs _ ih => exact .beside a cs ih

/-- A tree hangs as it does if further groups stand in front of the roots. -/
theorem Hung.append_left (h : Hung t o l r f' f) (x : Forest) :
    Hung t o ((if o = none then x.roots else []) ++ l) r (x.append f') (x.append f) := by
  induction x with
  | nil =>
    have hnil : (if o = none then nil.roots else []) ++ l = l := by split <;> rfl
    rwa [hnil]
  | cons a cs rest _ ih =>
    cases o with
    | none => exact .later a cs ih
    | some k => exact .beside a cs ih

/-- A forest in which a tree has moved has no key twice either. -/
theorem Hung.keys_nodup_move {o' : Option GroupKey} (h : Hung t o l r f' f)
    (h' : Hung t o' l' r' f' f'') (hn : f.keys.Nodup) : f''.keys.Nodup :=
  (h'.keys_perm.trans h.keys_perm.symm).nodup_iff.2 hn

/-- A tree that stands among the roots has no part in the lists of other groups. -/
theorem Hung.childrenOf_of_not_mem (h : Hung t none l r f' f) (hk : k ∉ (ofTree t).keys) :
    f.childrenOf (some k) = f'.childrenOf (some k) := by
  refine h.childrenOf_of_ne (some k) nofun ?_
  rintro j hj ⟨⟩
  exact hk hj

/-- The roots are the same without a tree that stood below one of them. -/
theorem Hung.roots_keys (h : Hung t o l r f' f) (hn : f.keys.Nodup) :
    f'.roots.map (·.key) =
      if o = none then (f.roots.map (·.key)).erase t.root.key else f.roots.map (·.key) := by
  cases o with
  | none =>
    obtain ⟨hwithout, hwith⟩ := h.childrenOf_owner hn
    have hroots := nodup_keys_childrenOf hn none
    rw [hwith, List.map_append, List.map_cons, List.nodup_append] at hroots
    have hout : t.root.key ∉ l.map (·.key) := fun hin =>
      hroots.2.2 _ hin _ List.mem_cons_self rfl
    change (f'.childrenOf none).map _ = if _ then ((f.childrenOf none).map _).erase _ else _
    rw [hwithout, hwith, if_pos rfl, List.map_append, List.map_append, List.map_cons,
      List.erase_append_right _ hout, List.erase_cons_head]
  | some k =>
    have hsame : f.roots = f'.roots := h.childrenOf_of_ne none nofun nofun
    rw [if_neg nofun, hsame]

/-! ### The links of a forest -/

/-- The links of the groups of a forest, of which some are listed as roots. -/
def hierarchy (f : Forest) (rs : List GroupKey) : Hierarchy where
  parent k := (f.parent? k).map (·.key)
  children k := (f.childrenOf (some k)).map (·.key)
  roots := rs

theorem agrees_hierarchy (hn : f.keys.Nodup) (rs : List GroupKey) : (f.hierarchy rs).Agrees := by
  refine ⟨fun k p => ⟨fun h => ?_, fun h => ?_⟩, fun p => nodup_keys_childrenOf hn _⟩
  · obtain ⟨b, c, he, rfl, rfl⟩ := exists_edge_of_above hn h
    exact List.mem_map_of_mem (List.mem_map.2 ⟨(b, c), by simpa using he, rfl⟩)
  · obtain ⟨c, hc, rfl⟩ := List.mem_map.1 h
    obtain ⟨b, rfl, he⟩ := exists_edge_of_mem_childrenOf hc
    exact above_of_mem_edges hn he

theorem climbs_hierarchy (hn : f.keys.Nodup) {found : Bool} :
    (f.hierarchy rs).Climbs above k found ↔ f.descends k above = found := by
  have hway : Relation.TransGen (f.hierarchy rs).Above above k ↔ f.descends k above = true :=
    (descends_iff hn k above).symm
  have hwf : WellFounded (f.hierarchy rs).Above := wellFounded_above hn
  rw [Hierarchy.climbs_iff_transGen hwf, hway, ← Bool.eq_iff_iff, eq_comm]

/-- Where the lists of children are those of a forest, its groups are listed in its order. -/
theorem collects_keys (hn : f.keys.Nodup) {l : Hierarchy}
    (hl : ∀ u ∈ f.keys, l.children u = (f.childrenOf (some u)).map (·.key)) :
    l.Collects (f.roots.map (·.key)) f.keys := by
  induction f with
  | nil => exact .nil
  | cons a cs rest ihc ih =>
    have hbelow : l.Collects (l.children a.key) cs.keys := by
      rw [hl a.key (by simp [keys_cons]), childrenOf_root hn]
      refine ihc (keys_nodup_children hn) fun u hu => ?_
      rw [hl u (by simp [keys_cons, hu]), childrenOf_of_mem_children hn hu]
    have hrest : l.Collects (rest.roots.map (·.key)) rest.keys := by
      refine ih (keys_nodup_rest hn) fun u hu => ?_
      rw [hl u (by simp [keys_cons, hu]), childrenOf_of_mem_rest hn hu]
    rw [keys_cons]
    exact .cons hbelow hrest

/-- What is listed below a group are the groups of its tree. -/
theorem collects_hierarchy (hn : f.keys.Nodup) (ht : f.tree? k = some t) {ks : List GroupKey} :
    (f.hierarchy rs).Collects [k] ks ↔ t.preorder.map (·.key) = ks := by
  obtain ⟨f', o, l, r, -, hung⟩ := exists_hung ht
  have hlist : (f.hierarchy rs).Collects [k] (t.preorder.map (·.key)) := by
    have htree := collects_keys (l := f.hierarchy rs) (hung.keys_nodup_tree hn) fun u hu =>
      congrArg (List.map Group.key) (hung.childrenOf_of_mem hn hu)
    rw [keys_ofTree] at htree
    rw [← key_of_tree? ht]
    exact htree
  exact ⟨hlist.unique, fun h => h ▸ hlist⟩

theorem hierarchy_map {h : Group → Group} (hkey : ∀ b, (h b).key = b.key) (hn : f.keys.Nodup)
    (rs : List GroupKey) : (f.map h).hierarchy rs = f.hierarchy rs := by
  have hkeys : (f.map h).keys = f.keys := by
    simp only [keys, preorder_map, List.map_map, Function.comp_def, hkey]
  refine (agrees_hierarchy (hkeys ▸ hn) rs).eq (agrees_hierarchy hn rs) (fun q => ?_) rfl
  simp only [hierarchy, childrenOf_map hkey, List.map_map, Function.comp_def, hkey]

/-! ### Trees that are taken and put somewhere else -/

namespace Hung

/-- A tree is taken out of the list in which it stands. It stands by itself then. -/
theorem hierarchy_take (h : Hung t o l r f' f) (hn : f.keys.Nodup)
    (hrs : rs' = if o = none then rs.erase t.root.key else rs) :
    (f'.plant t).hierarchy rs' = (f.hierarchy rs).take t.root.key := by
  have hplant := hung_plant f' t
  have hn' := h.keys_nodup_move hplant hn
  have hagrees := agrees_hierarchy hn rs
  refine (agrees_hierarchy hn' rs').eq (hagrees.take _) (fun q => ?_) ?_
  · rw [hagrees.children_take]
    simp only [hierarchy, h.childrenOf_move hplant hn, List.filter_map]
    simp [Function.comp_def]
  · have hparent : (f.hierarchy rs).parent t.root.key = o := h.parent? hn
    rw [Hierarchy.take, hparent]
    cases o with
    | none => exact hrs
    | some p => exact hrs

/-- A tree that stands by itself becomes the last child of a group. -/
theorem hierarchy_link (h : Hung t none l r f' f) (h' : Hung t (some p) l' [] f' f'')
    (hn : f.keys.Nodup) (rs : List GroupKey) :
    f''.hierarchy rs = (f.hierarchy rs).link p t.root.key := by
  have hn' := h.keys_nodup_move h' hn
  have hagrees := agrees_hierarchy hn rs
  have hroot : (f.hierarchy rs).parent t.root.key = none := h.parent? hn
  refine (agrees_hierarchy hn' rs).eq (hagrees.link hroot p) (fun q => ?_) rfl
  have hsame : (f.childrenOf (some q)).filter (·.key ≠ t.root.key) = f.childrenOf (some q) := by
    refine List.filter_eq_self.2 fun b hb => decide_eq_true fun e => ?_
    exact hagrees.not_mem hroot q (e ▸ List.mem_map_of_mem hb)
  rw [Hierarchy.children_link]
  simp only [hierarchy, h.childrenOf_move h' hn, hsame, List.map_append, Option.some.injEq]
  split <;> rfl

/-- Where a tree stands among the roots does not matter to the links. -/
theorem hierarchy_root (h : Hung t none l r f' f) (h' : Hung t none l' r' f' f'')
    (hn : f.keys.Nodup) (rs rs' : List GroupKey) :
    f''.hierarchy rs' = { f.hierarchy rs with roots := rs' } := by
  have hn' := h.keys_nodup_move h' hn
  refine (agrees_hierarchy hn' rs').eq ⟨(agrees_hierarchy hn rs).parent_iff,
    (agrees_hierarchy hn rs).nodup⟩ (fun q => congrArg (List.map Group.key) ?_) rfl
  by_cases hq : q ∈ (ofTree t).keys
  · rw [h.childrenOf_of_mem hn hq, h'.childrenOf_of_mem hn' hq]
  · rw [h.childrenOf_of_not_mem hq, h'.childrenOf_of_not_mem hq]

/-- A group without children that stands by itself has no links. -/
theorem hierarchy_leaf {b : Group} (h : Hung ⟨b, .nil⟩ none l [] f' f) (hn : f.keys.Nodup)
    (rs : List GroupKey) : f.hierarchy rs = f'.hierarchy rs := by
  refine (agrees_hierarchy hn rs).eq (agrees_hierarchy (h.keys_nodup hn) rs) (fun q => ?_) rfl
  refine congrArg (List.map Group.key) ?_
  rw [h.childrenOf_leaf hn, if_neg nofun, List.append_nil]

/-- A tree that stands by itself is destroyed. -/
theorem hierarchy_forget (h : Hung t none l r f' f) (hn : f.keys.Nodup) (rs : List GroupKey) :
    f'.hierarchy rs = (f.hierarchy rs).forget (ofTree t).keys := by
  have hn' := h.keys_nodup hn
  have hagrees := agrees_hierarchy hn rs
  have hclosed {k p : GroupKey} (hp : (f.hierarchy rs).parent k = some p) :
      k ∈ (ofTree t).keys ↔ p ∈ (ofTree t).keys := by
    obtain ⟨c, hc, rfl⟩ := List.mem_map.1 ((hagrees.parent_iff k p).1 hp)
    by_cases hmem : p ∈ (ofTree t).keys
    · rw [h.childrenOf_of_mem hn hmem] at hc
      exact iff_of_true (Forest.mem_keys (childrenOf_subset _ _ hc)) hmem
    · rw [h.childrenOf_of_not_mem hmem] at hc
      have hout := fun hin => h.disjoint hn hin (Forest.mem_keys (childrenOf_subset _ _ hc))
      exact iff_of_false hout hmem
  refine (agrees_hierarchy hn' rs).eq (hagrees.forget hclosed) (fun q => ?_) rfl
  simp only [Hierarchy.forget, hierarchy]
  split
  · next hq => rw [childrenOf_eq_nil (h.disjoint hn hq), List.map_nil]
  · next hq => rw [h.childrenOf_of_not_mem hq]

/-- A tree that stands by itself is handed over to a group, unless that group is in the tree. -/
theorem adds_hierarchy (h : Hung t none l r f' f) (hn : f.keys.Nodup) (rs : List GroupKey)
    (p : GroupKey) :
    (f.hierarchy rs).Adds p t.root.key (if p ∈ (ofTree t).keys
      then (false, (f.hierarchy rs).forget (ofTree t).keys)
      else (true, (f.hierarchy rs).link p t.root.key)) := by
  have ht := h.tree? hn
  have hbelow := mem_keys_ofTree_iff (p := p) hn ht
  split
  · next hin =>
    rw [hbelow] at hin
    have hlist : (f.hierarchy rs).Collects [t.root.key] (ofTree t).keys :=
      (collects_hierarchy hn ht).2 (keys_ofTree t).symm
    by_cases hp : t.root.key = p
    · exact .itself hp hlist
    · exact .above hp ((climbs_hierarchy hn).2 (hin.resolve_left hp)) hlist
  · next hout =>
    rw [hbelow] at hout
    obtain ⟨hne, hclimbs⟩ := not_or.1 hout
    exact .added hne ((climbs_hierarchy hn).2 (Bool.not_eq_true _ ▸ hclimbs))

end Hung

end Forest

namespace Graph
open Forest

variable {g : Graph} {a c k p above : GroupKey} {t : Tree} {ks : List GroupKey}

/-- The links of the groups of a graph and of those beside it. -/
def hierarchy (g : Graph) : Hierarchy :=
  (g.groups.append g.loose).hierarchy (g.groups.roots.map (·.key))

/-- A group stands by itself beside the graph, so that whoever has it may hand it over. -/
def Held (g : Graph) (a : GroupKey) : Prop := ∃ b ∈ g.loose.roots, b.key = a

section Keys
variable (hn : (g.clusters.map (·.key)).Nodup)
include hn

/-! ### Questions -/

/-- A group is the parent of those that it lists as its children. -/
theorem agrees_links : g.hierarchy.Agrees := agrees_hierarchy (keys_append_nodup hn) _

theorem parent_links (c : GroupKey) : g.hierarchy.parent c = (g.parent? c).map (·.key) := by
  rw [parent?_eq hn]
  rfl

/-- Going from parent to parent finds a group exactly if the forest has it above the other one. -/
theorem climbs_iff {found : Bool} :
    g.hierarchy.Climbs above k found ↔ g.descends k above = found := by
  rw [descends_eq hn]
  exact climbs_hierarchy (keys_append_nodup hn)

/-- The graph lists the topmost group above a group exactly if the group is in its forest. -/
theorem owned_iff {owned : Bool} : g.hierarchy.Owned k owned ↔ g.ownsGroup k = owned := by
  have hnested := Nested.of_keys_nodup hn
  have habove : g.hierarchy.Above = g.Above := (above_eq hn).symm
  have hroots : ∀ r ∈ g.hierarchy.roots, g.hierarchy.parent r = none := by
    rintro _ hr
    obtain ⟨b, hb, rfl⟩ := List.mem_map.1 hr
    have hall : b ∈ (g.groups.append g.loose).roots := by
      rw [roots_append]
      exact List.mem_append_left _ hb
    exact congrArg (Option.map Group.key)
      (parent?_of_owns (o := none) (keys_append_nodup hn) hall)
  have howns : (∃ r ∈ g.hierarchy.roots, Relation.ReflTransGen g.Above r k) ↔
      g.ownsGroup k = true := by
    rw [hnested.owns_iff]
    simp [hierarchy, Forest.hierarchy]
  rw [Hierarchy.owned_iff (habove ▸ hnested.wellFounded) hroots, habove, howns,
    ← Bool.eq_iff_iff, eq_comm]

/-- What lies below a group is listed in the order of the forest. -/
theorem collects_iff (ht : g.tree? k = some t) :
    g.hierarchy.Collects [k] ks ↔ t.preorder.map (·.key) = ks :=
  collects_hierarchy (keys_append_nodup hn) (by rwa [tree?_append])

/-- All groups of the graph are listed in the order of the forest. -/
theorem collects_roots_iff :
    g.hierarchy.Collects g.hierarchy.roots ks ↔ g.allGroups.map (·.key) = ks := by
  have hlist : g.hierarchy.Collects g.hierarchy.roots (g.allGroups.map (·.key)) := by
    refine collects_keys (keys_groups_nodup hn) fun u hu => ?_
    simp only [hierarchy, Forest.hierarchy, childrenOf_append]
    rw [childrenOf_eq_nil (not_mem_loose hn hu), List.append_nil]
  exact ⟨hlist.unique, fun h => h ▸ hlist⟩

/-! ### Changes -/

/-- Groups that change and keep their keys are linked as before. -/
theorem hierarchy_of_map {h : Graph} {f : Group → Group} (hkey : ∀ b, (f b).key = b.key)
    (hgroups : h.groups = g.groups.map f) (hloose : h.loose = g.loose.map f) :
    h.hierarchy = g.hierarchy := by
  have hroots : (g.groups.map f).roots.map (·.key) = g.groups.roots.map (·.key) := by
    simp only [roots_map, List.map_map, Function.comp_def, hkey]
  rw [hierarchy, hgroups, hloose, hroots, ← map_append,
    hierarchy_map hkey (keys_append_nodup hn), hierarchy]

/-- A group that stands by itself can be taken from beside the graph. -/
theorem Held.exists_hung (ha : g.Held a) : ∃ t loose l r, t.root.key = a ∧
    g.loose.detach? a = some (t, loose) ∧ (g.groups.append g.loose).tree? a = some t ∧
    Hung t none l r (g.groups.append loose) (g.groups.append g.loose) := by
  obtain ⟨b, hb, rfl⟩ := ha
  obtain ⟨t, loose, l, r, hkey, hd, hung⟩ := exists_hung_of_root (keys_loose_nodup hn) hb
  have hall := hung.append_left g.groups
  exact ⟨t, loose, _, r, hkey, hd, hkey ▸ hall.tree? (keys_append_nodup hn), hall⟩

/-- A group that becomes part of the graph is its last root. -/
theorem hierarchy_registerGroup (ha : g.Held a) :
    (g.registerGroup a).hierarchy = g.hierarchy.addRoot a := by
  obtain ⟨t, loose, l, r, hkey, hd, -, hall⟩ := ha.exists_hung hn
  have hroots : (g.groups.plant t).roots.map (·.key) = g.groups.roots.map (·.key) ++ [a] := by
    rw [plant, roots_append, List.map_append, ← hkey]
    rfl
  simp only [registerGroup, hd, hierarchy, hroots]
  exact hall.hierarchy_root ((hung_plant g.groups t).append_right loose) (keys_append_nodup hn) _ _

/-- A group beside the graph is destroyed with all that lies below it. -/
theorem hierarchy_dropGroup (ha : g.Held a) (hks : g.hierarchy.Collects [a] ks) :
    (g.dropGroup a).hierarchy = g.hierarchy.forget ks := by
  obtain ⟨t, loose, l, r, -, hd, htree, hall⟩ := ha.exists_hung hn
  have ht := tree?_of_detach? hd
  have hF := keys_append_nodup hn
  have hn' : (({ g with loose } : Graph).clusters.map (·.key)).Nodup := by
    have hkeys := hall.keys_nodup hF
    rwa [keys, preorder_append] at hkeys
  have hforget : ({ g with loose } : Graph).hierarchy = g.hierarchy.forget ks := by
    rw [← (collects_hierarchy hF htree).1 hks, ← keys_ofTree]
    exact hall.hierarchy_forget hF _
  simp only [dropGroup, ht, (detach?_clearTree g).2 hd]
  rw [← hforget]
  exact hierarchy_of_map hn' (Group.key_emptied _) (groups_clearTree g t).1 rfl

/-- A group that is handed over to another one is its last child then. If it is that group itself,
or lies above it, it is destroyed. -/
theorem adds_adoptGroup (hc : g.Held c) (hp : (g.group? p).isSome = true) :
    g.hierarchy.Adds p c
      ((g.adoptGroup p (some c)).1.isOk, (g.adoptGroup p (some c)).2.hierarchy) := by
  obtain ⟨t, loose, l, r, hkey, hd, htree, hall⟩ := hc.exists_hung hn
  have ht := tree?_of_detach? hd
  have hF := keys_append_nodup hn
  have hin := mem_keys_ofTree_iff (p := p) hF htree
  have hadds := hall.adds_hierarchy hF (g.groups.roots.map (·.key)) p
  rw [← descends_eq hn] at hin
  rw [hkey] at hadds
  split at hadds
  · next hbelow =>
    rw [hin] at hbelow
    have hks : g.hierarchy.Collects [c] (ofTree t).keys :=
      (collects_hierarchy hF htree).2 (keys_ofTree t).symm
    have hadopt : g.adoptGroup p (some c) = (.error (.cyclic t.root.name), g.dropGroup c) := by
      simp only [adoptGroup, Option.bind_some, ht, hkey, hbelow, if_true]
    rw [hadopt, hierarchy_dropGroup hn hc hks]
    exact hadds
  · next hout =>
    have hpin : p ∈ (g.groups.append loose).keys := by
      have hpF : p ∈ (g.groups.append g.loose).keys := by
        rw [keys_append, List.mem_append, mem_keys_iff_get?, mem_keys_iff_get?, ← Bool.or_eq_true,
          ← Option.isSome_or]
        exact hp
      exact (List.mem_append.1 (hall.keys_perm.mem_iff.1 hpF)).resolve_left hout
    have hn' := hall.keys_nodup hF
    rw [hin] at hout
    have hadopt : g.adoptGroup p (some c) = (.ok c,
        { g with loose := loose.adopt p t, groups := g.groups.adopt p t }) := by
      simp only [adoptGroup, Option.bind_some, ht, hkey, hout, if_false, hd]
    have hlinked : ({ g with loose := loose.adopt p t, groups := g.groups.adopt p t } :
        Graph).hierarchy = g.hierarchy.link p c := by
      have hlink := hall.hierarchy_link (hung_adopt hn' hpin t) hF (g.groups.roots.map (·.key))
      rw [adopt_append hn', hkey] at hlink
      simp only [Graph.hierarchy, roots_adopt]
      exact hlink
    rw [hadopt, hlinked]
    exact hadds

/-- A group that is taken out of the list in which it stood stands by itself. -/
theorem hierarchy_take {o : Option GroupKey} {l r : List Group} {groups : Forest}
    (h : Hung t o l r groups g.groups) :
    ((groups.append g.loose).plant t).keys.Nodup ∧
      ((groups.append g.loose).plant t).hierarchy (groups.roots.map (·.key)) =
        g.hierarchy.take t.root.key := by
  have hF := keys_append_nodup hn
  have hall := h.append_right g.loose
  exact ⟨hall.keys_nodup_move (hung_plant _ t) hF,
    hall.hierarchy_take hF (h.roots_keys (keys_groups_nodup hn))⟩

/-- The same for a group beside the graph that had a parent there. -/
theorem hierarchy_take_loose {l r : List Group} {loose : Forest}
    (h : Hung t (some p) l r loose g.loose) :
    ((g.groups.append loose).plant t).hierarchy (g.groups.roots.map (·.key)) =
      g.hierarchy.take t.root.key := by
  have hlisted : g.groups.roots.map (·.key) = if some p = none
      then (g.groups.roots.map (·.key)).erase t.root.key else g.groups.roots.map (·.key) :=
    (if_neg (Option.some_ne_none p)).symm
  exact (h.append_left g.groups).hierarchy_take (keys_append_nodup hn) hlisted

/-- A group of the graph is destroyed with all that lies below it. -/
theorem removes_removeGroup (a : GroupKey) :
    g.hierarchy.Removes a ((g.removeGroup a).1, (g.removeGroup a).2.hierarchy) := by
  cases ha : g.ownsGroup a with
  | false =>
    have hnone : g.groups.tree? a = none := by
      rw [← Bool.not_eq_true, ownsGroup_iff] at ha
      exact tree?_eq_none ha
    rw [removeGroup_of_not_owned hnone]
    exact .foreign ((owned_iff hn).2 ha)
  | true =>
    obtain ⟨t, ht⟩ := exists_tree? ha
    obtain ⟨groups, o, l, r, hd, hung⟩ := exists_hung ht
    obtain ⟨hnplant, htake⟩ := hierarchy_take hn hung
    have hplant := hung_plant (groups.append g.loose) t
    have hkey := key_of_tree? ht
    rw [hkey] at htake
    have hlist : (g.hierarchy.take a).Collects [a] (ofTree t).keys := by
      rw [← htake, keys_ofTree]
      exact (collects_hierarchy hnplant (hkey ▸ hplant.tree? hnplant)).2 rfl
    have hremoved : g.removeGroup a = (true, (g.removeGroup a).2) ∧
        (g.removeGroup a).2.hierarchy = (g.hierarchy.take a).forget (ofTree t).keys := by
      have hn' : (({ g with groups } : Graph).clusters.map (·.key)).Nodup := by
        have hkeys := (hung.append_right g.loose).keys_nodup (keys_append_nodup hn)
        rwa [keys, preorder_append] at hkeys
      simp only [removeGroup, ht, (detach?_clearTree g).1 hd, true_and]
      rw [← htake, ← hplant.hierarchy_forget hnplant]
      exact hierarchy_of_map hn' (Group.key_emptied _) rfl (groups_clearTree g t).2
    rw [hremoved.1, hremoved.2]
    exact .removed ((owned_iff hn).2 ha) hlist

/-- A child that a group lets go of stands by itself. -/
theorem release_hierarchy (p c : GroupKey) : g.hierarchy.release p c =
    ((g.releaseGroup p c).1, (g.releaseGroup p c).2.hierarchy) := by
  have hF := keys_append_nodup hn
  have hchild : c ∈ g.hierarchy.children p ↔ (g.parent? c).any (fun b => b.key = p) = true := by
    rw [← (agrees_links hn).parent_iff, parent_links hn]
    cases g.parent? c <;> simp
  by_cases hp : c ∈ g.hierarchy.children p
  · have hparent : g.hierarchy.parent c = some p := ((agrees_links hn).parent_iff c p).2 hp
    have htake : g.hierarchy.take c = g.hierarchy.unlink p c := by rw [Hierarchy.take, hparent]
    simp only [Hierarchy.release, if_pos hp, releaseGroup, if_pos (hchild.1 hp), ← htake]
    by_cases hc : c ∈ g.groups.keys
    · obtain ⟨t, ht⟩ := exists_tree?_of_mem hc
      obtain ⟨groups, o, l, r, hd, hung⟩ := exists_hung ht
      rw [hd, ← key_of_tree? ht, ← (hierarchy_take hn hung).2, plant, append_assoc]
      rfl
    · have hnone : g.groups.detach? c = none := by
        rw [← Option.map_eq_none_iff (f := Prod.fst), detach?_map_fst, tree?_eq_none hc]
      have hloose : c ∈ g.loose.keys := by
        obtain ⟨_, b, hedge, -, rfl⟩ := exists_edge_of_above hF hparent
        have hall := mem_keys (mem_of_mem_edges hedge).2
        rw [keys_append] at hall
        exact (List.mem_append.1 hall).resolve_left hc
      obtain ⟨t, ht⟩ := exists_tree?_of_mem hloose
      obtain ⟨loose, o, l, r, hd, hung⟩ := exists_hung ht
      have hkey := key_of_tree? ht
      obtain rfl : o = some p :=
        ((hung.append_left g.groups).parent? hF).symm.trans (hkey ▸ hparent)
      rw [hnone, hd, ← hkey, ← hierarchy_take_loose hn hung, plant, append_assoc]
      rfl
  · simp only [Hierarchy.release, if_neg hp, releaseGroup, if_neg (mt hchild.2 hp)]

/-- The forest admits a move exactly if the links do. -/
theorem admits_canReparent (a : GroupKey) (parent : Option GroupKey) :
    g.hierarchy.Admits a parent (g.canReparent a parent) := by
  cases ha : g.ownsGroup a with
  | false =>
    have hno : g.canReparent a parent = false := by simp [canReparent, ha]
    exact hno ▸ .foreign ((owned_iff hn).2 ha)
  | true =>
    have howned := (owned_iff hn).2 ha
    cases parent with
    | none =>
      have hyes : g.canReparent a none = true := by simp [canReparent, ha]
      exact hyes ▸ .root howned
    | some p =>
      cases hp : g.ownsGroup p with
      | false =>
        have hno : g.canReparent a (some p) = false := by simp [canReparent, hp]
        exact hno ▸ .foreignParent howned ((owned_iff hn).2 hp)
      | true =>
        by_cases hne : p = a
        · have hno : g.canReparent a (some p) = false := by simp [canReparent, hne]
          subst hne
          exact hno ▸ .itself howned
        · have hdescends : g.descends p a = g.groups.descends p a :=
            descends_of_mem hn ((ownsGroup_iff g a).1 ha) p
          have hasked : g.canReparent a (some p) = !g.descends p a := by
            simp [canReparent, ha, hp, hne, hdescends]
          exact hasked ▸ .asked howned ((owned_iff hn).2 hp) hne ((climbs_iff hn).2 rfl)

/-- A group of the graph gets another parent, or becomes a root. -/
theorem reparents_reparentGroup (a : GroupKey) (parent : Option GroupKey) :
    g.hierarchy.Reparents a parent
      ((g.reparentGroup a parent).1, (g.reparentGroup a parent).2.hierarchy) := by
  have hadmits := admits_canReparent hn a parent
  cases hcan : g.canReparent a parent with
  | false =>
    rw [reparentGroup_of_refused hcan]
    exact .refused (hcan ▸ hadmits)
  | true =>
    rw [hcan] at hadmits
    have hparent : (g.groups.parent? a).map (·.key) = g.hierarchy.parent a := by
      have ha := ((canReparent_iff (keys_groups_nodup hn) a parent).1 hcan).1
      rw [parent_links hn, parent?_of_mem hn ((ownsGroup_iff g a).1 ha)]
    by_cases hstay : g.hierarchy.parent a = parent
    · rw [reparentGroup_of_parent hcan (hparent.trans hstay)]
      exact .stays hadmits hstay
    · obtain ⟨t, o, l, r, l', f, groups, ht, hung, hung', heq⟩ :=
        exists_hung_of_canReparent (keys_groups_nodup hn) hcan (hparent ▸ hstay)
      obtain rfl := key_of_tree? ht
      obtain ⟨hnplant, htake⟩ := hierarchy_take hn hung
      have hplant := hung_plant (f.append g.loose) t
      have hn' := hung.keys_nodup_move hung' (keys_groups_nodup hn)
      rw [heq]
      cases parent with
      | none =>
        have hroots : groups.roots.map (·.key) = f.roots.map (·.key) ++ [t.root.key] := by
          obtain ⟨hwithout, hwith⟩ := hung'.childrenOf_owner hn'
          change (groups.childrenOf none).map _ = (f.childrenOf none).map _ ++ _
          rw [hwithout, hwith, List.append_nil, List.map_append]
          rfl
        have hraised : ({ g with groups } : Graph).hierarchy =
            (g.hierarchy.take t.root.key).addRoot t.root.key := by
          rw [← htake, Graph.hierarchy, hroots]
          exact hplant.hierarchy_root (hung'.append_right g.loose) hnplant _ _
        exact hraised ▸ .raised hadmits hstay
      | some p =>
        have hright : Hung t (some p) l' [] (f.append g.loose) (groups.append g.loose) := by
          simpa using hung'.append_right g.loose
        have hout : p ∉ (ofTree t).keys := fun hin =>
          (hung.append_right g.loose).disjoint (keys_append_nodup hn) hin (hright.owner_mem rfl)
        have hroots : groups.roots = f.roots := hung'.childrenOf_of_ne none nofun nofun
        have hadds := hplant.adds_hierarchy hnplant (f.roots.map (·.key)) p
        rw [if_neg hout, ← hplant.hierarchy_link hright hnplant, htake, ← hroots] at hadds
        exact .moved hadmits hstay hadds

end Keys

/-- A group that was just made has no links, and whoever names it makes none. -/
theorem hierarchy_newGroup (hg : Grouped g) (id name : String) (bounds : Rect Float) :
    ((g.newGroup name bounds).2.modifyGroup (g.newGroup name bounds).1
      fun b => { b with id }).hierarchy = g.hierarchy := by
  have hn' := (hg.newGroup name bounds).keys_nodup
  have hnew : (g.newGroup name bounds).2.hierarchy = g.hierarchy := by
    have hplant := hung_plant g.loose ⟨⟨g.nextGroup, g.freshId.1, name, bounds, []⟩, .nil⟩
    exact (hplant.append_left g.groups).hierarchy_leaf (keys_append_nodup hn') _
  rw [← hnew]
  exact hierarchy_of_map hn' (fun b => by split <;> rfl) rfl rfl

end Graph

/-! ### One change after the other -/

/-- What a change of groups does to their links. -/
inductive Hierarchy.Does (l : Hierarchy) : Edit → Hierarchy → Prop where
  | newGroup (id name : String) (bounds : Rect Float) : Does l (.newGroup id name bounds) l
  | registerGroup (a : GroupKey) : Does l (.registerGroup a) (l.addRoot a)
  | adoptGroup {p c : GroupKey} {added : Bool} {l' : Hierarchy} (h : l.Adds p c (added, l')) :
    Does l (.adoptGroup p (some c)) l'
  | releaseGroup (p c : GroupKey) : Does l (.releaseGroup p c) (l.release p c).2
  | reparentGroup {a : GroupKey} {parent : Option GroupKey} {moved : Bool} {l' : Hierarchy}
    (h : l.Reparents a parent (moved, l')) : Does l (.reparentGroup a parent) l'
  | removeGroup {a : GroupKey} {removed : Bool} {l' : Hierarchy} (h : l.Removes a (removed, l')) :
    Does l (.removeGroup a) l'
  | dropGroup {a : GroupKey} {ks : List GroupKey} (hks : l.Collects [a] ks) :
    Does l (.dropGroup a) (l.forget ks)

/-- What changes of groups do to their links, one after the other. -/
inductive Hierarchy.DoesAll : Hierarchy → List Edit → Hierarchy → Prop where
  | nil (l : Hierarchy) : DoesAll l [] l
  | cons {l l' l'' : Hierarchy} {e : Edit} {es : List Edit} (h : l.Does e l')
    (hrest : DoesAll l' es l'') : DoesAll l (e :: es) l''

theorem Hierarchy.Does.unique {l l' l'' : Hierarchy} {e : Edit} (h : l.Does e l')
    (h' : l.Does e l'') : l' = l'' := by
  cases h with
  | newGroup | registerGroup | releaseGroup =>
    cases h'
    rfl
  | adoptGroup h =>
    cases h' with
    | adoptGroup h' => exact congrArg Prod.snd (h.unique h')
  | reparentGroup h =>
    cases h' with
    | reparentGroup h' => exact congrArg Prod.snd (h.unique h')
  | removeGroup h =>
    cases h' with
    | removeGroup h' => exact congrArg Prod.snd (h.unique h')
  | dropGroup h =>
    cases h' with
    | dropGroup h' => rw [h.unique h']

/-- An operation changes groups, and those that it hands over are at hand. -/
def Edit.Regroups (g : Graph) : Edit → Prop
  | newGroup .. | releaseGroup .. | reparentGroup .. | removeGroup _ => True
  | registerGroup a | dropGroup a => g.Held a
  | adoptGroup p (some c) => (g.group? p).isSome = true ∧ g.Held c
  | _ => False

/-- Each of some operations changes groups of the graph that those before it lead to. -/
def Edit.AllRegroup (g : Graph) : List Edit → Prop
  | [] => True
  | e :: es => e.Regroups g ∧ AllRegroup (e.apply g) es

theorem Edit.Regroups.admissible {g : Graph} {e : Edit} (h : e.Regroups g) : e.Admissible g := by
  cases e with
  | adoptGroup p c =>
    cases c with
    | none => exact h.elim
    | some c => exact h.1
  | _ => trivial

namespace Graph
variable {g : Graph} {e : Edit} {es : List Edit} {l : Hierarchy}

/-- A change of groups does to the links what it does to the forest. -/
theorem does_iff (hg : Grouped g) (he : e.Regroups g) :
    g.hierarchy.Does e l ↔ (e.apply g).hierarchy = l := by
  have hn := hg.keys_nodup
  have hdoes : g.hierarchy.Does e (e.apply g).hierarchy := by
    cases e with
    | newGroup id name bounds =>
      exact (hierarchy_newGroup hg id name bounds).symm ▸ .newGroup id name bounds
    | registerGroup a => exact hierarchy_registerGroup hn he ▸ .registerGroup a
    | adoptGroup p c =>
      cases c with
      | none => exact he.elim
      | some c => exact .adoptGroup (adds_adoptGroup hn he.2 he.1)
    | releaseGroup p c =>
      have hrelease : (g.hierarchy.release p c).2 = (g.releaseGroup p c).2.hierarchy :=
        congrArg Prod.snd (release_hierarchy hn p c)
      exact hrelease ▸ .releaseGroup p c
    | reparentGroup a parent => exact .reparentGroup (reparents_reparentGroup hn a parent)
    | removeGroup a => exact .removeGroup (removes_removeGroup hn a)
    | dropGroup a =>
      obtain ⟨t, loose, l, r, -, -, htree, -⟩ := he.exists_hung hn
      rw [Forest.tree?_append] at htree
      have hks := (collects_iff hn htree).2 rfl
      exact hierarchy_dropGroup hn he hks ▸ .dropGroup hks
    | _ => exact he.elim
  exact ⟨hdoes.unique, fun h => h ▸ hdoes⟩

/-- Changes of groups, whatever they are and however many, do to the links what they do to the
forest. -/
theorem doesAll_iff (hg : Grouped g) (he : Edit.AllRegroup g es) :
    g.hierarchy.DoesAll es l ↔ (es.foldl Edit.apply g).hierarchy = l := by
  induction es generalizing g with
  | nil =>
    constructor
    · rintro ⟨⟩
      rfl
    · rintro rfl
      exact .nil _
  | cons e es ih =>
    have hrest := ih (hg.apply e he.1.admissible) he.2
    rw [List.foldl_cons, ← hrest]
    constructor
    · intro hall
      cases hall with
      | cons h hrest => exact (does_iff hg he.1).1 h ▸ hrest
    · exact .cons ((does_iff hg he.1).2 rfl)

end Graph
end Patchbay
