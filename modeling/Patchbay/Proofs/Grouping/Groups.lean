import Patchbay.Proofs.Grouping.Grouped
import Patchbay.Proofs.Grouping.Roll
/-!
# Groups and nodes that come and go

Groups move about in the graph and beside it with all that they have, and take their members
along. A group that is destroyed lets its members go first, and a node that is destroyed leaves
its group. So groups and nodes agree whatever is done to a graph.

## Main definitions

* `Group.emptied`: a group without its members, if it is one of those that go.

## Main statements

* `Graph.Grouped.adoptGroup`, `Graph.Grouped.removeGroup`: groups move and are destroyed.
* `Reachable.grouped`: groups and nodes agree in every graph that editing leads to.
-/
namespace Patchbay

/-- The group without its members, if it is one of those that go. -/
def Group.emptied (gone : List GroupKey) (b : Group) : Group :=
  if b.key ∈ gone then { b with members := [] } else b

@[simp] theorem Group.key_emptied (gone : List GroupKey) (b : Group) :
    (b.emptied gone).key = b.key := by
  simp only [emptied]
  split <;> rfl

/-- The tree without any members. -/
def Tree.emptied (t : Tree) : Tree :=
  ⟨t.root.emptied (t.preorder.map (·.key)),
    t.children.map (Group.emptied (t.preorder.map (·.key)))⟩

theorem Tree.members_of_emptied {t : Tree} {b : Group} (hb : b ∈ t.emptied.preorder) :
    b.members = [] := by
  have hmap : t.emptied.preorder = t.preorder.map (Group.emptied (t.preorder.map (·.key))) := by
    simp [Tree.preorder, emptied]
  obtain ⟨c, hc, rfl⟩ := List.mem_map.1 (hmap ▸ hb)
  rw [Group.emptied, if_pos (List.mem_map_of_mem hc)]

namespace Graph

/-- Groups that are cleared one after the other lose their members. -/
theorem groups_foldl_clearGroup (ks : List GroupKey) (g : Graph) :
    (ks.foldl clearGroup g).groups = g.groups.map (Group.emptied ks) ∧
      (ks.foldl clearGroup g).loose = g.loose.map (Group.emptied ks) := by
  have hnil (f : Forest) : f.map (Group.emptied []) = f :=
    Forest.map_eq_self fun b _ => by simp [Group.emptied]
  have hcons (k : GroupKey) (ks : List GroupKey) :
      Group.emptied ks ∘ (fun b => if b.key = k then { b with members := [] } else b) =
        Group.emptied (k :: ks) := by
    funext b
    simp only [Function.comp_apply, Group.emptied, List.mem_cons]
    by_cases hk : b.key = k <;> by_cases hks : b.key ∈ ks <;> simp [hk, hks]
  induction ks generalizing g with
  | nil => simp [hnil]
  | cons k ks ih =>
    obtain ⟨hgroups, hloose⟩ := groups_clearGroup g k
    rw [List.foldl_cons, (ih _).1, (ih _).2, hgroups, hloose, Forest.modify, Forest.modify,
      Forest.map_map, Forest.map_map, hcons]
    exact ⟨rfl, rfl⟩

theorem groups_clearTree (g : Graph) (t : Tree) :
    (g.clearTree t).groups = g.groups.map (Group.emptied (t.preorder.map (·.key))) ∧
      (g.clearTree t).loose = g.loose.map (Group.emptied (t.preorder.map (·.key))) := by
  rw [clearTree, ← List.foldl_map]
  exact groups_foldl_clearGroup _ g

/-- A tree is taken out of the cleared graph as it would have been before. -/
theorem detach?_clearTree (g : Graph) {t : Tree} {f : Forest} {a : GroupKey} :
    (g.groups.detach? a = some (t, f) → (g.clearTree t).groups.detach? a =
      some (t.emptied, f.map (Group.emptied (t.preorder.map (·.key))))) ∧
    (g.loose.detach? a = some (t, f) → (g.clearTree t).loose.detach? a =
      some (t.emptied, f.map (Group.emptied (t.preorder.map (·.key))))) := by
  obtain ⟨hgroups, hloose⟩ := groups_clearTree g t
  constructor <;> intro h
  · rw [hgroups, Forest.detach?_map (Group.key_emptied _), h]
    rfl
  · rw [hloose, Forest.detach?_map (Group.key_emptied _), h]
    rfl

namespace Grouped
variable {g h : Graph}

/-! ### Groups that move -/

/-- Where the groups stand does not matter. -/
theorem rearrange (hg : Grouped g) {groups loose : Forest}
    (hperm : (groups.preorder ++ loose.preorder).Perm g.clusters) :
    Grouped { g with groups, loose } :=
  hg.congr (hperm.map _) (fun _ => rfl) (Nat.le_refl _)

theorem keys_groups_nodup (hg : Grouped g) : g.groups.keys.Nodup :=
  Graph.keys_groups_nodup hg.keys_nodup

theorem keys_loose_nodup (hg : Grouped g) : g.loose.keys.Nodup :=
  Graph.keys_loose_nodup hg.keys_nodup

/-- No group is in the graph and beside it. -/
theorem not_mem_loose (hg : Grouped g) {a : GroupKey} (ha : a ∈ g.groups.keys) :
    a ∉ g.loose.keys := Graph.not_mem_loose hg.keys_nodup ha

theorem registerGroup (hg : Grouped g) (a : GroupKey) : Grouped (g.registerGroup a) := by
  simp only [Graph.registerGroup]
  split
  · next t loose hd =>
    refine hg.rearrange ?_
    rw [Forest.preorder_plant, List.append_assoc]
    exact (Forest.preorder_detach? hd).symm.append_left _
  · exact hg

theorem releaseGroup (hg : Grouped g) (parent child : GroupKey) :
    Grouped (g.releaseGroup parent child).2 := by
  simp only [Graph.releaseGroup]
  split
  · split
    · next t groups hd =>
      refine hg.rearrange ?_
      rw [Forest.preorder_plant, ← List.append_assoc]
      refine List.perm_append_comm.trans ?_
      rw [← List.append_assoc]
      exact (Forest.preorder_detach? hd).symm.append_right _
    · split
      · next t loose hd =>
        refine hg.rearrange ?_
        rw [Forest.preorder_plant]
        exact (List.perm_append_comm.trans (Forest.preorder_detach? hd).symm).append_left _
      · exact hg
  · exact hg

theorem reparentGroup (hg : Grouped g) (a : GroupKey) (parent : Option GroupKey) :
    Grouped (g.reparentGroup a parent).2 := by
  simp only [Graph.reparentGroup]
  split
  · next hcan =>
    split
    · exact hg
    · split
      · next t groups hd =>
        split
        · next p _ =>
          obtain ⟨-, hp⟩ := (Bool.and_eq_true _ _).mp hcan
          simp only [Bool.and_eq_true, decide_eq_true_eq, Bool.not_eq_true'] at hp
          obtain ⟨⟨hp, hne⟩, hbelow⟩ := hp
          have hmem : p ∈ g.groups.keys := (Forest.mem_keys_iff_get? _ _).2 hp
          have hperm := Forest.preorder_adopt_detach? hg.keys_groups_nodup hd hmem hne hbelow
          exact hg.rearrange (hperm.append_right _)
        · refine hg.rearrange (.append_right _ ?_)
          rw [Forest.preorder_plant]
          exact List.perm_append_comm.trans (Forest.preorder_detach? hd).symm
      · exact hg
  · exact hg

/-! ### Groups that go -/

/-- Groups without members are destroyed. -/
theorem withdraw (hg : Grouped g) (gone : List Group)
    (hperm : g.clusters.Perm (gone ++ h.clusters)) (hempty : ∀ b ∈ gone, b.members = [])
    (hnodes : h.nodes = g.nodes) (hnext : h.nextGroup = g.nextGroup) : Grouped h := by
  have hnode (k : NodeKey) : h.node? k = g.node? k := by simp only [node?, hnodes]
  have hin {b : Group} (hb : b ∈ h.clusters) : b ∈ g.clusters :=
    hperm.mem_iff.2 (List.mem_append_right _ hb)
  refine ⟨?_, ?_, fun b hb => hg.members_nodup b (hin hb), ?_, ?_, ?_⟩
  · have hn := (hperm.map (·.key)).nodup_iff.1 hg.keys_nodup
    rw [List.map_append, List.nodup_append] at hn
    exact hn.2.1
  · intro b hb
    exact hnext ▸ hg.keys_lt b (hin hb)
  · intro b hb k hk
    rw [hnode]
    exact hg.listed b (hin hb) k hk
  · intro k n a hn hna
    rw [hnode] at hn
    obtain ⟨b, hb, hba, hbi, hk⟩ := hg.grouped hn hna
    refine ⟨b, ?_, hba, hbi, hk⟩
    rcases List.mem_append.1 (hperm.mem_iff.1 hb) with hb | hb
    · rw [hempty b hb] at hk
      cases hk
    · exact hb
  · intro k n hn hna
    rw [hnode] at hn
    exact hg.ungrouped hn hna

theorem removeGroup (hg : Grouped g) (a : GroupKey) : Grouped (g.removeGroup a).2 := by
  simp only [Graph.removeGroup]
  split
  · exact hg
  · next t ht =>
    obtain ⟨f, hf⟩ := Forest.detach?_of_tree? ht
    have hd := (detach?_clearTree g).1 hf
    rw [hd]
    refine (hg.clearTree t).withdraw t.emptied.preorder ?_ (fun _ => Tree.members_of_emptied)
      rfl rfl
    have hperm := (Forest.preorder_detach? hd).append_right (g.clearTree t).loose.preorder
    rwa [List.append_assoc] at hperm

theorem dropGroup (hg : Grouped g) (a : GroupKey) : Grouped (g.dropGroup a) := by
  simp only [Graph.dropGroup]
  split
  · exact hg
  · next t ht =>
    obtain ⟨f, hf⟩ := Forest.detach?_of_tree? ht
    have hd := (detach?_clearTree g).2 hf
    rw [hd]
    refine (hg.clearTree t).withdraw t.emptied.preorder ?_ (fun _ => Tree.members_of_emptied)
      rfl rfl
    have hperm := (Forest.preorder_detach? hd).append_left (g.clearTree t).groups.preorder
    exact hperm.trans (List.perm_append_comm_assoc _ _ _)

/-- A loose tree that moves below a group takes its groups along, and no group is lost. -/
theorem clusters_adopt (hg : Grouped g) {parent c : GroupKey} {t : Tree} {loose : Forest}
    (hd : g.loose.detach? c = some (t, loose)) (hne : parent ≠ c)
    (hbelow : g.loose.descends parent c = false)
    (hp : parent ∈ g.groups.keys ∨ parent ∈ g.loose.keys) :
    ((g.groups.adopt parent t).preorder ++ (loose.adopt parent t).preorder).Perm g.clusters := by
  rcases hp with hp | hp
  · have hout : parent ∉ loose.keys := fun h =>
      hg.not_mem_loose hp (((Forest.preorder_detach? hd).map (·.key)).mem_iff.2
        (by rw [List.map_append]; exact List.mem_append_right _ h))
    rw [Forest.adopt_of_not_mem hout]
    have hperm := Forest.preorder_adopt hg.keys_groups_nodup hp t
    refine (hperm.append_right _).trans ?_
    rw [List.append_assoc]
    refine (List.perm_append_comm_assoc _ _ _).trans ?_
    exact (Forest.preorder_detach? hd).symm.append_left _
  · have hout : parent ∉ g.groups.keys := fun h => hg.not_mem_loose h hp
    rw [Forest.adopt_of_not_mem hout]
    have hperm := Forest.preorder_adopt_detach? hg.keys_loose_nodup hd hp hne hbelow
    exact hperm.append_left _

/-- A loose group becomes a child of another one, or is destroyed if it cannot. -/
theorem adoptGroup (hg : Grouped g) {parent : GroupKey} (hp : (g.group? parent).isSome)
    (child : Option GroupKey) : Grouped (g.adoptGroup parent child).2 := by
  simp only [Graph.adoptGroup]
  split
  · exact hg
  · next t ht =>
    obtain ⟨c, rfl, ht⟩ := Option.bind_eq_some_iff.1 ht
    split
    · exact hg.dropGroup _
    · next hcan =>
      rw [not_or, descends, Bool.or_eq_true, not_or, Bool.not_eq_true, Bool.not_eq_true] at hcan
      split
      · next t' loose hd =>
        refine hg.rearrange (hg.clusters_adopt hd (Ne.symm hcan.1) hcan.2.2 ?_)
        rw [Forest.mem_keys_iff_get?, Forest.mem_keys_iff_get?, ← Bool.or_eq_true]
        rwa [group?, Option.isSome_or] at hp
      · exact hg

/-! ### Groups that come -/

/-- A group without members comes with a fresh key. -/
theorem addGroup (hg : Grouped g) {b : Group} (hkey : b.key = g.nextGroup) (hb : b.members = [])
    (hclusters : h.clusters = g.clusters ++ [b]) (hnodes : h.nodes = g.nodes)
    (hnext : h.nextGroup = g.nextGroup + 1) : Grouped h := by
  have hnode (k : NodeKey) : h.node? k = g.node? k := by simp only [node?, hnodes]
  have hin {c : Group} (hc : c ∈ h.clusters) : c ∈ g.clusters ∨ c = b := by
    rwa [hclusters, List.mem_append, List.mem_singleton] at hc
  refine ⟨?_, fun c hc => ?_, fun c hc => ?_, fun c hc k hk => ?_, ?_, ?_⟩
  · rw [hclusters, List.map_append, List.nodup_append]
    refine ⟨hg.keys_nodup, List.nodup_singleton _, fun i hi j hj => ?_⟩
    obtain ⟨c, hc, rfl⟩ := List.mem_map.1 hi
    obtain rfl : j = b.key := List.mem_singleton.1 hj
    exact hkey ▸ Nat.ne_of_lt (hg.keys_lt c hc)
  · rw [hnext]
    rcases hin hc with hc | rfl
    · exact Nat.lt_succ_of_lt (hg.keys_lt c hc)
    · exact hkey ▸ Nat.lt_succ_self _
  · rcases hin hc with hc | rfl
    · exact hg.members_nodup c hc
    · exact hb ▸ List.nodup_nil
  · rw [hnode]
    rcases hin hc with hc | rfl
    · exact hg.listed c hc k hk
    · rw [hb] at hk
      cases hk
  · intro k n a hn hna
    rw [hnode] at hn
    obtain ⟨c, hc, hrest⟩ := hg.grouped hn hna
    exact ⟨c, hclusters ▸ List.mem_append_left _ hc, hrest⟩
  · intro k n hn hna
    rw [hnode] at hn
    exact hg.ungrouped hn hna

theorem clusters_newGroup (g : Graph) (name : String) (bounds : Rect Float) :
    (g.newGroup name bounds).2.clusters =
      g.clusters ++ [{ key := g.nextGroup, id := g.freshId.1, name, bounds }] := by
  simp only [Graph.newGroup, freshId, clusters, Forest.preorder_plant, Tree.preorder,
    Forest.preorder, List.append_assoc]

theorem newGroup (hg : Grouped g) (name : String) (bounds : Rect Float) :
    Grouped (g.newGroup name bounds).2 :=
  hg.addGroup rfl rfl (clusters_newGroup g name bounds) rfl rfl

/-- A new group takes another id while it has no members. -/
theorem newGroup_withId (hg : Grouped g) (id name : String) (bounds : Rect Float) :
    Grouped ((g.newGroup name bounds).2.modifyGroup (g.newGroup name bounds).1
      fun b => { b with id }) := by
  refine hg.addGroup (b := ⟨g.nextGroup, id, name, bounds, []⟩) rfl rfl ?_ rfl rfl
  rw [clusters_modifyGroup, clusters_newGroup, List.map_append]
  have hold : g.clusters.map (fun b => if b.key = g.nextGroup then { b with id } else b) =
      g.clusters.map fun b => b :=
    List.map_congr_left fun b hb => if_neg (Nat.ne_of_lt (hg.keys_lt b hb))
  rw [List.map_id'] at hold
  refine congrArg₂ (· ++ ·) hold ?_
  simp [Graph.newGroup, freshId]

/-! ### Nodes that come and go -/

theorem newNode (hg : Grouped g) {n : Node} (hn : n.Fresh) : Grouped (g.newNode n).2 := by
  have hnode := node?_newNode g n
  refine ⟨hg.keys_nodup, hg.keys_lt, hg.members_nodup, fun b hb k hk => ?_, ?_, ?_⟩
  · obtain ⟨m, hm, hmb⟩ := hg.listed b hb k hk
    have hne : k ≠ g.nodes.next := Nat.ne_of_lt (Arena.lt_next_of_get? hm)
    exact ⟨m, by rw [hnode, if_neg hne, hm], hmb⟩
  · intro k m a hm hma
    rw [hnode] at hm
    split at hm
    · cases hm
      rw [hn.group] at hma
      cases hma
    · exact hg.grouped hm hma
  · intro k m hm hma
    rw [hnode] at hm
    split at hm
    · cases hm
      exact hn.groupId
    · exact hg.ungrouped hm hma

theorem dropNode (hg : Grouped g) (k : NodeKey) : Grouped (g.dropNode k) := by
  obtain ⟨l, hsame, hdrop⟩ := exists_dropNode g k
  have hrest := (hg.leaveAnyGroup k).of_sameCore hsame
  rw [hdrop]
  have hnode := node?_eraseNode l k
  refine ⟨hrest.keys_nodup, hrest.keys_lt, hrest.members_nodup, fun b hb j hj => ?_, ?_, ?_⟩
  · obtain ⟨n, hn, hnb⟩ := hrest.listed b hb j hj
    refine ⟨n, ?_, hnb⟩
    rw [hnode, if_neg ?_, hn]
    rintro rfl
    obtain ⟨m, hm, hcore⟩ := hsame.node? hn
    have hfree := hg.group_leaveAnyGroup hm
    rw [show n.group = m.group from (congrArg Node.group hcore).symm, hfree] at hnb
    cases hnb
  · intro j n a hn hna
    rw [hnode] at hn
    split at hn
    · cases hn
    · exact hrest.grouped hn hna
  · intro j n hn hna
    rw [hnode] at hn
    split at hn
    · cases hn
    · exact hrest.ungrouped hn hna

/-- Which nodes are members of the graph and which one is the main node does not matter. -/
theorem withMembers (hg : Grouped g) (members : List NodeKey) (index : Dict NodeKey)
    (mainId : Option String) : Grouped { g with members, index, mainId } :=
  hg.congr (.refl _) (fun _ => rfl) (Nat.le_refl _)

theorem insertNode (hg : Grouped g) (k : NodeKey) : Grouped (g.insertNode k).2 := by
  simp only [Graph.insertNode]
  split
  · exact hg
  · split
    · exact hg.dropNode k
    · exact hg.withMembers _ _ _

theorem removeNode (hg : Grouped g) (k : NodeKey) : Grouped (g.removeNode k).2 := by
  rcases removeNode_cases g k with h | ⟨n, l, mainId, -, -, a, -, h⟩
  · rwa [h]
  · rw [h]
    exact (((hg.of_sameCore a).leaveAnyGroup k).withMembers _ _ _).dropNode k

theorem moveNodeToGroup (hg : Grouped g) (k : NodeKey) (a : Option GroupKey) :
    Grouped (g.moveNodeToGroup k a).2 := by
  simp only [Graph.moveNodeToGroup]
  split
  · next hk =>
    have hk : (g.node? k).isSome := by
      obtain ⟨n, hn, -⟩ := (Option.any_eq_true _ _).1 hk
      simp [hn]
    split
    · have hleft := hg.leaveAnyGroup k
      refine hleft.modifyNode k fun n hn => ?_
      have hnone := hg.group_leaveAnyGroup hn
      simp [Node.tie, hleft.ungrouped hn hnone]
    · split
      · next a ha =>
        refine hg.joinGroup ?_ hk
        rw [group?, Option.isSome_or]
        exact Bool.or_eq_true_iff.2 (.inl ha)
      · exact hg
  · exact hg

/-! ### Layouts -/

theorem setBounds (hg : Grouped g) (a : GroupKey) (f : Rect Float → Rect Float) :
    Grouped (Layout.setBounds g a f) := hg.modifyGroup a fun _ => rfl

theorem isSome_group?_newGroup {name : String} {bounds : Rect Float} {a : GroupKey}
    (ha : (g.group? a).isSome) : ((g.newGroup name bounds).2.group? a).isSome := by
  rw [group?_eq, List.find?_isSome] at ha
  obtain ⟨b, hb, hba⟩ := ha
  rw [group?_eq, List.find?_isSome, clusters_newGroup]
  exact ⟨b, List.mem_append_left _ hb, hba⟩

theorem createGroup (hg : Grouped g) (name : String) (bounds : Rect Float)
    (parent : Option GroupKey) : Grouped (Layout.createGroup g name bounds parent).2 := by
  have hnew := hg.newGroup name bounds
  simp only [Layout.createGroup]
  split
  · exact hnew.registerGroup _
  · split
    · next p hp =>
      refine hnew.adoptGroup (isSome_group?_newGroup ?_) _
      rw [group?, Option.isSome_or]
      exact Bool.or_eq_true_iff.2 (.inl hp)
    · exact hg

theorem fit (hg : Grouped g) (l : Layout) (a : GroupKey) (padding : Float) :
    Grouped (l.fit g a padding) := by
  simp only [Layout.fit]
  split
  · exact hg
  · exact hg.setBounds a _

theorem expandAround (hg : Grouped g) (l : Layout) (a : GroupKey) (k : NodeKey)
    (padding : Float) : Grouped (l.expandAround g a k padding) := by
  simp only [Layout.expandAround]
  split
  · exact hg.setBounds a _
  · exact hg

theorem addToGroup (hg : Grouped g) (l : Layout) (k : NodeKey) (a : GroupKey) (adjust : Bool)
    (padding : Float) : Grouped (l.addNode g k a adjust padding).2 := by
  have hmove := hg.moveNodeToGroup k (some a)
  simp only [Layout.addNode]
  split
  · next h hm =>
    rw [hm] at hmove
    split
    · exact hmove.expandAround l a k padding
    · exact hmove
  · next h hm =>
    rw [hm] at hmove
    exact hmove

theorem removeFromGroup (hg : Grouped g) (k : NodeKey) (a : GroupKey) :
    Grouped (Layout.removeNode g k a).2 := by
  simp only [Layout.removeNode]
  split
  · exact hg.moveNodeToGroup k none
  · exact hg

theorem createGroupAround (hg : Grouped g) (l : Layout) (name : String)
    (ks : List (Option NodeKey)) (padding : Float) (parent : Option GroupKey) :
    Grouped (l.createGroupAround g name ks padding parent).2 := by
  have hcreate := hg.createGroup name (l.boundsOf g (Layout.listed ks) padding) parent
  simp only [Layout.createGroupAround]
  split
  · next h hc =>
    rw [hc] at hcreate
    exact hcreate
  · next a h hc =>
    rw [hc] at hcreate
    have hadded := foldl (fun k hg => hg.addToGroup l k a false 0) (Layout.listed ks) hcreate
    exact hadded.fit l a padding

theorem moveOne (hg : Grouped g) (dx dy : Float) (withNodes : Bool) (b : Group) :
    Grouped (Layout.moveOne dx dy withNodes g b) := by
  have hmoved := hg.setBounds b.key (·.translate dx dy)
  simp only [Layout.moveOne]
  split
  · refine foldl (fun k hg => ?_) b.members hmoved
    exact hg.modifyNode k fun _ _ => rfl
  · exact hmoved

theorem moveGroup (hg : Grouped g) (a : GroupKey) (dx dy : Float)
    (withNodes withChildren : Bool) :
    Grouped (Layout.moveGroup g a dx dy withNodes withChildren) := by
  simp only [Layout.moveGroup]
  split
  · exact hg
  · exact foldl (fun b hg => hg.moveOne dx dy withNodes b) _ hg

theorem constrain (hg : Grouped g) (l : Layout) (a : GroupKey) (k : NodeKey)
    (wanted : Point Float) (grow : Bool) (padding : Float) :
    Grouped (l.constrain g a k wanted grow padding).2 := by
  simp only [Layout.constrain]
  split
  · exact hg.setBounds a fun _ => _
  · exact hg

/-! ### All operations -/

theorem new (ids : IdSupply) (name : String) (category : Category) :
    Grouped (.new ids name category) := by
  have hnone (k : NodeKey) : (Graph.new ids name category).node? k = none := Arena.get?_empty k
  refine ⟨List.nodup_nil, by simp [clusters, Graph.new, Forest.preorder],
    by simp [clusters, Graph.new, Forest.preorder],
    by simp [clusters, Graph.new, Forest.preorder], ?_, ?_⟩
  · intro k n a hn
    simp [hnone] at hn
  · intro k n hn
    simp [hnone] at hn

/-- Every operation keeps groups and nodes in agreement. -/
theorem apply (hg : Grouped g) (e : Edit) (he : e.Admissible g) : Grouped (e.apply g) := by
  cases e with
  | newNode n => exact hg.newNode he
  | insertNode k => exact hg.insertNode k
  | dropNode k => exact hg.dropNode k
  | removeNode k => exact hg.removeNode k
  | removeNodeWithId id =>
    simp only [Edit.apply, removeNodeWithId]
    split
    · exact hg.removeNode _
    · exact hg
  | connect s t => exact hg.of_sameCore (sameCore_connect g s t)
  | connectNamed a output b input =>
    simp only [Edit.apply, connectNamed]
    split
    · exact hg.of_sameCore (sameCore_connect g _ _)
    · exact hg
  | removeWire w => exact hg.of_sameCore (sameCore_removeWire g w)
  | removeWireWithId id =>
    simp only [Edit.apply, removeWireWithId]
    split
    · exact hg.of_sameCore (sameCore_removeWire g _)
    · exact hg
  | setId | setName | setCategory | setPolicy =>
    exact hg.of_sameCore (sameCore_of_eq rfl rfl rfl rfl rfl rfl rfl)
  | setMain id =>
    simp only [Edit.apply, setMain]
    split
    · exact hg.withMembers _ _ _
    · split
      · exact hg.withMembers _ _ _
      · exact hg
  | nameNode k | placeNode k | enableNode k => exact hg.modifyNode k fun _ _ => rfl
  | setValue r v => exact hg.of_sameCore (sameCore_modifyPin g r _)
  | newGroup id name bounds => exact hg.newGroup_withId id name bounds
  | dropGroup a => exact hg.dropGroup a
  | nameGroup a | setBounds a => exact hg.modifyGroup a fun _ => rfl
  | joinGroup a k => exact hg.joinGroup he.1 he.2
  | leaveGroup a k => exact hg.leaveGroup a k
  | clearGroup a => exact hg.clearGroup a
  | adoptGroup parent child => exact hg.adoptGroup he child
  | releaseGroup parent child => exact hg.releaseGroup parent child
  | registerGroup a => exact hg.registerGroup a
  | removeGroup a => exact hg.removeGroup a
  | moveNodeToGroup k a => exact hg.moveNodeToGroup k a
  | reparentGroup a parent => exact hg.reparentGroup a parent
  | createGroup name bounds parent => exact hg.createGroup name bounds parent
  | createGroupAround l name ks padding parent =>
    exact hg.createGroupAround l name ks padding parent
  | addToGroup l k a adjust padding => exact hg.addToGroup l k a adjust padding
  | removeFromGroup k a => exact hg.removeFromGroup k a
  | moveGroup a dx dy withNodes withChildren => exact hg.moveGroup a dx dy withNodes withChildren
  | fit l a padding => exact hg.fit l a padding
  | expandAround l a k padding => exact hg.expandAround l a k padding
  | constrain l a k wanted grow padding => exact hg.constrain l a k wanted grow padding

end Grouped
end Graph

/-- Groups and nodes agree in every graph that editing leads to. -/
theorem Reachable.grouped {g : Graph} (h : Reachable g) : g.Grouped := by
  induction h with
  | new ids name category => exact Graph.Grouped.new ids name category
  | edit _ e he ih => exact ih.apply e he

end Patchbay
