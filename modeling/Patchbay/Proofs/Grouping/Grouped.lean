import Patchbay.Proofs.Grouping.Core
import Patchbay.Proofs.Grouping.Forest
/-!
# Nodes and groups that agree

A membership is told twice: the group lists its members, and the node names its group, together
with the id of the group. Wherever a group stands, in the graph or beside it, both sides agree.

## Main definitions

* `Graph.clusters`: all groups, in the graph and beside it.
* `Graph.Grouped`: groups and nodes tell the same memberships.

## Main statements

* `Graph.Grouped.leaveAnyGroup`, `Graph.Grouped.joinGroup`: a node leaves its group or changes it.
* `Graph.Grouped.clearTree`: the members of groups are ungrouped.
-/
namespace Patchbay

/-- What a group tells about its members. -/
def Group.tie (b : Group) : GroupKey × String × List NodeKey := (b.key, b.id, b.members)

/-- What a node tells about its group. -/
def Node.tie (n : Node) : Option GroupKey × Option String := (n.group, n.groupId)

namespace Graph

/-- All groups, in the graph and beside it. -/
def clusters (g : Graph) : List Group := g.groups.preorder ++ g.loose.preorder

/-- Groups and nodes tell the same memberships, and no two groups have one key. -/
structure Grouped (g : Graph) : Prop where
  keys_nodup : (g.clusters.map (·.key)).Nodup
  keys_lt : ∀ b ∈ g.clusters, b.key < g.nextGroup
  members_nodup : ∀ b ∈ g.clusters, b.members.Nodup
  listed : ∀ b ∈ g.clusters, ∀ k ∈ b.members, ∃ n, g.node? k = some n ∧ n.group = some b.key
  grouped : ∀ {k n a}, g.node? k = some n → n.group = some a →
    ∃ b ∈ g.clusters, b.key = a ∧ n.groupId = some b.id ∧ k ∈ b.members
  ungrouped : ∀ {k n}, g.node? k = some n → n.group = none → n.groupId = none

theorem group?_eq (g : Graph) (a : GroupKey) :
    g.group? a = g.clusters.find? (fun b => b.key = a) := by
  rw [group?, Forest.get?_eq, Forest.get?_eq, clusters, List.find?_append]

theorem clusters_modifyGroup (g : Graph) (a : GroupKey) (f : Group → Group) :
    (g.modifyGroup a f).clusters = g.clusters.map fun b => if b.key = a then f b else b := by
  simp [clusters, modifyGroup, Forest.modify]

@[simp] theorem clusters_modifyNode (g : Graph) (k : NodeKey) (f : Node → Node) :
    (g.modifyNode k f).clusters = g.clusters := rfl

@[simp] theorem node?_modifyGroup (g : Graph) (a : GroupKey) (f : Group → Group) (k : NodeKey) :
    (g.modifyGroup a f).node? k = g.node? k := rfl

theorem group?_of_mem {g : Graph} (hn : (g.clusters.map (·.key)).Nodup) {b : Group}
    (hb : b ∈ g.clusters) : g.group? b.key = some b := by
  rw [group?_eq]
  exact find?_key_of_mem hn hb

theorem mem_of_group? {g : Graph} {a : GroupKey} {b : Group} (h : g.group? a = some b) :
    b ∈ g.clusters ∧ b.key = a := by
  rw [group?_eq] at h
  exact ⟨List.mem_of_find?_eq_some h, by simpa using List.find?_some h⟩

theorem keys_groups_nodup {g : Graph} (hn : (g.clusters.map (·.key)).Nodup) :
    g.groups.keys.Nodup := by
  rw [clusters, List.map_append, List.nodup_append] at hn
  exact hn.1

theorem keys_loose_nodup {g : Graph} (hn : (g.clusters.map (·.key)).Nodup) :
    g.loose.keys.Nodup := by
  rw [clusters, List.map_append, List.nodup_append] at hn
  exact hn.2.1

/-- No group is in the graph and beside it. -/
theorem not_mem_loose {g : Graph} (hn : (g.clusters.map (·.key)).Nodup) {a : GroupKey}
    (ha : a ∈ g.groups.keys) : a ∉ g.loose.keys := by
  rw [clusters, List.map_append, List.nodup_append] at hn
  exact fun h => hn.2.2 a ha a h rfl

theorem node?_foldl_modifyNode (f : Node → Node) {ks : List NodeKey} (hn : ks.Nodup) (g : Graph)
    (k : NodeKey) : (ks.foldl (fun g k => g.modifyNode k f) g).node? k =
      if k ∈ ks then (g.node? k).map f else g.node? k := by
  induction ks generalizing g with
  | nil => simp
  | cons j ks ih =>
    obtain ⟨hj, hn⟩ := List.nodup_cons.1 hn
    rw [List.foldl_cons, ih hn, node?_modifyNode]
    by_cases hjk : j = k
    · subst hjk
      simp [hj]
    · simp [hjk, Ne.symm hjk]

/-- Changing some nodes has no effect on groups. -/
theorem groups_foldl_modifyNode (f : Node → Node) (ks : List NodeKey) (g : Graph) :
    let h := ks.foldl (fun g k => g.modifyNode k f) g
    h.groups = g.groups ∧ h.loose = g.loose ∧ h.nextGroup = g.nextGroup := by
  induction ks generalizing g with
  | nil => exact ⟨rfl, rfl, rfl⟩
  | cons k ks ih => exact ih (g.modifyNode k f)

theorem groups_clearGroup (g : Graph) (a : GroupKey) :
    (g.clearGroup a).groups = g.groups.modify a (fun b => { b with members := [] }) ∧
      (g.clearGroup a).loose = g.loose.modify a (fun b => { b with members := [] }) := by
  simp only [clearGroup, modifyGroup]
  obtain ⟨hgroups, hloose, -⟩ := groups_foldl_modifyNode
    (fun n => if n.group = some a then { n with group := none, groupId := none } else n)
    (((g.group? a).map (·.members)).getD []) g
  rw [hgroups, hloose]
  exact ⟨rfl, rfl⟩

theorem clusters_clearGroup (g : Graph) (a : GroupKey) :
    (g.clearGroup a).clusters =
      g.clusters.map fun b => if b.key = a then { b with members := [] } else b := by
  simp [clusters, groups_clearGroup, Forest.modify]

theorem nextGroup_clearGroup (g : Graph) (a : GroupKey) :
    (g.clearGroup a).nextGroup = g.nextGroup :=
  (groups_foldl_modifyNode _ _ g).2.2

theorem node?_clearGroup (g : Graph) (a : GroupKey)
    (hn : (((g.group? a).map (·.members)).getD []).Nodup) (k : NodeKey) :
    (g.clearGroup a).node? k =
      if k ∈ ((g.group? a).map (·.members)).getD [] then
        (g.node? k).map fun n =>
          if n.group = some a then { n with group := none, groupId := none } else n
      else g.node? k := by
  rw [clearGroup, node?_modifyGroup, node?_foldl_modifyNode _ hn]

theorem isSome_node?_leaveAnyGroup (g : Graph) (k j : NodeKey) :
    ((g.leaveAnyGroup k).node? j).isSome = (g.node? j).isSome := by
  rw [leaveAnyGroup]
  split
  · rw [leaveGroup]
    split
    · rw [node?_modifyNode, node?_modifyGroup]
      split
      · exact Option.isSome_map
      · rfl
    · rfl
  · rfl

theorem isSome_group?_leaveAnyGroup (g : Graph) (k : NodeKey) (a : GroupKey) :
    ((g.leaveAnyGroup k).group? a).isSome = (g.group? a).isSome := by
  rw [leaveAnyGroup]
  split
  · rw [leaveGroup]
    split
    · rw [group?_eq, group?_eq, clusters_modifyNode, clusters_modifyGroup]
      rw [Bool.eq_iff_iff, List.find?_isSome, List.find?_isSome]
      simp only [List.mem_map, exists_exists_and_eq_and]
      refine exists_congr fun b => and_congr_right fun _ => ?_
      split <;> rfl
    · rfl
  · rfl

namespace Grouped
variable {g h : Graph}

/-- Two groups with one key are one group. -/
theorem eq_of_key_eq (hg : Grouped g) {b c : Group} (hb : b ∈ g.clusters) (hc : c ∈ g.clusters)
    (h : b.key = c.key) : b = c :=
  List.inj_on_of_nodup_map hg.keys_nodup hb hc h

/-- Groups and nodes agree after steps each of which keeps them in agreement. -/
theorem foldl {α : Type} {f : Graph → α → Graph} (hf : ∀ {g} x, Grouped g → Grouped (f g x))
    (xs : List α) (hg : Grouped g) : Grouped (xs.foldl f g) := by
  induction xs generalizing g with
  | nil => exact hg
  | cons x xs ih => exact ih (hf x hg)

/-- Names and regions of groups do not matter, nor where groups stand. -/
theorem congr (hg : Grouped g)
    (hclusters : (h.clusters.map Group.tie).Perm (g.clusters.map Group.tie))
    (hnodes : ∀ k, (h.node? k).map Node.tie = (g.node? k).map Node.tie)
    (hnext : g.nextGroup ≤ h.nextGroup) : Grouped h := by
  have hgroup {b : Group} (hb : b ∈ h.clusters) : ∃ c ∈ g.clusters, c.tie = b.tie :=
    List.mem_map.1 (hclusters.mem_iff.1 (List.mem_map_of_mem hb))
  have hgroup' {b : Group} (hb : b ∈ g.clusters) : ∃ c ∈ h.clusters, c.tie = b.tie :=
    List.mem_map.1 (hclusters.mem_iff.2 (List.mem_map_of_mem hb))
  have hnode {k : NodeKey} {n : Node} (hn : h.node? k = some n) :
      ∃ m, g.node? k = some m ∧ m.tie = n.tie := by
    have hk := hnodes k
    rw [hn, Option.map_some] at hk
    exact Option.map_eq_some_iff.1 hk.symm
  have hnode' {k : NodeKey} {n : Node} (hn : g.node? k = some n) :
      ∃ m, h.node? k = some m ∧ m.tie = n.tie := by
    have hk := hnodes k
    rw [hn, Option.map_some] at hk
    exact Option.map_eq_some_iff.1 hk
  simp only [Group.tie, Node.tie, Prod.mk.injEq] at hgroup hgroup' hnode hnode'
  refine ⟨?_, ?_, ?_, ?_, ?_, ?_⟩
  · have hkeys := hclusters.map (·.1)
    simp only [List.map_map, Function.comp_def, Group.tie] at hkeys
    exact hkeys.nodup_iff.2 hg.keys_nodup
  · intro b hb
    obtain ⟨c, hc, hk, -, -⟩ := hgroup hb
    rw [← hk]
    exact Nat.lt_of_lt_of_le (hg.keys_lt c hc) hnext
  · intro b hb
    obtain ⟨c, hc, -, -, hm⟩ := hgroup hb
    exact hm ▸ hg.members_nodup c hc
  · intro b hb k hk
    obtain ⟨c, hc, hkey, -, hm⟩ := hgroup hb
    obtain ⟨n, hn, hng⟩ := hg.listed c hc k (hm ▸ hk)
    obtain ⟨m, hm, hmg, -⟩ := hnode' hn
    exact ⟨m, hm, by rw [hmg, hng, hkey]⟩
  · intro k n a hn hng
    obtain ⟨m, hm, hmg, hmi⟩ := hnode hn
    obtain ⟨c, hc, hk, hid, hmem⟩ := hg.grouped hm (hmg.trans hng)
    obtain ⟨b, hb, hbk, hbi, hbm⟩ := hgroup' hc
    exact ⟨b, hb, hbk.trans hk, by rw [← hmi, hid, hbi], hbm ▸ hmem⟩
  · intro k n hn hng
    obtain ⟨m, hm, hmg, hmi⟩ := hnode hn
    rw [← hmi]
    exact hg.ungrouped hm (hmg.trans hng)

/-- What wiring does to a graph does not matter. -/
theorem of_sameCore (hg : Grouped g) (a : SameCore g h) : Grouped h := by
  refine hg.congr ?_ (fun k => ?_) (Nat.le_of_eq a.nextGroup.symm)
  · simp only [clusters, a.groups, a.loose]
    exact .refl _
  · have hk := congrArg (Option.map Node.tie) (a.nodes k)
    rwa [Option.map_map, Option.map_map, show Node.tie ∘ Node.core = Node.tie from rfl] at hk

/-- Names and regions of groups do not matter. -/
theorem modifyGroup (hg : Grouped g) (a : GroupKey) {f : Group → Group}
    (hf : ∀ b, (f b).tie = b.tie) : Grouped (g.modifyGroup a f) := by
  refine hg.congr ?_ (fun _ => rfl) (Nat.le_refl _)
  rw [clusters_modifyGroup, List.map_map]
  refine .of_eq (List.map_congr_left fun b _ => ?_)
  simp only [Function.comp_apply]
  split
  · exact hf b
  · rfl

/-- Names, places and all else that has nothing to do with groups do not matter. -/
theorem modifyNode (hg : Grouped g) (k : NodeKey) {f : Node → Node}
    (hf : ∀ n, g.node? k = some n → (f n).tie = n.tie) : Grouped (g.modifyNode k f) := by
  refine hg.congr (.refl _) (fun j => ?_) (Nat.le_refl _)
  rw [node?_modifyNode]
  split
  · next hkj =>
    subst hkj
    cases hn : g.node? k with
    | none => rfl
    | some n => exact congrArg some (hf n hn)
  · rfl

/-- The members of a group are the nodes that name it. -/
theorem mem_members_iff (hg : Grouped g) {b : Group} (hb : b ∈ g.clusters) (k : NodeKey) :
    k ∈ b.members ↔ ∃ n, g.node? k = some n ∧ n.group = some b.key := by
  refine ⟨hg.listed b hb k, ?_⟩
  rintro ⟨n, hn, hng⟩
  obtain ⟨c, hc, hkey, -, hk⟩ := hg.grouped hn hng
  rwa [hg.eq_of_key_eq hb hc hkey.symm]

/-- Groups may get other members if the nodes tell the same. -/
theorem of_map (hg : Grouped g) {f : Group → Group} (hclusters : h.clusters = g.clusters.map f)
    (hkey : ∀ b, (f b).key = b.key) (hid : ∀ b, (f b).id = b.id)
    (hnext : h.nextGroup = g.nextGroup) (hnodup : ∀ b ∈ g.clusters, (f b).members.Nodup)
    (hlisted : ∀ b ∈ g.clusters, ∀ k ∈ (f b).members,
      ∃ n, h.node? k = some n ∧ n.group = some b.key)
    (hgrouped : ∀ {k n a}, h.node? k = some n → n.group = some a →
      ∃ b ∈ g.clusters, b.key = a ∧ n.groupId = some b.id ∧ k ∈ (f b).members)
    (hungrouped : ∀ {k n}, h.node? k = some n → n.group = none → n.groupId = none) :
    Grouped h := by
  have hfrom {b : Group} (hb : b ∈ h.clusters) : ∃ c ∈ g.clusters, f c = b := by
    rw [hclusters] at hb
    exact List.mem_map.1 hb
  refine ⟨?_, fun b hb => ?_, fun b hb => ?_, fun b hb k hk => ?_, fun {k n a} hn hna => ?_,
    hungrouped⟩
  · have hkeys : g.clusters.map ((fun b => b.key) ∘ f) = g.clusters.map (·.key) :=
      List.map_congr_left fun b _ => hkey b
    rw [hclusters, List.map_map, hkeys]
    exact hg.keys_nodup
  · obtain ⟨c, hc, rfl⟩ := hfrom hb
    rw [hkey, hnext]
    exact hg.keys_lt c hc
  · obtain ⟨c, hc, rfl⟩ := hfrom hb
    exact hnodup c hc
  · obtain ⟨c, hc, rfl⟩ := hfrom hb
    rw [hkey]
    exact hlisted c hc k hk
  · obtain ⟨b, hb, hba, hbi, hk⟩ := hgrouped hn hna
    refine ⟨f b, ?_, (hkey b).trans hba, by rw [hid, hbi], hk⟩
    rw [hclusters]
    exact List.mem_map_of_mem hb

/-! ### Leaving groups -/

/-- Some nodes are taken off all groups and forget theirs. -/
theorem release (hg : Grouped g) (S : NodeKey → Bool)
    (hclusters : h.clusters = g.clusters.map fun b =>
      { b with members := b.members.filter fun k => !S k })
    (hin : ∀ k, S k = true → (h.node? k).map Node.tie = (g.node? k).map fun _ => (none, none))
    (hout : ∀ k, S k = false → (h.node? k).map Node.tie = (g.node? k).map Node.tie)
    (hnext : h.nextGroup = g.nextGroup) : Grouped h := by
  have hnode {k : NodeKey} {n : Node} (hn : h.node? k = some n) (hS : S k = false) :
      ∃ m, g.node? k = some m ∧ m.group = n.group ∧ m.groupId = n.groupId := by
    have hk := hout k hS
    rw [hn, Option.map_some] at hk
    obtain ⟨m, hm, htie⟩ := Option.map_eq_some_iff.1 hk.symm
    exact ⟨m, hm, Prod.mk.inj htie⟩
  have hfree {k : NodeKey} {n : Node} (hn : h.node? k = some n) (hS : S k = true) :
      n.group = none ∧ n.groupId = none := by
    have hk := hin k hS
    rw [hn, Option.map_some] at hk
    obtain ⟨m, -, htie⟩ := Option.map_eq_some_iff.1 hk.symm
    exact Prod.mk.inj htie.symm
  refine hg.of_map hclusters (fun _ => rfl) (fun _ => rfl) hnext
    (fun b hb => (hg.members_nodup b hb).filter _) (fun b hb k hk => ?_) (fun {k n a} hn hng => ?_)
    fun {k n} hn hng => ?_
  · obtain ⟨hk, hS⟩ := List.mem_filter.1 hk
    obtain ⟨n, hn, hng⟩ := hg.listed b hb k hk
    have htie := hout k (by simpa using hS)
    rw [hn, Option.map_some] at htie
    obtain ⟨m, hm, heq⟩ := Option.map_eq_some_iff.1 htie
    exact ⟨m, hm, (Prod.mk.inj heq).1.trans hng⟩
  · cases hS : S k with
    | true =>
      rw [(hfree hn hS).1] at hng
      cases hng
    | false =>
      obtain ⟨m, hm, hmg, hmi⟩ := hnode hn hS
      obtain ⟨b, hb, hkey, hid, hk⟩ := hg.grouped hm (hmg.trans hng)
      exact ⟨b, hb, hkey, hmi ▸ hid, List.mem_filter.2 ⟨hk, by simp [hS]⟩⟩
  · cases hS : S k with
    | true => exact (hfree hn hS).2
    | false =>
      obtain ⟨m, hm, hmg, hmi⟩ := hnode hn hS
      exact hmi ▸ hg.ungrouped hm (hmg.trans hng)

/-- A node leaves a group. -/
theorem leaveGroup (hg : Grouped g) (a : GroupKey) (k : NodeKey) :
    Grouped (g.leaveGroup a k).2 := by
  simp only [Graph.leaveGroup]
  split
  · next hin =>
    obtain ⟨b, hb, hk⟩ := (Option.any_eq_true _ _).1 hin
    have hk : k ∈ b.members := of_decide_eq_true hk
    obtain ⟨hmem, rfl⟩ := mem_of_group? hb
    obtain ⟨n, hn, hng⟩ := hg.listed b hmem k hk
    refine hg.release (· = k) ?_ (fun j hj => ?_) (fun j hj => ?_) rfl
    · rw [clusters_modifyNode, clusters_modifyGroup]
      refine List.map_congr_left fun c hc => ?_
      split
      · next hkey =>
        rw [(hg.members_nodup c hc).erase_eq_filter]
        simp [bne, beq_eq_decide]
      · next hkey =>
        have hout : k ∉ c.members := by
          rw [hg.mem_members_iff hc]
          rintro ⟨m, hm, hmg⟩
          obtain rfl : n = m := Option.some.inj (hn.symm.trans hm)
          exact hkey (Option.some.inj (hmg.symm.trans hng))
        have hsame : c.members.filter (fun j => !decide (j = k)) = c.members := by
          rw [List.filter_eq_self]
          intro j hj
          simpa using fun e : j = k => hout (e ▸ hj)
        rw [hsame]
    · obtain rfl : j = k := of_decide_eq_true hj
      rw [node?_modifyNode, if_pos rfl, node?_modifyGroup, hn]
      simp [hng, Node.tie]
    · have hj : ¬ k = j := fun e => by simp [e] at hj
      rw [node?_modifyNode, if_neg hj, node?_modifyGroup]
  · exact hg

theorem leaveAnyGroup (hg : Grouped g) (k : NodeKey) : Grouped (g.leaveAnyGroup k) := by
  simp only [Graph.leaveAnyGroup]
  split
  · exact hg.leaveGroup _ k
  · exact hg

/-- A node that left its group is in none. -/
theorem group_leaveAnyGroup (hg : Grouped g) {k : NodeKey} {n : Node}
    (hn : (g.leaveAnyGroup k).node? k = some n) : n.group = none := by
  simp only [Graph.leaveAnyGroup] at hn
  split at hn
  · next a ha =>
    obtain ⟨m, hm, hma⟩ := Option.bind_eq_some_iff.1 ha
    obtain ⟨b, hb, rfl, -, hk⟩ := hg.grouped hm hma
    have hin : (g.group? b.key).any (fun (b : Group) => k ∈ b.members) = true := by
      rw [group?_of_mem hg.keys_nodup hb]
      simpa using hk
    simp only [Graph.leaveGroup, hin, if_true, node?_modifyNode, node?_modifyGroup, hm,
      Option.map_some, hma] at hn
    cases hn
    rfl
  · next hnone =>
    rw [hn, Option.bind_some] at hnone
    exact hnone

/-! ### Entering groups -/

/-- A node that is in no group enters one. -/
theorem enter (hg : Grouped g) {k : NodeKey} {n : Node} (hn : g.node? k = some n)
    (hfree : n.group = none) {b : Group} (hb : b ∈ g.clusters) :
    Grouped ((g.modifyGroup b.key fun c => { c with members := c.members ++ [k] }).modifyNode k
      fun n => { n with group := some b.key, groupId := some b.id }) := by
  have hout {c : Group} (hc : c ∈ g.clusters) : k ∉ c.members := by
    rw [hg.mem_members_iff hc]
    rintro ⟨m, hm, hmg⟩
    obtain rfl : n = m := Option.some.inj (hn.symm.trans hm)
    rw [hfree] at hmg
    cases hmg
  let f (c : Group) : Group := if c.key = b.key then { c with members := c.members ++ [k] } else c
  have hmem (c : Group) (j : NodeKey) :
      j ∈ (f c).members ↔ j ∈ c.members ∨ c.key = b.key ∧ j = k := by
    simp only [f]; split <;> simp [*]
  refine hg.of_map (f := f) (by rw [clusters_modifyNode, clusters_modifyGroup]) (fun c => ?_)
    (fun c => ?_) rfl (fun c hc => ?_) (fun c hc j hj => ?_) (fun {j m a} hm hma => ?_)
    fun {j m} hm hma => ?_
  · simp only [f]; split <;> rfl
  · simp only [f]; split <;> rfl
  · simp only [f]
    split
    · exact List.nodup_append.2 ⟨hg.members_nodup c hc, List.nodup_singleton k,
        fun i hi j hj e => hout hc (by rw [← List.mem_singleton.1 hj, ← e]; exact hi)⟩
    · exact hg.members_nodup c hc
  · rw [node?_modifyNode, node?_modifyGroup]
    rcases (hmem c j).1 hj with hj | ⟨hcb, rfl⟩
    · have hjk : ¬ k = j := fun e => hout hc (e ▸ hj)
      rw [if_neg hjk]
      exact hg.listed c hc j hj
    · exact ⟨_, by rw [if_pos rfl, hn]; rfl, by rw [hcb]⟩
  · rw [node?_modifyNode, node?_modifyGroup] at hm
    split at hm
    · next hkj =>
      subst hkj
      rw [hn] at hm
      cases hm
      cases hma
      exact ⟨b, hb, rfl, rfl, (hmem b k).2 (.inr ⟨rfl, rfl⟩)⟩
    · obtain ⟨c, hc, hca, hci, hj⟩ := hg.grouped hm hma
      exact ⟨c, hc, hca, hci, (hmem c j).2 (.inl hj)⟩
  · rw [node?_modifyNode, node?_modifyGroup] at hm
    split at hm
    · next hkj =>
      subst hkj
      rw [hn] at hm
      cases hm
      cases hma
    · exact hg.ungrouped hm hma

/-- A node changes its group. -/
theorem joinGroup (hg : Grouped g) {a : GroupKey} {k : NodeKey} (ha : (g.group? a).isSome)
    (hk : (g.node? k).isSome) : Grouped (g.joinGroup a k) := by
  simp only [Graph.joinGroup]
  split
  · exact hg
  · have hleft := hg.leaveAnyGroup k
    obtain ⟨n, hn⟩ : ∃ n, (g.leaveAnyGroup k).node? k = some n :=
      Option.isSome_iff_exists.1 (by rw [isSome_node?_leaveAnyGroup]; exact hk)
    obtain ⟨b, hb⟩ : ∃ b, (g.leaveAnyGroup k).group? a = some b :=
      Option.isSome_iff_exists.1 (by rw [isSome_group?_leaveAnyGroup]; exact ha)
    rw [hb]
    obtain ⟨hmem, rfl⟩ := mem_of_group? hb
    exact hleft.enter hn (hg.group_leaveAnyGroup hn) hmem

/-! ### Clearing groups -/

/-- All members of a group leave it. -/
theorem clearGroup (hg : Grouped g) (a : GroupKey) : Grouped (g.clearGroup a) := by
  set ks := ((g.group? a).map (·.members)).getD [] with hks
  have hlisted {k : NodeKey} (hk : k ∈ ks) : ∃ n, g.node? k = some n ∧ n.group = some a := by
    cases hb : g.group? a with
    | none => simp [hks, hb] at hk
    | some b =>
      obtain ⟨hmem, rfl⟩ := mem_of_group? hb
      exact hg.listed b hmem k (by simpa [hks, hb] using hk)
  have hnodup : ks.Nodup := by
    cases hb : g.group? a with
    | none => simp [hks, hb]
    | some b => simpa [hks, hb] using hg.members_nodup b (mem_of_group? hb).1
  refine hg.release (· ∈ ks) ?_ (fun k hk => ?_) (fun k hk => ?_) (nextGroup_clearGroup g a)
  · rw [clusters_clearGroup]
    refine List.map_congr_left fun b hb => ?_
    have hmem (k : NodeKey) (hk : k ∈ b.members) : k ∈ ks ↔ b.key = a := by
      obtain ⟨n, hn, hng⟩ := hg.listed b hb k hk
      constructor
      · intro hk
        obtain ⟨m, hm, hma⟩ := hlisted hk
        obtain rfl : n = m := Option.some.inj (hn.symm.trans hm)
        exact Option.some.inj (hng.symm.trans hma)
      · rintro rfl
        rw [hks, group?_of_mem hg.keys_nodup hb]
        exact hk
    split
    · next hkey =>
      have hnone : b.members.filter (fun k => !decide (k ∈ ks)) = [] :=
        List.filter_eq_nil_iff.2 fun k hk => by simpa using (hmem k hk).2 hkey
      rw [hnone]
    · next hkey =>
      have hall : b.members.filter (fun k => !decide (k ∈ ks)) = b.members :=
        List.filter_eq_self.2 fun k hk => by simpa using fun h => hkey ((hmem k hk).1 h)
      rw [hall]
  · have hk : k ∈ ks := of_decide_eq_true hk
    obtain ⟨n, hn, hng⟩ := hlisted hk
    rw [node?_clearGroup g a hnodup, if_pos hk, hn]
    simp [hng, Node.tie]
  · rw [node?_clearGroup g a hnodup, if_neg (of_decide_eq_false hk)]

theorem clearTree (hg : Grouped g) (t : Tree) : Grouped (g.clearTree t) :=
  foldl (fun b hg => hg.clearGroup b.key) t.preorder hg

end Grouped
end Graph
end Patchbay
