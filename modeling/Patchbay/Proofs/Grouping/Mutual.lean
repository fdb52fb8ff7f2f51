import Patchbay.Proofs.Edit
import Patchbay.Proofs.Grouping.Reparented
/-!
# Mutual memberships

A group lists its members, and a node names its group. What an operation on groups does to the
nodes depends on these two only, and not on the ids of groups that nodes keep beside them: such an
id may be outdated while the memberships are in order.

## Main definitions

* `Graph.Mutual`: a group lists exactly the nodes that name it.
* `Graph.withDescendants`: a group with all that lies below it.
* `Graph.mapGroups`: a graph whose groups change where they stand.

## Main statements

* `Graph.Grouped.mutual`: groups and nodes that agree are mutual.
* `Graph.Mutual.mem_flatMap_members_iff`: several groups list the nodes that name one of them.
* `Graph.Mutual.nodup_flatMap_members`: no node is listed twice by several groups.
-/
namespace Patchbay
namespace Forest

/-- A tree consists of the group under its key and of all groups from which the way upward leads to
that group. -/
theorem filter_preorder_tree {f : Forest} {t : Tree} {a : GroupKey} (hn : f.keys.Nodup)
    (ht : f.tree? a = some t) :
    f.preorder.filter (fun b => b.key = a || f.descends b.key a) = t.preorder := by
  obtain ⟨f', o, l, r, -, hung⟩ := exists_hung ht
  obtain ⟨before, after, hwithout, hwith⟩ := hung.preorder
  have hin (b : Group) :
      (b.key = a || f.descends b.key a) = true ↔ b.key ∈ (ofTree t).keys := by
    rw [Bool.or_eq_true, decide_eq_true_eq, ← mem_keys_preorder_iff hn ht, keys, preorder_ofTree,
      Tree.preorder]
  have hall : t.preorder.filter (fun b => b.key = a || f.descends b.key a) = t.preorder := by
    refine List.filter_eq_self.2 fun b hb => (hin b).2 ?_
    rw [keys, preorder_ofTree]
    exact List.mem_map_of_mem hb
  have hnone {bs : List Group} (hbs : bs ⊆ f'.preorder) :
      bs.filter (fun b => b.key = a || f.descends b.key a) = [] := by
    refine List.filter_eq_nil_iff.2 fun b hb hbt => ?_
    exact hung.disjoint hn ((hin b).1 hbt) (mem_keys (hbs hb))
  rw [hwith, List.filter_append, List.filter_append, hall,
    hnone (hwithout ▸ List.subset_append_left _ _), hnone (hwithout ▸ List.subset_append_right _ _),
    List.nil_append, List.append_nil]

end Forest

namespace Graph

/-! ### Memberships -/

/-- A group lists exactly the nodes that name it, and each of them once. No two groups have one
key, and nodes name only groups that there are. -/
structure Mutual (g : Graph) : Prop where
  keys_nodup : (g.clusters.map (·.key)).Nodup
  keys_lt : ∀ b ∈ g.clusters, b.key < g.nextGroup
  members_nodup : ∀ b ∈ g.clusters, b.members.Nodup
  mem_members_iff : ∀ b ∈ g.clusters, ∀ k,
    k ∈ b.members ↔ ∃ n, g.node? k = some n ∧ n.group = some b.key
  exists_group : ∀ {k n a}, g.node? k = some n → n.group = some a → ∃ b ∈ g.clusters, b.key = a

theorem Grouped.mutual {g : Graph} (hg : Grouped g) : Mutual g := by
  refine ⟨hg.keys_nodup, hg.keys_lt, hg.members_nodup, fun b hb => hg.mem_members_iff hb, ?_⟩
  intro k n a hn ha
  obtain ⟨b, hb, hkey, -⟩ := hg.grouped hn ha
  exact ⟨b, hb, hkey⟩

namespace Mutual
variable {g : Graph} {b c : Group} {k : NodeKey}

/-- A member names its group. -/
theorem exists_node (hm : Mutual g) (hb : b ∈ g.clusters) (hk : k ∈ b.members) :
    ∃ n, g.node? k = some n ∧ n.group = some b.key :=
  (hm.mem_members_iff b hb k).1 hk

/-- The group that a node names lists it. -/
theorem exists_group_of_node (hm : Mutual g) {n : Node} {a : GroupKey} (hn : g.node? k = some n)
    (ha : n.group = some a) : ∃ b ∈ g.clusters, b.key = a ∧ k ∈ b.members := by
  obtain ⟨b, hb, rfl⟩ := hm.exists_group hn ha
  exact ⟨b, hb, rfl, (hm.mem_members_iff b hb k).2 ⟨n, hn, ha⟩⟩

/-- What wiring does to a graph does not matter to memberships. -/
theorem of_sameCore {h : Graph} (hm : Mutual g) (a : SameCore g h) : Mutual h := by
  have hclusters : h.clusters = g.clusters := by rw [clusters, clusters, a.groups, a.loose]
  have hgroup (k : NodeKey) : (h.node? k).map (·.group) = (g.node? k).map (·.group) := by
    have hk := congrArg (Option.map Node.group) (a.nodes k)
    rwa [Option.map_map, Option.map_map, show Node.group ∘ Node.core = Node.group from rfl] at hk
  have hnames (k : NodeKey) (a : Option GroupKey) :
      (∃ n, h.node? k = some n ∧ n.group = a) ↔ ∃ n, g.node? k = some n ∧ n.group = a := by
    rw [← Option.map_eq_some_iff, ← Option.map_eq_some_iff, hgroup]
  refine ⟨?_, ?_, ?_, ?_, ?_⟩
  · rw [hclusters]
    exact hm.keys_nodup
  · rw [hclusters, a.nextGroup]
    exact hm.keys_lt
  · rw [hclusters]
    exact hm.members_nodup
  · intro b hb k
    rw [hnames]
    exact hm.mem_members_iff b (hclusters ▸ hb) k
  · intro k n c hn hc
    obtain ⟨n', hn', hc'⟩ := (hnames k (some c)).1 ⟨n, hn, hc⟩
    rw [hclusters]
    exact hm.exists_group hn' hc'

/-- No node is a member of two groups. -/
theorem eq_of_mem_members (hm : Mutual g) (hb : b ∈ g.clusters) (hc : c ∈ g.clusters)
    (hkb : k ∈ b.members) (hkc : k ∈ c.members) : b = c := by
  obtain ⟨n, hn, hnb⟩ := hm.exists_node hb hkb
  obtain ⟨n', hn', hnc⟩ := hm.exists_node hc hkc
  obtain rfl : n = n' := Option.some.inj (hn.symm.trans hn')
  exact List.inj_on_of_nodup_map hm.keys_nodup hb hc (Option.some.inj (hnb.symm.trans hnc))

/-- Several groups list the nodes that name one of them. -/
theorem mem_flatMap_members_iff (hm : Mutual g) {bs : List Group} (hbs : bs ⊆ g.clusters) :
    k ∈ bs.flatMap (·.members) ↔
      ∃ n a, g.node? k = some n ∧ n.group = some a ∧ a ∈ bs.map (·.key) := by
  rw [List.mem_flatMap]
  constructor
  · rintro ⟨b, hb, hk⟩
    obtain ⟨n, hn, hnb⟩ := hm.exists_node (hbs hb) hk
    exact ⟨n, b.key, hn, hnb, List.mem_map_of_mem hb⟩
  · rintro ⟨n, a, hn, hna, ha⟩
    obtain ⟨b, hb, rfl⟩ := List.mem_map.1 ha
    exact ⟨b, hb, (hm.mem_members_iff b (hbs hb) k).2 ⟨n, hn, hna⟩⟩

/-- Several groups list no node twice. -/
theorem nodup_flatMap_members (hm : Mutual g) {bs : List Group} (hbs : bs ⊆ g.clusters)
    (hn : (bs.map (·.key)).Nodup) : (bs.flatMap (·.members)).Nodup := by
  rw [List.nodup_flatMap]
  refine ⟨fun b hb => hm.members_nodup b (hbs hb), ?_⟩
  refine (List.pairwise_map.1 hn).imp_of_mem fun {b c} hb hc hne k hkb hkc => hne ?_
  rw [hm.eq_of_mem_members (hbs hb) (hbs hc) hkb hkc]

end Mutual

/-! ### A group and what lies below it -/

/-- A group of the graph with all groups from which the way upward leads to it, parents before
children. -/
def withDescendants (g : Graph) (a : GroupKey) : List Group :=
  g.allGroups.filter fun b => b.key = a || g.groups.descends b.key a

theorem withDescendants_subset (g : Graph) (a : GroupKey) : g.withDescendants a ⊆ g.clusters :=
  fun _ hb => List.mem_append_left _ (List.mem_of_mem_filter hb)

theorem withDescendants_eq {g : Graph} {a : GroupKey} {t : Tree} (hm : Mutual g)
    (ht : g.groups.tree? a = some t) : g.withDescendants a = t.preorder :=
  Forest.filter_preorder_tree (keys_groups_nodup hm.keys_nodup) ht

/-! ### Groups that stay where they are -/

/-- The graph with every group changed, in the graph and beside it. -/
def mapGroups (g : Graph) (f : Group → Group) : Graph :=
  { g with groups := g.groups.map f, loose := g.loose.map f }

@[simp] theorem clusters_mapGroups (g : Graph) (f : Group → Group) :
    (g.mapGroups f).clusters = g.clusters.map f := by
  simp [clusters, mapGroups]

theorem group?_mapGroups (g : Graph) {f : Group → Group} (hf : ∀ b, (f b).key = b.key)
    (a : GroupKey) : (g.mapGroups f).group? a = (g.group? a).map f := by
  simp only [group?_eq, clusters_mapGroups, List.find?_map, Function.comp_def, hf]

theorem foldl_modifyNode (f : Node → Node) (ks : List NodeKey) (g : Graph) :
    ks.foldl (fun g k => g.modifyNode k f) g =
      { g with nodes := ks.foldl (fun a k => a.modify k f) g.nodes } := by
  induction ks generalizing g with
  | nil => rfl
  | cons k ks ih => exact ih _

end Graph

/-! ### A small graph with groups -/

/-- A node without pins. -/
def Node.pinless (id : String) : Node := .ofSpecs id [] [] (pure ())

namespace Graph

/-- Two roots, the first of which has a child, with a node in each of the three groups. -/
def threeGroups : Graph :=
  [.newNode (.pinless "p"), .insertNode 0, .newNode (.pinless "q"), .insertNode 1,
    .newNode (.pinless "r"), .insertNode 2, .newGroup "a" "a" ⟨0, 0, 0, 0⟩, .registerGroup 0,
    .newGroup "b" "b" ⟨0, 0, 0, 0⟩, .adoptGroup 0 (some 1), .newGroup "c" "c" ⟨0, 0, 0, 0⟩,
    .registerGroup 2, .joinGroup 0 0, .joinGroup 1 1, .joinGroup 2 2].foldl Edit.apply (.new {})

theorem reachable_threeGroups : Reachable threeGroups :=
  (Reachable.new {} "Graph" .controlFlow).edits
    ⟨Node.fresh_ofSpecs .., List.not_mem_nil,
      Node.fresh_ofSpecs .., (by decide : (1 : Nat) ∉ [0]),
      Node.fresh_ofSpecs .., (by decide : (2 : Nat) ∉ [0, 1]),
      trivial, trivial, trivial, rfl, trivial, trivial,
      ⟨rfl, rfl⟩, ⟨rfl, rfl⟩, ⟨rfl, rfl⟩, trivial⟩

theorem mutual_threeGroups : threeGroups.Mutual := reachable_threeGroups.grouped.mutual

end Graph
end Patchbay
