import Patchbay.Proofs.Document.Groups
import Patchbay.Proofs.Document.Index
import Patchbay.Proofs.Edit
import Patchbay.Proofs.Grouping.Mutual
/-!
# Members that find their groups

After reading, the groups have no members yet and the nodes know their groups only by id. Relinking
puts every member of the graph, in order, into the group that its id names. A member that names no
group of the graph forgets the id.

## Main definitions

* `Node.placed`, `Node.settled`: a node in the group that was found for it.
* `Graph.homeOf?`: the group that is found for a node.
* `Graph.Unresolved`: nodes, wires and groups know each other only by id.
* `Graph.Settled`: a graph whose nodes were put into the groups of their ids.

## Main statements

* `Graph.relinkGroups_of_alone`: what relinking makes of nodes and groups.
* `Graph.Unresolved.settled`: relinking puts every node into the group of its id.
-/
namespace Patchbay

/-- The node in the group that was found under an id. Without a group the id of the group goes. -/
def Node.placed (home : Option GroupKey) (id : Option String) (n : Node) : Node :=
  { n with group := home, groupId := if home.isSome then id else none }

/-- The node in the group that was found for it. Without a group the id of the group goes. -/
def Node.settled (home : Option GroupKey) (n : Node) : Node :=
  { n with group := home, groupId := if home.isSome then n.groupId else none }

/-- The group with a new member, if it is the one found for it. -/
def Group.taking (home : Option GroupKey) (k : NodeKey) (b : Group) : Group :=
  if home = some b.key then { b with members := b.members ++ [k] } else b

@[simp] theorem Group.key_taking (home : Option GroupKey) (k : NodeKey) (b : Group) :
    (b.taking home k).key = b.key := by
  simp only [taking]
  split <;> rfl

@[simp] theorem Group.id_taking (home : Option GroupKey) (k : NodeKey) (b : Group) :
    (b.taking home k).id = b.id := by
  simp only [taking]
  split <;> rfl

namespace Graph
variable {g : Graph} {index : Dict GroupKey} {k : NodeKey} {n : Node}

/-- A group without members is cleared already. -/
theorem clearGroup_of_empty (h : ∀ b ∈ g.clusters, b.members = []) (a : GroupKey) :
    g.clearGroup a = g := by
  have hnone : ((g.group? a).map (·.members)).getD [] = [] := by
    cases hb : g.group? a with
    | none => rfl
    | some b => exact h b (mem_of_group? hb).1
  have hsame (f : Forest) (hf : f.preorder ⊆ g.clusters) :
      (f.modify a fun b => { b with members := [] }) = f := by
    refine Forest.map_eq_self fun b hb => ?_
    split
    · rw [← h b (hf hb)]
    · rfl
  simp only [clearGroup, hnone, List.foldl_nil, modifyGroup]
  rw [hsame g.groups (List.subset_append_left _ _), hsame g.loose (List.subset_append_right _ _)]

/-- A node that is in no group is put into the group that an id names. -/
theorem regroup_of_alone (hn : g.node? k = some n) (halone : n.group = none)
    (hindex : ∀ id a, index.get? id = some a → (g.group? a).map (·.id) = some id)
    (wanted : Option String) : regroup index g k wanted =
      { g.mapGroups (Group.taking (wanted.bind index.get?) k) with
        nodes := g.nodes.modify k (Node.placed (wanted.bind index.get?) wanted) } := by
  have hleave : g.leaveAnyGroup k = g := by simp [leaveAnyGroup, hn, halone]
  simp only [regroup, hleave]
  have hself {m : Node} (hm : g.nodes.get? k = some m) : m.group = none := by
    rwa [Option.some.inj (hm.symm.trans hn)]
  cases hhome : wanted.bind index.get? with
  | none =>
    have hsame (f : Forest) : f.map (Group.taking none k) = f :=
      Forest.map_eq_self fun b _ => by simp [Group.taking]
    simp only [mapGroups, hsame, modifyNode]
    congr 1
    refine Arena.modify_congr fun m hm => ?_
    rw [← hself hm]
    simp [Node.placed, hself hm]
  | some a =>
    obtain ⟨id, rfl, ha⟩ := Option.bind_eq_some_iff.1 hhome
    have hnot : ¬ (g.node? k).bind (·.group) = some a := by simp [hn, halone]
    have htaking :
        (fun b : Group => if b.key = a then { b with members := b.members ++ [k] } else b) =
          Group.taking (some a) k := by
      funext b
      simp only [Group.taking, Option.some.injEq, eq_comm]
    simp only [joinGroup, if_neg hnot, hleave, hindex id a ha, modifyGroup, Forest.modify, htaking,
      modifyNode, mapGroups]
    rfl

/-- The group that is found for a node. -/
def homeOf? (index : Dict GroupKey) (g : Graph) (k : NodeKey) : Option GroupKey :=
  ((g.node? k).bind (·.groupId)).bind index.get?

/-- A group takes the first node of a list and then the others. -/
theorem taking_append_filter (home : NodeKey → Option GroupKey) (k : NodeKey) (ks : List NodeKey)
    (b : Group) : { b.taking (home k) k with
      members := (b.taking (home k) k).members ++ ks.filter fun j => home j = some b.key } =
      { b with members := b.members ++ (k :: ks).filter fun j => home j = some b.key } := by
  rw [List.filter_cons]
  by_cases hb : home k = some b.key <;> simp [Group.taking, hb]

/-- Groups keep their ids when one of them takes a node. -/
theorem id_group?_taking (g : Graph) (home : Option GroupKey) (k : NodeKey) (a : GroupKey) :
    ((g.mapGroups (Group.taking home k)).group? a).map (·.id) = (g.group? a).map (·.id) := by
  rw [group?_mapGroups g (Group.key_taking home k) a, Option.map_map]
  exact congrArg (Option.map · _) (funext fun b => Group.id_taking home k b)

/-- The nodes of a list are put into the groups that ids name, in order. -/
theorem foldl_regroup {ks : List NodeKey} (hn : ks.Nodup)
    (halone : ∀ k ∈ ks, ∃ n, g.node? k = some n ∧ n.group = none)
    (hindex : ∀ id a, index.get? id = some a → (g.group? a).map (·.id) = some id)
    (wanted : NodeKey → Option String) :
    ∃ nodes, (ks.map fun k => (k, wanted k)).foldl (fun g e => regroup index g e.1 e.2) g =
      { g.mapGroups fun b =>
          { b with members := b.members ++
              ks.filter fun k => (wanted k).bind index.get? = some b.key } with
        nodes } ∧ nodes.next = g.nodes.next ∧
      ∀ k, nodes.get? k =
        if k ∈ ks then (g.node? k).map (Node.placed ((wanted k).bind index.get?) (wanted k))
        else g.node? k := by
  induction ks generalizing g with
  | nil =>
    refine ⟨g.nodes, ?_, rfl, fun k => rfl⟩
    simp only [List.map_nil, List.foldl_nil, List.filter_nil, List.append_nil, mapGroups]
    rw [Forest.map_eq_self fun _ _ => rfl, Forest.map_eq_self fun _ _ => rfl]
  | cons k ks ih =>
    obtain ⟨hk, hn⟩ := List.nodup_cons.1 hn
    obtain ⟨n, hkn, hng⟩ := halone k List.mem_cons_self
    have hstep := regroup_of_alone hkn hng hindex (wanted k)
    let home (j : NodeKey) : Option GroupKey := (wanted j).bind index.get?
    let g₁ : Graph := { g.mapGroups (Group.taking (home k) k) with
      nodes := g.nodes.modify k (Node.placed (home k) (wanted k)) }
    have hnode₁ (j : NodeKey) : g₁.node? j =
        if k = j then (g.node? j).map (Node.placed (home k) (wanted k)) else g.node? j :=
      Arena.get?_modify _ _ _ _
    have hindex₁ (id : String) (a : GroupKey) (ha : index.get? id = some a) :
        (g₁.group? a).map (·.id) = some id :=
      (id_group?_taking g (home k) k a).trans (hindex id a ha)
    obtain ⟨nodes, hrun, hnext, hnodes⟩ := ih (g := g₁) hn (fun j hj => by
      rw [hnode₁, if_neg fun e : k = j => hk (e ▸ hj)]
      exact halone j (List.mem_cons_of_mem k hj)) hindex₁
    refine ⟨nodes, ?_, hnext.trans (Arena.next_modify _ _ _), fun j => ?_⟩
    · have htaken (b : Group) : { b.taking (home k) k with
            members := (b.taking (home k) k).members ++
              ks.filter fun j => home j = some (b.taking (home k) k).key } =
          { b with members := b.members ++ (k :: ks).filter fun j => home j = some b.key } := by
        rw [Group.key_taking]
        exact taking_append_filter home k ks b
      have hmap (f : Group → Group) : ({ g₁.mapGroups f with nodes } : Graph) =
          { g.mapGroups (f ∘ Group.taking (home k) k) with nodes } := by
        simp only [mapGroups, g₁, Forest.map_map]
      rw [List.map_cons, List.foldl_cons, hstep]
      refine hrun.trans ((hmap _).trans ?_)
      exact congrArg (fun f => ({ g.mapGroups f with nodes } : Graph)) (funext htaken)
    · rw [hnodes, hnode₁]
      by_cases hkj : k = j
      · subst hkj
        rw [if_neg hk, if_pos rfl, if_pos List.mem_cons_self]
      · simp only [if_neg hkj, List.mem_cons, Ne.symm hkj, false_or]

/-- What is found under the id of a group is a group of that id. -/
theorem id_group?_groupIndex (hkeys : (g.clusters.map (·.key)).Nodup) {id : String} {a : GroupKey}
    (ha : g.groupIndex.get? id = some a) : (g.group? a).map (·.id) = some id := by
  rw [groupIndex_eq] at ha
  obtain ⟨b, hb, hid, rfl⟩ := Dict.exists_of_get?_firsts ha
  rw [group?_of_mem hkeys (List.mem_append_left _ hb)]
  exact hid

/-- Relinking puts the members of a graph into the groups that their ids name. -/
theorem relinkGroups_of_alone (hempty : ∀ b ∈ g.clusters, b.members = [])
    (hkeys : (g.clusters.map (·.key)).Nodup) (hmembers : g.members.Nodup)
    (halone : ∀ k ∈ g.members, ∃ n, g.node? k = some n ∧ n.group = none) :
    ∃ nodes, g.relinkGroups =
      { g.mapGroups fun b =>
          { b with members := g.members.filter fun k => homeOf? g.groupIndex g k = some b.key } with
        nodes } ∧
      ∀ k, nodes.get? k =
        if k ∈ g.members then (g.node? k).map (Node.settled (homeOf? g.groupIndex g k))
        else g.node? k := by
  have hclear : g.groupIndex.entries.foldl (fun g e => g.clearGroup e.2) g = g :=
    List.foldl_fixed' (fun e => clearGroup_of_empty hempty e.2) _
  obtain ⟨nodes, hrun, -, hnodes⟩ := foldl_regroup hmembers halone
    (fun _ _ => id_group?_groupIndex hkeys) fun k => (g.node? k).bind (·.groupId)
  refine ⟨nodes, ?_, fun k => (hnodes k).trans ?_⟩
  on_goal 2 => cases hk : g.node? k <;> simp [homeOf?, hk, Node.placed, Node.settled]
  simp only [relinkGroups, hclear]
  refine hrun.trans ?_
  simp only [mapGroups]
  congr 1
  · refine Forest.map_congr fun b hb => ?_
    rw [hempty b (List.mem_append_left _ hb), List.nil_append]
    rfl
  · refine Forest.map_congr fun b hb => ?_
    rw [hempty b (List.mem_append_right _ hb), List.nil_append]
    rfl

/-! ### Graphs without references -/

/-- No group has members, and no two have one key. -/
structure GroupsBare (g : Graph) : Prop where
  keys_nodup : (g.clusters.map (·.key)).Nodup
  keys_lt : ∀ b ∈ g.clusters, b.key < g.nextGroup
  empty : ∀ b ∈ g.clusters, b.members = []

/-- Every node is a member once, and no wire or group knows it. -/
structure NodesBare (g : Graph) : Prop where
  members_nodup : g.members.Nodup
  live : ∀ k, k ∈ g.members ↔ (g.node? k).isSome = true
  alone : ∀ {k n}, g.node? k = some n → n.group = none
  free : ∀ {r p}, g.pin? r = some p → p.Free

/-- No wire has ends, and none is listed twice. -/
structure WiresBare (g : Graph) : Prop where
  links_nodup : g.links.Nodup
  live : ∀ w ∈ g.links, (g.wire? w).isSome = true
  loose : ∀ {w c}, g.wire? w = some c → c.source = none ∧ c.target = none

/-- A graph as it is while a document is read: nodes, wires and groups know each other only by id.
-/
structure Unresolved (g : Graph) : Prop where
  groups : g.GroupsBare
  nodes : g.NodesBare
  wires : g.WiresBare

/-- A group with the nodes that have its id. -/
def gathered (d : Graph) (b : Group) : Group :=
  { b with members := d.members.filter fun k => homeOf? d.groupIndex d k = some b.key }

/-- A graph whose nodes were put into the groups of their ids. -/
structure Settled (d h : Graph) : Prop where
  eq : h = { d.mapGroups d.gathered with nodes := h.nodes }
  node : ∀ k, h.node? k = (d.node? k).map (Node.settled (homeOf? d.groupIndex d k))

/-- Pins that belong to their nodes are not given back. -/
theorem adoptPins_of_owned (hg : ∀ {r p}, g.pin? r = some p → p.orphan = false) :
    g.adoptPins = g := by
  refine List.foldl_fixed' (fun k => modifyNode_eq_self fun n hn => ?_) _
  have hsame (s : Side) : (n.pins s).map (fun p => { p with orphan := false }) = n.pins s := by
    refine (List.map_congr_left fun p hp => ?_).trans (List.map_id _)
    obtain ⟨i, hi⟩ := List.mem_iff_getElem?.1 hp
    have howned : p.orphan = false := hg (r := ⟨k, s, i⟩) (by simp [pin?, hn, Node.pin?, hi])
    cases p
    simp_all
  simp only [Node.mapPins]
  rw [show n.inputs = n.pins .input from rfl, show n.outputs = n.pins .output from rfl, hsame,
    hsame]
  rfl

namespace Unresolved

/-- Pins belong to their nodes already. -/
theorem adoptPins (hg : g.Unresolved) : g.adoptPins = g :=
  adoptPins_of_owned fun hp => (hg.nodes.free hp).owned

/-- Relinking groups puts every node into the group of its id. -/
theorem settled (hg : g.Unresolved) : Settled g g.relinkGroups := by
  obtain ⟨nodes, hrun, hnodes⟩ := relinkGroups_of_alone hg.groups.empty hg.groups.keys_nodup
    hg.nodes.members_nodup fun k hk => by
      obtain ⟨n, hn⟩ := Option.isSome_iff_exists.1 ((hg.nodes.live k).1 hk)
      exact ⟨n, hn, hg.nodes.alone hn⟩
  have heq : g.relinkGroups = { g.mapGroups g.gathered with nodes } := hrun
  refine ⟨by rw [heq], fun k => ?_⟩
  rw [heq]
  refine (hnodes k).trans ?_
  split
  · rfl
  · next hk =>
    rw [hg.nodes.live, Bool.not_eq_true, Option.isSome_eq_false_iff, Option.isNone_iff_eq_none] at hk
    rw [hk, Option.map_none]

end Unresolved

namespace Settled
variable {d h : Graph}

theorem links (a : Settled d h) : h.links = d.links := by
  rw [a.eq]
  rfl

theorem wire? (a : Settled d h) (w : WireKey) : h.wire? w = d.wire? w := by
  rw [a.eq]
  rfl

theorem members (a : Settled d h) : h.members = d.members := by
  rw [a.eq]
  rfl

theorem index_eq (a : Settled d h) : h.index = d.index := by
  rw [a.eq]
  rfl

theorem idOf? (a : Settled d h) (k : NodeKey) : h.idOf? k = d.idOf? k := by
  rw [Graph.idOf?, a.node, Option.map_map]
  rfl

theorem pin? (a : Settled d h) (r : PinRef) : h.pin? r = d.pin? r := by
  rw [Graph.pin?, a.node, Graph.pin?]
  cases d.node? r.node with
  | none => rfl
  | some n => cases r.side <;> rfl

end Settled

end Graph
end Patchbay
