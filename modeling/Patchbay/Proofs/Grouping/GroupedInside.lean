import Patchbay.Proofs.Grouping.NoneJoins
import Patchbay.Proofs.Grouping.MainNode
/-!
# Members in groups of the graph

Nodes enter groups by operations of the graph, which ask that the node is a member and that the
group belongs to the graph. So groups beside the graph stay without members, and nodes beside it
without groups.

## Main definitions

* `Edit.Managing`: an operation that does not go past the graph.
* `Graph.Indexed`: what is found under an id is a member.
* `Graph.GroupedInside`: nodes that are in groups are members, and their groups belong to the graph.
* `Graph.MembershipsAgree`: nodes and groups of the graph tell the same memberships.

## Main statements

* `Graph.GroupedInside.apply`: operations that do not go past the graph keep its members in groups
  of its own.
-/
namespace Patchbay

/-- An operation that does not go past the graph: a node enters a group only if it is a member and
the group belongs to the graph, and no group is taken out of the graph as it is. -/
def Edit.Managing (g : Graph) : Edit → Prop
  | joinGroup a k => g.ownsGroup a = true ∧ k ∈ g.members
  | releaseGroup .. => False
  | _ => True

namespace Graph

/-! ### Members are found under their ids -/

/-- Whatever node is found under an id is a member, and has that id. -/
def Indexed (g : Graph) : Prop :=
  ∀ id k, g.nodeWithId? id = some k → k ∈ g.members ∧ g.idOf? k = some id

namespace Indexed
variable {g h : Graph}

theorem of_sameRoll (hg : Indexed g) (a : SameRoll g h) : Indexed h := by
  intro id k hk
  rw [a.members, a.ids]
  exact hg id k (a.nodeWithId? id ▸ hk)

theorem mem_of_contains (hg : Indexed g) {k : NodeKey} (hk : g.contains k = true) :
    k ∈ g.members := by
  obtain ⟨n, -, hid⟩ := (Option.any_eq_true _ _).1 hk
  exact (hg n.id k (of_decide_eq_true hid)).1

theorem newNode (hg : Indexed g) (n : Node) : Indexed (g.newNode n).2 := by
  intro id k hk
  obtain ⟨hmem, hid⟩ := hg id k hk
  refine ⟨hmem, ?_⟩
  obtain ⟨m, hm, -⟩ := Option.map_eq_some_iff.1 hid
  rw [idOf?, node?_newNode, if_neg (Nat.ne_of_lt (Arena.lt_next_of_get? hm))]
  exact hid

/-- A node that no id leads to is destroyed. -/
theorem dropNode (hg : Indexed g) {k : NodeKey} (hk : ∀ id, g.nodeWithId? id ≠ some k) :
    Indexed (g.dropNode k) := by
  obtain ⟨l, a, hdrop⟩ := exists_dropNode g k
  have hroll := (sameWiring_leaveAnyGroup g k).sameRoll.trans a.sameRoll
  rw [hdrop]
  intro id j hj
  obtain ⟨hmem, hid⟩ := hg.of_sameRoll hroll id j hj
  refine ⟨hmem, ?_⟩
  rw [idOf?, node?_eraseNode, if_neg]
  · exact hid
  · rintro rfl
    exact hk id ((hroll.nodeWithId? id).symm.trans hj)

theorem not_found_of_not_mem (hg : Indexed g) {k : NodeKey} (hk : k ∉ g.members) (id : String) :
    g.nodeWithId? id ≠ some k := fun h => hk (hg id k h).1

theorem insertNode (hg : Indexed g) {k : NodeKey} (hk : k ∉ g.members) :
    Indexed (g.insertNode k).2 := by
  simp only [Graph.insertNode]
  split
  · exact hg
  next n hn =>
  split
  · exact hg.dropNode (hg.not_found_of_not_mem hk)
  · intro id j hj
    simp only [nodeWithId?, Dict.get?_insert] at hj
    split at hj
    · next hid =>
      cases hj
      subst hid
      refine ⟨List.mem_append_right _ (List.mem_singleton_self k), ?_⟩
      exact congrArg (Option.map Node.id) hn
    · obtain ⟨hmem, hid⟩ := hg id j hj
      exact ⟨List.mem_append_left _ hmem, hid⟩

/-- A node is taken off the records of the graph. The other ids lead to other nodes. -/
theorem forget (hg : Indexed g) {k : NodeKey} {id : String} (hid : g.idOf? k = some id)
    (mainId : Option String) :
    let h := { g with mainId, index := g.index.erase id, members := g.members.erase k }
    Indexed h ∧ ∀ id, h.nodeWithId? id ≠ some k := by
  have hother {i : String} {j : NodeKey} (hj : (g.index.erase id).get? i = some j) :
      g.nodeWithId? i = some j ∧ j ≠ k := by
    rw [Dict.get?_erase] at hj
    split at hj
    · cases hj
    · next hne =>
      refine ⟨hj, ?_⟩
      rintro rfl
      exact hne (Option.some.inj ((hg i j hj).2.symm.trans hid))
  refine ⟨fun i j hj => ?_, fun i hk => (hother hk).2 rfl⟩
  obtain ⟨hj, hne⟩ := hother hj
  obtain ⟨hmem, hid⟩ := hg i j hj
  exact ⟨(List.mem_erase_of_ne hne).2 hmem, hid⟩

theorem removeNode (hg : Indexed g) (k : NodeKey) : Indexed (g.removeNode k).2 := by
  rcases removeNode_cases g k with h | ⟨n, l, mainId, hn, -, a, -, h⟩
  · rwa [h]
  · rw [h]
    have hroll := a.sameRoll.trans (sameWiring_leaveAnyGroup l k).sameRoll
    have hid : (l.leaveAnyGroup k).idOf? k = some n.id := by
      rw [hroll.ids]
      exact congrArg (Option.map Node.id) hn
    obtain ⟨hforget, hgone⟩ := (hg.of_sameRoll hroll).forget hid mainId
    exact hforget.dropNode hgone

/-- Whatever is done to a graph, its members are found under their ids. -/
theorem apply (hg : Indexed g) {e : Edit} (he : e.Admissible g) : Indexed (e.apply g) := by
  cases e with
  | newNode n => exact hg.newNode n
  | insertNode k => exact hg.insertNode he
  | dropNode k => exact hg.dropNode (hg.not_found_of_not_mem he)
  | removeNode k => exact hg.removeNode k
  | removeNodeWithId id =>
    simp only [Edit.apply, removeNodeWithId]
    split
    · exact hg.removeNode _
    · exact hg
  | setMain id =>
    simp only [Edit.apply, setMain]
    split
    · exact hg
    · split <;> exact hg
  | _ => exact hg.of_sameRoll (sameRoll_apply g not_false)

end Indexed

/-! ### Nodes in groups of the graph -/

/-- Groups and nodes agree, and nodes that are in groups are members, in groups of the graph. -/
structure GroupedInside (g : Graph) : Prop where
  grouped : Grouped g
  indexed : Indexed g
  placed : ∀ {k a}, (g.node? k).bind (·.group) = some a → k ∈ g.members ∧ a ∈ g.groups.keys

namespace GroupedInside
variable {g h : Graph}

/-- What was in the graph is not beside it later on. -/
theorem of_owned (hg : GroupedInside g) (hh : Grouped h) (hi : Indexed h)
    (hloose : ∀ {a}, a ∈ h.loose.keys → a ∈ g.loose.keys ∨ g.nextGroup ≤ a)
    (howned : ∀ {k a}, (h.node? k).bind (·.group) = some a → k ∈ h.members ∧ a ∈ g.groups.keys) :
    GroupedInside h := by
  refine ⟨hh, hi, fun {k b} hk => ?_⟩
  obtain ⟨hmem, hb⟩ := howned hk
  refine ⟨hmem, ?_⟩
  obtain ⟨n, hn, hnb⟩ := Option.bind_eq_some_iff.1 hk
  obtain ⟨c, hc, rfl, -⟩ := hh.grouped hn hnb
  rcases List.mem_append.1 hc with hc | hc
  · exact List.mem_map_of_mem hc
  · rcases hloose (List.mem_map_of_mem hc) with hold | hnew
    · exact absurd hold (hg.grouped.not_mem_loose hb)
    · obtain ⟨d, hd, hdc⟩ := List.mem_map.1 hb
      have hlt := hg.grouped.keys_lt d (List.mem_append_left _ hd)
      rw [hdc] at hlt
      exact absurd hlt (Nat.not_lt.2 hnew)

theorem noneJoins (hg : GroupedInside g) (hh : Grouped h) (hi : Indexed h) (a : NoneJoins g h) :
    GroupedInside h := by
  refine hg.of_owned hh hi a.loose fun hk => ?_
  obtain ⟨hold, hmembers⟩ := a.node hk
  obtain ⟨hmem, hb⟩ := hg.placed hold
  exact ⟨hmembers hmem, hb⟩

/-- A member enters a group of the graph. -/
theorem joinGroup (hg : GroupedInside g) {a : GroupKey} {k : NodeKey} (ha : g.ownsGroup a = true)
    (hk : k ∈ g.members) (hnode : (g.node? k).isSome = true) : GroupedInside (g.joinGroup a k) := by
  have hkey : a ∈ g.groups.keys := (Forest.mem_keys_iff_get? _ _).2 ha
  have hgroup : (g.group? a).isSome = true := by
    rw [group?, Option.isSome_or]
    exact Bool.or_eq_true_iff.2 (.inl ha)
  have hroll := (sameWiring_joinGroup g a k).sameRoll
  refine hg.of_owned (hg.grouped.joinGroup hgroup hnode) (hg.indexed.of_sameRoll hroll)
    (fun {b} hb => ?_) fun {j b} hj => ?_
  · simp only [Graph.joinGroup] at hb
    split at hb
    · exact .inl hb
    · have hentered : NoneJoins g ((g.leaveAnyGroup k).modifyGroup a
          fun b => { b with members := b.members ++ [k] }) :=
        (noneJoins_leaveAnyGroup g k).trans (noneJoins_modifyGroup _ a fun _ => rfl)
      exact hentered.loose hb
  · rw [hroll.members]
    simp only [Graph.joinGroup] at hj
    split at hj
    · exact hg.placed hj
    · rw [node?_modifyNode, node?_modifyGroup] at hj
      split at hj
      · next hkj =>
        obtain ⟨m, hm, hma⟩ := Option.bind_eq_some_iff.1 hj
        obtain ⟨n, -, rfl⟩ := Option.map_eq_some_iff.1 hm
        cases hma
        exact ⟨hkj ▸ hk, hkey⟩
      · exact hg.placed ((noneJoins_leaveAnyGroup g k).node hj).1

theorem moveNodeToGroup (hg : GroupedInside g) (k : NodeKey) (a : Option GroupKey) :
    GroupedInside (g.moveNodeToGroup k a).2 := by
  cases a with
  | none =>
    exact hg.noneJoins (hg.grouped.moveNodeToGroup k none)
      (hg.indexed.of_sameRoll (sameWiring_moveNodeToGroup g k none).sameRoll)
      (noneJoins_ungroup g k)
  | some a =>
    simp only [Graph.moveNodeToGroup]
    split
    · next hk =>
      split
      · next ha =>
        refine hg.joinGroup ha (hg.indexed.mem_of_contains hk) ?_
        obtain ⟨n, hn, -⟩ := (Option.any_eq_true _ _).1 hk
        exact Option.isSome_of_mem hn
      · exact hg
    · exact hg

theorem addToGroup (hg : GroupedInside g) (l : Layout) (k : NodeKey) (a : GroupKey) (adjust : Bool)
    (padding : Float) : GroupedInside (l.addNode g k a adjust padding).2 := by
  have hmove := hg.moveNodeToGroup k (some a)
  simp only [Layout.addNode]
  split
  · next h hm =>
    rw [hm] at hmove
    split
    · exact hmove.noneJoins (hmove.grouped.expandAround l a k padding)
        (hmove.indexed.of_sameRoll (sameWiring_expandAround l h a k padding).sameRoll)
        (noneJoins_expandAround l h a k padding)
    · exact hmove
  · next h hm =>
    rw [hm] at hmove
    exact hmove

theorem createGroupAround (hg : GroupedInside g) (l : Layout) (name : String)
    (ks : List (Option NodeKey)) (padding : Float) (parent : Option GroupKey) :
    GroupedInside (l.createGroupAround g name ks padding parent).2 := by
  let members := Layout.listed ks
  let bounds := l.boundsOf g members padding
  have hcreate := hg.noneJoins (hg.grouped.createGroup name bounds parent)
    (hg.indexed.of_sameRoll (sameWiring_createGroup g name bounds parent).sameRoll)
    (noneJoins_createGroup g name bounds parent)
  simp only [Layout.createGroupAround]
  split
  · next h hc =>
    rw [hc] at hcreate
    exact hcreate
  · next a h hc =>
    rw [hc] at hcreate
    have hadded :
        GroupedInside (members.foldl (fun g k => (l.addNode g k a false 0).2) h) := by
      clear hc
      induction members generalizing h with
      | nil => exact hcreate
      | cons k members ih => exact ih _ (hcreate.addToGroup l k a false 0)
    exact hadded.noneJoins (hadded.grouped.fit l a padding)
      (hadded.indexed.of_sameRoll (sameWiring_fit l _ a padding).sameRoll)
      (noneJoins_fit l _ a padding)

/-- Operations that do not go past the graph keep its members in groups of its own. -/
theorem apply (hg : GroupedInside g) {e : Edit} (he : e.Admissible g) (hm : e.Managing g) :
    GroupedInside (e.apply g) := by
  cases e with
  | joinGroup a k => exact hg.joinGroup hm.1 hm.2 he.2
  | moveNodeToGroup k a => exact hg.moveNodeToGroup k a
  | createGroupAround l name ks padding parent =>
    exact hg.createGroupAround l name ks padding parent
  | addToGroup l k a adjust padding => exact hg.addToGroup l k a adjust padding
  | releaseGroup parent child => exact hm.elim
  | _ =>
    exact hg.noneJoins (hg.grouped.apply _ he) (hg.indexed.apply he)
      (hg.grouped.noneJoins_apply he not_false)

theorem new (ids : IdSupply) (name : String) (category : Category) :
    GroupedInside (.new ids name category) := by
  refine ⟨.new ids name category, fun id k hk => ?_, fun {k a} hk => ?_⟩
  · simp [nodeWithId?, Graph.new] at hk
  · simp [node?, Graph.new, Arena.get?] at hk

end GroupedInside

/-! ### Both sides of a membership -/

/-- Nodes and groups of the graph tell the same memberships. -/
structure MembershipsAgree (g : Graph) : Prop where
  members_nodup : ∀ b ∈ g.allGroups, b.members.Nodup
  mem_members_iff : ∀ b ∈ g.allGroups, ∀ k,
    k ∈ b.members ↔ ∃ n, g.node? k = some n ∧ n.group = some b.key
  mem_graph : ∀ b ∈ g.allGroups, ∀ k ∈ b.members, k ∈ g.members
  unique : ∀ b ∈ g.allGroups, ∀ c ∈ g.allGroups, ∀ k ∈ b.members, k ∈ c.members → b = c
  /-- A node keeps the id of its group, and no id without a group. -/
  group_and_groupId : ∀ k n, g.node? k = some n → n.group = none ∧ n.groupId = none ∨
    ∃ b ∈ g.allGroups, n.group = some b.key ∧ n.groupId = some b.id

theorem GroupedInside.membershipsAgree {g : Graph} (hg : GroupedInside g) : g.MembershipsAgree := by
  have hin {b : Group} (hb : b ∈ g.allGroups) : b ∈ g.clusters := List.mem_append_left _ hb
  have hiff {b : Group} (hb : b ∈ g.allGroups) := hg.grouped.mem_members_iff (hin hb)
  refine ⟨fun b hb => hg.grouped.members_nodup b (hin hb), fun b hb => hiff hb,
    fun b hb k hk => ?_, fun b hb c hc k hkb hkc => ?_, fun k n hn => ?_⟩
  · obtain ⟨n, hn, hnb⟩ := (hiff hb k).1 hk
    exact (hg.placed (by rw [hn]; exact hnb)).1
  · obtain ⟨n, hn, hnb⟩ := (hiff hb k).1 hkb
    obtain ⟨m, hm, hmc⟩ := (hiff hc k).1 hkc
    obtain rfl : n = m := Option.some.inj (hn.symm.trans hm)
    exact hg.grouped.eq_of_key_eq (hin hb) (hin hc) (Option.some.inj (hnb.symm.trans hmc))
  · cases hgroup : n.group with
    | none => exact .inl ⟨rfl, hg.grouped.ungrouped hn hgroup⟩
    | some a =>
      obtain ⟨b, hb, rfl, hid, -⟩ := hg.grouped.grouped hn hgroup
      obtain ⟨c, hc, hcb⟩ := List.mem_map.1 (hg.placed (by rw [hn]; exact hgroup)).2
      obtain rfl : c = b := hg.grouped.eq_of_key_eq (hin hc) hb hcb
      exact .inr ⟨c, hc, rfl, hid⟩

end Graph
end Patchbay
