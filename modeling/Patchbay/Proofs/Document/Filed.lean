import Patchbay.Proofs.Document.Managed
import Patchbay.Proofs.Document.Planted
import Patchbay.Proofs.Document.Resolved
/-!
# Groups of a document and their members

What a document says of groups is spread over two lists: nodes name their groups, groups list their
nodes, and groups name their parents. Whatever it says, there is one group for each record. A group
is below the first group of the name that its record gives for the parent, if that stands before it,
and siblings keep their order. If no two groups have one id, then a node is in the group that its
own record names, or in none if there is no such group; and if its record names none, it is in the
first group that lists it.

## Main definitions

* `Document.Filed`: the groups of a graph are those of some records, and so are their members.

## Main statements

* `Document.filed_of_load`: a graph that is read has the groups of its document.
-/
namespace Patchbay

namespace GroupRecord
variable {vs : List GroupRecord}

/-- If no two records have one id, a record is found under its own. -/
theorem place?_getElem (hn : (vs.map (·.id)).Nodup) {i : Nat} (hi : i < vs.length) :
    place? vs vs[i].id = some i := by
  refine List.findIdx?_eq_some_iff_getElem.2 ⟨hi, decide_eq_true rfl, fun j hj heq => ?_⟩
  have hne := List.pairwise_iff_getElem.1 (List.pairwise_map.1 hn) j i (hj.trans hi) hi hj
  exact hne (of_decide_eq_true heq)

/-- The group that is told of a node is the first one that lists it. -/
theorem bind_claimOf? (hn : (vs.map (·.id)).Nodup) (id : String) :
    (claimOf? vs id).bind (place? vs) = vs.findIdx? fun v => id ∈ v.nodeIds := by
  rw [claimOf?, List.find?_eq_bind_findIdx?_getElem?]
  cases h : vs.findIdx? fun v => decide (id ∈ v.nodeIds) with
  | none => rfl
  | some i =>
    have hi := (List.findIdx?_eq_some_iff_getElem.1 h).1
    rw [Option.bind_some, List.getElem?_eq_getElem hi, Option.map_some, Option.bind_some,
      place?_getElem hn hi]

/-- The ids of records that give them. -/
theorem map_id_of_tells {js : List Json} (h : List.Forall₂ Tells js vs)
    (hid : ∀ j ∈ js, j.member? "id" ≠ none) :
    js.map (·.textAt? "id") = vs.map fun v => some v.id := by
  induction h with
  | nil => rfl
  | @cons j v js vs hv _ ih =>
    obtain ⟨hj, hjs⟩ := List.forall_mem_cons.1 hid
    have hid := hv.id.resolve_right fun hnone => hj hnone.1
    rw [List.map_cons, List.map_cons, ih hjs, Json.textAt?, hid]

end GroupRecord

namespace Graph
open GroupRecord
variable {u : Graph} {vs : List GroupRecord}

/-- If no two records have one id, their groups are found under their ids. -/
theorem get?_groupIndex_of_planted (a : u.groups.Planted vs) (hn : (vs.map (·.id)).Nodup)
    (id : String) : u.groupIndex.get? id = place? vs id := by
  have hplace {b : Group} (hb : b ∈ u.groups.preorder) (hid : b.id = id) :
      place? vs id = some b.key := by
    obtain ⟨v, hv, heq⟩ := a.exists_record hb
    obtain ⟨hi, rfl⟩ := List.getElem?_eq_some_iff.1 hv
    rw [← hid, heq]
    exact place?_getElem hn hi
  rw [groupIndex_eq, Dict.get?_firsts]
  cases hfound : u.groups.preorder.find? fun b => some b.id = some id with
  | some b =>
    have hid := List.find?_some hfound
    rw [hplace (List.mem_of_find?_eq_some hfound) (Option.some.inj (of_decide_eq_true hid)),
      Option.map_some]
  | none =>
    cases h : place? vs id with
    | none => rfl
    | some i =>
      obtain ⟨hi, hid, -⟩ := List.findIdx?_eq_some_iff_getElem.1 h
      have hb := ((Forest.get?_eq_some_iff a.keys_nodup).1
        (a.get? (List.getElem?_eq_getElem hi))).1
      have hne := List.find?_eq_none.1 hfound _ hb
      exact absurd (decide_eq_true (congrArg some (of_decide_eq_true hid))) hne

namespace Unresolved

/-- Relinking gives the groups their members and leaves them where they are. -/
theorem groups_relink (hu : u.Unresolved) :
    u.relink.1.groups = u.groups.map u.reindex.gathered ∧
      u.relink.1.loose = u.loose.map u.reindex.gathered := by
  obtain ⟨s, a, hcore⟩ := hu.core_relink
  exact ⟨hcore.groups.trans (by rw [a.eq]; rfl), hcore.loose.trans (by rw [a.eq]; rfl)⟩

/-- Relinking puts a node into the group of the id that it keeps. -/
theorem exists_node_relink (hu : u.Unresolved) {k : NodeKey} (hk : k ∈ u.relink.1.members) :
    ∃ m n, u.node? k = some m ∧ u.relink.1.node? k = some n ∧ n.id = m.id ∧
      n.group = m.groupId.bind u.groupIndex.get? := by
  obtain ⟨s, a, hcore⟩ := hu.core_relink
  have hlive : k ∈ u.members := hcore.members.trans a.members ▸ hk
  obtain ⟨m, hm⟩ := Option.isSome_iff_exists.1 ((hu.nodes.live k).1 hlive)
  have hk : u.reindex.node? k = some m := hm
  have hhome : homeOf? u.reindex.groupIndex u.reindex k = m.groupId.bind u.groupIndex.get? := by
    rw [homeOf?, hk, Option.bind_some]
    rfl
  have hnode := hcore.nodes k
  rw [a.node, hk, hhome, Option.map_some, Option.map_some] at hnode
  obtain ⟨n, hn, hsame⟩ := Option.map_eq_some_iff.1 hnode
  exact ⟨m, n, hm, hn, (congrArg Node.id hsame :), (congrArg Node.group hsame :)⟩

end Unresolved

end Graph

namespace Document
open GroupRecord (place? parentOf?)
open Loader (itemsOf)

/-- The groups of a graph are those of some records: one for each of them, below the parent that it
names, behind the siblings whose records stand before its own. The members of a group are the nodes
that are in it. -/
structure Filed (r : Registry) (nodes : List Json) (vs : List GroupRecord) (g : Graph) : Prop where
  loose : g.loose = .nil
  keys : g.groups.keys.Perm (List.range vs.length)
  get? : ∀ {i v}, vs[i]? = some v → ∃ members, g.groups.get? i = some { v.group i with members }
  childrenOf : ∀ o, (g.groups.childrenOf o).map (·.key) =
    (List.range vs.length).filter fun i => parentOf? vs i = o
  members : ∀ {i b}, g.groups.get? i = some b →
    ∀ k, k ∈ b.members ↔ ∃ n, g.node? k = some n ∧ n.group = some i
  /-- If no two groups have one id, a node is in the group that its record names, and if it names
  none in the first one that lists the node. -/
  group : (vs.map (·.id)).Nodup → ∀ k ∈ g.members, ∃ n v own, g.node? k = some n ∧
    nodeRecord? r nodes n.id = some v ∧ v.optionalString "group_id" = .ok own ∧
    n.group = match own with
      | some id => place? vs id
      | none => vs.findIdx? fun v => n.id ∈ v.nodeIds

/-- Relinking files what was read. -/
theorem filed_relink {r : Registry} {nodes : List Json} {vs : List GroupRecord}
    {read : Dict GroupKey} {u : Graph} (hu : u.Unresolved)
    (he : Enrolled r nodes (GroupRecord.claimOf? vs) u) (hp : Planting vs read u) :
    Filed r nodes vs u.relink.1 := by
  obtain ⟨hgroups, hloose⟩ := hu.groups_relink
  refine ⟨?_, ?_, fun {i v} hv => ?_, fun o => ?_, fun {i b} hb k => ?_, fun hn k hk => ?_⟩
  · rw [hloose, hp.loose]
    rfl
  · rw [hgroups, Forest.keys, Forest.preorder_map, List.map_map]
    exact hp.groups.keys
  · refine ⟨(u.reindex.gathered (v.group i)).members, ?_⟩
    rw [hgroups, Forest.get?_map (h := u.reindex.gathered) fun _ => rfl, hp.groups.get? hv]
    rfl
  · rw [hgroups, Forest.childrenOf_map (h := u.reindex.gathered) fun _ => rfl, List.map_map]
    exact hp.groups.childrenOf o
  · have hgrouped := hu.groupedInside_relink.grouped
    obtain ⟨hmem, rfl⟩ := (Forest.get?_eq_some_iff hgrouped.keys_groups_nodup).1 hb
    exact hgrouped.mem_members_iff (List.mem_append_left _ hmem) k
  · obtain ⟨m, n, hm, hnk, hid, hgroup⟩ := hu.exists_node_relink hk
    obtain ⟨l, v, own, hl, -, hv, hown, hgroupId⟩ := he.record (he.found hm)
    obtain rfl : m = l := Option.some.inj (hm.symm.trans hl)
    have hindex : u.groupIndex.get? = place? vs :=
      funext (Graph.get?_groupIndex_of_planted hp.groups hn)
    refine ⟨n, v, own, hnk, hid ▸ hv, hown, ?_⟩
    rw [hgroup, hgroupId, hindex, hid]
    cases own with
    | some id => rfl
    | none => exact GroupRecord.bind_claimOf? hn m.id

/-- What is known of a graph when the whole document is read and no reference has been looked up. -/
theorem leads_document (r : Registry) (j : Json) :
    Loader.Leads (NodesRead r []) (Loader.document r j) fun _ g => ∃ u : Graph,
      ((∃ vs, List.Forall₂ GroupRecord.Tells (itemsOf j "groups") vs ∧
        Enrolled r (itemsOf j "nodes") (GroupRecord.claimOf? vs) u ∧ ∃ read, Planting vs read u) ∧
        u.Unresolved) ∧ g = u.relink.1 := by
  have hgroups := (Loader.leads_groups r (itemsOf j "nodes") [] .empty (itemsOf j "groups")).and
    ((Loader.keeps_unresolved r).readGroups .empty (itemsOf j "groups"))
  refine .document (.category j) (fun _ hg => hg.supply) (fun hg _ _ _ _ => hg.head _ _ _)
    (Loader.leads_nodes r _) (Loader.leads_wires r _ _) (hgroups.mono fun g hg => ?_)
    fun hg mainId => ?_
  · exact ⟨⟨hg.enrolled, .start hg.groups hg.loose hg.nextGroup⟩, hg.unresolved⟩
  · obtain ⟨⟨vs, htells, he, read, hp⟩, hu⟩ := hg
    exact ⟨⟨vs, htells, he.congr rfl rfl, read, { hp with }⟩,
      ⟨{ hu.groups with }, { hu.nodes with }, { hu.wires with }⟩⟩

/-- Whatever a document says of groups, nodes and parents, a graph that it comes to has the groups
of its records, and its nodes are in the groups that the records say. -/
theorem filed_of_load {r : Registry} {ids : IdSupply} {name : String} {category : Category}
    {j : Json} {g : Graph} (h : (load r (.new ids name category) j).result = .ok g) :
    ∃ vs, List.Forall₂ GroupRecord.Tells (itemsOf j "groups") vs ∧
      Filed r (itemsOf j "nodes") vs g := by
  have hempty : NodesRead r [] (.new ids name category) :=
    ⟨.new ids name category, .new r ids name category, rfl, rfl, rfl⟩
  obtain ⟨u, ⟨⟨vs, htells, he, read, hp⟩, hu⟩, rfl⟩ := of_load (leads_document r j) hempty h
  exact ⟨vs, htells, filed_relink hu he hp⟩

end Document

namespace GiveTake

/-- What is written of a group that lists nodes. -/
def listRecord (id : String) (parent : Option String) (nodeIds : List String) : Json :=
  .object [("id", .string id), ("parent_id", .ofOption parent),
    ("node_ids", .array (nodeIds.map .string))]

/-- Two groups list one node that names none. A third one has a parent that stands behind it. -/
def listing : Json :=
  .object [("id", .string "G"), ("category", .string "data_flow"),
    ("nodes", .array [
      .object [("id", .string "a"), ("type", .string "give"), ("group_id", .string "q")],
      .object [("id", .string "b"), ("type", .string "take")],
      .object [("id", .string "c"), ("type", .string "take"), ("group_id", .string "gone")]]),
    ("groups", .array [listRecord "p" none ["a", "b"], listRecord "q" (some "p") ["b", "c"],
      listRecord "s" (some "t") [], listRecord "t" (some "p") []])]

end GiveTake

/-- The node that names no group is in the first one that lists it. The group that stands before its
parent is a root. -/
theorem Document.filed_of_load_listing : ∃ g vs,
    (load GiveTake.registry (.new {}) GiveTake.listing).result = .ok g ∧
    (g.groups.keys = [0, 1, 3, 2] ∧
      g.members.map (fun k => (g.node? k).bind (·.group)) = [some 1, some 0, none]) ∧
    (vs.map GroupRecord.id).Nodup ∧
    List.Forall₂ GroupRecord.Tells (Loader.itemsOf GiveTake.listing "groups") vs ∧
    Filed GiveTake.registry (Loader.itemsOf GiveTake.listing "nodes") vs g := by
  obtain ⟨g, hg, hread⟩ := GiveTake.exists_of_read (j := GiveTake.listing) (P := fun g =>
    g.groups.keys = [0, 1, 3, 2] ∧
      g.members.map (fun k => (g.node? k).bind (·.group)) = [some 1, some 0, none])
    (by decide +kernel)
  obtain ⟨vs, htells, hfiled⟩ := filed_of_load hg
  have hids : [some "p", some "q", some "s", some "t"] = vs.map fun v => some v.id :=
    GroupRecord.map_id_of_tells htells (by decide)
  refine ⟨g, vs, hg, of_decide_eq_true hread, .of_map some ?_, htells, hfiled⟩
  rw [List.map_map]
  exact hids ▸ (by decide)

end Patchbay
