import Patchbay.Proofs.Document.Regroup
import Patchbay.Proofs.Document.Unlinked
import Patchbay.Proofs.Grouping.MainNode
/-!
# Nodes and groups restored

Before the wires are joined, relinking restores everything else: the nodes are found under their
ids, the pins belong to them, and every node is in the group that it was in, if that group belongs
to the graph.

## Main definitions

* `Graph.home?`, `Graph.groupOf?`: the group that a node is in, wherever it lies or in the graph.
* `Group.outline`: a group without its key and its members.
* `Graph.Restored`: a graph is restored but for the ends of its wires.

## Main statements

* `Graph.restored_relinkGroups`: what is read is restored up to the wires.
-/
namespace Patchbay

/-- The group without its key and its members. -/
def Group.outline (b : Group) : Group := { b with key := 0, members := [] }

/-- What a node tells of itself besides its pins and its group. -/
structure Node.SameFace (n m : Node) : Prop where
  id : m.id = n.id
  type : m.type = n.type
  name : m.name = n.name
  position : m.position = n.position
  enabled : m.enabled = n.enabled

theorem Forest.map_outline_number (f : Forest) (k : GroupKey) :
    (f.number k).map Group.outline = f.map Group.outline := by
  induction f generalizing k with
  | nil => rfl
  | cons a cs rest ihc ih =>
    rw [number, map, map, ihc, ih]
    rfl

namespace Graph

/-- The group that a node is in, be it in the graph or beside it. -/
def home? (g : Graph) (k : NodeKey) : Option Group :=
  ((g.node? k).bind (·.group)).bind g.group?

/-- The group of the graph that a node is in. -/
def groupOf? (g : Graph) (k : NodeKey) : Option Group :=
  ((g.node? k).bind (·.group)).bind g.groups.get?

/-- A graph is restored but for the ends of its wires. -/
structure Restored (g h : Graph) : Prop where
  id : h.id = g.id
  name : h.name = g.name
  category : h.category = g.category
  links : h.links = g.links.map g.wireSpot
  members : h.members = g.members.map g.nodeSpot
  mainId : h.mainId = g.mainId
  found : ∀ {id}, (g.nodeWithId? id).isSome = true → (h.nodeWithId? id).isSome = true
  node : ∀ {k n}, k ∈ g.members → g.node? k = some n →
    ∃ m, h.node? (g.nodeSpot k) = some m ∧ n.SameFace m
  pin : ∀ {r p}, r.node ∈ g.members → g.pin? r = some p →
    ∃ q, h.pin? (r.move g.nodeSpot) = some q ∧ p.Reads q
  pin_from : ∀ {r q}, h.pin? r = some q →
    ∃ r' p, r'.node ∈ g.members ∧ r'.move g.nodeSpot = r ∧ g.pin? r' = some p ∧ p.Reads q
  wire : ∀ {w c}, w ∈ g.links → g.wire? w = some c → h.wire? (g.wireSpot w) = some c.loose
  groups : h.groups.map Group.outline = g.groups.map Group.outline
  grouped : ∀ {k}, k ∈ g.members →
    (h.home? (g.nodeSpot k)).map Group.outline = (g.groupOf? k).map Group.outline
  ungrouped : ∀ {k n}, h.node? k = some n → h.home? k = none → n.group = none
  listed : ∀ b ∈ h.groups.preorder, ∀ k, k ∈ b.members ↔
    ∃ n, h.node? k = some n ∧ n.group = some b.key

variable {g : Graph} {ls : List Node} {index : Dict NodeKey} {ids : IdSupply}

/-- Until references are looked up, nothing that was read refers to anything but by id. -/
theorem unresolved_unlinked (index : Dict NodeKey) (ids : IdSupply) (hg : g.Listed)
    (hreads : List.Forall₂ Node.Reads g.memberNodes ls) : (g.unlinked ls index ids).Unresolved := by
  let d := g.unlinked ls index ids
  have hclusters : d.clusters = (g.groups.number 0).preorder := List.append_nil _
  have hkeys : (d.clusters.map (·.key)) = List.range' 0 g.groups.preorder.length := by
    rw [hclusters]
    exact Forest.keys_number g.groups 0
  refine ⟨⟨?_, fun b hb => ?_, fun b hb => Forest.members_number (hclusters ▸ hb)⟩,
    ⟨List.nodup_range, fun k => ?_, fun {k l} hl => ?_, fun {r q} hq => ?_⟩,
    ⟨List.nodup_range, fun w hw => ?_, fun {w c} hc => ?_⟩⟩
  · exact hkeys ▸ List.nodup_range'
  · have hb : b.key ∈ d.clusters.map (·.key) := List.mem_map_of_mem hb
    rw [hkeys, List.mem_range'_1, Nat.zero_add] at hb
    exact hb.2
  · rw [node?_unlinked_eq]
    simp [unlinked]
  · obtain ⟨-, -, -, n, -, hread⟩ := exists_of_node?_unlinked hg hreads hl
    exact hread.group
  · obtain ⟨_, _, _, _, _, hread⟩ := exists_of_pin?_unlinked hg hreads hq
    exact hread.free
  · simpa [unlinked, wire?] using hw
  · have hc : (g.linkWires.map Wire.loose)[w]? = some c := (Arena.get?_ofList _ w).symm.trans hc
    rw [List.getElem?_map] at hc
    obtain ⟨b, -, rfl⟩ := Option.map_eq_some_iff.1 hc
    exact ⟨rfl, rfl⟩

theorem get?_map {f : Group → Group} (hf : ∀ b, (f b).key = b.key) (F : Forest) (a : GroupKey) :
    (F.map f).get? a = (F.get? a).map f := by
  rw [Forest.get?_eq, Forest.get?_eq, Forest.preorder_map, List.find?_map]
  simp only [Function.comp_def, hf]

theorem find?_map_outline (f : Forest) (id : String) :
    (f.map Group.outline).find? (fun b => b.id = id) =
      (f.find? fun b => b.id = id).map Group.outline := by
  rw [Forest.find?_eq, Forest.find?_eq, Forest.preorder_map, List.find?_map]
  rfl

/-- The group that is found for an id is the one that has it. -/
theorem get?_groupIndex (hkeys : g.groups.keys.Nodup) (id : String) :
    (g.groupIndex.get? id).bind g.groups.get? = g.groups.find? fun b => b.id = id := by
  rw [groupIndex_eq, Dict.get?_firsts, Forest.find?_eq]
  simp only [Option.some.injEq]
  cases hb : g.groups.preorder.find? fun b => b.id = id with
  | none => rfl
  | some b => exact Forest.get?_of_mem hkeys (List.mem_of_find?_eq_some hb)

/-- A node is in the group of the graph that has the id it keeps. -/
theorem groupOf?_eq (hgr : g.Grouped) (hd : g.DistinctIds) {k : NodeKey} {n : Node}
    (hn : g.node? k = some n) :
    g.groupOf? k = n.groupId.bind fun id => g.groups.find? fun b => b.id = id := by
  rw [groupOf?, hn, Option.bind_some]
  cases ha : n.group with
  | none => rw [hgr.ungrouped hn ha]; rfl
  | some a =>
    obtain ⟨b, hb, rfl, hid, -⟩ := hgr.grouped hn ha
    rw [hid, Option.bind_some, Option.bind_some, Forest.find?_eq]
    -- another group of the graph with the id would be the same group
    have hsame {c : Group} (hc : c ∈ g.groups.preorder) (h : c.id = b.id) : c = b := by
      have hc := List.mem_append_left g.loose.preorder hc
      exact hgr.eq_of_key_eq hc hb (hd.groups hc hb h)
    cases hc : g.groups.preorder.find? fun c => c.id = b.id with
    | some c =>
      have hmem := List.mem_of_find?_eq_some hc
      obtain rfl := hsame hmem (by simpa using List.find?_some hc)
      exact Forest.get?_of_mem hgr.keys_groups_nodup hmem
    | none =>
      rw [Forest.get?_eq, List.find?_eq_none]
      intro c hcm hkey
      have hcb := hgr.eq_of_key_eq (List.mem_append_left g.loose.preorder hcm) hb
        (by simpa using hkey)
      exact List.find?_eq_none.1 hc c hcm (by simp [hcb])

namespace Settled
variable {d h : Graph}

theorem groups (a : Settled d h) : h.groups = d.groups.map d.gathered := by
  rw [a.eq]
  rfl

/-- A node is in the group of its id. -/
theorem home? (a : Settled d h) (hloose : d.loose = .nil) {k : NodeKey} {l : Node}
    (hl : d.node? k = some l) : h.home? k =
      ((homeOf? d.groupIndex d k).bind d.groups.get?).map d.gathered := by
  have hbeside : h.loose = .nil := by
    rw [a.eq]
    simp only [mapGroups, hloose]
    rfl
  rw [Graph.home?, a.node, hl, Option.map_some, Option.bind_some]
  change (homeOf? d.groupIndex d k).bind h.group? = _
  cases homeOf? d.groupIndex d k with
  | none => rfl
  | some i =>
    have hnone : Forest.nil.get? i = none := rfl
    rw [Option.bind_some, Option.bind_some, group?, a.groups, hbeside, hnone, Option.or_none]
    exact get?_map (f := d.gathered) (fun _ => rfl) _ i

/-- A group that is found for a node belongs to the graph. -/
theorem ungrouped (a : Settled d h) (hloose : d.loose = .nil) (hkeys : d.groups.keys.Nodup)
    {k : NodeKey} {n : Node} (hn : h.node? k = some n) (halone : h.home? k = none) :
    n.group = none := by
  obtain ⟨l, hl, rfl⟩ := Option.map_eq_some_iff.1 ((a.node k).symm.trans hn)
  rw [a.home? hloose hl, Option.map_eq_none_iff] at halone
  change homeOf? d.groupIndex d k = none
  cases hi : homeOf? d.groupIndex d k with
  | none => rfl
  | some i =>
    obtain ⟨id, -, hid⟩ := Option.bind_eq_some_iff.1 hi
    obtain ⟨b, hb, -, rfl⟩ := Dict.exists_of_get?_firsts (groupIndex_eq d ▸ hid)
    rw [hi, Option.bind_some, Forest.get?_of_mem hkeys hb] at halone
    cases halone

/-- The members of a group are the nodes that are in it. -/
theorem listed (a : Settled d h) (hmembers : ∀ k, k ∈ d.members ↔ (d.node? k).isSome = true)
    {b : Group} (hb : b ∈ h.groups.preorder) (k : NodeKey) :
    k ∈ b.members ↔ ∃ n, h.node? k = some n ∧ n.group = some b.key := by
  rw [a.groups, Forest.preorder_map] at hb
  obtain ⟨c, -, rfl⟩ := List.mem_map.1 hb
  simp only [gathered, List.mem_filter, decide_eq_true_eq, hmembers, a.node]
  cases d.node? k with
  | none => simp
  | some l => simp [Node.settled]

end Settled

/-- What is read is restored up to the wires. -/
theorem restored_relinkGroups (hw : g.Wired) (hgr : g.Grouped) (hd : g.DistinctIds)
    (hreads : List.Forall₂ Node.Reads g.memberNodes ls) :
    Restored g (g.unlinked ls index ids).reindex.adoptPins.relinkGroups := by
  have hg := hw.listed
  have hindex := index_reindex (g.unlinked ls index ids)
  change (g.unlinked ls index ids).reindex.index = _ at hindex
  generalize hi : (g.unlinked ls index ids).reindex.index = index' at hindex
  have hre : (g.unlinked ls index ids).reindex = g.unlinked ls index' ids := by rw [← hi]; rfl
  have hbare := unresolved_unlinked index' ids hg hreads
  rw [hre, hbare.adoptPins]
  let d := g.unlinked ls index' ids
  have a : Settled d d.relinkGroups := hbare.settled
  generalize d.relinkGroups = h at a ⊢
  have hkeys : d.groups.keys.Nodup := (Forest.keys_number g.groups 0).symm ▸ List.nodup_range'
  have hmembers (k : NodeKey) : k ∈ d.members ↔ (d.node? k).isSome = true := by
    rw [node?_unlinked_eq]
    simp [d, unlinked]
  have hcalled : h.id = g.id ∧ h.name = g.name ∧ h.category = g.category ∧ h.links = d.links ∧
      h.members = d.members ∧ h.mainId = g.mainId ∧ h.index = index' ∧ h.wires = d.wires := by
    rw [a.eq]
    exact ⟨rfl, rfl, rfl, rfl, rfl, rfl, rfl, rfl⟩
  obtain ⟨hid, hname, hcategory, hlinks, hlisted, hmain, hindexed, hwires⟩ := hcalled
  refine ⟨hid, hname, hcategory, hlinks.trans (links_unlinked index' ids ls hg),
    hlisted.trans (members_unlinked index' ids hg hreads), hmain, fun {id} hid => ?_,
    fun {k n} hk hn => ?_, fun {r p} hr hp => ?_, fun {r q} hq => ?_, fun {w c} hwl hc => ?_, ?_,
    fun {k} hk => ?_, a.ungrouped rfl hkeys, fun b => a.listed hmembers⟩
  · obtain ⟨k, hk⟩ := Option.isSome_iff_exists.1 hid
    obtain ⟨hmem, hkid⟩ := (hw.indexed id k).1 hk
    obtain ⟨n, hn, rfl⟩ := Option.map_eq_some_iff.1 hkid
    obtain ⟨l, hl, hread⟩ := node?_unlinked index ids hg hreads hmem hn
    rw [nodeWithId?, hindexed, hindex, Dict.get?_firsts, Option.isSome_map, List.find?_isSome]
    refine ⟨g.nodeSpot k, ?_, ?_⟩
    · rw [members_unlinked index ids hg hreads]
      exact List.mem_map_of_mem hmem
    · simp [idOf?, hl, hread.told.1]
  · obtain ⟨l, hl, hread⟩ := node?_unlinked index' ids hg hreads hk hn
    refine ⟨_, by rw [a.node, hl]; rfl, ?_⟩
    obtain ⟨hid, hname, hpos, hen, -⟩ := hread.told
    exact ⟨hid, hread.type, hname, hpos, hen⟩
  · rw [a.pin?]
    exact pin?_unlinked index' ids hg hreads hr hp
  · rw [a.pin?] at hq
    exact exists_of_pin?_unlinked hg hreads hq
  · rw [wire?, hwires]
    exact wire?_unlinked index' ids ls hg hwl hc
  · rw [a.groups, Forest.map_map]
    exact Forest.map_outline_number g.groups 0
  · obtain ⟨n, hn⟩ := Option.isSome_iff_exists.1 (hg.members_live k hk)
    obtain ⟨l, hl, hread⟩ := node?_unlinked index' ids hg hreads hk hn
    rw [a.home? rfl hl, Option.map_map, groupOf?_eq hgr hd hn, homeOf?, hl, Option.bind_some,
      hread.told.2.2.2.2]
    cases n.groupId with
    | none => rfl
    | some id =>
      have hsame : Group.outline ∘ d.gathered = Group.outline := rfl
      rw [Option.bind_some, Option.bind_some, get?_groupIndex hkeys, hsame, ← find?_map_outline,
        ← find?_map_outline]
      exact congrArg (Forest.find? _) (Forest.map_outline_number g.groups 0)

end Graph
end Patchbay
