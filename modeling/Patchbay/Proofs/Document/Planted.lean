import Patchbay.Proofs.Document.Enrolled
import Patchbay.Proofs.Grouping.Reparented
/-!
# Groups and their records

Groups are read one after the other. The parent of a group is the first one of its name among those
read before, and the group goes to the end of the children that its parent has so far. So the forest
has one group for each record, under its place in the list, and siblings stand in the order of their
records.

## Main definitions

* `GroupRecord`, `GroupRecord.Tells`: what is told of a group, and what tells it.
* `GroupRecord.parentOf?`: the parent of a group among the records before its own.
* `Forest.Planted`: the groups of a forest are those of some records, below their parents.
* `Document.Planting`: a graph while its groups are read.

## Main statements

* `Forest.Planted.concat`: a further record adds a group behind its siblings.
* `Document.Loader.leads_groups`: reading groups plants a forest, and each group claims its nodes.
-/
namespace Patchbay

/-- What a document tells of a group. -/
structure GroupRecord where
  id : String
  name : String
  bounds : Rect Float
  nodeIds : List String
  parent : Option String

namespace GroupRecord
open Document.Loader (itemsOf itemsOf?)

/-- A value tells of a group: a missing id is generated, a missing name or frame has its default,
and the frame is that of the first four numbers. -/
structure Tells (j : Json) (v : GroupRecord) : Prop where
  id : j.member? "id" = some (.string v.id) ∨
    j.member? "id" = none ∧ ∃ ids : IdSupply, ids.fresh.1 = v.id
  name : j.memberOr "name" Json.asString "Group" = .ok v.name
  bounds : itemsOf? j "bounds" 4 = none ∧ v.bounds = .nothing ∨
    ∃ js, ∃ x y width height : Double, itemsOf? j "bounds" 4 = some js ∧
      (js.take 4).map Json.asDouble = [.ok x, .ok y, .ok width, .ok height] ∧
      v.bounds = ⟨x.toFloat, y.toFloat, width.toFloat, height.toFloat⟩
  nodeIds : itemsOf j "node_ids" = v.nodeIds.map Json.string
  parent : j.optionalString "parent_id" = .ok v.parent

/-- The group of a record as it is read, without its members. -/
def group (v : GroupRecord) (k : GroupKey) : Group :=
  { key := k, id := v.id, name := v.name, bounds := v.bounds }

/-- The place of the first record with an id. -/
def place? (vs : List GroupRecord) (id : String) : Option Nat := vs.findIdx? fun v => v.id = id

/-- The parent of the group at a place: the first group of the id that its record names, among those
before it. -/
def parentOf? (vs : List GroupRecord) (i : Nat) : Option GroupKey :=
  (vs[i]?.bind (·.parent)).bind (place? (vs.take i))

/-- The id of the first group that lists a node. -/
def claimOf? (vs : List GroupRecord) (id : String) : Option String :=
  (vs.find? fun v => id ∈ v.nodeIds).map (·.id)

variable {vs : List GroupRecord} {v : GroupRecord} {i : Nat}

theorem lt_of_place? {id : String} (h : place? vs id = some i) : i < vs.length :=
  (List.findIdx?_eq_some_iff_getElem.1 h).1

theorem place?_concat (vs : List GroupRecord) (v : GroupRecord) (id : String) :
    place? (vs ++ [v]) id = (place? vs id).or (if id = v.id then some vs.length else none) := by
  rw [place?, List.findIdx?_append, List.findIdx?_singleton]
  by_cases h : v.id = id
  · simp [place?, h]
  · simp [place?, h, Ne.symm h]

theorem claimOf?_concat (vs : List GroupRecord) (v : GroupRecord) (id : String) :
    claimOf? (vs ++ [v]) id =
      (claimOf? vs id).or (if id ∈ v.nodeIds then some v.id else none) := by
  rw [claimOf?, List.find?_append, Option.map_or, List.find?_singleton]
  by_cases h : id ∈ v.nodeIds <;> simp [claimOf?, h]

/-- The parents of the groups read so far do not depend on what follows. -/
theorem parentOf?_concat_of_lt (v : GroupRecord) (hi : i < vs.length) :
    parentOf? (vs ++ [v]) i = parentOf? vs i := by
  rw [parentOf?, List.getElem?_append_left hi, List.take_append_of_le_length (Nat.le_of_lt hi),
    parentOf?]

theorem parentOf?_concat_length (vs : List GroupRecord) (v : GroupRecord) :
    parentOf? (vs ++ [v]) vs.length = v.parent.bind (place? vs) := by
  rw [parentOf?, List.getElem?_concat_length, List.take_left, Option.bind_some]

end GroupRecord

namespace Forest
open GroupRecord

/-- The groups of a forest are those of some records, under the places of these. Below each parent
they keep the order of the records. -/
structure Planted (vs : List GroupRecord) (f : Forest) : Prop where
  keys : f.keys.Perm (List.range vs.length)
  get? : ∀ {i v}, vs[i]? = some v → f.get? i = some (v.group i)
  childrenOf : ∀ o, (f.childrenOf o).map (·.key) =
    (List.range vs.length).filter fun i => parentOf? vs i = o

theorem hung_graft {f : Forest} (hn : f.keys.Nodup) {o : Option GroupKey}
    (ho : ∀ k, o = some k → k ∈ f.keys) (t : Tree) :
    Hung t o (f.childrenOf o) [] f (f.graft o (ofTree t)) := by
  cases o with
  | none => exact hung_plant f t
  | some k =>
    rw [graft, ← adopt_eq_hang]
    exact hung_adopt hn (ho k rfl) t

namespace Planted
variable {vs : List GroupRecord} {f : Forest}

theorem nil : Planted [] .nil := ⟨.nil, nofun, fun o => by cases o <;> rfl⟩

theorem keys_nodup (a : Planted vs f) : f.keys.Nodup := a.keys.nodup_iff.2 List.nodup_range

theorem mem_keys_iff (a : Planted vs f) (k : GroupKey) : k ∈ f.keys ↔ k < vs.length :=
  a.keys.mem_iff.trans List.mem_range

/-- Every group of the forest has a record. -/
theorem exists_record (a : Planted vs f) {b : Group} (hb : b ∈ f.preorder) :
    ∃ v, vs[b.key]? = some v ∧ b = v.group b.key := by
  obtain ⟨v, hv⟩ : ∃ v, vs[b.key]? = some v :=
    ⟨_, List.getElem?_eq_getElem ((a.mem_keys_iff _).1 (mem_keys hb))⟩
  refine ⟨v, hv, Option.some.inj ?_⟩
  rw [← get?_of_mem a.keys_nodup hb, a.get? hv]

/-- A further record adds a group behind its siblings. -/
theorem concat (a : Planted vs f) (v : GroupRecord) : Planted (vs ++ [v])
    (f.graft (v.parent.bind (place? vs)) (.cons (v.group vs.length) .nil .nil)) := by
  let t : Tree := ⟨v.group vs.length, .nil⟩
  -- a parent was read before, so that its place is a key of the forest
  have howner (k : GroupKey) (hk : v.parent.bind (place? vs) = some k) : k ∈ f.keys := by
    obtain ⟨id, -, hid⟩ := Option.bind_eq_some_iff.1 hk
    exact (a.mem_keys_iff k).2 (lt_of_place? hid)
  have hung := hung_graft a.keys_nodup howner t
  rw [show f.graft _ (ofTree t) = f.graft _ (.cons (v.group vs.length) .nil .nil) from rfl] at hung
  generalize f.graft _ (.cons (v.group vs.length) .nil .nil) = f' at hung
  have hlength : (vs ++ [v]).length = vs.length + 1 := by simp
  have hkeys : f'.keys.Perm (List.range (vs ++ [v]).length) := by
    rw [hlength, List.range_succ]
    exact hung.keys_perm.trans ((a.keys.cons _).trans (List.perm_append_singleton _ _).symm)
  have hn : f'.keys.Nodup := hkeys.nodup_iff.2 List.nodup_range
  have hmem {b : Group} : b ∈ f'.preorder ↔ b = v.group vs.length ∨ b ∈ f.preorder :=
    hung.preorder_perm.mem_iff.trans List.mem_cons
  refine ⟨hkeys, fun {i w} hw => ?_, fun o => ?_⟩
  · rw [get?_eq_some_iff hn, hmem]
    rcases Nat.lt_or_ge i vs.length with hi | hi
    · rw [List.getElem?_append_left hi] at hw
      exact ⟨.inr ((get?_eq_some_iff a.keys_nodup).1 (a.get? hw)).1, rfl⟩
    · obtain ⟨hlt, -⟩ := List.getElem?_eq_some_iff.1 hw
      rw [hlength] at hlt
      obtain rfl : i = vs.length := Nat.le_antisymm (Nat.le_of_lt_succ hlt) hi
      rw [List.getElem?_concat_length, Option.some.injEq] at hw
      exact ⟨.inl (hw ▸ rfl), rfl⟩
  · rw [hung.childrenOf_leaf hn, List.map_append, a.childrenOf, hlength, List.range_succ,
      List.filter_append]
    congr 1
    · refine List.filter_congr fun i hi => ?_
      rw [parentOf?_concat_of_lt v (List.mem_range.1 hi)]
    · rw [List.filter_singleton, parentOf?_concat_length, Bool.cond_decide, apply_ite (List.map _)]
      simp only [eq_comm]
      rfl

end Planted
end Forest

namespace Document
open GroupRecord (claimOf? place?)

/-- A graph while its groups are read, after some records. -/
structure Planting (vs : List GroupRecord) (read : Dict GroupKey) (g : Graph) : Prop where
  groups : g.groups.Planted vs
  read : ∀ id, read.get? id = place? vs id
  loose : g.loose = .nil
  nextGroup : g.nextGroup = vs.length

namespace Planting
variable {vs : List GroupRecord} {read : Dict GroupKey} {g : Graph}

theorem start (hgroups : g.groups = .nil) (hloose : g.loose = .nil) (hnext : g.nextGroup = 0) :
    Planting [] .empty g :=
  ⟨hgroups ▸ .nil, fun _ => rfl, hloose, hnext⟩

theorem next_not_mem (a : Planting vs read g) : g.nextGroup ∉ g.groups.keys := by
  rw [a.groups.mem_keys_iff, a.nextGroup]
  exact Nat.lt_irrefl _

theorem mem_of_read (a : Planting vs read g) {id : String} {k : GroupKey}
    (h : read.get? id = some k) : k ∈ g.groups.keys :=
  (a.groups.mem_keys_iff k).2 (GroupRecord.lt_of_place? (a.read id ▸ h))

/-- Of the groups of an id, the first one is known under it. -/
theorem read_concat (a : Planting vs read g) (v : GroupRecord) (id : String) :
    (if read.has v.id then read else read.insert v.id g.nextGroup).get? id =
      place? (vs ++ [v]) id := by
  rw [GroupRecord.place?_concat, ← a.read, ← a.nextGroup]
  split
  · next hhas =>
    obtain ⟨k, hk⟩ := Option.isSome_iff_exists.1 hhas
    split
    · next hid => rw [hid, hk, Option.some_or]
    · rw [Option.or_none]
  · next hhas =>
    rw [Dict.has, Bool.not_eq_true, Option.isSome_eq_false_iff, Option.isNone_iff_eq_none] at hhas
    rw [Dict.get?_insert]
    split
    · next hid => rw [hid, hhas, Option.none_or]
    · rw [Option.or_none]

/-- The group of a further record is put behind its siblings. -/
theorem concat (a : Planting vs read g) (v : GroupRecord) (ids : IdSupply) : Planting (vs ++ [v])
    (if read.has v.id then read else read.insert v.id g.nextGroup)
    { g with
      ids
      nextGroup := g.nextGroup + 1
      loose := .nil
      groups := g.groups.graft (v.parent.bind read.get?)
        (.cons (v.group g.nextGroup) .nil .nil) } where
  groups := by
    have hread : read.get? = place? vs := funext a.read
    rw [hread, a.nextGroup]
    exact a.groups.concat v
  read := a.read_concat v
  loose := rfl
  nextGroup := by rw [List.length_append, List.length_singleton, ← a.nextGroup]

end Planting

namespace Loader
variable {r : Registry} {nodes : List Json} {vs : List GroupRecord} {read : Dict GroupKey}

/-- An id that is not in the document is a generated one. -/
theorem leads_freshId {I : Graph → Prop} (h : ∀ g, I g → ∀ ids, I { g with ids }) :
    Leads I Loader.freshId fun id g => I g ∧ ∃ ids : IdSupply, ids.fresh.1 = id := by
  intro d id d' hrun hd
  obtain ⟨hid, rfl⟩ := Prod.mk.inj ((Runs.freshId d.graph d.journal).symm.trans hrun)
  exact ⟨h _ hd _, d.graph.ids, Except.ok.inj hid⟩

/-- A group that lies alone beside the graph goes behind its siblings. -/
theorem leads_place {a : Group} (parent : Option String) {P : Graph → Prop} :
    Leads (fun g => g.loose = .cons a .nil .nil ∧ a.key ∉ g.groups.keys ∧
        (∀ id k, read.get? id = some k → k ∈ g.groups.keys) ∧
        P { g with
          loose := .nil, groups := g.groups.graft (parent.bind read.get?) (.cons a .nil .nil) })
      (Loader.place read parent a.key) fun _ => P := by
  simp only [Loader.place]
  split
  · refine .change fun g hg => ?_
    rw [Graph.registerGroup_alone hg.1]
    exact hg.2.2.2
  · next id =>
    split
    · next k hk =>
      refine .change fun g hg => ?_
      obtain ⟨hloose, hout, hread, hp⟩ := hg
      rw [Graph.adoptGroup_alone hloose hout (hread id k hk)]
      rwa [Option.bind_some, hk] at hp
    · next hnone =>
      refine (Leads.report _).bind fun _ => .change fun g hg => ?_
      obtain ⟨hloose, -, -, hp⟩ := hg
      rw [Graph.registerGroup_alone hloose]
      rwa [Option.bind_some, hnone] at hp

/-- A record is told of when its id, its name and its frame are known. -/
theorem leads_members (vs : List GroupRecord) (read : Dict GroupKey) {j : Json} {name id : String}
    {bounds : Rect Float} (htells : ∀ nodeIds parent,
      itemsOf j "node_ids" = nodeIds.map Json.string →
      j.optionalString "parent_id" = .ok parent →
      GroupRecord.Tells j ⟨id, name, bounds, nodeIds, parent⟩) :
    Leads (fun g => Enrolled r nodes (claimOf? vs) g ∧ Planting vs read g) (do
      (itemsOf j "node_ids").forM (Loader.claim id)
      let parent ← need (j.optionalString "parent_id")
      let d ← get
      let (a, graph) := d.graph.newGroup name bounds
      set { d with graph := graph.modifyGroup a fun b => { b with id } }
      Loader.place read parent a
      return if read.has id then read else read.insert id a : Loader (Dict GroupKey))
      fun read' g => ∃ v, GroupRecord.Tells j v ∧
        Enrolled r nodes (claimOf? (vs ++ [v])) g ∧ Planting (vs ++ [v]) read' g := by
  refine (leads_claims (P := Planting vs read) (fun _ _ hp => { hp with }) (claimOf? vs) id _).bind
    fun _ => (Yields.need _).then_leads fun parent hparent => .get fun d hd => ?_
  obtain ⟨nodeIds, hnodeIds, hp, he⟩ := hd
  let v : GroupRecord := ⟨id, name, bounds, nodeIds, parent⟩
  have he : Enrolled r nodes (claimOf? (vs ++ [v])) d.graph :=
    he.congr_told fun _ => GroupRecord.claimOf?_concat vs v _
  have hout := hp.next_not_mem
  -- until it is placed, the new group lies alone beside the graph
  have hmade := Graph.newGroup_alone hp.loose hout id name bounds
  refine (Leads.set (J := fun _ => (· = { d.graph with
    ids := d.graph.ids.fresh.2
    nextGroup := d.graph.nextGroup + 1
    loose := .cons (v.group d.graph.nextGroup) .nil .nil })) hmade).bind fun _ => ?_
  refine ((leads_place (a := v.group d.graph.nextGroup) parent (P := fun g =>
    Enrolled r nodes (claimOf? (vs ++ [v])) g ∧ Planting (vs ++ [v])
      (if read.has id then read else read.insert id d.graph.nextGroup) g)).mono ?_).bind
    fun _ => .pure fun g hg => ⟨v, htells nodeIds parent hnodeIds hparent, hg⟩
  rintro _ rfl
  exact ⟨rfl, hout, fun _ _ => hp.mem_of_read, he.congr rfl rfl, hp.concat v _⟩

/-- A record is told of when its id and its name are known. -/
theorem leads_framed (vs : List GroupRecord) (read : Dict GroupKey) {j : Json} {name id : String}
    (hname : j.memberOr "name" Json.asString "Group" = .ok name)
    (hid : j.member? "id" = some (.string id) ∨
      j.member? "id" = none ∧ ∃ ids : IdSupply, ids.fresh.1 = id) :
    Leads (fun g => Enrolled r nodes (claimOf? vs) g ∧ Planting vs read g) (do
      let bounds ← match itemsOf? j "bounds" 4 with
        | none => pure .nothing
        | some js => do
          match ← numbers 4 js with
          | [x, y, width, height] => pure ⟨x, y, width, height⟩
          | _ => pure .nothing
      (itemsOf j "node_ids").forM (Loader.claim id)
      let parent ← need (j.optionalString "parent_id")
      let d ← get
      let (a, graph) := d.graph.newGroup name bounds
      set { d with graph := graph.modifyGroup a fun b => { b with id } }
      Loader.place read parent a
      return if read.has id then read else read.insert id a : Loader (Dict GroupKey))
      fun read' g => ∃ v, GroupRecord.Tells j v ∧
        Enrolled r nodes (claimOf? (vs ++ [v])) g ∧ Planting (vs ++ [v]) read' g := by
  dsimp only
  split
  · next hnone =>
    exact leads_members vs read fun _ _ hnodes hparent =>
      ⟨hid, hname, .inl ⟨hnone, rfl⟩, hnodes, hparent⟩
  · next js hsome =>
    refine (Yields.numbers 4 js).then_leads fun xs hxs => ?_
    obtain ⟨ds, hds, rfl⟩ := hxs
    have hlength : ds.length = 4 := by
      have hleast : 4 ≤ js.length := of_decide_eq_true (Option.filter_eq_some_iff.1 hsome).2
      have hsame := congrArg List.length hds
      rw [List.length_map, List.length_map, List.length_take, Nat.min_eq_left hleast] at hsame
      exact hsame.symm
    obtain ⟨x, y, width, height, rfl⟩ := List.length_eq_four.1 hlength
    exact leads_members vs read fun _ _ hnodes hparent =>
      ⟨hid, hname, .inr ⟨js, x, y, width, height, hsome, hds, rfl⟩, hnodes, hparent⟩

/-- A group that is read has a record. -/
theorem leads_group (vs : List GroupRecord) (read : Dict GroupKey) (j : Json) :
    Leads (fun g => Enrolled r nodes (claimOf? vs) g ∧ Planting vs read g) (Loader.group read j)
      fun read' g => ∃ v, GroupRecord.Tells j v ∧
        Enrolled r nodes (claimOf? (vs ++ [v])) g ∧ Planting (vs ++ [v]) read' g := by
  simp only [Loader.group]
  refine (Yields.need _).then_leads fun name hname => ?_
  refine (leads_freshId fun g hg ids => ⟨hg.1.congr rfl rfl, { hg.2 with }⟩).bind fun fresh =>
    .given fun hfresh => ?_
  split
  · next idj hidj =>
    refine (Yields.need _).then_leads fun id hid => ?_
    exact leads_framed vs read hname (.inl (hidj.trans (Json.eq_string_of_asString hid ▸ rfl)))
  · next hnone => exact leads_framed vs read hname (.inr ⟨hnone, hfresh⟩)

/-- Reading groups plants a forest, and each group claims its nodes. -/
theorem leads_groups (r : Registry) (nodes : List Json) (vs : List GroupRecord)
    (read : Dict GroupKey) (js : List Json) :
    Leads (fun g => Enrolled r nodes (claimOf? vs) g ∧ Planting vs read g) (Loader.groups read js)
      fun _ g => ∃ vs', List.Forall₂ GroupRecord.Tells js vs' ∧
        Enrolled r nodes (claimOf? (vs ++ vs')) g ∧ ∃ read', Planting (vs ++ vs') read' g := by
  induction js generalizing vs read with
  | nil =>
    refine .pure fun g hg => ⟨[], .nil, ?_⟩
    rw [List.append_nil]
    exact ⟨hg.1, read, hg.2⟩
  | cons j js ih =>
    refine (leads_group vs read j).bind fun read' d _ d' hrun hd => ?_
    obtain ⟨v, hv, hd⟩ := hd
    obtain ⟨vs', htells, hg⟩ := ih (vs ++ [v]) read' hrun hd
    rw [List.append_assoc] at hg
    exact ⟨v :: vs', .cons hv htells, hg⟩

end Loader

end Document
end Patchbay
