import Patchbay.Proofs.Document.Unresolved
/-!
# Nodes and their records

A node that is read comes from the first record of its id whose type the registry knows. A record of
another type is left out, and so is one whose id is taken. What groups tell of a node counts only if
its own record names no group.

## Main definitions

* `Document.nodeRecord?`: the record that a node of an id comes from.
* `Document.Enrolled`: the nodes of a graph come from some records.
* `Document.NodesRead`: a graph that has its nodes and no groups yet.

## Main statements

* `Document.Loader.leads_nodes`: reading nodes enrols them.
* `Document.Loader.leads_claims`: a group claims the nodes that it lists and that name none.
-/
namespace Patchbay

/-- The text under a key, if there is one. -/
def Json.textAt? (j : Json) (key : String) : Option String :=
  match j.member? key with
  | some (.string s) => some s
  | _ => none

theorem Json.eq_string_of_asString {j : Json} {s : String} (h : j.asString = .ok s) :
    j = .string s := by
  cases j with
  | string t => exact congrArg _ (Except.ok.inj h)
  | _ => cases h

theorem Json.textAt?_eq_some {j v : Json} {key s : String} (hv : j.member? key = some v)
    (hs : v.asString = .ok s) : j.textAt? key = some s := by
  rw [textAt?, hv, eq_string_of_asString hs]

/-- Does the registry make nodes of the type? -/
def Registry.makes (r : Registry) (type : String) : Bool := (r.create type {}).isSome

/-- Which nodes are made does not depend on the ids that are left. -/
theorem Registry.isSome_create (r : Registry) (type : String) (ids : IdSupply) :
    (r.create type ids).isSome = r.makes type := by
  rw [makes, create, create, Option.isSome_bind, Option.isSome_bind]
  refine congrArg (Option.any · _) (funext fun e => ?_)
  cases e.maker with
  | definition d => rw [Option.isSome_some, Option.isSome_some]
  | factory f => exact f.steady ids {}

namespace Document

/-- Is a value a record of a node of an id, and of a type that the registry knows? -/
def recordsNode (r : Registry) (id : String) (v : Json) : Bool :=
  decide (v.textAt? "id" = some id) && (v.textAt? "type").any r.makes

/-- The record that a node of an id comes from: the first one of the id whose type the registry
knows. -/
def nodeRecord? (r : Registry) (vs : List Json) (id : String) : Option Json :=
  vs.find? (recordsNode r id)

/-- The nodes of a graph come from some records. One whose record names no group has the group that
is told of it, if there is one. -/
structure Enrolled (r : Registry) (vs : List Json) (told : String → Option String) (g : Graph) :
    Prop where
  found : ∀ {k n}, g.node? k = some n → g.nodeWithId? n.id = some k
  record : ∀ {id k}, g.nodeWithId? id = some k → ∃ n v own, g.node? k = some n ∧ n.id = id ∧
    nodeRecord? r vs id = some v ∧ v.optionalString "group_id" = .ok own ∧
    n.groupId = own.or (told id)
  missing : ∀ {id}, g.nodeWithId? id = none → nodeRecord? r vs id = none

/-- A further record counts for its id if none before it does. -/
theorem nodeRecord?_concat (r : Registry) (vs : List Json) (v : Json) (id : String) :
    nodeRecord? r (vs ++ [v]) id =
      (nodeRecord? r vs id).or (if recordsNode r id v then some v else none) := by
  rw [nodeRecord?, List.find?_append, nodeRecord?, List.find?_singleton]

namespace Enrolled
variable {r : Registry} {vs : List Json} {told : String → Option String} {g h : Graph}

theorem new (r : Registry) (ids : IdSupply) (name : String) (category : Category) :
    Enrolled r [] (fun _ => none) (.new ids name category) :=
  ⟨nofun, nofun, fun _ => rfl⟩

theorem congr (e : Enrolled r vs told g) (hnode : h.node? = g.node?)
    (hindex : h.index = g.index) : Enrolled r vs told h := by
  have hfound : h.nodeWithId? = g.nodeWithId? := funext fun id => by
    rw [Graph.nodeWithId?, hindex]
    rfl
  refine ⟨fun hn => ?_, fun hk => ?_, fun hnone => ?_⟩
  · rw [hnode] at hn
    rw [hfound]
    exact e.found hn
  · rw [hfound] at hk
    rw [hnode]
    exact e.record hk
  · rw [hfound] at hnone
    exact e.missing hnone

/-- What is told of nodes that are not there does not matter. -/
theorem congr_told (e : Enrolled r vs told g) {told' : String → Option String}
    (h : ∀ {id k}, g.nodeWithId? id = some k → told' id = told id) : Enrolled r vs told' g :=
  ⟨e.found, fun hk => h hk ▸ e.record hk, e.missing⟩

/-- A record that makes no node of a new id is left out. -/
theorem skip (e : Enrolled r vs told g) {v : Json}
    (hv : ∀ id, recordsNode r id v = true → g.nodeWithId? id ≠ none) :
    Enrolled r (vs ++ [v]) told g := by
  refine ⟨e.found, fun hk => ?_, fun {id} hnone => ?_⟩
  · obtain ⟨n, w, own, hn, hid, hw, hrest⟩ := e.record hk
    exact ⟨n, w, own, hn, hid, by rw [nodeRecord?_concat, hw, Option.some_or], hrest⟩
  · rw [nodeRecord?_concat, e.missing hnone, if_neg fun hrecords => hv id hrecords hnone]
    rfl

/-- A record that makes a node of a new id counts for it. -/
theorem enrol (e : Enrolled r vs (fun _ => none) g) {n : Node} {k : NodeKey} {v : Json}
    (hv : ∀ id, recordsNode r id v = true ↔ id = n.id)
    (hgroup : v.optionalString "group_id" = .ok n.groupId)
    (hk : g.node? k = none) (hnew : g.nodeWithId? n.id = none)
    (hnode : ∀ j, h.node? j = if j = k then some n else g.node? j)
    (hfound : ∀ id, h.nodeWithId? id = if id = n.id then some k else g.nodeWithId? id) :
    Enrolled r (vs ++ [v]) (fun _ => none) h := by
  refine ⟨fun {j m} hm => ?_, fun {id j} hj => ?_, fun {id} hnone => ?_⟩
  · rw [hnode] at hm
    rw [hfound]
    split at hm
    · next hj =>
      obtain rfl := Option.some.inj hm
      rw [if_pos rfl, hj]
    -- another node of the id would be found under it
    · have hother : m.id ≠ n.id := fun hid => by
        have hmfound := e.found hm
        rw [hid, hnew] at hmfound
        cases hmfound
      rw [if_neg hother, e.found hm]
  · rw [hfound] at hj
    split at hj
    · next hid =>
      obtain rfl := Option.some.inj hj
      refine ⟨n, v, n.groupId, by rw [hnode, if_pos rfl], hid.symm, ?_, hgroup, Option.or_none.symm⟩
      rw [nodeRecord?_concat, hid, e.missing hnew, if_pos ((hv _).2 rfl)]
      rfl
    · obtain ⟨m, w, own, hm, hmid, hw, hrest⟩ := e.record hj
      have hother : j ≠ k := by
        rintro rfl
        cases hk.symm.trans hm
      exact ⟨m, w, own, by rw [hnode, if_neg hother, hm], hmid,
        by rw [nodeRecord?_concat, hw, Option.some_or], hrest⟩
  · rw [hfound] at hnone
    split at hnone
    · cases hnone
    · next hother =>
      rw [nodeRecord?_concat, e.missing hnone, if_neg fun hrecords => hother ((hv id).1 hrecords)]
      rfl

/-- A node that is made of a record is left out if its id is taken. -/
theorem addNode (e : Enrolled r vs (fun _ => none) g) (hg : g.Unresolved) {n : Node}
    (hn : r.Makes n) {v : Json} (hid : v.textAt? "id" = some n.id)
    (htype : (v.textAt? "type").any r.makes = true)
    (hgroup : v.optionalString "group_id" = .ok n.groupId) :
    Enrolled r (vs ++ [v]) (fun _ => none) ((g.newNode n).2.insertNode (g.newNode n).1).2 := by
  have hv (id : String) : recordsNode r id v = true ↔ id = n.id := by
    rw [recordsNode, hid, htype, Bool.and_true, decide_eq_true_eq, Option.some.injEq]
    exact eq_comm
  obtain ⟨nodes, members, index, heq, hcases⟩ := hg.exists_addNode hn.group hn.free
  rw [heq]
  rcases hcases with ⟨htaken, rfl, rfl, hsame⟩ | ⟨hnew, rfl, rfl, hnode⟩
  · refine (e.skip fun id hrecords => ?_).congr (funext hsame) rfl
    rwa [(hv id).1 hrecords, Option.ne_none_iff_isSome]
  · exact e.enrol hv hgroup (Arena.get?_next _) hnew hnode fun id => Dict.get?_insert ..

/-- A group claims the node of an id if its record names no group and no group claimed it before. -/
theorem claim (e : Enrolled r vs told g) (id groupId : String) :
    Enrolled r vs (fun i => (told i).or (if i = id then some groupId else none))
      (match g.nodeWithId? id with
      | some k => g.modifyNode k fun n => { n with groupId := n.groupId.or (some groupId) }
      | none => g) := by
  split
  · next k hk =>
    obtain ⟨l, -, -, hl, hlid, -⟩ := e.record hk
    refine ⟨fun {j n} hn => ?_, fun {i j} hj => ?_, e.missing⟩
    · rw [Graph.node?_modifyNode] at hn
      split at hn
      · obtain ⟨m, hm, rfl⟩ := Option.map_eq_some_iff.1 hn
        exact (e.found hm :)
      · exact (e.found hn :)
    · have hj : g.nodeWithId? i = some j := hj
      obtain ⟨m, v, own, hm, hmid, hv, hown, hgroup⟩ := e.record hj
      by_cases hkj : k = j
      · subst hkj
        obtain rfl : l = m := Option.some.inj (hl.symm.trans hm)
        refine ⟨{ l with groupId := l.groupId.or (some groupId) }, v, own,
          by rw [Graph.node?_modifyNode, if_pos rfl, hm, Option.map_some], hmid, hv, hown, ?_⟩
        simp only [hgroup, if_pos (hmid.symm.trans hlid), Option.or_assoc]
      · refine ⟨m, v, own, by rw [Graph.node?_modifyNode, if_neg hkj, hm], hmid, hv, hown, ?_⟩
        have hne : i ≠ id := by
          rintro rfl
          exact hkj (Option.some.inj (hk.symm.trans hj))
        simp only [if_neg hne, Option.or_none, hgroup]
  · next hnone =>
    refine e.congr_told fun {i j} hj => ?_
    have hne : i ≠ id := by
      rintro rfl
      cases hnone.symm.trans hj
    simp only [if_neg hne, Option.or_none]

end Enrolled

/-- A graph while its nodes are read: they come from the records that were read, and there is no
group yet. -/
structure NodesRead (r : Registry) (vs : List Json) (g : Graph) : Prop where
  unresolved : g.Unresolved
  enrolled : Enrolled r vs (fun _ => none) g
  groups : g.groups = .nil
  loose : g.loose = .nil
  nextGroup : g.nextGroup = 0

namespace NodesRead
variable {r : Registry} {vs : List Json} {g : Graph}

theorem supply (a : NodesRead r vs g) (ids : IdSupply) : NodesRead r vs { g with ids } :=
  ⟨(Loader.keeps_unresolved r).supply a.unresolved ids, a.enrolled.congr rfl rfl, a.groups, a.loose,
    a.nextGroup⟩

theorem head (a : NodesRead r vs g) (id name : String) (category : Category) : NodesRead r vs
    { g with id, name, category, replaceInputs := true, mainId := none } := by
  have hu := a.unresolved
  exact ⟨⟨{ hu.groups with }, { hu.nodes with }, { hu.wires with }⟩, a.enrolled.congr rfl rfl,
    a.groups, a.loose, a.nextGroup⟩

theorem addNode (a : NodesRead r vs g) {n : Node} (hn : r.Makes n) {v : Json}
    (hid : v.textAt? "id" = some n.id) (htype : (v.textAt? "type").any r.makes = true)
    (hgroup : v.optionalString "group_id" = .ok n.groupId) :
    NodesRead r (vs ++ [v]) ((g.newNode n).2.insertNode (g.newNode n).1).2 := by
  have he := a.enrolled.addNode a.unresolved hn hid htype hgroup
  have hu := a.unresolved.addNode hn.group hn.free
  obtain ⟨nodes, members, index, heq, -⟩ := a.unresolved.exists_addNode hn.group hn.free
  rw [heq] at he hu ⊢
  exact ⟨hu, he, a.groups, a.loose, a.nextGroup⟩

theorem addWire (a : NodesRead r vs g) {c : Wire} (hs : c.source = none) (ht : c.target = none) :
    NodesRead r vs ((g.newWire c).2.insertWire (g.newWire c).1).2 := by
  have hu := a.unresolved.addWire hs ht
  obtain ⟨wires, links, heq, -⟩ := a.unresolved.exists_addWire hs ht
  rw [heq] at hu ⊢
  exact ⟨hu, a.enrolled.congr rfl rfl, a.groups, a.loose, a.nextGroup⟩

end NodesRead

namespace Loader
variable {r : Registry} {vs : List Json}

/-- A record that is read counts with those before it. -/
theorem leads_node (r : Registry) (vs : List Json) (v : Json) :
    Leads (NodesRead r vs) (Loader.node r v) fun _ => NodesRead r (vs ++ [v]) := by
  simp only [Loader.node]
  split
  · next idj typej hid htype =>
    refine (Yields.need _).then_leads fun id hidj => (Yields.need _).then_leads fun type htypej =>
      .get fun d hd => ?_
    have htype := Json.textAt?_eq_some htype htypej
    have hid := Json.textAt?_eq_some hid hidj
    have hmakes : (v.textAt? "type").any r.makes = (r.create type d.graph.ids).isSome := by
      rw [htype, Option.any_some, r.isSome_create]
    split
    · next hcreate =>
      rw [hcreate, Option.isSome_none] at hmakes
      refine (Leads.report (I := NodesRead r (vs ++ [v])) _).mono fun g hg => hg ▸ ?_
      refine { hd with enrolled := hd.enrolled.skip fun id hrecords => ?_ }
      rw [recordsNode, hmakes, Bool.and_false] at hrecords
      cases hrecords
    · next n ids hcreate =>
      rw [hcreate, Option.isSome_some] at hmakes
      refine (Leads.set (J := fun _ => NodesRead r vs) (hd.supply ids)).bind fun _ => ?_
      refine (Yields.nodeOf v id type hcreate).then_leads fun m hm => .change fun g hg => ?_
      obtain ⟨hm, rfl, hgroup⟩ := hm
      exact hg.addNode hm hid hmakes hgroup
  · exact .throw _

/-- Reading nodes enrols them. -/
theorem leads_nodes (r : Registry) (vs : List Json) :
    Leads (NodesRead r []) (vs.forM (Loader.node r)) fun _ => NodesRead r vs :=
  .forM_growing (leads_node r) [] vs

/-- Wires have nothing to do with it. -/
theorem leads_wires (r : Registry) (vs js : List Json) :
    Leads (NodesRead r vs) (js.forM Loader.wire) fun _ => NodesRead r vs :=
  .forM (Leads.wire (fun _ hg => hg.supply) fun _ _ hg => hg.addWire) js

/-- The nodes that a group lists belong to it if they name no group and no group listed them before.
Nothing but nodes is changed. -/
theorem leads_claims {P : Graph → Prop} (hP : ∀ {g} k f, P g → P (g.modifyNode k f))
    (told : String → Option String) (groupId : String) (js : List Json) :
    Leads (fun g => Enrolled r vs told g ∧ P g) (js.forM (Loader.claim groupId)) fun _ g =>
      ∃ ids : List String, js = ids.map Json.string ∧ P g ∧
        Enrolled r vs (fun i => (told i).or (if i ∈ ids then some groupId else none)) g := by
  refine (Leads.forM_growing (I := fun js g => ∃ ids : List String, js = ids.map Json.string ∧ P g ∧
    Enrolled r vs (fun i => (told i).or (if i ∈ ids then some groupId else none)) g) ?_ [] js).mono
    fun g hg => ⟨[], rfl, hg.2, ?_⟩
  · rintro js j
    simp only [Loader.claim]
    refine (Yields.need _).then_leads fun id hid => .change fun g hg => ?_
    obtain ⟨ids, rfl, hp, he⟩ := hg
    refine ⟨ids ++ [id], by rw [List.map_append, Json.eq_string_of_asString hid]; rfl, ?_, ?_⟩
    · split
      · exact hP _ _ hp
      · exact hp
    · refine (he.claim id groupId).congr_told fun {i k} _ => ?_
      by_cases hi : i ∈ ids <;> simp [hi]
  · exact hg.1.congr_told fun _ => by simp

end Loader

end Document
end Patchbay
