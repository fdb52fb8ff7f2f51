import Patchbay.Proofs.Document.Passed
/-!
# What relinking comes to

All that a document tells of a relinked graph can be said about the graph before: which nodes keep
their groups, whether the main node is kept, and which value an input has. Nothing else that a
document tells changes.

## Main definitions

* `Graph.arriving?`: the value that the wires bring to an input.
* `Graph.Resolved`: what relinking makes of a graph.

## Main statements

* `Graph.Unresolved.resolved`: relinking resolves what was read.
* `Graph.Tracks.arriving?`: wires that name the same pins bring the same values.
-/
namespace Patchbay

theorem Node.SameFace.trans {n m l : Node} (a : n.SameFace m) (b : m.SameFace l) : n.SameFace l :=
  ⟨b.id.trans a.id, b.type.trans a.type, b.name.trans a.name, b.position.trans a.position,
    b.enabled.trans a.enabled⟩

namespace Graph
variable {g h u : Graph}

/-- The value that the wires bring to an input. -/
def arriving? (g : Graph) (t : PinRef) : Option Value :=
  (g.feeder? g.pinIndex g.links t).bind (g.given? g.pinIndex)

/-- What relinking makes of a graph, as far as a document tells it. -/
structure Resolved (u g : Graph) : Prop where
  head : g.head = u.head
  shell : SameShell u.reindex g
  wire : ∀ w, (g.wire? w).map Wire.loose = (u.wire? w).map Wire.loose
  mainId : g.mainId = u.mainId.filter fun id => id ∈ u.members.filterMap u.idOf?
  node : ∀ {k n}, u.node? k = some n → ∃ m, g.node? k = some m ∧ n.SameFace m ∧
    m.groupId = n.groupId.filter fun id => (u.groupIndex.get? id).isSome
  groups : g.groups.map Group.outline = u.groups.map Group.outline
  gathered : Gathered g
  output : ∀ {r}, r.side = .output → g.datum? r = u.datum? r
  input : ∀ {t}, t.side = .input → g.datum? t = (u.datum? t).map (u.arriving? t).getD

/-! ### Wires that name the same pins -/

/-- The wires of one graph name the same pins as those of another one, with nodes and wires under
other keys. -/
structure Tracks (g h : Graph) (f : NodeKey → NodeKey) (e : WireKey → WireKey) : Prop where
  links : h.links = g.links.map e
  wire : ∀ w ∈ g.links, (h.wire? (e w)).map Wire.loose = (g.wire? w).map Wire.loose
  found : ∀ id, h.pinIndex.get? id = (g.pinIndex.get? id).map (PinRef.move f)

namespace Tracks
variable {f : NodeKey → NodeKey} {e : WireKey → WireKey}

theorem exists_wire (a : Tracks g h f e) {w : WireKey} {c : Wire} (hw : w ∈ g.links)
    (hc : h.wire? (e w) = some c) : ∃ d, g.wire? w = some d ∧ d.sourceId = c.sourceId ∧
      d.targetId = c.targetId := by
  have hloose := a.wire w hw
  rw [hc, Option.map_some] at hloose
  obtain ⟨d, hd, hdc⟩ := Option.map_eq_some_iff.1 hloose.symm
  exact ⟨d, hd, (congrArg Wire.sourceId hdc :), (congrArg Wire.targetId hdc :)⟩

/-- The pin that a wire names goes where its node goes. -/
theorem find?_end (a : Tracks g h f e) {id : Wire → String} (hid : ∀ c : Wire, id c.loose = id c)
    {w : WireKey} (hw : w ∈ g.links) : (h.wire? (e w)).bind (fun c => h.pinIndex.get? (id c)) =
      ((g.wire? w).bind fun c => g.pinIndex.get? (id c)).map (PinRef.move f) := by
  have hloose := congrArg (Option.bind · fun c => h.pinIndex.get? (id c)) (a.wire w hw)
  simp only [Option.bind_map, Function.comp_def, hid] at hloose
  refine hloose.trans ?_
  cases g.wire? w with
  | none => rfl
  | some c => exact a.found (id c)

/-- Wires that name the same pins lead from outputs to inputs alike. -/
theorem oriented (a : Tracks g h f e) (hg : g.Oriented) : h.Oriented := by
  intro v hv c hc
  rw [a.links] at hv
  obtain ⟨w, hw, rfl⟩ := List.mem_map.1 hv
  obtain ⟨d, hd, hs, ht⟩ := a.exists_wire hw hc
  have hdirected := hg w hw d hd
  rw [Directed, hs, ht] at hdirected
  refine ⟨fun r hr => ?_, fun r hr => ?_⟩
  · obtain ⟨s, hfound, rfl⟩ := Option.map_eq_some_iff.1 ((a.found c.sourceId).symm.trans hr)
    exact hdirected.1 s hfound
  · obtain ⟨t, hfound, rfl⟩ := Option.map_eq_some_iff.1 ((a.found c.targetId).symm.trans hr)
    exact hdirected.2 t hfound

/-- Wires that name the same pins bring the same values, if these are the same on outputs. -/
theorem arriving? (a : Tracks g h f e) (hg : g.Oriented) {t : PinRef}
    (hinj : ∀ id r, g.pinIndex.get? id = some r → r.move f = t.move f → r = t)
    (houtput : ∀ id r, g.pinIndex.get? id = some r → r.side = .output →
      h.datum? (r.move f) = g.datum? r) : h.arriving? (t.move f) = g.arriving? t := by
  have hfeeder : h.feeder? h.pinIndex h.links (t.move f) =
      (g.feeder? g.pinIndex g.links t).map e := by
    rw [feeder?, a.links, List.find?_map]
    refine congrArg (Option.map e) (List.find?_congr fun w hw => decide_eq_decide.2 ?_)
    rw [a.find?_end (fun _ => rfl) hw]
    constructor
    · intro hfound
      obtain ⟨r, hr, hmove⟩ := Option.map_eq_some_iff.1 hfound
      obtain ⟨c, -, hget⟩ := Option.bind_eq_some_iff.1 hr
      rw [hr, hinj _ r hget hmove]
    · intro hfound
      rw [hfound, Option.map_some]
  rw [Graph.arriving?, hfeeder, Graph.arriving?]
  cases hw : g.feeder? g.pinIndex g.links t with
  | none => rfl
  | some w =>
    have hlink : w ∈ g.links := List.mem_of_find?_eq_some hw
    change h.given? h.pinIndex (e w) = g.given? g.pinIndex w
    rw [given?, a.find?_end (fun _ => rfl) hlink, given?]
    cases hc : g.wire? w with
    | none => rfl
    | some c =>
      rw [Option.bind_some]
      cases hs : g.pinIndex.get? c.sourceId with
      | none => rfl
      | some s => exact houtput _ s hs ((hg w hlink c hc).1 s hs)

end Tracks

/-! ### What a graph comes to -/

/-- Nodes are found under the ids of members. -/
theorem isSome_nodeWithId?_iff (hindex : g.index = .firsts g.idOf? (fun k => k) g.members)
    (id : String) : (g.nodeWithId? id).isSome = true ↔ id ∈ g.members.filterMap g.idOf? := by
  rw [nodeWithId?, hindex, Dict.get?_firsts, Option.isSome_map, List.find?_isSome,
    List.mem_filterMap]
  simp only [decide_eq_true_eq]

/-- A node keeps the id of its group if there is such a group. -/
theorem Settled.face (a : Settled g h) {k : NodeKey} {n : Node} (hn : g.node? k = some n) :
    ∃ m, h.node? k = some m ∧ n.SameFace m ∧
      m.groupId = n.groupId.filter fun id => (g.groupIndex.get? id).isSome := by
  have hhome : homeOf? g.groupIndex g k = n.groupId.bind g.groupIndex.get? := by
    rw [homeOf?, hn, Option.bind_some]
  refine ⟨n.settled (homeOf? g.groupIndex g k), by rw [a.node, hn, Option.map_some],
    ⟨rfl, rfl, rfl, rfl, rfl⟩, ?_⟩
  rw [hhome, Node.settled]
  cases n.groupId with
  | none => rfl
  | some id => rfl

/-- Wires do not change what a node tells of itself. -/
theorem SameCore.face (a : SameCore g h) {k : NodeKey} {n : Node} (hn : g.node? k = some n) :
    ∃ m, h.node? k = some m ∧ n.SameFace m ∧ m.groupId = n.groupId := by
  have hk := a.nodes k
  rw [hn, Option.map_some] at hk
  obtain ⟨m, hm, hcore⟩ := Option.map_eq_some_iff.1 hk
  exact ⟨m, hm, ⟨(congrArg Node.id hcore :), (congrArg Node.type hcore :),
    (congrArg Node.name hcore :), (congrArg Node.position hcore :),
    (congrArg Node.enabled hcore :)⟩, (congrArg Node.groupId hcore :)⟩

namespace Unresolved

/-- Relinking leaves the head of the graph, the pins and the ids that wires keep as they are. -/
theorem told_relink (hu : u.Unresolved) : u.relink.1.head = u.head ∧ SameShell u.reindex u.relink.1 ∧
    ∀ w, (u.relink.1.wire? w).map Wire.loose = (u.wire? w).map Wire.loose := by
  obtain ⟨g, a, hloose, hrelink⟩ := hu.exists_relink
  have hnodup : g.links.Nodup := a.links ▸ hu.wires.links_nodup
  obtain ⟨hhead, htold⟩ :=
    (pending_of_loose g.pinIndex hnodup fun w _ => hloose w).told (indexes_pinIndex g)
  have hjoined := a.sameShell.trans (sameShell_relinkWires g.pinIndex g g.links)
  rw [hrelink, relinkMain_eq]
  refine ⟨hhead.trans ?_, ⟨hjoined.ids, hjoined.pins, hjoined.members, hjoined.index⟩,
    fun w => (htold w).trans (congrArg (Option.map Wire.loose) (a.wire? w))⟩
  rw [a.eq]
  rfl

/-- Before relinking, the wires name the same pins. -/
theorem tracks_relink (hu : u.Unresolved) : Tracks u.relink.1 u (fun k => k) fun w => w := by
  obtain ⟨hhead, hshell, hwire⟩ := hu.told_relink
  have hindex : u.relink.1.pinIndex = u.pinIndex := hshell.pinIndex
  refine ⟨?_, fun w _ => (hwire w).symm, fun i => ?_⟩
  · rw [List.map_id']
    exact (congrArg (fun h => h.2.2.2) hhead).symm
  · rw [hindex]
    cases u.pinIndex.get? i <;> rfl

/-- Relinking resolves what was read. -/
theorem resolved (hu : u.Unresolved) (hd : u.Oriented) : Resolved u u.relink.1 := by
  have hgathered := (hu.relinked hd).gathered
  obtain ⟨hhead, hshell, hwire⟩ := hu.told_relink
  obtain ⟨g, a, hloose, hrelink⟩ := hu.exists_relink
  have hpin (r : PinRef) : g.pin? r = u.pin? r := a.pin? r
  have hwires : g.wire? = u.wire? := funext a.wire?
  have hindex : g.pinIndex = u.pinIndex := a.pinIndex
  -- the groups are settled, and the wires are joined after that
  have hpassed : Passed g.pinIndex g (relinkWires g.pinIndex g g.links).1 g.links :=
    (Passed.nil fun {r p} hp => hu.nodes.free ((hpin r).symm.trans hp)).run (indexes_pinIndex g)
      (a.links ▸ hu.wires.links_nodup) (hu.wires_to_join hd a)
  have hcore := sameCore_relinkWires g.pinIndex g g.links
  have hdatum : g.datum? = u.datum? := funext fun r => by rw [datum?, datum?, hpin]
  have harriving (t : PinRef) : g.arriving? t = u.arriving? t := by
    have hgiven : g.given? u.pinIndex = u.given? u.pinIndex :=
      funext fun w => by rw [given?, given?, hwires, hdatum]
    simp only [Graph.arriving?, feeder?, hwires, hindex, a.links, hgiven]
    rfl
  rw [hrelink, relinkMain_eq] at hgathered hhead hshell hwire ⊢
  generalize (relinkWires g.pinIndex g g.links).1 = h at *
  refine ⟨hhead, hshell, hwire, ?_, fun {k n} hn => ?_, ?_, hgathered, fun hr => ?_,
    fun {t} ht => ?_⟩
  · have hmain : h.mainId = u.mainId := by
      rw [hcore.mainId, a.eq]
      rfl
    have hids : h.idOf? = u.idOf? := funext hshell.ids
    have hmembers : h.members = u.members := hshell.members
    have hindexed : h.index = .firsts h.idOf? (fun k => k) h.members := by
      rw [hids, hmembers]
      exact hshell.index.trans (index_reindex u)
    have hfound : (fun id => (h.nodeWithId? id).isSome) =
        fun id => decide (id ∈ u.members.filterMap u.idOf?) := funext fun id => by
      rw [Bool.eq_iff_iff, isSome_nodeWithId?_iff hindexed, decide_eq_true_iff, hids, hmembers]
    rw [hmain, hfound]
  · obtain ⟨m, hm, hface, hid⟩ := a.face hn
    obtain ⟨l, hl, hface', hid'⟩ := hcore.face hm
    exact ⟨l, hl, hface.trans hface', hid'.trans hid⟩
  · rw [show ({ h with mainId := _ } : Graph).groups = g.groups from hcore.groups, a.groups,
      Forest.map_map]
    rfl
  · exact (hpassed.output hr).trans (by rw [hdatum])
  · refine (hpassed.input ht).trans ?_
    rw [← harriving, hdatum]
    rfl

/-- What the wires bring to an input is there after relinking. -/
theorem arrived (hu : u.Unresolved) (hg : u.relink.1.Oriented) {t : PinRef}
    (ht : t.side = .input) :
    (u.relink.1.datum? t).map (u.relink.1.arriving? t).getD = u.relink.1.datum? t := by
  have a := hu.resolved (hu.tracks_relink.oriented hg)
  have harriving : u.arriving? t = u.relink.1.arriving? t :=
    hu.tracks_relink.arriving? (t := t) hg (fun _ _ _ h => h) fun _ _ _ hr => (a.output hr).symm
  rw [a.input ht, harriving]
  cases u.datum? t with
  | none => rfl
  | some v => cases u.relink.1.arriving? t <;> rfl

end Unresolved
end Graph
end Patchbay
