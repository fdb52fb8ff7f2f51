import Patchbay.Proofs.Wiring.Members
/-!
# Graphs whose links are coherent

Every graph that editing leads to is wired. What this means for those who use a graph: its wires
join members as wires should, the pins know exactly the wires of the graph, and ids lead to the
members that have them.

## Main definitions

* `Graph.Coherent`: the links of a graph are told alike wherever they are told.

## Main statements

* `Reachable.wired`: every graph that editing leads to is wired.
* `Reachable.links_coherent`: its links are coherent, and it is valid.
-/
namespace Patchbay
namespace Graph

/-- The links of a graph are told alike wherever they are told. -/
structure Coherent (g : Graph) : Prop where
  /-- Every wire leads from an output of a member to an input of another member of its kind. -/
  joined : ∀ w ∈ g.links, ∃ c s t p q, g.wire? w = some c ∧ g.Joins c s t p q
  /-- A pin knows a wire that feeds it exactly if the wire is listed and ends there. -/
  incoming : ∀ {r p}, r.node ∈ g.members → g.pin? r = some p →
    ∀ w, p.incoming = some w ↔ w ∈ g.links ∧ g.targetOf? w = some r
  /-- No two wires end at one pin. -/
  target_unique : ∀ {w v r}, w ∈ g.links → v ∈ g.links → g.targetOf? w = some r →
    g.targetOf? v = some r → w = v
  /-- An output knows its wires in their order, each of them once. -/
  outgoing : ∀ {r p}, r.node ∈ g.members → r.side = .output → g.pin? r = some p →
    p.outgoing = g.wiresFrom r ∧ p.outgoing.Nodup
  /-- The wire found for an input is the one that the input knows. -/
  wireTo : ∀ {r p}, r.node ∈ g.members → r.side = .input → g.pin? r = some p →
    g.wireTo? r = p.incoming
  /-- An id leads to the member that has it, if there is exactly one. -/
  found : ∀ id k, g.nodeWithId? id = some k ↔
    k ∈ g.members ∧ g.idOf? k = some id ∧ ∀ j ∈ g.members, g.idOf? j = some id → j = k
  /-- Every member is found under its own id, and no member is listed twice. -/
  own : ∀ k ∈ g.members, ∃ id, g.idOf? k = some id ∧ g.nodeWithId? id = some k
  distinct : g.members.Nodup
  /-- The pins of members belong to them. -/
  owned : ∀ {r p}, r.node ∈ g.members → g.pin? r = some p → p.orphan = false

/-- Members are alive. -/
theorem Coherent.exists_node {g : Graph} (hg : g.Coherent) {k : NodeKey} (hk : k ∈ g.members) :
    ∃ n, g.node? k = some n := by
  obtain ⟨id, hid, -⟩ := hg.own k hk
  exact (Option.map_eq_some_iff.1 hid).imp fun _ h => h.1

/-- A pin of a member is found to belong to it. -/
theorem Coherent.owner?_of_pin {g : Graph} (hg : g.Coherent) {r : PinRef} {p : Pin}
    (hr : r.node ∈ g.members) (hp : g.pin? r = some p) : g.owner? r = some r.node := by
  simp [owner?, hp, hg.owned hr hp]

/-- Graphs with the same wiring are coherent alike. -/
theorem Coherent.congr {g h : Graph} (hg : g.Coherent) (a : SameWiring g h) : h.Coherent := by
  refine ⟨?_, ?_, ?_, ?_, ?_, ?_, ?_, ?_, ?_⟩
  · intro w hw
    rw [a.links] at hw
    obtain ⟨c, s, t, p, q, hc, j⟩ := hg.joined w hw
    obtain ⟨p', q', j'⟩ := j.congr a.sameShell
    exact ⟨c, s, t, p', q', (a.wire? w).trans hc, j'⟩
  · intro r p hr hp w
    obtain ⟨q, hq, hb⟩ := a.pin? hp
    rw [a.members] at hr
    rw [a.links, a.targetOf?, ← (Pin.of_bare_eq hb).2.2.2.2.2.1]
    exact hg.incoming hr hq w
  · intro w v r hw hv hwr hvr
    rw [a.links] at hw hv
    rw [a.targetOf?] at hwr hvr
    exact hg.target_unique hw hv hwr hvr
  · intro r p hr hside hp
    obtain ⟨q, hq, hb⟩ := a.pin? hp
    rw [a.members] at hr
    simp only [wiresFrom_eq, a.links, a.sourceOf?]
    rw [← wiresFrom_eq, ← (Pin.of_bare_eq hb).2.2.2.2.2.2]
    exact hg.outgoing hr hside hq
  · intro r p hr hside hp
    obtain ⟨q, hq, hb⟩ := a.pin? hp
    rw [a.members] at hr
    simp only [wireTo?_eq, a.links, a.targetOf?]
    rw [← wireTo?_eq, ← (Pin.of_bare_eq hb).2.2.2.2.2.1]
    exact hg.wireTo hr hside hq
  · intro id k
    simp only [a.nodeWithId?, a.members, a.ids]
    exact hg.found id k
  · intro k hk
    rw [a.members] at hk
    simp only [a.nodeWithId?, a.ids]
    exact hg.own k hk
  · rw [a.members]; exact hg.distinct
  · intro r p hr hp
    obtain ⟨q, hq, hb⟩ := a.pin? hp
    rw [a.members] at hr
    exact (Pin.of_bare_eq hb).2.2.2.2.1 ▸ hg.owned hr hq

/-- A member is found under its own id. -/
theorem Coherent.contains_iff {g : Graph} (hg : g.Coherent) (k : NodeKey) :
    g.contains k = true ↔ k ∈ g.members := by
  rw [contains_eq, Option.any_eq_true]
  constructor
  · rintro ⟨id, -, h⟩
    exact ((hg.found id k).1 (of_decide_eq_true h)).1
  · intro hk
    obtain ⟨id, hid, h⟩ := hg.own k hk
    exact ⟨id, hid, decide_eq_true h⟩

namespace Wired
variable {g : Graph}

/-- The first wire of the graph that ends at a pin is the one that the pin knows. -/
theorem find?_target (hg : Wired g) {r : PinRef} {p : Pin} (hp : g.pin? r = some p) :
    (g.links.find? fun w => g.targetOf? w = some r) = p.incoming := by
  cases hi : p.incoming with
  | none =>
    rw [List.find?_eq_none]
    intro w _ hw
    have h := (hg.incoming hp w).2 (of_decide_eq_true hw)
    rw [hi] at h
    cases h
  | some w =>
    have hwr := (hg.incoming hp w).1 hi
    have hfound : (g.links.find? fun w => g.targetOf? w = some r).isSome :=
      List.find?_isSome.2 ⟨w, hg.target_listed hwr, decide_eq_true hwr⟩
    obtain ⟨v, hv⟩ := Option.isSome_iff_exists.1 hfound
    have hvr := (hg.incoming hp v).2 (by simpa using List.find?_some hv)
    rw [hv, ← hi, hvr]

/-- The links of a wired graph are coherent. -/
theorem coherent (hg : Wired g) : g.Coherent := by
  have htarget {r : PinRef} {p : Pin} (hp : g.pin? r = some p) (w : WireKey) :
      p.incoming = some w ↔ w ∈ g.links ∧ g.targetOf? w = some r := by
    rw [hg.incoming hp w, iff_and_self]
    exact hg.target_listed
  refine ⟨?_, fun _ hp => htarget hp, ?_, ?_, ?_, ?_, ?_, hg.members_nodup, fun _ => hg.adopted⟩
  · intro w hw
    obtain ⟨c, hc⟩ := Option.isSome_iff_exists.1 ((hg.live w).1 hw)
    obtain ⟨s, t, p, q, j⟩ := hg.joined hc
    exact ⟨c, s, t, p, q, hc, j⟩
  · intro w v r _ _ hwr hvr
    obtain ⟨c, hc, hct⟩ := Option.bind_eq_some_iff.1 hwr
    obtain ⟨s, t, p, q, j⟩ := hg.joined hc
    obtain rfl : t = r := Option.some.inj (j.target.symm.trans hct)
    have hw := (hg.incoming j.target_pin w).2 hwr
    have hv := (hg.incoming j.target_pin v).2 hvr
    exact Option.some.inj (hw.symm.trans hv)
  · intro r p _ _ hp
    rw [wiresFrom_eq, ← hg.outgoing hp]
    refine ⟨rfl, ?_⟩
    rw [hg.outgoing hp]
    exact hg.nodup.filter _
  · intro r p _ _ hp
    rw [wireTo?_eq]
    exact hg.find?_target hp
  · intro id k
    rw [hg.indexed]
    refine ⟨fun ⟨hk, hid⟩ => ⟨hk, hid, fun j hj hjd => ?_⟩, fun h => ⟨h.1, h.2.1⟩⟩
    have hk := (hg.indexed id k).2 ⟨hk, hid⟩
    have hj := (hg.indexed id j).2 ⟨hj, hjd⟩
    exact Option.some.inj (hj.symm.trans hk)
  · intro k hk
    obtain ⟨id, hid⟩ := hg.members_live k hk
    exact ⟨id, hid, (hg.indexed id k).2 ⟨hk, hid⟩⟩

/-- A wired graph is valid. -/
theorem validate (hg : Wired g) : g.validate = true := by
  rw [Graph.validate, List.all_eq_true]
  intro w hw
  obtain ⟨c, hc⟩ := Option.isSome_iff_exists.1 ((hg.live w).1 hw)
  obtain ⟨s, t, p, q, j⟩ := hg.joined hc
  have hs : g.owner? s = some s.node := by simp [owner?, j.source_pin, hg.adopted j.source_pin]
  have ht : g.owner? t = some t.node := by simp [owner?, j.target_pin, hg.adopted j.target_pin]
  have hsource := (hg.contains_iff s.node).2 j.source_member
  have htarget := (hg.contains_iff t.node).2 j.target_member
  obtain ⟨id, sourceId, targetId, source, target⟩ := c
  obtain rfl : source = some s := j.source
  obtain rfl : target = some t := j.target
  simp [isValidWire, sourceNode?, targetNode?, hc, hs, ht, j.source_pin, j.target_pin, j.kind,
    j.source_side, j.target_side, hsource, htarget]

/-- Every operation keeps a graph wired. -/
theorem apply (hg : Wired g) (e : Edit) (he : e.Admissible g) : Wired (e.apply g) := by
  cases e with
  | newNode n => exact hg.newNode he
  | insertNode k => exact hg.insertNode he
  | dropNode k => exact hg.dropNode he
  | removeNode k => exact hg.removeNode k
  | removeNodeWithId id =>
    simp only [Edit.apply, removeNodeWithId]
    split
    · exact hg.removeNode _
    · exact hg
  | connect s t => exact hg.connect s t
  | connectNamed a output b input => exact hg.connectNamed a output b input
  | removeWire w => exact hg.removeWire w
  | removeWireWithId id =>
    simp only [Edit.apply, removeWireWithId]
    split
    · exact hg.removeWire _
    · exact hg
  | setId | setName | setCategory | setPolicy =>
    exact hg.congr (sameWiring_of_eq rfl rfl rfl rfl rfl rfl)
  | setMain id => exact hg.setMain id
  | nameNode k | placeNode k | enableNode k =>
    exact hg.congr (sameWiring_modifyNode g k (fun _ => rfl) fun _ s => by cases s <;> rfl)
  | setValue r v => exact hg.congr (sameWiring_modifyPin g r fun p => Pin.bare_assign p v)
  | newGroup id name bounds =>
    exact hg.congr ((sameWiring_newGroup g name bounds).trans (sameWiring_modifyGroup _ _ _))
  | dropGroup a => exact hg.congr (sameWiring_dropGroup g a)
  | nameGroup a | setBounds a => exact hg.congr (sameWiring_modifyGroup g a _)
  | joinGroup a k => exact hg.congr (sameWiring_joinGroup g a k)
  | leaveGroup a k => exact hg.congr (sameWiring_leaveGroup g a k)
  | clearGroup a => exact hg.congr (sameWiring_clearGroup g a)
  | adoptGroup parent child => exact hg.congr (sameWiring_adoptGroup g parent child)
  | releaseGroup parent child => exact hg.congr (sameWiring_releaseGroup g parent child)
  | registerGroup a => exact hg.congr (sameWiring_registerGroup g a)
  | removeGroup a => exact hg.congr (sameWiring_removeGroup g a)
  | moveNodeToGroup k a => exact hg.congr (sameWiring_moveNodeToGroup g k a)
  | reparentGroup a parent => exact hg.congr (sameWiring_reparentGroup g a parent)
  | createGroup name bounds parent =>
    exact hg.congr (sameWiring_createGroup g name bounds parent)
  | createGroupAround l name ks padding parent =>
    exact hg.congr (sameWiring_createGroupAround l g name ks padding parent)
  | addToGroup l k a adjust padding => exact hg.congr (sameWiring_addNode l g k a adjust padding)
  | removeFromGroup k a => exact hg.congr (sameWiring_removeFromGroup g k a)
  | moveGroup a dx dy withNodes withChildren =>
    exact hg.congr (sameWiring_moveGroup g a dx dy withNodes withChildren)
  | fit l a padding => exact hg.congr (sameWiring_fit l g a padding)
  | expandAround l a k padding => exact hg.congr (sameWiring_expandAround l g a k padding)
  | constrain l a k wanted grow padding =>
    exact hg.congr (sameWiring_constrain l g a k wanted grow padding)

end Wired
end Graph

/-- Every graph that editing leads to is wired. -/
theorem Reachable.wired {g : Graph} (h : Reachable g) : g.Wired := by
  induction h with
  | new ids name category => exact Graph.Wired.new ids name category
  | edit _ e he ih => exact ih.apply e he

/-- The links of every graph that editing leads to are coherent, and the graph is valid. -/
theorem Reachable.links_coherent {g : Graph} (h : Reachable g) : g.Coherent ∧ g.validate = true :=
  ⟨h.wired.coherent, h.wired.validate⟩

/-- Two nodes and a wire between them. -/
theorem Reachable.links_coherent_pair :
    let pin (id : String) : Pin :=
      { id, name := id, type := .int, flow := false, value := .null, initial := .null }
    let source : Node :=
      { id := "a", type := "t", name := "a", inputs := [], outputs := [pin "x"],
        behaviour := pure () }
    let sink : Node :=
      { id := "b", type := "t", name := "b", inputs := [pin "y"], outputs := [],
        behaviour := pure () }
    let g := [Edit.newNode source, .insertNode 0, .newNode sink, .insertNode 1,
      .connect ⟨0, .output, 0⟩ ⟨1, .input, 0⟩].foldl Edit.apply (.new {})
    Reachable g ∧ g.links = [0] ∧ g.Coherent ∧ g.validate = true := by
  intro pin source sink g
  have hpin (id : String) : (pin id).Free := ⟨rfl, rfl, rfl⟩
  have hsource : source.Fresh := ⟨by rintro (_ | _) <;> simp [source, Node.pins, hpin], rfl, rfl⟩
  have hsink : sink.Fresh := ⟨by rintro (_ | _) <;> simp [sink, Node.pins, hpin], rfl, rfl⟩
  have hg : Reachable g := (Reachable.new {} "Graph" .controlFlow).edits
    ⟨hsource, List.not_mem_nil, hsink, (by decide : (1 : Nat) ∉ [0]), trivial, trivial⟩
  exact ⟨hg, by decide, hg.links_coherent⟩

end Patchbay
