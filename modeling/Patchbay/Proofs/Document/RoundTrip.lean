import Mathlib.Data.List.Find
import Patchbay.Proofs.Document.Restored
import Patchbay.Proofs.Document.Rewire
/-!
# Documents that are read back

The document of a graph is read as a copy of the graph: the same nodes, wires and groups in the
same order under the same ids, wired and grouped alike, with the same values wherever no wire
brings one. What lies beside the graph is not written, so a node that is in a group there is in no
group of the copy.

## Main definitions

* `Graph.Copy`: one graph is a copy of another one, with its parts under other keys.

## Main statements

* `Reachable.load_ofGraph`: the document of a graph that editing leads to is read as a copy of it.
-/
namespace Patchbay

/-- What a pin tells of itself besides its value and its wires. -/
def Pin.face (p : Pin) : String × String × ValueType × Bool := (p.id, p.kind)

/-- The wire with its pins under other keys. -/
def Wire.move (f : NodeKey → NodeKey) (c : Wire) : Wire :=
  { c with source := c.source.map (·.move f), target := c.target.map (·.move f) }

namespace Graph

/-- One graph is a copy of another one, with its nodes and wires under other keys. -/
structure Copy (g h : Graph) (f : NodeKey → NodeKey) (e : WireKey → WireKey) : Prop where
  id : h.id = g.id
  name : h.name = g.name
  category : h.category = g.category
  mainId : h.mainId = g.mainId
  members : h.members = g.members.map f
  node : ∀ {k n}, k ∈ g.members → g.node? k = some n → ∃ m, h.node? (f k) = some m ∧ n.SameFace m
  pin : ∀ {r}, r.node ∈ g.members → (h.pin? (r.move f)).map Pin.face = (g.pin? r).map Pin.face
  links : h.links = g.links.map e
  wire : ∀ {w c}, w ∈ g.links → g.wire? w = some c → h.wire? (e w) = some (c.move f)
  /-- The pins know the same wires, an output in the same order. -/
  known : ∀ {r p q}, r.node ∈ g.members → g.pin? r = some p → h.pin? (r.move f) = some q →
    q.incoming = p.incoming.map e ∧ q.outgoing = p.outgoing.map e
  /-- Groups keep their order and what they tell of themselves. -/
  groups : h.groups.map Group.outline = g.groups.map Group.outline
  /-- A node is in the same group, if that belongs to the graph, and in none otherwise. -/
  grouped : ∀ {k}, k ∈ g.members →
    (h.home? (f k)).map Group.outline = (g.groupOf? k).map Group.outline
  ungrouped : ∀ {k n}, h.node? k = some n → h.home? k = none → n.group = none
  listed : ∀ b ∈ h.groups.preorder, ∀ k, k ∈ b.members ↔
    ∃ n, h.node? k = some n ∧ n.group = some b.key
  /-- A data pin that no wire feeds keeps its value. -/
  unfed : ∀ {r p q}, r.node ∈ g.members → g.pin? r = some p → h.pin? (r.move f) = some q →
    p.flow = false → p.incoming = none → q.value = p.value
  /-- A fed data input holds the value at the source of its wire. -/
  fed : ∀ {w s t p q}, w ∈ h.links → h.sourceOf? w = some s → h.targetOf? w = some t →
    h.pin? s = some p → h.pin? t = some q → q.flow = false → q.value = p.value

variable {g : Graph}

/-- Where the source of a wire goes. -/
def sourceSpot (g : Graph) (i : WireKey) : PinRef :=
  ((g.links[i]?.bind g.sourceOf?).map (PinRef.move g.nodeSpot)).getD ⟨0, .output, 0⟩

/-- Where the target of a wire goes. -/
def targetSpot (g : Graph) (i : WireKey) : PinRef :=
  ((g.links[i]?.bind g.targetOf?).map (PinRef.move g.nodeSpot)).getD ⟨0, .input, 0⟩

theorem sourceSpot_wireSpot {w : WireKey} {s : PinRef} (hw : w ∈ g.links)
    (hs : g.sourceOf? w = some s) : g.sourceSpot (g.wireSpot w) = s.move g.nodeSpot := by
  rw [sourceSpot, wireSpot, List.getElem?_idxOf hw, Option.bind_some, hs]
  rfl

theorem targetSpot_wireSpot {w : WireKey} {t : PinRef} (hw : w ∈ g.links)
    (ht : g.targetOf? w = some t) : g.targetSpot (g.wireSpot w) = t.move g.nodeSpot := by
  rw [targetSpot, wireSpot, List.getElem?_idxOf hw, Option.bind_some, ht]
  rfl

/-- Different pins of members go to different places. -/
theorem move_inj {r r' : PinRef} (hr : r.node ∈ g.members)
    (h : r.move g.nodeSpot = r'.move g.nodeSpot) : r = r' := by
  obtain ⟨k, s, i⟩ := r
  obtain ⟨k', s', i'⟩ := r'
  simp only [PinRef.move, PinRef.mk.injEq] at h
  obtain ⟨hk, rfl, rfl⟩ := h
  obtain rfl : k = k' := (List.idxOf_inj hr).1 hk
  rfl

/-- The ends of a wire of the graph. -/
theorem Wired.ends (hw : g.Wired) {w : WireKey} (h : w ∈ g.links) :
    ∃ c s t p q, g.wire? w = some c ∧ g.Joins c s t p q ∧ g.sourceOf? w = some s ∧
      g.targetOf? w = some t := by
  obtain ⟨c, hc⟩ := Option.isSome_iff_exists.1 ((hw.live w).1 h)
  obtain ⟨s, t, p, q, j⟩ := hw.joined hc
  exact ⟨c, s, t, p, q, hc, j, by rw [sourceOf?, hc]; exact j.source,
    by rw [targetOf?, hc]; exact j.target⟩

/-- Pins of a restored graph are found under their ids. -/
theorem Restored.get?_pinIndex {m : Graph} (a : Restored g m) (hd : g.DistinctIds) {r : PinRef}
    {p : Pin} (hr : r.node ∈ g.members) (hp : g.pin? r = some p) :
    m.pinIndex.get? p.id = some (r.move g.nodeSpot) := by
  obtain ⟨q, hq, hpq⟩ := a.pin hr hp
  rw [← hpq.id]
  refine Graph.get?_pinIndex ?_ hq fun r' q' hq' hid => ?_
  · rw [a.members]
    exact List.mem_map_of_mem hr
  · obtain ⟨r'', p', -, rfl, hp', hpq'⟩ := a.pin_from hq'
    rw [hd.pins hp' hp (hpq'.id.symm.trans (hid.trans hpq.id))]

/-- Both pins of every wire are found. -/
theorem Restored.findable {m : Graph} (a : Restored g m) (hw : g.Wired) (hd : g.DistinctIds)
    {w : WireKey} (h : w ∈ g.links) : m.Findable m.pinIndex (g.wireSpot w)
      (g.sourceSpot (g.wireSpot w)) (g.targetSpot (g.wireSpot w)) := by
  obtain ⟨c, s, t, p, q, hc, j, hs, ht⟩ := hw.ends h
  obtain ⟨p', hp', hpr⟩ := a.pin j.source_member j.source_pin
  obtain ⟨q', hq', hqr⟩ := a.pin j.target_member j.target_pin
  have hkind : p.flow = q.flow := by
    have hk := j.kind
    simp only [sameKind, Bool.and_eq_true, decide_eq_true_eq] at hk
    exact hk.1
  have hflow {p q : Pin} (hr : p.Reads q) : q.flow = p.flow := congrArg (fun k => k.2.2) hr.kind
  rw [sourceSpot_wireSpot h hs, targetSpot_wireSpot h ht]
  refine ⟨⟨c.loose, a.wire h hc, rfl, rfl, ?_, ?_, ?_, ?_⟩, ⟨p', q', hp', hq', ?_⟩,
    j.source_side, j.target_side⟩
  · rw [show c.loose.sourceId = p.id from j.source_id]
    exact a.get?_pinIndex hd j.source_member j.source_pin
  · rw [show c.loose.targetId = q.id from j.target_id]
    exact a.get?_pinIndex hd j.target_member j.target_pin
  · rw [pinIdOr_of_pin? hp', hpr.id]
    exact j.source_id.symm
  · rw [pinIdOr_of_pin? hq', hqr.id]
    exact j.target_id.symm
  · rw [hflow hpr, hflow hqr, hkind]

/-- All wires of a restored graph are joined again. -/
theorem Restored.rewired {m : Graph} (a : Restored g m) (hw : g.Wired) (hd : g.DistinctIds) :
    Rewired m (relinkWires m.pinIndex m m.links).1 g.sourceSpot g.targetSpot m.links := by
  have hnil : Rewired m m g.sourceSpot g.targetSpot [] := .nil fun hq => by
    obtain ⟨_, _, _, _, _, hpq⟩ := a.pin_from hq
    exact hpq.free
  have hlink {i : WireKey} (hi : i ∈ m.links) : ∃ w ∈ g.links, g.wireSpot w = i :=
    List.mem_map.1 (a.links ▸ hi)
  refine hnil.run ?_ (fun i hi => ?_) fun i hi j hj hij => ?_
  · rw [List.nil_append, a.links]
    exact hw.nodup.map_on fun v hv w _ h => (List.idxOf_inj hv).1 h
  · obtain ⟨w, h, rfl⟩ := hlink hi
    exact a.findable hw hd h
  · obtain ⟨v, hv, rfl⟩ := hlink hi
    obtain ⟨w, h, rfl⟩ := hlink hj
    -- two wires that end at one place ended at one pin
    obtain ⟨_, _, t, _, q, _, jv, _, htv⟩ := hw.ends hv
    obtain ⟨_, _, t', _, _, _, _, _, htw⟩ := hw.ends h
    rw [targetSpot_wireSpot hv htv, targetSpot_wireSpot h htw] at hij
    obtain rfl : t = t' := move_inj jv.target_member hij
    have hqv := (hw.incoming jv.target_pin v).2 htv
    have hqw := (hw.incoming jv.target_pin w).2 htw
    rw [Option.some.inj (hqv.symm.trans hqw)]

/-- A pin knows the wires that were joined to it. -/
theorem Restored.known {m : Graph} (a : Restored g m) (hw : g.Wired) {r : PinRef} {p : Pin}
    (hp : g.pin? r = some p) :
    (m.links.find? fun w => g.targetSpot w = r.move g.nodeSpot) = p.incoming.map g.wireSpot ∧
      (m.links.filter fun w => g.sourceSpot w = r.move g.nodeSpot) =
        p.outgoing.map g.wireSpot := by
  have hsource {w : WireKey} (h : w ∈ g.links) :
      g.sourceSpot (g.wireSpot w) = r.move g.nodeSpot ↔ g.sourceOf? w = some r := by
    obtain ⟨_, s, _, _, _, _, j, hs, _⟩ := hw.ends h
    rw [sourceSpot_wireSpot h hs, hs, Option.some.injEq]
    exact ⟨move_inj j.source_member, fun e => e ▸ rfl⟩
  have htarget {w : WireKey} (h : w ∈ g.links) :
      g.targetSpot (g.wireSpot w) = r.move g.nodeSpot ↔ g.targetOf? w = some r := by
    obtain ⟨_, _, t, _, _, _, j, _, ht⟩ := hw.ends h
    rw [targetSpot_wireSpot h ht, ht, Option.some.injEq]
    exact ⟨move_inj j.target_member, fun e => e ▸ rfl⟩
  rw [a.links]
  constructor
  · rw [List.find?_map]
    have hfind : (g.links.find? fun w => g.targetSpot (g.wireSpot w) = r.move g.nodeSpot) =
        p.incoming := by
      rw [← hw.find?_target hp]
      exact List.find?_congr fun w h => decide_eq_decide.2 (htarget h)
    exact congrArg (Option.map g.wireSpot) hfind
  · rw [List.filter_map, hw.outgoing hp]
    refine congrArg (List.map g.wireSpot) (List.filter_congr fun w h => ?_)
    exact decide_eq_decide.2 (hsource h)

/-- No wire feeds the source of a wire. -/
theorem Wired.incoming_source (hw : g.Wired) {r : PinRef} {p : Pin} (hr : r.side = .output)
    (hp : g.pin? r = some p) : p.incoming = none := by
  rw [Option.eq_none_iff_forall_ne_some]
  intro w hi
  have ht := (hw.incoming hp w).1 hi
  obtain ⟨_, _, t, _, _, _, j, _, ht'⟩ := hw.ends (hw.target_listed ht)
  obtain rfl : t = r := Option.some.inj (ht'.symm.trans ht)
  have := j.target_side
  rw [hr] at this
  cases this

/-- What the pins of a restored graph come to when its wires are joined. -/
theorem Restored.linked {m h : Graph} (a : Restored g m) (hw : g.Wired)
    (b : Rewired m h g.sourceSpot g.targetSpot m.links) {r : PinRef} {p : Pin}
    (hr : r.node ∈ g.members) (hp : g.pin? r = some p) :
    ∃ l, m.pin? (r.move g.nodeSpot) = some l ∧ p.Reads l ∧
      h.pin? (r.move g.nodeSpot) = some { l with
        incoming := p.incoming.map g.wireSpot
        outgoing := p.outgoing.map g.wireSpot
        value := ((p.incoming.map g.wireSpot).bind fun w =>
          if l.flow then none else (m.pin? (g.sourceSpot w)).map (·.value)).getD l.value } := by
  obtain ⟨l, hl, hpl⟩ := a.pin hr hp
  obtain ⟨hin, hout⟩ := a.known hw hp
  refine ⟨l, hl, hpl, ?_⟩
  rw [b.pin, hl, Option.map_some, Pin.linked, hin, hout]

/-- A wire that is read has its ends again. -/
theorem Restored.wire_joined {m h : Graph} (a : Restored g m) (hw : g.Wired)
    (b : Rewired m h g.sourceSpot g.targetSpot m.links) {w : WireKey} {c : Wire}
    (hwl : w ∈ g.links) (hc : g.wire? w = some c) :
    h.wire? (g.wireSpot w) = some (c.move g.nodeSpot) := by
  obtain ⟨c', s, t, _, _, hc', j, hs, ht⟩ := hw.ends hwl
  obtain rfl : c = c' := Option.some.inj (hc.symm.trans hc')
  rw [b.wire, if_pos (a.links ▸ List.mem_map_of_mem hwl), a.wire hwl hc,
    sourceSpot_wireSpot hwl hs, targetSpot_wireSpot hwl ht]
  simp [Wire.move, Wire.joined, Wire.loose, j.source, j.target]

/-- Every pin is read, and no other one. -/
theorem Restored.face {m h : Graph} (a : Restored g m) (hw : g.Wired)
    (b : Rewired m h g.sourceSpot g.targetSpot m.links) {r : PinRef} (hr : r.node ∈ g.members) :
    (h.pin? (r.move g.nodeSpot)).map Pin.face = (g.pin? r).map Pin.face := by
  cases hp : g.pin? r with
  | some p =>
    obtain ⟨l, -, hpl, hl⟩ := a.linked hw b hr hp
    rw [hl, Option.map_some, Option.map_some, Pin.face, Pin.face, hpl.id]
    exact congrArg (fun k => some (p.id, k)) hpl.kind
  | none =>
    rw [b.pin]
    cases hl : m.pin? (r.move g.nodeSpot) with
    | none => rfl
    | some l =>
      obtain ⟨r', p, hr', hmove, hp', -⟩ := a.pin_from hl
      rw [move_inj hr' hmove, hp] at hp'
      cases hp'

/-- A fed data input holds the value at the source of its wire. -/
theorem Restored.fed {m h : Graph} (a : Restored g m) (hw : g.Wired)
    (b : Rewired m h g.sourceSpot g.targetSpot m.links) {w : WireKey} (hwl : w ∈ g.links)
    {s t : PinRef} {p q : Pin} (hs : h.sourceOf? (g.wireSpot w) = some s)
    (ht : h.targetOf? (g.wireSpot w) = some t) (hp : h.pin? s = some p) (hq : h.pin? t = some q)
    (hflow : q.flow = false) : q.value = p.value := by
  obtain ⟨c, s', t', p', q', hc, j, hs', ht'⟩ := hw.ends hwl
  -- the ends of the wire are those of a wire of the graph
  rw [sourceOf?, a.wire_joined hw b hwl hc] at hs
  rw [targetOf?, a.wire_joined hw b hwl hc] at ht
  simp only [Option.bind_some, Wire.move, j.source, j.target, Option.map_some,
    Option.some.injEq] at hs ht
  subst hs ht
  obtain ⟨l, hl, -, hlp⟩ := a.linked hw b j.source_member j.source_pin
  obtain ⟨l', -, -, hlq⟩ := a.linked hw b j.target_member j.target_pin
  obtain rfl := Option.some.inj (hlp.symm.trans hp)
  obtain rfl := Option.some.inj (hlq.symm.trans hq)
  have hdata : ¬ l'.flow = true := ne_true_of_eq_false hflow
  rw [(hw.incoming j.target_pin w).2 ht', hw.incoming_source j.source_side j.source_pin,
    Option.map_some, Option.map_none, Option.bind_some, if_neg hdata, sourceSpot_wireSpot hwl hs',
    hl]
  rfl

/-- A restored graph whose wires are joined is a copy. -/
theorem Restored.copy {m h : Graph} (a : Restored g m) (hw : g.Wired)
    (b : Rewired m h g.sourceSpot g.targetSpot m.links) : Copy g h g.nodeSpot g.wireSpot := by
  have hhead := b.head
  simp only [head, Prod.mk.injEq] at hhead
  obtain ⟨hid, hname, hcategory, hlinks⟩ := hhead
  have hhome (k : NodeKey) : h.home? k = m.home? k := by
    rw [home?, home?, b.core.group?_node, funext b.core.group?]
  refine ⟨hid.trans a.id, hname.trans a.name, hcategory.trans a.category,
    b.core.mainId.trans a.mainId, b.core.members.trans a.members, fun {k n} hk hn => ?_,
    a.face hw b, hlinks.trans a.links, a.wire_joined hw b, fun {r p q} hr hp hq => ?_,
    ?_, fun {k} hk => ?_, fun {k n} hn halone => ?_, fun c hc k => ?_,
    fun {r p q} hr hp hq hflow hfree => ?_, fun {i s t p q} hi hs ht hp hq hflow => ?_⟩
  · obtain ⟨l, hl, hnl⟩ := a.node hk hn
    have hcore := b.core.nodes (g.nodeSpot k)
    rw [hl, Option.map_some] at hcore
    obtain ⟨l', hl', hll⟩ := Option.map_eq_some_iff.1 hcore
    simp only [Node.core, Node.mk.injEq] at hll
    obtain ⟨hid, htype, hname, hposition, henabled, -⟩ := hll
    exact ⟨l', hl', hid.trans hnl.id, htype.trans hnl.type, hname.trans hnl.name,
      hposition.trans hnl.position, henabled.trans hnl.enabled⟩
  · obtain ⟨l, -, -, hl⟩ := a.linked hw b hr hp
    obtain rfl := Option.some.inj (hl.symm.trans hq)
    exact ⟨rfl, rfl⟩
  · rw [b.core.groups]
    exact a.groups
  · rw [hhome]
    exact a.grouped hk
  · obtain ⟨l, hl, hnl⟩ := b.core.node? hn
    rw [hhome] at halone
    have hgroup : l.core.group = n.core.group := by rw [hnl]
    have hfree : l.group = none := a.ungrouped hl halone
    exact hgroup.symm.trans hfree
  · have hgroup := b.core.group?_node k
    rw [b.core.groups] at hc
    rw [a.listed c hc k, ← Option.bind_eq_some_iff, ← Option.bind_eq_some_iff, hgroup]
  · obtain ⟨l, -, hpl, hl⟩ := a.linked hw b hr hp
    obtain rfl := Option.some.inj (hl.symm.trans hq)
    rw [hfree]
    exact hpl.value hflow
  · rw [hlinks, a.links] at hi
    obtain ⟨w, hwl, rfl⟩ := List.mem_map.1 hi
    exact a.fed hw b hwl hs ht hp hq hflow

/-- The main node is found again, so nothing is forgotten. -/
theorem Restored.relinkMain {m h : Graph} (a : Restored g m) (hm : g.MainListed)
    (b : SameCore m h) : h.relinkMain.1 = h := by
  rw [Graph.relinkMain]
  split
  · rfl
  · next id hid =>
    have hmain : g.mainId = some id := a.mainId.symm.trans (b.mainId.symm.trans hid)
    have hfound : (h.nodeWithId? id).isSome = true := by
      rw [nodeWithId?, b.index]
      exact a.found (hm id hmain)
    rw [if_pos hfound]

/-- Looking up the references of what was read comes to a copy. -/
theorem copy_relink {ls : List Node} (index : Dict NodeKey) (ids : IdSupply) (hw : g.Wired)
    (hgr : g.Grouped) (hm : g.MainListed) (hd : g.DistinctIds)
    (hreads : List.Forall₂ Node.Reads g.memberNodes ls) :
    Copy g (g.unlinked ls index ids).relink.1 g.nodeSpot g.wireSpot := by
  have a : Restored g (g.unlinked ls index ids).reindex.adoptPins.relinkGroups :=
    restored_relinkGroups hw hgr hd hreads
  have b := a.rewired hw hd
  have hrelink : (g.unlinked ls index ids).relink.1 =
      (relinkWires (g.unlinked ls index ids).reindex.adoptPins.relinkGroups.pinIndex
        (g.unlinked ls index ids).reindex.adoptPins.relinkGroups
        (g.unlinked ls index ids).reindex.adoptPins.relinkGroups.links).1 :=
    a.relinkMain hm b.core
  rw [hrelink]
  exact a.copy hw b

/-- The document of a graph is read as a copy of it. -/
theorem exists_copy (hw : g.Wired) (hgr : g.Grouped) (hm : g.MainListed) (hd : g.DistinctIds)
    {r : Registry} (hr : r.Covers g) (ids : IdSupply) :
    ∃ l, (Document.load r (.new ids) (Document.ofGraph g)).result = .ok l ∧
      g.Copy l g.nodeSpot g.wireSpot := by
  obtain ⟨ls, index, ids', hreads, hrun⟩ := Document.Loader.Runs.document (hd.legible hw hgr) hr ids
  refine ⟨(g.unlinked ls index ids').relink.1, ?_, copy_relink index ids' hw hgr hm hd hreads⟩
  have hrun :
      (Document.Loader.document r (Document.ofGraph g)).run { graph := .new ids } = _ := hrun
  simp only [Document.load, hrun]

end Graph

/-! ### Two nodes in two groups -/

/-- The type of a node and the kinds of its pins. -/
def Node.signature (n : Node) :
    String × List (String × ValueType × Bool) × List (String × ValueType × Bool) :=
  (n.type, n.inputs.map Pin.kind, n.outputs.map Pin.kind)

/-- A definition that is registered under its name makes nodes alike to those of its type. -/
theorem Registry.alike_of_registered {r : Registry} {d : Definition} {n : Node} (ids : IdSupply)
    (hd : r.find? d.name = some ⟨d.category, .definition d⟩)
    (hn : n.signature = (d.make ids).1.signature) :
    ∃ m ids', r.create n.type ids = some (m, ids') ∧ n.Alike m := by
  simp only [Node.signature, Prod.mk.injEq] at hn
  obtain ⟨htype, hin, hout⟩ := hn
  refine ⟨(d.make ids).1, (d.make ids).2, ?_, htype.symm, fun s => ?_⟩
  · rw [htype, Definition.type_make, Registry.create, hd]
    rfl
  · cases s
    · exact hin.symm
    · exact hout.symm

namespace GiveTake

/-- A type whose nodes give a number. -/
def giver : Definition :=
  { name := "give", category := "couple", outputs := [.data "x" .int .null] }

/-- A type whose nodes take a number. -/
def taker : Definition :=
  { name := "take", category := "couple", inputs := [.data "y" .int .null] }

def registry : Registry := ((default : Registry).register giver).register taker

/-- A node of a type whose ids are given. -/
def node (d : Definition) (id inputId outputId : String) : Node where
  id
  type := d.name
  name := d.name
  inputs := d.inputs.map (·.pin inputId)
  outputs := d.outputs.map (·.pin outputId)
  behaviour := d.behaviour

/-- A wire leads from a node in a group of the graph to a node in a group beside the graph. -/
def edits : List Edit :=
  [.newNode (node giver "a" "" "x"), .insertNode 0, .newNode (node taker "b" "y" ""), .insertNode 1,
    .connect ⟨0, .output, 0⟩ ⟨1, .input, 0⟩, .newGroup "G" "inner" ⟨0, 0, 1, 1⟩, .registerGroup 0,
    .joinGroup 0 0, .newGroup "L" "loose" ⟨0, 0, 1, 1⟩, .joinGroup 1 1]

def graph : Graph := edits.foldl Edit.apply (.new {})

theorem fresh_node (d : Definition) (id inputId outputId : String) :
    (node d id inputId outputId).Fresh := by
  refine ⟨fun s p hp => ?_, rfl, rfl⟩
  cases s <;> obtain ⟨c, -, rfl⟩ := List.mem_map.1 hp <;> cases c <;> exact ⟨rfl, rfl, rfl⟩

theorem reachable : Reachable graph :=
  (Reachable.new {} "Graph" .controlFlow).edits
    ⟨fresh_node .., List.not_mem_nil, fresh_node .., (by decide : (1 : Nat) ∉ [0]),
      trivial, trivial, trivial, ⟨by decide, by decide⟩, trivial, ⟨by decide, by decide⟩, trivial⟩

theorem distinctIds : graph.DistinctIds :=
  .of_forall (by decide) (by decide) (by decide) (by decide)

/-- The registry makes the nodes of both types. -/
theorem covers : registry.Covers graph := by
  have hmembers : graph.members = [0, 1] := by decide
  have hgiver : (graph.node? 0).map Node.signature = some ("give", [], [("x", .int, false)]) := rfl
  have htaker : (graph.node? 1).map Node.signature = some ("take", [("y", .int, false)], []) := rfl
  intro k hk n hn ids
  rw [hmembers, List.mem_pair] at hk
  obtain rfl | rfl := hk
  · rw [hn] at hgiver
    exact Registry.alike_of_registered (d := giver) ids rfl (Option.some.inj hgiver)
  · rw [hn] at htaker
    exact Registry.alike_of_registered (d := taker) ids rfl (Option.some.inj htaker)

end GiveTake

/-! ### Graphs that editing leads to -/

/-- The document of a graph that editing leads to is read as a copy of it. -/
theorem Reachable.load_ofGraph {g : Graph} (h : Reachable g) (hd : g.DistinctIds) {r : Registry}
    (hr : r.Covers g) (ids : IdSupply) :
    ∃ l, (Document.load r (.new ids) (Document.ofGraph g)).result = .ok l ∧
      g.Copy l g.nodeSpot g.wireSpot :=
  Graph.exists_copy h.wired h.grouped h.main_listed hd hr ids

/-- Two nodes in two groups are read back. -/
theorem Reachable.load_ofGraph_giveTake :
    Reachable GiveTake.graph ∧ GiveTake.graph.DistinctIds ∧
      GiveTake.registry.Covers GiveTake.graph ∧
      GiveTake.graph.links = [0] ∧ ∃ l,
        (Document.load GiveTake.registry (.new {}) (Document.ofGraph GiveTake.graph)).result =
          .ok l ∧
        GiveTake.graph.Copy l GiveTake.graph.nodeSpot GiveTake.graph.wireSpot :=
  ⟨GiveTake.reachable, GiveTake.distinctIds, GiveTake.covers, by decide,
    GiveTake.reachable.load_ofGraph GiveTake.distinctIds GiveTake.covers {}⟩

/-- A node of the graph does not keep its group if that lies beside the graph. -/
theorem not_forall_same_group_load :
    ¬ ∀ (g : Graph) (r : Registry) (ids : IdSupply), Reachable g → g.DistinctIds → r.Covers g →
      ∃ l, (Document.load r (.new ids) (Document.ofGraph g)).result = .ok l ∧
        ∀ k ∈ g.members,
          (l.home? (g.nodeSpot k)).map Group.outline = (g.home? k).map Group.outline := by
  intro h
  obtain ⟨l, hl, hkept⟩ :=
    h GiveTake.graph GiveTake.registry {} GiveTake.reachable
      GiveTake.distinctIds GiveTake.covers
  obtain ⟨l', hl', hcopy⟩ := Graph.exists_copy GiveTake.reachable.wired GiveTake.reachable.grouped
    GiveTake.reachable.main_listed GiveTake.distinctIds GiveTake.covers {}
  obtain rfl : l = l' := Except.ok.inj (hl.symm.trans hl')
  have hmember : 1 ∈ GiveTake.graph.members := by decide
  have hbeside : GiveTake.graph.groupOf? 1 = none := rfl
  have hname : (GiveTake.graph.home? 1).map (·.name) = some "loose" := rfl
  have hkept := (hkept 1 hmember).symm.trans (hcopy.grouped hmember)
  rw [hbeside, Option.map_none, Option.map_eq_none_iff] at hkept
  rw [hkept] at hname
  cases hname

end Patchbay
