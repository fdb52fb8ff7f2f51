import Patchbay.Proofs.Run.DataFlow
/-!
# Values on the pins of a data flow

A round of a data flow changes values in three ways: a node receives values along the wires that
lead to it, its step writes its outputs, and it sends these on. Wires lead from outputs to inputs,
so that none of the three gets in the way of another one.

## Main definitions

* `Graph.datum?`: the value on a data pin.
* `Graph.operands`: the values on the data inputs of a node.

## Main statements

* `Run.datum?_transfer`: a wire gives its target the value of its source.
* `Run.datum?_receive`, `Run.datum?_invoke`, `Run.datum?_send_of_ne`: what the parts of a round
  change.
-/
namespace Patchbay

/-- The value on a pin, if it is a data pin. -/
def Pin.datum? (p : Pin) : Option Value := if p.flow then none else some p.value

@[simp] theorem Pin.datum?_of_data {p : Pin} (h : p.flow = false) : p.datum? = some p.value := by
  simp [datum?, h]

@[simp] theorem Pin.datum?_of_flow {p : Pin} (h : p.flow = true) : p.datum? = none := by
  simp [datum?, h]

/-- The values on the data inputs of a node, in their order. -/
def Node.operands (n : Node) : List Value := n.inputs.filterMap Pin.datum?

/-- Lists with the same data at the same places have the same data in the same order. -/
theorem filterMap_datum?_congr {ps qs : List Pin}
    (h : ∀ i : Nat, ps[i]?.bind Pin.datum? = qs[i]?.bind Pin.datum?) :
    ps.filterMap Pin.datum? = qs.filterMap Pin.datum? := by
  have hnil {ps : List Pin} (h : ∀ i : Nat, ps[i]?.bind Pin.datum? = none) :
      ps.filterMap Pin.datum? = [] := by
    rw [List.filterMap_eq_nil_iff]
    intro p hp
    obtain ⟨i, hi⟩ := List.mem_iff_getElem?.1 hp
    simpa [hi] using h i
  induction ps generalizing qs with
  | nil => rw [hnil fun i => (h i).symm.trans (by simp)]; rfl
  | cons p ps ih =>
    cases qs with
    | nil => exact hnil fun i => (h i).trans (by simp)
    | cons q qs =>
      have hhead : p.datum? = q.datum? := by simpa using h 0
      have htail := ih fun i => by simpa using h (i + 1)
      rw [List.filterMap_cons, List.filterMap_cons, hhead, htail]

namespace Graph

/-- The value on a pin, if it is a data pin. -/
def datum? (g : Graph) (r : PinRef) : Option Value := (g.pin? r).bind Pin.datum?

/-- The values on the data inputs of a node, in their order. -/
def operands (g : Graph) (k : NodeKey) : List Value :=
  ((g.node? k).map Node.operands).getD []

/-- Nodes with the same data on the same inputs have the same operands. -/
theorem operands_congr {g h : Graph} {k j : NodeKey}
    (hi : ∀ i, g.datum? ⟨k, .input, i⟩ = h.datum? ⟨j, .input, i⟩) :
    g.operands k = h.operands j := by
  have hpins (l : Graph) (x : NodeKey) (i : Nat) : l.datum? ⟨x, .input, i⟩ =
      (((l.node? x).map (·.inputs)).getD [])[i]?.bind Pin.datum? := by
    cases hx : l.node? x <;> simp [datum?, pin?, hx, Node.pin?, Node.pins]
  have hoperands (l : Graph) (x : NodeKey) : l.operands x =
      (((l.node? x).map (·.inputs)).getD []).filterMap Pin.datum? := by
    cases hx : l.node? x <;> simp [operands, hx, Node.operands]
  rw [hoperands, hoperands]
  refine filterMap_datum?_congr fun i => ?_
  rw [← hpins, ← hpins, hi i]

theorem datum?_modifyPin_assign (g : Graph) (r r' : PinRef) (v : Value) :
    (g.modifyPin r (·.assign v)).datum? r' =
      if r = r' then (g.datum? r').map fun _ => v else g.datum? r' := by
  simp only [datum?, pin?_modifyPin]
  split
  · cases g.pin? r' with
    | none => rfl
    | some p => cases hp : p.flow <;> simp [Pin.datum?, Pin.assign, hp]
  · rfl

end Graph

namespace Run

/-! ### Wires -/

/-- A wire gives its target the value of its source, and changes nothing else. -/
theorem datum?_transfer {g : Graph} (hg : g.Coherent) {w : WireKey} (hw : w ∈ g.links)
    {s t : PinRef} (hs : g.sourceOf? w = some s) (ht : g.targetOf? w = some t) (r : PinRef) :
    (g.transfer w).datum? r = if r = t then g.datum? s else g.datum? r := by
  obtain ⟨⟨id, sourceId, targetId, source, target⟩, p, q, hc, j⟩ := joined_of_mem_links hg hw hs ht
  obtain rfl : source = some s := j.source
  obtain rfl : target = some t := j.target
  have hsource : g.datum? s = p.datum? := by simp [Graph.datum?, j.source_pin]
  have htarget : g.datum? t = q.datum? := by simp [Graph.datum?, j.target_pin]
  simp only [Graph.transfer, hc, j.source_pin]
  cases hp : p.flow with
  | true =>
    rw [if_pos rfl]
    split
    · next h => rw [h, htarget, hsource, Pin.datum?_of_flow hp, Pin.datum?_of_flow (j.flow_eq ▸ hp)]
    · rfl
  | false =>
    rw [if_neg Bool.false_ne_true, Graph.datum?_modifyPin_assign]
    by_cases h : r = t
    · subst h
      rw [if_pos rfl, if_pos rfl, htarget, hsource, Pin.datum?_of_data hp,
        Pin.datum?_of_data (j.flow_eq ▸ hp)]
      rfl
    · rw [if_neg h, if_neg (Ne.symm h)]

theorem source_side {g : Graph} (hg : g.Coherent) {w : WireKey} (hw : w ∈ g.links) {s : PinRef}
    (hs : g.sourceOf? w = some s) : s.side = .output := by
  obtain ⟨s', t, hs', ht, -⟩ := ends_of_mem_links hg hw
  obtain ⟨c, p, q, -, j⟩ := joined_of_mem_links hg hw hs ht
  exact j.source_side

theorem target_side {g : Graph} (hg : g.Coherent) {w : WireKey} (hw : w ∈ g.links) {t : PinRef}
    (ht : g.targetOf? w = some t) : t.side = .input := by
  obtain ⟨s, t', -, ht', hside, -⟩ := ends_of_mem_links hg hw
  exact Option.some.inj (ht.symm.trans ht') ▸ hside

/-- Wires change nothing where they do not end. -/
theorem datum?_foldl_transfer_of_ne {s : State} (hg : s.graph.Coherent) {ws : List WireKey}
    {r : PinRef} (hws : ∀ w ∈ ws, w ∈ s.graph.links ∧ s.graph.targetOf? w ≠ some r) :
    (ws.foldl State.transfer s).graph.datum? r = s.graph.datum? r := by
  induction ws generalizing s with
  | nil => rfl
  | cons w ws ih =>
    obtain ⟨hw, hne⟩ := hws w List.mem_cons_self
    obtain ⟨a, t, ha, ht, -⟩ := ends_of_mem_links hg hw
    have hsame := (later_transfer s w).wiring
    rw [List.foldl_cons, ih (hg.congr hsame), State.transfer, datum?_transfer hg hw ha ht, if_neg]
    · rintro rfl
      exact hne ht
    · intro v hv
      rw [hsame.links, hsame.targetOf?]
      exact hws v (List.mem_cons_of_mem _ hv)

/-- After wires have given their values, the targets hold those of the sources. -/
theorem datum?_foldl_transfer {s : State} (hg : s.graph.Coherent) {ws : List WireKey}
    (hws : ∀ w ∈ ws, w ∈ s.graph.links) {w : WireKey} (hw : w ∈ ws) {a t : PinRef}
    (ha : s.graph.sourceOf? w = some a) (ht : s.graph.targetOf? w = some t) :
    (ws.foldl State.transfer s).graph.datum? t = s.graph.datum? a := by
  induction ws generalizing s with
  | nil => cases hw
  | cons v ws ih =>
    have hlink := hws w hw
    have hv := hws v List.mem_cons_self
    have hsame := (later_transfer s v).wiring
    have hrest (u : WireKey) (hu : u ∈ ws) : u ∈ (s.transfer v).graph.links :=
      hsame.links ▸ hws u (List.mem_cons_of_mem _ hu)
    obtain ⟨b, t', hb, ht', hside, -⟩ := ends_of_mem_links hg hv
    -- sources are outputs, so that no transfer touches them
    have hsource : (s.transfer v).graph.datum? a = s.graph.datum? a := by
      rw [State.transfer, datum?_transfer hg hv hb ht', if_neg]
      rintro rfl
      rw [source_side hg hlink ha] at hside
      cases hside
    rw [List.foldl_cons]
    by_cases hmem : w ∈ ws
    · rw [ih (hg.congr hsame) hrest hmem (by rw [hsame.sourceOf?, ha])
        (by rw [hsame.targetOf?, ht]), hsource]
    · obtain rfl : w = v := (List.mem_cons.1 hw).resolve_right hmem
      rw [datum?_foldl_transfer_of_ne (hg.congr hsame), State.transfer,
        datum?_transfer hg hlink ha ht, if_pos rfl]
      intro u hu
      refine ⟨hrest u hu, fun h => hmem ?_⟩
      rw [hsame.targetOf?] at h
      obtain rfl := hg.target_unique (hws u (List.mem_cons_of_mem _ hu)) hlink h ht
      exact hu

/-! ### The parts of a round -/

/-- The wires along which a member receives values. -/
theorem mem_received_iff {g : Graph} (hg : g.Coherent) {k : NodeKey} (hk : k ∈ g.members)
    (w : WireKey) : w ∈ ((g.node? k).toList.flatMap fun n => n.inputs.filterMap (·.incoming)) ↔
      w ∈ g.links ∧ ∃ t, g.targetOf? w = some t ∧ t.node = k := by
  obtain ⟨n, hn⟩ := hg.exists_node hk
  have hpin (i : Nat) : g.pin? ⟨k, .input, i⟩ = n.inputs[i]? := by
    simp [Graph.pin?, hn, Node.pin?, Node.pins]
  simp only [hn, Option.toList_some, List.flatMap_cons, List.flatMap_nil, List.append_nil,
    List.mem_filterMap]
  constructor
  · rintro ⟨p, hp, hw⟩
    obtain ⟨i, hi⟩ := List.mem_iff_getElem?.1 hp
    obtain ⟨hlink, ht⟩ := (hg.incoming hk ((hpin i).trans hi) w).1 hw
    exact ⟨hlink, _, ht, rfl⟩
  · rintro ⟨hw, t, ht, rfl⟩
    obtain ⟨a, t', ha, ht', -⟩ := ends_of_mem_links hg hw
    obtain rfl : t = t' := Option.some.inj (ht.symm.trans ht')
    obtain ⟨c, p, q, -, j⟩ := joined_of_mem_links hg hw ha ht
    have hincoming := (hg.incoming hk j.target_pin w).2 ⟨hw, ht⟩
    obtain ⟨k, side, i⟩ := t
    obtain rfl : side = .input := j.target_side
    exact ⟨q, List.mem_of_getElem? ((hpin i).symm.trans j.target_pin), hincoming⟩

/-- The wires along which a member sends values are data wires that begin at it. -/
theorem feeds_of_mem_sent {g : Graph} (hg : g.Coherent) {k : NodeKey} (hk : k ∈ g.members)
    {w : WireKey} (hw : w ∈ ((g.node? k).toList.flatMap fun n =>
      (n.outputs.filter fun p => !p.flow).flatMap (·.outgoing))) :
    w ∈ g.links ∧ ∀ t, g.targetOf? w = some t → Feeds g k t.node := by
  simp only [List.mem_flatMap, Option.mem_toList, List.mem_filter] at hw
  obtain ⟨n, hn, p, ⟨hp, hdata⟩, hw⟩ := hw
  obtain ⟨i, hi⟩ := List.mem_iff_getElem?.1 hp
  have hpin : g.pin? ⟨k, .output, i⟩ = some p := by
    simp [Graph.pin?, hn, Node.pin?, Node.pins, hi]
  rw [(hg.outgoing hk rfl hpin).1, Graph.wiresFrom_eq, List.mem_filter, decide_eq_true_eq] at hw
  refine ⟨hw.1, fun t ht => ?_⟩
  obtain ⟨c, p', q, -, j⟩ := joined_of_mem_links hg hw.1 hw.2 ht
  obtain rfl : p' = p := Option.some.inj (j.source_pin.symm.trans hpin)
  refine ⟨w, hw.1, _, t, q, hw.2, ht, rfl, rfl, j.target_pin, ?_⟩
  rw [← j.flow_eq]
  simpa using hdata

/-- A member receives values at its own inputs only. -/
theorem datum?_receive_of_ne {s : State} (hg : s.graph.Coherent) {k : NodeKey}
    (hk : k ∈ s.graph.members) {r : PinRef}
    (hr : ∀ w ∈ s.graph.links, s.graph.targetOf? w = some r → r.node ≠ k) :
    (receive k s).graph.datum? r = s.graph.datum? r := by
  refine datum?_foldl_transfer_of_ne hg fun w hw => ?_
  obtain ⟨hlink, t, ht, hnode⟩ := (mem_received_iff hg hk w).1 hw
  refine ⟨hlink, fun h => ?_⟩
  obtain rfl : t = r := Option.some.inj (ht.symm.trans h)
  exact hr w hlink h hnode

/-- What a member receives is what stands at the sources of its wires. -/
theorem datum?_receive {s : State} (hg : s.graph.Coherent) {w : WireKey}
    (hw : w ∈ s.graph.links) {a t : PinRef} (ha : s.graph.sourceOf? w = some a)
    (ht : s.graph.targetOf? w = some t) (hk : t.node ∈ s.graph.members) :
    (receive t.node s).graph.datum? t = s.graph.datum? a :=
  datum?_foldl_transfer hg (fun v hv => ((mem_received_iff hg hk v).1 hv).1)
    ((mem_received_iff hg hk w).2 ⟨hw, t, ht, rfl⟩) ha ht

/-- A member sends values only to the nodes that it feeds. -/
theorem datum?_send_of_ne {s : State} (hg : s.graph.Coherent) {k : NodeKey}
    (hk : k ∈ s.graph.members) {r : PinRef}
    (hr : ∀ w ∈ s.graph.links, s.graph.targetOf? w = some r → ¬ Feeds s.graph k r.node) :
    (send k s).graph.datum? r = s.graph.datum? r := by
  refine datum?_foldl_transfer_of_ne hg fun w hw => ?_
  obtain ⟨hlink, hfeeds⟩ := feeds_of_mem_sent hg hk hw
  exact ⟨hlink, fun h => hr w hlink h (hfeeds r h)⟩

/-- The graph after a step of a node. -/
theorem graph_invoke (watch : Stopwatch) {k : NodeKey} {s : State} {n : Node}
    (hn : s.graph.node? k = some n) :
    (invoke watch k s).2.graph = s.graph.modifyNode k fun _ => (n.step s.memory).node := by
  simp only [invoke, hn]
  rfl

/-- A step of a node changes nothing but its outputs. -/
theorem datum?_invoke_of_ne (watch : Stopwatch) {k : NodeKey} {s : State} {r : PinRef}
    (hr : r.node = k → r.side = .input) :
    (invoke watch k s).2.graph.datum? r = s.graph.datum? r := by
  cases hn : s.graph.node? k with
  | none => simp [invoke, hn]
  | some n =>
    rw [graph_invoke watch hn, Graph.datum?, Graph.datum?, Graph.pin?, Graph.pin?,
      Graph.node?_modifyNode]
    split
    · next h =>
      obtain ⟨j, side, i⟩ := r
      obtain rfl : k = j := h
      obtain rfl : side = .input := hr rfl
      simp [hn, Node.pin?, Node.pins]
    · rfl

/-- After a step of a node its outputs hold what the step wrote. -/
theorem datum?_invoke (watch : Stopwatch) {k : NodeKey} {s : State} {n : Node}
    (hn : s.graph.node? k = some n) (i : Nat) :
    (invoke watch k s).2.graph.datum? ⟨k, .output, i⟩ =
      ((n.step s.memory).node.pin? .output i).bind Pin.datum? := by
  rw [graph_invoke watch hn, Graph.datum?, Graph.pin?, Graph.node?_modifyNode, if_pos rfl, hn]
  rfl

end Run
end Patchbay
