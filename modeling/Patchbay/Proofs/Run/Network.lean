import Patchbay.Proofs.Run.Values
/-!
# A data flow solves its network

The nodes of a data flow compute the values of their outputs from those of their inputs, and wires
make the value of an output that of the inputs behind it: a system of equations. A data flow that
completes has solved it. Each round settles one member for good, because what feeds it was settled
before and nothing that comes later feeds it.

## Main definitions

* `Node.Computes`: a node whose outputs are functions of its operands.
* `Graph.Solves`: values on the pins of a graph that satisfy the equations of some members.
* `Run.Settled`: a state in the middle of a data flow, with the members evaluated so far.

## Main statements

* `Node.computes_of_idle`: a node that does nothing computes the values that it holds.
* `Run.Settled.round`: a round settles one more member.
* `Run.Settled.of_schedule`: the rounds of a schedule settle all that is scheduled.
-/
namespace Patchbay

/-! ### Nodes that compute -/

/-- Pins that take the values that they have stay as they are. -/
theorem assignAll_values (ps : List Pin) : assignAll ps (ps.map (·.value)) = ps := by
  induction ps with
  | nil => rfl
  | cons p ps ih =>
    have hp : p.assign p.value = p := by
      rw [Pin.assign]
      split <;> rfl
    rw [List.map_cons, assignAll, ih, hp]

namespace Node

/-- The value on a pin, if it is a data pin. -/
def datum? (n : Node) (side : Side) (i : Nat) : Option Value := (n.pin? side i).bind Pin.datum?

/-- No step of a node writes an output, whatever values stand on its pins. -/
def Keeps (n : Node) (i : Nat) : Prop :=
  ∀ n' : Node, n'.blank = n.blank → ∀ m,
    (n'.step m).node.datum? .output i = n'.datum? .output i

/-- The node with other values on its pins, except at the outputs that it never writes. -/
structure Refilled (n n' : Node) : Prop where
  blank : n'.blank = n.blank
  kept : ∀ i, n.Keeps i → n'.datum? .output i = n.datum? .output i

/-- The steps of a node succeed and make the value of every data output a function of the values
on its data inputs. An output that is never written has its stored value for all of them. -/
structure Computes (n : Node) (f : Nat → List Value → Value) : Prop where
  reliable : n.Reliable
  outputs : ∀ n', n.Refilled n' → ∀ m i v, (n'.step m).node.datum? .output i = some v →
    v = f i n'.operands

theorem keeps_congr {n n' : Node} (h : n'.blank = n.blank) (i : Nat) : n'.Keeps i ↔ n.Keeps i := by
  simp only [Keeps, h]

theorem Refilled.trans {n n' n'' : Node} (a : n.Refilled n') (b : n'.Refilled n'') :
    n.Refilled n'' :=
  ⟨b.blank.trans a.blank, fun i hi =>
    (b.kept i ((keeps_congr a.blank i).2 hi)).trans (a.kept i hi)⟩

/-- A node computes the same with other values on its pins. -/
theorem Computes.refilled {n n' : Node} {f : Nat → List Value → Value} (h : n.Computes f)
    (a : n.Refilled n') : n'.Computes f :=
  ⟨fun n'' hlike => h.reliable n'' (hlike.trans a.blank),
    fun n'' b => h.outputs n'' (a.trans b)⟩

/-- A node whose steps do nothing computes the values that it holds. -/
theorem computes_of_idle {n : Node} (h : n.enabled = false ∨ n.behaviour = pure ()) :
    n.Computes fun i _ => (n.datum? .output i).getD .null := by
  have hstep (n' : Node) (hlike : n'.blank = n.blank) (m : Memory) :
      (n'.step m).outcome = .ok () ∧
        ∀ i, (n'.step m).node.datum? .output i = n'.datum? .output i := by
    have henabled : n'.blank.enabled = n.blank.enabled := congrArg Node.enabled hlike
    have hbehaviour : n'.blank.behaviour = n.blank.behaviour := congrArg Node.behaviour hlike
    by_cases he : n'.enabled = true
    · have hidle : n'.behaviour = pure () := by
        refine hbehaviour.trans (h.resolve_left fun hd => ?_)
        rw [show n'.enabled = n.enabled from henabled, hd] at he
        cases he
      have hr : n'.attempt m = (.ok (), { values := n'.outputs.map (·.value), memory := m }) := by
        rw [attempt, hidle]
        rfl
      refine ⟨by simp [step, he, hr, verdict], fun i => ?_⟩
      simp [step, he, hr, Node.datum?, pin?, pins, assignAll_values]
    · refine ⟨outcome_step_of_disabled (by simpa using he) m, fun i => ?_⟩
      simp [step, he, Node.datum?, pin?, pins]
  refine ⟨fun n' hlike m => (hstep n' hlike m).1, fun n' hr m i v hv => ?_⟩
  rw [(hstep n' hr.blank m).2, hr.kept i fun n'' hlike m => (hstep n'' hlike m).2 i] at hv
  simp [hv]

end Node

namespace Graph

theorem datum?_of_node? {g : Graph} {k : NodeKey} {n : Node} (hn : g.node? k = some n)
    (side : Side) (i : Nat) : g.datum? ⟨k, side, i⟩ = n.datum? side i := by
  simp [datum?, pin?, hn, Node.datum?]

theorem operands_of_node? {g : Graph} {k : NodeKey} {n : Node} (hn : g.node? k = some n) :
    g.operands k = n.operands := by
  simp [operands, hn]

/-! ### Solutions -/

/-- The values in `g` solve the network of `g₀` as far as some of its members go. -/
structure Solves (f : NodeKey → Nat → List Value → Value) (g₀ : Graph) (done : List NodeKey)
    (g : Graph) : Prop where
  /-- Every wire into one of them has equal values at its two ends. -/
  carried : ∀ w ∈ g₀.links, ∀ s t, g₀.sourceOf? w = some s → g₀.targetOf? w = some t →
    t.node ∈ done → g.datum? s = g.datum? t
  /-- Every output of one of them is its function applied to its operands. -/
  computed : ∀ k ∈ done, ∀ i v, g.datum? ⟨k, .output, i⟩ = some v → v = f k i (g.operands k)
  /-- Every input without a wire holds the value that it had. -/
  free : ∀ t, t.side = .input → (∀ w ∈ g₀.links, g₀.targetOf? w ≠ some t) →
    g.datum? t = g₀.datum? t

theorem Solves.subset {f : NodeKey → Nat → List Value → Value} {g₀ g : Graph}
    {done done' : List NodeKey} (h : g₀.Solves f done g) (hsub : done' ⊆ done) :
    g₀.Solves f done' g :=
  ⟨fun w hw s t hs ht hk => h.carried w hw s t hs ht (hsub hk),
    fun k hk => h.computed k (hsub hk), h.free⟩

end Graph

namespace Run
open Patchbay.Graph

/-! ### Rounds -/

/-- A state that a data flow comes to from another one: what is never written is as it was. -/
structure Underway (s₀ s : State) : Prop extends Later s₀ s where
  stored : ∀ k n, s₀.graph.node? k = some n → ∀ i, n.Keeps i →
    s.graph.datum? ⟨k, .output, i⟩ = n.datum? .output i

namespace Underway
variable {s₀ s : State}

theorem of_graph_eq (h : Later s₀ s) (hg : s.graph = s₀.graph) : Underway s₀ s :=
  ⟨h, fun _ _ hn i _ => by rw [hg, datum?_of_node? hn]⟩

/-- The node that a data flow has made of a node. -/
theorem refilled (h : Underway s₀ s) {k : NodeKey} {n : Node} (hn : s₀.graph.node? k = some n) :
    ∃ n', s.graph.node? k = some n' ∧ n.Refilled n' := by
  have hblank := h.nodes k
  rw [hn, Option.map_some] at hblank
  obtain ⟨n', hn', hlike⟩ := Option.map_eq_some_iff.1 hblank
  refine ⟨n', hn', hlike, fun i hi => ?_⟩
  rw [← datum?_of_node? hn', h.stored k n hn i hi]

theorem receive (hg : s₀.graph.Coherent) (h : Underway s₀ s) {k : NodeKey}
    (hk : k ∈ s₀.graph.members) : Underway s₀ (receive k s) := by
  have hs : s.graph.Coherent := hg.congr h.wiring
  refine ⟨h.trans (later_receive k s), fun j n hn i hi => ?_⟩
  rw [datum?_receive_of_ne hs (h.wiring.members ▸ hk), h.stored j n hn i hi]
  intro w hw ht
  exact absurd (target_side hs hw ht) (by simp)

theorem invoke (h : Underway s₀ s) (watch : Stopwatch) (k : NodeKey) :
    Underway s₀ (invoke watch k s).2 := by
  refine ⟨h.trans (later_invoke watch k s), fun j n hn i hi => ?_⟩
  by_cases hjk : j = k
  · subst hjk
    obtain ⟨n', hn', hlike⟩ := h.refilled hn
    rw [datum?_invoke watch hn' i]
    exact (hi n' hlike.blank s.memory).trans (hlike.kept i hi)
  · rw [datum?_invoke_of_ne watch fun h => absurd h hjk, h.stored j n hn i hi]

theorem send (hg : s₀.graph.Coherent) (h : Underway s₀ s) {k : NodeKey}
    (hk : k ∈ s₀.graph.members) : Underway s₀ (send k s) := by
  have hs : s.graph.Coherent := hg.congr h.wiring
  refine ⟨h.trans (later_send k s), fun j n hn i hi => ?_⟩
  rw [datum?_send_of_ne hs (h.wiring.members ▸ hk), h.stored j n hn i hi]
  intro w hw ht
  exact absurd (target_side hs hw ht) (by simp)

theorem round (hg : s₀.graph.Coherent) (h : Underway s₀ s) (watch : Stopwatch) {k : NodeKey}
    (hk : k ∈ s₀.graph.members) : Underway s₀ (s.round watch k) :=
  (((h.receive hg hk).invoke watch k).send hg hk)

end Underway

/-- A wire feeds a node, unless it carries no values at all. -/
theorem feeds_or_datum?_eq_none {s₀ s : State} (hg : s₀.graph.Coherent) (h : Later s₀ s)
    {w : WireKey} (hw : w ∈ s₀.graph.links) {a t : PinRef} (ha : s₀.graph.sourceOf? w = some a)
    (ht : s₀.graph.targetOf? w = some t) :
    Feeds s₀.graph a.node t.node ∨ s.graph.datum? a = none ∧ s.graph.datum? t = none := by
  obtain ⟨c, p, q, -, j⟩ := joined_of_mem_links hg hw ha ht
  cases hq : q.flow with
  | false => exact .inl ⟨w, hw, a, t, q, ha, ht, rfl, rfl, j.target_pin, hq⟩
  | true =>
    have hp : p.flow = true := j.flow_eq.trans hq
    have hnone {r : PinRef} {o : Pin} (ho : s₀.graph.pin? r = some o) (hflow : o.flow = true) :
        s.graph.datum? r = none := by
      obtain ⟨o', ho', hb⟩ := h.wiring.symm.pin? ho
      have hflow' : o'.flow = true := (Pin.of_bare_eq hb).2.2.2.1.trans hflow
      simp [Graph.datum?, ho', hflow']
    exact .inr ⟨hnone j.source_pin hp, hnone j.target_pin hq⟩

/-- A round changes values at the pins of its node and at the inputs that this node feeds. -/
theorem datum?_round_of_ne {s₀ s : State} (hg : s₀.graph.Coherent) (h : Later s₀ s)
    (watch : Stopwatch) {k : NodeKey} (hk : k ∈ s₀.graph.members) {r : PinRef} (hne : r.node ≠ k)
    (hr : ∀ w ∈ s₀.graph.links, s₀.graph.targetOf? w = some r → ¬ Feeds s₀.graph k r.node) :
    (s.round watch k).graph.datum? r = s.graph.datum? r := by
  have h₁ := h.trans (later_receive k s)
  have h₂ := h₁.trans (later_invoke watch k _)
  rw [State.round, datum?_send_of_ne (hg.congr h₂.wiring) (h₂.wiring.members ▸ hk),
    datum?_invoke_of_ne, datum?_receive_of_ne (hg.congr h.wiring) (h.wiring.members ▸ hk)]
  · exact fun _ _ _ => hne
  · exact fun h => absurd h hne
  · intro w hw ht
    rw [h₂.wiring.links] at hw
    rw [h₂.wiring.targetOf?] at ht
    rw [feeds_congr h₂.wiring]
    exact hr w hw ht

/-- After a round the inputs of its node hold what it received, if it does not feed itself. -/
theorem datum?_round_input {s₀ s : State} (hg : s₀.graph.Coherent) (h : Later s₀ s)
    (watch : Stopwatch) {k : NodeKey} (hk : k ∈ s₀.graph.members)
    (hself : ¬ Feeds s₀.graph k k) (i : Nat) :
    (s.round watch k).graph.datum? ⟨k, .input, i⟩ =
      (receive k s).graph.datum? ⟨k, .input, i⟩ := by
  have h₂ := (h.trans (later_receive k s)).trans (later_invoke watch k _)
  rw [State.round, datum?_send_of_ne (hg.congr h₂.wiring) (h₂.wiring.members ▸ hk),
    datum?_invoke_of_ne watch fun _ => rfl]
  intro _ _ _
  rw [feeds_congr h₂.wiring]
  exact hself

/-- After a round the outputs of its node hold what its step wrote. -/
theorem datum?_round_output {s₀ s : State} (hg : s₀.graph.Coherent) (h : Later s₀ s)
    (watch : Stopwatch) {k : NodeKey} (hk : k ∈ s₀.graph.members) {n : Node}
    (hn : (receive k s).graph.node? k = some n) (i : Nat) :
    (s.round watch k).graph.datum? ⟨k, .output, i⟩ =
      (n.step (receive k s).memory).node.datum? .output i := by
  have h₂ := (h.trans (later_receive k s)).trans (later_invoke watch k _)
  have hs₂ := hg.congr h₂.wiring
  rw [State.round, datum?_send_of_ne hs₂ (h₂.wiring.members ▸ hk), datum?_invoke watch hn]
  · rfl
  · intro w hw ht
    exact absurd (target_side hs₂ hw ht) (by simp)

/-- A state in the middle of a data flow: the members evaluated so far are settled. -/
structure Settled (f : NodeKey → Nat → List Value → Value) (s₀ : State) (done : List NodeKey)
    (s : State) : Prop extends Underway s₀ s where
  solves : s₀.graph.Solves f done s.graph

namespace Settled
variable {f : NodeKey → Nat → List Value → Value} {s₀ s : State} {done : List NodeKey}

/-- At the beginning nothing is evaluated. -/
theorem start (f : NodeKey → Nat → List Value → Value) (h : Later s₀ s)
    (hg : s.graph = s₀.graph) : Settled f s₀ [] s where
  toUnderway := .of_graph_eq h hg
  solves :=
    { carried := fun _ _ _ _ _ _ h => absurd h List.not_mem_nil
      computed := fun _ h => absurd h List.not_mem_nil
      free := fun _ _ _ => by rw [hg] }

/-- A round settles its node, if what feeds the node is settled. -/
theorem round (hg : s₀.graph.Coherent) (h : Settled f s₀ done s) (watch : Stopwatch)
    {k : NodeKey} (hk : k ∈ s₀.graph.members)
    (hf : ∀ n, s₀.graph.node? k = some n → n.Computes (f k)) (hnew : k ∉ done)
    (hfed : ∀ j, Feeds s₀.graph j k → j ∈ done)
    (hclosed : ∀ x ∈ done, ∀ j, Feeds s₀.graph j x → j ∈ done) :
    Settled f s₀ (k :: done) (s.round watch k) := by
  have hself : ¬ Feeds s₀.graph k k := fun hkk => hnew (hfed k hkk)
  have hround := h.toUnderway.round hg watch hk
  have hdone {r : PinRef} (hr : r.node ∈ done) :
      (s.round watch k).graph.datum? r = s.graph.datum? r := by
    refine datum?_round_of_ne hg h.toLater watch hk (fun e => hnew (e ▸ hr)) fun w _ _ hfeeds => ?_
    exact hnew (hclosed _ hr k hfeeds)
  refine ⟨hround, ?_, ?_, ?_⟩
  · intro w hw a t ha ht hmem
    rcases feeds_or_datum?_eq_none hg hround.toLater hw ha ht with hfeeds | ⟨hna, hnt⟩
    · -- the source was settled before, and nothing is written there any more
      have hsource : a.node ∈ done := by
        rcases List.mem_cons.1 hmem with hkt | hmem
        · exact hfed _ (hkt ▸ hfeeds)
        · exact hclosed _ hmem _ hfeeds
      rw [hdone hsource]
      rcases List.mem_cons.1 hmem with hkt | hmem
      · obtain ⟨j, side, i⟩ := t
        obtain rfl : j = k := hkt
        obtain rfl : side = .input := target_side hg hw ht
        rw [datum?_round_input hg h.toLater watch hk hself]
        have hs : s.graph.Coherent := hg.congr h.wiring
        exact (datum?_receive hs (h.wiring.links ▸ hw) ((h.wiring.sourceOf? w).trans ha)
          ((h.wiring.targetOf? w).trans ht) (h.wiring.members ▸ hk)).symm
      · rw [hdone hmem, h.solves.carried w hw a t ha ht hmem]
    · rw [hna, hnt]
  · intro x hx i v hv
    rcases List.mem_cons.1 hx with rfl | hx
    · have hreceive := h.toUnderway.receive hg hk
      obtain ⟨n, hn⟩ := hg.exists_node hk
      obtain ⟨n', hn', hlike⟩ := hreceive.refilled hn
      rw [datum?_round_output hg h.toLater watch hk hn'] at hv
      have hinputs := operands_congr (datum?_round_input hg h.toLater watch hk hself)
      rw [hinputs, operands_of_node? hn']
      exact (hf n hn).outputs n' hlike _ i v hv
    · rw [hdone hx] at hv
      rw [operands_congr fun i => hdone (r := ⟨x, .input, i⟩) hx]
      exact h.solves.computed x hx i v hv
  · intro t hside hfree
    rw [← h.solves.free t hside hfree]
    by_cases hkt : t.node = k
    · obtain ⟨j, side, i⟩ := t
      obtain rfl : j = k := hkt
      obtain rfl : side = .input := hside
      rw [datum?_round_input hg h.toLater watch hk hself,
        datum?_receive_of_ne (hg.congr h.wiring) (h.wiring.members ▸ hk)]
      intro w hw ht
      exact absurd ((h.wiring.targetOf? w).symm.trans ht) (hfree w (h.wiring.links ▸ hw))
    · exact datum?_round_of_ne hg h.toLater watch hk hkt fun w hw ht => absurd ht (hfree w hw)

/-- The rounds of a schedule settle all that is scheduled. -/
theorem of_schedule (hg : s₀.graph.Coherent)
    (hf : ∀ k ∈ s₀.graph.members, ∀ n, s₀.graph.node? k = some n → n.Computes (f k))
    (watch : Stopwatch) {ws xs left : List NodeKey} (hx : Schedule (Feeds s₀.graph) ws xs left)
    (hws : ws ⊆ s₀.graph.members) (hn : ws.Nodup) (hnew : ∀ k ∈ ws, k ∉ done)
    (hfed : ∀ j k, Feeds s₀.graph j k → j ∈ ws ∨ j ∈ done)
    (hclosed : ∀ x ∈ done, ∀ j, Feeds s₀.graph j x → j ∈ done) (h : Settled f s₀ done s) :
    Settled f s₀ (xs.reverse ++ done) (xs.foldl (State.round watch) s) := by
  induction hx generalizing done s with
  | stuck => exact h
  | @take before after xs left x hready _ _ ih =>
    have hx : x ∈ before ++ x :: after := List.mem_append_right _ List.mem_cons_self
    have hperm : (before ++ x :: after).Perm (x :: (before ++ after)) := List.perm_middle
    obtain ⟨hxrest, hrest⟩ := List.nodup_cons.1 (hperm.nodup_iff.1 hn)
    have hfedx (j : NodeKey) (hj : Feeds s₀.graph j x) : j ∈ done :=
      (hfed j x hj).resolve_left fun hw => hready j hw hj
    have hround := h.round hg watch (hws hx) (hf x (hws hx)) (hnew x hx) hfedx hclosed
    have hsub : before ++ after ⊆ before ++ x :: after :=
      fun y hy => hperm.mem_iff.2 (List.mem_cons_of_mem _ hy)
    rw [List.foldl_cons, List.reverse_cons, List.append_assoc, List.singleton_append]
    refine ih (fun y hy => hws (hsub hy)) hrest ?_ ?_ ?_ hround
    · intro y hy hmem
      rcases List.mem_cons.1 hmem with rfl | hmem
      · exact hxrest hy
      · exact hnew y (hsub hy) hmem
    · intro j k hjk
      rw [List.mem_cons]
      rcases hfed j k hjk with hj | hj
      · exact (List.mem_cons.1 (hperm.mem_iff.1 hj)).elim (.inr ∘ .inl) .inl
      · exact .inr (.inr hj)
    · intro y hy j hj
      rcases List.mem_cons.1 hy with rfl | hy
      · exact List.mem_cons_of_mem _ (hfedx j hj)
      · exact List.mem_cons_of_mem _ (hclosed y hy j hj)

end Settled
end Run
end Patchbay
