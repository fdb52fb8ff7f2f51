import Patchbay.Proofs.Run.Steps
/-!
# What a run leaves alone

A run writes values on pins, and on the nodes that it evaluates the traces of their last step. It
writes them at several places, also on nodes that it never evaluates, and it can break off in the
middle. Everything else of a graph is the same afterwards.

## Main definitions

* `Graph.Spares`: what a graph has in common with the one that a run made of it.
* `Run.Evaluated`: a node that a run evaluated.

## Main statements

* `Graph.Spares.assign`, `Graph.Spares.step`: writing the value of a fed input and evaluating a node
  spare the rest.
* `Run.Engine.run_spares`: every run spares the rest of its graph.
-/
namespace Patchbay

namespace Graph

/-- All that one graph has in common with another one that a run made of it, in which some nodes
were evaluated. -/
structure Spares (evaluated : NodeKey → Prop) (g h : Graph) : Prop where
  /-- Only nodes can be different. -/
  rest : { h with nodes := g.nodes } = g
  next : h.nodes.next = g.nodes.next
  /-- Nodes can only differ in values on pins and in the traces of evaluations. -/
  nodes : ∀ k, (h.node? k).map Node.blank = (g.node? k).map Node.blank
  /-- An input that no wire feeds has the same value. -/
  unfed : ∀ r p, r.side = .input → g.pin? r = some p → p.incoming = none → h.pin? r = some p
  /-- A node that was not evaluated can only differ in values on its inputs. -/
  idle : ∀ k n, ¬ evaluated k → g.node? k = some n →
    ∃ n', h.node? k = some n' ∧ { n' with inputs := n.inputs } = n

/-- Copying a value along a wire changes a value at its target at most. -/
theorem transfer_cases (g : Graph) (w : WireKey) : g.transfer w = g ∨
    ∃ t v, g.targetOf? w = some t ∧ g.transfer w = g.modifyPin t (·.assign v) := by
  simp only [transfer]
  split
  · next s t hw =>
    split
    · next p _ =>
      split
      · exact .inl rfl
      · exact .inr ⟨t, p.value, by simp [targetOf?, hw], rfl⟩
    · exact .inl rfl
  · exact .inl rfl

namespace Spares
variable {E E' : NodeKey → Prop} {g h : Graph}

protected theorem refl (E : NodeKey → Prop) (g : Graph) : Spares E g g where
  rest := rfl
  next := rfl
  nodes _ := rfl
  unfed _ _ _ hp _ := hp
  idle _ n _ hn := ⟨n, hn, rfl⟩

/-- The more nodes are evaluated, the less is spared. -/
theorem mono (hs : Spares E g h) (hE : ∀ k, E k → E' k) : Spares E' g h where
  rest := hs.rest
  next := hs.next
  nodes := hs.nodes
  unfed := hs.unfed
  idle k n hk := hs.idle k n fun h => hk (hE k h)

/-- Writing the value of an input that a wire feeds spares the rest. -/
theorem assign (hs : Spares E g h) {t : PinRef} (ht : t.side = .input)
    (hfed : ∀ p, g.pin? t = some p → p.incoming ≠ none) (v : Value) :
    Spares E g (h.modifyPin t (·.assign v)) where
  rest := hs.rest
  next := (Arena.next_modify ..).trans hs.next
  nodes k := by
    rw [modifyPin, node?_modifyNode, ← hs.nodes k]
    split
    · cases h.node? k <;> simp
    · rfl
  unfed r p hr hp hfree := by
    rw [pin?_modifyPin, if_neg]
    · exact hs.unfed r p hr hp hfree
    · rintro rfl
      exact hfed p hp hfree
  idle k n hk hn := by
    obtain ⟨n', hn', hsame⟩ := hs.idle k n hk hn
    rw [modifyPin, node?_modifyNode, hn', ht]
    split
    · exact ⟨_, rfl, hsame⟩
    · exact ⟨n', rfl, hsame⟩

/-- Evaluating a node spares the rest. -/
theorem step (hs : Spares E g h) {k : NodeKey} (hk : E k) {n : Node} (hn : h.node? k = some n)
    (m : Memory) : Spares E g (h.modifyNode k fun _ => (n.step m).node) where
  rest := hs.rest
  next := (Arena.next_modify ..).trans hs.next
  nodes j := by
    rw [node?_modifyNode, ← hs.nodes j]
    split
    · next h => subst h; simp [hn]
    · rfl
  unfed r p hr hp hfree := by
    rw [← hs.unfed r p hr hp hfree, pin?, pin?, node?_modifyNode, hr]
    split
    · next h => simp [← h, hn, Node.pin?, Node.pins]
    · rfl
  idle j n' hj hn' := by
    have hne : k ≠ j := fun h => hj (h ▸ hk)
    rw [node?_modifyNode, if_neg hne]
    exact hs.idle j n' hj hn'

end Spares
end Graph

namespace Run

/-- A node that was evaluated since a run began, as the ids of the evaluated nodes tell. -/
def Evaluated (s₀ s : State) (k : NodeKey) : Prop :=
  k ∈ s₀.graph.members ∧ nodeId s₀.graph k ∈ s.executed

/-- Single steps spare what they do not write. -/
theorem Steps.spares {watch : Stopwatch} {s₀ s : State} (hg : s₀.graph.Coherent)
    (h : Steps watch s₀ s) : s₀.graph.Spares (Evaluated s₀ s) s.graph := by
  induction h with
  | start => exact .refl _ _
  | report _ _ ih => exact ih
  | @copy u h w hw ih =>
    rcases u.graph.transfer_cases w with hsame | ⟨t, v, ht, hwritten⟩
    · rw [State.transfer, hsame]
      exact ih
    · obtain ⟨a, t', ha, ht', hside, -⟩ := ends_of_mem_links hg hw
      have ht₀ : s₀.graph.targetOf? w = some t := (h.later.wiring.targetOf? w).symm.trans ht
      obtain rfl : t' = t := Option.some.inj (ht'.symm.trans ht₀)
      obtain ⟨c, p, q, -, j⟩ := joined_of_mem_links hg hw ha ht'
      rw [State.transfer, hwritten]
      refine ih.assign hside (fun q' hq' hfree => ?_) v
      have hfed := (hg.incoming j.target_member hq' w).2 ⟨hw, ht'⟩
      cases hfree.symm.trans hfed
  | @evaluate u h k hk ih =>
    cases hn : u.graph.node? k with
    | none => simpa only [invoke, hn] using ih
    | some n =>
      have hid : nodeId s₀.graph k = n.id := by
        rw [← nodeId_congr h.later.wiring]
        simp [nodeId, hn]
      have hexecuted := executed_invoke watch hn
      rw [graph_invoke watch hn]
      refine (ih.mono fun j hj => ⟨hj.1, ?_⟩).step ⟨hk, ?_⟩ hn _
      · rw [hexecuted]
        exact Array.mem_push.2 (.inl hj.2)
      · rw [hexecuted, hid]
        exact Array.mem_push.2 (.inr rfl)

/-- A run leaves alone what is not its own, whatever becomes of it. Where links are coherent, a run
of either discipline changes nothing but nodes, and of these only values on pins and the traces of
evaluations. An input that no wire feeds keeps its value. A node that is not evaluated keeps the
values of its outputs, its state and its last error. -/
theorem Engine.run_spares (e : Engine) (watch : Stopwatch) {s : State} (hg : s.graph.Coherent) :
    s.graph.Spares (Evaluated s (e.run watch s).state) (e.run watch s).state.graph :=
  (e.steps_run watch hg).spares hg

/-- The second node is never evaluated, since the broken one fails as it is pulled. -/
theorem Engine.run_spares_brokenInput :
    let e : Engine := ⟨.controlFlow, BrokenInput.options⟩
    let s := (e.run (fun _ => 0) BrokenInput.start).state
    BrokenInput.start.graph.Coherent ∧ s.executed = #["a", "c"] ∧
      ¬ Evaluated BrokenInput.start s 1 ∧
      { s.graph with nodes := BrokenInput.start.graph.nodes } = BrokenInput.start.graph ∧
      ∀ n, BrokenInput.start.graph.node? 1 = some n →
        ∃ n', s.graph.node? 1 = some n' ∧ { n' with inputs := n.inputs } = n := by
  intro e s
  have hg := BrokenInput.reachable.wired.coherent
  have hspares := Engine.run_spares e (fun _ => 0) hg
  have hexecuted : s.executed = #["a", "c"] := by decide +kernel
  have hid : nodeId BrokenInput.start.graph 1 = "b" := by decide +kernel
  have hidle : ¬ Evaluated BrokenInput.start s 1 := by
    rintro ⟨-, h⟩
    rw [hid, hexecuted] at h
    simp at h
  exact ⟨hg, hexecuted, hidle, hspares.rest, fun n hn => hspares.idle 1 n hidle hn⟩

end Run
end Patchbay
