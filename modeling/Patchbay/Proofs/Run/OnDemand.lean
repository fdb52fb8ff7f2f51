import Patchbay.Proofs.Run.Sinks
import Patchbay.Proofs.Run.Steps
/-!
# Values on demand

Control pulls the values of data inputs whenever a node is about to be evaluated. The nodes that
they come from are evaluated for that, again each time, and as often as there are ways to them. A
data flow evaluates every node once, in order, and passes on what came of it. Where nodes compute
their outputs from their operands, both come to the same values: what is pulled on behalf of a node
is computed from operands that were pulled before, and those are the operands that the data flow
gave it.

## Main definitions

* `Graph.PartOf`: the network of a graph is a part of another graph.
* `Run.Ongoing`: a state in the middle of a run, as far as values that nothing writes go.
* `Run.Forecast`: what the values of a part of a graph come to.

## Main statements

* `Run.Forecast.right_transfer`, `Run.Forecast.right_invoke`: what one step of pulling keeps and
  gains.
* `Run.Forecast.met_of_pulling`: pulling brings the values that were forecast.
* `Run.runControl_onDemand`: nodes of control are evaluated with the values of a data flow.
-/
namespace Patchbay

open Relation

namespace Graph

/-- The network of `h` is a part of `g`, where its nodes have come to other keys. They have no flow
pins there, their inputs are wired with each other as in `h`, and inputs without wires hold the
values that they hold in `h`. -/
structure PartOf (σ : Equiv.Perm NodeKey) (h g : Graph) : Prop where
  members : ∀ k ∈ h.members, σ k ∈ g.members
  still : ∀ k ∈ h.members, (g.node? (σ k)).any (·.hasFlow) = false
  pins : ∀ k ∈ h.members, ∀ side i,
    (g.pin? ⟨σ k, side, i⟩).map (·.flow) = (h.pin? ⟨k, side, i⟩).map (·.flow)
  links : ∀ k ∈ h.members, ∀ i b, g.Linked b ⟨σ k, .input, i⟩ ↔
    ∃ j ∈ h.members, ∃ l, b = ⟨σ j, .output, l⟩ ∧ h.Linked ⟨j, .output, l⟩ ⟨k, .input, i⟩
  free : ∀ k ∈ h.members, ∀ i, (∀ a, ¬ h.Linked a ⟨k, .input, i⟩) →
    g.datum? ⟨σ k, .input, i⟩ = h.datum? ⟨k, .input, i⟩

/-- A pin of the network holds values in both graphs or in none. -/
theorem PartOf.any_data_eq {σ : Equiv.Perm NodeKey} {h g : Graph} (part : h.PartOf σ g)
    {k : NodeKey} (hk : k ∈ h.members) (side : Side) (i : Nat) :
    (g.pin? ⟨σ k, side, i⟩).any (!·.flow) = (h.pin? ⟨k, side, i⟩).any (!·.flow) := by
  have hpin := congrArg (Option.any (!·)) (part.pins k hk side i)
  simpa only [Option.any_map, Function.comp_def] using hpin

end Graph

namespace Run
open Patchbay.Graph

/-! ### Values that nothing writes -/

/-- A state that a run comes to from another one: outputs that are never written and inputs without
wires are as they were. -/
structure Ongoing (s₀ s : State) : Prop extends Underway s₀ s where
  free : ∀ t, t.side = .input → (∀ a, ¬ s₀.graph.Linked a t) →
    s.graph.datum? t = s₀.graph.datum? t

namespace Ongoing
variable {watch : Stopwatch} {s₀ s s' : State}

theorem of_graph_eq (h : Later s₀ s) (hg : s.graph = s₀.graph) : Ongoing s₀ s :=
  ⟨.of_graph_eq h hg, fun _ _ _ => by rw [hg]⟩

/-- A wire that feeds a member, as it is found in the middle of a run. -/
theorem link_of_feeder? (hg : s₀.graph.Coherent) (h : Ongoing s₀ s) {r : PinRef} {w : WireKey}
    (hr : r.node ∈ s₀.graph.members) :
    feeder? s.graph r = some w ↔ w ∈ s₀.graph.links ∧ s₀.graph.targetOf? w = some r := by
  rw [feeder?_eq_some_iff (hg.congr h.wiring) (h.wiring.members ▸ hr), h.wiring.links,
    h.wiring.targetOf?]

theorem datum?_transfer (hg : s₀.graph.Coherent) (h : Ongoing s₀ s) {w : WireKey}
    (hw : w ∈ s₀.graph.links) {a t : PinRef} (ha : s₀.graph.sourceOf? w = some a)
    (ht : s₀.graph.targetOf? w = some t) (r : PinRef) :
    (s.transfer w).graph.datum? r = if r = t then s.graph.datum? a else s.graph.datum? r :=
  Run.datum?_transfer (hg.congr h.wiring) (h.wiring.links ▸ hw) ((h.wiring.sourceOf? w).trans ha)
    ((h.wiring.targetOf? w).trans ht) r

theorem transfer (hg : s₀.graph.Coherent) (h : Ongoing s₀ s) {w : WireKey}
    (hw : w ∈ s₀.graph.links) : Ongoing s₀ (s.transfer w) := by
  obtain ⟨a, t, ha, ht, hside, -⟩ := ends_of_mem_links hg hw
  have hother {r : PinRef} (hr : r ≠ t) : (s.transfer w).graph.datum? r = s.graph.datum? r := by
    rw [h.datum?_transfer hg hw ha ht, if_neg hr]
  refine ⟨⟨h.trans (later_transfer s w), fun k n hn i hi => ?_⟩, fun r hr hfree => ?_⟩
  · rw [hother, h.stored k n hn i hi]
    rintro rfl
    cases hside
  · rw [hother, h.free r hr hfree]
    rintro rfl
    exact hfree a ⟨w, hw, ha, ht⟩

theorem invoke (h : Ongoing s₀ s) (watch : Stopwatch) (k : NodeKey) :
    Ongoing s₀ (invoke watch k s).2 :=
  ⟨h.toUnderway.invoke watch k, fun r hr hfree => by
    rw [datum?_invoke_of_ne watch fun _ => hr, h.free r hr hfree]⟩

/-- Single steps write only what nodes write and what wires lead to. -/
theorem steps (hg : s₀.graph.Coherent) (h : Ongoing s₀ s) (hs : Steps watch s s') :
    Ongoing s₀ s' := by
  induction hs with
  | start => exact h
  | report _ e ih => exact ⟨⟨ih.trans (later_report _ e), ih.stored⟩, ih.free⟩
  | copy _ hw ih => exact ih.transfer hg (h.wiring.links ▸ hw)
  | @evaluate u _ k _ ih => exact ih.invoke watch k

theorem pulling {d : Nat} {path : List NodeKey} {task : Demand} {x : Except TurnFault Unit}
    (hg : s₀.graph.Coherent) (hp : Pulling watch d path task s x s') (h : Ongoing s₀ s)
    (htask : task.Within (·.node ∈ s₀.graph.members) (· ∈ s₀.graph.members)) :
    Ongoing s₀ s' := by
  rw [← h.wiring.members] at htask
  exact h.steps hg (.pulling (hg.congr h.wiring) hp .start htask)

theorem pulling_dataInputs {d : Nat} {path : List NodeKey} {k : NodeKey}
    {x : Except TurnFault Unit} (hg : s₀.graph.Coherent)
    (hp : Pulling watch d path (.inputs (dataInputs s.graph k)) s x s') (h : Ongoing s₀ s)
    (hk : k ∈ s₀.graph.members) : Ongoing s₀ s' := by
  rw [← h.wiring.members] at hk
  exact h.steps hg (.pulling_dataInputs (hg.congr h.wiring) hp .start hk)

end Ongoing

/-! ### Values told beforehand -/

/-- What the values of a part of a graph come to, whose nodes compute: the network of the part on
its own, and a graph with values that solve it. -/
structure Forecast (g : Graph) where
  place : Equiv.Perm NodeKey
  compute : NodeKey → Nat → List Value → Value
  net : Graph
  values : Graph
  coherent : net.Coherent
  acyclic : ¬ Cyclic net
  part : net.PartOf place g
  computes : ∀ k ∈ net.members, ∀ n, g.node? (place k) = some n → n.Computes (compute k)
  wiring : net.SameWiring values
  solves : net.Solves compute net.members values

namespace Forecast
variable {watch : Stopwatch} {s₀ s s' : State}

/-- A pin shows the value that was forecast, if there is one: at an output of the part the one that
the output comes to, at an input the one of the output of the part that feeds it. -/
def Right (c : Forecast s₀.graph) (s : State) (r : PinRef) : Prop :=
  ∀ j ∈ c.net.members, ∀ l,
    (r = ⟨c.place j, .output, l⟩ ∨ s₀.graph.Linked ⟨c.place j, .output, l⟩ r) →
    s.graph.datum? r = c.values.datum? ⟨j, .output, l⟩

/-- Pins that show what was forecast do so afterwards. -/
def Keeps (c : Forecast s₀.graph) (s s' : State) : Prop := ∀ r, c.Right s r → c.Right s' r

variable (c : Forecast s₀.graph)

theorem right_congr {r : PinRef} (h : s'.graph.datum? r = s.graph.datum? r) (hr : c.Right s r) :
    c.Right s' r :=
  fun j hj l hl => h.trans (hr j hj l hl)

theorem isSome_datum?_eq (hs : Later s₀ s) {k : NodeKey} (hk : k ∈ c.net.members) (side : Side)
    (i : Nat) : (s.graph.datum? ⟨c.place k, side, i⟩).isSome =
      (c.values.datum? ⟨k, side, i⟩).isSome := by
  rw [isSome_datum?_congr hs.wiring, isSome_datum?_congr c.wiring, c.part.any_data_eq hk]

/-- A wire from an output that shows what was forecast brings it to its target. -/
theorem right_transfer (hg : s₀.graph.Coherent) (hs : Ongoing s₀ s) {w : WireKey}
    (hw : w ∈ s₀.graph.links) {a t : PinRef} (ha : s₀.graph.sourceOf? w = some a)
    (ht : s₀.graph.targetOf? w = some t) {j : NodeKey} (hj : j ∈ c.net.members)
    (hnode : a.node = c.place j) (hright : ∀ l, c.Right s ⟨c.place j, .output, l⟩) :
    c.Keeps s (s.transfer w) ∧ c.Right (s.transfer w) t := by
  have htarget : c.Right (s.transfer w) t := by
    rintro i hi l (rfl | ⟨v, hv, hb, hu⟩)
    · cases target_side hg hw ht
    · obtain rfl := hg.target_unique hw hv ht hu
      obtain rfl : a = ⟨c.place i, .output, l⟩ := Option.some.inj (ha.symm.trans hb)
      obtain rfl : i = j := c.place.injective hnode
      rw [hs.datum?_transfer hg hw ha ht, if_pos rfl]
      exact hright l i hi l (.inl rfl)
  refine ⟨fun r hr => ?_, htarget⟩
  by_cases hrt : r = t
  · exact hrt ▸ htarget
  · exact c.right_congr (by rw [hs.datum?_transfer hg hw ha ht, if_neg hrt]) hr

/-- A node of the part whose inputs show what was forecast has the operands that were forecast. -/
theorem operands_eq (hs : Ongoing s₀ s) {k : NodeKey} (hk : k ∈ c.net.members)
    (hin : ∀ r ∈ dataInputs s₀.graph (c.place k), c.Right s r) :
    s.graph.operands (c.place k) = c.values.operands k := by
  refine operands_congr fun i => ?_
  by_cases hlinked : ∃ b, s₀.graph.Linked b ⟨c.place k, .input, i⟩
  · obtain ⟨b, hb⟩ := hlinked
    obtain ⟨j, hj, l, rfl, w, hw, ha, ht⟩ := (c.part.links k hk i b).1 hb
    refine eq_of_isSome_eq (c.isSome_datum?_eq hs.toLater hk .input i) fun v u hv hu => ?_
    have hmem : ⟨c.place k, .input, i⟩ ∈ dataInputs s₀.graph (c.place k) := by
      refine mem_dataInputs_iff.2 ⟨rfl, rfl, ?_⟩
      rw [← isSome_datum?_congr hs.wiring, hv]
      rfl
    have hcarried := c.solves.carried w hw _ _ ha ht hk
    rw [← hin _ hmem j hj l (.inr hb), hv, hu] at hcarried
    exact Option.some.inj hcarried
  · have hfree : ∀ a, ¬ c.net.Linked a ⟨k, .input, i⟩ := by
      intro a ha
      obtain ⟨_, p, q, hjoins⟩ := linked_ends c.coherent ha
      obtain ⟨j, side, l⟩ := a
      obtain rfl : side = .output := hjoins.source_side
      exact hlinked ⟨_, (c.part.links k hk i _).2 ⟨j, hjoins.source_member, l, rfl, ha⟩⟩
    rw [hs.free _ rfl fun a ha => hlinked ⟨a, ha⟩, c.part.free k hk i hfree]
    refine (c.solves.free _ rfl fun w hw ht => ?_).symm
    obtain ⟨a, _, ha, -⟩ := ends_of_mem_links c.coherent hw
    exact hfree a ⟨w, hw, ha, ht⟩

/-- A node of the part that is evaluated with inputs that show what was forecast succeeds, and its
outputs show it as well. -/
theorem right_invoke (hg : s₀.graph.Coherent) (hs : Ongoing s₀ s) (watch : Stopwatch) {k : NodeKey}
    (hk : k ∈ c.net.members) (hin : ∀ r ∈ dataInputs s₀.graph (c.place k), c.Right s r) :
    ∃ s', invoke watch (c.place k) s = (.ok (), s') ∧ c.Keeps s s' ∧
      ∀ l, c.Right s' ⟨c.place k, .output, l⟩ := by
  obtain ⟨n, hn⟩ := hg.exists_node (c.part.members k hk)
  have hcomputes := c.computes k hk n hn
  obtain ⟨s', hi, -⟩ := invoke_of_reliable watch hs.toLater hn hcomputes.reliable
  obtain ⟨n', hn', hlike⟩ := hs.refilled hn
  have hs' : s' = (invoke watch (c.place k) s).2 := by rw [hi]
  have hlater : Later s₀ s' := hs' ▸ hs.trans (later_invoke watch _ s)
  -- outputs of the node show what its function gives, and that is what solves the network
  have houtput (l : Nat) : s'.graph.datum? ⟨c.place k, .output, l⟩ =
      c.values.datum? ⟨k, .output, l⟩ := by
    refine eq_of_isSome_eq (c.isSome_datum?_eq hlater hk .output l) fun v u hv hu => ?_
    rw [hs', datum?_invoke watch hn' l] at hv
    rw [c.solves.computed k hk l u hu, hcomputes.outputs n' hlike _ l v hv,
      ← c.operands_eq hs hk hin, operands_of_node? hn']
  have hright (l : Nat) : c.Right s' ⟨c.place k, .output, l⟩ := by
    rintro j hj i (heq | hlinked)
    · obtain ⟨rfl, rfl⟩ : k = j ∧ l = i := by simpa using heq
      exact houtput l
    · obtain ⟨_, p, q, hjoins⟩ := linked_ends hg hlinked
      cases hjoins.target_side
  refine ⟨s', hi, fun r hr => ?_, hright⟩
  obtain ⟨node, side, i⟩ := r
  by_cases hout : node = c.place k ∧ side = .output
  · obtain ⟨rfl, rfl⟩ := hout
    exact hright i
  · refine c.right_congr ?_ hr
    rw [hs']
    refine datum?_invoke_of_ne watch fun hnode => ?_
    cases side with
    | input => rfl
    | output => exact absurd ⟨hnode, rfl⟩ hout

/-! ### Pulling what was forecast -/

/-- The nodes on a path are nodes of the part to which values lead from a node. -/
def Below (path : List NodeKey) (j : NodeKey) : Prop :=
  ∀ p ∈ path, ∃ k, p = c.place k ∧ TransGen (Feeds c.net) j k

/-- What there is to do is to pull values of the part. -/
def Concerns (path : List NodeKey) : Demand → Prop
  | .inputs rs => ∀ r ∈ rs, r.node ∈ s₀.graph.members ∧ r.side = .input ∧
      ∀ a, s₀.graph.Linked a r → ∃ j ∈ c.net.members, a.node = c.place j ∧ c.Below path j
  | .node k => ∃ j ∈ c.net.members, k = c.place j ∧ c.Below path j

/-- The values that were to be pulled are those that were forecast. -/
def Meets (s : State) : Demand → Prop
  | .inputs rs => ∀ r ∈ rs, c.Right s r
  | .node k => ∀ l, c.Right s ⟨k, .output, l⟩

variable {c}

/-- Values lead round in no circle, so that a node does not wait for itself. -/
theorem Below.not_mem {path : List NodeKey} {j : NodeKey} (h : c.Below path j) :
    c.place j ∉ path := by
  intro hmem
  obtain ⟨k, hk, hjk⟩ := h _ hmem
  obtain rfl := c.place.injective hk
  exact c.acyclic ⟨j, hjk⟩

theorem Below.cons {path : List NodeKey} {i j : NodeKey} (h : c.Below path j)
    (hij : Feeds c.net i j) : c.Below (c.place j :: path) i := by
  intro p hp
  rcases List.mem_cons.1 hp with rfl | hp
  · exact ⟨j, rfl, .single hij⟩
  · obtain ⟨k, hk, hjk⟩ := h p hp
    exact ⟨k, hk, .head hij hjk⟩

/-- The inputs of a node of the part are fed by the part. -/
theorem concerns_dataInputs (hs : Later s₀ s) {path : List NodeKey} {k : NodeKey}
    (hk : k ∈ c.net.members) (hb : c.Below path k) :
    c.Concerns (c.place k :: path) (.inputs (dataInputs s.graph (c.place k))) := by
  rintro ⟨node, side, i⟩ hr
  obtain ⟨rfl, rfl, hdata⟩ := mem_dataInputs_iff.1 hr
  refine ⟨c.part.members k hk, rfl, fun a ha => ?_⟩
  obtain ⟨j, hj, l, rfl, hlinked⟩ := (c.part.links k hk i a).1 ha
  refine ⟨j, hj, rfl, hb.cons (feeds_iff_linked.2 ⟨_, _, hlinked, rfl, rfl, ?_⟩)⟩
  rw [← c.part.any_data_eq hk, ← hs.wiring.any_data, hdata]

/-- A node of the part is pulled where one of its outputs feeds an input. -/
theorem pulledSource?_eq (hg : s₀.graph.Coherent) (hs : Later s₀ s) {w : WireKey}
    (hw : w ∈ s₀.graph.links) {a : PinRef} (ha : s₀.graph.sourceOf? w = some a) {j : NodeKey}
    (hj : j ∈ c.net.members) (hnode : a.node = c.place j) :
    pulledSource? s.graph w = some (c.place j) := by
  obtain ⟨a', t, ha', -, -, -, hsource, -⟩ :=
    ends_of_mem_links (hg.congr hs.wiring) (hs.wiring.links ▸ hw)
  obtain rfl : a' = a := Option.some.inj (ha'.symm.trans ((hs.wiring.sourceOf? w).trans ha))
  obtain ⟨n, hn⟩ := hg.exists_node (c.part.members j hj)
  have hstill := c.part.still j hj
  have hcontains := (hg.contains_iff _).2 (c.part.members j hj)
  rw [pulledSource?, hsource, hnode]
  refine Option.filter_eq_some_iff.2 ⟨rfl, ?_⟩
  rw [isPulled_congr hs]
  simpa [isPulled, hcontains, hn] using hstill

/-- The next input is fed by a node of the part, which is pulled for it. -/
theorem exists_source (hg : s₀.graph.Coherent) (hs : Ongoing s₀ s) {path : List NodeKey}
    {r : PinRef} {rs : List PinRef} {w : WireKey} (htask : c.Concerns path (.inputs (r :: rs)))
    (hr : feeder? s.graph r = some w) : ∃ a j, w ∈ s₀.graph.links ∧
      s₀.graph.sourceOf? w = some a ∧ s₀.graph.targetOf? w = some r ∧ j ∈ c.net.members ∧
      a.node = c.place j ∧ c.Below path j ∧ pulledSource? s.graph w = some (c.place j) := by
  obtain ⟨hmem, -, hfed⟩ := htask r List.mem_cons_self
  obtain ⟨hw, ht⟩ := (hs.link_of_feeder? hg hmem).1 hr
  obtain ⟨a, -, ha, -⟩ := ends_of_mem_links hg hw
  obtain ⟨j, hj, hnode, hbelow⟩ := hfed a ⟨w, hw, ha, ht⟩
  exact ⟨a, j, hw, ha, ht, hj, hnode, hbelow, pulledSource?_eq hg hs.toLater hw ha hj hnode⟩

/-- Pulling succeeds and brings the values that were forecast. -/
theorem met_of_pulling {d : Nat} {path : List NodeKey} {task : Demand} {x : Except TurnFault Unit}
    (hg : s₀.graph.Coherent) (hp : Pulling watch d path task s x s') (hs : Ongoing s₀ s)
    (htask : c.Concerns path task) : x = .ok () ∧ c.Keeps s s' ∧ c.Meets s' task := by
  induction hp with
  | done => exact ⟨rfl, fun _ h => h, nofun⟩
  | @unfed path r rs s s' x hr _ ih =>
    obtain ⟨hmem, hside, -⟩ := htask r List.mem_cons_self
    obtain ⟨hx, hkeeps, hmeets⟩ := ih hs fun r hr => htask r (List.mem_cons_of_mem _ hr)
    refine ⟨hx, hkeeps, List.forall_mem_cons.2 ⟨hkeeps r ?_, hmeets⟩⟩
    -- nothing is forecast for an input that no wire feeds
    rintro j - l (rfl | ⟨w, hw, -, ht⟩)
    · cases hside
    · cases hr.symm.trans ((hs.link_of_feeder? hg hmem).2 ⟨hw, ht⟩)
  | copy hr hk _ _ =>
    obtain ⟨a, j, -, -, -, -, -, -, hsource⟩ := exists_source hg hs htask hr
    cases hk.symm.trans hsource
  | @fetch path r rs w k s s₁ s' x hr hk hpull _ ihk ih =>
    obtain ⟨a, j, hw, ha, ht, hj, hnode, hbelow, hsource⟩ := exists_source hg hs htask hr
    obtain rfl : k = c.place j := Option.some.inj (hk.symm.trans hsource)
    obtain ⟨-, hkeeps₁, hmeets₁⟩ := ihk hs ⟨j, hj, rfl, hbelow⟩
    have hs₁ : Ongoing s₀ s₁ := hs.pulling hg hpull (c.part.members j hj)
    obtain ⟨hkeeps₂, hright⟩ := c.right_transfer hg hs₁ hw ha ht hj hnode hmeets₁
    obtain ⟨hx, hkeeps, hmeets⟩ :=
      ih (hs₁.transfer hg hw) fun r hr => htask r (List.mem_cons_of_mem _ hr)
    exact ⟨hx, fun r hr => hkeeps r (hkeeps₂ r (hkeeps₁ r hr)),
      List.forall_mem_cons.2 ⟨hkeeps r hright, hmeets⟩⟩
  | @miss path r rs w k s s' e hr hk _ ih =>
    obtain ⟨a, j, -, -, -, hj, -, hbelow, hsource⟩ := exists_source hg hs htask hr
    obtain rfl : k = c.place j := Option.some.inj (hk.symm.trans hsource)
    cases (ih hs ⟨j, hj, rfl, hbelow⟩).1
  | cyclic hk =>
    obtain ⟨j, -, rfl, hbelow⟩ := htask
    exact absurd hk hbelow.not_mem
  | starve _ _ _ ih =>
    obtain ⟨j, hj, rfl, hbelow⟩ := htask
    cases (ih hs (concerns_dataInputs hs.toLater hj hbelow)).1
  | evaluate _ _ hin hi ih =>
    obtain ⟨j, hj, rfl, hbelow⟩ := htask
    obtain ⟨-, hkeeps, hmeets⟩ := ih hs (concerns_dataInputs hs.toLater hj hbelow)
    have hs₁ := hs.pulling_dataInputs hg hin (c.part.members j hj)
    obtain ⟨u, hu, hkeeps', hright⟩ := c.right_invoke hg hs₁ watch hj fun r hr =>
      hmeets r ((mem_dataInputs_congr hs.wiring).2 hr)
    obtain rfl : u = _ := congrArg Prod.snd (hu.symm.trans hi)
    exact ⟨rfl, fun r hr => hkeeps' r (hkeeps r hr), hright⟩
  | fail _ _ hin hi ih =>
    obtain ⟨j, hj, rfl, hbelow⟩ := htask
    obtain ⟨-, -, hmeets⟩ := ih hs (concerns_dataInputs hs.toLater hj hbelow)
    have hs₁ := hs.pulling_dataInputs hg hin (c.part.members j hj)
    obtain ⟨u, hu, -⟩ := c.right_invoke hg hs₁ watch hj fun r hr =>
      hmeets r ((mem_dataInputs_congr hs.wiring).2 hr)
    cases hu.symm.trans hi

end Forecast

/-! ### Whole runs -/

section
variable {o : Options} {watch : Stopwatch} {p₀ : Progress} {main : NodeKey} {n : Nat}

/-- The nodes of pending turns are members, so that turns write only what nodes write and what wires
lead to. -/
theorem Ongoing.iterate (hg : p₀.state.graph.Coherent) (h : Traced watch p₀ main 0 p₀)
    (hp : ∀ i < n, halt? o ((Run.advance watch)^[i] p₀) = none) :
    Ongoing p₀.state ((Run.advance watch)^[n] p₀).state :=
  Ongoing.steps hg (.of_graph_eq (.refl p₀.state) rfl) (.iterate hg h hp)

end

/-- A data flow that completed in a network tells what the values come to where the network is a
part of another graph. -/
def Completes.forecast {f : NodeKey → Nat → List Value → Value} {s t : State} {xs : List NodeKey}
    {u : Outcome} {r : Result} (h : Completes f s xs u r t) (hs : s.graph.Coherent)
    {σ : Equiv.Perm NodeKey} {g : Graph} (part : s.graph.PartOf σ g)
    (hf : ∀ k ∈ s.graph.members, ∀ n, g.node? (σ k) = some n → n.Computes (f k)) : Forecast g where
  place := σ
  compute := f
  net := s.graph
  values := t.graph
  coherent := hs
  acyclic := by
    rintro ⟨k, hk⟩
    obtain ⟨j, hkj, -⟩ := TransGen.head'_iff.1 hk
    have hleft := h.schedule.mem_left_iff hs.distinct (fun hjk => mem_members_of_feeds hs hjk)
      (mem_members_of_feeds hs hkj)
    exact List.not_mem_nil (hleft.2 ⟨k, hk, .refl⟩)
  part := part
  computes := hf
  wiring := h.settled.wiring
  solves := h.settled.solves

/-- A turn of a node whose data inputs are fed by the part pulls the values that were forecast. -/
theorem Forecast.pulled {s₀ s : State} (c : Forecast s₀.graph) (hg : s₀.graph.Coherent)
    (hs : Ongoing s₀ s) (watch : Stopwatch) {k : NodeKey} (hk : k ∈ s₀.graph.members)
    (hfed : ∀ r ∈ dataInputs s₀.graph k, ∀ a, s₀.graph.Linked a r →
      ∃ j ∈ c.net.members, a.node = c.place j) :
    ∃ u, (pullInputs (evaluatePulled watch (s.graph.members.length + 1) []) k).run.run s =
        (.ok (), u) ∧
      (takeTurn watch k).run.run s = (invokeTurn watch k).run.run u ∧
      Later s₀ u ∧ ∀ r ∈ dataInputs s₀.graph k, c.Right u r := by
  have hconcerns : c.Concerns [] (.inputs (dataInputs s.graph k)) := by
    intro r hr
    rw [mem_dataInputs_congr hs.wiring] at hr
    obtain ⟨rfl, hside, -⟩ := mem_dataInputs_iff.1 hr
    refine ⟨hk, hside, fun a ha => ?_⟩
    obtain ⟨j, hj, hnode⟩ := hfed r hr a ha
    exact ⟨j, hj, hnode, nofun⟩
  have hpulling := pulling_pullInputs (fun k => (hg.contains_iff k).1) hs.toLater watch k
  simp only at hpulling
  cases hrun : ((dataInputs s.graph k).forM
      (pullInput (evaluatePulled watch (s.graph.members.length + 1) []))).run.run s with
  | mk x u =>
    rw [hrun] at hpulling
    obtain ⟨rfl, -, hmeets⟩ := Forecast.met_of_pulling hg hpulling hs hconcerns
    refine ⟨u, ?_, ?_, hs.trans hpulling.later, fun r hr => ?_⟩
    · rw [pullInputs, run_get_bind, hrun]
    · rw [run_takeTurn, hrun, run_invokeTurn]
    · exact hmeets r ((mem_dataInputs_congr hs.wiring).2 hr)

/-! ### A number needed twice -/

namespace NeededTwice

def first : Node := Node.ofSpecs "c" [] [.control "x"] (pure ())

/-- Takes a number and its copy. -/
def second : Node := Node.ofSpecs "d" [.control "y", .data "v" .int, .data "w" .int] [] (pure ())

/-- Control goes from the first node to the second, and the number reaches that node straight and by
way of the node that copies it. -/
def start : State where
  graph := [Edit.newNode CopiedNumber.holder, .insertNode 0,
    .newNode CopiedNumber.copier, .insertNode 1,
    .newNode first, .insertNode 2, .newNode second, .insertNode 3,
    .connect ⟨0, .output, 0⟩ ⟨1, .input, 0⟩, .connect ⟨2, .output, 0⟩ ⟨3, .input, 0⟩,
    .connect ⟨0, .output, 0⟩ ⟨3, .input, 1⟩, .connect ⟨1, .output, 0⟩ ⟨3, .input, 2⟩,
    .setMain (some "c")].foldl Edit.apply (.new {} "g" .controlFlow)

def options : Options := { maxSteps := 5 }

theorem linked (a t : PinRef) : start.graph.Linked a t ↔
    (a = ⟨0, .output, 0⟩ ∧ t = ⟨1, .input, 0⟩) ∨ (a = ⟨2, .output, 0⟩ ∧ t = ⟨3, .input, 0⟩) ∨
      (a = ⟨0, .output, 0⟩ ∧ t = ⟨3, .input, 1⟩) ∨ (a = ⟨1, .output, 0⟩ ∧ t = ⟨3, .input, 2⟩) := by
  have hlinks : start.graph.links = [0, 1, 2, 3] := by decide +kernel
  have hsource : [0, 1, 2, 3].map start.graph.sourceOf? = [some ⟨0, .output, 0⟩,
      some ⟨2, .output, 0⟩, some ⟨0, .output, 0⟩, some ⟨1, .output, 0⟩] := by decide +kernel
  have htarget : [0, 1, 2, 3].map start.graph.targetOf? = [some ⟨1, .input, 0⟩,
      some ⟨3, .input, 0⟩, some ⟨3, .input, 1⟩, some ⟨3, .input, 2⟩] := by decide +kernel
  simp only [List.map_cons, List.map_nil, List.cons.injEq, and_true] at hsource htarget
  simp [Linked, hlinks, hsource, htarget, eq_comm]

theorem coherent : start.graph.Coherent := by
  obtain ⟨hholder, hcopier⟩ := CopiedNumber.fresh
  have hg : Reachable start.graph := (Reachable.new {} "g" .controlFlow).edits
    ⟨hholder, List.not_mem_nil,
      hcopier, (by decide : (1 : Nat) ∉ [0]),
      Node.fresh_ofSpecs .., (by decide : (2 : Nat) ∉ [0, 1]),
      Node.fresh_ofSpecs .., (by decide : (3 : Nat) ∉ [0, 1, 2]),
      by simp [Edit.AllAdmissible, Edit.Admissible]⟩
  exact hg.wired.coherent

/-- The number and its copy are a part of the graph. -/
theorem part : CopiedNumber.first.graph.PartOf (Equiv.refl NodeKey) start.graph := by
  have hpins {k : NodeKey} (hk : k ∈ CopiedNumber.first.graph.members) (side : Side) (i : Nat) :
      (start.graph.pin? ⟨k, side, i⟩).map (fun p => (p.flow, p.value)) =
        (CopiedNumber.first.graph.pin? ⟨k, side, i⟩).map fun p => (p.flow, p.value) := by
    have hlist : (start.graph.node? k).map (fun n => (n.pins side).map fun p => (p.flow, p.value)) =
        (CopiedNumber.first.graph.node? k).map fun n =>
          (n.pins side).map fun p => (p.flow, p.value) := by
      rw [CopiedNumber.members.1] at hk
      rcases List.mem_pair.1 hk with rfl | rfl <;> cases side <;> decide +kernel
    have h := congrArg (Option.bind · (·[i]?)) hlist
    simpa [Option.bind_map, Function.comp_def, Graph.pin?, Node.pin?, Option.map_bind] using h
  refine ⟨?_, ?_, ?_, ?_, ?_⟩
  · rw [CopiedNumber.members.1]; decide +kernel
  · rw [CopiedNumber.members.1]; decide +kernel
  · intro k hk side i
    have h := congrArg (Option.map Prod.fst) (hpins hk side i)
    simp only [Option.map_map] at h
    exact h
  · intro k hk i b
    rw [CopiedNumber.members.1] at hk ⊢
    simp only [linked, (CopiedNumber.linked _ _).1, Equiv.refl_apply]
    rcases List.mem_pair.1 hk with rfl | rfl
    · simp
    · simp
  · intro k hk i _
    have h := congrArg (Option.bind · fun e => if e.1 then none else some e.2) (hpins hk .input i)
    simp only [Option.bind_map] at h
    exact h

theorem computes {k : NodeKey} (hk : k ∈ CopiedNumber.first.graph.members) :
    ∀ n, start.graph.node? k = some n → n.Computes (CopiedNumber.compute k) := by
  rw [CopiedNumber.members.1] at hk
  rcases List.mem_pair.1 hk with rfl | rfl
  · exact CopiedNumber.computes_holder rfl (by decide +kernel)
  · exact CopiedNumber.computes_copier (by decide +kernel) rfl (by decide +kernel)
      (by decide +kernel)

theorem inputs : dataInputs start.graph 3 = [⟨3, .input, 1⟩, ⟨3, .input, 2⟩] := by
  decide +kernel

theorem fed : ∀ x ∈ dataInputs start.graph 3, ∀ a, start.graph.Linked a x →
    ∃ k ∈ CopiedNumber.first.graph.members, a.node = Equiv.refl NodeKey k := by
  intro x hx a ha
  rw [inputs] at hx
  rw [linked] at ha
  rcases List.mem_pair.1 hx with rfl | rfl
  · obtain rfl : a = ⟨0, .output, 0⟩ := by simpa using ha
    exact ⟨0, by decide, rfl⟩
  · obtain rfl : a = ⟨1, .output, 0⟩ := by simpa using ha
    exact ⟨1, by decide, rfl⟩

/-- What the runs tell. -/
theorem results : (runControl options (fun _ => 0) start).result.toOption.map (·.steps) = some 2 ∧
    (runData (fun _ => 0) CopiedNumber.first).result.toOption.map (·.status) = some .completed ∧
    (turnAt? (fun _ => 0) (firstProgress start) 1).map (·.node) = some 3 := by
  decide +kernel

end NeededTwice

/-- Nodes of control are evaluated with the values of a data flow. Let the network of a graph, whose
nodes compute their outputs from their operands, be a part of a graph of control, and let a data
flow in the network complete. In every turn of a run of control at a node whose data inputs are fed
by that part, if they are fed at all, pulling succeeds, and when the node is evaluated every such
input holds the value that the data flow left at the same output. -/
theorem runControl_onDemand {o : Options} {watch watch' : Stopwatch} {s s' : State} {r r' : Result}
    {f : NodeKey → Nat → List Value → Value} {σ : Equiv.Perm NodeKey} (hg : s.graph.Coherent)
    (hg' : s'.graph.Coherent) (part : s'.graph.PartOf σ s.graph)
    (hf : ∀ k ∈ s'.graph.members, (∀ n, s'.graph.node? k = some n → n.Computes (f k)) ∧
      ∀ n, s.graph.node? (σ k) = some n → n.Computes (f k))
    (hr : (runControl o watch s).result = .ok r)
    (hr' : (runData watch' s').result = .ok r') (hc : r'.status = .completed) :
    ∀ i < r.steps, ∃ t, turnAt? watch (firstProgress s) i = some t ∧
      ((∀ x ∈ dataInputs s.graph t.node, ∀ a, s.graph.Linked a x →
          ∃ k ∈ s'.graph.members, a.node = σ k) →
        let before := ((advance watch)^[i] (firstProgress s)).state
        ∃ u, (pullInputs (evaluatePulled watch (before.graph.members.length + 1) [])
              t.node).run.run before = (.ok (), u) ∧
          (takeTurn watch t.node).run.run before = (invokeTurn watch t.node).run.run u ∧
          ∀ x ∈ dataInputs s.graph t.node, ∀ k ∈ s'.graph.members, ∀ l,
            s.graph.Linked ⟨σ k, .output, l⟩ x → ∃ v, u.graph.datum? x = some v ∧
              (runData watch' s').state.graph.datum? ⟨k, .output, l⟩ = some v) := by
  intro i hi
  obtain ⟨main, hmain, hflow⟩ := mainNode?_of_controlError? (controlError?_eq_none_of_ok hr)
  have hfirst : Traced watch (firstProgress s) main 0 (firstProgress s) := .first hg hmain hflow
  have hbefore : ∀ j < i, halt? o ((advance watch)^[j] (firstProgress s)) = none :=
    fun j hj => halt?_of_lt_steps hr (hj.trans hi)
  obtain ⟨t, ts, hts⟩ := exists_pending_of_halt? (halt?_of_lt_steps hr hi)
  obtain ⟨ns, ht⟩ := (hfirst.iterate hg hbefore).pending t (hts ▸ List.mem_cons_self)
  refine ⟨t, by rw [turnAt?, hts]; rfl, fun hfed => ?_⟩
  obtain ⟨xs, done, hdone⟩ :=
    exists_completes hg' (fun k hk => (hf k hk).1) hr' hc
  let c : Forecast (firstProgress s).state.graph :=
    hdone.forecast hg' part fun k hk => (hf k hk).2
  obtain ⟨u, hpull, hturn, hlater, hright⟩ :=
    c.pulled hg (Ongoing.iterate hg hfirst hbefore) watch ht.mem_members hfed
  refine ⟨u, hpull, hturn, fun x hx k hk l hl => ?_⟩
  have hsome : (u.graph.datum? x).isSome = true := by
    rw [isSome_datum?_congr hlater.wiring]
    exact (mem_dataInputs_iff.1 hx).2.2
  obtain ⟨v, hv⟩ := Option.isSome_iff_exists.1 hsome
  refine ⟨v, hv, ?_⟩
  rw [hdone.graph, ← hv]
  exact (hright x hx k hk l (.inr hl)).symm

/-- The second node is evaluated with the number and its copy, which a data flow in the network of
the two leaves as well. -/
theorem runControl_onDemand_neededTwice :
    let watch : Stopwatch := fun _ => 0
    NeededTwice.start.graph.Coherent ∧ CopiedNumber.first.graph.Coherent ∧
      CopiedNumber.first.graph.PartOf (Equiv.refl NodeKey) NeededTwice.start.graph ∧
      ∃ r r' t u v w,
        (runControl NeededTwice.options watch NeededTwice.start).result = .ok r ∧ r.steps = 2 ∧
        (runData watch CopiedNumber.first).result = .ok r' ∧ r'.status = .completed ∧
        turnAt? watch (firstProgress NeededTwice.start) 1 = some t ∧ t.node = 3 ∧
        (takeTurn watch t.node).run.run
            ((advance watch)^[1] (firstProgress NeededTwice.start)).state =
          (invokeTurn watch t.node).run.run u ∧
        u.graph.datum? ⟨3, .input, 1⟩ = some v ∧
        (runData watch CopiedNumber.first).state.graph.datum? ⟨0, .output, 0⟩ = some v ∧
        u.graph.datum? ⟨3, .input, 2⟩ = some w ∧
        (runData watch CopiedNumber.first).state.graph.datum? ⟨1, .output, 0⟩ = some w := by
  intro watch
  have hg' : CopiedNumber.first.graph.Coherent := CopiedNumber.reachable.1.wired.coherent
  obtain ⟨hcontrol, hdata, hturn⟩ := NeededTwice.results
  obtain ⟨r, hr, hsteps⟩ := Option.map_eq_some_iff.1 hcontrol
  obtain ⟨r', hr', hc⟩ := Option.map_eq_some_iff.1 hdata
  replace hr : (runControl NeededTwice.options watch NeededTwice.start).result = .ok r :=
    Outcome.result_eq_ok hr
  replace hr' : (runData watch CopiedNumber.first).result = .ok r' := Outcome.result_eq_ok hr'
  obtain ⟨t, ht, hvalues⟩ := runControl_onDemand NeededTwice.coherent hg' NeededTwice.part
    (fun k hk => ⟨(CopiedNumber.computes hk).1, NeededTwice.computes hk⟩) hr hr' hc 1 (by omega)
  have hnode : t.node = 3 := by
    rw [show turnAt? (fun _ => 0) (firstProgress NeededTwice.start) 1 = some t from ht] at hturn
    exact Option.some.inj hturn
  obtain ⟨u, -, htake, hshown⟩ := hvalues (hnode ▸ NeededTwice.fed)
  rw [hnode, NeededTwice.inputs] at hshown
  obtain ⟨v, hv, hnumber⟩ := hshown ⟨3, .input, 1⟩ (by decide) 0 (by decide) 0
    ((NeededTwice.linked _ _).2 (.inr (.inr (.inl ⟨rfl, rfl⟩))))
  obtain ⟨w, hw, hcopy⟩ := hshown ⟨3, .input, 2⟩ (by decide) 1 (by decide) 0
    ((NeededTwice.linked _ _).2 (.inr (.inr (.inr ⟨rfl, rfl⟩))))
  exact ⟨NeededTwice.coherent, hg', NeededTwice.part, r, r', t, u, v, w, hr, hsteps, hr', hc, ht,
    hnode, htake,
    hv, hnumber, hw, hcopy⟩

end Run
end Patchbay
