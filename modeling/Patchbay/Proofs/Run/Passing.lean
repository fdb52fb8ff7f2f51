import Patchbay.Proofs.Run.Solution
import Patchbay.Proofs.Run.Steps
/-!
# Turns of disabled nodes

A disabled node does nothing in its step and lets every flow output pass. Control pulls the values
of its data inputs before that all the same. Nothing reads them, but where they cannot be given the
turn fails, and control goes no further: switching a node off does not save the branch below it from
what feeds the node. Where nothing that is pulled can fail, control passes to whatever the flow
outputs are wired with.

## Main definitions

* `Run.flowTargets`: the nodes that the flow outputs of a node lead to.
* `Run.Supplies`: a node is pulled for the values of another one.
* `Run.Assured`: nothing can fail that is pulled for a node.
* `Run.PassesOn`, `Run.BreaksOff`: the two ways in which a turn of a disabled node can end.

## Main statements

* `Run.mem_flowTargets_iff`: the flow targets of a node are the members at its flow outputs.
* `Run.eq_ok_of_pulling`: pulling what cannot fail succeeds.
* `Run.runControl_disabled`: how turns of disabled nodes end in a run.
* `Run.not_forall_flowTargets_pending`: a turn of a disabled node can cut control off.
-/
namespace Patchbay

open Relation

/-- A node that does nothing cannot fail. -/
theorem Node.reliable_of_disabled {n : Node} (h : n.enabled = false) : n.Reliable := by
  intro n' hlike m
  have henabled : n'.blank.enabled = n.blank.enabled := congrArg Node.enabled hlike
  exact Node.outcome_step_of_disabled (n := n') (henabled.trans h) m

namespace Run
open Patchbay.Graph
variable {watch : Stopwatch} {s₀ s s' : State}

/-! ### Where control can go from a node -/

/-- The flow outputs of a node, in declaration order. -/
def flowOutputs (g : Graph) (k : NodeKey) : List PinRef :=
  (g.pinRefs k .output).filter fun r => (g.pin? r).any (·.flow)

/-- The nodes that wires lead to from the flow outputs of a node, for each output in the order in
which its wires were registered. -/
def flowTargets (g : Graph) (k : NodeKey) : List NodeKey :=
  (flowOutputs g k).flatMap fun a => (g.wiresFrom a).filterMap fun w => (g.targetOf? w).map (·.node)

theorem mem_flowOutputs_iff {g : Graph} {k : NodeKey} {r : PinRef} : r ∈ flowOutputs g k ↔
    r.node = k ∧ r.side = .output ∧ ∃ p, g.pin? r = some p ∧ p.flow = true := by
  rw [flowOutputs, List.mem_filter, mem_pinRefs_iff, Option.any_eq_true, ← and_assoc, ← and_assoc]
  refine and_congr_left fun ⟨p, hp, _⟩ => and_iff_left ?_
  exact Option.isSome_of_eq_some hp

/-- The flow targets of a node are the members at its flow outputs. -/
theorem mem_flowTargets_iff {g : Graph} (hg : g.Coherent) {k j : NodeKey} : j ∈ flowTargets g k ↔
    j ∈ g.members ∧ ∃ a t p, a.node = k ∧ a.side = .output ∧ g.pin? a = some p ∧ p.flow = true ∧
      g.Linked a t ∧ t.node = j := by
  simp only [flowTargets, List.mem_flatMap, mem_flowOutputs_iff, List.mem_filterMap,
    Option.map_eq_some_iff,
    Graph.wiresFrom_eq, List.mem_filter, decide_eq_true_eq]
  constructor
  · rintro ⟨a, ⟨hnode, hside, p, hp, hflow⟩, w, ⟨hw, ha⟩, t, ht, rfl⟩
    have hlinked : g.Linked a t := ⟨w, hw, ha, ht⟩
    obtain ⟨_, _, _, hjoins⟩ := linked_ends hg hlinked
    exact ⟨hjoins.target_member, a, t, p, hnode, hside, hp, hflow, hlinked, rfl⟩
  · rintro ⟨-, a, t, p, hnode, hside, hp, hflow, ⟨w, hw, ha, ht⟩, rfl⟩
    exact ⟨a, ⟨hnode, hside, p, hp, hflow⟩, w, ⟨hw, ha⟩, t, ht, rfl⟩

theorem flowOutputs_of_node? {g : Graph} {k : NodeKey} {n : Node} (hn : g.node? k = some n) :
    flowOutputs g k = (n.outputs.zipIdx.filter (·.1.flow)).map fun p => ⟨k, .output, p.2⟩ := by
  have hrefs : g.pinRefs k .output = n.outputs.zipIdx.map fun p => ⟨k, .output, p.2⟩ := by
    simp only [pinRefs, hn, Node.pins]
    rw [List.range_eq_range', ← List.zipIdx_map_snd 0 n.outputs, List.map_map]
    rfl
  rw [flowOutputs, hrefs, List.filter_map]
  refine congrArg _ (List.filter_congr fun p hp => ?_)
  have hget : n.outputs[p.2]? = some p.1 := List.mem_zipIdx_iff_getElem?.1 hp
  simp [Graph.pin?, hn, Node.pin?, Node.pins, hget]

/-- Where control can go from a node does not change in a run. -/
theorem flowTargets_congr (h : Later s s') (k : NodeKey) :
    flowTargets s'.graph k = flowTargets s.graph k := by
  have hflow (a : PinRef) :
      (s'.graph.pin? a).any (·.flow) = (s.graph.pin? a).any (·.flow) := by
    have ha := congrArg (Option.any (·.flow)) (h.wiring.pins a)
    simp only [Option.any_map] at ha
    exact ha
  have hrefs : s'.graph.pinRefs k .output = s.graph.pinRefs k .output := by
    have hlength := congrArg (Option.map fun n : Node => n.outputs.length) (h.nodes k)
    simp only [Option.map_map, Function.comp_def, Node.blank, List.length_map] at hlength
    simp only [pinRefs]
    cases hn : s.graph.node? k <;> cases hn' : s'.graph.node? k <;> simp_all [Node.pins]
  have hwires (a : PinRef) : s'.graph.wiresFrom a = s.graph.wiresFrom a := by
    simp only [Graph.wiresFrom_eq, h.wiring.links, h.wiring.sourceOf?]
  simp only [flowTargets, flowOutputs, hrefs, hflow, hwires, h.wiring.targetOf?]

/-- Control goes on to all flow targets of a member that chose none of its outputs. -/
theorem successors_of_selection {g : Graph} (hg : g.Coherent) {k : NodeKey} {n : Node}
    (hk : k ∈ g.members) (hn : g.node? k = some n) (hall : n.selection = none) :
    successors g k = flowTargets g k := by
  rw [successors_of_coherent hg hk hn, flowTargets, flowOutputs_of_node? hn, Node.exercised, hall]
  simp only [Bool.and_true, List.flatMap_map]
  refine List.flatMap_congr fun p _ => List.filterMap_congr fun w hw => ?_
  exact filter_targetNode?_eq hg (List.mem_filter.1 hw).1

/-! ### What is pulled for a node -/

/-- A node that is evaluated when its values are needed feeds a data input of another node. -/
def Supplies (g : Graph) (j k : NodeKey) : Prop := Feeds g j k ∧ isPulled g j = true

/-- Nothing can fail that is pulled for a node: no node that supplies it at first hand or at second
ever fails, and none waits for its own values. -/
def Assured (g : Graph) (k : NodeKey) : Prop :=
  ∀ j, TransGen (Supplies g) j k →
    (∀ n, g.node? j = some n → n.Reliable) ∧ ¬ TransGen (Supplies g) j j

/-- Who supplies an assured node is assured as well. -/
theorem Assured.of_supplies {g : Graph} {j k : NodeKey} (h : Assured g k) (hj : Supplies g j k) :
    Assured g j :=
  fun i hi => h i (hi.tail hj)

/-- What there is to do cannot fail, and the nodes on a path are the ones that it is done for. -/
def Granted (g : Graph) (path : List NodeKey) : Demand → Prop
  | .inputs rs => ∀ r ∈ rs, r.node ∈ g.members ∧ r ∈ dataInputs g r.node ∧ Assured g r.node ∧
      ∀ p ∈ path, ReflTransGen (Supplies g) r.node p
  | .node k => k ∈ g.members ∧ Assured g k ∧ (∀ n, g.node? k = some n → n.Reliable) ∧
      ¬ TransGen (Supplies g) k k ∧ ∀ p ∈ path, TransGen (Supplies g) k p

theorem Granted.tail {g : Graph} {path : List NodeKey} {r : PinRef} {rs : List PinRef}
    (h : Granted g path (.inputs (r :: rs))) : Granted g path (.inputs rs) :=
  fun r' hr' => h r' (List.mem_cons_of_mem r hr')

/-- A node whose value an input is to have supplies the node of the input. -/
theorem Granted.source (hg : s₀.graph.Coherent) (hs : Later s₀ s) {path : List NodeKey}
    {r : PinRef} {rs : List PinRef} {w : WireKey} {k : NodeKey}
    (h : Granted s₀.graph path (.inputs (r :: rs))) (hr : feeder? s.graph r = some w)
    (hk : pulledSource? s.graph w = some k) : Granted s₀.graph path (.node k) := by
  obtain ⟨hmem, hin, hassured, hpath⟩ := h r List.mem_cons_self
  have hsource := (Option.filter_eq_some_iff.1 hk).1
  have hfeeds := feeds_of_feeder? hg (.refl s₀.graph) hs.wiring hs.wiring hmem hin hr hsource
  have hsupplies : Supplies s₀.graph k r.node := ⟨hfeeds, isPulled_of_pulledSource? hs hk⟩
  obtain ⟨hreliable, hacyclic⟩ := hassured k (.single hsupplies)
  exact ⟨mem_members_of_feeds hg hfeeds, hassured.of_supplies hsupplies, hreliable, hacyclic,
    fun p hp => .head' hsupplies (hpath p hp)⟩

/-- The inputs of an assured node can be pulled. -/
theorem Assured.granted (hs : Later s₀ s) {path : List NodeKey} {k : NodeKey}
    (h : Assured s₀.graph k) (hk : k ∈ s₀.graph.members)
    (hpath : ∀ p ∈ path, ReflTransGen (Supplies s₀.graph) k p) :
    Granted s₀.graph path (.inputs (dataInputs s.graph k)) := by
  intro r hr
  have hr' := (mem_dataInputs_congr hs.wiring).1 hr
  obtain ⟨rfl, -⟩ := mem_dataInputs_iff.1 hr
  exact ⟨hk, hr', h, hpath⟩

/-- Pulling what cannot fail succeeds. -/
theorem eq_ok_of_pulling (hg : s₀.graph.Coherent) {d : Nat} {path : List NodeKey} {task : Demand}
    {x : Except TurnFault Unit} (hp : Pulling watch d path task s x s') (hs : Later s₀ s)
    (htask : Granted s₀.graph path task) : x = .ok () := by
  -- each way to fail is excluded by what is granted, for the node itself or for one below it
  induction hp with
  | done | evaluate => rfl
  | unfed _ _ ih => exact ih hs htask.tail
  | copy _ _ _ ih => exact ih (hs.trans (later_transfer _ _)) htask.tail
  | fetch _ _ hk _ _ ih => exact ih ((hs.trans hk.later).trans (later_transfer _ _)) htask.tail
  | miss hr hw _ ih => cases ih hs (htask.source hg hs hr hw)
  | cyclic hk => exact absurd (htask.2.2.2.2 _ hk) htask.2.2.2.1
  | starve _ _ _ ih =>
    obtain ⟨hmem, hassured, -, -, hpath⟩ := htask
    cases ih hs (hassured.granted hs hmem
      (List.forall_mem_cons.2 ⟨.refl, fun p hp => (hpath p hp).to_reflTransGen⟩))
  | fail _ _ hin hi _ =>
    obtain ⟨hmem, -, hreliable, -⟩ := htask
    obtain ⟨n, hn⟩ := hg.exists_node hmem
    obtain ⟨u, hu, -⟩ := invoke_of_reliable watch (hs.trans hin.later) hn (hreliable n hn)
    cases hu.symm.trans hi

/-! ### How the turn of a disabled node ends -/

/-- A turn failed in nothing and let control pass to all flow targets of its node, before it goes on
with the turns that were pending. -/
structure PassesOn (g : Graph) (t : Turn) (ts : List Turn) (p p' : Progress) : Prop where
  failures : p'.failures = p.failures
  pending : p'.pending = (flowTargets g t.node).map (fun k =>
    { node := k, parent := some p.turns.size, trail := t.node :: t.trail : Turn }) ++ ts

/-- A turn failed by a fault and scheduled nothing. -/
structure BreaksOff (g : Graph) (t : Turn) (ts : List Turn) (e : TurnFault) (p p' : Progress) :
    Prop where
  failures : p'.failures = p.failures.push (failureOf g t e)
  pending : p'.pending = ts

/-- A step of a disabled node succeeds and chooses no output. -/
theorem invoke_of_disabled (watch : Stopwatch) (hs : Later s₀ s) {k : NodeKey} {n : Node}
    (hn : s₀.graph.node? k = some n) (hoff : n.enabled = false) :
    ∃ s' m, invoke watch k s = (.ok (), s') ∧ s'.graph.node? k = some m ∧ m.selection = none := by
  have hblank := hs.nodes k
  rw [hn, Option.map_some] at hblank
  obtain ⟨n', hn', hlike⟩ := Option.map_eq_some_iff.1 hblank
  have hoff' : n'.enabled = false := by
    have henabled : n'.blank.enabled = n.blank.enabled := congrArg Node.enabled hlike
    exact henabled.trans hoff
  obtain ⟨s', hi, -⟩ := invoke_of_reliable watch hs hn (Node.reliable_of_disabled hoff)
  obtain rfl : (invoke watch k s).2 = s' := congrArg Prod.snd hi
  refine ⟨_, (n'.step s.memory).node, hi, ?_, by simp [Node.step, hoff']⟩
  rw [graph_invoke watch hn', node?_modifyNode, if_pos rfl, hn']
  rfl

/-- The failure of a turn is told by ids, which are a matter of the wiring. -/
theorem failureOf_congr {g h : Graph} (a : SameWiring g h) (t : Turn) (e : TurnFault) :
    failureOf h t e = failureOf g t e := by
  have hid : nodeId h = nodeId g := funext (nodeId_congr a)
  cases e <;> simp [failureOf, Turn.path, hid]

/-- A turn for which values cannot be pulled fails by that, and its node is not evaluated. -/
theorem advance_of_starved {p : Progress} (hs : Later s₀ p.state) {t : Turn} {ts : List Turn}
    (hts : p.pending = t :: ts) {e : TurnFault} {u : State}
    (hpull : (pullInputs (evaluatePulled watch (p.state.graph.members.length + 1) [])
      t.node).run.run p.state = (.error e, u)) :
    BreaksOff s₀.graph t ts e p (advance watch p) ∧
      (advance watch p).state = u.report (failureReport u.graph t.node e) := by
  obtain ⟨state, pending, turns, failures⟩ := p
  obtain rfl : pending = t :: ts := hts
  have hlater := proceeds_pullInputs
    (proceeds_evaluatePulled watch (state.graph.members.length + 1) []) t.node state
  have hturn := run_takeTurn watch t.node state
  rw [hpull] at hlater
  rw [pullInputs, run_get_bind] at hpull
  rw [hpull] at hturn
  have hfailure := failureOf_congr (hs.trans hlater).wiring t e
  have hrun : (takeTurn watch t.node).run state = (.error e, u) := hturn
  refine ⟨⟨?_, ?_⟩, ?_⟩ <;> simp only [advance, hrun, hfailure]

/-- What comes of the turn of a disabled node is decided by what it pulls. -/
theorem advance_of_disabled (hg : s₀.graph.Coherent) {p : Progress} (hs : Later s₀ p.state)
    {t : Turn} {ts : List Turn} (hts : p.pending = t :: ts) (ht : t.node ∈ s₀.graph.members)
    {n : Node} (hn : s₀.graph.node? t.node = some n) (hoff : n.enabled = false) :
    let pulled := (pullInputs (evaluatePulled watch (p.state.graph.members.length + 1) [])
      t.node).run.run p.state
    (pulled.1 = .ok () → PassesOn s₀.graph t ts p (advance watch p)) ∧
      ∀ e, pulled.1 = .error e → BreaksOff s₀.graph t ts e p (advance watch p) := by
  refine ⟨fun hok => ?_, fun e he => (advance_of_starved hs hts (Prod.ext he rfl)).1⟩
  obtain ⟨state, pending, turns, failures⟩ := p
  obtain rfl : pending = t :: ts := hts
  have hpulls := proceeds_pullInputs
    (proceeds_evaluatePulled watch (state.graph.members.length + 1) []) t.node state
  have hturn := run_takeTurn watch t.node state
  rw [pullInputs, run_get_bind] at hpulls hok
  cases hrun : ((dataInputs state.graph t.node).forM
      (pullInput (evaluatePulled watch (state.graph.members.length + 1) []))).run.run state with
  | mk x u =>
    rw [hrun] at hpulls hturn hok
    have hlater : Later s₀ u := hs.trans hpulls
    obtain rfl : x = .ok () := hok
    obtain ⟨s', m, hi, hm, hall⟩ := invoke_of_disabled watch hlater hn hoff
    have hlater' : Later s₀ s' := by
      have h := later_invoke watch t.node u
      rw [hi] at h
      exact hlater.trans h
    have htargets : successors s'.graph t.node = flowTargets s₀.graph t.node := by
      rw [← flowTargets_congr hlater', successors_of_selection (hg.congr hlater'.wiring)
        (hlater'.wiring.members ▸ ht) hm hall]
    simp only [hi] at hturn
    constructor <;>
      simp only [advance, show (takeTurn watch t.node).run state = _ from hturn, htargets]

/-! ### Whole runs -/

/-- How the turns of disabled nodes end in a run of control. If what the turn pulls can be given, it
fails in nothing, and control passes to all members at flow outputs of the node. Otherwise the turn
fails, by a node that was pulled, and schedules nothing. Where nothing that is pulled for the node
can fail, it is always the former. -/
theorem runControl_disabled {o : Options} {s : State} {r : Result} (hg : s.graph.Coherent)
    (hr : (runControl o watch s).result = .ok r) :
    ∀ i < r.steps, ∃ t ts,
      let before := (advance watch)^[i] (firstProgress s)
      let after := (advance watch)^[i + 1] (firstProgress s)
      let pulled := (pullInputs (evaluatePulled watch (before.state.graph.members.length + 1) [])
        t.node).run.run before.state
      before.pending = t :: ts ∧ ∀ n, s.graph.node? t.node = some n → n.enabled = false →
        (pulled.1 = .ok () → PassesOn s.graph t ts before after) ∧
        (∀ e, pulled.1 = .error e → BreaksOff s.graph t ts e before after ∧
          ∃ j, Supplies s.graph j t.node ∧ e.ComesOf s.graph j) ∧
        (Assured s.graph t.node → PassesOn s.graph t ts before after) := by
  intro i hi
  obtain ⟨main, hmain, hflow⟩ := mainNode?_of_controlError? (controlError?_eq_none_of_ok hr)
  have hfirst : Traced watch (firstProgress s) main 0 (firstProgress s) := .first hg hmain hflow
  have hbefore := hfirst.iterate hg fun j hj => halt?_of_lt_steps hr (hj.trans hi)
  obtain ⟨t, ts, hts⟩ := exists_pending_of_halt? (halt?_of_lt_steps hr hi)
  obtain ⟨ns, ht⟩ := hbefore.pending t (hts ▸ List.mem_cons_self)
  refine ⟨t, ts, hts, fun n hn hoff => ?_⟩
  rw [Function.iterate_succ_apply']
  have hlater : Later s ((advance watch)^[i] (firstProgress s)).state :=
    (later_report s _).trans hbefore.later
  obtain ⟨hpasses, hbreaks⟩ :=
    advance_of_disabled hg hlater hts ht.mem_members hn hoff
  refine ⟨hpasses, fun e he => ⟨hbreaks e he, ?_⟩, fun hassured => hpasses ?_⟩
  · have hfails (d : Nat) : Pull.Fails s (fun e => ∃ j, Supplies s.graph j t.node ∧
        e.ComesOf s.graph j) (pullInputs (evaluatePulled watch d []) t.node) := by
      refine fails_pullInputs hg ht.mem_members (proceeds_evaluatePulled watch _ [])
        fun j hj hjp u hu e u' h => ⟨j, ⟨hj, hjp⟩, ?_⟩
      exact fails_evaluatePulled hg watch _ [] (mem_members_of_feeds hg hj) hjp u hu e u' h
    exact hfails _ _ hlater e _ (Prod.ext he rfl)
  · have hpulling := pulling_pullInputs (fun k => (hg.contains_iff k).1) hlater watch t.node
    rw [pullInputs, run_get_bind]
    refine eq_ok_of_pulling hg hpulling hlater (hassured.granted hlater ht.mem_members ?_)
    exact List.forall_mem_nil _

/-! ### A node that is switched off -/

namespace SwitchedOff

/-- Takes control and a number, and passes control on. -/
def middle : Node := Node.ofSpecs "b" [.control "y", .data "v" .int] [.control "x"] (pure ())

/-- Control goes from the first node by way of the second to the third. The second is switched off.
It is fed by a broken node, which may be switched on. -/
def start (on : Bool) : State where
  graph := [Edit.newNode BrokenInput.first, .insertNode 0, .newNode middle, .insertNode 1,
    .newNode BrokenInput.broken, .insertNode 2, .newNode BrokenInput.third, .insertNode 3,
    .connect ⟨0, .output, 0⟩ ⟨1, .input, 0⟩, .connect ⟨1, .output, 0⟩ ⟨3, .input, 0⟩,
    .connect ⟨2, .output, 0⟩ ⟨1, .input, 1⟩, .enableNode 1 false, .enableNode 2 on,
    .setMain (some "a")].foldl Edit.apply (.new {} "g" .controlFlow)

theorem coherent (on : Bool) : (start on).graph.Coherent := by
  have hg : Reachable (start on).graph := (Reachable.new {} "g" .controlFlow).edits
    ⟨Node.fresh_ofSpecs .., List.not_mem_nil,
      Node.fresh_ofSpecs .., (by decide : (1 : Nat) ∉ [0]),
      Node.fresh_ofSpecs .., (by decide : (2 : Nat) ∉ [0, 1]),
      Node.fresh_ofSpecs .., (by decide : (3 : Nat) ∉ [0, 1, 2]),
      by simp [Edit.AllAdmissible, Edit.Admissible]⟩
  exact hg.wired.coherent

def options : Options := { maxSteps := 5 }

/-- What the run tells, and its second turn, before which nothing failed. -/
theorem result (on : Bool) :
    (runControl options (fun _ => 0) (start on)).result.toOption.map
      (fun r => (r.steps, r.failures.map (·.path))) =
        some (if on then (2, [["a", "b", "c"]]) else (3, [])) ∧
    ((advance fun _ => 0)^[1] (firstProgress (start on))).pending = [⟨1, some 0, [0]⟩] ∧
    ((advance fun _ => 0)^[2] (firstProgress (start on))).pending =
      (if on then [] else [⟨3, some 1, [1, 0]⟩]) ∧
    ((start on).graph.node? 1).map (·.enabled) = some false ∧
    flowTargets (start on).graph 1 = [3] := by
  cases on <;> decide +kernel

/-- The broken node feeds the second one, and that is all that is fed. -/
theorem eq_of_supplies {on : Bool} {j k : NodeKey} (h : Supplies (start on).graph j k) :
    j = 2 ∧ k = 1 := by
  have hlinks : (start on).graph.links = [0, 1, 2] := by cases on <;> decide +kernel
  have hends : [0, 1, 2].map (fun w => ((start on).graph.sourceOf? w, (start on).graph.targetOf? w))
      = [(some ⟨0, .output, 0⟩, some ⟨1, .input, 0⟩), (some ⟨1, .output, 0⟩, some ⟨3, .input, 0⟩),
        (some ⟨2, .output, 0⟩, some ⟨1, .input, 1⟩)] := by
    cases on <;> decide +kernel
  have hpulled : [0, 1].map (isPulled (start on).graph) = [false, false] := by
    cases on <;> decide +kernel
  simp only [List.map_cons, List.map_nil, List.cons.injEq, Prod.mk.injEq, and_true] at hends hpulled
  obtain ⟨⟨w, hw, a, t, p, ha, ht, rfl, rfl, -⟩, hj⟩ := h
  rw [hlinks] at hw
  simp only [List.mem_cons, List.not_mem_nil, or_false] at hw
  rcases hw with rfl | rfl | rfl <;> simp_all

/-- Where the broken node is switched off as well nothing can fail. -/
theorem assured : Assured (start false).graph 1 := by
  have hsource {j : NodeKey} (h : TransGen (Supplies (start false).graph) j 1) : j = 2 := by
    obtain ⟨k, hjk, -⟩ := TransGen.head'_iff.1 h
    exact (eq_of_supplies hjk).1
  intro j hj
  obtain rfl := hsource hj
  refine ⟨fun n hn => ?_, fun hcircle => ?_⟩
  · have hoff : ((start false).graph.node? 2).map (·.enabled) = some false := by decide +kernel
    rw [hn] at hoff
    exact Node.reliable_of_disabled (Option.some.inj hoff)
  · obtain ⟨k, -, hk⟩ := TransGen.tail'_iff.1 hcircle
    exact absurd (eq_of_supplies hk).2 (by decide)

end SwitchedOff

/-- With the broken node switched off control gets by the second node to the third. -/
theorem runControl_disabled_switchedOff :
    let watch : Stopwatch := fun _ => 0
    (SwitchedOff.start false).graph.Coherent ∧
      ∃ r t ts n, (runControl SwitchedOff.options watch (SwitchedOff.start false)).result = .ok r ∧
        1 < r.steps ∧
        ((advance watch)^[1] (firstProgress (SwitchedOff.start false))).pending = t :: ts ∧
        (SwitchedOff.start false).graph.node? t.node = some n ∧ n.enabled = false ∧
        Assured (SwitchedOff.start false).graph t.node ∧
        flowTargets (SwitchedOff.start false).graph t.node = [3] ∧
        PassesOn (SwitchedOff.start false).graph t ts
          ((advance watch)^[1] (firstProgress (SwitchedOff.start false)))
          ((advance watch)^[2] (firstProgress (SwitchedOff.start false))) := by
  intro watch
  obtain ⟨hresult, hpending, -, henabled, htargets⟩ := SwitchedOff.result false
  obtain ⟨r, hr, hsteps⟩ := Option.map_eq_some_iff.1 hresult
  replace hr : (runControl SwitchedOff.options watch (SwitchedOff.start false)).result = .ok r :=
    Outcome.result_eq_ok hr
  have hlt : 1 < r.steps := by
    have h := congrArg Prod.fst hsteps
    simp only [Bool.false_eq_true, if_false] at h
    omega
  obtain ⟨n, hn, hoff⟩ := Option.map_eq_some_iff.1 henabled
  obtain ⟨t, ts, hts, hturn⟩ := runControl_disabled (SwitchedOff.coherent false) hr 1 hlt
  obtain ⟨rfl, rfl⟩ := List.cons.inj (hts.symm.trans hpending)
  exact ⟨SwitchedOff.coherent false, r, _, _, n, hr, hlt, hts, hn, hoff, SwitchedOff.assured,
    htargets,
    (hturn n hn hoff).2.2 SwitchedOff.assured⟩

/-- The turn of a disabled node can cut control off. Not every turn of a disabled node fails in
nothing and lets control pass to all members at its flow outputs. -/
theorem not_forall_flowTargets_pending :
    ¬ ∀ (o : Options) (watch : Stopwatch) (s : State) (r : Result),
    s.graph.Coherent → (runControl o watch s).result = .ok r → ∀ i < r.steps, ∀ t ts n,
      ((advance watch)^[i] (firstProgress s)).pending = t :: ts →
      s.graph.node? t.node = some n → n.enabled = false →
        ((advance watch)^[i + 1] (firstProgress s)).failures =
            ((advance watch)^[i] (firstProgress s)).failures ∧
          ∀ k ∈ flowTargets s.graph t.node,
            ∃ u ∈ ((advance watch)^[i + 1] (firstProgress s)).pending,
            u.node = k := by
  intro hall
  obtain ⟨hresult, hpending, hcut, henabled, htargets⟩ := SwitchedOff.result true
  obtain ⟨r, hr, hsteps⟩ := Option.map_eq_some_iff.1 hresult
  have hlt : 1 < r.steps := by
    have h := congrArg Prod.fst hsteps
    simp only [if_true] at h
    omega
  obtain ⟨n, hn, hoff⟩ := Option.map_eq_some_iff.1 henabled
  obtain ⟨-, hpasses⟩ :=
    hall _ _ _ r (SwitchedOff.coherent true) (Outcome.result_eq_ok hr) 1 hlt _ _ n
    hpending hn hoff
  rw [htargets,
    show ((advance fun _ => 0)^[1 + 1] (firstProgress (SwitchedOff.start true))).pending = []
    from hcut] at hpasses
  obtain ⟨u, hu, -⟩ := hpasses 3 List.mem_cons_self
  cases hu

end Run
end Patchbay
