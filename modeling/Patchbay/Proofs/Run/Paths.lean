import Patchbay.Proofs.Run.Branches
import Patchbay.Proofs.Run.Pulled
/-!
# The paths of failures

A failure tells a path of ids, from the main node to the node that failed. Its first part is the way
of control: each of its nodes was passed control by the one before it, in a turn of that one. If the
node that failed was pulled, a second part tells the nodes on whose behalf that was done.

## Main definitions

* `Run.Passes`: control passes from a node to another one.
* `Run.Goes`: control goes along some nodes, by turns of some numbers.
* `Run.Tells`: a failure tells how control and pulling came to it.

## Main statements

* `Run.Traced.advance`: a turn keeps the trails of turns and the paths of failures right.
* `Run.runControl_paths`: the paths of all failures of a run are right.
-/
namespace Patchbay.Run

/-! ### Ways of control -/

/-- Control passes from a node to another one: a wire leads to it from a flow output that the node
exercised in its last step. -/
def Passes (g : Graph) (j k : NodeKey) : Prop :=
  ∃ n i, g.node? j = some n ∧ i ∈ n.exercised ∧
    ∃ w ∈ g.links, ∃ t, g.sourceOf? w = some ⟨j, .output, i⟩ ∧ g.targetOf? w = some t ∧ t.node = k

/-- Control goes on to members through which control passes. -/
theorem of_mem_successors {g : Graph} (hg : g.Coherent) {k j : NodeKey} (hk : k ∈ g.members)
    (h : j ∈ successors g k) :
    Passes g k j ∧ j ∈ g.members ∧ (g.node? j).any (·.hasFlow) = true := by
  obtain ⟨n, hn⟩ := hg.exists_node hk
  rw [successors_of_coherent hg hk hn] at h
  obtain ⟨i, hi, hw⟩ := List.mem_flatMap.1 h
  obtain ⟨w, hw, htarget⟩ := List.mem_filterMap.1 hw
  rw [Graph.wiresFrom_eq, List.mem_filter, decide_eq_true_eq] at hw
  obtain ⟨a, t, ha, ht, hside, -⟩ := ends_of_mem_links hg hw.1
  obtain ⟨c, p, q, -, hjoins⟩ := joined_of_mem_links hg hw.1 hw.2 ht
  have hj : t.node = j := by
    rw [filter_targetNode?_eq hg hw.1, ht] at htarget
    exact Option.some.inj htarget
  refine ⟨⟨n, i, hn, hi, w, hw.1, t, hw.2, ht, hj⟩, hj ▸ hjoins.target_member, ?_⟩
  -- the wire begins at a flow output, so that it ends at a flow input
  have hflow : q.flow = true := by
    obtain ⟨⟨p', i'⟩, hp', rfl⟩ := List.mem_map.1 hi
    obtain ⟨hmem, hflow⟩ := List.mem_filter.1 hp'
    have hpin : g.pin? ⟨k, .output, i'⟩ = some p' := by
      have hget : n.outputs[i']? = some p' := List.mem_zipIdx_iff_getElem?.1 hmem
      simp [Graph.pin?, hn, Node.pin?, Node.pins, hget]
    obtain rfl : p = p' := Option.some.inj (hjoins.source_pin.symm.trans hpin)
    rw [← hjoins.flow_eq]
    exact (Bool.and_eq_true_iff.1 hflow).1
  obtain ⟨m, hm, hq⟩ := Option.bind_eq_some_iff.1 hjoins.target_pin
  have hcount : 0 < m.flowCount .input := by
    rw [Node.flowCount, List.countP_pos_iff]
    exact ⟨q, List.mem_of_getElem? (i := t.index) (hside ▸ hq), hflow⟩
  rw [← hj, hm]
  simp [Node.hasFlow, hcount]

variable {watch : Stopwatch} {p₀ p : Progress} {main : NodeKey}

/-- The next turn, after a number of turns. -/
def turnAt? (watch : Stopwatch) (p₀ : Progress) (i : Nat) : Option Turn :=
  ((advance watch)^[i] p₀).pending.head?

/-- The graph right after the turn of a number. -/
def graphAfter (watch : Stopwatch) (p₀ : Progress) (i : Nat) : Graph :=
  ((advance watch)^[i + 1] p₀).state.graph

/-- Control goes along some nodes. It begins at the main node, and each further node is passed
control by the one before it, in a turn that came of the turns before. The numbers of these turns
are told beside the nodes. -/
inductive Goes (watch : Stopwatch) (p₀ : Progress) (main : NodeKey) :
    List Nat → List NodeKey → Prop where
  | start : Goes watch p₀ main [] [main]
  | pass {ns : List Nat} {ks : List NodeKey} {i : Nat} {t : Turn} {j : NodeKey}
    (h : Goes watch p₀ main ns ks) (ht : turnAt? watch p₀ i = some t)
    (hnode : ks.getLast? = some t.node) (hparent : t.parent = ns.getLast?)
    (hlate : ∀ m ∈ ns, m < i) (hp : Passes (graphAfter watch p₀ i) t.node j) :
    Goes watch p₀ main (ns ++ [i]) (ks ++ [j])

theorem Goes.head? {ns : List Nat} {ks : List NodeKey} (h : Goes watch p₀ main ns ks) :
    ks.head? = some main := by
  induction h with
  | start => rfl
  | pass _ _ hnode _ _ _ ih => rw [List.head?_append, ih]; rfl

/-- What a failure tells: the way of control to the node of a turn, and then the nodes that were
pulled for it, each on behalf of the one before it. Only a node without flow pins is told in the
second part. -/
structure Tells (watch : Stopwatch) (p₀ : Progress) (main : NodeKey) (f : Failure) (ns : List Nat)
    (flow data : List NodeKey) : Prop where
  goes : Goes watch p₀ main ns flow
  upstream : ∀ k ∈ flow.getLast?, Upstream p₀.state.graph (k :: data)
  path : f.path = (flow ++ data).map (nodeId p₀.state.graph)
  last : ∃ k n, (flow ++ data).getLast? = some k ∧ p₀.state.graph.node? k = some n ∧
    n.id = f.nodeId ∧ (data ≠ [] ↔ n.hasFlow = false)

/-- The trail of a turn that is still to be taken is the way of control to it. -/
structure Scheduled (watch : Stopwatch) (p₀ : Progress) (main : NodeKey) (n : Nat) (u : Turn)
    (ns : List Nat) : Prop where
  goes : Goes watch p₀ main ns (u.node :: u.trail).reverse
  parent : u.parent = ns.getLast?
  past : ∀ i ∈ ns, i < n
  /-- After the first turn every turn comes of one that was taken. -/
  led : 0 < n → ∃ i < n, ∃ t, u.parent = some i ∧ turnAt? watch p₀ i = some t ∧
    u.trail = t.node :: t.trail ∧ Passes (graphAfter watch p₀ i) t.node u.node
  mem_members : u.node ∈ p₀.state.graph.members
  flow : (p₀.state.graph.node? u.node).any (·.hasFlow) = true

/-- Control after a number of turns: pending turns and failures tell the ways that led to them. -/
structure Traced (watch : Stopwatch) (p₀ : Progress) (main : NodeKey) (n : Nat) (p : Progress) :
    Prop where
  eq_iterate : p = (advance watch)^[n] p₀
  size : p.turns.size = n
  later : Later p₀.state p.state
  alone : n = 0 → p.pending.tail = []
  pending : ∀ u ∈ p.pending, ∃ ns, Scheduled watch p₀ main n u ns
  failures : ∀ f ∈ p.failures, ∃ ns flow data, Tells watch p₀ main f ns flow data ∧
    ∀ i ∈ ns, i < n

/-- A failure of the node of a turn tells the way of control to that turn. -/
theorem Scheduled.tells {n : Nat} {t : Turn} {ns : List Nat}
    (ht : Scheduled watch p₀ main n t ns) {f : Failure}
    (hnode : f.nodeId = nodeId p₀.state.graph t.node)
    (hpath : f.path = t.path p₀.state.graph) :
    Tells watch p₀ main f ns (t.node :: t.trail).reverse [] := by
  obtain ⟨m, hm, hflow⟩ := (Option.any_eq_true _ _).1 ht.flow
  refine ⟨ht.goes, fun k _ => .singleton k, by rw [List.append_nil]; exact hpath, t.node, m, ?_, hm,
    ?_, by simp [hflow]⟩
  · simp
  · rw [hnode, nodeId, hm]
    rfl

/-- A failed turn tells the way of control to it and what it pulled. -/
theorem tells_failureOf (hg : p₀.state.graph.Coherent) {n : Nat} {t : Turn} {ns : List Nat}
    (ht : Scheduled watch p₀ main n t ns) {s s' : State} {e : TurnFault} (hs : Later p₀.state s)
    (he : (takeTurn watch t.node).run s = (.error e, s')) :
    ∃ data, Tells watch p₀ main (failureOf s'.graph t e) ns (t.node :: t.trail).reverse data := by
  have hs' : Later p₀.state s' := by
    have h := proceeds_takeTurn watch t.node s
    rw [show (takeTurn watch t.node).run.run s = (.error e, s') from he] at h
    exact hs.trans h
  have hids : nodeId s'.graph = nodeId p₀.state.graph := funext fun k => nodeId_congr hs'.wiring k
  have hfault := fails_takeTurn hg watch ht.mem_members s hs e s' he
  cases e with
  | own e => exact ⟨[], ht.tells (congrFun hids _) (by simp [failureOf, Turn.path, hids])⟩
  | cyclic ids => exact ⟨[], ht.tells (congrFun hids _) (by simp [failureOf, Turn.path, hids])⟩
  | pulled above id message =>
    obtain ⟨e', he'⟩ | ⟨j, hj, ds, hds, hchain, hpulled⟩ := hfault
    · cases he'
    obtain ⟨d, hd⟩ : ∃ d, (j :: ds).getLast? = some d := Option.isSome_iff_exists.1 (by simp)
    have hdp := hpulled d hd
    simp only [isPulled, Bool.and_eq_true, Option.any_eq_true] at hdp
    obtain ⟨-, l, hl, hno⟩ := hdp
    refine ⟨j :: ds, ht.goes, fun k hk => ?_, ?_, d, l, ?_, hl, ?_, ?_⟩
    · obtain rfl : t.node = k := by simpa using hk
      exact .cons_cons hj hchain
    · rw [List.map_append, ← hds, ← List.append_assoc]
      simp [failureOf, Turn.path, hids]
    · rw [List.getLast?_append, hd]
      rfl
    · have hid := congrArg List.getLast? hds
      rw [List.getLast?_map, hd, List.getLast?_concat] at hid
      have hid : id = nodeId p₀.state.graph d := Option.some.inj hid
      rw [nodeId, hl] at hid
      exact hid.symm
    · simpa using hno

namespace Traced

/-- A turn keeps the trails of turns and the paths of failures right. -/
theorem advance (hg : p₀.state.graph.Coherent) {n : Nat} (h : Traced watch p₀ main n p) {t : Turn}
    {ts : List Turn} (hts : p.pending = t :: ts) :
    Traced watch p₀ main (n + 1) (advance watch p) := by
  obtain ⟨ns, ht⟩ := h.pending t (by simp [hts])
  have hrest {u : Turn} (hu : u ∈ ts) : ∃ ns, Scheduled watch p₀ main (n + 1) u ns := by
    obtain ⟨ms, hms⟩ := h.pending u (by simp [hts, hu])
    refine ⟨ms, hms.goes, hms.parent, fun i hi => Nat.lt_succ_of_lt (hms.past i hi), fun _ => ?_,
      hms.mem_members, hms.flow⟩
    have hn : 0 < n := by
      refine Nat.pos_of_ne_zero fun hn => ?_
      have htail := h.alone hn
      rw [hts, List.tail_cons] at htail
      rw [htail] at hu
      cases hu
    obtain ⟨i, hi, hled⟩ := hms.led hn
    exact ⟨i, Nat.lt_succ_of_lt hi, hled⟩
  have hold {f : Failure} (hf : f ∈ p.failures) : ∃ ns flow data,
      Tells watch p₀ main f ns flow data ∧ ∀ i ∈ ns, i < n + 1 := by
    obtain ⟨ms, flow, data, htells, hms⟩ := h.failures f hf
    exact ⟨ms, flow, data, htells, fun i hi => Nat.lt_succ_of_lt (hms i hi)⟩
  have hiterate : Run.advance watch p = (Run.advance watch)^[n + 1] p₀ := by
    rw [Function.iterate_succ_apply', ← h.eq_iterate]
  have hturn : turnAt? watch p₀ n = some t := by
    rw [turnAt?, ← h.eq_iterate, hts]
    rfl
  have hafter : (Run.advance watch p).state.graph = graphAfter watch p₀ n := by
    rw [graphAfter, ← hiterate]
  have hturnLater := (proceeds_takeTurn watch t.node) p.state
  obtain ⟨state, pending, turns, failures⟩ := p
  obtain rfl : pending = t :: ts := hts
  obtain rfl : turns.size = n := h.size
  cases hs : (takeTurn watch t.node).run state with
  | mk r s =>
    rw [show (takeTurn watch t.node).run.run state = (r, s) from hs] at hturnLater
    have hlater : Later p₀.state s := h.later.trans hturnLater
    cases r with
    | error e =>
      obtain ⟨data, htells⟩ := tells_failureOf hg ht h.later hs
      simp only [Run.advance, hs] at hiterate ⊢
      refine ⟨hiterate, by simp, hlater.trans (later_report s _),
        fun h => absurd h (Nat.succ_ne_zero _), fun u hu => hrest hu, fun f hf => ?_⟩
      rcases Array.mem_push.1 hf with hf | rfl
      · exact hold hf
      · exact ⟨ns, _, data, htells, fun i hi => Nat.lt_succ_of_lt (ht.past i hi)⟩
    | ok _ =>
      simp only [Run.advance, hs] at hiterate hafter ⊢
      refine ⟨hiterate, by simp, hlater, fun h => absurd h (Nat.succ_ne_zero _), fun u hu => ?_,
        fun f hf => hold hf⟩
      rcases List.mem_append.1 hu with hu | hu
      · obtain ⟨k, hk, rfl⟩ := List.mem_map.1 hu
        have hgs := hg.congr hlater.wiring
        obtain ⟨hpasses, hmem, hflow⟩ :=
          of_mem_successors hgs (hlater.wiring.members ▸ ht.mem_members) hk
        rw [hafter] at hpasses
        refine ⟨ns ++ [turns.size], ?_, by simp, fun i hi => ?_, fun _ => ?_, ?_, ?_⟩
        · rw [List.reverse_cons]
          exact .pass ht.goes hturn (by simp) ht.parent ht.past hpasses
        · rcases List.mem_append.1 hi with hi | hi
          · exact Nat.lt_succ_of_lt (ht.past i hi)
          · exact List.mem_singleton.1 hi ▸ Nat.lt_succ_self _
        · exact ⟨turns.size, Nat.lt_succ_self _, t, rfl, hturn, rfl, hpasses⟩
        · exact hlater.wiring.members ▸ hmem
        · rw [← any_hasFlow_congr hlater, hflow]
      · exact hrest hu

theorem advanceAll (hg : p₀.state.graph.Coherent) (o : Options) {n : Nat}
    (h : Traced watch p₀ main n p) (rounds : Nat) :
    ∃ m, Traced watch p₀ main m (advanceAll o watch rounds p) := by
  induction rounds generalizing n p with
  | zero => exact ⟨n, h⟩
  | succ rounds ih =>
    cases hp : halt? o p with
    | some _ => exact ⟨n, by simpa only [Run.advanceAll, hp] using h⟩
    | none =>
      simp only [Run.advanceAll, hp]
      cases hts : p.pending with
      | nil => simp [halt?, hts] at hp
      | cons t ts => exact ih (h.advance hg hts)

end Traced

/-! ### Whole runs -/

/-- Control before its first turn. -/
def firstProgress (s : State) : Progress where
  state := s.report (startReport s.graph)
  pending := s.graph.mainNode?.toList.map fun k => { node := k }

/-- Where control can begin there is a main node, through which control passes. -/
theorem mainNode?_of_controlError? {g : Graph} (h : controlError? g = none) :
    ∃ k, g.mainNode? = some k ∧ (g.node? k).any (·.hasFlow) = true := by
  simp only [controlError?] at h
  split at h
  · cases h
  next hcategory =>
  split at h
  · cases h
  split at h
  · cases h
  next n hn =>
  obtain ⟨k, hk, hnode⟩ := Option.bind_eq_some_iff.1 hn
  refine ⟨k, hk, ?_⟩
  split at h
  · next hcandidate =>
    simp only [Graph.isCandidate, not_ne_iff.1 hcategory, Bool.and_eq_true, decide_eq_true_eq]
      at hcandidate
    simp [hnode, Node.hasFlow, hcandidate.2]
  · cases h

theorem controlError?_eq_none_of_ok {o : Options} {s : State} {r : Result}
    (hr : (runControl o watch s).result = .ok r) : controlError? s.graph = none := by
  cases he : controlError? s.graph with
  | none => rfl
  | some e => simp [runControl, he] at hr

theorem Traced.first {s : State} (hg : s.graph.Coherent) {k : NodeKey}
    (hk : s.graph.mainNode? = some k) (hflow : (s.graph.node? k).any (·.hasFlow) = true) :
    Traced watch (firstProgress s) k 0 (firstProgress s) where
  eq_iterate := rfl
  size := rfl
  later := .refl _
  alone _ := by simp [firstProgress, hk]
  pending u hu := by
    obtain ⟨j, hj, rfl⟩ := List.mem_map.1 hu
    obtain rfl : k = j := Option.some.inj (hk.symm.trans (Option.mem_toList.1 hj))
    obtain ⟨id, -, hfound⟩ := Option.bind_eq_some_iff.1 hk
    exact ⟨[], .start, rfl, nofun, nofun, ((hg.found id k).1 hfound).1, hflow⟩
  failures f hf := by simp [firstProgress] at hf

/-- A limit stops control before a turn, and after at least one. -/
theorem of_limitReport {o : Options} {h : Halt} (hp : halt? o p = some h) {g : Graph}
    (hl : (limitReport o g h).isSome = true) :
    0 < p.turns.size ∧ ∃ u ts, p.pending = u :: ts := by
  cases hts : p.pending with
  | nil =>
    obtain rfl : Halt.finished = h := Option.some.inj ((halt?_of_pending_nil o hts).symm.trans hp)
    cases hl
  | cons u ts =>
    refine ⟨?_, u, ts, rfl⟩
    simp only [halt?, hts] at hp
    split at hp
    · obtain rfl := Option.some.inj hp
      cases hl
    split at hp
    · next hsteps => exact hsteps.1.trans_le hsteps.2
    split at hp
    · next hvisits =>
      exact (hvisits.1.trans_le hvisits.2).trans_le Array.countP_le_size
    · cases hp

namespace Traced

theorem nodeId_eq {n : Nat} (h : Traced watch p₀ main n p) :
    nodeId p.state.graph = nodeId p₀.state.graph :=
  funext fun k => nodeId_congr h.later.wiring k

/-- The failures of a result tell how control and pulling came to them. -/
theorem tells_of_mem_failures {n : Nat} (hp : Traced watch p₀ main n p) {o : Options} {h : Halt}
    {f : Failure} (hf : f ∈ (controlResult o h p).failures) :
    ∃ ns flow data, Tells watch p₀ main f ns flow data ∧ ∀ i ∈ ns, i < n := by
  rcases List.mem_append.1 hf with hf | hf
  · exact hp.failures f (Array.mem_toList_iff.1 hf)
  · split at hf
    · obtain ⟨u, hu, rfl⟩ := Option.map_eq_some_iff.1 (Option.mem_toList.1 hf)
      obtain ⟨ns, hns⟩ := hp.pending u (List.mem_of_mem_head? hu)
      exact ⟨ns, _, _, hns.tells (congrFun hp.nodeId_eq _)
        (by simp [limitFailure, Turn.path, hp.nodeId_eq]), hns.past⟩
    · cases hf

/-- The failure by a limit tells the path of the turn that scheduled the prevented one, and then the
node of that. -/
theorem failure_of_limit {n : Nat} (hp : Traced watch p₀ main n p) {o : Options} {h : Halt}
    (hh : halt? o p = some h) (hfail : o.failOnLimit = true)
    (hlimit : (controlResult o h p).limitReached = true) :
    ∃ i < n, ∃ t u, turnAt? watch p₀ i = some t ∧ turnAt? watch p₀ n = some u ∧
      u.parent = some i ∧ Passes (graphAfter watch p₀ i) t.node u.node ∧
      (controlResult o h p).failures.getLast? = some ⟨nodeId p₀.state.graph u.node,
        t.path p₀.state.graph ++ [nodeId p₀.state.graph u.node], "Step limit reached"⟩ := by
  replace hlimit : (limitReport o p.state.graph h).isSome = true := hlimit
  obtain ⟨hpos, u, ts, hu⟩ := of_limitReport hh hlimit
  obtain ⟨ns, hns⟩ := hp.pending u (by simp [hu])
  obtain ⟨i, hi, t, hparent, ht, htrail, hpasses⟩ := hns.led (hp.size ▸ hpos)
  refine ⟨i, hi, t, u, ht, ?_, hparent, hpasses, ?_⟩
  · rw [turnAt?, ← hp.eq_iterate, hu]
    rfl
  · simp only [controlResult, hlimit, hfail, hu, List.head?_cons, Option.map_some]
    simp [limitFailure, Turn.path, htrail, hp.nodeId_eq]

end Traced

/-- A path begins with the main node and ends with the node that failed. -/
theorem Tells.ends (hg : p₀.state.graph.Coherent) (hmain : p₀.state.graph.mainNode? = some main)
    {f : Failure} {ns : List Nat} {flow data : List NodeKey}
    (h : Tells watch p₀ main f ns flow data) :
    f.path.head? = p₀.state.graph.mainId ∧ f.path.getLast? = some f.nodeId := by
  constructor
  · obtain ⟨id, hid, hfound⟩ := Option.bind_eq_some_iff.1 hmain
    obtain ⟨n, hn, hnid⟩ := Option.map_eq_some_iff.1 ((hg.found id main).1 hfound).2.1
    rw [h.path, List.head?_map, List.head?_append, h.goes.head?, hid, ← hnid]
    simp [nodeId, hn]
  · obtain ⟨j, n, hj, hn, hid, -⟩ := h.last
    rw [h.path, List.getLast?_map, hj, ← hid]
    simp [nodeId, hn]

theorem Outcome.result_eq_ok {o : Outcome} {r : Result} (h : o.result.toOption = some r) :
    o.result = .ok r := by
  cases hres : o.result with
  | error e => simp [hres, Except.toOption] at h
  | ok r' => simpa [hres, Except.toOption] using h

namespace BrokenInput

/-- Passes control on. -/
def first : Node := .ofSpecs "a" [] [.control "x"] (pure ())

/-- Needs a value. -/
def second : Node := .ofSpecs "b" [.control "y", .data "v" .int] [] (pure ())

/-- Fails to give a value. -/
def broken : Node := .ofSpecs "c" [] [.data "w" .int] (throw (.failed "off"))

def third : Node := .ofSpecs "d" [.control "z"] [] (pure ())

/-- Control goes from the first node to the second and to the third, and a value from the broken one
to the second. -/
def start : State where
  graph := [Edit.newNode first, .insertNode 0, .newNode second, .insertNode 1, .newNode broken,
    .insertNode 2, .newNode third, .insertNode 3, .connect ⟨0, .output, 0⟩ ⟨1, .input, 0⟩,
    .connect ⟨2, .output, 0⟩ ⟨1, .input, 1⟩, .connect ⟨0, .output, 0⟩ ⟨3, .input, 0⟩,
    .setMain (some "a")].foldl Edit.apply (.new {} "g" .controlFlow)

/-- A run with no more than two turns, and with a failure if that is not enough. -/
def options : Options := { maxSteps := 2, failOnLimit := true }

theorem reachable : Reachable start.graph :=
  (Reachable.new {} "g" .controlFlow).edits
    ⟨Node.fresh_ofSpecs .., List.not_mem_nil,
      Node.fresh_ofSpecs .., (by decide : (1 : Nat) ∉ [0]),
      Node.fresh_ofSpecs .., (by decide : (2 : Nat) ∉ [0, 1]),
      Node.fresh_ofSpecs .., (by decide : (3 : Nat) ∉ [0, 1, 2]),
      by simp [Edit.AllAdmissible, Edit.Admissible]⟩

/-- What the run tells. -/
theorem result : ((runControl options (fun _ => 0) start).result.toOption.map fun r =>
    (r.failures.map (·.path), r.limitReached)) = some ([["a", "b", "c"], ["a", "d"]], true) := by
  decide +kernel

end BrokenInput

end Patchbay.Run
