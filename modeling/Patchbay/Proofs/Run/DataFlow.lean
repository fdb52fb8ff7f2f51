import Patchbay.Proofs.Grouping.Core
import Patchbay.Proofs.Run.Later
import Patchbay.Proofs.Run.Schedule
import Patchbay.Proofs.Wiring.Coherent
/-!
# The order of a data flow

Data wires make members wait for each other. In a graph with coherent links a data flow takes its
members by the schedule of what feeds what: it completes in the least order that respects the
wires, or it is stuck with the members that wait for a cycle.

## Main definitions

* `Run.Feeds`: a data wire leads from one node to another.
* `Run.State.round`: one round of a data flow.

## Main statements

* `Run.isReady_iff`: a node is ready when no waiting node feeds it.
* `Run.rounds_follow`, `Run.rounds_spec`: the rounds of a data flow follow the schedule.
* `Run.runData_schedule`: what a data flow evaluates, in which order, and when it is refused.
-/
namespace Patchbay.Run

open Relation

/-! ### What feeds what -/

/-- A data wire of the graph leads from one node to another. -/
def Feeds (g : Graph) (j k : NodeKey) : Prop :=
  ∃ w ∈ g.links, ∃ s t p, g.sourceOf? w = some s ∧ g.targetOf? w = some t ∧ s.node = j ∧
    t.node = k ∧ g.pin? t = some p ∧ p.flow = false

theorem Feeds.congr {g h : Graph} (a : Graph.SameWiring g h) {j k : NodeKey}
    (hf : Feeds g j k) : Feeds h j k := by
  obtain ⟨w, hw, s, t, p, hs, ht, hj, hk, hp, hflow⟩ := hf
  obtain ⟨q, hq, hb⟩ := a.symm.pin? hp
  refine ⟨w, a.links ▸ hw, s, t, q, (a.sourceOf? w).trans hs, (a.targetOf? w).trans ht, hj, hk,
    hq, ?_⟩
  rw [(Pin.of_bare_eq hb).2.2.2.1, hflow]

theorem feeds_congr {g h : Graph} (a : Graph.SameWiring g h) : Feeds h = Feeds g := by
  funext j k
  exact propext ⟨.congr a.symm, .congr a⟩

/-- The nodes at the ends of a wire, where links are coherent. -/
theorem ends_of_mem_links {g : Graph} (hg : g.Coherent) {w : WireKey} (hw : w ∈ g.links) :
    ∃ s t, g.sourceOf? w = some s ∧ g.targetOf? w = some t ∧ t.side = .input ∧
      s.node ∈ g.members ∧ g.sourceNode? w = some s.node ∧ (g.wire? w).any (·.resolved) := by
  obtain ⟨c, s, t, p, q, hc, j⟩ := hg.joined w hw
  have hs : g.sourceOf? w = some s := by simp [Graph.sourceOf?, hc, j.source]
  have ht : g.targetOf? w = some t := by simp [Graph.targetOf?, hc, j.target]
  have howner := hg.owner?_of_pin j.source_member j.source_pin
  refine ⟨s, t, hs, ht, j.target_side, j.source_member, ?_, ?_⟩
  · exact Option.bind_eq_some_iff.2 ⟨s, hs, howner⟩
  · simp [hc, Wire.resolved, j.source, j.target]

/-- What a wire of a graph with coherent links joins. -/
theorem joined_of_mem_links {g : Graph} (hg : g.Coherent) {w : WireKey} (hw : w ∈ g.links)
    {s t : PinRef} (hs : g.sourceOf? w = some s) (ht : g.targetOf? w = some t) :
    ∃ c p q, g.wire? w = some c ∧ g.Joins c s t p q := by
  obtain ⟨c, s', t', p, q, hc, j⟩ := hg.joined w hw
  obtain rfl : s' = s := by simpa [Graph.sourceOf?, hc, j.source] using hs
  obtain rfl : t' = t := by simpa [Graph.targetOf?, hc, j.target] using ht
  exact ⟨c, p, q, hc, j⟩

/-- The member at the end of a wire, where links are coherent. -/
theorem filter_targetNode?_eq {g : Graph} (hg : g.Coherent) {w : WireKey} (hw : w ∈ g.links) :
    (g.targetNode? w).filter g.contains = (g.targetOf? w).map (·.node) := by
  obtain ⟨s, t, hs, ht, -⟩ := ends_of_mem_links hg hw
  obtain ⟨c, p, q, -, j⟩ := joined_of_mem_links hg hw hs ht
  have howner : g.targetNode? w = some t.node :=
    Option.bind_eq_some_iff.2 ⟨t, ht, hg.owner?_of_pin j.target_member j.target_pin⟩
  rw [howner, ht, Option.map_some, Option.filter_eq_some_iff]
  exact ⟨rfl, (hg.contains_iff t.node).2 j.target_member⟩

theorem mem_members_of_feeds {g : Graph} (hg : g.Coherent) {j k : NodeKey} (h : Feeds g j k) :
    j ∈ g.members := by
  obtain ⟨w, hw, s, -, -, hs, -, rfl, -⟩ := h
  obtain ⟨s', -, hs', -, -, hmem, -⟩ := ends_of_mem_links hg hw
  obtain rfl : s = s' := Option.some.inj (hs.symm.trans hs')
  exact hmem

/-- An input of a member waits exactly if a waiting node feeds the member. -/
theorem any_pinWaits_iff {g : Graph} (hg : g.Coherent) {k : NodeKey} {n : Node}
    (hk : k ∈ g.members) (hn : g.node? k = some n) {ws : List NodeKey} (hws : ws ⊆ g.members) :
    n.inputs.any (pinWaits g ws) = true ↔ ∃ j ∈ ws, Feeds g j k := by
  have hpin (i : Nat) : g.pin? ⟨k, .input, i⟩ = n.inputs[i]? := by
    simp [Graph.pin?, hn, Node.pin?, Node.pins]
  rw [List.any_eq_true]
  constructor
  · rintro ⟨p, hp, hwaits⟩
    obtain ⟨i, hi⟩ := List.mem_iff_getElem?.1 hp
    have hp : g.pin? ⟨k, .input, i⟩ = some p := (hpin i).trans hi
    simp only [pinWaits, Bool.and_eq_true, Bool.not_eq_true', Option.any_eq_true] at hwaits
    obtain ⟨hflow, w, hw, -, j, hj, hin⟩ := hwaits
    obtain ⟨hlink, ht⟩ := (hg.incoming hk hp w).1 hw
    obtain ⟨s, -, hs, -, -, -, hsource, -⟩ := ends_of_mem_links hg hlink
    obtain rfl : s.node = j := Option.some.inj (hsource.symm.trans hj)
    exact ⟨s.node, of_decide_eq_true hin.2, w, hlink, s, _, p, hs, ht, rfl, rfl, hp, hflow⟩
  · rintro ⟨j, hj, w, hw, s, t, p, hs, ht, rfl, rfl, hp, hflow⟩
    obtain ⟨s', t', hs', ht', hside, -, hsource, hresolved⟩ := ends_of_mem_links hg hw
    obtain rfl : s = s' := Option.some.inj (hs.symm.trans hs')
    obtain rfl : t = t' := Option.some.inj (ht.symm.trans ht')
    have hincoming := (hg.incoming hk hp w).2 ⟨hw, ht⟩
    obtain ⟨k, side, i⟩ := t
    obtain rfl : side = .input := hside
    refine ⟨p, List.mem_of_getElem? ((hpin i).symm.trans hp), ?_⟩
    have hcontains := (hg.contains_iff s.node).2 (hws hj)
    simp [pinWaits, hflow, hincoming, hresolved, hsource, hcontains, hj]

/-- A member is ready exactly if no waiting node feeds it. -/
theorem isReady_iff {g : Graph} (hg : g.Coherent) {k : NodeKey} (hk : k ∈ g.members)
    {ws : List NodeKey} (hws : ws ⊆ g.members) :
    isReady g ws k = true ↔ ∀ j ∈ ws, ¬ Feeds g j k := by
  obtain ⟨n, hn⟩ := hg.exists_node hk
  have hwaits := any_pinWaits_iff hg hk hn hws
  simp only [isReady, hn, Option.any_some, Bool.not_eq_true', ← Bool.not_eq_true, hwaits]
  simp

/-! ### Rounds -/

@[simp] theorem executed_foldl_transfer (ws : List WireKey) (s : State) :
    (ws.foldl State.transfer s).executed = s.executed := by
  induction ws generalizing s with
  | nil => rfl
  | cons w ws ih => exact ih (s.transfer w)

/-- Evaluating a reliable node succeeds and notes its id. -/
theorem invoke_of_reliable (watch : Stopwatch) {s₀ s : State} (hs : Later s₀ s) {k : NodeKey}
    {n : Node} (hn : s₀.graph.node? k = some n) (hr : n.Reliable) :
    ∃ s', invoke watch k s = (.ok (), s') ∧
      s'.executed = s.executed.push (nodeId s₀.graph k) := by
  have hblank := hs.nodes k
  rw [hn, Option.map_some] at hblank
  obtain ⟨n', hn', hlike⟩ := Option.map_eq_some_iff.1 hblank
  have hid : n'.blank.id = n.blank.id := congrArg Node.id hlike
  refine ⟨(invoke watch k s).2, ?_, ?_⟩
  · refine Prod.ext ?_ rfl
    simp only [invoke, hn']
    exact hr n' hlike s.memory
  · rw [executed_invoke watch hn', show n'.id = n.id from hid]
    simp [nodeId, hn]

/-- Rounds that end with the wish to end the run leave that wish behind. -/
theorem requested_of_cancelled {watch : Stopwatch} {n : Nat} {f : Flow}
    (h : (rounds watch n f).1 = .cancelled) :
    (rounds watch n f).2.state.token.requested = true := by
  induction n generalizing f with
  | zero => cases h
  | succ n ih =>
    simp only [rounds] at h ⊢
    split at h
    · cases h
    · next hempty =>
      rw [if_neg hempty]
      split at h
      · next hrequested => rw [if_pos hrequested]; exact hrequested
      · next hrequested =>
        rw [if_neg hrequested]
        split at h
        · cases h
        · split at h
          · cases h
          · exact ih h

/-- The state after a round: the node receives values, is evaluated and sends values on. -/
def State.round (watch : Stopwatch) (s : State) (k : NodeKey) : State :=
  send k (invoke watch k (receive k s)).2

theorem later_round (watch : Stopwatch) (s : State) (k : NodeKey) : Later s (s.round watch k) :=
  ((later_receive k s).trans (later_invoke watch k _)).trans (later_send k _)

/-- Rounds with reliable nodes note the ids of these nodes. -/
theorem executed_foldl_round (watch : Stopwatch) {s₀ : State} {xs : List NodeKey}
    (hr : ∀ k ∈ xs, ∃ n, s₀.graph.node? k = some n ∧ n.Reliable) {s : State} (hs : Later s₀ s) :
    (xs.foldl (State.round watch) s).executed.toList =
      s.executed.toList ++ xs.map (nodeId s₀.graph) := by
  induction xs generalizing s with
  | nil => simp
  | cons k xs ih =>
    obtain ⟨n, hn, hreliable⟩ := hr k List.mem_cons_self
    obtain ⟨s', hinvoke, hexecuted⟩ :=
      invoke_of_reliable watch (hs.trans (later_receive k s)) hn hreliable
    have hround : (s.round watch k).executed = s.executed.push (nodeId s₀.graph k) := by
      simp only [State.round, hinvoke, send, executed_foldl_transfer, hexecuted]
      simp [receive]
    rw [List.foldl_cons, ih (fun j hj => hr j (List.mem_cons_of_mem _ hj))
      (hs.trans (later_round watch s k)), hround]
    simp

/-- The rounds of a data flow whose nodes are reliable are the rounds of the schedule of what
feeds what, one after the other, unless the flow is cancelled. -/
theorem rounds_follow {watch : Stopwatch} {s₀ : State} (hg : s₀.graph.Coherent)
    (hr : ∀ k ∈ s₀.graph.members, ∀ n, s₀.graph.node? k = some n → n.Reliable) {n : Nat}
    {s : State} {ws : List NodeKey} (hs : Later s₀ s) (hn : ws.length ≤ n)
    (hws : ws.Sublist s₀.graph.members) (hc : (rounds watch n ⟨s, ws⟩).1 ≠ .cancelled) :
    ∃ xs left, Schedule (Feeds s₀.graph) ws xs left ∧
      rounds watch n ⟨s, ws⟩ = (if left.isEmpty then .completed else .stuck,
        ⟨xs.foldl (State.round watch) s, left⟩) := by
  induction n generalizing s ws with
  | zero =>
    obtain rfl : ws = [] := List.length_eq_zero_iff.1 (Nat.le_zero.1 hn)
    exact ⟨[], [], .stuck (by simp), rounds_of_waiting_nil watch _ s⟩
  | succ n ih =>
    cases hempty : ws with
    | nil => exact ⟨[], [], .stuck (by simp), rounds_of_waiting_nil watch _ s⟩
    | cons _ _ =>
    rw [← hempty]
    have hne : ws.isEmpty = false := by simp [hempty]
    have hrequested : s.token.requested = false := by
      rw [← Bool.not_eq_true]
      intro h
      simp [rounds, hne, h] at hc
    have hgs : s.graph.Coherent := hg.congr hs.wiring
    have hsub : ws ⊆ s.graph.members := hs.wiring.members ▸ hws.subset
    have hready {k : NodeKey} (hk : k ∈ ws) :
        isReady s.graph ws k = true ↔ ∀ j ∈ ws, ¬ Feeds s₀.graph j k := by
      rw [isReady_iff hgs (hsub hk) hsub, feeds_congr hs.wiring]
    have hfed {k : NodeKey} (hk : k ∈ ws) (h : ¬ isReady s.graph ws k = true) :
        ∃ j ∈ ws, Feeds s₀.graph j k := by
      rw [hready hk] at h
      simpa using h
    cases hfind : ws.find? (isReady s.graph ws) with
    | none =>
      refine ⟨[], ws, .stuck fun k hk => hfed hk (List.find?_eq_none.1 hfind k hk), ?_⟩
      simp [rounds, hne, hrequested, hfind]
    | some k =>
      obtain ⟨hkready, before, after, hsplit, hbefore⟩ := List.find?_eq_some_iff_append.1 hfind
      have hk : k ∈ ws := List.mem_of_find?_eq_some hfind
      obtain ⟨m, hm⟩ := hg.exists_node (hws.subset hk)
      obtain ⟨s', hinvoke, -⟩ := invoke_of_reliable watch (hs.trans (later_receive k s)) hm
        (hr k (hws.subset hk) m hm)
      have hround : rounds watch (n + 1) ⟨s, ws⟩ =
          rounds watch n ⟨s.round watch k, ws.erase k⟩ := by
        have h := rounds_succ_of_ready (n := n) (f := ⟨s, ws⟩) hrequested hfind hinvoke
        rw [h, State.round, hinvoke]
      have herase : ws.erase k = before ++ after := by
        have hkb : k ∉ before := fun hkb => by simpa [hkready] using hbefore k hkb
        rw [hsplit, List.erase_append_right _ hkb, List.erase_cons_head]
      rw [hround, herase] at hc ⊢
      have hlength : (before ++ after).length ≤ n := by
        rw [hsplit] at hn
        simp only [List.length_append, List.length_cons] at hn ⊢
        omega
      have hrest : (before ++ after).Sublist s₀.graph.members := by
        refine .trans ?_ (hsplit ▸ hws)
        exact (List.Sublist.refl _).append (List.sublist_cons_self _ _)
      obtain ⟨xs, left, hschedule, hend⟩ := ih (hs.trans (later_round watch s k)) hlength hrest hc
      refine ⟨k :: xs, left, ?_, by rw [hend, List.foldl_cons]⟩
      rw [hsplit] at hready hfed hkready hbefore ⊢
      refine .take ?_ ?_ hschedule
      · exact (hready (by simp)).1 hkready
      · intro j hj
        exact hfed (List.mem_append_left _ hj) (by simpa using hbefore j hj)

/-- The rounds of a data flow whose nodes are reliable follow the schedule of what feeds what,
unless the flow is cancelled. -/
theorem rounds_spec {watch : Stopwatch} {s₀ : State} (hg : s₀.graph.Coherent)
    (hr : ∀ k ∈ s₀.graph.members, ∀ n, s₀.graph.node? k = some n → n.Reliable) {n : Nat}
    {s : State} {ws : List NodeKey} (hs : Later s₀ s) (hn : ws.length ≤ n)
    (hws : ws.Sublist s₀.graph.members)
    (hc : (rounds watch n ⟨s, ws⟩).2.state.token.requested = false) :
    ∃ xs left, Schedule (Feeds s₀.graph) ws xs left ∧ (rounds watch n ⟨s, ws⟩).2.waiting = left ∧
      (rounds watch n ⟨s, ws⟩).1 = (if left.isEmpty then .completed else .stuck) ∧
      (rounds watch n ⟨s, ws⟩).2.state.executed.toList =
        s.executed.toList ++ xs.map (nodeId s₀.graph) := by
  have hcancelled : (rounds watch n ⟨s, ws⟩).1 ≠ .cancelled := by
    intro h
    rw [requested_of_cancelled h] at hc
    cases hc
  obtain ⟨xs, left, hschedule, hend⟩ := rounds_follow hg hr hs hn hws hcancelled
  refine ⟨xs, left, hschedule, by rw [hend], by rw [hend], ?_⟩
  rw [hend]
  refine executed_foldl_round watch (fun k hk => ?_) hs
  have hmem : k ∈ s₀.graph.members :=
    hws.subset (hschedule.perm.subset (List.mem_append_left _ hk))
  obtain ⟨m, hm⟩ := hg.exists_node hmem
  exact ⟨m, hm, hr k hmem m hm⟩

/-! ### Whole runs -/

theorem dataError?_eq_none_of_ok {watch : Stopwatch} {s : State} {r : Result}
    (hr : (runData watch s).result = .ok r) : dataError? s.graph = none := by
  cases hd : dataError? s.graph with
  | none => rfl
  | some e => simp [runData, hd] at hr

/-- What a data flow comes to is decided by its rounds. -/
theorem runData_of_dataFlow {watch : Stopwatch} {s : State} {d : FlowEnd} {f : Flow}
    (hd : dataError? s.graph = none)
    (hf : dataFlow watch (s.report (flowStartReport s.graph)) = (d, f)) :
    (runData watch s).state.token = f.state.token ∧
      (runData watch s).state.executed = f.state.executed ∧
      (runData watch s).result = if d = .stuck then
        .error (.cyclic (f.waiting.map (nodeId s.graph))) else .ok (dataResult d f) := by
  have htoken := token_foldl_report (flowReport? f d).toList f.state
  have hexecuted := executed_foldl_report (flowReport? f d).toList f.state
  simp only [runData, hd, hf]
  cases d <;> exact ⟨htoken, hexecuted, rfl⟩

/-- Data wires of a graph lead round in a circle. -/
def Cyclic (g : Graph) : Prop := ∃ k, TransGen (Feeds g) k k

/-- A node lies downstream of a circle of data wires, or on it. -/
def Blocked (g : Graph) (k : NodeKey) : Prop :=
  ∃ j, TransGen (Feeds g) j j ∧ ReflTransGen (Feeds g) j k

/-- The elements of a list without repetitions stand in the order of their places. -/
theorem pairwise_idxOf {ks : List NodeKey} (h : ks.Nodup) :
    ks.Pairwise (ks.idxOf · < ks.idxOf ·) := by
  rw [List.pairwise_iff_getElem]
  intro i j hi hj hij
  rwa [h.idxOf_getElem, h.idxOf_getElem]

/-- A data flow with coherent links and reliable nodes that nobody cancels evaluates its members by
the schedule of what feeds what. It completes exactly if no data wires lead round in a circle, with
all members in the least order that respects the wires. Otherwise it is refused, and the members
that it names are those downstream of a circle; the others were evaluated once each. -/
theorem runData_schedule {watch : Stopwatch} {s : State} (hg : s.graph.Coherent)
    (hd : dataError? s.graph = none)
    (hr : ∀ k ∈ s.graph.members, ∀ n, s.graph.node? k = some n → n.Reliable)
    (he : s.executed = #[]) (hc : (runData watch s).state.token.requested = false) :
    ∃ xs left, (xs ++ left).Perm s.graph.members ∧ left.Sublist s.graph.members ∧
      (∀ k ∈ s.graph.members, k ∈ left ↔ Blocked s.graph k) ∧
      (runData watch s).state.executed.toList = xs.map (nodeId s.graph) ∧
      (¬ Cyclic s.graph → left = [] ∧ FeedersFirst (Feeds s.graph) xs ∧
        (∀ ys, ys.Perm s.graph.members → FeedersFirst (Feeds s.graph) ys → ys = xs ∨
          List.Lex (· < ·) (xs.map s.graph.members.idxOf) (ys.map s.graph.members.idxOf)) ∧
        ∃ r, (runData watch s).result = .ok r ∧ r.status = .completed ∧
          r.executed = xs.map (nodeId s.graph)) ∧
      (Cyclic s.graph →
        (runData watch s).result = .error (.cyclic (left.map (nodeId s.graph)))) := by
  have hstart := later_report s (flowStartReport s.graph)
  have hmem {j k : NodeKey} (h : Feeds s.graph j k) : j ∈ s.graph.members :=
    mem_members_of_feeds hg h
  cases hrun : dataFlow watch (s.report (flowStartReport s.graph)) with
  | mk d f =>
    obtain ⟨htoken, hexecuted, hresult⟩ := runData_of_dataFlow hd hrun
    have hstate : (rounds watch s.graph.members.length
        ⟨s.report (flowStartReport s.graph), s.graph.members⟩) = (d, f) := hrun
    obtain ⟨xs, left, hschedule, hwaiting, hend, hrest⟩ := rounds_spec hg hr hstart
      (Nat.le_refl _) (List.Sublist.refl _) (by rw [hstate, ← htoken]; exact hc)
    rw [hstate] at hwaiting hend hrest
    obtain rfl : f.waiting = left := hwaiting
    have htaken : f.state.executed.toList = xs.map (nodeId s.graph) := by
      rw [hrest]
      simp [State.report, he]
    have hleft {k : NodeKey} (hk : k ∈ s.graph.members) :
        k ∈ f.waiting ↔ Blocked s.graph k := hschedule.mem_left_iff hg.distinct hmem hk
    refine ⟨xs, f.waiting, hschedule.perm, hschedule.sublist, fun k hk => hleft hk,
      hexecuted ▸ htaken, fun hacyclic => ?_, fun hcyclic => ?_⟩
    · have hnil : f.waiting = [] := by
        rw [List.eq_nil_iff_forall_not_mem]
        intro k hk
        obtain ⟨j, hj, -⟩ := (hleft (hschedule.sublist.subset hk)).1 hk
        exact hacyclic ⟨j, hj⟩
      obtain rfl : d = .completed := by simpa [hnil] using hend
      refine ⟨hnil, hschedule.feedersFirst hmem, fun ys hp hys => ?_, dataResult .completed f,
        hresult, rfl, htaken⟩
      rw [hnil] at hschedule
      exact hschedule.least (pairwise_idxOf hg.distinct) hp fun b x a hx y _ => hys b x a hx y
    · obtain ⟨k, hk⟩ := hcyclic
      obtain ⟨j, hj, -⟩ := TransGen.head'_iff.1 hk
      have hkl : k ∈ f.waiting := (hleft (hmem hj)).2 ⟨k, hk, .refl⟩
      obtain rfl : d = .stuck := by
        cases hw : f.waiting with
        | nil => simp [hw] at hkl
        | cons => simpa [hw] using hend
      exact hresult

/-! ### Two ways to one node, and a circle -/

namespace CircleBeside

/-- Takes a number and gives one. -/
def passing (id : String) : Node := .ofSpecs id [.data "y" .int] [.data "x" .int] (pure ())

/-- The last node of two ways comes first, and the node from which they part comes after those on
the ways. -/
def nodes : List Edit :=
  [.newNode (.ofSpecs "d" [.data "y" .int, .data "z" .int] [] (pure ())), .insertNode 0,
    .newNode (passing "b"), .insertNode 1, .newNode (passing "c"), .insertNode 2,
    .newNode (.ofSpecs "a" [] [.data "x" .int] (pure ())), .insertNode 3,
    .newNode (passing "e"), .insertNode 4, .newNode (passing "f"), .insertNode 5,
    .newNode (.ofSpecs "g" [.data "y" .int] [] (pure ())), .insertNode 6]

/-- Beside the two ways, two nodes feed each other and one of them feeds one more. -/
def wires : List (PinRef × PinRef) :=
  [(⟨3, .output, 0⟩, ⟨1, .input, 0⟩), (⟨3, .output, 0⟩, ⟨2, .input, 0⟩),
    (⟨1, .output, 0⟩, ⟨0, .input, 0⟩), (⟨2, .output, 0⟩, ⟨0, .input, 1⟩),
    (⟨4, .output, 0⟩, ⟨5, .input, 0⟩), (⟨5, .output, 0⟩, ⟨4, .input, 0⟩),
    (⟨5, .output, 0⟩, ⟨6, .input, 0⟩)]

/-- The nodes before they are wired. -/
def bare : Graph := nodes.foldl Edit.apply (.new {} "g" .dataFlow)

def start : State where
  graph := wires.foldl (fun g e => Edit.apply g (.connect e.1 e.2)) bare

theorem reachable : Reachable start.graph := by
  have hbare : Reachable bare := (Reachable.new {} "g" .dataFlow).edits
    ⟨Node.fresh_ofSpecs .., List.not_mem_nil,
      Node.fresh_ofSpecs .., (by decide : (1 : Nat) ∉ [0]),
      Node.fresh_ofSpecs .., (by decide : (2 : Nat) ∉ [0, 1]),
      Node.fresh_ofSpecs .., (by decide : (3 : Nat) ∉ [0, 1, 2]),
      Node.fresh_ofSpecs .., (by decide : (4 : Nat) ∉ [0, 1, 2, 3]),
      Node.fresh_ofSpecs .., (by decide : (5 : Nat) ∉ [0, 1, 2, 3, 4]),
      Node.fresh_ofSpecs .., (by decide : (6 : Nat) ∉ [0, 1, 2, 3, 4, 5]), trivial⟩
  have hwires : Edit.AllAdmissible bare (wires.map fun e => .connect e.1 e.2) := by
    simp [wires, Edit.AllAdmissible, Edit.Admissible]
  simpa only [start, List.foldl_map] using hbare.edits hwires

theorem reliable (k : NodeKey) (hk : k ∈ start.graph.members) (n : Node)
    (hn : start.graph.node? k = some n) : n.Reliable := by
  have hconnect (g : Graph) (e : PinRef × PinRef) :
      Graph.SameCore g (Edit.apply g (.connect e.1 e.2)) := Graph.sameCore_connect g e.1 e.2
  have hcore : Graph.SameCore bare start.graph := by
    simp only [start]
    exact Graph.SameCore.foldl hconnect wires bare
  obtain ⟨n₀, hn₀, hsame⟩ := hcore.node? hn
  have hbehaviour : n₀.core.behaviour = n.core.behaviour := congrArg Node.behaviour hsame
  refine Node.reliable_of_idle (hbehaviour.symm.trans ?_)
  rw [hcore.members, show bare.members = List.range 7 by decide +kernel, List.mem_range] at hk
  have hidle : ∀ j < 7, (bare.node? j).map (·.behaviour) = some (pure ()) := by
    intro j hj
    match j, hj with
    | 0, _ | 1, _ | 2, _ | 3, _ | 4, _ | 5, _ | 6, _ => rfl
  have hk := hidle k hk
  rw [hn₀] at hk
  exact Option.some.inj hk

theorem executed : start.executed = #[] := by rw [start]

theorem cyclic : Cyclic start.graph := by
  have hfeeds {w : WireKey} {s t : PinRef} (hw : w ∈ start.graph.links)
      (hends : (start.graph.sourceOf? w, start.graph.targetOf? w) = (some s, some t))
      (hflow : (start.graph.pin? t).any (!·.flow) = true) : Feeds start.graph s.node t.node := by
    obtain ⟨p, hp, hflow⟩ := (Option.any_eq_true _ _).1 hflow
    obtain ⟨hs, ht⟩ := Prod.mk.inj hends
    exact ⟨w, hw, s, t, p, hs, ht, rfl, rfl, hp, by simpa using hflow⟩
  have hforth : Feeds start.graph 4 5 :=
    hfeeds (w := (4 : Nat)) (s := ⟨4, .output, 0⟩) (t := ⟨5, .input, 0⟩) (by decide +kernel)
      (by decide +kernel) (by decide +kernel)
  have hback : Feeds start.graph 5 4 :=
    hfeeds (w := (5 : Nat)) (s := ⟨5, .output, 0⟩) (t := ⟨4, .input, 0⟩) (by decide +kernel)
      (by decide +kernel) (by decide +kernel)
  exact ⟨4, .tail (.single hforth) hback⟩

end CircleBeside

/-- The nodes on the two ways are evaluated in the order of their places, and the run is refused
with those on the circle and behind it. -/
theorem runData_schedule_circleBeside :
    let s := CircleBeside.start
    let watch : Stopwatch := fun _ => 0
    s.graph.Coherent ∧ dataError? s.graph = none ∧
      (∀ k ∈ s.graph.members, ∀ n, s.graph.node? k = some n → n.Reliable) ∧
      (runData watch s).state.token.requested = false ∧ Cyclic s.graph ∧
      ∃ xs left : List NodeKey, (xs ++ left).Perm s.graph.members ∧
        (∀ k ∈ s.graph.members, k ∈ left ↔ Blocked s.graph k) ∧
        xs.map (nodeId s.graph) = ["a", "b", "c", "d"] ∧
        left.map (nodeId s.graph) = ["e", "f", "g"] ∧
        (runData watch s).result = .error (.cyclic (left.map (nodeId s.graph))) := by
  have hg := CircleBeside.reachable.wired.coherent
  have hd : dataError? CircleBeside.start.graph = none := by decide +kernel
  have hc : (runData (fun _ => 0) CircleBeside.start).state.token.requested = false := by
    decide +kernel
  have hexecuted : (runData (fun _ => 0) CircleBeside.start).state.executed.toList =
      ["a", "b", "c", "d"] := by decide +kernel
  have hnamed : (match (runData (fun _ => 0) CircleBeside.start).result with
      | .error (.cyclic ids) => ids
      | _ => []) = ["e", "f", "g"] := by decide +kernel
  obtain ⟨xs, left, hperm, -, hblocked, htaken, -, hrefused⟩ :=
    runData_schedule hg hd CircleBeside.reliable CircleBeside.executed hc
  have hresult := hrefused CircleBeside.cyclic
  rw [hresult] at hnamed
  exact ⟨hg, hd, CircleBeside.reliable, hc, CircleBeside.cyclic, xs, left, hperm, hblocked,
    htaken.symm.trans hexecuted, hnamed, hresult⟩

end Patchbay.Run
