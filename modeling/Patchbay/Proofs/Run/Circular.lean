import Patchbay.Proofs.Run.Passing
import Patchbay.Proofs.Run.Recorded
/-!
# Nodes that wait for each other's values

Pulling remembers only the nodes that wait at the moment, and a node that has been evaluated is
evaluated again when another one needs its values. So several ways to one node are not taken for a
circle, and a circle is found behind whichever input it lies: as long as nothing else fails, values
can be pulled for a node exactly if no node that supplies it, at first hand or at second, supplies
itself.

## Main definitions

* `Run.supplier?`: the node that is evaluated for the value of an input.
* `Run.Evaluates`: nodes are evaluated one after the other.
* `Run.Demand.Wants`: a node is needed for what there is to do.
* `Run.CircularSupply`: a node is supplied by nodes that wait for each other.
* `Run.Loop`: the nodes that wait as one of them is needed once more.
* `Run.Caught`, `Run.Supplied`: the two ways in which a turn goes on after nothing else has failed.

## Main statements

* `Run.serves_of_pulling`: what is evaluated while values are pulled.
* `Run.loop_of_pulling`: the nodes that are told to wait for each other do so.
* `Run.runControl_circularSupply`: which turns end for nodes that wait for each other, and how.
-/
namespace Patchbay.Run

open Relation Patchbay.Graph

variable {watch : Stopwatch} {s₀ s s' u : State} {g : Graph} {j k n : NodeKey} {r : PinRef}

/-! ### Who is needed for an input -/

/-- The node that is evaluated for the value of an input, if there is one. -/
def supplier? (g : Graph) (r : PinRef) : Option NodeKey := (feeder? g r).bind (pulledSource? g)

theorem supplier?_eq_some_iff (hg : g.Coherent) (hr : r.node ∈ g.members) :
    supplier? g r = some j ↔ (∃ a, g.Linked a r ∧ a.node = j) ∧ isPulled g j = true := by
  rw [supplier?, Option.bind_eq_some_iff]
  constructor
  · rintro ⟨w, hw, hj⟩
    obtain ⟨hlink, ht⟩ := (feeder?_eq_some_iff hg hr).1 hw
    obtain ⟨a, -, ha, -, -, -, hsource, -⟩ := ends_of_mem_links hg hlink
    obtain ⟨hnode, hpulled⟩ := Option.filter_eq_some_iff.1 hj
    exact ⟨⟨a, ⟨w, hlink, ha, ht⟩, Option.some.inj (hsource.symm.trans hnode)⟩, hpulled⟩
  · rintro ⟨⟨a, ⟨w, hlink, ha, ht⟩, rfl⟩, hpulled⟩
    obtain ⟨a', -, ha', -, -, -, hsource, -⟩ := ends_of_mem_links hg hlink
    obtain rfl : a = a' := Option.some.inj (ha.symm.trans ha')
    exact ⟨w, (feeder?_eq_some_iff hg hr).2 ⟨hlink, ht⟩,
      Option.filter_eq_some_iff.2 ⟨hsource, hpulled⟩⟩

/-- Who is needed for an input does not change in a run. -/
theorem supplier?_congr (hg : s₀.graph.Coherent) (hs : Later s₀ s)
    (hr : r.node ∈ s₀.graph.members) : supplier? s.graph r = supplier? s₀.graph r := by
  have hr' : r.node ∈ s.graph.members := hs.wiring.members ▸ hr
  refine Option.ext fun j => ?_
  simp only [supplier?_eq_some_iff hg hr, supplier?_eq_some_iff (hg.congr hs.wiring) hr', Linked,
    hs.wiring.links, hs.wiring.sourceOf?, hs.wiring.targetOf?, isPulled_congr hs]

/-- The node that is evaluated for an input, as it is found in the middle of a run. -/
theorem supplier?_of_feeder? (hg : s₀.graph.Coherent) (hs : Later s₀ s)
    (hr : r.node ∈ s₀.graph.members) {w : WireKey} (hw : feeder? s.graph r = some w) :
    supplier? s₀.graph r = pulledSource? s.graph w := by
  rw [← supplier?_congr hg hs hr, supplier?, hw, Option.bind_some]

/-- A node supplies a member if it is needed for one of its data inputs. -/
theorem supplies_iff (hg : s₀.graph.Coherent) (hs : Later s₀ s) (hk : k ∈ s₀.graph.members) :
    Supplies s₀.graph j k ↔ ∃ r ∈ dataInputs s.graph k, supplier? s₀.graph r = some j := by
  simp only [Supplies, feeds_iff_linked, mem_dataInputs_congr hs.wiring]
  constructor
  · rintro ⟨⟨a, r, hlinked, hj, rfl, hdata⟩, hpulled⟩
    obtain ⟨c, p, q, hjoins⟩ := linked_ends hg hlinked
    exact ⟨r, mem_dataInputs_iff.2 ⟨rfl, hjoins.target_side, hdata⟩,
      (supplier?_eq_some_iff hg hk).2 ⟨⟨a, hlinked, hj⟩, hpulled⟩⟩
  · rintro ⟨r, hr, hj⟩
    obtain ⟨rfl, -, hdata⟩ := mem_dataInputs_iff.1 hr
    obtain ⟨⟨a, hlinked, ha⟩, hpulled⟩ := (supplier?_eq_some_iff hg hk).1 hj
    exact ⟨⟨a, r, hlinked, ha, rfl, hdata⟩, hpulled⟩

/-- What supplies a node at second hand supplies another one at first hand. -/
theorem exists_supplies_of_transGen (h : TransGen (Supplies g) j k) : ∃ i, Supplies g j i := by
  obtain ⟨i, hji, -⟩ := TransGen.head'_iff.1 h
  exact ⟨i, hji⟩

/-- A node through which control passes supplies no other one. -/
theorem not_supplies_of_hasFlow (h : (g.node? j).any (·.hasFlow) = true) : ¬ Supplies g j k := by
  rintro ⟨-, hpulled⟩
  obtain ⟨n, hn, hdata⟩ := (Option.any_eq_true _ _).1 (Bool.and_eq_true_iff.1 hpulled).2
  rw [hn, Option.any_some] at h
  exact absurd h (by simpa using hdata)

namespace Demand

/-- The node is needed for what there is to do. -/
def Wants (g : Graph) : Demand → NodeKey → Prop
  | .inputs rs, i => ∃ r ∈ rs, ∃ j, supplier? g r = some j ∧ ReflTransGen (Supplies g) i j
  | .node k, i => ReflTransGen (Supplies g) i k

/-- For the inputs of a node everything is needed that supplies it at first hand or at second. -/
theorem wants_dataInputs (hg : s₀.graph.Coherent) (hs : Later s₀ s) (hk : k ∈ s₀.graph.members) :
    (inputs (dataInputs s.graph k)).Wants s₀.graph j ↔ TransGen (Supplies s₀.graph) j k := by
  rw [TransGen.tail'_iff]
  simp only [Wants, supplies_iff hg hs hk]
  constructor
  · rintro ⟨r, hr, i, hi, hji⟩
    exact ⟨i, hji, r, hr, hi⟩
  · rintro ⟨i, hji, r, hr, hi⟩
    exact ⟨r, hr, i, hi, hji⟩

/-- What there is to do concerns inputs of members, or a member. -/
def Inside (g : Graph) (task : Demand) : Prop := task.Within (·.node ∈ g.members) (· ∈ g.members)

theorem inside_dataInputs (hk : k ∈ s₀.graph.members) (s : State) :
    (inputs (dataInputs s.graph k)).Inside s₀.graph := by
  intro r hr
  obtain ⟨rfl, -⟩ := mem_dataInputs_iff.1 hr
  exact hk

end Demand

/-- A node is supplied, at first hand or at second, by a node that supplies itself. -/
def CircularSupply (g : Graph) (n : NodeKey) : Prop :=
  ∃ k, TransGen (Supplies g) k n ∧ TransGen (Supplies g) k k

/-- Ids tell, in their order, of the nodes that wait in a turn of `n`. Each of these supplies the
next one, and the last one supplies `n`. The first one is supplied by one of them as well, and the
nodes up to that one are the loop. -/
structure Loop (g : Graph) (n : NodeKey) (ids : List String) (loop lead : List NodeKey) :
    Prop where
  sorted : ids.Pairwise (· ≤ ·)
  perm : ids.Perm ((loop ++ lead).map (nodeId g))
  nodup : (loop ++ lead).Nodup
  way : (loop ++ lead ++ [n]).IsChain (Supplies g)
  closed : ∃ j ∈ loop.getLast?, ∃ k ∈ loop.head?, Supplies g j k

/-! ### What is evaluated while values are pulled -/

/-- Values are copied along wires and nodes are evaluated, these one after the other. -/
inductive Evaluates (watch : Stopwatch) (s : State) : List NodeKey → State → Prop where
  | start : Evaluates watch s [] s
  | copy {ks : List NodeKey} {u : State} (h : Evaluates watch s ks u) (w : WireKey) :
    Evaluates watch s ks (u.transfer w)
  | evaluate {ks : List NodeKey} {u : State} (h : Evaluates watch s ks u) (k : NodeKey) :
    Evaluates watch s (ks ++ [k]) (invoke watch k u).2

namespace Evaluates
variable {ks js : List NodeKey}

theorem later (h : Evaluates watch s ks s') : Later s s' := by
  induction h with
  | start => exact .refl s
  | copy _ w ih => exact ih.trans (later_transfer _ w)
  | evaluate _ k ih => exact ih.trans (later_invoke watch k _)

theorem evaluate_eq {x : Except Fault Unit} (h : Evaluates watch s ks s')
    (hi : invoke watch k s' = (x, u)) : Evaluates watch s (ks ++ [k]) u := by
  have h' := h.evaluate k
  rwa [hi] at h'

theorem trans (h : Evaluates watch s ks s') (h' : Evaluates watch s' js u) :
    Evaluates watch s (ks ++ js) u := by
  induction h' with
  | start => exact (List.append_nil ks).symm ▸ h
  | copy _ w ih => exact ih.copy w
  | evaluate _ k ih => exact List.append_assoc ks _ _ ▸ ih.evaluate k

/-- The nodes are those that a run tells as evaluated. -/
theorem executed (h : Evaluates watch s ks s') (hks : ∀ k ∈ ks, ∃ n, s.graph.node? k = some n) :
    s'.executed.toList = s.executed.toList ++ ks.map (nodeId s.graph) := by
  induction h with
  | start => simp
  | copy _ w ih => exact ih hks
  | @evaluate ks u h k ih =>
    have hids : (u.graph.node? k).map (·.id) = (s.graph.node? k).map (·.id) := h.later.wiring.ids k
    obtain ⟨n, hn⟩ := hks k (List.mem_append_right _ List.mem_cons_self)
    rw [hn] at hids
    obtain ⟨m, hm, hid⟩ := Option.map_eq_some_iff.1 hids
    have hbefore := ih fun j hj => hks j (List.mem_append_left _ hj)
    rw [executed_invoke watch hm, Array.toList_push, hbefore, hid]
    simp [nodeId, hn]

end Evaluates

/-- While values are pulled only nodes are evaluated that are needed for it, each after the nodes
that supply it, and all of them, unless pulling fails. -/
structure Serves (g : Graph) (task : Demand) (x : Except TurnFault Unit) (ks : List NodeKey) :
    Prop where
  ordered : FeedersFirst (Supplies g) ks
  wanted : ∀ k ∈ ks, task.Wants g k
  complete : x = .ok () → ∀ k, task.Wants g k → k ∈ ks

namespace Serves
variable {ks js : List NodeKey} {rs : List PinRef} {x : Except TurnFault Unit} {e : TurnFault}

/-- Nothing is needed for an input without a supplier. -/
theorem unsupplied (h : Serves g (.inputs rs) x ks) (hr : supplier? g r = none) :
    Serves g (.inputs (r :: rs)) x ks where
  ordered := h.ordered
  wanted k hk := by
    obtain ⟨r', hr', hwants⟩ := h.wanted k hk
    exact ⟨r', List.mem_cons_of_mem _ hr', hwants⟩
  complete hx k := by
    rintro ⟨r', hr', j, hj, hkj⟩
    rcases List.mem_cons.1 hr' with rfl | hr'
    · cases hr.symm.trans hj
    · exact h.complete hx k ⟨r', hr', j, hj, hkj⟩

/-- What is needed for one input after the other is needed for both. -/
theorem supplied (hk : Serves g (.node k) (.ok ()) ks) (h : Serves g (.inputs rs) x js)
    (hr : supplier? g r = some k) : Serves g (.inputs (r :: rs)) x (ks ++ js) where
  ordered := hk.ordered.append h.ordered
  wanted i hi := by
    rcases List.mem_append.1 hi with hi | hi
    · exact ⟨r, List.mem_cons_self, k, hr, hk.wanted i hi⟩
    · obtain ⟨r', hr', hwants⟩ := h.wanted i hi
      exact ⟨r', List.mem_cons_of_mem _ hr', hwants⟩
  complete hx i := by
    rintro ⟨r', hr', j, hj, hij⟩
    rcases List.mem_cons.1 hr' with rfl | hr'
    · obtain rfl := Option.some.inj (hr.symm.trans hj)
      exact List.mem_append_left _ (hk.complete rfl i hij)
    · exact List.mem_append_right _ (h.complete hx i ⟨r', hr', j, hj, hij⟩)

theorem missed (hk : Serves g (.node k) (.error e) ks) (hr : supplier? g r = some k) :
    Serves g (.inputs (r :: rs)) (.error e) ks :=
  ⟨hk.ordered, fun i hi => ⟨r, List.mem_cons_self, k, hr, hk.wanted i hi⟩, nofun⟩

/-- A node is evaluated after everything that is needed for its inputs. -/
theorem evaluated (hg : s₀.graph.Coherent) (hs : Later s₀ s) (hk : k ∈ s₀.graph.members)
    (h : Serves s₀.graph (.inputs (dataInputs s.graph k)) (.ok ()) ks) :
    Serves s₀.graph (.node k) x (ks ++ [k]) := by
  have hwants {i : NodeKey} := Demand.wants_dataInputs (j := i) hg hs hk
  refine ⟨h.ordered.concat fun i hi => h.complete rfl i (hwants.2 (.single hi)), ?_, ?_⟩
  · intro i hi
    rcases List.mem_append.1 hi with hi | hi
    · exact (hwants.1 (h.wanted i hi)).to_reflTransGen
    · exact List.mem_singleton.1 hi ▸ .refl
  · rintro - i hi
    rcases reflTransGen_iff_eq_or_transGen.1 hi with rfl | hi
    · exact List.mem_append_right _ List.mem_cons_self
    · exact List.mem_append_left _ (h.complete rfl i (hwants.2 hi))

end Serves

/-- What is evaluated while values are pulled for members. -/
theorem serves_of_pulling (hg : s₀.graph.Coherent) {d : Nat} {path : List NodeKey} {task : Demand}
    {x : Except TurnFault Unit} (hp : Pulling watch d path task s x s') (hs : Later s₀ s)
    (htask : task.Inside s₀.graph) :
    ∃ ks, Evaluates watch s ks s' ∧ Serves s₀.graph task x ks := by
  induction hp with
  | done => exact ⟨[], .start, .nil, nofun, fun _ k ⟨r, hr, _⟩ => absurd hr List.not_mem_nil⟩
  | @unfed path r rs s s' x hr _ ih =>
    obtain ⟨ks, hks, h⟩ := ih hs fun r hr => htask r (List.mem_cons_of_mem _ hr)
    have hnone : supplier? s₀.graph r = none := by
      rw [← supplier?_congr hg hs (htask r List.mem_cons_self), supplier?, hr, Option.bind_none]
    exact ⟨ks, hks, h.unsupplied hnone⟩
  | @copy path r rs w s s' x hr hw _ ih =>
    obtain ⟨ks, hks, h⟩ :=
      ih (hs.trans (later_transfer s w)) fun r hr => htask r (List.mem_cons_of_mem _ hr)
    have hnone := (supplier?_of_feeder? hg hs (htask r List.mem_cons_self) hr).trans hw
    exact ⟨ks, (Evaluates.start.copy w).trans hks, h.unsupplied hnone⟩
  | @fetch path r rs w k s s₁ s' x hr hw hk _ ihk ih =>
    obtain ⟨ks, hks, hserves⟩ := ihk hs (mem_members_of_pulledSource? hg hs hw)
    obtain ⟨js, hjs, h⟩ := ih ((hs.trans hk.later).trans (later_transfer s₁ w))
      fun r hr => htask r (List.mem_cons_of_mem _ hr)
    have hsome := (supplier?_of_feeder? hg hs (htask r List.mem_cons_self) hr).trans hw
    exact ⟨ks ++ js, (hks.copy w).trans hjs, hserves.supplied h hsome⟩
  | @miss path r rs w k s s' e hr hw _ ih =>
    obtain ⟨ks, hks, h⟩ := ih hs (mem_members_of_pulledSource? hg hs hw)
    have hsome := (supplier?_of_feeder? hg hs (htask r List.mem_cons_self) hr).trans hw
    exact ⟨ks, hks, h.missed hsome⟩
  | cyclic => exact ⟨[], .start, .nil, nofun, nofun⟩
  | @starve path k s s' e _ _ _ ih =>
    obtain ⟨ks, hks, h⟩ := ih hs (Demand.inside_dataInputs htask s)
    refine ⟨ks, hks, h.ordered, fun i hi => ?_, nofun⟩
    exact ((Demand.wants_dataInputs hg hs htask).1 (h.wanted i hi)).to_reflTransGen
  | @evaluate path k s s₁ s' _ _ _ hi ih =>
    obtain ⟨ks, hks, h⟩ := ih hs (Demand.inside_dataInputs htask s)
    exact ⟨ks ++ [k], hks.evaluate_eq hi, h.evaluated hg hs htask⟩
  | @fail path k s s₁ s' e _ _ _ hi ih =>
    obtain ⟨ks, hks, h⟩ := ih hs (Demand.inside_dataInputs htask s)
    exact ⟨ks ++ [k], hks.evaluate_eq hi, h.evaluated hg hs htask⟩

/-- Where values could be pulled for a node, nothing that supplies it supplies itself. -/
theorem Serves.not_circularSupply (hg : s₀.graph.Coherent) (hs : Later s₀ s)
    (hk : k ∈ s₀.graph.members) {ks : List NodeKey}
    (h : Serves s₀.graph (.inputs (dataInputs s.graph k)) (.ok ()) ks) :
    ¬ CircularSupply s₀.graph k := by
  rintro ⟨j, hjk, hj⟩
  have hmem : j ∈ ks := h.complete rfl j ((Demand.wants_dataInputs hg hs hk).2 hjk)
  exact h.ordered.not_transGen j hmem hj

/-! ### Nodes that are told to wait for each other -/

namespace Loop
variable {ids : List String} {loop lead : List NodeKey}

/-- Nodes that are told to wait for each other do so. -/
theorem circularSupply (h : Loop g n ids loop lead) : CircularSupply g n := by
  obtain ⟨j, hj, k, hk, hjk⟩ := h.closed
  have hway : (loop ++ lead ++ [n]).Pairwise (TransGen (Supplies g)) :=
    (h.way.imp fun _ _ => .single).pairwise
  obtain ⟨hnodes, -, hend⟩ := List.pairwise_append.1 hway
  have hkn : TransGen (Supplies g) k n :=
    hend k (List.mem_append_left _ (List.mem_of_mem_head? hk)) n List.mem_cons_self
  refine ⟨k, hkn, ?_⟩
  -- the first node of the loop supplies its last one, unless it is that
  obtain ⟨rest, rfl⟩ : ∃ rest, loop = k :: rest := List.head?_eq_some_iff.1 hk
  obtain ⟨hfirst, -⟩ := List.pairwise_cons.1 (List.pairwise_append.1 hnodes).1
  rcases List.mem_cons.1 (List.mem_of_mem_getLast? hj) with rfl | hrest
  · exact .single hjk
  · exact (hfirst j hrest).tail hjk

end Loop

/-- What there is to do is done for the first of some nodes. -/
def Demand.Next (g : Graph) (way : List NodeKey) : Demand → Prop
  | .inputs rs => ∀ r ∈ rs, r.node ∈ g.members ∧ r ∈ dataInputs g r.node ∧ r.node ∈ way.head?
  | .node k => ∃ j ∈ way.head?, Supplies g k j

/-- As pulling ends for nodes that wait for each other, these are on the path. -/
theorem loop_of_pulling (hg : s₀.graph.Coherent) {d : Nat} {path : List NodeKey} {task : Demand}
    {x : Except TurnFault Unit} {ids : List String} (hp : Pulling watch d path task s x s')
    (hs : Later s₀ s) (hpath : path.Nodup) (hway : (path ++ [n]).IsChain (Supplies s₀.graph))
    (htask : task.Next s₀.graph (path ++ [n])) (hx : x = .error (.cyclic ids)) :
    ∃ loop lead, Loop s₀.graph n ids loop lead := by
  induction hp with
  | done | evaluate | fail => cases hx
  | unfed _ _ ih => exact ih hs hpath hway (fun r hr => htask r (List.mem_cons_of_mem _ hr)) hx
  | copy _ _ _ ih =>
    exact ih (hs.trans (later_transfer _ _)) hpath hway
      (fun r hr => htask r (List.mem_cons_of_mem _ hr)) hx
  | fetch _ _ hk _ _ ih =>
    exact ih ((hs.trans hk.later).trans (later_transfer _ _)) hpath hway
      (fun r hr => htask r (List.mem_cons_of_mem _ hr)) hx
  | @miss path r rs w k s s' e hr hw _ ih =>
    obtain ⟨hmem, hin, hfirst⟩ := htask r List.mem_cons_self
    have hsome := (supplier?_of_feeder? hg hs hmem hr).trans hw
    exact ih hs hpath hway
      ⟨r.node, hfirst, (supplies_iff hg (.refl s₀) hmem).2 ⟨r, hin, hsome⟩⟩ hx
  | @cyclic path k s hk =>
    obtain ⟨j, hj, hkj⟩ := htask
    have hids : nodeId s.graph = nodeId s₀.graph := funext (nodeId_congr hs.wiring)
    obtain ⟨before, lead, rfl⟩ := List.append_of_mem hk
    have hsplit : before ++ k :: lead = before ++ [k] ++ lead := by simp
    rw [hids, hsplit] at hx
    rw [hsplit] at hpath hway hj
    injection hx with hx
    injection hx with hx
    subst hx
    refine ⟨before ++ [k], lead, List.pairwise_mergeSort' (· ≤ ·) _, List.mergeSort_perm _ _, hpath,
      hway, k, by simp, j, ?_, hkj⟩
    cases before <;> exact hj
  | @starve path k s s' e hk _ _ ih =>
    obtain ⟨j, hj, hkj⟩ := htask
    have hcyclic : e = .cyclic ids := by
      cases e <;> simp_all [TurnFault.below]
    have hmem : k ∈ s₀.graph.members := mem_members_of_feeds hg hkj.1
    refine ih hs (List.nodup_cons.2 ⟨hk, hpath⟩) (hway.cons fun i hi => ?_) (fun r hr => ?_)
      (congrArg _ hcyclic)
    · obtain rfl : i = j := Option.mem_unique hi hj
      exact hkj
    · obtain ⟨rfl, -⟩ := mem_dataInputs_iff.1 hr
      exact ⟨hmem, (mem_dataInputs_congr hs.wiring).1 hr, rfl⟩

/-! ### Turns -/

/-- What comes of pulling values for the node of a turn. -/
def pullFor (watch : Stopwatch) (k : NodeKey) (s : State) : Except TurnFault Unit × State :=
  (pullInputs (evaluatePulled watch (s.graph.members.length + 1) []) k).run.run s

theorem pulling_pullFor (hg : s₀.graph.Coherent) (hs : Later s₀ s) (watch : Stopwatch)
    (k : NodeKey) :
    Pulling watch (s₀.graph.members.countP (isPulled s₀.graph)) []
      (.inputs (dataInputs s.graph k)) s (pullFor watch k s).1 (pullFor watch k s).2 := by
  have hpulling := pulling_pullInputs (fun k => (hg.contains_iff k).1) hs watch k
  rw [pullFor, pullInputs, run_get_bind]
  exact hpulling

theorem Evaluation.failures_eq_nil_iff {es : List Evaluation} :
    es.filterMap Evaluation.failure? = [] ↔ ∀ e ∈ es, e.error = none := by
  simp only [List.filterMap_eq_nil_iff, Evaluation.failure?, Option.map_eq_none_iff]

/-- No evaluation failed where no event tells of a failure. -/
theorem Recorded.error_eq_none {es : List Evaluation} (h : Recorded s s' es)
    (hs : s'.events.toList.filterMap Event.failure? = []) : ∀ e ∈ es, e.error = none := by
  rw [h.events, List.filterMap_append, Evaluation.failures_events, List.append_eq_nil_iff] at hs
  exact Evaluation.failures_eq_nil_iff.1 hs.2

/-- A fault that tells of no evaluation comes of nodes that wait for each other. -/
theorem TurnFault.eq_cyclic {e : TurnFault} {own : String} (h : e.told own = []) :
    ∃ ids, e = .cyclic ids := by
  cases e with
  | cyclic ids => exact ⟨ids, rfl⟩
  | own e | pulled above id message => cases h

/-- What comes of the pulling for a member, and what it records. -/
theorem serves_pullInputs (hg : s₀.graph.Coherent) (hs : Later s₀ s) (watch : Stopwatch)
    (hk : k ∈ s₀.graph.members) :
    let pulled := pullFor watch k s
    ∃ ks es, Recorded s pulled.2 es ∧ Evaluates watch s ks pulled.2 ∧
      es.map (·.id) = ks.map (nodeId s₀.graph) ∧
      Serves s₀.graph (.inputs (dataInputs s.graph k)) pulled.1 ks ∧
      (∀ ids, pulled.1 = .error (.cyclic ids) → ∃ loop lead, Loop s₀.graph k ids loop lead) ∧
      ((∀ e ∈ es, e.error = none) →
        pulled.1 = .ok () ∨ ∃ ids, pulled.1 = .error (.cyclic ids)) := by
  have hrecords : Pull.Records s₀ "" (pullInputs (evaluatePulled watch _ []) k) :=
    records_pullInputs (records_evaluatePulled watch (s.graph.members.length + 1) []) k
  obtain ⟨es, hes, htold⟩ := hrecords s hs
  have hpulling := pulling_pullFor hg hs watch k
  cases hrun : pullFor watch k s with
  | mk x u =>
    rw [hrun] at hpulling
    rw [pullFor] at hrun
    rw [hrun] at hes htold
    obtain ⟨ks, hks, hserves⟩ :=
      serves_of_pulling hg hpulling hs (Demand.inside_dataInputs hk s)
    refine ⟨ks, es, hes, hks, ?_, hserves, fun ids hids => ?_, fun hfine => ?_⟩
    · have hlive : ∀ j ∈ ks, ∃ n, s.graph.node? j = some n := by
        intro j hj
        have hjk := (Demand.wants_dataInputs hg hs hk).1 (hserves.wanted j hj)
        obtain ⟨i, hji⟩ := exists_supplies_of_transGen hjk
        exact (hg.congr hs.wiring).exists_node
          (hs.wiring.members ▸ mem_members_of_feeds hg hji.1)
      have hexecuted := hes.executed.symm.trans (hks.executed hlive)
      rw [funext (nodeId_congr hs.wiring)] at hexecuted
      exact List.append_cancel_left hexecuted
    · refine loop_of_pulling hg hpulling hs .nil (.singleton k) (fun r hr => ?_) hids
      obtain ⟨rfl, -⟩ := mem_dataInputs_iff.1 hr
      exact ⟨hk, (mem_dataInputs_congr hs.wiring).1 hr, rfl⟩
    · have hnone := Evaluation.failures_eq_nil_iff.2 hfine
      cases x with
      | ok _ => exact .inl rfl
      | error e =>
        obtain ⟨ids, rfl⟩ := TurnFault.eq_cyclic (htold.symm.trans hnone)
        exact .inr ⟨ids, rfl⟩

/-- A turn failed for nodes that wait for each other, after values were pulled up to the state `u`.
The failure is put down to the node of the turn, which was not evaluated. -/
structure Caught (g : Graph) (t : Turn) (ts : List Turn) (ids : List String) (u : State)
    (p p' : Progress) : Prop where
  loop : ∃ loop lead, Loop g t.node ids loop lead
  failures : p'.failures = p.failures.push ⟨nodeId g t.node, t.path g, cyclicMessage ids⟩
  pending : p'.pending = ts
  state : ∃ e, p'.state = u.report e

/-- Values were pulled for the node of a turn, and then it was evaluated: everything that supplies
it was evaluated before, each node after those that supply it. -/
structure Supplied (watch : Stopwatch) (g : Graph) (t : Turn) (ks : List NodeKey) (u : State)
    (p' : Progress) : Prop where
  complete : ∀ k, TransGen (Supplies g) k t.node → k ∈ ks
  ordered : FeedersFirst (Supplies g) ks
  state : ∃ es : List Entry, p'.state = es.foldl State.report (invoke watch t.node u).2

/-- A turn for which values can be pulled evaluates its node. -/
theorem state_advance_of_pulled {p : Progress} {t : Turn} {ts : List Turn}
    (hts : p.pending = t :: ts) (hpull : pullFor watch t.node p.state = (.ok (), u)) :
    ∃ es : List Entry,
      (advance watch p).state = es.foldl State.report (invoke watch t.node u).2 := by
  obtain ⟨es, hes⟩ := state_advance watch hts
  rw [pullFor, pullInputs, run_get_bind] at hpull
  rw [run_takeTurn, hpull] at hes
  refine ⟨es, hes.trans ?_⟩
  cases hi : invoke watch t.node u with
  | mk x v => cases x <;> simp [hi]

namespace SharedSupply

/-- Takes control and a number. -/
def taking (id : String) : Node := Node.ofSpecs id [.control "y", .data "v" .int] [] (pure ())

/-- Takes one number twice. -/
def doubling : Node :=
  Node.ofSpecs "d" [.data "v" .int, .data "w" .int] [.data "o" .int] (pure ())

def source : Node := Node.ofSpecs "e" [] [.data "o" .int] (pure ())

/-- Control goes from the first node to the second and to the third. The second is supplied by a
node that one and the same node supplies twice. The third is supplied by two nodes that supply each
other. -/
def start : State where
  graph := [Edit.newNode BrokenInput.first, .insertNode 0, .newNode (taking "b"), .insertNode 1,
    .newNode (taking "c"), .insertNode 2, .newNode doubling, .insertNode 3,
    .newNode source, .insertNode 4, .newNode (ControlLoop.waiting "f"), .insertNode 5,
    .newNode (ControlLoop.waiting "g"), .insertNode 6,
    .connect ⟨0, .output, 0⟩ ⟨1, .input, 0⟩, .connect ⟨0, .output, 0⟩ ⟨2, .input, 0⟩,
    .connect ⟨3, .output, 0⟩ ⟨1, .input, 1⟩, .connect ⟨4, .output, 0⟩ ⟨3, .input, 0⟩,
    .connect ⟨4, .output, 0⟩ ⟨3, .input, 1⟩, .connect ⟨5, .output, 0⟩ ⟨2, .input, 1⟩,
    .connect ⟨6, .output, 0⟩ ⟨5, .input, 0⟩, .connect ⟨5, .output, 0⟩ ⟨6, .input, 0⟩,
    .setMain (some "a")].foldl Edit.apply (.new {} "g" .controlFlow)

theorem coherent : start.graph.Coherent := by
  have hg : Reachable start.graph := by
    simp only [start]
    refine (Reachable.new {} "g" .controlFlow).edits ⟨Node.fresh_ofSpecs .., List.not_mem_nil,
      Node.fresh_ofSpecs .., (by decide : (1 : Nat) ∉ [0]),
      Node.fresh_ofSpecs .., (by decide : (2 : Nat) ∉ [0, 1]),
      Node.fresh_ofSpecs .., (by decide : (3 : Nat) ∉ [0, 1, 2]),
      Node.fresh_ofSpecs .., (by decide : (4 : Nat) ∉ [0, 1, 2, 3]),
      Node.fresh_ofSpecs .., (by decide : (5 : Nat) ∉ [0, 1, 2, 3, 4]),
      Node.fresh_ofSpecs .., (by decide : (6 : Nat) ∉ [0, 1, 2, 3, 4, 5]),
      by simp [Edit.AllAdmissible, Edit.Admissible]⟩
  exact hg.wired.coherent

def options : Options := { maxSteps := 5 }

def clock : Stopwatch := fun _ => 0

/-- How far control has come before the turn of a number. -/
def before (i : Nat) : Progress := (advance clock)^[i] (firstProgress start)

/-- What the run tells. -/
theorem result : ((runControl options clock start).result.toOption.map fun r =>
    (r.steps, r.executed, r.failures.map (·.path))) =
      some (3, ["a", "e", "e", "d", "b"], [["a", "c"]]) := by
  decide +kernel

theorem second : (before 1).pending = [⟨1, some 0, [0]⟩, ⟨2, some 0, [0]⟩] ∧
    (pullFor clock 1 (before 1).state).1.isOk = true ∧
    (pullFor clock 1 (before 1).state).2.events.toList.filterMap Event.failure? = [] := by
  decide +kernel

theorem third : (before 2).pending = [⟨2, some 0, [0]⟩] ∧
    (match (pullFor clock 2 (before 2).state).1 with
      | .ok _ => none
      | .error e => some e.cause) = some .cycle ∧
    (pullFor clock 2 (before 2).state).2.events.toList.filterMap Event.failure? = [] := by
  decide +kernel

end SharedSupply

end Patchbay.Run
