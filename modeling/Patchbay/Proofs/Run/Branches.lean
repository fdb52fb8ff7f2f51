import Mathlib.Algebra.BigOperators.Group.Finset.Basic
import Mathlib.Algebra.Order.BigOperators.Group.Finset
import Patchbay.Proofs.Run.Later
import Patchbay.Proofs.Wiring.Coherent
/-!
# Control as a recursion

Control is told most plainly by a recursion: evaluate a node, fix the turns that follow from it
at that moment, and run the whole branch of each of them before the next one. The loop over a
single list of pending turns takes the same turns. Bounds cut both of them off at the same
place, which is just before the first turn that would exceed one.

## Main definitions

* `Run.Course`: what control did so far.
* `Run.Branches`: the recursion, over the branches of some turns one after the other.

## Main statements

* `Run.Branches.unique`: the recursion has one outcome at most.
* `Run.branches_advanceAll`: the loop does what the recursion does.
* `Run.runControl_branches`: so does a whole run, which always comes to an end.
-/
namespace Patchbay.Run

/-! ### The recursion -/

/-- What control did so far. -/
structure Course where
  state : State
  turns : Array Turn := #[]
  failures : Array Failure := #[]

namespace Course

/-- How often a node had a turn. -/
def visits (c : Course) (k : NodeKey) : Nat := c.turns.countP (fun t => t.node = k)

/-- Another turn of the node would exceed a bound. -/
def Exceeds (o : Options) (c : Course) (k : NodeKey) : Prop :=
  0 < o.maxSteps ∧ o.maxSteps ≤ c.turns.size ∨ 0 < o.maxVisits ∧ o.maxVisits ≤ c.visits k

/-- The course after a turn that led to a state. -/
def took (c : Course) (t : Turn) (s : State) : Course :=
  { c with state := s, turns := c.turns.push t }

/-- The course after a turn that failed. -/
def failed (c : Course) (t : Turn) (s : State) (e : TurnFault) : Course where
  state := s.report (failureReport s.graph t.node e)
  turns := c.turns.push t
  failures := c.failures.push (failureOf s.graph t e)

/-- The turns that follow from a turn as the graph is right after it. -/
def following (c : Course) (t : Turn) (s : State) : List Turn :=
  (successors s.graph t.node).map fun k =>
    { node := k, parent := some c.turns.size, trail := t.node :: t.trail }

end Course

/-- The branches of some turns are run one after the other. The outcome is a course, and the turn
before which a bound cut it off, if one did. -/
inductive Branches (o : Options) (watch : Stopwatch) :
    Course → List Turn → Course → Option Turn → Prop where
  /-- There is no branch left. -/
  | done (c : Course) : Branches o watch c [] c none
  /-- The next turn would exceed a bound. -/
  | cut {c : Course} {t : Turn} {ts : List Turn} (hb : c.Exceeds o t.node) :
    Branches o watch c (t :: ts) c (some t)
  /-- The next turn fails, and nothing follows from it. -/
  | fail {c c' : Course} {t : Turn} {ts : List Turn} {s : State} {e : TurnFault}
    {u : Option Turn} (hb : ¬ c.Exceeds o t.node)
    (ht : (takeTurn watch t.node).run c.state = (.error e, s))
    (hrest : Branches o watch (c.failed t s e) ts c' u) : Branches o watch c (t :: ts) c' u
  /-- The next turn succeeds, and the whole branch below it is run before the others. -/
  | turn {c c₁ c' : Course} {t : Turn} {ts : List Turn} {s : State} {u : Option Turn}
    (hb : ¬ c.Exceeds o t.node) (ht : (takeTurn watch t.node).run c.state = (.ok (), s))
    (hbelow : Branches o watch (c.took t s) (c.following t s) c₁ none)
    (hrest : Branches o watch c₁ ts c' u) : Branches o watch c (t :: ts) c' u
  /-- The next turn succeeds, and the branch below it is cut off. -/
  | cutBelow {c c' : Course} {t : Turn} {ts : List Turn} {s : State} {u : Turn}
    (hb : ¬ c.Exceeds o t.node) (ht : (takeTurn watch t.node).run c.state = (.ok (), s))
    (hbelow : Branches o watch (c.took t s) (c.following t s) c' (some u)) :
    Branches o watch c (t :: ts) c' (some u)

namespace Branches
variable {o : Options} {watch : Stopwatch} {c c₁ c₂ : Course} {ts : List Turn}
  {u₁ u₂ : Option Turn}

/-- The recursion has one outcome at most. -/
theorem unique (h₁ : Branches o watch c ts c₁ u₁) (h₂ : Branches o watch c ts c₂ u₂) :
    c₁ = c₂ ∧ u₁ = u₂ := by
  induction h₁ generalizing c₂ u₂ with
  | done c =>
    cases h₂
    exact ⟨rfl, rfl⟩
  | cut hb =>
    cases h₂ with
    | cut => exact ⟨rfl, rfl⟩
    | fail hb' | turn hb' | cutBelow hb' => exact absurd hb hb'
  | fail hb ht _ ih =>
    cases h₂ with
    | cut hb' => exact absurd hb' hb
    | fail _ ht' hrest =>
      obtain ⟨⟨⟩, rfl⟩ := Prod.mk.inj (ht.symm.trans ht')
      exact ih hrest
    | turn _ ht' | cutBelow _ ht' => cases ht.symm.trans ht'
  | turn hb ht _ _ ihb ihr =>
    cases h₂ with
    | cut hb' => exact absurd hb' hb
    | fail _ ht' => cases ht.symm.trans ht'
    | turn _ ht' hbelow hrest =>
      obtain ⟨-, rfl⟩ := Prod.mk.inj (ht.symm.trans ht')
      obtain ⟨rfl, -⟩ := ihb hbelow
      exact ihr hrest
    | cutBelow _ ht' hbelow =>
      obtain ⟨-, rfl⟩ := Prod.mk.inj (ht.symm.trans ht')
      cases (ihb hbelow).2
  | cutBelow hb ht _ ih =>
    cases h₂ with
    | cut hb' => exact absurd hb' hb
    | fail _ ht' => cases ht.symm.trans ht'
    | turn _ ht' hbelow =>
      obtain ⟨-, rfl⟩ := Prod.mk.inj (ht.symm.trans ht')
      cases (ih hbelow).2
    | cutBelow _ ht' hbelow =>
      obtain ⟨-, rfl⟩ := Prod.mk.inj (ht.symm.trans ht')
      exact ih hbelow

/-- Branches in two lists are run one list after the other, unless the first one is cut off. -/
theorem of_append {xs ys : List Turn} (h : Branches o watch c (xs ++ ys) c₂ u₂) :
    (∃ c₁, Branches o watch c xs c₁ none ∧ Branches o watch c₁ ys c₂ u₂) ∨
      ∃ u, u₂ = some u ∧ Branches o watch c xs c₂ (some u) := by
  generalize hts : xs ++ ys = ts at h
  induction h generalizing xs with
  | done c =>
    obtain ⟨rfl, rfl⟩ := List.append_eq_nil_iff.1 hts
    exact .inl ⟨c, .done c, .done c⟩
  | @cut c t ts hb =>
    cases xs with
    | nil =>
      obtain rfl : ys = t :: ts := hts
      exact .inl ⟨c, .done c, .cut hb⟩
    | cons x xs =>
      obtain ⟨rfl, rfl⟩ := List.cons.inj hts
      exact .inr ⟨x, rfl, .cut hb⟩
  | @fail c c' t ts s e u hb ht hrest ih =>
    cases xs with
    | nil =>
      obtain rfl : ys = t :: ts := hts
      exact .inl ⟨c, .done c, .fail hb ht hrest⟩
    | cons x xs =>
      obtain ⟨rfl, htl⟩ := List.cons.inj hts
      obtain ⟨c₁, hx, hy⟩ | ⟨u, rfl, hx⟩ := ih htl
      · exact .inl ⟨c₁, .fail hb ht hx, hy⟩
      · exact .inr ⟨u, rfl, .fail hb ht hx⟩
  | @turn c c₁ c' t ts s u hb ht hbelow hrest _ ih =>
    cases xs with
    | nil =>
      obtain rfl : ys = t :: ts := hts
      exact .inl ⟨c, .done c, .turn hb ht hbelow hrest⟩
    | cons x xs =>
      obtain ⟨rfl, htl⟩ := List.cons.inj hts
      obtain ⟨c₁, hx, hy⟩ | ⟨u, rfl, hx⟩ := ih htl
      · exact .inl ⟨c₁, .turn hb ht hbelow hx, hy⟩
      · exact .inr ⟨u, rfl, .turn hb ht hbelow hx⟩
  | @cutBelow c c' t ts s u hb ht hbelow _ =>
    cases xs with
    | nil =>
      obtain rfl : ys = t :: ts := hts
      exact .inl ⟨c, .done c, .cutBelow hb ht hbelow⟩
    | cons x xs =>
      obtain ⟨rfl, -⟩ := List.cons.inj hts
      exact .inr ⟨u, rfl, .cutBelow hb ht hbelow⟩

end Branches

/-- Where links are coherent, the nodes that follow from a node are the members at its exercised
outputs, for each output in the order in which its wires were registered. -/
theorem successors_of_coherent {g : Graph} (hg : g.Coherent) {k : NodeKey} {n : Node}
    (hk : k ∈ g.members) (hn : g.node? k = some n) :
    successors g k = n.exercised.flatMap fun i =>
      (g.wiresFrom ⟨k, .output, i⟩).filterMap fun w => (g.targetNode? w).filter g.contains := by
  simp only [successors, hn]
  refine List.flatMap_congr fun i hi => ?_
  obtain ⟨⟨p, j⟩, hp, rfl⟩ := List.mem_map.1 hi
  have hj : n.outputs[j]? = some p := List.mem_zipIdx_iff_getElem?.1 (List.mem_filter.1 hp).1
  have hout : n.pin? .output j = some p := hj
  have hpin : g.pin? ⟨k, .output, j⟩ = some p := by simpa [Graph.pin?, hn] using hout
  rw [← (hg.outgoing hk rfl hpin).1, hout]
  rfl

/-! ### The loop -/

/-- What control did up to some point of the loop. -/
def Progress.course (p : Progress) : Course := ⟨p.state, p.turns, p.failures⟩

/-- The loop stops by itself where the recursion ends or is cut off. -/
theorem branches_of_halt {o : Options} {watch : Stopwatch} {p : Progress} {h : Halt}
    (hp : halt? o p = some h) (hc : p.state.token.requested = false) :
    Branches o watch p.course p.pending p.course p.pending.head? := by
  cases hts : p.pending with
  | nil => exact .done _
  | cons t ts =>
    refine .cut ?_
    simp only [halt?, hts, hc, Bool.false_eq_true, if_false] at hp
    split at hp
    · next hs => exact .inl hs
    · split at hp
      · next hv => exact .inr hv
      · cases hp

/-- A turn that the loop takes exceeds no bound. -/
theorem not_exceeds_of_halt? {o : Options} {p : Progress} {t : Turn} {ts : List Turn}
    (hts : p.pending = t :: ts) (hp : halt? o p = none) : ¬ p.course.Exceeds o t.node := by
  simp only [halt?, hts] at hp
  split at hp
  · cases hp
  split at hp
  · cases hp
  next hs =>
  split at hp
  · cases hp
  next hv => exact fun h => h.elim hs hv

/-- The loop does what the recursion does over the branches of the pending turns. -/
theorem branches_advanceAll {o : Options} {watch : Stopwatch} {n : Nat} {p : Progress} {h : Halt}
    (hh : halt? o (advanceAll o watch n p) = some h)
    (hc : (advanceAll o watch n p).state.token.requested = false) :
    Branches o watch p.course p.pending (advanceAll o watch n p).course
      (advanceAll o watch n p).pending.head? := by
  induction n generalizing p with
  | zero => exact branches_of_halt hh hc
  | succ n ih =>
    cases hp : halt? o p with
    | some h' =>
      simp only [advanceAll, hp] at hc ⊢
      exact branches_of_halt hp hc
    | none =>
      simp only [advanceAll, hp] at hh hc ⊢
      have hrun := ih hh hc
      obtain ⟨state, _ | ⟨t, ts⟩, turns, failures⟩ := p
      · cases hp
      have hb := not_exceeds_of_halt? rfl hp
      cases hs : (takeTurn watch t.node).run state with
      | mk r s =>
        cases r with
        | error e =>
          simp only [advance, hs] at hrun ⊢
          exact .fail hb hs hrun
        | ok =>
          simp only [advance, hs] at hrun ⊢
          -- the pending turns are those that follow from this one, and the ones before
          obtain ⟨c₁, hbelow, hrest⟩ | ⟨u, hu, hbelow⟩ := hrun.of_append
          · exact .turn hb hs hbelow hrest
          · rw [hu]
            exact .cutBelow hb hs hbelow

/-! ### Bounds -/

/-- A list of small numbers, none of which stands in it more often than `m` times, has fewer than
`m * n` elements if one of them stands in it less often. -/
theorem length_lt_of_count_lt {ks : List Nat} {m n k : Nat} (hks : ∀ j ∈ ks, j < n)
    (hm : ∀ j, ks.count j ≤ m) (hk : k < n) (hkm : ks.count k < m) : ks.length < m * n := by
  have hsub : ks.toFinset ⊆ Finset.range n := by
    intro j hj
    exact Finset.mem_range.2 (hks j (List.mem_toFinset.1 hj))
  calc ks.length = ∑ j ∈ ks.toFinset, ks.count j := (ks.sum_toFinset_count_eq_length).symm
    _ ≤ ∑ j ∈ Finset.range n, ks.count j := Finset.sum_le_sum_of_subset hsub
    _ < ∑ _j ∈ Finset.range n, m :=
      Finset.sum_lt_sum (fun j _ => hm j) ⟨k, Finset.mem_range.2 hk, hkm⟩
    _ = m * n := by simp [Nat.mul_comm]

/-- The bounds are kept, and all turns are those of nodes of the graph. -/
structure Within (o : Options) (p : Progress) : Prop where
  steps : 0 < o.maxSteps → p.turns.size ≤ o.maxSteps
  visits : 0 < o.maxVisits → ∀ k, p.visits k ≤ o.maxVisits
  taken : ∀ t ∈ p.turns, t.node < p.state.graph.nodes.next
  pending : ∀ t ∈ p.pending, t.node < p.state.graph.nodes.next

theorem lt_next_of_mem_successors {g : Graph} {k j : NodeKey} (h : j ∈ successors g k) :
    j < g.nodes.next := by
  simp only [successors] at h
  split at h
  · cases h
  · obtain ⟨i, -, hi⟩ := List.mem_flatMap.1 h
    obtain ⟨w, -, hw⟩ := List.mem_filterMap.1 hi
    obtain ⟨n, hn, -⟩ := (Option.any_eq_true _ _).1 (Option.filter_eq_some_iff.1 hw).2
    exact Arena.lt_next_of_get? hn

/-- Taking a turn adds it to those taken, and pending turns are those of nodes of the graph. -/
theorem advance_spec (watch : Stopwatch) {p : Progress} {t : Turn} {ts : List Turn}
    (h : p.pending = t :: ts) : (advance watch p).turns = p.turns.push t ∧
      (advance watch p).state.graph.nodes.next = p.state.graph.nodes.next ∧
      ∀ t' ∈ (advance watch p).pending, t' ∈ ts ∨ t'.node < p.state.graph.nodes.next := by
  obtain ⟨state, _, turns, failures⟩ := p
  obtain rfl := h
  have hnext := (proceeds_takeTurn watch t.node state).size
  simp only [advance]
  split
  · next s hs =>
    have hs : s.graph.nodes.next = state.graph.nodes.next := by
      rw [← hnext]
      exact congrArg (·.2.graph.nodes.next) hs.symm
    refine ⟨rfl, hs, fun t' ht => ?_⟩
    rcases List.mem_append.1 ht with ht | ht
    · obtain ⟨k, hk, rfl⟩ := List.mem_map.1 ht
      exact .inr (hs ▸ lt_next_of_mem_successors hk)
    · exact .inl ht
  · next e s hs =>
    have hs : s.graph.nodes.next = state.graph.nodes.next := by
      rw [← hnext]
      exact congrArg (·.2.graph.nodes.next) hs.symm
    exact ⟨rfl, hs, fun t' ht => .inl ht⟩

namespace Within
variable {o : Options} {watch : Stopwatch} {p : Progress}

/-- A turn that is taken keeps the bounds. -/
theorem advance (hw : Within o p) (hp : halt? o p = none) : Within o (advance watch p) := by
  cases hts : p.pending with
  | nil => simp [halt?, hts] at hp
  | cons t ts =>
    have hb := not_exceeds_of_halt? hts hp
    obtain ⟨hturns, hnext, hpending⟩ := advance_spec watch hts
    have ht : t.node < p.state.graph.nodes.next := hw.pending t (by simp [hts])
    simp only [Course.Exceeds, not_or, not_and, Nat.not_le] at hb
    refine ⟨fun ho => ?_, fun ho k => ?_, fun t' ht' => ?_, fun t' ht' => ?_⟩
    · have := hb.1 ho
      simp only [Progress.course] at this
      simp only [hturns, Array.size_push]
      omega
    · have hk := hw.visits ho k
      have hbt := hb.2 ho
      simp only [Progress.visits, Progress.course, Course.visits] at hk hbt ⊢
      simp only [hturns, Array.countP_push, decide_eq_true_eq]
      split
      · next e => subst e; omega
      · omega
    · rw [hnext]
      rw [hturns, Array.mem_push] at ht'
      rcases ht' with ht' | rfl
      · exact hw.taken t' ht'
      · exact ht
    · rw [hnext]
      rcases hpending t' ht' with h | h
      · exact hw.pending t' (by simp [hts, h])
      · exact h

theorem advanceAll (hw : Within o p) (n : Nat) : Within o (advanceAll o watch n p) := by
  induction n generalizing p with
  | zero => exact hw
  | succ n ih =>
    simp only [Run.advanceAll]
    split
    · exact hw
    · next hp => exact ih (hw.advance hp)

end Within

/-- The loop takes as many turns as it may unless it stops before. -/
theorem size_turns_advanceAll {o : Options} {watch : Stopwatch} {n : Nat} {p : Progress}
    (hh : halt? o (advanceAll o watch n p) = none) :
    (advanceAll o watch n p).turns.size = p.turns.size + n ∧
      (advanceAll o watch n p).state.graph.nodes.next = p.state.graph.nodes.next := by
  induction n generalizing p with
  | zero => exact ⟨rfl, rfl⟩
  | succ n ih =>
    cases hp : halt? o p with
    | some h =>
      simp only [advanceAll, hp] at hh
      cases hh
    | none =>
      simp only [advanceAll, hp] at hh ⊢
      obtain ⟨hsize, hnext⟩ := ih hh
      cases hts : p.pending with
      | nil => simp [halt?, hts] at hp
      | cons t ts =>
        obtain ⟨hturns, hadvance, -⟩ := advance_spec watch hts
        rw [hsize, hnext, hturns, hadvance, Array.size_push]
        exact ⟨by omega, rfl⟩

/-- Control keeps the bounds. -/
theorem within_control (o : Options) (watch : Stopwatch) {s : State}
    (hmain : ∀ k, s.graph.mainNode? = some k → k < s.graph.nodes.next) :
    Within o (control o watch s) := by
  let p : Progress :=
    { state := s, pending := s.graph.mainNode?.toList.map fun k => { node := k : Turn } }
  have hp : Within o p := by
    refine ⟨fun _ => Nat.zero_le _, fun _ _ => Nat.zero_le _, by simp [p], fun t ht => ?_⟩
    obtain ⟨k, hk, rfl⟩ := List.mem_map.1 ht
    exact hmain k (Option.mem_toList.1 hk)
  exact hp.advanceAll _

/-- With a bound the loop stops by itself. -/
theorem halt?_control {o : Options} (watch : Stopwatch) {s : State}
    (ho : 0 < o.maxSteps ∨ 0 < o.maxVisits)
    (hmain : ∀ k, s.graph.mainNode? = some k → k < s.graph.nodes.next) :
    ∃ h, halt? o (control o watch s) = some h := by
  by_contra hno
  have hh : halt? o (control o watch s) = none := by
    rw [Option.eq_none_iff_forall_ne_some]
    exact fun h hh => hno ⟨h, hh⟩
  have hw : Within o (control o watch s) := within_control o watch hmain
  obtain ⟨hsize, hnext⟩ := size_turns_advanceAll hh
  change (control o watch s).turns.size = 0 + enoughTurns o s.graph at hsize
  change (control o watch s).state.graph.nodes.next = s.graph.nodes.next at hnext
  generalize control o watch s = q at hh hw hsize hnext
  cases hts : q.pending with
  | nil => simp [halt?, hts] at hh
  | cons t ts =>
    have hb := not_exceeds_of_halt? hts hh
    simp only [Course.Exceeds, not_or, not_and, Nat.not_le] at hb
    by_cases hs : 0 < o.maxSteps
    · have := hb.1 hs
      simp only [enoughTurns, hs, if_true, Progress.course] at hsize this
      omega
    · have hv : 0 < o.maxVisits := ho.resolve_left hs
      have hcount (k : NodeKey) : (q.turns.toList.map (·.node)).count k = q.visits k := by
        simp [Progress.visits, List.count, List.countP_map, Function.comp_def,
          ← Array.countP_toList, beq_eq_decide]
      have hlt : (q.turns.toList.map (·.node)).length < o.maxVisits * s.graph.nodes.next := by
        refine length_lt_of_count_lt (k := t.node) ?_ (fun j => ?_) ?_ ?_
        · intro j hj
          obtain ⟨t', ht', rfl⟩ := List.mem_map.1 hj
          exact hnext ▸ hw.taken t' (Array.mem_toList_iff.1 ht')
        · rw [hcount]; exact hw.visits hv j
        · exact hnext ▸ hw.pending t (by simp [hts])
        · rw [hcount]; exact hb.2 hv
      simp only [enoughTurns, hs, hv, if_true, if_false] at hsize
      simp only [List.length_map, Array.length_toList] at hlt
      omega

/-! ### Whole runs -/

/-- Control that was not cancelled stopped at a limit exactly if a turn was still pending. -/
theorem limitReport_isSome {o : Options} {p : Progress} {h : Halt} (hp : halt? o p = some h)
    (hc : p.state.token.requested = false) (g : Graph) :
    (limitReport o g h).isSome = p.pending.head?.isSome := by
  cases hts : p.pending with
  | nil =>
    obtain rfl : Halt.finished = h := Option.some.inj ((halt?_of_pending_nil o hts).symm.trans hp)
    rfl
  | cons t ts =>
    simp only [halt?, hts, hc, Bool.false_eq_true, if_false] at hp
    split at hp
    · cases hp; rfl
    · split at hp
      · cases hp; rfl
      · cases hp

/-- The failures in the result are those of the turns, and that of the turn which a limit
prevented if a limit makes the run fail. -/
theorem failures_controlResult {o : Options} {p : Progress} {h : Halt} (hp : halt? o p = some h)
    (hc : p.state.token.requested = false) :
    (controlResult o h p).failures = p.failures.toList ++
      if o.failOnLimit then (p.pending.head?.map (limitFailure p.state.graph)).toList else [] := by
  have hlimit := limitReport_isSome hp hc p.state.graph
  simp only [controlResult, hlimit]
  cases p.pending <;> simp

/-- The loop from the main node on does what the recursion does over its branch. -/
theorem branches_control {o : Options} {watch : Stopwatch} {s : State} {k : NodeKey} {h : Halt}
    (hk : s.graph.mainNode? = some k) (hh : halt? o (control o watch s) = some h)
    (hc : (control o watch s).state.token.requested = false) :
    Branches o watch { state := s } [{ node := k }] (control o watch s).course
      (control o watch s).pending.head? := by
  have hb : Branches o watch { state := s }
      (s.graph.mainNode?.toList.map fun k => { node := k }) (control o watch s).course
      (control o watch s).pending.head? := branches_advanceAll hh hc
  rw [hk] at hb
  exact hb

/-- Control does what the recursion does. In a run with a bound that nobody cancels, the loop takes
the turns of the recursion from the main node, in their order and with the turns from which
they follow, up to the turn before which a bound cuts the recursion off. The recursion has no
other outcome, and the result of the run tells it. -/
theorem runControl_branches {o : Options} {watch : Stopwatch} {s : State}
    (hg : controlError? s.graph = none) (ho : 0 < o.maxSteps ∨ 0 < o.maxVisits)
    (hc : (runControl o watch s).state.token.requested = false) :
    ∃ k c u r, s.graph.mainNode? = some k ∧
      (∀ c' u', Branches o watch { state := s.report (startReport s.graph) } [{ node := k }] c' u' ↔
        c' = c ∧ u' = u) ∧
      (control o watch (s.report (startReport s.graph))).course = c ∧
      (runControl o watch s).result = .ok r ∧ (runControl o watch s).state.graph = c.state.graph ∧
      r.steps = c.turns.size ∧ r.executed = c.state.executed.toList ∧ r.limitReached = u.isSome ∧
      r.failures = c.failures.toList ++
        if o.failOnLimit then (u.map (limitFailure c.state.graph)).toList else [] := by
  obtain ⟨k, n, hk, hn⟩ : ∃ k n, s.graph.mainNode? = some k ∧ s.graph.node? k = some n := by
    simp only [controlError?] at hg
    split at hg
    · cases hg
    split at hg
    · cases hg
    split at hg
    · cases hg
    next n hn =>
    obtain ⟨k, hk, hn⟩ := Option.bind_eq_some_iff.1 hn
    exact ⟨k, n, hk, hn⟩
  let s₀ := s.report (startReport s.graph)
  have hmain (j : NodeKey) (hj : s₀.graph.mainNode? = some j) : j < s₀.graph.nodes.next := by
    obtain rfl : k = j := Option.some.inj (hk.symm.trans hj)
    exact Arena.lt_next_of_get? hn
  obtain ⟨h, hh⟩ := halt?_control watch ho hmain
  have hrun : runControl o watch s =
      ⟨.ok (controlResult o h (control o watch s₀)),
        ((limitReport o (control o watch s₀).state.graph h).toList.foldl State.report
          (control o watch s₀).state).report (endReport s.graph
            (controlResult o h (control o watch s₀)))⟩ := by
    simp only [runControl, hg]
    rw [show halt? o (control o watch (s.report (startReport s.graph))) = some h from hh]
    rfl
  rw [hrun] at hc ⊢
  have hc : (control o watch s₀).state.token.requested = false := by
    rw [← token_foldl_report]
    exact hc
  have hbranches : Branches o watch { state := s₀ } [{ node := k }] (control o watch s₀).course
      (control o watch s₀).pending.head? := branches_control hk hh hc
  refine ⟨k, (control o watch s₀).course, (control o watch s₀).pending.head?,
    controlResult o h (control o watch s₀), hk, fun c' u' => ⟨fun hb => hb.unique hbranches, ?_⟩,
    rfl, rfl, ?_, rfl, rfl, ?_, ?_⟩
  · rintro ⟨rfl, rfl⟩
    exact hbranches
  · exact graph_foldl_report _ _
  · exact limitReport_isSome hh hc _
  · exact failures_controlResult hh hc

/-! ### A loop beside a failure -/

namespace FailingLoop

/-- Takes control from two sides and passes it on. -/
def turning (id : String) : Node :=
  .ofSpecs id [.control "y", .control "z"] [.control "x"] (pure ())

/-- Control goes from the first node to one that fails, and then to one from which it goes round. -/
def start : State where
  graph := [Edit.newNode (.ofSpecs "a" [] [.control "x"] (pure ())), .insertNode 0,
    .newNode (.ofSpecs "b" [.control "y"] [] (throw (.failed "jam"))), .insertNode 1,
    .newNode (turning "c"), .insertNode 2, .newNode (turning "d"), .insertNode 3,
    .connect ⟨0, .output, 0⟩ ⟨1, .input, 0⟩, .connect ⟨0, .output, 0⟩ ⟨2, .input, 0⟩,
    .connect ⟨2, .output, 0⟩ ⟨3, .input, 0⟩, .connect ⟨3, .output, 0⟩ ⟨2, .input, 1⟩,
    .setMain (some "a")].foldl Edit.apply (.new {} "g" .controlFlow)

/-- Five turns, no more than two of them at one node, and a failure if that is not enough. -/
def options : Options := { maxSteps := 5, maxVisits := 2, failOnLimit := true }

end FailingLoop

/-- The node that fails has no branch. The other one is followed round until the bound cuts it off
before a sixth turn, which is the second failure. -/
theorem runControl_branches_failingLoop :
    let watch : Stopwatch := fun _ => 0
    let s := FailingLoop.start
    let o := FailingLoop.options
    controlError? s.graph = none ∧ (runControl o watch s).state.token.requested = false ∧
      ∃ c u r,
        Branches o watch { state := s.report (startReport s.graph) } [{ node := 0 }] c (some u) ∧
        (control o watch (s.report (startReport s.graph))).course = c ∧
        (runControl o watch s).result = .ok r ∧ r.steps = 5 ∧
        c.turns.toList.map (fun t => (t.node, t.parent)) =
          [(0, none), (1, some 0), (2, some 0), (3, some 2), (2, some 3)] ∧
        r.limitReached = true ∧
        r.failures.map (·.path) = [["a", "b"], ["a", "c", "d", "c", "d"]] := by
  intro watch s o
  have hg : controlError? s.graph = none := by decide +kernel
  have hc : (runControl o watch s).state.token.requested = false := by decide +kernel
  have hcourse : (control o watch (s.report (startReport s.graph))).course.turns.toList.map
      (fun t => (t.node, t.parent)) =
        [(0, none), (1, some 0), (2, some 0), (3, some 2), (2, some 3)] := by decide +kernel
  have htold : ((runControl o watch s).result.toOption.map fun r =>
      (r.limitReached, r.failures.map (·.path))) =
        some (true, [["a", "b"], ["a", "c", "d", "c", "d"]]) := by decide +kernel
  obtain ⟨k, c, u, r, hk, hb, hcontrol, hr, -, hsteps, -, hlimit, -⟩ :=
    runControl_branches hg (.inl (by decide)) hc
  obtain rfl : 0 = k := Option.some.inj ((show s.graph.mainNode? = some 0 by decide).symm.trans hk)
  rw [hr] at htold
  simp only [Except.toOption, Option.map_some, Option.some.injEq, Prod.mk.injEq] at htold
  obtain ⟨v, rfl⟩ := Option.isSome_iff_exists.1 (hlimit.symm.trans htold.1)
  have hturns := hcontrol ▸ hcourse
  have hsize : c.turns.size = 5 := by simpa using congrArg List.length hturns
  exact ⟨hg, hc, c, v, r, (hb c (some v)).2 ⟨rfl, rfl⟩, hcontrol, hr, hsteps.trans hsize, hturns,
    htold.1, htold.2⟩

end Patchbay.Run
