import Patchbay.Proofs.Run.Paths
/-!
# Pulling comes to an end

The values of data inputs are pulled by a recursion that goes from a node to the nodes that feed it.
It is told here without a bound on its depth, so that every derivation is a recursion that came to
its end. The nodes that wait for values on each other's behalf are on a path. A node that is on the
path already is turned away before anything is pulled for it, so that the path never holds a node
twice, however the data wires go round. Together with the bounds on turns that makes every run come
to an end.

## Main definitions

* `Run.Pulling`: pulling as a recursion without a bound, with the number of nodes that may wait.
* `Run.Taking`: a turn, with the pulling before it.

## Main statements

* `Run.Pulling.unique`: the recursion has one outcome at most.
* `Run.taking_takeTurn`: every turn pulls by that recursion, and no more nodes wait than there are
  without flow pins.
* `Run.runControl_bounded`: a run with a bound comes to an end within it, and tells whether the
  bound was what stopped it.
-/
namespace Patchbay.Run

/-! ### The recursion -/

/-- The node to be evaluated before a wire gives its target a value, if there is one. -/
def pulledSource? (g : Graph) (w : WireKey) : Option NodeKey :=
  (g.sourceNode? w).filter (isPulled g)

theorem isPulled_of_pulledSource? {s₀ s : State} (hs : Later s₀ s) {w : WireKey} {k : NodeKey}
    (hk : pulledSource? s.graph w = some k) : isPulled s₀.graph k = true := by
  rw [← isPulled_congr hs]
  exact (Option.filter_eq_some_iff.1 hk).2

/-- What there is to do when values are pulled. -/
inductive Demand where
  /-- Bring data inputs up to date, one after the other. -/
  | inputs (rs : List PinRef)
  /-- Evaluate a node for its values. -/
  | node (k : NodeKey)

/-- Pulling on behalf of the nodes on a path, from a state to another one. At most `d` nodes wait
for values at once. -/
inductive Pulling (watch : Stopwatch) (d : Nat) :
    List NodeKey → Demand → State → Except TurnFault Unit → State → Prop where
  /-- There is no input left. -/
  | done {path : List NodeKey} {s : State} : Pulling watch d path (.inputs []) s (.ok ()) s
  /-- No wire feeds the next input. -/
  | unfed {path : List NodeKey} {r : PinRef} {rs : List PinRef} {s s' : State}
    {x : Except TurnFault Unit} (hr : feeder? s.graph r = none)
    (hrest : Pulling watch d path (.inputs rs) s x s') :
    Pulling watch d path (.inputs (r :: rs)) s x s'
  /-- The next input is given the value that stands at the source of its wire. -/
  | copy {path : List NodeKey} {r : PinRef} {rs : List PinRef} {w : WireKey} {s s' : State}
    {x : Except TurnFault Unit} (hr : feeder? s.graph r = some w)
    (hw : pulledSource? s.graph w = none)
    (hrest : Pulling watch d path (.inputs rs) (s.transfer w) x s') :
    Pulling watch d path (.inputs (r :: rs)) s x s'
  /-- The node at the source of its wire is evaluated before that. -/
  | fetch {path : List NodeKey} {r : PinRef} {rs : List PinRef} {w : WireKey} {k : NodeKey}
    {s s₁ s' : State} {x : Except TurnFault Unit} (hr : feeder? s.graph r = some w)
    (hw : pulledSource? s.graph w = some k) (hk : Pulling watch d path (.node k) s (.ok ()) s₁)
    (hrest : Pulling watch d path (.inputs rs) (s₁.transfer w) x s') :
    Pulling watch d path (.inputs (r :: rs)) s x s'
  /-- The evaluation of that node fails, and no further input is looked at. -/
  | miss {path : List NodeKey} {r : PinRef} {rs : List PinRef} {w : WireKey} {k : NodeKey}
    {s s' : State} {e : TurnFault} (hr : feeder? s.graph r = some w)
    (hw : pulledSource? s.graph w = some k) (hk : Pulling watch d path (.node k) s (.error e) s') :
    Pulling watch d path (.inputs (r :: rs)) s (.error e) s'
  /-- A node that waits for values already is turned away. -/
  | cyclic {path : List NodeKey} {k : NodeKey} {s : State} (hk : k ∈ path) :
    Pulling watch d path (.node k) s (.error (.cyclic ((path.map (nodeId s.graph)).mergeSort))) s
  /-- Another node waits for its values in vain. -/
  | starve {path : List NodeKey} {k : NodeKey} {s s' : State} {e : TurnFault} (hk : k ∉ path)
    (hd : path.length < d)
    (hin : Pulling watch d (k :: path) (.inputs (dataInputs s.graph k)) s (.error e) s') :
    Pulling watch d path (.node k) s (.error (e.below (nodeId s.graph k))) s'
  /-- Another node waits for its values and is evaluated. -/
  | evaluate {path : List NodeKey} {k : NodeKey} {s s₁ s' : State} (hk : k ∉ path)
    (hd : path.length < d)
    (hin : Pulling watch d (k :: path) (.inputs (dataInputs s.graph k)) s (.ok ()) s₁)
    (hi : invoke watch k s₁ = (.ok (), s')) : Pulling watch d path (.node k) s (.ok ()) s'
  /-- Its evaluation fails. -/
  | fail {path : List NodeKey} {k : NodeKey} {s s₁ s' : State} {e : Fault} (hk : k ∉ path)
    (hd : path.length < d)
    (hin : Pulling watch d (k :: path) (.inputs (dataInputs s.graph k)) s (.ok ()) s₁)
    (hi : invoke watch k s₁ = (.error e, s')) :
    Pulling watch d path (.node k) s (.error (.pulled [] (nodeId s.graph k) e.message)) s'

/-- A turn of a node: the values of its inputs are pulled, and then it is evaluated. -/
inductive Taking (watch : Stopwatch) (d : Nat) (k : NodeKey) (s : State) :
    Except TurnFault Unit → State → Prop where
  | starve {s' : State} {e : TurnFault}
    (hin : Pulling watch d [] (.inputs (dataInputs s.graph k)) s (.error e) s') :
    Taking watch d k s (.error e) s'
  | evaluate {s₁ s' : State}
    (hin : Pulling watch d [] (.inputs (dataInputs s.graph k)) s (.ok ()) s₁)
    (hi : invoke watch k s₁ = (.ok (), s')) : Taking watch d k s (.ok ()) s'
  | fail {s₁ s' : State} {e : Fault}
    (hin : Pulling watch d [] (.inputs (dataInputs s.graph k)) s (.ok ()) s₁)
    (hi : invoke watch k s₁ = (.error e, s')) : Taking watch d k s (.error (.own e)) s'

section Pulling
variable {watch : Stopwatch} {d d' : Nat} {path : List NodeKey} {task : Demand} {s s' s'' : State}
  {x y : Except TurnFault Unit}

/-- The recursion has one outcome at most. -/
theorem Pulling.unique (h : Pulling watch d path task s x s')
    (h' : Pulling watch d' path task s y s'') : x = y ∧ s' = s'' := by
  induction h generalizing y s'' with
  | done =>
    cases h'
    exact ⟨rfl, rfl⟩
  | unfed hr _ ih =>
    cases h' with
    | unfed _ hrest => exact ih hrest
    | copy hr' | fetch hr' | miss hr' => cases hr.symm.trans hr'
  | copy hr hw _ ih =>
    cases h' with
    | unfed hr' => cases hr.symm.trans hr'
    | copy hr' _ hrest =>
      obtain rfl := Option.some.inj (hr.symm.trans hr')
      exact ih hrest
    | fetch hr' hw' | miss hr' hw' =>
      obtain rfl := Option.some.inj (hr.symm.trans hr')
      cases hw.symm.trans hw'
  | fetch hr hw _ _ ihk ih =>
    cases h' with
    | unfed hr' => cases hr.symm.trans hr'
    | copy hr' hw' =>
      obtain rfl := Option.some.inj (hr.symm.trans hr')
      cases hw.symm.trans hw'
    | fetch hr' hw' hk hrest =>
      obtain rfl := Option.some.inj (hr.symm.trans hr')
      obtain rfl := Option.some.inj (hw.symm.trans hw')
      obtain ⟨-, rfl⟩ := ihk hk
      exact ih hrest
    | miss hr' hw' hk =>
      obtain rfl := Option.some.inj (hr.symm.trans hr')
      obtain rfl := Option.some.inj (hw.symm.trans hw')
      cases (ihk hk).1
  | miss hr hw _ ih =>
    cases h' with
    | unfed hr' => cases hr.symm.trans hr'
    | copy hr' hw' =>
      obtain rfl := Option.some.inj (hr.symm.trans hr')
      cases hw.symm.trans hw'
    | fetch hr' hw' hk =>
      obtain rfl := Option.some.inj (hr.symm.trans hr')
      obtain rfl := Option.some.inj (hw.symm.trans hw')
      cases (ih hk).1
    | miss hr' hw' hk =>
      obtain rfl := Option.some.inj (hr.symm.trans hr')
      obtain rfl := Option.some.inj (hw.symm.trans hw')
      exact ih hk
  | cyclic hk =>
    cases h' with
    | cyclic => exact ⟨rfl, rfl⟩
    | starve hk' | evaluate hk' | fail hk' => exact absurd hk hk'
  | starve hk _ _ ih =>
    cases h' with
    | cyclic hk' => exact absurd hk' hk
    | starve _ _ hin =>
      obtain ⟨⟨⟩, rfl⟩ := ih hin
      exact ⟨rfl, rfl⟩
    | evaluate _ _ hin | fail _ _ hin => cases (ih hin).1
  | evaluate hk _ _ hi ih =>
    cases h' with
    | cyclic hk' => exact absurd hk' hk
    | starve _ _ hin => cases (ih hin).1
    | evaluate _ _ hin hi' =>
      obtain ⟨-, rfl⟩ := ih hin
      exact ⟨rfl, congrArg Prod.snd (hi.symm.trans hi')⟩
    | fail _ _ hin hi' =>
      obtain ⟨-, rfl⟩ := ih hin
      cases hi.symm.trans hi'
  | fail hk _ _ hi ih =>
    cases h' with
    | cyclic hk' => exact absurd hk' hk
    | starve _ _ hin => cases (ih hin).1
    | evaluate _ _ hin hi' =>
      obtain ⟨-, rfl⟩ := ih hin
      cases hi.symm.trans hi'
    | fail _ _ hin hi' =>
      obtain ⟨-, rfl⟩ := ih hin
      obtain ⟨⟨⟩, rfl⟩ := Prod.mk.inj (hi.symm.trans hi')
      exact ⟨rfl, rfl⟩

/-- What there is to do concerns inputs of one kind and nodes of one kind. -/
def Demand.Within (R : PinRef → Prop) (K : NodeKey → Prop) : Demand → Prop
  | .inputs rs => ∀ r ∈ rs, R r
  | .node k => K k

/-- What copying values and evaluating nodes preserve is preserved by pulling, whatever comes of
it. -/
theorem Pulling.preserves {I : State → Prop} {R : PinRef → Prop} {K : NodeKey → Prop}
    (hpulled : ∀ {s w k}, I s → pulledSource? s.graph w = some k → K k)
    (hinputs : ∀ {g k r}, K k → r ∈ dataInputs g k → R r)
    (hcopy : ∀ {s u r w}, I s → R r → feeder? s.graph r = some w → I u → I (u.transfer w))
    (hinvoke : ∀ {s k}, I s → K k → I (invoke watch k s).2)
    (h : Pulling watch d path task s x s') (hs : I s) (htask : task.Within R K) : I s' := by
  have hevaluate {s s' : State} {k : NodeKey} {y : Except Fault Unit} (hs : I s) (hk : K k)
      (hi : invoke watch k s = (y, s')) : I s' := by
    have h := hinvoke hs hk
    rwa [hi] at h
  induction h with
  | done | cyclic => exact hs
  | unfed _ _ ih => exact ih hs fun r hr => htask r (List.mem_cons_of_mem _ hr)
  | copy hr _ _ ih =>
    have hcopied := hcopy hs (htask _ List.mem_cons_self) hr hs
    exact ih hcopied fun r hr => htask r (List.mem_cons_of_mem _ hr)
  | fetch hr hw _ _ ihk ih =>
    have hcopied := hcopy hs (htask _ List.mem_cons_self) hr (ihk hs (hpulled hs hw))
    exact ih hcopied fun r hr => htask r (List.mem_cons_of_mem _ hr)
  | miss _ hw _ ih => exact ih hs (hpulled hs hw)
  | starve _ _ _ ih => exact ih hs fun r hr => hinputs htask hr
  | evaluate _ _ _ hi ih => exact hevaluate (ih hs fun r hr => hinputs htask hr) htask hi
  | fail _ _ _ hi ih => exact hevaluate (ih hs fun r hr => hinputs htask hr) htask hi

/-- Pulling leads to a later state. -/
theorem Pulling.later (h : Pulling watch d path task s x s') : Later s s' := by
  have htask : task.Within (fun _ => True) fun _ => True := by
    cases task with
    | inputs rs => exact fun _ _ => trivial
    | node k => trivial
  exact h.preserves (fun _ _ => trivial) (fun _ _ => trivial)
    (fun _ _ _ hu => hu.trans (later_transfer _ _)) (fun hs _ => hs.trans (later_invoke watch _ _))
    (.refl s) htask

end Pulling

/-! ### The recursion with a bound -/

open Pull

theorem run_get_bind {α : Type} (f : State → Pull α) (s : State) :
    (get >>= f).run.run s = (f s).run.run s :=
  run_bind _ _ s

theorem run_adapt (m : Pull Unit) (f : TurnFault → TurnFault) (s : State) :
    (m.adapt f).run.run s = match m.run.run s with
      | (.ok _, s') => (.ok (), s')
      | (.error e, s') => (.error (f e), s') := by
  rw [ExceptT.run_adapt, StateT.run_map]
  cases m.run.run s with
  | mk x s' => cases x <;> rfl

/-- What is done to bring one input up to date. -/
theorem run_pullInput (evaluate : NodeKey → Pull Unit) (r : PinRef) (s : State) :
    (pullInput evaluate r).run.run s = match feeder? s.graph r with
      | none => (.ok (), s)
      | some w => match pulledSource? s.graph w with
        | none => (.ok (), s.transfer w)
        | some k => match (evaluate k).run.run s with
          | (.ok _, s') => (.ok (), s'.transfer w)
          | (.error e, s') => (.error e, s') := by
  rw [pullInput, run_get_bind]
  cases feeder? s.graph r with
  | none => rfl
  | some w =>
    simp only
    rw [run_get_bind, pulledSource?]
    cases s.graph.sourceNode? w with
    | none => rfl
    | some k =>
      simp only
      rw [run_get_bind]
      cases hk : isPulled s.graph k with
      | false =>
        simp only [Option.filter, hk, Bool.false_eq_true, if_false]
        rfl
      | true =>
        simp only [Option.filter, hk, if_true]
        rw [run_bind]
        cases (evaluate k).run.run s with
        | mk x s' => cases x <;> rfl

theorem run_invokeTurn (watch : Stopwatch) (k : NodeKey) (s : State) :
    (invokeTurn watch k).run.run s = match invoke watch k s with
      | (.ok _, s') => (.ok (), s')
      | (.error e, s') => (.error (.own e), s') := by
  change invokeTurn watch k s = _
  rw [invokeTurn]
  cases invoke watch k s with
  | mk x s' => cases x <;> rfl

/-- What is done to evaluate a node that does not wait for values already. -/
theorem run_evaluatePulled (watch : Stopwatch) (depth : Nat) {path : List NodeKey} {k : NodeKey}
    (hk : k ∉ path) (s : State) :
    (evaluatePulled watch (depth + 1) path k).run.run s =
      match ((dataInputs s.graph k).forM
          (pullInput (evaluatePulled watch depth (k :: path)))).run.run s with
      | (.error e, s') => (.error (e.below (nodeId s.graph k)), s')
      | (.ok _, s') => match invoke watch k s' with
        | (.ok _, s'') => (.ok (), s'')
        | (.error e, s'') => (.error (.pulled [] (nodeId s.graph k) e.message), s'') := by
  rw [evaluatePulled, if_neg hk, run_get_bind, run_bind, run_adapt, pullInputs, run_get_bind]
  cases ((dataInputs s.graph k).forM
      (pullInput (evaluatePulled watch depth (k :: path)))).run.run s with
  | mk x s' =>
    cases x with
    | error e => rfl
    | ok _ =>
      simp only
      rw [run_adapt, run_invokeTurn]
      cases invoke watch k s' with
      | mk y s'' => cases y <;> rfl

/-- What is done in a turn. -/
theorem run_takeTurn (watch : Stopwatch) (k : NodeKey) (s : State) :
    (takeTurn watch k).run.run s =
      match ((dataInputs s.graph k).forM
          (pullInput (evaluatePulled watch (s.graph.members.length + 1) []))).run.run s with
      | (.error e, s') => (.error e, s')
      | (.ok _, s') => match invoke watch k s' with
        | (.ok _, s'') => (.ok (), s'')
        | (.error e, s'') => (.error (.own e), s'') := by
  rw [takeTurn, run_get_bind, run_bind, pullInputs, run_get_bind]
  cases ((dataInputs s.graph k).forM
      (pullInput (evaluatePulled watch (s.graph.members.length + 1) []))).run.run s with
  | mk x s' =>
    cases x with
    | error e => rfl
    | ok _ => exact run_invokeTurn watch k s'

section Follows
variable {watch : Stopwatch} {d : Nat} {s₀ s : State} {path : List NodeKey}

/-- From states later than `s₀` a part of a turn does what there is to do. -/
def Follows (watch : Stopwatch) (d : Nat) (s₀ : State) (path : List NodeKey) (task : Demand)
    (m : Pull Unit) : Prop :=
  ∀ s, Later s₀ s → Pulling watch d path task s (m.run.run s).1 (m.run.run s).2

/-- Where nodes are evaluated by the recursion, so are inputs brought up to date. -/
theorem follows_inputs {evaluate : NodeKey → Pull Unit}
    (he : ∀ k, isPulled s₀.graph k = true → Follows watch d s₀ path (.node k) (evaluate k))
    (rs : List PinRef) :
    Follows watch d s₀ path (.inputs rs) (rs.forM (pullInput evaluate)) := by
  induction rs with
  | nil => exact fun s _ => .done
  | cons r rs ih =>
    intro s hs
    change Pulling watch d path (.inputs (r :: rs)) s
      ((pullInput evaluate r >>= fun _ => rs.forM (pullInput evaluate)).run.run s).1
      ((pullInput evaluate r >>= fun _ => rs.forM (pullInput evaluate)).run.run s).2
    rw [run_bind, run_pullInput]
    cases hr : feeder? s.graph r with
    | none => exact .unfed hr (ih s hs)
    | some w =>
      simp only
      cases hw : pulledSource? s.graph w with
      | none => exact .copy hr hw (ih _ (hs.trans (later_transfer s w)))
      | some k =>
        have hk := he k (isPulled_of_pulledSource? hs hw) s hs
        simp only
        cases hrun : (evaluate k).run.run s with
        | mk x s₁ =>
          rw [hrun] at hk
          cases x with
          | error e => exact .miss hr hw hk
          | ok _ =>
            exact .fetch hr hw hk (ih _ ((hs.trans hk.later).trans (later_transfer s₁ w)))

/-- The nodes on a path are different members without flow pins, so that there are not more of
them. -/
theorem length_le_countP_isPulled {g : Graph} (hg : ∀ k, g.contains k = true → k ∈ g.members)
    (hn : path.Nodup) (hp : ∀ k ∈ path, isPulled g k = true) :
    path.length ≤ g.members.countP (isPulled g) := by
  have hsub : path ⊆ g.members.filter (isPulled g) := by
    intro k hk
    have hpulled := hp k hk
    exact List.mem_filter.2 ⟨hg k (Bool.and_eq_true_iff.1 hpulled).1, hpulled⟩
  rw [List.countP_eq_length_filter]
  exact (List.subperm_of_subset hn hsub).length_le

/-- A node is evaluated for its values by the recursion, if the depth is enough for the members
without flow pins that are not on the path. -/
theorem follows_evaluatePulled (hg : ∀ k, s₀.graph.contains k = true → k ∈ s₀.graph.members)
    (watch : Stopwatch) {depth : Nat} {k : NodeKey}
    (hd : s₀.graph.members.countP (isPulled s₀.graph) < depth + path.length) (hn : path.Nodup)
    (hp : ∀ k ∈ path, isPulled s₀.graph k = true)
    (hk : isPulled s₀.graph k = true) :
    Follows watch (s₀.graph.members.countP (isPulled s₀.graph)) s₀ path (.node k)
      (evaluatePulled watch depth path k) := by
  induction depth generalizing path k with
  | zero =>
    have := length_le_countP_isPulled hg hn hp
    omega
  | succ depth ih =>
    intro s hs
    by_cases hmem : k ∈ path
    · simp only [evaluatePulled, hmem, if_true]
      exact .cyclic hmem
    · have hn' : (k :: path).Nodup := List.nodup_cons.2 ⟨hmem, hn⟩
      have hp' : ∀ j ∈ k :: path, isPulled s₀.graph j = true := by
        intro j hj
        rcases List.mem_cons.1 hj with rfl | hj
        · exact hk
        · exact hp j hj
      have hlength := length_le_countP_isPulled hg hn' hp'
      rw [List.length_cons] at hlength
      have hd' : s₀.graph.members.countP (isPulled s₀.graph) < depth + (k :: path).length := by
        rw [List.length_cons]
        omega
      have hin := follows_inputs (fun j hj => ih hd' hn' hp' hj) (dataInputs s.graph k) s hs
      rw [run_evaluatePulled watch depth hmem]
      cases hrun : ((dataInputs s.graph k).forM
          (pullInput (evaluatePulled watch depth (k :: path)))).run.run s with
      | mk x s₁ =>
        rw [hrun] at hin
        cases x with
        | error e => exact .starve hmem hlength hin
        | ok _ =>
          simp only
          cases hi : invoke watch k s₁ with
          | mk y s' =>
            cases y with
            | ok _ => exact .evaluate hmem hlength hin hi
            | error e => exact .fail hmem hlength hin hi

/-- For a turn the inputs of a node are brought up to date by the recursion. No more nodes wait for
values at once than there are members without flow pins. -/
theorem pulling_pullInputs (hg : ∀ k, s₀.graph.contains k = true → k ∈ s₀.graph.members)
    (hs : Later s₀ s) (watch : Stopwatch) (k : NodeKey) :
    let x := ((dataInputs s.graph k).forM
      (pullInput (evaluatePulled watch (s.graph.members.length + 1) []))).run.run s
    Pulling watch (s₀.graph.members.countP (isPulled s₀.graph)) []
      (.inputs (dataInputs s.graph k)) s x.1 x.2 := by
  have hd : s₀.graph.members.countP (isPulled s₀.graph) <
      s.graph.members.length + 1 + ([] : List NodeKey).length := by
    rw [hs.wiring.members]
    exact Nat.lt_succ_of_le List.countP_le_length
  exact follows_inputs (fun j hj => follows_evaluatePulled hg watch hd .nil nofun hj)
    (dataInputs s.graph k) s hs

/-- A turn pulls by the recursion. -/
theorem taking_takeTurn (hg : ∀ k, s₀.graph.contains k = true → k ∈ s₀.graph.members)
    (hs : Later s₀ s) (watch : Stopwatch) (k : NodeKey) :
    Taking watch (s₀.graph.members.countP (isPulled s₀.graph)) k s
      ((takeTurn watch k).run.run s).1 ((takeTurn watch k).run.run s).2 := by
  have hin := pulling_pullInputs hg hs watch k
  simp only at hin
  rw [run_takeTurn]
  cases hrun : ((dataInputs s.graph k).forM
      (pullInput (evaluatePulled watch (s.graph.members.length + 1) []))).run.run s with
  | mk x s₁ =>
    rw [hrun] at hin
    cases x with
    | error e => exact .starve hin
    | ok _ =>
      simp only
      cases hi : invoke watch k s₁ with
      | mk y s' =>
        cases y with
        | ok _ => exact .evaluate hin hi
        | error e => exact .fail hin hi

end Follows

/-! ### The turns of a run -/

section Turns
variable {o : Options} {watch : Stopwatch} {p : Progress}

/-- The state after a turn is the one that the turn leads to, but for the report on a turn that
fails. -/
theorem state_advance (watch : Stopwatch) {p : Progress} {t : Turn} {ts : List Turn}
    (hts : p.pending = t :: ts) : ∃ es : List Entry, (advance watch p).state =
      es.foldl State.report ((takeTurn watch t.node).run.run p.state).2 := by
  obtain ⟨state, pending, turns, failures⟩ := p
  obtain rfl : pending = t :: ts := hts
  simp only [advance]
  split
  · next s hs => exact ⟨[], (congrArg Prod.snd hs).symm⟩
  · next e s hs => exact ⟨[_], congrArg (State.report · _) (congrArg Prod.snd hs).symm⟩

/-- Taking the next turn leads to a later state. -/
theorem later_advance (watch : Stopwatch) (p : Progress) :
    Later p.state (advance watch p).state := by
  cases hts : p.pending with
  | nil =>
    obtain ⟨state, pending, turns, failures⟩ := p
    obtain rfl : pending = [] := hts
    exact .refl state
  | cons t ts =>
    obtain ⟨es, hes⟩ := state_advance watch hts
    rw [hes]
    exact (proceeds_takeTurn watch t.node p.state).trans (Later.foldl later_report es _)

theorem later_iterate_advance (watch : Stopwatch) (p : Progress) (n : Nat) :
    Later p.state ((advance watch)^[n] p).state := by
  induction n with
  | zero => exact .refl p.state
  | succ n ih =>
    rw [Function.iterate_succ_apply']
    exact ih.trans (later_advance watch _)

/-- The loop takes some turns, before none of which it stops. -/
theorem exists_advanceAll_eq_iterate (o : Options) (watch : Stopwatch) (rounds : Nat)
    (p : Progress) : ∃ n, advanceAll o watch rounds p = (advance watch)^[n] p ∧
      ∀ i < n, halt? o ((advance watch)^[i] p) = none := by
  induction rounds generalizing p with
  | zero => exact ⟨0, rfl, nofun⟩
  | succ rounds ih =>
    cases hp : halt? o p with
    | some h => exact ⟨0, by simp [advanceAll, hp], nofun⟩
    | none =>
      obtain ⟨n, hn, hnone⟩ := ih (advance watch p)
      refine ⟨n + 1, by simp [advanceAll, hp, hn], fun i hi => ?_⟩
      cases i with
      | zero => exact hp
      | succ i => exact hnone i (Nat.lt_of_succ_lt_succ hi)

/-- As long as the loop does not stop there is a turn to take. -/
theorem exists_pending_of_halt? (hp : halt? o p = none) : ∃ t ts, p.pending = t :: ts := by
  cases hts : p.pending with
  | nil => cases (halt?_of_pending_nil o hts).symm.trans hp
  | cons t ts => exact ⟨t, ts, rfl⟩

theorem size_turns_iterate_advance {n : Nat}
    (hp : ∀ i < n, halt? o ((advance watch)^[i] p) = none) :
    ((advance watch)^[n] p).turns.size = p.turns.size + n := by
  induction n with
  | zero => rfl
  | succ n ih =>
    obtain ⟨t, ts, hts⟩ := exists_pending_of_halt? (hp n (Nat.lt_succ_self n))
    rw [Function.iterate_succ_apply', size_turns_advance watch _ hts,
      ih fun i hi => hp i (Nat.lt_succ_of_lt hi)]
    rfl

/-- A limit is reported exactly if the run was not cancelled and the next turn would exceed a
bound. -/
theorem limitReport_iff {h : Halt} (hp : halt? o p = some h) (g : Graph) :
    (limitReport o g h).isSome = true ↔
      h ≠ .cancelled ∧ ∃ t, p.pending.head? = some t ∧ p.course.Exceeds o t.node := by
  cases hts : p.pending with
  | nil =>
    obtain rfl : Halt.finished = h := Option.some.inj ((halt?_of_pending_nil o hts).symm.trans hp)
    simp [limitReport]
  | cons t ts =>
    simp only [halt?, hts] at hp
    simp only [List.head?_cons, Option.some.injEq, exists_eq_left']
    split at hp
    · obtain rfl := Option.some.inj hp
      simp [limitReport]
    split at hp
    · next hsteps =>
      obtain rfl := Option.some.inj hp
      exact ⟨fun _ => ⟨by simp, .inl hsteps⟩, fun _ => rfl⟩
    split at hp
    · next hvisits =>
      obtain rfl := Option.some.inj hp
      exact ⟨fun _ => ⟨by simp, .inr hvisits⟩, fun _ => rfl⟩
    · cases hp

theorem status_controlResult (o : Options) (h : Halt) (p : Progress) :
    (controlResult o h p).status = .cancelled ↔ h = .cancelled := by
  have hstatus (c f : Bool) : Result.statusOf c f = .cancelled ↔ c = true := by
    cases c <;> cases f <;> simp [Result.statusOf]
  rw [controlResult, hstatus, decide_eq_true_eq]

end Turns

/-! ### Whole runs -/

/-- What a run of control does: it takes some turns, before none of which it stops, and tells what
came of them. -/
theorem exists_runControl_eq (o : Options) (watch : Stopwatch) {s : State}
    (he : controlError? s.graph = none) :
    ∃ n, control o watch (s.report (startReport s.graph)) = (advance watch)^[n] (firstProgress s) ∧
      (∀ i < n, halt? o ((advance watch)^[i] (firstProgress s)) = none) ∧
      ((advance watch)^[n] (firstProgress s)).turns.size = n ∧
      runControl o watch s =
        let p := (advance watch)^[n] (firstProgress s)
        let h := (halt? o p).getD .finished
        ⟨.ok (controlResult o h p),
          ((limitReport o p.state.graph h).toList.foldl State.report p.state).report
            (endReport s.graph (controlResult o h p))⟩ := by
  obtain ⟨n, hcontrol, hn⟩ :=
    exists_advanceAll_eq_iterate o watch (enoughTurns o s.graph) (firstProgress s)
  change control o watch (s.report (startReport s.graph)) = _ at hcontrol
  refine ⟨n, hcontrol, hn, ?_, ?_⟩
  · rw [size_turns_iterate_advance hn]
    exact Nat.zero_add n
  · simp only [runControl, he]
    rw [hcontrol]

/-- Control did not stop before any turn that it took. -/
theorem halt?_of_lt_steps {o : Options} {watch : Stopwatch} {s : State} {r : Result}
    (hr : (runControl o watch s).result = .ok r) {i : Nat} (hi : i < r.steps) :
    halt? o ((advance watch)^[i] (firstProgress s)) = none := by
  obtain ⟨n, -, hn, hsize, hrun⟩ := exists_runControl_eq o watch (controlError?_eq_none_of_ok hr)
  rw [hrun] at hr
  obtain rfl := Except.ok.inj hr
  exact hn i (hsize ▸ hi)

/-- A run with a bound comes to an end within it. Every turn pulls by a recursion that comes to an
end, and in it no more nodes wait for values at once than there are without flow pins. No more turns
are taken than the bounds allow, and the result tells whether the run stopped before a turn that
would have exceeded one. -/
theorem runControl_bounded {o : Options} (watch : Stopwatch) {s : State}
    (hg : ∀ k, s.graph.contains k = true → k ∈ s.graph.members)
    (ho : 0 < o.maxSteps ∨ 0 < o.maxVisits) :
    (∃ e, controlError? s.graph = some e ∧ runControl o watch s = ⟨.error e, s⟩) ∨
    ∃ r p, (runControl o watch s).result = .ok r ∧
      control o watch (s.report (startReport s.graph)) = p ∧
      p = (advance watch)^[r.steps] (firstProgress s) ∧ (halt? o p).isSome = true ∧
      (∀ i < r.steps, ∃ t x u, turnAt? watch (firstProgress s) i = some t ∧
        (takeTurn watch t.node).run ((advance watch)^[i] (firstProgress s)).state = (x, u) ∧
        Taking watch (s.graph.members.countP (isPulled s.graph)) t.node
          ((advance watch)^[i] (firstProgress s)).state x u) ∧
      (0 < o.maxSteps → r.steps ≤ o.maxSteps) ∧
      (0 < o.maxVisits → ∀ k, p.visits k ≤ o.maxVisits) ∧
      (r.limitReached = true ↔
        r.status ≠ .cancelled ∧ ∃ t, p.pending.head? = some t ∧ p.course.Exceeds o t.node) := by
  cases he : controlError? s.graph with
  | some e => exact .inl ⟨e, rfl, by simp [runControl, he]⟩
  | none =>
    right
    let s₀ := s.report (startReport s.graph)
    have hmain (k : NodeKey) (hk : s₀.graph.mainNode? = some k) : k < s₀.graph.nodes.next := by
      obtain ⟨m, hm, hlive⟩ := mainNode?_of_controlError? he
      obtain rfl : m = k := Option.some.inj (hm.symm.trans hk)
      obtain ⟨n, hn, -⟩ := (Option.any_eq_true _ _).1 hlive
      exact Arena.lt_next_of_get? hn
    have hw : Within o (control o watch s₀) := within_control o watch hmain
    obtain ⟨h, hh⟩ := halt?_control watch ho hmain
    obtain ⟨n, hcontrol, hn, hsize, hrun⟩ := exists_runControl_eq o watch he
    rw [hcontrol] at hw hh
    simp only [hh, Option.getD_some] at hrun
    have hsteps : (controlResult o h ((advance watch)^[n] (firstProgress s))).steps = n := hsize
    refine ⟨_, _, congrArg Outcome.result hrun, hcontrol, by rw [hsteps],
      Option.isSome_of_eq_some hh, fun i hi => ?_, hw.steps, hw.visits, ?_⟩
    · rw [hsteps] at hi
      obtain ⟨t, ts, hts⟩ := exists_pending_of_halt? (hn i hi)
      have hlater : Later s ((advance watch)^[i] (firstProgress s)).state :=
        (later_report s _).trans (later_iterate_advance watch (firstProgress s) i)
      exact ⟨t, _, _, by rw [turnAt?, hts]; rfl, rfl, taking_takeTurn hg hlater watch t.node⟩
    · rw [ne_eq, status_controlResult]
      exact limitReport_iff hh _

/-! ### A run that goes round -/

namespace ControlLoop

def first : Node := Node.ofSpecs "a" [] [.control "x"] (pure ())

/-- Needs a value. -/
def starved : Node := Node.ofSpecs "b" [.control "y", .data "v" .int] [] (pure ())

def turning (id : String) : Node :=
  Node.ofSpecs id [.control "y", .control "z"] [.control "x"] (pure ())

def waiting (id : String) : Node := Node.ofSpecs id [.data "v" .int] [.data "w" .int] (pure ())

/-- Control goes from the first node to the second and to the third, and from there it goes round.
The second needs the value of a node that waits for its own. -/
def start : State where
  graph := [Edit.newNode first, .insertNode 0, .newNode starved, .insertNode 1,
    .newNode (turning "c"), .insertNode 2, .newNode (turning "d"), .insertNode 3,
    .newNode (waiting "e"), .insertNode 4, .newNode (waiting "f"), .insertNode 5,
    .connect ⟨0, .output, 0⟩ ⟨1, .input, 0⟩, .connect ⟨0, .output, 0⟩ ⟨2, .input, 0⟩,
    .connect ⟨2, .output, 0⟩ ⟨3, .input, 0⟩, .connect ⟨3, .output, 0⟩ ⟨2, .input, 1⟩,
    .connect ⟨4, .output, 0⟩ ⟨1, .input, 1⟩, .connect ⟨5, .output, 0⟩ ⟨4, .input, 0⟩,
    .connect ⟨4, .output, 0⟩ ⟨5, .input, 0⟩,
    .setMain (some "a")].foldl Edit.apply (.new {} "g" .controlFlow)

def options : Options := { maxSteps := 5 }

/-- The graph knows no node but its members. -/
theorem mem_of_contains (k : NodeKey) (hk : start.graph.contains k = true) :
    k ∈ start.graph.members := by
  obtain ⟨n, hn, -⟩ := (Option.any_eq_true _ _).1 hk
  have hlt : k < start.graph.nodes.next := Arena.lt_next_of_get? hn
  rw [show start.graph.nodes.next = 6 by decide +kernel] at hlt
  rw [show start.graph.members = List.range 6 by decide +kernel]
  exact List.mem_range.2 hlt

/-- What the run tells. -/
theorem result : ((runControl options (fun _ => 0) start).result.toOption.map fun r =>
    (r.steps, r.limitReached, r.failures.map (·.path))) = some (5, true, [["a", "b"]]) := by
  decide +kernel

end ControlLoop

/-- Control that would go round for ever is stopped before its sixth turn, and the second turn came
to an end although two nodes wait for each other. -/
theorem runControl_bounded_controlLoop :
    let watch : Stopwatch := fun _ => 0
    (∀ k, ControlLoop.start.graph.contains k = true → k ∈ ControlLoop.start.graph.members) ∧
      (0 < ControlLoop.options.maxSteps ∨ 0 < ControlLoop.options.maxVisits) ∧
      ControlLoop.start.graph.members.countP (isPulled ControlLoop.start.graph) = 2 ∧
      ∃ r p t x u v,
        (runControl ControlLoop.options watch ControlLoop.start).result = .ok r ∧ r.steps = 5 ∧
        r.limitReached = true ∧ turnAt? watch (firstProgress ControlLoop.start) 1 = some t ∧
        Taking watch 2 t.node ((advance watch)^[1] (firstProgress ControlLoop.start)).state x u ∧
        p = (advance watch)^[5] (firstProgress ControlLoop.start) ∧ p.pending.head? = some v ∧
        p.course.Exceeds ControlLoop.options v.node := by
  intro watch
  have hcount : ControlLoop.start.graph.members.countP (isPulled ControlLoop.start.graph) = 2 := by
    decide +kernel
  have ho : 0 < ControlLoop.options.maxSteps ∨ 0 < ControlLoop.options.maxVisits := .inl (by decide)
  have hresult := ControlLoop.result
  obtain ⟨e, -, he⟩ | ⟨r, p, hr, -, hp, -, htaken, -, -, hlimit⟩ :=
    runControl_bounded watch ControlLoop.mem_of_contains ho
  · simp only [watch] at he
    simp [he, Except.toOption] at hresult
  · simp only [watch] at hr
    rw [hr] at hresult
    obtain ⟨hsteps, hlimited, -⟩ : r.steps = 5 ∧ r.limitReached = true ∧ _ := by
      simpa [Except.toOption] using hresult
    obtain ⟨t, x, u, ht, -, htaking⟩ := htaken 1 (by omega)
    obtain ⟨-, v, hv, hexceeds⟩ := hlimit.1 hlimited
    rw [hcount] at htaking
    exact ⟨ControlLoop.mem_of_contains, ho, hcount, r, p, t, x, u, v, hr, hsteps, hlimited, ht,
      htaking,
      hsteps ▸ hp, hv, hexceeds⟩

end Patchbay.Run
