import Mathlib.Data.List.Chain
import Patchbay.Proofs.Run.DataFlow
/-!
# What a turn tells of the nodes that it pulls

A turn pulls the values of its inputs, and for that evaluates nodes without flow pins, which pull
theirs before. When one of them fails, the fault collects the nodes on whose behalf it was evaluated
while it comes back through the recursion. They are a chain of data wires that ends at the inputs of
the node whose turn it was.

## Main definitions

* `Run.Upstream`: nodes each of which feeds the one before it.
* `Run.TurnFault.ComesOf`: what the fault of a pulled node tells.
* `Run.Pull.Fails`: what holds of the faults of a part of a turn.

## Main statements

* `Run.fails_evaluatePulled`: the fault of a pulled node tells a chain from that node on.
* `Run.fails_takeTurn`: a turn fails by its own node, or by one at the end of such a chain.
-/
namespace Patchbay.Run

/-! ### Chains -/

/-- Each node of a list feeds a data input of the one before it. -/
def Upstream (g : Graph) (ks : List NodeKey) : Prop := ks.IsChain fun k j => Feeds g j k

/-- The fault of a pulled node tells the nodes from this one on that were pulled on each other's
behalf, up to one that failed. Nodes that wait for each other are not told so. -/
def TurnFault.ComesOf (g : Graph) (k : NodeKey) : TurnFault → Prop
  | .own _ => False
  | .cyclic _ => True
  | .pulled above id _ => ∃ ds : List NodeKey, above ++ [id] = (k :: ds).map (nodeId g) ∧
    Upstream g (k :: ds) ∧ ∀ d ∈ (k :: ds).getLast?, isPulled g d = true

/-- A fault seen from the node below tells that node as well. -/
theorem TurnFault.ComesOf.below {g : Graph} {j k : NodeKey} {e : TurnFault} (h : e.ComesOf g j)
    (hf : Feeds g j k) : (e.below (nodeId g k)).ComesOf g k := by
  cases e with
  | own e => exact h
  | cyclic ids => exact h
  | pulled above id message =>
    obtain ⟨ds, hids, hchain, hlast⟩ := h
    refine ⟨j :: ds, ?_, .cons_cons hf hchain, ?_⟩
    · rw [List.map_cons, ← hids, List.cons_append]
    · rwa [List.getLast?_cons_cons]

/-! ### What a run leaves as it is -/

theorem nodeId_congr {g h : Graph} (a : Graph.SameWiring g h) (k : NodeKey) :
    nodeId h k = nodeId g k :=
  congrArg (Option.getD · "") (a.ids k)

/-- Whether control passes through a node does not change in a run. -/
theorem any_hasFlow_congr {s₀ s : State} (h : Later s₀ s) (k : NodeKey) :
    (s.graph.node? k).any (·.hasFlow) = (s₀.graph.node? k).any (·.hasFlow) := by
  have hcount (ps : List Pin) : (ps.map Pin.blank).countP (·.flow) = ps.countP (·.flow) := by
    rw [List.countP_map]
    refine List.countP_congr fun p _ => ?_
    cases hp : p.flow <;> simp [Pin.blank, Pin.assign, hp]
  have hblank (n : Node) : n.blank.hasFlow = n.hasFlow := by
    simp [Node.hasFlow, Node.flowCount, Node.pins, Node.blank, hcount]
  have hflow := congrArg (Option.any fun n => n.hasFlow) (h.nodes k)
  simpa only [Option.any_map, hblank] using hflow

/-- Whether a node is pulled does not change in a run. -/
theorem isPulled_congr {s₀ s : State} (h : Later s₀ s) (k : NodeKey) :
    isPulled s.graph k = isPulled s₀.graph k := by
  have hcontains : s.graph.contains k = s₀.graph.contains k := h.wiring.contains k
  have hsome : (s.graph.node? k).isSome = (s₀.graph.node? k).isSome := by
    have hids := congrArg Option.isSome (h.wiring.ids k)
    simpa only [Graph.idOf?, Option.isSome_map] using hids
  have hflow := any_hasFlow_congr h k
  rw [isPulled, isPulled, hcontains]
  cases hn : s.graph.node? k <;> cases hn₀ : s₀.graph.node? k <;> simp_all

/-! ### Inputs that are fed -/

theorem mem_dataInputs_iff {g : Graph} {k : NodeKey} {r : PinRef} : r ∈ dataInputs g k ↔
    r.node = k ∧ r.side = .input ∧ (g.pin? r).any (!·.flow) = true := by
  rw [dataInputs, List.mem_filter, Graph.mem_pinRefs_iff, ← and_assoc, ← and_assoc]
  refine and_congr_left fun hdata => and_iff_left ?_
  obtain ⟨p, hp, -⟩ := (Option.any_eq_true _ _).1 hdata
  exact Option.isSome_of_eq_some hp

theorem mem_dataInputs_congr {g h : Graph} (a : Graph.SameWiring g h) {k : NodeKey} {r : PinRef} :
    r ∈ dataInputs h k ↔ r ∈ dataInputs g k := by
  rw [mem_dataInputs_iff, mem_dataInputs_iff, a.any_data]

/-- The wire found for a pin of a member is the one that leads there. -/
theorem feeder?_eq_some_iff {g : Graph} (hg : g.Coherent) {r : PinRef} (hr : r.node ∈ g.members)
    {w : WireKey} : feeder? g r = some w ↔ w ∈ g.links ∧ g.targetOf? w = some r := by
  rw [feeder?, Option.filter_eq_some_iff, Option.bind_eq_some_iff]
  constructor
  · rintro ⟨⟨p, hp, hin⟩, -⟩
    exact (hg.incoming hr hp w).1 hin
  · rintro ⟨hw, ht⟩
    obtain ⟨a, t, ha, -, -, -, -, hresolved⟩ := ends_of_mem_links hg hw
    obtain ⟨c, p, q, -, j⟩ := joined_of_mem_links hg hw ha ht
    exact ⟨⟨q, j.target_pin, (hg.incoming hr j.target_pin w).2 ⟨hw, ht⟩⟩, hresolved⟩

/-- The node at the source of the wire into a data input feeds the node of the input, whichever of
the graphs with one wiring one looks at. -/
theorem feeds_of_feeder? {g g₁ g₂ g₃ : Graph} (hg : g.Coherent) (a₁ : Graph.SameWiring g g₁)
    (a₂ : Graph.SameWiring g g₂) (a₃ : Graph.SameWiring g g₃) {k j : NodeKey}
    (hk : k ∈ g.members) {r : PinRef} (hr : r ∈ dataInputs g₁ k) {w : WireKey}
    (hw : feeder? g₂ r = some w) (hj : g₃.sourceNode? w = some j) : Feeds g j k := by
  obtain ⟨rfl, -, hdata⟩ := mem_dataInputs_iff.1 hr
  obtain ⟨p₁, hp₁, hflow⟩ := (Option.any_eq_true _ _).1 hdata
  obtain ⟨p, hp, hb⟩ := a₁.pin? hp₁
  obtain ⟨hlink, ht⟩ := (feeder?_eq_some_iff (hg.congr a₂) (a₂.members ▸ hk)).1 hw
  obtain ⟨a, ha, howner⟩ := Option.bind_eq_some_iff.1 hj
  obtain ⟨o, -, ho⟩ := Option.bind_eq_some_iff.1 howner
  have haj : a.node = j := by
    split at ho
    · cases ho
    · exact Option.some.inj ho
  refine ⟨w, a₂.links ▸ hlink, a, r, p, (a₃.sourceOf? w).symm.trans ha,
    (a₂.targetOf? w).symm.trans ht, haj, rfl, hp, ?_⟩
  rw [(Pin.of_bare_eq hb).2.2.2.1]
  simpa using hflow

/-! ### Faults of parts of a turn -/

namespace Pull
variable {α β : Type} {s₀ : State} {P : TurnFault → Prop}

/-- In states later than `s₀` a part of a turn has only faults of one kind. -/
def Fails (s₀ : State) (P : TurnFault → Prop) (x : Pull α) : Prop :=
  ∀ s, Later s₀ s → ∀ e s', x.run.run s = (.error e, s') → P e

theorem fails_pure (a : α) : Fails s₀ P (pure a) := by
  intro s _ e s' h
  cases h

theorem fails_modify (f : State → State) : Fails s₀ P (modify f : Pull Unit) := by
  intro s _ e s' h
  cases h

theorem fails_throw {e : TurnFault} (he : P e) : Fails s₀ P (throw e : Pull α) := by
  intro s _ e' s' h
  cases h
  exact he

theorem fails_get {f : State → Pull α} (hf : ∀ s, Later s₀ s → Fails s₀ P (f s)) :
    Fails s₀ P (get >>= f) := by
  intro s hs e s' h
  rw [run_bind] at h
  exact hf s hs s hs e s' h

theorem fails_bind {x : Pull α} {f : α → Pull β} (hp : Proceeds x) (hx : Fails s₀ P x)
    (hf : ∀ a, Fails s₀ P (f a)) : Fails s₀ P (x >>= f) := by
  intro s hs e s' h
  have hlater := hp s
  rw [run_bind] at h
  split at h
  · next a s₁ hrun =>
    rw [hrun] at hlater
    exact hf a s₁ (hs.trans hlater) e s' h
  · next e₁ s₁ hrun =>
    cases h
    exact hx s hs _ _ hrun

theorem fails_adapt {Q : TurnFault → Prop} {x : Pull α} {f : TurnFault → TurnFault}
    (hx : Fails s₀ Q x) (hf : ∀ e, Q e → P (f e)) : Fails s₀ P (x.adapt f) := by
  intro s hs e s' h
  rw [ExceptT.run_adapt, StateT.run_map] at h
  cases hrun : x.run.run s with
  | mk r s₁ =>
    rw [hrun] at h
    cases r with
    | ok a => cases h
    | error e₁ =>
      cases h
      exact hf e₁ (hx s hs e₁ _ hrun)

theorem fails_forM {x : α → Pull Unit} {as : List α} (hp : ∀ a, Proceeds (x a))
    (hx : ∀ a ∈ as, Fails s₀ P (x a)) : Fails s₀ P (as.forM x) := by
  induction as with
  | nil => exact fails_pure ()
  | cons a as ih =>
    refine fails_bind (hp a) (hx a List.mem_cons_self) fun _ => ih fun b hb => ?_
    exact hx b (List.mem_cons_of_mem _ hb)

end Pull

open Pull
variable {s₀ : State} {P : TurnFault → Prop}

/-- Bringing an input up to date fails only by a node that feeds it. -/
theorem fails_pullInput (hg : s₀.graph.Coherent) {evaluate : NodeKey → Pull Unit} {k : NodeKey}
    (hk : k ∈ s₀.graph.members) (hp : ∀ j, Proceeds (evaluate j))
    (he : ∀ j, Feeds s₀.graph j k → isPulled s₀.graph j = true → Fails s₀ P (evaluate j))
    {s₁ : State} (hs₁ : Later s₀ s₁) {r : PinRef} (hr : r ∈ dataInputs s₁.graph k) :
    Fails s₀ P (pullInput evaluate r) := by
  refine fails_get fun s₂ hs₂ => ?_
  split
  · exact fails_pure ()
  · next w hw =>
    refine fails_get fun s₃ hs₃ => ?_
    split
    · next j hj =>
      have hfeeds : Feeds s₀.graph j k :=
        feeds_of_feeder? hg hs₁.wiring hs₂.wiring hs₃.wiring hk hr hw hj
      refine fails_get fun s₄ hs₄ => ?_
      split
      · next hpulled =>
        rw [isPulled_congr hs₄] at hpulled
        exact fails_bind (hp j) (he j hfeeds hpulled) fun _ => fails_modify _
      · exact fails_modify _
    · exact fails_modify _

theorem fails_pullInputs (hg : s₀.graph.Coherent) {evaluate : NodeKey → Pull Unit} {k : NodeKey}
    (hk : k ∈ s₀.graph.members) (hp : ∀ j, Proceeds (evaluate j))
    (he : ∀ j, Feeds s₀.graph j k → isPulled s₀.graph j = true → Fails s₀ P (evaluate j)) :
    Fails s₀ P (pullInputs evaluate k) :=
  fails_get fun _ hs => fails_forM (proceeds_pullInput hp) fun _ hr =>
    fails_pullInput hg hk hp he hs hr

/-- The evaluation of a node fails by its own step. -/
theorem fails_invokeTurn (watch : Stopwatch) (k : NodeKey) :
    Fails s₀ (fun e => ∃ e', e = .own e') (invokeTurn watch k) := by
  intro s _ e s' h
  change invokeTurn watch k s = _ at h
  simp only [invokeTurn] at h
  split at h
  · cases h
  · next e' _ _ =>
    cases h
    exact ⟨e', rfl⟩

/-- The fault of a pulled node tells a chain of nodes that were pulled from this one on. -/
theorem fails_evaluatePulled (hg : s₀.graph.Coherent) (watch : Stopwatch) (depth : Nat)
    (path : List NodeKey) {k : NodeKey} (hk : k ∈ s₀.graph.members)
    (hpulled : isPulled s₀.graph k = true) :
    Fails s₀ (·.ComesOf s₀.graph k) (evaluatePulled watch depth path k) := by
  induction depth generalizing path k with
  | zero => exact fails_get fun s _ => fails_throw trivial
  | succ depth ih =>
    rw [evaluatePulled]
    split
    · exact fails_get fun s _ => fails_throw trivial
    · refine fails_get fun s hs => ?_
      have hid : nodeId s.graph k = nodeId s₀.graph k := nodeId_congr hs.wiring k
      have hproceeds (j : NodeKey) := proceeds_evaluatePulled watch depth (k :: path) j
      have hinputs : Fails s₀ (fun e => ∃ j, Feeds s₀.graph j k ∧ e.ComesOf s₀.graph j)
          (pullInputs (evaluatePulled watch depth (k :: path)) k) := by
        refine fails_pullInputs hg hk hproceeds fun j hj hjp s hs e s' h => ?_
        exact ⟨j, hj, ih (k :: path) (mem_members_of_feeds hg hj) hjp s hs e s' h⟩
      refine fails_bind (proceeds_adapt _ (proceeds_pullInputs hproceeds k)) ?_ fun _ => ?_
      · refine fails_adapt hinputs fun e he => ?_
        obtain ⟨j, hj, he⟩ := he
        rw [hid]
        exact he.below hj
      · refine fails_adapt (fails_invokeTurn watch k) fun e he => ?_
        refine ⟨[], by simp [hid], .singleton k, ?_⟩
        simpa using hpulled

/-- A turn fails by its own node, or by nodes that wait for each other, or by a pulled node at the
end of a chain that feeds the node of the turn. -/
theorem fails_takeTurn (hg : s₀.graph.Coherent) (watch : Stopwatch) {k : NodeKey}
    (hk : k ∈ s₀.graph.members) :
    Fails s₀ (fun e => (∃ e', e = .own e') ∨ ∃ j, Feeds s₀.graph j k ∧ e.ComesOf s₀.graph j)
      (takeTurn watch k) := by
  refine fails_get fun s _ => ?_
  have hproceeds (j : NodeKey) :=
    proceeds_evaluatePulled watch (s.graph.members.length + 1) [] j
  refine fails_bind (proceeds_pullInputs hproceeds k) ?_ fun _ => ?_
  · refine fails_pullInputs hg hk hproceeds fun j hj hjp s hs e s' h => .inr ⟨j, hj, ?_⟩
    exact fails_evaluatePulled hg watch _ [] (mem_members_of_feeds hg hj) hjp s hs e s' h
  · intro s hs e s' h
    exact .inl (fails_invokeTurn watch k s hs e s' h)

end Patchbay.Run
