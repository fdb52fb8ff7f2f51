import Patchbay.Proofs.Dict
import Patchbay.Proofs.Run.Solution
/-!
# What comes out of a data flow

The values at the ends of a data flow that completes are settled by the network alone: by what the
nodes compute, by which pins are wired, and by the values on the inputs without wires. In which
order nodes and wires came to the graph does not matter, nor what values the wired inputs had
before, so that a second run on the graph that the first one left behind comes to the same.

## Main definitions

* `Run.Undisturbed`: a run that was not cancelled.
* `Run.Completes`: a data flow that completed, with the order in which it took the nodes.

## Main statements

* `Run.runData_settled`: what a data flow comes to whose nodes compute.
* `Run.Completes.sameNetwork`, `Run.Completes.again`: data flows in one network complete alike.
* `Run.runData_network`: what comes out of a data flow.
-/
namespace Patchbay

namespace Run
open Patchbay.Graph

/-! ### Sinks -/

/-- The name of a pin with the value that it shows. -/
def shown (p : Pin) : String × Option Value := (p.name, p.datum?)

theorem endValues_congr {n n' : Node} (h : ∀ s, (n.pins s).map shown = (n'.pins s).map shown) :
    endValues n = endValues n' := by
  have hentries (ps : List Pin) : (ps.filter fun p => !p.flow).map (fun p => (p.name, p.value)) =
      (ps.map shown).filterMap fun e => e.2.map (e.1, ·) := by
    induction ps with
    | nil => rfl
    | cons p ps ih => cases hp : p.flow <;> simp [hp, shown, ih]
  have hcount (ps : List Pin) : ps.countP (fun p => !p.flow) =
      (ps.map shown).countP fun e => e.2.isSome := by
    rw [List.countP_map]
    refine List.countP_congr fun p _ => ?_
    cases hp : p.flow <;> simp [shown, hp]
  have hdata : n.dataCount .output = n'.dataCount .output := by
    rw [Node.dataCount, Node.dataCount, hcount, hcount, h]
  have hin := h .input
  have hout := h .output
  simp only [Node.pins] at hin hout
  simp only [endValues, hdata]
  split
  · rw [hentries, hentries, hout]
  · rw [hentries, hentries, hin]

/-- A member feeds another one exactly if a data wire leads from it to one. -/
theorem feedsMember_iff {g : Graph} (hg : g.Coherent) {k : NodeKey} (hk : k ∈ g.members)
    {n : Node} (hn : g.node? k = some n) : feedsMember g n = true ↔ ∃ j, Feeds g k j := by
  simp only [feedsMember, List.any_eq_true, Bool.and_eq_true, Option.any_eq_true]
  constructor
  · rintro ⟨p, hp, hdata, w, hw, j, hj, -⟩
    obtain ⟨hlink, hfeeds⟩ := feeds_of_mem_sent hg hk (w := w) (by
      simp only [hn, Option.toList_some, List.flatMap_cons, List.flatMap_nil, List.append_nil,
        List.mem_flatMap, List.mem_filter]
      exact ⟨p, ⟨hp, hdata⟩, hw⟩)
    obtain ⟨t, ht, -⟩ := Option.bind_eq_some_iff.1 hj
    exact ⟨_, hfeeds t ht⟩
  · rintro ⟨j, w, hw, a, t, q, ha, ht, rfl, rfl, hq, hdata⟩
    obtain ⟨c, p, q', -, hj⟩ := joined_of_mem_links hg hw ha ht
    obtain rfl : q' = q := Option.some.inj (hj.target_pin.symm.trans hq)
    have hout := (hg.outgoing hk hj.source_side hj.source_pin).1
    obtain ⟨k, side, i⟩ := a
    obtain rfl : side = .output := hj.source_side
    have hpin : n.outputs[i]? = some p := by
      rw [← hj.source_pin]
      simp [Graph.pin?, hn, Node.pin?, Node.pins]
    have howner := hg.owner?_of_pin hj.target_member hj.target_pin
    refine ⟨p, List.mem_of_getElem? hpin, by rw [hj.flow_eq, hdata]; rfl, w, ?_, t.node, ?_, ?_⟩
    · rw [hout, Graph.wiresFrom_eq, List.mem_filter]
      exact ⟨hw, decide_eq_true ha⟩
    · exact Option.bind_eq_some_iff.2 ⟨t, ht, howner⟩
    · exact (hg.contains_iff t.node).2 hj.target_member

/-- The entry of a member among the sinks, if it is one. -/
def sink? (g : Graph) (k : NodeKey) : Option (String × Dict Value) :=
  (g.node? k).bind fun n =>
    if !feedsMember g n && 0 < (endValues n).size then some (n.id, endValues n) else none

theorem sinksOf_nil (g : Graph) : sinksOf g [] = Dict.ofList (g.members.filterMap (sink? g)) := by
  have hfilter : g.members.filter (fun k => decide (k ∉ ([] : List NodeKey))) = g.members := by
    simp
  rw [sinksOf, hfilter, ← List.filterMap_eq_filter, List.map_filterMap, List.filterMap_filterMap]
  refine congrArg Dict.ofList (List.filterMap_congr fun k _ => ?_)
  rw [sink?]
  refine congrArg _ (funext fun n => ?_)
  simp only [Option.guard]
  split <;> rfl

/-- No two members have one entry. -/
theorem nodup_sinks {g : Graph} (hg : g.Coherent) :
    ((g.members.filterMap (sink? g)).map Prod.fst).Nodup := by
  have hid {k : NodeKey} {e : String × Dict Value} (he : sink? g k = some e) :
      g.idOf? k = some e.1 := by
    obtain ⟨n, hn, h⟩ := Option.bind_eq_some_iff.1 he
    split at h
    · obtain rfl := Option.some.inj h
      simp [Graph.idOf?, hn]
    · cases h
  rw [List.Nodup, List.pairwise_map, List.pairwise_filterMap]
  refine hg.distinct.imp_of_mem fun {j k} hj hk hne e he e' he' heq => ?_
  obtain ⟨id, hjd, hfound⟩ := hg.own j hj
  obtain ⟨id', hkd, hfound'⟩ := hg.own k hk
  have h : id = id' := by
    rw [hid he] at hjd
    rw [hid he'] at hkd
    exact (Option.some.inj hjd).symm.trans (heq.trans (Option.some.inj hkd))
  exact hne (Option.some.inj (hfound.symm.trans (h ▸ hfound')))

section
variable {σ : Equiv.Perm NodeKey} {g₀ h₀ : Graph}

/-- Two graphs with one network and the same values on its pins have the same sinks. -/
theorem sinksOf_congr (net : SameNetwork σ g₀ h₀) (hg : g₀.Coherent) (hh : h₀.Coherent)
    {g h : Graph} (ag : SameWiring g₀ g) (ah : SameWiring h₀ h)
    (hdata : ∀ k ∈ g₀.members, ∀ side i, h.datum? ⟨σ k, side, i⟩ = g.datum? ⟨k, side, i⟩) :
    sinksOf h [] = sinksOf g [] := by
  have hsink : ∀ k ∈ g₀.members, sink? h (σ k) = sink? g k := by
    intro k hk
    have hkg : k ∈ g.members := ag.members ▸ hk
    have hkh : σ k ∈ h.members := ah.members ▸ net.mem_members hk
    have hids : h.idOf? (σ k) = g.idOf? k := by rw [ah.ids, ag.ids, net.ids k hk]
    obtain ⟨id, hid, -⟩ := (hg.congr ag).own k hkg
    obtain ⟨n, hn, hnid⟩ := Option.map_eq_some_iff.1 hid
    obtain ⟨n', hn', hnid'⟩ := Option.map_eq_some_iff.1 (hids.trans hid)
    have hfeeds : feedsMember h n' = feedsMember g n := by
      rw [Bool.eq_iff_iff, feedsMember_iff (hh.congr ah) hkh hn',
        feedsMember_iff (hg.congr ag) hkg hn, feeds_congr ah, feeds_congr ag]
      constructor
      · rintro ⟨j, hj⟩
        obtain ⟨i, hi, rfl⟩ := net.exists_of_mem_members (fed_mem_members hh hj)
        exact ⟨i, (feeds_iff net hg hh hi).1 hj⟩
      · rintro ⟨j, hj⟩
        exact ⟨σ j, (feeds_iff net hg hh (fed_mem_members hg hj)).2 hj⟩
    have hends : endValues n' = endValues n := by
      refine endValues_congr fun side => List.ext_getElem? fun i => ?_
      have hpin (l : Graph) {x : NodeKey} {m : Node} (hm : l.node? x = some m) :
          (m.pins side)[i]? = l.pin? ⟨x, side, i⟩ := by
        simp [Graph.pin?, hm, Node.pin?]
      have hname : (h.pin? ⟨σ k, side, i⟩).map (·.name) = (g.pin? ⟨k, side, i⟩).map (·.name) := by
        rw [map_name_congr ah, map_name_congr ag]
        have h := congrArg (Option.map Prod.fst) (net.pins k hk side i)
        simpa only [Option.map_map, Function.comp_def] using h
      rw [List.getElem?_map, List.getElem?_map, hpin h hn', hpin g hn]
      have hd := hdata k hk side i
      rw [datum?, datum?] at hd
      cases hq : h.pin? ⟨σ k, side, i⟩ <;> cases hp : g.pin? ⟨k, side, i⟩ <;>
        simp_all [shown]
    rw [sink?, sink?, hn, hn', Option.bind_some, Option.bind_some, hfeeds, hends, hnid, hnid']
  rw [sinksOf_nil, sinksOf_nil]
  refine Dict.ofList_perm ?_ (nodup_sinks (hh.congr ah))
  rw [ah.members, ag.members]
  refine (net.members.symm.filterMap _).trans ?_
  rw [List.filterMap_map]
  exact .of_eq (List.filterMap_congr fun k hk => hsink k hk)

end
/-! ### Whole runs -/

/-- A run that was not cancelled. -/
def Undisturbed (o : Outcome) : Prop := ∀ r, o.result = .ok r → r.status ≠ .cancelled

theorem category_transfer (g : Graph) (w : WireKey) : (g.transfer w).category = g.category := by
  simp only [Graph.transfer]
  split
  · split
    · split <;> rfl
    · rfl
  · rfl

theorem category_foldl_transfer (ws : List WireKey) (s : State) :
    (ws.foldl State.transfer s).graph.category = s.graph.category := by
  induction ws generalizing s with
  | nil => rfl
  | cons w ws ih => exact (ih (s.transfer w)).trans (category_transfer s.graph w)

theorem category_foldl_round (watch : Stopwatch) (xs : List NodeKey) (s : State) :
    (xs.foldl (State.round watch) s).graph.category = s.graph.category := by
  have hinvoke (k : NodeKey) (s : State) :
      (invoke watch k s).2.graph.category = s.graph.category := by
    cases hn : s.graph.node? k with
    | none => simp [invoke, hn]
    | some n => rw [graph_invoke watch hn]; rfl
  induction xs generalizing s with
  | nil => rfl
  | cons k xs ih =>
    rw [List.foldl_cons, ih, State.round, send, category_foldl_transfer, hinvoke, receive,
      category_foldl_transfer]

/-- Whether data flow can be run in a graph is a matter of its kind and its wiring. -/
theorem dataError?_congr {g h : Graph} (a : SameWiring g h) (hc : h.category = g.category)
    (hd : dataError? g = none) : dataError? h = none := by
  have hmain : h.mainNode? = g.mainNode? := by
    rw [Graph.mainNode?, Graph.mainNode?, a.mainId]
    exact congrArg _ (funext a.nodeWithId?)
  simp only [dataError?, hc, a.mainId, hmain] at hd ⊢
  split at hd
  · cases hd
  · next hcategory =>
    rw [if_neg hcategory]
    split at hd
    · rfl
    · split at hd
      · next h => exact if_pos h
      · cases hd

/-- What a data flow comes to whose nodes compute and that nobody cancels: what the schedule takes
is settled, and the flow completes if the schedule takes all members. -/
theorem runData_settled {watch : Stopwatch} {s : State}
    {f : NodeKey → Nat → List Value → Value} (hg : s.graph.Coherent)
    (hf : ∀ k ∈ s.graph.members, ∀ n, s.graph.node? k = some n → n.Computes (f k))
    (hd : dataError? s.graph = none) (hu : Undisturbed (runData watch s)) :
    ∃ xs left s', Schedule (Feeds s.graph) s.graph.members xs left ∧ Settled f s xs s' ∧
      (runData watch s).state.graph = s'.graph ∧ s'.graph.category = s.graph.category ∧
      (left ≠ [] → ∃ e, (runData watch s).result = .error e) ∧
      (left = [] → ∃ r, (runData watch s).result = .ok r ∧ r.status = .completed ∧
        r.executed = s.executed.toList ++ xs.map (nodeId s.graph) ∧
        r.sinks = sinksOf s'.graph []) := by
  have hr : ∀ k ∈ s.graph.members, ∀ n, s.graph.node? k = some n → n.Reliable :=
    fun k hk n hn => (hf k hk n hn).reliable
  have hstart := later_report s (flowStartReport s.graph)
  have hlive {k : NodeKey} (hk : k ∈ s.graph.members) :
      ∃ n, s.graph.node? k = some n ∧ n.Reliable := by
    obtain ⟨n, hn⟩ := hg.exists_node hk
    exact ⟨n, hn, hr k hk n hn⟩
  cases hrun : dataFlow watch (s.report (flowStartReport s.graph)) with
  | mk d fl =>
    obtain ⟨-, -, hresult⟩ := runData_of_dataFlow hd hrun
    have hgraph : (runData watch s).state.graph = fl.state.graph := by
      have hreport := graph_foldl_report (flowReport? fl d).toList fl.state
      simp only [runData, hd, hrun]
      cases d <;> exact hreport
    have hrounds : rounds watch s.graph.members.length
        ⟨s.report (flowStartReport s.graph), s.graph.members⟩ = (d, fl) := hrun
    have hcancelled : d ≠ .cancelled := by
      rintro rfl
      exact hu _ hresult rfl
    obtain ⟨xs, left, hschedule, hend⟩ := rounds_follow hg hr hstart (Nat.le_refl _)
      (List.Sublist.refl _) (by rw [hrounds]; exact hcancelled)
    rw [hrounds] at hend
    obtain ⟨rfl, rfl⟩ := Prod.mk.inj hend
    have hmem : xs ⊆ s.graph.members := fun k hk =>
      hschedule.perm.subset (List.mem_append_left _ hk)
    have hsettled := Settled.of_schedule hg hf watch hschedule (List.Subset.refl _) hg.distinct
      (fun _ _ => List.not_mem_nil) (fun j k hjk => .inl (mem_members_of_feeds hg hjk))
      (fun _ h => absurd h List.not_mem_nil) (.start f hstart rfl)
    refine ⟨xs, left, _, hschedule, ⟨hsettled.toUnderway, hsettled.solves.subset fun k hk => ?_⟩,
      hgraph, category_foldl_round watch xs _, fun hleft => ?_, fun hleft => ?_⟩
    · simpa using hk
    · have hempty : left.isEmpty = false := by simpa using hleft
      rw [hresult, hempty]
      exact ⟨_, rfl⟩
    · subst hleft
      refine ⟨_, hresult, rfl, ?_, rfl⟩
      exact executed_foldl_round watch (fun k hk => hlive (hmem hk)) hstart

/-- Data flows in one network come to the same sinks. -/
theorem sinks_eq_of_sameNetwork {σ : Equiv.Perm NodeKey} {s₀ t₀ s t : State}
    (net : SameNetwork σ s₀.graph t₀.graph) (hg : s₀.graph.Coherent) (hh : t₀.graph.Coherent)
    {f : NodeKey → Nat → List Value → Value} {xs : List NodeKey}
    (hx : Schedule (Feeds s₀.graph) s₀.graph.members xs [])
    (hs : Settled f s₀ s₀.graph.members s)
    (ht : Settled (f ∘ σ.symm) t₀ t₀.graph.members t) :
    sinksOf t.graph [] = sinksOf s.graph [] := by
  have hperm : xs.Perm s₀.graph.members := by simpa using hx.perm
  refine sinksOf_congr net hg hh hs.wiring ht.wiring fun k hk => ?_
  exact datum?_eq_of_solves net hg hh hs.wiring ht.wiring hs.solves ht.solves hperm.subset
    (hx.feedersFirst fun hjk => mem_members_of_feeds hg hjk) k (hperm.mem_iff.2 hk)

/-- Two graphs with one network have the same schedule: if it takes all members of the one graph, it
takes all members of the other one. -/
theorem left_eq_nil_of_sameNetwork {σ : Equiv.Perm NodeKey} {g h : Graph}
    (net : SameNetwork σ g h) (hg : g.Coherent) (hh : h.Coherent) {xs ys left : List NodeKey}
    (hx : Schedule (Feeds g) g.members xs []) (hy : Schedule (Feeds h) h.members ys left) :
    left = [] := by
  -- what is left in the one graph is fed by something left, and so it is in the other one
  have hfed : ∀ k ∈ g.members.filter (σ · ∈ left), ∃ j ∈ g.members.filter (σ · ∈ left),
      Feeds g j k := by
    intro k hk
    obtain ⟨hkg, hkl⟩ := List.mem_filter.1 hk
    obtain ⟨b, hb, hfeeds⟩ := hy.fed_of_left (σ k) (of_decide_eq_true hkl)
    obtain ⟨j, hj, rfl⟩ := net.exists_of_mem_members (hy.sublist.subset hb)
    exact ⟨j, List.mem_filter.2 ⟨hj, decide_eq_true hb⟩, (feeds_iff net hg hh hkg).1 hfeeds⟩
  rw [List.eq_nil_iff_forall_not_mem]
  intro b hb
  obtain ⟨k, hk, rfl⟩ := net.exists_of_mem_members (hy.sublist.subset hb)
  have hmem : k ∈ g.members.filter (σ · ∈ left) :=
    List.mem_filter.2 ⟨hk, decide_eq_true hb⟩
  obtain ⟨y, hcycle, hyk⟩ := exists_cycle_of_forall_fed hfed hmem
  have hleft : k ∈ ([] : List NodeKey) :=
    (hx.mem_left_iff hg.distinct (fun hjk => mem_members_of_feeds hg hjk) hk).2 ⟨y, hcycle, hyk⟩
  exact List.not_mem_nil hleft

/-- The graph that a data flow leaves behind has the network that it had before. -/
theorem sameNetwork_of_solves {f : NodeKey → Nat → List Value → Value} {g h : Graph}
    {done : List NodeKey} (hg : g.Coherent) (a : SameWiring g h) (hs : g.Solves f done h) :
    SameNetwork (Equiv.refl NodeKey) g h where
  members := by simp [a.members]
  ids k _ := a.ids k
  pins k _ side i := by
    have hr := congrArg (Option.map fun p => (p.name, p.flow)) (a.pins ⟨k, side, i⟩)
    simp only [Option.map_map] at hr
    exact hr
  links j _ k _ i l := by
    simp only [Linked, a.links, a.sourceOf?, a.targetOf?, Equiv.refl_apply]
  free k _ i hfree := by
    refine hs.free _ rfl fun w hw ht => ?_
    obtain ⟨b, t, hb, -⟩ := ends_of_mem_links hg hw
    exact hfree b ⟨w, hw, hb, ht⟩

/-! ### Data flows that complete -/

/-- A data flow that completed: it took all members in the order given, and the state it came to has
them settled. -/
structure Completes (f : NodeKey → Nat → List Value → Value) (s : State) (xs : List NodeKey)
    (o : Outcome) (r : Result) (t : State) : Prop where
  schedule : Schedule (Feeds s.graph) s.graph.members xs []
  settled : Settled f s s.graph.members t
  graph : o.state.graph = t.graph
  category : t.graph.category = s.graph.category
  result : o.result = .ok r
  status : r.status = .completed
  executed : r.executed = s.executed.toList ++ xs.map (nodeId s.graph)
  sinks : r.sinks = sinksOf t.graph []

section
variable {f : NodeKey → Nat → List Value → Value} {s : State}

/-- A data flow of which the schedule takes all members completes. -/
theorem completes_of_schedule {watch : Stopwatch} (hg : s.graph.Coherent)
    (hf : ∀ k ∈ s.graph.members, ∀ n, s.graph.node? k = some n → n.Computes (f k))
    (hd : dataError? s.graph = none) (hu : Undisturbed (runData watch s))
    (hleft : ∀ xs left, Schedule (Feeds s.graph) s.graph.members xs left → left = []) :
    ∃ xs r t, Completes f s xs (runData watch s) r t := by
  obtain ⟨xs, left, t, hschedule, hsettled, hgraph, hcategory, -, hdone⟩ :=
    runData_settled hg hf hd hu
  obtain rfl := hleft xs left hschedule
  obtain ⟨r, hr, hc, hexecuted, hsinks⟩ := hdone rfl
  have hperm : xs.Perm s.graph.members := by simpa using hschedule.perm
  exact ⟨xs, r, t, hschedule, ⟨hsettled.toUnderway, hsettled.solves.subset hperm.symm.subset⟩,
    hgraph, hcategory, hr, hc, hexecuted, hsinks⟩

theorem exists_completes {watch : Stopwatch} {r : Result} (hg : s.graph.Coherent)
    (hf : ∀ k ∈ s.graph.members, ∀ n, s.graph.node? k = some n → n.Computes (f k))
    (hr : (runData watch s).result = .ok r) (hc : r.status = .completed) :
    ∃ xs t, Completes f s xs (runData watch s) r t := by
  have hd : dataError? s.graph = none := dataError?_eq_none_of_ok hr
  have hu : Undisturbed (runData watch s) := by
    intro r' hr'
    obtain rfl : r = r' := Except.ok.inj (hr.symm.trans hr')
    simp [hc]
  have hleft : ∀ xs left, Schedule (Feeds s.graph) s.graph.members xs left → left = [] := by
    intro ys left' hschedule'
    obtain ⟨xs, left, -, hschedule, -, -, -, hstuck, -⟩ := runData_settled hg hf hd hu
    obtain ⟨-, rfl⟩ := hschedule.unique hschedule'
    by_contra hleft
    obtain ⟨e, h⟩ := hstuck hleft
    rw [hr] at h
    cases h
  obtain ⟨xs, r', t, h⟩ := completes_of_schedule hg hf hd hu hleft
  obtain rfl : r = r' := Except.ok.inj (hr.symm.trans h.result)
  exact ⟨xs, t, h⟩

namespace Completes
variable {xs : List NodeKey} {o : Outcome} {r : Result} {t : State}

/-- If a data flow completes, so does one in another graph with the network, with the same sinks. -/
theorem sameNetwork (h : Completes f s xs o r t) (hg : s.graph.Coherent) {σ : Equiv.Perm NodeKey}
    {watch : Stopwatch} {s' : State} (net : s.graph.SameNetwork σ s'.graph)
    (hg' : s'.graph.Coherent)
    (hf : ∀ k ∈ s.graph.members, ∀ n, s'.graph.node? (σ k) = some n → n.Computes (f k))
    (hd : dataError? s'.graph = none) (hu : Undisturbed (runData watch s')) :
    ∃ ys r' t', Completes (f ∘ σ.symm) s' ys (runData watch s') r' t' ∧ r'.sinks = r.sinks := by
  have hcomputes : ∀ j ∈ s'.graph.members, ∀ n, s'.graph.node? j = some n →
      n.Computes ((f ∘ σ.symm) j) := by
    intro j hj n hn
    obtain ⟨k, hk, rfl⟩ := net.exists_of_mem_members hj
    rw [Function.comp_apply, σ.symm_apply_apply]
    exact hf k hk n hn
  obtain ⟨ys, r', t', h'⟩ := completes_of_schedule hg' hcomputes hd hu fun _ _ hschedule =>
    left_eq_nil_of_sameNetwork net hg hg' h.schedule hschedule
  refine ⟨ys, r', t', h', ?_⟩
  rw [h.sinks, h'.sinks, sinks_eq_of_sameNetwork net hg hg' h.schedule h.settled h'.settled]

/-- A data flow on the graph that a completed one left behind completes with the same sinks, and
takes the same nodes in the same order. -/
theorem again (h : Completes f s xs o r t) (hg : s.graph.Coherent)
    (hf : ∀ k ∈ s.graph.members, ∀ n, s.graph.node? k = some n → n.Computes (f k))
    (hd : dataError? s.graph = none) {watch : Stopwatch} {s' : State} (hs : s'.graph = t.graph)
    (hu : Undisturbed (runData watch s')) :
    ∃ r' t', Completes f s' xs (runData watch s') r' t' ∧ r'.sinks = r.sinks ∧
      r'.executed = s'.executed.toList ++ xs.map (nodeId s.graph) := by
  have hwiring : SameWiring s.graph s'.graph := hs ▸ h.settled.wiring
  have hsolves : s.graph.Solves f s.graph.members s'.graph := hs ▸ h.settled.solves
  have hcomputes : ∀ k ∈ s.graph.members, ∀ n, s'.graph.node? k = some n → n.Computes (f k) := by
    intro k hk n hn
    obtain ⟨n₀, hn₀⟩ := hg.exists_node hk
    obtain ⟨n', hn', hlike⟩ := h.settled.refilled hn₀
    obtain rfl : n' = n := by
      rw [hs, hn'] at hn
      exact Option.some.inj hn
    exact (hf k hk n₀ hn₀).refilled hlike
  obtain ⟨ys, r', t', h', hsinks⟩ := h.sameNetwork hg
    (sameNetwork_of_solves hg hwiring hsolves) (hg.congr hwiring) hcomputes
    (dataError?_congr hwiring (hs ▸ h.category) hd) hu
  obtain rfl : xs = ys := by
    have hschedule := h'.schedule
    rw [hwiring.members, feeds_congr hwiring] at hschedule
    exact (h.schedule.unique hschedule).1
  refine ⟨r', t', h', hsinks, ?_⟩
  have hids : nodeId s'.graph = nodeId s.graph := by
    funext k
    rw [nodeId, nodeId]
    exact congrArg (Option.getD · "") (hwiring.ids k)
  rw [h'.executed, hids]

end Completes

end

/-! ### A network in two orders -/

namespace CopiedNumber

def pin (id : String) (v : Value) : Pin := (PinSpec.data id .int v).pin id

/-- A node that holds a number. -/
def holder : Node :=
  { id := "a", type := "t", name := "a", inputs := [], outputs := [pin "x" (.int 7)],
    behaviour := pure () }

/-- A node that copies its input to its output. -/
def copier : Node :=
  { id := "b", type := "t", name := "b", inputs := [pin "y" .null], outputs := [pin "z" .null],
    behaviour := fun view s => (.ok (), { s with values := view.inputs.map (·.value) }) }

/-- The number goes to the node that copies it, made in the one order. -/
def first : State where
  graph := [Edit.newNode holder, .insertNode 0, .newNode copier, .insertNode 1,
    .connect ⟨0, .output, 0⟩ ⟨1, .input, 0⟩].foldl Edit.apply (.new {} "g" .dataFlow)

/-- The same, made in the other order. -/
def second : State where
  graph := [Edit.newNode copier, .insertNode 0, .newNode holder, .insertNode 1,
    .connect ⟨1, .output, 0⟩ ⟨0, .input, 0⟩].foldl Edit.apply (.new {} "g" .dataFlow)

/-- What the nodes compute. -/
def compute (k : NodeKey) (i : Nat) (vs : List Value) : Value :=
  if k = 0 then (holder.datum? .output i).getD .null else vs.headD .null

theorem fresh : holder.Fresh ∧ copier.Fresh := by
  have hpin (id : String) (v : Value) : (pin id v).Free := ⟨rfl, rfl, rfl⟩
  constructor
  · exact ⟨by rintro (_ | _) <;> simp [holder, Node.pins, hpin], rfl, rfl⟩
  · exact ⟨by rintro (_ | _) <;> simp [copier, Node.pins, hpin], rfl, rfl⟩

theorem reachable : Reachable first.graph ∧ Reachable second.graph := by
  obtain ⟨hholder, hcopier⟩ := fresh
  have h := Reachable.new {} "g" .dataFlow
  have hout : (1 : Nat) ∉ [0] := by decide
  exact ⟨h.edits ⟨hholder, List.not_mem_nil, hcopier, hout, trivial, trivial⟩,
    h.edits ⟨hcopier, List.not_mem_nil, hholder, hout, trivial, trivial⟩⟩

theorem members : first.graph.members = [0, 1] ∧ second.graph.members = [0, 1] := by decide

theorem linked (a t : PinRef) :
    (first.graph.Linked a t ↔ a = ⟨0, .output, 0⟩ ∧ t = ⟨1, .input, 0⟩) ∧
      (second.graph.Linked a t ↔ a = ⟨1, .output, 0⟩ ∧ t = ⟨0, .input, 0⟩) := by
  have hlinks : first.graph.links = [0] ∧ second.graph.links = [0] := by decide
  have hsource : first.graph.sourceOf? 0 = some ⟨0, .output, 0⟩ ∧
      second.graph.sourceOf? 0 = some ⟨1, .output, 0⟩ := by decide
  have htarget : first.graph.targetOf? 0 = some ⟨1, .input, 0⟩ ∧
      second.graph.targetOf? 0 = some ⟨0, .input, 0⟩ := by decide
  simp [Linked, hlinks, hsource, htarget, eq_comm]

/-- The nodes have the same pins in both graphs, with the same values. -/
theorem pins_eq {k : NodeKey} (hk : k ∈ first.graph.members) (side : Side) :
    (second.graph.node? (Equiv.swap 0 1 k)).map (·.pins side) =
      (first.graph.node? k).map (·.pins side) := by
  rw [members.1] at hk
  rcases List.mem_pair.1 hk with rfl | rfl
  · rw [Equiv.swap_apply_left]
    cases side <;> decide
  · rw [Equiv.swap_apply_right]
    cases side <;> decide

theorem sameNetwork : first.graph.SameNetwork (Equiv.swap 0 1) second.graph := by
  have hpin {k : NodeKey} (hk : k ∈ first.graph.members) (side : Side) (i : Nat) :
      second.graph.pin? ⟨Equiv.swap 0 1 k, side, i⟩ = first.graph.pin? ⟨k, side, i⟩ := by
    have h := congrArg (Option.bind · (·[i]?)) (pins_eq hk side)
    simp only [Option.bind_map] at h
    exact h
  refine ⟨?_, ?_, ?_, ?_, ?_⟩
  · rw [members.1, members.2]; decide
  · rw [members.1]; decide
  · intro k hk side i
    rw [hpin hk]
  · intro j hj k hk i l
    rw [members.1] at hj hk
    rw [(linked _ _).1, (linked _ _).2]
    rcases List.mem_pair.1 hj with rfl | rfl <;> rcases List.mem_pair.1 hk with rfl | rfl <;> simp
  · intro k hk i _
    rw [datum?, datum?, hpin hk]

/-- A node that holds the number and may be wired computes the number. -/
theorem computes_of_holding {n : Node} (hb : n.behaviour = holder.behaviour)
    (ho : n.outputs.map Pin.datum? = holder.outputs.map Pin.datum?) : n.Computes (compute 0) := by
  have h := Node.computes_of_idle (n := n) (.inr hb)
  have hdatum (i : Nat) : n.datum? .output i = holder.datum? .output i := by
    have hi := congrArg (·[i]?.bind id) ho
    simp only [List.getElem?_map, Option.bind_map] at hi
    exact hi
  simp only [hdatum] at h
  exact h

/-- A node that copies its input and may be wired computes its operand. -/
theorem computes_of_copying {n : Node} {p q : Pin} (he : n.enabled = true)
    (hb : n.behaviour = copier.behaviour) (hin : n.inputs = [p]) (hout : n.outputs = [q])
    (hp : p.flow = false) (hq : q.flow = false) : n.Computes (compute 1) := by
  have hflow {p q : Pin} (h : p.blank = q.blank) : p.flow = q.flow := by
    have hblank (p : Pin) : p.blank.flow = p.flow := by
      cases hp : p.flow <;> simp [Pin.blank, Pin.assign, hp]
    rw [← hblank p, h, hblank]
  have hstep (n' : Node) (hlike : n'.blank = n.blank) (m : Memory) :
      (n'.step m).outcome = .ok () ∧
        ∀ i v, (n'.step m).node.datum? .output i = some v → v = n'.operands.headD .null := by
    have henabled : n'.blank.enabled = n.blank.enabled := congrArg Node.enabled hlike
    have hbehaviour : n'.blank.behaviour = n.blank.behaviour := congrArg Node.behaviour hlike
    have hinputs : n'.blank.inputs = n.blank.inputs := congrArg Node.inputs hlike
    have houtputs : n'.blank.outputs = n.blank.outputs := congrArg Node.outputs hlike
    simp only [Node.blank, hin, hout, List.map_cons, List.map_nil, List.map_eq_singleton_iff]
      at hinputs houtputs
    obtain ⟨p', hin', hp'⟩ := hinputs
    obtain ⟨q', hout', hq'⟩ := houtputs
    have hpf : p'.flow = false := (hflow hp').trans hp
    have hqf : q'.flow = false := (hflow hq').trans hq
    have hr : n'.attempt m = (.ok (), { values := [p'.value], memory := m }) := by
      have hb' := hbehaviour.trans hb
      rw [Node.attempt, show n'.behaviour = _ from hb']
      simp [copier, Node.view, hin']
    have hen : n'.enabled = true := henabled.trans he
    refine ⟨by simp [Node.step, hen, hr, Node.verdict], fun i v hv => ?_⟩
    cases i with
    | zero =>
      have hv : p'.value = v := by
        simpa [Node.step, hen, hr, Node.datum?, Node.pin?, Node.pins, hout', assignAll, Pin.assign,
          hqf] using hv
      simp [← hv, Node.operands, hin', hpf]
    | succ i =>
      simp [Node.step, hen, hr, Node.datum?, Node.pin?, Node.pins, hout', assignAll] at hv
  exact ⟨fun n' hlike m => (hstep n' hlike m).1, fun n' hr m i v => (hstep n' hr.blank m).2 i v⟩

theorem computes_holder {g : Graph} {j : NodeKey}
    (hb : (g.node? j).map (·.behaviour) = some (pure ()))
    (ho : (g.node? j).map (fun n => n.outputs.map Pin.datum?) =
      some (holder.outputs.map Pin.datum?)) :
    ∀ n, g.node? j = some n → n.Computes (compute 0) := by
  intro n hn
  rw [hn] at hb ho
  exact computes_of_holding (Option.some.inj hb) (Option.some.inj ho)

theorem computes_copier {g : Graph} {j : NodeKey} (he : (g.node? j).map (·.enabled) = some true)
    (hb : (g.node? j).map (·.behaviour) = some copier.behaviour)
    (hi : (g.node? j).map (fun n => n.inputs.map (·.flow)) = some [false])
    (ho : (g.node? j).map (fun n => n.outputs.map (·.flow)) = some [false]) :
    ∀ n, g.node? j = some n → n.Computes (compute 1) := by
  intro n hn
  rw [hn] at he hb hi ho
  obtain ⟨p, hin, hp⟩ := List.map_eq_singleton_iff.1 (Option.some.inj hi)
  obtain ⟨q, hout, hq⟩ := List.map_eq_singleton_iff.1 (Option.some.inj ho)
  exact computes_of_copying (Option.some.inj he) (Option.some.inj hb) hin hout hp hq

theorem computes {k : NodeKey} (hk : k ∈ first.graph.members) :
    (∀ n, first.graph.node? k = some n → n.Computes (compute k)) ∧
      ∀ n, second.graph.node? (Equiv.swap 0 1 k) = some n → n.Computes (compute k) := by
  rw [members.1] at hk
  rcases List.mem_pair.1 hk with rfl | rfl
  · rw [Equiv.swap_apply_left]
    exact ⟨computes_holder rfl (by decide), computes_holder rfl (by decide)⟩
  · rw [Equiv.swap_apply_right]
    exact ⟨computes_copier (by decide) rfl (by decide) (by decide),
      computes_copier (by decide) rfl (by decide) (by decide)⟩

end CopiedNumber

/-- A data flow among nodes whose outputs are functions of their operands that completes has solved
its network. What comes out of it is settled by the network alone: a data flow in any other graph
with the network completes with the same sinks, unless it is cancelled. A second data flow on the
graph that the first one left behind completes with the same sinks, and evaluates the same nodes in
the same order. -/
theorem runData_network {watch : Stopwatch} {s : State} {r : Result}
    {f : NodeKey → Nat → List Value → Value} (hg : s.graph.Coherent)
    (hf : ∀ k ∈ s.graph.members, ∀ n, s.graph.node? k = some n → n.Computes (f k))
    (hr : (runData watch s).result = .ok r) (hc : r.status = .completed) (he : s.executed = #[]) :
    s.graph.Solves f s.graph.members (runData watch s).state.graph ∧
      (∀ σ watch' s', s.graph.SameNetwork σ s'.graph → s'.graph.Coherent →
        (∀ k ∈ s.graph.members, ∀ n, s'.graph.node? (σ k) = some n → n.Computes (f k)) →
        dataError? s'.graph = none → Undisturbed (runData watch' s') →
        ∃ r', (runData watch' s').result = .ok r' ∧ r'.status = .completed ∧ r'.sinks = r.sinks) ∧
      (∀ watch' s', s'.graph = (runData watch s).state.graph → s'.executed = #[] →
        Undisturbed (runData watch' s') →
        ∃ r', (runData watch' s').result = .ok r' ∧ r'.status = .completed ∧ r'.sinks = r.sinks ∧
          r'.executed = r.executed) := by
  have hd : dataError? s.graph = none := dataError?_eq_none_of_ok hr
  obtain ⟨xs, t, h⟩ := exists_completes hg hf hr hc
  refine ⟨h.graph ▸ h.settled.solves, ?_, ?_⟩
  · intro σ watch' s' net hg' hf' hd' hu'
    obtain ⟨ys, r', t', h', hsinks⟩ := h.sameNetwork hg net hg' hf' hd' hu'
    exact ⟨r', h'.result, h'.status, hsinks⟩
  · intro watch' s' hs' he' hu'
    obtain ⟨r', t', h', hsinks, hexecuted⟩ := h.again hg hf hd (hs'.trans h.graph) hu'
    refine ⟨r', h'.result, h'.status, hsinks, ?_⟩
    rw [hexecuted, h.executed, he, he']

/-- A number reaches the node that copies it, in whichever order the two were made. -/
theorem runData_network_copiedNumber :
    let watch : Stopwatch := fun _ => 0
    CopiedNumber.first.graph.Coherent ∧
      CopiedNumber.first.graph.SameNetwork (Equiv.swap 0 1) CopiedNumber.second.graph ∧
      ∃ r r', (runData watch CopiedNumber.first).result = .ok r ∧ r.status = .completed ∧
        (runData watch CopiedNumber.second).result = .ok r' ∧ r'.status = .completed ∧
        r'.sinks = r.sinks := by
  intro watch
  have hcompleted : (match (runData watch CopiedNumber.first).result with
      | .ok r => decide (r.status = .completed)
      | .error _ => false) = true := by decide +kernel
  have hundisturbed : (match (runData watch CopiedNumber.second).result with
      | .ok r => decide (r.status ≠ .cancelled)
      | .error _ => true) = true := by decide +kernel
  have hg := CopiedNumber.reachable.1.wired.coherent
  have hg' := CopiedNumber.reachable.2.wired.coherent
  cases hr : (runData watch CopiedNumber.first).result with
  | error e => simp [hr] at hcompleted
  | ok r =>
    have hc : r.status = .completed := by simpa [hr] using hcompleted
    obtain ⟨-, hsame, -⟩ :=
      runData_network hg (fun k hk => (CopiedNumber.computes hk).1) hr hc rfl
    obtain ⟨r', hr', hc', hsinks⟩ := hsame _ watch CopiedNumber.second CopiedNumber.sameNetwork hg'
      (fun k hk => (CopiedNumber.computes hk).2) (by decide) fun r' hr' => by
        simpa [hr'] using hundisturbed
    exact ⟨hg, CopiedNumber.sameNetwork, r, r', rfl, hc, hr', hc', hsinks⟩

end Run
end Patchbay
