import Patchbay.Proofs.Document.Nodes
import Patchbay.Proofs.Document.Regroup
import Patchbay.Proofs.Grouping.Groups
import Patchbay.Proofs.Wiring.Members
/-!
# What reading leaves to relinking

Any document, well made or not, is read part by part before a reference is looked up. Until then no
node is in a group, no group has members and no wire has ends. Every graph that a document comes to
is such a graph, relinked.

## Main definitions

* `Loader.Leads`: what holds of the graph after a part of reading that does not fail.
* `Registry.Makes`: a node that a registry made, as it is when it is read.
* `Loader.Keeps`: what holds of a graph goes on to hold whatever is read into it.

## Main statements

* `Loader.Leads.bind`: parts of reading follow each other.
* `Loader.Keeps.document`: what holds all along holds of the graph that is relinked.
* `Document.exists_unresolved_of_load`: reading comes to an unresolved graph, which is relinked.
-/
namespace Patchbay

theorem Pin.Free.assign {p : Pin} (hp : p.Free) (v : Value) : (p.assign v).Free := by
  simp only [Pin.assign]
  split
  · exact hp
  · exact ⟨hp.owned, hp.incoming, hp.outgoing⟩

@[simp] theorem Pin.kind_assign (p : Pin) (v : Value) : (p.assign v).kind = p.kind := by
  simp only [Pin.assign]
  split <;> rfl

/-- A node that a registry made, as it is when it is read: in no group, with pins that no wire
knows. -/
structure Registry.Makes (r : Registry) (n : Node) : Prop where
  alike : ∃ m type ids ids', r.create type ids = some (m, ids') ∧ m.Alike n
  group : n.group = none
  free : ∀ s, ∀ p ∈ n.pins s, p.Free

namespace Graph

/-! ### Groups -/

namespace GroupsBare
variable {g h : Graph}

/-- Groups without members are told rightly where there are no nodes. -/
theorem grouped (hg : g.GroupsBare) : Grouped { g with nodes := {} } where
  keys_nodup := hg.keys_nodup
  keys_lt := hg.keys_lt
  members_nodup b hb := by
    rw [hg.empty b hb]
    exact List.nodup_nil
  listed b hb k hk := by
    rw [hg.empty b hb] at hk
    cases hk
  grouped hn := by cases hn
  ungrouped hn := by cases hn

theorem of_grouped (hg : Grouped { g with nodes := {} }) : g.GroupsBare where
  keys_nodup := hg.keys_nodup
  keys_lt := hg.keys_lt
  empty b hb := List.eq_nil_iff_forall_not_mem.2 fun k hk => by
    obtain ⟨n, hn, -⟩ := hg.listed b hb k hk
    cases hn

/-- Some groups are destroyed, and the others change their places. -/
theorem withdraw (hg : g.GroupsBare) (gone : List Group)
    (hperm : g.clusters.Perm (gone ++ h.clusters)) (hnext : h.nextGroup = g.nextGroup) :
    h.GroupsBare :=
  of_grouped (hg.grouped.withdraw gone hperm
    (fun b hb => hg.empty b (hperm.mem_iff.2 (List.mem_append_left _ hb))) rfl hnext)

end GroupsBare

theorem clearTree_of_empty {g : Graph} (h : ∀ b ∈ g.clusters, b.members = []) (t : Tree) :
    g.clearTree t = g :=
  List.foldl_fixed' (fun b => clearGroup_of_empty h b.key) _

namespace Unresolved
variable {g : Graph}

/-- Where nothing was read, there is nothing to look up. -/
theorem new (ids : IdSupply) (name : String) (category : Category) :
    (Graph.new ids name category).Unresolved := by
  refine ⟨⟨List.nodup_nil, nofun, nofun⟩, ⟨List.nodup_nil, fun k => ?_, nofun, nofun⟩,
    ⟨List.nodup_nil, nofun, nofun⟩⟩
  simp [Graph.new, Graph.node?, Arena.get?]

/-- The groups of an unresolved graph are changed among themselves. -/
theorem withGroups (hg : g.Unresolved) {groups loose : Forest}
    (hgroups : ({ g with groups, loose } : Graph).GroupsBare) :
    ({ g with groups, loose } : Graph).Unresolved :=
  ⟨hgroups, { hg.nodes with }, { hg.wires with }⟩

/-- A group comes with a fresh key and takes the id that it has in the document. -/
theorem newGroup (hg : g.Unresolved) (id name : String) (bounds : Rect Float) :
    ((g.newGroup name bounds).2.modifyGroup (g.newGroup name bounds).1
      fun b => { b with id }).Unresolved :=
  ⟨.of_grouped (hg.groups.grouped.newGroup_withId id name bounds), { hg.nodes with },
    { hg.wires with }⟩

theorem registerGroup (hg : g.Unresolved) (a : GroupKey) : (g.registerGroup a).Unresolved := by
  have hgrouped := hg.groups.grouped.registerGroup a
  simp only [Graph.registerGroup] at hgrouped ⊢
  split
  · next hd =>
    rw [show ({ g with nodes := {} } : Graph).loose.detach? a = _ from hd] at hgrouped
    exact hg.withGroups (.of_grouped hgrouped)
  · exact hg

theorem dropGroup (hg : g.Unresolved) (a : GroupKey) : (g.dropGroup a).Unresolved := by
  simp only [Graph.dropGroup]
  split
  · exact hg
  · rw [clearTree_of_empty hg.groups.empty]
    split
    · next t loose hd =>
      refine hg.withGroups (hg.groups.withdraw t.preorder ?_ rfl)
      exact ((Forest.preorder_detach? hd).append_left g.groups.preorder).trans
        (List.perm_append_comm_assoc _ _ _)
    · exact hg

/-- A loose group goes below another one. If that is not there it is lost. -/
theorem adoptGroup (hg : g.Unresolved) (parent : GroupKey) (child : Option GroupKey) :
    (g.adoptGroup parent child).2.Unresolved := by
  simp only [Graph.adoptGroup]
  split
  · exact hg
  · split
    · exact hg.dropGroup _
    · next hcan =>
      rw [not_or, descends, Bool.or_eq_true, not_or, Bool.not_eq_true, Bool.not_eq_true] at hcan
      split
      · next t loose hd =>
        refine hg.withGroups ?_
        by_cases hp : parent ∈ g.groups.keys ∨ parent ∈ g.loose.keys
        · exact hg.groups.withdraw []
            (hg.groups.grouped.clusters_adopt hd (Ne.symm hcan.1) hcan.2.2 hp).symm rfl
        · rw [not_or] at hp
          have hout : parent ∉ loose.keys := fun h =>
            hp.2 (((Forest.preorder_detach? hd).map (·.key)).mem_iff.2
              (by rw [List.map_append]; exact List.mem_append_right _ h))
          refine hg.groups.withdraw t.preorder ?_ rfl
          rw [clusters, clusters, Forest.adopt_of_not_mem hout, Forest.adopt_of_not_mem hp.1]
          exact ((Forest.preorder_detach? hd).append_left g.groups.preorder).trans
            (List.perm_append_comm_assoc _ _ _)
      · exact hg

/-! ### Nodes -/

/-- Something is noted on a node that has nothing to do with its group and its pins. -/
theorem modifyNode (hg : g.Unresolved) (k : NodeKey) {f : Node → Node}
    (hgroup : ∀ n, (f n).group = n.group) (hpins : ∀ n s, (f n).pins s = n.pins s) :
    (g.modifyNode k f).Unresolved := by
  refine ⟨{ hg.groups with }, ⟨hg.nodes.members_nodup, fun j => ?_, fun {j n} hn => ?_,
    fun {r p} hp => ?_⟩, { hg.wires with }⟩
  · rw [node?_modifyNode]
    refine (hg.nodes.live j).trans ?_
    split <;> simp
  · rw [node?_modifyNode] at hn
    split at hn
    · obtain ⟨m, hm, rfl⟩ := Option.map_eq_some_iff.1 hn
      rw [hgroup]
      exact hg.nodes.alone hm
    · exact hg.nodes.alone hn
  · rw [pin?_modifyNode_of_pins g k hpins] at hp
    exact hg.nodes.free hp

/-- A node that no group and no wire knows can go. -/
theorem dropNode_of_bare {k : NodeKey} (halone : ∀ n, g.node? k = some n → n.group = none)
    (hfree : ∀ r : PinRef, r.node = k → ∀ {p}, g.pin? r = some p → p.Free) :
    g.dropNode k = { g with nodes := g.nodes.erase k } := by
  have hleave : g.leaveAnyGroup k = g := by
    rw [leaveAnyGroup]
    cases hn : g.node? k with
    | none => rfl
    | some n => rw [Option.bind_some, halone n hn]
  rw [Graph.dropNode, hleave, Wired.foldl_releasePin_of_free fun r hr => hfree r ?_]
  rcases List.mem_append.1 hr with hr | hr <;> exact Wired.node_of_mem_pinRefs hr

/-- A new node becomes a member, unless one is found under its id. -/
theorem exists_addNode (hg : g.Unresolved) {n : Node} (hgroup : n.group = none)
    (hpins : ∀ s, ∀ p ∈ n.pins s, p.Free) : ∃ nodes members index,
      ((g.newNode n).2.insertNode (g.newNode n).1).2 = { g with nodes, members, index } ∧
      ((g.nodeWithId? n.id).isSome = true ∧ members = g.members ∧ index = g.index ∧
          (∀ k, nodes.get? k = g.node? k) ∨
        g.nodeWithId? n.id = none ∧ members = g.members ++ [g.nodes.next] ∧
          index = g.index.insert n.id g.nodes.next ∧
          ∀ k, nodes.get? k = if k = g.nodes.next then some n else g.node? k) := by
  let l := (g.newNode n).2
  have hnode (k : NodeKey) : l.node? k = if k = g.nodes.next then some n else g.node? k :=
    node?_newNode g n k
  have hnew : l.node? (g.newNode n).1 = some n := by rw [hnode]; exact if_pos rfl
  have hfree {r : PinRef} {p : Pin} (hp : l.pin? r = some p) : p.Free := by
    simp only [pin?, hnode] at hp
    split at hp
    · exact hpins r.side p (List.mem_of_getElem? hp)
    · exact hg.nodes.free hp
  change ∃ nodes members index, (l.insertNode _).2 = _ ∧ _
  simp only [insertNode, hnew]
  split
  · next hfound =>
    rw [dropNode_of_bare (fun m hm => by rwa [← Option.some.inj (hnew.symm.trans hm)])
      fun r _ => hfree]
    refine ⟨l.nodes.erase g.nodes.next, g.members, g.index, rfl,
      .inl ⟨Option.isSome_of_eq_some hfound, rfl, rfl, fun k => ?_⟩⟩
    refine (node?_eraseNode l g.nodes.next k).trans ?_
    split
    · next hk => rw [← hk, node?, Arena.get?_next]
    · next hk => exact (hnode k).trans (if_neg (Ne.symm hk))
  · next hnone => exact ⟨l.nodes, _, _, rfl, .inr ⟨hnone, rfl, rfl, hnode⟩⟩

theorem addNode (hg : g.Unresolved) {n : Node} (hgroup : n.group = none)
    (hpins : ∀ s, ∀ p ∈ n.pins s, p.Free) :
    ((g.newNode n).2.insertNode (g.newNode n).1).2.Unresolved := by
  obtain ⟨nodes, members, index, heq, hcases⟩ := hg.exists_addNode hgroup hpins
  rw [heq]
  rcases hcases with ⟨-, rfl, rfl, hsame⟩ | ⟨-, rfl, rfl, hnode⟩
  · refine ⟨{ hg.groups with }, ⟨hg.nodes.members_nodup, fun k => ?_, fun {k m} hm => ?_,
      fun {r p} hp => ?_⟩, { hg.wires with }⟩
    · exact (hg.nodes.live k).trans (by rw [← hsame k]; rfl)
    · exact hg.nodes.alone ((hsame k).symm.trans hm)
    · exact hg.nodes.free (r := r)
        ((congrArg (Option.bind · _) (hsame r.node).symm).trans hp)
  · have hunlisted : g.nodes.next ∉ g.members := by
      rw [hg.nodes.live, node?, Arena.get?_next]
      exact Bool.false_ne_true
    refine ⟨{ hg.groups with }, ⟨?_, fun k => ?_, fun {k m} hm => ?_, fun {r p} hp => ?_⟩,
      { hg.wires with }⟩
    · exact List.nodup_append.2 ⟨hg.nodes.members_nodup, List.nodup_singleton _, fun i hi j hj e =>
        hunlisted (by rwa [e, List.mem_singleton.1 hj] at hi)⟩
    · change k ∈ g.members ++ [g.nodes.next] ↔ (nodes.get? k).isSome = true
      rw [List.mem_append, List.mem_singleton, hg.nodes.live, hnode]
      split <;> simp [*]
    · have hm : nodes.get? k = some m := hm
      rw [hnode] at hm
      split at hm
      · cases hm
        exact hgroup
      · exact hg.nodes.alone hm
    · have hp : (nodes.get? r.node).bind (·.pin? r.side r.index) = some p := hp
      rw [hnode] at hp
      split at hp
      · exact hpins r.side p (List.mem_of_getElem? hp)
      · exact hg.nodes.free hp

/-! ### Wires -/

/-- A new wire is listed, unless there is one of its id. -/
theorem exists_addWire (hg : g.Unresolved) {c : Wire} (hs : c.source = none) (ht : c.target = none) :
    ∃ wires links, ((g.newWire c).2.insertWire (g.newWire c).1).2 = { g with wires, links } ∧
      (links = g.links ∧ (∀ w, wires.get? w = g.wire? w) ∨
        (∀ w ∈ g.links, ∀ d, g.wire? w = some d → d.id ≠ c.id) ∧
          links = g.links ++ [g.wires.next] ∧ g.wires.next ∉ g.links ∧
          ∀ w, wires.get? w = if w = g.wires.next then some c else g.wire? w) := by
  let l := (g.newWire c).2
  have hwire (w : WireKey) : l.wire? w = if w = g.wires.next then some c else g.wire? w :=
    Arena.get?_push g.wires c w
  have hnew : l.wire? (g.newWire c).1 = some c := by rw [hwire]; exact if_pos rfl
  have hunlisted : g.wires.next ∉ g.links := fun h => by
    have hlive := hg.wires.live _ h
    rw [wire?, Arena.get?_next] at hlive
    cases hlive
  change ∃ wires links, (l.insertWire _).2 = _ ∧ _
  simp only [insertWire]
  split
  · rw [dropWire_of_loose hnew hs ht]
    refine ⟨l.wires.erase g.wires.next, g.links, rfl, .inl ⟨rfl, fun w => ?_⟩⟩
    refine (Arena.get?_erase l.wires g.wires.next w).trans ?_
    split
    · next hw => rw [← hw, wire?, Arena.get?_next]
    · next hw => exact (hwire w).trans (if_neg (Ne.symm hw))
  · next hnone =>
    refine ⟨l.wires, _, rfl, .inr ⟨fun w hw d hd hid => ?_, rfl, hunlisted, hwire⟩⟩
    rw [hnew, Option.bind_some, wireWithId?, List.find?_eq_none] at hnone
    have hd : l.wire? w = some d := by
      rwa [hwire, if_neg fun e : w = g.wires.next => hunlisted (e ▸ hw)]
    exact hnone w hw (by rw [hd, Option.any_some, decide_eq_true hid])

theorem addWire (hg : g.Unresolved) {c : Wire} (hs : c.source = none) (ht : c.target = none) :
    ((g.newWire c).2.insertWire (g.newWire c).1).2.Unresolved := by
  obtain ⟨wires, links, heq, hcases⟩ := hg.exists_addWire hs ht
  rw [heq]
  rcases hcases with ⟨rfl, hsame⟩ | ⟨-, rfl, hunlisted, hwire⟩
  · refine ⟨{ hg.groups with }, { hg.nodes with }, hg.wires.links_nodup, fun w hw => ?_,
      fun {w d} hd => ?_⟩
    · exact (congrArg Option.isSome (hsame w)).trans (hg.wires.live w hw)
    · exact hg.wires.loose ((hsame w).symm.trans hd)
  · refine ⟨{ hg.groups with }, { hg.nodes with }, ?_, fun w hw => ?_, fun {w d} hd => ?_⟩
    · exact List.nodup_append.2 ⟨hg.wires.links_nodup, List.nodup_singleton _, fun i hi j hj e =>
        hunlisted (by rwa [e, List.mem_singleton.1 hj] at hi)⟩
    · change (wires.get? w).isSome = true
      rw [hwire]
      split
      · rfl
      · next hne =>
        rcases List.mem_append.1 hw with hw | hw
        · exact hg.wires.live w hw
        · exact absurd (List.mem_singleton.1 hw) hne
    · have hd : wires.get? w = some d := hd
      rw [hwire] at hd
      split at hd
      · cases hd
        exact ⟨hs, ht⟩
      · exact hg.wires.loose hd

end Unresolved

end Graph

namespace Document

/-! ### Parts of reading -/

namespace Loader
variable {α β : Type} {I : Graph → Prop} {J : α → Graph → Prop} {K : β → Graph → Prop}

/-- If something holds of the graph before a part of reading, and the part does not fail, then
something holds of its result and of the graph after it. -/
def Leads (I : Graph → Prop) (x : Loader α) (J : α → Graph → Prop) : Prop :=
  ∀ ⦃d a d'⦄, Runs x d a d' → I d.graph → J a d'.graph

namespace Leads
variable {x : Loader α} {f : α → Loader β}

/-- Parts of reading follow each other. -/
protected theorem bind (hx : Leads I x J) (hf : ∀ a, Leads (J a) (f a) K) :
    Leads I (x >>= f) K := by
  intro d b d' h hd
  have h : ExceptT.bindCont f (x d).1 (x d).2 = (.ok b, d') := h
  cases hr : x d with
  | mk r d₁ =>
    rw [hr] at h
    cases r with
    | error e => cases h
    | ok a => exact hf a h (hx hr hd)

protected theorem pure {a : α} (h : ∀ g, I g → J a g) : Leads I (pure a) J := by
  intro d b d' hrun hd
  cases hrun
  exact h _ hd

protected theorem throw (e : Raised) : Leads I (MonadExcept.throw e) J := by
  intro d a d' hrun
  cases hrun

protected theorem rethrow {g : Raised → Raised} (hx : Leads I x J) :
    Leads I (tryCatch x fun e => throw (g e)) J :=
  fun _ _ _ hrun hd => hx (Runs.rethrow_iff.1 hrun) hd

theorem mono {I' : Graph → Prop} (hI : ∀ g, I' g → I g) (hx : Leads I x J) : Leads I' x J :=
  fun _ _ _ hrun hd => hx hrun (hI _ hd)

protected theorem change {J : Unit → Graph → Prop} {f : Graph → Graph} (h : ∀ g, I g → J () (f g)) :
    Leads I (Loader.change f) J := by
  intro d a d' hrun hd
  cases hrun
  exact h _ hd

protected theorem report (e : Entry) : Leads I (Loader.report e) fun _ => I := by
  intro d a d' hrun hd
  cases hrun
  exact hd

/-- What is known of the graph is known of the draft that is asked for. -/
protected theorem get {f : Draft → Loader α} (h : ∀ d : Draft, I d.graph → Leads (· = d.graph) (f d) J) :
    Leads I (MonadState.get >>= f) J :=
  fun d _ _ hrun hd => h d hd hrun rfl

protected theorem set {J : PUnit → Graph → Prop} {d : Draft} (h : J ⟨⟩ d.graph) :
    Leads I (MonadStateOf.set d) J := by
  intro d₀ a d' hrun _
  cases hrun
  exact h

/-- What a part of reading leads to in two ways holds together. -/
protected theorem and {I' : Graph → Prop} {J' : α → Graph → Prop} (hx : Leads I x J)
    (hx' : Leads I' x J') : Leads (fun g => I g ∧ I' g) x fun a g => J a g ∧ J' a g :=
  fun _ _ _ hrun hd => ⟨hx hrun hd.1, hx' hrun hd.2⟩

/-- What does not depend on the graph is known for good. -/
theorem given {p : Prop} (hx : p → Leads I x J) : Leads (fun g => I g ∧ p) x J :=
  fun _ _ _ hrun hd => hx hd.2 hrun hd.1

/-- What is said of the items that were read so far grows by one item at a time. -/
theorem forM_growing {f : α → Loader PUnit} {I : List α → Graph → Prop}
    (h : ∀ as a, Leads (I as) (f a) fun _ => I (as ++ [a])) (as bs : List α) :
    Leads (I as) (bs.forM f) fun _ => I (as ++ bs) := by
  induction bs generalizing as with
  | nil =>
    rw [List.append_nil]
    exact .pure fun _ hg => hg
  | cons b bs ih =>
    have hrest := ih (as ++ [b])
    rw [List.append_assoc] at hrest
    exact (h as b).bind fun _ => hrest

protected theorem forM {f : α → Loader PUnit} (h : ∀ a, Leads I (f a) fun _ => I) (as : List α) :
    Leads I (as.forM f) fun _ => I := forM_growing (I := fun _ => I) (fun _ => h) [] as

end Leads

/-- A part of reading that looks at the document only comes to a result of some kind. -/
def Yields (x : Loader α) (P : α → Prop) : Prop := ∀ I, Leads I x fun a g => I g ∧ P a

namespace Yields
variable {x : Loader α} {f : α → Loader β} {P : α → Prop} {Q : β → Prop}

protected theorem bind (hx : Yields x P) (hf : ∀ a, P a → Yields (f a) Q) : Yields (x >>= f) Q :=
  fun I => (hx I).bind fun a => .given fun ha => hf a ha I

protected theorem pure {a : α} (h : P a) : Yields (pure a) P := fun _ => .pure fun _ hg => ⟨hg, h⟩

/-- A result that is there already is taken on. -/
theorem pure_bind {a : α} (h : Yields (f a) Q) : Yields (pure a >>= f) Q := h

protected theorem throw (e : Raised) : Yields (MonadExcept.throw e) P := fun _ => .throw e

protected theorem need (r : Except Json.Mismatch α) : Yields (Loader.need r) (r = .ok ·) := by
  cases r with
  | ok a => exact .pure rfl
  | error e => exact .throw _

/-- What a part comes to does not matter if it does not change the graph. -/
theorem then_leads (hx : Yields x P) (hf : ∀ a, P a → Leads I (f a) K) : Leads I (x >>= f) K :=
  (hx I).bind fun a => .given (hf a)

/-- Numbers are read one for each item, as many as asked for. -/
protected theorem numbers (count : Nat) (js : List Json) : Yields (Loader.numbers count js) fun xs =>
    ∃ ds : List Double, (js.take count).map Json.asDouble = ds.map .ok ∧
      xs = ds.map Double.toFloat := by
  rw [Loader.numbers]
  induction js.take count with
  | nil => exact .pure ⟨[], rfl, rfl⟩
  | cons j js ih =>
    rw [List.mapM_cons]
    have hone : Yields (do return (← Loader.need j.asDouble).toFloat) fun x =>
        ∃ d : Double, j.asDouble = .ok d ∧ x = d.toFloat :=
      (Yields.need _).bind fun d hd => .pure ⟨d, hd, rfl⟩
    refine hone.bind fun x hx => ih.bind fun xs hxs => .pure ?_
    obtain ⟨d, hd, rfl⟩ := hx
    obtain ⟨ds, hds, rfl⟩ := hxs
    exact ⟨d :: ds, by rw [List.map_cons, List.map_cons, hd, hds], rfl⟩

/-- A pin that is read stays free of wires and what it is. -/
protected theorem pin (j : Json) {p : Pin} (hp : p.Free) :
    Yields (Loader.pin j p) fun q => q.Free ∧ q.kind = p.kind := by
  simp only [Loader.pin]
  split
  on_goal 1 => refine (Yields.need _).bind fun id _ => .pure_bind ?_
  on_goal 1 =>
    have hq : ({ p with id } : Pin).Free ∧ ({ p with id } : Pin).kind = p.kind :=
      ⟨⟨hp.owned, hp.incoming, hp.outgoing⟩, rfl⟩
  on_goal 2 => refine .pure_bind ?_
  on_goal 2 => have hq : p.Free ∧ p.kind = p.kind := ⟨hp, rfl⟩
  all_goals
    split
    · split
      · exact .pure hq
      · split
        · exact .pure ⟨hq.1.assign _, (Pin.kind_assign _ _).trans hq.2⟩
        · exact .throw _
    · exact .pure hq

protected theorem pinList (js : List Json) {ps : List Pin} (hps : ∀ p ∈ ps, p.Free) :
    Yields (Loader.pinList js ps) fun qs =>
      (∀ q ∈ qs, q.Free) ∧ qs.map Pin.kind = ps.map Pin.kind := by
  induction js generalizing ps with
  | nil => exact .pure ⟨hps, rfl⟩
  | cons j js ih =>
    cases ps with
    | nil => exact .pure ⟨hps, rfl⟩
    | cons p ps =>
      obtain ⟨hp, hps⟩ := List.forall_mem_cons.1 hps
      refine (Yields.pin j hp).bind fun q hq => (ih hps).bind fun qs hqs => .pure ⟨?_, ?_⟩
      · exact List.forall_mem_cons.2 ⟨hq.1, hqs.1⟩
      · rw [List.map_cons, List.map_cons, hq.2, hqs.2]

protected theorem pins (j : Json) (key : String) {ps : List Pin} (hps : ∀ p ∈ ps, p.Free) :
    Yields (Loader.pins j key ps) fun qs =>
      (∀ q ∈ qs, q.Free) ∧ qs.map Pin.kind = ps.map Pin.kind := by
  simp only [Loader.pins]
  split
  · exact .pure ⟨hps, rfl⟩
  · split
    · exact .pinList _ hps
    · exact .throw _

/-- A node that is read is one that the registry made, with the id of its record and the id of the
group that the record names. -/
protected theorem nodeOf {r : Registry} {ids ids' : IdSupply} {n : Node} (j : Json)
    (id type : String) (hcreate : r.create type ids = some (n, ids')) :
    Yields (Loader.nodeOf j id type n) fun m =>
      r.Makes m ∧ m.id = id ∧ j.optionalString "group_id" = .ok m.groupId := by
  have hn := Registry.fresh_of_create hcreate
  simp only [Loader.nodeOf]
  refine (Yields.need _).bind fun name _ => (Yields.need _).bind fun enabled _ =>
    (Yields.need _).bind fun groupId hgroupId => ?_
  have hrest (position : Point Float) : Yields (do
      let inputs ← Loader.pins j "inputs" n.inputs
      let outputs ← Loader.pins j "outputs" n.outputs
      return { n with id, name, enabled, groupId, position, inputs, outputs }) fun m =>
        r.Makes m ∧ m.id = id ∧ j.optionalString "group_id" = .ok m.groupId := by
    refine (Yields.pins j _ (hn.pins .input)).bind fun inputs hin =>
      (Yields.pins j _ (hn.pins .output)).bind fun outputs hout =>
        .pure ⟨⟨?_, hn.group, ?_⟩, rfl, hgroupId⟩
    · refine ⟨n, type, ids, ids', hcreate, rfl, ?_⟩
      rintro (_ | _)
      · exact hin.2
      · exact hout.2
    · rintro (_ | _)
      · exact hin.1
      · exact hout.1
  split
  · exact .pure_bind (hrest _)
  · refine (Yields.numbers 2 _).bind fun xs _ => ?_
    split
    · exact .pure_bind (hrest _)
    · exact .pure_bind (hrest _)

protected theorem category (j : Json) : Yields (Loader.category j) fun _ => True := by
  simp only [Loader.category]
  split
  · exact .pure trivial
  · refine (Yields.need _).bind fun name _ => ?_
    split
    · exact .pure trivial
    · exact .throw _

end Yields

/-! ### What holds all along -/

/-- What holds of a graph goes on to hold whatever is read into it. -/
structure Keeps (r : Registry) (I : Graph → Prop) : Prop where
  supply : ∀ {g}, I g → ∀ ids, I { g with ids }
  node : ∀ {g n}, I g → r.Makes n → I ((g.newNode n).2.insertNode (g.newNode n).1).2
  wire : ∀ {g} {c : Wire}, I g → c.source = none → c.target = none →
    I ((g.newWire c).2.insertWire (g.newWire c).1).2
  claim : ∀ {g}, I g → ∀ k groupId,
    I (g.modifyNode k fun n => { n with groupId := n.groupId.or (some groupId) })
  newGroup : ∀ {g}, I g → ∀ id name bounds,
    I ((g.newGroup name bounds).2.modifyGroup (g.newGroup name bounds).1 fun b => { b with id })
  registerGroup : ∀ {g}, I g → ∀ a, I (g.registerGroup a)
  adoptGroup : ∀ {g}, I g → ∀ parent child, I (g.adoptGroup parent child).2

/-- Giving out a fresh id keeps what does not depend on the ids that are left. -/
theorem Leads.freshId (h : ∀ g, I g → ∀ ids, I { g with ids }) :
    Leads I Loader.freshId fun _ => I := by
  intro d a d' hrun hd
  obtain ⟨-, rfl⟩ := Prod.mk.inj ((Runs.freshId d.graph d.journal).symm.trans hrun)
  exact h _ hd _

theorem Leads.graphId (h : ∀ g, I g → ∀ ids, I { g with ids }) (j : Json) :
    Leads I (Loader.graphId j) fun _ => I := by
  simp only [Loader.graphId]
  split
  · exact .pure fun _ hg => hg
  · exact .freshId h

/-- Reading a wire keeps what a new wire and a fresh id leave as it is. -/
theorem Leads.wire (hsupply : ∀ g, I g → ∀ ids, I { g with ids })
    (hwire : ∀ g (c : Wire), I g → c.source = none → c.target = none →
      I ((g.newWire c).2.insertWire (g.newWire c).1).2) (j : Json) :
    Leads I (Loader.wire j) fun _ => I := by
  have hends (id : String) (s t : Json) : Leads I (do
      let sourceId ← need s.asString
      let targetId ← need t.asString
      let c : Wire := { id, sourceId, targetId }
      Loader.change fun g => ((g.newWire c).2.insertWire (g.newWire c).1).2) fun _ => I :=
    (Yields.need _).then_leads fun _ _ => (Yields.need _).then_leads fun _ _ =>
      .change fun _ hg => hwire _ _ hg rfl rfl
  simp only [Loader.wire]
  split
  · split
    · exact (Yields.need _).then_leads fun id _ => hends id _ _
    · exact (Leads.freshId hsupply).bind fun id => hends id _ _
  · exact .throw _

/-- What holds after each part of a document holds of the graph that is relinked at the end. -/
theorem Leads.document {r : Registry} {I₀ I₁ I₂ I₃ I₄ : Graph → Prop} {P : Category → Prop}
    {j : Json} (hcategory : Yields (Loader.category j) P)
    (hsupply : ∀ g, I₀ g → ∀ ids, I₀ { g with ids })
    (hhead : ∀ {g}, I₀ g → ∀ id name category, P category →
      I₁ { g with id, name, category, replaceInputs := true, mainId := none })
    (hnodes : Leads I₁ ((itemsOf j "nodes").forM (Loader.node r)) fun _ => I₂)
    (hwires : Leads I₂ ((itemsOf j "connections").forM Loader.wire) fun _ => I₃)
    (hgroups : Leads I₃ (Loader.groups .empty (itemsOf j "groups")) fun _ => I₄)
    (hmain : ∀ {g}, I₄ g → ∀ mainId, I₄ { g with mainId }) :
    Leads I₀ (Loader.document r j) fun _ g => ∃ u : Graph, I₄ u ∧ g = u.relink.1 := by
  simp only [Loader.document, Loader.members]
  split
  · exact .throw _
  · refine .rethrow ?_
    refine (Yields.need _).then_leads fun name _ => (Leads.graphId hsupply j).bind fun id =>
      hcategory.then_leads fun category hP => ?_
    refine (Leads.change (J := fun _ => I₁) fun g hg => hhead hg id name category hP).bind
      fun _ => ?_
    refine hnodes.bind fun _ => hwires.bind fun _ => hgroups.bind fun _ => ?_
    refine (Yields.need _).then_leads fun mainId _ => .get fun d hd => .set ?_
    exact ⟨{ d.graph with mainId }, hmain hd mainId, rfl⟩

namespace Keeps
variable {r : Registry}

variable (hI : Keeps r I)
include hI

protected theorem freshId : Leads I Loader.freshId fun _ => I := .freshId fun _ hg => hI.supply hg

theorem readNode (j : Json) : Leads I (Loader.node r j) fun _ => I := by
  simp only [Loader.node]
  split
  · refine (Yields.need _).then_leads fun id _ => (Yields.need _).then_leads fun type _ =>
      .get fun d hd => ?_
    split
    · exact (Leads.report _).mono (fun g hg => hg ▸ hd)
    · next n ids hcreate =>
      refine (Leads.set (J := fun _ => I) (hI.supply hd ids)).bind fun _ => ?_
      exact (Yields.nodeOf j id type hcreate).then_leads fun m hm =>
        .change fun g hg => hI.node hg hm.1
  · exact .throw _

theorem readWire (j : Json) : Leads I (Loader.wire j) fun _ => I :=
  .wire (fun _ hg => hI.supply hg) (fun _ _ hg => hI.wire hg) j

theorem readClaim (groupId : String) (j : Json) : Leads I (Loader.claim groupId j) fun _ => I := by
  refine (Yields.need _).then_leads fun id _ => .change fun g hg => ?_
  split
  · exact hI.claim hg _ _
  · exact hg

theorem place (read : Dict GroupKey) (parent : Option String) (a : GroupKey) :
    Leads I (Loader.place read parent a) fun _ => I := by
  simp only [Loader.place]
  split
  · exact .change fun g hg => hI.registerGroup hg a
  · split
    · exact .change fun g hg => hI.adoptGroup hg _ _
    · exact (Leads.report _).bind fun _ => .change fun g hg => hI.registerGroup hg a

theorem readMembers (read : Dict GroupKey) (j : Json) (name id : String) (bounds : Rect Float) :
    Leads I (do
      (itemsOf j "node_ids").forM (Loader.claim id)
      let parent ← need (j.optionalString "parent_id")
      let d ← get
      let (a, graph) := d.graph.newGroup name bounds
      set { d with graph := graph.modifyGroup a fun b => { b with id } }
      Loader.place read parent a
      return if read.has id then read else read.insert id a : Loader (Dict GroupKey))
      fun _ => I := by
  refine (Leads.forM (hI.readClaim id) _).bind fun _ =>
    (Yields.need _).then_leads fun parent _ => .get fun d hd => ?_
  refine (Leads.set (J := fun _ => I) (hI.newGroup hd id name bounds)).bind fun _ => ?_
  exact (hI.place read parent _).bind fun _ => .pure fun g hg => hg

theorem readGroup (read : Dict GroupKey) (j : Json) :
    Leads I (Loader.group read j) fun _ => I := by
  simp only [Loader.group]
  refine (Yields.need _).then_leads fun name _ => hI.freshId.bind fun fresh => ?_
  split
  on_goal 1 => refine (Yields.need _).then_leads fun id _ => ?_
  all_goals
    split
    · exact hI.readMembers read j name _ _
    · refine (Yields.numbers 4 _).then_leads fun xs _ => ?_
      split
      · exact hI.readMembers read j name _ _
      · exact hI.readMembers read j name _ _

theorem readGroups (read : Dict GroupKey) (js : List Json) :
    Leads I (Loader.groups read js) fun _ => I := by
  induction js generalizing read with
  | nil => exact .pure fun _ hg => hg
  | cons j js ih => exact (hI.readGroup read j).bind ih

/-- What holds once the graph has its head and goes on to hold is true of the graph that is relinked
at the end. -/
theorem document {I₀ : Graph → Prop} {P : Category → Prop} {j : Json}
    (hcategory : Yields (Loader.category j) P)
    (hsupply : ∀ g, I₀ g → ∀ ids, I₀ { g with ids })
    (hhead : ∀ {g}, I₀ g → ∀ id name category, P category →
      I { g with id, name, category, replaceInputs := true, mainId := none })
    (hmain : ∀ {g}, I g → ∀ mainId, I { g with mainId }) :
    Leads I₀ (Loader.document r j) fun _ g => ∃ u : Graph, I u ∧ g = u.relink.1 :=
  .document hcategory hsupply hhead (.forM hI.readNode _) (.forM hI.readWire _)
    (hI.readGroups .empty _) hmain

end Keeps

/-- A graph stays unresolved while it is read. -/
theorem keeps_unresolved (r : Registry) : Keeps r Graph.Unresolved where
  supply hg _ := ⟨{ hg.groups with }, { hg.nodes with }, { hg.wires with }⟩
  node hg hn := hg.addNode hn.group hn.free
  wire hg hs ht := hg.addWire hs ht
  claim hg k _ := hg.modifyNode k (fun _ => rfl) fun _ s => by cases s <;> rfl
  newGroup hg := hg.newGroup
  registerGroup hg := hg.registerGroup
  adoptGroup hg := hg.adoptGroup

end Loader

/-- What reading a document leads to holds of the graph that it comes to. -/
theorem of_load {r : Registry} {empty g : Graph} {j : Json} {I₀ J : Graph → Prop}
    (hleads : Loader.Leads I₀ (Loader.document r j) fun _ => J) (hempty : I₀ empty)
    (h : (load r empty j).result = .ok g) : J g := by
  simp only [load] at h
  split at h
  · next d hrun =>
    cases h
    exact hleads hrun hempty
  · cases h

/-- A graph that a document comes to is an unresolved graph that was relinked. -/
theorem exists_unresolved_of_load {r : Registry} {ids : IdSupply} {name : String}
    {category : Category} {j : Json} {g : Graph}
    (h : (load r (.new ids name category) j).result = .ok g) :
    ∃ u : Graph, u.Unresolved ∧ g = u.relink.1 := by
  have hkeeps := Loader.keeps_unresolved r
  refine of_load (hkeeps.document (.category j) (fun _ hg => hkeeps.supply hg) ?_ ?_)
    (.new ids name category) h
  · exact fun hg _ _ _ _ => ⟨{ hg.groups with }, { hg.nodes with }, { hg.wires with }⟩
  · exact fun hg _ => ⟨{ hg.groups with }, { hg.nodes with }, { hg.wires with }⟩

end Document
end Patchbay
