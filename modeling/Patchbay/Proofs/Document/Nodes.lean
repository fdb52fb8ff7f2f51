import Mathlib.Data.List.Forall2
import Patchbay.Proofs.Document.Loader
import Patchbay.Proofs.Edit
/-!
# Reading nodes and wires

The nodes of a document come into an empty graph one after the other, and so do the wires, which
have no ends yet. Nothing is left out as long as no id is used twice and the registry makes nodes
of every type with the pins that the document expects.

## Main definitions

* `Node.Alike`: two nodes of one type with pins of the same names and types.
* `Registry.Covers`: a registry makes nodes alike to those of a graph.
* `Node.Reads`: a node that was read is the node that was written, on its own.

## Main statements

* `Loader.Runs.nodes`, `Loader.Runs.wires`: nodes and wires are read in their order.
-/
namespace Patchbay
universe u

namespace Arena
variable {α : Type u}

/-- The arena of some values, none of which is dead. -/
def ofList (xs : List α) : Arena α := ⟨(xs.map some).toArray⟩

@[simp] theorem next_ofList (xs : List α) : (ofList xs).next = xs.length := by
  simp [next, ofList]

@[simp] theorem get?_ofList (xs : List α) (k : Nat) : (ofList xs).get? k = xs[k]? := by
  cases h : xs[k]? <;> simp [get?, ofList, h]

@[simp] theorem push_ofList (xs : List α) (x : α) : (ofList xs).push x = ofList (xs ++ [x]) := by
  simp [push, ofList]

/-- Two changes that agree on the value under a key. -/
theorem modify_congr {a : Arena α} {k : Nat} {f h : α → α}
    (hfh : ∀ x, a.get? k = some x → f x = h x) : a.modify k f = a.modify k h := by
  refine congrArg Arena.mk (Array.ext_getElem? fun i => ?_)
  rw [Array.getElem?_modify, Array.getElem?_modify]
  split
  · next hk =>
    subst hk
    cases hc : a.cells[k]? with
    | none => rfl
    | some c =>
      cases c with
      | none => rfl
      | some x => simp [hfh x (by simp [get?, hc])]
  · rfl

/-- A change that changes nothing. -/
theorem modify_eq_self {a : Arena α} {k : Nat} {f : α → α}
    (h : ∀ x, a.get? k = some x → f x = x) : a.modify k f = a := by
  rw [modify_congr (h := fun x => x) h]
  refine congrArg Arena.mk (Array.ext_getElem? fun i => ?_)
  rw [Array.getElem?_modify]
  cases a.cells[i]? <;> simp

end Arena

/-- What a registry has to say about a pin. -/
def Pin.kind (p : Pin) : String × ValueType × Bool := (p.name, p.type, p.flow)

/-- Two nodes of one type, with pins of the same names and types. -/
structure Node.Alike (n m : Node) : Prop where
  type : m.type = n.type
  pins : ∀ s, (m.pins s).map Pin.kind = (n.pins s).map Pin.kind

/-- A registry makes nodes alike to the members of a graph. -/
def Registry.Covers (r : Registry) (g : Graph) : Prop :=
  ∀ k ∈ g.members, ∀ n, g.node? k = some n → ∀ ids,
    ∃ m ids', r.create n.type ids = some (m, ids') ∧ n.Alike m

/-- A node that was read is the node that was written, on its own: it is in no group, and no wire
ends at it. -/
def Node.Reads (n l : Node) : Prop := ∃ m : Node, m.Fresh ∧ n.Alike m ∧ l = n.restored m

/-- A wire as it is read, without its ends. -/
def Wire.loose (c : Wire) : Wire := { id := c.id, sourceId := c.sourceId, targetId := c.targetId }

/-- A registry makes fresh nodes. -/
theorem Registry.fresh_of_create {r : Registry} {type : String} {ids ids' : IdSupply} {n : Node}
    (h : r.create type ids = some (n, ids')) : n.Fresh := by
  obtain ⟨e, -, h⟩ := Option.bind_eq_some_iff.1 h
  split at h
  · next d hd =>
    have hn := d.fresh_make ids
    rwa [Option.some.inj h] at hn
  · next f hf => exact f.fresh h

namespace Node.Alike
variable {n m : Node}

theorem flows (a : n.Alike m) (s : Side) :
    (m.pins s).map (·.flow) = (n.pins s).map (·.flow) := by
  have h := congrArg (List.map fun k => k.2.2) (a.pins s)
  rwa [List.map_map, List.map_map] at h

end Node.Alike

/-- A node of a new id becomes the last member. -/
theorem Graph.insertNode_of_new {g : Graph} {k : NodeKey} {n : Node} (hn : g.node? k = some n)
    (hid : g.nodeWithId? n.id = none) :
    g.insertNode k =
      (k, { g with members := g.members ++ [k], index := g.index.insert n.id k }) := by
  simp only [Graph.insertNode, hn, hid]

namespace Document.Loader.Runs
variable {r : Registry} {g : Graph} {j : Journal}

/-- A node of a new id is read into the graph as its last member. -/
theorem node {n m : Node} {ids : IdSupply} (hcreate : r.create n.type g.ids = some (m, ids))
    (hm : n.Alike m) (hid : g.nodeWithId? n.id = none) :
    Runs (Loader.node r (ofNode n)) ⟨g, j⟩ ⟨⟩
      ⟨{ g with
          ids
          nodes := g.nodes.push (n.restored m)
          members := g.members ++ [g.nodes.next]
          index := g.index.insert n.id g.nodes.next }, j⟩ := by
  let g₁ : Graph := { g with ids, nodes := g.nodes.push (n.restored m) }
  have hnew : g₁.node? g.nodes.next = some (n.restored m) := by
    simp [g₁, Graph.node?, Arena.get?_push]
  have hinsert := Graph.insertNode_of_new hnew hid
  simp only [Loader.node]
  refine (Runs.need n.id _).bind ((Runs.need n.type _).bind ((Runs.get _).bind ?_))
  simp only [hcreate]
  refine (Runs.set _ _).bind ((Runs.nodeOf hm.flows n.type _).bind ?_)
  change (Except.ok (), Draft.mk (g₁.insertNode g.nodes.next).2 j) = _
  rw [hinsert]
  rfl

/-- The nodes of a document are read as the members of the graph, in their order. -/
theorem nodes {ns : List Node} (hr : ∀ n ∈ ns, ∀ ids, ∃ m ids',
    r.create n.type ids = some (m, ids') ∧ n.Alike m) {ls : List Node}
    (hnodes : g.nodes = .ofList ls) (hmembers : g.members = List.range ls.length)
    (hindex : ∀ id k, g.nodeWithId? id = some k → ∃ l, ls[k]? = some l ∧ l.id = id)
    (hids : (ls.map (·.id) ++ ns.map (·.id)).Nodup) :
    ∃ ids index ls', List.Forall₂ Node.Reads ns ls' ∧
      (∀ id k, index.get? id = some k → ∃ l, (ls ++ ls')[k]? = some l ∧ l.id = id) ∧
      Runs ((ns.map ofNode).forM (Loader.node r)) ⟨g, j⟩ ⟨⟩
        ⟨{ g with
            ids
            nodes := .ofList (ls ++ ls')
            members := List.range (ls ++ ls').length
            index }, j⟩ := by
  induction ns generalizing g ls with
  | nil =>
    refine ⟨g.ids, g.index, [], .nil, ?_, ?_⟩
    · simpa [Graph.nodeWithId?] using hindex
    · rw [List.append_nil, ← hnodes, ← hmembers]
      exact Runs.forM_nil _ _
  | cons n ns ih =>
    obtain ⟨m, ids₁, hcreate, hm⟩ := hr n List.mem_cons_self g.ids
    have hid : g.nodeWithId? n.id = none := by
      cases hk : g.nodeWithId? n.id with
      | none => rfl
      | some k =>
        obtain ⟨l, hl, hlid⟩ := hindex _ _ hk
        have hmem : n.id ∈ ls.map (·.id) := List.mem_map.2 ⟨l, List.mem_of_getElem? hl, hlid⟩
        exact absurd rfl ((List.nodup_append.1 hids).2.2 _ hmem _ (by simp))
    have hnode := Runs.node (j := j) hcreate hm hid
    let l := n.restored m
    let g₁ : Graph := { g with
      ids := ids₁
      nodes := g.nodes.push l
      members := g.members ++ [g.nodes.next]
      index := g.index.insert n.id g.nodes.next }
    have hfresh := Registry.fresh_of_create hcreate
    have hnodes₁ : g₁.nodes = .ofList (ls ++ [l]) := by simp [g₁, hnodes]
    have hmembers₁ : g₁.members = List.range (ls ++ [l]).length := by
      simp [g₁, hnodes, hmembers, List.range_succ]
    have hindex₁ (id : String) (k : NodeKey) (hk : g₁.nodeWithId? id = some k) :
        ∃ l', (ls ++ [l])[k]? = some l' ∧ l'.id = id := by
      simp only [g₁, Graph.nodeWithId?, Dict.get?_insert] at hk
      split at hk
      · next h =>
        cases hk
        exact ⟨l, by simp [hnodes], h.symm⟩
      · obtain ⟨l', hl', hid'⟩ := hindex id k hk
        exact ⟨l', List.getElem?_append_left (List.getElem?_eq_some_iff.1 hl').1 ▸ hl', hid'⟩
    have hids₁ : ((ls ++ [l]).map (·.id) ++ ns.map (·.id)).Nodup := by
      simpa [l, Node.restored] using hids
    obtain ⟨ids, index, ls', hreads, hfound, hrun⟩ :=
      ih (g := g₁) (fun n hn => hr n (List.mem_cons_of_mem _ hn)) hnodes₁ hmembers₁ hindex₁ hids₁
    rw [List.append_assoc] at hfound hrun
    exact ⟨ids, index, l :: ls', .cons ⟨m, hfresh, hm, rfl⟩ hreads, hfound,
      Runs.forM_cons hnode hrun⟩

/-- A wire of a new id is read as the last wire of the graph. -/
theorem wire {ws : List Wire} (hwires : g.wires = .ofList ws)
    (hlinks : g.links = List.range ws.length) {c : Wire} (hid : c.id ∉ ws.map (·.id)) :
    Runs (Loader.wire (ofWire c)) ⟨g, j⟩ ⟨⟩
      ⟨{ g with
          wires := .ofList (ws ++ [c.loose])
          links := List.range (ws ++ [c.loose]).length }, j⟩ := by
  let g₁ : Graph := { g with wires := .ofList (ws ++ [c.loose]) }
  have hnone : g₁.wireWithId? c.id = none := by
    rw [Graph.wireWithId?, List.find?_eq_none]
    intro w hw
    rw [show g₁.links = List.range ws.length from hlinks, List.mem_range] at hw
    have hget : g₁.wire? w = some ws[w] := by
      simp [g₁, Graph.wire?, List.getElem?_append_left hw]
    rw [hget, Option.any_some, decide_eq_true_eq]
    exact fun h => hid (List.mem_map.2 ⟨ws[w], List.getElem_mem hw, h⟩)
  have hinsert :
      g₁.insertWire ws.length = (ws.length, { g₁ with links := g₁.links ++ [ws.length] }) := by
    have hget : g₁.wire? ws.length = some c.loose := by simp [g₁, Graph.wire?]
    simp only [Graph.insertWire, hget, Option.bind_some]
    rw [show c.loose.id = c.id from rfl, hnone]
  refine (Runs.need c.id _).bind ((Runs.need c.sourceId _).bind ((Runs.need c.targetId _).bind ?_))
  change (Except.ok (), Draft.mk
    (({ g with wires := g.wires.push c.loose } : Graph).insertWire g.wires.next).2 j) = _
  rw [hwires, Arena.push_ofList, Arena.next_ofList, hinsert]
  simp [g₁, hlinks, List.range_succ]

/-- The wires of a document are read as the wires of the graph, in their order. -/
theorem wires {cs ws : List Wire} (hwires : g.wires = .ofList ws)
    (hlinks : g.links = List.range ws.length)
    (hids : (ws.map (·.id) ++ cs.map (·.id)).Nodup) :
    Runs ((cs.map ofWire).forM Loader.wire) ⟨g, j⟩ ⟨⟩
      ⟨{ g with
          wires := .ofList (ws ++ cs.map Wire.loose)
          links := List.range (ws ++ cs.map Wire.loose).length }, j⟩ := by
  induction cs generalizing g ws with
  | nil =>
    rw [List.map_nil, List.map_nil, List.append_nil, ← hwires, ← hlinks]
    exact Runs.forM_nil _ _
  | cons c cs ih =>
    have hnew : c.id ∉ ws.map (·.id) := fun h =>
      (List.nodup_append.1 hids).2.2 _ h _ (by simp) rfl
    have hids₁ : ((ws ++ [c.loose]).map (·.id) ++ cs.map (·.id)).Nodup := by
      simpa [Wire.loose] using hids
    have hrest := ih (g := { g with
      wires := .ofList (ws ++ [c.loose])
      links := List.range (ws ++ [c.loose]).length }) rfl rfl hids₁
    rw [List.append_assoc] at hrest
    exact Runs.forM_cons (wire hwires hlinks hnew) hrest

end Document.Loader.Runs
end Patchbay
