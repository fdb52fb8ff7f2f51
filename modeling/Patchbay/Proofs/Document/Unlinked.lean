import Patchbay.Proofs.Document.Index
import Patchbay.Proofs.Document.Whole
/-!
# Where things go

The nodes and wires of a graph go to the first keys of the graph that is read, in their order. Every
node and pin that is read stands for exactly one that was written.

## Main definitions

* `Graph.nodeSpot`, `Graph.wireSpot`: the new keys of nodes and wires.
* `PinRef.move`: a pin of a node under another key.

## Main statements

* `Graph.pin?_unlinked`, `Graph.exists_of_pin?_unlinked`: pins go to the new keys of their nodes.
-/
namespace Patchbay

/-- The pin of a node under another key. -/
def PinRef.move (f : NodeKey → NodeKey) (r : PinRef) : PinRef := { r with node := f r.node }

namespace Graph

/-- The place of a node among the members. -/
def nodeSpot (g : Graph) (k : NodeKey) : NodeKey := g.members.idxOf k

/-- The place of a wire among the wires of the graph. -/
def wireSpot (g : Graph) (w : WireKey) : WireKey := g.links.idxOf w

/-- The places in a list without repetitions are the first numbers. -/
theorem map_idxOf {xs : List Nat} (hn : xs.Nodup) :
    xs.map xs.idxOf = List.range xs.length := by
  refine List.ext_getElem (by simp) fun i h _ => ?_
  rw [List.length_map] at h
  simp [hn.idxOf_getElem i h]

variable {g : Graph} {ls : List Node} (index : Dict NodeKey) (ids : IdSupply)

theorem getElem?_memberNodes (hg : g.Listed) (i : Nat) :
    g.memberNodes[i]? = g.members[i]?.bind g.node? :=
  getElem?_filterMap_of_isSome hg.members_live i

theorem getElem?_linkWires (hg : g.Listed) (i : Nat) :
    g.linkWires[i]? = g.links[i]?.bind g.wire? :=
  getElem?_filterMap_of_isSome hg.links_live i

theorem node?_unlinked_eq {index : Dict NodeKey} {ids : IdSupply} (i : NodeKey) :
    (g.unlinked ls index ids).node? i = ls[i]? :=
  Arena.get?_ofList ls i

/-- A member goes to its new key. -/
theorem node?_unlinked (hg : g.Listed) (hreads : List.Forall₂ Node.Reads g.memberNodes ls)
    {k : NodeKey} {n : Node} (hk : k ∈ g.members) (hn : g.node? k = some n) :
    ∃ l, (g.unlinked ls index ids).node? (g.nodeSpot k) = some l ∧ n.Reads l := by
  rw [node?_unlinked_eq]
  refine getElem?_of_related hreads ?_
  rw [getElem?_memberNodes hg, nodeSpot, List.getElem?_idxOf hk]
  exact hn

/-- Every node that was read stands for a member. -/
theorem exists_of_node?_unlinked {index : Dict NodeKey} {ids : IdSupply} (hg : g.Listed)
    (hreads : List.Forall₂ Node.Reads g.memberNodes ls) {i : NodeKey} {l : Node}
    (hl : (g.unlinked ls index ids).node? i = some l) :
    ∃ k ∈ g.members, g.nodeSpot k = i ∧ ∃ n, g.node? k = some n ∧ n.Reads l := by
  rw [node?_unlinked_eq] at hl
  obtain ⟨n, hn, hread⟩ := getElem?_of_related' hreads hl
  rw [getElem?_memberNodes hg] at hn
  obtain ⟨k, hk, hkn⟩ := Option.bind_eq_some_iff.1 hn
  obtain ⟨hi, rfl⟩ := List.getElem?_eq_some_iff.1 hk
  exact ⟨_, List.getElem_mem hi, hg.members_nodup.idxOf_getElem i hi, n, hkn, hread⟩

/-- A pin of a member goes where its node goes. -/
theorem pin?_unlinked (hg : g.Listed) (hreads : List.Forall₂ Node.Reads g.memberNodes ls)
    {r : PinRef} {p : Pin} (hr : r.node ∈ g.members) (hp : g.pin? r = some p) :
    ∃ q, (g.unlinked ls index ids).pin? (r.move g.nodeSpot) = some q ∧ p.Reads q := by
  obtain ⟨n, hn, hi⟩ := Option.bind_eq_some_iff.1 hp
  obtain ⟨l, hl, hread⟩ := node?_unlinked index ids hg hreads hr hn
  obtain ⟨q, hq, hpq⟩ := getElem?_of_related (hread.pins r.side) hi
  refine ⟨q, ?_, hpq⟩
  change ((g.unlinked ls index ids).node? (g.nodeSpot r.node)).bind _ = some q
  rw [hl]
  exact hq

/-- Every pin that was read stands for a pin of a member. -/
theorem exists_of_pin?_unlinked {index : Dict NodeKey} {ids : IdSupply} (hg : g.Listed)
    (hreads : List.Forall₂ Node.Reads g.memberNodes ls) {r : PinRef} {q : Pin}
    (hq : (g.unlinked ls index ids).pin? r = some q) :
    ∃ r' p, r'.node ∈ g.members ∧ r'.move g.nodeSpot = r ∧ g.pin? r' = some p ∧ p.Reads q := by
  obtain ⟨l, hl, hi⟩ := Option.bind_eq_some_iff.1 hq
  obtain ⟨k, hk, hspot, n, hn, hread⟩ := exists_of_node?_unlinked hg hreads hl
  obtain ⟨p, hp, hpq⟩ := getElem?_of_related' (hread.pins r.side) hi
  refine ⟨⟨k, r.side, r.index⟩, p, hk, ?_, ?_, hpq⟩
  · simp only [PinRef.move, hspot]
  · simp only [pin?, hn, Option.bind_some]
    exact hp

/-- A wire goes to its new key and loses its ends. -/
theorem wire?_unlinked (ls : List Node) (hg : g.Listed) {w : WireKey} {c : Wire} (hwl : w ∈ g.links)
    (hc : g.wire? w = some c) :
    (g.unlinked ls index ids).wire? (g.wireSpot w) = some c.loose := by
  have hget : g.linkWires[g.wireSpot w]? = some c := by
    rw [getElem?_linkWires hg, wireSpot, List.getElem?_idxOf hwl]
    exact hc
  have harena : (g.unlinked ls index ids).wire? (g.wireSpot w) =
      (g.linkWires.map Wire.loose)[g.wireSpot w]? := Arena.get?_ofList _ _
  rw [harena, List.getElem?_map, hget]
  rfl

theorem links_unlinked (ls : List Node) (hg : g.Listed) :
    (g.unlinked ls index ids).links = g.links.map g.wireSpot := by
  have hlength : g.linkWires.length = g.links.length :=
    List.filterMap_length_eq_length.2 hg.links_live
  change List.range g.linkWires.length = _
  rw [hlength]
  exact (map_idxOf hg.links_nodup).symm

theorem members_unlinked (hg : g.Listed) (hreads : List.Forall₂ Node.Reads g.memberNodes ls) :
    (g.unlinked ls index ids).members = g.members.map g.nodeSpot := by
  have hlength : g.memberNodes.length = g.members.length :=
    List.filterMap_length_eq_length.2 hg.members_live
  change List.range ls.length = _
  rw [← hreads.length_eq, hlength]
  exact (map_idxOf hg.members_nodup).symm

end Graph
end Patchbay
