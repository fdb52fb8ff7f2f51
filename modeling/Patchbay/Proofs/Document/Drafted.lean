import Patchbay.Proofs.Document.Unresolved
/-!
# Ids in drafts

While a document is read, a node or a wire whose id is taken is left out, whatever the document
says. So the ids of those that stay are distinct, and the registry made every node among them.

## Main definitions

* `Registry.Drafts`: the graphs that documents are read into.

## Main statements

* `Document.Loader.keeps_drafts`: reading goes on with such a graph.
* `Document.exists_drafts_of_load`: a graph that a document comes to was such a graph before it was
  relinked.
-/
namespace Patchbay

/-- A graph as it is while a document is read: nodes and wires have distinct ids, the nodes are
found under theirs, and the registry made them. -/
structure Registry.Drafts (r : Registry) (u : Graph) : Prop where
  unresolved : u.Unresolved
  found : ∀ {k n}, u.node? k = some n → (u.nodeWithId? n.id).isSome = true
  nodes : ∀ {j k m n}, u.node? j = some m → u.node? k = some n → m.id = n.id → j = k
  wires : ∀ {v w c d}, v ∈ u.links → w ∈ u.links → u.wire? v = some c → u.wire? w = some d →
    c.id = d.id → v = w
  made : ∀ {k n}, u.node? k = some n →
    ∃ m type ids ids', r.create type ids = some (m, ids') ∧ m.Alike n

namespace Registry.Drafts
variable {r : Registry} {g h u : Graph}

theorem new (r : Registry) (ids : IdSupply) (name : String) (category : Category) :
    r.Drafts (.new ids name category) :=
  ⟨.new ids name category, nofun, nofun, nofun, nofun⟩

/-- Ids are distinct whatever becomes of groups. -/
theorem of_eq (hg : r.Drafts g) (hu : h.Unresolved) (hnodes : h.nodes = g.nodes)
    (hindex : h.index = g.index) (hwires : h.wires = g.wires) (hlinks : h.links = g.links) :
    r.Drafts h := by
  have hnode : h.node? = g.node? := funext fun k => by rw [Graph.node?, hnodes]; rfl
  have hwire : h.wire? = g.wire? := funext fun w => by rw [Graph.wire?, hwires]; rfl
  refine ⟨hu, fun hn => ?_, fun hm hn => ?_, fun hv hw hc hd => ?_, fun hn => ?_⟩
  · rw [hnode] at hn
    rw [Graph.nodeWithId?, hindex]
    exact hg.found hn
  · rw [hnode] at hm hn
    exact hg.nodes hm hn
  · rw [hlinks] at hv hw
    rw [hwire] at hc hd
    exact hg.wires hv hw hc hd
  · rw [hnode] at hn
    exact hg.made hn

/-- A node whose id is taken is left out. -/
theorem addNode (hg : r.Drafts g) {n : Node} (hn : r.Makes n) :
    r.Drafts ((g.newNode n).2.insertNode (g.newNode n).1).2 := by
  have hu := hg.unresolved.addNode hn.group hn.free
  obtain ⟨nodes, members, index, heq, hcases⟩ :=
    hg.unresolved.exists_addNode hn.group hn.free
  rw [heq] at hu ⊢
  rcases hcases with ⟨-, rfl, rfl, hsame⟩ | ⟨hnew, rfl, rfl, hnode⟩
  · have hold {k : NodeKey} {m : Node} (hm : nodes.get? k = some m) : g.node? k = some m :=
      (hsame k).symm.trans hm
    exact ⟨hu, fun hm => hg.found (hold hm), fun hm hl => hg.nodes (hold hm) (hold hl), hg.wires,
      fun hm => hg.made (hold hm)⟩
  · have hcases {k : NodeKey} {m : Node} (hm : nodes.get? k = some m) :
        k = g.nodes.next ∧ m = n ∨ g.node? k = some m ∧ m.id ≠ n.id := by
      rw [hnode] at hm
      split at hm
      · next hk => exact .inl ⟨hk, (Option.some.inj hm).symm⟩
      · refine .inr ⟨hm, fun hid => ?_⟩
        have hfound := hg.found hm
        rw [hid, hnew] at hfound
        cases hfound
    refine ⟨hu, fun {k m} hm => ?_, fun {j k m l} hm hl hid => ?_, hg.wires, fun {k m} hm => ?_⟩
    · change ((g.index.insert n.id g.nodes.next).get? m.id).isSome = true
      rw [Dict.get?_insert]
      split
      · rfl
      · next hne =>
        rcases hcases hm with ⟨-, rfl⟩ | ⟨hm, -⟩
        · exact absurd rfl hne
        · exact hg.found hm
    · rcases hcases hm with ⟨rfl, rfl⟩ | ⟨hm, hmn⟩ <;> rcases hcases hl with ⟨rfl, rfl⟩ | ⟨hl, hln⟩
      · rfl
      · exact absurd hid.symm hln
      · exact absurd hid hmn
      · exact hg.nodes hm hl hid
    · rcases hcases hm with ⟨-, rfl⟩ | ⟨hm, -⟩
      · exact hn.alike
      · exact hg.made hm

/-- A wire whose id is taken is left out. -/
theorem addWire (hg : r.Drafts g) {c : Wire} (hs : c.source = none) (ht : c.target = none) :
    r.Drafts ((g.newWire c).2.insertWire (g.newWire c).1).2 := by
  have hu := hg.unresolved.addWire hs ht
  obtain ⟨wires, links, heq, hcases⟩ := hg.unresolved.exists_addWire hs ht
  rw [heq] at hu ⊢
  rcases hcases with ⟨rfl, hsame⟩ | ⟨hnew, rfl, -, hwire⟩
  · have hold {w : WireKey} {d : Wire} (hd : wires.get? w = some d) : g.wire? w = some d :=
      (hsame w).symm.trans hd
    exact ⟨hu, hg.found, hg.nodes, fun hv hw hc hd => hg.wires hv hw (hold hc) (hold hd), hg.made⟩
  · have hcases {w : WireKey} {d : Wire} (hw : w ∈ g.links ++ [g.wires.next])
        (hd : wires.get? w = some d) : w = g.wires.next ∧ d = c ∨
          w ∈ g.links ∧ g.wire? w = some d ∧ d.id ≠ c.id := by
      rw [hwire] at hd
      split at hd
      · next hwn => exact .inl ⟨hwn, (Option.some.inj hd).symm⟩
      · next hne =>
        have hlink := (List.mem_append.1 hw).resolve_right fun h => hne (List.mem_singleton.1 h)
        exact .inr ⟨hlink, hd, hnew w hlink d hd⟩
    refine ⟨hu, hg.found, hg.nodes, fun {v w d e} hv hw hd he hid => ?_, hg.made⟩
    rcases hcases hv hd with ⟨rfl, rfl⟩ | ⟨hv, hd, hdc⟩ <;>
      rcases hcases hw he with ⟨rfl, rfl⟩ | ⟨hw, he, hec⟩
    · rfl
    · exact absurd hid.symm hec
    · exact absurd hid hdc
    · exact hg.wires hv hw hd he hid

/-- Something is noted on a node that has nothing to do with its id and what the registry says. -/
theorem modifyNode (hg : r.Drafts g) (k : NodeKey) {f : Node → Node}
    (hu : (g.modifyNode k f).Unresolved) (hid : ∀ n, (f n).id = n.id)
    (halike : ∀ m n : Node, m.Alike n → m.Alike (f n)) : r.Drafts (g.modifyNode k f) := by
  have hcases {j : NodeKey} {n : Node} (hn : (g.modifyNode k f).node? j = some n) :
      ∃ m, g.node? j = some m ∧ n.id = m.id ∧ ∀ l : Node, l.Alike m → l.Alike n := by
    rw [Graph.node?_modifyNode] at hn
    split at hn
    · obtain ⟨m, hm, rfl⟩ := Option.map_eq_some_iff.1 hn
      exact ⟨m, hm, hid m, fun l => halike l m⟩
    · exact ⟨n, hn, rfl, fun _ hl => hl⟩
  refine ⟨hu, fun {j n} hn => ?_, fun {i j m n} hm hn he => ?_, hg.wires, fun {j n} hn => ?_⟩
  · obtain ⟨m, hm, hmn, -⟩ := hcases hn
    rw [hmn]
    exact hg.found hm
  · obtain ⟨m', hm', hmid, -⟩ := hcases hm
    obtain ⟨n', hn', hnid, -⟩ := hcases hn
    exact hg.nodes hm' hn' (hmid.symm.trans (he.trans hnid))
  · obtain ⟨m, hm, -, hmn⟩ := hcases hn
    obtain ⟨l, type, ids, ids', hcreate, hl⟩ := hg.made hm
    exact ⟨l, type, ids, ids', hcreate, hmn l hl⟩

theorem registerGroup (hg : r.Drafts g) (a : GroupKey) : r.Drafts (g.registerGroup a) := by
  have hwiring := Graph.sameWiring_registerGroup g a
  refine hg.of_eq (hg.unresolved.registerGroup a) ?_ hwiring.index hwiring.wires hwiring.links
  simp only [Graph.registerGroup]
  split <;> rfl

theorem adoptGroup (hg : r.Drafts g) (parent : GroupKey) (child : Option GroupKey) :
    r.Drafts (g.adoptGroup parent child).2 := by
  have hwiring := Graph.sameWiring_adoptGroup g parent child
  refine hg.of_eq (hg.unresolved.adoptGroup parent child) ?_ hwiring.index hwiring.wires
    hwiring.links
  simp only [Graph.adoptGroup, Graph.dropGroup,
    Graph.clearTree_of_empty hg.unresolved.groups.empty]
  split
  · rfl
  · split
    · split
      · rfl
      · split <;> rfl
    · split <;> rfl

end Registry.Drafts

namespace Document

/-- Ids stay distinct while a document is read. -/
theorem Loader.keeps_drafts (r : Registry) : Keeps r r.Drafts where
  supply hg ids := hg.of_eq ((keeps_unresolved r).supply hg.unresolved ids) rfl rfl rfl rfl
  node hg hn := hg.addNode hn
  wire hg hs ht := hg.addWire hs ht
  claim {g} hg k groupId :=
    hg.modifyNode k ((keeps_unresolved r).claim hg.unresolved k groupId) (fun _ => rfl)
      fun _ _ ha => ⟨ha.type, fun s => by cases s <;> [exact ha.pins .input; exact ha.pins .output]⟩
  newGroup hg id name bounds :=
    hg.of_eq (hg.unresolved.newGroup id name bounds) rfl rfl rfl rfl
  registerGroup hg := hg.registerGroup
  adoptGroup hg := hg.adoptGroup

/-- A graph that a document comes to was relinked when no two nodes or wires had one id. -/
theorem exists_drafts_of_load {r : Registry} {ids : IdSupply} {name : String}
    {category : Category} {j : Json} {g : Graph}
    (h : (load r (.new ids name category) j).result = .ok g) :
    ∃ u : Graph, r.Drafts u ∧ g = u.relink.1 := by
  have hkeeps := Loader.keeps_drafts r
  refine of_load (hkeeps.document (.category j) (fun _ hg => hkeeps.supply hg) ?_ ?_)
    (.new r ids name category) h
  · intro g hg id name category _
    exact hg.of_eq ⟨{ hg.unresolved.groups with }, { hg.unresolved.nodes with },
      { hg.unresolved.wires with }⟩ rfl rfl rfl rfl
  · intro g hg mainId
    exact hg.of_eq ⟨{ hg.unresolved.groups with }, { hg.unresolved.nodes with },
      { hg.unresolved.wires with }⟩ rfl rfl rfl rfl

end Document
end Patchbay
