import Patchbay.Proofs.Document.Groups
import Patchbay.Proofs.Document.Index
import Patchbay.Proofs.Wiring.Coherent
import Patchbay.Proofs.Grouping.Groups
/-!
# Reading whole documents

The document of a graph is read part by part: its members become nodes under the first keys, its
wires come without ends, and its forest grows back with groups that have no members. What is left
to do is to look up the references.

## Main definitions

* `Graph.DistinctIds`: no two nodes, pins, wires or groups have one id.
* `Graph.Legible`: the parts of a graph are told apart in its document.
* `Graph.unlinked`: the graph that a document of another one comes to before references are
  looked up.

## Main statements

* `Document.Loader.Runs.document`: the document of a graph is read up to the references.
-/
namespace Patchbay

section Related
variable {α β : Type} {R : α → β → Prop} {xs : List α} {ys : List β} {i : Nat}

/-- Related lists are related place by place. -/
theorem getElem?_of_related (h : List.Forall₂ R xs ys) {x : α} (hx : xs[i]? = some x) :
    ∃ y, ys[i]? = some y ∧ R x y := by
  induction h generalizing i with
  | nil => cases hx
  | cons hR _ ih =>
    cases i with
    | zero => cases hx; exact ⟨_, rfl, hR⟩
    | succ i => exact ih hx

theorem getElem?_of_related' (h : List.Forall₂ R xs ys) {y : β} (hy : ys[i]? = some y) :
    ∃ x, xs[i]? = some x ∧ R x y := getElem?_of_related h.flip hy

theorem exists_of_mem_related (h : List.Forall₂ R xs ys) {y : β} (hy : y ∈ ys) :
    ∃ x ∈ xs, R x y := by
  obtain ⟨i, hi⟩ := List.mem_iff_getElem?.1 hy
  obtain ⟨x, hx, hR⟩ := getElem?_of_related' h hi
  exact ⟨x, List.mem_of_getElem? hx, hR⟩

end Related

/-- A pin that was read is the pin that was written, on its own. -/
structure Pin.Reads (p q : Pin) : Prop where
  id : q.id = p.id
  kind : q.kind = p.kind
  free : q.Free
  value : p.flow = false → q.value = p.value

theorem Pin.reads_restored {p m : Pin} (hm : m.Free) (hk : m.kind = p.kind) :
    p.Reads (p.restored m) := by
  have hflow : m.flow = p.flow := congrArg (fun k => k.2.2) hk
  simp only [restored, assign]
  split
  · next h => exact ⟨rfl, hk, ⟨hm.owned, hm.incoming, hm.outgoing⟩, fun hp => by simp_all⟩
  · exact ⟨rfl, hk, ⟨hm.owned, hm.incoming, hm.outgoing⟩, fun _ => rfl⟩

namespace Node.Reads
variable {n l : Node}

theorem group (h : n.Reads l) : l.group = none := by
  obtain ⟨m, hm, -, rfl⟩ := h
  exact hm.group

theorem type (h : n.Reads l) : l.type = n.type := by
  obtain ⟨m, -, ha, rfl⟩ := h
  exact ha.type

/-- What a node tells of itself besides its pins is read. -/
theorem told (h : n.Reads l) : l.id = n.id ∧ l.name = n.name ∧ l.position = n.position ∧
    l.enabled = n.enabled ∧ l.groupId = n.groupId := by
  obtain ⟨m, -, -, rfl⟩ := h
  exact ⟨rfl, rfl, rfl, rfl, rfl⟩

theorem pins (h : n.Reads l) (s : Side) : List.Forall₂ Pin.Reads (n.pins s) (l.pins s) := by
  obtain ⟨m, hm, ha, rfl⟩ := h
  have hpins : (n.restored m).pins s = List.zipWith Pin.restored (n.pins s) (m.pins s) := by
    cases s <;> rfl
  rw [hpins]
  have hkinds := ha.pins s
  have hfree := hm.pins s
  clear hpins
  generalize n.pins s = ps at *
  generalize m.pins s = qs at *
  induction ps generalizing qs with
  | nil => exact .nil
  | cons p ps ih =>
    cases qs with
    | nil => cases hkinds
    | cons q qs =>
      obtain ⟨hq, hqs⟩ := List.cons.inj hkinds
      exact .cons (Pin.reads_restored (hfree q List.mem_cons_self) hq)
        (ih qs (fun q' hq' => hfree q' (List.mem_cons_of_mem q hq')) hqs)

end Node.Reads

/-- Nothing is left out if everything is there. -/
theorem getElem?_filterMap_of_isSome {α β : Type} {f : α → Option β} {xs : List α}
    (h : ∀ x ∈ xs, (f x).isSome = true) (i : Nat) : (xs.filterMap f)[i]? = xs[i]?.bind f := by
  induction xs generalizing i with
  | nil => rfl
  | cons x xs ih =>
    obtain ⟨b, hb⟩ := Option.isSome_iff_exists.1 (h x List.mem_cons_self)
    rw [List.filterMap_cons_some hb]
    cases i with
    | zero => simp [hb]
    | succ i => exact ih (fun y hy => h y (List.mem_cons_of_mem x hy)) i

namespace Graph

/-- No two nodes, pins, wires or groups have one id. -/
structure DistinctIds (g : Graph) : Prop where
  nodes : ∀ {j k m n}, g.node? j = some m → g.node? k = some n → m.id = n.id → j = k
  pins : ∀ {r r' p p'}, g.pin? r = some p → g.pin? r' = some p' → p.id = p'.id → r = r'
  wires : ∀ {v w c d}, g.wire? v = some c → g.wire? w = some d → c.id = d.id → v = w
  groups : ∀ {b c}, b ∈ g.clusters → c ∈ g.clusters → b.id = c.id → b.key = c.key

/-- The pins of all nodes, in the graph or beside it. -/
def livePins (g : Graph) : List PinRef :=
  g.nodes.keys.flatMap fun k => g.pinRefs k .input ++ g.pinRefs k .output

theorem mem_livePins {g : Graph} {r : PinRef} {p : Pin} (hp : g.pin? r = some p) :
    r ∈ g.livePins := by
  obtain ⟨n, hn, -⟩ := Option.bind_eq_some_iff.1 hp
  exact mem_flatMap_pinRefs hp (Arena.mem_keys.2 ⟨n, hn⟩)

/-- Looking at what is alive is enough to see that ids are distinct. -/
theorem DistinctIds.of_forall {g : Graph}
    (hnodes : ∀ j ∈ g.nodes.keys, ∀ k ∈ g.nodes.keys, g.idOf? j = g.idOf? k → j = k)
    (hpins : ∀ r ∈ g.livePins, ∀ r' ∈ g.livePins,
      (g.pin? r).map (·.id) = (g.pin? r').map (·.id) → r = r')
    (hwires : ∀ v ∈ g.wires.keys, ∀ w ∈ g.wires.keys,
      (g.wire? v).map (·.id) = (g.wire? w).map (·.id) → v = w)
    (hgroups : ∀ b ∈ g.clusters, ∀ c ∈ g.clusters, b.id = c.id → b.key = c.key) :
    g.DistinctIds := by
  refine ⟨fun {j k m n} hm hn hid => ?_, fun {r r' p p'} hp hp' hid => ?_,
    fun {v w c d} hc hd hid => ?_, fun hb hc => hgroups _ hb _ hc⟩
  · refine hnodes j (Arena.mem_keys.2 ⟨m, hm⟩) k (Arena.mem_keys.2 ⟨n, hn⟩) ?_
    rw [idOf?, idOf?, hm, hn, Option.map_some, Option.map_some, hid]
  · refine hpins r (mem_livePins hp) r' (mem_livePins hp') ?_
    rw [hp, hp', Option.map_some, Option.map_some, hid]
  · refine hwires v (Arena.mem_keys.2 ⟨c, hc⟩) w (Arena.mem_keys.2 ⟨d, hd⟩) ?_
    rw [hc, hd, Option.map_some, Option.map_some, hid]

/-- The members of a graph, as they are written. -/
def memberNodes (g : Graph) : List Node := g.members.filterMap g.node?

/-- The wires of a graph, as they are written. -/
def linkWires (g : Graph) : List Wire := g.links.filterMap g.wire?

/-- The graph that the document of another one comes to before references are looked up. -/
def unlinked (g : Graph) (ls : List Node) (index : Dict NodeKey) (ids : IdSupply) : Graph where
  nodes := .ofList ls
  wires := .ofList (g.linkWires.map Wire.loose)
  nextGroup := g.groups.preorder.length
  ids
  id := g.id
  name := g.name
  category := g.category
  mainId := g.mainId
  members := List.range ls.length
  index
  links := List.range g.linkWires.length
  groups := g.groups.number 0

/-- The members and the wires of a graph are there, each of them once. -/
structure Listed (g : Graph) : Prop where
  members_nodup : g.members.Nodup
  members_live : ∀ k ∈ g.members, (g.node? k).isSome = true
  links_nodup : g.links.Nodup
  links_live : ∀ w ∈ g.links, (g.wire? w).isSome = true

/-- The parts of a graph are told apart in its document: no two members, wires or groups have one
id, and whoever has the id of a member of a group names a group itself. -/
structure Legible (g : Graph) : Prop where
  members : (g.memberNodes.map (·.id)).Nodup
  links : (g.linkWires.map (·.id)).Nodup
  groups : (g.groups.preorder.map (·.id)).Nodup
  claimed : ∀ a ∈ g.groups.preorder, ∀ k ∈ a.members, ∀ n, g.node? k = some n →
    ∀ m ∈ g.memberNodes, m.id = n.id → m.groupId.isSome = true

theorem Wired.listed {g : Graph} (hw : g.Wired) : g.Listed where
  members_nodup := hw.members_nodup
  members_live k hk := by
    obtain ⟨id, hid⟩ := hw.members_live k hk
    obtain ⟨n, hn, -⟩ := Option.map_eq_some_iff.1 hid
    exact Option.isSome_of_mem hn
  links_nodup := hw.nodup
  links_live w h := (hw.live w).1 h

/-- The ids of different things in a list are different. -/
theorem nodup_ids {α β : Type} {f : α → Option β} {id : β → String} {xs : List α} (hn : xs.Nodup)
    (hid : ∀ x ∈ xs, ∀ y ∈ xs, ∀ b c, f x = some b → f y = some c → id b = id c → x = y) :
    ((xs.filterMap f).map id).Nodup := by
  induction xs with
  | nil => exact List.nodup_nil
  | cons x xs ih =>
    obtain ⟨hx, hn⟩ := List.nodup_cons.1 hn
    have ih := ih hn fun y hy z hz =>
      hid y (List.mem_cons_of_mem x hy) z (List.mem_cons_of_mem x hz)
    cases hf : f x with
    | none => rw [List.filterMap_cons_none hf]; exact ih
    | some b =>
      rw [List.filterMap_cons_some hf, List.map_cons, List.nodup_cons]
      refine ⟨fun h => ?_, ih⟩
      obtain ⟨c, hc, hcb⟩ := List.mem_map.1 h
      obtain ⟨y, hy, hyc⟩ := List.mem_filterMap.1 hc
      exact hx (hid x List.mem_cons_self y (List.mem_cons_of_mem x hy) b c hf hyc hcb.symm ▸ hy)

/-- A graph of distinct ids is told apart in its document. -/
theorem DistinctIds.legible {g : Graph} (hd : g.DistinctIds) (hw : g.Wired) (hgr : g.Grouped) :
    g.Legible where
  members := nodup_ids hw.members_nodup fun _ _ _ _ _ _ hx hy => hd.nodes hx hy
  links := nodup_ids hw.nodup fun _ _ _ _ _ _ hx hy => hd.wires hx hy
  groups := by
    refine (List.Nodup.of_map _ hgr.keys_groups_nodup).map_on fun b hb c hc hid => ?_
    have hb := List.mem_append_left g.loose.preorder hb
    have hc := List.mem_append_left g.loose.preorder hc
    exact hgr.eq_of_key_eq hb hc (hd.groups hb hc hid)
  claimed a ha k hk n hn m hm hid := by
    obtain ⟨j, -, hj⟩ := List.mem_filterMap.1 hm
    obtain rfl : j = k := hd.nodes hj hn hid
    obtain rfl : m = n := Option.some.inj (hj.symm.trans hn)
    obtain ⟨n, hn', hna⟩ := hgr.listed a (List.mem_append_left _ ha) j hk
    obtain rfl : m = n := Option.some.inj (hn.symm.trans hn')
    obtain ⟨b, -, -, hgroupId, -⟩ := hgr.grouped hn hna
    rw [hgroupId]
    rfl

end Graph

namespace Document.Loader.Runs
variable {g : Graph} {r : Registry}

/-- When the nodes are read, the members of groups name their groups themselves. -/
theorem claimed_of_reads {h : Graph} {ls : List Node} (hl : g.Legible)
    (hreads : List.Forall₂ Node.Reads g.memberNodes ls) (hnodes : h.nodes = .ofList ls)
    (hfound : ∀ id i, h.nodeWithId? id = some i → ∃ l, ls[i]? = some l ∧ l.id = id) {a : Group}
    (ha : a ∈ g.groups.preorder) {k : NodeKey} (hk : k ∈ a.members) {n : Node}
    (hn : g.node? k = some n) : Claimed h n.id := by
  intro i hi
  obtain ⟨l, hli, hlid⟩ := hfound n.id i hi
  obtain ⟨m, hm, hread⟩ := exists_of_mem_related hreads (List.mem_of_getElem? hli)
  refine ⟨l, ?_, ?_⟩
  · rw [Graph.node?, hnodes, Arena.get?_ofList]
    exact hli
  · rw [hread.told.2.2.2.2]
    exact hl.claimed a ha k hk n hn m hm (hread.told.1.symm.trans hlid)

/-- The category of a graph is read as it was written. -/
theorem category (g : Graph) (d : Draft) :
    Runs (Loader.category (ofGraph g)) d g.category d := by
  have hmember : (ofGraph g).member? "category" = some (.string g.category.label) := rfl
  simp only [Loader.category, hmember]
  refine (Runs.need _ _).bind ?_
  rw [Category.ofLabel?_label]
  exact .pure _ _

/-- The document of a graph is read up to the references. -/
theorem document (hl : g.Legible) (hr : r.Covers g) (ids : IdSupply) :
    ∃ ls index ids', List.Forall₂ Node.Reads g.memberNodes ls ∧
      Runs (Loader.document r (ofGraph g)) ⟨.new ids, []⟩ ()
        ⟨(g.unlinked ls index ids').relink.1, (g.unlinked ls index ids').relink.2⟩ := by
  have hnodes : itemsOf (ofGraph g) "nodes" = g.memberNodes.map ofNode := rfl
  have hwires : itemsOf (ofGraph g) "connections" = g.linkWires.map ofWire := rfl
  have hgroups : itemsOf (ofGraph g) "groups" = ofForest g none g.groups := rfl
  have hmain : (ofGraph g).optionalString "main_node_id" = .ok g.mainId :=
    optionalString_of_member rfl
  have hname : (ofGraph g).memberOr "name" Json.asString "Graph" = .ok g.name := rfl
  -- the nodes
  have hcreate (n : Node) (hn : n ∈ g.memberNodes) (ids : IdSupply) :
      ∃ m ids', r.create n.type ids = some (m, ids') ∧ n.Alike m := by
    obtain ⟨k, hk, hkn⟩ := List.mem_filterMap.1 hn
    exact hr k hk n hkn ids
  let g₀ : Graph := { Graph.new ids with id := g.id, name := g.name, category := g.category }
  have hnodeIds : (([] : List Node).map (·.id) ++ g.memberNodes.map (·.id)).Nodup := hl.members
  obtain ⟨ids₁, index, ls, hreads, hfound, hrun₁⟩ := Runs.nodes (g := g₀) (j := [])
    hcreate rfl rfl (fun id k h => by cases h) hnodeIds
  -- the wires
  let g₁ : Graph := { g₀ with
    ids := ids₁
    nodes := .ofList ls
    members := List.range ls.length
    index }
  have hwireIds : (([] : List Wire).map (·.id) ++ g.linkWires.map (·.id)).Nodup := hl.links
  have hrun₂ := Runs.wires (g := g₁) (j := []) rfl rfl hwireIds
  -- the groups
  let g₂ : Graph := { g₁ with
    wires := .ofList (g.linkWires.map Wire.loose)
    links := List.range (g.linkWires.map Wire.loose).length }
  have hreadable : Readable g g₂ g.groups .empty none := by
    refine ⟨rfl, fun k hk => ?_, fun a ha k hk n hn => ?_, fun id hid => ?_, fun a _ => rfl,
      hl.groups⟩
    · cases hk
    · exact claimed_of_reads (h := g₂) hl hreads rfl hfound ha hk hn
    · cases hid
  obtain ⟨read, ids₂, -, hrun₃⟩ := Runs.forest (j := []) hreadable
  have hrun₃ := hrun₃ [] _ rfl
  rw [List.append_nil] at hrun₃
  refine ⟨ls, index, ids₂, hreads, ?_⟩
  simp only [Loader.document, members, hnodes, hwires, hgroups, hmain, hname]
  rw [if_neg (by simp [ofGraph, Json.isObject, Json.kind]), rethrow_iff]
  refine (Runs.need g.name _).bind ((Runs.pure g.id _).bind ((Runs.category g _).bind ?_))
  refine (Runs.change _ _).bind (hrun₁.bind (hrun₂.bind (hrun₃.bind ?_)))
  refine (Runs.need g.mainId _).bind ((Runs.get _).bind ?_)
  have hsame : ({ g₂.grown (Option.none.bind Dict.empty.get?) ids₂ g.groups with
      mainId := g.mainId } : Graph) = g.unlinked ls index ids₂ := by
    simp [Graph.unlinked, Graph.grown, g₂, g₁, g₀, Graph.new, Forest.graft, Forest.append]
  rw [← hsame]
  exact Runs.set _ _

end Document.Loader.Runs
end Patchbay
