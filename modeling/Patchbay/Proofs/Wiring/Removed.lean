import Patchbay.Proofs.Grouping.Mutual
import Patchbay.Proofs.Wiring.Relabelled
import Patchbay.Proofs.Wiring.Unplugged
/-!
# What is left when a member is removed

If the links of a graph are coherent and no two pins of members have one id, then the wires that
name a pin of a member are those that begin or end there. So nothing but these is lost with it: the
pins at their other ends forget them, inputs among these fall back to their initial values, the
groups forget the node, and all else is as it was.

## Main definitions

* `Node.without`: a node after some wires are gone.
* `Graph.DistinctPins`: no two pins of members have one id.
* `Graph.Removed`: a graph without one of its members.

## Main statements

* `Graph.Coherent.removed_removeNode`: members are removed without any other loss, and nothing else
  is removed.
-/
namespace Patchbay

/-! ### Nodes and groups that lose something -/

/-- The node after some wires are gone. -/
def Node.without (n : Node) (gone : WireKey → Bool) : Node :=
  { n with
    inputs := n.inputs.map (·.without .input gone)
    outputs := n.outputs.map (·.without .output gone) }

theorem Node.pins_without (n : Node) (gone : WireKey → Bool) (s : Side) :
    (n.without gone).pins s = (n.pins s).map (·.without s gone) := by
  cases s <;> rfl

/-- Nodes that agree apart from their pins, and in these, are equal. -/
theorem Node.eq_of_core {m n : Node} (hcore : m.core = n.core)
    (hpins : ∀ s i, m.pin? s i = n.pin? s i) : m = n := by
  have hin : m.inputs = n.inputs := List.ext_getElem? (hpins .input)
  have hout : m.outputs = n.outputs := List.ext_getElem? (hpins .output)
  cases m
  cases n
  simp only [Node.core, Node.mk.injEq] at hcore hin hout ⊢
  simp only [hcore, hin, hout, and_self]

/-- The group without a node. -/
def Group.without (b : Group) (k : NodeKey) : Group :=
  { b with members := b.members.filter fun j => j ≠ k }

theorem Group.without_of_not_mem {b : Group} {k : NodeKey} (h : k ∉ b.members) :
    b.without k = b := by
  have hsame : b.members.filter (fun j => j ≠ k) = b.members := by
    rw [List.filter_eq_self]
    intro j hj
    simpa using fun e : j = k => h (e ▸ hj)
  simp only [without, hsame]

namespace Graph
variable {g h : Graph} {k j : NodeKey} {w : WireKey}

/-! ### Leaving a group -/

/-- A node leaves every group that lists it. -/
theorem Mutual.groups_leaveAnyGroup (hm : Mutual g) (k : NodeKey) :
    (g.leaveAnyGroup k).groups = g.groups.map (·.without k) ∧
      (g.leaveAnyGroup k).loose = g.loose.map (·.without k) := by
  have hgroups {b : Group} (hb : b ∈ g.groups.preorder) : b ∈ g.clusters :=
    List.mem_append_left _ hb
  have hloose {b : Group} (hb : b ∈ g.loose.preorder) : b ∈ g.clusters :=
    List.mem_append_right _ hb
  simp only [Graph.leaveAnyGroup]
  split
  · next a ha =>
    obtain ⟨n, hn, hna⟩ := Option.bind_eq_some_iff.1 ha
    obtain ⟨b, hb, rfl, hk⟩ := hm.exists_group_of_node hn hna
    have hin : (g.group? b.key).any (fun (b : Group) => k ∈ b.members) = true := by
      rw [group?_of_mem hm.keys_nodup hb]
      simpa using hk
    have hone {c : Group} (hc : c ∈ g.clusters) :
        (if c.key = b.key then { c with members := c.members.erase k } else c) = c.without k := by
      split
      · rw [Group.without, (hm.members_nodup c hc).erase_eq_filter]
        simp [bne, beq_eq_decide]
      · next hkey =>
        rw [Group.without_of_not_mem]
        intro hkc
        exact hkey (hm.eq_of_mem_members hc hb hkc hk ▸ rfl)
    simp only [Graph.leaveGroup, hin, if_true]
    exact ⟨Forest.map_congr fun c hc => hone (hgroups hc),
      Forest.map_congr fun c hc => hone (hloose hc)⟩
  · next hnone =>
    have hout {c : Group} (hc : c ∈ g.clusters) : c.without k = c := by
      rw [Group.without_of_not_mem]
      intro hkc
      obtain ⟨n, hn, hnc⟩ := hm.exists_node hc hkc
      rw [hn, Option.bind_some, hnc] at hnone
      cases hnone
    exact ⟨(Forest.map_eq_self fun c hc => hout (hgroups hc)).symm,
      (Forest.map_eq_self fun c hc => hout (hloose hc)).symm⟩

/-- A node that has left its group is in none. -/
theorem Mutual.group_leaveAnyGroup (hm : Mutual g) (k : NodeKey) :
    ((g.leaveAnyGroup k).node? k).bind (·.group) = none := by
  simp only [Graph.leaveAnyGroup]
  split
  · next a ha =>
    obtain ⟨n, hn, hna⟩ := Option.bind_eq_some_iff.1 ha
    obtain ⟨b, hb, rfl, hk⟩ := hm.exists_group_of_node hn hna
    have hin : (g.group? b.key).any (fun (b : Group) => k ∈ b.members) = true := by
      rw [group?_of_mem hm.keys_nodup hb]
      simpa using hk
    simp [Graph.leaveGroup, hin, node?_modifyNode, hn, hna]
  · next hnone => exact hnone

/-- No other node notices that a node leaves its group. -/
theorem node?_leaveAnyGroup (g : Graph) (hj : j ≠ k) :
    (g.leaveAnyGroup k).node? j = g.node? j := by
  simp only [leaveAnyGroup, leaveGroup]
  split
  · split
    · rw [node?_modifyNode, if_neg hj.symm, node?_modifyGroup]
    · rfl
  · rfl

/-! ### The end of a node -/

theorem node?_dropNode (g : Graph) (k j : NodeKey) :
    (g.dropNode k).node? j = if k = j then none else (g.leaveAnyGroup k).node? j := by
  have hrelease (g : Graph) (r : PinRef) : (g.releasePin r).nodes = g.nodes := by
    simp only [releasePin]
    split
    · exact foldl_unchanged nodes (f := fun g w => g.forgetPin r w) (fun _ _ => rfl) _ g
    · rfl
  rw [dropNode, node?_eraseNode]
  split
  · rfl
  · exact congrArg (Arena.get? · j) (foldl_unchanged nodes hrelease _ _)

/-- A node that is in no group is destroyed without any change of the groups. -/
theorem groups_dropNode (hk : (g.node? k).bind (·.group) = none) :
    (g.dropNode k).groups = g.groups ∧ (g.dropNode k).loose = g.loose := by
  have hleave : g.leaveAnyGroup k = g := by rw [leaveAnyGroup, hk]
  obtain ⟨l, a, hdrop⟩ := exists_dropNode g k
  rw [hleave] at a
  rw [hdrop]
  exact ⟨a.groups, a.loose⟩

/-- Wires without an end at the pins that are released do not notice it. -/
theorem wire?_foldl_releasePin {rs : List PinRef} (hrs : ∀ r ∈ rs, ¬ g.HasEnd w r) :
    (rs.foldl releasePin g).wire? w = g.wire? w := by
  have hforget {r : PinRef} (vs : List WireKey) {h : Graph} (hr : ¬ h.HasEnd w r) :
      (vs.foldl (fun g w => g.forgetPin r w) h).wire? w = h.wire? w := by
    induction vs generalizing h with
    | nil => rfl
    | cons v vs ih =>
      have hstep : (h.forgetPin r v).wire? w = h.wire? w := by
        rw [forgetPin, wire?_modifyWire]
        split
        · cases hw : h.wire? w with
          | none => rfl
          | some c =>
            rw [hasEnd_iff hw, not_or] at hr
            simp [hr.1, hr.2]
        · rfl
      rw [List.foldl_cons, ih fun hw => hr ((hasEnd_of_wire hstep).1 hw), hstep]
  have hrelease {r : PinRef} {h : Graph} (hr : ¬ h.HasEnd w r) :
      (h.releasePin r).wire? w = h.wire? w := by
    simp only [releasePin]
    split
    · exact hforget _ hr
    · rfl
  induction rs generalizing g with
  | nil => rfl
  | cons r rs ih =>
    have hstep := hrelease (hrs r List.mem_cons_self)
    rw [List.foldl_cons, ih, hstep]
    exact fun e he hw => hrs e (List.mem_cons_of_mem r he) ((hasEnd_of_wire hstep).1 hw)

/-- A wire that has no end at a node does not notice that the node is destroyed. -/
theorem wire?_dropNode (hw : ∀ r, g.HasEnd w r → r.node ≠ k) :
    (g.dropNode k).wire? w = g.wire? w := by
  have a := sameWiring_leaveAnyGroup g k
  rw [← a.wire? w]
  refine wire?_foldl_releasePin fun r hr he => hw r (a.hasEnd.1 he) ?_
  rcases List.mem_append.1 hr with hr | hr <;> exact Wired.node_of_mem_pinRefs hr

/-! ### What nodes and wires have no part in -/

/-- The ids to come, the id, the name, the category and the policy of the graph, and the key of the
next group. -/
def header (g : Graph) : IdSupply × String × String × Category × Bool × GroupKey :=
  (g.ids, g.id, g.name, g.category, g.replaceInputs, g.nextGroup)

theorem header_detachEnd (g : Graph) (r : Option PinRef) (w : WireKey) :
    (g.detachEnd r w).header = g.header := by
  cases r <;> rfl

theorem header_disconnect (g : Graph) (w : WireKey) : (g.disconnect w).header = g.header := by
  simp only [disconnect]
  split
  · rfl
  · refine (header_detachEnd _ _ w).trans ?_
    split
    · rfl
    · split <;> rfl

theorem header_leaveAnyGroup (g : Graph) (k : NodeKey) : (g.leaveAnyGroup k).header = g.header := by
  simp only [leaveAnyGroup, leaveGroup]
  split
  · split <;> rfl
  · rfl

theorem header_dropNode (g : Graph) (k : NodeKey) : (g.dropNode k).header = g.header := by
  have hrelease (g : Graph) (r : PinRef) : (g.releasePin r).header = g.header := by
    simp only [releasePin]
    split
    · exact foldl_unchanged header (f := fun g w => g.forgetPin r w) (fun _ _ => rfl) _ g
    · rfl
  exact (foldl_unchanged header hrelease _ _).trans (header_leaveAnyGroup g k)

theorem header_disconnectTouching (g : Graph) (k : NodeKey) :
    (g.disconnectTouching k).header = g.header := by
  refine foldl_unchanged header (fun h w => ?_) g.links g
  split
  · exact header_disconnect h w
  · rfl

/-! ### Removing a member -/

/-- No two pins of members have one id. -/
def DistinctPins (g : Graph) : Prop :=
  ∀ ⦃r r' p p'⦄, r.node ∈ g.members → r'.node ∈ g.members → g.pin? r = some p →
    g.pin? r' = some p' → p.id = p'.id → r = r'

namespace Coherent

/-- No wire of a coherent graph is listed twice. -/
theorem links_nodup (hg : g.Coherent) : g.links.Nodup := by
  rw [List.nodup_iff_count_le_one]
  intro w
  by_cases hw : w ∈ g.links
  · obtain ⟨c, s, t, p, q, hc, j⟩ := hg.joined w hw
    have hout := hg.outgoing j.source_member j.source_side j.source_pin
    have hnodup := hout.1 ▸ hout.2
    rw [wiresFrom_eq] at hnodup
    -- the output at which the wire begins lists it once
    have hcount := List.nodup_iff_count_le_one.1 hnodup w
    rwa [List.count_filter] at hcount
    simp [sourceOf?, hc, j.source]
  · rw [List.count_eq_zero.2 hw]
    exact Nat.zero_le 1

/-- The wires that begin or end at a member are those with an end there. -/
theorem involves_iff (hg : g.Coherent) (hw : w ∈ g.links) (k : NodeKey) :
    g.involves w k = true ↔ ∃ r, g.HasEnd w r ∧ r.node = k := by
  refine ⟨end_of_involves, ?_⟩
  rintro ⟨r, hr, rfl⟩
  obtain ⟨c, s, t, p, q, hc, j⟩ := hg.joined w hw
  rw [hasEnd_iff hc, j.source, j.target] at hr
  rw [Graph.involves_iff]
  rcases hr with hr | hr <;> obtain rfl := Option.some.inj hr
  · exact .inl (by simp [sourceOf?, hc, j.source, hg.owner?_of_pin j.source_member j.source_pin])
  · exact .inr (by simp [targetOf?, hc, j.target, hg.owner?_of_pin j.target_member j.target_pin])

/-- If pins are told apart by their ids, a wire names a pin of a member exactly if it begins or ends
there. -/
theorem names_iff (hg : g.Coherent) (hids : g.DistinctPins) (hk : k ∈ g.members)
    (hw : w ∈ g.links) : g.Names k w ↔ g.involves w k = true := by
  obtain ⟨c, s, t, p, q, hc, j⟩ := hg.joined w hw
  rw [hg.involves_iff hw]
  simp only [hasEnd_iff hc, j.source, j.target, Option.some.injEq]
  constructor
  · rintro ⟨d, hd, side, i, p', hp', hid⟩
    obtain rfl := Option.some.inj (hc.symm.trans hd)
    rw [j.source_id, j.target_id] at hid
    rcases hid with hid | hid
    · exact ⟨_, .inl (hids hk j.source_member hp' j.source_pin hid).symm, rfl⟩
    · exact ⟨_, .inr (hids hk j.target_member hp' j.target_pin hid).symm, rfl⟩
  · rintro ⟨r, rfl | rfl, rfl⟩
    · exact ⟨c, hc, _, _, p, j.source_pin, .inl j.source_id.symm⟩
    · exact ⟨c, hc, _, _, q, j.target_pin, .inr j.target_id.symm⟩

end Coherent

/-- A graph without one of its members, which had an id. -/
structure Removed (g h : Graph) (k : NodeKey) (id : String) : Prop where
  members : h.members = g.members.erase k
  /-- The member is no longer found under its id. -/
  found : ∀ i, h.nodeWithId? i = if i = id then none else g.nodeWithId? i
  mainId : h.mainId = if g.mainId = some id then none else g.mainId
  links : h.links = g.links.filter fun w => !g.involves w k
  /-- The wires that stay are what they were, and the others are destroyed. -/
  wires : ∀ w ∈ g.links, h.wire? w = if g.involves w k then none else g.wire? w
  node : h.node? k = none
  /-- The pins of the other members forget the wires that go. -/
  nodes : ∀ j, j ≠ k → h.node? j =
    if j ∈ g.members then (g.node? j).map (·.without (g.involves · k)) else g.node? j
  groups : h.groups = g.groups.map (·.without k)
  loose : h.loose = g.loose.map (·.without k)
  header : h.header = g.header

/-- How a member is removed. -/
theorem removeNode_of_contains {n : Node} (hn : g.node? k = some n) (hk : g.contains k = true) :
    let l := ((g.disconnectTouching k).dropTouching k).leaveAnyGroup k
    g.removeNode k = (true, ({ l with
      mainId := if l.mainId = some n.id then none else l.mainId
      index := l.index.erase n.id
      members := l.members.erase k } : Graph).dropNode k) := by
  intro l
  have hmain : (if l.mainId = some n.id then { l with mainId := none } else l) =
      { l with mainId := if l.mainId = some n.id then none else l.mainId } := by
    split <;> rfl
  simp only [removeNode, hn, hk, if_true]
  rw [hmain]

namespace Coherent

/-- The wires at a member are taken off their pins and then destroyed. -/
theorem dropTouching (hg : g.Coherent) (hids : g.DistinctPins) (hk : k ∈ g.members) :
    (g.disconnectTouching k).dropTouching k = { g.disconnectTouching k with
      links := g.links.filter fun w => !g.involves w k
      wires := (g.links.filter fun w => g.involves w k).foldl Arena.erase
        (g.disconnectTouching k).wires } := by
  have a := hg.unplugged_disconnectTouching k
  have htouches : ∀ w ∈ g.links, (g.disconnectTouching k).touches k w = g.involves w k := by
    intro w hw
    have hnames := hg.names_iff hids hk hw
    rw [Bool.eq_iff_iff, a.touches_iff, hnames, or_iff_right_iff_imp]
    exact And.right
  have hstay : g.links.filter (fun w => !(g.disconnectTouching k).touches k w) =
      g.links.filter fun w => !g.involves w k :=
    List.filter_congr fun w hw => by rw [htouches w hw]
  have hgo : g.links.filter ((g.disconnectTouching k).touches k) =
      g.links.filter fun w => g.involves w k := List.filter_congr htouches
  simp only [Graph.dropTouching, a.links, hstay, hgo]
  refine foldl_dropWire_of_loose (hg.links_nodup.filter _) fun w hw => ?_
  obtain ⟨hw, hinv⟩ := List.mem_filter.1 hw
  obtain ⟨c, s, t, p, q, hc, -⟩ := hg.joined w hw
  have hgone : (decide (w ∈ g.links) && g.touches k w) = true := by
    simp [hw, (touches_iff g k w).2 (.inl hinv)]
  have hwire := a.wire? w
  rw [if_pos hgone, hc] at hwire
  exact ⟨_, hwire, rfl, rfl⟩

/-- The nodes of a coherent graph after the wires at a member are off their pins. -/
theorem node?_disconnectTouching (hg : g.Coherent) (hids : g.DistinctPins) (hk : k ∈ g.members)
    (j : NodeKey) : (g.disconnectTouching k).node? j =
      if j ∈ g.members then (g.node? j).map (·.without (g.involves · k)) else g.node? j := by
  have a := hg.unplugged_disconnectTouching k
  have hcore := sameCore_disconnectTouching g k
  cases hn : g.node? j with
  | none =>
    have hnone := hcore.nodes j
    rw [hn, Option.map_none, Option.map_eq_none_iff] at hnone
    simp [hnone]
  | some n =>
    have hsome := hcore.nodes j
    rw [hn, Option.map_some, Option.map_eq_some_iff] at hsome
    obtain ⟨m, hm, hmn⟩ := hsome
    have hpin (s : Side) (i : Nat) : m.pin? s i =
        if j ∈ g.members then (n.pin? s i).map (·.without s fun w => w ∈ g.links && g.touches k w)
        else n.pin? s i := by
      have hpins := a.pins ⟨j, s, i⟩
      simpa only [Graph.pin?, hm, hn, Option.bind_some] using hpins
    rw [hm]
    split
    · next hj =>
      refine congrArg some (Node.eq_of_core hmn fun s i => ?_)
      rw [hpin, if_pos hj, Node.pin?, Node.pin?, Node.pins_without, List.getElem?_map]
      cases hp : (n.pins s)[i]? with
      | none => rfl
      | some p =>
        refine congrArg some (Pin.without_congr fun w hw => ?_)
        have hpj : g.pin? ⟨j, s, i⟩ = some p := by
          rw [Graph.pin?, hn]
          exact hp
        -- a pin of a member knows none but listed wires
        have hlisted : w ∈ g.links := by
          cases s with
          | input => exact ((hg.incoming hj hpj w).1 hw).1
          | output =>
            have hw : w ∈ p.outgoing := hw
            rw [(hg.outgoing hj rfl hpj).1] at hw
            exact (List.mem_filter.1 hw).1
        rw [Bool.eq_iff_iff, Bool.and_eq_true, touches_iff, hg.names_iff hids hk hlisted, or_self]
        simp [hlisted]
    · next hj =>
      refine congrArg some (Node.eq_of_core hmn fun s i => ?_)
      rw [hpin, if_neg hj]

end Coherent

/-- A graph one of whose members has lost its wires and its group. -/
structure Stripped (g h : Graph) (k : NodeKey) : Prop where
  members : h.members = g.members
  index : h.index = g.index
  mainId : h.mainId = g.mainId
  links : h.links = g.links.filter fun w => !g.involves w k
  wires : ∀ w ∈ g.links, h.wire? w = if g.involves w k then none else g.wire? w
  nodes : ∀ j, j ≠ k → h.node? j =
    if j ∈ g.members then (g.node? j).map (·.without (g.involves · k)) else g.node? j
  groups : h.groups = g.groups.map (·.without k)
  loose : h.loose = g.loose.map (·.without k)
  header : h.header = g.header
  /-- The member is in no group any more. -/
  ungrouped : (h.node? k).bind (·.group) = none

/-- Before a member is destroyed it loses its wires and its group. -/
theorem Coherent.stripped (hg : g.Coherent) (hids : g.DistinctPins) (hm : g.Mutual)
    (hk : k ∈ g.members) :
    g.Stripped (((g.disconnectTouching k).dropTouching k).leaveAnyGroup k) k := by
  have a := hg.unplugged_disconnectTouching k
  have hcore := (sameCore_disconnectTouching g k).trans (sameCore_dropTouching _ k)
  have hdrop := hg.dropTouching hids hk
  have b := sameWiring_leaveAnyGroup ((g.disconnectTouching k).dropTouching k) k
  have hmutual := hm.of_sameCore hcore
  have hgroups := hmutual.groups_leaveAnyGroup k
  rw [hcore.groups, hcore.loose] at hgroups
  refine ⟨b.members.trans hcore.members, b.index.trans hcore.index, b.mainId.trans hcore.mainId,
    ?_, fun w hw => ?_, fun j hj => ?_, hgroups.1, hgroups.2, ?_, hmutual.group_leaveAnyGroup k⟩
  · rw [b.links, hdrop]
  · have htouch : g.touches k w = g.involves w k := by
      rw [Bool.eq_iff_iff, touches_iff, hg.names_iff hids hk hw, or_self]
    have hsevered := a.wire? w
    rw [htouch] at hsevered
    rw [b.wire?, hdrop]
    refine (Arena.get?_foldl_erase _ _ w).trans ?_
    by_cases hinv : g.involves w k = true
    · simp [hw, hinv]
    · rw [if_neg (by simp [hinv]), if_neg hinv]
      rwa [if_neg (by simp [hinv])] at hsevered
  · rw [node?_leaveAnyGroup _ hj, hdrop]
    exact hg.node?_disconnectTouching hids hk j
  · rw [header_leaveAnyGroup, hdrop]
    exact header_disconnectTouching g k

/-- Once a member has lost its wires and its group, it is taken off the records and destroyed. -/
theorem Stripped.removed {l : Graph} (a : g.Stripped l k) (hg : g.Coherent) (id : String) :
    g.Removed (({ l with
      mainId := if l.mainId = some id then none else l.mainId
      index := l.index.erase id
      members := l.members.erase k } : Graph).dropNode k) k id := by
  have hroll := roll_dropNode ({ l with
    mainId := if l.mainId = some id then none else l.mainId
    index := l.index.erase id
    members := l.members.erase k } : Graph) k
  have hgroups := groups_dropNode (g := { l with
    mainId := if l.mainId = some id then none else l.mainId
    index := l.index.erase id
    members := l.members.erase k }) a.ungrouped
  have hnode {j : NodeKey} (hj : j ≠ k) : (({ l with
      mainId := if l.mainId = some id then none else l.mainId
      index := l.index.erase id
      members := l.members.erase k } : Graph).dropNode k).node? j = l.node? j := by
    rw [node?_dropNode, if_neg (Ne.symm hj), node?_leaveAnyGroup _ hj]
    rfl
  constructor
  · rw [hroll.1, a.members]
  · intro i
    rw [nodeWithId?, hroll.2.1, Dict.get?_erase, a.index]
    rfl
  · rw [hroll.2.2, a.mainId]
  · rw [links_dropNode, a.links]
  · intro w hw
    have hwire := a.wires w hw
    rw [wire?_dropNode]
    · exact hwire
    · -- the wires that are left have no end at the node
      intro r hr he
      have hr : l.HasEnd w r := hr
      by_cases hinv : g.involves w k = true
      · rw [if_pos hinv] at hwire
        simp [HasEnd, sourceOf?, targetOf?, hwire] at hr
      · rw [if_neg hinv] at hwire
        exact hinv ((hg.involves_iff hw k).2 ⟨r, (hasEnd_of_wire hwire).1 hr, he⟩)
  · rw [node?_dropNode, if_pos rfl]
  · exact fun j hj => (hnode hj).trans (a.nodes j hj)
  · rw [hgroups.1, a.groups]
  · rw [hgroups.2, a.loose]
  · rw [header_dropNode]
    exact a.header

/-- If pins are told apart by their ids, a member of a coherent graph is removed with the wires that
begin or end there, and without any other loss. What is not a member is not removed. -/
theorem Coherent.removed_removeNode (hg : g.Coherent) (hids : g.DistinctPins) (hm : g.Mutual)
    (k : NodeKey) :
    (k ∈ g.members → ∃ n, g.node? k = some n ∧ (g.removeNode k).1 = true ∧
      g.Removed (g.removeNode k).2 k n.id) ∧
    (k ∉ g.members → g.removeNode k = (false, g)) := by
  constructor
  · intro hk
    obtain ⟨n, hn⟩ := hg.exists_node hk
    rw [removeNode_of_contains hn ((hg.contains_iff k).2 hk)]
    exact ⟨n, hn, rfl, (hg.stripped hids hm hk).removed hg n.id⟩
  · intro hk
    exact removeNode_of_not_contains (Bool.eq_false_iff.2 fun h => hk ((hg.contains_iff k).1 h))

/-- A member that is in a group and can give another one a value. -/
def groupedPair : Graph :=
  [Edit.newGroup "c" "c" ⟨0, 0, 0, 0⟩, .joinGroup 0 0].foldl Edit.apply Relabelled.pair

theorem distinctPins_groupedPair : groupedPair.DistinctPins := by
  have hpin {r : PinRef} {p : Pin} (hr : r.node ∈ groupedPair.members)
      (hp : groupedPair.pin? r = some p) :
      r = ⟨0, .output, 0⟩ ∧ p.id = "a.x" ∨ r = ⟨1, .input, 0⟩ ∧ p.id = "b.y" := by
    obtain ⟨k, s, i⟩ := r
    have hk : k ∈ ([0, 1] : List NodeKey) := hr
    rcases List.mem_pair.1 hk with rfl | rfl <;> cases s <;> cases i <;> cases hp
    · exact .inl ⟨rfl, rfl⟩
    · exact .inr ⟨rfl, rfl⟩
  intro r r' p p' hr hr' hp hp' hid
  rcases hpin hr hp with ⟨rfl, h⟩ | ⟨rfl, h⟩ <;> rcases hpin hr' hp' with ⟨rfl, h'⟩ | ⟨rfl, h'⟩
  · rfl
  · simp [h, h'] at hid
  · simp [h, h'] at hid
  · rfl

theorem Coherent.removed_removeNode_groupedPair :
    let g := groupedPair
    g.Coherent ∧ g.DistinctPins ∧ g.Mutual ∧ (0 : Nat) ∈ g.members ∧ (2 : Nat) ∉ g.members ∧
      (∃ n, g.node? 0 = some n ∧ (g.removeNode 0).1 = true ∧
        g.Removed (g.removeNode 0).2 0 n.id) ∧
      g.removeNode 2 = (false, g) := by
  intro g
  have hreach : Reachable g := Relabelled.reachable_pair.edits ⟨trivial, ⟨rfl, rfl⟩, trivial⟩
  have hg := hreach.wired.coherent
  have hm := hreach.grouped.mutual
  have h₀ : (0 : Nat) ∈ g.members := by decide
  have h₂ : (2 : Nat) ∉ g.members := by decide
  exact ⟨hg, distinctPins_groupedPair, hm, h₀, h₂,
    (hg.removed_removeNode distinctPins_groupedPair hm 0).1 h₀,
    (hg.removed_removeNode distinctPins_groupedPair hm 2).2 h₂⟩

end Graph
end Patchbay
