import Patchbay.Proofs.Document.Drafted
import Patchbay.Proofs.Document.Resolved
/-!
# Documents that are read and written again

However a document came about, the graph that it comes to is written in a normal form: reading what
was written comes to a graph that is written the same way. What the first reading left out,
completed, moved to the roots or did not find is no longer there to be left out, completed, moved or
not found.

## Main definitions

* `Pin.told`: what a document tells of a pin.
* `Graph.Echo`: graphs of which the same is told, with nodes and wires under other keys.
* `Registry.Recreates`: the nodes that a registry makes can be made again under their types.

## Main statements

* `Graph.tracks_unlinked`: what is read names the same pins as what was written.
* `Graph.Unresolved.echo`: relinking finds the references of a relinked graph again.
* `Graph.Echo.ofGraph_eq`: graphs of which the same is told have one document.
* `Registry.recreates_of_definitions`: registered definitions make nodes that can be made again.
* `Document.exists_reload`: a graph that was read is written in a normal form.
-/
namespace Patchbay

/-! ### What documents tell -/

/-- What a document tells of a pin. -/
def Pin.told (p : Pin) : (String × String × ValueType × Bool) × Option Value := (p.face, p.datum?)

theorem Pin.map_face_of_shell {x y : Option Pin} (h : x.map shell = y.map shell) :
    x.map face = y.map face := by
  cases x with
  | none => rw [Option.map_eq_none_iff.1 h.symm]
  | some p =>
    obtain ⟨q, rfl, hshell⟩ := Option.map_eq_some_iff.1 h.symm
    obtain ⟨hid, hname, htype, hflow, -⟩ := of_shell_eq hshell
    rw [Option.map_some, Option.map_some, face, face, kind, kind, hid, hname, htype, hflow]

theorem Pin.map_told {x y : Option Pin} (hface : x.map face = y.map face)
    (hdatum : x.bind datum? = y.bind datum?) : x.map told = y.map told := by
  cases x with
  | none => rw [Option.map_eq_none_iff.1 hface.symm]
  | some p =>
    obtain ⟨q, rfl, hpq⟩ := Option.map_eq_some_iff.1 hface.symm
    rw [Option.bind_some, Option.bind_some] at hdatum
    rw [Option.map_some, Option.map_some, told, told, hpq, hdatum]

/-- A pin that was read tells what was written. -/
theorem Pin.Reads.told {p q : Pin} (a : p.Reads q) : q.told = p.told := by
  have hflow : q.flow = p.flow := congrArg (fun k => k.2.2) a.kind
  rw [Pin.told, Pin.told, face, face, a.id, a.kind]
  cases hp : p.flow with
  | true => rw [datum?_of_flow hp, datum?_of_flow (hflow.trans hp)]
  | false => rw [datum?_of_data hp, datum?_of_data (hflow.trans hp), a.value hp]

/-- Nobody else knows what a group tells of itself. -/
theorem Forest.ids_eq_of_map_outline {f f' : Forest}
    (h : f'.map Group.outline = f.map Group.outline) :
    f'.preorder.map (·.id) = f.preorder.map (·.id) := by
  have hids (f : Forest) : (f.map Group.outline).preorder.map (·.id) = f.preorder.map (·.id) := by
    rw [preorder_map, List.map_map]
    rfl
  rw [← hids, h, hids]

namespace Document
variable {g h : Graph}

theorem ofPin_congr {p q : Pin} (a : q.told = p.told) : ofPin q = ofPin p := by
  obtain ⟨hface, hdatum⟩ := Prod.mk.inj a
  simp only [Pin.face, Pin.kind, Prod.mk.injEq] at hface
  obtain ⟨hid, hname, htype, hflow⟩ := hface
  rw [ofPin, ofPin, hid, hname, htype, hflow]
  cases hp : p.flow with
  | true => rfl
  | false =>
    rw [Pin.datum?_of_data hp, Pin.datum?_of_data (hflow.trans hp), Option.some.injEq] at hdatum
    rw [hdatum]

theorem ofNode_congr {n m : Node} (a : n.SameFace m) (hid : m.groupId = n.groupId)
    (hpins : ∀ s i, (m.pin? s i).map Pin.told = (n.pin? s i).map Pin.told) :
    ofNode m = ofNode n := by
  obtain ⟨write, hwrite⟩ := (Function.factorsThrough_iff ofPin).1 fun _ _ => ofPin_congr
  have hlist (s : Side) : (m.pins s).map ofPin = (n.pins s).map ofPin := by
    rw [hwrite, ← List.map_map, ← List.map_map]
    refine congrArg (List.map write) (List.ext_getElem? fun i => ?_)
    rw [List.getElem?_map, List.getElem?_map]
    exact hpins s i
  have hin : m.inputs.map ofPin = n.inputs.map ofPin := hlist .input
  have hout : m.outputs.map ofPin = n.outputs.map ofPin := hlist .output
  simp only [ofNode, a.id, a.type, a.name, a.position, a.enabled, hid, hin, hout]

/-- Groups that tell the same of themselves and list nodes of the same ids have one document. -/
theorem ofForest_congr {f f' : Forest} (houtline : f'.map Group.outline = f.map Group.outline)
    (hids : ∀ b ∈ f.preorder, ∀ c ∈ f'.preorder, c.id = b.id →
      (c.members.filterMap h.node?).map (·.id) = (b.members.filterMap g.node?).map (·.id))
    (parent : Option String) : ofForest h parent f' = ofForest g parent f := by
  induction f generalizing f' parent with
  | nil =>
    cases f' with
    | nil => rfl
    | cons => cases houtline
  | cons b cs rest ihc ih =>
    cases f' with
    | nil => cases houtline
    | cons c cs' rest' =>
      obtain ⟨hbc, hcs, hrest⟩ := Forest.cons.inj houtline
      have hid : c.id = b.id := (congrArg Group.id hbc :)
      have hname : c.name = b.name := (congrArg Group.name hbc :)
      have hbounds : c.bounds = b.bounds := (congrArg Group.bounds hbc :)
      have hself := hids b List.mem_cons_self c List.mem_cons_self hid
      have hnodes : (c.members.filterMap h.node?).map (fun n => Json.string n.id) =
          (b.members.filterMap g.node?).map fun n => Json.string n.id := by
        have hstrings := congrArg (List.map Json.string) hself
        rwa [List.map_map, List.map_map] at hstrings
      rw [ofForest, ofForest, hid, ihc hcs, ih hrest]
      · simp only [ofGroup, hid, hname, hbounds, hnodes]
      · exact fun x hx y hy => hids x (List.mem_cons_of_mem b (List.mem_append_right _ hx)) y
          (List.mem_cons_of_mem c (List.mem_append_right _ hy))
      · exact fun x hx y hy => hids x (List.mem_cons_of_mem b (List.mem_append_left _ hx)) y
          (List.mem_cons_of_mem c (List.mem_append_left _ hy))

end Document

/-! ### Members of groups by the ids that they keep -/

namespace Graph
variable {g h u : Graph} {ls : List Node} (index : Dict NodeKey) (ids : IdSupply)

theorem isSome_groupIndex_iff (g : Graph) (id : String) :
    (g.groupIndex.get? id).isSome = true ↔ id ∈ g.allGroups.map (·.id) := by
  rw [groupIndex_eq, Dict.get?_firsts, Option.isSome_map, List.find?_isSome, List.mem_map]
  simp only [Option.some.injEq, decide_eq_true_eq]
  rfl

namespace Gathered

/-- A node that keeps the id of a group is in a group of that id. -/
theorem isSome_groupIndex (hg : Gathered g) {k : NodeKey} {n : Node} (hn : g.node? k = some n) {id : String}
    (hid : n.groupId = some id) : (g.groupIndex.get? id).isSome = true := by
  have hhome := hg.home hn
  rw [hid, Option.bind_some] at hhome
  rw [← hhome, Option.isSome_iff_ne_none]
  intro hnone
  rw [hg.grouped.ungrouped hn hnone] at hid
  cases hid

/-- A node is in a group if it keeps the id of the group. -/
theorem group_eq_iff (hg : Gathered g) (hids : (g.allGroups.map (·.id)).Nodup) {b : Group}
    (hb : b ∈ g.allGroups) {k : NodeKey} {n : Node} (hn : g.node? k = some n) :
    n.group = some b.key ↔ n.groupId = some b.id := by
  have hfound : g.groupIndex.get? b.id = some b.key := by
    rw [groupIndex_eq]
    exact Dict.get?_firsts_of_unique hb rfl fun c hc hid =>
      List.inj_on_of_nodup_map hids hc hb (Option.some.inj hid)
  constructor
  · intro hgroup
    obtain ⟨c, hc, hkey, hid, -⟩ := hg.grouped.grouped hn hgroup
    rw [hid, hg.grouped.eq_of_key_eq hc (List.mem_append_left _ hb) hkey]
  · intro hid
    rw [hg.home hn, hid, Option.bind_some, hfound]

/-- The members of a group are the nodes that keep its id. -/
theorem memberNodes_eq (hg : Gathered g) (hids : (g.allGroups.map (·.id)).Nodup) {b : Group}
    (hb : b ∈ g.allGroups) : b.members.filterMap g.node? =
      g.memberNodes.filter fun n => n.groupId = some b.id := by
  rw [hg.listed b (List.mem_append_left _ hb), memberNodes, List.filterMap_filter,
    List.filter_filterMap]
  refine List.filterMap_congr fun k _ => ?_
  cases hn : g.node? k with
  | none => simp
  | some n => simp [hg.group_eq_iff hids hb hn, Option.filter_some]

end Gathered

/-! ### What is read names the same pins -/

theorem node_mem_of_get?_pinIndex {id : String} {r : PinRef} (hr : g.pinIndex.get? id = some r) :
    r.node ∈ g.members := by
  rw [pinIndex_eq] at hr
  obtain ⟨s, hs, -, rfl⟩ := Dict.exists_of_get?_firsts hr
  obtain ⟨k, hk, hs⟩ := List.mem_flatMap.1 hs
  rcases List.mem_append.1 hs with hs | hs <;> rwa [Wired.node_of_mem_pinRefs hs]

theorem told_unlinked (hg : g.Listed) (hreads : List.Forall₂ Node.Reads g.memberNodes ls)
    {r : PinRef} (hr : r.node ∈ g.members) :
    ((g.unlinked ls index ids).pin? (r.move g.nodeSpot)).map Pin.told =
      (g.pin? r).map Pin.told := by
  cases hp : g.pin? r with
  | some p =>
    obtain ⟨q, hq, hpq⟩ := pin?_unlinked index ids hg hreads hr hp
    rw [hq, Option.map_some, Option.map_some, hpq.told]
  | none =>
    cases hq : (g.unlinked ls index ids).pin? (r.move g.nodeSpot) with
    | none => rfl
    | some q =>
      obtain ⟨r', p, hr', hmove, hp', -⟩ := exists_of_pin?_unlinked hg hreads hq
      rw [move_inj hr' hmove, hp] at hp'
      cases hp'

theorem datum?_unlinked (hg : g.Listed) (hreads : List.Forall₂ Node.Reads g.memberNodes ls)
    {r : PinRef} (hr : r.node ∈ g.members) :
    (g.unlinked ls index ids).datum? (r.move g.nodeSpot) = g.datum? r := by
  have htold := congrArg (Option.bind · (·.2)) (told_unlinked index ids hg hreads hr)
  rwa [Option.bind_map, Option.bind_map] at htold

theorem pinRefs_unlinked (hg : g.Listed) (hreads : List.Forall₂ Node.Reads g.memberNodes ls)
    {k : NodeKey} (hk : k ∈ g.members) (s : Side) :
    (g.unlinked ls index ids).pinRefs (g.nodeSpot k) s =
      (g.pinRefs k s).map (PinRef.move g.nodeSpot) := by
  obtain ⟨n, hn⟩ := Option.isSome_iff_exists.1 (hg.members_live k hk)
  obtain ⟨l, hl, hread⟩ := node?_unlinked index ids hg hreads hk hn
  simp only [pinRefs, hn, hl, List.map_map, (hread.pins s).length_eq]
  rfl

/-- What is read names the same pins as what was written. -/
theorem tracks_unlinked (hg : g.Listed) (hreads : List.Forall₂ Node.Reads g.memberNodes ls) :
    Tracks g (g.unlinked ls index ids) g.nodeSpot g.wireSpot := by
  refine ⟨links_unlinked index ids ls hg, fun w hw => ?_, fun id => ?_⟩
  · obtain ⟨c, hc⟩ := Option.isSome_iff_exists.1 (hg.links_live w hw)
    rw [wire?_unlinked index ids ls hg hw hc, hc]
    rfl
  · have hrefs : ((g.unlinked ls index ids).members.flatMap fun k =>
        (g.unlinked ls index ids).pinRefs k .input ++ (g.unlinked ls index ids).pinRefs k .output) =
        (g.members.flatMap fun k => g.pinRefs k .input ++ g.pinRefs k .output).map
          (PinRef.move g.nodeSpot) := by
      rw [members_unlinked index ids hg hreads, List.flatMap_map, List.map_flatMap]
      refine List.flatMap_congr fun k hk => ?_
      rw [List.map_append, pinRefs_unlinked index ids hg hreads hk,
        pinRefs_unlinked index ids hg hreads hk]
    rw [pinIndex_eq, pinIndex_eq, Dict.get?_firsts, Dict.get?_firsts, hrefs, List.find?_map,
      Option.map_id', Option.map_id']
    refine congrArg (Option.map _) (List.find?_congr fun r hr => decide_eq_decide.2 ?_)
    obtain ⟨k, hk, hr⟩ := List.mem_flatMap.1 hr
    have hrk : r.node = k := by
      rcases List.mem_append.1 hr with hr | hr <;> exact Wired.node_of_mem_pinRefs hr
    have htold := congrArg (Option.map fun t => t.1.1)
      (told_unlinked index ids hg hreads (hrk ▸ hk))
    rw [Option.map_map, Option.map_map] at htold
    exact Eq.congr_left htold

/-! ### References that are found again -/

/-- What is told of the members is the same if it is the same of each of them. -/
theorem filterMap_memberNodes_congr {α : Type} {F : Node → Option α} {f : NodeKey → NodeKey}
    (hmembers : h.members = g.members.map f)
    (hF : ∀ k ∈ g.members, (h.node? (f k)).bind F = (g.node? k).bind F) :
    h.memberNodes.filterMap F = g.memberNodes.filterMap F := by
  rw [memberNodes, memberNodes, List.filterMap_filterMap, List.filterMap_filterMap, hmembers,
    List.filterMap_map]
  exact List.filterMap_congr hF

theorem Resolved.listed (a : Resolved u g) (hu : u.Unresolved) : g.Listed where
  members_nodup := a.gathered.members_nodup
  members_live k hk := (a.gathered.live k).1 hk
  links_nodup := by
    have hlinks : g.links = u.links := congrArg (fun h => h.2.2.2) a.head
    exact hlinks ▸ hu.wires.links_nodup
  links_live w hw := by
    have hlinks : g.links = u.links := congrArg (fun h => h.2.2.2) a.head
    have hwire := congrArg Option.isSome (a.wire w)
    rw [Option.isSome_map, Option.isSome_map] at hwire
    exact hwire.trans (hu.wires.live w (hlinks ▸ hw))

/-- Graphs of which the same is told, with the members and wires of the second one under the keys of
their places. -/
structure Echo (g h : Graph) : Prop where
  head : (h.id, h.name, h.category, h.mainId) = (g.id, g.name, g.category, g.mainId)
  members : h.members = g.members.map g.nodeSpot
  node : ∀ {k n}, k ∈ g.members → g.node? k = some n →
    ∃ m, h.node? (g.nodeSpot k) = some m ∧ n.SameFace m ∧ m.groupId = n.groupId
  pin : ∀ {r}, r.node ∈ g.members →
    (h.pin? (r.move g.nodeSpot)).map Pin.told = (g.pin? r).map Pin.told
  links : h.links = g.links.map g.wireSpot
  wire : ∀ w ∈ g.links, (h.wire? (g.wireSpot w)).map Wire.loose = (g.wire? w).map Wire.loose
  groups : h.groups.map Group.outline = g.groups.map Group.outline
  gathered : Gathered h

/-- The main node is found again. -/
theorem Resolved.mainId_again (a : Resolved u g) (hg : g.Listed)
    (hreads : List.Forall₂ Node.Reads g.memberNodes ls)
    (b : Resolved (g.unlinked ls index ids) h) : h.mainId = g.mainId := by
  have hfound : (g.unlinked ls index ids).members.filterMap (g.unlinked ls index ids).idOf? =
      u.members.filterMap u.idOf? := by
    have hsame : g.idOf? = u.idOf? := funext a.shell.ids
    have hlisted : g.members = u.members := a.shell.members
    rw [← hsame, ← hlisted, members_unlinked index ids hg hreads, List.filterMap_map]
    refine List.filterMap_congr fun k hk => ?_
    obtain ⟨n, hn⟩ := Option.isSome_iff_exists.1 (hg.members_live k hk)
    obtain ⟨l, hl, hread⟩ := node?_unlinked index ids hg hreads hk hn
    rw [Function.comp_apply, idOf?, idOf?, hn, Option.map_some, ← hread.told.1]
    exact congrArg (Option.map Node.id) hl
  have hkept : (g.unlinked ls index ids).mainId = g.mainId := rfl
  simp only [b.mainId, hfound, hkept, a.mainId, Option.filter_filter, Bool.and_self]

/-- A member finds its group again. -/
theorem Resolved.node_again (a : Resolved u g) (hg : g.Listed)
    (hreads : List.Forall₂ Node.Reads g.memberNodes ls)
    (b : Resolved (g.unlinked ls index ids) h) {k : NodeKey} {n : Node} (hk : k ∈ g.members)
    (hn : g.node? k = some n) :
    ∃ m, h.node? (g.nodeSpot k) = some m ∧ n.SameFace m ∧ m.groupId = n.groupId := by
  obtain ⟨l, hl, hread⟩ := node?_unlinked index ids hg hreads hk hn
  obtain ⟨m, hm, hface, hid⟩ := b.node hl
  obtain ⟨hlid, hlname, hlposition, hlenabled, hlgroup⟩ := hread.told
  refine ⟨m, hm, .trans ⟨hlid, hread.type, hlname, hlposition, hlenabled⟩ hface, ?_⟩
  rw [hid, hlgroup]
  cases hgroup : n.groupId with
  | none => rfl
  | some id =>
    -- a node that keeps the id of a group is in a group of that id
    have hkept := a.gathered.isSome_groupIndex hn hgroup
    have hids : (g.unlinked ls index ids).allGroups.map (·.id) = g.allGroups.map (·.id) :=
      Forest.ids_eq_of_map_outline (Forest.map_outline_number g.groups 0)
    rw [isSome_groupIndex_iff, ← hids, ← isSome_groupIndex_iff] at hkept
    rw [Option.filter_some, if_pos hkept]

/-- The value that was on a pin is on it again. -/
theorem datum?_again (hg : g.Listed) (hd : g.Oriented)
    (harrived : ∀ t : PinRef, t.side = .input →
      (g.datum? t).map (g.arriving? t).getD = g.datum? t)
    (hreads : List.Forall₂ Node.Reads g.memberNodes ls)
    (b : Resolved (g.unlinked ls index ids) h) {r : PinRef} (hr : r.node ∈ g.members) :
    h.datum? (r.move g.nodeSpot) = g.datum? r := by
  have hdatum := datum?_unlinked index ids hg hreads hr
  cases hside : r.side with
  | output => exact (b.output (r := r.move g.nodeSpot) hside).trans hdatum
  | input =>
    have harriving : (g.unlinked ls index ids).arriving? (r.move g.nodeSpot) = g.arriving? r :=
      (tracks_unlinked index ids hg hreads).arriving? hd
        (fun id s hs => move_inj (node_mem_of_get?_pinIndex hs))
        fun id s hs _ => datum?_unlinked index ids hg hreads (node_mem_of_get?_pinIndex hs)
    rw [b.input (t := r.move g.nodeSpot) hside, hdatum, harriving, harrived r hside]

/-- Relinking finds the references of a relinked graph again. -/
theorem Unresolved.echo (hu : u.Unresolved) (hd : u.relink.1.Oriented)
    (hreads : List.Forall₂ Node.Reads u.relink.1.memberNodes ls) :
    Echo u.relink.1 (u.relink.1.unlinked ls index ids).relink.1 := by
  have a := hu.resolved (hu.tracks_relink.oriented hd)
  have hg := a.listed hu
  have htracks := tracks_unlinked index ids hg hreads
  have b := (unresolved_unlinked index ids hg hreads).resolved (htracks.oriented hd)
  refine ⟨?_, b.shell.members.trans (members_unlinked index ids hg hreads),
    a.node_again index ids hg hreads b, fun hr => Pin.map_told ?_ ?_, ?_,
    fun w hw => (b.wire _).trans (htracks.wire w hw),
    b.groups.trans (Forest.map_outline_number _ 0), b.gathered⟩
  · have hhead := b.head
    simp only [Graph.head, Prod.mk.injEq] at hhead
    rw [hhead.1, hhead.2.1, hhead.2.2.1, a.mainId_again index ids hg hreads b]
    rfl
  · have htold := congrArg (Option.map (·.1)) (told_unlinked index ids hg hreads hr)
    rw [Option.map_map, Option.map_map] at htold
    exact (Pin.map_face_of_shell (b.shell.pins _)).trans htold
  · exact datum?_again index ids hg hd (fun t => hu.arrived hd) hreads b hr
  · have hlinks : (u.relink.1.unlinked ls index ids).relink.1.links =
        (u.relink.1.unlinked ls index ids).links := congrArg (fun h => h.2.2.2) b.head
    exact hlinks.trans htracks.links

/-- The document of a graph and that of its echo are the same. -/
theorem Echo.ofGraph_eq (a : Echo g h) (hl : g.Listed) (hg : Gathered g)
    (hids : (g.allGroups.map (·.id)).Nodup) : Document.ofGraph h = Document.ofGraph g := by
  have hnode {α : Type} {F : Node → Option α}
      (hF : ∀ n m : Node, m.id = n.id → m.groupId = n.groupId →
        Document.ofNode m = Document.ofNode n → F m = F n) :
      h.memberNodes.filterMap F = g.memberNodes.filterMap F := by
    refine filterMap_memberNodes_congr a.members fun k hk => ?_
    obtain ⟨n, hn⟩ := Option.isSome_iff_exists.1 (hl.members_live k hk)
    obtain ⟨m, hm, hface, hgroup⟩ := a.node hk hn
    rw [hn, hm, Option.bind_some, Option.bind_some]
    refine hF n m hface.id hgroup (Document.ofNode_congr hface hgroup fun s i => ?_)
    have hpin := a.pin (r := ⟨k, s, i⟩) hk
    simp only [pin?, PinRef.move, hm, hn, Option.bind_some] at hpin
    exact hpin
  have hnodes : (h.members.filterMap h.node?).map Document.ofNode =
      (g.members.filterMap g.node?).map Document.ofNode := by
    rw [← List.filterMap_eq_map]
    exact hnode fun n m _ _ hdoc => congrArg some hdoc
  have hwires : (h.links.filterMap h.wire?).map Document.ofWire =
      (g.links.filterMap g.wire?).map Document.ofWire := by
    rw [a.links, List.filterMap_map, List.map_filterMap, List.map_filterMap]
    refine List.filterMap_congr fun w hw => ?_
    have hwire := congrArg (Option.map Document.ofWire) (a.wire w hw)
    rwa [Option.map_map, Option.map_map] at hwire
  have hgroups : Document.ofForest h none h.groups = Document.ofForest g none g.groups := by
    refine Document.ofForest_congr a.groups (fun b hb c hc hid => ?_) none
    have hids' : (h.allGroups.map (·.id)).Nodup := Forest.ids_eq_of_map_outline a.groups ▸ hids
    rw [hg.memberNodes_eq hids hb, a.gathered.memberNodes_eq hids' hc, hid, ← List.filterMap_eq_filter,
      List.map_filterMap, List.map_filterMap]
    refine hnode fun n m hid hgroup _ => ?_
    simp only [Option.guard, hgroup]
    split
    · exact congrArg some hid
    · rfl
  have hhead := a.head
  simp only [Prod.mk.injEq] at hhead
  obtain ⟨hid, hname, hcategory, hmain⟩ := hhead
  simp only [Document.ofGraph, hid, hname, hcategory, hmain, hnodes, hwires, hgroups]

end Graph

/-! ### What is read can be read again -/

/-- Pins are of the kinds of which they are specified to be, whatever ids they get. -/
theorem Node.map_kind_makePins (specs : List PinSpec) (ids : IdSupply) :
    (makePins specs ids).1.map Pin.kind = specs.map fun s => (s.name, s.type, s.flow) := by
  induction specs generalizing ids with
  | nil => rfl
  | cons s specs ih =>
    rw [makePins, List.map_cons, List.map_cons]
    exact congrArg (List.cons _) (ih _)

namespace Registry
variable {r : Registry}

/-- The nodes that a registry makes can be made again under their own types, with the same pins. -/
def Recreates (r : Registry) : Prop :=
  ∀ type ids n ids', r.create type ids = some (n, ids') →
    ∀ ids, ∃ m ids', r.create n.type ids = some (m, ids') ∧ n.Alike m

/-- Definitions that are registered under their names make nodes that can be made again. -/
theorem recreates_of_definitions (hr : ∀ name e, r.entries.get? name = some e →
    ∃ d, e.maker = .definition d ∧ d.name = name) : r.Recreates := by
  intro type ids n ids' hcreate ids₂
  obtain ⟨e, he, hmake⟩ := Option.bind_eq_some_iff.1 hcreate
  obtain ⟨name, hname⟩ : ∃ name, r.entries.get? name = some e := by
    rcases Option.or_eq_some_iff.1 he with he | ⟨-, he⟩
    · exact ⟨_, he⟩
    · obtain ⟨name, -, hname⟩ := Option.bind_eq_some_iff.1 he
      exact ⟨name, hname⟩
  obtain ⟨d, hd, rfl⟩ := hr name e hname
  simp only [hd, Option.some.injEq] at hmake
  obtain rfl : (d.make ids).1 = n := by rw [hmake]
  have hfind : r.find? d.name = some e := by rw [find?, hname, Option.some_or]
  refine ⟨(d.make ids₂).1, (d.make ids₂).2, ?_, ?_, fun s => ?_⟩
  · rw [Definition.type_make, create, hfind, Option.bind_some, hd]
  · rw [Definition.type_make, Definition.type_make]
  · cases s
    · exact (Node.map_kind_makePins _ _).trans (Node.map_kind_makePins _ _).symm
    · exact (Node.map_kind_makePins _ _).trans (Node.map_kind_makePins _ _).symm

end Registry

namespace Graph.Resolved
variable {u g : Graph}

theorem idOf? (a : Resolved u g) (k : NodeKey) : g.idOf? k = u.idOf? k := a.shell.ids k

/-- Relinking leaves the type of a node as it is, and the kinds of its pins. -/
theorem alike (a : Resolved u g) {k : NodeKey} {l n : Node} (hl : u.node? k = some l)
    (hn : g.node? k = some n) : l.Alike n := by
  obtain ⟨m, hm, hface, -⟩ := a.node hl
  obtain rfl : m = n := Option.some.inj (hm.symm.trans hn)
  refine ⟨hface.type, fun s => List.ext_getElem? fun i => ?_⟩
  have hpin := congrArg (Option.map (·.2)) (Pin.map_face_of_shell (a.shell.pins ⟨k, s, i⟩))
  have hu : u.reindex.pin? ⟨k, s, i⟩ = l.pin? s i := by
    change (u.node? k).bind _ = _
    rw [hl, Option.bind_some]
  rw [hu, pin?, hn, Option.bind_some, Option.map_map, Option.map_map] at hpin
  rw [List.getElem?_map, List.getElem?_map]
  exact hpin

end Graph.Resolved

namespace Registry.Drafts
variable {r : Registry} {g u : Graph}

/-- A graph that was read is told apart in its document if its groups are. -/
theorem legible (hu : r.Drafts u) (a : Graph.Resolved u g)
    (hids : (g.allGroups.map (·.id)).Nodup) : g.Legible := by
  have hg := a.listed hu.unresolved
  have hnodes {j k : NodeKey} {m n : Node} (hm : g.node? j = some m) (hn : g.node? k = some n)
      (hid : m.id = n.id) : j = k := by
    have hj := a.idOf? j
    have hk := a.idOf? k
    rw [Graph.idOf?, hm, Option.map_some] at hj
    rw [Graph.idOf?, hn, Option.map_some] at hk
    obtain ⟨m', hm', hmid⟩ := Option.map_eq_some_iff.1 hj.symm
    obtain ⟨n', hn', hnid⟩ := Option.map_eq_some_iff.1 hk.symm
    exact hu.nodes hm' hn' (hmid.trans (hid.trans hnid.symm))
  have hlinks : g.links = u.links := congrArg (fun h => h.2.2.2) a.head
  refine ⟨Graph.nodup_ids hg.members_nodup fun _ _ _ _ _ _ => hnodes,
    Graph.nodup_ids hg.links_nodup fun v hv w hw c d hc hd hid => ?_, hids,
    fun b hb k hk n hn m hm hid => ?_⟩
  · have hv' := a.wire v
    have hw' := a.wire w
    rw [hc, Option.map_some] at hv'
    rw [hd, Option.map_some] at hw'
    obtain ⟨c', hc', hcl⟩ := Option.map_eq_some_iff.1 hv'.symm
    obtain ⟨d', hd', hdl⟩ := Option.map_eq_some_iff.1 hw'.symm
    have hcid : c'.id = c.id := (congrArg Wire.id hcl :)
    have hdid : d'.id = d.id := (congrArg Wire.id hdl :)
    exact hu.wires (hlinks ▸ hv) (hlinks ▸ hw) hc' hd' (hcid.trans (hid.trans hdid.symm))
  · obtain ⟨j, -, hj⟩ := List.mem_filterMap.1 hm
    obtain rfl : j = k := hnodes hj hn hid
    obtain rfl : m = n := Option.some.inj (hj.symm.trans hn)
    obtain ⟨l, hl, hgroup⟩ := a.gathered.grouped.listed b (List.mem_append_left _ hb) j hk
    obtain rfl : m = l := Option.some.inj (hn.symm.trans hl)
    rw [(a.gathered.group_eq_iff hids hb hn).1 hgroup]
    rfl

/-- The registry makes the nodes of a graph that was read. -/
theorem covers (hu : r.Drafts u) (hr : r.Recreates) (a : Graph.Resolved u g) : r.Covers g := by
  intro k hk n hn ids
  have hlive : (u.node? k).isSome = true := by
    have hsame := congrArg Option.isSome (a.idOf? k)
    rw [Graph.idOf?, hn, Graph.idOf?, Option.isSome_map, Option.isSome_map] at hsame
    exact hsame.symm
  obtain ⟨l, hl⟩ := Option.isSome_iff_exists.1 hlive
  obtain ⟨m, type, ids₁, ids₂, hcreate, hml⟩ := hu.made hl
  have hln := a.alike hl hn
  obtain ⟨m', ids', hagain, hmm⟩ := hr type ids₁ m ids₂ hcreate ids
  have htype : n.type = m.type := hln.type.trans hml.type
  refine ⟨m', ids', htype ▸ hagain, hmm.type.trans htype.symm, fun s => ?_⟩
  rw [hmm.pins, hln.pins, hml.pins]

end Registry.Drafts

/-! ### Nothing in its place -/

namespace GiveTake

theorem recreates : registry.Recreates := by
  refine Registry.recreates_of_definitions fun name e he => ?_
  change ((Dict.empty.insert giver.name _).insert taker.name _).get? name = some e at he
  rw [Dict.get?_insert, Dict.get?_insert] at he
  split at he
  · next hname => exact ⟨taker, by rw [← Option.some.inj he], hname.symm⟩
  · split at he
    · next hname => exact ⟨giver, by rw [← Option.some.inj he], hname.symm⟩
    · cases he

/-- A node of an unknown type, and nodes, wires and pins of ids that are taken. Wires lead to an
input that is fed and to a pin that is not there, a group stands before its parent, and the main
node is missing. -/
def irregular : Json :=
  .object [("main_node_id", .string "gone"),
    ("nodes", .array [
      .object [("id", .string "a"), ("type", .string "give"), ("group_id", .string "inner"),
        ("outputs", .array [.object [("id", .string "x"), ("value", Document.ofValue (.int 7))]])],
      .object [("id", .string "b"), ("type", .string "nowhere")],
      .object [("id", .string "a"), ("type", .string "take")],
      .object [("id", .string "c"), ("type", .string "couple/take"), ("group_id", .string "gone"),
        ("inputs", .array [.object [("id", .string "y")]])],
      .object [("id", .string "d"), ("type", .string "take"),
        ("inputs", .array [.object [("id", .string "y")]])]]),
    ("connections", .array [wireRecord "u" "x" "y", wireRecord "v" "x" "y", wireRecord "u" "y" "x",
      .object [("source_pin_id", .string "x"), ("target_pin_id", .string "gone")]]),
    ("groups", .array [groupRecord "inner" (some "outer"),
      .object [("id", .string "outer"), ("node_ids", .array [.string "d"])]])]

end GiveTake

/-- Whatever document a graph was read from, what is written of it is read as a graph of which the
same is written. -/
theorem Document.exists_reload {r : Registry} (hr : r.Recreates) {ids : IdSupply} {name : String}
    {category : Category} {j : Json} {g : Graph}
    (h : (load r (.new ids name category) j).result = .ok g)
    (hids : (g.allGroups.map (·.id)).Nodup) (hd : g.Oriented) (ids' : IdSupply) :
    ∃ l, (load r (.new ids') (ofGraph g)).result = .ok l ∧ ofGraph l = ofGraph g := by
  obtain ⟨u, hu, rfl⟩ := exists_drafts_of_load h
  have a := hu.unresolved.resolved (hu.unresolved.tracks_relink.oriented hd)
  have hl := a.listed hu.unresolved
  obtain ⟨ls, index, ids₂, hreads, hrun⟩ :=
    Loader.Runs.document (hu.legible a hids) (hu.covers hr a) ids'
  have hrun : (Loader.document r (ofGraph u.relink.1)).run { graph := .new ids' } = _ := hrun
  refine ⟨(u.relink.1.unlinked ls index ids₂).relink.1, ?_, ?_⟩
  · simp only [load, hrun]
  · exact (hu.unresolved.echo index ids₂ hd hreads).ofGraph_eq hl a.gathered hids

/-- Where ids repeat and lead nowhere, too, what is written of the graph is read as it was
written. -/
theorem Document.exists_reload_irregular : GiveTake.registry.Recreates ∧
    ∃ g, GiveTake.read GiveTake.irregular = .ok g ∧
      g.members = [0, 2, 3] ∧ g.links.map g.targetOf? = [some ⟨2, .input, 0⟩, none, none] ∧
      g.datum? ⟨2, .input, 0⟩ = some (.int 7) ∧ g.allGroups.map (·.members) = [[0], [3]] ∧
      g.mainId = none ∧ (g.allGroups.map (·.id)).Nodup ∧ g.Oriented ∧
      ∃ l, GiveTake.read (ofGraph g) = .ok l ∧ ofGraph l = ofGraph g := by
  obtain ⟨g, hg, hread⟩ := GiveTake.exists_of_read (j := GiveTake.irregular) (P := fun g =>
    g.members = [0, 2, 3] ∧ g.links.map g.targetOf? = [some ⟨2, .input, 0⟩, none, none] ∧
    g.datum? ⟨2, .input, 0⟩ = some (.int 7) ∧ g.allGroups.map (·.members) = [[0], [3]] ∧
    g.mainId = none ∧ (g.allGroups.map (·.id)).Nodup ∧ g.Oriented) (by decide +kernel)
  obtain ⟨hmembers, htargets, hdatum, hgroups, hmain, hids, hd⟩ := of_decide_eq_true hread
  exact ⟨GiveTake.recreates, g, hg, hmembers, htargets, hdatum, hgroups, hmain, hids, hd,
    Document.exists_reload GiveTake.recreates hg hids hd {}⟩

end Patchbay
