import Patchbay.Proofs.Grouping.GroupedInside
import Patchbay.Proofs.Wiring.Coherent
import Patchbay.Proofs.Wiring.Outlived
/-!
# Wires under ids that pins had before

A wire keeps the ids that its pins had when it got them. A member is destroyed with the wires that
begin or end there or name a pin of it, but which wires these are is asked twice: first to take them
off their pins, and then to destroy them, when only the names are left to go by. A pin that got
another id meanwhile is not recognised by the second question, and its wires stay on the list.

## Main definitions

* `Graph.Enrolled`: every member is listed once, and found under its own id.
* `Relabelled`: the graphs that editing leads to if pins get other ids at any time, and wires are
  handled one by one.

## Main statements

* `Graph.links_removeNode`: the wires that stay are those that name no pin of the member.
* `Relabelled.links_after_removeNode`: which wires outlive a member, and that they lead nowhere.
-/
namespace Patchbay
namespace Graph
variable {g h : Graph} {k : NodeKey}

/-! ### What is left on the list -/

@[simp] theorem links_dropWire (g : Graph) (w : WireKey) : (g.dropWire w).links = g.links := by
  simp only [dropWire]
  split
  · rfl
  · simp only [links_detachEnd]

theorem links_dropNode (g : Graph) (k : NodeKey) : (g.dropNode k).links = g.links := by
  have hrelease (g : Graph) (r : PinRef) : (g.releasePin r).links = g.links := by
    simp only [releasePin]
    split
    · exact foldl_unchanged links (f := fun g w => g.forgetPin r w) (fun _ _ => rfl) _ g
    · rfl
  exact (foldl_unchanged links hrelease _ _).trans (sameWiring_leaveAnyGroup g k).links

/-- The wires that stay when a node is removed are those that name no pin of it. -/
theorem links_removeNode (hk : g.contains k = true) :
    (g.removeNode k).2.links = g.links.filter fun w => ¬ g.Names k w := by
  have a := severed_disconnectTouching g k
  have hdrop : ((g.disconnectTouching k).dropTouching k).links =
      g.links.filter fun w => ¬ g.Names k w := by
    rw [dropTouching, foldl_unchanged links links_dropWire, ← a.links]
    refine List.filter_congr fun w hw => ?_
    rw [a.links] at hw
    have htouches : (g.disconnectTouching k).touches k w = true ↔ g.Names k w := by
      rw [a.touches_iff, or_iff_right_iff_imp]
      rintro ⟨hgone, hinv⟩
      -- a wire that begins or ends at the node has lost its ends by now
      have htouch := (touches_iff g k w).2 (.inl hinv)
      simp [hw, htouch] at hgone
    rw [Bool.eq_iff_iff, Bool.not_eq_true', decide_eq_true_iff, ← htouches, Bool.not_eq_true]
  obtain ⟨n, hn, -⟩ := (Option.any_eq_true _ _).1 hk
  simp only [removeNode, hn, hk, if_true, links_dropNode]
  rw [← hdrop, ← (sameWiring_leaveAnyGroup ((g.disconnectTouching k).dropTouching k) k).links]
  split <;> rfl

/-- No wire keeps an end at a node that is removed. -/
theorem ends_removeNode (hk : g.contains k = true) {w : WireKey} (hw : w ∈ g.links)
    (hinv : g.involves w k = true) :
    (g.removeNode k).2.sourceOf? w = none ∧ (g.removeNode k).2.targetOf? w = none := by
  have a := severed_disconnectTouching g k
  have b := loosens_removeNode_of_contains hk
  have hgone : (decide (w ∈ g.links) && g.touches k w) = true := by
    simp [hw, (touches_iff g k w).2 (.inl hinv)]
  have hsource := a.sourceOf? w
  have htarget := a.targetOf? w
  rw [if_pos hgone] at hsource htarget
  rw [Option.eq_none_iff_forall_ne_some, Option.eq_none_iff_forall_ne_some]
  refine ⟨fun r hr => ?_, fun r hr => ?_⟩
  · rw [b.source hr] at hsource
    cases hsource
  · rw [b.target hr] at htarget
    cases htarget

/-! ### Members under their ids -/

/-- Every member is listed once, and found under its own id. -/
structure Enrolled (g : Graph) : Prop where
  indexed : Indexed g
  nodup : g.members.Nodup
  own : ∀ k ∈ g.members, ∃ id, g.idOf? k = some id ∧ g.nodeWithId? id = some k

namespace Enrolled

theorem of_sameRoll (hg : Enrolled g) (a : SameRoll g h) : Enrolled h := by
  refine ⟨hg.indexed.of_sameRoll a, a.members ▸ hg.nodup, fun k hk => ?_⟩
  rw [a.members] at hk
  obtain ⟨id, hid, hfound⟩ := hg.own k hk
  exact ⟨id, (a.ids k).trans hid, (a.nodeWithId? id).trans hfound⟩

theorem contains (hg : Enrolled g) (hk : k ∈ g.members) : g.contains k = true := by
  obtain ⟨id, hid, hfound⟩ := hg.own k hk
  simp [contains_eq, hid, hfound]

theorem newNode (hg : Enrolled g) (n : Node) : Enrolled (g.newNode n).2 := by
  refine ⟨hg.indexed.newNode n, hg.nodup, fun k hk => ?_⟩
  obtain ⟨id, hid, hfound⟩ := hg.own k hk
  obtain ⟨m, hm, -⟩ := Option.map_eq_some_iff.1 hid
  refine ⟨id, ?_, hfound⟩
  rw [idOf?, node?_newNode, if_neg (Nat.ne_of_lt (Arena.lt_next_of_get? hm))]
  exact hid

theorem dropNode (hg : Enrolled g) (hk : k ∉ g.members) : Enrolled (g.dropNode k) := by
  have hindexed := hg.indexed.dropNode (hg.indexed.not_found_of_not_mem hk)
  obtain ⟨l, a, hdrop⟩ := exists_dropNode g k
  have hl := hg.of_sameRoll ((sameWiring_leaveAnyGroup g k).sameRoll.trans a.sameRoll)
  have hmembers : l.members = g.members :=
    a.members.trans (sameWiring_leaveAnyGroup g k).members
  rw [hdrop] at hindexed ⊢
  refine ⟨hindexed, hl.nodup, fun j hj => ?_⟩
  obtain ⟨id, hid, hfound⟩ := hl.own j hj
  refine ⟨id, ?_, hfound⟩
  rw [idOf?, node?_eraseNode, if_neg]
  · exact hid
  · rintro rfl
    exact hk (hmembers ▸ hj)

theorem insertNode (hg : Enrolled g) (hk : k ∉ g.members) : Enrolled (g.insertNode k).2 := by
  have hindexed := hg.indexed.insertNode hk
  simp only [Graph.insertNode] at hindexed ⊢
  split
  · exact hg
  next n hn =>
  rw [hn] at hindexed
  dsimp only at hindexed
  split
  · exact hg.dropNode hk
  next hfree =>
  rw [hfree] at hindexed
  refine ⟨hindexed, List.nodup_append.2 ⟨hg.nodup, List.nodup_singleton k, ?_⟩, fun j hj => ?_⟩
  · rintro a ha b hb rfl
    exact hk (List.mem_singleton.1 hb ▸ ha)
  · simp only [nodeWithId?, Dict.get?_insert]
    rcases List.mem_append.1 hj with hj | hj
    · obtain ⟨id, hid, hfound⟩ := hg.own j hj
      refine ⟨id, hid, ?_⟩
      rw [if_neg]
      · exact hfound
      · rintro rfl
        rw [hfree] at hfound
        cases hfound
    · obtain rfl := List.mem_singleton.1 hj
      exact ⟨n.id, congrArg (Option.map Node.id) hn, if_pos rfl⟩

theorem removeNode (hg : Enrolled g) (k : NodeKey) : Enrolled (g.removeNode k).2 := by
  rcases removeNode_cases g k with h | ⟨n, l, mainId, hn, hk, a, -, h⟩
  · rwa [h]
  · have hroll := a.sameRoll.trans (sameWiring_leaveAnyGroup l k).sameRoll
    have hl := hg.of_sameRoll hroll
    have hid : (l.leaveAnyGroup k).idOf? k = some n.id := by
      rw [hroll.ids]
      exact congrArg (Option.map Node.id) hn
    have hfound : (l.leaveAnyGroup k).nodeWithId? n.id = some k := by
      rw [hroll.nodeWithId?]
      simpa [Graph.contains, hn] using hk
    rw [h]
    generalize l.leaveAnyGroup k = l at hl hid hfound ⊢
    refine dropNode ⟨(hl.indexed.forget hid mainId).1, hl.nodup.erase k, fun j hj => ?_⟩
      hl.nodup.not_mem_erase
    obtain ⟨hne, hj⟩ := hl.nodup.mem_erase_iff.1 hj
    obtain ⟨id, hjd, hj⟩ := hl.own j hj
    refine ⟨id, hjd, ?_⟩
    rw [nodeWithId?, Dict.get?_erase, if_neg]
    · exact hj
    · rintro rfl
      exact hne (Option.some.inj (hj.symm.trans hfound))

theorem insertWire (hg : Enrolled g) (w : WireKey) : Enrolled (g.insertWire w).2 := by
  simp only [Graph.insertWire]
  split
  · exact hg.of_sameRoll (sameCore_dropWire g w).sameRoll
  · exact hg.of_sameRoll ⟨fun _ => rfl, rfl, rfl, rfl⟩

/-- Whatever is done to a graph, its members are enrolled. -/
theorem apply (hg : Enrolled g) {e : Edit} (he : e.Admissible g) : Enrolled (e.apply g) := by
  cases e with
  | newNode n => exact hg.newNode n
  | insertNode k => exact hg.insertNode he
  | dropNode k => exact hg.dropNode he
  | removeNode k => exact hg.removeNode k
  | removeNodeWithId id =>
    simp only [Edit.apply, removeNodeWithId]
    split
    · exact hg.removeNode _
    · exact hg
  | setMain id =>
    have hroll (mainId : Option String) : Enrolled { g with mainId } :=
      ⟨hg.indexed, hg.nodup, hg.own⟩
    simp only [Edit.apply, setMain]
    split
    · exact hroll none
    · split
      · exact hroll _
      · exact hg
  | _ => exact hg.of_sameRoll (sameRoll_apply g not_false)

end Enrolled
end Graph

/-! ### Histories -/

/-- Something is done to a wire, and not to a node. -/
def Handling.OnWires : Handling → Prop
  | newNode _ | dropNode _ => False
  | _ => True

/-- Wires can be handled without any effect on the members. -/
theorem Handling.sameRoll (g : Graph) {x : Handling} (hx : x.OnWires) :
    Graph.SameRoll g (x.apply g) := by
  cases x with
  | newNode | dropNode => exact hx.elim
  | join s t => exact (Graph.sameCore_joinPins g s t).sameRoll
  | newWire => exact ⟨fun _ => rfl, rfl, rfl, rfl⟩
  | setSource w r => exact (Graph.sameCore_setSource g w r).sameRoll
  | setTarget w r => exact (Graph.sameCore_setTarget g w r).sameRoll
  | transfer w => exact (Graph.sameCore_transfer g w).sameRoll
  | disconnect w => exact (Graph.sameCore_disconnect g w).sameRoll
  | dropWire w => exact (Graph.sameCore_dropWire g w).sameRoll

/-- The graphs that editing leads to if pins get other ids at any time. Wires can also be handled
one by one, and loose ones be inserted. -/
inductive Relabelled : Graph → Prop where
  | new (ids : IdSupply) (name : String) (category : Category) :
      Relabelled (.new ids name category)
  | edit {g : Graph} (hg : Relabelled g) (e : Edit) (he : e.Admissible g) : Relabelled (e.apply g)
  | relabel {g : Graph} (hg : Relabelled g) (r : PinRef) (id : String) :
      Relabelled (g.modifyPin r fun p => { p with id })
  | handle {g : Graph} (hg : Relabelled g) (x : Handling) (hx : x.Possible g) (hw : x.OnWires) :
      Relabelled (x.apply g)
  | insertWire {g : Graph} (hg : Relabelled g) (w : WireKey) (hw : w ∉ g.links) :
      Relabelled (g.insertWire w).2

/-- No pin needs to get another id. -/
theorem Reachable.relabelled {g : Graph} (hg : Reachable g) : Relabelled g := by
  induction hg with
  | new ids name category => exact .new ids name category
  | edit _ e he ih => exact ih.edit e he

theorem Relabelled.enrolled {g : Graph} (hg : Relabelled g) : g.Enrolled := by
  induction hg with
  | new ids name category =>
    refine ⟨fun id k hk => ?_, List.nodup_nil, nofun⟩
    cases hk
  | edit _ e he ih => exact ih.apply he
  | relabel _ r id ih => exact ih.of_sameRoll (Graph.sameCore_modifyPin _ r _).sameRoll
  | handle _ x _ hw ih => exact ih.of_sameRoll (x.sameRoll _ hw)
  | insertWire _ w _ ih => exact ih.insertWire w

/-- A wire of a graph that editing led to names the pins at which it begins and ends. -/
theorem Reachable.names_of_involves {g : Graph} (hg : Reachable g) {w : WireKey} {k : NodeKey}
    (hinv : g.involves w k = true) : g.Names k w := by
  obtain ⟨r, hr, rfl⟩ := Graph.end_of_involves hinv
  exact hg.wired.names_of_end hr

/-- A member is removed with the wires that name one of its pins. A wire that began or ended there
under an id that no pin of it has any more stays on the list and leads nowhere. As long as no pin
gets another id there is no such wire. -/
theorem Relabelled.links_after_removeNode {g : Graph} (hg : Relabelled g) {k : NodeKey}
    (hk : k ∈ g.members) :
    let h := (g.removeNode k).2
    (g.removeNode k).1 = true ∧ (h.links = g.links.filter fun w => ¬ g.Names k w) ∧
      (∀ w ∈ h.links, g.involves w k = true → h.sourceOf? w = none ∧ h.targetOf? w = none) ∧
      (Reachable g → ∀ w ∈ h.links, g.involves w k = false) := by
  intro h
  have hc := hg.enrolled.contains hk
  have hlinks : h.links = g.links.filter fun w => ¬ g.Names k w := Graph.links_removeNode hc
  have hstays {w : WireKey} (hw : w ∈ h.links) : w ∈ g.links ∧ ¬ g.Names k w := by
    rw [hlinks, List.mem_filter] at hw
    exact ⟨hw.1, of_decide_eq_true hw.2⟩
  refine ⟨?_, hlinks, fun w hw hinv => Graph.ends_removeNode hc (hstays hw).1 hinv,
    fun hr w hw => ?_⟩
  · obtain ⟨n, hn, -⟩ := (Option.any_eq_true _ _).1 hc
    simp [Graph.removeNode, hn, hc]
  · rw [← Bool.not_eq_true]
    exact fun hinv => (hstays hw).2 (hr.names_of_involves hinv)

namespace Relabelled

/-- Two members with a wire between them. -/
def pair : Graph :=
  [Edit.newNode Handling.giver, .insertNode 0, .newNode Handling.taker, .insertNode 1,
    .connect ⟨0, .output, 0⟩ ⟨1, .input, 0⟩].foldl Edit.apply (.new {})

/-- The same members after the output got another id. -/
def renamed : Graph := pair.modifyPin ⟨0, .output, 0⟩ fun p => { p with id := "z" }

theorem reachable_pair : Reachable pair :=
  (Reachable.new {} "Graph" .controlFlow).edits
    ⟨Handling.fresh.1, List.not_mem_nil, Handling.fresh.2, (by decide : (1 : Nat) ∉ [0]),
      trivial, trivial⟩

theorem relabelled_renamed : Relabelled renamed :=
  reachable_pair.relabelled.relabel ⟨0, .output, 0⟩ "z"

end Relabelled

/-- The wire stays if the first node is removed. -/
theorem Relabelled.links_after_removeNode_renamed :
    let g := Relabelled.renamed
    let h := (g.removeNode 0).2
    Relabelled g ∧ (0 : Nat) ∈ g.members ∧ h.links = [0] ∧
      (g.removeNode 0).1 = true ∧ (h.links = g.links.filter fun w => ¬ g.Names 0 w) ∧
      (∀ w ∈ h.links, g.involves w 0 = true → h.sourceOf? w = none ∧ h.targetOf? w = none) ∧
      (Reachable g → ∀ w ∈ h.links, g.involves w 0 = false) := by
  intro g h
  exact ⟨Relabelled.relabelled_renamed, by decide, by decide,
    Relabelled.relabelled_renamed.links_after_removeNode (by decide)⟩

/-- Not every wire that begins or ends at a member is removed with it. -/
theorem Relabelled.not_forall_removed : ¬ ∀ g, Relabelled g → ∀ k ∈ g.members, ∀ w ∈ g.links,
    g.involves w k = true → w ∉ (g.removeNode k).2.links := by
  intro hclaim
  exact hclaim Relabelled.renamed Relabelled.relabelled_renamed 0 (by decide) 0 (by decide)
    (by decide) (by decide)

end Patchbay
