import Patchbay.Proofs.Edit
import Patchbay.Proofs.Wiring.Wired
/-!
# Nodes that come and go

A node that is not a member has no wires in a wired graph, so that it can be made, inserted and
destroyed freely. A member is destroyed after its wires, and nothing points at it afterwards.

## Main statements

* `Graph.Wired.newNode`, `Graph.Wired.insertNode`: nodes come in.
* `Graph.Wired.dropNode`, `Graph.Wired.removeNode`: nodes go, members with their wires.
-/
namespace Patchbay

namespace Graph
namespace Wired
variable {g h : Graph} {k : NodeKey}

/-- No wire ends at a node that is not a member. -/
theorem free_of_loose (hg : Wired g) {r : PinRef} {p : Pin} (hr : r.node ∉ g.members)
    (hp : g.pin? r = some p) : p.Free := by
  refine ⟨hg.adopted hp, ?_, ?_⟩
  · rw [Option.eq_none_iff_forall_not_mem]
    intro w hw
    obtain ⟨c, hc, hct⟩ := Option.bind_eq_some_iff.1 ((hg.incoming hp w).1 hw)
    obtain ⟨s, t, p, q, j⟩ := hg.joined hc
    obtain rfl : t = r := Option.some.inj (j.target.symm.trans hct)
    exact hr j.target_member
  · rw [hg.outgoing hp, List.filter_eq_nil_iff]
    intro w _ hw
    obtain ⟨c, hc, hcs⟩ := Option.bind_eq_some_iff.1 (of_decide_eq_true hw)
    obtain ⟨s, t, p, q, j⟩ := hg.joined hc
    obtain rfl : s = r := Option.some.inj (j.source.symm.trans hcs)
    exact hr j.source_member

/-- What lies beside a wired graph can change in any way that leaves its pins free. -/
theorem of_members (hg : Wired g) (hids : ∀ k ∈ g.members, h.idOf? k = g.idOf? k)
    (hpins : ∀ r : PinRef, r.node ∈ g.members → h.pin? r = g.pin? r)
    (hfree : ∀ {r : PinRef} {p}, r.node ∉ g.members → h.pin? r = some p → p.Free)
    (hwires : h.wires = g.wires) (hmembers : h.members = g.members) (hindex : h.index = g.index)
    (hlinks : h.links = g.links) : Wired h := by
  have hwire (w : WireKey) : h.wire? w = g.wire? w := by simp only [wire?, hwires]
  have hsource (w : WireKey) : h.sourceOf? w = g.sourceOf? w := by simp only [sourceOf?, hwire]
  have htarget (w : WireKey) : h.targetOf? w = g.targetOf? w := by simp only [targetOf?, hwire]
  have hid (id : String) : h.nodeWithId? id = g.nodeWithId? id := by simp only [nodeWithId?, hindex]
  have hends {w : WireKey} {r : PinRef}
      (hw : g.sourceOf? w = some r ∨ g.targetOf? w = some r) : r.node ∈ g.members := by
    rcases hw with hw | hw <;> obtain ⟨c, hc, hce⟩ := Option.bind_eq_some_iff.1 hw <;>
      obtain ⟨s, t, p, q, j⟩ := hg.joined hc
    · exact Option.some.inj (j.source.symm.trans hce) ▸ j.source_member
    · exact Option.some.inj (j.target.symm.trans hce) ▸ j.target_member
  constructor
  · refine ⟨?_, ?_, ?_, ?_, ?_, ?_, ?_⟩
    · rw [hlinks]; exact hg.nodup
    · intro w s hw; rw [hsource] at hw; rw [hlinks]; exact hg.source_listed hw
    · intro w t hw; rw [htarget] at hw; rw [hlinks]; exact hg.target_listed hw
    · intro w s hw; rw [hsource] at hw; exact hg.source_side hw
    · intro w t hw; rw [htarget] at hw; exact hg.target_side hw
    · intro r p hp w
      rw [htarget]
      by_cases hr : r.node ∈ g.members
      · rw [hpins r hr] at hp
        exact hg.incoming hp w
      · rw [(hfree hr hp).incoming]
        exact ⟨fun h => absurd h.symm (Option.some_ne_none w),
          fun hw => absurd (hends (.inr hw)) hr⟩
    · intro r p hp
      simp only [hlinks, hsource]
      by_cases hr : r.node ∈ g.members
      · rw [hpins r hr] at hp
        exact hg.outgoing hp
      · rw [(hfree hr hp).outgoing, eq_comm, List.filter_eq_nil_iff]
        exact fun w _ hw => hr (hends (.inl (of_decide_eq_true hw)))
  · intro w; rw [hlinks, hwire]; exact hg.live w
  · intro w c hw
    rw [hwire] at hw
    obtain ⟨s, t, p, q, j⟩ := hg.joined hw
    exact ⟨s, t, p, q, { j with
      source_member := hmembers ▸ j.source_member
      target_member := hmembers ▸ j.target_member
      source_pin := (hpins s j.source_member).trans j.source_pin
      target_pin := (hpins t j.target_member).trans j.target_pin }⟩
  · intro r p hp
    by_cases hr : r.node ∈ g.members
    · exact hg.adopted (hpins r hr ▸ hp)
    · exact (hfree hr hp).owned
  · rw [hmembers]; exact hg.members_nodup
  · intro k hk
    rw [hmembers] at hk
    rw [hids k hk]
    exact hg.members_live k hk
  · intro id k
    rw [hid, hmembers, hg.indexed]
    exact and_congr_right fun hk => by rw [hids k hk]

/-! ### Loose nodes -/

theorem next_not_mem (hg : Wired g) : g.nodes.next ∉ g.members := by
  intro hk
  obtain ⟨id, hid⟩ := hg.members_live _ hk
  simp [idOf?, node?] at hid

/-- A fresh node can be put beside a wired graph. -/
theorem newNode (hg : Wired g) {n : Node} (hn : n.Fresh) : Wired (g.newNode n).2 := by
  have hnode := node?_newNode g n
  have hold {k : NodeKey} (hk : k ∈ g.members) : (g.newNode n).2.node? k = g.node? k := by
    rw [hnode, if_neg]
    exact fun e => hg.next_not_mem (e ▸ hk)
  refine hg.of_members ?_ ?_ ?_ rfl rfl rfl rfl
  · intro k hk; simp only [idOf?, hold hk]
  · intro r hr; simp only [pin?, hold hr]
  · intro r p hr hp
    by_cases he : r.node = g.nodes.next
    · simp only [pin?, hnode, he, if_true, Option.bind_some] at hp
      exact hn.pins r.side p (List.mem_of_getElem? hp)
    · refine hg.free_of_loose hr ?_
      simpa only [pin?, hnode, he, if_false] using hp

/-- The wires at a pin forget it, if there are any. -/
theorem releasePin_of_free {g : Graph} {r : PinRef} (h : ∀ {p}, g.pin? r = some p → p.Free) :
    g.releasePin r = g := by
  simp only [releasePin]
  split
  · next p hp => simp [(h hp).incoming, (h hp).outgoing]
  · rfl

theorem foldl_releasePin_of_free {g : Graph} {rs : List PinRef}
    (h : ∀ r ∈ rs, ∀ {p}, g.pin? r = some p → p.Free) : rs.foldl Graph.releasePin g = g := by
  induction rs with
  | nil => rfl
  | cons r rs ih =>
    rw [List.foldl_cons, releasePin_of_free (h r List.mem_cons_self)]
    exact ih fun r' hr => h r' (List.mem_cons_of_mem r hr)

theorem node_of_mem_pinRefs {g : Graph} {s : Side} {r : PinRef} (hr : r ∈ g.pinRefs k s) :
    r.node = k :=
  (mem_pinRefs_iff.1 hr).1

/-- A node that is not a member leaves only its group behind. -/
theorem dropNode_of_loose (hg : Wired g) (hk : k ∉ g.members) :
    g.dropNode k = { g.leaveAnyGroup k with nodes := (g.leaveAnyGroup k).nodes.erase k } := by
  have a := sameWiring_leaveAnyGroup g k
  have hpins : ∀ r ∈ (g.leaveAnyGroup k).pinRefs k .input ++ (g.leaveAnyGroup k).pinRefs k .output,
      ∀ {p}, (g.leaveAnyGroup k).pin? r = some p → p.Free := by
    intro r hr p hp
    have hr : r.node = k := by
      rcases List.mem_append.1 hr with hr | hr <;> exact node_of_mem_pinRefs hr
    exact (hg.congr a).free_of_loose (by rwa [a.members, hr]) hp
  simp only [Graph.dropNode, foldl_releasePin_of_free hpins]

theorem dropNode (hg : Wired g) (hk : k ∉ g.members) : Wired (g.dropNode k) := by
  rw [hg.dropNode_of_loose hk]
  have a := sameWiring_leaveAnyGroup g k
  have hl := hg.congr a
  rw [← a.members] at hk
  generalize g.leaveAnyGroup k = l at *
  have hnode := node?_eraseNode l k
  have hold {j : NodeKey} (hj : j ∈ l.members) :
      ({ l with nodes := l.nodes.erase k } : Graph).node? j = l.node? j := by
    rw [hnode, if_neg fun e : k = j => hk (e ▸ hj)]
  refine hl.of_members ?_ ?_ ?_ rfl rfl rfl rfl
  · intro j hj; simp only [idOf?, hold hj]
  · intro r hr; simp only [pin?, hold hr]
  · intro r p hr hp
    refine hl.free_of_loose hr ?_
    simp only [pin?, hnode] at hp ⊢
    split at hp
    · cases hp
    · exact hp

/-! ### Members -/

/-- A loose node becomes a member under an id that no member has. -/
theorem enlist (hg : Wired g) (hk : k ∉ g.members) {id : String} (hid : g.idOf? k = some id)
    (hfree : g.nodeWithId? id = none) :
    Wired { g with members := g.members ++ [k], index := g.index.insert id k } := by
  have hindex (i : String) : ({ g with
      members := g.members ++ [k], index := g.index.insert id k } : Graph).nodeWithId? i =
      if i = id then some k else g.nodeWithId? i := Dict.get?_insert g.index i id k
  refine ⟨⟨hg.nodup, hg.source_listed, hg.target_listed, hg.source_side, hg.target_side,
    hg.incoming, hg.outgoing⟩, hg.live, ?_, hg.adopted, ?_, ?_, ?_⟩
  · intro w c hw
    obtain ⟨s, t, p, q, j⟩ := hg.joined hw
    exact ⟨s, t, p, q, { j with
      source_member := List.mem_append_left _ j.source_member
      target_member := List.mem_append_left _ j.target_member }⟩
  · rw [List.nodup_append]
    refine ⟨hg.members_nodup, by simp, fun a ha b hb => ?_⟩
    rw [List.mem_singleton.1 hb]
    exact fun e => hk (e ▸ ha)
  · intro j hj
    rcases List.mem_append.1 hj with hj | hj
    · exact hg.members_live j hj
    · exact ⟨id, List.mem_singleton.1 hj ▸ hid⟩
  · intro i j
    rw [hindex, List.mem_append, List.mem_singleton]
    have hold := hg.indexed i j
    change _ ↔ _ ∧ g.idOf? j = some i
    by_cases hi : i = id
    · subst hi
      rw [hfree] at hold
      simp only [if_true, Option.some.injEq]
      constructor
      · rintro rfl; exact ⟨.inr rfl, hid⟩
      · rintro ⟨hj | hj, h⟩
        · exact absurd (hold.2 ⟨hj, h⟩) nofun
        · exact hj.symm
    · rw [if_neg hi, hold]
      refine and_congr_left fun h => ⟨.inl, fun hj => hj.resolve_right ?_⟩
      rintro rfl
      exact hi (Option.some.inj (h.symm.trans hid))

/-- A loose node is inserted, or destroyed if its id is taken. -/
theorem insertNode (hg : Wired g) (hk : k ∉ g.members) : Wired (g.insertNode k).2 := by
  simp only [Graph.insertNode]
  split
  · exact hg
  · next n hn =>
    split
    · exact hg.dropNode hk
    · next hfree => exact hg.enlist hk (by simp [idOf?, hn]) hfree

/-- A member that no wire begins or ends at is taken off the records of the graph. -/
theorem forget (hg : Wired g) (hk : k ∈ g.members) {id : String} (hid : g.idOf? k = some id)
    (hloose : ∀ {w r}, g.sourceOf? w = some r ∨ g.targetOf? w = some r → r.node ≠ k) :
    Wired { g with index := g.index.erase id, members := g.members.erase k } := by
  have hindex (i : String) : ({ g with
      index := g.index.erase id, members := g.members.erase k } : Graph).nodeWithId? i =
      if i = id then none else g.nodeWithId? i := Dict.get?_erase g.index i id
  have hmem {j : NodeKey} : j ∈ g.members.erase k ↔ j ≠ k ∧ j ∈ g.members :=
    hg.members_nodup.mem_erase_iff
  refine ⟨⟨hg.nodup, hg.source_listed, hg.target_listed, hg.source_side, hg.target_side,
    hg.incoming, hg.outgoing⟩, hg.live, ?_, hg.adopted, hg.members_nodup.erase k, ?_, ?_⟩
  · intro w c hw
    have hw : g.wire? w = some c := hw
    obtain ⟨s, t, p, q, j⟩ := hg.joined hw
    have hsource : g.sourceOf? w = some s := by simp [sourceOf?, hw, j.source]
    have htarget : g.targetOf? w = some t := by simp [targetOf?, hw, j.target]
    have hs : s.node ≠ k := hloose (.inl hsource)
    have ht : t.node ≠ k := hloose (.inr htarget)
    exact ⟨s, t, p, q, { j with
      source_member := hmem.2 ⟨hs, j.source_member⟩
      target_member := hmem.2 ⟨ht, j.target_member⟩ }⟩
  · exact fun j hj => hg.members_live j (hmem.1 hj).2
  · intro i j
    rw [hindex, hmem]
    have hold := hg.indexed i j
    change _ ↔ _ ∧ g.idOf? j = some i
    by_cases hi : i = id
    · subst hi
      -- the member under the id was the one that is gone
      have hi : g.nodeWithId? i = some k := (hg.indexed i k).2 ⟨hk, hid⟩
      simp only [if_true, reduceCtorEq, false_iff]
      rintro ⟨⟨hj, hm⟩, h⟩
      exact hj (Option.some.inj ((hold.2 ⟨hm, h⟩).symm.trans hi))
    · rw [if_neg hi, hold]
      refine and_congr_left fun h => ⟨fun hj => ⟨?_, hj⟩, And.right⟩
      rintro rfl
      exact hi (Option.some.inj (h.symm.trans hid))

end Wired

/-! ### The wires at a member -/

/-- Does a wire name a pin of a node? -/
def Names (g : Graph) (k : NodeKey) (w : WireKey) : Prop :=
  ∃ c, g.wire? w = some c ∧ ∃ s, ∃ i : Nat, ∃ p, g.pin? ⟨k, s, i⟩ = some p ∧
    (p.id = c.sourceId ∨ p.id = c.targetId)

theorem names_iff_hasPinId (g : Graph) (k : NodeKey) (w : WireKey) :
    (match g.wire? w, g.node? k with
      | some c, some n => n.hasPinId c.sourceId || n.hasPinId c.targetId
      | _, _ => false) = true ↔ g.Names k w := by
  cases hw : g.wire? w with
  | none => simp [Names, hw]
  | some c =>
    cases hn : g.node? k with
    | none => simp [Names, pin?, hn]
    | some n =>
      simp only [Bool.or_eq_true, Node.hasPinId_iff, Names, hw, pin?, hn, Option.bind_some]
      constructor
      · rintro (⟨s, i, p, hp, h⟩ | ⟨s, i, p, hp, h⟩)
        · exact ⟨c, rfl, s, i, p, hp, .inl h⟩
        · exact ⟨c, rfl, s, i, p, hp, .inr h⟩
      · rintro ⟨_, ⟨⟩, s, i, p, hp, h | h⟩
        · exact .inl ⟨s, i, p, hp, h⟩
        · exact .inr ⟨s, i, p, hp, h⟩

instance (g : Graph) (k : NodeKey) : DecidablePred (g.Names k) :=
  fun w => decidable_of_iff _ (g.names_iff_hasPinId k w)

/-- A wire touches a node exactly if it begins or ends there or names a pin of it. -/
theorem touches_iff (g : Graph) (k : NodeKey) (w : WireKey) :
    g.touches k w = true ↔ g.involves w k = true ∨ g.Names k w := by
  rw [touches, Bool.or_eq_true]
  exact or_congr_right (names_iff_hasPinId g k w)

theorem involves_iff (g : Graph) (w : WireKey) (k : NodeKey) : g.involves w k = true ↔
    (g.sourceOf? w).bind g.owner? = some k ∨ (g.targetOf? w).bind g.owner? = some k := by
  rw [involves, Bool.or_eq_true, decide_eq_true_iff, decide_eq_true_iff]
  rfl

/-- A wire that begins or ends at a node has an end there. -/
theorem end_of_involves {g : Graph} {w : WireKey} {k : NodeKey} (h : g.involves w k = true) :
    ∃ r, (g.sourceOf? w = some r ∨ g.targetOf? w = some r) ∧ r.node = k := by
  have howner {r : PinRef} (hr : g.owner? r = some k) : r.node = k := by
    obtain ⟨p, -, hp⟩ := Option.bind_eq_some_iff.1 hr
    split at hp
    · cases hp
    · exact Option.some.inj hp
  rcases (involves_iff g w k).1 h with h | h
  · obtain ⟨r, hr, hk⟩ := Option.bind_eq_some_iff.1 h
    exact ⟨r, .inl hr, howner hk⟩
  · obtain ⟨r, hr, hk⟩ := Option.bind_eq_some_iff.1 h
    exact ⟨r, .inr hr, howner hk⟩

/-- A wire of a wired graph names the pins at which it begins and ends. -/
theorem Wired.names_of_end {g : Graph} (hg : Wired g) {w : WireKey} {r : PinRef}
    (hr : g.sourceOf? w = some r ∨ g.targetOf? w = some r) : g.Names r.node w := by
  rcases hr with hr | hr <;> obtain ⟨c, hc, hce⟩ := Option.bind_eq_some_iff.1 hr <;>
    obtain ⟨s, t, p, q, j⟩ := hg.joined hc
  · obtain rfl : s = r := Option.some.inj (j.source.symm.trans hce)
    exact ⟨c, hc, s.side, s.index, p, j.source_pin, .inl j.source_id.symm⟩
  · obtain rfl : t = r := Option.some.inj (j.target.symm.trans hce)
    exact ⟨c, hc, t.side, t.index, q, j.target_pin, .inr j.target_id.symm⟩

/-- In a wired graph it is enough to look at the names. -/
theorem Wired.touches_iff_names {g : Graph} (hg : Wired g) (k : NodeKey) (w : WireKey) :
    g.touches k w = true ↔ g.Names k w := by
  rw [touches_iff, or_iff_right_iff_imp]
  intro h
  obtain ⟨r, hr, rfl⟩ := end_of_involves h
  exact hg.names_of_end hr

namespace Severed
variable {g h : Graph} {gone : WireKey → Bool}

/-- A wire that lost its ends names the same pins as before. -/
theorem names_iff (a : Severed g h gone) (k : NodeKey) (w : WireKey) :
    h.Names k w ↔ g.Names k w := by
  have hpins {h g : Graph} (a : SameShell g h) {c c' : Wire} (hs : c.sourceId = c'.sourceId)
      (ht : c.targetId = c'.targetId) : (∃ s, ∃ i : Nat, ∃ p, h.pin? ⟨k, s, i⟩ = some p ∧
        (p.id = c.sourceId ∨ p.id = c.targetId)) →
      ∃ s, ∃ i : Nat, ∃ p, g.pin? ⟨k, s, i⟩ = some p ∧
        (p.id = c'.sourceId ∨ p.id = c'.targetId) := by
    rintro ⟨s, i, p, hp, h⟩
    obtain ⟨q, hq, hb⟩ := a.pin? hp
    exact ⟨s, i, q, hq, by rwa [(Pin.of_shell_eq hb).1, ← hs, ← ht]⟩
  have hwire := a.wire? w
  constructor
  · rintro ⟨c, hc, hp⟩
    rw [hwire] at hc
    split at hc
    · obtain ⟨d, hd, rfl⟩ := Option.map_eq_some_iff.1 hc
      exact ⟨d, hd, hpins a.shell rfl rfl hp⟩
    · exact ⟨c, hc, hpins a.shell rfl rfl hp⟩
  · rintro ⟨c, hc, hp⟩
    rw [hc] at hwire
    split at hwire
    · exact ⟨_, hwire, hpins a.shell.symm rfl rfl hp⟩
    · exact ⟨c, hwire, hpins a.shell.symm rfl rfl hp⟩

/-- A wire without ends begins and ends at no node, and the others where they did before. -/
theorem involves (a : Severed g h gone) (w : WireKey) (k : NodeKey) :
    h.involves w k = (!gone w && g.involves w k) := by
  rw [Bool.eq_iff_iff, Bool.and_eq_true, involves_iff, involves_iff, a.sourceOf?, a.targetOf?,
    funext a.shell.owner?]
  cases gone w <;> simp

/-- A wire without ends touches the nodes whose pins it names, and the others touch what they
touched before. -/
theorem touches_iff (a : Severed g h gone) (k : NodeKey) (w : WireKey) :
    h.touches k w = true ↔ gone w = false ∧ g.involves w k = true ∨ g.Names k w := by
  rw [Graph.touches_iff, a.names_iff, a.involves]
  simp

end Severed

/-- The wires in a list that touch a node are taken off their pins one after the other. What every
such step keeps is told of the wires that have lost their ends by then. -/
theorem foldl_disconnect {g : Graph} {R : (WireKey → Bool) → Graph → Prop} {ws : List WireKey}
    (hR : ∀ {gone h}, R gone h → Severed g h gone)
    (hstep : ∀ w ∈ ws, ∀ {gone h}, R gone h → R (fun v => v = w || gone v) (h.disconnect w))
    (k : NodeKey) {gone : WireKey → Bool} {h : Graph} (a : R gone h) :
    R (fun w => (w ∈ ws && g.touches k w) || gone w)
      (ws.foldl (fun g w => if g.touches k w then g.disconnect w else g) h) := by
  induction ws generalizing h gone with
  | nil => simpa using a
  | cons v ws ih =>
    rw [List.foldl_cons]
    have hv := @hstep v List.mem_cons_self gone h a
    have hnext : R (fun w => (w = v && g.touches k v) || gone w)
        (if h.touches k v then h.disconnect v else h) := by
      cases hgone : gone v with
      | true =>
        -- a wire without ends does not change when it is taken off its pins again
        have hfirst : (fun w => decide (w = v) || gone w) = gone := by
          funext w
          by_cases hw : w = v <;> simp [hw, hgone]
        have hsame : (fun w => (w = v && g.touches k v) || gone w) = gone := by
          funext w
          by_cases hw : w = v <;> simp [hw, hgone]
        rw [hsame]
        split
        · exact hfirst ▸ hv
        · exact a
      | false =>
        have hsame : h.touches k v = g.touches k v := by
          rw [Bool.eq_iff_iff, (hR a).touches_iff, touches_iff, hgone]
          simp
        rw [hsame]
        by_cases ht : g.touches k v = true
        · simpa [ht] using hv
        · simpa [ht] using a
    have hgone : (fun w => (w ∈ v :: ws && g.touches k w) || gone w) =
        fun w => (w ∈ ws && g.touches k w) || ((w = v && g.touches k v) || gone w) := by
      funext w
      by_cases hw : w = v
      · subst hw; cases g.touches k w <;> simp
      · simp [hw]
    rw [hgone]
    exact ih (fun w hw => hstep w (List.mem_cons_of_mem v hw)) hnext

/-- What holds of a graph of which no wire has lost its ends, and is kept by every step, holds after
the wires that touch a node lost theirs. -/
theorem disconnectTouching_of {g : Graph} {R : (WireKey → Bool) → Graph → Prop}
    (hR : ∀ {gone h}, R gone h → Severed g h gone)
    (hstep : ∀ w ∈ g.links, ∀ {gone h}, R gone h → R (fun v => v = w || gone v) (h.disconnect w))
    (a : R (fun _ => false) g) (k : NodeKey) :
    R (fun w => w ∈ g.links && g.touches k w) (g.disconnectTouching k) := by
  have hall := foldl_disconnect hR hstep k a
  simp only [Bool.or_false] at hall
  exact hall

/-- The wires that touch a node lose their ends, and are still listed. -/
theorem severed_disconnectTouching (g : Graph) (k : NodeKey) :
    Severed g (g.disconnectTouching k) fun w => w ∈ g.links && g.touches k w :=
  disconnectTouching_of (R := fun gone h => Severed g h gone) (fun a => a)
    (fun w _ _ _ a => a.disconnect w) (.refl g) k

/-- Pins and wires agree when the wires that touch a node are off their pins. -/
theorem loosened_disconnectTouching {g : Graph} (hg : Synced g) (k : NodeKey) :
    Loosened g (g.disconnectTouching k) fun w => w ∈ g.links && g.touches k w :=
  disconnectTouching_of (R := fun gone h => Loosened g h gone) Loosened.toSevered
    (fun w _ _ _ a => a.disconnect w) (.refl hg) k

namespace Wired
variable {g : Graph}

/-- The wires at a node are destroyed, and with them all that touch it. -/
theorem without_dropTouching (hg : Wired g) (k : NodeKey) :
    Without g ((g.disconnectTouching k).dropTouching k) (g.touches k) := by
  have hlive (w : WireKey) (hw : g.touches k w = true) : w ∈ g.links := by
    obtain ⟨c, hc, -⟩ := (hg.touches_iff_names k w).1 hw
    simp [hg.live, hc]
  have hgone : (fun w => w ∈ g.links && g.touches k w) = g.touches k := by
    funext w
    by_cases hw : g.touches k w = true
    · simp [hw, hlive w hw]
    · simp [hw]
  have a := loosened_disconnectTouching hg.toSynced k
  rw [hgone] at a
  have htouches : (g.disconnectTouching k).touches k = g.touches k := by
    funext w
    rw [Bool.eq_iff_iff, a.touches_iff, ← hg.touches_iff_names, or_iff_right_iff_imp]
    exact fun h => (touches_iff g k w).2 (.inl h.2)
  have b := a.without hg hlive
  simp only [dropTouching, htouches]
  exact b

/-- A member is destroyed with its wires. -/
theorem removeNode (hg : Wired g) (k : NodeKey) : Wired (g.removeNode k).2 := by
  simp only [Graph.removeNode]
  split
  · exact hg
  next n hn =>
  split
  · next hk =>
    have hk : k ∈ g.members := (hg.contains_iff k).1 hk
    have a := hg.without_dropTouching k
    have b := sameWiring_leaveAnyGroup ((g.disconnectTouching k).dropTouching k) k
    have hrest := (hg.without a).congr b
    have hloose {w : WireKey} {r : PinRef}
        (hr : (((g.disconnectTouching k).dropTouching k).leaveAnyGroup k).sourceOf? w = some r ∨
          (((g.disconnectTouching k).dropTouching k).leaveAnyGroup k).targetOf? w = some r) :
        r.node ≠ k := by
      simp only [sourceOf?, targetOf?, b.wire?, a.wire?] at hr
      split at hr
      · simp at hr
      · next hw =>
        rintro rfl
        exact hw ((hg.touches_iff_names _ w).2 (hg.names_of_end hr))
    have hmembers : (((g.disconnectTouching k).dropTouching k).leaveAnyGroup k).members =
        g.members := b.members.trans a.shell.members
    have hid : (((g.disconnectTouching k).dropTouching k).leaveAnyGroup k).idOf? k =
        some n.id := by
      rw [b.ids, a.shell.ids]
      simp [idOf?, hn]
    generalize ((g.disconnectTouching k).dropTouching k).leaveAnyGroup k = l at *
    have hmain : (if l.mainId = some n.id then { l with mainId := none } else l) =
        { l with mainId := if l.mainId = some n.id then none else l.mainId } := by
      split <;> rfl
    rw [hmain]
    have hl := (hrest.withMain (if l.mainId = some n.id then none else l.mainId)).forget
      (hmembers ▸ hk) hid hloose
    exact hl.dropNode hrest.members_nodup.not_mem_erase
  · exact hg

end Wired

end Graph
end Patchbay
