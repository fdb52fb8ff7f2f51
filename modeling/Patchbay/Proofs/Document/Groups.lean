import Patchbay.Proofs.Document.Nodes
import Patchbay.Proofs.Grouping.Grouped
/-!
# Reading groups

The groups of a document stand in one list, parents before children, and each names its parent.
Reading them puts every group at the end of the children that its parent has so far, so the forest
grows back the way it was written.

## Main definitions

* `Forest.graft`: a forest with another one put below a group, or beside the roots.
* `Forest.number`: a forest as it is read, its groups numbered in their order and without members.
* `Graph.grown`: a graph with a forest read into it.
* `Loader.Readable`: what reading a forest asks for.

## Main statements

* `Loader.Runs.forest`: a forest is read as it was written.
-/
namespace Patchbay
namespace Forest

/-- The forest with another one after the children of the group under a key. -/
def hang : Forest → GroupKey → Forest → Forest
  | nil, _, _ => nil
  | cons a cs rest, k, c =>
    if a.key = k then cons a (cs.append c) rest else cons a (cs.hang k c) (rest.hang k c)

/-- The forest with another one below the group under a key, or after the roots. -/
def graft (f : Forest) : Option GroupKey → Forest → Forest
  | none, c => f.append c
  | some k, c => f.hang k c

/-- The forest with its groups numbered, parents before children, and without members. -/
def number : GroupKey → Forest → Forest
  | _, nil => nil
  | k, cons a cs rest =>
    cons { a with key := k, members := [] } (number (k + 1) cs)
      (number (k + 1 + cs.preorder.length) rest)

variable {f c : Forest} {k : GroupKey}

theorem adopt_eq_hang (k : GroupKey) (t : Tree) (f : Forest) :
    f.adopt k t = f.hang k (ofTree t) := by
  induction f with
  | nil => rfl
  | cons a cs rest ihc ih => simp only [adopt, hang, ihc, ih, plant]

theorem hang_of_not_mem (hk : k ∉ f.keys) : f.hang k c = f := by
  induction f with
  | nil => rfl
  | cons a cs rest ihc ih =>
    rw [keys_cons, List.mem_cons, List.mem_append, not_or, not_or] at hk
    rw [hang, if_neg (Ne.symm hk.1), ihc hk.2.1, ih hk.2.2]

theorem hang_append (hk : k ∉ f.keys) (g : Forest) :
    (f.append g).hang k c = f.append (g.hang k c) := by
  induction f with
  | nil => rfl
  | cons a cs rest _ ih =>
    rw [keys_cons, List.mem_cons, List.mem_append, not_or, not_or] at hk
    rw [append, append, hang, if_neg (Ne.symm hk.1), hang_of_not_mem hk.2.1, ih hk.2.2]

/-- A group that was put in without children gets them. -/
theorem graft_hang (p : Option GroupKey) {a : Group} (ha : a.key ∉ f.keys) :
    (f.graft p (cons a nil nil)).hang a.key c = f.graft p (cons a c nil) := by
  cases p with
  | none => simp [graft, hang_append ha, hang, append]
  | some k =>
    simp only [graft]
    induction f with
    | nil => rfl
    | cons b cs rest ihc ih =>
      rw [keys_cons, List.mem_cons, List.mem_append, not_or, not_or] at ha
      obtain ⟨hb, hcs, hrest⟩ := ha
      simp only [hang]
      split
      · rw [hang, if_neg (Ne.symm hb), hang_append hcs, hang_of_not_mem hrest]
        simp [hang, append]
      · rw [hang, if_neg (Ne.symm hb), ihc hcs, ih hrest]

theorem graft_graft (p : Option GroupKey) (f c d : Forest) :
    (f.graft p c).graft p d = f.graft p (c.append d) := by
  cases p with
  | none => exact append_assoc f c d
  | some k =>
    simp only [graft]
    induction f with
    | nil => rfl
    | cons a cs rest ihc ih =>
      simp only [hang]
      split
      · next h => rw [hang, if_pos h, append_assoc]
      · next h => rw [hang, if_neg h, ihc, ih]

theorem graft_nil (p : Option GroupKey) (f : Forest) : f.graft p nil = f := by
  cases p with
  | none => exact append_nil f
  | some k =>
    simp only [graft]
    induction f with
    | nil => rfl
    | cons a cs rest ihc ih => rw [hang, append_nil, ihc, ih, ite_self]

theorem mem_keys_hang (hk : k ∈ f.keys) (j : GroupKey) :
    j ∈ (f.hang k c).keys ↔ j ∈ f.keys ∨ j ∈ c.keys := by
  induction f with
  | nil => simp [keys, preorder] at hk
  | cons a cs rest ihc ih =>
    rw [keys_cons, List.mem_cons, List.mem_append] at hk
    rw [hang]
    split
    · simp only [keys_cons, keys_append, List.mem_cons, List.mem_append]
      grind
    · next hne =>
      have hk : k ∈ cs.keys ∨ k ∈ rest.keys := hk.resolve_left (Ne.symm hne)
      simp only [keys_cons, List.mem_cons, List.mem_append]
      by_cases hc : k ∈ cs.keys <;> by_cases hr : k ∈ rest.keys
      · rw [ihc hc, ih hr]
        grind
      · rw [ihc hc, hang_of_not_mem hr]
        grind
      · rw [hang_of_not_mem hc, ih hr]
        grind
      · exact absurd hk (not_or.2 ⟨hc, hr⟩)

theorem mem_keys_graft {p : Option GroupKey} (hp : ∀ k, p = some k → k ∈ f.keys) (j : GroupKey) :
    j ∈ (f.graft p c).keys ↔ j ∈ f.keys ∨ j ∈ c.keys := by
  cases p with
  | none => simp [graft]
  | some k => exact mem_keys_hang (hp k rfl) j

theorem keys_number (f : Forest) (k : GroupKey) :
    (f.number k).keys = List.range' k f.preorder.length := by
  induction f generalizing k with
  | nil => rfl
  | cons a cs rest ihc ih =>
    rw [number, keys_cons, ihc, ih, List.range'_append_1, preorder, List.length_cons,
      List.length_append, List.range'_succ]

theorem mem_keys_number (f : Forest) (k j : GroupKey) :
    j ∈ (f.number k).keys ↔ k ≤ j ∧ j < k + f.preorder.length := by
  rw [keys_number, List.mem_range'_1]

theorem members_number {k : GroupKey} {b : Group} (hb : b ∈ (f.number k).preorder) :
    b.members = [] := by
  induction f generalizing k with
  | nil => cases hb
  | cons a cs rest ihc ih =>
    rcases List.mem_cons.1 hb with rfl | hb
    · rfl
    · rcases List.mem_append.1 hb with hb | hb
      · exact ihc hb
      · exact ih hb

theorem modify_of_not_mem (hk : k ∉ f.keys) (h : Group → Group) : f.modify k h = f := by
  rw [modify]
  refine map_eq_self fun a ha => if_neg fun e : a.key = k => hk ?_
  exact e ▸ List.mem_map_of_mem ha

theorem descends_of_not_mem (hk : k ∉ f.keys) (j : GroupKey) : f.descends j k = false := by
  rw [descends]
  cases h : f.ancestors? j with
  | none => rfl
  | some as =>
    rw [Option.getD_some, List.any_eq_false]
    intro a ha hak
    exact hk (List.mem_map.2 ⟨a, mem_of_ancestors? h ha, of_decide_eq_true hak⟩)

end Forest

theorem Graph.modifyNode_eq_self {g : Graph} {k : NodeKey} {f : Node → Node}
    (h : ∀ n, g.node? k = some n → f n = n) : g.modifyNode k f = g := by
  rw [modifyNode, Arena.modify_eq_self h]

/-- A new group with an id lies beside the graph, alone if nothing was there. -/
theorem Graph.newGroup_alone {g : Graph} (hloose : g.loose = .nil)
    (hfresh : g.nextGroup ∉ g.groups.keys) (id name : String) (bounds : Rect Float) :
    (g.newGroup name bounds).2.modifyGroup g.nextGroup (fun b => { b with id }) =
      { g with
        ids := g.ids.fresh.2
        nextGroup := g.nextGroup + 1
        loose := .cons ⟨g.nextGroup, id, name, bounds, []⟩ .nil .nil } := by
  simp only [newGroup, freshId, modifyGroup, hloose, Forest.modify_of_not_mem hfresh]
  simp [Forest.plant, Forest.append, Forest.ofTree, Forest.modify, Forest.map]

/-- A group that lies alone beside the graph becomes its last root. -/
theorem Graph.registerGroup_alone {g : Graph} {a : Group} (hloose : g.loose = .cons a .nil .nil) :
    g.registerGroup a.key =
      { g with loose := .nil, groups := g.groups.graft none (.cons a .nil .nil) } := by
  have hdetach : g.loose.detach? a.key = some (⟨a, .nil⟩, .nil) := by
    simp [hloose, Forest.detach?]
  rw [registerGroup, hdetach]
  rfl

/-- A group that lies alone beside the graph becomes the last child of another one. -/
theorem Graph.adoptGroup_alone {g : Graph} {a : Group} {k : GroupKey}
    (hloose : g.loose = .cons a .nil .nil) (hgroups : a.key ∉ g.groups.keys)
    (hk : k ∈ g.groups.keys) :
    (g.adoptGroup k (some a.key)).2 =
      { g with loose := .nil, groups := g.groups.graft (some k) (.cons a .nil .nil) } := by
  have hdetach : g.loose.detach? a.key = some (⟨a, .nil⟩, .nil) := by
    simp [hloose, Forest.detach?]
  have hne : a.key ≠ k := fun e => hgroups (e ▸ hk)
  have htree : g.loose.tree? a.key = some ⟨a, .nil⟩ := Forest.tree?_of_detach? hdetach
  have hbelow : g.descends k a.key = false := by
    rw [descends, Forest.descends_of_not_mem hgroups, hloose]
    simp [Forest.descends, Forest.ancestors?, hne]
  simp only [adoptGroup, Option.bind_some, htree, hne, hbelow, hdetach, or_self, if_false,
    Bool.false_eq_true]
  rw [Forest.adopt_eq_hang]
  rfl

/-- The graph with a forest read into it, below a group or beside the roots. -/
def Graph.grown (g : Graph) (p : Option GroupKey) (ids : IdSupply) (f : Forest) : Graph :=
  { g with
    ids
    nextGroup := g.nextGroup + f.preorder.length
    groups := g.groups.graft p (f.number g.nextGroup) }

section Grown
variable {g : Graph} {p : Option GroupKey} {a : Group} {cs rest : Forest} {ids ids' : IdSupply}

theorem Graph.grown_nil : g.grown p g.ids .nil = g := by
  rw [grown, Forest.number, Forest.graft_nil]
  rfl

/-- The children are read below their parent. -/
theorem Graph.grown_children (hfresh : g.nextGroup ∉ g.groups.keys) :
    (g.grown p ids (.cons a .nil .nil)).grown (some g.nextGroup) ids' cs =
      g.grown p ids' (.cons a cs .nil) := by
  have hnext : g.nextGroup + 1 + cs.preorder.length = g.nextGroup + (cs.preorder.length + 1) :=
    Nat.add_right_comm _ _ _
  have hgroups : (g.groups.graft p (.cons { a with key := g.nextGroup, members := [] } .nil
      .nil)).hang g.nextGroup (cs.number (g.nextGroup + 1)) = _ := Forest.graft_hang p hfresh
  simp only [grown, Forest.number, Forest.preorder, List.append_nil, List.length_cons,
    List.length_nil, Nat.zero_add, hnext]
  rw [Forest.graft, hgroups]

/-- The groups behind a tree are read beside it. -/
theorem Graph.grown_rest :
    (g.grown p ids (.cons a cs .nil)).grown p ids' rest = g.grown p ids' (.cons a cs rest) := by
  have hnext : g.nextGroup + (cs.preorder.length + 1) = g.nextGroup + 1 + cs.preorder.length :=
    (Nat.add_right_comm g.nextGroup 1 cs.preorder.length).symm
  have hlast : g.nextGroup + (cs.preorder.length + rest.preorder.length + 1) =
      g.nextGroup + 1 + cs.preorder.length + rest.preorder.length := by
    rw [Nat.add_right_comm cs.preorder.length, ← Nat.add_assoc, hnext]
  simp only [grown, Forest.number, Forest.preorder, List.append_nil, List.length_cons,
    List.length_append, Forest.graft_graft, Forest.append, hnext, hlast]

/-- The groups that were read have the next keys. -/
theorem Graph.mem_keys_grown {f : Forest} (hp : ∀ k, p = some k → k ∈ g.groups.keys)
    (k : GroupKey) : k ∈ (g.grown p ids f).groups.keys ↔
      k ∈ g.groups.keys ∨ g.nextGroup ≤ k ∧ k < g.nextGroup + f.preorder.length := by
  rw [grown, Forest.mem_keys_graft hp, Forest.mem_keys_number]

end Grown

namespace Document.Loader

/-- A node of an id, if there is one, names its group itself. -/
def Claimed (g : Graph) (id : String) : Prop :=
  ∀ k, g.nodeWithId? id = some k → ∃ n, g.node? k = some n ∧ n.groupId.isSome = true

/-- A forest can be read into a graph: its groups have ids of their own, their members name their
groups themselves, and its parent was read before. -/
structure Readable (G g : Graph) (f : Forest) (read : Dict GroupKey) (parent : Option String) :
    Prop where
  loose : g.loose = .nil
  lt_next : ∀ k ∈ g.groups.keys, k < g.nextGroup
  claimed : ∀ a ∈ f.preorder, ∀ k ∈ a.members, ∀ n, G.node? k = some n → Claimed g n.id
  parent : ∀ id, parent = some id → ∃ k ∈ g.groups.keys, read.get? id = some k
  unread : ∀ a ∈ f.preorder, read.get? a.id = none
  distinct : (f.preorder.map (·.id)).Nodup

namespace Readable
variable {g G : Graph} {f cs rest : Forest} {a : Group} {read read' : Dict GroupKey}
  {parent : Option String}

theorem next_not_mem (h : Readable G g f read parent) : g.nextGroup ∉ g.groups.keys :=
  fun hk => Nat.lt_irrefl _ (h.lt_next _ hk)

/-- The parent is a group of the graph. -/
theorem parent_mem (h : Readable G g f read parent) (k : GroupKey)
    (hk : parent.bind read.get? = some k) : k ∈ g.groups.keys := by
  obtain ⟨id, hid, hread⟩ := Option.bind_eq_some_iff.1 hk
  obtain ⟨k', hk', hread'⟩ := h.parent id hid
  exact Option.some.inj (hread'.symm.trans hread) ▸ hk'

theorem grown_lt_next (h : Readable G g f read parent) (ids : IdSupply) (c : Forest)
    (k : GroupKey) (hk : k ∈ (g.grown (parent.bind read.get?) ids c).groups.keys) :
    k < (g.grown (parent.bind read.get?) ids c).nextGroup := by
  change k < g.nextGroup + c.preorder.length
  rcases (Graph.mem_keys_grown h.parent_mem k).1 hk with hk | hk
  · exact Nat.lt_of_lt_of_le (h.lt_next k hk) (Nat.le_add_right _ _)
  · exact hk.2

/-- When a group is read, its children can be read. -/
theorem children (h : Readable G g (.cons a cs rest) read parent) (ids : IdSupply) :
    Readable G (g.grown (parent.bind read.get?) ids (.cons a .nil .nil)) cs
      (read.insert a.id g.nextGroup) (some a.id) := by
  have hmem {b : Group} (hb : b ∈ cs.preorder) : b ∈ (Forest.cons a cs rest).preorder :=
    List.mem_cons_of_mem a (List.mem_append_left _ hb)
  have hdistinct := h.distinct
  rw [Forest.preorder, List.map_cons, List.nodup_cons, List.map_append, List.nodup_append,
    List.mem_append, not_or] at hdistinct
  obtain ⟨⟨hself, -⟩, hcs, -⟩ := hdistinct
  refine ⟨h.loose, h.grown_lt_next ids _, fun b hb => h.claimed b (hmem hb), ?_, fun b hb => ?_,
    hcs⟩
  · rintro _ ⟨rfl⟩
    refine ⟨g.nextGroup, (Graph.mem_keys_grown h.parent_mem _).2 (.inr ⟨Nat.le_refl _, ?_⟩),
      Dict.get?_insert_self _ _ _⟩
    exact Nat.lt_succ_self _
  · have hne : b.id ≠ a.id := fun e => hself (e ▸ List.mem_map_of_mem hb)
    rw [Dict.get?_insert_of_ne _ hne]
    exact h.unread b (hmem hb)

/-- When a group and its children are read, the parent is still found. -/
theorem parent_found (h : Readable G g (.cons a cs rest) read parent)
    (hread : ∀ id, id ≠ a.id → id ∉ cs.preorder.map (·.id) → read'.get? id = read.get? id)
    {id : String} (hid : parent = some id) : read'.get? id = read.get? id := by
  obtain ⟨k, -, hk⟩ := h.parent id hid
  refine hread id (fun e => ?_) fun hmem => ?_
  · rw [e, h.unread a List.mem_cons_self] at hk
    cases hk
  · obtain ⟨b, hb, rfl⟩ := List.mem_map.1 hmem
    rw [h.unread b (List.mem_cons_of_mem a (List.mem_append_left _ hb))] at hk
    cases hk

/-- When a group and its children are read, the groups behind it can be read. -/
theorem behind (h : Readable G g (.cons a cs rest) read parent)
    (hread : ∀ id, id ≠ a.id → id ∉ cs.preorder.map (·.id) → read'.get? id = read.get? id)
    (ids : IdSupply) :
    Readable G (g.grown (parent.bind read.get?) ids (.cons a cs .nil)) rest read' parent := by
  have hmem {b : Group} (hb : b ∈ rest.preorder) : b ∈ (Forest.cons a cs rest).preorder :=
    List.mem_cons_of_mem a (List.mem_append_right _ hb)
  have hdistinct := h.distinct
  rw [Forest.preorder, List.map_cons, List.nodup_cons, List.map_append, List.nodup_append,
    List.mem_append, not_or] at hdistinct
  obtain ⟨⟨-, hself⟩, -, hrest, hdisj⟩ := hdistinct
  refine ⟨h.loose, h.grown_lt_next ids _, fun b hb => h.claimed b (hmem hb), fun id hid => ?_,
    fun b hb => ?_, hrest⟩
  · obtain ⟨k, hk, hfound⟩ := h.parent id hid
    exact ⟨k, (Graph.mem_keys_grown h.parent_mem k).2 (.inl hk),
      (h.parent_found hread hid).trans hfound⟩
  · have hid := List.mem_map_of_mem (f := Group.id) hb
    rw [hread b.id (fun e => hself (e ▸ hid)) fun hc => hdisj _ hc _ hid rfl]
    exact h.unread b (hmem hb)

end Readable

namespace Runs
variable {g G : Graph} {j : Journal}

theorem claim {id : String} (h : Claimed g id) (groupId : String) :
    Runs (Loader.claim groupId (.string id)) ⟨g, j⟩ ⟨⟩ ⟨g, j⟩ := by
  refine (Runs.need id _).bind (Runs.unchanged ?_)
  dsimp only
  split
  · next k hk =>
    obtain ⟨n, hn, hg⟩ := h k hk
    refine Graph.modifyNode_eq_self fun m hm => ?_
    obtain rfl : n = m := Option.some.inj (hn.symm.trans hm)
    obtain ⟨i, hi⟩ := Option.isSome_iff_exists.1 hg
    rw [hi, Option.some_or, ← hi]
  · rfl

theorem claims {ids : List String} (h : ∀ id ∈ ids, Claimed g id) (groupId : String) :
    Runs ((ids.map Json.string).forM (Loader.claim groupId)) ⟨g, j⟩ ⟨⟩ ⟨g, j⟩ := by
  induction ids with
  | nil => exact Runs.forM_nil _ _
  | cons id ids ih =>
    exact Runs.forM_cons (claim (h id List.mem_cons_self) groupId)
      (ih fun i hi => h i (List.mem_cons_of_mem _ hi))

/-- A loose group without members and children goes where its parent is. -/
theorem place {read : Dict GroupKey} {parent : Option String} {a : Group}
    (hloose : g.loose = .cons a .nil .nil) (hgroups : a.key ∉ g.groups.keys)
    (hparent : ∀ id, parent = some id → ∃ k ∈ g.groups.keys, read.get? id = some k) :
    Runs (Loader.place read parent a.key) ⟨g, j⟩ ⟨⟩
      ⟨{ g with
          loose := .nil
          groups := g.groups.graft (parent.bind read.get?) (.cons a .nil .nil) }, j⟩ := by
  cases parent with
  | none => exact congrArg (fun g => (Except.ok (), Draft.mk g j)) (Graph.registerGroup_alone hloose)
  | some id =>
    obtain ⟨k, hk, hread⟩ := hparent id rfl
    simp only [Loader.place, hread, Option.bind_some]
    refine (Runs.change _ _).trans ?_
    exact congrArg (fun g => (Except.ok (), Draft.mk g j))
      (Graph.adoptGroup_alone hloose hgroups hk)

/-- A group is read as it was written, without its members, under the next key. -/
theorem group {f : Forest} {read : Dict GroupKey} {parent : Option String} {a : Group}
    (h : Readable G g f read parent) (ha : a ∈ f.preorder) :
    ∃ ids, Runs (Loader.group read (ofGroup G parent a)) ⟨g, j⟩ (read.insert a.id g.nextGroup)
      ⟨g.grown (parent.bind read.get?) ids (.cons a .nil .nil), j⟩ := by
  let g₁ : Graph := { g with ids := g.ids.fresh.2 }
  let b : Group := ⟨g.nextGroup, a.id, a.name, a.bounds, []⟩
  let g₂ : Graph := { g₁ with
    ids := g₁.ids.fresh.2
    nextGroup := g.nextGroup + 1
    loose := .cons b .nil .nil }
  have hclaims : ∀ id ∈ (a.members.filterMap G.node?).map (·.id), Claimed g₁ id := by
    intro id hid
    obtain ⟨n, hn, rfl⟩ := List.mem_map.1 hid
    obtain ⟨k, hk, hkn⟩ := List.mem_filterMap.1 hn
    exact h.claimed a ha k hk n hkn
  have hbounds : itemsOf? (ofGroup G parent a) "bounds" 4 =
      some [.double a.bounds.x, .double a.bounds.y, .double a.bounds.width,
        .double a.bounds.height] := rfl
  have hids : itemsOf (ofGroup G parent a) "node_ids" =
      ((a.members.filterMap G.node?).map (·.id)).map Json.string := by
    rw [List.map_map]
    rfl
  have hparentId : (ofGroup G parent a).optionalString "parent_id" = .ok parent :=
    optionalString_of_member rfl
  have hmade : (g₁.newGroup a.name a.bounds).2.modifyGroup g.nextGroup
      (fun c => { c with id := a.id }) = g₂ :=
    Graph.newGroup_alone (g := g₁) h.loose h.next_not_mem a.id a.name a.bounds
  refine ⟨g₁.ids.fresh.2, ?_⟩
  simp only [Loader.group, hbounds, hids, hparentId]
  refine (Runs.need a.name _).bind ?_
  refine (Runs.freshId g j).bind ?_
  refine (Runs.need a.id _).bind ?_
  refine (Runs.numbers [a.bounds.x, a.bounds.y, a.bounds.width, a.bounds.height] _).bind ?_
  refine (Runs.pure a.bounds _).bind ((Runs.claims hclaims a.id).bind ?_)
  refine (Runs.need parent _).bind ((Runs.get _).bind ?_)
  have hset : Runs (MonadStateOf.set (Draft.mk ((g₁.newGroup a.name a.bounds).2.modifyGroup
      g.nextGroup fun c => { c with id := a.id }) j) : Loader PUnit) ⟨g₁, j⟩ ⟨⟩ ⟨g₂, j⟩ :=
    hmade ▸ Runs.set _ _
  refine hset.bind ?_
  refine (Runs.place (g := g₂) (a := b) rfl h.next_not_mem h.parent).bind ?_
  have hhas : read.has a.id = false := by simp [Dict.has, h.unread a ha]
  rw [hhas]
  have hsame : ({ g₂ with
      loose := .nil
      groups := g.groups.graft (parent.bind read.get?) (.cons b .nil .nil) } : Graph) =
      g.grown (parent.bind read.get?) g₁.ids.fresh.2 (.cons a .nil .nil) := by
    simp only [Graph.grown, h.loose]
    rfl
  exact congrArg (fun g => (_, Draft.mk g j)) hsame

/-- A forest is read as it was written, below its parent. What follows is read after it. -/
theorem forest {f : Forest} {read : Dict GroupKey} {parent : Option String}
    (h : Readable G g f read parent) :
    ∃ read' ids, (∀ id, id ∉ f.preorder.map (·.id) → Dict.get? read' id = read.get? id) ∧
      ∀ tail d, Runs (Loader.groups read' tail) ⟨g.grown (parent.bind read.get?) ids f, j⟩ () d →
        Runs (Loader.groups read (ofForest G parent f ++ tail)) ⟨g, j⟩ () d := by
  induction f generalizing g read parent with
  | nil =>
    refine ⟨read, g.ids, fun _ _ => rfl, fun tail d hrun => ?_⟩
    rw [Graph.grown_nil] at hrun
    exact hrun
  | cons a cs rest ihc ih =>
    -- the group itself, its children, and the groups behind it
    obtain ⟨ids₁, hrun₁⟩ := Runs.group (j := j) h List.mem_cons_self
    obtain ⟨read₂, ids₂, hout₂, hrun₂⟩ := ihc (h.children ids₁)
    have hread₂ (id : String) (hne : id ≠ a.id) (hid : id ∉ cs.preorder.map (·.id)) :
        read₂.get? id = read.get? id :=
      (hout₂ id hid).trans (Dict.get?_insert_of_ne _ hne _)
    obtain ⟨read₃, ids₃, hout₃, hrun₃⟩ := ih (h.behind hread₂ ids₂)
    have hparent : parent.bind read₂.get? = parent.bind read.get? :=
      Option.bind_congr fun id hid => h.parent_found hread₂ hid
    rw [Option.bind_some, Dict.get?_insert_self, Graph.grown_children h.next_not_mem] at hrun₂
    rw [hparent, Graph.grown_rest] at hrun₃
    refine ⟨read₃, ids₃, fun id hid => ?_, fun tail d hrun => ?_⟩
    · simp only [Forest.preorder, List.map_cons, List.map_append, List.mem_cons, List.mem_append,
        not_or] at hid
      rw [hout₃ id hid.2.2, hread₂ id hid.1 hid.2.1]
    · simp only [ofForest, List.cons_append, List.append_assoc]
      exact hrun₁.bind (hrun₂ (ofForest G parent rest ++ tail) d (hrun₃ tail d hrun))

end Runs
end Document.Loader
end Patchbay
