import Patchbay.Proofs.Document.Again
import Patchbay.Proofs.Document.Managed
import Patchbay.Proofs.Grouping.MainNode
/-!
# The main node of graphs in use

Only a node at which a run can begin is chosen as the main node. A document is not asked whether its
main node is one, and neither is the category when it changes. The main node is a member whatever
was read and whatever was done since, and it stays one at which a run can begin as long as neither
of the two comes between.

## Main definitions

* `Graph.MainFits`: the main node is one at which a run can begin.
* `Graph.Retains`: the nodes that are left have the pins that they had.
* `Headed`: the graphs whose main node was fit when it was chosen or read, and was not made unfit.

## Main statements

* `Graph.MainFits.removeNode`, `Graph.MainFits.setMain`: operations keep the main node fit.
* `Managed.main_listed`: the main node of a graph in use is a member.
* `Managed.main_named`: a main node that was fit when it was chosen is fit.
-/
namespace Patchbay

/-- Which pins of the node carry control and which ones carry values. -/
def Node.kinds (n : Node) : List Bool × List Bool :=
  (n.inputs.map (·.flow), n.outputs.map (·.flow))

theorem Node.kinds_modifyPin (n : Node) (s : Side) (i : Nat) {f : Pin → Pin}
    (hf : ∀ p, (f p).flow = p.flow) : (n.modifyPin s i f).kinds = n.kinds := by
  have hmodify (ps : List Pin) : (ps.modify i f).map (·.flow) = ps.map (·.flow) := by
    refine List.ext_getElem? fun j => ?_
    simp only [List.getElem?_map, List.getElem?_modify]
    cases ps[j]? <;> simp
    split <;> simp [hf]
  cases s <;> simp [modifyPin, kinds, hmodify]

namespace Graph

/-- Whether a run can begin at a node depends on the category and on the kinds of its pins. -/
theorem isCandidate_congr {g h : Graph} (hc : h.category = g.category) {m n : Node}
    (hk : m.kinds = n.kinds) : h.isCandidate n = g.isCandidate m := by
  have hcount (ps : List Pin) (p : Bool → Bool) :
      ps.countP (fun q => p q.flow) = (ps.map (·.flow)).countP p := by
    rw [List.countP_map]
    rfl
  obtain ⟨hin, hout⟩ := Prod.mk.inj hk
  have hpins (s : Side) : (m.pins s).map (·.flow) = (n.pins s).map (·.flow) := by
    cases s
    · exact hin
    · exact hout
  have hflow (s : Side) : n.flowCount s = m.flowCount s := by
    rw [Node.flowCount, Node.flowCount, hcount _ fun b => b, hcount _ fun b => b, hpins]
  have hdata (s : Side) : n.dataCount s = m.dataCount s := by
    rw [Node.dataCount, Node.dataCount, hcount _ not, hcount _ not, hpins]
  simp only [isCandidate, hc, hflow, hdata]

/-! ### Nodes that are left -/

/-- A graph that comes of another one without a change of the category. Every node was there before,
with pins of the same kinds. -/
structure Retains (g h : Graph) : Prop where
  category : h.category = g.category
  kinds : ∀ {k n}, h.node? k = some n → ∃ m, g.node? k = some m ∧ m.kinds = n.kinds

namespace Retains
variable {g h l : Graph}

protected theorem refl (g : Graph) : Retains g g := ⟨rfl, fun hn => ⟨_, hn, rfl⟩⟩

protected theorem trans (a : Retains g h) (b : Retains h l) : Retains g l := by
  refine ⟨b.category.trans a.category, fun hn => ?_⟩
  obtain ⟨m, hm, hmn⟩ := b.kinds hn
  obtain ⟨o, ho, hom⟩ := a.kinds hm
  exact ⟨o, ho, hom.trans hmn⟩

theorem foldl {α : Type} {f : Graph → α → Graph} (hf : ∀ g x, Retains g (f g x)) (xs : List α)
    (g : Graph) : Retains g (xs.foldl f g) := by
  induction xs generalizing g with
  | nil => exact .refl g
  | cons x xs ih => exact (hf g x).trans (ih (f g x))

theorem of_eq (hc : h.category = g.category) (hn : h.nodes = g.nodes) : Retains g h :=
  ⟨hc, fun {k n} h => ⟨n, by rwa [node?, ← hn], rfl⟩⟩

end Retains

theorem retains_modifyNode (g : Graph) (k : NodeKey) {f : Node → Node}
    (hf : ∀ n, (f n).kinds = n.kinds) : Retains g (g.modifyNode k f) := by
  refine ⟨rfl, fun {j n} hn => ?_⟩
  rw [node?_modifyNode] at hn
  split at hn
  · obtain ⟨m, hm, rfl⟩ := Option.map_eq_some_iff.1 hn
    exact ⟨m, hm, (hf m).symm⟩
  · exact ⟨n, hn, rfl⟩

theorem retains_eraseNode (g : Graph) (k : NodeKey) :
    Retains g { g with nodes := g.nodes.erase k } := by
  refine ⟨rfl, fun {j n} hn => ?_⟩
  rw [node?_eraseNode] at hn
  split at hn
  · cases hn
  · exact ⟨n, hn, rfl⟩

theorem retains_modifyPin (g : Graph) (r : PinRef) {f : Pin → Pin}
    (hf : ∀ p, (f p).flow = p.flow) : Retains g (g.modifyPin r f) :=
  retains_modifyNode g r.node fun n => n.kinds_modifyPin r.side r.index hf

theorem retains_modifyWire (g : Graph) (w : WireKey) (f : Wire → Wire) :
    Retains g (g.modifyWire w f) := .of_eq rfl rfl

theorem retains_detach (g : Graph) (r : PinRef) (w : WireKey) : Retains g (g.detach r w) := by
  refine retains_modifyPin g r fun p => ?_
  cases hr : r.side
  · simp only [Pin.detach]
    split <;> rfl
  · rfl

theorem retains_detachEnd (g : Graph) (r : Option PinRef) (w : WireKey) :
    Retains g (g.detachEnd r w) := by
  cases r with
  | none => exact .refl g
  | some r => exact retains_detach g r w

theorem retains_disconnect (g : Graph) (w : WireKey) : Retains g (g.disconnect w) := by
  simp only [disconnect]
  split
  · exact .refl g
  · refine .trans (.trans ?_ (retains_detachEnd _ _ w)) (retains_modifyWire _ w _)
    split
    · exact .refl g
    · next t _ =>
      split
      · exact (retains_detach g t w).trans (retains_modifyPin _ t fun _ => rfl)
      · exact retains_detach g t w

theorem retains_dropWire (g : Graph) (w : WireKey) : Retains g (g.dropWire w) := by
  simp only [dropWire]
  split
  · exact .refl g
  · next c _ =>
    refine (retains_detachEnd g c.source w).trans ((retains_detachEnd _ c.target w).trans ?_)
    exact .of_eq rfl rfl

theorem retains_disconnectTouching (g : Graph) (k : NodeKey) :
    Retains g (g.disconnectTouching k) := by
  refine Retains.foldl (fun g w => ?_) g.links g
  split
  · exact retains_disconnect g w
  · exact .refl g

theorem retains_dropTouching (g : Graph) (k : NodeKey) : Retains g (g.dropTouching k) := by
  refine .trans ?_ (Retains.foldl retains_dropWire _ _)
  exact .of_eq rfl rfl

theorem retains_releasePin (g : Graph) (r : PinRef) : Retains g (g.releasePin r) := by
  simp only [releasePin]
  split
  · exact Retains.foldl (fun g w => retains_modifyWire g w _) _ g
  · exact .refl g

theorem retains_leaveAnyGroup (g : Graph) (k : NodeKey) : Retains g (g.leaveAnyGroup k) := by
  simp only [leaveAnyGroup]
  split
  · next a _ =>
    simp only [leaveGroup]
    split
    · have hgroup : Retains g (g.modifyGroup a fun b => { b with members := b.members.erase k }) :=
        .of_eq rfl rfl
      refine hgroup.trans (retains_modifyNode _ k fun n => ?_)
      split <;> rfl
    · exact .refl g
  · exact .refl g

theorem retains_dropNode (g : Graph) (k : NodeKey) : Retains g (g.dropNode k) := by
  refine (retains_leaveAnyGroup g k).trans (.trans ?_ (retains_eraseNode _ k))
  exact Retains.foldl retains_releasePin _ _

theorem retains_removeNode (g : Graph) (k : NodeKey) : Retains g (g.removeNode k).2 := by
  simp only [removeNode]
  split
  · exact .refl g
  split
  · refine .trans ?_ (retains_dropNode _ k)
    refine (retains_disconnectTouching g k).trans ((retains_dropTouching _ k).trans ?_)
    refine (retains_leaveAnyGroup _ k).trans ?_
    split <;> exact .of_eq rfl rfl
  · exact .refl g

/-! ### A main node that is fit -/

/-- The main node, if it is found, is one at which a run can begin. -/
def MainFits (g : Graph) : Prop :=
  ∀ ⦃id k n⦄, g.mainId = some id → g.nodeWithId? id = some k → g.node? k = some n →
    g.isCandidate n = true

namespace MainFits
variable {g h : Graph}

/-- A main node stays fit as long as it is found under its id. -/
theorem retain (hg : MainFits g) (a : Retains g h) (hfound : ∀ id k, h.mainId = some id →
    h.nodeWithId? id = some k → g.mainId = some id ∧ g.nodeWithId? id = some k) : MainFits h := by
  intro id k n hid hk hn
  obtain ⟨hid, hk⟩ := hfound id k hid hk
  obtain ⟨m, hm, hkinds⟩ := a.kinds hn
  rw [isCandidate_congr a.category hkinds]
  exact hg hid hk hm

theorem newNode (hg : MainFits g) (hi : Indexed g) (n : Node) : MainFits (g.newNode n).2 := by
  intro id k m hid hk hm
  obtain ⟨o, ho, -⟩ := Option.map_eq_some_iff.1 (hi id k hk).2
  rw [node?_newNode, if_neg (Nat.ne_of_lt (Arena.lt_next_of_get? ho))] at hm
  exact hg hid hk hm

theorem dropNode (hg : MainFits g) (k : NodeKey) : MainFits (g.dropNode k) := by
  obtain ⟨-, hindex, hmain⟩ := roll_dropNode g k
  refine hg.retain (retains_dropNode g k) fun id _ hid hj => ⟨hmain ▸ hid, ?_⟩
  rwa [nodeWithId?, hindex] at hj

theorem insertNode (hg : MainFits g) (hm : MainListed g) (k : NodeKey) :
    MainFits (g.insertNode k).2 := by
  simp only [Graph.insertNode]
  split
  · exact hg
  next n hn =>
  split
  · exact hg.dropNode k
  next hnew =>
  refine hg.retain (.of_eq rfl rfl) fun id j hid hj => ⟨hid, ?_⟩
  -- the id of the main node is one of a member already
  have hne : id ≠ n.id := by
    rintro rfl
    have hlisted := hm n.id hid
    rw [hnew] at hlisted
    cases hlisted
  rwa [nodeWithId?, Dict.get?_insert, if_neg hne] at hj

theorem removeNode (hg : MainFits g) (k : NodeKey) : MainFits (g.removeNode k).2 := by
  have hretains := retains_removeNode g k
  rcases removeNode_cases g k with h | ⟨n, l, mainId, -, -, a, hmain, h⟩
  · rwa [h]
  have hroll := a.sameRoll.trans (sameWiring_leaveAnyGroup l k).sameRoll
  refine hg.retain hretains fun id j hid hj => ?_
  rw [h, (roll_dropNode _ k).2.2] at hid
  rw [h, nodeWithId?, (roll_dropNode _ k).2.1] at hj
  have hid : mainId = some id := hid
  have hj : ((l.leaveAnyGroup k).index.erase n.id).get? id = some j := hj
  rw [Dict.get?_erase] at hj
  split at hj
  · cases hj
  · rw [← hroll.mainId, ← hroll.nodeWithId?]
    rcases hmain with ⟨hmain, -⟩ | rfl
    · exact ⟨hmain ▸ hid, hj⟩
    · cases hid

/-- The main node that was chosen is fit, whatever it was before. -/
theorem of_setMain {id : Option String} (h : (g.setMain id).1 = true) :
    MainFits (g.setMain id).2 := by
  cases id with
  | none => exact nofun
  | some id =>
    simp only [Graph.setMain] at h ⊢
    split at h
    · next hcan =>
      rw [if_pos hcan]
      intro id' k n hid hk hn
      obtain rfl : id = id' := Option.some.inj hid
      have hk : g.nodeWithId? id = some k := hk
      have hn : g.node? k = some n := hn
      rw [hk, Option.bind_some, hn, Option.any_some] at hcan
      exact hcan
    · cases h

theorem setMain (hg : MainFits g) (id : Option String) : MainFits (g.setMain id).2 := by
  cases h : (g.setMain id).1 with
  | true => exact of_setMain h
  | false =>
    cases id with
    | none => cases h
    | some id =>
      simp only [Graph.setMain] at h ⊢
      split at h
      · cases h
      · next hcan => rwa [if_neg hcan]

end MainFits
end Graph

/-- An operation by which nodes come and go, or which chooses the main node or the category. -/
def Edit.AffectsMain : Edit → Prop
  | newNode .. | insertNode .. | dropNode .. | removeNode .. | removeNodeWithId .. | setMain ..
  | setCategory .. => True
  | _ => False

namespace Graph

/-- These operations keep the main node fit, but for a change of the category. -/
theorem MainFits.apply {g : Graph} (hg : MainFits g) (hl : MainListed g) (hi : Indexed g) {e : Edit}
    (he : e.AffectsMain) (hc : ∀ c, e = .setCategory c → MainFits (e.apply g)) :
    MainFits (e.apply g) := by
  cases e with
  | newNode n => exact hg.newNode hi n
  | insertNode k => exact hg.insertNode hl k
  | dropNode k => exact hg.dropNode k
  | removeNode k => exact hg.removeNode k
  | removeNodeWithId id =>
    simp only [Edit.apply, removeNodeWithId]
    split
    · exact hg.removeNode _
    · exact hg
  | setMain id => exact hg.setMain id
  | setCategory c => exact hc c rfl
  | _ => exact he.elim

end Graph

/-! ### Graphs in use -/

/-- The main node of a graph in use is a member. -/
theorem Managed.main_listed {g : Graph} (h : Managed g) : g.MainListed := by
  induction h with
  | new ids name category => exact nofun
  | load h =>
    obtain ⟨u, hu, rfl⟩ := Document.exists_unresolved_of_load h
    obtain ⟨g, -, -, hrun⟩ := hu.exists_relink
    obtain ⟨mainId, hmain, hfound⟩ :=
      Graph.exists_relinkMain (Graph.relinkWires g.pinIndex g g.links).1
    rw [hrun, hmain]
    exact hfound
  | edit _ e he hm ih => exact ih.apply e

/-- The graphs whose main node was fit when it was chosen or read, and was not made unfit by a
change of the category since. -/
inductive Headed : Graph → Prop where
  | new (ids : IdSupply) (name : String) (category : Category) : Headed (.new ids name category)
  | load {r : Registry} {ids : IdSupply} {name : String} {category : Category} {j : Json}
    {g : Graph} (h : (Document.load r (.new ids name category) j).result = .ok g)
    (hfit : g.MainFits) : Headed g
  | choose {g : Graph} (hg : Managed g) {id : Option String} (h : (g.setMain id).1 = true) :
    Headed (g.setMain id).2
  | edit {g : Graph} (hg : Headed g) (e : Edit) (he : e.Admissible g) (hm : e.AffectsMain)
    (hc : ∀ c, e = .setCategory c → (e.apply g).MainFits) : Headed (e.apply g)

theorem Headed.managed {g : Graph} (h : Headed g) : Managed g := by
  induction h with
  | new ids name category => exact .new ids name category
  | load h => exact .load h
  | @choose g hg id => exact hg.edit (.setMain id) trivial trivial
  | edit _ e he hm _ ih =>
    exact ih.edit e he (by cases e <;> trivial)

theorem Headed.main_fits {g : Graph} (h : Headed g) : g.MainFits := by
  induction h with
  | new ids name category => exact nofun
  | load h hfit => exact hfit
  | choose hg h => exact .of_setMain h
  | edit hg e he hm hc ih =>
    exact ih.apply hg.managed.main_listed hg.managed.groupedInside.indexed hm hc

/-- A main node is a member, found under its id. If it was fit when it was chosen or read, it is one
at which a run can begin, unless a change of the category came between. -/
theorem Managed.main_named {g : Graph} (h : Managed g) {id : String} (hid : g.mainId = some id) :
    ∃ k ∈ g.members, ∃ n, g.nodeWithId? id = some k ∧ g.node? k = some n ∧ n.id = id ∧
      (Headed g → g.isCandidate n = true) := by
  obtain ⟨k, hk⟩ := Option.isSome_iff_exists.1 (h.main_listed id hid)
  obtain ⟨hmem, hidOf⟩ := h.groupedInside.indexed id k hk
  obtain ⟨n, hn, hnid⟩ := Option.map_eq_some_iff.1 hidOf
  exact ⟨k, hmem, n, hk, hn, hnid, fun hg => hg.main_fits hid hk hn⟩

namespace GiveTake

/-- A giver and a taker, one of which is to be the main node. -/
def withMain (main : String) : Json :=
  .object [("id", .string "G"), ("category", .string "data_flow"), ("main_node_id", .string main),
    ("nodes", .array [.object [("id", .string "a"), ("type", .string "give")],
      .object [("id", .string "b"), ("type", .string "take")]])]

end GiveTake

/-- A document makes the giver the main node. The taker is chosen in its place, which stays fit when
the giver is removed. -/
theorem Managed.main_named_withMain : ∃ g, Headed g ∧ g.members = [1] ∧ g.mainId = some "b" ∧
    ∃ k ∈ g.members, ∃ n, g.nodeWithId? "b" = some k ∧ g.node? k = some n ∧ n.id = "b" ∧
      g.isCandidate n = true := by
  obtain ⟨g, hg, hread⟩ := GiveTake.exists_of_read (j := GiveTake.withMain "a")
    (P := fun g =>
    (g.setMain (some "b")).1 ∧
      (Edit.apply (g.setMain (some "b")).2 (.removeNodeWithId "a")).members = [1] ∧
      (Edit.apply (g.setMain (some "b")).2 (.removeNodeWithId "a")).mainId = some "b")
    (by decide +kernel)
  obtain ⟨hchosen, hmembers, hmain⟩ := of_decide_eq_true hread
  have hheaded : Headed (Edit.apply (g.setMain (some "b")).2 (.removeNodeWithId "a")) :=
    .edit (.choose (.load hg) hchosen) (.removeNodeWithId "a") trivial trivial nofun
  obtain ⟨k, hk, n, hfound, hn, hid, hfit⟩ := Managed.main_named hheaded.managed hmain
  exact ⟨_, hheaded, hmembers, hmain, k, hk, n, hfound, hn, hid, hfit hheaded⟩

/-- A document may name a main node at which no run can begin. -/
theorem Document.not_forall_main_fits_of_load : ¬ ∀ (r : Registry) (ids : IdSupply) (name : String)
    (category : Category) (j : Json) (g : Graph),
    (load r (.new ids name category) j).result = .ok g → ∀ id, g.mainId = some id →
      ∃ k ∈ g.members, ∃ n, g.nodeWithId? id = some k ∧ g.node? k = some n ∧
        g.isCandidate n = true := by
  intro h
  obtain ⟨g, hg, hread⟩ := GiveTake.exists_of_read (j := GiveTake.withMain "a")
    (P := fun g =>
    g.mainId = some "a" ∧ ((g.nodeWithId? "a").bind g.node?).any g.isCandidate = false)
    (by decide +kernel)
  obtain ⟨hmain, hunfit⟩ := of_decide_eq_true hread
  obtain ⟨k, -, n, hk, hn, hfit⟩ := h _ _ _ _ _ g hg "a" hmain
  rw [hk, Option.bind_some, hn, Option.any_some, hfit] at hunfit
  cases hunfit

end Patchbay
