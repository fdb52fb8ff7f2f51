import Patchbay.Proofs.Grouping.Groups
/-!
# The main node

Only a member can be chosen as the main node, and a member that is destroyed is no longer the main
node. So the id of the main node always leads to a member.

## Main statements

* `Reachable.main_listed`: the main node of a graph that editing leads to is a member.
-/
namespace Patchbay
namespace Graph

/-- The main node, if there is one, is a member. -/
def MainListed (g : Graph) : Prop := ∀ id, g.mainId = some id → (g.nodeWithId? id).isSome = true

namespace MainListed
variable {g h : Graph}

theorem congr (hg : MainListed g) (hindex : h.index = g.index) (hmain : h.mainId = g.mainId) :
    MainListed h := by
  intro id hid
  rw [nodeWithId?, hindex]
  exact hg id (hmain ▸ hid)

theorem of_sameRoll (hg : MainListed g) (a : SameRoll g h) : MainListed h :=
  hg.congr a.index a.mainId

theorem dropNode (hg : MainListed g) (k : NodeKey) : MainListed (g.dropNode k) := by
  obtain ⟨l, a, hdrop⟩ := exists_dropNode g k
  have hl := (hg.of_sameRoll (sameWiring_leaveAnyGroup g k).sameRoll).of_sameRoll a.sameRoll
  rw [hdrop]
  exact hl.congr rfl rfl

theorem insertNode (hg : MainListed g) (k : NodeKey) : MainListed (g.insertNode k).2 := by
  simp only [Graph.insertNode]
  split
  · exact hg
  · split
    · exact hg.dropNode k
    · intro id hid
      simp only [nodeWithId?, Dict.get?_insert]
      split
      · rfl
      · exact hg id hid

theorem removeNode (hg : MainListed g) (k : NodeKey) : MainListed (g.removeNode k).2 := by
  rcases removeNode_cases g k with h | ⟨n, l, mainId, -, -, a, hmain, h⟩
  · rwa [h]
  · rw [h]
    have hl := (hg.of_sameRoll a.sameRoll).of_sameRoll (sameWiring_leaveAnyGroup l k).sameRoll
    refine dropNode (fun id hid => ?_) k
    -- the node is the main node no longer, so another id is asked for
    rcases hmain with ⟨hmain, hne⟩ | rfl
    · have hid : mainId = some id := hid
      have hne : id ≠ n.id := fun e => hne (e ▸ hid)
      simp only [nodeWithId?, Dict.get?_erase, hne, if_false]
      exact hl id (hmain ▸ hid)
    · cases hid

theorem setMain (hg : MainListed g) (id : Option String) : MainListed (g.setMain id).2 := by
  simp only [Graph.setMain]
  split
  · intro id hid
    cases hid
  · split
    · next id hcan =>
      intro id' hid
      cases hid
      change (g.nodeWithId? id).isSome = true
      cases hk : g.nodeWithId? id with
      | none => simp [hk] at hcan
      | some k => rfl
    · exact hg

/-- Every operation keeps the main node among the members. -/
theorem apply (hg : MainListed g) (e : Edit) : MainListed (e.apply g) := by
  cases e with
  | newNode n => exact hg.congr rfl rfl
  | insertNode k => exact hg.insertNode k
  | dropNode k => exact hg.dropNode k
  | removeNode k => exact hg.removeNode k
  | removeNodeWithId id =>
    simp only [Edit.apply, removeNodeWithId]
    split
    · exact hg.removeNode _
    · exact hg
  | setMain id => exact hg.setMain id
  | _ => exact hg.of_sameRoll (sameRoll_apply g not_false)

end MainListed
end Graph

/-- The main node of every graph that editing leads to is a member. -/
theorem Reachable.main_listed {g : Graph} (h : Reachable g) : g.MainListed := by
  induction h with
  | new ids name category => intro id hid; cases hid
  | edit _ e _ ih => exact ih.apply e

end Patchbay
