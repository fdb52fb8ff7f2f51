import Patchbay.Proofs.Document.Unresolved
/-!
# The category of what is read

A graph takes its category from its document, and nothing that is read or looked up afterwards
changes it.

## Main statements

* `Graph.category_relink`: looking up references keeps the category.
* `Document.category_of_load`: the category of a graph is the one that its document names.
-/
namespace Patchbay
namespace Graph
variable {α : Type} (g : Graph)

/-! ### What keeps the category -/

/-- Steps that keep the category keep it one after the other. -/
theorem category_foldl {f : Graph → α → Graph} (h : ∀ g a, (f g a).category = g.category)
    (as : List α) : (as.foldl f g).category = g.category := by
  induction as generalizing g with
  | nil => rfl
  | cons a as ih => exact (ih _).trans (h g a)

theorem category_leaveAnyGroup (k : NodeKey) : (g.leaveAnyGroup k).category = g.category := by
  simp only [leaveAnyGroup, leaveGroup]
  split
  · split <;> rfl
  · rfl

theorem category_dropNode (k : NodeKey) : (g.dropNode k).category = g.category := by
  have hrelease (g : Graph) (r : PinRef) : (g.releasePin r).category = g.category := by
    simp only [releasePin]
    split
    · refine category_foldl g (fun g w => ?_) _
      rfl
    · rfl
  exact (category_foldl _ hrelease _).trans (category_leaveAnyGroup g k)

theorem category_insertNode (k : NodeKey) : (g.insertNode k).2.category = g.category := by
  simp only [insertNode]
  split
  · rfl
  · split
    · exact category_dropNode g k
    · rfl

theorem category_detachEnd (r : Option PinRef) (w : WireKey) :
    (g.detachEnd r w).category = g.category := by
  cases r <;> rfl

theorem category_insertWire (w : WireKey) : (g.insertWire w).2.category = g.category := by
  simp only [insertWire]
  split
  · simp only [dropWire]
    split
    · rfl
    · exact (category_detachEnd _ _ w).trans (category_detachEnd g _ w)
  · rfl

theorem category_registerGroup (a : GroupKey) : (g.registerGroup a).category = g.category := by
  simp only [registerGroup]
  split <;> rfl

theorem category_clearGroup (a : GroupKey) : (g.clearGroup a).category = g.category := by
  simp only [clearGroup]
  refine category_foldl g (fun g k => ?_) _
  rfl

theorem category_adoptGroup (parent : GroupKey) (child : Option GroupKey) :
    (g.adoptGroup parent child).2.category = g.category := by
  have hdrop (a : GroupKey) : (g.dropGroup a).category = g.category := by
    have hclear (t : Tree) : (g.clearTree t).category = g.category :=
      category_foldl g (fun g (b : Group) => category_clearGroup g b.key) _
    simp only [dropGroup]
    split
    · rfl
    · split <;> exact hclear _
  simp only [adoptGroup]
  split
  · rfl
  · split
    · exact hdrop _
    · split <;> rfl

theorem category_regroup (index : Dict GroupKey) (k : NodeKey) (wanted : Option String) :
    (regroup index g k wanted).category = g.category := by
  have hjoin (g : Graph) (a : GroupKey) : (g.joinGroup a k).category = g.category := by
    simp only [joinGroup]
    split
    · rfl
    · exact category_leaveAnyGroup g k
  simp only [regroup]
  split
  · exact (hjoin _ _).trans (category_leaveAnyGroup g k)
  · exact category_leaveAnyGroup g k

theorem category_relinkGroups : g.relinkGroups.category = g.category :=
  (category_foldl _ (fun _ _ => category_regroup _ _ _ _) _).trans
    (category_foldl g (fun _ _ => category_clearGroup _ _) _)

theorem category_setSource (w : WireKey) (r : Option PinRef) :
    (g.setSource w r).category = g.category := by
  simp only [setSource]
  split
  · rfl
  · split
    · rfl
    · split <;> exact category_detachEnd g _ w

theorem category_setTarget (w : WireKey) (r : Option PinRef) :
    (g.setTarget w r).category = g.category := by
  simp only [setTarget]
  split
  · rfl
  · split
    · rfl
    · split <;> exact category_detachEnd g _ w

theorem category_relinkWires (index : Dict PinRef) (ws : List WireKey) :
    (relinkWires index g ws).1.category = g.category := by
  have hwire (g : Graph) (w : WireKey) : (relinkWire index g w).1.category = g.category := by
    simp only [relinkWire]
    split
    · rfl
    · have htransfer (g : Graph) : (g.transfer w).category = g.category := by
        simp only [transfer]
        split
        · split
          · split <;> rfl
          · rfl
        · rfl
      exact ((htransfer _).trans (category_setTarget _ w _)).trans (category_setSource g w _)
  induction ws generalizing g with
  | nil => rfl
  | cons w ws ih => exact (ih _).trans (hwire g w)

/-- Looking up references keeps the category. -/
theorem category_relink : g.relink.1.category = g.category := by
  have hmain (g : Graph) : g.relinkMain.1.category = g.category := by rw [relinkMain_eq]
  have hadopt : g.reindex.adoptPins.category = g.category := by
    rw [adoptPins]
    refine category_foldl g.reindex (fun g k => ?_) _
    rfl
  exact (hmain _).trans ((category_relinkWires _ _ _).trans
    ((category_relinkGroups _).trans hadopt))

end Graph

namespace Document

/-- What is read into a graph keeps its category. -/
theorem Loader.keeps_category (r : Registry) (P : Category → Prop) :
    Keeps r fun g => P g.category where
  supply hg _ := hg
  node {g n} hg _ := by
    rw [Graph.category_insertNode]
    exact hg
  wire {g c} hg _ _ := by
    rw [Graph.category_insertWire]
    exact hg
  claim hg _ _ := hg
  newGroup hg _ _ _ := hg
  registerGroup {g} hg a := by
    rw [Graph.category_registerGroup]
    exact hg
  adoptGroup {g} hg _ _ := by
    rw [Graph.category_adoptGroup]
    exact hg

/-- The category of a graph is the one that its document names. -/
theorem category_of_load {r : Registry} {empty g : Graph} {j : Json} {label : String}
    (hj : j.member? "category" = some (.string label)) (h : (load r empty j).result = .ok g) :
    g.category.label = label := by
  have hcategory : Loader.Yields (Loader.category j) fun c => c.label = label := by
    simp only [Loader.category, hj]
    refine .pure_bind ?_
    split
    · next c hc => exact .pure (by simpa using List.find?_some hc)
    · exact .throw _
  have hleads : Loader.Leads (fun _ => True) (Loader.document r j) fun _ g =>
      ∃ u : Graph, u.category.label = label ∧ g = u.relink.1 :=
    (Loader.keeps_category r fun c => c.label = label).document hcategory
      (fun _ _ _ => trivial) (fun _ _ _ _ hc => hc) fun hg _ => hg
  obtain ⟨u, hu, rfl⟩ := of_load hleads trivial h
  rw [Graph.category_relink]
  exact hu

end Document
end Patchbay
