import Mathlib.Logic.Equiv.Defs
import Patchbay.Proofs.Run.Network
/-!
# A network has one solution

Two graphs can have the same nodes, wires and values on inputs without wires, whatever the order in
which all of that came to them. Where data flows in no circle, the values that solve the network of
the one are those that solve the network of the other: what feeds a node is settled before the node
is.

## Main definitions

* `Graph.Linked`: a wire leads from one pin to another.
* `Graph.SameNetwork`: two graphs with the same nodes, wires and values on inputs without wires.

## Main statements

* `Run.feeds_iff`: the same nodes feed the same nodes.
* `Run.datum?_eq_of_solves`: a network has one solution.
-/
namespace Patchbay

/-- Two values are the same if both are there or none, and the same where both are there. -/
theorem eq_of_isSome_eq {α : Type} {x y : Option α} (h : x.isSome = y.isSome)
    (hv : ∀ v u, x = some v → y = some u → v = u) : x = y := by
  cases x <;> cases y
  · rfl
  · cases h
  · cases h
  · next v u => rw [hv v u rfl rfl]

namespace Graph

/-! ### One network in two graphs -/

/-- A wire of the graph leads from one pin to another. -/
def Linked (g : Graph) (a t : PinRef) : Prop :=
  ∃ w ∈ g.links, g.sourceOf? w = some a ∧ g.targetOf? w = some t

/-- Two graphs with the same nodes, wires and values on inputs without wires, in which the nodes
have come to other keys. In which order nodes and wires are listed does not matter, nor does
anything else of a node but its id and the names and kinds of its pins. -/
structure SameNetwork (σ : Equiv.Perm NodeKey) (g h : Graph) : Prop where
  members : (g.members.map σ).Perm h.members
  ids : ∀ k ∈ g.members, h.idOf? (σ k) = g.idOf? k
  pins : ∀ k ∈ g.members, ∀ side i, (h.pin? ⟨σ k, side, i⟩).map (fun p => (p.name, p.flow)) =
    (g.pin? ⟨k, side, i⟩).map (fun p => (p.name, p.flow))
  links : ∀ j ∈ g.members, ∀ k ∈ g.members, ∀ i l,
    h.Linked ⟨σ j, .output, i⟩ ⟨σ k, .input, l⟩ ↔ g.Linked ⟨j, .output, i⟩ ⟨k, .input, l⟩
  free : ∀ k ∈ g.members, ∀ i, (∀ a, ¬ g.Linked a ⟨k, .input, i⟩) →
    h.datum? ⟨σ k, .input, i⟩ = g.datum? ⟨k, .input, i⟩

/-- Where values are shown is a matter of the wiring. -/
theorem isSome_datum?_congr {g h : Graph} (a : SameWiring g h) (r : PinRef) :
    (h.datum? r).isSome = (g.pin? r).any (!·.flow) := by
  rw [← a.any_data r, datum?]
  cases h.pin? r with
  | none => rfl
  | some p => cases hp : p.flow <;> simp [hp]

/-- What pins are called is a matter of the wiring. -/
theorem map_name_congr {g h : Graph} (a : SameWiring g h) (r : PinRef) :
    (h.pin? r).map (·.name) = (g.pin? r).map (·.name) := by
  have hr := congrArg (Option.map (·.name)) (a.pins r)
  simp only [Option.map_map] at hr
  exact hr

namespace SameNetwork
variable {σ : Equiv.Perm NodeKey} {g₀ h₀ : Graph}

theorem mem_members (net : SameNetwork σ g₀ h₀) {k : NodeKey} (hk : k ∈ g₀.members) :
    σ k ∈ h₀.members :=
  net.members.subset (List.mem_map_of_mem hk)

theorem exists_of_mem_members (net : SameNetwork σ g₀ h₀) {j : NodeKey} (hj : j ∈ h₀.members) :
    ∃ k ∈ g₀.members, σ k = j :=
  List.mem_map.1 (net.members.mem_iff.2 hj)

end SameNetwork
end Graph

namespace Run
open Patchbay.Graph

/-! ### One solution -/

theorem linked_ends {g : Graph} (hg : g.Coherent) {a t : PinRef} (h : g.Linked a t) :
    ∃ c p q, g.Joins c a t p q := by
  obtain ⟨w, hw, ha, ht⟩ := h
  obtain ⟨c, p, q, -, j⟩ := joined_of_mem_links hg hw ha ht
  exact ⟨c, p, q, j⟩

theorem fed_mem_members {g : Graph} (hg : g.Coherent) {j k : NodeKey} (h : Feeds g j k) :
    k ∈ g.members := by
  obtain ⟨w, hw, a, t, p, ha, ht, -, rfl, -⟩ := h
  obtain ⟨c, p, q, -, hj⟩ := joined_of_mem_links hg hw ha ht
  exact hj.target_member

theorem feeds_iff_linked {g : Graph} {j k : NodeKey} : Feeds g j k ↔
    ∃ a t, g.Linked a t ∧ a.node = j ∧ t.node = k ∧ (g.pin? t).any (!·.flow) := by
  simp only [Option.any_eq_true, Bool.not_eq_true']
  constructor
  · rintro ⟨w, hw, a, t, p, ha, ht, hj, hk, hp, hflow⟩
    exact ⟨a, t, ⟨w, hw, ha, ht⟩, hj, hk, p, hp, hflow⟩
  · rintro ⟨a, t, ⟨w, hw, ha, ht⟩, hj, hk, p, hp, hflow⟩
    exact ⟨w, hw, a, t, p, ha, ht, hj, hk, hp, hflow⟩

section
variable {σ : Equiv.Perm NodeKey} {g₀ h₀ : Graph}

/-- A pin of a network holds values in both graphs or in none. -/
theorem any_data_eq (net : SameNetwork σ g₀ h₀) {k : NodeKey} (hk : k ∈ g₀.members) (side : Side)
    (i : Nat) :
    (h₀.pin? ⟨σ k, side, i⟩).any (!·.flow) = (g₀.pin? ⟨k, side, i⟩).any (!·.flow) := by
  have hpin := congrArg (Option.any fun e => !e.2) (net.pins k hk side i)
  simpa only [Option.any_map, Function.comp_def] using hpin

/-- A pin that is wired in the one graph is wired in the same way in the other one. -/
theorem exists_linked (net : SameNetwork σ g₀ h₀) (hh : h₀.Coherent) {b : PinRef}
    {k : NodeKey} (hk : k ∈ g₀.members) {i : Nat} (h : h₀.Linked b ⟨σ k, .input, i⟩) :
    ∃ j ∈ g₀.members, ∃ l, b = ⟨σ j, .output, l⟩ ∧
      g₀.Linked ⟨j, .output, l⟩ ⟨k, .input, i⟩ := by
  obtain ⟨c, p, q, hj⟩ := linked_ends hh h
  obtain ⟨node, side, l⟩ := b
  obtain rfl : side = .output := hj.source_side
  obtain ⟨j, hjm, rfl⟩ := net.exists_of_mem_members hj.source_member
  exact ⟨j, hjm, l, rfl, (net.links j hjm k hk l i).1 h⟩

/-- What feeds what is the same in both graphs. -/
theorem feeds_iff (net : SameNetwork σ g₀ h₀) (hg : g₀.Coherent) (hh : h₀.Coherent)
    {j k : NodeKey} (hk : k ∈ g₀.members) : Feeds h₀ (σ j) (σ k) ↔ Feeds g₀ j k := by
  rw [feeds_iff_linked, feeds_iff_linked]
  constructor
  · rintro ⟨a, ⟨node, side, i⟩, hl, haj, htk, hdata⟩
    obtain ⟨c, p, q, hjoins⟩ := linked_ends hh hl
    obtain rfl : node = σ k := htk
    obtain rfl : side = .input := hjoins.target_side
    obtain ⟨j', -, l, rfl, hlink⟩ := exists_linked net hh hk hl
    exact ⟨_, _, hlink, σ.injective haj, rfl, by rwa [← any_data_eq net hk]⟩
  · rintro ⟨⟨node, side, l⟩, ⟨node', side', i⟩, hl, rfl, rfl, hdata⟩
    obtain ⟨c, p, q, hjoins⟩ := linked_ends hg hl
    obtain rfl : side = .output := hjoins.source_side
    obtain rfl : side' = .input := hjoins.target_side
    refine ⟨_, _, (net.links _ hjoins.source_member _ hk l i).2 hl, rfl, rfl, ?_⟩
    rwa [any_data_eq net hk]

/-- A network has one solution: values that solve it in two graphs are the same values. -/
theorem datum?_eq_of_solves (net : SameNetwork σ g₀ h₀) (hg : g₀.Coherent) (hh : h₀.Coherent)
    {f : NodeKey → Nat → List Value → Value} {g h : Graph} (ag : SameWiring g₀ g)
    (ah : SameWiring h₀ h) (sg : g₀.Solves f g₀.members g)
    (sh : h₀.Solves (f ∘ σ.symm) h₀.members h) {xs : List NodeKey} (hxs : xs ⊆ g₀.members)
    (hx : FeedersFirst (Feeds g₀) xs) :
    ∀ k ∈ xs, ∀ side i, h.datum? ⟨σ k, side, i⟩ = g.datum? ⟨k, side, i⟩ := by
  refine hx.forall_mem fun k hk ih => ?_
  have hk := hxs hk
  have hsome (side : Side) (i : Nat) :
      (h.datum? ⟨σ k, side, i⟩).isSome = (g.datum? ⟨k, side, i⟩).isSome := by
    rw [isSome_datum?_congr ag, isSome_datum?_congr ah, any_data_eq net hk]
  have hinput (i : Nat) : h.datum? ⟨σ k, .input, i⟩ = g.datum? ⟨k, .input, i⟩ := by
    by_cases hl : ∃ a, g₀.Linked a ⟨k, .input, i⟩
    · obtain ⟨⟨j, side, l⟩, hl⟩ := hl
      obtain ⟨c, p, q, hj⟩ := linked_ends hg hl
      obtain rfl : side = .output := hj.source_side
      obtain ⟨w, hw, ha, ht⟩ := hl
      obtain ⟨v, hv, hb, hu⟩ := (net.links j hj.source_member k hk l i).2 ⟨w, hw, ha, ht⟩
      refine eq_of_isSome_eq (hsome .input i) fun x y hx hy => ?_
      have hfeeds : Feeds g₀ j k := by
        refine feeds_iff_linked.2 ⟨_, _, ⟨w, hw, ha, ht⟩, rfl, rfl, ?_⟩
        rw [← isSome_datum?_congr ag, hy]
        rfl
      have hcarried := sh.carried v hv _ _ hb hu (net.mem_members hk)
      rw [ih j hfeeds .output l, sg.carried w hw _ _ ha ht hk, hx, hy] at hcarried
      exact (Option.some.inj hcarried).symm
    · have hfree : ∀ a, ¬ g₀.Linked a ⟨k, .input, i⟩ := fun a ha => hl ⟨a, ha⟩
      rw [sg.free _ rfl fun w hw ht => ?_, sh.free _ rfl fun w hw ht => ?_, net.free k hk i hfree]
      · obtain ⟨b, t, hb, -⟩ := ends_of_mem_links hh hw
        obtain ⟨j, -, l, -, hlink⟩ := exists_linked net hh hk ⟨w, hw, hb, ht⟩
        exact hfree _ hlink
      · obtain ⟨a, t, ha, -⟩ := ends_of_mem_links hg hw
        exact hfree a ⟨w, hw, ha, ht⟩
  have houtput (i : Nat) : h.datum? ⟨σ k, .output, i⟩ = g.datum? ⟨k, .output, i⟩ := by
    refine eq_of_isSome_eq (hsome .output i) fun x y hx hy => ?_
    rw [sg.computed k hk i y hy, sh.computed _ (net.mem_members hk) i x hx, operands_congr hinput,
      Function.comp_apply, σ.symm_apply_apply]
  intro side i
  cases side with
  | input => exact hinput i
  | output => exact houtput i

end

end Run
end Patchbay
