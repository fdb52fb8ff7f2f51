import Mathlib.Data.Fintype.Pigeonhole
import Mathlib.Data.Fintype.Sets
import Mathlib.Data.List.Nodup
import Mathlib.Logic.Relation
/-!
# Schedules

Things wait for each other: some feed others, and what feeds another has to come before it. A
schedule takes, again and again, the first of the things that wait for nothing else, until there
is no such thing any more. What it takes is in order, and in the least order there is; what it
leaves waits for a cycle.

## Main definitions

* `Schedule`: what is taken from a list of waiting things, in order, and what is left.
* `FeedersFirst`: everything comes after all that feeds it.

## Main statements

* `Schedule.feedersFirst`, `Schedule.least`: the schedule is an order, and the least one.
* `Schedule.unique`: there is one schedule only.
* `Schedule.mem_left_iff`: what is left is what a cycle leads to.
-/
namespace Patchbay
universe u

open Relation

section
variable {α : Type u}

/-- Everything in a list comes after all that feeds it. -/
def FeedersFirst (feeds : α → α → Prop) (xs : List α) : Prop :=
  ∀ before x after, xs = before ++ x :: after → ∀ y, feeds y x → y ∈ before

/-- What holds of everything whose feeders have it holds of everything in order. -/
theorem FeedersFirst.forall_mem {feeds : α → α → Prop} {xs : List α} (h : FeedersFirst feeds xs)
    {P : α → Prop} (hstep : ∀ x ∈ xs, (∀ y, feeds y x → P y) → P x) : ∀ x ∈ xs, P x := by
  induction xs using List.reverseRecOn with
  | nil => simp
  | append_singleton xs x ih =>
    have hbefore : ∀ y ∈ xs, P y := by
      refine ih (fun before y after hxs z hz => ?_) fun y hy => hstep y (List.mem_append_left _ hy)
      exact h before y (after ++ [x]) (by rw [hxs, List.append_assoc, List.cons_append]) z hz
    intro y hy
    rcases List.mem_append.1 hy with hy | hy
    · exact hbefore y hy
    · obtain rfl := List.mem_singleton.1 hy
      exact hstep y (List.mem_append_right _ hy) fun z hz => hbefore z (h xs y [] rfl z hz)

theorem FeedersFirst.nil {feeds : α → α → Prop} : FeedersFirst feeds [] := by
  simp [FeedersFirst]

/-- Lists in order are in order one after the other. -/
theorem FeedersFirst.append {feeds : α → α → Prop} {xs ys : List α} (hx : FeedersFirst feeds xs)
    (hy : FeedersFirst feeds ys) : FeedersFirst feeds (xs ++ ys) := by
  intro before x after heq z hz
  obtain ⟨as, rfl, has⟩ | ⟨bs, rfl, hbs⟩ := List.append_eq_append_iff.1 heq
  · exact List.mem_append_right _ (hy as x after has z hz)
  · cases bs with
    | nil => exact absurd (hy [] x after hbs.symm z hz) List.not_mem_nil
    | cons b bs =>
      obtain ⟨rfl, -⟩ := List.cons.inj hbs
      exact hx before x bs rfl z hz

/-- Something can come after a list in order that has all that feeds it. -/
theorem FeedersFirst.concat {feeds : α → α → Prop} {xs : List α} {x : α}
    (h : FeedersFirst feeds xs) (hx : ∀ y, feeds y x → y ∈ xs) :
    FeedersFirst feeds (xs ++ [x]) := by
  intro before y after heq z hz
  obtain ⟨as, rfl, has⟩ | ⟨bs, rfl, hbs⟩ := List.append_eq_append_iff.1 heq
  · cases as with
    | nil =>
      obtain ⟨rfl, -⟩ := List.cons.inj has
      exact List.mem_append_left _ (hx z hz)
    | cons a as => simp at has
  · cases bs with
    | nil =>
      obtain ⟨rfl, -⟩ := List.cons.inj hbs
      exact (List.append_nil before) ▸ hx z hz
    | cons b bs =>
      obtain ⟨rfl, -⟩ := List.cons.inj hbs
      exact h before y bs rfl z hz

/-- Nothing in order feeds itself, not even by way of others. -/
theorem FeedersFirst.not_transGen {feeds : α → α → Prop} {xs : List α}
    (h : FeedersFirst feeds xs) : ∀ x ∈ xs, ¬ TransGen feeds x x := by
  refine h.forall_mem fun x _ ih hx => ?_
  obtain ⟨y, hxy, hy⟩ := TransGen.tail'_iff.1 hx
  exact ih y hy (.head' hy hxy)

/-- From a list of waiting things the first one that none of them feeds is taken, until there is
none. The outcome is what was taken, in order, and what is left. -/
inductive Schedule (feeds : α → α → Prop) : List α → List α → List α → Prop where
  | stuck {ws : List α} (h : ∀ x ∈ ws, ∃ y ∈ ws, feeds y x) : Schedule feeds ws [] ws
  | take {before after xs left : List α} {x : α} (hready : ∀ y ∈ before ++ x :: after, ¬ feeds y x)
    (hfirst : ∀ y ∈ before, ∃ z ∈ before ++ x :: after, feeds z y)
    (hrest : Schedule feeds (before ++ after) xs left) :
    Schedule feeds (before ++ x :: after) (x :: xs) left

/-- Where everything is fed, everything comes from a cycle. -/
theorem exists_cycle_of_forall_fed {feeds : α → α → Prop} {xs : List α}
    (h : ∀ x ∈ xs, ∃ y ∈ xs, feeds y x) {x : α} (hx : x ∈ xs) :
    ∃ y, TransGen feeds y y ∧ ReflTransGen feeds y x := by
  classical
  -- go upstream from `x` forever; in a finite list some place is passed twice
  have hpred (y : { y // y ∈ xs }) : ∃ z : { z // z ∈ xs }, feeds z.1 y.1 := by
    obtain ⟨z, hz, hf⟩ := h y.1 y.2
    exact ⟨⟨z, hz⟩, hf⟩
  choose up hup using hpred
  let walk (n : Nat) : { y // y ∈ xs } := up^[n] ⟨x, hx⟩
  have hstep (n : Nat) : feeds (walk (n + 1)).1 (walk n).1 := by
    simp only [walk, Function.iterate_succ_apply']
    exact hup _
  have hback (m n : Nat) : ReflTransGen feeds (walk (m + n)).1 (walk m).1 := by
    induction n with
    | zero => exact .refl
    | succ n ih => exact .head (hstep (m + n)) ih
  obtain ⟨m, n, hne, heq⟩ := Finite.exists_ne_map_eq_of_infinite walk
  wlog hlt : m < n generalizing m n
  · exact this n m hne.symm heq.symm (by omega)
  have hloop : TransGen feeds (walk m).1 (walk m).1 := by
    have hn := hback (m + 1) (n - (m + 1))
    rw [show m + 1 + (n - (m + 1)) = n by omega, ← heq] at hn
    exact .tail' hn (hstep m)
  exact ⟨(walk m).1, hloop, by simpa [walk] using hback 0 m⟩

namespace Schedule
variable {feeds : α → α → Prop} {ws xs left : List α}

/-- Everything that waits is taken or left. -/
theorem perm (h : Schedule feeds ws xs left) : (xs ++ left).Perm ws := by
  induction h with
  | stuck => exact .refl _
  | take _ _ _ ih => exact (ih.cons _).trans List.perm_middle.symm

/-- What is left is left in its order. -/
theorem sublist (h : Schedule feeds ws xs left) : left.Sublist ws := by
  induction h with
  | stuck => exact .refl _
  | take _ _ _ ih => exact ih.trans ((List.Sublist.refl _).append (List.sublist_cons_self _ _))

/-- Everything that is left is fed by something that is left. -/
theorem fed_of_left (h : Schedule feeds ws xs left) : ∀ x ∈ left, ∃ y ∈ left, feeds y x := by
  induction h with
  | stuck h => exact h
  | take _ _ _ ih => exact ih

/-- What is taken comes after all that feeds it and waits at the beginning. -/
theorem mem_before (h : Schedule feeds ws xs left) {before after : List α} {x y : α}
    (hxs : xs = before ++ x :: after) (hy : y ∈ ws) (hf : feeds y x) : y ∈ before := by
  induction h generalizing before with
  | stuck => simp at hxs
  | @take b a xs left z hready _ hrest ih =>
    cases before with
    | nil =>
      obtain ⟨rfl, -⟩ := List.cons.inj hxs
      exact absurd hf (hready y hy)
    | cons w before =>
      obtain ⟨rfl, htail⟩ := List.cons.inj hxs
      rw [List.mem_append, List.mem_cons] at hy
      by_cases hyz : y = z
      · exact hyz ▸ List.mem_cons_self
      · refine List.mem_cons_of_mem _ (ih htail ?_)
        rw [List.mem_append]
        exact hy.imp_right fun h => h.resolve_left hyz

/-- If only things that wait feed others, the schedule is in order. -/
theorem feedersFirst (h : Schedule feeds ws xs left) (hws : ∀ {y x}, feeds y x → y ∈ ws) :
    FeedersFirst feeds xs :=
  fun _ _ _ hxs _ hf => h.mem_before hxs (hws hf) hf

/-- There is one schedule only. -/
theorem unique {ys rest : List α} (h : Schedule feeds ws xs left)
    (h' : Schedule feeds ws ys rest) : xs = ys ∧ left = rest := by
  induction h generalizing ys rest with
  | stuck h =>
    cases h' with
    | stuck => exact ⟨rfl, rfl⟩
    | @take b a _ _ x hready =>
      obtain ⟨y, hy, hf⟩ := h x (List.mem_append_right _ List.mem_cons_self)
      exact absurd hf (hready y hy)
  | @take before after xs left x hready hfirst _ ih =>
    generalize hws : before ++ x :: after = ws at h'
    cases h' with
    | stuck h =>
      subst hws
      obtain ⟨y, hy, hf⟩ := h x (List.mem_append_right _ List.mem_cons_self)
      exact absurd hf (hready y hy)
    | @take b a ys rest y hready' hfirst' hrest' =>
      -- neither of the two can stand before the other one
      have hx : x ∉ b := fun hx => by
        obtain ⟨z, hz, hf⟩ := hfirst' x hx
        exact hready z (hws ▸ hz) hf
      have hy : y ∉ before := fun hy => by
        obtain ⟨z, hz, hf⟩ := hfirst y hy
        exact hready' z (hws ▸ hz) hf
      obtain ⟨rfl, rfl, rfl⟩ : before = b ∧ x = y ∧ after = a := by
        rcases List.append_eq_append_iff.1 hws with ⟨c, rfl, hc⟩ | ⟨c, rfl, hc⟩
        · cases c with
          | nil => simpa using hc
          | cons d c =>
            obtain ⟨rfl, -⟩ := List.cons.inj hc
            exact absurd (List.mem_append_right _ List.mem_cons_self) hx
        · cases c with
          | nil => simpa [eq_comm] using hc
          | cons d c =>
            obtain ⟨rfl, -⟩ := List.cons.inj hc
            exact absurd (List.mem_append_right _ List.mem_cons_self) hy
      obtain ⟨rfl, rfl⟩ := ih hrest'
      exact ⟨rfl, rfl⟩

/-- Of all orders of the same things the schedule is the least one, where things are compared
by their places in the list of waiting things. -/
theorem least {place : α → Nat} (h : Schedule feeds ws xs [])
    (hws : ws.Pairwise (place · < place ·))
    {ys : List α} (hp : ys.Perm ws)
    (hys : ∀ before x after, ys = before ++ x :: after → ∀ y ∈ ws, feeds y x → y ∈ before) :
    ys = xs ∨ List.Lex (· < ·) (xs.map place) (ys.map place) := by
  generalize hleft : [] = left at h
  induction h generalizing ys with
  | stuck =>
    rw [← hleft, List.perm_nil] at hp
    exact .inl hp
  | @take before after xs left x hready hfirst hrest ih =>
    cases ys with
    | nil => simpa using hp.length_eq
    | cons y ys =>
      have hy : y ∈ before ++ x :: after := hp.mem_iff.1 List.mem_cons_self
      have hyready : ∀ z ∈ before ++ x :: after, ¬ feeds z y := fun z hz hf =>
        List.not_mem_nil (hys [] y ys rfl z hz hf)
      obtain ⟨-, hxafter, hdisj⟩ := List.pairwise_append.1 hws
      by_cases hxy : y = x
      · subst hxy
        have hrest : ys = xs ∨ List.Lex (· < ·) (xs.map place) (ys.map place) := by
          refine ih (hws.sublist ?_) ((List.perm_cons y).1 (hp.trans List.perm_middle)) ?_ hleft
          · exact (List.Sublist.refl _).append (List.sublist_cons_self _ _)
          intro b z a hz w hw hf
          have hne : w ≠ y := by
            rintro rfl
            rcases List.mem_append.1 hw with hw | hw
            · exact absurd (hdisj w hw w List.mem_cons_self) (lt_irrefl _)
            · exact absurd ((List.pairwise_cons.1 hxafter).1 w hw) (lt_irrefl _)
          have hmem : w ∈ before ++ y :: after := by
            rw [List.mem_append, List.mem_cons]
            exact (List.mem_append.1 hw).imp_right .inr
          have hwb := hys (y :: b) z a (by rw [hz]; rfl) w hmem hf
          exact (List.mem_cons.1 hwb).resolve_left hne
        exact hrest.imp (congrArg (y :: ·)) .cons
      · -- whatever else is ready stands behind the first thing that is ready
        right
        refine .rel ?_
        rw [List.mem_append, List.mem_cons] at hy
        rcases hy with hy | hy | hy
        · obtain ⟨z, hz, hf⟩ := hfirst y hy
          exact absurd hf (hyready z hz)
        · exact absurd hy hxy
        · exact (List.pairwise_cons.1 hxafter).1 y hy

/-- Upstream of what is taken everything is taken, and before it. -/
theorem upstream_taken (h : Schedule feeds ws xs left) (hn : ws.Nodup)
    (hws : ∀ {y x}, feeds y x → y ∈ ws) [DecidableEq α] {x y : α} (hx : x ∈ xs)
    (hyx : TransGen feeds y x) : y ∈ xs ∧ xs.idxOf y < xs.idxOf x := by
  have hxs : xs.Nodup := (List.nodup_append.1 (h.perm.nodup_iff.2 hn)).1
  have hone {x y : α} (hx : x ∈ xs) (hf : feeds y x) : y ∈ xs ∧ xs.idxOf y < xs.idxOf x := by
    obtain ⟨before, after, hsplit⟩ := List.append_of_mem hx
    have hy : y ∈ before := h.mem_before hsplit (hws hf) hf
    have hxb : x ∉ before := by
      rw [hsplit] at hxs
      exact fun hxb => (List.nodup_append.1 hxs).2.2 x hxb x List.mem_cons_self rfl
    refine ⟨hsplit ▸ List.mem_append_left _ hy, ?_⟩
    rw [hsplit, List.idxOf_append_of_mem hy, List.idxOf_append_of_notMem hxb]
    exact (List.idxOf_lt_length_of_mem hy).trans_le (Nat.le_add_right _ _)
  induction hyx using TransGen.head_induction_on with
  | single hf => exact hone hx hf
  | head hf _ ih =>
    obtain ⟨hz, hlt⟩ := hone ih.1 hf
    exact ⟨hz, hlt.trans ih.2⟩

/-- What is left is exactly what a cycle leads to. -/
theorem mem_left_iff (h : Schedule feeds ws xs left) (hn : ws.Nodup)
    (hws : ∀ {y x}, feeds y x → y ∈ ws) {x : α} (hx : x ∈ ws) :
    x ∈ left ↔ ∃ y, TransGen feeds y y ∧ ReflTransGen feeds y x := by
  classical
  refine ⟨fun hl => exists_cycle_of_forall_fed h.fed_of_left hl, ?_⟩
  rintro ⟨y, hy, hyx⟩
  have htaken (hy' : y ∈ xs) : False :=
    lt_irrefl _ (h.upstream_taken hn hws hy' hy).2
  rcases List.mem_append.1 (h.perm.mem_iff.2 hx) with hx | hx
  · rcases reflTransGen_iff_eq_or_transGen.1 hyx with rfl | hyx
    · exact (htaken hx).elim
    · exact (htaken (h.upstream_taken hn hws hx hyx).1).elim
  · exact hx

end Schedule
end
end Patchbay
