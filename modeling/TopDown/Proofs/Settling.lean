import Mathlib.Data.Finset.Card
import Mathlib.Order.Iterate
import Mathlib.Order.Monotone.Basic
import Mathlib.Tactic.Common
import TopDown.Settle

/-!
Repeating a pass without a bound, and how soon that ends.

* `Settles`: what comes of repeating a pass until it changes nothing, for as long as that
  takes. Where nothing comes of it, the passes never end.
* `exists_settles_of_iterate`, `Settles.settle_eq`, `value_settle`: it ends at a value that
  is reached by passes and not changed by another one, and a bound that allows for its
  passes is not noticed.
* `settle_le`, `exists_settles_of_between`: a monotone pass does not lead beyond what it does
  not add to, and it leads to the same value from anywhere below.
* `stable_of_card_le`: sets that grow step by step, and are at rest once a step adds
  nothing, are at rest after as many steps as they can have members.
-/

namespace TopDown

/-! ### Without a bound -/

/-- Repeating a pass from a value until it changes nothing: where that leads and how many
passes it takes, the last one included, the one that changes nothing. -/
inductive Settles {α : Type} (pass : α → α) : α → Settled α → Prop
  | done {x : α} (hfix : pass x = x) : Settles pass x ⟨x, 1⟩
  | next {x : α} {s : Settled α} (hne : pass x ≠ x) (h : Settles pass (pass x) s) :
      Settles pass x ⟨s.value, s.passes + 1⟩

section

variable {α : Type} {pass : α → α}

/-- **Repeating ends where passes have come to a fixed value**, at the latest after one
more pass. -/
theorem exists_settles_of_iterate {k : Nat} {x : α}
    (h : pass (pass^[k] x) = pass^[k] x) :
    ∃ p, p ≤ k + 1 ∧ Settles pass x ⟨pass^[k] x, p⟩ := by
  induction k generalizing x with
  | zero => exact ⟨1, Nat.le_refl 1, .done h⟩
  | succ k ih =>
      by_cases hfix : pass x = x
      · -- nothing has changed from the first pass on
        rw [Function.iterate_fixed hfix]
        exact ⟨1, by omega, .done hfix⟩
      · rw [Function.iterate_succ_apply] at h ⊢
        obtain ⟨p, hp, hs⟩ := ih h
        exact ⟨p + 1, by omega, .next hfix hs⟩

variable [DecidableEq α]

/-- A bound that allows for all the passes is not noticed. -/
lemma Settles.settle_eq {x : α} {s : Settled α} (h : Settles pass x s) {bound : Nat}
    (hbound : s.passes ≤ bound) : settle pass bound x = s := by
  induction h generalizing bound with
  | done hfix =>
      cases bound with
      | zero => exact absurd hbound (by simp)
      | succ bound => rw [settle, if_pos hfix]
  | next hne _ ih =>
      cases bound with
      | zero => exact absurd hbound (by simp)
      | succ bound => rw [settle, if_neg hne, ih (Nat.le_of_succ_le_succ hbound)]

/-- The value for a bound is where as many passes as the bound lead: those that are left
out change nothing. -/
lemma value_settle (bound : Nat) (x : α) : (settle pass bound x).value = pass^[bound] x := by
  induction bound generalizing x with
  | zero => rfl
  | succ bound ih =>
      rw [settle, Function.iterate_succ_apply]
      split
      · next hfix => rw [hfix, Function.iterate_fixed hfix]
      · exact ih (pass x)

end

/-! ### Monotone passes -/

section

variable {α : Type} [Preorder α] {pass : α → α} {x y : α}

/-- Repeating a monotone pass does not lead beyond what the pass does not add to. -/
lemma settle_le [DecidableEq α] (hpass : Monotone pass) (hxy : x ≤ y) (hy : pass y ≤ y)
    (bound : Nat) : (settle pass bound x).value ≤ y :=
  settle_induction (P := (· ≤ y)) (fun _ h => (hpass h).trans hy) bound x hxy

/-- **Passes lead to the same value from anywhere below it**: if passes have led from `x₀`
to the fixed value `y`, they lead there from everything in between, as long as nothing that
they pass through is equivalent to `y` without being `y`. -/
theorem exists_settles_of_between (hpass : Monotone pass) {P : α → Prop}
    (hP : ∀ x, P x → P (pass x)) (hy : ∀ x, P x → x ≤ y → y ≤ x → x = y)
    (hfix : pass y = y) {x₀ : α} {k : Nat} (hk : pass^[k] x₀ = y) (hx : P x) (hx₀ : x₀ ≤ x)
    (hxy : x ≤ y) : ∃ p, Settles pass x ⟨y, p⟩ := by
  have hreach : pass^[k] x = y := by
    refine hy _ (Function.Iterate.rec P hx hP k) ?_ ?_
    · calc pass^[k] x ≤ pass^[k] y := hpass.iterate k hxy
        _ = y := Function.iterate_fixed hfix k
    · calc y = pass^[k] x₀ := hk.symm
        _ ≤ pass^[k] x := hpass.iterate k hx₀
  obtain ⟨p, _, hs⟩ := exists_settles_of_iterate (k := k) (x := x) (by rw [hreach, hfix])
  rw [hreach] at hs
  exact ⟨p, hs⟩

end

/-! ### Spreading -/

/-- **What only spreads comes to rest.** Let finite sets grow step by step, and let them be
at rest for good as soon as one step adds nothing. Then they are at rest after as many
steps as they can have members. -/
theorem stable_of_card_le {α : Type} {A : Nat → Finset α} {n : Nat}
    (hgrow : ∀ k, A k ⊆ A (k + 1)) (hcard : ∀ k, (A k).card ≤ n)
    (hrest : ∀ k, A (k + 1) = A k → A (k + 2) = A (k + 1)) {k : Nat} (hk : n ≤ k) :
    A (k + 1) = A k := by
  -- the sizes stay the same exactly when the sets do
  have heq : ∀ k, (A k).card = (A (k + 1)).card → A (k + 1) = A k := fun k h =>
    (Finset.eq_of_subset_of_card_le (hgrow k) h.ge).symm
  have hmono : Monotone fun k => (A k).card :=
    monotone_nat_of_le_succ fun k => Finset.card_le_card (hgrow k)
  have hlast : ∀ m, n ≤ m → (A m).card = (A n).card := fun m hm =>
    Nat.stabilises_of_monotone hmono hcard (fun k h => by rw [hrest k (heq k h)]) hm
  exact heq k ((hlast k hk).trans (hlast (k + 1) (Nat.le_succ_of_le hk)).symm)

end TopDown
