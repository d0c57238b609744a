/-!
Repeating a pass until it changes nothing.

* `settle`: the value that a pass no longer changes, and the number of passes
  made, the last one included, the one that changes nothing. The passes are
  bounded by an explicit number.
* `pass_settle`: the bound is never the reason to stop when every change
  raises a measure that stays below it.
-/

namespace TopDown

/-- Where repeating a pass has led, and how many passes it took. -/
structure Settled (α : Type) where
  /-- The value reached. -/
  value : α
  /-- The number of passes made. -/
  passes : Nat
deriving DecidableEq

/-- Repeats a pass until it changes nothing, at most `bound` times. -/
def settle {α : Type} [DecidableEq α] (pass : α → α) : (bound : Nat) → α → Settled α
  | 0, x => ⟨x, 0⟩
  | bound + 1, x =>
      let y := pass x
      if y = x then ⟨x, 1⟩
      else
        let rest := settle pass bound y
        ⟨rest.value, rest.passes + 1⟩

section

variable {α : Type} [DecidableEq α] {pass : α → α}

/-- The last value keeps what every pass keeps. -/
theorem settle_induction {P : α → Prop} (hP : ∀ x, P x → P (pass x)) :
    ∀ (bound : Nat) (x : α), P x → P (settle pass bound x).value
  | 0, _, h => h
  | bound + 1, x, h => by
      rw [settle]
      split
      · exact h
      · exact settle_induction hP bound _ (hP x h)

/-- **Settling reaches a fixed value** when every change raises a measure that
stays below the bound. -/
theorem pass_settle {P : α → Prop} {measure : α → Nat} {top : Nat}
    (hP : ∀ x, P x → P (pass x)) (htop : ∀ x, P x → measure x ≤ top)
    (hlt : ∀ x, P x → pass x ≠ x → measure x < measure (pass x)) :
    ∀ (bound : Nat) (x : α), P x → top < bound + measure x →
      pass (settle pass bound x).value = (settle pass bound x).value
  | 0, x, hx, h => absurd (htop x hx) (by omega)
  | bound + 1, x, hx, h => by
      rw [settle]
      by_cases hfix : pass x = x
      · simp [hfix]
      · simp only [if_neg hfix]
        have := hlt x hx hfix
        exact pass_settle hP htop hlt bound _ (hP x hx) (by omega)

end

end TopDown
