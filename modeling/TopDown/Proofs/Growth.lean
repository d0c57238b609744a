import Mathlib.Algebra.Group.Action.Defs
import Mathlib.Algebra.Order.BigOperators.Group.List
import Mathlib.Algebra.Order.Ring.Nat
import Mathlib.Tactic.Common
import TopDown.Lookahead.LookaheadSets
import TopDown.Settle

/-!
Lookahead sets that only grow, within fixed bounds, settle.

* `OrderedSet.size_le_of_subset`, `OrderedSet.size_lt_of_subset`: sizes of
  sets one of which lies in the other.
* `LookaheadSets.Within`: the entries are those of the given keys, and their
  members are taken from a given list.
* `LookaheadSets.weight`: the number of members at the given keys. A change
  that only adds members raises it (`weight_lt`), and it is bounded
  (`Within.weight_le`).
* `LookaheadSets.settle_eq`: so a pass that adds members within the bounds
  leads to sets that it no longer changes.
-/

namespace TopDown

namespace OrderedSet

variable {α : Type} [Ranked α] {s t : OrderedSet α}

lemma size_le_of_subset (h : ∀ a ∈ s, a ∈ t) : s.size ≤ t.size :=
  (List.subperm_of_subset s.nodup_toList h).length_le

/-- A set in a larger one has fewer members, unless the two are equal. -/
lemma size_lt_of_subset (h : ∀ a ∈ s, a ∈ t) (hne : s ≠ t) : s.size < t.size := by
  have hsub := List.subperm_of_subset s.nodup_toList h
  by_contra hle
  have hperm := hsub.perm_of_length_le (Nat.le_of_not_lt hle)
  exact hne (ext_mem fun a => hperm.mem_iff)

end OrderedSet

namespace LookaheadSets

/-- The entries are those of the keys `K`, and hold members of `U` only. -/
structure Within (m : LookaheadSets) (K : List Symbol) (U : List Lookahead) : Prop where
  keys : ∀ s, (m.get? s).isSome ↔ s ∈ K
  range : ∀ s, ∀ a ∈ members m s, a ∈ U

/-- The number of members at the keys `K`. -/
def weight (K : List Symbol) (m : LookaheadSets) : Nat :=
  (K.map fun s => (members m s).size).sum

variable {m n : LookaheadSets} {K : List Symbol} {U : List Lookahead}

/-- The members are bounded in number. -/
lemma Within.weight_le (hm : Within m K U) : weight K m ≤ K.length * U.length := by
  have hsize : ∀ k ∈ K.map fun s => (members m s).size, k ≤ U.length := by
    intro k hk
    obtain ⟨s, _, rfl⟩ := List.mem_map.mp hk
    exact (List.subperm_of_subset (members m s).nodup_toList (hm.range s)).length_le
  have hsum := List.sum_le_card_nsmul _ _ hsize
  rwa [List.length_map, smul_eq_mul] at hsum

/-- Sets with the same keys are determined by their members. -/
lemma ext_members (hkeys : ∀ s, (m.get? s).isSome ↔ (n.get? s).isSome)
    (h : ∀ s, members m s = members n s) : m = n := by
  refine OrderedMap.ext_get? fun s => ?_
  have hk := hkeys s
  have hs := h s
  rw [members, members] at hs
  cases hm : m.get? s with
  | none =>
      rw [hm, Option.isSome_none] at hk
      exact (Option.not_isSome_iff_eq_none.mp fun e => by simpa using hk.mpr e).symm
  | some u =>
      rw [hm, Option.isSome_some] at hk
      obtain ⟨v, hv⟩ := Option.isSome_iff_exists.mp (hk.mp rfl)
      rw [hm, hv, Option.getD_some, Option.getD_some] at hs
      rw [hv, hs]

/-- A change that only adds members raises their number. -/
lemma weight_lt (hm : Within m K U) (hn : Within n K U)
    (hgrow : ∀ s, ∀ a ∈ members m s, a ∈ members n s) (hne : n ≠ m) :
    weight K m < weight K n := by
  have hdiff : ∃ s ∈ K, (members m s).size < (members n s).size := by
    by_contra hall
    refine hne (ext_members (fun s => (hn.keys s).trans (hm.keys s).symm) fun s => ?_)
    by_cases hs : s ∈ K
    · by_contra hs'
      exact hall ⟨s, hs, OrderedSet.size_lt_of_subset (hgrow s) fun e => hs' e.symm⟩
    · -- outside the keys neither has an entry
      have hm' := Option.not_isSome_iff_eq_none.mp fun e => hs ((hm.keys s).mp e)
      have hn' := Option.not_isSome_iff_eq_none.mp fun e => hs ((hn.keys s).mp e)
      rw [members, members, hm', hn']
  exact List.sum_lt_sum _ _ (fun s _ => OrderedSet.size_le_of_subset (hgrow s)) hdiff

/-- **Growing sets settle**: a pass that keeps the bounds and only adds
members leads, in more rounds than members can be added, to a value that it
does not change. -/
theorem settle_eq {α : Type} [DecidableEq α] {pass : α → α} {view : α → LookaheadSets}
    (hview : Function.Injective view)
    (hpass : ∀ x, Within (view x) K U → Within (view (pass x)) K U)
    (hgrow : ∀ x s, ∀ a ∈ members (view x) s, a ∈ members (view (pass x)) s)
    {bound : Nat} (hbound : K.length * U.length < bound) {x : α}
    (hx : Within (view x) K U) :
    pass (settle pass bound x).value = (settle pass bound x).value := by
  have htop : ∀ y, Within (view y) K U → weight K (view y) ≤ K.length * U.length :=
    fun y hy => hy.weight_le
  have hlt : ∀ y, Within (view y) K U → pass y ≠ y →
      weight K (view y) < weight K (view (pass y)) :=
    fun y hy hne => weight_lt hy (hpass y hy) (hgrow y) fun e => hne (hview e)
  exact pass_settle hpass htop hlt bound x hx (by omega)

end LookaheadSets

end TopDown
