/-!
Ranked types and ascending lists.

A ranked type lists its values by a number of their own. The ordered sets and
ordered maps of this library keep their members in ascending rank, so two
collections with the same members are the same value.

* `Ranked`: the rank of a value, no two values sharing one.
* `Ranked.option`: an absent value ranks before every present one.
* `ascending_ext`: a list that ascends by a key is determined by its members.
* `insertBy`: putting a value at its place in such a list, instead of the value
  that has the same key there; `mem_insertBy`, `insertBy_ascending`.
-/

namespace TopDown

/-- A type whose values are listed by rank, no two values sharing a rank. -/
class Ranked (α : Type) where
  /-- The place of a value in the listing. -/
  rank : α → Nat
  /-- The rank determines the value. -/
  rank_inj : ∀ {a b : α}, rank a = rank b → a = b

export Ranked (rank)

/-- The absent value comes first, then the present ones by their own rank. -/
instance Ranked.option {α : Type} [Ranked α] : Ranked (Option α) where
  rank
    | none => 0
    | some a => rank a + 1
  rank_inj := by
    intro a b h
    cases a <;> cases b <;> simp at h ⊢
    exact Ranked.rank_inj h

/-! ### Ascending lists -/

section Ascending

variable {α : Type} {key : α → Nat} {l m : List α} {a c : α}

/-- No value stands twice in a list that ascends. -/
theorem nodup_of_ascending (h : l.Pairwise fun a b => key a < key b) : l.Nodup := by
  refine List.Pairwise.imp ?_ h
  rintro a b hlt rfl
  exact Nat.lt_irrefl _ hlt

/-- Two lists that ascend by the same key and have the same members are equal. -/
theorem ascending_ext (hl : l.Pairwise fun a b => key a < key b)
    (hm : m.Pairwise fun a b => key a < key b) (h : ∀ a, a ∈ l ↔ a ∈ m) : l = m := by
  have hperm : l.Perm m :=
    (List.perm_ext_iff_of_nodup (nodup_of_ascending hl) (nodup_of_ascending hm)).2 h
  refine List.Perm.eq_of_pairwise (fun a b _ _ hab hba => ?_) hl hm hperm
  exact absurd (Nat.lt_trans hab hba) (Nat.lt_irrefl _)

/-- Puts a value at its place in a list that ascends by a key, instead of the
value that has the same key there. -/
def insertBy (key : α → Nat) (a : α) : List α → List α
  | [] => [a]
  | b :: l =>
      if key a < key b then a :: b :: l
      else if key a = key b then a :: l
      else b :: insertBy key a l

/-- The value is put in, and the values with other keys stay. -/
theorem mem_insertBy (h : l.Pairwise fun a b => key a < key b) :
    c ∈ insertBy key a l ↔ c = a ∨ c ∈ l ∧ key c ≠ key a := by
  induction l with
  | nil => simp [insertBy]
  | cons b l ih =>
      obtain ⟨hb, hl⟩ := List.pairwise_cons.1 h
      rw [insertBy]
      split
      · next hlt =>
          have hafter : ∀ d ∈ b :: l, key d ≠ key a := fun d hd =>
            (List.mem_cons.1 hd).elim (fun e => e ▸ Nat.ne_of_gt hlt)
              fun hd => Nat.ne_of_gt (Nat.lt_trans hlt (hb d hd))
          rw [List.mem_cons]
          exact or_congr_right ⟨fun hc => ⟨hc, hafter c hc⟩, And.left⟩
      · split
        · next heq =>
            have hafter : ∀ d ∈ l, key d ≠ key a := fun d hd =>
              heq ▸ Nat.ne_of_gt (hb d hd)
            rw [List.mem_cons, List.mem_cons]
            refine or_congr_right ⟨fun hc => ⟨.inr hc, hafter c hc⟩, ?_⟩
            rintro ⟨rfl | hc, hne⟩
            · exact absurd heq.symm hne
            · exact hc
        · next hne =>
            rw [List.mem_cons, ih hl, List.mem_cons, or_left_comm]
            refine or_congr_right ⟨?_, ?_⟩
            · rintro (rfl | ⟨hc, hca⟩)
              · exact ⟨.inl rfl, fun e => hne e.symm⟩
              · exact ⟨.inr hc, hca⟩
            · rintro ⟨hc, hca⟩
              exact hc.imp_right fun hc => ⟨hc, hca⟩

/-- The list still ascends. -/
theorem insertBy_ascending (h : l.Pairwise fun a b => key a < key b) :
    (insertBy key a l).Pairwise fun a b => key a < key b := by
  induction l with
  | nil => exact List.pairwise_singleton _ a
  | cons b l ih =>
      obtain ⟨hb, hl⟩ := List.pairwise_cons.1 h
      rw [insertBy]
      split
      · next hlt =>
          refine List.pairwise_cons.2 ⟨fun c hc => ?_, h⟩
          rcases List.mem_cons.1 hc with rfl | hc
          · exact hlt
          · exact Nat.lt_trans hlt (hb c hc)
      · split
        · next heq => exact List.pairwise_cons.2 ⟨fun c hc => heq ▸ hb c hc, hl⟩
        · refine List.pairwise_cons.2 ⟨fun c hc => ?_, ih hl⟩
          rcases (mem_insertBy hl).1 hc with rfl | ⟨hc, _⟩
          · omega
          · exact hb c hc

end Ascending

end TopDown
