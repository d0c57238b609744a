import TopDown.OrderedMap
import TopDown.Symbol

/-!
Lookahead sets by symbol.

* `LookaheadSets`: a map from symbols to lookahead sets. A symbol without an
  entry has no lookaheads (`LookaheadSets.members`).
* `LookaheadSets.absorbAll`: a list of contributions taken in one after the
  other. `LookaheadSets.mem_members_absorbAll` says what it leaves: what was
  there and what was contributed, whatever the order.
-/

namespace TopDown

/-- A lookahead set for each symbol that has an entry. -/
abbrev LookaheadSets := OrderedMap Symbol LookaheadSet

namespace LookaheadSets

/-- The lookaheads of a symbol, none if it has no entry. -/
def members (m : LookaheadSets) (s : Symbol) : LookaheadSet := (m.get? s).getD ∅

/-- Adds lookaheads to the entry of a symbol, which is made if there is
none. -/
def absorb (m : LookaheadSets) (c : Symbol × LookaheadSet) : LookaheadSets :=
  m.insert c.1 (members m c.1 ∪ c.2)

/-- Adds a list of contributions. -/
def absorbAll (m : LookaheadSets) (cs : List (Symbol × LookaheadSet)) : LookaheadSets :=
  cs.foldl absorb m

/-- The total number of lookaheads over all entries. -/
def total (m : LookaheadSets) : Nat := m.toList.foldr (fun e n => e.2.size + n) 0

theorem members_absorb {m : LookaheadSets} {c : Symbol × LookaheadSet} {s : Symbol} :
    members (absorb m c) s = if c.1 = s then members m s ∪ c.2 else members m s := by
  rw [absorb, members, OrderedMap.get?_insert]
  split
  · next h => rw [h]; rfl
  · rfl

theorem get?_absorb_isSome {m : LookaheadSets} {c : Symbol × LookaheadSet} {s : Symbol} :
    ((absorb m c).get? s).isSome ↔ (m.get? s).isSome ∨ c.1 = s := by
  rw [absorb, OrderedMap.get?_insert]
  split
  · next h => simp [h]
  · next h => simp [h]

/-- **What absorbing leaves**: a symbol has the lookaheads it had and those
that were contributed to it. -/
theorem mem_members_absorbAll {s : Symbol} {a : Lookahead} :
    ∀ (cs : List (Symbol × LookaheadSet)) (m : LookaheadSets),
      a ∈ members (absorbAll m cs) s ↔
        a ∈ members m s ∨ ∃ u, (s, u) ∈ cs ∧ a ∈ u
  | [], m => by simp [absorbAll]
  | c :: cs, m => by
      have ih := mem_members_absorbAll (s := s) (a := a) cs (absorb m c)
      rw [absorbAll] at ih ⊢
      rw [List.foldl_cons, ih, members_absorb]
      obtain ⟨t, v⟩ := c
      by_cases h : t = s
      · subst h
        simp only [if_true, OrderedSet.mem_union, List.mem_cons, Prod.mk.injEq, true_and]
        constructor
        · rintro ((h | h) | ⟨u, hu, h⟩)
          · exact .inl h
          · exact .inr ⟨v, .inl rfl, h⟩
          · exact .inr ⟨u, .inr hu, h⟩
        · rintro (h | ⟨u, rfl | hu, h⟩)
          · exact .inl (.inl h)
          · exact .inl (.inr h)
          · exact .inr ⟨u, hu, h⟩
      · have h' : s ≠ t := fun e => h e.symm
        simp [h, h']

/-- A symbol has an entry after absorbing exactly when it had one or was
contributed to. -/
theorem get?_absorbAll_isSome {s : Symbol} :
    ∀ (cs : List (Symbol × LookaheadSet)) (m : LookaheadSets),
      ((absorbAll m cs).get? s).isSome ↔ (m.get? s).isSome ∨ ∃ c ∈ cs, c.1 = s
  | [], m => by simp [absorbAll]
  | c :: cs, m => by
      have ih := get?_absorbAll_isSome (s := s) cs (absorb m c)
      rw [absorbAll] at ih ⊢
      rw [List.foldl_cons, ih, get?_absorb_isSome]
      simp [or_assoc]

end LookaheadSets

end TopDown
