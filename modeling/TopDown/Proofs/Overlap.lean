import TopDown.Proofs.Conflicts
import TopDown.Proofs.FollowSets
import TopDown.Proofs.Reachability

/-!
Where FIRST and FOLLOW overlap, there is a conflict.

A rule that can be erased and can also begin with a terminal that follows its
left-hand side is written twice into the column of that terminal, and this makes no
conflict. But the clash is only put off: some symbol of the right-hand side can be
erased and can begin with the terminal, and the terminal follows it as well. Going
down along the rules that bring the terminal to the front, one comes to a
nonterminal where the rule that brings the terminal there is not one that is
erased. There two different rules stand in the column.

* `Table.exists_conflict_of_starts`: the descent, for a string of symbols.
* `Table.conflict_of_overlap`: the conflict that a doubled write leads to; so a
  nonterminal for which FIRST and FOLLOW overlap is outside the LL(1) class.
-/

namespace TopDown

/-- An optional `b` before another `b`: the symbols are `S`, `A`, `b` and `B`, in this
order, and the rule of `A` is written twice into the column of `b`. -/
def Grammar.optionalTwice : Grammar :=
  { Draft.ofDeclarations [⟨"S", [["A", "b"]]⟩, ⟨"A", [["B"]]⟩, ⟨"B", [["b"], ["ε"]]⟩] with
    declared := by decide }

namespace Table

variable {g : Grammar}

/-- A rule stands in the column of every terminal that its right-hand side can begin
with. -/
lemma predicts_of_starts {id : RuleId} {r : Rule} (hid : g.rule? id = some r) {a : Symbol}
    (ha : g.isTerminal a = true) (h : g.Starts a r.rhs) :
    Predicts g g.first g.follow r.lhs (some a) id :=
  ⟨r, hid, rfl, mem_columnSet.mpr (mem_columns.mpr
    (.inl ⟨Option.some_ne_none a, FirstSets.some_mem_of_starts ha h⟩))⟩

/-- A rule that can be erased stands in the column of everything that follows its
left-hand side. -/
lemma predicts_of_nullable {id : RuleId} {r : Rule} (hid : g.rule? id = some r)
    (h : g.Nullable r.rhs) {x : Lookahead} (hx : x ∈ g.follow.members r.lhs) :
    Predicts g g.first g.follow r.lhs x id :=
  ⟨r, hid, rfl, mem_columnSet.mpr (mem_columns.mpr
    (.inr ⟨FirstSets.none_mem_ofString_iff.mpr h, hx⟩))⟩

/-- **The descent to a conflict.** A string can be erased, it can begin with a
terminal, and the terminal follows each of its symbols: then from one of them a
conflict in the column of the terminal is reached. -/
theorem exists_conflict_of_starts {a : Symbol} (ha : g.isTerminal a = true) {w : List Symbol}
    (h : g.Starts a w) (hnull : g.Nullable w)
    (hfollow : ∀ s ∈ w, some a ∈ g.follow.members s) :
    ∃ s ∈ w, ∃ c ∈ (ofGrammar g).conflicts,
      c.lookahead = some a ∧ g.Reaches s c.nonterminal := by
  induction h with
  | here w =>
      -- a terminal is not erased
      have hns := hnull.isTerminal a List.mem_cons_self
      rw [ha] at hns
      exact absurd hns.symm Bool.false_ne_true
  | @expand r w hr hrhs ih =>
      refine ⟨r.lhs, List.mem_cons_self, ?_⟩
      have hx : some a ∈ g.follow.members r.lhs := hfollow r.lhs List.mem_cons_self
      by_cases hr' : g.Nullable r.rhs
      · -- the rule is written twice: go on with its right-hand side
        obtain ⟨s, hs, c, hc, hca, hreach⟩ := ih hr' (FollowSets.mem_members_rhs hr hr' hx)
        exact ⟨c, hc, hca, hreach.head ⟨r, hr, rfl, hs⟩⟩
      · -- another rule erases the left-hand side
        obtain ⟨q, hq, hlhs, hq'⟩ := hnull.head
        obtain ⟨i, hi⟩ := List.mem_iff_getElem?.mp hr
        obtain ⟨j, hj⟩ := List.mem_iff_getElem?.mp hq
        have hne : i ≠ j := by
          rintro rfl
          cases hi.symm.trans hj
          exact hr' hq'
        have hpi : Predicts g g.first g.follow r.lhs (some a) i := predicts_of_starts hi ha hrhs
        have hpj : Predicts g g.first g.follow r.lhs (some a) j := by
          rw [← hlhs] at hx ⊢
          exact predicts_of_nullable hj hq' hx
        obtain ⟨c, hc, hrow, hca⟩ := exists_conflict hpi hpj hne
        exact ⟨c, hc, hca, hrow ▸ Relation.ReflTransGen.refl⟩
  | @skip s w _ _ ih =>
      have hw : g.Nullable w := (show g.Nullable ([s] ++ w) from hnull).of_append.2
      obtain ⟨s', hs', hconflict⟩ := ih hw (List.forall_mem_cons.mp hfollow).2
      exact ⟨s', List.mem_cons_of_mem s hs', hconflict⟩

/-- **A doubled write never hides a clash.** If a rule is written into the column of
a terminal both because its right-hand side begins with it and because it follows
the left-hand side, then a conflict is recorded in that column, in the row of a
nonterminal that is reached from the left-hand side through right-hand sides. So if
a nonterminal is nullable and some terminal both starts and follows it, there are
conflicts and the nonterminal is in the context-free class. -/
theorem conflict_of_overlap (g : Grammar) :
    (∀ r ∈ g.rules, ∀ a, none ∈ g.first.ofString g.isTerminal r.rhs →
      some a ∈ g.first.ofString g.isTerminal r.rhs → some a ∈ g.follow.members r.lhs →
        ∃ c ∈ (ofGrammar g).conflicts, c.lookahead = some a ∧ c.nonterminal ∈ g.nonterminals
          ∧ Relation.TransGen g.Mentions r.lhs c.nonterminal)
    ∧ ∀ s ∈ g.nonterminals, g.first.isNullable s = true → ∀ a, some a ∈ g.first.members s →
        some a ∈ g.follow.members s →
        (ofGrammar g).isLl1 = false
          ∧ (ofGrammar g).classes.get? s = some .contextFree := by
  refine ⟨fun r hr a hnull hstarts hfollow => ?_, fun s hs hnull a hstarts hfollow => ?_⟩
  · rw [FirstSets.none_mem_ofString_iff] at hnull
    obtain ⟨ha, hstarts⟩ := FirstSets.some_mem_ofString_iff.mp hstarts
    obtain ⟨s, hs, c, hc, hca, hreach⟩ := exists_conflict_of_starts ha hstarts hnull
      (FollowSets.mem_members_rhs hr hnull hfollow)
    obtain ⟨q, hq, hlhs, _⟩ := (lt_of_mem_conflicts hc).1
    have hdeclared : c.nonterminal ∈ g.nonterminals :=
      hlhs ▸ g.lhs_mem q (Grammar.mem_rules_of_rule? hq)
    exact ⟨c, hc, hca, hdeclared, Relation.TransGen.head' ⟨r, hr, rfl, hs⟩ hreach⟩
  · rw [FirstSets.isNullable, decide_eq_true_eq, FirstSets.members_eq_ofString hs,
      FirstSets.none_mem_ofString_iff] at hnull
    rw [FirstSets.members_eq_ofString hs] at hstarts
    obtain ⟨ha, hstarts⟩ := FirstSets.some_mem_ofString_iff.mp hstarts
    obtain ⟨_, hs', c, hc, _, hreach⟩ := exists_conflict_of_starts ha hstarts hnull
      (List.forall_mem_singleton.mpr hfollow)
    obtain rfl := List.mem_singleton.mp hs'
    refine ⟨?_, classes_eq_contextFree_iff.mpr ⟨hs, fun hpred => hpred _ hreach c hc rfl⟩⟩
    rw [isLl1, List.isEmpty_eq_false_iff]
    exact List.ne_nil_of_mem hc

/-- The rule of `A` is written twice into the column of `b`, and the conflict is in a
row that `A` reaches. -/
theorem conflict_of_overlap_optionalTwice :
    (none ∈ Grammar.optionalTwice.first.ofString Grammar.optionalTwice.isTerminal
        [Symbol.ofNat 3]
      ∧ some (Symbol.ofNat 2) ∈ Grammar.optionalTwice.first.ofString
          Grammar.optionalTwice.isTerminal [Symbol.ofNat 3]
      ∧ some (Symbol.ofNat 2) ∈ Grammar.optionalTwice.follow.members (Symbol.ofNat 1))
    ∧ (∃ c ∈ (ofGrammar Grammar.optionalTwice).conflicts,
        c.lookahead = some (Symbol.ofNat 2)
          ∧ Relation.TransGen Grammar.optionalTwice.Mentions (Symbol.ofNat 1) c.nonterminal)
    ∧ (ofGrammar Grammar.optionalTwice).classes.get? (Symbol.ofNat 1)
        = some .contextFree := by
  have hoverlap : none ∈ Grammar.optionalTwice.first.ofString Grammar.optionalTwice.isTerminal
        [Symbol.ofNat 3]
      ∧ some (Symbol.ofNat 2) ∈ Grammar.optionalTwice.first.ofString
          Grammar.optionalTwice.isTerminal [Symbol.ofNat 3]
      ∧ some (Symbol.ofNat 2) ∈ Grammar.optionalTwice.follow.members (Symbol.ofNat 1) := by
    decide +kernel
  have hsets : Grammar.optionalTwice.first.isNullable (Symbol.ofNat 1) = true
      ∧ some (Symbol.ofNat 2) ∈ Grammar.optionalTwice.first.members (Symbol.ofNat 1) := by
    decide +kernel
  obtain ⟨hrules, hclasses⟩ := conflict_of_overlap Grammar.optionalTwice
  obtain ⟨c, hc, hca, _, hreach⟩ := hrules ⟨Symbol.ofNat 1, [Symbol.ofNat 3]⟩ (by decide) _
    hoverlap.1 hoverlap.2.1 hoverlap.2.2
  have hclass := hclasses (Symbol.ofNat 1) (by decide) hsets.1 _ hsets.2 hoverlap.2.2
  exact ⟨hoverlap, ⟨c, hc, hca, hreach⟩, hclass.2⟩

end Table

end TopDown
