import TopDown.Proofs.Conflicts
import TopDown.Proofs.Leftmost

/-!
A table without conflicts is the same as the LL(1) property.

* `Grammar.Ll1`: in a leftmost derivation, one terminal of lookahead decides the rule.
* `Table.mem_columns_of_derives`: whatever a rule makes of a leftmost context, its
  first terminal is a column of the rule.
* `Table.exists_derives_of_mem_columns`: conversely, every column of a rule is the
  first terminal of something that the rule makes of a fitting context.
* `Table.isLl1_iff`: so, if every declared nonterminal is accessible and productive, a
  grammar has the LL(1) property exactly if its table has no conflicts.
-/

namespace TopDown

/-- **The LL(1) property, in terms of derivations.** Let a leftmost derivation come to
a nonterminal behind terminals and before the string `q`. If two rules for the
nonterminal, each with `q` behind it, derive terminals that begin with the same
terminal or are both empty, then the two are the same rule. -/
def Grammar.Ll1 (g : Grammar) : Prop :=
  ∀ (s : Symbol) (q : List Symbol), g.LeftContext s q →
    ∀ (i j : RuleId) (r r' : Rule), g.rule? i = some r → g.rule? j = some r' →
      r.lhs = s → r'.lhs = s →
      ∀ x y : List Symbol, (∀ a ∈ x, g.isTerminal a = true) →
        (∀ a ∈ y, g.isTerminal a = true) → g.Derives (r.rhs ++ q) x →
        g.Derives (r'.rhs ++ q) y → x.head? = y.head? → i = j

lemma Grammar.productive_sums :
    ∀ s ∈ Grammar.sums.nonterminals, Grammar.sums.Productive s := by
  have hterm : sums.Derives [Symbol.ofNat 1] [Symbol.ofNat 4] :=
    derives_of_rule (r := ⟨Symbol.ofNat 1, [Symbol.ofNat 4]⟩) (by decide) [] []
  have hrest : sums.Derives [Symbol.ofNat 2] [] :=
    derives_of_rule (r := ⟨Symbol.ofNat 2, []⟩) (by decide) [] []
  have hsum := derives_sums.trans (hterm.append hrest)
  exact forall_mem_sums ⟨[Symbol.ofNat 4], by decide, hsum⟩ ⟨[Symbol.ofNat 4], by decide, hterm⟩
    ⟨[], by decide, hrest⟩

namespace Table

variable {g : Grammar}

/-! ### From derivations to columns -/

/-- The first of the terminals that a rule makes of a leftmost context, or that there
is none, is a column of the rule. -/
lemma mem_columns_of_derives {r : Rule} (hr : r ∈ g.rules) {q x : List Symbol}
    (hq : g.LeftContext r.lhs q) (h : g.Derives (r.rhs ++ q) x)
    (hx : ∀ a ∈ x, g.isTerminal a = true) :
    x.head? ∈ columns g g.first g.follow r := by
  obtain ⟨ids, u, _, hleft⟩ := hq
  have hadmits : g.Admits x.head? (u ++ r.lhs :: q) :=
    (Grammar.admits_of_none_mem (FollowSets.none_mem_start g g.first) _).derives hleft.derives
  exact hadmits.of_append.mem_columns hr (FirstSets.head?_mem_ofString h hx)

/-- Without conflicts the lookahead decides the rule. -/
lemma ll1_of_isLl1 (ht : (ofGrammar g).isLl1 = true) : g.Ll1 := by
  intro s q hq i j r r' hi hj hr hr' x y hx hy hdx hdy hhead
  subst hr
  have hpi : Predicts g g.first g.follow r.lhs x.head? i :=
    ⟨r, hi, rfl, mem_columnSet.mpr
      (mem_columns_of_derives (Grammar.mem_rules_of_rule? hi) hq hdx hx)⟩
  have hpj : Predicts g g.first g.follow r.lhs x.head? j := by
    rw [← hr'] at hq ⊢
    rw [hhead]
    exact ⟨r', hj, rfl, mem_columnSet.mpr
      (mem_columns_of_derives (Grammar.mem_rules_of_rule? hj) hq hdy hy)⟩
  by_contra hne
  obtain ⟨c, hc, _⟩ := exists_conflict hpi hpj hne
  rw [isLl1, List.isEmpty_iff] at ht
  exact List.ne_nil_of_mem hc ht

/-! ### From columns to derivations -/

/-- A column of a rule is the first terminal of something that the rule makes of a
context: of any context if the right-hand side begins with it, and else of one that
derives terminals which begin with it. -/
lemma exists_derives_of_mem_columns (hprod : ∀ s ∈ g.nonterminals, g.Productive s) {r : Rule}
    (hr : r ∈ g.rules) {x : Lookahead} (hx : x ∈ columns g g.first g.follow r)
    {q z : List Symbol} (hz : ∀ a ∈ z, g.isTerminal a = true) (hqz : g.Derives q z)
    (hfollow : x ∈ g.follow.members r.lhs → z.head? = x) :
    ∃ y, (∀ a ∈ y, g.isTerminal a = true) ∧ g.Derives (r.rhs ++ q) y ∧ y.head? = x := by
  obtain ⟨hne, hfirst⟩ | ⟨hnull, hmem⟩ := mem_columns.mp hx
  · obtain ⟨a, rfl⟩ := Option.ne_none_iff_exists'.mp hne
    obtain ⟨ha, hstarts⟩ := FirstSets.some_mem_ofString_iff.mp hfirst
    obtain ⟨y, hy, hry⟩ := hstarts.exists_terminals hprod (g.rhs_lt r hr)
    refine ⟨(a :: y) ++ z, ?_, hry.append hqz, rfl⟩
    exact List.forall_mem_append.mpr ⟨List.forall_mem_cons.mpr ⟨ha, hy⟩, hz⟩
  · have herase := Grammar.nullable_iff.mp (FirstSets.none_mem_ofString_iff.mp hnull)
    exact ⟨z, hz, herase.append hqz, hfollow hmem⟩

/-- An accessible nonterminal has a leftmost context that derives terminals; these begin
with any given lookahead that follows the nonterminal. -/
lemma exists_context (hacc : ∀ s ∈ g.nonterminals, g.Accessible s)
    (hprod : ∀ s ∈ g.nonterminals, g.Productive s) {s : Symbol} (hs : s ∈ g.nonterminals)
    (x : Lookahead) :
    ∃ q z, g.LeftContext s q ∧ (∀ a ∈ z, g.isTerminal a = true) ∧ g.Derives q z
      ∧ (x ∈ g.follow.members s → z.head? = x) := by
  by_cases hx : x ∈ g.follow.members s
  · obtain ⟨q, z, hq, hz, hqz, hhead⟩ :=
      (FollowSets.follows_of_mem hx).exists_leftContext hacc hprod
    exact ⟨q, z, hq, hz, hqz, fun _ => hhead⟩
  · obtain ⟨q, hq⟩ := Grammar.exists_leftContext hprod (hacc s hs)
    obtain ⟨z, hz, hqz⟩ := Grammar.exists_terminals hprod hq.named
    exact ⟨q, z, hq, hz, hqz, fun hx' => absurd hx' hx⟩

/-- If the lookahead decides the rule, there are no conflicts. -/
lemma isLl1_of_ll1 (hacc : ∀ s ∈ g.nonterminals, g.Accessible s)
    (hprod : ∀ s ∈ g.nonterminals, g.Productive s) (hll1 : g.Ll1) :
    (ofGrammar g).isLl1 = true := by
  rw [isLl1, List.isEmpty_iff, List.eq_nil_iff_forall_not_mem]
  intro c hc
  obtain ⟨⟨r, hi, hr, hxr⟩, ⟨r', hj, hr', hxr'⟩, hlt⟩ := lt_of_mem_conflicts hc
  have hmem := Grammar.mem_rules_of_rule? hi
  have hmem' := Grammar.mem_rules_of_rule? hj
  -- one context serves both rules
  obtain ⟨q, z, hq, hz, hqz, hfollow⟩ :=
    exists_context hacc hprod (hr ▸ g.lhs_mem r hmem) c.lookahead
  obtain ⟨x, hx, hdx, hheadx⟩ := exists_derives_of_mem_columns hprod hmem
    (mem_columnSet.mp hxr) hz hqz (hr.symm ▸ hfollow)
  obtain ⟨y, hy, hdy, hheady⟩ := exists_derives_of_mem_columns hprod hmem'
    (mem_columnSet.mp hxr') hz hqz (hr'.symm ▸ hfollow)
  have hsame := hll1 c.nonterminal q hq c.discarded c.kept r r' hi hj hr hr' x y hx hy hdx hdy
    (hheadx.trans hheady.symm)
  exact Nat.ne_of_lt hlt hsame

/-- **A table without conflicts is the same as the LL(1) property**, for every grammar
whose declared nonterminals all occur in strings derived from the start symbol and all
derive strings of terminals. -/
theorem isLl1_iff (g : Grammar) (hacc : ∀ s ∈ g.nonterminals, g.Accessible s)
    (hprod : ∀ s ∈ g.nonterminals, g.Productive s) :
    (ofGrammar g).isLl1 = true ↔ g.Ll1 :=
  ⟨ll1_of_isLl1, isLl1_of_ll1 hacc hprod⟩

/-- The sums have the LL(1) property, since their table has no conflicts. -/
theorem isLl1_iff_sums :
    (∀ s ∈ Grammar.sums.nonterminals, Grammar.sums.Accessible s)
      ∧ (∀ s ∈ Grammar.sums.nonterminals, Grammar.sums.Productive s)
      ∧ Grammar.sums.Ll1 := by
  have htable : (ofGrammar Grammar.sums).isLl1 = true := by decide +kernel
  exact ⟨Grammar.accessible_sums, Grammar.productive_sums,
    (isLl1_iff Grammar.sums Grammar.accessible_sums Grammar.productive_sums).mp htable⟩

end Table

end TopDown
