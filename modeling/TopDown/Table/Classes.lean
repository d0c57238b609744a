import TopDown.Table

/-!
Classes of nonterminals.

A nonterminal whose cells have a conflict is outside the LL(1) class, and so is
every nonterminal from which one such can be reached through right-hand sides.

* `Grammar.withUsers`: a set of symbols with the left-hand sides of all rules
  that mention one of them; `Grammar.reaching` repeats it to the end.
* `Table.classes`: the class of each declared nonterminal, by number.
-/

namespace TopDown

/-- What a table says of a nonterminal. -/
inductive NonterminalClass where
  /-- No conflict is reachable. -/
  | ll1
  /-- A conflict is reachable. -/
  | contextFree
deriving DecidableEq

namespace Grammar

/-- A set of symbols together with the left-hand sides of the rules that
mention one of them. -/
def withUsers (g : Grammar) (targets : OrderedSet Symbol) : OrderedSet Symbol :=
  targets ∪ .ofList ((g.rules.filter fun r => r.rhs.any (· ∈ targets)).map Rule.lhs)

theorem mem_withUsers {g : Grammar} {targets : OrderedSet Symbol} {s : Symbol} :
    s ∈ g.withUsers targets ↔
      s ∈ targets ∨ ∃ r ∈ g.rules, r.lhs = s ∧ ∃ x ∈ r.rhs, x ∈ targets := by
  simp only [withUsers, OrderedSet.mem_union, OrderedSet.mem_ofList, List.mem_map,
    List.mem_filter, List.any_eq_true, decide_eq_true_eq]
  refine or_congr Iff.rfl ⟨?_, ?_⟩
  · rintro ⟨r, ⟨hr, hx⟩, e⟩
    exact ⟨r, hr, e, hx⟩
  · rintro ⟨r, hr, e, hx⟩
    exact ⟨r, ⟨hr, hx⟩, e⟩

/-- The symbols from which a target can be reached through right-hand sides,
the targets included. -/
def reaching (g : Grammar) (targets : OrderedSet Symbol) : OrderedSet Symbol :=
  (settle g.withUsers (g.nonterminals.length + 1) targets).value

end Grammar

namespace Table

/-- The nonterminals whose cells have a conflict. -/
def conflicted (t : Table) : OrderedSet Symbol :=
  .ofList (t.conflicts.map Conflict.nonterminal)

/-- The class of every declared nonterminal, by number. -/
def classes (t : Table) : OrderedMap Symbol NonterminalClass :=
  let outside := t.grammar.reaching t.conflicted
  .ofList (t.grammar.nonterminals.map fun s =>
    (s, if s ∈ outside then .contextFree else .ll1))

end Table

end TopDown
