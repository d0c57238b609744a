import TopDown.Proofs.FollowSets
import TopDown.Proofs.Machine
import TopDown.Proofs.Reachability

/-!
What a grammar's own table predicts.

* `Grammar.Admits`: at every symbol of a string, a lookahead that the rest of
  the string may start with is one that may follow the symbol. Expanding the
  first symbol keeps that (`Admits.expand`).
* `Grammar.Admits.mem_columns`: so if the lookahead may start what the first
  symbol becomes by a rule, together with the rest, then the rule stands in the
  column of the lookahead.
* `Table.advances_of_mem_columns`: in a predictable row the machine uses that
  rule.
-/

namespace TopDown

namespace Grammar

variable {g : Grammar}

/-- At every symbol of the string that is no terminal, the lookahead `x` may
follow the symbol if the rest of the string may start with it. -/
def Admits (g : Grammar) (x : Lookahead) : List Symbol → Prop
  | [] => True
  | s :: w =>
      (g.isTerminal s = false → x ∈ g.first.ofString g.isTerminal w → x ∈ g.follow.members s)
        ∧ Admits g x w

/-- One symbol admits every terminal. -/
lemma admits_singleton (a s : Symbol) : g.Admits (some a) [s] := by
  refine ⟨fun _ h => ?_, trivial⟩
  exact absurd (FirstSets.mem_ofString_nil.mp h) (Option.some_ne_none a)

/-- One symbol after which the input may end admits every lookahead. -/
lemma admits_of_none_mem {s : Symbol} (hend : none ∈ g.follow.members s) (x : Lookahead) :
    g.Admits x [s] := by
  refine ⟨fun _ hx => ?_, trivial⟩
  rw [FirstSets.mem_ofString_nil.mp hx]
  exact hend

/-- Replacing the first symbol by a rule keeps what is admitted. -/
lemma Admits.expand {r : Rule} (hr : r ∈ g.rules) {x : Lookahead} {w : List Symbol}
    (h : g.Admits x (r.lhs :: w)) : g.Admits x (r.rhs ++ w) := by
  obtain ⟨hlhs, hw⟩ := h
  -- the same for every end of the right-hand side, from its last symbol on
  have key : ∀ v p, r.rhs = p ++ v → g.Admits x (v ++ w) := by
    intro v
    induction v with
    | nil => exact fun _ _ => hw
    | cons s v ih =>
        intro p hp
        refine ⟨fun hs hx => ?_, ih (p ++ [s]) (by simpa using hp)⟩
        refine FollowSets.mem_members_of_rule hr hp hs (FollowSets.mem_afterOccurrence.mpr ?_)
        obtain hv | ⟨hnull, hx'⟩ := FirstSets.mem_ofString_append.mp hx
        · exact .inl hv
        · exact .inr ⟨hnull, hlhs (isTerminal_lhs hr) hx'⟩
  exact key r.rhs [] rfl

/-- **A rule stands in the column of every lookahead that what it makes of the
string may start with.** -/
theorem Admits.mem_columns {r : Rule} (hr : r ∈ g.rules) {x : Lookahead} {w : List Symbol}
    (h : g.Admits x (r.lhs :: w)) (hx : x ∈ g.first.ofString g.isTerminal (r.rhs ++ w)) :
    x ∈ Table.columns g g.first g.follow r := by
  refine Table.mem_columns.mpr ?_
  obtain hrhs | ⟨hnull, hx'⟩ := FirstSets.mem_ofString_append.mp hx
  · exact .inl hrhs
  · exact .inr ⟨hnull, h.1 (isTerminal_lhs hr) hx'⟩

end Grammar

namespace Table

variable {g : Grammar} {stack : List Symbol} {input : List Token} {position : Nat}
  {history : List Step}

/-- **In a predictable row the machine uses the rule that stands in the column
of the current token.** -/
theorem advances_of_mem_columns {id : RuleId} {r : Rule} {x : Lookahead}
    (hid : g.rule? id = some r) (hpred : (ofGrammar g).Predictable r.lhs)
    (hx : (⟨r.lhs :: stack, input, position, history⟩ : Config).column? = some x)
    (hcol : x ∈ columns g g.first g.follow r) :
    (ofGrammar g).Advances ⟨r.lhs :: stack, input, position, history⟩
      ⟨r.rhs ++ stack, input, position, .expand id :: history⟩ := by
  have hns := Grammar.isTerminal_lhs (Grammar.mem_rules_of_rule? hid)
  have hcell := get?_build_of_mem_columns hid hpred.conflictFree hcol
  exact Advances.expand hns hx hcell hid

end Table

end TopDown
