import TopDown.Grammar

/-!
Writing rules and grammars as text.

* `Grammar.nameOf`: the name of a symbol, a question mark if it has none.
* `Grammar.showRule`: one rule as `lhs -> rhs`, an empty right-hand side being
  written as the empty string's spelling.
* `Grammar.render`: the whole grammar, one line for each nonterminal.
-/

namespace TopDown.Grammar

/-- The name of a symbol, or the mark of a symbol without one. -/
def nameOf (g : Grammar) (s : Symbol) : String := g.names.nameOf s

/-- A lookahead by name; the end of the input has a spelling of its own. -/
def nameOfLookahead (g : Grammar) : Lookahead → String
  | some s => g.nameOf s
  | none => endMarker

/-- A right-hand side: the names with a blank between them. -/
def showRhs (g : Grammar) (rhs : List Symbol) : String :=
  if rhs.isEmpty then epsilon else " ".intercalate (rhs.map g.nameOf)

/-- A rule as `lhs -> rhs`. -/
def showRule (g : Grammar) (r : Rule) : String :=
  g.nameOf r.lhs ++ " -> " ++ g.showRhs r.rhs

/-- The rule at a place as `lhs -> rhs`. -/
def showRuleAt? (g : Grammar) (id : RuleId) : Option String :=
  (g.rule? id).map g.showRule

/-- The line of a nonterminal: its alternatives with bars between them. -/
def showProductions (g : Grammar) (lhs : Symbol) : String :=
  g.nameOf lhs ++ " -> "
    ++ " | ".intercalate ((g.productions lhs).map fun p => g.showRhs p.2.rhs) ++ "\n"

/-- The grammar as text, one line for each nonterminal in the order of
declaration. -/
def render (g : Grammar) : String := String.join (g.nonterminals.map g.showProductions)

end TopDown.Grammar
