import TopDown.Grammar
import TopDown.Lookahead.LookaheadSets
import TopDown.Settle

/-!
FIRST sets: the terminals that the strings derived from a nonterminal may start
with, and none among them if the empty string is derived.

* `FirstSets.ofString`: the starts of a string of symbols, read off the sets of
  its symbols up to the first that is not nullable.
* `FirstSets.pass`: one pass over all rules, which reads the sets as they were
  before the pass only.
* `FirstSets.solve`: passes repeated from empty sets until one changes nothing,
  with their number; `FirstSets.ofGrammar` is the value.
-/

namespace TopDown

/-- FIRST sets by nonterminal; none in a set is the empty string. -/
@[ext] structure FirstSets where
  /-- The sets. -/
  sets : LookaheadSets
deriving DecidableEq

namespace FirstSets

/-- The set of a symbol, if it has one. -/
def get? (f : FirstSets) (s : Symbol) : Option LookaheadSet := f.sets.get? s

/-- The starts of a symbol, none at all if it has no set. -/
def members (f : FirstSets) (s : Symbol) : LookaheadSet := f.sets.members s

/-- Whether the set of a symbol holds the empty string. -/
def isNullable (f : FirstSets) (s : Symbol) : Bool := decide (none ∈ f.members s)

/-- The starts of a string: a terminal is its own start, a nullable symbol
lets the scan go on to the next, and the empty string is among the starts when
the scan passes the whole string. -/
def ofString (f : FirstSets) (isTerminal : Symbol → Bool) : List Symbol → LookaheadSet
  | [] => {none}
  | s :: rest =>
      if isTerminal s then {some s}
      else if f.isNullable s then (f.members s).erase none ∪ ofString f isTerminal rest
      else f.members s

/-- Every declared nonterminal with an empty set. -/
def initial (g : Grammar) : FirstSets := ⟨.ofList (g.nonterminals.map fun s => (s, ∅))⟩

/-- What the rules contribute: the starts of a right-hand side are starts of
its left-hand side. -/
def contributions (f : FirstSets) (g : Grammar) : List (Symbol × LookaheadSet) :=
  g.rules.map fun r => (r.lhs, f.ofString g.isTerminal r.rhs)

/-- One pass over all rules, reading from `f` only. -/
def pass (g : Grammar) (f : FirstSets) : FirstSets := ⟨f.sets.absorbAll (f.contributions g)⟩

/-- More passes than can change anything: each change adds a terminal or the
empty string to the set of a nonterminal. -/
def passBound (g : Grammar) : Nat := g.nonterminals.length * (g.symbolCount + 1) + 1

/-- Passes from empty sets until one changes nothing. -/
def solve (g : Grammar) : Settled FirstSets := settle (pass g) (passBound g) (initial g)

/-- The FIRST sets of a grammar. -/
def ofGrammar (g : Grammar) : FirstSets := (solve g).value

end FirstSets

end TopDown
