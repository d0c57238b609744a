import TopDown.Lookahead.FirstSets

/-!
FOLLOW sets: the terminals that may come right after a nonterminal, and none
among them if the input may end there.

* `FollowSets.pass`: one pass over all rules. At every occurrence of a
  nonterminal the whole rest of the right-hand side is scanned: its starts may
  follow, and if the rest is nullable, so may what follows the left-hand side.
* `FollowSets.solve`: passes repeated until one changes nothing, from sets that
  are empty but for the end of the input after the start symbol.
-/

namespace TopDown

/-- FOLLOW sets by nonterminal; none in a set is the end of the input. -/
@[ext] structure FollowSets where
  /-- The sets. -/
  sets : LookaheadSets
deriving DecidableEq

namespace FollowSets

/-- The set of a symbol, if it has one. -/
def get? (h : FollowSets) (s : Symbol) : Option LookaheadSet := h.sets.get? s

/-- What may follow a symbol, nothing if it has no set. -/
def members (h : FollowSets) (s : Symbol) : LookaheadSet := h.sets.members s

/-- Every declared nonterminal with an empty set, but for the start symbol,
after which the input may end. -/
def initial (g : Grammar) : FollowSets :=
  ⟨.ofList (g.nonterminals.map fun s => (s, if s = g.start then {none} else ∅))⟩

/-- What may follow an occurrence with the given rest in a rule of `lhs`. -/
def afterOccurrence (h : FollowSets) (g : Grammar) (f : FirstSets) (lhs : Symbol)
    (rest : List Symbol) : LookaheadSet :=
  let starts := f.ofString g.isTerminal rest
  if none ∈ starts then starts.erase none ∪ h.members lhs else starts

/-- What the occurrences of nonterminals in a right-hand side contribute. -/
def ofRhs (h : FollowSets) (g : Grammar) (f : FirstSets) (lhs : Symbol) :
    List Symbol → List (Symbol × LookaheadSet)
  | [] => []
  | s :: rest =>
      if g.isTerminal s then ofRhs h g f lhs rest
      else (s, h.afterOccurrence g f lhs rest) :: ofRhs h g f lhs rest

/-- What the rules contribute. -/
def contributions (h : FollowSets) (g : Grammar) (f : FirstSets) :
    List (Symbol × LookaheadSet) :=
  g.rules.flatMap fun r => h.ofRhs g f r.lhs r.rhs

/-- One pass over all rules, reading from `h` only. -/
def pass (g : Grammar) (f : FirstSets) (h : FollowSets) : FollowSets :=
  ⟨h.sets.absorbAll (h.contributions g f)⟩

/-- More passes than can change anything: each change adds a terminal, the end
of the input or a member of a FIRST set to the set of a nonterminal. -/
def passBound (g : Grammar) (f : FirstSets) : Nat :=
  g.nonterminals.length * (g.symbolCount + 1 + f.sets.total) + 1

/-- Passes from the initial sets until one changes nothing. -/
def solve (g : Grammar) (f : FirstSets) : Settled FollowSets :=
  settle (pass g f) (passBound g f) (initial g)

/-- The FOLLOW sets of a grammar, for given FIRST sets. -/
def ofGrammar (g : Grammar) (f : FirstSets) : FollowSets := (solve g f).value

end FollowSets

end TopDown
