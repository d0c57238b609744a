import TopDown.Grammar.Printer
import TopDown.Lookahead.FollowSets

/-!
LL(1) tables.

A table says which rule to use for a nonterminal and a lookahead. A rule is
written into the columns of the starts of its right-hand side, and if that is
nullable, into the columns of what follows its left-hand side. A cell holds one
rule: the rule written last. When that replaces another rule, a conflict is
recorded; a rule that writes its own cell again makes none.

* `Rows`: the filled cells, by row and then by column.
* `Table.columns`, `Table.writes`: where a rule goes, and all writes in order.
* `Filling`: the writes so far, with the conflicts they made.
* `Table.build`: the table for given FIRST and FOLLOW sets, whatever they are;
  `Table.ofGrammar` takes the grammar's own.
* `Table.isLl1`: there are no conflicts.
-/

namespace TopDown

/-- Filled cells: for each nonterminal its row, which maps a lookahead to the
rule in that column. The end of the input is the column none. -/
abbrev Rows := OrderedMap Symbol (OrderedMap Lookahead RuleId)

namespace Rows

/-- The row of a nonterminal, which is empty if nothing is written there. -/
def row (m : Rows) (s : Symbol) : OrderedMap Lookahead RuleId := (m.get? s).getD ∅

/-- The rule in a cell. -/
def cell? (m : Rows) (s : Symbol) (a : Lookahead) : Option RuleId := (row m s).get? a

/-- Writes a rule into a cell. -/
def put (m : Rows) (s : Symbol) (a : Lookahead) (id : RuleId) : Rows :=
  m.insert s ((row m s).insert a id)

/-- A written cell holds what was written, every other cell what it held. -/
theorem cell?_put {m : Rows} {s c : Symbol} {a b : Lookahead} {id : RuleId} :
    cell? (put m s a id) c b = if s = c ∧ a = b then some id else cell? m c b := by
  simp only [cell?, row, put, OrderedMap.get?_insert]
  by_cases h : s = c
  · subst h
    simp
  · simp [h]

end Rows

/-- Two rules that were written into the same cell. -/
structure Conflict where
  /-- The row of the cell. -/
  nonterminal : Symbol
  /-- The column of the cell. -/
  lookahead : Lookahead
  /-- The rule that stood in the cell. -/
  discarded : RuleId
  /-- The rule that replaced it. -/
  kept : RuleId
deriving DecidableEq

/-- An LL(1) table of a grammar. -/
structure Table where
  /-- The grammar whose rules the cells name. -/
  grammar : Grammar
  /-- The filled cells. -/
  rows : Rows
  /-- The conflicts, in the order in which they arose. -/
  conflicts : List Conflict
deriving DecidableEq

namespace Table

/-! ### Filling -/

/-- The columns a rule is written into, in order: the terminals its right-hand
side starts with, then, if that is nullable, what follows its left-hand
side. -/
def columns (g : Grammar) (f : FirstSets) (h : FollowSets) (r : Rule) : List Lookahead :=
  let starts := f.ofString g.isTerminal r.rhs
  (starts.erase none).toList
    ++ if none ∈ starts then (h.members r.lhs).toList else []

/-- A rule that is to be written into a cell. -/
structure Write where
  /-- The row. -/
  nonterminal : Symbol
  /-- The column. -/
  lookahead : Lookahead
  /-- The rule. -/
  rule : RuleId
deriving DecidableEq

/-- All writes in order: the rules by place, each with its columns. -/
def writes (g : Grammar) (f : FirstSets) (h : FollowSets) : List Write :=
  g.numberedRules.flatMap fun (id, r) =>
    (columns g f h r).map fun a => ⟨r.lhs, a, id⟩

/-- The state of filling a table. -/
structure Filling where
  /-- The cells filled so far. -/
  rows : Rows
  /-- The conflicts so far, the last one first. -/
  conflicts : List Conflict
deriving DecidableEq

namespace Filling

/-- Nothing is written. -/
def empty : Filling := ⟨∅, []⟩

/-- The conflict that a write makes, if the cell holds a different rule. -/
def conflict? (t : Filling) (w : Write) : Option Conflict :=
  match t.rows.cell? w.nonterminal w.lookahead with
  | some old =>
      if old = w.rule then none else some ⟨w.nonterminal, w.lookahead, old, w.rule⟩
  | none => none

/-- Makes a write. -/
def write (t : Filling) (w : Write) : Filling where
  rows := t.rows.put w.nonterminal w.lookahead w.rule
  conflicts := (t.conflict? w).toList ++ t.conflicts

end Filling

/-- The table of a grammar for given FIRST and FOLLOW sets. -/
def build (g : Grammar) (f : FirstSets) (h : FollowSets) : Table :=
  let filled := (writes g f h).foldl Filling.write .empty
  ⟨g, filled.rows, filled.conflicts.reverse⟩

/-- The table of a grammar for its own FIRST and FOLLOW sets. -/
def ofGrammar (g : Grammar) : Table :=
  let f := FirstSets.ofGrammar g
  build g f (FollowSets.ofGrammar g f)

/-! ### Reading -/

/-- The rule in a cell. -/
def get? (t : Table) (nonterminal : Symbol) (lookahead : Lookahead) : Option RuleId :=
  t.rows.cell? nonterminal lookahead

/-- The filled cells of one row, by column. -/
def row (t : Table) (nonterminal : Symbol) : List (Lookahead × RuleId) :=
  (t.rows.row nonterminal).toList

/-- The filled cells, by row and then by column. -/
def cells (t : Table) : List (Symbol × Lookahead × RuleId) :=
  t.rows.toList.flatMap fun (s, row) => row.toList.map fun (a, id) => (s, a, id)

/-- The number of filled cells. -/
def size (t : Table) : Nat := t.cells.length

/-- Whether the table has no conflicts. -/
def isLl1 (t : Table) : Bool := t.conflicts.isEmpty

/-- A cell as `M[row, column] = rule`. -/
def showCell (g : Grammar) (nonterminal : Symbol) (lookahead : Lookahead) (id : RuleId) :
    String :=
  "M[" ++ g.nameOf nonterminal ++ ", " ++ g.nameOfLookahead lookahead ++ "] = "
    ++ (g.showRuleAt? id).getD unnamed

/-- The table as text: a line for each filled cell, the rows in the order of
declaration. -/
def render (t : Table) : String :=
  String.join (t.grammar.nonterminals.flatMap fun s =>
    (t.row s).map fun (a, id) => showCell t.grammar s a id ++ "\n")

@[simp] theorem grammar_build (g : Grammar) (f : FirstSets) (h : FollowSets) :
    (build g f h).grammar = g := rfl

@[simp] theorem grammar_ofGrammar (g : Grammar) : (ofGrammar g).grammar = g := rfl

end Table

end TopDown
