import TopDown.SyntaxError
import TopDown.Table

/-!
The predictive machine and its steps.

A configuration holds a stack of symbols, the unread tokens and the steps made
so far. The machine takes the symbol on top: a terminal has to be the current
token, which is then read; a nonterminal is replaced by the right-hand side of
the rule that the table has for it and the current token. When the stack is
exhausted the input has to be, too.

* `Step`: a terminal was matched with the current token, or a nonterminal was
  expanded by a rule. `Step.show?` is a step in words, for a rule that the
  grammar has, and `showTrace` has one line for each of several steps.
* `Token`: a word of the input with the symbol it names, if it names one.
* `Config`, `Table.advance`: a configuration, and what becomes of it.
* `Table.run`: the machine run for a bounded number of moves. The move that
  finds the stack exhausted counts as one.
* `Table.runToEnd?`: the machine run until it stops, however long that takes.
-/

namespace TopDown

/-! ### Steps -/

/-- One step of a parse. -/
inductive Step where
  /-- The terminal on top of the stack was the current token. -/
  | consume (terminal : Symbol)
  /-- The nonterminal on top of the stack was replaced by a rule. -/
  | expand (rule : RuleId)
deriving DecidableEq

/-- A step in words: the matched symbol, or the rule. A place without a rule
has no words. -/
def Step.show? (g : Grammar) : Step → Option String
  | .consume s => some ("Match: " ++ g.nameOf s)
  | .expand id => g.showRuleAt? id

/-- The steps in words. -/
def traceLines (g : Grammar) (steps : List Step) : List String :=
  steps.map fun s => (s.show? g).getD unnamed

/-- The steps as text, one line each. -/
def showTrace (g : Grammar) (steps : List Step) : String :=
  String.join ((traceLines g steps).map (· ++ "\n"))

/-! ### Configurations -/

/-- A word of the input. -/
structure Token where
  /-- The word. -/
  text : String
  /-- The symbol it names, if it is a name of the grammar. -/
  symbol : Option Symbol
deriving DecidableEq

/-- A word read as a token of a grammar. -/
def Token.ofText (g : Grammar) (text : String) : Token := ⟨text, g.names.find? text⟩

/-- A configuration of the machine. -/
structure Config where
  /-- The symbols still to be found, the next one first. -/
  stack : List Symbol
  /-- The tokens still to be read. -/
  input : List Token
  /-- The number of tokens read. -/
  position : Nat
  /-- The steps made, the last one first. -/
  history : List Step
deriving DecidableEq

namespace Config

/-- The configuration in which a parse of the given words begins. -/
def initial (g : Grammar) (start : Symbol) (words : List String) : Config :=
  ⟨[start], words.map (Token.ofText g), 0, []⟩

/-- The column for the current token. A word that is no name of the grammar
has none. -/
def column? (c : Config) : Option Lookahead :=
  match c.input with
  | [] => some none
  | token :: _ => token.symbol.map some

/-- The error report of a configuration. -/
def error (c : Config) (g : Grammar) (cause : SyntaxError.Cause) : SyntaxError where
  cause := cause
  stackSymbol := c.stack.head?.map g.nameOf
  lookahead := c.input.head?.map Token.text
  position := c.position

end Config

/-! ### Moves -/

/-- How a run ends. -/
inductive Verdict where
  /-- The input is accepted. -/
  | accepted
  /-- The input is rejected. -/
  | rejected (cause : SyntaxError.Cause)
deriving DecidableEq

/-- Why the input is rejected, if it is. -/
def Verdict.cause? : Verdict → Option SyntaxError.Cause
  | .accepted => none
  | .rejected cause => some cause

/-- What becomes of a configuration. -/
inductive Move where
  /-- It is followed by another. -/
  | next (c : Config)
  /-- The machine stops in it. -/
  | stop (verdict : Verdict)
deriving DecidableEq

namespace Table

/-- The place and the rule that the table has for a nonterminal in a
configuration. -/
def predict? (t : Table) (s : Symbol) (c : Config) : Option (RuleId × Rule) := do
  let column ← c.column?
  let id ← t.get? s column
  let r ← t.grammar.rule? id
  return (id, r)

/-- Matches a terminal on top of the stack with the current token. -/
def matchTerminal (c : Config) (s : Symbol) (stack : List Symbol) : Move :=
  match c.input with
  | token :: input =>
      if token.symbol = some s then
        .next ⟨stack, input, c.position + 1, .consume s :: c.history⟩
      else .stop (.rejected .unexpectedToken)
  | [] => .stop (.rejected .unexpectedToken)

/-- Replaces a nonterminal on top of the stack. -/
def expandNonterminal (t : Table) (c : Config) (s : Symbol) (stack : List Symbol) : Move :=
  match t.predict? s c with
  | some (id, r) => .next ⟨r.rhs ++ stack, c.input, c.position, .expand id :: c.history⟩
  | none => .stop (.rejected .noProduction)

/-- One move of the machine. -/
def advance (t : Table) (c : Config) : Move :=
  match c.stack with
  | [] => .stop (if c.input.isEmpty then .accepted else .rejected .unconsumedInput)
  | s :: stack =>
      if t.grammar.isTerminal s then matchTerminal c s stack
      else t.expandNonterminal c s stack

end Table

/-! ### Runs -/

/-- Runs the machine for at most `bound` moves: the configuration that it has
come to, and the verdict if it has stopped there. -/
def Table.run (t : Table) : (bound : Nat) → Config → Config × Option Verdict
  | 0, c => (c, none)
  | bound + 1, c =>
      match t.advance c with
      | .next d => t.run bound d
      | .stop verdict => (c, some verdict)

/-- Runs the machine until it stops. A machine that never stops has no
outcome. -/
def Table.runToEnd? (t : Table) (c : Config) : Option (Config × Verdict) :=
  match t.advance c with
  | .next d => t |>.runToEnd? d
  | .stop verdict => some (c, verdict)
partial_fixpoint

end TopDown
