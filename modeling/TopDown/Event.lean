import TopDown.Parse.Run

/-!
Events: what the library has to report of its work, in the order in which it
happens.

* `Event`, `Event.level`, `Event.message`: the reports and their words.
* `Grammar.loadEvents`, `FirstSets.events`, `FollowSets.events`, `Table.events`,
  `Run.events`: the reports of reading a grammar, of settling its sets, of
  filling its table and of a parse.
-/

namespace TopDown

/-- How much attention a report wants. -/
inductive Event.Level where
  /-- Something to look at. -/
  | warn
  /-- The end of a piece of work. -/
  | debug
  /-- A single step. -/
  | trace
deriving DecidableEq

/-- The name of a level. -/
def Event.Level.name : Event.Level → String
  | .warn => "WARN"
  | .debug => "DEBUG"
  | .trace => "TRACE"

/-- A report. -/
inductive Event where
  /-- A grammar was read from text. -/
  | grammarLoaded (rules symbols : Nat)
  /-- The FIRST sets settled. -/
  | firstSettled (passes : Nat)
  /-- The FOLLOW sets settled. -/
  | followSettled (passes : Nat)
  /-- A rule was replaced in a table cell. -/
  | ruleReplaced (row column discarded kept : String)
  /-- A table was filled. -/
  | tableFilled (cells conflicts : Nat)
  /-- A token was matched. -/
  | tokenMatched (text : String) (position : Nat)
  /-- A nonterminal was expanded. -/
  | ruleExpanded (rule : String)
  /-- The input was accepted. -/
  | inputAccepted (moves : Nat)
deriving DecidableEq

namespace Event

/-- The level of a report. -/
def level : Event → Level
  | .ruleReplaced .. => .warn
  | .tokenMatched .. | .ruleExpanded .. | .inputAccepted .. => .trace
  | _ => .debug

/-- A report in words. -/
def message : Event → String
  | .grammarLoaded rules symbols =>
      "loaded grammar with " ++ toString rules ++ " rules over " ++ toString symbols
        ++ " symbols"
  | .firstSettled passes => "FIRST sets converged after " ++ toString passes ++ " passes"
  | .followSettled passes => "FOLLOW sets converged after " ++ toString passes ++ " passes"
  | .ruleReplaced row column discarded kept =>
      "conflict in table cell M[" ++ row ++ ", " ++ column ++ "]: `" ++ discarded
        ++ "` replaced by `" ++ kept ++ "`"
  | .tableFilled cells conflicts =>
      "built LL(1) table with " ++ toString cells ++ " cells and " ++ toString conflicts
        ++ " conflicts"
  | .tokenMatched text position => "match `" ++ text ++ "` at token " ++ toString position
  | .ruleExpanded rule => "derive `" ++ rule ++ "`"
  | .inputAccepted moves => "accept after " ++ toString moves ++ " steps"

end Event

/-- The report of a grammar read from text. -/
def Grammar.loadEvents (g : Grammar) : List Event :=
  [.grammarLoaded g.rules.length g.symbolCount]

/-- The report of settled FIRST sets. -/
def FirstSets.events (solution : Settled FirstSets) : List Event :=
  [.firstSettled solution.passes]

/-- The report of settled FOLLOW sets. -/
def FollowSets.events (solution : Settled FollowSets) : List Event :=
  [.followSettled solution.passes]

/-- The report of a conflict. -/
def Conflict.event (g : Grammar) (c : Conflict) : Event :=
  .ruleReplaced (g.nameOf c.nonterminal) (g.nameOfLookahead c.lookahead)
    ((g.showRuleAt? c.discarded).getD unnamed) ((g.showRuleAt? c.kept).getD unnamed)

/-- The reports of filling a table. -/
def Table.events (t : Table) : List Event :=
  t.conflicts.map (·.event t.grammar) ++ [.tableFilled t.size t.conflicts.length]

/-- The reports of the steps of a parse after those already made, the last of
which comes first. The given words are still to be read, and `position` words
have been. -/
def Step.eventsAfter (g : Grammar) (made : List Event) (position : Nat) :
    List String → List Step → List Event
  | word :: words, .consume _ :: steps =>
      eventsAfter g (.tokenMatched word position :: made) (position + 1) words steps
  | words, .expand id :: steps =>
      eventsAfter g (.ruleExpanded ((g.showRuleAt? id).getD unnamed) :: made) position
        words steps
  | _, _ => made.reverse

/-- The reports of a parse of the given words. The move that found the stack
exhausted is counted with the steps. -/
def Run.events (r : Run) (g : Grammar) (words : List String) : List Event :=
  Step.eventsAfter g [] 0 words r.steps
    ++ if r.failure.isNone then [.inputAccepted (r.steps.length + 1)] else []

end TopDown
