import TopDown.Parse.Machine

/-!
Parsing a list of words.

* `Run`: the steps that a parse made and the error that stopped it, if any;
  `Config.report` is the record of a run of the machine.
* `Table.parseWithin`: a parse of at most a given number of moves, which stops
  with an error when they are used up.
* `Table.parse?`: a parse without a limit, which has no result when the machine
  never stops.
-/

namespace TopDown

/-- What a parse did. -/
structure Run where
  /-- The steps made, in order. -/
  steps : List Step
  /-- The error that stopped the parse, unless it accepted. -/
  failure : Option SyntaxError
deriving DecidableEq

/-- The steps of a parse that accepted, or the error. -/
def Run.result (r : Run) : Except SyntaxError (List Step) :=
  match r.failure with
  | some e => .error e
  | none => .ok r.steps

theorem Run.result_eq_ok_iff {r : Run} {steps : List Step} :
    r.result = .ok steps ↔ r.failure = none ∧ r.steps = steps := by
  cases h : r.failure <;> simp [result, h]

theorem Run.result_eq_error_iff {r : Run} {e : SyntaxError} :
    r.result = .error e ↔ r.failure = some e := by
  cases h : r.failure <;> simp [result, h]

/-- The record of a run that has come to a configuration, with the cause of its
failure if it has failed there. -/
def Config.report (c : Config) (g : Grammar) (failure : Option SyntaxError.Cause) : Run :=
  ⟨c.history.reverse, failure.map (c.error g)⟩

namespace Table

/-- Parses words from the given symbol in at most `limit` moves. -/
def parseWithin (t : Table) (limit : Nat) (start : Symbol) (words : List String) : Run :=
  match t.run limit (.initial t.grammar start words) with
  | (c, some verdict) => c.report t.grammar verdict.cause?
  | (c, none) => c.report t.grammar (some (.stepLimitExceeded limit))

/-- Parses words from the given symbol. There is no result when the machine
never stops. -/
def parse? (t : Table) (start : Symbol) (words : List String) : Option Run :=
  (t.runToEnd? (.initial t.grammar start words)).map fun (c, verdict) =>
    c.report t.grammar verdict.cause?

/-- Parses words with or without a limit. -/
def parseUpTo? (t : Table) (limit : Option Nat) (start : Symbol) (words : List String) :
    Option Run :=
  match limit with
  | some limit => some (t.parseWithin limit start words)
  | none => t.parse? start words

end Table

end TopDown
