/-!
Errors in the description of a grammar.

* `FormatError.Cause`: what is wrong, either with one line of text or with the
  declarations as a whole.
* `FormatError.message`: the report, which names the line when there is one.
-/

namespace TopDown

/-- What is wrong with the description of a grammar. -/
inductive FormatError.Cause where
  /-- No arrow stands between the left-hand side and the alternatives. -/
  | missingSeparator
  /-- The left-hand side is not one word, or spells the empty string. -/
  | invalidLhs (lhs : String)
  /-- Nothing follows the arrow. -/
  | missingAlternatives
  /-- Nothing stands between two bars. The empty string has to be spelled. -/
  | emptyAlternative
  /-- Nothing is declared at all. -/
  | emptyGrammar
deriving DecidableEq

/-- An error in the description of a grammar, and the line it stands in,
counted from 1. -/
structure FormatError where
  /-- What is wrong. -/
  cause : FormatError.Cause
  /-- The line, if the error belongs to one. -/
  line : Option Nat
deriving DecidableEq

namespace FormatError

/-- The cause in words. -/
def Cause.message : Cause → String
  | .missingSeparator => "missing production separator"
  | .invalidLhs lhs => "invalid left-hand side `" ++ lhs ++ "`"
  | .missingAlternatives => "missing alternative list"
  | .emptyAlternative => "empty alternative"
  | .emptyGrammar => "grammar has no rules"

/-- The whole report. -/
def message (e : FormatError) : String :=
  match e.line with
  | some n => "grammar format error at line " ++ toString n ++ ": " ++ e.cause.message
  | none => "grammar format error: " ++ e.cause.message

end FormatError

end TopDown
