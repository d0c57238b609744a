import TopDown.Symbol

/-!
Errors of a parse.

* `SyntaxError.Cause`: why the parse stopped.
* `SyntaxError`: the cause with the symbol on top of the stack, the current
  token and its place.
* `SyntaxError.message`: the report; an exhausted stack and an exhausted input
  are both written as the end marker.
-/

namespace TopDown

/-- Why a parse stopped before accepting. -/
inductive SyntaxError.Cause where
  /-- The table has no rule for the nonterminal on top and the current
  token. -/
  | noProduction
  /-- The terminal on top is not the current token. -/
  | unexpectedToken
  /-- The stack is exhausted and the input is not. -/
  | unconsumedInput
  /-- The parse took as many steps as it was allowed. -/
  | stepLimitExceeded (limit : Nat)
deriving DecidableEq

/-- An error of a parse. -/
structure SyntaxError where
  /-- Why the parse stopped. -/
  cause : SyntaxError.Cause
  /-- The name of the symbol on top of the stack, if the stack is not
  exhausted. -/
  stackSymbol : Option String
  /-- The current token, if the input is not exhausted. -/
  lookahead : Option String
  /-- The number of tokens read before the current one. -/
  position : Nat
deriving DecidableEq

/-- The whole report. -/
def SyntaxError.message (e : SyntaxError) : String :=
  let top := e.stackSymbol.getD endMarker
  let token := e.lookahead.getD endMarker
  "syntax error at token " ++ toString e.position ++ ": " ++
    match e.cause with
    | .noProduction => "no production for [" ++ top ++ ", " ++ token ++ "]"
    | .unexpectedToken => "expected `" ++ top ++ "`, found `" ++ token ++ "`"
    | .unconsumedInput => "unconsumed input starting with `" ++ token ++ "`"
    | .stepLimitExceeded limit =>
        "parse exceeded the limit of " ++ toString limit ++ " steps"

end TopDown
