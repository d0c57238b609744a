import TopDown.Grammar
import TopDown.Text

/-!
Reading a grammar from text.

Each line that is not blank declares one left-hand side: the left-hand side,
an arrow, and the alternatives between bars. Declaring a left-hand side again
appends to its alternatives. Lines end at a line feed; a carriage return
before it is blank and goes with the trimming of the line.

* `Text.splitArrow`: a line cut at its leftmost arrow, in either spelling.
* `Declaration.ofLine`: one line, or what is wrong with it first.
* `Declaration.ofLines`: all lines, or the first error with its line number.
* `Grammar.load`: the grammar that a text declares.
-/

namespace TopDown

/-- Cuts a line at its leftmost arrow, `->` or `→`. -/
def Text.splitArrow : List Char → Option (List Char × List Char)
  | [] => none
  | '-' :: '>' :: cs => some ([], cs)
  | '→' :: cs => some ([], cs)
  | c :: cs => (splitArrow cs).map fun (left, right) => (c :: left, right)

namespace Declaration

open Text

/-- Whether a trimmed text cannot be a left-hand side: it is empty, holds a
blank, or spells the empty string. -/
def isBadLhs (lhs : List Char) : Bool :=
  lhs.isEmpty || lhs.any isBlank || isEpsilon (String.ofList lhs)

/-- The names in the text of one alternative, which must not be blank. -/
def readAlternative (piece : List Char) : Except FormatError.Cause (List String) :=
  if (trim piece).isEmpty then .error .emptyAlternative
  else .ok ((words (trim piece)).map String.ofList)

/-- The declaration in a line, if the line is not blank. -/
def ofLine (line : List Char) : Except FormatError.Cause (Option Declaration) :=
  if (trim line).isEmpty then .ok none
  else
    match splitArrow (trim line) with
    | none => .error .missingSeparator
    | some (left, right) =>
        if isBadLhs (trim left) then
          .error (.invalidLhs (String.ofList (trim left)))
        else if (trim right).isEmpty then .error .missingAlternatives
        else do
          let alternatives ← ((trim right).splitOn '|').mapM readAlternative
          return some ⟨String.ofList (trim left), alternatives⟩

/-- The declarations in a list of lines, the first of them having the given
number. -/
def ofLines (number : Nat) : List (List Char) → Except FormatError (List Declaration)
  | [] => .ok []
  | line :: rest =>
      match ofLine line with
      | .error cause => .error ⟨cause, some number⟩
      | .ok none => ofLines (number + 1) rest
      | .ok (some decl) => (ofLines (number + 1) rest).map (decl :: ·)

/-- The declarations in a text. -/
def ofText (text : String) : Except FormatError (List Declaration) :=
  ofLines 1 (text.toList.splitOn '\n')

end Declaration

/-- The grammar that a text declares. -/
def Grammar.load (text : String) : Except FormatError Grammar :=
  Declaration.ofText text >>= Grammar.ofDeclarations

end TopDown
