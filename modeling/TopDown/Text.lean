/-!
Blanks and words of a text.

White space is that of Unicode. Words are the symbol names written in one
alternative of a production. Blanks end a word. An operator glyph is a word by
itself. An ASCII capital letter starts a new word, so that `TE'` holds the words
`T` and `E'`. Every other character continues the word that it stands in.

* `blankRanges`, `isBlank`: the white space as a table of code point ranges; the
  zero-width and separator controls are not in it.
* `trim`: a text without the blanks at its two ends.
* `isOperator`: the glyphs that stand alone.
* `scanWords`: the scanner, which carries the word read so far.
* `words`: the words of an alternative.
-/

namespace TopDown.Text

/-! ### Blanks -/

/-- The code points with the White_Space property, as ranges with both ends
included. -/
def blankRanges : List (Nat × Nat) :=
  [(0x9, 0xD), (0x20, 0x20), (0x85, 0x85), (0xA0, 0xA0), (0x1680, 0x1680),
    (0x2000, 0x200A), (0x2028, 0x2029), (0x202F, 0x202F), (0x205F, 0x205F),
    (0x3000, 0x3000)]

/-- Whether a character is white space. -/
def isBlank (c : Char) : Bool :=
  blankRanges.any fun r => decide (r.1 ≤ c.toNat ∧ c.toNat ≤ r.2)

/-- The text without the blanks before and after it. -/
def trim (cs : List Char) : List Char :=
  ((cs.dropWhile isBlank).reverse.dropWhile isBlank).reverse

/-! ### Words -/

/-- The glyphs that are words by themselves. -/
def operators : List Char := ['+', '-', '*', '/', '(', ')', ';']

/-- Whether a character is a word by itself. -/
def isOperator (c : Char) : Bool := operators.contains c

/-- The word read so far, if it has any character. -/
def wordOf (word : List Char) : List (List Char) :=
  if word.isEmpty then [] else [word]

/-- The words of a text of which `word` has been read. -/
def scanWords (word : List Char) : List Char → List (List Char)
  | [] => wordOf word
  | c :: cs =>
      if isBlank c then wordOf word ++ scanWords [] cs
      else if isOperator c then wordOf word ++ [c] :: scanWords [] cs
      else if c.isUpper then wordOf word ++ scanWords [c] cs
      else scanWords (word ++ [c]) cs

/-- The words of an alternative, in order. -/
def words (cs : List Char) : List (List Char) := scanWords [] cs

end TopDown.Text
