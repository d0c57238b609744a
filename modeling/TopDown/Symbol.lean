import TopDown.OrderedSet

/-!
Grammar symbols and lookaheads.

A symbol is the number of a name. The names themselves are kept beside the
grammar, so that equal symbols are equal numbers and symbols are ordered by
number, not by spelling.

* `Symbol`: a 32-bit number; `Symbol.ofNat` reduces a larger number to its
  remainder modulo `2 ^ 32` (`Symbol.index_ofNat`).
* `Lookahead`: a symbol or none, where none is the empty string among the
  starts of a string, and the end of the input among the symbols that follow.
* The spellings of the empty string and of the end of the input.
-/

namespace TopDown

/-- A grammar symbol: the number of its name. -/
structure Symbol where
  /-- The number. -/
  id : UInt32
deriving DecidableEq, Inhabited

namespace Symbol

/-- The number of a symbol as a natural number. -/
def index (s : Symbol) : Nat := s.id.toNat

/-- The symbol with a given number, taken modulo `2 ^ 32`. -/
def ofNat (n : Nat) : Symbol := ⟨UInt32.ofNat n⟩

theorem index_ofNat (n : Nat) : (ofNat n).index = n % UInt32.size :=
  UInt32.toNat_ofNat

theorem index_ofNat_le (n : Nat) : (ofNat n).index ≤ n := by
  rw [index_ofNat]
  exact Nat.mod_le ..

theorem index_ofNat_of_lt {n : Nat} (h : n < UInt32.size) : (ofNat n).index = n := by
  rw [index_ofNat, Nat.mod_eq_of_lt h]

theorem index_lt (s : Symbol) : s.index < UInt32.size := s.id.toNat_lt

theorem index_inj {s t : Symbol} (h : s.index = t.index) : s = t := by
  cases s; cases t
  exact congrArg Symbol.mk (UInt32.toNat_inj.1 h)

@[simp] theorem ofNat_index (s : Symbol) : ofNat s.index = s :=
  index_inj (index_ofNat_of_lt s.index_lt)

/-- Symbols are listed by number. -/
instance : Ranked Symbol where
  rank := index
  rank_inj := index_inj

end Symbol

/-- What a prediction looks at: a symbol, or none. Among the starts of a
string none is the empty string; among the symbols that may follow, and in
the columns of a table, none is the end of the input. -/
abbrev Lookahead := Option Symbol

/-- A set of lookaheads, none first and then the symbols by number. -/
abbrev LookaheadSet := OrderedSet Lookahead

/-- The spelling in which the empty string is written. -/
def epsilon : String := "ε"

/-- The spellings in which the empty string may be read. -/
def epsilonSpellings : List String := [epsilon, "ϵ"]

/-- Whether a name spells the empty string. -/
def isEpsilon (name : String) : Bool := epsilonSpellings.contains name

/-- The spelling of the end of the input. -/
def endMarker : String := "$"

/-- What is written for a symbol that has no name. -/
def unnamed : String := "?"

end TopDown
