import TopDown.Parse.Machine
import TopDown.Table.Classes

/-!
The written form of the small values: symbols, rules, steps, conflicts and
classes as data trees.

* `Datum`: a data tree.
* `toDatum`, `ofDatum?`: writing a value and reading it, for each of the types.
  A record is written with its fields by name and may also be read from the
  list of its fields; fields that a record does not have are passed over.
* `Symbol.ofDatum?_toDatum`, `Rule.ofDatum?_toDatum`, `Step.ofDatum?_toDatum`,
  `Conflict.ofDatum?_toDatum`, `NonterminalClass.ofDatum?_toDatum`: what was
  written is read back.
-/

namespace TopDown

/-- A data tree. -/
inductive Datum where
  /-- The absent value. -/
  | null
  /-- A truth value. -/
  | bool (b : Bool)
  /-- The number `mantissa / 10 ^ exponent`. -/
  | number (mantissa : Int) (exponent : Nat)
  /-- A text. -/
  | text (s : String)
  /-- A list. -/
  | list (items : List Datum)
  /-- A record with named fields. -/
  | record (fields : List (String × Datum))
deriving Inhabited

namespace Datum

/-- A natural number. -/
def ofNat (n : Nat) : Datum := .number n 0

/-- A natural number below a bound. -/
def natBelow? (bound : Nat) : Datum → Option Nat
  | .number (.ofNat n) 0 => if n < bound then some n else none
  | _ => none

theorem natBelow?_ofNat {bound n : Nat} (h : n < bound) :
    natBelow? bound (ofNat n) = some n := if_pos h

/-- A field of a record by name. -/
def field? (fields : List (String × Datum)) (name : String) : Option Datum :=
  (fields.find? fun f => f.1 == name).map Prod.snd

/-- A list, item by item. -/
def listOf? {α : Type} (item? : Datum → Option α) : Datum → Option (List α)
  | .list items => items.mapM item?
  | _ => none

/-- An optional value: null is read as the absent one. -/
def optional? {α : Type} (value? : Datum → Option α) : Datum → Option (Option α)
  | .null => some none
  | d => (value? d).map some

end Datum

/-! ### Symbols -/

/-- A symbol is written as its number. -/
def Symbol.toDatum (s : Symbol) : Datum := .ofNat s.index

/-- A symbol is read from a number below `2 ^ 32`. -/
def Symbol.ofDatum? (d : Datum) : Option Symbol := (d.natBelow? UInt32.size).map Symbol.ofNat

@[simp] theorem Symbol.ofDatum?_toDatum (s : Symbol) : ofDatum? s.toDatum = some s := by
  rw [ofDatum?, toDatum, Datum.natBelow?_ofNat s.index_lt, Option.map_some, ofNat_index]

/-- A written list of symbols is read back. -/
@[simp] theorem Symbol.listOf?_toDatum (l : List Symbol) :
    Datum.listOf? ofDatum? (.list (l.map toDatum)) = some l := by
  induction l with
  | nil => rfl
  | cons s l ih =>
      simp only [Datum.listOf?, List.map_cons, List.mapM_cons, ofDatum?_toDatum] at ih ⊢
      rw [ih]
      rfl

/-- A lookahead is written as its symbol or as null. -/
def Lookahead.toDatum : Lookahead → Datum
  | some s => s.toDatum
  | none => .null

@[simp] theorem Lookahead.optional?_toDatum (a : Lookahead) :
    Datum.optional? Symbol.ofDatum? (Lookahead.toDatum a) = some a := by
  cases a with
  | none => rfl
  | some s =>
      show (Symbol.ofDatum? s.toDatum).map some = some (some s)
      simp

/-! ### Rule places -/

/-- A place is read from a number below `2 ^ 64`. -/
def RuleId.ofDatum? (d : Datum) : Option RuleId := d.natBelow? UInt64.size

/-- A written place below `2 ^ 64` is read back. -/
theorem RuleId.ofDatum?_ofNat {id : RuleId} (h : id < UInt64.size) :
    RuleId.ofDatum? (.ofNat id) = some id := Datum.natBelow?_ofNat h

/-! ### Rules -/

/-- A rule is written as a record. -/
def Rule.toDatum (r : Rule) : Datum :=
  .record [("lhs", r.lhs.toDatum), ("rhs", .list (r.rhs.map Symbol.toDatum))]

/-- The rule with the given fields. -/
def Rule.ofFields? (lhs rhs : Datum) : Option Rule := do
  return ⟨← Symbol.ofDatum? lhs, ← rhs.listOf? Symbol.ofDatum?⟩

/-- A rule is read from a record or from the list of its two fields. -/
def Rule.ofDatum? : Datum → Option Rule
  | .record fields => do
      Rule.ofFields? (← Datum.field? fields "lhs") (← Datum.field? fields "rhs")
  | .list [lhs, rhs] => Rule.ofFields? lhs rhs
  | _ => none

/-- A written rule is read back. -/
theorem Rule.ofDatum?_toDatum (r : Rule) : ofDatum? r.toDatum = some r := by
  simp [ofDatum?, toDatum, ofFields?, Datum.field?]

/-! ### Steps -/

/-- A step is written as a record whose one field says which it is. -/
def Step.toDatum : Step → Datum
  | .consume s => .record [("Match", s.toDatum)]
  | .expand id => .record [("Derive", .ofNat id)]

/-- A step is read from a record with one field. -/
def Step.ofDatum? : Datum → Option Step
  | .record [(name, d)] =>
      if name = "Match" then (Symbol.ofDatum? d).map .consume
      else if name = "Derive" then (RuleId.ofDatum? d).map .expand
      else none
  | _ => none

/-- A written step is read back, if its place is below `2 ^ 64`. -/
theorem Step.ofDatum?_toDatum (s : Step) (h : ∀ id, s = .expand id → id < UInt64.size) :
    ofDatum? s.toDatum = some s := by
  cases s with
  | consume s => simp [ofDatum?, toDatum]
  | expand id => simp [ofDatum?, toDatum, RuleId.ofDatum?_ofNat (h id rfl)]

/-! ### Conflicts -/

/-- A conflict is written as a record. -/
def Conflict.toDatum (c : Conflict) : Datum :=
  .record [("nonterminal", c.nonterminal.toDatum), ("terminal", c.lookahead.toDatum),
    ("discarded", .ofNat c.discarded), ("kept", .ofNat c.kept)]

/-- The conflict with the given fields. -/
def Conflict.ofFields? (nonterminal lookahead discarded kept : Datum) :
    Option Conflict := do
  return ⟨← Symbol.ofDatum? nonterminal, ← lookahead.optional? Symbol.ofDatum?,
    ← RuleId.ofDatum? discarded, ← RuleId.ofDatum? kept⟩

/-- A conflict is read from a record, in which the column may be left out, or
from the list of its four fields. -/
def Conflict.ofDatum? : Datum → Option Conflict
  | .record fields => do
      Conflict.ofFields? (← Datum.field? fields "nonterminal")
        ((Datum.field? fields "terminal").getD .null)
        (← Datum.field? fields "discarded") (← Datum.field? fields "kept")
  | .list [nonterminal, lookahead, discarded, kept] =>
      Conflict.ofFields? nonterminal lookahead discarded kept
  | _ => none

/-- A written conflict is read back, if its places are below `2 ^ 64`. -/
theorem Conflict.ofDatum?_toDatum (c : Conflict) (hd : c.discarded < UInt64.size)
    (hk : c.kept < UInt64.size) : ofDatum? c.toDatum = some c := by
  simp [ofDatum?, toDatum, ofFields?, Datum.field?, RuleId.ofDatum?_ofNat hd,
    RuleId.ofDatum?_ofNat hk]

/-! ### Classes -/

/-- The name of a class. -/
def NonterminalClass.name : NonterminalClass → String
  | .ll1 => "Ll1"
  | .contextFree => "ContextFree"

/-- The class with a given name. -/
def NonterminalClass.ofName? (name : String) : Option NonterminalClass :=
  if name = "Ll1" then some .ll1
  else if name = "ContextFree" then some .contextFree
  else none

/-- A class is written as its name. -/
def NonterminalClass.toDatum (c : NonterminalClass) : Datum := .text c.name

/-- A class is read from its name, or from a record with an empty field of that
name. -/
def NonterminalClass.ofDatum? : Datum → Option NonterminalClass
  | .text name => ofName? name
  | .record [(name, .null)] => ofName? name
  | _ => none

/-- A written class is read back. -/
theorem NonterminalClass.ofDatum?_toDatum (c : NonterminalClass) :
    ofDatum? c.toDatum = some c := by
  cases c <;> decide

end TopDown
