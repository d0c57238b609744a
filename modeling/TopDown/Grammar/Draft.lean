import TopDown.NameTable

/-!
Rules, and drafts: grammars in the making.

A declaration names a left-hand side and lists its alternatives by name.
Declarations are taken in one after the other; names get their numbers in the
order of their first mention, a left-hand side before its alternatives.

* `Rule`: a left-hand side and the string of symbols that may replace it;
  `RuleId` is its place among the rules of a grammar.
* `Declaration`: a left-hand side with its alternatives.
* `Draft`: names, declared nonterminals and rules so far. Its fields keep that
  every rule belongs to a declared nonterminal and speaks of named symbols only.
* `Draft.declare`, `Draft.addRule`, `Draft.add`: declaring a nonterminal, adding
  one rule, taking in a declaration.
-/

namespace TopDown

/-- The place of a rule in its grammar, in the order of declaration. -/
abbrev RuleId := Nat

/-- A production rule. -/
structure Rule where
  /-- The symbol that is replaced. -/
  lhs : Symbol
  /-- The string that replaces it. -/
  rhs : List Symbol
deriving DecidableEq

/-- Whether the rule replaces its left-hand side by the empty string. -/
def Rule.isEpsilon (r : Rule) : Bool := r.rhs.isEmpty

/-- A left-hand side and its alternatives, each a list of names. -/
structure Declaration where
  /-- The name that is declared. -/
  lhs : String
  /-- The alternatives, in order. -/
  alternatives : List (List String)
deriving DecidableEq

/-- A grammar in the making. -/
@[ext] structure Draft where
  /-- The names of the symbols. -/
  names : NameTable
  /-- The declared left-hand sides, in the order of first declaration. -/
  nonterminals : List Symbol
  /-- The rules, in the order of declaration. -/
  rules : List Rule
  /-- A nonterminal is listed once. -/
  nonterminals_nodup : nonterminals.Nodup
  /-- Every nonterminal has a name. -/
  nonterminals_lt : ∀ s ∈ nonterminals, s.index < names.size
  /-- Every rule belongs to a declared nonterminal. -/
  lhs_mem : ∀ r ∈ rules, r.lhs ∈ nonterminals
  /-- Every symbol of a right-hand side has a name. -/
  rhs_lt : ∀ r ∈ rules, ∀ s ∈ r.rhs, s.index < names.size
deriving DecidableEq

namespace Draft

/-- The draft in which nothing is declared. -/
def empty : Draft where
  names := ∅
  nonterminals := []
  rules := []
  nonterminals_nodup := .nil
  nonterminals_lt := by simp
  lhs_mem := by simp
  rhs_lt := by simp

instance : Inhabited Draft := ⟨empty⟩

/-- Puts a symbol at the end of a list unless it is in it. -/
def appendNew (l : List Symbol) (s : Symbol) : List Symbol :=
  if s ∈ l then l else l ++ [s]

@[simp] theorem mem_appendNew {l : List Symbol} {s c : Symbol} :
    c ∈ appendNew l s ↔ c ∈ l ∨ c = s := by
  rw [appendNew]
  split
  · next h => exact ⟨.inl, fun h' => h'.elim id fun e => e ▸ h⟩
  · simp

theorem nodup_appendNew {l : List Symbol} {s : Symbol} (h : l.Nodup) :
    (appendNew l s).Nodup := by
  rw [appendNew]
  split
  · exact h
  · next hs =>
      refine List.nodup_append.2 ⟨h, by simp, fun a ha b hb e => ?_⟩
      rw [List.mem_singleton] at hb
      exact hs (hb ▸ e ▸ ha)

/-- Declares a name as a left-hand side. A name declared before keeps its
place. -/
def declare (d : Draft) (name : String) : Draft where
  names := (d.names.intern name).1
  nonterminals := appendNew d.nonterminals (d.names.intern name).2
  rules := d.rules
  nonterminals_nodup := nodup_appendNew d.nonterminals_nodup
  nonterminals_lt := fun s hs => by
    rcases mem_appendNew.1 hs with h | rfl
    · exact Nat.lt_of_lt_of_le (d.nonterminals_lt s h) (d.names.size_le_intern name)
    · exact d.names.index_intern_lt name
  lhs_mem := fun r hr => mem_appendNew.2 (.inl (d.lhs_mem r hr))
  rhs_lt := fun r hr s hs =>
    Nat.lt_of_lt_of_le (d.rhs_lt r hr s hs) (d.names.size_le_intern name)

/-- The names of an alternative that stand for symbols: all but the spellings
of the empty string. -/
def symbolNames (alternative : List String) : List String :=
  alternative.filter fun name => !isEpsilon name

/-- Adds a rule for a name, which is declared with it. -/
def addRule (d : Draft) (lhs : String) (alternative : List String) : Draft :=
  let e := d.declare lhs
  let interned := e.names.internAll (symbolNames alternative)
  { names := interned.1
    nonterminals := e.nonterminals
    rules := e.rules ++ [⟨(d.names.intern lhs).2, interned.2⟩]
    nonterminals_nodup := e.nonterminals_nodup
    nonterminals_lt := fun s hs =>
      Nat.lt_of_lt_of_le (e.nonterminals_lt s hs) (e.names.size_le_internAll _)
    lhs_mem := fun r hr => by
      rcases List.mem_append.1 hr with h | h
      · exact e.lhs_mem r h
      · rw [List.mem_singleton.1 h]
        exact mem_appendNew.2 (.inr rfl)
    rhs_lt := fun r hr s hs => by
      rcases List.mem_append.1 hr with h | h
      · exact Nat.lt_of_lt_of_le (e.rhs_lt r h s hs) (e.names.size_le_internAll _)
      · rw [List.mem_singleton.1 h] at hs
        exact NameTable.index_internAll_lt _ _ s hs }

/-- Takes in a declaration: its left-hand side, then its alternatives in
order. -/
def add (d : Draft) (decl : Declaration) : Draft :=
  decl.alternatives.foldl (fun e alternative => e.addRule decl.lhs alternative)
    (d.declare decl.lhs)

/-- Takes in a list of declarations in order. -/
def ofDeclarations (decls : List Declaration) : Draft := decls.foldl add empty

end Draft

end TopDown
