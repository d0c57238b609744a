import TopDown.FormatError
import TopDown.Grammar.Draft
import TopDown.SymbolSet

/-!
Context-free grammars.

A grammar is a draft in which something is declared. Its first declared
nonterminal is the start symbol, and its terminals are the named symbols that
are never declared, wherever they are mentioned.

* `Grammar`, `Grammar.start`, `Grammar.isTerminal`.
* `Grammar.terminalSet`: the terminals as a set of marks, which agrees with
  `Grammar.isTerminal` and `Grammar.terminals`.
* `Grammar.ofDeclarations`: the grammar of a list of declarations, which fails
  only when the list is empty.
* `Grammar.productions`: the rules of one nonterminal with their places.
-/

namespace TopDown

/-- A context-free grammar with a start symbol. -/
@[ext] structure Grammar extends Draft where
  /-- Something is declared. -/
  declared : nonterminals ≠ []
deriving DecidableEq

namespace Grammar

/-- The start symbol: the first declared nonterminal. -/
def start (g : Grammar) : Symbol := g.nonterminals.head g.declared

/-- The number of symbols in use. -/
def symbolCount (g : Grammar) : Nat := g.names.size

/-- A terminal is a named symbol that is not declared. A symbol without a name
is none. -/
def isTerminal (g : Grammar) (s : Symbol) : Bool :=
  decide (s.index < g.names.size) && decide (s ∉ g.nonterminals)

/-- The terminals, ascending. -/
def terminals (g : Grammar) : List Symbol :=
  ((List.range g.names.size).map Symbol.ofNat).filter g.isTerminal

/-- The terminals as marks: all symbols in use are marked, and then the marks of
the nonterminals are taken away. -/
def terminalSet (g : Grammar) : SymbolSet :=
  (SymbolSet.without? g.symbolCount g.nonterminals).get <| by
    obtain ⟨t, ht, _⟩ := SymbolSet.exists_without? g.nonterminals_lt
    exact Option.isSome_of_mem ht

/-- Whether a name can only be a terminal. A name that is not in use is not
declared, so it can. -/
def isTerminalName (g : Grammar) (name : String) : Bool :=
  match g.names.find? name with
  | some s => g.isTerminal s
  | none => true

/-- The rule at a place. -/
def rule? (g : Grammar) (id : RuleId) : Option Rule := g.rules[id]?

/-- The rules with their places, in order. -/
def numberedRules (g : Grammar) : List (RuleId × Rule) :=
  g.rules.zipIdx.map fun (r, id) => (id, r)

/-- The rules of a nonterminal with their places, in order. -/
def productions (g : Grammar) (lhs : Symbol) : List (RuleId × Rule) :=
  g.numberedRules.filter fun p => decide (p.2.lhs = lhs)

/-- A terminal is a named symbol that is not declared. -/
theorem isTerminal_iff {g : Grammar} {s : Symbol} :
    g.isTerminal s = true ↔ s.index < g.names.size ∧ s ∉ g.nonterminals := by
  simp [isTerminal]

/-- There is a mark for every symbol in use, and the terminals are marked. -/
theorem marks_terminalSet (g : Grammar) :
    g.terminalSet.bound = g.names.size ∧ g.terminalSet.contains = g.isTerminal := by
  obtain ⟨t, ht, hbound, hcontains⟩ := SymbolSet.exists_without? g.nonterminals_lt
  have hset : g.terminalSet = t := Option.get_of_mem _ ht
  rw [hset]
  exact ⟨hbound, funext hcontains⟩

/-- The marks list the terminals. -/
theorem toList_terminalSet {g : Grammar} (hsize : g.names.size ≤ UInt32.size) :
    g.terminalSet.toList = g.terminals := by
  obtain ⟨hbound, hcontains⟩ := g.marks_terminalSet
  rw [SymbolSet.toList_eq (by rwa [hbound]), hbound, hcontains, terminals]

/-- The start symbol is declared. -/
theorem start_mem (g : Grammar) : g.start ∈ g.nonterminals := List.head_mem g.declared

/-- A rule stands at a place exactly when the two are listed together. -/
theorem mem_numberedRules {g : Grammar} {id : RuleId} {r : Rule} :
    (id, r) ∈ g.numberedRules ↔ g.rule? id = some r := by
  simp only [numberedRules, rule?, List.mem_map, List.mem_zipIdx_iff_getElem?,
    Prod.exists, Prod.mk.injEq]
  exact ⟨fun ⟨_, _, h, rfl, rfl⟩ => h, fun h => ⟨r, id, h, rfl, rfl⟩⟩

theorem map_snd_numberedRules (g : Grammar) : g.numberedRules.map Prod.snd = g.rules := by
  rw [numberedRules, List.map_map]
  exact List.zipIdx_map_fst 0 g.rules

/-- The places of the rules ascend. -/
theorem numberedRules_pairwise (g : Grammar) :
    g.numberedRules.Pairwise fun p q => p.1 < q.1 := by
  have hids : g.numberedRules.map Prod.fst = List.range g.rules.length := by
    rw [numberedRules, List.map_map, List.range_eq_range']
    exact List.zipIdx_map_snd 0 g.rules
  have hlt := List.pairwise_lt_range (n := g.rules.length)
  rw [← hids, List.pairwise_map] at hlt
  exact hlt

/-- The rules of a nonterminal are those that have it as their left-hand side. -/
theorem mem_productions {g : Grammar} {s : Symbol} {id : RuleId} {r : Rule} :
    (id, r) ∈ g.productions s ↔ g.rule? id = some r ∧ r.lhs = s := by
  rw [productions, List.mem_filter, mem_numberedRules, decide_eq_true_eq]

/-! ### Building -/

/-- The grammar of a list of declarations. -/
def ofDeclarations (decls : List Declaration) : Except FormatError Grammar :=
  let d := Draft.ofDeclarations decls
  if h : d.nonterminals = [] then .error ⟨.emptyGrammar, none⟩
  else .ok { d with declared := h }

end Grammar

end TopDown
