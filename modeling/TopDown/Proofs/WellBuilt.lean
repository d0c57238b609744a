import TopDown.Proofs.RoundTrip

/-!
What holds of every grammar that is built from declarations or loaded from text.

* `Declaration.mentions`, `Declaration.firstMentions`: the names that a declaration
  mentions, its left-hand side first, and the names of a list of declarations in the order
  of first mention.
* `NameTable.names_internAll`, `Draft.names_addRules`, `Draft.names_ofDeclarations`:
  interning a name, taking in the alternatives of a declaration, and taking in
  declarations all keep the names in this order.
* `Draft.rhsNames_declarations`: the alternatives that declarations list for one name, one
  declaration after the other.
* `Grammar.mem_nonterminals_iff`, `Grammar.declared_or_mem_rhs`: a symbol is declared if a
  left-hand side has it, and otherwise it stands on a right-hand side.
* `Grammar.mem_terminals`, `Grammar.terminals_ascending`: the terminals as a list.
* `Grammar.WellBuilt`, `Grammar.wellBuilt_of_ofDeclarations`: what the numbers, the names,
  the two kinds of symbols and the rules of a grammar are, given its declarations.
* `Grammar.wellBuilt_of_accepted`: so it is whether these are given or read from text.
-/

namespace TopDown

namespace Declaration

/-- The names that a declaration mentions: its left-hand side, then the names of its
alternatives that stand for symbols, from left to right. -/
def mentions (decl : Declaration) : List String :=
  decl.lhs :: decl.alternatives.flatMap Draft.symbolNames

/-- The names that declarations mention, in the order of first mention. -/
def firstMentions (decls : List Declaration) : List String :=
  (decls.flatMap mentions).eraseDups

end Declaration

/-! ### The order of first mention -/

namespace NameTable

variable {t : NameTable} {mentioned : List String}

/-- A name that is interned is mentioned after the others. -/
lemma names_intern_eraseDups (h : t.names = mentioned.eraseDups) (name : String) :
    (t.intern name).1.names = (mentioned ++ [name]).eraseDups := by
  rw [names_intern, eraseDups_concat, h]
  simp only [List.mem_eraseDups]

/-- Names that are interned are mentioned one after the other. -/
lemma names_internAll (h : t.names = mentioned.eraseDups) (l : List String) :
    (t.internAll l).1.names = (mentioned ++ l).eraseDups := by
  induction l generalizing t mentioned with
  | nil => rw [List.append_nil]; exact h
  | cons name l ih =>
      have hrest := ih (names_intern_eraseDups h name)
      rw [List.append_assoc, List.singleton_append] at hrest
      exact hrest

end NameTable

namespace Draft

variable {d : Draft} {mentioned : List String} {lhs : String}

/-- A rule mentions its alternative, if its left-hand side was mentioned before. -/
lemma names_addRule (h : d.names.names = mentioned.eraseDups) (hlhs : lhs ∈ mentioned)
    (alternative : List String) :
    (d.addRule lhs alternative).names.names
      = (mentioned ++ symbolNames alternative).eraseDups := by
  refine NameTable.names_internAll ?_ _
  have hintern := NameTable.names_intern_eraseDups h lhs
  rwa [eraseDups_concat, if_pos hlhs] at hintern

/-- Rules mention their alternatives one after the other. -/
lemma names_addRules (h : d.names.names = mentioned.eraseDups) (hlhs : lhs ∈ mentioned)
    (alternatives : List (List String)) :
    (d.addRules lhs alternatives).names.names
      = (mentioned ++ alternatives.flatMap symbolNames).eraseDups := by
  induction alternatives generalizing d mentioned with
  | nil => rw [List.flatMap_nil, List.append_nil]; exact h
  | cons alternative alternatives ih =>
      have hrest := ih (names_addRule h hlhs alternative) (List.mem_append_left _ hlhs)
      rw [List.append_assoc, ← List.flatMap_cons] at hrest
      exact hrest

/-- **The names of a draft stand in the order of first mention.** -/
theorem names_ofDeclarations (decls : List Declaration) :
    (ofDeclarations decls).names.names = Declaration.firstMentions decls := by
  induction decls using List.reverseRecOn with
  | nil => rfl
  | append_singleton decls decl ih =>
      have hlhs := NameTable.names_intern_eraseDups ih decl.lhs
      have hrules := names_addRules (d := (ofDeclarations decls).declare decl.lhs) hlhs
        (List.mem_append_right _ (List.mem_singleton.mpr rfl)) decl.alternatives
      rw [List.append_assoc] at hrules
      rw [ofDeclarations_concat, Declaration.firstMentions, List.flatMap_append,
        List.flatMap_singleton]
      exact hrules

/-- The right-hand sides that declarations list for a name are those of its declarations,
one after the other. -/
lemma rhsNames_declarations (decls : List Declaration) (name : String) :
    rhsNames (decls.flatMap Declaration.rules) name
      = (decls.filter fun decl => decide (decl.lhs = name)).flatMap fun decl =>
          decl.alternatives.map symbolNames := by
  induction decls with
  | nil => rfl
  | cons decl decls ih =>
      rw [List.flatMap_cons, rhsNames_append, ih]
      by_cases hname : decl.lhs = name
      · subst hname
        rw [rhsNames_rules, List.filter_cons_of_pos (by simp), List.flatMap_cons]
        rfl
      · have hnone : rhsNames decl.rules name = [] :=
          rhsNames_eq_nil (List.forall_mem_map.mpr fun _ _ => hname)
        rw [hnone, List.nil_append, List.filter_cons_of_neg (by simpa using hname)]

end Draft

namespace Grammar

variable {g : Grammar} {s : Symbol} {decls : List Declaration}

/-! ### Well-formedness -/

open Declaration in
/-- What a grammar is, given the declarations that it was made from. -/
structure WellBuilt (decls : List Declaration) (g : Grammar) : Prop where
  /-- The symbols are numbered from 0 on, ... -/
  numbers : ∀ i < g.symbolCount, (Symbol.ofNat i).index = i
  /-- ... and there are as many as names are mentioned. -/
  count : g.symbolCount = (firstMentions decls).length
  /-- The names of the symbols stand in the order of first mention. -/
  names : ∀ s, g.names.name? s = (firstMentions decls)[s.index]?
  /-- A name has a symbol exactly if the symbol has the name. -/
  found : ∀ name s, g.names.find? name = some s ↔ g.names.name? s = some name
  /-- The left-hand sides of rules are declared. -/
  lhs : ∀ r ∈ g.rules, r.lhs ∈ g.nonterminals
  /-- The symbols on right-hand sides have names. -/
  rhs : ∀ r ∈ g.rules, ∀ s ∈ r.rhs, s.index < g.symbolCount
  /-- The nonterminals are the declared names in the order of first declaration, ... -/
  nonterminals : g.nonterminals.map some
    = (decls.map Declaration.lhs).eraseDups.map g.names.find?
  /-- ... each of them once, ... -/
  nodup : g.nonterminals.Nodup
  /-- ... and the first is the start symbol. -/
  start : g.nonterminals.head? = some g.start
  /-- The terminals are the symbols that no declaration has as its left-hand side, ... -/
  terminals : ∀ s, s ∈ g.terminals ↔
    s.index < g.symbolCount ∧ ∀ decl ∈ decls, g.names.find? decl.lhs ≠ some s
  /-- ... ascending, ... -/
  ascending : g.terminals.Pairwise fun s t => s.index < t.index
  /-- ... the marked ones in the set of the terminals, ... -/
  marked : g.terminalSet.toList = g.terminals
    ∧ ∀ s, g.terminalSet.contains s = true ↔ s ∈ g.terminals
  /-- ... and each of them stands on a right-hand side. -/
  used : ∀ s ∈ g.terminals, ∃ r ∈ g.rules, s ∈ r.rhs
  /-- A spelling of the empty string has a symbol only if it is declared, and then the
  symbol stands on no right-hand side. -/
  spelling : ∀ name s, isEpsilon name = true → g.names.find? name = some s →
    (∃ decl ∈ decls, decl.lhs = name) ∧ ∀ r ∈ g.rules, s ∉ r.rhs
  /-- The rules of a nonterminal are listed with their places, ascending, ... -/
  productions : ∀ s, (g.productions s).Pairwise (fun p q => p.1 < q.1)
    ∧ ∀ id r, (id, r) ∈ g.productions s ↔ g.rule? id = some r ∧ r.lhs = s
  /-- ... and their right-hand sides are the alternatives that its declarations list, one
  declaration after the other. -/
  alternatives : ∀ s ∈ g.nonterminals, (g.productions s).map (fun p => p.2.rhs.map some)
    = (decls.filter fun decl => decide (g.names.find? decl.lhs = some s)).flatMap fun decl =>
        decl.alternatives.map fun alternative =>
          (Draft.symbolNames alternative).map g.names.find?

/-! ### Terminals -/

lemma mem_terminals : s ∈ g.terminals ↔ g.isTerminal s = true := by
  rw [terminals, List.mem_filter, and_iff_right_iff_imp]
  intro hs
  exact List.mem_map.mpr ⟨s.index, List.mem_range.mpr (isTerminal_iff.mp hs).1, s.ofNat_index⟩

lemma terminals_ascending (hsize : g.names.size ≤ UInt32.size) :
    g.terminals.Pairwise fun s t => s.index < t.index := by
  refine List.Pairwise.filter _ (List.pairwise_map.mpr ?_)
  refine List.pairwise_lt_range.imp_of_mem fun hi hj hlt => ?_
  rw [List.mem_range] at hi hj
  rwa [Symbol.index_ofNat_of_lt (by omega), Symbol.index_ofNat_of_lt (by omega)]

/-! ### Names and rules of a grammar that is built -/

/-- The names of a grammar stand in the order in which its declarations mention them. -/
lemma names_of_ofDeclarations (h : Grammar.ofDeclarations decls = .ok g) :
    g.names.names = Declaration.firstMentions decls := by
  rw [ofDeclarations_eq_ok_iff.mp h]
  exact Draft.names_ofDeclarations decls

section Built

variable (h : Grammar.ofDeclarations decls = .ok g) (hsize : g.names.size ≤ UInt32.size)

include h hsize

/-- The nonterminals of a grammar, found by the names that its declarations declare. -/
lemma map_some_nonterminals :
    g.nonterminals.map some = (decls.map Declaration.lhs).eraseDups.map g.names.find? := by
  rw [← nonterminalNames_of_ofDeclarations h hsize, Draft.nonterminalNames]
  exact (NameTable.map_find?_nameOf g.nonterminals_lt).symm

/-- A symbol is declared exactly if it is found by the left-hand side of a declaration. -/
lemma mem_nonterminals_iff :
    s ∈ g.nonterminals ↔ ∃ decl ∈ decls, g.names.find? decl.lhs = some s := by
  have hsome : s ∈ g.nonterminals ↔ some s ∈ g.nonterminals.map some := by simp
  rw [hsome, map_some_nonterminals h hsize]
  simp only [List.mem_map, List.mem_eraseDups, exists_exists_and_eq_and]

/-- A rule of a grammar comes from an alternative of a declaration. -/
lemma exists_alternative {r : Rule} (hr : r ∈ g.rules) :
    ∃ decl ∈ decls, ∃ alternative ∈ decl.alternatives,
      g.names.ruleName r = (decl.lhs, Draft.symbolNames alternative) := by
  have hmem : g.names.ruleName r ∈ g.ruleNames := List.mem_map_of_mem hr
  rw [ruleNames_of_ofDeclarations h hsize] at hmem
  obtain ⟨decl, hdecl, hrule⟩ := List.mem_flatMap.mp hmem
  obtain ⟨alternative, halt, e⟩ := List.mem_map.mp hrule
  exact ⟨decl, hdecl, alternative, halt, e.symm⟩

/-- An alternative of a declaration becomes a rule of the grammar. -/
lemma exists_rule {decl : Declaration} (hdecl : decl ∈ decls)
    {alternative : List String} (halt : alternative ∈ decl.alternatives) :
    ∃ r ∈ g.rules, g.names.ruleName r = (decl.lhs, Draft.symbolNames alternative) := by
  have hmem : (decl.lhs, Draft.symbolNames alternative) ∈ g.ruleNames := by
    rw [ruleNames_of_ofDeclarations h hsize]
    exact List.mem_flatMap.mpr ⟨decl, hdecl, List.mem_map.mpr ⟨alternative, halt, rfl⟩⟩
  exact List.mem_map.mp hmem

/-- A symbol that has a name is declared, or stands on a right-hand side. -/
lemma declared_or_mem_rhs (hs : s.index < g.names.size) :
    s ∈ g.nonterminals ∨ ∃ r ∈ g.rules, s ∈ r.rhs := by
  have hname : g.names.nameOf s ∈ (Draft.ofDeclarations decls).names.names := by
    rw [← ofDeclarations_eq_ok_iff.mp h]
    exact NameTable.nameOf_mem hs
  obtain ⟨decl, hdecl, hlhs | ⟨alternative, halt, hmem⟩⟩ :=
    Draft.mem_names_ofDeclarations.mp hname
  · refine .inl ((mem_nonterminals_iff h hsize).mpr ⟨decl, hdecl, ?_⟩)
    rw [← hlhs, NameTable.find?_nameOf hs]
  · obtain ⟨r, hr, e⟩ := exists_rule h hsize hdecl halt
    rw [← (Prod.mk.inj e).2] at hmem
    obtain ⟨s', hs', hsame⟩ := List.mem_map.mp hmem
    exact .inr ⟨r, hr, NameTable.nameOf_inj (g.rhs_lt r hr s' hs') hs hsame ▸ hs'⟩

/-- A symbol on a right-hand side does not spell the empty string. -/
lemma isEpsilon_of_mem_rhs {r : Rule} (hr : r ∈ g.rules) (hs : s ∈ r.rhs) :
    isEpsilon (g.names.nameOf s) = false := by
  obtain ⟨decl, _, alternative, _, e⟩ := exists_alternative h hsize hr
  have hmem : g.names.nameOf s ∈ Draft.symbolNames alternative := by
    rw [← (Prod.mk.inj e).2]
    exact List.mem_map_of_mem hs
  simpa using (List.mem_filter.mp hmem).2

/-- The alternatives of a nonterminal are those of its declarations, one after the other. -/
lemma map_rhs_productions (hs : s ∈ g.nonterminals) :
    (g.productions s).map (fun p => p.2.rhs.map some)
      = (decls.filter fun decl => decide (g.names.find? decl.lhs = some s)).flatMap fun decl =>
          decl.alternatives.map fun alternative =>
            (Draft.symbolNames alternative).map g.names.find? := by
  have hfilter : (decls.filter fun decl => decide (g.names.find? decl.lhs = some s))
      = decls.filter fun decl => decide (decl.lhs = g.names.nameOf s) := by
    refine List.filter_congr fun decl _ => decide_eq_decide.mpr ?_
    rw [NameTable.find?_eq_some_iff hsize, NameTable.name?_eq_nameOf (g.nonterminals_lt s hs),
      Option.some.injEq, eq_comm]
  have hrhs : (g.productions s).map (fun p => p.2.rhs.map some)
      = (g.alternatives s).map (List.map g.names.find?) := by
    rw [alternatives, List.map_map]
    refine List.map_congr_left fun p hp => ?_
    have hr : p.2 ∈ g.rules := List.mem_of_getElem? (mem_productions.mp hp).1
    exact (NameTable.map_find?_nameOf (g.rhs_lt p.2 hr)).symm
  have halts : g.alternatives s
      = (decls.filter fun decl => decide (decl.lhs = g.names.nameOf s)).flatMap fun decl =>
          decl.alternatives.map Draft.symbolNames := by
    rw [alternatives_eq hs, ruleNames_of_ofDeclarations h hsize, Draft.rhsNames_declarations]
    rfl
  rw [hrhs, halts, hfilter, List.map_flatMap]
  simp only [List.map_map, Function.comp_def]

/-- A spelling of the empty string has a symbol only as a left-hand side. -/
lemma spelling_of_ofDeclarations {name : String} (hepsilon : isEpsilon name = true)
    (hfind : g.names.find? name = some s) :
    (∃ decl ∈ decls, decl.lhs = name) ∧ ∀ r ∈ g.rules, s ∉ r.rhs := by
  have hname : g.names.name? s = some name := NameTable.name?_of_find? hsize hfind
  have hs : s.index < g.names.size := NameTable.index_lt_of_find? hfind
  have hunused : ∀ r ∈ g.rules, s ∉ r.rhs := by
    intro r hr hmem
    have hsymbol := isEpsilon_of_mem_rhs h hsize hr hmem
    rw [NameTable.name?_eq_nameOf hs, Option.some.injEq] at hname
    rw [hname, hepsilon] at hsymbol
    exact Bool.noConfusion hsymbol
  refine ⟨?_, hunused⟩
  obtain hmem | ⟨r, hr, hmem⟩ := declared_or_mem_rhs h hsize hs
  · obtain ⟨decl, hdecl, hlhs⟩ := (mem_nonterminals_iff h hsize).mp hmem
    have hsame : some decl.lhs = some name :=
      (NameTable.name?_of_find? hsize hlhs).symm.trans hname
    exact ⟨decl, hdecl, Option.some.inj hsame⟩
  · exact absurd hmem (hunused r hr)

/-- **A grammar that is built from declarations is well built.** -/
theorem wellBuilt_of_ofDeclarations : WellBuilt decls g where
  numbers := fun i hi => Symbol.index_ofNat_of_lt (Nat.lt_of_lt_of_le hi hsize)
  count := congrArg List.length (names_of_ofDeclarations h)
  names := fun s => by rw [NameTable.name?, names_of_ofDeclarations h]
  found := fun _ _ => NameTable.find?_eq_some_iff hsize
  lhs := g.lhs_mem
  rhs := g.rhs_lt
  nonterminals := map_some_nonterminals h hsize
  nodup := g.nonterminals_nodup
  start := List.head?_eq_some_head g.declared
  terminals := fun s => by
    rw [mem_terminals, isTerminal_iff, mem_nonterminals_iff h hsize]
    simp only [not_exists, not_and, symbolCount, ne_eq]
  ascending := terminals_ascending hsize
  marked := ⟨toList_terminalSet hsize, fun s => by rw [g.marks_terminalSet.2, mem_terminals]⟩
  used := fun s hs => by
    obtain ⟨hlt, hundeclared⟩ := isTerminal_iff.mp (mem_terminals.mp hs)
    exact (declared_or_mem_rhs h hsize hlt).resolve_left hundeclared
  spelling := fun _ _ => spelling_of_ofDeclarations h hsize
  productions := fun s => ⟨g.numberedRules_pairwise.filter _, fun _ _ => mem_productions⟩
  alternatives := fun _ => map_rhs_productions h hsize

end Built

/-- Every grammar that is built from declarations, and every grammar that is loaded from
text, is well built, as long as there are no more names than symbols. -/
theorem wellBuilt_of_accepted (g : Grammar) (hsize : g.names.size ≤ UInt32.size) :
    (∀ decls, Grammar.ofDeclarations decls = .ok g → WellBuilt decls g)
      ∧ ∀ text, Grammar.load text = .ok g →
          ∃ decls, Declaration.ofText text = .ok decls ∧ WellBuilt decls g := by
  have hbuilt : ∀ decls, Grammar.ofDeclarations decls = .ok g → WellBuilt decls g :=
    fun decls h => wellBuilt_of_ofDeclarations h hsize
  refine ⟨hbuilt, fun text hload => ?_⟩
  rw [Grammar.load] at hload
  cases hread : Declaration.ofText text with
  | error e => rw [hread] at hload; cases hload
  | ok decls =>
      rw [hread] at hload
      exact ⟨decls, rfl, hbuilt decls hload⟩

/-- Declarations in which a name is used before it is declared, a left-hand side is
repeated, and a spelling of the empty string is declared and used. -/
def interwoven : List Declaration :=
  [⟨"S", [["A", "ε", "b"], ["ε"]]⟩, ⟨"ε", [["c"]]⟩, ⟨"A", [["b"]]⟩, ⟨"S", [["ε", "A"]]⟩]

/-- The grammar of these declarations, which no text declares. -/
def woven : Grammar := { Draft.ofDeclarations interwoven with declared := by decide }

/-- A grammar that a text declares, whose second nonterminal is used before it is
declared. -/
def plain : Grammar :=
  { Draft.ofDeclarations [⟨"S", [["A", "b"], ["ε"]]⟩, ⟨"A", [["b"]]⟩, ⟨"S", [["ε", "A"]]⟩] with
    declared := by decide }

theorem wellBuilt_interwoven :
    (Grammar.ofDeclarations interwoven = .ok woven
      ∧ WellBuilt interwoven woven
      ∧ Declaration.firstMentions interwoven = ["S", "A", "b", "ε", "c"]
      ∧ woven.nonterminals.map woven.names.nameOf = ["S", "ε", "A"]
      ∧ woven.terminals.map woven.names.nameOf = ["b", "c"])
    ∧ Grammar.load "S -> A b | ε\nA → b\n\nS -> ε A" = .ok plain
      ∧ ∃ decls, Declaration.ofText "S -> A b | ε\nA → b\n\nS -> ε A" = .ok decls
          ∧ WellBuilt decls plain := by
  have hload : Grammar.load "S -> A b | ε\nA → b\n\nS -> ε A" = .ok plain := by
    decide +kernel
  obtain ⟨hbuilt, -⟩ := wellBuilt_of_accepted woven (by decide +kernel)
  obtain ⟨-, hloaded⟩ := wellBuilt_of_accepted plain (by decide +kernel)
  refine ⟨⟨rfl, hbuilt interwoven rfl, ?_⟩, hload, hloaded _ hload⟩
  decide +kernel

end Grammar

end TopDown
