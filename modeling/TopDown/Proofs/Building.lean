import Mathlib.Data.List.Induction
import Mathlib.Data.List.Nodup
import Mathlib.Tactic.Common
import TopDown.Grammar.Printer

/-!
What declarations make of a grammar, read by name.

Numbers are given to names in the order of first mention, so the same rules may get
different numbers in different places. What stays is what can be read by name:

* `NameTable.ruleName`, `Draft.nonterminalNames`, `Draft.ruleNames`: a rule, the declared
  names and the rules of a draft, by name; `Declaration.rules` are the rules that a
  declaration lists.
* `Draft.ruleNames_ofDeclarations`, `Draft.nonterminalNames_ofDeclarations`,
  `Draft.mem_names_ofDeclarations`: rules, nonterminals and names of a draft are those of
  its declarations, the rules one after the other and the nonterminals in the order of
  first declaration.
* `Draft.ofRules`, `Draft.ofDeclarations_eq_ofRules`: if every declaration lists an
  alternative, then the rules alone determine the draft.
-/

namespace TopDown

/-! ### Names in a table -/

namespace NameTable

variable {t : NameTable} {s : Symbol} {name : String}

/-- A rule by name. -/
def ruleName (t : NameTable) (r : Rule) : String × List String :=
  (t.nameOf r.lhs, r.rhs.map t.nameOf)

/-- A name that is in use has a symbol. -/
lemma exists_find? (h : name ∈ t.names) : ∃ s, t.find? name = some s := by
  cases hfind : t.find? name with
  | none => exact absurd h (find?_eq_none_iff.mp hfind)
  | some s => exact ⟨s, rfl⟩

/-! ### Interning -/

lemma intern_of_find? (h : t.find? name = some s) : t.intern name = (t, s) := by
  rw [intern]
  split
  · next s' h' =>
      rw [h] at h'
      cases h'
      rfl
  · next h' =>
      rw [h] at h'
      cases h'

lemma names_intern (t : NameTable) (name : String) :
    (t.intern name).1.names = if name ∈ t.names then t.names else t.names ++ [name] := by
  rw [intern]
  split
  · next h =>
      have hmem : name ∈ t.names := by
        by_contra hnot
        rw [find?_eq_none_iff.mpr hnot] at h
        cases h
      rw [if_pos hmem]
  · next h => rw [if_neg (find?_eq_none_iff.mp h)]; rfl

lemma mem_names_intern {m : String} :
    m ∈ (t.intern name).1.names ↔ m ∈ t.names ∨ m = name := by
  rw [names_intern]
  split
  · next h => exact ⟨.inl, fun h' => h'.elim id fun e => e ▸ h⟩
  · rw [List.mem_append, List.mem_singleton]

/-- An interned name is found. -/
lemma find?_intern (t : NameTable) (name : String) :
    (t.intern name).1.find? name = some (t.intern name).2 := by
  rw [intern]
  split
  · next s h => exact h
  · next h =>
      have hlast : (t.names ++ [name]).idxOf? name = some t.names.length := by
        rw [List.idxOf?_eq_some_iff]
        refine ⟨by simp, by simp, fun j hj e => find?_eq_none_iff.mp h ?_⟩
        rw [List.getElem_append_left hj] at e
        exact e ▸ List.getElem_mem hj
      rw [find?, push, hlast]
      rfl

/-- Interning a name again changes nothing. -/
lemma intern_intern (t : NameTable) (name : String) :
    (t.intern name).1.intern name = t.intern name :=
  intern_of_find? (find?_intern t name)

/-- An interned name is the name of its symbol. -/
lemma nameOf_intern (h : (t.intern name).1.size ≤ UInt32.size) :
    (t.intern name).1.nameOf (t.intern name).2 = name :=
  nameOf_of_find? h (find?_intern t name)

lemma mem_names_internAll {m : String} : ∀ {l : List String} {t : NameTable},
    m ∈ (t.internAll l).1.names ↔ m ∈ t.names ∨ m ∈ l
  | [], _ => by simp [internAll]
  | name :: l, t => by
      rw [internAll, mem_names_internAll, mem_names_intern, List.mem_cons, or_assoc]

/-- Interned names are the names of their symbols. -/
lemma map_nameOf_internAll : ∀ {l : List String} {t : NameTable},
    (t.internAll l).1.size ≤ UInt32.size →
      (t.internAll l).2.map (t.internAll l).1.nameOf = l
  | [], _, _ => rfl
  | name :: l, t, h => by
      have hle := size_le_internAll (t.intern name).1 l
      have hname : ((t.intern name).1.internAll l).1.nameOf (t.intern name).2 = name := by
        rw [nameOf_grow (names_prefix_internAll l _) (t.index_intern_lt name)]
        exact nameOf_intern (Nat.le_trans hle h)
      have hrest := map_nameOf_internAll (l := l) (t := (t.intern name).1) h
      rw [internAll, List.map_cons, hname, hrest]

end NameTable

/-! ### First occurrences -/

/-- One more member at the end of a list counts only if it is new. -/
lemma eraseDups_concat {α : Type} [DecidableEq α] (l : List α) (a : α) :
    (l ++ [a]).eraseDups = if a ∈ l then l.eraseDups else l.eraseDups ++ [a] := by
  rw [List.eraseDups_append]
  split
  · next h => simp [List.removeAll, h]
  · next h => simp [List.removeAll, h, List.eraseDups_cons]

/-- Without repetitions there is nothing to erase. -/
lemma eraseDups_of_nodup {α : Type} [DecidableEq α] {l : List α} (h : l.Nodup) :
    l.eraseDups = l := by
  induction l with
  | nil => rfl
  | cons a l ih =>
      obtain ⟨ha, hl⟩ := List.nodup_cons.mp h
      have hfilter : l.filter (fun b => !b == a) = l := by
        refine List.filter_eq_self.mpr fun b hb => ?_
        simpa using fun e : b = a => ha (e ▸ hb)
      rw [List.eraseDups_cons, hfilter, ih hl]

/-- The first member is the first to occur. -/
lemma head?_eraseDups {α : Type} [DecidableEq α] (l : List α) : l.eraseDups.head? = l.head? := by
  cases l with
  | nil => rfl
  | cons a l => rw [List.eraseDups_cons, List.head?_cons, List.head?_cons]

/-- The rules that a declaration lists, by name. -/
def Declaration.rules (decl : Declaration) : List (String × List String) :=
  decl.alternatives.map fun alternative => (decl.lhs, Draft.symbolNames alternative)

namespace Draft

variable {d : Draft}

/-! ### Reading a draft by name -/

/-- The declared nonterminals by name. -/
def nonterminalNames (d : Draft) : List String := d.nonterminals.map d.names.nameOf

/-- The rules by name. -/
def ruleNames (d : Draft) : List (String × List String) := d.rules.map d.names.ruleName

/-- The nonterminals of a draft are read in the same way in a larger table. -/
lemma map_nameOf_nonterminals {u : NameTable} (h : d.names.names <+: u.names) :
    d.nonterminals.map u.nameOf = d.nonterminalNames :=
  List.map_congr_left fun s hs => NameTable.nameOf_grow h (d.nonterminals_lt s hs)

/-- The rules of a draft are read in the same way in a larger table. -/
lemma map_nameOf_rules {u : NameTable} (h : d.names.names <+: u.names) :
    d.rules.map u.ruleName = d.ruleNames := by
  refine List.map_congr_left fun r hr => Prod.ext ?_ ?_
  · exact NameTable.nameOf_grow h (d.nonterminals_lt _ (d.lhs_mem r hr))
  · exact List.map_congr_left fun s hs => NameTable.nameOf_grow h (d.rhs_lt r hr s hs)

lemma nodup_nonterminalNames (d : Draft) : d.nonterminalNames.Nodup :=
  d.nonterminals_nodup.map_on fun s hs s' hs' =>
    NameTable.nameOf_inj (d.nonterminals_lt s hs) (d.nonterminals_lt s' hs')

/-! ### Declaring -/

lemma ruleNames_declare (d : Draft) (name : String) :
    (d.declare name).ruleNames = d.ruleNames :=
  map_nameOf_rules (d.names.names_prefix_intern name)

/-- A name that is declared goes to the end, unless it was declared before. -/
lemma nonterminalNames_declare {name : String}
    (h : (d.declare name).names.size ≤ UInt32.size) :
    (d.declare name).nonterminalNames
      = if name ∈ d.nonterminalNames then d.nonterminalNames
        else d.nonterminalNames ++ [name] := by
  have hgrow := map_nameOf_nonterminals (d := d) (d.names.names_prefix_intern name)
  have hname : (d.names.intern name).1.nameOf (d.names.intern name).2 = name :=
    NameTable.nameOf_intern h
  -- the symbol is declared exactly if its name is
  have hmem : (d.names.intern name).2 ∈ d.nonterminals ↔ name ∈ d.nonterminalNames := by
    rw [← hgrow]
    constructor
    · intro hs
      exact List.mem_map.mpr ⟨_, hs, hname⟩
    · intro hs
      obtain ⟨s, hs, e⟩ := List.mem_map.mp hs
      have hlt := Nat.lt_of_lt_of_le (d.nonterminals_lt s hs) (d.names.size_le_intern name)
      have heq := NameTable.nameOf_inj hlt (d.names.index_intern_lt name) (e.trans hname.symm)
      exact heq ▸ hs
  show (appendNew d.nonterminals (d.names.intern name).2).map (d.names.intern name).1.nameOf = _
  rw [appendNew]
  by_cases hs : (d.names.intern name).2 ∈ d.nonterminals
  · rw [if_pos hs, if_pos (hmem.mp hs), hgrow]
  · rw [if_neg hs, if_neg fun e => hs (hmem.mpr e), List.map_append, hgrow,
      List.map_singleton, hname]

/-- Declaring a name again changes nothing. -/
lemma declare_declare (d : Draft) (name : String) :
    (d.declare name).declare name = d.declare name := by
  refine Draft.ext ?_ ?_ rfl
  · simp only [declare, NameTable.intern_intern]
  · simp only [declare, NameTable.intern_intern]
    exact if_pos (mem_appendNew.mpr (.inr rfl))

lemma nonterminals_declare_ne_nil (d : Draft) (name : String) :
    (d.declare name).nonterminals ≠ [] :=
  List.ne_nil_of_mem (mem_appendNew.mpr (.inr rfl))

/-! ### Adding rules -/

variable {lhs : String} {alternative : List String}

lemma names_prefix_addRule (d : Draft) (lhs : String) (alternative : List String) :
    (d.declare lhs).names.names <+: (d.addRule lhs alternative).names.names :=
  NameTable.names_prefix_internAll ..

lemma nonterminalNames_addRule (d : Draft) (lhs : String) (alternative : List String) :
    (d.addRule lhs alternative).nonterminalNames = (d.declare lhs).nonterminalNames :=
  map_nameOf_nonterminals (d.names_prefix_addRule lhs alternative)

/-- A rule that is added is read by the names it was given. -/
lemma ruleNames_addRule (h : (d.addRule lhs alternative).names.size ≤ UInt32.size) :
    (d.addRule lhs alternative).ruleNames
      = d.ruleNames ++ [(lhs, symbolNames alternative)] := by
  have hprefix := d.names_prefix_addRule lhs alternative
  have hold := map_nameOf_rules (d := d.declare lhs) hprefix
  have hlhs : (d.addRule lhs alternative).names.nameOf (d.names.intern lhs).2 = lhs := by
    rw [NameTable.nameOf_grow hprefix (d.names.index_intern_lt lhs)]
    exact NameTable.nameOf_intern (Nat.le_trans hprefix.length_le h)
  have hrhs := NameTable.map_nameOf_internAll (l := symbolNames alternative)
    (t := (d.declare lhs).names) h
  rw [ruleNames_declare] at hold
  rw [ruleNames, addRule, List.map_append]
  exact congrArg₂ (· ++ ·) hold (congrArg₂ (fun n l => [(n, l)]) hlhs hrhs)

lemma mem_names_addRule {m : String} :
    m ∈ (d.addRule lhs alternative).names.names ↔
      m ∈ d.names.names ∨ m = lhs ∨ m ∈ symbolNames alternative := by
  rw [← or_assoc]
  exact NameTable.mem_names_internAll.trans (or_congr_left NameTable.mem_names_intern)

/-- A rule declares its left-hand side, so that it need not be declared before. -/
lemma addRule_declare (d : Draft) (lhs : String) (alternative : List String) :
    (d.declare lhs).addRule lhs alternative = d.addRule lhs alternative := by
  have hintern : (d.declare lhs).names.intern lhs = d.names.intern lhs :=
    d.names.intern_intern lhs
  refine Draft.ext ?_ ?_ ?_
  · simp only [addRule, declare_declare]
  · simp only [addRule, declare_declare]
  · simp only [addRule, declare_declare, hintern]

/-- Spellings of the empty string may be left out beforehand. -/
lemma addRule_symbolNames (d : Draft) (lhs : String) (alternative : List String) :
    d.addRule lhs (symbolNames alternative) = d.addRule lhs alternative := by
  have hidem : symbolNames (symbolNames alternative) = symbolNames alternative := by
    simp [symbolNames]
  refine Draft.ext ?_ rfl ?_
  · simp only [addRule, hidem]
  · simp only [addRule, hidem]

/-! ### Declarations -/

/-- Adds a list of rules for one left-hand side. -/
def addRules (d : Draft) (lhs : String) (alternatives : List (List String)) : Draft :=
  alternatives.foldl (fun e alternative => e.addRule lhs alternative) d

lemma names_prefix_addRules (lhs : String) : ∀ (alternatives : List (List String)) (d : Draft),
    d.names.names <+: (d.addRules lhs alternatives).names.names
  | [], _ => List.prefix_rfl
  | alternative :: alternatives, d =>
      ((d.names.names_prefix_intern lhs).trans (d.names_prefix_addRule lhs alternative)).trans
        (names_prefix_addRules lhs alternatives _)

lemma ruleNames_addRules : ∀ {alternatives : List (List String)} {d : Draft},
    (d.addRules lhs alternatives).names.size ≤ UInt32.size →
      (d.addRules lhs alternatives).ruleNames
        = d.ruleNames ++ (Declaration.mk lhs alternatives).rules
  | [], _, _ => (List.append_nil _).symm
  | alternative :: alternatives, d, h => by
      have hle := (names_prefix_addRules lhs alternatives (d.addRule lhs alternative)).length_le
      have hrest := ruleNames_addRules (d := d.addRule lhs alternative) h
      rw [ruleNames_addRule (Nat.le_trans hle h), List.append_assoc] at hrest
      exact hrest

/-- A name that is declared stays where it is. -/
lemma nonterminalNames_addRules : ∀ {alternatives : List (List String)} {d : Draft},
    (d.addRules lhs alternatives).names.size ≤ UInt32.size → lhs ∈ d.nonterminalNames →
      (d.addRules lhs alternatives).nonterminalNames = d.nonterminalNames
  | [], _, _, _ => rfl
  | alternative :: alternatives, d, h, hlhs => by
      have hprefix := names_prefix_addRules lhs alternatives (d.addRule lhs alternative)
      have hle := ((d.names_prefix_addRule lhs alternative).trans hprefix).length_le
      have hfirst : (d.addRule lhs alternative).nonterminalNames = d.nonterminalNames := by
        rw [nonterminalNames_addRule, nonterminalNames_declare (Nat.le_trans hle h), if_pos hlhs]
      have hrest := nonterminalNames_addRules (d := d.addRule lhs alternative) h (hfirst ▸ hlhs)
      exact hrest.trans hfirst

lemma mem_names_addRules {m : String} : ∀ {alternatives : List (List String)} {d : Draft},
    lhs ∈ d.names.names →
      (m ∈ (d.addRules lhs alternatives).names.names ↔
        m ∈ d.names.names ∨ ∃ alternative ∈ alternatives, m ∈ symbolNames alternative)
  | [], _, _ => by simp [addRules]
  | alternative :: alternatives, d, h => by
      have hlhs' : lhs ∈ (d.addRule lhs alternative).names.names :=
        mem_names_addRule.mpr (.inl h)
      have hrest : m ∈ ((d.addRule lhs alternative).addRules lhs alternatives).names.names ↔ _ :=
        mem_names_addRules hlhs'
      rw [mem_names_addRule] at hrest
      have hlhs : m = lhs → m ∈ d.names.names := fun e => e ▸ h
      refine hrest.trans ?_
      rw [List.exists_mem_cons_iff]
      tauto

lemma nonterminals_addRules_ne_nil : ∀ {alternatives : List (List String)} {d : Draft},
    d.nonterminals ≠ [] → (d.addRules lhs alternatives).nonterminals ≠ []
  | [], _, h => h
  | alternative :: _, d, _ =>
      nonterminals_addRules_ne_nil (d := d.addRule lhs alternative)
        (d.nonterminals_declare_ne_nil lhs)

variable {decl : Declaration} {decls : List Declaration}

lemma names_prefix_add (d : Draft) (decl : Declaration) :
    (d.declare decl.lhs).names.names <+: (d.add decl).names.names :=
  names_prefix_addRules ..

/-- A declaration adds its rules in order. -/
lemma ruleNames_add (h : (d.add decl).names.size ≤ UInt32.size) :
    (d.add decl).ruleNames = d.ruleNames ++ decl.rules := by
  have hrules := ruleNames_addRules (d := d.declare decl.lhs) h
  rwa [ruleNames_declare] at hrules

/-- A declaration adds its left-hand side to the nonterminals, if it is new. -/
lemma nonterminalNames_add (h : (d.add decl).names.size ≤ UInt32.size) :
    (d.add decl).nonterminalNames
      = if decl.lhs ∈ d.nonterminalNames then d.nonterminalNames
        else d.nonterminalNames ++ [decl.lhs] := by
  have hsize : (d.declare decl.lhs).names.size ≤ UInt32.size :=
    Nat.le_trans (d.names_prefix_add decl).length_le h
  have hdeclare := nonterminalNames_declare hsize
  have hlhs : decl.lhs ∈ (d.declare decl.lhs).nonterminalNames := by
    rw [hdeclare]
    split
    · next hmem => exact hmem
    · simp
  rw [← hdeclare]
  exact nonterminalNames_addRules h hlhs

lemma mem_names_add {m : String} :
    m ∈ (d.add decl).names.names ↔
      m ∈ d.names.names ∨ m = decl.lhs
        ∨ ∃ alternative ∈ decl.alternatives, m ∈ symbolNames alternative := by
  have hlhs : decl.lhs ∈ (d.declare decl.lhs).names.names :=
    NameTable.mem_names_intern.mpr (.inr rfl)
  rw [← or_assoc]
  exact (mem_names_addRules hlhs).trans (or_congr_left NameTable.mem_names_intern)

lemma ofDeclarations_concat (decls : List Declaration) (decl : Declaration) :
    ofDeclarations (decls ++ [decl]) = (ofDeclarations decls).add decl := by
  rw [ofDeclarations, List.foldl_append]
  rfl

lemma size_le_of_concat
    (h : (ofDeclarations (decls ++ [decl])).names.size ≤ UInt32.size) :
    (ofDeclarations decls).names.size ≤ UInt32.size := by
  rw [ofDeclarations_concat] at h
  have hprefix := ((ofDeclarations decls).names.names_prefix_intern decl.lhs).trans
    ((ofDeclarations decls).names_prefix_add decl)
  exact Nat.le_trans hprefix.length_le h

/-- **The rules of a draft are those of its declarations**, one after the other. -/
theorem ruleNames_ofDeclarations (h : (ofDeclarations decls).names.size ≤ UInt32.size) :
    (ofDeclarations decls).ruleNames = decls.flatMap Declaration.rules := by
  induction decls using List.reverseRecOn with
  | nil => rfl
  | append_singleton decls decl ih =>
      rw [List.flatMap_append, ← ih (size_le_of_concat h), List.flatMap_singleton]
      rw [ofDeclarations_concat] at h ⊢
      exact ruleNames_add h

/-- **The nonterminals of a draft** are the declared names in the order of first
declaration. -/
theorem nonterminalNames_ofDeclarations
    (h : (ofDeclarations decls).names.size ≤ UInt32.size) :
    (ofDeclarations decls).nonterminalNames = (decls.map Declaration.lhs).eraseDups := by
  induction decls using List.reverseRecOn with
  | nil => rfl
  | append_singleton decls decl ih =>
      have ih := ih (size_le_of_concat h)
      rw [ofDeclarations_concat] at h ⊢
      rw [nonterminalNames_add h, ih, List.map_append, List.map_singleton, eraseDups_concat]
      simp only [List.mem_eraseDups]

/-- **The names of a draft** are the declared names and those that alternatives
mention. -/
theorem mem_names_ofDeclarations {m : String} :
    m ∈ (ofDeclarations decls).names.names ↔
      ∃ decl ∈ decls, m = decl.lhs
        ∨ ∃ alternative ∈ decl.alternatives, m ∈ symbolNames alternative := by
  induction decls using List.reverseRecOn with
  | nil => simp [ofDeclarations, empty, EmptyCollection.emptyCollection]
  | append_singleton decls decl ih =>
      rw [ofDeclarations_concat, mem_names_add, ih]
      simp [List.mem_append, or_and_right, exists_or]

lemma nonterminals_ofDeclarations_ne_nil (h : decls ≠ []) :
    (ofDeclarations decls).nonterminals ≠ [] := by
  cases decls using List.reverseRecOn with
  | nil => exact absurd rfl h
  | append_singleton decls decl _ =>
      rw [ofDeclarations_concat]
      exact nonterminals_addRules_ne_nil (nonterminals_declare_ne_nil _ _)

/-! ### Drafts made from rules alone -/

/-- The draft that a list of rules makes, each of which declares its left-hand side. -/
def ofRules (rules : List (String × List String)) : Draft :=
  rules.foldl (fun d p => d.addRule p.1 p.2) empty

/-- A declaration with alternatives is taken in rule by rule. -/
lemma add_eq_foldl (h : decl.alternatives ≠ []) :
    d.add decl = decl.rules.foldl (fun e p => e.addRule p.1 p.2) d := by
  have hrules : ∀ (alternatives : List (List String)) (e : Draft),
      e.addRules decl.lhs alternatives
        = (Declaration.mk decl.lhs alternatives).rules.foldl (fun e p => e.addRule p.1 p.2) e := by
    intro alternatives e
    rw [Declaration.rules, List.foldl_map]
    simp only [addRule_symbolNames]
    rfl
  rw [← hrules decl.alternatives d]
  obtain ⟨alternative, alternatives, halts⟩ := List.exists_cons_of_ne_nil h
  show (d.declare decl.lhs).addRules decl.lhs decl.alternatives = _
  rw [halts, addRules, List.foldl_cons, addRule_declare]
  rfl

/-- **The rules alone determine the draft**, if every declaration lists an
alternative. -/
theorem ofDeclarations_eq_ofRules (h : ∀ decl ∈ decls, decl.alternatives ≠ []) :
    ofDeclarations decls = ofRules (decls.flatMap Declaration.rules) := by
  rw [ofRules, List.foldl_flatMap, ofDeclarations]
  exact List.foldl_ext _ _ _ fun d decl hdecl => add_eq_foldl (h decl hdecl)

end Draft

namespace Grammar

variable {decls : List Declaration} {g : Grammar}

/-- A grammar is made from declarations exactly if it is the draft that they make. -/
lemma ofDeclarations_eq_ok_iff :
    Grammar.ofDeclarations decls = .ok g ↔ g.toDraft = Draft.ofDeclarations decls := by
  rw [ofDeclarations]
  split
  · next hnil =>
      have hempty : g.toDraft ≠ Draft.ofDeclarations decls := by
        intro h
        exact g.declared (by rw [h, hnil])
      simp [hempty]
  · constructor
    · intro h
      cases h
      rfl
    · intro h
      exact congrArg Except.ok (Grammar.ext (congrArg Draft.names h.symm)
        (congrArg Draft.nonterminals h.symm) (congrArg Draft.rules h.symm))

/-- The rules of a grammar are those of its declarations. -/
lemma ruleNames_of_ofDeclarations (h : Grammar.ofDeclarations decls = .ok g)
    (hsize : g.names.size ≤ UInt32.size) : g.ruleNames = decls.flatMap Declaration.rules := by
  rw [ofDeclarations_eq_ok_iff.mp h] at hsize ⊢
  exact Draft.ruleNames_ofDeclarations hsize

/-- The nonterminals of a grammar are those of its declarations. -/
lemma nonterminalNames_of_ofDeclarations (h : Grammar.ofDeclarations decls = .ok g)
    (hsize : g.names.size ≤ UInt32.size) :
    g.nonterminalNames = (decls.map Declaration.lhs).eraseDups := by
  rw [ofDeclarations_eq_ok_iff.mp h] at hsize ⊢
  exact Draft.nonterminalNames_ofDeclarations hsize

end Grammar

end TopDown
