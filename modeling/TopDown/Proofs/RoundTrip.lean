import Mathlib.Data.List.Perm.Subperm
import TopDown.Proofs.Layout

/-!
A grammar that was loaded survives being written and loaded again.

Writing gives one line for each nonterminal, so rules that were declared apart come
together, and the symbols may get new numbers. What stays is the grammar by name, and
everything if the rules stand together already.

* `Declaration.writable_of_ofLine`, `Grammar.exists_writable_of_load`: what is read can be
  written.
* `Grammar.declarations`: a grammar as declarations, one for each nonterminal;
  `Grammar.declarations_eq` says that it is determined by what is read by name.
* `Declaration.spelled`, `Declaration.render`, `Grammar.render_eq`, `Text.laid_render`: a
  grammar is written by writing its declarations, and that is a layout of them, in which
  the empty string is spelled out.
* `Grammar.declarations_ofDeclarations`: declarations of different nonterminals are the
  declarations of the grammar that they make, without the spellings of the empty string
  (`Declaration.stripped`).
* `Grammar.load_render`: the round trip; `Grammar.Grouped` is the case in which nothing
  changes.
-/

namespace TopDown

open Text

/-! ### What is read can be written -/

/-- No piece of a text holds the character at which the text was cut. -/
lemma notMem_of_mem_splitOn {a : Char} {cs piece : List Char} (h : piece ∈ cs.splitOn a) :
    a ∉ piece := by
  induction cs generalizing piece with
  | nil =>
      rw [List.splitOn_nil, List.mem_singleton] at h
      simp [h]
  | cons c cs ih =>
      rw [List.splitOn_cons_eq_if_modifyHead] at h
      split at h
      · obtain rfl | h := List.mem_cons.mp h
        · exact List.not_mem_nil
        · exact ih h
      · next hc =>
          -- the first piece gets the character, the others stay as they are
          cases hsplit : cs.splitOn a with
          | nil => exact absurd hsplit (List.splitOn_ne_nil a cs)
          | cons first rest =>
              rw [hsplit, List.modifyHead_cons, List.mem_cons] at h
              rw [hsplit] at ih
              obtain rfl | h := h
              · have hfirst := ih List.mem_cons_self
                have hne : a ≠ c := fun e => hc (by simp [e])
                simp [hne, hfirst]
              · exact ih (List.mem_cons_of_mem first h)

/-- Reading a list of pieces gives one result for each, and each from its piece. -/
lemma exists_of_mapM {α β ε : Type} {f : α → Except ε β} : ∀ {l : List α} {l' : List β},
    l.mapM f = .ok l' → l'.length = l.length ∧ ∀ b ∈ l', ∃ a ∈ l, f a = .ok b
  | [], l', h => by
      rw [List.mapM_nil] at h
      cases h
      simp
  | a :: l, l', h => by
      rw [List.mapM_cons] at h
      cases hfirst : f a with
      | error e => rw [hfirst] at h; cases h
      | ok b =>
          cases hrest : l.mapM f with
          | error e => rw [hfirst, hrest] at h; cases h
          | ok bs =>
              rw [hfirst, hrest] at h
              cases h
              obtain ⟨hlength, hmem⟩ := exists_of_mapM hrest
              refine ⟨congrArg (· + 1) hlength, List.forall_mem_cons.mpr ⟨?_, fun b hb => ?_⟩⟩
              · exact ⟨a, List.mem_cons_self, hfirst⟩
              · obtain ⟨a', ha', hread⟩ := hmem b hb
                exact ⟨a', List.mem_cons_of_mem a ha', hread⟩

namespace Declaration

variable {decl : Declaration} {decls : List Declaration}

/-- The names of an alternative are words, at least one, and hold no bar if the text of
the alternative holds none. -/
lemma words_of_readAlternative {piece : List Char} {ws : List String}
    (h : readAlternative piece = .ok ws) (hbar : '|' ∉ piece) :
    ws ≠ [] ∧ ∀ w ∈ ws, IsWord w.toList ∧ '|' ∉ w.toList := by
  rw [readAlternative] at h
  split at h
  · cases h
  · next hne =>
      cases h
      have hne : trim piece ≠ [] := by simpa using hne
      have hwords := words_ne_nil (List.getLast_mem hne) (isBlank_getLast_trim hne)
      refine ⟨by simpa using hwords, List.forall_mem_map.mpr fun w hw => ?_⟩
      rw [String.toList_ofList]
      refine ⟨isWord_of_mem_words hw, fun hmem => hbar ?_⟩
      exact (isInfix_trim piece).subset (mem_of_mem_words hw hmem)

/-- **A declaration that is read from a line can be written.** -/
theorem writable_of_ofLine {line : List Char} (h : ofLine line = .ok (some decl)) :
    decl.Writable := by
  rw [ofLine] at h
  split at h
  · cases h
  split at h
  · cases h
  next left right hsplit =>
  split at h
  · cases h
  split at h
  · cases h
  next hgood _ =>
  cases hread : ((trim right).splitOn '|').mapM readAlternative with
  | error cause => rw [hread] at h; cases h
  | ok alternatives =>
      rw [hread] at h
      cases h
      obtain ⟨hlength, hpieces⟩ := exists_of_mapM hread
      obtain ⟨hne, hblank, heps⟩ := isBadLhs_eq_false_iff.mp (Bool.eq_false_iff.mpr hgood)
      have harrow := (splitArrow_eq_some_iff.mp hsplit).1.mono (isInfix_trim left)
      refine ⟨?_, ?_, fun ws hws => ?_⟩
      · rw [String.toList_ofList]
        exact ⟨hne, hblank, harrow, heps⟩
      · rintro rfl
        exact List.splitOn_ne_nil _ _ (List.length_eq_zero_iff.mp hlength.symm)
      · obtain ⟨piece, hpiece, hread⟩ := hpieces ws hws
        exact words_of_readAlternative hread (notMem_of_mem_splitOn hpiece)

lemma writable_of_ofLines : ∀ {lines : List (List Char)} {number : Nat}
    {decls : List Declaration}, ofLines number lines = .ok decls →
      ∀ decl ∈ decls, decl.Writable
  | [], _, _, h => by
      cases h
      simp
  | line :: lines, number, decls, h => by
      rw [ofLines] at h
      split at h
      · cases h
      · exact writable_of_ofLines h
      · next decl hdecl =>
          cases hrest : ofLines (number + 1) lines with
          | error e => rw [hrest] at h; cases h
          | ok rest =>
              rw [hrest] at h
              cases h
              exact List.forall_mem_cons.mpr
                ⟨writable_of_ofLine hdecl, writable_of_ofLines hrest⟩

end Declaration

/-- **A grammar that is loaded is made from declarations that can be written.** -/
theorem Grammar.exists_writable_of_load {text : String} {g : Grammar}
    (h : Grammar.load text = .ok g) :
    ∃ decls, Grammar.ofDeclarations decls = .ok g ∧ ∀ decl ∈ decls, decl.Writable := by
  rw [load, Declaration.ofText] at h
  cases hread : Declaration.ofLines 1 (text.toList.splitOn '\n') with
  | error e => rw [hread] at h; cases h
  | ok decls =>
      rw [hread] at h
      exact ⟨decls, h, Declaration.writable_of_ofLines hread⟩

/-! ### A grammar as declarations -/

namespace Grammar

variable {g : Grammar}

/-- The alternatives of a nonterminal by name, in order. -/
def alternatives (g : Grammar) (s : Symbol) : List (List String) :=
  (g.productions s).map fun p => p.2.rhs.map g.nameOf

/-- The grammar as declarations, one for each nonterminal in the order of declaration. -/
def declarations (g : Grammar) : List Declaration :=
  g.nonterminals.map fun s => ⟨g.nameOf s, g.alternatives s⟩

/-- The start symbol is the first that is declared. -/
lemma head?_declarations (g : Grammar) :
    g.declarations.head?.map Declaration.lhs = some (g.nameOf g.start) := by
  rw [declarations, List.head?_map, List.head?_eq_some_head g.declared]
  rfl

lemma map_snd_productions (g : Grammar) (s : Symbol) :
    (g.productions s).map Prod.snd = g.rules.filter fun r => decide (r.lhs = s) := by
  rw [← map_snd_numberedRules, List.filter_map, productions]
  rfl

end Grammar

/-- The right-hand sides that a list of rules has for one left-hand side, by name. -/
def Draft.rhsNames (rules : List (String × List String)) (lhs : String) : List (List String) :=
  (rules.filter fun p => decide (p.1 = lhs)).map Prod.snd

namespace Grammar

variable {g : Grammar}

lemma alternatives_eq {s : Symbol} (hs : s ∈ g.nonterminals) :
    g.alternatives s = Draft.rhsNames g.ruleNames (g.nameOf s) := by
  -- a left-hand side has the name of the nonterminal exactly if it is the nonterminal
  have hfilter : (g.rules.filter fun r => decide (r.lhs = s))
      = g.rules.filter fun r => decide (g.names.nameOf r.lhs = g.names.nameOf s) := by
    refine List.filter_congr fun r hr => decide_eq_decide.mpr ⟨congrArg _, fun h => ?_⟩
    exact NameTable.nameOf_inj (g.nonterminals_lt _ (g.lhs_mem r hr)) (g.nonterminals_lt s hs) h
  have hrules : g.alternatives s
      = (g.rules.filter fun r => decide (r.lhs = s)).map fun r => r.rhs.map g.nameOf := by
    rw [← map_snd_productions, List.map_map]
    rfl
  rw [hrules, hfilter, Draft.rhsNames, Draft.ruleNames, List.filter_map, List.map_map]
  rfl

/-- **A grammar as declarations is determined by what is read by name.** -/
theorem declarations_eq (g : Grammar) :
    g.declarations
      = g.nonterminalNames.map fun n => ⟨n, Draft.rhsNames g.ruleNames n⟩ := by
  rw [declarations, Draft.nonterminalNames, List.map_map]
  refine List.map_congr_left fun s hs => ?_
  rw [alternatives_eq hs]
  rfl

end Grammar

/-! ### Writing declarations -/

namespace Declaration

/-- What is written for an alternative: its names, or the spelling of the empty string if
it has none. -/
def spell (names : List String) : List String := if names.isEmpty then [epsilon] else names

/-- The declaration as it is written. -/
def spelled (decl : Declaration) : Declaration := ⟨decl.lhs, decl.alternatives.map spell⟩

/-- The declaration as it is taken in, without the spellings of the empty string. -/
def stripped (decl : Declaration) : Declaration :=
  ⟨decl.lhs, decl.alternatives.map Draft.symbolNames⟩

/-- The declaration as a line of text. -/
def render (decl : Declaration) : String :=
  decl.lhs ++ " -> " ++ " | ".intercalate (decl.alternatives.map " ".intercalate) ++ "\n"

lemma rules_eq (decl : Declaration) :
    decl.rules = decl.stripped.alternatives.map (Prod.mk decl.lhs) := by
  rw [stripped, List.map_map]
  rfl

/-- Spelling out the empty string gives it no symbols. -/
lemma symbolNames_spell (names : List String) :
    Draft.symbolNames (spell names) = Draft.symbolNames names := by
  cases names with
  | nil => decide
  | cons name names => rfl

lemma stripped_spelled (decl : Declaration) : decl.spelled.stripped = decl.stripped := by
  rw [stripped, spelled, List.map_map]
  exact congrArg (Declaration.mk decl.lhs)
    (List.map_congr_left fun names _ => symbolNames_spell names)

lemma rules_spelled (decl : Declaration) : decl.spelled.rules = decl.rules := by
  rw [rules_eq, rules_eq, stripped_spelled]
  rfl

end Declaration

/-- **A grammar is written by writing its declarations.** -/
theorem Grammar.render_eq (g : Grammar) :
    g.render = String.join (g.declarations.map fun decl => decl.spelled.render) := by
  rw [render, declarations, List.map_map]
  refine congrArg String.join (List.map_congr_left fun s _ => ?_)
  have hrhs : ∀ rhs : List Symbol, g.showRhs rhs
      = " ".intercalate (Declaration.spell (rhs.map g.nameOf)) := by
    intro rhs
    cases rhs with
    | nil => rfl
    | cons s rhs => rfl
  simp only [showProductions, Function.comp, Declaration.render, Declaration.spelled,
    alternatives, List.map_map]
  simp only [Function.comp_def, hrhs]

namespace Text

/-- Words with a blank between them are laid out. -/
lemma wordsLaid_intercalate {ws : List String} (hne : ws ≠ []) :
    WordsLaid ws (" ".intercalate ws).toList := by
  induction ws with
  | nil => exact absurd rfl hne
  | cons w ws ih =>
      cases ws with
      | nil => simpa [String.toList_intercalate] using WordsLaid.single w
      | cons w' ws =>
          have hrest := WordsLaid.cons (w := w) (show Blanks [' '] by decide) (by decide)
            (ih (List.cons_ne_nil w' ws))
          simpa [String.toList_intercalate, List.intercalate_cons_cons] using hrest

/-- Alternatives with bars between them are laid out. -/
lemma alternativesLaid_intercalate {alternatives : List (List String)}
    (hne : alternatives ≠ []) (hwords : ∀ ws ∈ alternatives, ws ≠ []) :
    AlternativesLaid alternatives
      (' ' :: (" | ".intercalate (alternatives.map " ".intercalate)).toList) := by
  induction alternatives with
  | nil => exact absurd rfl hne
  | cons ws alternatives ih =>
      obtain ⟨hws, hrest⟩ := List.forall_mem_cons.mp hwords
      have hlaid := wordsLaid_intercalate hws
      cases alternatives with
      | nil =>
          have hsingle := AlternativesLaid.single (show Blanks [' '] by decide) hlaid
            Blanks.nil
          simpa [String.toList_intercalate] using hsingle
      | cons ws' alternatives =>
          have hcons := AlternativesLaid.cons (show Blanks [' '] by decide) hlaid
            (show Blanks [' '] by decide) (ih (List.cons_ne_nil ws' alternatives) hrest)
          simpa [String.toList_intercalate, List.intercalate_cons_cons] using hcons

/-- **Written declarations are laid out.** -/
theorem laid_render {decls : List Declaration} (hdecls : ∀ decl ∈ decls, decl.Writable) :
    Text.Laid decls (String.join (decls.map Declaration.render)).toList := by
  induction decls with
  | nil => exact .done .nil
  | cons decl decls ih =>
      obtain ⟨hdecl, hrest⟩ := List.forall_mem_cons.mp hdecls
      have halts := alternativesLaid_intercalate hdecl.alternatives
        fun ws hws => (hdecl.words ws hws).1
      have hline : decl.Laid _ :=
        ⟨[], [' '], ['-', '>'], _, by decide, by decide, by decide, halts, rfl⟩
      have hall := Text.Laid.cons (e := ['\n']) hline (by decide) (ih hrest)
      simpa [String.toList_join, Declaration.render] using hall

end Text

/-! ### The declarations of what declarations make -/

namespace Draft

variable {rules rules' : List (String × List String)} {lhs : String} {names : List String}

lemma mem_rhsNames : names ∈ rhsNames rules lhs ↔ (lhs, names) ∈ rules := by
  rw [rhsNames, List.mem_map]
  constructor
  · rintro ⟨⟨n, names⟩, hmem, rfl⟩
    obtain ⟨hmem, hn⟩ := List.mem_filter.mp hmem
    exact of_decide_eq_true hn ▸ hmem
  · intro hmem
    exact ⟨(lhs, names), List.mem_filter.mpr ⟨hmem, decide_eq_true rfl⟩, rfl⟩

lemma rhsNames_append :
    rhsNames (rules ++ rules') lhs = rhsNames rules lhs ++ rhsNames rules' lhs := by
  rw [rhsNames, List.filter_append, List.map_append]
  rfl

lemma rhsNames_rules (decl : Declaration) :
    rhsNames decl.rules decl.lhs = decl.stripped.alternatives := by
  have hall : decl.rules.filter (fun p => decide (p.1 = decl.lhs)) = decl.rules := by
    refine List.filter_eq_self.mpr (List.forall_mem_map.mpr fun names _ => ?_)
    exact decide_eq_true rfl
  rw [rhsNames, hall, Declaration.rules, List.map_map]
  rfl

lemma rhsNames_eq_nil (h : ∀ p ∈ rules, p.1 ≠ lhs) : rhsNames rules lhs = [] := by
  have hnone : rules.filter (fun p => decide (p.1 = lhs)) = [] :=
    List.filter_eq_nil_iff.mpr fun p hp => by simpa using h p hp
  rw [rhsNames, hnone, List.map_nil]

/-- Among the rules of declarations of different nonterminals, those of one nonterminal
are the ones that its declaration lists. -/
lemma rhsNames_flatMap {decls : List Declaration} (hnodup : (decls.map Declaration.lhs).Nodup)
    {decl : Declaration} (hmem : decl ∈ decls) :
    rhsNames (decls.flatMap Declaration.rules) decl.lhs = decl.stripped.alternatives := by
  induction decls with
  | nil => cases hmem
  | cons first decls ih =>
      rw [List.map_cons, List.nodup_cons] at hnodup
      obtain ⟨hfirst, hnodup⟩ := hnodup
      rw [List.flatMap_cons, rhsNames_append]
      obtain rfl | hmem := List.mem_cons.mp hmem
      · have hnone : rhsNames (decls.flatMap Declaration.rules) decl.lhs = [] := by
          refine rhsNames_eq_nil fun p hp e => hfirst ?_
          obtain ⟨other, hother, hp⟩ := List.mem_flatMap.mp hp
          obtain ⟨_, _, rfl⟩ := List.mem_map.mp hp
          exact List.mem_map.mpr ⟨other, hother, e⟩
        rw [hnone, List.append_nil, rhsNames_rules]
      · have hnone : rhsNames first.rules decl.lhs = [] := by
          refine rhsNames_eq_nil (List.forall_mem_map.mpr fun _ _ e => hfirst ?_)
          exact List.mem_map.mpr ⟨decl, hmem, e.symm⟩
        rw [hnone, List.nil_append, ih hnodup hmem]

end Draft

namespace Grammar

variable {g : Grammar} {decls : List Declaration}

/-- **Declarations of different nonterminals** are the declarations of the grammar that
they make. -/
theorem declarations_ofDeclarations (h : Grammar.ofDeclarations decls = .ok g)
    (hsize : g.names.size ≤ UInt32.size) (hnodup : (decls.map Declaration.lhs).Nodup) :
    g.declarations = decls.map Declaration.stripped := by
  rw [declarations_eq, nonterminalNames_of_ofDeclarations h hsize,
    ruleNames_of_ofDeclarations h hsize, eraseDups_of_nodup hnodup, List.map_map]
  refine List.map_congr_left fun decl hmem => ?_
  exact congrArg (Declaration.mk decl.lhs) (Draft.rhsNames_flatMap hnodup hmem)

/-- The alternatives of a grammar are those of the declarations it was made from, as they
were taken in. -/
lemma mem_declarations (h : Grammar.ofDeclarations decls = .ok g)
    (hsize : g.names.size ≤ UInt32.size) {decl : Declaration} (hdecl : decl ∈ g.declarations) :
    decl.lhs ∈ decls.map Declaration.lhs
      ∧ ∀ names, names ∈ decl.alternatives ↔
          ∃ decl' ∈ decls, decl'.lhs = decl.lhs ∧ names ∈ decl'.stripped.alternatives := by
  rw [declarations_eq, nonterminalNames_of_ofDeclarations h hsize,
    ruleNames_of_ofDeclarations h hsize] at hdecl
  obtain ⟨n, hn, rfl⟩ := List.mem_map.mp hdecl
  refine ⟨List.mem_eraseDups.mp hn, fun names => ?_⟩
  rw [Draft.mem_rhsNames, List.mem_flatMap]
  refine exists_congr fun decl' => and_congr_right fun _ => ?_
  simp only [Declaration.rules, Declaration.stripped, List.mem_map, Prod.mk.injEq]
  tauto

/-- In the declarations of a grammar there is nothing to be stripped. -/
lemma stripped_of_mem_declarations (h : Grammar.ofDeclarations decls = .ok g)
    (hsize : g.names.size ≤ UInt32.size) {decl : Declaration} (hdecl : decl ∈ g.declarations) :
    decl.stripped = decl := by
  obtain ⟨-, halts⟩ := mem_declarations h hsize hdecl
  refine congrArg (Declaration.mk decl.lhs) ?_
  rw [List.map_congr_left (g := id) fun names hnames => ?_, List.map_id]
  obtain ⟨decl', -, -, hnames⟩ := (halts names).mp hnames
  obtain ⟨names, -, rfl⟩ := List.mem_map.mp hnames
  simp [Draft.symbolNames]

/-- **The declarations of a grammar can be written**, if it is made from declarations that
can. -/
theorem writable_spelled (h : Grammar.ofDeclarations decls = .ok g)
    (hsize : g.names.size ≤ UInt32.size) (hdecls : ∀ decl ∈ decls, decl.Writable)
    {decl : Declaration} (hdecl : decl ∈ g.declarations) : decl.spelled.Writable := by
  obtain ⟨hlhs, halts⟩ := mem_declarations h hsize hdecl
  obtain ⟨first, hfirst, hname⟩ := List.mem_map.mp hlhs
  refine ⟨?_, ?_, List.forall_mem_map.mpr fun names hnames => ?_⟩
  · exact hname ▸ (hdecls first hfirst).lhs
  · obtain ⟨names, hnames⟩ := List.exists_mem_of_ne_nil _ (hdecls first hfirst).alternatives
    have hmem := (halts _).mpr ⟨first, hfirst, hname, List.mem_map_of_mem hnames⟩
    exact List.ne_nil_of_mem (List.mem_map_of_mem hmem)
  · obtain ⟨decl', hdecl', -, hnames⟩ := (halts names).mp hnames
    obtain ⟨names, hmem, rfl⟩ := List.mem_map.mp hnames
    rw [Declaration.spell]
    split
    · exact ⟨List.cons_ne_nil _ _, by decide⟩
    · next hne =>
        refine ⟨by simpa using hne, fun w hw => ?_⟩
        exact ((hdecls decl' hdecl').words names hmem).2 w (List.mem_filter.mp hw).1

/-- Writing and reading back brings no new names. -/
lemma names_subset (g : Grammar) :
    (Draft.ofDeclarations (g.declarations.map Declaration.spelled)).names.names
      ⊆ g.names.names := by
  intro m hm
  obtain ⟨_, hspelled, hm⟩ := Draft.mem_names_ofDeclarations.mp hm
  obtain ⟨decl, hdecl, rfl⟩ := List.mem_map.mp hspelled
  obtain ⟨s, hs, rfl⟩ := List.mem_map.mp hdecl
  obtain rfl | ⟨names, hnames, hm⟩ := hm
  · exact NameTable.nameOf_mem (g.nonterminals_lt s hs)
  · obtain ⟨names, hmem, rfl⟩ := List.mem_map.mp hnames
    rw [Declaration.symbolNames_spell] at hm
    obtain ⟨⟨id, r⟩, hr, rfl⟩ := List.mem_map.mp hmem
    obtain ⟨c, hc, rfl⟩ := List.mem_map.mp (List.mem_filter.mp hm).1
    have hrule : r ∈ g.rules :=
      List.mem_of_getElem? (mem_numberedRules.mp (List.mem_filter.mp hr).1)
    exact NameTable.nameOf_mem (g.rhs_lt r hrule c hc)

/-- The rules are grouped: those of the first nonterminal come first, then those of the
second, and so on. -/
def Grouped (g : Grammar) : Prop := g.nonterminals.flatMap g.productions = g.numberedRules

instance (g : Grammar) : Decidable g.Grouped := by
  unfold Grouped
  infer_instance

/-- Where the rules are grouped, the declarations list them in order. -/
lemma Grouped.flatMap_rules (hgrouped : g.Grouped)
    (hstripped : ∀ decl ∈ g.declarations, decl.stripped = decl) :
    g.declarations.flatMap Declaration.rules = g.ruleNames := by
  let byName : RuleId × Rule → String × List String := fun p => g.names.ruleName p.2
  have hproductions : ∀ s ∈ g.nonterminals,
      Declaration.rules ⟨g.nameOf s, g.alternatives s⟩ = (g.productions s).map byName := by
    intro s hs
    have halts := congrArg Declaration.alternatives
      (hstripped ⟨g.nameOf s, g.alternatives s⟩ (List.mem_map_of_mem hs))
    rw [Declaration.rules_eq, halts, alternatives, List.map_map]
    refine List.map_congr_left fun p hp => ?_
    have hlhs : p.2.lhs = s := of_decide_eq_true (List.mem_filter.mp hp).2
    exact congrArg (fun s => (g.nameOf s, p.2.rhs.map g.nameOf)) hlhs.symm
  calc g.declarations.flatMap Declaration.rules
      = g.nonterminals.flatMap fun s => (g.productions s).map byName := by
        rw [declarations, List.flatMap_map]
        exact List.flatMap_congr hproductions
    _ = g.numberedRules.map byName := by
        rw [← List.map_flatMap, show g.nonterminals.flatMap g.productions = _ from hgrouped]
    _ = g.ruleNames := by
        rw [Draft.ruleNames, ← map_snd_numberedRules, List.map_map]
        rfl

/-- **A grammar that was loaded survives being written and loaded again.** The text that
is written can be loaded; the nonterminals, their order, the start symbol and the
alternatives of each nonterminal are the same by name, and so is the text that is written
then. If the rules are grouped, then nothing changes at all. -/
theorem load_render (text : String) (g : Grammar) (h : Grammar.load text = .ok g)
    (hsize : g.names.size ≤ UInt32.size) :
    ∃ g', Grammar.load g.render = .ok g'
      ∧ g'.declarations = g.declarations
      ∧ g'.nameOf g'.start = g.nameOf g.start
      ∧ g'.render = g.render
      ∧ (g.Grouped → g' = g) := by
  obtain ⟨decls, hbuilt, hdecls⟩ := exists_writable_of_load h
  have hstripped : ∀ decl ∈ g.declarations, decl.stripped = decl :=
    fun decl => stripped_of_mem_declarations hbuilt hsize
  -- the grammar is written by its declarations, and what is written is a layout of them
  let written := g.declarations.map Declaration.spelled
  have hwritable : ∀ decl ∈ written, decl.Writable :=
    List.forall_mem_map.mpr fun decl => writable_spelled hbuilt hsize hdecls
  have hrender : g.render = String.join (written.map Declaration.render) := by
    rw [render_eq, List.map_map]
    rfl
  have hload : Grammar.load g.render = Grammar.ofDeclarations written :=
    load_eq_ofDeclarations (hrender ▸ laid_render hwritable) hwritable
  have hne : written ≠ [] := by simp [written, declarations, g.declared]
  obtain ⟨g', hg'⟩ := exists_ofDeclarations hne
  have hdraft := ofDeclarations_eq_ok_iff.mp hg'
  have hsize' : g'.names.size ≤ UInt32.size := by
    rw [hdraft]
    exact ((NameTable.nodup _).length_le_of_subset g.names_subset).trans hsize
  have hlhs : written.map Declaration.lhs = g.nonterminalNames := by
    simp only [written, declarations, List.map_map]
    rfl
  have hsame : g'.declarations = g.declarations := by
    rw [declarations_ofDeclarations hg' hsize' (hlhs ▸ g.nodup_nonterminalNames), List.map_map]
    refine (List.map_congr_left fun decl hdecl => ?_).trans (List.map_id _)
    exact decl.stripped_spelled.trans (hstripped decl hdecl)
  refine ⟨g', hload.trans hg', hsame, ?_, ?_, fun hgrouped => ?_⟩
  · rw [← Option.some_inj, ← head?_declarations, hsame, head?_declarations]
  · rw [render_eq, hsame, ← render_eq]
  · -- both drafts are made from the same rules in the same order
    have hrules : written.flatMap Declaration.rules = decls.flatMap Declaration.rules := by
      rw [List.flatMap_map, funext Declaration.rules_spelled, hgrouped.flatMap_rules hstripped,
        ruleNames_of_ofDeclarations hbuilt hsize]
    have hsource : g.toDraft = Draft.ofDeclarations written := by
      rw [ofDeclarations_eq_ok_iff.mp hbuilt,
        Draft.ofDeclarations_eq_ofRules fun decl hdecl => (hdecls decl hdecl).alternatives,
        Draft.ofDeclarations_eq_ofRules fun decl hdecl => (hwritable decl hdecl).alternatives,
        hrules]
    have hsource' := ofDeclarations_eq_ok_iff.mpr hsource
    rw [hg'] at hsource'
    exact Except.ok.inj hsource'

/-- A grammar whose first nonterminal, which has an odd name, is declared in two places. -/
def apart : Grammar :=
  { Draft.ofDeclarations
      [⟨"a|b-", [["id>"], ["ε"]]⟩, ⟨"B", [["É", "+", "B"]]⟩, ⟨"a|b-", [["B", "ϵ"]]⟩] with
    declared := by decide }

/-- The grammar after its rules have come together. -/
def together : Grammar :=
  { Draft.ofDeclarations
      [⟨"a|b-", [["id>"], ["ε"], ["B"]]⟩, ⟨"B", [["É", "+", "B"]]⟩] with
    declared := by decide }

theorem load_render_apart :
    Grammar.load "a|b- -> id> | ε\n\nB → É+B\r\n a|b-->B ϵ" = .ok apart
      ∧ (¬ apart.Grouped ∧ ∃ g', Grammar.load apart.render = .ok g'
          ∧ g'.declarations = apart.declarations ∧ g'.render = apart.render)
      ∧ Grammar.load apart.render = .ok together
      ∧ Grammar.load together.render = .ok together := by
  have hread : Grammar.load "a|b- -> id> | ε\n\nB → É+B\r\n a|b-->B ϵ" = .ok apart := by
    decide +kernel
  have hagain : Grammar.load apart.render = .ok together := by decide +kernel
  refine ⟨hread, ⟨by decide +kernel, ?_⟩, hagain, ?_⟩
  · obtain ⟨g', hload, hsame, -, hrender, -⟩ :=
      load_render _ apart hread (by decide +kernel)
    exact ⟨g', hload, hsame, hrender⟩
  · obtain ⟨g', hload, -, -, -, hgrouped⟩ :=
      load_render _ together hagain (by decide +kernel)
    exact hgrouped (by decide +kernel) ▸ hload

end Grammar

end TopDown
