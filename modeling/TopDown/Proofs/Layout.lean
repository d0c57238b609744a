import Mathlib.Data.List.Infix
import TopDown.Grammar.Reader
import TopDown.Proofs.Building
import TopDown.Proofs.Words

/-!
Declarations laid out as text are read back, whatever the layout.

* `Text.NoArrow`, `Text.splitArrow_eq_some_iff`: a line is cut at the one arrow before
  which there is none.
* `Declaration.Writable`: the declarations that can be written as text, with the names
  that `Text.IsLhs` and `Text.IsWord` describe.
* `Text.WordsLaid`, `Text.AlternativesLaid`, `Declaration.Laid`, `Text.Laid`: words,
  alternatives, one declaration and a list of declarations laid out as text, with any
  blanks where blanks may stand, either arrow, either line end and blank lines anywhere.
* `Text.words_of_laid`, `Text.mapM_of_laid`, `Declaration.ofLine_of_laid`,
  `Declaration.ofLines_of_laid`: each part of the reader undoes its part of the layout.
* `Grammar.load_of_laid`: so loading a text in any layout is building the grammar from
  the declarations.
-/

namespace TopDown

namespace Text

/-! ### Arrows -/

/-- The spellings of the arrow. -/
def arrows : List (List Char) := [['-', '>'], ['→']]

/-- No arrow stands in the text, in neither spelling. -/
def NoArrow (cs : List Char) : Prop := ¬ ['-', '>'] <:+: cs ∧ '→' ∉ cs

instance (cs : List Char) : Decidable (NoArrow cs) := by
  unfold NoArrow
  infer_instance

/-- One more character in front makes no arrow exactly if it is none by itself and none
together with the next one. -/
lemma noArrow_cons {c : Char} {cs : List Char} :
    NoArrow (c :: cs) ↔ c ≠ '→' ∧ ¬ (c = '-' ∧ ['>'] <+: cs) ∧ NoArrow cs := by
  rw [NoArrow, NoArrow, List.infix_cons_iff, List.cons_prefix_cons, List.mem_cons,
    @eq_comm _ '-' c, @eq_comm _ '→' c]
  tauto

/-- Where no arrow begins, the search goes on. -/
lemma splitArrow_cons {c : Char} {cs : List Char} (hc : c ≠ '→')
    (hcs : ¬ (c = '-' ∧ ['>'] <+: cs)) :
    splitArrow (c :: cs) = (splitArrow cs).map fun (left, right) => (c :: left, right) := by
  rw [splitArrow]
  · rintro cs' rfl rfl
    exact hcs ⟨rfl, List.prefix_append ['>'] cs'⟩
  · exact hc

lemma not_begins_append {c : Char} {u v : List Char} (hu : ¬ [c] <+: u) (hv : ¬ [c] <+: v) :
    ¬ [c] <+: u ++ v := by
  cases u with
  | nil => exact hv
  | cons d u =>
      rw [List.cons_append, List.cons_prefix_cons]
      exact fun h => hu (List.cons_prefix_cons.mpr ⟨h.1, List.nil_prefix⟩)

/-- No arrow comes about where two texts meet, if the second does not begin with the
second half of one. -/
lemma NoArrow.append {u v : List Char} (hu : NoArrow u) (hv : NoArrow v)
    (hhead : ¬ ['>'] <+: v) : NoArrow (u ++ v) := by
  induction u with
  | nil => exact hv
  | cons c u ih =>
      obtain ⟨hc, hnext, hu⟩ := noArrow_cons.mp hu
      refine noArrow_cons.mpr ⟨hc, ?_, ih hu⟩
      exact fun h => not_begins_append (fun e => hnext ⟨h.1, e⟩) hhead h.2

/-- A part of a text without arrows has none. -/
lemma NoArrow.mono {u cs : List Char} (h : NoArrow cs) (hu : u <:+: cs) : NoArrow u :=
  ⟨fun harrow => h.1 (harrow.trans hu), fun hmem => h.2 (hu.subset hmem)⟩

/-- An arrow before which there is none is where the line is cut. -/
lemma splitArrow_append {left arrow : List Char} (hleft : NoArrow left) (harrow : arrow ∈ arrows)
    (right : List Char) : splitArrow (left ++ (arrow ++ right)) = some (left, right) := by
  have hcases : arrow = ['-', '>'] ∨ arrow = ['→'] := by simpa [arrows] using harrow
  induction left with
  | nil =>
      obtain rfl | rfl := hcases
      · rfl
      · rfl
  | cons c left ih =>
      obtain ⟨hc, hnext, hleft⟩ := noArrow_cons.mp hleft
      have hhead : ¬ ['>'] <+: arrow ++ right := by
        obtain rfl | rfl := hcases
        · simp [List.cons_prefix_cons]
        · simp [List.cons_prefix_cons]
      rw [List.cons_append, splitArrow_cons hc fun h =>
        not_begins_append (fun e => hnext ⟨h.1, e⟩) hhead h.2, ih hleft, Option.map_some]

/-- **A line is cut at an arrow before which there is none.** -/
theorem splitArrow_eq_some_iff {cs left right : List Char} :
    splitArrow cs = some (left, right) ↔
      NoArrow left ∧ ∃ arrow ∈ arrows, cs = left ++ (arrow ++ right) := by
  constructor
  · intro h
    fun_induction splitArrow cs generalizing left with
    | case1 => cases h
    | case2 cs =>
        cases h
        exact ⟨by decide, ['-', '>'], by decide, rfl⟩
    | case3 cs =>
        cases h
        exact ⟨by decide, ['→'], by decide, rfl⟩
    | case4 c cs hnext hc ih =>
        obtain ⟨⟨left', right'⟩, hsplit, e⟩ := Option.map_eq_some_iff.mp h
        cases e
        obtain ⟨hleft, arrow, harrow, rfl⟩ := ih hsplit
        refine ⟨noArrow_cons.mpr ⟨hc, ?_, hleft⟩, arrow, harrow, rfl⟩
        rintro ⟨rfl, rest, rfl⟩
        exact hnext _ rfl rfl
  · rintro ⟨hleft, arrow, harrow, rfl⟩
    exact splitArrow_append hleft harrow right

/-! ### What can be written -/

/-- A text that can stand before the arrow: it is not empty, holds no blank and no arrow,
and does not spell the empty string. -/
def IsLhs (cs : List Char) : Prop :=
  cs ≠ [] ∧ (∀ c ∈ cs, isBlank c = false) ∧ NoArrow cs ∧ isEpsilon (String.ofList cs) = false

instance (cs : List Char) : Decidable (IsLhs cs) :=
  decidable_of_iff (cs ≠ [] ∧ (cs.all fun c => !isBlank c) = true ∧ NoArrow cs
    ∧ isEpsilon (String.ofList cs) = false) (by simp [IsLhs])

lemma IsLhs.tight {cs : List Char} (h : IsLhs cs) : Tight cs := tight_of_forall h.1 h.2.1

/-- A left-hand side is refused exactly for the reasons named. -/
lemma isBadLhs_eq_false_iff {cs : List Char} :
    Declaration.isBadLhs cs = false ↔
      cs ≠ [] ∧ (∀ c ∈ cs, isBlank c = false) ∧ isEpsilon (String.ofList cs) = false := by
  simp [Declaration.isBadLhs, and_assoc]

end Text

open Text

/-- The declaration can be written as text: its left-hand side can stand before the arrow,
and it has alternatives, which consist of words without bars. -/
structure Declaration.Writable (decl : Declaration) : Prop where
  lhs : IsLhs decl.lhs.toList
  alternatives : decl.alternatives ≠ []
  words : ∀ alternative ∈ decl.alternatives, alternative ≠ []
    ∧ ∀ w ∈ alternative, IsWord w.toList ∧ '|' ∉ w.toList

namespace Text

/-! ### Layouts -/

/-- The words in order, with blanks between them. -/
inductive WordsLaid : List String → List Char → Prop
  | single (w : String) : WordsLaid [w] w.toList
  | cons {w : String} {ws : List String} {gap cs : List Char} (hgap : Blanks gap)
      (hne : gap ≠ []) (h : WordsLaid ws cs) : WordsLaid (w :: ws) (w.toList ++ (gap ++ cs))

/-- The alternatives in order, with bars between them and any blanks around each. -/
inductive AlternativesLaid : List (List String) → List Char → Prop
  | single {ws : List String} {b cs b' : List Char} (hb : Blanks b) (h : WordsLaid ws cs)
      (hb' : Blanks b') : AlternativesLaid [ws] (b ++ (cs ++ b'))
  | cons {ws : List String} {b cs b' : List Char} {alternatives : List (List String)}
      {rest : List Char} (hb : Blanks b) (h : WordsLaid ws cs) (hb' : Blanks b')
      (hrest : AlternativesLaid alternatives rest) :
      AlternativesLaid (ws :: alternatives) ((b ++ (cs ++ b')) ++ '|' :: rest)

end Text

/-- The declaration on one line: its left-hand side, an arrow and its alternatives, with
any blanks around each. -/
def Declaration.Laid (decl : Declaration) (line : List Char) : Prop :=
  ∃ b b' arrow rest, Blanks b ∧ Blanks b' ∧ arrow ∈ arrows
    ∧ AlternativesLaid decl.alternatives rest
    ∧ line = b ++ (decl.lhs.toList ++ (b' ++ (arrow ++ rest)))

namespace Text

/-- The ends of a line. -/
def lineEnds : List (List Char) := [['\n'], ['\r', '\n']]

/-- The declarations in order, one on a line, with blank lines anywhere. The last line may
do without its end. -/
inductive Laid : List Declaration → List Char → Prop
  | done {line : List Char} (hb : Blanks line) : Laid [] line
  | last {decl : Declaration} {line : List Char} (h : decl.Laid line) : Laid [decl] line
  | blank {line e : List Char} {decls : List Declaration} {cs : List Char}
      (hb : Blanks line) (he : e ∈ lineEnds) (hrest : Laid decls cs) :
      Laid decls (line ++ (e ++ cs))
  | cons {decl : Declaration} {line e : List Char} {decls : List Declaration} {cs : List Char}
      (h : decl.Laid line) (he : e ∈ lineEnds) (hrest : Laid decls cs) :
      Laid (decl :: decls) (line ++ (e ++ cs))

/-! ### Words -/

lemma WordsLaid.tight {ws : List String} {cs : List Char} (h : WordsLaid ws cs)
    (hws : ∀ w ∈ ws, IsWord w.toList) : Tight cs := by
  induction h with
  | single w => exact (hws w (List.mem_singleton.mpr rfl)).tight
  | cons _ _ _ ih =>
      obtain ⟨hw, hws⟩ := List.forall_mem_cons.mp hws
      exact hw.tight.append (ih hws) _

/-- **Laid out words are read back.** -/
theorem words_of_laid {ws : List String} {cs : List Char} (h : WordsLaid ws cs)
    (hws : ∀ w ∈ ws, IsWord w.toList) : words cs = ws.map String.toList := by
  rw [words]
  induction h with
  | single w =>
      have hend : ∀ c ∈ ([] : List Char).head?, isBlank c = true := by simp
      have hscan := scanWords_append (hws w (List.mem_singleton.mpr rfl)) hend
      rwa [List.append_nil] at hscan
  | @cons w ws gap cs hgap hne _ ih =>
      obtain ⟨hw, hws⟩ := List.forall_mem_cons.mp hws
      have hhead : ∀ c ∈ (gap ++ cs).head?, isBlank c = true := by
        intro c hc
        rw [List.head?_append, List.head?_eq_some_head hne, Option.some_or] at hc
        cases hc
        exact (hgap _ (List.head_mem hne)).1
      rw [scanWords_append hw hhead, scanWords_blanks hgap, ih hws, List.map_cons]

/-! ### Alternatives -/

/-- An alternative is read whatever the blanks around it. -/
lemma readAlternative_of_laid {ws : List String} {b cs b' : List Char} (hb : Blanks b)
    (h : WordsLaid ws cs) (hb' : Blanks b') (hws : ∀ w ∈ ws, IsWord w.toList) :
    Declaration.readAlternative (b ++ (cs ++ b')) = .ok ws := by
  have htight := h.tight hws
  have hne : cs ≠ [] := htight.1
  have hback : (ws.map String.toList).map String.ofList = ws := by
    rw [List.map_map]
    exact (List.map_congr_left fun w _ => String.ofList_toList).trans (List.map_id ws)
  rw [Declaration.readAlternative, trim_of_tight hb htight hb', if_neg (by simpa using hne),
    words_of_laid h hws, hback]

/-- Blanks do not begin with the second half of an arrow. -/
lemma Blanks.not_begins {b : List Char} (h : Blanks b) : ¬ ['>'] <+: b := by
  rintro ⟨rest, rfl⟩
  exact absurd (h '>' (by simp)).1 (by decide)

/-- There is no arrow among blanks. -/
lemma Blanks.noArrow {b : List Char} (h : Blanks b) : NoArrow b := by
  refine ⟨fun harrow => ?_, fun hmem => absurd (h _ hmem).1 (by decide)⟩
  exact absurd (h '-' (harrow.subset List.mem_cons_self)).1 (by decide)

/-- Neither bars nor line feeds are among blanks. -/
lemma Blanks.notMem {b : List Char} (h : Blanks b) : '|' ∉ b ∧ '\n' ∉ b :=
  ⟨fun hmem => absurd (h _ hmem).1 (by decide), fun hmem => (h _ hmem).2 rfl⟩

/-- A character that is neither among blanks nor in a word is not in the text of an
alternative. -/
lemma WordsLaid.notMem {x : Char} (hx : ∀ b, Blanks b → x ∉ b) {ws : List String}
    {cs : List Char} (h : WordsLaid ws cs) (hws : ∀ w ∈ ws, x ∉ w.toList) : x ∉ cs := by
  induction h with
  | single w => exact hws w (List.mem_singleton.mpr rfl)
  | cons hgap _ _ ih =>
      obtain ⟨hw, hws⟩ := List.forall_mem_cons.mp hws
      simp only [List.mem_append, not_or]
      exact ⟨hw, hx _ hgap, ih hws⟩

/-- No line feed is among laid out alternatives. -/
lemma AlternativesLaid.notMem {alternatives : List (List String)} {cs : List Char}
    (h : AlternativesLaid alternatives cs)
    (hwords : ∀ ws ∈ alternatives, ∀ w ∈ ws, '\n' ∉ w.toList) : '\n' ∉ cs := by
  have hx : ∀ b, Blanks b → '\n' ∉ b := fun _ hb => hb.notMem.2
  induction h with
  | single hb h hb' =>
      have hws := hwords _ (List.mem_singleton.mpr rfl)
      simp only [List.mem_append, not_or]
      exact ⟨hx _ hb, h.notMem hx hws, hx _ hb'⟩
  | cons hb h hb' _ ih =>
      obtain ⟨hws, hrest⟩ := List.forall_mem_cons.mp hwords
      simp only [List.mem_append, List.mem_cons, not_or]
      exact ⟨⟨hx _ hb, h.notMem hx hws, hx _ hb'⟩, by decide, ih hrest⟩

/-- **Laid out alternatives are read back.** -/
theorem mapM_of_laid {alternatives : List (List String)} {cs : List Char}
    (h : AlternativesLaid alternatives cs)
    (hwords : ∀ ws ∈ alternatives, ∀ w ∈ ws, IsWord w.toList ∧ '|' ∉ w.toList) :
    (cs.splitOn '|').mapM Declaration.readAlternative = .ok alternatives := by
  have hpiece : ∀ {ws : List String} {b cs b' : List Char}, Blanks b → WordsLaid ws cs →
      Blanks b' → (∀ w ∈ ws, IsWord w.toList ∧ '|' ∉ w.toList) →
      Declaration.readAlternative (b ++ (cs ++ b')) = .ok ws
        ∧ '|' ∉ b ++ (cs ++ b') := by
    intro ws b cs b' hb h hb' hws
    have hbar := h.notMem (fun _ hb => hb.notMem.1) fun w hw => (hws w hw).2
    refine ⟨readAlternative_of_laid hb h hb' fun w hw => (hws w hw).1, ?_⟩
    simp only [List.mem_append, not_or]
    exact ⟨hb.notMem.1, hbar, hb'.notMem.1⟩
  induction h with
  | single hb h hb' =>
      obtain ⟨hread, hbar⟩ := hpiece hb h hb' (hwords _ (List.mem_singleton.mpr rfl))
      rw [List.splitOn_eq_singleton hbar, List.mapM_cons, hread]
      rfl
  | cons hb h hb' _ ih =>
      obtain ⟨hws, hrest⟩ := List.forall_mem_cons.mp hwords
      obtain ⟨hread, hbar⟩ := hpiece hb h hb' hws
      rw [List.splitOn_append_cons_self_of_not_mem hbar, List.mapM_cons, hread, ih hrest]
      rfl

/-- Blanks may be put before laid out alternatives. -/
lemma AlternativesLaid.pad_left {alternatives : List (List String)} {b cs : List Char}
    (hb : Blanks b) (h : AlternativesLaid alternatives cs) :
    AlternativesLaid alternatives (b ++ cs) := by
  cases h with
  | single hb₁ h hb' =>
      rw [← List.append_assoc]
      exact .single (hb.append hb₁) h hb'
  | cons hb₁ h hb' hrest =>
      rw [← List.append_assoc, ← List.append_assoc b]
      exact .cons (hb.append hb₁) h hb' hrest

/-- Blanks may be put behind laid out alternatives. -/
lemma AlternativesLaid.pad_right {alternatives : List (List String)} {cs b : List Char}
    (h : AlternativesLaid alternatives cs) (hb : Blanks b) :
    AlternativesLaid alternatives (cs ++ b) := by
  induction h with
  | single hb₁ h hb' =>
      rw [List.append_assoc, List.append_assoc]
      exact .single hb₁ h (hb'.append hb)
  | cons hb₁ h hb' _ ih =>
      rw [List.append_assoc, List.cons_append]
      exact .cons hb₁ h hb' ih

/-- Within laid out alternatives the blanks at the two ends may be left out. -/
lemma AlternativesLaid.tighten {alternatives : List (List String)} {cs : List Char}
    (h : AlternativesLaid alternatives cs)
    (hwords : ∀ ws ∈ alternatives, ∀ w ∈ ws, IsWord w.toList) :
    ∃ b cs' b', cs = b ++ (cs' ++ b') ∧ Blanks b ∧ Blanks b' ∧ Tight cs'
      ∧ AlternativesLaid alternatives cs' := by
  induction h with
  | @single ws b cs b' hb h hb' =>
      have htight := h.tight (hwords _ (List.mem_singleton.mpr rfl))
      have hlaid : AlternativesLaid [ws] ([] ++ (cs ++ [])) := .single .nil h .nil
      rw [List.nil_append, List.append_nil] at hlaid
      exact ⟨b, cs, b', rfl, hb, hb', htight, hlaid⟩
  | @cons ws b cs b' alternatives rest hb h hb' _ ih =>
      obtain ⟨hws, hrest⟩ := List.forall_mem_cons.mp hwords
      obtain ⟨b₁, rest', b₂, rfl, hb₁, hb₂, htight, hlaid⟩ := ih hrest
      have hall : AlternativesLaid (ws :: alternatives)
          (([] ++ (cs ++ b')) ++ '|' :: (b₁ ++ rest')) :=
        .cons .nil h hb' (hlaid.pad_left hb₁)
      refine ⟨b, cs ++ ((b' ++ '|' :: b₁) ++ rest'), b₂, by simp, hb, hb₂, ?_, ?_⟩
      · exact (h.tight hws).append htight _
      · simpa using hall

end Text

namespace Declaration

variable {decl : Declaration} {decls : List Declaration} {line : List Char}

/-! ### Lines -/

/-- Blanks may be put behind a declaration. -/
lemma Laid.pad_right (h : decl.Laid line) {b : List Char} (hb : Blanks b) :
    decl.Laid (line ++ b) := by
  obtain ⟨b₁, b₂, arrow, rest, hb₁, hb₂, harrow, hrest, rfl⟩ := h
  exact ⟨b₁, b₂, arrow, rest ++ b, hb₁, hb₂, harrow, hrest.pad_right hb, by simp⟩

/-- A declaration stays on one line. -/
lemma Laid.notMem (h : decl.Laid line) (hdecl : decl.Writable) : '\n' ∉ line := by
  obtain ⟨b₁, b₂, arrow, rest, hb₁, hb₂, harrow, hrest, rfl⟩ := h
  have hblank : isBlank '\n' = true := by decide
  have hlhs : '\n' ∉ decl.lhs.toList := fun hmem => by
    simpa [hblank] using hdecl.lhs.2.1 _ hmem
  have harrow' : ∀ arrow ∈ arrows, '\n' ∉ arrow := by decide
  have halts := hrest.notMem fun ws hws w hw hmem => by
    simpa [hblank] using ((hdecl.words ws hws).2 w hw).1.isBlank _ hmem
  simp only [List.mem_append, not_or]
  exact ⟨hb₁.notMem.2, hlhs, hb₂.notMem.2, harrow' arrow harrow, halts⟩

/-- **A declaration laid out on a line is read back.** -/
theorem ofLine_of_laid (h : decl.Laid line) (hdecl : decl.Writable) :
    ofLine line = .ok (some decl) := by
  obtain ⟨b₁, b₂, arrow, rest, hb₁, hb₂, harrow, hrest, rfl⟩ := h
  have hwords : ∀ ws ∈ decl.alternatives, ∀ w ∈ ws, IsWord w.toList ∧ '|' ∉ w.toList :=
    fun ws hws => (hdecl.words ws hws).2
  obtain ⟨b₃, rest', b₄, rfl, hb₃, hb₄, htight, hlaid⟩ :=
    hrest.tighten fun ws hws w hw => (hwords ws hws w hw).1
  -- trimming the line leaves the blanks within it
  have hline : trim (b₁ ++ (decl.lhs.toList ++ (b₂ ++ (arrow ++ (b₃ ++ (rest' ++ b₄))))))
      = (decl.lhs.toList ++ b₂) ++ (arrow ++ (b₃ ++ rest')) := by
    have htrim := trim_of_tight hb₁ (hdecl.lhs.tight.append htight (b₂ ++ (arrow ++ b₃))) hb₄
    simpa only [List.append_assoc] using htrim
  have harrows : NoArrow (decl.lhs.toList ++ b₂) :=
    hdecl.lhs.2.2.1.append hb₂.noArrow hb₂.not_begins
  have hlhs : trim (decl.lhs.toList ++ b₂) = decl.lhs.toList :=
    trim_of_tight Blanks.nil hdecl.lhs.tight hb₂
  have hright : trim (b₃ ++ rest') = rest' := by
    have htrim := trim_of_tight hb₃ htight Blanks.nil
    rwa [List.append_nil] at htrim
  have hgood : isBadLhs decl.lhs.toList = false :=
    isBadLhs_eq_false_iff.mpr ⟨hdecl.lhs.1, hdecl.lhs.2.1, hdecl.lhs.2.2.2⟩
  have hne : rest' ≠ [] := htight.1
  rw [ofLine, hline, if_neg (by simp [hdecl.lhs.1]), splitArrow_append harrows harrow]
  simp only [hlhs, hgood, hright, Bool.false_eq_true, if_false, List.isEmpty_iff, hne]
  rw [mapM_of_laid hlaid hwords]
  simp [bind, Except.bind, pure, Except.pure]

/-! ### Texts -/

lemma ofLine_blanks (hb : Blanks line) : ofLine line = .ok none := by
  rw [ofLine, trim_blanks hb]
  rfl

/-- A line with its end is cut off the text; what comes before the line feed differs from
the line by blanks. -/
lemma splitOn_lineEnd {e : List Char} (he : e ∈ lineEnds) (hline : '\n' ∉ line)
    (cs : List Char) :
    ∃ b, Blanks b ∧ (line ++ (e ++ cs)).splitOn '\n' = (line ++ b) :: cs.splitOn '\n' := by
  have hcases : e = ['\n'] ∨ e = ['\r', '\n'] := by simpa [lineEnds] using he
  obtain rfl | rfl := hcases
  · refine ⟨[], .nil, ?_⟩
    rw [List.append_nil]
    exact List.splitOn_append_cons_self_of_not_mem hline cs
  · refine ⟨['\r'], by decide, ?_⟩
    have hreturn : '\n' ∉ line ++ ['\r'] := by simp [hline]
    have hsplit := List.splitOn_append_cons_self_of_not_mem hreturn cs
    rwa [List.append_assoc] at hsplit

/-- **Declarations laid out as text are read back.** -/
theorem ofLines_of_laid {cs : List Char} (h : Text.Laid decls cs)
    (hdecls : ∀ decl ∈ decls, decl.Writable) (number : Nat) :
    ofLines number (cs.splitOn '\n') = .ok decls := by
  induction h generalizing number with
  | done hb =>
      rw [List.splitOn_eq_singleton hb.notMem.2, ofLines, ofLine_blanks hb]
      rfl
  | last h =>
      have hdecl := hdecls _ (List.mem_singleton.mpr rfl)
      rw [List.splitOn_eq_singleton (h.notMem hdecl), ofLines, ofLine_of_laid h hdecl]
      rfl
  | @blank line e decls cs hb he _ ih =>
      obtain ⟨b, hb', hsplit⟩ := splitOn_lineEnd he hb.notMem.2 cs
      rw [hsplit, ofLines, ofLine_blanks (hb.append hb')]
      exact ih hdecls (number + 1)
  | @cons decl line e decls cs h he _ ih =>
      obtain ⟨hdecl, hrest⟩ := List.forall_mem_cons.mp hdecls
      obtain ⟨b, hb', hsplit⟩ := splitOn_lineEnd he (h.notMem hdecl) cs
      rw [hsplit, ofLines, ofLine_of_laid (h.pad_right hb') hdecl]
      simp only [ih hrest (number + 1)]
      rfl

end Declaration

/-- Loading a text in which writable declarations are laid out is building from them. -/
lemma Grammar.load_eq_ofDeclarations {decls : List Declaration} {text : String}
    (h : Text.Laid decls text.toList) (hdecls : ∀ decl ∈ decls, decl.Writable) :
    Grammar.load text = Grammar.ofDeclarations decls := by
  rw [load, Declaration.ofText, Declaration.ofLines_of_laid h hdecls]
  rfl

/-- Something that is declared can be built. -/
lemma Grammar.exists_ofDeclarations {decls : List Declaration} (hne : decls ≠ []) :
    ∃ g, Grammar.ofDeclarations decls = .ok g :=
  ⟨_, dif_neg (Draft.nonterminals_ofDeclarations_ne_nil hne)⟩

/-- **Loading agrees with building on every layout.** Writable declarations, at least one
of them, may be laid out as text in any way: then loading the text succeeds, and gives the
same grammar as building from the declarations. -/
theorem Grammar.load_of_laid (decls : List Declaration) (hne : decls ≠ [])
    (hdecls : ∀ decl ∈ decls, decl.Writable) (text : String)
    (h : Text.Laid decls text.toList) :
    ∃ g, Grammar.load text = .ok g ∧ Grammar.ofDeclarations decls = .ok g := by
  obtain ⟨g, hg⟩ := exists_ofDeclarations hne
  exact ⟨g, (load_eq_ofDeclarations h hdecls).trans hg, hg⟩

/-- Two declarations, of which the first has a left-hand side that ends like an arrow
begins. -/
def Declaration.dashed : List Declaration :=
  [⟨"a-", [["x", "+"], ["ε"]]⟩, ⟨"B", [["id>", "(", "É"]]⟩]

/-- The two declarations with odd blanks, both arrows and both line ends. -/
def Text.dashed : String := "\t a-->x\u00a0 +|ε \r\n \x0b\n\u3000B → id>  ( É"

/-- The odd layout is one. -/
lemma Text.laid_dashed : Text.Laid Declaration.dashed Text.dashed.toList := by
  have hfirst : Declaration.Laid ⟨"a-", [["x", "+"], ["ε"]]⟩ "\t a-->x\u00a0 +|ε ".toList := by
    refine ⟨['\t', ' '], [], ['-', '>'], "x\u00a0 +|ε ".toList, by decide, by decide, by decide,
      ?_, rfl⟩
    have hwords : WordsLaid ["x", "+"] "x\u00a0 +".toList :=
      .cons (show Blanks ['\u00a0', ' '] by decide) (by decide) (.single "+")
    have hlast : AlternativesLaid [["ε"]] "ε ".toList :=
      .single Blanks.nil (.single "ε") (show Blanks [' '] by decide)
    exact .cons Blanks.nil hwords Blanks.nil hlast
  have hsecond : Declaration.Laid ⟨"B", [["id>", "(", "É"]]⟩ "\u3000B → id>  ( É".toList := by
    refine ⟨['\u3000'], [' '], ['→'], " id>  ( É".toList, by decide, by decide, by decide, ?_, rfl⟩
    have hwords : WordsLaid ["id>", "(", "É"] "id>  ( É".toList :=
      .cons (show Blanks [' ', ' '] by decide) (by decide)
        (.cons (show Blanks [' '] by decide) (by decide) (.single "É"))
    exact .single (show Blanks [' '] by decide) hwords Blanks.nil
  have hrest : Text.Laid [⟨"B", [["id>", "(", "É"]]⟩] " \x0b\n\u3000B → id>  ( É".toList :=
    .blank (show Blanks [' ', '\x0b'] by decide) (show ['\n'] ∈ lineEnds by decide)
      (.last hsecond)
  exact .cons hfirst (show ['\r', '\n'] ∈ lineEnds by decide) hrest

theorem Grammar.load_of_laid_dashed :
    Text.Laid Declaration.dashed Text.dashed.toList
      ∧ ∃ g, Grammar.load Text.dashed = .ok g
          ∧ Grammar.ofDeclarations Declaration.dashed = .ok g := by
  refine ⟨Text.laid_dashed, Grammar.load_of_laid Declaration.dashed (by decide) ?_ Text.dashed
    Text.laid_dashed⟩
  have hfirst : Declaration.Writable ⟨"a-", [["x", "+"], ["ε"]]⟩ :=
    ⟨by decide, by decide, by decide⟩
  have hsecond : Declaration.Writable ⟨"B", [["id>", "(", "É"]]⟩ :=
    ⟨by decide, by decide, by decide⟩
  simpa [Declaration.dashed] using And.intro hfirst hsecond

end TopDown
