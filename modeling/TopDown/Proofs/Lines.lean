import Mathlib.Data.List.Forall2
import Mathlib.Data.List.TakeWhile
import TopDown.Proofs.Layout

/-!
Which texts declare a grammar, and what is reported of the others.

* `Text.AllBlank`: a text with nothing in it but blanks; `Text.trim_eq_nil_iff`.
* `Text.lines`: the lines of a text, without their ends.
* `Text.Cut`: a line and the two parts around its leftmost arrow.
* `Text.WellFormed`, `Text.Fault`: what a line that is not blank has to be, and the first
  thing that is wrong with it if it is not.
* `Declaration.ofLine_of_fault`, `Declaration.ofLine_of_wellFormed`,
  `Text.exists_fault`: reading a line finds what is wrong first, and nothing is
  wrong with any other line.
* `Declaration.ofLines_lines`: cutting off the line ends makes no difference.
* `Declaration.ofLines_of_error`, `Declaration.exists_ofLines`: the same for a list of
  lines, of which the first that cannot be read decides.
* `Text.FirstIllFormed`, `Grammar.load_of_firstIllFormed`: the line that decides for a text.
* `Grammar.load_by_lines`: which texts are accepted, and which error the others get.
-/

namespace TopDown

namespace Text

/-! ### Blank texts and trimming -/

/-- The text holds nothing but blanks. -/
def AllBlank (cs : List Char) : Prop := ∀ c ∈ cs, isBlank c = true

instance (cs : List Char) : Decidable (AllBlank cs) :=
  decidable_of_iff (cs.all isBlank = true) List.all_eq_true

lemma allBlank_cons {c : Char} {cs : List Char} :
    AllBlank (c :: cs) ↔ isBlank c = true ∧ AllBlank cs := List.forall_mem_cons

/-- Trimming takes blanks from the two ends. -/
lemma exists_trim (cs : List Char) :
    ∃ b b', cs = b ++ (trim cs ++ b') ∧ AllBlank b ∧ AllBlank b' := by
  refine ⟨cs.takeWhile isBlank, ((cs.dropWhile isBlank).reverse.takeWhile isBlank).reverse,
    ?_, fun c hc => List.mem_takeWhile_imp hc, fun c hc => ?_⟩
  · rw [trim, ← List.reverse_append, List.takeWhile_append_dropWhile, List.reverse_reverse,
      List.takeWhile_append_dropWhile]
  · exact List.mem_takeWhile_imp (List.mem_reverse.mp hc)

/-- Nothing is left exactly of texts with nothing but blanks. -/
lemma trim_eq_nil_iff {cs : List Char} : trim cs = [] ↔ AllBlank cs := by
  constructor
  · intro h
    obtain ⟨b, b', hcs, hb, hb'⟩ := exists_trim cs
    rw [h, List.nil_append] at hcs
    rw [hcs]
    exact List.forall_mem_append.mpr ⟨hb, hb'⟩
  · intro h
    rw [trim, List.dropWhile_eq_nil_iff.mpr h]
    rfl

/-- A blank at the end makes no difference to trimming. -/
lemma trim_concat {c : Char} (hc : isBlank c = true) (cs : List Char) :
    trim (cs ++ [c]) = trim cs := by
  rw [trim, trim, List.dropWhile_append]
  split
  · next hempty =>
      rw [List.isEmpty_iff.mp hempty, List.dropWhile_cons_of_pos hc]
      rfl
  · rw [List.reverse_append, List.reverse_singleton, List.singleton_append,
      List.dropWhile_cons_of_pos hc]

/-! ### Lines -/

/-- A line without one carriage return at its end. -/
def withoutReturn (line : List Char) : List Char :=
  if line.getLast? = some '\r' then line.dropLast else line

/-- The lines of a text. Each ends at a line feed, which is not part of it, and neither is
one carriage return right before it. Behind the last line feed there is a line only if
there is any text. -/
def lines (cs : List Char) : List (List Char) :=
  (cs.splitOn '\n').dropLast.map withoutReturn
    ++ (cs.splitOn '\n').getLast?.toList.filter fun line => !line.isEmpty

lemma trim_withoutReturn (line : List Char) : trim (withoutReturn line) = trim line := by
  rw [withoutReturn]
  split
  · next h =>
      obtain ⟨rest, rfl⟩ := List.getLast?_eq_some_iff.mp h
      rw [List.dropLast_concat, trim_concat (by decide)]
  · rfl

/-! ### Arrows -/

/-- A line is not cut exactly if it has no arrow. -/
lemma splitArrow_eq_none_iff {cs : List Char} : splitArrow cs = none ↔ NoArrow cs := by
  constructor
  · intro h
    fun_induction splitArrow cs with
    | case1 => decide
    | case2 => cases h
    | case3 => cases h
    | case4 c cs hnext hc ih =>
        refine noArrow_cons.mpr ⟨hc, ?_, ih (Option.map_eq_none_iff.mp h)⟩
        rintro ⟨rfl, rest, rfl⟩
        exact hnext _ rfl rfl
  · intro h
    by_contra hsome
    obtain ⟨⟨left, right⟩, hsplit⟩ := Option.ne_none_iff_exists'.mp hsome
    obtain ⟨_, arrow, harrow, rfl⟩ := splitArrow_eq_some_iff.mp hsplit
    have hcases : arrow = ['-', '>'] ∨ arrow = ['→'] := by simpa [arrows] using harrow
    obtain rfl | rfl := hcases
    · exact h.1 ⟨left, right, by simp⟩
    · exact h.2 (by simp)

/-! ### What a line has to be -/

/-- The parts of a line before and behind its leftmost arrow, in either spelling. -/
def Cut (line left right : List Char) : Prop :=
  NoArrow left ∧ ∃ arrow ∈ arrows, trim line = left ++ (arrow ++ right)

/-- A text that can be declared: it is not empty, holds no blank, and does not spell the
empty string. -/
def Declarable (lhs : List Char) : Prop :=
  lhs ≠ [] ∧ (∀ c ∈ lhs, isBlank c = false) ∧ isEpsilon (String.ofList lhs) = false

instance (lhs : List Char) : Decidable (Declarable lhs) :=
  decidable_of_iff (lhs ≠ [] ∧ (lhs.all fun c => !isBlank c) = true
    ∧ isEpsilon (String.ofList lhs) = false) (by simp [Declarable])

/-- The line has an arrow; the part before its leftmost one, trimmed, can be declared; and
behind it there is no blank piece between the bars. -/
def WellFormed (line : List Char) : Prop :=
  ∃ left right, Cut line left right ∧ Declarable (trim left)
    ∧ ∀ piece ∈ right.splitOn '|', ¬ AllBlank piece

instance (line : List Char) : Decidable (WellFormed line) :=
  decidable_of_iff (∃ parts ∈ splitArrow (trim line), Declarable (trim parts.1)
      ∧ ∀ piece ∈ parts.2.splitOn '|', ¬ AllBlank piece) <| by
    simp only [WellFormed, Cut, ← splitArrow_eq_some_iff, Option.mem_def, Prod.exists]

/-- The first thing that is wrong with a line which is not blank. -/
inductive Fault (line : List Char) : FormatError.Cause → Prop
  | missingSeparator (harrow : NoArrow (trim line)) : Fault line .missingSeparator
  | invalidLhs {left right : List Char} (hcut : Cut line left right)
      (hlhs : ¬ Declarable (trim left)) :
      Fault line (.invalidLhs (String.ofList (trim left)))
  | missingAlternatives {left right : List Char} (hcut : Cut line left right)
      (hlhs : Declarable (trim left)) (hright : AllBlank right) :
      Fault line .missingAlternatives
  | emptyAlternative {left right : List Char} (hcut : Cut line left right)
      (hlhs : Declarable (trim left)) (hright : ¬ AllBlank right)
      (hpiece : ∃ piece ∈ right.splitOn '|', AllBlank piece) :
      Fault line .emptyAlternative

/-- A line that is neither blank nor well-formed has a fault. -/
lemma exists_fault {line : List Char} (h : ¬ WellFormed line) : ∃ cause, Fault line cause := by
  cases hsplit : splitArrow (trim line) with
  | none => exact ⟨_, .missingSeparator (splitArrow_eq_none_iff.mp hsplit)⟩
  | some parts =>
      obtain ⟨left, right⟩ := parts
      have hcut : Cut line left right := splitArrow_eq_some_iff.mp hsplit
      by_cases hlhs : Declarable (trim left)
      · by_cases hright : AllBlank right
        · exact ⟨_, .missingAlternatives hcut hlhs hright⟩
        · by_cases hpiece : ∃ piece ∈ right.splitOn '|', AllBlank piece
          · exact ⟨_, .emptyAlternative hcut hlhs hright hpiece⟩
          · refine absurd ⟨left, right, hcut, hlhs, fun piece hmem hblank => ?_⟩ h
            exact hpiece ⟨piece, hmem, hblank⟩
      · exact ⟨_, .invalidLhs hcut hlhs⟩

/-! ### Pieces between bars -/

lemma AllBlank.bar_notMem {b : List Char} (hb : AllBlank b) : '|' ∉ b :=
  fun hmem => absurd (hb _ hmem) (by decide)

/-- Pieces are equally blank if the first ones still are after a change to them. -/
lemma forall₂_modifyHead {f f' : List Char → List Char} {l l' : List (List Char)}
    (hf : ∀ p q, (AllBlank p ↔ AllBlank q) → (AllBlank (f p) ↔ AllBlank (f' q)))
    (h : List.Forall₂ (fun p q => AllBlank p ↔ AllBlank q) l l') :
    List.Forall₂ (fun p q => AllBlank p ↔ AllBlank q) (l.modifyHead f) (l'.modifyHead f') := by
  cases h with
  | nil => exact .nil
  | cons hhead htail => exact .cons (hf _ _ hhead) htail

/-- Blanks before a text do not change which of its pieces are blank. -/
lemma splitOn_blank_append {b : List Char} (hb : AllBlank b) (cs : List Char) :
    List.Forall₂ (fun p q => AllBlank p ↔ AllBlank q) (cs.splitOn '|')
      ((b ++ cs).splitOn '|') := by
  induction b with
  | nil => exact List.forall₂_same.mpr fun _ _ => Iff.rfl
  | cons c b ih =>
      have hbar : ¬ (c == '|') = true := fun e => hb.bar_notMem (by simp [beq_iff_eq.mp e])
      obtain ⟨hc, hb⟩ := allBlank_cons.mp hb
      have hid : (cs.splitOn '|').modifyHead id = cs.splitOn '|' :=
        congrFun List.modifyHead_id _
      rw [List.cons_append, List.splitOn_cons_eq_if_modifyHead, if_neg hbar, ← hid]
      exact forall₂_modifyHead (fun p q h => h.trans (allBlank_cons.trans
        (and_iff_right hc)).symm) (ih hb)

/-- Nor do blanks behind it. -/
lemma splitOn_append_blank {b : List Char} (hb : AllBlank b) (cs : List Char) :
    List.Forall₂ (fun p q => AllBlank p ↔ AllBlank q) (cs.splitOn '|')
      ((cs ++ b).splitOn '|') := by
  induction cs with
  | nil =>
      rw [List.nil_append, List.splitOn_nil, List.splitOn_eq_singleton hb.bar_notMem]
      exact .cons (iff_of_true (List.forall_mem_nil _) hb) .nil
  | cons c cs ih =>
      rw [List.cons_append, List.splitOn_cons_eq_if_modifyHead,
        List.splitOn_cons_eq_if_modifyHead]
      split
      · exact .cons Iff.rfl ih
      · refine forall₂_modifyHead (fun p q h => ?_) ih
        rw [allBlank_cons, allBlank_cons, h]

lemma exists_blank_iff {l l' : List (List Char)}
    (h : List.Forall₂ (fun p q => AllBlank p ↔ AllBlank q) l l') :
    (∃ piece ∈ l, AllBlank piece) ↔ ∃ piece ∈ l', AllBlank piece := by
  induction h with
  | nil => exact Iff.rfl
  | cons hhead _ ih => rw [List.exists_mem_cons_iff, List.exists_mem_cons_iff, hhead, ih]

/-- **Trimming makes no piece blank** that is not, and no other way around. -/
theorem exists_blank_trim_iff {cs : List Char} :
    (∃ piece ∈ (trim cs).splitOn '|', AllBlank piece)
      ↔ ∃ piece ∈ cs.splitOn '|', AllBlank piece := by
  obtain ⟨b, b', hcs, hb, hb'⟩ := exists_trim cs
  have hleft := exists_blank_iff (splitOn_blank_append hb (trim cs ++ b'))
  have hright := exists_blank_iff (splitOn_append_blank hb' (trim cs))
  rw [← hcs] at hleft
  exact hright.trans hleft

end Text

open Text

namespace Declaration

variable {line : List Char} {cause : FormatError.Cause}

/-! ### Reading a line -/

/-- Alternatives are not read if one of them is blank. -/
lemma mapM_of_blank {pieces : List (List Char)} (h : ∃ piece ∈ pieces, AllBlank piece) :
    pieces.mapM readAlternative = .error .emptyAlternative := by
  induction pieces with
  | nil => simp at h
  | cons piece pieces ih =>
      rw [List.mapM_cons]
      by_cases hpiece : AllBlank piece
      · rw [readAlternative, if_pos (by rw [trim_eq_nil_iff.mpr hpiece]; rfl)]
        rfl
      · rw [readAlternative, if_neg (by rwa [List.isEmpty_iff, trim_eq_nil_iff]),
          ih ((List.exists_mem_cons_iff ..).mp h |>.resolve_left hpiece)]
        rfl

/-- Alternatives are read if none of them is blank. -/
lemma exists_mapM {pieces : List (List Char)} (h : ∀ piece ∈ pieces, ¬ AllBlank piece) :
    ∃ alternatives, pieces.mapM readAlternative = .ok alternatives := by
  induction pieces with
  | nil => exact ⟨[], rfl⟩
  | cons piece pieces ih =>
      obtain ⟨hpiece, hpieces⟩ := List.forall_mem_cons.mp h
      obtain ⟨alternatives, hread⟩ := ih hpieces
      rw [List.mapM_cons, readAlternative,
        if_neg (by rwa [List.isEmpty_iff, trim_eq_nil_iff]), hread]
      exact ⟨_, rfl⟩

/-- A line without anything but blanks declares nothing. -/
lemma ofLine_of_allBlank (h : AllBlank line) : ofLine line = .ok none := by
  rw [ofLine, trim_eq_nil_iff.mpr h]
  rfl

/-- **Reading a line finds the first thing that is wrong with it.** -/
theorem ofLine_of_fault (hline : ¬ AllBlank line) (h : Fault line cause) :
    ofLine line = .error cause := by
  have hne : ¬ (trim line).isEmpty = true := by rwa [List.isEmpty_iff, trim_eq_nil_iff]
  rw [ofLine, if_neg hne]
  cases h with
  | missingSeparator harrow => rw [splitArrow_eq_none_iff.mpr harrow]
  | invalidLhs hcut hlhs =>
      rw [splitArrow_eq_some_iff.mpr hcut]
      exact if_pos (Bool.of_not_eq_false fun e => hlhs (isBadLhs_eq_false_iff.mp e))
  | missingAlternatives hcut hlhs hright =>
      rw [splitArrow_eq_some_iff.mpr hcut]
      simp only [isBadLhs_eq_false_iff.mpr hlhs, trim_eq_nil_iff.mpr hright]
      rfl
  | emptyAlternative hcut hlhs hright hpiece =>
      rw [splitArrow_eq_some_iff.mpr hcut]
      simp only [isBadLhs_eq_false_iff.mpr hlhs, List.isEmpty_iff, trim_eq_nil_iff, hright,
        mapM_of_blank (exists_blank_trim_iff.mpr hpiece)]
      rfl

/-- **A well-formed line is read.** -/
theorem ofLine_of_wellFormed (h : WellFormed line) : ∃ decl, ofLine line = .ok (some decl) := by
  obtain ⟨left, right, hcut, hlhs, hpieces⟩ := h
  have hne : trim line ≠ [] := by
    obtain ⟨_, arrow, harrow, hline⟩ := hcut
    have harrow' : ∀ arrow ∈ arrows, arrow ≠ [] := by decide
    simp [hline, harrow' arrow harrow]
  have hright : ¬ AllBlank right := fun hblank =>
    hpieces right (by simp [List.splitOn_eq_singleton hblank.bar_notMem]) hblank
  have htrimmed : ∀ piece ∈ (trim right).splitOn '|', ¬ AllBlank piece := by
    intro piece hpiece hblank
    obtain ⟨piece', hpiece', hblank'⟩ := exists_blank_trim_iff.mp ⟨piece, hpiece, hblank⟩
    exact hpieces piece' hpiece' hblank'
  obtain ⟨alternatives, hread⟩ := exists_mapM htrimmed
  refine ⟨⟨String.ofList (trim left), alternatives⟩, ?_⟩
  rw [ofLine, if_neg (by rwa [List.isEmpty_iff]), splitArrow_eq_some_iff.mpr hcut]
  simp only [isBadLhs_eq_false_iff.mpr hlhs, List.isEmpty_iff, trim_eq_nil_iff, hright, hread]
  rfl

/-! ### Reading lines -/

/-- Reading a line gives an error exactly if the line is neither blank nor well-formed. -/
lemma exists_ofLine_iff : (∃ decl, ofLine line = .ok decl) ↔ AllBlank line ∨ WellFormed line := by
  constructor
  · rintro ⟨decl, hread⟩
    by_contra hill
    obtain ⟨hline, hformed⟩ := not_or.mp hill
    obtain ⟨cause, hfault⟩ := exists_fault hformed
    cases (ofLine_of_fault hline hfault).symm.trans hread
  · rintro (hline | hformed)
    · exact ⟨none, ofLine_of_allBlank hline⟩
    · obtain ⟨decl, hread⟩ := ofLine_of_wellFormed hformed
      exact ⟨some decl, hread⟩

/-- The first line that cannot be read decides. -/
lemma ofLines_of_error {before after : List (List Char)}
    (h : ∀ line ∈ before, AllBlank line ∨ WellFormed line) (hline : ofLine line = .error cause)
    (number : Nat) :
    ofLines number (before ++ line :: after)
      = .error ⟨cause, some (number + before.length)⟩ := by
  induction before generalizing number with
  | nil =>
      rw [List.nil_append, ofLines, hline]
      rfl
  | cons first before ih =>
      obtain ⟨hfirst, hbefore⟩ := List.forall_mem_cons.mp h
      have hrest := ih hbefore (number + 1)
      rw [Nat.add_assoc, Nat.add_comm 1] at hrest
      obtain ⟨decl, hread⟩ := exists_ofLine_iff.mpr hfirst
      rw [List.cons_append, ofLines, hread]
      cases decl with
      | none => exact hrest
      | some decl =>
          simp only [hrest]
          rfl

/-- Lines that are blank or well-formed are read, and declare something unless all are
blank. -/
lemma exists_ofLines {ls : List (List Char)}
    (h : ∀ line ∈ ls, AllBlank line ∨ WellFormed line) (number : Nat) :
    ∃ decls, ofLines number ls = .ok decls ∧ (decls = [] ↔ ∀ line ∈ ls, AllBlank line) := by
  induction ls generalizing number with
  | nil => exact ⟨[], rfl, by simp⟩
  | cons line ls ih =>
      obtain ⟨hline, hls⟩ := List.forall_mem_cons.mp h
      obtain ⟨decls, hread, hempty⟩ := ih hls (number + 1)
      rw [ofLines]
      by_cases hblank : AllBlank line
      · refine ⟨decls, ?_, ?_⟩
        · rw [ofLine_of_allBlank hblank]
          exact hread
        · rw [List.forall_mem_cons, and_iff_right hblank, hempty]
      · obtain ⟨decl, hdecl⟩ := ofLine_of_wellFormed (hline.resolve_left hblank)
        refine ⟨decl :: decls, ?_, ?_⟩
        · rw [hdecl]
          simp only [hread]
          rfl
        · exact iff_of_false (List.cons_ne_nil _ _) fun hall => hblank (hall _ List.mem_cons_self)

/-- A carriage return at the end of a line makes no difference. -/
lemma ofLine_withoutReturn (line : List Char) : ofLine (withoutReturn line) = ofLine line := by
  rw [ofLine, ofLine, trim_withoutReturn]

/-- Nor do carriage returns at the ends of lines. -/
lemma ofLines_map_withoutReturn (number : Nat) (ls rest : List (List Char)) :
    ofLines number (ls.map withoutReturn ++ rest) = ofLines number (ls ++ rest) := by
  induction ls generalizing number with
  | nil => rfl
  | cons line ls ih =>
      rw [List.map_cons, List.cons_append, List.cons_append, ofLines, ofLines,
        ofLine_withoutReturn, ih]

/-- An empty line at the end makes no difference. -/
lemma ofLines_concat_nil (number : Nat) (ls : List (List Char)) :
    ofLines number (ls ++ [[]]) = ofLines number ls := by
  induction ls generalizing number with
  | nil => rfl
  | cons line ls ih => rw [List.cons_append, ofLines, ofLines, ih]

/-- **Cutting off the line ends makes no difference**, nor does leaving out what is behind
the last one if that is nothing. -/
theorem ofLines_lines (number : Nat) (cs : List Char) :
    ofLines number (lines cs) = ofLines number (cs.splitOn '\n') := by
  obtain ⟨init, last, hsplit⟩ : ∃ init last, cs.splitOn '\n' = init ++ [last] :=
    ⟨_, _, (List.dropLast_concat_getLast (List.splitOn_ne_nil '\n' cs)).symm⟩
  rw [lines, ofLines_map_withoutReturn, hsplit, List.dropLast_concat, List.getLast?_concat,
    Option.toList_some]
  cases last with
  | nil => rw [ofLines_concat_nil, List.filter_cons_of_neg (by simp), List.filter_nil,
      List.append_nil]
  | cons c last => rfl

end Declaration

/-! ### Loading -/

/-- The first of the lines that is neither blank nor well-formed, behind the lines
`before`. -/
structure Text.FirstIllFormed (ls before : List (List Char)) (line : List Char) : Prop where
  begins : before ++ [line] <+: ls
  fine : ∀ earlier ∈ before, AllBlank earlier ∨ WellFormed earlier
  notBlank : ¬ AllBlank line
  notWellFormed : ¬ WellFormed line

/-- If not all lines are blank or well-formed, there is a first that is not. -/
lemma Text.exists_firstIllFormed {ls : List (List Char)}
    (h : ¬ ∀ line ∈ ls, AllBlank line ∨ WellFormed line) :
    ∃ before line, FirstIllFormed ls before line := by
  induction ls with
  | nil => exact absurd (List.forall_mem_nil _) h
  | cons first ls ih =>
      by_cases hfirst : AllBlank first ∨ WellFormed first
      · obtain ⟨before, line, hbegins, hfine, hblank, hformed⟩ :=
          ih fun hls => h (List.forall_mem_cons.mpr ⟨hfirst, hls⟩)
        exact ⟨first :: before, line, List.cons_prefix_cons.mpr ⟨rfl, hbegins⟩,
          List.forall_mem_cons.mpr ⟨hfirst, hfine⟩, hblank, hformed⟩
      · obtain ⟨hblank, hformed⟩ := not_or.mp hfirst
        exact ⟨[], first, List.cons_prefix_cons.mpr ⟨rfl, List.nil_prefix⟩,
          List.forall_mem_nil _, hblank, hformed⟩

namespace Grammar

variable {text : String}

/-- Loading a text reads its lines. -/
lemma load_eq_ofLines (text : String) :
    load text = Declaration.ofLines 1 (lines text.toList) >>= ofDeclarations := by
  rw [load, Declaration.ofText, Declaration.ofLines_lines]

/-- Lines that are blank or well-formed make a grammar, unless all are blank. -/
lemma load_of_lines (h : ∀ line ∈ lines text.toList, AllBlank line ∨ WellFormed line) :
    (∀ line ∈ lines text.toList, AllBlank line) ∧ load text = .error ⟨.emptyGrammar, none⟩
      ∨ (∃ line ∈ lines text.toList, ¬ AllBlank line) ∧ ∃ g, load text = .ok g := by
  obtain ⟨decls, hread, hempty⟩ := Declaration.exists_ofLines h 1
  rw [load_eq_ofLines, hread]
  by_cases hdecls : decls = []
  · exact .inl ⟨hempty.mp hdecls, by rw [hdecls]; rfl⟩
  · refine .inr ⟨by simpa using fun hall => hdecls (hempty.mpr hall), ?_⟩
    exact exists_ofDeclarations hdecls

/-- **The first ill-formed line decides**, whatever comes after it. -/
theorem load_of_firstIllFormed {before : List (List Char)} {line : List Char}
    {cause : FormatError.Cause} (h : FirstIllFormed (lines text.toList) before line)
    (hfault : Fault line cause) :
    load text = .error ⟨cause, some (before.length + 1)⟩ := by
  obtain ⟨⟨after, hlines⟩, hfine, hline, _⟩ := h
  have hread : Declaration.ofLines 1 (before ++ line :: after) = _ :=
    Declaration.ofLines_of_error hfine (Declaration.ofLine_of_fault hline hfault) 1
  rw [load_eq_ofLines, ← hlines, List.append_assoc, List.singleton_append, hread,
    Nat.add_comm]
  rfl

/-- What becomes of a text. -/
lemma load_cases (text : String) :
    ((∀ line ∈ lines text.toList, AllBlank line) ∧ load text = .error ⟨.emptyGrammar, none⟩)
      ∨ ((∃ line ∈ lines text.toList, ¬ AllBlank line)
        ∧ (∀ line ∈ lines text.toList, ¬ AllBlank line → WellFormed line)
        ∧ ∃ g, load text = .ok g)
      ∨ ∃ before line cause, FirstIllFormed (lines text.toList) before line
        ∧ Fault line cause ∧ load text = .error ⟨cause, some (before.length + 1)⟩ := by
  by_cases hfine : ∀ line ∈ lines text.toList, AllBlank line ∨ WellFormed line
  · refine (load_of_lines hfine).imp_right fun ⟨hsome, hg⟩ => .inl ⟨hsome, ?_, hg⟩
    exact fun line hline => (hfine line hline).resolve_left
  · obtain ⟨before, line, hfirst⟩ := exists_firstIllFormed hfine
    obtain ⟨cause, hfault⟩ := exists_fault hfirst.notWellFormed
    exact .inr (.inr ⟨before, line, cause, hfirst, hfault, load_of_firstIllFormed hfirst hfault⟩)

/-- **The loader accepts exactly its line grammar and reports the first bad line.** A text
is accepted exactly if not all of its lines are blank and all others are well-formed. A text
with nothing but blank lines is an empty grammar. Every other text gets the error of its
first ill-formed line: the number of that line, blank lines counted, and the first thing
that is wrong with it. It is the same for all texts that have the same lines up to that
one. -/
theorem load_by_lines (text : String) :
    ((∃ g, load text = .ok g) ↔ (∃ line ∈ lines text.toList, ¬ AllBlank line)
        ∧ ∀ line ∈ lines text.toList, ¬ AllBlank line → WellFormed line)
    ∧ (∀ e, load text = .error e ↔
        ((∀ line ∈ lines text.toList, AllBlank line) ∧ e = ⟨.emptyGrammar, none⟩)
        ∨ ∃ before line cause, FirstIllFormed (lines text.toList) before line
          ∧ Fault line cause ∧ e = ⟨cause, some (before.length + 1)⟩)
    ∧ ∀ before line, FirstIllFormed (lines text.toList) before line →
        ∀ text' : String, before ++ [line] <+: lines text'.toList → load text' = load text := by
  refine ⟨⟨?_, ?_⟩, fun e => ⟨fun he => ?_, ?_⟩, fun before line hfirst text' hbegins => ?_⟩
  · rintro ⟨g, hg⟩
    obtain ⟨_, he⟩ | ⟨hsome, hformed, _⟩ | ⟨_, _, _, _, _, he⟩ := load_cases text
    · cases he.symm.trans hg
    · exact ⟨hsome, hformed⟩
    · cases he.symm.trans hg
  · rintro ⟨⟨line, hline, hblank⟩, hformed⟩
    obtain ⟨hall, _⟩ | ⟨_, hg⟩ := load_of_lines fun line hline =>
      or_iff_not_imp_left.mpr (hformed line hline)
    · exact absurd (hall line hline) hblank
    · exact hg
  · obtain ⟨hall, he'⟩ | ⟨_, _, g, hg⟩ | ⟨before, line, cause, hfirst, hfault, he'⟩ :=
      load_cases text
    · exact .inl ⟨hall, Except.error.inj (he.symm.trans he')⟩
    · cases hg.symm.trans he
    · exact .inr ⟨before, line, cause, hfirst, hfault, Except.error.inj (he.symm.trans he')⟩
  · rintro (⟨hall, rfl⟩ | ⟨before, line, cause, hfirst, hfault, rfl⟩)
    · obtain ⟨_, he⟩ | ⟨⟨line, hline, hblank⟩, _⟩ :=
        load_of_lines fun line hline => .inl (hall line hline)
      · exact he
      · exact absurd (hall line hline) hblank
    · exact load_of_firstIllFormed hfirst hfault
  · obtain ⟨cause, hfault⟩ := exists_fault hfirst.notWellFormed
    have hfirst' : FirstIllFormed (lines text'.toList) before line :=
      ⟨hbegins, hfirst.fine, hfirst.notBlank, hfirst.notWellFormed⟩
    rw [load_of_firstIllFormed hfirst hfault, load_of_firstIllFormed hfirst' hfault]

/-- The third line has two words before the arrow and nothing behind it. The words are
reported, whatever the line ends and whatever comes after. -/
theorem load_by_lines_twoWords :
    FirstIllFormed (lines "S → a\r\n\t\n T U ->\n".toList) ["S → a".toList, ['\t']]
        " T U ->".toList
      ∧ load "S → a\r\n\t\n T U ->\n" = .error ⟨.invalidLhs "T U", some 3⟩
      ∧ load "S → a\n\t\n T U ->\r\nno arrow" = .error ⟨.invalidLhs "T U", some 3⟩ := by
  have hfirst : FirstIllFormed (lines "S → a\r\n\t\n T U ->\n".toList)
      ["S → a".toList, ['\t']] " T U ->".toList :=
    ⟨by decide +kernel, by decide +kernel, by decide +kernel, by decide +kernel⟩
  have hcut : Cut " T U ->".toList "T U ".toList [] :=
    ⟨by decide, ['-', '>'], by decide, by decide +kernel⟩
  have hfault : Fault " T U ->".toList (.invalidLhs "T U") :=
    .invalidLhs hcut (by decide +kernel)
  obtain ⟨_, herror, hsame⟩ := load_by_lines "S → a\r\n\t\n T U ->\n"
  have hload := (herror _).mpr (.inr ⟨_, _, _, hfirst, hfault, rfl⟩)
  refine ⟨hfirst, hload, ?_⟩
  exact (hsame _ _ hfirst _ (by decide +kernel)).trans hload

end Grammar

end TopDown
