import Mathlib.Tactic.Common
import TopDown.Text

/-!
Trimming and splitting into words, seen from the text that was written.

* `Text.Blanks`: blank characters that do not end a line.
* `Text.Tight`: a text without blanks at its two ends; trimming gives it back when blanks
  are put around it (`Text.trim_of_tight`).
* `Text.IsWord`: an operator glyph, or a run of other characters in which a capital
  letter stands at the front only.
* `Text.scanWords_append`: the scanner reads a word off whole, whatever comes after it,
  as long as that begins with a blank.
* `Text.isWord_of_mem_words`, `Text.flatten_scanWords`: it gives nothing but words, and
  these hold all characters of the text but the blanks.
-/

namespace TopDown.Text

/-! ### Blanks -/

/-- The characters are blank and do not end a line. -/
def Blanks (cs : List Char) : Prop := ∀ c ∈ cs, isBlank c = true ∧ c ≠ '\n'

instance (cs : List Char) : Decidable (Blanks cs) :=
  decidable_of_iff (cs.all fun c => isBlank c && c != '\n') (by simp [Blanks])

lemma Blanks.nil : Blanks [] := List.forall_mem_nil _

lemma Blanks.append {b b' : List Char} (h : Blanks b) (h' : Blanks b') : Blanks (b ++ b') :=
  List.forall_mem_append.mpr ⟨h, h'⟩

/-- The text has a first and a last character, and neither is blank. -/
def Tight (cs : List Char) : Prop :=
  ∃ h : cs ≠ [], isBlank (cs.head h) = false ∧ isBlank (cs.getLast h) = false

/-- A text without any blank is tight. -/
lemma tight_of_forall {cs : List Char} (hne : cs ≠ []) (h : ∀ c ∈ cs, isBlank c = false) :
    Tight cs :=
  ⟨hne, h _ (List.head_mem hne), h _ (List.getLast_mem hne)⟩

/-- What stands between tight texts does not matter. -/
lemma Tight.append {u v : List Char} (hu : Tight u) (hv : Tight v) (m : List Char) :
    Tight (u ++ (m ++ v)) := by
  obtain ⟨hu, hhead, _⟩ := hu
  obtain ⟨hv, _, hlast⟩ := hv
  refine ⟨by simp [hu], ?_, ?_⟩
  · rwa [List.head_append_of_ne_nil hu]
  · rw [List.getLast_append_of_ne_nil _ (by simp [hv]), List.getLast_append_of_ne_nil _ hv]
    exact hlast

lemma dropWhile_blanks {b cs : List Char} (hb : ∀ c ∈ b, isBlank c = true)
    (hcs : ∀ c ∈ cs.head?, isBlank c = false) : (b ++ cs).dropWhile isBlank = cs := by
  rw [List.dropWhile_append_of_pos hb]
  cases cs with
  | nil => rfl
  | cons c cs => rw [List.dropWhile_cons_of_neg (by simp [hcs c rfl])]

/-- **Trimming takes away the blanks around a tight text** and nothing else. -/
theorem trim_of_tight {b cs b' : List Char} (hb : Blanks b) (hcs : Tight cs) (hb' : Blanks b') :
    trim (b ++ (cs ++ b')) = cs := by
  obtain ⟨hne, hhead, hlast⟩ := hcs
  have hstart : (b ++ (cs ++ b')).dropWhile isBlank = cs ++ b' := by
    refine dropWhile_blanks (fun c hc => (hb c hc).1) fun c hc => ?_
    rw [List.head?_append, List.head?_eq_some_head hne, Option.some_or] at hc
    cases hc
    exact hhead
  have hend : (b'.reverse ++ cs.reverse).dropWhile isBlank = cs.reverse := by
    refine dropWhile_blanks (fun c hc => (hb' c (List.mem_reverse.mp hc)).1) fun c hc => ?_
    rw [List.head?_reverse, List.getLast?_eq_some_getLast hne] at hc
    cases hc
    exact hlast
  rw [trim, hstart, List.reverse_append, hend, List.reverse_reverse]

/-- Of blanks trimming leaves nothing. -/
lemma trim_blanks {b : List Char} (hb : Blanks b) : trim b = [] := by
  have hend : ∀ c ∈ ([] : List Char).head?, isBlank c = false := by simp
  have hstart := dropWhile_blanks (fun c hc => (hb c hc).1) hend
  rw [List.append_nil] at hstart
  rw [trim, hstart]
  rfl

/-- Trimming cuts a part out of the text. -/
lemma isInfix_trim (cs : List Char) : trim cs <:+: cs := by
  have hend : trim cs <+: cs.dropWhile isBlank := by
    rw [trim, ← List.reverse_suffix, List.reverse_reverse]
    exact List.dropWhile_suffix isBlank
  exact hend.isInfix.trans (List.dropWhile_suffix isBlank).isInfix

/-- What trimming leaves does not end with a blank. -/
lemma isBlank_getLast_trim {cs : List Char} (h : trim cs ≠ []) :
    isBlank ((trim cs).getLast h) = false := by
  have hne : (cs.dropWhile isBlank).reverse.dropWhile isBlank ≠ [] := by
    simpa [trim] using h
  have hlast : (trim cs).getLast h
      = ((cs.dropWhile isBlank).reverse.dropWhile isBlank).head hne := by
    simp only [trim, List.getLast_reverse]
  rw [hlast]
  simpa using List.head_dropWhile_not isBlank (w := hne)

/-! ### Words -/

/-- A single operator glyph, or a text without blanks and operator glyphs in which no
capital letter stands behind the first character. -/
def IsWord (w : List Char) : Prop :=
  (∃ c ∈ operators, w = [c])
    ∨ (w ≠ [] ∧ (∀ c ∈ w, isBlank c = false ∧ isOperator c = false)
        ∧ ∀ c ∈ w.tail, c.isUpper = false)

instance (w : List Char) : Decidable (IsWord w) :=
  decidable_of_iff ((operators.any fun c => w == [c])
    || (!w.isEmpty && w.all (fun c => !isBlank c && !isOperator c)
      && w.tail.all fun c => !c.isUpper)) (by simp [IsWord, and_assoc])

lemma isOperator_iff {c : Char} : isOperator c = true ↔ c ∈ operators := List.contains_iff_mem

/-- No operator glyph is blank. -/
lemma isBlank_of_mem_operators : ∀ c ∈ operators, isBlank c = false := by
  have hall : (operators.all fun c => !isBlank c) = true := by decide
  simpa using hall

/-- Words are tight. -/
lemma IsWord.tight {w : List Char} (h : IsWord w) : Tight w := by
  obtain ⟨c, hc, rfl⟩ | ⟨hne, hchars, _⟩ := h
  · exact tight_of_forall (List.cons_ne_nil c []) (by simpa using isBlank_of_mem_operators c hc)
  · exact tight_of_forall hne fun c hc => (hchars c hc).1

lemma IsWord.isBlank {w : List Char} (h : IsWord w) : ∀ c ∈ w, isBlank c = false := by
  obtain ⟨c, hc, rfl⟩ | ⟨_, hchars, _⟩ := h
  · simpa using isBlank_of_mem_operators c hc
  · exact fun c hc => (hchars c hc).1

/-! ### The scanner -/

lemma scanWords_blank {c : Char} (hc : isBlank c = true) (word cs : List Char) :
    scanWords word (c :: cs) = wordOf word ++ scanWords [] cs := by
  rw [scanWords, if_pos hc]

lemma scanWords_operator {c : Char} (hc : isBlank c = false) (hop : isOperator c = true)
    (word cs : List Char) :
    scanWords word (c :: cs) = wordOf word ++ [c] :: scanWords [] cs := by
  rw [scanWords, if_neg (by simp [hc]), if_pos hop]

/-- A capital letter starts a word. -/
lemma scanWords_upper {c : Char} (hc : isBlank c = false) (hop : isOperator c = false)
    (hup : c.isUpper = true) (word cs : List Char) :
    scanWords word (c :: cs) = wordOf word ++ scanWords [c] cs := by
  rw [scanWords, if_neg (by simp [hc]), if_neg (by simp [hop]), if_pos hup]

/-- Any other character goes on with the word. -/
lemma scanWords_other {c : Char} (hc : isBlank c = false) (hop : isOperator c = false)
    (hup : c.isUpper = false) (word cs : List Char) :
    scanWords word (c :: cs) = scanWords (word ++ [c]) cs := by
  rw [scanWords, if_neg (by simp [hc]), if_neg (by simp [hop]), if_neg (by simp [hup])]

/-- Blanks before the first word are passed over. -/
lemma scanWords_blanks {b : List Char} (hb : Blanks b) (cs : List Char) :
    scanWords [] (b ++ cs) = scanWords [] cs := by
  induction b with
  | nil => rfl
  | cons c b ih =>
      obtain ⟨hc, hb⟩ := List.forall_mem_cons.mp hb
      rw [List.cons_append, scanWords_blank hc.1, ih hb]
      rfl

/-- Characters that neither end a word nor start one are added to it. -/
lemma scanWords_run {u : List Char}
    (hu : ∀ c ∈ u, isBlank c = false ∧ isOperator c = false) (hup : ∀ c ∈ u, c.isUpper = false)
    (word cs : List Char) : scanWords word (u ++ cs) = scanWords (word ++ u) cs := by
  induction u generalizing word with
  | nil => rw [List.nil_append, List.append_nil]
  | cons c u ih =>
      obtain ⟨hc, hu⟩ := List.forall_mem_cons.mp hu
      obtain ⟨hcup, hup⟩ := List.forall_mem_cons.mp hup
      rw [List.cons_append, scanWords_other hc.1 hc.2 hcup, ih hu hup, List.append_assoc,
        List.singleton_append]

/-- A word that is begun is complete at a blank, and at the end. -/
lemma scanWords_of_head? {w : List Char} (hw : w ≠ []) {cs : List Char}
    (hcs : ∀ c ∈ cs.head?, isBlank c = true) : scanWords w cs = w :: scanWords [] cs := by
  have hword : wordOf w = [w] := by rw [wordOf, if_neg (by simpa using hw)]
  cases cs with
  | nil => rw [scanWords, hword]; rfl
  | cons c cs =>
      rw [scanWords_blank (hcs c rfl), scanWords_blank (hcs c rfl), hword]
      rfl

/-- **The scanner reads a word off whole**, if a blank or nothing comes after it. -/
theorem scanWords_append {w : List Char} (hw : IsWord w) {cs : List Char}
    (hcs : ∀ c ∈ cs.head?, isBlank c = true) :
    scanWords [] (w ++ cs) = w :: scanWords [] cs := by
  obtain ⟨c, hc, rfl⟩ | ⟨hne, hchars, hup⟩ := hw
  · exact scanWords_operator (isBlank_of_mem_operators c hc) (isOperator_iff.mpr hc) [] cs
  · cases w with
    | nil => exact absurd rfl hne
    | cons c u =>
        obtain ⟨hc, hu⟩ := List.forall_mem_cons.mp hchars
        -- whether the first character is a capital letter or not, it starts the word
        have hfirst : scanWords [] (c :: (u ++ cs)) = scanWords [c] (u ++ cs) := by
          cases hcap : c.isUpper with
          | true => exact scanWords_upper hc.1 hc.2 hcap [] _
          | false => exact scanWords_other hc.1 hc.2 hcap [] _
        rw [List.cons_append, hfirst, scanWords_run hu hup, List.singleton_append,
          scanWords_of_head? hne hcs]

/-! ### What the scanner gives -/

/-- The word read so far becomes a word. -/
lemma isWord_of_mem_wordOf {word w : List Char} (hword : word ≠ [] → IsWord word)
    (hw : w ∈ wordOf word) : IsWord w := by
  rw [wordOf] at hw
  split at hw
  · cases hw
  · next hne =>
      rw [List.mem_singleton.mp hw]
      exact hword (by simpa using hne)

/-- What the scanner gives are words, if the word read so far can still go on. -/
lemma isWord_of_mem_scanWords {word cs : List Char}
    (hchars : ∀ c ∈ word, isBlank c = false ∧ isOperator c = false)
    (hup : ∀ c ∈ word.tail, c.isUpper = false) :
    ∀ w ∈ scanWords word cs, IsWord w := by
  induction cs generalizing word with
  | nil => exact fun w hw => isWord_of_mem_wordOf (fun hne => .inr ⟨hne, hchars, hup⟩) hw
  | cons c cs ih =>
      have hbegun : ∀ w ∈ wordOf word, IsWord w :=
        fun w hw => isWord_of_mem_wordOf (fun hne => .inr ⟨hne, hchars, hup⟩) hw
      have hrest : ∀ w ∈ scanWords [] cs, IsWord w := ih (by simp) (by simp)
      cases hblank : isBlank c with
      | true =>
          rw [scanWords_blank hblank]
          exact List.forall_mem_append.mpr ⟨hbegun, hrest⟩
      | false =>
          cases hop : isOperator c with
          | true =>
              rw [scanWords_operator hblank hop]
              refine List.forall_mem_append.mpr ⟨hbegun, List.forall_mem_cons.mpr ⟨?_, hrest⟩⟩
              exact .inl ⟨c, isOperator_iff.mp hop, rfl⟩
          | false =>
              cases hcap : c.isUpper with
              | true =>
                  rw [scanWords_upper hblank hop hcap]
                  exact List.forall_mem_append.mpr
                    ⟨hbegun, ih (by simp [hblank, hop]) (by simp)⟩
              | false =>
                  rw [scanWords_other hblank hop hcap]
                  refine ih ?_ ?_
                  · exact List.forall_mem_append.mpr ⟨hchars, by simp [hblank, hop]⟩
                  · cases word with
                    | nil => simp
                    | cons d word => exact List.forall_mem_append.mpr ⟨hup, by simp [hcap]⟩

/-- **The scanner gives nothing but words.** -/
theorem isWord_of_mem_words {cs w : List Char} (hw : w ∈ words cs) : IsWord w :=
  isWord_of_mem_scanWords (by simp) (by simp) w hw

lemma flatten_wordOf (word : List Char) : (wordOf word).flatten = word := by
  cases word with
  | nil => rfl
  | cons c word => simp [wordOf]

/-- The scanner loses nothing but blanks. -/
lemma flatten_scanWords (word cs : List Char) :
    (scanWords word cs).flatten = word ++ cs.filter fun c => !isBlank c := by
  induction cs generalizing word with
  | nil => simp [scanWords, flatten_wordOf]
  | cons c cs ih =>
      cases hblank : isBlank c with
      | true => simp [scanWords_blank hblank, flatten_wordOf, ih, hblank]
      | false =>
          cases hop : isOperator c with
          | true => simp [scanWords_operator hblank hop, flatten_wordOf, ih, hblank]
          | false =>
              cases hcap : c.isUpper with
              | true => simp [scanWords_upper hblank hop hcap, flatten_wordOf, ih, hblank]
              | false => simp [scanWords_other hblank hop hcap, ih, hblank]

/-- The words are made of the characters of the text. -/
lemma mem_of_mem_words {cs w : List Char} {c : Char} (hw : w ∈ words cs) (hc : c ∈ w) :
    c ∈ cs := by
  have hflatten : c ∈ (words cs).flatten := List.mem_flatten.mpr ⟨w, hw, hc⟩
  rw [words, flatten_scanWords, List.nil_append] at hflatten
  exact (List.mem_filter.mp hflatten).1

/-- Where there is more than blanks, there are words. -/
lemma words_ne_nil {cs : List Char} {c : Char} (hmem : c ∈ cs) (hc : isBlank c = false) :
    words cs ≠ [] := by
  intro h
  have hflatten := flatten_scanWords [] cs
  rw [← words, h, List.flatten_nil, List.nil_append, eq_comm, List.filter_eq_nil_iff]
    at hflatten
  exact hflatten c hmem (by simp [hc])

end TopDown.Text
