import Mathlib.Data.List.Pairwise
import Mathlib.Data.List.Sort
import TopDown.Proofs.Words

/-!
Words as spans of the text in which they stand.

The scanner gives the words of a text without saying where they stand. They stand in the
only places where they can: a list of spans that cover what is not blank, each of them a
word, is determined by the text, as long as spans touch only where a word has to end.

* `Text.Span`, `Text.Span.read`: a span of a text and what stands there; `Text.cut` is the
  place of a cut as a position in the encoded text, and `Text.extract_cut` reads a span
  between two cuts.
* `Text.Splits`: a list of spans splits a text into words.
* `Text.Breaks`: two characters next to each other that are never in one word. A span has
  no break inside (`Text.not_breaks_inside`) and breaks at its two ends
  (`Text.Splits.breaks_start`, `Text.Splits.breaks_stop`), so a text is split in only one
  way (`Text.Splits.unique`).
* `Text.Scan`: the spans of a text from a place on, as the scanner finds them; they split
  the text (`Text.Scan.splits`), and the scanner reads off what stands there
  (`Text.exists_scan`).
* `Text.words_exact`: the words of a text are what stands in the spans that split it.
-/

namespace TopDown.Text

/-! ### Spans -/

/-- A span of a text: the characters from one place up to another, at least one of them. -/
@[ext] structure Span where
  /-- The place of the first character. -/
  start : Nat
  /-- The place behind the last character. -/
  stop : Nat
  /-- There is a character in the span. -/
  start_lt_stop : start < stop
deriving DecidableEq

namespace Span

/-- The characters of a text that stand in the span. -/
def read (cs : List Char) (p : Span) : List Char := cs.extract p.start p.stop

/-- A place lies in the span. -/
def Covers (p : Span) (i : Nat) : Prop := p.start ≤ i ∧ i < p.stop

/-- The one span ends before the other begins. -/
def Before (p q : Span) : Prop := p.stop ≤ q.start

instance : Std.Irrefl Before := ⟨fun p h => by
  have := p.start_lt_stop
  unfold Before at h
  omega⟩

instance : Std.Antisymm Before := ⟨fun p q h h' => by
  have := p.start_lt_stop
  have := q.start_lt_stop
  unfold Before at h h'
  omega⟩

end Span

variable {cs : List Char} {spans spans' : List Span} {p q : Span} {i : Nat} {c d : Char}

lemma getElem?_read (cs : List Char) (p : Span) (j : Nat) :
    (p.read cs)[j]? = if p.start + j < p.stop then cs[p.start + j]? else none := by
  have hlt : j < p.stop - p.start ↔ p.start + j < p.stop := by omega
  rw [Span.read, List.extract_eq_take_drop, List.getElem?_take, List.getElem?_drop]
  simp only [hlt]

/-- A character at a place in a span is one of those that stand there. -/
lemma mem_read (h : p.Covers i) (hc : cs[i]? = some c) : c ∈ p.read cs := by
  obtain ⟨hstart, hstop⟩ := h
  refine List.mem_of_getElem? (i := i - p.start) ?_
  rw [getElem?_read, Nat.add_sub_cancel' hstart, if_pos hstop, hc]

/-- Behind the first place of a span stands the tail of what is read. -/
lemma mem_tail_read (hstart : p.start ≤ i) (hstop : i + 1 < p.stop) (hd : cs[i + 1]? = some d) :
    d ∈ (p.read cs).tail := by
  refine List.mem_of_getElem? (i := i - p.start) ?_
  have hplace : p.start + (i - p.start + 1) = i + 1 := by omega
  rw [List.getElem?_tail, getElem?_read, hplace, if_pos hstop, hd]

lemma head?_read (cs : List Char) (p : Span) : (p.read cs).head? = cs[p.start]? := by
  rw [List.head?_eq_getElem?, getElem?_read, Nat.add_zero, if_pos p.start_lt_stop]

/-- The place before the end of a span lies in it. -/
lemma Span.covers_last (p : Span) : p.Covers (p.stop - 1) := by
  have := p.start_lt_stop
  exact ⟨by omega, by omega⟩

/-! ### Splitting -/

/-- Spans split a text into words: they come one after the other, they cover what is not
blank, and in each of them stands a word. Where one of them ends and another begins, there
is an operator glyph on one side, or a capital letter to begin with. -/
structure Splits (cs : List Char) (spans : List Span) : Prop where
  within : ∀ p ∈ spans, p.stop ≤ cs.length
  ordered : spans.Pairwise Span.Before
  covers : ∀ i c, cs[i]? = some c → ((∃ p ∈ spans, p.Covers i) ↔ isBlank c = false)
  words : ∀ p ∈ spans, IsWord (p.read cs)
  touching : ∀ p ∈ spans, ∀ q ∈ spans, p.stop = q.start →
    (∃ c ∈ operators, p.read cs = [c]) ∨ (∃ c ∈ operators, q.read cs = [c])
      ∨ ∃ c ∈ (q.read cs).head?, c.isUpper = true

/-- Two characters next to each other are never in one word. -/
def Breaks (c d : Char) : Prop :=
  isBlank c = true ∨ isBlank d = true ∨ isOperator c = true ∨ isOperator d = true
    ∨ d.isUpper = true

/-- There is no break inside a word. -/
lemma not_breaks_inside (hword : IsWord (p.read cs)) (hstart : p.start ≤ i)
    (hstop : i + 1 < p.stop) (hc : cs[i]? = some c) (hd : cs[i + 1]? = some d) :
    ¬ Breaks c d := by
  have hc' : c ∈ p.read cs := mem_read ⟨hstart, by omega⟩ hc
  have hd' : d ∈ (p.read cs).tail := mem_tail_read hstart hstop hd
  obtain ⟨o, _, hread⟩ | ⟨_, hchars, hup⟩ := hword
  · -- an operator glyph leaves no room for a second character
    rw [hread] at hd'
    cases hd'
  · rw [Breaks, (hchars c hc').1, (hchars c hc').2, (hchars d (List.mem_of_mem_tail hd')).1,
      (hchars d (List.mem_of_mem_tail hd')).2, hup d hd']
    simp

namespace Splits

/-- Where two spans touch, there is a break. -/
lemma breaks_of_touching (h : Splits cs spans) (hp : p ∈ spans) (hq : q ∈ spans)
    (htouch : p.stop = q.start) (hc : cs[p.stop - 1]? = some c) (hd : cs[q.start]? = some d) :
    Breaks c d := by
  have hlast : c ∈ p.read cs := mem_read p.covers_last hc
  have hhead : (q.read cs).head? = some d := (head?_read cs q).trans hd
  obtain ⟨o, ho, hread⟩ | ⟨o, ho, hread⟩ | ⟨o, ho, hup⟩ := h.touching p hp q hq htouch
  · rw [hread, List.mem_singleton] at hlast
    exact .inr (.inr (.inl (hlast ▸ isOperator_iff.mpr ho)))
  · rw [hread] at hhead
    cases hhead
    exact .inr (.inr (.inr (.inl (isOperator_iff.mpr ho))))
  · rw [hhead] at ho
    cases ho
    exact .inr (.inr (.inr (.inr hup)))

/-- Of two different spans one comes before the other. -/
lemma before_or_before (h : Splits cs spans) (hp : p ∈ spans) (hq : q ∈ spans) (hne : p ≠ q) :
    p.Before q ∨ q.Before p := by
  have : Std.Symm fun p q : Span => p.Before q ∨ q.Before p := ⟨fun _ _ => Or.symm⟩
  have hordered : spans.Pairwise fun p q => p.Before q ∨ q.Before p := h.ordered.imp .inl
  exact hordered.forall hp hq hne

/-- There is a break at the end of a span. -/
lemma breaks_stop (h : Splits cs spans) (hp : p ∈ spans) (hc : cs[p.stop - 1]? = some c)
    (hd : cs[p.stop]? = some d) : Breaks c d := by
  cases hblank : isBlank d with
  | true => exact .inr (.inl hblank)
  | false =>
      -- the next character is covered by another span, which begins there
      obtain ⟨q, hq, hstart, hstop⟩ := (h.covers _ d hd).mpr hblank
      have hne : p ≠ q := by
        rintro rfl
        exact Nat.lt_irrefl _ hstop
      have htouch : p.stop = q.start := by
        have := p.start_lt_stop
        obtain hbefore | hbefore := h.before_or_before hp hq hne
        · exact Nat.le_antisymm hbefore hstart
        · unfold Span.Before at hbefore
          omega
      exact h.breaks_of_touching hp hq htouch hc (htouch ▸ hd)

/-- There is a break at the start of a span. -/
lemma breaks_start (h : Splits cs spans) (hq : q ∈ spans) (hi : q.start = i + 1)
    (hc : cs[i]? = some c) (hd : cs[i + 1]? = some d) : Breaks c d := by
  cases hblank : isBlank c with
  | true => exact .inl hblank
  | false =>
      -- the character before is covered by another span, which ends there
      obtain ⟨p, hp, hstart, hstop⟩ := (h.covers i c hc).mpr hblank
      have hne : p ≠ q := by
        rintro rfl
        omega
      have htouch : p.stop = q.start := by
        have := q.start_lt_stop
        obtain hbefore | hbefore := h.before_or_before hp hq hne <;>
          unfold Span.Before at hbefore <;> omega
      have hlast : p.stop - 1 = i := by omega
      exact h.breaks_of_touching hp hq htouch (hlast ▸ hc) (hi ▸ hd)

/-! ### Only one way to split -/

/-- A span that begins before another ends also ends no later. -/
lemma stop_le (h : Splits cs spans) (h' : Splits cs spans') (hp : p ∈ spans) (hq : q ∈ spans')
    (hlt : p.start < q.stop) : p.stop ≤ q.stop := by
  by_contra hstop
  have hend := h.within p hp
  have hbefore : q.stop - 1 + 1 = q.stop := by have := q.start_lt_stop; omega
  obtain ⟨c, hc⟩ : ∃ c, cs[q.stop - 1]? = some c := ⟨_, List.getElem?_eq_getElem (by omega)⟩
  obtain ⟨d, hd⟩ : ∃ d, cs[q.stop]? = some d := ⟨_, List.getElem?_eq_getElem (by omega)⟩
  exact not_breaks_inside (h.words p hp) (by omega) (by omega) hc (hbefore ▸ hd)
    (h'.breaks_stop hq hc hd)

/-- A span that begins before another ends also begins no later. -/
lemma start_le (h : Splits cs spans) (h' : Splits cs spans') (hp : p ∈ spans) (hq : q ∈ spans')
    (hlt : p.start < q.stop) : p.start ≤ q.start := by
  by_contra hstart
  have hend := h'.within q hq
  obtain ⟨i, hi⟩ : ∃ i, p.start = i + 1 := ⟨p.start - 1, by omega⟩
  obtain ⟨c, hc⟩ : ∃ c, cs[i]? = some c := ⟨_, List.getElem?_eq_getElem (by omega)⟩
  obtain ⟨d, hd⟩ : ∃ d, cs[i + 1]? = some d := ⟨_, List.getElem?_eq_getElem (by omega)⟩
  exact not_breaks_inside (h'.words q hq) (by omega) (by omega) hc hd (h.breaks_start hp hi hc hd)

/-- The spans of one splitting are among those of any other. -/
lemma subset (h : Splits cs spans) (h' : Splits cs spans') (hp : p ∈ spans) : p ∈ spans' := by
  have hlt := p.start_lt_stop
  have hend := h.within p hp
  obtain ⟨c, hc⟩ : ∃ c, cs[p.start]? = some c := ⟨_, List.getElem?_eq_getElem (by omega)⟩
  have hblank : isBlank c = false := (h.covers _ c hc).mp ⟨p, hp, Nat.le_refl _, hlt⟩
  obtain ⟨q, hq, hstart, hstop⟩ := (h'.covers _ c hc).mpr hblank
  have hsame : p = q := by
    refine Span.ext ?_ ?_
    · exact Nat.le_antisymm (h.start_le h' hp hq hstop) hstart
    · exact Nat.le_antisymm (h.stop_le h' hp hq hstop) (h'.stop_le h hq hp (by omega))
  exact hsame ▸ hq

/-- **A text is split into words in only one way.** -/
theorem unique (h : Splits cs spans) (h' : Splits cs spans') : spans = spans' :=
  h.ordered.eq_of_mem_iff h'.ordered fun _ => ⟨h.subset h', h'.subset h⟩

end Splits

/-! ### Scanning -/

/-- The spans of a text from a place on: blanks are passed over, and a word is taken up to
a break. -/
inductive Scan (cs : List Char) : Nat → List Span → Prop
  | done : Scan cs cs.length []
  | blank {i : Nat} {c : Char} {spans : List Span} (hc : cs[i]? = some c)
      (hblank : isBlank c = true) (h : Scan cs (i + 1) spans) : Scan cs i spans
  | word {p : Span} {spans : List Span} (hword : IsWord (p.read cs))
      (hbreak : ∀ c d, cs[p.stop - 1]? = some c → cs[p.stop]? = some d → Breaks c d)
      (h : Scan cs p.stop spans) : Scan cs p.start (p :: spans)

namespace Scan

/-- The scan begins in the text and goes on from there. -/
lemma bounds (h : Scan cs i spans) :
    i ≤ cs.length ∧ ∀ p ∈ spans, i ≤ p.start ∧ p.stop ≤ cs.length := by
  induction h with
  | done => exact ⟨Nat.le_refl _, by simp⟩
  | blank hc _ _ ih =>
      obtain ⟨hlt, hspans⟩ := ih
      exact ⟨by omega, fun p hp => ⟨by have := (hspans p hp).1; omega, (hspans p hp).2⟩⟩
  | @word p spans _ _ _ ih =>
      obtain ⟨hstop, hspans⟩ := ih
      have hlt := p.start_lt_stop
      refine ⟨by omega, List.forall_mem_cons.mpr ⟨⟨Nat.le_refl _, hstop⟩, fun q hq => ?_⟩⟩
      exact ⟨by have := (hspans q hq).1; omega, (hspans q hq).2⟩

lemma ordered (h : Scan cs i spans) : spans.Pairwise Span.Before := by
  induction h with
  | done => exact .nil
  | blank _ _ _ ih => exact ih
  | word _ _ h ih => exact List.pairwise_cons.mpr ⟨fun q hq => (h.bounds.2 q hq).1, ih⟩

lemma isWord (h : Scan cs i spans) : ∀ p ∈ spans, IsWord (p.read cs) := by
  induction h with
  | done => simp
  | blank _ _ _ ih => exact ih
  | word hword _ _ ih => exact List.forall_mem_cons.mpr ⟨hword, ih⟩

/-- A scan takes words up to a break. -/
lemma breaks (h : Scan cs i spans) :
    ∀ p ∈ spans, ∀ c d, cs[p.stop - 1]? = some c → cs[p.stop]? = some d → Breaks c d := by
  induction h with
  | done => simp
  | blank _ _ _ ih => exact ih
  | word _ hbreak _ ih => exact List.forall_mem_cons.mpr ⟨hbreak, ih⟩

/-- From its place on a scan covers what is not blank. -/
lemma covers (h : Scan cs i spans) :
    ∀ j c, i ≤ j → cs[j]? = some c → ((∃ p ∈ spans, p.Covers j) ↔ isBlank c = false) := by
  induction h with
  | done =>
      intro j c hj hc
      rw [List.getElem?_eq_none hj] at hc
      cases hc
  | @blank i b spans hb hblank h ih =>
      intro j c hj hc
      obtain rfl | hlt := Nat.eq_or_lt_of_le hj
      · -- no span covers the place of a blank, since all begin behind it
        cases hb.symm.trans hc
        rw [hblank]
        refine iff_of_false ?_ (by simp)
        rintro ⟨p, hp, hstart, _⟩
        have := (h.bounds.2 p hp).1
        omega
      · exact ih j c hlt hc
  | @word p spans hword _ h ih =>
      intro j c hj hc
      by_cases hin : j < p.stop
      · have hblank := hword.isBlank c (mem_read ⟨hj, hin⟩ hc)
        exact iff_of_true ⟨p, List.mem_cons_self, hj, hin⟩ hblank
      · rw [← ih j c (by omega) hc, List.exists_mem_cons_iff]
        exact or_iff_right fun hcovers => hin hcovers.2

/-- **A scan from the start splits the text.** -/
theorem splits (h : Scan cs 0 spans) : Splits cs spans where
  within p hp := (h.bounds.2 p hp).2
  ordered := h.ordered
  covers j c hc := h.covers j c (Nat.zero_le j) hc
  words := h.isWord
  touching p hp q hq htouch := by
    have hstop := (h.bounds.2 q hq).2
    have hlt := q.start_lt_stop
    obtain ⟨c, hc⟩ : ∃ c, cs[p.stop - 1]? = some c := ⟨_, List.getElem?_eq_getElem (by omega)⟩
    obtain ⟨d, hd⟩ : ∃ d, cs[q.start]? = some d := ⟨_, List.getElem?_eq_getElem (by omega)⟩
    have hlast : c ∈ p.read cs := mem_read p.covers_last hc
    have hfirst : d ∈ q.read cs := mem_read ⟨Nat.le_refl _, hlt⟩ hd
    have hglyph : ∀ {r : Span} {o : Char}, r ∈ spans → o ∈ r.read cs → isOperator o = true →
        ∃ o ∈ operators, r.read cs = [o] := by
      intro r o hr ho hop
      refine (h.isWord r hr).resolve_right fun hrun => ?_
      exact absurd hop (by simp [(hrun.2.1 o ho).2])
    obtain hb | hb | hop | hop | hup := h.breaks p hp c d hc (htouch ▸ hd)
    · exact absurd hb (by simp [(h.isWord p hp).isBlank c hlast])
    · exact absurd hb (by simp [(h.isWord q hq).isBlank d hfirst])
    · exact .inl (hglyph hp hlast hop)
    · exact .inr (.inl (hglyph hq hfirst hop))
    · exact .inr (.inr ⟨d, (head?_read cs q).trans hd, hup⟩)

end Scan

/-! ### What the scanner reads -/

/-- A word that is begun and can go on: it has no blanks and no operator glyphs, and no
capital letter behind its first character. -/
def Begun (word : List Char) : Prop :=
  (∀ c ∈ word, isBlank c = false ∧ isOperator c = false) ∧ ∀ c ∈ word.tail, c.isUpper = false

section Scanning

variable {text before word rest : List Char}

lemma begun_nil : Begun [] := ⟨by simp, by simp⟩

lemma begun_singleton (hblank : isBlank c = false) (hop : isOperator c = false) : Begun [c] :=
  ⟨by simp [hblank, hop], by simp⟩

/-- A character that is none of the special ones lets the word go on. -/
lemma Begun.concat (h : Begun word) (hblank : isBlank c = false) (hop : isOperator c = false)
    (hcap : c.isUpper = false) : Begun (word ++ [c]) := by
  obtain ⟨hchars, hup⟩ := h
  refine ⟨List.forall_mem_append.mpr ⟨hchars, by simp [hblank, hop]⟩, ?_⟩
  cases word with
  | nil => simp
  | cons d word => exact List.forall_mem_append.mpr ⟨hup, by simp [hcap]⟩

lemma Begun.isWord (h : Begun word) (hne : word ≠ []) : IsWord word := .inr ⟨hne, h.1, h.2⟩

/-- Behind the parts of a text comes what is left of it. -/
lemma getElem?_behind (htext : text = before ++ (word ++ rest)) :
    text[before.length + word.length]? = rest.head? := by
  rw [htext, ← List.append_assoc, List.getElem?_append_right (by simp), List.head?_eq_getElem?]
  simp

lemma getElem?_last (htext : text = before ++ (word ++ rest)) (hne : word ≠ []) :
    text[before.length + word.length - 1]? = word.getLast? := by
  have hpos := List.length_pos_iff.mpr hne
  rw [htext, List.getElem?_append_right (by omega), List.getElem?_append_left (by omega),
    List.getLast?_eq_getElem?]
  congr 1
  omega

/-- The word read so far is taken, if it has any character, where a break comes behind
it. -/
lemma Scan.flush (htext : text = before ++ (word ++ rest)) (hword : word ≠ [] → IsWord word)
    (hbreak : ∀ c ∈ word.getLast?, ∀ d ∈ rest.head?, Breaks c d)
    (h : Scan text (before.length + word.length) spans) :
    ∃ spans', Scan text before.length spans'
      ∧ spans'.map (Span.read text) = wordOf word ++ spans.map (Span.read text) := by
  by_cases hne : word = []
  · subst hne
    exact ⟨spans, h, rfl⟩
  · have hlt : before.length < before.length + word.length := by
      have := List.length_pos_iff.mpr hne
      omega
    have hread : Span.read text ⟨before.length, _, hlt⟩ = word := by
      rw [Span.read, List.extract_eq_take_drop, Nat.add_sub_cancel_left, htext,
        List.drop_left, List.take_left]
    refine ⟨⟨before.length, _, hlt⟩ :: spans, .word (hread ▸ hword hne) ?_ h, ?_⟩
    · intro c d hc hd
      exact hbreak c (getElem?_last htext hne ▸ hc) d (getElem?_behind htext ▸ hd)
    · rw [List.map_cons, hread, wordOf, if_neg (by simpa using hne)]
      rfl

/-- **The scanner reads off the words of a scan.** The induction is on what is still to be
read; what has been read goes, word by word, to the part before. -/
theorem exists_scan (htext : text = before ++ (word ++ rest)) (hbegun : Begun word) :
    ∃ spans, Scan text before.length spans
      ∧ spans.map (Span.read text) = scanWords word rest := by
  induction rest generalizing before word with
  | nil =>
      have hend : before.length + word.length = text.length := by simp [htext]
      have hdone : Scan text (before.length + word.length) [] := hend ▸ .done
      obtain ⟨spans, hscan, hread⟩ := hdone.flush htext hbegun.isWord (by simp)
      exact ⟨spans, hscan, by rw [hread, scanWords, List.map_nil, List.append_nil]⟩
  | cons c rest ih =>
      have hplace : text[before.length + word.length]? = some c := getElem?_behind htext
      have hbehind : text = (before ++ word ++ [c]) ++ ([] ++ rest) := by simp [htext]
      have hglyph : text = (before ++ word) ++ ([c] ++ rest) := by simp [htext]
      -- a character that ends every word leaves the word read so far to be taken
      have htake : (∀ b, Breaks b c) → ∀ spans, Scan text (before.length + word.length) spans →
          ∃ spans', Scan text before.length spans'
            ∧ spans'.map (Span.read text) = wordOf word ++ spans.map (Span.read text) := by
        intro hbreak spans hscan
        refine hscan.flush htext hbegun.isWord fun b _ d hd => ?_
        cases hd
        exact hbreak b
      cases hblank : isBlank c with
      | true =>
          obtain ⟨spans, hscan, hread⟩ := ih hbehind begun_nil
          rw [List.length_append, List.length_append] at hscan
          obtain ⟨spans', hscan', hread'⟩ :=
            htake (fun b => .inr (.inl hblank)) spans (.blank hplace hblank hscan)
          exact ⟨spans', hscan', by rw [hread', hread, scanWords_blank hblank]⟩
      | false =>
          cases hop : isOperator c with
          | true =>
              obtain ⟨spans, hscan, hread⟩ := ih hbehind begun_nil
              rw [List.length_append] at hscan
              obtain ⟨spans', hscan', hread'⟩ := hscan.flush hglyph
                (fun _ => .inl ⟨c, isOperator_iff.mp hop, rfl⟩) fun b hb d _ => by
                  cases hb
                  exact .inr (.inr (.inl hop))
              rw [List.length_append] at hscan'
              obtain ⟨spans'', hscan'', hread''⟩ :=
                htake (fun b => .inr (.inr (.inr (.inl hop)))) spans' hscan'
              refine ⟨spans'', hscan'', ?_⟩
              rw [hread'', hread', hread, scanWords_operator hblank hop]
              rfl
          | false =>
              cases hcap : c.isUpper with
              | true =>
                  obtain ⟨spans, hscan, hread⟩ := ih hglyph (begun_singleton hblank hop)
                  rw [List.length_append] at hscan
                  obtain ⟨spans', hscan', hread'⟩ :=
                    htake (fun b => .inr (.inr (.inr (.inr hcap)))) spans hscan
                  exact ⟨spans', hscan', by
                    rw [hread', hread, scanWords_upper hblank hop hcap]⟩
              | false =>
                  rw [scanWords_other hblank hop hcap]
                  exact ih (by simp [htext]) (hbegun.concat hblank hop hcap)

end Scanning

/-! ### Cuts -/

/-- The position in a text behind a number of characters. -/
def cut (text : String) (i : Nat) : text.Pos where
  offset := (String.ofList (text.toList.take i)).rawEndPos
  isValid := by
    refine String.Pos.Raw.isValid_iff_exists_append.mpr
      ⟨_, String.ofList (text.toList.drop i), ?_, rfl⟩
    rw [← String.ofList_append, List.take_append_drop, String.ofList_toList]

/-- Between its two cuts stands what is read in a span. -/
lemma extract_cut (text : String) (p : Span) :
    text.extract (cut text p.start) (cut text p.stop) = String.ofList (p.read text.toList) := by
  have htake : text.toList.take p.stop = text.toList.take p.start ++ p.read text.toList := by
    rw [Span.read, List.extract_eq_take_drop, ← List.take_add,
      Nat.add_sub_cancel' p.start_lt_stop.le]
  have htext : text.toByteArray
      = (String.ofList (text.toList.take p.start)).toByteArray
        ++ ((String.ofList (p.read text.toList)).toByteArray
          ++ (String.ofList (text.toList.drop p.stop)).toByteArray) := by
    rw [← ByteArray.append_assoc, ← String.toByteArray_append, ← String.toByteArray_append,
      ← String.ofList_append, ← String.ofList_append, ← htake, List.take_append_drop,
      String.ofList_toList]
  have hstart : (cut text p.start).offset.byteIdx
      = (String.ofList (text.toList.take p.start)).toByteArray.size + 0 := rfl
  have hstop : (cut text p.stop).offset.byteIdx
      = (String.ofList (text.toList.take p.start)).toByteArray.size
        + (String.ofList (p.read text.toList)).toByteArray.size := by
    show (String.ofList (text.toList.take p.stop)).utf8ByteSize = _
    rw [htake, String.ofList_append, String.utf8ByteSize_append]
    rfl
  rw [← String.toByteArray_inj, String.toByteArray_extract, hstart, hstop, htext,
    ByteArray.extract_append_size_add, ByteArray.extract_append_eq_left rfl]

/-! ### The words of a text -/

/-- Words with a blank between them are read back. -/
lemma words_intercalate {ws : List (List Char)} (hws : ∀ w ∈ ws, IsWord w) :
    words ([' '].intercalate ws) = ws := by
  induction ws with
  | nil => rfl
  | cons w ws ih =>
      obtain ⟨hw, hws⟩ := List.forall_mem_cons.mp hws
      have hblank : isBlank ' ' = true := by decide
      cases ws with
      | nil =>
          have hend : ∀ c ∈ ([] : List Char).head?, isBlank c = true := by simp
          have hscan := scanWords_append hw hend
          rw [List.append_nil] at hscan
          rw [List.intercalate_singleton, words, hscan]
          rfl
      | cons w' ws =>
          have hrest : scanWords [] ([' '].intercalate (w' :: ws)) = w' :: ws := ih hws
          rw [List.intercalate_cons_cons, List.append_assoc, words,
            scanWords_append hw (by simpa using hblank), List.singleton_append,
            scanWords_blank hblank, hrest]
          rfl

/-- **The words of a text are its maximal splitting.** There is one list of spans that
splits the text: they come one after the other and cover what is not blank; in each stands
an operator glyph, or a text without blanks and operator glyphs in which a capital letter
stands at the front only; and two of them touch only at an operator glyph or before a
capital letter. The words are what stands in these spans, which are cut between characters.
Together they are the text without its blanks, and with a blank between them they are read
back. -/
theorem words_exact (text : String) :
    ∃ spans : List Span, Splits text.toList spans
      ∧ (∀ spans', Splits text.toList spans' → spans' = spans)
      ∧ words text.toList = spans.map (Span.read text.toList)
      ∧ (∀ p ∈ spans, text.extract (cut text p.start) (cut text p.stop)
          = String.ofList (p.read text.toList))
      ∧ (words text.toList).flatten = text.toList.filter (fun c => !isBlank c)
      ∧ words ([' '].intercalate (words text.toList)) = words text.toList := by
  have htext : text.toList = [] ++ ([] ++ text.toList) := rfl
  obtain ⟨spans, hscan, hread⟩ := exists_scan htext begun_nil
  refine ⟨spans, hscan.splits, fun spans' h => h.unique hscan.splits, hread.symm,
    fun p _ => extract_cut text p, ?_, ?_⟩
  · exact flatten_scanWords [] text.toList
  · exact words_intercalate fun w hw => isWord_of_mem_words hw

/-- Words that touch, and others with blanks around them. -/
example : words " TE'+(ident  )".toList
    = ["T", "E'", "+", "(", "ident", ")"].map String.toList := by
  decide

end TopDown.Text
