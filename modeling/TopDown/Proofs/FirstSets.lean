import TopDown.Lookahead.FirstSets
import TopDown.Proofs.Derivation
import TopDown.Proofs.Growth

/-!
FIRST sets are what derivations say they are.

* `FirstSets.mem_ofString_cons`, `FirstSets.mem_ofString_append`: the scan of a
  string, for any sets.
* `FirstSets.mem_members_pass`: what one pass leaves, for any sets.
* `FirstSets.pass_ofGrammar`: the sets of a grammar are not changed by a pass.
* `FirstSets.Sound`: the sets hold nothing but what derivations allow; every
  pass keeps that (`Sound.pass`).
* `FirstSets.none_mem_ofString_iff`, `FirstSets.some_mem_ofString_iff`: the
  scan of a string with the sets of the grammar finds exactly the terminals that
  a derived string can begin with, and the empty string exactly if it is
  derived; `FirstSets.ofString_exact` is the whole statement.
-/

namespace TopDown

namespace FirstSets

variable {g : Grammar} {f : FirstSets} {isTerminal : Symbol → Bool}

/-! ### The scan of a string -/

lemma mem_ofString_nil {x : Lookahead} : x ∈ f.ofString isTerminal [] ↔ x = none :=
  OrderedSet.mem_singleton

/-- A terminal stops the scan. -/
lemma mem_ofString_terminal {s : Symbol} {w : List Symbol} {x : Lookahead}
    (hs : isTerminal s = true) : x ∈ f.ofString isTerminal (s :: w) ↔ x = some s := by
  rw [ofString, if_pos hs, OrderedSet.mem_singleton]

/-- A symbol that is no terminal gives its own starts, and lets the scan go on
if the empty string is among them. -/
lemma mem_ofString_cons {s : Symbol} {w : List Symbol} {x : Lookahead}
    (hs : isTerminal s = false) :
    x ∈ f.ofString isTerminal (s :: w) ↔
      (x ≠ none ∧ x ∈ f.members s) ∨ (none ∈ f.members s ∧ x ∈ f.ofString isTerminal w) := by
  rw [ofString, if_neg (by rw [hs]; exact Bool.false_ne_true), isNullable]
  by_cases hnull : none ∈ f.members s
  · rw [if_pos (by simpa using hnull), OrderedSet.mem_union, OrderedSet.mem_erase]
    exact or_congr and_comm (iff_and_self.mpr fun _ => hnull)
  · rw [if_neg (by simpa using hnull)]
    constructor
    · intro hx
      exact .inl ⟨fun e => hnull (e ▸ hx), hx⟩
    · rintro (⟨_, hx⟩ | ⟨h, _⟩)
      · exact hx
      · exact absurd h hnull

/-- **The scan of two strings side by side**: what the first gives, and what
the second gives if the first lets the scan pass. -/
theorem mem_ofString_append {u v : List Symbol} {x : Lookahead} :
    x ∈ f.ofString isTerminal (u ++ v) ↔
      (x ≠ none ∧ x ∈ f.ofString isTerminal u)
        ∨ (none ∈ f.ofString isTerminal u ∧ x ∈ f.ofString isTerminal v) := by
  induction u with
  | nil =>
      rw [List.nil_append, mem_ofString_nil, mem_ofString_nil]
      constructor
      · exact fun h => .inr ⟨rfl, h⟩
      · rintro (⟨h, h'⟩ | ⟨_, h⟩)
        · exact absurd h' h
        · exact h
  | cons s u ih =>
      rw [List.cons_append]
      cases hs : isTerminal s with
      | true =>
          rw [mem_ofString_terminal hs, mem_ofString_terminal hs, mem_ofString_terminal hs]
          constructor
          · rintro rfl
            exact .inl ⟨Option.some_ne_none s, rfl⟩
          · rintro (⟨_, h⟩ | ⟨h, _⟩)
            · exact h
            · exact absurd h.symm (Option.some_ne_none s)
      | false =>
          rw [mem_ofString_cons hs, mem_ofString_cons hs, mem_ofString_cons hs, ih]
          constructor
          · rintro (⟨hx, h⟩ | ⟨hn, ⟨hx, h⟩ | ⟨hu, h⟩⟩)
            · exact .inl ⟨hx, .inl ⟨hx, h⟩⟩
            · exact .inl ⟨hx, .inr ⟨hn, h⟩⟩
            · exact .inr ⟨.inr ⟨hn, hu⟩, h⟩
          · rintro (⟨hx, ⟨_, h⟩ | ⟨hn, h⟩⟩ | ⟨⟨hx, _⟩ | ⟨hn, hu⟩, h⟩)
            · exact .inl ⟨hx, h⟩
            · exact .inr ⟨hn, .inl ⟨hx, h⟩⟩
            · exact absurd rfl hx
            · exact .inr ⟨hn, .inr ⟨hu, h⟩⟩

/-- The scan finds nothing but the empty string, terminals and members of the
sets. -/
lemma mem_of_mem_ofString {U : List Lookahead} (hnone : none ∈ U)
    (hterminal : ∀ a, isTerminal a = true → some a ∈ U)
    (hmembers : ∀ s, ∀ x ∈ f.members s, x ∈ U) :
    ∀ w : List Symbol, ∀ x ∈ f.ofString isTerminal w, x ∈ U := by
  intro w
  induction w with
  | nil =>
      intro x hx
      rw [mem_ofString_nil.mp hx]
      exact hnone
  | cons s w ih =>
      intro x hx
      cases hs : isTerminal s with
      | true =>
          rw [(mem_ofString_terminal hs).mp hx]
          exact hterminal s hs
      | false =>
          obtain ⟨_, h⟩ | ⟨_, h⟩ := (mem_ofString_cons hs).mp hx
          · exact hmembers s x h
          · exact ih x h

/-! ### Passes -/

/-- **What a pass leaves**: the starts there were, and those of the right-hand
sides. -/
theorem mem_members_pass {s : Symbol} {x : Lookahead} :
    x ∈ (pass g f).members s ↔
      x ∈ f.members s ∨ ∃ r ∈ g.rules, r.lhs = s ∧ x ∈ f.ofString g.isTerminal r.rhs := by
  rw [members, pass, LookaheadSets.mem_members_absorbAll, members]
  refine or_congr_right ⟨?_, ?_⟩
  · rintro ⟨u, hu, hx⟩
    obtain ⟨r, hr, e⟩ := List.mem_map.mp hu
    cases e
    exact ⟨r, hr, rfl, hx⟩
  · rintro ⟨r, hr, rfl, hx⟩
    exact ⟨_, List.mem_map.mpr ⟨r, hr, rfl⟩, hx⟩

/-- The lookaheads that the sets of a grammar can hold. -/
def candidates (g : Grammar) : List Lookahead :=
  none :: (List.range g.symbolCount).map fun i => some (Symbol.ofNat i)

lemma some_mem_candidates {a : Symbol} (ha : g.isTerminal a = true) :
    some a ∈ candidates g := by
  have hlt : a.index < g.symbolCount := (Grammar.isTerminal_iff.mp ha).1
  refine List.mem_cons_of_mem _ (List.mem_map.mpr ⟨a.index, List.mem_range.mpr hlt, ?_⟩)
  rw [Symbol.ofNat_index]

/-- A pass keeps to the declared nonterminals and to the symbols in use. -/
lemma within_pass (hf : f.sets.Within g.nonterminals (candidates g)) :
    (pass g f).sets.Within g.nonterminals (candidates g) := by
  refine ⟨fun s => ?_, fun s x hx => ?_⟩
  · rw [pass, LookaheadSets.get?_absorbAll_isSome, hf.keys]
    refine or_iff_left_of_imp ?_
    rintro ⟨c, hc, rfl⟩
    obtain ⟨r, hr, rfl⟩ := List.mem_map.mp hc
    exact g.lhs_mem r hr
  · obtain h | ⟨r, _, _, h⟩ := mem_members_pass.mp hx
    · exact hf.range s x h
    · exact mem_of_mem_ofString List.mem_cons_self (fun _ => some_mem_candidates)
        hf.range r.rhs x h

lemma members_initial (s : Symbol) : (initial g).members s = ∅ := by
  rw [members, LookaheadSets.members, initial, OrderedMap.get?_ofList_map]
  split <;> rfl

lemma within_initial : (initial g).sets.Within g.nonterminals (candidates g) := by
  refine ⟨fun s => ?_, fun s x hx => ?_⟩
  · rw [initial, OrderedMap.get?_ofList_map]
    split <;> simp_all
  · have h := members_initial (g := g) s
    rw [members] at h
    rw [h] at hx
    exact absurd hx (OrderedSet.not_mem_empty x)

lemma sets_injective : Function.Injective FirstSets.sets :=
  fun _ _ h => FirstSets.ext h

lemma within_ofGrammar (g : Grammar) :
    (ofGrammar g).sets.Within g.nonterminals (candidates g) :=
  settle_induction (P := fun f : FirstSets => f.sets.Within g.nonterminals (candidates g))
    (fun _ => within_pass) _ _ within_initial

/-- **The FIRST sets of a grammar are settled**: another pass changes
nothing. -/
theorem pass_ofGrammar (g : Grammar) : pass g (ofGrammar g) = ofGrammar g := by
  refine LookaheadSets.settle_eq sets_injective (fun _ => within_pass)
    (fun f s x hx => mem_members_pass.mpr (.inl hx)) ?_ within_initial
  rw [passBound, candidates, List.length_cons, List.length_map, List.length_range]
  omega

/-- The starts of a right-hand side are starts of the left-hand side. -/
lemma mem_members_of_rule {r : Rule} (hr : r ∈ g.rules) {x : Lookahead}
    (hx : x ∈ (ofGrammar g).ofString g.isTerminal r.rhs) : x ∈ (ofGrammar g).members r.lhs := by
  rw [← pass_ofGrammar g]
  exact mem_members_pass.mpr (.inr ⟨r, hr, rfl, hx⟩)

/-! ### Nothing but what is derived -/

/-- The sets hold only what derivations allow. -/
structure Sound (g : Grammar) (f : FirstSets) : Prop where
  nullable : ∀ s, none ∈ f.members s → g.Nullable [s]
  starts : ∀ s a, some a ∈ f.members s → g.isTerminal a = true ∧ g.Starts a [s]

lemma Sound.nullable_of_mem (hf : Sound g f) :
    ∀ w : List Symbol, none ∈ f.ofString g.isTerminal w → g.Nullable w := by
  intro w
  induction w with
  | nil => exact fun _ => Grammar.Nullable.nil
  | cons s w ih =>
      intro h
      cases hs : g.isTerminal s with
      | true => exact absurd ((mem_ofString_terminal hs).mp h).symm (Option.some_ne_none s)
      | false =>
          obtain ⟨hne, _⟩ | ⟨hnull, hw⟩ := (mem_ofString_cons hs).mp h
          · exact absurd rfl hne
          · exact (hf.nullable s hnull).append (ih hw)

lemma Sound.starts_of_mem (hf : Sound g f) {a : Symbol} :
    ∀ w : List Symbol, some a ∈ f.ofString g.isTerminal w →
      g.isTerminal a = true ∧ g.Starts a w := by
  intro w
  induction w with
  | nil =>
      intro h
      exact absurd (mem_ofString_nil.mp h) (Option.some_ne_none a)
  | cons s w ih =>
      intro h
      cases hs : g.isTerminal s with
      | true =>
          cases (mem_ofString_terminal hs).mp h
          exact ⟨hs, Grammar.Starts.here w⟩
      | false =>
          obtain ⟨_, hmem⟩ | ⟨hnull, hw⟩ := (mem_ofString_cons hs).mp h
          · obtain ⟨ha, hstarts⟩ := hf.starts s a hmem
            exact ⟨ha, hstarts.append_right w⟩
          · obtain ⟨ha, hstarts⟩ := ih hw
            exact ⟨ha, Grammar.Starts.skip (hf.nullable s hnull) hstarts⟩

/-- A pass adds nothing that is not derived. -/
lemma Sound.pass (hf : Sound g f) : Sound g (FirstSets.pass g f) := by
  refine ⟨fun s h => ?_, fun s a h => ?_⟩
  · obtain hold | ⟨r, hr, rfl, hnew⟩ := mem_members_pass.mp h
    · exact hf.nullable s hold
    · exact Grammar.Nullable.cons hr (hf.nullable_of_mem r.rhs hnew) Grammar.Nullable.nil
  · obtain hold | ⟨r, hr, rfl, hnew⟩ := mem_members_pass.mp h
    · exact hf.starts s a hold
    · obtain ⟨ha, hstarts⟩ := hf.starts_of_mem r.rhs hnew
      exact ⟨ha, Grammar.Starts.expand hr hstarts⟩

lemma sound_ofGrammar (g : Grammar) : Sound g (ofGrammar g) := by
  refine settle_induction (P := Sound g) (fun _ => Sound.pass) _ _ ⟨fun s h => ?_, fun s a h => ?_⟩
  · rw [members_initial] at h
    exact absurd h (OrderedSet.not_mem_empty none)
  · rw [members_initial] at h
    exact absurd h (OrderedSet.not_mem_empty (some a))

/-! ### Everything that is derived -/

lemma none_mem_of_nullable {w : List Symbol} (h : g.Nullable w) :
    none ∈ (ofGrammar g).ofString g.isTerminal w := by
  induction h with
  | nil => exact mem_ofString_nil.mpr rfl
  | cons hr _ _ ihr ihw =>
      exact (mem_ofString_cons (Grammar.isTerminal_lhs hr)).mpr
        (.inr ⟨mem_members_of_rule hr ihr, ihw⟩)

lemma some_mem_of_starts {a : Symbol} {w : List Symbol} (ha : g.isTerminal a = true)
    (h : g.Starts a w) : some a ∈ (ofGrammar g).ofString g.isTerminal w := by
  induction h with
  | here w => exact (mem_ofString_terminal ha).mpr rfl
  | expand hr _ ih =>
      exact (mem_ofString_cons (Grammar.isTerminal_lhs hr)).mpr
        (.inl ⟨Option.some_ne_none a, mem_members_of_rule hr ih⟩)
  | skip hs _ ih =>
      obtain ⟨r, hr, rfl, hrhs⟩ := hs.head
      exact (mem_ofString_cons (Grammar.isTerminal_lhs hr)).mpr
        (.inr ⟨mem_members_of_rule hr (none_mem_of_nullable hrhs), ih⟩)

/-- The scan finds the empty string exactly if the string can be erased. -/
lemma none_mem_ofString_iff {w : List Symbol} :
    none ∈ (ofGrammar g).ofString g.isTerminal w ↔ g.Nullable w :=
  ⟨(sound_ofGrammar g).nullable_of_mem w, none_mem_of_nullable⟩

/-- The scan finds a symbol exactly if it is a terminal that can be brought to
the front. -/
lemma some_mem_ofString_iff {a : Symbol} {w : List Symbol} :
    some a ∈ (ofGrammar g).ofString g.isTerminal w ↔
      g.isTerminal a = true ∧ g.Starts a w :=
  ⟨(sound_ofGrammar g).starts_of_mem w, fun h => some_mem_of_starts h.1 h.2⟩

/-- A derivation brings no new start. -/
lemma mem_ofString_of_derives {v w : List Symbol} (h : g.Derives v w) {x : Lookahead}
    (hx : x ∈ (ofGrammar g).ofString g.isTerminal w) :
    x ∈ (ofGrammar g).ofString g.isTerminal v := by
  cases x with
  | none =>
      rw [none_mem_ofString_iff, Grammar.nullable_iff] at hx ⊢
      exact h.trans hx
  | some a =>
      rw [some_mem_ofString_iff, Grammar.starts_iff] at hx ⊢
      obtain ⟨ha, w', hw'⟩ := hx
      exact ⟨ha, w', h.trans hw'⟩

/-- The first of the terminals that a string derives, or that there is none, is
among the starts of the string. -/
lemma head?_mem_ofString {v w : List Symbol} (h : g.Derives v w)
    (hw : ∀ a ∈ w, g.isTerminal a = true) :
    w.head? ∈ (ofGrammar g).ofString g.isTerminal v := by
  refine mem_ofString_of_derives h ?_
  cases w with
  | nil => exact mem_ofString_nil.mpr rfl
  | cons a w => exact (mem_ofString_terminal (hw a List.mem_cons_self)).mpr rfl

/-- The set of a declared nonterminal is what the scan of that one symbol
gives. -/
lemma get?_eq_ofString {s : Symbol} (hs : s ∈ g.nonterminals) :
    (ofGrammar g).get? s = some ((ofGrammar g).ofString g.isTerminal [s]) := by
  have hns := Grammar.isTerminal_of_mem hs
  obtain ⟨u, hu⟩ := Option.isSome_iff_exists.mp (((within_ofGrammar g).keys s).mpr hs)
  have hmem : (ofGrammar g).members s = u := by
    rw [members, LookaheadSets.members, hu, Option.getD_some]
  have hset : u = (ofGrammar g).ofString g.isTerminal [s] := by
    refine OrderedSet.ext_mem fun x => ?_
    rw [mem_ofString_cons hns, mem_ofString_nil, hmem]
    cases x with
    | none => simp
    | some a => simp
  rw [get?, hu, hset]

/-- The starts of a declared nonterminal are those that the scan of that one symbol
finds. -/
lemma members_eq_ofString {s : Symbol} (hs : s ∈ g.nonterminals) :
    (ofGrammar g).members s = (ofGrammar g).ofString g.isTerminal [s] := by
  have h := get?_eq_ofString hs
  rw [get?] at h
  rw [members, LookaheadSets.members, h, Option.getD_some]

/-- **FIRST sets are exactly the derivational ones.** The scan of any string,
symbols without rules included, holds a terminal exactly if a string that begins
with it is derived, and the empty string exactly if that is derived. The set of a
declared nonterminal is the scan of that one symbol, and it is nullable exactly
if it derives the empty string. -/
theorem ofString_exact (g : Grammar) :
    (∀ w : List Symbol,
      (∀ a, some a ∈ (ofGrammar g).ofString g.isTerminal w ↔
        g.isTerminal a = true ∧ ∃ v, g.Derives w (a :: v))
      ∧ (none ∈ (ofGrammar g).ofString g.isTerminal w ↔ g.Derives w []))
    ∧ ∀ s ∈ g.nonterminals,
      (ofGrammar g).get? s = some ((ofGrammar g).ofString g.isTerminal [s])
      ∧ ((ofGrammar g).isNullable s = true ↔ g.Derives [s] []) := by
  refine ⟨fun w => ⟨fun a => ?_, ?_⟩, fun s hs => ⟨get?_eq_ofString hs, ?_⟩⟩
  · rw [some_mem_ofString_iff, Grammar.starts_iff]
  · rw [none_mem_ofString_iff, Grammar.nullable_iff]
  · rw [isNullable, decide_eq_true_eq, members_eq_ofString hs, none_mem_ofString_iff,
      Grammar.nullable_iff]

/-- The rest of a sum may be empty, as the set computed for it says. -/
theorem ofString_exact_sums :
    Symbol.ofNat 2 ∈ Grammar.sums.nonterminals
      ∧ Grammar.sums.Derives [Symbol.ofNat 2] [] := by
  have hmem : Symbol.ofNat 2 ∈ Grammar.sums.nonterminals := by decide
  have hnull : (ofGrammar Grammar.sums).isNullable (Symbol.ofNat 2) = true := by
    decide +kernel
  exact ⟨hmem, ((ofString_exact Grammar.sums).2 _ hmem).2.mp hnull⟩

end FirstSets

end TopDown
