import TopDown.Lookahead.FollowSets
import TopDown.Proofs.FirstSets

/-!
FOLLOW sets are closed under what the rules say.

The FIRST sets that the passes read are arbitrary here, unless said otherwise.

* `FollowSets.mem_afterOccurrence`, `FollowSets.mem_members_pass`: what one
  occurrence contributes, and what one pass leaves.
* `FollowSets.pass_ofGrammar`: the sets of a grammar are not changed by a pass,
  whatever the FIRST sets.
* `FollowSets.mem_members_of_rule`: so what may follow an occurrence in a rule
  is in the set of the symbol that occurs.
* `FollowSets.none_mem_start`: the input may end after the start symbol.
* `Grammar.first`, `Grammar.follow`: the sets of which a grammar's own table is
  made; what follows a left-hand side follows each symbol of a right-hand side
  that is erased (`FollowSets.mem_members_rhs`).
-/

namespace TopDown

namespace FollowSets

variable {g : Grammar} {f : FirstSets} {h : FollowSets}

/-! ### Passes -/

/-- What may follow an occurrence: what the rest starts with, and what follows
the left-hand side if the rest lets the scan pass. -/
lemma mem_afterOccurrence {lhs : Symbol} {v : List Symbol} {x : Lookahead} :
    x ∈ h.afterOccurrence g f lhs v ↔
      (x ≠ none ∧ x ∈ f.ofString g.isTerminal v)
        ∨ (none ∈ f.ofString g.isTerminal v ∧ x ∈ h.members lhs) := by
  rw [afterOccurrence]
  by_cases hnull : none ∈ f.ofString g.isTerminal v
  · rw [if_pos hnull, OrderedSet.mem_union, OrderedSet.mem_erase]
    exact or_congr and_comm (iff_and_self.mpr fun _ => hnull)
  · rw [if_neg hnull]
    constructor
    · intro hx
      exact .inl ⟨fun e => hnull (e ▸ hx), hx⟩
    · rintro (⟨_, hx⟩ | ⟨hv, _⟩)
      · exact hx
      · exact absurd hv hnull

/-- A right-hand side contributes at each of its occurrences. -/
lemma mem_ofRhs {lhs s : Symbol} {u : LookaheadSet} {w : List Symbol} :
    (s, u) ∈ h.ofRhs g f lhs w ↔
      g.isTerminal s = false
        ∧ ∃ p v, w = p ++ s :: v ∧ u = h.afterOccurrence g f lhs v := by
  induction w with
  | nil => simp [ofRhs]
  | cons c w ih =>
      rw [ofRhs]
      have htail : (∃ p v, c :: w = p ++ s :: v ∧ u = h.afterOccurrence g f lhs v) ↔
          (c = s ∧ u = h.afterOccurrence g f lhs w)
            ∨ ∃ p v, w = p ++ s :: v ∧ u = h.afterOccurrence g f lhs v := by
        constructor
        · rintro ⟨p, v, hw, hu⟩
          cases p with
          | nil =>
              cases hw
              exact .inl ⟨rfl, hu⟩
          | cons d p =>
              cases hw
              exact .inr ⟨p, v, rfl, hu⟩
        · rintro (⟨rfl, hu⟩ | ⟨p, v, rfl, hu⟩)
          · exact ⟨[], w, rfl, hu⟩
          · exact ⟨c :: p, v, rfl, hu⟩
      rw [htail]
      cases hc : g.isTerminal c with
      | true =>
          rw [if_pos rfl, ih]
          refine and_congr_right fun hs => (or_iff_right ?_).symm
          rintro ⟨rfl, _⟩
          rw [hc] at hs
          exact Bool.false_ne_true hs.symm
      | false =>
          rw [if_neg Bool.false_ne_true, List.mem_cons, ih, Prod.mk.injEq]
          constructor
          · rintro (⟨rfl, hu⟩ | ⟨hs, hex⟩)
            · exact ⟨hc, .inl ⟨rfl, hu⟩⟩
            · exact ⟨hs, .inr hex⟩
          · rintro ⟨hs, ⟨rfl, hu⟩ | hex⟩
            · exact .inl ⟨rfl, hu⟩
            · exact .inr ⟨hs, hex⟩

lemma mem_contributions {s : Symbol} {u : LookaheadSet} :
    (s, u) ∈ h.contributions g f ↔
      g.isTerminal s = false
        ∧ ∃ r ∈ g.rules, ∃ p v, r.rhs = p ++ s :: v ∧ u = h.afterOccurrence g f r.lhs v := by
  rw [contributions, List.mem_flatMap]
  constructor
  · rintro ⟨r, hr, hu⟩
    obtain ⟨hs, hex⟩ := mem_ofRhs.mp hu
    exact ⟨hs, r, hr, hex⟩
  · rintro ⟨hs, r, hr, hex⟩
    exact ⟨r, hr, mem_ofRhs.mpr ⟨hs, hex⟩⟩

/-- **What a pass leaves**: what followed before, and what follows the
occurrences in the rules. -/
theorem mem_members_pass {s : Symbol} {x : Lookahead} :
    x ∈ (pass g f h).members s ↔
      x ∈ h.members s
        ∨ (g.isTerminal s = false
          ∧ ∃ r ∈ g.rules, ∃ p v, r.rhs = p ++ s :: v
            ∧ x ∈ h.afterOccurrence g f r.lhs v) := by
  rw [members, pass, LookaheadSets.mem_members_absorbAll, members]
  refine or_congr_right ⟨?_, ?_⟩
  · rintro ⟨u, hu, hx⟩
    obtain ⟨hs, r, hr, p, v, hrhs, rfl⟩ := mem_contributions.mp hu
    exact ⟨hs, r, hr, p, v, hrhs, hx⟩
  · rintro ⟨hs, r, hr, p, v, hrhs, hx⟩
    exact ⟨_, mem_contributions.mpr ⟨hs, r, hr, p, v, hrhs, rfl⟩, hx⟩

/-! ### Settling -/

/-- The lookaheads that can follow, given FIRST sets: those of the grammar and
the members of the FIRST sets. -/
def candidates (g : Grammar) (f : FirstSets) : List Lookahead :=
  FirstSets.candidates g ++ f.sets.toList.flatMap fun e => e.2.toList

lemma length_candidates : (candidates g f).length = g.symbolCount + 1 + f.sets.total := by
  have hsets : ∀ l : List (Symbol × LookaheadSet),
      (l.flatMap fun e => e.2.toList).length = l.foldr (fun e n => e.2.size + n) 0 := by
    intro l
    induction l with
    | nil => rfl
    | cons e l ih =>
        rw [List.flatMap_cons, List.length_append, ih, List.foldr_cons, OrderedSet.size]
  rw [candidates, List.length_append, hsets, FirstSets.candidates, List.length_cons,
    List.length_map, List.length_range, LookaheadSets.total]

lemma mem_candidates_of_members {s : Symbol} {x : Lookahead} (hx : x ∈ f.members s) :
    x ∈ candidates g f := by
  rw [FirstSets.members, LookaheadSets.members] at hx
  cases hs : f.sets.get? s with
  | none =>
      rw [hs, Option.getD_none] at hx
      exact absurd hx (OrderedSet.not_mem_empty x)
  | some u =>
      rw [hs, Option.getD_some] at hx
      exact List.mem_append_right _
        (List.mem_flatMap.mpr ⟨(s, u), OrderedMap.get?_eq_some_iff.mp hs, hx⟩)

lemma mem_candidates_of_ofString {v : List Symbol} {x : Lookahead}
    (hx : x ∈ f.ofString g.isTerminal v) : x ∈ candidates g f :=
  FirstSets.mem_of_mem_ofString (List.mem_append_left _ List.mem_cons_self)
    (fun _ ha => List.mem_append_left _ (FirstSets.some_mem_candidates ha))
    (fun _ _ => mem_candidates_of_members) v x hx

/-- A pass keeps to the declared nonterminals and to the candidates. -/
lemma within_pass (hh : h.sets.Within g.nonterminals (candidates g f)) :
    (pass g f h).sets.Within g.nonterminals (candidates g f) := by
  refine ⟨fun s => ?_, fun s x hx => ?_⟩
  · rw [pass, LookaheadSets.get?_absorbAll_isSome, hh.keys]
    refine or_iff_left_of_imp ?_
    rintro ⟨⟨c, u⟩, hc, rfl⟩
    obtain ⟨hc', r, hr, p, v, hrhs, _⟩ := mem_contributions.mp hc
    exact Grammar.mem_nonterminals_of_rhs hr (by simp [hrhs]) hc'
  · obtain hold | ⟨_, r, _, p, v, _, hnew⟩ := mem_members_pass.mp hx
    · exact hh.range s x hold
    · obtain ⟨_, hv⟩ | ⟨_, hlhs⟩ := mem_afterOccurrence.mp hnew
      · exact mem_candidates_of_ofString hv
      · exact hh.range r.lhs x hlhs

lemma mem_members_initial {s : Symbol} {x : Lookahead} :
    x ∈ (initial g).members s ↔ s = g.start ∧ x = none := by
  rw [members, LookaheadSets.members, initial, OrderedMap.get?_ofList_map]
  by_cases hs : s = g.start
  · subst hs
    rw [if_pos g.start_mem, if_pos rfl, Option.getD_some, OrderedSet.mem_singleton,
      and_iff_right rfl]
  · refine iff_of_false ?_ fun e => hs e.1
    rw [if_neg hs]
    split <;> exact OrderedSet.not_mem_empty x

lemma within_initial : (initial g).sets.Within g.nonterminals (candidates g f) := by
  refine ⟨fun s => ?_, fun s x hx => ?_⟩
  · rw [initial, OrderedMap.get?_ofList_map]
    split <;> simp_all
  · rw [(mem_members_initial.mp hx).2]
    exact List.mem_append_left _ List.mem_cons_self

lemma sets_injective : Function.Injective FollowSets.sets :=
  fun _ _ e => FollowSets.ext e

lemma within_ofGrammar (g : Grammar) (f : FirstSets) :
    (ofGrammar g f).sets.Within g.nonterminals (candidates g f) :=
  settle_induction
    (P := fun h : FollowSets => h.sets.Within g.nonterminals (candidates g f))
    (fun _ => within_pass) _ _ within_initial

/-- **The FOLLOW sets of a grammar are settled**, whatever the FIRST sets:
another pass changes nothing. -/
theorem pass_ofGrammar (g : Grammar) (f : FirstSets) :
    pass g f (ofGrammar g f) = ofGrammar g f := by
  refine LookaheadSets.settle_eq sets_injective (fun _ => within_pass)
    (fun h s x hx => mem_members_pass.mpr (.inl hx)) ?_ within_initial
  rw [length_candidates, passBound]
  omega

/-- What may follow an occurrence in a rule is in the set of the symbol that
occurs. -/
lemma mem_members_of_rule {r : Rule} (hr : r ∈ g.rules) {p v : List Symbol} {s : Symbol}
    (hrhs : r.rhs = p ++ s :: v) (hs : g.isTerminal s = false) {x : Lookahead}
    (hx : x ∈ (ofGrammar g f).afterOccurrence g f r.lhs v) :
    x ∈ (ofGrammar g f).members s := by
  rw [← pass_ofGrammar g f]
  exact mem_members_pass.mpr (.inr ⟨hs, r, hr, p, v, hrhs, hx⟩)

/-- The input may end after the start symbol. -/
lemma none_mem_start (g : Grammar) (f : FirstSets) :
    none ∈ (ofGrammar g f).members g.start :=
  settle_induction (P := fun h : FollowSets => none ∈ h.members g.start)
    (fun _ hx => mem_members_pass.mpr (.inl hx)) _ _ (mem_members_initial.mpr ⟨rfl, rfl⟩)

end FollowSets

/-- The FIRST sets of a grammar. -/
abbrev Grammar.first (g : Grammar) : FirstSets := FirstSets.ofGrammar g

/-- The FOLLOW sets of a grammar, for its own FIRST sets. -/
abbrev Grammar.follow (g : Grammar) : FollowSets := FollowSets.ofGrammar g g.first

/-- What follows a left-hand side follows every symbol of a right-hand side that
is erased. -/
lemma FollowSets.mem_members_rhs {g : Grammar} {r : Rule} (hr : r ∈ g.rules)
    (hrhs : g.Nullable r.rhs) {x : Lookahead} (hx : x ∈ g.follow.members r.lhs) :
    ∀ s ∈ r.rhs, x ∈ g.follow.members s := by
  intro s hs
  obtain ⟨p, v, hpv⟩ := List.append_of_mem hs
  have hns := hrhs.isTerminal s hs
  rw [hpv] at hrhs
  have hv : g.Nullable ([s] ++ v) := hrhs.of_append.2
  have hnone : none ∈ g.first.ofString g.isTerminal v :=
    FirstSets.none_mem_ofString_iff.mpr hv.of_append.2
  exact mem_members_of_rule hr hpv hns (mem_afterOccurrence.mpr (.inr ⟨hnone, hx⟩))

end TopDown
