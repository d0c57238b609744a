import TopDown.Proofs.FollowSets
import TopDown.Proofs.Renaming

/-!
Renamed grammars have renamed FIRST and FOLLOW sets, found in as many passes.

A pass reads the sets as they were before it only, so the order of the rules plays no part
in it, and passes over two grammars that differ by a renaming go side by side.

* `settle_related`: two passes that keep a relation are repeated equally often, if the
  relation determines each side by the other.
* `LookaheadSets.Renamed`: the sets of one grammar are those of the other, renamed. Such
  sets determine each other (`LookaheadSets.Renamed.eq_iff`), and hold as many lookaheads
  (`LookaheadSets.Renamed.total`).
* `Grammar.Renames.mem_ofString`, `Grammar.Renames.firstPass`,
  `Grammar.Renames.followPass`: the scan of a string and one pass of either kind, for any
  sets that are renamed.
* `Grammar.Renames.firstSets`, `Grammar.Renames.followSets`: so the sets are renamed, and
  the numbers of passes are equal.
-/

namespace TopDown

/-! ### Passes side by side -/

/-- **Passes that keep a relation are repeated equally often**, if related values are
equal exactly together. -/
theorem settle_related {α β : Type} [DecidableEq α] [DecidableEq β] {pass : α → α}
    {pass' : β → β} {R : α → β → Prop} (hpass : ∀ x y, R x y → R (pass x) (pass' y))
    (heq : ∀ x y x' y', R x y → R x' y' → (x' = x ↔ y' = y)) :
    ∀ (bound : Nat) (x : α) (y : β), R x y →
      R (settle pass bound x).value (settle pass' bound y).value
        ∧ (settle pass' bound y).passes = (settle pass bound x).passes
  | 0, _, _, h => ⟨h, rfl⟩
  | bound + 1, x, y, h => by
      have hnext := hpass x y h
      have hsame := heq x y _ _ h hnext
      rw [settle, settle]
      by_cases hfix : pass x = x
      · rw [if_pos hfix, if_pos (hsame.mp hfix)]
        exact ⟨h, rfl⟩
      · rw [if_neg hfix, if_neg fun e => hfix (hsame.mpr e)]
        obtain ⟨hvalue, hpasses⟩ := settle_related hpass heq bound _ _ hnext
        exact ⟨hvalue, congrArg (· + 1) hpasses⟩

/-! ### Renamed sets -/

/-- No key is listed twice. -/
lemma OrderedMap.nodup_keys {κ β : Type} [Ranked κ] (m : OrderedMap κ β) : m.keys.Nodup := by
  rw [keys, List.Nodup, List.pairwise_map]
  exact m.ascending.imp fun hlt e => Nat.ne_of_lt hlt (congrArg rank e)

/-- Every lookahead is a renamed one. -/
lemma exists_map_eq (σ : Symbol ≃ Symbol) (x : Lookahead) : ∃ y : Lookahead, y.map σ = x :=
  σ.optionCongr.surjective x

/-- Different lookaheads are renamed differently. -/
lemma map_injective (σ : Symbol ≃ Symbol) :
    Function.Injective (Option.map σ : Lookahead → Lookahead) :=
  Option.map_injective σ.injective

namespace LookaheadSets

/-- The second sets are the first with all symbols renamed. -/
structure Renamed (σ : Symbol ≃ Symbol) (m m' : LookaheadSets) : Prop where
  keys : ∀ s, (m'.get? (σ s)).isSome ↔ (m.get? s).isSome
  mem : ∀ s x, Option.map σ x ∈ members m' (σ s) ↔ x ∈ members m s

namespace Renamed

variable {σ : Symbol ≃ Symbol} {m m' n n' : LookaheadSets}

/-- Sets and renamed sets determine each other. -/
lemma eq_iff (hm : Renamed σ m m') (hn : Renamed σ n n') : n = m ↔ n' = m' := by
  constructor
  · rintro rfl
    refine ext_members (fun s => ?_) fun s => OrderedSet.ext_mem fun x => ?_
    · obtain ⟨s, rfl⟩ := σ.surjective s
      exact (hn.keys s).trans (hm.keys s).symm
    · obtain ⟨s, rfl⟩ := σ.surjective s
      obtain ⟨x, rfl⟩ := exists_map_eq σ x
      exact (hn.mem s x).trans (hm.mem s x).symm
  · rintro rfl
    refine ext_members (fun s => ?_) fun s => OrderedSet.ext_mem fun x => ?_
    · exact (hn.keys s).symm.trans (hm.keys s)
    · exact (hn.mem s x).symm.trans (hm.mem s x)

/-- The members of a renamed set are the renamed members. -/
lemma members_perm (hm : Renamed σ m m') (s : Symbol) :
    ((members m s).toList.map (Option.map σ)).Perm (members m' (σ s)).toList := by
  refine (List.perm_ext_iff_of_nodup ?_ (OrderedSet.nodup_toList _)).mpr fun x => ?_
  · exact (OrderedSet.nodup_toList _).map (map_injective σ)
  · obtain ⟨x, rfl⟩ := exists_map_eq σ x
    rw [List.mem_map_of_injective (map_injective σ)]
    exact (hm.mem s x).symm

end Renamed

/-- The entries are the keys, each with its members. -/
lemma toList_eq (m : LookaheadSets) : m.toList = m.keys.map fun s => (s, members m s) := by
  rw [OrderedMap.keys, List.map_map]
  refine ((List.map_congr_left fun e he => ?_).trans (List.map_id _)).symm
  have hget := OrderedMap.get?_eq_some_iff.mpr (show (e.1, e.2) ∈ m.toList from he)
  simp [members, hget]

lemma total_eq_weight (m : LookaheadSets) : m.total = weight m.keys m := by
  have hsum : ∀ l : List (Symbol × LookaheadSet),
      l.foldr (fun e n => e.2.size + n) 0 = (l.map fun e => e.2.size).sum := by
    intro l
    induction l with
    | nil => rfl
    | cons e l ih => rw [List.foldr_cons, ih, List.map_cons, List.sum_cons]
  rw [total, hsum, toList_eq, List.map_map]
  rfl

variable {σ : Symbol ≃ Symbol} {m m' : LookaheadSets}

lemma Renamed.keys_perm (hm : Renamed σ m m') : (m.keys.map σ).Perm m'.keys := by
  refine (List.perm_ext_iff_of_nodup (m.nodup_keys.map σ.injective) m'.nodup_keys).mpr
    fun s => ?_
  obtain ⟨s, rfl⟩ := σ.surjective s
  rw [List.mem_map_of_injective σ.injective, OrderedMap.mem_keys_iff, OrderedMap.mem_keys_iff,
    ← Option.isSome_iff_exists, ← Option.isSome_iff_exists]
  exact (hm.keys s).symm

/-- Renamed sets hold as many lookaheads. -/
lemma Renamed.total (hm : Renamed σ m m') :
    LookaheadSets.total m' = LookaheadSets.total m := by
  have hsize : ∀ s, (members m' (σ s)).size = (members m s).size := by
    intro s
    have hlength := (hm.members_perm s).length_eq
    rw [List.length_map] at hlength
    exact hlength.symm
  rw [total_eq_weight, total_eq_weight, weight, ← (hm.keys_perm.map _).sum_eq, List.map_map]
  exact congrArg List.sum (List.map_congr_left fun s _ => hsize s)

end LookaheadSets

/-- The symbols that have sets after a pass: those that had, and the left-hand sides. -/
lemma FirstSets.isSome_pass {g : Grammar} {f : FirstSets} {s : Symbol} :
    ((pass g f).sets.get? s).isSome ↔ (f.sets.get? s).isSome ∨ ∃ r ∈ g.rules, r.lhs = s := by
  rw [pass, LookaheadSets.get?_absorbAll_isSome]
  refine or_congr_right ⟨?_, ?_⟩
  · rintro ⟨c, hc, rfl⟩
    obtain ⟨r, hr, rfl⟩ := List.mem_map.mp hc
    exact ⟨r, hr, rfl⟩
  · rintro ⟨r, hr, rfl⟩
    exact ⟨_, List.mem_map_of_mem hr, rfl⟩

/-- The symbols that have sets after a pass: those that had, and those that occur in
right-hand sides and are no terminals. -/
lemma FollowSets.isSome_pass {g : Grammar} {f : FirstSets} {k : FollowSets} {s : Symbol} :
    ((pass g f k).sets.get? s).isSome ↔
      (k.sets.get? s).isSome ∨ (g.isTerminal s = false ∧ ∃ r ∈ g.rules, s ∈ r.rhs) := by
  rw [pass, LookaheadSets.get?_absorbAll_isSome]
  refine or_congr_right ⟨?_, ?_⟩
  · rintro ⟨⟨c, u⟩, hc, rfl⟩
    obtain ⟨hs, r, hr, p, v, hrhs, -⟩ := mem_contributions.mp hc
    exact ⟨hs, r, hr, by simp [hrhs]⟩
  · rintro ⟨hs, r, hr, hmem⟩
    obtain ⟨p, v, hrhs⟩ := List.append_of_mem hmem
    exact ⟨_, mem_contributions.mpr ⟨hs, r, hr, p, v, hrhs, rfl⟩, rfl⟩

namespace Grammar.Renames

open LookaheadSets

variable {σ : Symbol ≃ Symbol} {g h : Grammar} {f f' : FirstSets} {k k' : FollowSets}

/-! ### FIRST sets -/

/-- **The scan of a renamed string** gives the renamed starts. -/
theorem mem_ofString (hσ : Renames σ g h) (hf : Renamed σ f.sets f'.sets) (w : List Symbol)
    (x : Lookahead) :
    Option.map σ x ∈ f'.ofString h.isTerminal (w.map σ) ↔ x ∈ f.ofString g.isTerminal w := by
  induction w with
  | nil =>
      rw [List.map_nil, FirstSets.mem_ofString_nil, FirstSets.mem_ofString_nil]
      exact Option.map_eq_none_iff
  | cons s w ih =>
      have hterminal := hσ.isTerminal s
      rw [List.map_cons]
      cases hs : g.isTerminal s with
      | true =>
          rw [hs] at hterminal
          rw [FirstSets.mem_ofString_terminal hterminal, FirstSets.mem_ofString_terminal hs]
          exact (map_injective σ).eq_iff (b := some s)
      | false =>
          rw [hs] at hterminal
          rw [FirstSets.mem_ofString_cons hterminal, FirstSets.mem_ofString_cons hs, ih]
          have hnone : none ∈ f'.members (σ s) ↔ none ∈ f.members s := hf.mem s none
          have hx : Option.map σ x ∈ f'.members (σ s) ↔ x ∈ f.members s := hf.mem s x
          rw [hnone, hx, Ne, Option.map_eq_none_iff]

/-- One pass over the rules keeps the sets renamed. -/
lemma firstPass (hσ : Renames σ g h) (hf : Renamed σ f.sets f'.sets) :
    Renamed σ (FirstSets.pass g f).sets (FirstSets.pass h f').sets := by
  refine ⟨fun s => ?_, fun s x => ?_⟩
  · rw [FirstSets.isSome_pass, FirstSets.isSome_pass, hf.keys, hσ.exists_mem_rules_iff]
    simp only [Rule.rename, σ.apply_eq_iff_eq]
  · refine FirstSets.mem_members_pass.trans (Iff.trans ?_ FirstSets.mem_members_pass.symm)
    rw [hσ.exists_mem_rules_iff]
    refine or_congr (hf.mem s x) (exists_congr fun r => and_congr_right fun _ => ?_)
    exact and_congr σ.apply_eq_iff_eq (hσ.mem_ofString hf r.rhs x)

lemma firstInitial (hσ : Renames σ g h) :
    Renamed σ (FirstSets.initial g).sets (FirstSets.initial h).sets := by
  refine ⟨fun s => ?_, fun s x => ?_⟩
  · rw [FirstSets.initial, FirstSets.initial, OrderedMap.get?_ofList_map,
      OrderedMap.get?_ofList_map]
    simp only [hσ.mem_nonterminals_iff]
  · rw [members, members, FirstSets.initial, FirstSets.initial, OrderedMap.get?_ofList_map,
      OrderedMap.get?_ofList_map]
    simp only [hσ.mem_nonterminals_iff]
    split
    · simp
    · simp

lemma passBound_first (hσ : Renames σ g h) : FirstSets.passBound h = FirstSets.passBound g := by
  rw [FirstSets.passBound, FirstSets.passBound, hσ.length_nonterminals, symbolCount, symbolCount,
    hσ.size_eq]

/-- **The FIRST sets are renamed**, and found in as many passes. -/
theorem firstSets (hσ : Renames σ g h) :
    Renamed σ (FirstSets.solve g).value.sets (FirstSets.solve h).value.sets
      ∧ (FirstSets.solve h).passes = (FirstSets.solve g).passes := by
  rw [FirstSets.solve, FirstSets.solve, hσ.passBound_first]
  refine settle_related (R := fun f f' : FirstSets => Renamed σ f.sets f'.sets)
    (fun f f' => hσ.firstPass) (fun f f' e e' hf he => ?_) _ _ _ hσ.firstInitial
  rw [FirstSets.ext_iff, FirstSets.ext_iff]
  exact hf.eq_iff he

/-! ### FOLLOW sets -/

/-- What may follow an occurrence in a renamed rule is what may follow in the rule,
renamed. -/
lemma mem_afterOccurrence (hσ : Renames σ g h) (hf : Renamed σ f.sets f'.sets)
    (hk : Renamed σ k.sets k'.sets) (lhs : Symbol) (v : List Symbol) (x : Lookahead) :
    Option.map σ x ∈ k'.afterOccurrence h f' (σ lhs) (v.map σ) ↔
      x ∈ k.afterOccurrence g f lhs v := by
  rw [FollowSets.mem_afterOccurrence, FollowSets.mem_afterOccurrence, hσ.mem_ofString hf]
  have hnone : none ∈ f'.ofString h.isTerminal (v.map σ) ↔ none ∈ f.ofString g.isTerminal v :=
    hσ.mem_ofString hf v none
  have hlhs : Option.map σ x ∈ k'.members (σ lhs) ↔ x ∈ k.members lhs := hk.mem lhs x
  rw [hnone, hlhs, Ne, Option.map_eq_none_iff]

/-- The occurrences of a renamed symbol in a renamed string are those of the symbol. -/
lemma exists_occurrence_iff {w : List Symbol} {s : Symbol} {P : List Symbol → Prop} :
    (∃ p v, w.map σ = p ++ σ s :: v ∧ P v) ↔ ∃ p v, w = p ++ s :: v ∧ P (v.map σ) := by
  constructor
  · rintro ⟨p, v, hw, hP⟩
    obtain ⟨p, v, rfl, rfl, hv⟩ := List.map_eq_append_iff.mp hw
    obtain ⟨c, v, rfl, hc, rfl⟩ := List.map_eq_cons_iff.mp hv
    rw [σ.injective hc]
    exact ⟨p, v, rfl, hP⟩
  · rintro ⟨p, v, rfl, hP⟩
    exact ⟨p.map σ, v.map σ, by simp, hP⟩

/-- One pass over the rules keeps the sets renamed. -/
lemma followPass (hσ : Renames σ g h) (hf : Renamed σ f.sets f'.sets)
    (hk : Renamed σ k.sets k'.sets) :
    Renamed σ (FollowSets.pass g f k).sets (FollowSets.pass h f' k').sets := by
  refine ⟨fun s => ?_, fun s x => ?_⟩
  · rw [FollowSets.isSome_pass, FollowSets.isSome_pass, hk.keys, hσ.isTerminal,
      hσ.exists_mem_rules_iff]
    simp only [Rule.rename, List.mem_map_of_injective σ.injective]
  · refine FollowSets.mem_members_pass.trans (Iff.trans ?_ FollowSets.mem_members_pass.symm)
    rw [hσ.isTerminal, hσ.exists_mem_rules_iff]
    refine or_congr (hk.mem s x) (and_congr_right fun _ => exists_congr fun r =>
      and_congr_right fun _ => exists_occurrence_iff.trans ?_)
    exact exists₂_congr fun p v => and_congr_right fun _ =>
      hσ.mem_afterOccurrence hf hk r.lhs v x

lemma followInitial (hσ : Renames σ g h) :
    Renamed σ (FollowSets.initial g).sets (FollowSets.initial h).sets := by
  refine ⟨fun s => ?_, fun s x => ?_⟩
  · rw [FollowSets.initial, FollowSets.initial, OrderedMap.get?_ofList_map,
      OrderedMap.get?_ofList_map]
    simp only [hσ.mem_nonterminals_iff]
    split
    · rfl
    · rfl
  · refine FollowSets.mem_members_initial.trans (Iff.trans ?_ FollowSets.mem_members_initial.symm)
    rw [hσ.start, σ.apply_eq_iff_eq, Option.map_eq_none_iff]

/-- **The FOLLOW sets are renamed**, and found in as many passes, if the FIRST sets that
are read are renamed. -/
theorem followSets (hσ : Renames σ g h) (hf : Renamed σ f.sets f'.sets) :
    Renamed σ (FollowSets.solve g f).value.sets (FollowSets.solve h f').value.sets
      ∧ (FollowSets.solve h f').passes = (FollowSets.solve g f).passes := by
  have hbound : FollowSets.passBound h f' = FollowSets.passBound g f := by
    rw [FollowSets.passBound, FollowSets.passBound, hσ.length_nonterminals, symbolCount,
      symbolCount, hσ.size_eq, hf.total]
  rw [FollowSets.solve, FollowSets.solve, hbound]
  refine settle_related (R := fun k k' : FollowSets => Renamed σ k.sets k'.sets)
    (fun k k' => hσ.followPass hf) (fun k k' e e' hk he => ?_) _ _ _ hσ.followInitial
  rw [FollowSets.ext_iff, FollowSets.ext_iff]
  exact hk.eq_iff he

end Grammar.Renames

end TopDown
