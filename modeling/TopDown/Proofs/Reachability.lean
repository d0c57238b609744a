import Mathlib.Logic.Relation
import TopDown.Proofs.Filling
import TopDown.Table.Classes

/-!
Reachability through right-hand sides, and the classes it decides.

* `Grammar.Mentions`, `Grammar.Reaches`: a right-hand side of one symbol
  mentions another, and any number of such steps.
* `Grammar.withUsers_reaching`: the symbols that reach a target are not added
  to by another round.
* `Grammar.mem_reaching_iff`: they are the symbols from which a target is
  reached.
* `Table.Predictable`: no row that a symbol reaches has a conflict.
* `Table.classes_eq_ll1_iff`: the LL(1) class holds exactly the declared
  nonterminals of which this is true, and the others are in the context-free class
  (`Table.classes_eq_contextFree_iff`).
-/

namespace TopDown

namespace Grammar

variable {g : Grammar} {targets : OrderedSet Symbol}

/-- A right-hand side of `s` mentions `x`. -/
def Mentions (g : Grammar) (s x : Symbol) : Prop := ∃ r ∈ g.rules, r.lhs = s ∧ x ∈ r.rhs

/-- From `s` one comes to `x` through right-hand sides, in no steps or more. -/
def Reaches (g : Grammar) : Symbol → Symbol → Prop := Relation.ReflTransGen g.Mentions

lemma mem_withUsers_iff {s : Symbol} :
    s ∈ g.withUsers targets ↔ s ∈ targets ∨ ∃ x ∈ targets, g.Mentions s x := by
  rw [mem_withUsers]
  refine or_congr_right ⟨?_, ?_⟩
  · rintro ⟨r, hr, rfl, x, hx, ht⟩
    exact ⟨x, ht, r, hr, rfl, hx⟩
  · rintro ⟨x, ht, r, hr, rfl, hx⟩
    exact ⟨r, hr, rfl, x, hx, ht⟩

/-- Another round adds nothing to the symbols that reach a target: each round
that adds something adds a declared nonterminal. -/
lemma withUsers_reaching (g : Grammar) (targets : OrderedSet Symbol) :
    g.withUsers (g.reaching targets) = g.reaching targets := by
  have hkeep : ∀ T : OrderedSet Symbol, (∀ s ∈ T, s ∈ targets.toList ++ g.nonterminals) →
      ∀ s ∈ g.withUsers T, s ∈ targets.toList ++ g.nonterminals := by
    intro T hT s hs
    obtain hold | ⟨x, _, r, hr, rfl, _⟩ := mem_withUsers_iff.mp hs
    · exact hT s hold
    · exact List.mem_append_right _ (g.lhs_mem r hr)
  have htop : ∀ T : OrderedSet Symbol, (∀ s ∈ T, s ∈ targets.toList ++ g.nonterminals) →
      T.size ≤ targets.size + g.nonterminals.length := by
    intro T hT
    have hlen := (List.subperm_of_subset T.nodup_toList hT).length_le
    rwa [List.length_append] at hlen
  have hlt : ∀ T : OrderedSet Symbol, (∀ s ∈ T, s ∈ targets.toList ++ g.nonterminals) →
      g.withUsers T ≠ T → T.size < (g.withUsers T).size := by
    intro T _ hne
    exact OrderedSet.size_lt_of_subset (fun s hs => mem_withUsers_iff.mpr (.inl hs))
      fun e => hne e.symm
  exact pass_settle hkeep htop hlt _ targets (fun s hs => List.mem_append_left _ hs) (by omega)

/-- **The symbols that reach a target** are those from which one comes to a
target through right-hand sides. -/
theorem mem_reaching_iff {s : Symbol} :
    s ∈ g.reaching targets ↔ ∃ x ∈ targets, g.Reaches s x := by
  constructor
  · have hsound : ∀ s ∈ g.reaching targets, ∃ x ∈ targets, g.Reaches s x := by
      refine settle_induction (P := fun T => ∀ s ∈ T, ∃ x ∈ targets, g.Reaches s x)
        (fun T hT s hs => ?_) _ _ (fun s hs => ⟨s, hs, Relation.ReflTransGen.refl⟩)
      obtain hold | ⟨y, hy, hsy⟩ := mem_withUsers_iff.mp hs
      · exact hT s hold
      · obtain ⟨x, hx, hyx⟩ := hT y hy
        exact ⟨x, hx, hyx.head hsy⟩
    exact hsound s
  · rintro ⟨x, hx, hreach⟩
    have htargets : ∀ y ∈ targets, y ∈ g.reaching targets := by
      intro y hy
      exact settle_induction (P := fun T => y ∈ T)
        (fun T hT => mem_withUsers_iff.mpr (.inl hT)) _ _ hy
    induction hreach using Relation.ReflTransGen.head_induction_on with
    | refl => exact htargets x hx
    | head hstep _ ih =>
        rw [← withUsers_reaching]
        exact mem_withUsers_iff.mpr (.inr ⟨_, ih, hstep⟩)

end Grammar

namespace Table

variable {t : Table}

/-- No row that is reached from `s` has a conflict. -/
def Predictable (t : Table) (s : Symbol) : Prop :=
  ∀ x, t.grammar.Reaches s x → t.ConflictFree x

lemma Predictable.conflictFree {s : Symbol} (h : t.Predictable s) : t.ConflictFree s :=
  h s Relation.ReflTransGen.refl

/-- The symbols of a right-hand side reach no more than the left-hand side. -/
lemma Predictable.rhs {r : Rule} (h : t.Predictable r.lhs) (hr : r ∈ t.grammar.rules) :
    ∀ s ∈ r.rhs, t.Predictable s :=
  fun _ hs x hx => h x (Relation.ReflTransGen.head ⟨r, hr, rfl, hs⟩ hx)

/-- **The LL(1) class**: a declared nonterminal is in it exactly if it reaches
no row with a conflict. -/
theorem classes_eq_ll1_iff {s : Symbol} :
    t.classes.get? s = some .ll1 ↔ s ∈ t.grammar.nonterminals ∧ t.Predictable s := by
  have houtside : s ∈ t.grammar.reaching t.conflicted ↔
      ∃ x, t.grammar.Reaches s x ∧ ¬ t.ConflictFree x := by
    rw [Grammar.mem_reaching_iff]
    refine exists_congr fun x => ?_
    rw [and_comm, conflicted, OrderedSet.mem_ofList, List.mem_map, ConflictFree]
    simp
  rw [classes, OrderedMap.get?_ofList_map]
  by_cases hs : s ∈ t.grammar.nonterminals
  · rw [if_pos hs, and_iff_right hs]
    by_cases hout : s ∈ t.grammar.reaching t.conflicted
    · rw [if_pos hout]
      refine iff_of_false (by simp) fun hall => ?_
      obtain ⟨x, hx, hbad⟩ := houtside.mp hout
      exact hbad (hall x hx)
    · rw [if_neg hout]
      refine iff_of_true rfl fun x hx => ?_
      by_contra hbad
      exact hout (houtside.mpr ⟨x, hx, hbad⟩)
  · rw [if_neg hs]
    exact iff_of_false (by simp) fun e => hs e.1

/-- **The other class**: a declared nonterminal is in it exactly if it reaches a row
with a conflict. -/
theorem classes_eq_contextFree_iff {s : Symbol} :
    t.classes.get? s = some .contextFree ↔ s ∈ t.grammar.nonterminals ∧ ¬ t.Predictable s := by
  by_cases hs : s ∈ t.grammar.nonterminals
  · have hll1 : t.classes.get? s = some .ll1 ↔ t.Predictable s := by
      rw [classes_eq_ll1_iff, and_iff_right hs]
    obtain ⟨k, hk⟩ : ∃ k, t.classes.get? s = some k := by
      rw [classes, OrderedMap.get?_ofList_map, if_pos hs]
      exact ⟨_, rfl⟩
    rw [← hll1, and_iff_right hs, hk]
    cases k <;> simp
  · rw [classes, OrderedMap.get?_ofList_map, if_neg hs]
    exact iff_of_false (by simp) fun e => hs e.1

/-- Without conflicts every declared nonterminal is in the LL(1) class. -/
lemma classes_of_isLl1 (ht : t.isLl1 = true) {s : Symbol}
    (hs : s ∈ t.grammar.nonterminals) : t.classes.get? s = some .ll1 := by
  refine classes_eq_ll1_iff.mpr ⟨hs, fun x _ c hc => ?_⟩
  rw [isLl1, List.isEmpty_iff] at ht
  rw [ht] at hc
  exact absurd hc List.not_mem_nil

end Table

end TopDown
