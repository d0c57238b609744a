import Mathlib.Data.List.Chain
import TopDown.Proofs.Conflicts
import TopDown.Proofs.Reachability

/-!
The classes of nonterminals, in terms of chains of mentions.

The class of a nonterminal is found by repeating a pass over the rules until nothing is
added. Written out, what the pass settles on are chains of symbols, each of which occurs
on a right-hand side of the one before it. Such a chain may run through cycles, and may
come back to where it began.

* `Grammar.reaches_iff_chain`: one symbol reaches another exactly if they are equal or a
  chain leads from the one to the other.
* `Grammar.mem_reaching_iff_chain`: the closure that decides the classes, for any targets.
* `Table.classes_exact`: every declared nonterminal has a class and nothing else has one;
  the class is the context-free one exactly if the nonterminal has a conflict in its row,
  or a chain leads from it to one that has.
-/

namespace TopDown

/-- A relation holds along a path of one step or more exactly if a chain leads from the
first member to the last. -/
lemma transGen_iff_exists_isChain {α : Type} {r : α → α → Prop} {a b : α} :
    Relation.TransGen r a b ↔ ∃ between, (a :: (between ++ [b])).IsChain r := by
  constructor
  · intro h
    induction h using Relation.TransGen.head_induction_on with
    | single hab => exact ⟨[], List.isChain_pair.mpr hab⟩
    | @head a c hac _ ih =>
        obtain ⟨between, hchain⟩ := ih
        exact ⟨c :: between, hchain.cons_cons hac⟩
  · rintro ⟨between, hchain⟩
    induction between generalizing a with
    | nil => exact Relation.TransGen.single (List.isChain_pair.mp hchain)
    | cons c between ih =>
        obtain ⟨hac, hrest⟩ := List.isChain_cons_cons.mp hchain
        exact Relation.TransGen.head hac (ih hrest)

namespace Grammar

variable {g : Grammar}

/-- **One symbol reaches another** exactly if they are equal or a chain leads from the one
to the other. -/
theorem reaches_iff_chain {s x : Symbol} :
    g.Reaches s x ↔ s = x ∨ ∃ between, (s :: (between ++ [x])).IsChain g.Mentions := by
  rw [Reaches, Relation.reflTransGen_iff_eq_or_transGen, transGen_iff_exists_isChain, eq_comm]

/-- **The symbols that reach a target** are the targets and those from which a chain leads
to a target. -/
theorem mem_reaching_iff_chain {targets : OrderedSet Symbol} {s : Symbol} :
    s ∈ g.reaching targets ↔
      s ∈ targets ∨ ∃ between, ∃ x ∈ targets, (s :: (between ++ [x])).IsChain g.Mentions := by
  simp only [mem_reaching_iff, reaches_iff_chain]
  constructor
  · rintro ⟨x, hx, rfl | ⟨between, hchain⟩⟩
    · exact .inl hx
    · exact .inr ⟨between, x, hx, hchain⟩
  · rintro (hs | ⟨between, x, hx, hchain⟩)
    · exact ⟨s, hs, .inl rfl⟩
    · exact ⟨x, hx, .inr ⟨between, hchain⟩⟩

end Grammar

namespace Table

variable {g : Grammar} {f : FirstSets} {h : FollowSets}

/-- A row with a conflict is that of a declared nonterminal. -/
lemma declared_of_mem_conflicts {c : Conflict} (hc : c ∈ (build g f h).conflicts) :
    c.nonterminal ∈ g.nonterminals := by
  obtain ⟨r, hr, hlhs, _⟩ := (lt_of_mem_conflicts hc).1
  exact hlhs ▸ g.lhs_mem r (Grammar.mem_rules_of_rule? hr)

/-- A symbol from which a conflict is reached is a declared nonterminal. -/
lemma declared_of_reaches {s : Symbol} {c : Conflict} (hc : c ∈ (build g f h).conflicts)
    (hreach : g.Reaches s c.nonterminal) : s ∈ g.nonterminals := by
  obtain rfl | ⟨x, ⟨r, hr, rfl, _⟩, _⟩ := Relation.ReflTransGen.cases_head hreach
  · exact declared_of_mem_conflicts hc
  · exact g.lhs_mem r hr

/-- **Classification is exact.** In a table built from any sets, exactly the declared
nonterminals have a class. The class is the context-free one exactly if there is a conflict
in the row of the nonterminal itself or of the last symbol of a chain, of one step or more,
in which each symbol occurs on a right-hand side of the one before it. The closure by which
this is decided finds such chains to any targets, in grammars of any size. -/
theorem classes_exact (g : Grammar) (f : FirstSets) (h : FollowSets) :
    (∀ s, s ∈ (build g f h).classes.keys ↔ s ∈ g.nonterminals)
    ∧ (∀ s, (build g f h).classes.get? s = some .contextFree ↔
        (∃ c ∈ (build g f h).conflicts, c.nonterminal = s)
          ∨ ∃ between x, (s :: (between ++ [x])).IsChain g.Mentions
              ∧ ∃ c ∈ (build g f h).conflicts, c.nonterminal = x)
    ∧ ∀ (targets : OrderedSet Symbol) (s : Symbol), s ∈ g.reaching targets ↔
        s ∈ targets ∨ ∃ between, ∃ x ∈ targets, (s :: (between ++ [x])).IsChain g.Mentions := by
  refine ⟨fun s => ?_, fun s => ?_, fun targets s => Grammar.mem_reaching_iff_chain⟩
  · rw [OrderedMap.mem_keys_iff, classes, OrderedMap.get?_ofList_map]
    by_cases hs : s ∈ g.nonterminals <;> simp [hs]
  · have hclass : (build g f h).classes.get? s = some .contextFree ↔
        ∃ c ∈ (build g f h).conflicts, g.Reaches s c.nonterminal := by
      rw [classes_eq_contextFree_iff, Predictable]
      simp only [ConflictFree, not_forall, not_not]
      constructor
      · rintro ⟨_, _, hreach, c, hc, rfl⟩
        exact ⟨c, hc, hreach⟩
      · rintro ⟨c, hc, hreach⟩
        exact ⟨declared_of_reaches hc hreach, _, hreach, c, hc, rfl⟩
    rw [hclass]
    simp only [Grammar.reaches_iff_chain]
    constructor
    · rintro ⟨c, hc, rfl | ⟨between, hchain⟩⟩
      · exact .inl ⟨c, hc, rfl⟩
      · exact .inr ⟨between, _, hchain, c, hc, rfl⟩
    · rintro (⟨c, hc, rfl⟩ | ⟨between, _, hchain, c, hc, rfl⟩)
      · exact ⟨c, hc, .inl rfl⟩
      · exact ⟨c, hc, .inr ⟨between, hchain⟩⟩

end Table

end TopDown
