import Mathlib.Data.Finset.Card
import TopDown.Event
import TopDown.Proofs.LeastSets

/-!
How many passes it takes to find the FIRST and FOLLOW sets of a grammar.

A pass may add many lookaheads at once, so how many there are says little about the number
of passes. Rather, each lookahead spreads from symbol to symbol on its own. In the FOLLOW
sets it does so from the first pass on, the FIRST sets being fixed. In the FIRST sets its
ways depend on which symbols are nullable, and that is settled first, after as many passes
as there are nonterminals.

* `LookaheadSets.holders`: the symbols that a lookahead has spread to.
* `FirstSets.holders_pass_congr`, `FollowSets.holders_pass_congr`: where it spreads next
  depends on where it is, and in the FIRST sets on which symbols are nullable.
* `FirstSets.holders_none_stable`, `FirstSets.holders_stable`,
  `FollowSets.holders_stable`: so each lookahead comes to rest in time.
* `Grammar.passes_le`: with `n` nonterminals, the FIRST sets take at most `2 * n + 1`
  passes, and the FOLLOW sets at most `n + 1`.
-/

namespace TopDown

namespace LookaheadSets

variable {m n : LookaheadSets} {K : List Symbol} {U : List Lookahead} {x : Lookahead}

/-- The symbols whose set holds a lookahead. -/
def holders (x : Lookahead) (m : LookaheadSets) : Finset Symbol :=
  m.keys.toFinset.filter fun s => x ∈ members m s

@[simp] lemma mem_holders {s : Symbol} : s ∈ holders x m ↔ x ∈ members m s := by
  rw [holders, Finset.mem_filter, List.mem_toFinset, OrderedMap.mem_keys_iff]
  refine and_iff_right_of_imp fun hx => ?_
  rw [members] at hx
  cases hs : m.get? s with
  | none =>
      rw [hs, Option.getD_none] at hx
      exact absurd hx (OrderedSet.not_mem_empty x)
  | some u => exact ⟨u, rfl⟩

lemma holders_eq_iff :
    holders x m = holders x n ↔ ∀ s, x ∈ members m s ↔ x ∈ members n s := by
  simp only [Finset.ext_iff, mem_holders]

/-- A lookahead spreads to keys only. -/
lemma Within.card_holders_le (hm : Within m K U) : (holders x m).card ≤ K.length := by
  have hsub : holders x m ⊆ K.toFinset := by
    intro s hs
    rw [holders, Finset.mem_filter, List.mem_toFinset, OrderedMap.mem_keys_iff,
      ← Option.isSome_iff_exists, hm.keys] at hs
    exact List.mem_toFinset.mpr hs.1
  exact (Finset.card_le_card hsub).trans K.toFinset_card_le

/-- Sets with the same keys are equal if every lookahead has spread to the same symbols. -/
lemma Within.eq_of_holders (hm : Within m K U) (hn : Within n K U)
    (h : ∀ x, holders x m = holders x n) : m = n :=
  hm.eq_of_le_of_ge hn (fun s x => (holders_eq_iff.mp (h x) s).mp) fun s x =>
    (holders_eq_iff.mp (h x) s).mpr

section

variable {α : Type} {pass : α → α} (view : α → LookaheadSets) {start : α}

/-- **A lookahead comes to rest** in as many passes as there are keys, counted from where it
spreads by itself: from the pass on from which it has come to rest for good whenever it has
not spread for once. -/
theorem holders_stable (hpass : ∀ y, Within (view y) K U → Within (view (pass y)) K U)
    (hstart : Within (view start) K U) (hgrow : ∀ y, view y ≤ view (pass y)) {a k : Nat}
    (hspread : ∀ k, a ≤ k →
      holders x (view (pass^[k + 1] start)) = holders x (view (pass^[k] start)) →
      holders x (view (pass^[k + 2] start)) = holders x (view (pass^[k + 1] start)))
    (hk : a + K.length ≤ k) :
    holders x (view (pass^[k + 1] start)) = holders x (view (pass^[k] start)) := by
  obtain ⟨j, rfl⟩ := Nat.exists_eq_add_of_le (Nat.le_of_add_right_le hk)
  refine stable_of_card_le (A := fun j => holders x (view (pass^[a + j] start)))
    (fun j s hs => ?_) (fun j => ?_) (fun j => hspread (a + j) (Nat.le_add_right a j))
    (Nat.le_of_add_le_add_left hk)
  · rw [← Nat.add_assoc, Function.iterate_succ_apply', mem_holders]
    exact hgrow _ s x (mem_holders.mp hs)
  · exact Within.card_holders_le (Function.Iterate.rec (fun y => Within (view y) K U) hstart
      hpass (a + j))

/-- Passes after which every lookahead is at rest, and one more, are all that it takes. -/
lemma settles_of_holders [DecidableEq α] (hview : Function.Injective view)
    (hpass : ∀ y, Within (view y) K U → Within (view (pass y)) K U)
    (hstart : Within (view start) K U) {bound k : Nat} (hbound : k + 1 ≤ bound)
    (h : ∀ x, holders x (view (pass^[k + 1] start)) = holders x (view (pass^[k] start))) :
    Settles pass start (settle pass bound start)
      ∧ (settle pass bound start).passes ≤ k + 1 := by
  have hwithin : ∀ k, Within (view (pass^[k] start)) K U :=
    Function.Iterate.rec (fun y => Within (view y) K U) hstart hpass
  have hfix : pass (pass^[k] start) = pass^[k] start := by
    rw [← Function.iterate_succ_apply' pass]
    exact hview ((hwithin (k + 1)).eq_of_holders (hwithin k) h)
  obtain ⟨p, hp, hs⟩ := exists_settles_of_iterate hfix
  rw [hs.settle_eq (hp.trans hbound)]
  exact ⟨hs, hp⟩

end

end LookaheadSets

open LookaheadSets

/-! ### FIRST sets -/

namespace FirstSets

variable {g : Grammar} {f f' : FirstSets} {x : Lookahead}

/-- Where a lookahead spreads depends on where it is and on the nullable symbols. -/
lemma holders_pass_congr (hnull : holders none f.sets = holders none f'.sets)
    (hx : holders x f.sets = holders x f'.sets) :
    holders x (pass g f).sets = holders x (pass g f').sets := by
  rw [holders_eq_iff] at hnull hx ⊢
  exact fun s => ⟨mem_members_pass_mono (fun s => (hnull s).mp) fun s => (hx s).mp,
    mem_members_pass_mono (fun s => (hnull s).mpr) fun s => (hx s).mpr⟩

/-- Which symbols are nullable is settled after as many passes as there are
nonterminals. -/
lemma holders_none_stable {k : Nat} (hk : g.nonterminals.length ≤ k) :
    holders none ((pass g)^[k + 1] (initial g)).sets
      = holders none ((pass g)^[k] (initial g)).sets := by
  refine LookaheadSets.holders_stable sets (a := 0) (fun _ => within_pass) within_initial
    (le_pass g) (fun k _ hrest => ?_) (by omega)
  simp only [Function.iterate_succ_apply'] at hrest ⊢
  exact holders_pass_congr hrest hrest

/-- From then on every lookahead spreads by itself, and comes to rest in as many passes
again. -/
lemma holders_stable (g : Grammar) (x : Lookahead) :
    holders x ((pass g)^[2 * g.nonterminals.length + 1] (initial g)).sets
      = holders x ((pass g)^[2 * g.nonterminals.length] (initial g)).sets := by
  refine LookaheadSets.holders_stable sets (a := g.nonterminals.length) (fun _ => within_pass)
    within_initial (le_pass g) (fun k hk hrest => ?_) (by omega)
  have hnull := holders_none_stable hk
  simp only [Function.iterate_succ_apply'] at hnull hrest ⊢
  exact holders_pass_congr hnull hrest

/-- **The FIRST sets settle within twice as many passes as there are nonterminals**, and one
more to find that nothing changes. -/
theorem settles_solve (g : Grammar) :
    Settles (pass g) (initial g) (solve g)
      ∧ (solve g).passes ≤ 2 * g.nonterminals.length + 1 := by
  have hsymbols : 0 < g.symbolCount := Nat.zero_lt_of_lt (g.nonterminals_lt _ g.start_mem)
  have hbound : 2 * g.nonterminals.length + 1 ≤ passBound g := by
    rw [passBound, Nat.mul_comm]
    exact Nat.succ_le_succ (Nat.mul_le_mul_left _ (by omega))
  exact settles_of_holders sets sets_injective (fun _ => within_pass) within_initial hbound
    (holders_stable g)

end FirstSets

/-! ### FOLLOW sets -/

namespace FollowSets

variable {g : Grammar} {f : FirstSets} {h h' : FollowSets} {x : Lookahead}

/-- Where a lookahead spreads depends on where it is. -/
lemma holders_pass_congr (hx : holders x h.sets = holders x h'.sets) :
    holders x (pass g f h).sets = holders x (pass g f h').sets := by
  rw [holders_eq_iff] at hx ⊢
  exact fun s => ⟨mem_members_pass_mono le_rfl fun s => (hx s).mp,
    mem_members_pass_mono le_rfl fun s => (hx s).mpr⟩

/-- Every lookahead comes to rest in as many passes as there are nonterminals. -/
lemma holders_stable (g : Grammar) (f : FirstSets) (x : Lookahead) :
    holders x ((pass g f)^[g.nonterminals.length + 1] (initial g)).sets
      = holders x ((pass g f)^[g.nonterminals.length] (initial g)).sets := by
  refine LookaheadSets.holders_stable sets (a := 0) (fun _ => within_pass) within_initial
    (le_pass g f) (fun k _ hrest => ?_) (by omega)
  simp only [Function.iterate_succ_apply'] at hrest ⊢
  exact holders_pass_congr hrest

/-- **The FOLLOW sets settle within as many passes as there are nonterminals**, and one more
to find that nothing changes, whatever the FIRST sets. -/
theorem settles_solve (g : Grammar) (f : FirstSets) :
    Settles (pass g f) (initial g) (solve g f)
      ∧ (solve g f).passes ≤ g.nonterminals.length + 1 := by
  have hbound : g.nonterminals.length + 1 ≤ passBound g f :=
    Nat.succ_le_succ (Nat.le_mul_of_pos_right _ (by omega))
  exact settles_of_holders sets sets_injective (fun _ => within_pass) within_initial hbound
    (holders_stable g f)

end FollowSets

/-- **Linearly many passes.** For a grammar with `n` nonterminals, passes from the initial
FIRST sets end in the FIRST sets of the grammar, after as many passes as are reported, and
these are at most `2 * n + 1`. For any FIRST sets, passes from the initial FOLLOW sets end
in the FOLLOW sets of the grammar, after at most `n + 1` passes. -/
theorem Grammar.passes_le (g : Grammar) :
    (∃ p, Settles (FirstSets.pass g) (FirstSets.initial g) ⟨FirstSets.ofGrammar g, p⟩
      ∧ FirstSets.events (FirstSets.solve g) = [.firstSettled p]
      ∧ p ≤ 2 * g.nonterminals.length + 1)
    ∧ ∀ f : FirstSets, ∃ p,
        Settles (FollowSets.pass g f) (FollowSets.initial g) ⟨FollowSets.ofGrammar g f, p⟩
        ∧ FollowSets.events (FollowSets.solve g f) = [.followSettled p]
        ∧ p ≤ g.nonterminals.length + 1 := by
  refine ⟨?_, fun f => ?_⟩
  · obtain ⟨hs, hp⟩ := FirstSets.settles_solve g
    exact ⟨_, hs, rfl, hp⟩
  · obtain ⟨hs, hp⟩ := FollowSets.settles_solve g f
    exact ⟨_, hs, rfl, hp⟩

-- with the one nonterminal of `S -> S a | ε` both bounds are reached
example : (Grammar.ofDeclarations [⟨"S", [["S", "a"], ["ε"]]⟩]).toOption.map (fun g =>
    ((FirstSets.solve g).passes, (FollowSets.solve g g.first).passes)) = some (3, 2) := by
  decide +kernel

end TopDown
