import Mathlib.Data.List.Nodup
import TopDown.Proofs.Filling

/-!
What a list of writes leaves, if no write is repeated.

* `OrderedMap.sumOver_insert`, `Rows.cellCount_put`: writing an entry, and how many cells
  are filled.
* `Table.rulesAt`: the rules that a list of writes puts into a cell.
* `Table.cell?_fill`, `Table.conflicts_fill`: a cell holds the last of these rules, and
  its conflicts are the pairs of neighbours among them.
* `Table.conflicts_fill_sublist`: the conflicts come in the order of the writes.
* `Table.cellCount_fill`: every write fills a cell or makes a conflict.
-/

namespace TopDown

/-! ### Counting the entries of a map -/

namespace OrderedMap

variable {κ β : Type} [Ranked κ]

/-- The sum of a number over all entries. -/
def sumOver (m : OrderedMap κ β) (n : β → Nat) : Nat := (m.toList.map fun e => n e.2).sum

variable [DecidableEq κ]

/-- A key before all others looks up nothing. -/
lemma lookIn_eq_none {k : κ} {l : List (κ × β)} (h : ∀ e ∈ l, rank k < rank e.1) :
    lookIn k l = none := by
  cases hl : lookIn k l with
  | none => rfl
  | some b => exact absurd (h _ (mem_of_lookIn hl)) (Nat.lt_irrefl _)

/-- The sum over a list of entries when one is written: the recursion is that of the
insertion, and the three cases are a new key before the first, the first key itself,
and a later one. -/
lemma sum_insertBy (n : β → Nat) (k : κ) (b : β) : ∀ {l : List (κ × β)},
    l.Pairwise (fun a b => rank a.1 < rank b.1) →
    ((insertBy (fun e => rank e.1) (k, b) l).map fun e => n e.2).sum + (lookIn k l).elim 0 n
      = (l.map fun e => n e.2).sum + n b
  | [], _ => by simp [insertBy, lookIn]
  | e :: l, h => by
      have he := List.pairwise_cons.mp h
      rw [insertBy]
      split
      · next hlt =>
          have hnone : lookIn k (e :: l) = none := by
            refine lookIn_eq_none (List.forall_mem_cons.mpr ⟨hlt, fun c hc => ?_⟩)
            exact Nat.lt_trans hlt (he.1 c hc)
          rw [hnone, List.map_cons, List.sum_cons, Option.elim_none, Nat.add_zero]
          exact Nat.add_comm ..
      · split
        · next heq =>
            have hk : e.1 = k := (Ranked.rank_inj heq).symm
            simp only [lookIn, if_pos hk, List.map_cons, List.sum_cons, Option.elim_some]
            omega
        · next hne =>
            have hk : e.1 ≠ k := fun e' => hne (e' ▸ rfl)
            have ih := sum_insertBy n k b he.2
            simp only [lookIn, if_neg hk, List.map_cons, List.sum_cons]
            omega

/-- Writing an entry adds its number and takes away that of the entry it
replaces. -/
lemma sumOver_insert (m : OrderedMap κ β) (n : β → Nat) (k : κ) (b : β) :
    (m.insert k b).sumOver n + (m.get? k).elim 0 n = m.sumOver n + n b :=
  sum_insertBy n k b m.ascending

/-- Writing an entry again changes nothing. -/
lemma insert_eq_self {m : OrderedMap κ β} {k : κ} {b : β} (h : m.get? k = some b) :
    m.insert k b = m := by
  refine ext_get? fun j => ?_
  rw [get?_insert]
  split
  · next e => rw [← e, h]
  · rfl

/-- A map has one more entry after a new key is written. -/
lemma size_insert (m : OrderedMap κ β) (k : κ) (b : β) :
    (m.insert k b).size = m.size + if (m.get? k).isSome then 0 else 1 := by
  have hsize : ∀ m' : OrderedMap κ β, m'.sumOver (fun _ => 1) = m'.size := by
    intro m'
    simp [sumOver, size]
  have hsum := m.sumOver_insert (fun _ => 1) k b
  rw [hsize, hsize] at hsum
  cases hk : m.get? k with
  | none => simpa [hk] using hsum
  | some c => simpa [hk] using hsum

end OrderedMap

namespace Rows

/-- The number of filled cells. -/
def cellCount (m : Rows) : Nat := m.sumOver OrderedMap.size

/-- Writing into an empty cell fills one more. -/
lemma cellCount_put (m : Rows) (s : Symbol) (x : Lookahead) (id : RuleId) :
    cellCount (put m s x id) = cellCount m + if (cell? m s x).isSome then 0 else 1 := by
  have hrow : (m.get? s).elim 0 OrderedMap.size = (row m s).size := by
    rw [row]
    cases m.get? s with
    | none => rfl
    | some r => rfl
  have hsum := m.sumOver_insert OrderedMap.size s ((row m s).insert x id)
  rw [hrow, OrderedMap.size_insert] at hsum
  rw [cellCount, cellCount, put, cell?]
  omega

/-- Writing a rule again into its cell changes nothing. -/
lemma put_eq_self {m : Rows} {s : Symbol} {x : Lookahead} {id : RuleId}
    (h : cell? m s x = some id) : put m s x id = m := by
  rw [put, OrderedMap.insert_eq_self h]
  cases hs : m.get? s with
  | none =>
      rw [cell?, row, hs, Option.getD_none] at h
      cases h
  | some r =>
      refine OrderedMap.insert_eq_self ?_
      rw [row, hs, Option.getD_some]

end Rows

namespace Table

lemma size_eq_cellCount (t : Table) : t.size = t.rows.cellCount := by
  simp [size, cells, Rows.cellCount, OrderedMap.sumOver, OrderedMap.size, List.length_flatMap]

/-! ### Writes into one cell -/

/-- The rules that a list of writes puts into a cell, in order. -/
def rulesAt (s : Symbol) (x : Lookahead) (ws : List Write) : List RuleId :=
  (ws.filter fun w => decide (w.nonterminal = s ∧ w.lookahead = x)).map Write.rule

variable {s : Symbol} {x : Lookahead} {ws : List Write}

lemma mem_rulesAt {id : RuleId} : id ∈ rulesAt s x ws ↔ ⟨s, x, id⟩ ∈ ws := by
  simp only [rulesAt, List.mem_map, List.mem_filter, decide_eq_true_eq]
  constructor
  · rintro ⟨w, ⟨hw, rfl, rfl⟩, rfl⟩
    exact hw
  · intro hw
    exact ⟨_, ⟨hw, rfl, rfl⟩, rfl⟩

lemma rulesAt_concat (w : Write) :
    rulesAt s x (ws ++ [w]) =
      rulesAt s x ws ++ if w.nonterminal = s ∧ w.lookahead = x then [w.rule] else [] := by
  rw [rulesAt, List.filter_append, List.map_append, ← rulesAt, List.filter_singleton]
  by_cases h : w.nonterminal = s ∧ w.lookahead = x
  · simp [h]
  · simp [h]

/-- **A cell holds the last rule that was written into it.** -/
theorem cell?_fill (ws : List Write) (s : Symbol) (x : Lookahead) :
    (fill ws).rows.cell? s x = (rulesAt s x ws).getLast? := by
  induction ws using List.reverseRecOn with
  | nil => rfl
  | append_singleton ws w ih =>
      rw [fill_concat, cell?_write, rulesAt_concat, ih]
      split
      · rw [List.getLast?_concat]
      · rw [List.append_nil]

/-- A write that is not a repetition makes a conflict exactly if its cell is
filled. -/
lemma conflict?_fill {w : Write} (hw : w ∉ ws) :
    (fill ws).conflict? w =
      (rulesAt w.nonterminal w.lookahead ws).getLast?.map fun old =>
        ⟨w.nonterminal, w.lookahead, old, w.rule⟩ := by
  rw [← cell?_fill]
  cases hc : (fill ws).rows.cell? w.nonterminal w.lookahead with
  | none => rw [Filling.conflict?, hc, Option.map_none]
  | some old =>
      have hne : old ≠ w.rule := by
        rintro rfl
        exact hw (mem_of_cell?_fill hc)
      rw [conflict?_of_cell? hc, if_neg hne, Option.map_some]

/-- One more element at the end of a list makes one more pair of neighbours, unless it
is the first. -/
lemma zipWith_tail_concat {α β : Type} (f : α → α → β) (l : List α) (a : α) :
    List.zipWith f (l ++ [a]) (l ++ [a]).tail
      = List.zipWith f l l.tail ++ (l.getLast?.map fun b => f b a).toList := by
  induction l with
  | nil => rfl
  | cons b l ih =>
      cases l with
      | nil => rfl
      | cons c l =>
          simp only [List.cons_append, List.tail_cons, List.zipWith_cons_cons,
            List.getLast?_cons_cons] at ih ⊢
          rw [ih]

lemma conflicts_concat (ws : List Write) (w : Write) :
    (fill (ws ++ [w])).conflicts.reverse
      = (fill ws).conflicts.reverse ++ ((fill ws).conflict? w).toList := by
  have hreverse : ((fill ws).conflict? w).toList.reverse = ((fill ws).conflict? w).toList := by
    cases (fill ws).conflict? w <;> rfl
  rw [fill_concat, Filling.write, List.reverse_append, hreverse]

lemma notMem_of_nodup_concat {w : Write} (h : (ws ++ [w]).Nodup) : w ∉ ws ∧ ws.Nodup :=
  List.nodup_cons.mp ((List.perm_append_singleton w ws).nodup_iff.mp h)

/-- **The conflicts of a cell are the pairs of neighbours** among the rules that
were written into it, if no write is repeated. -/
theorem conflicts_fill (hnodup : ws.Nodup) (s : Symbol) (x : Lookahead) :
    (fill ws).conflicts.reverse.filter (fun c => decide (c.nonterminal = s ∧ c.lookahead = x))
      = List.zipWith (Conflict.mk s x) (rulesAt s x ws) (rulesAt s x ws).tail := by
  induction ws using List.reverseRecOn with
  | nil => rfl
  | append_singleton ws w ih =>
      obtain ⟨hw, hws⟩ := notMem_of_nodup_concat hnodup
      rw [conflicts_concat, List.filter_append, ih hws, conflict?_fill hw, rulesAt_concat]
      by_cases hcell : w.nonterminal = s ∧ w.lookahead = x
      · obtain ⟨rfl, rfl⟩ := hcell
        rw [if_pos ⟨rfl, rfl⟩, zipWith_tail_concat]
        cases (rulesAt w.nonterminal w.lookahead ws).getLast? with
        | none => rfl
        | some old => simp
      · rw [if_neg hcell, List.append_nil]
        cases (rulesAt w.nonterminal w.lookahead ws).getLast? with
        | none => simp
        | some old => simp [hcell]

/-- The write that made a conflict. -/
def keptWrite (c : Conflict) : Write := ⟨c.nonterminal, c.lookahead, c.kept⟩

/-- The conflicts come in the order of the writes that made them. -/
lemma conflicts_fill_sublist (ws : List Write) :
    ((fill ws).conflicts.reverse.map keptWrite).Sublist ws := by
  induction ws using List.reverseRecOn with
  | nil => exact List.Sublist.refl []
  | append_singleton ws w ih =>
      rw [conflicts_concat, List.map_append]
      refine ih.append ?_
      cases hc : (fill ws).rows.cell? w.nonterminal w.lookahead with
      | none => simp [Filling.conflict?, hc]
      | some old =>
          rw [conflict?_of_cell? hc]
          split
          · exact List.nil_sublist _
          · exact List.Sublist.refl _

/-- **Every write fills a cell or makes a conflict**, if no write is repeated. -/
theorem cellCount_fill (hnodup : ws.Nodup) :
    (fill ws).rows.cellCount + (fill ws).conflicts.length = ws.length := by
  induction ws using List.reverseRecOn with
  | nil => rfl
  | append_singleton ws w ih =>
      obtain ⟨hw, hws⟩ := notMem_of_nodup_concat hnodup
      have hcount : (fill (ws ++ [w])).rows.cellCount = (fill ws).rows.cellCount
          + if ((rulesAt w.nonterminal w.lookahead ws).getLast?).isSome then 0 else 1 := by
        rw [fill_concat, ← cell?_fill]
        exact Rows.cellCount_put ..
      have hlength : (fill (ws ++ [w])).conflicts.length = (fill ws).conflicts.length
          + if ((rulesAt w.nonterminal w.lookahead ws).getLast?).isSome then 1 else 0 := by
        rw [← List.length_reverse, conflicts_concat, conflict?_fill hw, List.length_append,
          List.length_reverse]
        cases (rulesAt w.nonterminal w.lookahead ws).getLast? with
        | none => rfl
        | some old => rfl
      have ih' := ih hws
      rw [hcount, hlength, List.length_append, List.length_singleton]
      split <;> omega

end Table

end TopDown
