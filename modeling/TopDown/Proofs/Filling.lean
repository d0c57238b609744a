import Mathlib.Data.List.Induction
import Mathlib.Tactic.Common
import TopDown.Proofs.FirstSets
import TopDown.Table

/-!
What the cells of a table hold, for any FIRST and FOLLOW sets.

* `Table.mem_columns`, `Table.mem_writes`: where a rule goes, and which writes
  are made.
* `Table.fill`: the state that a list of writes leads to. A filled cell was
  written (`mem_of_cell?_fill`), and a cell in a row without conflicts holds
  whatever was written into it (`cell?_fill_of_mem`).
* `Table.mem_cells`: the listed cells are those that hold something.
* `Table.ConflictFree`: no conflict is recorded in a row.
* `Table.rule_of_get?_build`, `Table.get?_build_of_mem_columns`: so a cell
  names a rule of its own row that goes into its column, and in a row without
  conflicts every rule stands in all of its columns.
-/

namespace TopDown.Table

variable {g : Grammar} {f : FirstSets} {h : FollowSets}

/-! ### Columns and writes -/

/-- The columns of a rule: what its right-hand side starts with, and what
follows its left-hand side if the right-hand side lets the scan pass. -/
lemma mem_columns {r : Rule} {x : Lookahead} :
    x ∈ columns g f h r ↔
      (x ≠ none ∧ x ∈ f.ofString g.isTerminal r.rhs)
        ∨ (none ∈ f.ofString g.isTerminal r.rhs ∧ x ∈ h.members r.lhs) := by
  rw [columns, List.mem_append, ← OrderedSet.mem_def, OrderedSet.mem_erase, and_comm]
  refine or_congr_right ?_
  by_cases hnull : none ∈ f.ofString g.isTerminal r.rhs
  · rw [if_pos hnull, and_iff_right hnull, OrderedSet.mem_def]
  · rw [if_neg hnull]
    exact iff_of_false List.not_mem_nil fun e => hnull e.1

/-- A write is made exactly for a rule, its left-hand side and one of its
columns. -/
lemma mem_writes {s : Symbol} {x : Lookahead} {id : RuleId} :
    ⟨s, x, id⟩ ∈ writes g f h ↔
      ∃ r, g.rule? id = some r ∧ r.lhs = s ∧ x ∈ columns g f h r := by
  rw [writes, List.mem_flatMap]
  constructor
  · rintro ⟨⟨i, r⟩, hr, hw⟩
    obtain ⟨y, hy, e⟩ := List.mem_map.mp hw
    cases e
    exact ⟨r, Grammar.mem_numberedRules.mp hr, rfl, hy⟩
  · rintro ⟨r, hr, rfl, hx⟩
    exact ⟨(id, r), Grammar.mem_numberedRules.mpr hr, List.mem_map.mpr ⟨x, hx, rfl⟩⟩

/-! ### Filling -/

/-- The state that a list of writes leads to. -/
def fill (ws : List Write) : Filling := ws.foldl Filling.write .empty

lemma fill_concat (ws : List Write) (w : Write) : fill (ws ++ [w]) = (fill ws).write w := by
  rw [fill, List.foldl_append]
  rfl

lemma cell?_write {t : Filling} {w : Write} {s : Symbol} {x : Lookahead} :
    (t.write w).rows.cell? s x =
      if w.nonterminal = s ∧ w.lookahead = x then some w.rule else t.rows.cell? s x :=
  Rows.cell?_put

/-- A filled cell was written. -/
lemma mem_of_cell?_fill {s : Symbol} {x : Lookahead} {id : RuleId} {ws : List Write}
    (hc : (fill ws).rows.cell? s x = some id) : ⟨s, x, id⟩ ∈ ws := by
  induction ws using List.reverseRecOn with
  | nil => exact absurd hc (by simp [fill, Filling.empty, Rows.cell?, Rows.row])
  | append_singleton ws w ih =>
      rw [fill_concat, cell?_write] at hc
      split at hc
      · next e =>
          obtain ⟨rfl, rfl⟩ := e
          cases hc
          exact List.mem_append_right _ (List.mem_singleton.mpr rfl)
      · exact List.mem_append_left _ (ih hc)

/-- A write into a filled cell makes a conflict unless the cell holds its own
rule. -/
lemma conflict?_of_cell? {t : Filling} {w : Write} {id : RuleId}
    (hc : t.rows.cell? w.nonterminal w.lookahead = some id) :
    t.conflict? w =
      if id = w.rule then none else some ⟨w.nonterminal, w.lookahead, id, w.rule⟩ := by
  rw [Filling.conflict?, hc]

/-- A cell in a row without conflicts holds whatever was written into it. -/
lemma cell?_fill_of_mem {s : Symbol} {x : Lookahead} {id : RuleId} {ws : List Write}
    (hmem : ⟨s, x, id⟩ ∈ ws) (hfree : ∀ c ∈ (fill ws).conflicts, c.nonterminal ≠ s) :
    (fill ws).rows.cell? s x = some id := by
  induction ws using List.reverseRecOn with
  | nil => exact absurd hmem List.not_mem_nil
  | append_singleton ws w ih =>
      rw [fill_concat] at hfree ⊢
      rw [cell?_write]
      by_cases hw : w.nonterminal = s ∧ w.lookahead = x
      · rw [if_pos hw]
        obtain ⟨rfl, rfl⟩ := hw
        obtain hold | hnew := List.mem_append.mp hmem
        · -- the cell held the rule already, and the write makes no conflict
          have hcell := ih hold fun c hc => hfree c (List.mem_append_right _ hc)
          by_contra hne
          have hconflict := conflict?_of_cell? hcell
          rw [if_neg fun e => hne (by rw [e])] at hconflict
          have hmem' : ⟨w.nonterminal, w.lookahead, id, w.rule⟩
              ∈ ((fill ws).write w).conflicts := by
            refine List.mem_append_left _ ?_
            rw [hconflict]
            exact List.mem_singleton.mpr rfl
          exact hfree _ hmem' rfl
        · rw [← List.mem_singleton.mp hnew]
      · rw [if_neg hw]
        obtain hold | hnew := List.mem_append.mp hmem
        · exact ih hold fun c hc => hfree c (List.mem_append_right _ hc)
        · refine absurd ?_ hw
          rw [← List.mem_singleton.mp hnew]
          exact ⟨rfl, rfl⟩

/-! ### Tables -/

/-- The cells are listed with what they hold. -/
lemma mem_cells {t : Table} {s : Symbol} {x : Lookahead} {id : RuleId} :
    (s, x, id) ∈ t.cells ↔ t.get? s x = some id := by
  rw [cells, List.mem_flatMap, get?, Rows.cell?, Rows.row]
  constructor
  · rintro ⟨⟨s, row⟩, hrow, hcell⟩
    obtain ⟨⟨x, id⟩, hid, e⟩ := List.mem_map.mp hcell
    cases e
    rw [OrderedMap.get?_eq_some_iff.mpr hrow]
    exact OrderedMap.get?_eq_some_iff.mpr hid
  · intro hid
    cases hrow : t.rows.get? s with
    | none =>
        rw [hrow] at hid
        cases hid
    | some row =>
        rw [hrow] at hid
        exact ⟨(s, row), OrderedMap.get?_eq_some_iff.mp hrow,
          List.mem_map.mpr ⟨(x, id), OrderedMap.get?_eq_some_iff.mp hid, rfl⟩⟩

/-- No conflict is recorded in the row of a symbol. -/
def ConflictFree (t : Table) (s : Symbol) : Prop := ∀ c ∈ t.conflicts, c.nonterminal ≠ s

/-- **A cell names a rule of its row** that goes into its column. -/
theorem rule_of_get?_build {s : Symbol} {x : Lookahead} {id : RuleId}
    (hc : (build g f h).get? s x = some id) :
    ∃ r, g.rule? id = some r ∧ r.lhs = s ∧ x ∈ columns g f h r :=
  mem_writes.mp (mem_of_cell?_fill hc)

/-- **In a row without conflicts a rule stands in all of its columns.** -/
theorem get?_build_of_mem_columns {id : RuleId} {r : Rule} {x : Lookahead}
    (hid : g.rule? id = some r) (hfree : (build g f h).ConflictFree r.lhs)
    (hx : x ∈ columns g f h r) : (build g f h).get? r.lhs x = some id := by
  refine cell?_fill_of_mem (mem_writes.mpr ⟨r, hid, rfl, hx⟩) fun c hc => ?_
  exact hfree c (List.mem_reverse.mpr hc)

end TopDown.Table
