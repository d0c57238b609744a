import TopDown.Parse.Machine
import TopDown.Proofs.Derivation

/-!
Replaying the steps of a parse on a string of symbols.

* `Grammar.Replays`: the steps are made one after the other on the string that
  is still to be matched. An expanding step puts the right-hand side of its rule
  in the place of the first symbol, which must be the left-hand side; a consuming
  step takes the first symbol away, which must be its terminal.
* `expanded`, `consumed`: the rules that the steps use and the terminals that
  they match, in order.
* `Grammar.closing`: the nonterminals that are expanded after the last terminal
  is matched.
* `Grammar.Replays.leftDerives`, `Grammar.LeftDerives.replays`: replaying a
  string to the end is the same as a leftmost derivation of the matched
  terminals by the used rules.
-/

namespace TopDown

/-- The terminals that are matched, in order. -/
def consumed : List Step → List Symbol
  | [] => []
  | .consume a :: steps => a :: consumed steps
  | .expand _ :: steps => consumed steps

/-- The rules that are used, in order. -/
def expanded : List Step → List RuleId
  | [] => []
  | .consume _ :: steps => expanded steps
  | .expand id :: steps => id :: expanded steps

@[simp] lemma consumed_append (steps steps' : List Step) :
    consumed (steps ++ steps') = consumed steps ++ consumed steps' := by
  induction steps with
  | nil => rfl
  | cons step steps ih =>
      cases step with
      | consume a => simp [consumed, ih]
      | expand id => simp [consumed, ih]

@[simp] lemma expanded_append (steps steps' : List Step) :
    expanded (steps ++ steps') = expanded steps ++ expanded steps' := by
  induction steps with
  | nil => rfl
  | cons step steps ih =>
      cases step with
      | consume a => simp [expanded, ih]
      | expand id => simp [expanded, ih]

@[simp] lemma consumed_map_consume (w : List Symbol) : consumed (w.map .consume) = w := by
  induction w with
  | nil => rfl
  | cons a w ih => simp [consumed, ih]

@[simp] lemma expanded_map_consume (w : List Symbol) : expanded (w.map .consume) = [] := by
  induction w with
  | nil => rfl
  | cons a w ih => simp [expanded, ih]

namespace Grammar

variable {g : Grammar}

/-- The steps lead from one unmatched string to another. -/
inductive Replays (g : Grammar) : List Symbol → List Step → List Symbol → Prop
  | done (w : List Symbol) : Replays g w [] w
  | expand {id : RuleId} {r : Rule} {w v : List Symbol} {steps : List Step}
      (hid : g.rule? id = some r) (h : Replays g (r.rhs ++ w) steps v) :
      Replays g (r.lhs :: w) (.expand id :: steps) v
  | consume {a : Symbol} {w v : List Symbol} {steps : List Step}
      (ha : g.isTerminal a = true) (h : Replays g w steps v) :
      Replays g (a :: w) (.consume a :: steps) v

/-- The nonterminals that are expanded when no terminal is left to be matched. -/
def closing (g : Grammar) : List Step → List Symbol
  | [] => []
  | .consume _ :: steps => closing g steps
  | .expand id :: steps =>
      if consumed steps = [] then ((g.rule? id).map Rule.lhs).toList ++ closing g steps
      else closing g steps

lemma closing_expand {id : RuleId} {r : Rule} (hid : g.rule? id = some r) (steps : List Step) :
    g.closing (.expand id :: steps)
      = if consumed steps = [] then r.lhs :: g.closing steps else g.closing steps := by
  rw [closing, hid]
  rfl

lemma mem_closing_expand {id : RuleId} {r : Rule} (hid : g.rule? id = some r)
    {steps : List Step} {s : Symbol} :
    s ∈ g.closing (.expand id :: steps) ↔
      consumed steps = [] ∧ s = r.lhs ∨ s ∈ g.closing steps := by
  rw [closing_expand hid]
  split <;> simp [*]

lemma Replays.trans {u v w : List Symbol} {steps steps' : List Step}
    (h : g.Replays u steps v) (h' : g.Replays v steps' w) :
    g.Replays u (steps ++ steps') w := by
  induction h with
  | done w => exact h'
  | expand hid _ ih => exact Replays.expand hid (ih h')
  | consume ha _ ih => exact Replays.consume ha (ih h')

/-- The matched terminals are terminals. -/
lemma Replays.isTerminal_consumed {v w : List Symbol} {steps : List Step}
    (h : g.Replays v steps w) : ∀ a ∈ consumed steps, g.isTerminal a = true := by
  induction h with
  | done w => exact fun a ha => absurd ha List.not_mem_nil
  | expand _ _ ih => exact ih
  | consume ha _ ih => exact List.forall_mem_cons.mpr ⟨ha, ih⟩

/-- A terminal in front can only be matched. -/
lemma Replays.cons_terminal {a : Symbol} {w : List Symbol} {steps : List Step}
    (h : g.Replays (a :: w) steps []) (ha : g.isTerminal a = true) :
    ∃ rest, steps = .consume a :: rest ∧ g.Replays w rest [] := by
  cases h with
  | expand hid _ =>
      have hns := isTerminal_lhs (mem_rules_of_rule? hid)
      rw [ha] at hns
      exact absurd hns.symm Bool.false_ne_true
  | consume _ h => exact ⟨_, rfl, h⟩

/-- Terminals in front can only be matched, one after the other. -/
lemma Replays.append_terminals {u w : List Symbol} {steps : List Step}
    (h : g.Replays (u ++ w) steps []) (hu : ∀ a ∈ u, g.isTerminal a = true) :
    ∃ rest, steps = u.map .consume ++ rest ∧ g.Replays w rest [] := by
  induction u generalizing steps with
  | nil => exact ⟨steps, rfl, h⟩
  | cons a u ih =>
      obtain ⟨steps', rfl, h'⟩ := h.cons_terminal (hu a List.mem_cons_self)
      obtain ⟨rest, rfl, hrest⟩ := ih h' fun b hb => hu b (List.mem_cons_of_mem a hb)
      exact ⟨rest, rfl, hrest⟩

lemma replays_terminals {u v w : List Symbol} {steps : List Step}
    (hu : ∀ a ∈ u, g.isTerminal a = true) (h : g.Replays v steps w) :
    g.Replays (u ++ v) (u.map .consume ++ steps) w := by
  induction u with
  | nil => exact h
  | cons a u ih =>
      exact Replays.consume (hu a List.mem_cons_self)
        (ih fun b hb => hu b (List.mem_cons_of_mem a hb))

/-- A replay is a leftmost derivation, also behind terminals that are matched
already. -/
lemma Replays.leftDerives_append {v w : List Symbol} {steps : List Step}
    (h : g.Replays v steps w) :
    ∀ u : List Symbol, (∀ a ∈ u, g.isTerminal a = true) →
      g.LeftDerives (expanded steps) (u ++ v) (u ++ (consumed steps ++ w)) := by
  induction h with
  | done w => exact fun u _ => LeftDerives.refl _
  | expand hid _ ih => exact fun u hu => LeftDerives.step hid hu (ih u hu)
  | @consume a w v steps ha _ ih =>
      intro u hu
      -- the matched terminal joins those before it
      have hua : ∀ b ∈ u ++ [a], g.isTerminal b = true :=
        List.forall_mem_append.mpr ⟨hu, List.forall_mem_singleton.mpr ha⟩
      have h := ih (u ++ [a]) hua
      rw [List.append_assoc, List.append_assoc] at h
      exact h

/-- **A replay to the end is a leftmost derivation** of the matched terminals by
the used rules. -/
theorem Replays.leftDerives {v : List Symbol} {steps : List Step}
    (h : g.Replays v steps []) : g.LeftDerives (expanded steps) v (consumed steps) := by
  have hleft := h.leftDerives_append [] fun a ha => absurd ha List.not_mem_nil
  rwa [List.nil_append, List.nil_append, List.append_nil] at hleft

/-- **A leftmost derivation of terminals is a replay to the end.** -/
theorem LeftDerives.replays {ids : List RuleId} {v w : List Symbol}
    (h : g.LeftDerives ids v w) (hw : ∀ a ∈ w, g.isTerminal a = true) :
    ∃ steps, g.Replays v steps [] ∧ expanded steps = ids ∧ consumed steps = w := by
  induction h with
  | refl w =>
      refine ⟨w.map .consume, ?_, by simp, by simp⟩
      have h := replays_terminals hw (Replays.done [])
      rwa [List.append_nil, List.append_nil] at h
  | @step id ids r u v w hid hu _ ih =>
      obtain ⟨steps, hreplay, hids, hcons⟩ := ih hw
      obtain ⟨rest, rfl, hrest⟩ := hreplay.append_terminals hu
      refine ⟨u.map .consume ++ .expand id :: rest,
        replays_terminals hu (Replays.expand hid hrest), ?_, ?_⟩
      · simpa [expanded] using hids
      · simpa [consumed] using hcons

end Grammar

end TopDown
