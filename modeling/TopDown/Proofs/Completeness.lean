import TopDown.Proofs.Prediction
import TopDown.Proofs.Replay

/-!
What is derived is parsed, by the very rules of the derivation.

* `Table.moves_of_replays`: on a stack of predictable symbols that admits every
  terminal, the machine follows any replay of the stack whose terminals the
  tokens name, if the input may end after what the replay expands last.
* `Table.none_mem_of_closing`: it may, if it may end after the string.
* `Table.parse_of_leftDerives`: a leftmost derivation of terminals from a
  nonterminal of the LL(1) class, after which the input may end, is what the parse
  of their names finds; so there is only one.
-/

namespace TopDown

variable {g : Grammar}

/-- The name of a terminal is read as that terminal. -/
lemma Token.symbol_ofText_nameOf {a : Symbol} (ha : g.isTerminal a = true) :
    (Token.ofText g (g.nameOf a)).symbol = some a :=
  NameTable.find?_nameOf (Grammar.isTerminal_iff.mp ha).1

/-- The names of terminals are read as these terminals. -/
lemma Token.map_symbol_nameOf {w : List Symbol} (hw : ∀ a ∈ w, g.isTerminal a = true) :
    ((w.map g.nameOf).map (Token.ofText g)).map Token.symbol = w.map some := by
  rw [List.map_map, List.map_map]
  exact List.map_congr_left fun a ha => Token.symbol_ofText_nameOf (hw a ha)

namespace Table

/-- The current column, when the tokens name the symbols still to come. -/
lemma column?_of_symbols {stack w : List Symbol} {input : List Token} {position : Nat}
    {history : List Step} (h : input.map Token.symbol = w.map some) :
    (⟨stack, input, position, history⟩ : Config).column? = some w.head? := by
  cases input with
  | nil =>
      rw [List.map_nil, List.nil_eq, List.map_eq_nil_iff] at h
      rw [h]
      rfl
  | cons token input =>
      cases w with
      | nil => cases h
      | cons a w =>
          exact column?_of_symbol (List.cons.inj h).1

/-- A rule of a replay stands in the column of the next terminal that the replay matches,
if the string admits that terminal; at the end of the input, if the input may end after its
left-hand side. -/
lemma mem_columns_of_replays {id : RuleId} {r : Rule} {w : List Symbol} {steps : List Step}
    (hid : g.rule? id = some r) (h : g.Replays (r.rhs ++ w) steps [])
    (hadmits : ∀ a, g.Admits (some a) (r.lhs :: w))
    (hclosing : ∀ s ∈ g.closing (.expand id :: steps), none ∈ g.follow.members s) :
    (consumed steps).head? ∈ columns g g.first g.follow r := by
  have hstart :=
    FirstSets.head?_mem_ofString h.leftDerives.derives h.isTerminal_consumed
  cases hcons : consumed steps with
  | nil =>
      rw [hcons] at hstart
      obtain ⟨hne, _⟩ | ⟨hnull, _⟩ := FirstSets.mem_ofString_append.mp hstart
      · exact absurd rfl hne
      · have hmem := (Grammar.mem_closing_expand hid).mpr (.inl ⟨hcons, rfl⟩)
        exact mem_columns.mpr (.inr ⟨hnull, hclosing r.lhs hmem⟩)
  | cons a u =>
      rw [hcons] at hstart
      exact (hadmits a).mem_columns (Grammar.mem_rules_of_rule? hid) hstart

/-- **The machine follows the replay.** The stack admits every terminal and holds
predictable symbols only, the tokens name the terminals of the replay, and the input may end
after what is expanded last: then the moves of the machine are its steps. -/
theorem moves_of_replays {w v : List Symbol} {steps : List Step} (h : g.Replays w steps v)
    (hv : v = []) (hpred : ∀ s ∈ w, (ofGrammar g).Predictable s)
    (hadmits : ∀ a, g.Admits (some a) w)
    (hclosing : ∀ s ∈ g.closing steps, none ∈ g.follow.members s) {input : List Token}
    (hinput : input.map Token.symbol = (consumed steps).map some) (position : Nat)
    (history : List Step) :
    ∃ position', (ofGrammar g).Moves ⟨w, input, position, history⟩
      ⟨[], [], position', steps.reverse ++ history⟩ := by
  induction h generalizing input position history with
  | done w =>
      subst hv
      rw [List.map_eq_nil_iff.mp hinput]
      exact ⟨position, Moves.refl _⟩
  | @expand id r w v steps hid hrest ih =>
      subst hv
      have hr := Grammar.mem_rules_of_rule? hid
      obtain ⟨hlhs, hw⟩ := List.forall_mem_cons.mp hpred
      -- the rule of the replay stands in the column of the current token
      have hcol := mem_columns_of_replays hid hrest hadmits hclosing
      have hmove : (ofGrammar g).Advances ⟨r.lhs :: w, input, position, history⟩
          ⟨r.rhs ++ w, input, position, .expand id :: history⟩ :=
        advances_of_mem_columns hid hlhs (column?_of_symbols hinput) hcol
      have hpred' : ∀ s ∈ r.rhs ++ w, (ofGrammar g).Predictable s :=
        List.forall_mem_append.mpr ⟨hlhs.rhs hr, hw⟩
      obtain ⟨position', hmoves⟩ := ih rfl hpred' (fun a => (hadmits a).expand hr)
        (fun s hs => hclosing s ((Grammar.mem_closing_expand hid).mpr (.inr hs))) hinput
        position (.expand id :: history)
      refine ⟨position', ?_⟩
      rw [List.reverse_cons, List.append_assoc]
      exact hmoves.head hmove
  | @consume a w v steps ha hrest ih =>
      subst hv
      cases input with
      | nil => cases hinput
      | cons token input =>
          obtain ⟨htoken, hinput'⟩ := List.cons.inj hinput
          obtain ⟨position', hmoves⟩ := ih rfl (List.forall_mem_cons.mp hpred).2
            (fun a => (hadmits a).2) hclosing hinput' (position + 1) (.consume a :: history)
          refine ⟨position', ?_⟩
          rw [List.reverse_cons, List.append_assoc]
          exact hmoves.head (Advances.consume ha htoken)

/-- If a string admits the end of the input, then the input may end after whatever is
expanded last in a replay of the string. -/
lemma none_mem_of_closing {w v : List Symbol} {steps : List Step} (h : g.Replays w steps v)
    (hv : v = []) (hadmits : g.Admits none w) :
    ∀ s ∈ g.closing steps, none ∈ g.follow.members s := by
  induction h with
  | done w => exact fun s hs => absurd hs List.not_mem_nil
  | @expand id r w v steps hid hrest ih =>
      subst hv
      intro s hs
      obtain ⟨hcons, rfl⟩ | hs := (Grammar.mem_closing_expand hid).mp hs
      · -- what is left of the string is erased
        have hstart :=
          FirstSets.head?_mem_ofString hrest.leftDerives.derives hrest.isTerminal_consumed
        rw [hcons] at hstart
        obtain ⟨hne, _⟩ | ⟨_, hend⟩ := FirstSets.mem_ofString_append.mp hstart
        · exact absurd rfl hne
        · exact hadmits.1 (Grammar.isTerminal_lhs (Grammar.mem_rules_of_rule? hid)) hend
      · exact ih rfl (hadmits.expand (Grammar.mem_rules_of_rule? hid)) s hs
  | consume _ _ ih => exact ih hv hadmits.2

/-- A leftmost derivation of terminals is found by the parse of their names. -/
lemma parse?_of_leftDerives {s : Symbol} (hs : (ofGrammar g).classes.get? s = some .ll1)
    (hend : none ∈ g.follow.members s) {ids : List RuleId} {w : List Symbol}
    (hw : ∀ a ∈ w, g.isTerminal a = true) (h : g.LeftDerives ids [s] w) :
    ∃ steps, (ofGrammar g).parse? s (w.map g.nameOf) = some ⟨steps, none⟩
      ∧ expanded steps = ids ∧ consumed steps = w := by
  obtain ⟨steps, hreplays, hids, hcons⟩ := h.replays hw
  have hpred : ∀ x ∈ [s], (ofGrammar g).Predictable x :=
    List.forall_mem_singleton.mpr (classes_eq_ll1_iff.mp hs).2
  have hinput : ((w.map g.nameOf).map (Token.ofText g)).map Token.symbol
      = (consumed steps).map some := by
    rw [hcons, Token.map_symbol_nameOf hw]
  obtain ⟨position, hmoves⟩ := moves_of_replays hreplays rfl hpred
    (fun a => Grammar.admits_singleton a s)
    (none_mem_of_closing hreplays rfl (Grammar.admits_of_none_mem hend none)) hinput 0 []
  refine ⟨steps, parse?_eq_some_iff.mpr ⟨_, .accepted, hmoves, rfl, ?_⟩, hids, hcons⟩
  simp [Config.report, Verdict.cause?]

/-- **Completeness of the predictive parser.** The input may end after the start
symbol, and without conflicts every nonterminal is in the LL(1) class. For a
nonterminal of that class after which the input may end, and any leftmost
derivation of terminals from it, the parse of their names without a limit
accepts, its expanding steps are the rules of the derivation and its consuming
steps the terminals, in order. So the terminals have no other leftmost
derivation. -/
theorem parse_of_leftDerives (g : Grammar) :
    none ∈ g.follow.members g.start
    ∧ ((ofGrammar g).isLl1 = true →
        ∀ s ∈ g.nonterminals, (ofGrammar g).classes.get? s = some .ll1)
    ∧ ∀ s, (ofGrammar g).classes.get? s = some .ll1 → none ∈ g.follow.members s →
        ∀ ids w, (∀ a ∈ w, g.isTerminal a = true) → g.LeftDerives ids [s] w →
          (∃ r steps, (ofGrammar g).parse? s (w.map g.nameOf) = some r
            ∧ r.result = .ok steps ∧ expanded steps = ids ∧ consumed steps = w)
          ∧ ∀ ids', g.LeftDerives ids' [s] w → ids' = ids := by
  refine ⟨FollowSets.none_mem_start g g.first, fun h s hs => classes_of_isLl1 h hs, ?_⟩
  intro s hs hend ids w hw h
  obtain ⟨steps, hparse, hids, hcons⟩ := parse?_of_leftDerives hs hend hw h
  refine ⟨⟨_, steps, hparse, rfl, hids, hcons⟩, fun ids' h' => ?_⟩
  obtain ⟨steps', hparse', hids', _⟩ := parse?_of_leftDerives hs hend hw h'
  cases hparse.symm.trans hparse'
  exact hids'.symm.trans hids

/-- A sum of two names is parsed by the rules of its derivation. -/
theorem parse_of_leftDerives_sums :
    Grammar.sums.LeftDerives [0, 3, 1, 3, 2] [Symbol.ofNat 0]
        [Symbol.ofNat 4, Symbol.ofNat 3, Symbol.ofNat 4]
      ∧ ∃ r steps,
          (ofGrammar Grammar.sums).parse? (Symbol.ofNat 0) ["id", "+", "id"] = some r
            ∧ r.result = .ok steps ∧ expanded steps = [0, 3, 1, 3, 2]
            ∧ consumed steps = [Symbol.ofNat 4, Symbol.ofNat 3, Symbol.ofNat 4] := by
  have hclass : (ofGrammar Grammar.sums).classes.get? (Symbol.ofNat 0) = some .ll1 := by
    decide +kernel
  have hend : none ∈ Grammar.sums.follow.members (Symbol.ofNat 0) := by decide +kernel
  have hleft : Grammar.sums.LeftDerives [0, 3, 1, 3, 2] [Symbol.ofNat 0]
      [Symbol.ofNat 4, Symbol.ofNat 3, Symbol.ofNat 4] := by
    refine .step (u := []) (v := []) (r := ⟨Symbol.ofNat 0, [Symbol.ofNat 1, Symbol.ofNat 2]⟩)
      (by decide) (by decide) ?_
    refine .step (u := []) (v := [Symbol.ofNat 2]) (r := ⟨Symbol.ofNat 1, [Symbol.ofNat 4]⟩)
      (by decide) (by decide) ?_
    refine .step (u := [Symbol.ofNat 4]) (v := [])
      (r := ⟨Symbol.ofNat 2, [Symbol.ofNat 3, Symbol.ofNat 1, Symbol.ofNat 2]⟩)
      (by decide) (by decide) ?_
    refine .step (u := [Symbol.ofNat 4, Symbol.ofNat 3]) (v := [Symbol.ofNat 2])
      (r := ⟨Symbol.ofNat 1, [Symbol.ofNat 4]⟩) (by decide) (by decide) ?_
    refine .step (u := [Symbol.ofNat 4, Symbol.ofNat 3, Symbol.ofNat 4]) (v := [])
      (r := ⟨Symbol.ofNat 2, []⟩) (by decide) (by decide) (.refl _)
  have hparse := (parse_of_leftDerives Grammar.sums).2.2 _ hclass hend _ _ (by decide) hleft
  exact ⟨hleft, hparse.1⟩

end Table

end TopDown
