import TopDown.Proofs.Prediction

/-!
On predictable symbols the machine stops.

No measure goes down with every move, since a rule that is used may make the
stack longer. But in a row without conflicts a rule stands alone in each of its
columns. So if a nonterminal can be erased, or can be made to begin with the
current token, then the machine has no choice but to do so, by the finitely many
rules of a derivation that does.

* `Table.moves_of_nullable`: symbols that can be erased and that the current
  lookahead may follow are taken from the stack, and no token is read.
* `Table.moves_of_starts`: symbols that can be made to begin with the current
  token are replaced until it is read.
* `Table.progress`: so the machine stops, or it comes to fewer unread tokens, or
  to as many and a shorter stack.
* `Table.exists_stops`: so it stops after all.
* `Table.parse_terminates`: from a nonterminal of the LL(1) class every parse has
  a result, and no limit is noticed that is large enough.
-/

namespace TopDown.Table

variable {g : Grammar} {stack : List Symbol} {input : List Token} {position : Nat}
  {history : List Step}

/-! ### Erasing and reading -/

/-- **Symbols that can be erased are erased**, if the current lookahead may
follow each of them. -/
theorem moves_of_nullable {w : List Symbol} (h : g.Nullable w)
    (hpred : ∀ s ∈ w, (ofGrammar g).Predictable s) {x : Lookahead}
    (hx : (⟨w ++ stack, input, position, history⟩ : Config).column? = some x)
    (hfollow : ∀ s ∈ w, x ∈ g.follow.members s) :
    ∃ history', (ofGrammar g).Moves ⟨w ++ stack, input, position, history⟩
      ⟨stack, input, position, history'⟩ := by
  induction h generalizing stack history with
  | nil => exact ⟨history, Moves.refl _⟩
  | @cons r w hr hrhs _ ihr ihw =>
      obtain ⟨id, hid⟩ := List.mem_iff_getElem?.mp hr
      obtain ⟨hlhs, hrest⟩ := List.forall_mem_cons.mp hpred
      obtain ⟨hxr, hxrest⟩ := List.forall_mem_cons.mp hfollow
      have hcol : x ∈ columns g g.first g.follow r :=
        mem_columns.mpr (.inr ⟨FirstSets.none_mem_ofString_iff.mpr hrhs, hxr⟩)
      have hmove : (ofGrammar g).Advances ⟨r.lhs :: (w ++ stack), input, position, history⟩
          ⟨r.rhs ++ (w ++ stack), input, position, .expand id :: history⟩ :=
        advances_of_mem_columns hid hlhs hx hcol
      -- first the right-hand side is erased, then the rest
      obtain ⟨history₁, hmoves₁⟩ : ∃ history₁, (ofGrammar g).Moves
          ⟨r.rhs ++ (w ++ stack), input, position, .expand id :: history⟩
          ⟨w ++ stack, input, position, history₁⟩ :=
        ihr (hlhs.rhs hr) hx (FollowSets.mem_members_rhs hr hrhs hxr)
      obtain ⟨history₂, hmoves₂⟩ : ∃ history₂, (ofGrammar g).Moves
          ⟨w ++ stack, input, position, history₁⟩ ⟨stack, input, position, history₂⟩ :=
        ihw hrest hx hxrest
      exact ⟨history₂, (hmoves₁.trans hmoves₂).head hmove⟩

/-- **Symbols that can be made to begin with the current token come to read
it.** -/
theorem moves_of_starts {a : Symbol} (ha : g.isTerminal a = true) {w : List Symbol}
    (h : g.Starts a w) (hpred : ∀ s ∈ w, (ofGrammar g).Predictable s)
    (hadmits : g.Admits (some a) w) {token : Token} (htoken : token.symbol = some a) :
    ∃ w' history', (∀ s ∈ w', (ofGrammar g).Predictable s)
      ∧ (ofGrammar g).Moves ⟨w ++ stack, token :: input, position, history⟩
          ⟨w' ++ stack, input, position + 1, history'⟩ := by
  induction h generalizing stack history with
  | here w =>
      refine ⟨w, .consume a :: history, (List.forall_mem_cons.mp hpred).2, ?_⟩
      exact (Moves.refl _).head (Advances.consume ha htoken)
  | @expand r w hr hrhs ih =>
      obtain ⟨id, hid⟩ := List.mem_iff_getElem?.mp hr
      obtain ⟨hlhs, hrest⟩ := List.forall_mem_cons.mp hpred
      have hcol : some a ∈ columns g g.first g.follow r :=
        mem_columns.mpr (.inl ⟨Option.some_ne_none a, FirstSets.some_mem_of_starts ha hrhs⟩)
      have hmove : (ofGrammar g).Advances
          ⟨r.lhs :: (w ++ stack), token :: input, position, history⟩
          ⟨r.rhs ++ (w ++ stack), token :: input, position, .expand id :: history⟩ :=
        advances_of_mem_columns hid hlhs (column?_of_symbol htoken) hcol
      have hadmits' : g.Admits (some a) r.rhs := by
        simpa using (Grammar.admits_singleton a r.lhs).expand hr
      obtain ⟨w', history', hpred', hmoves⟩ :
          ∃ w' history', (∀ s ∈ w', (ofGrammar g).Predictable s) ∧ (ofGrammar g).Moves
            ⟨r.rhs ++ (w ++ stack), token :: input, position, .expand id :: history⟩
            ⟨w' ++ (w ++ stack), input, position + 1, history'⟩ :=
        ih (hlhs.rhs hr) hadmits'
      refine ⟨w' ++ w, history', List.forall_mem_append.mpr ⟨hpred', hrest⟩, ?_⟩
      rw [List.append_assoc]
      exact hmoves.head hmove
  | @skip s w hs hw ih =>
      obtain ⟨hhead, hrest⟩ := List.forall_mem_cons.mp hpred
      have hfollow : some a ∈ g.follow.members s :=
        hadmits.1 (hs.isTerminal s List.mem_cons_self) (FirstSets.some_mem_of_starts ha hw)
      obtain ⟨history₁, hmoves₁⟩ : ∃ history₁, (ofGrammar g).Moves
          ⟨[s] ++ (w ++ stack), token :: input, position, history⟩
          ⟨w ++ stack, token :: input, position, history₁⟩ :=
        moves_of_nullable hs (List.forall_mem_singleton.mpr hhead)
          (column?_of_symbol htoken) (List.forall_mem_singleton.mpr hfollow)
      obtain ⟨w', history', hpred', hmoves₂⟩ :
          ∃ w' history', (∀ s ∈ w', (ofGrammar g).Predictable s) ∧ (ofGrammar g).Moves
            ⟨w ++ stack, token :: input, position, history₁⟩
            ⟨w' ++ stack, input, position + 1, history'⟩ :=
        ih hrest hadmits.2
      exact ⟨w', history', hpred', hmoves₁.trans hmoves₂⟩

/-! ### Progress -/

/-- **Progress.** With predictable symbols on its stack the machine stops, or it
comes to fewer unread tokens, or to as many and a shorter stack; and the symbols
are predictable again. -/
theorem progress (c : Config) (hpred : ∀ s ∈ c.stack, (ofGrammar g).Predictable s) :
    (∃ v, (ofGrammar g).Stops c v)
      ∨ ∃ d, (ofGrammar g).Moves c d ∧ (∀ s ∈ d.stack, (ofGrammar g).Predictable s)
          ∧ (d.input.length < c.input.length
            ∨ d.input.length = c.input.length ∧ d.stack.length < c.stack.length) := by
  cases hc : (ofGrammar g).advance c with
  | stop v => exact .inl ⟨v, advance_eq_stop_iff.mp hc⟩
  | next d =>
      refine .inr ?_
      cases advance_eq_next_iff.mp hc with
      | @consume s stack token input position history hs htoken =>
          refine ⟨_, (Moves.refl _).head (Advances.consume hs htoken), ?_, .inl (by simp)⟩
          exact (List.forall_mem_cons.mp hpred).2
      | @expand s stack input position history x id _ hs hx hid _ =>
          obtain ⟨r, hr, rfl, hcol⟩ := rule_of_get?_build hid
          have hmem := Grammar.mem_rules_of_rule? hr
          obtain ⟨hlhs, hrest⟩ := List.forall_mem_cons.mp hpred
          have htop : ∀ s ∈ [r.lhs], (ofGrammar g).Predictable s :=
            List.forall_mem_singleton.mpr hlhs
          -- why the rule is in the column: it begins with the token, or it erases
          obtain ⟨hne, hfirst⟩ | ⟨hnull, hfollow⟩ := mem_columns.mp hcol
          · obtain ⟨a, rfl⟩ := Option.ne_none_iff_exists'.mp hne
            obtain ⟨ha, hstarts⟩ := FirstSets.some_mem_ofString_iff.mp hfirst
            obtain ⟨token, input, rfl, htoken⟩ := symbol_of_column? hx
            have hstarts' : g.Starts a [r.lhs] := Grammar.Starts.expand hmem hstarts
            obtain ⟨w, history', hw, hmoves⟩ := moves_of_starts ha hstarts' htop
              (Grammar.admits_singleton a r.lhs) htoken
            exact ⟨_, hmoves, List.forall_mem_append.mpr ⟨hw, hrest⟩, .inl (by simp)⟩
          · have hnullable : g.Nullable [r.lhs] := Grammar.Nullable.cons hmem
              (FirstSets.none_mem_ofString_iff.mp hnull) Grammar.Nullable.nil
            obtain ⟨history', hmoves⟩ := moves_of_nullable hnullable htop hx
              (List.forall_mem_singleton.mpr hfollow)
            exact ⟨_, hmoves, hrest, .inr ⟨rfl, by simp⟩⟩

/-- **On predictable symbols the machine stops.** -/
theorem exists_stops (c : Config) (hpred : ∀ s ∈ c.stack, (ofGrammar g).Predictable s) :
    ∃ d v, (ofGrammar g).Moves c d ∧ (ofGrammar g).Stops d v := by
  obtain ⟨v, hstops⟩ | ⟨d, hmoves, hpred', hless⟩ := progress c hpred
  · exact ⟨c, v, Moves.refl c, hstops⟩
  · obtain ⟨e, v, hmoves', hstops⟩ := exists_stops d hpred'
    exact ⟨e, v, hmoves.trans hmoves', hstops⟩
termination_by (c.input.length, c.stack.length)
decreasing_by
  obtain hinput | ⟨hinput, hstack⟩ := hless
  · exact Prod.Lex.left _ _ hinput
  · rw [hinput]
    exact Prod.Lex.right _ hstack

/-! ### Parses -/

/-- **Termination of the predictive parser.** From a declared nonterminal of the
LL(1) class, whatever the rest of the grammar is like, the parse of any words
without a limit has a result; it did not fail for lack of moves, and from some
number on it is the result for every limit. -/
theorem parse_terminates (g : Grammar) (s : Symbol)
    (hs : (ofGrammar g).classes.get? s = some .ll1) (words : List String) :
    ∃ n r, (ofGrammar g).parse? s words = some r
      ∧ (∀ e, r.failure = some e → ∀ limit, e.cause ≠ .stepLimitExceeded limit)
      ∧ ∀ limit, n ≤ limit → (ofGrammar g).parseWithin limit s words = r := by
  have hpred : ∀ x ∈ [s], (ofGrammar g).Predictable x :=
    List.forall_mem_singleton.mpr (classes_eq_ll1_iff.mp hs).2
  obtain ⟨d, v, hmoves, hstops⟩ := exists_stops (.initial g s words) hpred
  have hstop := advance_eq_stop_iff.mpr hstops
  obtain ⟨n, hn⟩ := parseWithin_of_moves hmoves hstop
  refine ⟨n, _, parse?_eq_some_iff.mpr ⟨d, v, hmoves, hstop, rfl⟩, fun e he limit => ?_, hn⟩
  obtain ⟨cause, hcause, rfl⟩ := Option.map_eq_some_iff.mp he
  intro hlimit
  refine hstops.cause_ne limit ?_
  rw [hcause]
  exact congrArg some hlimit

/-- The list is outside the LL(1) class, yet the parse of an unfinished sum
ends. -/
theorem parse_terminates_listsOfSums :
    (ofGrammar Grammar.listsOfSums).classes.get? (Symbol.ofNat 0) = some .contextFree
      ∧ (ofGrammar Grammar.listsOfSums).classes.get? (Symbol.ofNat 2) = some .ll1
      ∧ ∃ n r, (ofGrammar Grammar.listsOfSums).parse? (Symbol.ofNat 2) ["id", "+"] = some r
          ∧ ∀ limit, n ≤ limit → (ofGrammar Grammar.listsOfSums).parseWithin limit
              (Symbol.ofNat 2) ["id", "+"] = r := by
  have hclasses : (ofGrammar Grammar.listsOfSums).classes.get? (Symbol.ofNat 0)
        = some .contextFree
      ∧ (ofGrammar Grammar.listsOfSums).classes.get? (Symbol.ofNat 2) = some .ll1 := by
    decide +kernel
  obtain ⟨hlist, hsum⟩ := hclasses
  obtain ⟨n, r, hr, _, hn⟩ := parse_terminates Grammar.listsOfSums _ hsum ["id", "+"]
  exact ⟨hlist, hsum, n, r, hr, hn⟩

end TopDown.Table
