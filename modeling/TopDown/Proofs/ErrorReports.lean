import TopDown.Proofs.Detection

/-!
What an error says is true of the parse that it stopped.

Whatever a table predicts, the steps of a parse lead from its start symbol to the words
read so far and, behind them, the stack. An error shows three things of the configuration
in which the parse stopped: the top of the stack, the current word and its place.

* `Table.Reports`: what an error tells of the words and of the stack at which the parse
  stopped, for each cause.
* `Tracks.lookahead`, `Tracks.leftDerives`: what the invariant of a parse says of the
  words that are not read, and of those that are.
* `Tracks.name_ne_of_stops`, `Tracks.get?_of_stops`: what it says where the machine stops
  at a symbol.
* `Table.reports_of_parse`: every error of a parse is a true report of the configuration in
  which the parse stopped, for any sets, any start symbol and with or without a limit.
-/

namespace TopDown

namespace Table

/-- The error is a true report of a parse of the words that stopped with the symbols
`stack` still to be found. -/
structure Reports (t : Table) (start : Symbol) (words : List String) (stack : List Symbol)
    (e : SyntaxError) : Prop where
  /-- The position is that of a word, or of the end. -/
  position_le : e.position ≤ words.length
  /-- The lookahead is the word at the position; at the end there is none. -/
  lookahead : e.lookahead = words[e.position]?
  /-- The start symbol derives the words before the position and then the stack. -/
  derives : ∃ ids u, t.grammar.Spells u (words.take e.position)
    ∧ t.grammar.LeftDerives ids [start] (u ++ stack)
  /-- The first symbol of the stack is shown, and none if there is none. -/
  stackSymbol : e.stackSymbol = stack.head?.map t.grammar.nameOf
  /-- A terminal is on top, and its name is not the lookahead. -/
  unexpected : e.cause = .unexpectedToken → ∃ a rest, stack = a :: rest
    ∧ t.grammar.isTerminal a = true ∧ e.lookahead ≠ some (t.grammar.nameOf a)
  /-- What is on top is no terminal, and the lookahead is an unknown name or the table has
  no rule for the two. -/
  unpredicted : e.cause = .noProduction → ∃ s rest, stack = s :: rest
    ∧ t.grammar.isTerminal s = false
    ∧ ((∃ word, e.lookahead = some word ∧ t.grammar.names.find? word = none)
      ∨ t.get? s (e.lookahead.bind t.grammar.names.find?) = none)
  /-- Nothing is left to be found, words are left, and the words before are derived. -/
  unconsumed : e.cause = .unconsumedInput → e.stackSymbol = none
    ∧ e.position < words.length
    ∧ ∃ ids u, t.grammar.Spells u (words.take e.position)
        ∧ t.grammar.LeftDerives ids [start] u

/-- Where the table has a rule for every filled cell, no prediction means no rule in the
cell. -/
lemma get?_of_predict?_eq_none {t : Table} (ht : t.Fitting) {s : Symbol} {c : Config}
    {x : Lookahead} (hx : c.column? = some x) (hp : t.predict? s c = none) :
    t.get? s x = none := by
  cases hid : t.get? s x with
  | none => rfl
  | some id =>
      obtain ⟨r, hr, _⟩ := ht s x id hid
      rw [predict?_eq_some_iff.mpr ⟨x, hx, hid, hr⟩] at hp
      cases hp

end Table

/-! ### What the invariant says of a configuration -/

namespace Tracks

variable {t : Table} {g : Grammar} {start : Symbol} {read unread : List String} {c : Config}

/-- The current token is the first word that is not read. -/
lemma lookahead (h : Tracks g start read unread c) :
    c.input.head?.map Token.text = unread.head? := by
  rw [h.input]
  cases unread <;> rfl

/-- The first word that is not read is the word at the position. -/
lemma getElem?_position (h : Tracks g start read unread c) :
    (read ++ unread)[c.position]? = unread.head? := by
  rw [h.position, List.getElem?_append_right (Nat.le_refl _), Nat.sub_self,
    List.head?_eq_getElem?]

/-- The words before the position are the words read. -/
lemma take_position (h : Tracks g start read unread c) :
    (read ++ unread).take c.position = read := by
  rw [h.position, List.take_left]

/-- The start symbol derives the words read, followed by the stack. -/
lemma leftDerives (h : Tracks g start read unread c) (hg : g.names.size ≤ UInt32.size) :
    ∃ ids u, g.Spells u read ∧ g.LeftDerives ids [start] (u ++ c.stack) := by
  have hleft := h.replays.leftDerives_append [] (by simp)
  exact ⟨_, _, ⟨h.replays.isTerminal_consumed, h.map_name? hg⟩, hleft⟩

/-- A terminal at which the machine stops is not named by the next word. -/
lemma name_ne_of_stops (h : Tracks t.grammar start read unread c)
    (hstops : t.Stops c (.rejected .unexpectedToken)) :
    ∃ a rest, c.stack = a :: rest ∧ t.grammar.isTerminal a = true
      ∧ unread.head? ≠ some (t.grammar.nameOf a) := by
  cases hstops with
  | @unexpected s stack input position history hs hinput =>
      refine ⟨s, stack, rfl, hs, fun hhead => ?_⟩
      have htoken : input.head? = some (Token.ofText t.grammar (t.grammar.nameOf s)) := by
        rw [show input = unread.map (Token.ofText t.grammar) from h.input, List.head?_map,
          hhead, Option.map_some]
      exact hinput _ htoken (Token.symbol_ofText_nameOf hs)

/-- For a nonterminal at which the machine stops, the next word is an unknown name or the
table has no rule. -/
lemma get?_of_stops (ht : t.Fitting) (h : Tracks t.grammar start read unread c)
    (hstops : t.Stops c (.rejected .noProduction)) :
    ∃ s rest, c.stack = s :: rest ∧ t.grammar.isTerminal s = false
      ∧ ((∃ word, unread.head? = some word ∧ t.grammar.names.find? word = none)
        ∨ t.get? s (unread.head?.bind t.grammar.names.find?) = none) := by
  cases hstops with
  | @unpredicted s stack input position history hs hp =>
      refine ⟨s, stack, rfl, hs, ?_⟩
      have hinput : input = unread.map (Token.ofText t.grammar) := h.input
      cases unread with
      | nil =>
          subst hinput
          exact .inr (Table.get?_of_predict?_eq_none ht rfl hp)
      | cons word unread =>
          subst hinput
          cases hword : t.grammar.names.find? word with
          | none => exact .inl ⟨word, rfl, hword⟩
          | some a =>
              have hcolumn : (⟨s :: stack, (word :: unread).map (Token.ofText t.grammar),
                  position, history⟩ : Config).column? = some (some a) :=
                Table.column?_of_symbol hword
              refine .inr ?_
              rw [List.head?_cons, Option.bind_some, hword]
              exact Table.get?_of_predict?_eq_none ht hcolumn hp

/-- At an exhausted stack the machine stops only before the end of the words. -/
lemma position_lt_of_stops (h : Tracks t.grammar start read unread c)
    (hstops : t.Stops c (.rejected .unconsumedInput)) :
    c.stack = [] ∧ c.position < (read ++ unread).length := by
  cases hstops with
  | @unconsumed token input position history =>
      have hinput : token :: input = unread.map (Token.ofText t.grammar) := h.input
      have hlength := congrArg List.length hinput
      rw [List.length_cons, List.length_map] at hlength
      have hposition := h.position
      rw [List.length_append]
      exact ⟨rfl, by omega⟩

/-- **The error of a configuration that the invariant holds of is a true report** if the
machine rejects the input there, or if the limit is used up. -/
theorem reports (ht : t.Fitting) (hg : t.grammar.names.size ≤ UInt32.size)
    (h : Tracks t.grammar start read unread c) {cause : SyntaxError.Cause}
    (hcause : t.Stops c (.rejected cause) ∨ ∃ n, cause = .stepLimitExceeded n) :
    t.Reports start (read ++ unread) c.stack (c.error t.grammar cause) := by
  have hstops : ∀ cause', (∀ n, cause' ≠ .stepLimitExceeded n) → cause = cause' →
      t.Stops c (.rejected cause') := by
    rintro cause' hne rfl
    exact hcause.resolve_right fun ⟨n, hn⟩ => hne n hn
  have hlookahead : (c.error t.grammar cause).lookahead = unread.head? := h.lookahead
  have hread : (read ++ unread).take (c.error t.grammar cause).position = read :=
    h.take_position
  obtain ⟨ids, u, hu, hleft⟩ := h.leftDerives hg
  refine ⟨?_, ?_, ⟨ids, u, by rwa [hread], hleft⟩, rfl, fun hc => ?_, fun hc => ?_, fun hc => ?_⟩
  · show c.position ≤ (read ++ unread).length
    rw [h.position, List.length_append]
    exact Nat.le_add_right _ _
  · exact hlookahead.trans h.getElem?_position.symm
  · rw [hlookahead]
    exact h.name_ne_of_stops (hstops _ (by simp) hc)
  · rw [hlookahead]
    exact h.get?_of_stops ht (hstops _ (by simp) hc)
  · obtain ⟨hstack, hlt⟩ := h.position_lt_of_stops (hstops _ (by simp) hc)
    rw [hstack, List.append_nil] at hleft
    refine ⟨?_, hlt, ids, u, by rwa [hread], hleft⟩
    rw [Config.error, hstack, List.head?_nil, Option.map_none]

end Tracks

namespace Table

/-- **Every error is a true report.** Let a table be built from any FIRST and FOLLOW sets,
and let a parse from any symbol, with or without a limit, end with an error. Then the
machine comes from its initial configuration to one in which it rejects the input for the
cause that the error gives, or in which it has made as many moves as the limit allows; the
error shows this configuration, and is a true report of the parse at its stack. -/
theorem reports_of_parse (g : Grammar) (hg : g.names.size ≤ UInt32.size) (f : FirstSets)
    (h : FollowSets) (limit : Option Nat) (start : Symbol) (words : List String) (r : Run)
    (e : SyntaxError) (hr : (build g f h).parseUpTo? limit start words = some r)
    (he : r.result = .error e) :
    ∃ d, (build g f h).Moves (.initial g start words) d ∧ e = d.error g e.cause
      ∧ ((build g f h).Stops d (.rejected e.cause)
        ∨ ∃ n, limit = some n ∧ e.cause = .stepLimitExceeded n ∧ d.history.length = n)
      ∧ (build g f h).Reports start words d.stack e := by
  obtain ⟨d, hmoves, herror, hcause⟩ := moves_of_failure hr (Run.result_eq_error_iff.mp he)
  have ht := fitting_build g f h
  obtain ⟨read, unread, hwords, htracks⟩ := (Tracks.initial g start words).moves ht hmoves
  have hreports := htracks.reports ht hg (hcause.imp_right fun ⟨n, _, hn, _⟩ => ⟨n, hn⟩)
  rw [hwords, List.nil_append] at hreports
  refine ⟨d, hmoves, herror, hcause, ?_⟩
  rw [herror]
  exact hreports

/-- A name follows a name, where a plus sign had to come; a limit is used up before the
plus sign of a sum; and one is used up when only the end of the stack is left. -/
theorem reports_of_parse_sums :
    (∃ (d : Config) (e : SyntaxError),
      ((ofGrammar Grammar.sums).parseWithin 9 (Symbol.ofNat 0) ["id", "id"]).result = .error e
        ∧ e = d.error Grammar.sums .noProduction
        ∧ (ofGrammar Grammar.sums).Stops d (.rejected .noProduction)
        ∧ (ofGrammar Grammar.sums).Reports (Symbol.ofNat 0) ["id", "id"] d.stack e)
    ∧ (∃ (d : Config) (e : SyntaxError),
      ((ofGrammar Grammar.sums).parseWithin 4 (Symbol.ofNat 0) ["id", "+", "id"]).result
          = .error e
        ∧ e.stackSymbol = some "+" ∧ e.position = 1
        ∧ e = d.error Grammar.sums (.stepLimitExceeded 4) ∧ d.history.length = 4
        ∧ (ofGrammar Grammar.sums).Reports (Symbol.ofNat 0) ["id", "+", "id"] d.stack e)
    ∧ ∃ (d : Config) (e : SyntaxError),
      ((ofGrammar Grammar.sums).parseWithin 8 (Symbol.ofNat 0) ["id", "+", "id"]).result
          = .error e
        ∧ e.stackSymbol = none ∧ e.position = 3
        ∧ e = d.error Grammar.sums (.stepLimitExceeded 8) ∧ d.history.length = 8
        ∧ (ofGrammar Grammar.sums).Reports (Symbol.ofNat 0) ["id", "+", "id"] d.stack e := by
  have hmissing : ((ofGrammar Grammar.sums).parseWithin 9 (Symbol.ofNat 0)
      ["id", "id"]).result = .error ⟨.noProduction, some "R", some "id", 1⟩ := by
    decide +kernel
  have hbefore : ((ofGrammar Grammar.sums).parseWithin 4 (Symbol.ofNat 0)
      ["id", "+", "id"]).result = .error ⟨.stepLimitExceeded 4, some "+", some "+", 1⟩ := by
    decide +kernel
  have hend : ((ofGrammar Grammar.sums).parseWithin 8 (Symbol.ofNat 0)
      ["id", "+", "id"]).result = .error ⟨.stepLimitExceeded 8, none, none, 3⟩ := by
    decide +kernel
  -- where the limit is the cause, as many steps have been made
  have hcut : ∀ (n : Nat) (e : SyntaxError),
      ((ofGrammar Grammar.sums).parseWithin n (Symbol.ofNat 0) ["id", "+", "id"]).result
        = .error e → e.cause = .stepLimitExceeded n →
      ∃ d : Config, e = d.error Grammar.sums (.stepLimitExceeded n) ∧ d.history.length = n
        ∧ (ofGrammar Grammar.sums).Reports (Symbol.ofNat 0) ["id", "+", "id"] d.stack e := by
    intro n e he hcause
    obtain ⟨d, _, herror, hstops | ⟨m, hm, _, hlength⟩, hreports⟩ :=
      reports_of_parse Grammar.sums (by decide) _ _ (some n) _ _ _ e rfl he
    · exact absurd (congrArg some hcause) (hstops.cause_ne n)
    · rw [hcause] at herror
      exact ⟨d, herror, hlength.trans (Option.some.inj hm).symm, hreports⟩
  obtain ⟨d, _, herror, hstops, hreports⟩ :=
    reports_of_parse Grammar.sums (by decide) _ _ (some 9) _ _ _ _ rfl hmissing
  obtain ⟨d₄, hd₄⟩ := hcut 4 _ hbefore rfl
  obtain ⟨d₈, hd₈⟩ := hcut 8 _ hend rfl
  refine ⟨⟨d, _, hmissing, herror, hstops.resolve_right (by simp), hreports⟩, ?_, ?_⟩
  · exact ⟨d₄, _, hbefore, rfl, rfl, hd₄⟩
  · exact ⟨d₈, _, hend, rfl, rfl, hd₈⟩

end Table

end TopDown
