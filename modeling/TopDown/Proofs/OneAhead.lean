import TopDown.Proofs.StepLimit

/-!
A parse never looks beyond the current token.

Two parses of words that begin alike go side by side as long as the current token is one of
those that are alike: the token after it has no part in a move.

* `Config.Alike`: two configurations that differ at most in the tokens behind the first `k`
  of the whole input.
* `Config.Alike.advance`: one move from each of them, the step lemma; `Config.Alike.run` is
  the run lemma, and `Table.parseWithin_of_take_eq` and `Table.parseUpTo?_of_take_eq` are
  what it says of parses.
* `upToMatch`: the steps up to the one that matches the `k`th token.
* `Table.Moves.exists_alike`: two runs that both read `k` tokens come to read the last of
  them by the same steps.
* `Table.parse_looks_one_ahead`: errors and steps are decided by the words up to the current
  one.
-/

namespace TopDown

/-- The configurations differ at most in the tokens behind the first `k` of the input, counted
from where the parse began. -/
structure Config.Alike (k : Nat) (c c' : Config) : Prop where
  stack : c'.stack = c.stack
  input : c'.input.take (k - c.position) = c.input.take (k - c.position)
  position : c'.position = c.position
  history : c'.history = c.history

/-- The same becomes of two configurations, but for the tokens behind the first `k`. -/
inductive Move.Alike (k : Nat) : Move → Move → Prop
  | next {c c' : Config} (hc : c.Alike k c') : Alike k (.next c) (.next c')
  | stop (verdict : Verdict) : Alike k (.stop verdict) (.stop verdict)

namespace Config.Alike

variable {k : Nat} {c c' : Config} {t : Table}

/-- Parses of words that begin alike begin alike. -/
lemma initial (g : Grammar) (start : Symbol) {v w : List String} (h : w.take k = v.take k) :
    Alike k (.initial g start v) (.initial g start w) := by
  refine ⟨rfl, ?_, rfl, rfl⟩
  show (w.map _).take k = (v.map _).take k
  rw [← List.map_take, ← List.map_take, h]

/-- Before the `k`th token has been read the current token is the same, or there is none. -/
lemma input_cases (h : Alike k c c') (hk : c.position < k) :
    (c.input = [] ∧ c'.input = [])
      ∨ ∃ token rest rest', c.input = token :: rest ∧ c'.input = token :: rest'
        ∧ rest'.take (k - (c.position + 1)) = rest.take (k - (c.position + 1)) := by
  have hinput := h.input
  rw [show k - c.position = k - (c.position + 1) + 1 by omega] at hinput
  cases hc : c.input with
  | nil =>
      rw [hc, List.take_nil] at hinput
      exact .inl ⟨rfl, by simpa using hinput⟩
  | cons token rest =>
      cases hc' : c'.input with
      | nil => rw [hc, hc'] at hinput; cases hinput
      | cons token' rest' =>
          rw [hc, hc', List.take_succ_cons, List.take_succ_cons] at hinput
          obtain ⟨rfl, hrest⟩ := List.cons.inj hinput
          exact .inr ⟨_, rest, rest', rfl, rfl, hrest⟩

/-- What a move reads of the input is the same, and so is what an error shows of it. -/
lemma input_eq (h : Alike k c c') (hk : c.position < k) :
    c'.input.isEmpty = c.input.isEmpty ∧ c'.column? = c.column?
      ∧ c'.input.head? = c.input.head? := by
  rw [column?, column?]
  obtain ⟨hc, hc'⟩ | ⟨token, rest, rest', hc, hc', _⟩ := h.input_cases hk
  · rw [hc, hc']
    exact ⟨rfl, rfl, rfl⟩
  · rw [hc, hc']
    exact ⟨rfl, rfl, rfl⟩

lemma matchTerminal (h : Alike k c c') (hk : c.position < k) (s : Symbol)
    (stack : List Symbol) :
    Move.Alike k (Table.matchTerminal c s stack) (Table.matchTerminal c' s stack) := by
  rw [Table.matchTerminal, Table.matchTerminal, h.position, h.history]
  obtain ⟨hc, hc'⟩ | ⟨token, rest, rest', hc, hc', hrest⟩ := h.input_cases hk
  · rw [hc, hc']
    exact .stop _
  · rw [hc, hc']
    by_cases htop : token.symbol = some s
    · simp only [if_pos htop]
      exact .next ⟨rfl, hrest, rfl, rfl⟩
    · simp only [if_neg htop]
      exact .stop _

lemma expandNonterminal (h : Alike k c c') (hk : c.position < k) (s : Symbol)
    (stack : List Symbol) :
    Move.Alike k (t.expandNonterminal c s stack) (t.expandNonterminal c' s stack) := by
  have hpredict : t.predict? s c' = t.predict? s c := by
    rw [Table.predict?, Table.predict?, (h.input_eq hk).2.1]
  rw [Table.expandNonterminal, Table.expandNonterminal, hpredict, h.position, h.history]
  cases t.predict? s c with
  | none => exact .stop _
  | some p => exact .next ⟨rfl, h.input, rfl, rfl⟩

/-- **One move side by side**, before the `k`th token has been read. -/
theorem advance (h : Alike k c c') (hk : c.position < k) :
    Move.Alike k (t.advance c) (t.advance c') := by
  rw [Table.advance, Table.advance, h.stack]
  cases c.stack with
  | nil =>
      rw [(h.input_eq hk).1]
      exact .stop _
  | cons s stack =>
      simp only
      split
      · exact h.matchTerminal hk s stack
      · exact h.expandNonterminal hk s stack

/-- **Runs side by side**: a run that ends before the `k`th token has been read ends alike
for the other input. -/
theorem run (h : Alike k c c') {n : Nat} (hk : (t.run n c).1.position < k) :
    (t.run n c).1.Alike k (t.run n c').1 ∧ (t.run n c').2 = (t.run n c).2 := by
  induction n generalizing c c' with
  | zero => exact ⟨h, rfl⟩
  | succ n ih =>
      have hle : c.position ≤ (t.run (n + 1) c).1.position :=
        (Table.moves_of_run (rfl : t.run (n + 1) c = (_, _))).1.position_le
      have hmove := h.advance (t := t) (Nat.lt_of_le_of_lt hle hk)
      rw [Table.run] at hk ⊢
      rw [Table.run]
      generalize t.advance c = move at hk hmove ⊢
      generalize t.advance c' = move' at hmove ⊢
      cases hmove with
      | next hd => exact ih hd hk
      | stop verdict => exact ⟨h, rfl⟩

/-- Before the `k`th token has been read the report is the same. -/
lemma report_eq (h : Alike k c c') (hk : c.position < k) (g : Grammar)
    (failure : Option SyntaxError.Cause) : c'.report g failure = c.report g failure := by
  have herror : c'.error g = c.error g := by
    funext cause
    rw [Config.error, Config.error, h.stack, (h.input_eq hk).2.2, h.position]
  rw [Config.report, Config.report, h.history, herror]

end Config.Alike

namespace Table

variable {t : Table} {start : Symbol} {v w : List String} {k : Nat}

/-! ### Parses that stop early -/

/-- A parse within a limit that stops before the `k`th word is the same for all words that
begin with the same `k`. -/
lemma parseWithin_of_take_eq {limit : Nat} (h : w.take k = v.take k)
    (hk : (t.run limit (.initial t.grammar start v)).1.position < k) :
    t.parseWithin limit start w = t.parseWithin limit start v := by
  obtain ⟨halike, hverdict⟩ := (Config.Alike.initial t.grammar start h).run hk
  rw [parseWithin, parseWithin]
  generalize t.run limit (.initial t.grammar start v) = out at hk halike hverdict ⊢
  generalize t.run limit (.initial t.grammar start w) = out' at halike hverdict ⊢
  obtain ⟨c, verdict⟩ := out
  obtain ⟨c', verdict'⟩ := out'
  cases hverdict
  cases verdict with
  | some verdict => exact halike.report_eq hk _ _
  | none => exact halike.report_eq hk _ _

/-- An error shows how far a parse within a limit has come. -/
lemma position_of_failure {limit : Nat} {e : SyntaxError}
    (he : (t.parseWithin limit start v).failure = some e) :
    (t.run limit (.initial t.grammar start v)).1.position = e.position := by
  rw [parseWithin] at he
  generalize t.run limit (.initial t.grammar start v) = out at he ⊢
  obtain ⟨c, verdict⟩ := out
  cases verdict with
  | none =>
      cases he
      rfl
  | some verdict =>
      obtain ⟨cause, _, rfl⟩ := Option.map_eq_some_iff.mp he
      rfl

/-- **An error is decided by the words up to the one it shows**: with the same words up to
there the parse is the same, with or without a limit. -/
theorem parseUpTo?_of_take_eq {limit : Option Nat} {r : Run} {e : SyntaxError}
    (hr : t.parseUpTo? limit start v = some r) (he : r.failure = some e)
    (h : w.take (e.position + 1) = v.take (e.position + 1)) :
    t.parseUpTo? limit start w = some r := by
  -- a parse within a limit, from which the one without a limit does not differ
  have hwithin : ∀ limit, t.parseWithin limit start v = r →
      t.parseWithin limit start w = r := by
    rintro limit rfl
    refine parseWithin_of_take_eq h ?_
    rw [position_of_failure he]
    exact Nat.lt_succ_self _
  cases limit with
  | some limit => exact congrArg some (hwithin limit (Option.some.inj hr))
  | none =>
      obtain ⟨d, verdict, hmoves, hstop, rfl⟩ := parse?_eq_some_iff.mp hr
      obtain ⟨n, hn⟩ := parseWithin_of_moves hmoves hstop
      have hw := hwithin n (hn n (Nat.le_refl n))
      refine (parse?_of_parseWithin n fun e' he' => ?_).trans (congrArg some hw)
      rw [hw] at he'
      obtain ⟨cause, hcause, rfl⟩ := Option.map_eq_some_iff.mp he'
      have hne := (advance_eq_stop_iff.mp hstop).cause_ne n
      exact fun hlimit => hne (hcause.trans (congrArg some hlimit))

end Table

/-! ### Steps up to a match -/

/-- The steps up to the one that matches the `k`th terminal, this one included. -/
def upToMatch : Nat → List Step → List Step
  | 0, _ => []
  | _ + 1, [] => []
  | k + 1, .consume a :: steps => .consume a :: upToMatch k steps
  | k + 1, .expand id :: steps => .expand id :: upToMatch (k + 1) steps

/-- What comes after `k` matches does not matter. -/
lemma upToMatch_append {k : Nat} {steps : List Step} (hk : k ≤ (consumed steps).length)
    (steps' : List Step) : upToMatch k (steps ++ steps') = upToMatch k steps := by
  induction steps generalizing k with
  | nil =>
      rw [Nat.le_zero.mp hk, upToMatch, upToMatch]
  | cons step steps ih =>
      cases k with
      | zero => rw [upToMatch, upToMatch]
      | succ k =>
          cases step with
          | consume a =>
              rw [List.cons_append, upToMatch, upToMatch, ih (Nat.le_of_succ_le_succ hk)]
          | expand id => rw [List.cons_append, upToMatch, upToMatch, ih hk]

namespace Table

variable {t : Table} {start : Symbol} {v w : List String} {k : Nat}

/-- The steps made stay made. -/
lemma Moves.history_suffix {c d : Config} (h : t.Moves c d) : c.history <:+ d.history := by
  induction h with
  | refl => exact List.suffix_rfl
  | tail _ hstep ih =>
      refine ih.trans ?_
      cases hstep with
      | consume => exact List.suffix_cons ..
      | expand => exact List.suffix_cons ..

/-- **Two runs that both read `k` tokens** come to read the last of them by the same steps,
if the tokens are the same. -/
theorem Moves.exists_alike {c c' d d' : Config} (h : c.Alike k c') (hd : t.Moves c d)
    (hd' : t.Moves c' d') (hc : c.position < k) (hk : k ≤ d.position) (hk' : k ≤ d'.position) :
    ∃ e e', t.Moves c e ∧ t.Moves e d ∧ t.Moves e' d' ∧ e.position = k
      ∧ e'.history = e.history := by
  induction hd using Relation.ReflTransGen.head_induction_on generalizing c' with
  | refl => exact absurd hk (Nat.not_le.mpr hc)
  | @head c c₁ hstep hmoves ih =>
      -- both runs make this move, for neither has read its `k`th token
      have hmove := h.advance (t := t) hc
      rw [advance_eq_next_iff.mpr hstep] at hmove
      obtain rfl | ⟨c₁', hstep', hmoves'⟩ := Relation.ReflTransGen.cases_head hd'
      · exact absurd (h.position ▸ hk') (Nat.not_le.mpr hc)
      rw [advance_eq_next_iff.mpr hstep'] at hmove
      cases hmove with
      | next h₁ =>
          by_cases hc₁ : c₁.position < k
          · obtain ⟨e, e', hce, hrest⟩ := ih h₁ hmoves' hc₁
            exact ⟨e, e', hce.head hstep, hrest⟩
          · have hposition : c₁.position ≤ c.position + 1 := by
              cases hstep with
              | consume => exact Nat.le_refl _
              | expand => exact Nat.le_succ _
            exact ⟨c₁, c₁', .head hstep (.refl c₁), hmoves, hmoves', by omega, h₁.history⟩

/-- The steps of a parse are those of a configuration that the machine comes to, which has
read as many tokens as are matched. -/
lemma exists_moves_of_steps {g : Grammar} {f : FirstSets} {h : FollowSets}
    {limit : Option Nat} {r : Run} (hr : (build g f h).parseUpTo? limit start v = some r) :
    ∃ d, (build g f h).Moves (.initial g start v) d ∧ r.steps = d.history.reverse
      ∧ d.position = (consumed r.steps).length := by
  obtain ⟨d, hmoves, hsteps, _⟩ := exists_of_parseUpTo? hr
  obtain ⟨_, _, _, htracks⟩ := (Tracks.initial g start v).moves (fitting_build g f h) hmoves
  exact ⟨d, hmoves, hsteps, hsteps ▸ htracks.position_eq⟩

/-- **A parse looks at the current token and no further.** Let a table be built from any
FIRST and FOLLOW sets, and let two lists of words be parsed from the same symbol. If the
first parse ends with an error, with or without a limit, and the words are the same up to
the position of the error and at it, then so does the second, with the same error. If both
parses, each with or without a limit, match `k` tokens or more, and the first `k` words are
the same, then so are the steps up to the `k`th match. -/
theorem parse_looks_one_ahead (g : Grammar) (f : FirstSets) (h : FollowSets) (start : Symbol)
    (v w : List String) :
    (∀ limit r e, (build g f h).parseUpTo? limit start v = some r → r.result = .error e →
        w.take (e.position + 1) = v.take (e.position + 1) →
        ∃ r', (build g f h).parseUpTo? limit start w = some r' ∧ r'.result = .error e)
    ∧ ∀ limit limit' r r' k, (build g f h).parseUpTo? limit start v = some r →
        (build g f h).parseUpTo? limit' start w = some r' → w.take k = v.take k →
        k ≤ (consumed r.steps).length → k ≤ (consumed r'.steps).length →
        upToMatch k r'.steps = upToMatch k r.steps := by
  refine ⟨fun limit r e hr he hsame => ?_, fun limit limit' r r' k hr hr' hsame hk hk' => ?_⟩
  · exact ⟨r, parseUpTo?_of_take_eq hr (Run.result_eq_error_iff.mp he) hsame, he⟩
  cases k with
  | zero => rw [upToMatch, upToMatch]
  | succ k =>
      obtain ⟨d, hd, hsteps, hposition⟩ := exists_moves_of_steps hr
      obtain ⟨d', hd', hsteps', hposition'⟩ := exists_moves_of_steps hr'
      obtain ⟨e, e', hce, hed, hed', he, hhistory⟩ :=
        (hd.exists_alike (Config.Alike.initial g start hsame) hd' (Nat.succ_pos k)
          (hposition ▸ hk) (hposition' ▸ hk'))
      obtain ⟨_, _, _, htracks⟩ := (Tracks.initial g start v).moves (fitting_build g f h) hce
      obtain ⟨rest, hrest⟩ := List.reverse_prefix.mpr hed.history_suffix
      obtain ⟨rest', hrest'⟩ := List.reverse_prefix.mpr hed'.history_suffix
      have hmatched : k + 1 ≤ (consumed e.history.reverse).length :=
        (he.symm.trans htracks.position_eq).le
      rw [hsteps, hsteps', ← hrest, ← hrest', hhistory, upToMatch_append hmatched,
        upToMatch_append hmatched]

/-- A name after a name is an error whatever comes behind it, and what comes behind a plus
sign has no part in the steps that lead to it. -/
theorem parse_looks_one_ahead_sums :
    (∃ r, (ofGrammar Grammar.sums).parseUpTo? none (Symbol.ofNat 0) ["id", "id", "?"] = some r
      ∧ r.result = .error ⟨.noProduction, some "R", some "id", 1⟩)
    ∧ upToMatch 2 ((ofGrammar Grammar.sums).parseWithin 9 (Symbol.ofNat 0)
          ["id", "+", "+"]).steps
        = [.expand 0, .expand 3, .consume (Symbol.ofNat 4), .expand 1,
            .consume (Symbol.ofNat 3)] := by
  constructor
  · have hmissing : ((ofGrammar Grammar.sums).parseWithin 9 (Symbol.ofNat 0)
        ["id", "id"]).failure = some ⟨.noProduction, some "R", some "id", 1⟩ := by
      decide +kernel
    have hparse : (ofGrammar Grammar.sums).parse? (Symbol.ofNat 0) ["id", "id"] = some _ :=
      parse?_of_parseWithin 9 (by rw [hmissing]; simp)
    exact (parse_looks_one_ahead Grammar.sums _ _ _ _ _).1 none _ _ hparse
      (Run.result_eq_error_iff.mpr hmissing) rfl
  · have hsame := (parse_looks_one_ahead Grammar.sums _ _ _ _ _).2 (some 9) (some 9) _ _ 2
      (show (ofGrammar Grammar.sums).parseUpTo? _ (Symbol.ofNat 0) ["id", "+", "id"] = _
        from rfl)
      (show (ofGrammar Grammar.sums).parseUpTo? _ (Symbol.ofNat 0) ["id", "+", "+"] = _
        from rfl) rfl (by decide +kernel) (by decide +kernel)
    rw [hsame]
    decide +kernel

end Table

end TopDown
