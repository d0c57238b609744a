import TopDown.Proofs.Soundness

/-!
A limit cuts a parse off and changes nothing else.

Every move but the last is recorded as one step, so the number of moves that a parse has
made can be read off its steps. The last move, which finds the stack exhausted, is allowed
for by the limit but recorded by no step: to accept with `n` steps takes a limit of `n + 1`.

* `Step.symbol?`: the symbol that a step takes from the stack.
* `Grammar.Replays.head?_eq`: the next step shows what is on top of the stack.
* `Table.parseWithin_of_unlimited`: a parse that did not use up its limit is the same
  for every larger limit and for none.
* `Table.exists_cut`: a parse with a limit too small for a run that accepts stops on the
  way of that run.
* `Table.limit_only_cuts`: which limits are large enough, and what the error says where
  the limit is not.
-/

namespace TopDown

/-- The symbol that a step takes from the stack: the matched terminal, or the left-hand
side of the rule. -/
def Step.symbol? (g : Grammar) : Step → Option Symbol
  | .consume a => some a
  | .expand id => (g.rule? id).map Rule.lhs

/-- No steps change nothing. -/
lemma Grammar.Replays.eq_of_nil {g : Grammar} {v w : List Symbol} (h : g.Replays v [] w) :
    v = w := by
  cases h
  rfl

/-- The first symbol of a replayed string is the one that the first step takes. -/
lemma Grammar.Replays.head?_eq {g : Grammar} {v w : List Symbol} {step : Step}
    {steps : List Step} (h : g.Replays v (step :: steps) w) :
    ∃ s, step.symbol? g = some s ∧ v.head? = some s := by
  cases h with
  | @expand id r w _ _ hid h =>
      refine ⟨r.lhs, ?_, rfl⟩
      rw [Step.symbol?, hid, Option.map_some]
  | @consume a w _ _ ha h => exact ⟨a, rfl, rfl⟩

/-- As many tokens are read as terminals are matched. -/
lemma Tracks.position_eq {g : Grammar} {start : Symbol} {read unread : List String}
    {c : Config} (h : Tracks g start read unread c) :
    c.position = (consumed c.history.reverse).length := by
  have hlength := congrArg List.length h.matched
  rw [List.length_map, List.length_map] at hlength
  rw [h.position, hlength]

namespace Table

variable {t : Table} {start : Symbol} {words : List String}

/-! ### Limits that are large enough -/

/-- **A parse that did not use up its limit** is the same for every larger limit, and
without one. -/
theorem parseWithin_of_unlimited {l : Nat}
    (h : ∀ e, (t.parseWithin l start words).result = .error e →
      e.cause ≠ .stepLimitExceeded l) :
    (∀ l', l ≤ l' → t.parseWithin l' start words = t.parseWithin l start words)
      ∧ t.parse? start words = some (t.parseWithin l start words) := by
  have hparse := parse?_of_parseWithin l fun e he => h e (Run.result_eq_error_iff.mpr he)
  refine ⟨fun l' hl' => ?_, hparse⟩
  obtain ⟨d, v, hmoves, hstop, hreport⟩ := parse?_eq_some_iff.mp hparse
  have hlt : d.history.length < l := by
    by_contra hle
    obtain ⟨e, hrun, _⟩ := (run_of_moves hmoves hstop l).2 (by simpa [Config.initial] using hle)
    refine h (e.error t.grammar (.stepLimitExceeded l)) ?_ rfl
    rw [parseWithin, hrun]
    rfl
  rw [← hreport, parseWithin, (run_of_moves hmoves hstop l').1 (by omega)]

/-! ### Limits that are too small -/

/-- **A parse that is cut off** stops in a configuration through which the accepting run
passes, after as many steps as the limit. -/
theorem exists_cut {d : Config} {v : Verdict} {l : Nat}
    (hmoves : t.Moves (.initial t.grammar start words) d) (hstop : t.advance d = .stop v)
    (hl : l ≤ d.history.length) :
    ∃ c, t.parseWithin l start words = c.report t.grammar (some (.stepLimitExceeded l))
      ∧ t.Moves (.initial t.grammar start words) c ∧ t.Moves c d ∧ c.history.length = l := by
  obtain ⟨c, hrun, hc, hd, hlength⟩ :=
    (run_of_moves hmoves hstop l).2 (by simpa [Config.initial] using hl)
  refine ⟨c, by rw [parseWithin, hrun], hc, hd, ?_⟩
  simpa [Config.initial] using hlength

/-- What the error of a parse says that is cut off: its position is the number of
terminals matched so far, and on top of the stack is what the next step takes. -/
lemma cut_error {g : Grammar} {f : FirstSets} {h : FollowSets} {c d : Config}
    (hc : (build g f h).Moves (.initial g start words) c) (hd : (build g f h).Moves c d)
    (hstack : d.stack = []) (hinput : d.input = []) :
    c.position = (consumed (d.history.reverse.take c.history.length)).length
      ∧ (c.history.length = d.history.length → c.stack = [])
      ∧ ∀ step, d.history.reverse[c.history.length]? = some step →
          ∃ s, step.symbol? g = some s ∧ c.stack.head? = some s := by
  obtain ⟨read, unread, _, htracks⟩ :=
    (Tracks.initial g start words).moves (fitting_build g f h) hc
  obtain ⟨steps, hsteps, hreplays, _, _⟩ := replays_of_moves hd hstack hinput
  have hlength : c.history.reverse.length = c.history.length := List.length_reverse
  refine ⟨?_, fun h => ?_, fun step hstep => ?_⟩
  · rw [hsteps, ← hlength, List.take_left]
    exact htracks.position_eq
  · have hnil : steps = [] := by
      have htotal := congrArg List.length hsteps
      rw [List.length_append, List.length_reverse, List.length_reverse] at htotal
      exact List.length_eq_zero_iff.mp (by omega)
    subst hnil
    exact hreplays.eq_of_nil
  · rw [hsteps, ← hlength, List.getElem?_append_right (Nat.le_refl _), Nat.sub_self] at hstep
    cases steps with
    | nil => cases hstep
    | cons step' steps =>
        cases hstep
        exact hreplays.head?_eq

/-- **A limit only cuts a parse off.** Let a table be built from any FIRST and FOLLOW sets.
If a parse does not use up its limit, it is the same for every larger limit and without
one. If a parse accepts, with some limit or without one, then with the limit `l` it accepts
by the same steps exactly if `l` is more than their number. For any other `l` it is cut
off: its position is the number of terminals that the first `l` steps match, and it shows
the symbol that the next step takes, or none if there is no next step. -/
theorem limit_only_cuts (g : Grammar) (f : FirstSets) (h : FollowSets) (start : Symbol)
    (words : List String) :
    (∀ l, (∀ e, ((build g f h).parseWithin l start words).result = .error e →
          ∀ n, e.cause ≠ .stepLimitExceeded n) →
        (∀ l', l ≤ l' → (build g f h).parseWithin l' start words
            = (build g f h).parseWithin l start words)
          ∧ (build g f h).parse? start words = some ((build g f h).parseWithin l start words))
    ∧ ∀ limit r steps, (build g f h).parseUpTo? limit start words = some r →
        r.result = .ok steps → ∀ l,
          (((build g f h).parseWithin l start words).result = .ok steps ↔ steps.length + 1 ≤ l)
          ∧ (l ≤ steps.length → ∃ e,
              ((build g f h).parseWithin l start words).result = .error e
              ∧ e.cause = .stepLimitExceeded l
              ∧ e.position = (consumed (steps.take l)).length
              ∧ (l = steps.length → e.stackSymbol = none)
              ∧ ∀ step, steps[l]? = some step →
                  ∃ s, step.symbol? g = some s ∧ e.stackSymbol = some (g.nameOf s)) := by
  refine ⟨fun l hl => parseWithin_of_unlimited fun e he => hl e he l, ?_⟩
  intro limit r steps hr hok l
  obtain ⟨hnone, rfl⟩ := Run.result_eq_ok_iff.mp hok
  obtain ⟨d, hmoves, hstops, hsteps⟩ := moves_of_parseUpTo? hr hnone
  obtain ⟨hstack, hinput⟩ := hstops.exhausted
  have hstop := advance_eq_stop_iff.mpr hstops
  rw [hsteps, List.length_reverse]
  by_cases hlt : d.history.length < l
  · -- the limit is not noticed
    refine ⟨iff_of_true ?_ hlt, fun hle => absurd hle (by omega)⟩
    rw [parseWithin, (run_of_moves hmoves hstop l).1 (by omega)]
    rfl
  · -- the run is cut off on its way to the end
    obtain ⟨c, hcut, hc, hd, rfl⟩ := exists_cut hmoves hstop (Nat.not_lt.mp hlt)
    obtain ⟨hposition, hend, hnext⟩ := cut_error hc hd hstack hinput
    rw [hcut]
    refine ⟨iff_of_false (fun haccepts => ?_) hlt,
      fun _ => ⟨_, rfl, rfl, hposition, fun hl => ?_, ?_⟩⟩
    · cases haccepts
    · rw [Config.error, hend hl, List.head?_nil, Option.map_none]
    · intro step hstep
      obtain ⟨s, hs, hhead⟩ := hnext step hstep
      refine ⟨s, hs, ?_⟩
      rw [Config.error, hhead, Option.map_some]
      rfl

/-- A sum of two names takes eight steps: a limit of nine is enough, and a limit of four
stops before the plus sign, with one name read. -/
theorem limit_only_cuts_sums :
    ((ofGrammar Grammar.sums).parseWithin 9 (Symbol.ofNat 0) ["id", "+", "id"]).result
        = .ok [.expand 0, .expand 3, .consume (Symbol.ofNat 4), .expand 1,
            .consume (Symbol.ofNat 3), .expand 3, .consume (Symbol.ofNat 4), .expand 2]
      ∧ (ofGrammar Grammar.sums).parseWithin 20 (Symbol.ofNat 0) ["id", "+", "id"]
        = (ofGrammar Grammar.sums).parseWithin 9 (Symbol.ofNat 0) ["id", "+", "id"]
      ∧ ∃ e, ((ofGrammar Grammar.sums).parseWithin 4 (Symbol.ofNat 0)
          ["id", "+", "id"]).result = .error e
        ∧ e.cause = .stepLimitExceeded 4 ∧ e.position = 1 ∧ e.stackSymbol = some "+" := by
  obtain ⟨hlarger, hsmaller⟩ := limit_only_cuts Grammar.sums
    (FirstSets.ofGrammar Grammar.sums)
    (FollowSets.ofGrammar Grammar.sums (FirstSets.ofGrammar Grammar.sums)) (Symbol.ofNat 0)
    ["id", "+", "id"]
  have hok : ((ofGrammar Grammar.sums).parseWithin 9 (Symbol.ofNat 0)
      ["id", "+", "id"]).result
        = .ok [.expand 0, .expand 3, .consume (Symbol.ofNat 4), .expand 1,
            .consume (Symbol.ofNat 3), .expand 3, .consume (Symbol.ofNat 4), .expand 2] := by
    decide +kernel
  obtain ⟨e, he, hcause, hposition, _, hnext⟩ :=
    (hsmaller (some 9) _ _ rfl hok 4).2 (by decide)
  obtain ⟨s, hs, hsymbol⟩ := hnext _ rfl
  cases hs
  refine ⟨hok, (hlarger 9 (fun e he => ?_)).1 20 (by decide), e, he, hcause, hposition, hsymbol⟩
  cases hok.symm.trans he

end Table

end TopDown
