import Mathlib.Logic.Relation
import Mathlib.Tactic.Common
import TopDown.Parse.Run

/-!
Runs of the predictive machine.

* `Table.Advances`: what one move can do, as a relation with one constructor for
  a token that is read and one for a rule that is used; `advance_eq_next_iff`
  ties it to the machine. `Table.Stops` and `advance_eq_stop_iff` say in the same
  way where it stops.
* `Table.Moves`: any number of moves. The machine has no choice in them
  (`Moves.of_stop`).
* `Table.runToEnd?_eq_some_iff`: a run without a bound has an outcome exactly
  if some number of moves leads to a configuration in which the machine stops.
* `Table.run_of_moves`, `Table.moves_of_run`: the same for bounded runs, which
  all end alike once the bound is large enough, and are broken off on the way before.
* `Table.parse?_eq_some_iff`, `Table.parseWithin_of_moves`,
  `Table.exists_of_parseUpTo?`: what this says of parses.
-/

namespace TopDown.Table

variable {t : Table}

/-! ### One move -/

/-- What one move does: it reads the token that a terminal on top of the stack
stands for, or it puts the right-hand side of a rule in the place of its
left-hand side. -/
inductive Advances (t : Table) : Config → Config → Prop
  | consume {s : Symbol} {stack : List Symbol} {token : Token} {input : List Token}
      {position : Nat} {history : List Step}
      (hs : t.grammar.isTerminal s = true) (htoken : token.symbol = some s) :
      Advances t ⟨s :: stack, token :: input, position, history⟩
        ⟨stack, input, position + 1, .consume s :: history⟩
  | expand {s : Symbol} {stack : List Symbol} {input : List Token} {position : Nat}
      {history : List Step} {x : Lookahead} {id : RuleId} {r : Rule}
      (hs : t.grammar.isTerminal s = false)
      (hx : (⟨s :: stack, input, position, history⟩ : Config).column? = some x)
      (hid : t.get? s x = some id) (hr : t.grammar.rule? id = some r) :
      Advances t ⟨s :: stack, input, position, history⟩
        ⟨r.rhs ++ stack, input, position, .expand id :: history⟩

/-- The current column, when the current token names a symbol. -/
lemma column?_of_symbol {a : Symbol} {stack : List Symbol} {token : Token}
    {input : List Token} {position : Nat} {history : List Step}
    (htoken : token.symbol = some a) :
    (⟨stack, token :: input, position, history⟩ : Config).column? = some (some a) := by
  show token.symbol.map some = some (some a)
  rw [htoken, Option.map_some]

/-- A column with a symbol is that of a token. -/
lemma symbol_of_column? {a : Symbol} {stack : List Symbol} {input : List Token}
    {position : Nat} {history : List Step}
    (hx : (⟨stack, input, position, history⟩ : Config).column? = some (some a)) :
    ∃ token rest, input = token :: rest ∧ token.symbol = some a := by
  cases input with
  | nil => cases hx
  | cons token rest =>
      obtain ⟨b, hb, e⟩ := Option.map_eq_some_iff.mp hx
      cases e
      exact ⟨token, rest, rfl, hb⟩

lemma predict?_eq_some_iff {s : Symbol} {c : Config} {id : RuleId} {r : Rule} :
    t.predict? s c = some (id, r) ↔
      ∃ x, c.column? = some x ∧ t.get? s x = some id ∧ t.grammar.rule? id = some r := by
  simp only [predict?, Option.bind_eq_bind, Option.bind_eq_some_iff, Option.pure_def,
    Option.some.injEq, Prod.mk.injEq]
  constructor
  · rintro ⟨x, hx, i, hi, r', hr, rfl, rfl⟩
    exact ⟨x, hx, hi, hr⟩
  · rintro ⟨x, hx, hi, hr⟩
    exact ⟨x, hx, id, hi, r, hr, rfl, rfl⟩

lemma advance_of_terminal {s : Symbol} {stack : List Symbol} {input : List Token}
    {position : Nat} {history : List Step} (hs : t.grammar.isTerminal s = true) :
    t.advance ⟨s :: stack, input, position, history⟩
      = matchTerminal ⟨s :: stack, input, position, history⟩ s stack := if_pos hs

lemma advance_of_nonterminal {s : Symbol} {stack : List Symbol} {input : List Token}
    {position : Nat} {history : List Step} (hs : t.grammar.isTerminal s = false) :
    t.advance ⟨s :: stack, input, position, history⟩
      = t.expandNonterminal ⟨s :: stack, input, position, history⟩ s stack :=
  if_neg (by rw [hs]; exact Bool.false_ne_true)

/-- **One move of the machine**, as a relation. -/
theorem advance_eq_next_iff {c d : Config} : t.advance c = .next d ↔ t.Advances c d := by
  constructor
  · intro h
    obtain ⟨stack, input, position, history⟩ := c
    cases stack with
    | nil => simp [advance] at h
    | cons s stack =>
        cases hs : t.grammar.isTerminal s with
        | true =>
            rw [advance_of_terminal hs] at h
            cases input with
            | nil => simp [matchTerminal] at h
            | cons token input =>
                simp only [matchTerminal] at h
                split at h
                · next htoken =>
                    cases h
                    exact Advances.consume hs htoken
                · cases h
        | false =>
            rw [advance_of_nonterminal hs, expandNonterminal] at h
            split at h
            · next id r hp =>
                cases h
                obtain ⟨x, hx, hid, hr⟩ := predict?_eq_some_iff.mp hp
                exact Advances.expand hs hx hid hr
            · cases h
  · intro h
    cases h with
    | consume hs htoken =>
        rw [advance_of_terminal hs, matchTerminal]
        exact if_pos htoken
    | expand hs hx hid hr =>
        rw [advance_of_nonterminal hs, expandNonterminal,
          predict?_eq_some_iff.mpr ⟨_, hx, hid, hr⟩]

/-- Each move is recorded as one step. -/
lemma Advances.length_history {c d : Config} (h : t.Advances c d) :
    d.history.length = c.history.length + 1 := by
  cases h <;> rfl

/-- Where the machine stops: at an exhausted stack, at a terminal that is not
the current token, and at a nonterminal for which the table has no rule. -/
inductive Stops (t : Table) : Config → Verdict → Prop
  | accepted {position : Nat} {history : List Step} :
      Stops t ⟨[], [], position, history⟩ .accepted
  | unconsumed {token : Token} {input : List Token} {position : Nat} {history : List Step} :
      Stops t ⟨[], token :: input, position, history⟩ (.rejected .unconsumedInput)
  | unexpected {s : Symbol} {stack : List Symbol} {input : List Token} {position : Nat}
      {history : List Step} (hs : t.grammar.isTerminal s = true)
      (hinput : ∀ token ∈ input.head?, token.symbol ≠ some s) :
      Stops t ⟨s :: stack, input, position, history⟩ (.rejected .unexpectedToken)
  | unpredicted {s : Symbol} {stack : List Symbol} {input : List Token} {position : Nat}
      {history : List Step} (hs : t.grammar.isTerminal s = false)
      (hp : t.predict? s ⟨s :: stack, input, position, history⟩ = none) :
      Stops t ⟨s :: stack, input, position, history⟩ (.rejected .noProduction)

/-- **The last move of the machine**, as a relation. -/
theorem advance_eq_stop_iff {c : Config} {v : Verdict} :
    t.advance c = .stop v ↔ t.Stops c v := by
  constructor
  · intro h
    obtain ⟨stack, input, position, history⟩ := c
    cases stack with
    | nil =>
        cases input with
        | nil =>
            cases h
            exact Stops.accepted
        | cons token input =>
            cases h
            exact Stops.unconsumed
    | cons s stack =>
        cases hs : t.grammar.isTerminal s with
        | true =>
            rw [advance_of_terminal hs] at h
            cases input with
            | nil =>
                cases h
                exact Stops.unexpected hs (by simp)
            | cons token input =>
                simp only [matchTerminal] at h
                split at h
                · cases h
                · next htoken =>
                    cases h
                    exact Stops.unexpected hs (by simpa using htoken)
        | false =>
            rw [advance_of_nonterminal hs, expandNonterminal] at h
            split at h
            · cases h
            · next hp =>
                cases h
                exact Stops.unpredicted hs hp
  · intro h
    cases h with
    | accepted => rfl
    | unconsumed => rfl
    | @unexpected s stack input position history hs hinput =>
        rw [advance_of_terminal hs, matchTerminal]
        cases input with
        | nil => rfl
        | cons token input => exact if_neg (hinput token rfl)
    | unpredicted hs hp => rw [advance_of_nonterminal hs, expandNonterminal, hp]

/-- The machine accepts at an exhausted stack, when all tokens are read. -/
lemma Stops.exhausted {c : Config} (h : t.Stops c .accepted) : c.stack = [] ∧ c.input = [] := by
  cases h
  exact ⟨rfl, rfl⟩

/-- The machine itself never gives up for lack of moves. -/
lemma Stops.cause_ne {c : Config} {v : Verdict} (h : t.Stops c v) (limit : Nat) :
    v.cause? ≠ some (.stepLimitExceeded limit) := by
  cases h <;> simp [Verdict.cause?]

/-! ### Many moves -/

/-- The machine comes from one configuration to another in no moves or more. -/
def Moves (t : Table) : Config → Config → Prop := Relation.ReflTransGen t.Advances

lemma Moves.refl (c : Config) : t.Moves c c := Relation.ReflTransGen.refl

lemma Moves.trans {c d e : Config} (h : t.Moves c d) (h' : t.Moves d e) : t.Moves c e :=
  Relation.ReflTransGen.trans h h'

lemma Moves.head {c d e : Config} (h : t.Advances c d) (h' : t.Moves d e) : t.Moves c e :=
  Relation.ReflTransGen.head h h'

/-- No token is given back. -/
lemma Moves.position_le {c d : Config} (h : t.Moves c d) : c.position ≤ d.position := by
  induction h with
  | refl => exact Nat.le_refl _
  | tail _ hstep ih =>
      refine Nat.le_trans ih ?_
      cases hstep with
      | consume => exact Nat.le_succ _
      | expand => exact Nat.le_refl _

/-- No step is taken back. -/
lemma Moves.length_history_le {c d : Config} (h : t.Moves c d) :
    c.history.length ≤ d.history.length := by
  induction h with
  | refl => exact Nat.le_refl _
  | tail _ hstep ih =>
      rw [hstep.length_history]
      exact Nat.le_succ_of_le ih

/-- The machine has no choice: it passes through every configuration that it can come
to before it stops. -/
lemma Moves.of_stop {c d e : Config} {v : Verdict} (hd : t.Moves c d)
    (hstop : t.advance d = .stop v) (he : t.Moves c e) : t.Moves e d := by
  have hunique : Relator.RightUnique t.Advances := by
    intro a b b' hb hb'
    have hnext := (advance_eq_next_iff.mpr hb).symm.trans (advance_eq_next_iff.mpr hb')
    exact Move.next.inj hnext
  obtain hde | hed := Relation.ReflTransGen.total_of_right_unique hunique hd he
  · obtain rfl | ⟨b, hb, _⟩ := Relation.ReflTransGen.cases_head hde
    · exact Moves.refl _
    · cases hstop.symm.trans (advance_eq_next_iff.mpr hb)
  · exact hed

/-- **A run without a bound has an outcome** exactly if moves lead to a
configuration in which the machine stops. -/
theorem runToEnd?_eq_some_iff {c d : Config} {v : Verdict} :
    t.runToEnd? c = some (d, v) ↔ t.Moves c d ∧ t.advance d = .stop v := by
  constructor
  · intro h
    -- what holds of every outcome that is computed
    have key : ∀ c r, t.runToEnd? c = some r → t.Moves c r.1 ∧ t.advance r.1 = .stop r.2 := by
      refine runToEnd?.partial_correctness t _ fun run ih c r hr => ?_
      split at hr
      · next d hd =>
          obtain ⟨hmoves, hstop⟩ := ih d r hr
          exact ⟨hmoves.head (advance_eq_next_iff.mp hd), hstop⟩
      · next v hv =>
          cases hr
          exact ⟨Moves.refl c, hv⟩
    exact key c (d, v) h
  · rintro ⟨hmoves, hstop⟩
    induction hmoves using Relation.ReflTransGen.head_induction_on with
    | refl => rw [runToEnd?, hstop]
    | head hstep _ ih =>
        rw [runToEnd?, advance_eq_next_iff.mpr hstep]
        exact ih

/-- A bounded run comes to a configuration by moves, and gives a verdict only
where the machine stops. -/
lemma moves_of_run {n : Nat} {c d : Config} {v : Option Verdict}
    (h : t.run n c = (d, v)) : t.Moves c d ∧ ∀ w, v = some w → t.advance d = .stop w := by
  induction n generalizing c with
  | zero =>
      cases h
      exact ⟨Moves.refl d, fun w hw => by cases hw⟩
  | succ n ih =>
      rw [run] at h
      split at h
      · next e he =>
          obtain ⟨hmoves, hstop⟩ := ih h
          exact ⟨hmoves.head (advance_eq_next_iff.mp he), hstop⟩
      · next w hw =>
          cases h
          exact ⟨Moves.refl d, fun w' hw' => by cases hw'; exact hw⟩

/-- A bounded run without a verdict has made as many moves as it was allowed. -/
lemma length_history_of_run {n : Nat} {c d : Config} (h : t.run n c = (d, none)) :
    d.history.length = c.history.length + n := by
  induction n generalizing c with
  | zero =>
      cases h
      rfl
  | succ n ih =>
      rw [run] at h
      split at h
      · next e he =>
          have hlength := (advance_eq_next_iff.mp he).length_history
          rw [ih h, hlength]
          omega
      · cases h

/-- **A bounded run on the way to a stop**: with a bound beyond the number of moves that
lead there it ends in the same way, and otherwise it is broken off on the way, after as
many moves as the bound. -/
theorem run_of_moves {c d : Config} {v : Verdict} (h : t.Moves c d)
    (hstop : t.advance d = .stop v) (n : Nat) :
    (d.history.length < c.history.length + n → t.run n c = (d, some v))
    ∧ (c.history.length + n ≤ d.history.length → ∃ e, t.run n c = (e, none)
        ∧ t.Moves c e ∧ t.Moves e d ∧ e.history.length = c.history.length + n) := by
  induction h using Relation.ReflTransGen.head_induction_on generalizing n with
  | refl =>
      cases n with
      | zero => exact ⟨fun hn => absurd hn (by omega), fun _ => ⟨d, rfl, .refl d, .refl d, rfl⟩⟩
      | succ n => exact ⟨fun _ => by rw [run, hstop], fun hn => absurd hn (by omega)⟩
  | @head c c' hstep hmoves ih =>
      have hlength := hstep.length_history
      cases n with
      | zero =>
          have hle : c'.history.length ≤ d.history.length := Moves.length_history_le hmoves
          refine ⟨fun hn => absurd hn (by omega), fun _ => ⟨c, rfl, .refl c, ?_, rfl⟩⟩
          exact Moves.head hstep hmoves
      | succ n =>
          rw [run, advance_eq_next_iff.mpr hstep]
          refine ⟨fun hn => (ih n).1 (by omega), fun hn => ?_⟩
          obtain ⟨e, hrun, hce, hed, he⟩ := (ih n).2 (by omega)
          exact ⟨e, hrun, hce.head hstep, hed, by omega⟩

/-! ### Parses -/

variable {start : Symbol} {words : List String}

/-- A parse without a limit has a result exactly if the machine stops. -/
lemma parse?_eq_some_iff {r : Run} :
    t.parse? start words = some r ↔
      ∃ d v, t.Moves (.initial t.grammar start words) d ∧ t.advance d = .stop v
        ∧ d.report t.grammar v.cause? = r := by
  rw [parse?, Option.map_eq_some_iff]
  constructor
  · rintro ⟨⟨d, v⟩, hrun, hr⟩
    obtain ⟨hmoves, hstop⟩ := runToEnd?_eq_some_iff.mp hrun
    exact ⟨d, v, hmoves, hstop, hr⟩
  · rintro ⟨d, v, hmoves, hstop, hr⟩
    exact ⟨(d, v), runToEnd?_eq_some_iff.mpr ⟨hmoves, hstop⟩, hr⟩

/-- A parse with a limit gives the same result once the limit is large
enough. -/
lemma parseWithin_of_moves {d : Config} {v : Verdict}
    (h : t.Moves (.initial t.grammar start words) d) (hstop : t.advance d = .stop v) :
    ∃ n, ∀ limit, n ≤ limit →
      t.parseWithin limit start words = d.report t.grammar v.cause? := by
  refine ⟨d.history.length + 1, fun limit hlimit => ?_⟩
  rw [parseWithin, (run_of_moves h hstop limit).1 (by omega)]

/-- A limit that is not noticed makes no difference. -/
lemma parse?_of_parseWithin (limit : Nat)
    (h : ∀ e ∈ (t.parseWithin limit start words).failure,
      e.cause ≠ .stepLimitExceeded limit) :
    t.parse? start words = some (t.parseWithin limit start words) := by
  rw [parseWithin] at h ⊢
  split
  · next d v hrun =>
      obtain ⟨hmoves, hstop⟩ := moves_of_run hrun
      exact parse?_eq_some_iff.mpr ⟨d, v, hmoves, hstop v rfl, rfl⟩
  · next d hrun =>
      rw [hrun] at h
      exact absurd rfl (h _ rfl)

/-- **How a parse ends**, with or without a limit: it reports a configuration that the
machine has come to, and there the machine has stopped, or the limit is used up. -/
lemma exists_of_parseUpTo? {limit : Option Nat} {r : Run}
    (h : t.parseUpTo? limit start words = some r) :
    ∃ d, t.Moves (.initial t.grammar start words) d ∧ r.steps = d.history.reverse
      ∧ ((∃ v, t.Stops d v ∧ r.failure = v.cause?.map (d.error t.grammar))
        ∨ ∃ n, limit = some n ∧ d.history.length = n
          ∧ r.failure = some (d.error t.grammar (.stepLimitExceeded n))) := by
  cases limit with
  | none =>
      obtain ⟨d, v, hmoves, hstop, rfl⟩ := parse?_eq_some_iff.mp h
      exact ⟨d, hmoves, rfl, .inl ⟨v, advance_eq_stop_iff.mp hstop, rfl⟩⟩
  | some limit =>
      rw [parseUpTo?, Option.some.injEq, parseWithin] at h
      split at h
      · next d v hrun =>
          obtain ⟨hmoves, hstop⟩ := moves_of_run hrun
          subst h
          exact ⟨d, hmoves, rfl, .inl ⟨v, advance_eq_stop_iff.mp (hstop v rfl), rfl⟩⟩
      · next d hrun =>
          have hlength := length_history_of_run hrun
          rw [Config.initial, List.length_nil, Nat.zero_add] at hlength
          subst h
          exact ⟨d, (moves_of_run hrun).1, rfl, .inr ⟨limit, rfl, hlength, rfl⟩⟩

/-- A parse that does not fail, with or without a limit, has come to a
configuration in which the machine accepts. -/
lemma moves_of_parseUpTo? {limit : Option Nat} {r : Run}
    (h : t.parseUpTo? limit start words = some r) (hok : r.failure = none) :
    ∃ d, t.Moves (.initial t.grammar start words) d ∧ t.Stops d .accepted
      ∧ r.steps = d.history.reverse := by
  obtain ⟨d, hmoves, hsteps, ⟨v, hstops, hfailure⟩ | ⟨n, _, _, hfailure⟩⟩ :=
    exists_of_parseUpTo? h
  · rw [hok] at hfailure
    cases v with
    | accepted => exact ⟨d, hmoves, hstops, hsteps⟩
    | rejected cause => cases hfailure
  · rw [hok] at hfailure
    cases hfailure

/-- A parse that fails, with or without a limit, has come to the configuration that its
error shows; there the machine has rejected the input, or it has made as many moves as the
limit allows. -/
lemma moves_of_failure {limit : Option Nat} {r : Run} {e : SyntaxError}
    (h : t.parseUpTo? limit start words = some r) (he : r.failure = some e) :
    ∃ d, t.Moves (.initial t.grammar start words) d ∧ e = d.error t.grammar e.cause
      ∧ (t.Stops d (.rejected e.cause)
        ∨ ∃ n, limit = some n ∧ e.cause = .stepLimitExceeded n ∧ d.history.length = n) := by
  obtain ⟨d, hmoves, _, ⟨v, hstops, hfailure⟩ | ⟨n, hn, hlength, hfailure⟩⟩ :=
    exists_of_parseUpTo? h
  · rw [he] at hfailure
    cases v with
    | accepted => cases hfailure
    | rejected cause =>
        cases hfailure
        exact ⟨d, hmoves, rfl, .inl hstops⟩
  · rw [he] at hfailure
    cases hfailure
    exact ⟨d, hmoves, rfl, .inr ⟨n, hn, rfl, hlength⟩⟩

end TopDown.Table
