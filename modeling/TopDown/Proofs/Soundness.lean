import TopDown.Proofs.Filling
import TopDown.Proofs.Machine
import TopDown.Proofs.Replay

/-!
What a parse accepts is derived, whatever the table predicts.

* `Table.Fitting`: every cell names a rule of its own row; a built table has
  this for any FIRST and FOLLOW sets (`fitting_build`).
* `Tracks`: the invariant of a parse. The steps made so far lead from the start
  symbol to the stack, and the terminals that they match are those that the words
  read so far name. `Tracks.advances` is the step lemma, `Tracks.moves` the run
  lemma.
* `Table.replays_of_moves`: what the steps are that an accepting run still makes.
* `Table.replays_of_parse`: the steps of an accepting parse replay as a leftmost
  derivation of the words.
-/

namespace TopDown

namespace Table

/-- Every cell names a rule of its own row. -/
def Fitting (t : Table) : Prop :=
  ∀ s x id, t.get? s x = some id → ∃ r, t.grammar.rule? id = some r ∧ r.lhs = s

lemma fitting_build (g : Grammar) (f : FirstSets) (h : FollowSets) :
    (build g f h).Fitting := by
  intro s x id hid
  obtain ⟨r, hr, hlhs, _⟩ := rule_of_get?_build hid
  exact ⟨r, hr, hlhs⟩

end Table

/-! ### The invariant of a parse -/

/-- The machine has read the words `read` and has `unread` before it: its steps
lead from the start symbol to the stack and match what the words read name. -/
structure Tracks (g : Grammar) (start : Symbol) (read unread : List String)
    (c : Config) : Prop where
  replays : g.Replays [start] c.history.reverse c.stack
  matched : (consumed c.history.reverse).map some = read.map g.names.find?
  input : c.input = unread.map (Token.ofText g)
  position : c.position = read.length

namespace Tracks

variable {t : Table} {start : Symbol} {read unread : List String} {c d : Config}

lemma initial (g : Grammar) (start : Symbol) (words : List String) :
    Tracks g start [] words (.initial g start words) :=
  ⟨Grammar.Replays.done [start], rfl, rfl, rfl⟩

/-- **One move keeps track**: of the words, the one that is read goes from the
unread to the read ones. -/
theorem advances (ht : t.Fitting) (h : Tracks t.grammar start read unread c)
    (hstep : t.Advances c d) :
    ∃ read' unread', read' ++ unread' = read ++ unread
      ∧ Tracks t.grammar start read' unread' d := by
  cases hstep with
  | @consume s stack token input position history hs htoken =>
      obtain ⟨hreplays, hmatched, hinput, hposition⟩ := h
      cases unread with
      | nil => cases hinput
      | cons word unread =>
          obtain ⟨rfl, rfl⟩ := List.cons.inj hinput
          refine ⟨read ++ [word], unread, by simp, ⟨?_, ?_, rfl, ?_⟩⟩
          · rw [List.reverse_cons]
            exact hreplays.trans (Grammar.Replays.consume hs (Grammar.Replays.done stack))
          · have hword : t.grammar.names.find? word = some s := htoken
            simp only [List.reverse_cons, consumed_append, List.map_append, hmatched]
            simp [consumed, hword]
          · simp only at hposition ⊢
            rw [hposition, List.length_append, List.length_singleton]
  | @expand s stack input position history x id r hs hx hid hr =>
      obtain ⟨hreplays, hmatched, hinput, hposition⟩ := h
      obtain ⟨r', hr', rfl⟩ := ht s x id hid
      cases hr.symm.trans hr'
      refine ⟨read, unread, rfl, ⟨?_, ?_, hinput, hposition⟩⟩
      · rw [List.reverse_cons]
        exact hreplays.trans (Grammar.Replays.expand hr (Grammar.Replays.done _))
      · rw [List.reverse_cons, consumed_append]
        simpa [consumed] using hmatched

/-- **Any number of moves keeps track.** -/
theorem moves (ht : t.Fitting) (h : Tracks t.grammar start read unread c)
    (hmoves : t.Moves c d) :
    ∃ read' unread', read' ++ unread' = read ++ unread
      ∧ Tracks t.grammar start read' unread' d := by
  induction hmoves with
  | refl => exact ⟨read, unread, rfl, h⟩
  | tail _ hstep ih =>
      obtain ⟨read₁, unread₁, hwords₁, h₁⟩ := ih
      obtain ⟨read₂, unread₂, hwords₂, h₂⟩ := h₁.advances ht hstep
      exact ⟨read₂, unread₂, hwords₂.trans hwords₁, h₂⟩

/-- The matched terminals have the words read as names, as long as there are no
more names than symbols. -/
lemma map_name? {g : Grammar} (h : Tracks g start read unread c)
    (hg : g.names.size ≤ UInt32.size) :
    (consumed c.history.reverse).map g.names.name? = read.map some := by
  have key : ∀ (w : List Symbol) (l : List String), w.map some = l.map g.names.find? →
      w.map g.names.name? = l.map some := by
    intro w
    induction w with
    | nil =>
        intro l hl
        rw [List.map_nil, List.nil_eq, List.map_eq_nil_iff] at hl
        rw [hl, List.map_nil, List.map_nil]
    | cons a w ih =>
        intro l hl
        cases l with
        | nil => cases hl
        | cons word l =>
            obtain ⟨ha, hw⟩ := List.cons.inj hl
            rw [List.map_cons, List.map_cons, ih l hw, NameTable.name?_of_find? hg ha.symm]
  exact key _ _ h.matched

end Tracks

/-! ### The rest of an accepting run -/

/-- **The rest of an accepting run.** From any configuration of a run that accepts, the
steps still to be made replay its stack to the end and match what its tokens name; and the
end of the input follows every nonterminal that they expand when all tokens are read. -/
theorem Table.replays_of_moves {g : Grammar} {f : FirstSets} {k : FollowSets} {c d : Config}
    (h : (build g f k).Moves c d) (hstack : d.stack = []) (hinput : d.input = []) :
    ∃ steps, d.history.reverse = c.history.reverse ++ steps
      ∧ g.Replays c.stack steps []
      ∧ c.input.map Token.symbol = (consumed steps).map some
      ∧ ∀ s ∈ g.closing steps, none ∈ k.members s := by
  induction h using Relation.ReflTransGen.head_induction_on with
  | refl =>
      rw [hstack, hinput]
      exact ⟨[], (List.append_nil _).symm, .done [], rfl, by simp [Grammar.closing]⟩
  | head hstep _ ih =>
      obtain ⟨steps, hsteps, hreplays, htokens, hclosing⟩ := ih
      rw [hsteps]
      cases hstep with
      | @consume s stack token input position history hs htoken =>
          refine ⟨.consume s :: steps, by simp, .consume hs hreplays, ?_, hclosing⟩
          rw [List.map_cons, htoken, htokens]
          rfl
      | @expand s stack input position history x id r hs hx hid hr =>
          obtain ⟨r', hr', rfl, hcol⟩ := rule_of_get?_build hid
          cases hr.symm.trans hr'
          refine ⟨.expand id :: steps, by simp, .expand hr hreplays, htokens, fun s hs => ?_⟩
          obtain ⟨hcons, rfl⟩ | hs := (Grammar.mem_closing_expand hr).mp hs
          · -- no token is left, so the rule was found in the column of the end
            have hnil : input = [] := by
              rw [hcons] at htokens
              exact List.map_eq_nil_iff.mp htokens
            subst hnil
            cases hx
            obtain ⟨hne, _⟩ | ⟨_, hend⟩ := mem_columns.mp hcol
            · exact absurd rfl hne
            · exact hend
          · exact hclosing s hs

/-! ### Soundness -/

/-- **Soundness for any table.** Let a table be built from any FIRST and FOLLOW
sets, and let a parse from any symbol, with or without a limit, accept. Then its
steps replay from that symbol to the end, as a leftmost derivation; the names of
the matched terminals are the words, so every word names a terminal. -/
theorem Table.replays_of_parse (g : Grammar) (hg : g.names.size ≤ UInt32.size)
    (f : FirstSets) (h : FollowSets) (limit : Option Nat) (start : Symbol)
    (words : List String) (r : Run) (steps : List Step)
    (hr : (build g f h).parseUpTo? limit start words = some r) (hok : r.result = .ok steps) :
    g.Replays [start] steps []
      ∧ g.LeftDerives (expanded steps) [start] (consumed steps)
      ∧ (consumed steps).map g.names.name? = words.map some
      ∧ ∀ word ∈ words, ∃ a, g.names.find? word = some a ∧ g.isTerminal a = true := by
  obtain ⟨hnone, rfl⟩ := Run.result_eq_ok_iff.mp hok
  obtain ⟨d, hmoves, hstops, hsteps⟩ := moves_of_parseUpTo? hr hnone
  obtain ⟨hstack, hinput⟩ := hstops.exhausted
  obtain ⟨read, unread, hwords, htracks⟩ :=
    (Tracks.initial g start words).moves (fitting_build g f h) hmoves
  -- the machine accepts only when every word is read
  have hread : read = words := by
    have hunread := htracks.input
    rw [hinput, List.nil_eq, List.map_eq_nil_iff] at hunread
    rw [hunread, List.append_nil, List.nil_append] at hwords
    exact hwords
  subst hread
  have hreplays := htracks.replays
  have hnames := htracks.map_name? hg
  have hmatched := htracks.matched
  rw [hstack] at hreplays
  rw [← hsteps] at hreplays hnames hmatched
  refine ⟨hreplays, hreplays.leftDerives, hnames, fun word hword => ?_⟩
  have hmem : g.names.find? word ∈ (consumed r.steps).map some := by
    rw [hmatched]
    exact List.mem_map.mpr ⟨word, hword, rfl⟩
  obtain ⟨a, ha, hfind⟩ := List.mem_map.mp hmem
  exact ⟨a, hfind.symm, hreplays.isTerminal_consumed a ha⟩

/-- A sum of two names, parsed within ten moves, and its leftmost
derivation. -/
theorem Table.replays_of_parse_sums :
    ((ofGrammar Grammar.sums).parseWithin 10 (Symbol.ofNat 0) ["id", "+", "id"]).result
        = .ok [.expand 0, .expand 3, .consume (Symbol.ofNat 4), .expand 1,
            .consume (Symbol.ofNat 3), .expand 3, .consume (Symbol.ofNat 4), .expand 2]
      ∧ Grammar.sums.LeftDerives [0, 3, 1, 3, 2] [Symbol.ofNat 0]
          [Symbol.ofNat 4, Symbol.ofNat 3, Symbol.ofNat 4] := by
  have hok : ((ofGrammar Grammar.sums).parseWithin 10 (Symbol.ofNat 0)
      ["id", "+", "id"]).result
        = .ok [.expand 0, .expand 3, .consume (Symbol.ofNat 4), .expand 1,
            .consume (Symbol.ofNat 3), .expand 3, .consume (Symbol.ofNat 4), .expand 2] := by
    decide +kernel
  exact ⟨hok, (replays_of_parse Grammar.sums (by decide) _ _ (some 10) _ _ _ _ rfl hok).2.1⟩

end TopDown
