import TopDown.Proofs.Completeness
import TopDown.Proofs.Leftmost
import TopDown.Proofs.Soundness

/-!
Errors are found at the first word that no derived string has in its place.

The table is made from what may follow a nonterminal anywhere, so the machine may
erase symbols although the current token does not fit in the present context. But it
reads a token only when the token is on top of the stack, and in predictable rows it
reads every token that some derivation can read:

* `Grammar.Spells`, `Grammar.Begins`: terminals have the given names, and a symbol
  derives a string that begins with such terminals.
* `Table.moves_of_replays_append`: on predictable symbols the machine follows every
  replay up to the last token that it matches, whatever tokens come after it.
* `Table.length_le_of_begins`: so where the machine stops, it has read as many words
  as are the beginning of a derived string.
* `Table.error_at_first_unfit`: what the position of an error says of derived strings.
-/

namespace TopDown

namespace Grammar

variable {g : Grammar}

/-- The symbols are terminals, and the words are their names. -/
def Spells (g : Grammar) (u : List Symbol) (words : List String) : Prop :=
  (∀ a ∈ u, g.isTerminal a = true) ∧ u.map g.names.name? = words.map some

/-- The symbol derives a string that begins with terminals named by the words. -/
def Begins (g : Grammar) (s : Symbol) (words : List String) : Prop :=
  ∃ u v, g.Spells u words ∧ g.Derives [s] (u ++ v)

/-- The words are determined by the terminals. -/
lemma Spells.eq_map_nameOf {u : List Symbol} {words : List String} (h : g.Spells u words) :
    words = u.map g.nameOf := by
  have hnames := congrArg (List.map fun name => name.getD unnamed) h.2
  rw [List.map_map, List.map_map] at hnames
  rw [← List.map_id words]
  exact hnames.symm

end Grammar

namespace Table

variable {g : Grammar}

/-- The first terminal that a replay matches is among the starts of the replayed
string. -/
lemma mem_ofString_of_replays {v w : List Symbol} {steps : List Step}
    (h : g.Replays v steps w) {a : Symbol} {u : List Symbol} (hcons : consumed steps = a :: u) :
    some a ∈ g.first.ofString g.isTerminal v := by
  have ha : g.isTerminal a = true := h.isTerminal_consumed a (by simp [hcons])
  have hleft := h.leftDerives_append [] (by simp)
  rw [List.nil_append, List.nil_append, hcons] at hleft
  exact FirstSets.some_mem_of_starts ha (Grammar.starts_iff.mpr ⟨u ++ w, hleft.derives⟩)

/-- **The machine follows a replay up to the last token that it matches.** The stack
admits every terminal and holds predictable symbols only, and the first tokens name
the terminals of the replay: then the machine reads them. -/
theorem moves_of_replays_append {w v : List Symbol} {steps : List Step}
    (h : g.Replays w steps v) (hpred : ∀ s ∈ w, (ofGrammar g).Predictable s)
    (hadmits : ∀ a, g.Admits (some a) w) {tokens : List Token}
    (htokens : tokens.map Token.symbol = (consumed steps).map some) (rest : List Token)
    (position : Nat) (history : List Step) :
    ∃ stack history', (ofGrammar g).Moves ⟨w, tokens ++ rest, position, history⟩
      ⟨stack, rest, position + tokens.length, history'⟩ := by
  induction h generalizing tokens position history with
  | done w =>
      rw [List.map_eq_nil_iff.mp htokens]
      exact ⟨w, history, Moves.refl _⟩
  | @expand id r w v steps hid hrest ih =>
      cases tokens with
      | nil =>
          -- every token is read, so the rules that are left do not matter
          exact ⟨r.lhs :: w, history, Moves.refl _⟩
      | cons token tokens =>
          have hr := Grammar.mem_rules_of_rule? hid
          obtain ⟨hlhs, hw⟩ := List.forall_mem_cons.mp hpred
          obtain ⟨a, u, hcons⟩ : ∃ a u, consumed steps = a :: u := by
            refine List.exists_cons_of_ne_nil fun hnil => ?_
            simp [consumed, hnil] at htokens
          have htoken : token.symbol = some a := by
            simp only [consumed, hcons, List.map_cons] at htokens
            exact (List.cons.inj htokens).1
          have hcol := (hadmits a).mem_columns hr (mem_ofString_of_replays hrest hcons)
          have hmove : (ofGrammar g).Advances
              ⟨r.lhs :: w, token :: tokens ++ rest, position, history⟩
              ⟨r.rhs ++ w, token :: tokens ++ rest, position, .expand id :: history⟩ :=
            advances_of_mem_columns hid hlhs (column?_of_symbol htoken) hcol
          obtain ⟨stack, history', hmoves⟩ :=
            ih (List.forall_mem_append.mpr ⟨hlhs.rhs hr, hw⟩) (fun a => (hadmits a).expand hr)
              htokens position (.expand id :: history)
          exact ⟨stack, history', hmoves.head hmove⟩
  | @consume a w v steps ha hrest ih =>
      cases tokens with
      | nil => cases htokens
      | cons token tokens =>
          obtain ⟨htoken, htokens'⟩ := List.cons.inj htokens
          obtain ⟨stack, history', hmoves⟩ := ih (List.forall_mem_cons.mp hpred).2
            (fun b => (hadmits b).2) htokens' (position + 1) (.consume a :: history)
          have hlength : position + 1 + tokens.length = position + (token :: tokens).length := by
            rw [List.length_cons]
            omega
          rw [hlength] at hmoves
          exact ⟨stack, history', hmoves.head (Advances.consume ha htoken)⟩

/-- **Where the machine stops, it has read all words that begin a derived string.** -/
theorem length_le_of_begins {s : Symbol} (hs : (ofGrammar g).classes.get? s = some .ll1)
    {words rest : List String} (h : g.Begins s words) {d : Config} {v : Verdict}
    (hmoves : (ofGrammar g).Moves (.initial g s (words ++ rest)) d)
    (hstop : (ofGrammar g).advance d = .stop v) : words.length ≤ d.position := by
  obtain ⟨u, q, hspells, hderives⟩ := h
  obtain ⟨steps, q', hreplays, hcons, _⟩ := hderives.replays_append hspells.1
  have hpred : ∀ x ∈ [s], (ofGrammar g).Predictable x :=
    List.forall_mem_singleton.mpr (classes_eq_ll1_iff.mp hs).2
  have htokens : (words.map (Token.ofText g)).map Token.symbol = (consumed steps).map some := by
    rw [hspells.eq_map_nameOf, hcons, Token.map_symbol_nameOf hspells.1]
  obtain ⟨stack, history, hread⟩ := moves_of_replays_append hreplays hpred
    (fun a => Grammar.admits_singleton a s) htokens
    (rest.map (Token.ofText g)) 0 []
  rw [← List.map_append, Nat.zero_add, List.length_map] at hread
  exact (hmoves.of_stop hstop hread).position_le

/-- **Errors are found at the first word that does not fit.** Let a parse without a
limit, from a nonterminal of the LL(1) class, end with an error at a position. Then the
nonterminal derives a string that begins with the words before the position; if there
is a word at the position, it derives none that begins with that word as well; and if
there is none and the input may end after the nonterminal, it does not derive the
words. -/
theorem error_at_first_unfit (g : Grammar) (hg : g.names.size ≤ UInt32.size) (s : Symbol)
    (hs : (ofGrammar g).classes.get? s = some .ll1) (words : List String) (r : Run)
    (e : SyntaxError) (hr : (ofGrammar g).parse? s words = some r)
    (he : r.result = .error e) :
    e.position ≤ words.length
    ∧ g.Begins s (words.take e.position)
    ∧ (e.position < words.length → ¬ g.Begins s (words.take (e.position + 1)))
    ∧ (e.position = words.length → none ∈ g.follow.members s →
        ¬ ∃ u, g.Spells u words ∧ g.Derives [s] u) := by
  obtain ⟨d, v, hmoves, hstop, rfl⟩ := parse?_eq_some_iff.mp hr
  obtain ⟨cause, hcause, rfl⟩ : ∃ cause, v.cause? = some cause ∧ d.error g cause = e :=
    Option.map_eq_some_iff.mp (Run.result_eq_error_iff.mp he)
  have hposition : ∀ cause, (d.error g cause).position = d.position := fun _ => rfl
  rw [hposition]
  obtain ⟨read, unread, hwords, htracks⟩ :=
    (Tracks.initial g s words).moves (fitting_build g g.first g.follow) hmoves
  rw [List.nil_append] at hwords
  subst hwords
  rw [htracks.position]
  refine ⟨by simp, ?_, fun _ hbegins => ?_, fun _ hend => ?_⟩
  · rw [List.take_left]
    have hleft := htracks.replays.leftDerives_append [] (by simp)
    exact ⟨_, d.stack, ⟨htracks.replays.isTerminal_consumed, htracks.map_name? hg⟩,
      hleft.derives⟩
  · rw [← List.take_append_drop (read.length + 1) (read ++ unread)] at hmoves
    have hle := length_le_of_begins hs hbegins hmoves hstop
    rw [List.length_take, htracks.position] at hle
    omega
  · rintro ⟨u, hspells, hderives⟩
    obtain ⟨steps, hreplays, hcons⟩ := hderives.replays hspells.1
    have hleft := hreplays.leftDerives
    rw [hcons] at hleft
    obtain ⟨steps', haccepts, _⟩ := parse?_of_leftDerives hs hend hspells.1 hleft
    rw [← hspells.eq_map_nameOf, hr] at haccepts
    have hfailure := congrArg Run.failure (Option.some.inj haccepts)
    rw [Config.report, hcause] at hfailure
    cases hfailure

/-- A name follows a name, where a plus sign had to come; and a sum breaks off after
its plus sign. -/
theorem error_at_first_unfit_sums :
    (∃ r e, (ofGrammar Grammar.sums).parse? (Symbol.ofNat 0) ["id", "id", "+"] = some r
      ∧ r.result = .error e ∧ e.position = 1
      ∧ Grammar.sums.Begins (Symbol.ofNat 0) ["id"]
      ∧ ¬ Grammar.sums.Begins (Symbol.ofNat 0) ["id", "id"])
    ∧ ∃ r e, (ofGrammar Grammar.sums).parse? (Symbol.ofNat 0) ["id", "+"] = some r
      ∧ r.result = .error e ∧ e.position = 2
      ∧ Grammar.sums.Begins (Symbol.ofNat 0) ["id", "+"]
      ∧ ¬ ∃ u, Grammar.sums.Spells u ["id", "+"]
          ∧ Grammar.sums.Derives [Symbol.ofNat 0] u := by
  have hclass : (ofGrammar Grammar.sums).classes.get? (Symbol.ofNat 0) = some .ll1 := by
    decide +kernel
  have hend : none ∈ Grammar.sums.follow.members (Symbol.ofNat 0) := by decide +kernel
  have hfirst : (ofGrammar Grammar.sums).parse? (Symbol.ofNat 0) ["id", "id", "+"]
      = some ⟨[.expand 0, .expand 3, .consume (Symbol.ofNat 4)],
          some ⟨.noProduction, some "R", some "id", 1⟩⟩ := by
    rw [parse?_of_parseWithin 9 (by decide +kernel)]
    decide +kernel
  have hsecond : (ofGrammar Grammar.sums).parse? (Symbol.ofNat 0) ["id", "+"]
      = some ⟨[.expand 0, .expand 3, .consume (Symbol.ofNat 4), .expand 1,
          .consume (Symbol.ofNat 3)], some ⟨.noProduction, some "T", none, 2⟩⟩ := by
    rw [parse?_of_parseWithin 9 (by decide +kernel)]
    decide +kernel
  obtain ⟨_, hbegins, hnot, _⟩ := error_at_first_unfit Grammar.sums (by decide) _ hclass
    _ _ _ hfirst rfl
  obtain ⟨_, hbegins', _, hnot'⟩ := error_at_first_unfit Grammar.sums (by decide) _ hclass
    _ _ _ hsecond rfl
  exact ⟨⟨_, _, hfirst, rfl, rfl, hbegins, hnot (by decide)⟩,
    ⟨_, _, hsecond, rfl, rfl, hbegins', hnot' rfl hend⟩⟩

end Table

end TopDown
