import Mathlib.Data.List.ProdSigma
import TopDown.Proofs.Classification
import TopDown.Proofs.Soundness

/-!
Whatever the sets that a table is built from, nothing is looked up beyond the grammar.

The FIRST and FOLLOW sets may be those of another grammar, or of no grammar at all: what
they hold may be declared here, or have no name. It gets into the columns of the table and
nowhere else, since rows and rules are those of the grammar itself.

* `Grammar.IsRuleOf`: a place at which there is a rule of a declared nonterminal.
* `Table.isRuleOf_of_mem_writes`, `Table.isRuleOf_of_cell?_fill`: this is so for every
  write, and for every cell at any time while the table is filled.
* `Grammar.Replays.exists_show`: steps that can be replayed can be written in words.
* `Grammar.mentionPairs`, `Table.consultedPairs`: the pairs of symbols that are marked to
  decide which symbols reach which, and those at which this is looked up for the classes.
* `Table.InRange`, `Table.inRange_build`: so every look-up in building, rendering and
  classifying a table, in a parse, and in rendering its steps finds what it looks for.
-/

namespace TopDown

namespace Grammar

variable {g : Grammar} {s : Symbol} {id : RuleId}

/-- There is a rule of a declared nonterminal at the place. -/
structure IsRuleOf (g : Grammar) (s : Symbol) (id : RuleId) : Prop where
  /-- The nonterminal is declared. -/
  declared : s ∈ g.nonterminals
  /-- The place is one of those that the rules have. -/
  lt : id < g.rules.length
  /-- The rule there is one of the nonterminal. -/
  rule : ∃ r, g.rule? id = some r ∧ r.lhs = s

lemma isRuleOf_of_rule? {r : Rule} (hr : g.rule? id = some r) : g.IsRuleOf r.lhs id where
  declared := g.lhs_mem r (mem_rules_of_rule? hr)
  lt := (List.getElem?_eq_some_iff.mp hr).1
  rule := ⟨r, hr, rfl⟩

/-- A rule that is there can be written. -/
lemma IsRuleOf.exists_show (h : g.IsRuleOf s id) : ∃ line, g.showRuleAt? id = some line := by
  obtain ⟨r, hr, _⟩ := h.rule
  exact ⟨g.showRule r, by rw [showRuleAt?, hr, Option.map_some]⟩

/-- **Steps that can be replayed can be written in words.** -/
theorem Replays.exists_show {u v : List Symbol} {steps : List Step} (h : g.Replays u steps v) :
    ∀ step ∈ steps, ∃ line, step.show? g = some line := by
  induction h with
  | done => simp
  | expand hid _ ih =>
      exact List.forall_mem_cons.mpr ⟨(isRuleOf_of_rule? hid).exists_show, ih⟩
  | consume _ _ ih => exact List.forall_mem_cons.mpr ⟨⟨_, rfl⟩, ih⟩

/-- The pairs of a left-hand side and a symbol on its right-hand side, rule by rule. -/
def mentionPairs (g : Grammar) : List (Symbol × Symbol) :=
  g.rules.flatMap fun r => r.rhs.map fun x => (r.lhs, x)

lemma mem_mentionPairs {x : Symbol} : (s, x) ∈ g.mentionPairs ↔ g.Mentions s x := by
  simp only [mentionPairs, Mentions, List.mem_flatMap, List.mem_map, Prod.mk.injEq]
  constructor
  · rintro ⟨r, hr, x, hx, rfl, rfl⟩
    exact ⟨r, hr, rfl, hx⟩
  · rintro ⟨r, hr, rfl, hx⟩
    exact ⟨r, hr, x, hx, rfl, rfl⟩

/-- Both symbols of such a pair have names. -/
lemma index_lt_of_mem_mentionPairs {p : Symbol × Symbol} (hp : p ∈ g.mentionPairs) :
    p.1.index < g.symbolCount ∧ p.2.index < g.symbolCount := by
  obtain ⟨r, hr, hlhs, hx⟩ := mem_mentionPairs.mp hp
  exact ⟨hlhs ▸ g.nonterminals_lt _ (g.lhs_mem r hr), g.rhs_lt r hr _ hx⟩

end Grammar

namespace Table

variable {g : Grammar} {f : FirstSets} {h : FollowSets} {s : Symbol} {x : Lookahead}
  {id : RuleId}

/-! ### Rows and rules -/

/-- What is written is a rule of the row. -/
lemma isRuleOf_of_mem_writes {w : Write} (hw : w ∈ writes g f h) :
    g.IsRuleOf w.nonterminal w.rule := by
  obtain ⟨r, hr, hlhs, _⟩ := mem_writes.mp hw
  exact hlhs ▸ Grammar.isRuleOf_of_rule? hr

/-- While a table is filled, a cell holds nothing but rules of its row. -/
lemma isRuleOf_of_cell?_fill {ws : List Write} (hws : ∀ w ∈ ws, w ∈ writes g f h)
    (hc : (fill ws).rows.cell? s x = some id) : g.IsRuleOf s id :=
  isRuleOf_of_mem_writes (hws _ (mem_of_cell?_fill hc))

lemma isRuleOf_of_get?_build (hid : (build g f h).get? s x = some id) : g.IsRuleOf s id :=
  isRuleOf_of_cell?_fill (fun _ hw => hw) hid

lemma isRuleOf_of_predicts (hp : Predicts g f h s x id) : g.IsRuleOf s id := by
  obtain ⟨r, hr, hlhs, _⟩ := hp
  exact hlhs ▸ Grammar.isRuleOf_of_rule? hr

/-! ### Classes -/

/-- The pairs of a nonterminal that has a class and one that has a conflict. -/
def consultedPairs (t : Table) : List (Symbol × Symbol) :=
  t.classes.keys ×ˢ t.conflicted.toList

lemma mem_consultedPairs {t : Table} {x : Symbol} :
    (s, x) ∈ t.consultedPairs ↔
      s ∈ t.grammar.nonterminals ∧ ∃ c ∈ t.conflicts, c.nonterminal = x := by
  have hkeys : s ∈ t.classes.keys ↔ s ∈ t.grammar.nonterminals := by
    rw [OrderedMap.mem_keys_iff, classes, OrderedMap.get?_ofList_map]
    by_cases hs : s ∈ t.grammar.nonterminals <;> simp [hs]
  rw [consultedPairs, List.mem_product, hkeys, ← OrderedSet.mem_def, conflicted,
    OrderedSet.mem_ofList, List.mem_map]

/-- The classes are decided at these pairs. -/
lemma classes_eq_contextFree_iff_consulted {t : Table} :
    t.classes.get? s = some .contextFree ↔
      ∃ x, (s, x) ∈ t.consultedPairs ∧ t.grammar.Reaches s x := by
  rw [classes_eq_contextFree_iff, Predictable]
  simp only [mem_consultedPairs, ConflictFree, not_forall, not_not]
  constructor
  · rintro ⟨hs, x, hreach, c, hc, e⟩
    exact ⟨x, ⟨hs, c, hc, e⟩, hreach⟩
  · rintro ⟨x, ⟨hs, c, hc, e⟩, hreach⟩
    exact ⟨hs, x, hreach, c, hc, e⟩

/-- Both symbols of such a pair have names. -/
lemma index_lt_of_mem_consultedPairs {p : Symbol × Symbol}
    (hp : p ∈ (build g f h).consultedPairs) :
    p.1.index < g.symbolCount ∧ p.2.index < g.symbolCount := by
  obtain ⟨hdeclared, c, hc, e⟩ := mem_consultedPairs.mp hp
  exact ⟨g.nonterminals_lt _ hdeclared, e ▸ g.nonterminals_lt _ (declared_of_mem_conflicts hc)⟩

/-! ### Parses -/

/-- A rule that the table has for a nonterminal is there, and the machine goes on with
it. -/
lemma advance_of_get?_build {c : Config} {stack : List Symbol} (hstack : c.stack = s :: stack)
    (hs : g.isTerminal s = false) (hx : c.column? = some x)
    (hid : (build g f h).get? s x = some id) :
    ∃ r, g.rule? id = some r ∧ r.lhs = s ∧ (build g f h).advance c
      = .next ⟨r.rhs ++ stack, c.input, c.position, .expand id :: c.history⟩ := by
  obtain ⟨r, hr, hlhs⟩ := (isRuleOf_of_get?_build hid).rule
  refine ⟨r, hr, hlhs, advance_eq_next_iff.mpr ?_⟩
  obtain ⟨stack', input, position, history⟩ := c
  cases hstack
  exact .expand hs hx hid hr

/-- The steps of a parse can be written in words, also if it fails. -/
lemma exists_show_of_parseUpTo? {limit : Option Nat} {start : Symbol} {words : List String}
    {r : Run} (hr : (build g f h).parseUpTo? limit start words = some r) :
    ∀ step ∈ r.steps, ∃ line, step.show? g = some line := by
  obtain ⟨d, hmoves, hsteps, _⟩ := exists_of_parseUpTo? hr
  obtain ⟨read, unread, _, htracks⟩ :=
    (Tracks.initial g start words).moves (fitting_build g f h) hmoves
  rw [hsteps]
  exact htracks.replays.exists_show

/-! ### All look-ups -/

/-- Nothing is looked up beyond the grammar for which a table is built. -/
structure InRange (g : Grammar) (f : FirstSets) (h : FollowSets) : Prop where
  /-- A filled cell holds a rule of its row. -/
  cells : ∀ s x id, (s, x, id) ∈ (build g f h).cells → g.IsRuleOf s id
  /-- The two rules of a conflict are rules of its row, and the later one is kept. -/
  conflicts : ∀ c ∈ (build g f h).conflicts, c.discarded < c.kept
    ∧ g.IsRuleOf c.nonterminal c.discarded ∧ g.IsRuleOf c.nonterminal c.kept
  /-- At every write, the rule that is written and the one that it replaces can be shown. -/
  writing : ∀ ws w ws', writes g f h = ws ++ w :: ws' →
    (∃ line, g.showRuleAt? w.rule = some line)
      ∧ ∀ id, (fill ws).rows.cell? w.nonterminal w.lookahead = some id →
          ∃ line, g.showRuleAt? id = some line
  /-- The rules of every row can be shown. -/
  rendering : ∀ s x id, (x, id) ∈ (build g f h).row s → ∃ line, g.showRuleAt? id = some line
  /-- Wherever a parse comes to, with whatever symbol it began, the rule that the table has
  for the nonterminal on top is there, and the parse goes on with it. -/
  parsing : ∀ start words c s stack x id,
    (build g f h).Moves (.initial g start words) c → c.stack = s :: stack →
      g.isTerminal s = false → c.column? = some x → (build g f h).get? s x = some id →
        ∃ r, g.rule? id = some r ∧ r.lhs = s ∧ (build g f h).advance c
          = .next ⟨r.rhs ++ stack, c.input, c.position, .expand id :: c.history⟩
  /-- The steps of every parse, with or without a limit, can be shown. -/
  tracing : ∀ limit start words r, (build g f h).parseUpTo? limit start words = some r →
    ∀ step ∈ r.steps, ∃ line, step.show? g = some line
  /-- What reaches what is decided from pairs of named symbols. -/
  marking : (∀ s x, g.Mentions s x ↔ (s, x) ∈ g.mentionPairs)
    ∧ ∀ p ∈ g.mentionPairs, p.1.index < g.symbolCount ∧ p.2.index < g.symbolCount
  /-- The classes are decided at pairs of named symbols. -/
  consulting : (∀ s, (build g f h).classes.get? s = some .contextFree ↔
      ∃ x, (s, x) ∈ (build g f h).consultedPairs ∧ g.Reaches s x)
    ∧ ∀ p ∈ (build g f h).consultedPairs,
        p.1.index < g.symbolCount ∧ p.2.index < g.symbolCount

/-- **Nothing is looked up beyond the grammar**, whatever the FIRST and FOLLOW sets from
which its table is built. -/
theorem inRange_build (g : Grammar) (f : FirstSets) (h : FollowSets) : InRange g f h where
  cells _ _ _ hcell := isRuleOf_of_get?_build (mem_cells.mp hcell)
  conflicts c hc := by
    obtain ⟨hdiscarded, hkept, hlt⟩ := lt_of_mem_conflicts hc
    exact ⟨hlt, isRuleOf_of_predicts hdiscarded, isRuleOf_of_predicts hkept⟩
  writing ws w ws' hwrites := by
    have hmem : ∀ w' ∈ ws ++ w :: ws', w' ∈ writes g f h := fun _ hw => hwrites ▸ hw
    obtain ⟨hbefore, hrest⟩ := List.forall_mem_append.mp hmem
    refine ⟨(isRuleOf_of_mem_writes (hrest w List.mem_cons_self)).exists_show, fun id hid => ?_⟩
    exact (isRuleOf_of_cell?_fill hbefore hid).exists_show
  rendering s x id hcell :=
    (isRuleOf_of_get?_build (OrderedMap.get?_eq_some_iff.mpr hcell)).exists_show
  parsing _ _ _ _ _ _ _ _ hstack hs hx hid := advance_of_get?_build hstack hs hx hid
  tracing _ _ _ _ hr := exists_show_of_parseUpTo? hr
  marking := ⟨fun _ _ => Grammar.mem_mentionPairs.symm,
    fun _ hp => Grammar.index_lt_of_mem_mentionPairs hp⟩
  consulting := ⟨fun _ => classes_eq_contextFree_iff_consulted,
    fun _ hp => index_lt_of_mem_consultedPairs hp⟩

/-- The sets of another grammar may bring in a column without a name. -/
example :
    let g : Grammar := { Draft.ofDeclarations [⟨"S", [["N"]]⟩, ⟨"N", [["a"]]⟩] with
      declared := by decide }
    let other : Grammar := { Draft.ofDeclarations [⟨"S", [["N"]]⟩, ⟨"N", [["b"], ["c"]]⟩] with
      declared := by decide }
    g.symbolCount = 3
      ∧ (build g (FirstSets.ofGrammar other) (FollowSets.ofGrammar g (FirstSets.ofGrammar g))).cells
        = [(Symbol.ofNat 0, some (Symbol.ofNat 2), 0), (Symbol.ofNat 0, some (Symbol.ofNat 3), 0),
            (Symbol.ofNat 1, some (Symbol.ofNat 2), 1)] := by
  decide +kernel

end Table

end TopDown
