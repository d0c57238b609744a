import TopDown.Proofs.Conflicts
import TopDown.Proofs.RenamedSets
import TopDown.Proofs.Termination

/-!
Renamed grammars have renamed tables, and parse alike.

A cell holds the rule written last, so which rule it holds depends on the order of the
rules as soon as there is more than one. How many there are does not: it is the number of
rules that predict in the cell.

* `Table.ruleCount`, `Table.conflictCount_build`: the number of rules that predict in a
  cell; the cell is filled if there is one, and one less is the number of its conflicts.
* `Grammar.Renames.ruleCount`: the number is the same in the renamed cell; so are filled
  cells, conflicts and classes (`Grammar.Renames.isSome_get?`,
  `Grammar.Renames.conflictCount`, `Grammar.Renames.isLl1`, `Grammar.Renames.classes`).
* `Table.Renamed`: every cell holds the renamed rule, which is so for tables without
  conflicts (`Grammar.Renames.table`).
* `Table.Renamed.advance`, `Table.Renamed.run`: machines with such tables go side by side,
  in configurations that are renamed (`Config.Renamed`).
* `Table.Renamed.parseWithin`, `Table.Renamed.parse?`: so their parses read the same.
-/

namespace TopDown

namespace Table

variable {g : Grammar} {f : FirstSets} {k : FollowSets} {s : Symbol} {x : Lookahead}

/-! ### How many rules predict in a cell -/

/-- The number of rules that predict in a cell. -/
def ruleCount (g : Grammar) (f : FirstSets) (k : FollowSets) (s : Symbol) (x : Lookahead) : Nat :=
  g.rules.countP fun r => decide (r.lhs = s ∧ x ∈ columnSet g f k r)

/-- The number of conflicts in a cell. -/
def conflictCount (t : Table) (s : Symbol) (x : Lookahead) : Nat :=
  t.conflicts.countP fun c => decide (c.nonterminal = s ∧ c.lookahead = x)

lemma length_rulesAt (g : Grammar) (f : FirstSets) (k : FollowSets) (s : Symbol)
    (x : Lookahead) : (rulesAt s x (plainWrites g f k)).length = ruleCount g f k s x := by
  let predicting := g.numberedRules.filter
    fun p => decide (p.2.lhs = s ∧ x ∈ columnSet g f k p.2)
  have hperm : (rulesAt s x (plainWrites g f k)).Perm (predicting.map Prod.fst) := by
    refine (List.perm_ext_iff_of_nodup ?_ ?_).mpr fun id => ?_
    · exact (rulesAt_ascending g f k s x).imp Nat.ne_of_lt
    · rw [List.Nodup, List.pairwise_map]
      exact (g.numberedRules_pairwise.filter _).imp Nat.ne_of_lt
    · rw [mem_rulesAt_plainWrites, List.mem_map]
      constructor
      · rintro ⟨r, hr, hpredicts⟩
        exact ⟨(id, r), List.mem_filter.mpr ⟨Grammar.mem_numberedRules.mpr hr,
          decide_eq_true hpredicts⟩, rfl⟩
      · rintro ⟨⟨_, r⟩, hp, rfl⟩
        obtain ⟨hr, hpredicts⟩ := List.mem_filter.mp hp
        exact ⟨r, Grammar.mem_numberedRules.mp hr, of_decide_eq_true hpredicts⟩
  rw [hperm.length_eq, List.length_map, ruleCount, ← g.map_snd_numberedRules, List.countP_map,
    List.countP_eq_length_filter]
  rfl

/-- A cell is filled exactly if a rule predicts there. -/
lemma isSome_get?_build :
    ((build g f k).get? s x).isSome ↔ 0 < ruleCount g f k s x := by
  rw [get?_build, ← length_rulesAt, List.length_pos_iff, ← Option.ne_none_iff_isSome, Ne,
    List.getLast?_eq_none_iff]

/-- The rules that predict in a cell make one conflict less. -/
lemma conflictCount_build :
    (build g f k).conflictCount s x = ruleCount g f k s x - 1 := by
  rw [conflictCount, List.countP_eq_length_filter, conflicts_build_filter, List.length_zipWith,
    List.length_tail, length_rulesAt]
  omega

lemma conflictFree_iff {t : Table} : t.ConflictFree s ↔ ∀ x, t.conflictCount s x = 0 := by
  simp only [ConflictFree, conflictCount, List.countP_eq_zero, decide_eq_true_eq, not_and]
  exact ⟨fun h x c hc e => absurd e (h c hc), fun h c hc e => h c.lookahead c hc e rfl⟩

lemma isLl1_iff_conflictFree {t : Table} : t.isLl1 = true ↔ ∀ s, t.ConflictFree s := by
  rw [isLl1, List.isEmpty_iff, List.eq_nil_iff_forall_not_mem]
  exact ⟨fun h s c hc => absurd hc (h c), fun h c hc => h c.nonterminal c hc rfl⟩

/-- The rule in a cell. -/
def ruleAt? (t : Table) (s : Symbol) (x : Lookahead) : Option Rule :=
  (t.get? s x).bind t.grammar.rule?

/-- Without conflicts a cell holds the one rule that predicts there. -/
lemma ruleAt?_eq_some_iff (hll1 : (build g f k).isLl1 = true) {r : Rule} :
    (build g f k).ruleAt? s x = some r ↔ r ∈ g.rules ∧ r.lhs = s ∧ x ∈ columnSet g f k r := by
  rw [ruleAt?, Option.bind_eq_some_iff]
  constructor
  · rintro ⟨id, hid, hr⟩
    obtain ⟨r', hr', hlhs, hx⟩ := rule_of_get?_build hid
    obtain rfl : r' = r := Option.some.inj (hr'.symm.trans hr)
    exact ⟨Grammar.mem_rules_of_rule? hr, hlhs, mem_columnSet.mpr hx⟩
  · rintro ⟨hr, rfl, hx⟩
    obtain ⟨id, hid⟩ := List.mem_iff_getElem?.mp hr
    exact ⟨id, get?_build_of_mem_columns hid (isLl1_iff_conflictFree.mp hll1 r.lhs)
      (mem_columnSet.mp hx), hid⟩

end Table

/-! ### Renamed cells -/

namespace Grammar.Renames

open LookaheadSets Table

variable {σ : Symbol ≃ Symbol} {g h : Grammar} {f f' : FirstSets} {k k' : FollowSets}

/-- A renamed rule has the renamed columns. -/
lemma mem_columnSet (hσ : Renames σ g h) (hf : Renamed σ f.sets f'.sets)
    (hk : Renamed σ k.sets k'.sets) (r : Rule) (x : Lookahead) :
    Option.map σ x ∈ columnSet h f' k' (r.rename σ) ↔ x ∈ columnSet g f k r := by
  have hnone : none ∈ f'.ofString h.isTerminal (r.rhs.map σ) ↔
      none ∈ f.ofString g.isTerminal r.rhs := hσ.mem_ofString hf r.rhs none
  have hlhs : Option.map σ x ∈ k'.members (σ r.lhs) ↔ x ∈ k.members r.lhs := hk.mem r.lhs x
  rw [Table.mem_columnSet, Table.mem_columnSet, mem_columns, mem_columns, Rule.rename,
    hσ.mem_ofString hf, hnone, hlhs, Ne, Option.map_eq_none_iff]

/-- **As many rules predict in a renamed cell.** -/
theorem ruleCount (hσ : Renames σ g h) (hf : Renamed σ f.sets f'.sets)
    (hk : Renamed σ k.sets k'.sets) (s : Symbol) (x : Lookahead) :
    Table.ruleCount h f' k' (σ s) (x.map σ) = Table.ruleCount g f k s x := by
  rw [Table.ruleCount, Table.ruleCount, ← hσ.rules.countP_eq, List.countP_map]
  refine List.countP_congr fun r _ => ?_
  simp only [Function.comp, decide_eq_true_eq]
  exact and_congr σ.apply_eq_iff_eq (hσ.mem_columnSet hf hk r x)

/-- The filled cells are renamed. -/
lemma isSome_get? (hσ : Renames σ g h) (hf : Renamed σ f.sets f'.sets)
    (hk : Renamed σ k.sets k'.sets) (s : Symbol) (x : Lookahead) :
    ((build h f' k').get? (σ s) (x.map σ)).isSome ↔ ((build g f k).get? s x).isSome := by
  rw [isSome_get?_build, isSome_get?_build, hσ.ruleCount hf hk]

/-- A renamed cell has as many conflicts. -/
lemma conflictCount (hσ : Renames σ g h) (hf : Renamed σ f.sets f'.sets)
    (hk : Renamed σ k.sets k'.sets) (s : Symbol) (x : Lookahead) :
    (build h f' k').conflictCount (σ s) (x.map σ) = (build g f k).conflictCount s x := by
  rw [conflictCount_build, conflictCount_build, hσ.ruleCount hf hk]

lemma conflictFree_iff (hσ : Renames σ g h) (hf : Renamed σ f.sets f'.sets)
    (hk : Renamed σ k.sets k'.sets) (s : Symbol) :
    (build h f' k').ConflictFree (σ s) ↔ (build g f k).ConflictFree s := by
  rw [Table.conflictFree_iff, Table.conflictFree_iff]
  constructor
  · intro hfree x
    rw [← hσ.conflictCount hf hk]
    exact hfree _
  · intro hfree x
    obtain ⟨x, rfl⟩ := exists_map_eq σ x
    rw [hσ.conflictCount hf hk]
    exact hfree x

/-- Either table has conflicts, or neither. -/
lemma isLl1 (hσ : Renames σ g h) (hf : Renamed σ f.sets f'.sets)
    (hk : Renamed σ k.sets k'.sets) : (build h f' k').isLl1 = (build g f k).isLl1 := by
  rw [Bool.eq_iff_iff, isLl1_iff_conflictFree, isLl1_iff_conflictFree]
  constructor
  · intro hfree s
    exact (hσ.conflictFree_iff hf hk s).mp (hfree (σ s))
  · intro hfree s
    obtain ⟨s, rfl⟩ := σ.surjective s
    exact (hσ.conflictFree_iff hf hk s).mpr (hfree s)

/-! ### Renamed classes -/

lemma reaches (hσ : Renames σ g h) {s x : Symbol} (hreach : g.Reaches s x) :
    h.Reaches (σ s) (σ x) := by
  refine Relation.ReflTransGen.lift σ ?_ s x hreach
  rintro a b ⟨r, hr, hlhs, hrhs⟩
  refine hσ.exists_mem_rules_iff.mpr ⟨r, hr, ?_, ?_⟩
  · exact congrArg σ hlhs
  · exact List.mem_map_of_mem hrhs

lemma reaches_iff (hσ : Renames σ g h) {s x : Symbol} :
    h.Reaches (σ s) (σ x) ↔ g.Reaches s x := by
  refine ⟨fun hreach => ?_, hσ.reaches⟩
  have hback := hσ.symm.reaches hreach
  rwa [σ.symm_apply_apply, σ.symm_apply_apply] at hback

/-- A renamed nonterminal reaches conflicts exactly if the nonterminal does. -/
lemma predictable_iff (hσ : Renames σ g h) (hf : Renamed σ f.sets f'.sets)
    (hk : Renamed σ k.sets k'.sets) (s : Symbol) :
    (build h f' k').Predictable (σ s) ↔ (build g f k).Predictable s := by
  rw [Predictable, Predictable, σ.forall_congr_right.symm]
  exact forall_congr' fun x => imp_congr hσ.reaches_iff (hσ.conflictFree_iff hf hk x)

/-- **A renamed nonterminal has the same class.** -/
theorem classes (hσ : Renames σ g h) (hf : Renamed σ f.sets f'.sets)
    (hk : Renamed σ k.sets k'.sets) (s : Symbol) :
    (build h f' k').classes.get? (σ s) = (build g f k).classes.get? s := by
  refine Option.ext fun c => ?_
  cases c with
  | ll1 =>
      rw [classes_eq_ll1_iff, classes_eq_ll1_iff, hσ.predictable_iff hf hk]
      exact and_congr_left fun _ => hσ.mem_nonterminals_iff
  | contextFree =>
      rw [classes_eq_contextFree_iff, classes_eq_contextFree_iff, hσ.predictable_iff hf hk]
      exact and_congr_left fun _ => hσ.mem_nonterminals_iff

end Grammar.Renames

/-! ### Machines side by side -/

/-- Every cell of the second table holds the rule of the first, renamed. -/
structure Table.Renamed (σ : Symbol ≃ Symbol) (t t' : Table) : Prop where
  grammar : Grammar.Renames σ t.grammar t'.grammar
  ruleAt? : ∀ s x, t'.ruleAt? (σ s) (Option.map σ x) = (t.ruleAt? s x).map (Rule.rename σ)

/-- **Tables without conflicts are renamed.** -/
theorem Grammar.Renames.table {σ : Symbol ≃ Symbol} {g h : Grammar} {f f' : FirstSets}
    {k k' : FollowSets} (hσ : Renames σ g h) (hf : LookaheadSets.Renamed σ f.sets f'.sets)
    (hk : LookaheadSets.Renamed σ k.sets k'.sets) (hll1 : (Table.build g f k).isLl1 = true) :
    Table.Renamed σ (Table.build g f k) (Table.build h f' k') := by
  have hll1' : (Table.build h f' k').isLl1 = true := (hσ.isLl1 hf hk).trans hll1
  refine ⟨hσ, fun s x => Option.ext fun r => ?_⟩
  rw [Table.ruleAt?_eq_some_iff hll1', Option.map_eq_some_iff]
  simp only [Table.ruleAt?_eq_some_iff hll1]
  constructor
  · rintro ⟨hr, hlhs, hx⟩
    obtain ⟨r₀, hr₀, rfl⟩ := List.mem_map.mp (hσ.rules.mem_iff.mpr hr)
    exact ⟨r₀, ⟨hr₀, σ.injective hlhs, (hσ.mem_columnSet hf hk r₀ x).mp hx⟩, rfl⟩
  · rintro ⟨r, ⟨hr, hlhs, hx⟩, rfl⟩
    exact ⟨hσ.rules.mem_iff.mp (List.mem_map_of_mem hr), congrArg σ hlhs,
      (hσ.mem_columnSet hf hk r x).mpr hx⟩

/-- The token with its symbol renamed. -/
def Token.rename (σ : Symbol ≃ Symbol) (token : Token) : Token :=
  ⟨token.text, token.symbol.map σ⟩

/-- The second configuration is the first with its symbols renamed; the steps made so far
read the same. -/
structure Config.Renamed (σ : Symbol ≃ Symbol) (g h : Grammar) (c c' : Config) : Prop where
  stack : c'.stack = c.stack.map σ
  input : c'.input = c.input.map (Token.rename σ)
  position : c'.position = c.position
  lines : traceLines h c'.history = traceLines g c.history

/-- What becomes of the second configuration is what becomes of the first, renamed. -/
inductive Move.Renamed (σ : Symbol ≃ Symbol) (g h : Grammar) : Move → Move → Prop
  | next {c c' : Config} (hc : c.Renamed σ g h c') : Renamed σ g h (.next c) (.next c')
  | stop (verdict : Verdict) : Renamed σ g h (.stop verdict) (.stop verdict)

namespace Config.Renamed

variable {σ : Symbol ≃ Symbol} {g h : Grammar} {c c' : Config}

/-- A parse of the same words begins in a renamed configuration. -/
lemma initial (hσ : Grammar.Renames σ g h) (s : Symbol) (words : List String) :
    Renamed σ g h (.initial g s words) (.initial h (σ s) words) := by
  refine ⟨rfl, ?_, rfl, rfl⟩
  rw [Config.initial, Config.initial, List.map_map]
  refine List.map_congr_left fun word _ => ?_
  exact congrArg (Token.mk word) (hσ.find? word)

lemma column? (hc : Renamed σ g h c c') : c'.column? = c.column?.map (Option.map σ) := by
  rw [Config.column?, Config.column?, hc.input]
  cases c.input with
  | nil => rfl
  | cons token input => cases htoken : token.symbol <;> simp [Token.rename, htoken]

/-- One more step is made alike. -/
lemma lines_cons (hc : Renamed σ g h c c') {step step' : Step}
    (hstep : step'.show? h = step.show? g) :
    traceLines h (step' :: c'.history) = traceLines g (step :: c.history) := by
  have hlines := hc.lines
  rw [traceLines, traceLines] at hlines ⊢
  rw [List.map_cons, List.map_cons, hstep, hlines]

lemma matchTerminal (hσ : Grammar.Renames σ g h) (hc : Renamed σ g h c c') (s : Symbol)
    (stack : List Symbol) :
    Move.Renamed σ g h (Table.matchTerminal c s stack)
      (Table.matchTerminal c' (σ s) (stack.map σ)) := by
  rw [Table.matchTerminal, Table.matchTerminal, hc.input, hc.position]
  cases c.input with
  | nil => exact .stop _
  | cons token input =>
      have htoken : (token.rename σ).symbol = some (σ s) ↔ token.symbol = some s :=
        (map_injective σ).eq_iff (b := some s)
      by_cases htop : token.symbol = some s
      · simp only [List.map_cons, if_pos htop, if_pos (htoken.mpr htop)]
        refine .next ⟨rfl, rfl, rfl, hc.lines_cons ?_⟩
        rw [Step.show?, Step.show?, hσ.nameOf]
      · simp only [List.map_cons, if_neg htop, if_neg fun e => htop (htoken.mp e)]
        exact .stop _

/-- Renamed configurations fail with the same error. -/
lemma error (hσ : Grammar.Renames σ g h) (hc : Renamed σ g h c c') (cause : SyntaxError.Cause) :
    c'.error h cause = c.error g cause := by
  have htop : c'.stack.head?.map h.nameOf = c.stack.head?.map g.nameOf := by
    rw [hc.stack, List.head?_map, Option.map_map]
    exact congrArg (fun name => c.stack.head?.map name) (funext hσ.nameOf)
  have htoken : c'.input.head?.map Token.text = c.input.head?.map Token.text := by
    rw [hc.input, List.head?_map, Option.map_map]
    rfl
  rw [Config.error, Config.error, htop, htoken, hc.position]

/-- Renamed configurations are reported alike. -/
lemma result_report (hσ : Grammar.Renames σ g h) (hc : Renamed σ g h c c')
    (failure : Option SyntaxError.Cause) :
    (c'.report h failure).result.map (traceLines h)
      = (c.report g failure).result.map (traceLines g) := by
  cases failure with
  | some cause => exact congrArg Except.error (hc.error hσ cause)
  | none =>
      have hlines : ∀ (g : Grammar) (c : Config),
          traceLines g c.history.reverse = (traceLines g c.history).reverse :=
        fun g c => List.map_reverse
      refine congrArg Except.ok ?_
      rw [Config.report, Config.report, hlines, hlines, hc.lines]

end Config.Renamed

namespace Table

variable {t t' : Table} {σ : Symbol ≃ Symbol}

/-- What is predicted is the rule of the cell. -/
lemma map_predict? (t : Table) (s : Symbol) (c : Config) :
    (t.predict? s c).map Prod.snd = c.column?.bind (t.ruleAt? s) := by
  rw [predict?]
  cases c.column? with
  | none => rfl
  | some x =>
      simp only [Option.bind_eq_bind, Option.bind_some, ruleAt?]
      cases t.get? s x with
      | none => rfl
      | some id => cases hr : t.grammar.rule? id <;> simp [hr]

namespace Renamed

/-- What is predicted is renamed. -/
lemma predict? (ht : Renamed σ t t') {c c' : Config}
    (hc : c.Renamed σ t.grammar t'.grammar c') (s : Symbol) :
    (t'.predict? (σ s) c').map Prod.snd
      = ((t.predict? s c).map Prod.snd).map (Rule.rename σ) := by
  rw [map_predict?, map_predict?, hc.column?]
  cases c.column? with
  | none => rfl
  | some x => exact ht.ruleAt? s x

lemma expandNonterminal (ht : Renamed σ t t') {c c' : Config}
    (hc : c.Renamed σ t.grammar t'.grammar c') (s : Symbol) (stack : List Symbol) :
    Move.Renamed σ t.grammar t'.grammar (t.expandNonterminal c s stack)
      (t'.expandNonterminal c' (σ s) (stack.map σ)) := by
  have hrule := ht.predict? hc s
  rw [Table.expandNonterminal, Table.expandNonterminal]
  cases hp : t.predict? s c with
  | none =>
      rw [hp] at hrule
      rw [Option.map_eq_none_iff.mp hrule]
      exact .stop _
  | some p =>
      obtain ⟨id, r⟩ := p
      rw [hp] at hrule
      obtain ⟨⟨id', _⟩, hp', rfl⟩ := Option.map_eq_some_iff.mp hrule
      obtain ⟨-, -, -, hid⟩ := predict?_eq_some_iff.mp hp
      obtain ⟨-, -, -, hid'⟩ := predict?_eq_some_iff.mp hp'
      rw [hp']
      refine .next ⟨List.map_append.symm, hc.input, hc.position, hc.lines_cons ?_⟩
      rw [Step.show?, Step.show?, Grammar.showRuleAt?, Grammar.showRuleAt?, hid, hid']
      exact congrArg some (ht.grammar.showRule r)

/-- **One move of machines side by side.** -/
theorem advance (ht : Renamed σ t t') {c c' : Config}
    (hc : c.Renamed σ t.grammar t'.grammar c') :
    Move.Renamed σ t.grammar t'.grammar (t.advance c) (t'.advance c') := by
  rw [Table.advance, Table.advance, hc.stack]
  cases c.stack with
  | nil =>
      rw [hc.input, List.isEmpty_map]
      exact .stop _
  | cons s stack =>
      rw [List.map_cons]
      simp only [ht.grammar.isTerminal]
      split
      · exact hc.matchTerminal ht.grammar s stack
      · exact ht.expandNonterminal hc s stack

/-- **Runs of machines side by side.** -/
theorem run (ht : Renamed σ t t') : ∀ (bound : Nat) {c c' : Config},
    c.Renamed σ t.grammar t'.grammar c' →
      (t.run bound c).1.Renamed σ t.grammar t'.grammar (t'.run bound c').1
        ∧ (t'.run bound c').2 = (t.run bound c).2
  | 0, _, _, hc => ⟨hc, rfl⟩
  | bound + 1, c, c', hc => by
      have hmove := ht.advance hc
      rw [Table.run, Table.run]
      generalize t.advance c = move at hmove ⊢
      generalize t'.advance c' = move' at hmove ⊢
      cases hmove with
      | next hd => exact ht.run bound hd
      | stop verdict => exact ⟨hc, rfl⟩

variable {s : Symbol} {words : List String}

/-- Parses within a limit read the same. -/
lemma parseWithin (ht : Renamed σ t t') (limit : Nat) (s : Symbol) (words : List String) :
    (t'.parseWithin limit (σ s) words).result.map (traceLines t'.grammar)
      = (t.parseWithin limit s words).result.map (traceLines t.grammar) := by
  obtain ⟨hconfig, hverdict⟩ := ht.run limit (Config.Renamed.initial ht.grammar s words)
  rw [Table.parseWithin, Table.parseWithin]
  generalize t.run limit (.initial t.grammar s words) = out at hconfig hverdict ⊢
  generalize t'.run limit (.initial t'.grammar (σ s) words) = out' at hconfig hverdict ⊢
  obtain ⟨c, verdict⟩ := out
  obtain ⟨c', verdict'⟩ := out'
  cases hverdict
  cases verdict with
  | some verdict => exact hconfig.result_report ht.grammar _
  | none => exact hconfig.result_report ht.grammar _

/-- A parse without a limit has a result in both grammars or in neither, and the results
read the same. -/
lemma parse? (ht : Renamed σ t t') {r : Run} (hr : t.parse? s words = some r) :
    ∃ r', t'.parse? (σ s) words = some r'
      ∧ r'.result.map (traceLines t'.grammar) = r.result.map (traceLines t.grammar) := by
  obtain ⟨d, v, hmoves, hstop, rfl⟩ := parse?_eq_some_iff.mp hr
  obtain ⟨n, hn⟩ : ∃ n, t.run n (.initial t.grammar s words) = (d, some v) :=
    ⟨d.history.length + 1, (run_of_moves hmoves hstop _).1 (by omega)⟩
  obtain ⟨hconfig, hverdict⟩ := ht.run n (Config.Renamed.initial ht.grammar s words)
  rw [hn] at hconfig hverdict
  obtain ⟨hmoves', hstop'⟩ := moves_of_run
    (rfl : t'.run n (.initial t'.grammar (σ s) words) = (_, _))
  refine ⟨_, parse?_eq_some_iff.mpr ⟨_, v, hmoves', hstop' v hverdict, rfl⟩, ?_⟩
  exact hconfig.result_report ht.grammar _

end Renamed

end Table

end TopDown
