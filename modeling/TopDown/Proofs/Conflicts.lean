import TopDown.Proofs.Writes

/-!
The cells, the conflicts and their number are determined by the columns of the
rules, for any FIRST and FOLLOW sets.

A rule whose right-hand side is nullable may be written twice into a cell, since
what it starts with may also follow its left-hand side. The second of two such
writes changes nothing (`Filling.write_of_cell?`), so the table is also filled by
`plainWrites`, in which no write is repeated (`fill_writes`). There every write into
a filled cell replaces another rule, and the conflicts can be read off:

* `Table.columnSet`: the columns of a rule as a set; `Table.Predicts` says that a
  rule stands in a row and has a column.
* `Table.Before`, `Table.Earlier`: the order in which a rule is written into its
  columns, and the order of all writes (`plainWrites_pairwise`).
* `Table.lt_of_mem_conflicts`, `Table.exists_conflict`: every conflict comes from two
  rules that predict in its cell, and two such rules make a conflict.
* `Table.build_exact`: the cells, the conflicts in their order, and their number.
-/

namespace TopDown.Table

variable {s : Symbol} {x : Lookahead} {g : Grammar} {f : FirstSets} {h : FollowSets}

/-! ### The columns of a rule -/

/-- The terminals that a right-hand side starts with. -/
def firstColumns (g : Grammar) (f : FirstSets) (r : Rule) : LookaheadSet :=
  (f.ofString g.isTerminal r.rhs).erase none

/-- What follows the left-hand side, if the right-hand side is nullable. -/
def followColumns (g : Grammar) (f : FirstSets) (h : FollowSets) (r : Rule) : LookaheadSet :=
  if none ∈ f.ofString g.isTerminal r.rhs then h.members r.lhs else ∅

/-- The columns of a rule, each of them once. -/
def columnSet (g : Grammar) (f : FirstSets) (h : FollowSets) (r : Rule) : LookaheadSet :=
  firstColumns g f r ∪ followColumns g f h r

/-- The rule stands in the row and has the column. -/
def Predicts (g : Grammar) (f : FirstSets) (h : FollowSets) (s : Symbol) (x : Lookahead)
    (id : RuleId) : Prop :=
  ∃ r, g.rule? id = some r ∧ r.lhs = s ∧ x ∈ columnSet g f h r

/-- The set has the columns into which the rule is written. -/
lemma mem_columnSet {r : Rule} : x ∈ columnSet g f h r ↔ x ∈ columns g f h r := by
  rw [mem_columns, columnSet, OrderedSet.mem_union, firstColumns, OrderedSet.mem_erase, and_comm,
    followColumns]
  refine or_congr_right ?_
  by_cases hnull : none ∈ f.ofString g.isTerminal r.rhs
  · rw [if_pos hnull, and_iff_right hnull]
  · rw [if_neg hnull]
    exact iff_of_false (OrderedSet.not_mem_empty x) fun e => hnull e.1

/-- The order of the columns of a rule: first the terminals that the right-hand
side starts with, by number; then the other columns, the end of the input before
the terminals and these by number. -/
def Before (g : Grammar) (f : FirstSets) (r : Rule) (x y : Lookahead) : Prop :=
  (x ∈ firstColumns g f r ∧ y ∉ firstColumns g f r)
    ∨ ((x ∈ firstColumns g f r ↔ y ∈ firstColumns g f r) ∧ rank x < rank y)

lemma Before.ne {r : Rule} {x y : Lookahead} (hxy : Before g f r x y) : x ≠ y := by
  rintro rfl
  obtain ⟨hx, hx'⟩ | ⟨_, hlt⟩ := hxy
  · exact hx' hx
  · exact Nat.lt_irrefl _ hlt

/-- The columns of a rule in order, each of them once. -/
def plainColumns (g : Grammar) (f : FirstSets) (h : FollowSets) (r : Rule) : List Lookahead :=
  (firstColumns g f r).toList
    ++ ((followColumns g f h r).filter fun x => decide (x ∉ firstColumns g f r)).toList

lemma mem_plainColumns {r : Rule} : x ∈ plainColumns g f h r ↔ x ∈ columnSet g f h r := by
  rw [plainColumns, columnSet, List.mem_append, ← OrderedSet.mem_def, ← OrderedSet.mem_def,
    OrderedSet.mem_filter, OrderedSet.mem_union, decide_eq_true_eq]
  constructor
  · rintro (hx | ⟨hx, _⟩)
    · exact .inl hx
    · exact .inr hx
  · intro hx
    by_cases hfirst : x ∈ firstColumns g f r
    · exact .inl hfirst
    · exact .inr ⟨hx.resolve_left hfirst, hfirst⟩

lemma plainColumns_pairwise (r : Rule) : (plainColumns g f h r).Pairwise (Before g f r) := by
  have hlater : ∀ y ∈ (followColumns g f h r).filter fun x => decide (x ∉ firstColumns g f r),
      y ∉ firstColumns g f r := by
    intro y hy
    simpa using (OrderedSet.mem_filter.mp hy).2
  refine List.pairwise_append.mpr ⟨?_, ?_, fun x hx y hy => .inl ⟨hx, hlater y hy⟩⟩
  · exact (firstColumns g f r).ascending.imp_of_mem fun hx hy hlt =>
      .inr ⟨iff_of_true hx hy, hlt⟩
  · exact (OrderedSet.ascending _).imp_of_mem fun hx hy hlt =>
      .inr ⟨iff_of_false (hlater _ hx) (hlater _ hy), hlt⟩

lemma plainColumns_nodup (r : Rule) : (plainColumns g f h r).Nodup :=
  (plainColumns_pairwise r).imp Before.ne

lemma length_plainColumns (r : Rule) :
    (plainColumns g f h r).length = (columnSet g f h r).size :=
  ((List.perm_ext_iff_of_nodup (plainColumns_nodup r) (OrderedSet.nodup_toList _)).mpr
    fun _ => mem_plainColumns).length_eq

/-! ### Repeated writes -/

/-- Writing a rule again into its cell changes nothing. -/
lemma Filling.write_of_cell? {t : Filling} {w : Write}
    (hc : t.rows.cell? w.nonterminal w.lookahead = some w.rule) : t.write w = t := by
  rw [Filling.write, conflict?_of_cell? hc, if_pos rfl, Rows.put_eq_self hc]
  rfl

/-- The state after a rule is written into a list of columns. -/
def writeAll (s : Symbol) (id : RuleId) (l : List Lookahead) (t : Filling) : Filling :=
  (l.map fun x => ⟨s, x, id⟩).foldl Filling.write t

lemma writeAll_cons (s : Symbol) (id : RuleId) (y : Lookahead) (l : List Lookahead)
    (t : Filling) : writeAll s id (y :: l) t = writeAll s id l (t.write ⟨s, y, id⟩) := rfl

lemma writeAll_append (s : Symbol) (id : RuleId) (l l' : List Lookahead) (t : Filling) :
    writeAll s id (l ++ l') t = writeAll s id l' (writeAll s id l t) := by
  rw [writeAll, List.map_append, List.foldl_append]
  rfl

lemma cell?_writeAll (s : Symbol) (id : RuleId) (l : List Lookahead) (t : Filling)
    (x : Lookahead) :
    (writeAll s id l t).rows.cell? s x = if x ∈ l then some id else t.rows.cell? s x := by
  induction l generalizing t with
  | nil => rfl
  | cons y l ih =>
      rw [writeAll_cons, ih, cell?_write]
      by_cases hy : y = x
      · simp [hy]
      · have hx : x ≠ y := fun e => hy e.symm
        simp [hy, hx]

/-- Columns that hold the rule already may be left out. -/
lemma writeAll_filter {s : Symbol} {id : RuleId} (p : Lookahead → Bool) (l : List Lookahead)
    (t : Filling) (ht : ∀ x, p x = false → x ∈ l → t.rows.cell? s x = some id) :
    writeAll s id l t = writeAll s id (l.filter p) t := by
  induction l generalizing t with
  | nil => rfl
  | cons y l ih =>
      cases hp : p y with
      | true =>
          rw [List.filter_cons_of_pos hp, writeAll_cons, writeAll_cons]
          refine ih _ fun x hpx hx => ?_
          rw [cell?_write, ht x hpx (List.mem_cons_of_mem y hx), ite_self]
      | false =>
          have hcell := ht y hp List.mem_cons_self
          rw [List.filter_cons_of_neg (by rw [hp]; exact Bool.false_ne_true), writeAll_cons,
            Filling.write_of_cell? hcell]
          exact ih t fun x hpx hx => ht x hpx (List.mem_cons_of_mem y hx)

/-- A rule may be written into each of its columns only once. -/
lemma writeAll_columns (id : RuleId) (r : Rule) (t : Filling) :
    writeAll r.lhs id (columns g f h r) t = writeAll r.lhs id (plainColumns g f h r) t := by
  have hcolumns : columns g f h r
      = (firstColumns g f r).toList ++ (followColumns g f h r).toList := by
    rw [columns, followColumns, firstColumns]
    split <;> rfl
  rw [hcolumns, plainColumns, writeAll_append, writeAll_append]
  -- the terminals of the first part hold the rule when the second part is written
  refine writeAll_filter _ _ _ fun x hx _ => ?_
  have hfirst : x ∈ firstColumns g f r := by simpa using hx
  rw [cell?_writeAll, if_pos (OrderedSet.mem_def.mp hfirst)]

/-- The writes without repetitions. -/
def plainWrites (g : Grammar) (f : FirstSets) (h : FollowSets) : List Write :=
  g.numberedRules.flatMap fun (id, r) => (plainColumns g f h r).map fun x => ⟨r.lhs, x, id⟩

/-- **Leaving out repetitions does not change the table.** -/
theorem fill_writes (g : Grammar) (f : FirstSets) (h : FollowSets) :
    fill (writes g f h) = fill (plainWrites g f h) := by
  rw [fill, fill, writes, plainWrites, List.foldl_flatMap, List.foldl_flatMap]
  exact congrArg (fun step => g.numberedRules.foldl step .empty)
    (funext fun t => funext fun p => writeAll_columns p.1 p.2 t)

/-! ### The order of the writes -/

/-- The order of the writes: by rule, and for one rule by column. -/
def Earlier (g : Grammar) (f : FirstSets) (w w' : Write) : Prop :=
  w.rule < w'.rule ∨ w.rule = w'.rule
    ∧ ∃ r, g.rule? w.rule = some r ∧ Before g f r w.lookahead w'.lookahead

lemma plainWrites_pairwise (g : Grammar) (f : FirstSets) (h : FollowSets) :
    (plainWrites g f h).Pairwise (Earlier g f) := by
  rw [plainWrites, List.pairwise_flatMap]
  refine ⟨fun p hp => ?_, g.numberedRules_pairwise.imp fun hlt w hw w' hw' => ?_⟩
  · rw [List.pairwise_map]
    exact (plainColumns_pairwise p.2).imp fun hxy =>
      .inr ⟨rfl, p.2, Grammar.mem_numberedRules.mp hp, hxy⟩
  · obtain ⟨x, _, rfl⟩ := List.mem_map.mp hw
    obtain ⟨x', _, rfl⟩ := List.mem_map.mp hw'
    exact .inl hlt

lemma plainWrites_nodup (g : Grammar) (f : FirstSets) (h : FollowSets) :
    (plainWrites g f h).Nodup := by
  refine (plainWrites_pairwise g f h).imp ?_
  rintro w _ hearlier rfl
  obtain hlt | ⟨_, r, _, hbefore⟩ := hearlier
  · exact Nat.lt_irrefl _ hlt
  · exact hbefore.ne rfl

lemma length_plainWrites (g : Grammar) (f : FirstSets) (h : FollowSets) :
    (plainWrites g f h).length = (g.rules.map fun r => (columnSet g f h r).size).sum := by
  simp only [plainWrites, List.length_flatMap, List.length_map, length_plainColumns]
  conv_rhs => rw [← g.map_snd_numberedRules, List.map_map]
  rfl

/-! ### The rules of a cell -/

/-- The rules that are written into a cell are those that predict there. -/
lemma mem_rulesAt_plainWrites {id : RuleId} :
    id ∈ rulesAt s x (plainWrites g f h) ↔ Predicts g f h s x id := by
  rw [mem_rulesAt, plainWrites, List.mem_flatMap]
  constructor
  · rintro ⟨⟨i, r⟩, hr, hw⟩
    obtain ⟨y, hy, e⟩ := List.mem_map.mp hw
    cases e
    exact ⟨r, Grammar.mem_numberedRules.mp hr, rfl, mem_plainColumns.mp hy⟩
  · rintro ⟨r, hr, rfl, hx⟩
    exact ⟨(id, r), Grammar.mem_numberedRules.mpr hr,
      List.mem_map.mpr ⟨x, mem_plainColumns.mpr hx, rfl⟩⟩

/-- Into one cell the rules are written in ascending order. -/
lemma rulesAt_ascending (g : Grammar) (f : FirstSets) (h : FollowSets) (s : Symbol)
    (x : Lookahead) : (rulesAt s x (plainWrites g f h)).Pairwise (· < ·) := by
  rw [rulesAt, List.pairwise_map]
  refine ((plainWrites_pairwise g f h).filter _).imp_of_mem fun hw hw' hearlier => ?_
  obtain hlt | ⟨_, r, _, hbefore⟩ := hearlier
  · exact hlt
  · -- a rule is written once into a column
    simp only [List.mem_filter, decide_eq_true_eq] at hw hw'
    exact absurd (hw.2.2.trans hw'.2.2.symm) hbefore.ne

/-- The last member of an ascending list is the greatest. -/
lemma getLast?_of_ascending {l : List Nat} (hl : l.Pairwise (· < ·)) {n : Nat} :
    l.getLast? = some n ↔ n ∈ l ∧ ∀ m ∈ l, m ≤ n := by
  induction l using List.reverseRecOn with
  | nil => simp
  | append_singleton l k _ =>
      have hlt : ∀ m ∈ l, m < k := fun m hm =>
        (List.pairwise_append.mp hl).2.2 m hm k (List.mem_singleton.mpr rfl)
      rw [List.getLast?_concat, Option.some.injEq]
      constructor
      · rintro rfl
        refine ⟨by simp, fun m hm => ?_⟩
        obtain hm | hm := List.mem_append.mp hm
        · exact (hlt m hm).le
        · exact (List.mem_singleton.mp hm).le
      · rintro ⟨hn, hall⟩
        have hk : k ≤ n := hall k (by simp)
        obtain hn | hn := List.mem_append.mp hn
        · exact absurd (hlt n hn) (Nat.not_lt.mpr hk)
        · exact (List.mem_singleton.mp hn).symm

/-- What is made of neighbours in a list is made of two members, one after the
other. -/
lemma exists_of_mem_zipWith_tail {α β : Type} {f : α → α → β} {R : α → α → Prop} {c : β}
    {l : List α} (hl : l.Pairwise R) (hc : c ∈ List.zipWith f l l.tail) :
    ∃ a ∈ l, ∃ b ∈ l, R a b ∧ f a b = c := by
  induction l with
  | nil => cases hc
  | cons a l ih =>
      cases l with
      | nil => cases hc
      | cons b l =>
          obtain ⟨ha, hl'⟩ := List.pairwise_cons.mp hl
          obtain rfl | hc := List.mem_cons.mp hc
          · exact ⟨a, by simp, b, by simp, ha b (by simp), rfl⟩
          · obtain ⟨a', ha', b', hb', hR, e⟩ := ih hl' hc
            exact ⟨a', List.mem_cons_of_mem a ha', b', List.mem_cons_of_mem a hb', hR, e⟩

/-! ### Tables -/

lemma get?_build (g : Grammar) (f : FirstSets) (h : FollowSets) (s : Symbol) (x : Lookahead) :
    (build g f h).get? s x = (rulesAt s x (plainWrites g f h)).getLast? := by
  rw [← cell?_fill, ← fill_writes]
  rfl

lemma conflicts_build (g : Grammar) (f : FirstSets) (h : FollowSets) :
    (build g f h).conflicts = (fill (plainWrites g f h)).conflicts.reverse := by
  rw [← fill_writes]
  rfl

/-- The conflicts of a cell are the pairs of neighbours among its rules. -/
lemma conflicts_build_filter (g : Grammar) (f : FirstSets) (h : FollowSets) (s : Symbol)
    (x : Lookahead) :
    (build g f h).conflicts.filter (fun c => decide (c.nonterminal = s ∧ c.lookahead = x))
      = List.zipWith (Conflict.mk s x) (rulesAt s x (plainWrites g f h))
          (rulesAt s x (plainWrites g f h)).tail := by
  rw [conflicts_build]
  exact conflicts_fill (plainWrites_nodup g f h) s x

/-- A conflict is made by two rules that predict in its cell, the later of which is
kept. -/
lemma lt_of_mem_conflicts {c : Conflict} (hc : c ∈ (build g f h).conflicts) :
    Predicts g f h c.nonterminal c.lookahead c.discarded
      ∧ Predicts g f h c.nonterminal c.lookahead c.kept ∧ c.discarded < c.kept := by
  have hcell : c ∈ (build g f h).conflicts.filter
      (fun d => decide (d.nonterminal = c.nonterminal ∧ d.lookahead = c.lookahead)) :=
    List.mem_filter.mpr ⟨hc, by simp⟩
  rw [conflicts_build_filter] at hcell
  obtain ⟨i, hi, j, hj, hlt, e⟩ :=
    exists_of_mem_zipWith_tail (rulesAt_ascending g f h c.nonterminal c.lookahead) hcell
  rw [mem_rulesAt_plainWrites] at hi hj
  have hdiscarded : i = c.discarded := congrArg Conflict.discarded e
  have hkept : j = c.kept := congrArg Conflict.kept e
  exact ⟨hdiscarded ▸ hi, hkept ▸ hj, hdiscarded ▸ hkept ▸ hlt⟩

/-- Two rules that predict in one cell make a conflict there. -/
lemma exists_conflict {i j : RuleId} (hi : Predicts g f h s x i) (hj : Predicts g f h s x j)
    (hne : i ≠ j) : ∃ c ∈ (build g f h).conflicts, c.nonterminal = s ∧ c.lookahead = x := by
  rw [← mem_rulesAt_plainWrites] at hi hj
  have hcell := conflicts_build_filter g f h s x
  cases hl : rulesAt s x (plainWrites g f h) with
  | nil =>
      rw [hl] at hi
      cases hi
  | cons a l =>
      cases l with
      | nil =>
          rw [hl, List.mem_singleton] at hi hj
          exact absurd (hi.trans hj.symm) hne
      | cons b l =>
          rw [hl] at hcell
          have hmem : Conflict.mk s x a b ∈ (build g f h).conflicts.filter
              (fun c => decide (c.nonterminal = s ∧ c.lookahead = x)) := by
            rw [hcell]
            exact List.mem_cons_self
          exact ⟨_, (List.mem_filter.mp hmem).1, rfl, rfl⟩

/-- **The table and its conflicts are exact**, for any FIRST and FOLLOW sets. A cell
holds the last rule that predicts there, and nothing if there is none. If the rules
that predict in a cell are listed in order, then its conflicts are the pairs of
neighbours in the list, each of them once. All conflicts are ordered by the rule
that is kept, and for one such rule by column: first the terminals that its
right-hand side starts with, then the other columns, the end of the input before
all terminals. The filled cells and the conflicts together are as many as the
columns of all rules. -/
theorem build_exact (g : Grammar) (f : FirstSets) (h : FollowSets) :
    (∀ s x id, (build g f h).get? s x = some id ↔
      Predicts g f h s x id ∧ ∀ id', Predicts g f h s x id' → id' ≤ id)
    ∧ (∀ s x, (build g f h).get? s x = none ↔ ∀ id, ¬ Predicts g f h s x id)
    ∧ (∀ s x, ∃ l : List RuleId, l.Pairwise (· < ·)
        ∧ (∀ id, id ∈ l ↔ Predicts g f h s x id)
        ∧ (build g f h).conflicts.filter
            (fun c => decide (c.nonterminal = s ∧ c.lookahead = x))
          = List.zipWith (fun old new => ⟨s, x, old, new⟩) l l.tail)
    ∧ (build g f h).conflicts.Pairwise (fun c c' =>
        c.kept < c'.kept ∨ c.kept = c'.kept
          ∧ ∃ r, g.rule? c.kept = some r ∧ Before g f r c.lookahead c'.lookahead)
    ∧ (build g f h).size + (build g f h).conflicts.length
        = (g.rules.map fun r => (columnSet g f h r).size).sum := by
  refine ⟨fun s x id => ?_, fun s x => ?_, fun s x => ?_, ?_, ?_⟩
  · rw [get?_build, getLast?_of_ascending (rulesAt_ascending g f h s x)]
    simp only [mem_rulesAt_plainWrites]
  · rw [get?_build, List.getLast?_eq_none_iff, List.eq_nil_iff_forall_not_mem]
    simp only [mem_rulesAt_plainWrites]
  · exact ⟨_, rulesAt_ascending g f h s x, fun _ => mem_rulesAt_plainWrites,
      conflicts_build_filter g f h s x⟩
  · have hsublist := conflicts_fill_sublist (plainWrites g f h)
    rw [← conflicts_build] at hsublist
    exact List.pairwise_map.mp ((plainWrites_pairwise g f h).sublist hsublist)
  · have hrows : (build g f h).rows = (fill (plainWrites g f h)).rows := by
      rw [← fill_writes]
      rfl
    calc (build g f h).size + (build g f h).conflicts.length
        = (fill (plainWrites g f h)).rows.cellCount
            + (fill (plainWrites g f h)).conflicts.length := by
          rw [size_eq_cellCount, hrows, conflicts_build, List.length_reverse]
      _ = (plainWrites g f h).length := cellCount_fill (plainWrites_nodup g f h)
      _ = (g.rules.map fun r => (columnSet g f h r).size).sum := length_plainWrites g f h

/-- Three rules in one cell make two conflicts. -/
example :
    (ofGrammar { Draft.ofDeclarations [⟨"S", [["a"], ["a", "b"], ["a", "c"]]⟩] with
        declared := by decide }).conflicts
      = [⟨Symbol.ofNat 0, some (Symbol.ofNat 1), 0, 1⟩,
          ⟨Symbol.ofNat 0, some (Symbol.ofNat 1), 1, 2⟩] := by
  decide +kernel

end TopDown.Table
