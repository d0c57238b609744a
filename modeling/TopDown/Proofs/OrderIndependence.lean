import Mathlib.Data.Finset.Dedup
import TopDown.Proofs.RenamedTables

/-!
The analysis of a grammar does not depend on the order in which it is declared.

What the analysis lists, it lists by the numbers of symbols. Read by name, the lists are
the same up to order for any two grammars with the same rules.

* `Grammar.setsByName`, `Table.cellsByName`, `Table.conflictsByName`,
  `Table.classesByName`, `Table.rulesByName`: what the analysis lists, by name.
* `Grammar.AnalysedAlike`: two grammars have the same sets, found in as many passes, the
  same filled cells, as many conflicts in each cell and the same classes; and if there are
  no conflicts, the same rule in each cell and the same parses.
* `Grammar.Renames.analysedAlike`: grammars that differ by a renaming are analysed alike.
* `Grammar.analysedAlike_of_perm`: so are grammars made from the same declarations in any
  order.
-/

namespace TopDown

/-! ### Reading by name -/

/-- A lookahead set by name. -/
def Grammar.setNames (g : Grammar) (u : LookaheadSet) : Finset (Option String) :=
  (u.toList.map (Option.map g.nameOf)).toFinset

/-- The entries of lookahead sets by name. -/
def Grammar.setsByName (g : Grammar) (m : LookaheadSets) :
    List (String × Finset (Option String)) :=
  m.toList.map fun (s, u) => (g.nameOf s, g.setNames u)

/-- A cell by name. -/
def Grammar.cellName (g : Grammar) (cell : Symbol × Lookahead) : String × Option String :=
  (g.nameOf cell.1, cell.2.map g.nameOf)

namespace Table

/-- The filled cells by name. -/
def cellsByName (t : Table) : List (String × Option String) :=
  t.cells.map fun (s, x, _) => t.grammar.cellName (s, x)

/-- The cells of the conflicts by name, each as often as it has conflicts. -/
def conflictsByName (t : Table) : List (String × Option String) :=
  t.conflicts.map fun c => t.grammar.cellName (c.nonterminal, c.lookahead)

/-- The classes of the nonterminals by name. -/
def classesByName (t : Table) : List (String × NonterminalClass) :=
  t.classes.toList.map fun (s, c) => (t.grammar.nameOf s, c)

/-- The filled cells with their rules by name. -/
def rulesByName (t : Table) : List ((String × Option String) × Option (String × List String)) :=
  t.cells.map fun (s, x, id) =>
    (t.grammar.cellName (s, x), (t.grammar.rule? id).map t.grammar.names.ruleName)

/-! ### The filled cells -/

/-- The filled cells without their rules. -/
def filled (t : Table) : List (Symbol × Lookahead) := t.cells.map fun (s, x, _) => (s, x)

lemma mem_filled {t : Table} {s : Symbol} {x : Lookahead} :
    (s, x) ∈ t.filled ↔ (t.get? s x).isSome := by
  rw [filled, List.mem_map, Option.isSome_iff_exists]
  constructor
  · rintro ⟨⟨s, x, id⟩, hcell, e⟩
    cases e
    exact ⟨id, mem_cells.mp hcell⟩
  · rintro ⟨id, hid⟩
    exact ⟨(s, x, id), mem_cells.mpr hid, rfl⟩

/-- No cell is listed twice. -/
lemma nodup_filled (t : Table) : t.filled.Nodup := by
  rw [filled, cells, List.map_flatMap, List.Nodup, List.pairwise_flatMap]
  refine ⟨fun row _ => ?_, t.rows.ascending.imp fun hlt cell hcell cell' hcell' e => ?_⟩
  · rw [List.map_map, List.pairwise_map]
    exact row.2.ascending.imp fun hlt e => Nat.ne_of_lt hlt (congrArg rank (Prod.mk.inj e).2)
  · rw [List.map_map] at hcell hcell'
    obtain ⟨_, _, rfl⟩ := List.mem_map.mp hcell
    obtain ⟨_, _, rfl⟩ := List.mem_map.mp hcell'
    exact Nat.ne_of_lt hlt (congrArg rank (Prod.mk.inj e).1)

lemma cellsByName_eq (t : Table) : t.cellsByName = t.filled.map t.grammar.cellName := by
  rw [cellsByName, filled, List.map_map]
  rfl

/-- The cells of the conflicts, each as often as it has conflicts. -/
def conflicting (t : Table) : List (Symbol × Lookahead) :=
  t.conflicts.map fun c => (c.nonterminal, c.lookahead)

lemma conflictsByName_eq (t : Table) :
    t.conflictsByName = t.conflicting.map t.grammar.cellName := by
  rw [conflictsByName, conflicting, List.map_map]
  rfl

lemma count_conflicting (t : Table) (s : Symbol) (x : Lookahead) :
    t.conflicting.count (s, x) = t.conflictCount s x := by
  rw [conflicting, List.count, List.countP_map, conflictCount]
  exact List.countP_congr fun c _ => by simp

/-- The cells with their rules are the filled cells, each with its rule. -/
lemma rulesByName_eq (t : Table) :
    t.rulesByName = t.filled.map fun cell =>
      (t.grammar.cellName cell, (t.ruleAt? cell.1 cell.2).map t.grammar.names.ruleName) := by
  rw [rulesByName, filled, List.map_map]
  refine List.map_congr_left fun ⟨s, x, id⟩ hcell => ?_
  simp only [Function.comp, ruleAt?, mem_cells.mp hcell, Option.bind_some]

end Table

/-- Two grammars are analysed alike: whatever the analysis lists is the same by name, up to
order, and takes as many passes. Where there are no conflicts, the cells hold the same
rules, and parses read the same. -/
structure Grammar.AnalysedAlike (g h : Grammar) : Prop where
  firstSets : (g.setsByName g.first.sets).Perm (h.setsByName h.first.sets)
  firstPasses : (FirstSets.solve g).passes = (FirstSets.solve h).passes
  followSets : (g.setsByName g.follow.sets).Perm (h.setsByName h.follow.sets)
  followPasses : (FollowSets.solve g g.first).passes = (FollowSets.solve h h.first).passes
  cells : (Table.ofGrammar g).cellsByName.Perm (Table.ofGrammar h).cellsByName
  conflicts : (Table.ofGrammar g).conflictsByName.Perm (Table.ofGrammar h).conflictsByName
  isLl1 : (Table.ofGrammar g).isLl1 = (Table.ofGrammar h).isLl1
  classes : (Table.ofGrammar g).classesByName.Perm (Table.ofGrammar h).classesByName
  rules : (Table.ofGrammar g).isLl1 = true →
    (Table.ofGrammar g).rulesByName.Perm (Table.ofGrammar h).rulesByName
  parse : (Table.ofGrammar g).isLl1 = true → ∀ (limit : Option Nat) (words : List String),
    ∃ r r', (Table.ofGrammar g).parseUpTo? limit g.start words = some r
      ∧ (Table.ofGrammar h).parseUpTo? limit h.start words = some r'
      ∧ r.result.map (traceLines g) = r'.result.map (traceLines h)

/-- Lists that correspond up to order read the same up to order, if corresponding members
do. -/
lemma perm_map_of_perm {α β : Type} {φ : α → α} {l l' : List α} {F F' : α → β}
    (h : (l.map φ).Perm l') (hF : ∀ a, F' (φ a) = F a) : (l.map F).Perm (l'.map F') := by
  have hmap := h.map F'
  rwa [List.map_map, show F' ∘ φ = F from funext hF] at hmap

namespace Grammar.Renames

open LookaheadSets Table

variable {σ : Symbol ≃ Symbol} {g h : Grammar} {f f' : FirstSets} {k k' : FollowSets}

lemma map_nameOf (hσ : Renames σ g h) (x : Lookahead) :
    (x.map σ).map h.nameOf = x.map g.nameOf := by
  rw [Option.map_map]
  exact congrArg (fun name => x.map name) (funext hσ.nameOf)

/-- Renamed sets read the same. -/
lemma setsByName (hσ : Renames σ g h) {m m' : LookaheadSets} (hm : Renamed σ m m') :
    (g.setsByName m).Perm (h.setsByName m') := by
  have hset : ∀ s, h.setNames (members m' (σ s)) = g.setNames (members m s) := fun s =>
    (List.toFinset_eq_of_perm _ _ (perm_map_of_perm (hm.members_perm s) hσ.map_nameOf)).symm
  rw [Grammar.setsByName, Grammar.setsByName, toList_eq m, toList_eq m', List.map_map,
    List.map_map]
  exact perm_map_of_perm hm.keys_perm fun s => Prod.ext (hσ.nameOf s) (hset s)

/-- The cell with its symbols renamed. -/
abbrev renameCell (σ : Symbol ≃ Symbol) : Symbol × Lookahead ≃ Symbol × Lookahead :=
  σ.prodCongr σ.optionCongr

lemma cellName (hσ : Renames σ g h) (cell : Symbol × Lookahead) :
    h.cellName (renameCell σ cell) = g.cellName cell :=
  Prod.ext (hσ.nameOf cell.1) (hσ.map_nameOf cell.2)

/-- The filled cells are renamed. -/
lemma filled (hσ : Renames σ g h) (hf : Renamed σ f.sets f'.sets)
    (hk : Renamed σ k.sets k'.sets) :
    ((build g f k).filled.map (renameCell σ)).Perm (build h f' k').filled := by
  refine (List.perm_ext_iff_of_nodup ((nodup_filled _).map (renameCell σ).injective)
    (nodup_filled _)).mpr fun cell => ?_
  obtain ⟨⟨s, x⟩, rfl⟩ := (renameCell σ).surjective cell
  rw [List.mem_map_of_injective (renameCell σ).injective, mem_filled]
  exact (hσ.isSome_get? hf hk s x).symm.trans mem_filled.symm

/-- The cells of the conflicts are renamed. -/
lemma conflicting (hσ : Renames σ g h) (hf : Renamed σ f.sets f'.sets)
    (hk : Renamed σ k.sets k'.sets) :
    ((build g f k).conflicting.map (renameCell σ)).Perm (build h f' k').conflicting := by
  refine List.perm_iff_count.mpr fun cell => ?_
  obtain ⟨⟨s, x⟩, rfl⟩ := (renameCell σ).surjective cell
  rw [List.count_map_of_injective _ _ (renameCell σ).injective, count_conflicting]
  exact (hσ.conflictCount hf hk s x).symm.trans (count_conflicting _ _ _).symm

/-- The classes are listed for the renamed nonterminals. -/
lemma classes_perm (hσ : Renames σ g h) (hf : Renamed σ f.sets f'.sets)
    (hk : Renamed σ k.sets k'.sets) :
    ((build g f k).classes.toList.map (Prod.map σ id)).Perm (build h f' k').classes.toList := by
  have hinj : Function.Injective (Prod.map σ id : Symbol × NonterminalClass → _) :=
    σ.injective.prodMap Function.injective_id
  refine (List.perm_ext_iff_of_nodup (List.Nodup.map hinj (OrderedMap.nodup_keys _).of_map)
    (OrderedMap.nodup_keys _).of_map).mpr fun ⟨s, c⟩ => ?_
  obtain ⟨s, rfl⟩ := σ.surjective s
  rw [show (σ s, c) = Prod.map σ id (s, c) from rfl, List.mem_map_of_injective hinj,
    ← OrderedMap.get?_eq_some_iff, ← hσ.classes hf hk s, OrderedMap.get?_eq_some_iff]
  rfl

/-- Without conflicts the words of any input are parsed alike. -/
lemma parse (hσ : Renames σ g h) (hll1 : (Table.ofGrammar g).isLl1 = true)
    (ht : Table.Renamed σ (Table.ofGrammar g) (Table.ofGrammar h)) (limit : Option Nat)
    (words : List String) :
    ∃ r r', (Table.ofGrammar g).parseUpTo? limit g.start words = some r
      ∧ (Table.ofGrammar h).parseUpTo? limit h.start words = some r'
      ∧ r.result.map (traceLines g) = r'.result.map (traceLines h) := by
  rw [hσ.start]
  cases limit with
  | some limit => exact ⟨_, _, rfl, rfl, (ht.parseWithin limit g.start words).symm⟩
  | none =>
      have hpred : ∀ s ∈ [g.start], (Table.ofGrammar g).Predictable s :=
        fun s _ x _ => isLl1_iff_conflictFree.mp hll1 x
      obtain ⟨d, v, hmoves, hstops⟩ := exists_stops (.initial g g.start words) hpred
      have hparse : (Table.ofGrammar g).parse? g.start words = some (d.report g v.cause?) :=
        parse?_eq_some_iff.mpr ⟨d, v, hmoves, advance_eq_stop_iff.mpr hstops, rfl⟩
      obtain ⟨r', hr', hresult⟩ := ht.parse? hparse
      exact ⟨_, r', hparse, hr', hresult.symm⟩

/-- **Grammars that differ by a renaming are analysed alike.** -/
theorem analysedAlike (hσ : Renames σ g h) : g.AnalysedAlike h := by
  obtain ⟨hfirst, hfirstPasses⟩ := hσ.firstSets
  obtain ⟨hfollow, hfollowPasses⟩ := hσ.followSets hfirst
  have hfilled := hσ.filled hfirst hfollow
  have htable := hσ.table hfirst hfollow
  refine ⟨hσ.setsByName hfirst, hfirstPasses.symm, hσ.setsByName hfollow, hfollowPasses.symm,
    ?_, ?_, (hσ.isLl1 hfirst hfollow).symm, ?_, fun hll1 => ?_, fun hll1 => ?_⟩
  · rw [cellsByName_eq, cellsByName_eq]
    exact perm_map_of_perm hfilled hσ.cellName
  · rw [conflictsByName_eq, conflictsByName_eq]
    exact perm_map_of_perm (hσ.conflicting hfirst hfollow) hσ.cellName
  · exact perm_map_of_perm (hσ.classes_perm hfirst hfollow) fun e => Prod.ext (hσ.nameOf e.1) rfl
  · rw [rulesByName_eq, rulesByName_eq]
    refine perm_map_of_perm hfilled fun cell => Prod.ext (hσ.cellName cell) ?_
    have hrule := congrArg (Option.map h.names.ruleName) ((htable hll1).ruleAt? cell.1 cell.2)
    rw [Option.map_map, show h.names.ruleName ∘ Rule.rename σ = g.names.ruleName from
      funext (NameTable.ruleName_rename hσ.nameOf)] at hrule
    exact hrule
  · exact hσ.parse hll1 (htable hll1)

end Grammar.Renames

/-- **The analysis does not depend on the order of rules.** Let two lists of declarations
declare the same names, the same one first, and list the same rules, each as often, in any
two orders. Then the grammars that they make are analysed alike. -/
theorem Grammar.analysedAlike_of_perm (decls₁ decls₂ : List Declaration) (g₁ g₂ : Grammar)
    (h₁ : Grammar.ofDeclarations decls₁ = .ok g₁) (h₂ : Grammar.ofDeclarations decls₂ = .ok g₂)
    (hnames : ∀ n, n ∈ decls₁.map Declaration.lhs ↔ n ∈ decls₂.map Declaration.lhs)
    (hfirst : (decls₁.map Declaration.lhs).head? = (decls₂.map Declaration.lhs).head?)
    (hrules : (decls₁.flatMap Declaration.rules).Perm (decls₂.flatMap Declaration.rules))
    (hsize : g₁.names.size ≤ UInt32.size) : g₁.AnalysedAlike g₂ := by
  obtain ⟨σ, hσ⟩ := exists_renames h₁ h₂ hnames hfirst hrules hsize
  exact hσ.analysedAlike

/-- Sums of names, declared the other way round: the symbols are `E`, `T`, `id`, `R` and
`+`, in this order. -/
def Grammar.sumsReordered : Grammar :=
  { Draft.ofDeclarations
      [⟨"E", []⟩, ⟨"T", [["id"]]⟩, ⟨"R", [["ϵ"], ["+", "T", "R"]]⟩, ⟨"E", [["T", "R"]]⟩] with
    declared := by decide }

theorem Grammar.analysedAlike_of_perm_sums :
    (Table.ofGrammar sums).isLl1 = true ∧ sumsReordered.names ≠ sums.names
      ∧ sums.AnalysedAlike sumsReordered := by
  refine ⟨by decide +kernel, by decide, ?_⟩
  refine analysedAlike_of_perm
    [⟨"E", [["T", "R"]]⟩, ⟨"R", [["+", "T", "R"], ["ε"]]⟩, ⟨"T", [["id"]]⟩]
    [⟨"E", []⟩, ⟨"T", [["id"]]⟩, ⟨"R", [["ϵ"], ["+", "T", "R"]]⟩, ⟨"E", [["T", "R"]]⟩]
    sums sumsReordered (by decide) (by decide) (fun n => ?_) rfl (by decide) (by decide +kernel)
  simp only [List.map_cons, List.map_nil, List.mem_cons, List.not_mem_nil]
  tauto

end TopDown
