import Mathlib.Data.List.Count
import Mathlib.Data.List.Perm.Basic
import Mathlib.Logic.Equiv.Option
import TopDown.Proofs.Building

/-!
Grammars that differ by the numbers of their symbols and by the order of their rules.

Declaring the same rules in another order gives other numbers to the symbols and other
places to the rules. The two grammars are then related by a bijection of symbols which
keeps the names.

* `Grammar.Renames`: the bijection takes names, nonterminals, start symbol and rules of
  one grammar to those of the other, whatever the order; `Grammar.Renames.symm` is the way
  back. What a grammar says of a symbol, it says of the renamed one
  (`Grammar.Renames.isTerminal`, `Grammar.Renames.nameOf`, `Grammar.Renames.showRule`).
* `NameTable.renameEquiv`: the bijection between two tables of the same names.
* `Grammar.exists_renames`: declarations with the same declared names, the same first one
  and the same rules, in any order, make grammars that are related in this way.
-/

namespace TopDown

/-- The rule with its symbols renamed. -/
def Rule.rename (σ : Symbol ≃ Symbol) (r : Rule) : Rule := ⟨σ r.lhs, r.rhs.map σ⟩

lemma Rule.rename_symm_rename (σ : Symbol ≃ Symbol) (r : Rule) :
    (r.rename σ).rename σ.symm = r := by
  obtain ⟨lhs, rhs⟩ := r
  simp [rename]

namespace Grammar

/-- The bijection takes one grammar to the other: the names stay with their symbols, and
nonterminals, start symbol and rules correspond, in whatever order they are listed. -/
structure Renames (σ : Symbol ≃ Symbol) (g h : Grammar) : Prop where
  name? : ∀ s, h.names.name? (σ s) = g.names.name? s
  size_eq : h.names.size = g.names.size
  size_le : g.names.size ≤ UInt32.size
  nonterminals : (g.nonterminals.map σ).Perm h.nonterminals
  start : h.start = σ g.start
  rules : (g.rules.map (Rule.rename σ)).Perm h.rules

namespace Renames

variable {σ : Symbol ≃ Symbol} {g h : Grammar}

/-- A renaming can be undone. -/
lemma symm (hσ : Renames σ g h) : Renames σ.symm h g where
  name? s := by rw [← hσ.name?, σ.apply_symm_apply]
  size_eq := hσ.size_eq.symm
  size_le := hσ.size_eq ▸ hσ.size_le
  nonterminals := by
    have hback := hσ.nonterminals.symm.map σ.symm
    rwa [List.map_map, σ.symm_comp_self, List.map_id] at hback
  start := by rw [hσ.start, σ.symm_apply_apply]
  rules := by
    have hback := hσ.rules.symm.map (Rule.rename σ.symm)
    rwa [List.map_map, show Rule.rename σ.symm ∘ Rule.rename σ = id from
      funext (Rule.rename_symm_rename σ), List.map_id] at hback

lemma index_lt_iff (hσ : Renames σ g h) {s : Symbol} :
    (σ s).index < h.names.size ↔ s.index < g.names.size := by
  have hname : h.names.names[(σ s).index]? = g.names.names[s.index]? := hσ.name? s
  have hnone : h.names.size ≤ (σ s).index ↔ g.names.size ≤ s.index := by
    rw [NameTable.size, NameTable.size, ← List.getElem?_eq_none_iff, hname,
      List.getElem?_eq_none_iff]
  omega

lemma mem_nonterminals_iff (hσ : Renames σ g h) {s : Symbol} :
    σ s ∈ h.nonterminals ↔ s ∈ g.nonterminals := by
  rw [← hσ.nonterminals.mem_iff, List.mem_map_of_injective σ.injective]

lemma length_nonterminals (hσ : Renames σ g h) :
    h.nonterminals.length = g.nonterminals.length := by
  rw [← hσ.nonterminals.length_eq, List.length_map]

/-- A rule of the one grammar is a renamed rule of the other. -/
lemma exists_mem_rules_iff (hσ : Renames σ g h) {P : Rule → Prop} :
    (∃ r ∈ h.rules, P r) ↔ ∃ r ∈ g.rules, P (r.rename σ) := by
  constructor
  · rintro ⟨r, hr, hP⟩
    obtain ⟨r', hr', rfl⟩ := List.mem_map.mp (hσ.rules.mem_iff.mpr hr)
    exact ⟨r', hr', hP⟩
  · rintro ⟨r, hr, hP⟩
    exact ⟨_, hσ.rules.mem_iff.mp (List.mem_map_of_mem hr), hP⟩

lemma isTerminal (hσ : Renames σ g h) (s : Symbol) : h.isTerminal (σ s) = g.isTerminal s := by
  rw [Bool.eq_iff_iff, isTerminal_iff, isTerminal_iff, hσ.index_lt_iff,
    hσ.mem_nonterminals_iff]

lemma nameOf (hσ : Renames σ g h) (s : Symbol) : h.nameOf (σ s) = g.nameOf s := by
  rw [Grammar.nameOf, NameTable.nameOf, hσ.name?]
  rfl

/-- A name is found in the one grammar exactly where it is found in the other. -/
lemma find? (hσ : Renames σ g h) (name : String) :
    h.names.find? name = (g.names.find? name).map σ := by
  cases hfind : g.names.find? name with
  | some s =>
      have hname := NameTable.name?_of_find? hσ.size_le hfind
      exact NameTable.find?_of_name? ((hσ.name? s).trans hname)
  | none =>
      cases hfind' : h.names.find? name with
      | none => rfl
      | some s =>
          have hname := NameTable.name?_of_find? hσ.symm.size_le hfind'
          have hfound := NameTable.find?_of_name? ((hσ.symm.name? s).trans hname)
          rw [hfind] at hfound
          cases hfound

lemma showRhs (hσ : Renames σ g h) (rhs : List Symbol) :
    h.showRhs (rhs.map σ) = g.showRhs rhs := by
  have hnames : (rhs.map σ).map h.nameOf = rhs.map g.nameOf := by
    rw [List.map_map]
    exact List.map_congr_left fun s _ => hσ.nameOf s
  rw [Grammar.showRhs, Grammar.showRhs, List.isEmpty_map, hnames]

/-- A renamed rule reads the same. -/
lemma showRule (hσ : Renames σ g h) (r : Rule) : h.showRule (r.rename σ) = g.showRule r := by
  rw [Grammar.showRule, Grammar.showRule, Rule.rename, hσ.nameOf, hσ.showRhs]

end Renames

end Grammar

/-! ### Tables of the same names -/

namespace NameTable

variable {t u : NameTable}

/-- Different strings of symbols have different names. -/
lemma map_nameOf_inj {l l' : List Symbol} (hl : ∀ s ∈ l, s.index < t.size)
    (hl' : ∀ s ∈ l', s.index < t.size) (h : l.map t.nameOf = l'.map t.nameOf) : l = l' := by
  have hsome := congrArg (List.map t.find?) h
  rw [map_find?_nameOf hl, map_find?_nameOf hl'] at hsome
  exact List.map_injective_iff.mpr (Option.some_injective _) hsome

/-- All symbols of the rule are named. -/
def Names (t : NameTable) (r : Rule) : Prop :=
  r.lhs.index < t.size ∧ ∀ s ∈ r.rhs, s.index < t.size

/-- Different rules have different names. -/
lemma ruleName_inj {r r' : Rule} (hr : t.Names r) (hr' : t.Names r')
    (h : t.ruleName r = t.ruleName r') : r = r' := by
  obtain ⟨hlhs, hrhs⟩ := Prod.mk.inj h
  exact congrArg₂ Rule.mk (nameOf_inj hr.1 hr'.1 hlhs) (map_nameOf_inj hr.2 hr'.2 hrhs)

lemma Names.rename {σ : Symbol ≃ Symbol} {r : Rule} (hr : t.Names r)
    (hσ : ∀ s, s.index < t.size → (σ s).index < u.size) : u.Names (r.rename σ) :=
  ⟨hσ _ hr.1, List.forall_mem_map.mpr fun s hs => hσ s (hr.2 s hs)⟩

/-- Where a renaming keeps the names of symbols, it keeps those of rules. -/
lemma ruleName_rename {σ : Symbol ≃ Symbol} (hσ : ∀ s, u.nameOf (σ s) = t.nameOf s) (r : Rule) :
    u.ruleName (r.rename σ) = t.ruleName r := by
  refine Prod.ext (hσ r.lhs) ?_
  rw [ruleName, Rule.rename, List.map_map]
  exact List.map_congr_left fun s _ => hσ s

/-- The symbol that has the same name in another table. A symbol without a name stays. -/
def rename (t u : NameTable) (s : Symbol) : Symbol := ((t.name? s).bind u.find?).getD s

/-- A renamed symbol has the name it had. -/
lemma name?_rename (hmem : ∀ n, n ∈ t.names ↔ n ∈ u.names) (hsize : t.size = u.size)
    (hle : u.size ≤ UInt32.size) (s : Symbol) : u.name? (rename t u s) = t.name? s := by
  rw [rename]
  cases hname : t.name? s with
  | some n =>
      obtain ⟨s', hfind⟩ := exists_find? ((hmem n).mp (List.mem_of_getElem? hname))
      rw [Option.bind_some, hfind, Option.getD_some]
      exact name?_of_find? hle hfind
  | none =>
      have hge : t.names.length ≤ s.index := List.getElem?_eq_none_iff.mp hname
      exact List.getElem?_eq_none_iff.mpr (Nat.le_trans (Nat.le_of_eq hsize.symm) hge)

/-- Renaming there and back changes nothing. -/
lemma rename_rename (hmem : ∀ n, n ∈ t.names ↔ n ∈ u.names) (hsize : t.size = u.size)
    (hle : u.size ≤ UInt32.size) (s : Symbol) : rename u t (rename t u s) = s := by
  have hkeep := name?_rename hmem hsize hle s
  rw [rename, hkeep]
  cases hname : t.name? s with
  | some n => rw [Option.bind_some, find?_of_name? hname, Option.getD_some]
  | none => rw [Option.bind_none, Option.getD_none, rename, hname]; rfl

/-- The renaming between two tables of the same names. -/
def renameEquiv (t u : NameTable) (hmem : ∀ n, n ∈ t.names ↔ n ∈ u.names)
    (hsize : t.size = u.size) (hle : u.size ≤ UInt32.size) : Symbol ≃ Symbol where
  toFun := rename t u
  invFun := rename u t
  left_inv := rename_rename hmem hsize hle
  right_inv := rename_rename (fun n => (hmem n).symm) hsize.symm (hsize ▸ hle)

end NameTable

/-- Lists of which the images are the same up to order are the same up to order, if no two
of their members have the same image. -/
lemma perm_of_map {α β : Type} [DecidableEq α] [DecidableEq β] {f : α → β} {l l' : List α}
    (hinj : ∀ a ∈ l ++ l', ∀ b ∈ l ++ l', f a = f b → a = b)
    (h : (l.map f).Perm (l'.map f)) : l.Perm l' := by
  have hcount : ∀ k : List α, k ⊆ l ++ l' → ∀ a ∈ l ++ l',
      k.count a = (k.map f).count (f a) := by
    intro k hk a ha
    rw [List.count, List.count, List.countP_map]
    refine List.countP_congr fun b hb => ?_
    simp only [Function.comp, beq_iff_eq]
    exact ⟨congrArg f, hinj b (hk hb) a ha⟩
  refine List.perm_iff_count.mpr fun a => ?_
  by_cases ha : a ∈ l ++ l'
  · rw [hcount l (List.subset_append_left l l') a ha, h.count_eq,
      ← hcount l' (List.subset_append_right l l') a ha]
  · rw [List.mem_append, not_or] at ha
    rw [List.count_eq_zero_of_not_mem ha.1, List.count_eq_zero_of_not_mem ha.2]

namespace Grammar

variable {decls₁ decls₂ : List Declaration} {g₁ g₂ : Grammar}

/-- Grammars made from the same declarations in another order have the same names. -/
lemma mem_names_iff (h₁ : Grammar.ofDeclarations decls₁ = .ok g₁)
    (h₂ : Grammar.ofDeclarations decls₂ = .ok g₂)
    (hnames : ∀ n, n ∈ decls₁.map Declaration.lhs ↔ n ∈ decls₂.map Declaration.lhs)
    (hrules : (decls₁.flatMap Declaration.rules).Perm (decls₂.flatMap Declaration.rules))
    (n : String) : n ∈ g₁.names.names ↔ n ∈ g₂.names.names := by
  have hmentioned : ∀ decls : List Declaration,
      n ∈ (Draft.ofDeclarations decls).names.names ↔
        n ∈ decls.map Declaration.lhs ∨ ∃ p ∈ decls.flatMap Declaration.rules, n ∈ p.2 := by
    intro decls
    rw [Draft.mem_names_ofDeclarations]
    simp only [List.mem_map, List.mem_flatMap, Declaration.rules]
    constructor
    · rintro ⟨decl, hdecl, rfl | ⟨names, hnames, hn⟩⟩
      · exact .inl ⟨decl, hdecl, rfl⟩
      · exact .inr ⟨_, ⟨decl, hdecl, names, hnames, rfl⟩, hn⟩
    · rintro (⟨decl, hdecl, rfl⟩ | ⟨_, ⟨decl, hdecl, names, hnames, rfl⟩, hn⟩)
      · exact ⟨decl, hdecl, .inl rfl⟩
      · exact ⟨decl, hdecl, .inr ⟨names, hnames, hn⟩⟩
  rw [ofDeclarations_eq_ok_iff.mp h₁, ofDeclarations_eq_ok_iff.mp h₂, hmentioned, hmentioned]
  simp only [hnames n, hrules.mem_iff]

lemma names_rule (g : Grammar) {r : Rule} (hr : r ∈ g.rules) : g.names.Names r :=
  ⟨g.nonterminals_lt _ (g.lhs_mem r hr), g.rhs_lt r hr⟩

/-- A bijection that keeps the names is a renaming between grammars that read the same by
name, up to order. -/
lemma renames_of_names {σ : Symbol ≃ Symbol}
    (hname? : ∀ s, g₂.names.name? (σ s) = g₁.names.name? s)
    (hsizes : g₂.names.size = g₁.names.size) (hsize : g₁.names.size ≤ UInt32.size)
    (hnonterminals : g₁.nonterminalNames.Perm g₂.nonterminalNames)
    (hstart : g₁.nonterminalNames.head? = g₂.nonterminalNames.head?)
    (hrules : g₁.ruleNames.Perm g₂.ruleNames) : Renames σ g₁ g₂ := by
  have hnameOf : ∀ s, g₂.names.nameOf (σ s) = g₁.names.nameOf s := fun s => by
    rw [NameTable.nameOf, NameTable.nameOf, hname?]
  have hlt : ∀ s, s.index < g₁.names.size → (σ s).index < g₂.names.size := by
    intro s hs
    have hsome := hname? s
    rw [NameTable.name?_eq_nameOf hs] at hsome
    exact (List.getElem?_eq_some_iff.mp hsome).1
  -- nonterminals and rules are found by their names, since all their symbols are named
  refine ⟨hname?, hsizes, hsize, ?_, ?_, ?_⟩
  · have hnamed : ∀ s ∈ g₁.nonterminals.map σ ++ g₂.nonterminals, s.index < g₂.names.size :=
      List.forall_mem_append.mpr ⟨List.forall_mem_map.mpr fun s hs =>
        hlt s (g₁.nonterminals_lt s hs), g₂.nonterminals_lt⟩
    have hread : (g₁.nonterminals.map σ).map g₂.names.nameOf = g₁.nonterminalNames := by
      rw [List.map_map]
      exact List.map_congr_left fun s _ => hnameOf s
    refine perm_of_map (f := g₂.names.nameOf) (fun s hs s' hs' =>
      NameTable.nameOf_inj (hnamed s hs) (hnamed s' hs')) ?_
    rwa [hread]
  · rw [Draft.nonterminalNames, Draft.nonterminalNames, List.head?_map, List.head?_map,
      List.head?_eq_some_head g₁.declared, List.head?_eq_some_head g₂.declared] at hstart
    have hname : g₁.names.nameOf g₁.start = g₂.names.nameOf g₂.start := Option.some.inj hstart
    rw [← hnameOf] at hname
    exact (NameTable.nameOf_inj (hlt _ (g₁.nonterminals_lt _ g₁.start_mem))
      (g₂.nonterminals_lt _ g₂.start_mem) hname).symm
  · have hnamed : ∀ r ∈ g₁.rules.map (Rule.rename σ) ++ g₂.rules, g₂.names.Names r := by
      refine List.forall_mem_append.mpr ⟨List.forall_mem_map.mpr fun r hr => ?_, fun r hr => ?_⟩
      · exact (g₁.names_rule hr).rename hlt
      · exact g₂.names_rule hr
    have hread : (g₁.rules.map (Rule.rename σ)).map g₂.names.ruleName = g₁.ruleNames := by
      rw [List.map_map]
      exact List.map_congr_left fun r _ => NameTable.ruleName_rename hnameOf r
    refine perm_of_map (f := g₂.names.ruleName) (fun r hr r' hr' =>
      NameTable.ruleName_inj (hnamed r hr) (hnamed r' hr')) ?_
    rwa [hread]

/-- **The same declarations in another order** make grammars that differ by a renaming. -/
theorem exists_renames (h₁ : Grammar.ofDeclarations decls₁ = .ok g₁)
    (h₂ : Grammar.ofDeclarations decls₂ = .ok g₂)
    (hnames : ∀ n, n ∈ decls₁.map Declaration.lhs ↔ n ∈ decls₂.map Declaration.lhs)
    (hfirst : (decls₁.map Declaration.lhs).head? = (decls₂.map Declaration.lhs).head?)
    (hrules : (decls₁.flatMap Declaration.rules).Perm (decls₂.flatMap Declaration.rules))
    (hsize : g₁.names.size ≤ UInt32.size) : ∃ σ, Renames σ g₁ g₂ := by
  have hmem := mem_names_iff h₁ h₂ hnames hrules
  have hsizes : g₁.names.size = g₂.names.size :=
    ((List.perm_ext_iff_of_nodup g₁.names.nodup g₂.names.nodup).mpr hmem).length_eq
  have hsize₂ : g₂.names.size ≤ UInt32.size := hsizes ▸ hsize
  refine ⟨g₁.names.renameEquiv g₂.names hmem hsizes hsize₂, ?_⟩
  have hnonterminals₁ := nonterminalNames_of_ofDeclarations h₁ hsize
  have hnonterminals₂ := nonterminalNames_of_ofDeclarations h₂ hsize₂
  refine renames_of_names (NameTable.name?_rename hmem hsizes hsize₂) hsizes.symm hsize ?_ ?_ ?_
  · refine (List.perm_ext_iff_of_nodup g₁.nodup_nonterminalNames
      g₂.nodup_nonterminalNames).mpr fun n => ?_
    rw [hnonterminals₁, hnonterminals₂, List.mem_eraseDups, List.mem_eraseDups, hnames n]
  · rw [hnonterminals₁, hnonterminals₂, head?_eraseDups, head?_eraseDups, hfirst]
  · rwa [ruleNames_of_ofDeclarations h₁ hsize, ruleNames_of_ofDeclarations h₂ hsize₂]

end Grammar

end TopDown
