import TopDown.Proofs.Completeness
import TopDown.Proofs.Renaming
import TopDown.Proofs.Soundness

/-!
Parsing from an inner nonterminal, and parsing a grammar that starts with it.

A grammar can be declared anew with another nonterminal first: names, rules and declared
nonterminals stay, up to the numbers that they get, and only the start symbol is another.
Then the lookaheads that follow a nonterminal are the same but for the end of the input,
which follows what can stand last in a string derived from the start symbol. So a parse
from the inner nonterminal and a parse of the new grammar differ at most where a nonterminal
has to be erased after the last word is read.

* `Table.Accepts`: a parse without a limit accepts.
* `Table.parse?_eq_accepted_iff`: the steps by which a parse accepts are the replays that
  match the words and at the end expand only what the input may end after.
* `Grammar.Rerooted`: the second grammar is the first one with another start symbol, up to a
  renaming; `Grammar.exists_rerooted` finds the renaming between declarations of the same
  rules.
* `Grammar.Rerooted.replays`: replays correspond in such grammars.
* `Table.accepts_rerooted_iff`: when the two parses agree. They do not always
  (`Table.rerooting_changes_acceptance`).
-/

namespace TopDown

/-! ### What a parse accepts -/

namespace Table

variable {g : Grammar} {words : List String} {steps : List Step}

/-- The parse of the words from the symbol, without a limit, accepts. -/
def Accepts (t : Table) (start : Symbol) (words : List String) : Prop :=
  ∃ r steps, t.parse? start words = some r ∧ r.result = .ok steps

lemma accepts_iff {t : Table} {start : Symbol} :
    t.Accepts start words ↔ ∃ steps, t.parse? start words = some ⟨steps, none⟩ := by
  constructor
  · rintro ⟨⟨steps, failure⟩, _, hparse, hok⟩
    obtain ⟨rfl, rfl⟩ := Run.result_eq_ok_iff.mp hok
    exact ⟨steps, hparse⟩
  · rintro ⟨steps, hparse⟩
    exact ⟨_, steps, hparse, rfl⟩

/-- **What a parse accepts.** From a predictable symbol, a parse accepts by some steps
exactly if they replay the symbol to the end, match what the words name, and expand after
the last word only what the input may end after. -/
theorem parse?_eq_accepted_iff {s : Symbol} (hs : (ofGrammar g).Predictable s) :
    (ofGrammar g).parse? s words = some ⟨steps, none⟩ ↔
      g.Replays [s] steps [] ∧ words.map g.names.find? = (consumed steps).map some
        ∧ ∀ x ∈ g.closing steps, none ∈ g.follow.members x := by
  have htokens : (words.map (Token.ofText g)).map Token.symbol = words.map g.names.find? := by
    rw [List.map_map]
    rfl
  constructor
  · intro hparse
    obtain ⟨d, v, hmoves, hstop, hreport⟩ := parse?_eq_some_iff.mp hparse
    obtain ⟨hsteps, hfailure⟩ := Run.mk.inj hreport
    cases advance_eq_stop_iff.mp hstop with
    | accepted =>
        obtain ⟨steps', hsteps', hreplays, hinput, hclosing⟩ := replays_of_moves hmoves rfl rfl
        cases hsteps'.symm.trans hsteps
        exact ⟨hreplays, htokens.symm.trans hinput, hclosing⟩
    | _ => cases hfailure
  · rintro ⟨hreplays, hinput, hclosing⟩
    obtain ⟨position, hmoves⟩ := moves_of_replays hreplays rfl
      (List.forall_mem_singleton.mpr hs) (fun a => Grammar.admits_singleton a s) hclosing
      (htokens.trans hinput) 0 []
    refine parse?_eq_some_iff.mpr ⟨_, .accepted, hmoves, rfl, ?_⟩
    simp [Config.report, Verdict.cause?]

end Table

/-! ### Another start symbol -/

namespace Grammar

/-- The second grammar is the first one with the start symbol `n`: the bijection keeps what
words name, the declared nonterminals and the terminals, and the rules. -/
structure Rerooted (σ : Symbol ≃ Symbol) (g : Grammar) (n : Symbol) (h : Grammar) : Prop where
  find? : ∀ word, h.names.find? word = (g.names.find? word).map σ
  nonterminals : ∀ s, σ s ∈ h.nonterminals ↔ s ∈ g.nonterminals
  isTerminal : ∀ s, h.isTerminal (σ s) = g.isTerminal s
  rules : ∀ r, r.rename σ ∈ h.rules ↔ r ∈ g.rules
  start : h.start = σ n

namespace Rerooted

variable {σ : Symbol ≃ Symbol} {g h : Grammar} {n : Symbol}

/-- The first grammar is the second one with the old start symbol. -/
lemma symm (hσ : Rerooted σ g n h) : Rerooted σ.symm h (σ g.start) g where
  find? word := by
    rw [hσ.find?, Option.map_map, σ.symm_comp_self, Option.map_id_fun, id]
  nonterminals s := by rw [← hσ.nonterminals, σ.apply_symm_apply]
  isTerminal s := by rw [← hσ.isTerminal, σ.apply_symm_apply]
  rules r := by
    have hback : (r.rename σ.symm).rename σ = r := Rule.rename_symm_rename σ.symm r
    rw [← hσ.rules, hback]
  start := by rw [σ.symm_apply_apply]

/-- The new start symbol is declared in the old grammar. -/
lemma mem_nonterminals (hσ : Rerooted σ g n h) : n ∈ g.nonterminals := by
  rw [← hσ.nonterminals, ← hσ.start]
  exact h.start_mem

/-- **Replays correspond**: what one grammar replays, the other replays with its symbols
renamed, and it expands what corresponds at the end. -/
theorem replays (hσ : Rerooted σ g n h) {v w : List Symbol} {steps : List Step}
    (hreplays : g.Replays v steps w) :
    ∃ steps', h.Replays (v.map σ) steps' (w.map σ)
      ∧ consumed steps' = (consumed steps).map σ
      ∧ h.closing steps' = (g.closing steps).map σ := by
  induction hreplays with
  | done w => exact ⟨[], .done _, rfl, rfl⟩
  | @expand id r w v steps hid _ ih =>
      obtain ⟨steps', hrest, hcons, hclosing⟩ := ih
      obtain ⟨id', hid'⟩ :=
        List.mem_iff_getElem?.mp ((hσ.rules r).mpr (mem_rules_of_rule? hid))
      rw [List.map_append] at hrest
      refine ⟨.expand id' :: steps', .expand hid' hrest, hcons, ?_⟩
      rw [closing_expand hid, closing_expand hid', hcons, hclosing]
      by_cases hnil : consumed steps = [] <;> simp [hnil, Rule.rename]
  | @consume a w v steps ha _ ih =>
      obtain ⟨steps', hrest, hcons, hclosing⟩ := ih
      refine ⟨.consume (σ a) :: steps', .consume ?_ hrest, congrArg (σ a :: ·) hcons, hclosing⟩
      rw [hσ.isTerminal, ha]

/-- What the words name corresponds. -/
lemma map_find? (hσ : Rerooted σ g n h) {words : List String} {w : List Symbol}
    (hw : words.map g.names.find? = w.map some) :
    words.map h.names.find? = (w.map σ).map some := by
  calc words.map h.names.find?
      = (words.map g.names.find?).map (Option.map σ) := by
        rw [List.map_map]
        exact List.map_congr_left fun word _ => hσ.find? word
    _ = (w.map some).map (Option.map σ) := by rw [hw]
    _ = (w.map σ).map some := by
        rw [List.map_map, List.map_map]
        rfl

/-- A further renaming keeps the start symbol where it is. -/
lemma rename (hσ : Rerooted σ g n h) {τ : Symbol ≃ Symbol} {k : Grammar}
    (hτ : Renames τ h k) : Rerooted (σ.trans τ) g n k where
  find? word := by
    rw [hτ.find?, hσ.find?, Option.map_map]
    rfl
  nonterminals s := hτ.mem_nonterminals_iff.trans (hσ.nonterminals s)
  isTerminal s := (hτ.isTerminal (σ s)).trans (hσ.isTerminal s)
  rules r := by
    have hrename : r.rename (σ.trans τ) = (r.rename σ).rename τ := by
      simp [Rule.rename]
    rw [hrename, ← hσ.rules, ← hτ.rules.mem_iff]
    exact List.mem_map_of_injective (Function.LeftInverse.injective (Rule.rename_symm_rename τ))
  start := by rw [hτ.start, hσ.start, Equiv.trans_apply]

end Rerooted

/-- The grammar with one of its nonterminals declared first. -/
def withStart (g : Grammar) (n : Symbol) (hn : n ∈ g.nonterminals) : Grammar where
  names := g.names
  nonterminals := n :: g.nonterminals.erase n
  rules := g.rules
  nonterminals_nodup := (List.perm_cons_erase hn).nodup g.nonterminals_nodup
  nonterminals_lt := fun s hs =>
    g.nonterminals_lt s ((List.perm_cons_erase hn).mem_iff.mpr hs)
  lhs_mem := fun r hr => (List.perm_cons_erase hn).mem_iff.mp (g.lhs_mem r hr)
  rhs_lt := g.rhs_lt
  declared := List.cons_ne_nil _ _

/-- Every grammar can be given any of its nonterminals as its start symbol. -/
lemma rerooted_withStart (g : Grammar) {n : Symbol} (hn : n ∈ g.nonterminals) :
    Rerooted (Equiv.refl Symbol) g n (g.withStart n hn) where
  find? word := (Option.map_id_apply).symm
  nonterminals s := (List.perm_cons_erase hn).mem_iff.symm
  isTerminal s := by
    rw [Bool.eq_iff_iff, isTerminal_iff, isTerminal_iff]
    exact and_congr_right' (not_congr (List.perm_cons_erase hn).mem_iff.symm)
  rules r := by simp [Rule.rename, withStart]
  start := rfl

/-- **Declaring another nonterminal first.** Declarations of the same names with the same
rules, in any order, make a grammar that differs from the first one by its start symbol and
by a renaming. -/
theorem exists_rerooted (decls decls' : List Declaration) {g h : Grammar} {n : Symbol}
    (hg : Grammar.ofDeclarations decls = .ok g) (hh : Grammar.ofDeclarations decls' = .ok h)
    (hnames : ∀ name, name ∈ decls.map Declaration.lhs ↔ name ∈ decls'.map Declaration.lhs)
    (hrules : (decls.flatMap Declaration.rules).Perm (decls'.flatMap Declaration.rules))
    (hsize : g.names.size ≤ UInt32.size) (hn : n ∈ g.nonterminals)
    (hfirst : (decls'.map Declaration.lhs).head? = some (g.nameOf n)) :
    ∃ σ, Rerooted σ g n h := by
  have hmem := mem_names_iff hg hh hnames hrules
  have hsizes : g.names.size = h.names.size :=
    ((List.perm_ext_iff_of_nodup g.names.nodup h.names.nodup).mpr hmem).length_eq
  have hsize' : h.names.size ≤ UInt32.size := hsizes ▸ hsize
  have hdeclared := nonterminalNames_of_ofDeclarations hg hsize
  have hdeclared' := nonterminalNames_of_ofDeclarations hh hsize'
  have hperm : (g.withStart n hn).nonterminalNames.Perm g.nonterminalNames :=
    ((List.perm_cons_erase hn).map g.names.nameOf).symm
  have hσ : Renames (g.names.renameEquiv h.names hmem hsizes hsize') (g.withStart n hn) h := by
    refine renames_of_names (NameTable.name?_rename hmem hsizes hsize') hsizes.symm hsize ?_ ?_ ?_
    · refine hperm.trans ((List.perm_ext_iff_of_nodup g.nodup_nonterminalNames
        h.nodup_nonterminalNames).mpr fun name => ?_)
      rw [hdeclared, hdeclared', List.mem_eraseDups, List.mem_eraseDups, hnames name]
    · rw [hdeclared', head?_eraseDups, hfirst]
      rfl
    · have hread : (g.withStart n hn).ruleNames = g.ruleNames := rfl
      rwa [hread, ruleNames_of_ofDeclarations hg hsize, ruleNames_of_ofDeclarations hh hsize']
  exact ⟨_, (rerooted_withStart g hn).rename hσ⟩

/-- An optional `a` before `b`: the symbols are `S`, `N`, `b` and `a`, in this order. -/
def optionalBefore : Grammar :=
  { Draft.ofDeclarations [⟨"S", [["N", "b"]]⟩, ⟨"N", [["a"], ["ε"]]⟩] with
    declared := by decide }

/-- The same rules with `N` declared first: the symbols are `N`, `a`, `S` and `b`, in this
order. -/
def optionalAlone : Grammar :=
  { Draft.ofDeclarations [⟨"N", [["a"], ["ε"]]⟩, ⟨"S", [["N", "b"]]⟩] with
    declared := by decide }

/-- Sums of names with the tail of a sum, `R`, as their start symbol. -/
def sumTails : Grammar := sums.withStart (Symbol.ofNat 2) (by decide)

lemma rerooted_optionalAlone :
    ∃ σ, Rerooted σ optionalBefore (Symbol.ofNat 1) optionalAlone := by
  refine exists_rerooted [⟨"S", [["N", "b"]]⟩, ⟨"N", [["a"], ["ε"]]⟩]
    [⟨"N", [["a"], ["ε"]]⟩, ⟨"S", [["N", "b"]]⟩] (by decide) (by decide)
    (fun name => ?_) (by decide) (by decide +kernel) (by decide) (by decide)
  simp only [List.map_cons, List.map_nil, List.mem_cons, List.not_mem_nil]
  tauto

end Grammar

/-! ### Acceptance from an inner nonterminal -/

namespace Table

variable {σ : Symbol ≃ Symbol} {g h : Grammar} {n : Symbol} {words : List String}

/-- Without conflicts every declared nonterminal is predictable. -/
lemma predictable_of_isLl1 (hg : (ofGrammar g).isLl1 = true) {s : Symbol}
    (hs : s ∈ g.nonterminals) : (ofGrammar g).Predictable s :=
  (classes_eq_ll1_iff.mp (classes_of_isLl1 hg hs)).2

/-- What the grammar with the new start symbol accepts is replayed in the old one. -/
lemma exists_replays_of_rerooted (hσ : Grammar.Rerooted σ g n h)
    (hh : (ofGrammar h).isLl1 = true) {steps : List Step}
    (hparse : (ofGrammar h).parse? h.start words = some ⟨steps, none⟩) :
    ∃ steps', g.Replays [n] steps' [] ∧ words.map g.names.find? = (consumed steps').map some
      ∧ g.closing steps' = (h.closing steps).map σ.symm := by
  obtain ⟨hreplays, hwords, _⟩ :=
    (parse?_eq_accepted_iff (predictable_of_isLl1 hh h.start_mem)).mp hparse
  obtain ⟨steps', hreplays', hcons, hclosing⟩ := hσ.symm.replays hreplays
  rw [hσ.start, List.map_singleton, σ.symm_apply_apply] at hreplays'
  refine ⟨steps', hreplays', ?_, hclosing⟩
  rw [hcons]
  exact hσ.symm.map_find? hwords

/-- If the input may end after all that the new grammar expands at the end, then the old one
accepts as well. -/
lemma accepts_of_rerooted (hσ : Grammar.Rerooted σ g n h) (hg : (ofGrammar g).isLl1 = true)
    (hh : (ofGrammar h).isLl1 = true) {steps : List Step}
    (hparse : (ofGrammar h).parse? h.start words = some ⟨steps, none⟩)
    (hends : ∀ s, σ s ∈ h.closing steps → none ∈ g.follow.members s) :
    (ofGrammar g).Accepts n words := by
  obtain ⟨steps', hreplays, hwords, hclosing⟩ := exists_replays_of_rerooted hσ hh hparse
  have hn := predictable_of_isLl1 hg hσ.mem_nonterminals
  refine accepts_iff.mpr ⟨steps', (parse?_eq_accepted_iff hn).mpr
    ⟨hreplays, hwords, fun s hs => hends s ?_⟩⟩
  rw [hclosing] at hs
  obtain ⟨x, hx, rfl⟩ := List.mem_map.mp hs
  rwa [σ.apply_symm_apply]

/-- If the input may end after the inner nonterminal, it may end after all that the new
grammar expands at the end. -/
lemma none_mem_of_rerooted (hσ : Grammar.Rerooted σ g n h) (hh : (ofGrammar h).isLl1 = true)
    {steps : List Step} (hparse : (ofGrammar h).parse? h.start words = some ⟨steps, none⟩)
    (hend : none ∈ g.follow.members n) {s : Symbol} (hs : σ s ∈ h.closing steps) :
    none ∈ g.follow.members s := by
  obtain ⟨steps', hreplays, _, hclosing⟩ := exists_replays_of_rerooted hσ hh hparse
  have hs' : s ∈ g.closing steps' := by
    rw [hclosing]
    exact List.mem_map.mpr ⟨σ s, hs, σ.symm_apply_apply s⟩
  exact none_mem_of_closing hreplays rfl (Grammar.admits_of_none_mem hend none) s hs'

/-- What the old grammar accepts from the inner nonterminal, the new one accepts, and at the
end it expands only what the input may end after in the old one. -/
lemma exists_parse_of_accepts (hσ : Grammar.Rerooted σ g n h)
    (hg : (ofGrammar g).isLl1 = true) (hh : (ofGrammar h).isLl1 = true)
    (haccepts : (ofGrammar g).Accepts n words) :
    ∃ steps, (ofGrammar h).parse? h.start words = some ⟨steps, none⟩
      ∧ ∀ s, σ s ∈ h.closing steps → none ∈ g.follow.members s := by
  obtain ⟨steps, hparse⟩ := accepts_iff.mp haccepts
  obtain ⟨hreplays, hwords, hends⟩ :=
    (parse?_eq_accepted_iff (predictable_of_isLl1 hg hσ.mem_nonterminals)).mp hparse
  obtain ⟨steps', hreplays', hcons, hclosing⟩ := hσ.replays hreplays
  rw [List.map_singleton, ← hσ.start] at hreplays'
  refine ⟨steps', (parse?_eq_accepted_iff (predictable_of_isLl1 hh h.start_mem)).mpr
    ⟨hreplays', ?_, ?_⟩, fun s hs => hends s ?_⟩
  · rw [hcons]
    exact hσ.map_find? hwords
  · -- the new start symbol is one that the input may end after
    exact none_mem_of_closing hreplays' rfl
      (Grammar.admits_of_none_mem (FollowSets.none_mem_start h h.first) none)
  · rwa [hclosing, List.mem_map_of_injective σ.injective] at hs

/-- **Parsing from an inner nonterminal.** Let two grammars without conflicts have the same
rules and declared nonterminals, up to a renaming, and let the second one start with a
nonterminal of the first. Then the first accepts words from that nonterminal exactly if the
second accepts them by steps that expand, after the last word is read, only what the
input may end after in the first. If the input may end after the nonterminal itself, then
the two accept the same words. -/
theorem accepts_rerooted_iff (σ : Symbol ≃ Symbol) (g : Grammar) (n : Symbol) (h : Grammar)
    (hσ : Grammar.Rerooted σ g n h) (hg : (ofGrammar g).isLl1 = true)
    (hh : (ofGrammar h).isLl1 = true) (words : List String) :
    ((ofGrammar g).Accepts n words ↔
      ∃ r steps, (ofGrammar h).parse? h.start words = some r ∧ r.result = .ok steps
        ∧ ∀ s, σ s ∈ h.closing steps → none ∈ g.follow.members s)
    ∧ (none ∈ g.follow.members n →
        ((ofGrammar g).Accepts n words ↔ (ofGrammar h).Accepts h.start words)) := by
  refine ⟨⟨fun haccepts => ?_, ?_⟩, fun hend => ⟨fun haccepts => ?_, fun haccepts => ?_⟩⟩
  · obtain ⟨steps, hparse, hends⟩ := exists_parse_of_accepts hσ hg hh haccepts
    exact ⟨_, steps, hparse, rfl, hends⟩
  · rintro ⟨⟨steps, failure⟩, _, hparse, hok, hends⟩
    obtain ⟨rfl, rfl⟩ := Run.result_eq_ok_iff.mp hok
    exact accepts_of_rerooted hσ hg hh hparse hends
  · obtain ⟨steps, hparse, _⟩ := exists_parse_of_accepts hσ hg hh haccepts
    exact accepts_iff.mpr ⟨steps, hparse⟩
  · obtain ⟨steps, hparse⟩ := accepts_iff.mp haccepts
    exact accepts_of_rerooted hσ hg hh hparse fun s hs =>
      none_mem_of_rerooted hσ hh hparse hend hs

/-- The nonterminal `N` is parsed alone where nothing is left to be erased at the end,
although in the first grammar `b` has to follow it. After the tail of a sum the input may
end, so what it is to be parsed to by itself, it is parsed to in the grammar of sums. -/
theorem accepts_rerooted_iff_optional :
    (none ∉ Grammar.optionalBefore.follow.members (Symbol.ofNat 1)
      ∧ (ofGrammar Grammar.optionalBefore).Accepts (Symbol.ofNat 1) ["a"])
    ∧ none ∈ Grammar.sums.follow.members (Symbol.ofNat 2)
      ∧ (ofGrammar Grammar.sums).Accepts (Symbol.ofNat 2) ["+", "id"] := by
  have hll1 : (ofGrammar Grammar.optionalBefore).isLl1 = true
      ∧ (ofGrammar Grammar.optionalAlone).isLl1 = true
      ∧ (ofGrammar Grammar.sums).isLl1 = true ∧ (ofGrammar Grammar.sumTails).isLl1 = true := by
    decide +kernel
  have hends : none ∉ Grammar.optionalBefore.follow.members (Symbol.ofNat 1)
      ∧ none ∈ Grammar.sums.follow.members (Symbol.ofNat 2) := by decide +kernel
  have hparse : (ofGrammar Grammar.optionalAlone).parse? Grammar.optionalAlone.start ["a"]
      = some ⟨[.expand 0, .consume (Symbol.ofNat 1)], none⟩ := by
    rw [parse?_of_parseWithin 9 (by decide +kernel)]
    decide +kernel
  have hparse' : (ofGrammar Grammar.sumTails).parse? Grammar.sumTails.start ["+", "id"]
      = some ⟨[.expand 1, .consume (Symbol.ofNat 3), .expand 3, .consume (Symbol.ofNat 4),
          .expand 2], none⟩ := by
    rw [parse?_of_parseWithin 9 (by decide +kernel)]
    decide +kernel
  obtain ⟨hbefore, halone, hsums, htails⟩ := hll1
  obtain ⟨σ, hσ⟩ := Grammar.rerooted_optionalAlone
  refine ⟨⟨hends.1, ?_⟩, hends.2, ?_⟩
  · refine (accepts_rerooted_iff σ _ _ _ hσ hbefore halone ["a"]).1.mpr
      ⟨_, _, hparse, rfl, fun s hs => absurd hs ?_⟩
    exact List.not_mem_nil
  · refine ((accepts_rerooted_iff _ _ _ _ (Grammar.rerooted_withStart _ _) hsums htails
      ["+", "id"]).2 hends.2).mpr ?_
    exact accepts_iff.mpr ⟨_, hparse'⟩

/-- **The two parses do not always agree**: without words, `N` is erased where it is the
start symbol, but not where `b` has to follow it. -/
theorem rerooting_changes_acceptance :
    (∃ σ, Grammar.Rerooted σ Grammar.optionalBefore (Symbol.ofNat 1) Grammar.optionalAlone)
      ∧ (ofGrammar Grammar.optionalBefore).isLl1 = true
      ∧ (ofGrammar Grammar.optionalAlone).isLl1 = true
      ∧ ¬ (ofGrammar Grammar.optionalBefore).Accepts (Symbol.ofNat 1) []
      ∧ (ofGrammar Grammar.optionalAlone).Accepts Grammar.optionalAlone.start [] := by
  have hrejects : (ofGrammar Grammar.optionalBefore).parse? (Symbol.ofNat 1) []
      = some ⟨[], some ⟨.noProduction, some "N", none, 0⟩⟩ := by
    rw [parse?_of_parseWithin 9 (by decide +kernel)]
    decide +kernel
  have haccepts : (ofGrammar Grammar.optionalAlone).parse? Grammar.optionalAlone.start []
      = some ⟨[.expand 1], none⟩ := by
    rw [parse?_of_parseWithin 9 (by decide +kernel)]
    decide +kernel
  refine ⟨Grammar.rerooted_optionalAlone, by decide +kernel, by decide +kernel, fun h => ?_,
    accepts_iff.mpr ⟨_, haccepts⟩⟩
  obtain ⟨steps, hparse⟩ := accepts_iff.mp h
  cases hrejects.symm.trans hparse

end Table

end TopDown
