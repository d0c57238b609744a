import Mathlib.Order.Bounds.Defs
import Mathlib.Order.Interval.Set.Defs
import TopDown.Proofs.FollowSets
import TopDown.Proofs.Settling

/-!
FIRST and FOLLOW sets are the least sets that their passes leave alone.

Sets are ordered symbol by symbol, a symbol without an entry having no lookaheads. More
nullable symbols let the scan of a string run on further, so more sets can only add to what
it finds: this is what makes the passes monotone, whatever the sets.

* `FirstSets.mem_ofString_mono`: the scan of a string, one lookahead at a time.
* `FirstSets.mem_members_pass_mono`, `FollowSets.mem_members_pass_mono`: the same for a
  pass; `FirstSets.pass_mono` and `FollowSets.pass_mono` say it of the order.
* `FirstSets.isLeast_ofGrammar`, `FollowSets.isLeast_ofGrammar`: the sets of a grammar are
  the least that a pass does not add to, and that let the input end after the start symbol.
* `FirstSets.exists_settles`, `FollowSets.exists_settles`: passes lead there from anywhere
  in between, not from the initial sets only.
* `Grammar.sets_least`: all of it together.
-/

namespace TopDown

namespace LookaheadSets

/-- Sets are ordered by what they hold for each symbol. -/
instance : Preorder LookaheadSets where
  le m n := ∀ s, ∀ x ∈ members m s, x ∈ members n s
  le_refl _ _ _ hx := hx
  le_trans _ _ _ h h' s x hx := h' s x (h s x hx)

variable {m n : LookaheadSets} {K : List Symbol} {U : List Lookahead}

/-- Sets with the same keys are equal if each is below the other. -/
lemma Within.eq_of_le_of_ge (hm : Within m K U) (hn : Within n K U) (h : m ≤ n)
    (h' : n ≤ m) : m = n :=
  ext_members (fun s => (hm.keys s).trans (hn.keys s).symm) fun s =>
    OrderedSet.ext_mem fun x => ⟨h s x, h' s x⟩

/-- What is below sets within bounds is within them, if it has the keys. -/
lemma Within.of_le (hn : Within n K U) (hkeys : ∀ s, (m.get? s).isSome ↔ s ∈ K) (h : m ≤ n) :
    Within m K U :=
  ⟨hkeys, fun s x hx => hn.range s x (h s x hx)⟩

end LookaheadSets

/-! ### FIRST sets -/

namespace FirstSets

variable {g : Grammar} {f f' : FirstSets} {isTerminal : Symbol → Bool}

/-- FIRST sets are ordered by what they hold. -/
instance : Preorder FirstSets := Preorder.lift FirstSets.sets

/-- Whatever the scan of a string finds, it finds with sets that hold as many nullable
symbols and have what is found wherever it was. -/
lemma mem_ofString_mono {x : Lookahead}
    (hnull : ∀ s, none ∈ f.members s → none ∈ f'.members s)
    (hx : ∀ s, x ∈ f.members s → x ∈ f'.members s) {w : List Symbol}
    (h : x ∈ f.ofString isTerminal w) : x ∈ f'.ofString isTerminal w := by
  induction w with
  | nil => exact mem_ofString_nil.mpr (mem_ofString_nil.mp h)
  | cons s w ih =>
      cases hs : isTerminal s with
      | true => exact (mem_ofString_terminal hs).mpr ((mem_ofString_terminal hs).mp h)
      | false =>
          rw [mem_ofString_cons hs] at h ⊢
          exact h.imp (fun h => ⟨h.1, hx s h.2⟩) fun h => ⟨hnull s h.1, ih h.2⟩

/-- A pass spreads a lookahead no less if there are no fewer nullable symbols and the
lookahead is wherever it was. -/
lemma mem_members_pass_mono {x : Lookahead}
    (hnull : ∀ s, none ∈ f.members s → none ∈ f'.members s)
    (hx : ∀ s, x ∈ f.members s → x ∈ f'.members s) {s : Symbol}
    (h : x ∈ (pass g f).members s) : x ∈ (pass g f').members s := by
  rw [mem_members_pass] at h ⊢
  refine h.imp (hx s) ?_
  rintro ⟨r, hr, hlhs, hrhs⟩
  exact ⟨r, hr, hlhs, mem_ofString_mono hnull hx hrhs⟩

lemma le_pass (g : Grammar) (f : FirstSets) : f ≤ pass g f :=
  fun _ _ hx => mem_members_pass.mpr (.inl hx)

lemma pass_mono (g : Grammar) : Monotone (pass g) :=
  fun _ _ h _ _ hx => mem_members_pass_mono (h · none) (h · _) hx

lemma initial_le (g : Grammar) (f : FirstSets) : initial g ≤ f := by
  intro s x hx
  have hempty : (initial g).sets.members s = ∅ := members_initial s
  rw [hempty] at hx
  exact absurd hx (OrderedSet.not_mem_empty x)

/-- **The FIRST sets of a grammar are the least that a pass does not add to.** -/
theorem isLeast_ofGrammar (g : Grammar) : IsLeast {f | pass g f ≤ f} (ofGrammar g) :=
  ⟨(pass_ofGrammar g).le, fun f hf => settle_le (pass_mono g) (initial_le g f) hf _⟩

/-- Passes lead to the FIRST sets of a grammar from all sets below them that have the same
keys. -/
lemma exists_settles (hkeys : ∀ s, (f.get? s).isSome ↔ s ∈ g.nonterminals)
    (hf : f ∈ Set.Icc (initial g) (ofGrammar g)) :
    ∃ p, Settles (pass g) f ⟨ofGrammar g, p⟩ := by
  have hwithin := within_ofGrammar g
  refine exists_settles_of_between (pass_mono g)
    (P := fun f : FirstSets => f.sets.Within g.nonterminals (candidates g))
    (fun _ => within_pass) (fun x hx hle hge => ?_) (pass_ofGrammar g)
    (value_settle _ _).symm (hwithin.of_le hkeys hf.2) hf.1 hf.2
  exact sets_injective (hx.eq_of_le_of_ge hwithin hle hge)

end FirstSets

/-! ### FOLLOW sets -/

namespace FollowSets

variable {g : Grammar} {f f' : FirstSets} {h h' : FollowSets}

/-- FOLLOW sets are ordered by what they hold. -/
instance : Preorder FollowSets := Preorder.lift FollowSets.sets

/-- A pass spreads a lookahead no less if the FIRST sets are no less and the lookahead is
wherever it was. -/
lemma mem_members_pass_mono {x : Lookahead} (hf : f ≤ f')
    (hx : ∀ s, x ∈ h.members s → x ∈ h'.members s) {s : Symbol}
    (hs : x ∈ (pass g f h).members s) : x ∈ (pass g f' h').members s := by
  have hstring : ∀ {y : Lookahead} {v : List Symbol}, y ∈ f.ofString g.isTerminal v →
      y ∈ f'.ofString g.isTerminal v :=
    fun {y _} => FirstSets.mem_ofString_mono (hf · none) (hf · y)
  rw [mem_members_pass] at hs ⊢
  refine hs.imp (hx s) ?_
  rintro ⟨hns, r, hr, p, v, hrhs, hv⟩
  rw [mem_afterOccurrence] at hv
  refine ⟨hns, r, hr, p, v, hrhs, mem_afterOccurrence.mpr ?_⟩
  exact hv.imp (fun hv => ⟨hv.1, hstring hv.2⟩) fun hv => ⟨hstring hv.1, hx r.lhs hv.2⟩

lemma le_pass (g : Grammar) (f : FirstSets) (h : FollowSets) : h ≤ pass g f h :=
  fun _ _ hx => mem_members_pass.mpr (.inl hx)

/-- A pass is monotone in both kinds of sets. -/
lemma pass_le_pass (g : Grammar) (hf : f ≤ f') (hh : h ≤ h') : pass g f h ≤ pass g f' h' :=
  fun _ x hx => mem_members_pass_mono hf (hh · x) hx

lemma pass_mono (g : Grammar) (f : FirstSets) : Monotone (pass g f) :=
  fun _ _ => pass_le_pass g le_rfl

/-- The initial sets are below all that let the input end after the start symbol. -/
lemma initial_le_iff : initial g ≤ h ↔ none ∈ h.members g.start := by
  refine ⟨fun hle => hle _ _ (mem_members_initial.mpr ⟨rfl, rfl⟩), fun hstart s x hx => ?_⟩
  obtain ⟨rfl, rfl⟩ := mem_members_initial.mp hx
  exact hstart

/-- **The FOLLOW sets of a grammar are the least that a pass does not add to** and that let
the input end after the start symbol, whatever the FIRST sets. -/
theorem isLeast_ofGrammar (g : Grammar) (f : FirstSets) :
    IsLeast {h | none ∈ h.members g.start ∧ pass g f h ≤ h} (ofGrammar g f) :=
  ⟨⟨none_mem_start g f, (pass_ofGrammar g f).le⟩,
    fun _ hh => settle_le (pass_mono g f) (initial_le_iff.mpr hh.1) hh.2 _⟩

/-- Larger FIRST sets give larger FOLLOW sets. -/
lemma ofGrammar_mono (g : Grammar) : Monotone (ofGrammar g) := by
  intro f f' hf
  refine (isLeast_ofGrammar g f).2 ⟨none_mem_start g f', ?_⟩
  calc pass g f (ofGrammar g f') ≤ pass g f' (ofGrammar g f') := pass_le_pass g hf le_rfl
    _ = ofGrammar g f' := pass_ofGrammar g f'

/-- Passes lead to the FOLLOW sets of a grammar from all sets between the initial ones and
them that have the same keys. -/
lemma exists_settles (hkeys : ∀ s, (h.get? s).isSome ↔ s ∈ g.nonterminals)
    (hh : h ∈ Set.Icc (initial g) (ofGrammar g f)) :
    ∃ p, Settles (pass g f) h ⟨ofGrammar g f, p⟩ := by
  have hwithin := within_ofGrammar g f
  refine exists_settles_of_between (pass_mono g f)
    (P := fun h : FollowSets => h.sets.Within g.nonterminals (candidates g f))
    (fun _ => within_pass) (fun x hx hle hge => ?_) (pass_ofGrammar g f)
    (value_settle _ _).symm (hwithin.of_le hkeys hh.2) hh.1 hh.2
  exact sets_injective (hx.eq_of_le_of_ge hwithin hle hge)

end FollowSets

/-- **The passes are monotone, and the sets of a grammar are least.** For any sets, a pass
only adds, and adds no less to larger sets. The FIRST sets of a grammar are not changed by a
pass, and are the least to which a pass does not add. The FOLLOW sets are the same among the
sets that let the input end after the start symbol, for any FIRST sets, and are larger for
larger ones. Passes lead there from all sets that have the declared nonterminals as keys and
lie between the initial sets and those of the grammar. -/
theorem Grammar.sets_least (g : Grammar) :
    (∀ f f' : FirstSets, f ≤ f' →
        f ≤ FirstSets.pass g f ∧ FirstSets.pass g f ≤ FirstSets.pass g f')
    ∧ (∀ (f f' : FirstSets) (h h' : FollowSets), f ≤ f' → h ≤ h' →
        h ≤ FollowSets.pass g f h ∧ FollowSets.pass g f h ≤ FollowSets.pass g f' h')
    ∧ (FirstSets.pass g (FirstSets.ofGrammar g) = FirstSets.ofGrammar g
      ∧ ∀ f, FirstSets.pass g f ≤ f → FirstSets.ofGrammar g ≤ f)
    ∧ (∀ f, FollowSets.pass g f (FollowSets.ofGrammar g f) = FollowSets.ofGrammar g f
      ∧ none ∈ (FollowSets.ofGrammar g f).members g.start
      ∧ ∀ h : FollowSets, none ∈ h.members g.start → FollowSets.pass g f h ≤ h →
          FollowSets.ofGrammar g f ≤ h)
    ∧ (∀ f f' : FirstSets, f ≤ f' → FollowSets.ofGrammar g f ≤ FollowSets.ofGrammar g f')
    ∧ (∀ f : FirstSets, (∀ s, (f.get? s).isSome ↔ s ∈ g.nonterminals) →
        FirstSets.initial g ≤ f → f ≤ FirstSets.ofGrammar g →
        ∃ p, Settles (FirstSets.pass g) f ⟨FirstSets.ofGrammar g, p⟩)
    ∧ ∀ (f : FirstSets) (h : FollowSets), (∀ s, (h.get? s).isSome ↔ s ∈ g.nonterminals) →
        FollowSets.initial g ≤ h → h ≤ FollowSets.ofGrammar g f →
        ∃ p, Settles (FollowSets.pass g f) h ⟨FollowSets.ofGrammar g f, p⟩ := by
  refine ⟨?_, ?_, ?_, ?_, ?_, ?_, ?_⟩
  · exact fun f f' hf => ⟨FirstSets.le_pass g f, FirstSets.pass_mono g hf⟩
  · exact fun f f' h h' hf hh => ⟨FollowSets.le_pass g f h, FollowSets.pass_le_pass g hf hh⟩
  · exact ⟨FirstSets.pass_ofGrammar g, fun f hf => (FirstSets.isLeast_ofGrammar g).2 hf⟩
  · exact fun f => ⟨FollowSets.pass_ofGrammar g f, FollowSets.none_mem_start g f,
      fun h hstart hh => (FollowSets.isLeast_ofGrammar g f).2 ⟨hstart, hh⟩⟩
  · exact fun f f' hf => FollowSets.ofGrammar_mono g hf
  · exact fun f hkeys hinitial hle => FirstSets.exists_settles hkeys ⟨hinitial, hle⟩
  · exact fun f h hkeys hinitial hle => FollowSets.exists_settles hkeys ⟨hinitial, hle⟩

/-- One pass over the empty FIRST sets of the sums leads to sets strictly in between. Passes
lead on from there, and for these sets, too, from FOLLOW sets in between; those are below
the FOLLOW sets for the FIRST sets of the grammar. -/
theorem Grammar.sets_least_sums :
    FirstSets.pass sums (FirstSets.initial sums) ≠ FirstSets.initial sums
      ∧ FirstSets.pass sums (FirstSets.initial sums) ≠ FirstSets.ofGrammar sums
      ∧ (∃ p, Settles (FirstSets.pass sums) (FirstSets.pass sums (FirstSets.initial sums))
          ⟨FirstSets.ofGrammar sums, p⟩)
      ∧ FollowSets.ofGrammar sums (FirstSets.pass sums (FirstSets.initial sums))
          ≤ FollowSets.ofGrammar sums (FirstSets.ofGrammar sums)
      ∧ ∃ p, Settles (FollowSets.pass sums (FirstSets.pass sums (FirstSets.initial sums)))
          (FollowSets.pass sums (FirstSets.pass sums (FirstSets.initial sums))
            (FollowSets.initial sums))
          ⟨FollowSets.ofGrammar sums (FirstSets.pass sums (FirstSets.initial sums)), p⟩ := by
  obtain ⟨hfirst, hfollow, ⟨hfixed, -⟩, hends, hlarger, hlead, hleadFollow⟩ :=
    sets_least sums
  have hbelow : FirstSets.initial sums ≤ FirstSets.ofGrammar sums := FirstSets.initial_le _ _
  have hpass := (hfirst _ _ hbelow).2
  rw [hfixed] at hpass
  have hkeys := (FirstSets.within_pass (FirstSets.within_initial (g := sums))).keys
  refine ⟨by decide +kernel, by decide +kernel, ?_, hlarger _ _ hpass, ?_⟩
  · exact hlead _ hkeys (hfirst _ _ hbelow).1 hpass
  · obtain ⟨hfixedFollow, hstart, -⟩ :=
      hends (FirstSets.pass sums (FirstSets.initial sums))
    have hbelowFollow := FollowSets.initial_le_iff.mpr hstart
    have hpassFollow := (hfollow (FirstSets.pass sums (FirstSets.initial sums)) _ _ _ le_rfl
      hbelowFollow).2
    rw [hfixedFollow] at hpassFollow
    have hkeysFollow := (FollowSets.within_pass (FollowSets.within_initial
      (f := FirstSets.pass sums (FirstSets.initial sums)) (g := sums))).keys
    refine hleadFollow _ _ hkeysFollow ?_ hpassFollow
    exact (hfollow _ _ _ _ le_rfl hbelowFollow).1

end TopDown
