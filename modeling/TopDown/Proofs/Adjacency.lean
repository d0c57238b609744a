import TopDown.Proofs.Prediction

/-!
FOLLOW sets are what derivations say they are.

Two symbols that stand side by side in a derived string may come from distant
rules, with erased symbols in between. So the two directions are proved along
different lines: nothing enters a set but by the rules (`Follows`), and nothing
can be missing since what a string admits is kept when rules are applied to it
anywhere (`Admits`).

* `Grammar.Follows`: a lookahead comes after a symbol, by the rules that bring it
  there; `FollowSets.follows_of_mem` says that the sets hold nothing else.
* `Grammar.Follows.derives`: what comes after a symbol does so in a derived
  string.
* `Grammar.Admits.derives`: every derived string admits what the first string
  admits.
* `Grammar.Accessible`: the symbol occurs in a string that the start symbol
  derives.
* `FollowSets.get?_exact`: the set of a declared nonterminal holds a terminal
  exactly if a nonterminal derives a string in which the two are neighbours, and
  the end of the input exactly if the start symbol derives a string that ends
  with the nonterminal. If every nonterminal is accessible, the start symbol
  derives these strings too.
-/

namespace TopDown

namespace Grammar

variable {g : Grammar}

/-! ### What the rules bring behind a symbol -/

/-- The lookahead comes after the symbol: the input ends after the start symbol,
the rest of a right-hand side is made to begin with a terminal, or the rest is
erased and the lookahead comes after the left-hand side. -/
inductive Follows (g : Grammar) : Symbol → Lookahead → Prop
  | start : Follows g g.start none
  | rest {r : Rule} {p v : List Symbol} {s a : Symbol} (hr : r ∈ g.rules)
      (hrhs : r.rhs = p ++ s :: v) (ha : g.isTerminal a = true) (hv : g.Starts a v) :
      Follows g s (some a)
  | inherit {r : Rule} {p v : List Symbol} {s : Symbol} {x : Lookahead} (hr : r ∈ g.rules)
      (hrhs : r.rhs = p ++ s :: v) (hv : g.Nullable v) (hlhs : Follows g r.lhs x) :
      Follows g s x

/-- A lookahead beside a symbol in a derived string: the end of the input after
the last symbol of a string from the start symbol, or a terminal right after the
symbol in a string from any declared nonterminal. -/
def Beside (g : Grammar) (s : Symbol) : Lookahead → Prop
  | none => ∃ p, g.Derives [g.start] (p ++ [s])
  | some a => g.isTerminal a = true
      ∧ ∃ m ∈ g.nonterminals, ∃ p v, g.Derives [m] (p ++ s :: a :: v)

/-- Within a derived string a left-hand side is replaced by the part of its
right-hand side that is not erased. -/
lemma Derives.inherit {r : Rule} (hr : r ∈ g.rules) {p v : List Symbol} {s : Symbol}
    (hrhs : r.rhs = p ++ s :: v) (hv : g.Nullable v) {w u q : List Symbol}
    (h : g.Derives w (u ++ r.lhs :: q)) : g.Derives w ((u ++ p) ++ s :: q) := by
  have herase : g.Derives (u ++ (r.rhs ++ q)) ((u ++ p) ++ s :: q) := by
    have hctx := (nullable_iff.mp hv).context (u ++ (p ++ [s])) q
    simpa [hrhs] using hctx
  exact (h.trans (derives_of_rule hr u q)).trans herase

/-- **What comes after a symbol stands beside it in a derived string.** -/
theorem Follows.derives {s : Symbol} {x : Lookahead} (h : g.Follows s x) : g.Beside s x := by
  induction h with
  | start => exact ⟨[], Derives.refl _⟩
  | @rest r p v s a hr hrhs ha hv =>
      obtain ⟨v', hv'⟩ := starts_iff.mp hv
      refine ⟨ha, r.lhs, g.lhs_mem r hr, p, v', ?_⟩
      have hrule : g.Derives [r.lhs] (p ++ s :: v) := by
        simpa [hrhs] using derives_of_rule hr [] []
      have hrest : g.Derives (p ++ s :: v) (p ++ s :: a :: v') := by
        simpa using hv'.context (p ++ [s]) []
      exact hrule.trans hrest
  | @inherit r p v s x hr hrhs hv _ ih =>
      cases x with
      | none =>
          obtain ⟨u, hu⟩ := ih
          exact ⟨u ++ p, hu.inherit hr hrhs hv⟩
      | some a =>
          obtain ⟨ha, m, hm, u, q, hu⟩ := ih
          exact ⟨ha, m, hm, u ++ p, q, hu.inherit hr hrhs hv⟩

/-! ### What derived strings admit -/

/-- An end of a string admits what the string admits. -/
lemma Admits.of_append {x : Lookahead} {u v : List Symbol} (h : g.Admits x (u ++ v)) :
    g.Admits x v := by
  induction u with
  | nil => exact h
  | cons s u ih => exact ih h.2

/-- One rule applied anywhere keeps what is admitted. -/
lemma Admits.produces {x : Lookahead} {v w : List Symbol} (h : g.Admits x v)
    (hstep : g.Produces v w) : g.Admits x w := by
  obtain ⟨r, hr, u, q, rfl, rfl⟩ := hstep
  induction u with
  | nil => exact h.expand hr
  | cons s u ih =>
      refine ⟨fun hs hx => h.1 hs ?_, ih h.2⟩
      exact FirstSets.mem_ofString_of_derives (derives_of_rule hr u q) hx

/-- **A derived string admits what the first string admits.** -/
theorem Admits.derives {x : Lookahead} {v w : List Symbol} (h : g.Admits x v)
    (hvw : g.Derives v w) : g.Admits x w := by
  induction hvw with
  | refl => exact h
  | tail _ hstep ih => exact ih.produces hstep

/-! ### Accessible symbols -/

/-- The symbol occurs in a string that the start symbol derives. -/
def Accessible (g : Grammar) (s : Symbol) : Prop :=
  ∃ p v, g.Derives [g.start] (p ++ s :: v)

/-- What an accessible symbol derives occurs within a string that the start
symbol derives. -/
lemma Accessible.derives {m : Symbol} (hm : g.Accessible m) {w : List Symbol}
    (h : g.Derives [m] w) : ∃ p v, g.Derives [g.start] (p ++ (w ++ v)) := by
  obtain ⟨p, v, hpv⟩ := hm
  exact ⟨p, v, hpv.trans (h.context p v)⟩

/-- What is true of `E`, `T` and `R` is true of all nonterminals of the sums. -/
lemma forall_mem_sums {P : Symbol → Prop} (hE : P (Symbol.ofNat 0)) (hT : P (Symbol.ofNat 1))
    (hR : P (Symbol.ofNat 2)) : ∀ s ∈ sums.nonterminals, P s := by
  have hlist : sums.nonterminals = [Symbol.ofNat 0, Symbol.ofNat 2, Symbol.ofNat 1] := by
    decide
  rw [hlist]
  simp [hE, hT, hR]

lemma derives_sums : sums.Derives [Symbol.ofNat 0] [Symbol.ofNat 1, Symbol.ofNat 2] :=
  derives_of_rule (r := ⟨Symbol.ofNat 0, [Symbol.ofNat 1, Symbol.ofNat 2]⟩) (by decide) [] []

lemma accessible_sums : ∀ s ∈ sums.nonterminals, sums.Accessible s :=
  forall_mem_sums ⟨[], [], Derives.refl _⟩ ⟨[], [Symbol.ofNat 2], derives_sums⟩
    ⟨[Symbol.ofNat 1], [], derives_sums⟩

end Grammar

/-! ### The sets -/

namespace FollowSets

variable {g : Grammar}

/-- The sets hold only what the rules bring behind a symbol. -/
lemma follows_of_mem {s : Symbol} {x : Lookahead} (hx : x ∈ g.follow.members s) :
    g.Follows s x := by
  have hsound : ∀ s, ∀ x ∈ g.follow.members s, g.Follows s x := by
    refine settle_induction (P := fun h : FollowSets => ∀ s, ∀ x ∈ h.members s, g.Follows s x)
      (fun h hh s x hx => ?_) _ _ (fun s x hx => ?_)
    · obtain hold | ⟨_, r, hr, p, v, hrhs, hnew⟩ := mem_members_pass.mp hx
      · exact hh s x hold
      · obtain ⟨hne, hfirst⟩ | ⟨hnull, hlhs⟩ := mem_afterOccurrence.mp hnew
        · obtain ⟨a, rfl⟩ := Option.ne_none_iff_exists'.mp hne
          obtain ⟨ha, hstarts⟩ := FirstSets.some_mem_ofString_iff.mp hfirst
          exact Grammar.Follows.rest hr hrhs ha hstarts
        · exact Grammar.Follows.inherit hr hrhs
            (FirstSets.none_mem_ofString_iff.mp hnull) (hh r.lhs x hlhs)
    · obtain ⟨rfl, rfl⟩ := mem_members_initial.mp hx
      exact Grammar.Follows.start
  exact hsound s x hx

/-- The sets hold every lookahead that stands beside a symbol in a derived
string. -/
lemma mem_of_beside {s : Symbol} (hs : g.isTerminal s = false) {x : Lookahead}
    (h : g.Beside s x) : x ∈ g.follow.members s := by
  cases x with
  | none =>
      obtain ⟨p, hp⟩ := h
      have hadmits : g.Admits none (p ++ [s]) :=
        (Grammar.admits_of_none_mem (none_mem_start g g.first) none).derives hp
      exact hadmits.of_append.1 hs (FirstSets.mem_ofString_nil.mpr rfl)
  | some a =>
      obtain ⟨ha, m, _, p, v, hv⟩ := h
      have hadmits : g.Admits (some a) (p ++ s :: a :: v) :=
        (Grammar.admits_singleton a m).derives hv
      exact hadmits.of_append.1 hs ((FirstSets.mem_ofString_terminal ha).mpr rfl)

/-- A set holds exactly what stands beside the symbol in derived strings. -/
lemma mem_members_iff {s : Symbol} (hs : g.isTerminal s = false) {x : Lookahead} :
    x ∈ g.follow.members s ↔ g.Beside s x :=
  ⟨fun hx => (follows_of_mem hx).derives, mem_of_beside hs⟩

/-- Every declared nonterminal has a set. -/
lemma get?_eq_members {s : Symbol} (hs : s ∈ g.nonterminals) :
    g.follow.get? s = some (g.follow.members s) := by
  have hsome := ((within_ofGrammar g g.first).keys s).mpr hs
  obtain ⟨u, hu⟩ := Option.isSome_iff_exists.mp hsome
  rw [get?, members, LookaheadSets.members, hu, Option.getD_some]

/-- **FOLLOW sets are exactly the derivational ones.** Every declared nonterminal
has a set. It holds a terminal exactly if some declared nonterminal, accessible or
not, derives a string in which the terminal stands right after the nonterminal;
and it holds the end of the input exactly if the start symbol derives a string
that ends with the nonterminal. If all declared nonterminals are accessible, the
strings for the terminals can be derived from the start symbol as well. -/
theorem get?_exact (g : Grammar) :
    (∀ s ∈ g.nonterminals, ∃ u, g.follow.get? s = some u
      ∧ (∀ a, some a ∈ u ↔ g.isTerminal a = true
          ∧ ∃ m ∈ g.nonterminals, ∃ p v, g.Derives [m] (p ++ s :: a :: v))
      ∧ (none ∈ u ↔ ∃ p, g.Derives [g.start] (p ++ [s])))
    ∧ ((∀ m ∈ g.nonterminals, g.Accessible m) →
      ∀ s ∈ g.nonterminals, ∃ u, g.follow.get? s = some u
        ∧ ∀ a, some a ∈ u ↔ g.isTerminal a = true
          ∧ ∃ p v, g.Derives [g.start] (p ++ s :: a :: v)) := by
  have hexact : ∀ s ∈ g.nonterminals, ∀ x, x ∈ g.follow.members s ↔ g.Beside s x :=
    fun s hs x => mem_members_iff (Grammar.isTerminal_of_mem hs)
  refine ⟨fun s hs => ?_, fun hall s hs => ?_⟩
  · exact ⟨_, get?_eq_members hs, fun a => hexact s hs (some a), hexact s hs none⟩
  · refine ⟨_, get?_eq_members hs, fun a => (hexact s hs (some a)).trans ?_⟩
    constructor
    · rintro ⟨ha, m, hm, p, v, hv⟩
      obtain ⟨p', v', hstart⟩ := (hall m hm).derives hv
      exact ⟨ha, p' ++ p, v ++ v', by simpa using hstart⟩
    · rintro ⟨ha, p, v, hv⟩
      exact ⟨ha, g.start, g.start_mem, p, v, hv⟩

/-- `T` is not accessible, yet the string that it derives counts: `b` may follow `S`. -/
example :
    let g : Grammar :=
      { Draft.ofDeclarations [⟨"S", [["a"]]⟩, ⟨"T", [["S", "b"]]⟩] with declared := by decide }
    some (Symbol.ofNat 3) ∈ g.follow.members g.start := by
  decide +kernel

/-- After a summand may come a plus sign, so in a string derived from the start
symbol it does. -/
theorem get?_exact_sums :
    (∀ m ∈ Grammar.sums.nonterminals, Grammar.sums.Accessible m)
      ∧ Symbol.ofNat 1 ∈ Grammar.sums.nonterminals
      ∧ ∃ p v, Grammar.sums.Derives [Grammar.sums.start]
          (p ++ Symbol.ofNat 1 :: Symbol.ofNat 3 :: v) := by
  have hmem : Symbol.ofNat 1 ∈ Grammar.sums.nonterminals := by decide
  obtain ⟨u, hu, hiff⟩ := (get?_exact Grammar.sums).2 Grammar.accessible_sums _ hmem
  have hset : Grammar.sums.follow.get? (Symbol.ofNat 1)
      = some (OrderedSet.ofList [none, some (Symbol.ofNat 3)]) := by
    decide +kernel
  rw [hset] at hu
  cases hu
  exact ⟨Grammar.accessible_sums, hmem, ((hiff (Symbol.ofNat 3)).mp (by decide)).2⟩

end FollowSets

end TopDown
