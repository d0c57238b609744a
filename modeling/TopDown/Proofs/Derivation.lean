import Mathlib.Logic.Relation
import Mathlib.Tactic.Common
import TopDown.Grammar

/-!
Derivations: what the rules of a grammar make of a string.

* `Grammar.Produces`, `Grammar.Derives`: one rule applied anywhere in a string,
  and any number of rules one after the other.
* `Grammar.LeftDerives`: a leftmost derivation, by the places of the rules it
  uses.
* `Grammar.Nullable`: the string can be erased, as an inductive predicate that
  follows the erasing rules; `nullable_iff` ties it to `Derives`.
* `Grammar.Starts`: a symbol can be brought to the front of the string, again
  by the rules that bring it there; `starts_iff` ties it to `Derives`.
* `Grammar.sums`, `Grammar.listsOfSums`: two grammars at which statements are
  tried.
-/

namespace TopDown.Grammar

variable {g : Grammar}

/-! ### Rules applied anywhere -/

/-- One rule is applied to one occurrence of its left-hand side. -/
def Produces (g : Grammar) (w w' : List Symbol) : Prop :=
  ∃ r ∈ g.rules, ∃ u v, w = u ++ r.lhs :: v ∧ w' = u ++ (r.rhs ++ v)

/-- Rules are applied one after the other, none or more of them. -/
def Derives (g : Grammar) : List Symbol → List Symbol → Prop :=
  Relation.ReflTransGen g.Produces

lemma Derives.refl (w : List Symbol) : g.Derives w w := Relation.ReflTransGen.refl

lemma Derives.trans {u v w : List Symbol} (h : g.Derives u v) (h' : g.Derives v w) :
    g.Derives u w := Relation.ReflTransGen.trans h h'

lemma Derives.head {u v w : List Symbol} (h : g.Produces u v) (h' : g.Derives v w) :
    g.Derives u w := Relation.ReflTransGen.head h h'

/-- A rule derives its right-hand side in any surroundings. -/
lemma produces_of_rule {r : Rule} (hr : r ∈ g.rules) (u v : List Symbol) :
    g.Produces (u ++ r.lhs :: v) (u ++ (r.rhs ++ v)) := ⟨r, hr, u, v, rfl, rfl⟩

lemma derives_of_rule {r : Rule} (hr : r ∈ g.rules) (u v : List Symbol) :
    g.Derives (u ++ r.lhs :: v) (u ++ (r.rhs ++ v)) :=
  Relation.ReflTransGen.single (produces_of_rule hr u v)

lemma Produces.context {w w' : List Symbol} (h : g.Produces w w') (p q : List Symbol) :
    g.Produces (p ++ (w ++ q)) (p ++ (w' ++ q)) := by
  obtain ⟨r, hr, u, v, rfl, rfl⟩ := h
  exact ⟨r, hr, p ++ u, v ++ q, by simp, by simp⟩

/-- A derivation can be made in any surroundings. -/
lemma Derives.context {w w' : List Symbol} (h : g.Derives w w') (p q : List Symbol) :
    g.Derives (p ++ (w ++ q)) (p ++ (w' ++ q)) := by
  induction h with
  | refl => exact Derives.refl _
  | tail _ hstep ih => exact ih.trans (Relation.ReflTransGen.single (hstep.context p q))

/-- Derivations side by side. -/
lemma Derives.append {u u' v v' : List Symbol} (hu : g.Derives u u') (hv : g.Derives v v') :
    g.Derives (u ++ v) (u' ++ v') := by
  have h1 : g.Derives (u ++ v) (u' ++ v) := by simpa using hu.context [] v
  have h2 : g.Derives (u' ++ v) (u' ++ v') := by simpa using hv.context u' []
  exact h1.trans h2

/-- A declared nonterminal is no terminal. -/
lemma isTerminal_of_mem {s : Symbol} (hs : s ∈ g.nonterminals) : g.isTerminal s = false := by
  rw [Bool.eq_false_iff]
  intro h
  exact (isTerminal_iff.mp h).2 hs

/-- A left-hand side is no terminal. -/
lemma isTerminal_lhs {r : Rule} (hr : r ∈ g.rules) : g.isTerminal r.lhs = false :=
  isTerminal_of_mem (g.lhs_mem r hr)

lemma mem_rules_of_rule? {id : RuleId} {r : Rule} (h : g.rule? id = some r) : r ∈ g.rules :=
  List.mem_of_getElem? h

/-- A named symbol that is no terminal is declared. -/
lemma mem_nonterminals_of_rhs {r : Rule} {s : Symbol} (hr : r ∈ g.rules) (hs : s ∈ r.rhs)
    (hns : g.isTerminal s = false) : s ∈ g.nonterminals := by
  by_contra hmem
  have h := isTerminal_iff.mpr ⟨g.rhs_lt r hr s hs, hmem⟩
  rw [hns] at h
  exact Bool.false_ne_true h

/-! ### Leftmost derivations -/

/-- A leftmost derivation: each rule, given by its place, is applied to the
first symbol that is no terminal. -/
inductive LeftDerives (g : Grammar) : List RuleId → List Symbol → List Symbol → Prop
  | refl (w : List Symbol) : LeftDerives g [] w w
  | step {id : RuleId} {ids : List RuleId} {r : Rule} {u v w : List Symbol}
      (hid : g.rule? id = some r) (hu : ∀ s ∈ u, g.isTerminal s = true)
      (h : LeftDerives g ids (u ++ (r.rhs ++ v)) w) :
      LeftDerives g (id :: ids) (u ++ r.lhs :: v) w

/-- A leftmost derivation is a derivation. -/
lemma LeftDerives.derives {ids : List RuleId} {v w : List Symbol}
    (h : g.LeftDerives ids v w) : g.Derives v w := by
  induction h with
  | refl w => exact Derives.refl w
  | step hid _ _ ih => exact ih.head (produces_of_rule (mem_rules_of_rule? hid) _ _)

/-! ### Erasing a string -/

/-- Every symbol of the string is erased by rules. -/
inductive Nullable (g : Grammar) : List Symbol → Prop
  | nil : Nullable g []
  | cons {r : Rule} {w : List Symbol} (hr : r ∈ g.rules) (hrhs : Nullable g r.rhs)
      (hw : Nullable g w) : Nullable g (r.lhs :: w)

lemma Nullable.append {u v : List Symbol} (hu : g.Nullable u) (hv : g.Nullable v) :
    g.Nullable (u ++ v) := by
  induction hu with
  | nil => exact hv
  | cons hr hrhs _ _ ih => exact Nullable.cons hr hrhs ih

lemma Nullable.of_append {u v : List Symbol} (h : g.Nullable (u ++ v)) :
    g.Nullable u ∧ g.Nullable v := by
  induction u with
  | nil => exact ⟨Nullable.nil, h⟩
  | cons s u ih =>
      cases h with
      | cons hr hrhs hw => exact ⟨Nullable.cons hr hrhs (ih hw).1, (ih hw).2⟩

lemma Nullable.head {s : Symbol} {w : List Symbol} (h : g.Nullable (s :: w)) :
    ∃ r ∈ g.rules, r.lhs = s ∧ g.Nullable r.rhs := by
  cases h with
  | cons hr hrhs _ => exact ⟨_, hr, rfl, hrhs⟩

/-- No terminal is erased. -/
lemma Nullable.isTerminal {w : List Symbol} (h : g.Nullable w) :
    ∀ s ∈ w, g.isTerminal s = false := by
  induction h with
  | nil => exact fun s hs => absurd hs List.not_mem_nil
  | cons hr _ _ _ ih => exact List.forall_mem_cons.mpr ⟨isTerminal_lhs hr, ih⟩

/-- **A string is erased exactly when it derives the empty string.** -/
theorem nullable_iff {w : List Symbol} : g.Nullable w ↔ g.Derives w [] := by
  constructor
  · intro h
    induction h with
    | nil => exact Derives.refl []
    | @cons r w hr _ _ ihr ihw =>
        have h1 : g.Derives (r.rhs ++ w) [] := by simpa using ihr.append ihw
        exact h1.head (produces_of_rule hr [] w)
  · intro h
    induction h using Relation.ReflTransGen.head_induction_on with
    | refl => exact Nullable.nil
    | head hstep _ ih =>
        obtain ⟨r, hr, u, v, rfl, rfl⟩ := hstep
        obtain ⟨hu, hrv⟩ := ih.of_append
        obtain ⟨hrhs, hv⟩ := hrv.of_append
        exact hu.append (Nullable.cons hr hrhs hv)

/-! ### Bringing a symbol to the front -/

/-- The symbol `a` can be brought to the front of the string: it stands there,
or a rule for the first symbol brings it there, or the first symbol is erased
and the rest is treated so. -/
inductive Starts (g : Grammar) (a : Symbol) : List Symbol → Prop
  | here (w : List Symbol) : Starts g a (a :: w)
  | expand {r : Rule} {w : List Symbol} (hr : r ∈ g.rules) (hrhs : Starts g a r.rhs) :
      Starts g a (r.lhs :: w)
  | skip {s : Symbol} {w : List Symbol} (hs : g.Nullable [s]) (hw : Starts g a w) :
      Starts g a (s :: w)

lemma Starts.append_right {a : Symbol} {u : List Symbol} (h : g.Starts a u)
    (v : List Symbol) : g.Starts a (u ++ v) := by
  induction h with
  | here w => exact Starts.here _
  | expand hr hrhs _ => exact Starts.expand hr hrhs
  | skip hs _ ih => exact Starts.skip hs ih

lemma Starts.append_left {a : Symbol} {u v : List Symbol} (hu : g.Nullable u)
    (hv : g.Starts a v) : g.Starts a (u ++ v) := by
  induction hu with
  | nil => exact hv
  | cons hr hrhs _ _ ih => exact Starts.skip (Nullable.cons hr hrhs Nullable.nil) ih

lemma Starts.of_append {a : Symbol} {u v : List Symbol} (h : g.Starts a (u ++ v)) :
    g.Starts a u ∨ g.Nullable u ∧ g.Starts a v := by
  induction u with
  | nil => exact .inr ⟨Nullable.nil, h⟩
  | cons s u ih =>
      cases h with
      | here => exact .inl (Starts.here _)
      | expand hr hrhs => exact .inl (Starts.expand hr hrhs)
      | skip hs hw =>
          obtain h | ⟨hu, hv⟩ := ih hw
          · exact .inl (Starts.skip hs h)
          · exact .inr ⟨hs.append hu, hv⟩

/-- **A symbol is brought to the front exactly when a string that begins with
it is derived.** -/
theorem starts_iff {a : Symbol} {w : List Symbol} :
    g.Starts a w ↔ ∃ v, g.Derives w (a :: v) := by
  constructor
  · intro h
    induction h with
    | here w => exact ⟨w, Derives.refl _⟩
    | @expand r w hr _ ih =>
        obtain ⟨v, hv⟩ := ih
        exact ⟨v ++ w, (hv.append (Derives.refl w)).head (produces_of_rule hr [] w)⟩
    | @skip s w hs _ ih =>
        obtain ⟨v, hv⟩ := ih
        exact ⟨v, by simpa using (nullable_iff.mp hs).append hv⟩
  · rintro ⟨v, h⟩
    induction h using Relation.ReflTransGen.head_induction_on with
    | refl => exact Starts.here v
    | head hstep _ ih =>
        obtain ⟨r, hr, u, v, rfl, rfl⟩ := hstep
        obtain hu | ⟨hu, hrv⟩ := ih.of_append
        · exact hu.append_right _
        · refine Starts.append_left hu ?_
          obtain hrhs | ⟨hrhs, hv⟩ := hrv.of_append
          · exact Starts.expand hr hrhs
          · exact Starts.skip (Nullable.cons hr hrhs Nullable.nil) hv

/-! ### Examples -/

/-- Sums of names: the symbols are `E`, `T`, `R`, `+` and `id`, in this
order. -/
def sums : Grammar :=
  { Draft.ofDeclarations
      [⟨"E", [["T", "R"]]⟩, ⟨"R", [["+", "T", "R"], ["ε"]]⟩, ⟨"T", [["id"]]⟩] with
    declared := by decide }

/-- Sums separated by semicolons, whose list is left-recursive: the symbols are
`L`, `;`, `E`, `T`, `R`, `+` and `id`, in this order. -/
def listsOfSums : Grammar :=
  { Draft.ofDeclarations
      [⟨"L", [["L", ";", "E"], ["E"]]⟩, ⟨"E", [["T", "R"]]⟩, ⟨"R", [["+", "T", "R"], ["ε"]]⟩,
        ⟨"T", [["id"]]⟩] with
    declared := by decide }

end TopDown.Grammar
