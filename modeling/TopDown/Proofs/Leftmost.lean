import TopDown.Proofs.Adjacency
import TopDown.Proofs.Replay

/-!
Leftmost derivations out of arbitrary ones.

* `Grammar.Replays.delay`: a rule that is applied somewhere in a string can wait
  until its left-hand side is the first symbol; so terminals that a derived string
  begins with are matched by a replay (`Derives.replays_append`), terminals that are
  derived at all by a replay to the end (`Derives.replays`), and in front of any other
  symbols by a leftmost derivation (`exists_leftDerives`).
* `Grammar.Productive`: the symbol derives terminals; if all declared nonterminals
  do, so does every string of named symbols (`exists_terminals`).
* `Grammar.LeftContext`: a leftmost derivation from the start symbol comes to a
  string in which only terminals stand before the symbol.
* `Grammar.exists_leftContext`, `Grammar.Follows.exists_leftContext`: an accessible
  symbol comes to stand so, and if a lookahead follows the symbol, then before
  symbols that derive terminals which begin with the lookahead.
-/

namespace TopDown.Grammar

variable {g : Grammar}

/-! ### Rules in their turn -/

/-- What stands behind the replayed string is left as it is. -/
lemma Replays.append_right {v w : List Symbol} {steps : List Step} (h : g.Replays v steps w)
    (q : List Symbol) : g.Replays (v ++ q) steps (w ++ q) := by
  induction h with
  | done w => exact Replays.done _
  | expand hid _ ih =>
      rw [List.append_assoc] at ih
      exact Replays.expand hid ih
  | consume ha _ ih => exact Replays.consume ha ih

/-- A rule that is applied behind other symbols can wait until these are matched, or is
still to be applied when the replay ends before that. -/
lemma Replays.delay {id : RuleId} {r : Rule} (hid : g.rule? id = some r) {q w : List Symbol} :
    ∀ (steps : List Step) (u : List Symbol), g.Replays (u ++ (r.rhs ++ q)) steps w →
      ∃ steps' w', g.Replays (u ++ r.lhs :: q) steps' w' ∧ consumed steps' = consumed steps
        ∧ g.Derives w' w
  | steps, [], h => ⟨.expand id :: steps, w, Replays.expand hid h, rfl, Derives.refl w⟩
  | [], s :: u, h => by
      cases h
      exact ⟨[], _, Replays.done _, rfl, derives_of_rule (mem_rules_of_rule? hid) (s :: u) q⟩
  | step :: steps, _ :: u, h => by
      rw [List.cons_append] at h ⊢
      cases h with
      | @expand id' r' _ _ _ hid' h =>
          rw [← List.append_assoc] at h
          obtain ⟨steps', w', hreplay, hcons, hw⟩ := delay hid steps (r'.rhs ++ u) h
          rw [List.append_assoc] at hreplay
          exact ⟨.expand id' :: steps', w', Replays.expand hid' hreplay, hcons, hw⟩
      | consume ha h =>
          obtain ⟨steps', w', hreplay, hcons, hw⟩ := delay hid steps u h
          exact ⟨.consume _ :: steps', w', Replays.consume ha hreplay,
            congrArg (_ :: ·) hcons, hw⟩

/-- **Terminals that a derived string begins with are matched by a replay**, and what
the replay leaves derives the rest. -/
theorem Derives.replays_append {v w q : List Symbol} (h : g.Derives v (w ++ q))
    (hw : ∀ a ∈ w, g.isTerminal a = true) :
    ∃ steps q', g.Replays v steps q' ∧ consumed steps = w ∧ g.Derives q' q := by
  induction h using Relation.ReflTransGen.head_induction_on with
  | refl =>
      have hreplay := replays_terminals hw (Replays.done q)
      exact ⟨_, q, hreplay, by simp, Derives.refl q⟩
  | head hstep _ ih =>
      obtain ⟨r, hr, u, v, rfl, rfl⟩ := hstep
      obtain ⟨id, hid⟩ := List.mem_iff_getElem?.mp hr
      obtain ⟨steps, q', hreplay, rfl, hq⟩ := ih
      obtain ⟨steps', q'', hreplay', hcons, hq'⟩ := Replays.delay hid steps u hreplay
      exact ⟨steps', q'', hreplay', hcons, hq'.trans hq⟩

/-- What is erased is erased by a replay. -/
lemma Nullable.replays {w : List Symbol} (h : g.Nullable w) :
    ∃ steps, g.Replays w steps [] ∧ consumed steps = [] := by
  induction h with
  | nil => exact ⟨[], Replays.done [], rfl⟩
  | @cons r w hr _ _ ihr ihw =>
      obtain ⟨id, hid⟩ := List.mem_iff_getElem?.mp hr
      obtain ⟨steps, hsteps, hcons⟩ := ihr
      obtain ⟨steps', hsteps', hcons'⟩ := ihw
      refine ⟨.expand id :: (steps ++ steps'), ?_, by simp [consumed, hcons, hcons']⟩
      exact Replays.expand hid ((hsteps.append_right w).trans hsteps')

/-- **Terminals that are derived are derived by a replay.** -/
theorem Derives.replays {v w : List Symbol} (h : g.Derives v w)
    (hw : ∀ a ∈ w, g.isTerminal a = true) :
    ∃ steps, g.Replays v steps [] ∧ consumed steps = w := by
  obtain ⟨steps, q, hreplay, hcons, hq⟩ :=
    Derives.replays_append (q := []) (by rwa [List.append_nil]) hw
  obtain ⟨steps', hreplay', hcons'⟩ := (nullable_iff.mpr hq).replays
  exact ⟨steps ++ steps', hreplay.trans hreplay', by simp [hcons, hcons']⟩

lemma LeftDerives.trans {ids ids' : List RuleId} {u v w : List Symbol}
    (h : g.LeftDerives ids u v) (h' : g.LeftDerives ids' v w) :
    g.LeftDerives (ids ++ ids') u w := by
  induction h with
  | refl => exact h'
  | step hid hu _ ih => exact LeftDerives.step hid hu (ih h')

/-- Behind terminals, and before any other symbols, terminals are derived by a
leftmost derivation. -/
lemma exists_leftDerives {u p z : List Symbol} (hu : ∀ a ∈ u, g.isTerminal a = true)
    (hz : ∀ a ∈ z, g.isTerminal a = true) (h : g.Derives p z) (q : List Symbol) :
    ∃ ids, g.LeftDerives ids (u ++ (p ++ q)) ((u ++ z) ++ q) := by
  obtain ⟨steps, hreplay, rfl⟩ := h.replays hz
  have hleft := (hreplay.append_right q).leftDerives_append u hu
  rw [List.nil_append] at hleft
  rw [List.append_assoc u]
  exact ⟨_, hleft⟩

/-! ### Productive symbols -/

/-- The symbol derives a string of terminals. -/
def Productive (g : Grammar) (s : Symbol) : Prop :=
  ∃ w, (∀ a ∈ w, g.isTerminal a = true) ∧ g.Derives [s] w

/-- Derivations keep to the named symbols. -/
lemma Derives.named {v w : List Symbol} (h : g.Derives v w)
    (hv : ∀ s ∈ v, s.index < g.names.size) : ∀ s ∈ w, s.index < g.names.size := by
  induction h with
  | refl => exact hv
  | tail _ hstep ih =>
      obtain ⟨r, hr, u, q, rfl, rfl⟩ := hstep
      simp only [List.forall_mem_append, List.forall_mem_cons] at ih ⊢
      exact ⟨ih.1, g.rhs_lt r hr, ih.2.2⟩

/-- If the declared nonterminals are productive, then every string of named symbols
derives terminals. -/
lemma exists_terminals (hprod : ∀ s ∈ g.nonterminals, g.Productive s) {w : List Symbol}
    (hw : ∀ s ∈ w, s.index < g.names.size) :
    ∃ z, (∀ a ∈ z, g.isTerminal a = true) ∧ g.Derives w z := by
  induction w with
  | nil => exact ⟨[], by simp, Derives.refl []⟩
  | cons s w ih =>
      obtain ⟨hs, hw'⟩ := List.forall_mem_cons.mp hw
      have hhead : g.Productive s := by
        by_cases hmem : s ∈ g.nonterminals
        · exact hprod s hmem
        · exact ⟨[s], List.forall_mem_singleton.mpr (isTerminal_iff.mpr ⟨hs, hmem⟩),
            Derives.refl _⟩
      obtain ⟨y, hy, hsy⟩ := hhead
      obtain ⟨z, hz, hwz⟩ := ih hw'
      exact ⟨y ++ z, List.forall_mem_append.mpr ⟨hy, hz⟩, hsy.append hwz⟩

/-- Likewise, a string that can be made to begin with a symbol derives terminals
behind that symbol. -/
lemma Starts.exists_terminals (hprod : ∀ s ∈ g.nonterminals, g.Productive s) {a : Symbol}
    {w : List Symbol} (h : g.Starts a w) (hw : ∀ s ∈ w, s.index < g.names.size) :
    ∃ z, (∀ b ∈ z, g.isTerminal b = true) ∧ g.Derives w (a :: z) := by
  obtain ⟨v, hv⟩ := starts_iff.mp h
  obtain ⟨z, hz, hvz⟩ :=
    Grammar.exists_terminals hprod (List.forall_mem_cons.mp (hv.named hw)).2
  exact ⟨z, hz, hv.trans ((Derives.refl [a]).append hvz)⟩

/-! ### Leftmost contexts -/

/-- A leftmost derivation from the start symbol comes to the symbol, behind
terminals and before the string `q`. -/
def LeftContext (g : Grammar) (s : Symbol) (q : List Symbol) : Prop :=
  ∃ ids u, (∀ a ∈ u, g.isTerminal a = true) ∧ g.LeftDerives ids [g.start] (u ++ s :: q)

lemma leftContext_start (g : Grammar) : g.LeftContext g.start [] :=
  ⟨[], [], by simp, LeftDerives.refl _⟩

/-- The symbols that come after are named. -/
lemma LeftContext.named {s : Symbol} {q : List Symbol} (h : g.LeftContext s q) :
    ∀ t ∈ q, t.index < g.names.size := by
  obtain ⟨ids, u, _, hleft⟩ := h
  have hstart : ∀ t ∈ [g.start], t.index < g.names.size :=
    List.forall_mem_singleton.mpr (g.nonterminals_lt g.start g.start_mem)
  have hall := hleft.derives.named hstart
  exact (List.forall_mem_cons.mp (List.forall_mem_append.mp hall).2).2

/-- From a left-hand side one comes to every symbol of the right-hand side, if the
declared nonterminals are productive: what stands before it is derived to
terminals. -/
lemma LeftContext.rhs (hprod : ∀ s ∈ g.nonterminals, g.Productive s) {r : Rule}
    (hr : r ∈ g.rules) {p v : List Symbol} {s : Symbol} (hrhs : r.rhs = p ++ s :: v)
    {q : List Symbol} (h : g.LeftContext r.lhs q) : g.LeftContext s (v ++ q) := by
  obtain ⟨ids, u, hu, hleft⟩ := h
  obtain ⟨id, hid⟩ := List.mem_iff_getElem?.mp hr
  have hstep : g.LeftDerives [id] (u ++ r.lhs :: q) (u ++ (r.rhs ++ q)) :=
    LeftDerives.step hid hu (LeftDerives.refl _)
  have hnamed := g.rhs_lt r hr
  rw [hrhs] at hstep hnamed
  obtain ⟨z, hz, hpz⟩ := exists_terminals hprod (List.forall_mem_append.mp hnamed).1
  obtain ⟨ids', hbefore⟩ := exists_leftDerives hu hz hpz (s :: (v ++ q))
  rw [List.append_assoc, List.cons_append] at hstep
  exact ⟨_, u ++ z, List.forall_mem_append.mpr ⟨hu, hz⟩, hleft.trans (hstep.trans hbefore)⟩

/-- **An accessible symbol has a leftmost context**, if the declared nonterminals are
productive. -/
theorem exists_leftContext (hprod : ∀ s ∈ g.nonterminals, g.Productive s) {s : Symbol}
    (hs : g.Accessible s) : ∃ q, g.LeftContext s q := by
  have hall : ∀ w, g.Derives [g.start] w → ∀ s ∈ w, ∃ q, g.LeftContext s q := by
    intro w hw
    induction hw with
    | refl => exact List.forall_mem_singleton.mpr ⟨[], leftContext_start g⟩
    | tail _ hstep ih =>
        obtain ⟨r, hr, u, v, rfl, rfl⟩ := hstep
        simp only [List.forall_mem_append, List.forall_mem_cons] at ih ⊢
        obtain ⟨hu, ⟨q, hq⟩, hv⟩ := ih
        refine ⟨hu, fun s hs => ?_, hv⟩
        obtain ⟨p, v', hrhs⟩ := List.append_of_mem hs
        exact ⟨v' ++ q, hq.rhs hprod hr hrhs⟩
  obtain ⟨p, v, hpv⟩ := hs
  exact hall _ hpv s (by simp)

/-- **What follows a symbol comes after it in a leftmost derivation**, if the declared
nonterminals are accessible and productive. -/
theorem Follows.exists_leftContext (hacc : ∀ s ∈ g.nonterminals, g.Accessible s)
    (hprod : ∀ s ∈ g.nonterminals, g.Productive s) {s : Symbol} {x : Lookahead}
    (h : g.Follows s x) :
    ∃ q z, g.LeftContext s q ∧ (∀ a ∈ z, g.isTerminal a = true) ∧ g.Derives q z
      ∧ z.head? = x := by
  induction h with
  | start => exact ⟨[], [], leftContext_start g, by simp, Derives.refl [], rfl⟩
  | @rest r p v s a hr hrhs ha hv =>
      obtain ⟨q, hq⟩ := Grammar.exists_leftContext hprod (hacc r.lhs (g.lhs_mem r hr))
      have hnamed := g.rhs_lt r hr
      rw [hrhs, List.forall_mem_append, List.forall_mem_cons] at hnamed
      obtain ⟨y, hy, hvy⟩ := hv.exists_terminals hprod hnamed.2.2
      obtain ⟨z, hz, hqz⟩ := exists_terminals hprod hq.named
      refine ⟨v ++ q, (a :: y) ++ z, hq.rhs hprod hr hrhs, ?_, hvy.append hqz, rfl⟩
      exact List.forall_mem_append.mpr ⟨List.forall_mem_cons.mpr ⟨ha, hy⟩, hz⟩
  | @inherit r p v s x hr hrhs hv _ ih =>
      obtain ⟨q, z, hq, hz, hqz, hhead⟩ := ih
      exact ⟨v ++ q, z, hq.rhs hprod hr hrhs, hz,
        (nullable_iff.mp hv).append hqz, hhead⟩

end TopDown.Grammar
