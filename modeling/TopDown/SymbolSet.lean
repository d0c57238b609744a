import TopDown.Symbol

/-!
Symbol sets over a fixed range: one mark for each symbol below a bound.

* `SymbolSet.full`, `SymbolSet.without?`: all symbols or none of them, and all
  but the listed ones.
* `SymbolSet.mark?`: changing one mark, which fails beyond the bound.
* `SymbolSet.contains`, `SymbolSet.toList`: the marked symbols; beyond the bound
  nothing is marked.
* `SymbolSet.exists_without?`, `SymbolSet.toList_eq`: what is left when marks are
  taken away, and that the listing is that of the members.
-/

namespace TopDown

/-- A set of symbols below a bound, as one mark for each of them. -/
@[ext] structure SymbolSet where
  /-- The mark of each symbol, by number. -/
  marks : List Bool
deriving DecidableEq

namespace SymbolSet

/-- The bound: every symbol below it has a mark. -/
def bound (t : SymbolSet) : Nat := t.marks.length

/-- All symbols below the bound, or none of them. -/
def full (bound : Nat) (mark : Bool) : SymbolSet := ⟨List.replicate bound mark⟩

/-- Whether a symbol is in the set; beyond the bound none is. -/
def contains (t : SymbolSet) (s : Symbol) : Bool := t.marks[s.index]?.getD false

/-- Changes the mark of one symbol. There is none to change beyond the
bound. -/
def mark? (t : SymbolSet) (s : Symbol) (mark : Bool) : Option SymbolSet :=
  if s.index < t.bound then some ⟨t.marks.set s.index mark⟩ else none

/-- All symbols below the bound but the listed ones, which must lie below it
themselves. -/
def without? (bound : Nat) (symbols : List Symbol) : Option SymbolSet :=
  symbols.foldlM (fun t s => t.mark? s false) (full bound true)

/-- The members, ascending. -/
def toList (t : SymbolSet) : List Symbol :=
  ((List.range t.bound).filter fun i => t.marks[i]?.getD false).map Symbol.ofNat

theorem contains_full (bound : Nat) (s : Symbol) :
    (full bound true).contains s = decide (s.index < bound) := by
  by_cases h : s.index < bound <;> simp [contains, full, h]

/-- A mark below the bound can be changed. This decides membership of that
symbol and of no other. -/
theorem exists_mark? {t : SymbolSet} {s : Symbol} (hs : s.index < t.bound) (mark : Bool) :
    ∃ u, t.mark? s mark = some u ∧ u.bound = t.bound
      ∧ ∀ c, u.contains c = if s = c then mark else t.contains c := by
  refine ⟨⟨t.marks.set s.index mark⟩, if_pos hs, List.length_set, fun c => ?_⟩
  by_cases e : s = c
  · subst e
    rw [contains, List.getElem?_set_self hs, Option.getD_some, if_pos rfl]
  · have hne : s.index ≠ c.index := fun e' => e (Symbol.index_inj e')
    rw [contains, List.getElem?_set_ne hne, if_neg e, contains]

/-- Taking marks away one after the other leaves the members that are not
listed. -/
theorem exists_foldlM_mark? : ∀ {symbols : List Symbol} {t : SymbolSet},
    (∀ s ∈ symbols, s.index < t.bound) →
    ∃ u, symbols.foldlM (fun t s => t.mark? s false) t = some u ∧ u.bound = t.bound
      ∧ ∀ c, u.contains c = (t.contains c && decide (c ∉ symbols))
  | [], t, _ => ⟨t, rfl, rfl, fun c => by simp⟩
  | s :: symbols, t, h => by
      obtain ⟨hs, hsymbols⟩ := List.forall_mem_cons.1 h
      obtain ⟨u, hu, hbound, hcontains⟩ := exists_mark? hs false
      obtain ⟨v, hv, hbound', hcontains'⟩ :=
        exists_foldlM_mark? (t := u) fun s hs => hbound ▸ hsymbols s hs
      refine ⟨v, ?_, hbound'.trans hbound, fun c => ?_⟩
      · rw [List.foldlM_cons, hu]
        exact hv
      · rw [hcontains', hcontains]
        by_cases e : s = c
        · simp [e]
        · simp [e, Ne.symm e]

/-- **All symbols below the bound but the listed ones**, if these lie below
it. -/
theorem exists_without? {bound : Nat} {symbols : List Symbol}
    (h : ∀ s ∈ symbols, s.index < bound) :
    ∃ t, without? bound symbols = some t ∧ t.bound = bound
      ∧ ∀ c, t.contains c = (decide (c.index < bound) && decide (c ∉ symbols)) := by
  have hbound : (full bound true).bound = bound := List.length_replicate
  obtain ⟨t, ht, hbound', hcontains⟩ :=
    exists_foldlM_mark? (t := full bound true) (by rwa [hbound])
  refine ⟨t, ht, hbound'.trans hbound, fun c => ?_⟩
  rw [hcontains, contains_full]

/-- The listing is that of the members, as long as every number below the bound
is that of a symbol. -/
theorem toList_eq {t : SymbolSet} (ht : t.bound ≤ UInt32.size) :
    t.toList = ((List.range t.bound).map Symbol.ofNat).filter t.contains := by
  rw [toList, List.filter_map]
  congr 1
  refine List.filter_congr fun i hi => ?_
  have hi : i < UInt32.size := Nat.lt_of_lt_of_le (List.mem_range.1 hi) ht
  rw [Function.comp_apply, contains, Symbol.index_ofNat_of_lt hi]

end SymbolSet

end TopDown
