import TopDown.Symbol

/-!
Name tables: the names in use, each numbered in the order of its first use.

* `NameTable`: the names in order, none of them twice.
* `NameTable.find?`, `NameTable.name?`: from a name to its symbol and back;
  `NameTable.nameOf` has a mark for a symbol without a name. The names are
  different for different symbols (`NameTable.nameOf_inj`), and they do not
  change when the table grows (`NameTable.nameOf_grow`).
* `NameTable.intern`: the symbol of a name, which a new name gets at the end of
  the table (`NameTable.index_intern_lt`: the symbol lies in the table).
* `NameTable.internAll`: a list of names from left to right.
-/

namespace TopDown

/-- The names in use, in the order of their numbers. -/
@[ext] structure NameTable where
  /-- The names; the symbol of a name is its place. -/
  names : List String
  /-- No name stands twice. -/
  nodup : names.Nodup
deriving DecidableEq

namespace NameTable

instance : EmptyCollection NameTable := ⟨⟨[], .nil⟩⟩

instance : Inhabited NameTable := ⟨∅⟩

/-- The number of names in use. -/
def size (t : NameTable) : Nat := t.names.length

/-- The symbol of a name that is in use. -/
def find? (t : NameTable) (name : String) : Option Symbol :=
  (t.names.idxOf? name).map Symbol.ofNat

/-- The name of a symbol. -/
def name? (t : NameTable) (s : Symbol) : Option String := t.names[s.index]?

/-- The name of a symbol, or the mark of a symbol without one. -/
def nameOf (t : NameTable) (s : Symbol) : String := (t.name? s).getD unnamed

/-- A name is found exactly when it is in use. -/
theorem find?_eq_none_iff {t : NameTable} {name : String} :
    t.find? name = none ↔ name ∉ t.names := by
  simp [find?]

/-- The symbol of a name lies in the table. -/
theorem index_lt_of_find? {t : NameTable} {name : String} {s : Symbol}
    (h : t.find? name = some s) : s.index < t.size := by
  obtain ⟨i, hi, rfl⟩ := Option.map_eq_some_iff.1 h
  have hlt : i < t.names.length := by
    rw [List.idxOf?_eq_some_iff] at hi
    exact hi.1
  exact Nat.lt_of_le_of_lt (Symbol.index_ofNat_le i) hlt

/-- The symbol of a name has that name, as long as there are no more names than
symbols. -/
theorem name?_of_find? {t : NameTable} {name : String} {s : Symbol}
    (ht : t.size ≤ UInt32.size) (h : t.find? name = some s) : t.name? s = some name := by
  obtain ⟨i, hi, rfl⟩ := Option.map_eq_some_iff.1 h
  obtain ⟨hlt, hname, _⟩ := List.idxOf?_eq_some_iff.1 hi
  have hindex : (Symbol.ofNat i).index = i :=
    Symbol.index_ofNat_of_lt (Nat.lt_of_lt_of_le hlt ht)
  rw [name?, hindex, List.getElem?_eq_getElem hlt, hname]

/-- The name of a symbol has that symbol. -/
theorem find?_of_name? {t : NameTable} {name : String} {s : Symbol}
    (h : t.name? s = some name) : t.find? name = some s := by
  have hidx : t.names.idxOf? name = some s.index := by
    obtain ⟨hlt, hname⟩ := List.getElem?_eq_some_iff.1 h
    refine List.idxOf?_eq_some_iff.2 ⟨hlt, hname, fun j hj e => ?_⟩
    exact Nat.ne_of_lt hj ((List.getElem_inj t.nodup).1 (e.trans hname.symm))
  rw [find?, hidx, Option.map_some, Symbol.ofNat_index]

/-- From names to symbols and back, as long as there are no more names than
symbols. -/
theorem find?_eq_some_iff {t : NameTable} {name : String} {s : Symbol}
    (ht : t.size ≤ UInt32.size) : t.find? name = some s ↔ t.name? s = some name :=
  ⟨name?_of_find? ht, find?_of_name?⟩

/-! ### Names of symbols -/

section NameOf

variable {t u : NameTable} {s s' : Symbol} {name : String}

theorem nameOf_eq_getElem (hs : s.index < t.names.length) : t.nameOf s = t.names[s.index] := by
  rw [nameOf, name?, List.getElem?_eq_getElem hs, Option.getD_some]

theorem name?_eq_nameOf (hs : s.index < t.size) : t.name? s = some (t.nameOf s) := by
  rw [nameOf, name?, List.getElem?_eq_getElem hs, Option.getD_some]

theorem find?_nameOf (hs : s.index < t.size) : t.find? (t.nameOf s) = some s :=
  find?_of_name? (name?_eq_nameOf hs)

/-- Symbols that have names are found by them. -/
theorem map_find?_nameOf {w : List Symbol} (hw : ∀ s ∈ w, s.index < t.size) :
    (w.map t.nameOf).map t.find? = w.map some := by
  rw [List.map_map]
  exact List.map_congr_left fun s hs => find?_nameOf (hw s hs)

theorem nameOf_mem (hs : s.index < t.size) : t.nameOf s ∈ t.names := by
  rw [nameOf_eq_getElem hs]
  exact List.getElem_mem hs

/-- Symbols keep their names when the table grows. -/
theorem nameOf_grow (h : t.names <+: u.names) (hs : s.index < t.size) :
    u.nameOf s = t.nameOf s := by
  rw [nameOf_eq_getElem hs, nameOf_eq_getElem (Nat.lt_of_lt_of_le hs h.length_le)]
  exact (h.getElem hs).symm

/-- Different symbols have different names. -/
theorem nameOf_inj (hs : s.index < t.size) (hs' : s'.index < t.size)
    (h : t.nameOf s = t.nameOf s') : s = s' := by
  rw [nameOf_eq_getElem hs, nameOf_eq_getElem hs'] at h
  exact Symbol.index_inj ((List.getElem_inj t.nodup).mp h)

theorem nameOf_of_find? (ht : t.size ≤ UInt32.size) (h : t.find? name = some s) :
    t.nameOf s = name := by
  rw [nameOf, name?_of_find? ht h, Option.getD_some]

end NameOf

/-! ### Interning -/

/-- Adds a name that is not in use. -/
def push (t : NameTable) (name : String) (h : name ∉ t.names) : NameTable where
  names := t.names ++ [name]
  nodup := List.nodup_append.2 ⟨t.nodup, by simp, fun a ha b hb e =>
    h (by rw [List.mem_singleton] at hb; exact hb ▸ e ▸ ha)⟩

/-- The symbol of a name, and the table in which the name has it: a name that
is not in use goes to the end of the table. -/
def intern (t : NameTable) (name : String) : NameTable × Symbol :=
  match h : t.find? name with
  | some s => (t, s)
  | none => (t.push name (find?_eq_none_iff.1 h), Symbol.ofNat t.size)

/-- Interning keeps the names in use in their places. -/
theorem names_prefix_intern (t : NameTable) (name : String) :
    t.names <+: (t.intern name).1.names := by
  rw [intern]
  split
  · exact List.prefix_rfl
  · exact List.prefix_append ..

theorem size_le_intern (t : NameTable) (name : String) :
    t.size ≤ (t.intern name).1.size := (t.names_prefix_intern name).length_le

/-- The symbol of an interned name lies in the table. -/
theorem index_intern_lt (t : NameTable) (name : String) :
    (t.intern name).2.index < (t.intern name).1.size := by
  rw [intern]
  split
  · next h => exact index_lt_of_find? h
  · exact Nat.lt_of_le_of_lt (Symbol.index_ofNat_le t.size)
      (by simp [size, push])

/-- The symbols of a list of names, interned from left to right. -/
def internAll (t : NameTable) : List String → NameTable × List Symbol
  | [] => (t, [])
  | name :: rest =>
      let (t₁, s) := t.intern name
      let (t₂, ss) := t₁.internAll rest
      (t₂, s :: ss)

theorem names_prefix_internAll : ∀ (l : List String) (t : NameTable),
    t.names <+: (t.internAll l).1.names
  | [], _ => List.prefix_rfl
  | name :: rest, t =>
      (t.names_prefix_intern name).trans (names_prefix_internAll rest _)

theorem size_le_internAll (t : NameTable) (l : List String) :
    t.size ≤ (t.internAll l).1.size := (names_prefix_internAll l t).length_le

/-- The symbols of interned names lie in the table. -/
theorem index_internAll_lt : ∀ (l : List String) (t : NameTable),
    ∀ s ∈ (t.internAll l).2, s.index < (t.internAll l).1.size
  | [], _, _, h => by simp [internAll] at h
  | name :: rest, t, s, h => by
      simp only [internAll, List.mem_cons] at h ⊢
      rcases h with rfl | h
      · exact Nat.lt_of_lt_of_le (t.index_intern_lt name) (size_le_internAll ..)
      · exact index_internAll_lt rest _ s h

end NameTable

end TopDown
