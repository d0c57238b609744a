import TopDown.Ranked

/-!
Ordered sets: finite sets of ranked values, held as their ascending listing.

* `OrderedSet`: the listing together with the fact that it ascends, so that a
  set is determined by its members (`OrderedSet.ext_mem`) and equality of sets
  is equality of listings.
* `insert`, `erase`, `union`, `ofList`: the operations, each with its
  membership law.
-/

namespace TopDown

/-- A finite set, held as the list of its members in strictly ascending
rank. -/
@[ext] structure OrderedSet (α : Type) [Ranked α] where
  /-- The members, ascending. -/
  toList : List α
  /-- The listing ascends strictly. -/
  ascending : toList.Pairwise (fun a b => rank a < rank b)

namespace OrderedSet

variable {α : Type} [Ranked α]

instance [DecidableEq α] : DecidableEq (OrderedSet α) := fun s t =>
  decidable_of_iff (s.toList = t.toList) OrderedSet.ext_iff.symm

instance : Membership α (OrderedSet α) := ⟨fun s a => a ∈ s.toList⟩

/-- Membership is membership in the listing. -/
theorem mem_def {s : OrderedSet α} {a : α} : a ∈ s ↔ a ∈ s.toList := Iff.rfl

instance [DecidableEq α] (a : α) (s : OrderedSet α) : Decidable (a ∈ s) :=
  inferInstanceAs (Decidable (a ∈ s.toList))

/-- The number of members. -/
def size (s : OrderedSet α) : Nat := s.toList.length

/-! ### Extensionality -/

/-- The listing of a set holds no member twice. -/
theorem nodup_toList (s : OrderedSet α) : s.toList.Nodup := nodup_of_ascending s.ascending

/-- **A set is determined by its members.** -/
theorem ext_mem {s t : OrderedSet α} (h : ∀ a, a ∈ s ↔ a ∈ t) : s = t :=
  OrderedSet.ext (ascending_ext s.ascending t.ascending h)

/-! ### The empty set and singletons -/

instance : EmptyCollection (OrderedSet α) := ⟨⟨[], .nil⟩⟩

instance : Inhabited (OrderedSet α) := ⟨∅⟩

@[simp] theorem not_mem_empty (a : α) : a ∉ (∅ : OrderedSet α) := List.not_mem_nil

/-- The set with one member. -/
instance : Singleton α (OrderedSet α) := ⟨fun a => ⟨[a], List.pairwise_singleton _ a⟩⟩

@[simp] theorem mem_singleton {a b : α} : a ∈ ({b} : OrderedSet α) ↔ a = b :=
  List.mem_singleton

/-! ### Insertion -/

/-- The set with one more member. -/
def insert (a : α) (s : OrderedSet α) : OrderedSet α :=
  ⟨insertBy rank a s.toList, insertBy_ascending s.ascending⟩

@[simp] theorem mem_insert {a c : α} {s : OrderedSet α} :
    c ∈ s.insert a ↔ c = a ∨ c ∈ s := by
  rw [mem_def, insert, mem_insertBy s.ascending, mem_def]
  constructor
  · exact Or.imp_right And.left
  · rintro (rfl | hc)
    · exact .inl rfl
    · by_cases e : rank c = rank a
      · exact .inl (Ranked.rank_inj e)
      · exact .inr ⟨hc, e⟩

/-! ### Union, removal, listing -/

/-- The members of either set. -/
def union (s t : OrderedSet α) : OrderedSet α :=
  t.toList.foldl (fun u a => u.insert a) s

instance : Union (OrderedSet α) := ⟨union⟩

theorem mem_foldl_insert {c : α} : ∀ (l : List α) (s : OrderedSet α),
    c ∈ l.foldl (fun u a => u.insert a) s ↔ c ∈ s ∨ c ∈ l
  | [], s => by simp
  | a :: l, s => by
      rw [List.foldl_cons, mem_foldl_insert l, mem_insert, List.mem_cons,
        or_comm (a := c = a), or_assoc]

@[simp] theorem mem_union {c : α} {s t : OrderedSet α} :
    c ∈ s ∪ t ↔ c ∈ s ∨ c ∈ t := mem_foldl_insert t.toList s

/-- The members that satisfy a condition. -/
def filter (p : α → Bool) (s : OrderedSet α) : OrderedSet α :=
  ⟨s.toList.filter p, s.ascending.filter p⟩

@[simp] theorem mem_filter {p : α → Bool} {c : α} {s : OrderedSet α} :
    c ∈ s.filter p ↔ c ∈ s ∧ p c = true := List.mem_filter

/-- The set without one value. -/
def erase [DecidableEq α] (s : OrderedSet α) (a : α) : OrderedSet α :=
  s.filter fun c => decide (c ≠ a)

@[simp] theorem mem_erase [DecidableEq α] {a c : α} {s : OrderedSet α} :
    c ∈ s.erase a ↔ c ∈ s ∧ c ≠ a := by
  simp [erase]

/-- The set of the values in a list. -/
def ofList (l : List α) : OrderedSet α := l.foldl (fun u a => u.insert a) ∅

@[simp] theorem mem_ofList {c : α} {l : List α} : c ∈ ofList l ↔ c ∈ l := by
  simp [ofList, mem_foldl_insert]

end OrderedSet

end TopDown
