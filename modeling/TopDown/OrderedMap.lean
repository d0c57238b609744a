import TopDown.Ranked

/-!
Ordered maps: finite maps with ranked keys, held as the listing of their
entries by ascending key.

* `OrderedMap`: the entries together with the fact that their keys ascend, so
  that a map is determined by what its keys look up (`OrderedMap.ext_get?`).
* `get?`, `insert`, `ofList`: looking up, writing an entry in place of the one
  that stood there, and writing a list of entries from left to right.
-/

namespace TopDown

/-- A finite map, held as the list of its entries with strictly ascending
keys. -/
@[ext] structure OrderedMap (κ : Type) [Ranked κ] (β : Type) where
  /-- The entries, ascending by key. -/
  toList : List (κ × β)
  /-- The keys ascend strictly. -/
  ascending : toList.Pairwise (fun a b => rank a.1 < rank b.1)

namespace OrderedMap

variable {κ β : Type}

/-! ### Lists of entries -/

/-- The value beside a key in a list of entries. -/
def lookIn [DecidableEq κ] (k : κ) : List (κ × β) → Option β
  | [] => none
  | (j, b) :: l => if j = k then some b else lookIn k l

/-- What is found beside a key stands there. -/
theorem mem_of_lookIn [DecidableEq κ] {k : κ} {b : β} : ∀ {l : List (κ × β)},
    lookIn k l = some b → (k, b) ∈ l
  | [], h => by simp [lookIn] at h
  | (j, c) :: l, h => by
      rw [lookIn] at h
      split at h
      · next e =>
          cases h
          exact e ▸ List.mem_cons_self ..
      · exact List.mem_cons_of_mem _ (mem_of_lookIn h)

variable [Ranked κ]

instance [DecidableEq κ] [DecidableEq β] : DecidableEq (OrderedMap κ β) := fun m n =>
  decidable_of_iff (m.toList = n.toList) OrderedMap.ext_iff.symm

instance : EmptyCollection (OrderedMap κ β) := ⟨⟨[], .nil⟩⟩

instance : Inhabited (OrderedMap κ β) := ⟨∅⟩

/-- The number of entries. -/
def size (m : OrderedMap κ β) : Nat := m.toList.length

/-- The keys, ascending. -/
def keys (m : OrderedMap κ β) : List κ := m.toList.map Prod.fst

/-! ### Looking up -/

/-- The value at a key. -/
def get? [DecidableEq κ] (m : OrderedMap κ β) (k : κ) : Option β := lookIn k m.toList

@[simp] theorem get?_empty [DecidableEq κ] (k : κ) :
    (∅ : OrderedMap κ β).get? k = none := rfl

theorem lookIn_of_mem [DecidableEq κ] {k : κ} {b : β} : ∀ {l : List (κ × β)},
    l.Pairwise (fun a b => rank a.1 < rank b.1) → (k, b) ∈ l →
    lookIn k l = some b
  | (j, c) :: l, hl, h => by
      rw [List.pairwise_cons] at hl
      rw [lookIn]
      rcases List.mem_cons.1 h with e | e
      · cases e
        exact if_pos rfl
      · have hne : j ≠ k := fun e' =>
          Nat.lt_irrefl _ (e' ▸ hl.1 (k, b) e)
        rw [if_neg hne]
        exact lookIn_of_mem hl.2 e

/-- A key looks up a value exactly when the pair is an entry. -/
theorem get?_eq_some_iff [DecidableEq κ] {m : OrderedMap κ β} {k : κ} {b : β} :
    m.get? k = some b ↔ (k, b) ∈ m.toList :=
  ⟨mem_of_lookIn, lookIn_of_mem m.ascending⟩

/-- A key is listed exactly when it looks up some value. -/
theorem mem_keys_iff [DecidableEq κ] {m : OrderedMap κ β} {k : κ} :
    k ∈ m.keys ↔ ∃ b, m.get? k = some b := by
  simp [keys, get?_eq_some_iff]

/-! ### Extensionality -/

/-- **A map is determined by what its keys look up.** -/
theorem ext_get? [DecidableEq κ] {m n : OrderedMap κ β}
    (h : ∀ k, m.get? k = n.get? k) : m = n := by
  refine OrderedMap.ext (ascending_ext m.ascending n.ascending fun e => ?_)
  rw [← get?_eq_some_iff (m := m), ← get?_eq_some_iff (m := n), h]

/-! ### Writing entries -/

/-- The map with one entry written, in place of the one that stood at the
key. -/
def insert (m : OrderedMap κ β) (k : κ) (b : β) : OrderedMap κ β :=
  ⟨insertBy (fun e => rank e.1) (k, b) m.toList, insertBy_ascending m.ascending⟩

/-- A written key looks up what was written, every other key what it looked
up before. -/
@[simp] theorem get?_insert [DecidableEq κ] {m : OrderedMap κ β} {k j : κ} {b : β} :
    (m.insert k b).get? j = if k = j then some b else m.get? j := by
  refine Option.ext fun c => ?_
  rw [get?_eq_some_iff, insert, mem_insertBy m.ascending]
  by_cases hk : k = j
  · subst hk
    simp [eq_comm]
  · have hrank : rank j ≠ rank k := fun e => hk (Ranked.rank_inj e).symm
    have hne : (j, c) ≠ (k, b) := fun e => hk (Prod.mk.inj e).1.symm
    rw [if_neg hk, get?_eq_some_iff]
    exact ⟨fun h => (h.resolve_left hne).1, fun h => .inr ⟨h, hrank⟩⟩

/-- The map that a list of entries writes from left to right. -/
def ofList (l : List (κ × β)) : OrderedMap κ β :=
  l.foldl (fun m e => m.insert e.1 e.2) ∅

theorem get?_foldl_insert [DecidableEq κ] {f : κ → β} {k : κ} :
    ∀ (l : List κ) (m : OrderedMap κ β),
      ((l.map fun j => (j, f j)).foldl (fun m e => m.insert e.1 e.2) m).get? k
        = if k ∈ l then some (f k) else m.get? k
  | [], m => by simp
  | j :: l, m => by
      rw [List.map_cons, List.foldl_cons, get?_foldl_insert l, get?_insert]
      by_cases hl : k ∈ l
      · simp [hl]
      · by_cases hj : j = k
        · subst hj
          simp
        · have hk : k ≠ j := fun e => hj e.symm
          simp [hl, hj, hk]

/-- The map that gives each listed key the value of a function there. -/
@[simp] theorem get?_ofList_map [DecidableEq κ] {f : κ → β} {l : List κ} {k : κ} :
    (ofList (l.map fun j => (j, f j))).get? k = if k ∈ l then some (f k) else none :=
  get?_foldl_insert l ∅

end OrderedMap

end TopDown
