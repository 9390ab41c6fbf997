/-
Jil.Table — finite maps.

A table is the list of its entries, in the order in which the keys were first
given; giving a key again replaces the value in place. `get?` is the view
through which the operations are described: `get?_insert`, `get?_erase` and
`get?_empty`.
-/
namespace Jil

universe u v

/-- A finite map from `κ` to `ν`. -/
structure Table (κ : Type u) (ν : Type v) where
  entries : List (κ × ν) := []
  deriving Repr, DecidableEq

namespace Table

variable {κ : Type u} {ν : Type v}

instance : Inhabited (Table κ ν) := ⟨⟨[]⟩⟩

/-- The table without entries. -/
def empty : Table κ ν := ⟨[]⟩

/-- Number of keys. -/
def size (t : Table κ ν) : Nat := t.entries.length

/-- The keys, in the order in which they were first given. -/
def keys (t : Table κ ν) : List κ := t.entries.map Prod.fst

variable [DecidableEq κ]

/-- The value of a key. -/
def get? (t : Table κ ν) (k : κ) : Option ν := t.entries.lookup k

/-- Whether a key has a value. -/
def contains (t : Table κ ν) (k : κ) : Bool := (t.get? k).isSome

/-- Replaces the value of `k`, or adds an entry at the end. -/
def insertEntry (k : κ) (v : ν) : List (κ × ν) → List (κ × ν)
  | [] => [(k, v)]
  | e :: r => if e.1 = k then (k, v) :: r else e :: insertEntry k v r

/-- Gives `k` the value `v`. -/
def insert (t : Table κ ν) (k : κ) (v : ν) : Table κ ν := ⟨insertEntry k v t.entries⟩

/-- Takes the value of `k` away. -/
def erase (t : Table κ ν) (k : κ) : Table κ ν := ⟨t.entries.filter fun e => e.1 ≠ k⟩

/-- Gives `k` what `f` makes of its value, when it has one. -/
def modify (t : Table κ ν) (k : κ) (f : ν → ν) : Table κ ν :=
  ⟨t.entries.map fun e => if e.1 = k then (e.1, f e.2) else e⟩

/-- The table that holds the last value given for each key. -/
def ofList (l : List (κ × ν)) : Table κ ν := l.foldl (fun t e => t.insert e.1 e.2) empty

/-! ## The view of each operation -/

@[simp] theorem get?_empty (k : κ) : (empty : Table κ ν).get? k = none := rfl

theorem lookup_insertEntry (k j : κ) (v : ν) (l : List (κ × ν)) :
    (insertEntry k v l).lookup j = if j = k then some v else l.lookup j := by
  induction l with
  | nil =>
    by_cases h : j = k <;> simp [insertEntry, h]
  | cons e r ih =>
    obtain ⟨i, w⟩ := e
    simp only [insertEntry]
    by_cases hi : i = k
    · subst hi
      by_cases hj : j = i
      · subst hj; simp
      · have hb : (j == i) = false := by simpa using hj
        simp [List.lookup_cons, hj, hb]
    · by_cases hji : j = i
      · subst hji; simp [hi]
      · have hb : (j == i) = false := by simpa using hji
        simp [hi, List.lookup_cons, hb, ih]

theorem get?_insert (t : Table κ ν) (k j : κ) (v : ν) :
    (t.insert k v).get? j = if j = k then some v else t.get? j :=
  lookup_insertEntry k j v t.entries

@[simp] theorem get?_insert_self (t : Table κ ν) (k : κ) (v : ν) :
    (t.insert k v).get? k = some v := by simp [get?_insert]

theorem get?_insert_of_ne (t : Table κ ν) {k j : κ} (v : ν) (h : j ≠ k) :
    (t.insert k v).get? j = t.get? j := by simp [get?_insert, h]

theorem lookup_filter_ne (k j : κ) (l : List (κ × ν)) :
    (l.filter fun e => e.1 ≠ k).lookup j = if j = k then none else l.lookup j := by
  induction l with
  | nil => simp
  | cons e r ih =>
    obtain ⟨i, w⟩ := e
    by_cases hi : i = k
    · subst hi
      by_cases hj : j = i
      · subst hj; simpa using ih
      · have hb : (j == i) = false := by simpa using hj
        simpa [hj, List.lookup_cons, hb] using ih
    · by_cases hji : j = i
      · subst hji; simp [hi]
      · have hb : (j == i) = false := by simpa using hji
        simpa [hi, List.lookup_cons, hb] using ih

theorem get?_erase (t : Table κ ν) (k j : κ) :
    (t.erase k).get? j = if j = k then none else t.get? j :=
  lookup_filter_ne k j t.entries

/-- The last entry of a key counts. -/
theorem get?_foldl_insert (l : List (κ × ν)) (t : Table κ ν) (k : κ) :
    (l.foldl (fun t e => t.insert e.1 e.2) t).get? k
      = (((l.filter (·.1 = k)).getLast?.map Prod.snd).or (t.get? k)) := by
  induction l generalizing t with
  | nil => simp
  | cons e l ih =>
    rw [List.foldl_cons, ih, List.filter_cons, get?_insert]
    by_cases he : e.1 = k
    · simp only [he, decide_true, if_true, List.getLast?_cons]
      cases (l.filter (·.1 = k)).getLast? <;> simp
    · simp [he, Ne.symm he]

theorem get?_ofList (l : List (κ × ν)) (k : κ) :
    (ofList l).get? k = (l.filter (·.1 = k)).getLast?.map Prod.snd := by
  rw [ofList, get?_foldl_insert, get?_empty, Option.or_none]

end Table

end Jil
