/-!
# Tables

A finite map as a list of entries.  A key keeps the place at which it was first entered: writing to
a key that is already there changes its value and nothing else, so the order of the entries is the
order in which the keys arrived.

The three lemmas on `get?` say what `put` does to the view; nothing else about the entries matters
to the rest of the library.
-/

namespace Sequitur

/-- A finite map from `κ` to `α`, oldest key first. -/
structure Table (κ : Type) (α : Type) where
  entries : List (κ × α) := []
  deriving DecidableEq, Repr, Inhabited

namespace Table

variable {κ α β : Type}

/-- The keys, oldest first. -/
def keys (t : Table κ α) : List κ := t.entries.map Prod.fst

/-- The values, in the order of their keys. -/
def values (t : Table κ α) : List α := t.entries.map Prod.snd

/-- The number of entries. -/
def size (t : Table κ α) : Nat := t.entries.length

/-- Apply `f` to every value. -/
def map (f : α → β) (t : Table κ α) : Table κ β := ⟨t.entries.map fun e => (e.1, f e.2)⟩

/-- The value of the first entry under `k`. -/
def lookup [DecidableEq κ] (k : κ) : List (κ × α) → Option α
  | [] => none
  | e :: es => if e.1 = k then some e.2 else lookup k es

/-- Write `a` to the first entry under `k`, or to a new last entry. -/
def write [DecidableEq κ] (k : κ) (a : α) : List (κ × α) → List (κ × α)
  | [] => [(k, a)]
  | e :: es => if e.1 = k then (k, a) :: es else e :: write k a es

/-- The value under `k`, if there is one. -/
def get? [DecidableEq κ] (t : Table κ α) (k : κ) : Option α := lookup k t.entries

/-- Whether there is a value under `k`. -/
def contains [DecidableEq κ] (t : Table κ α) (k : κ) : Bool := (t.get? k).isSome

/-- Enter `a` under `k`, in the old place of `k` if it has one. -/
def put [DecidableEq κ] (t : Table κ α) (k : κ) (a : α) : Table κ α := ⟨write k a t.entries⟩

/-- Enter all entries of `u`, in their order. -/
def putAll [DecidableEq κ] (t u : Table κ α) : Table κ α :=
  u.entries.foldl (fun acc e => acc.put e.1 e.2) t

/-- Enter a list of pairs into the empty table. -/
def ofList [DecidableEq κ] (es : List (κ × α)) : Table κ α := putAll {} ⟨es⟩

/-- Remove the entries under `k`. -/
def erase [DecidableEq κ] (t : Table κ α) (k : κ) : Table κ α :=
  ⟨t.entries.filter fun e => e.1 ≠ k⟩

@[simp] theorem get?_empty [DecidableEq κ] (k : κ) : ({} : Table κ α).get? k = none := rfl

@[simp] theorem get?_put_self [DecidableEq κ] (t : Table κ α) (k : κ) (a : α) :
    (t.put k a).get? k = some a := by
  simp only [get?, put]
  induction t.entries with
  | nil => simp [write, lookup]
  | cons e es ih => by_cases h : e.1 = k <;> simp [write, lookup, h, ih]

/-- Writing to one key leaves every other key alone. -/
theorem get?_put_of_ne [DecidableEq κ] (t : Table κ α) {k l : κ} (a : α) (h : l ≠ k) :
    (t.put k a).get? l = t.get? l := by
  simp only [get?, put]
  induction t.entries with
  | nil => simp [write, lookup, Ne.symm h]
  | cons e es ih =>
    by_cases he : e.1 = k
    · subst he
      simp [write, lookup, Ne.symm h]
    · simp [write, lookup, he, ih]

end Table

end Sequitur
