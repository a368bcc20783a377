import Sequitur.Formula.Symbols

/-!
# Free and bound variables

A variable is free in a formula if it is an argument of a predicate somewhere outside every
quantifier over it, and bound if some quantifier of the formula is over it.  It may be both, in
different places.

The symbols of a formula are collected without regard to places.  So they tell bound variables
exactly, and free ones only where the two do not meet: `unbound` misses a variable that is free in
one place and bound in another.

## Key results

- `uses_iff`: a formula uses what is free or bound in it
- `exists_symbols_iff`: which formulas have symbols
- `mem_unbound_symbols`: the variables that are taken to be in use are those that are free and not
  bound
-/

namespace Sequitur.Formula

/-- The variable is an argument of a predicate outside every quantifier over it. -/
def FreeIn (v : Variable) : Formula → Prop
  | conj p q | disj p q | imp p q => p.FreeIn v ∨ q.FreeIn v
  | all w p | ex w p => w ≠ v ∧ p.FreeIn v
  | pred _ args => v ∈ args
  | truth _ | atom _ | hole _ | term _ => False

/-- Some quantifier is over the variable. -/
def BoundIn (v : Variable) : Formula → Prop
  | conj p q | disj p q | imp p q => p.BoundIn v ∨ q.BoundIn v
  | all w p | ex w p => w = v ∨ p.BoundIn v
  | pred _ _ | truth _ | atom _ | hole _ | term _ => False

instance decidableFreeIn (v : Variable) : (f : Formula) → Decidable (f.FreeIn v)
  | conj p q | disj p q | imp p q =>
    have := decidableFreeIn v p
    have := decidableFreeIn v q
    inferInstanceAs (Decidable (_ ∨ _))
  | all _ p | ex _ p =>
    have := decidableFreeIn v p
    inferInstanceAs (Decidable (_ ∧ _))
  | pred _ args => inferInstanceAs (Decidable (v ∈ args))
  | truth _ | atom _ | hole _ | term _ => inferInstanceAs (Decidable False)

instance decidableBoundIn (v : Variable) : (f : Formula) → Decidable (f.BoundIn v)
  | conj p q | disj p q | imp p q =>
    have := decidableBoundIn v p
    have := decidableBoundIn v q
    inferInstanceAs (Decidable (_ ∨ _))
  | all _ p | ex _ p =>
    have := decidableBoundIn v p
    inferInstanceAs (Decidable (_ ∨ _))
  | pred _ _ | truth _ | atom _ | hole _ | term _ => inferInstanceAs (Decidable False)

variable {v : Variable} {f : Formula}

/-- A formula uses the variables that are free or bound in it. -/
theorem uses_iff : f.uses v = true ↔ f.FreeIn v ∨ f.BoundIn v := by
  induction f with
  | conj p q ihp ihq | disj p q ihp ihq | imp p q ihp ihq =>
    rw [uses, Bool.or_eq_true, ihp, ihq, FreeIn, BoundIn, or_or_or_comm]
  | all w p ih | ex w p ih =>
    rw [uses, Bool.or_eq_true, decide_eq_true_iff, ih, FreeIn, BoundIn]
    -- a quantifier over the variable itself counts as a use, whatever is below
    by_cases hw : w = v <;> simp [hw]
  | pred n args => simp [uses, FreeIn, BoundIn]
  | truth | atom | hole | term => simp [uses, FreeIn, BoundIn]

/-- The variable of a quantifier is bound under it, and so is what the body does not use. -/
theorem not_freeIn_all {w : Variable} (h : v = w ∨ f.uses v = false) : ¬ (all w f).FreeIn v := by
  rintro ⟨hne, hfree⟩
  rcases h with rfl | hunused
  · exact hne rfl
  · rw [uses_iff.mpr (.inl hfree)] at hunused
    cases hunused

/-- A formula has symbols when no quantifier is over a hole. -/
theorem exists_symbols_iff : (∃ s, f.symbols = .ok s) ↔ ∀ w, f.BoundIn w → w.isNamed := by
  induction f with
  | conj p q ihp ihq | disj p q ihp ihq | imp p q ihp ihq =>
    simp only [symbols, BoundIn, or_imp, forall_and, ← ihp, ← ihq]
    -- the symbols of one part fail, or both are there and are merged
    cases p.symbols <;> cases q.symbols <;> simp
  | all w p ih | ex w p ih =>
    simp only [symbols, BoundIn, or_imp, forall_and, ← ih, forall_eq']
    cases w.isNamed <;> cases p.symbols <;> simp
  | pred | truth | atom | hole | term => simp [symbols, BoundIn]

/-- What is mentioned is what is used, and what is bound is bound. -/
theorem mem_symbols {s : Symbols} (h : f.symbols = .ok s) :
    (v ∈ s.mentioned ↔ f.uses v = true) ∧ (v ∈ s.bound ↔ f.BoundIn v) := by
  induction f generalizing s with
  | conj p q ihp ihq | disj p q ihp ihq | imp p q ihp ihq =>
    simp only [symbols] at h
    split at h
    · cases h
    · rename_i s₁ hs₁
      split at h
      · cases h
      · rename_i s₂ hs₂
        cases h
        simp [Symbols.merge, uses, BoundIn, ihp hs₁, ihq hs₂]
  | all w p ih | ex w p ih =>
    -- the variable of the quantifier is no hole, and the body has its symbols
    simp only [symbols] at h
    split at h
    · split at h
      · cases h
      · rename_i s₁ hs₁
        cases h
        simp [Symbols.bind, uses, BoundIn, ih hs₁, eq_comm (a := v)]
    · cases h
  | pred n args | truth | atom | hole | term =>
    cases h
    simp [uses, BoundIn]

/-- The variables that no quantifier binds are those that are free and not bound. -/
theorem mem_unbound_symbols {s : Symbols} (h : f.symbols = .ok s) :
    v ∈ s.unbound ↔ f.FreeIn v ∧ ¬ f.BoundIn v := by
  obtain ⟨hmentioned, hbound⟩ := mem_symbols (v := v) h
  rw [Symbols.unbound, List.mem_filter, decide_eq_true_iff, hmentioned, hbound, uses_iff,
    and_congr_left_iff]
  exact fun hnot => or_iff_left hnot

end Sequitur.Formula
