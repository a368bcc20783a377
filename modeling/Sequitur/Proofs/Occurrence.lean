import Mathlib.Data.Set.Basic
import Sequitur.Proofs.FreeVariables
import Sequitur.Proofs.Place

/-!
# Occurrences of variables

Where a variable stands in a formula can be said with places: it is free if it is an argument of a
predicate in some place that no quantifier over it is around, and bound if in some place there is a
quantifier over it.  These are the sets `freeVariables` and `boundVariables`; that a variable is in
them is what `FreeIn` and `BoundIn` find by going through the formula.

The symbols of a formula without holes are exactly these two sets.  Taking the bound variables away
from all at once is not the same as leaving out each one below its quantifier, and it gives the free
variables only where the two sets do not meet.

## Key results

- `mem_freeVariables`, `mem_boundVariables`: occurrences are found by going through the formula
- `symbols_free_bound`: the symbols of a formula, and when they tell its free variables
-/

namespace Sequitur

namespace Place

/-- A quantifier over `v` is around the place. -/
def Below (v : Variable) : Place → Prop
  | here => False
  | conjLeft C _ | conjRight _ C | disjLeft C _ | disjRight _ C | impLeft C _ | impRight _ C =>
    C.Below v
  | all w C | ex w C => w = v ∨ C.Below v

/-- What is around a place within a place is around one of the two. -/
private theorem below_comp {v : Variable} (C D : Place) :
    (C.comp D).Below v ↔ C.Below v ∨ D.Below v := by
  induction C with
  | here => simp only [comp, Below, false_or]
  | conjLeft C q ih | disjLeft C q ih | impLeft C q ih => exact ih
  | conjRight p C ih | disjRight p C ih | impRight p C ih => exact ih
  | all w C ih | ex w C ih => simp only [comp, Below, ih, or_assoc]

end Place

namespace Formula

/-- The variables that are arguments of a predicate in a place that no quantifier over them is
    around. -/
def freeVariables (f : Formula) : Set Variable :=
  {v | ∃ (C : Place) (n : String) (args : List Variable),
    f = C.fill (pred n args) ∧ v ∈ args ∧ ¬ C.Below v}

/-- The variables that a quantifier is over in some place. -/
def boundVariables (f : Formula) : Set Variable :=
  {v | ∃ (C : Place) (body : Formula), f = C.fill (all v body) ∨ f = C.fill (ex v body)}

variable {v w : Variable} {f g : Formula}

/-! ## Free variables -/

/-- What is free in a part is free in the whole, unless a quantifier over it is around the part. -/
theorem FreeIn.fill (h : g.FreeIn v) {C : Place} (hC : ¬ C.Below v) : (C.fill g).FreeIn v := by
  induction C with
  | here => exact h
  | conjLeft C q ih | disjLeft C q ih | impLeft C q ih => exact .inl (ih hC)
  | conjRight p C ih | disjRight p C ih | impRight p C ih => exact .inr (ih hC)
  | all w C ih | ex w C ih =>
    obtain ⟨hne, hC⟩ := not_or.mp hC
    exact ⟨hne, ih hC⟩

/-- What stands free in a part stands free in the whole, unless a quantifier over it is around the
    part. -/
private theorem freeVariables_fill {C : Place} (hC : ¬ C.Below v) (h : v ∈ g.freeVariables) :
    v ∈ (C.fill g).freeVariables := by
  obtain ⟨D, n, args, rfl, hv, hD⟩ := h
  refine ⟨C.comp D, n, args, (Place.fill_comp C D _).symm, hv, ?_⟩
  rw [Place.below_comp]
  exact not_or.mpr ⟨hC, hD⟩

/-- A variable that is free stands somewhere. -/
theorem FreeIn.mem_freeVariables (h : f.FreeIn v) : v ∈ f.freeVariables := by
  -- the place grows by one step for each connective and quantifier
  induction f with
  | conj p q ihp ihq =>
    cases h with
    | inl h => exact freeVariables_fill (C := .conjLeft .here q) id (ihp h)
    | inr h => exact freeVariables_fill (C := .conjRight p .here) id (ihq h)
  | disj p q ihp ihq =>
    cases h with
    | inl h => exact freeVariables_fill (C := .disjLeft .here q) id (ihp h)
    | inr h => exact freeVariables_fill (C := .disjRight p .here) id (ihq h)
  | imp p q ihp ihq =>
    cases h with
    | inl h => exact freeVariables_fill (C := .impLeft .here q) id (ihp h)
    | inr h => exact freeVariables_fill (C := .impRight p .here) id (ihq h)
  | all w p ih =>
    exact freeVariables_fill (C := .all w .here) (not_or.mpr ⟨h.1, id⟩) (ih h.2)
  | ex w p ih =>
    exact freeVariables_fill (C := .ex w .here) (not_or.mpr ⟨h.1, id⟩) (ih h.2)
  | pred n args => exact ⟨.here, n, args, rfl, h, id⟩
  | truth | atom | hole | term => cases h

/-- The places of a formula tell the variables that are free in it. -/
theorem mem_freeVariables : v ∈ f.freeVariables ↔ f.FreeIn v := by
  refine ⟨fun h => ?_, FreeIn.mem_freeVariables⟩
  obtain ⟨C, n, args, rfl, hv, hC⟩ := h
  have hpred : (pred n args).FreeIn v := hv
  exact hpred.fill hC

/-! ## Bound variables -/

/-- What is bound in a part is bound in the whole. -/
theorem BoundIn.fill (h : g.BoundIn v) (C : Place) : (C.fill g).BoundIn v := by
  induction C with
  | here => exact h
  | conjLeft C q ih | disjLeft C q ih | impLeft C q ih => exact .inl ih
  | conjRight p C ih | disjRight p C ih | impRight p C ih | all w C ih | ex w C ih => exact .inr ih

/-- A quantifier in a part is a quantifier in the whole. -/
private theorem boundVariables_fill (C : Place) (h : v ∈ g.boundVariables) :
    v ∈ (C.fill g).boundVariables := by
  obtain ⟨D, body, hg⟩ := h
  refine ⟨C.comp D, body, ?_⟩
  rw [Place.fill_comp, Place.fill_comp]
  exact hg.imp (congrArg C.fill) (congrArg C.fill)

/-- A variable that is bound has a quantifier somewhere. -/
theorem BoundIn.mem_boundVariables (h : f.BoundIn v) : v ∈ f.boundVariables := by
  -- as for free variables, except that a quantifier may be the one that is looked for
  induction f with
  | conj p q ihp ihq =>
    cases h with
    | inl h => exact boundVariables_fill (.conjLeft .here q) (ihp h)
    | inr h => exact boundVariables_fill (.conjRight p .here) (ihq h)
  | disj p q ihp ihq =>
    cases h with
    | inl h => exact boundVariables_fill (.disjLeft .here q) (ihp h)
    | inr h => exact boundVariables_fill (.disjRight p .here) (ihq h)
  | imp p q ihp ihq =>
    cases h with
    | inl h => exact boundVariables_fill (.impLeft .here q) (ihp h)
    | inr h => exact boundVariables_fill (.impRight p .here) (ihq h)
  | all w p ih =>
    cases h with
    | inl hw => exact ⟨.here, p, .inl (hw ▸ rfl)⟩
    | inr h => exact boundVariables_fill (.all w .here) (ih h)
  | ex w p ih =>
    cases h with
    | inl hw => exact ⟨.here, p, .inr (hw ▸ rfl)⟩
    | inr h => exact boundVariables_fill (.ex w .here) (ih h)
  | pred | truth | atom | hole | term => cases h

/-- The places of a formula tell the variables that are bound in it. -/
theorem mem_boundVariables : v ∈ f.boundVariables ↔ f.BoundIn v := by
  refine ⟨fun h => ?_, BoundIn.mem_boundVariables⟩
  obtain ⟨C, body, rfl | rfl⟩ := h
  · have hall : (all v body).BoundIn v := .inl rfl
    exact hall.fill C
  · have hex : (ex v body).BoundIn v := .inl rfl
    exact hex.fill C

/-! ## Symbols -/

/-- In a formula without holes no quantifier is over one. -/
theorem isNamed_of_boundIn (hf : f.holeFree) (h : f.BoundIn v) : v.isNamed := by
  obtain ⟨C, body, hC⟩ := mem_boundVariables.mpr h
  -- the quantifier and its body stand in a place of the formula
  have hquantified : v.isNamed && body.holeFree := by
    cases hC with
    | inl hC => exact C.holeFree_of_fill (hC ▸ hf)
    | inr hC => exact C.holeFree_of_fill (hC ▸ hf)
  exact (Bool.and_eq_true_iff.mp hquantified).1

/-- A formula without holes has symbols: mentioned are its free and its bound variables, which are
    the variables that it uses, and bound are its bound variables.  What is mentioned and not bound
    is what is free just when no variable is both. -/
theorem symbols_free_bound (f : Formula) (hf : f.holeFree) :
    ∃ s, f.symbols = .ok s ∧
      {v | v ∈ s.mentioned} = f.freeVariables ∪ f.boundVariables ∧
      {v | v ∈ s.bound} = f.boundVariables ∧
      (∀ v, f.uses v = true ↔ v ∈ s.mentioned) ∧
      ({v | v ∈ s.unbound} = f.freeVariables ↔
        ∀ v, ¬ (v ∈ f.freeVariables ∧ v ∈ f.boundVariables)) := by
  obtain ⟨s, hs⟩ := exists_symbols_iff.mpr fun w hw => isNamed_of_boundIn hf hw
  have hmentioned : {v | v ∈ s.mentioned} = f.freeVariables ∪ f.boundVariables := by
    ext v
    show v ∈ s.mentioned ↔ v ∈ f.freeVariables ∨ v ∈ f.boundVariables
    rw [(mem_symbols hs).1, uses_iff, mem_freeVariables, mem_boundVariables]
  have hbound : {v | v ∈ s.bound} = f.boundVariables := by
    ext v
    show v ∈ s.bound ↔ v ∈ f.boundVariables
    rw [(mem_symbols hs).2, mem_boundVariables]
  have hunbound : ∀ v, v ∈ s.unbound ↔ v ∈ f.freeVariables ∧ v ∉ f.boundVariables := by
    intro v
    rw [mem_unbound_symbols hs, mem_freeVariables, mem_boundVariables]
  refine ⟨s, hs, hmentioned, hbound, fun v => (mem_symbols hs).1.symm, ?_, ?_⟩
  · -- a variable in both sets is free, and was taken away with the bound ones
    intro heq v ⟨hfree, hv⟩
    have hmem : v ∈ s.unbound := by
      rw [← heq] at hfree
      exact hfree
    exact ((hunbound v).mp hmem).2 hv
  · intro hapart
    ext v
    show v ∈ s.unbound ↔ v ∈ f.freeVariables
    rw [hunbound]
    exact and_iff_left_of_imp fun hfree hv => hapart v ⟨hfree, hv⟩

/-- A variable that is free on the left and bound on the right is not among the unbound ones. -/
theorem symbols_free_bound_twice :
    let f := conj (pred "P" [.named "x", .named "c"]) (all (.named "c") (pred "Q" [.named "c"]))
    f.holeFree ∧ ∃ s, f.symbols = .ok s ∧
      {v | v ∈ s.mentioned} = f.freeVariables ∪ f.boundVariables ∧
      s.unbound = [.named "x"] ∧ {v | v ∈ s.unbound} ≠ f.freeVariables := by
  intro f
  have hf : f.holeFree := by decide
  obtain ⟨s, hs, hmentioned, -, -, hunbound⟩ := symbols_free_bound f hf
  refine ⟨hf, s, hs, hmentioned, ?_, fun heq => ?_⟩
  · cases hs
    decide
  · -- the two sets meet in the variable
    have hfree : .named "c" ∈ f.freeVariables := mem_freeVariables.mpr (by decide)
    have hbound : .named "c" ∈ f.boundVariables := mem_boundVariables.mpr (by decide)
    exact hunbound.mp heq _ ⟨hfree, hbound⟩

end Formula

end Sequitur
