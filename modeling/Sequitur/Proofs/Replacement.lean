import Mathlib.Tactic.Tauto
import Sequitur.Proofs.Instance
import Sequitur.Proofs.Place
import Sequitur.Replacement.Basic

/-!
# Replacement preserves meaning

A replacement that is justified changes one place of a formula from one side of an equivalence to
the other.  Each law is valid under all bindings, whatever its holes are bound to: the patterns of a
law bind the same variable hole on both sides, so nothing is captured.  Since truth is
compositional, the formulas before and after have the same truth value in every structure.

## Key results

- `Law.equivalent_instantiate`: the two sides of a law are equivalent under all bindings
- `Equivalence.instantiate_sound`: a successful match makes the two formulas the two sides
- `Law.replace_preserves_meaning`: what a justified replacement does, and that it is harmless
-/

namespace Sequitur

universe u

/-! ## The laws are valid -/

namespace Law

/-- The patterns of the laws mention no predicate at all. -/
theorem isPattern_left (law : Law) : law.equivalence.left.isPattern := by
  cases law <;> rfl

/-- The right side of a law is a pattern, too. -/
theorem isPattern_right (law : Law) : law.equivalence.right.isPattern := by
  cases law <;> rfl

/-- The two sides of a law are equivalent under all bindings. -/
theorem equivalent_instantiate (law : Law) (β : Bindings) :
    Formula.Equivalent.{u} (law.equivalence.left.instantiate β)
      (law.equivalence.right.instantiate β) := by
  intro D M σ
  cases law with
  | negatedForall =>
    -- the variable of the quantifier is the same on both sides
    simp only [equivalence, Formula.instantiate, Formula.Holds, Bool.false_eq_true, imp_false]
    exact not_forall
  | negatedExists =>
    simp only [equivalence, Formula.instantiate, Formula.Holds, Bool.false_eq_true, imp_false]
    exact not_exists
  | _ =>
    -- what the holes are bound to are arbitrary propositions now
    simp only [equivalence, Formula.instantiate, Formula.Holds, Bool.false_eq_true]
    tauto

end Law

/-! ## What a match means -/

namespace Formula

/-- A match from given bindings extends them, and its pattern becomes the formula. -/
theorem matchWith_sound {standing own : Bindings} {p q : Formula} (hp : p.holeFree)
    (hq : q.isPattern) (h : (matchWith standing own p q).succeeded) :
    own.Within (matchWith standing own p q).bindings ∧
      ∀ β, (matchWith standing own p q).bindings.Within β → q.instantiate β = p :=
  unify_sound hp hq (Prod.ext h rfl)

end Formula

namespace Equivalence

/-- When an equivalence matches two formulas, they are its two sides under the bindings found. -/
theorem instantiate_sound {e : Equivalence} {standing : Bindings} {s t : Formula}
    (hs : s.holeFree) (ht : t.holeFree) (hl : e.left.isPattern) (hr : e.right.isPattern)
    (h : (e.instantiate standing s t).succeeded) :
    e.left.instantiate (e.instantiate standing s t).bindings = s ∧
      e.right.instantiate (e.instantiate standing s t).bindings = t := by
  by_cases hfirst : (Formula.matchWith standing {} s e.left).succeeded
  · simp only [instantiate, hfirst, if_true] at h ⊢
    have hleft := (Formula.matchWith_sound hs hl hfirst).2
    obtain ⟨hle, hright⟩ := Formula.matchWith_sound ht hr h
    -- the second match keeps what the first one has bound
    exact ⟨hleft _ hle, hright _ (.refl _)⟩
  · -- the right side is only tried if the left side matches
    simp [instantiate, hfirst] at h

end Equivalence

/-! ## Replacements -/

/-- What a replacement says about the formulas before and after: they are the same, or they differ
    in one place only, where the two sides of the equivalence stand under the bindings, in either
    order. -/
def Replacement.Describes (e : Equivalence) (old new : Formula) : Replacement → Prop
  | unchanged => old = new
  | applied β => ∃ C : Place,
      (old = C.fill (e.left.instantiate β) ∧ new = C.fill (e.right.instantiate β)) ∨
      (old = C.fill (e.right.instantiate β) ∧ new = C.fill (e.left.instantiate β))

namespace Equivalence

/-- A justified replacement between formulas without holes is what it says. -/
theorem describes_of_replace {e : Equivalence} {standing standing' : Bindings}
    {old new : Formula} {r : Replacement} (hold : old.holeFree) (hnew : new.holeFree)
    (hl : e.left.isPattern) (hr : e.right.isPattern)
    (h : e.replace standing old new = (.ok r, standing')) : r.Describes e old new := by
  unfold replace at h
  split at h
  · -- nothing was to be replaced
    rename_i heq
    cases h
    exact heq
  · split at h
    · cases h
    · rename_i s t hdiff
      obtain ⟨C, rfl, rfl⟩ := Formula.exists_fill_of_difference hdiff
      have hs := C.holeFree_of_fill hold
      have ht := C.holeFree_of_fill hnew
      simp only at h
      split at h
      · -- read from left to right
        rename_i hforward
        cases h
        obtain ⟨hleft, hright⟩ := instantiate_sound hs ht hl hr hforward
        exact ⟨C, .inl ⟨congrArg C.fill hleft.symm, congrArg C.fill hright.symm⟩⟩
      · split at h
        · -- read from right to left, the sides of the equivalence change places
          rename_i hbackward
          cases h
          obtain ⟨hright, hleft⟩ := instantiate_sound (e := e.swap) hs ht hr hl hbackward
          exact ⟨C, .inr ⟨congrArg C.fill hright.symm, congrArg C.fill hleft.symm⟩⟩
        · cases h

end Equivalence

namespace Law

/-- Formulas that a replacement by a law describes are equivalent. -/
theorem equivalent_of_describes {law : Law} {old new : Formula} {r : Replacement}
    (h : r.Describes law.equivalence old new) : Formula.Equivalent.{u} old new := by
  cases r with
  | unchanged =>
    cases h
    exact fun _ _ _ => Iff.rfl
  | applied β =>
    obtain ⟨C, ⟨rfl, rfl⟩ | ⟨rfl, rfl⟩⟩ := h
    · exact C.fill_equivalent (law.equivalent_instantiate β)
    · exact C.fill_equivalent (law.equivalent_instantiate β).symm

/-- Replacement by a law preserves meaning.  If it is justified, then the formulas are the same or
    differ in one place, where the sides of the law stand under the bindings that are returned; and
    the formulas have the same truth value in every structure under every assignment. -/
theorem replace_preserves_meaning (law : Law) (standing standing' : Bindings) (old new : Formula)
    (r : Replacement) (hold : old.holeFree) (hnew : new.holeFree)
    (h : law.equivalence.replace standing old new = (.ok r, standing')) :
    r.Describes law.equivalence old new ∧ Formula.Equivalent.{u} old new := by
  have hdescribes :=
    Equivalence.describes_of_replace hold hnew law.isPattern_left law.isPattern_right h
  exact ⟨hdescribes, equivalent_of_describes hdescribes⟩

/-- A negation is pushed, below a quantifier, through another one that binds a variable of the
    formula replaced. -/
theorem replace_preserves_meaning_below_quantifier :
    let body : Formula := .pred "P" [.named "x", .named "y"]
    let old : Formula := .all (.named "x") (.neg (.all (.named "y") body))
    let new : Formula := .all (.named "x") (.ex (.named "y") (.neg body))
    let found : Replacement := .applied ⟨⟨[("a", body)]⟩, ⟨[("x", "y")]⟩⟩
    (old.holeFree ∧ new.holeFree ∧ negatedForall.equivalence.replace {} old new = (.ok found, {})) ∧
      found.Describes negatedForall.equivalence old new ∧ Formula.Equivalent.{0} old new := by
  intro body old new found
  have h : negatedForall.equivalence.replace {} old new = (.ok found, {}) := by rfl
  exact ⟨⟨rfl, rfl, h⟩, replace_preserves_meaning negatedForall {} {} old new found rfl rfl h⟩

end Law

end Sequitur
