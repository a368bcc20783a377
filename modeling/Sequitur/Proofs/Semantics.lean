import Mathlib.Logic.Function.Basic
import Sequitur.Formula.Basic

/-!
# Truth in a structure

Formulas are read in first-order structures.  A structure says which propositional letters are true
and which tuples stand in which relation; an assignment gives every variable a value.

Patterns are made of the same type as formulas, so two of its constructors have no place in a
formula that is read.  A hole says nothing and is taken to be false, and every statement about truth
keeps to formulas without holes.  A variable in the place of a formula is read as a claim about its
value, which the structure decides freely; so whatever is shown holds for each such reading.
-/

namespace Sequitur

universe u

/-- A first-order structure over `D`. -/
structure Structure (D : Type u) where
  /-- The propositional letters that are true. -/
  letter : String → Prop
  /-- The tuples that stand in a relation. -/
  relation : String → List D → Prop
  /-- What a variable in the place of a formula claims of its value. -/
  claim : D → Prop

namespace Formula

variable {D : Type u}

/-- Truth of a formula in a structure, under an assignment of values to variables. -/
def Holds (M : Structure D) : Formula → (Variable → D) → Prop
  | truth b, _ => b = true
  | atom n, _ => M.letter n
  | hole _, _ => False
  | term v, σ => M.claim (σ v)
  | conj p q, σ => p.Holds M σ ∧ q.Holds M σ
  | disj p q, σ => p.Holds M σ ∨ q.Holds M σ
  | imp p q, σ => p.Holds M σ → q.Holds M σ
  | pred n args, σ => M.relation n (args.map σ)
  | all v p, σ => ∀ d, p.Holds M (Function.update σ v d)
  | ex v p, σ => ∃ d, p.Holds M (Function.update σ v d)

/-- Two formulas have the same truth value in every structure under every assignment. -/
def Equivalent (p q : Formula) : Prop :=
  ∀ (D : Type u) (M : Structure D) (σ : Variable → D), p.Holds M σ ↔ q.Holds M σ

/-- Every structure and assignment that makes all of `Γ` true makes `p` true. -/
def Entailed (Γ : List Formula) (p : Formula) : Prop :=
  ∀ (D : Type u) (M : Structure D) (σ : Variable → D), (∀ g ∈ Γ, g.Holds M σ) → p.Holds M σ

/-- Equivalence goes both ways. -/
theorem Equivalent.symm {p q : Formula} (h : Equivalent.{u} p q) : Equivalent.{u} q p :=
  fun D M σ => (h D M σ).symm

/-- What is entailed stays so under more hypotheses. -/
theorem Entailed.mono {Γ Δ : List Formula} {p : Formula} (h : Entailed.{u} Γ p) (hsub : Γ ⊆ Δ) :
    Entailed.{u} Δ p :=
  fun D M σ hΔ => h D M σ fun g hg => hΔ g (hsub hg)

/-- Whether neither a formula hole nor a variable hole occurs. -/
def holeFree : Formula → Bool
  | truth _ | atom _ => true
  | hole _ => false
  | term v => v.isNamed
  | conj p q | disj p q | imp p q => p.holeFree && q.holeFree
  | pred _ args => args.all Variable.isNamed
  | all v p | ex v p => v.isNamed && p.holeFree

end Formula

end Sequitur
