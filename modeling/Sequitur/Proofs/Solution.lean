import Sequitur.Proofs.Application

/-!
# Matching finds the least solution

To match a formula without holes with a pattern is to solve an equation: extend the bindings at hand
so that every hole of the pattern is bound and the pattern becomes the formula.  A match succeeds
exactly if there is a solution, and what it leaves behind is the least one: it binds what was bound
before and the holes of the pattern, and nothing else.

It does not matter which of the two stands on the left.  The formula has no holes, so whatever is
bound is a hole of the pattern, and it is bound to the same part in the same order.

## Key results

- `covered_of_holeFree`: what becomes a formula without holes has all its holes bound
- `unify_comm`: a formula without holes may be matched from either side
- `matchWith_least`: matching is exact
-/

namespace Sequitur

/-! ## Solutions -/

/-- Whether a variable is not a hole, or a hole that is bound. -/
def Variable.covered (names : Table String String) : Variable → Bool
  | named _ => true
  | hole h => names.contains h

namespace Formula

/-- Whether every hole of a pattern is bound. -/
def covered (β : Bindings) : Formula → Bool
  | truth _ | atom _ => true
  | hole h => β.formulas.contains h
  | term v => v.covered β.names
  | conj p q | disj p q | imp p q => p.covered β && q.covered β
  | pred _ args => args.all (·.covered β.names)
  | all v p | ex v p => v.covered β.names && p.covered β

/-- The bindings `β` extend `own`, bind every hole of the pattern `q`, and make it `p`. -/
structure Solves (own : Bindings) (p q : Formula) (β : Bindings) : Prop where
  within : own.Within β
  covered : q.covered β
  instance_eq : q.instantiate β = p

end Formula

/-- A variable that becomes a named one is bound if it is a hole. -/
private theorem Variable.covered_of_isNamed {names : Table String String} {v : Variable}
    (h : (v.instantiate names).isNamed) : v.covered names := by
  cases v with
  | named x => rfl
  | hole k =>
    cases hk : names.get? k with
    | none => simp [instantiate, hk, isNamed] at h
    | some x => simp [covered, Table.contains, hk]

namespace Formula

/-- A pattern that becomes a formula without holes has all its holes bound. -/
theorem covered_of_holeFree {q : Formula} {β : Bindings} (h : (q.instantiate β).holeFree) :
    q.covered β := by
  induction q with
  | truth | atom => rfl
  | hole k =>
    -- a hole that is not bound stays a hole
    cases hk : β.formulas.get? k with
    | none => simp [instantiate, hk, holeFree] at h
    | some f => simp [covered, Table.contains, hk]
  | term v => exact Variable.covered_of_isNamed h
  | conj p q ihp ihq | disj p q ihp ihq | imp p q ihp ihq =>
    simp only [instantiate, holeFree, Bool.and_eq_true] at h
    simp only [covered, ihp h.1, ihq h.2, Bool.and_self]
  | pred n args =>
    simp only [instantiate, holeFree, List.all_map, List.all_eq_true] at h
    exact List.all_eq_true.mpr fun v hv => Variable.covered_of_isNamed (h v hv)
  | all v q ih | ex v q ih =>
    simp only [instantiate, holeFree, Bool.and_eq_true] at h
    simp only [covered, Variable.covered_of_isNamed h.1, ih h.2, Bool.and_self]

/-- For a formula without holes a solution need only extend the bindings and make the pattern the
    formula. -/
private theorem solves_of_instantiate {own β : Bindings} {p q : Formula} (hp : p.holeFree)
    (hwithin : own.Within β) (hinst : q.instantiate β = p) : Solves own p q β :=
  ⟨hwithin, covered_of_holeFree (hinst.symm ▸ hp), hinst⟩

end Formula

/-! ## Matching from either side -/

namespace Variable

theorem unify_comm (t : Table String String) (v w : Variable) : w.unify t v = v.unify t w := by
  cases v with
  | named x =>
    cases w with
    | named y => simp only [unify, eq_comm]
    | hole k => rfl
  | hole h => cases w <;> rfl

private theorem unifyAll_comm (t : Table String String) (vs ws : List Variable) :
    unifyAll t ws vs = unifyAll t vs ws := by
  induction vs generalizing t ws with
  | nil => cases ws <;> rfl
  | cons v vs ih =>
    cases ws with
    | nil => rfl
    | cons w ws => simp only [unifyAll, unify_comm t v w, ih]

end Variable

namespace Unifier

private theorem quantified_comm (s : Unifier) (v w : Variable) :
    s.quantified w v = s.quantified v w := by
  simp only [quantified, Variable.unify_comm _ v w]

private theorem arguments_comm (s : Unifier) (vs ws : List Variable) :
    s.arguments ws vs = s.arguments vs ws := by
  simp only [arguments, Variable.unifyAll_comm _ vs ws]

end Unifier

namespace Formula

/-- A formula without holes is matched alike from either side. -/
theorem unify_comm {p : Formula} (hp : p.holeFree) (q : Formula) (s : Unifier) :
    q.unify p s = p.unify q s := by
  -- where the pattern is a hole, or its head is another, there is nothing below to compare
  induction p generalizing q s with
  | hole h => cases hp
  | truth a =>
    cases q with
    | truth b => simp only [unify, eq_comm]
    | _ => rfl
  | atom a =>
    cases q with
    | atom b => simp only [unify, eq_comm]
    | _ => rfl
  | term v =>
    cases q with
    | term w => exact s.quantified_comm v w
    | _ => rfl
  | conj a b iha ihb =>
    simp only [holeFree, Bool.and_eq_true] at hp
    cases q with
    | conj c d => simp only [unify, iha hp.1, ihb hp.2]
    | _ => rfl
  | disj a b iha ihb =>
    simp only [holeFree, Bool.and_eq_true] at hp
    cases q with
    | disj c d => simp only [unify, iha hp.1, ihb hp.2]
    | _ => rfl
  | imp a b iha ihb =>
    simp only [holeFree, Bool.and_eq_true] at hp
    cases q with
    | imp c d => simp only [unify, iha hp.1, ihb hp.2]
    | _ => rfl
  | pred n vs =>
    cases q with
    | pred m ws =>
      have hsame : m = n ∧ ws.length = vs.length ↔ n = m ∧ vs.length = ws.length :=
        and_congr eq_comm eq_comm
      simp only [unify, hsame, s.arguments_comm vs ws]
    | _ => rfl
  | all v p ih =>
    simp only [holeFree, Bool.and_eq_true] at hp
    cases q with
    | all w q => simp only [unify, s.quantified_comm v w, ih hp.2]
    | _ => rfl
  | ex v p ih =>
    simp only [holeFree, Bool.and_eq_true] at hp
    cases q with
    | ex w q => simp only [unify, s.quantified_comm v w, ih hp.2]
    | _ => rfl

/-! ## Exactness -/

/-- Matching a formula without holes with a pattern, from any bindings, is exact.  It succeeds
    exactly if the bindings extend to a solution; if it does, it leaves the least solution; and with
    the two in the other order it answers and binds the same. -/
theorem matchWith_least (standing own : Bindings) (p q : Formula) (hp : p.holeFree)
    (hq : q.isPattern) :
    ((matchWith standing own p q).succeeded ↔ ∃ β, Solves own p q β) ∧
      ((matchWith standing own p q).succeeded →
        Solves own p q (matchWith standing own p q).bindings ∧
          ∀ β, Solves own p q β → (matchWith standing own p q).bindings.Within β) ∧
      matchWith standing own q p = matchWith standing own p q := by
  -- the bindings that are left solve the equation
  have hsound (h : (matchWith standing own p q).succeeded) :
      Solves own p q (matchWith standing own p q).bindings := by
    obtain ⟨hwithin, hinst⟩ := matchWith_sound hp hq h
    exact solves_of_instantiate hp hwithin (hinst _ (.refl _))
  -- every solution holds the bindings that are left
  have hcomplete {β} (hβ : Solves own p q β) :
      (matchWith standing own p q).succeeded ∧
        (matchWith standing own p q).bindings.Within β := by
    obtain ⟨hwithin, -, rfl⟩ := hβ
    exact matchWith_complete standing hq hp hwithin
  refine ⟨⟨fun h => ⟨_, hsound h⟩, ?_⟩, fun h => ⟨hsound h, fun β hβ => (hcomplete hβ).2⟩, ?_⟩
  · rintro ⟨β, hβ⟩
    exact (hcomplete hβ).1
  · simp only [matchWith, matchIn, unify_comm hp q]

/-- A hole that occurs twice and a hole for a quantified variable, where another hole has been bound
    before. -/
theorem matchWith_least_repeated_hole :
    let body : Formula := .pred "P" [.named "x"]
    let p : Formula := .all (.named "x") (.disj body (neg body))
    let q : Formula := .all (.hole "x") (.disj (.hole "a") (neg (.hole "a")))
    let own : Bindings := ⟨⟨[("b", .atom "B")]⟩, {}⟩
    let found : Bindings := ⟨⟨[("b", .atom "B"), ("a", body)]⟩, ⟨[("x", "x")]⟩⟩
    (p.holeFree ∧ q.isPattern) ∧ matchWith {} own p q = ⟨true, found, {}⟩ ∧
      Solves own p q found ∧ (∀ β, Solves own p q β → found.Within β) ∧
      matchWith {} own q p = ⟨true, found, {}⟩ := by
  intro body p q own found
  have hmatch : matchWith {} own p q = ⟨true, found, {}⟩ := by rfl
  obtain ⟨-, hleast, hcomm⟩ := matchWith_least {} own p q rfl rfl
  rw [hmatch] at hleast hcomm
  exact ⟨⟨rfl, rfl⟩, hmatch, (hleast rfl).1, (hleast rfl).2, hcomm⟩

end Formula

end Sequitur
