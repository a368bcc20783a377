import Sequitur.Matching

/-!
# Matches, meeting by meeting

Going through two formulas side by side brings together holes and what stands opposite, quantified
variables, and arguments of predicates.  Which ones meet, and in which order, depends on the two
formulas alone (`Formula.meetings`).  A match settles these meetings one after another up to the
first that fails; what has been bound decides how a meeting ends, but not what meets.

So what is to be said about all matches is said about one meeting, and follows for rows of them.

## Key results

- `settleAll_append`: a row of meetings is settled part by part
- `Formula.unify_eq_settleAll`: matching settles the meetings of the two formulas
-/

namespace Sequitur

/-- What a match comes across in two formulas. -/
inductive Meeting where
  /-- A hole for a formula, and the formula opposite. -/
  | hole (name : String) (f : Formula)
  /-- Two quantified variables. -/
  | quantified (v w : Variable)
  /-- Two arguments of predicates. -/
  | argument (v w : Variable)
  /-- Two formulas that differ at the top. -/
  | mismatch
  deriving DecidableEq, Repr, Inhabited

namespace Unifier

/-- Settle one meeting. -/
def settle (s : Unifier) : Meeting → Bool × Unifier
  | .hole h f => s.bindFormula h f
  | .quantified v w => s.quantified v w
  | .argument v w =>
    let (ok, t) := v.unify s.standing w
    (ok, { s with standing := t })
  | .mismatch => (false, s)

/-- Settle meetings one after another, up to the first that fails. -/
def settleAll (s : Unifier) : List Meeting → Bool × Unifier
  | [] => (true, s)
  | m :: ms =>
    match s.settle m with
    | (true, s') => s'.settleAll ms
    | failed => failed

/-- Meetings are settled in order, and those after a failure are not looked at. -/
theorem settleAll_append (s : Unifier) (ms ns : List Meeting) :
    s.settleAll (ms ++ ns) =
      match s.settleAll ms with
      | (true, s') => s'.settleAll ns
      | failed => failed := by
  induction ms generalizing s with
  | nil => rfl
  | cons m ms ih =>
    simp only [List.cons_append, settleAll]
    rcases s.settle m with ⟨_ | _, s'⟩
    · rfl
    · exact ih s'

/-- A single meeting. -/
private theorem settleAll_singleton (s : Unifier) (m : Meeting) : s.settleAll [m] = s.settle m := by
  simp only [settleAll]
  rcases s.settle m with ⟨_ | _, s'⟩ <;> rfl

/-- The arguments of predicates meet place by place. -/
private theorem arguments_eq_settleAll (s : Unifier) (vs ws : List Variable) :
    s.arguments vs ws = s.settleAll (List.zipWith .argument vs ws) := by
  induction vs generalizing s ws with
  | nil => rfl
  | cons v vs ih =>
    cases ws with
    | nil => rfl
    | cons w ws =>
      have ih := ih { s with standing := (v.unify s.standing w).2 } ws
      -- the first arguments leave a standing table to the others, unless they differ
      simp only [arguments, Variable.unifyAll, List.zipWith_cons_cons, settleAll, settle] at ih ⊢
      rcases hv : v.unify s.standing w with ⟨_ | _, t⟩
      · rfl
      · rw [hv] at ih
        exact ih

end Unifier

namespace Formula

/-- What meets in two formulas, in the order in which a match comes across it. -/
def meetings : Formula → Formula → List Meeting
  | hole h, q => [.hole h q]
  | p, hole h => [.hole h p]
  | term v, term w => [.quantified v w]
  | conj a b, conj c d | disj a b, disj c d | imp a b, imp c d => a.meetings c ++ b.meetings d
  | all v p, all w q | ex v p, ex w q => .quantified v w :: p.meetings q
  | pred n vs, pred m ws =>
    if n = m ∧ vs.length = ws.length then List.zipWith .argument vs ws else [.mismatch]
  | truth a, truth b => if a = b then [] else [.mismatch]
  | atom a, atom b => if a = b then [] else [.mismatch]
  | _, _ => [.mismatch]

/-- A formula that meets a hole meets nothing else. -/
private theorem unify_hole_eq_settleAll (p : Formula) (h : String) (s : Unifier) :
    p.unify (hole h) s = s.settleAll (p.meetings (hole h)) := by
  cases p <;> exact (s.settleAll_singleton (.hole _ _)).symm

/-- A match settles what meets in the two formulas. -/
theorem unify_eq_settleAll (p q : Formula) (s : Unifier) :
    p.unify q s = s.settleAll (p.meetings q) := by
  -- where the two formulas differ at the top, both sides fail at once
  induction p generalizing q s with
  | hole h => rw [unify, meetings, Unifier.settleAll_singleton, Unifier.settle]
  | truth a =>
    cases q with
    | hole h => exact unify_hole_eq_settleAll _ h s
    | truth b =>
      by_cases hab : a = b
      · rw [meetings, if_pos hab, unify, decide_eq_true hab]
        rfl
      · rw [meetings, if_neg hab, unify, decide_eq_false hab]
        rfl
    | _ => rfl
  | atom a =>
    cases q with
    | hole h => exact unify_hole_eq_settleAll _ h s
    | atom b =>
      by_cases hab : a = b
      · rw [meetings, if_pos hab, unify, decide_eq_true hab]
        rfl
      · rw [meetings, if_neg hab, unify, decide_eq_false hab]
        rfl
    | _ => rfl
  | term v =>
    cases q with
    | hole h => exact unify_hole_eq_settleAll _ h s
    | term w => exact (s.settleAll_singleton (.quantified v w)).symm
    | _ => rfl
  | conj a b iha ihb =>
    cases q with
    | hole h => exact unify_hole_eq_settleAll _ h s
    | conj c d =>
      -- what meets on the left is settled before what meets on the right
      rw [meetings, Unifier.settleAll_append, ← iha]
      simp only [← ihb]
      rfl
    | _ => rfl
  | disj a b iha ihb =>
    cases q with
    | hole h => exact unify_hole_eq_settleAll _ h s
    | disj c d =>
      rw [meetings, Unifier.settleAll_append, ← iha]
      simp only [← ihb]
      rfl
    | _ => rfl
  | imp a b iha ihb =>
    cases q with
    | hole h => exact unify_hole_eq_settleAll _ h s
    | imp c d =>
      rw [meetings, Unifier.settleAll_append, ← iha]
      simp only [← ihb]
      rfl
    | _ => rfl
  | pred n vs =>
    cases q with
    | hole h => exact unify_hole_eq_settleAll _ h s
    | pred m ws =>
      -- predicates of different names or lengths do not get to their arguments
      by_cases hsame : n = m ∧ vs.length = ws.length
      · rw [meetings, if_pos hsame, unify, if_pos hsame, Unifier.arguments_eq_settleAll]
      · rw [meetings, if_neg hsame, unify, if_neg hsame]
        rfl
    | _ => rfl
  | all v p ih =>
    cases q with
    | hole h => exact unify_hole_eq_settleAll _ h s
    | all w q =>
      -- the quantified variables meet before the bodies
      simp only [meetings, Unifier.settleAll, ← ih]
      rfl
    | _ => rfl
  | ex v p ih =>
    cases q with
    | hole h => exact unify_hole_eq_settleAll _ h s
    | ex w q =>
      simp only [meetings, Unifier.settleAll, ← ih]
      rfl
    | _ => rfl

end Formula

end Sequitur
