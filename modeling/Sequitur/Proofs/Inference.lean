import Sequitur.Proof.Argument
import Sequitur.Proofs.Examination
import Sequitur.Proofs.Replacement

/-!
# Soundness of single arguments

What an argument that is accepted has found about the shapes of the formulas, and that a formula so
obtained is true wherever the formulas of the cited lines are.  Three arguments are left out.  An
assumption has nothing to rest on, a deduction rests on a whole block, and a disjunctive syllogism
is content with either side of the disjunction, also the one that is denied.  When that is sound is
said on its own.

The last part is about the formulas that need no mention among the hypotheses of a result: the
instances of the excluded middle.
-/

namespace Sequitur

universe u

namespace Formula

/-! ## Shapes -/

/-- Only an implication is applied, and only to its hypothesis. -/
private theorem apply_eq_ok {f x q : Formula} : f.apply x = .ok q ↔ f = imp x q := by
  cases f with
  | imp p r => simp only [apply]; split <;> simp_all
  | _ => simp [apply]

/-- Two implications are composed where one ends with what the other begins with. -/
private theorem compose_eq_ok {f g h : Formula} :
    f.compose g = .ok h ↔ ∃ p q r, f = imp p q ∧ g = imp q r ∧ h = imp p r := by
  constructor
  · intro hc
    unfold compose at hc
    split at hc
    · split at hc
      · rename_i p q r s hqr
        subst hqr
        cases hc
        exact ⟨p, q, s, rfl, rfl, rfl⟩
      · cases hc
    · cases hc
    · cases hc
  · rintro ⟨p, q, r, rfl, rfl, rfl⟩
    simp [compose]

/-- Two implications to one formula become one from the disjunction of their hypotheses. -/
private theorem copair_eq_ok {f g h : Formula} :
    f.copair g = .ok h ↔ ∃ p q r, f = imp p q ∧ g = imp r q ∧ h = imp (disj p r) q := by
  constructor
  · intro hc
    unfold copair at hc
    split at hc
    · split at hc
      · rename_i p q r s hqs
        subst hqs
        cases hc
        exact ⟨p, q, r, rfl, rfl, rfl⟩
      · cases hc
    · cases hc
    · cases hc
  · rintro ⟨p, q, r, rfl, rfl, rfl⟩
    simp [copair]

/-- A formula denies what it is the negation of. -/
private theorem denied_eq_ok {f p : Formula} : f.denied = .ok p ↔ f = neg p := by
  unfold denied
  split <;> simp_all [neg]

/-- A disjunction of `a` and `b`, in either order, and the negation of `a`. -/
def Excludes (d n a b : Formula) : Prop := (d = disj a b ∨ d = disj b a) ∧ n = neg a

end Formula

namespace Argument

open Formula

/-- When a modus tollens yields a formula. -/
private theorem checkTollens_eq_true {f x : Cited} {e : Formula} :
    checkTollens f x e = .ok true ↔
      ∃ p q, f.formula = imp p q ∧ x.formula = neg q ∧ e = neg p := by
  unfold checkTollens
  constructor
  · intro h
    split at h
    · cases h
    · rename_i a ha
      split at h
      · cases h
      · rename_i c hc
        obtain ⟨p, q, r, hf, hx, rfl⟩ := compose_eq_ok.mp hc
        -- both views of the second formula: a negation, and an implication to be composed
        rw [denied_eq_ok] at ha
        rw [ha] at hx
        cases hx
        simp only [Except.ok.injEq, decide_eq_true_eq] at h
        exact ⟨p, a, hf, ha, h.symm⟩
  · rintro ⟨p, q, hf, hx, rfl⟩
    have hdenied : (neg q).denied = .ok q := denied_eq_ok.mpr rfl
    have hcompose : (imp p q).compose (neg q) = .ok (neg p) :=
      compose_eq_ok.mpr ⟨p, q, _, rfl, rfl, rfl⟩
    simp [hf, hx, hdenied, hcompose]

/-- When a simplification yields a formula. -/
private theorem checkSimplification_eq_true {f e : Formula} :
    checkSimplification f e = .ok true ↔ ∃ p q, f = conj p q ∧ (e = p ∨ e = q) := by
  cases f with
  | conj p q =>
    simp only [checkSimplification, projLeft, projRight, Except.ok.injEq, decide_eq_true_eq]
    exact ⟨fun h => ⟨p, q, rfl, h⟩, by rintro ⟨_, _, ⟨⟩, h⟩; exact h⟩
  | _ => simp [checkSimplification, projLeft, projRight]

/-- When an addition yields a formula. -/
private theorem checkAddition_eq_true {f e : Formula} :
    checkAddition f e = .ok true ↔ ∃ p q, e = disj p q ∧ (f = p ∨ f = q) := by
  cases e with
  | disj p q =>
    simp only [checkAddition, Except.ok.injEq, decide_eq_true_eq]
    exact ⟨fun h => ⟨p, q, rfl, h⟩, by rintro ⟨_, _, ⟨⟩, h⟩; exact h⟩
  | _ => simp [checkAddition]

/-- When a disjunctive syllogism yields a formula: either side of the disjunction will do. -/
private theorem checkSyllogism_eq_true {d : Cited} {n e : Formula} :
    checkSyllogism d n e = .ok true ↔ ∃ a b, Excludes d.formula n a b ∧ (e = a ∨ e = b) := by
  unfold checkSyllogism
  constructor
  · intro h
    split at h
    · rename_i p q hd
      split at h
      · cases h
      · rename_i a ha
        split at h
        · rename_i hside
          simp only [Except.ok.injEq, decide_eq_true_eq] at h
          rw [denied_eq_ok] at ha
          -- which side is denied says which one is left
          rcases hside with rfl | rfl
          · exact ⟨a, q, ⟨.inl hd, ha⟩, h⟩
          · exact ⟨a, p, ⟨.inr hd, ha⟩, h.symm⟩
        · cases h
    · cases h
  · rintro ⟨a, b, ⟨hd | hd, rfl⟩, hside⟩
    · simp [hd, denied_eq_ok.mpr, hside]
    · simp [hd, denied_eq_ok.mpr, hside.symm]

/-- When the elimination of a disjunction yields a formula. -/
private theorem checkElimination_eq_true {d f g e : Formula} :
    checkElimination d f g e = .ok true ↔
      ∃ p r, d = disj p r ∧ f = imp p e ∧ g = imp r e := by
  unfold checkElimination
  constructor
  · intro h
    split at h
    · cases h
    · rename_i c hc
      obtain ⟨p, q, r, rfl, rfl, rfl⟩ := copair_eq_ok.mp hc
      split at h
      · cases h
      · rename_i q' ha
        -- the pair of implications was applied to the disjunction, so they have its sides for
        -- hypotheses
        cases apply_eq_ok.mp ha
        simp only [Except.ok.injEq, decide_eq_true_eq] at h
        subst h
        exact ⟨p, r, rfl, rfl, rfl⟩
  · rintro ⟨p, r, rfl, rfl, rfl⟩
    have hcopair : (imp p e).copair (imp r e) = .ok (imp (disj p r) e) :=
      copair_eq_ok.mpr ⟨p, e, r, rfl, rfl, rfl⟩
    simp [hcopair, apply_eq_ok.mpr]

/-- When a deduction yields a formula. -/
theorem checkDeduction_eq_true {hyp e : Formula} {results : List Formula} :
    checkDeduction hyp results e = .ok true ↔ ∃ q ∈ results, e = imp hyp q := by
  unfold checkDeduction
  split
  · split
    · split <;> simp_all
    · simp_all
  · simp_all

private theorem checkResult_eq_true {f e : Formula} : checkResult f e = .ok true ↔ f = e := by
  unfold checkResult
  split <;> simp_all

/-! ## Soundness -/

/-- The cited lines. -/
def premises : Argument → List Cited
  | modusPonens a b | modusTollens a b | hypotheticalSyllogism a b | disjunctiveSyllogism a b
  | conjunction a b | disjunction a b => [a, b]
  | disjunctiveElimination a b c => [a, b, c]
  | simplification a | addition a | replacement _ a | existentialInstantiation a
  | existentialGeneralization a | universalInstantiation a | universalGeneralization a => [a]
  | assumption | deduction _ _ => []

/-- Whether the argument infers its formula from cited lines, by a rule other than disjunctive
    syllogism. -/
def infers : Argument → Bool
  | assumption | deduction _ _ | disjunctiveSyllogism _ _ => false
  | _ => true

/-- An argument rests on all lines that its rule is applied to. -/
theorem premises_of_argument? {rule : Rule} {cs : List Cited} {arg : Argument}
    (h : rule.argument? cs = some arg) : arg.premises = cs := by
  unfold Rule.argument? at h
  split at h <;> cases h <;> rfl

/-- A formula that is inferred is true wherever the formulas of the cited lines are. -/
theorem typecheck_sound {arg : Argument} {f : Formula} {σ σ' : Bindings} (hinfers : arg.infers)
    (hpremises : ∀ c ∈ arg.premises, c.formula.holeFree) (hf : f.holeFree)
    (h : arg.typecheck σ f = (.ok true, σ')) :
    Entailed.{u} (arg.premises.map Cited.formula) f := by
  intro D M ν htrue
  cases arg with
  | assumption | deduction _ _ | disjunctiveSyllogism _ _ => cases hinfers
  | existentialInstantiation _ | existentialGeneralization _ | universalInstantiation _
  | universalGeneralization _ => cases h
  | replacement law old =>
    simp only [premises, List.map_cons, List.map_nil, List.forall_mem_singleton] at htrue hpremises
    simp only [typecheck] at h
    split at h
    · cases h
    · rename_i r σ₁ hreplace
      -- the two formulas are equivalent, whatever was replaced
      have hdescribes := Equivalence.describes_of_replace hpremises hf law.isPattern_left
        law.isPattern_right hreplace
      exact (Law.equivalent_of_describes hdescribes D M ν).mp htrue
  | modusPonens a b =>
    obtain ⟨ha, hb⟩ : a.formula.Holds M ν ∧ b.formula.Holds M ν := by simpa [premises] using htrue
    have happly := mapError_eq_ok.mp (congrArg Prod.fst h)
    cases hq : a.formula.apply b.formula with
    | error r => simp [hq, Except.map] at happly
    | ok q =>
      simp only [hq, Except.map, Except.ok.injEq, decide_eq_true_eq] at happly
      rw [apply_eq_ok.mp hq, happly] at ha
      exact ha hb
  | hypotheticalSyllogism a b =>
    obtain ⟨ha, hb⟩ : a.formula.Holds M ν ∧ b.formula.Holds M ν := by simpa [premises] using htrue
    have hcompose := mapError_eq_ok.mp (congrArg Prod.fst h)
    cases hc : a.formula.compose b.formula with
    | error r => simp [hc, Except.map] at hcompose
    | ok c =>
      simp only [hc, Except.map, Except.ok.injEq, decide_eq_true_eq] at hcompose
      obtain ⟨p, q, r, hpq, hqr, rfl⟩ := compose_eq_ok.mp hc
      rw [hpq] at ha
      rw [hqr] at hb
      exact hcompose ▸ fun hp => hb (ha hp)
  | modusTollens a b =>
    obtain ⟨ha, hb⟩ : a.formula.Holds M ν ∧ b.formula.Holds M ν := by simpa [premises] using htrue
    obtain ⟨p, q, hpq, hq, rfl⟩ := checkTollens_eq_true.mp (mapError_eq_ok.mp (congrArg Prod.fst h))
    rw [hpq] at ha
    rw [hq] at hb
    exact fun hp => hb (ha hp)
  | simplification a =>
    have ha : a.formula.Holds M ν := by simpa [premises] using htrue
    obtain ⟨p, q, hpq, hside⟩ :=
      checkSimplification_eq_true.mp (mapError_eq_ok.mp (congrArg Prod.fst h))
    rw [hpq] at ha
    rcases hside with rfl | rfl
    · exact ha.1
    · exact ha.2
  | addition a =>
    have ha : a.formula.Holds M ν := by simpa [premises] using htrue
    obtain ⟨p, q, rfl, hside⟩ := checkAddition_eq_true.mp (mapError_eq_ok.mp (congrArg Prod.fst h))
    rcases hside with hp | hq
    · exact .inl (hp ▸ ha)
    · exact .inr (hq ▸ ha)
  | disjunctiveElimination d a b =>
    obtain ⟨hd, ha, hb⟩ : d.formula.Holds M ν ∧ a.formula.Holds M ν ∧ b.formula.Holds M ν := by
      simpa [premises] using htrue
    obtain ⟨p, r, hpr, hp, hr⟩ :=
      checkElimination_eq_true.mp (mapError_eq_ok.mp (congrArg Prod.fst h))
    rw [hpr] at hd
    rw [hp] at ha
    rw [hr] at hb
    exact hd.elim ha hb
  | conjunction a b =>
    obtain rfl := checkResult_eq_true.mp (mapError_eq_ok.mp (congrArg Prod.fst h))
    simpa [premises, Holds] using htrue
  | disjunction a b =>
    obtain rfl := checkResult_eq_true.mp (mapError_eq_ok.mp (congrArg Prod.fst h))
    -- one of the two would be enough
    obtain ⟨ha, -⟩ : a.formula.Holds M ν ∧ b.formula.Holds M ν := by simpa [premises] using htrue
    exact .inl ha

end Argument

/-! ## Disjunctive syllogism -/

section Excludes

open Formula

variable {d n a b : Formula} (h : Excludes d n a b)

include h

/-- Both formulas are true just where the side that is left is true and the other is not. -/
private theorem Formula.Excludes.holds_iff {D : Type u} (M : Structure D) (ν : Variable → D) :
    (∀ g ∈ [d, n], g.Holds M ν) ↔ b.Holds M ν ∧ ¬ a.Holds M ν := by
  have hboth : (∀ g ∈ [d, n], g.Holds M ν) ↔ d.Holds M ν ∧ n.Holds M ν := by simp
  rw [hboth]
  obtain ⟨rfl | rfl, rfl⟩ := h <;> simp only [Holds, Bool.false_eq_true] <;> tauto

/-- The side that is left follows. -/
private theorem Formula.Excludes.entailed_left : Entailed.{u} [d, n] b :=
  fun _ M ν htrue => ((h.holds_iff M ν).mp htrue).1

/-- The side that is denied follows only where it follows from the other side alone. -/
private theorem Formula.Excludes.entailed_denied_iff :
    Entailed.{u} [d, n] a ↔ Entailed.{u} [b] a := by
  constructor
  · intro hent D M ν htrue
    -- where the denied side were false, both formulas would be true
    by_contra ha
    exact ha (hent D M ν ((h.holds_iff M ν).mpr ⟨htrue b List.mem_cons_self, ha⟩))
  · intro hent D M ν htrue
    apply hent D M ν
    simpa using ((h.holds_iff M ν).mp htrue).1

end Excludes

namespace Argument

open Formula

/-- A disjunctive syllogism accepts both sides of a disjunction of which one is denied.  The side
    that is left follows, and the one that is denied only where it follows from the other. -/
theorem disjunctiveSyllogism_sound_iff (standing : Bindings) (d n : Cited) (e : Formula) :
    (((disjunctiveSyllogism d n).typecheck standing e).1 = .ok true ↔
      ∃ a b, Excludes d.formula n.formula a b ∧ (e = a ∨ e = b)) ∧
    ∀ a b, Excludes d.formula n.formula a b → e = a ∨ e = b →
      (Entailed.{u} [d.formula, n.formula] e ↔ e = b ∨ Entailed.{u} [b] a) := by
  constructor
  · show (checkSyllogism d n.formula e).mapError Failure.refusal = .ok true ↔ _
    rw [mapError_eq_ok, checkSyllogism_eq_true]
  · intro a b hex hside
    -- the formula is the side that is left, or else the one that is denied
    by_cases he : e = b
    · subst he
      simp [hex.entailed_left]
    · obtain rfl := hside.resolve_right he
      simp [he, hex.entailed_denied_iff]

/-- The denied side follows from a disjunction whose other side contains it. -/
theorem disjunctiveSyllogism_sound_iff_contained :
    let a := atom "A"
    let b := conj (atom "A") (atom "B")
    let d : Cited := ⟨0, 1, disj b a⟩
    let n : Cited := ⟨1, 2, neg a⟩
    (Excludes d.formula n.formula a b ∧
      ((disjunctiveSyllogism d n).typecheck {} a).1 = .ok true) ∧
      Entailed.{u} [d.formula, n.formula] a := by
  intro a b d n
  have hex : Excludes d.formula n.formula a b := ⟨.inr rfl, rfl⟩
  obtain ⟨haccepts, hsound⟩ := disjunctiveSyllogism_sound_iff.{u} {} d n a
  refine ⟨⟨hex, haccepts.mpr ⟨a, b, hex, .inl rfl⟩⟩, (hsound a b hex (.inl rfl)).mpr (.inr ?_)⟩
  intro D M ν htrue
  exact (htrue b List.mem_cons_self).1

/-- The denied side is accepted where it does not follow. -/
theorem denied_side_passes :
    let d : Cited := ⟨0, 1, disj (atom "A") (atom "B")⟩
    let n : Cited := ⟨1, 2, neg (atom "A")⟩
    ((disjunctiveSyllogism d n).typecheck {} (atom "A")).1 = .ok true ∧
      ¬ Entailed.{u} [d.formula, n.formula] (atom "A") := by
  intro d n
  refine ⟨rfl, fun hent => ?_⟩
  -- a structure in which only the other side is true
  let M : Structure PUnit.{u + 1} := ⟨(· = "B"), fun _ _ => False, fun _ => False⟩
  have hA : (atom "A").Holds M fun _ => ⟨⟩ := hent _ M _ (by simp [d, n, M, Holds])
  exact absurd hA (by simp [M, Holds])

end Argument

/-! ## The excluded middle -/

namespace Formula

/-- A formula or its negation, in either order. -/
def ExcludedMiddle (p : Formula) : Prop := ∃ q, p = disj q (neg q) ∨ p = disj (neg q) q

/-- An instance of the excluded middle is true everywhere. -/
theorem ExcludedMiddle.holds {p : Formula} (h : p.ExcludedMiddle) {D : Type u} (M : Structure D)
    (ν : Variable → D) : p.Holds M ν := by
  obtain ⟨q, rfl | rfl⟩ := h
  · simp only [Holds, Bool.false_eq_true]
    exact em _
  · simp only [Holds, Bool.false_eq_true]
    exact (em _).symm

/-- A match in standing variables is sound. -/
private theorem matchVariablesStanding_sound {standing : Bindings} {p q : Formula} (hp : p.holeFree)
    (hq : q.isPattern) (h : (matchVariablesStanding standing p q).succeeded) :
    q.instantiate (matchVariablesStanding standing p q).bindings = p :=
  (unify_sound hp hq (Prod.ext h rfl)).2 _ (.refl _)

/-- Exactly the instances of the excluded middle are found, whatever is bound already. -/
theorem isExcludedMiddle_iff (standing : Bindings) {p : Formula} (hp : p.holeFree) :
    (p.isExcludedMiddle standing).1 ↔ p.ExcludedMiddle := by
  constructor
  · intro h
    -- the pattern that matched becomes the formula
    by_cases hfirst :
        (matchVariablesStanding standing p (disj (hole "a") (neg (hole "a")))).succeeded
    · have hinst := matchVariablesStanding_sound hp rfl hfirst
      exact ⟨_, .inl hinst.symm⟩
    · simp only [isExcludedMiddle, hfirst] at h
      have hinst := matchVariablesStanding_sound hp rfl h
      exact ⟨_, .inr hinst.symm⟩
  · rintro ⟨q, rfl | rfl⟩
    · -- the hole is bound to the first side and compared with the second
      simp only [holeFree, Bool.and_eq_true] at hp
      simp [isExcludedMiddle, matchVariablesStanding, matchIn, unify, unify_hole hp.1,
        Unifier.bindFormula, Table.bind]
    · simp only [holeFree, Bool.and_eq_true] at hp
      simp [isExcludedMiddle, matchVariablesStanding, matchIn, unify, unify_hole hp.2,
        Unifier.bindFormula, Table.bind]

end Formula

end Sequitur
