import Sequitur.Formula.Difference
import Sequitur.Proofs.Semantics

/-!
# Places in a formula

A place is a formula with one subformula taken out, reached through connectives and quantifiers.
Filling it with two formulas gives two formulas that agree everywhere else; `difference` finds such
a place for any two formulas, and truth depends on what stands in a place only through its truth
value, also below quantifiers that bind variables of it.

Two different formulas may agree outside several places.  These lie within one another: the way down
to the difference (`differencePlace`) leads through all of them, so it ends at the deepest.

## Key results

- `Place.fill_equivalent`: equivalent formulas may stand for each other in every place
- `difference_fill`, `differencePlace_fill`: the difference of formulas that agree outside a place
- `difference_deepest`: different formulas have a difference, and it is the deepest
-/

namespace Sequitur

universe u

/-- A formula with one subformula taken out. -/
inductive Place where
  | here
  | conjLeft (C : Place) (q : Formula)
  | conjRight (p : Formula) (C : Place)
  | disjLeft (C : Place) (q : Formula)
  | disjRight (p : Formula) (C : Place)
  | impLeft (C : Place) (q : Formula)
  | impRight (p : Formula) (C : Place)
  | all (v : Variable) (C : Place)
  | ex (v : Variable) (C : Place)
  deriving DecidableEq, Repr, Inhabited

namespace Place

/-- Put a formula into the place. -/
def fill : Place → Formula → Formula
  | here, f => f
  | conjLeft C q, f => .conj (C.fill f) q
  | conjRight p C, f => .conj p (C.fill f)
  | disjLeft C q, f => .disj (C.fill f) q
  | disjRight p C, f => .disj p (C.fill f)
  | impLeft C q, f => .imp (C.fill f) q
  | impRight p C, f => .imp p (C.fill f)
  | all v C, f => .all v (C.fill f)
  | ex v C, f => .ex v (C.fill f)

/-- The place `D` within what stands in the place `C`, as a place of the whole. -/
def comp : Place → Place → Place
  | here, D => D
  | conjLeft C q, D => conjLeft (C.comp D) q
  | conjRight p C, D => conjRight p (C.comp D)
  | disjLeft C q, D => disjLeft (C.comp D) q
  | disjRight p C, D => disjRight p (C.comp D)
  | impLeft C q, D => impLeft (C.comp D) q
  | impRight p C, D => impRight p (C.comp D)
  | all v C, D => all v (C.comp D)
  | ex v C, D => ex v (C.comp D)

/-- Filling a place within a place fills the inner one and then the outer one. -/
theorem fill_comp (C D : Place) (f : Formula) : (C.comp D).fill f = C.fill (D.fill f) := by
  induction C with
  | here => rfl
  | conjLeft C q ih | disjLeft C q ih | impLeft C q ih => simp only [comp, fill, ih]
  | conjRight p C ih | disjRight p C ih | impRight p C ih | all v C ih | ex v C ih =>
    simp only [comp, fill, ih]

/-- What stands in a place of a formula without holes has none either. -/
theorem holeFree_of_fill (C : Place) {f : Formula} (h : (C.fill f).holeFree) : f.holeFree := by
  induction C with
  | here => exact h
  | conjLeft C q ih | disjLeft C q ih | impLeft C q ih =>
    simp only [fill, Formula.holeFree, Bool.and_eq_true] at h
    exact ih h.1
  | conjRight p C ih | disjRight p C ih | impRight p C ih | all v C ih | ex v C ih =>
    simp only [fill, Formula.holeFree, Bool.and_eq_true] at h
    exact ih h.2

/-- A formula without holes may stand in any place of another one. -/
theorem holeFree_fill (C : Place) {f g : Formula} (h : (C.fill f).holeFree) (hg : g.holeFree) :
    (C.fill g).holeFree := by
  induction C with
  | here => exact hg
  | conjLeft C q ih | disjLeft C q ih | impLeft C q ih =>
    simp only [fill, Formula.holeFree, Bool.and_eq_true] at h ⊢
    exact ⟨ih h.1, h.2⟩
  | conjRight p C ih | disjRight p C ih | impRight p C ih | all v C ih | ex v C ih =>
    simp only [fill, Formula.holeFree, Bool.and_eq_true] at h ⊢
    exact ⟨h.1, ih h.2⟩

/-- Different formulas in one place give different formulas. -/
theorem fill_injective (C : Place) : Function.Injective C.fill := by
  induction C with
  | here => exact fun _ _ h => h
  | conjLeft C q ih | disjLeft C q ih | impLeft C q ih =>
    intro f g h
    -- what stands beside the place is the same on both sides
    injection h with h
    exact ih h
  | conjRight p C ih | disjRight p C ih | impRight p C ih | all v C ih | ex v C ih =>
    intro f g h
    injection h with _ h
    exact ih h

/-- Equivalent formulas may stand for each other in every place.  The assignment is generalized:
    below a quantifier the two are compared under another one. -/
theorem fill_equivalent (C : Place) {f g : Formula} (h : Formula.Equivalent.{u} f g) :
    Formula.Equivalent.{u} (C.fill f) (C.fill g) := by
  intro D M σ
  induction C generalizing σ with
  | here => exact h D M σ
  | conjLeft C q ih | disjLeft C q ih | impLeft C q ih =>
    simp only [fill, Formula.Holds, ih σ]
  | conjRight p C ih | disjRight p C ih | impRight p C ih =>
    simp only [fill, Formula.Holds, ih σ]
  | all v C ih =>
    simp only [fill, Formula.Holds]
    exact forall_congr' fun d => ih _
  | ex v C ih =>
    simp only [fill, Formula.Holds]
    exact exists_congr fun d => ih _

end Place

namespace Formula

/-- The place at which two formulas differ: the way down that `difference` takes. -/
def differencePlace : Formula → Formula → Place
  | conj a b, conj c d =>
    if a = c then .conjRight a (differencePlace b d)
    else if b = d then .conjLeft (differencePlace a c) b else .here
  | disj a b, disj c d =>
    if a = c then .disjRight a (differencePlace b d)
    else if b = d then .disjLeft (differencePlace a c) b else .here
  | imp a b, imp c d =>
    if a = c then .impRight a (differencePlace b d)
    else if b = d then .impLeft (differencePlace a c) b else .here
  | all v p, all w q => if v = w then .all v (differencePlace p q) else .here
  | ex v p, ex w q => if v = w then .ex v (differencePlace p q) else .here
  | _, _ => .here

/-- The two formulas that `difference` returns stand in one place, outside which the formulas that
    were compared agree. -/
private theorem fill_differencePlace {p q s t : Formula} (h : p.difference q = .ok (s, t)) :
    p = (p.differencePlace q).fill s ∧ q = (p.differencePlace q).fill t := by
  fun_induction difference p q with
  -- connectives whose left sides agree, and quantifiers over the same variable
  | case1 _ _ _ ih | case4 _ _ _ ih | case7 _ _ _ ih | case10 _ _ _ ih | case12 _ _ _ ih =>
    obtain ⟨hp, hq⟩ := ih h
    simp only [differencePlace, if_true, Place.fill, ← hp, ← hq, and_self]
  -- connectives of which only the right sides agree
  | case2 _ _ _ hne ih | case5 _ _ _ hne ih | case8 _ _ _ hne ih =>
    obtain ⟨hp, hq⟩ := ih h
    simp only [differencePlace, if_neg hne, if_true, Place.fill, ← hp, ← hq, and_self]
  -- both sides differ, or the quantified variables
  | case3 _ _ _ _ hne hne' | case6 _ _ _ _ hne hne' | case9 _ _ _ _ hne hne' =>
    cases h
    simp only [differencePlace, if_neg hne, if_neg hne', Place.fill, and_self]
  | case11 _ _ _ _ hne | case13 _ _ _ _ hne =>
    cases h
    simp only [differencePlace, if_neg hne, Place.fill, and_self]
  | case14 => simp at h
  -- there is nothing below
  | case15 =>
    cases h
    exact ⟨rfl, rfl⟩
  | case16 p q hconj hdisj himp hall hex hpred =>
    cases h
    rw [differencePlace]
    · exact ⟨rfl, rfl⟩
    · exact hconj
    · exact hdisj
    · exact himp
    · exact hall
    · exact hex

/-- What `difference` returns stands in one place of the two formulas. -/
theorem exists_fill_of_difference {p q s t : Formula} (h : p.difference q = .ok (s, t)) :
    ∃ C : Place, p = C.fill s ∧ q = C.fill t :=
  ⟨p.differencePlace q, fill_differencePlace h⟩

/-- Formulas that agree outside a place differ where the formulas in that place differ. -/
theorem difference_fill (C : Place) {s t : Formula} (h : s ≠ t) :
    (C.fill s).difference (C.fill t) = s.difference t := by
  induction C with
  | here => rfl
  | conjLeft C q ih | disjLeft C q ih | impLeft C q ih =>
    have hne : C.fill s ≠ C.fill t := C.fill_injective.ne h
    simpa only [Place.fill, difference, if_neg hne, if_true] using ih
  | conjRight p C ih | disjRight p C ih | impRight p C ih | all v C ih | ex v C ih =>
    simpa only [Place.fill, difference, if_true] using ih

/-- The way down to the difference of formulas that agree outside a place leads through it. -/
theorem differencePlace_fill (C : Place) {s t : Formula} (h : s ≠ t) :
    (C.fill s).differencePlace (C.fill t) = C.comp (s.differencePlace t) := by
  induction C with
  | here => rfl
  | conjLeft C q ih | disjLeft C q ih | impLeft C q ih =>
    have hne : C.fill s ≠ C.fill t := C.fill_injective.ne h
    simp only [Place.fill, Place.comp, differencePlace, if_neg hne, if_true, ih]
  | conjRight p C ih | disjRight p C ih | impRight p C ih | all v C ih | ex v C ih =>
    simp only [Place.fill, Place.comp, differencePlace, if_true, ih]

/-- Different formulas differ somewhere. -/
theorem exists_difference {p q : Formula} (h : p ≠ q) :
    ∃ s t, p.difference q = .ok (s, t) ∧ s ≠ t := by
  fun_induction difference p q with
  -- what agrees on one side, or in the quantified variable, differs in the rest
  | case1 _ _ _ ih | case4 _ _ _ ih | case7 _ _ _ ih | case10 _ _ _ ih | case12 _ _ _ ih =>
    exact ih fun heq => h (heq ▸ rfl)
  | case2 _ _ _ _ ih | case5 _ _ _ _ ih | case8 _ _ _ _ ih =>
    exact ih fun heq => h (heq ▸ rfl)
  | case14 _ _ _ _ heq => exact absurd heq h
  | case3 | case6 | case9 | case11 | case13 | case15 | case16 => exact ⟨_, _, rfl, h⟩

/-- The order of the two formulas does not matter to where they differ. -/
theorem difference_comm (p q : Formula) : q.difference p = (p.difference q).map Prod.swap := by
  fun_induction difference p q with
  -- the sides on which two connectives agree are the same in either order
  | case1 _ _ _ ih | case4 _ _ _ ih | case7 _ _ _ ih | case10 _ _ _ ih | case12 _ _ _ ih =>
    simpa only [difference, if_true] using ih
  | case2 _ _ _ hne ih | case5 _ _ _ hne ih | case8 _ _ _ hne ih =>
    simpa only [difference, if_neg (Ne.symm hne), if_true] using ih
  | case3 _ _ _ _ hne hne' | case6 _ _ _ _ hne hne' | case9 _ _ _ _ hne hne' =>
    rw [difference, if_neg (Ne.symm hne), if_neg (Ne.symm hne')]
    rfl
  | case11 _ _ _ _ hne | case13 _ _ _ _ hne | case15 _ _ _ _ hne =>
    rw [difference, if_neg (Ne.symm hne)]
    rfl
  | case14 _ _ _ _ heq =>
    cases heq
    rw [difference, if_pos rfl]
    rfl
  | case16 p q hconj hdisj himp hall hex hpred =>
    -- two formulas with different heads
    rw [difference]
    · rfl
    · exact fun a b c d hq hp => hconj c d a b hp hq
    · exact fun a b c d hq hp => hdisj c d a b hp hq
    · exact fun a b c d hq hp => himp c d a b hp hq
    · exact fun w r v r' hq hp => hall v r' w r hp hq
    · exact fun w r v r' hq hp => hex v r' w r hp hq
    · exact fun m ys n xs hq hp => hpred n xs m ys hp hq

/-- Different formulas have a difference, two different formulas in one place outside which the
    given ones agree.  It is the deepest: wherever else the given formulas agree outside a place,
    the place of the difference lies within that one. -/
theorem difference_deepest (p q : Formula) (h : p ≠ q) :
    ∃ s t, p.difference q = .ok (s, t) ∧ s ≠ t ∧
      ∃ C : Place, p = C.fill s ∧ q = C.fill t ∧
        ∀ (D : Place) (s' t' : Formula), p = D.fill s' → q = D.fill t' →
          ∃ E : Place, C = D.comp E ∧ s' = E.fill s ∧ t' = E.fill t := by
  obtain ⟨s, t, hdiff, hne⟩ := exists_difference h
  obtain ⟨hp, hq⟩ := fill_differencePlace hdiff
  refine ⟨s, t, hdiff, hne, p.differencePlace q, hp, hq, fun D s' t' hp' hq' => ?_⟩
  have hne' : s' ≠ t' := by
    intro heq
    apply h
    rw [hp', hq', heq]
  have hplace : p.differencePlace q = D.comp (s'.differencePlace t') := by
    rw [hp', hq', differencePlace_fill D hne']
  refine ⟨s'.differencePlace t', hplace, ?_, ?_⟩
  -- what stands in the outer place is the same on both readings of it
  · apply D.fill_injective
    rw [← hp', ← Place.fill_comp, ← hplace, ← hp]
  · apply D.fill_injective
    rw [← hq', ← Place.fill_comp, ← hplace, ← hq]

/-- The difference is below a connective and a quantifier, and the body of the quantifier is a place
    around it. -/
theorem difference_deepest_below_quantifier :
    let P := pred "P" [.named "x"]
    let Q := pred "Q" [.named "x"]
    let p := conj (atom "A") (all (.named "x") (disj P (atom "B")))
    let q := conj (atom "A") (all (.named "x") (disj Q (atom "B")))
    p ≠ q ∧ p.difference q = .ok (P, Q) ∧
      ∃ C E : Place, p = C.fill P ∧ q = C.fill Q ∧
        C = (Place.conjRight (atom "A") (.all (.named "x") .here)).comp E ∧
        disj P (atom "B") = E.fill P ∧ disj Q (atom "B") = E.fill Q := by
  intro P Q p q
  have hne : p ≠ q := by decide
  have hdiff : p.difference q = .ok (P, Q) := rfl
  obtain ⟨s, t, hst, -, C, hp, hq, hdeepest⟩ := difference_deepest p q hne
  cases hdiff.symm.trans hst
  obtain ⟨E, hE, hs, ht⟩ :=
    hdeepest (.conjRight (atom "A") (.all (.named "x") .here)) _ _ rfl rfl
  exact ⟨hne, hdiff, C, E, hp, hq, hE, hs, ht⟩

end Formula

end Sequitur
