import Sequitur.Proofs.Replacement

/-!
# Applications of laws

A law is applied at a place of a formula by putting one of its sides for the other there.  To find
the application again, replacement looks at the deepest place where the two formulas differ, and
that need not be the place of the application: where the two sides have the same head and agree on
one part, the difference lies further down.

For fifteen of the laws this does no harm.  The two sides of an instance agree on no part, except
for a double negation within a negation, and there the difference is a double negation again.  So
exactly the applications are justified.  The sides of a contraposition agree on a part when one of
its two formulas is the negation of the other; what is left then is a double negation, which
contraposition does not justify.

## Key results

- `Equivalence.justifies_iff`: a step is justified when the place of its difference is an instance
- `Equivalence.justifies_either_way`: directions do not matter
- `Law.replace_succeeds_iff`: all laws but contraposition justify exactly their applications
- `Law.contraposition_succeeds_iff`: which contrapositions are justified
-/

namespace Sequitur

/-! ## Instances of an equivalence -/

/-- An instance of a pattern is matched from bindings that agree with it. -/
theorem Formula.matchWith_complete (standing : Bindings) {own β : Bindings} {q : Formula}
    (hq : q.isPattern) (hfree : (q.instantiate β).holeFree) (hle : own.Within β) :
    (matchWith standing own (q.instantiate β) q).succeeded ∧
      (matchWith standing own (q.instantiate β) q).bindings.Within β := by
  obtain ⟨s, hs, hwithin⟩ := unify_complete (s := ⟨own.formulas, some own.names, standing.names⟩)
    hq hfree hle
  simp only [matchWith, matchIn, Option.getD_some, hs, true_and]
  exact hwithin

namespace Equivalence

variable {e : Equivalence} {standing : Bindings} {s t old new : Formula}

/-- The two formulas are the sides of the equivalence under some bindings. -/
def Relates (e : Equivalence) (s t : Formula) : Prop :=
  ∃ β : Bindings, e.left.instantiate β = s ∧ e.right.instantiate β = t

/-- The step from `old` to `new` is justified by the equivalence. -/
def Justifies (e : Equivalence) (standing : Bindings) (old new : Formula) : Prop :=
  ∃ r, (e.replace standing old new).1 = .ok r

/-- The sides of an equivalence are exchanged with its two formulas. -/
private theorem relates_swap : e.swap.Relates s t ↔ e.Relates t s :=
  exists_congr fun _ => and_comm

/-- The two sides match exactly the two formulas of an instance, whatever the standing bindings
    are. -/
private theorem instantiate_succeeded_iff (hs : s.holeFree) (ht : t.holeFree)
    (hl : e.left.isPattern) (hr : e.right.isPattern) :
    (e.instantiate standing s t).succeeded ↔ e.Relates s t := by
  constructor
  · intro h
    exact ⟨_, instantiate_sound hs ht hl hr h⟩
  · rintro ⟨β, rfl, rfl⟩
    obtain ⟨hfirst, hle⟩ := Formula.matchWith_complete standing hl hs β.empty_within
    simp only [instantiate, hfirst, if_true]
    -- the second match starts from what the first one has bound
    exact (Formula.matchWith_complete _ hr ht hle).1

/-- A step that changes nothing is justified by every equivalence. -/
private theorem justifies_self (e : Equivalence) (standing : Bindings) (f : Formula) :
    e.Justifies standing f f := by
  simp [Justifies, replace]

/-- A step that changes something is justified when the place of the difference is an instance, in
    either direction. -/
theorem justifies_iff (hold : old.holeFree) (hnew : new.holeFree) (hl : e.left.isPattern)
    (hr : e.right.isPattern) (hne : old ≠ new) (hdiff : old.difference new = .ok (s, t)) :
    e.Justifies standing old new ↔ e.Relates s t ∨ e.Relates t s := by
  obtain ⟨C, rfl, rfl⟩ := Formula.exists_fill_of_difference hdiff
  -- the parts in which the formulas differ have no holes, since the formulas have none
  have hs := C.holeFree_of_fill hold
  have ht := C.holeFree_of_fill hnew
  have hforward {standing} : (e.instantiate standing s t).succeeded ↔ e.Relates s t :=
    instantiate_succeeded_iff hs ht hl hr
  have hbackward {standing} : (e.swap.instantiate standing s t).succeeded ↔ e.Relates t s :=
    (instantiate_succeeded_iff (e := e.swap) hs ht hr hl).trans relates_swap
  -- the equivalence is tried from left to right first, then from right to left
  simp only [Justifies, replace, if_neg hne, hdiff]
  by_cases hst : e.Relates s t
  · simp [hforward, hst]
  · by_cases hts : e.Relates t s <;> simp [hforward, hbackward, hst, hts]

/-- A replacement at a place of a formula is justified when the two formulas differ by an instance,
    in either direction, and then the way back is justified too. -/
private theorem justifies_fill_iff {C : Place} {s' t' : Formula} (hs : (C.fill s).holeFree)
    (ht : (C.fill t).holeFree) (hl : e.left.isPattern) (hr : e.right.isPattern) (hne : s ≠ t)
    (hdiff : s.difference t = .ok (s', t')) :
    (e.Justifies standing (C.fill s) (C.fill t) ↔ e.Relates s' t' ∨ e.Relates t' s') ∧
      (e.Justifies standing (C.fill t) (C.fill s) ↔ e.Relates s' t' ∨ e.Relates t' s') := by
  have hfill : C.fill s ≠ C.fill t := C.fill_injective.ne hne
  -- what stands around the place makes no difference to where the formulas differ
  rw [← Formula.difference_fill C hne] at hdiff
  have hdiff' : (C.fill t).difference (C.fill s) = .ok (t', s') := by
    rw [Formula.difference_comm, hdiff]
    rfl
  exact ⟨justifies_iff hs ht hl hr hfill hdiff,
    (justifies_iff ht hs hl hr hfill.symm hdiff').trans or_comm⟩

/-- The two formulas are the same, or they are an instance of the equivalence at the place where
    they differ, in one direction or the other. -/
def Connects (e : Equivalence) (old new : Formula) : Prop :=
  old = new ∨ ∃ s t, old.difference new = .ok (s, t) ∧ (e.Relates s t ∨ e.Relates t s)

/-- The direction of a step does not matter to what connects its formulas. -/
private theorem connects_comm : e.Connects new old ↔ e.Connects old new := by
  have hflip {p q : Formula} (h : e.Connects p q) : e.Connects q p := by
    rcases h with rfl | ⟨s, t, hdiff, hrelates⟩
    · exact .inl rfl
    · refine .inr ⟨t, s, ?_, hrelates.symm⟩
      rw [Formula.difference_comm, hdiff]
      rfl
  exact ⟨hflip, hflip⟩

/-- The side from which an equivalence is read does not matter to what it connects. -/
private theorem connects_swap : e.swap.Connects old new ↔ e.Connects old new := by
  refine or_congr_right (exists_congr fun s => exists_congr fun t => and_congr_right fun _ => ?_)
  rw [relates_swap, relates_swap, or_comm]

/-- Steps between formulas without holes are justified when the equivalence connects them. -/
private theorem justifies_iff_connects (hold : old.holeFree) (hnew : new.holeFree)
    (hl : e.left.isPattern) (hr : e.right.isPattern) :
    e.Justifies standing old new ↔ e.Connects old new := by
  by_cases heq : old = new
  · subst heq
    exact iff_of_true (justifies_self e standing old) (.inl rfl)
  · -- formulas that are not the same differ at one place, which is the one that is compared
    obtain ⟨s, t, hdiff, -⟩ := Formula.exists_difference heq
    rw [justifies_iff hold hnew hl hr heq hdiff]
    constructor
    · exact fun hrelates => .inr ⟨s, t, hdiff, hrelates⟩
    · rintro (hsame | ⟨s', t', hdiff', hrelates⟩)
      · exact absurd hsame heq
      · rw [hdiff] at hdiff'
        cases hdiff'
        exact hrelates

/-- Which steps between formulas without holes are justified depends neither on the direction of the
    step nor on the side from which the equivalence is read first, nor on the standing bindings. -/
theorem justifies_either_way (e : Equivalence) (standing standing' : Bindings) (old new : Formula)
    (hl : e.left.isPattern) (hr : e.right.isPattern) (hold : old.holeFree) (hnew : new.holeFree) :
    (e.Justifies standing old new ↔ e.Connects old new) ∧
      (e.Justifies standing old new ↔ e.Justifies standing' new old) ∧
      (e.Justifies standing old new ↔ e.swap.Justifies standing' old new) := by
  have hforth : e.Justifies standing old new ↔ e.Connects old new :=
    justifies_iff_connects hold hnew hl hr
  have hback : e.Justifies standing' new old ↔ e.Connects new old :=
    justifies_iff_connects hnew hold hl hr
  have hswap : e.swap.Justifies standing' old new ↔ e.swap.Connects old new :=
    justifies_iff_connects hold hnew hr hl
  exact ⟨hforth, hforth.trans (hback.trans connects_comm).symm,
    hforth.trans (hswap.trans connects_swap).symm⟩

/-- A quantifier is pulled out of a conjunction below another one, by an equivalence whose sides
    share all their holes. -/
theorem justifies_either_way_shared_holes :
    let e : Equivalence := ⟨.conj (.hole "a") (.all (.hole "x") (.hole "b")),
      .all (.hole "x") (.conj (.hole "a") (.hole "b"))⟩
    let p : Formula := .pred "P" [.named "y"]
    let q : Formula := .pred "Q" [.named "x", .named "y"]
    let old : Formula := .ex (.named "y") (.conj p (.all (.named "x") q))
    let new : Formula := .ex (.named "y") (.all (.named "x") (.conj p q))
    (e.left.isPattern ∧ e.right.isPattern ∧ old.holeFree ∧ new.holeFree) ∧
      e.Justifies {} old new ∧ e.Justifies {} new old ∧ e.swap.Justifies {} old new := by
  intro e p q old new
  have hforth : e.Justifies {} old new :=
    ⟨.applied ⟨⟨[("a", p), ("b", q)]⟩, ⟨[("x", "x")]⟩⟩, rfl⟩
  obtain ⟨-, hback, hswap⟩ := justifies_either_way e {} {} old new rfl rfl rfl rfl
  exact ⟨⟨rfl, rfl, rfl, rfl⟩, hforth, hback.mp hforth, hswap.mp hforth⟩

end Equivalence

/-! ## Where the sides of a law differ -/

namespace Formula

/-- A formula and its double negation differ by a double negation, further down where the formula is
    a negation itself. -/
private theorem exists_difference_neg_neg (f : Formula) :
    ∃ g, f.difference (neg (neg f)) = .ok (g, neg (neg g)) := by
  induction f with
  | imp p q ihp =>
    have hp : p ≠ neg (imp p q) := nofun
    -- only an implication is compared part by part with the negation, which is one too; its right
    -- part agrees when the formula is a negation
    by_cases hq : q = falsum
    · subst hq
      obtain ⟨g, hg⟩ := ihp
      exact ⟨g, by rw [difference, if_neg hp, if_pos rfl, hg]⟩
    · exact ⟨imp p q, by rw [difference, if_neg hp, if_neg hq]⟩
  | truth | atom | hole | term | conj | disj | pred | all | ex => exact ⟨_, rfl⟩

end Formula

namespace Law

open Formula

variable {law : Law} {s t : Formula}

/-- The instances of the law of double negation. -/
private theorem relates_doubleNegation :
    doubleNegation.equivalence.Relates s t ↔ t = neg (neg s) := by
  constructor
  · rintro ⟨β, rfl, rfl⟩
    rfl
  · rintro rfl
    exact ⟨⟨⟨[("a", s)]⟩, {}⟩, rfl, rfl⟩

/-- The instances of contraposition. -/
private theorem relates_contraposition :
    contraposition.equivalence.Relates s t ↔ ∃ a b, s = imp a b ∧ t = imp (neg b) (neg a) := by
  constructor
  · rintro ⟨β, rfl, rfl⟩
    exact ⟨_, _, rfl, rfl⟩
  · rintro ⟨a, b, rfl, rfl⟩
    exact ⟨⟨⟨[("a", a), ("b", b)]⟩, {}⟩, rfl, rfl⟩

/-- Where the two sides of an instance differ there is an instance again, except for
    contraposition. -/
private theorem exists_difference_of_relates (hlaw : law ≠ contraposition)
    (h : law.equivalence.Relates s t) (hne : s ≠ t) :
    ∃ s' t', s.difference t = .ok (s', t') ∧ law.equivalence.Relates s' t' := by
  by_cases hneg : law = doubleNegation
  · subst hneg
    rw [relates_doubleNegation] at h
    obtain ⟨g, hg⟩ := exists_difference_neg_neg s
    exact ⟨g, neg (neg g), h ▸ hg, relates_doubleNegation.mpr rfl⟩
  · -- the sides of the other laws have different heads or differ in both parts
    refine ⟨s, t, ?_, h⟩
    obtain ⟨β, rfl, rfl⟩ := h
    obtain ⟨a, ha⟩ : ∃ a, (β.formulas.get? "a").getD (hole "a") = a := ⟨_, rfl⟩
    obtain ⟨b, hb⟩ : ∃ b, (β.formulas.get? "b").getD (hole "b") = b := ⟨_, rfl⟩
    obtain ⟨c, hc⟩ : ∃ c, (β.formulas.get? "c").getD (hole "c") = c := ⟨_, rfl⟩
    cases law with
    | doubleNegation => exact absurd rfl hneg
    | contraposition => exact absurd rfl hlaw
    | orComm | andComm =>
      -- one operand alone would agree only if both did
      simp only [equivalence, instantiate, ha, hb] at hne ⊢
      have hab : a ≠ b := by
        rintro rfl
        exact hne rfl
      rw [difference, if_neg hab, if_neg (Ne.symm hab)]
    | orAssoc | andAssoc | exportation =>
      -- no formula is a part of itself
      simp only [equivalence, instantiate, ha, hb, hc]
      rw [difference, if_neg (fun h => by cases h), if_neg (fun h => by cases h)]
    | orSelf =>
      -- only a disjunction is compared part by part with one
      simp only [equivalence, instantiate, ha]
      cases a with
      | disj => rw [difference, if_neg (fun h => by cases h), if_neg (fun h => by cases h)]
      | _ => rfl
    | andSelf =>
      simp only [equivalence, instantiate, ha]
      cases a with
      | conj => rw [difference, if_neg (fun h => by cases h), if_neg (fun h => by cases h)]
      | _ => rfl
    | implication | andOverOr | orOverAnd | negatedAnd | negatedOr | negatedForall
    | negatedExists => rfl

/-- An application of a law other than contraposition is justified, in either direction. -/
private theorem justifies_fill (hlaw : law ≠ contraposition) (standing : Bindings) (C : Place)
    (h : law.equivalence.Relates s t) (hs : (C.fill s).holeFree) (ht : (C.fill t).holeFree) :
    law.equivalence.Justifies standing (C.fill s) (C.fill t) ∧
      law.equivalence.Justifies standing (C.fill t) (C.fill s) := by
  by_cases hne : s = t
  · subst hne
    exact ⟨Equivalence.justifies_self _ _ _, Equivalence.justifies_self _ _ _⟩
  · obtain ⟨s', t', hdiff, hrelates⟩ := exists_difference_of_relates hlaw h hne
    rw [(Equivalence.justifies_fill_iff hs ht law.isPattern_left law.isPattern_right hne hdiff).1,
      (Equivalence.justifies_fill_iff hs ht law.isPattern_left law.isPattern_right hne hdiff).2]
    exact ⟨.inl hrelates, .inl hrelates⟩

/-- A law other than contraposition justifies a step between formulas without holes exactly if
    nothing changes or the step is an application of the law: at some place of the formula, under
    some bindings, one side of the law is put for the other. -/
theorem replace_succeeds_iff (law : Law) (standing : Bindings) (old new : Formula)
    (hlaw : law ≠ contraposition) (hold : old.holeFree) (hnew : new.holeFree) :
    law.equivalence.Justifies standing old new ↔
      old = new ∨ ∃ (C : Place) (β : Bindings),
        (old = C.fill (law.equivalence.left.instantiate β) ∧
          new = C.fill (law.equivalence.right.instantiate β)) ∨
        (old = C.fill (law.equivalence.right.instantiate β) ∧
          new = C.fill (law.equivalence.left.instantiate β)) := by
  constructor
  · rintro ⟨r, hr⟩
    -- what a replacement reports describes the step, and it reports one place at most
    have hdescribes : r.Describes law.equivalence old new :=
      Equivalence.describes_of_replace hold hnew law.isPattern_left law.isPattern_right
        (Prod.ext hr rfl)
    cases r with
    | unchanged => exact .inl hdescribes
    | applied β =>
      obtain ⟨C, hC⟩ := hdescribes
      exact .inr ⟨C, β, hC⟩
  · rintro (rfl | ⟨C, β, ⟨rfl, rfl⟩ | ⟨rfl, rfl⟩⟩)
    · exact Equivalence.justifies_self _ _ _
    · exact (justifies_fill hlaw standing C ⟨β, rfl, rfl⟩ hold hnew).1
    · exact (justifies_fill hlaw standing C ⟨β, rfl, rfl⟩ hnew hold).2

/-- A double negation is introduced below a quantifier in front of a negation, so that the formulas
    differ further down than where the law is applied. -/
theorem replace_succeeds_iff_within_negation :
    let p : Formula := .pred "P" [.named "x"]
    let β : Bindings := ⟨⟨[("a", neg p)]⟩, {}⟩
    let C : Place := .all (.named "x") (.conjLeft .here p)
    let old := C.fill (doubleNegation.equivalence.left.instantiate β)
    let new := C.fill (doubleNegation.equivalence.right.instantiate β)
    (doubleNegation ≠ contraposition ∧ old.holeFree ∧ new.holeFree) ∧
      old.difference new = .ok (p, neg (neg p)) ∧
      doubleNegation.equivalence.Justifies {} old new ∧
      doubleNegation.equivalence.Justifies {} new old := by
  intro p β C old new
  exact ⟨⟨nofun, rfl, rfl⟩, rfl,
    (replace_succeeds_iff doubleNegation {} old new nofun rfl rfl).mpr
      (.inr ⟨C, β, .inl ⟨rfl, rfl⟩⟩),
    (replace_succeeds_iff doubleNegation {} new old nofun rfl rfl).mpr
      (.inr ⟨C, β, .inr ⟨rfl, rfl⟩⟩)⟩

/-! ## Contraposition -/

/-- A double negation is no contraposition, in neither direction. -/
private theorem not_relates_neg_neg (f : Formula) :
    ¬ (contraposition.equivalence.Relates f (neg (neg f)) ∨
      contraposition.equivalence.Relates (neg (neg f)) f) := by
  simp only [relates_contraposition]
  rintro (⟨a, b, -, h⟩ | ⟨a, b, h, rfl⟩)
  · -- falsity would be a negation
    cases h
  · cases h

/-- The two sides of a contraposition differ as a whole, unless one of its formulas is the negation
    of the other; then they differ by a double negation. -/
private theorem exists_difference_contraposition (a b : Formula) :
    ∃ s t, (imp a b).difference (imp (neg b) (neg a)) = .ok (s, t) ∧
      (contraposition.equivalence.Relates s t ∨ contraposition.equivalence.Relates t s ↔
        a ≠ neg b ∧ b ≠ neg a) := by
  by_cases ha : a = neg b
  · subst ha
    obtain ⟨g, hg⟩ := exists_difference_neg_neg b
    refine ⟨g, neg (neg g), by rw [difference, if_pos rfl, hg], ?_⟩
    -- the left parts agree, and what is left to compare is a double negation
    exact iff_of_false (not_relates_neg_neg g) fun h => h.1 rfl
  · by_cases hb : b = neg a
    · subst hb
      obtain ⟨g, hg⟩ := exists_difference_neg_neg a
      refine ⟨g, neg (neg g), by rw [difference, if_neg ha, if_pos rfl, hg], ?_⟩
      exact iff_of_false (not_relates_neg_neg g) fun h => h.2 rfl
    · refine ⟨imp a b, imp (neg b) (neg a), by rw [difference, if_neg ha, if_neg hb], ?_⟩
      exact iff_of_true (.inl (relates_contraposition.mpr ⟨a, b, rfl, rfl⟩)) ⟨ha, hb⟩

/-- A contraposition at a place of a formula is justified, in either direction, exactly if neither
    of its two formulas is the negation of the other. -/
theorem contraposition_succeeds_iff (standing : Bindings) (C : Place) (a b : Formula)
    (hfree : (C.fill (imp a b)).holeFree) :
    (contraposition.equivalence.Justifies standing (C.fill (imp a b))
        (C.fill (imp (neg b) (neg a))) ↔ a ≠ neg b ∧ b ≠ neg a) ∧
      (contraposition.equivalence.Justifies standing (C.fill (imp (neg b) (neg a)))
        (C.fill (imp a b)) ↔ a ≠ neg b ∧ b ≠ neg a) := by
  have hsides := C.holeFree_of_fill hfree
  have hfree' : (C.fill (imp (neg b) (neg a))).holeFree :=
    C.holeFree_fill hfree (by simpa [holeFree, and_comm] using hsides)
  have hne : imp a b ≠ imp (neg b) (neg a) := by
    intro h
    injection h with ha hb
    -- a formula would be its own double negation
    subst ha
    cases hb
  -- from here on the place does not matter
  obtain ⟨s, t, hdiff, hiff⟩ := exists_difference_contraposition a b
  rw [← hiff]
  exact Equivalence.justifies_fill_iff hfree hfree' (isPattern_left _) (isPattern_right _) hne hdiff

/-- A contraposition below a quantifier, whose two formulas are negations of different ones. -/
theorem contraposition_succeeds_iff_negations :
    let p : Formula := .pred "P" [.named "x"]
    let q : Formula := .pred "Q" [.named "x"]
    let C : Place := .ex (.named "x") (.impRight q .here)
    let old := C.fill (imp (neg p) (neg q))
    let new := C.fill (imp (neg (neg q)) (neg (neg p)))
    old.holeFree ∧ contraposition.equivalence.Justifies {} old new ∧
      contraposition.equivalence.Justifies {} new old := by
  intro p q C old new
  have h := contraposition_succeeds_iff {} C (neg p) (neg q) rfl
  exact ⟨rfl, h.1.mpr (by decide), h.2.mpr (by decide)⟩

/-- The contraposition of an implication to a formula from its own negation is refused. -/
theorem implication_from_own_negation_refused :
    let a : Formula := .atom "A"
    let β : Bindings := ⟨⟨[("a", neg a), ("b", a)]⟩, {}⟩
    let old := imp (neg a) a
    let new := imp (neg a) (neg (neg a))
    (contraposition.equivalence.left.instantiate β = old ∧
        contraposition.equivalence.right.instantiate β = new) ∧
      ¬ contraposition.equivalence.Justifies {} old new ∧
      ¬ contraposition.equivalence.Justifies {} new old := by
  intro a β old new
  refine ⟨⟨rfl, rfl⟩, ?_, ?_⟩ <;> rintro ⟨r, hr⟩ <;> cases hr

end Law

end Sequitur
