import Mathlib.Data.Set.Finite.Basic
import Sequitur.Proofs.Comparison

/-!
# What an instantiation leaves alone

An instance of a formula should differ from it in the instantiated variable only.  A renaming makes
sure of less: the two formulas are alike, and every place of the variable is filled by one and the
same variable.  Which truth values, letters and other variables stand at the other leaves is not
looked at.  So instances differ in the one variable only where the formula has no other leaves.

## Key results

- `instances_change_only_iff`: for which formulas all instances differ in the one variable only
-/

namespace Sequitur.Formula

/-- The second formula is the first with `v` changed, if anything: all other leaves are the same. -/
def ChangesOnly (v : Variable) (p q : Formula) : Prop :=
  p.Parallel (fun f g => f ≠ term v → g = f) (fun a b => a ≠ v → b = a) q

/-- All leaves of a formula are the variable `v`. -/
def OnlyAbout (v : Variable) : Formula → Prop
  | conj p q | disj p q | imp p q => p.OnlyAbout v ∧ q.OnlyAbout v
  | all _ p | ex _ p => p.OnlyAbout v
  | pred _ args => ∀ a ∈ args, a = v
  | term w => w = v
  | truth _ | atom _ | hole _ => False

instance decidableOnlyAbout (v : Variable) : (f : Formula) → Decidable (f.OnlyAbout v)
  | conj p q | disj p q | imp p q =>
    have := decidableOnlyAbout v p
    have := decidableOnlyAbout v q
    inferInstanceAs (Decidable (_ ∧ _))
  | all _ p | ex _ p => decidableOnlyAbout v p
  | pred _ args => inferInstanceAs (Decidable (∀ a ∈ args, a = v))
  | term w => inferInstanceAs (Decidable (w = v))
  | truth _ | atom _ | hole _ => inferInstanceAs (Decidable False)

variable {v t : Variable} {p q : Formula}

/-- Formulas that are alike differ in the variable only, if it is all that the first is about. -/
private theorem Alike.changesOnly (h : p.Alike q) (hp : p.OnlyAbout v) : p.ChangesOnly v q := by
  induction p generalizing q with
  | conj a b iha ihb | disj a b iha ihb | imp a b iha ihb =>
    cases q <;> simp only [Alike, Parallel] at h
    exact ⟨iha h.1 hp.1, ihb h.2 hp.2⟩
  | all w p ih | ex w p ih =>
    cases q <;> simp only [Alike, Parallel] at h
    exact ⟨h.1, ih h.2 hp⟩
  | pred n xs =>
    cases q <;> simp only [Alike, Parallel] at h
    refine ⟨h.1, List.forall₂_iff_zip.mpr ⟨h.2.length_eq, fun {a b} hab ha => ?_⟩⟩
    exact absurd (hp a (List.of_mem_zip hab).1) ha
  | term w =>
    cases q <;> simp only [Alike, Parallel] at h
    exact ⟨h.1, fun hw => absurd (congrArg term hp) hw⟩
  | truth | atom | hole => cases hp

/-! ## An instance that keeps nothing else -/

/-- The quantifiers of a formula are over finitely many variables. -/
private theorem finite_boundIn (p : Formula) : {w | p.BoundIn w}.Finite := by
  induction p with
  | conj p q ihp ihq | disj p q ihp ihq | imp p q ihp ihq => exact ihp.union ihq
  | all v p ih | ex v p ih =>
    refine (ih.insert v).subset ?_
    rintro w (rfl | hw)
    · exact Set.mem_insert _ _
    · exact Set.mem_insert_of_mem v hw
  | pred | truth | atom | hole | term => exact Set.finite_empty

/-- There is always a name that no quantifier of a formula is over. -/
private theorem exists_not_boundIn (p : Formula) : ∃ n, ¬ p.BoundIn (.named n) := by
  have hnames : (Set.range Variable.named).Infinite :=
    Set.infinite_range_of_injective fun _ _ h => Variable.named.inj h
  obtain ⟨_, ⟨n, rfl⟩, hn⟩ := hnames.exists_notMem_finite p.finite_boundIn
  exact ⟨n, hn⟩

/-- Send `v` to `t`, and change every other leaf. -/
def Recast.all (v t : Variable) : Recast where
  value := not
  letter n := n ++ "'"
  argument a := if a = v then t else .named (a.name ++ "'")

/-- Every other variable is changed. -/
private theorem Recast.all_argument_ne {a : Variable} (ha : a ≠ v) :
    (Recast.all v t).argument a ≠ a := by
  cases a <;> simp [Recast.all, ha, Variable.name]

/-- Where only the variable has changed although every other leaf has, there are no other leaves. -/
private theorem onlyAbout_of_changesOnly_recast (hp : p.holeFree)
    (h : p.ChangesOnly v (p.recast (.all v t))) : p.OnlyAbout v := by
  induction p with
  | conj a b iha ihb | disj a b iha ihb | imp a b iha ihb =>
    simp only [holeFree, Bool.and_eq_true] at hp
    exact ⟨iha hp.1 h.1, ihb hp.2 h.2⟩
  | all w p ih | ex w p ih =>
    simp only [holeFree, Bool.and_eq_true] at hp
    exact ih hp.2 h.2
  | pred n xs =>
    intro a ha
    -- an argument that is not the variable would have stayed the same
    have hkept := List.forall₂_same.mp (List.forall₂_map_right_iff.mp h.2)
    by_contra hne
    exact Recast.all_argument_ne hne (hkept a ha hne)
  | term w =>
    by_contra hne
    exact Recast.all_argument_ne hne (term.inj (h.2 fun hw => hne (term.inj hw)))
  | truth b =>
    have hkept : truth (!b) = truth b := h (by simp)
    simp at hkept
  | atom n =>
    have hkept : atom (n ++ "'") = atom n := h (by simp)
    simp at hkept
  | hole => cases hp

/-! ## The result -/

/-- A renaming that succeeds finds formulas that are alike, and one variable at every place of the
    given one.  That the formulas differ in nothing else is so for all instances just where the
    first one has no leaves but the given variable. -/
theorem instances_change_only_iff (v : Variable) (p : Formula) (hp : p.holeFree) :
    (∀ q, q.holeFree → (renameIn {} v p q).1 = none → ∃ t, p.Sends v t q) ∧
    ((∀ q, q.holeFree → (renameIn {} v p q).1 = none → p.ChangesOnly v q) ↔ p.OnlyAbout v) := by
  have hsends : ∀ q, (renameIn {} v p q).1 = none → ∃ t, p.Sends v t q := by
    intro q hq
    obtain ⟨_ | t, hfinds⟩ := renameIn_succeeds_iff.mp hq
    · exact ⟨v, hfinds.1.sends hfinds.2⟩
    · exact ⟨t, hfinds.1⟩
  refine ⟨fun q _ => hsends q, fun hall => ?_, fun honly q _ hq => ?_⟩
  · -- a name that no quantifier is over cannot be captured
    obtain ⟨n, hn⟩ := p.exists_not_boundIn
    have hnamed : ∀ a, a.isNamed → ((Recast.all v (.named n)).argument a).isNamed := by
      intro a _
      show Variable.isNamed (if a = v then .named n else .named (a.name ++ "'")) = true
      split <;> rfl
    have hafter : ¬ p.OpensAfter ((Recast.all v (.named n)).argument v) v := by
      intro h
      apply hn
      simpa [Recast.all] using h.boundIn
    refine onlyAbout_of_changesOnly_recast hp (hall _ (holeFree_recast hp hnamed) ?_)
    exact renameIn_succeeds_iff.mpr (finds_recast hp hnamed hafter)
  · obtain ⟨t, ht⟩ := hsends q hq
    exact ht.alike.changesOnly honly

/-- An instance of a formula that has the variable twice in a predicate and once below a
    quantifier, and no other leaves. -/
theorem instances_change_only_iff_repeated :
    let p := imp (pred "P" [.named "x", .named "x"]) (ex (.named "y") (pred "Q" [.named "x"]))
    let q := imp (pred "P" [.named "c", .named "c"]) (ex (.named "y") (pred "Q" [.named "c"]))
    (p.holeFree ∧ q.holeFree ∧ (renameIn {} (.named "x") p q).1 = none) ∧
      (∃ t, p.Sends (.named "x") t q) ∧ p.ChangesOnly (.named "x") q := by
  intro p q
  have hp : p.holeFree := by decide
  have hq : q.holeFree := by decide
  have hrenamed : (renameIn {} (.named "x") p q).1 = none := by decide
  obtain ⟨hsends, honly⟩ := instances_change_only_iff (.named "x") p hp
  exact ⟨⟨hp, hq, hrenamed⟩, hsends q hq hrenamed, honly.mpr (by decide) q hq hrenamed⟩

/-- An instance in which a letter and another argument have changed. -/
theorem changed_letter_passes :
    let p := conj (pred "P" [.named "x", .named "a"]) (atom "A")
    let q := conj (pred "P" [.named "c", .named "b"]) (atom "B")
    (p.holeFree ∧ q.holeFree ∧ (renameIn {} (.named "x") p q).1 = none) ∧
      ¬ p.ChangesOnly (.named "x") q := by
  refine ⟨by decide, ?_⟩
  intro h
  have hletter : atom "B" = atom "A" := h.2 (by simp)
  simp at hletter

end Sequitur.Formula
