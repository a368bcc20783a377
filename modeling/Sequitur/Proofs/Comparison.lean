import Mathlib.Data.List.Forall2
import Sequitur.Proofs.FreeVariables
import Sequitur.Proofs.Semantics
import Sequitur.Renaming

/-!
# What a renaming compares

A renaming goes through two formulas side by side, from left to right, and looks for the variable
that stands in the second wherever a given one is an argument in the first.  What it compares are
shapes, quantified variables, and names and lengths of predicates (`Alike`); whatever else stands at
the leaves of the two formulas it passes over.

A quantifier is looked at when it is reached.  It may not bind the variable that has been found
before, so what counts is whether it comes after a place of the given variable (`OpensAfter`).

`Formula.recast` makes formulas that a renaming takes for instances of a given one.

## Key results

- `rename_some_iff`, `rename_none_iff`: when a renaming succeeds, and what it finds
- `renameIn_finds_iff`, `renameIn_succeeds_iff`: the same for an empty table of renamings
- `finds_recast`: a formula whose leaves have been changed is taken for an instance
-/

namespace Sequitur

namespace Formula

/-! ## Two formulas side by side -/

/-- Two formulas have the same shape, quantify over the same variables and have the same predicates
    in the same places.  Their arguments are related by `R`, and their other leaves by `L`. -/
def Parallel (L : Formula → Formula → Prop) (R : Variable → Variable → Prop) :
    Formula → Formula → Prop
  | conj a b, conj c d | disj a b, disj c d | imp a b, imp c d =>
    a.Parallel L R c ∧ b.Parallel L R d
  | all v p, all w q | ex v p, ex w q => v = w ∧ p.Parallel L R q
  | pred n xs, pred m ys => n = m ∧ List.Forall₂ R xs ys
  | term v, term w => v.isNamed = w.isNamed ∧ L (term v) (term w)
  | truth a, truth b => L (truth a) (truth b)
  | atom a, atom b => L (atom a) (atom b)
  | hole a, hole b => L (hole a) (hole b)
  | _, _ => False

/-- Two formulas have the same connectives, quantifiers and predicates, and leaves of the same
    kinds. -/
def Alike (p q : Formula) : Prop := p.Parallel (fun _ _ => True) (fun _ _ => True) q

/-- Two formulas are alike, and wherever `v` is an argument in the first, `t` is one in the
    second. -/
def Sends (v t : Variable) (p q : Formula) : Prop :=
  p.Parallel (fun _ _ => True) (fun a b => a = v → b = t) q

/-- The variable is an argument of a predicate, below a quantifier over it or not. -/
def HasArgument (v : Variable) : Formula → Prop
  | conj p q | disj p q | imp p q => p.HasArgument v ∨ q.HasArgument v
  | all _ p | ex _ p => p.HasArgument v
  | pred _ args => v ∈ args
  | truth _ | atom _ | hole _ | term _ => False

/-- A quantifier over `u` comes after an argument `v`. -/
def OpensAfter (u v : Variable) : Formula → Prop
  | conj p q | disj p q | imp p q =>
    p.OpensAfter u v ∨ q.OpensAfter u v ∨ p.HasArgument v ∧ q.BoundIn u
  | all _ p | ex _ p => p.OpensAfter u v
  | pred _ _ | truth _ | atom _ | hole _ | term _ => False

instance decidableHasArgument (v : Variable) : (f : Formula) → Decidable (f.HasArgument v)
  | conj p q | disj p q | imp p q =>
    have := decidableHasArgument v p
    have := decidableHasArgument v q
    inferInstanceAs (Decidable (_ ∨ _))
  | all _ p | ex _ p => decidableHasArgument v p
  | pred _ args => inferInstanceAs (Decidable (v ∈ args))
  | truth _ | atom _ | hole _ | term _ => inferInstanceAs (Decidable False)

instance decidableOpensAfter (u v : Variable) : (f : Formula) → Decidable (f.OpensAfter u v)
  | conj p q | disj p q | imp p q =>
    have := decidableOpensAfter u v p
    have := decidableOpensAfter u v q
    inferInstanceAs (Decidable (_ ∨ _ ∨ p.HasArgument v ∧ q.BoundIn u))
  | all _ p | ex _ p => decidableOpensAfter u v p
  | pred _ _ | truth _ | atom _ | hole _ | term _ => inferInstanceAs (Decidable False)

variable {u v t : Variable} {p q a b c d : Formula} {f : Option Variable}
  {L L' : Formula → Formula → Prop} {R R' : Variable → Variable → Prop}

/-- What relates the arguments and the leaves may be weakened. -/
theorem Parallel.mono (h : p.Parallel L R q) (hL : ∀ f g, L f g → L' f g)
    (hR : ∀ a b, R a b → R' a b) : p.Parallel L' R' q := by
  -- in each case only formulas of the same kind are left
  induction p generalizing q with
  | conj a b iha ihb | disj a b iha ihb | imp a b iha ihb =>
    cases q <;> simp only [Parallel] at h
    exact ⟨iha h.1, ihb h.2⟩
  | all w p ih | ex w p ih =>
    cases q <;> simp only [Parallel] at h
    exact ⟨h.1, ih h.2⟩
  | pred n xs =>
    cases q <;> simp only [Parallel] at h
    exact ⟨h.1, h.2.imp hR⟩
  | term w =>
    cases q <;> simp only [Parallel] at h
    exact ⟨h.1, hL _ _ h.2⟩
  | truth | atom | hole =>
    cases q <;> simp only [Parallel] at h
    exact hL _ _ h

/-- Formulas between which a variable is sent somewhere are alike. -/
theorem Sends.alike (h : p.Sends v t q) : p.Alike q :=
  Parallel.mono h (fun _ _ _ => trivial) fun _ _ _ => trivial

/-- Where the variable is no argument, it may be sent anywhere. -/
theorem Alike.sends (h : p.Alike q) (hv : ¬ p.HasArgument v) : p.Sends v t q := by
  induction p generalizing q with
  | conj a b iha ihb | disj a b iha ihb | imp a b iha ihb =>
    obtain ⟨hva, hvb⟩ := not_or.mp hv
    cases q <;> simp only [Alike, Parallel] at h
    exact ⟨iha h.1 hva, ihb h.2 hvb⟩
  | all w p ih | ex w p ih =>
    cases q <;> simp only [Alike, Parallel] at h
    exact ⟨h.1, ih h.2 hv⟩
  | pred n xs =>
    cases q <;> simp only [Alike, Parallel] at h
    refine ⟨h.1, List.forall₂_iff_zip.mpr ⟨h.2.length_eq, fun {a b} hab ha => ?_⟩⟩
    -- a pair with the variable on its left would make it an argument
    exact absurd (List.of_mem_zip (ha ▸ hab)).1 hv
  | truth | atom | hole | term =>
    cases q <;> simp only [Alike, Parallel] at h
    exact h

/-- A quantifier comes after a place only where there is a place. -/
private theorem OpensAfter.hasArgument (h : p.OpensAfter u v) : p.HasArgument v := by
  induction p with
  | conj p q ihp ihq | disj p q ihp ihq | imp p q ihp ihq =>
    rcases h with h | h | h
    · exact .inl (ihp h)
    · exact .inr (ihq h)
    · exact .inl h.1
  | all w p ih | ex w p ih => exact ih h
  | pred | truth | atom | hole | term => cases h

/-- A quantifier that comes after a place binds its variable. -/
theorem OpensAfter.boundIn (h : p.OpensAfter u v) : p.BoundIn u := by
  induction p with
  | conj p q ihp ihq | disj p q ihp ihq | imp p q ihp ihq =>
    rcases h with h | h | h
    · exact .inl (ihp h)
    · exact .inr (ihq h)
    · exact .inr h.2
  | all w p ih | ex w p ih => exact .inr (ih h)
  | pred | truth | atom | hole | term => cases h

end Formula

/-! ## One step of a renaming -/

namespace Renaming

/-- Go on from what has been found, unless the renaming has stopped. -/
def andThen (r : Renaming) (next : Option Variable → Renaming) : Renaming :=
  match r with
  | ⟨none, found⟩ => next found
  | refused => refused

/-- Both steps succeed, the second one from what the first has found. -/
private theorem andThen_eq_iff {r : Renaming} {next : Option Variable → Renaming}
    {f : Option Variable} :
    r.andThen next = ⟨none, f⟩ ↔ ∃ f', r = ⟨none, f'⟩ ∧ next f' = ⟨none, f⟩ := by
  obtain ⟨_ | refusal, found⟩ := r
  · simp [andThen]
  · simp [andThen]

/-- A quantifier is passed when it is over the same variable in both formulas, and not over the one
    that has been found. -/
private theorem quantifier_eq_iff {w u : Variable} {found f : Option Variable} {r : Renaming} :
    (if w = u then if found = some u then ⟨some .captured, found⟩ else r
      else ⟨some .shapesDiffer, found⟩) = (⟨none, f⟩ : Renaming) ↔
      w = u ∧ found ≠ some w ∧ r = ⟨none, f⟩ := by
  by_cases hw : w = u
  · subst hw
    by_cases hfound : found = some w <;> simp [hfound]
  · simp [hw]

/-- Once a variable has been found, it has to stand at every other place. -/
private theorem arguments_some_iff {v t : Variable} {xs ys : List Variable} {f : Option Variable}
    (hlen : xs.length = ys.length) :
    arguments v xs ys (some t) = ⟨none, f⟩ ↔
      f = some t ∧ List.Forall₂ (fun a b => a = v → b = t) xs ys := by
  induction xs generalizing ys with
  | nil =>
    obtain rfl := List.eq_nil_of_length_eq_zero hlen.symm
    simp [arguments, eq_comm]
  | cons a as ih =>
    obtain ⟨b, bs, rfl⟩ := List.exists_cons_of_length_eq_add_one hlen.symm
    have ih := ih (Nat.succ.inj hlen)
    -- only the places of the variable are compared
    by_cases ha : a = v
    · by_cases hb : t = b
      · simp [arguments, ha, ← hb, ih]
      · -- another variable stands here
        simp [arguments, ha, hb, Ne.symm hb]
    · simp [arguments, ha, ih]

/-- Nothing is found where the variable is no argument. -/
private theorem arguments_none_none_iff {v : Variable} {xs ys : List Variable}
    (hlen : xs.length = ys.length) : arguments v xs ys none = ⟨none, none⟩ ↔ v ∉ xs := by
  induction xs generalizing ys with
  | nil =>
    obtain rfl := List.eq_nil_of_length_eq_zero hlen.symm
    simp [arguments]
  | cons a as ih =>
    obtain ⟨b, bs, rfl⟩ := List.exists_cons_of_length_eq_add_one hlen.symm
    by_cases ha : a = v
    · -- what is found is not forgotten
      simp [arguments, ha, arguments_some_iff (Nat.succ.inj hlen)]
    · simp [arguments, ha, Ne.symm ha, ih (Nat.succ.inj hlen)]

/-- The first place decides what is found. -/
private theorem arguments_none_some_iff {v t : Variable} {xs ys : List Variable}
    (hlen : xs.length = ys.length) :
    arguments v xs ys none = ⟨none, some t⟩ ↔
      v ∈ xs ∧ List.Forall₂ (fun a b => a = v → b = t) xs ys := by
  induction xs generalizing ys with
  | nil =>
    obtain rfl := List.eq_nil_of_length_eq_zero hlen.symm
    simp [arguments]
  | cons a as ih =>
    obtain ⟨b, bs, rfl⟩ := List.exists_cons_of_length_eq_add_one hlen.symm
    by_cases ha : a = v
    · -- the first place gives the name, which the later ones have to repeat
      have hrest := arguments_some_iff (v := v) (t := b) (f := some t) (Nat.succ.inj hlen)
      simp only [arguments, ha, if_true, hrest, Option.some.injEq, List.mem_cons, true_or, true_and,
        List.forall₂_cons, forall_const, eq_comm (a := t)]
      exact and_congr_right fun hb => by rw [hb]
    · simp [arguments, ha, Ne.symm ha, ih (Nat.succ.inj hlen)]

/-- A predicate is passed when it has the same name and as many arguments in both formulas. -/
private theorem predicate_eq_iff {n m : String} {xs ys : List Variable} {v : Variable}
    {found f : Option Variable} :
    (if n = m ∧ xs.length = ys.length then arguments v xs ys found
      else ⟨some .shapesDiffer, found⟩) = (⟨none, f⟩ : Renaming) ↔
      n = m ∧ xs.length = ys.length ∧ arguments v xs ys found = ⟨none, f⟩ := by
  by_cases h : n = m ∧ xs.length = ys.length
  · simp [h]
  · rw [if_neg h]
    simp only [Renaming.mk.injEq, reduceCtorEq, false_and, false_iff]
    exact fun hall => h ⟨hall.1, hall.2.1⟩

end Renaming

namespace Formula

variable {u v t : Variable} {p q a b c d : Formula} {f : Option Variable}

/-! ## After a variable has been found -/

/-- The two sides of a connective, one after the other. -/
private theorem rename_pair_some
    (ha : ∀ {f}, rename v a c (some t) = ⟨none, f⟩ ↔ f = some t ∧ a.Sends v t c ∧ ¬ a.BoundIn t)
    (hb : ∀ {f}, rename v b d (some t) = ⟨none, f⟩ ↔ f = some t ∧ b.Sends v t d ∧ ¬ b.BoundIn t) :
    (rename v a c (some t)).andThen (rename v b d) = ⟨none, f⟩ ↔
      f = some t ∧ (conj a b).Sends v t (conj c d) ∧ ¬ (conj a b).BoundIn t := by
  rw [Renaming.andThen_eq_iff]
  constructor
  · rintro ⟨f', hleft, hright⟩
    obtain ⟨rfl, hac, hna⟩ := ha.mp hleft
    obtain ⟨rfl, hbd, hnb⟩ := hb.mp hright
    exact ⟨rfl, ⟨hac, hbd⟩, not_or.mpr ⟨hna, hnb⟩⟩
  · rintro ⟨rfl, ⟨hac, hbd⟩, hbound⟩
    obtain ⟨hna, hnb⟩ := not_or.mp hbound
    exact ⟨some t, ha.mpr ⟨rfl, hac, hna⟩, hb.mpr ⟨rfl, hbd, hnb⟩⟩

/-- A quantifier, and what is below it. -/
private theorem rename_quantified_some {w : Variable}
    (ih : ∀ {f}, rename v p q (some t) = ⟨none, f⟩ ↔ f = some t ∧ p.Sends v t q ∧ ¬ p.BoundIn t) :
    rename v (all w p) (all u q) (some t) = ⟨none, f⟩ ↔
      f = some t ∧ (all w p).Sends v t (all u q) ∧ ¬ (all w p).BoundIn t := by
  rw [rename, Renaming.quantifier_eq_iff, ih]
  simp only [Sends, Parallel, BoundIn, ne_eq, Option.some.injEq, not_or, eq_comm (a := t)]
  -- what is left is a matter of order
  tauto

/-- Once a variable has been found, it has to stand at every place, and no quantifier may be over
    it. -/
theorem rename_some_iff :
    rename v p q (some t) = ⟨none, f⟩ ↔ f = some t ∧ p.Sends v t q ∧ ¬ p.BoundIn t := by
  induction p generalizing q f with
  | conj a b iha ihb =>
    cases q with
    | conj c d => exact rename_pair_some iha ihb
    | _ => simp [rename, Sends, Parallel]
  | disj a b iha ihb =>
    cases q with
    | disj c d => exact rename_pair_some iha ihb
    | _ => simp [rename, Sends, Parallel]
  | imp a b iha ihb =>
    cases q with
    | imp c d => exact rename_pair_some iha ihb
    | _ => simp [rename, Sends, Parallel]
  | all w p ih =>
    cases q with
    | all u q => exact rename_quantified_some ih
    | _ => simp [rename, Sends, Parallel]
  | ex w p ih =>
    cases q with
    | ex u q => exact rename_quantified_some ih
    | _ => simp [rename, Sends, Parallel]
  | pred n xs =>
    cases q with
    | pred m ys =>
      -- the lengths agree on either side: by the test of the predicate, and because arguments are
      -- paired
      rw [rename, Renaming.predicate_eq_iff]
      constructor
      · rintro ⟨hname, hlen, hargs⟩
        obtain ⟨rfl, hsent⟩ := (Renaming.arguments_some_iff hlen).mp hargs
        exact ⟨rfl, ⟨hname, hsent⟩, id⟩
      · rintro ⟨rfl, ⟨hname, hsent⟩, -⟩
        have hlen := hsent.length_eq
        exact ⟨hname, hlen, (Renaming.arguments_some_iff hlen).mpr ⟨rfl, hsent⟩⟩
    | _ => simp [rename, Sends, Parallel]
  | term w =>
    cases q with
    | term u =>
      cases w <;> cases u <;> simp [rename, Sends, Parallel, BoundIn, Variable.isNamed, eq_comm]
    | _ => cases w <;> simp [rename, Sends, Parallel]
  | truth a | atom a | hole a =>
    cases q <;> simp [rename, Sends, Parallel, BoundIn, eq_comm]

/-! ## From the start -/

/-- What a renaming that starts from nothing finds between two formulas. -/
def Finds (v : Variable) (p q : Formula) : Option Variable → Prop
  | none => p.Alike q ∧ ¬ p.HasArgument v
  | some t => p.Sends v t q ∧ p.HasArgument v ∧ ¬ p.OpensAfter t v

/-- The two sides of a connective, one after the other. -/
private theorem rename_pair_none (ha : ∀ {f}, rename v a c none = ⟨none, f⟩ ↔ a.Finds v c f)
    (hb : ∀ {f}, rename v b d none = ⟨none, f⟩ ↔ b.Finds v d f) :
    (rename v a c none).andThen (rename v b d) = ⟨none, f⟩ ↔
      (conj a b).Finds v (conj c d) f := by
  rw [Renaming.andThen_eq_iff]
  constructor
  · rintro ⟨f', hleft, hright⟩
    rw [ha] at hleft
    cases f' with
    | none =>
      -- the left side has no place of the variable, so all is left to the right side
      rw [hb] at hright
      obtain ⟨hac, hva⟩ := hleft
      cases f with
      | none => exact ⟨⟨hac, hright.1⟩, not_or.mpr ⟨hva, hright.2⟩⟩
      | some t =>
        obtain ⟨hbd, hvb, hafter⟩ := hright
        refine ⟨⟨hac.sends hva, hbd⟩, .inr hvb, ?_⟩
        rintro (h | h | h)
        · exact hva h.hasArgument
        · exact hafter h
        · exact hva h.1
    | some t =>
      -- the right side has to agree with what the left side has found
      obtain ⟨rfl, hbd, hbound⟩ := rename_some_iff.mp hright
      obtain ⟨hac, hva, hafter⟩ := hleft
      refine ⟨⟨hac, hbd⟩, .inl hva, ?_⟩
      rintro (h | h | h)
      · exact hafter h
      · exact hbound h.boundIn
      · exact hbound h.2
  · intro hfinds
    -- whether the left side has a place decides what it finds
    by_cases hva : a.HasArgument v
    · cases f with
      | none => exact absurd (.inl hva) hfinds.2
      | some t =>
        obtain ⟨⟨hac, hbd⟩, -, hafter⟩ := hfinds
        refine ⟨some t, ha.mpr ⟨hac, hva, fun h => hafter (.inl h)⟩, rename_some_iff.mpr ?_⟩
        exact ⟨rfl, hbd, fun h => hafter (.inr (.inr ⟨hva, h⟩))⟩
    · cases f with
      | none =>
        obtain ⟨⟨hac, hbd⟩, hv⟩ := hfinds
        exact ⟨none, ha.mpr ⟨hac, hva⟩, hb.mpr ⟨hbd, fun h => hv (.inr h)⟩⟩
      | some t =>
        obtain ⟨⟨hac, hbd⟩, hv, hafter⟩ := hfinds
        refine ⟨none, ha.mpr ⟨Sends.alike hac, hva⟩, hb.mpr ⟨hbd, hv.resolve_left hva, ?_⟩⟩
        exact fun h => hafter (.inr (.inl h))

/-- A quantifier, and what is below it.  Nothing has been found yet that it could be over. -/
private theorem rename_quantified_none {w : Variable}
    (ih : ∀ {f}, rename v p q none = ⟨none, f⟩ ↔ p.Finds v q f) :
    rename v (all w p) (all u q) none = ⟨none, f⟩ ↔ (all w p).Finds v (all u q) f := by
  rw [rename, Renaming.quantifier_eq_iff, ih]
  cases f <;> simp [Finds, Alike, Sends, Parallel, HasArgument, OpensAfter, and_assoc]

/-- A renaming that starts from nothing succeeds when the formulas are alike, the same variable
    stands at every place of the given one, and no quantifier after such a place is over it. -/
theorem rename_none_iff : rename v p q none = ⟨none, f⟩ ↔ p.Finds v q f := by
  induction p generalizing q f with
  | conj a b iha ihb =>
    cases q with
    | conj c d => exact rename_pair_none iha ihb
    | _ => cases f <;> simp [rename, Finds, Alike, Sends, Parallel]
  | disj a b iha ihb =>
    cases q with
    | disj c d => exact rename_pair_none iha ihb
    | _ => cases f <;> simp [rename, Finds, Alike, Sends, Parallel]
  | imp a b iha ihb =>
    cases q with
    | imp c d => exact rename_pair_none iha ihb
    | _ => cases f <;> simp [rename, Finds, Alike, Sends, Parallel]
  | all w p ih =>
    cases q with
    | all u q => exact rename_quantified_none ih
    | _ => cases f <;> simp [rename, Finds, Alike, Sends, Parallel]
  | ex w p ih =>
    cases q with
    | ex u q => exact rename_quantified_none ih
    | _ => cases f <;> simp [rename, Finds, Alike, Sends, Parallel]
  | pred n xs =>
    cases q with
    | pred m ys =>
      -- as before, with the name still to be found
      rw [rename, Renaming.predicate_eq_iff]
      constructor
      · rintro ⟨hname, hlen, hargs⟩
        cases f with
        | none =>
          refine ⟨⟨hname, ?_⟩, (Renaming.arguments_none_none_iff hlen).mp hargs⟩
          exact List.forall₂_iff_zip.mpr ⟨hlen, fun _ => trivial⟩
        | some t =>
          obtain ⟨hv, hsent⟩ := (Renaming.arguments_none_some_iff hlen).mp hargs
          exact ⟨⟨hname, hsent⟩, hv, id⟩
      · intro hfinds
        cases f with
        | none =>
          obtain ⟨⟨hname, halike⟩, hv⟩ := hfinds
          have hlen := halike.length_eq
          exact ⟨hname, hlen, (Renaming.arguments_none_none_iff hlen).mpr hv⟩
        | some t =>
          obtain ⟨⟨hname, hsent⟩, hv, -⟩ := hfinds
          have hlen := hsent.length_eq
          exact ⟨hname, hlen, (Renaming.arguments_none_some_iff hlen).mpr ⟨hv, hsent⟩⟩
    | _ => cases f <;> simp [rename, Finds, Alike, Sends, Parallel]
  | term w =>
    cases q with
    | term u =>
      cases w <;> cases u <;> cases f <;>
        simp [rename, Finds, Alike, Sends, Parallel, HasArgument, Variable.isNamed]
    | _ => cases w <;> cases f <;> simp [rename, Finds, Alike, Sends, Parallel]
  | truth a | atom a | hole a =>
    cases q <;> cases f <;> simp [rename, Finds, Alike, Sends, Parallel, HasArgument]

/-! ## Tables of renamings -/

/-- A renaming is not refused when there is something to find, be it that there is no place. -/
theorem renameIn_succeeds_iff : (renameIn {} v p q).1 = none ↔ ∃ f, p.Finds v q f := by
  show (rename v p q none).refusal = none ↔ _
  constructor
  · intro h
    exact ⟨_, rename_none_iff.mp (by rw [← h])⟩
  · rintro ⟨f, hfinds⟩
    rw [rename_none_iff.mpr hfinds]

/-- What is entered in an empty table is what has been found. -/
theorem renameIn_finds_iff :
    (renameIn {} v p q).1 = none ∧ (renameIn {} v p q).2.get? v = some t ↔
      p.Finds v q (some t) := by
  have hentered : (renameIn {} v p q).2.get? v = (rename v p q none).found := by
    show ((rename v p q none).found.elim {} (Table.put {} v)).get? v = _
    cases (rename v p q none).found <;> simp
  rw [hentered, ← rename_none_iff]
  constructor
  · rintro ⟨hnone, hfound⟩
    rw [← hnone, ← hfound]
    rfl
  · intro h
    exact ⟨congrArg Renaming.refusal h, congrArg Renaming.found h⟩

/-! ## Formulas that are taken for instances -/

/-- Changes of truth values, of letters and of variables. -/
structure Recast where
  value : Bool → Bool := id
  letter : String → String := id
  argument : Variable → Variable := id

/-- Change the leaves of a formula, and leave its connectives, quantifiers and predicates alone. -/
def recast (r : Recast) : Formula → Formula
  | truth b => truth (r.value b)
  | atom n => atom (r.letter n)
  | hole n => hole n
  | term v => term (r.argument v)
  | conj p q => conj (p.recast r) (q.recast r)
  | disj p q => disj (p.recast r) (q.recast r)
  | imp p q => imp (p.recast r) (q.recast r)
  | pred n args => pred n (args.map r.argument)
  | all v p => all v (p.recast r)
  | ex v p => ex v (p.recast r)

section

variable {r : Recast} (hp : p.holeFree) (hr : ∀ a, a.isNamed → (r.argument a).isNamed)

include hp hr

/-- No hole comes in where the leaves are changed to ones without holes. -/
theorem holeFree_recast : (p.recast r).holeFree := by
  induction p with
  | conj a b iha ihb | disj a b iha ihb | imp a b iha ihb =>
    simp only [holeFree, Bool.and_eq_true] at hp
    simp [recast, holeFree, iha hp.1, ihb hp.2]
  | all w p ih | ex w p ih =>
    simp only [holeFree, Bool.and_eq_true] at hp
    simp [recast, holeFree, hp.1, ih hp.2]
  | pred n xs =>
    simp only [holeFree, List.all_eq_true] at hp
    simpa [recast, holeFree] using fun a ha => hr a (hp a ha)
  | term w => exact hr w hp
  | truth | atom => rfl
  | hole => cases hp

/-- A variable is sent to what it is changed to. -/
theorem sends_recast : p.Sends v (r.argument v) (p.recast r) := by
  induction p with
  | conj a b iha ihb | disj a b iha ihb | imp a b iha ihb =>
    simp only [holeFree, Bool.and_eq_true] at hp
    exact ⟨iha hp.1, ihb hp.2⟩
  | all w p ih | ex w p ih =>
    simp only [holeFree, Bool.and_eq_true] at hp
    exact ⟨rfl, ih hp.2⟩
  | pred n xs =>
    refine ⟨rfl, List.forall₂_map_right_iff.mpr (List.forall₂_same.mpr ?_)⟩
    rintro a - rfl
    rfl
  | term w => exact ⟨hp.trans (hr w hp).symm, trivial⟩
  | truth | atom => trivial
  | hole => cases hp

/-- A renaming takes a formula whose leaves have been changed for an instance, unless a quantifier
    over the new variable comes after a place of the old one. -/
theorem finds_recast (h : ¬ p.OpensAfter (r.argument v) v) : ∃ f, p.Finds v (p.recast r) f := by
  have hsends : p.Sends v (r.argument v) (p.recast r) := sends_recast hp hr
  by_cases hv : p.HasArgument v
  · exact ⟨some (r.argument v), hsends, hv, h⟩
  · exact ⟨none, hsends.alike, hv⟩

end

end Formula

end Sequitur
