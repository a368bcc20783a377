import Sequitur.Proofs.Comparison

/-!
# Capture

An instance says of the new variable what the formula says of the old one only if no place of the
old variable lies below a quantifier over either of the two.  A renaming looks at a quantifier when
it comes to it, and knows by then what has been found before.  So it refuses a quantifier over the
new variable that comes after a place of the old one, and no other.  What is left are the
quantifiers around the first place, and those over the old variable.

## Key results

- `under_iff_firstUnder`: only the first place is left to be captured
- `instances_capture_free_iff`: for which formulas no instance captures
-/

namespace Sequitur.Formula

/-- An argument `v` lies below a quantifier over `u`. -/
def Under (u v : Variable) : Formula → Prop
  | conj p q | disj p q | imp p q => p.Under u v ∨ q.Under u v
  | all w p | ex w p => w = u ∧ p.HasArgument v ∨ p.Under u v
  | pred _ _ | truth _ | atom _ | hole _ | term _ => False

/-- The first argument `v`, from the left, lies below a quantifier over `u`. -/
def FirstUnder (u v : Variable) : Formula → Prop
  | conj p q | disj p q | imp p q => p.FirstUnder u v ∨ ¬ p.HasArgument v ∧ q.FirstUnder u v
  | all w p | ex w p => w = u ∧ p.HasArgument v ∨ p.FirstUnder u v
  | pred _ _ | truth _ | atom _ | hole _ | term _ => False

instance decidableUnder (u v : Variable) : (f : Formula) → Decidable (f.Under u v)
  | conj p q | disj p q | imp p q =>
    have := decidableUnder u v p
    have := decidableUnder u v q
    inferInstanceAs (Decidable (_ ∨ _))
  | all w p | ex w p =>
    have := decidableUnder u v p
    inferInstanceAs (Decidable (w = u ∧ p.HasArgument v ∨ _))
  | pred _ _ | truth _ | atom _ | hole _ | term _ => inferInstanceAs (Decidable False)

instance decidableFirstUnder (u v : Variable) : (f : Formula) → Decidable (f.FirstUnder u v)
  | conj p q | disj p q | imp p q =>
    have := decidableFirstUnder u v p
    have := decidableFirstUnder u v q
    inferInstanceAs (Decidable (_ ∨ ¬ p.HasArgument v ∧ _))
  | all w p | ex w p =>
    have := decidableFirstUnder u v p
    inferInstanceAs (Decidable (w = u ∧ p.HasArgument v ∨ _))
  | pred _ _ | truth _ | atom _ | hole _ | term _ => inferInstanceAs (Decidable False)

variable {u v t : Variable} {p q : Formula}

/-- A quantifier that a place lies below binds its variable. -/
theorem Under.boundIn (h : p.Under u v) : p.BoundIn u := by
  induction p with
  | conj p q ihp ihq | disj p q ihp ihq | imp p q ihp ihq => exact h.imp ihp ihq
  | all w p ih | ex w p ih => exact h.imp And.left ih
  | pred | truth | atom | hole | term => cases h

/-- The first place is a place. -/
private theorem FirstUnder.under (h : p.FirstUnder u v) : p.Under u v := by
  induction p with
  | conj p q ihp ihq | disj p q ihp ihq | imp p q ihp ihq =>
    exact h.imp ihp fun h => ihq h.2
  | all w p ih | ex w p ih => exact h.imp_right ih
  | pred | truth | atom | hole | term => cases h

/-- The two sides of a connective: below the right one lies the first place, or none. -/
private theorem firstUnder_pair (hp : ¬ p.OpensAfter u v → p.Under u v → p.FirstUnder u v)
    (hq : ¬ q.OpensAfter u v → q.Under u v → q.FirstUnder u v)
    (hafter : ¬ (conj p q).OpensAfter u v) (h : (conj p q).Under u v) :
    (conj p q).FirstUnder u v := by
  rcases h with h | h
  · exact .inl (hp (fun h => hafter (.inl h)) h)
  · refine .inr ⟨fun hv => ?_, hq (fun h => hafter (.inr (.inl h))) h⟩
    -- a place on the left would make the quantifier on the right come after it
    exact hafter (.inr (.inr ⟨hv, h.boundIn⟩))

/-- If no quantifier over `u` comes after a place of `v`, then only those around the first place
    have a place below them. -/
theorem under_iff_firstUnder (hafter : ¬ p.OpensAfter u v) : p.Under u v ↔ p.FirstUnder u v := by
  refine ⟨fun h => ?_, FirstUnder.under⟩
  induction p with
  | conj p q ihp ihq | disj p q ihp ihq | imp p q ihp ihq =>
    exact firstUnder_pair ihp ihq hafter h
  | all w p ih | ex w p ih => exact h.imp_right (ih hafter)
  | pred | truth | atom | hole | term => cases h

/-! ## The result -/

/-- Send `v` to `t`, and leave all else alone. -/
def Recast.only (v t : Variable) : Recast where
  argument a := if a = v then t else a

/-- A renaming can find any name that no quantifier after a place of the given variable is over. -/
private theorem exists_finds (hp : p.holeFree) (ht : t.isNamed) (hv : p.HasArgument v)
    (hafter : ¬ p.OpensAfter t v) : ∃ q, q.holeFree ∧ p.Finds v q (some t) := by
  have hnamed : ∀ a, a.isNamed → ((Recast.only v t).argument a).isNamed := by
    intro a ha
    show Variable.isNamed (if a = v then t else a) = true
    split
    · exact ht
    · exact ha
  have hsent : (Recast.only v t).argument v = t := if_pos rfl
  -- send the variable itself to the name and nothing else
  have hsends : p.Sends v t (p.recast (.only v t)) := by
    simpa only [hsent] using sends_recast (v := v) hp hnamed
  exact ⟨p.recast (.only v t), holeFree_recast hp hnamed, hsends, hv, hafter⟩

/-- Where a renaming finds `t`, no quantifier over `t` comes after a place of `v`, so that only the
    first place may be captured.  All instances that send `v` to `t` are free of capture just where
    there are none, or the first place is below no quantifier over `t` and no place is below one
    over `v`. -/
theorem instances_capture_free_iff (v t : Variable) (p : Formula) (hp : p.holeFree)
    (ht : t.isNamed) :
    (∀ q, q.holeFree → (renameIn {} v p q).1 = none → (renameIn {} v p q).2.get? v = some t →
      ¬ p.OpensAfter t v ∧ (p.Under t v ↔ p.FirstUnder t v)) ∧
    ((∀ q, q.holeFree → (renameIn {} v p q).1 = none → (renameIn {} v p q).2.get? v = some t →
        ¬ p.Under v v ∧ ¬ p.Under t v) ↔
      (p.HasArgument v → ¬ p.OpensAfter t v → ¬ p.Under v v ∧ ¬ p.FirstUnder t v)) := by
  constructor
  · intro q _ hnone hfound
    obtain ⟨-, -, hafter⟩ := renameIn_finds_iff.mp ⟨hnone, hfound⟩
    exact ⟨hafter, under_iff_firstUnder hafter⟩
  · constructor
    · intro hall hv hafter
      -- where the name can be found, some instance has it, which tells the condition
      obtain ⟨q, hq, hfinds⟩ := exists_finds hp ht hv hafter
      obtain ⟨hnone, hfound⟩ := renameIn_finds_iff.mpr hfinds
      rw [← under_iff_firstUnder hafter]
      exact hall q hq hnone hfound
    · intro hfree q _ hnone hfound
      obtain ⟨-, hv, hafter⟩ := renameIn_finds_iff.mp ⟨hnone, hfound⟩
      rw [under_iff_firstUnder hafter]
      exact hfree hv hafter

/-- An instance by a variable that is bound elsewhere, to the left of the first place. -/
theorem instances_capture_free_iff_bound_before :
    let p := imp (all (.named "z") (pred "R" [.named "z"]))
      (ex (.named "y") (pred "P" [.named "x", .named "y"]))
    let q := imp (all (.named "z") (pred "R" [.named "z"]))
      (ex (.named "y") (pred "P" [.named "z", .named "y"]))
    (p.holeFree ∧ q.holeFree ∧ (renameIn {} (.named "x") p q).1 = none ∧
      (renameIn {} (.named "x") p q).2.get? (.named "x") = some (.named "z")) ∧
      ¬ p.OpensAfter (.named "z") (.named "x") ∧
      ¬ p.Under (.named "x") (.named "x") ∧ ¬ p.Under (.named "z") (.named "x") := by
  intro p q
  have hp : p.holeFree := by decide
  have hq : q.holeFree := by decide
  have hnone : (renameIn {} (.named "x") p q).1 = none := by decide
  have hfound : (renameIn {} (.named "x") p q).2.get? (.named "x") = some (.named "z") := by decide
  obtain ⟨hguard, hfree⟩ := instances_capture_free_iff (.named "x") (.named "z") p hp rfl
  exact ⟨⟨hp, hq, hnone, hfound⟩, (hguard q hq hnone hfound).1,
    hfree.mpr (by decide) q hq hnone hfound⟩

/-- A renaming that finds a variable below a quantifier over it, and one that goes below a
    quantifier over the given variable. -/
theorem captured_instance_passes :
    let p := all (.named "y") (pred "P" [.named "x", .named "y"])
    let q := all (.named "y") (pred "P" [.named "y", .named "y"])
    let p' := all (.named "x") (pred "P" [.named "x"])
    let q' := all (.named "x") (pred "P" [.named "c"])
    (renameIn {} (.named "x") p q = (none, Table.put {} (.named "x") (.named "y")) ∧
      p.Under (.named "y") (.named "x")) ∧
    (renameIn {} (.named "x") p' q' = (none, Table.put {} (.named "x") (.named "c")) ∧
      p'.Under (.named "x") (.named "x")) := by
  decide

end Sequitur.Formula
