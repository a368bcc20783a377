import Sequitur.Matching
import Sequitur.Proofs.Semantics

/-!
# Instances of patterns

Bindings turn a pattern into a formula: each hole is replaced by what it is bound to.  Matching a
formula without holes with a pattern is sound in the sense that the pattern becomes the formula
under the bindings that the match leaves behind, and under every extension of them.  The extensions
are what makes two matches in a row agree: the second one only adds to what the first has found.
Matching is complete as well: an instance of the pattern is matched, whatever has been bound before,
as long as the instance agrees with it.

Holes among the arguments of predicates are kept out (`Formula.isPattern`), because a match does not
bind them in its own tables.
-/

namespace Sequitur

/-! ## Extending tables and bindings -/

/-- Everything that is in `t` is in `u`. -/
def Table.Within {κ α : Type} [DecidableEq κ] (t u : Table κ α) : Prop :=
  ∀ k a, t.get? k = some a → u.get? k = some a

namespace Table

variable {κ α : Type} [DecidableEq κ] {t u v : Table κ α}

theorem Within.refl (t : Table κ α) : t.Within t := fun _ _ h => h

theorem Within.trans (h : t.Within u) (h' : u.Within v) : t.Within v :=
  fun k a hk => h' k a (h k a hk)

/-- A hole that is bound successfully is bound to `a` afterwards, and no other binding changes. -/
private theorem within_of_bind {α : Type} [DecidableEq α] {t t' : Table String α} {h : String}
    {a : α} (hb : t.bind h a = (true, t')) : t.Within t' ∧ t'.get? h = some a := by
  unfold Table.bind at hb
  cases hg : t.get? h with
  | some b =>
    simp only [hg, Prod.mk.injEq, decide_eq_true_eq] at hb
    -- the hole was bound to the same before
    obtain ⟨rfl, rfl⟩ := hb
    exact ⟨.refl t, hg⟩
  | none =>
    simp only [hg, Prod.mk.injEq, true_and] at hb
    subst hb
    refine ⟨fun k b hk => ?_, get?_put_self t h a⟩
    -- the hole was free, so a key with a binding is another one
    have hne : k ≠ h := by
      rintro rfl
      rw [hg] at hk
      cases hk
    rw [get?_put_of_ne t a hne]
    exact hk

/-- A hole can be bound to what a larger table has for it, and stays within that table. -/
private theorem exists_bind {α : Type} [DecidableEq α] {t u : Table String α} {h : String} {a : α}
    (hle : t.Within u) (hu : u.get? h = some a) : ∃ t', t.bind h a = (true, t') ∧ t'.Within u := by
  unfold Table.bind
  cases hg : t.get? h with
  | some b =>
    -- what is bound already is bound alike in the larger table
    have hba : some b = some a := (hle h b hg).symm.trans hu
    cases hba
    exact ⟨t, by simp, hle⟩
  | none =>
    refine ⟨t.put h a, rfl, fun k b hk => ?_⟩
    by_cases hkh : k = h
    · subst hkh
      rw [get?_put_self] at hk
      exact hu.trans hk
    · rw [get?_put_of_ne t a hkh] at hk
      exact hle k b hk

end Table

/-- Everything that `β` binds is bound alike by `γ`. -/
structure Bindings.Within (β γ : Bindings) : Prop where
  formulas : β.formulas.Within γ.formulas
  names : β.names.Within γ.names

theorem Bindings.Within.refl (β : Bindings) : β.Within β := ⟨.refl _, .refl _⟩

/-- No bindings are within all bindings. -/
theorem Bindings.empty_within (β : Bindings) : ({} : Bindings).Within β where
  formulas _ _ h := by cases h
  names _ _ h := by cases h

theorem Bindings.Within.trans {β γ δ : Bindings} (h : β.Within γ) (h' : γ.Within δ) : β.Within δ :=
  ⟨h.formulas.trans h'.formulas, h.names.trans h'.names⟩

/-! ## Instantiation -/

/-- Replace a hole by the variable that it is bound to. -/
def Variable.instantiate (names : Table String String) : Variable → Variable
  | named x => named x
  | hole h => ((names.get? h).map named).getD (hole h)

namespace Formula

/-- Replace every hole by what it is bound to. -/
def instantiate (β : Bindings) : Formula → Formula
  | truth b => truth b
  | atom n => atom n
  | hole h => (β.formulas.get? h).getD (hole h)
  | term v => term (v.instantiate β.names)
  | conj p q => conj (p.instantiate β) (q.instantiate β)
  | disj p q => disj (p.instantiate β) (q.instantiate β)
  | imp p q => imp (p.instantiate β) (q.instantiate β)
  | pred n args => pred n (args.map (·.instantiate β.names))
  | all v p => all (v.instantiate β.names) (p.instantiate β)
  | ex v p => ex (v.instantiate β.names) (p.instantiate β)

/-- Whether no hole occurs among the arguments of a predicate. -/
def isPattern : Formula → Bool
  | truth _ | atom _ | hole _ | term _ => true
  | conj p q | disj p q | imp p q => p.isPattern && q.isPattern
  | pred _ args => args.all Variable.isNamed
  | all _ p | ex _ p => p.isPattern

end Formula

/-! ## Matching variables -/

namespace Variable

/-- Matching a named variable with a pattern variable makes the latter an instance of the former,
    under every extension of the names found. -/
theorem unify_sound {t t' : Table String String} {v w : Variable} (hv : v.isNamed)
    (h : v.unify t w = (true, t')) :
    t.Within t' ∧ ∀ u, t'.Within u → w.instantiate u = v := by
  cases v with
  | hole _ => simp [isNamed] at hv
  | named x =>
    cases w with
    | named y =>
      simp only [unify, Prod.mk.injEq, decide_eq_true_eq] at h
      obtain ⟨rfl, rfl⟩ := h
      exact ⟨.refl t, fun _ _ => rfl⟩
    | hole k =>
      obtain ⟨hle, hk⟩ := Table.within_of_bind h
      refine ⟨hle, fun u hu => ?_⟩
      simp only [instantiate, hu k x hk, Option.map_some, Option.getD_some]

/-- Named variables match only if they are the same, and bind nothing. -/
private theorem unifyAll_named {t t' : Table String String} {vs ws : List Variable}
    (hvs : vs.all isNamed) (hws : ws.all isNamed) (hlen : vs.length = ws.length)
    (h : unifyAll t vs ws = (true, t')) : t' = t ∧ vs = ws := by
  induction vs generalizing ws with
  | nil =>
    cases ws with
    | nil => simp_all [unifyAll]
    | cons => simp at hlen
  | cons v vs ih =>
    cases ws with
    | nil => simp at hlen
    | cons w ws =>
      simp only [List.all_cons, Bool.and_eq_true] at hvs hws
      cases v with
      | hole _ => simp [isNamed] at hvs
      | named x =>
        cases w with
        | hole _ => simp [isNamed] at hws
        | named y =>
          -- two names meet only if they are equal, and then nothing is entered
          by_cases hxy : x = y
          · subst hxy
            simp only [unifyAll, unify, decide_true] at h
            obtain ⟨rfl, rfl⟩ := ih hvs.2 hws.2 (by simpa using hlen) h
            exact ⟨rfl, rfl⟩
          · simp [unifyAll, unify, hxy] at h

/-- A named variable is its own instance. -/
private theorem map_instantiate_named (names : Table String String) {vs : List Variable}
    (hvs : vs.all isNamed) : vs.map (·.instantiate names) = vs := by
  induction vs with
  | nil => rfl
  | cons v vs ih =>
    simp only [List.all_cons, Bool.and_eq_true] at hvs
    cases v with
    | named x => rw [List.map_cons, ih hvs.2]; rfl
    | hole _ => simp [isNamed] at hvs

/-- A pattern variable matches the named variable that is its instance. -/
private theorem exists_unify {t u : Table String String} {v w : Variable} (hv : v.isNamed)
    (hle : t.Within u) (h : w.instantiate u = v) :
    ∃ t', v.unify t w = (true, t') ∧ t'.Within u := by
  subst h
  cases w with
  | named y => exact ⟨t, by simp [unify, instantiate], hle⟩
  | hole k =>
    cases hk : u.get? k with
    | none => simp [instantiate, hk, isNamed] at hv
    | some x =>
      simp only [instantiate, hk, Option.map_some, Option.getD_some, unify]
      exact Table.exists_bind hle hk

/-- Named variables match themselves, and bind nothing. -/
private theorem unifyAll_self (t : Table String String) {vs : List Variable}
    (hvs : vs.all isNamed) : unifyAll t vs vs = (true, t) := by
  induction vs with
  | nil => rfl
  | cons v vs ih =>
    rw [List.all_cons, Bool.and_eq_true] at hvs
    cases v with
    | named x => simpa [unifyAll, unify] using ih hvs.2
    | hole _ => simp [isNamed] at hvs

end Variable

/-! ## Matching formulas -/

namespace Unifier

variable {s s' : Unifier} {β : Bindings}

/-- A formula hole that is bound becomes what it is bound to, whatever is bound later. -/
private theorem bindFormula_sound {h : String} {f : Formula} (hb : s.bindFormula h f = (true, s')) :
    s.bindings.Within s'.bindings ∧
      ∀ β, s'.bindings.Within β → (Formula.hole h).instantiate β = f := by
  simp only [bindFormula, Prod.mk.injEq] at hb
  obtain ⟨hok, rfl⟩ := hb
  obtain ⟨hle, hget⟩ := Table.within_of_bind (Prod.ext hok rfl)
  refine ⟨⟨hle, .refl _⟩, fun β hβ => ?_⟩
  simp only [Formula.instantiate, hβ.formulas h f hget, Option.getD_some]

/-- A quantified variable that matches becomes the one opposite, whatever is bound later. -/
private theorem quantified_sound {v w : Variable} (hv : v.isNamed)
    (hq : s.quantified v w = (true, s')) :
    s.bindings.Within s'.bindings ∧
      ∀ β : Bindings, s'.bindings.Within β → w.instantiate β.names = v := by
  -- with or without a table of its own, the match changes the table that `bindings` shows
  cases hn : s.names with
  | some t =>
    simp only [quantified, hn, Prod.mk.injEq] at hq
    obtain ⟨hok, rfl⟩ := hq
    obtain ⟨hle, hinst⟩ := Variable.unify_sound hv (Prod.ext hok rfl)
    exact ⟨⟨.refl _, by simpa [bindings, hn] using hle⟩, fun β hβ => hinst _ hβ.names⟩
  | none =>
    simp only [quantified, hn, Prod.mk.injEq] at hq
    obtain ⟨hok, rfl⟩ := hq
    obtain ⟨hle, hinst⟩ := Variable.unify_sound hv (Prod.ext hok rfl)
    refine ⟨⟨.refl _, by simpa [bindings, hn] using hle⟩, fun β hβ => hinst _ ?_⟩
    simpa [bindings, hn] using hβ.names

/-- A formula hole can be bound to what larger bindings have for it. -/
private theorem exists_bindFormula {h : String} {f : Formula} (hle : s.bindings.Within β)
    (hβ : β.formulas.get? h = some f) :
    ∃ s', s.bindFormula h f = (true, s') ∧ s'.bindings.Within β := by
  obtain ⟨t, ht, hwithin⟩ := Table.exists_bind hle.formulas hβ
  refine ⟨{ s with formulas := t }, ?_, hwithin, hle.names⟩
  simp only [bindings] at ht
  rw [bindFormula, ht]

/-- A quantified variable matches the one that it becomes under larger bindings. -/
private theorem exists_quantified {v w : Variable} (hv : v.isNamed) (hle : s.bindings.Within β)
    (h : w.instantiate β.names = v) :
    ∃ s', s.quantified v w = (true, s') ∧ s'.bindings.Within β := by
  obtain ⟨t, ht, hwithin⟩ := Variable.exists_unify hv hle.names h
  -- the names are in a table of their own or in the standing one
  cases hn : s.names with
  | some names =>
    simp only [bindings, hn, Option.getD_some] at ht
    refine ⟨{ s with names := some t }, ?_, hle.formulas, hwithin⟩
    simp only [quantified, hn, ht]
  | none =>
    simp only [bindings, hn, Option.getD_none] at ht
    refine ⟨{ s with standing := t }, ?_, hle.formulas, ?_⟩
    · simp only [quantified, hn, ht]
    · simpa only [bindings, hn, Option.getD_none] using hwithin

end Unifier

namespace Formula

/-- Matching is sound.  The bindings only grow, and the pattern becomes the formula under every
    extension of what they are afterwards. -/
theorem unify_sound {p q : Formula} {s s' : Unifier} (hp : p.holeFree) (hq : q.isPattern)
    (h : p.unify q s = (true, s')) :
    s.bindings.Within s'.bindings ∧ ∀ β, s'.bindings.Within β → q.instantiate β = p := by
  fun_induction unify p q s generalizing s' with
  | case1 => simp [holeFree] at hp
  | case2 => exact Unifier.bindFormula_sound h
  | case3 =>
    obtain ⟨hle, hv⟩ := Unifier.quantified_sound hp h
    exact ⟨hle, fun β hβ => by rw [instantiate, hv β hβ]⟩
  -- a connective, both parts of which match
  | case4 a b c d s s₁ h₁ ih₁ ih₂ | case6 a b c d s s₁ h₁ ih₁ ih₂ | case8 a b c d s s₁ h₁ ih₁ ih₂ =>
    simp only [holeFree, isPattern, Bool.and_eq_true] at hp hq
    obtain ⟨hle₁, hinst₁⟩ := ih₁ hp.1 hq.1 h₁
    obtain ⟨hle₂, hinst₂⟩ := ih₂ hp.2 hq.2 h
    refine ⟨hle₁.trans hle₂, fun β hβ => ?_⟩
    rw [instantiate, hinst₁ β (hle₂.trans hβ), hinst₂ β hβ]
  -- a quantifier, whose variable and body match
  | case10 v p w q s s₁ h₁ ih | case12 v p w q s s₁ h₁ ih =>
    simp only [holeFree, isPattern, Bool.and_eq_true] at hp hq
    obtain ⟨hle₁, hv⟩ := Unifier.quantified_sound hp.1 h₁
    obtain ⟨hle₂, hinst⟩ := ih hp.2 hq h
    refine ⟨hle₁.trans hle₂, fun β hβ => ?_⟩
    rw [instantiate, hv β (hle₂.trans hβ), hinst β hβ]
  -- a first part that does not match ends the match
  | case5 _ _ _ _ _ hno | case7 _ _ _ _ _ hno | case9 _ _ _ _ _ hno | case11 _ _ _ _ _ hno
  | case13 _ _ _ _ _ hno => exact absurd h (hno s')
  | case14 n vs m ws s hnm =>
    -- arguments are named on both sides, so they have to be the same
    obtain ⟨rfl, hlen⟩ := hnm
    rcases hu : Variable.unifyAll s.standing vs ws with ⟨ok, t⟩
    simp only [Unifier.arguments, hu, Prod.mk.injEq] at h
    obtain ⟨rfl, rfl⟩ := h
    obtain ⟨rfl, rfl⟩ := Variable.unifyAll_named hp hq hlen hu
    exact ⟨.refl _, fun β _ => by rw [instantiate, Variable.map_instantiate_named _ hq]⟩
  | case16 | case17 =>
    simp only [Prod.mk.injEq, decide_eq_true_eq] at h
    obtain ⟨rfl, rfl⟩ := h
    exact ⟨.refl _, fun _ _ => rfl⟩
  | case15 | case18 => simp at h

/-- A formula hole of a pattern is bound to the formula opposite. -/
theorem unify_hole {p : Formula} (hp : p.holeFree) (h : String) (s : Unifier) :
    p.unify (hole h) s = s.bindFormula h p := by
  cases p <;> first | rfl | cases hp

/-- Matching is complete.  A pattern matches each formula that it becomes under bindings which
    extend those at hand, and the match binds nothing else. -/
theorem unify_complete {q : Formula} {s : Unifier} {β : Bindings} (hq : q.isPattern)
    (hfree : (q.instantiate β).holeFree) (hle : s.bindings.Within β) :
    ∃ s', (q.instantiate β).unify q s = (true, s') ∧ s'.bindings.Within β := by
  induction q generalizing s with
  | truth | atom => exact ⟨s, by simp [instantiate, unify], hle⟩
  | hole h =>
    cases hβ : β.formulas.get? h with
    -- a hole that is not bound would be left in the instance
    | none => simp [instantiate, hβ, holeFree] at hfree
    | some f =>
      simp only [instantiate, hβ, Option.getD_some] at hfree ⊢
      rw [unify_hole hfree]
      exact Unifier.exists_bindFormula hle hβ
  | term v => exact Unifier.exists_quantified hfree hle rfl
  -- a connective, the parts of which match one after the other
  | conj c d ihc ihd | disj c d ihc ihd | imp c d ihc ihd =>
    simp only [isPattern, instantiate, holeFree, Bool.and_eq_true] at hq hfree
    obtain ⟨s₁, h₁, hle₁⟩ := ihc hq.1 hfree.1 hle
    obtain ⟨s₂, h₂, hle₂⟩ := ihd hq.2 hfree.2 hle₁
    exact ⟨s₂, by simp only [instantiate, unify, h₁, h₂], hle₂⟩
  | pred n args =>
    rw [instantiate, Variable.map_instantiate_named _ hq]
    refine ⟨s, ?_, hle⟩
    simp only [unify, and_self, if_true, Unifier.arguments, Variable.unifyAll_self _ hq]
  | all v q ih | ex v q ih =>
    simp only [isPattern, instantiate, holeFree, Bool.and_eq_true] at hq hfree
    obtain ⟨s₁, h₁, hle₁⟩ := Unifier.exists_quantified hfree.1 hle rfl
    obtain ⟨s₂, h₂, hle₂⟩ := ih hq hfree.2 hle₁
    exact ⟨s₂, by simp only [instantiate, unify, h₁, h₂], hle₂⟩

end Formula

end Sequitur
