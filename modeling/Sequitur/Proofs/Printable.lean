import Sequitur.Grammar.Formula
import Sequitur.Proofs.Semantics

/-!
# Formulas that can be written

A printable formula is one that has a written form of the grammar: propositions are single capital
letters, names are made of letters, and falsity occurs in negations only.  Reading gives printable
formulas and no others, so the formulas of a proof that was read from text have no holes.

The readers of the five levels call each other with decreasing fuel; `ReadsPrintable` is what they
guarantee together at one amount of fuel, and each level is one step from the others at less.
-/

namespace Sequitur

namespace Grammar

/-- A name: one letter or more. -/
def IsName (n : String) : Prop := n.toList ≠ [] ∧ ∀ c ∈ n.toList, isLetter c

end Grammar

namespace Formula

open Grammar

/-- A formula that the grammar can write. -/
def Printable : Formula → Prop
  | truth _ | hole _ | term _ => False
  | atom n => ∃ c, isCapital c ∧ n = String.ofList [c]
  | conj p q | disj p q => p.Printable ∧ q.Printable
  | imp p q => p.Printable ∧ (q = falsum ∨ q.Printable)
  | pred n args => IsName n ∧ args ≠ [] ∧ ∀ v ∈ args, ∃ x, v = .named x ∧ IsName x
  | all v p | ex v p => (∃ x, v = .named x ∧ IsName x) ∧ p.Printable

/-- A conjunction of printable formulas is printable. -/
private theorem printable_conj (p q : Formula) (hp : p.Printable) (hq : q.Printable) :
    (conj p q).Printable := ⟨hp, hq⟩

/-- A disjunction of printable formulas is printable. -/
private theorem printable_disj (p q : Formula) (hp : p.Printable) (hq : q.Printable) :
    (disj p q).Printable := ⟨hp, hq⟩

/-- A printable formula has no holes. -/
theorem Printable.holeFree {f : Formula} (h : f.Printable) : f.holeFree := by
  induction f with
  | truth | hole | term => cases h
  | atom => rfl
  | conj p q ihp ihq | disj p q ihp ihq =>
    simp only [Formula.holeFree, ihp h.1, ihq h.2, Bool.and_self]
  | imp p q ihp ihq =>
    -- the right side may be falsity, for which a negation is written
    have hq : q.holeFree := by
      rcases h.2 with rfl | hq
      · rfl
      · exact ihq hq
    simp only [Formula.holeFree, ihp h.1, hq, Bool.and_self]
  | pred n args =>
    simp only [Formula.holeFree, List.all_eq_true]
    intro v hv
    obtain ⟨x, rfl, _⟩ := h.2.2 v hv
    rfl
  | all v p ih | ex v p ih =>
    obtain ⟨⟨x, rfl, _⟩, hp⟩ := h
    simp only [Formula.holeFree, Variable.isNamed, ih hp, Bool.and_self]

end Formula

namespace Grammar

variable {α β : Type}

/-! ## Readers -/

/-- A sequence succeeds when both parts do. -/
theorem andThen_eq_ok {first : Parse α} {next : α → Cursor → Parse β} {r : β × Cursor} :
    andThen first next = .ok r ↔ ∃ a c, first = .ok (a, c) ∧ next a c = .ok r := by
  cases first with
  | error i => simp [andThen]
  | ok p =>
    constructor
    · intro h
      exact ⟨p.1, p.2, rfl, h⟩
    · rintro ⟨a, c, hp, h⟩
      cases hp
      exact h

/-- A choice succeeds when one of the alternatives does. -/
theorem eq_ok_of_orElse {first : Parse α} {second : Unit → Parse α} {r : α × Cursor}
    (h : orElse first second = .ok r) : first = .ok r ∨ second () = .ok r := by
  unfold orElse at h
  split at h
  · exact .inl h
  · split at h
    · rename_i hs
      exact .inr (hs.trans h)
    · cases h

/-- A word is not empty, and made of the characters that are allowed. -/
private theorem word_spec {p : Char → Bool} {c c' : Cursor} {w : List Char}
    (h : word p c = .ok (w, c')) : w ≠ [] ∧ ∀ a ∈ w, p a := by
  simp only [word] at h
  split at h
  · cases h
  · rename_i hne
    cases h
    exact ⟨hne, List.all_eq_true.mp List.all_takeWhile⟩

/-- What every item of a list separated by commas satisfies. -/
private theorem forall_mem_commaTail {item : Cursor → Parse α} {P : α → Prop}
    (hitem : ∀ c a c', item c = .ok (a, c') → P a) (n : Nat) (c : Cursor) :
    ∀ a ∈ (commaTail item n c).1, P a := by
  induction n generalizing c with
  | zero => simp [commaTail]
  | succ n ih =>
    intro a ha
    simp only [commaTail] at ha
    split at ha
    · cases ha
    · split at ha
      · cases ha
      · -- an item is only read after a comma
        rename_i b c₂ hb
        cases ha with
        | head => exact hitem _ _ _ hb
        | tail _ ha => exact ih c₂ a ha

/-- A list separated by commas has one item or more, and they all satisfy it. -/
theorem forall_mem_commaList {item : Cursor → Parse α} {P : α → Prop}
    (hitem : ∀ c a c', item c = .ok (a, c') → P a) {c c' : Cursor} {as : List α}
    (h : commaList item c = .ok (as, c')) : as ≠ [] ∧ ∀ a ∈ as, P a := by
  obtain ⟨a, c₁, ha, hrest⟩ := andThen_eq_ok.mp h
  cases hrest
  refine ⟨List.cons_ne_nil _ _, fun b hb => ?_⟩
  cases hb with
  | head => exact hitem _ _ _ ha
  | tail _ hb => exact forall_mem_commaTail hitem _ _ b hb

/-- What is read as a name is one. -/
theorem name_isName {c c' : Cursor} {n : String} (h : name c = .ok (n, c')) : IsName n := by
  obtain ⟨w, c₁, hw, hrest⟩ := andThen_eq_ok.mp h
  cases hrest
  simpa [IsName] using word_spec hw

/-! ## Levels of the grammar -/

/-- Printable operands are joined to a printable formula. -/
private theorem printable_joinLeft {op : Formula → Formula → Formula}
    (hop : ∀ p q : Formula, p.Printable → q.Printable → (op p q).Printable) {ps : List Formula}
    (hne : ps ≠ []) (hps : ∀ p ∈ ps, p.Printable) : (joinLeft op ps).Printable := by
  cases ps with
  | nil => exact absurd rfl hne
  | cons p ps =>
    simp only [joinLeft]
    -- the first part is the accumulator of the fold, so it is generalized
    have hp : p.Printable := hps p List.mem_cons_self
    have hrest : ∀ q ∈ ps, q.Printable := fun q hq => hps q (List.mem_cons_of_mem _ hq)
    clear hps hne
    induction ps generalizing p with
    | nil => exact hp
    | cons q ps ih =>
      exact ih (op p q) (hop p q hp (hrest q List.mem_cons_self))
        fun r hr => hrest r (List.mem_cons_of_mem _ hr)

/-- A chain of implications between printable formulas is printable. -/
private theorem printable_joinRight {p : Formula} {qs : List Formula} (hp : p.Printable)
    (hqs : ∀ q ∈ qs, q.Printable) : (joinRight .imp p qs).Printable := by
  induction qs generalizing p with
  | nil => exact hp
  | cons q qs ih =>
    -- the rest is printable itself, and not falsity
    have hq := ih (hqs q List.mem_cons_self) fun r hr => hqs r (List.mem_cons_of_mem _ hr)
    exact ⟨hp, .inr hq⟩

/-- What is read as a predicate is printable. -/
private theorem printable_predicate {c c' : Cursor} {f : Formula} (h : predicate c = .ok (f, c')) :
    f.Printable := by
  obtain ⟨n, c₁, hn, h⟩ := andThen_eq_ok.mp h
  -- a symbol, and names in parentheses
  obtain ⟨_, c₂, _, h⟩ := andThen_eq_ok.mp h
  obtain ⟨args, c₃, hargs, h⟩ := andThen_eq_ok.mp h
  obtain ⟨_, c₄, _, h⟩ := andThen_eq_ok.mp h
  cases h
  obtain ⟨hne, hall⟩ := forall_mem_commaList (fun _ _ _ => name_isName) hargs
  refine ⟨name_isName hn, by simpa using hne, fun v hv => ?_⟩
  obtain ⟨x, hx, rfl⟩ := List.mem_map.mp hv
  exact ⟨x, rfl, hall x hx⟩

/-- What is read as a letter is printable. -/
private theorem printable_letter {c c' : Cursor} {f : Formula} (h : letter c = .ok (f, c')) :
    f.Printable := by
  obtain ⟨a, c₁, ha, h⟩ := andThen_eq_ok.mp h
  cases h
  simp only [oneOf] at ha
  split at ha
  · split at ha
    · rename_i hcap
      cases ha
      exact ⟨_, hcap, rfl⟩
    · cases ha
  · cases ha

/-- The operands of a connective are printable if what they are read with guarantees it. -/
private theorem printable_operands {w : String} {operand : Cursor → Parse Formula}
    {more : Cursor → Parse (List Formula)}
    (hoperand : ∀ {c p c'}, operand c = .ok (p, c') → p.Printable)
    (hmore : ∀ {c ps c'}, more c = .ok (ps, c') → ∀ p ∈ ps, p.Printable) {c c' : Cursor}
    {ps : List Formula} (h : operands w operand more c = .ok (ps, c')) :
    ps ≠ [] ∧ ∀ p ∈ ps, p.Printable := by
  obtain ⟨p, _, hp, h⟩ := andThen_eq_ok.mp h
  split at h
  · -- without a sign after it the first operand is the only one
    cases h
    exact ⟨List.cons_ne_nil _ _, by simpa using hoperand hp⟩
  · obtain ⟨qs, _, hqs, h⟩ := andThen_eq_ok.mp h
    cases h
    exact ⟨List.cons_ne_nil _ _, List.forall_mem_cons.mpr ⟨hoperand hp, hmore hqs⟩⟩

/-- What the readers of formulas with a given amount of fuel guarantee. -/
structure ReadsPrintable (n : Nat) : Prop where
  prop : ∀ {c f c'}, prop n c = .ok (f, c') → f.Printable
  conjuncts : ∀ {c ps c'}, conjuncts n c = .ok (ps, c') → ps ≠ [] ∧ ∀ p ∈ ps, p.Printable
  disjuncts : ∀ {c ps c'}, disjuncts n c = .ok (ps, c') → ps ≠ [] ∧ ∀ p ∈ ps, p.Printable
  consequents : ∀ c, ∀ p ∈ (consequents n c).1, p.Printable
  form : ∀ {c f c'}, form n c = .ok (f, c') → f.Printable

namespace ReadsPrintable

variable {n : Nat} {c c' : Cursor}

/-- What is read as an operand at one more unit of fuel. -/
theorem prop_succ (ih : ReadsPrintable n) {f : Formula}
    (h : Grammar.prop (n + 1) c = .ok (f, c')) : f.Printable := by
  rw [Grammar.prop] at h
  -- a predicate, a letter, a formula in parentheses, or a negation
  rcases eq_ok_of_orElse h with h | h
  · exact printable_predicate h
  rcases eq_ok_of_orElse h with h | h
  · exact printable_letter h
  rcases eq_ok_of_orElse h with h | h
  · obtain ⟨_, _, _, h⟩ := andThen_eq_ok.mp h
    obtain ⟨g, _, hg, h⟩ := andThen_eq_ok.mp h
    obtain ⟨_, _, _, h⟩ := andThen_eq_ok.mp h
    cases h
    exact ih.form hg
  · obtain ⟨_, _, _, h⟩ := andThen_eq_ok.mp h
    obtain ⟨g, _, hg, h⟩ := andThen_eq_ok.mp h
    cases h
    -- falsity stands on the right of an implication, where it may
    exact ⟨ih.prop hg, .inl rfl⟩

/-- The operands of a conjunction at one more unit of fuel. -/
theorem conjuncts_succ (ih : ReadsPrintable n) {ps : List Formula}
    (h : Grammar.conjuncts (n + 1) c = .ok (ps, c')) : ps ≠ [] ∧ ∀ p ∈ ps, p.Printable :=
  printable_operands ih.prop (fun h => (ih.conjuncts h).2) h

/-- The operands of a disjunction at one more unit of fuel. -/
theorem disjuncts_succ (ih : ReadsPrintable n) {ps : List Formula}
    (h : Grammar.disjuncts (n + 1) c = .ok (ps, c')) : ps ≠ [] ∧ ∀ p ∈ ps, p.Printable := by
  refine printable_operands ?_ (fun h => (ih.disjuncts h).2) h
  -- an operand of a disjunction is a conjunction
  intro c p c' h
  obtain ⟨qs, _, hqs, h⟩ := andThen_eq_ok.mp h
  cases h
  exact printable_joinLeft Formula.printable_conj (ih.conjuncts hqs).1 (ih.conjuncts hqs).2

/-- The disjunction of what is read. -/
theorem disjunction (ih : ReadsPrintable n) {ps : List Formula}
    (h : Grammar.disjuncts n c = .ok (ps, c')) : (joinLeft .disj ps).Printable :=
  printable_joinLeft Formula.printable_disj (ih.disjuncts h).1 (ih.disjuncts h).2

/-- What an implication leads to, at one more unit of fuel. -/
theorem consequents_succ (ih : ReadsPrintable n) :
    ∀ p ∈ (Grammar.consequents (n + 1) c).1, p.Printable := by
  intro p hp
  rw [Grammar.consequents] at hp
  split at hp
  · cases hp
  · split at hp
    · cases hp
    · rename_i ps c₂ hps
      cases hp with
      | head => exact ih.disjunction hps
      | tail _ hp => exact ih.consequents c₂ p hp

/-- What is read as a formula at one more unit of fuel. -/
theorem form_succ (ih : ReadsPrintable n) {f : Formula}
    (h : Grammar.form (n + 1) c = .ok (f, c')) : f.Printable := by
  rw [Grammar.form] at h
  rcases eq_ok_of_orElse h with h | h
  · -- a disjunction and what it implies
    obtain ⟨ps, c₁, hps, h⟩ := andThen_eq_ok.mp h
    cases h
    exact printable_joinRight (ih.disjunction hps) (ih.consequents c₁)
  -- both quantifiers: a keyword, a name, a comma and a formula
  rcases eq_ok_of_orElse h with h | h
  all_goals
    obtain ⟨_, _, _, h⟩ := andThen_eq_ok.mp h
    obtain ⟨v, _, hv, h⟩ := andThen_eq_ok.mp h
    obtain ⟨_, _, _, h⟩ := andThen_eq_ok.mp h
    obtain ⟨g, _, hg, h⟩ := andThen_eq_ok.mp h
    cases h
    exact ⟨⟨v, rfl, name_isName hv⟩, ih.form hg⟩

end ReadsPrintable

/-- The readers of formulas guarantee printable formulas at every amount of fuel. -/
private theorem readsPrintable (n : Nat) : ReadsPrintable n := by
  induction n with
  | zero =>
    -- without fuel nothing is read
    refine ⟨?_, ?_, ?_, ?_, ?_⟩ <;> intros <;>
      simp_all [Grammar.prop, Grammar.conjuncts, Grammar.disjuncts, Grammar.consequents,
        Grammar.form]
  | succ n ih =>
    exact ⟨ih.prop_succ, ih.conjuncts_succ, ih.disjuncts_succ, fun _ => ih.consequents_succ,
      ih.form_succ⟩

/-- Every formula that is read is printable. -/
theorem printable_formula {c c' : Cursor} {f : Formula} (h : formula c = .ok (f, c')) :
    f.Printable :=
  (readsPrintable _).form h

end Grammar

end Sequitur
