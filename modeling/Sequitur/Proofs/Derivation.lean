import Sequitur.Proofs.Printable

/-!
# The language of formulas

The readers of the grammar are greedy: they take the first alternative that fits and never come back
to it.  Here the grammar is stated without any such order, as rules of derivation over the
characters of a text.

```text
prop = name "(" name ("," name)* ")"  |  capital  |  "(" form ")"  |  "~" prop
conj = prop  |  conj "/\" prop
disj = conj  |  disj "\/" conj
imp  = disj  |  disj "->" imp
form = imp   |  "exists" name "," form  |  "forall" name "," form
```

Blanks may stand before every token.  `Derives` says which texts are derived at which level, and
with which formula.

Conjunctions and disjunctions are derived from the left and read from the right, so both are
compared with chains of operands (`Chain`): a first operand and a row of further ones, each after
its sign.

## Key results

- `derives_left_iff`, `derives_imp_iff`: the three levels of operators as chains
- `derived`: what a reader takes off a text is derived with the formula that it returns
-/

namespace Sequitur.Grammar

/-! ## Tokens -/

/-- A row of blanks. -/
def Blanks (s : List Char) : Prop := ∀ c ∈ s, isBlank c

/-- The text `s` spells the token `w`, after blanks. -/
def Spells (w : String) (s : List Char) : Prop := ∃ b, Blanks b ∧ s = b ++ w.toList

/-- The text `s` spells the name `x`, after blanks. -/
def SpellsName (x : String) (s : List Char) : Prop := IsName x ∧ Spells x s

/-- Characters of a kind that none of the four blanks is of are no blanks. -/
theorem isBlank_eq_false {p : Char → Bool} (hp : [' ', '\n', '\t', '\r'].any p = false)
    {c : Char} (h : p c) : isBlank c = false := by
  by_contra hb
  rw [Bool.not_eq_false] at hb
  simp only [isBlank, Bool.or_eq_true, decide_eq_true_iff] at hb
  rcases hb with ((rfl | rfl) | rfl) | rfl <;> simp [h] at hp

/-- Letters are no blanks. -/
theorem isBlank_of_isLetter {c : Char} (h : isLetter c) : isBlank c = false :=
  isBlank_eq_false rfl h

/-- Capital letters are letters. -/
theorem isLetter_of_isCapital {c : Char} (h : isCapital c) : isLetter c := by
  have hupper : c.isUpper = true := h
  show (c.isUpper || c.isLower) = true
  rw [hupper, Bool.true_or]

/-! ## Chains -/

section Chains

variable {α : Type} {item : α → List Char → Prop} {w : String}

/-- A row of items, each after the token `w`. -/
inductive Tail (item : α → List Char → Prop) (w : String) : List α → List Char → Prop
  | nil : Tail item w [] []
  | cons {a : α} {as : List α} {t s u : List Char} (sign : Spells w t) (first : item a s)
      (rest : Tail item w as u) : Tail item w (a :: as) (t ++ s ++ u)

/-- An item and a row of further ones, separated by the token `w`. -/
def Chain (item : α → List Char → Prop) (w : String) (a : α) (as : List α) (s : List Char) : Prop :=
  ∃ s₁ s₂, item a s₁ ∧ Tail item w as s₂ ∧ s = s₁ ++ s₂

/-- A row of items can be continued at its end. -/
private theorem Tail.concat {a : α} {as : List α} {t s u : List Char} (h : Tail item w as u)
    (sign : Spells w t) (last : item a s) : Tail item w (as ++ [a]) (u ++ t ++ s) := by
  induction h with
  | nil => simpa using Tail.cons sign last .nil
  | cons sign' first _ ih =>
    have := Tail.cons sign' first ih
    simpa only [List.cons_append, List.append_assoc] using this

/-- One item is a chain. -/
theorem Chain.single {a : α} {s : List Char} (h : item a s) : Chain item w a [] s :=
  ⟨s, [], h, .nil, by simp⟩

/-- A chain can be continued at its beginning. -/
theorem Chain.cons {a b : α} {bs : List α} {s t u : List Char} (first : item a s)
    (sign : Spells w t) (h : Chain item w b bs u) : Chain item w a (b :: bs) (s ++ t ++ u) := by
  obtain ⟨u₁, u₂, hb, hbs, rfl⟩ := h
  exact ⟨s, _, first, .cons sign hb hbs, by simp only [List.append_assoc]⟩

/-- A chain can be continued at its end. -/
private theorem Chain.concat {a b : α} {as : List α} {s t u : List Char} (h : Chain item w a as s)
    (sign : Spells w t) (last : item b u) : Chain item w a (as ++ [b]) (s ++ t ++ u) := by
  obtain ⟨s₁, s₂, ha, has, rfl⟩ := h
  exact ⟨s₁, _, ha, has.concat sign last, by simp only [List.append_assoc]⟩

end Chains

/-! ## Derivations -/

/-- The levels of the grammar, from the tightest to the loosest. -/
inductive Level where
  | prop
  | conj
  | disj
  | imp
  | form
  deriving DecidableEq, Repr

/-- The text `s` is derived at a level, with a formula. -/
inductive Derives : Level → Formula → List Char → Prop
  | predicate {n x : String} {xs : List String} {s₁ s₂ s₃ s₄ : List Char} (symbol : SpellsName n s₁)
      (opening : Spells "(" s₂) (args : Chain SpellsName "," x xs s₃) (closing : Spells ")" s₄) :
      Derives .prop (.pred n ((x :: xs).map .named)) (s₁ ++ s₂ ++ s₃ ++ s₄)
  | letter {a : Char} {s : List Char} (capital : isCapital a)
      (spelled : Spells (String.ofList [a]) s) : Derives .prop (.atom (String.ofList [a])) s
  | parens {f : Formula} {s₁ s₂ s₃ : List Char} (opening : Spells "(" s₁)
      (inner : Derives .form f s₂) (closing : Spells ")" s₃) : Derives .prop f (s₁ ++ s₂ ++ s₃)
  | neg {f : Formula} {s₁ s₂ : List Char} (sign : Spells "~" s₁) (inner : Derives .prop f s₂) :
      Derives .prop (.neg f) (s₁ ++ s₂)
  | ofProp {f : Formula} {s : List Char} (h : Derives .prop f s) : Derives .conj f s
  | conj {f g : Formula} {s₁ s₂ s₃ : List Char} (left : Derives .conj f s₁)
      (sign : Spells "/\\" s₂) (right : Derives .prop g s₃) :
      Derives .conj (.conj f g) (s₁ ++ s₂ ++ s₃)
  | ofConj {f : Formula} {s : List Char} (h : Derives .conj f s) : Derives .disj f s
  | disj {f g : Formula} {s₁ s₂ s₃ : List Char} (left : Derives .disj f s₁)
      (sign : Spells "\\/" s₂) (right : Derives .conj g s₃) :
      Derives .disj (.disj f g) (s₁ ++ s₂ ++ s₃)
  | ofDisj {f : Formula} {s : List Char} (h : Derives .disj f s) : Derives .imp f s
  | imp {f g : Formula} {s₁ s₂ s₃ : List Char} (left : Derives .disj f s₁)
      (sign : Spells "->" s₂) (right : Derives .imp g s₃) :
      Derives .imp (.imp f g) (s₁ ++ s₂ ++ s₃)
  | ofImp {f : Formula} {s : List Char} (h : Derives .imp f s) : Derives .form f s
  | ex {v : String} {f : Formula} {s₁ s₂ s₃ s₄ : List Char} (keyword : Spells "exists" s₁)
      (bound : SpellsName v s₂) (comma : Spells "," s₃) (body : Derives .form f s₄) :
      Derives .form (.ex (.named v) f) (s₁ ++ s₂ ++ s₃ ++ s₄)
  | all {v : String} {f : Formula} {s₁ s₂ s₃ s₄ : List Char} (keyword : Spells "forall" s₁)
      (bound : SpellsName v s₂) (comma : Spells "," s₃) (body : Derives .form f s₄) :
      Derives .form (.all (.named v) f) (s₁ ++ s₂ ++ s₃ ++ s₄)

/-- Joining from the left takes the last operand last. -/
private theorem joinLeft_concat (op : Formula → Formula → Formula) (p : Formula) (ps : List Formula)
    (q : Formula) : joinLeft op (p :: (ps ++ [q])) = op (joinLeft op (p :: ps)) q := by
  simp only [joinLeft, List.foldl_append, List.foldl_cons, List.foldl_nil]

/-- A row of operands extends what was joined before it, one operand after another. -/
theorem Tail.join {item : Formula → List Char → Prop} {w : String} {ps : List Formula}
    {u : List Char} (h : Tail item w ps u) {L : Level} {op : Formula → Formula → Formula}
    (hop : ∀ {f g s₁ s₂ s₃}, Derives L f s₁ → Spells w s₂ → item g s₃ →
      Derives L (op f g) (s₁ ++ s₂ ++ s₃))
    {p : Formula} {s : List Char} (hp : Derives L p s) : Derives L (ps.foldl op p) (s ++ u) := by
  induction h generalizing p s with
  | nil => simpa using hp
  | cons sign first _ ih =>
    have := ih (hop hp sign first)
    simpa only [List.foldl_cons, List.append_assoc] using this

/-- The left associative levels: the level of their operands, their sign and their connective. -/
def Level.leftAssociative : Level → Option (Level × String × (Formula → Formula → Formula))
  | .conj => some (.prop, "/\\", .conj)
  | .disj => some (.conj, "\\/", .disj)
  | .prop | .imp | .form => none

/-- At a left associative level a chain of operands is derived, joined from the left. -/
theorem derives_left_iff {L M : Level} {w : String} {op : Formula → Formula → Formula}
    (hL : L.leftAssociative = some (M, w, op)) {f : Formula} {s : List Char} :
    Derives L f s ↔ ∃ p ps, Chain (Derives M) w p ps s ∧ f = joinLeft op (p :: ps) := by
  constructor
  · intro h
    induction h with
    | ofProp h | ofConj h =>
      cases hL
      exact ⟨_, [], .single h, rfl⟩
    | @conj _ g _ _ _ _ sign right ih | @disj _ g _ _ _ _ sign right ih =>
      -- the operand on the right is the last one of the chain
      obtain ⟨p, ps, hchain, rfl⟩ := ih hL
      cases hL
      exact ⟨p, ps ++ [g], hchain.concat sign right, (joinLeft_concat _ p ps g).symm⟩
    | _ => cases hL
  · rintro ⟨p, ps, ⟨s₁, s₂, hp, hps, rfl⟩, rfl⟩
    cases L with
    | conj =>
      cases hL
      exact hps.join .conj (.ofProp hp)
    | disj =>
      cases hL
      exact hps.join .disj (.ofConj hp)
    | prop | imp | form => cases hL

/-- An implication is a chain of operands, joined from the right. -/
theorem derives_imp_iff {f : Formula} {s : List Char} :
    Derives .imp f s ↔
      ∃ p ps, Chain (Derives .disj) "->" p ps s ∧ f = joinRight .imp p ps := by
  constructor
  · intro h
    -- the induction is over derivations at all levels, of which only this one is asked about
    generalize hL : Level.imp = L at h
    induction h with
    | ofDisj h => exact ⟨_, [], .single h, rfl⟩
    | imp left sign _ _ ih =>
      obtain ⟨p, ps, hchain, rfl⟩ := ih rfl
      exact ⟨_, p :: ps, .cons left sign hchain, rfl⟩
    | _ => cases hL
  · rintro ⟨p, ps, ⟨s₁, s₂, hp, hps, rfl⟩, rfl⟩
    induction hps generalizing p s₁ with
    | nil => simpa only [joinRight, List.append_nil] using Derives.ofDisj hp
    | cons sign first _ ih =>
      have := Derives.imp hp sign (ih _ _ first)
      simpa only [joinRight, List.append_assoc] using this

/-! ## What readers take off a text -/

theorem blanks_takeWhile (cs : List Char) : Blanks (cs.takeWhile isBlank) :=
  List.all_eq_true.mp List.all_takeWhile

/-- A word is dropped from a text that begins with it. -/
theorem dropWord_eq_some {w cs ds : List Char} : dropWord w cs = some ds ↔ cs = w ++ ds := by
  induction w generalizing cs with
  | nil => simp [dropWord]
  | cons a w ih =>
    cases cs with
    | nil => simp [dropWord]
    | cons c cs =>
      simp only [dropWord, List.cons_append, List.cons.injEq]
      split
      · rename_i h
        simp [ih, h]
      · -- the texts differ at their first character
        rename_i h
        simp [Ne.symm h]

/-- A token is read with the blanks before it. -/
theorem derived_token {w : String} {c c' : Cursor} (h : token w c = .ok ((), c')) :
    ∃ s, Spells w s ∧ c.rest = s ++ c'.rest := by
  simp only [token, exactly] at h
  split at h
  · rename_i cs hdrop
    cases h
    refine ⟨_, ⟨_, blanks_takeWhile c.rest, rfl⟩, ?_⟩
    have hskip : c.rest.dropWhile isBlank = w.toList ++ cs := dropWord_eq_some.mp hdrop
    rw [List.append_assoc, ← hskip, List.takeWhile_append_dropWhile]
  · cases h

/-- A word is read with the blanks before it. -/
private theorem derived_word {p : Char → Bool} {c c' : Cursor} {w : List Char}
    (h : word p c = .ok (w, c')) : ∃ b, Blanks b ∧ c.rest = b ++ w ++ c'.rest := by
  simp only [word] at h
  split at h
  · cases h
  · cases h
    refine ⟨_, blanks_takeWhile c.rest, ?_⟩
    simp only [Cursor.skipWhile, Cursor.skipBlanks, List.append_assoc,
      List.takeWhile_append_dropWhile]

/-- A name is read with the blanks before it. -/
private theorem derived_name {c c' : Cursor} {x : String} (h : name c = .ok (x, c')) :
    ∃ s, SpellsName x s ∧ c.rest = s ++ c'.rest := by
  have hname := name_isName h
  obtain ⟨w, c₁, hw, hrest⟩ := andThen_eq_ok.mp h
  cases hrest
  obtain ⟨b, hb, hsplit⟩ := derived_word hw
  exact ⟨b ++ w, ⟨hname, b, hb, by simp⟩, hsplit⟩

/-- What is read as a list separated by commas is a chain of what is read as its items. -/
private theorem derived_commaTail {α : Type} {reader : Cursor → Parse α}
    {item : α → List Char → Prop}
    (hitem : ∀ {c a c'}, reader c = .ok (a, c') → ∃ s, item a s ∧ c.rest = s ++ c'.rest)
    (n : Nat) {c c' : Cursor} {as : List α} (h : commaTail reader n c = (as, c')) :
    ∃ s, Tail item "," as s ∧ c.rest = s ++ c'.rest := by
  induction n generalizing c as with
  | zero =>
    cases h
    exact ⟨[], .nil, rfl⟩
  | succ n ih =>
    simp only [commaTail] at h
    split at h
    · cases h
      exact ⟨[], .nil, rfl⟩
    · rename_i c₁ hcomma
      split at h
      · cases h
        exact ⟨[], .nil, rfl⟩
      · -- a comma and an item, after which the list goes on
        rename_i a c₂ ha
        rcases hmore : commaTail reader n c₂ with ⟨bs, c₃⟩
        rw [hmore] at h
        cases h
        obtain ⟨t, ht, hrest⟩ := derived_token hcomma
        obtain ⟨s, hs, hrest₁⟩ := hitem ha
        obtain ⟨u, hu, hrest₂⟩ := ih hmore
        exact ⟨_, .cons ht hs hu, by simp only [hrest, hrest₁, hrest₂, List.append_assoc]⟩

private theorem derived_commaList {α : Type} {reader : Cursor → Parse α}
    {item : α → List Char → Prop}
    (hitem : ∀ {c a c'}, reader c = .ok (a, c') → ∃ s, item a s ∧ c.rest = s ++ c'.rest)
    {c c' : Cursor} {as : List α} (h : commaList reader c = .ok (as, c')) :
    ∃ a bs s, as = a :: bs ∧ Chain item "," a bs s ∧ c.rest = s ++ c'.rest := by
  obtain ⟨a, c₁, ha, hrest⟩ := andThen_eq_ok.mp h
  rcases htail : commaTail reader c₁.rest.length c₁ with ⟨bs, c₂⟩
  rw [htail] at hrest
  cases hrest
  obtain ⟨s₁, hs₁, hrest₁⟩ := hitem ha
  obtain ⟨s₂, hs₂, hrest₂⟩ := derived_commaTail hitem _ htail
  exact ⟨a, bs, _, rfl, ⟨s₁, s₂, hs₁, hs₂, rfl⟩, by rw [hrest₁, hrest₂, List.append_assoc]⟩

/-- What is read as a predicate is derived as one. -/
private theorem derived_predicate {c c' : Cursor} {f : Formula} (h : predicate c = .ok (f, c')) :
    ∃ s, Derives .prop f s ∧ c.rest = s ++ c'.rest := by
  obtain ⟨n, c₁, hn, h⟩ := andThen_eq_ok.mp h
  obtain ⟨_, c₂, hopen, h⟩ := andThen_eq_ok.mp h
  obtain ⟨args, c₃, hargs, h⟩ := andThen_eq_ok.mp h
  obtain ⟨_, c₄, hclose, h⟩ := andThen_eq_ok.mp h
  cases h
  obtain ⟨s₁, hs₁, hrest₁⟩ := derived_name hn
  obtain ⟨s₂, hs₂, hrest₂⟩ := derived_token hopen
  obtain ⟨x, xs, s₃, rfl, hs₃, hrest₃⟩ := derived_commaList derived_name hargs
  obtain ⟨s₄, hs₄, hrest₄⟩ := derived_token hclose
  refine ⟨_, .predicate hs₁ hs₂ hs₃ hs₄, ?_⟩
  simp only [hrest₁, hrest₂, hrest₃, hrest₄, List.append_assoc]

/-- What is read as a propositional letter is derived as one. -/
private theorem derived_letter {c c' : Cursor} {f : Formula} (h : letter c = .ok (f, c')) :
    ∃ s, Derives .prop f s ∧ c.rest = s ++ c'.rest := by
  obtain ⟨a, c₁, ha, h⟩ := andThen_eq_ok.mp h
  cases h
  simp only [oneOf] at ha
  split at ha
  · rename_i cs hskip
    split at ha
    · rename_i hcapital
      cases ha
      -- what follows the blanks begins with the letter
      have hdrop : c.rest.dropWhile isBlank = a :: cs := congrArg Cursor.rest hskip
      refine ⟨_, .letter hcapital ⟨_, blanks_takeWhile c.rest, rfl⟩, ?_⟩
      rw [String.toList_ofList, List.append_assoc, List.singleton_append, ← hdrop,
        List.takeWhile_append_dropWhile]
    · cases ha
  · cases ha

/-- What the readers with a given amount of fuel take off a text is derived. -/
structure Derived (n : Nat) : Prop where
  prop : ∀ {c f c'}, prop n c = .ok (f, c') → ∃ s, Derives .prop f s ∧ c.rest = s ++ c'.rest
  conjuncts : ∀ {c ps c'}, conjuncts n c = .ok (ps, c') →
    ∃ q qs s, ps = q :: qs ∧ Chain (Derives .prop) "/\\" q qs s ∧ c.rest = s ++ c'.rest
  disjuncts : ∀ {c ps c'}, disjuncts n c = .ok (ps, c') →
    ∃ q qs s, ps = q :: qs ∧ Chain (Derives .conj) "\\/" q qs s ∧ c.rest = s ++ c'.rest
  consequents : ∀ {c ps c'}, consequents n c = (ps, c') →
    ∃ s, Tail (Derives .disj) "->" ps s ∧ c.rest = s ++ c'.rest
  form : ∀ {c f c'}, form n c = .ok (f, c') → ∃ s, Derives .form f s ∧ c.rest = s ++ c'.rest

/-- The operands of a connective are a chain of what is read as one. -/
private theorem derived_operands {w : String} {operand : Cursor → Parse Formula}
    {more : Cursor → Parse (List Formula)} {item : Formula → List Char → Prop}
    (hoperand : ∀ {c p c'}, operand c = .ok (p, c') → ∃ s, item p s ∧ c.rest = s ++ c'.rest)
    (hmore : ∀ {c ps c'}, more c = .ok (ps, c') →
      ∃ q qs s, ps = q :: qs ∧ Chain item w q qs s ∧ c.rest = s ++ c'.rest)
    {c c' : Cursor} {ps : List Formula} (h : operands w operand more c = .ok (ps, c')) :
    ∃ q qs s, ps = q :: qs ∧ Chain item w q qs s ∧ c.rest = s ++ c'.rest := by
  obtain ⟨p, c₁, hp, h⟩ := andThen_eq_ok.mp h
  obtain ⟨s₁, hs₁, hrest₁⟩ := hoperand hp
  split at h
  · cases h
    exact ⟨p, [], s₁, rfl, .single hs₁, hrest₁⟩
  · -- another operand follows, with which the chain begins
    rename_i c₂ hsign
    obtain ⟨qs, c₃, hqs, h⟩ := andThen_eq_ok.mp h
    cases h
    obtain ⟨s₂, hs₂, hrest₂⟩ := derived_token hsign
    obtain ⟨q, qs, s₃, rfl, hs₃, hrest₃⟩ := hmore hqs
    exact ⟨p, q :: qs, _, rfl, .cons hs₁ hs₂ hs₃, by
      simp only [hrest₁, hrest₂, hrest₃, List.append_assoc]⟩

namespace Derived

variable {n : Nat} {c c' : Cursor} {f : Formula} {ps : List Formula}

theorem prop_succ (ih : Derived n) (h : Grammar.prop (n + 1) c = .ok (f, c')) :
    ∃ s, Derives .prop f s ∧ c.rest = s ++ c'.rest := by
  rw [Grammar.prop] at h
  rcases eq_ok_of_orElse h with h | h
  · exact derived_predicate h
  rcases eq_ok_of_orElse h with h | h
  · exact derived_letter h
  rcases eq_ok_of_orElse h with h | h
  · -- a formula in parentheses
    obtain ⟨_, c₁, hopen, h⟩ := andThen_eq_ok.mp h
    obtain ⟨g, c₂, hg, h⟩ := andThen_eq_ok.mp h
    obtain ⟨_, c₃, hclose, h⟩ := andThen_eq_ok.mp h
    cases h
    obtain ⟨s₁, hs₁, hrest₁⟩ := derived_token hopen
    obtain ⟨s₂, hs₂, hrest₂⟩ := ih.form hg
    obtain ⟨s₃, hs₃, hrest₃⟩ := derived_token hclose
    exact ⟨_, .parens hs₁ hs₂ hs₃, by simp only [hrest₁, hrest₂, hrest₃, List.append_assoc]⟩
  · -- a negation
    obtain ⟨_, c₁, hsign, h⟩ := andThen_eq_ok.mp h
    obtain ⟨g, c₂, hg, h⟩ := andThen_eq_ok.mp h
    cases h
    obtain ⟨s₁, hs₁, hrest₁⟩ := derived_token hsign
    obtain ⟨s₂, hs₂, hrest₂⟩ := ih.prop hg
    exact ⟨_, .neg hs₁ hs₂, by simp only [hrest₁, hrest₂, List.append_assoc]⟩

theorem conjuncts_succ (ih : Derived n) (h : Grammar.conjuncts (n + 1) c = .ok (ps, c')) :
    ∃ q qs s, ps = q :: qs ∧ Chain (Derives .prop) "/\\" q qs s ∧ c.rest = s ++ c'.rest :=
  derived_operands ih.prop ih.conjuncts h

theorem disjuncts_succ (ih : Derived n) (h : Grammar.disjuncts (n + 1) c = .ok (ps, c')) :
    ∃ q qs s, ps = q :: qs ∧ Chain (Derives .conj) "\\/" q qs s ∧ c.rest = s ++ c'.rest := by
  refine derived_operands ?_ ih.disjuncts h
  -- an operand of a disjunction is a chain of its own
  intro c p c' h
  obtain ⟨rs, c₁, hrs, h⟩ := andThen_eq_ok.mp h
  cases h
  obtain ⟨r, rs, s, rfl, hchain, hrest⟩ := ih.conjuncts hrs
  exact ⟨s, (derives_left_iff rfl).mpr ⟨r, rs, hchain, rfl⟩, hrest⟩

/-- What is read as the operands of a disjunction is derived as one. -/
theorem disjunction (ih : Derived n) (h : Grammar.disjuncts n c = .ok (ps, c')) :
    ∃ s, Derives .disj (joinLeft .disj ps) s ∧ c.rest = s ++ c'.rest := by
  obtain ⟨q, qs, s, rfl, hs, hrest⟩ := ih.disjuncts h
  exact ⟨s, (derives_left_iff rfl).mpr ⟨q, qs, hs, rfl⟩, hrest⟩

theorem consequents_succ (ih : Derived n) (h : Grammar.consequents (n + 1) c = (ps, c')) :
    ∃ s, Tail (Derives .disj) "->" ps s ∧ c.rest = s ++ c'.rest := by
  rw [Grammar.consequents] at h
  split at h
  · cases h
    exact ⟨[], .nil, rfl⟩
  · rename_i c₁ hsign
    split at h
    · -- an arrow without an operand is not counted
      cases h
      exact ⟨[], .nil, rfl⟩
    · rename_i rs c₂ hrs
      rcases hmore : Grammar.consequents n c₂ with ⟨qs, c₃⟩
      rw [hmore] at h
      cases h
      obtain ⟨t, ht, hrest⟩ := derived_token hsign
      obtain ⟨s, hs, hrest₁⟩ := ih.disjunction hrs
      obtain ⟨u, hu, hrest₂⟩ := ih.consequents hmore
      exact ⟨_, .cons ht hs hu, by simp only [hrest, hrest₁, hrest₂, List.append_assoc]⟩

theorem form_succ (ih : Derived n) (h : Grammar.form (n + 1) c = .ok (f, c')) :
    ∃ s, Derives .form f s ∧ c.rest = s ++ c'.rest := by
  rw [Grammar.form] at h
  rcases eq_ok_of_orElse h with h | h
  · -- a disjunction and what it implies
    obtain ⟨rs, c₁, hrs, h⟩ := andThen_eq_ok.mp h
    rcases hmore : Grammar.consequents n c₁ with ⟨qs, c₂⟩
    rw [hmore] at h
    cases h
    obtain ⟨s₁, hs₁, hrest₁⟩ := ih.disjunction hrs
    obtain ⟨s₂, hs₂, hrest₂⟩ := ih.consequents hmore
    refine ⟨s₁ ++ s₂, .ofImp (derives_imp_iff.mpr ⟨_, qs, ⟨s₁, s₂, hs₁, hs₂, rfl⟩, rfl⟩), ?_⟩
    rw [hrest₁, hrest₂, List.append_assoc]
  -- both quantifiers: a keyword, a name, a comma and a formula
  rcases eq_ok_of_orElse h with h | h
  all_goals
    obtain ⟨_, c₁, hkeyword, h⟩ := andThen_eq_ok.mp h
    obtain ⟨v, c₂, hv, h⟩ := andThen_eq_ok.mp h
    obtain ⟨_, c₃, hcomma, h⟩ := andThen_eq_ok.mp h
    obtain ⟨g, c₄, hg, h⟩ := andThen_eq_ok.mp h
    cases h
    obtain ⟨s₁, hs₁, hrest₁⟩ := derived_token hkeyword
    obtain ⟨s₂, hs₂, hrest₂⟩ := derived_name hv
    obtain ⟨s₃, hs₃, hrest₃⟩ := derived_token hcomma
    obtain ⟨s₄, hs₄, hrest₄⟩ := ih.form hg
    refine ⟨s₁ ++ s₂ ++ s₃ ++ s₄, ?_, by
      simp only [hrest₁, hrest₂, hrest₃, hrest₄, List.append_assoc]⟩
  · exact .ex hs₁ hs₂ hs₃ hs₄
  · exact .all hs₁ hs₂ hs₃ hs₄

end Derived

/-- What the readers take off a text is derived, at every amount of fuel. -/
theorem derived (n : Nat) : Derived n := by
  induction n with
  | zero =>
    -- without fuel nothing is read
    refine ⟨?_, ?_, ?_, ?_, ?_⟩
    · intro c f c' h
      cases h
    · intro c ps c' h
      cases h
    · intro c ps c' h
      cases h
    · intro c ps c' h
      cases h
      exact ⟨[], .nil, rfl⟩
    · intro c f c' h
      cases h
  | succ n ih =>
    exact ⟨ih.prop_succ, ih.conjuncts_succ, ih.disjuncts_succ, ih.consequents_succ, ih.form_succ⟩

end Sequitur.Grammar
