import Mathlib.Data.List.TakeWhile
import Mathlib.Data.Set.Subsingleton
import Sequitur.Proofs.Expansion

/-!
# Recognizing formulas

The readers find every derivation.  A reader takes the first alternative that fits, so for each rule
of the grammar the alternatives before it have to fail on the texts of the rule.  The only ones that
are close are predicates: a letter, or the keyword of a quantifier with the name after it, is read
as the symbol of a predicate as long as a parenthesis follows.

A repetition takes as much as it can.  So what follows a text counts as well: `Stops` says of a text
that nothing in it can continue a formula of a given level.

## Key results

- `reads`: the readers find every derivation that has a stop behind it, with the fuel that they get
- `Formula.parse_eq_ok_iff_derives`: a whole text is read as a formula exactly if it is derived
-/

namespace Sequitur.Grammar

/-! ## The next character -/

/-- The first character after blanks. -/
def ahead (cs : List Char) : Option Char := (cs.dropWhile isBlank).head?

/-- A blank is no letter. -/
theorem isLetter_of_isBlank {c : Char} (h : isBlank c) : isLetter c = false := by
  by_contra hl
  rw [Bool.not_eq_false] at hl
  rw [isBlank_of_isLetter hl] at h
  cases h

/-- Blanks are skipped. -/
theorem dropWhile_blanks {b cs : List Char} (hb : Blanks b) :
    (b ++ cs).dropWhile isBlank = cs.dropWhile isBlank :=
  List.dropWhile_append_of_pos hb

/-- After the blanks of a token stand its characters. -/
theorem Spells.dropWhile {w : String} {s : List Char} (h : Spells w s) {a : Char}
    {as : List Char} (hw : w.toList = a :: as) (ha : isBlank a = false) (r : List Char) :
    (s ++ r).dropWhile isBlank = w.toList ++ r := by
  obtain ⟨b, hb, rfl⟩ := h
  rw [List.append_assoc, dropWhile_blanks hb, hw, List.cons_append,
    List.dropWhile_cons_of_neg (by simp [ha])]

/-- A token shows its first character. -/
theorem Spells.ahead_eq {w : String} {s : List Char} (h : Spells w s) {a : Char} {as : List Char}
    (hw : w.toList = a :: as) (ha : isBlank a = false) (r : List Char) :
    ahead (s ++ r) = some a := by
  rw [ahead, h.dropWhile hw ha, hw]
  rfl

/-- A token has a character. -/
theorem Spells.length_pos {w : String} {s : List Char} (h : Spells w s) {a : Char}
    {as : List Char} (hw : w.toList = a :: as) : 0 < s.length := by
  obtain ⟨b, -, rfl⟩ := h
  rw [List.length_append, hw, List.length_cons]
  omega

/-- A name begins with a letter. -/
private theorem SpellsName.exists_cons {x : String} {s : List Char} (h : SpellsName x s) :
    ∃ a as, x.toList = a :: as ∧ isLetter a := by
  obtain ⟨⟨hne, hall⟩, -⟩ := h
  obtain ⟨a, as, hx⟩ := List.exists_cons_of_ne_nil hne
  exact ⟨a, as, hx, hall a (by simp [hx])⟩

/-- A name shows a letter. -/
private theorem SpellsName.exists_ahead {x : String} {s : List Char} (h : SpellsName x s)
    (r : List Char) : ∃ a, ahead (s ++ r) = some a ∧ isLetter a := by
  obtain ⟨a, as, hx, ha⟩ := h.exists_cons
  exact ⟨a, h.2.ahead_eq hx (isBlank_of_isLetter ha) r, ha⟩

/-- A token ends a word of characters that neither it nor blanks begin with. -/
theorem Spells.dropWhile_of_not {p : Char → Bool} {w : String} {s : List Char} (h : Spells w s)
    {a : Char} {as : List Char} (hw : w.toList = a :: as) (hblank : ∀ {c}, p c → isBlank c = false)
    (ha : p a = false) (r : List Char) : (s ++ r).dropWhile p = s ++ r := by
  obtain ⟨b, hb, rfl⟩ := h
  cases b with
  | nil => rw [List.nil_append, hw, List.cons_append, List.dropWhile_cons_of_neg (by simp [ha])]
  | cons c b =>
    have hc : p c = false := by
      by_contra hpc
      have hnot := hblank (Bool.not_eq_false _ ▸ hpc)
      rw [hb c List.mem_cons_self] at hnot
      cases hnot
    rw [List.cons_append, List.cons_append, List.dropWhile_cons_of_neg (by simp [hc])]

/-- A token that does not begin with a letter ends a name. -/
theorem Spells.dropWhile_isLetter {w : String} {s : List Char} (h : Spells w s) {a : Char}
    {as : List Char} (hw : w.toList = a :: as) (ha : isLetter a = false) (r : List Char) :
    (s ++ r).dropWhile isLetter = s ++ r :=
  h.dropWhile_of_not hw isBlank_of_isLetter ha r

/-- Every derivation has a character. -/
theorem Derives.length_pos {L : Level} {f : Formula} {s : List Char} (h : Derives L f s) :
    0 < s.length := by
  induction h with
  | predicate _ opening _ _ =>
    have := opening.length_pos rfl
    simp only [List.length_append]
    omega
  | letter _ spelled => exact spelled.length_pos String.toList_ofList
  | ofProp _ ih | ofConj _ ih | ofDisj _ ih | ofImp _ ih => exact ih
  | _ =>
    simp only [List.length_append]
    omega

/-! ## Tokens -/

/-- What stands at the cursor is read. -/
theorem exactly_append (w cs : List Char) (pos : Nat) :
    exactly w ⟨pos, w ++ cs⟩ = .ok ((), ⟨pos + w.length, cs⟩) := by
  rw [exactly, dropWord_eq_some.mpr rfl]

/-- A token is read where it stands. -/
theorem token_reads {w : String} {s : List Char} (h : Spells w s) {a : Char} {as : List Char}
    (hw : w.toList = a :: as) (ha : isBlank a = false) (r : List Char) (pos : Nat) :
    ∃ pos', token w ⟨pos, s ++ r⟩ = .ok ((), ⟨pos', r⟩) := by
  rw [token, Cursor.skipBlanks, Cursor.skipWhile, h.dropWhile hw ha]
  exact ⟨_, exactly_append _ _ _⟩

/-- A token is not found where another character stands. -/
theorem token_fails {w : String} {a : Char} {as : List Char} (hw : w.toList = a :: as)
    (ha : isBlank a = false) {cs : List Char} (h : ahead cs ≠ some a) (pos : Nat) :
    ∃ i, token w ⟨pos, cs⟩ = .error i := by
  cases hread : token w ⟨pos, cs⟩ with
  | error i => exact ⟨i, rfl⟩
  | ok r =>
    -- what was read as the token would show its first character
    obtain ⟨s, hs, hrest : cs = s ++ r.2.rest⟩ := derived_token hread
    exact absurd (hrest ▸ hs.ahead_eq hw ha r.2.rest) h

/-- A word is read up to where its characters end. -/
theorem word_reads {p : Char → Bool} {w : String} {s r : List Char} (h : Spells w s)
    (hblank : ∀ {c}, p c → isBlank c = false) (hne : w.toList ≠ []) (hall : ∀ c ∈ w.toList, p c)
    (hr : r.dropWhile p = r) (pos : Nat) :
    ∃ pos', word p ⟨pos, s ++ r⟩ = .ok (w.toList, ⟨pos', r⟩) := by
  obtain ⟨a, as, hw⟩ := List.exists_cons_of_ne_nil hne
  have ha : isBlank a = false := hblank (hall a (by simp [hw]))
  have hskip : (s ++ r).dropWhile isBlank = w.toList ++ r := h.dropWhile hw ha r
  -- the word ends where the text says so, since nothing behind it belongs to it
  have hnone : r.takeWhile p = [] := by
    have := List.takeWhile_append_dropWhile (p := p) (l := r)
    rw [hr] at this
    simpa using this
  have htake : (w.toList ++ r).takeWhile p = w.toList := by
    rw [List.takeWhile_append_of_pos hall, hnone, List.append_nil]
  have hdrop : (w.toList ++ r).dropWhile p = r := by
    rw [List.dropWhile_append_of_pos hall, hr]
  simp only [word, Cursor.skipBlanks, Cursor.skipWhile, hskip, htake, hdrop]
  rw [hw]
  exact ⟨_, rfl⟩

/-- A word is not found where another character stands. -/
theorem word_fails {p : Char → Bool} {cs : List Char} (h : ∀ a, ahead cs = some a → p a = false)
    (pos : Nat) : ∃ i, word p ⟨pos, cs⟩ = .error i := by
  simp only [word, Cursor.skipBlanks, Cursor.skipWhile]
  cases hcs : cs.dropWhile isBlank with
  | nil => exact ⟨_, rfl⟩
  | cons a as =>
    have ha : p a = false := h a (by rw [ahead, hcs]; rfl)
    rw [List.takeWhile_cons_of_neg (by simp [ha])]
    exact ⟨_, rfl⟩

/-- A name is read up to where the letters end. -/
private theorem name_reads {x : String} {s r : List Char} (h : SpellsName x s)
    (hr : r.dropWhile isLetter = r) (pos : Nat) :
    ∃ pos', name ⟨pos, s ++ r⟩ = .ok (x, ⟨pos', r⟩) := by
  obtain ⟨pos', hread⟩ := word_reads h.2 isBlank_of_isLetter h.1.1 h.1.2 hr pos
  exact ⟨pos', by simp only [name, hread, andThen, String.ofList_toList]⟩

/-- Where no letter stands there is no name. -/
private theorem name_fails {cs : List Char} (h : ∀ a, ahead cs = some a → isLetter a = false)
    (pos : Nat) : ∃ i, name ⟨pos, cs⟩ = .error i := by
  obtain ⟨i, hi⟩ := word_fails h pos
  exact ⟨i, by simp only [name, hi, andThen]⟩

/-- After a name the letters have ended. -/
private theorem rest_of_name {cs : List Char} {pos : Nat} {x : String} {c : Cursor}
    (h : name ⟨pos, cs⟩ = .ok (x, c)) : c.rest = (cs.dropWhile isBlank).dropWhile isLetter := by
  obtain ⟨w, c₁, hw, hrest⟩ := andThen_eq_ok.mp h
  cases hrest
  simp only [word] at hw
  split at hw
  · cases hw
  · cases hw
    rfl

/-! ## Lists separated by commas -/

/-- A row has at least one character for each of its items. -/
theorem Tail.length_le {α : Type} {item : α → List Char → Prop} {w : String} {as : List α}
    {u : List Char} (h : Tail item w as u) {a : Char} {cs : List Char} (hw : w.toList = a :: cs) :
    as.length ≤ u.length := by
  induction h with
  | nil => simp
  | cons sign _ _ ih =>
    have := sign.length_pos hw
    simp only [List.length_cons, List.length_append]
    omega

/-- Behind an item of a row stands the next token of the row, or what follows the row. -/
theorem Tail.follows {α : Type} {item : α → List Char → Prop} {w : String} {as : List α}
    {u : List Char} (h : Tail item w as u) {F : List Char → Prop} {r : List Char}
    (hsign : ∀ {t r}, Spells w t → F (t ++ r)) (hr : F r) : F (u ++ r) := by
  cases h with
  | nil => exact hr
  | cons sign _ _ =>
    rw [List.append_assoc, List.append_assoc]
    exact hsign sign

section Lists

variable {α : Type} {reader : Cursor → Parse α} {item : α → List Char → Prop}
  {F : List Char → Prop}

/-- A row of items is read up to where no comma follows, if each item can be read with a comma
    behind it. -/
private theorem commaTail_reads
    (hreads : ∀ {a s r}, item a s → F r → ∀ pos, ∃ pos',
      reader ⟨pos, s ++ r⟩ = .ok (a, ⟨pos', r⟩))
    (hcomma : ∀ {t r}, Spells "," t → F (t ++ r))
    {as : List α} {u : List Char} (h : Tail item "," as u) {r : List Char} (hr : F r)
    (hend : ahead r ≠ some ',') {n : Nat} (hn : as.length ≤ n) (pos : Nat) :
    ∃ pos', commaTail reader n ⟨pos, u ++ r⟩ = (as, ⟨pos', r⟩) := by
  induction h generalizing n pos with
  | nil =>
    cases n with
    | zero => exact ⟨pos, rfl⟩
    | succ n =>
      -- the row ends where no comma is found
      obtain ⟨i, hi⟩ := token_fails (w := ",") rfl rfl hend pos
      exact ⟨pos, by simp only [commaTail, List.nil_append, hi]⟩
  | @cons a as t s u sign first rest ih =>
    cases n with
    | zero => simp at hn
    | succ n =>
      obtain ⟨pos₁, h₁⟩ := token_reads sign rfl rfl (s ++ (u ++ r)) pos
      obtain ⟨pos₂, h₂⟩ := hreads first (rest.follows hcomma hr) pos₁
      obtain ⟨pos₃, h₃⟩ := ih (Nat.le_of_succ_le_succ hn) pos₂
      refine ⟨pos₃, ?_⟩
      simp only [List.append_assoc, commaTail, h₁, h₂, h₃]

/-- A list is read up to where no comma follows. -/
theorem commaList_reads
    (hreads : ∀ {a s r}, item a s → F r → ∀ pos, ∃ pos',
      reader ⟨pos, s ++ r⟩ = .ok (a, ⟨pos', r⟩))
    (hcomma : ∀ {t r}, Spells "," t → F (t ++ r))
    {a : α} {as : List α} {s : List Char} (h : Chain item "," a as s) {r : List Char}
    (hr : F r) (hend : ahead r ≠ some ',') (pos : Nat) :
    ∃ pos', commaList reader ⟨pos, s ++ r⟩ = .ok (a :: as, ⟨pos', r⟩) := by
  obtain ⟨s₁, s₂, first, rest, rfl⟩ := h
  have hlen : as.length ≤ (s₂ ++ r).length := by
    have := rest.length_le rfl
    rw [List.length_append]
    omega
  obtain ⟨pos₁, h₁⟩ := hreads first (rest.follows hcomma hr) pos
  obtain ⟨pos₂, h₂⟩ := commaTail_reads hreads hcomma rest hr hend hlen pos₁
  refine ⟨pos₂, ?_⟩
  simp only [List.append_assoc, commaList, andThen, h₁, h₂]

end Lists

/-! ## Stops -/

/-- The characters with which a sign begins that continues a formula of a level. -/
def Level.signs : Level → List Char
  | .prop => []
  | .conj => ['/']
  | .disj => ['/', '\\']
  | .imp | .form => ['/', '\\', '-']

/-- Nothing in the text `r` can continue a formula of the level that stands before it: no sign of
    the level, and no parenthesis that would turn a letter into the symbol of a predicate. -/
structure Stops (L : Level) (r : List Char) : Prop where
  symbol : ahead (r.dropWhile isLetter) ≠ some '('
  sign : ∀ a ∈ L.signs, ahead r ≠ some a

/-- A token of another kind is a stop. -/
theorem stops_of_spells {L : Level} {w : String} {t : List Char} (h : Spells w t) {a : Char}
    {as : List Char} (hw : w.toList = a :: as) (hblank : isBlank a = false)
    (hletter : isLetter a = false) (hparen : a ≠ '(') (hsign : a ∉ L.signs) (r : List Char) :
    Stops L (t ++ r) := by
  have hahead := h.ahead_eq hw hblank r
  refine ⟨?_, fun b hb => ?_⟩
  · rw [h.dropWhile_isLetter hw hletter, hahead]
    simpa using hparen
  · rw [hahead]
    rintro ⟨⟩
    exact hsign hb

/-- A stop for a looser level is one for a tighter level. -/
theorem Stops.mono {L L' : Level} {r : List Char} (h : Stops L r) (hsub : L'.signs ⊆ L.signs) :
    Stops L' r :=
  ⟨h.symbol, fun a ha => h.sign a (hsub ha)⟩

/-- Behind an operand stands the sign of the row that it begins, or what follows the row. -/
private theorem Stops.behind {L M : Level} {r : List Char} (hr : Stops L r)
    {item : Formula → List Char → Prop} {w : String} {ps : List Formula} {u : List Char}
    (h : Tail item w ps u) {a : Char} {as : List Char} (hw : w.toList = a :: as)
    (hblank : isBlank a = false) (hletter : isLetter a = false) (hparen : a ≠ '(')
    (hsign : a ∉ M.signs) (hsub : M.signs ⊆ L.signs) : Stops M (u ++ r) :=
  h.follows (fun ht => stops_of_spells ht hw hblank hletter hparen hsign _) (hr.mono hsub)

/-- The end of a text is a stop. -/
theorem stops_of_blanks {L : Level} {r : List Char} (h : Blanks r) : Stops L r := by
  -- among blanks there is no character to look at
  have hnone : ∀ {cs : List Char}, Blanks cs → ahead cs = none := by
    intro cs hcs
    rw [ahead, List.dropWhile_eq_nil_iff.mpr hcs]
    rfl
  refine ⟨?_, fun a _ => ?_⟩
  · rw [hnone fun c hc => h c ((List.dropWhile_sublist _).subset hc)]
    simp
  · rw [hnone h]
    simp

/-! ## Operands -/

/-- A predicate is read where it stands. -/
private theorem predicate_reads {n x : String} {xs : List String} {s₁ s₂ s₃ s₄ : List Char}
    (symbol : SpellsName n s₁) (opening : Spells "(" s₂) (args : Chain SpellsName "," x xs s₃)
    (closing : Spells ")" s₄) (r : List Char) (pos : Nat) :
    ∃ pos', predicate ⟨pos, s₁ ++ s₂ ++ s₃ ++ s₄ ++ r⟩ =
      .ok (.pred n ((x :: xs).map .named), ⟨pos', r⟩) := by
  obtain ⟨pos₁, h₁⟩ := name_reads (r := s₂ ++ (s₃ ++ (s₄ ++ r))) symbol
    (opening.dropWhile_isLetter rfl rfl _) pos
  obtain ⟨pos₂, h₂⟩ := token_reads opening rfl rfl (s₃ ++ (s₄ ++ r)) pos₁
  obtain ⟨pos₃, h₃⟩ := commaList_reads (F := fun r => r.dropWhile isLetter = r)
    (r := s₄ ++ r) name_reads (fun ht => ht.dropWhile_isLetter rfl rfl _) args
    (closing.dropWhile_isLetter rfl rfl _) (by rw [closing.ahead_eq rfl rfl]; decide) pos₂
  obtain ⟨pos₄, h₄⟩ := token_reads closing rfl rfl r pos₃
  refine ⟨pos₄, ?_⟩
  simp only [List.append_assoc, predicate, h₁, h₂, h₃, h₄, andThen]

/-- Where no letter stands there is no predicate. -/
private theorem predicate_fails_of_ahead {cs : List Char}
    (h : ∀ a, ahead cs = some a → isLetter a = false) (pos : Nat) :
    ∃ i, predicate ⟨pos, cs⟩ = .error i := by
  obtain ⟨i, hi⟩ := name_fails h pos
  exact ⟨i, by simp only [predicate, hi, andThen]⟩

/-- Without a parenthesis after it, a word is no predicate. -/
private theorem predicate_fails {cs : List Char}
    (h : ahead ((cs.dropWhile isBlank).dropWhile isLetter) ≠ some '(') (pos : Nat) :
    ∃ i, predicate ⟨pos, cs⟩ = .error i := by
  cases hname : name ⟨pos, cs⟩ with
  | error i => exact ⟨i, by simp only [predicate, hname, andThen]⟩
  | ok r =>
    obtain ⟨x, c⟩ := r
    rw [← rest_of_name hname] at h
    obtain ⟨i, hi⟩ := token_fails (w := "(") rfl rfl h c.pos
    exact ⟨i, by simp only [predicate, hname, hi, andThen]⟩

/-- A letter is read where it stands. -/
private theorem letter_reads {a : Char} (ha : isCapital a) {s : List Char}
    (h : Spells (String.ofList [a]) s) (r : List Char) (pos : Nat) :
    ∃ pos', letter ⟨pos, s ++ r⟩ = .ok (.atom (String.ofList [a]), ⟨pos', r⟩) := by
  have hw : (String.ofList [a]).toList = [a] := String.toList_ofList
  have hskip := h.dropWhile hw (isBlank_of_isLetter (isLetter_of_isCapital ha)) r
  rw [hw, List.singleton_append] at hskip
  rw [letter, oneOf]
  simp only [Cursor.skipBlanks, Cursor.skipWhile, hskip, if_pos ha, andThen]
  exact ⟨_, rfl⟩

/-- Where no capital letter stands there is no letter. -/
private theorem letter_fails {cs : List Char} (h : ∀ a, ahead cs = some a → isCapital a = false)
    (pos : Nat) : ∃ i, letter ⟨pos, cs⟩ = .error i := by
  rw [letter, oneOf]
  simp only [Cursor.skipBlanks, Cursor.skipWhile]
  cases hcs : cs.dropWhile isBlank with
  | nil => exact ⟨_, rfl⟩
  | cons a as =>
    have ha : isCapital a = false := h a (by rw [ahead, hcs]; rfl)
    simp only [ha, andThen]
    exact ⟨_, rfl⟩

/-! ## Choices -/

/-- The first alternative counts if it succeeds. -/
private theorem orElse_of_ok {α : Type} {first : Parse α} {r : α × Cursor} (h : first = .ok r)
    (second : Unit → Parse α) : orElse first second = .ok r := by
  rw [h, orElse]

/-- The second alternative counts if the first one fails. -/
theorem orElse_of_error {α : Type} {first : Parse α} {i : Nat} (h : first = .error i)
    {second : Unit → Parse α} {r : α × Cursor} (hs : second () = .ok r) :
    orElse first second = .ok r := by
  simp only [orElse, h, hs]

/-- The readers of operands fail where none of the alternatives begins. -/
private theorem prop_fails {cs : List Char} (hpred : ∀ pos, ∃ i, predicate ⟨pos, cs⟩ = .error i)
    (hcapital : ∀ a, ahead cs = some a → isCapital a = false) (hopen : ahead cs ≠ some '(')
    (hneg : ahead cs ≠ some '~') (n pos : Nat) : ∃ i, prop n ⟨pos, cs⟩ = .error i := by
  cases n with
  | zero => exact ⟨_, rfl⟩
  | succ n =>
    obtain ⟨i₁, h₁⟩ := hpred pos
    obtain ⟨i₂, h₂⟩ := letter_fails hcapital pos
    obtain ⟨i₃, h₃⟩ := token_fails (w := "(") rfl rfl hopen pos
    obtain ⟨i₄, h₄⟩ := token_fails (w := "~") rfl rfl hneg pos
    simp only [prop, h₁, h₂, h₃, h₄, orElse, andThen]
    exact ⟨_, rfl⟩

/-- Without an operand at its beginning there is no disjunction. -/
private theorem disjuncts_fails {cs : List Char} (h : ∀ n pos, ∃ i, prop n ⟨pos, cs⟩ = .error i)
    (n pos : Nat) : ∃ i, disjuncts n ⟨pos, cs⟩ = .error i := by
  rcases n with _ | _ | n
  · exact ⟨_, rfl⟩
  · exact ⟨_, rfl⟩
  · obtain ⟨i, hi⟩ := h n pos
    exact ⟨i, by simp only [disjuncts, conjuncts, operands, hi, andThen]⟩

/-- A keyword, a name and a comma are no predicate: after the keyword, or after the name if no blank
    divides them, there is no parenthesis. -/
private theorem predicate_fails_of_keyword {w v : String} {s₁ s₂ s₃ : List Char} {a : Char}
    {as : List Char} (hw : w.toList = a :: as) (hletters : w.toList.all isLetter)
    (keyword : Spells w s₁) (bound : SpellsName v s₂) (comma : Spells "," s₃) (r : List Char)
    (pos : Nat) : ∃ i, predicate ⟨pos, s₁ ++ (s₂ ++ (s₃ ++ r))⟩ = .error i := by
  refine predicate_fails ?_ pos
  rw [List.all_eq_true] at hletters
  have ha : isLetter a := hletters a (by simp [hw])
  rw [keyword.dropWhile hw (isBlank_of_isLetter ha), List.dropWhile_append_of_pos hletters]
  obtain ⟨b, hahead, hb⟩ := bound.exists_ahead (s₃ ++ r)
  obtain ⟨⟨-, hall⟩, blanks, hblanks, rfl⟩ := bound
  cases blanks with
  | nil =>
    -- keyword and name run together into one word, and a comma follows
    rw [List.nil_append, List.dropWhile_append_of_pos hall, comma.dropWhile_isLetter rfl rfl,
      comma.ahead_eq rfl rfl]
    decide
  | cons c blanks =>
    have hc : isLetter c = false := isLetter_of_isBlank (hblanks c List.mem_cons_self)
    rw [List.cons_append, List.cons_append] at hahead ⊢
    rw [List.dropWhile_cons_of_neg (by simp [hc]), hahead]
    rintro ⟨⟩
    cases hb

/-- The text of a quantified formula does not begin with an operand. -/
private theorem disjuncts_fails_of_keyword {w v : String} {s₁ s₂ s₃ : List Char} {a : Char}
    {as : List Char} (hw : w.toList = a :: as) (hletters : w.toList.all isLetter)
    (ha : isCapital a = false) (keyword : Spells w s₁) (bound : SpellsName v s₂)
    (comma : Spells "," s₃) (r : List Char) (n pos : Nat) :
    ∃ i, disjuncts n ⟨pos, s₁ ++ (s₂ ++ (s₃ ++ r))⟩ = .error i := by
  have hletter : isLetter a := List.all_eq_true.mp hletters a (by simp [hw])
  have hahead := keyword.ahead_eq hw (isBlank_of_isLetter hletter) (s₂ ++ (s₃ ++ r))
  refine disjuncts_fails (prop_fails
    (predicate_fails_of_keyword hw hletters keyword bound comma r) ?_ ?_ ?_) n pos
  · rw [hahead]
    rintro _ ⟨⟩
    exact ha
  · rw [hahead]
    rintro ⟨⟩
    cases hletter
  · rw [hahead]
    rintro ⟨⟩
    cases hletter

/-! ## Levels of the grammar -/

/-- An operand and the row behind it are read, if the first reader finds the operand and the second
    one finds the shorter chain that is left after the sign. -/
private theorem operands_reads {w : String} {a : Char} {as : List Char} (hw : w.toList = a :: as)
    (ha : isBlank a = false) {item : Formula → List Char → Prop}
    {operand : Cursor → Parse Formula} {more : Cursor → Parse (List Formula)} {p : Formula}
    {ps : List Formula} {s u r : List Char}
    (hfirst : ∀ pos, ∃ pos', operand ⟨pos, s ++ (u ++ r)⟩ = .ok (p, ⟨pos', u ++ r⟩))
    (rest : Tail item w ps u) (hend : ahead r ≠ some a)
    (hmore : ∀ {q qs t}, Chain item w q qs t → t.length < u.length →
      ∀ pos, ∃ pos', more ⟨pos, t ++ r⟩ = .ok (q :: qs, ⟨pos', r⟩))
    (pos : Nat) :
    ∃ pos', operands w operand more ⟨pos, s ++ (u ++ r)⟩ = .ok (p :: ps, ⟨pos', r⟩) := by
  obtain ⟨pos₁, h₁⟩ := hfirst pos
  cases rest with
  | nil =>
    -- no sign follows, so that the operand is alone
    obtain ⟨i, hi⟩ := token_fails hw ha hend pos₁
    rw [List.nil_append] at h₁ ⊢
    exact ⟨pos₁, by simp only [operands, h₁, hi, andThen]⟩
  | @cons q qs t s₂ u sign second rest =>
    -- the sign is used up, which makes the rest of the chain shorter
    have hlen := sign.length_pos hw
    simp only [List.append_assoc] at h₁ ⊢
    obtain ⟨pos₂, h₂⟩ := token_reads sign hw ha (s₂ ++ (u ++ r)) pos₁
    obtain ⟨pos₃, h₃⟩ := hmore ⟨s₂, u, second, rest, rfl⟩
      (by simp only [List.length_append]; omega) pos₂
    rw [List.append_assoc] at h₃
    exact ⟨pos₃, by simp only [operands, h₁, h₂, h₃, andThen]⟩

/-- The readers with a given amount of fuel find every derivation that has a stop behind it, on
    texts that the fuel is enough for. -/
structure Reads (n : Nat) : Prop where
  prop : ∀ {f s r}, Derives .prop f s → Stops .prop r → 4 * (s ++ r).length + 1 ≤ n →
    ∀ pos, ∃ pos', Grammar.prop n ⟨pos, s ++ r⟩ = .ok (f, ⟨pos', r⟩)
  conjuncts : ∀ {p ps s r}, Chain (Derives .prop) "/\\" p ps s → Stops .conj r →
    4 * (s ++ r).length + 2 ≤ n →
    ∀ pos, ∃ pos', Grammar.conjuncts n ⟨pos, s ++ r⟩ = .ok (p :: ps, ⟨pos', r⟩)
  disjuncts : ∀ {p ps s r}, Chain (Derives .conj) "\\/" p ps s → Stops .disj r →
    4 * (s ++ r).length + 3 ≤ n →
    ∀ pos, ∃ pos', Grammar.disjuncts n ⟨pos, s ++ r⟩ = .ok (p :: ps, ⟨pos', r⟩)
  consequents : ∀ {ps s r}, Tail (Derives .disj) "->" ps s → Stops .imp r →
    4 * (s ++ r).length + 4 ≤ n →
    ∀ pos, ∃ pos', Grammar.consequents n ⟨pos, s ++ r⟩ = (ps, ⟨pos', r⟩)
  form : ∀ {f s r}, Derives .form f s → Stops .form r → 4 * (s ++ r).length + 4 ≤ n →
    ∀ pos, ∃ pos', Grammar.form n ⟨pos, s ++ r⟩ = .ok (f, ⟨pos', r⟩)

namespace Reads

variable {n : Nat} {f p : Formula} {ps : List Formula} {s r : List Char}

/-- Operands are found with one more unit of fuel. -/
theorem prop_succ (ih : Reads n) (h : Derives .prop f s) (hr : Stops .prop r)
    (hn : 4 * (s ++ r).length + 1 ≤ n + 1) (pos : Nat) :
    ∃ pos', Grammar.prop (n + 1) ⟨pos, s ++ r⟩ = .ok (f, ⟨pos', r⟩) := by
  rw [Grammar.prop]
  cases h with
  | predicate symbol opening args closing =>
    obtain ⟨pos₁, h₁⟩ := predicate_reads symbol opening args closing r pos
    exact ⟨pos₁, orElse_of_ok h₁ _⟩
  | @letter a _ capital spelled =>
    have hw : (String.ofList [a]).toList = [a] := String.toList_ofList
    have hletter := isLetter_of_isCapital capital
    -- the letter is no predicate, because of what stands behind it
    have hpred : ahead (((s ++ r).dropWhile isBlank).dropWhile isLetter) ≠ some '(' := by
      rw [spelled.dropWhile hw (isBlank_of_isLetter hletter), hw, List.singleton_append,
        List.dropWhile_cons_of_pos hletter]
      exact hr.symbol
    obtain ⟨i, hi⟩ := predicate_fails hpred pos
    obtain ⟨pos₁, h₁⟩ := letter_reads capital spelled r pos
    exact ⟨pos₁, orElse_of_error hi (orElse_of_ok h₁ _)⟩
  | @parens _ s₁ s₂ s₃ opening inner closing =>
    have hlen := opening.length_pos rfl
    simp only [List.append_assoc, List.length_append] at hn ⊢
    have hahead := opening.ahead_eq rfl rfl (s₂ ++ (s₃ ++ r))
    -- neither a predicate nor a letter begins with a parenthesis
    obtain ⟨i₁, hi₁⟩ := predicate_fails_of_ahead (by rw [hahead]; rintro _ ⟨⟩; rfl) pos
    obtain ⟨i₂, hi₂⟩ := letter_fails (by rw [hahead]; rintro _ ⟨⟩; rfl) pos
    obtain ⟨pos₁, h₁⟩ := token_reads opening rfl rfl (s₂ ++ (s₃ ++ r)) pos
    obtain ⟨pos₂, h₂⟩ := ih.form (r := s₃ ++ r) inner
      (stops_of_spells closing rfl rfl rfl (by decide) (by decide) r)
      (by simp only [List.length_append]; omega) pos₁
    obtain ⟨pos₃, h₃⟩ := token_reads closing rfl rfl r pos₂
    refine ⟨pos₃, orElse_of_error hi₁ (orElse_of_error hi₂ (orElse_of_ok ?_ _))⟩
    simp only [h₁, h₂, h₃, andThen]
  | @neg _ s₁ s₂ sign inner =>
    have hlen := sign.length_pos rfl
    simp only [List.append_assoc, List.length_append] at hn ⊢
    have hahead := sign.ahead_eq rfl rfl (s₂ ++ r)
    -- no other alternative begins with this sign
    obtain ⟨i₁, hi₁⟩ := predicate_fails_of_ahead (by rw [hahead]; rintro _ ⟨⟩; rfl) pos
    obtain ⟨i₂, hi₂⟩ := letter_fails (by rw [hahead]; rintro _ ⟨⟩; rfl) pos
    obtain ⟨i₃, hi₃⟩ := token_fails (w := "(") rfl rfl (by rw [hahead]; decide) pos
    obtain ⟨pos₁, h₁⟩ := token_reads sign rfl rfl (s₂ ++ r) pos
    obtain ⟨pos₂, h₂⟩ := ih.prop inner hr
      (by simp only [List.length_append]; omega) pos₁
    refine ⟨pos₂, orElse_of_error hi₁ (orElse_of_error hi₂ (orElse_of_error (i := i₃) ?_ ?_))⟩
    · simp only [hi₃, andThen]
    · simp only [h₁, h₂, andThen]

/-- The operands of a conjunction are found with one more unit of fuel. -/
theorem conjuncts_succ (ih : Reads n) (h : Chain (Derives .prop) "/\\" p ps s) (hr : Stops .conj r)
    (hn : 4 * (s ++ r).length + 2 ≤ n + 1) (pos : Nat) :
    ∃ pos', Grammar.conjuncts (n + 1) ⟨pos, s ++ r⟩ = .ok (p :: ps, ⟨pos', r⟩) := by
  obtain ⟨s₁, u, first, rest, rfl⟩ := h
  rw [List.append_assoc] at hn ⊢
  -- what stands behind the first operand does not continue it
  have hstop : Stops .prop (u ++ r) :=
    hr.behind rest rfl rfl rfl (by decide) (by decide) (by simp [Level.signs])
  refine operands_reads rfl rfl (ih.prop first hstop (by omega)) rest (hr.sign '/' (by decide))
    (fun hchain hlen => ih.conjuncts hchain hr ?_) pos
  simp only [List.length_append] at hn ⊢
  omega

/-- The operands of a disjunction are found with one more unit of fuel. -/
theorem disjuncts_succ (ih : Reads n) (h : Chain (Derives .conj) "\\/" p ps s) (hr : Stops .disj r)
    (hn : 4 * (s ++ r).length + 3 ≤ n + 1) (pos : Nat) :
    ∃ pos', Grammar.disjuncts (n + 1) ⟨pos, s ++ r⟩ = .ok (p :: ps, ⟨pos', r⟩) := by
  obtain ⟨s₁, u, first, rest, rfl⟩ := h
  rw [List.append_assoc] at hn ⊢
  have hstop : Stops .conj (u ++ r) :=
    hr.behind rest rfl rfl rfl (by decide) (by decide) (by simp [Level.signs])
  refine operands_reads rfl rfl (fun pos => ?_) rest (hr.sign '\\' (by decide))
    (fun hchain hlen => ih.disjuncts hchain hr ?_) pos
  · -- each operand is a chain of its own, which ends before the sign of this one
    obtain ⟨q, qs, hchain, rfl⟩ := (derives_left_iff rfl).mp first
    obtain ⟨pos', h'⟩ := ih.conjuncts hchain hstop (by omega) pos
    exact ⟨pos', by simp only [h', andThen]⟩
  · simp only [List.length_append] at hn ⊢
    omega

/-- The operands of a disjunction are found, with an arrow or a stop behind them. -/
theorem disjunction (ih : Reads n) (h : Derives .disj f s) (hr : Stops .disj r)
    (hn : 4 * (s ++ r).length + 3 ≤ n) (pos : Nat) :
    ∃ ps pos', Grammar.disjuncts n ⟨pos, s ++ r⟩ = .ok (ps, ⟨pos', r⟩) ∧ joinLeft .disj ps = f := by
  obtain ⟨q, qs, hchain, rfl⟩ := (derives_left_iff rfl).mp h
  obtain ⟨pos', h'⟩ := ih.disjuncts hchain hr hn pos
  exact ⟨_, pos', h', rfl⟩

/-- What stands behind an operand of an implication is a stop. -/
private theorem stops_consequents {u : List Char} (h : Tail (Derives .disj) "->" ps u)
    (hr : Stops .imp r) : Stops .disj (u ++ r) :=
  hr.behind h rfl rfl rfl (by decide) (by decide) (by simp [Level.signs])

/-- What an implication leads to is found with one more unit of fuel. -/
theorem consequents_succ (ih : Reads n) (h : Tail (Derives .disj) "->" ps s) (hr : Stops .imp r)
    (hn : 4 * (s ++ r).length + 4 ≤ n + 1) (pos : Nat) :
    ∃ pos', Grammar.consequents (n + 1) ⟨pos, s ++ r⟩ = (ps, ⟨pos', r⟩) := by
  rw [Grammar.consequents]
  cases h with
  | nil =>
    -- behind the last operand there is no arrow
    obtain ⟨i, hi⟩ := token_fails (w := "->") rfl rfl (hr.sign '-' (by decide)) pos
    exact ⟨pos, by simp only [hi, List.nil_append]⟩
  | @cons q qs t s u sign first rest =>
    have hlen := sign.length_pos rfl
    simp only [List.append_assoc, List.length_append] at hn ⊢
    obtain ⟨pos₁, h₁⟩ := token_reads sign rfl rfl (s ++ (u ++ r)) pos
    obtain ⟨rs, pos₂, h₂, rfl⟩ := ih.disjunction first (stops_consequents rest hr)
      (by simp only [List.length_append]; omega) pos₁
    obtain ⟨pos₃, h₃⟩ := ih.consequents rest hr (by simp only [List.length_append]; omega) pos₂
    exact ⟨pos₃, by simp only [h₁, h₂, h₃]⟩

/-- A quantified formula is read by its parts, with the reader for its keyword. -/
theorem quantified (ih : Reads n) {w v : String} {a : Char} {as : List Char}
    (hw : w.toList = a :: as) (ha : isBlank a = false) {s₁ s₂ s₃ s₄ : List Char}
    (keyword : Spells w s₁) (bound : SpellsName v s₂) (comma : Spells "," s₃)
    (body : Derives .form f s₄) (hr : Stops .form r)
    (hn : 4 * (s₁ ++ (s₂ ++ (s₃ ++ (s₄ ++ r)))).length + 4 ≤ n + 1)
    (quantify : Variable → Formula → Formula) (pos : Nat) :
    ∃ pos', (andThen (token w ⟨pos, s₁ ++ (s₂ ++ (s₃ ++ (s₄ ++ r)))⟩) fun _ c =>
      andThen (name c) fun v c => andThen (token "," c) fun _ c =>
      andThen (Grammar.form n c) fun f c => .ok (quantify (.named v) f, c)) =
        .ok (quantify (.named v) f, ⟨pos', r⟩) := by
  have hlen := keyword.length_pos hw
  simp only [List.length_append] at hn
  obtain ⟨pos₁, h₁⟩ := token_reads keyword hw ha (s₂ ++ (s₃ ++ (s₄ ++ r))) pos
  obtain ⟨pos₂, h₂⟩ := name_reads (r := s₃ ++ (s₄ ++ r)) bound
    (comma.dropWhile_isLetter rfl rfl _) pos₁
  obtain ⟨pos₃, h₃⟩ := token_reads comma rfl rfl (s₄ ++ r) pos₂
  obtain ⟨pos₄, h₄⟩ := ih.form body hr (by simp only [List.length_append]; omega) pos₃
  exact ⟨pos₄, by simp only [h₁, h₂, h₃, h₄, andThen]⟩

/-- Formulas are found with one more unit of fuel. -/
theorem form_succ (ih : Reads n) (h : Derives .form f s) (hr : Stops .form r)
    (hn : 4 * (s ++ r).length + 4 ≤ n + 1) (pos : Nat) :
    ∃ pos', Grammar.form (n + 1) ⟨pos, s ++ r⟩ = .ok (f, ⟨pos', r⟩) := by
  rw [Grammar.form]
  cases h with
  | ofImp h =>
    -- a disjunction, and the row of what it leads to
    obtain ⟨p, ps, ⟨s₁, u, first, rest, rfl⟩, rfl⟩ := derives_imp_iff.mp h
    have hlen := first.length_pos
    simp only [List.append_assoc, List.length_append] at hn ⊢
    have hr : Stops .imp r := hr.mono (List.Subset.refl _)
    obtain ⟨rs, pos₁, h₁, rfl⟩ := ih.disjunction first (stops_consequents rest hr)
      (by simp only [List.length_append]; omega) pos
    obtain ⟨pos₂, h₂⟩ := ih.consequents rest hr (by simp only [List.length_append]; omega) pos₁
    exact ⟨pos₂, orElse_of_ok (by simp only [h₁, h₂, andThen]) _⟩
  | @ex v f s₁ s₂ s₃ s₄ keyword bound comma body =>
    simp only [List.append_assoc] at hn ⊢
    -- operands are tried before the quantifiers
    obtain ⟨i, hi⟩ := disjuncts_fails_of_keyword rfl rfl rfl keyword bound comma (s₄ ++ r) n pos
    obtain ⟨pos', h'⟩ := ih.quantified rfl rfl keyword bound comma body hr hn .ex pos
    refine ⟨pos', orElse_of_error (i := i) ?_ (orElse_of_ok h' _)⟩
    simp only [hi, andThen]
  | @all v f s₁ s₂ s₃ s₄ keyword bound comma body =>
    simp only [List.append_assoc] at hn ⊢
    obtain ⟨i, hi⟩ := disjuncts_fails_of_keyword rfl rfl rfl keyword bound comma (s₄ ++ r) n pos
    -- the other keyword begins with another letter
    obtain ⟨i', hi'⟩ := token_fails (w := "exists") rfl rfl
      (by rw [keyword.ahead_eq rfl rfl (s₂ ++ (s₃ ++ (s₄ ++ r)))]; decide) pos
    obtain ⟨pos', h'⟩ := ih.quantified rfl rfl keyword bound comma body hr hn .all pos
    refine ⟨pos', orElse_of_error (i := i) ?_ (orElse_of_error (i := i') ?_ h')⟩
    · simp only [hi, andThen]
    · simp only [hi', andThen]

end Reads

/-- The readers find every derivation that has a stop behind it, at every amount of fuel that is
    enough for the text. -/
theorem reads (n : Nat) : Reads n := by
  induction n with
  | zero =>
    -- without fuel the bounds cannot be met
    refine ⟨?_, ?_, ?_, ?_, ?_⟩ <;> intros <;> omega
  | succ n ih =>
    exact ⟨ih.prop_succ, ih.conjuncts_succ, ih.disjuncts_succ, ih.consequents_succ, ih.form_succ⟩

/-- A formula with a stop behind it is read to its end. -/
theorem formula_reads {f : Formula} {s r : List Char} (h : Derives .form f s) (hr : Stops .form r)
    (pos : Nat) : ∃ pos', formula ⟨pos, s ++ r⟩ = .ok (f, ⟨pos', r⟩) :=
  (reads _).form h hr (Nat.le_refl _) pos

/-! ## Whole texts -/

/-- The text is derived as a formula, blanks at its end apart. -/
def Sentence (f : Formula) (text : List Char) : Prop :=
  ∃ s r, Derives .form f s ∧ Blanks r ∧ text = s ++ r

/-- Which formula a text is derived with does not depend on the lengths of its rows of blanks. -/
theorem Sentence.respaced {f : Formula} {s t : List Char} (h : Sentence f s) (hst : Respaced s t) :
    Sentence f t := by
  obtain ⟨s, r, hs, hr, rfl⟩ := h
  obtain ⟨s', r', rfl, hs', hrest⟩ := hs.kept r t hst
  exact ⟨s', r', hs', hr.respaced hrest, rfl⟩

/-- Expanding tabs only changes the lengths of rows of blanks. -/
private theorem sentence_expandTabs_iff {f : Formula} {s : List Char} :
    Sentence f (Text.expandTabs s) ↔ Sentence f s := by
  have hrespaced : Respaced s (Text.expandTabs s) := respaced_expandTabsFrom 0 s
  exact ⟨fun h => h.respaced hrespaced.symm, fun h => h.respaced hrespaced⟩

/-- The text is at its end when only blanks are left. -/
theorem atEnd_eq_ok {c : Cursor} : atEnd c = .ok () ↔ Blanks c.rest := by
  rw [atEnd, Blanks, ← List.dropWhile_eq_nil_iff]
  simp only [Cursor.skipBlanks, Cursor.skipWhile]
  cases c.rest.dropWhile isBlank with
  | nil => simp
  | cons a as => simp

/-- A whole text is read if only blanks are left over. -/
theorem readText_eq_ok {α : Type} {reader : Cursor → Parse α} {text : String} {a : α} :
    readText reader true text = .ok a ↔
      ∃ c, reader (.start (Text.expandTabs text.toList)) = .ok (a, c) ∧ Blanks c.rest := by
  rw [readText]
  simp only [if_true]
  cases hread : reader (.start (Text.expandTabs text.toList)) with
  | error i => simp
  | ok r =>
    obtain ⟨b, c⟩ := r
    cases hend : atEnd c with
    | error i =>
      simp only [hend, Except.ok.injEq, Prod.mk.injEq, reduceCtorEq, false_iff]
      -- something other than blanks is left over
      rintro ⟨_, ⟨-, rfl⟩, hblanks⟩
      rw [atEnd_eq_ok.mpr hblanks] at hend
      cases hend
    | ok u =>
      have hblanks := atEnd_eq_ok.mp hend
      simp only [hend, Except.ok.injEq, Prod.mk.injEq]
      exact ⟨fun h => ⟨c, ⟨h, rfl⟩, hblanks⟩, fun ⟨_, h, _⟩ => h.1⟩

/-- A text is derived as a whole when the reader finds the formula and leaves only blanks. -/
theorem sentence_iff {f : Formula} {cs : List Char} :
    Sentence f cs ↔ ∃ c, formula (.start cs) = .ok (f, c) ∧ Blanks c.rest := by
  constructor
  · rintro ⟨s, r, hs, hr, rfl⟩
    obtain ⟨pos, h⟩ := formula_reads hs (stops_of_blanks hr) 0
    exact ⟨_, h, hr⟩
  · rintro ⟨c, h, hr⟩
    obtain ⟨s, hs, hrest⟩ := (derived _).form h
    exact ⟨s, c.rest, hs, hr, hrest⟩

end Sequitur.Grammar

namespace Sequitur.Formula

open Grammar

/-- A whole text is read as a formula exactly if it is derived with it, after its tabs are expanded;
    no text is derived with two formulas; and expanding its tabs does not change what it is derived
    with. -/
theorem parse_eq_ok_iff_derives (text : String) :
    (∀ f, parse text = .ok f ↔ Sentence f (Text.expandTabs text.toList)) ∧
      {f | Sentence f (Text.expandTabs text.toList)}.Subsingleton ∧
      ∀ f, Sentence f (Text.expandTabs text.toList) ↔ Sentence f text.toList := by
  have hiff : ∀ f, parse text = .ok f ↔ Sentence f (Text.expandTabs text.toList) := by
    intro f
    rw [parse, readText_eq_ok, sentence_iff]
  refine ⟨hiff, fun f hf g hg => ?_, fun f => sentence_expandTabs_iff⟩
  -- reading has one answer
  have h := (hiff f).mpr hf
  rw [(hiff g).mpr hg] at h
  exact (Except.ok.inj h).symm

end Sequitur.Formula
