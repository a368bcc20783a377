import Sequitur.Proofs.Expansion
import Sequitur.Proofs.Printing

/-!
# The texts of proofs

A proof is written down item by item: a line is its number, its formula, its rule and the numbers
that it cites; a nested block stands between braces; comments may stand between any two items.
`Writes` says which texts write down a script in this way, with blanks before the tokens as anyone
likes.

Reading gives the script back, whatever the comments say and however deep the blocks are nested.
The readers of items and of blocks call each other with decreasing fuel, but what they read is
followed along the way the text was written: `ReadBack` is what the readers do on one text, and each
rule of `Writes` preserves it.

Tabs are expanded before anything is read.  A tab can stand in a comment or between tokens only, so
expanding tabs gives a text of the same script (`Writes.expandTabs`).

## Key results

- `line_reads`: a line is read back, whatever follows it
- `Writes.readBack`: the readers give back what is written
- `readProof_of_writes`: a whole text is read as the script that it writes down
-/

namespace Sequitur

namespace Grammar

/-! ## What is written -/

/-- The name of a rule: lower case letters and underscores, at least one. -/
def IsRuleName (r : String) : Prop := r.toList ≠ [] ∧ ∀ c ∈ r.toList, isRuleChar c

/-- The text `s` spells the number `n` in decimals, after blanks. -/
def SpellsNumber (n : Int) (s : List Char) : Prop := Spells (toString n) s

/-- The text `s` spells the numbers of cited lines, separated by commas. -/
inductive SpellsCitations : List Int → List Char → Prop
  | none : SpellsCitations [] []
  | some {n : Int} {ns : List Int} {s : List Char} (list : Chain SpellsNumber "," n ns s) :
      SpellsCitations (n :: ns) s

/-- The text `s` spells a line: its number with a dot right behind it, its formula in the written
    form, the name of its rule, the numbers that it cites, and a semicolon. -/
inductive SpellsLine (l : Line) : List Char → Prop
  | mk {s₁ s₂ s₃ s₄ s₅ : List Char} (number : SpellsNumber l.number s₁)
      (formula : Spells l.formula.text s₂) (rule : Spells l.reason.rule s₃)
      (cited : SpellsCitations l.reason.citations s₄) (semicolon : Spells ";" s₅) :
      SpellsLine l (s₁ ++ ['.'] ++ s₂ ++ s₃ ++ s₄ ++ s₅)

/-- The sign that ends a comment does not occur in the text. -/
def Uninterrupted (body : List Char) : Prop := ¬ ['*', '/'] <:+: body

/-- The text `t` writes down the items of a block. -/
inductive Writes : Script → List Char → Prop
  | done {b : List Char} (blanks : Blanks b) : Writes .done b
  | comment {s : Script} {t₁ body t₂ : List Char} (opening : Spells "/*" t₁)
      (uninterrupted : Uninterrupted body) (rest : Writes s t₂) :
      Writes s (t₁ ++ body ++ ['*', '/'] ++ t₂)
  | line {l : Line} {s : Script} {t₁ t₂ : List Char} (first : SpellsLine l t₁)
      (rest : Writes s t₂) : Writes (.line l s) (t₁ ++ t₂)
  | block {b s : Script} {t₁ t₂ t₃ t₄ : List Char} (opening : Spells "\x7b" t₁)
      (inner : Writes b t₂) (closing : Spells "\x7d" t₃) (rest : Writes s t₄) :
      Writes (.block b s) (t₁ ++ t₂ ++ t₃ ++ t₄)

end Grammar

/-- A line that the grammar can write: no number is negative, the formula is printable, and the rule
    has a name. -/
structure Line.Writable (l : Line) : Prop where
  number : 0 ≤ l.number
  formula : l.formula.Printable
  rule : Grammar.IsRuleName l.reason.rule
  cited : ∀ n ∈ l.reason.citations, 0 ≤ n

namespace Grammar

/-! ## Words -/

private theorem isBlank_of_isNumeral {c : Char} (h : isNumeral c) : isBlank c = false :=
  isBlank_eq_false rfl h

private theorem isBlank_of_isRuleChar {c : Char} (h : isRuleChar c) : isBlank c = false :=
  isBlank_eq_false rfl h

/-- All digits come before the letters. -/
private theorem isLetter_of_isNumeral {c : Char} (h : isNumeral c) : isLetter c = false := by
  have hle : c.val ≤ '9'.val := of_decide_eq_true (Bool.and_eq_true_iff.mp h).2
  by_contra hletter
  rw [Bool.not_eq_false] at hletter
  cases Bool.or_eq_true_iff.mp hletter with
  | inl hupper =>
    have hge : 'A'.val ≤ c.val := (of_decide_eq_true hupper).1
    exact absurd (UInt32.le_trans hge hle) (by decide)
  | inr hlower =>
    have hge : 'a'.val ≤ c.val := of_decide_eq_true (Bool.and_eq_true_iff.mp hlower).1
    exact absurd (UInt32.le_trans hge hle) (by decide)

private theorem isRuleChar_of_isNumeral {c : Char} (h : isNumeral c) : isRuleChar c = false := by
  have hletter : (c.isUpper || c.isLower) = false := isLetter_of_isNumeral h
  rw [Bool.or_eq_false_iff] at hletter
  rw [isRuleChar, hletter.2, Bool.false_or, decide_eq_false_iff_not]
  rintro rfl
  cases h

/-! ## Numbers -/

private theorem toList_toString {n : Int} (hn : 0 ≤ n) :
    (toString n).toList = Nat.toDigits 10 n.toNat := by
  obtain ⟨k, rfl⟩ := Int.eq_ofNat_of_zero_le hn
  show (Nat.repr k).toList = Nat.toDigits 10 k
  rw [Nat.repr, String.toList_ofList]

/-- A number is written in digits. -/
private theorem isNumeral_of_mem_toString {n : Int} (hn : 0 ≤ n) :
    ∀ c ∈ (toString n).toList, isNumeral c := by
  rw [toList_toString hn]
  intro c hc
  exact Nat.isDigit_of_mem_toDigits (by omega) (by omega) hc

private theorem exists_toString_eq_cons {n : Int} (hn : 0 ≤ n) :
    ∃ a as, (toString n).toList = a :: as ∧ isNumeral a := by
  have hne : (toString n).toList ≠ [] := by
    rw [toList_toString hn]
    exact Nat.toDigits_ne_nil
  obtain ⟨a, as, has⟩ := List.exists_cons_of_ne_nil hne
  exact ⟨a, as, has, isNumeral_of_mem_toString hn a (by rw [has]; exact List.mem_cons_self)⟩

/-- A number is read back from its digits, up to where digits end. -/
private theorem number_reads {n : Int} (hn : 0 ≤ n) {s r : List Char} (h : SpellsNumber n s)
    (hr : r.dropWhile isNumeral = r) (pos : Nat) :
    ∃ pos', number ⟨pos, s ++ r⟩ = .ok (n.toNat, ⟨pos', r⟩) := by
  obtain ⟨a, as, hcons, -⟩ := exists_toString_eq_cons hn
  have hne : (toString n).toList ≠ [] := by
    rw [hcons]
    exact List.cons_ne_nil a as
  obtain ⟨pos', hread⟩ :=
    word_reads h isBlank_of_isNumeral hne (isNumeral_of_mem_toString hn) hr pos
  have hvalue : digitsValue (toString n).toList = n.toNat := by
    rw [toList_toString hn]
    exact Nat.ofDigitChars_toDigits (by omega) (by omega)
  exact ⟨pos', by simp only [number, hread, andThen, hvalue]⟩

/-- Where no digit comes next, no number is read. -/
private theorem number_fails {cs : List Char} (h : ∀ a, ahead cs = some a → isNumeral a = false)
    (pos : Nat) : ∃ i, number ⟨pos, cs⟩ = .error i := by
  obtain ⟨i, hi⟩ := word_fails h pos
  exact ⟨i, by simp only [number, hi, andThen]⟩

/-! ## Lines -/

/-- What follows the name of a rule: a number or a semicolon, after blanks. -/
private theorem exists_spells_after_rule {ns : List Int} (hns : ∀ n ∈ ns, 0 ≤ n) {s₄ s₅ : List Char}
    (cited : SpellsCitations ns s₄) (semicolon : Spells ";" s₅) (r : List Char) :
    ∃ w t r' a as, s₄ ++ (s₅ ++ r) = t ++ r' ∧ Spells w t ∧ w.toList = a :: as ∧
      (isNumeral a ∨ a = ';') := by
  cases cited with
  | none => exact ⟨";", s₅, r, ';', [], rfl, semicolon, rfl, .inr rfl⟩
  | some list =>
    obtain ⟨t₁, t₂, hfirst, -, rfl⟩ := list
    obtain ⟨a, as, hcons, ha⟩ := exists_toString_eq_cons (hns _ List.mem_cons_self)
    exact ⟨_, t₁, t₂ ++ (s₅ ++ r), a, as, List.append_assoc _ _ _, hfirst, hcons, .inl ha⟩

/-- Numbers that are not negative come from natural numbers. -/
private theorem exists_natural {ns : List Int} (h : ∀ n ∈ ns, 0 ≤ n) :
    ∃ ks : List Nat, ns = ks.map Int.ofNat := by
  refine ⟨ns.map Int.toNat, ?_⟩
  rw [List.map_map]
  calc ns = ns.map id := (List.map_id ns).symm
    _ = ns.map (Int.ofNat ∘ Int.toNat) :=
      List.map_congr_left fun n hn => (Int.toNat_of_nonneg (h n hn)).symm

/-- A row of items that come from elsewhere is a row of what they come from. -/
theorem Tail.of_map {α β : Type} {item : α → List Char → Prop} {w : String} {f : β → α}
    {bs : List β} {s : List Char} (h : Tail item w (bs.map f) s) :
    Tail (fun b => item (f b)) w bs s := by
  induction bs generalizing s with
  | nil =>
    cases h
    exact .nil
  | cons b bs ih =>
    cases h with
    | cons sign first rest => exact .cons sign first (ih rest)

/-- Where no number stands, nothing is cited. -/
private theorem citations_fails {cs : List Char} (h : ∀ a, ahead cs = some a → isNumeral a = false)
    (pos : Nat) : ∃ i, citations ⟨pos, cs⟩ = .error i := by
  obtain ⟨i, hi⟩ := number_fails h pos
  exact ⟨max i i, by simp only [citations, commaList, hi, andThen, orElse]⟩

/-- Numbers separated by commas are read as citations, and not as a range. -/
private theorem citations_reads {k : Nat} {ks : List Nat} {s t : List Char}
    (h : Chain (fun k : Nat => SpellsNumber k) "," k ks s) (semicolon : Spells ";" t)
    (r : List Char) (pos : Nat) :
    ∃ pos', citations ⟨pos, s ++ (t ++ r)⟩ = .ok ((k :: ks).map Int.ofNat, ⟨pos', t ++ r⟩) := by
  have hreads : ∀ {k : Nat} {s r : List Char}, SpellsNumber k s → r.dropWhile isNumeral = r →
      ∀ pos, ∃ pos', number ⟨pos, s ++ r⟩ = .ok (k, ⟨pos', r⟩) := fun {k} _ _ hs hr pos =>
    number_reads (Int.natCast_nonneg k) hs hr pos
  have hcomma : ∀ {t r : List Char}, Spells "," t → (t ++ r).dropWhile isNumeral = t ++ r :=
    fun ht => ht.dropWhile_of_not rfl isBlank_of_isNumeral rfl _
  have hend : (t ++ r).dropWhile isNumeral = t ++ r :=
    semicolon.dropWhile_of_not rfl isBlank_of_isNumeral rfl r
  have hahead : ahead (t ++ r) = some ';' := semicolon.ahead_eq rfl rfl r
  -- a range would have a dash behind its first number
  obtain ⟨s₁, s₂, first, rest, rfl⟩ := h
  have hdash : ahead (s₂ ++ (t ++ r)) ≠ some '-' := rest.follows
    (F := fun cs => ahead cs ≠ some '-')
    (fun ht => by rw [ht.ahead_eq rfl rfl]; decide) (by rw [hahead]; decide)
  have hdigits : (s₂ ++ (t ++ r)).dropWhile isNumeral = s₂ ++ (t ++ r) := rest.follows
    (F := fun cs => cs.dropWhile isNumeral = cs) hcomma hend
  obtain ⟨pos₁, h₁⟩ := hreads first hdigits pos
  obtain ⟨i, hi⟩ := token_fails (w := "-") rfl rfl hdash pos₁
  obtain ⟨pos₂, h₂⟩ := commaList_reads hreads hcomma ⟨s₁, s₂, first, rest, rfl⟩ hend
    (by rw [hahead]; decide) pos
  refine ⟨pos₂, orElse_of_error (i := i) ?_ ?_⟩
  · simp only [List.append_assoc, h₁, hi, andThen]
  · simp only [h₂, andThen]

/-- The rest of a line after its formula is read back. -/
private theorem reason_reads {reason : Reason} (hrule : IsRuleName reason.rule)
    (hcited : ∀ n ∈ reason.citations, 0 ≤ n) {s₃ s₄ s₅ : List Char} (rule : Spells reason.rule s₃)
    (cited : SpellsCitations reason.citations s₄) (semicolon : Spells ";" s₅) (r : List Char)
    (pos : Nat) :
    ∃ pos', Grammar.reason ⟨pos, s₃ ++ (s₄ ++ (s₅ ++ r))⟩ = .ok (reason, ⟨pos', s₅ ++ r⟩) := by
  obtain ⟨w, t, r', a, as, hsplit, hspells, hw, ha⟩ :=
    exists_spells_after_rule hcited cited semicolon r
  -- neither a digit nor a semicolon continues the name of a rule
  have hstop : (s₄ ++ (s₅ ++ r)).dropWhile isRuleChar = s₄ ++ (s₅ ++ r) := by
    have hnot : isRuleChar a = false := by
      rcases ha with ha | rfl
      · exact isRuleChar_of_isNumeral ha
      · rfl
    rw [hsplit]
    exact hspells.dropWhile_of_not hw isBlank_of_isRuleChar hnot r'
  obtain ⟨pos₁, h₁⟩ := word_reads rule isBlank_of_isRuleChar hrule.1 hrule.2 hstop pos
  obtain ⟨name, numbers⟩ := reason
  cases cited with
  | none =>
    -- nothing is cited, and the semicolon is not taken for a number
    have hahead : ahead (s₅ ++ r) = some ';' := semicolon.ahead_eq rfl rfl r
    have hnone : ∀ a, ahead (s₅ ++ r) = some a → isNumeral a = false := by
      rw [hahead]
      rintro _ ⟨⟩
      rfl
    obtain ⟨i, hi⟩ := citations_fails hnone pos₁
    rw [List.nil_append] at h₁ ⊢
    exact ⟨pos₁, by simp only [Grammar.reason, h₁, hi, andThen, optional, String.ofList_toList]⟩
  | @some n ns _ list =>
    obtain ⟨t₁, t₂, first, rest, rfl⟩ := list
    obtain ⟨k, rfl⟩ := Int.eq_ofNat_of_zero_le (hcited n List.mem_cons_self)
    obtain ⟨ks, rfl⟩ := exists_natural fun m hm => hcited m (List.mem_cons_of_mem _ hm)
    obtain ⟨pos₂, h₂⟩ := citations_reads ⟨t₁, t₂, first, rest.of_map, rfl⟩ semicolon r pos₁
    refine ⟨pos₂, ?_⟩
    simp only [Grammar.reason, h₁, h₂, andThen, optional, String.ofList_toList]
    rfl

private theorem ne_of_isRuleChar {c d : Char} (hc : isRuleChar c) (hd : isRuleChar d = false) :
    some c ≠ some d := by
  rintro ⟨⟩
  rw [hc] at hd
  cases hd

/-- No parenthesis stands behind the letters with which the rest of a line may begin, so that they
    are not taken for the symbol of a predicate. -/
private theorem no_parenthesis_in_rule {reason : Reason} (hrule : IsRuleName reason.rule)
    (hcited : ∀ n ∈ reason.citations, 0 ≤ n) {s₃ s₄ s₅ : List Char} (rule : Spells reason.rule s₃)
    (cited : SpellsCitations reason.citations s₄) (semicolon : Spells ";" s₅) (r : List Char) :
    ahead ((s₃ ++ (s₄ ++ (s₅ ++ r))).dropWhile isLetter) ≠ some '(' := by
  obtain ⟨a, as, hcons⟩ := List.exists_cons_of_ne_nil hrule.1
  have ha : isRuleChar a := hrule.2 a (by rw [hcons]; exact List.mem_cons_self)
  have hahead := rule.ahead_eq hcons (isBlank_of_isRuleChar ha) (s₄ ++ (s₅ ++ r))
  obtain ⟨b, hb, rfl⟩ := rule
  cases b with
  | cons c b =>
    -- a blank comes first, which is no letter, and then the rule
    have hc : isLetter c = false := isLetter_of_isBlank (hb c List.mem_cons_self)
    rw [List.cons_append, List.cons_append, List.dropWhile_cons_of_neg (by simp [hc]),
      ← List.cons_append, ← List.cons_append, hahead]
    exact ne_of_isRuleChar ha rfl
  | nil =>
    rw [List.nil_append, List.dropWhile_append]
    split
    · -- all of the rule is letters, and a number or a semicolon comes next
      obtain ⟨w, t, r', d, ds, hsplit, hspells, hw, hd⟩ :=
        exists_spells_after_rule hcited cited semicolon r
      have hnot : isBlank d = false ∧ isLetter d = false ∧ some d ≠ some '(' := by
        rcases hd with hd | rfl
        · refine ⟨isBlank_of_isNumeral hd, isLetter_of_isNumeral hd, ?_⟩
          rintro ⟨⟩
          cases hd
        · decide
      rw [hsplit, hspells.dropWhile_isLetter hw hnot.2.1, hspells.ahead_eq hw hnot.1]
      exact hnot.2.2
    · -- the rule goes on after its letters, with an underscore
      rename_i hrest
      cases hdrop : reason.rule.toList.dropWhile isLetter with
      | nil => simp [hdrop] at hrest
      | cons d ds =>
        have hmem : d ∈ reason.rule.toList :=
          (List.dropWhile_sublist _).subset (by rw [hdrop]; exact List.mem_cons_self)
        have hd := hrule.2 d hmem
        have hblank : ¬ isBlank d = true := by simp [isBlank_of_isRuleChar hd]
        rw [List.cons_append, ahead, List.dropWhile_cons_of_neg hblank]
        exact ne_of_isRuleChar hd rfl

/-- What follows the formula of a line does not continue it. -/
private theorem stops_before_rule {reason : Reason} (hrule : IsRuleName reason.rule)
    (hcited : ∀ n ∈ reason.citations, 0 ≤ n) {s₃ s₄ s₅ : List Char} (rule : Spells reason.rule s₃)
    (cited : SpellsCitations reason.citations s₄) (semicolon : Spells ";" s₅) (r : List Char) :
    Stops .form (s₃ ++ (s₄ ++ (s₅ ++ r))) := by
  refine ⟨no_parenthesis_in_rule hrule hcited rule cited semicolon r, fun b hb => ?_⟩
  obtain ⟨a, as, hcons⟩ := List.exists_cons_of_ne_nil hrule.1
  have ha : isRuleChar a := hrule.2 a (by rw [hcons]; exact List.mem_cons_self)
  rw [rule.ahead_eq hcons (isBlank_of_isRuleChar ha) (s₄ ++ (s₅ ++ r))]
  -- no sign that continues a formula is a letter of a rule
  have hsign : isRuleChar b = false := by
    simp only [Level.signs, List.mem_cons, List.not_mem_nil, or_false] at hb
    rcases hb with rfl | rfl | rfl <;> rfl
  exact ne_of_isRuleChar ha hsign

/-- A line is read back, whatever follows it. -/
theorem line_reads {l : Line} (hl : l.Writable) {t : List Char} (h : SpellsLine l t) (r : List Char)
    (pos : Nat) : ∃ pos', line ⟨pos, t ++ r⟩ = .ok (l, ⟨pos', r⟩) := by
  obtain @⟨s₁, s₂, s₃, s₄, s₅, number, formula, rule, cited, semicolon⟩ := h
  -- the written form is one of the texts that the grammar derives
  have hderives : Derives .form l.formula s₂ := by
    obtain ⟨b, hb, rfl⟩ := formula
    exact ((derives_text hl.formula).blanks hb).toForm
  have hstop := stops_before_rule hl.rule hl.cited rule cited semicolon r
  obtain ⟨pos₁, h₁⟩ := number_reads (r := '.' :: (s₂ ++ (s₃ ++ (s₄ ++ (s₅ ++ r))))) hl.number number
    rfl pos
  obtain ⟨pos₂, h₂⟩ := formula_reads hderives hstop (pos₁ + 1)
  obtain ⟨pos₃, h₃⟩ := reason_reads hl.rule hl.cited rule cited semicolon r pos₂
  obtain ⟨pos₄, h₄⟩ := token_reads semicolon rfl rfl r pos₃
  have hdot := exactly_append ['.'] (s₂ ++ (s₃ ++ (s₄ ++ (s₅ ++ r)))) pos₁
  have hnumber : Int.ofNat l.number.toNat = l.number := Int.toNat_of_nonneg hl.number
  -- each part is read up to where the next one begins
  refine ⟨pos₄, ?_⟩
  simp only [List.append_assoc, List.cons_append, List.nil_append, List.length_singleton] at hdot ⊢
  simp only [line, lineStart, h₁, hdot, h₂, h₃, h₄, andThen, hnumber]

/-- Where no digit comes next, no line is read. -/
private theorem line_fails {cs : List Char} (h : ∀ a, ahead cs = some a → isNumeral a = false)
    (pos : Nat) : ∃ i, line ⟨pos, cs⟩ = .error i := by
  obtain ⟨i, hi⟩ := number_fails h pos
  exact ⟨i, by simp only [line, lineStart, hi, andThen]⟩

/-! ## Comments -/

/-- The sign that ends a comment is found where the comment ends. -/
private theorem commentEnd_reads {body : List Char} (h : Uninterrupted body) (r : List Char)
    (pos : Nat) : ∃ pos', commentEnd pos (body ++ '*' :: '/' :: r) = some ⟨pos', r⟩ := by
  induction body generalizing pos with
  | nil => exact ⟨pos + 2, rfl⟩
  | cons c body ih =>
    rw [Uninterrupted, List.infix_cons_iff, not_or] at h
    obtain ⟨pos', hpos'⟩ := ih h.2 (pos + 1)
    refine ⟨pos', ?_⟩
    rw [List.cons_append]
    unfold commentEnd
    split
    · rename_i heq
      cases heq
    · -- the comment would end within its body
      rename_i cs heq
      exfalso
      apply h.1
      cases body with
      | nil => simp at heq
      | cons d body =>
        simp only [List.cons_append, List.cons.injEq] at heq
        rw [heq.1, heq.2.1]
        exact ⟨body, rfl⟩
    · rename_i heq
      cases heq
      exact hpos'

/-- A comment is read up to the sign that ends it. -/
private theorem comment_reads {t body : List Char} (opening : Spells "/*" t)
    (h : Uninterrupted body) (r : List Char) (pos : Nat) :
    ∃ pos', comment ⟨pos, t ++ (body ++ '*' :: '/' :: r)⟩ = .ok ((), ⟨pos', r⟩) := by
  obtain ⟨pos₁, h₁⟩ := token_reads opening rfl rfl (body ++ '*' :: '/' :: r) pos
  obtain ⟨pos₂, h₂⟩ := commentEnd_reads h r pos₁
  exact ⟨pos₂, by simp only [comment, h₁, h₂]⟩

/-- A comment begins with a slash. -/
private theorem comment_fails {cs : List Char} (h : ahead cs ≠ some '/') (pos : Nat) :
    ∃ i, comment ⟨pos, cs⟩ = .error i := by
  obtain ⟨i, hi⟩ := token_fails (w := "/*") rfl rfl h pos
  exact ⟨i, by simp only [comment, hi]⟩

/-- A block begins with a brace. -/
private theorem embedded_fails {cs : List Char} (h : ahead cs ≠ some '{') (n pos : Nat) :
    ∃ i, embedded n ⟨pos, cs⟩ = ⟨[], .error i⟩ := by
  cases n with
  | zero => exact ⟨_, rfl⟩
  | succ n =>
    obtain ⟨i, hi⟩ := token_fails (w := "\x7b") rfl rfl h pos
    exact ⟨i, by simp only [embedded, hi]⟩

/-! ## Items -/

/-- No item begins in the text: it is at its end, or a block is closed. -/
def Ends (r : List Char) : Prop := ahead r = none ∨ ahead r = some '}'

private theorem ends_of_blanks {r : List Char} (h : Blanks r) : Ends r := by
  left
  rw [ahead, List.dropWhile_eq_nil_iff.mpr h]
  rfl

private theorem ends_of_closing {t : List Char} (h : Spells "\x7d" t) (r : List Char) :
    Ends (t ++ r) :=
  .inr (h.ahead_eq rfl rfl r)

theorem Ends.blanks {r b : List Char} (h : Ends r) (hb : Blanks b) : Ends (b ++ r) := by
  rw [Ends, ahead, dropWhile_blanks hb]
  exact h

/-- Where no item begins, none is read. -/
private theorem item_fails {r : List Char} (h : Ends r) (n pos : Nat) :
    ∃ i, item n ⟨pos, r⟩ = ⟨[], .error i⟩ := by
  cases n with
  | zero => exact ⟨_, rfl⟩
  | succ n =>
    -- what comes next is a brace that closes, or nothing
    have hahead : ∀ a, ahead r = some a → a = '}' := by
      rcases h with h | h <;> rw [h] <;> rintro _ ⟨⟩
      rfl
    have hne : ∀ {a}, a ≠ '}' → ahead r ≠ some a := fun ha har => ha (hahead _ har)
    obtain ⟨i, hi⟩ := line_fails (fun a ha => by rw [hahead a ha]; rfl) pos
    obtain ⟨j, hj⟩ := embedded_fails (hne (by decide)) n pos
    obtain ⟨k, hk⟩ := comment_fails (hne (by decide)) pos
    exact ⟨max (max i j) k, by simp only [item, hi, hj, hk]⟩

/-- An item, and the items after it. -/
private theorem items_of_item {n : Nat} {c c₁ c₂ : Cursor} {blocks more : List (List Line)}
    {s t : Script} (first : item n c = ⟨blocks, .ok (s, c₁)⟩) (rest : items n c₁ = (more, t, c₂)) :
    items (n + 1) c = (blocks ++ more, s.append t, c₂) := by
  simp only [items, first, rest]

/-- A block is its first item and the items after it. -/
private theorem proof_of_item {n : Nat} {c c₁ c₂ : Cursor} {blocks more : List (List Line)}
    {s t : Script} (first : item n c = ⟨blocks, .ok (s, c₁)⟩) (rest : items n c₁ = (more, t, c₂)) :
    proof (n + 1) c = ⟨blocks ++ more ++ [(s.append t).own], .ok (s.append t, c₂)⟩ := by
  simp only [proof, first, rest]

/-! ## Reading back -/

/-- The readers of blocks read the text `t`, with no item behind it, as the items of `s`: as items
    that stand in a block, and as a block of its own if there is a line in it. -/
structure ReadBack (s : Script) (t : List Char) : Prop where
  items : ∀ {n r}, Ends r → 3 * (t ++ r).length + 2 ≤ n → ∀ pos, ∃ pos' b, Blanks b ∧
    Grammar.items n ⟨pos, t ++ r⟩ = (s.nested, s, ⟨pos', b ++ r⟩)
  proof : s.own ≠ [] → ∀ {n r}, Ends r → 3 * (t ++ r).length + 2 ≤ n → ∀ pos, ∃ pos' b, Blanks b ∧
    Grammar.proof n ⟨pos, t ++ r⟩ = ⟨s.blocks, .ok (s, ⟨pos', b ++ r⟩)⟩

/-- At the end of a block nothing is read. -/
private theorem readBack_done {b : List Char} (hb : Blanks b) : ReadBack .done b where
  items := by
    intro n r hr hn pos
    obtain ⟨m, rfl⟩ : ∃ m, n = m + 1 := ⟨n - 1, by omega⟩
    obtain ⟨i, hi⟩ := item_fails (hr.blanks hb) m pos
    exact ⟨pos, b, hb, by simp only [Grammar.items, hi, Script.nested]⟩
  proof := fun hown => absurd rfl hown

/-- One more item in front: the first item is read with the fuel that is left for it, and takes at
    least one character, so that there is enough left for the others. -/
theorem ReadBack.cons {a s : Script} {u t : List Char} (hu : 0 < u.length)
    (first : ∀ {n r}, 3 * (u ++ r).length + 1 ≤ n → ∀ pos, ∃ pos',
      Grammar.item n ⟨pos, u ++ r⟩ = ⟨a.nested, .ok (a, ⟨pos', r⟩)⟩)
    (rest : ReadBack s t) : ReadBack (a.append s) (u ++ t) := by
  -- both readers take the first item and leave the others to the reader of items
  have hread : ∀ {m r}, Ends r → 3 * (u ++ t ++ r).length + 1 ≤ m → ∀ pos, ∃ pos₁ pos₂ b,
      Blanks b ∧ Grammar.item m ⟨pos, u ++ t ++ r⟩ = ⟨a.nested, .ok (a, ⟨pos₁, t ++ r⟩)⟩ ∧
        Grammar.items m ⟨pos₁, t ++ r⟩ = (s.nested, s, ⟨pos₂, b ++ r⟩) := by
    intro m r hr hm pos
    rw [List.append_assoc] at hm ⊢
    obtain ⟨pos₁, h₁⟩ := first (r := t ++ r) hm pos
    have hless : 3 * (t ++ r).length + 2 ≤ m := by
      rw [List.length_append] at hm
      omega
    obtain ⟨pos₂, b, hb, h₂⟩ := rest.items hr hless pos₁
    exact ⟨pos₁, pos₂, b, hb, h₁, h₂⟩
  refine ⟨fun {n r} hr hn pos => ?_, fun _ {n r} hr hn pos => ?_⟩
  · obtain ⟨m, rfl⟩ : ∃ m, n = m + 1 := ⟨n - 1, by omega⟩
    obtain ⟨pos₁, pos₂, b, hb, h₁, h₂⟩ := hread hr (Nat.le_of_succ_le_succ hn) pos
    exact ⟨pos₂, b, hb, by rw [items_of_item h₁ h₂, Script.nested_append]⟩
  · obtain ⟨m, rfl⟩ : ∃ m, n = m + 1 := ⟨n - 1, by omega⟩
    obtain ⟨pos₁, pos₂, b, hb, h₁, h₂⟩ := hread hr (Nat.le_of_succ_le_succ hn) pos
    exact ⟨pos₂, b, hb, by rw [proof_of_item h₁ h₂, Script.blocks, Script.nested_append]⟩

/-- A line is read as an item. -/
private theorem item_reads_line {l : Line} (hl : l.Writable) {t : List Char} (h : SpellsLine l t)
    {n : Nat} {r : List Char} (hn : 3 * (t ++ r).length + 1 ≤ n) (pos : Nat) :
    ∃ pos', item n ⟨pos, t ++ r⟩ = ⟨[], .ok (.line l .done, ⟨pos', r⟩)⟩ := by
  obtain ⟨m, rfl⟩ : ∃ m, n = m + 1 := ⟨n - 1, by omega⟩
  obtain ⟨pos₁, h₁⟩ := line_reads hl h r pos
  exact ⟨pos₁, by simp only [item, h₁]⟩

/-- A comment is read as an item without lines. -/
private theorem item_reads_comment {t body : List Char} (opening : Spells "/*" t)
    (h : Uninterrupted body) {n : Nat} {r : List Char}
    (hn : 3 * (t ++ body ++ ['*', '/'] ++ r).length + 1 ≤ n) (pos : Nat) :
    ∃ pos', item n ⟨pos, t ++ body ++ ['*', '/'] ++ r⟩ = ⟨[], .ok (.done, ⟨pos', r⟩)⟩ := by
  obtain ⟨m, rfl⟩ : ∃ m, n = m + 1 := ⟨n - 1, by omega⟩
  have hassoc : t ++ body ++ ['*', '/'] ++ r = t ++ (body ++ '*' :: '/' :: r) := by simp
  rw [hassoc]
  have hahead := opening.ahead_eq rfl rfl (body ++ '*' :: '/' :: r)
  -- neither a line nor a block begins as a comment does
  obtain ⟨i, hi⟩ := line_fails (by rw [hahead]; rintro _ ⟨⟩; rfl) pos
  obtain ⟨j, hj⟩ := embedded_fails (by rw [hahead]; decide) m pos
  obtain ⟨pos₁, h₁⟩ := comment_reads opening h r pos
  exact ⟨pos₁, by simp only [item, hi, hj, h₁]⟩

/-- A block in braces is read as an item, if there is a line in it. -/
private theorem item_reads_block {b : Script} {t₁ t₂ t₃ : List Char} (opening : Spells "\x7b" t₁)
    (inner : ReadBack b t₂) (hown : b.own ≠ []) (closing : Spells "\x7d" t₃) {n : Nat}
    {r : List Char} (hn : 3 * (t₁ ++ t₂ ++ t₃ ++ r).length + 1 ≤ n) (pos : Nat) :
    ∃ pos', item n ⟨pos, t₁ ++ t₂ ++ t₃ ++ r⟩ = ⟨b.blocks, .ok (.block b .done, ⟨pos', r⟩)⟩ := by
  have hlen := opening.length_pos rfl
  simp only [List.append_assoc, List.length_append] at hn ⊢
  obtain ⟨m, rfl⟩ : ∃ m, n = m + 2 := ⟨n - 2, by omega⟩
  have hahead := opening.ahead_eq rfl rfl (t₂ ++ (t₃ ++ r))
  obtain ⟨i, hi⟩ := line_fails (by rw [hahead]; rintro _ ⟨⟩; rfl) pos
  obtain ⟨pos₁, h₁⟩ := token_reads opening rfl rfl (t₂ ++ (t₃ ++ r)) pos
  obtain ⟨pos₂, d, hd, h₂⟩ := inner.proof hown (n := m) (ends_of_closing closing r)
    (by simp only [List.length_append]; omega) pos₁
  -- the blanks that the inner block has left over belong to the brace that closes it
  obtain ⟨pos₃, h₃⟩ := token_reads (closing.blanks hd) rfl rfl r pos₂
  rw [List.append_assoc] at h₃
  refine ⟨pos₃, ?_⟩
  simp only [item, hi, embedded, h₁, h₂, h₃]

end Grammar

namespace Script

private theorem mem_lines_line {l k : Line} {s : Script} :
    k ∈ (line l s).lines ↔ k = l ∨ k ∈ s.lines := by
  have hsingle : (line l done).lines = [l] := rfl
  have happend : line l s = (line l done).append s := rfl
  rw [happend, mem_lines_append, hsingle, List.mem_singleton]

/-- The lines of a block and those after it. -/
private theorem mem_lines_block {b s : Script} {k : Line} :
    k ∈ (block b s).lines ↔ k ∈ b.lines ∨ k ∈ s.lines := by
  have hsingle : (block b done).lines = b.lines := by
    simp [lines, blocks, nested, own]
  have happend : block b s = (block b done).append s := rfl
  rw [happend, mem_lines_append, hsingle]

end Script

namespace Grammar

/-- A line takes up space. -/
theorem SpellsLine.length_pos {l : Line} {t : List Char} (h : SpellsLine l t) : 0 < t.length := by
  cases h
  simp only [List.length_append, List.length_singleton]
  omega

/-- What is written is read back: each rule of writing adds one item in front. -/
theorem Writes.readBack {s : Script} {t : List Char} (h : Writes s t)
    (hlines : ∀ l ∈ s.lines, l.Writable) (hblocks : ∀ ls ∈ s.nested, ls ≠ []) : ReadBack s t := by
  induction h with
  | done blanks => exact readBack_done blanks
  | comment opening uninterrupted _ ih =>
    have hlen := opening.length_pos rfl
    -- a comment is an item without lines
    exact (ih hlines hblocks).cons (a := .done) (by simp only [List.length_append]; omega)
      (item_reads_comment opening uninterrupted)
  | @line l s _ _ first _ ih =>
    have hrest := ih (fun k hk => hlines k (Script.mem_lines_line.mpr (.inr hk))) hblocks
    have hl := hlines l (Script.mem_lines_line.mpr (.inl rfl))
    exact hrest.cons (a := .line l .done) first.length_pos (item_reads_line hl first)
  | @block b s _ _ _ _ opening _ closing _ ihb ihs =>
    simp only [Script.nested, List.mem_append, List.mem_cons] at hblocks
    have hinner := ihb (fun k hk => hlines k (Script.mem_lines_block.mpr (.inl hk)))
      fun ls hls => hblocks ls (.inl hls)
    have hrest := ihs (fun k hk => hlines k (Script.mem_lines_block.mpr (.inr hk)))
      fun ls hls => hblocks ls (.inr (.inr hls))
    -- a block is read as one only if it has a line of its own
    have hown : b.own ≠ [] := hblocks _ (.inr (.inl rfl))
    have hlen := opening.length_pos rfl
    exact hrest.cons (a := .block b .done) (by simp only [List.length_append]; omega)
      (item_reads_block opening hinner hown closing)

/-! ## Tabs -/

open Text

/-- Numbers, written in digits, hold no tabs. -/
theorem SpellsNumber.expandTabs {n : Int} (hn : 0 ≤ n) {s : List Char} (h : SpellsNumber n s)
    (column : Nat) : SpellsNumber n (expandTabsFrom column s) :=
  Spells.expandTabs h (fun htab => by cases isNumeral_of_mem_toString hn _ htab) column

/-- Tabs between cited numbers are expanded. -/
theorem SpellsCitations.expandTabs {ns : List Int} (hns : ∀ n ∈ ns, 0 ≤ n) {s : List Char}
    (h : SpellsCitations ns s) (column : Nat) : SpellsCitations ns (expandTabsFrom column s) := by
  cases h with
  | none => exact .none
  | some list =>
    exact .some (list.expandTabs (by decide) (fun n hn _ hs => hs.expandTabs (hns n hn)) column)

/-- Tabs between the tokens of a line are expanded. -/
theorem SpellsLine.expandTabs {l : Line} (hl : l.Writable) {t : List Char} (h : SpellsLine l t)
    (column : Nat) : SpellsLine l (expandTabsFrom column t) := by
  obtain @⟨s₁, s₂, s₃, s₄, s₅, number, formula, rule, cited, semicolon⟩ := h
  -- each part is expanded from the column in which it begins
  obtain ⟨column₁, h₁⟩ := exists_expandTabsFrom_append column s₁
  obtain ⟨column₂, h₂⟩ := exists_expandTabsFrom_append column₁ ['.']
  obtain ⟨column₃, h₃⟩ := exists_expandTabsFrom_append column₂ s₂
  obtain ⟨column₄, h₄⟩ := exists_expandTabsFrom_append column₃ s₃
  obtain ⟨column₅, h₅⟩ := exists_expandTabsFrom_append column₄ s₄
  have hdot : expandTabsFrom column₁ ['.'] = ['.'] := rfl
  have hrule : '\t' ∉ l.reason.rule.toList := fun htab => by cases hl.rule.2 _ htab
  simp only [List.append_assoc, h₁, h₂, h₃, h₄, h₅, hdot]
  simp only [← List.append_assoc]
  exact .mk (number.expandTabs hl.number column)
    (formula.expandTabs (tab_notMem_text hl.formula) column₂) (rule.expandTabs hrule column₃)
    (cited.expandTabs hl.cited column₄) (semicolon.expandTabs (by decide) column₅)

/-- Expanding tabs does not end a comment. -/
theorem Uninterrupted.expandTabs {body : List Char} (h : Uninterrupted body) (column : Nat) :
    Uninterrupted (expandTabsFrom column body) := by
  induction body generalizing column with
  | nil => exact h
  | cons c body ih =>
    rw [Uninterrupted, List.infix_cons_iff, not_or] at h
    by_cases htab : c = '\t'
    · subst htab
      obtain ⟨n, column', heq⟩ := expandTabsFrom_tab column body
      rw [heq]
      -- the sign cannot begin in the blanks that the tab becomes
      induction n + 1 with
      | zero => exact ih h.2 column'
      | succ n ihn =>
        rw [List.replicate_succ, List.cons_append, Uninterrupted, List.infix_cons_iff, not_or]
        refine ⟨fun hbegins => ?_, ihn⟩
        rw [List.cons_prefix_cons] at hbegins
        exact absurd hbegins.1 (by decide)
    · obtain ⟨column', heq⟩ := exists_expandTabsFrom_cons htab column
      rw [heq, Uninterrupted, List.infix_cons_iff, not_or]
      refine ⟨fun hbegins => h.1 ?_, ih h.2 column'⟩
      rw [List.cons_prefix_cons] at hbegins ⊢
      exact ⟨hbegins.1, prefix_of_expandTabsFrom (by decide) hbegins.2⟩

/-- A text whose tabs are expanded writes down the same script. -/
theorem Writes.expandTabs {s : Script} {t : List Char} (h : Writes s t)
    (hlines : ∀ l ∈ s.lines, l.Writable) (column : Nat) : Writes s (expandTabsFrom column t) := by
  induction h generalizing column with
  | done blanks => exact .done (blanks.expandTabs column)
  | @comment _ t₁ body t₂ opening uninterrupted _ ih =>
    obtain ⟨column₁, h₁⟩ := exists_expandTabsFrom_append column t₁
    obtain ⟨column₂, h₂⟩ := exists_expandTabsFrom_append column₁ body
    obtain ⟨column₃, h₃⟩ := exists_expandTabsFrom_append column₂ ['*', '/']
    -- there is no tab in the sign itself
    have hend : expandTabsFrom column₂ ['*', '/'] = ['*', '/'] := rfl
    simp only [List.append_assoc, h₁, h₂, h₃, hend]
    simp only [← List.append_assoc]
    exact .comment (opening.expandTabs (by decide) column) (uninterrupted.expandTabs column₁)
      (ih hlines column₃)
  | @line l s t₁ t₂ first _ ih =>
    obtain ⟨column₁, h₁⟩ := exists_expandTabsFrom_append column t₁
    have hl := hlines l (Script.mem_lines_line.mpr (.inl rfl))
    rw [h₁]
    exact .line (first.expandTabs hl column)
      (ih (fun k hk => hlines k (Script.mem_lines_line.mpr (.inr hk))) column₁)
  | @block b s t₁ t₂ t₃ t₄ opening _ closing _ ihb ihs =>
    obtain ⟨column₁, h₁⟩ := exists_expandTabsFrom_append column t₁
    obtain ⟨column₂, h₂⟩ := exists_expandTabsFrom_append column₁ t₂
    obtain ⟨column₃, h₃⟩ := exists_expandTabsFrom_append column₂ t₃
    simp only [List.append_assoc, h₁, h₂, h₃]
    simp only [← List.append_assoc]
    exact .block (opening.expandTabs (by decide) column)
      (ihb (fun k hk => hlines k (Script.mem_lines_block.mpr (.inl hk))) column₁)
      (closing.expandTabs (by decide) column₂)
      (ihs (fun k hk => hlines k (Script.mem_lines_block.mpr (.inr hk))) column₃)

/-! ## Whole texts -/

/-- A whole text is read as the script that it writes down. -/
theorem readProof_of_writes {s : Script} {text : String} (h : Writes s text.toList)
    (hlines : ∀ l ∈ s.lines, l.Writable) (hblocks : ∀ ls ∈ s.blocks, ls ≠ []) :
    readProof text = ⟨s.blocks, .ok s⟩ := by
  have hnested : ∀ ls ∈ s.nested, ls ≠ [] := fun ls hls =>
    hblocks ls (List.mem_append_left _ hls)
  have hown : s.own ≠ [] := hblocks _ (List.mem_append_right _ List.mem_cons_self)
  have hback : ReadBack s (expandTabs text.toList) :=
    (h.expandTabs hlines 0).readBack hlines hnested
  obtain ⟨pos, b, hb, hread⟩ := hback.proof hown
    (n := 3 * (expandTabs text.toList).length + 3) (ends_of_blanks blanks_nil)
    (by rw [List.append_nil]; omega) 0
  rw [List.append_nil, List.append_nil] at hread
  have hend : atEnd ⟨pos, b⟩ = .ok () := atEnd_eq_ok.mpr hb
  simp only [readProof, Cursor.start, hread, hend]

end Grammar

end Sequitur
