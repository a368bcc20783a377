import Mathlib.Data.List.TakeWhile
import Sequitur.Proofs.Derivation
import Sequitur.Text.Tabs

/-!
# Expanding tabs

How many blanks a tab becomes depends on the column in which it stands, so a text is expanded from
its beginning to its end.  Nothing else depends on the column: a text is expanded piece by piece
(`exists_expandTabsFrom_append`), and what is no tab stays as it is.  So a row of blanks stays one,
and a token keeps its characters and has other blanks before it.

What is derived does not depend on how long the rows of blanks are.  Two texts that differ in that
alone are `Respaced`.  A derivation is carried over token by token: each token is found again at the
front of the other text, and what follows it is respaced (`Derives.kept`).

## Key results

- `respaced_expandTabsFrom`: expanding tabs changes rows of blanks alone
- `Derives.kept`: a text is derived with the same formulas after that
-/

namespace Sequitur

namespace Text

/-- A tab becomes at least one blank. -/
theorem expandTabsFrom_tab (column : Nat) (s : List Char) :
    ∃ n column', expandTabsFrom column ('\t' :: s) =
      List.replicate (n + 1) ' ' ++ expandTabsFrom column' s := by
  have hpos : 0 < tabWidth - column % tabWidth := by
    simp only [tabWidth]
    omega
  refine ⟨tabWidth - column % tabWidth - 1, column + (tabWidth - column % tabWidth), ?_⟩
  rw [Nat.sub_add_cancel hpos]
  rfl

/-- A character other than a tab stays, and what follows starts in some other column. -/
theorem exists_expandTabsFrom_cons {c : Char} (h : c ≠ '\t') (column : Nat) :
    ∃ column', ∀ s, expandTabsFrom column (c :: s) = c :: expandTabsFrom column' s := by
  by_cases hbreak : c = '\n' ∨ c = '\r'
  · exact ⟨0, fun s => by simp only [expandTabsFrom, if_neg h, if_pos hbreak]⟩
  · exact ⟨column + 1, fun s => by simp only [expandTabsFrom, if_neg h, if_neg hbreak]⟩

/-- A text is expanded piece by piece. -/
theorem exists_expandTabsFrom_append (column : Nat) (s : List Char) :
    ∃ column', ∀ r, expandTabsFrom column (s ++ r) =
      expandTabsFrom column s ++ expandTabsFrom column' r := by
  induction s generalizing column with
  | nil => exact ⟨column, fun r => rfl⟩
  | cons c s ih =>
    by_cases htab : c = '\t'
    · obtain ⟨column', h⟩ := ih (column + (tabWidth - column % tabWidth))
      exact ⟨column', fun r => by
        simp only [List.cons_append, expandTabsFrom, if_pos htab, h, List.append_assoc]⟩
    · obtain ⟨column₁, h₁⟩ := exists_expandTabsFrom_cons htab column
      obtain ⟨column₂, h₂⟩ := ih column₁
      exact ⟨column₂, fun r => by rw [List.cons_append, h₁, h₁, h₂, List.cons_append]⟩

/-- Expanding tabs brings in spaces and nothing else. -/
private theorem mem_expandTabsFrom {column : Nat} {s : List Char} {c : Char}
    (h : c ∈ expandTabsFrom column s) : c = ' ' ∨ c ∈ s := by
  induction s generalizing column with
  | nil => cases h
  | cons d s ih =>
    rw [List.mem_cons]
    by_cases htab : d = '\t'
    · subst htab
      obtain ⟨n, column', heq⟩ := expandTabsFrom_tab column s
      rw [heq, List.mem_append] at h
      rcases h with h | h
      · exact .inl (List.eq_of_mem_replicate h)
      · exact (ih h).imp_right .inr
    · obtain ⟨column', heq⟩ := exists_expandTabsFrom_cons htab column
      rw [heq, List.mem_cons] at h
      rcases h with h | h
      · exact .inr (.inl h)
      · exact (ih h).imp_right .inr

/-- What a text begins with after expanding tabs, it begins with before, blanks apart. -/
theorem prefix_of_expandTabsFrom {a : Char} (ha : a ≠ ' ') {column : Nat} {s : List Char}
    (h : [a] <+: expandTabsFrom column s) : [a] <+: s := by
  cases s with
  | nil => exact h
  | cons c s =>
    by_cases htab : c = '\t'
    · subst htab
      obtain ⟨n, column', heq⟩ := expandTabsFrom_tab column s
      rw [heq, List.replicate_succ, List.cons_append, List.cons_prefix_cons] at h
      exact absurd h.1 ha
    · obtain ⟨column', heq⟩ := exists_expandTabsFrom_cons htab column
      rw [heq, List.cons_prefix_cons] at h
      exact List.cons_prefix_cons.mpr ⟨h.1, List.nil_prefix⟩

end Text

namespace Grammar

open Text

/-- A row of blanks stays one. -/
theorem Blanks.expandTabs {b : List Char} (h : Blanks b) (column : Nat) :
    Blanks (expandTabsFrom column b) := by
  intro c hc
  rcases mem_expandTabsFrom hc with rfl | hc
  · rfl
  · exact h c hc

/-- A token without tabs is still spelled. -/
theorem Spells.expandTabs {w : String} {s : List Char} (h : Spells w s) (hw : '\t' ∉ w.toList)
    (column : Nat) : Spells w (expandTabsFrom column s) := by
  obtain ⟨b, hb, rfl⟩ := h
  obtain ⟨column', happend⟩ := exists_expandTabsFrom_append column b
  -- only the blanks before the token can change
  exact ⟨_, hb.expandTabs column, by rw [happend, expandTabsFrom_of_not_mem _ _ hw]⟩

section Chains

variable {α : Type} {item : α → List Char → Prop} {w : String}

/-- A row of items stays one, if its items do. -/
theorem Tail.expandTabs {as : List α} {s : List Char} (h : Tail item w as s) (hw : '\t' ∉ w.toList)
    (hitem : ∀ a ∈ as, ∀ {s}, item a s → ∀ column, item a (expandTabsFrom column s))
    (column : Nat) : Tail item w as (expandTabsFrom column s) := by
  induction h generalizing column with
  | nil => exact .nil
  | @cons a as t s u sign first _ ih =>
    obtain ⟨column₁, h₁⟩ := exists_expandTabsFrom_append column t
    obtain ⟨column₂, h₂⟩ := exists_expandTabsFrom_append column₁ s
    -- each piece is expanded from the column in which it begins
    have hsplit : expandTabsFrom column (t ++ s ++ u) =
        expandTabsFrom column t ++ expandTabsFrom column₁ s ++ expandTabsFrom column₂ u := by
      rw [List.append_assoc, h₁, h₂, List.append_assoc]
    rw [hsplit]
    exact .cons (sign.expandTabs hw column) (hitem a List.mem_cons_self first column₁)
      (ih (fun b hb => hitem b (List.mem_cons_of_mem _ hb)) column₂)

/-- A chain stays one, if its items do. -/
theorem Chain.expandTabs {a : α} {as : List α} {s : List Char} (h : Chain item w a as s)
    (hw : '\t' ∉ w.toList)
    (hitem : ∀ b ∈ a :: as, ∀ {s}, item b s → ∀ column, item b (expandTabsFrom column s))
    (column : Nat) : Chain item w a as (expandTabsFrom column s) := by
  obtain ⟨s₁, s₂, first, rest, rfl⟩ := h
  obtain ⟨column₁, h₁⟩ := exists_expandTabsFrom_append column s₁
  exact ⟨_, _, hitem a List.mem_cons_self first column,
    rest.expandTabs hw (fun b hb => hitem b (List.mem_cons_of_mem _ hb)) column₁, h₁ s₂⟩

end Chains

/-! ## Rows of blanks -/

/-- The texts differ in the lengths and the characters of their rows of blanks only. -/
inductive Respaced : List Char → List Char → Prop
  | nil : Respaced [] []
  | solid {c : Char} {s t : List Char} (notBlank : isBlank c = false) (rest : Respaced s t) :
      Respaced (c :: s) (c :: t)
  | blanks {b b' s t : List Char} (left : Blanks b) (right : Blanks b') (some : b ≠ [])
      (some' : b' ≠ []) (rest : Respaced s t) : Respaced (b ++ s) (b' ++ t)

theorem Respaced.symm {s t : List Char} (h : Respaced s t) : Respaced t s := by
  induction h with
  | nil => exact .nil
  | solid notBlank _ ih => exact .solid notBlank ih
  | blanks left right some some' _ ih => exact .blanks right left some' some ih

/-- A tab becomes a row of blanks, and all else stays. -/
theorem respaced_expandTabsFrom (column : Nat) (s : List Char) :
    Respaced s (expandTabsFrom column s) := by
  induction s generalizing column with
  | nil => exact .nil
  | cons c s ih =>
    by_cases htab : c = '\t'
    · subst htab
      obtain ⟨n, column', heq⟩ := expandTabsFrom_tab column s
      -- a tab is a row of one blank, which becomes a longer one
      rw [heq]
      have htabs : Blanks ['\t'] := by simp [Blanks, isBlank]
      have hspaces : Blanks (List.replicate (n + 1) ' ') := fun c hc => by
        rw [List.eq_of_mem_replicate hc]
        rfl
      exact .blanks htabs hspaces (by simp) (by simp) (ih column')
    · obtain ⟨column', heq⟩ := exists_expandTabsFrom_cons htab column
      rw [heq]
      cases hblank : isBlank c with
      | false => exact .solid hblank (ih column')
      | true =>
        -- any other blank is a row by itself
        have hrow : Blanks [c] := fun d hd => by rwa [List.mem_singleton.mp hd]
        exact .blanks hrow hrow (by simp) (by simp) (ih column')

/-- Behind the blanks in front, the texts still differ in their rows of blanks only. -/
theorem Respaced.dropWhile {s t : List Char} (h : Respaced s t) :
    Respaced (s.dropWhile isBlank) (t.dropWhile isBlank) := by
  induction h with
  | nil => exact .nil
  | solid notBlank rest _ =>
    rw [List.dropWhile_cons_of_neg (by simp [notBlank]),
      List.dropWhile_cons_of_neg (by simp [notBlank])]
    exact .solid notBlank rest
  | blanks left right _ _ _ ih =>
    rwa [List.dropWhile_append_of_pos left, List.dropWhile_append_of_pos right]

/-- Characters that are no blanks are at the front of both texts. -/
private theorem Respaced.exists_append {w r t : List Char} (hw : ∀ c ∈ w, isBlank c = false)
    (h : Respaced (w ++ r) t) : ∃ t', t = w ++ t' ∧ Respaced r t' := by
  induction w generalizing t with
  | nil => exact ⟨t, rfl, h⟩
  | cons a w ih =>
    have ha := hw a List.mem_cons_self
    generalize hs : a :: w ++ r = s at h
    cases h with
    | nil => cases hs
    | solid notBlank rest =>
      cases hs
      obtain ⟨t', rfl, h'⟩ := ih (fun c hc => hw c (List.mem_cons_of_mem _ hc)) rest
      exact ⟨t', rfl, h'⟩
    | blanks left right some some' rest =>
      -- a row of blanks cannot begin with `a`
      obtain ⟨c, b, rfl⟩ := List.exists_cons_of_ne_nil some
      obtain ⟨rfl, -⟩ := List.cons.inj hs
      rw [left a List.mem_cons_self] at ha
      cases ha

/-- Blanks may be any blanks. -/
theorem Blanks.respaced {s t : List Char} (h : Blanks s) (hst : Respaced s t) : Blanks t := by
  have hrest := hst.dropWhile
  rw [List.dropWhile_eq_nil_iff.mpr h] at hrest
  -- nothing is left behind the blanks, so nothing is left of the other text either
  generalize hend : t.dropWhile isBlank = u at hrest
  generalize hnil : ([] : List Char) = v at hrest
  cases hrest with
  | nil => exact List.dropWhile_eq_nil_iff.mp hend
  | solid => cases hnil
  | blanks _ _ some => exact absurd (List.append_eq_nil_iff.mp hnil.symm).1 some

/-- Where the blanks around the text `s` change, a text of kind `P` is found in its place. -/
def Kept (P : List Char → Prop) (s : List Char) : Prop :=
  ∀ r t, Respaced (s ++ r) t → ∃ s' t', t = s' ++ t' ∧ P s' ∧ Respaced r t'

/-- A text of kind `P` and behind it one of kind `Q`. -/
def Joined (P Q : List Char → Prop) (u : List Char) : Prop := ∃ s t, P s ∧ Q t ∧ u = s ++ t

namespace Kept

variable {P Q : List Char → Prop} {s t : List Char}

theorem imp (h : Kept P s) (hPQ : ∀ {u}, P u → Q u) : Kept Q s := by
  intro r t hst
  obtain ⟨s', t', rfl, hs', hrest⟩ := h r t hst
  exact ⟨s', t', rfl, hPQ hs', hrest⟩

/-- What stands one after the other is found one after the other. -/
theorem append (hs : Kept P s) (ht : Kept Q t) : Kept (Joined P Q) (s ++ t) := by
  intro r u hu
  rw [List.append_assoc] at hu
  obtain ⟨s', _, rfl, hs', hrest⟩ := hs _ _ hu
  obtain ⟨t', u', rfl, ht', hrest⟩ := ht _ _ hrest
  exact ⟨s' ++ t', u', (List.append_assoc _ _ _).symm, ⟨s', t', hs', ht', rfl⟩, hrest⟩

end Kept

/-- Whether a text is a single word: there is something in it, and no blank. -/
def isSolid (w : String) : Bool := !w.toList.isEmpty && w.toList.all fun c => !isBlank c

private theorem isSolid_iff {w : String} :
    isSolid w ↔ w.toList ≠ [] ∧ ∀ c ∈ w.toList, isBlank c = false := by
  simp [isSolid]

/-- A single word is found again where the blanks around it change. -/
theorem Spells.kept {w : String} (hsolid : isSolid w) {s : List Char} (h : Spells w s) :
    Kept (Spells w) s := by
  obtain ⟨hne, hw⟩ := isSolid_iff.mp hsolid
  obtain ⟨b, hb, rfl⟩ := h
  intro r t hst
  have hdrop : (b ++ w.toList ++ r).dropWhile isBlank = w.toList ++ r := by
    obtain ⟨a, as, has⟩ := List.exists_cons_of_ne_nil hne
    rw [List.append_assoc, List.dropWhile_append_of_pos hb, has, List.cons_append,
      List.dropWhile_cons_of_neg (by simp [hw a (by simp [has])])]
  -- behind their first row of blanks both texts go on with the token
  have hrest := hst.dropWhile
  rw [hdrop] at hrest
  obtain ⟨t', ht', hrest⟩ := Respaced.exists_append hw hrest
  refine ⟨t.takeWhile isBlank ++ w.toList, t', ?_, ⟨_, blanks_takeWhile t, rfl⟩, hrest⟩
  rw [List.append_assoc, ← ht', List.takeWhile_append_dropWhile]

/-- So is a name. -/
theorem SpellsName.kept {x : String} {s : List Char} (h : SpellsName x s) :
    Kept (SpellsName x) s := by
  have hletters : ∀ c ∈ x.toList, isBlank c = false := fun c hc => isBlank_of_isLetter (h.1.2 c hc)
  exact (h.2.kept (isSolid_iff.mpr ⟨h.1.1, hletters⟩)).imp fun hs => ⟨h.1, hs⟩

/-- So is a row of names, each after its sign. -/
private theorem Tail.kept {xs : List String} {s : List Char} (h : Tail SpellsName "," xs s) :
    Kept (Tail SpellsName "," xs) s := by
  induction h with
  | nil => exact fun r t hst => ⟨[], t, rfl, .nil, hst⟩
  | cons sign first _ ih =>
    refine (((sign.kept rfl).append first.kept).append ih).imp ?_
    rintro _ ⟨_, u, ⟨t, s, sign, first, rfl⟩, rest, rfl⟩
    exact .cons sign first rest

/-- Two operands and the sign between them. -/
private theorem kept_operands {P Q R : List Char → Prop} {w : String} {s₁ s₂ s₃ : List Char}
    (left : Kept P s₁) (sign : Kept (Spells w) s₂) (right : Kept Q s₃)
    (hR : ∀ {t₁ t₂ t₃}, P t₁ → Spells w t₂ → Q t₃ → R (t₁ ++ t₂ ++ t₃)) :
    Kept R (s₁ ++ s₂ ++ s₃) := by
  refine ((left.append sign).append right).imp ?_
  rintro _ ⟨_, _, ⟨_, _, left, sign, rfl⟩, right, rfl⟩
  exact hR left sign right

/-- A keyword, a name, a comma and what is quantified. -/
private theorem kept_quantified {P R : List Char → Prop} {w v : String}
    {s₁ s₂ s₃ s₄ : List Char} (keyword : Kept (Spells w) s₁) (bound : SpellsName v s₂)
    (comma : Spells "," s₃) (body : Kept P s₄)
    (hR : ∀ {t₁ t₂ t₃ t₄}, Spells w t₁ → SpellsName v t₂ → Spells "," t₃ → P t₄ →
      R (t₁ ++ t₂ ++ t₃ ++ t₄)) : Kept R (s₁ ++ s₂ ++ s₃ ++ s₄) := by
  refine (((keyword.append bound.kept).append
    (comma.kept rfl)).append body).imp ?_
  rintro _ ⟨_, _, ⟨_, _, ⟨_, _, keyword, bound, rfl⟩, comma, rfl⟩, body, rfl⟩
  exact hR keyword bound comma body

/-- A text that is derived with a formula is found again where blanks change. -/
theorem Derives.kept {L : Level} {f : Formula} {s : List Char} (h : Derives L f s) :
    Kept (Derives L f) s := by
  -- each rule puts together what is found for its parts
  induction h with
  | predicate symbol opening args closing =>
    obtain ⟨s₃, s₄, first, rest, rfl⟩ := args
    refine (((symbol.kept.append (opening.kept rfl)).append
      (first.kept.append rest.kept)).append (closing.kept rfl)).imp ?_
    rintro _ ⟨_, _, ⟨_, _, ⟨_, _, symbol, opening, rfl⟩, args, rfl⟩, closing, rfl⟩
    exact .predicate symbol opening args closing
  | @letter a s capital spelled =>
    have hsolid : ∀ c ∈ (String.ofList [a]).toList, isBlank c = false := by
      intro c hc
      rw [String.toList_ofList, List.mem_singleton] at hc
      rw [hc]
      exact isBlank_of_isLetter (isLetter_of_isCapital capital)
    exact (spelled.kept (isSolid_iff.mpr ⟨by simp, hsolid⟩)).imp (.letter capital)
  | parens opening _ closing ih =>
    refine (((opening.kept rfl).append ih).append
      (closing.kept rfl)).imp ?_
    rintro _ ⟨_, _, ⟨_, _, opening, inner, rfl⟩, closing, rfl⟩
    exact .parens opening inner closing
  | neg sign _ ih =>
    refine ((sign.kept rfl).append ih).imp ?_
    rintro _ ⟨_, _, sign, inner, rfl⟩
    exact .neg sign inner
  | ofProp _ ih => exact ih.imp .ofProp
  | ofConj _ ih => exact ih.imp .ofConj
  | ofDisj _ ih => exact ih.imp .ofDisj
  | ofImp _ ih => exact ih.imp .ofImp
  | conj _ sign _ ihleft ihright =>
    exact kept_operands ihleft (sign.kept rfl) ihright .conj
  | disj _ sign _ ihleft ihright =>
    exact kept_operands ihleft (sign.kept rfl) ihright .disj
  | imp _ sign _ ihleft ihright =>
    exact kept_operands ihleft (sign.kept rfl) ihright .imp
  | ex keyword bound comma _ ih =>
    exact kept_quantified (keyword.kept rfl) bound comma ih .ex
  | all keyword bound comma _ ih =>
    exact kept_quantified (keyword.kept rfl) bound comma ih .all

end Grammar

end Sequitur
