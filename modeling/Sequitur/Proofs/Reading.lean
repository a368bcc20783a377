import Sequitur.Grammar.Proof
import Sequitur.Proofs.Printable
import Sequitur.Proofs.Script

/-!
# What is read from the text of a proof

A reading carries the blocks completed on the way beside the script of what was read.  When the
whole text is read the two agree: the blocks are those of the script, in the order of completion.

In between they need not agree.  A nested block that is not closed leaves its inner blocks behind
although it is no item, and the items before it are read all the same.  The reader then stands
before the brace that opened the block, so that neither the end of the text nor a closing brace can
follow: the reading fails as a whole.  `ReadsBlocks` keeps track of that.
-/

namespace Sequitur.Grammar

/-! ## Tokens at one place -/

/-- What a token starts with is the next character after the blanks. -/
private theorem rest_of_token {w : String} {a : Char} {as : List Char} (hw : w.toList = a :: as)
    {c : Cursor} {r : Unit × Cursor} (h : token w c = .ok r) :
    ∃ cs, c.skipBlanks.rest = a :: cs := by
  simp only [token, exactly, hw] at h
  split at h
  · rename_i cs hdrop
    cases hrest : c.skipBlanks.rest with
    | nil => simp [hrest, dropWord] at hdrop
    | cons b bs =>
      rw [hrest, dropWord] at hdrop
      split at hdrop
      · rename_i hab
        exact ⟨bs, hab ▸ rfl⟩
      · cases hdrop
  · cases h

/-- A block opens at the cursor. -/
def Opens (c : Cursor) : Prop := ∃ r, token "\x7b" c = .ok r

/-- The next character after the blanks is a brace. -/
theorem Opens.rest {c : Cursor} (h : Opens c) : ∃ cs, c.skipBlanks.rest = '{' :: cs :=
  h.elim fun _ hr => rest_of_token rfl hr

/-- Where a block opens, none is closed. -/
private theorem Opens.not_close {c : Cursor} (h : Opens c) {r : Unit × Cursor} :
    token "\x7d" c ≠ .ok r := by
  intro hr
  obtain ⟨_, h₁⟩ := h.rest
  obtain ⟨_, h₂⟩ := rest_of_token (a := '}') rfl hr
  -- two braces at one place
  rw [h₁] at h₂
  simp at h₂

/-- Where a block opens, there is no comment. -/
private theorem Opens.not_comment {c : Cursor} (h : Opens c) {r : Unit × Cursor} :
    comment c ≠ .ok r := by
  intro hr
  simp only [comment] at hr
  split at hr
  · cases hr
  · rename_i _ _ htoken
    obtain ⟨_, h₁⟩ := h.rest
    obtain ⟨_, h₂⟩ := rest_of_token (a := '/') rfl htoken
    rw [h₁] at h₂
    simp at h₂

/-- Where a block opens, the text goes on. -/
private theorem Opens.not_atEnd {c : Cursor} (h : Opens c) : atEnd c ≠ .ok () := by
  obtain ⟨cs, hrest⟩ := h.rest
  intro hend
  simp only [atEnd] at hend
  split at hend
  · rename_i hnil
    simp [hnil] at hrest
  · cases hend

/-- A line is read with a printable formula. -/
private theorem printable_line {c c' : Cursor} {l : Line} (h : line c = .ok (l, c')) :
    l.formula.Printable := by
  obtain ⟨_, _, _, h⟩ := andThen_eq_ok.mp h
  obtain ⟨f, _, hf, h⟩ := andThen_eq_ok.mp h
  obtain ⟨_, _, _, h⟩ := andThen_eq_ok.mp h
  obtain ⟨_, _, _, h⟩ := andThen_eq_ok.mp h
  cases h
  exact printable_formula hf

/-! ## Readings -/

/-- A script of printable lines. -/
def Legible (s : Script) : Prop := ∀ l ∈ s.lines, l.formula.Printable

/-- The empty script has no lines. -/
private theorem legible_done : Legible .done := fun _ hl => by
  simp [Script.lines, Script.blocks, Script.nested, Script.own] at hl

/-- A line by itself. -/
private theorem legible_line {l : Line} (h : l.formula.Printable) : Legible (.line l .done) :=
  fun _ hk => by simp_all [Script.lines, Script.blocks, Script.nested, Script.own]

/-- A block is legible if its inside is. -/
theorem Legible.block {s : Script} (h : Legible s) : Legible (.block s .done) :=
  fun l hl => h l (by simpa [Script.lines, Script.blocks, Script.nested, Script.own] using hl)

/-- Legible scripts one after the other. -/
theorem Legible.append {s t : Script} (hs : Legible s) (ht : Legible t) : Legible (s.append t) :=
  fun l hl => (Script.mem_lines_append.mp hl).elim (hs l) (ht l)

/-- What the readers of blocks with a given amount of fuel guarantee. -/
structure ReadsBlocks (n : Nat) : Prop where
  item : ∀ {c s c'}, (Grammar.item n c).result = .ok (s, c') →
    (Grammar.item n c).blocks = s.nested ∧ Legible s
  item_error : ∀ {c i}, (Grammar.item n c).result = .error i →
    (Grammar.item n c).blocks = [] ∨ Opens c
  embedded : ∀ {c s c'}, (Grammar.embedded n c).result = .ok (s, c') →
    (Grammar.embedded n c).blocks = s.nested ∧ Legible s
  embedded_blocks : ∀ c, (Grammar.embedded n c).blocks = [] ∨ Opens c
  items : ∀ {c blocks s c'}, Grammar.items n c = (blocks, s, c') →
    (blocks = s.nested ∨ Opens c') ∧ Legible s
  proof : ∀ {c s c'}, (Grammar.proof n c).result = .ok (s, c') →
    ((Grammar.proof n c).blocks = s.blocks ∨ Opens c') ∧ Legible s

namespace ReadsBlocks

variable {n : Nat} {c c' : Cursor} {s : Script}

/-- An item that is read, at one more unit of fuel. -/
private theorem item_succ (ih : ReadsBlocks n) (h : (Grammar.item (n + 1) c).result = .ok (s, c')) :
    (Grammar.item (n + 1) c).blocks = s.nested ∧ Legible s := by
  rw [Grammar.item] at h ⊢
  split at h
  · -- a line completes no block
    rename_i l c₁ hline
    cases h
    exact ⟨rfl, legible_line (printable_line hline)⟩
  · simp only at h ⊢
    split at h
    · exact ih.embedded h
    · split at h
      · -- a comment: no block can have been opened here
        rename_i hcomment
        cases h
        have hnone := (ih.embedded_blocks c).resolve_right fun hopen => hopen.not_comment hcomment
        exact ⟨hnone, legible_done⟩
      · cases h

/-- Where no item is read no block was completed, unless one was begun there. -/
private theorem item_error_succ (ih : ReadsBlocks n) {i : Nat}
    (h : (Grammar.item (n + 1) c).result = .error i) :
    (Grammar.item (n + 1) c).blocks = [] ∨ Opens c := by
  rw [Grammar.item] at h ⊢
  split at h
  · cases h
  · simp only at h ⊢
    split at h
    · rename_i hok
      rw [hok] at h
      cases h
    · split at h
      · cases h
      · exact ih.embedded_blocks c

/-- A block that is read, at one more unit of fuel. -/
private theorem embedded_succ (ih : ReadsBlocks n)
    (h : (Grammar.embedded (n + 1) c).result = .ok (s, c')) :
    (Grammar.embedded (n + 1) c).blocks = s.nested ∧ Legible s := by
  rw [Grammar.embedded] at h ⊢
  split at h
  · cases h
  · simp only at h ⊢
    split at h
    · cases h
    · rename_i t c₂ hproof
      split at h
      · cases h
      · rename_i hclose
        cases h
        obtain ⟨hblocks, hlegible⟩ := ih.proof hproof
        -- the brace that closes the block shows that no block was left open inside
        have hblocks := hblocks.resolve_right fun hopen => hopen.not_close hclose
        refine ⟨?_, hlegible.block⟩
        simp only [hblocks, Script.blocks, Script.nested]

/-- Nothing is completed where no block opens. -/
private theorem embedded_blocks_succ : (Grammar.embedded (n + 1) c).blocks = [] ∨ Opens c := by
  rw [Grammar.embedded]
  split
  · exact .inl rfl
  · rename_i hopen
    exact .inr ⟨_, hopen⟩

/-- The items of a block, at one more unit of fuel. -/
private theorem items_succ (ih : ReadsBlocks n) {blocks : List (List Line)}
    (h : Grammar.items (n + 1) c = (blocks, s, c')) :
    (blocks = s.nested ∨ Opens c') ∧ Legible s := by
  rw [Grammar.items] at h
  simp only at h
  split at h
  · -- the items end where none can be read; a block may have been begun there
    rename_i i hitem
    cases h
    exact ⟨ih.item_error hitem, legible_done⟩
  · rename_i t c₁ hitem
    rcases hmore : Grammar.items n c₁ with ⟨blocks₂, more, c₂⟩
    rw [hmore] at h
    cases h
    obtain ⟨hfirst, hfirstLegible⟩ := ih.item hitem
    obtain ⟨hrest, hrestLegible⟩ := ih.items hmore
    refine ⟨hrest.imp_left fun hrest => ?_, hfirstLegible.append hrestLegible⟩
    rw [hfirst, hrest, Script.nested_append]

/-- A script that is read, at one more unit of fuel. -/
private theorem proof_succ (ih : ReadsBlocks n)
    (h : (Grammar.proof (n + 1) c).result = .ok (s, c')) :
    ((Grammar.proof (n + 1) c).blocks = s.blocks ∨ Opens c') ∧ Legible s := by
  rw [Grammar.proof] at h ⊢
  simp only at h ⊢
  split at h
  · cases h
  · rename_i t c₁ hitem
    rcases hmore : Grammar.items n c₁ with ⟨blocks₂, more, c₂⟩
    simp only [hmore] at h ⊢
    cases h
    obtain ⟨hfirst, hfirstLegible⟩ := ih.item hitem
    obtain ⟨hrest, hrestLegible⟩ := ih.items hmore
    refine ⟨hrest.imp_left fun hrest => ?_, hfirstLegible.append hrestLegible⟩
    rw [hfirst, hrest, Script.blocks, Script.nested_append]

end ReadsBlocks

/-- The readers of blocks keep blocks and scripts together at every amount of fuel. -/
private theorem readsBlocks (n : Nat) : ReadsBlocks n := by
  induction n with
  | zero =>
    -- without fuel nothing is read and nothing completed
    refine ⟨?_, fun _ => .inl rfl, ?_, fun _ => .inl rfl, ?_, ?_⟩
    · intro c s c' h
      cases h
    · intro c s c' h
      cases h
    · intro c blocks s c' h
      cases h
      exact ⟨.inl rfl, legible_done⟩
    · intro c s c' h
      cases h
  | succ n ih =>
    exact ⟨ih.item_succ, ih.item_error_succ, ih.embedded_succ,
      fun _ => ReadsBlocks.embedded_blocks_succ, ih.items_succ, ih.proof_succ⟩

/-- When a whole text is read, the blocks completed are those of its script, and all formulas are
    printable. -/
theorem readProof_spec {text : String} {s : Script} (h : (readProof text).result = .ok s) :
    (readProof text).blocks = s.blocks ∧ Legible s := by
  simp only [readProof] at h ⊢
  split at h
  · cases h
  · rename_i t c hproof
    split at h
    · cases h
    · rename_i hend
      cases h
      obtain ⟨hblocks, hlegible⟩ := (readsBlocks _).proof hproof
      -- at the end of the text no block can have been begun
      exact ⟨hblocks.resolve_right fun hopen => hopen.not_atEnd hend, hlegible⟩

end Sequitur.Grammar
