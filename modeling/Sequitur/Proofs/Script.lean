import Mathlib.Data.List.Infix
import Mathlib.Tactic.Tauto
import Sequitur.Proof.Script

/-!
# The blocks of a script

A script is a tree of blocks.  Reading it off in the order in which the blocks are completed gives
the list of their own lines (`Script.blocks`), which is all that a context is made of.  The tree
itself is kept by `Script.worlds`: each block, in the same order, with the blocks that enclose it.

A world is what a line may look at: the lines of its own block and of the enclosing ones.
-/

namespace Sequitur

/-- A block with the blocks that enclose it, from the inside out. -/
structure World where
  block : Script
  enclosing : List Script
  deriving DecidableEq, Repr, Inhabited

namespace World

/-- The block and the blocks that enclose it. -/
def blocks (w : World) : List Script := w.block :: w.enclosing

/-- The lines of the block and of the blocks that enclose it. -/
def visible (w : World) : List Line := w.blocks.flatMap Script.own

end World

namespace Script

/-! ## Lines and blocks -/

/-- The own lines of the blocks nested in a block, inner before outer. -/
def nested : Script → List (List Line)
  | done => []
  | line _ s => s.nested
  | block b s => b.nested ++ b.own :: s.nested

/-- The own lines of all blocks, inner before outer. -/
def blocks (s : Script) : List (List Line) := s.nested ++ [s.own]

/-- All lines, block by block. -/
def lines (s : Script) : List Line := s.blocks.flatten

/-- The numbers of all lines. -/
def numbers (s : Script) : List Int := s.lines.map Line.number

/-- The blocks nested directly in a block. -/
def children : Script → List Script
  | done => []
  | line _ s => s.children
  | block b s => b :: s.children

@[simp] theorem own_append (s t : Script) : (s.append t).own = s.own ++ t.own := by
  induction s with
  | done => rfl
  | line l s ih => simp only [append, own, ih, List.cons_append]
  | block b s _ ih => simp only [append, own, ih]

@[simp] theorem nested_append (s t : Script) : (s.append t).nested = s.nested ++ t.nested := by
  induction s with
  | done => rfl
  | line l s ih => simp only [append, nested, ih]
  | block b s _ ih => simp only [append, nested, ih, List.append_assoc, List.cons_append]

theorem mem_lines_append {s t : Script} {l : Line} :
    l ∈ (s.append t).lines ↔ l ∈ s.lines ∨ l ∈ t.lines := by
  simp only [lines, blocks, nested_append, own_append, List.flatten_append, List.flatten_cons,
    List.flatten_nil, List.append_nil, List.mem_append]
  tauto

/-! ## Worlds -/

/-- The worlds of the blocks nested in a block, where `enclosing` are this block and those around
    it. -/
def nestedWorlds (enclosing : List Script) : Script → List World
  | done => []
  | line _ s => s.nestedWorlds enclosing
  | block b s => b.nestedWorlds (b :: enclosing) ++ ⟨b, enclosing⟩ :: s.nestedWorlds enclosing

/-- The worlds of all blocks, inner before outer. -/
def worlds (s : Script) : List World := s.nestedWorlds [s] ++ [⟨s, []⟩]

private theorem map_own_nestedWorlds (s : Script) (enclosing : List Script) :
    (s.nestedWorlds enclosing).map (fun w => w.block.own) = s.nested := by
  induction s generalizing enclosing with
  | done => rfl
  | line l s ih => exact ih enclosing
  | block b s ihb ihs =>
    simp only [nestedWorlds, nested, List.map_append, List.map_cons, ihb, ihs]

/-- The worlds are the worlds of the blocks, in the same order. -/
private theorem map_own_worlds (s : Script) : s.worlds.map (fun w => w.block.own) = s.blocks := by
  simp only [worlds, blocks, List.map_append, map_own_nestedWorlds, List.map_cons, List.map_nil]

theorem own_mem_blocks {s : Script} {w : World} (hw : w ∈ s.worlds) : w.block.own ∈ s.blocks := by
  rw [← map_own_worlds]
  exact List.mem_map_of_mem hw

/-- Every line stands in the block of some world, and every line of such a block is one of the
    script. -/
theorem mem_lines_iff {s : Script} {l : Line} : l ∈ s.lines ↔ ∃ w ∈ s.worlds, l ∈ w.block.own := by
  simp only [lines, ← map_own_worlds, List.mem_flatten, List.mem_map, exists_exists_and_eq_and]

theorem whole_mem_worlds (s : Script) : ⟨s, []⟩ ∈ s.worlds := by
  simp [worlds]

private theorem mem_nestedWorlds_of_mem_children {s c : Script} (hc : c ∈ s.children)
    (enclosing : List Script) : ⟨c, enclosing⟩ ∈ s.nestedWorlds enclosing := by
  induction s with
  | done => cases hc
  | line l s ih => exact ih hc
  | block b s _ ih =>
    rw [nestedWorlds, List.mem_append, List.mem_cons]
    cases hc with
    | head => exact .inr (.inl rfl)
    | tail _ hc => exact .inr (.inr (ih hc))

private theorem child_mem_nestedWorlds {s c : Script} {w : World} {enclosing : List Script}
    (hw : w ∈ s.nestedWorlds enclosing) (hc : c ∈ w.block.children) :
    ⟨c, w.blocks⟩ ∈ s.nestedWorlds enclosing := by
  induction s generalizing enclosing with
  | done => cases hw
  | line l s ih => exact ih hw
  | block b s ihb ihs =>
    rw [nestedWorlds, List.mem_append, List.mem_cons] at hw ⊢
    -- the world is inside `b`, that of `b`, or among the items after `b`
    rcases hw with hw | rfl | hw
    · exact .inl (ihb hw)
    · exact .inl (mem_nestedWorlds_of_mem_children hc _)
    · exact .inr (.inr (ihs hw))

/-- A block nested directly in the block of a world has a world of its own, one step further in. -/
theorem child_mem_worlds {s c : Script} {w : World} (hw : w ∈ s.worlds)
    (hc : c ∈ w.block.children) : ⟨c, w.blocks⟩ ∈ s.worlds := by
  rw [worlds, List.mem_append, List.mem_singleton] at hw ⊢
  rcases hw with hw | rfl
  · exact .inl (child_mem_nestedWorlds hw hc)
  · exact .inl (mem_nestedWorlds_of_mem_children hc _)

private theorem outer_mem_nestedWorlds {s c : Script} {cs enclosing : List Script} {w : World}
    (hw : w ∈ s.nestedWorlds enclosing) (hc : c :: cs <:+ w.blocks) :
    c :: cs <:+ enclosing ∨ ⟨c, cs⟩ ∈ s.nestedWorlds enclosing := by
  induction s generalizing enclosing with
  | done => cases hw
  | line l s ih => exact ih hw
  | block b s ihb ihs =>
    rw [nestedWorlds, List.mem_append, List.mem_cons] at hw ⊢
    -- a chain of blocks that ends as that of `b` begins with `b` or lies outside
    have hown : c :: cs <:+ b :: enclosing →
        c :: cs <:+ enclosing ∨ (⟨c, cs⟩ : World) = ⟨b, enclosing⟩ := by
      intro h
      rcases List.suffix_cons_iff.mp h with h | h
      · cases h; exact .inr rfl
      · exact .inl h
    rcases hw with hw | rfl | hw
    · rcases ihb hw with h | h
      · exact (hown h).imp_right fun h => .inr (.inl h)
      · exact .inr (.inl h)
    · exact (hown hc).imp_right fun h => .inr (.inl h)
    · exact (ihs hw).imp_right fun h => .inr (.inr h)

/-- Each block of a world has a world of its own, made of the blocks from there outwards. -/
private theorem outer_mem_worlds {s c : Script} {cs : List Script} {w : World} (hw : w ∈ s.worlds)
    (hc : c :: cs <:+ w.blocks) : ⟨c, cs⟩ ∈ s.worlds := by
  have hwhole : c :: cs <:+ [s] → ⟨c, cs⟩ ∈ s.worlds := by
    intro h
    rcases List.suffix_cons_iff.mp h with h | h
    · cases h; exact s.whole_mem_worlds
    · simp at h
  rw [worlds, List.mem_append, List.mem_singleton] at hw
  rcases hw with hw | rfl
  · rcases outer_mem_nestedWorlds hw hc with h | h
    · exact hwhole h
    · exact List.mem_append_left _ h
  · exact hwhole hc

/-- The world of a block that a given world can see. -/
theorem exists_outer_world {s c : Script} {w : World} (hw : w ∈ s.worlds) (hc : c ∈ w.blocks) :
    ∃ cs, ⟨c, cs⟩ ∈ s.worlds ∧ c :: cs <:+ w.blocks := by
  obtain ⟨inner, cs, hsplit⟩ := List.append_of_mem hc
  have hsuffix : c :: cs <:+ w.blocks := ⟨inner, hsplit.symm⟩
  exact ⟨cs, outer_mem_worlds hw hsuffix, hsuffix⟩

/-- What a world can see are lines of the script. -/
theorem mem_lines_of_mem_visible {s : Script} {w : World} (hw : w ∈ s.worlds) {l : Line}
    (hl : l ∈ w.visible) : l ∈ s.lines := by
  obtain ⟨c, hc, hl⟩ := List.mem_flatMap.mp hl
  obtain ⟨cs, hcs, -⟩ := exists_outer_world hw hc
  exact mem_lines_iff.mpr ⟨_, hcs, hl⟩

end Script

end Sequitur
