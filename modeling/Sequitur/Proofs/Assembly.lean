import Mathlib.Data.List.Induction
import Sequitur.Proof.Context
import Sequitur.Proofs.Tables

/-!
# Contexts made of blocks

What is true of a context before it is checked, after any number of blocks have been added to an
empty one.  `Assembled` holds whether or not line numbers repeat.  When they are pairwise different,
no line hides another: then `Laid` says which lines stand at which places.
-/

namespace Sequitur

/-! ## Adding a block -/

/-- A line about which nothing is known yet. -/
def Record.fresh (l : Line) : Record := { line := l }

/-- The numbers of lines that stand at consecutive places, with these places. -/
def placed : LineId → List Line → List (Int × LineId)
  | _, [] => []
  | k, l :: ls => (l.number, k) :: placed (k + 1) ls

/-- The numbers that stand with the places are those of the lines. -/
theorem map_fst_placed (k : LineId) (ls : List Line) :
    (placed k ls).map Prod.fst = ls.map Line.number := by
  induction ls generalizing k with
  | nil => rfl
  | cons l ls ih => rw [placed, List.map_cons, List.map_cons, ih]

/-- The places of a second list follow those of the first. -/
theorem placed_append (k : LineId) (as bs : List Line) :
    placed k (as ++ bs) = placed k as ++ placed (k + as.length) bs := by
  induction as generalizing k with
  | nil => rfl
  | cons a as ih =>
    rw [List.cons_append, placed, placed, ih, List.cons_append, List.length_cons, Nat.add_assoc,
      Nat.add_comm 1]

/-- The places end where the lines do. -/
theorem lt_of_mem_placed {k : LineId} {ls : List Line} {e : Int × LineId} (h : e ∈ placed k ls) :
    e.2 < k + ls.length := by
  induction ls generalizing k with
  | nil => cases h
  | cons l ls ih =>
    rw [List.length_cons, Nat.add_comm ls.length, ← Nat.add_assoc]
    cases h with
    | head => exact Nat.lt_add_right _ (Nat.lt_succ_self k)
    | tail _ h => exact ih h

namespace Context

/-- New lines are put behind the old ones, and their places are told. -/
private theorem newLines_eq (ctx : Context) (ls : List Line) :
    ctx.newLines (ls.map fun l => (l, {})) =
      ({ ctx with records := ctx.records ++ ls.map Record.fresh },
        placed ctx.records.length ls) := by
  induction ls generalizing ctx with
  | nil => simp [newLines, placed]
  | cons l ls ih =>
    have hnew : ctx.newLine l {} =
        ({ ctx with records := ctx.records ++ [Record.fresh l] }, ctx.records.length) := rfl
    simp only [List.map_cons, newLines, hnew, ih, placed, List.append_assoc, List.singleton_append,
      List.length_append, List.length_singleton]

/-- The block that is made of given lines at the next places. -/
def nextBlock (ctx : Context) (ls : List Line) : Block := ⟨.ofList (placed ctx.records.length ls)⟩

/-- What adding a block changes. -/
theorem addBlock_eq (ctx : Context) (ls : List Line) :
    (ctx.addBlock ls).1 =
      { ctx with
        records := ctx.records ++ ls.map Record.fresh
        blocks := ctx.blocks ++ [ctx.nextBlock ls]
        lines := ctx.lines.putAll (ctx.nextBlock ls).members
        registered :=
          ctx.registered.put (sortNumbers (ctx.nextBlock ls).members.keys) ctx.blocks.length
        main := some ctx.blocks.length } := by
  simp only [addBlock, addBlockWith, newBlock, newLines_eq, register, block, nextBlock,
    List.getD_eq_getElem?_getD, List.getElem?_concat_length, Option.getD_some]

/-- Blocks are added from the first to the last. -/
theorem addBlocks_concat (ctx : Context) (bs : List (List Line)) (ls : List Line) :
    ctx.addBlocks (bs ++ [ls]) = ((ctx.addBlocks bs).addBlock ls).1 := by
  simp only [addBlocks, List.foldl_append, List.foldl_cons, List.foldl_nil]

/-! ## Whatever the line numbers are -/

/-- A context that was made by adding blocks and has not been checked. -/
structure Assembled (ctx : Context) : Prop where
  lines_nodup : ctx.lines.keys.Nodup
  registered_nodup : ctx.registered.keys.Nodup
  line_lt : ∀ {e}, e ∈ ctx.lines.entries → e.2 < ctx.records.length
  key_eq : ∀ {key b}, (key, b) ∈ ctx.registered.entries →
    b < ctx.blocks.length ∧ key = sortNumbers (ctx.block b).members.keys
  unexamined : ∀ id, (ctx.record id).argument = none
  untyped : ctx.types = {}

/-- The empty context is made of no blocks. -/
theorem assembled_empty (standing : Bindings) : ({ standing := standing } : Context).Assembled where
  lines_nodup := List.nodup_nil
  registered_nodup := List.nodup_nil
  line_lt h := by cases h
  key_eq h := by cases h
  unexamined _ := rfl
  untyped := rfl

/-- A context stays assembled when a block is added. -/
theorem Assembled.addBlock {ctx : Context} (h : ctx.Assembled) (ls : List Line) :
    (ctx.addBlock ls).1.Assembled := by
  rw [addBlock_eq]
  refine ⟨Table.nodup_putAll h.lines_nodup _, Table.nodup_put h.registered_nodup _ _, ?_, ?_, ?_,
    h.untyped⟩
  · intro e he
    rw [List.length_append, List.length_map]
    -- a number stands for a line of the new block or for an older one
    rcases Table.mem_entries_putAll he with he | he
    · exact lt_of_mem_placed (Table.mem_of_mem_ofList he)
    · exact Nat.lt_add_right _ (h.line_lt he)
  · intro key b hmem
    rcases Table.mem_entries_put hmem with heq | hmem
    · -- the new block is registered under its own numbers
      cases heq
      simp [block, nextBlock]
    · -- an older block keeps its place
      obtain ⟨hlt, hkey⟩ := h.key_eq hmem
      simp only [List.length_append, block, List.getD_eq_getElem?_getD,
        List.getElem?_append_left hlt] at hkey ⊢
      exact ⟨Nat.lt_add_right _ hlt, hkey⟩
  · intro id
    simp only [record, List.getD_eq_getElem?_getD, List.getElem?_append, List.getElem?_map]
    -- the line was there already, or it is one of the new block
    split
    · simpa [record, List.getD_eq_getElem?_getD] using h.unexamined id
    · cases ls[id - ctx.records.length]? <;> rfl

/-- Every context that blocks are added to, starting from the empty one, is assembled. -/
theorem assembled_addBlocks (standing : Bindings) (bs : List (List Line)) :
    (({ standing := standing } : Context).addBlocks bs).Assembled := by
  induction bs using List.reverseRecOn with
  | nil => exact assembled_empty standing
  | append_singleton bs ls ih =>
    rw [addBlocks_concat]
    exact ih.addBlock ls

/-! ## When no number repeats -/

/-- A context in which the lines of the blocks `bs` stand at consecutive places, each block holding
    its own. -/
structure Laid (ctx : Context) (bs : List (List Line)) : Prop where
  records : ctx.records = bs.flatten.map Record.fresh
  lines : ctx.lines.entries = placed 0 bs.flatten
  blocks_length : ctx.blocks.length = bs.length
  members : ∀ {b : Nat} {ls : List Line}, bs[b]? = some ls →
    ∃ before after, bs.flatten = before ++ ls ++ after ∧
      (ctx.block b).members.entries = placed before.length ls
  main : bs ≠ [] → ctx.main = some (bs.length - 1)

/-- Nothing stands in the empty context. -/
private theorem laid_empty (standing : Bindings) :
    ({ standing := standing } : Context).Laid [] where
  records := rfl
  lines := rfl
  blocks_length := rfl
  members h := by simp at h
  main h := absurd rfl h

/-- A block with new numbers is put behind what is there. -/
theorem Laid.addBlock {ctx : Context} {bs : List (List Line)} (h : ctx.Laid bs) {ls : List Line}
    (hn : ((bs ++ [ls]).flatten.map Line.number).Nodup) :
    (ctx.addBlock ls).1.Laid (bs ++ [ls]) := by
  have hflat : (bs ++ [ls]).flatten = bs.flatten ++ ls := by simp
  have hlen : ctx.records.length = bs.flatten.length := by rw [h.records, List.length_map]
  rw [hflat, List.map_append, List.nodup_append] at hn
  have hnext : (ctx.nextBlock ls).members.entries = placed bs.flatten.length ls := by
    rw [nextBlock, hlen]
    exact Table.entries_ofList (by rw [map_fst_placed]; exact hn.2.1)
  rw [addBlock_eq]
  refine ⟨by rw [hflat, h.records, List.map_append], ?_, ?_, ?_, ?_⟩
  · have hkeys : (ctx.nextBlock ls).members.keys = ls.map Line.number := by
      rw [Table.keys, hnext, map_fst_placed]
    have hold : ctx.lines.keys = bs.flatten.map Line.number := by
      rw [Table.keys, h.lines, map_fst_placed]
    -- all numbers of the new block are new, so its lines come last
    rw [Table.entries_putAll_of_disjoint, hnext, h.lines, hflat, placed_append, Nat.zero_add]
    · rw [hkeys]; exact hn.2.1
    · rw [hkeys, hold]; exact fun n hn₁ hn₂ => hn.2.2 n hn₁ n hn₂ rfl
  · simp [h.blocks_length]
  · intro b ls' hb
    by_cases hlt : b < bs.length
    · -- an older block is where it was, with more lines after it
      rw [List.getElem?_append_left hlt] at hb
      obtain ⟨before, after, hsplit, hmem⟩ := h.members hb
      refine ⟨before, after ++ ls, by rw [hflat, hsplit, List.append_assoc], ?_⟩
      rw [← hmem, block, block, List.getD_eq_getElem?_getD, List.getD_eq_getElem?_getD,
        List.getElem?_append_left (by rw [h.blocks_length]; exact hlt)]
    · -- the new block is the last one
      have hlast : b = bs.length := by
        have := (List.getElem?_eq_some_iff.mp hb).1
        simp only [List.length_append, List.length_singleton] at this
        omega
      subst hlast
      have hls : ls = ls' := by simpa using hb
      subst hls
      refine ⟨bs.flatten, [], by simp, ?_⟩
      simp [block, ← h.blocks_length, hnext]
  · intro _
    simp [h.blocks_length]

/-- Blocks in which no number repeats stand one behind the other. -/
theorem laid_addBlocks (standing : Bindings) {bs : List (List Line)}
    (hn : (bs.flatten.map Line.number).Nodup) :
    (({ standing := standing } : Context).addBlocks bs).Laid bs := by
  induction bs using List.reverseRecOn with
  | nil => exact laid_empty standing
  | append_singleton bs ls ih =>
    rw [addBlocks_concat]
    refine (ih ?_).addBlock hn
    rw [List.flatten_append, List.map_append, List.nodup_append] at hn
    exact hn.1

namespace Laid

variable {ctx : Context} {bs : List (List Line)}

/-- Places from the end of `before` on hold the lines `ls`. -/
private theorem record_placed (h : ctx.Laid bs) {before ls after : List Line}
    (hsplit : bs.flatten = before ++ ls ++ after) :
    (placed before.length ls).map (fun e => (ctx.record e.2).line) = ls := by
  induction ls generalizing before with
  | nil => rfl
  | cons l ls ih =>
    have hfirst : (ctx.record before.length).line = l := by
      simp [record, h.records, hsplit, Record.fresh]
    -- the line counts to what is before from now on, so that the places shift by one
    have hnext : bs.flatten = (before ++ [l]) ++ ls ++ after := by simpa using hsplit
    have hrest := ih hnext
    rw [List.length_append, List.length_singleton] at hrest
    rw [placed, List.map_cons, hfirst, hrest]

/-- A block holds its own lines. -/
theorem blockLines_eq (h : ctx.Laid bs) {b : BlockId} {ls : List Line} (hb : bs[b]? = some ls) :
    ctx.blockLines b = ls := by
  obtain ⟨before, after, hsplit, hmem⟩ := h.members hb
  rw [blockLines, Table.values, hmem, List.map_map]
  exact h.record_placed hsplit

/-- The main block is the last one. -/
theorem blockLines_main (h : ctx.Laid (bs ++ [ls])) {b : BlockId} (hb : ctx.main = some b) :
    ctx.blockLines b = ls := by
  have hmain := h.main (by simp)
  rw [hb] at hmain
  cases hmain
  exact h.blockLines_eq (by simp)

/-- Every line of a block is one of the lines. -/
theorem mem_flatten_of_mem_blockLines (h : ctx.Laid bs) {b : BlockId} (hb : b < ctx.blocks.length)
    {l : Line} (hl : l ∈ ctx.blockLines b) : l ∈ bs.flatten := by
  rw [h.blocks_length] at hb
  rw [h.blockLines_eq (List.getElem?_eq_getElem hb)] at hl
  exact List.mem_flatten_of_mem (List.getElem_mem hb) hl

/-- The keys of a block are the numbers of its lines. -/
theorem keys_members (h : ctx.Laid bs) {b : BlockId} (hb : b < ctx.blocks.length) :
    (ctx.block b).members.keys = (ctx.blockLines b).map Line.number := by
  rw [h.blocks_length] at hb
  have hget := List.getElem?_eq_getElem hb
  obtain ⟨before, after, -, hmem⟩ := h.members hget
  rw [h.blockLines_eq hget, Table.keys, hmem, map_fst_placed]

/-- The lines at the places from the end of `before` on bear the numbers that stand with them. -/
private theorem number_placed (h : ctx.Laid bs) {before ls after : List Line}
    (hsplit : bs.flatten = before ++ ls ++ after) :
    ∀ e ∈ placed before.length ls, (ctx.record e.2).line.number = e.1 := by
  -- read the numbers off both sides of the equation between the lines
  have hnumbers := congrArg (List.map Line.number) (h.record_placed hsplit)
  rw [List.map_map, ← map_fst_placed before.length] at hnumbers
  exact List.map_inj_left.mp hnumbers

/-- A number stands for one of the lines, which bears it. -/
theorem line_of_mem_entries (h : ctx.Laid bs) {n : Int} {id : LineId}
    (hmem : (n, id) ∈ ctx.lines.entries) :
    (ctx.record id).line ∈ bs.flatten ∧ (ctx.record id).line.number = n := by
  rw [h.lines] at hmem
  have hsplit : bs.flatten = [] ++ bs.flatten ++ [] := by simp
  refine ⟨?_, h.number_placed hsplit _ hmem⟩
  rw [← h.record_placed hsplit]
  exact List.mem_map_of_mem hmem

/-- Every line is what its number stands for. -/
theorem exists_mem_entries (h : ctx.Laid bs) {l : Line} (hl : l ∈ bs.flatten) :
    ∃ id, (l.number, id) ∈ ctx.lines.entries ∧ (ctx.record id).line = l := by
  have hsplit : bs.flatten = [] ++ bs.flatten ++ [] := by simp
  rw [← h.record_placed hsplit] at hl
  obtain ⟨⟨n, id⟩, hmem, rfl⟩ := List.mem_map.mp hl
  have hnumber := h.number_placed hsplit _ hmem
  refine ⟨id, ?_, rfl⟩
  rw [h.lines, hnumber]
  exact hmem

/-- What a block holds under a number is what the number stands for. -/
theorem mem_entries_of_mem_members (h : ctx.Laid bs) {b : BlockId} (hb : b < ctx.blocks.length)
    {e : Int × LineId} (he : e ∈ (ctx.block b).members.entries) : e ∈ ctx.lines.entries := by
  rw [h.blocks_length] at hb
  obtain ⟨before, after, hsplit, hmem⟩ := h.members (List.getElem?_eq_getElem hb)
  rw [h.lines, hsplit, placed_append, placed_append, Nat.zero_add]
  rw [hmem] at he
  exact List.mem_append_left _ (List.mem_append_right _ he)

end Laid

end Context

end Sequitur
