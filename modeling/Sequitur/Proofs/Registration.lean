import Sequitur.Proofs.Assembly
import Sequitur.Proofs.Writing
import Sequitur.Report

/-!
# What the text of a proof puts into a context

A text that writes down a script is read once, and each block is added when it is complete.  If
every block has a line of its own and no number repeats, the blocks have different numbers and none
takes the place of another, so that the context holds the whole script: each block under its own
numbers, in the order of completion, and each line under its number.

`Script.source` is the plainest text of a script; `Writes` has all the others, with comments and
with other blanks.

## Key results

- `writes_source`: every script has a text
- `registered_addBlocks`: no block takes the place of another
- `lines_addBlocks`: no line takes the place of another
- `Script.registers_of_writes`: a new context holds what a text writes down
-/

namespace Sequitur

/-! ## Source texts -/

/-- A line as it is written in a proof. -/
def Line.source (l : Line) : String :=
  toString l.number ++ ". " ++ l.formula.text ++ " " ++ l.reason.rule ++ " " ++
    Text.commas (l.reason.citations.map toString) ++ ";"

/-- A script as it is written in a proof, item by item. -/
def Script.source : Script → String
  | done => ""
  | line l s => l.source ++ "\n" ++ s.source
  | block b s => "\x7b\n" ++ b.source ++ "\x7d\n" ++ s.source

namespace Grammar

/-- A line break by itself is made of blanks. -/
private theorem blanks_newline : Blanks ['\n'] := fun c h => by
  rw [List.mem_singleton.mp h]
  rfl

/-- Blanks may stand before citations, if there are any. -/
theorem SpellsCitations.blanks {ns : List Int} {s b : List Char} (h : SpellsCitations ns s)
    (hb : Blanks b) (hne : ns ≠ []) : SpellsCitations ns (b ++ s) := by
  cases h with
  | none => exact absurd rfl hne
  | some list =>
    obtain ⟨s₁, s₂, hfirst, hrest, rfl⟩ := list
    exact .some ⟨b ++ s₁, s₂, hfirst.blanks hb, hrest, (List.append_assoc _ _ _).symm⟩

/-- Citations are written with commas. -/
private theorem spellsCitations_commas (ns : List Int) :
    SpellsCitations ns (Text.commas (ns.map toString)).toList := by
  cases ns with
  | nil => exact .none
  | cons n ns =>
    exact .some (chain_commas (fun h => h.blanks blanks_space) fun m _ => spells_toList _)

/-- A line is spelled as it is written in a proof. -/
private theorem spellsLine_source (l : Line) : SpellsLine l l.source.toList := by
  have hformula : Spells l.formula.text ([' '] ++ l.formula.text.toList) :=
    (spells_toList _).blanks blanks_space
  have hrule : Spells l.reason.rule ([' '] ++ l.reason.rule.toList) :=
    (spells_toList _).blanks blanks_space
  have hcited := spellsCitations_commas l.reason.citations
  by_cases hne : l.reason.citations = []
  · -- nothing is cited, and the blank after the rule belongs to the semicolon
    have hnone : Text.commas (l.reason.citations.map toString) = "" := by rw [hne]; rfl
    rw [hnone] at hcited
    have hline := SpellsLine.mk (spells_toList _) hformula hrule hcited
      ((spells_toList ";").blanks blanks_space)
    simpa [Line.source, hnone] using hline
  · have hline := SpellsLine.mk (spells_toList _) hformula hrule (hcited.blanks blanks_space hne)
      (spells_toList ";")
    simpa [Line.source] using hline

/-- Blanks may stand before a line. -/
theorem SpellsLine.blanks {l : Line} {s b : List Char} (h : SpellsLine l s) (hb : Blanks b) :
    SpellsLine l (b ++ s) := by
  obtain ⟨number, formula, rule, cited, semicolon⟩ := h
  simpa only [List.append_assoc] using
    SpellsLine.mk (Spells.blanks number hb) formula rule cited semicolon

/-- Blanks may stand before the first item. -/
theorem Writes.blanks {s : Script} {t b : List Char} (h : Writes s t) (hb : Blanks b) :
    Writes s (b ++ t) := by
  cases h with
  | done blanks => exact .done (hb.append blanks)
  | comment opening uninterrupted rest =>
    simpa only [List.append_assoc] using Writes.comment (opening.blanks hb) uninterrupted rest
  | line first rest =>
    simpa only [List.append_assoc] using Writes.line (first.blanks hb) rest
  | block opening inner closing rest =>
    simpa only [List.append_assoc] using Writes.block (opening.blanks hb) inner closing rest

/-- The source text of a script writes it down. -/
theorem writes_source (s : Script) : Writes s s.source.toList := by
  induction s with
  | done => exact .done blanks_nil
  | line l s ih =>
    have hitem := Writes.line (spellsLine_source l) (ih.blanks blanks_newline)
    simpa [Script.source] using hitem
  | block b s ihb ihs =>
    have hitem := Writes.block (spells_toList "\x7b") (ihb.blanks blanks_newline)
      (spells_toList "\x7d") (ihs.blanks blanks_newline)
    simpa [Script.source] using hitem

end Grammar

namespace Context

/-! ## What is registered -/

/-- A new block has its lines at the next places, if no two of them bear the same number. -/
private theorem entries_nextBlock (ctx : Context) {ls : List Line}
    (hn : (ls.map Line.number).Nodup) :
    (ctx.nextBlock ls).members.entries = placed ctx.records.length ls :=
  Table.entries_ofList (by rwa [map_fst_placed])

/-- Each block is registered under its own numbers, in the order in which blocks were added. -/
theorem registered_addBlocks (standing : Bindings) {bs : List (List Line)}
    (hne : ∀ ls ∈ bs, ls ≠ []) (hn : (bs.flatten.map Line.number).Nodup) :
    (({ standing := standing } : Context).addBlocks bs).registered.entries =
      bs.zipIdx.map fun e => (sortNumbers (e.1.map Line.number), e.2) := by
  induction bs using List.reverseRecOn with
  | nil => rfl
  | append_singleton bs ls ih =>
    rw [List.flatten_concat, List.map_append, List.nodup_append] at hn
    obtain ⟨hold, hnew, hdisjoint⟩ := hn
    have ih := ih (fun ks hks => hne ks (List.mem_append_left _ hks)) hold
    have hlength := (laid_addBlocks standing hold).blocks_length
    -- the key of the new block
    have hkeys : (nextBlock (({ standing := standing } : Context).addBlocks bs) ls).members.keys =
        ls.map Line.number := by
      rw [Table.keys, entries_nextBlock _ hnew, map_fst_placed]
    rw [addBlocks_concat, addBlock_eq, hkeys, hlength, Table.entries_put_of_notMem, ih,
      List.zipIdx_append, List.map_append]
    · simp
    · -- an older block with the same numbers would have the first number of the new one
      intro hmem
      rw [Table.keys, ih, List.map_map, List.mem_map] at hmem
      obtain ⟨⟨ks, b⟩, hks, hkey⟩ := hmem
      have hks : ks ∈ bs := List.mem_of_getElem? (List.mem_zipIdx_iff_getElem?.mp hks)
      have hls : ls ≠ [] := hne ls (by simp)
      obtain ⟨l, hl⟩ := List.exists_mem_of_ne_nil ls hls
      have hmem : l.number ∈ ks.map Line.number :=
        (perm_of_sortNumbers_eq hkey).mem_iff.mpr (List.mem_map_of_mem hl)
      obtain ⟨k, hk, hnumber⟩ := List.mem_map.mp hmem
      exact hdisjoint k.number (List.mem_map_of_mem (List.mem_flatten_of_mem hks hk)) l.number
        (List.mem_map_of_mem hl) hnumber

/-- Numbers are those under which a block is registered when they are those of its lines, in any
    order. -/
theorem get?_registered_addBlocks (standing : Bindings) {bs : List (List Line)}
    (hne : ∀ ls ∈ bs, ls ≠ []) (hn : (bs.flatten.map Line.number).Nodup) {ns : List Int}
    {b : BlockId} :
    (({ standing := standing } : Context).addBlocks bs).registered.get? (sortNumbers ns) = some b ↔
      ∃ ls, bs[b]? = some ls ∧ ns.Perm (ls.map Line.number) := by
  have hentries := registered_addBlocks standing hne hn
  have hnodup := (assembled_addBlocks standing bs).registered_nodup
  -- a key is the sorted numbers of its block, and sorting forgets their order
  have hmem : ∀ key, (key, b) ∈ (({ standing := standing } : Context).addBlocks
      bs).registered.entries ↔ ∃ ls, bs[b]? = some ls ∧ key = sortNumbers (ls.map Line.number) := by
    intro key
    simp [hentries, List.mem_zipIdx_iff_getElem?, eq_comm]
  constructor
  · intro hget
    obtain ⟨ls, hls, hkey⟩ := (hmem _).mp (Table.mem_of_get? hget)
    exact ⟨ls, hls, sortNumbers_eq_iff.mp hkey⟩
  · rintro ⟨ls, hls, hperm⟩
    exact Table.get?_of_mem hnodup ((hmem _).mpr ⟨ls, hls, sortNumbers_eq_iff.mpr hperm⟩)

/-- The lines are those of all the blocks. -/
theorem lines_addBlocks (standing : Bindings) {bs : List (List Line)}
    (hn : (bs.flatten.map Line.number).Nodup) :
    (({ standing := standing } : Context).addBlocks bs).lines.entries =
      (({ standing := standing } : Context).addBlocks bs).blocks.flatMap fun block =>
        block.members.entries := by
  induction bs using List.reverseRecOn with
  | nil => rfl
  | append_singleton bs ls ih =>
    have hlines := (laid_addBlocks standing hn).lines
    rw [List.flatten_concat, List.map_append, List.nodup_append] at hn
    have hold := laid_addBlocks standing hn.1
    -- the new lines are placed behind those of the older blocks
    have hlength : (({ standing := standing } : Context).addBlocks bs).records.length =
        bs.flatten.length := by
      rw [hold.records, List.length_map]
    rw [hlines, addBlocks_concat, addBlock_eq, List.flatMap_append, ← ih hn.1, hold.lines,
      List.flatten_concat, placed_append, List.flatMap_singleton, entries_nextBlock _ hn.2.1,
      hlength, Nat.zero_add]

/-- The blocks by their places are all the blocks. -/
private theorem map_block_range (ctx : Context) :
    (List.range ctx.blocks.length).map ctx.block = ctx.blocks := by
  apply List.ext_getElem
  · simp
  · intro i hi hi'
    simp [block, List.getElem?_eq_getElem hi']

/-- If no number repeats in all the blocks, none repeats in one of them. -/
private theorem nodup_numbers_of_mem {bs : List (List Line)}
    (hn : (bs.flatten.map Line.number).Nodup) {ls : List Line} (hls : ls ∈ bs) :
    (ls.map Line.number).Nodup :=
  hn.sublist ((List.sublist_flatten_of_mem hls).map Line.number)

/-- The context holds the whole script `s` and nothing else. -/
structure Registers (ctx : Context) (s : Script) : Prop where
  /-- The registered blocks are those of the script, in the order of completion, each under its
      sorted numbers and with its own lines. -/
  blocks : ctx.registered.entries.map (fun e => (e.1, ctx.blockLines e.2)) =
    s.blocks.map fun ls => (sortNumbers (ls.map Line.number), ls)
  /-- The numbers that a block is registered under are those of its lines, in increasing order. -/
  keys : ∀ e ∈ ctx.registered.entries, e.1.Pairwise (· < ·) ∧
    e.1.Perm ((ctx.blockLines e.2).map Line.number)
  /-- No block is registered twice. -/
  distinct : ctx.registered.values.Nodup
  /-- A registered block has its lines under their numbers. -/
  members : ∀ b ∈ ctx.registered.values,
    (ctx.block b).members.keys = (ctx.blockLines b).map Line.number
  /-- The lines are those of the registered blocks. -/
  lines : ctx.lines.entries = ctx.registered.values.flatMap fun b => (ctx.block b).members.entries
  /-- The main block is the outermost one, which is completed last. -/
  main : ∃ b, ctx.main = some b ∧ ctx.registered.values.getLast? = some b ∧
    ctx.blockLines b = s.own

/-- All blocks of a script are registered when they are added in the order of completion. -/
private theorem registers_addBlocks (standing : Bindings) {s : Script}
    (hne : ∀ ls ∈ s.blocks, ls ≠ []) (hn : s.numbers.Nodup) :
    (({ standing := standing } : Context).addBlocks s.blocks).Registers s := by
  have hn : (s.blocks.flatten.map Line.number).Nodup := hn
  have hlaid := laid_addBlocks standing hn
  have hregistered := registered_addBlocks standing hne hn
  have hlines := lines_addBlocks standing hn
  generalize ({ standing := standing } : Context).addBlocks s.blocks = ctx at *
  -- blocks are registered in the order of their places
  have hvalues : ctx.registered.values = List.range ctx.blocks.length := by
    rw [Table.values, hregistered, List.map_map, hlaid.blocks_length, List.range_eq_range']
    exact List.zipIdx_map_snd 0 s.blocks
  have hlaid' : ctx.Laid (s.nested ++ [s.own]) := hlaid
  have hmain : ctx.main = some (ctx.blocks.length - 1) := by
    rw [hlaid.main (by simp [Script.blocks]), hlaid.blocks_length]
  have hblocks : ctx.registered.entries.map (fun e => (e.1, ctx.blockLines e.2)) =
      s.blocks.map fun ls => (sortNumbers (ls.map Line.number), ls) := by
    rw [hregistered, List.map_map]
    conv_rhs => rw [← List.zipIdx_map_fst 0 s.blocks, List.map_map]
    refine List.map_congr_left fun e he => ?_
    have hlines := hlaid.blockLines_eq (List.mem_zipIdx_iff_getElem?.mp he)
    simp only [Function.comp_apply, hlines]
  refine ⟨hblocks, ?_, ?_, ?_, ?_, ?_⟩
  · intro e he
    have hmem := List.mem_map_of_mem (f := fun e => (e.1, ctx.blockLines e.2)) he
    rw [hblocks] at hmem
    obtain ⟨ls, hls, heq⟩ := List.mem_map.mp hmem
    obtain ⟨hkey, rfl⟩ := Prod.mk.inj heq
    rw [← hkey]
    exact ⟨sortNumbers_pairwise_lt (nodup_numbers_of_mem hn hls), sortNumbers_perm _⟩
  · rw [hvalues]
    exact List.nodup_range
  · intro b hb
    rw [hvalues, List.mem_range] at hb
    exact hlaid.keys_members hb
  · conv_lhs => rw [hlines, ← map_block_range, List.flatMap_map]
    rw [hvalues]
  · refine ⟨_, hmain, ?_, hlaid'.blockLines_main hmain⟩
    have hlength : ctx.blocks.length = s.nested.length + 1 := by
      simp [hlaid.blocks_length, Script.blocks]
    rw [hvalues, hlength, List.range_succ]
    simp

end Context

open Grammar

/-- Whatever text a script is written down in, with any comments, reading it into a new context
    succeeds, and then the context holds the whole script: its blocks in the order of completion,
    each under its own numbers, and all their lines. -/
theorem Script.registers_of_writes (standing : Bindings) (s : Script)
    (hlines : ∀ l ∈ s.lines, l.Writable) (hblocks : ∀ ls ∈ s.blocks, ls ≠ [])
    (hn : s.numbers.Nodup) :
    Writes s s.source.toList ∧
      ∀ text : String, Writes s text.toList →
        ∃ ctx, ({ standing := standing } : Context).addText text = (none, ctx) ∧
          ctx.Registers s := by
  refine ⟨writes_source s, fun text htext => ?_⟩
  have hread := readProof_of_writes htext hlines hblocks
  refine ⟨_, ?_, Context.registers_addBlocks standing hblocks hn⟩
  delta Context.addText
  simp only [hread]

/-- A hypothesis inside a block that stands between two lines, after a comment with a tab.  The
    outer block is not written in the order of its numbers. -/
theorem Script.registers_of_writes_nested :
    let first : Line := ⟨7, .imp (.atom "A") .falsum, ⟨"prem", []⟩⟩
    let inner : Line := ⟨2, .pred "even" [.named "x"], ⟨"hyp", []⟩⟩
    let last : Line := ⟨3, .atom "B", ⟨"impl_elim", [2, 7]⟩⟩
    let s : Script := .line first (.block (.line inner .done) (.line last .done))
    let text := "7. ~A prem ; \x7b /* a\tcase * */2. even(x) hyp ;\x7d 3. B impl_elim 2, 7;"
    s.numbers.Nodup ∧ ∃ ctx, ({} : Context).addText text = (none, ctx) ∧ ctx.Registers s ∧
      ctx.registered.keys = [[2], [3, 7]] := by
  intro first inner last s text
  have hn : s.numbers.Nodup := by decide
  have hprem : IsRuleName "prem" := ⟨by decide, List.all_eq_true.mp rfl⟩
  have hhyp : IsRuleName "hyp" := ⟨by decide, List.all_eq_true.mp rfl⟩
  have helim : IsRuleName "impl_elim" := ⟨by decide, List.all_eq_true.mp rfl⟩
  have heven : IsName "even" := ⟨by decide, List.all_eq_true.mp rfl⟩
  have hargs : ∀ v ∈ [Variable.named "x"], ∃ x, v = .named x ∧ IsName x := by
    intro v hv
    exact ⟨"x", List.mem_singleton.mp hv, by decide, List.all_eq_true.mp rfl⟩
  have hfirst : first.Writable := ⟨by decide, ⟨⟨'A', rfl, rfl⟩, .inl rfl⟩, hprem, by decide⟩
  have hinner : inner.Writable := ⟨by decide, ⟨heven, by decide, hargs⟩, hhyp, by decide⟩
  have hlast : last.Writable := ⟨by decide, ⟨'B', rfl, rfl⟩, helim, by decide⟩
  have hlines : ∀ l ∈ s.lines, l.Writable := by
    have hs : s.lines = [inner, first, last] := rfl
    simp [hs, hfirst, hinner, hlast]
  have hblocks : ∀ ls ∈ s.blocks, ls ≠ [] := by decide
  have htext : Writes s text.toList := by
    have hcomment : Uninterrupted " a\tcase * ".toList := by
      unfold Uninterrupted
      decide
    have hblock := Writes.comment ((spells_toList "/*").blanks blanks_space) hcomment
      (.line (spellsLine_source inner) (.done blanks_nil))
    have hrest := Writes.block ((spells_toList "\x7b").blanks blanks_space) hblock
      (spells_toList "\x7d")
      (.line ((spellsLine_source last).blanks blanks_space) (.done blanks_nil))
    convert Writes.line (spellsLine_source first) hrest
    decide +kernel
  obtain ⟨ctx, hadd, hregisters⟩ :=
    (Script.registers_of_writes {} s hlines hblocks hn).2 text htext
  have hkeys : ctx.registered.keys = [[2], [3, 7]] := by
    have hentries := congrArg (List.map Prod.fst) hregisters.blocks
    rwa [List.map_map] at hentries
  exact ⟨hn, ctx, hadd, hregisters, hkeys⟩

end Sequitur
