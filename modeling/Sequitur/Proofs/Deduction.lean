import Sequitur.Proofs.Breakdown
import Sequitur.Proofs.Inference

/-!
# Deductions

A deduction concludes from a block with one hypothesis that the hypothesis implies a formula of the
block.  It finds the block by the numbers that it cites, in any order, and relies on the type that
the block was given when its last line was accepted.

In a proof where no number repeats and every block has a line, all of this can be told from the
proof as it is written (`Line.Closes`): the block is the one whose own lines are cited, it has its
type if these lines come before the deduction, and its hypotheses are what its lines assume, where
the same formula assumed twice counts once.

## Key results

- `Context.exists_examine_deduction_iff`: what a deduction needs to pass its examination
- `Script.types_eq_some_iff`: the type of a block when a line comes up
- `Script.deduction_accepted_iff`: which deductions a check accepts
-/

namespace Sequitur

/-- The line `l` closes the block whose own lines are `ls`: it cites exactly these, they all come
    before it, and it says that the one formula which they assume implies one of their formulas. -/
structure Line.Closes (l : Line) (ls : List Line) : Prop where
  cited : l.reason.citations.Perm (ls.map Line.number)
  before : ∀ k ∈ ls, k.number < l.number
  concludes : ∃ h d, l.formula = .imp h d ∧
    (∀ f, (∃ k ∈ ls, k.assumes ∧ k.formula = f) ↔ f = h) ∧ ∃ k ∈ ls, k.formula = d

namespace Context

variable {ctx : Context} {id : LineId}

/-- A deduction becomes an argument when its block has its type and one hypothesis. -/
private theorem deduction_eq_ok_iff {ns : List Int} {arg : Argument} :
    ctx.deduction ns = .ok arg ↔
      ∃ b type h, ctx.registered.get? (sortNumbers ns) = some b ∧ ctx.types.get? b = some type ∧
        type.hypotheses = [h] ∧ arg = .deduction h type.results := by
  refine ⟨deduction_ok, ?_⟩
  rintro ⟨b, type, h, hb, htype, hhyp, rfl⟩
  simp only [deduction, hb, htype, hhyp]

/-- A block has one hypothesis when its lines assume one formula, however often. -/
private theorem hypotheses_blockType_eq_singleton_iff {b : BlockId} {h : Formula} :
    (ctx.blockType b).hypotheses = [h] ↔
      ∀ f, (∃ k ∈ ctx.blockLines b, k.assumes ∧ k.formula = f) ↔ f = h := by
  rw [blockType, eraseDups_eq_singleton_iff]
  simp only [List.mem_map, List.mem_filter, and_assoc]

/-- A deduction passes its examination when the cited lines exist and are those of a block that has
    its type, and the formula leads from the one hypothesis of the block to one of its results. -/
theorem exists_examine_deduction_iff
    (hrule : (ctx.record id).line.reason.rule = deductionName) :
    (∃ ctx', ctx.examine id = (.ok (), ctx')) ↔
      (∀ k ∈ (ctx.record id).line.reason.citations, k ∈ ctx.lines.keys) ∧
        ∃ b type h d,
          ctx.registered.get? (sortNumbers (ctx.record id).line.reason.citations) = some b ∧
          ctx.types.get? b = some type ∧ type.hypotheses = [h] ∧ d ∈ type.results ∧
          (ctx.record id).line.formula = .imp h d := by
  rw [← exists_cite_iff]
  constructor
  · rintro ⟨ctx', hexamine⟩
    -- the argument that passed is the one from the type of the block
    obtain ⟨arg, hexamined⟩ := examined_of_ok hexamine
    obtain ⟨vars, hinterpret⟩ := hexamined.interpreted
    obtain ⟨ids, hids, ⟨-, hded⟩ | ⟨hother, -⟩⟩ := interpret_ok hinterpret
    · obtain ⟨b, type, h, hb, htype, hhyp, rfl⟩ := deduction_ok hded
      obtain ⟨σ, σ', hyields⟩ := hexamined.yields rfl
      have hcheck := mapError_eq_ok.mp (congrArg Prod.fst hyields)
      obtain ⟨d, hd, hformula⟩ := Argument.checkDeduction_eq_true.mp hcheck
      exact ⟨⟨ids, hids⟩, b, type, h, d, hb, htype, hhyp, hd, hformula⟩
    · exact absurd hrule hother
  · rintro ⟨⟨ids, hids⟩, b, type, h, d, hb, htype, hhyp, hd, hformula⟩
    -- with a block, a type and one hypothesis the reason becomes an argument
    have hded := deduction_eq_ok_iff.mpr ⟨b, type, h, hb, htype, hhyp, rfl⟩
    have hinterpret : ∃ vars, ctx.interpret (ctx.record id).line.reason =
        .ok (.deduction h type.results, vars) := by
      simp only [interpret, hids, hrule, if_true, hded]
      exact ⟨_, rfl⟩
    obtain ⟨vars, hinterpret⟩ := hinterpret
    refine exists_examine hinterpret rfl fun σ => ?_
    rw [Argument.typecheck, Argument.checkDeduction_eq_true.mpr ⟨d, hd, hformula⟩]
    rfl

end Context

namespace Script

variable {s : Script} {standing : Bindings} {accepted : List Int}
  {pending : List (List Int × BlockId)} {rest : List (Int × LineId)} {n : Int} {id : LineId}
  {ctx : Context}

/-- When a line comes up, a block has a type if all its lines come before, and the type says what
    they assume and what they are. -/
theorem types_eq_some_iff (hn : s.numbers.Nodup) (hown : ∀ ls ∈ s.blocks, ls ≠ [])
    (h : Context.Reaches (s.context standing) accepted pending ((n, id) :: rest) ctx) {b : BlockId}
    {ls : List Line} (hb : s.blocks[b]? = some ls) {type : BlockType} :
    ctx.types.get? b = some type ↔
      (∀ k ∈ ls, k.number < n) ∧ type = (s.context standing).blockType b := by
  have hnone := types_eq_none_iff hn hown h hb
  have hprogress := ((s.assembled_context standing).progress_of_reaches h).1
  constructor
  · intro htype
    refine ⟨fun k hk => ?_, (hprogress.types htype).1⟩
    -- a line that comes later would keep the block waiting
    by_contra hle
    rw [hnone.mpr ⟨k, hk, Int.not_lt.mp hle⟩] at htype
    cases htype
  · rintro ⟨hbefore, rfl⟩
    cases htype : ctx.types.get? b with
    | some type => rw [(hprogress.types htype).1]
    | none =>
      obtain ⟨k, hk, hle⟩ := hnone.mp htype
      exact absurd (hbefore k hk) (Int.not_lt.mpr hle)

/-- A deduction that comes up passes its examination if it closes a block. -/
private theorem exists_examine_iff_closes (hn : s.numbers.Nodup) (hown : ∀ ls ∈ s.blocks, ls ≠ [])
    (h : Context.Reaches (s.context standing) accepted pending ((n, id) :: rest) ctx)
    (hrule : (ctx.record id).line.reason.rule = deductionName) :
    (∃ ctx', ctx.examine id = (.ok (), ctx')) ↔
      ∃ ls ∈ s.blocks, (ctx.record id).line.Closes ls := by
  have hlaid := laid_context hn standing
  have hget := (s.assembled_context standing).get?_of_reaches h
  have hnumber : (ctx.record id).line.number = n := by
    rw [h.frame.line]
    exact (hlaid.line_of_mem_entries (Table.mem_of_get? hget)).2
  have hregistered {ns : List Int} {b : BlockId} :
      (s.context standing).registered.get? (sortNumbers ns) = some b ↔ _ :=
    Context.get?_registered_addBlocks standing hown hn
  -- lines and blocks are those of the script, only the types belong to the moment
  rw [Context.exists_examine_deduction_iff hrule, h.frame.registered, h.frame.lines]
  simp only [mem_keys_context hn]
  constructor
  · rintro ⟨-, b, type, f, d, hb, htype, hhyp, hd, hformula⟩
    obtain ⟨ls, hls, hperm⟩ := hregistered.mp hb
    obtain ⟨hbefore, rfl⟩ := (types_eq_some_iff hn hown h hls).mp htype
    rw [Context.hypotheses_blockType_eq_singleton_iff, hlaid.blockLines_eq hls] at hhyp
    rw [Context.mem_results_blockType, hlaid.blockLines_eq hls] at hd
    exact ⟨ls, List.mem_of_getElem? hls, hperm, hnumber ▸ hbefore, f, d, hformula, hhyp, hd⟩
  · rintro ⟨ls, hmem, hperm, hbefore, f, d, hformula, hhyp, hd⟩
    -- the block that is closed is registered under the numbers that are cited
    obtain ⟨b, hls⟩ := List.getElem?_of_mem hmem
    rw [← hlaid.blockLines_eq hls, ← Context.hypotheses_blockType_eq_singleton_iff] at hhyp
    rw [← hlaid.blockLines_eq hls, ← Context.mem_results_blockType] at hd
    refine ⟨fun m hm => ?_, b, _, f, d, hregistered.mpr ⟨ls, hls, hperm⟩,
      (types_eq_some_iff hn hown h hls).mpr ⟨hnumber ▸ hbefore, rfl⟩, hhyp, hd, hformula⟩
    obtain ⟨k, hk, rfl⟩ := List.mem_map.mp (hperm.mem_iff.mp hm)
    exact List.mem_map_of_mem (List.mem_flatten_of_mem hmem hk)

/-- In the check of a proof that has been read, whose numbers are different and whose blocks all
    have lines, a deduction that comes up is accepted exactly if it closes one of the blocks. -/
theorem deduction_accepted_iff (standing : Bindings) (text : String) (s : Script)
    (hread : (Grammar.readProof text).result = .ok s) (hn : s.numbers.Nodup)
    (hown : ∀ ls ∈ s.blocks, ls ≠ []) (id : LineId) (l : Line)
    (hreached : .examining id l ∈
      (({ standing := standing } : Context).addText text).2.check.notices)
    (hrule : l.reason.rule = deductionName) :
    (id, l) ∈ (({ standing := standing } : Context).addText text).2.check.acceptances ↔
      ∃ ls ∈ s.blocks, l.Closes ls := by
  rw [addText_eq_context standing hread] at hreached ⊢
  have hlaid := laid_context hn standing
  -- the symbols of a line are no obstacle, since it was read without holes
  have hadmits {accepted pending n rest ctx}
      (h : Context.Reaches (s.context standing) accepted pending ((n, id) :: rest) ctx) :
      ctx.Admits id ↔ ∃ ctx', ctx.examine id = (.ok (), ctx') := by
    have hget := (s.assembled_context standing).get?_of_reaches h
    have hline := (hlaid.line_of_mem_entries (Table.mem_of_get? hget)).1
    rw [Context.admits_iff, h.frame.line, and_iff_left]
    exact Formula.exists_symbols ((Grammar.readProof_spec hread).2 _ hline).holeFree
  constructor
  · intro haccepted
    obtain ⟨_, _, _, _, ctx, h, hadmitted, rfl⟩ :=
      Context.mem_acceptances_check_iff.mp haccepted
    exact (exists_examine_iff_closes hn hown h hrule).mp ((hadmits h).mp hadmitted)
  · intro hcloses
    -- the line has come up, so there is a moment at which it was examined
    obtain ⟨accepted, pending, n, rest, ctx, h, rfl⟩ :=
      Context.examining_mem_check_iff.mp hreached
    have hexamine := (exists_examine_iff_closes hn hown h hrule).mpr hcloses
    exact Context.mem_acceptances_check_iff.mpr
      ⟨accepted, pending, n, rest, ctx, h, (hadmits h).mpr hexamine, rfl⟩

/-- A deduction from a block that assumes its hypothesis twice and has another block between its
    lines, which are cited out of order. -/
theorem deduction_accepted_iff_around_block :
    let a : Formula := .atom "A"
    let b : Formula := .atom "B"
    let first : Line := ⟨1, a, ⟨"hyp", []⟩⟩
    let inner : Line := ⟨2, b, ⟨"hyp", []⟩⟩
    let again : Line := ⟨3, a, ⟨"prem", []⟩⟩
    let last : Line := ⟨4, .disj a b, ⟨"add", [1]⟩⟩
    let outer : Line := ⟨5, .imp a (.disj a b), ⟨"ded", [4, 1, 3]⟩⟩
    let s : Script := .block (.line first (.block (.line inner .done) (.line again (.line last
      .done)))) (.line outer .done)
    let text := "\x7b 1. A hyp; \x7b 2. B hyp; \x7d 3. A prem; 4. A \\/ B add 1; \x7d " ++
      "5. A -> (A \\/ B) ded 4, 1, 3;"
    let run := (({} : Context).addText text).2.check
    ((Grammar.readProof text).result = .ok s ∧ s.numbers.Nodup ∧ (∀ ls ∈ s.blocks, ls ≠ []) ∧
        .examining 4 outer ∈ run.notices ∧ outer.reason.rule = deductionName) ∧
      outer.Closes [first, again, last] ∧ (4, outer) ∈ run.acceptances := by
  intro a b first inner again last outer s text run
  have hread : (Grammar.readProof text).result = .ok s := by decide +kernel +revert
  have hn : s.numbers.Nodup := by decide
  have hown : ∀ ls ∈ s.blocks, ls ≠ [] := by decide
  have hreached : .examining 4 outer ∈ run.notices := by
    clear hread
    decide +kernel +revert
  have hblock : [first, again, last] ∈ s.blocks := by decide
  have hcloses : outer.Closes [first, again, last] := by
    refine ⟨by decide, by decide, a, .disj a b, rfl, fun f => ⟨?_, ?_⟩, last, by decide, rfl⟩
    · rintro ⟨k, hk, hassumes, rfl⟩
      simp only [List.mem_cons, List.not_mem_nil, or_false] at hk
      rcases hk with rfl | rfl | rfl
      · rfl
      · rfl
      · exact absurd hassumes (by decide)
    · rintro rfl
      exact ⟨first, by decide, rfl, rfl⟩
  exact ⟨⟨hread, hn, hown, hreached, rfl⟩, hcloses,
    (deduction_accepted_iff {} text s hread hn hown 4 outer hreached rfl).mpr
      ⟨_, hblock, hcloses⟩⟩

end Script

end Sequitur
