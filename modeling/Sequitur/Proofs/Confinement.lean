import Mathlib.Data.List.Nodup
import Mathlib.Data.List.Pairwise
import Sequitur.Grammar.Proof
import Sequitur.Proofs.Progress

/-!
# Hypotheses that leak

A line ought to use only what holds in its own world: lines of its own block and of the blocks
around it.  The check does not see to that.  All lines of a proof are in one table, and a line finds
what it cites there, wherever it stands.

So the layout of a proof, its blocks with the numbers of their lines, decides whether a leak can
pass.  If two blocks have lines, one of them has a line that the other cannot see, and some proof
with this layout passes although it uses the line there.  Only if all lines stand in one block there
is nothing to leak.

## Key results

- `Script.check_repeating`: a proof in which one line repeats another passes, wherever they stand
- `Script.confined_iff_one_block`: the layouts for which the check keeps lines to their worlds
-/

namespace Sequitur

/-! ## Layouts -/

namespace Script

/-- Put another line in the place of each. -/
def map (f : Line → Line) : Script → Script
  | done => done
  | line l s => line (f l) (s.map f)
  | block b s => block (b.map f) (s.map f)

/-- Every line that a line cites stands in its own block or in a block around it, deductions
    apart. -/
def Confined (s : Script) : Prop :=
  ∀ w ∈ s.worlds, ∀ l ∈ w.block.own, l.reason.rule ≠ deductionName →
    ∀ n ∈ l.reason.citations, ∃ k ∈ w.visible, k.number = n

instance (s : Script) : Decidable s.Confined :=
  inferInstanceAs (Decidable (∀ w ∈ s.worlds, ∀ l ∈ w.block.own, l.reason.rule ≠ deductionName →
    ∀ n ∈ l.reason.citations, ∃ k ∈ w.visible, k.number = n))

variable (f : Line → Line)

/-- The lines of a block are put in place one by one. -/
private theorem own_map (s : Script) : (s.map f).own = s.own.map f := by
  induction s with
  | done => rfl
  | line l s ih => rw [map, own, own, ih, List.map_cons]
  | block b s _ ih => rw [map, own, own, ih]

/-- Blocks inside blocks keep their order. -/
private theorem nested_map (s : Script) : (s.map f).nested = s.nested.map (List.map f) := by
  induction s with
  | done => rfl
  | line l s ih => rw [map, nested, nested, ih]
  | block b s ihb ihs =>
    rw [map, nested, nested, ihb, ihs, own_map, List.map_append, List.map_cons]

private theorem blocks_map (s : Script) : (s.map f).blocks = s.blocks.map (List.map f) := by
  rw [blocks, blocks, nested_map, own_map, List.map_append, List.map_singleton]

/-- All lines are put in place, in all blocks. -/
private theorem lines_map (s : Script) : (s.map f).lines = s.lines.map f := by
  rw [lines, lines, blocks_map, List.map_flatten]

/-- The numbers stay if those of the lines do. -/
private theorem numbers_map {f : Line → Line} (hf : ∀ l, (f l).number = l.number) (s : Script) :
    (s.map f).numbers = s.numbers := by
  rw [numbers, numbers, lines_map, List.map_map]
  exact List.map_congr_left fun l _ => hf l

end Script

/-- Put another line in the place of each, in all blocks of a world. -/
def World.map (f : Line → Line) (w : World) : World :=
  ⟨w.block.map f, w.enclosing.map (Script.map f)⟩

/-- What can be seen from a world are the new lines of the same places. -/
private theorem World.visible_map (f : Line → Line) (w : World) :
    (w.map f).visible = w.visible.map f := by
  simp only [visible, blocks, map, List.flatMap_cons, List.flatMap_map, List.map_append,
    List.map_flatMap, Script.own_map]

namespace Script

private theorem nestedWorlds_map (f : Line → Line) (s : Script) (enclosing : List Script) :
    (s.map f).nestedWorlds (enclosing.map (Script.map f)) =
      (s.nestedWorlds enclosing).map (World.map f) := by
  induction s generalizing enclosing with
  | done => rfl
  | line l s ih => exact ih enclosing
  | block b s ihb ihs =>
    rw [map, nestedWorlds, nestedWorlds, List.map_append, List.map_cons, ← ihb, ← ihs]
    rfl

/-- A layout has the same worlds whatever its lines are. -/
private theorem worlds_map (f : Line → Line) (s : Script) :
    (s.map f).worlds = s.worlds.map (World.map f) := by
  rw [worlds, worlds, List.map_append, ← nestedWorlds_map]
  rfl

/-- Where no line is there twice, no world can see a line twice. -/
private theorem nodup_visible_of_mem_nestedWorlds {s : Script} {enclosing : List Script} {w : World}
    (hn : (s.nested.flatten ++ enclosing.flatMap own).Nodup) (hw : w ∈ s.nestedWorlds enclosing) :
    w.visible.Nodup := by
  induction s generalizing enclosing with
  | done => cases hw
  | line l s ih => exact ih hn hw
  | block b s ihb ihs =>
    rw [nestedWorlds, List.mem_append, List.mem_cons] at hw
    simp only [nested, List.flatten_append, List.flatten_cons, List.append_assoc] at hn
    have hrest : (s.nested.flatten ++ enclosing.flatMap own).Nodup :=
      hn.of_append_right.of_append_right
    -- inside `b` its own lines are among those around
    have hinner : (b.nested.flatten ++ (b :: enclosing).flatMap own).Nodup := by
      refine hn.sublist (List.Sublist.append_left (List.Sublist.append_left ?_ _) _)
      exact List.sublist_append_right _ _
    rcases hw with hw | rfl | hw
    · exact ihb hinner hw
    · exact hinner.of_append_right
    · exact ihs hrest hw

/-- Where no number repeats, no world can see a line twice. -/
private theorem nodup_visible {s : Script} (hn : s.numbers.Nodup) {w : World} (hw : w ∈ s.worlds) :
    w.visible.Nodup := by
  have hlines : (s.nested.flatten ++ s.own).Nodup := by
    have := List.Nodup.of_map _ hn
    simpa only [lines, blocks, List.flatten_append, List.flatten_singleton] using this
  rw [worlds, List.mem_append, List.mem_singleton] at hw
  rcases hw with hw | rfl
  · exact nodup_visible_of_mem_nestedWorlds (by simpa using hlines) hw
  · simpa [World.visible, World.blocks] using hlines.of_append_right

end Script

/-! ## A proof that passes -/

/-- Every line is the hypothesis `A`, except that the line with the number `n` is `A` again, by a
    step from the line with the number `m` that changes nothing. -/
def Line.repeating (n m : Int) (l : Line) : Line :=
  ⟨l.number, .atom "A", if l.number = n then ⟨"dn", [m]⟩ else ⟨"hyp", []⟩⟩

namespace Context

/-- A hypothesis is accepted. -/
private theorem exists_examine_hypothesis {ctx : Context} {id : LineId}
    (h : (ctx.record id).line.reason = ⟨"hyp", []⟩) : ∃ ctx', ctx.examine id = (.ok (), ctx') :=
  exists_examine (by rw [h]; rfl) rfl fun _ => rfl

/-- A step from a line to the same formula is accepted, wherever the line stands. -/
private theorem exists_examine_repetition {ctx : Context} {id cited : LineId} {m : Int}
    (h : (ctx.record id).line.reason = ⟨"dn", [m]⟩) (hm : ctx.lines.get? m = some cited)
    (heq : (ctx.record cited).line.formula = (ctx.record id).line.formula) :
    ∃ ctx', ctx.examine id = (.ok (), ctx') := by
  have hinterpret : ctx.interpret ⟨"dn", [m]⟩ =
      .ok (.replacement .doubleNegation (ctx.cited cited),
        VariableContext.combine [ctx.variablesOf cited]) := by
    simp [interpret, cite, hm, deductionName, Rule.ofName?, Rule.argument?]
  refine exists_examine (by rw [h]; exact hinterpret) rfl fun σ => ?_
  simp [Argument.typecheck, Equivalence.replace, Context.cited, heq]

end Context

namespace Script

/-- Whatever lines `n` and `m` are, the proof in which the one repeats the other passes. -/
theorem check_repeating {s : Script} (hn : s.numbers.Nodup) (n : Int) {m : Int}
    (hm : m ∈ s.numbers) (standing : Bindings) :
    ((s.map (Line.repeating n m)).context standing).check.result = .ok true := by
  have hnumbers : (s.map (Line.repeating n m)).numbers = s.numbers :=
    numbers_map (f := Line.repeating n m) (fun _ => rfl) s
  have hlines : ∀ k ∈ (s.map (Line.repeating n m)).lines, ∃ l, k = Line.repeating n m l := by
    intro k hk
    rw [lines_map] at hk
    obtain ⟨l, -, hl⟩ := List.mem_map.mp hk
    exact ⟨l, hl.symm⟩
  -- from here on only the numbers and the form of the lines matter
  generalize s.map (Line.repeating n m) = t at hnumbers hlines ⊢
  have hlaid : (t.context standing).Laid t.blocks := laid_context (hnumbers ▸ hn) standing
  have hline : ∀ e ∈ (t.context standing).lines.entries,
      ∃ l, ((t.context standing).record e.2).line = Line.repeating n m l :=
    fun e he => hlines _ (hlaid.line_of_mem_entries he).1
  refine (t.assembled_context standing).check_of_examine ?_
    (fun b hb e he => hlaid.mem_entries_of_mem_members hb he) ?_ ?_ ?_
  · rw [hlaid.main (by simp [blocks])]
    rfl
  · intro e he
    obtain ⟨l, hl⟩ := hline e he
    -- none of the lines is a premise
    rw [hl, Line.isPremise, Line.repeating]
    split <;> rfl
  · intro e he ctx hframe
    obtain ⟨l, hl⟩ := hline e he
    by_cases hln : l.number = n
    · -- the cited line is there, as every number of the layout
      obtain ⟨k, hk, hkm⟩ := List.mem_map.mp (hnumbers ▸ hm)
      obtain ⟨cited, hmem, hcited⟩ := hlaid.exists_mem_entries hk
      obtain ⟨l', rfl⟩ := hlines k hk
      have hget := Table.get?_of_mem (t.assembled_context standing).lines_nodup hmem
      refine Context.exists_examine_repetition (m := m) ?_ (hframe.lines ▸ hkm ▸ hget) ?_
      · rw [hframe.line, hl, Line.repeating, if_pos hln]
      · rw [hframe.line, hframe.line, hl, hcited]
        rfl
    · refine Context.exists_examine_hypothesis ?_
      rw [hframe.line, hl, Line.repeating, if_neg hln]
  · intro e he
    obtain ⟨l, hl⟩ := hline e he
    rw [hl]
    exact ⟨{}, rfl⟩

/-! ## Which layouts leak -/

/-- If every proof with this layout that passes is confined, then every line can see every line. -/
private theorem mem_visible_of_confined {s : Script} (hn : s.numbers.Nodup) {standing : Bindings}
    (h : ∀ f : Line → Line, (∀ l, (f l).number = l.number) →
      ((s.map f).context standing).check.result = .ok true → (s.map f).Confined)
    {w : World} (hw : w ∈ s.worlds) {l k : Line} (hl : l ∈ w.block.own) (hk : k ∈ s.lines) :
    k ∈ w.visible := by
  -- the proof in which `l` repeats `k` passes, hence it is confined
  have hconfined := h (Line.repeating l.number k.number) (fun _ => rfl)
    (check_repeating hn l.number (List.mem_map_of_mem hk) standing)
  obtain ⟨k', hk', hnumber⟩ := hconfined (w.map (Line.repeating l.number k.number))
    (by rw [worlds_map]; exact List.mem_map_of_mem hw) (l.repeating l.number k.number)
    (by rw [World.map, own_map]; exact List.mem_map_of_mem hl)
    (by simp [Line.repeating, deductionName]) k.number (by simp [Line.repeating])
  rw [World.visible_map] at hk'
  obtain ⟨v, hv, rfl⟩ := List.mem_map.mp hk'
  rwa [← eq_of_number_eq hn (mem_lines_of_mem_visible hw hv) hk hnumber]

/-- A line of one block and a line of a block around it cannot both see each other. -/
private theorem own_of_mem_visible {s : Script} (hn : s.numbers.Nodup) {w : World}
    (hw : w ∈ s.worlds) {l k : Line} (hl : l ∈ w.block.own) (hk : k ∈ w.visible)
    (hback : ∀ v ∈ s.worlds, k ∈ v.block.own → l ∈ v.visible) : k ∈ w.block.own := by
  obtain ⟨c, hc, hkc⟩ := List.mem_flatMap.mp hk
  obtain ⟨cs, hcs, hsuffix⟩ := exists_outer_world hw hc
  rcases List.suffix_cons_iff.mp hsuffix with heq | hsuffix
  · cases heq
    exact hkc
  · -- then `l` stands in its own block and in one around it
    obtain ⟨d, hd, hld⟩ := List.mem_flatMap.mp (hback ⟨c, cs⟩ hcs hkc)
    have hvisible := nodup_visible hn hw
    rw [World.visible, World.blocks, List.flatMap_cons, List.nodup_append] at hvisible
    exact absurd rfl (hvisible.2.2 l hl l (List.mem_flatMap.mpr ⟨d, hsuffix.subset hd, hld⟩))

/-- Where no number repeats, a line stands in one block only. -/
private theorem eq_of_mem_blocks {s : Script} (hn : s.numbers.Nodup) {b c : List Line}
    (hb : b ∈ s.blocks) (hc : c ∈ s.blocks) {l : Line} (hlb : l ∈ b) (hlc : l ∈ c) : b = c := by
  -- the blocks partition the lines, since no line is there twice
  have hdisjoint := (List.nodup_flatten.mp (List.Nodup.of_map _ hn)).2
  have : Std.Symm (List.Disjoint (α := Line)) := ⟨fun _ _ h _ hx hy => h hy hx⟩
  by_contra hne
  exact hdisjoint.forall hb hc hne hlb hlc

/-- In a proof that passes, a line that is no deduction cites lines that are there. -/
private theorem exists_line_of_check {s : Script} (hn : s.numbers.Nodup) {standing : Bindings}
    (hcheck : (s.context standing).check.result = .ok true) {l : Line} (hl : l ∈ s.lines)
    (hded : l.reason.rule ≠ deductionName) {n : Int} (hcited : n ∈ l.reason.citations) :
    ∃ k ∈ s.lines, k.number = n := by
  cases warrant_of_check hn hcheck hl with
  | deduction h _ _ _ _ => exact absurd h hded
  | rule _ hcite _ _ _ =>
    -- a warrant by a rule has looked up all citations
    have hget := List.mem_map_of_mem (f := (s.context standing).lines.get?) hcited
    rw [Context.map_get?_of_cite hcite] at hget
    obtain ⟨id, -, hid⟩ := List.mem_map.mp hget
    exact ⟨_, (laid_context hn standing).line_of_mem_entries (Table.mem_of_get? hid.symm)⟩

/-- A proof that passes is confined if all its lines stand in one block. -/
private theorem confined_of_one_block {s : Script} (hn : s.numbers.Nodup) {standing : Bindings}
    (hcheck : (s.context standing).check.result = .ok true) {b : List Line} (hb : b ∈ s.blocks)
    (hall : ∀ l ∈ s.lines, l ∈ b) : s.Confined := by
  intro w hw l hl hded n hcited
  have hline : l ∈ s.lines := mem_lines_iff.mpr ⟨w, hw, hl⟩
  obtain ⟨k, hk, hnumber⟩ := exists_line_of_check hn hcheck hline hded hcited
  -- the block of `l` is the one that has all lines
  have hblock : w.block.own = b := eq_of_mem_blocks hn (own_mem_blocks hw) hb hl (hall l hline)
  exact ⟨k, List.mem_flatMap.mpr ⟨w.block, List.mem_cons_self, hblock ▸ hall k hk⟩, hnumber⟩

/-- If every proof with this layout that passes is confined, then all lines stand in one block. -/
private theorem one_block_of_confined {s : Script} (hn : s.numbers.Nodup) {standing : Bindings}
    (h : ∀ f : Line → Line, (∀ l, (f l).number = l.number) →
      ((s.map f).context standing).check.result = .ok true → (s.map f).Confined) :
    ∃ b ∈ s.blocks, ∀ l ∈ s.lines, l ∈ b := by
  by_cases hempty : s.lines = []
  · exact ⟨s.own, by simp [blocks], by simp [hempty]⟩
  · obtain ⟨l, hl⟩ := List.exists_mem_of_ne_nil _ hempty
    obtain ⟨w, hw, hlw⟩ := mem_lines_iff.mp hl
    refine ⟨w.block.own, own_mem_blocks hw, fun k hk => ?_⟩
    -- `l` can see `k`, and `k` can see `l` from wherever it stands
    exact own_of_mem_visible hn hw hlw (mem_visible_of_confined hn h hw hlw hk)
      fun v hv hkv => mem_visible_of_confined hn h hv hkv hl

/-- The check keeps the lines of all proofs with a given layout to their worlds exactly when all
    lines of the layout stand in one block. -/
theorem confined_iff_one_block (s : Script) (standing : Bindings) (hn : s.numbers.Nodup) :
    (∀ f : Line → Line, (∀ l, (f l).number = l.number) →
        ((s.map f).context standing).check.result = .ok true → (s.map f).Confined) ↔
      ∃ b ∈ s.blocks, ∀ l ∈ s.lines, l ∈ b := by
  refine ⟨one_block_of_confined hn, ?_⟩
  rintro ⟨b, hb, hall⟩ f hf hcheck
  -- other lines in the same places still stand in one block
  have hmap : b.map f ∈ (s.map f).blocks := by
    rw [blocks_map]
    exact List.mem_map_of_mem hb
  refine confined_of_one_block (numbers_map hf s ▸ hn) hcheck hmap ?_
  rw [lines_map]
  exact List.forall_mem_map.mpr fun l hl => List.mem_map_of_mem (hall l hl)

/-- A block and a line after it: the line can see nothing of the block, and yet proofs of this
    layout pass in which it uses the block. -/
theorem confined_iff_one_block_two_worlds :
    let a : Formula := .atom "A"
    let s : Script := .block (.line ⟨1, a, ⟨"hyp", []⟩⟩ .done) (.line ⟨2, a, ⟨"hyp", []⟩⟩ .done)
    s.numbers.Nodup ∧
      ((∀ f : Line → Line, (∀ l, (f l).number = l.number) →
          ((s.map f).context {}).check.result = .ok true → (s.map f).Confined) ↔
        ∃ b ∈ s.blocks, ∀ l ∈ s.lines, l ∈ b) := by
  intro a s
  have hn : s.numbers.Nodup := by decide
  exact ⟨hn, confined_iff_one_block s {} hn⟩

/-- A line after a block that uses the hypothesis of the block passes. -/
theorem leak_passes :
    let a : Formula := .atom "A"
    let s : Script := .block (.line ⟨1, a, ⟨"hyp", []⟩⟩ .done)
      (.line ⟨2, .disj a (.atom "B"), ⟨"add", [1]⟩⟩ .done)
    (Grammar.readProof "\x7b 1. A hyp; \x7d 2. A \\/ B add 1;").result = .ok s ∧
      s.numbers.Nodup ∧ (s.context {}).check.result = .ok true ∧ ¬ s.Confined := by
  decide +kernel

end Script

end Sequitur
