import Mathlib.Order.WellFoundedSet
import Sequitur.Proofs.Inference
import Sequitur.Proofs.Progress
import Sequitur.Proofs.Reading
import Sequitur.Report

/-!
# Soundness of the checker

A sequent that is reported for a file is valid, provided that the proof in the file is disciplined:
its lines look only at lower lines of their own block or of the blocks around it, and deduce only
from blocks that are nested there.  The check itself does not ask for this discipline.

Each block is a world with assumptions of its own.  By induction on line numbers, the formula of a
line follows from the assumptions that are visible from its block.  A rule leaves the assumptions
as they are.  A deduction leaves the world of a block, whose assumptions are the hypothesis of the
block and others that are visible outside as well.

## Key results

- `Script.Disciplined.entailed`: a line follows from the assumptions that its block can see
- `Report.sequents_valid`: what is reported for a file is valid
-/

namespace Sequitur

universe u

/-! ## Discipline -/

/-- The formulas that are assumed in the block of a world and in those around it. -/
def World.assumptions (w : World) : List Formula :=
  (w.visible.filter Line.assumes).map Line.formula

/-- The rules that a disciplined proof does without. -/
def undisciplined : List String := ["ds", "ui", "ug", "ei", "eg"]

/-- A proof in which nothing is used outside the world where it holds. -/
@[mk_iff]
structure Script.Disciplined (s : Script) : Prop where
  /-- No two lines have the same number. -/
  distinct : s.numbers.Nodup
  rules : ∀ l ∈ s.lines, l.reason.rule ∉ undisciplined
  /-- A line cites lower lines of its own block or of the blocks around it. -/
  citations : ∀ w ∈ s.worlds, ∀ l ∈ w.block.own, l.reason.rule ≠ deductionName →
    ∀ n ∈ l.reason.citations, n < l.number ∧ ∃ k ∈ w.visible, k.number = n
  /-- A deduction cites a block that is nested directly in its own block or in one around it. -/
  deductions : ∀ w ∈ s.worlds, ∀ l ∈ w.block.own, l.reason.rule = deductionName →
    ∃ c ∈ w.blocks, ∃ d ∈ c.children, l.reason.citations.Perm (d.own.map Line.number)

instance (s : Script) : Decidable s.Disciplined :=
  decidable_of_iff' _ (Script.disciplined_iff s)

namespace World

variable {w : World}

private theorem mem_assumptions {f : Formula} :
    f ∈ w.assumptions ↔ ∃ c ∈ w.blocks, ∃ l ∈ c.own, l.assumes ∧ l.formula = f := by
  simp only [assumptions, visible, List.mem_map, List.mem_filter, List.mem_flatMap]
  grind

/-- A world further out assumes no more. -/
private theorem assumptions_subset {v w : World} (h : v.blocks ⊆ w.blocks) :
    v.assumptions ⊆ w.assumptions := by
  intro f hf
  rw [mem_assumptions] at hf ⊢
  exact hf.imp fun c hc => ⟨h hc.1, hc.2⟩

end World

/-- A name that a disciplined proof may use stands for none of the rules that it does without. -/
private theorem Rule.ofName?_disciplined {name : String} {rule : Rule}
    (h : Rule.ofName? name = some rule) (hname : name ∉ undisciplined) :
    rule ∉ [.disjunctiveSyllogism, .existentialInstantiation, .existentialGeneralization,
      .universalInstantiation, .universalGeneralization] := by
  unfold ofName? at h
  split at h <;> cases h <;> first | decide | exact absurd (by decide) hname

/-- The argument of such a rule is an assumption or infers its formula. -/
private theorem Rule.infers_of_disciplined {name : String} {rule : Rule} {cs : List Cited}
    {arg : Argument} (h : Rule.ofName? name = some rule) (hname : name ∉ undisciplined)
    (harg : rule.argument? cs = some arg) :
    arg.isQuantifier = false ∧ (arg.isAssumption = true ∨ arg.infers = true) := by
  have hrule := ofName?_disciplined h hname
  unfold argument? at harg
  split at harg <;> cases harg <;>
    first
    | exact ⟨rfl, .inr rfl⟩
    | exact ⟨rfl, .inl rfl⟩
    | simp at hrule

/-! ## Lines -/

namespace Script

variable {s : Script} {standing : Bindings} {w : World} {l : Line}

/-- The line with the number `n` follows from the assumptions that its block can see. -/
def Follows (s : Script) (n : Int) : Prop :=
  ∀ w ∈ s.worlds, ∀ l ∈ w.block.own, l.number = n → Formula.Entailed.{u} w.assumptions l.formula

/-- A line that a world can see follows there, if it follows where it stands. -/
theorem Follows.visible {k : Line} (h : Follows.{u} s k.number) (hw : w ∈ s.worlds)
    (hk : k ∈ w.visible) : Formula.Entailed.{u} w.assumptions k.formula := by
  obtain ⟨c, hc, hk⟩ := List.mem_flatMap.mp hk
  obtain ⟨cs, hcs, hsub⟩ := exists_outer_world hw hc
  exact (h ⟨c, cs⟩ hcs k hk rfl).mono (World.assumptions_subset hsub.subset)

/-- What a world assumes follows there. -/
private theorem entailed_of_assumes (hl : l ∈ w.block.own) (ha : l.assumes) :
    Formula.Entailed.{u} w.assumptions l.formula := by
  intro D M ν htrue
  exact htrue _ (World.mem_assumptions.mpr ⟨w.block, List.mem_cons_self, l, hl, ha, rfl⟩)

/-- A line that is accepted by a rule follows, if the lines that it cites do. -/
private theorem Disciplined.entailed_of_rule (hd : s.Disciplined) (hlegible : Grammar.Legible s)
    (hw : w ∈ s.worlds) (hl : l ∈ w.block.own) {ids : List LineId} {r : Rule} {arg : Argument}
    (hded : l.reason.rule ≠ deductionName)
    (hcite : (s.context standing).cite l.reason.citations = .ok ids)
    (hname : Rule.ofName? l.reason.rule = some r)
    (harg : r.argument? (ids.map (s.context standing).cited) = some arg)
    (hyields : arg.isQuantifier = false → ∃ σ σ', arg.typecheck σ l.formula = (.ok true, σ'))
    (ih : ∀ n < l.number, n ∈ l.reason.citations → Follows.{u} s n) :
    Formula.Entailed.{u} w.assumptions l.formula := by
  have hline : l ∈ s.lines := mem_lines_iff.mpr ⟨w, hw, hl⟩
  obtain ⟨hquantifier, hassumes | hinfers⟩ :=
    Rule.infers_of_disciplined hname (hd.rules l hline) harg
  · refine entailed_of_assumes hl ?_
    rw [Rule.isAssumption_argument? harg] at hassumes
    subst hassumes
    simpa [Line.assumes] using Rule.ofName?_eq_assumption.mp hname
  · obtain ⟨σ, σ', hcheck⟩ := hyields hquantifier
    have hpremises := Argument.premises_of_argument? harg
    -- a premise is the line with a number that is cited, and stands where `w` can see it
    have hpremise : ∀ c ∈ arg.premises, c.formula.holeFree ∧
        Formula.Entailed.{u} w.assumptions c.formula := by
      intro c hc
      rw [hpremises] at hc
      obtain ⟨id, hid, rfl⟩ := List.mem_map.mp hc
      obtain ⟨hmem, hcited⟩ := cited_of_cite hd.distinct hcite hid
      obtain ⟨hlt, k, hk, hnumber⟩ := hd.citations w hw l hl hded _ hcited
      obtain rfl := eq_of_number_eq hd.distinct (mem_lines_of_mem_visible hw hk) hmem hnumber
      exact ⟨(hlegible _ hmem).holeFree, (ih _ hlt hcited).visible hw hk⟩
    have hsound := Argument.typecheck_sound.{u} hinfers (fun c hc => (hpremise c hc).1)
      (hlegible l hline).holeFree hcheck
    intro D M ν htrue
    refine hsound D M ν fun f hf => ?_
    obtain ⟨c, hc, rfl⟩ := List.mem_map.mp hf
    exact (hpremise c hc).2 D M ν htrue

/-- A line that is deduced from a block follows, if the lines of the block do. -/
private theorem Disciplined.entailed_of_deduction (hd : s.Disciplined) (hw : w ∈ s.worlds)
    (hl : l ∈ w.block.own) {b : BlockId} {hyp : Formula} (hded : l.reason.rule = deductionName)
    (hb : (s.context standing).registered.get? (sortNumbers l.reason.citations) = some b)
    (hone : ((s.context standing).blockType b).hypotheses = [hyp])
    (hyields : Argument.checkDeduction hyp ((s.context standing).blockType b).results l.formula =
      .ok true)
    (ih : ∀ n ∈ l.reason.citations, Follows.{u} s n) :
    Formula.Entailed.{u} w.assumptions l.formula := by
  obtain ⟨c, hc, d, hdc, hperm⟩ := hd.deductions w hw l hl hded
  obtain ⟨cs, hcs, hsub⟩ := exists_outer_world hw hc
  have hinner : ⟨d, c :: cs⟩ ∈ s.worlds := child_mem_worlds hcs hdc
  -- the block that was found by its numbers is the block `d` of the script
  have hlines : ∀ k, k ∈ (s.context standing).blockLines b ↔ k ∈ d.own := by
    intro k
    rw [mem_blockLines_of_registered hd.distinct hb, hperm.mem_iff]
    constructor
    · rintro ⟨hk, hnumber⟩
      obtain ⟨k', hk', heq⟩ := List.mem_map.mp hnumber
      rwa [← eq_of_number_eq hd.distinct (mem_lines_iff.mpr ⟨_, hinner, hk'⟩) hk heq]
    · intro hk
      exact ⟨mem_lines_iff.mpr ⟨_, hinner, hk⟩, List.mem_map_of_mem hk⟩
  obtain ⟨q, hq, hformula⟩ := Argument.checkDeduction_eq_true.mp hyields
  obtain ⟨k, hk, rfl⟩ := Context.mem_results_blockType.mp hq
  rw [hlines] at hk
  have hfollows := ih k.number (hperm.mem_iff.mpr (List.mem_map_of_mem hk)) _ hinner k hk rfl
  -- besides what `w` assumes, the block assumes its hypothesis alone
  have hassumed : ∀ f ∈ World.assumptions ⟨d, c :: cs⟩, f = hyp ∨ f ∈ w.assumptions := by
    intro f hf
    obtain ⟨e, he, l', hl', hassumes, rfl⟩ := World.mem_assumptions.mp hf
    rcases List.mem_cons.mp he with rfl | he
    · left
      rw [← List.mem_singleton, ← hone]
      exact Context.mem_hypotheses_blockType.mpr ⟨l', (hlines l').mpr hl', hassumes, rfl⟩
    · exact .inr (World.mem_assumptions.mpr ⟨e, hsub.subset he, l', hl', hassumes, rfl⟩)
  intro D M ν htrue
  rw [hformula]
  intro hhyp
  refine hfollows D M ν fun f hf => ?_
  rcases hassumed f hf with rfl | hf
  · exact hhyp
  · exact htrue f hf

/-- A line of a disciplined script that passes its check follows, if all lower lines do. -/
private theorem Disciplined.follows_step (hd : s.Disciplined) (hlegible : Grammar.Legible s)
    (hcheck : (s.context standing).check.result = .ok true) {n : Int}
    (ih : ∀ m < n, Follows.{u} s m) : Follows.{u} s n := by
  rintro w hw l hl rfl
  cases warrant_of_check hd.distinct hcheck (mem_lines_iff.mpr ⟨w, hw, hl⟩) with
  | rule hded hcite hname harg hyields =>
    exact hd.entailed_of_rule hlegible hw hl hded hcite hname harg hyields fun m hm _ => ih m hm
  | deduction hded hb hlower hone hyields =>
    exact hd.entailed_of_deduction hw hl hded hb hone hyields fun m hm => ih m (hlower m hm)

/-- Every line of a disciplined script that passes its check follows from the assumptions that its
    block can see. -/
theorem Disciplined.entailed (hd : s.Disciplined) (hlegible : Grammar.Legible s)
    (hcheck : (s.context standing).check.result = .ok true) (hw : w ∈ s.worlds)
    (hl : l ∈ w.block.own) : Formula.Entailed.{u} w.assumptions l.formula := by
  have hnumber : ∀ {w l}, w ∈ s.worlds → l ∈ w.block.own → l.number ∈ s.numbers :=
    fun hw hl => List.mem_map_of_mem (mem_lines_iff.mpr ⟨_, hw, hl⟩)
  -- there are only finitely many numbers, so that going down from line to line ends
  have hwf := (List.finite_toSet s.numbers).wellFoundedOn (r := (· < ·))
  have hfollows : ∀ n ∈ s.numbers, Follows.{u} s n := fun n hn =>
    hwf.induction hn fun m _ ih => hd.follows_step hlegible hcheck fun m' hm' w' hw' k hk hk' =>
      ih m' (hk' ▸ hnumber hw' hk) hm' w' hw' k hk hk'
  exact hfollows _ (hnumber hw hl) w hw l hl rfl

end Script

/-! ## Reports -/

/-- What is put into an empty context when the whole text is read. -/
private theorem Context.addText_of_readProof {text : String} {s : Script} {standing : Bindings}
    (h : (Grammar.readProof text).result = .ok s) :
    ({ standing := standing } : Context).addText text = (none, s.context standing) := by
  -- the equation of `addText` takes long to make, since it has the reader unfolded
  delta addText
  simp only [h, (Grammar.readProof_spec h).1, Script.context]

namespace Report

/-- The proof in a file, below its first line, reads as the script `s`. -/
def ProofReads (file : String) (s : Script) : Prop :=
  ∃ first rest, Text.fileLines file = first :: rest ∧
    (Grammar.readProof (String.intercalate "\n" (Outline.toBraces rest))).result = .ok s

/-- What is left of hypotheses without holes are those that are no instances of the excluded
    middle. -/
private theorem mem_dropExcludedMiddle {standing : Bindings} {fs : List Formula}
    (hfs : ∀ f ∈ fs, f.holeFree) {f : Formula} :
    f ∈ (dropExcludedMiddle standing fs).1 ↔ f ∈ fs ∧ ¬ f.ExcludedMiddle := by
  induction fs generalizing standing with
  | nil => simp [dropExcludedMiddle]
  | cons g fs ih =>
    rw [List.forall_mem_cons] at hfs
    -- the match answers exactly, whatever stands in the standing tables
    have hg := Formula.isExcludedMiddle_iff standing hfs.1
    have hrest := @ih (g.isExcludedMiddle standing).2 hfs.2
    simp only [dropExcludedMiddle]
    split
    · rename_i hyes
      have hexcluded := hg.mp hyes
      grind
    · rename_i hno
      have hexcluded := mt hg.mpr hno
      grind

/-- A sequent is reported for the given hypotheses and one of the results. -/
private theorem mem_sequents_obligations {hypotheses results goals : List Formula}
    {standing : Bindings} {q : Sequent}
    (h : q ∈ (obligations hypotheses results standing goals).sequents) :
    q.hypotheses = hypotheses ∧ q.conclusion ∈ results := by
  induction goals with
  | nil => cases h
  | cons f goals ih =>
    simp only [obligations] at h
    split at h
    · rename_i hf
      cases h with
      | head => exact ⟨rfl, hf⟩
      | tail _ h => exact ih h
    · cases h

/-- A sequent that is reported for a context that passes its check is about its main block. -/
private theorem sequent_of_conclude {base : Context} (ha : base.Assembled)
    (hcheck : base.check.result = .ok true) {goals : List Formula} {q : Sequent}
    (h : q ∈ (conclude base.check.context goals).sequents) :
    ∃ b standing, base.main = some b ∧ q.conclusion ∈ (base.blockType b).results ∧
      q.hypotheses = (dropExcludedMiddle standing (base.blockType b).hypotheses).1 := by
  -- the run has left the main block as it was and given it the type that its lines tell
  obtain ⟨⟨accepted, hprogress⟩, -⟩ := ha.checked hcheck
  unfold conclude at h
  split at h
  · cases h
  · rename_i b hmain
    split at h
    · cases h
    · rename_i type htype
      obtain ⟨hhypotheses, hconclusion⟩ := mem_sequents_obligations h
      rw [(hprogress.types htype).1] at hhypotheses hconclusion
      exact ⟨b, _, hprogress.main ▸ hmain, hconclusion, hhypotheses⟩

/-- A sequent is reported for a file only if its proof passes the check. -/
private theorem sequent_of_ofFile {standing : Bindings} {file : String} {s : Script} {q : Sequent}
    (hs : ProofReads file s) (h : q ∈ (ofFile standing file).sequents) :
    (s.context standing).check.result = .ok true ∧
      ∃ goals, q ∈ (conclude (s.context standing).check.context goals).sequents := by
  obtain ⟨first, rest, hfile, hread⟩ := hs
  simp only [ofFile, hfile] at h
  split at h
  · cases h
  · rename_i goals _
    delta ofProof at h
    simp only [Context.addText_of_readProof hread] at h
    split at h
    · cases h
    · cases h
    · -- only a check that answers yes is followed by a report
      rename_i hcheck
      exact ⟨hcheck, goals, h⟩

/-- The hypotheses that are reported are the assumptions of the main block, without the instances of
    the excluded middle. -/
private theorem mem_hypotheses_of_conclude {s : Script} {standing : Bindings} (hn : s.numbers.Nodup)
    (hlegible : Grammar.Legible s) {b : BlockId} (hmain : (s.context standing).main = some b)
    (σ : Bindings) (f : Formula) :
    f ∈ (dropExcludedMiddle σ ((s.context standing).blockType b).hypotheses).1 ↔
      (∃ l ∈ s.own, l.assumes ∧ l.formula = f) ∧ ¬ f.ExcludedMiddle := by
  have hown := Script.blockLines_main hn hmain
  rw [mem_dropExcludedMiddle, Context.mem_hypotheses_blockType, hown]
  -- hypotheses are formulas of lines, and these were read from a text
  intro g hg
  obtain ⟨l, hl, -, rfl⟩ := Context.mem_hypotheses_blockType.mp hg
  rw [hown] at hl
  exact (hlegible l (Script.mem_lines_iff.mpr ⟨_, s.whole_mem_worlds, hl⟩)).holeFree

/-- What is reported for a file whose proof is disciplined is valid.  The hypotheses of a sequent
    are the hypotheses and premises of the main block without the instances of the excluded middle,
    and every structure and assignment that makes them true makes the conclusion true. -/
theorem sequents_valid (standing : Bindings) (file : String) (s : Script) (q : Sequent)
    (hs : ProofReads file s) (hd : s.Disciplined) (h : q ∈ (ofFile standing file).sequents) :
    (∀ f, f ∈ q.hypotheses ↔
        (∃ l ∈ s.own, l.assumes ∧ l.formula = f) ∧ ¬ f.ExcludedMiddle) ∧
      Formula.Entailed.{u} q.hypotheses q.conclusion := by
  obtain ⟨hcheck, goals, hconclude⟩ := sequent_of_ofFile hs h
  obtain ⟨first, rest, -, hread⟩ := hs
  have hlegible : Grammar.Legible s := (Grammar.readProof_spec hread).2
  obtain ⟨b, σ, hmain, hconclusion, hhypotheses⟩ :=
    sequent_of_conclude (s.assembled_context standing) hcheck hconclude
  have hkept := mem_hypotheses_of_conclude hd.distinct hlegible hmain σ
  rw [← hhypotheses] at hkept
  refine ⟨hkept, ?_⟩
  obtain ⟨l, hl, hformula⟩ := Context.mem_results_blockType.mp hconclusion
  rw [Script.blockLines_main hd.distinct hmain] at hl
  intro D M ν htrue
  rw [← hformula]
  refine hd.entailed.{u} hlegible hcheck s.whole_mem_worlds hl D M ν fun f hf => ?_
  by_cases hexcluded : f.ExcludedMiddle
  · -- what was dropped is true anyway
    exact hexcluded.holds M ν
  · -- the main block has no block around it, so what it can see assumed it assumes itself
    obtain ⟨c, hc, k, hk, hassumes, rfl⟩ := World.mem_assumptions.mp hf
    obtain rfl := List.mem_singleton.mp hc
    exact htrue _ ((hkept _).mpr ⟨⟨k, hk, hassumes, rfl⟩, hexcluded⟩)

/-- A conclusion is deduced from a block that uses a premise from outside; the other premise is not
    mentioned in the report. -/
theorem sequents_valid_nested_block :
    let file := "(A /\\ C) -> B\n1. A -> B prem;\n2. A \\/ ~A prem;\n" ++
      "| 3. A /\\ C hyp;\n| 4. A simpl 3;\n| 5. B mp 1, 4;\n6. (A /\\ C) -> B ded 3-5;\n"
    let a : Formula := .atom "A"
    let b : Formula := .atom "B"
    let c : Formula := .atom "C"
    let s : Script :=
      .line ⟨1, .imp a b, ⟨"prem", []⟩⟩ <|
      .line ⟨2, .disj a (.neg a), ⟨"prem", []⟩⟩ <|
      .block (.line ⟨3, .conj a c, ⟨"hyp", []⟩⟩ <|
        .line ⟨4, a, ⟨"simpl", [3]⟩⟩ <|
        .line ⟨5, b, ⟨"mp", [1, 4]⟩⟩ .done) <|
      .line ⟨6, .imp (.conj a c) b, ⟨"ded", [3, 4, 5]⟩⟩ .done
    let q : Sequent := ⟨[.imp a b], .imp (.conj a c) b⟩
    (ProofReads file s ∧ s.Disciplined ∧ q ∈ (ofFile {} file).sequents) ∧
      (∀ f, f ∈ q.hypotheses ↔
        (∃ l ∈ s.own, l.assumes ∧ l.formula = f) ∧ ¬ f.ExcludedMiddle) ∧
      Formula.Entailed.{0} q.hypotheses q.conclusion := by
  intro file a b c s q
  have h : ProofReads file s ∧ s.Disciplined ∧ q ∈ (ofFile {} file).sequents := by
    refine ⟨⟨"(A /\\ C) -> B\n", ["1. A -> B prem;\n", "2. A \\/ ~A prem;\n",
      "| 3. A /\\ C hyp;\n", "| 4. A simpl 3;\n", "| 5. B mp 1, 4;\n",
      "6. (A /\\ C) -> B ded 3-5;\n"], ?_⟩, ?_, ?_⟩ <;> decide +kernel +revert
  exact ⟨h, sequents_valid {} file s q h.1 h.2.1 h.2.2⟩

end Report

end Sequitur
