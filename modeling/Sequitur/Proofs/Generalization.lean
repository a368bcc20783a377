import Sequitur.Proofs.FreeVariables
import Sequitur.Proofs.Provenance
import Sequitur.Proofs.Reading
import Sequitur.Proofs.Semantics
import Sequitur.Report

/-!
# Universal generalizations

A universal generalization is accepted when the name that it generalizes is in the scope of the line
that it cites.  So the name was introduced by a universal instantiation, and it was not free in the
formula that was instantiated.

That is all that is asked.  The name may be free in the generalized formula itself and in hypotheses
and premises that the line depends on by other ways; and the names that it depends on may stand in
the generalized formula.

## Key results

- `generalization_admitted_iff`: when a universal generalization is accepted
- `exists_introduction_of_check`: every generalized variable was introduced where it was not free
-/

namespace Sequitur

/-! ## Variables that are found -/

/-- What is found among named arguments is named. -/
private theorem Renaming.isNamed_arguments {v : Variable} {xs ys : List Variable}
    {found : Option Variable} (hys : ys.all Variable.isNamed)
    (hfound : found.all Variable.isNamed) :
    (arguments v xs ys found).found.all Variable.isNamed := by
  -- what is found is what was there, or the argument opposite the first place
  fun_induction arguments v xs ys found with
  | case1 as b bs ih => simp_all
  | case2 as b bs ih => simp_all
  | case3 as b bs c h => exact hfound
  | case4 a as b bs found h ih => simp_all
  | case5 => exact hfound

namespace Formula

/-- What is found in a formula without holes is named. -/
private theorem isNamed_rename {v : Variable} {p q : Formula} {found : Option Variable}
    (hq : q.holeFree) (hfound : found.all Variable.isNamed) :
    (rename v p q found).found.all Variable.isNamed := by
  -- a step passes on what was found before, or looks among arguments
  fun_induction rename v p q found <;> simp_all [holeFree, Renaming.isNamed_arguments]

/-- What a variable is renamed to in a formula without holes is named. -/
private theorem isNamed_of_renamed {v w : Variable} {p q : Formula} (hq : q.holeFree)
    (h : renamed v p q = .ok w) : w.isNamed := by
  have hnamed : (rename v p q none).found.all Variable.isNamed := isNamed_rename hq rfl
  unfold renamed at h
  split at h
  · cases h
  · cases h
  · rename_i hfound
    cases h
    simpa [hfound] using hnamed

end Formula

/-- Named variables are told by their names. -/
private theorem Variable.eq_of_name_eq {v w : Variable} (hv : v.isNamed) (hw : w.isNamed)
    (h : v.name = w.name) : v = w := by
  cases v <;> cases w <;> simp_all [isNamed, name]

namespace Context

open Relation

/-- Between formulas without holes a named variable is found. -/
private theorem isNamed_of_instantiated_of_holeFree {v w : Variable} {body inst : Formula}
    (hinst : inst.holeFree) (h : instantiated v body inst = .ok w) : w.isNamed := by
  unfold instantiated at h
  split at h
  · exact Formula.isNamed_of_renamed hinst h
  · cases h

variable {base ctx ctx' : Context} {accepted : List Int} {pending : List (List Int × BlockId)}
  {rest : List (Int × LineId)} {n m : Int} {id : LineId} {c d : String}

/-! ## Generalizations -/

/-- A line generalizes one variable. -/
theorem Generalizes.unique {w w' : Variable} (h : ctx.Generalizes n w) (h' : ctx.Generalizes n w') :
    w = w' := by
  obtain ⟨l, k, hfrom, v, body, hf, hfound⟩ := h
  obtain ⟨l', k', hfrom', v', body', hf', hfound'⟩ := h'
  obtain ⟨rfl, rfl⟩ := hfrom.unique hfrom'
  cases hf.symm.trans hf'
  rw [hfound, Except.ok.injEq] at hfound'
  exact hfound'

/-- A universal generalization that comes up is accepted when its symbols are in order and a lower
    line that it cites carries the name of the variable that it generalizes. -/
theorem Unchecked.admits_ug_iff (hu : base.Unchecked)
    (h : Reaches base accepted pending ((n, id) :: rest) ctx)
    (hrule : (ctx.record id).line.reason.rule = "ug") :
    ctx.Admits id ↔ (∃ s, (ctx.record id).line.formula.symbols = .ok s) ∧
      ∃ w m, base.Generalizes n w ∧ base.Descends n m ∧ base.Carries m w.name := by
  have hf := h.frame
  have hscoped := hu.scoped h
  have hget := hu.get?_of_reaches h
  have hget' : ctx.lines.get? n = some id := by
    rw [hf.lines]
    exact hget
  have hlt : id < ctx.records.length := by
    rw [hf.records_length]
    exact hu.line_lt (Table.mem_of_get? hget)
  -- the scopes at the moment are those that the lines tell
  rw [admits_iff, exists_examine_ug_iff hget' hlt hscoped.housed hrule]
  simp only [hscoped.exists_inScope_iff hf (hu.mem_accepted_iff h) hget, hf.generalizes,
    exists_and_left]
  constructor
  · exact fun hadmits => hadmits.1
  · exact fun hadmits => ⟨hadmits, hadmits.1⟩

/-- A universal generalization that comes up in a check of blocks in a new context is accepted when
    its symbols are in order and a lower line that it cites carries the name that it generalizes.
    What the name depends on is not asked for; each name that a name depends on was chosen by an
    existential instantiation which the line leads down to and which carries the latter. -/
theorem generalization_admitted_iff (standing : Bindings) (blocks : List (List Line))
    (accepted : List Int) (pending : List (List Int × BlockId)) (n : Int) (id : LineId)
    (rest : List (Int × LineId)) (ctx : Context)
    (h : Reaches (({ standing := standing } : Context).addBlocks blocks) accepted pending
      ((n, id) :: rest) ctx)
    (hrule : (ctx.record id).line.reason.rule = "ug") :
    (ctx.Admits id ↔ (∃ s, (ctx.record id).line.formula.symbols = .ok s) ∧
      ∃ w m, ctx.Generalizes n w ∧ ctx.Descends n m ∧ ctx.Carries m w.name) ∧
    ∀ arg vars c D, ctx.interpret (ctx.record id).line.reason = .ok (arg, vars) →
      vars.get? c = some D → ∀ d ∈ D, ∃ e w, TransGen ctx.Descends n e ∧ ctx.Chooses e w ∧
        w.name = d ∧ ctx.Carries e c := by
  have hu := unchecked_addBlocks standing blocks
  generalize ({ standing := standing } : Context).addBlocks blocks = base at h hu
  have hf := h.frame
  rw [hf.generalizes, hf.descends, hf.carries, hf.chooses]
  refine ⟨hu.admits_ug_iff h hrule, fun arg vars c D hinterpret hD d hd => ?_⟩
  -- a name in scope comes from a cited line, with what it depends on there
  obtain ⟨ids, hids, rfl, -⟩ := interpret_eq_ok.mp hinterpret
  obtain ⟨t, ht, hdepends⟩ :=
    VariableContext.depends_of_combine ⟨D, Table.mem_of_get? hD, hd⟩
  obtain ⟨k, hk, rfl⟩ := List.mem_map.mp ht
  obtain ⟨m, hdescends, e, w, hchain, hchosen⟩ := (hu.scoped h).tied_of_cited hf
    (hu.mem_accepted_iff h) (hu.get?_of_reaches h) hids ⟨k, hk, hdepends⟩
  exact ⟨e, w, .head' hdescends hchain, hchosen⟩

/-- A generalization of a name on which a choice depends. -/
theorem generalization_admitted_iff_dependent :
    let p (u v : String) : Formula := .pred "P" [.named u, .named v]
    let blocks : List (List Line) := [[
      ⟨1, .all (.named "x") (.ex (.named "y") (p "x" "y")), ⟨"prem", []⟩⟩,
      ⟨2, .ex (.named "y") (p "a" "y"), ⟨"ui", [1]⟩⟩, ⟨3, p "a" "b", ⟨"ei", [2]⟩⟩,
      ⟨4, .all (.named "x") (p "x" "b"), ⟨"ug", [3]⟩⟩]]
    ∃ accepted pending rest ctx,
      (Reaches (({} : Context).addBlocks blocks) accepted pending ((4, 3) :: rest) ctx ∧
        (ctx.record 3).line.reason.rule = "ug" ∧ ctx.Admits 3) ∧
      (ctx.Admits 3 ↔ (∃ s, (ctx.record 3).line.formula.symbols = .ok s) ∧
        ∃ w m, ctx.Generalizes 4 w ∧ ctx.Descends 4 m ∧ ctx.Carries m w.name) ∧
      ∀ arg vars c D, ctx.interpret (ctx.record 3).line.reason = .ok (arg, vars) →
        vars.get? c = some D → ∀ d ∈ D, ∃ e w, TransGen ctx.Descends 4 e ∧ ctx.Chooses e w ∧
          w.name = d ∧ ctx.Carries e c := by
  intro p blocks
  have hcheck : (({} : Context).addBlocks blocks).check.result = .ok true := by
    decide +kernel +revert
  have hmem : (4, 3) ∈ (({} : Context).addBlocks blocks).lines.entries := by
    clear hcheck
    decide +kernel +revert
  obtain ⟨accepted, pending, rest, ctx, hreaches, hadmits⟩ := exists_reaches_of_check hcheck hmem
  have hrule : (ctx.record 3).line.reason.rule = "ug" := by
    rw [hreaches.frame.line]
    clear hreaches hadmits hmem hcheck
    decide +kernel +revert
  exact ⟨accepted, pending, rest, ctx, ⟨hreaches, hrule, hadmits⟩,
    generalization_admitted_iff {} blocks accepted pending 4 3 rest ctx hreaches hrule⟩

/-- What the generalized name depends on may stand in the generalized formula, so that quantifiers
    change places. -/
theorem dependent_generalization_passes :
    let text := "1. forall x, exists y, P(x, y) prem; 2. exists y, P(a, y) ui 1; " ++
      "3. P(a, b) ei 2; 4. forall x, P(x, b) ug 3; 5. exists y, forall x, P(x, y) eg 4;"
    let p (u v : String) : Formula := .pred "P" [.named u, .named v]
    let base := ({} : Context).addBlocks [[
      ⟨1, .all (.named "x") (.ex (.named "y") (p "x" "y")), ⟨"prem", []⟩⟩,
      ⟨2, .ex (.named "y") (p "a" "y"), ⟨"ui", [1]⟩⟩, ⟨3, p "a" "b", ⟨"ei", [2]⟩⟩,
      ⟨4, .all (.named "x") (p "x" "b"), ⟨"ug", [3]⟩⟩,
      ⟨5, .ex (.named "y") (.all (.named "x") (p "x" "y")), ⟨"eg", [4]⟩⟩]]
    (({} : Context).addText text = (none, base) ∧ base.check.result = .ok true) ∧
    ∃ accepted pending rest ctx arg vars,
      (Reaches base accepted pending ((4, 3) :: rest) ctx ∧ ctx.Admits 3) ∧
      ctx.Generalizes 4 (.named "a") ∧
      ctx.interpret (ctx.record 3).line.reason = .ok (arg, vars) ∧ vars.get? "a" = some ["b"] ∧
      (p "x" "b").uses (.named "b") = true := by
  intro text p base
  refine ⟨⟨by decide +kernel +revert, by decide +kernel +revert⟩, ?_⟩
  -- the moment after three lines
  let start := (base.usePremises (base.sortedLines.map Prod.snd)).2
  let run := start.checkLines [] start.registered.entries [(1, 0), (2, 1), (3, 2)]
  have hsorted : base.sortedLines = [(1, 0), (2, 1), (3, 2)] ++ [(4, 3), (5, 4)] := by
    decide +kernel +revert
  have hpremises : (base.usePremises (base.sortedLines.map Prod.snd)).1 = .ok () := by
    clear hsorted
    decide +kernel +revert
  have hrun : run.result = .ok true := by
    clear hsorted hpremises
    decide +kernel +revert
  have hfacts : (run.context.examine 3).1 = .ok () ∧
      run.context.line? 4 = some ⟨4, .all (.named "x") (p "x" "b"), ⟨"ug", [3]⟩⟩ ∧
      run.context.line? 3 = some ⟨3, p "a" "b", ⟨"ei", [2]⟩⟩ ∧
      (run.context.record 3).line.formula.symbols =
        .ok ⟨[.named "x", .named "x", .named "b"], [.named "x"]⟩ ∧
      run.context.interpret (run.context.record 3).line.reason =
        .ok (.universalGeneralization ⟨2, 3, p "a" "b"⟩, ⟨[("a", ["b"])]⟩) := by
    clear hsorted hpremises hrun
    decide +kernel +revert
  obtain ⟨hexamine, hline₄, hline₃, hsymbols, hinterpret⟩ := hfacts
  have hstart : Reaches base [] start.registered.entries base.sortedLines start :=
    .start rfl (Prod.ext hpremises rfl)
  rw [hsorted] at hstart
  have haccepts : Accepts start [] start.registered.entries [(1, 0), (2, 1), (3, 2)] run.context :=
    checkLines_eq_true.mp ⟨hrun, rfl⟩
  obtain ⟨accepted, pending, hreaches⟩ := Reaches.of_accepts haccepts hstart
  clear_value run
  refine ⟨accepted, pending, _, run.context, _, _, ⟨hreaches, ?_⟩, ?_, hinterpret, rfl, rfl⟩
  · exact admits_iff.mpr ⟨⟨_, Prod.ext hexamine rfl⟩, _, hsymbols⟩
  · exact ⟨_, _, ⟨hline₄, 3, rfl, hline₃⟩, .named "x", _, rfl, by decide +kernel⟩

/-! ## Proofs that were read -/

/-- The places of a new context to which blocks were added hold the lines of the blocks. -/
private theorem records_addBlocks (standing : Bindings) (bs : List (List Line)) :
    (({ standing := standing } : Context).addBlocks bs).records = bs.flatten.map Record.fresh := by
  induction bs using List.reverseRecOn with
  | nil => rfl
  | append_singleton bs ls ih =>
    rw [addBlocks_concat, addBlock_eq]
    simp [ih]

/-- A line of a new context to which blocks were added is a line of the blocks. -/
private theorem mem_flatten_of_line? {standing : Bindings} {bs : List (List Line)} {l : Line}
    (h : (({ standing := standing } : Context).addBlocks bs).line? n = some l) :
    l ∈ bs.flatten := by
  obtain ⟨j, hj, rfl⟩ := Option.map_eq_some_iff.mp h
  have hlt := (assembled_addBlocks standing bs).line_lt (Table.mem_of_get? hj)
  have hmem := List.getElem_mem hlt
  simp only [records_addBlocks] at hmem
  obtain ⟨l, hl, hfresh⟩ := List.mem_map.mp hmem
  rw [record, List.getD_eq_getElem?_getD, List.getElem?_eq_getElem hlt, Option.getD_some]
  simp only [records_addBlocks, ← hfresh]
  exact hl

/-- A text that is read as a whole gives the context of a script without holes. -/
private theorem exists_script_of_addText {standing : Bindings} {text : String}
    (h : ({ standing := standing } : Context).addText text = (none, ctx)) :
    ∃ s, Grammar.Legible s ∧ ctx = s.context standing := by
  delta addText at h
  simp only at h
  split at h
  · cases h
  · rename_i s hs
    cases h
    obtain ⟨hblocks, hlegible⟩ := Grammar.readProof_spec hs
    exact ⟨s, hlegible, by rw [Script.context, hblocks]⟩

/-- In a proof that passes its check, each variable that is generalized was introduced by a
    universal instantiation of a formula in which it is not free.  The generalization cites a line
    that it was handed on to, by citations of lower lines none of which is by a line that
    generalizes the same name. -/
theorem exists_introduction_of_check (standing : Bindings) (text : String) (ctx : Context)
    (hread : ({ standing := standing } : Context).addText text = (none, ctx))
    (hcheck : ctx.check.result = .ok true) (n : Int) (w : Variable) (hw : ctx.Generalizes n w) :
    ∃ m u v body, ctx.Descends n m ∧ ReflTransGen (ctx.Hands w.name) m u ∧
      ctx.Introduces u v body w ∧ ¬ (Formula.all v body).FreeIn w := by
  obtain ⟨s, hlegible, rfl⟩ := exists_script_of_addText hread
  have hu : (s.context standing).Unchecked := unchecked_addBlocks standing s.blocks
  have hholes : ∀ {n l}, (s.context standing).line? n = some l → l.formula.holeFree :=
    fun hl => (hlegible _ (mem_flatten_of_line? hl)).holeFree
  -- the line comes up in the check and is accepted
  have hgen := hw
  obtain ⟨l, k, ⟨hl, j, hreason, hk⟩, v₀, body₀, -, hfound⟩ := hgen
  obtain ⟨id, hid, rfl⟩ := Option.map_eq_some_iff.mp hl
  obtain ⟨accepted, pending, rest, ctx', hreaches, hadmits⟩ :=
    exists_reaches_of_check hcheck (Table.mem_of_get? hid)
  have hrule : (ctx'.record id).line.reason.rule = "ug" := by
    rw [hreaches.frame.line, hreason]
  obtain ⟨-, w₁, m, hw₁, hdescends, u, v, body, w₂, hchain, hintro, hname⟩ :=
    (hu.admits_ug_iff hreaches hrule).mp hadmits
  obtain rfl := hw.unique hw₁
  obtain ⟨l', k', ⟨hl', m', hreason', hk'⟩, hall, hfound', hfresh⟩ := hintro
  -- without holes a variable is told by its name
  obtain rfl : w₂ = w := Variable.eq_of_name_eq
    (isNamed_of_instantiated_of_holeFree (hholes hl') hfound')
    (isNamed_of_instantiated_of_holeFree (hholes hk) hfound) hname
  exact ⟨m, u, v, body, hdescends, hchain,
    ⟨l', k', ⟨hl', m', hreason', hk'⟩, hall, hfound', hfresh⟩, Formula.not_freeIn_all hfresh⟩

/-- A variable is generalized after a premise about something else was joined in. -/
theorem exists_introduction_of_check_joined :
    let text := "1. forall x, P(x) prem; 2. Q(b) prem; 3. P(a) ui 1; " ++
      "4. P(a) /\\ Q(b) conj 3, 2; 5. forall x, P(x) /\\ Q(b) ug 4;"
    let f (u : String) : Formula := .conj (.pred "P" [.named u]) (.pred "Q" [.named "b"])
    let ctx := ({} : Context).addBlocks [[
      ⟨1, .all (.named "x") (.pred "P" [.named "x"]), ⟨"prem", []⟩⟩,
      ⟨2, .pred "Q" [.named "b"], ⟨"prem", []⟩⟩, ⟨3, .pred "P" [.named "a"], ⟨"ui", [1]⟩⟩,
      ⟨4, f "a", ⟨"conj", [3, 2]⟩⟩, ⟨5, .all (.named "x") (f "x"), ⟨"ug", [4]⟩⟩]]
    (({} : Context).addText text = (none, ctx) ∧ ctx.check.result = .ok true ∧
      ctx.Generalizes 5 (.named "a")) ∧
    ∃ m u v body, ctx.Descends 5 m ∧ ReflTransGen (ctx.Hands "a") m u ∧
      ctx.Introduces u v body (.named "a") ∧ ¬ (Formula.all v body).FreeIn (.named "a") := by
  intro text f ctx
  have hread : ({} : Context).addText text = (none, ctx) := by decide +kernel +revert
  have hcheck : ctx.check.result = .ok true := by
    clear hread
    decide +kernel +revert
  have hlines : ctx.line? 5 = some ⟨5, .all (.named "x") (f "x"), ⟨"ug", [4]⟩⟩ ∧
      ctx.line? 4 = some ⟨4, f "a", ⟨"conj", [3, 2]⟩⟩ := by
    clear hread hcheck
    decide +kernel +revert
  have hgen : ctx.Generalizes 5 (.named "a") :=
    ⟨_, _, ⟨hlines.1, 4, rfl, hlines.2⟩, .named "x", _, rfl, by decide +kernel⟩
  exact ⟨⟨hread, hcheck, hgen⟩,
    exists_introduction_of_check {} text ctx hread hcheck 5 (.named "a") hgen⟩

/-- A variable is generalized that is free in the generalized formula and in a premise that the line
    depends on. -/
theorem generalized_free_passes :
    let text := "1. forall x, P(x, x) prem; 2. Q(a) prem; 3. P(a, a) ui 1; " ++
      "4. P(a, a) /\\ Q(a) conj 3, 2; 5. forall x, P(x, a) /\\ Q(x) ug 4;"
    let p (u v : String) : Formula := .pred "P" [.named u, .named v]
    let ctx := ({} : Context).addBlocks [[
      ⟨1, .all (.named "x") (p "x" "x"), ⟨"prem", []⟩⟩,
      ⟨2, .pred "Q" [.named "a"], ⟨"prem", []⟩⟩, ⟨3, p "a" "a", ⟨"ui", [1]⟩⟩,
      ⟨4, .conj (p "a" "a") (.pred "Q" [.named "a"]), ⟨"conj", [3, 2]⟩⟩,
      ⟨5, .all (.named "x") (.conj (p "x" "a") (.pred "Q" [.named "x"])), ⟨"ug", [4]⟩⟩]]
    (({} : Context).addText text = (none, ctx) ∧ ctx.check.result = .ok true) ∧
      ctx.Generalizes 5 (.named "a") ∧
      (∃ l, ctx.line? 5 = some l ∧ l.formula.FreeIn (.named "a")) ∧
      ∃ l, TransGen ctx.Cites 5 2 ∧ ctx.line? 2 = some l ∧ l.assumes ∧
        l.formula.FreeIn (.named "a") := by
  intro text p ctx
  have hlines : ctx.line? 5 = some ⟨5, .all (.named "x") (.conj (p "x" "a")
        (.pred "Q" [.named "x"])), ⟨"ug", [4]⟩⟩ ∧
      ctx.line? 4 = some ⟨4, .conj (p "a" "a") (.pred "Q" [.named "a"]), ⟨"conj", [3, 2]⟩⟩ ∧
      ctx.line? 2 = some ⟨2, .pred "Q" [.named "a"], ⟨"prem", []⟩⟩ := by decide +kernel +revert
  refine ⟨⟨?_, ?_⟩, ?_, ⟨_, hlines.1, by decide⟩, _, ?_, hlines.2.2, rfl, by decide⟩
  · clear hlines
    decide +kernel +revert
  · clear hlines
    decide +kernel +revert
  · exact ⟨_, _, ⟨hlines.1, 4, rfl, hlines.2.1⟩, .named "x", _, rfl, by decide +kernel⟩
  · exact .head ⟨_, hlines.1, by decide⟩ (.single ⟨_, hlines.2.1, by decide⟩)

end Context

end Sequitur
