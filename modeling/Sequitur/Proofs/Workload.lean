import Sequitur.Proofs.Repetition
import Sequitur.Proofs.Specialization
import Sequitur.Workload

/-!
# Work in any size

What the workloads answer in every size.

A context is checked over and over, from what the last check has left behind, but with no variable
in use.  The lines keep what they have in scope and the blocks their types, so each run starts with
more known than the first.  A line that the first run accepts is accepted with more known, and a
choice is as fresh as it was; so a proof that passes once passes every time.

A variable is renamed in a formula of any depth.  No layer binds the variable that is put in, so it
is found.

## Key results

- `reaches_abreast`: a run from a context in which more is known follows the first run
- `checkRepeatedly_of_check`: a proof that passes its check passes it any number of times
- `rename_about`: the renaming of the workload finds its variable in every size
-/

namespace Sequitur

namespace Context

variable {base left ctx ctx' again again' : Context} {accepted : List Int}
  {pending pending₁ pending₂ : List (List Int × BlockId)} {rest : List (Int × LineId)} {n : Int}
  {id : LineId}

/-! ## Checking with no variable in use -/

/-- Two runs of the same lines are at the same place, with the same variables in use.  The second
    knows more. -/
structure Abreast (ctx again : Context) : Prop where
  grows : Grows ctx again
  constants : again.constants ⊆ ctx.constants
  inScope : ∀ {j c}, ctx.InScope j c → again.InScope j c

/-- The runs stay together over a line that both accept. -/
theorem Abreast.step (h : Abreast ctx again) (hahead : Ahead base n id ctx again)
    (hadvances : ctx.Advances accepted pending n id pending₁ ctx')
    (hadvances' : again.Advances accepted pending n id pending₂ again') : Abreast ctx' again' := by
  have hlt : id < ctx.records.length := hahead.first.records_length ▸ hahead.lt
  have hlt' : id < again.records.length := hahead.second.records_length ▸ hahead.lt
  have hline : (again.record id).line = (ctx.record id).line := hahead.frame.line id
  refine ⟨⟨fun w hw => ?_, fun hb => ?_, fun hj => ?_⟩, fun w hw => ?_,
    hahead.inScope_step hadvances hadvances'⟩
  · rw [hadvances'.mem_constants_iff, hline]
    exact (hadvances.mem_constants_iff.mp hw).imp_left fun hw => h.grows.constants hw
  · exact hadvances'.typed_iff.mpr ((hadvances.typed_iff.mp hb).imp_left h.grows.types)
  · rw [hadvances'.isSome_argument_iff hlt']
    exact ((hadvances.isSome_argument_iff hlt).mp hj).imp_right h.grows.argument
  · rw [hadvances.mem_constants_iff, ← hline]
    exact (hadvances'.mem_constants_iff.mp hw).imp_left fun hw => h.constants hw

section

variable (hu : base.Unchecked) (hleft : Faithful base left) (hnone : left.constants = [])

include hu hleft hnone

/-- A run of the lines of `base` from a context in which whatever is known is true, and nothing is
    in use, follows the check of `base`. -/
theorem Unchecked.reaches_abreast (h : Reaches base accepted pending rest ctx) :
    ∃ again, Reaches left accepted pending rest again ∧ Abreast ctx again := by
  induction h with
  | start hmain hpremises =>
    obtain ⟨constants, hreaches, hconstants⟩ := hu.exists_start hleft.toFrame hmain hpremises
    obtain ⟨hscope, htypes, hargument⟩ := hu.bare_start hpremises
    rw [hnone] at hconstants
    simp only [List.not_mem_nil, false_or] at hconstants
    refine ⟨_, hreaches, ⟨fun w hw => (hconstants w).mpr hw, fun hb => ?_, fun hj => ?_⟩,
      fun w hw => (hconstants w).mp hw, fun hin => absurd hin (hscope _ _)⟩
    · rw [htypes] at hb
      cases hb
    · rw [hargument] at hj
      cases hj
  | @step ctx ctx₁ ctx₂ ctx₃ accepted pending pending' n id rest before hexamine hsymbols hcompile
      ih =>
    obtain ⟨again, hreaches, habreast⟩ := ih
    have hget := hu.get?_of_reaches before
    have hahead : Ahead base n id ctx again :=
      { get? := hget
        lt := hu.line_lt (Table.mem_of_get? hget)
        first := hu.faithful_reaches before
        second := (kept_faithful hu.toAssembled).reaches hu.get?_of_mem_sortedLines
          hleft.toFrame.sortedLines hleft hreaches
        grows := habreast.grows
        inScope := habreast.inScope }
    have hadvances : ctx.Advances accepted pending n id pending' ctx₃ :=
      ⟨ctx₁, ctx₂, hexamine, hsymbols, hcompile⟩
    -- a choice that the first run accepts is of a variable that is in use in neither
    have hfresh : ∀ w, base.Chooses n w → w ∉ again.constants := by
      intro w hw hin
      exact not_mem_constants_of_examine (hahead.first.lines ▸ hget) hexamine
        (hahead.first.chooses ▸ hw) (habreast.constants hin)
    obtain ⟨again', hadvances'⟩ := hahead.exists_advances hfresh hadvances
    exact ⟨again', hreaches.advance hadvances', habreast.step hahead hadvances hadvances'⟩

/-- A proof that passes its check passes from there as well. -/
theorem Unchecked.check_of_faithful (hcheck : base.check.result = .ok true) :
    left.check.result = .ok true := by
  obtain ⟨accepted, pending, hreaches, -⟩ := exists_reaches_end hcheck
  obtain ⟨again, hagain, -⟩ := hu.reaches_abreast hleft hnone hreaches
  exact hagain.check_of_done.1

end

end Context

namespace Workload

open Context

/-- From any context in which whatever is known is true. -/
private theorem checkRepeatedly_of_faithful {base left : Context} (hu : base.Unchecked)
    (hcheck : base.check.result = .ok true) (hleft : Faithful base left)
    (hnone : left.constants = []) (n : Nat) :
    checkRepeatedly n left = List.replicate n (.flag true) := by
  induction n generalizing left with
  | zero => rfl
  | succ n ih =>
    have hrun : left.check.result = .ok true := hu.check_of_faithful hleft hnone hcheck
    have hlines : ∀ e ∈ left.sortedLines, base.lines.get? e.1 = some e.2 := by
      rw [hleft.toFrame.sortedLines]
      exact hu.get?_of_mem_sortedLines
    -- what a run leaves behind is true, and taking variables out of use makes no difference to that
    have hkept : Faithful base left.check.context :=
      (kept_faithful hu.toAssembled).check hlines hleft
    have hnext : Faithful base { left.check.context with constants := [] } :=
      ⟨⟨hkept.lines, hkept.registered, hkept.blocks, hkept.main, hkept.records_length, hkept.line⟩,
        hkept.standing, hkept.housed, hkept.assumes, hkept.types⟩
    simp only [checkRepeatedly, answer, hrun, ih hnext rfl, List.replicate_succ]

/-- A proof that passes its check passes it any number of times, if no variable is in use before
    each check. -/
theorem checkRepeatedly_of_check {base : Context} (hbuilt : Built base)
    (hcheck : base.check.result = .ok true) (n : Nat) :
    checkRepeatedly n base = List.replicate n (.flag true) := by
  have hu := hbuilt.gathered.toUnchecked
  exact checkRepeatedly_of_faithful hu hcheck hu.faithful hu.constants_eq n

/-- A context that a text was read into was made by adding blocks. -/
private theorem built_contextOf (s : String) : Built (contextOf s) := by
  delta contextOf addText
  simp only
  split <;> exact built_addBlocks {} _

/-- The quantifier rules are found in order every time. -/
theorem quantified_eq (n : Nat) : quantified n = .list (List.replicate n (.flag true)) := by
  have hcheck : (contextOf quantifiedProof).check.result = .ok true := by decide +kernel
  rw [quantified, checkRepeatedly_of_check (built_contextOf _) hcheck]

/-- The proof with a block in a block is found in order every time. -/
theorem files_eq (n : Nat) :
    files n = .list (reports soundFile " |- " :: reports malformedFile "ParseException" ::
      List.replicate n (.flag true)) := by
  have hcheck : (contextOf nestedProof).check.result = .ok true := by decide +kernel
  rw [files, checkRepeatedly_of_check (built_contextOf _) hcheck]

/-! ## Renaming in any depth -/

open Formula

variable {v t w : Variable}

/-- Putting another variable for `v` gives the formula about that variable. -/
private theorem substitute_about (hv : v ≠ .named "k") (n : Nat) :
    (about v n).substitute v t = about t n := by
  have hbase : (pred "P" [v, .named "k"]).substitute v t = pred "P" [t, .named "k"] := by
    simp [substitute, hv.symm]
  induction n with
  | zero => exact hbase
  | succ i ih =>
    simp only [about]
    -- one case for each kind of layer
    split <;> simp only [substitute] at hbase ⊢ <;> simp only [ih, hbase]

/-- The formula is about `v`. -/
private theorem hasArgument_about (v : Variable) (n : Nat) : (about v n).HasArgument v := by
  induction n with
  | zero => exact List.mem_cons_self
  | succ i ih =>
    simp only [about]
    split <;> simp [HasArgument, ih]

/-- A layer is over a variable of its own. -/
private theorem boundIn_about {n : Nat} (h : (about v n).BoundIn w) :
    ∃ i : Nat, w = .named ("q" ++ toString i) ∨ w = .named ("e" ++ toString i) := by
  induction n with
  | zero => cases h
  | succ i ih =>
    simp only [about] at h
    split at h <;> simp only [BoundIn, or_false, false_or] at h
    · exact ih h
    · exact ih h
    · exact ih h
    · rcases h with rfl | h
      · exact ⟨i, .inl rfl⟩
      · exact ih h
    · rcases h with rfl | h
      · exact ⟨i, .inr rfl⟩
      · exact ih h

/-- The renaming finds the variable that was put in, in every size. -/
theorem rename_about (n : Nat) :
    rename x (about x n) (about (.named "c") n) none = ⟨none, some (.named "c")⟩ := by
  rw [rename_none_iff, ← substitute_about (v := x) (t := .named "c") (by decide)]
  refine finds_substitute (hasArgument_about x n) fun hbound => ?_
  -- the names of the layers begin with other letters
  obtain ⟨i, h | h⟩ := boundIn_about hbound
  all_goals
    have hletters := congrArg (fun v : Variable => v.name.toList) h
    simp [Variable.name] at hletters

end Workload

end Sequitur
