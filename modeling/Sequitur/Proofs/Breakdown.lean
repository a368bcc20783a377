import Sequitur.Proofs.Completion
import Sequitur.Proofs.Reading
import Sequitur.Proofs.Registration

/-!
# Checks that break off

A refusal answers a check, a fault breaks it off.  Faults come from the reason of a line alone: it
cites a number that no line bears, it names a rule that takes another number of lines, or it deduces
from nothing or from a block that is not complete.  Once a reason has become an argument, verifying
it can only refuse.

So for a proof that was read, in which no number repeats and every block has a line, one can tell
from the first line that is not accepted whether the check breaks off there, and how
(`Script.Breaks`).

## Key results

- `examine_eq_fault_iff`: an examination has a fault when the reason of the line has no meaning
- `Script.examine_eq_fault_iff_breaks`: which faults a line has when it comes up
- `Script.check_breaks_off_iff`: when a check breaks off, and what else happens
-/

namespace Sequitur

/-! ## Arguments -/

/-- The number of lines that a rule takes. -/
def Rule.arity : Rule → Nat
  | .assumption => 0
  | .simplification | .addition | .replacement _ | .existentialInstantiation
  | .existentialGeneralization | .universalInstantiation | .universalGeneralization => 1
  | .modusPonens | .modusTollens | .hypotheticalSyllogism | .disjunctiveSyllogism | .conjunction
  | .disjunction => 2
  | .disjunctiveElimination => 3

/-- A rule is applied to as many lines as it takes. -/
private theorem Rule.argument?_eq_none_iff {r : Rule} {cs : List Cited} :
    r.argument? cs = none ↔ cs.length ≠ r.arity := by
  -- no rule takes more than three lines
  rcases cs with _ | ⟨a, _ | ⟨b, _ | ⟨c, _ | ⟨d, cs⟩⟩⟩⟩ <;> cases r <;>
    simp [argument?, arity]

namespace Context

variable {base ctx ctx' : Context} {accepted : List Int} {pending : List (List Int × BlockId)}
  {rest : List (Int × LineId)} {n : Int} {id : LineId}

/-- Citing fails at the first number that no line bears. -/
private theorem cite_eq_error_iff {ns : List Int} {f : Fault} :
    ctx.cite ns = .error f ↔ ∃ before m after, ns = before ++ m :: after ∧
      (∀ k ∈ before, k ∈ ctx.lines.keys) ∧ m ∉ ctx.lines.keys ∧ f = .missingLine m := by
  have hkeys : ∀ {m}, m ∈ ctx.lines.keys ↔ ∃ j, ctx.lines.get? m = some j := by
    intro m
    rw [← Table.contains_iff, Table.contains, Option.isSome_iff_exists]
  induction ns with
  | nil => simp [cite]
  | cons n ns ih =>
    simp only [cite]
    split
    · -- the first number is missing
      rename_i hnone
      have habsent : n ∉ ctx.lines.keys := by simp [hkeys, hnone]
      constructor
      · intro h
        cases h
        exact ⟨[], n, ns, rfl, by simp, habsent, rfl⟩
      · rintro ⟨before, m, after, heq, hbefore, -, rfl⟩
        cases before with
        | nil => cases heq; rfl
        | cons k before => cases heq; exact absurd (hbefore _ List.mem_cons_self) habsent
    · rename_i j hj
      -- the first number is a line's, so that citing fails where the rest does
      have hpresent : n ∈ ctx.lines.keys := hkeys.mpr ⟨j, hj⟩
      constructor
      · intro h
        split at h
        · rename_i hrest
          cases h
          obtain ⟨before, m, after, rfl, hbefore, hmissing⟩ := ih.mp hrest
          exact ⟨n :: before, m, after, rfl, List.forall_mem_cons.mpr ⟨hpresent, hbefore⟩,
            hmissing⟩
        · cases h
      · rintro ⟨before, m, after, heq, hbefore, habsent, hf⟩
        cases before with
        | nil => cases heq; exact absurd hpresent habsent
        | cons k before =>
          cases heq
          rw [ih.mpr ⟨before, m, after, rfl, (List.forall_mem_cons.mp hbefore).2, habsent, hf⟩]

/-- A deduction has a fault when it cites nothing or the block that it cites has no type. -/
private theorem deduction_eq_fault_iff {ns : List Int} {f : Fault} :
    ctx.deduction ns = .error (.fault f) ↔
      ctx.registered.get? (sortNumbers ns) = none ∧ ns = [] ∧ f = .nothingCited ∨
        ∃ b, ctx.registered.get? (sortNumbers ns) = some b ∧ ctx.types.get? b = none ∧
          f = .untypedBlock (ctx.blockText b) := by
  unfold deduction
  split
  · rename_i hnone
    split
    · rename_i hmin hmax
      -- numbers that are no block's are refused, unless there are none
      have hne : ns ≠ [] := by rintro rfl; cases hmin
      simp [hnone, hne]
    · rename_i hnot
      have hnil : ns = [] := by
        cases ns with
        | nil => rfl
        | cons m ns => exact absurd List.max?_cons' (hnot _ _ List.min?_cons')
      subst hnil
      simp [hnone, eq_comm]
  · rename_i b hb
    split
    · rename_i htype
      simp [hb, htype, eq_comm]
    · rename_i htype
      split <;> simp [hb, htype]

/-- A reason has a fault when a citation is missing, the count of citations is wrong or the
    deduction has one. -/
private theorem interpret_eq_fault_iff {reason : Reason} {f : Fault} :
    ctx.interpret reason = .error (.fault f) ↔
      ctx.cite reason.citations = .error f ∨ (∃ ids, ctx.cite reason.citations = .ok ids) ∧
        (reason.rule = deductionName ∧ ctx.deduction reason.citations = .error (.fault f) ∨
          ∃ r, Rule.ofName? reason.rule = some r ∧ reason.citations.length ≠ r.arity ∧
            f = .wrongCitationCount) := by
  unfold interpret
  split
  · rename_i g hg
    simp [hg]
  · rename_i ids hids
    -- as many lines are handed to a rule as are cited
    have hlength : (ids.map ctx.cited).length = reason.citations.length := by
      have := congrArg List.length (map_get?_of_cite hids)
      simpa using this.symm
    simp only [hids]
    split
    · rename_i hrule
      -- the name of the deduction is that of no rule
      have hunnamed : Rule.ofName? reason.rule = none := by rw [hrule]; rfl
      split <;> simp_all
    · rename_i hrule
      split
      · rename_i hunnamed
        simp [hrule, hunnamed]
      · rename_i r hnamed
        split
        · rename_i hnone
          rw [Rule.argument?_eq_none_iff, hlength] at hnone
          simp [hrule, hnamed, hnone, eq_comm]
        · rename_i arg harg
          have hcount : ¬ (reason.citations.length ≠ r.arity) := by
            rw [← hlength, ← Rule.argument?_eq_none_iff, harg]
            simp
          simp_all

/-- Verifying an argument has no fault. -/
private theorem verify_ne_fault (ctx : Context) (id : LineId) (arg : Argument) (f : Fault) :
    (ctx.verify id arg).1 ≠ .error (.fault f) := by
  -- the quantifier rules refuse at most
  have hmap : ∀ r : Except Refusal Unit, r.mapError Failure.refusal ≠ .error (.fault f) := by
    intro r
    cases r <;> simp [Except.mapError]
  unfold verify
  split
  · exact hmap _
  · exact hmap _
  · exact hmap _
  · exact hmap _
  · -- the other arguments are checked by their formulas, which yields or refuses
    rename_i hui hug hei heg
    have htypecheck : ∀ σ g, (arg.typecheck σ g).1 ≠ .error (.fault f) := by
      intro σ g
      have hmap : ∀ r : Except Refusal Bool, r.mapError Failure.refusal ≠ .error (.fault f) := by
        intro r
        cases r <;> simp [Except.mapError]
      cases arg with
      | replacement law old =>
        rw [Argument.typecheck]
        split <;> simp
      | assumption => simp [Argument.typecheck]
      | existentialInstantiation q => exact absurd rfl (hei q)
      | existentialGeneralization q => exact absurd rfl (heg q)
      | universalInstantiation q => exact absurd rfl (hui q)
      | universalGeneralization q => exact absurd rfl (hug q)
      | _ => exact hmap _
    have hcheck := htypecheck ctx.standing (ctx.record id).line.formula
    unfold verifyFormulas
    simp only
    split
    · rename_i heq
      rw [heq] at hcheck
      simpa using hcheck
    · simp
    · simp

/-- An examination has a fault when the reason of the line has one. -/
theorem examine_eq_fault_iff {f : Fault} :
    (ctx.examine id).1 = .error (.fault f) ↔
      ctx.interpret (ctx.record id).line.reason = .error (.fault f) := by
  unfold examine
  split
  · rename_i e he
    simp [he]
  · rename_i arg vars hinterpret
    simp [hinterpret, verify_ne_fault]

/-- Citing succeeds when every number is a line's. -/
theorem exists_cite_iff {ns : List Int} :
    (∃ ids, ctx.cite ns = .ok ids) ↔ ∀ k ∈ ns, k ∈ ctx.lines.keys := by
  constructor
  · rintro ⟨ids, hids⟩ k hk
    have hget := List.mem_map_of_mem (f := ctx.lines.get?) hk
    rw [map_get?_of_cite hids] at hget
    obtain ⟨j, -, hj⟩ := List.mem_map.mp hget
    exact List.mem_map_of_mem (Table.mem_of_get? hj.symm)
  · intro hall
    cases hcite : ctx.cite ns with
    | ok ids => exact ⟨ids, rfl⟩
    | error f =>
      obtain ⟨before, m, after, rfl, -, habsent, -⟩ := cite_eq_error_iff.mp hcite
      exact absurd (hall m (by simp)) habsent

/-- Where the symbols of all lines are in order, those of the premises are. -/
private theorem exists_usePremises (ctx : Context) {ids : List LineId}
    (h : ∀ j ∈ ids, ∃ s, (ctx.record j).line.formula.symbols = .ok s) :
    ∃ ctx', ctx.usePremises ids = (.ok (), ctx') := by
  induction ids generalizing ctx with
  | nil => exact ⟨ctx, rfl⟩
  | cons j ids ih =>
    -- the variables that one premise brings into use do not change the lines
    rw [List.forall_mem_cons] at h
    obtain ⟨s, hs⟩ := h.1
    simp only [usePremises, useSymbols, hs]
    split
    · exact ih (ctx.addConstants s.unbound) h.2
    · exact ih ctx h.2

end Context

/-- The symbols of a formula without holes are in order. -/
theorem Formula.exists_symbols {f : Formula} (h : f.holeFree) : ∃ s, f.symbols = .ok s := by
  induction f with
  | truth | atom | hole | term | pred => exact ⟨_, rfl⟩
  | conj p q ihp ihq | disj p q ihp ihq | imp p q ihp ihq =>
    obtain ⟨hp, hq⟩ := Bool.and_eq_true_iff.mp h
    obtain ⟨s, hs⟩ := ihp hp
    obtain ⟨t, ht⟩ := ihq hq
    exact ⟨s.merge t, by simp only [symbols, hs, ht]⟩
  | all v p ih | ex v p ih =>
    obtain ⟨hv, hp⟩ := Bool.and_eq_true_iff.mp h
    obtain ⟨s, hs⟩ := ih hp
    exact ⟨s.bind v, by simp only [symbols, hv, hs, if_true]⟩

/-! ## Proofs -/

namespace Script

/-- What the line `l` has to be like for the check of the script to break off at it, and the fault
    that breaks it off. -/
inductive Breaks (s : Script) (l : Line) : Fault → Prop
  /-- A citation is to no line; the first such one counts. -/
  | missing {before after : List Int} {m : Int} (cited : l.reason.citations = before ++ m :: after)
      (found : ∀ k ∈ before, k ∈ s.numbers) (absent : m ∉ s.numbers) : Breaks s l (.missingLine m)
  /-- The rule takes another number of lines. -/
  | count {r : Rule} (named : Rule.ofName? l.reason.rule = some r)
      (found : ∀ k ∈ l.reason.citations, k ∈ s.numbers)
      (count : l.reason.citations.length ≠ r.arity) : Breaks s l .wrongCitationCount
  /-- A deduction from nothing. -/
  | nothing (deduces : l.reason.rule = deductionName) (cited : l.reason.citations = []) :
      Breaks s l .nothingCited
  /-- A deduction from the lines of a block one of which does not come before. -/
  | early {ls : List Line} {k : Line} (deduces : l.reason.rule = deductionName)
      (block : ls ∈ s.blocks) (cited : l.reason.citations.Perm (ls.map Line.number))
      (line : k ∈ ls) (late : l.number ≤ k.number) :
      Breaks s l (.untypedBlock (String.intercalate "\n" (ls.map Line.text)))

/-- Of the lines of the script that the run does not accept, `l` has the lowest number. -/
structure StopsAt (s : Script) (run : Run) (l : Line) : Prop where
  line : l ∈ s.lines
  rejected : l ∉ run.acceptances.map Prod.snd
  lower : ∀ k ∈ s.lines, k.number < l.number → k ∈ run.acceptances.map Prod.snd

variable {s : Script} {standing : Bindings} {accepted : List Int}
  {pending : List (List Int × BlockId)} {rest : List (Int × LineId)} {n : Int} {id : LineId}
  {ctx : Context}

/-- The numbers of a script are the numbers of its context. -/
theorem mem_keys_context (hn : s.numbers.Nodup) {m : Int} :
    m ∈ (s.context standing).lines.keys ↔ m ∈ s.numbers := by
  rw [Table.keys, (laid_context hn standing).lines, map_fst_placed]
  rfl

/-- When a line comes up, a block has no type if one of its lines does not come before. -/
theorem types_eq_none_iff (hn : s.numbers.Nodup) (hown : ∀ ls ∈ s.blocks, ls ≠ [])
    (h : Context.Reaches (s.context standing) accepted pending ((n, id) :: rest) ctx) {b : BlockId}
    {ls : List Line} (hb : s.blocks[b]? = some ls) :
    ctx.types.get? b = none ↔ ∃ k ∈ ls, n ≤ k.number := by
  have ha := s.assembled_context standing
  have hls : ls ∈ s.blocks := List.mem_of_getElem? hb
  have hregistered := (Context.get?_registered_addBlocks standing hown hn).mpr
    ⟨ls, hb, List.Perm.refl _⟩
  -- a block without lines would have its type from the start
  have hkey : sortNumbers (ls.map Line.number) ≠ [] := by
    intro hnil
    have hperm := sortNumbers_perm (ls.map Line.number)
    rw [hnil, List.nil_perm, List.map_eq_nil_iff] at hperm
    exact hown ls hls hperm
  -- a number of the block is that of a line, so it has been accepted if it is lower
  have haccepted : ∀ k ∈ ls, k.number ∈ accepted ↔ k.number < n := by
    intro k hk
    obtain ⟨j, hj, -⟩ := (laid_context hn standing).exists_mem_entries
      (List.mem_flatten_of_mem hls hk)
    rw [ha.mem_accepted_iff h]
    exact and_iff_left ⟨j, Table.get?_of_mem ha.lines_nodup hj⟩
  rw [ha.types_eq h (Table.mem_of_get? hregistered) hkey, ite_eq_right_iff]
  simp only [reduceCtorEq, imp_false, (sortNumbers_perm _).mem_iff, List.forall_mem_map]
  constructor
  · intro hnot
    by_contra! hall
    exact hnot fun k hk => (haccepted k hk).mpr (hall k hk)
  · rintro ⟨k, hk, hle⟩ hall
    exact absurd ((haccepted k hk).mp (hall k hk)) (Int.not_lt.mpr hle)

/-- The faults of a line when it comes up. -/
theorem examine_eq_fault_iff_breaks (hn : s.numbers.Nodup) (hown : ∀ ls ∈ s.blocks, ls ≠ [])
    (h : Context.Reaches (s.context standing) accepted pending ((n, id) :: rest) ctx) {f : Fault} :
    (ctx.examine id).1 = .error (.fault f) ↔
      s.Breaks ((s.context standing).record id).line f := by
  have hlaid := laid_context hn standing
  have hget := (s.assembled_context standing).get?_of_reaches h
  have hnumber := (hlaid.line_of_mem_entries (Table.mem_of_get? hget)).2
  have hregistered {ns : List Int} {b : BlockId} :
      (s.context standing).registered.get? (sortNumbers ns) = some b ↔ _ :=
    Context.get?_registered_addBlocks standing hown hn
  -- told from the citations, nothing of the moment is left except the types of blocks
  rw [Context.examine_eq_fault_iff, Context.interpret_eq_fault_iff, h.frame.cite, h.frame.line,
    Context.cite_eq_error_iff, Context.exists_cite_iff, Context.deduction_eq_fault_iff,
    h.frame.registered]
  simp only [mem_keys_context hn]
  constructor
  · rintro (⟨before, m, after, hcited, hfound, habsent, rfl⟩ |
      ⟨hfound, ⟨hded, ⟨-, hnil, rfl⟩ | ⟨b, hb, hnone, rfl⟩⟩ | ⟨r, hnamed, hcount, rfl⟩⟩)
    · exact .missing hcited hfound habsent
    · exact .nothing hded hnil
    · obtain ⟨ls, hls, hperm⟩ := hregistered.mp hb
      obtain ⟨k, hk, hle⟩ := (types_eq_none_iff hn hown h hls).mp hnone
      rw [Context.blockText, h.frame.blockLines, hlaid.blockLines_eq hls]
      exact .early hded (List.mem_of_getElem? hls) hperm hk (hnumber ▸ hle)
    · exact .count hnamed hfound hcount
  · intro hbreaks
    cases hbreaks with
    | missing hcited hfound habsent => exact .inl ⟨_, _, _, hcited, hfound, habsent, rfl⟩
    | count hnamed hfound hcount => exact .inr ⟨hfound, .inr ⟨_, hnamed, hcount, rfl⟩⟩
    | nothing hded hnil =>
      refine .inr ⟨by simp [hnil], .inl ⟨hded, .inl ⟨?_, hnil, rfl⟩⟩⟩
      -- no block is registered under no numbers
      rw [Option.eq_none_iff_forall_ne_some]
      intro b hb
      obtain ⟨ls, hls, hperm⟩ := hregistered.mp hb
      rw [hnil, List.nil_perm, List.map_eq_nil_iff] at hperm
      exact hown ls (List.mem_of_getElem? hls) hperm
    | @early ls k hded hblock hperm hk hle =>
      obtain ⟨b, hls⟩ := List.getElem?_of_mem hblock
      refine .inr ⟨fun m hm => ?_, .inl ⟨hded, .inr ⟨b, hregistered.mpr ⟨ls, hls, hperm⟩,
        (types_eq_none_iff hn hown h hls).mpr ⟨k, hk, hnumber ▸ hle⟩, ?_⟩⟩⟩
      · obtain ⟨l, hl, rfl⟩ := List.mem_map.mp (hperm.mem_iff.mp hm)
        exact List.mem_map_of_mem (List.mem_flatten_of_mem hblock hl)
      · rw [Context.blockText, h.frame.blockLines, hlaid.blockLines_eq hls]

/-- A line is among those told when its number is. -/
theorem mem_told_iff (hn : s.numbers.Nodup) {done : List (Int × LineId)}
    (hdone : done ⊆ (s.context standing).lines.entries) {k : Line} (hk : k ∈ s.lines) :
    k ∈ ((s.context standing).told done).map Prod.snd ↔ k.number ∈ done.map Prod.fst := by
  have hlaid := laid_context hn standing
  have hnodup := (s.assembled_context standing).lines_nodup
  simp only [Context.told, List.map_map, List.mem_map, Function.comp]
  constructor
  · rintro ⟨e, he, rfl⟩
    exact ⟨e, he, (hlaid.line_of_mem_entries (hdone he)).2.symm⟩
  · rintro ⟨⟨m, i⟩, he, rfl⟩
    -- a number is told with the line that it stands for
    obtain ⟨j, hj, hline⟩ := hlaid.exists_mem_entries hk
    have hij : some i = some j :=
      (Table.get?_of_mem hnodup (hdone he)).symm.trans (Table.get?_of_mem hnodup hj)
    cases hij
    exact ⟨_, he, hline⟩

/-- A line that passes its examination is no obstacle to the run, where all symbols are in order. -/
theorem proceeds_of_examine (hn : s.numbers.Nodup)
    (hsymbols : ∀ l ∈ s.lines, ∃ t, l.formula.symbols = .ok t)
    (h : Context.Reaches (s.context standing) accepted pending ((n, id) :: rest) ctx)
    {ctx₁ : Context} (hexamine : ctx.examine id = (.ok (), ctx₁)) :
    ctx.Proceeds accepted pending n id := by
  have ha := s.assembled_context standing
  have hlaid := laid_context hn standing
  have hget := ha.get?_of_reaches h
  exact ha.proceeds_of_examine (fun _ hb _ he => hlaid.mem_entries_of_mem_members hb he) h hexamine
    (hsymbols _ (hlaid.line_of_mem_entries (Table.mem_of_get? hget)).1)

/-- A run that stops at two lines stops at one. -/
theorem StopsAt.unique (hn : s.numbers.Nodup) {run : Run} {l k : Line} (hl : s.StopsAt run l)
    (hk : s.StopsAt run k) : l = k := by
  refine List.inj_on_of_nodup_map hn hl.line hk.line ?_
  -- of two lines with different numbers the lower one would have been accepted
  rcases Int.lt_trichotomy l.number k.number with hlt | heq | hlt
  · exact absurd (hk.lower l hl.line hlt) hl.rejected
  · exact heq
  · exact absurd (hl.lower k hk.line hlt) hk.rejected

/-- A run in which no line is left has accepted all lines. -/
private theorem mem_acceptances_of_done (hn : s.numbers.Nodup)
    (h : Context.Reaches (s.context standing) accepted pending [] ctx) {l : Line}
    (hl : l ∈ s.lines) : l ∈ (s.context standing).check.acceptances.map Prod.snd := by
  obtain ⟨done, hsorted, -, htold⟩ := h.exists_acceptances_eq
  rw [List.append_nil] at hsorted
  have hdone : ∀ e, e ∈ done ↔ e ∈ (s.context standing).lines.entries := fun e => by
    rw [← hsorted, (Context.sortedLines_perm _).mem_iff]
  obtain ⟨j, hj, -⟩ := (laid_context hn standing).exists_mem_entries hl
  have htold' : (s.context standing).check.acceptances = (s.context standing).told done :=
    htold.trans (List.append_nil _)
  rw [htold', mem_told_iff hn (fun e he => (hdone e).mp he) hl]
  exact List.mem_map_of_mem ((hdone _).mpr hj)

/-- A run stops at a line that fails its examination, and breaks off if the line has a fault. -/
private theorem stops_of_error (hn : s.numbers.Nodup) (hown : ∀ ls ∈ s.blocks, ls ≠ [])
    (h : Context.Reaches (s.context standing) accepted pending ((n, id) :: rest) ctx)
    {ctx₁ : Context} {e : Failure} (hexamine : ctx.examine id = (.error e, ctx₁)) :
    let run := (s.context standing).check
    let l := ((s.context standing).record id).line
    s.StopsAt run l ∧ run.result ≠ .ok true ∧
      ∀ fault, run.result = .error fault ↔ s.Breaks l fault := by
  intro run l
  have ha := s.assembled_context standing
  have hlaid := laid_context hn standing
  obtain ⟨hline, hnumber⟩ :=
    hlaid.line_of_mem_entries (Table.mem_of_get? (ha.get?_of_reaches h))
  obtain ⟨done, hsorted, rfl, htold⟩ := h.exists_acceptances_eq
  have hdone : done ⊆ (s.context standing).lines.entries := fun _ he =>
    (Context.sortedLines_perm _).mem_iff.mp (hsorted ▸ List.mem_append_left _ he)
  have htold' : run.acceptances = (s.context standing).told done := by
    simpa only [Context.checkLines, hexamine, Context.acceptances_fail_after,
      List.append_nil] using htold
  have haccepted : ∀ {m}, m ∈ done.map Prod.fst ↔ _ :=
    List.mem_reverse.symm.trans (ha.mem_accepted_iff h)
  -- all lower lines have been told by now, and the line itself has not
  refine ⟨⟨hline, ?_, fun k hk hlt => ?_⟩, ?_, fun fault => ?_⟩
  · rw [htold', mem_told_iff hn hdone hline, hnumber, haccepted]
    exact fun hself => Int.lt_irrefl n hself.1
  · obtain ⟨j, hj, -⟩ := hlaid.exists_mem_entries hk
    rw [htold', mem_told_iff hn hdone hk, haccepted]
    exact ⟨hnumber ▸ hlt, j, Table.get?_of_mem ha.lines_nodup hj⟩
  · rw [(h.check_of_error hexamine).1]
    cases e <;> simp [Context.fail]
  · rw [(h.check_of_error hexamine).1, ← examine_eq_fault_iff_breaks hn hown h, hexamine]
    cases e <;> simp [Context.fail]

/-- The check of a proof without holes accepts all lines and says yes, or stops at one. -/
private theorem accepts_or_stops (standing : Bindings) (hn : s.numbers.Nodup)
    (hown : ∀ ls ∈ s.blocks, ls ≠ []) (hsymbols : ∀ l ∈ s.lines, ∃ t, l.formula.symbols = .ok t) :
    let run := (s.context standing).check
    (run.result = .ok true ∧ ∀ l ∈ s.lines, l ∈ run.acceptances.map Prod.snd) ∨
      ∃ l, s.StopsAt run l ∧ run.result ≠ .ok true ∧
        ∀ fault, run.result = .error fault ↔ s.Breaks l fault := by
  intro run
  have hlaid := laid_context hn standing
  have hmain : (s.context standing).main.isSome := by
    rw [hlaid.main (by simp [blocks])]
    rfl
  have hlines : ∀ j ∈ (s.context standing).sortedLines.map Prod.snd,
      ((s.context standing).record j).line ∈ s.lines := by
    intro j hj
    obtain ⟨e, he, rfl⟩ := List.mem_map.mp hj
    exact (hlaid.line_of_mem_entries ((Context.sortedLines_perm _).mem_iff.mp he)).1
  obtain ⟨ctx₀, hpremises⟩ := Context.exists_usePremises (s.context standing) fun j hj =>
    hsymbols _ (hlines j hj)
  -- go to the last moment of the run: no line is left, or the next one does not pass
  obtain ⟨accepted, pending, rest, ctx, h, hlast⟩ := Context.exists_last_moment hmain hpremises
  cases rest with
  | nil => exact .inl ⟨h.check_of_done.1, fun _ hl => mem_acceptances_of_done hn h hl⟩
  | cons e rest =>
    obtain ⟨n, id⟩ := e
    rcases hexamine : ctx.examine id with ⟨e | _, ctx₁⟩
    · exact .inr ⟨_, stops_of_error hn hown h hexamine⟩
    · exact absurd (proceeds_of_examine hn hsymbols h hexamine) (hlast n id rest rfl)

/-- A text that can be read makes the context of its script. -/
theorem addText_eq_context {text : String} (standing : Bindings)
    (hread : (Grammar.readProof text).result = .ok s) :
    ({ standing := standing } : Context).addText text = (none, s.context standing) := by
  delta Context.addText
  simp only [hread, (Grammar.readProof_spec hread).1, context]

/-- What becomes of the check of a proof that has been read, whose numbers are different and whose
    blocks all have lines.  It breaks off with a fault where the first line that is not accepted
    cites a number of no line, or gives a rule another number of lines than it takes, or deduces
    from nothing or from a block that does not end before it.  At any other such line it says no.
    All lower lines have been accepted then. -/
theorem check_breaks_off_iff (standing : Bindings) (text : String) (s : Script)
    (hread : (Grammar.readProof text).result = .ok s) (hn : s.numbers.Nodup)
    (hown : ∀ ls ∈ s.blocks, ls ≠ []) :
    let run := (({ standing := standing } : Context).addText text).2.check
    (∀ fault, run.result = .error fault ↔ ∃ l, s.StopsAt run l ∧ s.Breaks l fault) ∧
      (run.result = .ok false ↔ ∃ l, s.StopsAt run l ∧ ∀ fault, ¬ s.Breaks l fault) ∧
      (run.result = .ok true ↔ ∀ l ∈ s.lines, l ∈ run.acceptances.map Prod.snd) := by
  rw [addText_eq_context standing hread]
  intro run
  have hsymbols : ∀ l ∈ s.lines, ∃ t, l.formula.symbols = .ok t := fun l hl =>
    Formula.exists_symbols ((Grammar.readProof_spec hread).2 l hl).holeFree
  rcases accepts_or_stops standing hn hown hsymbols with
    ⟨htrue, hall⟩ | ⟨l, hstops, hne, hfault⟩
  · -- it stops nowhere
    have hnone : ∀ l, ¬ s.StopsAt run l := fun l h => h.rejected (hall l h.line)
    simp only [run, htrue, hnone, false_and, exists_false, reduceCtorEq, Except.ok.injEq,
      implies_true, true_and, true_iff, Bool.true_eq_false]
    exact hall
  · -- there is one line at which the run stops, so that it is the one to look at
    have honly (P : Line → Prop) : (∃ k, s.StopsAt run k ∧ P k) ↔ P l :=
      ⟨fun ⟨k, hk, hP⟩ => hstops.unique hn hk ▸ hP, fun hP => ⟨l, hstops, hP⟩⟩
    refine ⟨fun fault => (hfault fault).trans (honly (s.Breaks · fault)).symm, ?_, ?_⟩
    · rw [honly fun k => ∀ fault, ¬ s.Breaks k fault]
      simp only [← hfault]
      -- a run that does not say yes says no if no fault breaks it off
      rcases hresult : run.result with fault | _ | _
      · simp
      · simp
      · exact absurd hresult hne
    · exact iff_of_false hne fun hall => hstops.rejected (hall l hstops.line)

/-- A deduction from a block whose last line has a higher number. -/
theorem check_breaks_off_iff_early_deduction :
    let first : Line := ⟨1, .atom "A", ⟨"hyp", []⟩⟩
    let last : Line := ⟨3, .disj (.atom "A") (.atom "B"), ⟨"add", [1]⟩⟩
    let outer : Line := ⟨2, .imp (.atom "A") (.disj (.atom "A") (.atom "B")), ⟨"ded", [1, 3]⟩⟩
    let s : Script := .block (.line first (.line last .done)) (.line outer .done)
    let text := "\x7b 1. A hyp; 3. A \\/ B add 1; \x7d 2. A -> (A \\/ B) ded 1, 3;"
    let fault : Fault := .untypedBlock "1. A hyp []\n3. (A \\/ B) add [1]"
    let run := (({} : Context).addText text).2.check
    ((Grammar.readProof text).result = .ok s ∧ s.numbers.Nodup ∧ ∀ ls ∈ s.blocks, ls ≠ []) ∧
      s.StopsAt run outer ∧ s.Breaks outer fault ∧ run.result = .error fault := by
  intro first last outer s text fault run
  have hread : (Grammar.readProof text).result = .ok s := by decide +kernel +revert
  have hn : s.numbers.Nodup := by decide
  have hown : ∀ ls ∈ s.blocks, ls ≠ [] := by decide
  have haccepted : run.acceptances.map Prod.snd = [first] := by
    clear hread
    decide +kernel +revert
  have hstops : s.StopsAt run outer := by
    refine ⟨by decide, ?_, ?_⟩ <;> rw [haccepted] <;> decide
  have hblock : [first, last] ∈ s.blocks := by decide
  have hline : last ∈ [first, last] := by decide
  have hbreaks : s.Breaks outer fault := .early rfl hblock (by decide) hline (by decide)
  exact ⟨⟨hread, hn, hown⟩, hstops, hbreaks,
    ((check_breaks_off_iff {} text s hread hn hown).1 fault).mpr ⟨outer, hstops, hbreaks⟩⟩

end Script

end Sequitur
