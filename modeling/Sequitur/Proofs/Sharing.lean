import Sequitur.Proofs.Residue

/-!
# Sets that lines share

Examining a line gives it dependence sets of its own, in new places of the store, and the rules then
work on these.  Only an existential generalization goes further: it takes over the sets of the line
that it cites, places and all, and drops a name from them.  So the cited line loses that name too,
and so does every other line that has one of these sets.

This holds in every context that comes about by making lines and blocks, examining lines and running
checks, in any order (`Worked`).  In such a context every set in scope is in the store and no line
has a name twice (`WellKept`).

## Key results

- `Worked.wellKept`: what is true of every context that is worked with
- `leaves_of_not_lifts`, `leaves_of_lifts`: what an examination makes of the sets that were there
- `others_unchanged_iff`: when an examination leaves all other lines as they were
-/

namespace Sequitur.Context

/-! ## Contexts that are worked with -/

/-- A context that lines and blocks were made in and entered, lines examined and checks run, in any
    order and whatever came out. -/
inductive Worked : Context → Prop
  | empty (used : List Variable) (standing : Bindings) :
      Worked { constants := used, standing := standing }
  | newLine {ctx} (before : Worked ctx) (line : Line) (vars : VariableContext) :
      Worked (ctx.newLine line vars).1
  | newBlock {ctx} (before : Worked ctx) (ls : List (Line × VariableContext)) :
      Worked (ctx.newBlock ls).1
  | enter {ctx} (before : Worked ctx) (id : LineId) : Worked (ctx.enter id)
  | register {ctx} (before : Worked ctx) (b : BlockId) : Worked (ctx.register b)
  | examine {ctx} (before : Worked ctx) (id : LineId) : Worked (ctx.examine id).2
  | compile {ctx} (before : Worked ctx) (b : BlockId) : Worked (ctx.compile b).2
  | check {ctx} (before : Worked ctx) : Worked ctx.check.context

variable {ctx ctx₁ ctx' : Context} {id j k : LineId} {w : Variable} {c : String}
  {g : SetId → List String} {f : List String → List String} {arg : Argument}
  {vars : VariableContext}

/-- Contexts that were made by adding blocks are among them. -/
private theorem Built.worked (h : Built ctx) : Worked ctx := by
  induction h with
  | empty standing => exact .empty [] standing
  | addBlock _ ls ih => exact (ih.newBlock _).register _
  | register _ _ ih => exact ih.register _

/-- Every set that a line has in scope is in the store, no line has a name twice, and no number
    stands for two lines. -/
structure WellKept (ctx : Context) : Prop where
  housed : ctx.Housed
  scope_nodup : ∀ j, (ctx.record j).scope.keys.Nodup
  lines_nodup : ctx.lines.keys.Nodup

private theorem wellKept_empty (used : List Variable) (standing : Bindings) :
    ({ constants := used, standing := standing } : Context).WellKept where
  housed h := by cases h
  scope_nodup _ := List.nodup_nil
  lines_nodup := List.nodup_nil

/-- Only the scopes, the sets and the numbers count. -/
theorem WellKept.congr (h : ctx.WellKept) (hrecords : ctx'.records = ctx.records)
    (hstore : ctx'.store = ctx.store) (hlines : ctx'.lines.keys.Nodup) : ctx'.WellKept := by
  have hrecord : ∀ j, ctx'.record j = ctx.record j := fun j => by rw [record, record, hrecords]
  refine ⟨fun {j _ _} hmem => ?_, fun j => ?_, hlines⟩
  · rw [hstore]
    exact h.housed (hrecord j ▸ hmem)
  · rw [hrecord]
    exact h.scope_nodup j

private theorem record_newLine (ctx : Context) (line : Line) (vars : VariableContext) (j : LineId) :
    (ctx.newLine line vars).1.record j =
      if j = ctx.records.length then { line := line, scope := (ctx.store.allocAll vars).2 }
      else ctx.record j := by
  simp only [newLine, record, List.getD_eq_getElem?_getD]
  rcases Nat.lt_trichotomy j ctx.records.length with hlt | rfl | hgt
  · rw [if_neg (Nat.ne_of_lt hlt), List.getElem?_append_left hlt]
  · simp
  · rw [if_neg (Nat.ne_of_gt hgt), List.getElem?_eq_none (Nat.le_of_lt hgt),
      List.getElem?_eq_none (by rw [List.length_append]; exact hgt)]

/-- A new line gets sets of its own. -/
theorem WellKept.newLine (h : ctx.WellKept) (line : Line) (vars : VariableContext) :
    (ctx.newLine line vars).1.WellKept := by
  have hallocates := Store.allocates_allocAll ctx.store vars
  refine ⟨fun {j c i} hmem => ?_, fun j => ?_, h.lines_nodup⟩
  · rw [record_newLine] at hmem
    split at hmem
    · -- the sets of the new line have just been put there
      rcases hallocates.entry hmem with hold | ⟨-, hlt, -⟩
      · cases hold
      · exact hlt
    · exact Nat.lt_of_lt_of_le (h.housed hmem) hallocates.length_le
  · rw [record_newLine]
    split
    · exact Store.nodup_keys_allocAll ctx.store vars
    · exact h.scope_nodup j

/-- Several lines do as well. -/
theorem WellKept.newLines (h : ctx.WellKept) (ls : List (Line × VariableContext)) :
    (ctx.newLines ls).1.WellKept := by
  induction ls generalizing ctx with
  | nil => exact h
  | cons l ls ih => exact ih (h.newLine l.1 l.2)

/-! ### Examining -/

private theorem scope_nodup_verify (hlt : id < ctx.records.length)
    (h : ∀ j, (ctx.record j).scope.keys.Nodup) (arg : Argument) (j : LineId) :
    ((ctx.verify id arg).2.record j).scope.keys.Nodup := by
  have htakeOver : ∀ k, ((ctx.takeOver id k).record j).scope.keys.Nodup := by
    intro k
    rw [scope_takeOver hlt]
    split
    · exact Table.nodup_putAll (h j) _
    · exact h j
  rcases hverify : ctx.verify id arg with ⟨e | _, ctx'⟩
  · -- a failure has changed nothing, or has taken over the sets of a line
    rcases verify_error hverify with rfl | ⟨q, -, rfl⟩
    · exact h j
    · exact htakeOver q.id
  · -- every rule works on the scope of the line `id` alone
    cases verifies_of_ok hverify with
    | ui _ _ _ =>
      rw [scope_bring hlt]
      split
      · exact Table.nodup_put (h j) _ _
      · exact h j
    | ug _ _ _ =>
      rw [scope_release hlt]
      split
      · exact (h j).sublist (List.filter_sublist.map _)
      · exact h j
    | eg w => exact htakeOver _
    | ui_again _ _ _ | ei _ _ | formulas _ _ => exact h j

private theorem record_of_le (h : ctx.records.length ≤ id) : ctx.record id = default := by
  rw [record, List.getD_eq_getElem?_getD, List.getElem?_eq_none h, Option.getD_none]

/-- Where no line was made, there is nothing to examine. -/
private theorem snd_examine_of_le (h : ctx.records.length ≤ id) : (ctx.examine id).2 = ctx := by
  rcases snd_examine ctx id with heq | ⟨arg, vars, hinterpret, -⟩
  · exact heq
  · rw [record_of_le h] at hinterpret
    cases hinterpret

/-- An examination keeps the context in order, whatever comes of it. -/
theorem WellKept.examine (h : ctx.WellKept) (id : LineId) : (ctx.examine id).2.WellKept := by
  rcases Nat.lt_or_ge id ctx.records.length with hlt | hle
  · refine ⟨housed_snd_examine hlt h.housed, fun j => ?_, ?_⟩
    · -- either the reason means nothing, or the line gets new sets and is verified
      rcases snd_examine ctx id with heq | ⟨arg, vars, -, heq⟩ <;> rw [heq]
      · exact h.scope_nodup j
      · refine scope_nodup_verify ?_ (fun j => ?_) arg j
        · simpa [recorded, modifyRecord] using hlt
        · rw [record_recorded]
          split
          · exact Store.nodup_keys_allocAll ctx.store vars
          · exact h.scope_nodup j
    · rw [(frame_snd_examine ctx id).lines]
      exact h.lines_nodup
  · rw [snd_examine_of_le hle]
    exact h

/-- Finding a type does not touch the scopes. -/
theorem WellKept.compile (h : ctx.WellKept) (b : BlockId) : (ctx.compile b).2.WellKept := by
  unfold Context.compile
  simp only
  split
  · exact h.congr rfl rfl h.lines_nodup
  · exact h

private theorem kept_wellKept (base : Context) : Kept base WellKept where
  examine _ h := h.examine _
  symbols f h := by
    unfold useSymbols
    split
    · exact h
    · exact h.congr rfl rfl h.lines_nodup
  compile b h := h.compile b

/-- What is true of every context that is worked with. -/
theorem Worked.wellKept (h : Worked ctx) : ctx.WellKept := by
  induction h with
  | empty used standing => exact wellKept_empty used standing
  | newLine _ line vars ih => exact ih.newLine line vars
  | newBlock _ ls ih =>
    have hlines := ih.newLines ls
    exact hlines.congr rfl rfl hlines.lines_nodup
  | enter _ id ih => exact ih.congr rfl rfl (Table.nodup_put ih.lines_nodup _ _)
  | register _ b ih => exact ih.congr rfl rfl (Table.nodup_putAll ih.lines_nodup _)
  | examine _ id ih => exact ih.examine id
  | compile _ b ih => exact ih.compile b
  | @check ctx _ ih =>
    -- what comes up in a check are the lines that the numbers stand for
    refine (kept_wellKept ctx).check (fun e he => ?_) ih
    exact Table.get?_of_mem ih.lines_nodup ((sortedLines_perm ctx).mem_iff.mp he)

/-! ## What becomes of the sets that were there -/

/-- The lines other than `id` have the scopes that they had, and the sets that were there are now as
    `g` says. -/
structure Leaves (ctx : Context) (id : LineId) (g : SetId → List String) (ctx' : Context) :
    Prop where
  scope_eq : ∀ {j}, j ≠ id → (ctx'.record j).scope = (ctx.record j).scope
  length_le : ctx.store.sets.length ≤ ctx'.store.sets.length
  get_eq : ∀ {i}, i < ctx.store.sets.length → ctx'.store.get i = g i

/-- The names of the other lines stay, and their sets are as `g` says. -/
theorem Leaves.variablesOf (h : Leaves ctx id g ctx') (hh : ctx.Housed) (hj : j ≠ id) :
    ctx'.variablesOf j = (ctx.record j).scope.map g := by
  rw [Context.variablesOf, Store.view, h.scope_eq hj, Table.map, Table.map, Table.mk.injEq]
  refine List.map_congr_left fun e he => ?_
  rw [h.get_eq (hh he)]

theorem Leaves.refl (ctx : Context) (id : LineId) : Leaves ctx id ctx.store.get ctx :=
  ⟨fun _ => rfl, Nat.le_refl _, fun _ => rfl⟩

/-- The sets that a line is given are in new places. -/
private theorem leaves_recorded (ctx : Context) (id : LineId) (arg : Argument)
    (vars : VariableContext) : Leaves ctx id ctx.store.get (ctx.recorded id arg vars) :=
  have hallocates := Store.allocates_allocAll ctx.store vars
  ⟨fun hj => scope_recorded_of_ne hj arg vars, hallocates.length_le, hallocates.get_eq _⟩

section

variable (h : Leaves ctx id g ctx₁) (hlt : id < ctx₁.records.length)

include h

/-- The sets of the line `id` are changed. -/
theorem Leaves.changeSets (hf : ∀ t, f (f t) = f t) :
    Leaves ctx id (fun i => if i ∈ (ctx₁.record id).scope.values then f (g i) else g i)
      (ctx₁.changeSets id f) where
  scope_eq hj := h.scope_eq hj
  length_le := h.length_le.trans_eq (Store.length_modifyAll ctx₁.store _ f).symm
  get_eq hi := by
    have hget := Store.get_modifyAll ctx₁.store (ctx₁.record id).scope hf (hi.trans_le h.length_le)
    rwa [h.get_eq hi] at hget

include hlt

/-- A new set does not touch the old ones. -/
theorem Leaves.bring : Leaves ctx id g (ctx₁.bring id c) where
  scope_eq hj := by rw [scope_bring hlt, if_neg hj, h.scope_eq hj]
  length_le := by
    have hlength : (ctx₁.bring id c).store.sets.length = ctx₁.store.sets.length + 1 :=
      Store.length_alloc ctx₁.store []
    exact hlength ▸ Nat.le_succ_of_le h.length_le
  get_eq hi := (Store.get_alloc_of_lt [] (hi.trans_le h.length_le)).trans (h.get_eq hi)

/-- Taking out a name does not touch the sets. -/
theorem Leaves.release : Leaves ctx id g (ctx₁.release id c) where
  scope_eq hj := by rw [scope_release hlt, if_neg hj, h.scope_eq hj]
  length_le := h.length_le
  get_eq hi := h.get_eq hi

/-- Taking over sets does not change them. -/
theorem Leaves.takeOver : Leaves ctx id g (ctx₁.takeOver id k) where
  scope_eq hj := by rw [scope_takeOver hlt, if_neg hj, h.scope_eq hj]
  length_le := h.length_le
  get_eq hi := h.get_eq hi

end

/-! ## Existential generalizations -/

/-- The line `id` is an existential generalization from the line `k` and finds the variable `w`
    there. -/
def Lifts (ctx : Context) (id k : LineId) (w : Variable) : Prop :=
  ∃ m v body, (ctx.record id).line.reason = ⟨"eg", [m]⟩ ∧ ctx.lines.get? m = some k ∧
    (ctx.record id).line.formula = .ex v body ∧
    instantiated v body (ctx.record k).line.formula = .ok w

theorem Lifts.rule_eq (h : ctx.Lifts id k w) : (ctx.record id).line.reason.rule = "eg" := by
  obtain ⟨m, v, body, hreason, -⟩ := h
  rw [hreason]

/-- The context after the line `id` was given what the line `k` has in scope. -/
def given (ctx : Context) (id k : LineId) : Context :=
  ctx.recorded id (.existentialGeneralization (ctx.cited k)) (.combine [ctx.variablesOf k])

/-- What an existential generalization that passes does. -/
theorem examine_of_lifts (h : ctx.Lifts id k w) :
    ctx.examine id =
      (.ok (), ((ctx.given id k).takeOver id k).changeSets id fun s => dropName s w.name) := by
  have hrule := h.rule_eq
  obtain ⟨m, v, body, hreason, hk, hf, hfound⟩ := h
  refine (examine_quantifier_iff (f := .existentialGeneralization) (fun _ => rfl) hrule).mpr
    ⟨m, k, hreason, hk, ?_⟩
  have hverify : (ctx.given id k).verifyEG id (ctx.cited k) =
      (.ok (), ((ctx.given id k).takeOver id k).changeSets id fun s => dropName s w.name) :=
    verifyEG_eq_ok.mpr ⟨v, body, w, by rw [given, line_recorded, hf], hfound, rfl⟩
  rw [given] at hverify
  simp only [verify, hverify]
  rfl

/-- An existential generalization that passes finds a variable in the line that it cites. -/
private theorem exists_lifts (hrule : (ctx.record id).line.reason.rule = "eg")
    (h : ctx.examine id = (.ok (), ctx')) : ∃ k w, ctx.Lifts id k w := by
  obtain ⟨m, k, hreason, hk, hverify⟩ :=
    (examine_quantifier_iff (f := .existentialGeneralization) (fun _ => rfl) hrule).mp h
  obtain ⟨v, body, w, hf, hfound, -⟩ := verifyEG_eq_ok.mp (of_mapError_eq_ok hverify)
  rw [line_recorded] at hf
  exact ⟨k, w, m, v, body, hreason, hk, hf, hfound⟩

/-- Only a line that was made has a reason. -/
theorem Lifts.lt (h : ctx.Lifts id k w) : id < ctx.records.length := by
  have hrule := h.rule_eq
  refine Nat.lt_of_not_le fun hle => ?_
  rw [record_of_le hle] at hrule
  exact absurd hrule (by decide)

/-! ## What an examination makes of the sets -/

private theorem lt_recorded (hlt : id < ctx.records.length) :
    id < (ctx.recorded id arg vars).records.length := by
  simpa [recorded, modifyRecord] using hlt

/-- The sets of a line that has just been given some are not those of old. -/
private theorem notMem_values_recorded (hlt : id < ctx.records.length) {i : SetId}
    (hi : i < ctx.store.sets.length) : i ∉ ((ctx.recorded id arg vars).record id).scope.values := by
  intro hmem
  obtain ⟨⟨c, _⟩, hentry, rfl⟩ := List.mem_map.mp hmem
  exact absurd hi (Nat.not_lt.mpr (entry_recorded hlt hentry).1)

/-- Other lines than existential generalizations that pass leave the sets alone that were there. -/
theorem leaves_of_not_lifts (h : ∀ k w, ¬ ctx.Lifts id k w) :
    Leaves ctx id ctx.store.get (ctx.examine id).2 := by
  by_cases hle : ctx.records.length ≤ id
  · exact (snd_examine_of_le hle).symm ▸ Leaves.refl ctx id
  have hlt := Nat.lt_of_not_le hle
  rcases snd_examine ctx id with heq | ⟨arg, vars, hinterpret, -⟩
  · exact heq.symm ▸ Leaves.refl ctx id
  have hrecorded := leaves_recorded ctx id arg vars
  have hlt₁ : id < (ctx.recorded id arg vars).records.length := lt_recorded hlt
  have hexamine := examine_of_interpret hinterpret
  rw [hexamine]
  rcases hverify : (ctx.recorded id arg vars).verify id arg with ⟨e | _, ctx'⟩
  · -- an existential generalization that fails has taken over sets, and changed none
    rcases verify_error hverify with rfl | ⟨q, -, rfl⟩
    · exact hrecorded
    · exact hrecorded.takeOver hlt₁
  · cases verifies_of_ok hverify with
    | ui _ _ _ => exact hrecorded.bring hlt₁
    | ui_again _ _ _ => exact hrecorded
    | ug _ _ _ => exact hrecorded.release hlt₁
    | @ei _ _ _ w _ _ =>
      -- the choice goes to the new sets only
      have hchanged := hrecorded.changeSets (f := fun s => addName s w.name)
        fun t => addName_addName t w.name
      refine ⟨hchanged.scope_eq, hchanged.length_le, fun hi => ?_⟩
      rw [hchanged.get_eq hi, if_neg (notMem_values_recorded hlt hi)]
    | eg w =>
      -- one that passes has found a variable
      obtain ⟨m, k, hreason, -⟩ := (interpret_quantifier_iff rfl).mp hinterpret
      obtain ⟨k, w, hlifts⟩ := exists_lifts (by rw [hreason]) (hexamine.trans hverify)
      exact absurd hlifts (h k w)
    | formulas _ _ => exact ⟨hrecorded.scope_eq, hrecorded.length_le, hrecorded.get_eq⟩

/-- After the line `id` has taken over the sets of the line `k`, the old sets that it has are those
    of `k`; if it cites itself, it has none. -/
private theorem mem_values_takeOver (hk : ctx.WellKept) (hlt : id < ctx.records.length) {i : SetId}
    (hi : i < ctx.store.sets.length) :
    i ∈ (((ctx.given id k).takeOver id k).record id).scope.values ↔
      k ≠ id ∧ i ∈ (ctx.record k).scope.values := by
  have hlt₁ : id < (ctx.given id k).records.length := lt_recorded hlt
  rw [scope_takeOver hlt₁, if_pos rfl]
  constructor
  · intro hmem
    obtain ⟨e, hentry, rfl⟩ := List.mem_map.mp hmem
    have hnew : e ∉ ((ctx.given id k).record id).scope.entries := fun hentry =>
      notMem_values_recorded hlt hi (List.mem_map_of_mem hentry)
    -- so the set comes from the line `k`, which is another one
    have hold := (Table.mem_entries_putAll hentry).resolve_right hnew
    have hne : k ≠ id := by
      rintro rfl
      exact hnew hold
    rw [given, scope_recorded_of_ne hne] at hold
    exact ⟨hne, List.mem_map_of_mem hold⟩
  · rintro ⟨hne, hmem⟩
    obtain ⟨e, hentry, rfl⟩ := List.mem_map.mp hmem
    rw [given, scope_recorded_of_ne hne]
    exact List.mem_map_of_mem (Table.mem_entries_putAll_of_mem (hk.scope_nodup k) hentry)

/-- An existential generalization that passes drops what it finds from the sets of the line that it
    cites, unless it cites itself. -/
theorem leaves_of_lifts (hk : ctx.WellKept) (h : ctx.Lifts id k w) :
    Leaves ctx id (fun i => if k ≠ id ∧ i ∈ (ctx.record k).scope.values then
      dropName (ctx.store.get i) w.name else ctx.store.get i) (ctx.examine id).2 := by
  have htaken := (leaves_recorded ctx id (.existentialGeneralization (ctx.cited k))
    (.combine [ctx.variablesOf k])).takeOver (k := k) (lt_recorded h.lt)
  have hchanged := htaken.changeSets (f := fun s => dropName s w.name)
    fun t => dropName_dropName t w.name
  rw [examine_of_lifts h]
  refine ⟨hchanged.scope_eq, hchanged.length_le, fun hi => ?_⟩
  rw [given, hchanged.get_eq hi]
  exact if_congr (mem_values_takeOver hk h.lt hi) rfl rfl

/-! ## The other lines -/

/-- The cited line notices a name that is dropped from its sets. -/
private theorem Lifts.variablesOf_ne (h : ctx.Lifts id k w) (hk : ctx.WellKept) (hne : k ≠ id)
    (hties : ctx.Ties k c w.name) : (ctx.examine id).2.variablesOf k ≠ ctx.variablesOf k := by
  intro hsame
  rw [Ties, ← hsame, (leaves_of_lifts hk h).variablesOf hk.housed hne] at hties
  obtain ⟨D, hmem, hD⟩ := hties
  obtain ⟨e, hentry, heq⟩ := List.mem_map.mp hmem
  cases heq
  -- the set is one of the cited line, so the name is gone from it
  simp only at hD
  rw [if_pos ⟨hne, List.mem_map_of_mem hentry⟩, mem_dropName] at hD
  exact hD.2 rfl

/-- Where no name depends on the one that is dropped, nothing is noticed; nor where the line cites
    itself, since then it has no sets of others. -/
private theorem Lifts.variablesOf_eq (h : ctx.Lifts id k w) (hk : ctx.WellKept)
    (hfree : k ≠ id → ∀ c, ¬ ctx.Ties k c w.name) (hj : j ≠ id) :
    (ctx.examine id).2.variablesOf j = ctx.variablesOf j := by
  rw [(leaves_of_lifts hk h).variablesOf hk.housed hj, variablesOf, Store.view]
  refine congrArg (fun g => Table.map g (ctx.record j).scope) (funext fun i => ?_)
  split
  · rename_i hi
    -- a set of the cited line, which does not have the name
    obtain ⟨⟨c, _⟩, hentry, rfl⟩ := List.mem_map.mp hi.2
    exact dropName_of_notMem fun hmem => hfree hi.1 c (ties_iff.mpr ⟨_, hentry, hmem⟩)
  · rfl

/-- What an examination does to the other lines, whatever comes of it.  If it fails, or the line is
    by another rule than existential generalization, they have the names and the dependence sets
    that they had.  An existential generalization from another line that passes drops the variable
    that it finds from each of their sets that is one of the cited line as well, and from no other.
    So the other lines are all as they were just when for the cited line no name depends on that
    variable. -/
theorem others_unchanged_iff (ctx : Context) (hw : Worked ctx) (id : LineId) :
    ((ctx.examine id).1 ≠ .ok () ∨ (ctx.record id).line.reason.rule ≠ "eg" →
      ∀ j, j ≠ id → (ctx.examine id).2.variablesOf j = ctx.variablesOf j) ∧
    (∀ k w, ctx.Lifts id k w → k ≠ id → ∀ j, j ≠ id →
      (ctx.examine id).2.variablesOf j = (ctx.record j).scope.map fun i =>
        if i ∈ (ctx.record k).scope.values then dropName (ctx.store.get i) w.name
        else ctx.store.get i) ∧
    ((∀ j, j ≠ id → (ctx.examine id).2.variablesOf j = ctx.variablesOf j) ↔
      ∀ k w, ctx.Lifts id k w → k ≠ id → ∀ c, ¬ ctx.Ties k c w.name) := by
  have hk := hw.wellKept
  refine ⟨fun hother j hj => ?_, fun k w h hne j hj => ?_, fun hsame k w h hne c hties => ?_,
    fun hfree j hj => ?_⟩
  · -- an existential generalization that finds a variable passes
    refine (leaves_of_not_lifts fun k w h => ?_).variablesOf hk.housed hj
    rcases hother with hfails | hrule
    · exact hfails (by rw [examine_of_lifts h])
    · exact hrule h.rule_eq
  · rw [(leaves_of_lifts hk h).variablesOf hk.housed hj]
    simp only [hne, ne_eq, not_false_eq_true, true_and]
  · exact h.variablesOf_ne hk hne hties (hsame k hne)
  · by_cases hlifts : ∃ k w, ctx.Lifts id k w
    · obtain ⟨k, w, h⟩ := hlifts
      exact h.variablesOf_eq hk (hfree k w h) hj
    · exact (leaves_of_not_lifts fun k w h => hlifts ⟨k, w, h⟩).variablesOf hk.housed hj

/-- The fourth line takes over the set of the third.  So when the last line, which cites the third,
    drops a name from that set, the fourth loses it too. -/
theorem others_unchanged_iff_third_party :
    let p (u v : String) : Formula := .pred "P" [.named u, .named v]
    let base := ({} : Context).addBlocks [[
      ⟨1, .all (.named "x") (.ex (.named "y") (p "x" "y")), ⟨"prem", []⟩⟩,
      ⟨2, .ex (.named "y") (p "a" "y"), ⟨"ui", [1]⟩⟩, ⟨3, p "a" "b", ⟨"ei", [2]⟩⟩,
      ⟨4, .ex (.named "z") (p "z" "b"), ⟨"eg", [3]⟩⟩,
      ⟨5, .ex (.named "y") (p "a" "y"), ⟨"eg", [3]⟩⟩]]
    let ctx := ((((base.examine 0).2.examine 1).2.examine 2).2.examine 3).2
    (Worked ctx ∧ ctx.Lifts 4 2 (.named "b") ∧ ctx.Ties 2 "a" "b") ∧
      ctx.variablesOf 3 = ⟨[("a", ["b"])]⟩ ∧ (ctx.examine 4).2.variablesOf 3 = ⟨[("a", [])]⟩ ∧
      ¬ ∀ j, j ≠ 4 → (ctx.examine 4).2.variablesOf j = ctx.variablesOf j := by
  intro p base ctx
  have hworked : Worked ctx :=
    ((((built_addBlocks {} _).worked.examine 0).examine 1).examine 2).examine 3
  have hlines : (ctx.record 4).line = ⟨5, .ex (.named "y") (p "a" "y"), ⟨"eg", [3]⟩⟩ ∧
      ctx.lines.get? 3 = some 2 ∧ (ctx.record 2).line.formula = p "a" "b" := by
    clear hworked
    decide +kernel +revert
  -- the third and the fourth line share one set
  have hsets : (ctx.record 2).scope = ⟨[("a", 1)]⟩ ∧ (ctx.record 3).scope = ⟨[("a", 1)]⟩ ∧
      ctx.store.get 1 = ["b"] := by
    clear hworked hlines
    decide +kernel +revert
  have hlifts : ctx.Lifts 4 2 (.named "b") := by
    refine ⟨3, .named "y", p "a" "y", by rw [hlines.1], hlines.2.1, by rw [hlines.1], ?_⟩
    rw [hlines.2.2]
    decide +kernel
  have hties : ctx.Ties 2 "a" "b" := by
    refine ties_iff.mpr ⟨1, ?_, ?_⟩
    · rw [hsets.1]
      exact List.mem_cons_self
    · rw [hsets.2.2]
      exact List.mem_cons_self
  obtain ⟨-, hlifted, hiff⟩ := others_unchanged_iff ctx hworked 4
  refine ⟨⟨hworked, hlifts, hties⟩, ?_, ?_, fun hsame => ?_⟩
  · simp only [variablesOf, Store.view, Table.map, hsets.2.1, hsets.2.2, List.map_cons,
      List.map_nil]
  · rw [hlifted 2 _ hlifts (by decide) 3 (by decide), hsets.1, hsets.2.1]
    simp [Table.map, Table.values, hsets.2.2, dropName, Variable.name]
  · exact hiff.mp hsame 2 _ hlifts (by decide) "a" hties

/-- A line that passes takes a name away from the line that it cites. -/
theorem generalization_changes_cited_line :
    let p (u v : String) : Formula := .pred "P" [.named u, .named v]
    let base := ({} : Context).addBlocks [[
      ⟨1, .all (.named "x") (.ex (.named "y") (p "x" "y")), ⟨"prem", []⟩⟩,
      ⟨2, .ex (.named "y") (p "a" "y"), ⟨"ui", [1]⟩⟩, ⟨3, p "a" "b", ⟨"ei", [2]⟩⟩,
      ⟨4, .ex (.named "y") (p "a" "y"), ⟨"eg", [3]⟩⟩]]
    let ctx := (((base.examine 0).2.examine 1).2.examine 2).2
    (ctx.examine 3).1 = .ok () ∧ ctx.variablesOf 2 = ⟨[("a", ["b"])]⟩ ∧
      (ctx.examine 3).2.variablesOf 2 = ⟨[("a", [])]⟩ := by
  decide +kernel

end Sequitur.Context
