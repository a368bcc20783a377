import Sequitur.Proofs.Transcript

/-!
# Blocks that are complete

A block gets its type as soon as all its numbers have been accepted.  At every moment of a check a
registered block still waits, for a number that has not been accepted, or it has its type and all
its lines have been examined (`Settled`).  So the types at a moment can be told from the numbers
that have been accepted (`Assembled.types_eq`).

Line numbers may repeat.  A number then stands for the line that was added last, and a block may
hold a line that no number stands for.  Such a line never comes up, and a block that holds one
cannot be given a type: its check breaks off.

## Key results

- `Assembled.types_eq`: the type of a block at a moment
- `Built.gathered`: what is true of a context that was made by adding blocks, also repeatedly
- `blocks_complete_of_check`: in a context that passes every block is accepted and has its type
-/

namespace Sequitur.Context

variable {base ctx ctx' : Context} {accepted : List Int} {pending : List (List Int × BlockId)}
  {rest : List (Int × LineId)} {n : Int} {id : LineId} {key : List Int} {b : BlockId}

/-! ## Types at a moment -/

/-- Every moment has made progress. -/
theorem Assembled.progress_of_reaches (ha : base.Assembled)
    (h : Reaches base accepted pending rest ctx) :
    Progress base accepted ctx ∧ pending ⊆ base.registered.entries := by
  induction h with
  | start hmain hpremises =>
    have hquiet := quiet_usePremises base (base.sortedLines.map Prod.snd)
    rw [hpremises] at hquiet
    exact ⟨ha.progress.quiet hquiet, hquiet.registered ▸ List.Subset.refl _⟩
  | @step ctx ctx₁ _ _ _ _ _ n id _ before hexamine hsymbols hcompile ih =>
    -- each of the three steps after the last moment is progress
    obtain ⟨hprogress, hpending⟩ := ih
    obtain ⟨arg, hexamined⟩ := examined_of_ok hexamine
    have hget := ha.get?_of_reaches before
    have hprogress₁ := hprogress.examine hget (ha.line_lt (Table.mem_of_get? hget)) hexamined
    have hquiet := quiet_useSymbols ctx₁ (ctx.record id).line.formula
    rw [hsymbols] at hquiet
    obtain ⟨hprogress₃, hsub⟩ := (hprogress₁.quiet hquiet).compileReady hpending hcompile
    exact ⟨hprogress₃, List.Subset.trans hsub hpending⟩

/-- Where all members of blocks are what their numbers stand for, a line that passes its examination
    and whose symbols are in order is no obstacle to the run. -/
theorem Assembled.proceeds_of_examine (ha : base.Assembled) (hcurrent : base.Current)
    (h : Reaches base accepted pending ((n, id) :: rest) ctx)
    (hexamine : ctx.examine id = (.ok (), ctx'))
    (hsymbols : ∃ s, (base.record id).line.formula.symbols = .ok s) :
    ctx.Proceeds accepted pending n id := by
  obtain ⟨hprogress, hpending⟩ := ha.progress_of_reaches h
  obtain ⟨ctx₂, pending', ctx₃, hused, hcompile, -⟩ := hprogress.exists_step ha hcurrent hpending
    (ha.get?_of_reaches h) hexamine hsymbols
  exact ⟨pending', ctx₃, ctx', ctx₂, hexamine, hused, hcompile⟩

/-- All lines of the block have been examined. -/
def Surveyed (ctx : Context) (b : BlockId) : Prop :=
  ∀ j ∈ (ctx.block b).members.values, (ctx.record j).argument.isSome

/-- A block is given a type when all its lines have been examined. -/
theorem exists_compile_iff :
    (∃ type ctx', ctx.compile b = (.ok type, ctx')) ↔ ctx.Surveyed b := by
  unfold compile Surveyed
  simp only [List.all_map, List.all_eq_true, Function.comp_apply]
  split
  · rename_i hall
    simpa using hall
  · rename_i hnot
    simpa using hnot

/-- What finding the type of a block has changed. -/
theorem compile_ok {type : BlockType} (h : ctx.compile b = (.ok type, ctx')) :
    ctx.Surveyed b ∧ ctx' = { ctx with types := ctx.types.put b type } := by
  refine ⟨exists_compile_iff.mp ⟨type, ctx', h⟩, ?_⟩
  unfold compile at h
  simp only at h
  split at h <;> cases h
  rfl

/-- After the types of complete blocks were found, no block that waits is complete, and the others
    have their types. -/
theorem compileReady_ok {pending' : List (List Int × BlockId)}
    (h : ctx.compileReady accepted pending = (.ok pending', ctx')) :
    (∀ e ∈ pending', ∃ n ∈ e.1, n ∉ accepted) ∧
      (∀ b, (ctx.types.get? b).isSome → (ctx'.types.get? b).isSome) ∧
      ∀ e ∈ pending, e ∈ pending' ∨ (ctx'.types.get? e.2).isSome ∧ ctx.Surveyed e.2 := by
  induction pending generalizing ctx pending' with
  | nil =>
    cases h
    exact ⟨by simp, fun _ => id, by simp⟩
  | cons e pending ih =>
    obtain ⟨key, b⟩ := e
    simp only [compileReady] at h
    split at h
    · split at h
      · cases h
      · -- the first block is complete; what is found later does not take its type away
        rename_i type ctx₁ hcompile
        obtain ⟨hsurveyed, rfl⟩ := compile_ok hcompile
        obtain ⟨hwaiting, hkept, hsettled⟩ := ih h
        have hput : ∀ c, (ctx.types.get? c).isSome → (ctx'.types.get? c).isSome := fun c hc =>
          hkept c (by rw [Table.get?_put]; split <;> simp [hc])
        refine ⟨hwaiting, hput, List.forall_mem_cons.mpr ⟨.inr ⟨?_, hsurveyed⟩, hsettled⟩⟩
        exact hkept b (by simp)
    · rename_i hnot
      split at h
      · cases h
      · -- the first block waits on, and so do those of the rest that did
        rename_i pending₁ ctx₁ hrest
        cases h
        obtain ⟨hwaiting, hkept, hsettled⟩ := ih hrest
        refine ⟨List.forall_mem_cons.mpr ⟨by simpa using hnot, hwaiting⟩, hkept,
          List.forall_mem_cons.mpr ⟨.inl List.mem_cons_self, fun e he => ?_⟩⟩
        exact (hsettled e he).imp_left (List.mem_cons_of_mem _)

/-- What is known about blocks when the numbers in `accepted` have been accepted. -/
structure Settled (base : Context) (accepted : List Int) (pending : List (List Int × BlockId))
    (ctx : Context) : Prop where
  /-- A block that waits after the first line waits for some number. -/
  waiting : accepted ≠ [] → ∀ {key b}, (key, b) ∈ pending → ∃ n ∈ key, n ∉ accepted
  /-- A block that does not wait has its type, and its lines have been examined. -/
  typed : ∀ {key b}, (key, b) ∈ base.registered.entries →
    (key, b) ∈ pending ∨ (ctx.types.get? b).isSome ∧ ctx.Surveyed b
  /-- Nothing has been examined but the lines that the accepted numbers stand for. -/
  examined : ∀ {id}, (ctx.record id).argument.isSome → ∃ n ∈ accepted, base.lines.get? n = some id

/-- At every moment it is known which blocks have types. -/
private theorem Assembled.settled (ha : base.Assembled)
    (h : Reaches base accepted pending rest ctx) : Settled base accepted pending ctx := by
  induction h with
  | start hmain hpremises =>
    obtain ⟨constants, heq⟩ := usePremises_context base (base.sortedLines.map Prod.snd)
    rw [hpremises] at heq
    subst heq
    -- before the first line all blocks wait, and nothing has been examined
    refine ⟨fun hne => absurd rfl hne, .inl, fun {id} harg => ?_⟩
    rw [show Context.record { base with constants := constants } id = base.record id from rfl,
      ha.unexamined] at harg
    cases harg
  | @step ctx ctx₁ ctx₂ ctx₃ accepted pending pending' n id rest before hexamine hsymbols hcompile
      ih =>
    obtain ⟨arg, hexamined⟩ := examined_of_ok hexamine
    have hget := ha.get?_of_reaches before
    -- the symbols and the types do not matter to what has been examined
    obtain ⟨hwaiting, hkept, hsettled⟩ := compileReady_ok hcompile
    obtain ⟨s, -, rfl⟩ := useSymbols_ok hsymbols
    obtain ⟨types, heq⟩ :=
      compileReady_context (ctx₁.addConstants s.unbound) (n :: accepted) pending
    rw [hcompile] at heq
    subst heq
    have hargument : ∀ j, (ctx.record j).argument.isSome → (ctx₁.record j).argument.isSome := by
      intro j hj
      rw [hexamined.argument]
      split
      · rfl
      · exact hj
    refine ⟨fun _ {key b} hmem => hwaiting (key, b) hmem, fun {key b} hmem => ?_,
      fun {j} harg => ?_⟩
    · -- a block that had its type keeps it, and its lines stay examined
      rcases ih.typed hmem with hpending | ⟨htype, hsurveyed⟩
      · exact hsettled (key, b) hpending
      · refine .inr ⟨hkept b ?_, fun j hj => hargument j (hsurveyed j ?_)⟩
        · rw [← hexamined.types] at htype
          exact htype
        · rwa [block, ← hexamined.blocks, ← block]
    · rw [show Context.record { ctx₁.addConstants s.unbound with types := types } j =
        ctx₁.record j from rfl, hexamined.argument] at harg
      split at harg
      · rename_i hid
        exact ⟨n, List.mem_cons_self, hid.1 ▸ hget⟩
      · obtain ⟨m, hm, hmj⟩ := ih.examined harg
        exact ⟨m, List.mem_cons_of_mem _ hm, hmj⟩

/-- At a moment a block with lines has its type if all its numbers have been accepted, and none
    otherwise. -/
theorem Assembled.types_eq (ha : base.Assembled) (h : Reaches base accepted pending rest ctx)
    (hkey : (key, b) ∈ base.registered.entries) (hne : key ≠ []) :
    ctx.types.get? b =
      if ∀ n ∈ key, n ∈ accepted then some (base.blockType b) else none := by
  have hprogress := (ha.progress_of_reaches h).1
  have hsettled := ha.settled h
  split
  · rename_i hall
    -- a line has been accepted, so a block that waits lacks a number
    obtain ⟨m, hm⟩ := List.exists_mem_of_ne_nil key hne
    rcases hsettled.typed hkey with hpending | ⟨htype, -⟩
    · obtain ⟨n, hn, hnot⟩ := hsettled.waiting (List.ne_nil_of_mem (hall m hm)) hpending
      exact absurd (hall n hn) hnot
    · obtain ⟨type, htype⟩ := Option.isSome_iff_exists.mp htype
      rw [htype, (hprogress.types htype).1]
  · rename_i hnot
    rw [Option.eq_none_iff_forall_ne_some]
    intro type htype
    -- the block is registered under one key only
    obtain ⟨-, key', hkey', hall⟩ := hprogress.types htype
    rw [(ha.key_eq hkey').2, ← (ha.key_eq hkey).2] at hall
    exact hnot hall

/-! ## Contexts made by adding blocks -/

/-- A context that was made from nothing by making blocks of new lines and adding them.  A block may
    be added again later. -/
inductive Built : Context → Prop
  | empty (standing : Bindings) : Built { standing := standing }
  | addBlock {ctx : Context} (before : Built ctx) (ls : List Line) : Built (ctx.addBlock ls).1
  | register {ctx : Context} (before : Built ctx) {b : BlockId} (made : b < ctx.blocks.length) :
      Built (ctx.register b)

/-- Adding blocks to the empty context is one way to make a context. -/
theorem built_addBlocks (standing : Bindings) (bs : List (List Line)) :
    Built (({ standing := standing } : Context).addBlocks bs) := by
  induction bs using List.reverseRecOn with
  | nil => exact .empty standing
  | append_singleton bs ls ih =>
    rw [addBlocks_concat]
    exact ih.addBlock ls

/-- What is true of a context that was made by adding blocks: every block holds lines under their
    numbers, and the numbers of a registered block stand for lines. -/
structure Gathered (ctx : Context) : Prop extends Unchecked ctx where
  member : ∀ {b e}, b < ctx.blocks.length → e ∈ (ctx.block b).members.entries →
    e.2 < ctx.records.length ∧ (ctx.record e.2).line.number = e.1
  key_mem : ∀ {key b n}, (key, b) ∈ ctx.registered.entries → n ∈ key → n ∈ ctx.lines.keys

/-- Nothing is gathered in the empty context. -/
private theorem gathered_empty (standing : Bindings) :
    ({ standing := standing } : Context).Gathered where
  toUnchecked := unchecked_empty standing
  member hb := absurd hb (Nat.not_lt_zero _)
  key_mem h := by cases h

/-- The new block comes last, and the others stay where they are. -/
private theorem block_addBlock (ctx : Context) (ls : List Line) (b : BlockId) :
    (ctx.addBlock ls).1.block b =
      if b = ctx.blocks.length then ctx.nextBlock ls else ctx.block b := by
  rw [addBlock_eq]
  simp only [block, List.getD_eq_getElem?_getD, List.getElem?_append]
  split
  · rename_i hlt
    rw [if_neg (Nat.ne_of_lt hlt)]
  · rename_i hge
    by_cases hb : b = ctx.blocks.length
    · simp [hb]
    · have hout : ctx.blocks.length ≤ b := Nat.not_lt.mp hge
      have hpos := Nat.sub_ne_zero_of_lt (Nat.lt_of_le_of_ne hout (Ne.symm hb))
      simp [hb, hpos, List.getElem?_eq_none hout]

/-- A new block keeps what is true of a gathered context. -/
theorem Gathered.addBlock (h : ctx.Gathered) (ls : List Line) : (ctx.addBlock ls).1.Gathered where
  toUnchecked := h.toUnchecked.addBlock ls
  member := by
    intro b e hb he
    rw [record_addBlock]
    rw [block_addBlock] at he
    rw [addBlock_eq] at hb ⊢
    simp only [List.length_append, List.length_map, List.length_singleton] at hb ⊢
    split at he
    · -- the lines of the new block
      have hplaced := Table.mem_of_mem_ofList he
      obtain ⟨hle, hget⟩ := getElem?_of_mem_placed hplaced
      obtain ⟨l, hl, hnumber⟩ := Option.map_eq_some_iff.mp hget
      rw [if_neg (Nat.not_lt.mpr hle), hl]
      exact ⟨lt_of_mem_placed hplaced, hnumber⟩
    · -- an older block, whose lines are where they were
      rename_i hold
      obtain ⟨hlt, hnumber⟩ := h.member (Nat.lt_of_le_of_ne (Nat.lt_succ_iff.mp hb) hold) he
      rw [if_pos hlt]
      exact ⟨Nat.lt_add_right _ hlt, hnumber⟩
  key_mem := by
    intro key b n hkey hn
    rw [addBlock_eq] at hkey ⊢
    rw [Table.mem_keys_putAll]
    -- the numbers of the new block stand for its own lines now
    rcases Table.mem_entries_put hkey with heq | hkey
    · cases heq
      exact .inl ((sortBy_perm _ _).mem_iff.mp hn)
    · exact .inr (h.key_mem hkey hn)

/-- Adding a block again makes its numbers stand for its lines again. -/
theorem Gathered.register (h : ctx.Gathered) (hb : b < ctx.blocks.length) :
    (ctx.register b).Gathered where
  lines_nodup := Table.nodup_putAll h.lines_nodup _
  registered_nodup := Table.nodup_put h.registered_nodup _ _
  line_lt he := (Table.mem_entries_putAll he).elim (fun he => (h.member hb he).1) h.line_lt
  key_eq hkey := by
    rcases Table.mem_entries_put hkey with heq | hkey
    · -- the block itself is among the registered ones now
      cases heq
      exact ⟨hb, rfl⟩
    · exact h.key_eq hkey
  unexamined := h.unexamined
  untyped := h.untyped
  number_eq he := (Table.mem_entries_putAll he).elim (fun he => (h.member hb he).2) h.number_eq
  constants_eq := h.constants_eq
  scope_eq := h.scope_eq
  member hc he := h.member hc he
  key_mem := by
    intro key c n hkey hn
    refine Table.mem_keys_putAll.mpr ?_
    rcases Table.mem_entries_put hkey with heq | hkey
    · cases heq
      exact .inl ((sortBy_perm _ _).mem_iff.mp hn)
    · exact .inr (h.key_mem hkey hn)

/-- Every context that was made by adding blocks is gathered. -/
theorem Built.gathered (h : Built ctx) : ctx.Gathered := by
  induction h with
  | empty standing => exact gathered_empty standing
  | addBlock _ ls ih => exact ih.addBlock ls
  | register _ hb ih => exact ih.register hb

/-! ## Contexts that pass -/

/-- At the end of a check that answers yes all numbers have been accepted. -/
theorem exists_reaches_end (h : base.check.result = .ok true) :
    ∃ accepted pending, Reaches base accepted pending [] base.check.context ∧
      ∀ n, n ∈ base.lines.keys → n ∈ accepted := by
  obtain ⟨hmain, ctx₀, hpremises, haccepts⟩ := check_eq_true.mp ⟨h, rfl⟩
  have hstart : Reaches base [] ctx₀.registered.entries (base.sortedLines ++ []) ctx₀ := by
    rw [List.append_nil]
    exact .start hmain hpremises
  obtain ⟨accepted, pending, hreaches⟩ := Reaches.of_accepts haccepts hstart
  refine ⟨accepted, pending, hreaches, fun n hn => ?_⟩
  -- no line is left, so those that have been accepted are all
  obtain ⟨done, hsorted, rfl⟩ := hreaches.exists_sortedLines_eq
  rw [List.append_nil] at hsorted
  rw [List.mem_reverse, ← hsorted]
  exact ((sortedLines_perm base).map Prod.fst).mem_iff.mpr hn

/-- In a context that was made by adding blocks and passes its check, every line of every registered
    block is the one that its number stands for and was accepted, and the block has the type that
    its lines say. -/
theorem blocks_complete_of_check (base : Context) (hbuilt : Built base)
    (hcheck : base.check.result = .ok true) (key : List Int) (b : BlockId)
    (hb : base.registered.get? key = some b) (hne : (base.block b).members.entries ≠ []) :
    (∀ n id, (n, id) ∈ (base.block b).members.entries →
      (base.record id).line.number = n ∧ base.lines.get? n = some id ∧
        (id, (base.record id).line) ∈ base.check.acceptances) ∧
      base.check.context.types.get? b = some (base.blockType b) := by
  have hg := hbuilt.gathered
  have hkey := Table.mem_of_get? hb
  obtain ⟨hlt, hsorted⟩ := hg.key_eq hkey
  obtain ⟨accepted, pending, hreaches, hall⟩ := exists_reaches_end hcheck
  have hready : ∀ n ∈ key, n ∈ accepted := fun n hn => hall n (hg.key_mem hkey hn)
  have hkeys : key ≠ [] := by
    obtain ⟨e, he⟩ := List.exists_mem_of_ne_nil _ hne
    rw [hsorted]
    exact List.ne_nil_of_mem ((sortBy_perm _ _).mem_iff.mpr (List.mem_map_of_mem he))
  refine ⟨fun n id hmem => ?_, ?_⟩
  · obtain ⟨-, hnumber⟩ := hg.member hlt hmem
    -- the block does not wait any more, so the line has been examined under some number
    have hsettled := hg.settled hreaches
    have hsurveyed : base.check.context.Surveyed b := by
      rcases hsettled.typed hkey with hpending | ⟨-, hsurveyed⟩
      · obtain ⟨m, hm⟩ := List.exists_mem_of_ne_nil key hkeys
        obtain ⟨k, hk, hnot⟩ := hsettled.waiting (List.ne_nil_of_mem (hready m hm)) hpending
        exact absurd (hready k hk) hnot
      · exact hsurveyed
    have hmember : id ∈ (base.check.context.block b).members.values := by
      rw [block, hreaches.frame.blocks, ← block]
      exact List.mem_map_of_mem hmem
    obtain ⟨m, -, hget⟩ := hsettled.examined (hsurveyed id hmember)
    -- a line bears one number, so it was examined under its own
    obtain rfl : m = n := (hg.number_eq (Table.mem_of_get? hget)).symm.trans hnumber
    refine ⟨hnumber, hget, mem_acceptances_check_iff.mpr ?_⟩
    obtain ⟨accepted, pending, rest, ctx, hcomes, hadmits⟩ :=
      exists_reaches_of_check hcheck (Table.mem_of_get? hget)
    exact ⟨accepted, pending, m, rest, ctx, hcomes, hadmits, (hcomes.frame.line id).symm⟩
  · rw [hg.types_eq hreaches hkey hkeys, if_pos hready]

/-- A block with a number twice, whose numbers stood for the lines of another block until it was
    added again. -/
theorem blocks_complete_of_check_added_again :
    let a : Formula := .atom "A"
    let base := (({} : Context).addBlocks [
      [⟨1, a, ⟨"hyp", []⟩⟩, ⟨2, .atom "B", ⟨"hyp", []⟩⟩, ⟨2, a, ⟨"dn", [1]⟩⟩],
      [⟨2, .atom "C", ⟨"prem", []⟩⟩, ⟨1, .atom "D", ⟨"dn", [2]⟩⟩]]).register 0
    (Built base ∧ base.check.result = .ok true ∧ base.registered.get? [1, 2] = some 0 ∧
      (base.block 0).members.entries ≠ []) ∧
    (∀ n id, (n, id) ∈ (base.block 0).members.entries →
      (base.record id).line.number = n ∧ base.lines.get? n = some id ∧
        (id, (base.record id).line) ∈ base.check.acceptances) ∧
      base.check.context.types.get? 0 = some (base.blockType 0) := by
  intro a base
  have hbuilt : Built base := (built_addBlocks {} _).register (by decide +kernel)
  have hfacts : base.check.result = .ok true ∧ base.registered.get? [1, 2] = some 0 ∧
      (base.block 0).members.entries ≠ [] := by
    clear hbuilt
    decide +kernel +revert
  obtain ⟨hcheck, hb, hne⟩ := hfacts
  exact ⟨⟨hbuilt, hcheck, hb, hne⟩, blocks_complete_of_check base hbuilt hcheck [1, 2] 0 hb hne⟩

end Sequitur.Context
