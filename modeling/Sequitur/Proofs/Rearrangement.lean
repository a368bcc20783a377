import Mathlib.Data.List.Forall2
import Mathlib.Data.Set.Function
import Sequitur.Proofs.Moments
import Sequitur.Proofs.Registration
import Sequitur.Proofs.Standing

/-!
# Proofs written down otherwise

The same proof can be added in many ways: the blocks in another order, the lines of a block in
another order, and all numbers renamed so that they keep their order (`Rearranged`).  The lines then
stand at other places.  `Mirror` says how the two contexts correspond before anything is checked:
each line has a twin, numbers stand for twins, the lines come up in the same order, and the same
blocks are registered.

## Key results

- `Rearranged.flatten`: the lines are the same up to order and renaming
- `Rearranged.mirror`: contexts that are made from the same blocks mirror each other
-/

namespace Sequitur

/-- The line with its number and the numbers that it cites renamed. -/
def Line.relabel (f : Int → Int) (l : Line) : Line :=
  { l with
    number := f l.number
    reason := { l.reason with citations := l.reason.citations.map f } }

/-- A line of the blocks has the number or cites it. -/
def Occurs (bs : List (List Line)) (n : Int) : Prop :=
  ∃ l ∈ bs.flatten, n = l.number ∨ n ∈ l.reason.citations

/-- The renaming keeps the order of the numbers of the blocks. -/
def KeepsOrder (f : Int → Int) (bs : List (List Line)) : Prop :=
  ∀ n m, Occurs bs n → Occurs bs m → n < m → f n < f m

/-- The lines `ls'` are the lines `ls` in some order, with the numbers renamed. -/
def Retold (f : Int → Int) (ls ls' : List Line) : Prop := ls'.Perm (ls.map (Line.relabel f))

/-- The blocks `bs'` are the blocks `bs` in some order, each with its lines in some order, with the
    numbers renamed. -/
def Rearranged (f : Int → Int) (bs bs' : List (List Line)) : Prop :=
  ∃ cs, cs.Perm bs ∧ List.Forall₂ (Retold f) cs bs'

variable {f : Int → Int} {bs bs' : List (List Line)}

/-! ## Blocks and lines -/

/-- The numbers are those of the other lines, renamed. -/
theorem Retold.numbers {ls ls' : List Line} (h : Retold f ls ls') :
    (ls'.map Line.number).Perm ((ls.map Line.number).map f) := by
  rw [List.map_map]
  refine (h.map Line.number).trans (List.Perm.of_eq ?_)
  rw [List.map_map]
  rfl

/-- Each item of the first list has a partner in the second. -/
private theorem exists_of_forall₂ {α β : Type} {R : α → β → Prop} {as : List α} {bs : List β}
    (h : List.Forall₂ R as bs) {a : α} (ha : a ∈ as) : ∃ b ∈ bs, R a b := by
  induction h with
  | nil => cases ha
  | @cons c d as bs hcd _ ih =>
    rcases List.mem_cons.mp ha with rfl | ha
    · exact ⟨d, List.mem_cons_self, hcd⟩
    · obtain ⟨b, hb, hab⟩ := ih ha
      exact ⟨b, List.mem_cons_of_mem _ hb, hab⟩

/-- Each block has a counterpart. -/
private theorem Rearranged.exists_retold (h : Rearranged f bs bs') {ls : List Line}
    (hls : ls ∈ bs) : ∃ ls' ∈ bs', Retold f ls ls' := by
  obtain ⟨cs, hperm, hall⟩ := h
  exact exists_of_forall₂ hall (hperm.mem_iff.mpr hls)

/-- Each block is the counterpart of one. -/
private theorem Rearranged.exists_original (h : Rearranged f bs bs') {ls' : List Line}
    (hls' : ls' ∈ bs') : ∃ ls ∈ bs, Retold f ls ls' := by
  obtain ⟨cs, hperm, hall⟩ := h
  obtain ⟨ls, hls, hretold⟩ := exists_of_forall₂ hall.flip hls'
  exact ⟨ls, hperm.mem_iff.mp hls, hretold⟩

/-- The lines are the same up to order and renaming. -/
theorem Rearranged.flatten (h : Rearranged f bs bs') :
    bs'.flatten.Perm (bs.flatten.map (Line.relabel f)) := by
  obtain ⟨cs, hperm, hall⟩ := h
  refine List.Perm.trans ?_ (hperm.flatten.map _)
  clear hperm
  induction hall with
  | nil => exact .nil
  | cons hretold _ ih =>
    rw [List.flatten_cons, List.flatten_cons, List.map_append]
    exact hretold.append ih

/-- The counterpart of a block with lines has lines. -/
private theorem Rearranged.ne_nil (h : Rearranged f bs bs') (hne : ∀ ls ∈ bs, ls ≠ []) :
    ∀ ls' ∈ bs', ls' ≠ [] := by
  rintro ls' hls' rfl
  obtain ⟨ls, hls, hretold⟩ := h.exists_original hls'
  exact hne ls hls (List.map_eq_nil_iff.mp (List.nil_perm.mp hretold))

/-- There are blocks on one side if there are on the other. -/
private theorem Rearranged.eq_nil_iff (h : Rearranged f bs bs') : bs = [] ↔ bs' = [] := by
  obtain ⟨cs, hperm, hall⟩ := h
  cases hall with
  | nil => simp [hperm.nil_eq.symm]
  | cons _ _ =>
    refine iff_of_false ?_ (by simp)
    rintro rfl
    exact absurd hperm.eq_nil (by simp)

/-- The number of a line occurs. -/
private theorem occurs_number {l : Line} (hl : l ∈ bs.flatten) :
    Occurs bs l.number := ⟨l, hl, .inl rfl⟩

/-- A renaming that keeps the order tells the numbers apart. -/
theorem KeepsOrder.injOn (hf : KeepsOrder f bs) : Set.InjOn f {n | Occurs bs n} := by
  intro n hn m hm heq
  rcases Int.lt_trichotomy n m with hlt | rfl | hlt
  · exact absurd (hf n m hn hm hlt) (heq ▸ Int.lt_irrefl _)
  · rfl
  · exact absurd (hf m n hm hn hlt) (heq ▸ Int.lt_irrefl _)

/-- Numbers that are the same after the renaming, up to order, were the same before. -/
private theorem perm_of_map_perm (hf : KeepsOrder f bs) {ns ms : List Int}
    (hns : ∀ n ∈ ns, Occurs bs n) (hms : ∀ m ∈ ms, Occurs bs m)
    (h : (ns.map f).Perm (ms.map f)) : ns.Perm ms := by
  -- on the numbers that occur the renaming can be undone
  have hback : ∀ {ks : List Int}, (∀ k ∈ ks, Occurs bs k) →
      (ks.map f).map (Function.invFunOn f {n | Occurs bs n}) = ks := by
    intro ks hks
    rw [List.map_map]
    exact (List.map_congr_left fun k hk => hf.injOn.leftInvOn_invFunOn (hks k hk)).trans
      (List.map_id ks)
  rw [← hback hns, ← hback hms]
  exact h.map _

/-- Where no number repeats, none does after the renaming. -/
private theorem Rearranged.nodup (h : Rearranged f bs bs') (hf : KeepsOrder f bs)
    (hn : (bs.flatten.map Line.number).Nodup) : (bs'.flatten.map Line.number).Nodup := by
  have hperm : (bs'.flatten.map Line.number).Perm ((bs.flatten.map Line.number).map f) :=
    Retold.numbers h.flatten
  rw [hperm.nodup_iff]
  refine hn.map_on fun n hn m hm heq => ?_
  obtain ⟨l, hl, rfl⟩ := List.mem_map.mp hn
  obtain ⟨k, hk, rfl⟩ := List.mem_map.mp hm
  exact hf.injOn (occurs_number hl) (occurs_number hk) heq

/-! ## Types -/

/-- Two types have the same hypotheses and the same results, in any order. -/
def BlockType.Same (t t' : BlockType) : Prop :=
  t.hypotheses.Perm t'.hypotheses ∧ t.results.Perm t'.results

/-- The order does not matter to which items are left without repetitions. -/
private theorem perm_eraseDups {α : Type} [DecidableEq α] {as bs : List α} (h : as.Perm bs) :
    as.eraseDups.Perm bs.eraseDups := by
  rw [List.perm_ext_iff_of_nodup (nodup_eraseDups as) (nodup_eraseDups bs)]
  intro a
  rw [List.mem_eraseDups, List.mem_eraseDups, h.mem_iff]

/-- What a block shows does not depend on the order of its lines and on the numbers. -/
theorem Retold.same {base base' : Context} {b b' : BlockId}
    (h : Retold f (base.blockLines b) (base'.blockLines b')) :
    (base.blockType b).Same (base'.blockType b') := by
  have hformulas : ((base'.blockLines b').map Line.formula).Perm
      ((base.blockLines b).map Line.formula) := by
    refine (h.map Line.formula).trans (List.Perm.of_eq ?_)
    rw [List.map_map]
    rfl
  have hassumed : (((base'.blockLines b').filter Line.assumes).map Line.formula).Perm
      (((base.blockLines b).filter Line.assumes).map Line.formula) := by
    refine ((h.filter Line.assumes).map Line.formula).trans (List.Perm.of_eq ?_)
    rw [List.filter_map, List.map_map]
    rfl
  exact ⟨perm_eraseDups hassumed.symm, perm_eraseDups hformulas.symm⟩

/-! ## Contexts -/

/-- The blocks at the places `b` and `b'` are the same up to order and renaming. -/
def Paired (f : Int → Int) (bs bs' : List (List Line)) (b b' : BlockId) : Prop :=
  ∃ ls ls', bs[b]? = some ls ∧ bs'[b']? = some ls' ∧ Retold f ls ls'

namespace Context

/-- Each line of `base` has a twin in `base'`, at the place that `τ` gives, with the numbers renamed
    by `f`. -/
structure Mirror (f : Int → Int) (τ : LineId → LineId) (bs bs' : List (List Line))
    (base base' : Context) : Prop where
  unchecked : base.Unchecked
  unchecked' : base'.Unchecked
  store : base'.store = base.store
  standing : base'.standing = base.standing
  injOn : Set.InjOn f {n | Occurs bs n}
  occurs : ∀ {n j}, base.lines.get? n = some j →
    ∀ m ∈ n :: (base.record j).line.reason.citations, Occurs bs m
  line : ∀ {n j}, base.lines.get? n = some j →
    (base'.record (τ j)).line = (base.record j).line.relabel f
  get? : ∀ {n}, Occurs bs n → base'.lines.get? (f n) = (base.lines.get? n).map τ
  inj : ∀ {n m j k}, base.lines.get? n = some j → base.lines.get? m = some k → τ j = τ k → j = k
  main : base.main.isSome ↔ base'.main.isSome
  current : base.Current
  current' : base'.Current
  sorted : base'.sortedLines = base.sortedLines.map fun e => (f e.1, τ e.2)
  registered : ∀ {ns}, (∀ n ∈ ns, Occurs bs n) →
    Option.Rel (Paired f bs bs') (base.registered.get? (sortNumbers ns))
      (base'.registered.get? (sortNumbers (ns.map f)))
  paired : ∀ {b b'}, Paired f bs bs' b b' → (base.blockType b).Same (base'.blockType b') ∧
    ∃ key key', (key, b) ∈ base.registered.entries ∧ (key', b') ∈ base'.registered.entries ∧
      key ≠ [] ∧ key'.Perm (key.map f) ∧ ∀ n ∈ key, Occurs bs n

/-- Adding blocks allocates no sets. -/
private theorem store_addBlocks (ctx : Context) (bs : List (List Line)) :
    (ctx.addBlocks bs).store = ctx.store := by
  induction bs using List.reverseRecOn with
  | nil => rfl
  | append_singleton bs ls ih => rw [addBlocks_concat, addBlock_eq, ih]

/-- Where the line that stands for the renamed number is. -/
def twin (f : Int → Int) (base base' : Context) (j : LineId) : LineId :=
  (base'.lines.get? (f (base.record j).line.number)).getD 0

section

variable {base base' : Context} (hlaid : base.Laid bs) (hlaid' : base'.Laid bs')
  (ha' : base'.Assembled) (h : Rearranged f bs bs')

include hlaid hlaid' ha' h

/-- The twin of a line is the line with the renamed number. -/
private theorem twin_spec {n : Int} {j : LineId} (hj : base.lines.get? n = some j) :
    base'.lines.get? (f n) = some (twin f base base' j) ∧
      (base'.record (twin f base base' j)).line = (base.record j).line.relabel f := by
  obtain ⟨hl, hnumber⟩ := hlaid.line_of_mem_entries (Table.mem_of_get? hj)
  have hl' := h.flatten.mem_iff.mpr (List.mem_map_of_mem hl)
  obtain ⟨j', hj', hline⟩ := hlaid'.exists_mem_entries hl'
  have hget : base'.lines.get? (f (base.record j).line.number) = some j' :=
    Table.get?_of_mem ha'.lines_nodup hj'
  have htwin : twin f base base' j = j' := by rw [twin, hget, Option.getD_some]
  rw [htwin, ← hnumber]
  exact ⟨hget, hline⟩

variable (ha : base.Assembled)

include ha

/-- The lines on the other side are the twins. -/
private theorem mem_entries_twin {n' : Int} {j' : LineId} :
    (n', j') ∈ base'.lines.entries ↔
      ∃ n j, (n, j) ∈ base.lines.entries ∧ n' = f n ∧ j' = twin f base base' j := by
  constructor
  · intro hmem
    obtain ⟨hl', hnumber'⟩ := hlaid'.line_of_mem_entries hmem
    obtain ⟨l, hl, hline⟩ := List.mem_map.mp (h.flatten.mem_iff.mp hl')
    obtain ⟨j, hj, rfl⟩ := hlaid.exists_mem_entries hl
    -- the line is one of the first context with its numbers renamed, and it is its twin
    have hrenamed : n' = f (base.record j).line.number := by
      rw [← hnumber', ← hline]
      rfl
    have hget := (twin_spec hlaid hlaid' ha' h (Table.get?_of_mem ha.lines_nodup hj)).1
    rw [← hrenamed, Table.get?_of_mem ha'.lines_nodup hmem, Option.some_inj] at hget
    exact ⟨_, j, hj, hrenamed, hget⟩
  · rintro ⟨n, j, hj, rfl, rfl⟩
    exact Table.mem_of_get?
      (twin_spec hlaid hlaid' ha' h (Table.get?_of_mem ha.lines_nodup hj)).1

variable (hf : KeepsOrder f bs)

include hf

/-- A renamed number stands for the twin of what the number stood for. -/
private theorem get?_twin {n : Int} (hn : Occurs bs n) :
    base'.lines.get? (f n) = (base.lines.get? n).map (twin f base base') := by
  cases hj : base.lines.get? n with
  | some j => exact (twin_spec hlaid hlaid' ha' h hj).1
  | none =>
    rw [Option.map_none, Option.eq_none_iff_forall_ne_some]
    intro j' hj'
    -- the line would be the twin of one whose number is renamed alike
    obtain ⟨hl', hnumber'⟩ := hlaid'.line_of_mem_entries (Table.mem_of_get? hj')
    obtain ⟨l, hl, hline⟩ := List.mem_map.mp (h.flatten.mem_iff.mp hl')
    have heq : l.number = n := by
      refine hf.injOn (occurs_number hl) hn ?_
      rw [← hnumber', ← hline]
      rfl
    obtain ⟨j, hmem, -⟩ := hlaid.exists_mem_entries hl
    rw [heq] at hmem
    rw [Table.get?_of_mem ha.lines_nodup hmem] at hj
    cases hj

/-- The twins come up in the order of the lines. -/
private theorem sortedLines_twin :
    base'.sortedLines = base.sortedLines.map fun e => (f e.1, twin f base base' e.2) := by
  have hoccurs : ∀ e ∈ base.sortedLines, Occurs bs e.1 := by
    intro e he
    obtain ⟨hl, hnumber⟩ := hlaid.line_of_mem_entries ((sortedLines_perm base).mem_iff.mp he)
    exact hnumber ▸ occurs_number hl
  have hpairs := ha.sortedLines_pairwise
  have hpairs' : (base.sortedLines.map fun e => (f e.1, twin f base base' e.2)).Pairwise
      fun d e => d.1 < e.1 := by
    rw [List.pairwise_map]
    exact hpairs.imp_of_mem fun hd he hlt => hf _ _ (hoccurs _ hd) (hoccurs _ he) hlt
  -- strictly sorted lists with the same members are the same
  have hnodup {l : List (Int × LineId)} (hl : l.Pairwise fun d e => d.1 < e.1) : l.Nodup :=
    hl.imp fun hlt heq => absurd (heq ▸ hlt) (Int.lt_irrefl _)
  refine List.Perm.eq_of_pairwise (fun d e _ _ hlt hgt => absurd hgt (Int.lt_asymm hlt))
    ha'.sortedLines_pairwise hpairs' ?_
  rw [List.perm_ext_iff_of_nodup (hnodup ha'.sortedLines_pairwise) (hnodup hpairs')]
  rintro ⟨n', j'⟩
  rw [(sortedLines_perm base').mem_iff, mem_entries_twin hlaid hlaid' ha' h ha, List.mem_map]
  constructor
  · rintro ⟨n, j, hmem, rfl, rfl⟩
    exact ⟨(n, j), (sortedLines_perm base).mem_iff.mpr hmem, rfl⟩
  · rintro ⟨⟨n, j⟩, hmem, heq⟩
    cases heq
    exact ⟨n, j, (sortedLines_perm base).mem_iff.mp hmem, rfl, rfl⟩

omit ha

/-- Different lines have different twins. -/
private theorem twin_inj {n m : Int} {j k : LineId} (hj : base.lines.get? n = some j)
    (hk : base.lines.get? m = some k) (heq : twin f base base' j = twin f base base' k) :
    j = k := by
  obtain ⟨hl, hnumber⟩ := hlaid.line_of_mem_entries (Table.mem_of_get? hj)
  obtain ⟨hl', hnumber'⟩ := hlaid.line_of_mem_entries (Table.mem_of_get? hk)
  have hline := (twin_spec hlaid hlaid' ha' h hj).2
  rw [heq, (twin_spec hlaid hlaid' ha' h hk).2] at hline
  -- twins of one line have the same number, and the renaming tells numbers apart
  have hnumbers := hf.injOn (occurs_number hl') (occurs_number hl) (congrArg Line.number hline)
  rw [hnumber, hnumber'] at hnumbers
  rw [← hnumbers, hk, Option.some_inj] at hj
  exact hj.symm

end

end Context

/-- A block with the numbers `ns` has a counterpart with the renamed numbers. -/
private theorem Rearranged.exists_block (h : Rearranged f bs bs') {ns : List Int} {b : BlockId}
    {ls : List Line} (hb : bs[b]? = some ls) (hperm : ns.Perm (ls.map Line.number)) :
    ∃ (b' : BlockId) (ls' : List Line), bs'[b']? = some ls' ∧
      (ns.map f).Perm (ls'.map Line.number) ∧ Retold f ls ls' := by
  obtain ⟨ls', hls', hretold⟩ := h.exists_retold (List.mem_of_getElem? hb)
  obtain ⟨b', hb'⟩ := List.getElem?_of_mem hls'
  exact ⟨b', ls', hb', (hperm.map f).trans hretold.numbers.symm, hretold⟩

/-- A block with the renamed numbers is the counterpart of one with the numbers `ns`. -/
private theorem Rearranged.exists_block_of_renamed (h : Rearranged f bs bs')
    (hf : KeepsOrder f bs) {ns : List Int} (hns : ∀ n ∈ ns, Occurs bs n)
    {b' : BlockId} {ls' : List Line} (hb' : bs'[b']? = some ls')
    (hperm : (ns.map f).Perm (ls'.map Line.number)) :
    ∃ (b : BlockId) (ls : List Line), bs[b]? = some ls ∧ ns.Perm (ls.map Line.number) := by
  obtain ⟨ls, hls, hretold⟩ := h.exists_original (List.mem_of_getElem? hb')
  obtain ⟨b, hb⟩ := List.getElem?_of_mem hls
  refine ⟨b, ls, hb, perm_of_map_perm hf hns ?_ (hperm.trans hretold.numbers)⟩
  intro m hm
  obtain ⟨l, hl, rfl⟩ := List.mem_map.mp hm
  exact occurs_number (List.mem_flatten_of_mem hls hl)

open Context

section

variable (h : Rearranged f bs bs') (hf : KeepsOrder f bs) (hne : ∀ ls ∈ bs, ls ≠ [])
  (hn : (bs.flatten.map Line.number).Nodup) (standing : Bindings)

include h hf hne hn

/-- Renamed numbers are those of the counterpart of the block with the numbers. -/
private theorem Rearranged.rel_registered {ns : List Int} (hns : ∀ n ∈ ns, Occurs bs n) :
    let base := ({ standing := standing } : Context).addBlocks bs
    let base' := ({ standing := standing } : Context).addBlocks bs'
    Option.Rel (Paired f bs bs') (base.registered.get? (sortNumbers ns))
      (base'.registered.get? (sortNumbers (ns.map f))) := by
  intro base base'
  have hregistered {b : BlockId} : base.registered.get? (sortNumbers ns) = some b ↔ _ :=
    get?_registered_addBlocks standing hne hn
  have hregistered' {b' : BlockId} :
      base'.registered.get? (sortNumbers (ns.map f)) = some b' ↔ _ :=
    get?_registered_addBlocks standing (h.ne_nil hne) (h.nodup hf hn)
  cases hb : base.registered.get? (sortNumbers ns) with
  | some b =>
    obtain ⟨ls, hls, hperm⟩ := hregistered.mp hb
    obtain ⟨b', ls', hls', hperm', hretold⟩ := h.exists_block hls hperm
    rw [hregistered'.mpr ⟨ls', hls', hperm'⟩]
    exact .some ⟨ls, ls', hls, hls', hretold⟩
  | none =>
    cases hb' : base'.registered.get? (sortNumbers (ns.map f)) with
    | none => exact .none
    | some b' =>
      obtain ⟨ls', hls', hperm'⟩ := hregistered'.mp hb'
      -- a counterpart would come from a block with the numbers, and there is none
      obtain ⟨b, ls, hls, hperm⟩ := h.exists_block_of_renamed hf hns hls' hperm'
      rw [hregistered.mpr ⟨ls, hls, hperm⟩] at hb
      cases hb

/-- A block and its counterpart say the same and are registered under the same numbers. -/
private theorem Rearranged.same_of_paired {b b' : BlockId} (hpaired : Paired f bs bs' b b') :
    let base := ({ standing := standing } : Context).addBlocks bs
    let base' := ({ standing := standing } : Context).addBlocks bs'
    (base.blockType b).Same (base'.blockType b') ∧
      ∃ key key', (key, b) ∈ base.registered.entries ∧ (key', b') ∈ base'.registered.entries ∧
        key ≠ [] ∧ key'.Perm (key.map f) ∧ ∀ n ∈ key, Occurs bs n := by
  intro base base'
  obtain ⟨ls, ls', hls, hls', hretold⟩ := hpaired
  have hn' := h.nodup hf hn
  have hkey := (get?_registered_addBlocks standing hne hn).mpr ⟨ls, hls, List.Perm.refl _⟩
  have hkey' := (get?_registered_addBlocks standing (h.ne_nil hne) hn').mpr
    ⟨ls', hls', List.Perm.refl _⟩
  have hlines : Retold f (base.blockLines b) (base'.blockLines b') := by
    rwa [(laid_addBlocks standing hn).blockLines_eq hls,
      (laid_addBlocks standing hn').blockLines_eq hls']
  refine ⟨hlines.same, _, _, Table.mem_of_get? hkey, Table.mem_of_get? hkey', ?_, ?_, ?_⟩
  · -- a block has lines, so that its key is not empty
    intro hnil
    have hperm := sortNumbers_perm (ls.map Line.number)
    rw [hnil, List.nil_perm, List.map_eq_nil_iff] at hperm
    exact hne ls (List.mem_of_getElem? hls) hperm
  · exact ((sortNumbers_perm _).trans hretold.numbers).trans ((sortNumbers_perm _).map f).symm
  · intro m hm
    obtain ⟨l, hl, rfl⟩ := List.mem_map.mp ((sortNumbers_perm _).mem_iff.mp hm)
    exact occurs_number (List.mem_flatten_of_mem (List.mem_of_getElem? hls) hl)

/-- Contexts that are made from the same blocks mirror each other. -/
theorem Rearranged.mirror :
    let base := ({ standing := standing } : Context).addBlocks bs
    let base' := ({ standing := standing } : Context).addBlocks bs'
    Mirror f (twin f base base') bs bs' base base' := by
  intro base base'
  have hlaid : base.Laid bs := laid_addBlocks standing hn
  have hlaid' : base'.Laid bs' := laid_addBlocks standing (h.nodup hf hn)
  have ha : base.Assembled := assembled_addBlocks standing bs
  have ha' : base'.Assembled := assembled_addBlocks standing bs'
  exact {
    unchecked := unchecked_addBlocks standing bs
    unchecked' := unchecked_addBlocks standing bs'
    store := (store_addBlocks _ bs').trans (store_addBlocks _ bs).symm
    standing := (standing_addBlocks _ bs').trans (standing_addBlocks _ bs).symm
    injOn := hf.injOn
    occurs := fun hj => by
      -- the number of a line occurs in it, and so do those that it cites
      obtain ⟨hl, hnumber⟩ := hlaid.line_of_mem_entries (Table.mem_of_get? hj)
      exact List.forall_mem_cons.mpr ⟨hnumber ▸ occurs_number hl, fun m hm => ⟨_, hl, .inr hm⟩⟩
    line := fun hj => (twin_spec hlaid hlaid' ha' h hj).2
    get? := get?_twin hlaid hlaid' ha' h ha hf
    inj := twin_inj hlaid hlaid' ha' h hf
    main := by
      -- without blocks neither context has a main one
      by_cases hnil : bs = []
      · have hnil' := h.eq_nil_iff.mp hnil
        subst hnil hnil'
        rfl
      · rw [hlaid.main hnil, hlaid'.main fun hnil' => hnil (h.eq_nil_iff.mpr hnil')]
        simp
    current := fun _ hb _ he => hlaid.mem_entries_of_mem_members hb he
    current' := fun _ hb _ he => hlaid'.mem_entries_of_mem_members hb he
    sorted := sortedLines_twin hlaid hlaid' ha' h ha hf
    registered := h.rel_registered hf hne hn standing
    paired := h.same_of_paired hf hne hn standing }

end

end Sequitur
