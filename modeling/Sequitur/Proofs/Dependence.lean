import Mathlib.Logic.Relation
import Sequitur.Proofs.Assembly
import Sequitur.Proofs.Quantification

/-!
# What a line depends on

A line depends on the lines that it cites and on all that these depend on.  The search for them
follows every chain of citations and does not remember where it has been; it gives up on a chain
with more lines than there are.  Such a chain comes by some line twice, so it runs in a circle, and
a search gives up only where the citations never end.

## Key results

- `Grounded.exists_citedFrom`: a search that is given enough lines comes to an end
- `mem_citedFrom`: what it finds is what chains of citations lead to
- `dependences_reachable`: when the dependences of a line can be found, and which they are
-/

namespace Sequitur

/-! ## Lists of answers -/

section

variable {α β ε : Type} {f : α → Except ε β} {as : List α}

/-- There are answers to all of a list when there is one to each. -/
private theorem exists_mapM_ok_iff : (∃ bs, as.mapM f = .ok bs) ↔ ∀ a ∈ as, ∃ b, f a = .ok b := by
  induction as with
  | nil => simp [pure, Except.pure]
  | cons a as ih =>
    rw [List.forall_mem_cons, ← ih, List.mapM_cons]
    cases ha : f a with
    | error e => simp [bind, Except.bind]
    | ok b =>
      cases has : as.mapM f with
      | error e => simp [bind, Except.bind]
      | ok bs => simp [bind, Except.bind, pure, Except.pure]

/-- The answers to a list are the answers to its members. -/
private theorem mem_of_mapM_ok {bs : List β} (h : as.mapM f = .ok bs) {b : β} :
    b ∈ bs ↔ ∃ a ∈ as, f a = .ok b := by
  induction as generalizing bs with
  | nil =>
    cases h
    simp
  | cons a as ih =>
    rw [List.mapM_cons] at h
    cases ha : f a with
    | error e => simp [ha, bind, Except.bind] at h
    | ok c =>
      cases has : as.mapM f with
      | error e => simp [ha, has, bind, Except.bind] at h
      | ok cs =>
        simp only [ha, has, bind, Except.bind, pure, Except.pure, Except.ok.injEq] at h
        subst h
        simp [ha, ih has, eq_comm (a := b)]

end

namespace Context

open Relation

variable {ctx : Context} {n m k : Int} {bound : Nat} {ns : List Int}

/-! ## One step of the search -/

/-- There is a line under a number that is in the table. -/
private theorem isSome_line?_iff : (ctx.line? n).isSome ↔ n ∈ ctx.lines.keys := by
  rw [line?, Option.isSome_map, ← Table.contains_iff, Table.contains]

private theorem mem_eraseDups_sortNumbers : m ∈ (sortNumbers ns).eraseDups ↔ m ∈ ns := by
  rw [List.mem_eraseDups, (sortNumbers_perm ns).mem_iff]

/-- A search that may follow chains of one line more finds something when there is a line and the
    search from each line that it cites does. -/
private theorem exists_citedFrom_succ :
    (∃ ns, ctx.citedFrom (bound + 1) n = .ok ns) ↔
      (ctx.line? n).isSome ∧ ∀ k, ctx.Cites n k → ∃ ms, ctx.citedFrom bound k = .ok ms := by
  simp only [citedFrom, Cites]
  cases hl : ctx.line? n with
  | none => simp
  | some l =>
    -- sorting the citations and dropping repetitions loses none of them
    have hall : (∃ bs, (sortNumbers l.reason.citations).eraseDups.mapM (ctx.citedFrom bound) =
        .ok bs) ↔ _ := exists_mapM_ok_iff
    simp only [mem_eraseDups_sortNumbers] at hall
    simp only [Option.isSome_some, true_and, Option.some.injEq, exists_eq_left', ← hall]
    cases (sortNumbers l.reason.citations).eraseDups.mapM (ctx.citedFrom bound) <;> simp

/-- What a search finds is cited by the line or found from a line that it cites. -/
private theorem mem_citedFrom_succ (h : ctx.citedFrom (bound + 1) n = .ok ns) :
    m ∈ ns ↔ ∃ k, ctx.Cites n k ∧ (m = k ∨ ∃ ms, ctx.citedFrom bound k = .ok ms ∧ m ∈ ms) := by
  simp only [citedFrom] at h
  split at h
  · cases h
  · rename_i l hl
    split at h
    · cases h
    · rename_i further hfurther
      cases h
      -- what the searches from the cited lines have found, each for itself
      have hfound {ms : List Int} := mem_of_mapM_ok hfurther (b := ms)
      simp only [mem_eraseDups_sortNumbers] at hfound
      simp only [List.mem_append, mem_eraseDups_sortNumbers, List.mem_flatten, hfound, Cites, hl,
        Option.some.injEq, exists_eq_left']
      constructor
      · rintro (hm | ⟨ms, ⟨k, hk, hms⟩, hm⟩)
        · exact ⟨m, hm, .inl rfl⟩
        · exact ⟨k, hk, .inr ⟨ms, hms, hm⟩⟩
      · rintro ⟨k, hk, rfl | ⟨ms, hms, hm⟩⟩
        · exact .inl hk
        · exact .inr ⟨ms, ⟨k, hk, hms⟩, hm⟩

/-! ## What is found -/

/-- A search finds the numbers that chains of citations lead to. -/
theorem mem_citedFrom (h : ctx.citedFrom bound n = .ok ns) : m ∈ ns ↔ TransGen ctx.Cites n m := by
  induction bound generalizing n ns with
  | zero => cases h
  | succ bound ih =>
    rw [mem_citedFrom_succ h, TransGen.head'_iff]
    have hcited := (exists_citedFrom_succ.mp ⟨ns, h⟩).2
    refine exists_congr fun k => and_congr_right fun hk => ?_
    -- the search from a cited line has found something, and all that it leads to
    obtain ⟨ms, hms⟩ := hcited k hk
    rw [reflTransGen_iff_eq_or_transGen, ← ih hms]
    refine or_congr_right ⟨?_, fun hm => ⟨ms, hms, hm⟩⟩
    rintro ⟨ms', hms', hm⟩
    cases hms.symm.trans hms'
    exact hm

/-! ## When something is found -/

/-- Every line that the citations lead to from `n` is there, `n` included, and none of them leads
    back to itself. -/
structure Grounded (ctx : Context) (n : Int) : Prop where
  present : ∀ m, ReflTransGen ctx.Cites n m → (ctx.line? m).isSome
  acyclic : ∀ m, ReflTransGen ctx.Cites n m → ¬ TransGen ctx.Cites m m

/-- A line is grounded when it is there and all lines that it cites are grounded. -/
private theorem grounded_iff :
    ctx.Grounded n ↔ (ctx.line? n).isSome ∧ ∀ k, ctx.Cites n k → ctx.Grounded k := by
  constructor
  · intro h
    refine ⟨h.present n .refl, fun k hk => ⟨fun m hm => ?_, fun m hm => ?_⟩⟩
    · exact h.present m (.head hk hm)
    · exact h.acyclic m (.head hk hm)
  · intro ⟨hline, hcited⟩
    -- a chain from the line is empty or goes through a line that it cites
    refine ⟨fun m hm => ?_, fun m hm hcircle => ?_⟩
    · rcases hm.cases_head with rfl | ⟨k, hk, hkm⟩
      · exact hline
      · exact (hcited k hk).present m hkm
    · rcases hm.cases_head with rfl | ⟨k, hk, hkm⟩
      · -- a circle through the line itself goes through a line that it cites
        obtain ⟨k, hk, hback⟩ := TransGen.head'_iff.mp hcircle
        exact (hcited k hk).acyclic _ hback hcircle
      · exact (hcited k hk).acyclic m hkm hcircle

/-- Where a search finds something, the citations come to an end. -/
private theorem grounded_of_citedFrom (h : ctx.citedFrom bound n = .ok ns) : ctx.Grounded n := by
  induction bound generalizing n ns with
  | zero => cases h
  | succ bound ih =>
    obtain ⟨hline, hcited⟩ := exists_citedFrom_succ.mp ⟨ns, h⟩
    refine grounded_iff.mpr ⟨hline, fun k hk => ?_⟩
    obtain ⟨ms, hms⟩ := hcited k hk
    exact ih hms

/-- A search finds something if it may follow chains of as many lines as there are, apart from those
    that led to `n`.  These are different lines, since none of them leads back to itself. -/
theorem Grounded.exists_citedFrom (h : ctx.Grounded n) {seen : List Int} (hnodup : seen.Nodup)
    (hseen : ∀ k ∈ seen, k ∈ ctx.lines.keys ∧ TransGen ctx.Cites k n)
    (hbound : ctx.lines.size < seen.length + bound) : ∃ ns, ctx.citedFrom bound n = .ok ns := by
  induction bound generalizing n seen with
  | zero =>
    -- more lines have been seen than there are
    have hle : seen.length ≤ ctx.lines.keys.length :=
      hnodup.length_le_of_subset fun k hk => (hseen k hk).1
    have hsize : ctx.lines.keys.length = ctx.lines.size := List.length_map _
    omega
  | succ bound ih =>
    obtain ⟨hline, hcited⟩ := grounded_iff.mp h
    refine exists_citedFrom_succ.mpr ⟨hline, fun k hk => ?_⟩
    -- had the line been seen before, it would lead back to itself
    have hnew : n ∉ seen := fun hn => h.acyclic n .refl (hseen n hn).2
    have hlength : ctx.lines.size < (n :: seen).length + bound := by
      rw [List.length_cons]
      omega
    refine ih (hcited k hk) (List.nodup_cons.mpr ⟨hnew, hnodup⟩) ?_ hlength
    intro j hj
    rcases List.mem_cons.mp hj with rfl | hj
    · exact ⟨isSome_line?_iff.mp hline, .single hk⟩
    · exact ⟨(hseen j hj).1, (hseen j hj).2.tail hk⟩

/-! ## Citations that go down -/

/-- A chain of citations goes down if all its citations do. -/
private theorem lt_of_chain (hlower : ∀ k m, ReflTransGen ctx.Cites n k → ctx.Cites k m → m < k)
    (hk : ReflTransGen ctx.Cites n k) (h : TransGen ctx.Cites k m) : m < k := by
  induction h with
  | single hm => exact hlower k _ hk hm
  | tail hchain hm ih =>
    -- the last citation starts from a line that is led to as well
    have hlt := hlower _ _ (hk.trans hchain.to_reflTransGen) hm
    omega

/-- A line is grounded if all citations that it leads to go down to lines that are there. -/
private theorem grounded_of_lower (hline : (ctx.line? n).isSome)
    (hlower : ∀ k m, ReflTransGen ctx.Cites n k → ctx.Cites k m →
      m < k ∧ (ctx.line? m).isSome) : ctx.Grounded n where
  present m hm := by
    cases hm with
    | refl => exact hline
    | tail hk hm => exact (hlower _ _ hk hm).2
  acyclic m hm hcircle := by
    have hlt := lt_of_chain (fun k m hk hm => (hlower k m hk hm).1) hm hcircle
    omega

/-! ## The result -/

/-- The dependences are what a search of all lines finds, sorted and each once. -/
private theorem dependences_eq_ok :
    ctx.dependences n = .ok ns ↔
      ∃ ms, ctx.citedFrom (ctx.lines.size + 1) n = .ok ms ∧ ns = (sortNumbers ms).eraseDups := by
  unfold dependences
  cases ctx.citedFrom (ctx.lines.size + 1) n <;> simp [eq_comm]

/-- The dependences of a line are found just when every line that the citations lead to is there and
    none of them leads back to itself.  They are the numbers to which one citation or more leads,
    each of them once and in increasing order.  If all citations go down, it is enough that the
    lines are there. -/
theorem dependences_reachable (ctx : Context) (n : Int) :
    (ctx.Grounded n → ∃ ns, ctx.dependences n = .ok ns ∧ ns.Pairwise (· < ·) ∧
      ∀ m, m ∈ ns ↔ TransGen ctx.Cites n m) ∧
    (∀ ns, ctx.dependences n = .ok ns → ctx.Grounded n) ∧
    ((ctx.line? n).isSome → (∀ k m, ReflTransGen ctx.Cites n k → ctx.Cites k m →
      m < k ∧ (ctx.line? m).isSome) → ctx.Grounded n) := by
  refine ⟨fun h => ?_, fun ns hns => ?_, grounded_of_lower⟩
  · have hfound : ∃ ms, ctx.citedFrom (ctx.lines.size + 1) n = .ok ms :=
      h.exists_citedFrom List.nodup_nil (by simp) (by simp)
    obtain ⟨ms, hms⟩ := hfound
    refine ⟨_, dependences_eq_ok.mpr ⟨ms, hms, rfl⟩, ?_, fun m => ?_⟩
    · exact pairwise_lt_eraseDups (sortBy_pairwise id ms)
    · rw [mem_eraseDups_sortNumbers, mem_citedFrom hms]
  · obtain ⟨ms, hms, -⟩ := dependences_eq_ok.mp hns
    exact grounded_of_citedFrom hms

/-- The last line leads to the first in two ways, which counts once. -/
theorem dependences_reachable_shared :
    let ctx := ({} : Context).addBlocks [[
      ⟨1, .conj (.atom "A") (.atom "B"), ⟨"prem", []⟩⟩, ⟨2, .atom "A", ⟨"simpl", [1]⟩⟩,
      ⟨3, .atom "B", ⟨"simpl", [1]⟩⟩,
      ⟨4, .conj (.atom "A") (.atom "B"), ⟨"conj", [2, 3]⟩⟩]]
    ctx.Grounded 4 ∧ ctx.dependences 4 = .ok [1, 2, 3] ∧
      ∀ m, m ∈ [1, 2, 3] ↔ TransGen ctx.Cites 4 m := by
  intro ctx
  have hlower : ∀ e ∈ ctx.lines.entries, ∀ m ∈ (ctx.record e.2).line.reason.citations,
      m < e.1 ∧ (ctx.line? m).isSome := by
    decide +kernel +revert
  have hline : (ctx.line? 4).isSome := by
    clear hlower
    decide +kernel +revert
  obtain ⟨hfound, -, hgrounds⟩ := dependences_reachable ctx 4
  have hgrounded : ctx.Grounded 4 := by
    refine hgrounds hline fun k m _ hcites => ?_
    obtain ⟨l, hl, hm⟩ := hcites
    obtain ⟨id, hid, rfl⟩ := Option.map_eq_some_iff.mp hl
    exact hlower (k, id) (Table.mem_of_get? hid) m hm
  have hdependences : ctx.dependences 4 = .ok [1, 2, 3] := by
    clear hlower hline hfound hgrounds hgrounded
    decide +kernel +revert
  obtain ⟨ns, hns, -, hmem⟩ := hfound hgrounded
  cases hdependences.symm.trans hns
  exact ⟨hgrounded, hdependences, hmem⟩

end Context

end Sequitur
