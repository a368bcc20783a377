import Mathlib.Logic.Relation
import Sequitur.Proofs.Moments
import Sequitur.Proofs.Scopes

/-!
# Where names in scope come from

A name that a line has in scope was introduced by a universal instantiation, and a chain of
citations leads there, each to a lower number, past no line that generalizes the name.  Lines that
were accepted have exactly these names in scope (`Carries`).  What a name depends on was chosen by
an existential instantiation which carries the name itself (`Tied`).

The invariant of a run is `Scoped`: it tells the scopes at a moment from the lines alone.

## Key results

- `Scoped.examine`: accepting a line keeps the invariant
- `Unchecked.scoped`: what is in scope at every moment of a check
-/

namespace Sequitur.Context

open Relation

/-! ## Chains of citations -/

/-- The line with the number `n` cites the lower number `m`. -/
def Descends (ctx : Context) (n m : Int) : Prop := ctx.Cites n m ∧ m < n

/-- The line with the number `n` has the name `c` from the lower number `m`, unless `m` has it not:
    it does not generalize the name. -/
def Hands (ctx : Context) (c : String) (n m : Int) : Prop :=
  ctx.Descends n m ∧ ∀ w, ctx.Generalizes n w → w.name ≠ c

/-- The name `c` was introduced by a line from which it is handed on to the line with the number
    `n`. -/
def Carries (ctx : Context) (n : Int) (c : String) : Prop :=
  ∃ u v body w, ReflTransGen (ctx.Hands c) n u ∧ ctx.Introduces u v body w ∧ w.name = c

/-- The name `d` was chosen while `c` was in scope, by a line that the line with the number `n`
    leads down to. -/
def Tied (ctx : Context) (n : Int) (c d : String) : Prop :=
  ∃ e w, ReflTransGen ctx.Descends n e ∧ ctx.Chooses e w ∧ w.name = d ∧ ctx.Carries e c

variable {base ctx ctx' : Context} {accepted : List Int} {pending : List (List Int × BlockId)}
  {rest : List (Int × LineId)} {n m : Int} {id : LineId} {c d : String}

/-- A line carries what it introduces and what it is handed. -/
private theorem carries_iff :
    ctx.Carries n c ↔ (∃ v body w, ctx.Introduces n v body w ∧ w.name = c) ∨
      ∃ m, ctx.Hands c n m ∧ ctx.Carries m c := by
  constructor
  · rintro ⟨u, v, body, w, hchain, hintro⟩
    -- the chain is empty, or begins with a line that hands the name on
    rcases hchain.cases_head with rfl | ⟨m, hhands, hchain⟩
    · exact .inl ⟨v, body, w, hintro⟩
    · exact .inr ⟨m, hhands, u, v, body, w, hchain, hintro⟩
  · rintro (⟨v, body, w, hintro⟩ | ⟨m, hhands, u, v, body, w, hchain, hintro⟩)
    · exact ⟨n, v, body, w, .refl, hintro⟩
    · exact ⟨u, v, body, w, .head hhands hchain, hintro⟩

/-- What is tied for a line is tied for those that lead down to it. -/
theorem Tied.head (hd : ctx.Descends n m) (h : ctx.Tied m c d) : ctx.Tied n c d := by
  obtain ⟨e, w, hchain, hchosen⟩ := h
  exact ⟨e, w, .head hd hchain, hchosen⟩

/-- What carries a name is a line. -/
theorem Carries.exists_line (h : ctx.Carries n c) : ∃ j, ctx.lines.get? n = some j := by
  have hline : ∃ l, ctx.line? n = some l := by
    rcases carries_iff.mp h with ⟨v, body, w, ⟨l, k, hfrom, -⟩, -⟩ | ⟨m, ⟨⟨⟨l, hl, -⟩, -⟩, -⟩, -⟩
    · exact ⟨l, hfrom.1⟩
    · exact ⟨l, hl⟩
  obtain ⟨l, hl⟩ := hline
  obtain ⟨j, hj, -⟩ := Option.map_eq_some_iff.mp hl
  exact ⟨j, hj⟩

/-- Citations are the same as long as the lines are. -/
theorem Frame.descends (h : Frame ctx ctx') : ctx'.Descends = ctx.Descends := by
  funext n m
  rw [Descends, Descends, Cites, Cites, h.line?]

/-- So are the names that lines carry. -/
theorem Frame.carries (h : Frame ctx ctx') : ctx'.Carries = ctx.Carries := by
  have hhands : ctx'.Hands = ctx.Hands := by
    funext c n m
    rw [Hands, Hands, h.descends, h.generalizes]
  funext n c
  rw [Carries, Carries, hhands, h.introduces]

/-- The cited lines are those that the numbers stand for. -/
theorem exists_mem_cite_iff {ns : List Int} {ids : List LineId} (h : ctx.cite ns = .ok ids)
    {P : LineId → Prop} :
    (∃ k ∈ ids, P k) ↔ ∃ m ∈ ns, ∃ k, ctx.lines.get? m = some k ∧ P k := by
  have hmem : ∀ k, k ∈ ids ↔ ∃ m ∈ ns, ctx.lines.get? m = some k := by
    intro k
    rw [← List.mem_map, map_get?_of_cite h, List.mem_map]
    simp
  constructor
  · rintro ⟨k, hk, hP⟩
    obtain ⟨m, hm, hmk⟩ := (hmem k).mp hk
    exact ⟨m, hm, k, hmk, hP⟩
  · rintro ⟨m, hm, k, hmk, hP⟩
    exact ⟨k, (hmem k).mpr ⟨m, hm, hmk⟩, hP⟩

/-! ## What is in scope at a moment -/

/-- What the lines have in scope when the numbers in `accepted` have been accepted. -/
structure Scoped (base : Context) (accepted : List Int) (ctx : Context) : Prop where
  housed : ctx.Housed
  /-- A line that has not been accepted has nothing in scope. -/
  waiting : ∀ {n id c}, base.lines.get? n = some id → ctx.InScope id c → n ∈ accepted
  /-- A line that has been accepted has in scope what it carries. -/
  carried : ∀ {n id c}, base.lines.get? n = some id → n ∈ accepted →
    (ctx.InScope id c ↔ base.Carries n c)
  /-- What a name depends on is tied to it. -/
  tied : ∀ {n id c d}, base.lines.get? n = some id → n ∈ accepted → ctx.Ties id c d →
    base.Tied n c d

/-- A name that depends on something is in scope. -/
private theorem InScope.of_ties (h : ctx.Ties id c d) : ctx.InScope id c := by
  obtain ⟨i, hmem, -⟩ := ties_iff.mp h
  exact List.mem_map_of_mem hmem

section

variable (h : Scoped base accepted ctx) (hf : Frame base ctx)
  (hlow : ∀ {m}, m ∈ accepted ↔ m < n ∧ ∃ j, base.lines.get? m = some j)
  (hget : base.lines.get? n = some id)

include h hf hlow hget

/-- A cited line that has something in scope has been accepted, so its number is lower. -/
theorem Scoped.descends (hm : m ∈ (ctx.record id).line.reason.citations) {k : LineId}
    (hmk : ctx.lines.get? m = some k) (hscope : ctx.InScope k c) :
    base.Descends n m ∧ base.lines.get? m = some k ∧ m ∈ accepted := by
  rw [hf.line] at hm
  rw [hf.lines] at hmk
  have haccepted := h.waiting hmk hscope
  exact ⟨⟨⟨_, line?_of_get? hget, hm⟩, (hlow.mp haccepted).1⟩, hmk, haccepted⟩

/-- What the cited lines hand on is what lower lines carry. -/
theorem Scoped.exists_inScope_iff :
    (∃ m ∈ (ctx.record id).line.reason.citations, ∃ k, ctx.lines.get? m = some k ∧
      ctx.InScope k c) ↔ ∃ m, base.Descends n m ∧ base.Carries m c := by
  constructor
  · rintro ⟨m, hm, k, hmk, hscope⟩
    obtain ⟨hdescends, hmk, haccepted⟩ := h.descends hf hlow hget hm hmk hscope
    exact ⟨m, hdescends, (h.carried hmk haccepted).mp hscope⟩
  · rintro ⟨m, ⟨⟨l, hl, hm⟩, hlt⟩, hcarries⟩
    rw [line?_of_get? hget, Option.some_inj] at hl
    subst hl
    -- a lower number that stands for a line has been accepted
    obtain ⟨k, hmk⟩ := hcarries.exists_line
    rw [hf.line, hf.lines]
    exact ⟨m, hm, k, hmk, (h.carried hmk (hlow.mpr ⟨hlt, k, hmk⟩)).mpr hcarries⟩

/-- What a name depends on for the cited lines is tied to it. -/
theorem Scoped.tied_of_cited {ids : List LineId}
    (hids : ctx.cite (ctx.record id).line.reason.citations = .ok ids)
    (ht : ∃ k ∈ ids, ctx.Ties k c d) : ∃ m, base.Descends n m ∧ base.Tied m c d := by
  obtain ⟨m, hm, k, hmk, ht⟩ := (exists_mem_cite_iff hids).mp ht
  obtain ⟨hdescends, hmk, haccepted⟩ := h.descends hf hlow hget hm hmk (.of_ties ht)
  exact ⟨m, hdescends, h.tied hmk haccepted ht⟩

/-- Accepting a line keeps what is known about scopes. -/
theorem Scoped.examine (hu : base.Unchecked) (hexamine : ctx.examine id = (.ok (), ctx')) :
    Scoped base (n :: accepted) ctx' := by
  have hget' : ctx.lines.get? n = some id := by
    rw [hf.lines]
    exact hget
  have hlt : id < ctx.records.length := by
    rw [hf.records_length]
    exact hu.line_lt (Table.mem_of_get? hget)
  obtain ⟨ids, hids, hhanded⟩ := handed_of_examine hget' hlt h.housed hexamine
  -- what the line itself has in scope
  have hself : ∀ {c}, ctx'.InScope id c ↔ base.Carries n c := by
    intro c
    rw [hhanded.inScope_self, exists_mem_cite_iff hids, h.exists_inScope_iff hf hlow hget,
      hf.introduces, hf.generalizes, carries_iff]
    refine or_congr_right ⟨?_, ?_⟩
    · rintro ⟨⟨m, hdescends, hcarries⟩, hkept⟩
      exact ⟨m, ⟨hdescends, hkept⟩, hcarries⟩
    · rintro ⟨m, ⟨hdescends, hkept⟩, hcarries⟩
      exact ⟨⟨m, hdescends, hcarries⟩, hkept⟩
  have hties : ∀ {c d}, ctx'.Ties id c d → base.Tied n c d := by
    intro c d ht
    -- the name depended on it for a cited line, or it is chosen by this line
    rcases hhanded.ties_self ht with ht | ⟨hscope, w, hw, rfl⟩
    · obtain ⟨m, hdescends, ht⟩ := h.tied_of_cited hf hlow hget hids ht
      exact ht.head hdescends
    · rw [hf.chooses] at hw
      exact ⟨n, w, .refl, hw, rfl, hself.mp hscope⟩
  -- another number stands for another line
  have hne : ∀ {m j}, base.lines.get? m = some j → m ≠ n → j ≠ id := by
    rintro m j hj hmn rfl
    exact hmn (hu.number_inj hj hget)
  -- each part of the invariant, for the line itself and for the others
  refine ⟨hhanded.housed, fun {m j c} hj hscope => ?_, fun {m j c} hj hm => ?_,
    fun {m j c d} hj hm ht => ?_⟩ <;> by_cases hmn : m = n
  · exact hmn ▸ List.mem_cons_self
  · exact List.mem_cons_of_mem _ (h.waiting hj ((hhanded.inScope_of_ne (hne hj hmn)).mp hscope))
  · subst hmn
    rw [hget, Option.some_inj] at hj
    exact hj ▸ hself
  · rw [hhanded.inScope_of_ne (hne hj hmn)]
    exact h.carried hj ((List.mem_cons.mp hm).resolve_left hmn)
  · subst hmn
    rw [hget, Option.some_inj] at hj
    exact hties (hj ▸ ht)
  · exact h.tied hj ((List.mem_cons.mp hm).resolve_left hmn) (hhanded.ties_of_ne (hne hj hmn) ht)

end

/-- What is in scope at every moment. -/
theorem Unchecked.scoped (hu : base.Unchecked) (h : Reaches base accepted pending rest ctx) :
    Scoped base accepted ctx := by
  induction h with
  | start hmain hpremises =>
    obtain ⟨constants, heq⟩ := usePremises_context base (base.sortedLines.map Prod.snd)
    rw [hpremises] at heq
    subst heq
    -- before the first line nothing is in scope
    have hnone : ∀ {id c i}, (c, i) ∉ (base.record id).scope.entries := by
      intro id c i
      rw [hu.scope_eq]
      exact List.not_mem_nil
    refine ⟨fun hmem => absurd hmem hnone, fun _ hscope => ?_, fun _ hn => ?_, fun _ hn => ?_⟩
    · obtain ⟨e, hmem, -⟩ := List.mem_map.mp hscope
      exact absurd hmem hnone
    · cases hn
    · cases hn
  | step before hexamine hsymbols hcompile ih =>
    obtain ⟨s, types, -, rfl⟩ := exists_eq_of_useSymbols_compileReady hsymbols hcompile
    -- symbols and types leave scopes and sets alone
    have hscoped := ih.examine before.frame (hu.mem_accepted_iff before)
      (hu.get?_of_reaches before) hu hexamine
    exact ⟨hscoped.housed, hscoped.waiting, hscoped.carried, hscoped.tied⟩

end Sequitur.Context
