import Sequitur.Proofs.Generalization
import Sequitur.Proofs.Residue

/-!
# The origins of names

A name that an accepted line has in scope was introduced by a universal instantiation, and what it
depends on was chosen by an existential instantiation.  Both have been accepted, and citations lead
to them.  This holds at every moment of a check, also while a line is worked on and where the check
ends with a refusal or breaks off (`Passes`).

An examination may change the sets of other lines, since lines share them.  But whatever its
outcome, the others keep their names, and what a name depends on for them only becomes less
(`Spares`).

## Key results

- `spares_examine`: what an examination leaves to the other lines
- `Passes.sourced`: what accepted lines have in scope, at every moment
- `exists_passes_end`: a check ends at such a moment
- `scopes_have_origins`: where names in scope come from
-/

namespace Sequitur.Context

open Relation

/-! ## Moments within the work on a line -/

/-- In the check of `base` a moment comes at which the numbers in `accepted` have been accepted and
    the context is the given one.  It may lie between two lines or within the work on one, before or
    after the run has met with a refusal. -/
inductive Passes (base : Context) : List Int → Context → Prop
  /-- The first `k` lines have been looked through for premises. -/
  | premises (k : Nat) :
      Passes base [] (base.usePremises ((base.sortedLines.map Prod.snd).take k)).2
  | between {accepted pending rest ctx} (here : Reaches base accepted pending rest ctx) :
      Passes base accepted ctx
  /-- What the reason of the line means has been recorded, and is still to be verified. -/
  | recorded {accepted pending n id rest ctx arg vars}
      (here : Reaches base accepted pending ((n, id) :: rest) ctx)
      (meaning : ctx.interpret (ctx.record id).line.reason = .ok (arg, vars)) :
      Passes base accepted (ctx.recorded id arg vars)
  | examined {accepted pending n id rest ctx}
      (here : Reaches base accepted pending ((n, id) :: rest) ctx) :
      Passes base accepted (ctx.examine id).2
  | used {accepted pending n id rest ctx ctx₁}
      (here : Reaches base accepted pending ((n, id) :: rest) ctx)
      (examine : ctx.examine id = (.ok (), ctx₁)) :
      Passes base accepted (ctx₁.useSymbols (ctx.record id).line.formula).2
  /-- The line has been accepted, and the first `k` blocks that wait have been looked through. -/
  | compiled {accepted pending n id rest ctx ctx₁ ctx₂}
      (here : Reaches base accepted pending ((n, id) :: rest) ctx)
      (examine : ctx.examine id = (.ok (), ctx₁))
      (symbols : ctx₁.useSymbols (ctx.record id).line.formula = (.ok (), ctx₂)) (k : Nat) :
      Passes base (n :: accepted) (ctx₂.compileReady (n :: accepted) (pending.take k)).2

variable {base ctx ctx' : Context} {accepted : List Int} {pending : List (List Int × BlockId)}
  {rest : List (Int × LineId)} {n m : Int} {id : LineId} {c d : String} {arg : Argument}
  {vars : VariableContext}

/-- A line with the number `n` came up and was admitted when nothing but numbers in `accepted` had
    been accepted. -/
def Admitted (base : Context) (accepted : List Int) (n : Int) : Prop :=
  ∃ before pending id rest ctx, Reaches base before pending ((n, id) :: rest) ctx ∧
    ctx.Admits id ∧ before ⊆ accepted

/-- An admitted line is added to those that were admitted before. -/
private theorem Reaches.admitted_cons (here : Reaches base accepted pending ((n, id) :: rest) ctx)
    (hadmits : ctx.Admits id) (h : ∀ m ∈ accepted, Admitted base accepted m) :
    ∀ m ∈ n :: accepted, Admitted base (n :: accepted) m := by
  intro m hm
  rcases List.mem_cons.mp hm with rfl | hm
  · exact ⟨accepted, pending, id, rest, ctx, here, hadmits, List.subset_cons_self _ _⟩
  · obtain ⟨before, pending', id', rest', ctx', hreaches, hadmits', hsub⟩ := h m hm
    exact ⟨before, pending', id', rest', ctx', hreaches, hadmits',
      List.subset_cons_of_subset _ hsub⟩

/-- What has been accepted came up and was admitted. -/
private theorem Reaches.admitted (h : Reaches base accepted pending rest ctx) :
    ∀ n ∈ accepted, Admitted base accepted n := by
  induction h with
  | start =>
    intro n hn
    cases hn
  | step before hexamine hsymbols _ ih =>
    exact before.admitted_cons ⟨_, _, hexamine, hsymbols⟩ ih

/-- Within the work on a line, too, what has been accepted came up and was admitted. -/
private theorem Passes.admitted (h : Passes base accepted ctx) :
    ∀ n ∈ accepted, Admitted base accepted n := by
  cases h with
  | premises k =>
    intro n hn
    cases hn
  | between here | recorded here _ | examined here | used here _ => exact here.admitted
  | compiled here hexamine hsymbols k =>
    exact here.admitted_cons ⟨_, _, hexamine, hsymbols⟩ here.admitted

/-! ## What an examination leaves to the other lines -/

/-- The lines other than `id` have the same names in scope, and for none of them has a name come to
    depend on anything. -/
structure Spares (ctx : Context) (id : LineId) (ctx' : Context) : Prop where
  inScope_of_ne : ∀ {j c}, j ≠ id → (ctx'.InScope j c ↔ ctx.InScope j c)
  ties_of_ne : ∀ {j c d}, j ≠ id → ctx'.Ties j c d → ctx.Ties j c d

/-- Doing nothing spares all lines. -/
theorem Spares.refl (ctx : Context) (id : LineId) : Spares ctx id ctx :=
  ⟨fun _ => Iff.rfl, fun _ h => h⟩

/-- Two steps that spare the other lines do so together. -/
theorem Spares.trans {ctx₁ ctx₂ : Context} (h : Spares ctx id ctx₁) (h' : Spares ctx₁ id ctx₂) :
    Spares ctx id ctx₂ :=
  ⟨fun hj => (h'.inScope_of_ne hj).trans (h.inScope_of_ne hj),
    fun hj ht => h.ties_of_ne hj (h'.ties_of_ne hj ht)⟩

/-- Taking over sets leaves the other lines as they were. -/
private theorem spares_takeOver (hlt : id < ctx.records.length) (k : LineId) :
    Spares ctx id (ctx.takeOver id k) where
  inScope_of_ne hj := (inScope_takeOver hlt).trans (by simp [hj])
  ties_of_ne hj ht := (ties_of_takeOver hlt ht).resolve_right fun h => hj h.1

section

variable (hlt : id < ctx.records.length) (hh : ctx.Housed)

include hlt hh

/-- Recording what a reason means leaves the other lines as they were. -/
private theorem spares_recorded (h : ctx.interpret (ctx.record id).line.reason = .ok (arg, vars)) :
    Spares ctx id (ctx.recorded id arg vars) ∧
      id < (ctx.recorded id arg vars).records.length := by
  obtain ⟨ids, -, rfl, -⟩ := interpret_eq_ok.mp h
  have hrecorded := recorded_recorded hlt hh arg ids
  exact ⟨⟨hrecorded.inScope_of_ne, hrecorded.ties_of_ne⟩, hrecorded.length_eq ▸ hlt⟩

/-- Whether a line passes its examination or not, the other lines are spared. -/
theorem spares_examine (hget : ctx.lines.get? n = some id) : Spares ctx id (ctx.examine id).2 := by
  rcases hexamine : ctx.examine id with ⟨e | _, ctx'⟩
  · -- a verification that fails may have taken over sets, and has not changed any
    cases hinterpret : ctx.interpret (ctx.record id).line.reason with
    | error _ =>
      simp only [examine, hinterpret, Prod.mk.injEq] at hexamine
      exact hexamine.2 ▸ .refl ctx id
    | ok r =>
      obtain ⟨arg, vars⟩ := r
      obtain ⟨hspares, hlt'⟩ := spares_recorded hlt hh hinterpret
      rw [examine_of_interpret hinterpret] at hexamine
      rcases verify_error hexamine with rfl | ⟨q, -, rfl⟩
      · exact hspares
      · exact hspares.trans (spares_takeOver hlt' q.id)
  · obtain ⟨ids, -, hhanded⟩ := handed_of_examine hget hlt hh hexamine
    exact ⟨hhanded.inScope_of_ne, hhanded.ties_of_ne⟩

end

/-! ## What accepted lines have in scope -/

/-- Lines that have been accepted have in scope what they carry, and what a name depends on is tied
    to it. -/
structure Sourced (base : Context) (accepted : List Int) (ctx : Context) : Prop where
  carried : ∀ {n id c}, base.lines.get? n = some id → n ∈ accepted →
    (ctx.InScope id c ↔ base.Carries n c)
  tied : ∀ {n id c d}, base.lines.get? n = some id → n ∈ accepted → ctx.Ties id c d →
    base.Tied n c d

/-- What is known between two lines. -/
theorem Scoped.sourced (h : Scoped base accepted ctx) : Sourced base accepted ctx :=
  ⟨h.carried, h.tied⟩

/-- Only the scopes and the sets count. -/
theorem Sourced.congr (h : Sourced base accepted ctx) (hrecords : ctx'.records = ctx.records)
    (hstore : ctx'.store = ctx.store) : Sourced base accepted ctx' := by
  -- scopes are read from the records and sets from the store
  have hrecord : ∀ j, ctx'.record j = ctx.record j := fun j => by rw [record, record, hrecords]
  refine ⟨fun hget hn => ?_, fun hget hn ht => h.tied hget hn ?_⟩
  · rw [InScope, hrecord]
    exact h.carried hget hn
  · rwa [Ties, variablesOf, hrecord, hstore] at ht

/-- What spares the accepted lines keeps what is known of them. -/
theorem Sourced.spares (h : Sourced base accepted ctx) (hs : Spares ctx id ctx')
    (hother : ∀ {m j}, base.lines.get? m = some j → m ∈ accepted → j ≠ id) :
    Sourced base accepted ctx' where
  carried hget hn := (hs.inScope_of_ne (hother hget hn)).trans (h.carried hget hn)
  tied hget hn ht := h.tied hget hn (hs.ties_of_ne (hother hget hn) ht)

section

variable (hu : base.Unchecked) (here : Reaches base accepted pending ((n, id) :: rest) ctx)

include hu here

/-- A line that comes up is in its place, and no accepted number stands for it. -/
private theorem Unchecked.comes_up :
    ctx.lines.get? n = some id ∧ id < ctx.records.length ∧
      ∀ {m j}, base.lines.get? m = some j → m ∈ accepted → j ≠ id := by
  have hget := hu.get?_of_reaches here
  refine ⟨here.frame.lines ▸ hget, ?_, ?_⟩
  · rw [here.frame.records_length]
    exact hu.line_lt (Table.mem_of_get? hget)
  · rintro m j hj hm rfl
    -- the number would be lower than itself
    have hlt := ((hu.mem_accepted_iff here).mp hm).1
    rw [hu.number_inj hj hget] at hlt
    exact Int.lt_irrefl _ hlt

/-- Recording what a reason means keeps what is known of the lines before it. -/
private theorem Unchecked.sourced_recorded
    (hmeaning : ctx.interpret (ctx.record id).line.reason = .ok (arg, vars)) :
    Sourced base accepted (ctx.recorded id arg vars) := by
  obtain ⟨-, hlt, hother⟩ := hu.comes_up here
  have hscoped := hu.scoped here
  exact hscoped.sourced.spares (spares_recorded hlt hscoped.housed hmeaning).1 hother

/-- Examining a line keeps what is known of the lines before it, whatever the outcome. -/
private theorem Unchecked.sourced_examine : Sourced base accepted (ctx.examine id).2 := by
  obtain ⟨hget, hlt, hother⟩ := hu.comes_up here
  have hscoped := hu.scoped here
  exact hscoped.sourced.spares (spares_examine hlt hscoped.housed hget) hother

end

/-- At every moment the accepted lines have in scope what they carry. -/
theorem Passes.sourced (hu : base.Unchecked) (h : Passes base accepted ctx) :
    Sourced base accepted ctx := by
  cases h with
  | premises k =>
    exact ⟨fun _ hn => absurd hn List.not_mem_nil, fun _ hn => absurd hn List.not_mem_nil⟩
  | between here => exact (hu.scoped here).sourced
  | recorded here hmeaning => exact hu.sourced_recorded here hmeaning
  | examined here => exact hu.sourced_examine here
  | used here hexamine =>
    have hsourced := hu.sourced_examine here
    rw [hexamine] at hsourced
    -- symbols that come into use are not in any scope
    refine hsourced.congr ?_ ?_ <;>
    · unfold useSymbols
      split <;> rfl
  | @compiled accepted pending n id _ ctx ctx₁ ctx₂ here hexamine hsymbols k =>
    -- now the line itself is among those that have been accepted
    have hscoped := (hu.scoped here).examine here.frame (hu.mem_accepted_iff here)
      (hu.get?_of_reaches here) hu hexamine
    obtain ⟨s, -, rfl⟩ := useSymbols_ok hsymbols
    obtain ⟨types, htypes⟩ :=
      compileReady_context (ctx₁.addConstants s.unbound) (n :: accepted) (pending.take k)
    rw [htypes]
    exact hscoped.sourced.congr rfl rfl

/-! ## The end of a check -/

/-- From the last moment on, a run gives up at the line that comes up, or there is none. -/
theorem Reaches.exists_passes_end (h : Reaches base accepted pending rest ctx)
    (hlast : ∀ n id rest', rest = (n, id) :: rest' → ¬ ctx.Proceeds accepted pending n id) :
    ∃ done rest, base.sortedLines = done ++ rest ∧ base.check.acceptances = base.told done ∧
      Passes base (done.map Prod.fst).reverse base.check.context := by
  obtain ⟨notices, hcheck⟩ := h.exists_check_eq
  obtain ⟨done, hsorted, rfl, htold⟩ := h.exists_acceptances_eq
  have hcontext : base.check.context =
      (ctx.checkLines (done.map Prod.fst).reverse pending rest).context := by rw [hcheck]; rfl
  rw [hcontext, htold]
  cases rest with
  | nil => exact ⟨done, [], hsorted, List.append_nil _, .between h⟩
  | cons e rest =>
    obtain ⟨n, id⟩ := e
    -- which of the three steps fails says whether the line has been accepted
    rcases hexamine : ctx.examine id with ⟨e | _, ctx₁⟩
    · refine ⟨done, _, hsorted, ?_, ?_⟩ <;> simp only [checkLines, hexamine]
      · simp
      · have hpasses := Passes.examined h
        rw [hexamine] at hpasses
        exact (context_fail ctx₁ e).symm ▸ hpasses
    · rcases hsymbols : ctx₁.useSymbols (ctx.record id).line.formula with ⟨r | _, ctx₂⟩
      · refine ⟨done, _, hsorted, ?_, ?_⟩ <;> simp only [checkLines, hexamine, hsymbols]
        · simp
        · have hpasses := Passes.used h hexamine
          rw [hsymbols] at hpasses
          exact hpasses
      · rcases hcompile : ctx₂.compileReady (n :: (done.map Prod.fst).reverse) pending with
          ⟨f | pending', ctx₃⟩
        · refine ⟨done ++ [(n, id)], rest, by simp [hsorted], ?_, ?_⟩ <;>
            simp only [checkLines, hexamine, hsymbols, hcompile]
          · rw [Run.acceptances_after_accepted, acceptances_fail, h.frame.line]
            simp [told]
          · have hpasses := Passes.compiled h hexamine hsymbols pending.length
            rw [List.take_length, hcompile] at hpasses
            rw [List.map_append, List.reverse_append]
            exact hpasses
        · exact absurd ⟨pending', ctx₃, ctx₁, ctx₂, hexamine, hsymbols, hcompile⟩
            (hlast n id rest rfl)

/-- A check ends at one of its moments, when it has accepted the lines that it tells of. -/
theorem exists_passes_end (base : Context) :
    ∃ done rest, base.sortedLines = done ++ rest ∧ base.check.acceptances = base.told done ∧
      Passes base (done.map Prod.fst).reverse base.check.context := by
  cases hmain : base.main with
  | none =>
    refine ⟨[], base.sortedLines, rfl, ?_, ?_⟩ <;> rw [check, hmain]
    · rfl
    · exact Passes.premises 0
  | some b =>
    -- the run may give up while the premises are looked through
    rcases hpremises : base.usePremises (base.sortedLines.map Prod.snd) with ⟨r | _, ctx₀⟩
    · refine ⟨[], base.sortedLines, rfl, ?_, ?_⟩ <;> rw [check, hmain] <;> simp only [hpremises]
      · exact acceptances_fail ctx₀ _
      · have hpasses : Passes base [] _ := .premises (base.sortedLines.map Prod.snd).length
        rw [List.take_length, hpremises] at hpasses
        exact hpasses
    · obtain ⟨accepted, pending, rest, ctx, hreaches, hlast⟩ :=
        exists_last_moment (by rw [hmain]; rfl) hpremises
      exact hreaches.exists_passes_end hlast

/-- A line is among those that are told just when its number is. -/
theorem Unchecked.mem_told_iff (hu : base.Unchecked) {done rest : List (Int × LineId)}
    (hsorted : base.sortedLines = done ++ rest) (hget : base.lines.get? n = some id) :
    (id, (base.record id).line) ∈ base.told done ↔ n ∈ done.map Prod.fst := by
  have hdone : ∀ e ∈ done, base.lines.get? e.1 = some e.2 := by
    intro e he
    apply hu.get?_of_mem_sortedLines
    rw [hsorted]
    exact List.mem_append_left _ he
  constructor
  · intro htold
    obtain ⟨⟨k, j⟩, hmem, heq⟩ := List.mem_map.mp htold
    obtain rfl : j = id := congrArg Prod.fst heq
    -- a line has one number only
    rw [hu.number_inj hget (hdone _ hmem)]
    exact List.mem_map_of_mem hmem
  · intro hn
    obtain ⟨⟨k, j⟩, hmem, rfl⟩ := List.mem_map.mp hn
    have hj := hdone _ hmem
    rw [hget, Option.some_inj] at hj
    subst hj
    exact List.mem_map_of_mem hmem

/-! ## Origins -/

/-- The name `c` was introduced by an accepted universal instantiation to which citations lead from
    the line with the number `n`. -/
def Introduced (base : Context) (accepted : List Int) (n : Int) (c : String) : Prop :=
  ∃ u v body w, u ∈ accepted ∧ ReflTransGen base.Cites n u ∧ base.Introduces u v body w ∧ w.name = c

/-- The name `d` was chosen by an accepted existential instantiation to which citations lead from
    the line with the number `n`. -/
def Chosen (base : Context) (accepted : List Int) (n : Int) (d : String) : Prop :=
  ∃ e w, e ∈ accepted ∧ ReflTransGen base.Cites n e ∧ base.Chooses e w ∧ w.name = d

/-- A chain that descends does not lead to a higher number. -/
private theorem le_of_descends (h : ReflTransGen base.Descends n m) : m ≤ n := by
  induction h with
  | refl => exact Int.le_refl n
  | tail _ hstep ih => exact Int.le_trans (Int.le_of_lt hstep.2) ih

/-- A chain that descends is one of citations. -/
private theorem cites_of_descends (h : ReflTransGen base.Descends n m) :
    ReflTransGen base.Cites n m :=
  ReflTransGen.mono (fun _ _ hd => hd.1) n m h

/-- A name is handed on along a chain that descends. -/
private theorem descends_of_hands (h : ReflTransGen (base.Hands c) n m) :
    ReflTransGen base.Descends n m :=
  ReflTransGen.mono (fun _ _ hh => hh.1) n m h

/-- What introduces a name is a line. -/
private theorem Introduces.exists_line? {v w : Variable} {body : Formula}
    (h : ctx.Introduces n v body w) : ∃ l, ctx.line? n = some l := by
  obtain ⟨l, k, hfrom, -⟩ := h
  exact ⟨l, hfrom.1⟩

/-- What chooses a name is a line. -/
private theorem Chooses.exists_line? {w : Variable} (h : ctx.Chooses n w) :
    ∃ l, ctx.line? n = some l := by
  obtain ⟨l, k, hfrom, -⟩ := h
  exact ⟨l, hfrom.1⟩

/-- What generalizes a variable is a universal generalization. -/
theorem Generalizes.rule_eq {w : Variable} (h : ctx.Generalizes n w)
    (hget : ctx.lines.get? n = some id) : (ctx.record id).line.reason.rule = "ug" := by
  obtain ⟨l, k, ⟨hl, m, hreason, -⟩, -⟩ := h
  rw [line?_of_get? hget, Option.some_inj] at hl
  rw [hl, hreason]

section

variable (hu : base.Unchecked) (h : Passes base accepted ctx) (hn : n ∈ accepted)

include hu h hn

/-- When a line has been accepted, so have those that it leads down to. -/
private theorem Unchecked.mem_accepted_of_descends (hchain : ReflTransGen base.Descends n m)
    (hline : ∃ l, base.line? m = some l) : m ∈ accepted := by
  obtain ⟨before, pending, id, rest, ctx', hreaches, -, hsub⟩ := h.admitted n hn
  by_cases heq : m = n
  · exact heq ▸ hn
  · -- a lower number had been accepted when the line came up
    obtain ⟨l, hl⟩ := hline
    obtain ⟨j, hj, -⟩ := Option.map_eq_some_iff.mp hl
    have hlt : m < n := Int.lt_iff_le_and_ne.mpr ⟨le_of_descends hchain, heq⟩
    exact hsub ((hu.mem_accepted_iff hreaches).mpr ⟨hlt, j, hj⟩)

/-- A name that an accepted line carries was introduced. -/
private theorem Unchecked.introduced_of_carries (hc : base.Carries n c) :
    base.Introduced accepted n c := by
  obtain ⟨u, v, body, w, hchain, hintro, hname⟩ := hc
  have hdown := descends_of_hands hchain
  exact ⟨u, v, body, w, hu.mem_accepted_of_descends h hn hdown hintro.exists_line?,
    cites_of_descends hdown, hintro, hname⟩

/-- What a name is tied to was chosen. -/
private theorem Unchecked.chosen_of_tied (ht : base.Tied n c d) : base.Chosen accepted n d := by
  obtain ⟨e, w, hchain, hchoose, hname, -⟩ := ht
  exact ⟨e, w, hu.mem_accepted_of_descends h hn hchain hchoose.exists_line?,
    cites_of_descends hchain, hchoose, hname⟩

/-- What an accepted line generalizes was introduced by a line that it leads down to. -/
private theorem Unchecked.introduced_of_generalizes {w : Variable} (hw : base.Generalizes n w) :
    ∃ m, base.Cites n m ∧ base.Introduced accepted m w.name := by
  obtain ⟨before, pending, id, rest, ctx', hreaches, hadmits, hsub⟩ := h.admitted n hn
  have hrule : (ctx'.record id).line.reason.rule = "ug" := by
    rw [hreaches.frame.line]
    exact hw.rule_eq (hu.get?_of_reaches hreaches)
  -- the line was admitted because a lower one that it cites carries the variable
  obtain ⟨-, w', m, hw', hdescends, hcarries⟩ := (hu.admits_ug_iff hreaches hrule).mp hadmits
  obtain rfl := hw.unique hw'
  obtain ⟨j, hj⟩ := hcarries.exists_line
  have hm : m ∈ accepted :=
    hu.mem_accepted_of_descends h hn (.single hdescends) ⟨_, line?_of_get? hj⟩
  exact ⟨m, hdescends.1, hu.introduced_of_carries h hm hcarries⟩

end

/-- In a check of a context that was made by adding blocks, at every moment: an accepted line has in
    scope just what it carries.  A name in scope was introduced by an accepted universal
    instantiation, and what it depends on was chosen by an accepted existential instantiation, each
    the line itself or one that citations lead to.  A variable that an accepted line generalizes was
    introduced by a line that citations lead to.  The end of the check is one of the moments, when
    the lines that it tells of have been accepted. -/
theorem scopes_have_origins (base : Context) (hbuilt : Built base) :
    (∀ accepted ctx, Passes base accepted ctx → ∀ n ∈ accepted, ∀ id,
      base.lines.get? n = some id →
        (∀ c, c ∈ (ctx.variablesOf id).keys ↔ base.Carries n c) ∧
        (∀ c D, (ctx.variablesOf id).get? c = some D →
          base.Introduced accepted n c ∧ ∀ d ∈ D, base.Chosen accepted n d) ∧
        ∀ w, base.Generalizes n w → ∃ m, base.Cites n m ∧ base.Introduced accepted m w.name) ∧
    ∃ accepted, Passes base accepted base.check.context ∧ ∀ n id, base.lines.get? n = some id →
      (n ∈ accepted ↔ (id, (base.record id).line) ∈ base.check.acceptances) := by
  have hu := hbuilt.gathered.toUnchecked
  constructor
  · intro accepted ctx h n hn id hget
    have hsourced := h.sourced hu
    have hcarried : ∀ c, c ∈ (ctx.variablesOf id).keys ↔ base.Carries n c :=
      fun _ => mem_keys_variablesOf.trans (hsourced.carried hget hn)
    refine ⟨hcarried, fun c D hD => ⟨?_, fun d hd => ?_⟩, fun w hw => ?_⟩
    · have hcarries := (hcarried c).mp (List.mem_map_of_mem (Table.mem_of_get? hD))
      exact hu.introduced_of_carries h hn hcarries
    · exact hu.chosen_of_tied h hn (hsourced.tied hget hn ⟨D, Table.mem_of_get? hD, hd⟩)
    · exact hu.introduced_of_generalizes h hn hw
  · obtain ⟨done, rest, hsorted, htold, hpasses⟩ := exists_passes_end base
    refine ⟨_, hpasses, fun n id hget => ?_⟩
    rw [htold, hu.mem_told_iff hsorted hget, List.mem_reverse]

/-- The origins of a name and of what it depends on, after a check that ends with a refusal: the
    last line takes over the sets of the third and fails then. -/
theorem scopes_have_origins_refused :
    let p (u v : String) : Formula := .pred "P" [.named u, .named v]
    let base := ({} : Context).addBlocks [[
      ⟨1, .all (.named "x") (.ex (.named "y") (p "x" "y")), ⟨"prem", []⟩⟩,
      ⟨2, .ex (.named "y") (p "a" "y"), ⟨"ui", [1]⟩⟩, ⟨3, p "a" "b", ⟨"ei", [2]⟩⟩,
      ⟨4, .ex (.named "y") (.atom "Q"), ⟨"eg", [3]⟩⟩]]
    Built base ∧ base.check.result = .ok false ∧
      (base.check.context.variablesOf 2).get? "a" = some ["b"] ∧
      ∃ accepted, Passes base accepted base.check.context ∧ 3 ∈ accepted ∧
        base.Introduced accepted 3 "a" ∧ base.Chosen accepted 3 "b" := by
  intro p base
  have hbuilt : Built base := built_addBlocks {} _
  have hget : base.lines.get? 3 = some 2 := by
    clear hbuilt
    decide +kernel +revert
  have hnames : (base.check.context.variablesOf 2).get? "a" = some ["b"] := by
    clear hbuilt hget
    decide +kernel +revert
  have htold : (2, (base.record 2).line) ∈ base.check.acceptances := by
    clear hbuilt hget hnames
    decide +kernel +revert
  have hrefused : base.check.result = .ok false := by
    clear hbuilt hget hnames htold
    decide +kernel +revert
  obtain ⟨horigins, accepted, hpasses, haccepted⟩ := scopes_have_origins base hbuilt
  have hmem : 3 ∈ accepted := (haccepted 3 2 hget).mpr htold
  obtain ⟨hintroduced, hchosen⟩ := (horigins accepted _ hpasses 3 hmem 2 hget).2.1 "a" ["b"] hnames
  exact ⟨hbuilt, hrefused, hnames, accepted, hpasses, hmem, hintroduced,
    hchosen "b" List.mem_cons_self⟩

end Sequitur.Context
