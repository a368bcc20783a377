import Mathlib.Data.List.Infix
import Sequitur.Proofs.Meetings
import Sequitur.Proofs.Tables

/-!
# What a match remembers of earlier ones

Even a match with tables of its own binds the holes among the arguments of predicates in the
standing table, where a later match finds them.  So a match may answer differently after others.

How it does is told by its consultations: the holes among the arguments of predicates that it meets
when the standing table is empty, each with the name opposite and with what the match has bound in
its own tables by then.  After other matches it does the same, up to the first consultation at which
the hole is bound to another name; there it fails.

## Key results

- `Beside.settleAll`: two matches of the same formulas with different standing tables, side by side
- `Formula.matchAfter_eq`: the answer after any history
- `Formula.memoryless_iff`: when the answer is the same after every history
-/

namespace Sequitur

/-! ## Histories -/

/-- A match of two formulas in the tables that it is given, whatever they hold. -/
structure Call where
  given : Given
  p : Formula
  q : Formula
  deriving DecidableEq, Repr, Inhabited

/-- Make the match. -/
def Call.run (b : Bindings) (call : Call) : Match := call.p.matchIn b call.given call.q

/-- A match that is given both tables. -/
def Call.own (tables : Bindings) (p q : Formula) : Call :=
  ⟨⟨some tables.formulas, some tables.names⟩, p, q⟩

/-- The standing bindings after a history of matches, which starts with none. -/
def Bindings.after (history : List Call) : Bindings :=
  history.foldl (fun b call => (call.run b).standing) {}

/-- The answer of a match with new tables after a history: whether it succeeds and what it binds. -/
def Formula.matchAfter (history : List Call) (p q : Formula) : Bool × Bindings :=
  let m := p.matchWith (.after history) {} q
  (m.succeeded, m.bindings)

/-! ## Consultations -/

/-- A hole among the arguments of predicates that meets a name, and what the match has bound in its
    own tables by then. -/
structure Consultation where
  hole : String
  name : String
  own : Bindings
  deriving DecidableEq, Repr, Inhabited

/-- Whether the hole is bound to another name. -/
def Consultation.clashes (b : Bindings) (c : Consultation) : Bool :=
  (b.names.get? c.hole).any fun x => x ≠ c.name

namespace Unifier

/-- What a meeting looks up in the standing table. -/
def consultation (s : Unifier) : Meeting → Option Consultation
  | .argument (.hole h) (.named x) | .argument (.named x) (.hole h) => some ⟨h, x, s.bindings⟩
  | _ => none

/-- What meetings look up in the standing table, up to the first that fails. -/
def consultations (s : Unifier) : List Meeting → List Consultation
  | [] => []
  | m :: ms =>
    match s.settle m with
    | (true, s') => (s.consultation m).toList ++ s'.consultations ms
    | (false, _) => (s.consultation m).toList

end Unifier

/-- What a match looks up in the standing table if it comes first. -/
def Formula.consultations (p q : Formula) : List Consultation :=
  ({} : Unifier).consultations (p.meetings q)

/-! ## Two matches side by side -/

namespace Table

/-- The table `u` is what the standing table `t` of a match would be if the match had found `old` in
    it at its start. -/
structure Overlay (old t u : Table String String) : Prop where
  lookup : ∀ h, u.get? h = (t.get? h).or (old.get? h)
  agrees : ∀ {h x y}, t.get? h = some x → old.get? h = some y → x = y

variable {old t u : Table String String}

/-- A name that does not clash with what its hole was bound to gets the same answer. -/
theorem Overlay.bind (o : Overlay old t u) {h x : String}
    (hold : ∀ y, old.get? h = some y → y = x) :
    (u.bind h x).1 = (t.bind h x).1 ∧ Overlay old (t.bind h x).2 (u.bind h x).2 := by
  have hu := o.lookup h
  unfold Table.bind
  cases ht : t.get? h with
  | some y =>
    rw [ht, Option.some_or] at hu
    rw [hu]
    exact ⟨rfl, o⟩
  | none =>
    rw [ht, Option.none_or] at hu
    rw [hu]
    have hagrees : ∀ {k y z}, (t.put h x).get? k = some y → old.get? k = some z → y = z := by
      intro k y z hk hz
      rw [get?_put] at hk
      split at hk
      · rename_i heq
        cases hk
        exact (hold z (heq ▸ hz)).symm
      · exact o.agrees hk hz
    cases hy : old.get? h with
    | some y =>
      -- one match binds the hole now, where the other finds it bound to the same name
      obtain rfl := hold y hy
      refine ⟨by simp, fun k => ?_, hagrees⟩
      rw [get?_put, o.lookup k]
      split
      · rename_i heq
        rw [heq, ht, hy]
        rfl
      · rfl
    | none =>
      refine ⟨rfl, fun k => ?_, hagrees⟩
      rw [get?_put, get?_put, o.lookup k]
      split <;> rfl

/-- A name that clashes with what its hole was bound to is refused. -/
private theorem Overlay.bind_of_clash (o : Overlay old t u) {h x y : String}
    (hold : old.get? h = some y) (hne : y ≠ x) : u.bind h x = (false, u) := by
  have hu : u.get? h = some y := by
    rw [o.lookup h, hold]
    cases ht : t.get? h with
    | some z => rw [o.agrees ht hold, Option.some_or]
    | none => rfl
  rw [Table.bind, hu]
  simp [hne]

end Table

/-- A consultation clashes when its hole is bound, and to another name. -/
private theorem Consultation.clashes_iff {b : Bindings} {c : Consultation} :
    c.clashes b ↔ ∃ y, b.names.get? c.hole = some y ∧ y ≠ c.name := by
  simp [clashes, Option.any_eq_true]

/-- The match `s'` differs from `s` in that it started with the standing bindings `old`, and in
    nothing else so far. -/
structure Beside (old : Bindings) (s s' : Unifier) : Prop where
  formulas : s'.formulas = s.formulas
  names : ∃ t, s.names = some t ∧ s'.names = some t
  standing : Table.Overlay old.names s.standing s'.standing

namespace Beside

variable {old : Bindings} {s s' : Unifier}

/-- What is bound in tables of its own is the same for both matches. -/
theorem bindings (h : Beside old s s') : s'.bindings = s.bindings := by
  obtain ⟨t, ht, ht'⟩ := h.names
  rw [Unifier.bindings, Unifier.bindings, h.formulas, ht, ht']
  rfl

/-- A meeting ends in the same way for both, unless it clashes with the old bindings. -/
theorem settle (h : Beside old s s') {m : Meeting}
    (hm : ∀ c, s.consultation m = some c → ¬ c.clashes old) :
    (s'.settle m).1 = (s.settle m).1 ∧ Beside old (s.settle m).2 (s'.settle m).2 := by
  obtain ⟨t, ht, ht'⟩ := h.names
  cases m with
  | hole k f =>
    simp only [Unifier.settle, Unifier.bindFormula, h.formulas]
    exact ⟨trivial, rfl, h.names, h.standing⟩
  | quantified v w =>
    simp only [Unifier.settle, Unifier.quantified, ht, ht']
    exact ⟨trivial, h.formulas, ⟨_, rfl, rfl⟩, h.standing⟩
  | argument v w =>
    have hbind : ∀ k x, s.consultation (.argument v w) = some ⟨k, x, s.bindings⟩ →
        (s'.standing.bind k x).1 = (s.standing.bind k x).1 ∧
          Table.Overlay old.names (s.standing.bind k x).2 (s'.standing.bind k x).2 := by
      intro k x hc
      refine h.standing.bind fun y hy => ?_
      by_contra hne
      exact hm _ hc (Consultation.clashes_iff.mpr ⟨y, hy, hne⟩)
    -- the standing table is looked at where a hole meets a name, and only there
    cases v with
    | hole k =>
      cases w with
      | hole _ => exact ⟨rfl, h⟩
      | named x => exact ⟨(hbind k x rfl).1, h.formulas, h.names, (hbind k x rfl).2⟩
    | named x =>
      cases w with
      | hole k => exact ⟨(hbind k x rfl).1, h.formulas, h.names, (hbind k x rfl).2⟩
      | named _ => exact ⟨rfl, h⟩
  | mismatch => exact ⟨rfl, h⟩

/-- A meeting that clashes with the old bindings fails. -/
private theorem settle_of_clash (h : Beside old s s') {m : Meeting} {c : Consultation}
    (hc : s.consultation m = some c) (hclash : c.clashes old) :
    s'.settle m = (false, s') ∧ c.own = s.bindings := by
  obtain ⟨y, hy, hne⟩ := Consultation.clashes_iff.mp hclash
  unfold Unifier.consultation at hc
  split at hc
  · cases hc
    have hbind := h.standing.bind_of_clash hy hne
    exact ⟨by simp only [Unifier.settle, Variable.unify, hbind], rfl⟩
  · cases hc
    have hbind := h.standing.bind_of_clash hy hne
    exact ⟨by simp only [Unifier.settle, Variable.unify, hbind], rfl⟩
  · cases hc

/-- Both matches go the same way up to the first clash, at which the second one fails. -/
theorem settleAll (h : Beside old s s') (ms : List Meeting) :
    match (s.consultations ms).find? (·.clashes old) with
    | some c => (s'.settleAll ms).1 = false ∧ (s'.settleAll ms).2.bindings = c.own
    | none => (s'.settleAll ms).1 = (s.settleAll ms).1 ∧
        Beside old (s.settleAll ms).2 (s'.settleAll ms).2 := by
  induction ms generalizing s s' with
  | nil => exact ⟨rfl, h⟩
  | cons m ms ih =>
    -- either this meeting is the first to clash with what was there, or it goes as without that
    by_cases hm : ∃ c, s.consultation m = some c ∧ c.clashes old
    · obtain ⟨c, hc, hclash⟩ := hm
      obtain ⟨hfails, hown⟩ := h.settle_of_clash hc hclash
      have hfind : (s.consultations (m :: ms)).find? (·.clashes old) = some c := by
        rw [Unifier.consultations]
        split <;> simp [hc, hclash]
      rw [hfind, Unifier.settleAll, hfails]
      exact ⟨rfl, by rw [hown, h.bindings]⟩
    · have hclear : ∀ c, s.consultation m = some c → ¬ c.clashes old :=
        fun c hc hclash => hm ⟨c, hc, hclash⟩
      have hnone : (s.consultation m).toList.find? (·.clashes old) = none := by
        simpa [List.find?_eq_none] using hclear
      obtain ⟨hsame, hnext⟩ := h.settle hclear
      simp only [Unifier.consultations, Unifier.settleAll]
      rcases hs : s.settle m with ⟨ok, s₁⟩
      rcases hs' : s'.settle m with ⟨ok', s₁'⟩
      rw [hs, hs'] at hsame hnext
      cases hsame
      cases ok with
      | false =>
        simp only [hnone]
        exact ⟨trivial, hnext⟩
      | true =>
        -- the next meetings are settled from where this one has got
        simp only [List.find?_append, hnone, Option.none_or]
        exact ih hnext

end Beside

/-! ## The answer after a history -/

/-- The tables with which a match begins that has new tables of its own. -/
def Unifier.after (history : List Call) : Unifier := { standing := (Bindings.after history).names }

/-- A match that comes later starts with other standing bindings and is otherwise the same. -/
private theorem beside_after (history : List Call) :
    Beside (.after history) {} (.after history) where
  formulas := rfl
  names := ⟨{}, rfl, rfl⟩
  standing := ⟨fun _ => rfl, fun hx => by cases hx⟩

namespace Formula

variable {p q : Formula}

/-- A match after a history settles what meets in the two formulas. -/
private theorem matchAfter_eq_settleAll (history : List Call) (p q : Formula) :
    matchAfter history p q = (((Unifier.after history).settleAll (p.meetings q)).1,
      ((Unifier.after history).settleAll (p.meetings q)).2.bindings) := by
  simp only [matchAfter, matchWith, matchIn, unify_eq_settleAll]
  rfl

/-- After any history a match answers as if it came first, up to the first clash. -/
theorem matchAfter_eq (history : List Call) (p q : Formula) :
    matchAfter history p q =
      match (p.consultations q).find? (·.clashes (.after history)) with
      | some c => (false, c.own)
      | none => matchAfter [] p q := by
  -- put the match beside the one that comes first
  have hrun := (beside_after history).settleAll (p.meetings q)
  rw [matchAfter_eq_settleAll, matchAfter_eq_settleAll, consultations]
  cases hc : (({} : Unifier).consultations (p.meetings q)).find? (·.clashes (.after history)) with
  | some c =>
    simp only [hc] at hrun
    exact Prod.ext hrun.1 hrun.2
  | none =>
    simp only [hc] at hrun
    exact Prod.ext hrun.1 hrun.2.bindings

end Formula

/-! ## What a match binds only grows -/

/-- The tables of `c` begin with those of `b`. -/
structure Bindings.Begins (b c : Bindings) : Prop where
  formulas : b.formulas.entries <+: c.formulas.entries
  names : b.names.entries <+: c.names.entries

namespace Bindings.Begins

variable {b c d : Bindings}

theorem refl (b : Bindings) : b.Begins b := ⟨List.prefix_rfl, List.prefix_rfl⟩

theorem trans (h : b.Begins c) (h' : c.Begins d) : b.Begins d :=
  ⟨h.formulas.trans h'.formulas, h.names.trans h'.names⟩

theorem antisymm (h : b.Begins c) (h' : c.Begins b) : b = c := by
  obtain ⟨⟨fs⟩, ⟨ns⟩⟩ := b
  obtain ⟨⟨gs⟩, ⟨ms⟩⟩ := c
  have hformulas : fs = gs := h.formulas.eq_of_length_le h'.formulas.length_le
  have hnames : ns = ms := h.names.eq_of_length_le h'.names.length_le
  rw [hformulas, hnames]

end Bindings.Begins

/-- Binding a hole adds to the end of a table. -/
private theorem Table.prefix_bind {α : Type} [DecidableEq α] (t : Table String α) (h : String)
    (a : α) : t.entries <+: (t.bind h a).2.entries := by
  unfold Table.bind
  cases ht : t.get? h with
  | some b => exact List.prefix_rfl
  | none =>
    have hnew : h ∉ t.keys := by
      rw [← contains_iff, contains, ht]
      simp
    rw [entries_put_of_notMem a hnew]
    exact List.prefix_append _ _

/-- So does matching two variables. -/
private theorem Variable.prefix_unify (t : Table String String) (v w : Variable) :
    t.entries <+: (v.unify t w).2.entries := by
  cases v with
  | hole h =>
    cases w with
    | hole _ => exact List.prefix_rfl
    | named x => exact t.prefix_bind h x
  | named x =>
    cases w with
    | hole h => exact t.prefix_bind h x
    | named _ => exact List.prefix_rfl

namespace Unifier

/-- A meeting only adds to what is bound. -/
private theorem begins_settle (s : Unifier) (m : Meeting) :
    s.bindings.Begins (s.settle m).2.bindings := by
  obtain ⟨formulas, names, standing⟩ := s
  cases m with
  | hole h f => exact ⟨formulas.prefix_bind h f, List.prefix_rfl⟩
  | quantified v w =>
    cases names with
    | none => exact ⟨List.prefix_rfl, Variable.prefix_unify standing v w⟩
    | some t => exact ⟨List.prefix_rfl, Variable.prefix_unify t v w⟩
  | argument v w =>
    cases names with
    | none => exact ⟨List.prefix_rfl, Variable.prefix_unify standing v w⟩
    | some t => exact .refl _
  | mismatch => exact .refl _

/-- So does a match. -/
private theorem begins_settleAll (s : Unifier) (ms : List Meeting) :
    s.bindings.Begins (s.settleAll ms).2.bindings := by
  induction ms generalizing s with
  | nil => exact .refl _
  | cons m ms ih =>
    have hstep := s.begins_settle m
    rw [settleAll]
    rcases hm : s.settle m with ⟨_ | _, s'⟩
    · rw [hm] at hstep
      exact hstep
    · rw [hm] at hstep
      exact hstep.trans (ih s')

/-- A consultation tells what is bound when it is made. -/
private theorem own_of_consultation {s : Unifier} {m : Meeting} {c : Consultation}
    (hc : s.consultation m = some c) : c.own = s.bindings := by
  unfold consultation at hc
  split at hc <;> cases hc <;> rfl

/-- What is bound at a consultation lies between what is bound at the start and at the end. -/
private theorem begins_of_mem_consultations {s : Unifier} {ms : List Meeting} {c : Consultation}
    (hc : c ∈ s.consultations ms) :
    s.bindings.Begins c.own ∧ c.own.Begins (s.settleAll ms).2.bindings := by
  induction ms generalizing s with
  | nil => cases hc
  | cons m ms ih =>
    have hrun := s.begins_settleAll (m :: ms)
    have hstep := s.begins_settle m
    -- a consultation at the first meeting is made with what is bound at the start
    have hfirst : c ∈ (s.consultation m).toList →
        s.bindings.Begins c.own ∧ c.own.Begins (s.settleAll (m :: ms)).2.bindings := by
      intro hmem
      rw [own_of_consultation (Option.mem_toList.mp hmem)]
      exact ⟨.refl _, hrun⟩
    rw [consultations] at hc
    rcases hm : s.settle m with ⟨_ | _, s'⟩
    · rw [hm] at hc
      exact hfirst hc
    · rw [hm] at hc hstep
      rcases List.mem_append.mp hc with hc | hc
      · exact hfirst hc
      · obtain ⟨hbefore, hafter⟩ := ih hc
        rw [settleAll, hm]
        exact ⟨hstep.trans hbefore, hafter⟩

/-- What is bound at the first consultation is bound at all. -/
private theorem begins_of_head_consultations {s : Unifier} {ms : List Meeting} {c d : Consultation}
    (hc : (s.consultations ms).head? = some c) (hd : d ∈ s.consultations ms) :
    c.own.Begins d.own := by
  induction ms generalizing s with
  | nil => cases hd
  | cons m ms ih =>
    cases hfirst : s.consultation m with
    | some e =>
      -- the first meeting is the first consultation, and binds nothing
      have hce : c = e := by
        rw [consultations] at hc
        split at hc <;> simp_all
      rw [hce, own_of_consultation hfirst]
      exact (begins_of_mem_consultations hd).1
    | none =>
      rw [consultations, hfirst] at hc hd
      rcases hm : s.settle m with ⟨_ | _, s'⟩
      · rw [hm] at hd
        cases hd
      · rw [hm] at hc hd
        exact ih hc hd

end Unifier

/-! ## Matches without memory -/

namespace Formula

/-- Nothing is bound between the consultations of a match that ends with what was bound at the first
    of them. -/
private theorem own_eq_of_head {p q : Formula} {c d : Consultation} {ok : Bool}
    (hc : (p.consultations q).head? = some c) (hd : d ∈ p.consultations q)
    (hend : matchAfter [] p q = (ok, c.own)) : d.own = c.own := by
  have hfinal : (({} : Unifier).settleAll (p.meetings q)).2.bindings = c.own := by
    rw [matchAfter_eq_settleAll] at hend
    exact congrArg Prod.snd hend
  have hbetween := (Unifier.begins_of_mem_consultations hd).2
  rw [hfinal] at hbetween
  exact hbetween.antisymm (Unifier.begins_of_head_consultations hc hd)

/-- One match of predicates binds a hole to any name for all later matches. -/
private theorem names_after_predicate (h x : String) :
    (Bindings.after [.own {} (pred "P" [.hole h]) (pred "P" [.named x])]).names.get? h =
      some x := by
  simp [Bindings.after, Call.run, Call.own, matchIn, unify, Unifier.arguments, Variable.unifyAll,
    Variable.unify, Table.bind]

/-- A match has no memory when it looks nothing up, or fails in any case with what it had bound when
    it first did. -/
theorem memoryless_iff (p q : Formula) :
    (∀ history, matchAfter history p q = matchAfter [] p q) ↔
      ∀ c, (p.consultations q).head? = some c → matchAfter [] p q = (false, c.own) := by
  constructor
  · intro hsame c hc
    -- bind the first hole to another name
    have hne : c.name ++ "x" ≠ c.name := by simp [String.ext_iff]
    have hclash := Consultation.clashes_iff.mpr ⟨_, names_after_predicate c.hole _, hne⟩
    obtain ⟨cs, hcs⟩ := List.head?_eq_some_iff.mp hc
    rw [← hsame, matchAfter_eq, hcs, List.find?_cons_of_pos hclash]
  · intro hfirst history
    rw [matchAfter_eq]
    -- a clash at any consultation ends the match with what it ends with anyway
    cases hd : (p.consultations q).find? (·.clashes (.after history)) with
    | none => rfl
    | some d =>
      have hmem := List.mem_of_find?_eq_some hd
      obtain ⟨c, hc⟩ : ∃ c, (p.consultations q).head? = some c := by
        cases hcs : p.consultations q with
        | nil => rw [hcs] at hmem; cases hmem
        | cons c cs => exact ⟨c, rfl⟩
      rw [hfirst c hc]
      exact congrArg (Prod.mk false) (own_eq_of_head hc hmem (hfirst c hc))

/-- After any history of matches, a match with new tables answers as it would as the first one,
    unless a hole among the arguments of predicates that it looks up has been bound to another name;
    then it fails at the first such hole, with what it has bound so far.  So its answer is the same
    after all histories just when it looks nothing up, or fails in any case with what it had bound
    when it first did. -/
theorem matchAfter_eq_until_clash (p q : Formula) :
    (∀ history, matchAfter history p q =
      match (p.consultations q).find? (·.clashes (.after history)) with
      | some c => (false, c.own)
      | none => matchAfter [] p q) ∧
    ((∀ history, matchAfter history p q = matchAfter [] p q) ↔
      ∀ c, (p.consultations q).head? = some c → matchAfter [] p q = (false, c.own)) :=
  ⟨fun history => matchAfter_eq history p q, memoryless_iff p q⟩

/-- A match that looks up a hole and has no memory all the same: the letters that follow differ. -/
theorem matchAfter_eq_until_clash_then_mismatch :
    let p := conj (pred "P" [.hole "x"]) (atom "A")
    let q := conj (pred "P" [.named "c"]) (atom "B")
    p.consultations q = [⟨"x", "c", {}⟩] ∧
      ∀ history, matchAfter history p q = matchAfter [] p q := by
  refine ⟨by decide, (matchAfter_eq_until_clash _ _).2.mpr fun c hc => ?_⟩
  have hc : some (⟨"x", "c", {}⟩ : Consultation) = some c := hc
  cases hc
  decide

/-- The same predicate, matched twice: what the first match has bound refuses the second. -/
theorem second_match_refused :
    matchAfter [] (pred "P" [.hole "x"]) (pred "P" [.named "b"]) = (true, {}) ∧
      matchAfter [.own {} (pred "P" [.hole "x"]) (pred "P" [.named "a"])] (pred "P" [.hole "x"])
        (pred "P" [.named "b"]) = (false, {}) := by
  decide

end Formula

end Sequitur
