import Sequitur.Proofs.Comparison
import Sequitur.Proofs.Occurrence
import Sequitur.Proofs.Sharing

/-!
# Instances that are always admitted

An instance of a formula has one variable in the place of every argument `v`.  If no quantifier of
the formula is over either of the two, nothing can be captured, and a renaming recognizes the
instance, however the places of `v` lie among the quantifiers: no quantifier that comes after the
first of them is over the variable that was found there.

Universal instantiation and existential generalization ask for a renaming and for nothing else.  So
they admit all these instances in every context, whatever the cited line has in scope.

## Key results

- `finds_substitute`: a renaming finds the variable that was put in
- `correct_instances_admitted`: correct instances are admitted
-/

namespace Sequitur

namespace Formula

/-- Put `t` for every argument `v`. -/
def substitute (v t : Variable) : Formula → Formula
  | truth b => truth b
  | atom n => atom n
  | hole n => hole n
  | term w => term w
  | conj p q => conj (p.substitute v t) (q.substitute v t)
  | disj p q => disj (p.substitute v t) (q.substitute v t)
  | imp p q => imp (p.substitute v t) (q.substitute v t)
  | pred n args => pred n (args.map fun a => if a = v then t else a)
  | all w p => all w (p.substitute v t)
  | ex w p => ex w (p.substitute v t)

variable {v t w : Variable} {p q : Formula}

private theorem sends_substitute (v t : Variable) (p : Formula) :
    p.Sends v t (p.substitute v t) := by
  induction p with
  | conj a b iha ihb | disj a b iha ihb | imp a b iha ihb => exact ⟨iha, ihb⟩
  | all w p ih | ex w p ih => exact ⟨rfl, ih⟩
  | pred n args =>
    refine ⟨rfl, List.forall₂_map_right_iff.mpr (List.forall₂_same.mpr ?_)⟩
    intro a _ ha
    exact if_pos ha
  | term w => exact ⟨rfl, trivial⟩
  | truth | atom | hole => trivial

/-- The quantifiers stay as they are. -/
private theorem boundIn_substitute : (p.substitute v t).BoundIn w ↔ p.BoundIn w := by
  induction p with
  | conj a b iha ihb | disj a b iha ihb | imp a b iha ihb => exact or_congr iha ihb
  | all u p ih | ex u p ih => exact or_congr_right ih
  | pred | truth | atom | hole | term => exact Iff.rfl

/-- The arguments of a formula without holes have names. -/
theorem HasArgument.isNamed (h : p.HasArgument v) (hp : p.holeFree) : v.isNamed := by
  induction p with
  | conj a b iha ihb | disj a b iha ihb | imp a b iha ihb =>
    simp only [holeFree, Bool.and_eq_true] at hp
    cases h with
    | inl h => exact iha h hp.1
    | inr h => exact ihb h hp.2
  | all w p ih | ex w p ih =>
    simp only [holeFree, Bool.and_eq_true] at hp
    exact ih h hp.2
  | pred n args => exact List.all_eq_true.mp hp v h
  | truth | atom | hole | term => cases h

/-- A renaming finds the variable that was put in, if no quantifier is over it. -/
theorem finds_substitute (hv : p.HasArgument v) (ht : ¬ p.BoundIn t) :
    p.Finds v (p.substitute v t) (some t) :=
  -- the variable is lost only to a quantifier over it, and there is none
  ⟨sends_substitute v t p, hv, fun hafter => ht hafter.boundIn⟩

private theorem renameIn_eq_of_finds (h : p.Finds v q (some t)) :
    renameIn {} v p q = (none, Table.put {} v t) := by
  have hrename := rename_none_iff.mpr h
  simp only [renameIn, Table.get?_empty, hrename, Option.elim]

private theorem renamed_eq_of_finds (h : p.Finds v q (some t)) : p.renamed v q = .ok t := by
  have hrename := rename_none_iff.mpr h
  simp only [renamed, hrename]

end Formula

namespace Context

variable {ctx : Context} {id j : LineId} {m : Int} {v w : Variable} {body : Formula}

private theorem admits_of_examine (h : (ctx.examine id).1 = .ok ())
    (hs : ∃ s, (ctx.record id).line.formula.symbols = .ok s) : ctx.Admits id :=
  admits_iff.mpr ⟨⟨(ctx.examine id).2, Prod.ext h rfl⟩, hs⟩

/-- A universal instantiation passes when a variable is found in it. -/
private theorem fst_examine_ui (hreason : (ctx.record id).line.reason = ⟨"ui", [m]⟩)
    (hj : ctx.lines.get? m = some j) (hall : (ctx.record j).line.formula = .all v body)
    (hfound : instantiated v body (ctx.record id).line.formula = .ok w) :
    (ctx.examine id).1 = .ok () := by
  have hinterpret : ctx.interpret (ctx.record id).line.reason =
      .ok (.universalInstantiation (ctx.cited j), .combine [ctx.variablesOf j]) :=
    (interpret_quantifier_iff rfl).mpr ⟨m, j, hreason, hj, rfl, rfl⟩
  -- neither what is in scope nor what is in use enters the verdict
  rw [examine_of_interpret hinterpret, fst_verify, line_recorded]
  simp only [Argument.verdict, cited, hall, hfound]
  rfl

/-- An existential generalization passes when a variable is found in the line that it cites. -/
private theorem fst_examine_eg (hreason : (ctx.record id).line.reason = ⟨"eg", [m]⟩)
    (hj : ctx.lines.get? m = some j) (hex : (ctx.record id).line.formula = .ex v body)
    (hfound : instantiated v body (ctx.record j).line.formula = .ok w) :
    (ctx.examine id).1 = .ok () := by
  have hlifts : ctx.Lifts id j w := ⟨m, v, body, hreason, hj, hex, hfound⟩
  rw [examine_of_lifts hlifts]

end Context

open Context in
/-- Putting `t` for every argument `v`, where no quantifier is over `v` or `t`, gives an instance in
    which a renaming finds `t` and nothing else.  Every line that instantiates the universal formula
    to it is admitted, and so is every line that generalizes it to the existential formula, in all
    contexts. -/
theorem Formula.correct_instances_admitted (p : Formula) (v t : Variable) (hp : p.holeFree)
    (hv : p.HasArgument v) (hfree : ∀ w, p.BoundIn w → w ≠ v ∧ w ≠ t) :
    renameIn {} v p (p.substitute v t) = (none, Table.put {} v t) ∧
    (∀ (ctx : Context) (id : LineId) (m : Int) (k : Line),
      (ctx.record id).line.reason = ⟨"ui", [m]⟩ →
      (ctx.record id).line.formula = p.substitute v t →
      ctx.line? m = some k → k.formula = .all v p → ctx.Admits id) ∧
    (∀ (ctx : Context) (id : LineId) (m : Int) (k : Line),
      (ctx.record id).line.reason = ⟨"eg", [m]⟩ →
      (ctx.record id).line.formula = .ex v p →
      ctx.line? m = some k → k.formula = p.substitute v t → ctx.Admits id) := by
  have hfinds : p.Finds v (p.substitute v t) (some t) :=
    finds_substitute hv fun ht => (hfree t ht).2 rfl
  have hnamed : v.isNamed := hv.isNamed hp
  have hfound : instantiated v p (p.substitute v t) = .ok t := by
    rw [instantiated, if_pos hnamed, renamed_eq_of_finds hfinds]
  have hbound : ∀ w, p.BoundIn w → w.isNamed := fun w hw => isNamed_of_boundIn hp hw
  refine ⟨renameIn_eq_of_finds hfinds, ?_, ?_⟩
  · intro ctx id m k hreason hformula hk hall
    obtain ⟨j, hj, rfl⟩ := Option.map_eq_some_iff.mp hk
    apply admits_of_examine
    · exact fst_examine_ui hreason hj hall (hformula ▸ hfound)
    · -- the instance has the quantifiers of the formula
      rw [hformula, exists_symbols_iff]
      exact fun w hw => hbound w (boundIn_substitute.mp hw)
  · intro ctx id m k hreason hformula hk hinst
    obtain ⟨j, hj, rfl⟩ := Option.map_eq_some_iff.mp hk
    apply admits_of_examine
    · exact fst_examine_eg hreason hj hformula (hinst ▸ hfound)
    · -- one quantifier more, over a variable with a name
      rw [hformula, exists_symbols_iff]
      intro w hw
      cases hw with
      | inl hw => exact hw ▸ hnamed
      | inr hw => exact hbound w hw

open Context in
/-- An instance with one place below a quantifier and one outside it.  The cited lines have a name
    in scope that depends on another. -/
theorem Formula.correct_instances_admitted_in_scope :
    let x := Variable.named "x"
    let c := Variable.named "c"
    let y := Variable.named "y"
    let p (v : Variable) : Formula := conj (ex y (pred "P" [v, y])) (pred "Q" [v, .named "d"])
    let vars : VariableContext := ⟨[("c", ["d"])]⟩
    let ctx := (({} : Context).addBlockWith [(⟨1, all x (p x), ⟨"prem", []⟩⟩, vars),
      (⟨2, p c, ⟨"ui", [1]⟩⟩, vars), (⟨3, ex x (p x), ⟨"eg", [2]⟩⟩, {})]).1
    ((p x).holeFree ∧ (p x).HasArgument x ∧ ∀ w, (p x).BoundIn w → w ≠ x ∧ w ≠ c) ∧
      renameIn {} x (p x) (p c) = (none, Table.put {} x c) ∧ ctx.Admits 1 ∧ ctx.Admits 2 := by
  intro x c y p vars ctx
  have hp : (p x).holeFree := by decide
  have hx : (p x).HasArgument x := by decide
  have hfree : ∀ w, (p x).BoundIn w → w ≠ x ∧ w ≠ c := by
    -- the one quantifier is over `y`
    intro w hw
    have hy : y = w := by simpa [p, BoundIn] using hw
    subst hy
    decide
  obtain ⟨hrename, hui, heg⟩ := correct_instances_admitted (p x) x c hp hx hfree
  refine ⟨⟨hp, hx, hfree⟩, hrename, ?_, ?_⟩
  · exact hui ctx 1 1 ⟨1, all x (p x), ⟨"prem", []⟩⟩ rfl rfl rfl rfl
  · exact heg ctx 2 2 ⟨2, p c, ⟨"ui", [1]⟩⟩ rfl rfl rfl rfl

end Sequitur
