import Sequitur.Proof.Dependence
import Sequitur.Report

/-!
# Workloads

Pieces of work over the whole library, each in a size that can be chosen: they drive the operations
on connectives, matching, replacement, renaming, the checker, the rules one by one, the pieces of
the grammar and whole files.  A workload answers with what the library found, as a `Value`.
-/

namespace Sequitur

/-- What a workload found. -/
inductive Value where
  | number (n : Int)
  | text (s : String)
  | flag (b : Bool)
  | list (vs : List Value)
  | record (fields : List (String × Value))
  deriving Repr, Inhabited

namespace Workload

open Formula

/-! ## Values -/

/-- A formula by its text. -/
def shown (f : Formula) : Value := .text f.text

/-- A formula by its text, or the wording of the refusal. -/
def shownResult : Except Refusal Formula → Value
  | .ok f => shown f
  | .error r => .text r.message

/-- A list of texts. -/
def texts (ss : List String) : Value := .list (ss.map .text)

/-- Variables as a set. -/
def variableSet (vs : List Variable) : Value := texts (Text.distinct (vs.map Variable.text))

/-! ## Letters and variables of the workloads -/

/-- A propositional letter. -/
def letter (c : Char) : Formula := atom (String.ofList [c])

/-- The variable `x`. -/
def x : Variable := .named "x"

/-- The variable `y`. -/
def y : Variable := .named "y"

/-! ## Connectives -/

/-- A formula that has gone through `n` layers, which take turns: a conjunction, a disjunction, an
    implication, a negation and the two quantifiers. -/
def layered : Nat → Formula
  | 0 => atom "P"
  | i + 1 =>
    let p := layered i
    let r := pred "R" [x, y]
    match i % 6 with
    | 0 => conj p r
    | 1 => disj r p
    | 2 => imp p r
    | 3 => neg p
    | 4 => all (.named ("v" ++ toString i)) p
    | _ => ex (.named ("e" ++ toString i)) p

/-- Every operation on connectives, applied to a formula of `n` layers. -/
def connectives (n : Nat) : Value :=
  let p := layered n
  let q := atom "Q"
  .list
    [ shown (conj p p), shown (disj p p), shown (imp p p), shown (neg p),
      shownResult (apply (imp p p) p), shownResult (compose (imp p p) (imp p p)),
      shownResult (projLeft (conj p p)), shownResult (projRight (conj p p)),
      shown (injLeft p p), shown (injRight p p), shown (diagonal p),
      shownResult (codiagonal (disj p p)), shownResult (pair (imp p p) (imp p q)),
      shownResult (copair (imp p p) (imp q p)), shownResult (denied (neg p)),
      shown (hole "h"), .text (Variable.hole "m").text, .text x.text, shown (pred "R" [x, y]),
      shown (all x p), shown (ex x p) ]

/-! ## Matching -/

/-- Pairs of formulas to match: patterns on either side, repeated holes, mismatches, and holes of
    both kinds together. -/
def pairs : List (Formula × Formula) :=
  let a := hole "a"
  let b := hole "b"
  let h := Variable.hole "x"
  let m := Variable.named "m"
  let k := Variable.named "n"
  let A := letter 'A'
  let B := letter 'B'
  [ (conj a b, conj A B),
    (disj a b, disj A (disj B (letter 'C'))),
    (imp a b, imp A B),
    (neg a, neg A),
    (a, A),
    (A, a),
    (all h a, all m A),
    (ex h a, ex m A),
    (truth true, truth true),
    (A, A),
    (term h, term m),
    (term m, term h),
    (term m, term m),
    (pred "P" [m, k], pred "P" [m, k]),
    (conj a a, conj A A),
    (conj a a, conj A B),
    (disj a (neg a), disj A (neg A)),
    (A, B),
    (conj A B, disj A B),
    (term h, A),
    (all h (ex h (conj a b)), all m (ex m (conj A B))) ]

/-- Match pairs from empty tables, one after another: how many succeed, and how many holes are bound
    in all. -/
def matchAll (standing : Bindings) : List (Formula × Formula) → Nat × Nat
  | [] => (0, 0)
  | (p, q) :: rest =>
    let m := matchWith standing {} p q
    let (successes, bound) := matchAll m.standing rest
    (successes + m.succeeded.toNat, bound + m.bindings.formulas.size + m.bindings.names.size)

/-- The first `n` members of a list that starts over when it ends. -/
def cycle {α : Type} (xs : List α) (n : Nat) : List α :=
  (List.range n).filterMap fun i => xs[i % xs.length]?

/-- Match `n` pairs. -/
def matching (n : Nat) : Value :=
  let (successes, bound) := matchAll {} (cycle pairs n)
  .list [.number successes, .number bound]

/-! ## Replacement -/

/-- Fill the holes of a pattern with letters, or with a predicate under a quantifier. -/
def fill (a : Formula) : Formula → Formula
  | hole "a" => a
  | hole "b" => letter 'B'
  | hole "c" => letter 'C'
  | conj p q => conj (fill a p) (fill a q)
  | disj p q => disj (fill a p) (fill a q)
  | imp p q => imp (fill a p) (fill a q)
  | all _ p => all x (fill a p)
  | ex _ p => ex x (fill a p)
  | f => f

/-- A step: a law and the two formulas that it leads between. -/
structure Step where
  law : Law
  old : Formula
  new : Formula

/-- The step of a law with `a` for its first hole. -/
def stepOf (a : Formula) (law : Law) : Step :=
  ⟨law, fill a law.equivalence.left, fill a law.equivalence.right⟩

/-- The step of a law in the other direction. -/
def Step.reversed (s : Step) : Step := ⟨s.law, s.new, s.old⟩

/-- A step as it stands, and on either side of a conjunction. -/
def settings (s : Step) : List Step :=
  let d := letter 'D'
  [s, ⟨s.law, conj d s.old, conj d s.new⟩, ⟨s.law, conj s.old d, conj s.new d⟩]

/-- The steps of all laws, each in three settings; among them one in the other direction and one
    that changes nothing. -/
def steps : List Step :=
  let A := letter 'A'
  let propositional := [.orComm, .andComm, .orAssoc, .andAssoc, .doubleNegation, .contraposition,
    .implication, .andOverOr, .orOverAnd, .negatedAnd, .negatedOr, .orSelf, .andSelf,
    .exportation].map (stepOf A)
  let reversed := (stepOf A .implication).reversed
  let unchanged : Step := ⟨.orComm, A, A⟩
  let quantified := [.negatedForall, .negatedExists].map (stepOf (pred "P" [x]))
  (propositional ++ reversed :: unchanged :: quantified).flatMap settings

/-- The bindings of a replacement. -/
def shownReplacement : Except Refusal Replacement → Value
  | .ok .unchanged => .record []
  | .ok (.applied b) =>
    .list [.record (b.formulas.map shown).entries, .record (b.names.map .text).entries]
  | .error r => .text r.message

/-- The place where two formulas differ. -/
def shownDifference (p q : Formula) : Value :=
  match p.difference q with
  | .ok (s, t) => .list [shown s, shown t]
  | .error r => .text r.message

/-- Whether an argument yields a formula; `nt` if formulas alone do not decide it. -/
def yields (arg : Argument) (f : Formula) : Value :=
  match (arg.typecheck {} f).1 with
  | .ok b => .flag b
  | .error (.refusal r) => .text r.message
  | .error (.fault _) => .text "nt"

/-- Justify `n` steps, find differences, and use a law as an argument. -/
def replacement (n : Nat) : Value :=
  let A := letter 'A'
  let B := letter 'B'
  let px := pred "P" [x]
  let commuted := Argument.replacement .orComm ⟨0, 1, disj A B⟩
  .list ((cycle steps n).map (fun s =>
      shownReplacement (s.law.equivalence.replace {} s.old s.new).1) ++
    [ shownDifference px (pred "P" [y]),
      shownDifference (all x px) (all y px),
      shownDifference px (neg px),
      shownDifference (ex x px) (ex x (pred "Q" [x])),
      shownDifference (conj A B) (conj (letter 'C') (letter 'D')),
      yields commuted (disj B A),
      .text (commuted.label?.getD "") ])

/-! ## Renaming and symbols -/

/-- A formula about the variable `v` and the variable `k`, under `n` layers that take turns: three
    connectives and the two quantifiers. -/
def about (v : Variable) : Nat → Formula
  | 0 => pred "P" [v, .named "k"]
  | i + 1 =>
    let p := about v i
    let base := pred "P" [v, .named "k"]
    match i % 5 with
    | 0 => conj p base
    | 1 => disj base p
    | 2 => imp p base
    | 3 => all (.named ("q" ++ toString i)) p
    | _ => ex (.named ("e" ++ toString i)) p

/-- The symbols of a formula. -/
def shownSymbols (f : Formula) : Value :=
  match f.symbols with
  | .ok s => .list [variableSet s.mentioned, variableSet s.bound]
  | .error r => .text r.message

/-- Rename a variable in a formula of `n` layers, ask which variables are used, and look at the
    symbols on both sides, `n` times. -/
def analysis (n : Nat) : Value :=
  let c := Variable.named "c"
  let asked := [.named "k", x, c, .named "absent"]
  let old := about x n
  let new := about c n
  let found :=
    match rename x old new none with
    | ⟨none, some w⟩ => .record [(x.text, .text w.text)]
    | _ => .record []
  .list (List.replicate n
    (found :: asked.map (fun v => .flag (old.uses v)) ++
      [shownSymbols old, shownSymbols new])).flatten

/-! ## Checking -/

/-- The answer of a run. -/
def answer (r : Run) : Value :=
  match r.result with
  | .ok b => .flag b
  | .error f => .text f.message

/-- Check a context `n` times, each time from where the last check left it but with no variable in
    use. -/
def checkRepeatedly : Nat → Context → List Value
  | 0, _ => []
  | n + 1, ctx =>
    let run := ctx.check
    answer run :: checkRepeatedly n { run.context with constants := [] }

/-- A context with the proof in a text. -/
def contextOf (s : String) : Context := (({} : Context).addText s).2

/-- Every propositional rule once. -/
def propositionalProof : String :=
  String.intercalate "\n"
    [ "1. A -> B prem;", "2. A prem;", "3. B mp 1, 2;", "4. ~B prem;", "5. ~A mt 1, 4;",
      "6. A /\\ B conj 2, 3;", "7. A simpl 6;", "8. A \\/ C add 2;", "9. B -> C prem;",
      "10. A -> C hs 1, 9;", "11. A \\/ B disj 2, 3;", "12. B ds 11, 5;", "13. B -> C prem;",
      "14. C de 11, 10, 13;", "15. B \\/ A or_comm 11;", "16. B /\\ A and_comm 6;", "17. ~~A dn 2;",
      "18. ~A \\/ B imp 1;", "19. ~B -> ~A cp 1;", "20. A /\\ (B \\/ C) prem;",
      "21. (A /\\ B) \\/ (A /\\ C) dist_ao 20;", "22. A \\/ (B /\\ C) prem;",
      "23. (A \\/ B) /\\ (A \\/ C) dist_oa 22;", "24. ~(A /\\ B) prem;", "25. ~A \\/ ~B dm_ao 24;",
      "26. ~(A \\/ B) prem;", "27. ~A /\\ ~B dm_oa 26;", "28. A -> (B -> C) prem;",
      "29. A /\\ B -> C exp 28;", "30. A \\/ A or_self 2;", "31. A /\\ A and_self 2;",
      "32. (A \\/ B) \\/ C prem;", "33. A \\/ (B \\/ C) or_assoc 32;", "34. (A /\\ B) /\\ C prem;",
      "35. A /\\ (B /\\ C) and_assoc 34;" ]

/-- What the last line of the propositional proof depends on. -/
def shownDependences (ctx : Context) : Value :=
  match ctx.dependences 35 with
  | .ok ns => .list (ns.map .number)
  | .error f => .text f.message

/-- Check `n` contexts with all propositional rules, then a context without proofs and a proof that
    fails, and report on the first of the `n`; without any there is nothing to report on. -/
def propositional (n : Nat) : Option Value :=
  match List.replicate n (contextOf propositionalProof) with
  | [] => none
  | first :: rest =>
    some (.list ((first :: rest).map (fun ctx => answer ctx.check) ++
      [ answer ({} : Context).check, answer (contextOf "1. A prem; 2. B dn 1;").check,
        .text (first.blockText (first.main.getD 0)), shownDependences first ]))

/-- Every quantifier rule. -/
def quantifiedProof : String :=
  String.intercalate "\n"
    [ "1. forall x, exists y, P(x, y) prem;", "2. exists y, P(x, y) ui 1;", "3. P(x, y) ei 2;",
      "4. exists y, P(x, y) eg 3;", "5. forall x, exists y, P(x, y) ug 4;",
      "6. ~(forall x, Q(x)) prem;", "7. exists x, ~Q(x) dm_fe 6;",
      "8. ~(exists x, Q(x)) prem;", "9. forall x, ~Q(x) dm_ef 8;" ]

/-- Check the quantifier rules `n` times. -/
def quantified (n : Nat) : Value := .list (checkRepeatedly n (contextOf quantifiedProof))

/-! ## Rules one by one -/

/-- The arguments of one round, each with the formula that it yields. -/
def arguments : List (Argument × Formula) :=
  let A := letter 'A'
  let B := letter 'B'
  let C := letter 'C'
  let line (n : Nat) (f : Formula) : Cited := ⟨n, n, f⟩
  let toB := line 1 (imp A B)
  let a := line 2 A
  let either := line 5 (disj A B)
  let toC := line 6 (imp B C)
  [ (.modusPonens toB a, B),
    (.modusTollens toB (line 3 (neg B)), neg A),
    (.simplification (line 4 (conj A B)), A),
    (.addition a, disj A B),
    (.hypotheticalSyllogism toB toC, imp A C),
    (.disjunctiveSyllogism either (line 7 (neg A)), B),
    (.disjunctiveElimination either (line 8 (imp A C)) toC, C),
    (.assumption, A) ]

/-- The text of an argument, if it yields its formula. -/
def label (arg : Argument) (f : Formula) : Value :=
  match yields arg f with
  | .flag true => .text (arg.label?.getD "")
  | other => other

/-- One round: arguments, variable contexts and a reason. -/
def round : List Value :=
  let combined := VariableContext.combine
    [.ofList [("u", ["e1"])], .ofList [("u", ["e2"]), ("v", [])]]
  arguments.map (fun (arg, f) => label arg f) ++
    [ .record (combined.map fun s => texts (Text.distinct s)).entries,
      .text (Reason.text ⟨"mp", [1, 2]⟩) ]

/-- Go through `n` rounds and add an argument that is not decided by formulas alone: how many values
    there are, the first twenty, and the last. -/
def rules (n : Nat) : Value :=
  let last := yields (.universalInstantiation ⟨0, 1, all x (pred "P" [x])⟩) (pred "P" [x])
  let values := (List.replicate n round).flatten ++ [last]
  .list [.number values.length, .list (values.take 20), last]

/-! ## The pieces of the grammar -/

/-- The first one, two or three letters joined by each connective. -/
def joined (i : Nat) : List Value :=
  let operands := [letter 'A', letter 'B', letter 'C'].take (i % 3 + 1)
  [ shown (Grammar.joinLeft conj operands), shown (Grammar.joinLeft disj operands),
    shown (Grammar.joinRight imp (letter 'A') (operands.drop 1)) ]

/-- An outline of `k` blocks of one line and a block that nothing closes, each followed by a
    line. -/
def outline (k : Nat) : List String :=
  (List.range k).flatMap fun i =>
    ["| " ++ toString i ++ ". A hyp;", "| | " ++ toString i ++ ". B hyp;",
      toString i ++ ". A prem;"]

/-- Build `n` letters, joins and numbers, then every other piece of the grammar once, and an outline
    of a size that grows with `n`. -/
def grammar (n : Nat) : Value :=
  let A := letter 'A'
  let holds (f : Formula) : Value := .flag (f.isExcludedMiddle {}).1
  .list ((List.range n).map (fun i => shown (atom ("P" ++ toString (i % 6)))) ++
    (List.range n).flatMap joined ++
    [shown (neg A), shown (all x A), shown (ex x A), shown (pred "P" [x, y])] ++
    (List.range n).map (fun i => .number (i % 50 + 1 : Nat)) ++
    [ .list ((Grammar.numberRange 2 6).map .number),
      .text (Line.text ⟨1, A, ⟨"mp", [1, 2]⟩⟩),
      texts (Outline.toBraces (outline (max 4 (n / 20)))),
      holds (disj A (neg A)), holds (disj (neg A) A), holds A ])

/-- The formulas read from a sample text, as a list. -/
def sample : String :=
  match Formula.parseLeading "P /\\ Q" with
  | .ok f => "[" ++ f.text ++ "]\n"
  | .error e => e.explain ++ "\n"

/-! ## Whole files -/

/-- A file that is checked to its end, with a block in outline. -/
def soundFile : String :=
  "~B -> ~A\n1. A -> B prem;\n| 2. ~B hyp;\n| 3. ~A mt 1, 2;\n4. ~B -> ~A ded 2, 3;\n"

/-- A file with a line that cannot be read. -/
def malformedFile : String := "A\n1. A prem;\n2. /\\ simpl 1;\n"

/-- The proof of the exportation law, with a block in a block. -/
def nestedProof : String :=
  "1. A /\\ B -> C prem; \x7b 2. A hyp; \x7b 3. B hyp; 4. A /\\ B conj 2, 3; 5. C mp 1, 4; \x7d " ++
    "6. B -> C ded 3-5; \x7d 7. A -> (B -> C) ded 2, 6;"

/-- Whether the report on a file has no fault and has the given text in it once. -/
def reports (file part : String) : Value :=
  let report := Report.ofFile {} file
  .flag (report.fault.isNone && (report.output.splitOn part).length = 2)

/-- Report on a sound file and on a malformed one, and check a context `n` times. -/
def files (n : Nat) : Value :=
  .list (reports soundFile " |- " :: reports malformedFile "ParseException" ::
    checkRepeatedly n (contextOf nestedProof))

end Workload

end Sequitur
