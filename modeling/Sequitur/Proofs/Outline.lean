import Mathlib.Data.List.Chain
import Mathlib.Data.List.DropRight
import Sequitur.Outline

/-!
# What an outline keeps

`Outline.toBraces` collects the barred lines of a block and writes them out, between braces, when it
comes to the line that closes the block.  A block that nothing closes is left out, and so is a block
at the end of another one, since the outer block is written out without the line that closes it.

`entries` is the same text with the braces that were put in told apart from the lines, which may be
braces themselves.  It is defined by recursion on the lines that are left and not on a bound for
their depth, and which lines it keeps can be told from the depths alone: a line is kept when each
block around it ends at a line that is just one level further out (`ClosedBy`).

What is written of a line is told apart from how it is found: `MadeOf` says that the line is its
bars, white space, the text and white space again, with no bar and no white space left over.

## Key results

- `Text.trims_iff`: what is left when white space is taken off the ends
- `madeOf_iff`: the bars of a line and its text
- `map_text_entries`: the entries are what `toBraces` writes
- `filterMap_line?_entries`: the lines among the entries
- `kept_eq_iff`: when no line is lost
- `toBraces_lines`: all of them together
-/

namespace Sequitur

/-! ## White space at the ends -/

namespace Text

/-- `t` is `s` without the white space at its ends. -/
structure Trims (s t : List Char) : Prop where
  /-- Nothing but white space is taken off. -/
  surrounded : ∃ before after, s = before ++ t ++ after ∧
    (∀ c ∈ before, isSpace c) ∧ ∀ c ∈ after, isSpace c
  /-- No white space is left in front. -/
  first : ∀ c ∈ t.head?, ¬ isSpace c
  /-- No white space is left at the back. -/
  last : ∀ c ∈ t.getLast?, ¬ isSpace c

/-- Dropping white space stops at the first character that is none. -/
private theorem dropWhile_isSpace {before t : List Char} (hbefore : ∀ c ∈ before, isSpace c)
    (hfirst : ∀ c ∈ t.head?, ¬ isSpace c) : (before ++ t).dropWhile isSpace = t := by
  rw [List.dropWhile_append_of_pos hbefore]
  cases t with
  | nil => rfl
  | cons c cs => exact List.dropWhile_cons_of_neg (hfirst c rfl)

/-- The two passes of `trimChars` take off the white space in front and that at the back. -/
private theorem trims_trimChars (cs : List Char) : Trims cs (trimChars cs) where
  surrounded := by
    refine ⟨cs.takeWhile isSpace, (cs.dropWhile isSpace).rtakeWhile isSpace, ?_,
      fun c hc => List.mem_takeWhile_imp hc, fun c hc => List.mem_rtakeWhile_imp hc⟩
    have hback : trimChars cs ++ (cs.dropWhile isSpace).rtakeWhile isSpace =
        cs.dropWhile isSpace := List.rdropWhile_append_rtakeWhile
    rw [List.append_assoc, hback, List.takeWhile_append_dropWhile]
  first c hc := by
    -- the second pass leaves the front as the first one made it
    obtain ⟨rest, hrest⟩ : trimChars cs <+: cs.dropWhile isSpace := List.rdropWhile_prefix _ _
    have hhead : (cs.dropWhile isSpace).head? = some c := by
      rw [← hrest, List.head?_append, Option.mem_def.mp hc, Option.some_or]
    have hstop := List.head?_dropWhile_not isSpace cs
    rw [hhead] at hstop
    simpa using hstop
  last c hc := by
    obtain ⟨hne, rfl⟩ := List.mem_getLast?_eq_getLast hc
    exact List.rdropWhile_last_not _ _ hne

/-- Nothing else is left than what the two passes leave. -/
private theorem Trims.eq_trimChars {s t : List Char} (h : Trims s t) : t = trimChars s := by
  obtain ⟨before, after, rfl, hbefore, hafter⟩ := h.surrounded
  by_cases ht : t = []
  · -- all is white space, so that the first pass drops everything
    subst ht
    have hall : (before ++ [] ++ after).dropWhile isSpace = [] := by
      simpa [List.dropWhile_eq_nil_iff, or_imp, forall_and] using ⟨hbefore, hafter⟩
    rw [trimChars, hall]
    rfl
  · have hfront : (before ++ (t ++ after)).dropWhile isSpace = t ++ after := by
      apply dropWhile_isSpace hbefore
      rw [List.head?_append_of_ne_nil _ ht]
      exact h.first
    have hback : (after.reverse ++ t.reverse).dropWhile isSpace = t.reverse := by
      apply dropWhile_isSpace
      · exact fun c hc => hafter c (List.mem_reverse.mp hc)
      · rw [List.head?_reverse]
        exact h.last
    rw [trimChars, List.append_assoc, hfront, List.reverse_append, hback, List.reverse_reverse]

/-- `trimChars` gives the one text that is left when all white space is taken off the ends. -/
theorem trims_iff {s t : List Char} : Trims s t ↔ t = trimChars s := by
  constructor
  · exact Trims.eq_trimChars
  · rintro rfl
    exact trims_trimChars s

end Text

namespace Outline

/-! ## Bars -/

/-- Put a bar in front of a line. -/
def bar (line : String) : String := String.ofList ('|' :: ' ' :: line.toList)

/-- The number of bars at the start of a text. -/
def bars : List Char → Nat
  | '|' :: ' ' :: cs => bars cs + 1
  | _ => 0

/-- A text without the bars at its start. -/
def unbar : List Char → List Char
  | '|' :: ' ' :: cs => unbar cs
  | cs => cs

/-- How many blocks a line stands in. -/
def depth (line : String) : Nat := bars line.toList

/-- A line without its bars and without white space at its ends. -/
def content (line : String) : String := Text.trim (String.ofList (unbar line.toList))

/-- A line from which a bar was taken is the rest with a bar. -/
theorem barred?_eq_some {line inner : String} (h : barred? line = some inner) :
    line = bar inner := by
  unfold barred? at h
  split at h
  · next cs hcs =>
    obtain rfl := Option.some.inj h
    rw [bar, String.toList_ofList, ← hcs, String.ofList_toList]
  · cases h

/-- A bar has two characters. -/
private theorem length_bar (line : String) : (bar line).length = line.length + 2 := by
  simp [bar, ← String.length_toList]

/-- A bar is one level. -/
@[simp] theorem depth_bar (line : String) : depth (bar line) = depth line + 1 := by
  simp [depth, bar, bars]

/-- The content of a line does not depend on its bars. -/
@[simp] theorem content_bar (line : String) : content (bar line) = content line := by
  simp [content, bar, unbar]

/-- A line from which no bar is taken does not begin with one. -/
private theorem toList_ne_of_barred?_eq_none {line : String} (h : barred? line = none)
    (cs : List Char) : line.toList = '|' :: ' ' :: cs → False := by
  intro hcs
  simp [barred?, hcs] at h

/-- Such a line stands in no block. -/
theorem depth_of_barred?_eq_none {line : String} (h : barred? line = none) : depth line = 0 := by
  rw [depth, bars.eq_2 _ (toList_ne_of_barred?_eq_none h)]

/-- Only white space is taken off it. -/
theorem content_of_barred?_eq_none {line : String} (h : barred? line = none) :
    content line = Text.trim line := by
  rw [content, unbar.eq_2 _ (toList_ne_of_barred?_eq_none h), String.ofList_toList]

/-- A line is `k` bars, as many as stand at its start, and after them `t` between white space. -/
def MadeOf (line : String) (k : Nat) (t : String) : Prop :=
  ∃ rest, line.toList = (List.replicate k ['|', ' ']).flatten ++ rest ∧ ¬ ['|', ' '] <+: rest ∧
    Text.Trims rest t.toList

/-- Taking off bars takes off as many as are counted, and leaves none. -/
private theorem eq_bars_append_unbar (cs : List Char) :
    cs = (List.replicate (bars cs) ['|', ' ']).flatten ++ unbar cs ∧
      ¬ ['|', ' '] <+: unbar cs := by
  fun_induction bars cs with
  | case1 cs ih =>
    refine ⟨?_, ih.2⟩
    rw [List.replicate_succ, List.flatten_cons, List.append_assoc, unbar, ← ih.1]
    rfl
  | case2 cs hcs =>
    rw [unbar.eq_2 _ hcs]
    refine ⟨rfl, ?_⟩
    rintro ⟨rest, rfl⟩
    exact hcs rest rfl

/-- Bars that are put in front of a text are counted and taken off again. -/
private theorem bars_unbar_append {rest : List Char} (h : ¬ ['|', ' '] <+: rest) (k : Nat) :
    bars ((List.replicate k ['|', ' ']).flatten ++ rest) = k ∧
      unbar ((List.replicate k ['|', ' ']).flatten ++ rest) = rest := by
  induction k with
  | zero =>
    have hrest : ∀ cs, rest = '|' :: ' ' :: cs → False := fun cs hcs => h ⟨cs, hcs.symm⟩
    exact ⟨bars.eq_2 _ hrest, unbar.eq_2 _ hrest⟩
  | succ k ih => exact ⟨congrArg (· + 1) ih.1, ih.2⟩

/-- The depth of a line and its content are the two things that it is made of. -/
theorem madeOf_iff {line t : String} {k : Nat} :
    MadeOf line k t ↔ k = depth line ∧ t = content line := by
  constructor
  · rintro ⟨rest, hline, hrest, htrims⟩
    obtain ⟨hbars, hunbar⟩ := bars_unbar_append hrest k
    rw [depth, content, hline, hbars, hunbar, Text.trim, String.toList_ofList,
      ← Text.trims_iff.mp htrims, String.ofList_toList]
    exact ⟨rfl, rfl⟩
  · rintro ⟨rfl, rfl⟩
    obtain ⟨hline, hrest⟩ := eq_bars_append_unbar line.toList
    refine ⟨unbar line.toList, hline, hrest, ?_⟩
    rw [content, Text.trim, String.toList_ofList, String.toList_ofList]
    exact Text.trims_iff.mpr rfl

/-! ## Entries -/

/-- What is written out: the brace before a block, the brace after it, or a line. -/
inductive Entry where
  | opening
  | closing
  | line (text : String)
deriving DecidableEq

/-- An entry as it is written. -/
def Entry.text : Entry → String
  | opening => "\x7b"
  | closing => "\x7d"
  | line text => text

/-- The line that an entry holds, if it is one. -/
def Entry.line? : Entry → Option String
  | line text => some text
  | _ => none

/-- The number of characters of some lines. -/
@[simp] def span : List String → Nat
  | [] => 0
  | l :: ls => l.length + span ls

/-- Characters are counted part by part. -/
@[simp] theorem span_append (ls ms : List String) : span (ls ++ ms) = span ls + span ms := by
  induction ls with
  | nil => simp
  | cons l ls ih => simp [ih, Nat.add_assoc]

/-- The entries of some lines, where `block` holds the barred lines met since the last line without
    a bar. -/
def layOut (block lines : List String) : List Entry :=
  match lines with
  | [] => []
  | l :: ls =>
    match h : barred? l with
    | some inner => layOut (block ++ [inner]) ls
    | none =>
      (if block.isEmpty then [] else .opening :: layOut [] block ++ [.closing]) ++
        .line (Text.trim l) :: layOut [] ls
termination_by span block + block.length + (span lines + lines.length)
decreasing_by
  · simp only [barred?_eq_some h, length_bar, span_append, span,
      List.length_append, List.length_cons, List.length_nil]
    omega
  all_goals
    simp only [span, List.length_cons, List.length_nil]
    omega

/-- The entries of some lines. -/
def entries (lines : List String) : List Entry := layOut [] lines

/-- The bound on the depth, without the fold. -/
private theorem depthBound_eq (lines : List String) : depthBound lines = span lines + 1 := by
  have hfold : ∀ n, lines.foldl (fun n l => n + l.length) n = n + span lines := by
    induction lines with
    | nil => simp
    | cons l ls ih =>
      intro n
      rw [List.foldl_cons, ih, span, Nat.add_assoc]
  rw [depthBound, hfold, Nat.add_comm]

/-- The bound on the depth that remains is large enough: each line of the block that is collected
    has lost two characters with its bar, which leaves room for one level more. -/
private theorem map_text_layOut (block lines : List String) (d : Nat)
    (hd : span block + block.length + span lines ≤ d) :
    (layOut block lines).map Entry.text = writeLines (writeNested d) block lines := by
  fun_induction layOut block lines generalizing d with
  | case1 block => rfl
  | case2 block l ls inner h ih =>
    rw [writeLines, h]
    apply ih
    simp only [barred?_eq_some h, length_bar, span_append, span,
      List.length_append, List.length_cons, List.length_nil] at hd ⊢
    omega
  | case3 block l ls h ihblock ihls =>
    rw [span] at hd
    have hls := ihls d (by rw [span, List.length_nil]; omega)
    rw [writeLines, h]
    by_cases hempty : block.isEmpty
    · simp [enclose, hempty, hls, Entry.text]
    · -- the block goes one level down, and its length in `hd` pays for it
      have hpos : 0 < block.length := List.length_pos_iff.mpr (by simpa using hempty)
      obtain ⟨d, rfl⟩ : ∃ d', d = d' + 1 := ⟨d - 1, by omega⟩
      have hblock := ihblock d (by rw [span, List.length_nil]; omega)
      simp [enclose, hempty, hls, hblock, writeNested, Entry.text]

/-- What is written are the texts of the entries. -/
theorem map_text_entries (lines : List String) :
    (entries lines).map Entry.text = toBraces lines := by
  rw [toBraces, depthBound_eq, writeNested]
  exact map_text_layOut [] lines (span lines) (by simp)

/-! ## The lines that are kept -/

/-- The blocks around a line of depth `d` are closed one level at a time by the depths that follow
    it: the first of them that is outside of a block is just outside of it. -/
def ClosedBy (d : Nat) (after : List Nat) : Prop :=
  ∀ j < d, after.find? (· ≤ j) = some j

instance (d : Nat) (after : List Nat) : Decidable (ClosedBy d after) :=
  inferInstanceAs (Decidable (∀ j < d, _ = _))

/-- The contents of the lines all of whose blocks are closed one level at a time. -/
def kept : List String → List String
  | [] => []
  | l :: ls => if ClosedBy (depth l) (ls.map depth) then content l :: kept ls else kept ls

/-- A line of depth zero has no blocks around it. -/
theorem closedBy_zero (after : List Nat) : ClosedBy 0 after := nofun

/-- At the end of an outline no block is closed. -/
private theorem closedBy_nil_iff {d : Nat} : ClosedBy d [] ↔ d = 0 := by
  constructor
  · intro h
    by_contra hd
    -- the outermost block has to be closed by something
    exact absurd (h 0 (by omega)) nofun
  · rintro rfl
    exact closedBy_zero []

/-- Without a line of depth zero the outermost block stays open. -/
theorem not_closedBy_map_succ (d : Nat) (after : List Nat) :
    ¬ ClosedBy (d + 1) (after.map (· + 1)) := by
  intro h
  have hzero := List.mem_of_find?_eq_some (h 0 (by omega))
  simp at hzero

/-- A line of depth zero closes the outermost block, and what follows it is of no account. -/
theorem closedBy_map_succ_append {d : Nat} {after rest : List Nat} :
    ClosedBy (d + 1) (after.map (· + 1) ++ 0 :: rest) ↔ ClosedBy d after := by
  have houter : (after.map (· + 1) ++ 0 :: rest).find? (· ≤ 0) = some 0 := by
    have hnone : (after.map (· + 1)).find? (· ≤ 0) = none := List.find?_eq_none.mpr (by simp)
    rw [List.find?_append, hnone]
    simp
  -- If nothing in the block is outside of level `j`, then the line of depth zero is, and it is too
  -- far out.
  have hinner : ∀ j, (after.map (· + 1) ++ 0 :: rest).find? (· ≤ j + 1) = some (j + 1) ↔
      after.find? (· ≤ j) = some j := by
    intro j
    have hmap : (after.map (· + 1)).find? (· ≤ j + 1) = (after.find? (· ≤ j)).map (· + 1) := by
      rw [List.find?_map]
      simp only [Function.comp_def, Nat.add_le_add_iff_right]
    rw [List.find?_append, hmap]
    cases after.find? (· ≤ j) <;> simp
  constructor
  · intro h j hj
    exact (hinner j).mp (h (j + 1) (by omega))
  · intro h j hj
    cases j with
    | zero => exact houter
    | succ j => exact (hinner j).mpr (h j (by omega))

/-- A block that nothing follows is lost with all that it holds. -/
private theorem kept_map_bar (block : List String) : kept (block.map bar) = [] := by
  induction block with
  | nil => rfl
  | cons l ls ih =>
    have hopen : ¬ ClosedBy (depth (bar l)) ((ls.map bar).map depth) := by
      have := not_closedBy_map_succ (depth l) (ls.map depth)
      simpa [Function.comp_def] using this
    rw [List.map_cons, kept, if_neg hopen, ih]

/-- A line without a bar is kept, and of the block before it what the block would keep by itself. -/
private theorem kept_map_bar_append {l : String} (hl : barred? l = none)
    (block rest : List String) :
    kept (block.map bar ++ l :: rest) = kept block ++ content l :: kept rest := by
  have hdepth := depth_of_barred?_eq_none hl
  induction block with
  | nil => simp [kept, hdepth, closedBy_zero]
  | cons b bs ih =>
    have hiff : ClosedBy (depth (bar b)) ((bs.map bar ++ l :: rest).map depth) ↔
        ClosedBy (depth b) (bs.map depth) := by
      have := @closedBy_map_succ_append (depth b) (bs.map depth) (rest.map depth)
      simpa [Function.comp_def, hdepth] using this
    simp only [List.map_cons, List.cons_append, kept, hiff, ih]
    split <;> simp

/-- The lines among the entries are those that are kept. -/
private theorem filterMap_line?_layOut (block lines : List String) :
    (layOut block lines).filterMap Entry.line? = kept (block.map bar ++ lines) := by
  -- putting the bars back on the collected block gives the lines as they were
  fun_induction layOut block lines with
  | case1 block => simp [kept_map_bar]
  | case2 block l ls inner h ih => simpa [barred?_eq_some h] using ih
  | case3 block l ls h ihblock ihls =>
    rw [kept_map_bar_append h, content_of_barred?_eq_none h]
    rw [List.map_nil, List.nil_append] at ihblock ihls
    by_cases hempty : block = []
    · simp [hempty, kept, ihls, Entry.line?]
    · simp [hempty, List.filterMap_cons, ihblock, ihls, Entry.line?]

/-- The lines among the entries of an outline. -/
theorem filterMap_line?_entries (lines : List String) :
    (entries lines).filterMap Entry.line? = kept lines :=
  filterMap_line?_layOut [] lines

/-! ## Outlines that lose no line -/

/-- Depths that go out by one level at a time and come to zero at the end. -/
def StepsOut (depths : List Nat) : Prop :=
  depths.IsChain (fun d e => d ≤ e + 1) ∧ ∀ d ∈ depths.getLast?, d = 0

/-- Where the next line has its blocks closed, only the step to it matters. -/
private theorem closedBy_cons_iff {d e : Nat} {after : List Nat} (he : ClosedBy e after) :
    ClosedBy d (e :: after) ↔ d ≤ e + 1 := by
  constructor
  · intro h
    by_contra hd
    have hnext := h (e + 1) (by omega)
    simp at hnext
  · intro hd j hj
    -- the next line decides at its own level, and is passed over at lower ones
    by_cases hje : e ≤ j
    · obtain rfl : e = j := by omega
      simp
    · rw [List.find?_cons_of_neg (by simpa using hje)]
      exact he j (by omega)

/-- No line is kept twice. -/
private theorem length_kept_le (lines : List String) : (kept lines).length ≤ lines.length := by
  induction lines with
  | nil => simp [kept]
  | cons l ls ih =>
    rw [kept]
    split
    · simpa using ih
    · exact Nat.le_succ_of_le ih

/-- All lines are kept when the first one has its blocks closed and the others are kept. -/
private theorem kept_cons_eq_iff {l : String} {ls : List String} :
    kept (l :: ls) = (l :: ls).map content ↔
      ClosedBy (depth l) (ls.map depth) ∧ kept ls = ls.map content := by
  rw [kept]
  split
  · next h => simp [h]
  · next h =>
    simp only [h, false_and, iff_false]
    intro heq
    -- there would be as many lines as before with one left out
    have hlength := congrArg List.length heq
    rw [List.length_map, List.length_cons] at hlength
    have hle := length_kept_le ls
    omega

/-- No line is lost just when the depths go out by one level at a time, down to zero. -/
theorem kept_eq_iff (lines : List String) :
    kept lines = lines.map content ↔ StepsOut (lines.map depth) := by
  induction lines with
  | nil => simp [kept, StepsOut]
  | cons l ls ih =>
    rw [kept_cons_eq_iff]
    cases ls with
    | nil => simp [kept, closedBy_nil_iff, StepsOut]
    | cons m ms =>
      -- whether the first line is kept depends on the step to the next one, if the others are all
      -- kept
      have hstep : kept (m :: ms) = (m :: ms).map content →
          (ClosedBy (depth l) ((m :: ms).map depth) ↔ depth l ≤ depth m + 1) :=
        fun h => closedBy_cons_iff (kept_cons_eq_iff.mp h).1
      rw [and_congr_left hstep, ih]
      simp [StepsOut, and_assoc]

/-- The text written out consists of braces and, in their order, the lines all of whose blocks are
    closed one level at a time, without their bars and without white space at their ends.  No line
    is lost exactly if no line is followed by one that is two or more levels further out and the
    last line has no bar. -/
theorem toBraces_lines (lines : List String) :
    toBraces lines = (entries lines).map Entry.text ∧
      (entries lines).filterMap Entry.line? = kept lines ∧
      (∀ l ∈ lines, MadeOf l (depth l) (content l)) ∧
      ((entries lines).filterMap Entry.line? = lines.map content ↔
        StepsOut (lines.map depth)) := by
  refine ⟨(map_text_entries lines).symm, filterMap_line?_entries lines, ?_, ?_⟩
  · exact fun l _ => madeOf_iff.mpr ⟨rfl, rfl⟩
  · rw [filterMap_line?_entries]
    exact kept_eq_iff lines

/-- A block at the end is lost, and so is one that ends together with the block around it. -/
theorem toBraces_loses_open_block :
    toBraces ["1. A prem;", "| 2. B hyp;"] = ["1. A prem;"] ∧
      ["1. A prem;", "| 2. B hyp;"].map content = ["1. A prem;", "2. B hyp;"] ∧
      toBraces ["| | 1. B hyp;", "2. A prem;"] = ["\x7b", "\x7d", "2. A prem;"] := by
  decide

end Outline

end Sequitur
