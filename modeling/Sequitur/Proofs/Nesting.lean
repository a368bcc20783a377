import Mathlib.Data.List.Nodup
import Sequitur.Proofs.Outline

/-!
# How an outline nests

The braces that `Outline.toBraces` writes are balanced, and the line that had `k` bars stands inside
`k` of them.  Two lines of the same depth stand in the same block exactly if no line between them in
the outline is further out, whether or not that line is kept.

What is written says nothing of where it comes from, so the lines of the outline are numbered.  A
`Layout` relates numbered lines to what is written of them, with the numbers kept, and follows the
way in which blocks are collected: a block that nothing closes is left out, a line without a bar is
written, and a block in front of such a line is written between braces.  All properties are shown
by induction on layouts, for texts that start at any place inside any braces.

## Key results

- `exists_layout`: the entries of an outline are laid out
- `Layout.openFrom_eq`: what is laid out closes the braces that it opens
- `Layout.exists_depth`: how many braces a line stands in
- `Layout.written_iff`: which lines are written
- `Layout.surroundings_eq_iff`: when two lines stand in the same braces
- `toBraces_nests`: the same about the text that is written
-/

namespace Sequitur.Outline

/-! ## Open braces -/

/-- What an entry of a text is. -/
def Entry.ofText (text : String) : Entry :=
  if text = "\x7b" then opening else if text = "\x7d" then closing else line text

/-- The places of the braces that are open after some entries, the innermost first, where the first
    entry stands at `place` and the braces at `bs` are open before it.  There is no answer if a
    brace is closed that has not been opened. -/
def openFrom (place : Nat) (bs : List Nat) : List Entry → Option (List Nat)
  | [] => some bs
  | .opening :: es => openFrom (place + 1) (place :: bs) es
  | .closing :: es =>
    match bs with
    | [] => none
    | _ :: outer => openFrom (place + 1) outer es
  | .line _ :: es => openFrom (place + 1) bs es

/-- The places of the braces that are open in a text before the entry at `p`, the innermost
    first. -/
def openAt (text : List String) (p : Nat) : Option (List Nat) :=
  openFrom 0 [] ((text.take p).map Entry.ofText)

/-- The place of the innermost brace that is open in a text before the entry at `p`. -/
def innermostAt (text : List String) (p : Nat) : Option Nat := (openAt text p).bind List.head?

/-- The entry at `p` is a line. -/
def LineAt (text : List String) (p : Nat) : Prop :=
  ∃ t, text[p]? = some t ∧ t ≠ "\x7b" ∧ t ≠ "\x7d"

/-- The braces that are open after a first part are those before the second. -/
private theorem openFrom_append (place : Nat) (bs : List Nat) (es fs : List Entry) :
    openFrom place bs (es ++ fs) =
      (openFrom place bs es).bind fun bs' => openFrom (place + es.length) bs' fs := by
  induction es generalizing place bs with
  | nil => rfl
  | cons e es ih =>
    have hlength : place + (e :: es).length = place + 1 + es.length := by
      rw [List.length_cons]
      omega
    rw [hlength]
    cases e with
    | opening | line => exact ih (place + 1) _
    | closing =>
      cases bs with
      | nil => rfl
      | cons b outer => exact ih (place + 1) outer

/-- Each brace that is opened or closed changes the number of open braces by one. -/
private theorem length_openFrom {place : Nat} {bs bs' : List Nat} {es : List Entry}
    (h : openFrom place bs es = some bs') :
    bs'.length + es.count .closing = bs.length + es.count .opening := by
  induction es generalizing place bs with
  | nil =>
    cases h
    simp
  | cons e es ih =>
    cases e with
    | opening =>
      have := ih h
      simp only [List.length_cons, List.count_cons_self,
        List.count_cons_of_ne (show Entry.opening ≠ .closing by decide)] at this ⊢
      -- one more is open, and one more opening was counted
      omega
    | closing =>
      cases bs with
      | nil => cases h
      | cons b outer =>
        have := ih h
        simp only [List.length_cons, List.count_cons_self,
          List.count_cons_of_ne (show Entry.closing ≠ .opening by decide)] at this ⊢
        omega
    | line t =>
      have := ih h
      rwa [List.count_cons_of_ne (by simp), List.count_cons_of_ne (by simp)]

/-- The braces around a brace that is open are those that were open before it. -/
private theorem openFrom_take_of_mem {es : List Entry} {p b : Nat} {inner outer : List Nat}
    (h : openFrom 0 [] (es.take p) = some (inner ++ b :: outer)) :
    openFrom 0 [] (es.take b) = some outer := by
  -- going back from `p`, the brace at `b` stays open until its own place is reached
  induction p generalizing inner with
  | zero => simp [openFrom] at h
  | succ p ih =>
    rw [List.take_add_one] at h
    cases he : es[p]? with
    | none =>
      rw [he, Option.toList_none, List.append_nil] at h
      exact ih h
    | some e =>
      have hp : p < es.length := (List.getElem?_eq_some_iff.mp he).1
      have hlength : (es.take p).length = p := List.length_take_of_le (by omega)
      rw [he, Option.toList_some, openFrom_append, hlength] at h
      obtain ⟨bs, hbs, hlast⟩ := Option.bind_eq_some_iff.mp h
      rw [Nat.zero_add] at hlast
      cases e with
      | line t =>
        obtain rfl := Option.some.inj hlast
        exact ih hbs
      | closing =>
        cases bs with
        | nil => cases hlast
        | cons c bs =>
          obtain rfl := Option.some.inj hlast
          exact ih (List.cons_append ▸ hbs)
      | opening =>
        -- the brace at `p` is the one looked for, or it stands inside of it
        have heq : p :: bs = inner ++ b :: outer := Option.some.inj hlast
        cases inner with
        | nil =>
          obtain ⟨rfl, rfl⟩ := List.cons.inj heq
          exact hbs
        | cons c inner =>
          obtain ⟨-, rfl⟩ := List.cons.inj heq
          exact ih hbs

/-- An innermost brace is open inside the same braces wherever it is the innermost one. -/
private theorem head?_eq_iff {es : List Entry} {p q : Nat} {bs cs : List Nat}
    (hp : openFrom 0 [] (es.take p) = some bs) (hq : openFrom 0 [] (es.take q) = some cs)
    (hlength : bs.length = cs.length) : bs.head? = cs.head? ↔ bs = cs := by
  refine ⟨fun h => ?_, fun h => h ▸ rfl⟩
  cases bs with
  | nil => exact (List.length_eq_zero_iff.mp hlength.symm).symm
  | cons b bs =>
    cases cs with
    | nil => cases h
    | cons c cs =>
      obtain rfl : b = c := Option.some.inj h
      have hbs := openFrom_take_of_mem (hp.trans (congrArg some (List.nil_append (b :: bs)).symm))
      have hcs := openFrom_take_of_mem (hq.trans (congrArg some (List.nil_append (b :: cs)).symm))
      rw [hbs] at hcs
      rw [Option.some.inj hcs]

/-! ## Layouts -/

/-- What is written out, where a line keeps its number. -/
inductive Mark where
  | opening
  | closing
  | line (number : Nat) (text : String)

/-- A mark without the number. -/
def Mark.entry : Mark → Entry
  | opening => .opening
  | closing => .closing
  | line _ text => .line text

/-- The line that a mark stands for, if it is one. -/
def Mark.line? : Mark → Option (Nat × String)
  | line number text => some (number, text)
  | _ => none

/-- Put a bar in front of a numbered line. -/
def barNumbered (l : String × Nat) : String × Nat := (bar l.1, l.2)

/-- A numbered line of a block, with its bar. -/
private theorem mem_map_bar {block : List (String × Nat)} {l : String} {i : Nat}
    (h : (l, i) ∈ block) : (bar l, i) ∈ block.map barNumbered :=
  List.mem_map.mpr ⟨(l, i), h, rfl⟩

/-- A line with a bar that was put in front of it. -/
private theorem exists_of_mem_map_bar {block : List (String × Nat)} {l : String} {i : Nat}
    (h : (l, i) ∈ block.map barNumbered) : ∃ l', (l', i) ∈ block ∧ l = bar l' := by
  obtain ⟨⟨l', j⟩, hmem, heq⟩ := List.mem_map.mp h
  obtain ⟨rfl, rfl⟩ := Prod.mk.inj heq
  exact ⟨l', hmem, rfl⟩

/-- Numbered lines are written out as the given marks. -/
inductive Layout : List (String × Nat) → List Mark → Prop
  /-- A block that no line closes is left out. -/
  | unclosed (block : List (String × Nat)) : Layout (block.map barNumbered) []
  /-- A line without a bar is written. -/
  | line {l : String} {i : Nat} {rest : List (String × Nat)} {ns : List Mark}
      (plain : barred? l = none) (after : Layout rest ns) :
      Layout ((l, i) :: rest) (.line i (Text.trim l) :: ns)
  /-- A block that is closed by a line without a bar is written in front of it. -/
  | block {block rest : List (String × Nat)} {l : String} {i : Nat} {ms ns : List Mark}
      (plain : barred? l = none) (inside : Layout block ms) (after : Layout ((l, i) :: rest) ns) :
      Layout (block.map barNumbered ++ (l, i) :: rest) (.opening :: ms ++ .closing :: ns)

/-- The lines of an outline are laid out as their entries are, also where a block has been collected
    already. -/
theorem exists_layout (block lines : List (String × Nat)) :
    ∃ ms, Layout (block.map barNumbered ++ lines) ms ∧
      ms.map Mark.entry = layOut (block.map Prod.fst) (lines.map Prod.fst) := by
  generalize hb : block.map Prod.fst = texts
  generalize hl : lines.map Prod.fst = others
  fun_induction layOut texts others generalizing block lines with
  | case1 texts =>
    obtain rfl := List.map_eq_nil_iff.mp hl
    rw [List.append_nil]
    exact ⟨[], .unclosed block, rfl⟩
  | case2 texts t ts inner h ih =>
    obtain ⟨⟨_, i⟩, rest, rfl, rfl, rfl⟩ := List.map_eq_cons_iff.mp hl
    -- the bar that is taken off is put back on in the block
    obtain ⟨ms, hms, heq⟩ := ih (block ++ [(inner, i)]) rest (by simp [hb]) rfl
    refine ⟨ms, ?_, heq⟩
    simpa [barNumbered, ← barred?_eq_some h] using hms
  | case3 texts t ts h ihblock ihrest =>
    obtain ⟨⟨_, i⟩, rest, rfl, rfl, rfl⟩ := List.map_eq_cons_iff.mp hl
    obtain ⟨ns, hns, hrest⟩ := ihrest [] rest rfl rfl
    have hline : Layout ((_, i) :: rest) _ := .line h hns
    -- the line closes a block if one has been collected
    by_cases hempty : texts = []
    · subst hempty
      obtain rfl := List.map_eq_nil_iff.mp hb
      exact ⟨_, hline, by simp [hrest, Mark.entry]⟩
    · obtain ⟨ms, hms, hinside⟩ := ihblock [] block rfl hb
      exact ⟨_, .block h hms hline, by simp [hempty, hrest, hinside, Mark.entry]⟩

namespace Layout

variable {ls : List (String × Nat)} {ms : List Mark}

/-- What is laid out closes the braces that it opens and no others. -/
theorem openFrom_eq (h : Layout ls ms) (place : Nat) (bs : List Nat) :
    openFrom place bs (ms.map Mark.entry) = some bs := by
  induction h generalizing place bs with
  | unclosed block => rfl
  | line plain after ih => exact ih (place + 1) bs
  | block plain inside after ihinside ihafter =>
    have hblock := ihinside (place + 1) (place :: bs)
    simp only [List.map_append, List.map_cons, List.cons_append, Mark.entry, openFrom,
      openFrom_append, hblock, Option.bind_some]
    exact ihafter _ bs

/-- The lines are written in their order, without their bars. -/
private theorem lines_sublist (h : Layout ls ms) :
    (ms.filterMap Mark.line?).Sublist (ls.map fun l => (l.2, content l.1)) := by
  induction h with
  | unclosed block => exact List.nil_sublist _
  | line plain after ih =>
    rw [List.map_cons, content_of_barred?_eq_none plain]
    exact ih.cons_cons _
  | @block block rest l i ms ns plain inside after ihinside ihafter =>
    -- the lines of a block come before those that follow it, with their bars taken off
    have hmarks : (.opening :: ms ++ .closing :: ns : List Mark).filterMap Mark.line? =
        ms.filterMap Mark.line? ++ ns.filterMap Mark.line? := by
      simp [List.filterMap_cons, Mark.line?]
    have hblock : (block.map barNumbered).map (fun l => (l.2, content l.1)) =
        block.map fun l => (l.2, content l.1) := by
      simp [barNumbered]
    rw [hmarks, List.map_append, hblock]
    exact ihinside.append ihafter

/-- Where the outline is numbered in its order, so is what is written of it. -/
private theorem pairwise_marks (h : Layout ls ms) (hsorted : ls.Pairwise fun a b => a.2 < b.2) :
    ms.Pairwise fun a b => ∀ x, a.line? = some x → ∀ y, b.line? = some y → x.1 < y.1 := by
  have hlines : (ls.map fun l => (l.2, content l.1)).Pairwise fun x y => x.1 < y.1 := by
    rwa [List.pairwise_map]
  exact List.pairwise_filterMap.mp (hlines.sublist h.lines_sublist)

end Layout

/-! ## The braces around a line -/

/-- The numbers of the lines among some marks, each with the braces that are open around it. -/
def surroundings (place : Nat) (bs : List Nat) : List Mark → List (Nat × List Nat)
  | [] => []
  | .opening :: ms => surroundings (place + 1) (place :: bs) ms
  | .closing :: ms => surroundings (place + 1) bs.tail ms
  | .line i _ :: ms => (i, bs) :: surroundings (place + 1) bs ms

/-- What comes after some marks stands in the braces that they leave open. -/
private theorem surroundings_append {place : Nat} {bs bs' : List Nat} {ms : List Mark}
    (h : openFrom place bs (ms.map Mark.entry) = some bs') (ns : List Mark) :
    surroundings place bs (ms ++ ns) =
      surroundings place bs ms ++ surroundings (place + ms.length) bs' ns := by
  induction ms generalizing place bs with
  | nil =>
    cases h
    rfl
  | cons m ms ih =>
    -- the places of the marks are counted from the first one of the text
    have hlength : place + (m :: ms).length = place + 1 + ms.length := by
      rw [List.length_cons]
      omega
    rw [hlength]
    cases m with
    | opening => exact ih h
    | closing =>
      cases bs with
      | nil => cases h
      | cons b outer => exact ih h
    | line i t => exact congrArg _ (ih h)

/-- The braces that are open before the place of a line are those around it. -/
private theorem mem_surroundings {place p i : Nat} {t : String} {bs cs : List Nat} {ms : List Mark}
    (hline : ms[p]? = some (.line i t))
    (hopen : openFrom place bs ((ms.take p).map Mark.entry) = some cs) :
    (i, cs) ∈ surroundings place bs ms := by
  have hsplit : ms = ms.take p ++ .line i t :: ms.drop (p + 1) := by
    obtain ⟨hp, hget⟩ := List.getElem?_eq_some_iff.mp hline
    rw [← hget, ← List.drop_eq_getElem_cons hp, List.take_append_drop]
  rw [hsplit, surroundings_append hopen]
  exact List.mem_append_right _ List.mem_cons_self

namespace Layout

variable {ls : List (String × Nat)} {ms : List Mark}

/-- The lines of a block stand inside the brace in front of it, and what follows the block stands
    outside of it. -/
private theorem surroundings_block {block : List (String × Nat)} (inside : Layout block ms)
    (place : Nat) (bs : List Nat) (ns : List Mark) :
    surroundings place bs (.opening :: ms ++ .closing :: ns) =
      surroundings (place + 1) (place :: bs) ms ++
        surroundings (place + 1 + ms.length + 1) bs ns := by
  have hblock := inside.openFrom_eq (place + 1) (place :: bs)
  rw [List.cons_append, surroundings, surroundings_append hblock, surroundings, List.tail_cons]

/-- A line stands inside as many braces as it had bars, beyond those that were open before. -/
theorem exists_depth (h : Layout ls ms) {place i : Nat} {bs cs : List Nat}
    (hi : (i, cs) ∈ surroundings place bs ms) :
    ∃ l inner, (l, i) ∈ ls ∧ cs = inner ++ bs ∧ inner.length = depth l ∧
      ∀ b ∈ inner, place ≤ b := by
  induction h generalizing place bs with
  | unclosed block => cases hi
  | @line l j rest ns plain after ih =>
    rcases List.mem_cons.mp hi with heq | hi
    · cases heq
      exact ⟨l, [], List.mem_cons_self, rfl, (depth_of_barred?_eq_none plain).symm, nofun⟩
    · obtain ⟨l', inner, hmem, hcs, hdepth, hle⟩ := ih hi
      refine ⟨l', inner, List.mem_cons_of_mem _ hmem, hcs, hdepth, fun b hb => ?_⟩
      have := hle b hb
      omega
  | block plain inside after ihinside ihafter =>
    rw [inside.surroundings_block] at hi
    rcases List.mem_append.mp hi with hi | hi
    · -- inside the block the brace in front of it comes on top
      obtain ⟨l', inner, hmem, rfl, hdepth, hle⟩ := ihinside hi
      refine ⟨bar l', inner ++ [place], List.mem_append_left _ (mem_map_bar hmem),
        by simp, by simp [hdepth], fun b hb => ?_⟩
      rcases List.mem_append.mp hb with hb | hb
      · have := hle b hb
        omega
      · exact (List.mem_singleton.mp hb).ge
    · obtain ⟨l', inner, hmem, hcs, hdepth, hle⟩ := ihafter hi
      refine ⟨l', inner, List.mem_append_right _ hmem, hcs, hdepth, fun b hb => ?_⟩
      have := hle b hb
      omega

/-- In an outline that is numbered in its order, a number stands for one line. -/
private theorem eq_of_number (hsorted : ls.Pairwise fun a b => a.2 < b.2) {l m : String} {i : Nat}
    (hl : (l, i) ∈ ls) (hm : (m, i) ∈ ls) : l = m := by
  have hnodup : (ls.map Prod.snd).Nodup := List.pairwise_map.mpr (hsorted.imp Nat.ne_of_lt)
  exact congrArg Prod.fst (List.inj_on_of_nodup_map hnodup hl hm rfl)

/-- What is written is numbered as a line of the outline. -/
theorem exists_line (h : Layout ls ms) {i : Nat} {t : String} (ht : .line i t ∈ ms) :
    ∃ l, (l, i) ∈ ls ∧ t = content l := by
  have hline : (i, t) ∈ ms.filterMap Mark.line? := List.mem_filterMap.mpr ⟨_, ht, rfl⟩
  obtain ⟨⟨l, j⟩, hl, heq⟩ := List.mem_map.mp (h.lines_sublist.subset hline)
  obtain ⟨rfl, rfl⟩ := Prod.mk.inj heq
  exact ⟨l, hl, rfl⟩

/-- A line is written exactly if the blocks around it are closed one level at a time. -/
theorem written_iff (h : Layout ls ms) (hsorted : ls.Pairwise fun a b => a.2 < b.2)
    {before after : List (String × Nat)} {l : String} {i : Nat}
    (hls : ls = before ++ (l, i) :: after) :
    (∃ t, .line i t ∈ ms) ↔ ClosedBy (depth l) (after.map fun a => depth a.1) := by
  induction h generalizing before after l with
  | unclosed block =>
    -- all lines have a bar, so that no line closes the outermost block
    obtain ⟨front, back, -, -, hback⟩ := List.map_eq_append_iff.mp hls
    obtain ⟨⟨l', _⟩, after, rfl, heq, rfl⟩ := List.map_eq_cons_iff.mp hback
    cases heq
    have hopen := not_closedBy_map_succ (depth l') (after.map fun a => depth a.1)
    refine iff_of_false nofun ?_
    simpa [barNumbered, Function.comp_def] using hopen
  | @line l₀ i₀ rest ns plain inner ih =>
    obtain ⟨hfirst, hrest⟩ := List.pairwise_cons.mp hsorted
    cases before with
    | nil =>
      cases hls
      rw [depth_of_barred?_eq_none plain]
      exact iff_of_true ⟨_, List.mem_cons_self⟩ (closedBy_zero _)
    | cons b before =>
      obtain ⟨rfl, rfl⟩ := List.cons.inj hls
      -- the first line has a lower number
      have hne : i₀ < i := hfirst (l, i) (by simp)
      rw [← ih hrest rfl]
      refine exists_congr fun t => ⟨fun ht => ?_, List.mem_cons_of_mem _⟩
      rcases List.mem_cons.mp ht with heq | ht
      · cases heq
        omega
      · exact ht
  | @block block rest l₀ i₀ ms ns plain inside outside ihinside ihoutside =>
    obtain ⟨hblock, houtside, hacross⟩ := List.pairwise_append.mp hsorted
    have hblock' : block.Pairwise fun a b => a.2 < b.2 := by
      rwa [List.pairwise_map] at hblock
    have hmarks {t : String} : .line i t ∈ Mark.opening :: ms ++ .closing :: ns ↔
        .line i t ∈ ms ∨ .line i t ∈ ns := by simp
    simp only [hmarks, exists_or]
    -- numbers in the block are lower than those after it
    have hafter (between : List (String × Nat))
        (hrest : (l₀, i₀) :: rest = between ++ (l, i) :: after) :
        (∃ t, .line i t ∈ ms) ∨ (∃ t, .line i t ∈ ns) ↔
          ClosedBy (depth l) (after.map fun a => depth a.1) := by
      have hmem : (l, i) ∈ (l₀, i₀) :: rest := by
        rw [hrest]
        exact List.mem_append_right _ List.mem_cons_self
      have hnot : ¬ ∃ t, .line i t ∈ ms := by
        rintro ⟨t, ht⟩
        obtain ⟨u, hu, -⟩ := inside.exists_line ht
        exact Nat.lt_irrefl i (hacross _ (mem_map_bar hu) _ hmem)
      rw [or_iff_right hnot, ihoutside houtside hrest]
    rcases List.append_eq_append_iff.mp hls with
      ⟨between, -, hrest⟩ | ⟨_ | ⟨e, back⟩, hinner, hback⟩
    · exact hafter between hrest
    · exact hafter [] hback.symm
    · -- in the block, where the line that closes it comes after the others
      obtain ⟨rfl, rfl⟩ := List.cons.inj hback
      obtain ⟨front, tail, rfl, -, htail⟩ := List.map_eq_append_iff.mp hinner
      obtain ⟨⟨l', j⟩, back, rfl, heq, rfl⟩ := List.map_eq_cons_iff.mp htail
      obtain ⟨rfl, rfl⟩ := Prod.mk.inj heq
      have hclosed := @closedBy_map_succ_append (depth l') (back.map fun a => depth a.1)
        (rest.map fun a => depth a.1)
      have hmem : (bar l', j) ∈ (front ++ (l', j) :: back).map barNumbered :=
        mem_map_bar (List.mem_append_right _ List.mem_cons_self)
      have hnot : ¬ ∃ t, .line j t ∈ ns := by
        rintro ⟨t, ht⟩
        obtain ⟨u, hu, -⟩ := outside.exists_line ht
        exact Nat.lt_irrefl j (hacross _ hmem _ hu)
      rw [or_iff_left hnot, ihinside hblock' rfl, ← hclosed]
      simp [barNumbered, Function.comp_def, depth_of_barred?_eq_none plain]

end Layout

/-! ## Lines in the same block -/

/-- The lines with numbers between `i` and `j` have at least `d` bars. -/
def DeepBetween (ls : List (String × Nat)) (i j d : Nat) : Prop :=
  ∀ n k, (n, k) ∈ ls → i < k → k < j → d ≤ depth n

section

variable {as bs : List (String × Nat)} {i j d : Nat}

/-- Lines with higher numbers do not matter. -/
private theorem deepBetween_append_left (h : ∀ b ∈ bs, j ≤ b.2) :
    DeepBetween (as ++ bs) i j d ↔ DeepBetween as i j d := by
  refine ⟨fun hdeep n k hmem => hdeep n k (List.mem_append_left _ hmem), ?_⟩
  intro hdeep n k hmem hik hkj
  rcases List.mem_append.mp hmem with hmem | hmem
  · exact hdeep n k hmem hik hkj
  · have : j ≤ k := h _ hmem
    omega

/-- Lines with lower numbers do not matter. -/
private theorem deepBetween_append_right (h : ∀ a ∈ as, a.2 ≤ i) :
    DeepBetween (as ++ bs) i j d ↔ DeepBetween bs i j d := by
  refine ⟨fun hdeep n k hmem => hdeep n k (List.mem_append_right _ hmem), ?_⟩
  intro hdeep n k hmem hik hkj
  rcases List.mem_append.mp hmem with hmem | hmem
  · have : k ≤ i := h _ hmem
    omega
  · exact hdeep n k hmem hik hkj

/-- With a bar more on each line there is a bar more on those between. -/
private theorem deepBetween_map_bar :
    DeepBetween (as.map barNumbered) i j (d + 1) ↔ DeepBetween as i j d := by
  constructor
  · intro hdeep n k hmem hik hkj
    have := hdeep (bar n) k (mem_map_bar hmem) hik hkj
    rw [depth_bar] at this
    omega
  · rintro hdeep n k hmem hik hkj
    obtain ⟨n', hmem', rfl⟩ := exists_of_mem_map_bar hmem
    have := hdeep n' k hmem' hik hkj
    rw [depth_bar]
    omega

end

namespace Layout

variable {ls : List (String × Nat)} {ms : List Mark}

/-- A line in a block and one after it do not stand inside the same braces: the brace of the block
    would still be open after the block. -/
private theorem surroundings_ne_of_block {block rest : List (String × Nat)} {ns : List Mark}
    (inside : Layout block ms) (after : Layout rest ns) {place i j : Nat} {bs cs ds : List Nat}
    (hi : (i, cs) ∈ surroundings (place + 1) (place :: bs) ms)
    (hj : (j, ds) ∈ surroundings (place + 1 + ms.length + 1) bs ns) : cs ≠ ds := by
  obtain ⟨l, inner, -, rfl, -⟩ := inside.exists_depth hi
  obtain ⟨m, outer, -, rfl, -, hle⟩ := after.exists_depth hj
  intro heq
  have hinner : inner ++ [place] = outer := by
    have heq' : (inner ++ [place]) ++ bs = outer ++ bs := by simpa using heq
    exact List.append_cancel_right heq'
  have := hle place (hinner ▸ List.mem_append_right inner List.mem_cons_self)
  omega

/-- Lines without bars stand inside the braces that were open before, and nothing is further out
    than they are. -/
private theorem surroundings_eq_iff_of_plain (h : Layout ls ms)
    (hsorted : ls.Pairwise fun a b => a.2 < b.2) {place i j : Nat} {bs cs ds : List Nat}
    {l m : String} (hi : (i, cs) ∈ surroundings place bs ms)
    (hj : (j, ds) ∈ surroundings place bs ms) (hl : (l, i) ∈ ls) (hm : (m, j) ∈ ls)
    (hlplain : depth l = 0) (hmplain : depth m = 0) : cs = ds ↔ DeepBetween ls i j (depth l) := by
  -- no brace is open around such a line but those that were open before
  have hbefore {k : Nat} {n : String} {es : List Nat} (hk : (k, es) ∈ surroundings place bs ms)
      (hn : (n, k) ∈ ls) (hplain : depth n = 0) : es = bs := by
    obtain ⟨n', inner, hn', rfl, hinner, -⟩ := h.exists_depth hk
    obtain rfl := eq_of_number hsorted hn' hn
    rw [hplain, List.length_eq_zero_iff] at hinner
    rw [hinner, List.nil_append]
  rw [hbefore hi hl hlplain, hbefore hj hm hmplain, hlplain]
  exact iff_of_true rfl fun _ _ _ _ _ => Nat.zero_le _

/-- The lines in front of two lines do not matter to them. -/
private theorem surroundings_eq_iff_append {front rest : List (String × Nat)} {ns : List Mark}
    (after : Layout rest ns) (hsorted : (front ++ rest).Pairwise fun a b => a.2 < b.2)
    {place i j : Nat} {bs cs ds : List Nat} {l m : String}
    (hi : (i, cs) ∈ surroundings place bs ns) (hj : (j, ds) ∈ surroundings place bs ns)
    (hl : (l, i) ∈ front ++ rest) (hm : (m, j) ∈ front ++ rest)
    (ih : (l, i) ∈ rest → (m, j) ∈ rest → (cs = ds ↔ DeepBetween rest i j (depth l))) :
    cs = ds ↔ DeepBetween (front ++ rest) i j (depth l) := by
  obtain ⟨l', -, hl', -⟩ := after.exists_depth hi
  obtain ⟨m', -, hm', -⟩ := after.exists_depth hj
  obtain rfl := eq_of_number hsorted (List.mem_append_right _ hl') hl
  obtain rfl := eq_of_number hsorted (List.mem_append_right _ hm') hm
  have hfront : ∀ a ∈ front, a.2 ≤ i := fun a ha =>
    Nat.le_of_lt ((List.pairwise_append.mp hsorted).2.2 a ha _ hl')
  rw [deepBetween_append_right hfront]
  exact ih hl' hm'

/-- Two lines of a block have their bars less inside of it, and the lines after it do not matter to
    them. -/
private theorem surroundings_eq_iff_block {block rest : List (String × Nat)}
    (inside : Layout block ms)
    (hsorted : (block.map barNumbered ++ rest).Pairwise fun a b => a.2 < b.2)
    {place i j : Nat} {bs cs ds : List Nat} {l m : String}
    (hi : (i, cs) ∈ surroundings place bs ms) (hj : (j, ds) ∈ surroundings place bs ms)
    (hl : (l, i) ∈ block.map barNumbered ++ rest) (hm : (m, j) ∈ block.map barNumbered ++ rest)
    (hdepth : depth l = depth m)
    (ih : ∀ {l' m'}, (l', i) ∈ block → (m', j) ∈ block → depth l' = depth m' →
      (cs = ds ↔ DeepBetween block i j (depth l'))) :
    cs = ds ↔ DeepBetween (block.map barNumbered ++ rest) i j (depth l) := by
  obtain ⟨l', -, hl', -⟩ := inside.exists_depth hi
  obtain ⟨m', -, hm', -⟩ := inside.exists_depth hj
  obtain rfl := eq_of_number hsorted (List.mem_append_left _ (mem_map_bar hl')) hl
  obtain rfl := eq_of_number hsorted (List.mem_append_left _ (mem_map_bar hm')) hm
  have hrest : ∀ b ∈ rest, j ≤ b.2 := fun b hb =>
    Nat.le_of_lt ((List.pairwise_append.mp hsorted).2.2 _ (mem_map_bar hm') b hb)
  rw [depth_bar, depth_bar, Nat.add_right_cancel_iff] at hdepth
  rw [depth_bar, deepBetween_append_left hrest, deepBetween_map_bar]
  exact ih hl' hm' hdepth

/-- The line that closes a block lies between a line of the block and one after it that has as many
    bars. -/
private theorem not_deepBetween_of_block {block rest : List (String × Nat)} {l₀ : String} {i₀ : Nat}
    (hplain : depth l₀ = 0)
    (hsorted : (block.map barNumbered ++ (l₀, i₀) :: rest).Pairwise fun a b => a.2 < b.2)
    {l m : String} {i j : Nat} (hl : (l, i) ∈ block.map barNumbered)
    (hm : (m, j) ∈ (l₀, i₀) :: rest) (hdepth : depth l = depth m) :
    ¬ DeepBetween (block.map barNumbered ++ (l₀, i₀) :: rest) i j (depth l) := by
  intro hdeep
  obtain ⟨-, hafter, hacross⟩ := List.pairwise_append.mp hsorted
  obtain ⟨l', -, rfl⟩ := exists_of_mem_map_bar hl
  have hlast : i < i₀ := hacross _ hl _ List.mem_cons_self
  -- the line that closes the block has no bar, so it is not the second line itself
  have hnext : i₀ < j := by
    cases hm with
    | head =>
      rw [hplain, depth_bar] at hdepth
      omega
    | tail _ hm => exact (List.pairwise_cons.mp hafter).1 _ hm
  have hout := hdeep l₀ i₀ (List.mem_append_right _ List.mem_cons_self) hlast hnext
  rw [depth_bar, hplain] at hout
  omega

/-- Two lines of the same depth stand inside the same braces exactly if no line between them is
    further out. -/
theorem surroundings_eq_iff (h : Layout ls ms) (hsorted : ls.Pairwise fun a b => a.2 < b.2)
    {place i j : Nat} {bs cs ds : List Nat} {l m : String}
    (hi : (i, cs) ∈ surroundings place bs ms) (hj : (j, ds) ∈ surroundings place bs ms)
    (hl : (l, i) ∈ ls) (hm : (m, j) ∈ ls) (hij : i < j) (hdepth : depth l = depth m) :
    cs = ds ↔ DeepBetween ls i j (depth l) := by
  induction h generalizing place bs l m with
  | unclosed block => cases hi
  | @line l₀ i₀ rest ns plain after ih =>
    obtain ⟨hfirst, hrest⟩ := List.pairwise_cons.mp hsorted
    cases hi with
    | head =>
      obtain rfl := eq_of_number hsorted List.mem_cons_self hl
      have hplain := depth_of_barred?_eq_none plain
      exact surroundings_eq_iff_of_plain (.line plain after) hsorted List.mem_cons_self hj hl hm
        hplain (hdepth.symm.trans hplain)
    | tail _ hi' =>
      cases hj with
      | head =>
        -- the first line has the lowest number
        obtain ⟨l', -, hl', -⟩ := after.exists_depth hi'
        have : j < i := hfirst _ hl'
        omega
      | tail _ hj' =>
        have hsorted : ([(l₀, i₀)] ++ rest).Pairwise fun a b => a.2 < b.2 := hsorted
        exact surroundings_eq_iff_append after hsorted hi' hj' hl hm fun hl' hm' =>
          ih hrest hi' hj' hl' hm' hdepth
  | @block block rest l₀ i₀ ms ns plain inside after ihinside ihafter =>
    obtain ⟨hblock, hafter, hacross⟩ := List.pairwise_append.mp hsorted
    rw [inside.surroundings_block] at hi hj
    -- each of the two lines is in the block or after it
    rcases List.mem_append.mp hi with hi' | hi' <;> rcases List.mem_append.mp hj with hj' | hj'
    · have hblock' : block.Pairwise fun a b => a.2 < b.2 := by
        rwa [List.pairwise_map] at hblock
      exact surroundings_eq_iff_block inside hsorted hi' hj' hl hm hdepth fun hl' hm' =>
        ihinside hblock' hi' hj' hl' hm'
    · -- the first line is in the block and the second after it, and both sides say no
      obtain ⟨l', -, hl', -⟩ := inside.exists_depth hi'
      obtain ⟨m', -, hm', -⟩ := after.exists_depth hj'
      obtain rfl := eq_of_number hsorted (List.mem_append_left _ (mem_map_bar hl')) hl
      obtain rfl := eq_of_number hsorted (List.mem_append_right _ hm') hm
      exact iff_of_false (surroundings_ne_of_block inside after hi' hj')
        (not_deepBetween_of_block (depth_of_barred?_eq_none plain) hsorted (mem_map_bar hl') hm'
          hdepth)
    · -- the numbers in the block are lower than those after it
      obtain ⟨l', -, hl', -⟩ := after.exists_depth hi'
      obtain ⟨m', -, hm', -⟩ := inside.exists_depth hj'
      have : j < i := hacross _ (mem_map_bar hm') _ hl'
      omega
    · exact surroundings_eq_iff_append after hsorted hi' hj' hl hm fun hl' hm' =>
        ihafter hafter hi' hj' hl' hm' hdepth

end Layout

/-! ## The text that is written -/

/-- No part of a text from its start closes more braces than it opens, and all of them are closed at
    the end. -/
structure Balanced (text : List String) : Prop where
  closes_le : ∀ p, (text.take p).count "\x7d" ≤ (text.take p).count "\x7b"
  closes_eq : text.count "\x7d" = text.count "\x7b"

/-- The braces of a text nest its lines as the bars of an outline do, where `origin` says which line
    of the outline stands at a place of the text. -/
structure NestsAs (lines text : List String) (origin : Nat → Nat) : Prop where
  balanced : Balanced text
  /-- The lines are in the order of the outline. -/
  ordered : ∀ {p q}, LineAt text p → LineAt text q → p < q → origin p < origin q
  /-- Each is what a line of the outline has between white space after its bars, and stands inside
      as many braces as there are bars. -/
  line : ∀ {p}, LineAt text p → ∃ l t, lines[origin p]? = some l ∧ text[p]? = some t ∧
    MadeOf l (depth l) t ∧ (text.take p).count "\x7b" = (text.take p).count "\x7d" + depth l
  /-- A line of the outline is there exactly if the blocks around it are closed one level at a
      time. -/
  written : ∀ {k l}, lines[k]? = some l → ((∃ p, LineAt text p ∧ origin p = k) ↔
    ClosedBy (depth l) ((lines.drop (k + 1)).map depth))
  /-- Lines of the same depth stand inside the same innermost brace exactly if no line of the
      outline between them is further out. -/
  block : ∀ {p q l m}, LineAt text p → LineAt text q → p < q → lines[origin p]? = some l →
    lines[origin q]? = some m → depth l = depth m →
    (innermostAt text p = innermostAt text q ↔
      ∀ k n, origin p < k → k < origin q → lines[k]? = some n → depth l ≤ depth n)

/-- Only an opening brace is read as one. -/
private theorem ofText_eq_opening {t : String} : Entry.ofText t = .opening ↔ t = "\x7b" := by
  unfold Entry.ofText
  split
  · simp [*]
  · split <;> simp [*]

/-- Only a closing brace is read as one. -/
private theorem ofText_eq_closing {t : String} : Entry.ofText t = .closing ↔ t = "\x7d" := by
  unfold Entry.ofText
  split
  · simp [*]
  · split <;> simp [*]

/-- What is no brace is read as a line. -/
private theorem ofText_of_ne {t : String} (hopening : t ≠ "\x7b") (hclosing : t ≠ "\x7d") :
    Entry.ofText t = .line t := by
  rw [Entry.ofText, if_neg hopening, if_neg hclosing]

/-- The number of entries of a text that are `e`, if only the text `t` is read as `e`. -/
private theorem count_map_ofText {e : Entry} {t : String} (h : ∀ u, Entry.ofText u = e ↔ u = t)
    (text : List String) : (text.map Entry.ofText).count e = text.count t := by
  induction text with
  | nil => rfl
  | cons u text ih =>
    by_cases hu : u = t
    · rw [List.map_cons, (h u).mpr hu, hu, List.count_cons_self, List.count_cons_self, ih]
    · have hne : Entry.ofText u ≠ e := fun he => hu ((h u).mp he)
      rw [List.map_cons, List.count_cons_of_ne hne, List.count_cons_of_ne hu, ih]

/-- The number of braces that are open before a place is the number of those that have been opened
    less the number of those that have been closed. -/
private theorem length_openAt {text : List String} {p : Nat} {bs : List Nat}
    (h : openAt text p = some bs) :
    (text.take p).count "\x7b" = (text.take p).count "\x7d" + bs.length := by
  have hlength := length_openFrom h
  rw [count_map_ofText fun _ => ofText_eq_opening, count_map_ofText fun _ => ofText_eq_closing,
    List.length_nil] at hlength
  omega

/-- The number of the line at a place. -/
def numberAt (ms : List Mark) (p : Nat) : Nat :=
  match ms[p]? with
  | some (.line i _) => i
  | _ => 0

/-- Lines that are numbered by their places are numbered in their order. -/
private theorem pairwise_zipIdx (lines : List String) :
    lines.zipIdx.Pairwise fun a b => a.2 < b.2 := by
  have hrange := List.pairwise_lt_range' (s := 0) (n := lines.length)
  rwa [← List.zipIdx_map_snd, List.pairwise_map] at hrange

namespace Layout

section

variable {lines text : List String} {ms : List Mark} {p q : Nat}
  (h : Layout lines.zipIdx ms) (htext : text.map Entry.ofText = ms.map Mark.entry)

include htext

/-- The braces of the text are those of the marks. -/
private theorem openAt_eq : openAt text p = openFrom 0 [] ((ms.take p).map Mark.entry) := by
  rw [openAt, List.map_take, htext, ← List.map_take]

/-- Where the text has a line there is a mark for it. -/
private theorem exists_mark (hp : LineAt text p) :
    ∃ t, text[p]? = some t ∧ ms[p]? = some (.line (numberAt ms p) t) := by
  obtain ⟨t, ht, hopening, hclosing⟩ := hp
  have hentry : ms[p]?.map Mark.entry = some (.line t) := by
    rw [← List.getElem?_map, ← htext, List.getElem?_map, ht, Option.map_some,
      ofText_of_ne hopening hclosing]
  obtain ⟨m, hm, hline⟩ := Option.map_eq_some_iff.mp hentry
  cases m with
  | line i u =>
    cases hline
    exact ⟨t, ht, by simp [numberAt, hm]⟩
  | opening | closing => cases hline

/-- Where there is a mark for a line the text has one. -/
private theorem lineAt_of_mark {i : Nat} {t : String} (hp : ms[p]? = some (.line i t)) :
    LineAt text p ∧ numberAt ms p = i := by
  have hentry : text[p]?.map Entry.ofText = some (.line t) := by
    rw [← List.getElem?_map, htext, List.getElem?_map, hp, Option.map_some, Mark.entry]
  obtain ⟨u, hu, hline⟩ := Option.map_eq_some_iff.mp hentry
  refine ⟨⟨u, hu, ?_, ?_⟩, by simp [numberAt, hp]⟩
  · rintro rfl
    cases hline.symm.trans (ofText_eq_opening.mpr rfl)
  · rintro rfl
    cases hline.symm.trans (ofText_eq_closing.mpr rfl)

include h

/-- At each place of what is laid out it is known which braces are open. -/
private theorem exists_openAt (p : Nat) : ∃ bs, openAt text p = some bs := by
  have hall := h.openFrom_eq 0 []
  rw [← List.take_append_drop p ms, List.map_append, openFrom_append] at hall
  obtain ⟨bs, hbs, -⟩ := Option.bind_eq_some_iff.mp hall
  exact ⟨bs, (openAt_eq htext).trans hbs⟩

/-- The braces of what is laid out are balanced. -/
private theorem balanced : Balanced text where
  closes_le p := by
    obtain ⟨bs, hbs⟩ := h.exists_openAt htext p
    have := length_openAt hbs
    omega
  closes_eq := by
    -- at the end no brace is open
    have hend : openAt text text.length = some [] := by
      have hlength : text.length = ms.length := by simpa using congrArg List.length htext
      rw [openAt_eq htext, hlength, List.take_length]
      exact h.openFrom_eq 0 []
    have := length_openAt hend
    rw [List.take_length] at this
    exact this.symm

/-- A line of the text is a line of the outline, and the braces around it are known. -/
private theorem exists_origin (hp : LineAt text p) :
    ∃ l bs, lines[numberAt ms p]? = some l ∧ text[p]? = some (content l) ∧
      openAt text p = some bs ∧ (numberAt ms p, bs) ∈ surroundings 0 [] ms ∧
      bs.length = depth l := by
  obtain ⟨t, ht, hmark⟩ := exists_mark htext hp
  obtain ⟨bs, hbs⟩ := h.exists_openAt htext p
  have hmem := mem_surroundings hmark ((openAt_eq htext).symm.trans hbs)
  obtain ⟨l, inner, hl, hinner, hdepth, -⟩ := h.exists_depth hmem
  -- the text of the line is that of the line with its number
  obtain ⟨l', hl', rfl⟩ := h.exists_line (List.mem_of_getElem? hmark)
  obtain rfl := eq_of_number (pairwise_zipIdx lines) hl hl'
  rw [List.append_nil] at hinner
  subst hinner
  exact ⟨l, bs, List.mk_mem_zipIdx_iff_getElem?.mp hl, ht, hbs, hmem, hdepth⟩

/-- Lines that are written later have higher numbers. -/
private theorem numberAt_lt (hp : LineAt text p) (hq : LineAt text q) (hpq : p < q) :
    numberAt ms p < numberAt ms q := by
  obtain ⟨t, -, hpmark⟩ := exists_mark htext hp
  obtain ⟨u, -, hqmark⟩ := exists_mark htext hq
  obtain ⟨hplt, hpget⟩ := List.getElem?_eq_some_iff.mp hpmark
  obtain ⟨hqlt, hqget⟩ := List.getElem?_eq_some_iff.mp hqmark
  have hmarks := List.pairwise_iff_getElem.mp (h.pairwise_marks (pairwise_zipIdx lines))
  exact hmarks p q hplt hqlt hpq _ (by rw [hpget]; rfl) _ (by rw [hqget]; rfl)

/-- Which lines of the outline the text has. -/
private theorem exists_lineAt_iff {k : Nat} {l : String} (hk : lines[k]? = some l) :
    (∃ p, LineAt text p ∧ numberAt ms p = k) ↔
      ClosedBy (depth l) ((lines.drop (k + 1)).map depth) := by
  have hmark : (∃ p, LineAt text p ∧ numberAt ms p = k) ↔ ∃ t, .line k t ∈ ms := by
    constructor
    · rintro ⟨p, hp, rfl⟩
      obtain ⟨t, -, hmark⟩ := exists_mark htext hp
      exact ⟨t, List.mem_of_getElem? hmark⟩
    · rintro ⟨t, ht⟩
      obtain ⟨p, hp⟩ := List.mem_iff_getElem?.mp ht
      exact ⟨p, lineAt_of_mark htext hp⟩
  -- the line and those after it, with their numbers
  have hsplit : lines.zipIdx =
      (lines.take k).zipIdx ++ (l, k) :: (lines.drop (k + 1)).zipIdx (k + 1) := by
    obtain ⟨hlt, rfl⟩ := List.getElem?_eq_some_iff.mp hk
    have hlength : (lines.take k).length = k := List.length_take_of_le (Nat.le_of_lt hlt)
    conv_lhs => rw [← List.take_append_drop k lines, List.drop_eq_getElem_cons hlt]
    rw [List.zipIdx_append, List.zipIdx_cons, hlength, Nat.zero_add]
  have hdepths : ((lines.drop (k + 1)).zipIdx (k + 1)).map (fun a => depth a.1) =
      (lines.drop (k + 1)).map depth := by
    rw [← Function.comp_def depth Prod.fst, ← List.map_map, List.zipIdx_map_fst]
  rw [hmark, h.written_iff (pairwise_zipIdx lines) hsplit, hdepths]

/-- What is laid out nests as the outline does. -/
private theorem nestsAs : NestsAs lines text (numberAt ms) where
  balanced := h.balanced htext
  ordered hp hq hpq := h.numberAt_lt htext hp hq hpq
  line hp := by
    obtain ⟨l, bs, hl, htext, hbs, -, hdepth⟩ := h.exists_origin htext hp
    exact ⟨l, content l, hl, htext, madeOf_iff.mpr ⟨rfl, rfl⟩, hdepth ▸ length_openAt hbs⟩
  written hk := h.exists_lineAt_iff htext hk
  block {p q l m} hp hq hpq hl hm hdepth := by
    obtain ⟨l', bs, hl', -, hbs, hpmem, hplength⟩ := h.exists_origin htext hp
    obtain ⟨m', cs, hm', -, hcs, hqmem, hqlength⟩ := h.exists_origin htext hq
    rw [hl, Option.some_inj] at hl'
    rw [hm, Option.some_inj] at hm'
    subst hl' hm'
    have hmem {n k} : (n, k) ∈ lines.zipIdx ↔ lines[k]? = some n := List.mk_mem_zipIdx_iff_getElem?
    have hsame : bs = cs ↔ DeepBetween lines.zipIdx (numberAt ms p) (numberAt ms q) (depth l) :=
      h.surroundings_eq_iff (pairwise_zipIdx lines) hpmem hqmem (hmem.mpr hl) (hmem.mpr hm)
        (h.numberAt_lt htext hp hq hpq) hdepth
    -- the innermost brace decides about all the others
    have hinnermost : bs.head? = cs.head? ↔ bs = cs := by
      rw [openAt_eq htext, List.map_take] at hbs hcs
      exact head?_eq_iff hbs hcs (by rw [hplength, hqlength, hdepth])
    rw [innermostAt, innermostAt, hbs, hcs, Option.bind_some, Option.bind_some, hinnermost, hsame]
    constructor
    · intro hdeep k n hpk hkq hn
      exact hdeep n k (hmem.mpr hn) hpk hkq
    · intro hdeep n k hn hpk hkq
      exact hdeep k n hpk hkq (hmem.mp hn)

end

end Layout

/-! ## Lines without braces -/

/-- What is written of a line has no characters that the line does not have. -/
private theorem mem_of_mem_content {line : String} {c : Char} (h : c ∈ (content line).toList) :
    c ∈ line.toList := by
  obtain ⟨rest, hline, -, htrims⟩ := madeOf_iff.mpr ⟨rfl, (rfl : content line = _)⟩
  obtain ⟨before, after, hrest, -⟩ := htrims.surrounded
  rw [hline, hrest]
  exact List.mem_append_right _ (List.mem_append_left _ (List.mem_append_right _ h))

/-- A line without braces is not taken for one. -/
private theorem ofText_content {line : String} (h : '\x7b' ∉ line.toList ∧ '\x7d' ∉ line.toList) :
    Entry.ofText (content line) = .line (content line) := by
  apply ofText_of_ne
  · intro heq
    exact h.1 (mem_of_mem_content (by rw [heq]; decide))
  · intro heq
    exact h.2 (mem_of_mem_content (by rw [heq]; decide))

/-- The bars of an outline whose lines have no braces in them are replaced by braces that nest its
    lines in the same way, as far as the lines are written at all. -/
theorem toBraces_nests (lines : List String)
    (hfree : ∀ l ∈ lines, '\x7b' ∉ l.toList ∧ '\x7d' ∉ l.toList) :
    ∃ origin, NestsAs lines (toBraces lines) origin := by
  obtain ⟨ms, hms, hentries⟩ := exists_layout [] lines.zipIdx
  rw [List.zipIdx_map_fst, List.map_nil] at hentries
  refine ⟨numberAt ms, Layout.nestsAs hms ?_⟩
  rw [← map_text_entries, entries, ← hentries, List.map_map, List.map_map]
  -- what is written for a mark is read as that mark
  refine List.map_congr_left fun m hm => ?_
  cases m with
  | opening | closing => rfl
  | line i t =>
    obtain ⟨l, hl, rfl⟩ := hms.exists_line hm
    simp only [Function.comp_apply, Mark.entry, Entry.text]
    exact ofText_content (hfree l (List.fst_mem_of_mem_zipIdx hl))

/-- An outline with a block in a block, two blocks that are parted by a line, and a block that
    nothing closes.  There is white space in front of lines and after them, also between a bar and
    the text. -/
theorem toBraces_nests_parted_blocks :
    let lines := ["|  1. A hyp; ", "| | \t2. B hyp;", "| 3. C mp 1, 2;\r\n", "  4. D prem;\u3000",
      "| 5. E hyp;", "\u00a06. F prem;", "| 7. G hyp;"]
    (∀ l ∈ lines, '\x7b' ∉ l.toList ∧ '\x7d' ∉ l.toList) ∧
      toBraces lines = ["\x7b", "1. A hyp;", "\x7b", "2. B hyp;", "\x7d", "3. C mp 1, 2;", "\x7d",
        "4. D prem;", "\x7b", "5. E hyp;", "\x7d", "6. F prem;"] ∧
      [1, 3, 5, 9].map (innermostAt (toBraces lines)) = [some 0, some 2, some 0, some 8] ∧
      ∃ origin, NestsAs lines (toBraces lines) origin := by
  intro lines
  have hfree : ∀ l ∈ lines, '\x7b' ∉ l.toList ∧ '\x7d' ∉ l.toList := by decide
  exact ⟨hfree, by decide, by decide, toBraces_nests lines hfree⟩

end Sequitur.Outline
