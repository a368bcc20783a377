import Sequitur.Proofs.Reading
import Sequitur.Proofs.Recognition

/-!
# Writing and reading formulas

The written form of a formula is one of its derivations.  Binary connectives and quantifiers are
written in parentheses and negations with a sign in front, so the written form is always derived at
the tightest level of the grammar, as an operand.  It may then stand wherever a formula is expected,
and nothing that follows it is taken for a part of it.

Reading gives back what was written, and gives nothing but what can be written.

## Key results

- `derives_text`: the written form of a printable formula is derived with it
- `chain_commas`: a list written with commas is a chain of what its items are written as
- `Formula.printable_iff_read_back`: writing and reading are inverse to each other
-/

namespace Sequitur.Grammar

/-! ## Blanks in front -/

/-- The empty text is made of blanks. -/
theorem blanks_nil : Blanks [] := fun _ h => by cases h

/-- A space by itself is made of blanks. -/
theorem blanks_space : Blanks [' '] := fun c h => by
  rw [List.mem_singleton.mp h]
  rfl

/-- Blanks after blanks are blanks. -/
theorem Blanks.append {b d : List Char} (hb : Blanks b) (hd : Blanks d) : Blanks (b ++ d) :=
  fun c hc => (List.mem_append.mp hc).elim (hb c) (hd c)

/-- A token spells itself. -/
theorem spells_toList (w : String) : Spells w w.toList := ⟨[], blanks_nil, rfl⟩

/-- Blanks may stand before a token. -/
theorem Spells.blanks {w : String} {s b : List Char} (h : Spells w s) (hb : Blanks b) :
    Spells w (b ++ s) := by
  obtain ⟨d, hd, rfl⟩ := h
  exact ⟨b ++ d, hb.append hd, (List.append_assoc _ _ _).symm⟩

/-- Blanks may stand before a name. -/
theorem SpellsName.blanks {x : String} {s b : List Char} (h : SpellsName x s) (hb : Blanks b) :
    SpellsName x (b ++ s) :=
  ⟨h.1, h.2.blanks hb⟩

/-- Every derivation begins with a token, so blanks may stand before it. -/
theorem Derives.blanks {L : Level} {f : Formula} {s b : List Char} (h : Derives L f s)
    (hb : Blanks b) : Derives L f (b ++ s) := by
  -- the blanks go to the first token of the formula
  induction h with
  | predicate symbol opening args closing =>
    simpa only [List.append_assoc] using Derives.predicate (symbol.blanks hb) opening args closing
  | letter capital spelled => exact .letter capital (spelled.blanks hb)
  | parens opening inner closing _ =>
    simpa only [List.append_assoc] using Derives.parens (opening.blanks hb) inner closing
  | neg sign inner _ => simpa only [List.append_assoc] using Derives.neg (sign.blanks hb) inner
  | ofProp _ ih => exact .ofProp ih
  | conj _ sign right ih _ => simpa only [List.append_assoc] using Derives.conj ih sign right
  | ofConj _ ih => exact .ofConj ih
  | disj _ sign right ih _ => simpa only [List.append_assoc] using Derives.disj ih sign right
  | ofDisj _ ih => exact .ofDisj ih
  | imp _ sign right ih _ => simpa only [List.append_assoc] using Derives.imp ih sign right
  | ofImp _ ih => exact .ofImp ih
  | ex keyword bound comma body _ =>
    simpa only [List.append_assoc] using Derives.ex (keyword.blanks hb) bound comma body
  | all keyword bound comma body _ =>
    simpa only [List.append_assoc] using Derives.all (keyword.blanks hb) bound comma body

/-- An operand is a formula. -/
theorem Derives.toForm {f : Formula} {s : List Char} (h : Derives .prop f s) : Derives .form f s :=
  .ofImp (.ofDisj (.ofConj (.ofProp h)))

/-! ## Written forms -/

/-- Items written with commas are a chain, if each item may have a blank before it. -/
theorem chain_commas {α : Type} {item : α → List Char → Prop} {text : α → String}
    (hblank : ∀ {a s}, item a s → item a ([' '] ++ s)) {a : α} {as : List α}
    (h : ∀ b ∈ a :: as, item b (text b).toList) :
    Chain item "," a as (Text.commas ((a :: as).map text)).toList := by
  induction as generalizing a with
  | nil =>
    have hsingle : Text.commas ([a].map text) = text a := String.intercalate_singleton
    rw [hsingle]
    exact .single (h a List.mem_cons_self)
  | cons b bs ih =>
    have hcommas : Text.commas ((a :: b :: bs).map text) =
        text a ++ ", " ++ Text.commas ((b :: bs).map text) := String.intercalate_cons_cons
    -- the separator is a comma, and a blank that belongs to the next item
    have htext : (Text.commas ((a :: b :: bs).map text)).toList =
        (text a).toList ++ [','] ++ ([' '] ++ (Text.commas ((b :: bs).map text)).toList) := by
      rw [hcommas, String.toList_append, String.toList_append]
      simp
    have hrest : Chain item "," b bs (Text.commas ((b :: bs).map text)).toList :=
      ih fun c hc => h c (List.mem_cons_of_mem _ hc)
    obtain ⟨s₁, s₂, hb, htail, hsplit⟩ := hrest
    rw [htext]
    refine .cons (h a List.mem_cons_self) (spells_toList ",") ?_
    exact ⟨[' '] ++ s₁, s₂, hblank hb, htail, by rw [hsplit, List.append_assoc]⟩

/-- What is written with commas has tabs only where its items have. -/
private theorem tab_notMem_commas {ts : List String} (h : ∀ t ∈ ts, '\t' ∉ t.toList) :
    '\t' ∉ (Text.commas ts).toList := by
  induction ts with
  | nil => simp [Text.commas]
  | cons t ts ih =>
    have ih := ih fun u hu => h u (List.mem_cons_of_mem _ hu)
    have ht := h t List.mem_cons_self
    cases ts with
    | nil => simpa [Text.commas] using ht
    | cons u us =>
      have hcommas : Text.commas (t :: u :: us) = t ++ ", " ++ Text.commas (u :: us) :=
        String.intercalate_cons_cons
      simp [hcommas, ht, ih]

/-- A formula in parentheses is an operand. -/
private theorem Derives.parenthesized {f : Formula} {s : List Char} (h : Derives .form f s) :
    Derives .prop f ('(' :: s ++ [')']) :=
  .parens (spells_toList "(") h (spells_toList ")")

/-- Arguments that are named are a list of names. -/
private theorem exists_names {args : List Variable} (h : ∀ v ∈ args, ∃ x, v = .named x ∧ IsName x) :
    ∃ xs : List String, args = xs.map .named ∧ ∀ x ∈ xs, IsName x := by
  induction args with
  | nil => exact ⟨[], rfl, fun _ hx => by cases hx⟩
  | cons v vs ih =>
    obtain ⟨x, rfl, hx⟩ := h v List.mem_cons_self
    obtain ⟨xs, rfl, hxs⟩ := ih fun w hw => h w (List.mem_cons_of_mem _ hw)
    exact ⟨x :: xs, rfl, List.forall_mem_cons.mpr ⟨hx, hxs⟩⟩

/-- A predicate is written as its symbol and the names of its arguments. -/
private theorem text_pred (n : String) (xs : List String) :
    (Formula.pred n (xs.map .named)).text = n ++ "(" ++ Text.commas xs ++ ")" := by
  have hargs : (xs.map Variable.named).map Variable.text = xs := by
    rw [List.map_map]
    exact List.map_id xs
  rw [Formula.text, hargs, Text.commas]

/-- The written form of a predicate is derived with it. -/
private theorem derives_text_pred {n : String} {args : List Variable}
    (h : (Formula.pred n args).Printable) :
    Derives .prop (.pred n args) (Formula.pred n args).text.toList := by
  obtain ⟨hn, hne, hargs⟩ := h
  obtain ⟨xs, rfl, hxs⟩ := exists_names hargs
  cases xs with
  | nil => exact absurd rfl hne
  | cons x xs =>
    have hchain : Chain SpellsName "," x xs (Text.commas ((x :: xs).map id)).toList :=
      chain_commas (fun hs => hs.blanks blanks_space) fun y hy => ⟨hxs y hy, spells_toList y⟩
    have htext : (Formula.pred n ((x :: xs).map .named)).text.toList =
        n.toList ++ ['('] ++ (Text.commas ((x :: xs).map id)).toList ++ [')'] := by
      rw [text_pred, List.map_id]
      simp
    rw [htext]
    exact .predicate ⟨hn, spells_toList n⟩ (spells_toList "(") hchain (spells_toList ")")

/-- The written form of a quantified formula. -/
def quantifiedText (keyword x : String) (p : Formula) : List Char :=
  '(' :: (keyword.toList ++ ([' '] ++ x.toList) ++ [','] ++ ([' '] ++ p.text.toList)) ++ [')']

/-- A quantified formula is derived by the rule of its keyword. -/
private theorem derives_quantifiedText {w x : String} {p : Formula}
    {quantify : Variable → Formula → Formula}
    (rule : ∀ {v f s₁ s₂ s₃ s₄}, Spells w s₁ → SpellsName v s₂ → Spells "," s₃ →
      Derives .form f s₄ → Derives .form (quantify (.named v) f) (s₁ ++ s₂ ++ s₃ ++ s₄))
    (hx : IsName x) (hp : Derives .prop p p.text.toList) :
    Derives .prop (quantify (.named x) p) (quantifiedText w x p) := by
  have hbound : SpellsName x ([' '] ++ x.toList) := ⟨hx, (spells_toList x).blanks blanks_space⟩
  have hbody : Derives .form p ([' '] ++ p.text.toList) := (hp.blanks blanks_space).toForm
  exact .parenthesized (rule (spells_toList w) hbound (spells_toList ",") hbody)

/-- The written form of a printable formula is derived with it, as an operand. -/
theorem derives_text {f : Formula} (h : f.Printable) : Derives .prop f f.text.toList := by
  induction f with
  | truth | hole | term => cases h
  | atom n =>
    obtain ⟨c, hc, rfl⟩ := h
    exact .letter hc (spells_toList _)
  | conj p q ihp ihq =>
    have htext : (Formula.conj p q).text.toList =
        '(' :: (p.text.toList ++ " /\\".toList ++ ([' '] ++ q.text.toList)) ++ [')'] := by
      simp [Formula.text]
    rw [htext]
    -- the sign spells with the blank before it, and the blank after it belongs to the right side
    have hinner := Derives.conj (.ofProp (ihp h.1)) ⟨[' '], blanks_space, rfl⟩
      ((ihq h.2).blanks blanks_space)
    exact Derives.parenthesized (.ofImp (.ofDisj (.ofConj hinner)))
  | disj p q ihp ihq =>
    have htext : (Formula.disj p q).text.toList =
        '(' :: (p.text.toList ++ " \\/".toList ++ ([' '] ++ q.text.toList)) ++ [')'] := by
      simp [Formula.text]
    rw [htext]
    have hinner := Derives.disj (.ofConj (.ofProp (ihp h.1))) ⟨[' '], blanks_space, rfl⟩
      (.ofProp ((ihq h.2).blanks blanks_space))
    exact Derives.parenthesized (.ofImp (.ofDisj hinner))
  | imp p q ihp ihq =>
    by_cases hq : q = .falsum
    · -- an implication to falsity is written with a sign in front of its left side
      subst hq
      have htext : (Formula.neg p).text.toList = ['~'] ++ p.text.toList := by
        simp [Formula.text]
      rw [htext]
      exact .neg (spells_toList "~") (ihp h.1)
    · have htext : (Formula.imp p q).text.toList =
          '(' :: (p.text.toList ++ " ->".toList ++ ([' '] ++ q.text.toList)) ++ [')'] := by
        simp [Formula.text, hq]
      rw [htext]
      have hright := (ihq (h.2.resolve_left hq)).blanks blanks_space
      have hinner := Derives.imp (.ofConj (.ofProp (ihp h.1))) ⟨[' '], blanks_space, rfl⟩
        (.ofDisj (.ofConj (.ofProp hright)))
      exact Derives.parenthesized (.ofImp hinner)
  | pred n args => exact derives_text_pred h
  | all v p ih =>
    -- the two quantifiers differ in the keyword only
    obtain ⟨⟨x, rfl, hx⟩, hp⟩ := h
    have htext : (Formula.all (.named x) p).text.toList = quantifiedText "forall" x p := by
      simp [Formula.text, Variable.text, quantifiedText]
    rw [htext]
    exact derives_quantifiedText .all hx (ih hp)
  | ex v p ih =>
    obtain ⟨⟨x, rfl, hx⟩, hp⟩ := h
    have htext : (Formula.ex (.named x) p).text.toList = quantifiedText "exists" x p := by
      simp [Formula.text, Variable.text, quantifiedText]
    rw [htext]
    exact derives_quantifiedText .ex hx (ih hp)

/-! ## Reading back what was written -/

/-- The written form of a printable formula has no tabs, so expanding tabs leaves it as it is. -/
theorem tab_notMem_text {f : Formula} (h : f.Printable) : '\t' ∉ f.text.toList := by
  -- a tab is no letter
  have hname : ∀ {x : String}, IsName x → '\t' ∉ x.toList := fun hx htab => by
    cases hx.2 _ htab
  induction f with
  | truth | hole | term => cases h
  | atom n =>
    obtain ⟨c, hc, rfl⟩ := h
    rw [Formula.text, String.toList_ofList, List.mem_singleton]
    rintro rfl
    cases hc
  | conj p q ihp ihq | disj p q ihp ihq => simp [Formula.text, ihp h.1, ihq h.2]
  | imp p q ihp ihq =>
    by_cases hq : q = .falsum
    · simp [Formula.text, hq, ihp h.1]
    · simp [Formula.text, hq, ihp h.1, ihq (h.2.resolve_left hq)]
  | pred n args =>
    obtain ⟨hn, -, hargs⟩ := h
    obtain ⟨xs, rfl, hxs⟩ := exists_names hargs
    have hcommas : '\t' ∉ (Text.commas xs).toList :=
      tab_notMem_commas fun x hx => hname (hxs x hx)
    simp [text_pred, hname hn, hcommas]
  | all v p ih | ex v p ih =>
    obtain ⟨⟨x, rfl, hx⟩, hp⟩ := h
    simp [Formula.text, Variable.text, hname hx, ih hp]

/-- Formulas written with commas are read back, up to the end of the text. -/
private theorem commaList_reads_back {f : Formula} {fs : List Formula}
    (h : ∀ g ∈ f :: fs, g.Printable) (pos : Nat) :
    ∃ pos', commaList formula ⟨pos, (Text.commas ((f :: fs).map Formula.text)).toList⟩ =
      .ok (f :: fs, ⟨pos', []⟩) := by
  have hchain : Chain (Derives .form) "," f fs (Text.commas ((f :: fs).map Formula.text)).toList :=
    chain_commas (fun hg => hg.blanks blanks_space) fun g hg => (derives_text (h g hg)).toForm
  -- neither a comma nor the end of the text continues a formula
  have hcomma : ∀ {t r : List Char}, Spells "," t → Stops .form (t ++ r) := fun ht =>
    stops_of_spells ht rfl rfl rfl (by decide) (by decide) _
  have hread := commaList_reads (r := []) formula_reads hcomma hchain (stops_of_blanks blanks_nil)
    (by simp [ahead]) pos
  rwa [List.append_nil] at hread

end Sequitur.Grammar

namespace Sequitur.Formula

open Grammar

/-- A printable formula is read back from its written form. -/
private theorem parse_text {f : Formula} (h : f.Printable) : parse f.text = .ok f := by
  -- nothing is left after the formula
  have hsentence : Sentence f f.text.toList :=
    ⟨_, [], (derives_text h).toForm, blanks_nil, (List.append_nil _).symm⟩
  rw [parse, readText_eq_ok, Text.expandTabs,
    Text.expandTabsFrom_of_not_mem 0 _ (tab_notMem_text h)]
  exact sentence_iff.mp hsentence

/-- Printable formulas are read back from their written forms, separated by commas. -/
private theorem parseList_commas {fs : List Formula} (hne : fs ≠ []) (h : ∀ f ∈ fs, f.Printable) :
    parseList (Text.commas (fs.map text)) = .ok fs := by
  have htabs : '\t' ∉ (Text.commas (fs.map text)).toList := by
    refine tab_notMem_commas fun t ht => ?_
    obtain ⟨f, hf, rfl⟩ := List.mem_map.mp ht
    exact tab_notMem_text (h f hf)
  rw [parseList, readText_eq_ok, Text.expandTabs, Text.expandTabsFrom_of_not_mem 0 _ htabs]
  cases fs with
  | nil => exact absurd rfl hne
  | cons f fs =>
    obtain ⟨pos, hread⟩ := commaList_reads_back h 0
    exact ⟨_, hread, blanks_nil⟩

/-- The formula is among those that are read from a text: as a formula, the whole text or its
    beginning; in a list of formulas; or on a line of a proof. -/
inductive ReadFrom (s : String) (f : Formula) : Prop
  | whole (h : parse s = .ok f)
  | leading (h : parseLeading s = .ok f)
  | listed {fs : List Formula} (h : parseList s = .ok fs) (mem : f ∈ fs)
  | line {script : Script} {l : Line} (h : (readProof s).result = .ok script)
      (mem : l ∈ script.lines) (formula : l.formula = f)

/-- The beginning of a text is read whatever follows. -/
private theorem readText_leading_eq_ok {α : Type} {reader : Cursor → Parse α} {s : String} {a : α}
    (h : readText reader false s = .ok a) :
    ∃ c, reader (.start (Text.expandTabs s.toList)) = .ok (a, c) := by
  simp only [readText] at h
  split at h
  · cases h
  · rename_i b c hread
    cases h
    exact ⟨c, hread⟩

/-- A formula that is a whole text is printable. -/
private theorem printable_of_parse {s : String} {f : Formula} (h : parse s = .ok f) :
    f.Printable := by
  obtain ⟨c, hread, -⟩ := readText_eq_ok.mp h
  exact printable_formula hread

/-- So are the formulas of a list, and there is at least one. -/
private theorem printable_of_parseList {s : String} {fs : List Formula} (h : parseList s = .ok fs) :
    fs ≠ [] ∧ ∀ f ∈ fs, f.Printable := by
  obtain ⟨c, hread, -⟩ := readText_eq_ok.mp h
  exact forall_mem_commaList (fun _ _ _ => printable_formula) hread

/-- Nothing is read but what can be written. -/
private theorem ReadFrom.printable {s : String} {f : Formula} (h : ReadFrom s f) : f.Printable := by
  cases h with
  | whole h => exact printable_of_parse h
  | leading h =>
    obtain ⟨c, hread⟩ := readText_leading_eq_ok h
    exact printable_formula hread
  | listed h mem => exact (printable_of_parseList h).2 f mem
  | line h mem formula => exact formula ▸ (readProof_spec h).2 _ mem

/-- Writing and reading are inverse to each other.  The printable formulas are those that are read
    back from what they are written as, alone or in a list, and they are all that is ever read. -/
theorem printable_iff_read_back :
    (∀ f : Formula, f.Printable ↔ parse f.text = .ok f) ∧
      (∀ fs : List Formula, (fs ≠ [] ∧ ∀ f ∈ fs, f.Printable) ↔
        parseList (Text.commas (fs.map text)) = .ok fs) ∧
      ∀ (s : String) (f : Formula), ReadFrom s f → f.Printable := by
  refine ⟨fun f => ⟨parse_text, printable_of_parse⟩, fun fs => ⟨?_, printable_of_parseList⟩,
    fun _ _ h => h.printable⟩
  rintro ⟨hne, h⟩
  exact parseList_commas hne h

/-- A negated quantifier over a predicate whose symbol is a keyword, alone and in a list. -/
theorem printable_iff_read_back_keyword :
    let f := neg (all (.named "x") (imp (pred "forall" [.named "x", .named "Y"]) (neg (atom "A"))))
    f.text = "~(forall x, (forall(x, Y) -> ~A))" ∧
      parse "~(forall x, (forall(x, Y) -> ~A))" = .ok f ∧
      parseList "A, ~(forall x, (forall(x, Y) -> ~A))" = .ok [atom "A", f] ∧
      f.Printable := by
  intro f
  have hx : IsName "x" := by simp [IsName, isLetter]
  have hY : IsName "Y" := by simp [IsName, isLetter]
  have hforall : IsName "forall" := by simp [IsName, isLetter]
  have hA : (atom "A").Printable := ⟨'A', rfl, rfl⟩
  have hpred : (pred "forall" [.named "x", .named "Y"]).Printable :=
    ⟨hforall, List.cons_ne_nil _ _, by simp [hx, hY]⟩
  have hf : f.Printable := ⟨⟨⟨"x", rfl, hx⟩, hpred, .inr ⟨hA, .inl rfl⟩⟩, .inl rfl⟩
  have htext : f.text = "~(forall x, (forall(x, Y) -> ~A))" := by decide +kernel
  have hcommas : Text.commas ([atom "A", f].map text) = "A, ~(forall x, (forall(x, Y) -> ~A))" := by
    decide +kernel
  obtain ⟨hback, hlist, hread⟩ := printable_iff_read_back
  have hboth : ∀ g ∈ [atom "A", f], g.Printable := by
    rintro g (_ | ⟨_, _ | ⟨_, ⟨⟩⟩⟩)
    · exact hA
    · exact hf
  exact ⟨htext, htext ▸ (hback f).mp hf, hcommas ▸ (hlist _).mp ⟨List.cons_ne_nil _ _, hboth⟩,
    hread _ f (.whole ((hback f).mp hf))⟩

end Sequitur.Formula
