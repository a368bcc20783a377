import Sequitur.Proofs.Quantification
import Sequitur.Proofs.Tables

/-!
# What lines have in scope

The dependence sets of all lines are kept in one store, and an existential generalization makes two
lines share theirs.  So a change for one line may be felt by another.  What is shown here is that
examining a line gives it sets of its own before it is verified, so that only an existential
generalization reaches the sets of others, and that one only removes from them.

`InScope` and `Ties` say what a line has in scope and what depends on what, without the places in
the store.

## Key results

- `Store.allocates_allocAll`: the sets of a variable context are put in new places
- `handed_of_examine`: what the lines have in scope after a line has passed its examination
- `exists_examine_ug_iff`: when a universal generalization passes its examination
-/

namespace Sequitur

/-! ## Sets of names -/

/-- A set with a name added. -/
private theorem mem_addName {s : List String} {n d : String} : d ∈ addName s n ↔ d ∈ s ∨ d = n := by
  unfold addName
  split
  · -- the name is there already
    rename_i hn
    constructor
    · exact .inl
    · rintro (hd | rfl)
      · exact hd
      · exact hn
  · simp

/-- A set with names added. -/
private theorem mem_addNames {s t : List String} {d : String} :
    d ∈ addNames s t ↔ d ∈ s ∨ d ∈ t := by
  unfold addNames
  induction t generalizing s with
  | nil => simp
  | cons n t ih => rw [List.foldl_cons, ih, mem_addName, List.mem_cons, or_assoc]

/-- Adding a name again changes nothing. -/
theorem addName_addName (s : List String) (n : String) :
    addName (addName s n) n = addName s n :=
  if_pos (mem_addName.mpr (.inr rfl))

/-- Dropping a name again changes nothing. -/
theorem dropName_dropName (s : List String) (n : String) :
    dropName (dropName s n) n = dropName s n := by
  simp [dropName]

/-- A set with a name dropped. -/
theorem mem_dropName {s : List String} {n d : String} : d ∈ dropName s n ↔ d ∈ s ∧ d ≠ n := by
  simp [dropName]

/-- Dropping a name that is not there changes nothing. -/
theorem dropName_of_notMem {s : List String} {n : String} (h : n ∉ s) : dropName s n = s := by
  refine List.filter_eq_self.mpr fun m hm => decide_eq_true ?_
  rintro rfl
  exact h hm

namespace VariableContext

/-- The name `c` depends on `d`. -/
def Depends (t : VariableContext) (c d : String) : Prop := ∃ D, (c, D) ∈ t.entries ∧ d ∈ D

/-- Join a variable context to others. -/
def join (acc : VariableContext) (es : List (String × List String)) : VariableContext :=
  es.foldl (fun acc e => acc.put e.1 (addNames ((acc.get? e.1).getD []) e.2)) acc

/-- The names of both are in a join. -/
private theorem mem_keys_join {acc : VariableContext} {es : List (String × List String)}
    {c : String} : c ∈ (acc.join es).keys ↔ c ∈ acc.keys ∨ c ∈ es.map Prod.fst := by
  induction es generalizing acc with
  | nil => simp [join]
  | cons e es ih =>
    rw [join, List.foldl_cons, ← join, ih, Table.mem_keys_put, List.map_cons, List.mem_cons,
      or_comm (a := c = e.1), or_assoc]

/-- A name depends on what it depended on in one of the two. -/
private theorem depends_of_join {acc : VariableContext} {es : List (String × List String)}
    {c d : String} (h : (acc.join es).Depends c d) :
    acc.Depends c d ∨ ∃ D, (c, D) ∈ es ∧ d ∈ D := by
  induction es generalizing acc with
  | nil => exact .inl h
  | cons e es ih =>
    rcases ih h with ⟨D, hmem, hd⟩ | ⟨D, hmem, hd⟩
    · rcases Table.mem_entries_put hmem with heq | hmem
      · -- the set under the key of `e` is what was there and what `e` brings
        cases heq
        rcases mem_addNames.mp hd with hd | hd
        · left
          cases hget : acc.get? e.1 with
          | none => simp [hget] at hd
          | some D => exact ⟨D, Table.mem_of_get? hget, by simpa [hget] using hd⟩
        · exact .inr ⟨e.2, List.mem_cons_self, hd⟩
      · exact .inl ⟨D, hmem, hd⟩
    · exact .inr ⟨D, List.mem_cons_of_mem _ hmem, hd⟩

private theorem combine_eq (ts : List VariableContext) :
    combine ts = ts.foldl (fun acc t => acc.join t.entries) {} := rfl

/-- The names of all are in a row of joins. -/
private theorem mem_keys_foldl_join {acc : VariableContext} {ts : List VariableContext}
    {c : String} :
    c ∈ (ts.foldl (fun acc t => acc.join t.entries) acc).keys ↔
      c ∈ acc.keys ∨ ∃ t ∈ ts, c ∈ t.keys := by
  induction ts generalizing acc with
  | nil => simp
  | cons t ts ih =>
    rw [List.foldl_cons, ih, mem_keys_join, or_assoc, ← Table.keys]
    simp

/-- In a row of joins, too, a name depends on what it depended on in one of them. -/
private theorem depends_of_foldl_join {acc : VariableContext} {ts : List VariableContext}
    {c d : String} (h : (ts.foldl (fun acc t => acc.join t.entries) acc).Depends c d) :
    acc.Depends c d ∨ ∃ t ∈ ts, t.Depends c d := by
  induction ts generalizing acc with
  | nil => exact .inl h
  | cons t ts ih =>
    rcases ih h with h | ⟨t', ht', h⟩
    · exact (depends_of_join h).imp_right fun h => ⟨t, List.mem_cons_self, h⟩
    · exact .inr ⟨t', List.mem_cons_of_mem _ ht', h⟩

/-- A name is in a combination when it is in one of the parts. -/
theorem mem_keys_combine {ts : List VariableContext} {c : String} :
    c ∈ (combine ts).keys ↔ ∃ t ∈ ts, c ∈ t.keys := by
  rw [combine_eq, mem_keys_foldl_join]
  exact or_iff_right List.not_mem_nil

/-- What a name depends on in a combination it depends on in one of the parts. -/
theorem depends_of_combine {ts : List VariableContext} {c d : String}
    (h : (combine ts).Depends c d) : ∃ t ∈ ts, t.Depends c d := by
  rw [combine_eq] at h
  refine (depends_of_foldl_join h).resolve_left ?_
  rintro ⟨D, hmem, -⟩
  cases hmem

end VariableContext

/-! ## The store -/

namespace Store

/-- The sets `es` have been put in new places, which `r` adds to `scope`; the other sets of `s` are
    where they were. -/
structure Allocates (s : Store) (scope : Scope) (es : List (String × List String))
    (r : Store × Scope) : Prop where
  length_le : s.sets.length ≤ r.1.sets.length
  get_eq : ∀ i, i < s.sets.length → r.1.get i = s.get i
  mem_keys : ∀ c, c ∈ r.2.keys ↔ c ∈ scope.keys ∨ c ∈ es.map Prod.fst
  entry : ∀ {c i}, (c, i) ∈ r.2.entries → (c, i) ∈ scope.entries ∨
    s.sets.length ≤ i ∧ i < r.1.sets.length ∧ (c, r.1.get i) ∈ es

/-- A new set leaves the others where they are. -/
theorem get_alloc_of_lt {s : Store} {i : SetId} (set : List String) (h : i < s.sets.length) :
    (s.alloc set).1.get i = s.get i := by
  simp [get, alloc, List.getElem?_append_left h]

/-- A new set stands at the end. -/
@[simp] theorem get_alloc_self (s : Store) (set : List String) :
    (s.alloc set).1.get s.sets.length = set := by
  simp [get, alloc]

/-- A new set makes one more. -/
@[simp] theorem length_alloc (s : Store) (set : List String) :
    (s.alloc set).1.sets.length = s.sets.length + 1 := by
  simp [alloc]

/-- The fold of `allocAll`, from any store and any scope. -/
private theorem allocates_foldl (s : Store) (scope : Scope) (es : List (String × List String)) :
    Allocates s scope es (es.foldl (fun (s, scope) e =>
      let (s, i) := s.alloc e.2
      (s, scope.put e.1 i)) (s, scope)) := by
  induction es generalizing s scope with
  | nil => exact ⟨Nat.le_refl _, fun _ _ => rfl, by simp, .inl⟩
  | cons e es ih =>
    have h := ih (s.alloc e.2).1 (scope.put e.1 s.sets.length)
    rw [List.foldl_cons]
    change Allocates s scope (e :: es) (es.foldl _ ((s.alloc e.2).1, scope.put e.1 s.sets.length))
    refine ⟨?_, fun i hi => ?_, fun c => ?_, fun {c i} hmem => ?_⟩
    · have hle := h.length_le
      rw [length_alloc] at hle
      omega
    · rw [h.get_eq i (by rw [length_alloc]; omega), get_alloc_of_lt _ hi]
    · rw [h.mem_keys, Table.mem_keys_put, List.map_cons, List.mem_cons, or_comm (a := c = e.1),
        or_assoc]
    · rcases h.entry hmem with hmem | ⟨hle, hlt, hmem⟩
      · rcases Table.mem_entries_put hmem with heq | hmem
        · -- the first set is in the first new place and stays there
          cases heq
          have hle := h.length_le
          rw [length_alloc] at hle
          rw [h.get_eq _ (by rw [length_alloc]; omega), get_alloc_self]
          exact .inr ⟨Nat.le_refl _, hle, List.mem_cons_self⟩
        · exact .inl hmem
      · rw [length_alloc] at hle
        exact .inr ⟨by omega, hlt, List.mem_cons_of_mem _ hmem⟩

/-- The sets of a variable context are put in new places. -/
theorem allocates_allocAll (s : Store) (vars : VariableContext) :
    Allocates s {} vars.entries (s.allocAll vars) :=
  allocates_foldl s {} vars.entries

/-- Each name is put into scope once. -/
theorem nodup_keys_allocAll (s : Store) (vars : VariableContext) :
    (s.allocAll vars).2.keys.Nodup := by
  -- for all scopes to begin with, as the fold goes through them
  have hfoldl : ∀ (es : List (String × List String)) (s : Store) (scope : Scope),
      scope.keys.Nodup → (es.foldl (fun (s, scope) e =>
        let (s, i) := s.alloc e.2
        (s, scope.put e.1 i)) (s, scope)).2.keys.Nodup := by
    intro es
    induction es with
    | nil => exact fun _ _ h => h
    | cons e es ih => exact fun s scope h => ih _ _ (Table.nodup_put h e.1 _)
  exact hfoldl vars.entries s {} List.nodup_nil

/-- Changing sets makes no new ones. -/
theorem length_modifyAll (s : Store) (scope : Scope) (f : List String → List String) :
    (s.modifyAll scope f).sets.length = s.sets.length := by
  unfold modifyAll
  induction scope.values generalizing s with
  | nil => rfl
  | cons i is ih => rw [List.foldl_cons, ih, modify, List.length_modify]

/-- One set is changed. -/
private theorem get_modify (s : Store) (i : SetId) (f : List String → List String) (j : SetId) :
    (s.modify i f).get j = if j = i ∧ i < s.sets.length then f (s.get j) else s.get j := by
  simp only [get, modify, List.getD_eq_getElem?_getD, List.getElem?_modify]
  -- a place that is not in the store is left alone
  by_cases hj : i = j
  · subst hj
    by_cases hlt : i < s.sets.length <;> simp [hlt]
  · simp [hj, Ne.symm hj]

/-- A change that does nothing the second time changes the sets of a scope, however often the scope
    has them, and leaves the others alone. -/
theorem get_modifyAll (s : Store) (scope : Scope) {f : List String → List String}
    (hf : ∀ t, f (f t) = f t) {i : SetId} (hi : i < s.sets.length) :
    (s.modifyAll scope f).get i = if i ∈ scope.values then f (s.get i) else s.get i := by
  unfold modifyAll
  induction scope.values generalizing s with
  | nil => rfl
  | cons j js ih =>
    rw [List.foldl_cons, ih _ (by rwa [modify, List.length_modify])]
    by_cases hj : i = j
    · -- changed now, and perhaps again
      have hfirst : (s.modify j f).get i = f (s.get i) := by
        rw [get_modify, if_pos ⟨hj, hj ▸ hi⟩]
      rw [hfirst, hf, ite_self, if_pos (hj ▸ List.mem_cons_self)]
    · have hfirst : (s.modify j f).get i = s.get i := by
        rw [get_modify, if_neg fun h => hj h.1]
      simp only [hfirst, List.mem_cons, hj, false_or]

/-- What a change of all sets of a scope may add, it adds to these sets only. -/
private theorem mem_get_modifyAll {s : Store} {scope : Scope} {f : List String → List String}
    {P : String → Prop} (hf : ∀ {t d}, d ∈ f t → d ∈ t ∨ P d) {i : SetId} {d : String}
    (h : d ∈ (s.modifyAll scope f).get i) : d ∈ s.get i ∨ i ∈ scope.values ∧ P d := by
  unfold modifyAll at h
  generalize scope.values = is at h ⊢
  induction is generalizing s with
  | nil => exact .inl h
  | cons j js ih =>
    rcases ih h with hd | ⟨hi, hP⟩
    · rw [get_modify] at hd
      split at hd
      · rename_i hij
        exact (hf hd).imp_right fun hP => ⟨hij.1 ▸ List.mem_cons_self, hP⟩
      · exact .inl hd
    · exact .inr ⟨List.mem_cons_of_mem _ hi, hP⟩

end Store

/-! ## Lines -/

namespace Context

/-- The line `id` has the name `c` in scope. -/
def InScope (ctx : Context) (id : LineId) (c : String) : Prop := c ∈ (ctx.record id).scope.keys

/-- For the line `id` the name `c` depends on `d`. -/
def Ties (ctx : Context) (id : LineId) (c d : String) : Prop := (ctx.variablesOf id).Depends c d

/-- Every set that a line has in scope is in the store. -/
def Housed (ctx : Context) : Prop :=
  ∀ {id c i}, (c, i) ∈ (ctx.record id).scope.entries → i < ctx.store.sets.length

variable {ctx ctx' : Context} {id j : LineId} {c d e : String} {f : List String → List String}

/-- The names in scope are those of the variable context. -/
theorem mem_keys_variablesOf : c ∈ (ctx.variablesOf id).keys ↔ ctx.InScope id c := by
  simp [variablesOf, Store.view, Table.map, Table.keys, InScope]

/-- A name depends on what is in its set. -/
theorem ties_iff :
    ctx.Ties id c d ↔ ∃ i, (c, i) ∈ (ctx.record id).scope.entries ∧ d ∈ ctx.store.get i := by
  simp only [Ties, VariableContext.Depends, variablesOf, Store.view, Table.map, List.mem_map,
    Prod.mk.injEq]
  constructor
  · rintro ⟨_, ⟨⟨_, i⟩, hmem, rfl, rfl⟩, hd⟩
    exact ⟨i, hmem, hd⟩
  · rintro ⟨i, hmem, hd⟩
    exact ⟨_, ⟨(c, i), hmem, rfl, rfl⟩, hd⟩

/-- Where the sets are the same, what a line with the same scope ties is the same. -/
private theorem ties_congr (hscope : (ctx'.record j).scope = (ctx.record j).scope)
    (hget : ∀ {c i}, (c, i) ∈ (ctx.record j).scope.entries → ctx'.store.get i = ctx.store.get i) :
    ctx'.Ties j c d ↔ ctx.Ties j c d := by
  rw [ties_iff, ties_iff, hscope]
  constructor
  · rintro ⟨i, hmem, hd⟩
    exact ⟨i, hmem, hget hmem ▸ hd⟩
  · rintro ⟨i, hmem, hd⟩
    exact ⟨i, hmem, (hget hmem).symm ▸ hd⟩

/-- The scope of one line is changed. -/
private theorem scope_modifyRecord (ctx : Context) (hlt : id < ctx.records.length)
    (g : Record → Scope) :
    ((ctx.modifyRecord id fun r => { r with scope := g r }).record j).scope =
      if j = id then g (ctx.record j) else (ctx.record j).scope := by
  rw [record_modifyRecord]
  by_cases hj : j = id <;> simp [hj, hlt]

/-! ### A name is brought in -/

/-- The name gets the new set. -/
theorem scope_bring (hlt : id < ctx.records.length) :
    ((ctx.bring id c).record j).scope =
      if j = id then (ctx.record j).scope.put c ctx.store.sets.length else (ctx.record j).scope :=
  scope_modifyRecord { ctx with store := (ctx.store.alloc []).1 } hlt _

/-- The new set is in the store. -/
theorem housed_bring (hlt : id < ctx.records.length) (h : ctx.Housed) :
    (ctx.bring id c).Housed := by
  intro j e i hmem
  have hlength : (ctx.bring id c).store.sets.length = ctx.store.sets.length + 1 :=
    Store.length_alloc ctx.store []
  rw [hlength]
  rw [scope_bring hlt] at hmem
  split at hmem
  · rcases Table.mem_entries_put hmem with heq | hmem
    · cases heq
      exact Nat.lt_succ_self _
    · exact Nat.lt_succ_of_lt (h hmem)
  · exact Nat.lt_succ_of_lt (h hmem)

/-- One line has one more name in scope. -/
private theorem inScope_bring (hlt : id < ctx.records.length) :
    (ctx.bring id c).InScope j e ↔ j = id ∧ e = c ∨ ctx.InScope j e := by
  rw [InScope, scope_bring hlt]
  split
  · rename_i hj
    rw [Table.mem_keys_put]
    simp [hj, InScope]
  · rename_i hj
    simp [hj, InScope]

/-- A name that is brought in depends on nothing. -/
private theorem ties_of_bring (hlt : id < ctx.records.length) (hh : ctx.Housed)
    (h : (ctx.bring id c).Ties j e d) : ctx.Ties j e d := by
  obtain ⟨i, hmem, hd⟩ := ties_iff.mp h
  have hget : ∀ {i}, i < ctx.store.sets.length → (ctx.bring id c).store.get i = ctx.store.get i :=
    Store.get_alloc_of_lt []
  rw [scope_bring hlt] at hmem
  split at hmem
  · rcases Table.mem_entries_put hmem with heq | hmem
    · cases heq
      -- the name that was brought in has an empty set
      rw [show (ctx.bring id c).store.get ctx.store.sets.length = [] from
        Store.get_alloc_self ctx.store []] at hd
      cases hd
    · exact ties_iff.mpr ⟨i, hmem, hget (hh hmem) ▸ hd⟩
  · exact ties_iff.mpr ⟨i, hmem, hget (hh hmem) ▸ hd⟩

/-! ### A name is taken out -/

/-- The name is erased. -/
theorem scope_release (hlt : id < ctx.records.length) :
    ((ctx.release id c).record j).scope =
      if j = id then (ctx.record j).scope.erase c else (ctx.record j).scope :=
  scope_modifyRecord ctx hlt _

/-- Nothing comes into scope. -/
theorem mem_scope_of_release (hlt : id < ctx.records.length) {i : SetId}
    (h : (e, i) ∈ ((ctx.release id c).record j).scope.entries) :
    (e, i) ∈ (ctx.record j).scope.entries := by
  rw [scope_release hlt] at h
  split at h
  · exact (List.mem_filter.mp h).1
  · exact h

/-- One line has one name less in scope. -/
private theorem inScope_release (hlt : id < ctx.records.length) :
    (ctx.release id c).InScope j e ↔ ctx.InScope j e ∧ ¬ (j = id ∧ e = c) := by
  rw [InScope, scope_release hlt]
  split
  · rename_i hj
    rw [Table.mem_keys_erase]
    simp [hj, InScope]
  · rename_i hj
    simp [hj, InScope]

/-- Nothing comes to depend on anything. -/
private theorem ties_of_release (hlt : id < ctx.records.length)
    (h : (ctx.release id c).Ties j e d) : ctx.Ties j e d := by
  obtain ⟨i, hmem, hd⟩ := ties_iff.mp h
  exact ties_iff.mpr ⟨i, mem_scope_of_release hlt hmem, hd⟩

/-! ### Sets are taken over and changed -/

/-- The sets of the other line are put over those of this one. -/
theorem scope_takeOver {k : LineId} (hlt : id < ctx.records.length) :
    ((ctx.takeOver id k).record j).scope =
      if j = id then (ctx.record j).scope.putAll (ctx.record k).scope else (ctx.record j).scope :=
  scope_modifyRecord ctx hlt _

/-- A set in scope was in the scope of one of the two lines. -/
private theorem mem_scope_of_takeOver {k : LineId} (hlt : id < ctx.records.length) {i : SetId}
    (h : (e, i) ∈ ((ctx.takeOver id k).record j).scope.entries) :
    (e, i) ∈ (ctx.record j).scope.entries ∨ j = id ∧ (e, i) ∈ (ctx.record k).scope.entries := by
  rw [scope_takeOver hlt] at h
  split at h
  · rename_i hj
    exact (Table.mem_entries_putAll h).symm.imp_right fun h => ⟨hj, h⟩
  · exact .inl h

/-- The line has the names of both in scope. -/
theorem inScope_takeOver {k : LineId} (hlt : id < ctx.records.length) :
    (ctx.takeOver id k).InScope j e ↔ ctx.InScope j e ∨ j = id ∧ ctx.InScope k e := by
  rw [InScope, scope_takeOver hlt]
  split
  · rename_i hj
    rw [Table.mem_keys_putAll, or_comm]
    simp [hj, InScope]
  · rename_i hj
    simp [hj, InScope]

/-- A name depends on what it depended on for one of the two lines. -/
theorem ties_of_takeOver {k : LineId} (hlt : id < ctx.records.length)
    (h : (ctx.takeOver id k).Ties j e d) : ctx.Ties j e d ∨ j = id ∧ ctx.Ties k e d := by
  obtain ⟨i, hmem, hd⟩ := ties_iff.mp h
  rcases mem_scope_of_takeOver hlt hmem with hmem | ⟨hj, hmem⟩
  · exact .inl (ties_iff.mpr ⟨i, hmem, hd⟩)
  · exact .inr ⟨hj, ties_iff.mpr ⟨i, hmem, hd⟩⟩

/-- No new sets come into scope. -/
theorem housed_takeOver {k : LineId} (hlt : id < ctx.records.length) (h : ctx.Housed) :
    (ctx.takeOver id k).Housed := by
  intro j e i hmem
  rcases mem_scope_of_takeOver hlt hmem with hmem | ⟨-, hmem⟩
  · exact h hmem
  · exact h hmem

/-- Sets that are changed stay in the store. -/
theorem housed_changeSets (h : ctx.Housed) : (ctx.changeSets id f).Housed := by
  intro j e i hmem
  rw [show (ctx.changeSets id f).store.sets.length = ctx.store.sets.length from
    Store.length_modifyAll ctx.store _ f]
  exact h hmem

/-- A change of the sets of a line is felt by the lines that share them. -/
private theorem ties_of_changeSets {P : String → Prop} (hf : ∀ {t d}, d ∈ f t → d ∈ t ∨ P d)
    (h : (ctx.changeSets id f).Ties j e d) :
    ctx.Ties j e d ∨ P d ∧ ∃ i, (e, i) ∈ (ctx.record j).scope.entries ∧
      i ∈ (ctx.record id).scope.values := by
  obtain ⟨i, hmem, hd⟩ := ties_iff.mp h
  rcases Store.mem_get_modifyAll hf hd with hd | ⟨hi, hP⟩
  · exact .inl (ties_iff.mpr ⟨i, hmem, hd⟩)
  · exact .inr ⟨hP, i, hmem, hi⟩

/-! ### What is recorded -/

/-- The line `id` has got sets of its own, in which it has what the lines `ids` have in scope. -/
structure Recorded (ctx : Context) (id : LineId) (ids : List LineId) (ctx' : Context) : Prop where
  housed : ctx'.Housed
  length_eq : ctx'.records.length = ctx.records.length
  inScope_of_ne : ∀ {j c}, j ≠ id → (ctx'.InScope j c ↔ ctx.InScope j c)
  ties_of_ne : ∀ {j c d}, j ≠ id → ctx'.Ties j c d → ctx.Ties j c d
  inScope_self : ∀ {c}, ctx'.InScope id c ↔ ∃ k ∈ ids, ctx.InScope k c
  ties_self : ∀ {c d}, ctx'.Ties id c d → ∃ k ∈ ids, ctx.Ties k c d
  apart : ∀ {j c e i}, j ≠ id → (c, i) ∈ (ctx'.record j).scope.entries →
    (e, i) ∉ (ctx'.record id).scope.entries

/-- The line gets the new places. -/
theorem scope_recorded_self (hlt : id < ctx.records.length) (arg : Argument)
    (vars : VariableContext) :
    ((ctx.recorded id arg vars).record id).scope = (ctx.store.allocAll vars).2 := by
  rw [record_recorded, if_pos ⟨rfl, hlt⟩]

/-- The other lines keep theirs. -/
theorem scope_recorded_of_ne (hj : j ≠ id) (arg : Argument) (vars : VariableContext) :
    ((ctx.recorded id arg vars).record j).scope = (ctx.record j).scope := by
  rw [record_recorded, if_neg fun h => hj h.1]

/-- The sets of the line are in new places. -/
theorem entry_recorded (hlt : id < ctx.records.length) {arg : Argument} {vars : VariableContext}
    {i : SetId} (h : (c, i) ∈ ((ctx.recorded id arg vars).record id).scope.entries) :
    ctx.store.sets.length ≤ i ∧ i < (ctx.recorded id arg vars).store.sets.length ∧
      (c, (ctx.recorded id arg vars).store.get i) ∈ vars.entries := by
  rw [scope_recorded_self hlt] at h
  exact ((Store.allocates_allocAll ctx.store vars).entry h).resolve_left List.not_mem_nil

/-- Recording what a reason means gives the line sets of its own. -/
theorem recorded_recorded (hlt : id < ctx.records.length) (hh : ctx.Housed) (arg : Argument)
    (ids : List LineId) :
    Recorded ctx id ids (ctx.recorded id arg (.combine (ids.map ctx.variablesOf))) where
  housed := by
    intro j c i hmem
    by_cases hj : j = id
    · subst hj
      exact (entry_recorded hlt hmem).2.1
    · rw [scope_recorded_of_ne hj] at hmem
      exact Nat.lt_of_lt_of_le (hh hmem) (Store.allocates_allocAll ctx.store _).length_le
  length_eq := by simp [recorded, modifyRecord]
  inScope_of_ne hj := by rw [InScope, InScope, scope_recorded_of_ne hj]
  ties_of_ne hj := by
    -- the sets of the other lines are in old places
    refine (ties_congr (scope_recorded_of_ne hj _ _) fun hmem => ?_).mp
    exact (Store.allocates_allocAll ctx.store _).get_eq _ (hh hmem)
  inScope_self {c} := by
    have hnone : c ∉ ({} : Scope).keys := List.not_mem_nil
    rw [InScope, scope_recorded_self hlt, (Store.allocates_allocAll ctx.store _).mem_keys,
      or_iff_right hnone, ← Table.keys, VariableContext.mem_keys_combine]
    simp only [List.mem_map, exists_exists_and_eq_and, mem_keys_variablesOf]
  ties_self h := by
    obtain ⟨i, hmem, hd⟩ := ties_iff.mp h
    obtain ⟨t, ht, hdepends⟩ :=
      VariableContext.depends_of_combine ⟨_, (entry_recorded hlt hmem).2.2, hd⟩
    obtain ⟨k, hk, rfl⟩ := List.mem_map.mp ht
    exact ⟨k, hk, hdepends⟩
  apart hj hmem hmem' := by
    rw [scope_recorded_of_ne hj] at hmem
    -- a set is in an old place or in a new one
    exact absurd (hh hmem) (Nat.not_lt.mpr (entry_recorded hlt hmem').1)

/-! ### What a line does -/

/-- The line `id`, whose number is `n` and which cites the lines `ids`, has passed its examination.
    It has in scope what it introduces and what the cited lines hand on, less what it generalizes.
    A name depends on what it depends on for a cited line and on what the line chooses.  For the
    other lines no name comes to depend on anything. -/
structure Handed (ctx : Context) (n : Int) (id : LineId) (ids : List LineId) (ctx' : Context) :
    Prop where
  housed : ctx'.Housed
  inScope_of_ne : ∀ {j c}, j ≠ id → (ctx'.InScope j c ↔ ctx.InScope j c)
  ties_of_ne : ∀ {j c d}, j ≠ id → ctx'.Ties j c d → ctx.Ties j c d
  inScope_self : ∀ {c}, ctx'.InScope id c ↔ (∃ v body w, ctx.Introduces n v body w ∧ w.name = c) ∨
    (∃ k ∈ ids, ctx.InScope k c) ∧ ∀ w, ctx.Generalizes n w → w.name ≠ c
  ties_self : ∀ {c d}, ctx'.Ties id c d → (∃ k ∈ ids, ctx.Ties k c d) ∨
    ctx'.InScope id c ∧ ∃ w, ctx.Chooses n w ∧ w.name = d

section

variable {n : Int} {ids : List LineId} (h : Recorded ctx id ids ctx')
  (hlt : id < ctx.records.length) {w : Variable}

include h

/-- A line that does nothing to the variables has what it was given. -/
theorem Recorded.handed (hintro : ∀ v body w, ¬ ctx.Introduces n v body w)
    (hgen : ∀ w, ¬ ctx.Generalizes n w) : Handed ctx n id ids ctx' where
  housed := h.housed
  inScope_of_ne := h.inScope_of_ne
  ties_of_ne := h.ties_of_ne
  inScope_self := by simp [h.inScope_self, hintro, hgen]
  ties_self ht := .inl (h.ties_self ht)

include hlt

/-- A universal instantiation brings in the name that it introduces. -/
private theorem Recorded.handed_bring
    (hintro : ∀ c, (∃ v body w, ctx.Introduces n v body w ∧ w.name = c) ↔ c = w.name)
    (hgen : ∀ w, ¬ ctx.Generalizes n w) : Handed ctx n id ids (ctx'.bring id w.name) := by
  rw [← h.length_eq] at hlt
  refine ⟨housed_bring hlt h.housed, fun hj => ?_, fun hj ht => ?_, ?_, fun ht => ?_⟩
  · rw [inScope_bring hlt, h.inScope_of_ne hj]
    simp [hj]
  · exact h.ties_of_ne hj (ties_of_bring hlt h.housed ht)
  · intro c
    rw [inScope_bring hlt, h.inScope_self, hintro]
    simp [hgen]
  · exact .inl (h.ties_self (ties_of_bring hlt h.housed ht))

/-- A universal generalization takes out the name that it generalizes. -/
private theorem Recorded.handed_release (hintro : ∀ v body w, ¬ ctx.Introduces n v body w)
    (hgen : ∀ w', ctx.Generalizes n w' ↔ w' = w) :
    Handed ctx n id ids (ctx'.release id w.name) := by
  rw [← h.length_eq] at hlt
  refine ⟨fun hmem => h.housed (mem_scope_of_release hlt hmem), fun hj => ?_, fun hj ht => ?_, ?_,
    fun ht => ?_⟩
  · rw [inScope_release hlt, h.inScope_of_ne hj]
    simp [hj]
  · exact h.ties_of_ne hj (ties_of_release hlt ht)
  · intro c
    rw [inScope_release hlt, h.inScope_self]
    simp [hintro, hgen, eq_comm]
  · exact .inl (h.ties_self (ties_of_release hlt ht))

omit hlt

/-- A choice is added to the sets of the line itself, which no other line shares. -/
private theorem Recorded.handed_addName (hintro : ∀ v body w, ¬ ctx.Introduces n v body w)
    (hgen : ∀ w, ¬ ctx.Generalizes n w) (hchoose : ctx.Chooses n w) :
    Handed ctx n id ids (ctx'.changeSets id fun s => addName s w.name) := by
  have hhanded := h.handed hintro hgen
  refine ⟨housed_changeSets h.housed, h.inScope_of_ne, fun hj ht => ?_, hhanded.inScope_self,
    fun {c d} ht => ?_⟩
  · rcases ties_of_changeSets mem_addName.mp ht with ht | ⟨-, i, hmem, hvalue⟩
    · exact h.ties_of_ne hj ht
    · -- the set would be one of the line itself
      obtain ⟨⟨e, _⟩, hmem', rfl⟩ := List.mem_map.mp hvalue
      exact absurd hmem' (h.apart hj hmem)
  · rcases ties_of_changeSets mem_addName.mp ht with ht | ⟨hd, i, hmem, -⟩
    · exact .inl (h.ties_self ht)
    · exact .inr ⟨List.mem_map_of_mem hmem, w, hchoose, hd.symm⟩

include hlt

/-- What is dropped from the sets that are taken over is dropped for the lines that share them. -/
private theorem Recorded.handed_dropName (hintro : ∀ v body w, ¬ ctx.Introduces n v body w)
    (hgen : ∀ w, ¬ ctx.Generalizes n w) {k : LineId} (hk : k ∈ ids) :
    Handed ctx n id ids ((ctx'.takeOver id k).changeSets id fun s => dropName s w.name) := by
  have hhanded := h.handed hintro hgen
  rw [← h.length_eq] at hlt
  have hties : ∀ {j c d},
      ((ctx'.takeOver id k).changeSets id fun s => dropName s w.name).Ties j c d →
      ctx'.Ties j c d ∨ j = id ∧ ctx'.Ties k c d := by
    intro j c d ht
    -- a set only gets smaller
    have hdrop : ∀ {t d}, d ∈ dropName t w.name → d ∈ t ∨ False :=
      fun hd => .inl (List.mem_filter.mp hd).1
    rcases ties_of_changeSets hdrop ht with ht | ⟨hfalse, -⟩
    · exact ties_of_takeOver hlt ht
    · cases hfalse
  refine ⟨housed_changeSets (housed_takeOver hlt h.housed), fun hj => ?_, fun hj ht => ?_, ?_,
    fun ht => ?_⟩
  · exact (inScope_takeOver hlt).trans (by simp [hj, h.inScope_of_ne hj])
  · rcases hties ht with ht | ⟨hid, -⟩
    · exact h.ties_of_ne hj ht
    · exact absurd hid hj
  · -- the names that are taken over had been handed on already
    intro c
    rw [← hhanded.inScope_self]
    refine (inScope_takeOver hlt).trans (or_iff_left_of_imp fun hkc => ?_)
    by_cases hid : k = id
    · exact hid ▸ hkc.2
    · exact h.inScope_self.mpr ⟨k, hk, (h.inScope_of_ne hid).mp hkc.2⟩
  · rcases hties ht with ht | ⟨-, ht⟩
    · exact .inl (h.ties_self ht)
    · by_cases hid : k = id
      · exact .inl (h.ties_self (hid ▸ ht))
      · exact .inl ⟨k, hk, h.ties_of_ne hid ht⟩

end

/-- What the lines have in scope after a line has passed its examination. -/
theorem handed_of_examine {n : Int} (hget : ctx.lines.get? n = some id)
    (hlt : id < ctx.records.length) (hh : ctx.Housed) (h : ctx.examine id = (.ok (), ctx')) :
    ∃ ids, ctx.cite (ctx.record id).line.reason.citations = .ok ids ∧
      Handed ctx n id ids ctx' := by
  obtain ⟨arg, vars, hinterpret, hverify⟩ := examine_eq_ok.mp h
  obtain ⟨ids, hids, hvars, -⟩ := interpret_eq_ok.mp hinterpret
  subst hvars
  refine ⟨ids, hids, ?_⟩
  have hrecorded := recorded_recorded hlt hh arg ids
  -- what the line does to the variables is told by its argument
  have hintro {v body w} : ctx.Introduces n v body w ↔ _ := introduces_iff hget hinterpret
  have hgen {w} : ctx.Generalizes n w ↔ _ := generalizes_iff hget hinterpret
  have hchoose {w} : ctx.Chooses n w ↔ _ := chooses_iff hget hinterpret
  cases verifies_of_ok hverify with
  | ui hf hfound hfresh =>
    rw [line_recorded] at hfound
    refine hrecorded.handed_bring hlt (fun c => ?_) (by simp [hgen])
    simp only [hintro, Argument.universalInstantiation.injEq, exists_eq_left', hf,
      Formula.all.injEq]
    constructor
    · rintro ⟨_, _, w', ⟨⟨rfl, rfl⟩, hfound', -⟩, rfl⟩
      -- what is instantiated to is found once
      rw [hfound, Except.ok.injEq] at hfound'
      rw [hfound']
    · rintro rfl
      exact ⟨_, _, _, ⟨⟨rfl, rfl⟩, hfound, hfresh⟩, rfl⟩
  | ui_again hf hfound hused =>
    rw [line_recorded] at hfound
    refine hrecorded.handed (fun v body w => ?_) (by simp [hgen])
    simp only [hintro, Argument.universalInstantiation.injEq, exists_eq_left', hf,
      Formula.all.injEq]
    rintro ⟨⟨rfl, rfl⟩, hfound', hfresh⟩
    rw [hfound, Except.ok.injEq] at hfound'
    exact hused (hfound' ▸ hfresh)
  | ug hf hfound hscope =>
    rw [line_recorded] at hf
    refine hrecorded.handed_release hlt (by simp [hintro]) fun w' => ?_
    simp [hgen, hf, hfound, eq_comm]
  | ei hf hfound =>
    rw [line_recorded] at hfound
    exact hrecorded.handed_addName (by simp [hintro]) (by simp [hgen])
      (hchoose.mpr ⟨_, rfl, _, _, hf, hfound⟩)
  | eg w =>
    -- the line that the sets are taken from is the one that is cited
    obtain ⟨m, j, hreason, hj, rfl, -⟩ := (interpret_quantifier_iff rfl).mp hinterpret
    have hcite := cite_eq_singleton.mpr ⟨m, rfl, hj⟩
    rw [hreason] at hids
    rw [hids, Except.ok.injEq] at hcite
    exact hrecorded.handed_dropName hlt (by simp [hintro]) (by simp [hgen])
      (hcite ▸ List.mem_singleton_self j)
  | formulas hother standing =>
    have hno_intro : ∀ v body w, ¬ ctx.Introduces n v body w := by
      intro v body w hw
      obtain ⟨q, rfl, -⟩ := hintro.mp hw
      cases hother
    have hno_gen : ∀ w, ¬ ctx.Generalizes n w := by
      intro w hw
      obtain ⟨q, rfl, -⟩ := hgen.mp hw
      cases hother
    have hhanded := hrecorded.handed hno_intro hno_gen
    exact ⟨hhanded.housed, hhanded.inScope_of_ne, hhanded.ties_of_ne, hhanded.inScope_self,
      hhanded.ties_self⟩

/-- Only a named variable is instantiated. -/
private theorem isNamed_of_instantiated {v w : Variable} {body inst : Formula}
    (h : instantiated v body inst = .ok w) : v.isNamed = true := by
  unfold instantiated at h
  split at h
  · assumption
  · cases h

/-- A universal generalization passes when the variable that it generalizes is in the scope of the
    line that it cites and its symbols are in order. -/
theorem exists_examine_ug_iff {n : Int} (hget : ctx.lines.get? n = some id)
    (hlt : id < ctx.records.length) (hh : ctx.Housed)
    (hrule : (ctx.record id).line.reason.rule = "ug") :
    (∃ ctx', ctx.examine id = (.ok (), ctx')) ↔
      (∃ s, (ctx.record id).line.formula.symbols = .ok s) ∧
        ∃ w, ctx.Generalizes n w ∧ ∃ m ∈ (ctx.record id).line.reason.citations,
          ∃ j, ctx.lines.get? m = some j ∧ ctx.InScope j w.name := by
  simp only [examine_quantifier_iff (f := .universalGeneralization) (fun _ => rfl) hrule, verify,
    Prod.mk.injEq, mapError_eq_ok]
  -- what the line has in scope when it is verified is what the cited line has
  have hscope : ∀ {j c}, ((ctx.recorded id (.universalGeneralization (ctx.cited j))
      (.combine [ctx.variablesOf j])).record id).scope.contains c = true ↔ ctx.InScope j c := by
    intro j c
    rw [Table.contains_iff]
    exact (recorded_recorded hlt hh _ [j]).inScope_self.trans (by simp)
  constructor
  · rintro ⟨ctx', m, j, hreason, hj, hverify⟩
    obtain ⟨v, body, w, s, hf, hinst, hw, hs, -⟩ :=
      verifyUG_eq_ok.mp (Prod.ext hverify.1 hverify.2)
    rw [line_recorded] at hf
    refine ⟨⟨s.bind v, ?_⟩, w, ?_, m, ?_, j, hj, hscope.mp hw⟩
    · simp [hf, Formula.symbols, isNamed_of_instantiated hinst, hs]
    · exact ⟨_, _, ⟨line?_of_get? hget, m, hreason, line?_of_get? hj⟩, v, body, hf, hinst⟩
    · simp [hreason]
  · rintro ⟨⟨s, hs⟩, w, ⟨l, k, ⟨hl, m, hreason, hk⟩, v, body, hf, hinst⟩, m', hm', j, hj, hw⟩
    rw [line?_of_get? hget, Option.some_inj] at hl
    subst hl
    obtain rfl : m' = m := by simpa [hreason] using hm'
    rw [line?_of_get? hj, Option.some_inj] at hk
    subst hk
    -- the body is in order if the whole formula is
    obtain ⟨s', hs'⟩ : ∃ s', body.symbols = .ok s' := by
      rw [hf, Formula.symbols, if_pos (isNamed_of_instantiated hinst)] at hs
      split at hs
      · cases hs
      · exact ⟨_, by assumption⟩
    rw [← line_recorded ctx id (.universalGeneralization (ctx.cited j))
      (.combine [ctx.variablesOf j])] at hf
    have hverify := verifyUG_eq_ok (q := ctx.cited j).mpr
      ⟨v, body, w, s', hf, hinst, hscope.mpr hw, hs', rfl⟩
    exact ⟨_, m', j, hreason, hj, congrArg Prod.fst hverify, congrArg Prod.snd hverify⟩

end Context

end Sequitur
