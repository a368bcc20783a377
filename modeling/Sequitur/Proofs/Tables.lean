import Mathlib.Data.List.Nodup
import Mathlib.Data.List.Perm.Basic
import Sequitur.Sorting
import Sequitur.Table

/-!
# Sorting and tables

What the rest of the theory needs about the containers of the library.  Sorting rearranges and
orders.  A table that grows by `put` alone has each key once; then its entries and its look-ups say
the same, and entering new keys appends to the entries.
-/

namespace Sequitur

/-! ## Sorting -/

section Sorting

variable {α : Type} (number : α → Int)

private theorem insertBy_perm (a : α) (l : List α) : (insertBy number a l).Perm (a :: l) := by
  induction l with
  | nil => exact .refl _
  | cons b l ih =>
    simp only [insertBy]
    split
    · exact .refl _
    · exact (ih.cons b).trans (.swap a b l)

/-- Sorting rearranges. -/
theorem sortBy_perm (l : List α) : (sortBy number l).Perm l := by
  induction l with
  | nil => exact .refl _
  | cons a l ih => exact (insertBy_perm number a _).trans (ih.cons a)

private theorem insertBy_pairwise (a : α) {l : List α}
    (h : l.Pairwise fun x y => number x ≤ number y) :
    (insertBy number a l).Pairwise fun x y => number x ≤ number y := by
  induction l with
  | nil => simp [insertBy]
  | cons b l ih =>
    rw [List.pairwise_cons] at h
    simp only [insertBy]
    split
    · rename_i hab
      refine List.pairwise_cons.mpr ⟨fun x hx => ?_, List.pairwise_cons.mpr h⟩
      cases hx with
      | head => exact hab
      | tail _ hx => exact Int.le_trans hab (h.1 x hx)
    · rename_i hab
      refine List.pairwise_cons.mpr ⟨fun x hx => ?_, ih h.2⟩
      -- what stands behind `b` now is `a` or stood there before
      cases (insertBy_perm number a l).mem_iff.mp hx with
      | head => omega
      | tail _ hx => exact h.1 x hx

/-- Sorting orders. -/
theorem sortBy_pairwise (l : List α) :
    (sortBy number l).Pairwise fun x y => number x ≤ number y := by
  induction l with
  | nil => exact .nil
  | cons a l ih => exact insertBy_pairwise number a ih

/-- Sorted by pairwise different numbers, a list is strictly ordered. -/
theorem sortBy_pairwise_lt {l : List α} (h : (l.map number).Nodup) :
    (sortBy number l).Pairwise fun x y => number x < number y := by
  have hnodup : ((sortBy number l).map number).Nodup :=
    ((sortBy_perm number l).map number).nodup_iff.mpr h
  rw [List.Nodup, List.pairwise_map] at hnodup
  exact (sortBy_pairwise number l).imp₂ (fun _ _ hle hne => by omega) hnodup

end Sorting

theorem sortNumbers_perm (ns : List Int) : (sortNumbers ns).Perm ns := sortBy_perm id ns

/-- Sorted line numbers increase, if none repeats. -/
theorem sortNumbers_pairwise_lt {ns : List Int} (h : ns.Nodup) :
    (sortNumbers ns).Pairwise (· < ·) :=
  sortBy_pairwise_lt id (by rwa [List.map_id])

/-- Line numbers that are sorted alike are the same up to order. -/
theorem perm_of_sortNumbers_eq {ns ms : List Int} (h : sortNumbers ns = sortNumbers ms) :
    ns.Perm ms :=
  (sortNumbers_perm ns).symm.trans ((List.Perm.of_eq h).trans (sortNumbers_perm ms))

/-- Line numbers are sorted alike when they are the same up to order. -/
theorem sortNumbers_eq_iff {ns ms : List Int} : sortNumbers ns = sortNumbers ms ↔ ns.Perm ms := by
  refine ⟨perm_of_sortNumbers_eq, fun h => ?_⟩
  have hperm : (sortNumbers ns).Perm (sortNumbers ms) :=
    (sortNumbers_perm ns).trans (h.trans (sortNumbers_perm ms).symm)
  exact hperm.eq_of_pairwise (fun _ _ _ _ hle hge => Int.le_antisymm hle hge)
    (sortBy_pairwise id ns) (sortBy_pairwise id ms)

/-! ## Lists that keep one of each -/

theorem nodup_eraseDups {α : Type} [DecidableEq α] : (l : List α) → l.eraseDups.Nodup
  | [] => List.nodup_nil
  | a :: l => by
    rw [List.eraseDups_cons, List.nodup_cons, List.mem_eraseDups, List.mem_filter]
    exact ⟨by simp, nodup_eraseDups (l.filter fun b => !b == a)⟩
termination_by l => l.length
decreasing_by exact Nat.lt_succ_of_le (List.length_filter_le _ _)

/-- Of sorted numbers an increasing list is left. -/
theorem pairwise_lt_eraseDups : {l : List Int} → l.Pairwise (· ≤ ·) → l.eraseDups.Pairwise (· < ·)
  | [], _ => by simp
  | a :: l, h => by
    obtain ⟨hle, hrest⟩ := List.pairwise_cons.mp h
    rw [List.eraseDups_cons, List.pairwise_cons]
    refine ⟨fun b hb => ?_, pairwise_lt_eraseDups (hrest.filter fun b => !b == a)⟩
    -- what is left behind the first number is another one
    rw [List.mem_eraseDups, List.mem_filter] at hb
    have hab := hle b hb.1
    have hne : b ≠ a := by simpa using hb.2
    omega
termination_by l => l.length
decreasing_by exact Nat.lt_succ_of_le (List.length_filter_le _ _)

/-- A single thing is left when the list holds it and nothing else. -/
theorem eraseDups_eq_singleton_iff {α : Type} [DecidableEq α] {l : List α} {a : α} :
    l.eraseDups = [a] ↔ ∀ b, b ∈ l ↔ b = a := by
  rw [← List.perm_singleton,
    List.perm_ext_iff_of_nodup (nodup_eraseDups l) (List.nodup_singleton a)]
  simp only [List.mem_eraseDups, List.mem_singleton]

/-! ## Tables -/

namespace Table

variable {κ α : Type} [DecidableEq κ]

theorem get?_put (t : Table κ α) (k l : κ) (a : α) :
    (t.put k a).get? l = if l = k then some a else t.get? l := by
  by_cases h : l = k
  · rw [h, if_pos rfl, get?_put_self]
  · rw [if_neg h, get?_put_of_ne t a h]

/-- What is found under a key is one of the entries. -/
theorem mem_of_get? {t : Table κ α} {k : κ} {a : α} (h : t.get? k = some a) :
    (k, a) ∈ t.entries := by
  obtain ⟨es⟩ := t
  simp only [get?] at h ⊢
  induction es with
  | nil => simp [lookup] at h
  | cons e es ih =>
    simp only [lookup] at h
    split at h
    · rename_i hk
      cases h
      exact hk ▸ List.mem_cons_self
    · exact List.mem_cons_of_mem _ (ih h)

/-- In a table that has each key once, every entry is found. -/
theorem get?_of_mem {t : Table κ α} (hn : t.keys.Nodup) {k : κ} {a : α}
    (h : (k, a) ∈ t.entries) : t.get? k = some a := by
  obtain ⟨es⟩ := t
  simp only [get?, keys] at hn h ⊢
  induction es with
  | nil => cases h
  | cons e es ih =>
    rw [List.map_cons, List.nodup_cons] at hn
    simp only [lookup]
    cases h with
    | head => simp
    | tail _ h =>
      -- the first entry has another key, since its own does not come again
      have hne : e.1 ≠ k := by
        rintro rfl
        exact hn.1 (List.mem_map.mpr ⟨_, h, rfl⟩)
      rw [if_neg hne]
      exact ih hn.2 h

/-- A new key goes to the end. -/
theorem entries_put_of_notMem {t : Table κ α} {k : κ} (a : α) (h : k ∉ t.keys) :
    (t.put k a).entries = t.entries ++ [(k, a)] := by
  obtain ⟨es⟩ := t
  simp only [put, keys] at h ⊢
  induction es with
  | nil => rfl
  | cons e es ih =>
    simp only [List.map_cons, List.mem_cons, not_or] at h
    rw [write, if_neg (Ne.symm h.1), ih h.2, List.cons_append]

/-- An old key stays where it is. -/
private theorem keys_put_of_mem {t : Table κ α} {k : κ} (a : α) (h : k ∈ t.keys) :
    (t.put k a).keys = t.keys := by
  obtain ⟨es⟩ := t
  simp only [put, keys] at h ⊢
  induction es with
  | nil => cases h
  | cons e es ih =>
    simp only [write]
    split
    · rename_i hk
      rw [List.map_cons, List.map_cons, hk]
    · rename_i hk
      rw [List.map_cons, List.mem_cons] at h
      rw [List.map_cons, List.map_cons, ih (h.resolve_left (Ne.symm hk))]

/-- Entering one thing does not double a key. -/
theorem nodup_put {t : Table κ α} (hn : t.keys.Nodup) (k : κ) (a : α) :
    (t.put k a).keys.Nodup := by
  by_cases h : k ∈ t.keys
  · -- an old key: nothing but its value changes
    rw [keys_put_of_mem a h]
    exact hn
  · rw [keys, entries_put_of_notMem a h, List.map_append]
    exact List.nodup_append.mpr ⟨hn, by simp, by rintro x hx y hy rfl; simp_all [keys]⟩

/-- An entry after `put` is the new one or an old one. -/
theorem mem_entries_put {t : Table κ α} {k : κ} {a : α} {e : κ × α}
    (h : e ∈ (t.put k a).entries) : e = (k, a) ∨ e ∈ t.entries := by
  obtain ⟨es⟩ := t
  simp only [put] at h ⊢
  induction es with
  | nil => simpa [write] using h
  | cons d es ih =>
    simp only [write] at h
    split at h
    · -- the value of an old key is written over
      rcases List.mem_cons.mp h with h | h
      · exact .inl h
      · exact .inr (List.mem_cons_of_mem _ h)
    · rcases List.mem_cons.mp h with h | h
      · exact .inr (h ▸ List.mem_cons_self)
      · exact (ih h).imp_right (List.mem_cons_of_mem _)

/-- An entry after `putAll` is one of either table. -/
theorem mem_entries_putAll {t u : Table κ α} {e : κ × α} (h : e ∈ (t.putAll u).entries) :
    e ∈ u.entries ∨ e ∈ t.entries := by
  obtain ⟨es⟩ := u
  simp only [putAll] at h ⊢
  induction es generalizing t with
  | nil => exact .inr h
  | cons d es ih =>
    rcases ih h with h | h
    · exact .inl (List.mem_cons_of_mem _ h)
    · rcases mem_entries_put h with rfl | h
      · exact .inl List.mem_cons_self
      · exact .inr h

/-- The keys after `put` are the new one and the old ones. -/
theorem mem_keys_put {t : Table κ α} {k l : κ} {a : α} :
    l ∈ (t.put k a).keys ↔ l = k ∨ l ∈ t.keys := by
  by_cases h : k ∈ t.keys
  · rw [keys_put_of_mem a h]
    constructor
    · exact .inr
    · rintro (rfl | hl)
      · exact h
      · exact hl
  · rw [keys, entries_put_of_notMem a h, List.map_append, List.mem_append, or_comm]
    simp [keys]

/-- The keys after `putAll` are those of both tables. -/
theorem mem_keys_putAll {t u : Table κ α} {k : κ} :
    k ∈ (t.putAll u).keys ↔ k ∈ u.keys ∨ k ∈ t.keys := by
  obtain ⟨es⟩ := u
  simp only [putAll]
  induction es generalizing t with
  | nil => simp [keys]
  | cons e es ih =>
    rw [List.foldl_cons, ih, mem_keys_put]
    simp only [keys, List.map_cons, List.mem_cons]
    rw [or_left_comm, or_assoc]

theorem mem_keys_erase {t : Table κ α} {k l : κ} :
    l ∈ (t.erase k).keys ↔ l ∈ t.keys ∧ l ≠ k := by
  simp only [keys, erase, List.mem_map, List.mem_filter, decide_eq_true_iff]
  constructor
  · rintro ⟨e, ⟨he, hne⟩, rfl⟩
    exact ⟨⟨e, he, rfl⟩, hne⟩
  · rintro ⟨⟨e, he, rfl⟩, hne⟩
    exact ⟨e, ⟨he, hne⟩, rfl⟩

/-- A key has a value when it is one of the keys. -/
theorem contains_iff {t : Table κ α} {k : κ} : t.contains k = true ↔ k ∈ t.keys := by
  obtain ⟨es⟩ := t
  simp only [contains, get?, keys]
  induction es with
  | nil => simp [lookup]
  | cons e es ih =>
    simp only [lookup, List.map_cons, List.mem_cons, ← ih]
    by_cases hk : e.1 = k
    · simp [hk]
    · simp [hk, Ne.symm hk]

/-- Entering a table does not double a key. -/
theorem nodup_putAll {t : Table κ α} (hn : t.keys.Nodup) (u : Table κ α) :
    (t.putAll u).keys.Nodup := by
  unfold putAll
  induction u.entries generalizing t with
  | nil => exact hn
  | cons e es ih => exact ih (nodup_put hn e.1 e.2)

/-- Entering a table leaves the keys alone that it does not have. -/
private theorem get?_putAll_of_notMem {t u : Table κ α} {k : κ} (h : k ∉ u.keys) :
    (t.putAll u).get? k = t.get? k := by
  obtain ⟨es⟩ := u
  simp only [putAll, keys] at h ⊢
  induction es generalizing t with
  | nil => rfl
  | cons e es ih =>
    rw [List.map_cons, List.mem_cons, not_or] at h
    rw [List.foldl_cons, ih h.2, get?_put_of_ne t e.2 h.1]

/-- A table that has each key once is entered whole. -/
theorem mem_entries_putAll_of_mem {t u : Table κ α} (hn : u.keys.Nodup) {e : κ × α}
    (h : e ∈ u.entries) : e ∈ (t.putAll u).entries := by
  obtain ⟨es⟩ := u
  induction es generalizing t with
  | nil => cases h
  | cons d es ih =>
    rw [keys, List.map_cons, List.nodup_cons] at hn
    rcases List.mem_cons.mp h with rfl | h
    · -- what is entered later has other keys
      refine mem_of_get? (a := e.2) ((get?_putAll_of_notMem (u := ⟨es⟩) hn.1).trans ?_)
      exact get?_put_self t e.1 e.2
    · exact ih hn.2 h

/-- Entering a table whose keys are new appends its entries. -/
theorem entries_putAll_of_disjoint {t u : Table κ α} (hn : u.keys.Nodup)
    (hd : t.keys.Disjoint u.keys) : (t.putAll u).entries = t.entries ++ u.entries := by
  obtain ⟨es⟩ := u
  simp only [putAll, keys] at hn hd ⊢
  induction es generalizing t with
  | nil => simp
  | cons e es ih =>
    rw [List.map_cons, List.nodup_cons] at hn
    rw [List.map_cons, List.disjoint_cons_right] at hd
    -- the first key goes to the end of `t`, and the others are still new there
    have hput := entries_put_of_notMem (t := t) e.2 hd.1
    rw [List.foldl_cons, ih, hput, List.append_assoc, List.singleton_append]
    · exact hn.2
    · rw [hput, List.map_append, List.disjoint_append_left]
      exact ⟨hd.2, by simpa using hn.1⟩

theorem mem_of_mem_ofList {es : List (κ × α)} {e : κ × α} (h : e ∈ (ofList es).entries) :
    e ∈ es :=
  (mem_entries_putAll h).resolve_right List.not_mem_nil

/-- A list without a key twice is the list of entries of its table. -/
theorem entries_ofList {es : List (κ × α)} (hn : (es.map Prod.fst).Nodup) :
    (ofList es).entries = es :=
  entries_putAll_of_disjoint (t := {}) (u := ⟨es⟩) hn (List.disjoint_nil_left _)

end Table

end Sequitur
