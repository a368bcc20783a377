/-!
# Tab stops

A tab moves to the next column that is a multiple of eight; columns are counted from the last line
break, which may be a newline or a carriage return.
-/

namespace Sequitur.Text

/-- The distance between tab stops. -/
def tabWidth : Nat := 8

/-- Replace tabs by blanks, the first character being in column `column`. -/
def expandTabsFrom (column : Nat) : List Char → List Char
  | [] => []
  | c :: cs =>
    if c = '\t' then
      let blanks := tabWidth - column % tabWidth
      List.replicate blanks ' ' ++ expandTabsFrom (column + blanks) cs
    -- columns start anew
    else if c = '\n' ∨ c = '\r' then c :: expandTabsFrom 0 cs
    else c :: expandTabsFrom (column + 1) cs

/-- Replace tabs by blanks. -/
def expandTabs (cs : List Char) : List Char := expandTabsFrom 0 cs

/-- A text without tabs is left as it is. -/
theorem expandTabsFrom_of_not_mem (column : Nat) (cs : List Char) (h : '\t' ∉ cs) :
    expandTabsFrom column cs = cs := by
  induction cs generalizing column with
  | nil => rfl
  | cons c cs ih =>
    simp only [List.mem_cons, not_or] at h
    simp only [expandTabsFrom, if_neg (Ne.symm h.1), ih _ h.2, ite_self]

end Sequitur.Text
