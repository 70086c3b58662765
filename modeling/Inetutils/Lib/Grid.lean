import Mathlib.Data.List.Basic

/-! # A list in a grid

`columns n rows` reads `n` columns of a grid, one after the other. A grid in which the place `col`
of the row `row` is the element `col * m + row` of a list, for `m` rows, has the list in its columns
(`columns_eq`). -/

namespace Inetutils.Lib.Grid

open List

variable {α β : Type*}

/-- The first `n` columns, each from above. -/
def columns (n : ℕ) (rows : List (List α)) : List α := (List.range n).flatMap fun col =>
    rows.filterMap fun r => r[col]?

theorem filterMap_range_getElem? (l : List α) (n : ℕ) :
    (List.range n).filterMap (fun i => l[i]?) = l.take n := by
  induction n with
  | zero => rfl
  | succ n ih =>
    rw [range_succ, filterMap_append, ih, take_add_one, filterMap_cons, filterMap_nil]
    rcases l[n]? with - | a <;> rfl

theorem flatMap_range_chunks (l : List α) (m n : ℕ) :
    (List.range n).flatMap (fun col => (l.drop (col * m)).take m) = l.take (n * m) := by
  induction n with
  | zero => rw [Nat.zero_mul]; rfl
  | succ n ih =>
    rw [range_succ, flatMap_append, ih, Nat.succ_mul, take_add]
    simp

/-- **The columns of a list.** -/
theorem columns_eq {l : List α} {rows : List (List α)} {n : ℕ} (hn : l.length ≤ n * rows.length)
    (h : ∀ row (hr : row < rows.length) col, (rows[row])[col]? = l[col * rows.length + row]?) :
    columns n rows = l := by
  have hcol :
      ∀ col, (rows.filterMap fun r => r[col]?) = (l.drop (col * rows.length)).take rows.length := by
    intro col
    rw [← filterMap_range_getElem?]
    have hrows : rows = (List.range rows.length).filterMap fun i => rows[i]? := by
      rw [filterMap_range_getElem?, take_length]
    conv_lhs => rw [hrows]
    rw [filterMap_filterMap]
    refine filterMap_congr fun row hrow => ?_
    have hr := mem_range.1 hrow
    rw [getElem?_eq_getElem hr, Option.bind_some, h row hr col, getElem?_drop]
  rw [columns, funext hcol, flatMap_range_chunks, take_of_length_le hn]

end Inetutils.Lib.Grid
