import Mathlib.Data.List.Basic

/-! # Logs with repetitions

A log in which an entry says that what was before it came `n` times more. `expand` writes the log
out. -/

namespace Inetutils.Lib.Repeats

variable {α : Type*}

inductive Entry (α : Type*)
  | once (a : α)
  | again (n : ℕ)

/-- What one more entry makes of a log that is written out. -/
def extend (l : List α) : Entry α → List α
  | .once a => l ++ [a]
  | .again n => l ++ (l.getLast?.elim [] (List.replicate n))

/-- The log, written out. -/
def expand (log : List (Entry α)) : List α := log.foldl extend []

@[simp] theorem expand_nil : expand ([] : List (Entry α)) = [] := rfl

variable (log : List (Entry α))

theorem expand_once (a : α) : expand (log ++ [.once a]) = expand log ++ [a] := by
  rw [expand, List.foldl_append]
  rfl

theorem expand_again (n : ℕ) {a : α} (h : (expand log).getLast? = some a) :
    expand (log ++ [.again n]) = expand log ++ List.replicate n a := by
  have he : expand (log ++ [.again n]) = extend (expand log) (.again n) := by
    rw [expand, List.foldl_append]
    rfl
  rw [he, extend, h]
  rfl

theorem getLast?_expand_once (a : α) : (expand (log ++ [.once a])).getLast? = some a := by
  rw [expand_once, List.getLast?_append]
  rfl

theorem getLast?_expand_again (n : ℕ) {a : α} (h : (expand log).getLast? = some a) :
    (expand (log ++ [.again n])).getLast? = some a := by
  rw [expand_again log n h, List.getLast?_append, List.getLast?_replicate, h]
  split <;> rfl

end Inetutils.Lib.Repeats
