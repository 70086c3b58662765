import Mathlib.Algebra.Order.Ring.Int
import Mathlib.Data.List.TakeDrop

/-! # A list in blocks

`block n l k` is the block number `k`, from 0, of `n` elements; the last of the `count n l` blocks
is the first one that is shorter, so it is empty where `n` divides the length. -/

namespace Inetutils.Lib.Blocks

variable {α : Type*} {n : ℕ}

def block (n : ℕ) (l : List α) (k : ℕ) : List α := (l.drop (n * k)).take n

def count (n : ℕ) (l : List α) : ℕ := l.length / n + 1

def blocks (n : ℕ) (l : List α) : List (List α) := (List.range (count n l)).map (block n l)

@[simp] theorem length_blocks (l : List α) : (blocks n l).length = count n l := by simp [blocks]

theorem length_block (l : List α) (k : ℕ) : (block n l k).length = min n (l.length - n * k) := by
  simp [block]

theorem length_block_eq_iff (hn : 0 < n) (l : List α) (k : ℕ) :
    (block n l k).length = n ↔ k + 1 < count n l := by
  have hdiv : k + 1 ≤ l.length / n ↔ (k + 1) * n ≤ l.length := Nat.le_div_iff_mul_le hn
  rw [Nat.add_one_mul, mul_comm] at hdiv
  rw [length_block, count, Nat.succ_lt_succ_iff, Nat.lt_iff_add_one_le, hdiv]
  omega

theorem flatten_map_block (l : List α) (m : ℕ) :
    ((List.range m).map (block n l)).flatten = l.take (n * m) := by
  induction m with
  | zero => simp
  | succ m ih =>
    rw [List.range_succ, List.map_append, List.flatten_append, ih, Nat.mul_succ, List.take_add]
    simp [block]

theorem flatten_blocks (hn : 0 < n) (l : List α) : (blocks n l).flatten = l := by
  rw [blocks, flatten_map_block, count]
  refine List.take_of_length_le (le_of_lt ?_)
  have := Nat.lt_mul_div_succ l.length hn
  omega

end Inetutils.Lib.Blocks
