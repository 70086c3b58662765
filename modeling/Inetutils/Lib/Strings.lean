import Mathlib.Data.List.TakeWhile

/-! # Strings in buffers

A buffer is a list of symbols, and a string in it ends at the first `z`. `strncpy` and `strcpy` copy
a string over the beginning of a buffer. -/

namespace Inetutils.Lib.Strings

open List

variable {β : Type*} [DecidableEq β] (z : β)

def str (l : List β) : List β := l.takeWhile (· ≠ z)

/-- At most `n` symbols, filled up with `z`. -/
def strncpy (dst src : List β) (n : ℕ) : List β :=
  (str z src).take n ++ List.replicate (n - (str z src).length) z ++ dst.drop n

def strcpy (dst src : List β) : List β := str z src ++ z :: dst.drop ((str z src).length + 1)

variable {z}

theorem ne_of_mem_str {l : List β} {b : β} (h : b ∈ str z l) : b ≠ z := by
  have hp := mem_takeWhile_imp h
  exact of_decide_eq_true hp

theorem str_append {x : List β} (hx : ∀ b ∈ x, b ≠ z) (l : List β) :
    str z (x ++ l) = x ++ str z l :=
  takeWhile_append_of_pos fun b hb => decide_eq_true (hx b hb)

theorem str_of_head {l : List β} (h : ∀ b ∈ l.head?, b = z) : str z l = [] := by
  rcases l with - | ⟨b, l⟩
  · rfl
  · obtain rfl : b = z := h b rfl
    simp [str]

theorem str_strcpy (dst src : List β) : str z (strcpy z dst src) = str z src := by
  unfold strcpy
  rw [str_append fun b hb => ne_of_mem_str hb]
  refine append_right_eq_self.2 (str_of_head fun b hb => ?_)
  exact (Option.some.inj hb).symm

theorem str_strncpy {dst : List β} {n : ℕ} (src : List β) (h : ∀ b ∈ (dst.drop n).head?, b = z) :
    str z (strncpy z dst src n) = (str z src).take n := by
  unfold strncpy
  rw [append_assoc, str_append fun b hb => ne_of_mem_str (mem_of_mem_take hb)]
  refine append_right_eq_self.2 (str_of_head fun b hb => ?_)
  rcases hk : n - (str z src).length with - | k
  · rw [hk] at hb
    exact h b hb
  · rw [hk] at hb
    exact (Option.some.inj hb).symm

theorem drop_strncpy (dst src : List β) (n : ℕ) : (strncpy z dst src n).drop n = dst.drop n := by
  refine drop_left' ?_
  rw [length_append, length_take, length_replicate]
  omega

end Inetutils.Lib.Strings
