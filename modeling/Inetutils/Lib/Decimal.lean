import Mathlib.Data.List.TakeWhile
import Mathlib.Algebra.Order.Ring.Int

/-! # Decimal numbers in a text

`decimal n` are the digits of `n` as `%d` prints them, `value acc l` is the number that reading the
digits `l` leaves when `acc` was read before. A number that is printed in front of something that is
no digit is read back, with what follows it (`takeWhile_decimal`, `dropWhile_decimal`,
`value_decimal`). -/

namespace Inetutils.Lib.Decimal

open List

def isDigit (b : UInt8) : Bool := 48 ≤ b.toNat && b.toNat ≤ 57

def digit (b : UInt8) : ℕ := b.toNat - 48

def value (acc : ℕ) (l : List UInt8) : ℕ := l.foldl (fun n b => 10 * n + digit b) acc

def decimal (n : ℕ) : List UInt8 := (Nat.toDigits 10 n).map fun d => d.toNat.toUInt8

@[simp] theorem value_nil (acc : ℕ) : value acc [] = acc := rfl

@[simp] theorem value_cons (acc : ℕ) (b : UInt8) (l : List UInt8) :
    value acc (b :: l) = value (10 * acc + digit b) l := by rw [value, foldl_cons, value]

theorem value_append (acc : ℕ) (l l' : List UInt8) : value acc (l ++ l') = value (value acc l) l' :=
  foldl_append ..

theorem digitChar_digit : ∀ d < 10, isDigit (Nat.digitChar d).toNat.toUInt8 = true ∧
    digit (Nat.digitChar d).toNat.toUInt8 = d := by decide

theorem decimal_of_lt {n : ℕ} (h : n < 10) : decimal n = [(Nat.digitChar n).toNat.toUInt8] := by
  rw [decimal, Nat.toDigits_of_lt_base h]
  rfl

theorem decimal_of_le {n : ℕ} (h : 10 ≤ n) :
    decimal n = decimal (n / 10) ++ [(Nat.digitChar (n % 10)).toNat.toUInt8] := by
  rw [decimal, Nat.toDigits_of_base_le (by omega) h, map_append]
  rfl

theorem isDigit_of_mem_decimal (n : ℕ) : ∀ b ∈ decimal n, isDigit b := by
  induction n using Nat.strong_induction_on with
  | _ n ih =>
    intro b hb
    rcases lt_or_ge n 10 with h | h
    · rw [decimal_of_lt h, mem_singleton] at hb
      rw [hb]
      exact (digitChar_digit n h).1
    · rw [decimal_of_le h, mem_append, mem_singleton] at hb
      rcases hb with hb | rfl
      · exact ih (n / 10) (by omega) b hb
      · exact (digitChar_digit (n % 10) (by omega)).1

/-- **What is printed is read back.** -/
theorem value_decimal (n : ℕ) : value 0 (decimal n) = n := by
  induction n using Nat.strong_induction_on with
  | _ n ih =>
    rcases lt_or_ge n 10 with h | h
    · rw [decimal_of_lt h, value_cons, value_nil, (digitChar_digit n h).2, mul_zero, zero_add]
    · rw [decimal_of_le h, value_append, ih (n / 10) (by omega), value_cons, value_nil,
        (digitChar_digit (n % 10) (by omega)).2]
      omega

theorem decimal_injective : Function.Injective decimal := fun m n h => by
  rw [← value_decimal m, h, value_decimal]

theorem length_decimal_mono {m n : ℕ} (h : m ≤ n) : (decimal m).length ≤ (decimal n).length := by
  induction n using Nat.strong_induction_on generalizing m with
  | _ n ih =>
    rcases Nat.lt_or_ge m 10 with hm | hm
    · rw [decimal_of_lt hm, length_singleton]
      rcases Nat.lt_or_ge n 10 with hn | hn
      · rw [decimal_of_lt hn]
        exact Nat.le_refl 1
      · rw [decimal_of_le hn, length_append]
        exact Nat.le_add_left _ _
    · rw [decimal_of_le hm, decimal_of_le (hm.trans h), length_append, length_append]
      exact Nat.succ_le_succ (ih (n / 10) (by omega) (by omega))

section
variable {b : UInt8} (hb : isDigit b = false)
include hb

theorem takeWhile_decimal (n : ℕ) (l : List UInt8) :
    (decimal n ++ b :: l).takeWhile isDigit = decimal n := by
  rw [takeWhile_append_of_pos (isDigit_of_mem_decimal n), takeWhile_cons_of_neg (by simp [hb]),
    append_nil]

theorem dropWhile_decimal (n : ℕ) (l : List UInt8) :
    (decimal n ++ b :: l).dropWhile isDigit = b :: l := by
  rw [dropWhile_append_of_pos (isDigit_of_mem_decimal n), dropWhile_cons_of_neg (by simp [hb])]

end

end Inetutils.Lib.Decimal
