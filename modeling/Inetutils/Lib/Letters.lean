import Mathlib.Data.List.Basic

/-! # Letters

Upper and lower case of the letters of ASCII, strings that are equal but for the case, and white
space. -/

namespace Inetutils.Lib.Letters

def isupper (c : UInt8) : Bool := 65 ≤ c && c ≤ 90

def tolower (c : UInt8) : UInt8 := if isupper c then c + 32 else c

def isspace (c : UInt8) : Bool := c = 32 || 9 ≤ c && c ≤ 13

def sameCase (s t : List UInt8) : Bool := s.map tolower == t.map tolower

theorem tolower_ne_zero {c : UInt8} (h : c ≠ 0) : tolower c ≠ 0 := by
  intro hzero
  unfold tolower at hzero
  split at hzero
  next hup =>
    rw [isupper, Bool.and_eq_true, decide_eq_true_eq, decide_eq_true_eq, UInt8.le_iff_toNat_le,
      UInt8.le_iff_toNat_le] at hup
    have hnat := congrArg UInt8.toNat hzero
    rw [UInt8.toNat_add] at hnat
    change (c.toNat + 32) % 256 = 0 at hnat
    change 65 ≤ c.toNat ∧ c.toNat ≤ 90 at hup
    omega
  next => exact h hzero

end Inetutils.Lib.Letters
