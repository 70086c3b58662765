import Mathlib.Data.BitVec

/-! # A table of bits

Bits kept eight to a byte, the lowest one first. What a bit is after one was set or cleared is all
there is to know of the table. -/

namespace Inetutils.Lib.Bits

abbrev Table := List (BitVec 8)

def mask (n : ℕ) : BitVec 8 := 1#8 <<< (n % 8)

def byte (t : Table) (n : ℕ) : BitVec 8 := t.getD (n / 8) 0

def setBit (t : Table) (n : ℕ) : Table := t.set (n / 8) (byte t n ||| mask n)

def clearBit (t : Table) (n : ℕ) : Table := t.set (n / 8) (byte t n &&& ~~~mask n)

def testBit (t : Table) (n : ℕ) : Bool := byte t n &&& mask n != 0

theorem getLsbD_mask (n i : ℕ) : (mask n).getLsbD i = decide (i = n % 8) := by
  rw [mask, BitVec.getLsbD_shiftLeft, Bool.eq_iff_iff]
  simp only [BitVec.getLsbD_one, Bool.and_eq_true, Bool.not_eq_true', decide_eq_true_eq,
    decide_eq_false_iff_not]
  omega

theorem and_mask_ne_zero (b : BitVec 8) (n : ℕ) : (b &&& mask n != 0) = b.getLsbD (n % 8) := by
  rw [Bool.eq_iff_iff, bne_iff_ne]
  constructor
  · intro hne
    by_contra hb
    refine hne (BitVec.eq_of_getLsbD_eq fun i _ => ?_)
    rw [BitVec.getLsbD_and, getLsbD_mask,
      show BitVec.getLsbD (0 : BitVec 8) i = false from BitVec.getLsbD_zero]
    by_cases hi : i = n % 8
    · rw [hi, Bool.eq_false_iff.2 hb, Bool.false_and]
    · rw [decide_eq_false hi, Bool.and_false]
  · intro hb h0
    have hbit : (b &&& mask n).getLsbD (n % 8) = false := by
      rw [h0]
      exact BitVec.getLsbD_zero
    rw [BitVec.getLsbD_and, getLsbD_mask, hb, decide_eq_true rfl] at hbit
    exact Bool.noConfusion hbit

theorem testBit_eq (t : Table) (n : ℕ) : testBit t n = (byte t n).getLsbD (n % 8) :=
  and_mask_ne_zero _ _

variable {t : Table} {n : ℕ}

theorem byte_set (h : n / 8 < t.length) (b : BitVec 8) (m : ℕ) :
    byte (t.set (n / 8) b) m = if m / 8 = n / 8 then b else byte t m := by
  unfold byte
  rw [List.getD_eq_getElem?_getD, List.getD_eq_getElem?_getD, List.getElem?_set]
  split_ifs with h1 h2 h3
  · rfl
  · exact absurd h1.symm h2
  · exact absurd h3.symm h1
  · rfl

theorem testBit_setBit (h : n / 8 < t.length) (m : ℕ) :
    testBit (setBit t n) m = (decide (m = n) || testBit t m) := by
  rw [testBit_eq, testBit_eq, setBit, byte_set h]
  have hsplit : m = n ↔ m / 8 = n / 8 ∧ m % 8 = n % 8 := by omega
  split_ifs with hbyte
  · have hsame : byte t m = byte t n := by rw [byte, byte, hbyte]
    rw [BitVec.getLsbD_or, getLsbD_mask, Bool.or_comm, hsame, Bool.eq_iff_iff]
    simp [hsplit, hbyte]
  · rw [decide_eq_false (fun hmn => hbyte (hsplit.1 hmn).1), Bool.false_or]

theorem testBit_clearBit (h : n / 8 < t.length) (m : ℕ) :
    testBit (clearBit t n) m = (!decide (m = n) && testBit t m) := by
  rw [testBit_eq, testBit_eq, clearBit, byte_set h]
  have hlt := Nat.mod_lt m (show 0 < 8 by decide)
  have hsplit : m = n ↔ m / 8 = n / 8 ∧ m % 8 = n % 8 := by omega
  split_ifs with hbyte
  · have hsame : byte t m = byte t n := by rw [byte, byte, hbyte]
    rw [BitVec.getLsbD_and, BitVec.getLsbD_not, getLsbD_mask, Bool.and_comm, hsame, Bool.eq_iff_iff]
    simp [hsplit, hbyte, hlt]
  · rw [decide_eq_false (fun hmn => hbyte (hsplit.1 hmn).1), Bool.not_false, Bool.true_and]

theorem length_setBit (t : Table) (n : ℕ) : (setBit t n).length = t.length := List.length_set

theorem length_clearBit (t : Table) (n : ℕ) : (clearBit t n).length = t.length := List.length_set

end Inetutils.Lib.Bits
