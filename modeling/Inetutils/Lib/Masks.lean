import Mathlib.Data.BitVec

/-! # Masks

Words agree on the bits of a mask. A test by a mask compares the word under the mask with one
word. -/

namespace Inetutils.Lib.Masks

variable {w : ℕ}

/-- The first `n` bits. -/
def leading (w n : ℕ) : BitVec w := ~~~(BitVec.allOnes w >>> n)

/-- `x` and `y` agree on the bits of `m`. -/
def Agree (m x y : BitVec w) : Prop := ∀ i < w, m.getLsbD i → x.getLsbD i = y.getLsbD i

theorem agree_iff_and {m x y : BitVec w} : Agree m x y ↔ x &&& m = y &&& m := by
  constructor
  · intro h
    refine BitVec.eq_of_getLsbD_eq fun i hi => ?_
    rw [BitVec.getLsbD_and, BitVec.getLsbD_and]
    by_cases hm : m.getLsbD i
    · rw [h i hi hm]
    · rw [Bool.eq_false_of_not_eq_true hm, Bool.and_false, Bool.and_false]
  · intro h i hi hm
    have hbit := congrArg (·.getLsbD i) h
    simpa only [BitVec.getLsbD_and, hm, Bool.and_true] using hbit

theorem getMsbD_leading (n i : ℕ) : (leading w n).getMsbD i = decide (i < n ∧ i < w) := by
  unfold leading
  rw [BitVec.getMsbD_not, BitVec.getMsbD_ushiftRight, BitVec.getMsbD_allOnes]
  by_cases hw : i < w <;> by_cases hn : i < n <;> simp [hw, hn]
  omega

theorem leading_inj {n k : ℕ} (hn : n ≤ w) (hk : k ≤ w) : leading w n = leading w k ↔ n = k := by
  constructor
  · intro h
    have hbit := fun i => congrArg (·.getMsbD i) h
    simp only [getMsbD_leading, decide_eq_decide] at hbit
    have := hbit n
    have := hbit k
    omega
  · exact congrArg _

theorem leading_eq_shift {n : ℕ} (h : n ≤ w) :
    (BitVec.allOnes w >>> (w - n)) <<< (w - n) = leading w n := by
  refine BitVec.eq_of_getMsbD_eq fun i hi => ?_
  rw [getMsbD_leading, BitVec.getMsbD_shiftLeft, BitVec.getMsbD_ushiftRight, BitVec.getMsbD_allOnes]
  by_cases hn : i < n
  · simp [hn, hi]
    omega
  · simp [hn]
    omega

theorem agree_flip_iff {m x : BitVec w} {i : ℕ} (hi : i < w) :
    Agree m (x ^^^ BitVec.twoPow w i) x ↔ m.getLsbD i = false := by
  have hbit : ∀ j, (x ^^^ BitVec.twoPow w i).getLsbD j = (x.getLsbD j ^^ decide (i = j)) :=
    fun j => by
    rw [BitVec.getLsbD_xor, BitVec.getLsbD_twoPow, decide_eq_true hi, Bool.true_and]
  constructor
  · intro h
    refine Bool.eq_false_iff.2 fun hm => ?_
    have hflip := h i hi hm
    rw [hbit, decide_eq_true rfl, Bool.xor_true] at hflip
    exact Bool.not_ne_self _ hflip
  · intro hm j _ hmj
    have hne : i ≠ j := fun he => by
      rw [he, hmj] at hm
      exact Bool.noConfusion hm
    rw [hbit, decide_eq_false hne, Bool.xor_false]

/-- **A test by a mask** tells the words that agree with `a` on `m`, just in case it is by `m` and
`a` has no bit beside it. -/
theorem test_iff_agree {a m m' : BitVec w} :
    (∀ x, a = x &&& m' ↔ Agree m x a) ↔ m' = m ∧ a &&& m = a := by
  constructor
  · intro h
    have hself : a &&& m' = a := ((h a).2 fun _ _ _ => rfl).symm
    have hagree : ∀ x, Agree m' x a ↔ Agree m x a :=
      fun x => by rw [agree_iff_and, hself, ← h x, eq_comm]
    have hm : m' = m := BitVec.eq_of_getLsbD_eq fun i hi => by
      rw [Bool.eq_iff_iff, ← not_iff_not, Bool.not_eq_true, Bool.not_eq_true,
        ← agree_flip_iff (x := a) hi, hagree, agree_flip_iff hi]
    exact ⟨hm, hm ▸ hself⟩
  · rintro ⟨rfl, ha⟩ x
    rw [agree_iff_and, ha]
    exact eq_comm

end Inetutils.Lib.Masks
