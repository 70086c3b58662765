import Mathlib.Data.Nat.ModEq
import Mathlib.Algebra.BigOperators.Group.List.Basic

/-! # One's complement arithmetic

Numbers up to `n`, which are added with an end-around carry; `n` and `0` are the two zeros. -/

namespace Inetutils.Lib.OnesComplement

variable (n : ℕ)

def add (a b : ℕ) : ℕ := if a + b ≤ n then a + b else a + b - n

def total (ws : List ℕ) : ℕ := ws.foldl (add n) 0

/-- The number up to `n` that a number comes to, `0` only for `0`. -/
def rest (s : ℕ) : ℕ := if s = 0 then 0 else (s - 1) % n + 1

variable {n}

theorem rest_of_le {s : ℕ} (h : s ≤ n) : rest n s = s := by
  unfold rest
  split_ifs with hs
  · exact hs.symm
  · rw [Nat.mod_eq_of_lt (by omega), Nat.sub_add_cancel (by omega)]

theorem rest_le (hn : 0 < n) (s : ℕ) : rest n s ≤ n := by
  unfold rest
  split_ifs
  · exact Nat.zero_le n
  · exact Nat.mod_lt _ hn

theorem rest_eq_zero {s : ℕ} : rest n s = 0 ↔ s = 0 := by
  unfold rest
  by_cases hs : s = 0
  · rw [if_pos hs]
    exact iff_of_true rfl hs
  · rw [if_neg hs]
    exact iff_of_false (Nat.succ_ne_zero _) hs

theorem rest_modEq (s : ℕ) : rest n s ≡ s [MOD n] := by
  unfold rest
  split_ifs with hs
  · rw [hs]
  · have hmod := (Nat.mod_modEq (s - 1) n).add_right 1
    rwa [Nat.sub_add_cancel (by omega)] at hmod

theorem rest_congr {a b : ℕ} (h : a ≡ b [MOD n]) (hzero : a = 0 ↔ b = 0) : rest n a = rest n b := by
  unfold rest
  by_cases ha : a = 0
  · rw [if_pos ha, if_pos (hzero.1 ha)]
  · have hb : b ≠ 0 := fun hb => ha (hzero.2 hb)
    rw [if_neg ha, if_neg hb]
    have hpred : a - 1 ≡ b - 1 [MOD n] := by
      refine Nat.ModEq.add_right_cancel' 1 ?_
      rwa [Nat.sub_add_cancel (by omega), Nat.sub_add_cancel (by omega)]
    rw [show (a - 1) % n = (b - 1) % n from hpred]

theorem add_eq (hn : 0 < n) {a b : ℕ} (ha : a ≤ n) (hb : b ≤ n) : add n a b = rest n (a + b) := by
  unfold add
  split_ifs with h
  · exact (rest_of_le h).symm
  · have hle : a + b - n ≤ n := by omega
    rw [← rest_of_le hle]
    refine rest_congr ?_ (by omega)
    exact (Nat.modEq_iff_dvd' (Nat.sub_le _ _)).2 (by rw [Nat.sub_sub_self (by omega)])

theorem total_eq (hn : 0 < n) {ws : List ℕ} (h : ∀ w ∈ ws, w ≤ n) : total n ws = rest n ws.sum := by
  have hfoldl (s : ℕ) : ws.foldl (add n) (rest n s) = rest n (s + ws.sum) := by
    induction ws generalizing s with
    | nil => rfl
    | cons w ws ih =>
      have hw := h w List.mem_cons_self
      have hadd : add n (rest n s) w = rest n (s + w) := by
        rw [add_eq hn (rest_le hn s) hw]
        refine rest_congr ((rest_modEq s).add_right w) ?_
        rw [Nat.add_eq_zero_iff, Nat.add_eq_zero_iff, rest_eq_zero]
      rw [List.foldl_cons, hadd, ih fun v hv => h v (List.mem_cons_of_mem w hv),
        List.sum_cons, add_assoc]
  have hzero := hfoldl 0
  rw [zero_add] at hzero
  exact hzero

theorem rest_eq_top (hn : 0 < n) {s : ℕ} : rest n s = n ↔ 0 < s ∧ n ∣ s := by
  constructor
  · intro h
    have hmod := rest_modEq (n := n) s
    rw [h] at hmod
    refine ⟨Nat.pos_of_ne_zero fun hs => ?_, (Nat.modEq_zero_iff_dvd).1 (hmod.symm.trans ?_)⟩
    · exact absurd ((rest_eq_zero.2 hs).symm.trans h) hn.ne
    · exact Nat.modEq_zero_iff_dvd.2 (dvd_refl n)
  · rintro ⟨hpos, hdvd⟩
    have htop : n ≡ s [MOD n] :=
      (Nat.modEq_zero_iff_dvd.2 (dvd_refl n)).trans (Nat.modEq_zero_iff_dvd.2 hdvd).symm
    rw [← rest_congr htop (by omega), rest_of_le (Nat.le_refl n)]

/-- **The complement** of a sum adds up to all ones, and is not the second zero unless the sum is
the first. -/
theorem sub_rest_eq_iff (hn : 0 < n) {s w : ℕ} (hw : w ≤ n) :
    n - rest n s = w ↔ rest n (s + w) = n ∧ ¬ (w = n ∧ s ≠ 0) := by
  have hle := rest_le hn s
  have hadd : rest n (s + w) = rest n (rest n s + w) :=
    rest_congr ((rest_modEq s).symm.add_right w)
      (by rw [Nat.add_eq_zero_iff, Nat.add_eq_zero_iff, rest_eq_zero])
  rw [hadd, rest_eq_top hn]
  constructor
  · intro h
    have hsum : rest n s + w = n := by omega
    have hzero : w = n → rest n s = 0 := by omega
    exact ⟨⟨by omega, by rw [hsum]⟩, fun hother => hother.2 (rest_eq_zero.1 (hzero hother.1))⟩
  · rintro ⟨⟨hpos, k, hk⟩, hother⟩
    -- `k` is `0`, `1` or `2`
    have hk2 : k ≤ 2 := Nat.le_of_mul_le_mul_left (by omega) hn
    rcases k with - | - | k
    · omega
    · omega
    · have hk0 : k = 0 := by omega
      subst hk0
      have hwn : w = n := by omega
      refine absurd ⟨hwn, fun hs => ?_⟩ hother
      rw [rest_eq_zero.2 hs] at hk
      omega

theorem rest_fold (s : ℕ) : rest n (s / (n + 1) + s % (n + 1)) = rest n s := by
  have hsplit := Nat.div_add_mod s (n + 1)
  refine rest_congr ?_ ?_
  · have hmul : (n + 1) * (s / (n + 1)) ≡ s / (n + 1) [MOD n] := by
      rw [add_mul, one_mul]
      exact (Nat.modEq_zero_iff_dvd.2 (Nat.dvd_mul_right n _)).add_right (s / (n + 1)) |>.trans
        (by rw [zero_add])
    have hadd := hmul.add_right (s % (n + 1))
    rw [hsplit] at hadd
    exact hadd.symm
  · constructor
    · intro h
      rw [← hsplit, (Nat.add_eq_zero_iff.1 h).1, (Nat.add_eq_zero_iff.1 h).2, mul_zero]
    · rintro rfl
      rw [Nat.zero_div, Nat.zero_mod]

end Inetutils.Lib.OnesComplement
