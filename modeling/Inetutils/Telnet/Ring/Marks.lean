import Inetutils.Telnet.Ring.Contents

/-! # The mark and the consumer's side

A ring that holds `k` elements has `MarkAt r k j` when its mark is on the `j`-th of them (or there
is none). The mark set with `supply` at the bottom is an offset below the buffer; what it still has
of a mark is `MarkSafe`: the elements held reach the top, so that the consumer, who is told to take
everything up to the top, takes only what is there.

`ringFullCount_eq` and `ringFullConsecutive_eq` are the consumer's two counts: the elements up to
the mark, all of them when the consumer stands at it, and as many of these as lie in one piece. -/

namespace Inetutils.Telnet.Ring.Marks

open Lib.Cyclic Ring.Model Ring.Contents List

variable {j : Option ℕ}

variable {α : Type*} {r : RingBuffer α} {l : List α}

/-- The mark is on the `j`-th of the `k` elements held. -/
def MarkAt (r : RingBuffer α) (k : ℕ) : Option ℕ → Prop
  | none => r.mark = none
  | some j => j < k ∧ r.mark = some (wrap r.size (r.consume + j) : ℤ)

/-- The mark is on an element held, or below the buffer while the elements held reach the top. -/
def MarkSafe (r : RingBuffer α) (k : ℕ) : Prop :=
  (∃ j, MarkAt r k j) ∨ ∃ m : ℤ, m < -r.size ∧ r.mark = some m ∧ r.size ≤ r.consume + k

theorem MarkAt.safe {k : ℕ} (h : MarkAt r k j) : MarkSafe r k := .inl ⟨j, h⟩

/-- The elements the consumer sees: those before the mark, or all when it is at the mark. -/
def visible (k : ℕ) : Option ℕ → ℕ
  | none => k
  | some j => if j = 0 then k else j

theorem visible_le {k : ℕ} (h : MarkAt r k j) : visible k j ≤ k := by
  cases j with
  | none => exact le_rfl
  | some j =>
    have := h.1
    simp only [visible]; split_ifs <;> omega

section
variable (h : Holds r l)
include h

theorem fullCount_unmarked :
    (if ringFull r then (r.size : ℤ) else ringSubtract r r.supply r.consume) = l.length := by
  have h2 := h.length_le
  have h3 := h.supply_eq
  unfold ringSubtract
  split_ifs with hf hs
  · rw [h.ringFull_iff.mp hf]
  · have : l.length ≠ r.size := fun h0 => hf (h.ringFull_iff.mpr h0)
    unfold wrap at h3; split_ifs at h3 <;> omega
  · have : l.length ≠ r.size := fun h0 => hf (h.ringFull_iff.mpr h0)
    unfold wrap at h3; split_ifs at h3 <;> omega

theorem fullConsecutive_unmarked :
    (if r.supply < r.consume ∨ ringFull r then ringSubtract r r.size r.consume
      else ringSubtract r r.supply r.consume) = (min l.length (r.size - r.consume) : ℕ) := by
  have h1 := h.consume_lt
  have h2 := h.length_le
  have h3 := h.supply_eq
  unfold ringSubtract
  by_cases hf : ringFull r = true
  · have := h.ringFull_iff.mp hf
    rw [if_pos (.inr hf)]
    split_ifs <;> omega
  · have : l.length ≠ r.size := fun h0 => hf (h.ringFull_iff.mpr h0)
    by_cases hsc : r.supply < r.consume
    · rw [if_pos (.inl hsc)]
      unfold wrap at h3; split_ifs at h3 ⊢ <;> omega
    · rw [if_neg (by simp [hsc, hf])]
      unfold wrap at h3; split_ifs at h3 ⊢ <;> omega

theorem ringAtMark_iff (hm : MarkAt r l.length j) :
    ringAtMark r = true ↔ j = some 0 := by
  have h1 := h.consume_lt
  have h2 := h.length_le
  cases j with
  | none => simp [ringAtMark, show r.mark = none from hm]
  | some j =>
    obtain ⟨hj, he⟩ := hm
    simp only [ringAtMark, he, decide_eq_true_eq, Option.some.injEq, Nat.cast_inj]
    unfold wrap; split_ifs <;> omega

theorem ringFullCount_eq (hm : MarkAt r l.length j) :
    ringFullCount r = visible l.length j := by
  have h1 := h.consume_lt
  have h2 := h.length_le
  cases j with
  | none =>
    have he : r.mark = none := hm
    rw [ringFullCount, he]; exact fullCount_unmarked h
  | some j =>
    obtain ⟨hj, he⟩ := hm
    rw [ringFullCount, he]
    dsimp only
    by_cases h0 : j = 0
    · subst h0
      rw [if_pos (by rw [add_zero, wrap_of_lt h1])]
      exact fullCount_unmarked h
    · rw [if_neg (by unfold wrap; split_ifs <;> omega), visible, if_neg h0]
      unfold ringSubtract wrap; split_ifs <;> omega

theorem ringFullConsecutive_eq (hm : MarkAt r l.length j) :
    ringFullConsecutive r = (min (visible l.length j) (r.size - r.consume) : ℕ) := by
  have h1 := h.consume_lt
  have h2 := h.length_le
  cases j with
  | none =>
    have he : r.mark = none := hm
    rw [ringFullConsecutive, he]; exact fullConsecutive_unmarked h
  | some j =>
    obtain ⟨hj, he⟩ := hm
    rw [ringFullConsecutive, he]
    dsimp only
    by_cases h0 : j = 0
    · subst h0
      rw [if_pos (by rw [add_zero, wrap_of_lt h1])]
      exact fullConsecutive_unmarked h
    · rw [if_neg (by unfold wrap; split_ifs <;> omega), visible, if_neg h0]
      unfold ringSubtract wrap; split_ifs <;> omega

/-- **What the consumer is told to take is there, in one piece**, wherever the mark is. -/
theorem ringFullConsecutive_safe (hm : MarkSafe r l.length) :
    ∃ n : ℕ, ringFullConsecutive r = n ∧ n ≤ l.length ∧ r.consume + n ≤ r.size ∧
      (l ≠ [] → 0 < n) := by
  have h1 := h.consume_lt
  rcases hm with ⟨j, hj⟩ | ⟨m, hm0, he, hk⟩
  · have := visible_le hj
    refine ⟨_, ringFullConsecutive_eq h hj, by omega, by omega, fun hne => ?_⟩
    have := length_pos_of_ne_nil hne
    cases j with
    | none => simp only [visible]; omega
    | some j => simp only [visible]; split_ifs <;> omega
  · refine ⟨r.size - r.consume, ?_, by omega, by omega, fun _ => by omega⟩
    rw [ringFullConsecutive, he]
    dsimp only
    rw [if_neg (by omega), if_pos (by omega), ringSubtract, if_pos (by omega)]
    omega

theorem read_consume {n : ℕ} (hn : n ≤ l.length) (hend : r.consume + n ≤ r.size) :
    read r.buf r.consume n = l.take n := by
  rw [← window_eq_read _ hend, ← take_window _ h.consume_lt hn h.length_le, h.window_eq]

/-! ### What the operations do to the mark -/

theorem markAt_ringMark (hs : r.supply ≠ 0) (hne : l ≠ []) :
    MarkAt (ringMark r) l.length (some (l.length - 1)) := by
  have h3 := h.supply_eq
  have := length_pos_of_ne_nil hne
  refine ⟨by omega, ?_⟩
  show some (ringDecrement r r.supply 1) = some _
  rw [ringDecrement, if_pos (by omega)]
  show some _ = some ((wrap r.size (r.consume + (l.length - 1)) : ℕ) : ℤ)
  congr 1
  unfold wrap at h3 ⊢; split_ifs at h3 ⊢ <;> omega

theorem markSafe_ringMark (hne : l ≠ []) : MarkSafe (ringMark r) l.length := by
  by_cases hs : r.supply = 0
  · have h1 := h.consume_lt
    have h3 := h.supply_eq
    have := length_pos_of_ne_nil hne
    refine .inr ⟨ringDecrement r r.supply 1, ?_, rfl, ?_⟩
    · show ringDecrement r r.supply 1 < -r.size
      rw [ringDecrement, if_neg (by omega)]; omega
    · show r.size ≤ r.consume + l.length
      unfold wrap at h3; split_ifs at h3 <;> omega
  · exact (markAt_ringMark h hs hne).safe

omit h in
theorem MarkAt.congr {r' : RingBuffer α} {k k' : ℕ} (hm : MarkAt r k j)
    (hmark : r'.mark = r.mark) (hsize : r'.size = r.size) (hcons : r'.consume = r.consume)
    (hk : k ≤ k') : MarkAt r' k' j := by
  cases j with
  | none => exact hmark.trans hm
  | some j =>
    refine ⟨hm.1.trans_le hk, ?_⟩
    rw [hmark, hsize, hcons]; exact hm.2

omit h in
theorem MarkSafe.congr {r' : RingBuffer α} {k k' : ℕ} (hm : MarkSafe r k)
    (hmark : r'.mark = r.mark) (hsize : r'.size = r.size) (hcons : r'.consume = r.consume)
    (hk : k ≤ k') : MarkSafe r' k' := by
  rcases hm with ⟨j, hj⟩ | ⟨m, h0, he, hk'⟩
  · exact (hj.congr hmark hsize hcons hk).safe
  · exact .inr ⟨m, by rw [hsize]; exact h0, hmark.trans he, by rw [hsize, hcons]; omega⟩

theorem passesMark_eq (hm : MarkAt r l.length j) (n : ℕ) :
    passesMark r n = true ↔ ∃ i, j = some i ∧ i < n := by
  have h2 := h.length_le
  cases j with
  | none => simp [passesMark, show r.mark = none from hm]
  | some j =>
    obtain ⟨hj, he⟩ := hm
    have : ringSubtract r (wrap r.size (r.consume + j) : ℕ) r.consume = j := by
      unfold ringSubtract wrap; split_ifs <;> omega
    simp [passesMark, he, this]

end

theorem ringConsumed_mark (r : RingBuffer α) {n : ℕ} (hn : n ≠ 0) :
    (ringConsumed r n).mark = if passesMark r n then none else r.mark := by
  unfold ringConsumed; rw [if_neg hn]; dsimp only; split_ifs <;> rfl

/-- **The mark moves up with the consumer, and goes when its element is taken.** -/
theorem markAt_ringConsumed (h : Holds r l) {n : ℕ} (hn : n ≤ l.length)
    (hclock : r.clock + 1 < ulongSize) (hm : MarkAt r l.length j) :
    MarkAt (ringConsumed r n) (l.drop n).length ((j.filter (n ≤ ·)).map (· - n)) := by
  have h1 := h.consume_lt
  have h2 := h.length_le
  rcases Nat.eq_zero_or_pos n with rfl | hpos
  · rw [Holds.ringConsumed_zero, drop_zero]
    cases j <;> simpa [Option.filter] using hm
  have hmark := ringConsumed_mark r (n := n) (by omega)
  have hp := passesMark_eq h hm n
  cases j with
  | none =>
    rw [show r.mark = none from hm, ite_self] at hmark
    exact hmark
  | some j =>
    obtain ⟨hj, he⟩ := hm
    by_cases hnj : n ≤ j
    · have hlen : (l.drop n).length = l.length - n := length_drop
      have hne : l.drop n ≠ [] := ne_nil_of_length_pos (by omega)
      have hnp : ¬ passesMark r n = true := by rw [hp]; simpa using hnj
      simp only [Option.filter, hnj, decide_true, if_true, Option.map_some]
      refine ⟨by omega, ?_⟩
      rw [hmark, if_neg hnp, he, Holds.ringConsumed_size, h.ringConsumed_consume hn hclock hne,
        wrap_wrap_add h1 (by omega), add_assoc, Nat.add_sub_cancel' hnj]
    · have hpm : passesMark r n = true := hp.mpr ⟨j, rfl, by omega⟩
      simp only [Option.filter, hnj, decide_false, Bool.false_eq_true, if_false, Option.map_none]
      exact hmark.trans (if_pos hpm)

theorem markSafe_ringConsumed (h : Holds r l) {n : ℕ} (hn : n ≤ l.length)
    (hclock : r.clock + 1 < ulongSize) (hm : MarkSafe r l.length) :
    MarkSafe (ringConsumed r n) (l.drop n).length := by
  rcases hm with ⟨j, hj⟩ | ⟨m, h0, he, hk⟩
  · exact (markAt_ringConsumed h hn hclock hj).safe
  · rcases Nat.eq_zero_or_pos n with rfl | hpos
    · rw [Holds.ringConsumed_zero, drop_zero]; exact .inr ⟨m, h0, he, hk⟩
    · refine .inl ⟨none, (ringConsumed_mark r (by omega)).trans (if_pos ?_)⟩
      have : ringSubtract r m r.consume < n := by unfold ringSubtract; split_ifs <;> omega
      simp [passesMark, he, this]

end Inetutils.Telnet.Ring.Marks
