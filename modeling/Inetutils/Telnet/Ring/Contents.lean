import Inetutils.Telnet.Ring.Model
import Mathlib.Algebra.Order.Ring.Int

/-! # What a ring holds

`Holds r l`: the ring `r` holds the elements `l`, oldest first. They lie in the buffer from
`consume` on, round the end; full and empty, where the pointers are equal, are told apart by the
times; an empty ring has its pointers at the bottom.

`MarkAt r k j` places the mark at the `j`-th of `k` elements held. `MarkSafe r k` is what is left of
it when the mark may have been set with `supply` at the bottom: then it lies below the buffer, and
the elements held reach the top.

Each operation has one lemma that says what it does to `Holds`, and each count one that says what it
counts. -/

namespace Inetutils.Telnet.Ring.Contents

open Lib.Cyclic Ring.Model List

variable {α : Type*} {r : RingBuffer α} {l : List α}

/-- **The ring `r` holds `l`.** -/
structure Holds (r : RingBuffer α) (l : List α) : Prop where
  consume_lt : r.consume < r.size
  length_le : l.length ≤ r.size
  supply_eq : r.supply = wrap r.size (r.consume + l.length)
  window_eq : window r.buf r.size r.consume l.length = l
  consumetime_le : r.consumetime ≤ r.clock
  supplytime_le : r.supplytime ≤ r.clock
  clock_lt : r.clock < ulongSize
  full : l.length = r.size → r.consumetime < r.supplytime
  empty : l = [] → r.supplytime ≤ r.consumetime ∧ r.consume = 0

theorem holds_ringInit (buf : ℕ → α) {count clock : ℕ} (h : 0 < count) (hc : clock < ulongSize) :
    Holds (ringInit buf count clock) [] where
  consume_lt := h
  length_le := Nat.zero_le _
  supply_eq := (wrap_of_lt h).symm
  window_eq := rfl
  consumetime_le := Nat.zero_le _
  supplytime_le := Nat.zero_le _
  clock_lt := hc
  full h0 := by have : 0 = count := h0; omega
  empty _ := ⟨le_rfl, rfl⟩

structure SuppliedFrom (r r' : RingBuffer α) : Prop where
  consume : r'.consume = r.consume
  mark : r'.mark = r.mark
  clearto : r'.clearto = r.clearto
  size : r'.size = r.size

theorem ringPut_suppliedFrom (l' : List α) : SuppliedFrom r (ringPut r l') :=
  ⟨rfl, rfl, rfl, rfl⟩

theorem SuppliedFrom.trans {r1 r2 r3 : RingBuffer α} (h : SuppliedFrom r1 r2)
    (h' : SuppliedFrom r2 r3) : SuppliedFrom r1 r3 :=
  ⟨h'.consume.trans h.consume, h'.mark.trans h.mark, h'.clearto.trans h.clearto,
    h'.size.trans h.size⟩

theorem Holds.congr (h : Holds r l) (m : Option ℤ) (c : Option ℕ) :
    Holds { r with mark := m, clearto := c } l :=
  ⟨h.consume_lt, h.length_le, h.supply_eq, h.window_eq, h.consumetime_le, h.supplytime_le,
    h.clock_lt, h.full, h.empty⟩

variable {l' : List α}

theorem Holds.setBuf (h : Holds r l) {m : ℕ → α} (hl : l'.length = l.length)
    (hw : window m r.size r.consume l'.length = l') : Holds { r with buf := m } l' :=
  ⟨h.consume_lt, hl ▸ h.length_le, hl ▸ h.supply_eq, hw, h.consumetime_le, h.supplytime_le,
    h.clock_lt, fun h0 => h.full (hl ▸ h0),
    fun h0 => h.empty (length_eq_zero_iff.mp (by rw [← hl, h0]; rfl))⟩

theorem Holds.tick (h : Holds r l) (hc : r.clock + 1 < ulongSize) : Holds (ringTick r) l :=
  ⟨h.consume_lt, h.length_le, h.supply_eq, h.window_eq, Nat.le_succ_of_le h.consumetime_le,
    Nat.le_succ_of_le h.supplytime_le, hc, h.full, h.empty⟩

namespace Holds

theorem supply_lt (h : Holds r l) : r.supply < r.size := by
  have h1 := h.consume_lt
  have h2 := h.length_le
  rw [h.supply_eq]; exact wrap_lt (by omega)

theorem ulong_consumetime (h : Holds r l) : ulong r.consumetime = r.consumetime :=
  ulong_of_lt (lt_of_le_of_lt h.consumetime_le h.clock_lt)

theorem ulong_supplytime (h : Holds r l) : ulong r.supplytime = r.supplytime :=
  ulong_of_lt (lt_of_le_of_lt h.supplytime_le h.clock_lt)

theorem supply_eq_consume (h : Holds r l) :
    r.supply = r.consume ↔ l = [] ∨ l.length = r.size := by
  have h1 := h.consume_lt
  rw [h.supply_eq, ← length_eq_zero_iff]
  unfold wrap; split_ifs <;> omega

theorem ringEmpty_iff (h : Holds r l) : ringEmpty r = true ↔ l = [] := by
  simp only [ringEmpty, h.ulong_consumetime, h.ulong_supplytime, decide_eq_true_eq]
  rw [eq_comm, h.supply_eq_consume]
  constructor
  · rintro ⟨h0 | h0, ht⟩
    · exact h0
    · have := h.full h0; omega
  · intro h0
    exact ⟨.inl h0, (h.empty h0).1⟩

theorem ringFull_iff (h : Holds r l) : ringFull r = true ↔ l.length = r.size := by
  simp only [ringFull, h.ulong_consumetime, h.ulong_supplytime, decide_eq_true_eq,
    h.supply_eq_consume]
  constructor
  · rintro ⟨h0 | h0, ht⟩
    · have := (h.empty h0).1; omega
    · exact h0
  · intro h0
    exact ⟨.inr h0, h.full h0⟩

theorem window_append {l1 l2 : List α} (h : Holds r (l1 ++ l2)) :
    window r.buf r.size r.consume l1.length = l1 ∧
      window r.buf r.size (wrap r.size (r.consume + l1.length)) l2.length = l2 := by
  have h2 := h.length_le
  have hw := h.window_eq
  rw [length_append] at h2 hw
  rw [window_add _ h.consume_lt h2] at hw
  exact append_inj hw (by simp)

/-! ### The room -/

theorem ringEmptyCount_eq (h : Holds r l) : ringEmptyCount r = (r.size - l.length : ℕ) := by
  have h2 := h.length_le
  have h3 := h.supply_eq
  unfold ringEmptyCount ringSubtract
  split_ifs with he hs
  · rw [h.ringEmpty_iff.mp he]; simp
  · have hf : l.length = r.size ∨ r.size ≤ r.consume + l.length := by
      have : l ≠ [] := fun h0 => he (h.ringEmpty_iff.mpr h0)
      have := length_pos_of_ne_nil this
      unfold wrap at h3; split_ifs at h3 <;> omega
    unfold wrap at h3; split_ifs at h3 <;> omega
  · unfold wrap at h3; split_ifs at h3 <;> omega

theorem ringEmptyConsecutive_eq (h : Holds r l) :
    ringEmptyConsecutive r = (min (r.size - l.length) (r.size - r.supply) : ℕ) := by
  have h1 := h.consume_lt
  have h2 := h.length_le
  have h3 := h.supply_eq
  unfold ringEmptyConsecutive ringSubtract
  by_cases he : l = []
  · have := (h.empty he).2
    subst he
    have hs : r.supply = 0 := by rw [h3, this]; exact wrap_of_lt (by simp; omega)
    rw [if_pos (.inr (h.ringEmpty_iff.mpr rfl)), hs]
    simp
  · have hpos := length_pos_of_ne_nil he
    have hne : ¬ ringEmpty r = true := fun h0 => he (h.ringEmpty_iff.mp h0)
    by_cases hcs : r.consume < r.supply
    · rw [if_pos (.inl hcs)]
      unfold wrap at h3; split_ifs at h3 ⊢ <;> omega
    · rw [if_neg (by simp [hcs, hne])]
      unfold wrap at h3; split_ifs at h3 ⊢ <;> omega

/-! ### Supplying -/

/-- **Putting consecutive elements in the room.** -/
theorem ringPut (h : Holds r l) (hne : l' ≠ []) (hlen : (l'.length : ℤ) ≤ ringEmptyConsecutive r)
    (hclock : r.clock + 1 < ulongSize) : Holds (ringPut r l') (l ++ l') := by
  have h1 := h.consume_lt
  rw [h.ringEmptyConsecutive_eq] at hlen
  have hpos := length_pos_of_ne_nil hne
  have hroom : l.length + l'.length ≤ r.size := by omega
  have hend : r.supply + l'.length ≤ r.size := by omega
  refine ⟨h1, by rw [length_append]; exact hroom, ?_, ?_, ?_, le_rfl, hclock, fun _ => ?_,
    fun h0 => ?_⟩
  · show wrap r.size (r.supply + l'.length) = wrap r.size (r.consume + (l ++ l').length)
    rw [h.supply_eq, wrap_wrap_add h1 hroom, length_append, add_assoc]
  · show window (write r.buf r.supply l') r.size r.consume (l ++ l').length = l ++ l'
    rw [h.supply_eq] at hend ⊢
    rw [length_append, window_write _ _ h1 hend hroom, h.window_eq]
  · exact Nat.le_succ_of_le h.consumetime_le
  · exact Nat.lt_succ_of_le h.consumetime_le
  · exact absurd (append_eq_nil_iff.mp h0).2 hne

theorem supplyLoop_fits (hne : l' ≠ []) (hlen : (l'.length : ℤ) ≤ ringEmptyConsecutive r)
    (fuel : ℕ) :
    supplyLoop (fuel + 1) r l' = some (Model.ringPut r l') := by
  rw [supplyLoop_succ _ hne, min_eq_left hlen, Int.toNat_natCast, take_length,
    drop_length]
  cases fuel <;> rfl

theorem supply_ringPut_top (h : Holds r l) (hlen : l'.length = r.size - r.supply) :
    (Model.ringPut r l').supply = 0 := by
  have h4 := h.supply_lt
  show wrap r.size (r.supply + l'.length) = 0
  rw [wrap_of_le (by omega)]; omega

/-- **`ring_supply_data` of no more than the room ends, and appends.** -/
theorem ringSupplyData (h : Holds r l) (hroom : (l'.length : ℤ) ≤ ringEmptyCount r)
    (hclock : r.clock + 2 < ulongSize) :
    ∃ r', Model.ringSupplyData r l' = some r' ∧ Holds r' (l ++ l') ∧ SuppliedFrom r r' ∧
      r'.clock ≤ r.clock + 2 := by
  rcases eq_or_ne l' [] with rfl | hne
  · exact ⟨r, rfl, by simpa using h, ⟨rfl, rfl, rfl, rfl⟩, Nat.le_add_right _ _⟩
  have h4 := h.supply_lt
  have hcons := h.ringEmptyConsecutive_eq
  have hpos := length_pos_of_ne_nil hne
  obtain ⟨fuel, hfuel⟩ : ∃ fuel, l'.length = fuel + 1 := ⟨l'.length - 1, by omega⟩
  unfold Model.ringSupplyData
  by_cases hfit : (l'.length : ℤ) ≤ ringEmptyConsecutive r
  · rw [hfuel, supplyLoop_fits hne hfit]
    exact ⟨_, rfl, h.ringPut hne hfit (by omega), ringPut_suppliedFrom _, Nat.le_succ _⟩
  -- the first turn fills up to the top, the second puts the rest at the bottom
  rw [h.ringEmptyCount_eq] at hroom
  set i := r.size - r.supply with hi
  have hec : ringEmptyConsecutive r = i := by omega
  have htake : (l'.take i).length = i := length_take_of_le (by omega)
  have hfst : l'.take i ≠ [] := ne_nil_of_length_pos (by omega)
  have hput := h.ringPut hfst (by rw [htake, hec]) (by omega)
  have hsup := h.supply_ringPut_top htake
  have hrest : l'.drop i ≠ [] := ne_nil_of_length_pos (by rw [length_drop]; omega)
  have hfit' : ((l'.drop i).length : ℤ) ≤ ringEmptyConsecutive (Model.ringPut r (l'.take i)) := by
    rw [hput.ringEmptyConsecutive_eq, hsup, length_append, htake, length_drop]
    show _ ≤ ((min (r.size - _) (r.size - 0) : ℕ) : ℤ)
    omega
  obtain ⟨fuel', rfl⟩ : ∃ f, fuel = f + 1 := ⟨fuel - 1, by omega⟩
  have hloop : supplyLoop l'.length r l' =
      some (Model.ringPut (Model.ringPut r (l'.take i)) (l'.drop i)) := by
    rw [← supplyLoop_fits hrest hfit' fuel', hfuel, supplyLoop_succ _ hne, hec,
      min_eq_right (by omega), Int.toNat_natCast]
  have hend := hput.ringPut hrest hfit' (by show r.clock + 1 + 1 < _; omega)
  rw [append_assoc, take_append_drop] at hend
  exact ⟨_, hloop, hend, (ringPut_suppliedFrom _).trans (ringPut_suppliedFrom _), le_rfl⟩

/-! ### Consuming -/

theorem ringConsumed_zero (r : RingBuffer α) : Model.ringConsumed r 0 = r := rfl

theorem ringConsumed_size (r : RingBuffer α) (n : ℕ) : (Model.ringConsumed r n).size = r.size := by
  unfold Model.ringConsumed; dsimp only; split_ifs <;> rfl

theorem ringConsumed (h : Holds r l) {n : ℕ} (hn : n ≤ l.length)
    (hclock : r.clock + 1 < ulongSize) :
    Holds (Model.ringConsumed r n) (l.drop n) := by
  have h1 := h.consume_lt
  have h2 := h.length_le
  rcases Nat.eq_zero_or_pos n with rfl | hpos
  · rw [ringConsumed_zero]; exact h
  unfold Model.ringConsumed
  rw [if_neg (by omega)]
  set r1 : RingBuffer α :=
    { r with
      mark := if passesMark r n then none else r.mark
      clearto := clearedTo r n
      consume := ringIncrement r r.consume n
      consumetime := r.clock + 1
      clock := r.clock + 1 } with hr1
  have hwin : window r.buf r.size (wrap r.size (r.consume + n)) (l.drop n).length = l.drop n := by
    rw [length_drop, ← drop_window _ h1 hn h2, h.window_eq]
  have hlen : (l.drop n).length = l.length - n := length_drop
  have hsup : r.supply = wrap r.size (wrap r.size (r.consume + n) + (l.drop n).length) := by
    rw [hlen, wrap_wrap_add h1 (by omega), h.supply_eq]
    congr 1; omega
  have hcon : wrap r.size (r.consume + n) < r.size := wrap_lt (by omega)
  have hst : r.supplytime ≤ r.clock + 1 := Nat.le_succ_of_le h.supplytime_le
  by_cases hnil : l.drop n = []
  · have hemp : ringEmpty r1 = true := by
      have hpp : r1.consume = r1.supply := by
        rw [hsup, hnil]; exact (wrap_of_lt hcon).symm
      simp only [ringEmpty, hpp, decide_eq_true_eq, true_and]
      rw [ulong_of_lt hclock, h.ulong_supplytime]; exact hst
    rw [if_pos hemp, hnil]
    exact ⟨by show 0 < r.size; omega, Nat.zero_le _,
      (wrap_of_lt (show 0 < r.size by omega)).symm, rfl, le_rfl, hst, hclock,
      fun h0 => by have h0 : 0 = r.size := h0; omega, fun _ => ⟨hst, rfl⟩⟩
  · have hpos' := length_pos_of_ne_nil hnil
    have hne : ¬ ringEmpty r1 = true := by
      simp only [ringEmpty, decide_eq_true_eq, not_and]
      intro h0
      have h0 : wrap r.size (r.consume + n) = r.supply := h0
      rw [hsup] at h0
      unfold wrap at h0; split_ifs at h0 <;> omega
    rw [if_neg hne]
    exact ⟨hcon, by show (l.drop n).length ≤ r.size; omega, hsup, hwin, le_rfl, hst, hclock,
      fun h0 => by have h0 : (l.drop n).length = r.size := h0; omega, fun h0 => absurd h0 hnil⟩

theorem ringConsumed_clearto (r : RingBuffer α) {n : ℕ} (hn : n ≠ 0) :
    (Model.ringConsumed r n).clearto = clearedTo r n := by
  unfold Model.ringConsumed; rw [if_neg hn]; dsimp only; split_ifs <;> rfl

theorem ringConsumed_clock (r : RingBuffer α) (n : ℕ) :
    (Model.ringConsumed r n).clock ≤ r.clock + 1 := by
  rcases eq_or_ne n 0 with rfl | hn
  · exact Nat.le_succ _
  · unfold Model.ringConsumed; rw [if_neg hn]; dsimp only; split_ifs <;> exact le_rfl

theorem ringConsumed_consume (h : Holds r l) {n : ℕ} (hn : n ≤ l.length)
    (hclock : r.clock + 1 < ulongSize) (hne : l.drop n ≠ []) :
    (Model.ringConsumed r n).consume = wrap r.size (r.consume + n) := by
  have h2 := h.length_le
  have h' := h.ringConsumed hn hclock
  have hlen : (l.drop n).length = l.length - n := length_drop
  rcases Nat.eq_zero_or_pos n with rfl | hpos
  · rw [ringConsumed_zero, add_zero, wrap_of_lt h.consume_lt]
  unfold Model.ringConsumed at h' ⊢
  rw [if_neg (by omega)] at h' ⊢
  generalize (if passesMark r n then none else r.mark) = m at h' ⊢
  dsimp only at h' ⊢
  split_ifs at h' ⊢ with he
  · -- a drained ring has equal pointers, and then it holds nothing or all it can
    rcases h'.supply_eq_consume.mp rfl with h0 | h0
    · exact absurd h0 hne
    · have h0 : (l.drop n).length = r.size := h0
      omega
  · rfl

end Holds

end Inetutils.Telnet.Ring.Contents
