import Inetutils.Telnet.Ring.Marks

/-! # Sending what the ring holds

`netflush` of `telnet/network.c`, with the results of the calls of `send` as a list: `send` takes
some of the bytes it is offered, or none, or fails. A list that is used up goes on with calls that
take none. -/

namespace Inetutils.Telnet.Network

open Lib.Cyclic Ring.Model Ring.Contents
open Ring.Marks

variable {α : Type*}

/-- What a call of `send` returns; `wouldBlock` is also `ENOBUFS`. -/
inductive SendResult
  | accepted (n : ℕ)
  | wouldBlock
  | failed

structure Out (α : Type*) where
  ring : RingBuffer α
  sent : List α

/-- The bytes offered to `send`: one when it is urgent data. -/
def Out.offered (o : Out α) : ℕ :=
  if ringAtMark o.ring then 1 else (ringFullConsecutive o.ring).toNat

/-- One call of `send` and what follows it, and whether `netflush` goes on to the other half. A
failure closes the connection. -/
def Out.send (o : Out α) : SendResult → Out α × Bool
  | .wouldBlock => (o, false)
  | .failed => ({ o with ring := ringClearMark o.ring }, false)
  | .accepted n =>
    let n := min n o.offered
    let o' := ⟨ringConsumed o.ring n, o.sent ++ read o.ring.buf o.ring.consume n⟩
    (o', n ≠ 0 ∧ n = ringFullConsecutive o.ring ∧ ringFullConsecutive o'.ring ≠ 0)

def netflush : List SendResult → Out α → Out α
  | [], o => o
  | x :: xs, o =>
    if ringFullConsecutive o.ring ≤ 0 then o
    else if (o.send x).2 then netflush xs (o.send x).1
    else (o.send x).1

/-- A call of `send` took the first `n` bytes held, in one piece. -/
structure Sends (o o' : Out α) (l : List α) (n : ℕ) : Prop where
  le_length : n ≤ l.length
  end_le : o.ring.consume + n ≤ o.ring.size
  sent_eq : o'.sent = o.sent ++ l.take n
  ring_eq : o'.ring = ringConsumed o.ring n ∨ n = 0 ∧ o'.ring = ringClearMark o.ring

variable {o : Out α} {l : List α}

theorem send_sends (h : Holds o.ring l) (hm : MarkSafe o.ring l.length)
    (hpos : ¬ ringFullConsecutive o.ring ≤ 0) (x : SendResult) : ∃ n, Sends o (o.send x).1 l n := by
  obtain ⟨k, hk, hkl, hend, -⟩ := ringFullConsecutive_safe h hm
  cases x with
  | wouldBlock => exact ⟨0, Nat.zero_le _, by omega, by simp [Out.send], .inl rfl⟩
  | failed => exact ⟨0, Nat.zero_le _, by omega, by simp [Out.send], .inr ⟨rfl, rfl⟩⟩
  | accepted n =>
    have hoff : o.offered ≤ k := by unfold Out.offered; split_ifs <;> omega
    have hn : min n o.offered ≤ k := (min_le_right ..).trans hoff
    refine ⟨min n o.offered, hn.trans hkl, by omega, ?_, .inl rfl⟩
    show o.sent ++ read o.ring.buf o.ring.consume (min n o.offered) = _
    rw [read_consume h (hn.trans hkl) (by omega)]

theorem Sends.holds {o' : Out α} {n : ℕ} (hs : Sends o o' l n) (h : Holds o.ring l)
    (hm : MarkSafe o.ring l.length) (hclock : o.ring.clock + 1 < ulongSize) :
    Holds o'.ring (l.drop n) ∧ MarkSafe o'.ring (l.drop n).length ∧
      o'.ring.clock ≤ o.ring.clock + 1 := by
  rcases hs.ring_eq with he | ⟨rfl, he⟩
  · rw [he]
    exact ⟨h.ringConsumed hs.le_length hclock, markSafe_ringConsumed h hs.le_length hclock hm,
      Holds.ringConsumed_clock ..⟩
  · rw [he, List.drop_zero]
    exact ⟨h.congr _ _, (show MarkAt (ringClearMark o.ring) _ none from rfl).safe, Nat.le_succ _⟩

theorem send_all (h : Holds o.ring l) (hm : o.ring.mark = none) (hc : o.ring.consume = 0)
    (hclock : o.ring.clock + 1 < ulongSize) :
    ringFullConsecutive o.ring = l.length ∧
      o.send (.accepted l.length) = (⟨ringConsumed o.ring l.length, o.sent ++ l⟩, false) := by
  have h2 := h.length_le
  have hfull : ringFullConsecutive o.ring = l.length := by
    rw [ringFullConsecutive_eq h (j := none) hm, hc, visible]; omega
  have hoff : o.offered = l.length := by
    rw [Out.offered, hfull, ringAtMark, hm]; rfl
  have hread : read o.ring.buf o.ring.consume l.length = l := by
    rw [read_consume h le_rfl (by omega), List.take_length]
  refine ⟨hfull, ?_⟩
  have hrest := h.ringConsumed le_rfl hclock
  have hrestm : (ringConsumed o.ring l.length).mark = none := by
    have := markAt_ringConsumed h le_rfl hclock (j := none) hm
    exact this
  have hdrained := ringFullConsecutive_eq hrest (j := none) hrestm
  rw [List.drop_length, visible, List.length_nil, Nat.zero_min] at hdrained
  rw [Out.send]
  simp only [hoff, min_self, hread, hdrained]
  simp

end Inetutils.Telnet.Network
