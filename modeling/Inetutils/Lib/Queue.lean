import Inetutils.Lib.Runs
import Mathlib.Data.List.Basic
import Mathlib.Algebra.Order.Group.Nat

/-! # A queue with its history and a mark

The abstract queue keeps everything ever put in (`supplied`) and how much of it has been taken out
(`taken`); what it holds is the rest (`pending`). A *mark* names one of the elements not yet taken;
it goes away when that element is taken. Whether there is room is the concern of whoever puts. -/

namespace Inetutils.Lib.Queue

open List

variable {α : Type*}

structure Fifo (α : Type*) where
  supplied : List α
  taken : ℕ
  mark : Option ℕ

inductive Op (α : Type*)
  | put (l : List α)
  | take (n : ℕ)
  | setMark
  | clearMark
  | skip

def empty : Fifo α := ⟨[], 0, none⟩

/-- What the queue holds, oldest first. -/
def pending (q : Fifo α) : List α := q.supplied.drop q.taken

def markDist (q : Fifo α) : Option ℕ := q.mark.map (· - q.taken)

def Fifo.step (q : Fifo α) : Op α → Fifo α
  | .put l => { q with supplied := q.supplied ++ l }
  | .take n => { q with
      taken := q.taken + n
      mark := q.mark.filter (q.taken + n ≤ ·) }
  | .setMark => { q with mark := some (q.supplied.length - 1) }
  | .clearMark => { q with mark := none }
  | .skip => q

/-- Only what is there is taken; the mark is on an element still there. -/
structure WF (q : Fifo α) : Prop where
  taken_le : q.taken ≤ q.supplied.length
  mark_mem : ∀ m, q.mark = some m → q.taken ≤ m ∧ m < q.supplied.length

/-- Taking needs the elements, marking an element that is still there. -/
def Fifo.ok (q : Fifo α) : Op α → Prop
  | .take n => n ≤ (pending q).length
  | .setMark => pending q ≠ []
  | _ => True

theorem wf_empty : WF (empty : Fifo α) := ⟨le_rfl, fun m h => by cases h⟩

variable (q : Fifo α)

@[simp] theorem length_pending :
    (pending q).length = q.supplied.length - q.taken := length_drop

theorem wf_step {q : Fifo α} {o : Op α} (h : WF q) (hok : q.ok o) : WF (q.step o) := by
  have h1 := h.taken_le
  cases o with
  | put l =>
    refine ⟨?_, fun m hm => ?_⟩
    · simp only [Fifo.step, length_append]; omega
    · have := h.mark_mem m hm
      simp only [Fifo.step, length_append]; omega
  | take n =>
    rw [Fifo.ok, length_pending] at hok
    refine ⟨by simp only [Fifo.step]; omega, fun m hm => ?_⟩
    rw [Fifo.step, Option.filter_eq_some_iff] at hm
    exact ⟨by simpa [Fifo.step] using hm.2, (h.mark_mem m hm.1).2⟩
  | setMark =>
    have := length_pos_of_ne_nil hok
    rw [length_pending] at this
    refine ⟨h1, fun m hm => ?_⟩
    simp only [Fifo.step, Option.some.injEq] at hm ⊢
    omega
  | clearMark => exact ⟨h1, fun m hm => by cases hm⟩
  | skip => exact h

theorem pending_put (h : WF q) (l : List α) : pending (q.step (.put l)) = pending q ++ l :=
  drop_append_of_le_length h.taken_le

theorem pending_take (n : ℕ) : pending (q.step (.take n)) = (pending q).drop n := by
  simp [pending, Fifo.step, drop_drop]

/-- **First in, first out**: the elements taken next are the oldest ones held. -/
theorem take_supplied_add (n : ℕ) :
    q.supplied.take (q.taken + n) = q.supplied.take q.taken ++ (pending q).take n :=
  take_add

/-! ### The distance to the mark -/

theorem markDist_put (l : List α) : markDist (q.step (.put l)) = markDist q := rfl

theorem markDist_take {q : Fifo α} (h : WF q) (n : ℕ) :
    markDist (q.step (.take n)) = ((markDist q).filter (n ≤ ·)).map (· - n) := by
  rcases hm : q.mark with _ | m
  · simp [markDist, Fifo.step, hm]
  · have := h.mark_mem m hm
    by_cases hn : q.taken + n ≤ m
    · have hn' : n ≤ m - q.taken := by omega
      simp [markDist, Fifo.step, hm, Option.filter, hn, hn', Nat.sub_sub]
    · have hn' : ¬ n ≤ m - q.taken := by omega
      simp [markDist, Fifo.step, hm, Option.filter, hn, hn']

theorem markDist_setMark : markDist (q.step .setMark) = some ((pending q).length - 1) := by
  simp [markDist, Fifo.step, Nat.sub_right_comm]

end Inetutils.Lib.Queue
