import Inetutils.Lib.Queue
import Inetutils.Telnet.Ring.Marks

/-! # The ring refines a bounded queue

A program uses a ring through the calls of `Call`, and keeps within what the queries tell it
(`contract`). The ring then behaves as the queue of `Lib.Queue` (`Refines`), with one exception: a
mark set while `supply` is at the bottom lands outside the buffer (`ringDecrement`), and the counts
are wrong from then on (`ringMark_at_bottom`). In runs that set no such mark, and do not turn the
clock over (`sound`), the refinement holds in every state (`ring_refines`). -/

namespace Inetutils.Telnet.Ring.Refine

open Lib.Cyclic Lib.Runs Lib.Queue Ring.Model
open Ring.Contents Ring.Marks

variable {α : Type*}

/-- What a program does with a ring. The bytes of `supplied` have been stored at `supply`, those of
`consumed` are taken from `consume`; `other` is a call on another ring, which shares the clock. -/
inductive Call (α : Type*)
  | supplied (l : List α)
  | supplyData (l : List α)
  | consumed (n : ℕ)
  | mark
  | atMark
  | clearMark
  | other

/-- A ring in use, with all that was handed over and all that was taken. -/
structure Use (α : Type*) where
  ring : RingBuffer α
  supplied : List α
  consumed : List α

def start (buf : ℕ → α) (size clock : ℕ) : Use α := ⟨ringInit buf size clock, [], []⟩

def Use.call (u : Use α) : Call α → Option (Use α)
  | .supplied l => some { u with ring := ringPut u.ring l, supplied := u.supplied ++ l }
  | .supplyData l => (ringSupplyData u.ring l).map fun r =>
      { u with ring := r, supplied := u.supplied ++ l }
  | .consumed n => some { u with
      ring := ringConsumed u.ring n
      consumed := u.consumed ++ read u.ring.buf u.ring.consume n }
  | .mark => some { u with ring := ringMark u.ring }
  | .atMark => some u
  | .clearMark => some { u with ring := ringClearMark u.ring }
  | .other => some { u with ring := ringTick u.ring }

def step (s : Option (Use α)) (c : Call α) : Option (Use α) := s.bind (·.call c)

/-- The caller keeps within the counts. -/
def contract (r : RingBuffer α) : Call α → Prop
  | .supplied l => 0 < l.length ∧ (l.length : ℤ) ≤ ringEmptyConsecutive r
  | .supplyData l => (l.length : ℤ) ≤ ringEmptyCount r
  | .consumed n => (n : ℤ) ≤ ringFullConsecutive r
  | _ => True

def Call.ticks : Call α → ℕ
  | .supplied _ | .consumed _ | .other => 1
  | .supplyData _ => 2
  | .mark | .atMark | .clearMark => 0

/-- No mark is set with `supply` at the bottom, and the clock does not turn over. -/
def sound (r : RingBuffer α) (c : Call α) : Prop :=
  (c matches .mark → r.supply ≠ 0) ∧ r.clock + c.ticks < ulongSize

def kept (s : Option (Use α)) (c : Call α) : Prop := ∃ u, s = some u ∧ contract u.ring c

def keptSound (s : Option (Use α)) (c : Call α) : Prop :=
  ∃ u, s = some u ∧ contract u.ring c ∧ sound u.ring c

def Call.op : Call α → Op α
  | .supplied l => .put l
  | .supplyData l => .put l
  | .consumed n => .take n
  | .mark => .setMark
  | .atMark => .skip
  | .clearMark => .clearMark
  | .other => .skip

/-- **The ring in use is a queue bounded by its size.** -/
structure Refines (u : Use α) (q : Fifo α) : Prop where
  supplied_eq : u.supplied = q.supplied
  consumed_eq : u.consumed = q.supplied.take q.taken
  fullCount_eq : ringFullCount (ringClearMark u.ring) = (pending q).length
  fullCount_add : ringFullCount (ringClearMark u.ring) + ringEmptyCount u.ring = u.ring.size
  emptyConsecutive_le : ringEmptyConsecutive u.ring ≤ ringEmptyCount u.ring
  supply_add_le : u.ring.supply + ringEmptyConsecutive u.ring ≤ u.ring.size
  emptyConsecutive_pos : 0 < ringEmptyCount u.ring → 0 < ringEmptyConsecutive u.ring
  fullConsecutive_le : ringFullConsecutive u.ring ≤ ringFullCount u.ring
  consume_add_le : u.ring.consume + ringFullConsecutive u.ring ≤ u.ring.size
  fullConsecutive_pos : 0 < ringFullCount u.ring → 0 < ringFullConsecutive u.ring
  atMark_iff : ringAtMark u.ring = true ↔ q.mark = some q.taken
  atMark_of_passed : ∀ m, q.mark = some m → ∀ n : ℕ, (n : ℤ) ≤ ringFullConsecutive u.ring →
    m < q.taken + n → ringAtMark u.ring = true

/-! ### What every sound call preserves -/

/-- The invariant: the ring holds what the queue has pending, with the mark where the queue has
it. -/
structure Tracks (u : Use α) (q : Fifo α) : Prop where
  wf : WF q
  supplied_eq : u.supplied = q.supplied
  consumed_eq : u.consumed = q.supplied.take q.taken
  holds : Holds u.ring (pending q)
  markAt : MarkAt u.ring (pending q).length (markDist q)

variable (buf : ℕ → α)

theorem tracks_start {size clock : ℕ} (hs : 0 < size) (hc : clock < ulongSize) :
    Tracks (start buf size clock) empty :=
  ⟨wf_empty, rfl, rfl, holds_ringInit buf hs hc, rfl⟩

section
variable {u : Use α} {q : Fifo α} (h : Tracks u q)
include h

theorem tracks_put {r : RingBuffer α} {l : List α} (hh : Holds r (pending q ++ l))
    (hs : SuppliedFrom u.ring r) :
    Tracks { u with ring := r, supplied := u.supplied ++ l } (q.step (.put l)) := by
  have ht : (q.supplied ++ l).take q.taken = q.supplied.take q.taken :=
    List.take_append_of_le_length h.wf.taken_le
  refine ⟨wf_step h.wf trivial, ?_, ?_, ?_, ?_⟩
  · show u.supplied ++ l = q.supplied ++ l
    rw [h.supplied_eq]
  · show u.consumed = (q.supplied ++ l).take q.taken
    rw [ht, h.consumed_eq]
  · rw [pending_put q h.wf]; exact hh
  · rw [pending_put q h.wf, markDist_put]
    exact h.markAt.congr hs.mark hs.size hs.consume (by simp)

theorem tracks_consumed {n : ℕ} (hn : (n : ℤ) ≤ ringFullConsecutive u.ring)
    (hc : u.ring.clock + 1 < ulongSize) :
    Tracks { u with
        ring := ringConsumed u.ring n
        consumed := u.consumed ++ read u.ring.buf u.ring.consume n }
      (q.step (.take n)) := by
  obtain ⟨m, hm, hml, hend, -⟩ := ringFullConsecutive_safe h.holds h.markAt.safe
  have hnl : n ≤ (pending q).length := by omega
  refine ⟨wf_step h.wf hnl, h.supplied_eq, ?_, ?_, ?_⟩
  · show u.consumed ++ read u.ring.buf u.ring.consume n = q.supplied.take (q.taken + n)
    rw [take_supplied_add, h.consumed_eq, read_consume h.holds hnl (by omega)]
  · rw [pending_take]; exact h.holds.ringConsumed hnl hc
  · rw [pending_take, markDist_take h.wf]; exact markAt_ringConsumed h.holds hnl hc h.markAt

theorem pending_ne_nil_of_supply (hs : u.ring.supply ≠ 0) : pending q ≠ [] := by
  intro h0
  have h1 := h.holds.supply_eq
  rw [h0, List.length_nil, add_zero, (h.holds.empty h0).2] at h1
  exact hs (h1.trans (wrap_of_lt (by have := h.holds.consume_lt; omega)))

theorem tracks_mark (hs : u.ring.supply ≠ 0) :
    Tracks { u with ring := ringMark u.ring } (q.step .setMark) := by
  have hne := pending_ne_nil_of_supply h hs
  refine ⟨wf_step h.wf hne, h.supplied_eq, h.consumed_eq, h.holds.congr _ _, ?_⟩
  rw [markDist_setMark]
  exact markAt_ringMark h.holds hs hne

theorem tracks_clearMark :
    Tracks { u with ring := ringClearMark u.ring } (q.step .clearMark) :=
  ⟨wf_step h.wf trivial, h.supplied_eq, h.consumed_eq, h.holds.congr _ _, rfl⟩

theorem tracks_other (hc : u.ring.clock + 1 < ulongSize) :
    Tracks { u with ring := ringTick u.ring } q :=
  ⟨h.wf, h.supplied_eq, h.consumed_eq, h.holds.tick hc,
    h.markAt.congr rfl rfl rfl le_rfl⟩

theorem tracks_call {c : Call α} (hk : contract u.ring c) (hs : sound u.ring c) :
    ∃ u', u.call c = some u' ∧ Tracks u' (q.step c.op) := by
  cases c with
  | supplied l =>
    exact ⟨_, rfl, tracks_put h (h.holds.ringPut (List.ne_nil_of_length_pos hk.1) hk.2
      hs.2) (ringPut_suppliedFrom l)⟩
  | supplyData l =>
    obtain ⟨r, hr, hh, hf, -⟩ := h.holds.ringSupplyData hk hs.2
    exact ⟨_, by rw [Use.call, hr]; rfl, tracks_put h hh hf⟩
  | consumed n => exact ⟨_, rfl, tracks_consumed h hk hs.2⟩
  | mark => exact ⟨_, rfl, tracks_mark h (hs.1 rfl)⟩
  | atMark => exact ⟨u, rfl, h⟩
  | clearMark => exact ⟨_, rfl, tracks_clearMark h⟩
  | other => exact ⟨_, rfl, tracks_other h hs.2⟩

theorem Tracks.refines : Refines u q := by
  have hh := h.holds
  have h1 := hh.consume_lt
  have h2 := hh.length_le
  have h3 := hh.supply_lt
  have hfc := ringFullCount_eq hh h.markAt
  have hfs := ringFullConsecutive_eq hh h.markAt
  have hec := hh.ringEmptyCount_eq
  have hes := hh.ringEmptyConsecutive_eq
  have hat := ringAtMark_iff hh h.markAt
  have hclear := ringFullCount_eq (r := ringClearMark u.ring) (l := pending q) (j := none)
    (hh.congr _ _) rfl
  refine ⟨h.supplied_eq, h.consumed_eq, hclear, ?_, by omega, by omega, by omega, by omega,
    by omega, by omega, ?_, fun m hm n hn hlt => ?_⟩
  · rw [hclear, hec]; simp only [visible]; omega
  · rw [hat, markDist]
    constructor
    · intro h0
      obtain ⟨m, hm, h0⟩ := Option.map_eq_some_iff.mp h0
      have := h.wf.mark_mem m hm
      rw [hm]; congr 1; omega
    · intro h0; rw [h0]; simp
  · -- the consumer sees no further than the mark, unless it stands at it
    have hj : markDist q = some (m - q.taken) := by rw [markDist, hm]; rfl
    rw [hat, hj]
    rw [hfs, hj] at hn
    congr 1
    by_contra h0
    rw [visible, if_neg h0] at hn
    omega

end

/-! ### A ring of no capacity -/

theorem refines_start_zero (clock : ℕ) : Refines (start buf 0 clock) empty := by
  constructor <;> simp [start, ringInit, empty, pending, ringFullCount, ringClearMark, ringFull,
    ringSubtract, ringEmptyCount, ringEmpty, ringEmptyConsecutive, ringFullConsecutive, ringAtMark]

theorem call_start_zero (clock : ℕ) {c : Call α} (hk : contract (start buf 0 clock).ring c)
    (hs : sound (start buf 0 clock).ring c) :
    ∃ clock', (start buf 0 clock).call c = some (start buf 0 clock') ∧
      empty.step c.op = empty := by
  have hr := refines_start_zero buf clock
  have h1 := hr.emptyConsecutive_le
  have h2 := hr.consume_add_le
  have h3 := hr.supply_add_le
  have h4 : ringEmptyCount (start buf 0 clock).ring = 0 := by
    have := hr.fullCount_add
    rw [hr.fullCount_eq] at this
    simpa [pending, empty, start, ringInit] using this
  simp only [start, ringInit] at h2 h3
  cases c with
  | supplied l => have := hk.1; have := hk.2; omega
  | supplyData l =>
    have hk : (l.length : ℤ) ≤ ringEmptyCount _ := hk
    rw [h4] at hk
    obtain rfl : l = [] := List.length_eq_zero_iff.mp (by omega)
    exact ⟨clock, rfl, rfl⟩
  | consumed n =>
    have hk : (n : ℤ) ≤ ringFullConsecutive _ := hk
    obtain rfl : n = 0 := by simp only [start, ringInit] at hk; omega
    exact ⟨clock, rfl, rfl⟩
  | mark => exact absurd rfl (hs.1 rfl)
  | atMark => exact ⟨clock, rfl, rfl⟩
  | clearMark => exact ⟨clock, rfl, rfl⟩
  | other => exact ⟨clock + 1, rfl, rfl⟩

/-! ### The runs -/

/-- **The ring refines a bounded queue**, of every capacity and in every run of sound calls. -/
theorem ring_refines (buf : ℕ → α) (size clock : ℕ) (hc : clock < ulongSize) (calls : List (Call α))
    (h : Allowed step keptSound (some (start buf size clock)) calls) :
    ∃ u, run step (some (start buf size clock)) calls = some u ∧
      Refines u (run Fifo.step empty (calls.map Call.op)) := by
  rcases Nat.eq_zero_or_pos size with rfl | hpos
  · obtain ⟨c, hrun, hq⟩ := run_sim (R := fun s q => ∃ c, s = some (start buf 0 c) ∧ q = empty)
      (g := Fifo.step) (f := Call.op) (fun s q a ⟨c, h0, hq⟩ ⟨u, hu, hk, hs⟩ => by
        subst hq
        obtain rfl : start buf 0 c = u := Option.some.inj (h0.symm.trans hu)
        obtain ⟨c', h1, h2⟩ := call_start_zero buf c hk hs
        exact ⟨c', by rw [h0]; exact h1, h2⟩) ⟨clock, rfl, rfl⟩ h
    exact ⟨_, hrun, by rw [hq]; exact refines_start_zero buf c⟩
  · obtain ⟨u, hrun, ht⟩ := run_sim (R := fun s q => ∃ u, s = some u ∧ Tracks u q)
      (g := Fifo.step) (f := Call.op) (fun s q a ⟨u, h0, ht⟩ ⟨u', hu, hk, hs⟩ => by
        obtain rfl : u = u' := Option.some.inj (h0.symm.trans hu)
        obtain ⟨u', h1, h2⟩ := tracks_call ht hk hs
        exact ⟨u', by rw [h0]; exact h1, h2⟩) ⟨_, rfl, tracks_start buf hpos hc⟩ h
    exact ⟨u, hrun, ht.refines⟩

/-- A full ring is emptied, marked and filled again: the calls of a sound run. -/
def soundCalls : List (Call ℕ) :=
  [.supplyData [1, 2, 3], .consumed 2, .supplyData [4, 5], .mark, .consumed 1, .atMark, .consumed 1]

theorem ring_refines_soundCalls :
    Allowed step keptSound (some (start (fun _ => 0) 3 0)) soundCalls ∧
      ∃ u, run step (some (start (fun _ => 0) 3 0)) soundCalls = some u ∧
        Refines u (run Fifo.step empty (soundCalls.map Call.op)) :=
  have h : Allowed step keptSound (some (start (fun _ => 0) 3 0)) soundCalls := by
    refine ⟨⟨_, rfl, ?_, ?_⟩, ⟨_, rfl, ?_, ?_⟩, ⟨_, rfl, ?_, ?_⟩, ⟨_, rfl, ?_, ?_⟩,
      ⟨_, rfl, ?_, ?_⟩,
      ⟨_, rfl, ?_, ?_⟩, ⟨_, rfl, ?_, ?_⟩, trivial⟩ <;> simp only [contract, sound] <;> decide
  ⟨h, ring_refines _ _ _ (by decide) _ h⟩

/-- **A mark set with `supply` at the bottom**: the ring is filled to the top and marked. There are
then two bytes to consume but a full count of -1, and the marked byte is consumed although the
consumer never stood at the mark. -/
theorem ringMark_at_bottom :
    Allowed step kept (some (start (fun _ => 0) 2 0)) [.supplyData [1, 2], .mark] ∧
      ∃ u, run step (some (start (fun _ => 0) 2 0)) [.supplyData [1, 2], .mark] = some u ∧
        ringFullCount u.ring = -1 ∧ ringFullConsecutive u.ring = 2 ∧ ringAtMark u.ring = false ∧
        ¬ Refines u (run Fifo.step empty [.put [1, 2], .setMark]) := by
  refine ⟨⟨⟨_, rfl, by simp only [contract]; decide⟩, ⟨_, rfl, trivial⟩, trivial⟩, _,
    rfl, by decide,
    by decide, by decide, fun h => ?_⟩
  have := h.atMark_of_passed 1 rfl 2 (by decide) (by decide)
  exact absurd this (by decide)

end Inetutils.Telnet.Ring.Refine
