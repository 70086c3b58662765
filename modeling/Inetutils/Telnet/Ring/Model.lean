import Inetutils.Lib.Cyclic
import Mathlib.Data.Int.Notation

/-! # The ring buffer of the telnet client

`telnet/ring.c`. Pointers into the buffer are offsets from `bottom`, so `bottom = 0` and
`top = size`; `mark` and `clearto` are null (`none`) or an offset, and `mark` may be an offset
outside the buffer (`ringDecrement`). The buffer itself is a memory of elements of any type; the
client's rings hold bytes.

`ring_clock` counts the operations of all rings of the program. It is an `unsigned long` of 64 bits;
here `clock`, `consumetime` and `supplytime` are the unreduced counts, and the comparisons are made
on what the C variables hold of them (`ulong`). -/

namespace Inetutils.Telnet.Ring.Model

open Lib.Cyclic

variable {α : Type*}

/-- The number of values of an `unsigned long`. -/
abbrev ulongSize : ℕ := 18446744073709551616

/-- What an `unsigned long` holds of a count. -/
def ulong (n : ℕ) : ℕ := n % ulongSize

theorem ulong_of_lt {n : ℕ} (h : n < ulongSize) : ulong n = n := Nat.mod_eq_of_lt h

/-- `Ring`: the struct, with the buffer its pointers point into and the clock it is timed by. -/
structure RingBuffer (α : Type*) where
  consume : ℕ
  supply : ℕ
  mark : Option ℤ
  clearto : Option ℕ
  size : ℕ
  consumetime : ℕ
  supplytime : ℕ
  buf : ℕ → α
  clock : ℕ

/-! ### The internal macros -/

def ringSubtract (d : RingBuffer α) (a b : ℤ) : ℤ := if a - b ≥ 0 then a - b else a - b + d.size

def ringIncrement (d : RingBuffer α) (a c : ℕ) : ℕ := wrap d.size (a + c)

/-- The second branch takes `size` off where the other macros would add it. -/
def ringDecrement (d : RingBuffer α) (a c : ℤ) : ℤ := if a - c ≥ 0 then a - c else a - c - d.size

def ringEmpty (d : RingBuffer α) : Bool :=
  d.consume = d.supply ∧ ulong d.consumetime ≥ ulong d.supplytime

def ringFull (d : RingBuffer α) : Bool :=
  d.supply = d.consume ∧ ulong d.supplytime > ulong d.consumetime

/-! ### State transitions -/

def ringInit (buf : ℕ → α) (count clock : ℕ) : RingBuffer α where
  consume := 0
  supply := 0
  mark := none
  clearto := none
  size := count
  consumetime := 0
  supplytime := 0
  buf := buf
  clock := clock

def ringMark (r : RingBuffer α) : RingBuffer α :=
  { r with mark := some (ringDecrement r r.supply 1) }

def ringAtMark (r : RingBuffer α) : Bool := r.mark = some (r.consume : ℤ)

def ringClearMark (r : RingBuffer α) : RingBuffer α := { r with mark := none }

def ringSupplied (r : RingBuffer α) (count : ℕ) : RingBuffer α :=
  { r with
    supply := ringIncrement r r.supply count
    supplytime := r.clock + 1
    clock := r.clock + 1 }

/-- `count` bytes further on the mark is passed. -/
def passesMark (r : RingBuffer α) (count : ℕ) : Bool :=
  match r.mark with
  | none => false
  | some m => ringSubtract r m r.consume < count

/-- `clearto` after `count` bytes are consumed. The last conjunct of the source's second test is a
pointer, not a comparison, and never null. -/
def clearedTo (r : RingBuffer α) (count : ℕ) : Option ℕ :=
  match r.clearto with
  | none => none
  | some c =>
    if r.consume < c ∧ c ≤ r.consume + count then none
    else if r.consume + count > r.size ∧ 0 ≤ c then none
    else some c

def ringConsumed (r : RingBuffer α) (count : ℕ) : RingBuffer α :=
  if count = 0 then r
  else
    let r1 :=
      { r with
        mark := if passesMark r count then none else r.mark
        clearto := clearedTo r count
        consume := ringIncrement r r.consume count
        consumetime := r.clock + 1
        clock := r.clock + 1 }
    -- encourages `ringEmptyConsecutive` to be large
    if ringEmpty r1 then { r1 with consume := 0, supply := 0 } else r1

def ringTick (r : RingBuffer α) : RingBuffer α := { r with clock := r.clock + 1 }

/-! ### Queries -/

def ringEmptyCount (r : RingBuffer α) : ℤ :=
  if ringEmpty r then r.size else ringSubtract r r.consume r.supply

def ringEmptyConsecutive (r : RingBuffer α) : ℤ :=
  if r.consume < r.supply ∨ ringEmpty r then ringSubtract r r.size r.supply
  else ringSubtract r r.consume r.supply

def ringFullCount (r : RingBuffer α) : ℤ :=
  match r.mark with
  | none => if ringFull r then r.size else ringSubtract r r.supply r.consume
  | some m =>
    if m = r.consume then if ringFull r then r.size else ringSubtract r r.supply r.consume
    else ringSubtract r m r.consume

def ringFullConsecutive (r : RingBuffer α) : ℤ :=
  match r.mark with
  | none =>
    if r.supply < r.consume ∨ ringFull r then ringSubtract r r.size r.consume
    else ringSubtract r r.supply r.consume
  | some m =>
    if m = r.consume then
      if r.supply < r.consume ∨ ringFull r then ringSubtract r r.size r.consume
      else ringSubtract r r.supply r.consume
    else if m < r.consume then ringSubtract r r.size r.consume
    else ringSubtract r m r.consume

/-! ### Moving data in -/

/-- The producer stores `l` at `supply` and announces it with `ring_supplied`. -/
def ringPut (r : RingBuffer α) (l : List α) : RingBuffer α :=
  ringSupplied { r with buf := write r.buf r.supply l } l.length

/-- The loop of `ring_supply_data`, `fuel` turns at most; `none` if it is still not done. -/
def supplyLoop : ℕ → RingBuffer α → List α → Option (RingBuffer α)
  | _, r, [] => some r
  | 0, _, _ :: _ => none
  | fuel + 1, r, l =>
    let i := min (l.length : ℤ) (ringEmptyConsecutive r)
    supplyLoop fuel (ringPut r (l.take i.toNat)) (l.drop i.toNat)

theorem supplyLoop_succ (r : RingBuffer α) {l : List α} (h : l ≠ []) (fuel : ℕ) :
    supplyLoop (fuel + 1) r l =
      supplyLoop fuel (ringPut r (l.take (min (l.length : ℤ) (ringEmptyConsecutive r)).toNat))
        (l.drop (min (l.length : ℤ) (ringEmptyConsecutive r)).toNat) := by
  rw [supplyLoop]; exact h

/-- `ring_supply_data`. Every turn of the loop that gets anywhere moves a byte, so a loop not done
after as many turns as there are bytes is caught in a full ring. -/
def ringSupplyData (r : RingBuffer α) (l : List α) : Option (RingBuffer α) :=
  supplyLoop l.length r l

end Inetutils.Telnet.Ring.Model
