import Inetutils.Lib.Agreement
import Inetutils.Telnet.Items

/-! # The state of the options

Both programs keep for every option the same things: on each of its two sides (`WILL` and `WONT` for
what the program itself does, `DO` and `DONT` for what the peer does) the state, the state wanted,
and the number of requests not answered. The macros of `telnetd/telnetd.h` and `telnet/externs.h`
are tests and assignments of these.

`initiate` and `answered` are what the functions that send and those that receive have in common. As
long as the counter does not run over, a side is a party to an agreement (`party_request`,
`party_receive`). -/

namespace Inetutils.Telnet.Sides

open Lib.Agreement Proto Items

/-- The counter is a `char`. -/
structure Side where
  state : Bool
  want : Bool
  resp : UInt8
  deriving DecidableEq

structure Opt where
  doDont : Side
  willWont : Side
  deriving DecidableEq

inductive Dir
  | doDont
  | willWont
  deriving DecidableEq

def Dir.verb : Dir → Bool → Verb
  | .doDont, true => .DO
  | .doDont, false => .DONT
  | .willWont, true => .WILL
  | .willWont, false => .WONT

abbrev Table := Byte → Opt

def Table.side (t : Table) (d : Dir) (o : Byte) : Side :=
  match d with
  | .doDont => (t o).doDont
  | .willWont => (t o).willWont

def Table.set (t : Table) (d : Dir) (o : Byte) (x : Side) : Table :=
  Function.update t o
    (match d with
      | .doDont => { t o with doDont := x }
      | .willWont => { t o with willWont := x })

def Side.off : Side := ⟨false, false, 0⟩

def Table.off : Table := fun _ => ⟨.off, .off⟩

variable (x : Side)

@[simp] theorem side_set (t : Table) (d : Dir) (o : Byte) (x : Side) :
    (t.set d o x).side d o = x := by
  cases d <;> simp [Table.side, Table.set]

@[simp] theorem side_set_of_dir_ne (t : Table) {d d' : Dir} (o : Byte) (x : Side) (h : d' ≠ d) :
    (t.set d o x).side d' o = t.side d' o := by
  cases d <;> cases d' <;> simp_all [Table.side, Table.set]

@[simp] theorem set_side (t : Table) (d : Dir) (o : Byte) : t.set d o (t.side d o) = t := by
  cases d <;> simp [Table.side, Table.set]

@[simp] theorem set_set (t : Table) (d : Dir) (o : Byte) (x y : Side) :
    (t.set d o x).set d o y = t.set d o y := by
  cases d <;> simp [Table.set]

/-! ### Sending and receiving -/

def Side.declines (x : Side) (n : Bool) : Prop := (x.resp = 0 ∧ x.state = n) ∨ x.want = n

instance (x : Side) (n : Bool) : Decidable (x.declines n) := inferInstanceAs (Decidable (_ ∨ _))

def Side.initiate (x : Side) (n : Bool) : Side := { x with want := n, resp := x.resp + 1 }

/-- What the functions that send do with `init` set: the new value and whether they send. -/
def Side.request (x : Side) (n : Bool) : Side × Bool :=
  if x.declines n then (x, false) else (x.initiate n, true)

/-- The decrements at the beginning of the functions that receive. -/
def Side.answered (x : Side) (n : Bool) : Side :=
  if x.resp = 0 then x
  else if x.resp - 1 ≠ 0 ∧ x.state = n then { x with resp := x.resp - 1 - 1 }
  else { x with resp := x.resp - 1 }

/-- What a side does that is willing to change: its new value and whether it says so. -/
def Side.receive (x : Side) (n : Bool) : Side × Bool :=
  let y := x.answered n
  if y.resp = 0 ∧ y.want ≠ n then ({ y with state := n, want := n }, n || y.state)
  else ({ y with state := n }, false)

theorem receive_cases (n : Bool) :
    ((x.answered n).resp = 0 ∧ (x.answered n).want = !n ∧
        x.receive n = (⟨n, n, (x.answered n).resp⟩, n || (x.answered n).state)) ∨
      ((x.answered n).resp = 0 → (x.answered n).want = n) ∧
        x.receive n = (⟨n, (x.answered n).want, (x.answered n).resp⟩, false) := by
  by_cases h : (x.answered n).resp = 0 ∧ (x.answered n).want ≠ n
  · have hw : (x.answered n).want = !n := Bool.eq_not_of_ne h.2
    exact .inl ⟨h.1, hw, if_pos h⟩
  · exact .inr ⟨fun h0 => not_not.1 fun hw => h ⟨h0, hw⟩, if_neg h⟩

/-! ### Sides as parties -/

def Side.party (x : Side) : Party := ⟨x.state, x.want, x.resp.toNat⟩

theorem resp_eq_zero {x : UInt8} : x = 0 ↔ x.toNat = 0 := UInt8.toNat_inj.symm

theorem toNat_sub_one {x : UInt8} (h : x ≠ 0) : (x - 1).toNat = x.toNat - 1 := by
  have : 0 < x.toNat := Nat.pos_of_ne_zero fun h0 => h (resp_eq_zero.mpr h0)
  exact UInt8.toNat_sub_of_le x 1 (UInt8.le_iff_toNat_le.mpr this)

theorem party_declines {x : Side} {n : Bool} : x.party.declines n ↔ x.declines n := by
  unfold Party.declines Side.declines Side.party
  rw [resp_eq_zero]

theorem party_request {x : Side} {n : Bool} (h : x.declines n ∨ x.resp.toNat + 1 < 256) :
    x.party.request n = ((x.request n).1.party, if (x.request n).2 = true then [n] else []) := by
  unfold Party.request Side.request
  by_cases hd : x.declines n
  · rw [if_pos hd, if_pos (party_declines.mpr hd)]; rfl
  · have hinc : (x.resp + 1).toNat = x.resp.toNat + 1 := by
      rw [UInt8.toNat_add]; exact Nat.mod_eq_of_lt (h.resolve_left hd)
    rw [if_neg hd, if_neg (fun h0 => hd (party_declines.mp h0))]
    simp [Side.party, Side.initiate, hinc]

theorem party_answered (n : Bool) : (x.answered n).party = x.party.answered n := by
  unfold Side.answered Party.answered Side.party
  by_cases h0 : x.resp = 0
  · rw [if_pos h0, if_pos (resp_eq_zero.mp h0)]
  · have h1 := toNat_sub_one h0
    rw [if_neg h0, if_neg (fun h => h0 (resp_eq_zero.mpr h)), ← h1]
    by_cases h2 : x.resp - 1 ≠ 0 ∧ x.state = n
    · rw [if_pos h2, if_pos ⟨fun h => h2.1 (resp_eq_zero.mpr h), h2.2⟩, toNat_sub_one h2.1]
    · rw [if_neg h2, if_neg (fun h => h2 ⟨fun h' => h.1 (resp_eq_zero.mp h'), h.2⟩)]

theorem party_receive (n : Bool) :
    x.party.receive n = ((x.receive n).1.party, if (x.receive n).2 = true then [n] else []) := by
  unfold Party.receive Side.receive
  rw [← party_answered]
  have hz : (x.answered n).party.resp = 0 ↔ (x.answered n).resp = 0 := resp_eq_zero.symm
  by_cases h : (x.answered n).resp = 0 ∧ (x.answered n).want ≠ n
  · dsimp only
    rw [if_pos h, if_pos ⟨hz.mpr h.1, h.2⟩]
    refine Prod.ext rfl (if_congr ?_ rfl rfl)
    exact (Bool.or_eq_true ..).symm.to_iff
  · dsimp only
    rw [if_neg h, if_neg (fun h' => h ⟨hz.mp h'.1, h'.2⟩)]
    simp [Side.party]

end Inetutils.Telnet.Sides
