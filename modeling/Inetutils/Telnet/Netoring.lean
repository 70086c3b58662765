import Inetutils.Telnet.Network
import Inetutils.Telnet.Options

/-! # What is queued for the network

The macros of `telnet/defines.h` on `netoring`, and the requests of the option handlers carried out
by them. `NETADD` does not look whether there is room, `ring_supply_data` is only called where there
is.

As long as there is room for the requests (`RoomFor`), the bytes sent and those in the ring are
together the bytes queued (`good_requests`), and `netflush` keeps that whatever `send` does
(`good_netflush`). -/

namespace Inetutils.Telnet.Netoring

open Proto Items Options List
open Ring.Model Ring.Contents Ring.Marks
open Network

/-- `netoring` and what was sent from it, with the bytes it was asked to queue, whether no supply
was of more bytes than the room, and whether the program has exited. -/
structure Net where
  out : Out Byte
  queued : List Byte
  within : Bool
  exited : Bool

abbrev Net.ring (n : Net) : RingBuffer Byte := n.out.ring

/-- `NETROOM`. -/
def Net.room (n : Net) : ℤ := ringEmptyCount n.ring

def start (buf : ℕ → Byte) (size clock : ℕ) : Net :=
  ⟨⟨ringInit buf size clock, []⟩, [], true, false⟩

/-- The ring after `l` was supplied to it. -/
def Net.supplied (n : Net) (l : List Byte) (r : RingBuffer Byte) : Net :=
  { n with
    out := { n.out with ring := r }
    queued := n.queued ++ l
    within := n.within && decide ((l.length : ℤ) ≤ n.room) }

def Net.netadd (n : Net) (b : Byte) : Net := n.supplied [b] (ringPut n.ring [b])

def Net.netadds : List Byte → Net → Net
  | [], n => n
  | b :: l, n => Net.netadds l (n.netadd b)

def Net.setneturg (n : Net) : Net := { n with out := { n.out with ring := ringMark n.ring } }

/-- `ring_supply_data`, which may not end. -/
def Net.supply (n : Net) (l : List Byte) : Option Net :=
  (ringSupplyData n.ring l).map (n.supplied l)

def Net.request (n : Net) : Req → Option Net
  | .option v o => some (n.netadds [IAC, v.code, o])
  | .add l => some (n.netadds l)
  | .synch => some ((n.netadd IAC).setneturg.netadd DM)
  | .supply l spare => if n.room ≥ l.length + spare then n.supply l else some n
  | .require l => if n.room > l.length then n.supply l else some { n with exited := true }

def Net.requests : List Req → Net → Option Net
  | [], n => some n
  | r :: rs, n => if n.exited then some n else (n.request r).bind (Net.requests rs)

def Net.netflush (n : Net) (xs : List SendResult) : Net :=
  { n with out := Network.netflush xs n.out }

/-! ### Room -/

/-- There is room for what is queued whatever the room. -/
def RoomFor : ℤ → List Req → Prop
  | _, [] => True
  | room, .option _ _ :: rs => 3 ≤ room ∧ RoomFor (room - 3) rs
  | room, .add l :: rs => l.length ≤ room ∧ RoomFor (room - l.length) rs
  | room, .synch :: rs => 2 ≤ room ∧ RoomFor (room - 2) rs
  | room, .supply l spare :: rs =>
    RoomFor (if room ≥ l.length + spare then room - l.length else room) rs
  | room, .require l :: rs => room > l.length → RoomFor (room - l.length) rs

instance decidableRoomFor : ∀ (room : ℤ) (rs : List Req), Decidable (RoomFor room rs)
  | _, [] => inferInstanceAs (Decidable True)
  | room, .option _ _ :: rs =>
    have := decidableRoomFor (room - 3) rs
    inferInstanceAs (Decidable (_ ∧ _))
  | room, .add l :: rs =>
    have := decidableRoomFor (room - l.length) rs
    inferInstanceAs (Decidable (_ ∧ _))
  | room, .synch :: rs =>
    have := decidableRoomFor (room - 2) rs
    inferInstanceAs (Decidable (_ ∧ _))
  | room, .supply l spare :: rs =>
    decidableRoomFor (if room ≥ l.length + spare then room - l.length else room) rs
  | room, .require l :: rs =>
    have := decidableRoomFor (room - l.length) rs
    inferInstanceAs (Decidable (_ → _))

def ticks : List Req → ℕ
  | [] => 0
  | .option _ _ :: rs => 3 + ticks rs
  | .add l :: rs => l.length + ticks rs
  | _ :: rs => 2 + ticks rs

/-- **The bytes sent and those in the ring are together the bytes queued, and no supply was of more
than the room.** -/
structure Good (n : Net) (l : List Byte) : Prop where
  holds : Holds n.ring l
  markSafe : MarkSafe n.ring l.length
  sent_eq : n.out.sent ++ l = n.queued
  within : n.within = true

theorem good_start (buf : ℕ → Byte) {size clock : ℕ} (hs : 0 < size) (hc : clock < ulongSize) :
    Good (start buf size clock) [] where
  holds := holds_ringInit buf hs hc
  markSafe := (show MarkAt (ringInit buf size clock) _ none from rfl).safe
  sent_eq := rfl
  within := rfl

/-- `b` was queued, in at most `k` supplies. -/
structure Queued (n n' : Net) (l b : List Byte) (k : ℕ) : Prop where
  good : Good n' (l ++ b)
  size : n'.ring.size = n.ring.size
  clock : n'.ring.clock ≤ n.ring.clock + k
  exited : n'.exited = n.exited

section
variable {n n' n2 : Net} {l b b' : List Byte} {k k' : ℕ}

theorem Good.room_eq (h : Good n l) : n.room = (n.ring.size : ℤ) - l.length := by
  have h1 := h.holds.ringEmptyCount_eq
  have h2 := h.holds.length_le
  unfold Net.room Net.ring at *
  omega

theorem Queued.room_eq (h : Good n l) (hq : Queued n n' l b k) : n'.room = n.room - b.length := by
  rw [h.room_eq, hq.good.room_eq, hq.size, length_append]
  push_cast; omega

theorem Queued.trans (h : Queued n n' l b k) (h' : Queued n' n2 (l ++ b) b' k') :
    Queued n n2 l (b ++ b') (k + k') :=
  ⟨append_assoc l b b' ▸ h'.good, h'.size.trans h.size,
    by have := h.clock; have := h'.clock; omega, h'.exited.trans h.exited⟩

theorem Good.refl (h : Good n l) : Queued n n l [] 0 :=
  ⟨by rwa [append_nil], rfl, le_rfl, rfl⟩

theorem Good.netadd (h : Good n l) (c : Byte) (hroom : 1 ≤ n.room)
    (hclock : n.ring.clock + 1 < ulongSize) :
    Queued n (n.netadd c) l [c] 1 := by
  have hput : Holds (ringPut n.ring [c]) (l ++ [c]) := by
    refine h.holds.ringPut (by simp) ?_ hclock
    have h1 := h.room_eq
    have h3 := h.holds.supply_lt
    rw [h.holds.ringEmptyConsecutive_eq]
    simp only [length_singleton]; omega
  refine ⟨⟨hput, ?_, ?_, ?_⟩, rfl, le_rfl, rfl⟩
  · exact h.markSafe.congr rfl rfl rfl (by simp)
  · show n.out.sent ++ (l ++ [c]) = n.queued ++ [c]
    rw [← append_assoc, h.sent_eq]
  · show (n.within && decide _) = true
    rw [h.within, Bool.true_and, decide_eq_true_eq]
    exact hroom

theorem Good.netadds : ∀ {b : List Byte} {n : Net} {l : List Byte}, Good n l → b.length ≤ n.room →
    n.ring.clock + b.length < ulongSize → Queued n (n.netadds b) l b b.length
  | [], _, _, h, _, _ => h.refl
  | c :: b, n, l, h, hroom, hclock => by
    rw [length_cons] at hroom hclock
    have h1 := h.netadd c (by omega) (by omega)
    have hck := h1.clock
    have hr := Queued.room_eq h h1
    rw [length_singleton] at hr
    have h2 := h1.good.netadds (b := b) (by omega) (by omega)
    have h3 := h1.trans h2
    rw [add_comm] at h3
    exact h3

theorem Good.setneturg (h : Good n l) (hne : l ≠ []) : Good n.setneturg l :=
  ⟨h.holds.congr _ _, markSafe_ringMark h.holds hne, h.sent_eq, h.within⟩

theorem Good.synch (h : Good n l) (hroom : 2 ≤ n.room) (hclock : n.ring.clock + 2 < ulongSize) :
    Queued n ((n.netadd IAC).setneturg.netadd DM) l [IAC, DM] 2 := by
  have h1 := h.netadd IAC (by omega) (by omega)
  have hr := Queued.room_eq h h1
  rw [length_singleton] at hr
  have hg := h1.good.setneturg (by simp)
  have hck : (n.netadd IAC).setneturg.ring.clock ≤ n.ring.clock + 1 := h1.clock
  have hrm : (n.netadd IAC).setneturg.room = (n.netadd IAC).room := rfl
  have h2 := hg.netadd DM (by omega) (by omega)
  exact h1.trans ⟨h2.good, h2.size, h2.clock, h2.exited⟩

theorem Good.supply (h : Good n l) (hroom : (b.length : ℤ) ≤ n.room)
    (hclock : n.ring.clock + 2 < ulongSize) :
    ∃ n', n.supply b = some n' ∧ Queued n n' l b 2 := by
  obtain ⟨r, hr, hh, hf, hck⟩ := h.holds.ringSupplyData hroom hclock
  refine ⟨n.supplied b r, by rw [Net.supply, hr]; rfl, ⟨hh, ?_, ?_, ?_⟩, hf.size, hck, rfl⟩
  · exact h.markSafe.congr hf.mark hf.size hf.consume (by simp)
  · show n.out.sent ++ (l ++ b) = n.queued ++ b
    rw [← append_assoc, h.sent_eq]
  · show (n.within && decide _) = true
    rw [h.within, Bool.true_and, decide_eq_true_eq]
    exact hroom

end

/-! ### Requests -/

/-- **What there is room for is queued.** -/
theorem good_requests : ∀ (rs : List Req) {n : Net} {l : List Byte}, Good n l → RoomFor n.room rs →
    n.ring.clock + ticks rs < ulongSize → ∃ n' l', n.requests rs = some n' ∧ Good n' l'
  | [], n, l, h, _, _ => ⟨n, l, rfl, h⟩
  | r :: rs, n, l, h, hroom, hclock => by
    rw [Net.requests]
    split_ifs with hx
    · exact ⟨n, l, rfl, h⟩
    -- once `r` is queued, the room is what `RoomFor` says
    have next {n' : Net} {b : List Byte} {k : ℕ} (hreq : n.request r = some n')
        (hq : Queued n n' l b k) (hrs : RoomFor (n.room - b.length) rs)
        (hk : k + ticks rs ≤ ticks (r :: rs)) :
        ∃ n'' l', (n.request r).bind (Net.requests rs) = some n'' ∧ Good n'' l' := by
      have hck := hq.clock
      rw [hreq, Option.bind_some]
      exact good_requests rs hq.good (by rwa [Queued.room_eq h hq]) (by omega)
    cases r with
    | option v o =>
      have hck : n.ring.clock + (3 + ticks rs) < ulongSize := hclock
      exact next rfl (h.netadds (b := [IAC, v.code, o]) hroom.1 (by simp; omega)) hroom.2 le_rfl
    | add a =>
      have hck : n.ring.clock + (a.length + ticks rs) < ulongSize := hclock
      exact next rfl (h.netadds hroom.1 (by omega)) hroom.2 le_rfl
    | synch =>
      have hck : n.ring.clock + (2 + ticks rs) < ulongSize := hclock
      exact next rfl (h.synch hroom.1 (by omega)) hroom.2 le_rfl
    | supply a spare =>
      have hck : n.ring.clock + (2 + ticks rs) < ulongSize := hclock
      unfold RoomFor at hroom
      split_ifs at hroom with hfit
      · obtain ⟨n', hs, hq⟩ := h.supply (b := a) (by omega) (by omega)
        exact next (by rw [Net.request, if_pos hfit, hs]) hq hroom le_rfl
      · exact next (by rw [Net.request, if_neg hfit]) h.refl (by simpa using hroom)
          (by simp [ticks])
    | require a =>
      have hck : n.ring.clock + (2 + ticks rs) < ulongSize := hclock
      by_cases hfit : n.room > a.length
      · obtain ⟨n', hs, hq⟩ := h.supply (b := a) (by omega) (by omega)
        exact next (by rw [Net.request, if_pos hfit, hs]) hq (hroom hfit) le_rfl
      · rw [Net.request, if_neg hfit, Option.bind_some]
        have hg : Good { n with exited := true } l := ⟨h.holds, h.markSafe, h.sent_eq, h.within⟩
        cases rs with
        | nil => exact ⟨_, l, rfl, hg⟩
        | cons r' rs => exact ⟨_, l, by rw [Net.requests, if_pos rfl], hg⟩

/-! ### Sending -/

theorem good_send {n : Net} {l : List Byte} (h : Good n l) (hclock : n.ring.clock + 1 < ulongSize)
    (hpos : ¬ ringFullConsecutive n.ring ≤ 0) (x : SendResult) :
    ∃ l', Good { n with out := (n.out.send x).1 } l' ∧
      (n.out.send x).1.ring.clock ≤ n.ring.clock + 1 := by
  obtain ⟨k, hs⟩ := send_sends h.holds h.markSafe hpos x
  obtain ⟨hh, hm, hck⟩ := hs.holds h.holds h.markSafe hclock
  refine ⟨l.drop k, ⟨hh, hm, ?_, h.within⟩, hck⟩
  rw [hs.sent_eq, append_assoc, take_append_drop, h.sent_eq]

/-- **`netflush` sends the oldest of what is held, whatever `send` returns.** -/
theorem good_netflush : ∀ (xs : List SendResult) {n : Net} {l : List Byte}, Good n l →
    n.ring.clock + xs.length < ulongSize → ∃ l', Good (n.netflush xs) l'
  | [], _, l, h, _ => ⟨l, h⟩
  | x :: xs, n, l, h, hclock => by
    rw [length_cons] at hclock
    rw [Net.netflush, Network.netflush]
    split_ifs with h0 hagain
    · exact ⟨l, h⟩
    all_goals obtain ⟨l', h', hck⟩ := good_send h (by omega) h0 x
    · exact good_netflush xs h' (lt_of_le_of_lt (Nat.add_le_add_right hck _) (by omega))
    · exact ⟨l', h'⟩

end Inetutils.Telnet.Netoring
