import Inetutils.Lib.Runs
import Mathlib.Algebra.Order.Ring.Int

/-! # Agreement on a switch

Two parties negotiate over two queues whether a switch is on. Each knows the state last negotiated,
the state it wants, and how many of its own requests are not answered yet (`resp`). A message is
just a state. A party that receives one counts it as an answer as long as it waits for answers;
otherwise it adopts the state and says so.

* `Inv` is what links the parties and the queues: the messages in a queue alternate, from what the
  receiver has as the state to what the sender wants; and there are as many messages on the way as
  answers awaited. -/

namespace Inetutils.Lib.Agreement

open Runs List

structure Party where
  state : Bool
  want : Bool
  resp : ℕ
  deriving DecidableEq

/-- A request to change to `n` is not made. -/
def Party.declines (p : Party) (n : Bool) : Prop := (p.resp = 0 ∧ p.state = n) ∨ p.want = n

instance (p : Party) (n : Bool) : Decidable (p.declines n) := inferInstanceAs (Decidable (_ ∨ _))

/-- Requests the change to `n`, with the messages sent. -/
def Party.request (p : Party) (n : Bool) : Party × List Bool :=
  if p.declines n then (p, []) else ({ p with want := n, resp := p.resp + 1 }, [n])

/-- Takes `n` for an answer, if one is awaited. -/
def Party.answered (p : Party) (n : Bool) : Party :=
  if p.resp = 0 then p
  else if p.resp - 1 ≠ 0 ∧ p.state = n then { p with resp := p.resp - 1 - 1 }
  else { p with resp := p.resp - 1 }

/-- Receives `n`, with the messages sent. -/
def Party.receive (p : Party) (n : Bool) : Party × List Bool :=
  let q := p.answered n
  if q.resp = 0 ∧ q.want ≠ n then
    ({ q with state := n, want := n }, if n = true ∨ q.state = true then [n] else [])
  else ({ q with state := n }, [])

/-- The parties `a` and `b`, the messages on the way to them, and the number of messages sent so
far. -/
structure Talk where
  a : Party
  b : Party
  toA : List Bool
  toB : List Bool
  sent : ℕ

variable {s : Talk}

def Talk.swap (s : Talk) : Talk := ⟨s.b, s.a, s.toB, s.toA, s.sent⟩

inductive End
  | a
  | b

/-- One end requests a change, or receives the first message on the way to it. -/
inductive Op
  | request (e : End) (n : Bool)
  | deliver (e : End)

def requestA (n : Bool) (s : Talk) : Talk :=
  let p := s.a.request n
  { s with a := p.1, toB := s.toB ++ p.2, sent := s.sent + p.2.length }

def deliverA (s : Talk) : Talk :=
  match s.toA with
  | [] => s
  | n :: l =>
    let p := s.a.receive n
    { s with a := p.1, toA := l, toB := s.toB ++ p.2, sent := s.sent + p.2.length }

def step (s : Talk) : Op → Talk
  | .request .a n => requestA n s
  | .request .b n => (requestA n s.swap).swap
  | .deliver .a => deliverA s
  | .deliver .b => (deliverA s.swap).swap

def start : Talk := ⟨⟨false, false, 0⟩, ⟨false, false, 0⟩, [], [], 0⟩

theorem deliverA_nil (h : s.toA = []) : deliverA s = s := by
  unfold deliverA; rw [h]

theorem deliverA_cons {n : Bool} {l : List Bool} (h : s.toA = n :: l) :
    deliverA s =
      { s with
        a := (s.a.receive n).1
        toA := l
        toB := s.toB ++ (s.a.receive n).2
        sent := s.sent + (s.a.receive n).2.length } := by
  unfold deliverA; rw [h]

/-! ### The invariant -/

/-- The list alternates, from after `x` on, and ends with `y`. -/
def Alternates : Bool → List Bool → Bool → Prop
  | x, [], y => x = y
  | x, n :: l, y => n ≠ x ∧ Alternates n l y

theorem Alternates.snoc : ∀ {l : List Bool} {x y n : Bool}, Alternates x l y → n ≠ y →
    Alternates x (l ++ [n]) n
  | [], _, _, _, h, hn => ⟨by rw [show _ = _ from h]; exact hn, rfl⟩
  | _ :: _, _, _, _, h, hn => ⟨h.1, h.2.snoc hn⟩

/-- An odd number of answers is awaited just if the party wants to change. -/
def Party.Odd (p : Party) : Prop := p.resp % 2 = if p.want = p.state then 0 else 1

theorem eq_iff_of_ne : ∀ {x y z : Bool}, x ≠ y → (x = z ↔ y ≠ z) := by decide

structure Inv (s : Talk) : Prop where
  oddA : s.a.Odd
  oddB : s.b.Odd
  toA : Alternates s.a.state s.toA s.b.want
  toB : Alternates s.b.state s.toB s.a.want
  flight : s.a.resp + s.b.resp = s.toA.length + s.toB.length

theorem inv_start : Inv start := ⟨rfl, rfl, rfl, rfl, rfl⟩

theorem Inv.swap (h : Inv s) : Inv s.swap :=
  ⟨h.oddB, h.oddA, h.toB, h.toA, by
    have := h.flight
    show s.b.resp + s.a.resp = s.toB.length + s.toA.length
    omega⟩

/-- **What a message does to a party that is not in its state**: it is an answer, or it is taken
over. -/
theorem receive_eq {p : Party} (hp : p.Odd) {n : Bool} (hn : n ≠ p.state) :
    p.receive n =
      if p.resp = 0 then ({ p with state := n, want := n }, [n])
      else ({ p with state := n, resp := p.resp - 1 }, []) := by
  obtain ⟨state, want, resp⟩ := p
  have hne : ¬ state = n := fun h => hn h.symm
  unfold Party.Odd at hp
  dsimp only at hp hn
  by_cases h0 : resp = 0
  · subst h0
    obtain rfl : want = state := by
      by_contra h
      rw [if_neg h] at hp
      exact absurd hp (by decide)
    have hone : n = true ∨ want = true := by
      cases n <;> cases want <;> simp_all
    simp [Party.receive, Party.answered, hne, hone]
  · have hw : resp - 1 = 0 → want = n := by
      intro h1
      have h2 : want ≠ state := fun h => by rw [if_pos h] at hp; omega
      cases n <;> cases want <;> cases state <;> simp_all
    simp only [Party.receive, Party.answered, h0, hne, and_false, if_false]
    rw [if_neg (fun h => h.2 (hw h.1))]

theorem inv_requestA (h : Inv s) (n : Bool) : Inv (requestA n s) := by
  unfold requestA Party.request
  by_cases hd : s.a.declines n
  · rw [if_pos hd]; simpa using h
  · rw [if_neg hd]
    have hw : n ≠ s.a.want := fun h0 => hd (.inr h0.symm)
    have h1 := h.flight
    have h2 : s.a.resp % 2 = if s.a.want = s.a.state then 0 else 1 := h.oddA
    refine ⟨?_, h.oddB, h.toA, h.toB.snoc hw, ?_⟩
    · show (s.a.resp + 1) % 2 = if n = s.a.state then 0 else 1
      simp only [eq_iff_of_ne (z := s.a.state) hw, ite_not]
      split_ifs at h2 ⊢ <;> omega
    · simp only [length_append, length_singleton]; omega

theorem inv_deliverA (h : Inv s) : Inv (deliverA s) := by
  cases hl : s.toA with
  | nil => rw [deliverA_nil hl]; exact h
  | cons n l =>
    have h1 := h.toA
    have h2 := h.flight
    have h3 : s.a.resp % 2 = if s.a.want = s.a.state then 0 else 1 := h.oddA
    rw [hl] at h1 h2
    rw [length_cons] at h2
    rw [deliverA_cons hl, receive_eq h.oddA h1.1]
    have hn := h1.1
    by_cases h0 : s.a.resp = 0
    · rw [if_pos h0]
      have hw : n ≠ s.a.want := by
        rw [h0] at h3
        split_ifs at h3 with he
        rw [he]; exact hn
      refine ⟨by simp [Party.Odd, h0], h.oddB, h1.2, h.toB.snoc hw, ?_⟩
      rw [length_append, length_singleton]
      show s.a.resp + s.b.resp = l.length + (s.toB.length + 1)
      omega
    · rw [if_neg h0]
      refine ⟨?_, h.oddB, h1.2, by rw [append_nil]; exact h.toB, ?_⟩
      · show (s.a.resp - 1) % 2 = if s.a.want = n then 0 else 1
        simp only [eq_comm (a := s.a.want), eq_iff_of_ne (z := s.a.want) hn, ite_not] at h3 ⊢
        split_ifs at h3 ⊢ <;> omega
      · simp only [append_nil]; omega

theorem inv_step (h : Inv s) : ∀ op, Inv (step s op)
  | .request .a n => inv_requestA h n
  | .request .b n => (inv_requestA h.swap n).swap
  | .deliver .a => inv_deliverA h
  | .deliver .b => (inv_deliverA h.swap).swap

/-! ### The ends agree -/

/-- **With nothing on the way, no answers are awaited, and all four states are one.** -/
theorem Inv.agree (h : Inv s) (hA : s.toA = []) (hB : s.toB = []) :
    s.a.resp = 0 ∧ s.b.resp = 0 ∧ s.a.want = s.a.state ∧ s.b.state = s.a.state ∧
      s.b.want = s.a.state := by
  have h1 := h.flight
  have h2 := h.toA
  have h3 := h.toB
  have h4 : s.a.resp % 2 = if s.a.want = s.a.state then 0 else 1 := h.oddA
  rw [hA] at h1 h2
  rw [hB] at h1 h3
  simp only [length_nil] at h1
  obtain ⟨h5, h6⟩ : s.a.resp = 0 ∧ s.b.resp = 0 := by omega
  have h7 : s.a.want = s.a.state := by
    rw [h5] at h4
    by_contra h
    rw [if_neg h] at h4
    exact absurd h4 (by decide)
  exact ⟨h5, h6, h7, h3.trans h7, h2.symm⟩

/-! ### The talk ends -/

def Talk.owed (s : Talk) : ℕ := ((s.toA.length : ℤ) - s.a.resp).natAbs

theorem owed_swap (h : Inv s) : s.swap.owed = s.owed := by
  have := h.flight
  show ((s.toB.length : ℤ) - s.b.resp).natAbs = ((s.toA.length : ℤ) - s.a.resp).natAbs
  omega

theorem owed_le (h : Inv s) : s.owed ≤ s.toA.length + s.toB.length := by
  have := h.flight
  unfold Talk.owed
  omega

theorem deliverA_potential (h : Inv s) :
    (deliverA s).sent + (deliverA s).owed = s.sent + s.owed := by
  cases hl : s.toA with
  | nil => rw [deliverA_nil hl]
  | cons n l =>
    have h1 := h.toA
    have h2 := h.flight
    rw [hl] at h1 h2
    rw [length_cons] at h2
    rw [deliverA_cons hl, receive_eq h.oddA h1.1]
    unfold Talk.owed
    rw [hl, length_cons]
    split_ifs with h0
    · simp only [length_singleton]; omega
    · simp only [length_nil]; omega

/-- **A delivery turns what is owed into what is sent**, or leaves both. -/
theorem deliver_potential (h : Inv s) : ∀ e : End,
    (step s (.deliver e)).sent + (step s (.deliver e)).owed = s.sent + s.owed
  | .a => deliverA_potential h
  | .b => by
    have h1 := deliverA_potential h.swap
    have h2 := owed_swap (inv_deliverA h.swap)
    rw [owed_swap h] at h1
    show (deliverA s.swap).sent + (deliverA s.swap).swap.owed = _
    rw [h2, h1]; rfl

end Inetutils.Lib.Agreement
