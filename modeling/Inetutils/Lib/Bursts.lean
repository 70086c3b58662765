import Mathlib.Data.List.Basic

/-! # A limiter that counts bursts

The counter has how many requests there were since the first of a burst. Only when the limit is
reached is the time looked at: a burst that has lasted for more than the width begins anew, and in
any other the request is refused. -/

namespace Inetutils.Lib.Bursts

open Option

structure Counter where
  count : ℕ
  time : ℕ

section
variable (width limit : ℕ)

/-- One more request; `none` when it is refused. -/
def tick (c : Counter) (now : ℕ) : Option Counter :=
  if c.count = 0 then some ⟨1, now⟩
  else if limit ≤ c.count + 1 then if c.time + width < now then some ⟨1, now⟩ else none
  else some ⟨c.count + 1, c.time⟩

def ticks (c : Counter) : List ℕ → Option Counter
  | [] => some c
  | t :: ts => (tick width limit c t).bind fun c' => ticks c' ts

end

variable {width limit : ℕ} {c c' : Counter} {now a : ℕ}

theorem tick_eq_some (h : tick width limit c now = some c') :
    c' = ⟨1, now⟩ ∧ (c.count = 0 ∨ c.time + width < now) ∨
      c' = ⟨c.count + 1, c.time⟩ ∧ c.count ≠ 0 ∧ c.count + 1 < limit := by
  rw [tick] at h
  split at h
  next h0 => exact .inl ⟨(some.inj h).symm, .inl h0⟩
  next h0 =>
    split at h
    next =>
      split at h
      next ht => exact .inl ⟨(some.inj h).symm, .inr ht⟩
      next => exact absurd h.symm (some_ne_none c')
    next hl => exact .inr ⟨(some.inj h).symm, h0, by omega⟩

theorem tick_eq_none (h : tick width limit c now = none) :
    limit ≤ c.count + 1 ∧ now ≤ c.time + width := by
  rw [tick] at h
  split at h
  next => exact absurd h (some_ne_none _)
  next =>
    split at h
    next hl =>
      split at h
      next => exact absurd h (some_ne_none _)
      next ht => exact ⟨hl, by omega⟩
    next => exact absurd h (some_ne_none _)

theorem ticks_append (l l' : List ℕ) :
    ticks width limit c (l ++ l') = (ticks width limit c l).bind fun c' =>
    ticks width limit c' l' := by
  induction l generalizing c with
  | nil => rfl
  | cons t l ih =>
    rw [List.cons_append, ticks, ticks, bind_assoc]
    exact congrArg _ (funext fun c' => ih)

/-! ### What is counted -/

def Backed (c : Counter) (requests : List ℕ) : Prop := c.count ≤ requests.countP (c.time ≤ ·)

theorem Backed.append {requests : List ℕ} (h : Backed c requests) (more : List ℕ) :
    Backed c (requests ++ more) := by
  rw [Backed, List.countP_append]
  exact Nat.le_add_right_of_le h

theorem Backed.tick {requests : List ℕ} (h : Backed c requests) (ht : c.count ≠ 0 → c.time ≤ now)
    (hc : tick width limit c now = some c') : Backed c' (requests ++ [now]) := by
  rw [Backed, List.countP_append]
  rcases tick_eq_some hc with ⟨rfl, -⟩ | ⟨rfl, h0, -⟩
  · simp
  · rw [Backed] at h
    simp [ht h0, h]

/-! ### What is granted -/

/-- How many requests are left, at most, in an interval that begins at `a`. -/
def slack (limit a : ℕ) (c : Counter) : ℕ :=
  limit - 1 - c.count + if a ≤ c.time then 0 else limit - 1

theorem slack_le (limit a : ℕ) (c : Counter) : slack limit a c ≤ 2 * limit := by
  rw [slack]
  split <;> omega

theorem slack_tick (hl : 2 ≤ limit) (hc : tick width limit c now = some c') (ha : a ≤ now)
    (hw : now ≤ a + width) :
    1 + slack limit a c' ≤ slack limit a c := by
  rw [slack, slack]
  rcases tick_eq_some hc with ⟨rfl, h0 | ht⟩ | ⟨rfl, -, hlt⟩
  · rw [if_pos ha, h0]
    dsimp only
    omega
  · -- the burst before has begun before the interval
    rw [if_pos ha, if_neg (by omega)]
    dsimp only
    omega
  · dsimp only
    omega

theorem length_add_slack_le (hl : 2 ≤ limit) {l : List ℕ} (hc : ticks width limit c l = some c')
    (h : ∀ t ∈ l, a ≤ t ∧ t ≤ a + width) : l.length + slack limit a c' ≤ slack limit a c := by
  induction l generalizing c with
  | nil =>
    obtain rfl := some.inj hc
    exact Nat.le_of_eq (Nat.zero_add _)
  | cons t l ih =>
    obtain ⟨c₁, h1, h2⟩ := bind_eq_some_iff.1 hc
    rw [List.forall_mem_cons] at h
    have hone := slack_tick hl h1 h.1.1 h.1.2
    have hrest := ih h2 h.2
    rw [List.length_cons]
    omega

end Inetutils.Lib.Bursts
