import Mathlib.Algebra.Order.Ring.Int
import Mathlib.Data.List.GetD

/-! # Feedback modes of a block cipher

A cipher `E` of blocks of `m` symbols makes a stream of symbols out of an initial block, and each
symbol of a text is combined with the symbol of the stream at its place. The blocks of the stream
are `E` of the one before (output feedback) or `E` of the block that was written with it (cipher
feedback). -/

namespace Inetutils.Lib.Feedback

open List

variable {m : ℕ} {α : Type*} [Inhabited α]

abbrev Block (m : ℕ) (α : Type*) := Fin m → α

inductive Mode
  | cipher
  | output
  deriving DecidableEq

/-- Block number `n` of a text. -/
def block (m : ℕ) (l : List α) (n : ℕ) : Block m α := fun j => l.getD (m * n + j) default

/-- Block number `n` of the stream, when `o` is written. -/
def vector (mode : Mode) (E : Block m α → Block m α) (iv : Block m α) (o : List α) : ℕ → Block m α
  | 0 => E iv
  | n + 1 =>
    match mode with
    | .cipher => E (block m o n)
    | .output => E (vector mode E iv o n)

def symbol [NeZero m] (mode : Mode) (E : Block m α → Block m α) (iv : Block m α) (o : List α)
    (i : ℕ) : α :=
  vector mode E iv o (i / m) (Fin.ofNat m i)

/-- `o` is the text `d` in the mode. -/
def Enciphers [NeZero m] (op : α → α → α) (mode : Mode) (E : Block m α → Block m α) (iv : Block m α)
    (d o : List α) :
    Prop :=
  o.length = d.length ∧ ∀ i < d.length,
    o.getD i default = op (d.getD i default) (symbol mode E iv o i)

section
variable {mode : Mode} {E : Block m α → Block m α} {iv : Block m α} {o : List α}

theorem block_append (h : m * (n + 1) ≤ o.length) (c : List α) :
    block m (o ++ c) n = block m o n := by
  funext j
  unfold block
  rw [Nat.mul_succ] at h
  rw [getD_append _ _ _ _ (by omega)]

/-- **What is written behind a block of the stream** does not change it. -/
theorem vector_append {n : ℕ} (h : m * n ≤ o.length) (c : List α) :
    vector mode E iv (o ++ c) n = vector mode E iv o n := by
  induction n with
  | zero => rfl
  | succ n ih =>
    cases mode with
    | cipher => exact congrArg E (block_append h c)
    | output =>
      rw [Nat.mul_succ] at h
      exact congrArg E (ih (by omega))

variable [NeZero m]

theorem symbol_append {i : ℕ} (h : i ≤ o.length) (c : List α) :
    symbol mode E iv (o ++ c) i = symbol mode E iv o i := by
  unfold symbol
  rw [vector_append ((Nat.mul_div_le i m).trans h)]

theorem enciphers_nil (op : α → α → α) : Enciphers op mode E iv [] [] := ⟨rfl, nofun⟩

variable {op : α → α → α} {d : List α}

theorem Enciphers.concat (h : Enciphers op mode E iv d o) (a : α) :
    Enciphers op mode E iv (d ++ [a]) (o ++ [op a (symbol mode E iv o o.length)]) := by
  obtain ⟨hlen, hall⟩ := h
  refine ⟨by simp [hlen], fun i hi => ?_⟩
  rw [length_append, length_singleton] at hi
  rcases Nat.lt_or_eq_of_le (Nat.lt_succ_iff.1 hi) with hlt | rfl
  · rw [getD_append _ _ _ _ (by omega), getD_append _ _ _ _ hlt, symbol_append (by omega)]
    exact hall i hlt
  · rw [← hlen, symbol_append le_rfl, getD_append_right _ _ _ _ le_rfl, hlen,
      getD_append_right _ _ _ _ le_rfl, Nat.sub_self]
    rfl

theorem Enciphers.symbols (hop : ∀ a b, op (op a b) b = a) (h : Enciphers op mode E iv d o) {i : ℕ}
    (hi : i < d.length) : op (o.getD i default) (symbol mode E iv o i) = d.getD i default := by
  rw [h.2 i hi, hop]

end

end Inetutils.Lib.Feedback
