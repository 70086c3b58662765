import Mathlib.Data.List.Basic

/-! # Cursors

A list that is gone through by calls, each of which gives the next item, or says that there is none;
a call may also say that the list is to be left, and the next one then begins at its front. `call`
is such a cursor. -/

namespace Inetutils.Lib.Cursors

variable {α β σ : Type*}

def next : List α → Option α × Option (List α)
  | [] => (none, none)
  | a :: l => (some a, some l)

/-- A call: `rest` is what the calls before have left, when there were any. -/
def call (items : List α) (rest : Option (List α)) (go : Bool) : Option α × Option (List α) :=
  if go then next (rest.getD items) else (none, none)

def results (step : σ → Bool → Option (β × σ)) : σ → List Bool → Option (List β)
  | _, [] => some []
  | s, b :: bs => (step s b).bind fun r => (results step r.2 bs).map (r.1 :: ·)

def cursor (items : List α) : Option (List α) → List Bool → List (Option α)
  | _, [] => []
  | rest, b :: bs => (call items rest b).1 :: cursor items (call items rest b).2 bs

/-- The machine has the results of the cursor, whatever the calls are. -/
def Agrees (step : σ → Bool → Option (Option α × σ)) (items : List α) (s : σ)
    (rest : Option (List α)) : Prop :=
  ∀ bs, results step s bs = some (cursor items rest bs)

section

variable {step : σ → Bool → Option (Option α × σ)} {items : List α} {s : σ} {rest : Option (List α)}

theorem agrees_iff :
    Agrees step items s rest ↔
      ∀ b, ∃ s', step s b = some ((call items rest b).1, s') ∧
      Agrees step items s' (call items rest b).2 := by
  constructor
  · intro h b
    have hone := h [b]
    rcases hs : step s b with - | ⟨x, s'⟩
    · rw [results, hs] at hone
      cases hone
    · have hcons (bs : List Bool) :
          (results step s' bs).map (x :: ·) =
          some ((call items rest b).1 :: cursor items (call items rest b).2 bs) := by
        have hbs := h (b :: bs)
        rwa [results, hs] at hbs
      have hx : x = (call items rest b).1 := (List.cons.inj (Option.some.inj (hcons []))).1
      refine ⟨s', by rw [hx], fun bs => ?_⟩
      obtain ⟨l, hl, heq⟩ := Option.map_eq_some_iff.1 (hcons bs)
      rw [hl, (List.cons.inj heq).2]
  · intro h bs
    rcases bs with - | ⟨b, bs⟩
    · rfl
    · obtain ⟨s', hs, hagrees⟩ := h b
      rw [results, hs, Option.bind_some, hagrees bs]
      rfl

/-- **Simulation**: a relation that each call keeps. -/
theorem agrees_of {R : σ → Option (List α) → Prop}
    (hstep : ∀ s rest b, R s rest → ∃ s', step s b = some ((call items rest b).1, s') ∧
      R s' (call items rest b).2)
    (h : R s rest) : Agrees step items s rest := by
  intro bs
  induction bs generalizing s rest with
  | nil => rfl
  | cons b bs ih =>
    obtain ⟨s', hs, hR⟩ := hstep s rest b h
    rw [results, hs, Option.bind_some, ih hR]
    rfl

end

end Inetutils.Lib.Cursors
