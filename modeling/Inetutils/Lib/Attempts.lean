import Mathlib.Data.List.Basic
import Mathlib.Order.Defs.PartialOrder

/-! # A list that is tried in order

Some elements of a list are worth an attempt, and an attempt is accepted or not. A call goes through
the list until one is accepted, and the next call goes on behind it; what is worth an attempt, and
what is accepted, may differ from call to call.

* `failures`: the calls that came to the end of the list. -/

namespace Inetutils.Lib.Attempts

open List

variable {α : Type*}

structure Chooser (α : Type*) where
  worth : α → Bool
  accepts : α → Bool

/-- What a call tries, and what it leaves when an attempt is accepted. -/
def attempt (c : Chooser α) : List α → List α × Option (List α)
  | [] => ([], none)
  | a :: l =>
    if c.worth a then
      if c.accepts a then ([a], some l) else (a :: (attempt c l).1, (attempt c l).2)
    else attempt c l

/-- The attempts of each call, and whether one was accepted. -/
def attempts : List (Chooser α) → List α → List (List α × Bool)
  | [], _ => []
  | c :: cs, l => ((attempt c l).1, (attempt c l).2.isSome) :: attempts cs ((attempt c l).2.getD [])

/-- The calls that come to the end of the list. -/
def failures : List (Chooser α) → List α → ℕ
  | [], _ => 0
  | c :: cs, l => (if (attempt c l).2.isSome then 0 else 1) + failures cs ((attempt c l).2.getD [])

/-- A call: what it finds of the list, what it tries, whether one was accepted, and what it
leaves. -/
inductive Call (c : Chooser α) : List α → List α × Bool → List α → Prop
  | accepted {before : List α} {a : α} {behind : List α}
    (hnot : ∀ b ∈ before, c.worth b → ¬ c.accepts b)
      (hworth : c.worth a) (ha : c.accepts a) :
      Call c (before ++ a :: behind) (before.filter c.worth ++ [a], true) behind
  | exhausted {l : List α} (hnot : ∀ b ∈ l, c.worth b → ¬ c.accepts b) :
    Call c l (l.filter c.worth, false) []

inductive Session : List (Chooser α) → List α → List (List α × Bool) → Prop
  | nil {l : List α} : Session [] l []
  | cons {c : Chooser α} {cs : List (Chooser α)} {l l' : List α} {r : List α × Bool}
    {rs : List (List α × Bool)}
      (hcall : Call c l r l') (hrest : Session cs l' rs) : Session (c :: cs) l (r :: rs)

variable {c : Chooser α} {cs : List (Chooser α)} {l l' : List α} {r : List α × Bool}
    {rs : List (List α × Bool)}

theorem Call.cons {a : α} (h : Call c l r l') (ha : c.worth a → ¬ c.accepts a) :
    Call c (a :: l) ((if c.worth a then a :: r.1 else r.1), r.2) l' := by
  cases h with
  | accepted hnot hworth haccepts =>
    have h := @Call.accepted _ c _ _ l' (forall_mem_cons.2 ⟨ha, hnot⟩) hworth haccepts
    rw [filter_cons] at h
    split_ifs at h ⊢ <;> exact h
  | exhausted hnot =>
    have h := Call.exhausted (forall_mem_cons.2 ⟨ha, hnot⟩)
    rw [filter_cons] at h
    split_ifs at h ⊢ <;> exact h

theorem attempt_spec (c : Chooser α) :
    ∀ l : List α, Call c l ((attempt c l).1, (attempt c l).2.isSome) ((attempt c l).2.getD [])
  | [] => .exhausted nofun
  | a :: l => by
    have ih := attempt_spec c l
    unfold attempt
    by_cases hworth : c.worth a
    · by_cases ha : c.accepts a
      · rw [if_pos hworth, if_pos ha]
        exact @Call.accepted _ c [] _ _ nofun hworth ha
      · rw [if_pos hworth, if_neg ha]
        have h := ih.cons fun _ => ha
        rw [if_pos hworth] at h
        exact h
    · rw [if_neg hworth]
      have h := ih.cons fun hw => absurd hw hworth
      rw [if_neg hworth] at h
      exact h

theorem attempts_spec : ∀ (cs : List (Chooser α)) (l : List α), Session cs l (attempts cs l)
  | [], _ => .nil
  | c :: cs, l => .cons (attempt_spec c l) (attempts_spec cs _)

theorem Call.sublist (h : Call c l r l') : (r.1 ++ l').Sublist l := by
  cases h with
  | accepted _ _ _ =>
    rw [append_assoc, singleton_append]
    exact filter_sublist.append (.refl _)
  | exhausted _ =>
    rw [append_nil]
    exact filter_sublist

/-- **What is tried over all calls is in the order of the list**, each place once at most. -/
theorem Session.sublist (h : Session cs l rs) : (rs.flatMap Prod.fst).Sublist l := by
  induction h with
  | nil => exact nil_sublist _
  | cons hcall _ ih => exact ((List.Sublist.refl _).append ih).trans hcall.sublist

theorem failures_nil : ∀ cs : List (Chooser α), failures cs [] = cs.length
  | [] => rfl
  | _ :: cs => (congrArg (1 + ·) (failures_nil cs)).trans (Nat.add_comm _ _)

end Inetutils.Lib.Attempts
