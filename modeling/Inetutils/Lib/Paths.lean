import Mathlib.Data.List.Infix

/-! # Paths resolved by their text

A path is a list over any alphabet with a separator and a dot. Its components are what is between
the separators; `resolve` drops the empty and the one-dot components and lets a two-dot component
take back the one before it. A path without a two-dot component past some prefix resolves below that
prefix (`inside_append_sep`), and where a two-dot component can be is a question of what stands
around it (`mem_splitOn`). -/

namespace Inetutils.Lib.Paths

open List

variable {α : Type*} [DecidableEq α] (sep dot : α)

/-- The components read so far, the last one last, and the next component. -/
def visit (stack : List (List α)) (c : List α) : List (List α) :=
  if c = [] ∨ c = [dot] then stack
  else if c = [dot, dot] then stack.dropLast
  else stack ++ [c]

def resolve (p : List α) : List (List α) := (p.splitOn sep).foldl (visit dot) []

/-- `p` names something below what `d` names, or the same. -/
def Inside (d p : List α) : Prop := resolve sep dot d <+: resolve sep dot p

def basename (p : List α) : List α := (p.splitOn sep).getLast (List.splitOn_ne_nil _ _)

variable {sep dot}

/-! ### Below a prefix -/

theorem prefix_visit {c : List α} (hc : c ≠ [dot, dot]) (stack : List (List α)) :
    stack <+: visit dot stack c := by
  unfold visit
  split_ifs
  · exact prefix_rfl
  · exact prefix_append _ _

theorem prefix_foldl_visit {cs : List (List α)} (hcs : [dot, dot] ∉ cs) (stack : List (List α)) :
    stack <+: cs.foldl (visit dot) stack := by
  induction cs generalizing stack with
  | nil => exact prefix_rfl
  | cons c cs ih =>
    have hc : c ≠ [dot, dot] := fun h => hcs (h ▸ mem_cons_self)
    exact (prefix_visit hc stack).trans (ih (fun h => hcs (mem_cons_of_mem _ h)) _)

theorem resolve_append_sep (p q : List α) :
    resolve sep dot (p ++ sep :: q) = (q.splitOn sep).foldl (visit dot) (resolve sep dot p) := by
  simp only [resolve, splitOn_append_cons_self, foldl_append]

theorem inside_append_sep {p q : List α} (hq : [dot, dot] ∉ q.splitOn sep) :
    Inside sep dot p (p ++ sep :: q) := by
  rw [Inside, resolve_append_sep]
  exact prefix_foldl_visit hq _

/-! ### Where a component stands -/

theorem basename_append_sep (p q : List α) : basename sep (p ++ sep :: q) = basename sep q := by
  simp only [basename, splitOn_append_cons_self]
  exact getLast_append_of_ne_nil _ (splitOn_ne_nil _ _)

/-- A component is the last one, or a separator ends it; then it is the first one, or another begins
it. -/
theorem mem_splitOn {p c : List α} (hc : c ∈ p.splitOn sep) :
    basename sep p = c ∨ c ++ [sep] <+: p ∨ sep :: (c ++ [sep]) <:+: p := by
  induction hn : p.length using Nat.strong_induction_on generalizing p with | _ n ih
  by_cases hs : sep ∈ p
  · obtain ⟨a, q, rfl, ha⟩ := eq_append_cons_of_mem hs
    rw [splitOn_append_cons_self_of_not_mem ha, mem_cons] at hc
    rw [basename_append_sep]
    rcases hc with rfl | hc
    · exact .inr (.inl ⟨q, by simp⟩)
    · rcases ih q.length (by simp [← hn]; omega) hc rfl with h | ⟨t, rfl⟩ | h
      · exact .inl h
      · exact .inr (.inr ⟨a, t, by simp⟩)
      · exact .inr (.inr (h.trans ⟨a ++ [sep], [], by simp⟩))
  · rw [splitOn_eq_singleton hs, mem_singleton] at hc
    left
    simp only [basename, splitOn_eq_singleton hs, getLast_singleton, hc]

theorem exists_append_of_mem_splitOn {p c : List α} (hc : c ∈ p.splitOn sep) :
    ∃ a b, p = a ++ (c ++ b) ∧ (a = [] ∨ a.getLast? = some sep) ∧
    (b = [] ∨ b.head? = some sep) := by
  induction hn : p.length using Nat.strong_induction_on generalizing p with | _ n ih
  by_cases hs : sep ∈ p
  · obtain ⟨l, q, rfl, hl⟩ := eq_append_cons_of_mem hs
    rw [splitOn_append_cons_self_of_not_mem hl, mem_cons] at hc
    rcases hc with rfl | hc
    · exact ⟨[], sep :: q, rfl, .inl rfl, .inr rfl⟩
    · obtain ⟨a, b, rfl, ha, hb⟩ := ih q.length (by simp [← hn]; omega) hc rfl
      refine ⟨l ++ sep :: a, b, by simp, .inr ?_, hb⟩
      rcases ha with rfl | ha
      · simp
      · rw [getLast?_append, getLast?_cons, ha]
        rfl
  · rw [splitOn_eq_singleton hs, mem_singleton] at hc
    exact ⟨[], [], by simp [hc], .inl rfl, .inl rfl⟩

end Inetutils.Lib.Paths
