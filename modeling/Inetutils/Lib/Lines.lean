import Mathlib.Algebra.GroupWithZero.Nat
import Mathlib.Data.List.Basic

/-! # Lines of a stream

A stream is cut at a delimiter: `cut d part l` are the lines that are complete in `l`, when `part`
was read before, and what is left of the last one. A stream read in pieces has the lines it has as a
whole (`cut_append`). -/

namespace Inetutils.Lib.Lines

open List

variable {α : Type*} [DecidableEq α] (d : α)

def cut (part : List α) : List α → List (List α) × List α
  | [] => ([], part)
  | a :: l => if a = d then (part :: (cut [] l).1, (cut [] l).2) else cut (part ++ [a]) l

variable (part : List α)

@[simp] theorem cut_nil : cut d part [] = ([], part) := rfl

variable (l : List α)

theorem cut_delim : cut d part (d :: l) = (part :: (cut d [] l).1, (cut d [] l).2) := by
  rw [cut, if_pos rfl]

theorem cut_cons {a : α} (h : a ≠ d) (part l : List α) :
    cut d part (a :: l) = cut d (part ++ [a]) l := by
  rw [cut, if_neg h]

@[elab_as_elim] theorem line_induction {motive : List α → Prop} (last : ∀ l, d ∉ l → motive l)
    (line : ∀ y r, d ∉ y → motive r → motive (y ++ d :: r)) (l : List α) : motive l := by
  induction h : l.length using Nat.strongRecOn generalizing l with
  | ind k ih =>
    by_cases hl : d ∈ l
    · obtain ⟨y, r, rfl, hy⟩ := eq_append_cons_of_mem hl
      refine line y r hy (ih r.length ?_ r rfl)
      rw [← h, length_append, length_cons]
      omega
    · exact last l hl

/-- **Piece by piece.** -/
theorem cut_append (l' : List α) :
    cut d part (l ++ l') =
      ((cut d part l).1 ++ (cut d (cut d part l).2 l').1, (cut d (cut d part l).2 l').2) := by
  fun_induction cut d part l with
  | case1 part => rfl
  | case2 part l ih => rw [cons_append, cut_delim, ih, cons_append]
  | case3 part a l h ih => rw [cons_append, cut_cons d h, ih]

theorem cut_of_not_mem {l : List α} (h : d ∉ l) (part : List α) :
    cut d part l = ([], part ++ l) := by
  induction l generalizing part with
  | nil => rw [cut_nil, append_nil]
  | cons a l ih =>
    rw [mem_cons, not_or] at h
    rw [cut_cons d (Ne.symm h.1), ih h.2, append_assoc]
    rfl

theorem cut_part {part : List α} (h : d ∉ part) (l : List α) :
    cut d [] (part ++ l) = cut d part l := by
  rw [cut_append, cut_of_not_mem d h]
  rfl

theorem cut_line {y : List α} (h : d ∉ y) (r : List α) :
    cut d [] (y ++ d :: r) = (y :: (cut d [] r).1, (cut d [] r).2) := by
  rw [cut_part d h, cut_delim]

theorem not_mem_cut {part : List α} (h : d ∉ part) (l : List α) :
    (∀ x ∈ (cut d part l).1, d ∉ x) ∧ d ∉ (cut d part l).2 := by
  fun_induction cut d part l with
  | case1 part => exact ⟨fun x hx => absurd hx not_mem_nil, h⟩
  | case2 part l ih =>
    obtain ⟨h1, h2⟩ := ih not_mem_nil
    refine ⟨fun x hx => ?_, h2⟩
    rcases mem_cons.1 hx with rfl | hx
    · exact h
    · exact h1 x hx
  | case3 part a l hne ih =>
    refine ih fun hm => ?_
    rcases mem_append.1 hm with hm | hm
    · exact h hm
    · exact hne (mem_singleton.1 hm).symm

theorem mem_of_mem_cut {a : α} :
    (∀ x ∈ (cut d part l).1, a ∈ x → a ∈ part ∨ a ∈ l) ∧
    (a ∈ (cut d part l).2 → a ∈ part ∨ a ∈ l) := by
  fun_induction cut d part l with
  | case1 part => exact ⟨fun x hx => absurd hx not_mem_nil, Or.inl⟩
  | case2 part l ih =>
    refine ⟨fun x hx ha => ?_, fun ha => ?_⟩
    · rcases mem_cons.1 hx with rfl | hx
      · exact .inl ha
      · exact .inr (mem_cons_of_mem _ ((ih.1 x hx ha).resolve_left not_mem_nil))
    · exact .inr (mem_cons_of_mem _ ((ih.2 ha).resolve_left not_mem_nil))
  | case3 part b l hne ih =>
    have hor : a ∈ part ++ [b] ∨ a ∈ l → a ∈ part ∨ a ∈ b :: l := by
      rintro (h | h)
      · rcases mem_append.1 h with h | h
        · exact .inl h
        · exact .inr (mem_singleton.1 h ▸ mem_cons_self)
      · exact .inr (mem_cons_of_mem _ h)
    exact ⟨fun x hx ha => hor (ih.1 x hx ha), fun ha => hor (ih.2 ha)⟩

theorem cut_of_fst_nil {part l : List α} (h : (cut d part l).1 = []) :
    cut d part l = ([], part ++ l) := by
  fun_induction cut d part l with
  | case1 part => rw [append_nil]
  | case2 part l ih => exact absurd h (cons_ne_nil _ _)
  | case3 part a l hne ih => rw [ih h, append_assoc, singleton_append]

theorem cut_prefix (p q l : List α) : cut d (p ++ q) l =
    ((cut d q l).1.modifyHead (p ++ ·),
      if (cut d q l).1 = [] then p ++ (cut d q l).2 else (cut d q l).2) := by
  fun_induction cut d q l with
  | case1 q => rfl
  | case2 q l ih => rw [cut_delim]; rfl
  | case3 q a l h ih => rw [cut_cons d h, append_assoc, ih]

theorem length_cut :
    ((cut d part l).1.map fun x => x.length + 1).sum + (cut d part l).2.length =
      part.length + l.length := by
  fun_induction cut d part l with
  | case1 part => simp
  | case2 part l ih =>
    rw [map_cons, sum_cons, add_assoc, ih, length_nil, length_cons]
    omega
  | case3 part a l h ih =>
    rw [ih, length_append, length_cons, length_cons, length_nil]
    omega

def join (ls : List (List α)) (last : List α) : List α := ls.flatMap (· ++ [d]) ++ last

omit [DecidableEq α] in
theorem join_nil (last : List α) : join d [] last = last := rfl

omit [DecidableEq α] in
theorem join_cons (x : List α) (ls : List (List α)) (last : List α) :
    join d (x :: ls) last = x ++ d :: join d ls last := by
  unfold join
  rw [flatMap_cons, append_assoc, append_assoc, singleton_append]

theorem join_cut : join d (cut d part l).1 (cut d part l).2 = part ++ l := by
  fun_induction cut d part l with
  | case1 part => rw [join_nil, append_nil]
  | case2 part l ih => rw [join_cons, ih, nil_append]
  | case3 part a l h ih => rw [ih, append_assoc, singleton_append]

end Inetutils.Lib.Lines
