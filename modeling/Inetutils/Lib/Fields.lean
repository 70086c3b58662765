import Mathlib.Data.List.DropRight

/-! # Fields of a text

The symbols that satisfy `sep` part a text into fields, `List.splitOnP`; its words are those that
are not empty. -/

namespace Inetutils.Lib.Fields

open List

variable {α : Type*} (sep : α → Bool)

def words (l : List α) : List (List α) := (l.splitOnP sep).filter fun w => !w.isEmpty

theorem words_nil : words sep ([] : List α) = [] := rfl

variable {sep} {s : α} {w : List α}

theorem words_append (hs : sep s) (l r : List α) :
    words sep (l ++ s :: r) = words sep l ++ words sep r := by
  unfold words
  rw [splitOnP_append_cons l r hs, filter_append]

theorem words_sep (hs : sep s) (l : List α) :
    words sep (s :: l) = words sep l := words_append hs [] l

theorem words_single (hne : w ≠ []) (hw : ∀ a ∈ w, sep a = false) : words sep w = [w] := by
  unfold words
  rw [splitOnP_eq_singleton hw]
  exact filter_cons_of_pos (by simpa using hne)

theorem words_field (hne : w ≠ []) (hw : ∀ a ∈ w, sep a = false) (hs : sep s) (l : List α) :
    words sep (w ++ s :: l) = w :: words sep l := by
  rw [words_append hs, words_single hne hw, singleton_append]

variable (l : List α)

theorem words_dropWhile : words sep (l.dropWhile sep) = words sep l := by
  induction l with
  | nil => rfl
  | cons a l ih =>
    by_cases ha : sep a
    · rw [dropWhile_cons_of_pos ha, ih, words_sep ha]
    · rw [dropWhile_cons_of_neg ha]

theorem words_eq_nil {l : List α} (h : l.dropWhile sep = []) : words sep l = [] := by
  rw [← words_dropWhile, h, words_nil]

variable (sep) in
/-- `strtok`: the word after the separators, and what is behind the one that ends it. -/
def strtok (l : List α) : Option (List α × List α) :=
  match l.dropWhile sep with
  | [] => none
  | a :: l => some ((a :: l).takeWhile fun a => !sep a, ((a :: l).dropWhile fun a => !sep a).drop 1)

theorem strtok_words :
    (strtok sep l = none ∧ words sep l = []) ∨
      ∃ w r, strtok sep l = some (w, r) ∧ words sep l = w :: words sep r := by
  unfold strtok
  cases h : l.dropWhile sep with
  | nil => exact .inl ⟨rfl, words_eq_nil h⟩
  | cons a m =>
    refine .inr ⟨_, _, rfl, ?_⟩
    have ha : sep a = false := by
      have := head?_dropWhile_not sep l
      rw [h] at this
      exact this
    have hne : (a :: m).takeWhile (fun a => !sep a) ≠ [] := by
      rw [takeWhile_cons_of_pos (by rw [ha]; rfl)]
      exact cons_ne_nil _ _
    have hw : ∀ b ∈ (a :: m).takeWhile fun a => !sep a, sep b = false := fun b hb => by
      simpa using mem_takeWhile_imp hb
    rw [← words_dropWhile, h]
    cases hrest : (a :: m).dropWhile fun a => !sep a with
    | nil =>
      have hall : (a :: m).takeWhile (fun a => !sep a) = a :: m := by
        rw [takeWhile_eq_self_iff]
        exact dropWhile_eq_nil_iff.1 hrest
      rw [drop_nil, words_nil, hall, words_single (cons_ne_nil _ _)]
      rwa [hall] at hw
    | cons s r =>
      have hs : sep s = true := by
        have := head?_dropWhile_not (fun a => !sep a) (a :: m)
        rw [hrest] at this
        simpa using this
      calc words sep (a :: m)
          = words sep ((a :: m).takeWhile (fun a => !sep a) ++ s :: r) := by
            rw [← hrest, takeWhile_append_dropWhile]
        _ = _ := words_field hne hw hs r

theorem words_rdropWhile : words sep (l.rdropWhile sep) = words sep l := by
  induction l using List.reverseRecOn with
  | nil => rfl
  | append_singleton l a ih =>
    by_cases ha : sep a
    · rw [rdropWhile_concat_pos _ _ _ ha, ih, words_append ha, words_nil, append_nil]
    · rw [rdropWhile_concat_neg _ _ _ ha]

theorem words_strip : words sep ((l.rdropWhile sep).dropWhile sep) = words sep l := by
  rw [words_dropWhile, words_rdropWhile]

theorem length_splitOnP : (l.splitOnP sep).length = l.countP sep + 1 := by
  induction l with
  | nil => rfl
  | cons a l ih =>
    rw [splitOnP_cons_eq_if_modifyHead]
    by_cases ha : sep a
    · rw [if_pos ha, length_cons, ih, countP_cons_of_pos ha]
    · rw [if_neg ha, length_modifyHead, ih, countP_cons_of_neg ha]

theorem mem_of_mem_words {l : List α} (hw : w ∈ words sep l) {a : α} (ha : a ∈ w) : a ∈ l := by
  have hsplit : ∀ w ∈ l.splitOnP sep, ∀ a ∈ w, a ∈ l := by
    clear hw
    induction l with
    | nil => simp
    | cons b l ih =>
      have hmono (w : List α) (hw : w ∈ l.splitOnP sep) (a : α) (ha : a ∈ w) :=
        mem_cons_of_mem b (ih w hw a ha)
      rw [splitOnP_cons_eq_if_modifyHead]
      split_ifs with hb
      · exact forall_mem_cons.2 ⟨fun a ha => absurd ha not_mem_nil, hmono⟩
      · rcases hl : l.splitOnP sep with - | ⟨v, vs⟩
        · exact fun w hw => absurd hw not_mem_nil
        · rw [hl] at hmono
          rw [modifyHead_cons]
          exact forall_mem_cons.2
            ⟨forall_mem_cons.2 ⟨mem_cons_self, hmono v mem_cons_self⟩,
              fun w hw => hmono w (mem_cons_of_mem v hw)⟩
  exact hsplit w (mem_of_mem_filter hw) a ha

theorem words_eq_splitOnP_iff {l : List α} : words sep l = l.splitOnP sep ↔
    [] ∉ l.splitOnP sep := by
  unfold words
  rw [filter_eq_self]
  constructor
  · exact fun h hmem => absurd (h [] hmem) Bool.false_ne_true
  · intro h w hw
    cases w with
    | nil => exact absurd hw h
    | cons _ _ => rfl

end Inetutils.Lib.Fields
