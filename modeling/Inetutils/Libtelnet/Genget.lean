import Inetutils.Lib.Abbreviations
import Inetutils.Lib.Letters
import Mathlib.Algebra.Order.Ring.Int

/-! # The commands of telnet by their names

`isprefix` and `genget` of `libtelnet/genget.c`, by which the commands of `telnet`, its toggles,
options and types of encryption are found. A table is the names of its entries, in front of the
NULL, and an entry is its place. -/

namespace Inetutils.Libtelnet.Genget

open Lib.Abbreviations Lib.Letters List

abbrev Text := List UInt8

/-- A name is a word of a command line: its length is an `int`. -/
structure Name where
  text : Text
  fits : text.length < 2 ^ 31

/-- The loop of `isprefix`, `n` characters behind the beginning. -/
def isprefixLoop : Text → Text → ℕ → ℤ
  | [], [], n => -n
  | [], _ :: _, n => n
  | _ :: _, [], _ => 0
  | c1 :: s1, c2 :: s2, n => if tolower c1 = tolower c2 then isprefixLoop s1 s2 (n + 1) else 0

def isprefix (s1 s2 : Text) : ℤ := if s1 = [] then -1 else isprefixLoop s1 s2 0

/-- The loop of `genget`, from entry `c` on. -/
def gengetLoop (name : Text) : List Text → ℕ → Option ℕ → Found
  | [], _, found => found.elim .nothing .entry
  | entry :: table, c, found =>
    if isprefix name entry = 0 then gengetLoop name table (c + 1) found
    else if isprefix name entry < 0 then .entry c
    else if found.isSome then .ambiguous
    else gengetLoop name table (c + 1) (some c)

/-- `name` is a pointer, and may be 0. -/
def genget (name : Option Name) (table : List Text) : Found :=
  match name with
  | none => .nothing
  | some name => gengetLoop name.text table 0 none

/-! ### Names and entries -/

def Equal (name entry : Text) : Prop := name.map tolower = entry.map tolower

/-- The name is a proper prefix of the entry, ignoring case. -/
def Short (name entry : Text) : Prop :=
  name.map tolower <+: entry.map tolower ∧ name.length < entry.length

instance (name entry : Text) : Decidable (Equal name entry) := inferInstanceAs (Decidable (_ = _))

instance (name entry : Text) : Decidable (Short name entry) := inferInstanceAs (Decidable (_ ∧ _))

/-- Some entry is equal to the name, and no more than one is longer and stands before it; of the
empty name, there is one entry at most, or the first is empty. -/
def Safe (name : Text) (table : List Text) : Prop :=
  if name = [] then table.length ≤ 1 ∨ table.head? = some []
  else (∃ entry ∈ table, Equal name entry) →
    ∃ (k : ℕ) (entry : Text), table[k]? = some entry ∧ Equal name entry ∧
    (table.take k).countP (Short name ·) ≤ 1

theorem isprefixLoop_eq (s1 s2 : Text) (n : ℕ) :
    isprefixLoop s1 s2 n =
      if Equal s1 s2 then -((n + s1.length : ℕ) : ℤ)
      else if Short s1 s2 then ((n + s1.length : ℕ) : ℤ) else 0 := by
  induction s1, s2, n using isprefixLoop.induct with
  | case1 n => simp [isprefixLoop, Equal]
  | case2 c s2 n => simp [isprefixLoop, Equal, Short]
  | case3 c s1 n => simp [isprefixLoop, Equal, Short]
  | case4 c1 s1 c2 s2 n heq ih =>
    have hequal : Equal (c1 :: s1) (c2 :: s2) ↔ Equal s1 s2 := by simp [Equal, heq]
    have hshort : Short (c1 :: s1) (c2 :: s2) ↔ Short s1 s2 := by simp [Short, heq]
    have hlen : n + (c1 :: s1).length = n + 1 + s1.length := by simp; omega
    rw [isprefixLoop, if_pos heq, ih, hlen]
    simp only [hequal, hshort]
  | case5 c1 s1 c2 s2 n hne =>
    have hequal : ¬ Equal (c1 :: s1) (c2 :: s2) := by simp [Equal, hne]
    have hshort : ¬ Short (c1 :: s1) (c2 :: s2) := by simp [Short, hne]
    rw [isprefixLoop, if_neg hne, if_neg hequal, if_neg hshort]

section
variable {name : Text} (h : name ≠ [])
include h

theorem isprefix_neg_iff (entry : Text) : isprefix name entry < 0 ↔ Equal name entry := by
  have hpos := length_pos_iff.2 h
  unfold isprefix
  rw [if_neg h, isprefixLoop_eq]
  split_ifs with hequal hshort
  · exact iff_of_true (by omega) hequal
  · exact iff_of_false (by omega) hequal
  · exact iff_of_false (by omega) hequal

theorem isprefix_eq_zero_iff (entry : Text) : isprefix name entry = 0 ↔
    ¬ Equal name entry ∧ ¬ Short name entry := by
  have hpos := length_pos_iff.2 h
  unfold isprefix
  rw [if_neg h, isprefixLoop_eq]
  split_ifs with hequal hshort
  · exact iff_of_false (by omega) fun hnot => hnot.1 hequal
  · exact iff_of_false (by omega) fun hnot => hnot.2 hshort
  · exact iff_of_true rfl ⟨hequal, hshort⟩

theorem genget_eq_search (table : List Text) (c : ℕ) (found : Option ℕ) :
    gengetLoop name table c found = search (Equal name ·) (Short name ·) table c found := by
  induction table generalizing c found with
  | nil => rfl
  | cons entry table ih =>
    rw [gengetLoop, search, ih, ih]
    by_cases hequal : Equal name entry
    · have hne : isprefix name entry ≠ 0 := fun h0 => ((isprefix_eq_zero_iff h entry).1 h0).1 hequal
      rw [if_neg hne, if_pos ((isprefix_neg_iff h entry).2 hequal)]
      simp [hequal]
    by_cases hshort : Short name entry
    · have hne : isprefix name entry ≠ 0 := fun h0 => ((isprefix_eq_zero_iff h entry).1 h0).2 hshort
      rw [if_neg hne, if_neg fun hneg => hequal ((isprefix_neg_iff h entry).1 hneg)]
      simp [hequal, hshort]
    · rw [if_pos ((isprefix_eq_zero_iff h entry).2 ⟨hequal, hshort⟩)]
      simp [hequal, hshort]

end

theorem gengetLoop_nil (table : List Text) :
    gengetLoop [] table 0 none = if table = [] then .nothing else .entry 0 := by
  cases table with
  | nil => rfl
  | cons entry table =>
    rw [gengetLoop, if_neg (by simp [ isprefix]), if_pos (by simp [ isprefix]), if_neg (by simp)]

theorem equal_nil_iff (entry : Text) : Equal [] entry ↔ entry = [] := by
  unfold Equal
  rw [map_nil, eq_comm, map_eq_nil_iff]

theorem short_nil_iff (entry : Text) : Short [] entry ↔ entry ≠ [] := by
  unfold Short
  rw [map_nil, and_iff_right List.nil_prefix]
  exact length_pos_iff

theorem right_nil_iff (table : List Text) :
    Right (Equal []) (Short []) table (gengetLoop [] table 0 none) ↔
    table.length ≤ 1 ∨ table.head? = some [] := by
  rw [gengetLoop_nil]
  rcases table with - | ⟨entry, table⟩
  · exact iff_of_true ⟨nofun, nofun⟩ (.inl (Nat.zero_le 1))
  rw [if_neg (cons_ne_nil _ _), Right]
  simp only [equal_nil_iff, short_nil_iff]
  constructor
  · rintro (⟨c, hc, rfl⟩ | ⟨hnot, -, honly⟩)
    · exact .inr hc
    · refine .inl ?_
      rcases table with - | ⟨next, table⟩
      · exact Nat.le_refl 1
      · exact absurd (honly 1 next rfl (hnot next (by simp))) Nat.one_ne_zero
  · rintro (hlen | hhead)
    · obtain rfl : table = [] := length_eq_zero_iff.1 (by simpa using hlen)
      by_cases hentry : entry = []
      · exact .inl ⟨entry, rfl, hentry⟩
      · refine .inr ⟨by simpa using hentry, ⟨entry, rfl, hentry⟩, fun j c hj _ => ?_⟩
        have hlt := (List.getElem?_eq_some_iff.1 hj).1
        omega
    · exact .inl ⟨[], hhead, rfl⟩

/-- **For which names and tables the right entry is found**: those where no more than one longer
entry stands before an equal one, and of the empty name those where nothing else can be meant. -/
theorem genget_iff (name : Name) (table : List Text) :
    Right (Equal name.text) (Short name.text) table (genget (some name) table) ↔
    Safe name.text table := by
  unfold genget Safe
  dsimp only
  split_ifs with hnil
  · rw [hnil]
    exact right_nil_iff table
  · rw [genget_eq_search hnil]
    have h := search_iff (Equal name.text ·) (Short name.text ·) table
    simpa using h

/-! ### An entry behind two longer ones -/

/-- `ab`, behind `abc` and `abd`, is ambiguous. -/
theorem not_right_behind : ¬ ∀ (name : Name) (table : List Text),
    Right (Equal name.text) (Short name.text) table (genget (some name) table) := by
  intro h
  have hright := h ⟨[97, 98], by decide⟩ [[97, 98, 99], [97, 98, 100], [97, 98]]
  have hfound : genget (some ⟨[97, 98], by decide⟩) [[97, 98, 99], [97, 98, 100], [97, 98]] =
    .ambiguous := by decide
  rw [hfound] at hright
  exact hright.1 [97, 98] (by simp) rfl

end Inetutils.Libtelnet.Genget
