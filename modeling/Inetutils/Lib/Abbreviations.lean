import Mathlib.Data.List.Basic

/-! # Abbreviations

A table is searched for an entry that is meant exactly, or else for the only one that is meant in
short. One pass does it when it stops at an exact entry, and at the second short one; but what
stands behind the second short one is not looked at. -/

namespace Inetutils.Lib.Abbreviations

open List

variable {α : Type*}

inductive Found
  | nothing
  | ambiguous
  | entry (i : ℕ)
  deriving DecidableEq

def Right (exact short : α → Prop) (l : List α) : Found → Prop
  | .nothing => (∀ c ∈ l, ¬ exact c) ∧ ∀ c ∈ l, ¬ short c
  | .ambiguous => (∀ c ∈ l, ¬ exact c) ∧ ∃ i j : ℕ, i ≠ j ∧ (∃ c, l[i]? = some c ∧ short c) ∧ ∃ c,
    l[j]? = some c ∧ short c
  | .entry i => (∃ c, l[i]? = some c ∧ exact c) ∨
      (∀ c ∈ l, ¬ exact c) ∧ (∃ c, l[i]? = some c ∧ short c) ∧ ∀ (j : ℕ) (c : α),
      l[j]? = some c → short c → j = i

variable (exact short : α → Bool)

/-- One pass, from entry `i` on; `found` is the short one before. -/
def search : List α → ℕ → Option ℕ → Found
  | [], _, found => found.elim .nothing .entry
  | c :: l, i, found =>
    if exact c then .entry i
    else if short c then (if found.isSome then .ambiguous else search l (i + 1) (some i))
    else search l (i + 1) found

variable {exact short}

/-- `found` is the only short entry so far, if there is one. -/
def Tracks (short : α → Bool) (seen : List α) : Option ℕ → Prop
  | none => ∀ c ∈ seen, ¬ short c
  | some i => (∃ c, seen[i]? = some c ∧ short c) ∧ ∀ (j : ℕ) (c : α),
    seen[j]? = some c → short c → j = i

variable {seen rest : List α} {c : α} {found : Option ℕ}

theorem getElem?_concat {a : α} {i : ℕ} (h : (seen ++ [a])[i]? = some c) :
    seen[i]? = some c ∨ i = seen.length ∧ a = c := by
  rcases Nat.lt_trichotomy i seen.length with hi | hi | hi
  · rw [getElem?_append_left hi] at h
    exact .inl h
  · rw [getElem?_append_right (by omega), hi, Nat.sub_self] at h
    exact .inr ⟨hi, by simpa using h⟩
  · rw [getElem?_eq_none (by simp; omega)] at h
    cases h

theorem Tracks.skip (h : Tracks short seen found) (hc : ¬ short c) :
    Tracks short (seen ++ [c]) found := by
  cases found with
  | none =>
    intro d hd
    rcases mem_append.1 hd with hd | hd
    · exact h d hd
    · rwa [mem_singleton.1 hd]
  | some i =>
    obtain ⟨⟨d, hd, hshort⟩, honly⟩ := h
    have hlt := (List.getElem?_eq_some_iff.1 hd).1
    refine ⟨⟨d, by rwa [getElem?_append_left hlt], hshort⟩, fun j e he hse => ?_⟩
    rcases getElem?_concat he with he | ⟨-, rfl⟩
    · exact honly j e he hse
    · exact absurd hse hc

theorem Tracks.first (h : Tracks short seen none) (hc : short c) :
    Tracks short (seen ++ [c]) (some seen.length) := by
  refine ⟨⟨c, by simp, hc⟩, fun j e he hse => ?_⟩
  rcases getElem?_concat he with he | ⟨hj, -⟩
  · exact absurd hse (h e (mem_of_getElem? he))
  · exact hj

theorem getElem?_extended {i : ℕ} (h : seen[i]? = some c) : (seen ++ rest)[i]? = some c := by
  rw [getElem?_append_left (List.getElem?_eq_some_iff.1 h).1, h]

theorem right_end (hexact : ∀ c ∈ seen, ¬ exact c) (h : Tracks short seen found) :
    Right (exact · = true) (short · = true) seen (search exact short [] seen.length found) := by
  cases found with
  | none => exact ⟨hexact, h⟩
  | some i => exact .inr ⟨hexact, h⟩

/-- Some exact entry of the rest, with the short ones before it and the one found already. -/
def Reached (exact short : α → Bool) (rest : List α) (found : Option ℕ) : Prop :=
  (∃ c ∈ rest, exact c) → ∃ (k : ℕ) (c : α), rest[k]? = some c ∧ exact c ∧
    found.toList.length + (rest.take k).countP short ≤ 1

theorem reached_cons {found' : Option ℕ} (hc : ¬ exact c)
    (hlen : found'.toList.length = found.toList.length + if short c then 1 else 0) :
    Reached exact short (c :: rest) found ↔ Reached exact short rest found' := by
  have hmem : (∃ d ∈ c :: rest, exact d) ↔ ∃ d ∈ rest, exact d := by simp [hc]
  refine imp_congr hmem ?_
  have hcount (k : ℕ) : found.toList.length + ((c :: rest).take (k + 1)).countP short =
      found'.toList.length + (rest.take k).countP short := by
    rw [take_succ_cons, countP_cons, hlen]
    omega
  constructor
  · rintro ⟨k, d, hd, hexact, hle⟩
    cases k with
    | zero =>
      obtain rfl : c = d := by simpa using hd
      exact absurd hexact hc
    | succ k => exact ⟨k, d, hd, hexact, by rwa [hcount] at hle⟩
  · rintro ⟨k, d, hd, hexact, hle⟩
    exact ⟨k + 1, d, hd, hexact, by rwa [hcount]⟩

theorem search_spec (hexact : ∀ c ∈ seen, ¬ exact c) (h : Tracks short seen found) :
    Right (exact · = true) (short · = true) (seen ++ rest)
    (search exact short rest seen.length found) ↔
      Reached exact short rest found := by
  induction rest generalizing seen found with
  | nil =>
    rw [append_nil]
    exact iff_of_true (right_end hexact h) fun ⟨_, hc, _⟩ => nomatch hc
  | cons c rest ih =>
    by_cases hc : exact c
    · rw [search, if_pos hc]
      refine iff_of_true (.inl ⟨c, by simp, hc⟩) fun _ => ⟨0, c, rfl, hc, ?_⟩
      cases found <;> simp
    have hseen : ∀ d ∈ seen ++ [c], ¬ exact d := by
      intro d hd
      rcases mem_append.1 hd with hd | hd
      · exact hexact d hd
      · rwa [mem_singleton.1 hd]
    have hassoc : seen ++ c :: rest = (seen ++ [c]) ++ rest := by simp
    have hlength : seen.length + 1 = (seen ++ [c]).length := by simp
    rw [search, if_neg hc]
    by_cases hs : short c
    · rw [if_pos hs]
      cases found with
      | none =>
        rw [hassoc, hlength]
        exact (ih hseen (h.first hs)).trans (reached_cons hc (by simp [hs])).symm
      | some i =>
        -- the second short entry: right if nothing behind it is exact
        obtain ⟨⟨d, hd, hshort⟩, -⟩ := h
        have hlt := (List.getElem?_eq_some_iff.1 hd).1
        have htwo : ∃ i j : ℕ, i ≠ j ∧ (∃ e, (seen ++ c :: rest)[i]? = some e ∧ short e) ∧
            ∃ e, (seen ++ c :: rest)[j]? = some e ∧ short e :=
          ⟨i, seen.length, Nat.ne_of_lt hlt, ⟨d, getElem?_extended hd, hshort⟩, ⟨c, by simp, hs⟩⟩
        constructor
        · rintro ⟨hno, -⟩ ⟨e, he, hexact'⟩
          exact absurd hexact' (hno e (mem_append_right _ he))
        · intro hreached
          refine ⟨fun e he hexact' => ?_, htwo⟩
          rcases mem_append.1 he with he | he
          · exact hexact e he hexact'
          obtain ⟨k, f, hf, hfexact, hle⟩ := hreached ⟨e, he, hexact'⟩
          cases k with
          | zero =>
            obtain rfl : c = f := by simpa using hf
            exact hc hfexact
          | succ k =>
            rw [take_succ_cons, countP_cons, if_pos hs] at hle
            simp only [Option.toList_some, length_singleton] at hle
            omega
    · rw [if_neg hs, hassoc, hlength]
      exact (ih hseen (h.skip hs)).trans (reached_cons hc (by simp [hs])).symm

variable (exact short) in
/-- **What the pass finds is right**, just in case at most one short entry stands before some exact
one. -/
theorem search_iff (l : List α) :
    Right (exact · = true) (short · = true) l (search exact short l 0 none) ↔
      ((∃ c ∈ l, exact c) → ∃ (k : ℕ) (c : α), l[k]? = some c ∧ exact c ∧
        (l.take k).countP short ≤ 1) := by
  have h : Right (exact · = true) (short · = true) ([] ++ l) (search exact short l 0 none) ↔
    Reached exact short l none :=
    search_spec nofun nofun
  simpa [Reached] using h

end Inetutils.Lib.Abbreviations
