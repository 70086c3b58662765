import Mathlib.Data.Finset.Card

/-! # A set and its size, kept beside a table

A table is a list, and some of its entries have a value: `f a`. Beside the table a set is kept, and
a number. `Tally f l S n` says that the set holds just the values of the entries, that no two
entries have the same one, and that the number is the size of the set. Each lemma is about one entry
that changes, comes, or goes. -/

namespace Inetutils.Lib.Tallies

open List

variable {α κ : Type*} {f : α → Option κ} {l l₁ l₂ : List α} {a a' : α} {k : κ}
    {S : Finset κ} {n : ℤ}

theorem exists_split {i : ℕ} (h : l[i]? = some a) :
    ∃ l₁ l₂, l = l₁ ++ a :: l₂ ∧ ∀ a', l.set i a' = l₁ ++ a' :: l₂ := by
  obtain ⟨hi, rfl⟩ := List.getElem?_eq_some_iff.1 h
  refine ⟨l.take i, l.drop (i + 1), ?_,
    fun a' => by rw [List.set_eq_take_append_cons_drop, if_pos hi]⟩
  rw [List.getElem_cons_drop, List.take_append_drop]

variable (l₁ l₂) in
theorem perm_cons (ha : f a = some k) :
    ((l₁ ++ a :: l₂).filterMap f).Perm (k :: (l₁ ++ l₂).filterMap f) := by
  rw [filterMap_append, filterMap_append, filterMap_cons_some ha]
  exact perm_middle

variable [DecidableEq κ]

structure Tally (f : α → Option κ) (l : List α) (S : Finset κ) (n : ℤ) : Prop where
  nodup : (l.filterMap f).Nodup
  set : S = (l.filterMap f).toFinset
  size : n = (l.filterMap f).length

theorem tally_nil (f : α → Option κ) : Tally f [] ∅ 0 := ⟨nodup_nil, rfl, rfl⟩

theorem Tally.mem (h : Tally f l S n) : k ∈ S ↔ ∃ a ∈ l, f a = some k := by
  rw [h.set, mem_toFinset, mem_filterMap]

theorem Tally.card (h : Tally f l S n) : n = S.card := by
  rw [h.size, h.set, toFinset_card_of_nodup h.nodup]

theorem Tally.keep (h : Tally f (l₁ ++ a :: l₂) S n) (ha : f a' = f a) :
    Tally f (l₁ ++ a' :: l₂) S n := by
  have hl : (l₁ ++ a' :: l₂).filterMap f = (l₁ ++ a :: l₂).filterMap f := by
    rw [filterMap_append, filterMap_append, filterMap_cons, filterMap_cons, ha]
  obtain ⟨h1, h2, h3⟩ := h
  exact ⟨by rwa [hl], by rwa [hl], by rwa [hl]⟩

theorem Tally.insert_none (h : Tally f (l₁ ++ l₂) S n) (ha : f a = none) :
    Tally f (l₁ ++ a :: l₂) S n := by
  have hl : (l₁ ++ a :: l₂).filterMap f = (l₁ ++ l₂).filterMap f := by
    rw [filterMap_append, filterMap_append, filterMap_cons_none ha]
  obtain ⟨h1, h2, h3⟩ := h
  exact ⟨by rwa [hl], by rwa [hl], by rwa [hl]⟩

theorem Tally.delete_none (h : Tally f (l₁ ++ a :: l₂) S n) (ha : f a = none) :
    Tally f (l₁ ++ l₂) S n := by
  have hl : (l₁ ++ a :: l₂).filterMap f = (l₁ ++ l₂).filterMap f := by
    rw [filterMap_append, filterMap_append, filterMap_cons_none ha]
  obtain ⟨h1, h2, h3⟩ := h
  exact ⟨by rwa [hl] at h1, by rwa [hl] at h2, by rwa [hl] at h3⟩

theorem Tally.insert_some (h : Tally f (l₁ ++ l₂) S n) (ha : f a = some k) (hk : k ∉ S) :
    Tally f (l₁ ++ a :: l₂) (insert k S) (n + 1) := by
  have hp := perm_cons l₁ l₂ ha
  obtain ⟨h1, rfl, rfl⟩ := h
  refine ⟨hp.nodup_iff.2 (nodup_cons.2 ⟨fun hm => hk (mem_toFinset.2 hm), h1⟩), ?_, ?_⟩
  · rw [toFinset_eq_of_perm _ _ hp, toFinset_cons]
  · rw [hp.length_eq, length_cons]
    omega

theorem Tally.delete_some (h : Tally f (l₁ ++ a :: l₂) S n) (ha : f a = some k) :
    Tally f (l₁ ++ l₂) (S.erase k) (n - 1) := by
  have hp := perm_cons l₁ l₂ ha
  obtain ⟨h1, rfl, rfl⟩ := h
  have hn := hp.nodup_iff.1 h1
  rw [nodup_cons] at hn
  refine ⟨hn.2, ?_, ?_⟩
  · rw [toFinset_eq_of_perm _ _ hp, toFinset_cons, Finset.erase_insert]
    exact fun hm => hn.1 (mem_toFinset.1 hm)
  · rw [hp.length_eq, length_cons]
    omega

theorem Tally.gain (h : Tally f (l₁ ++ a :: l₂) S n) (ha : f a = none) (ha' : f a' = some k)
    (hk : k ∉ S) :
    Tally f (l₁ ++ a' :: l₂) (insert k S) (n + 1) := (h.delete_none ha).insert_some ha' hk

theorem Tally.lose (h : Tally f (l₁ ++ a :: l₂) S n) (ha : f a = some k) (ha' : f a' = none) :
    Tally f (l₁ ++ a' :: l₂) (S.erase k) (n - 1) := (h.delete_some ha).insert_none ha'

theorem Tally.map (h : Tally f l S n) {g : α → α} (hg : ∀ a, f (g a) = f a) :
    Tally f (l.map g) S n := by
  have hl : (l.map g).filterMap f = l.filterMap f := by
    rw [filterMap_map, (funext hg : f ∘ g = f)]
  obtain ⟨h1, h2, h3⟩ := h
  exact ⟨by rwa [hl], by rwa [hl], by rwa [hl]⟩

theorem Tally.ne (h : Tally f (l₁ ++ a :: l₂) S n) (ha : f a = some k) (ha' : a' ∈ l₁ ++ l₂) :
    f a' ≠ some k := by
  intro hk
  exact (Finset.notMem_erase k S) ((h.delete_some ha).mem.2 ⟨a', ha', hk⟩)

end Inetutils.Lib.Tallies
