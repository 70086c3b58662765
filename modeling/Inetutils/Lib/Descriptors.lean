import Mathlib.Data.Finset.Card

/-! # Descriptors

The open descriptors of a process, each with what it stands for. The number of a new one is the
choice of the kernel, which takes none that is in use (`Pick`): `lowest` is one such choice.

* `get_opened`, `get_close`: what a number stands for. -/

namespace Inetutils.Lib.Descriptors

open List

variable {κ : Type*}

abbrev Table (κ : Type*) := List (ℕ × κ)

def Table.fds (t : Table κ) : List ℕ := t.map Prod.fst

/-- A choice of a number that is not in use. -/
structure Pick where
  fd : List ℕ → ℕ
  fresh : ∀ used, fd used ∉ used

def Pick.of (p : Pick) (t : Table κ) : ℕ := p.fd t.fds

def Table.opened (t : Table κ) (p : Pick) (k : κ) : Table κ := (p.of t, k) :: t

def Table.close (t : Table κ) (fd : ℕ) : Table κ := t.filter fun e => e.1 ≠ fd

def Table.get (t : Table κ) (fd : ℕ) : Option κ := (t.find? fun e => e.1 = fd).map Prod.snd

def Table.become (t : Table κ) (fd : ℕ) (k : κ) : Table κ :=
  t.map fun e => if e.1 = fd then (fd, k) else e

/-! ### The lowest number -/

theorem exists_not_mem (used : List ℕ) : ∃ n ∈ List.range (used.length + 1), n ∉ used := by
  by_contra h
  push Not at h
  have hsub : Finset.range (used.length + 1) ⊆ used.toFinset := by
    intro n hn
    exact mem_toFinset.2 (h n (mem_range.2 (Finset.mem_range.1 hn)))
  have hcard := Finset.card_le_card hsub
  have hle := used.toFinset_card_le
  rw [Finset.card_range] at hcard
  omega

/-- The lowest number that is not in use. -/
def lowest : Pick where
  fd used := ((List.range (used.length + 1)).find? (· ∉ used)).getD 0
  fresh used := by
    obtain ⟨n, hn, hfree⟩ := exists_not_mem used
    have hsome : ((List.range (used.length + 1)).find? (· ∉ used)).isSome :=
      List.find?_isSome.2 ⟨n, hn, decide_eq_true hfree⟩
    obtain ⟨m, hm⟩ := Option.isSome_iff_exists.1 hsome
    rw [hm, Option.getD_some]
    simpa using List.find?_some hm

/-! ### Opening and closing -/

theorem Pick.of_not_mem (p : Pick) (t : Table κ) : p.of t ∉ t.fds := p.fresh _

variable {t : Table κ} {fd fd' : ℕ}

theorem close_of_not_mem (h : fd ∉ t.fds) : t.close fd = t := by
  refine filter_eq_self.2 fun e he => decide_eq_true fun heq => h ?_
  exact heq ▸ mem_map_of_mem he

theorem close_cons_self (t : Table κ) (fd : ℕ) (k : κ) :
    Table.close ((fd, k) :: t) fd = t.close fd :=
  filter_cons_of_neg (by simp)

theorem close_cons_of_ne (k : κ) (h : fd' ≠ fd) :
    Table.close ((fd', k) :: t) fd = (fd', k) :: t.close fd :=
  filter_cons_of_pos (decide_eq_true h)

@[simp] theorem close_nil (fd : ℕ) : Table.close ([] : Table κ) fd = [] := rfl

theorem opened_close (t : Table κ) (p : Pick) (k : κ) : (t.opened p k).close (p.of t) = t := by
  unfold Table.opened
  rw [close_cons_self, close_of_not_mem (p.of_not_mem t)]

theorem get_cons_self (t : Table κ) (fd : ℕ) (k : κ) : Table.get ((fd, k) :: t) fd = some k := by
  simp [Table.get]

theorem get_cons_of_ne (k : κ) (h : fd' ≠ fd) : Table.get ((fd', k) :: t) fd = t.get fd := by
  simp [Table.get, h]

theorem mem_fds_close : fd' ∈ (t.close fd).fds ↔ fd' ∈ t.fds ∧ fd' ≠ fd := by
  unfold Table.close Table.fds
  simp only [mem_map, mem_filter, decide_eq_true_eq]
  constructor
  · rintro ⟨e, ⟨he, hne⟩, rfl⟩
    exact ⟨⟨e, he, rfl⟩, hne⟩
  · rintro ⟨⟨e, he, rfl⟩, hne⟩
    exact ⟨e, ⟨he, hne⟩, rfl⟩

theorem isSome_get_iff : (t.get fd).isSome ↔ fd ∈ t.fds := by
  unfold Table.get Table.fds
  simp only [Option.isSome_map, find?_isSome, decide_eq_true_eq, mem_map]

theorem get_close_of_ne (h : fd' ≠ fd) : (t.close fd).get fd' = t.get fd' := by
  induction t with
  | nil => rfl
  | cons e t ih =>
    obtain ⟨n, k⟩ := e
    by_cases hn : n = fd
    · subst hn
      rw [close_cons_self, ih, get_cons_of_ne k h.symm]
    · rw [close_cons_of_ne k hn]
      by_cases hn' : n = fd'
      · subst hn'
        rw [get_cons_self, get_cons_self]
      · rw [get_cons_of_ne k hn', get_cons_of_ne k hn', ih]

theorem become_cons_self (t : Table κ) (fd : ℕ) (k k' : κ) :
    Table.become ((fd, k) :: t) fd k' = (fd, k') :: t.become fd k' := by
  unfold Table.become
  rw [map_cons, if_pos rfl]

end Inetutils.Lib.Descriptors
