import Mathlib.Data.List.Basic

/-! # Places of memory

A block of memory is the list of its places, of which those that are not set hold `none`. To write
or to read outside of the block has no result, and to read a place that is not set has none
either. -/

namespace Inetutils.Lib.Cells

open List Option

variable {α : Type*}

abbrev Block (α : Type*) := List (Option α)

/-- `malloc` -/
def alloc (n : ℕ) : Block α := List.replicate n none

def realloc (b : Block α) (n : ℕ) : Block α := b.take n ++ List.replicate (n - b.length) none

def write (b : Block α) (i : ℕ) (a : α) : Option (Block α) :=
  if i < b.length then some (b.set i (some a)) else none

def fetch (b : Block α) (i : ℕ) : Option α := b[i]?.join

/-- All of `l`, from the place `i` on. -/
def fill (b : Block α) (i : ℕ) : List α → Option (Block α)
  | [] => some b
  | a :: l => (write b i a).bind fun b => fill b (i + 1) l

/-- What stands in the first `n` places. -/
def front : ℕ → Block α → Option (List α)
  | 0, _ => some []
  | n + 1, some a :: b => (front n b).map (a :: ·)
  | _ + 1, _ => none

def untilNull : Block (Option α) → Option (List α)
  | some (some a) :: b => (untilNull b).map (a :: ·)
  | some none :: _ => some []
  | _ => none

/-- The string at the front, which `z` ends. -/
def string [DecidableEq α] (z : α) : Block α → Option (List α)
  | some a :: b => if a = z then some [] else (string z b).map (a :: ·)
  | _ => none

theorem length_alloc (n : ℕ) : (alloc n : Block α).length = n := length_replicate

theorem length_realloc (b : Block α) (n : ℕ) : (realloc b n).length = n := by
  unfold realloc
  rw [length_append, length_take, length_replicate]
  omega

variable {b : Block α} {i : ℕ} {l : List α} {z : α}

theorem write_of_lt (h : i < b.length) (a : α) : write b i a = some (b.set i (some a)) := if_pos h

theorem write_of_ge (h : b.length ≤ i) (a : α) : write b i a = none :=
  if_neg (Nat.not_lt_of_le h)

theorem length_of_write {b' : Block α} {a : α} (h : write b i a = some b') :
    b'.length = b.length := by
  rw [write, ite_none_right_eq_some] at h
  rw [← some.inj h.2, length_set]

theorem length_of_fill {b' : Block α} (h : fill b i l = some b') : b'.length = b.length := by
  induction l generalizing b i with
  | nil => rw [some.inj h]
  | cons a l ih =>
    obtain ⟨b₁, hb₁, hfill⟩ := bind_eq_some_iff.1 h
    rw [ih hfill, length_of_write hb₁]

theorem write_append (l : List α) (x : Option α) (r : Block α) (a : α) :
    write (l.map some ++ x :: r) l.length a = some ((l ++ [a]).map some ++ r) := by
  have hlt : l.length < (l.map some ++ x :: r).length := by
    rw [length_append, length_map, length_cons]
    omega
  rw [write_of_lt hlt, set_append_right _ _ (Nat.le_of_eq (length_map _)), length_map,
    Nat.sub_self, map_append, append_assoc]
  rfl

theorem fill_eq (h : i ≤ b.length) (l : List α) :
    fill b i l =
      if i + l.length ≤ b.length then some (b.take i ++ l.map some ++ b.drop (i + l.length))
      else none := by
  induction l generalizing b i with
  | nil =>
    rw [map_nil, append_nil, length_nil, Nat.add_zero, if_pos h, take_append_drop]
    rfl
  | cons a l ih =>
    rw [fill, length_cons]
    rcases Nat.lt_or_eq_of_le h with hlt | heq
    · rw [write_of_lt hlt, bind_some, ih (by rw [length_set]; omega), length_set,
        show i + 1 + l.length = i + (l.length + 1) by omega]
      refine if_congr Iff.rfl ?_ rfl
      rw [take_add_one, take_set_of_le (Nat.le_refl i), getElem?_set_self hlt,
        drop_set_of_lt (by omega), map_cons, append_assoc, append_assoc, append_assoc]
      rfl
    · rw [write_of_ge (Nat.le_of_eq heq.symm), if_neg (by omega)]
      rfl

theorem fill_append (b : Block α) (i : ℕ) (l m : List α) :
    fill b i (l ++ m) = (fill b i l).bind fun b => fill b (i + l.length) m := by
  induction l generalizing b i with
  | nil => rfl
  | cons a l ih =>
    rw [cons_append, fill, fill, bind_assoc, length_cons, Nat.add_comm l.length, ← Nat.add_assoc]
    exact congrArg _ (funext fun b => ih b (i + 1))

theorem fill_singleton (b : Block α) (i : ℕ) (a : α) : fill b i [a] = write b i a := bind_fun_some _

theorem fill_alloc (n : ℕ) (l : List α) :
    fill (alloc n) 0 l = if l.length ≤ n then some (l.map some ++ alloc (n - l.length))
      else none := by
  rw [fill_eq (Nat.zero_le _), length_alloc, Nat.zero_add]
  refine if_congr Iff.rfl ?_ rfl
  unfold alloc
  rw [take_zero, nil_append, drop_replicate]

theorem fetch_map_some (l : List α) (i : ℕ) : fetch (l.map some) i = l[i]? := by
  unfold fetch
  rw [getElem?_map]
  cases l[i]? <;> rfl

theorem front_append (l : List α) (r : Block α) : front l.length (l.map some ++ r) = some l := by
  induction l with
  | nil => rfl
  | cons a l ih => rw [map_cons, cons_append, length_cons, front, ih, map_some]

theorem front_eq_some_iff {n : ℕ} :
    front n b = some l ↔ l.length = n ∧ ∃ r, b = l.map some ++ r := by
  constructor
  · intro h
    induction n, b using front.induct generalizing l with
    | case1 b =>
      obtain rfl : [] = l := some.inj h
      exact ⟨rfl, b, rfl⟩
    | case2 n a b ih =>
      obtain ⟨l', hl', rfl⟩ := map_eq_some_iff.1 h
      obtain ⟨hlen, r, hr⟩ := ih hl'
      exact ⟨congrArg (· + 1) hlen, r, congrArg (some a :: ·) hr⟩
    | case3 n b hb =>
      rcases b with - | ⟨- | a, b⟩
      · cases h
      · cases h
      · exact absurd rfl (hb a b)
  · rintro ⟨rfl, r, rfl⟩
    exact front_append l r

theorem untilNull_append (l : List α) (r : Block (Option α)) :
    untilNull ((l.map some).map some ++ some none :: r) = some l := by
  induction l with
  | nil => rfl
  | cons a l ih =>
    rw [map_cons, map_cons, cons_append, untilNull, ih]
    rfl

theorem untilNull_iff {b : Block (Option α)} :
    untilNull b = some l ↔ ∃ r, b = (l.map some).map some ++ some none :: r := by
  constructor
  · intro h
    induction b using untilNull.induct generalizing l with
    | case1 a b ih =>
      rw [untilNull, map_eq_some_iff] at h
      obtain ⟨l', hl', rfl⟩ := h
      obtain ⟨r, rfl⟩ := ih hl'
      exact ⟨r, rfl⟩
    | case2 r =>
      rw [untilNull, some_inj] at h
      exact ⟨r, by rw [← h]; rfl⟩
    | case3 b h1 h2 =>
      rw [untilNull] at h
      · cases h
      · exact h1
      · exact h2
  · rintro ⟨r, rfl⟩
    exact untilNull_append l r

theorem string_append [DecidableEq α] (h : z ∉ l) (r : Block α) :
    string z (l.map some ++ some z :: r) = some l := by
  induction l with
  | nil => exact if_pos rfl
  | cons a l ih =>
    rw [mem_cons, not_or] at h
    rw [map_cons, cons_append, string, if_neg (Ne.symm h.1), ih h.2]
    rfl

theorem string_append_right [DecidableEq α] (h : string z b = some l) (r : Block α) :
    string z (b ++ r) = some l := by
  induction b generalizing l with
  | nil => exact absurd h.symm (some_ne_none l)
  | cons x b ih =>
    rcases x with - | a
    · exact absurd h.symm (some_ne_none l)
    · rw [string] at h
      rw [cons_append, string]
      split at h
      next ha => rw [if_pos ha, h]
      next ha =>
        obtain ⟨l', hl', rfl⟩ := map_eq_some_iff.1 h
        rw [if_neg ha, ih hl', map_some]

theorem string_drop_append [DecidableEq α] (h : string z (b.drop i) = some l) (r : Block α) :
    string z ((b ++ r).drop i) = some l := by
  rw [drop_append]
  exact string_append_right h _

/-! ### Through a list of pointers -/

theorem mapM_getElem? {β : Type*} {f : α → Option β} {ps : List α} {ts : List β}
    (h : ps.mapM f = some ts) :
    ts.length = ps.length ∧ ∀ k : ℕ, (ps[k]?).bind f = ts[k]? := by
  induction ps generalizing ts with
  | nil =>
    cases h
    exact ⟨rfl, fun k => rfl⟩
  | cons p ps ih =>
    rw [mapM_cons] at h
    obtain ⟨t, ht, hrest⟩ := bind_eq_some_iff.1 h
    obtain ⟨ts', hts', heq⟩ := bind_eq_some_iff.1 hrest
    cases heq
    obtain ⟨hlen, hget⟩ := ih hts'
    refine ⟨congrArg Nat.succ hlen, fun k => ?_⟩
    cases k with
    | zero => exact ht
    | succ k => exact hget k

end Inetutils.Lib.Cells
