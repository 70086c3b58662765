import Mathlib.Data.List.Basic

/-! # Memory, read and written in segments and round a cycle

A memory is a function from positions. `read m a k` is the segment of `k` elements from `a` on,
`write m a l` the memory after the list `l` is stored there. `window m n a k` reads `k` elements
round the cycle of positions `0, …, n-1`: it is what a circular buffer of size `n` holds. A window
that stays below `n` is a segment (`window_eq_read`), a window splits where one likes
(`window_add`), and storing just after a window extends it (`window_write`). -/

namespace Inetutils.Lib.Cyclic

open List

variable {a k : ℕ}

variable {α : Type*}

/-! ### Segments -/

/-- The elements at `a, …, a + k - 1`. -/
def read (m : ℕ → α) (a k : ℕ) : List α := (List.range k).map fun i => m (a + i)

/-- The memory after the elements of `l` are stored from `a` on. -/
def write (m : ℕ → α) (a : ℕ) (l : List α) : ℕ → α := fun p =>
  if a ≤ p then (l[p - a]?).getD (m p) else m p

variable (m : ℕ → α) {j n : ℕ}

@[simp] theorem length_read (a k : ℕ) : (read m a k).length = k := by simp [read]

@[simp] theorem read_zero (a : ℕ) : read m a 0 = [] := rfl

theorem read_congr {m m' : ℕ → α} (h : ∀ p, a ≤ p → p < a + k → m p = m' p) :
    read m a k = read m' a k :=
  map_congr_left fun i hi => h _ (by omega) (by have := mem_range.mp hi; omega)

theorem read_add (a k l : ℕ) : read m a (k + l) = read m a k ++ read m (a + k) l := by
  simp [read, range_add, Function.comp_def, Nat.add_assoc]

theorem read_succ (a k : ℕ) : read m a (k + 1) = m a :: read m (a + 1) k := by
  rw [Nat.add_comm k 1, read_add]; simp [read]

theorem take_read (a : ℕ) (h : j ≤ k) : (read m a k).take j = read m a j := by
  obtain ⟨l, rfl⟩ := Nat.exists_eq_add_of_le h
  rw [read_add, take_append_of_le_length (by simp), take_of_length_le (by simp)]

theorem drop_read (a : ℕ) (h : j ≤ k) : (read m a k).drop j = read m (a + j) (k - j) := by
  obtain ⟨l, rfl⟩ := Nat.exists_eq_add_of_le h
  rw [read_add, drop_append_of_le_length (by simp), drop_of_length_le (by simp)]
  simp

@[simp] theorem write_nil (a : ℕ) : write m a [] = m := by
  funext p; simp [write]

variable (l : List α)

theorem write_of_lt {p : ℕ} (h : p < a) : write m a l p = m p := by
  rw [write, if_neg (by omega)]

theorem write_of_le {p : ℕ} (h : a + l.length ≤ p) : write m a l p = m p := by
  rw [write, if_pos (by omega), getElem?_eq_none (by omega)]; rfl

theorem write_add (a : ℕ) (l : List α) {i : ℕ} (h : i < l.length) : write m a l (a + i) = l[i] := by
  rw [write, if_pos (by omega), show a + i - a = i by omega, getElem?_eq_getElem h]; rfl

theorem write_append (a : ℕ) (l l' : List α) :
    write m a (l ++ l') = write (write m a l) (a + l.length) l' := by
  funext p
  rcases Nat.lt_or_ge p (a + l.length) with h | h
  · rw [write_of_lt _ l' h]
    rcases Nat.lt_or_ge p a with h' | h'
    · rw [write_of_lt _ _ h', write_of_lt _ _ h']
    · simp only [write, if_pos h', getElem?_append_left (show p - a < l.length by omega)]
  · simp only [write, if_pos h, if_pos (show a ≤ p by omega),
      getElem?_append_right (show l.length ≤ p - a by omega),
      getElem?_eq_none (show l.length ≤ p - a by omega), Option.getD_none,
      show p - a - l.length = p - (a + l.length) by omega]

theorem read_write (a : ℕ) (l : List α) : read (write m a l) a l.length = l := by
  refine ext_getElem (by simp) fun i h1 h2 => ?_
  simp [read, write_add m a l h2]

theorem read_write_of_disjoint {b : ℕ} (h : b + k ≤ a ∨ a + l.length ≤ b) :
    read (write m a l) b k = read m b k :=
  read_congr fun p _ _ => by
    rcases h with h | h
    · exact write_of_lt m l (by omega)
    · exact write_of_le m l (by omega)

/-! ### Windows round a cycle -/

/-- A position less than one turn past the end of a cycle of length `n`, brought back. -/
def wrap (n x : ℕ) : ℕ := if x < n then x else x - n

theorem wrap_lt {x : ℕ} (h : x < n + n) : wrap n x < n := by
  unfold wrap; split_ifs <;> omega

@[simp] theorem wrap_of_lt {x : ℕ} (h : x < n) : wrap n x = x := if_pos h

theorem wrap_of_le {x : ℕ} (h : n ≤ x) : wrap n x = x - n := if_neg (by omega)

theorem wrap_wrap_add {i : ℕ} (h : a < n) (hk : k + i ≤ n) :
    wrap n (wrap n (a + k) + i) = wrap n (a + k + i) := by
  unfold wrap; split_ifs <;> omega

/-- The `k` elements from `a` on, round the cycle of length `n`. -/
def window (m : ℕ → α) (n a k : ℕ) : List α := (List.range k).map fun i => m (wrap n (a + i))

@[simp] theorem length_window (n a k : ℕ) : (window m n a k).length = k := by
  simp [window]

@[simp] theorem window_zero (n a : ℕ) : window m n a 0 = [] := rfl

theorem window_congr {m m' : ℕ → α} (h : ∀ i < k, m (wrap n (a + i)) = m' (wrap n (a + i))) :
    window m n a k = window m' n a k :=
  map_congr_left fun i hi => h i (mem_range.mp hi)

theorem window_add {l : ℕ} (ha : a < n) (h : k + l ≤ n) :
    window m n a (k + l) = window m n a k ++ window m n (wrap n (a + k)) l := by
  simp only [window, range_add, map_append, map_map]
  congr 1
  refine map_congr_left fun i hi => ?_
  have := mem_range.mp hi
  simp only [Function.comp_apply]
  rw [wrap_wrap_add ha (by omega), Nat.add_assoc]

theorem take_window (ha : a < n) (hj : j ≤ k) (hk : k ≤ n) :
    (window m n a k).take j = window m n a j := by
  obtain ⟨i, rfl⟩ := Nat.exists_eq_add_of_le hj
  rw [window_add m ha hk, take_append_of_le_length (by simp),
    take_of_length_le (by simp)]

theorem drop_window (ha : a < n) (hj : j ≤ k) (hk : k ≤ n) :
    (window m n a k).drop j = window m n (wrap n (a + j)) (k - j) := by
  obtain ⟨i, rfl⟩ := Nat.exists_eq_add_of_le hj
  rw [window_add m ha hk, drop_append_of_le_length (by simp),
    drop_of_length_le (by simp), Nat.add_sub_cancel_left, nil_append]

theorem window_eq_read (h : a + k ≤ n) : window m n a k = read m a k :=
  map_congr_left fun i hi => by
    have := mem_range.mp hi
    rw [wrap_of_lt (by omega)]

/-- **Storing after a window extends it.** The stored elements do not run over the end. -/
theorem window_write (ha : a < n) (hend : wrap n (a + k) + l.length ≤ n)
    (hroom : k + l.length ≤ n) :
    window (write m (wrap n (a + k)) l) n a (k + l.length) = window m n a k ++ l := by
  rw [window_add _ ha hroom, window_eq_read _ hend, read_write]
  congr 1
  refine window_congr fun i hi => ?_
  by_cases hlt : wrap n (a + i) < wrap n (a + k)
  · exact write_of_lt m l hlt
  · refine write_of_le m l ?_
    unfold wrap at hlt hend ⊢
    split_ifs at hlt hend ⊢ <;> omega

/-- **Storing in the middle of a window** changes that part of it. -/
theorem window_write_mid (ha : a < n) (hend : wrap n (a + k) + l.length ≤ n)
    (hroom : k + l.length + j ≤ n) :
    window (write m (wrap n (a + k)) l) n a (k + l.length + j) =
      window m n a k ++ l ++ window m n (wrap n (a + (k + l.length))) j := by
  rw [window_add _ ha hroom, window_write m l ha hend (by omega)]
  congr 1
  refine window_congr fun i hi => ?_
  rw [wrap_wrap_add ha (by omega)]
  by_cases hlt : wrap n (a + (k + l.length) + i) < wrap n (a + k)
  · exact write_of_lt m l hlt
  · refine write_of_le m l ?_
    unfold wrap at hlt hend ⊢
    split_ifs at hlt hend ⊢ <;> omega

end Inetutils.Lib.Cyclic
