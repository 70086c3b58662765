import Inetutils.Lib.Lines

/-! # Pieces of a stream

A reader that takes an element at a time, and stops after a delimiter `d` or after `n` elements.
`piece d n l` is what it takes of `l`, and what it leaves; `pieces d m n l` are the pieces of the
whole stream, when `n` elements fit in the first and `m` in each of the others. -/

namespace Inetutils.Lib.Pieces

open List

variable {m n : ℕ}

variable {α : Type*} [DecidableEq α] (d : α)

def piece : ℕ → List α → List α × List α
  | _, [] => ([], [])
  | n, a :: l => if a = d ∨ n ≤ 1 then ([a], l) else (piece (n - 1) l).map (a :: ·) id

def grow (a : α) : List (List α) → List (List α)
  | [] => [[a]]
  | p :: ps => (a :: p) :: ps

def pieces (m : ℕ) : ℕ → List α → List (List α)
  | _, [] => []
  | n, a :: l => if a = d ∨ n ≤ 1 then [a] :: pieces m m l else grow a (pieces m (n - 1) l)

/-! ### One piece -/

theorem piece_nil (n : ℕ) : piece d n [] = ([], []) := rfl

variable {a : α} {p l : List α}

theorem piece_last (h : a = d ∨ n ≤ 1) (l : List α) : piece d n (a :: l) = ([a], l) := if_pos h

theorem piece_more (h : ¬ (a = d ∨ n ≤ 1)) (l : List α) :
    piece d n (a :: l) = (a :: (piece d (n - 1) l).1, (piece d (n - 1) l).2) := if_neg h

theorem piece_append (n : ℕ) (l : List α) : (piece d n l).1 ++ (piece d n l).2 = l := by
  induction l generalizing n with
  | nil => rfl
  | cons a l ih =>
    by_cases h : a = d ∨ n ≤ 1
    · rw [piece_last d h]
      rfl
    · rw [piece_more d h, cons_append, ih]

theorem piece_eq_nil_iff (n : ℕ) (l : List α) : (piece d n l).1 = [] ↔ l = [] := by
  constructor
  · intro h
    rcases l with - | ⟨a, l⟩
    · rfl
    · by_cases ha : a = d ∨ n ≤ 1
      · rw [piece_last d ha] at h
        exact absurd h (cons_ne_nil _ _)
      · rw [piece_more d ha] at h
        exact absurd h (cons_ne_nil _ _)
  · rintro rfl
    rfl

theorem length_piece_le (hn : 0 < n) (l : List α) : (piece d n l).1.length ≤ n := by
  induction l generalizing n with
  | nil => exact Nat.zero_le n
  | cons a l ih =>
    by_cases h : a = d ∨ n ≤ 1
    · rw [piece_last d h]
      exact hn
    · rw [piece_more d h, length_cons]
      rw [not_or] at h
      have hle := ih (n := n - 1) (by omega)
      omega

theorem piece_delim (n : ℕ) (l : List α) {q : List α} (h : (piece d n l).1 = p ++ d :: q) :
    q = [] := by
  induction l generalizing n p with
  | nil => exact absurd h.symm (append_ne_nil_of_right_ne_nil _ (cons_ne_nil _ _))
  | cons a l ih =>
    by_cases ha : a = d ∨ n ≤ 1
    · rw [piece_last d ha] at h
      rcases p with - | ⟨b, p⟩
      · exact (List.cons.inj h).2.symm
      · exact absurd (List.cons.inj h).2.symm (append_ne_nil_of_right_ne_nil _ (cons_ne_nil _ _))
    · rw [piece_more d ha] at h
      rcases p with - | ⟨b, p⟩
      · exact absurd (.inl (List.cons.inj h).1) ha
      · exact ih _ (List.cons.inj h).2

theorem piece_mono (hnm : n ≤ m) (h : (piece d n l).1.length < n) : piece d m l = piece d n l := by
  induction l generalizing n m with
  | nil => rfl
  | cons a l ih =>
    by_cases had : a = d
    · rw [piece_last d (.inl had), piece_last d (.inl had)]
    · by_cases hn : n ≤ 1
      · rw [piece_last d (.inr hn), length_singleton] at h
        omega
      · have hmore : ∀ k, n ≤ k → ¬ (a = d ∨ k ≤ 1) := fun k hk hor => by
          rcases hor with hor | hor
          · exact had hor
          · omega
        rw [piece_more d (hmore n (Nat.le_refl n)), length_cons] at h
        have hrest : piece d (m - 1) l = piece d (n - 1) l := ih (by omega) (by omega)
        rw [piece_more d (hmore n (Nat.le_refl n)), piece_more d (hmore m hnm), hrest]

theorem piece_of_le (hn : 0 < n) (hm : l.length ≤ m) (h : (piece d m l).1.length ≤ n) :
    piece d n l = piece d m l := by
  induction l generalizing n m with
  | nil => rfl
  | cons a l ih =>
    by_cases had : a = d
    · rw [piece_last d (.inl had), piece_last d (.inl had)]
    · have hone : l = [] → ∀ k, piece d k (a :: l) = ([a], []) := by
        rintro rfl k
        by_cases hk : a = d ∨ k ≤ 1
        · exact piece_last d hk []
        · exact piece_more d hk []
      rw [length_cons] at hm
      by_cases hm1 : m ≤ 1
      · have hnil := eq_nil_of_length_eq_zero (by omega : l.length = 0)
        rw [hone hnil, hone hnil]
      · have hmore : ¬ (a = d ∨ m ≤ 1) := not_or.2 ⟨had, hm1⟩
        rw [piece_more d hmore, length_cons] at h
        by_cases hn1 : n ≤ 1
        · have hnil := (piece_eq_nil_iff d (m - 1) l).1 (eq_nil_of_length_eq_zero (by omega))
          rw [hone hnil, hone hnil]
        · have hrest : piece d (n - 1) l = piece d (m - 1) l := ih (by omega) (by omega) (by omega)
          rw [piece_more d hmore, piece_more d (not_or.2 ⟨had, hn1⟩), hrest]

theorem piece_of_not_mem (hp : d ∉ p) (hn : p.length < n) (l : List α) :
    piece d n (p ++ l) = (p ++ (piece d (n - p.length) l).1, (piece d (n - p.length) l).2) := by
  induction p generalizing n with
  | nil => rfl
  | cons a p ih =>
    rw [mem_cons, not_or] at hp
    rw [length_cons] at hn
    have hmore : ¬ (a = d ∨ n ≤ 1) := by
      rintro (h | h)
      · exact hp.1 h.symm
      · omega
    have hsub : n - 1 - p.length = n - (a :: p).length := by
      rw [length_cons]
      omega
    rw [cons_append, piece_more d hmore, ih hp.2 (by omega), hsub]
    rfl

theorem piece_of_delim (hp : d ∉ p) (hn : p.length < n) (l : List α) :
    piece d n (p ++ d :: l) = (p ++ [d], l) := by
  rw [piece_of_not_mem d hp hn, piece_last d (.inl rfl)]

/-! ### All the pieces -/

theorem pieces_last (h : a = d ∨ n ≤ 1) (l : List α) :
    pieces d m n (a :: l) = [a] :: pieces d m m l := if_pos h

theorem pieces_more (h : ¬ (a = d ∨ n ≤ 1)) (l : List α) :
    pieces d m n (a :: l) = grow a (pieces d m (n - 1) l) := if_neg h

theorem pieces_single (m n : ℕ) (a : α) : pieces d m n [a] = [[a]] := by
  rw [pieces]
  split <;> rfl

/-- **The first piece, and those of what it leaves.** -/
theorem pieces_eq (m n : ℕ) (hl : l ≠ []) :
    pieces d m n l = (piece d n l).1 :: pieces d m m (piece d n l).2 := by
  induction l generalizing n with
  | nil => exact absurd rfl hl
  | cons a l ih =>
    by_cases h : a = d ∨ n ≤ 1
    · rw [piece_last d h, pieces_last d h]
    · rw [pieces_more d h, piece_more d h]
      rcases l with - | ⟨b, l⟩
      · rfl
      · rw [ih (n - 1) (cons_ne_nil _ _)]
        rfl

theorem pieces_of_le {m' n' : ℕ} (hm : l.length ≤ m) (hm' : l.length ≤ m') (hn : l.length ≤ n)
    (hn' : l.length ≤ n') : pieces d m n l = pieces d m' n' l := by
  induction l generalizing n n' with
  | nil => rfl
  | cons a l ih =>
    rw [length_cons] at hm hm' hn hn'
    by_cases had : a = d
    · have hrest : pieces d m m l = pieces d m' m' l :=
        ih (by omega) (by omega) (by omega) (by omega)
      rw [pieces_last d (.inl had), pieces_last d (.inl had), hrest]
    · rcases l with - | ⟨b, l⟩
      · rw [pieces_single, pieces_single]
      · rw [length_cons] at hn hn'
        have hrest : pieces d m (n - 1) (b :: l) = pieces d m' (n' - 1) (b :: l) :=
          ih (by omega) (by omega) (by rw [length_cons]; omega) (by rw [length_cons]; omega)
        rw [pieces_more d (not_or.2 ⟨had, by omega⟩),
          pieces_more d (not_or.2 ⟨had, by omega⟩), hrest]

theorem flatten_pieces (m n : ℕ) (l : List α) : (pieces d m n l).flatten = l := by
  induction l generalizing n with
  | nil => rfl
  | cons a l ih =>
    have hgrow : ∀ ps : List (List α), (grow a ps).flatten = a :: ps.flatten := by
      intro ps
      rcases ps with - | ⟨p, ps⟩ <;> rfl
    rw [pieces]
    split
    · rw [flatten_cons, ih]
      rfl
    · rw [hgrow, ih]

/-! ### The ends of the lines -/

theorem piece_full (hp : d ∉ p) (hn : 0 < n) (hlen : p.length = n) (l : List α) :
    piece d n (p ++ l) = (p, l) := by
  obtain ⟨q, a, rfl⟩ : ∃ q a, p = q ++ [a] :=
    ⟨p.dropLast, p.getLast (ne_nil_of_length_pos (hlen ▸ hn)), (dropLast_append_getLast _).symm⟩
  rw [mem_append, mem_singleton, not_or] at hp
  rw [length_append, length_singleton] at hlen
  rw [append_assoc, piece_of_not_mem d hp.1 (by omega), singleton_append,
    piece_last d (.inr (by omega))]

theorem pieces_of_delim (hl : d ∉ l) (hlen : l.length < m) (r : List α) :
    pieces d m m (l ++ d :: r) = (l ++ [d]) :: pieces d m m r := by
  rw [pieces_eq d m m (append_ne_nil_of_right_ne_nil _ (cons_ne_nil _ _)), piece_of_delim d hl hlen]

theorem pieces_of_full (hm : 0 < m) (hl : d ∉ l.take m) (hlen : m ≤ l.length) :
    pieces d m m l = l.take m :: pieces d m m (l.drop m) := by
  have hne : l ≠ [] := ne_nil_of_length_pos (Nat.lt_of_lt_of_le hm hlen)
  have hpiece := piece_full d hl hm (length_take_of_le hlen) (l.drop m)
  rw [take_append_drop] at hpiece
  rw [pieces_eq d m m hne, hpiece]

theorem delim_of_mem_pieces {x q : List α} (hx : x ∈ pieces d m n l) (h : x = p ++ d :: q) :
    q = [] := by
  induction hk : l.length using Nat.strongRecOn generalizing l n with
  | ind k ih =>
    by_cases hl : l = []
    · rw [hl] at hx
      exact absurd hx not_mem_nil
    · rw [pieces_eq d m n hl, mem_cons] at hx
      rcases hx with rfl | hx
      · exact piece_delim d n l h
      · refine ih _ ?_ hx rfl
        have happ := congrArg List.length (piece_append d n l)
        have hpos := length_pos_of_ne_nil (mt (piece_eq_nil_iff d n l).1 hl)
        rw [length_append] at happ
        omega

/-- What is left of `l`, cut at every `m`th place, is `x`. -/
def Tail (m : ℕ) (x l : List α) : Prop := x.length < m ∧ ∃ a, l = a ++ x ∧ m ∣ a.length

omit [DecidableEq α] in
theorem tail_of_lt {x l : List α} (h : l.length < m) : Tail m x l ↔ x = l := by
  constructor
  · rintro ⟨-, a, rfl, ha⟩
    rw [length_append] at h
    obtain rfl : a = [] := eq_nil_of_length_eq_zero (Nat.eq_zero_of_dvd_of_lt ha (by omega))
    rfl
  · rintro rfl
    exact ⟨h, [], rfl, Nat.dvd_zero m⟩

omit [DecidableEq α] in
theorem tail_drop {x l : List α} (h : m ≤ l.length) : Tail m x (l.drop m) ↔ Tail m x l := by
  have hlen := length_take_of_le h
  refine and_congr_right fun hx => ⟨?_, ?_⟩
  · rintro ⟨a, hdrop, ha⟩
    refine ⟨l.take m ++ a, ?_, ?_⟩
    · rw [append_assoc, ← hdrop, take_append_drop]
    · rw [length_append, hlen]
      exact (Nat.dvd_add_right (Nat.dvd_refl m)).2 ha
  · rintro ⟨a, rfl, ha⟩
    rw [length_append] at h
    have hle : m ≤ a.length := Nat.le_of_dvd (by omega) ha
    refine ⟨a.drop m, drop_append_of_le_length hle, ?_⟩
    rw [length_drop]
    exact Nat.dvd_sub ha (Nat.dvd_refl m)

theorem not_mem_pieces (hl : d ∉ l) (n : ℕ) (hp : p ∈ pieces d m n l) : d ∉ p :=
  fun hd => hl (by
    rw [← flatten_pieces d m n l]
    exact mem_flatten.2 ⟨p, hp, hd⟩)

theorem mem_pieces_line (hm : 0 < m) {x : List α} (hl : d ∉ l) (r : List α) :
    x ++ [d] ∈ pieces d m m (l ++ d :: r) ↔ Tail m x l ∨ x ++ [d] ∈ pieces d m m r := by
  induction h : l.length using Nat.strongRecOn generalizing l with
  | ind k ih =>
    by_cases hlt : l.length < m
    · rw [pieces_of_delim d hl hlt, mem_cons, tail_of_lt hlt, append_left_inj]
    · have hle := Nat.le_of_not_lt hlt
      have htake : (l ++ d :: r).take m = l.take m := take_append_of_le_length hle
      have hdrop : (l ++ d :: r).drop m = l.drop m ++ d :: r := drop_append_of_le_length hle
      have hne : x ++ [d] ≠ l.take m := fun heq =>
        hl (mem_of_mem_take (heq ▸ mem_append_right x (mem_singleton_self d)))
      rw [pieces_of_full d hm (htake ▸ fun hd => hl (mem_of_mem_take hd))
        (Nat.le_trans hle (by rw [length_append]; omega)), htake, hdrop, mem_cons, or_iff_right hne,
        ih _ (by rw [length_drop]; omega) (fun hd => hl (mem_of_mem_drop hd)) rfl, tail_drop hle]

theorem pieces_line (hm : 0 < m) {y : List α} (hy : d ∉ y) (r : List α) :
    ∃ init last, pieces d m m (y ++ d :: r) = init ++ (last ++ [d]) :: pieces d m m r ∧
    (∀ q ∈ init, d ∉ q) ∧ (init ++ [last ++ [d]]).head? = some ((y ++ [d]).take m) := by
  induction h : y.length using Nat.strongRecOn generalizing y with
  | ind k ih =>
    by_cases hlt : y.length < m
    · refine ⟨[], y, pieces_of_delim d hy hlt r, fun q hq => absurd hq not_mem_nil, ?_⟩
      rw [take_of_length_le (by rw [length_append, length_singleton]; omega)]
      rfl
    · have hle := Nat.le_of_not_lt hlt
      have htake : ∀ t, (y ++ d :: t).take m = y.take m := fun t => take_append_of_le_length hle
      have hdrop : (y ++ d :: r).drop m = y.drop m ++ d :: r := drop_append_of_le_length hle
      have hno : d ∉ y.take m := fun hd => hy (mem_of_mem_take hd)
      obtain ⟨init, last, hpieces, hinit, -⟩ :=
        ih (y.drop m).length (by rw [length_drop]; omega) (fun hd => hy (mem_of_mem_drop hd)) rfl
      refine ⟨y.take m :: init, last, ?_, forall_mem_cons.2 ⟨hno, hinit⟩, ?_⟩
      · rw [pieces_of_full d hm (htake r ▸ hno) (Nat.le_trans hle (by rw [length_append]; omega)),
          htake, hdrop, hpieces]
        rfl
      · rw [htake]
        rfl

theorem head?_pieces (hm : 0 < m) (hl : d ∉ l) (hne : l ≠ []) :
    (pieces d m m l).head? = some (l.take m) := by
  by_cases hlt : m ≤ l.length
  · rw [pieces_of_full d hm (fun hd => hl (mem_of_mem_take hd)) hlt]
    rfl
  · have hp :
        piece d m (l ++ []) = (l ++ (piece d (m - l.length) []).1, (piece d (m - l.length) []).2) :=
      piece_of_not_mem d hl (by omega) []
    rw [append_nil, piece_nil, append_nil] at hp
    rw [pieces_eq d m m hne, hp, take_of_length_le (by omega)]
    rfl

theorem mem_pieces_iff (hm : 0 < m) (x l : List α) :
    x ++ [d] ∈ pieces d m m l ↔ ∃ y ∈ (Lines.cut d [] l).1, Tail m x y := by
  induction h : l.length using Nat.strongRecOn generalizing l with
  | ind k ih =>
    by_cases hl : d ∈ l
    · obtain ⟨y, r, rfl, hy⟩ := eq_append_cons_of_mem hl
      have hcut : (Lines.cut d [] (y ++ d :: r)).1 = y :: (Lines.cut d [] r).1 := by
        rw [Lines.cut_append, Lines.cut_of_not_mem d hy, nil_append, nil_append, Lines.cut_delim]
      have hlen : r.length < k := by
        rw [← h, length_append, length_cons]
        omega
      rw [mem_pieces_line d hm hy, ih _ hlen r rfl, hcut]
      simp only [mem_cons, exists_eq_or_imp]
    · rw [Lines.cut_of_not_mem d hl]
      refine iff_of_false (fun hmem => ?_) fun ⟨y, hy, _⟩ => absurd hy not_mem_nil
      exact not_mem_pieces d hl m hmem (mem_append_right x (mem_singleton_self d))

end Inetutils.Lib.Pieces
