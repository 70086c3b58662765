import Inetutils.Lib.Decimal
import Mathlib.Data.BitVec

/-! # RETR, REST and SIZE of ftpd

`retrieve` and `send_data` of `src/ftpd.c` for a regular file, and `sizecmd` of `src/ftpcmd.y`. A
file that is sent has a position of its stream and an offset of its descriptor: `getc` reads ahead,
whole buffers at a time. `mmap` succeeds where the offset is a multiple of the page size and
something is left of the file. -/

namespace Inetutils.Ftpd.Retr

open List

abbrev Text := List UInt8

variable {file : Text}

/-- The representation type; the byte size of `L` is 8. -/
inductive Rep
  | A
  | I
  | L
  deriving DecidableEq

/-- Whether there is `mmap`, the size of a page, and of the buffer of a stream, which is an
`int`. -/
structure Env where
  mmap : Bool
  page : ℕ
  buffer : ℕ
  page_pos : 0 < page
  buffer_pos : 0 < buffer
  buffer_lt : buffer < 2 ^ 31

/-! ### The functions -/

/-- The loop of `send_data` for `TYPE_A`, over a mapped file or a stream. -/
def putLines : Text → Text
  | [] => []
  | c :: l => if c = 10 then 13 :: c :: putLines l else c :: putLines l

/-- The loop for the other types: pieces of `blksize` bytes are read and written. -/
def readLoop (blksize : ℕ) (l : Text) : Text :=
  if _ : l.take blksize = [] then []
  else l.take blksize ++ readLoop blksize (l.drop blksize)
termination_by l.length
decreasing_by
  rename_i h
  have hne : blksize ≠ 0 ∧ l ≠ [] := by
    constructor
    · rintro rfl
      exact h List.take_zero
    · rintro rfl
      exact h List.take_nil
  have hl := List.length_pos_of_ne_nil hne.2
  rw [List.length_drop]
  omega

/-- `mmap` gives the file from `offset` on. -/
def Env.maps (env : Env) (file : Text) (offset : ℕ) : Bool :=
  env.mmap ∧ offset % env.page = 0 ∧ offset < file.length

def sendData (env : Env) (type : Rep) (file : Text) (pos offset blksize : ℕ) : Text :=
  match type with
  | .A => if env.maps file offset then putLines (file.drop offset) else putLines (file.drop pos)
  | _ => if env.maps file offset then file.drop offset else readLoop blksize (file.drop offset)

/-- The loop that reads up to the restart point, where `m` is what is left to it: how many bytes it
reads, if the file does not end before. -/
def skipLoop : ℤ → Text → Option ℕ
  | m, [] => if m ≤ 0 then some 0 else none
  | m, c :: l =>
    if m ≤ 0 then some 0
    else (skipLoop (m - 1 - (if c = 10 then 1 else 0)) l).map (· + 1)

/-- The offset of the descriptor when `pos` bytes were read from the stream. -/
def Env.readAhead (env : Env) (file : Text) (pos : ℕ) : ℕ :=
  min file.length ((pos + env.buffer - 1) / env.buffer * env.buffer)

/-- `retrieve`: what is sent, or an error. The buffer size is 0 for a file. -/
def retrieve (env : Env) (type : Rep) (restartPoint : ℤ) (file : Text) : Option Text :=
  if restartPoint = 0 then some (sendData env type file 0 0 0)
  else match type with
    | .A => (skipLoop restartPoint file).map fun pos =>
      sendData env type file pos (env.readAhead file pos) 0
    | _ => if restartPoint < 0 then none else some (sendData env type file 0 restartPoint.toNat 0)

def sizeLoop (file : Text) : ℕ :=
  file.foldl (fun count c => (if c = 10 then count + 1 else count) + 1) 0

def sizecmd (type : Rep) (file : Text) : ℕ :=
  match type with
  | .A => sizeLoop file
  | _ => file.length

/-- The number of REST goes through an `int`. -/
def restartPoint (n : ℕ) : ℤ := (BitVec.ofNat 32 (min n (2 ^ 63 - 1))).toInt

/-- Byte `n` is the second of a newline that is sent as two. -/
def Splits (file : Text) (n : ℕ) : Prop :=
  ∃ a b, file = a ++ 10 :: b ∧ n = (putLines a).length + 1

/-! ### Lines that are put -/

theorem putLines_append (l l' : Text) : putLines (l ++ l') = putLines l ++ putLines l' := by
  induction l with
  | nil => rfl
  | cons c l ih =>
    rw [cons_append, putLines, putLines, ih]
    split <;> rfl

theorem length_putLines_cons (c : UInt8) (l : Text) :
    ((putLines (c :: l)).length : ℤ) = 1 + (if c = 10 then 1 else 0) + (putLines l).length := by
  rw [putLines]
  split <;> simp only [length_cons] <;> omega

theorem le_length_putLines (l : Text) : l.length ≤ (putLines l).length := by
  induction l with
  | nil => exact Nat.le_refl 0
  | cons c l ih =>
    rw [putLines]
    split <;> simp only [length_cons] <;> omega

theorem sizeLoop_eq (file : Text) : sizeLoop file = (putLines file).length := by
  have h : ∀ (l : Text) (count : ℕ),
      l.foldl (fun count c => (if c = 10 then count + 1 else count) + 1) count =
        count + (putLines l).length := by
    intro l
    induction l with
    | nil => exact fun count => rfl
    | cons c l ih =>
      intro count
      rw [foldl_cons, ih, putLines]
      split <;> simp only [length_cons] <;> omega
  rw [sizeLoop, h, zero_add]

theorem length_putLines_le_two (l : Text) : (putLines l).length ≤ 2 * l.length := by
  induction l with
  | nil => exact Nat.le_refl 0
  | cons c l ih =>
    rw [putLines]
    split <;> simp only [length_cons] <;> omega

theorem length_putLines_take_add (file : Text) (k j : ℕ) :
    (putLines (file.take (k + j))).length ≤ (putLines (file.take k)).length + 2 * j := by
  have h := length_putLines_le_two ((file.drop k).take j)
  have hj : ((file.drop k).take j).length ≤ j := by
    rw [length_take]
    exact min_le_left _ _
  rw [take_add, putLines_append, length_append]
  omega

theorem putLines_take_drop (file : Text) (k : ℕ) :
    putLines (file.drop k) = (putLines file).drop (putLines (file.take k)).length := by
  have h := putLines_append (file.take k) (file.drop k)
  rw [take_append_drop] at h
  rw [h, drop_left]

variable {k n : ℕ} {l : Text}

theorem length_putLines_lt {j : ℕ} (hj : j < k) (hk : k ≤ file.length) :
    (putLines (file.take j)).length < (putLines (file.take k)).length := by
  have hsplit : file.take k = file.take j ++ (file.take k).drop j := by
    conv_lhs => rw [← take_append_drop j (file.take k), take_take, min_eq_left (le_of_lt hj)]
  have hdrop := le_length_putLines ((file.take k).drop j)
  rw [length_drop, length_take] at hdrop
  rw [hsplit, putLines_append, length_append]
  omega

theorem length_putLines_le (file : Text) (k : ℕ) :
    (putLines (file.take k)).length ≤ (putLines file).length := by
  have h := congrArg List.length (putLines_append (file.take k) (file.drop k))
  rw [take_append_drop, length_append] at h
  omega

theorem length_putLines_inj {j : ℕ} (hj : j ≤ file.length) (hk : k ≤ file.length)
    (h : (putLines (file.take j)).length = (putLines (file.take k)).length) : j = k := by
  rcases Nat.lt_trichotomy j k with hlt | heq | hlt
  · exact absurd h (ne_of_lt (length_putLines_lt hlt hk))
  · exact heq
  · exact absurd h.symm (ne_of_lt (length_putLines_lt hlt hj))

theorem drop_eq_drop_iff {j : ℕ} (hj : j ≤ l.length) (hk : k ≤ l.length) :
    l.drop j = l.drop k ↔ j = k := by
  constructor
  · intro h
    have hlen := congrArg List.length h
    rw [length_drop, length_drop] at hlen
    omega
  · rintro rfl
    rfl

/-! ### Up to the restart point -/

theorem skipLoop_zero (l : Text) : skipLoop 0 l = some 0 := by
  cases l <;> rfl

/-- The loop stops when it has read lines that take as much as it was to skip, or one more in the
middle of a newline. -/
theorem skipLoop_spec {m : ℤ} (h : skipLoop m l = some k) :
    k ≤ l.length ∧ (m ≤ 0 → k = 0) ∧ (0 < m →
      ((putLines (l.take k)).length : ℤ) = m ∨
        ((putLines (l.take k)).length : ℤ) = m + 1 ∧ ∃ j < k,
        ((putLines (l.take j)).length : ℤ) + 1 = m ∧ l[j]? = some 10) := by
  induction l generalizing m k with
  | nil =>
    rw [skipLoop] at h
    split at h
    next hm =>
      cases h
      exact ⟨Nat.le_refl 0, fun _ => rfl, fun hpos => by omega⟩
    next => cases h
  | cons c l ih =>
    rw [skipLoop] at h
    split at h
    next hm =>
      cases h
      exact ⟨Nat.zero_le _, fun _ => rfl, fun hpos => by omega⟩
    next hm =>
      obtain ⟨k', hk', rfl⟩ := Option.map_eq_some_iff.mp h
      obtain ⟨hle, hzero, hpos⟩ := ih hk'
      refine ⟨Nat.succ_le_succ hle, fun h => absurd h hm, fun _ => ?_⟩
      rw [take_succ_cons, length_putLines_cons]
      rcases Int.lt_or_le 0 (m - 1 - if c = 10 then 1 else 0) with hm' | hm'
      · rcases hpos hm' with heq | ⟨heq, j, hj, hj', hl⟩
        · left
          omega
        · refine .inr ⟨by omega, j + 1, Nat.succ_lt_succ hj, ?_, hl⟩
          rw [take_succ_cons, length_putLines_cons]
          omega
      · obtain rfl := hzero hm'
        rw [take_zero, putLines, length_nil]
        split at hm'
        next hc =>
          rw [if_pos hc]
          by_cases hm1 : m = 1
          · refine .inr ⟨by omega, 0, Nat.succ_pos 0, ?_, congrArg some hc⟩
            rw [hm1]
            rfl
          · left
            omega
        next hc =>
          rw [if_neg hc]
          left
          omega

theorem skipLoop_isSome {m : ℤ} (h : m ≤ (putLines l).length) : (skipLoop m l).isSome := by
  induction l generalizing m with
  | nil =>
    rw [skipLoop, if_pos (by simpa [putLines] using h)]
    rfl
  | cons c l ih =>
    rw [skipLoop]
    split
    · rfl
    · rw [Option.isSome_map]
      refine ih ?_
      rw [length_putLines_cons] at h
      omega

theorem skipLoop_exact (hb : ¬ Splits file n) (h : skipLoop n file = some k) :
    (putLines (file.take k)).length = n := by
  obtain ⟨hk, hzero, hpos⟩ := skipLoop_spec h
  rcases Nat.eq_zero_or_pos n with rfl | hn
  · obtain rfl := hzero (Int.le_refl _)
    rfl
  · rcases hpos (by omega) with heq | ⟨-, j, -, hj, hl⟩
    · omega
    · refine absurd ⟨file.take j, file.drop (j + 1), ?_, by omega⟩ hb
      obtain ⟨hlt, heq⟩ := List.getElem?_eq_some_iff.mp hl
      rw [← heq, ← List.drop_eq_getElem_cons hlt, List.take_append_drop]

/-! ### The number of REST -/

theorem restartPoint_eq (h : n < 2 ^ 31) : restartPoint n = n := by
  rw [restartPoint, min_eq_left (by omega), BitVec.toInt_ofNat', Int.bmod_def]
  omega

theorem restartPoint_far (h : 2 ^ 31 ≤ n) : restartPoint n < 0 ∨ restartPoint n + 2 ^ 32 ≤ n := by
  rw [restartPoint, BitVec.toInt_ofNat', Int.bmod_def]
  omega

theorem restartPoint_le (n : ℕ) : restartPoint n ≤ n := by
  rcases lt_or_ge n (2 ^ 31) with h | h
  · exact le_of_eq (restartPoint_eq h)
  · rcases restartPoint_far h with hr | hr <;> omega

/-! ### The stream and its descriptor -/

variable (env : Env)

theorem readAhead_zero (file : Text) : env.readAhead file 0 = 0 := by
  have h := env.buffer_pos
  rw [Env.readAhead, Nat.div_eq_of_lt (by omega), zero_mul, Nat.min_zero]

theorem le_readAhead (hk : k ≤ file.length) : k ≤ env.readAhead file k := by
  have h := env.buffer_pos
  have hdiv := Nat.div_add_mod (k + env.buffer - 1) env.buffer
  have hmod := Nat.mod_lt (k + env.buffer - 1) h
  rw [mul_comm] at hdiv
  rw [Env.readAhead]
  omega

theorem readAhead_lt (file : Text) (k : ℕ) : env.readAhead file k < k + env.buffer := by
  have h := env.buffer_pos
  have hdiv := Nat.div_mul_le_self (k + env.buffer - 1) env.buffer
  rw [Env.readAhead]
  omega

theorem readAhead_le (file : Text) (k : ℕ) : env.readAhead file k ≤ file.length :=
  min_le_left _ _

def Env.start (env : Env) (file : Text) (pos : ℕ) : ℕ :=
  if env.maps file (env.readAhead file pos) then env.readAhead file pos else pos

theorem start_le (hk : k ≤ file.length) : env.start file k ≤ file.length := by
  rw [Env.start]
  split
  · exact readAhead_le env file k
  · exact hk

theorem start_zero (file : Text) : env.start file 0 = 0 := by
  rw [Env.start, readAhead_zero, ite_self]

/-! ### A file of lines -/

theorem retrieve_lines (r : ℤ) (file : Text) :
    retrieve env .A r file =
      (skipLoop r file).map fun pos =>
        (putLines file).drop (putLines (file.take (env.start file pos))).length := by
  have hsend : ∀ pos, sendData env .A file pos (env.readAhead file pos) 0 =
      putLines (file.drop (env.start file pos)) := by
    intro pos
    rw [sendData, Env.start]
    split <;> rfl
  rw [retrieve]
  split
  next hr =>
    have h := hsend 0
    rw [readAhead_zero] at h
    rw [hr, skipLoop_zero, Option.map_some, h, putLines_take_drop]
  next =>
    refine congrArg (Option.map · _) (funext fun pos => ?_)
    rw [hsend, putLines_take_drop]

theorem start_far (hn : 2 ^ 31 ≤ n) (h : skipLoop (restartPoint n) file = some k) :
    (putLines (file.take (env.start file k))).length < n := by
  obtain ⟨hk, hzero, hpos⟩ := skipLoop_spec h
  rcases Int.lt_or_le 0 (restartPoint n) with hr | hr
  · have hstart : k ≤ env.start file k ∧ env.start file k < k + env.buffer := by
      have hbuf := env.buffer_pos
      rw [Env.start]
      split
      · exact ⟨le_readAhead env hk, readAhead_lt env file k⟩
      · omega
    have hadd := length_putLines_take_add file k (env.start file k - k)
    rw [Nat.add_sub_cancel' hstart.1] at hadd
    have hbuf := env.buffer_lt
    rcases restartPoint_far hn with hneg | hfar <;> omega
  · rw [hzero hr, start_zero, take_zero, putLines, length_nil]
    omega

theorem restart_lines (hn : n ≤ (putLines file).length) (hb : ¬ Splits file n) :
    retrieve env .A (restartPoint n) file = some ((putLines file).drop n) ↔
      n < 2 ^ 31 ∧ ∀ k ≤ file.length, (putLines (file.take k)).length = n →
        env.maps file (env.readAhead file k) → env.readAhead file k = k := by
  have hr := restartPoint_le n
  obtain ⟨k, hk⟩ := Option.isSome_iff_exists.mp (skipLoop_isSome (hr.trans (Int.ofNat_le.mpr hn)))
  have hkl := (skipLoop_spec hk).1
  have hsent : retrieve env .A (restartPoint n) file = some ((putLines file).drop n) ↔
      (putLines (file.take (env.start file k))).length = n := by
    rw [retrieve_lines, hk, Option.map_some, Option.some_inj]
    exact drop_eq_drop_iff (length_putLines_le file _) hn
  rw [hsent]
  rcases lt_or_ge n (2 ^ 31) with hlt | hge
  · rw [restartPoint_eq hlt] at hk
    have hkn := skipLoop_exact hb hk
    constructor
    · intro h
      refine ⟨hlt, fun k' hk' hn' hmaps => ?_⟩
      obtain rfl := length_putLines_inj hk' hkl (hn'.trans hkn.symm)
      have hstart := length_putLines_inj (start_le env hkl) hkl (h.trans hkn.symm)
      rwa [Env.start, if_pos hmaps] at hstart
    · rintro ⟨-, h⟩
      have hstart : env.start file k = k := by
        rw [Env.start]
        split
        next hmaps => exact h k hkl hkn hmaps
        next => rfl
      rw [hstart, hkn]
  · have hfar := start_far env hge hk
    constructor
    · intro h
      omega
    · rintro ⟨hlt, -⟩
      omega

/-! ### A file of bytes -/

theorem maps_iff {env : Env} {offset : ℕ} :
    env.maps file offset = true ↔ env.mmap = true ∧ offset % env.page = 0 ∧ offset < file.length :=
  decide_eq_true_iff

theorem retrieve_bytes (r : ℤ) (file : Text) :
    retrieve env .I r file =
      if r < 0 then none else some (if env.maps file r.toNat then file.drop r.toNat else []) := by
  have hread : ∀ l, readLoop 0 l = [] := by
    intro l
    rw [readLoop, dif_pos take_zero]
  have hsend : ∀ offset, sendData env .I file 0 offset 0 =
      if env.maps file offset then file.drop offset else [] := by
    intro offset
    rw [← hread (file.drop offset)]
    rfl
  have hretr : retrieve env .I r file = if r = 0 then some (sendData env .I file 0 0 0)
      else if r < 0 then none else some (sendData env .I file 0 r.toNat 0) := rfl
  rw [hretr]
  split
  next hr =>
    rw [hr, hsend]
    rfl
  next => rw [hsend]

theorem whole_bytes {env : Env} (h : env.mmap = true ∨ file = []) :
    retrieve env .I 0 file = some file := by
  rw [retrieve_bytes, if_neg (Int.lt_irrefl 0), Int.toNat_zero]
  split
  next => rfl
  next hmaps =>
    rcases h with hmmap | rfl
    · have hnil : file = [] := by
        refine length_eq_zero_iff.mp (Nat.eq_zero_of_not_pos fun hpos => hmaps ?_)
        exact maps_iff.mpr ⟨hmmap, Nat.zero_mod _, hpos⟩
      rw [hnil]
    · rfl

theorem mmap_of_length {env : Env} {T : Text} (hT : retrieve env .I 0 file = some T)
    (hlen : file.length = T.length) : env.mmap = true ∨ file = [] := by
  rw [retrieve_bytes, if_neg (Int.lt_irrefl 0), Int.toNat_zero, Option.some_inj] at hT
  split at hT
  next hmaps => exact .inl (maps_iff.mp hmaps).1
  next =>
    rw [← hT] at hlen
    exact .inr (length_eq_zero_iff.mp hlen)

theorem sent_bytes {m : ℕ} (hm : m ≤ file.length) (hn : n ≤ file.length)
    (hmap : env.mmap = true ∨ file = []) :
    (if env.maps file m then file.drop m else []) = file.drop n ↔
      m % env.page = 0 ∧ m = n ∨ (m % env.page ≠ 0 ∨ m = file.length) ∧ n = file.length := by
  split
  next hmaps =>
    obtain ⟨-, hpage, hlt⟩ := maps_iff.mp hmaps
    rw [drop_eq_drop_iff hm hn]
    omega
  next hmaps =>
    have hlast : m % env.page = 0 → m = file.length := by
      intro hpage
      rcases hmap with hmmap | rfl
      · exact le_antisymm hm (Nat.le_of_not_lt fun hlt => hmaps (maps_iff.mpr ⟨hmmap, hpage, hlt⟩))
      · exact Nat.le_zero.mp hm
    rw [eq_comm, drop_eq_nil_iff]
    omega

theorem restart_bytes (hn : n ≤ file.length) (hmap : env.mmap = true ∨ file = []) :
    retrieve env .I (restartPoint n) file = some (file.drop n) ↔
      n < 2 ^ 31 ∧ n % env.page = 0 ∨
        n = file.length ∧
        (n < 2 ^ 31 ∨ 0 ≤ restartPoint n ∧ (restartPoint n).toNat % env.page ≠ 0) := by
  have hr := restartPoint_le n
  rw [retrieve_bytes]
  rcases Int.lt_or_le (restartPoint n) 0 with hneg | hpos
  · have hge : 2 ^ 31 ≤ n := Nat.le_of_not_lt fun hlt => absurd (restartPoint_eq hlt) (by omega)
    rw [if_pos hneg]
    constructor
    · intro h
      cases h
    · omega
  · rw [if_neg (by omega), Option.some_inj, sent_bytes env (by omega) hn hmap]
    rcases Nat.lt_or_ge n (2 ^ 31) with hlt | hge
    · rw [restartPoint_eq hlt, Int.toNat_natCast]
      omega
    · have hfar := restartPoint_far hge
      omega

/-! ### The result -/

/-- When REST `n` and RETR send what SIZE and RETR without it promise. -/
def Env.Restarts (env : Env) (type : Rep) (file : Text) (n : ℕ) : Prop :=
  match type with
  | .A => n < 2 ^ 31 ∧ ∀ k ≤ file.length, (putLines (file.take k)).length = n →
      env.maps file (env.readAhead file k) → env.readAhead file k = k
  | _ => (env.mmap = true ∨ file = []) ∧ (n < 2 ^ 31 ∧ n % env.page = 0 ∨
      n = file.length ∧ (n < 2 ^ 31 ∨ 0 ≤ restartPoint n ∧ (restartPoint n).toNat % env.page ≠ 0))

theorem whole_lines (file : Text) : retrieve env .A 0 file = some (putLines file) := by
  rw [retrieve_lines, skipLoop_zero, Option.map_some, start_zero]
  rfl

theorem exact_bytes (hn : n ≤ file.length) :
    (∃ T, retrieve env .I 0 file = some T ∧ sizecmd .I file = T.length ∧
      retrieve env .I (restartPoint n) file = some (T.drop n)) ↔ env.Restarts .I file n := by
  constructor
  · rintro ⟨T, hT, hsize, hrest⟩
    have hmap := mmap_of_length hT hsize
    obtain rfl := Option.some_inj.mp (hT.symm.trans (whole_bytes hmap))
    exact ⟨hmap, (restart_bytes env hn hmap).mp hrest⟩
  · rintro ⟨hmap, h⟩
    exact ⟨file, whole_bytes hmap, rfl, (restart_bytes env hn hmap).mpr h⟩

/-- **Restart.** REST `n` and RETR send all but the first `n` bytes of what RETR sends, of which
SIZE gives the length, just when `n` is an `int`, and lines are sent from where the stream was read
ahead to, or are not mapped there; bytes have to be mapped, from a page on, or are at their end. -/
theorem restart_exact (env : Env) (type : Rep) {file : Text} {n : ℕ} (hn : n ≤ sizecmd type file)
    (hb : type = .A → ¬ Splits file n) :
    (∃ T, retrieve env type 0 file = some T ∧ sizecmd type file = T.length ∧
      retrieve env type (restartPoint n) file = some (T.drop n)) ↔ env.Restarts type file n := by
  cases type with
  | A =>
    have hsize : sizecmd .A file = (putLines file).length := sizeLoop_eq file
    rw [hsize] at hn
    rw [hsize]
    refine Iff.trans ?_ (restart_lines env hn (hb rfl))
    constructor
    · rintro ⟨T, hT, -, hrest⟩
      obtain rfl := Option.some_inj.mp ((whole_lines env file).symm.trans hT)
      exact hrest
    · intro h
      exact ⟨putLines file, whole_lines env file, rfl, h⟩
  | I => exact exact_bytes env hn
  | L => exact exact_bytes env hn

/-- A system with maps, and pages and buffers of 4096 bytes. -/
def paged : Env := ⟨true, 4096, 4096, by decide, by decide, by decide⟩

/-- The second line of a file of two lines. -/
theorem restart_exact_line :
    ∃ T, retrieve paged .A 0 [97, 10, 98] = some T ∧ sizecmd .A [97, 10, 98] = T.length ∧
      retrieve paged .A (restartPoint 3) [97, 10, 98] = some (T.drop 3) := by
  refine (restart_exact paged .A (by decide) ?_).2 ⟨by decide, by decide⟩
  rintro - ⟨a, b, hab, hn⟩
  rcases a with _ | ⟨x, _ | ⟨y, _ | ⟨z, a⟩⟩⟩
  · simp at hab
  · obtain ⟨rfl, -⟩ := cons_eq_cons.mp hab
    exact absurd hn (by decide)
  · simp at hab
  · simp at hab

/-- Three bytes cannot be restarted at the second. -/
theorem restart_inside_page :
    ¬ ∀ (env : Env) (type : Rep) (file : Text) (n : ℕ), n ≤ sizecmd type file →
    (type = .A → ¬ Splits file n) →
      ∃ T, retrieve env type 0 file = some T ∧ sizecmd type file = T.length ∧
        retrieve env type (restartPoint n) file = some (T.drop n) := by
  intro h
  obtain ⟨T, hT, -, hrest⟩ := h paged .I [97, 98, 99] 1 (by decide) (fun h => by cases h)
  obtain rfl := Option.some_inj.mp ((whole_bytes (.inl rfl)).symm.trans hT)
  rcases (restart_bytes paged (by decide) (.inl rfl)).mp hrest with ⟨-, hpage⟩ | ⟨hlast, -⟩
  · exact absurd hpage (by decide)
  · exact absurd hlast (by decide)

end Inetutils.Ftpd.Retr
