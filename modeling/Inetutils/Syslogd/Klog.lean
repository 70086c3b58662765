import Inetutils.Syslogd.Proto
import Inetutils.Lib.Lines
import Inetutils.Lib.Mealy
import Mathlib.Algebra.Order.BigOperators.Group.List
import Mathlib.Algebra.Order.Ring.Nat

/-! # Lines from the kernel

The loop in `main` that gathers what is read from the kernel log in `kline`, and hands it to
`printsys`. Whatever is read, the loop ends, and leaves room in the buffer (`klogLoop_room`). -/

namespace Inetutils.Syslogd.Klog

open Telnet.Proto Lib Lib.Decimal Lib.Lines List
open Proto

variable {l p : Text}

/-! ### The loop -/

/-- `printsys (kline)` is done on a full buffer; what is kept then is a priority of one digit. -/
def cloned : Text → Text
  | 60 :: b :: 62 :: _ => if isDigit b then [60, b, 62] else []
  | _ => []

theorem cloned_le (l : Text) : (cloned l).length ≤ 3 := by
  unfold cloned
  split
  · split
    · exact Nat.le_refl 3
    · exact Nat.zero_le 3
  · exact Nat.zero_le 3

/-- What a round of the loop leaves in front of `bol`: the string there is searched for newlines up
to the first NUL, and then NULs are passed over. -/
def rest (kline : Text) : Text :=
  ((cut 10 [] (kline.takeWhile (· ≠ 0))).2 ++ kline.dropWhile (· ≠ 0)).dropWhile (· = 0)

/-- The `while (1)` loop, with `kline_len` bytes in `kline`: what is passed to `printsys`, and what
stays. -/
def klogLoop (kline : Text) : List Text × Text :=
  let lines := (cut 10 [] (kline.takeWhile (· ≠ 0))).1
  if rest kline = [] then (lines, [])
  else if (rest kline).length < kline.length then
    let r := klogLoop (rest kline)
    (lines ++ r.1, r.2)
  else if _ : kline.length < MAXLINE then (lines, kline)
  else
    let r := klogLoop (cloned kline)
    (lines ++ kline.takeWhile (· ≠ 0) :: r.1, r.2)
termination_by kline.length
decreasing_by
  · assumption
  · have := cloned_le kline
    simp only [MAXLINE] at *
    omega

/-- One `read`, of what there is room for. -/
def readKlog (kline chunk : Text) : Text × List Text :=
  ((klogLoop (kline ++ chunk)).2, (klogLoop (kline ++ chunk)).1)

/-- **There is room after each read.** -/
theorem klogLoop_room (kline : Text) : (klogLoop kline).2.length < MAXLINE := by
  fun_induction klogLoop kline with
  | case1 => exact Nat.zero_lt_succ _
  | case2 kline lines h h' r ih => exact ih
  | case3 kline lines h h' h'' => exact h''
  | case4 kline lines h h' h'' r ih => exact ih

/-! ### The lines of the kernel -/

def strip (l : Text) : Text := l.dropWhile (· = 0)

/-- The lines of a stream without the NULs in front of them, and what is left of the last one. -/
def gathered (l : Text) : List Text × Text := ((cut 10 [] l).1.map strip, strip (cut 10 [] l).2)

theorem strip_zeros {z : Text} (hz : ∀ b ∈ z, b = 0) (l : Text) : strip (z ++ l) = strip l :=
  dropWhile_append_of_pos fun b hb => decide_eq_true (hz b hb)

theorem strip_of_not_mem (h : 0 ∉ l) : strip l = l := by
  rcases l with _ | ⟨b, l⟩
  · rfl
  · have hb : b ≠ 0 := fun hb => h (hb ▸ mem_cons_self)
    exact dropWhile_cons_of_neg (by simpa using hb)

theorem exists_strip (l : Text) : ∃ z, (∀ b ∈ z, b = 0) ∧ l = z ++ strip l :=
  ⟨l.takeWhile (· = 0), fun _ hb => by simpa using mem_takeWhile_imp hb,
    takeWhile_append_dropWhile.symm⟩

theorem strip_append (h : strip l ≠ []) (l' : Text) : strip (l ++ l') = strip l ++ l' := by
  obtain ⟨z, hz, hl⟩ := exists_strip l
  have hhead : strip (strip l ++ l') = strip l ++ l' := by
    rcases hs : strip l with _ | ⟨b, k⟩
    · exact absurd hs h
    · have hb := head_dropWhile_not (fun c : Byte => decide (c = 0)) h
      have hs' : l.dropWhile (fun c => decide (c = 0)) = b :: k := hs
      simp only [hs', head_cons, decide_eq_false_iff_not] at hb
      exact dropWhile_cons_of_neg (by simpa using hb)
  rw [← hhead]
  conv_lhs => rw [hl, append_assoc]
  exact strip_zeros hz _

theorem gathered_zeros {z : Text} (hz : ∀ b ∈ z, b = 0) (l : Text) :
    gathered (z ++ l) = gathered l := by
  have h10 : (10 : Byte) ∉ z := fun h => absurd (hz 10 h) (by decide)
  have h := cut_prefix 10 z [] l
  rw [append_nil] at h
  rw [gathered, gathered, cut_part 10 h10, h]
  rcases hc : (cut 10 [] l).1 with _ | ⟨x, xs⟩
  · rw [if_pos rfl]
    exact congrArg (Prod.mk []) (strip_zeros hz _)
  · rw [if_neg (cons_ne_nil x xs), modifyHead_cons, map_cons, strip_zeros hz, map_cons]

theorem gathered_strip (l : Text) : gathered (strip l) = gathered l := by
  obtain ⟨z, hz, hl⟩ := exists_strip l
  conv_rhs => rw [hl]
  exact (gathered_zeros hz _).symm

theorem gathered_append (l l' : Text) : gathered (l ++ l') =
    ((gathered l).1 ++ (gathered ((gathered l).2 ++ l')).1,
      (gathered ((gathered l).2 ++ l')).2) := by
  have h10 : (10 : Byte) ∉ (cut 10 [] l).2 := (not_mem_cut 10 not_mem_nil l).2
  obtain ⟨z, hz, hl⟩ := exists_strip (cut 10 [] l).2
  have htail : gathered ((cut 10 [] l).2 ++ l') = gathered ((gathered l).2 ++ l') := by
    conv_lhs => rw [hl, append_assoc]
    exact gathered_zeros hz _
  rw [← htail, gathered, cut_append, ← cut_part 10 h10, map_append]
  rfl

/-! ### The loop gathers the lines -/

/-- No NUL stands inside a line, and the last line, as far as it was read, leaves room. -/
structure Whole (l : Text) : Prop where
  lines : ∀ x ∈ (gathered l).1, 0 ∉ x
  last : 0 ∉ (gathered l).2
  fits : (gathered l).2.length < MAXLINE

theorem gathered_of_not_mem {u : Text} (h : 0 ∉ u) : gathered u = cut 10 [] u := by
  obtain ⟨h1, h2⟩ := mem_of_mem_cut 10 [] u (a := 0)
  have hlast : 0 ∉ (cut 10 [] u).2 := fun h0 => h ((h2 h0).resolve_left not_mem_nil)
  have hlines : (cut 10 [] u).1.map strip = (cut 10 [] u).1 := by
    rw [map_congr_left (g := id), map_id]
    exact fun x hx => strip_of_not_mem fun h0 => h ((h1 x hx h0).resolve_left not_mem_nil)
  rw [gathered, hlines, strip_of_not_mem hlast]

theorem not_mem_takeWhile (l : Text) : 0 ∉ l.takeWhile (· ≠ 0) :=
  fun h => absurd (mem_takeWhile_imp h) (by decide)

theorem gathered_round (kline : Text) : gathered kline =
    ((cut 10 [] (kline.takeWhile (· ≠ 0))).1 ++ (gathered (rest kline)).1,
      (gathered (rest kline)).2) := by
  have h := gathered_append (kline.takeWhile (· ≠ 0)) (kline.dropWhile (· ≠ 0))
  rw [takeWhile_append_dropWhile, gathered_of_not_mem (not_mem_takeWhile kline)] at h
  rw [h, rest]
  exact congrArg (fun g : List Text × Text => (_ ++ g.1, g.2)) (gathered_strip _).symm

theorem rest_length (kline : Text) :
    ((cut 10 [] (kline.takeWhile (· ≠ 0))).1.map fun x => x.length + 1).sum + (rest kline).length ≤
      kline.length := by
  have h := length_cut 10 [] (kline.takeWhile (· ≠ 0))
  have hrest := (dropWhile_suffix (· = (0 : Byte))
    (l := (cut 10 [] (kline.takeWhile (· ≠ 0))).2 ++ kline.dropWhile (· ≠ 0))).length_le
  have hsplit :=
    congrArg List.length (takeWhile_append_dropWhile (p := (· ≠ (0 : Byte))) (l := kline))
  rw [length_append] at hrest hsplit
  rw [rest]
  rw [length_nil] at h
  omega

variable {kline : Text} {b : Byte}

theorem gathered_of_stuck (hw : Whole kline) (h : kline.length ≤ (rest kline).length) :
    gathered kline = ([], kline) := by
  have hlen := rest_length kline
  have hnil : (cut 10 [] (kline.takeWhile (· ≠ 0))).1 = [] := by
    by_contra hc
    obtain ⟨x, xs, hx⟩ := exists_cons_of_ne_nil hc
    rw [hx, map_cons, sum_cons] at hlen
    omega
  have hcut : cut 10 [] (kline.takeWhile (· ≠ 0)) = ([], kline.takeWhile (· ≠ 0)) :=
    cut_of_fst_nil 10 hnil
  have hself : strip kline = kline := by
    refine (dropWhile_suffix _).eq_of_length_le ?_
    rw [rest, hcut, takeWhile_append_dropWhile] at h
    exact h
  have h10 : (10 : Byte) ∉ kline.takeWhile (· ≠ 0) := by
    have h := (not_mem_cut 10 not_mem_nil (kline.takeWhile (· ≠ 0))).2
    rwa [hcut] at h
  have hkline := (takeWhile_append_dropWhile (p := (· ≠ (0 : Byte))) (l := kline)).symm
  generalize hu : kline.takeWhile (· ≠ 0) = u at hcut h10 hkline
  have hu0 : 0 ∉ u := hu ▸ not_mem_takeWhile kline
  rcases hv : kline.dropWhile (· ≠ 0) with _ | ⟨b, v⟩
  · rw [hv, append_nil] at hkline
    rw [hkline, gathered_of_not_mem hu0, hcut]
  · -- a NUL stands behind what begins the line
    obtain rfl : b = 0 := by
      have hb := head_dropWhile_not (fun c : Byte => decide (c ≠ 0)) (l := kline) (by rw [hv]; simp)
      have hv' : kline.dropWhile (fun c => decide (c ≠ 0)) = b :: v := hv
      simp only [hv', head_cons, decide_eq_false_iff_not, not_not] at hb
      exact hb
    have hstrip : strip (u ++ [0]) = u ++ [0] := by
      have hune : strip u ≠ [] := by
        rw [strip_of_not_mem hu0]
        rintro rfl
        have hlen := congrArg List.length hself
        rw [hkline, hv, nil_append, strip, dropWhile_cons_of_pos (by decide)] at hlen
        have hle := (dropWhile_suffix (· = (0 : Byte)) (l := v)).length_le
        rw [length_cons] at hlen
        omega
      rw [strip_append hune, strip_of_not_mem hu0]
    have hne0 : strip (u ++ [0]) ≠ [] := by rw [hstrip]; simp
    have hbad : ∀ x, 0 ∈ strip (u ++ [0] ++ x) := by
      intro x
      rw [strip_append hne0, hstrip]
      simp
    have hg : cut 10 [] kline = cut 10 (u ++ [0]) v := by
      rw [hkline, hv, append_cons]
      exact cut_part 10 (by simp [h10]) v
    have hp := cut_prefix 10 (u ++ [0]) [] v
    rw [append_nil] at hp
    rw [hp] at hg
    rcases hc : (cut 10 [] v).1 with _ | ⟨x, xs⟩
    · rw [hc, if_pos rfl] at hg
      exact absurd (by rw [gathered, hg]; exact hbad _) hw.last
    · rw [hc, if_neg (cons_ne_nil x xs), modifyHead_cons] at hg
      exact absurd (hbad x) (hw.lines _ (by rw [gathered, hg]; exact mem_cons_self))

theorem Whole.rest (hw : Whole kline) : Whole (rest kline) := by
  have h := gathered_round kline
  obtain ⟨h1, h2, h3⟩ := hw
  rw [h] at h1 h2 h3
  exact ⟨fun x hx => h1 x (mem_append_right _ hx), h2, h3⟩

theorem klogLoop_eq (hw : Whole kline) : klogLoop kline = gathered kline := by
  induction kline using klogLoop.induct with
  | case1 kline h =>
    rw [klogLoop, gathered_round, if_pos h, h]
    exact congrArg (Prod.mk · []) (append_nil _).symm
  | case2 kline h h' ih =>
    rw [klogLoop, gathered_round, if_neg h, if_pos h', ih hw.rest]
  | case3 kline h h' h'' =>
    have hg := gathered_of_stuck hw (Nat.not_lt.1 h')
    have hr := gathered_round kline
    rw [klogLoop, if_neg h, if_neg h', dif_pos h'', hg]
    rw [hg] at hr
    rw [(append_eq_nil_iff.1 (congrArg Prod.fst hr).symm).1]
  | case4 kline h h' h'' ih =>
    have hg := gathered_of_stuck hw (Nat.not_lt.1 h')
    have hfits := hw.fits
    rw [hg] at hfits
    exact absurd hfits h''

/-! ### Read after read -/

/-- What is in `kline`, and what was passed to `printsys`. -/
def klog (chunks : List Text) : Text × List Text := Mealy.feed readKlog [] chunks

theorem klog_append (chunks : List Text) (chunk : Text) : klog (chunks ++ [chunk]) =
    ((klogLoop ((klog chunks).1 ++ chunk)).2,
    (klog chunks).2 ++ (klogLoop ((klog chunks).1 ++ chunk)).1) := by
  rw [klog, Mealy.feed_append, Mealy.feed_cons, Mealy.feed_nil, append_nil]
  rfl

theorem klog_room (chunks : List Text) : (klog chunks).1.length < MAXLINE := by
  rcases eq_nil_or_concat chunks with rfl | ⟨chunks, chunk, rfl⟩
  · exact Nat.zero_lt_succ _
  · rw [concat_eq_append, klog_append]
    exact klogLoop_room _

/-- A line, or what was read of it, that is passed on whole: no NUL is left inside when those in
front are taken off, and there is room for it in `kline`. -/
structure Fine (l : Text) : Prop where
  nul : 0 ∉ strip l
  kline : (strip l).length < MAXLINE

structure Clean (l : Text) : Prop where
  lines : ∀ x ∈ (cut 10 [] l).1, Fine x
  last : Fine (cut 10 [] l).2

theorem Clean.whole (h : Clean l) : Whole l := by
  refine ⟨fun x hx => ?_, h.last.nul, h.last.kline⟩
  obtain ⟨y, hy, rfl⟩ := mem_map.1 hx
  exact (h.lines y hy).nul

theorem Fine.of_append {l' : Text} (h : Fine (l ++ l')) : Fine l := by
  by_cases hs : strip l = []
  · exact ⟨by rw [hs]; exact not_mem_nil, by rw [hs]; exact Nat.zero_lt_succ _⟩
  · obtain ⟨h1, h2⟩ := h
    rw [strip_append hs] at h1 h2
    rw [length_append] at h2
    exact ⟨fun h0 => h1 (mem_append_left _ h0), by omega⟩

theorem Clean.of_append {l' : Text} (h : Clean (l ++ l')) : Clean l := by
  obtain ⟨h1, h2⟩ := h
  rw [cut_append] at h1 h2
  refine ⟨fun x hx => h1 x (mem_append_left _ hx), ?_⟩
  have hp := cut_prefix 10 (cut 10 [] l).2 [] l'
  rw [append_nil] at hp
  rw [hp] at h1 h2
  rcases hc : (cut 10 [] l').1 with _ | ⟨x, xs⟩
  · rw [hc, if_pos rfl] at h2
    exact h2.of_append
  · refine (h1 ((cut 10 [] l).2 ++ x) (mem_append_right _ ?_)).of_append
    rw [hc, modifyHead_cons]
    exact mem_cons_self

/-- **The reads gather the lines of the stream.** -/
theorem klog_eq {chunks : List Text} (h : Clean chunks.flatten) :
    klog chunks = ((gathered chunks.flatten).2, (gathered chunks.flatten).1) := by
  induction chunks using List.reverseRecOn with
  | nil => rfl
  | append_singleton chunks chunk ih =>
    rw [flatten_append, flatten_singleton] at h ⊢
    have hg := gathered_append chunks.flatten chunk
    have hw : Whole ((gathered chunks.flatten).2 ++ chunk) := by
      obtain ⟨h1, h2, h3⟩ := h.whole
      rw [hg] at h1 h2 h3
      exact ⟨fun x hx => h1 x (mem_append_right _ hx), h2, h3⟩
    rw [klog_append, ih h.of_append, klogLoop_eq hw, hg]

/-! ### What is logged for a line -/

def logged (calls : List Call) : Text := calls.flatMap fun c => c.msg.drop vmunix.length

/-- What is logged for the line `l` has its priority, and is its text, NULs apart. -/
def Faithful (l : Text) (calls : List Call) : Prop :=
  logged calls = (sysHead (l.filter (· ≠ 0))).1.2 ∧
    ∀ c ∈ calls, c.pri = sysPri (l.filter (· ≠ 0))

theorem sysCopy_fst (h10 : 10 ∉ p) (n : ℕ) : (sysCopy n p).1 = p.take n := by
  fun_induction sysCopy n p with
  | case1 n => rw [take_nil]
  | case2 c p => rfl
  | case3 n p => exact absurd mem_cons_self h10
  | case4 n c p h ih => rw [ih fun hp => h10 (mem_cons_of_mem c hp), take_succ_cons]

theorem sysCopy_snd (h10 : 10 ∉ p) (n : ℕ) : (sysCopy n p).2 = p.drop (n + 1) := by
  fun_induction sysCopy n p with
  | case1 n => rw [drop_nil]
  | case2 c p => rfl
  | case3 n p => exact absurd mem_cons_self h10
  | case4 n c p h ih => rw [ih fun hp => h10 (mem_cons_of_mem c hp), drop_succ_cons]

theorem filter_eq_strip (h : 0 ∉ strip l) : l.filter (· ≠ 0) = strip l := by
  obtain ⟨z, hz, hl⟩ := exists_strip l
  conv_lhs => rw [hl, filter_append]
  have hz' : z.filter (· ≠ 0) = [] := filter_eq_nil_iff.2 fun b hb => by simp [hz b hb]
  have hs : (strip l).filter (· ≠ 0) = strip l :=
    filter_eq_self.2 fun b hb => by simpa using fun h0 : b = 0 => h (h0 ▸ hb)
  rw [hz', hs, nil_append]

theorem mem_readPri (h : b ∈ (readPri p).2) : b ∈ p := by
  have hs := (dropWhile_suffix isDigit (l := p)).subset
  rw [readPri] at h
  split at h
  next r hr => exact hs (hr ▸ mem_cons_of_mem _ h)
  next => exact hs h

theorem mem_sysHead (h : b ∈ (sysHead p).1.2) : b ∈ p := by
  unfold sysHead at h
  split at h
  next p => exact mem_cons_of_mem _ (mem_readPri h)
  next => exact h

theorem sysHead_le (p : Text) : (sysHead p).1.2.length ≤ p.length := by
  unfold sysHead
  split
  next p => exact Nat.le_succ_of_le (readPri_le p)
  next => exact le_rfl

variable (localHostName : Text)

theorem printsys_nil : printsys localHostName [] = [] := by
  rw [printsys, sysHeads, map_nil]

theorem printsys_cons (b : Byte) (p : Text) : printsys localHostName (b :: p) =
    sysCall localHostName (b :: p) :: printsys localHostName (sysRest (b :: p)) := by
  rw [printsys, sysHeads, map_cons, printsys]

theorem logged_cons (p : Text) (calls : List Call) :
    logged (sysCall localHostName p :: calls) = sysText p ++ logged calls := by
  rw [logged, flatMap_cons, sysCall, drop_left' rfl]
  rfl

theorem logged_le (h10 : 10 ∉ p) :
    (logged (printsys localHostName p)).length ≤ (sysHead p).1.2.length := by
  induction hn : p.length using Nat.strong_induction_on generalizing p with
  | _ n ih =>
    rcases p with _ | ⟨b, p⟩
    · rw [printsys_nil]
      exact Nat.zero_le _
    · have htext : 10 ∉ (sysHead (b :: p)).1.2 := fun h => h10 (mem_sysHead h)
      have hrest : 10 ∉ sysRest (b :: p) := by
        rw [sysRest, sysCopy_snd htext]
        exact fun h => htext (mem_of_mem_drop h)
      have h := ih _ (hn ▸ sysRest_lt b p) hrest rfl
      have hle := sysHead_le (sysRest (b :: p))
      have hlen : (sysText (b :: p)).length + (sysRest (b :: p)).length ≤
          (sysHead (b :: p)).1.2.length := by
        rw [sysText, sysRest, sysCopy_fst htext, sysCopy_snd htext, length_take, length_drop]
        omega
      rw [printsys_cons, logged_cons, length_append]
      omega

theorem sysText_eq (h10 : 10 ∉ p) :
    sysText p = (sysHead p).1.2.take (MAXLINE - vmunix.length) := by
  rw [sysText, sysCopy_fst fun h => h10 (mem_sysHead h)]

theorem sysRest_eq (h10 : 10 ∉ p) :
    sysRest p = (sysHead p).1.2.drop (MAXLINE - vmunix.length + 1) := by
  rw [sysRest, sysCopy_snd fun h => h10 (mem_sysHead h)]

theorem printsys_of_le (h10 : 10 ∉ b :: p)
    (h : (sysHead (b :: p)).1.2.length ≤ MAXLINE - vmunix.length) :
    printsys localHostName (b :: p) = [sysCall localHostName (b :: p)] ∧
      sysText (b :: p) = (sysHead (b :: p)).1.2 := by
  rw [printsys_cons, sysRest_eq h10, sysText_eq h10, drop_eq_nil_of_le (Nat.le_succ_of_le h),
    printsys_nil, take_of_length_le h]
  exact ⟨rfl, rfl⟩

theorem logged_lt (h10 : 10 ∉ p) (h : MAXLINE - vmunix.length < (sysHead p).1.2.length) :
    (logged (printsys localHostName p)).length < (sysHead p).1.2.length := by
  rcases p with _ | ⟨b, p⟩
  · exact absurd h (Nat.not_lt_zero _)
  · have hrest := sysRest_eq h10
    have hle := logged_le localHostName (p := sysRest (b :: p))
      (by rw [hrest]; exact fun h => h10 (mem_sysHead (mem_of_mem_drop h)))
    have hhead := sysHead_le (sysRest (b :: p))
    rw [printsys_cons, logged_cons, length_append, sysText_eq h10, length_take]
    rw [hrest, length_drop] at hhead
    rw [hrest] at hle ⊢
    omega

theorem faithful_of_le (hl : Fine l) (h10 : 10 ∉ l)
    (h : (sysHead (strip l)).1.2.length ≤ MAXLINE - vmunix.length) :
    Faithful l (printsys localHostName (strip l)) := by
  have hs : 10 ∉ strip l := fun h => h10 ((dropWhile_suffix _).subset h)
  rw [Faithful, filter_eq_strip hl.nul]
  rcases hp : strip l with _ | ⟨b, p⟩
  · rw [printsys_nil]
    exact ⟨rfl, fun c hc => absurd hc not_mem_nil⟩
  · rw [hp] at hs h
    obtain ⟨h1, h2⟩ := printsys_of_le localHostName hs h
    rw [h1, logged_cons, h2]
    refine ⟨append_nil _, fun c hc => ?_⟩
    rw [mem_singleton.1 hc]
    rfl

/-! ### The kernel log -/

/-- The texts of the lines have room in the buffer of `printsys`. -/
def Short (l : Text) : Prop :=
  ∀ x ∈ (cut 10 [] l).1, (sysHead (strip x)).1.2.length ≤ MAXLINE - vmunix.length

/-- Each line is logged in a piece or several, with its priority. -/
def LoggedLines (l : Text) (calls : List Call) : Prop :=
  ∃ pieces, calls = pieces.flatten ∧ List.Forall₂ Faithful (cut 10 [] l).1 pieces

theorem logged_flatten (pieces : List (List Call)) :
    logged pieces.flatten = (pieces.map logged).flatten := by
  rw [logged, flatMap_def, map_flatten, flatten_flatten, map_map]
  rfl

theorem loggedLines_of_short (hl : Clean l) (h : Short l) :
    LoggedLines l ((gathered l).1.flatMap (printsys localHostName)) := by
  refine ⟨(gathered l).1.map (printsys localHostName), flatMap_def, ?_⟩
  rw [gathered, map_map, List.forall₂_map_right_iff, List.forall₂_same]
  exact fun x hx => faithful_of_le localHostName (hl.lines x hx)
    ((not_mem_cut 10 not_mem_nil l).1 x hx) (h x hx)

theorem forall₂_faithful {ls : List Text} {pieces : List (List Call)} (hn : ∀ x ∈ ls, Fine x)
    (h : List.Forall₂ Faithful ls pieces) :
    pieces.map logged = ls.map fun x => (sysHead (strip x)).1.2 := by
  induction h with
  | nil => rfl
  | cons h _ ih =>
    rw [forall_mem_cons] at hn
    rw [map_cons, map_cons, ih hn.2, h.1, filter_eq_strip hn.1.nul]

theorem short_of_loggedLines (hl : Clean l)
    (h : LoggedLines l ((gathered l).1.flatMap (printsys localHostName))) : Short l := by
  obtain ⟨pieces, hp, hall⟩ := h
  have hlogged := congrArg (fun calls => (logged calls).length) hp
  rw [flatMap_def] at hlogged
  rw [logged_flatten, logged_flatten, forall₂_faithful hl.lines hall, length_flatten,
    length_flatten, gathered, map_map, map_map, map_map, map_map] at hlogged
  have h10 : ∀ x ∈ (cut 10 [] l).1, 10 ∉ strip x := fun x hx h =>
    (not_mem_cut 10 not_mem_nil l).1 x hx ((dropWhile_suffix _).subset h)
  intro x hx
  by_contra hlong
  refine absurd hlogged (Nat.ne_of_lt (sum_lt_sum _ _ ?_ ⟨x, hx, ?_⟩))
  · exact fun y hy => logged_le localHostName (h10 y hy)
  · exact logged_lt localHostName (h10 x hx) (Nat.lt_of_not_le hlong)

/-- **The kernel log**: after each read there is room in the buffer; and where NULs stand only in
front of the lines, and these have room in `kline`, what is logged for each line is the line, in
pieces with its priority, just when the texts have room in the buffer of `printsys`. -/
theorem klog_logged (localHostName : Text) (chunks : List Text) :
    (klog chunks).1.length < MAXLINE ∧
      (Clean chunks.flatten →
        (LoggedLines chunks.flatten ((klog chunks).2.flatMap (printsys localHostName)) ↔
          Short chunks.flatten)) := by
  refine ⟨klog_room chunks, fun h => ?_⟩
  rw [klog_eq h]
  exact ⟨short_of_loggedLines localHostName h, loggedLines_of_short localHostName h⟩

/-- `<6>up` and `down`, in three reads. -/
theorem klog_logged_two : LoggedLines [60, 54, 62, 117, 112, 10, 0, 100, 10]
    ((klog [[60, 54], [62, 117, 112, 10, 0], [100, 10]]).2.flatMap (printsys [])) := by
  have hclean : Clean [60, 54, 62, 117, 112, 10, 0, 100, 10] := by
    constructor
    · intro x hx
      have hx' : x = [60, 54, 62, 117, 112] ∨ x = [0, 100] := by
        revert x
        decide
      rcases hx' with rfl | rfl <;> exact ⟨by decide, by decide⟩
    · exact ⟨by decide, by decide⟩
  refine ((klog_logged [] [[60, 54], [62, 117, 112, 10, 0], [100, 10]]).2 hclean).2 ?_
  unfold Short
  decide

/-- A NUL inside a line keeps it from being seen. -/
theorem nul_keeps_line :
    ¬ LoggedLines [97, 0, 98, 10] ((klog [[97, 0, 98, 10]]).2.flatMap (printsys [])) := by
  have hk : (klog [[97, 0, 98, 10]]).2 = [] := by
    have hr : rest [97, 0, 98, 10] = [97, 0, 98, 10] := by decide
    have hl : (cut 10 [] ([97, 0, 98, 10].takeWhile (· ≠ (0 : Byte)))).1 = [] := by decide
    rw [klog, Mealy.feed_cons, Mealy.feed_nil, append_nil]
    change (klogLoop [97, 0, 98, 10]).1 = []
    rw [klogLoop, hr, hl]
    rw [if_neg (by decide), if_neg (by decide), dif_pos (by decide)]
  rw [hk]
  rintro ⟨pieces, hp, hall⟩
  have hlogged := congrArg logged hp
  have hline : (cut 10 [] ([97, 0, 98, 10] : Text)).1 = [[97, 0, 98]] := by decide
  rw [hline] at hall
  obtain ⟨c, rfl⟩ : ∃ c, pieces = [c] := by
    rcases hall with _ | ⟨_, h⟩
    rcases h
    exact ⟨_, rfl⟩
  have hc := (List.forall₂_cons.1 hall).1.1
  rw [flatMap_nil, flatten_singleton] at hp
  rw [← hp] at hc
  exact absurd hc (by decide)

end Inetutils.Syslogd.Klog
