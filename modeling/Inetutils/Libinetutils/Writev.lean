import Inetutils.Lib.Cells
import Inetutils.Lib.Cyclic
import Inetutils.Lib.Runs
import Mathlib.Data.UInt

/-! # What `ttymsg` writes

The loop of `ttymsg` in `libinetutils/ttymsg.c`, from the sum of the lengths on. After a partial
write the vector is copied into `localiov`, and `iov` goes on there; after another one it is copied
again, from within `localiov` to its beginning. `memcpy` of places onto themselves is not defined,
and has no result; nor has what reads or writes outside of an array, or places that are not set. -/

namespace Inetutils.Libinetutils.Writev

open Lib.Cells Lib.Runs List Option
open Lib.Cyclic (read length_read drop_read)

structure Iovec where
  iov_base : ℕ
  iov_len : ℕ
  deriving DecidableEq

/-- `sizeof (localiov) / sizeof (localiov[0])` -/
abbrev nLocal : ℕ := 6

structure Iovs where
  list : List Iovec
  le : list.length ≤ nLocal

/-- What becomes of a number in an `int`. -/
def toInt (n : ℤ) : ℤ := (n + 2 ^ 31) % 2 ^ 32 - 2 ^ 31

section
variable (mem : ℕ → UInt8)

def Iovec.bytes (v : Iovec) : List UInt8 := read mem v.iov_base v.iov_len

def contents (l : List Iovec) : List UInt8 := l.flatMap (Iovec.bytes mem)

/-- How the loop ends: all is written, the line went away, something else failed, or it is left to a
child; a child whose write would block again exits. -/
inductive End
  | written
  | gone
  | failed
  | parent
  | exited
  deriving DecidableEq

/-- `iov` is `off` entries behind the beginning of `localiov`, or of the array of the caller.
`accepted` is what `writev` has taken. -/
structure State where
  localiov : Block Iovec
  inLocal : Bool
  off : ℕ
  iovcnt : ℤ
  left : ℤ
  forked : Bool
  accepted : List UInt8
  ended : Option End

/-- What `fork2` gives. -/
inductive Fork
  | failed
  | parent
  | child

/-- What comes of `writev`: it takes at most `n` bytes of what it is offered, or fails. -/
inductive Event
  | wrote (n : ℕ)
  | wouldBlock (fork : Fork)
  | gone
  | failed

/-- `iov` and what is behind it. -/
def State.iov (caller : Iovs) (s : State) : Block Iovec :=
  (if s.inLocal then s.localiov else caller.list.map some).drop s.off

/-- The vector that `writev` is given. -/
def State.offered (caller : Iovs) (s : State) : Option (List Iovec) :=
  if 0 ≤ s.iovcnt then front s.iovcnt.toNat (s.iov caller) else none

/-- The entries of `localiov` are copied onto themselves. -/
def State.Overlaps (s : State) : Prop := s.inLocal = true ∧ 0 < s.off ∧ s.off < s.iovcnt

instance (s : State) : Decidable s.Overlaps := inferInstanceAs (Decidable (_ ∧ _))

/-- `memcpy (localiov, iov, iovcnt * sizeof (struct iovec)); iov = localiov;` -/
def State.toLocal (caller : Iovs) (s : State) : Option State :=
  if s.inLocal = true ∧ s.off = 0 then some s
  else if s.Overlaps then none
  else (s.offered caller).bind fun l =>
    (fill s.localiov 0 l).map fun localiov => { s with localiov, inLocal := true, off := 0 }

/-- `for (cnt = 0; wret >= (int) iov->iov_len; ++cnt)`: what is left of `wret`, and `cnt`. -/
def advance (wret : ℤ) (cnt : ℕ) : Block Iovec → Option (ℤ × ℕ)
  | some v :: iov => if toInt v.iov_len ≤ wret then advance (toInt (wret - v.iov_len)) (cnt + 1) iov
    else some (wret, cnt)
  | _ => none

/-- `if (wret)`: a part of the entry at `off` is written. -/
def State.cut (s : State) (wret : ℤ) : Option State :=
  if wret = 0 then some s
  else (fetch s.localiov s.off).bind fun v =>
    (write s.localiov s.off ⟨v.iov_base + wret.toNat, v.iov_len - wret.toNat⟩).map fun localiov =>
      { s with localiov }

def State.partly (caller : Iovs) (s : State) (wret : ℤ) : Option State :=
  ({ s with left := toInt (s.left - wret) }.toLocal caller).bind fun s =>
    (advance wret 0 (s.localiov.drop s.off)).bind fun r =>
      { s with off := s.off + r.2, iovcnt := s.iovcnt - r.2 }.cut r.1

/-- `wret = writev (fd, iov, iovcnt)`; a number of bytes that is no `int` has no result. -/
def State.write (caller : Iovs) (s : State) (n : ℕ) : Option State :=
  (s.offered caller).bind fun l =>
    let out := (contents mem l).take n
    let wret := toInt out.length
    if s.left ≤ wret then some { s with accepted := s.accepted ++ out, ended := some .written }
    else if 0 ≤ wret then { s with accepted := s.accepted ++ out }.partly caller wret
    else none

/-- `errno == EWOULDBLOCK` -/
def State.wouldBlock (s : State) (fork : Fork) : State :=
  if s.forked then { s with ended := some .exited }
  else
    match fork with
    | .failed => { s with ended := some .failed }
    | .parent => { s with ended := some .parent }
    | .child => { s with forked := true }

def turn (caller : Iovs) (s : State) (e : Event) : Option State :=
  if s.ended.isSome then some s
  else
    match e with
    | .wrote n => s.write mem caller n
    | .wouldBlock fork => some (s.wouldBlock fork)
    | .gone => some { s with ended := some .gone }
    | .failed => some { s with ended := some .failed }

def step (caller : Iovs) (s : Option State) (e : Event) : Option State :=
  s.bind fun s => turn mem caller s e

/-- `for (cnt = left = 0; cnt < iovcnt; ++cnt) left += iov[cnt].iov_len;` -/
def start (caller : Iovs) : State :=
  { localiov := alloc nLocal, inLocal := false, off := 0, iovcnt := caller.list.length
    left := caller.list.foldl (fun left v => toInt (left + v.iov_len)) 0
    forked := false, accepted := [], ended := none }

/-! ### What is to hold -/

/-- The bytes that were accepted, and then those of the vector, are all bytes of the caller, and
`left` is the number of the latter; when all is written, all was accepted. -/
def State.Sound (caller : Iovs) (s : State) : Prop :=
  if s.ended = some .written then s.accepted = contents mem caller.list
  else ∃ l, s.offered caller = some l ∧ s.accepted ++ contents mem l = contents mem caller.list ∧
    s.left = (contents mem l).length

/-- The loop has come here without an access that is not defined. -/
def Sound (caller : Iovs) (s : Option State) : Prop := ∃ t, s = some t ∧ t.Sound mem caller

/-- No place of `localiov` is copied onto itself. -/
def Apart (s : Option State) (e : Event) : Prop :=
  ∀ t n, s = some t → t.ended = none → e = .wrote n → n < t.left → ¬ t.Overlaps

/-! ### The vector -/

variable {mem}

@[simp] theorem length_bytes (v : Iovec) : (v.bytes mem).length = v.iov_len := length_read _ _ _

@[simp] theorem contents_nil : contents mem [] = [] := rfl

@[simp] theorem contents_cons (v : Iovec) (l : List Iovec) :
    contents mem (v :: l) = v.bytes mem ++ contents mem l := rfl

@[simp] theorem contents_append (l m : List Iovec) :
    contents mem (l ++ m) = contents mem l ++ contents mem m :=
  flatMap_append

theorem toInt_of_lt {n : ℕ} (h : n < 2 ^ 31) : toInt n = n := by
  unfold toInt
  omega

theorem toInt_lt (n : ℤ) : toInt n < 2 ^ 31 := by
  unfold toInt
  omega

theorem bytes_drop (v : Iovec) {r : ℕ} (h : r ≤ v.iov_len) :
    Iovec.bytes mem ⟨v.iov_base + r, v.iov_len - r⟩ = (v.bytes mem).drop r :=
  (drop_read mem v.iov_base h).symm

/-- **The loop stops in front of the bytes that are left.** -/
theorem advance_spec {l : List Iovec} (hfits : (contents mem l).length < 2 ^ 31) {n : ℕ}
    (hn : n < (contents mem l).length) (cnt : ℕ) (rest : Block Iovec) :
    ∃ l₁ v l₂ r, l = l₁ ++ v :: l₂ ∧ n = (contents mem l₁).length + r ∧ r < v.iov_len ∧
      advance n cnt (l.map some ++ rest) = some ((r : ℤ), cnt + l₁.length) := by
  induction l generalizing n cnt with
  | nil => cases hn
  | cons v l ih =>
    rw [contents_cons, length_append, length_bytes] at hfits hn
    have hlen : toInt v.iov_len = v.iov_len := toInt_of_lt (by omega)
    rw [map_cons, cons_append, advance, hlen]
    by_cases hle : v.iov_len ≤ n
    · have hsub : toInt (n - v.iov_len) = ((n - v.iov_len : ℕ) : ℤ) := by
        rw [← Nat.cast_sub hle]
        exact toInt_of_lt (by omega)
      rw [if_pos (by omega), hsub]
      obtain ⟨l₁, w, l₂, r, rfl, hr, hlt, heq⟩ :=
        ih (n := n - v.iov_len) (by omega) (by omega) (cnt + 1)
      refine ⟨v :: l₁, w, l₂, r, rfl, ?_, hlt, ?_⟩
      · rw [contents_cons, length_append, length_bytes]
        omega
      · rw [heq, length_cons, add_right_comm, add_assoc]
    · rw [if_neg (by omega)]
      exact ⟨[], v, l, n, rfl, by simp, by omega, by simp⟩

/-! ### A write -/

structure State.Inv (s : State) : Prop where
  length : s.localiov.length = nLocal
  off : s.inLocal = false → s.off = 0
  iovcnt : 0 ≤ s.iovcnt ∧ s.iovcnt ≤ nLocal

section
variable {caller : Iovs} {s : State} {l : List Iovec}

theorem offered_eq_some_iff (h : s.Inv) :
    s.offered caller = some l ↔ (l.length : ℤ) = s.iovcnt ∧ ∃ r,
    s.iov caller = l.map some ++ r := by
  obtain ⟨hnonneg, -⟩ := h.iovcnt
  unfold State.offered
  rw [if_pos hnonneg, front_eq_some_iff]
  refine and_congr_left fun _ => ?_
  omega

variable (caller) in
theorem toLocal_spec (h : s.Inv) (hl : s.offered caller = some l) (hapart : ¬ s.Overlaps) :
    ∃ r, s.toLocal caller = some { s with localiov := l.map some ++ r, inLocal := true, off := 0 } ∧
      (l.map some ++ r).length = nLocal := by
  obtain ⟨hcnt, r, hiov⟩ := (offered_eq_some_iff h).1 hl
  have hlength := h.length
  unfold State.toLocal
  by_cases hbegin : s.inLocal = true ∧ s.off = 0
  · obtain ⟨hin, hoff⟩ := hbegin
    have hlocal : s.localiov = l.map some ++ r := by
      rw [← hiov, State.iov, if_pos hin, hoff, drop_zero]
    refine ⟨r, ?_, hlocal ▸ hlength⟩
    rw [if_pos ⟨hin, hoff⟩, ← hlocal, ← hin, ← hoff]
  · obtain ⟨-, hmost⟩ := h.iovcnt
    have hroom : l.length ≤ s.localiov.length := by omega
    refine ⟨s.localiov.drop l.length, ?_, ?_⟩
    · rw [if_neg hbegin, if_neg hapart, hl, bind_some, fill_eq (Nat.zero_le _), Nat.zero_add,
        if_pos hroom]
      rfl
    · rw [length_append, length_map, length_drop]
      omega

variable (mem) in
theorem cut_spec {l₁ : Block Iovec} {v : Iovec} {r : Block Iovec} {n : ℕ}
    (hlocal : s.localiov = l₁ ++ some v :: r) (hoff : s.off = l₁.length) (hn : n ≤ v.iov_len) :
    ∃ w, s.cut n = some { s with localiov := l₁ ++ some w :: r } ∧
    w.bytes mem = (v.bytes mem).drop n := by
  unfold State.cut
  by_cases h0 : n = 0
  · refine ⟨v, ?_, by rw [h0, drop_zero]⟩
    rw [if_pos (by omega), ← hlocal]
  · have hfetch : fetch s.localiov s.off = some v := by
      unfold fetch
      rw [hlocal, hoff, getElem?_append_right le_rfl, Nat.sub_self]
      rfl
    refine ⟨_, ?_, bytes_drop v hn⟩
    have hlt : s.off < s.localiov.length := by
      rw [hlocal, hoff, length_append, length_cons]
      omega
    rw [if_neg (by omega), hfetch, bind_some, write_of_lt hlt, map_some, hlocal, hoff]
    simp

/-- **A partial write** leaves the bytes that it did not take. -/
theorem partly_spec (h : s.Inv) (hl : s.offered caller = some l)
    (hleft : s.left = (contents mem l).length)
    (hfits : (contents mem l).length < 2 ^ 31) (hapart : ¬ s.Overlaps) {n : ℕ}
    (hn : n < (contents mem l).length) :
    ∃ t l', s.partly caller n = some t ∧ t.Inv ∧ t.offered caller = some l' ∧
      contents mem l' = (contents mem l).drop n ∧ t.left = (contents mem l').length ∧
      t.accepted = s.accepted ∧ t.ended = s.ended := by
  have hsub : toInt (s.left - n) = (((contents mem l).length - n : ℕ) : ℤ) := by
    rw [hleft, ← Nat.cast_sub hn.le]
    exact toInt_of_lt (by omega)
  obtain ⟨hcnt, -⟩ := (offered_eq_some_iff h).1 hl
  have hleft' : State.Inv { s with left := toInt (s.left - n) } := ⟨h.length, h.off, h.iovcnt⟩
  obtain ⟨r, htolocal, hlength⟩ := toLocal_spec caller hleft' hl hapart
  obtain ⟨l₁, v, l₂, k, rfl, hk, hlt, hadvance⟩ := advance_spec hfits hn 0 r
  have hlocal :
      (l₁ ++ v :: l₂).map some ++ r = l₁.map some ++ some v :: (l₂.map some ++ r) := by simp
  obtain ⟨w, hcut, hbytes⟩ := cut_spec mem (n := k)
    (s := { s with
      left := toInt (s.left - n)
      localiov := (l₁ ++ v :: l₂).map some ++ r
      inLocal := true
      off := 0 + (0 + l₁.length)
      iovcnt := s.iovcnt - (0 + l₁.length : ℕ) })
    hlocal (by simp) hlt.le
  have hcontents : contents mem (w :: l₂) = (contents mem (l₁ ++ v :: l₂)).drop n := by
    rw [contents_append, contents_cons, contents_cons, hbytes, hk, drop_append,
      Nat.add_sub_cancel_left, drop_of_length_le (Nat.le_add_right _ _), nil_append,
      drop_append_of_le_length (by rw [length_bytes]; omega)]
  have hpartly : s.partly caller n = some { s with
      left := toInt (s.left - n)
      localiov := l₁.map some ++ some w :: (l₂.map some ++ r)
      inLocal := true
      off := 0 + (0 + l₁.length)
      iovcnt := s.iovcnt - (0 + l₁.length : ℕ) } := by
    unfold State.partly
    rw [htolocal, bind_some, drop_zero, hadvance, bind_some]
    exact hcut
  rw [length_append, length_cons] at hcnt
  obtain ⟨-, hmost⟩ := h.iovcnt
  have hinv : State.Inv { s with
      left := toInt (s.left - n)
      localiov := l₁.map some ++ some w :: (l₂.map some ++ r)
      inLocal := true
      off := 0 + (0 + l₁.length)
      iovcnt := s.iovcnt - (0 + l₁.length : ℕ) } := by
    refine ⟨?_, nofun, ?_⟩
    · rw [← hlength]
      simp
    · dsimp only
      omega
  refine ⟨_, w :: l₂, hpartly, hinv, ?_, hcontents, ?_, rfl, rfl⟩
  · refine (offered_eq_some_iff hinv).2 ⟨?_, r, ?_⟩
    · rw [length_cons]
      dsimp only
      omega
    · unfold State.iov
      rw [if_pos rfl, Nat.zero_add, Nat.zero_add, drop_left' (length_map _)]
      rfl
  · rw [hcontents, length_drop]
    exact hsub

theorem partly_overlaps (hoverlaps : s.Overlaps) (wret : ℤ) : s.partly caller wret = none := by
  have hover : State.Overlaps { s with left := toInt (s.left - wret) } := hoverlaps
  have hbegin : ¬ (s.inLocal = true ∧ s.off = 0) := fun h => by
    obtain ⟨-, hpos, -⟩ := hoverlaps
    omega
  have hnone : State.toLocal caller { s with left := toInt (s.left - wret) } = none := by
    unfold State.toLocal
    rw [if_neg hbegin, if_pos hover]
  unfold State.partly
  rw [hnone]
  rfl

/-! ### The run -/

structure State.Going (mem : ℕ → UInt8) (caller : Iovs) (s : State) : Prop where
  sound : s.Sound mem caller
  inv : s.Inv

theorem sound_of_ended {e : End} (he : e ≠ .written) (h : ∃ l, s.offered caller = some l ∧
    s.accepted ++ contents mem l = contents mem caller.list ∧ s.left = (contents mem l).length) :
    State.Sound mem caller { s with ended := some e } := by
  unfold State.Sound
  rw [if_neg fun hw => he (some.inj hw)]
  exact h

/-- **A write**: it is as it should, or copies places onto themselves. -/
theorem write_spec (h : s.Inv) (hfits : (contents mem caller.list).length < 2 ^ 31)
    (hl : s.offered caller = some l)
    (hall : s.accepted ++ contents mem l = contents mem caller.list)
    (hleft : s.left = (contents mem l).length) (hended : s.ended = none) (n : ℕ) :
    if n < s.left ∧ s.Overlaps then s.write mem caller n = none
    else ∃ t, s.write mem caller n = some t ∧ t.Going mem caller := by
  have hlen : (contents mem l).length < 2 ^ 31 := by
    have hsum := congrArg List.length hall
    rw [length_append] at hsum
    omega
  have hout : ((contents mem l).take n).length = min n (contents mem l).length := length_take
  have hwret : toInt ((contents mem l).take n).length = (min n (contents mem l).length : ℕ) := by
    rw [hout]
    exact toInt_of_lt (by omega)
  unfold State.write
  rw [hl, bind_some]
  dsimp only
  rw [hwret]
  by_cases hfull : (contents mem l).length ≤ n
  · rw [if_neg (by omega), if_pos (by omega), take_of_length_le hfull]
    refine ⟨_, rfl, ?_, h.length, h.off, h.iovcnt⟩
    unfold State.Sound
    exact hall
  have hmin : min n (contents mem l).length = n := by omega
  rw [if_neg (show ¬ s.left ≤ (min n (contents mem l).length : ℕ) by omega),
    if_pos (Int.natCast_nonneg _), hmin]
  split_ifs with hover
  · exact partly_overlaps
      (s := { s with accepted := s.accepted ++ (contents mem l).take n }) hover.2 n
  · have hapart : ¬ s.Overlaps := fun hoverlaps => hover ⟨by omega, hoverlaps⟩
    obtain ⟨t, l', ht, hinv, hoffered, hcontents, hleft', haccepted, hended'⟩ :=
      partly_spec (s := { s with accepted := s.accepted ++ (contents mem l).take n })
        ⟨h.length, h.off, h.iovcnt⟩
        hl hleft hlen hapart (Nat.lt_of_not_le hfull)
    refine ⟨t, ht, ?_, hinv⟩
    unfold State.Sound
    rw [if_neg (by rw [hended', hended]; nofun)]
    refine ⟨l', hoffered, ?_, hleft'⟩
    rw [haccepted, hcontents, append_assoc, take_append_drop, hall]

theorem going_wouldBlock (h : s.Going mem caller) (hended : s.ended = none) (fork : Fork) :
    (s.wouldBlock fork).Going mem caller := by
  obtain ⟨hsound, hinv⟩ := h
  unfold State.Sound at hsound
  rw [if_neg (by rw [hended]; nofun)] at hsound
  have hinv' : (s.wouldBlock fork).Inv := by
    unfold State.wouldBlock
    split_ifs
    · exact ⟨hinv.length, hinv.off, hinv.iovcnt⟩
    · cases fork <;> exact ⟨hinv.length, hinv.off, hinv.iovcnt⟩
  refine ⟨?_, hinv'⟩
  unfold State.wouldBlock
  split_ifs
  · exact sound_of_ended nofun hsound
  · cases fork with
    | failed => exact sound_of_ended nofun hsound
    | parent => exact sound_of_ended nofun hsound
    | child =>
      unfold State.Sound
      rw [if_neg (by rw [hended]; nofun)]
      exact hsound

theorem sound_step (hfits : (contents mem caller.list).length < 2 ^ 31) {o : Option State}
    (ho : ∃ t, o = some t ∧ t.Going mem caller) (e : Event) :
    (Apart o e → ∃ t, step mem caller o e = some t ∧ t.Going mem caller) ∧
      (¬ Apart o e → step mem caller o e = none) := by
  obtain ⟨s, rfl, hsound, hinv⟩ := ho
  have hstep : step mem caller (some s) e = turn mem caller s e := rfl
  rw [hstep]
  unfold turn
  by_cases hended : s.ended = none
  swap
  · rw [if_pos (isSome_iff_ne_none.2 hended)]
    refine ⟨fun _ => ⟨s, rfl, hsound, hinv⟩, fun hnot => absurd (fun t n ht hnone => ?_) hnot⟩
    cases ht
    exact absurd hnone hended
  rw [if_neg (by rw [hended]; decide)]
  have hrest := hsound
  unfold State.Sound at hrest
  rw [if_neg (by rw [hended]; nofun)] at hrest
  have hinv' {a : Option End} : State.Inv { s with ended := a } :=
    ⟨hinv.length, hinv.off, hinv.iovcnt⟩
  have hapart {a : Event} (ha : ∀ n, a ≠ .wrote n) : Apart (some s) a :=
    fun _ n _ _ he => absurd he (ha n)
  have hwritten {a : End} (ha : a ≠ .written) :
      (Apart (some s) e → ∃ t, some { s with ended := some a } = some t ∧ t.Going mem caller) :=
    fun _ => ⟨_, rfl, sound_of_ended ha hrest, hinv'⟩
  cases e with
  | wouldBlock fork =>
    have hap : Apart (some s) (.wouldBlock fork) := hapart fun n he => nomatch he
    exact ⟨fun _ => ⟨_, rfl, going_wouldBlock ⟨hsound, hinv⟩ hended fork⟩,
      fun hnot => absurd hap hnot⟩
  | gone =>
    exact ⟨hwritten (by decide),
      fun hnot => absurd (hapart (a := .gone) fun n he => nomatch he) hnot⟩
  | failed =>
    exact ⟨hwritten (by decide),
      fun hnot => absurd (hapart (a := .failed) fun n he => nomatch he) hnot⟩
  | wrote n =>
    obtain ⟨l, hl, hall, hleft⟩ := hrest
    have hwrite := write_spec hinv hfits hl hall hleft hended n
    have hiff : Apart (some s) (.wrote n) ↔ ¬ (n < s.left ∧ s.Overlaps) := by
      constructor
      · rintro h ⟨hlt, hoverlaps⟩
        exact h s n rfl hended rfl hlt hoverlaps
      · rintro h t m ht - he hlt hoverlaps
        cases ht
        cases he
        exact h ⟨hlt, hoverlaps⟩
    rw [hiff, not_not]
    exact ⟨fun h => by rwa [if_neg h] at hwrite, fun h => by rwa [if_pos h] at hwrite⟩

variable (mem) in
theorem foldl_left (l : List Iovec) (left : ℤ) (h : toInt left = left) :
    l.foldl (fun left v => toInt (left + v.iov_len)) left =
    toInt (left + (contents mem l).length) := by
  induction l generalizing left with
  | nil => simp [h]
  | cons v l ih =>
    rw [foldl_cons, ih _ (by unfold toInt; omega), contents_cons, length_append, length_bytes]
    unfold toInt
    omega

theorem left_start (mem : ℕ → UInt8) (caller : Iovs) :
    (start caller).left = toInt (contents mem caller.list).length := by
  have hsum := foldl_left mem caller.list 0 rfl
  rw [Int.zero_add] at hsum
  exact hsum

theorem inv_start (caller : Iovs) : (start caller).Inv := by
  have hle := caller.le
  exact ⟨length_alloc _, fun _ => rfl, Int.natCast_nonneg _, Int.ofNat_le.2 hle⟩

theorem offered_start (caller : Iovs) : (start caller).offered caller = some caller.list :=
  (offered_eq_some_iff (inv_start caller)).2 ⟨rfl, [], (append_nil _).symm⟩

theorem sound_start_iff :
    (start caller).Sound mem caller ↔ (contents mem caller.list).length < 2 ^ 31 := by
  unfold State.Sound
  rw [if_neg nofun, offered_start, left_start mem]
  constructor
  · rintro ⟨l, hl, -, hleft⟩
    obtain rfl := some.inj hl
    have hlt := toInt_lt (contents mem caller.list).length
    omega
  · intro h
    exact ⟨_, rfl, rfl, toInt_of_lt h⟩

end

/-- **In which runs no byte is lost**: those where no place of `localiov` is copied onto itself, of
a vector whose bytes an `int` counts. -/
theorem writes_iff (mem : ℕ → UInt8) (caller : Iovs) (l : List Event) :
    (∀ l', l' <+: l → Sound mem caller (run (step mem caller) (some (start caller)) l')) ↔
      (contents mem caller.list).length < 2 ^ 31 ∧
      Allowed (step mem caller) Apart (some (start caller)) l := by
  by_cases hfits : (contents mem caller.list).length < 2 ^ 31
  swap
  · refine iff_of_false (fun h => hfits ?_) fun h => hfits h.1
    obtain ⟨t, ht, hsound⟩ := h [] List.nil_prefix
    obtain rfl := some.inj ht
    exact sound_start_iff.1 hsound
  rw [and_iff_right hfits]
  have hgoing {o : Option State} (hs : Sound mem caller o) (hj : ∀ t, o = some t → t.Inv) :
      ∃ t, o = some t ∧ t.Going mem caller := by
    obtain ⟨t, ht, hsound⟩ := hs
    exact ⟨t, ht, hsound, hj t ht⟩
  have hI : ∀ o e, True → Sound mem caller o → (∀ t, o = some t → t.Inv) →
      (Sound mem caller (step mem caller o e) ↔ Apart o e) := by
    intro o e _ hs hj
    obtain ⟨hgoes, hnone⟩ := sound_step hfits (hgoing hs hj) e
    constructor
    · rintro ⟨t, ht, -⟩
      by_contra hnot
      rw [hnone hnot] at ht
      cases ht
    · intro hapart
      obtain ⟨t, ht, hsound, -⟩ := hgoes hapart
      exact ⟨t, ht, hsound⟩
  have hJ : ∀ o e, True → Sound mem caller o → (∀ t, o = some t → t.Inv) → Apart o e →
      ∀ t, step mem caller o e = some t → t.Inv := by
    intro o e _ hs hj hapart t ht
    obtain ⟨t', ht', -, hinv⟩ := (sound_step hfits (hgoing hs hj) e).1 hapart
    rw [ht'] at ht
    cases ht
    exact hinv
  refine inv_iff_allowed_within hI hJ ⟨_, rfl, sound_start_iff.2 hfits⟩ ?_
    ((allowed_const_iff _ l).2 fun _ _ => trivial)
  intro t ht
  cases ht
  exact inv_start caller

/-! ### Three bytes, one at a time -/

/-- `abc`, in three entries. -/
def three : Iovs := ⟨[⟨0, 1⟩, ⟨1, 1⟩, ⟨2, 1⟩], by decide⟩

/-- Twice a byte is written; then two entries of `localiov` are copied one place to the front. -/
theorem not_sound_three :
    ¬ ∀ (mem : ℕ → UInt8) (caller : Iovs) (l : List Event), 0 < (contents mem caller.list).length →
    (contents mem caller.list).length < 2 ^ 31 →
    Sound mem caller (run (step mem caller) (some (start caller)) l) := by
  intro h
  obtain ⟨t, ht, -⟩ :=
    h (fun n => 97 + n.toUInt8) three [.wrote 1, .wrote 1] (by decide) (by decide)
  have hnone : run (step (fun n => 97 + n.toUInt8) three) (some (start three))
    [.wrote 1, .wrote 1] = none := by decide
  rw [hnone] at ht
  cases ht

end

end Inetutils.Libinetutils.Writev
