import Inetutils.Lib.Decimal
import Mathlib.Data.BitVec

/-! # The records of rcp

What `write_stat_time`, `source` and `rsource` of `src/rcp.c` send in front of a file or a
directory, without the newline, and how `sink` reads it. A record fits the buffers, as a name
does. -/

namespace Inetutils.Rcp.Records

open Lib.Decimal Option List

abbrev Text := List UInt8

/-- `%ld` -/
def decimalInt (n : ℤ) : Text := if n < 0 then 45 :: decimal n.natAbs else decimal n.toNat

/-- `%04o` of the bits of `RCP_MODEMASK`. -/
def octal (mode : ℕ) : Text :=
  [mode / 512 % 8, mode / 64 % 8, mode / 8 % 8, mode % 8].map fun d => (48 + d).toUInt8

structure Time where
  sec : ℤ
  usec : ℕ
  deriving DecidableEq

def statTime (mtime atime : Time) : Text :=
  84 :: (decimalInt mtime.sec ++ 32 :: (decimal mtime.usec ++ 32 ::
    (decimalInt atime.sec ++ 32 :: decimal atime.usec)))

def fileRecord (mode size : ℕ) (name : Text) :
    Text := 67 :: (octal mode ++ 32 :: (decimal size ++ 32 :: name))

def dirRecord (mode : ℕ) (name : Text) :
    Text := 68 :: (octal mode ++ 32 :: (decimal 0 ++ 32 :: name))

def endRecord : Text := [69]

/-! ### Reading -/

inductive Record
  | times (mtime atime : ℕ × ℕ)
  | file (mode : ℕ) (size : ℤ)
  | dir (mode : ℕ)
  | stop
  | screwup
  deriving DecidableEq

def getnum (l : Text) : ℕ × Text := (value 0 (l.takeWhile isDigit), l.dropWhile isDigit)

def delim (c : UInt8) (l : Text) : Option Text :=
  match l with
  | [] => none
  | b :: l => if b = c then some l else none

def getmode : ℕ → ℕ → Text → Option (ℕ × Text)
  | 0, mode, l => some (mode, l)
  | _ + 1, _, [] => none
  | n + 1, mode, b :: l => if 48 ≤ b ∧ b ≤ 55 then getmode n (8 * mode + (b.toNat - 48)) l else none

/-- An `int`. -/
def wrap (n : ℕ) : ℤ := (BitVec.ofNat 32 n).toInt

def parseTimes (l : Text) : Option Record := do
  let (msec, l) := getnum l
  let (musec, l) := getnum (← delim 32 l)
  let (asec, l) := getnum (← delim 32 l)
  let (ausec, l) := getnum (← delim 32 l)
  if l = [] then some (.times (msec, musec) (asec, ausec)) else none

def parseMode (l : Text) : Option (ℕ × ℤ) := do
  let (mode, l) ← getmode 4 0 l
  let (size, l) := getnum (← delim 32 l)
  let _ ← delim 32 l
  return (mode, wrap size)

/-- A record, which `sink` reads to the end of the line. -/
def parse (l : Text) : Record :=
  match l with
  | 69 :: _ => .stop
  | 84 :: l => (parseTimes l).getD .screwup
  | 67 :: l => ((parseMode l).map fun p => Record.file p.1 p.2).getD .screwup
  | 68 :: l => ((parseMode l).map fun p => Record.dir p.1).getD .screwup
  | _ => .screwup

/-! ### What is sent is read back -/

theorem getnum_decimal {b : UInt8} (hb : isDigit b = false) (n : ℕ) (l : Text) :
    getnum (decimal n ++ b :: l) = (n, b :: l) := by
  unfold getnum
  rw [takeWhile_decimal hb, dropWhile_decimal hb, value_decimal]

theorem getnum_decimal_nil (n : ℕ) : getnum (decimal n) = (n, []) := by
  unfold getnum
  rw [takeWhile_eq_self_iff.2 (isDigit_of_mem_decimal n),
    dropWhile_eq_nil_iff.2 (isDigit_of_mem_decimal n), value_decimal]

theorem delim_cons (c : UInt8) (l : Text) : delim c (c :: l) = some l := if_pos rfl

theorem decimalInt_of_nonneg {n : ℤ} (h : 0 ≤ n) : decimalInt n = decimal n.toNat :=
  if_neg (Int.not_lt.2 h)

theorem getnum_of_neg {n : ℤ} (h : n < 0) (l : Text) :
    ∃ l', getnum (decimalInt n ++ l) = (0, 45 :: l') := by
  unfold decimalInt
  rw [if_pos h]
  exact ⟨_, rfl⟩

theorem parse_statTime {mtime atime : Time} (hm : 0 ≤ mtime.sec) (ha : 0 ≤ atime.sec) :
    parse (statTime mtime atime) =
      .times (mtime.sec.toNat, mtime.usec) (atime.sec.toNat, atime.usec) := by
  have h32 : isDigit 32 = false := by decide
  show (parseTimes _).getD .screwup = _
  unfold parseTimes
  rw [decimalInt_of_nonneg hm, decimalInt_of_nonneg ha, getnum_decimal h32]
  dsimp only
  rw [delim_cons, bind_eq_bind, bind_some, getnum_decimal h32]
  rw [delim_cons, bind_some, getnum_decimal h32]
  rw [delim_cons, bind_some, getnum_decimal_nil]
  rfl

theorem parse_statTime_neg {mtime atime : Time} (h : mtime.sec < 0 ∨ atime.sec < 0) :
    parse (statTime mtime atime) = .screwup := by
  have h32 : isDigit 32 = false := by decide
  show (parseTimes _).getD .screwup = _
  unfold parseTimes
  by_cases hm : mtime.sec < 0
  · obtain ⟨l', hl⟩ := getnum_of_neg hm (32 :: (decimal mtime.usec ++ 32 ::
      (decimalInt atime.sec ++ 32 :: decimal atime.usec)))
    rw [hl]
    rfl
  · have ha : atime.sec < 0 := h.resolve_left hm
    obtain ⟨l', hl⟩ := getnum_of_neg ha (32 :: decimal atime.usec)
    rw [decimalInt_of_nonneg (Int.not_lt.1 hm), getnum_decimal h32]
    dsimp only
    rw [delim_cons, bind_eq_bind, bind_some, getnum_decimal h32]
    rw [delim_cons, bind_some, hl]
    rfl

theorem getmode_octal (mode : ℕ) (l : Text) :
    getmode 4 0 (octal mode ++ l) = some (mode % 4096, l) := by
  have hdigit : ∀ d < 8, (48 ≤ (48 + d).toUInt8 ∧ (48 + d).toUInt8 ≤ 55) ∧
    (48 + d).toUInt8.toNat - 48 = d := by decide
  have hlt : ∀ n : ℕ, n % 8 < 8 := fun n => Nat.mod_lt n (by decide)
  unfold octal
  simp only [map_cons, map_nil, cons_append, nil_append]
  rw [getmode, if_pos (hdigit _ (hlt _)).1, getmode, if_pos (hdigit _ (hlt _)).1, getmode,
    if_pos (hdigit _ (hlt _)).1,
    getmode, if_pos (hdigit _ (hlt _)).1, getmode, (hdigit _ (hlt _)).2, (hdigit _ (hlt _)).2,
    (hdigit _ (hlt _)).2, (hdigit _ (hlt _)).2]
  have hsum : 8 * (8 * (8 * (8 * 0 + mode / 512 % 8) + mode / 64 % 8) + mode / 8 % 8) + mode % 8 =
    mode % 4096 := by omega
  rw [hsum]

theorem parseMode_record (mode size : ℕ) (name : Text) :
    parseMode (octal mode ++ 32 :: (decimal size ++ 32 :: name)) =
    some (mode % 4096, wrap size) := by
  unfold parseMode
  rw [getmode_octal, bind_eq_bind, bind_some]
  dsimp only
  rw [delim_cons, bind_eq_bind, bind_some, getnum_decimal (by decide)]
  rfl

theorem parse_fileRecord (mode size : ℕ) (name : Text) :
    parse (fileRecord mode size name) = .file (mode % 4096) (wrap size) := by
  show ((parseMode _).map fun p => Record.file p.1 p.2).getD .screwup = _
  rw [parseMode_record]
  rfl

theorem parse_dirRecord (mode : ℕ) (name : Text) :
    parse (dirRecord mode name) = .dir (mode % 4096) := by
  show ((parseMode _).map fun p => Record.dir p.1).getD .screwup = _
  rw [parseMode_record]
  rfl

theorem wrap_eq_iff (n : ℕ) : wrap n = n ↔ n < 2 ^ 31 := by
  unfold wrap
  constructor
  · intro h
    have hlt := BitVec.toInt_lt (x := BitVec.ofNat 32 n)
    rw [h] at hlt
    exact_mod_cast hlt
  · intro h
    rw [BitVec.toInt_eq_toNat_bmod, BitVec.toNat_ofNat, Nat.mod_eq_of_lt (h.trans (by decide))]
    exact Int.bmod_eq_of_le (by omega) (by omega)

end Inetutils.Rcp.Records
