import Inetutils.Telnet.Proto
import Inetutils.Lib.Decimal
import Mathlib.Data.BitVec

/-! # Messages on their way into syslogd

What `printline` and `printsys` of `src/syslogd.c` make of a line: the calls of `logmsg` with their
arguments. A C string is the list of its bytes before the NUL. A priority is collected in an `int`,
here with the arithmetic of 32 bits (`accumulate`), and what passes the mask is a number below 1024
(`checkPri`). -/

namespace Inetutils.Syslogd.Proto

open Telnet.Proto Lib.Decimal

abbrev Text := List Byte

/-! ### The numbers of `<syslog.h>` -/

abbrev LOG_CRIT : ℕ := 2
abbrev LOG_ERR : ℕ := 3
abbrev LOG_NOTICE : ℕ := 5
abbrev LOG_INFO : ℕ := 6
abbrev LOG_PRIMASK : ℕ := 7
abbrev LOG_KERN : ℕ := 0
abbrev LOG_USER : ℕ := 8
abbrev LOG_SYSLOG : ℕ := 40
abbrev LOG_FACMASK : ℕ := 0x3f8
abbrev LOG_NFACILITIES : ℕ := 24

def logPri (p : ℕ) : ℕ := p &&& LOG_PRIMASK
def logFac (p : ℕ) : ℕ := (p &&& LOG_FACMASK) >>> 3
def logMakepri (fac p : ℕ) : ℕ := fac ||| p
def logMask (p : ℕ) : ℕ := 1 <<< p

abbrev MAXLINE : ℕ := 1024
abbrev MAXSVLINE : ℕ := 240
abbrev DEFUPRI : ℕ := LOG_USER ||| LOG_NOTICE
abbrev DEFSPRI : ℕ := LOG_KERN ||| LOG_CRIT

/-- The flags of `logmsg`. -/
structure Flags where
  ignCons : Bool := false
  syncFile : Bool := false
  addDate : Bool := false
  mark : Bool := false
  deriving DecidableEq

/-- The arguments of a call of `logmsg`. -/
structure Call where
  pri : ℕ
  msg : Text
  host : Text
  flags : Flags
  deriving DecidableEq

/-! ### The priority in front -/

/-- The loop over the digits. -/
def accumulate (pri : BitVec 32) (l : Text) : BitVec 32 :=
  l.foldl (fun pri c => 10 * pri + BitVec.ofNat 32 (digit c)) pri

/-- What comes after `<`: the number, and the rest of the line. -/
def readPri (p : Text) : BitVec 32 × Text :=
  (accumulate 0 (p.takeWhile isDigit),
    match p.dropWhile isDigit with
    | 62 :: r => r
    | r => r)

/-- `if (pri & ~(LOG_FACMASK | LOG_PRIMASK)) pri = dflt;` -/
def checkPri (dflt : ℕ) (pri : BitVec 32) : ℕ :=
  if pri &&& ~~~ BitVec.ofNat 32 (LOG_FACMASK ||| LOG_PRIMASK) = 0 then pri.toNat else dflt

/-! ### `printline` -/

def lineHead (msg : Text) : ℕ × Text :=
  let r := match msg with
    | 60 :: p => readPri p
    | p => (BitVec.ofNat 32 DEFUPRI, p)
  let pri := checkPri DEFUPRI r.1
  -- users may not log kernel messages
  (if logFac pri = LOG_KERN then logMakepri LOG_USER (logPri pri) else pri, r.2)

def iscntrl (c : Byte) : Bool := c < 32 || c == 127

/-- A character, as it is put into `line`. -/
def shown (c : Byte) : Text :=
  if iscntrl c then
    if c = 10 then [32] else if c = 9 then [9] else if 127 ≤ c then [c] else [94, c ^^^ 64]
  else [c]

/-- The copying loop; `n` bytes are in `line`. -/
def copyLine : ℕ → Text → Text
  | _, [] => []
  | n, c :: p => if n < MAXLINE then shown c ++ copyLine (n + (shown c).length) p else []

def printline (forceSync : Bool) (hname msg : Text) : List Call :=
  let h := lineHead msg
  let line := copyLine 0 h.2
  (if forceSync then [⟨h.1, line, hname, { syncFile := true }⟩] else []) ++ [⟨h.1, line, hname, {}⟩]

/-! ### `printsys` -/

/-- `vmunix: ` -/
def vmunix : Text := [118, 109, 117, 110, 105, 120, 58, 32]

/-- The copying loop, with room for `n` more bytes: what is copied, and where the loop leaves `p`. A
character is read before the room is checked. -/
def sysCopy : ℕ → Text → Text × Text
  | _, [] => ([], [])
  | 0, _ :: p => ([], p)
  | n + 1, c :: p => if c = 10 then ([], p) else ((c :: (sysCopy n p).1), (sysCopy n p).2)

/-- What the number is at `p`, whether it is there, and what follows. -/
def sysHead (p : Text) : (BitVec 32 × Text) × Bool :=
  match p with
  | 60 :: p => (readPri p, true)
  | p => ((BitVec.ofNat 32 DEFSPRI, p), false)

def sysPri (p : Text) : ℕ := checkPri DEFSPRI (sysHead p).1.1

def sysText (p : Text) : Text := (sysCopy (MAXLINE - vmunix.length) (sysHead p).1.2).1

def sysRest (p : Text) : Text := (sysCopy (MAXLINE - vmunix.length) (sysHead p).1.2).2

theorem sysCopy_le (n : ℕ) (p : Text) : (sysCopy n p).2.length ≤ p.length := by
  fun_induction sysCopy n p with
  | case1 => exact le_rfl
  | case2 c p => exact Nat.le_succ _
  | case3 n p => exact Nat.le_succ _
  | case4 n c p h ih => exact Nat.le_succ_of_le ih

theorem sysCopy_lt (n : ℕ) (c : Byte) (p : Text) :
    (sysCopy n (c :: p)).2.length < (c :: p).length := by
  rcases n with _ | n
  · exact Nat.lt_succ_self _
  · rw [sysCopy]
    split
    · exact Nat.lt_succ_self _
    · exact Nat.lt_succ_of_le (sysCopy_le n p)

theorem readPri_le (p : Text) : (readPri p).2.length ≤ p.length := by
  have h := (List.dropWhile_suffix isDigit (l := p)).length_le
  rw [readPri]
  split
  next r hr => rw [hr] at h; exact Nat.le_of_succ_le h
  next => exact h

theorem sysRest_lt (b : Byte) (p : Text) : (sysRest (b :: p)).length < (b :: p).length := by
  unfold sysRest sysHead
  split
  next p' h =>
    rw [h]
    exact Nat.lt_succ_of_le (le_trans (sysCopy_le _ _) (readPri_le p'))
  next => exact sysCopy_lt _ _ _

/-- The places in the message where a round of the loop begins. -/
def sysHeads : Text → List Text
  | [] => []
  | b :: p => (b :: p) :: sysHeads (sysRest (b :: p))
termination_by p => p.length
decreasing_by exact sysRest_lt b p

def sysCall (localHostName p : Text) : Call :=
  ⟨sysPri p, vmunix ++ sysText p, localHostName,
    { syncFile := true, addDate := true, ignCons := !(sysHead p).2 }⟩

def printsys (localHostName msg : Text) : List Call := (sysHeads msg).map (sysCall localHostName)

end Inetutils.Syslogd.Proto
