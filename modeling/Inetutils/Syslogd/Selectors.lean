import Inetutils.Syslogd.Proto
import Inetutils.Lib.Letters

/-! # The selectors of a configuration line

`cfline` of `src/syslogd.c` reads the selectors of a line with two cursors: `q` goes ahead to the
priority, and then `p` goes over the facilities. Names are copied into `buf`, of `MAXLINE` bytes; a
name that begins with a digit is a number for `decode`, whatever that is. What C does not define is
`Stop.fault`: a byte behind `buf`, a shift by more than 31, a place behind `f_pmask`. -/

namespace Inetutils.Syslogd.Selectors

open Telnet.Proto Proto List
open Lib.Decimal (isDigit value)
open Lib.Letters

/-! ### The names of `src/logprio.h` -/

def ascii (s : String) : Text := s.toList.map fun c => c.toNat.toUInt8

/-- `INTERNAL_NOPRI` -/
def nopri : ℤ := 16

def prioritynames : List (Text × ℤ) :=
  [("alert", 1), ("crit", 2), ("debug", 7), ("emerg", 0), ("err", 3), ("error", 3), ("info", 6),
    ("none", nopri),
    ("notice", 5), ("panic", 0), ("warn", 4), ("warning", 4)].map fun c => (ascii c.1, c.2)

def facilitynames : List (Text × ℤ) :=
  [("auth", 4), ("authpriv", 10), ("cron", 9), ("daemon", 3), ("ftp", 11), ("kern", 0), ("lpr", 6),
    ("mail", 2),
    ("mark", LOG_NFACILITIES), ("news", 7), ("security", 4), ("syslog", 5), ("user", 1),
    ("uucp", 8), ("local0", 16),
    ("local1", 17), ("local2", 18), ("local3", 19), ("local4", 20), ("local5", 21), ("local6", 22),
    ("local7", 23)].map fun c => (ascii c.1, 8 * (c.2 : ℤ))

/-- `atoi`, of what begins with a digit. -/
def atoi (name : Text) : ℤ :=
  (min (value 0 (name.takeWhile isDigit)) (2 ^ 63 - 1) : ℤ).bmod (2 ^ 32)

/-- Decode a symbolic name to a numeric value. -/
def decode (name : Text) (codetab : List (Text × ℤ)) : ℤ :=
  if isDigit (name.headD 0) then atoi name
  else
    match codetab.find? fun c => sameCase name c.1 with
    | some c => c.2
    | none => -1

/-! ### The masks -/

/-- `f_pmask`, and `facilities_seen`. -/
structure Masks where
  pmask : ℕ → Byte
  seen : BitVec 32

/-- Why `cfline` stops before it comes to the action. -/
inductive Stop
  | fault
  | unknownPriority (name : Text) (m : Masks)
  | unknownFacility (name : Text) (m : Masks)

/-- `LOG_MASK` and `LOG_UPTO` -/
def maskOf (pri : ℕ) : BitVec 32 := 1#32 <<< pri

def upto (pri : ℕ) : BitVec 32 := (1#32 <<< (pri + 1)) - 1

/-- `!` and `=` -/
def modifier (c : Byte) : Bool := c == 33 || c == 61

/-- Whether a name begins with `*`. -/
def starred (buf : Text) : Bool := buf.head? = some 42

/-- Decode priority name and set up bit masks: `pri_clear` and `pri_set`. -/
def priority (buf : Text) (m : Masks) : Except Stop (BitVec 32 × BitVec 32) :=
  let negate := (buf.takeWhile modifier).contains 33
  let excl := (buf.takeWhile modifier).contains 61
  let bp := buf.dropWhile modifier
  let exchange := fun x : BitVec 32 × BitVec 32 => if negate then x.swap else x
  if starred bp then .ok (exchange (0, upto LOG_PRIMASK))
  else
    let pri := decode bp prioritynames
    if pri < 0 then .error (.unknownPriority bp m)
    else if pri = nopri then .ok (exchange (255, 0))
    else if excl then if 31 < pri then .error .fault else .ok (exchange (0, maskOf pri.toNat))
    else if 31 < pri + 1 then .error .fault
    else .ok (exchange (0, upto pri.toNat))

/-- `f->f_pmask[i] &= ~pri_clear; f->f_pmask[i] |= pri_set;` -/
def change (x : BitVec 32 × BitVec 32) (b : Byte) : Byte :=
  let b : Byte := ⟨(b.toBitVec.setWidth 32 &&& ~~~ x.1).setWidth 8⟩
  ⟨(b.toBitVec.setWidth 32 ||| x.2).setWidth 8⟩

/-- `LOG_FAC` of an `int` -/
def facOf (i : ℤ) : ℕ := logFac (i % 2 ^ 32).toNat

def facility (x : BitVec 32 × BitVec 32) (buf : Text) (m : Masks) : Except Stop Masks :=
  if starred buf then
    .ok { m with
      pmask := fun i =>
        if i ≤ LOG_NFACILITIES ∧ ¬ (buf[1]? = some 42 ∧ 1#32 <<< i &&& m.seen ≠ 0) then
          change x (m.pmask i)
        else m.pmask i }
  else
    let i := decode buf facilitynames
    if 31 < facOf i then .error .fault
    else
      let m := { m with seen := m.seen ||| 1#32 <<< facOf i }
      if i < 0 then .error (.unknownFacility buf m)
      else if LOG_NFACILITIES < facOf i then .error .fault
      else .ok { m with pmask := Function.update m.pmask (facOf i) (change x (m.pmask (facOf i))) }

/-! ### The cursors -/

def blank (c : Byte) : Bool := c == 9 || c == 32

/-- `"\\t .;"`, where the facilities end. -/
def facilitiesEnd (c : Byte) : Bool := blank c || c == 46 || c == 59

/-- A byte of the name of a facility: none of `"\\t ,;."`. -/
def inFacility (c : Byte) : Bool := !(facilitiesEnd c || c == 44)

/-- A byte of the name of a priority: none of `"\\t ,;"`. -/
def inPriority (c : Byte) : Bool := !(blank c || c == 44 || c == 59)

def skipped (c : Byte) : Bool := c == 44 || c == 32

def cruft (c : Byte) : Bool := c == 44 || c == 59

def pastDot : Text → Text
  | [] => []
  | c :: q => if c = 9 then c :: q else if c = 46 then q else pastDot q

def afterFacility (p : Text) : Text := (p.dropWhile inFacility).dropWhile skipped

theorem length_pastDot_le (p : Text) : (pastDot p).length ≤ p.length := by
  induction p with
  | nil => exact le_rfl
  | cons c q ih =>
    rw [pastDot]
    split_ifs
    · exact le_rfl
    · exact Nat.le_succ _
    · exact ih.trans (Nat.le_succ _)

theorem length_afterFacility_lt {c : Byte} {p : Text} (hc : facilitiesEnd c = false) :
    (afterFacility (c :: p)).length < (c :: p).length := by
  unfold afterFacility
  refine Nat.lt_succ_of_le ?_
  by_cases hcomma : c = 44
  · subst hcomma
    rw [dropWhile_cons_of_neg (by decide), dropWhile_cons_of_pos (by decide)]
    exact (dropWhile_suffix _).length_le
  · have hin : inFacility c := by simp [inFacility, hc, hcomma]
    rw [dropWhile_cons_of_pos hin]
    exact (dropWhile_suffix _).length_le.trans (dropWhile_suffix _).length_le

def facilities (x : BitVec 32 × BitVec 32) (p : Text) (m : Masks) : Except Stop Masks :=
  match p with
  | [] => .ok m
  | c :: p =>
    if _h : facilitiesEnd c then .ok m
    else
      let buf := (c :: p).takeWhile inFacility
      if MAXLINE ≤ buf.length then .error .fault
      else (facility x buf m).bind fun m => facilities x (afterFacility (c :: p)) m
termination_by p.length
decreasing_by exact length_afterFacility_lt (Bool.eq_false_iff.2 _h)

def nextSelector (p : Text) : Text := ((pastDot p).dropWhile inPriority).dropWhile cruft

theorem length_nextSelector_lt {c : Byte} {p : Text} (hc : blank c = false) :
    (nextSelector (c :: p)).length < (c :: p).length := by
  have htab : c ≠ 9 := by
    rintro rfl
    cases hc
  have hdot : (pastDot (c :: p)).length ≤ p.length := by
    rw [pastDot, if_neg htab]
    split_ifs
    · exact le_rfl
    · exact length_pastDot_le p
  refine Nat.lt_succ_of_le (le_trans ?_ hdot)
  exact (dropWhile_suffix _).length_le.trans (dropWhile_suffix _).length_le

/-- **Scan through the list of selectors**, up to the action. -/
def selectors (p : Text) (m : Masks) : Except Stop (Text × Masks) :=
  match p with
  | [] => .ok ([], m)
  | c :: p =>
    if _h : blank c then .ok (c :: p, m)
    else
      let buf := (pastDot (c :: p)).takeWhile inPriority
      if MAXLINE ≤ buf.length then .error .fault
      else
        (priority buf m).bind fun x =>
          (facilities x (c :: p) m).bind fun m => selectors (nextSelector (c :: p)) m
termination_by p.length
decreasing_by exact length_nextSelector_lt (Bool.eq_false_iff.2 _h)

/-- **`cfline`**, up to the action. -/
def cfline (line : Text) (seen : BitVec 32) : Except Stop (Text × Masks) :=
  selectors line ⟨fun _ => 0, seen⟩

/-! ### The names of a line -/

def facilityNames (p : Text) : List Text :=
  match p with
  | [] => []
  | c :: p =>
    if _h : facilitiesEnd c then []
    else (c :: p).takeWhile inFacility :: facilityNames (afterFacility (c :: p))
termination_by p.length
decreasing_by exact length_afterFacility_lt (Bool.eq_false_iff.2 _h)

structure Names where
  priority : Text
  facilities : List Text

def names (p : Text) : List Names × Text :=
  match p with
  | [] => ([], [])
  | c :: p =>
    if _h : blank c then ([], c :: p)
    else
      let next := names (nextSelector (c :: p))
      (⟨(pastDot (c :: p)).takeWhile inPriority, facilityNames (c :: p)⟩ :: next.1, next.2)
termination_by p.length
decreasing_by exact length_nextSelector_lt (Bool.eq_false_iff.2 _h)

/-- A name that has been copied into `buf`. -/
def copied {α : Type} (buf : Text) (k : Except Stop α) : Except Stop α :=
  if MAXLINE ≤ buf.length then .error .fault else k

def facilityList (x : BitVec 32 × BitVec 32) : List Text → Masks → Except Stop Masks
  | [], m => .ok m
  | buf :: bufs, m => copied buf ((facility x buf m).bind (facilityList x bufs))

def selector (n : Names) (m : Masks) : Except Stop Masks :=
  copied n.priority ((priority n.priority m).bind fun x => facilityList x n.facilities m)

def selectorList : List Names → Masks → Except Stop Masks
  | [], m => .ok m
  | n :: ns, m => (selector n m).bind (selectorList ns)

theorem facilities_eq (x : BitVec 32 × BitVec 32) (p : Text) (m : Masks) :
    facilities x p m = facilityList x (facilityNames p) m := by
  induction p using facilityNames.induct generalizing m with
  | case1 =>
    rw [facilities, facilityNames]
    rfl
  | case2 c p h =>
    rw [facilities, facilityNames, dif_pos h, dif_pos h]
    rfl
  | case3 c p h ih =>
    rw [facilities, facilityNames, dif_neg h, dif_neg h, facilityList, funext ih]
    rfl

theorem selectors_eq (p : Text) (m : Masks) :
    selectors p m = (selectorList (names p).1 m).map fun m => ((names p).2, m) := by
  induction p using names.induct generalizing m with
  | case1 =>
    rw [selectors, names]
    rfl
  | case2 c p h =>
    rw [selectors, names, dif_pos h, dif_pos h]
    rfl
  | case3 c p h ih =>
    rw [selectors, names, dif_neg h, dif_neg h]
    dsimp only
    rw [selectorList, selector, copied]
    split_ifs with hlen
    · rfl
    · cases hpri : priority ((pastDot (c :: p)).takeWhile inPriority) m with
      | error e => rfl
      | ok x =>
        simp only [Except.bind, facilities_eq]
        cases hfac : facilityList x (facilityNames (c :: p)) m with
        | error e => rfl
        | ok m' => exact ih m'

/-! ### The faults -/

/-- A number of a priority that can be shifted by, where there is no name of one. -/
def SmallPriority (buf : Text) : Prop :=
  let bp := buf.dropWhile modifier
  starred bp ∨ decode bp prioritynames ≤ 30 ∨
    (decode bp prioritynames = 31 ∧ (buf.takeWhile modifier).contains 61)

/-- `cfline` goes on behind the name. -/
def KnownPriority (buf : Text) : Prop :=
  let bp := buf.dropWhile modifier
  starred bp ∨ 0 ≤ decode bp prioritynames

def KnownFacility (buf : Text) : Prop := starred buf ∨ 0 ≤ decode buf facilitynames

/-- The place in `f_pmask`, or at least the shift, is not too large. -/
def SmallFacility (buf : Text) : Prop :=
  starred buf ∨
    facOf (decode buf facilitynames) ≤ if decode buf facilitynames < 0 then 31 else LOG_NFACILITIES

/-- The facilities that are reached are small, and if all are known then `k`. -/
def SafeFacilities (k : Prop) : List Text → Prop
  | [] => k
  | buf :: bufs =>
    buf.length < MAXLINE ∧ SmallFacility buf ∧ (KnownFacility buf → SafeFacilities k bufs)

/-- **All names that are reached fit**, and are small where they are numbers. -/
def Safe : List Names → Prop
  | [] => True
  | n :: ns => n.priority.length < MAXLINE ∧ SmallPriority n.priority ∧
      (KnownPriority n.priority → SafeFacilities (Safe ns) n.facilities)

theorem copied_fault_iff {α : Type} {buf : Text} {k : Except Stop α} :
    copied buf k ≠ .error .fault ↔ buf.length < MAXLINE ∧ k ≠ .error .fault := by
  unfold copied
  split_ifs with h
  · simp [Nat.not_lt_of_le h]
  · simp [Nat.lt_of_not_le h]

theorem priority_cases (buf : Text) (m : Masks) :
    (¬ SmallPriority buf ∧ priority buf m = .error .fault) ∨
      (SmallPriority buf ∧ ¬ KnownPriority buf ∧
        priority buf m = .error (.unknownPriority (buf.dropWhile modifier) m)) ∨
      (SmallPriority buf ∧ KnownPriority buf ∧ ∃ x, priority buf m = .ok x) := by
  unfold SmallPriority KnownPriority priority nopri
  dsimp only
  split_ifs <;> simp_all <;> omega

theorem facility_cases (x : BitVec 32 × BitVec 32) (buf : Text) (m : Masks) :
    (¬ SmallFacility buf ∧ facility x buf m = .error .fault) ∨
      (SmallFacility buf ∧ ¬ KnownFacility buf ∧ ∃ m',
        facility x buf m = .error (.unknownFacility buf m')) ∨
      (SmallFacility buf ∧ KnownFacility buf ∧ ∃ m', facility x buf m = .ok m') := by
  unfold SmallFacility KnownFacility facility
  by_cases hstar : starred buf
  · rw [if_pos hstar]
    exact .inr (.inr ⟨.inl hstar, .inl hstar, _, rfl⟩)
  · rw [if_neg hstar]
    generalize decode buf facilitynames = i
    simp only [or_iff_right hstar]
    by_cases hneg : i < 0
    · rw [if_pos hneg, if_pos hneg]
      by_cases hlarge : 31 < facOf i
      · rw [if_pos hlarge]
        exact .inl ⟨Nat.not_le_of_lt hlarge, rfl⟩
      · rw [if_neg hlarge]
        exact .inr (.inl ⟨Nat.le_of_not_lt hlarge, by omega, _, rfl⟩)
    · rw [if_neg hneg, if_neg hneg]
      by_cases hlarge : LOG_NFACILITIES < facOf i
      · refine .inl ⟨Nat.not_le_of_lt hlarge, ?_⟩
        rw [if_pos hlarge, ite_self]
      · rw [if_neg hlarge, if_neg (Nat.not_lt_of_le ((Nat.le_of_not_lt hlarge).trans (by decide)))]
        exact .inr (.inr ⟨Nat.le_of_not_lt hlarge, by omega, _, rfl⟩)

theorem facilityList_fault_iff {α : Type} {k : Prop} {f : Masks → Except Stop α}
    (hf : ∀ m, f m ≠ .error .fault ↔ k) (x : BitVec 32 × BitVec 32) (bufs : List Text) (m : Masks) :
    (facilityList x bufs m).bind f ≠ .error .fault ↔ SafeFacilities k bufs := by
  induction bufs generalizing m with
  | nil => exact hf m
  | cons buf bufs ih =>
    have hbind : (facilityList x (buf :: bufs) m).bind f =
        copied buf ((facility x buf m).bind fun m => (facilityList x bufs m).bind f) := by
      rw [facilityList]
      unfold copied
      split_ifs
      · rfl
      · cases facility x buf m <;> rfl
    rw [hbind, copied_fault_iff, SafeFacilities]
    refine and_congr_right fun _ => ?_
    rcases facility_cases x buf m with ⟨hsmall, h⟩ | ⟨hsmall, hknown, m', h⟩ | ⟨hsmall,
      hknown, m', h⟩
    · rw [h]
      exact iff_of_false (fun hne => hne rfl) fun hs => hsmall hs.1
    · rw [h]
      exact iff_of_true (fun he => by cases he) ⟨hsmall, fun hk => absurd hk hknown⟩
    · rw [h, and_iff_right hsmall, imp_iff_right hknown]
      exact ih m'

/-- **The lines with a fault**, whatever facilities have been seen. -/
theorem selectorList_fault_iff (ns : List Names) (m : Masks) : selectorList ns m ≠ .error .fault ↔
    Safe ns := by
  induction ns generalizing m with
  | nil => exact iff_of_true (fun h => by cases h) trivial
  | cons n ns ih =>
    have hbind : selectorList (n :: ns) m =
        copied n.priority ((priority n.priority m).bind fun x =>
          (facilityList x n.facilities m).bind (selectorList ns)) := by
      rw [selectorList, selector]
      unfold copied
      split_ifs
      · rfl
      · cases priority n.priority m <;> rfl
    rw [hbind, copied_fault_iff, Safe]
    refine and_congr_right fun _ => ?_
    rcases priority_cases n.priority m with ⟨hsmall, h⟩ | ⟨hsmall, hknown, h⟩ | ⟨hsmall,
      hknown, x, h⟩
    · rw [h]
      exact iff_of_false (fun hne => hne rfl) fun hs => hsmall hs.1
    · rw [h]
      exact iff_of_true (fun he => by cases he) ⟨hsmall, fun hk => absurd hk hknown⟩
    · rw [h, and_iff_right hsmall, imp_iff_right hknown]
      exact facilityList_fault_iff ih x n.facilities m

theorem fault_iff (line : Text) (seen : BitVec 32) : cfline line seen ≠ .error .fault ↔
    Safe (names line).1 := by
  unfold cfline
  rw [selectors_eq, ← selectorList_fault_iff (names line).1 ⟨fun _ => 0, seen⟩]
  cases selectorList (names line).1 ⟨fun _ => 0, seen⟩ with
  | error e => simp [Except.map]
  | ok m => simp [Except.map]

end Inetutils.Syslogd.Selectors
