import Inetutils.Syslogd.Entries

/-! # `logmsg` and the table of priorities

`logmsg` reads `f_pmask[fac]`, and `f_pmask` has `LOG_NFACILITIES + 1` places. The daemon keeps the
indices of all these reads (`reads`), also of those in the calls of `logmsg` that an error in
`fprintlog` leads to.

The number in front of a line decides (`pri_of_number`): a number of an existing facility is used,
the kernel's facility in a line of a user becoming that of users, and a number with a bit outside
the mask gives the default. The numbers that pass the mask and belong to no facility are passed on
as they are (`lineHead_within_iff`). -/

namespace Inetutils.Syslogd.Logmsg

open Telnet.Proto Lib.Decimal Proto Entries Option List

/-! ### The daemon -/

structure Daemon where
  files : List Filed
  consfile : Filed
  initialized : Bool
  now : ℤ
  /-- How many system calls were answered. -/
  tick : ℕ
  /-- The indices with which `f_pmask` was read. -/
  reads : List ℕ

structure World where
  time : ℕ → ℤ
  answers : ℕ → Answers
  openCtty : ℕ → Bool
  strerror : ℕ → Option Text

/-- The message of `logerror`: `syslogd: %s: %s`, in a buffer of 100 bytes. -/
def errorText (type : Text) (err : Option Text) : Text :=
  (([115, 121, 115, 108, 111, 103, 100, 58, 32] : Text) ++ type ++
    (match err with
      | some e => 58 :: 32 :: e
      | none => [])).take 99

section
variable (cfg : Config) (world : World) (complain : Text → Daemon → Daemon)

/-- `fprintlog` for the entry that `get` and `put` reach; the errors are logged before it ends. -/
def Daemon.fprintlog (get : Daemon → Filed) (modify : (Filed → Filed) → Daemon → Daemon)
    (host : Text) (flags : Flags) (msg : Option Text) (d : Daemon) : Daemon :=
  let p := (get d).deliver cfg (world.answers d.tick) d.now host flags msg
  modify Filed.printed
    (p.errors.foldl (fun d t => complain t d)
      { modify (fun _ => p.filed) d with tick := d.tick + 1 })

def Daemon.file (i : ℕ) (d : Daemon) : Filed := d.files.getD i (Filed.fresh .unused [] fun _ => 0)

def Daemon.modifyFile (i : ℕ) (g : Filed → Filed) (d : Daemon) : Daemon :=
  { d with files := d.files.modify i g }

def Daemon.modifyCons (g : Filed → Filed) (d : Daemon) : Daemon :=
  { d with consfile := g d.consfile }

/-- The entry `i` of `Files`. -/
def slot (i : ℕ) : Slot Daemon where
  filed := Daemon.file i
  now := Daemon.now
  modify := Daemon.modifyFile i
  fprintlog := Daemon.fprintlog cfg world complain (Daemon.file i) (Daemon.modifyFile i)

def logConsole (m : Message) (d : Daemon) : Daemon :=
  let opened := world.openCtty d.tick
  let d := { d with
    tick := d.tick + 1, consfile := { d.consfile with fPrevhost := some cfg.localHostName } }
  if opened then
    Daemon.fprintlog cfg world complain Daemon.consfile Daemon.modifyCons m.host m.flags
    (some m.text) d
  else d

/-- `logmsg`, with the calls of `logerror` in it. -/
def logmsgWith (c : Call) (d : Daemon) : Daemon :=
  let d := { d with now := world.time d.tick, tick := d.tick + 1 }
  let m := Message.ofCall cfg.clock d.now c
  if d.initialized then
    (List.range d.files.length).foldl (fun d i =>
      (slot cfg world complain i).take cfg.markInterval m { d with reads := d.reads ++ [m.fac] }) d
  else logConsole cfg world complain m d

end

/-- `logmsg`; `n` bounds how deep an error in the logging of an error is followed. -/
def logmsg (cfg : Config) (world : World) : ℕ → Call → Daemon → Daemon
  | 0, _, d => d
  | n + 1, c, d =>
    logmsgWith cfg world (fun type d =>
      logmsg cfg world n ⟨LOG_SYSLOG ||| LOG_ERR, errorText type (world.strerror d.tick),
        cfg.localHostName, { addDate := true }⟩ { d with tick := d.tick + 1 }) c d

/-- What is passed to `logmsg`, one call after the other. -/
def logAll (cfg : Config) (world : World) (n : ℕ) (calls : List Call) (d : Daemon) : Daemon :=
  calls.foldl (fun d c => logmsg cfg world n c d) d

/-! ### All reads are in the table -/

def Within (d : Daemon) : Prop := ∀ i ∈ d.reads, i ≤ LOG_NFACILITIES

theorem foldl_keeps {α β : Type} {I : β → Prop} {g : β → α → β} :
    ∀ (l : List α), (∀ a ∈ l, ∀ s, I s → I (g s a)) → ∀ {s : β}, I s → I (l.foldl g s)
  | [], _, _, hs => hs
  | a :: l, h, _, hs =>
    foldl_keeps l (fun b hb => h b (mem_cons_of_mem a hb)) (h a mem_cons_self _ hs)

section
variable {cfg : Config} {world : World} {complain : Text → Daemon → Daemon}

variable {d : Daemon}

theorem within_fprintlog (hc : ∀ t d, Within d → Within (complain t d)) (get : Daemon → Filed)
    (modify : (Filed → Filed) → Daemon → Daemon) (hm : ∀ g d, (modify g d).reads = d.reads)
    (host : Text) (flags : Flags) (msg : Option Text) (hd : Within d) :
    Within (Daemon.fprintlog cfg world complain get modify host flags msg d) := by
  intro i hi
  rw [Daemon.fprintlog, hm] at hi
  refine foldl_keeps (I := Within) _ (fun t _ d hd => hc t d hd) ?_ i hi
  intro j hj
  rw [hm] at hj
  exact hd j hj

theorem within_take (hc : ∀ t d, Within d → Within (complain t d)) (i mark : ℕ) (m : Message)
    (hd : Within d) : Within ((slot cfg world complain i).take mark m d) := by
  refine Slot.take_keeps (I := Within) (fun _ _ h => h) (fun host flags msg d hd => ?_) mark m hd
  exact within_fprintlog hc (Daemon.file i) (Daemon.modifyFile i) (fun _ _ => rfl) host flags msg hd

theorem within_logConsole (hc : ∀ t d, Within d → Within (complain t d)) (m : Message)
    (hd : Within d) : Within (logConsole cfg world complain m d) := by
  rw [logConsole]
  split
  · exact within_fprintlog hc Daemon.consfile Daemon.modifyCons (fun _ _ => rfl) _ _ _
      (fun i hi => hd i hi)
  · exact hd

theorem within_logmsgWith (hc : ∀ t d, Within d → Within (complain t d)) (c : Call)
    (hf : c.flags.mark ∨ logFac c.pri ≤ LOG_NFACILITIES) (hd : Within d) :
    Within (logmsgWith cfg world complain c d) := by
  rw [logmsgWith]
  split
  · refine foldl_keeps (I := Within) _ (fun i _ d hd => within_take hc i _ _ ?_) hd
    intro j hj
    rcases mem_append.1 hj with hj | hj
    · exact hd j hj
    · rw [mem_singleton.1 hj, fac_ofCall]
      rcases hf with hf | hf
      · rw [if_pos hf]
      · split
        · exact le_rfl
        · exact hf
  · exact within_logConsole hc _ hd

end

/-- **All reads are in the table**, at any depth, when the facility of the call is. -/
theorem within_logmsg (cfg : Config) (world : World) (n : ℕ) (c : Call)
    (hf : c.flags.mark ∨ logFac c.pri ≤ LOG_NFACILITIES) {d : Daemon} (hd : Within d) :
    Within (logmsg cfg world n c d) := by
  induction n generalizing c d with
  | zero => exact hd
  | succ n ih =>
    refine within_logmsgWith (fun t d hd => ?_) c hf hd
    have hf' : logFac (LOG_SYSLOG ||| LOG_ERR) ≤ LOG_NFACILITIES := by decide
    exact ih _ (.inr hf') hd

/-! ### What the number gives -/

theorem masked_iff (x : BitVec 32) :
    x &&& ~~~ BitVec.ofNat 32 (LOG_FACMASK ||| LOG_PRIMASK) = 0 ↔ x.toNat < 1024 := by
  have hm : (LOG_FACMASK ||| LOG_PRIMASK) = 2 ^ 10 - 1 := by decide
  rw [hm]
  constructor
  · intro h
    have hx : x = x &&& BitVec.ofNat 32 (2 ^ 10 - 1) := by
      refine BitVec.eq_of_getLsbD_eq fun i hi => ?_
      have hb := congrArg (fun y => y.getLsbD i) h
      simp only [BitVec.getLsbD_and, BitVec.getLsbD_not, hi, decide_true, Bool.true_and] at hb ⊢
      rcases hc : x.getLsbD i
      · rfl
      · rw [hc] at hb
        simpa using hb
    rw [hx, BitVec.toNat_and, BitVec.toNat_ofNat, Nat.mod_eq_of_lt (by decide),
      Nat.and_two_pow_sub_one_eq_mod]
    exact Nat.mod_lt _ (by decide)
  · intro h
    refine BitVec.eq_of_getLsbD_eq fun i hi => ?_
    rw [BitVec.getLsbD_and, BitVec.getLsbD_not, BitVec.getLsbD_ofNat, Nat.testBit_two_pow_sub_one]
    rcases Nat.lt_or_ge i 10 with hi' | hi'
    · simp [hi, hi']
    · rw [BitVec.getLsbD,
        Nat.testBit_lt_two_pow (Nat.lt_of_lt_of_le h (Nat.pow_le_pow_right Nat.two_pos hi')),
        Bool.false_and]
      exact BitVec.getLsbD_zero.symm

theorem accumulate_ofNat (n : ℕ) (l : Text) :
    accumulate (BitVec.ofNat 32 n) l = BitVec.ofNat 32 (value n l) := by
  induction l generalizing n with
  | nil => rfl
  | cons b l ih =>
    rw [value_cons, ← ih, accumulate, foldl_cons, BitVec.ofNat_add, BitVec.ofNat_mul]
    rfl

theorem checkPri_ofNat (dflt n : ℕ) :
    checkPri dflt (BitVec.ofNat 32 n) = if n % 2 ^ 32 < 1024 then n % 2 ^ 32 else dflt := by
  unfold checkPri
  simp only [masked_iff, BitVec.toNat_ofNat]

theorem logFac_eq (p : ℕ) : logFac p = p / 8 % 128 := by
  rw [logFac, Nat.shiftRight_and_distrib, Nat.shiftRight_eq_div_pow]
  exact Nat.and_two_pow_sub_one_eq_mod (p / 8) 7

theorem logPri_eq (p : ℕ) : logPri p = p % 8 := Nat.and_two_pow_sub_one_eq_mod p 3

theorem logMakepri_user {p : ℕ} (hp : p < 8) : logMakepri LOG_USER p = p + 8 := by
  decide +revert

/-- The number in front: the digits after `<`. -/
def number (p : Text) : Option ℕ :=
  match p with
  | 60 :: p => some (value 0 (p.takeWhile isDigit))
  | _ => none

/-- The number of an existing facility and priority, or one that the mask tells from a priority. -/
def Sound (n : ℕ) : Prop := n < 8 * LOG_NFACILITIES ∨ (1024 ≤ n ∧ n < 2 ^ 31)

instance (n : ℕ) : Decidable (Sound n) := inferInstanceAs (Decidable (_ ∨ _))

/-- What the number of a line gives: the kernel's facility becomes that of users. -/
def userPri : Option ℕ → ℕ
  | none => DEFUPRI
  | some n => if n < 8 then LOG_USER + n else if n < 8 * LOG_NFACILITIES then n else DEFUPRI

def kernPri : Option ℕ → ℕ
  | none => DEFSPRI
  | some n => if n < 8 * LOG_NFACILITIES then n else DEFSPRI

theorem readPri_fst (p : Text) : (readPri p).1 = BitVec.ofNat 32 (value 0 (p.takeWhile isDigit)) :=
  accumulate_ofNat 0 _

theorem number_of_ne {p : Text} (h : ∀ q, p = 60 :: q → False) : number p = none := by
  unfold number
  split
  · exact absurd rfl (h _)
  · rfl

theorem lineHead_fst (msg : Text) :
    (lineHead msg).1 = (let q := checkPri DEFUPRI (BitVec.ofNat 32 ((number msg).getD DEFUPRI))
      if logFac q = LOG_KERN then logMakepri LOG_USER (logPri q) else q) := by
  unfold lineHead
  split
  next p => simp only [readPri_fst, number, getD_some]
  next h => rw [number_of_ne h, getD_none]

theorem sysPri_eq (p : Text) :
    sysPri p = checkPri DEFSPRI (BitVec.ofNat 32 ((number p).getD DEFSPRI)) := by
  unfold sysPri sysHead
  split
  next p => simp only [readPri_fst, number, getD_some]
  next h => rw [number_of_ne h, getD_none]

theorem checkPri_of_sound {n : ℕ} (h : Sound n) (dflt : ℕ) :
    checkPri dflt (BitVec.ofNat 32 n) = if n < 8 * LOG_NFACILITIES then n else dflt := by
  have h24 : LOG_NFACILITIES = 24 := rfl
  rw [checkPri_ofNat]
  rcases h with h | ⟨h, h'⟩
  · rw [Nat.mod_eq_of_lt (by omega), if_pos h, if_pos (by omega)]
  · rw [Nat.mod_eq_of_lt (by omega), if_neg (by omega), if_neg (by omega)]

theorem lineHead_of_sound {msg : Text} (h : ∀ n, number msg = some n → Sound n) :
    (lineHead msg).1 = userPri (number msg) := by
  rw [lineHead_fst]
  rcases hn : number msg with _ | n
  · decide
  · rw [getD_some, checkPri_of_sound (h n hn), userPri]
    simp only [LOG_NFACILITIES, LOG_KERN, logFac_eq, logPri_eq]
    by_cases h192 : n < 8 * 24
    · rw [if_pos h192]
      by_cases h8 : n < 8
      · rw [if_pos (by omega), Nat.mod_eq_of_lt h8, logMakepri_user h8, if_pos h8, add_comm]
      · rw [if_neg (by omega), if_neg h8]
    · rw [if_neg h192, if_neg (by decide), if_neg (by omega)]

theorem sysPri_of_sound {p : Text} (h : ∀ n, number p = some n → Sound n) :
    sysPri p = kernPri (number p) := by
  rw [sysPri_eq]
  rcases hn : number p with _ | n
  · decide
  · rw [getD_some, checkPri_of_sound (h n hn)]
    rfl

theorem logFac_userPri (n : Option ℕ) : logFac (userPri n) ≤ LOG_NFACILITIES := by
  rcases n with _ | n
  · decide
  · simp only [userPri, logFac_eq, LOG_NFACILITIES, LOG_USER]
    split
    · omega
    · split
      · omega
      · decide

theorem logFac_kernPri (n : Option ℕ) : logFac (kernPri n) ≤ LOG_NFACILITIES := by
  rcases n with _ | n
  · decide
  · simp only [kernPri, logFac_eq, LOG_NFACILITIES]
    split
    · omega
    · decide

/-- **When the index of a line is in the table**: its number, in the arithmetic of `int`, is that of
a facility up to `LOG_NFACILITIES` or has a bit outside the mask. -/
theorem lineHead_within_iff (msg : Text) : logFac (lineHead msg).1 ≤ LOG_NFACILITIES ↔
    ∀ n, number msg = some n → n % 2 ^ 32 < 200 ∨ 1024 ≤ n % 2 ^ 32 := by
  rw [lineHead_fst]
  rcases number msg with _ | n
  · refine ⟨fun _ n hn => absurd hn (some_ne_none n).symm, fun _ => ?_⟩
    decide
  · rw [getD_some, checkPri_ofNat]
    simp only [LOG_NFACILITIES, LOG_KERN, logFac_eq, logPri_eq, some.injEq, forall_eq']
    by_cases hlt : n % 2 ^ 32 < 1024
    · rw [if_pos hlt]
      split
      · rw [logMakepri_user (Nat.mod_lt _ (by decide))]
        omega
      · omega
    · rw [if_neg hlt]
      exact iff_of_true (by decide) (.inr (by omega))

/-! ### The table and the priorities -/

theorem within_logAll (cfg : Config) (world : World) (n : ℕ) {calls : List Call}
    (hc : ∀ c ∈ calls, c.flags.mark ∨ logFac c.pri ≤ LOG_NFACILITIES) {d : Daemon} (hd : Within d) :
    Within (logAll cfg world n calls d) :=
  foldl_keeps (I := Within) calls (fun c h _ => within_logmsg cfg world n c (hc c h)) hd

theorem mem_printline {forceSync : Bool} {hname msg : Text} {c : Call}
    (h : c ∈ printline forceSync hname msg) : c.pri = (lineHead msg).1 := by
  rw [printline, mem_append, mem_singleton] at h
  rcases h with h | rfl
  · split at h
    · rw [mem_singleton.1 h]
    · exact absurd h not_mem_nil
  · rfl

/-- **A line's reads of `f_pmask` are in the table, and its priority is the one written**, with the
kernel's facility taken from lines that do not come from the kernel. -/
theorem priorities_sound (cfg : Config) (world : World) (n : ℕ) (forceSync : Bool)
    (hname msg : Text) (d : Daemon) (hd : d.reads = []) :
    ((∀ k, number msg = some k → Sound k) →
      (∀ i ∈ (logAll cfg world n (printline forceSync hname msg) d).reads, i ≤ LOG_NFACILITIES) ∧
      ∀ c ∈ printline forceSync hname msg, c.pri = userPri (number msg)) ∧
    ((∀ p ∈ sysHeads msg, ∀ k, number p = some k → Sound k) →
      (∀ i ∈ (logAll cfg world n (printsys cfg.localHostName msg) d).reads, i ≤ LOG_NFACILITIES) ∧
      (printsys cfg.localHostName msg).map Call.pri = (sysHeads msg).map fun p =>
      kernPri (number p)) := by
  have hd' : Within d := by
    intro i hi
    rw [hd] at hi
    exact absurd hi not_mem_nil
  constructor
  · intro h
    have hpri : ∀ c ∈ printline forceSync hname msg, c.pri = userPri (number msg) := by
      intro c hc
      rw [mem_printline hc, lineHead_of_sound h]
    refine ⟨within_logAll cfg world n (fun c hc => .inr ?_) hd', hpri⟩
    rw [hpri c hc]
    exact logFac_userPri _
  · intro h
    refine ⟨within_logAll cfg world n (fun c hc => .inr ?_) hd', ?_⟩
    · obtain ⟨p, hp, rfl⟩ := mem_map.1 hc
      rw [sysCall, sysPri_of_sound (h p hp)]
      exact logFac_kernPri _
    · rw [printsys, List.map_map]
      exact map_congr_left fun p hp => sysPri_of_sound (h p hp)

def stillWorld : World := ⟨fun _ => 0, fun _ => {}, fun _ => true, fun _ => none⟩

/-- A daemon with the entries `fs`. -/
def Daemon.start (fs : List Filed) : Daemon :=
  ⟨fs, Filed.fresh .console [] fun _ => 0, true, 0, 0, []⟩

/-- `<14>a` -/
theorem priorities_sound_user : (number [60, 49, 52, 62, 97] = some 14 ∧ Sound 14) ∧
    (∀ i ∈ (logAll stillConfig stillWorld 2 (printline false [104] [60, 49, 52, 62, 97])
      (Daemon.start [Filed.fresh .file [] fun _ => 255])).reads, i ≤ LOG_NFACILITIES) ∧
    ∀ c ∈ printline false [104] [60, 49, 52, 62, 97], c.pri = 14 := by
  have hn : number [60, 49, 52, 62, 97] = some 14 := by decide +kernel
  have h := (priorities_sound stillConfig stillWorld 2 false [104] [60, 49, 52, 62, 97]
    (Daemon.start [Filed.fresh .file [] fun _ => 255]) rfl).1 (fun k hk => by
      rw [hn] at hk
      cases hk
      decide)
  rw [hn] at h
  exact ⟨⟨hn, by decide⟩, h⟩

/-- **A line with the number of the kernel's facility is not logged with that number**: `<5>a`. -/
theorem kernel_number_replaced : number [60, 53, 62, 97] = some 5 ∧ logFac 5 < LOG_NFACILITIES ∧
    printline false [104] [60, 53, 62, 97] = [⟨LOG_USER ||| LOG_NOTICE, [97], [104], {}⟩] := by
  decide +kernel

end Inetutils.Syslogd.Logmsg
