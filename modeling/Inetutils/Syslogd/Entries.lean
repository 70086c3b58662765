import Inetutils.Syslogd.Proto

/-! # The entries syslogd logs to

`struct filed` of `src/syslogd.c`, what `fprintlog` does for one, and the body of the loop over the
entries in `logmsg`. What the system calls answer is a parameter (`Answers`). The body is written
over a `Slot`, a state in which one entry can be read, changed and printed to: a whole daemon, where
an error that `fprintlog` meets is logged in its turn, or the entry alone (`Solo`), where its writes
succeed. -/

namespace Inetutils.Syslogd.Entries

open Telnet.Proto Lib.Decimal Proto

/-- The values of `f_type`. -/
inductive FType
  | unused | file | tty | console | forw | users | wall | forwSusp | forwUnkn | pipe
  deriving DecidableEq

/-- `struct filed`, less what only finds the output. `fPmask` goes on behind the table with whatever
lies there. -/
structure Filed where
  fType : FType
  fTime : ℤ
  fPmask : ℕ → Byte
  fName : Text
  fPrevline : Text
  fLasttime : Text
  fPrevhost : Option Text
  fPrevpri : ℕ
  fPrevlen : ℕ
  fPrevcount : ℤ
  fRepeatcount : ℕ

/-- An entry as `init` allocates it and `cfline` fills it. -/
def Filed.fresh (type : FType) (name : Text) (pmask : ℕ → Byte) : Filed :=
  ⟨type, 0, pmask, name, [], [], none, 0, 0, 0, 0⟩

structure Stamp (t : Text) : Prop where
  len : t.length = 15
  sp3 : t[3]? = some 32
  sp6 : t[6]? = some 32
  colon9 : t[9]? = some 58
  colon12 : t[12]? = some 58

/-- The clock of the host: `ctime` less the day of the week, the year and the newline. -/
structure Clock where
  ctime : ℤ → Text
  stamp : ∀ t, Stamp (ctime t)
  plain : ∀ t, ∀ b ∈ ctime t, ¬ iscntrl b

structure Config where
  localHostName : Text
  noHops : Bool
  noForward : Bool
  markInterval : ℕ
  clock : Clock

def stillClock : Clock where
  ctime := fun _ => [74, 97, 110, 32, 32, 49, 32, 48, 48, 58, 48, 48, 58, 48, 48]
  stamp := fun _ => ⟨rfl, rfl, rfl, rfl, rfl⟩
  plain := fun _ => @of_decide_eq_true _ (List.decidableBAll _ _) rfl

/-- The host `h`, with such a clock. -/
def stillConfig : Config := ⟨[104], true, false, 1200, stillClock⟩

/-! ### `fprintlog` -/

/-- The end of `writev`, for a terminal after all that opening it again leads to. -/
inductive Wrote
  | done | full | failed

/-- What the system calls in one `fprintlog` answer: `sent` is `none` if there is no socket to send
on, and `elapsed` the time since the forwarding was suspended. -/
structure Answers where
  wrote : Wrote := .done
  sent : Option Bool := some true
  elapsed : ℤ := 0
  resolved : Bool := true
  ttymsg : List Text := []

inductive Out
  | line (stamp : Text) (host : Option Text) (text : Text)
  | datagram (d : Text)
  | wallmsg
  deriving DecidableEq

/-- The entry when `fprintlog` is about to end, what was put out, and what was passed to
`logerror`. -/
structure Printed where
  filed : Filed
  out : List Out := []
  errors : List Text := []

/-- `last message repeated %d times` -/
def repeated (n : ℕ) : Text :=
  [108, 97, 115, 116, 32, 109, 101, 115, 115, 97, 103, 101,
    32, 114, 101, 112, 101, 97, 116, 101, 100, 32]
    ++ decimal n ++ [32, 116, 105, 109, 101, 115]

/-- The message part of the vector, and how much of it counts. -/
def Filed.said (f : Filed) (msg : Option Text) : Text × ℕ :=
  match msg with
  | some m => (m, m.length)
  | none =>
    if 1 < f.fPrevcount then (repeated f.fPrevcount.toNat, (repeated f.fPrevcount.toNat).length)
    else (f.fPrevline, f.fPrevlen)

def lower (t : Text) : Text := t.map fun c => if 65 ≤ c ∧ c ≤ 90 then c + 32 else c

/-- The datagram: `<%d>%.15s %s`, cut to `MAXLINE`. Without a host the text stands one place further
to the front of the vector. -/
def Filed.packet (f : Filed) (text : Text) : Text :=
  let shown : Text := match f.fPrevhost with
    | some _ => text
    | none => [40, 110, 117, 108, 108, 41]
  (60 :: (decimal f.fPrevpri ++ 62 :: (f.fLasttime.take 15 ++ 32 :: shown))).take MAXLINE

section
variable (cfg : Config) (ans : Answers) (now : ℤ)

/-- The label `f_forw`. -/
def Filed.forward (f : Filed) (host text : Text) : Printed :=
  if lower host ≠ lower cfg.localHostName ∧ cfg.noHops then { filed := f }
  else if cfg.noForward then { filed := f }
  else match ans.sent with
    | none => { filed := f }
    | some true => { filed := { f with fTime := now }, out := [.datagram (f.packet text)] }
    | some false =>
      { filed := { f with fTime := now, fType := .forwSusp }
        errors := [[115, 101, 110, 100, 116, 111]] }

def Filed.writev (f : Filed) (said : Text × ℕ) : Printed :=
  match ans.wrote with
  | .done =>
    { filed := { f with fTime := now }
      out := [.line f.fLasttime f.fPrevhost (said.1.take said.2)] }
  | .full =>
    if f.fType = .pipe then { filed := { f with fTime := now } }
    else { filed := { f with fTime := now, fType := .unused }, errors := [f.fName] }
  | .failed => { filed := { f with fTime := now, fType := .unused }, errors := [f.fName] }

/-- `fprintlog`, to the end of the switch. -/
def Filed.deliver (f : Filed) (host : Text) (flags : Flags) (msg : Option Text) : Printed :=
  let said := f.said msg
  match f.fType with
  | .unused => { filed := { f with fTime := now } }
  | .forwSusp =>
    if 180 ≤ ans.elapsed then ({ f with fType := .forw } : Filed).forward cfg ans now host said.1
    else { filed := f }
  | .forwUnkn =>
    if 180 ≤ ans.elapsed then
      if ans.resolved then
        ({ f with fPrevcount := 0, fType := .forw } : Filed).forward cfg ans now host said.1
      else if f.fPrevcount - 1 < 0 then
        { filed := { f with fPrevcount := f.fPrevcount - 1, fType := .unused } }
      else { filed := { f with fPrevcount := f.fPrevcount - 1 } }
    else { filed := f }
  | .forw => f.forward cfg ans now host said.1
  | .console =>
    if flags.ignCons then { filed := { f with fTime := now } } else f.writev ans now said
  | .tty | .file | .pipe => f.writev ans now said
  | .users | .wall =>
    { filed := { f with fTime := now }, out := [.wallmsg], errors := ans.ttymsg }

/-- The last statement of `fprintlog`. -/
def Filed.printed (f : Filed) : Filed :=
  if f.fType = .forwUnkn then f else { f with fPrevcount := 0 }

end

/-! ### The body of the loop in `logmsg` -/

/-- A message, once `logmsg` has taken the time from its front. -/
structure Message where
  pri : ℕ
  stamp : Text
  text : Text
  host : Text
  flags : Flags
  deriving DecidableEq

def Message.fac (m : Message) : ℕ := if m.flags.mark then LOG_NFACILITIES else logFac m.pri

theorem Filed.said_of_le {f : Filed} (h : f.fPrevcount ≤ 1) :
    f.said none = (f.fPrevline, f.fPrevlen) :=
  if_neg (Int.not_lt.2 h)

def standard (msg : Text) : Bool :=
  16 ≤ msg.length && msg[3]? == some 32 && msg[6]? == some 32 && msg[9]? == some 58 &&
    msg[12]? == some 58 && msg[15]? == some 32

def Message.ofCall (clock : Clock) (now : ℤ) (c : Call) : Message :=
  if c.flags.addDate || !standard c.msg then
    ⟨c.pri, clock.ctime now, c.msg, c.host, { c.flags with addDate := true }⟩
  else ⟨c.pri, c.msg.take 15, c.msg.drop 16, c.host, c.flags⟩

theorem fac_ofCall (clock : Clock) (t : ℤ) (c : Call) :
    (Message.ofCall clock t c).fac = if c.flags.mark then LOG_NFACILITIES else logFac c.pri := by
  unfold Message.ofCall Message.fac
  split <;> rfl

def repeatinterval (n : ℕ) : ℤ := if n = 0 then 30 else 60

def Filed.repeattime (f : Filed) : ℤ := f.fTime + repeatinterval f.fRepeatcount

def Filed.backoff (f : Filed) : Filed := { f with fRepeatcount := min (f.fRepeatcount + 1) 1 }

/-- What is done to the entry when a message is one more of the saved one. -/
def Filed.counted (m : Message) (f : Filed) : Filed :=
  { f with fLasttime := m.stamp, fPrevcount := f.fPrevcount + 1 }

def Filed.renewed (m : Message) (f : Filed) : Filed :=
  { f with fRepeatcount := 0, fLasttime := m.stamp, fPrevhost := some m.host }

/-- then for a line that fits `f_prevline`, -/
def Filed.kept (m : Message) (f : Filed) : Filed :=
  { f with fPrevlen := m.text.length, fPrevpri := m.pri, fPrevline := m.text }

def Filed.emptied (f : Filed) : Filed := { f with fPrevline := [], fPrevlen := 0 }

/-- A state with an entry in it. -/
structure Slot (σ : Type) where
  filed : σ → Filed
  now : σ → ℤ
  modify : (Filed → Filed) → σ → σ
  fprintlog : Text → Flags → Option Text → σ → σ

def Filed.wants (f : Filed) (m : Message) : Bool :=
  (f.fPmask m.fac).toNat &&& logMask (logPri m.pri) ≠ 0

def Filed.recent (f : Filed) (markInterval : ℕ) (now : ℤ) (m : Message) : Bool :=
  m.flags.mark && decide (now - f.fTime < (markInterval / 2 : ℕ))

def Filed.duplicate (f : Filed) (m : Message) : Bool :=
  !m.flags.mark && m.text.length == f.fPrevlen && f.fPrevhost ==
    some m.host && m.text == f.fPrevline

theorem duplicate_iff {f : Filed} {m : Message} : f.duplicate m = true ↔
    ((m.flags.mark = false ∧ m.text.length = f.fPrevlen) ∧ f.fPrevhost = some m.host) ∧
      m.text = f.fPrevline := by
  simp only [Filed.duplicate, Bool.and_eq_true, Bool.not_eq_true', beq_iff_eq]

namespace Slot

variable {σ : Type} (slot : Slot σ)

def again (m : Message) (s : σ) : σ :=
  let s := slot.modify (Filed.counted m) s
  if (slot.filed s).repeattime < slot.now s then
    slot.modify Filed.backoff (slot.fprintlog m.host m.flags none s)
  else s

def flush (host : Text) (s : σ) : σ :=
  if (slot.filed s).fPrevcount ≠ 0 then slot.fprintlog host {} none s else s

/-- A new line is saved, if it is short enough, and printed. -/
def save (m : Message) (s : σ) : σ :=
  let s := slot.modify (Filed.renewed m) s
  if m.text.length < MAXSVLINE then
    slot.fprintlog m.host m.flags none (slot.modify (Filed.kept m) s)
  else slot.fprintlog m.host m.flags (some m.text) (slot.modify Filed.emptied s)

def take (markInterval : ℕ) (m : Message) (s : σ) : σ :=
  let f := slot.filed s
  if !f.wants m then s
  else if f.fType = .console ∧ m.flags.ignCons then s
  else if f.recent markInterval (slot.now s) m then s
  else if f.duplicate m then slot.again m s
  else slot.save m (slot.flush m.host s)

/-- The body of the loop in `domark`. -/
def tick (host : Text) (s : σ) : σ :=
  let f := slot.filed s
  if f.fPrevcount ≠ 0 ∧ f.repeattime ≤ slot.now s then
    slot.modify Filed.backoff (slot.fprintlog host {} none s)
  else s

/-! ### What a round does -/

def logs (markInterval : ℕ) (m : Message) (s : σ) : Prop :=
  (slot.filed s).wants m ∧ ¬ ((slot.filed s).fType = .console ∧ m.flags.ignCons) ∧
    ¬ (slot.filed s).recent markInterval (slot.now s) m

theorem take_cases (markInterval : ℕ) (m : Message) (s : σ) :
    (¬ slot.logs markInterval m s ∧ slot.take markInterval m s = s) ∨
    (slot.logs markInterval m s ∧ (slot.filed s).duplicate m ∧
      slot.take markInterval m s = slot.again m s) ∨
    (slot.logs markInterval m s ∧ ¬ (slot.filed s).duplicate m ∧
      slot.take markInterval m s = slot.save m (slot.flush m.host s)) := by
  unfold take logs
  dsimp only
  by_cases hw : (slot.filed s).wants m
  · rw [hw, Bool.not_true, if_neg Bool.false_ne_true]
    split_ifs with h1 h2 h3
    · exact .inl ⟨fun h => h.2.1 h1, rfl⟩
    · exact .inl ⟨fun h => h.2.2 h2, rfl⟩
    · exact .inr (.inl ⟨⟨rfl, h1, h2⟩, h3, rfl⟩)
    · exact .inr (.inr ⟨⟨rfl, h1, h2⟩, h3, rfl⟩)
  · rw [Bool.not_eq_true] at hw
    rw [hw]
    exact .inl ⟨fun h => Bool.false_ne_true h.1, rfl⟩

/-! ### What a round keeps -/

section
variable {slot} {I : σ → Prop} (hm : ∀ g s, I s → I (slot.modify g s))
  (hp : ∀ host flags msg s, I s → I (slot.fprintlog host flags msg s))
include hm hp

theorem take_keeps (mark : ℕ) (m : Message) {s : σ} (hs : I s) : I (slot.take mark m s) := by
  have hflush : ∀ s, I s → I (slot.flush m.host s) := by
    intro s hs
    rw [flush]
    split
    · exact hp _ _ _ _ hs
    · exact hs
  obtain ⟨_, h⟩ | ⟨_, _, h⟩ | ⟨_, _, h⟩ := slot.take_cases mark m s
  · rw [h]
    exact hs
  · rw [h, again]
    split
    · exact hm _ _ (hp _ _ _ _ (hm _ _ hs))
    · exact hm _ _ hs
  · rw [h, save]
    split
    · exact hp _ _ _ _ (hm _ _ (hm _ _ (hflush s hs)))
    · exact hp _ _ _ _ (hm _ _ (hm _ _ (hflush s hs)))

end

end Slot

end Inetutils.Syslogd.Entries
