import Inetutils.Syslogd.Entries

/-! # An entry by itself

One entry of syslogd whose output succeeds, over the messages, the timer calls and the new
initialisations that concern it. -/

namespace Inetutils.Syslogd.Alone

open Telnet.Proto Proto Entries

/-- An entry whose output succeeds, with the time of the daemon, the timer's counter and all that
was put out. -/
structure Solo where
  filed : Filed
  now : ℤ
  markSeq : ℕ
  out : List Out

def Solo.start (type : FType) (name : Text) (pmask : ℕ → Byte) : Solo :=
  ⟨Filed.fresh type name pmask, 0, 0, []⟩

def Solo.fprintlog (cfg : Config) (host : Text) (flags : Flags) (msg : Option Text) (s : Solo) :
    Solo :=
  let p := s.filed.deliver cfg {} s.now host flags msg
  { s with filed := p.filed.printed, out := s.out ++ p.out }

def solo (cfg : Config) : Slot Solo where
  filed := Solo.filed
  now := Solo.now
  modify g s := { s with filed := g s.filed }
  fprintlog := Solo.fprintlog cfg

/-- What happens to the entry: a call of `logmsg`, the timer, with the times that `domark` and the
`logmsg` in it see, or a new configuration. -/
inductive Op
  | logmsg (now : ℤ) (c : Call)
  | domark (now now' : ℤ)
  | init (pmask : ℕ → Byte)

section
variable (cfg : Config)

def Solo.logmsg (now : ℤ) (c : Call) (s : Solo) : Solo :=
  (solo cfg).take cfg.markInterval (Message.ofCall cfg.clock now c) { s with now := now }

/-- `-- MARK --` -/
def markText : Text := [45, 45, 32, 77, 65, 82, 75, 32, 45, 45]

def markCall : Call := ⟨LOG_INFO, markText, cfg.localHostName, { addDate := true, mark := true }⟩

def TIMERINTVL : ℕ := 30

def Solo.markDue (s : Solo) : Bool :=
  decide (0 < cfg.markInterval) && decide (cfg.markInterval ≤ s.markSeq + TIMERINTVL)

/-- The first part of `domark`. -/
def Solo.mark (now now' : ℤ) (s : Solo) : Solo :=
  if s.markDue cfg then
    { Solo.logmsg cfg now' (markCall cfg) { s with now := now } with markSeq := 0 }
  else { s with
    now := now, markSeq := if 0 < cfg.markInterval then s.markSeq + TIMERINTVL else s.markSeq }

def Solo.step (s : Solo) : Op → Solo
  | .logmsg now c => s.logmsg cfg now c
  | .domark now now' => (solo cfg).tick cfg.localHostName (s.mark cfg now now')
  | .init pmask =>
    let s := (solo cfg).flush cfg.localHostName s
    { s with filed := Filed.fresh s.filed.fType s.filed.fName pmask }

end

end Inetutils.Syslogd.Alone
