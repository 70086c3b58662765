import Inetutils.Lib.Runs
import Inetutils.Lib.Decimal

/-! # Where ftpd connects to

The command PORT, from the line that is read (`yylex` and `host_port` of `src/ftpcmd.y`) to the
address in `data_dest`, and what `dataconn` of `src/ftpd.c` does with it. The parser stores the
address of a PORT command before it reads the end of the line, and before the command is carried
out. The control connection is one of IPv4, and `his_addr` is its other end. -/

namespace Inetutils.Ftpd.Dataconn

open Lib.Runs Lib.Decimal

abbrev Text := List UInt8

structure Addr where
  ip : List ℕ
  port : ℕ
  deriving DecidableEq

/-! ### The line -/

/-- `atoi`, and the last byte of it. -/
def octet (digits : Text) : ℕ := min (value 0 digits) (2 ^ 63 - 1) % 256

def number (l : Text) : Option (ℕ × Text) :=
  match l.takeWhile isDigit with
  | [] => none
  | b :: digits => some (octet (b :: digits), l.dropWhile isDigit)

def sp : Text → Option Text
  | 32 :: l => some l
  | _ => none

def comma : Text → Option Text
  | 44 :: l => some l
  | _ => none

/-- `host_port`: the address, and what follows it. -/
def hostPort (l : Text) : Option (Addr × Text) := do
  let (h₁, l) ← number l
  let (h₂, l) ← number (← comma l)
  let (h₃, l) ← number (← comma l)
  let (h₄, l) ← number (← comma l)
  let (p₁, l) ← number (← comma l)
  let (p₂, l) ← number (← comma l)
  return (⟨[h₁, h₂, h₃, h₄], 256 * p₁ + p₂⟩, l)

def lineOf (cbuf : Text) : Text :=
  match cbuf.dropWhile (· ≠ 13) with
  | [] => cbuf
  | _ => cbuf.takeWhile (· ≠ 13) ++ [10]

def upper (b : UInt8) : UInt8 := if 97 ≤ b ∧ b ≤ 122 then b - 32 else b

def word (l : Text) : Text := (l.takeWhile fun b => b ≠ 32 ∧ b ≠ 10).map upper

def args (l : Text) : Text := l.dropWhile fun b => b ≠ 32 ∧ b ≠ 10

/-- `PORT` -/
def portWord : Text := [80, 79, 82, 84]

/-! ### The data connection -/

/-- A call of `connect`: the address, whether `usedefault` was 0, and the address of the last PORT
command that was answered with 200. -/
structure Connect where
  dest : Option Addr
  inForce : Bool
  last : Option Addr

/-- `dest` is `data_dest`, `none` when it is all zeros; `pdata` and `data` say that the descriptor
is open. -/
structure Data where
  loggedIn : Bool
  dest : Option Addr
  usedefault : Bool
  pdata : Bool
  data : Bool
  last : Option Addr
  connects : List Connect

def Data.init : Data := ⟨false, none, true, false, false, none, []⟩

/-- What becomes of a transfer: whether `accept` gives a connection, whether there is a socket, how
often `connect` is tried again, whether it succeeds, and whether the descriptors are given up at the
end. -/
structure Transfer where
  accepted : Bool
  socket : Bool
  retries : ℕ
  connected : Bool
  finished : Bool

/-- What a line that is no PORT command does to the data connection. -/
inductive Effect
  | none
  | login (loggedIn : Bool)
  | passive (listening : Bool)
  | transfer (t : Transfer)

section
variable (his : Addr)

def dataconn (t : Transfer) (s : Data) : Data :=
  if s.pdata then { s with pdata := t.accepted }
  else if s.data then { s with usedefault := true }
  else
    let inForce := !s.usedefault
    let s := { s with dest := if s.usedefault then some his else s.dest, usedefault := true }
    if ¬ t.socket then s
    else { s with
      data := t.connected
      connects := s.connects ++ List.replicate (t.retries + 1) ⟨s.dest, inForce, s.last⟩ }

/-- The address is that of the other end, and the port is not one of the reserved ones. -/
def Legal (a : Addr) : Prop := a.ip = his.ip ∧ 1024 < a.port

instance decidableLegal (a : Addr) : Decidable (Legal his a) := inferInstanceAs (Decidable (_ ∧ _))

def port (l : Text) (s : Data) : Data :=
  match (sp l).bind hostPort with
  | none => s
  | some (a, rest) =>
    let s := { s with dest := some a }
    if rest.head? ≠ some 10 then s
    else
      let s := { s with usedefault := false, pdata := false }
      if ¬ s.loggedIn then s
      else if Legal his a then { s with last := some a }
      else { s with dest := none }

def effect (e : Effect) (s : Data) : Data :=
  match e with
  | .none => s
  | .login loggedIn => { s with loggedIn := loggedIn }
  | .passive listening => if s.loggedIn then { s with pdata := listening } else s
  | .transfer t =>
    if ¬ s.loggedIn then s
    else
      let s := dataconn his t s
      if t.finished then { s with data := false, pdata := false } else s

/-- A line as it was read; one that is no PORT command has some effect, or none. -/
structure Line where
  cbuf : Text
  effect : Effect

def step (s : Data) (line : Line) : Data :=
  let l := lineOf line.cbuf
  if word l = portWord then port his (args l) s else effect his line.effect s

/-! ### No connection elsewhere -/

/-- **No bounce**: each connection goes to the other end when no PORT command is in force, and else
to the address of the last PORT command that was answered with 200, which is legal. -/
def NoBounce (s : Data) : Prop :=
  ∀ c ∈ s.connects, (c.inForce = false → c.dest = some his) ∧
    (c.inForce = true → c.dest = c.last ∧ ∃ a, c.last = some a ∧ Legal his a)

/-- A PORT command that has an address, and ends there, is given when logged in, with a legal
address; one that goes on behind the address is given when no PORT command is in force. -/
def Fit (s : Data) (line : Line) : Prop :=
  word (lineOf line.cbuf) = portWord →
    ∀ r ∈ (sp (args (lineOf line.cbuf))).bind hostPort,
      if r.2.head? = some 10 then s.loggedIn = true ∧ Legal his r.1 else s.usedefault = true

instance decidableFit (s : Data) (line : Line) : Decidable (Fit his s line) := by
  unfold Fit
  infer_instance

structure Inv (s : Data) : Prop where
  connects : NoBounce his s
  inForce : s.usedefault = false → s.dest = s.last ∧ ∃ a, s.last = some a ∧ Legal his a

variable {his} {s : Data}

theorem Inv.port {l : Text} (h : Inv his s) (hfit : ∀ r ∈ (sp l).bind hostPort,
      if r.2.head? = some 10 then s.loggedIn = true ∧ Legal his r.1 else s.usedefault = true) :
    Inv his (port his l s) := by
  obtain ⟨h1, h2⟩ := h
  rw [Dataconn.port]
  split
  next => exact ⟨h1, h2⟩
  next a rest hr =>
    have hfit' := hfit (a, rest) hr
    dsimp only at hfit' ⊢
    split
    next hend =>
      rw [if_neg hend] at hfit'
      exact ⟨h1, fun hu => absurd (hfit'.symm.trans hu) (by decide)⟩
    next hend =>
      rw [if_pos (not_not.1 hend)] at hfit'
      rw [if_neg (not_not.2 hfit'.1), if_pos hfit'.2]
      exact ⟨h1, fun _ => ⟨rfl, a, rfl, hfit'.2⟩⟩

theorem Inv.dataconn (h : Inv his s) (t : Transfer) : Inv his (dataconn his t s) := by
  obtain ⟨h1, h2⟩ := h
  rw [Dataconn.dataconn]
  split
  · exact ⟨h1, h2⟩
  · split
    · exact ⟨h1, fun hu => absurd hu.symm Bool.false_ne_true⟩
    · dsimp only
      split
      · exact ⟨h1, fun hu => absurd hu.symm Bool.false_ne_true⟩
      · refine ⟨fun c hc => ?_, fun hu => absurd hu.symm Bool.false_ne_true⟩
        rcases List.mem_append.1 hc with hc | hc
        · exact h1 c hc
        · rw [List.eq_of_mem_replicate hc]
          rcases hu : s.usedefault
          · exact ⟨fun hf => absurd hf.symm Bool.false_ne_true, fun _ => h2 hu⟩
          · exact ⟨fun _ => rfl, nofun⟩

theorem Inv.effect (h : Inv his s) (e : Effect) : Inv his (effect his e s) := by
  rcases e with _ | loggedIn | listening | t
  · exact h
  · exact ⟨h.connects, h.inForce⟩
  · rw [Dataconn.effect]
    split
    · exact ⟨h.connects, h.inForce⟩
    · exact h
  · rw [Dataconn.effect]
    split
    · exact h
    · obtain ⟨h1, h2⟩ := h.dataconn t
      split
      · exact ⟨h1, h2⟩
      · exact ⟨h1, h2⟩

theorem Inv.step (line : Line) (h : Inv his s) (hfit : Fit his s line) :
    Inv his (step his s line) := by
  have hstep : Dataconn.step his s line = if word (lineOf line.cbuf) = portWord then
      Dataconn.port his (args (lineOf line.cbuf)) s else Dataconn.effect his line.effect s := rfl
  rw [hstep]
  split
  next hw => exact h.port (hfit hw)
  next => exact h.effect line.effect

end

end Inetutils.Ftpd.Dataconn
