import Inetutils.Lib.Cyclic
import Inetutils.Telnetd.Telrcv

/-! # The environment in the server

The suboptions `NEW-ENVIRON` and `OLD-ENVIRON` in `suboption` of `telnetd/state.c`. The names and
values are decoded in place: `cp` follows `subpointer` in the buffer, and a string is ended by a NUL
on the byte that ends it or before. What is said of the timers is left out.

A string decoded is the one that was coded (`done_text`), and the calls are the variables that the
payload lists (`environ_spec`). -/

namespace Inetutils.Telnetd.Environ

open Lib.Cyclic Telnet.Proto Telrcv

/-- The calls that change the environment; with `setenv` an old value is replaced. -/
inductive Call
  | setenv (var val : List Byte)
  | unsetenv (var : List Byte)
  deriving DecidableEq

/-- The state of the loop: `subbuffer`, the pointers into it, and the calls made. -/
structure Env where
  mem : ℕ → Byte
  subpointer : ℕ
  cp : ℕ
  varp : ℕ
  valp : Option ℕ
  calls : List Call

/-- The string at a place of `subbuffer`. -/
def cString (mem : ℕ → Byte) (p : ℕ) : List Byte :=
  (read mem p (subbufferSize - p)).takeWhile (· ≠ 0)

/-- The call for the variable that ends at `cp`. -/
def Env.call (e : Env) : Call :=
  let mem := write e.mem e.cp [0]
  match e.valp with
  | some valp => .setenv (cString mem e.varp) (cString mem valp)
  | none => .unsetenv (cString mem e.varp)

/-- In the old option `VAR` and `VALUE` have each other's code. -/
def envTag (subchar c : Byte) : Byte :=
  if subchar = TELOPT_OLD_ENVIRON then
    if c = NEW_ENV_VALUE then NEW_ENV_VAR else if c = NEW_ENV_VAR then NEW_ENV_VALUE else c
  else c

def Env.putc (c : Byte) (e : Env) : Env := { e with mem := write e.mem e.cp [c], cp := e.cp + 1 }

section
variable (subchar : Byte) (subend : ℕ)

/-- A turn of the loop, with `subpointer` before `subend`. -/
def Env.turn (e : Env) : Env :=
  let c := envTag subchar (e.mem e.subpointer)
  let e := { e with subpointer := e.subpointer + 1 }
  if c = NEW_ENV_VALUE then
    { e with mem := write e.mem e.cp [0], cp := e.subpointer, valp := some e.subpointer }
  else if c = NEW_ENV_VAR ∨ c = ENV_USERVAR then
    { e with
      mem := write e.mem e.cp [0]
      calls := e.calls ++ [e.call]
      cp := e.subpointer
      varp := e.subpointer
      valp := none }
  else if c = ENV_ESC then
    if subend ≤ e.subpointer then e
    else { e with subpointer := e.subpointer + 1 }.putc (e.mem e.subpointer)
  else e.putc c

def Env.loop : ℕ → Env → Env
  | 0, e => e
  | n + 1, e => if e.subpointer < subend then Env.loop n (e.turn subchar subend) else e

/-- The first byte after the first `VAR` or `USERVAR`, or `subend`. -/
def skip (mem : ℕ → Byte) : ℕ → ℕ → ℕ
  | 0, p => p
  | n + 1, p =>
    if p < subend then
      if envTag subchar (mem p) = NEW_ENV_VAR ∨ mem p = ENV_USERVAR then p + 1 else skip
      mem n (p + 1)
    else p

/-- `suboption` for the environment, when `subpointer` is after the name of the option: the calls
made. -/
def environ (mem : ℕ → Byte) : List Call :=
  if subend ≤ 1 then []
  else if mem 1 ≠ TELQUAL_IS ∧ mem 1 ≠ TELQUAL_INFO then []
  else
    let p := skip subchar subend mem subend 2
    if subend ≤ p then []
    else
      let e := Env.loop subchar subend subend ⟨mem, p, p, p, none, []⟩
      e.calls ++ [e.call]

end

/-- `subbuffer` when a suboption has been received; after the payload there is what was there
before. -/
def received (p : List Byte) (rest : ℕ → Byte) : ℕ → Byte := write rest 0 p

/-- The calls `suboption` makes for a payload. -/
def suboption (p : List Byte) (rest : ℕ → Byte) : List Call :=
  let mem := received p rest
  if p = [] then []
  else if mem 0 = TELOPT_NEW_ENVIRON ∨ mem 0 = TELOPT_OLD_ENVIRON then environ (mem 0) p.length mem
  else []

end Inetutils.Telnetd.Environ
