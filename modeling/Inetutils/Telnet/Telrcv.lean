import Inetutils.Telnet.Automaton

/-! # Receiving from the server

`telrcv` of `telnet/telnet.c`. As on the server's side, the handlers and the modes are left to the
rest of the client (`Client`), and what `telrcv` does shows as a list of events: the bytes it adds
to `ttyoring` and the handlers it calls.

`turn` is one turn of the loop, with the bytes that follow in the same stretch of `netiring`, since
after a carriage return it looks at the next one. `telrcv k` makes `k` turns at most on one stretch:
the loop stops when there is no room in `ttyoring`. -/

namespace Inetutils.Telnet.Telrcv

open Proto Items Automaton

/-- A byte added to `ttyoring`, or a handler called. -/
inductive Event
  | tty (b : Byte)
  | act (a : Act)

/-- The rest of the client: the modes `telrcv` tests and what the handlers do. `dontEcho` is
`my_want_state_is_dont (TELOPT_ECHO)`, `flushing` that `SYNCHing` or `flushout` is set. -/
structure Client (σ : Type*) where
  dontEcho : σ → Bool
  dontBinary : σ → Bool
  crmod : σ → Bool
  flushing : σ → Bool
  handle : Act → σ → σ

structure Rcv (σ : Type*) where
  state : TS
  sub : List Byte
  client : σ

variable {σ : Type*} (cl : Client σ)

/-- The size of `subbuffer`. -/
abbrev SUBBUFSIZE : ℕ := 256

def Rcv.ttyadd (r : Rcv σ) (b : Byte) : List Event := if cl.flushing r.client then [] else [.tty b]

def Rcv.call (r : Rcv σ) (a : Act) : Rcv σ × List Event :=
  ({ r with client := cl.handle a r.client }, [.act a])

/-- From `process_iac` on. -/
def Rcv.processIac (r : Rcv σ) (c : Byte) : Rcv σ × List Event :=
  match verbOf c with
  | some v => ({ r with state := .verb v }, [])
  | none =>
    if c = SB then ({ r with state := .SB, sub := [] }, [])
    else if c = IAC then ({ r with state := .DATA }, r.ttyadd cl IAC)
    else { r with state := .DATA }.call cl (.command c)

def Rcv.suboption (r : Rcv σ) (c : Byte) : Rcv σ × List Event :=
  { r with sub := [] }.call cl (.suboption (sbTerm SUBBUFSIZE r.sub c))

def Rcv.ttyReturn (r : Rcv σ) : List Event :=
  r.ttyadd cl CR ++ if cl.crmod r.client then r.ttyadd cl LF else []

/-- `TS_DATA`. -/
def Rcv.data (r : Rcv σ) (c : Byte) (l : List Byte) : Rcv σ × List Event × List Byte :=
  if c = IAC then ({ r with state := .IAC }, [], l)
  else if c = CR ∧ cl.dontBinary r.client then
    match l with
    | nc :: l' =>
      if nc = NUL then (r, r.ttyadd cl CR, l')
      else if cl.dontEcho r.client ∧ nc = LF then (r, r.ttyadd cl LF, l')
      else (r, r.ttyReturn cl, nc :: l')
    | [] => ({ r with state := .CR }, r.ttyReturn cl, [])
  else (r, r.ttyadd cl c, l)

/-- The states that look at no more than the byte `c`. -/
def Rcv.receive (r : Rcv σ) (c : Byte) : Rcv σ × List Event :=
  match r.state with
  | .IAC => r.processIac cl c
  | .verb v => { r with state := .DATA }.call cl (.option v c)
  | .SB =>
    if c = IAC then ({ r with state := .SE }, [])
    else ({ r with sub := sbAccum SUBBUFSIZE r.sub c }, [])
  | .SE =>
    if c = SE then { r with state := .DATA }.suboption cl c
    else if c = IAC then ({ r with state := .SB, sub := sbAccum SUBBUFSIZE r.sub c }, [])
    else
      -- the suboption ends all the same, and `c` is a command
      let q := { r with state := .IAC }.suboption cl c
      ((q.1.processIac cl c).1, q.2 ++ (q.1.processIac cl c).2)
  | _ => (r, [])

/-- A turn of the loop on the byte `c`, with the bytes of the stretch that follow it. -/
def turn (r : Rcv σ) (c : Byte) (l : List Byte) : Rcv σ × List Event × List Byte :=
  match r.state with
  | .CR =>
    let r := { r with state := .DATA }
    if c = NUL then (r, [], l)
    else if c = LF ∧ cl.dontEcho r.client ∧ !cl.crmod r.client then (r, r.ttyadd cl c, l)
    else r.data cl c l
  | .DATA => r.data cl c l
  | _ => ((r.receive cl c).1, (r.receive cl c).2, l)

/-- The loop on a stretch of `netiring`, `k` turns at most: what it did and what it leaves. -/
def telrcv : ℕ → Rcv σ → List Byte → Rcv σ × List Event × List Byte
  | 0, r, l => (r, [], l)
  | _ + 1, r, [] => (r, [], [])
  | k + 1, r, c :: l =>
    let t := turn cl r c l
    let p := telrcv k t.1 t.2.2
    (p.1, t.2.1 ++ p.2.1, p.2.2)

end Inetutils.Telnet.Telrcv
