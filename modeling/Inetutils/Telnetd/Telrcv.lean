import Inetutils.Telnet.Automaton

/-! # Receiving from the client

`telrcv` of `telnetd/state.c`. What the handlers it calls do, and the modes it looks at, are the
server's (`Server`): a handler changes the server's state and may put bytes on the pty. `telrcv`
itself keeps the state of its automaton and the suboption buffer (`Rcv`), and what it does shows as
a list of events.

`turn` is one turn of its loop; it is given the bytes that follow in the same read, since after a
carriage return it looks at the next one. `telrcv k` makes `k` turns at most: the loop also stops
when the pty buffer is full, and is taken up again with what is left of the read. -/

namespace Inetutils.Telnetd.Telrcv

open Telnet.Proto Telnet.Items Telnet.Automaton

inductive Event
  | pty (b : Byte)
  | act (a : Act)

/-- The rest of the server: the modes `telrcv` tests and what the handlers do. -/
structure Server (σ : Type*) where
  linemode : σ → Bool
  hisBinary : σ → Bool
  hisEor : σ → Bool
  ttyIscrnl : σ → Bool
  handle : Act → σ → σ × List Byte

structure Rcv (σ : Type*) where
  state : TS
  sub : List Byte
  server : σ

variable {σ : Type*} (srv : Server σ)

/-- The size of `subbuffer`. -/
abbrev subbufferSize : ℕ := 512

def Rcv.output (r : Rcv σ) (b : Byte) : Rcv σ × List Event := (r, [.pty b])

def Rcv.call (r : Rcv σ) (a : Act) : Rcv σ × List Event :=
  ({ r with server := (srv.handle a r.server).1 },
    .act a :: (srv.handle a r.server).2.map .pty)

def hasHandler (s : σ) (c : Byte) : Bool :=
  c = IP ∨ c = BREAK ∨ c = AYT ∨ c = AO ∨ c = EC ∨ c = EL ∨ c = DM ∨ (c = EOR ∧ srv.hisEor s) ∨
    c = xEOF ∨ c = SUSP ∨ c = ABORT

/-- From `gotiac` on. -/
def Rcv.gotiac (r : Rcv σ) (c : Byte) : Rcv σ × List Event :=
  if c = SB then ({ r with state := .SB, sub := [] }, [])
  else match verbOf c with
    | some v => ({ r with state := .verb v }, [])
    | none =>
      let r := { r with state := .DATA }
      if hasHandler srv r.server c then r.call srv (.command c)
      else if c = IAC then r.output c
      else (r, [])

def Rcv.suboption (r : Rcv σ) (c : Byte) : Rcv σ × List Event :=
  { r with sub := [] }.call srv (.suboption (sbTerm subbufferSize r.sub c))

/-- `c` is a carriage return in the text, after which `telrcv` looks at the next byte. -/
def Rcv.looksAhead (r : Rcv σ) (c : Byte) : Bool :=
  (r.state = .DATA ∨ r.state = .CR) ∧ c = CR ∧ !srv.hisBinary r.server

def Rcv.receive (r : Rcv σ) (c : Byte) : Rcv σ × List Event :=
  match r.state with
  | .CR =>
    let r := { r with state := .DATA }
    if c = NUL ∨ c = LF then (r, [])
    else if c = IAC then ({ r with state := .IAC }, [])
    else r.output c
  | .DATA => if c = IAC then ({ r with state := .IAC }, []) else r.output c
  | .IAC => r.gotiac srv c
  | .SB => if c = IAC then ({ r with state := .SE }, [])
    else ({ r with sub := sbAccum subbufferSize r.sub c }, [])
  | .SE =>
    if c = SE then { r with state := .DATA }.suboption srv c
    else if c = IAC then ({ r with state := .SB, sub := sbAccum subbufferSize r.sub c }, [])
    else
      -- the suboption ends all the same, and `c` is a command
      let q := { r with state := .IAC }.suboption srv c
      ((q.1.gotiac srv c).1, q.2 ++ (q.1.gotiac srv c).2)
  | .verb v => { r with state := .DATA }.call srv (.option v c)

/-- In line mode these bytes end a line after a carriage return. -/
def endsLine (s : σ) (c : Byte) : Bool := srv.linemode s ∧ (c = LF ∨ (c = NUL ∧ srv.ttyIscrnl s))

/-- A turn of the loop on the byte `c`, with the bytes of the read that follow it. -/
def turn (r : Rcv σ) (c : Byte) (l : List Byte) : Rcv σ × List Event × List Byte :=
  if r.looksAhead srv c then
    match l with
    | nc :: l' =>
      if endsLine srv r.server nc then ({ r with state := .DATA }, [.pty LF], l')
      else ({ r with state := .CR }, [.pty CR], nc :: l')
    | [] => ({ r with state := .CR }, [.pty CR], [])
  else ((r.receive srv c).1, (r.receive srv c).2, l)

/-- The loop, `k` turns at most: what it did and what it leaves of the read. -/
def telrcv : ℕ → Rcv σ → List Byte → Rcv σ × List Event × List Byte
  | 0, r, l => (r, [], l)
  | _ + 1, r, [] => (r, [], [])
  | k + 1, r, c :: l =>
    let t := turn srv r c l
    let p := telrcv k t.1 t.2.2
    (p.1, t.2.1 ++ p.2.1, p.2.2)

/-- What a successful `net_read` brings, and how often the loop turns in each of the calls that stop
before its end. -/
structure Read where
  bytes : List Byte
  ne_nil : bytes ≠ []
  stops : List ℕ

/-- The calls of `telrcv` that stop, and then one that goes to the end of the read. -/
def serve : List ℕ → Rcv σ → List Byte → Rcv σ × List Event
  | [], r, l => ((telrcv srv l.length r l).1, (telrcv srv l.length r l).2.1)
  | k :: ks, r, l =>
    let p := telrcv srv k r l
    ((serve ks p.1 p.2.2).1, p.2.1 ++ (serve ks p.1 p.2.2).2)

def serveReads : Rcv σ → List Read → Rcv σ × List Event
  | r, [] => (r, [])
  | r, rd :: rds =>
    let p := serve srv rd.stops r rd.bytes
    ((serveReads p.1 rds).1, p.2 ++ (serveReads p.1 rds).2)

def serveStream (r : Rcv σ) (l : List Byte) : Rcv σ × List Event := serve srv [] r l

end Inetutils.Telnetd.Telrcv
