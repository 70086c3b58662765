import Inetutils.Telnet.Options
import Inetutils.Telnet.Telrcv

/-! # What the client does with what it receives

`suboption`, `sendnaws` and the functions for `LINEMODE` of `telnet/telnet.c`, and the handlers as
`telrcv` calls them. The tables of special characters and the environment are the rest of the
client: `slc` and `env_opt` show as the replies they make (`Terminal`).

Only the answers to option commands are put on the network whatever the room, and the refusal to
tell a display that is no longer there; each suboption is sent if there is room. -/

namespace Inetutils.Telnet.Suboption

open Proto Items Automaton Sides
open Options

/-- The rest of the client, for suboptions and commands. `synch` is what a `DM` does: it flushes the
terminal, sets a timer and looks whether there is still urgent data. -/
structure Terminal (ρ : Type*) extends Rest ρ where
  crmod : ρ → Bool
  setcommandmode : ρ → ρ
  synch : ρ → ρ × Bool
  localflow : Bool → ρ → ρ
  restartany : Bool → ρ → ρ
  windowSize : ρ → Option (ℕ × ℕ)
  gettermname : ρ → ρ × List Byte
  terminalSpeeds : ρ → ℕ × ℕ
  slc : List Byte → Client ρ → ρ × Option (List Byte)
  envOpt : List Byte → ρ → ρ × Option (List Byte)

variable {ρ : Type*} (env : Terminal ρ)

/-- `IAC SB` and the bytes and `IAC SE`, which is sent if the room exceeds it by `spare`. -/
def Client.sendSub (l : List Byte) (spare : ℕ) (c : Client ρ) : Client ρ :=
  c.emit (.supply (IAC :: SB :: (l ++ [IAC, SE])) spare)

def Client.reply (p : ρ × Option (List Byte)) (c : Client ρ) : Client ρ :=
  { c with rest := p.1, out := c.out ++ (p.2.map fun l => .supply l 1).toList }

/-- `%d`. -/
def decimal (n : ℕ) : List Byte := (Nat.toDigits 10 n).map fun d => d.toNat.toUInt8

def putshort (x : ℕ) : List Byte := escape [(x / 256).toUInt8, x.toUInt8]

def sendnaws (c : Client ρ) : Client ρ :=
  if (c.options.side .willWont TELOPT_NAWS).state = false then c
  else match env.windowSize c.rest with
    | none => c
    | some (rows, cols) => Client.sendSub (TELOPT_NAWS :: (putshort cols ++ putshort rows)) 0 c

/-! ### Linemode -/

abbrev MODE_ACK : Byte := 4

/-- `MODE_MASK & ~MODE_ACK`. -/
abbrev modeBits : Byte := 27

def lmWill (cmd : List Byte) (c : Client ρ) : Client ρ :=
  match cmd with
  | [] => c
  | b :: _ => Client.sendSub [TELOPT_LINEMODE, DONT, b] 1 c

/-- We are always `DONT`, so there is no response. -/
def lmWont (_cmd : List Byte) (c : Client ρ) : Client ρ := c

def lmDo (cmd : List Byte) (c : Client ρ) : Client ρ :=
  match cmd with
  | [] => c
  | b :: _ => Client.sendSub [TELOPT_LINEMODE, WONT, b] 1 c

def lmDont (_cmd : List Byte) (c : Client ρ) : Client ρ := c

def lmMode (cmd : List Byte) (init : Bool) (c : Client ρ) : Client ρ :=
  match cmd with
  | [b] =>
    if c.linemode &&& modeBits = b then c
    else if b &&& MODE_ACK ≠ 0 then c
    else
      let c := { c with linemode := b &&& modeBits }
      let m := if init then c.linemode else c.linemode ||| MODE_ACK
      (Client.sendSub [TELOPT_LINEMODE, LM_MODE, m] 1 c).setconnmode env.toRest
  | _ => c

def linemode (p : List Byte) (c : Client ρ) : Client ρ :=
  match p with
  | [] => c
  | b :: q =>
    if b = WILL then lmWill q c
    else if b = WONT then lmWont q c
    else if b = DO then lmDo q c
    else if b = DONT then lmDont q c
    else if b = LM_SLC then Client.reply (env.slc q c) c
    else if b = LM_MODE then lmMode env q false c
    else c

/-! ### The other suboptions -/

def ttype (c : Client ρ) : Client ρ :=
  let p := env.gettermname c.rest
  Client.emit { c with rest := p.1 }
    (.require (IAC :: SB :: TELOPT_TTYPE :: TELQUAL_IS :: (p.2 ++ [IAC, SE])))

def tspeed (c : Client ρ) : Client ρ :=
  let p := env.terminalSpeeds c.rest
  Client.sendSub (TELOPT_TSPEED :: TELQUAL_IS :: (decimal p.2 ++ 44 :: decimal p.1)) 1 c

def lflow (b : Byte) (c : Client ρ) : Client ρ :=
  let done (f : ρ → ρ) : Client ρ :=
    Client.setconnmode env.toRest { c with rest := env.setcommandmode (f c.rest) }
  if b = LFLOW_RESTART_ANY then done (env.restartany true)
  else if b = LFLOW_RESTART_XON then done (env.restartany false)
  else if b = LFLOW_ON then done (env.localflow true)
  else if b = LFLOW_OFF then done (env.localflow false)
  else c

def newEnviron (p : List Byte) (c : Client ρ) : Client ρ :=
  match p with
  | [] => c
  | b :: _ =>
    -- what `env_opt` is told by `IS` and `INFO` it ignores
    if b = TELQUAL_SEND ∧ (c.options.side .willWont TELOPT_NEW_ENVIRON).want then
      Client.reply (env.envOpt p c.rest) c
    else c

def xdisploc (c : Client ρ) : Client ρ :=
  match env.display c.rest with
  | none => sendWont TELOPT_XDISPLOC true c
  | some dp => Client.sendSub (TELOPT_XDISPLOC :: TELQUAL_IS :: dp) 1 c

/-- `suboption`, with what the suboption buffer holds. Of an empty one it reads the `IAC` that
follows, for which it does nothing. -/
def suboption (p : List Byte) (c : Client ρ) : Client ρ :=
  let will (o : Byte) : Bool := (c.options.side .willWont o).want
  match p with
  | [] => c
  | o :: q =>
    if o = TELOPT_TTYPE then if will o ∧ q.head? = some TELQUAL_SEND then ttype env c else c
    else if o = TELOPT_TSPEED then if will o ∧ q.head? = some TELQUAL_SEND then tspeed env c else c
    else if o = TELOPT_LFLOW then if will o then (q.head?.elim c fun b => lflow env b c) else c
    else if o = TELOPT_LINEMODE then if will o then linemode env q c else c
    else if o = TELOPT_NEW_ENVIRON then newEnviron env q c
    else if o = TELOPT_XDISPLOC then
      if will o ∧ q.head? = some TELQUAL_SEND then xdisploc env c else c
    else c

/-! ### The handlers -/

/-- What `telrcv` does for a command, an option and a suboption. -/
def handle (a : Act) (c : Client ρ) : Client ρ :=
  match a with
  | .command b =>
    if b = DM then { c with rest := (env.synch c.rest).1, SYNCHing := (env.synch c.rest).2 } else c
  | .option .WILL o => willoption env.toRest o c
  | .option .WONT o => wontoption env.toRest o c
  | .option .DO o =>
    let c := dooption env.toRest o c
    if o = TELOPT_NAWS then sendnaws env c
    else if o = TELOPT_LFLOW then
      Client.setconnmode env.toRest
        { c with rest := env.setcommandmode (env.localflow true c.rest) }
    else c
  | .option .DONT o =>
    Client.setconnmode env.toRest { dontoption env.toRest o c with flushline := true }
  | .suboption p => suboption env p c

def rcvClient : Telrcv.Client (Client ρ) where
  dontEcho c := !(c.options.side .doDont TELOPT_ECHO).want
  dontBinary c := !(c.options.side .doDont TELOPT_BINARY).want
  crmod c := env.crmod c.rest
  flushing c := c.SYNCHing || c.flushout
  handle := handle env

end Inetutils.Telnet.Suboption
