import Inetutils.Ftp.Pswitch
import Inetutils.Lib.Jumps

/-! # The control connections of ftp under interrupts

`command`, `getreply` and `pswitch` of `src/ftp.c`, `lostpeer` of `src/main.c`, and `setpeer`,
`disconnect` and what `settype` and `changetype` do of `src/cmds.c`, with the handlers of SIGINT,
which may come at every moment and leave the code by a jump.

What comes from outside is a list of moments: each says whether SIGINT comes, which reply is read
next, and how the next question (a call of the system, a setting, an answer at the terminal) is
answered; the run ends with the list. The servers are at the other ends of the connections: a reply,
unless it is a preliminary one, answers the first command that is not answered yet. -/

namespace Inetutils.Ftp.Interrupts

open Lib.Jumps
open Pswitch (TypeName)

/-! ### The servers -/

abbrev TYPE_A : ℕ := TypeName.ascii.type
abbrev TYPE_E : ℕ := TypeName.ebcdic.type
abbrev TYPE_I : ℕ := TypeName.image.type
abbrev TYPE_L : ℕ := TypeName.tenex.type

abbrev PRELIM : ℤ := 1
abbrev COMPLETE : ℤ := 2
abbrev CONTINUE : ℤ := 3
abbrev ERROR : ℤ := 5

/-- A command that a server has to answer. The connection itself is one, too: its answer is the
greeting. -/
inductive Sent
  | type (t : ℕ)
  | transfer
  | other
  deriving DecidableEq

/-- `served` is the type of the last TYPE that was answered with 2xx. -/
structure Server where
  served : ℕ
  owed : List Sent

def Server.new : Server := ⟨TYPE_A, [.other]⟩

/-- A reply that is not preliminary answers the first command. -/
def Server.answer (d : ℤ) (v : Server) : Server :=
  if d = PRELIM then v
  else
    match v.owed with
    | [] => v
    | .type t :: l => ⟨if d = COMPLETE then t else v.served, l⟩
    | _ :: l => ⟨v.served, l⟩

def Server.receive (c : Sent) (v : Server) : Server := { v with owed := v.owed ++ [c] }

def Server.hangUp (v : Server) : Server := { v with owed := [] }

/-- What `getreply` makes of the line that ends a reply. -/
structure Line where
  digit : ℤ
  code : ℕ
  closing : code = 421 → digit = 4

inductive Reply
  | eof
  | line (l : Line)

structure Moment where
  sigint : Bool
  reply : Reply
  yes : Bool

/-! ### The client -/

/-- The places of `setjmp`. -/
inductive Frame
  | toplevel
  | jabort
  | sendabort
  | recvabort
  | ptabort
  | abortprox
  deriving DecidableEq

inductive Handler
  | intr
  | mabort
  | abortsend
  | abortrecv
  | abortpt
  | proxabort
  | cmdabort
  | psabort
  | ignored
  | default
  deriving DecidableEq

/-- The variables of a connection; `cin` and `cout` by the number of the connection. -/
structure Vars where
  connected : Bool
  cin : Option ℕ
  cout : Option ℕ
  type : ℕ
  curtype : ℕ
  cpend : Bool

def Vars.init : Vars := ⟨false, none, none, 0, 0, false⟩

/-- Variables that no connection has of its own; `restartPoint` and `ftemp` are whether they are not
null. -/
structure Flags where
  abrtflag : Bool
  ptflag : Bool
  ptabflg : Bool
  mflag : Bool
  secndflag : Bool
  restartPoint : Bool
  ftemp : Bool
  unixServer : Bool
  unixProxy : Bool
  code : ℕ

def Flags.init : Flags := ⟨false, false, false, false, false, false, false, false, false, 0⟩

inductive Codec
  | ascii
  | ebcdic
  | image
  deriving DecidableEq

def meant (t : ℕ) : Option Codec :=
  if t = TYPE_A then some .ascii
  else if t = TYPE_E then some .ebcdic
  else if t = TYPE_I ∨ t = TYPE_L then some .image
  else none

/-- `switch (curtype)` of `sendrequest` and `recvrequest`. -/
def codec (curtype : ℕ) : Option Codec :=
  if curtype = TYPE_I ∨ curtype = TYPE_L then some .image
  else if curtype = TYPE_A then some .ascii
  else none

inductive Progress
  | unsent
  | sent
  | answered (d : ℤ)
  deriving DecidableEq

/-- What is of interest in a run: the connection in use gets its defaults, or a TYPE goes to it
(`talks` if it can, with `curtype` and what is owed before), and the code may be left, by a jump or
with the run, before the variables are set (`cut`); the server begins a transfer; and a file is read
or written by a `codec`. -/
inductive Entry
  | opening (curtype : ℕ) (cut : Bool)
  | type (talks : Bool) (curtype : ℕ) (owed : List Sent) (t : ℕ) (progress : Progress) (cut : Bool)
  | start (connected : Bool) (curtype served : ℕ)
  | coding (standing : Bool) (curtype : ℕ) (served : Option ℕ) (codec : Option Codec)
  deriving DecidableEq

structure Client where
  cur : Vars
  tmpstruct : Vars
  proxstruct : Vars
  proxy : Bool
  servers : List Server
  progress : Progress
  sigint : Handler
  flags : Flags
  input : List Moment
  log : List Entry

def init (input : List Moment) : Client :=
  ⟨.init, .init, .init, false, [], .unsent, .intr, .init, input, []⟩

def Client.other (s : Client) : Vars := if s.proxy then s.tmpstruct else s.proxstruct

def Client.server (s : Client) : Option Server := s.cur.cin.bind (s.servers[·]?)

def Client.owed (s : Client) : List Sent := (s.server.map Server.owed).getD []

def Client.setVars (f : Vars → Vars) (s : Client) : Client := { s with cur := f s.cur }

def Client.setFlags (f : Flags → Flags) (s : Client) : Client := { s with flags := f s.flags }

def Client.note (e : Entry) (s : Client) : Client := { s with log := s.log ++ [e] }

/-! ### SIGINT -/

abbrev M := Act Client Frame

def next : M Moment := fun s =>
  match s.input with
  | [] => (.error none, s)
  | m :: l => (.ok m, { s with input := l })

def set (f : Flags → Flags) : M Unit := modify (Client.setFlags f)

/-- The exchange of `pswitch`. -/
def Client.switch (flag : Bool) (s : Client) : Client :=
  if flag = s.proxy then s
  else if flag then { s with tmpstruct := s.cur, cur := s.proxstruct, proxy := true }
  else { s with proxstruct := s.cur, cur := s.tmpstruct, proxy := false }

/-- The handlers. `mabort` asks whether to continue; in `proxabort` SIGINT waits. -/
def deliver : Handler → M Unit
  | .intr => jump .toplevel
  | .mabort => do
    let m ← next
    set fun f => { f with mflag := f.mflag && m.yes }
    jump .jabort
  | .abortsend => do
    set fun f => { f with mflag := false, abrtflag := false }
    jump .sendabort
  | .abortrecv => do
    set fun f => { f with mflag := false, abrtflag := false }
    jump .recvabort
  | .abortpt => do
    set fun f => { f with ptabflg := true, mflag := false, abrtflag := false }
    jump .ptabort
  | .proxabort => do
    set fun f => { f with abrtflag := false }
    modify (Client.switch true)
    modify (Client.switch false)
    jump .abortprox
  | .cmdabort => do
    set fun f => { f with abrtflag := true }
    whenever (← get).flags.ptflag (jump .ptabort)
  | .psabort => set fun f => { f with abrtflag := true }
  | .ignored => pure ()
  | .default => halt

def point : M Unit := do
  let m ← next
  let s ← get
  whenever m.sigint (deliver s.sigint)

def signal (h : Handler) : M Handler := do
  point
  let s ← get
  modify fun s => { s with sigint := h }
  pure s.sigint

def deliverPending (oldintr : Handler) : M Unit := do
  whenever (← get).flags.abrtflag (deliver oldintr)

/-! ### The control connection -/

def pswitch (flag : Bool) : M Unit := do
  set fun f => { f with abrtflag := false }
  let oldintr ← signal .psabort
  if flag = (← get).proxy then pure ()
  else
    point
    modify (Client.switch flag)
    let _ ← signal oldintr
    whenever (← get).flags.abrtflag do
      set fun f => { f with abrtflag := false }
      deliver oldintr

/-- `cout` is closed and the connection given up. -/
def giveUp : M Unit := do
  whenever (← get).cur.connected do
    modify (Client.setVars fun v => { v with cout := none })
    point
    modify (Client.setVars fun v => { v with connected := false })

def lostpeer : M Unit := do
  giveUp
  pswitch true
  giveUp
  pswitch false

def atEnd (stream : Option ℕ) (f : Server → Server) (servers : List Server) : List Server :=
  match stream with
  | none => servers
  | some k => servers.modify k f

def Client.atServer (stream : Option ℕ) (f : Server → Server) (s : Client) : Client :=
  { s with servers := atEnd stream f s.servers }

/-- A preliminary reply to a transfer: the server begins it. -/
def Client.starts (d : ℤ) (s : Client) : List Entry :=
  match s.server with
  | none => []
  | some v =>
    if d = PRELIM ∧ v.owed.head? = some .transfer then
      [.start s.cur.connected s.cur.curtype v.served] else []

def Client.hear (d : ℤ) (s : Client) : Client :=
  { s.atServer s.cur.cin (Server.answer d) with
    log := s.log ++ s.starts d, progress := .answered d }

/-- The end of the connection is read, of which `getreply` makes `d`. -/
def Client.hangUp (d : ℤ) (s : Client) : Client :=
  { s.atServer s.cur.cin Server.hangUp with progress := .answered d }

/-- What comes while `getreply` reads, with `cmdabort` as the handler. -/
def listen : M Reply := do
  let m ← next
  whenever m.sigint (deliver .cmdabort)
  pure m.reply

def closed (expecteof : Bool) (oldintr : Handler) : M ℤ := do
  if expecteof then
    modify (Client.hangUp 0)
    let _ ← signal oldintr
    pure 0
  else
    modify (Client.hangUp 4)
    lostpeer
    set fun f => { f with code := 421 }
    pure 4

def line (oldintr : Handler) (l : Line) : M ℤ := do
  modify (Client.hear l.digit)
  set fun f => { f with code := l.code }
  whenever (l.digit ≠ PRELIM) (modify (Client.setVars fun v => { v with cpend := false }))
  let _ ← signal oldintr
  whenever (l.code = 421) lostpeer
  whenever (oldintr ≠ .cmdabort ∧ oldintr ≠ .ignored) (deliverPending oldintr)
  pure l.digit

def getreply (expecteof : Bool) : M ℤ := do
  let oldintr ← signal .cmdabort
  if (← get).cur.cin = none then halt
  else
    match ← listen with
    | .eof => closed expecteof oldintr
    | .line l => line oldintr l

def Client.send (c : Sent) (s : Client) : Client :=
  { s.atServer s.cur.cout (Server.receive c) with progress := .sent }

def command (c : Sent) (quit : Bool) : M ℤ := do
  set fun f => { f with abrtflag := false }
  if (← get).cur.cout = none then pure 0
  else
    let oldintr ← signal .cmdabort
    modify (Client.send c)
    modify (Client.setVars fun v => { v with cpend := true })
    let r ← getreply quit
    whenever (oldintr ≠ .ignored) (deliverPending oldintr)
    let _ ← signal oldintr
    pure r

/-- The code after `x` is not reached. -/
def left {α : Type} : Except (Option Frame) α → Bool
  | .ok _ => false
  | .error _ => true

/-- `settype` and `changetype` after the choice of the type; with `wanted` it is the one for the
transfers, too. -/
def record (t : ℕ) (wanted : Bool) : M Unit := do
  let r ← command (.type t) false
  whenever (r = COMPLETE) do
    whenever wanted do
      point
      modify (Client.setVars fun v => { v with type := t })
    point
    modify (Client.setVars fun v => { v with curtype := t })

def Client.talks (s : Client) : Bool := s.cur.connected && s.cur.cout.isSome

/-- The note of a TYPE that began in the state `s`. -/
def Client.noteType (s : Client) (t : ℕ) (cut : Bool) (s' : Client) : Client :=
  s'.note (.type s.talks s.cur.curtype s.owed t s'.progress cut)

/-- `record`, and the note of it. -/
def sendType (t : ℕ) (wanted : Bool) : M Unit := fun s =>
  match record t wanted { s with progress := .unsent } with
  | (r, s') => (r, s.noteType t (left r) s')

def disconnect : M Unit := do
  whenever (← get).cur.connected do
    let _ ← command .other true
    modify (Client.setVars fun v => { v with cout := none })
    point
    modify (Client.setVars fun v => { v with connected := false })

/-- A connection stands; `cin` is the stream from it. -/
def Client.accept (s : Client) : Client :=
  { s with servers := s.servers ++ [.new], cur := { s.cur with cin := some s.servers.length } }

def hookup : M Bool := do
  if (← next).yes then
    modify Client.accept
    point
    modify (Client.setVars fun v => { v with cout := v.cin })
    let r ← getreply false
    if COMPLETE < r then
      modify (Client.setVars fun v => { v with cin := none, cout := none })
      pure false
    else pure true
  else pure false

/-- The defaults of `setpeer`. -/
def defaults : M Unit := do
  modify (Client.setVars fun v => { v with connected := true })
  point
  modify (Client.setVars fun v => { v with type := TYPE_A })
  point
  modify (Client.setVars fun v => { v with curtype := TYPE_A })

/-- `defaults`, and the note of it. -/
def opening : M Unit := fun s =>
  match defaults s with
  | (r, s') => (r, s'.note (.opening s.cur.curtype (left r)))

def connect : M Bool := do
  if ← hookup then
    point
    opening
    pure true
  else pure false

/-- `setpeer` up to the login. -/
def setpeer : M Bool := do
  if (← get).cur.connected then
    let r ← command .other false
    if r = COMPLETE then pure false
    else
      disconnect
      connect
  else connect

def Client.standing (s : Client) : Bool := s.cur.connected && s.server.isSome

/-- The `switch` over `curtype`. -/
def coding : M (Option Codec) := do
  let s ← get
  modify
    (Client.note
      (.coding s.standing s.cur.curtype (s.server.map Server.served) (codec s.cur.curtype)))
  pure (codec s.cur.curtype)

/-- What `abort_remote` writes. -/
def abor : M Unit := do
  if (← get).cur.cout = none then halt else modify (Client.send .other)

/-! ### Operations -/

/-- What the commands are made of. `command` is one that is neither TYPE nor a transfer. -/
inductive Op
  | state
  | ask
  | set (f : Flags → Flags)
  | want (t : ℕ)
  | signal (h : Handler)
  | pswitch (flag : Bool)
  | lostpeer
  | getreply
  | command
  | transfer
  | abor
  | sendType (t : ℕ) (wanted : Bool)
  | disconnect
  | setpeer
  | coding

@[reducible] def Op.answer : Op → Type
  | .state => Client
  | .ask => Bool
  | .signal _ => Handler
  | .getreply | .command | .transfer => ℤ
  | .setpeer => Bool
  | .coding => Option Codec
  | _ => Unit

def act : (o : Op) → M o.answer
  | .state => get
  | .ask => do
    let m ← next
    pure m.yes
  | .set f => set f
  | .want t => modify (Client.setVars fun v => { v with type := t })
  | .signal h => signal h
  | .pswitch flag => pswitch flag
  | .lostpeer => lostpeer
  | .getreply => getreply false
  | .command => command .other false
  | .transfer => command .transfer false
  | .abor => abor
  | .sendType t wanted => sendType t wanted
  | .disconnect => disconnect
  | .setpeer => setpeer
  | .coding => coding

def exec (o : Op) : M o.answer := do
  point
  act o

abbrev P := Prog Op.answer Frame

def call (o : Op) : P o.answer := perform o

def vars : P Vars := do
  let s ← call .state
  pure s.cur

def flags : P Flags := do
  let s ← call .state
  pure s.flags

def ask : P Bool := call .ask

def isProxy : P Bool := do
  let s ← call .state
  pure s.proxy

end Inetutils.Ftp.Interrupts
