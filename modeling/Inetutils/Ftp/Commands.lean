import Inetutils.Ftp.Interrupts

/-! # The commands of ftp

The commands of `src/cmds.c` that send TYPE or transfer files, with `sendrequest`, `recvrequest`,
`proxtrans`, `initconn` and `abort_remote` of `src/ftp.c`, as programs of the operations on the
control connections. What depends on the arguments, on settings that are not kept here, and on the
calls of the system is asked. A jump to a frame that is gone ends the run. -/

namespace Inetutils.Ftp.Commands

open Lib.Jumps Interrupts
open Pswitch (TypeName)

/-! ### Transfers -/

def settype (p : TypeName) : P Unit := call (.sendType p.type true)

def definite (t : ℕ) : ℕ := if t = 0 then TYPE_I else t

def changetype (newtype : ℕ) : P Unit := do
  if definite newtype = (← vars).curtype then pure () else call (.sendType (definite newtype) false)

def abortRemote : P Unit := do
  call .abor
  if ← ask then pure () else call .lostpeer
  if (← call .getreply) = ERROR ∧ (← flags).code = 552 then
    let _ ← call .getreply
  let _ ← call .getreply

/-- The commands that are tried one after the other, until one is accepted. -/
def offer : ℕ → P Bool
  | 0 => pure false
  | n + 1 => do
    if ← ask then
      if (← call .command) = COMPLETE then pure true else offer n
    else offer n

/-- EPSV, PASV and LPSV, with ABOR after a reply that cannot be read; then the calls of the
system. -/
def passive : P Bool := do
  if ← offer 3 then
    if ← ask then
      let connects ← ask
      pure !connects
    else
      let _ ← call .command
      pure true
  else pure true

/-- EPRT, PORT and LPRT; after an error it may be tried once more without. -/
def active : P Bool := do
  if ← ask then
    if ← ask then
      if ← offer 3 then pure false
      else
        if ← ask then
          let binds ← ask
          pure !binds
        else pure true
    else pure false
  else pure true

/-- It gives `true` if there is no data connection. -/
def initconn : P Bool := do
  if ← ask then
    if ← ask then passive else pure true
  else active

def proxType (s : Client) : ℕ :=
  if s.cur.type = 0 then if s.flags.unixServer ∧ s.flags.unixProxy then TYPE_I else TYPE_A
  else s.cur.type

def abortPending : P Unit := do
  if (← vars).cpend then abortRemote

/-- The end of the label `abort` of `proxtrans`. -/
def proxAbortEnd (oldintr : Handler) : P Unit := do
  abortPending
  call (.pswitch !(← isProxy))
  if (← vars).cpend then
    if ← ask then pure () else call .lostpeer
    let _ ← call .getreply
    let _ ← call .getreply
  if ← isProxy then call (.pswitch false)
  call (.pswitch true)
  let _ ← call (.signal oldintr)

/-- The label `abort` of `proxtrans`. -/
def proxAbort (retr : Bool) (oldintr : Handler) : P Unit := do
  let _ ← call (.signal .ignored)
  call (.set fun f => { f with ptflag := false })
  if (← isProxy) = retr then call (.pswitch !retr)
  if ¬ (← vars).cpend ∧ ¬ (← flags).secndflag then
    if (← call .transfer) ≠ PRELIM then
      call (.pswitch false)
      abortPending
    call (.pswitch true)
    let _ ← call (.signal oldintr)
  else
    abortPending
    call (.pswitch !(← isProxy))
    if ¬ (← vars).cpend ∧ ¬ (← flags).secndflag then
      if (← call .transfer) ≠ PRELIM then
        call (.pswitch false)
        abortPending
        call (.pswitch true)
        let _ ← call (.signal oldintr)
      else proxAbortEnd oldintr
    else proxAbortEnd oldintr

def proxStart (retr : Bool) (oldintr : Handler) : P Unit := do
  if (← call .transfer) ≠ PRELIM then
    let _ ← call (.signal oldintr)
    call (.pswitch true)
  else
    call (.pswitch true)
    call (.set fun f => { f with secndflag := true })
    if (← call .transfer) ≠ PRELIM then proxAbort retr oldintr
    else
      call (.set fun f => { f with ptflag := true })
      let _ ← call .getreply
      call (.pswitch false)
      let _ ← call .getreply
      let _ ← call (.signal oldintr)
      call (.pswitch true)
      call (.set fun f => { f with ptflag := false })

/-- `proxtrans`, of `RETR` or of another command. -/
def proxtrans (retr : Bool) : P Unit := do
  call (.set fun f => { f with secndflag := false })
  let s ← call .state
  if s.cur.curtype ≠ proxType s then changetype (proxType s)
  if (← call .command) ≠ COMPLETE then pure ()
  else
    call (.pswitch false)
    if ¬ (← vars).connected then call (.pswitch true)
    else
      if (← vars).curtype ≠ proxType s then changetype (proxType s)
      if (← call .command) ≠ COMPLETE then call (.pswitch true)
      else
        let oldintr ← call (.signal .abortpt)
        setjmp .ptabort (proxStart retr oldintr) (proxAbort retr oldintr)

def landing (oldintr : Option Handler) : P (Option Handler) := do
  loop do
    if (← vars).cpend then
      let _ ← call .getreply
      pure true
    else pure false
  match oldintr with
  | none => pure none
  | some h =>
    let _ ← call (.signal h)
    pure none

def giveBack (oldintr : Handler) : P (Option Handler) := do
  let _ ← call (.signal oldintr)
  pure none

/-- The label `abort` of `sendrequest`. -/
def abortSend (oldintr : Handler) : P Unit := do
  let _ ← call (.signal oldintr)
  if (← vars).cpend then
    let _ ← call .getreply

/-- `sendrequest` up to the data connection, with the handler that was there before if it goes
on. -/
def openSend : P (Option Handler) := do
  let oldintr ← call (.signal .abortsend)
  setjmp .sendabort (do
    if ← ask then
      if ← initconn then giveBack oldintr else pure (some oldintr)
    else giveBack oldintr) (landing (some oldintr))

def transferSend (oldintr : Handler) : P Unit := do
  if (← call .transfer) ≠ PRELIM then
    let _ ← call (.signal oldintr)
  else
    if ← ask then
      let _ ← call .coding
      let _ ← call .getreply
      let _ ← call (.signal oldintr)
    else abortSend oldintr

/-- With REST; `restarts` are `STOR` and `APPE`. -/
def restartSend (restarts : Bool) (oldintr : Handler) : P Unit := do
  if (← flags).restartPoint ∧ restarts then
    if ← ask then
      let r ← call .command
      call (.set fun f => { f with restartPoint := false })
      if r = CONTINUE then transferSend oldintr
    else call (.set fun f => { f with restartPoint := false })
  else transferSend oldintr

def sendrequest (restarts : Bool) : P Unit := do
  if ← isProxy then proxtrans false
  else
    let v ← vars
    if v.curtype ≠ v.type then changetype v.type
    match ← setjmp .sendabort openSend (landing none) with
    | none => pure ()
    | some oldintr => setjmp .sendabort (restartSend restarts oldintr) (abortSend oldintr)

/-- The label `abort` of `recvrequest`. -/
def abortRecv (oldintr : Handler) : P Unit := do
  let _ ← call (.signal .ignored)
  abortPending
  let _ ← call (.signal oldintr)

def asked (retr : Bool) (v : Vars) : ℕ := if retr then v.type else TYPE_A

def openRecv (retr : Bool) : P (Option Handler) := do
  let oldintr ← call (.signal .abortrecv)
  setjmp .recvabort (do
    if ← ask then
      let v ← vars
      if v.curtype ≠ asked retr v then changetype (asked retr v)
      if ← initconn then giveBack oldintr else pure (some oldintr)
    else giveBack oldintr) (landing (some oldintr))

def transferRecv (oldintr : Handler) : P Unit := do
  if (← call .transfer) ≠ PRELIM then
    let _ ← call (.signal oldintr)
  else
    if ← ask then
      let c ← call .coding
      if c = none ∨ ¬ (← flags).restartPoint ∨ (← ask) then
        let _ ← call (.signal oldintr)
        let _ ← call .getreply
    else abortRecv oldintr

def restartRecv (retr : Bool) (oldintr : Handler) : P Unit := do
  if retr ∧ (← flags).restartPoint then
    if (← call .command) = CONTINUE then transferRecv oldintr
  else transferRecv oldintr

def recvrequest (retr : Bool) : P Unit := do
  if (← isProxy) ∧ retr then proxtrans true
  else
    match ← setjmp .recvabort (openRecv retr) (landing none) with
    | none => pure ()
    | some oldintr => setjmp .recvabort (restartRecv retr oldintr) (abortRecv oldintr)

/-! ### Commands -/

/-- The next line of the list of names, and whether it is empty. -/
def readName : P (Option Bool) := do
  if ← ask then
    let empty ← ask
    pure (some empty)
  else
    call (.set fun f => { f with ftemp := false })
    pure none

/-- `remglob`, of `args` arguments. -/
def remglob (args : ℕ) (doswitch : Bool) : P (Option Bool) := do
  if ¬ (← flags).mflag then
    call (.set fun f => { f with ftemp := false })
    pure none
  else
    if ← ask then
      if (← flags).ftemp then readName
      else
        if ← ask then
          if doswitch then call (.pswitch !(← isProxy))
          times args (recvrequest false)
          if doswitch then call (.pswitch !(← isProxy))
          if ← ask then
            call (.set fun f => { f with ftemp := true })
            readName
          else pure none
        else pure none
    else pure none

def askContinue : P Unit := do
  if ¬ (← flags).mflag then
    let yes ← ask
    call (.set fun f => { f with mflag := f.mflag || yes })

def each (x : P Unit) : P Unit := do
  if (← flags).mflag then
    if ← ask then
      x
      askContinue

/-- The loop over the names that `remglob` gives. -/
def overNames (args : ℕ) (doswitch : P Bool) (x : P Unit) : P Unit :=
  loop do
    match ← remglob args (← doswitch) with
    | none => pure false
    | some empty =>
      if empty then call (.set fun f => { f with mflag := false })
      else each x
      pure true

/-- The commands with several files: SIGINT begins the loop again. -/
def several (body : P Unit) : P Unit := do
  call (.set fun f => { f with mflag := true })
  let oldintr ← call (.signal .mabort)
  setjmp .jabort body body
  let _ ← call (.signal oldintr)
  call (.set fun f => { f with mflag := false })

def mget (args : ℕ) : P Unit := several (overNames args isProxy (recvrequest true))

def mdelete (args : ℕ) : P Unit :=
  several (overNames args (pure false) do
    let _ ← call .command)

/-- Without `proxy` the names are those of local files. -/
def mput (args : ℕ) : P Unit :=
  several do
    if ← isProxy then
      overNames args (pure false) do
        sendrequest (← ask)
    else
      loop do
        if ← ask then
          each (sendrequest (← ask))
          pure true
        else pure false

def mls (args : ℕ) : P Unit :=
  several (times args do
    if (← flags).mflag then
      recvrequest false
      askContinue)

/-- `put` and `append`. -/
def put (restarts : Bool) : P Unit := do
  if ← ask then sendrequest restarts

/-- The end of `getit`. -/
def getit : P Unit := do
  recvrequest true
  call (.set fun f => { f with restartPoint := false })

def get : P Unit := do
  if ← ask then getit

def reget : P Unit := do
  if ← ask then
    let size ← ask
    call (.set fun f => { f with restartPoint := size })
    getit

def newer : P Unit := do
  if ← ask then
    if ← ask then
      if (← call .command) = COMPLETE then
        if ← ask then getit
    else getit

def ls : P Unit := do
  if ← ask then recvrequest false

/-- The command behind another one that was answered with 3xx. -/
def goOn (n : ℤ) : P ℤ := do
  if n = CONTINUE then call .command else pure n

/-- USER, PASS and ACCT; the latter is sent afterwards if it was not asked for. -/
def user : P Unit := do
  let n ← call .command
  let n ← goOn n
  let last ← goOn n
  if last = COMPLETE ∧ n ≠ CONTINUE then
    if ← ask then
      let _ ← call .command

/-- `setpeer`. Autologin is a setting; where the server is a Unix one no type is wanted. -/
def openPeer : P Unit := do
  if ← call .setpeer then
    if ← ask then
      if ← ask then user
    let _ ← call .command
    let unix ← ask
    if ← isProxy then call (.set fun f => { f with unixProxy := unix })
    else call (.set fun f => { f with unixServer := unix })
    if unix then call (.want 0)

def status : P Unit := do
  if ¬ (← isProxy) then
    call (.pswitch true)
    call (.pswitch false)

def reset : P Unit := do
  loop do
    if ← ask then
      let _ ← call .getreply
      pure true
    else pure false
  if ← ask then call .lostpeer

/-- The commands; `other` are those that only send commands to the server, two at most. -/
inductive Command
  | type (p : TypeName)
  | put (restarts : Bool)
  | mput (args : ℕ)
  | get
  | reget
  | newer
  | mget (args : ℕ)
  | ls
  | mls (args : ℕ)
  | mdelete (args : ℕ)
  | user
  | open
  | close
  | restart (zero : Bool)
  | reset
  | status
  | other
  | proxy (c : Command)

def Command.conn : Command → Bool
  | .open | .status | .proxy _ => false
  | _ => true

def doproxy (conn : Bool) (x : P Unit) : P Unit :=
  setjmp .abortprox (do
    let oldintr ← call (.signal .proxabort)
    call (.pswitch true)
    if conn ∧ ¬ (← vars).connected then call (.pswitch false)
    else
      x
      call (.pswitch false)
    let _ ← call (.signal oldintr)) (pure ())

def Command.handler : Command → P Unit
  | .type p => settype p
  | .put restarts => Commands.put restarts
  | .mput args => Commands.mput args
  | .get => Commands.get
  | .reget => Commands.reget
  | .newer => Commands.newer
  | .mget args => Commands.mget args
  | .ls => Commands.ls
  | .mls args => Commands.mls args
  | .mdelete args => Commands.mdelete args
  | .user => Commands.user
  | .open => openPeer
  | .close => call .disconnect
  | .restart zero => call (.set fun f => { f with restartPoint := !zero })
  | .reset => Commands.reset
  | .status => Commands.status
  | .other => do
    let _ ← call .command
    if ← ask then
      let _ ← call .command
  | .proxy c => doproxy c.conn c.handler

/-- `cmdscanner`, with one command after the other. -/
def cmdscanner : List Command → P Unit
  | [] => pure ()
  | c :: l => do
    setjmp .toplevel (do
      if ¬ c.conn ∨ (← vars).connected then
        c.handler
        let _ ← call (.signal .intr)) (pure ())
    cmdscanner l

/-- The client after the commands, or where the input ends. -/
def run (cmds : List Command) (input : List Moment) : Client :=
  ((cmdscanner cmds).run exec (fun s => s.input.length) (init input)).2

end Inetutils.Ftp.Commands
