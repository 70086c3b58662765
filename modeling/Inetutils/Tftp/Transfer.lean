import Inetutils.Lib.Datagrams
import Inetutils.Tftp.Buffers

/-! # The two ends of a transfer

`send_file` and `recvfile` of `src/tftpd.c` and of `src/tftp.c`, as machines that take a datagram or
a signal of the timer. What the two programs do differently is in `SendProg` and `RecvProg`. Reading
never fails, and `int` does not overflow.

A request goes to the port of the daemon and not to the one of these functions, so it is never on
their link. -/

namespace Inetutils.Tftp.Transfer

open Lib.Blocks Lib.Datagrams
open Proto Subs Buffers

/-- `th_block` is an `unsigned short`. -/
inductive Packet
  | request
  | data (block : UInt16) (bytes : List Byte)
  | ack (block : UInt16)
  | error
  deriving DecidableEq

/-- The cast to `unsigned short`. -/
def ushort (n : ℤ) : UInt16 := UInt16.ofInt n

/-- `th_block` of a data packet. -/
def Packet.dataBlock : Packet → Option UInt16
  | .data b _ => some b
  | _ => none

/-- In the loop, waiting for the last time after it, at the end, or at the end before the file is
complete. -/
inductive Phase
  | waiting
  | left
  | closed
  | aborted
  deriving DecidableEq

/-- The mode, the variables of the timer, and the length of the request in the place of `size`. -/
structure Config where
  convert : Bool
  rexmtval : ℕ
  maxtimeout : ℕ
  requestSize : ℤ

/-! ### `send_file` -/

/-- The first `block`, whether block 0 is the request, and how `th_block` of an ACK is compared with
`block` and with `block - 1`. -/
structure SendProg where
  start : ℤ
  request : Bool
  isAck : UInt16 → ℤ → Bool
  isPrev : UInt16 → ℤ → Bool

/-- `send_file` of `tftpd.c` casts both sides. -/
def tftpdSendFile : SendProg where
  start := 1
  request := false
  isAck := fun b block => b == ushort block
  isPrev := fun b block => b == ushort (block - 1)

/-- `send_file` of `tftp.c` compares with the `int`. -/
def tftpSendFile : SendProg where
  start := 0
  request := true
  isAck := fun b block => (b.toNat : ℤ) == block
  isPrev := fun b block => (b.toNat : ℤ) == block - 1

/-- The packet is a value: nothing is written into the buffer in use while it is sent again. -/
structure Sender where
  block : ℤ
  size : ℤ
  dp : Packet
  bufs : Bufs
  file : List Byte
  timeout : ℕ
  phase : Phase

/-- From the top of the loop to `sigsetjmp`. -/
def Sender.top (prog : SendProg) (cfg : Config) (s : Sender) : Sender :=
  if prog.request ∧ s.block = 0 then
    { s with size := cfg.requestSize, dp := .request, timeout := 0 }
  else
    let (bufs, file) := readit cfg.convert s.bufs s.file
    { s with
      bufs := bufs
      file := file
      size := bufs.dp.counter
      dp := .data (ushort s.block) (bufs.dp.data.take bufs.dp.counter.toNat)
      timeout := 0 }

/-- From `send_data` on. -/
def Sender.sendData (cfg : Config) (s : Sender) : Sender × List Packet :=
  let (bufs, file) := readAhead cfg.convert s.bufs s.file
  ({ s with bufs := bufs, file := file }, [s.dp])

def Sender.start (prog : SendProg) (cfg : Config) (bufs : Bufs) (content : List Byte) :
    Sender × List Packet :=
  let s : Sender := ⟨prog.start, 0, .request, rInit bufs, content, 0, .waiting⟩
  (s.top prog cfg).sendData cfg

/-- A datagram was read; whether `synchnet` is called. -/
def Sender.recv (prog : SendProg) (cfg : Config) (s : Sender) (ap : Packet) :
    (Sender × List Packet) × Bool :=
  match ap with
  | .error => (({ s with phase := .aborted }, []), false)
  | .ack b =>
    if prog.isAck b s.block then
      let s : Sender := { s with block := s.block + 1 }
      if s.size = SEGSIZE ∨ prog.request ∧ s.block = 1 then ((s.top prog cfg).sendData cfg, false)
      else (({ s with phase := .closed }, []), false)
    else if prog.isPrev b s.block then (s.sendData cfg, true)
    else ((s, []), true)
  | _ => ((s, []), false)

def Sender.timer (cfg : Config) (s : Sender) : Sender × List Packet :=
  let s := { s with timeout := s.timeout + cfg.rexmtval }
  if cfg.maxtimeout ≤ s.timeout then ({ s with phase := .aborted }, []) else s.sendData cfg

/-! ### `recvfile` -/

/-- Whether the first packet is the request, as in `tftp.c`; the function of `tftpd.c` instead waits
once more after its last ACK. -/
structure RecvProg where
  request : Bool

def tftpdRecvfile : RecvProg := ⟨false⟩

def tftpRecvfile : RecvProg := ⟨true⟩

/-- `heads` is what stands in the header of each buffer: `th_block`, if it is the one of a data
packet. `passed` is what was given to `writeit`. -/
structure Receiver where
  block : ℤ
  ackbuf : Packet
  bufs : Bufs
  heads : Bool → Option UInt16
  file : WFile
  passed : List (List Byte)
  timeout : ℕ
  phase : Phase

/-- From the top of the loop to `sigsetjmp`, the first time of `tftp.c` apart. -/
def Receiver.top (r : Receiver) : Receiver :=
  { r with ackbuf := .ack (ushort r.block), block := r.block + 1, timeout := 0 }

/-- From `send_ack` on; the end of the function has the same steps. -/
def Receiver.sendAck (cfg : Config) (r : Receiver) : Receiver × List Packet :=
  let (bufs, file) := writeBehind cfg.convert r.bufs r.file
  ({ r with bufs := bufs, file := file }, [r.ackbuf])

def Receiver.start (prog : RecvProg) (cfg : Config) (bufs : Bufs) : Receiver × List Packet :=
  let r : Receiver := ⟨1, .request, wInit bufs, fun _ => none, WFile.empty, [], 0, .waiting⟩
  if prog.request then r.sendAck cfg else ({ r with block := 0 } : Receiver).top.sendAck cfg

def Receiver.leave (prog : RecvProg) (cfg : Config) (r : Receiver) : Receiver × List Packet :=
  ({ r with
    ackbuf := .ack (ushort r.block)
    phase := if prog.request then .closed else .left }).sendAck cfg

/-- A datagram was read in the loop; whether `synchnet` is called. -/
def Receiver.recv (prog : RecvProg) (cfg : Config) (r : Receiver) (p : Packet) :
    (Receiver × List Packet) × Bool :=
  let r := { r with heads := fun i => if i = r.bufs.current then p.dataBlock else r.heads i }
  match p with
  | .error =>
    if prog.request then
      (({ r with ackbuf := .ack (ushort r.block), phase := .aborted } : Receiver).sendAck cfg,
        false)
    else (({ r with phase := .aborted }, []), false)
  | .data b bytes =>
    let r := { r with bufs := r.bufs.receive bytes }
    if (b.toNat : ℤ) = r.block then
      let (bufs, file) := writeit cfg.convert r.bufs r.file bytes.length
      let r := { r with bufs := bufs, file := file, passed := r.passed ++ [bytes] }
      if bytes.length = SEGSIZE then (r.top.sendAck cfg, false) else (r.leave prog cfg, false)
    else if (b.toNat : ℤ) = r.block - 1 then (r.sendAck cfg, true)
    else ((r, []), true)
  | _ => ((r, []), false)

/-- The datagram read after the loop: the test is on the header in the buffer of `dp`. -/
def Receiver.recvLast (r : Receiver) : Receiver × List Packet :=
  ({ r with phase := .closed },
    match r.heads r.bufs.current with
    | some b => if r.block = b.toNat then [r.ackbuf] else []
    | none => [])

def Receiver.timer (cfg : Config) (r : Receiver) : Receiver × List Packet :=
  let r := { r with timeout := r.timeout + cfg.rexmtval }
  if cfg.maxtimeout ≤ r.timeout then ({ r with phase := .aborted }, []) else r.sendAck cfg

/-! ### Both ends -/

structure Setup where
  send : SendProg
  recv : RecvProg

def download : Setup := ⟨tftpdSendFile, tftpRecvfile⟩

def upload : Setup := ⟨tftpSendFile, tftpdRecvfile⟩

structure Pair where
  sender : Sender
  receiver : Receiver
  toReceiver : Link Packet
  toSender : Link Packet

inductive Event
  | toReceiver (e : Net)
  | toSender (e : Net)
  | senderRecv
  | receiverRecv
  | senderTimer
  | receiverTimer

def posted (ps : List Packet) : List Packet := ps.filter (· ≠ .request)

def Pair.start (su : Setup) (cfg : Config) (b b' : Bufs) (content : List Byte) : Pair :=
  let (sender, out) := Sender.start su.send cfg b content
  let (receiver, out') := Receiver.start su.recv cfg b'
  ⟨sender, receiver, Link.empty.send (posted out), Link.empty.send (posted out')⟩

def Pair.step (su : Setup) (cfg : Config) (p : Pair) : Event → Pair
  | .toReceiver e => { p with toReceiver := p.toReceiver.net e }
  | .toSender e => { p with toSender := p.toSender.net e }
  | .senderRecv =>
    match p.toSender.queue with
    | [] => p
    | ap :: _ =>
      if p.sender.phase = .waiting then
        let ((sender, out), sync) := p.sender.recv su.send cfg ap
        { p with
          sender := sender
          toReceiver := p.toReceiver.send (posted out)
          toSender := p.toSender.take sync }
      else p
  | .receiverRecv =>
    match p.toReceiver.queue with
    | [] => p
    | dp :: _ =>
      if p.receiver.phase = .waiting then
        let ((receiver, out), sync) := p.receiver.recv su.recv cfg dp
        { p with
          receiver := receiver
          toSender := p.toSender.send (posted out)
          toReceiver := p.toReceiver.take sync }
      else if p.receiver.phase = .left then
        let (receiver, out) := p.receiver.recvLast
        { p with
          receiver := receiver
          toSender := p.toSender.send (posted out)
          toReceiver := p.toReceiver.take false }
      else p
  | .senderTimer =>
    if p.sender.phase = .waiting then
      let (sender, out) := p.sender.timer cfg
      { p with sender := sender, toReceiver := p.toReceiver.send (posted out) }
    else p
  | .receiverTimer =>
    if p.receiver.phase = .waiting then
      let (receiver, out) := p.receiver.timer cfg
      { p with receiver := receiver, toSender := p.toSender.send (posted out) }
    else if p.receiver.phase = .left then
      { p with receiver := { p.receiver with phase := .closed } }
    else p

end Inetutils.Tftp.Transfer
