import Inetutils.Lib.Mealy
import Inetutils.Tftp.Transfer

/-! # The last acknowledgement of `recvfile`

`recvfile` of `src/tftpd.c` with the headers in its two buffers byte by byte: `recv` writes as many
bytes as it got, `ntohs` turns the fields in place, and `writeit` passes the other buffer. What is
written to the file does not matter here. A datagram is what `recv` got of it.

The datagram that is read after the last acknowledgement goes into `buf`, and the test after it
looks at `dp`, the buffer that would have been filled next: the header of the block before the last
one is there, or none. -/

namespace Inetutils.Tftp.FinalAck

open Lib.Runs Lib.Mealy Proto
open Transfer (Phase Packet ushort)

abbrev DATA : ℕ := 3
abbrev ERROR : ℕ := 5

/-! ### The headers -/

/-- The two bytes of a `short` in memory. -/
structure Short where
  first : Byte
  second : Byte
  deriving DecidableEq

/-- What the machine reads there; `le`: the lower byte is the first. -/
def Short.value (le : Bool) (x : Short) : ℕ :=
  if le then x.first.toNat + 256 * x.second.toNat else 256 * x.first.toNat + x.second.toNat

/-- `x = ntohs (x);` -/
def Short.ntohs (le : Bool) (x : Short) : Short := if le then ⟨x.second, x.first⟩ else x

/-- `x = htons (n);` -/
def htons (n : ℕ) : Short := ⟨(n / 256).toUInt8, n.toUInt8⟩

structure Header where
  opcode : Short
  block : Short
  deriving DecidableEq

def Header.overlay (h : Header) (d : List Byte) : Header :=
  ⟨⟨d.getD 0 h.opcode.first, d.getD 1 h.opcode.second⟩,
    ⟨d.getD 2 h.block.first, d.getD 3 h.block.second⟩⟩

def Header.ntohs (le : Bool) (h : Header) : Header := ⟨h.opcode.ntohs le, h.block.ntohs le⟩

def Header.unused : Header := ⟨⟨0, 0⟩, ⟨0, 0⟩⟩

/-! ### `recvfile` -/

/-- `dp` points to the buffer `current`. -/
structure Receiver where
  block : ℕ
  ackbuf : Header
  heads : Bool → Header
  current : Bool
  timeout : ℕ
  phase : Phase

structure Timing where
  rexmtval : ℕ
  maxtimeout : ℕ

/-- What ends a `recv`: a datagram, `late` if the timer strikes before `alarm (0)`; an error; or the
timer. `sent`: whether a `sendto` that follows succeeds. -/
inductive Event
  | datagram (d : List Byte) (late sent : Bool)
  | error
  | timer (sent : Bool)

/-- From the top of the loop to `sigsetjmp`. -/
def Receiver.top (r : Receiver) : Receiver :=
  { r with timeout := 0, ackbuf := ⟨htons 4, htons r.block⟩, block := r.block + 1 }

/-- From `send_ack` to `recv`. -/
def Receiver.sendAck (r : Receiver) (sent : Bool) : Receiver × List Header :=
  ({ r with phase := if sent then r.phase else .aborted }, [r.ackbuf])

def Receiver.start (sent : Bool) : Receiver :=
  ((⟨0, .unused, fun _ => .unused, false, 0, .waiting⟩ : Receiver).top.sendAck sent).1

def Receiver.timer (cfg : Timing) (r : Receiver) (sent : Bool) : Receiver × List Header :=
  if cfg.maxtimeout ≤ r.timeout + cfg.rexmtval then
    ({ r with timeout := r.timeout + cfg.rexmtval, phase := .aborted }, [])
  else ({ r with timeout := r.timeout + cfg.rexmtval } : Receiver).sendAck sent

def Receiver.leave (r : Receiver) : Receiver × List Header :=
  ({ r with ackbuf := ⟨htons 4, htons r.block⟩, phase := .left }, [⟨htons 4, htons r.block⟩])

/-- The header in the buffer of `dp` is replaced. -/
def Receiver.put (r : Receiver) (h : Header) : Receiver :=
  { r with heads := fun i => if i = r.current then h else r.heads i }

/-- `writeit` passes the other buffer. -/
def Receiver.writeit (r : Receiver) : Receiver := { r with current := !r.current }

/-- After `ntohs`, with `n` bytes read. -/
def Receiver.decide (le : Bool) (r : Receiver) (n : ℕ) (sent : Bool) : Receiver × List Header :=
  if (r.heads r.current).opcode.value le = ERROR then ({ r with phase := .aborted }, [])
  else if (r.heads r.current).opcode.value le = DATA then
    if (r.heads r.current).block.value le = r.block then
      if n = SEGSIZE + 4 then r.writeit.top.sendAck sent else r.writeit.leave
    else if (r.heads r.current).block.value le + 1 = r.block then r.sendAck sent
    else (r, [])
  else (r, [])

/-- The datagram read after the loop, into a buffer of its own. -/
def Receiver.recvLast (le : Bool) (r : Receiver) (d : List Byte) : List Header :=
  if 4 ≤ d.length ∧ (r.heads r.current).opcode.value le = DATA ∧
    r.block = (r.heads r.current).block.value le then
    [r.ackbuf]
  else []

def Receiver.step (le : Bool) (cfg : Timing) (r : Receiver) (e : Event) : Receiver × List Header :=
  match r.phase, e with
  | .waiting, .datagram d late sent =>
    if late then (r.put ((r.heads r.current).overlay d)).timer cfg sent
    else (r.put (((r.heads r.current).overlay d).ntohs le)).decide le d.length sent
  | .waiting, .error => ({ r with phase := .aborted }, [])
  | .waiting, .timer sent => r.timer cfg sent
  | .left, .datagram d late _ => ({ r with phase := .closed }, if late then [] else r.recvLast le d)
  | .left, _ => ({ r with phase := .closed }, [])
  | _, _ => (r, [])

def next (le : Bool) (cfg : Timing) (r : Receiver) (e : Event) : Receiver := (r.step le cfg e).1

/-! ### What is asked of it -/

def FinalData (block : ℕ) (d : List Byte) : Prop :=
  ∃ hi lo data, d = 0 :: 3 :: hi :: lo :: data ∧ 256 * hi.toNat + lo.toNat = block

/-! ### The buffer that is not in use -/

/-- What a header of an earlier block, or of none, cannot say. -/
def Stale (le : Bool) (block : ℕ) (h : Header) : Prop :=
  h.opcode.value le = 0 ∨ h.block.value le + 1 = block

/-- While a block is awaited the other buffer is stale, and after the last one so is the buffer of
`dp`. -/
def Inv (le : Bool) (r : Receiver) : Prop :=
  (r.phase = .waiting → Stale le r.block (r.heads !r.current)) ∧
    (r.phase = .left → Stale le r.block (r.heads r.current))

variable {le : Bool} {r : Receiver}

theorem inv_of_phase (h : r.phase ≠ .waiting) (h' : r.phase ≠ .left) : Inv le r :=
  ⟨fun hp => absurd hp h, fun hp => absurd hp h'⟩

@[simp] theorem put_other (h : Header) : (r.put h).heads (!r.current) = r.heads !r.current := by
  simp [Receiver.put]

theorem inv_sendAck (hphase : r.phase = .waiting) (h : Stale le r.block (r.heads !r.current))
    (sent : Bool) :
    Inv le (r.sendAck sent).1 := by
  cases sent with
  | false => exact inv_of_phase (nofun) (nofun)
  | true =>
    refine ⟨fun _ => h, fun hp => ?_⟩
    change r.phase = .left at hp
    rw [hphase] at hp
    exact nomatch hp

theorem inv_timer (hphase : r.phase = .waiting) (h : Stale le r.block (r.heads !r.current))
    (cfg : Timing) (sent : Bool) : Inv le (r.timer cfg sent).1 := by
  unfold Receiver.timer
  split
  · exact inv_of_phase (nofun) (nofun)
  · exact inv_sendAck (r := { r with timeout := _ }) hphase h sent

theorem inv_decide (hphase : r.phase = .waiting) (h : Stale le r.block (r.heads !r.current)) (n : ℕ)
    (sent : Bool) :
    Inv le (r.decide le n sent).1 := by
  have hkeep : Inv le r := ⟨fun _ => h, fun hp => by rw [hphase] at hp; exact nomatch hp⟩
  unfold Receiver.decide
  split
  · exact inv_of_phase (nofun) (nofun)
  split
  · split
    next hblock =>
      -- the block is taken, and the buffers change places
      split
      · refine inv_sendAck (r := r.writeit.top) hphase ?_ sent
        right
        change ((r.heads !!r.current).block.value le) + 1 = r.block + 1
        rw [Bool.not_not, hblock]
      · exact ⟨nofun, fun _ => h⟩
    next =>
      split
      · exact inv_sendAck hphase h sent
      · exact hkeep
  · exact hkeep

theorem inv_next (cfg : Timing) (h : Inv le r) (e : Event) : Inv le (next le cfg r e) := by
  unfold next Receiver.step
  cases hphase : r.phase with
  | waiting =>
    have hst := h.1 hphase
    cases e with
    | datagram d late sent =>
      have hput : ∀ hd, Stale le (r.put hd).block ((r.put hd).heads !(r.put hd).current) :=
        fun hd => by
        change Stale le r.block ((r.put hd).heads !r.current)
        rw [put_other]
        exact hst
      cases late
      · exact inv_decide (r := r.put _) hphase (hput _) _ sent
      · exact inv_timer (r := r.put _) hphase (hput _) cfg sent
    | error => exact inv_of_phase (nofun) (nofun)
    | timer sent => exact inv_timer hphase hst cfg sent
  | left => cases e <;> exact inv_of_phase (nofun) (nofun)
  | closed => exact inv_of_phase (by rw [hphase]; nofun) (by rw [hphase]; nofun)
  | aborted => exact inv_of_phase (by rw [hphase]; nofun) (by rw [hphase]; nofun)

theorem inv_start (sent : Bool) : Inv le (Receiver.start sent) := by
  refine inv_sendAck (r := Receiver.top _) rfl (.inl ?_) sent
  cases le <;> rfl

theorem recvLast_eq_nil (cfg : Timing) (sent : Bool) (l : List Event)
    (hleft : (run (next le cfg) (.start sent) l).phase = .left) (d : List Byte) :
    (run (next le cfg) (.start sent) l).recvLast le d = [] := by
  have hstep : ∀ (r : Receiver) (e : Event), Inv le r → Inv le (next le cfg r e) :=
    fun _ e h => inv_next cfg h e
  have hinv := run_keeps hstep l (inv_start sent)
  rw [Receiver.recvLast, if_neg]
  rintro ⟨-, hop, hblock⟩
  rcases hinv.2 hleft with h | h
  · rw [hop] at h
    exact absurd h (by decide)
  · rw [← hblock] at h
    exact Nat.succ_ne_self _ h

/-- **The last acknowledgement is repeated when it should be, and only then:** just when the
datagram is not the last data packet again. -/
theorem resends_iff (le : Bool) (cfg : Timing) (sent : Bool) (l : List Event)
    (hleft : (run (next le cfg) (.start sent) l).phase = .left) (d : List Byte) :
    ((run (next le cfg) (.start sent) l).recvLast le d =
      [(run (next le cfg) (.start sent) l).ackbuf] ↔
        FinalData (run (next le cfg) (.start sent) l).block d) ↔
      ¬ FinalData (run (next le cfg) (.start sent) l).block d := by
  have hne : ∀ a : Header, ([] : List Header) = [a] ↔ False := fun a => iff_of_false nofun id
  rw [recvLast_eq_nil cfg sent l hleft d, hne, false_iff]

/-- The acknowledgement of a file of one empty block gets lost. -/
theorem resends_iff_single :
    (run (next true ⟨5, 25⟩) (.start true) [.datagram [0, 3, 0, 1] false true]).phase = .left ∧
    ∀ d, ((run (next true ⟨5, 25⟩) (.start true) [.datagram [0, 3, 0, 1] false true]).recvLast true
      d = [(run (next true ⟨5, 25⟩) (.start true) [.datagram [0, 3, 0, 1] false true]).ackbuf] ↔
          FinalData 1 d) ↔ ¬ FinalData 1 d :=
  have hleft : (run (next true ⟨5, 25⟩) (.start true) [.datagram [0, 3, 0, 1] false true]).phase =
    .left := by decide
  ⟨hleft, fun d => resends_iff true ⟨5, 25⟩ true [.datagram [0, 3, 0, 1] false true] hleft d⟩

theorem lost_not_resent : ¬ ∀ (le : Bool) (cfg : Timing) (sent : Bool) (l : List Event),
    (run (next le cfg) (.start sent) l).phase = .left → ∀ d,
      ((run (next le cfg) (.start sent) l).recvLast le d =
        [(run (next le cfg) (.start sent) l).ackbuf] ↔
        FinalData (run (next le cfg) (.start sent) l).block d) := by
  intro h
  have hone := h true ⟨5, 25⟩ true [.datagram [0, 3, 0, 1] false true] (by decide) [0, 3, 0, 1]
  exact absurd (hone.2 ⟨0, 1, [], rfl, rfl⟩) (by decide)

/-! ### Against the receiver of the transfer

Whole packets, as they are in `Transfer`, are a special case: the headers say there what they say
here. -/

/-- A packet on the wire; of a request and of an error only the length matters. -/
def wire : Packet → List Byte
  | .request => [0, 2, 0, 0]
  | .data b bytes => 0 :: 3 :: (b.toNat / 256).toUInt8 :: b.toNat.toUInt8 :: bytes
  | .ack b => [0, 4, (b.toNat / 256).toUInt8, b.toNat.toUInt8]
  | .error => [0, 5, 0, 0]

def Header.dataBlock (le : Bool) (h : Header) : Option UInt16 :=
  if h.opcode.value le = DATA then some (h.block.value le).toUInt16 else none

def Acks (h : Header) (p : Packet) : Prop := ∃ n : ℕ, h = ⟨htons 4, htons n⟩ ∧ p = .ack (ushort n)

structure Agrees (le : Bool) (r : Receiver) (s : Transfer.Receiver) : Prop where
  block : s.block = r.block
  ackbuf : Acks r.ackbuf s.ackbuf
  heads : ∀ i, s.heads i = (r.heads i).dataBlock le
  current : s.bufs.current = r.current
  timeout : s.timeout = r.timeout
  phase : s.phase = r.phase

@[simp] theorem value_ntohs (le : Bool) (x : Short) :
    (x.ntohs le).value le = 256 * x.first.toNat + x.second.toNat := by
  cases le
  · rfl
  · exact add_comm _ _

theorem value_lt (le : Bool) (x : Short) : x.value le < 65536 := by
  have h1 := x.first.toNat_lt
  have h2 := x.second.toNat_lt
  unfold Short.value
  split <;> omega

theorem toNat_bytes (b : UInt16) : 256 * ((b.toNat / 256).toUInt8).toNat + (b.toNat.toUInt8).toNat =
    b.toNat := by
  have hb := b.toNat_lt
  have h1 : ((b.toNat / 256).toUInt8).toNat = b.toNat / 256 % 256 := rfl
  have h2 : (b.toNat.toUInt8).toNat = b.toNat % 256 := rfl
  omega

theorem opcode_wire (le : Bool) (h : Header) (p : Packet) :
    ((h.overlay (wire p)).ntohs le).opcode.value le =
      match p with
      | .request => 2
      | .data _ _ => DATA
      | .ack _ => 4
      | .error => ERROR := by
  refine (value_ntohs le _).trans ?_
  cases p <;> rfl

theorem block_wire (le : Bool) (h : Header) (b : UInt16) (bytes : List Byte) :
    ((h.overlay (wire (.data b bytes))).ntohs le).block.value le = b.toNat :=
  (value_ntohs le _).trans (toNat_bytes b)

theorem dataBlock_wire (le : Bool) (h : Header) (p : Packet) :
    ((h.overlay (wire p)).ntohs le).dataBlock le = p.dataBlock := by
  rw [Header.dataBlock, opcode_wire]
  cases p with
  | data b bytes =>
    rw [if_pos rfl, block_wire]
    exact congrArg some UInt16.ofNat_toNat
  | _ => rfl

section
variable (convert : Bool) (b : Subs.Bufs) (f : Subs.WFile)

@[simp] theorem current_writeBehind : (Subs.writeBehind convert b f).1.current = b.current := by
  unfold Subs.writeBehind
  dsimp only
  split
  · rfl
  split
  · rfl
  · rfl

@[simp] theorem current_writeit (ct : ℤ) :
    (Subs.writeit convert b f ct).1.current = !b.current := by
  unfold Subs.writeit
  dsimp only
  split
  · exact current_writeBehind convert _ f
  · rfl

end

variable {s : Transfer.Receiver}

/-- The same is done: the states agree after it, and what is sent does. -/
def Same (le : Bool) (o : Receiver × List Header) (o' : Transfer.Receiver × List Packet) : Prop :=
  Agrees le o.1 o'.1 ∧ List.Forall₂ Acks o.2 o'.2

theorem Agrees.silent (h : Agrees le r s) : Same le (r, []) (s, []) := ⟨h, .nil⟩

theorem Agrees.sendAck (h : Agrees le r s) (cfg : Transfer.Config) :
    Same le (r.sendAck true) (s.sendAck cfg) :=
  ⟨⟨h.block, h.ackbuf, h.heads, (current_writeBehind _ _ _).trans h.current, h.timeout, h.phase⟩,
    .cons h.ackbuf .nil⟩

theorem Agrees.top (h : Agrees le r s) : Agrees le r.top s.top :=
  ⟨congrArg (· + 1) h.block, ⟨r.block, rfl, by rw [Transfer.Receiver.top, h.block]⟩, h.heads,
    h.current, rfl, h.phase⟩

theorem Agrees.abort (h : Agrees le r s) :
    Same le ({ r with phase := .aborted }, []) ({ s with phase := .aborted }, []) :=
  ⟨⟨h.block, h.ackbuf, h.heads, h.current, h.timeout, rfl⟩, .nil⟩

theorem Agrees.leave (h : Agrees le r s) (cfg : Transfer.Config) :
    Same le r.leave (s.leave Transfer.tftpdRecvfile cfg) := by
  have hack : Acks ⟨htons 4, htons r.block⟩ (.ack (ushort s.block)) :=
    ⟨r.block, rfl, by rw [h.block]⟩
  exact ⟨⟨h.block, hack, h.heads, (current_writeBehind _ _ _).trans h.current, h.timeout, rfl⟩,
    .cons hack .nil⟩

theorem Agrees.timer (h : Agrees le r s) (cfg : Transfer.Config) :
    Same le (r.timer ⟨cfg.rexmtval, cfg.maxtimeout⟩ true) (s.timer cfg) := by
  have hlate : Agrees le { r with timeout := r.timeout + cfg.rexmtval } { s with timeout :=
    s.timeout + cfg.rexmtval } :=
    ⟨h.block, h.ackbuf, h.heads, h.current, congrArg (· + cfg.rexmtval) h.timeout, h.phase⟩
  unfold Receiver.timer Transfer.Receiver.timer
  by_cases hmax : cfg.maxtimeout ≤ r.timeout + cfg.rexmtval
  · rw [if_pos hmax, if_pos (h.timeout ▸ hmax)]
    exact hlate.abort
  · rw [if_neg hmax, if_neg (h.timeout ▸ hmax)]
    exact hlate.sendAck cfg

theorem agrees_start (le : Bool) (cfg : Transfer.Config) (b : Subs.Bufs) :
    Agrees le (.start true) (Transfer.Receiver.start Transfer.tftpdRecvfile cfg b).1 := by
  have hnone : ∀ i : Bool, none = (Header.unused).dataBlock le := by cases le <;> decide
  have hzero : Agrees le ⟨0, ⟨htons 4, htons 0⟩, fun _ => .unused, false, 0, .waiting⟩
      ⟨0, .ack (ushort 0), Subs.wInit b, fun _ => none, Subs.WFile.empty, [], 0, .waiting⟩ :=
    ⟨rfl, ⟨0, rfl, rfl⟩, hnone, rfl, rfl, rfl⟩
  exact (hzero.top.sendAck cfg).1

theorem Agrees.put (h : Agrees le r s) (p : Packet) :
    Agrees le (r.put (((r.heads r.current).overlay (wire p)).ntohs le))
      { s with heads := fun i => if i = s.bufs.current then p.dataBlock else s.heads i } := by
  refine ⟨h.block, h.ackbuf, fun i => ?_, h.current, h.timeout, h.phase⟩
  change (if i = s.bufs.current then p.dataBlock else s.heads i) =
    Header.dataBlock le (if i = r.current then _ else r.heads i)
  rw [h.current]
  split
  · exact (dataBlock_wire le _ p).symm
  · exact h.heads i

theorem Agrees.receive (h : Agrees le r s) (bytes : List Byte) :
    Agrees le r { s with bufs := s.bufs.receive bytes } :=
  ⟨h.block, h.ackbuf, h.heads, h.current, h.timeout, h.phase⟩

theorem Agrees.writeit (h : Agrees le r s) (cfg : Transfer.Config) (n : ℤ)
    (passed : List (List Byte)) :
    Agrees le r.writeit
      { s with
        bufs := (Subs.writeit cfg.convert s.bufs s.file n).1
        file := (Subs.writeit cfg.convert s.bufs s.file n).2
        passed := passed } :=
  ⟨h.block, h.ackbuf, h.heads, (current_writeit _ _ _ _).trans (congrArg (! ·) h.current),
    h.timeout, h.phase⟩

theorem decide_put (h : Header) (n : ℕ) (sent : Bool) :
    (r.put h).decide le n sent =
      if h.opcode.value le = ERROR then ({ r.put h with phase := .aborted }, [])
      else if h.opcode.value le = DATA then
        if h.block.value le = r.block then
          if n = SEGSIZE + 4 then (r.put h).writeit.top.sendAck sent else (r.put h).writeit.leave
        else if h.block.value le + 1 = r.block then (r.put h).sendAck sent
        else (r.put h, [])
      else (r.put h, []) := by
  have hput : (r.put h).heads (r.put h).current = h := if_pos rfl
  rw [Receiver.decide, hput]
  rfl

/-- **A whole packet in the loop.** Both models do the same with it. -/
theorem Agrees.recv (h : Agrees le r s) (hphase : r.phase = .waiting) (cfg : Transfer.Config)
    (p : Packet) :
    Same le (r.step le ⟨cfg.rexmtval, cfg.maxtimeout⟩ (.datagram (wire p) false true))
      (s.recv Transfer.tftpdRecvfile cfg p).1 := by
  have hput := h.put p
  unfold Receiver.step Transfer.Receiver.recv
  rw [hphase]
  dsimp only
  rw [if_neg Bool.false_ne_true, decide_put, opcode_wire]
  cases p with
  | data b bytes =>
    have hlen : (wire (.data b bytes)).length = SEGSIZE + 4 ↔ bytes.length = SEGSIZE :=
      ⟨fun hl => by simp only [wire, List.length_cons] at hl; omega, fun hl => congrArg (· + 4) hl⟩
    have hcast : (b.toNat : ℤ) = s.block ↔ b.toNat = r.block := by rw [h.block, Nat.cast_inj]
    have hcast' : (b.toNat : ℤ) = s.block - 1 ↔ b.toNat + 1 = r.block := by
      rw [h.block]
      omega
    dsimp only
    rw [if_neg (by decide), if_pos rfl, block_wire]
    simp only [hcast, hcast']
    split
    · simp only [hlen]
      split
      · exact ((hput.receive bytes).writeit cfg _ _).top.sendAck cfg
      · exact ((hput.receive bytes).writeit cfg _ _).leave cfg
    split
    · exact (hput.receive bytes).sendAck cfg
    · exact (hput.receive bytes).silent
  | error => exact hput.abort
  | request => exact hput.silent
  | ack b => exact hput.silent

theorem Agrees.recvLast (h : Agrees le r s) (p : Packet) :
    List.Forall₂ Acks (r.recvLast le (wire p)) s.recvLast.2 := by
  have hlen : 4 ≤ (wire p).length := by cases p <;> simp [wire]
  unfold Receiver.recvLast Transfer.Receiver.recvLast
  rw [h.heads, h.current, Header.dataBlock]
  by_cases hop : (r.heads r.current).opcode.value le = DATA
  · rw [if_pos hop]
    have hval := value_lt le (r.heads r.current).block
    have hnat : (((r.heads r.current).block.value le).toUInt16).toNat =
      (r.heads r.current).block.value le :=
      Nat.mod_eq_of_lt hval
    dsimp only
    rw [hnat, h.block]
    by_cases heq : r.block = (r.heads r.current).block.value le
    · rw [if_pos ⟨hlen, hop, heq⟩, if_pos (congrArg _ heq)]
      exact .cons h.ackbuf .nil
    · rw [if_neg fun hall => heq hall.2.2, if_neg fun hz => heq (by omega)]
      exact .nil
  · rw [if_neg hop, if_neg fun hall => hop hall.2.1]
    exact .nil

/-! ### Over whole runs -/

/-- The receiver of `Transfer` with a packet, or with the timer. -/
def packetStep (cfg : Transfer.Config) (s : Transfer.Receiver) :
    Option Packet → Transfer.Receiver × List Packet
  | some p =>
    if s.phase = .waiting then (s.recv Transfer.tftpdRecvfile cfg p).1
    else if s.phase = .left then s.recvLast
    else (s, [])
  | none =>
    if s.phase = .waiting then s.timer cfg
    else if s.phase = .left then ({ s with phase := .closed }, [])
    else (s, [])

def onWire : Option Packet → Event
  | some p => .datagram (wire p) false true
  | none => .timer true

theorem Agrees.close (h : Agrees le r s) :
    Agrees le { r with phase := .closed } { s with phase := .closed } :=
  ⟨h.block, h.ackbuf, h.heads, h.current, h.timeout, rfl⟩

theorem Agrees.step (h : Agrees le r s) (cfg : Transfer.Config) (e : Option Packet) :
    Same le (r.step le ⟨cfg.rexmtval, cfg.maxtimeout⟩ (onWire e)) (packetStep cfg s e) := by
  unfold packetStep onWire Receiver.step
  rw [h.phase]
  cases hphase : r.phase with
  | waiting =>
    cases e with
    | some p =>
      have hsame := h.recv hphase cfg p
      unfold Receiver.step at hsame
      rw [hphase] at hsame
      exact hsame
    | none => exact h.timer cfg
  | left =>
    cases e with
    | some p => exact ⟨h.close, h.recvLast p⟩
    | none => exact h.close.silent
  | closed => cases e <;> exact h.silent
  | aborted => cases e <;> exact h.silent

theorem Agrees.feed (cfg : Transfer.Config) (l : List (Option Packet)) :
    ∀ {r : Receiver} {s : Transfer.Receiver},
    Agrees le r s →
    Same le (Lib.Mealy.feed (Receiver.step le ⟨cfg.rexmtval, cfg.maxtimeout⟩) r (l.map onWire))
      (Lib.Mealy.feed (packetStep cfg) s l) := by
  induction l with
  | nil => exact fun h => h.silent
  | cons e l ih =>
    intro r s h
    obtain ⟨h1, h2⟩ := h.step cfg e
    obtain ⟨h3, h4⟩ := ih h1
    exact ⟨h3, List.rel_append h2 h4⟩

/-- **`recvfile` byte by byte does what it does with packets**, whatever the packets and the
timeouts are: the two agree after them, and the acknowledgements sent are the same. -/
theorem recvfile_refines (le : Bool) (cfg : Transfer.Config) (b : Subs.Bufs)
    (l : List (Option Packet)) :
    Same le (feed (Receiver.step le ⟨cfg.rexmtval, cfg.maxtimeout⟩) (.start true) (l.map onWire))
      (feed (packetStep cfg) (Transfer.Receiver.start Transfer.tftpdRecvfile cfg b).1 l) :=
  (agrees_start le cfg b).feed cfg l

end Inetutils.Tftp.FinalAck
