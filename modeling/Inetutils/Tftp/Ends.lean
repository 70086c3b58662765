import Inetutils.Tftp.Transfer

/-! # What one end does with a datagram

`SenderAt k` and `ReceiverAt k`: the two functions in their loop with `k` blocks done. An ACK that
is accepted takes the sender to the next block or to its end, a block that is accepted takes the
receiver to the next one or out of its loop, and nothing else changes what is done. -/

namespace Inetutils.Tftp.Ends

open Lib.Blocks Lib.Datagrams
open Proto Subs Buffers Transfer

variable {cfg : Config} {l : List Byte} {k : ℕ}

/-- Block `k`, counted from 0, and the packet with it. -/
abbrev segment (l : List Byte) (k : ℕ) : List Byte := block SEGSIZE l k

abbrev dataPacket (l : List Byte) (k : ℕ) : Packet := .data (ushort (k + 1)) (segment l k)

/-! ### The sender -/

/-- The sender has sent block `k` and waits for its ACK. -/
structure SenderAt (cfg : Config) (l : List Byte) (k : ℕ) (s : Sender) : Prop where
  phase : s.phase = .waiting
  block : s.block = k + 1
  dp : s.dp = dataPacket l k
  size : s.size = (segment l k).length
  reads : Reads cfg.convert s.bufs s.file (l.drop (SEGSIZE * (k + 1)))

structure SenderAsks (cfg : Config) (l : List Byte) (s : Sender) : Prop where
  phase : s.phase = .waiting
  block : s.block = 0
  dp : s.dp = .request
  reads : Reads cfg.convert s.bufs s.file l

section
variable {prog : SendProg} {s : Sender}

theorem senderAt_top (hphase : s.phase = .waiting) (hblock : s.block = k + 1)
    (hreads : Reads cfg.convert s.bufs s.file (l.drop (SEGSIZE * k))) :
    SenderAt cfg l k (s.top prog cfg) := by
  obtain ⟨hnext, hdp⟩ := reads_readit hreads
  have hne : ¬ (prog.request ∧ s.block = 0) := fun h => by omega
  rw [Sender.top, if_neg hne]
  refine ⟨hphase, hblock, ?_, ?_, ?_⟩
  · exact congrArg₂ Packet.data (by rw [hblock]) (by rw [hdp, take_filled]; rfl)
  · exact congrArg Bf.counter hdp
  · rw [Nat.mul_succ, ← List.drop_drop]
    exact hnext

theorem senderAt_sendData (h : SenderAt cfg l k s) :
    SenderAt cfg l k (s.sendData cfg).1 ∧ (s.sendData cfg).2 = [dataPacket l k] :=
  ⟨⟨h.phase, h.block, h.dp, h.size, (reads_readAhead h.reads).1⟩, by rw [← h.dp]; rfl⟩

theorem senderAsks_sendData (h : SenderAsks cfg l s) :
    SenderAsks cfg l (s.sendData cfg).1 ∧ (s.sendData cfg).2 = [.request] :=
  ⟨⟨h.phase, h.block, h.dp, (reads_readAhead h.reads).1⟩, by rw [← h.dp]; rfl⟩

theorem senderAt_acked (h : SenderAt cfg l k s) {b : UInt16} (hack : prog.isAck b s.block) :
    (s.recv prog cfg (.ack b)).2 = false ∧
      ((k + 1 < count SEGSIZE l ∧ SenderAt cfg l (k + 1) (s.recv prog cfg (.ack b)).1.1 ∧
          (s.recv prog cfg (.ack b)).1.2 = [dataPacket l (k + 1)]) ∨
        (¬ k + 1 < count SEGSIZE l ∧ (s.recv prog cfg (.ack b)).1.1.phase = .closed ∧
          (s.recv prog cfg (.ack b)).1.2 = [])) := by
  have hone : ¬ (prog.request ∧ s.block + 1 = 1) := fun hr => by have := h.block; omega
  have hfull : s.size = SEGSIZE ↔ k + 1 < count SEGSIZE l := by
    rw [← length_block_eq_iff (by decide), h.size, Nat.cast_inj]
  have hrecv : s.recv prog cfg (.ack b) =
      if k + 1 < count SEGSIZE l then
        ((({ s with block := s.block + 1 } : Sender).top prog cfg).sendData cfg, false)
      else (({ s with block := s.block + 1, phase := .closed }, []), false) := by
    simp only [Sender.recv, hack, if_true, hone, or_false, hfull]
  rw [hrecv]
  split_ifs with hmore
  · have htop : SenderAt cfg l (k + 1) (({ s with block := s.block + 1 } : Sender).top prog cfg) :=
      senderAt_top h.phase (by rw [h.block]; rfl) h.reads
    exact ⟨rfl, .inl ⟨hmore, senderAt_sendData htop⟩⟩
  · exact ⟨rfl, .inr ⟨hmore, rfl, rfl⟩⟩

theorem senderAsks_acked (h : SenderAsks cfg l s) (hprog : prog.request) {b : UInt16}
    (hack : prog.isAck b s.block) :
    (s.recv prog cfg (.ack b)).2 = false ∧ SenderAt cfg l 0 (s.recv prog cfg (.ack b)).1.1 ∧
      (s.recv prog cfg (.ack b)).1.2 = [dataPacket l 0] := by
  have htop : SenderAt cfg l 0 (({ s with block := s.block + 1 } : Sender).top prog cfg) :=
    senderAt_top h.phase (by rw [h.block]; rfl) h.reads
  have hone : prog.request ∧ s.block + 1 = 1 := ⟨hprog, by rw [h.block]; rfl⟩
  have hrecv : s.recv prog cfg (.ack b) =
      ((({ s with block := s.block + 1 } : Sender).top prog cfg).sendData cfg, false) := by
    simp only [Sender.recv, hack, if_true, hone, and_self, or_true]
  rw [hrecv]
  exact ⟨rfl, senderAt_sendData htop⟩

theorem sender_recv_of_not_acked (cfg : Config) {ap : Packet}
    (h : ∀ b, ap = .ack b → ¬ prog.isAck b s.block) :
    ((s.recv prog cfg ap).1.1.phase = .aborted ∧ (s.recv prog cfg ap).1.2 = []) ∨
      (s.recv prog cfg ap).1 = (s, []) ∨ (s.recv prog cfg ap).1 = s.sendData cfg := by
  cases ap with
  | error => exact .inl ⟨rfl, rfl⟩
  | ack b =>
    rw [Sender.recv]
    simp only [h b rfl, Bool.false_eq_true, if_false]
    split_ifs
    · exact .inr (.inr rfl)
    · exact .inr (.inl rfl)
  | request | data b bytes => exact .inr (.inl rfl)

theorem sender_timer (cfg : Config) (s : Sender) :
    ((s.timer cfg).1.phase = .aborted ∧ (s.timer cfg).2 = []) ∨
    ∃ n, s.timer cfg = ({ s with timeout := n } : Sender).sendData cfg := by
  rw [Sender.timer]
  split_ifs
  · exact .inl ⟨rfl, rfl⟩
  · exact .inr ⟨_, rfl⟩

end

/-! ### The receiver -/

/-- The receiver has passed on `k` blocks and waits for the next one. -/
structure ReceiverAt (cfg : Config) (l : List Byte) (k : ℕ) (r : Receiver) : Prop where
  phase : r.phase = .waiting
  block : r.block = k + 1
  passed : r.passed = (List.range k).map (segment l)
  writes : Writes cfg.convert r.bufs r.file r.passed.flatten

/-- The receiver has left its loop with a short block: all was passed on, and all of it is
written. -/
structure ReceiverComplete (cfg : Config) (l : List Byte) (r : Receiver) : Prop where
  phase : r.phase = .left ∨ r.phase = .closed
  passed : r.passed = blocks SEGSIZE l
  file : r.file = (written cfg.convert l).2

section
variable {prog : RecvProg} {r : Receiver}

theorem receiverAt_sendAck (h : ReceiverAt cfg l k r) :
    ReceiverAt cfg l k (r.sendAck cfg).1 ∧ (r.sendAck cfg).2 = [r.ackbuf] :=
  ⟨⟨h.phase, h.block, h.passed, (writes_writeBehind h.writes).1⟩, rfl⟩

theorem writes_receive {s : Bufs} {f : WFile} {convert : Bool} (h : Writes convert s f l)
    (data : List Byte) : Writes convert (s.receive data) f l where
  alloc := by simpa [Bufs.receive, Bufs.setBf, Bufs.dp] using h.alloc
  next := by simpa [Bufs.receive, Bufs.setBf] using h.next

theorem receiverAt_data (prog : RecvProg) (h : ReceiverAt cfg l k r) (hk : k < count SEGSIZE l)
    {b : UInt16} (hb : (b.toNat : ℤ) = r.block) :
    (r.recv prog cfg (.data b (segment l k))).2 = false ∧
      (r.recv prog cfg (.data b (segment l k))).1.2 = [.ack (ushort (k + 1))] ∧
      ((k + 1 < count SEGSIZE l ∧
          ReceiverAt cfg l (k + 1) (r.recv prog cfg (.data b (segment l k))).1.1) ∨
        (¬ k + 1 < count SEGSIZE l ∧
          ReceiverComplete cfg l (r.recv prog cfg (.data b (segment l k))).1.1)) := by
  have hwrites := writes_writeit h.writes (segment l k)
  have hpassed : r.passed ++ [segment l k] = (List.range (k + 1)).map (segment l) := by
    rw [h.passed, List.range_succ, List.map_append]
    rfl
  have hflat : r.passed.flatten ++ segment l k =
      (r.passed ++ [segment l k]).flatten := by simp
  rw [hflat] at hwrites
  -- the receiver with the block passed on
  obtain ⟨r', hr'⟩ : ∃ r' : Receiver, r' = { r with
      heads := fun i => if i = r.bufs.current then some b else r.heads i
      bufs := (writeit cfg.convert (r.bufs.receive (segment l k)) r.file (segment l k).length).1
      file := (writeit cfg.convert (r.bufs.receive (segment l k)) r.file (segment l k).length).2
      passed := r.passed ++ [segment l k] } := ⟨_, rfl⟩
  have hfull : (segment l k).length = SEGSIZE ↔ k + 1 < count SEGSIZE l :=
    length_block_eq_iff (by decide) _ _
  have hrecv : r.recv prog cfg (.data b (segment l k)) =
      if k + 1 < count SEGSIZE l then (r'.top.sendAck cfg, false)
      else (r'.leave prog cfg, false) := by
    simp only [Receiver.recv, hb, if_true, hfull, hr']
    rfl
  rw [hrecv]
  split_ifs with hmore
  · refine ⟨rfl, ?_, .inl ⟨hmore, ?_⟩⟩
    · simp only [Receiver.sendAck, Receiver.top, hr', h.block]
    · refine (receiverAt_sendAck ⟨?_, ?_, ?_, ?_⟩).1
      · rw [hr']; exact h.phase
      · rw [hr']; simp [Receiver.top, h.block]
      · rw [hr']; exact hpassed
      · rw [hr']; exact hwrites
  · have hcount : k + 1 = count SEGSIZE l := by omega
    have hwrites' : Writes cfg.convert r'.bufs r'.file (r.passed ++ [segment l k]).flatten := by
      rw [hr']; exact hwrites
    refine ⟨rfl, ?_, .inr ⟨hmore, ?_, ?_, ?_⟩⟩
    · simp only [Receiver.leave, Receiver.sendAck, hr', h.block]
    · simp only [Receiver.leave, Receiver.sendAck]
      split_ifs
      · exact .inr rfl
      · exact .inl rfl
    · rw [blocks, ← hcount, ← hpassed, hr']
      rfl
    · simp only [Receiver.leave, Receiver.sendAck]
      rw [(writes_writeBehind hwrites').2, hpassed, hcount, ← blocks, flatten_blocks (by decide)]

theorem receiverAt_of_not_data (prog : RecvProg) (h : ReceiverAt cfg l k r) {p : Packet}
    (hp : ∀ b bytes, p = .data b bytes → (b.toNat : ℤ) ≠ r.block) :
    ((r.recv prog cfg p).1.1.phase = .aborted ∧ (r.recv prog cfg p).1.1.passed = r.passed) ∨
      ReceiverAt cfg l k (r.recv prog cfg p).1.1 := by
  cases p with
  | error =>
    left
    rw [Receiver.recv]
    split_ifs <;> exact ⟨rfl, rfl⟩
  | data b bytes =>
    right
    have hw := writes_receive h.writes bytes
    rw [Receiver.recv]
    simp only [hp b bytes rfl, if_false]
    split_ifs
    · refine (receiverAt_sendAck ?_).1
      exact ⟨h.phase, h.block, h.passed, hw⟩
    · exact ⟨h.phase, h.block, h.passed, hw⟩
  | request | ack b => exact .inr ⟨h.phase, h.block, h.passed, h.writes⟩

theorem receiver_timer (cfg : Config) (r : Receiver) :
    ((r.timer cfg).1.phase = .aborted ∧ (r.timer cfg).1.passed = r.passed) ∨
    ∃ n, r.timer cfg = ({ r with timeout := n } : Receiver).sendAck cfg := by
  rw [Receiver.timer]
  split_ifs
  · exact .inl ⟨rfl, rfl⟩
  · exact .inr ⟨_, rfl⟩

end

/-! ### The start -/

theorem senderAt_start (cfg : Config) (bufs : Bufs) (content : List Byte) :
    SenderAt cfg (stream cfg.convert content) 0 (Sender.start tftpdSendFile cfg bufs content).1 ∧
      (Sender.start tftpdSendFile cfg bufs content).2 =
      [dataPacket (stream cfg.convert content) 0] :=
  senderAt_sendData (senderAt_top rfl rfl (reads_rInit cfg.convert bufs content))

theorem senderAsks_start (cfg : Config) (bufs : Bufs) (content : List Byte) :
    SenderAsks cfg (stream cfg.convert content) (Sender.start tftpSendFile cfg bufs content).1 ∧
      (Sender.start tftpSendFile cfg bufs content).2 = [.request] :=
  senderAsks_sendData ⟨rfl, rfl, rfl, reads_rInit cfg.convert bufs content⟩

theorem receiverAt_start (prog : RecvProg) (cfg : Config) (bufs : Bufs) (l : List Byte) :
    ReceiverAt cfg l 0 (Receiver.start prog cfg bufs).1 ∧
      (Receiver.start prog cfg bufs).2 = [if prog.request then .request else .ack (ushort 0)] := by
  rw [Receiver.start]
  split_ifs
  · exact receiverAt_sendAck ⟨rfl, rfl, rfl, writes_wInit cfg.convert bufs⟩
  · exact receiverAt_sendAck ⟨rfl, rfl, rfl, writes_wInit cfg.convert bufs⟩

end Inetutils.Tftp.Ends
