import Inetutils.Tftp.Ends

/-! # Transfers over a channel that loses, duplicates and delays

Every data packet on the way is one of the blocks of the sender with its number (`IsBlock`). As the
numbers of fewer than 65536 blocks are different, the block that the receiver accepts is the next
one, whatever the two links and the two timers do (`transfer_safe`). -/

namespace Inetutils.Tftp.Channel

open Lib.Runs Lib.Blocks Lib.Datagrams List
open Proto Subs Transfer Ends

variable {su : Setup} {cfg : Config} {l : List Byte}

theorem toNat_ushort (n : ℕ) : (ushort n).toNat = n % 65536 := by
  simp [ushort, UInt16.ofInt]
  omega

theorem toNat_ushort_of_lt {n : ℕ} (h : n < 65536) : (ushort n).toNat = n := by
  rw [toNat_ushort, Nat.mod_eq_of_lt h]

/-- If it is a data packet, it has one of the blocks and its number. -/
def IsBlock (l : List Byte) (p : Packet) : Prop :=
  ∀ b bytes, p = .data b bytes → ∃ k < count SEGSIZE l, p = dataPacket l k

variable {k : ℕ}

theorem isBlock_dataPacket (hk : k < count SEGSIZE l) : IsBlock l (dataPacket l k) :=
  fun _ _ _ => ⟨k, hk, rfl⟩

theorem isBlock_request : IsBlock l .request := fun _ _ h => nomatch h

/-! ### The invariant -/

def SenderInv (prog : SendProg) (cfg : Config) (l : List Byte) (s : Sender) : Prop :=
  s.phase ≠ .waiting ∨ (prog.request ∧ SenderAsks cfg l s) ∨ ∃ k < count SEGSIZE l,
    SenderAt cfg l k s

def ReceiverInv (cfg : Config) (l : List Byte) (r : Receiver) : Prop :=
  (r.phase = .aborted ∧ r.passed <+: blocks SEGSIZE l) ∨ ReceiverComplete cfg l r ∨
    ∃ k < count SEGSIZE l, ReceiverAt cfg l k r

structure Inv (su : Setup) (cfg : Config) (l : List Byte) (p : Pair) : Prop where
  sender : SenderInv su.send cfg l p.sender
  receiver : ReceiverInv cfg l p.receiver
  link : LinkAll (IsBlock l) p.toReceiver

/-! ### The sender -/

section
variable {prog : SendProg} {s : Sender}

theorem senderInv_sendData (h : SenderInv prog cfg l s) (hphase : s.phase = .waiting) :
    SenderInv prog cfg l (s.sendData cfg).1 ∧ ∀ p ∈ (s.sendData cfg).2, IsBlock l p := by
  rcases h with h | ⟨hprog, h⟩ | ⟨k, hk, h⟩
  · exact absurd hphase h
  · obtain ⟨hs, hout⟩ := senderAsks_sendData h
    refine ⟨.inr (.inl ⟨hprog, hs⟩), fun p hp => ?_⟩
    rw [hout, mem_singleton] at hp
    exact hp ▸ isBlock_request
  · obtain ⟨hs, hout⟩ := senderAt_sendData h
    refine ⟨.inr (.inr ⟨k, hk, hs⟩), fun p hp => ?_⟩
    rw [hout, mem_singleton] at hp
    exact hp ▸ isBlock_dataPacket hk

theorem senderInv_recv (h : SenderInv prog cfg l s) (hphase : s.phase = .waiting) (ap : Packet) :
    SenderInv prog cfg l (s.recv prog cfg ap).1.1 ∧ ∀ p ∈ (s.recv prog cfg ap).1.2,
    IsBlock l p := by
  by_cases hack : ∃ b, ap = .ack b ∧ prog.isAck b s.block
  · obtain ⟨b, rfl, hack⟩ := hack
    rcases h with h | ⟨hprog, h⟩ | ⟨k, hk, h⟩
    · exact absurd hphase h
    · obtain ⟨-, hs, hout⟩ := senderAsks_acked h hprog hack
      have hpos : 0 < count SEGSIZE l := Nat.succ_pos _
      refine ⟨.inr (.inr ⟨0, hpos, hs⟩), fun p hp => ?_⟩
      rw [hout, mem_singleton] at hp
      exact hp ▸ isBlock_dataPacket hpos
    · obtain ⟨-, ⟨hmore, hs, hout⟩ | ⟨-, hs, hout⟩⟩ := senderAt_acked h hack
      · refine ⟨.inr (.inr ⟨k + 1, hmore, hs⟩), fun p hp => ?_⟩
        rw [hout, mem_singleton] at hp
        exact hp ▸ isBlock_dataPacket hmore
      · rw [hout]
        exact ⟨.inl (by rw [hs]; decide), fun p hp => nomatch hp⟩
  · have hack' : ∀ b, ap = .ack b → ¬ prog.isAck b s.block := fun b hb h => hack ⟨b, hb, h⟩
    rcases sender_recv_of_not_acked cfg hack' with ⟨hs, hout⟩ | hs | hs
    · rw [hout]
      exact ⟨.inl (by rw [hs]; decide), fun p hp => nomatch hp⟩
    · rw [hs]
      exact ⟨h, fun p hp => nomatch hp⟩
    · rw [hs]
      exact senderInv_sendData h hphase

theorem senderInv_timer (h : SenderInv prog cfg l s) (hphase : s.phase = .waiting) :
    SenderInv prog cfg l (s.timer cfg).1 ∧ ∀ p ∈ (s.timer cfg).2, IsBlock l p := by
  obtain ⟨hs, hout⟩ | ⟨n, hs⟩ := sender_timer cfg s
  · rw [hout]
    exact ⟨.inl (by rw [hs]; decide), fun p hp => nomatch hp⟩
  · rw [hs]
    refine senderInv_sendData ?_ hphase
    rcases h with h | ⟨hprog, h⟩ | ⟨k, hk, h⟩
    · exact .inl h
    · exact .inr (.inl ⟨hprog, h.phase, h.block, h.dp, h.reads⟩)
    · exact .inr (.inr ⟨k, hk, h.phase, h.block, h.dp, h.size, h.reads⟩)

end

/-! ### The receiver -/

section
variable {prog : RecvProg} {r : Receiver}

theorem prefix_of_receiverAt (hk : k < count SEGSIZE l) (h : ReceiverAt cfg l k r) :
    r.passed <+: blocks SEGSIZE l := by
  rw [h.passed, blocks, ← Nat.add_sub_cancel' hk.le, range_add, map_append]
  exact prefix_append _ _

theorem receiverInv_of_aborted {r' : Receiver} (hk : k < count SEGSIZE l) (h : ReceiverAt cfg l k r)
    (hphase : r'.phase = .aborted) (hpassed : r'.passed = r.passed) : ReceiverInv cfg l r' :=
  .inl ⟨hphase, hpassed ▸ prefix_of_receiverAt hk h⟩

theorem receiverInv_recv (hN : count SEGSIZE l < 65536) (hk : k < count SEGSIZE l)
    (h : ReceiverAt cfg l k r) {p : Packet} (hp : IsBlock l p) :
    ReceiverInv cfg l (r.recv prog cfg p).1.1 := by
  by_cases hdata : ∃ b bytes, p = .data b bytes ∧ (b.toNat : ℤ) = r.block
  · obtain ⟨b, bytes, rfl, hb⟩ := hdata
    obtain ⟨j, hj, hpj⟩ := hp b bytes rfl
    obtain ⟨rfl, rfl⟩ := Packet.data.inj hpj
    have hnum : (ushort ((j : ℤ) + 1)).toNat = j + 1 := toNat_ushort_of_lt (n := j + 1) (by omega)
    have hjk : j = k := by
      rw [hnum, h.block] at hb
      omega
    subst hjk
    obtain ⟨-, -, ⟨hmore, hr⟩ | ⟨-, hr⟩⟩ := receiverAt_data prog h hk hb
    · exact .inr (.inr ⟨j + 1, hmore, hr⟩)
    · exact .inr (.inl hr)
  · have hdata' : ∀ b bytes, p = .data b bytes → (b.toNat : ℤ) ≠ r.block :=
      fun b bytes hb h => hdata ⟨b, bytes, hb, h⟩
    obtain ⟨hphase, hpassed⟩ | hr := receiverAt_of_not_data prog h hdata'
    · exact receiverInv_of_aborted hk h hphase hpassed
    · exact .inr (.inr ⟨k, hk, hr⟩)

theorem receiverInv_timer (hk : k < count SEGSIZE l) (h : ReceiverAt cfg l k r) :
    ReceiverInv cfg l (r.timer cfg).1 := by
  obtain ⟨hphase, hpassed⟩ | ⟨n, hr⟩ := receiver_timer cfg r
  · exact receiverInv_of_aborted hk h hphase hpassed
  · rw [hr]
    refine .inr (.inr ⟨k, hk, (receiverAt_sendAck ?_).1⟩)
    exact ⟨h.phase, h.block, h.passed, h.writes⟩

theorem receiverAt_of_waiting (h : ReceiverInv cfg l r) (hphase : r.phase = .waiting) :
    ∃ k < count SEGSIZE l, ReceiverAt cfg l k r := by
  rcases h with ⟨h, -⟩ | h | h
  · rw [hphase] at h
    exact nomatch h
  · rcases h.phase with h | h <;> rw [hphase] at h <;> exact nomatch h
  · exact h

theorem receiverInv_close (h : ReceiverInv cfg l r) (hphase : r.phase = .left) :
    ReceiverInv cfg l { r with phase := .closed } := by
  rcases h with ⟨h, -⟩ | h | ⟨k, hk, h⟩
  · rw [hphase] at h
    exact nomatch h
  · exact .inr (.inl ⟨.inr rfl, h.passed, h.file⟩)
  · have := h.phase
    rw [hphase] at this
    exact nomatch this

end

/-! ### The pair -/

theorem isBlock_posted {ps : List Packet} (h : ∀ p ∈ ps, IsBlock l p) :
    ∀ p ∈ posted ps, IsBlock l p :=
  fun p hp => h p (mem_of_mem_filter hp)

theorem inv_step (hN : count SEGSIZE l < 65536) {p : Pair} (h : Inv su cfg l p) (e : Event) :
    Inv su cfg l (p.step su cfg e) := by
  cases e with
  | toReceiver e => exact ⟨h.sender, h.receiver, linkAll_net h.link e⟩
  | toSender e => exact ⟨h.sender, h.receiver, h.link⟩
  | senderRecv =>
    simp only [Pair.step]
    split
    · exact h
    · rename_i ap queue hq
      split_ifs with hphase
      · obtain ⟨hs, hout⟩ := senderInv_recv h.sender hphase ap
        exact ⟨hs, h.receiver, linkAll_send h.link (isBlock_posted hout)⟩
      · exact h
  | receiverRecv =>
    simp only [Pair.step]
    split
    · exact h
    · rename_i dp queue hq
      have hdp : IsBlock l dp := h.link dp (.inr (hq ▸ mem_cons_self))
      split_ifs with hphase hleft
      · obtain ⟨k, hk, hr⟩ := receiverAt_of_waiting h.receiver hphase
        exact ⟨h.sender, receiverInv_recv hN hk hr hdp, linkAll_take h.link _⟩
      · exact ⟨h.sender, receiverInv_close h.receiver hleft, linkAll_take h.link _⟩
      · exact h
  | senderTimer =>
    simp only [Pair.step]
    split_ifs with hphase
    · obtain ⟨hs, hout⟩ := senderInv_timer h.sender hphase
      exact ⟨hs, h.receiver, linkAll_send h.link (isBlock_posted hout)⟩
    · exact h
  | receiverTimer =>
    simp only [Pair.step]
    split_ifs with hphase hleft
    · obtain ⟨k, hk, hr⟩ := receiverAt_of_waiting h.receiver hphase
      exact ⟨h.sender, receiverInv_timer hk hr, h.link⟩
    · exact ⟨h.sender, receiverInv_close h.receiver hleft, h.link⟩
    · exact h

theorem inv_start (hsu : su = download ∨ su = upload) (cfg : Config) (b b' : Bufs)
    (content : List Byte) :
    Inv su cfg (stream cfg.convert content) (Pair.start su cfg b b' content) := by
  have hpos : 0 < count SEGSIZE (stream cfg.convert content) := Nat.succ_pos _
  have hr : ReceiverInv cfg (stream cfg.convert content) (Receiver.start su.recv cfg b').1 :=
    .inr (.inr ⟨0, hpos, (receiverAt_start _ _ _ _).1⟩)
  rcases hsu with rfl | rfl
  · obtain ⟨hs, hout⟩ := senderAt_start cfg b content
    refine ⟨.inr (.inr ⟨0, hpos, hs⟩), hr,
      linkAll_send linkAll_empty (isBlock_posted fun p hp => ?_)⟩
    change p ∈ (Sender.start tftpdSendFile cfg b content).2 at hp
    rw [hout, mem_singleton] at hp
    exact hp ▸ isBlock_dataPacket hpos
  · obtain ⟨hs, hout⟩ := senderAsks_start cfg b content
    refine ⟨.inr (.inl ⟨rfl, hs⟩), hr, linkAll_send linkAll_empty (isBlock_posted fun p hp => ?_)⟩
    change p ∈ (Sender.start tftpSendFile cfg b content).2 at hp
    rw [hout, mem_singleton] at hp
    exact hp ▸ isBlock_request

/-- **What the receiver passes on is at every moment a prefix of the blocks**, and all of them,
written to the file, once it has left its loop. -/
theorem transfer_safe (hsu : su = download ∨ su = upload) (cfg : Config) (b b' : Bufs)
    (content : List Byte) (hN : count SEGSIZE (stream cfg.convert content) < 65535)
    (events : List Event) :
    let r := (run (Pair.step su cfg) (Pair.start su cfg b b' content) events).receiver
    r.passed <+: blocks SEGSIZE (stream cfg.convert content) ∧
      (r.phase = .left ∨ r.phase = .closed →
        r.passed = blocks SEGSIZE (stream cfg.convert content) ∧ r.file = WFile.at content) := by
  intro r
  have hrun : Inv su cfg (stream cfg.convert content)
      (run (Pair.step su cfg) (Pair.start su cfg b b' content) events) :=
    run_keeps (I := Inv su cfg (stream cfg.convert content))
      (fun p e hp => inv_step (by omega) hp e)
      events (inv_start hsu cfg b b' content)
  have hinv : ReceiverInv cfg (stream cfg.convert content) r := hrun.receiver
  rcases hinv with ⟨hphase, hpre⟩ | h | ⟨k, hk, h⟩
  · refine ⟨hpre, fun hleft => ?_⟩
    rw [hphase] at hleft
    rcases hleft with h | h <;> exact nomatch h
  · rw [h.passed, h.file, written_stream]
    exact ⟨prefix_rfl, fun _ => ⟨rfl, rfl⟩⟩
  · refine ⟨prefix_of_receiverAt hk h, fun hleft => ?_⟩
    rw [h.phase] at hleft
    rcases hleft with h | h <;> exact nomatch h

/-- A file of one byte, with the block duplicated and both copies delivered. -/
theorem transfer_safe_twice :
    let b : Bufs := ⟨fun _ => ⟨0, []⟩, false, false, false, none⟩
    let events : List Event := [.toReceiver (.duplicate 0), .toReceiver (.deliver 0), .receiverRecv,
      .toReceiver (.deliver 0), .receiverRecv]
    let r :=
      (run (Pair.step download ⟨false, 5, 25, 9⟩) (Pair.start download ⟨false, 5, 25, 9⟩ b b [65])
      events).receiver
    r.passed = [[65]] ∧ r.file = WFile.at [65] :=
  (transfer_safe (.inl rfl : download = download ∨ download = upload) ⟨false, 5, 25, 9⟩ _ _
    [65] (by decide)
    [.toReceiver (.duplicate 0), .toReceiver (.deliver 0), .receiverRecv, .toReceiver (.deliver 0),
      .receiverRecv]).2 (.inr (by decide))

end Inetutils.Tftp.Channel
