import Inetutils.Tftp.Channel

/-! # Block numbers

The number of a block has 16 bits on the wire and is an `int` in the loops. `send_file` of `tftpd.c`
casts its counter before it compares, the other three loops do not: so a block is exchanged just
when its number is below 65536 (`exchanged_iff`), and over reliable links a file is transferred, in
whatever order the two ends take their turns, just when it has at most 65535 blocks
(`works_iff`). -/

namespace Inetutils.Tftp.Numbers

open Lib.Runs Lib.Blocks Lib.Datagrams List
open Proto Subs Transfer Ends
open Channel

variable {su : Setup} {cfg : Config} {l : List Byte}

/-! ### One block -/

def bytesOf : Packet → List Byte
  | .data _ bytes => bytes
  | _ => []

/-- The packet that the sender builds is passed on by the receiver, and the ACK for it takes the
sender to the next block. -/
def Exchanged (su : Setup) (cfg : Config) (s : Sender) (r : Receiver) : Prop :=
  (r.recv su.recv cfg (s.top su.send cfg).dp).1.1.passed =
    r.passed ++ [bytesOf (s.top su.send cfg).dp] ∧
    ∃ ack, (r.recv su.recv cfg (s.top su.send cfg).dp).1.2 = [ack] ∧
      ((s.top su.send cfg).recv su.send cfg ack).1.1.block = s.block + 1

variable {s : Sender} {r : Receiver} {b : UInt16} {prog : RecvProg}

theorem top_of_pos (prog : SendProg) (cfg : Config) (h : 0 < s.block) :
    ∃ bytes, (s.top prog cfg).dp = .data (ushort s.block) bytes ∧
    (s.top prog cfg).block = s.block := by
  have hne : ¬ (prog.request ∧ s.block = 0) := fun hr => by omega
  rw [Sender.top, if_neg hne]
  exact ⟨_, rfl, rfl⟩

theorem block_top (prog : SendProg) (s : Sender) : (s.top prog cfg).block = s.block := by
  rw [Sender.top]
  split_ifs <;> rfl

theorem recv_of_eq (prog : RecvProg) (cfg : Config) (h : (b.toNat : ℤ) = r.block)
    (bytes : List Byte) :
    (r.recv prog cfg (.data b bytes)).1.1.passed = r.passed ++ [bytes] ∧
      (r.recv prog cfg (.data b bytes)).1.2 = [.ack (ushort r.block)] := by
  rw [Receiver.recv]
  simp only [h, if_true]
  split_ifs
  · exact ⟨rfl, rfl⟩
  · exact ⟨rfl, rfl⟩

theorem recv_of_ne (h : (b.toNat : ℤ) ≠ r.block) (bytes : List Byte) :
    (r.recv prog cfg (.data b bytes)).1.1.passed = r.passed := by
  rw [Receiver.recv]
  simp only [h, if_false]
  split_ifs <;> rfl

theorem block_recv_of_acked {prog : SendProg} (h : prog.isAck b s.block) :
    (s.recv prog cfg (.ack b)).1.1.block = s.block + 1 := by
  rw [Sender.recv]
  simp only [h, if_true]
  split_ifs
  · exact block_top _ _
  · rfl

theorem isAck_ushort (hsu : su = download ∨ su = upload) {k : ℕ} (hk : k < 65536) :
    su.send.isAck (ushort k) k := by
  rcases hsu with rfl | rfl
  · simp [download, tftpdSendFile]
  · simp [upload, tftpSendFile, toNat_ushort_of_lt hk]

theorem exchanged_iff (hsu : su = download ∨ su = upload) {k : ℕ} (hk : 1 ≤ k) (hs : s.block = k)
    (hr : r.block = k) : Exchanged su cfg s r ↔ k ≤ 65535 := by
  obtain ⟨bytes, hdp, hblock⟩ := top_of_pos su.send cfg (show 0 < s.block by omega)
  rw [Exchanged, hdp, hs]
  constructor
  · rintro ⟨hpassed, -⟩
    by_contra hlt
    have hne : ((ushort (k : ℤ)).toNat : ℤ) ≠ r.block := by
      rw [toNat_ushort, hr]
      omega
    rw [recv_of_ne hne] at hpassed
    simpa using congrArg List.length hpassed
  · intro hle
    have heq : ((ushort (k : ℤ)).toNat : ℤ) = r.block := by
      rw [toNat_ushort_of_lt (by omega), hr]
    obtain ⟨hpassed, hout⟩ := recv_of_eq su.recv cfg heq bytes
    refine ⟨hpassed, .ack (ushort k), by rw [hout, hr], ?_⟩
    rw [← hs, ← hblock]
    exact block_recv_of_acked (by rw [hblock, hs]; exact isAck_ushort hsu (by omega))

/-- Block 65536: its number is 0, and `recvfile` of `tftp.c` compares it with 65536. -/
theorem block_not_exchanged :
    ¬ ∀ (su : Setup), su = download ∨ su = upload → ∀ (cfg : Config) (k : ℕ), 1 ≤ k →
    ∀ (s : Sender) (r : Receiver), s.block = k → r.block = k → Exchanged su cfg s r := by
  intro h
  let b : Bufs := ⟨fun _ => ⟨0, []⟩, false, false, false, none⟩
  let cfg : Config := ⟨false, 5, 25, 9⟩
  let s : Sender := ⟨65536, 0, .request, b, [], 0, .waiting⟩
  let r : Receiver := ⟨65536, .request, b, fun _ => none, WFile.empty, [], 0, .waiting⟩
  have hex := h download (.inl rfl) cfg 65536 (by decide) s r rfl rfl
  exact absurd ((exchanged_iff (.inl rfl) (by decide) rfl rfl).1 hex) (by decide)

/-! ### At most 65535 blocks -/

/-- The counter is ahead of what was passed on, and of a number with 16 bits no more than that. -/
structure Bounded (r : Receiver) : Prop where
  block : r.phase = .waiting → r.block = r.passed.length + 1
  passed : r.passed.length ≤ 65535

theorem bounded_recv (h : Bounded r) (hphase : r.phase = .waiting) (p : Packet) :
    Bounded (r.recv prog cfg p).1.1 := by
  have hblock := h.block hphase
  cases p with
  | error =>
    rw [Receiver.recv]
    split_ifs
    · exact ⟨fun hw => Phase.noConfusion hw, h.passed⟩
    · exact ⟨fun hw => Phase.noConfusion hw, h.passed⟩
  | data b bytes =>
    rw [Receiver.recv]
    dsimp only
    split_ifs with hb hfull
    · have hlt := b.toNat_lt
      refine ⟨fun _ => ?_, ?_⟩
      · simp [Receiver.sendAck, Receiver.top, hblock]
      · simp only [Receiver.sendAck, Receiver.top, length_append, length_singleton]
        omega
    · have hlt := b.toNat_lt
      refine ⟨fun hw => ?_, ?_⟩
      · simp only [Receiver.leave, Receiver.sendAck] at hw
        split_ifs at hw
      · simp only [Receiver.leave, Receiver.sendAck, length_append, length_singleton]
        omega
    · exact ⟨h.block, h.passed⟩
    · exact ⟨h.block, h.passed⟩
  | request | ack b => exact ⟨h.block, h.passed⟩

theorem bounded_step {p : Pair} (h : Bounded p.receiver) (e : Event) :
    Bounded (p.step su cfg e).receiver := by
  cases e with
  | toReceiver | toSender => exact h
  | senderRecv =>
    simp only [Pair.step]
    split
    · exact h
    · split_ifs <;> exact h
  | receiverRecv =>
    simp only [Pair.step]
    split
    · exact h
    · split_ifs with hphase
      · exact bounded_recv h hphase _
      · exact ⟨fun hw => Phase.noConfusion hw, h.passed⟩
      · exact h
  | senderTimer =>
    simp only [Pair.step]
    split_ifs <;> exact h
  | receiverTimer =>
    simp only [Pair.step]
    split_ifs
    · rw [Receiver.timer]
      split_ifs
      · exact ⟨fun hw => Phase.noConfusion hw, h.passed⟩
      · exact ⟨h.block, h.passed⟩
    · exact ⟨fun hw => Phase.noConfusion hw, h.passed⟩
    · exact h

theorem bounded_start (prog : RecvProg) (cfg : Config) (b : Bufs) :
    Bounded (Receiver.start prog cfg b).1 := by
  have h := (receiverAt_start prog cfg b []).1
  exact ⟨fun _ => by rw [h.block, h.passed]; rfl, by rw [h.passed]; decide⟩

/-! ### Reliable links -/

/-- Nothing is lost or sent twice; the two ends and the two links take their turns as they like. -/
def Lossless : Event → Prop
  | .toReceiver (.deliver _) => True
  | .toSender (.deliver _) => True
  | .senderRecv => True
  | .receiverRecv => True
  | _ => False

/-- The whole sequence of blocks was accepted, and both functions are at their end. -/
def Done (l : List Byte) (p : Pair) : Prop :=
  p.receiver.passed = blocks SEGSIZE l ∧ (p.receiver.phase = .left ∨ p.receiver.phase = .closed) ∧
    p.sender.phase = .closed

/-- However a run over reliable links begins, it can be carried on until all is done. -/
def Works (su : Setup) (cfg : Config) (b b' : Bufs) (content : List Byte) : Prop :=
  ∀ es : List Event, (∀ e ∈ es, Lossless e) → ∃ es' : List Event, (∀ e ∈ es', Lossless e) ∧
    Done (stream cfg.convert content)
    (run (Pair.step su cfg) (Pair.start su cfg b b' content) (es ++ es'))

/-- Where a run over reliable links can be: there is one packet on the way until all is done. -/
inductive Stage (su : Setup) (cfg : Config) (l : List Byte) : ℕ → Pair → Prop
  | asked {p : Pair} (hreq : su.send.request) (hs : SenderAsks cfg l p.sender)
      (hr : ReceiverAt cfg l 0 p.receiver) (hto : Holds p.toReceiver [])
      (hfrom : Holds p.toSender [.ack (ushort 0)]) : Stage su cfg l (2 * count SEGSIZE l + 1) p
  | data {p : Pair} {k n : ℕ} (hn : k + n + 1 = count SEGSIZE l) (hs : SenderAt cfg l k p.sender)
      (hr : ReceiverAt cfg l k p.receiver) (hto : Holds p.toReceiver [dataPacket l k])
      (hfrom : Holds p.toSender []) : Stage su cfg l (2 * n + 2) p
  | acked {p : Pair} {k n : ℕ} (hn : k + n + 1 = count SEGSIZE l) (hs : SenderAt cfg l k p.sender)
      (hr : (k + 1 < count SEGSIZE l ∧ ReceiverAt cfg l (k + 1) p.receiver) ∨
        (¬ k + 1 < count SEGSIZE l ∧ ReceiverComplete cfg l p.receiver))
      (hto : Holds p.toReceiver []) (hfrom : Holds p.toSender [.ack (ushort (k + 1))]) :
      Stage su cfg l (2 * n + 1) p
  | done {p : Pair} (hs : p.sender.phase = .closed) (hr : ReceiverComplete cfg l p.receiver)
      (hto : Holds p.toReceiver []) (hfrom : Holds p.toSender []) : Stage su cfg l 0 p

section
variable {p : Pair} {n : ℕ}

variable {ap dp : Packet} {queue : List Packet}

theorem stage_senderRecv (hsu : su = download ∨ su = upload) (hN : count SEGSIZE l ≤ 65535)
    (h : Stage su cfg l n p) (hq : p.toSender.queue = ap :: queue) :
    ∃ m < n, Stage su cfg l m (p.step su cfg .senderRecv) := by
  have hstep (hw : p.sender.phase = .waiting) : p.step su cfg .senderRecv =
      { p with
        sender := (p.sender.recv su.send cfg ap).1.1
        toReceiver := p.toReceiver.send (posted (p.sender.recv su.send cfg ap).1.2)
        toSender := p.toSender.take (p.sender.recv su.send cfg ap).2 } := by
    simp only [Pair.step, hq, hw, if_true]
  cases h with
  | asked hreq hs hr hto hfrom =>
    obtain ⟨hap, htake⟩ := holds_take hfrom hq (p.sender.recv su.send cfg ap).2
    obtain rfl : Packet.ack (ushort 0) = ap := (List.cons.inj hap).1
    have hack : su.send.isAck (ushort 0) p.sender.block := by
      rw [hs.block]
      exact isAck_ushort hsu (k := 0) (by decide)
    obtain ⟨-, hs', hout⟩ := senderAsks_acked hs hreq hack
    have hpos : 0 < count SEGSIZE l := Nat.succ_pos _
    refine ⟨2 * (count SEGSIZE l - 1) + 2, by omega, ?_⟩
    rw [hstep hs.phase]
    refine .data (k := 0) (by omega) hs' hr ?_ htake
    rw [hout]
    exact holds_send hto le_rfl
  | data hn hs hr hto hfrom => exact absurd (holds_take hfrom hq true).1 (cons_ne_nil _ _).symm
  | @acked _ k n hn hs hr hto hfrom =>
    obtain ⟨hap, htake⟩ := holds_take hfrom hq (p.sender.recv su.send cfg ap).2
    obtain rfl : Packet.ack (ushort (k + 1)) = ap := (List.cons.inj hap).1
    have hack : su.send.isAck (ushort (k + 1)) p.sender.block := by
      rw [hs.block]
      exact isAck_ushort hsu (k := k + 1) (by omega)
    rw [hstep hs.phase]
    obtain ⟨-, ⟨hmore, hs', hout⟩ | ⟨hlast, hs', hout⟩⟩ := senderAt_acked hs hack
    · rcases hr with ⟨-, hr⟩ | ⟨hlast, -⟩
      · refine ⟨2 * (n - 1) + 2, by omega, .data (k := k + 1) (by omega) hs' hr ?_ htake⟩
        rw [hout]
        exact holds_send hto le_rfl
      · exact absurd hmore hlast
    · rcases hr with ⟨hmore, -⟩ | ⟨-, hr⟩
      · exact absurd hmore hlast
      · refine ⟨0, by omega, .done hs' hr ?_ htake⟩
        rw [hout]
        exact holds_send hto (Nat.zero_le _)
  | done hs hr hto hfrom => exact absurd (holds_take hfrom hq true).1 (cons_ne_nil _ _).symm

theorem stage_receiverRecv (hN : count SEGSIZE l ≤ 65535) (h : Stage su cfg l n p)
    (hq : p.toReceiver.queue = dp :: queue) :
    ∃ m < n, Stage su cfg l m (p.step su cfg .receiverRecv) := by
  have hstep (hw : p.receiver.phase = .waiting) : p.step su cfg .receiverRecv =
      { p with
        receiver := (p.receiver.recv su.recv cfg dp).1.1
        toSender := p.toSender.send (posted (p.receiver.recv su.recv cfg dp).1.2)
        toReceiver := p.toReceiver.take (p.receiver.recv su.recv cfg dp).2 } := by
    simp only [Pair.step, hq, hw, if_true]
  cases h with
  | @data _ k n hn hs hr hto hfrom =>
    obtain ⟨hdp, htake⟩ := holds_take hto hq (p.receiver.recv su.recv cfg dp).2
    obtain rfl : dataPacket l k = dp := (List.cons.inj hdp).1
    have hb : ((ushort ((k : ℤ) + 1)).toNat : ℤ) = p.receiver.block := by
      rw [hr.block]
      exact congrArg Nat.cast (toNat_ushort_of_lt (n := k + 1) (by omega))
    obtain ⟨-, hout, hr'⟩ := receiverAt_data su.recv hr (by omega) hb
    refine ⟨2 * n + 1, by omega, ?_⟩
    rw [hstep hr.phase]
    refine .acked hn hs hr' htake ?_
    rw [hout]
    exact holds_send hfrom le_rfl
  | asked hreq hs hr hto hfrom => exact absurd (holds_take hto hq true).1 (cons_ne_nil _ _).symm
  | acked hn hs hr hto hfrom => exact absurd (holds_take hto hq true).1 (cons_ne_nil _ _).symm
  | done hs hr hto hfrom => exact absurd (holds_take hto hq true).1 (cons_ne_nil _ _).symm

theorem stage_deliver_receiver (h : Stage su cfg l n p) (i : ℕ) :
    Stage su cfg l n (p.step su cfg (.toReceiver (.deliver i))) := by
  cases h with
  | asked hreq hs hr hto hfrom => exact .asked hreq hs hr (holds_deliver hto i) hfrom
  | data hn hs hr hto hfrom => exact .data hn hs hr (holds_deliver hto i) hfrom
  | acked hn hs hr hto hfrom => exact .acked hn hs hr (holds_deliver hto i) hfrom
  | done hs hr hto hfrom => exact .done hs hr (holds_deliver hto i) hfrom

theorem stage_deliver_sender (h : Stage su cfg l n p) (i : ℕ) :
    Stage su cfg l n (p.step su cfg (.toSender (.deliver i))) := by
  cases h with
  | asked hreq hs hr hto hfrom => exact .asked hreq hs hr hto (holds_deliver hfrom i)
  | data hn hs hr hto hfrom => exact .data hn hs hr hto (holds_deliver hfrom i)
  | acked hn hs hr hto hfrom => exact .acked hn hs hr hto (holds_deliver hfrom i)
  | done hs hr hto hfrom => exact .done hs hr hto (holds_deliver hfrom i)

theorem stage_step (hsu : su = download ∨ su = upload) (hN : count SEGSIZE l ≤ 65535)
    (h : Stage su cfg l n p) {e : Event} (he : Lossless e) :
    ∃ m, Stage su cfg l m (p.step su cfg e) := by
  match e, he with
  | .toReceiver (.deliver i), _ => exact ⟨n, stage_deliver_receiver h i⟩
  | .toSender (.deliver i), _ => exact ⟨n, stage_deliver_sender h i⟩
  | .senderRecv, _ =>
    cases hq : p.toSender.queue with
    | nil => exact ⟨n, by simpa only [Pair.step, hq] using h⟩
    | cons ap queue =>
      obtain ⟨m, -, hm⟩ := stage_senderRecv hsu hN h hq
      exact ⟨m, hm⟩
  | .receiverRecv, _ =>
    cases hq : p.toReceiver.queue with
    | nil => exact ⟨n, by simpa only [Pair.step, hq] using h⟩
    | cons dp queue =>
      obtain ⟨m, -, hm⟩ := stage_receiverRecv hN h hq
      exact ⟨m, hm⟩

theorem stage_turn_sender (hsu : su = download ∨ su = upload) (hN : count SEGSIZE l ≤ 65535)
    (h : Stage su cfg l n p) (hfrom : Holds p.toSender [ap]) :
    ∃ es, (∀ e ∈ es, Lossless e) ∧ ∃ m < n, Stage su cfg l m (run (Pair.step su cfg) p es) := by
  rcases exists_deliver hfrom with hq | hq
  · exact ⟨[.senderRecv], by simp [Lossless], stage_senderRecv hsu hN h hq⟩
  · exact ⟨[.toSender (.deliver 0), .senderRecv], by simp [Lossless],
      stage_senderRecv hsu hN (stage_deliver_sender h 0) hq⟩

theorem stage_turn_receiver (hN : count SEGSIZE l ≤ 65535) (h : Stage su cfg l n p)
    (hto : Holds p.toReceiver [dp]) :
    ∃ es, (∀ e ∈ es, Lossless e) ∧ ∃ m < n, Stage su cfg l m (run (Pair.step su cfg) p es) := by
  rcases exists_deliver hto with hq | hq
  · exact ⟨[.receiverRecv], by simp [Lossless], stage_receiverRecv hN h hq⟩
  · exact ⟨[.toReceiver (.deliver 0), .receiverRecv], by simp [Lossless],
      stage_receiverRecv hN (stage_deliver_receiver h 0) hq⟩

theorem exists_done (hsu : su = download ∨ su = upload) (hN : count SEGSIZE l ≤ 65535)
    (h : Stage su cfg l n p) :
    ∃ es, (∀ e ∈ es, Lossless e) ∧ Done l (run (Pair.step su cfg) p es) := by
  induction n using Nat.strong_induction_on generalizing p with
  | _ n ih =>
    have hgo {es : List Event} (hes : ∀ e ∈ es, Lossless e)
        (hm : ∃ m < n, Stage su cfg l m (run (Pair.step su cfg) p es)) :
        ∃ es, (∀ e ∈ es, Lossless e) ∧ Done l (run (Pair.step su cfg) p es) := by
      obtain ⟨m, hm, hstage⟩ := hm
      obtain ⟨es', hes', hdone⟩ := ih m hm hstage
      refine ⟨es ++ es', ?_, by rwa [run_append]⟩
      rintro e he
      exact (mem_append.1 he).elim (hes e) (hes' e)
    cases h with
    | asked hreq hs hr hto hfrom =>
      obtain ⟨es, hes, hm⟩ := stage_turn_sender hsu hN (.asked hreq hs hr hto hfrom) hfrom
      exact hgo hes hm
    | data hn hs hr hto hfrom =>
      obtain ⟨es, hes, hm⟩ := stage_turn_receiver hN (.data hn hs hr hto hfrom) hto
      exact hgo hes hm
    | acked hn hs hr hto hfrom =>
      obtain ⟨es, hes, hm⟩ := stage_turn_sender hsu hN (.acked hn hs hr hto hfrom) hfrom
      exact hgo hes hm
    | done hs hr hto hfrom => exact ⟨[], fun e he => (nomatch he), hr.passed, hr.phase, hs⟩

end

theorem stage_start (hsu : su = download ∨ su = upload) (cfg : Config) (b b' : Bufs)
    (content : List Byte) :
    ∃ n, Stage su cfg (stream cfg.convert content) n (Pair.start su cfg b b' content) := by
  have hempty : Holds (Link.empty : Link Packet) [] := ⟨List.Perm.refl _, Nat.zero_le _⟩
  have hpos : 0 < count SEGSIZE (stream cfg.convert content) := Nat.succ_pos _
  rcases hsu with rfl | rfl
  · obtain ⟨hs, hout⟩ := senderAt_start cfg b content
    obtain ⟨hr, hout'⟩ := receiverAt_start tftpRecvfile cfg b' (stream cfg.convert content)
    refine ⟨_,
      .data (k := 0) (n := count SEGSIZE (stream cfg.convert content) - 1) (by omega) hs hr ?_ ?_⟩
    · change Holds (Link.empty.send (posted (Sender.start tftpdSendFile cfg b content).2)) _
      rw [hout]
      exact holds_send hempty le_rfl
    · change Holds (Link.empty.send (posted (Receiver.start tftpRecvfile cfg b').2)) _
      rw [hout']
      exact holds_send hempty (Nat.zero_le _)
  · obtain ⟨hs, hout⟩ := senderAsks_start cfg b content
    obtain ⟨hr, hout'⟩ := receiverAt_start tftpdRecvfile cfg b' (stream cfg.convert content)
    refine ⟨_, .asked rfl hs hr ?_ ?_⟩
    · change Holds (Link.empty.send (posted (Sender.start tftpSendFile cfg b content).2)) _
      exact holds_send hempty (Nat.zero_le _)
    · change Holds (Link.empty.send (posted (Receiver.start tftpdRecvfile cfg b').2)) _
      rw [hout']
      exact holds_send hempty le_rfl

theorem works_iff (hsu : su = download ∨ su = upload) (cfg : Config) (b b' : Bufs)
    (content : List Byte) :
    Works su cfg b b' content ↔ count SEGSIZE (stream cfg.convert content) ≤ 65535 := by
  constructor
  · intro h
    obtain ⟨es, -, hpassed, -⟩ := h [] (fun e he => nomatch he)
    have hbounded :
        Bounded (run (Pair.step su cfg) (Pair.start su cfg b b' content) ([] ++ es)).receiver :=
      run_keeps (I := fun p : Pair => Bounded p.receiver) (fun p e hp => bounded_step hp e) _
        (bounded_start su.recv cfg b')
    rw [← length_blocks, ← hpassed]
    exact hbounded.passed
  · intro hN es hes
    have hstage : ∃ n, Stage su cfg (stream cfg.convert content) n
        (run (Pair.step su cfg) (Pair.start su cfg b b' content) es) := by
      obtain ⟨n, hn⟩ := stage_start hsu cfg b b' content
      generalize Pair.start su cfg b b' content = p at hn
      induction es generalizing n p with
      | nil => exact ⟨n, hn⟩
      | cons e es ih =>
        obtain ⟨m, hm⟩ := stage_step hsu hN hn (hes e mem_cons_self)
        exact ih (fun e he => hes e (mem_cons_of_mem _ he)) m _ hm
    obtain ⟨n, hn⟩ := hstage
    obtain ⟨es', hes', hdone⟩ := exists_done hsu hN hn
    exact ⟨es', hes', by rwa [run_append]⟩

/-- **Up to block 65535 the two programs agree, and no further.** -/
theorem transfer_works_iff (hsu : su = download ∨ su = upload) (cfg : Config) :
    (∀ k : ℕ, 1 ≤ k → ∀ (s : Sender) (r : Receiver), s.block = k → r.block = k →
      (Exchanged su cfg s r ↔ k ≤ 65535)) ∧
    ∀ (b b' : Bufs) (content : List Byte),
      Works su cfg b b' content ↔ count SEGSIZE (stream cfg.convert content) ≤ 65535 :=
  ⟨fun _ hk _ _ hs hr => exchanged_iff hsu hk hs hr,
    fun b b' content => works_iff hsu cfg b b' content⟩

/-- A file of one byte. -/
theorem transfer_works_iff_byte :
    let b : Bufs := ⟨fun _ => ⟨0, []⟩, false, false, false, none⟩
    Works upload ⟨false, 5, 25, 9⟩ b b [65] :=
  ((transfer_works_iff (.inr rfl : upload = download ∨ upload = upload) ⟨false, 5, 25, 9⟩).2 _ _
    [65]).2 (by decide)

end Inetutils.Tftp.Numbers
