import Inetutils.Lib.Bits
import Inetutils.Lib.Runs

/-! # The replies that ping counts

`ping_xmit`, `ping_recv` and `ping_reset` of `ping/libping.c` and of `ping/ping6.c`, with
`_ping_setbuf` and `ping_unset_data` of `ping/ping_common.c`. A table of 1024 bits tells a second
reply from the first one; the bit of a request is cleared before `sendto`, which may fail, and then
it is the bit of an older request that is gone. -/

namespace Inetutils.Ping.Duplicates

open Lib.Bits Lib.Runs List Option

/-! ### The structure -/

abbrev cktabsize : ℕ := 128

structure PingData where
  ident : ℕ
  cktab : Option Table
  numXmit : ℕ
  numRecv : ℕ
  numRept : ℕ

/-- `_C_IND` -/
def ind (bit : ℕ) : ℕ := bit % (8 * cktabsize)

def pingSet (t : Table) (bit : ℕ) : Table := setBit t (ind bit)

def pingClr (t : Table) (bit : ℕ) : Table := clearBit t (ind bit)

def pingTst (t : Table) (bit : ℕ) : Bool := testBit t (ind bit)

def pingInit (ident : ℕ) : PingData := ⟨ident % 65536, none, 0, 0, 0⟩

def pingReset (p : PingData) : PingData := { p with numXmit := 0, numRecv := 0, numRept := 0 }

def pingUnsetData (p : PingData) : PingData := { p with cktab := none }

/-- `_ping_setbuf`; `malloc` is called when there is no table. -/
def setbuf (malloc : Bool) (p : PingData) : Option Table :=
  match p.cktab with
  | some t => some t
  | none => if malloc then some (List.replicate cktabsize 0) else none

/-- `sendto` says whether the request was sent. -/
def pingXmit (malloc sendto : Bool) (p : PingData) : PingData :=
  match setbuf malloc p with
  | none => p
  | some t => { p with
      cktab := some (pingClr t p.numXmit), numXmit := if sendto then p.numXmit + 1 else p.numXmit }

def seq (numXmit : ℕ) : ℕ := numXmit % 65536

/-- What is read: nothing or too little, a reply, a request, or an error, which may be about a
request of ours. -/
inductive Packet
  | short
  | reply (id seq : ℕ)
  | request
  | error (mine : Bool)

def Packet.answers (ident : ℕ) : Packet → Bool
  | .reply id _ => id = ident
  | _ => false

/-- What the event handler is told; in ping6 it is `print_echo` or `print_icmp_error` that is
called. -/
inductive Pev
  | response
  | duplicate
  | noecho
  deriving DecidableEq

/-- `ping_recv` of `libping.c`. A reply has a request, so there is a table. -/
def pingRecv (p : PingData) : Packet → PingData × Option Pev
  | .short => (p, none)
  | .reply id seq =>
    if id ≠ p.ident then (p, none)
    else
      match p.cktab with
      | none => (p, none)
      | some t =>
        if pingTst t seq then
          ({ p with numRept := p.numRept + 1, numRecv := p.numRecv + 1 - 1 }, some .duplicate)
        else ({ p with cktab := some (pingSet t seq), numRecv := p.numRecv + 1 }, some .response)
  | .request => (p, none)
  | .error mine => (p, if mine then some .noecho else none)

/-- `ping_recv` of `ping6.c`. -/
def pingRecv6 (p : PingData) : Packet → PingData × Option Pev
  | .short => (p, none)
  | .reply id seq =>
    if id ≠ p.ident then (p, none)
    else
      match p.cktab with
      | none => (p, none)
      | some t =>
        if pingTst t seq then ({ p with numRept := p.numRept + 1 }, some .duplicate)
        else ({ p with cktab := some (pingSet t seq), numRecv := p.numRecv + 1 }, some .response)
  | .request => (p, none)
  | .error mine => (p, if mine then some .noecho else none)

variable (p : PingData) {k : ℕ}

theorem pingRecv_eq (pkt : Packet) : pingRecv p pkt = pingRecv6 p pkt := by
  cases pkt <;> rfl

/-! ### A run -/

inductive Version
  | ping
  | ping6

def recv : Version → PingData → Packet → PingData × Option Pev
  | .ping => pingRecv
  | .ping6 => pingRecv6

theorem recv_eq (v : Version) (p : PingData) (pkt : Packet) : recv v p pkt = pingRecv6 p pkt := by
  cases v with
  | ping => exact pingRecv_eq p pkt
  | ping6 => rfl

/-- `told` is what the handler was told and `replies` are the requests that the replies were to, the
last first; `gone` is set when the bit of a request was cleared that then was not sent. -/
structure Host where
  ping : PingData
  told : List Pev
  replies : List ℕ
  gone : Bool

/-- A request, a reply to request `k`, and any packet that is not a reply to us. -/
inductive Event
  | xmit (malloc sendto : Bool)
  | reply (k : ℕ)
  | stray (pkt : Packet)

def Host.heard (s : Host) (r : PingData × Option Pev) : Host :=
  { s with ping := r.1, told := r.2.toList ++ s.told }

def Host.xmit (s : Host) (malloc sendto : Bool) : Host :=
  { s with ping := pingXmit malloc sendto s.ping
           gone := if (setbuf malloc s.ping).isSome then !sendto else s.gone }

def Host.reply (v : Version) (s : Host) (k : ℕ) : Host :=
  { s.heard (recv v s.ping (.reply s.ping.ident (seq k))) with
      replies := k :: s.replies
      gone := s.gone && k + 1024 != s.ping.numXmit }

def step (v : Version) (s : Host) : Event → Host
  | .xmit malloc sendto => s.xmit malloc sendto
  | .reply k => s.reply v k
  | .stray pkt => s.heard (recv v s.ping pkt)

def next (p : PingData) : Host := ⟨pingReset (pingUnsetData p), [], [], false⟩

/-- A reply is to a request that was sent, and arrives before 1024 further requests have been
sent. -/
def Answers (s : Host) : Event → Prop
  | .xmit _ _ => True
  | .reply k => k < s.ping.numXmit ∧ s.ping.numXmit ≤ k + 1024
  | .stray pkt => pkt.answers s.ping.ident = false

instance (s : Host) : DecidablePred (Answers s)
  | .xmit _ _ => inferInstanceAs (Decidable True)
  | .reply k => inferInstanceAs (Decidable (k < s.ping.numXmit ∧ s.ping.numXmit ≤ k + 1024))
  | .stray pkt => inferInstanceAs (Decidable (pkt.answers s.ping.ident = false))

/-- What the handler should have been told for the replies. -/
def verdicts : List ℕ → List Pev
  | [] => []
  | k :: l => (if k ∈ l then .duplicate else .response) :: verdicts l

structure Counted (s : Host) : Prop where
  recv : s.ping.numRecv = s.replies.toFinset.card
  rept : s.ping.numRept = s.replies.length - s.replies.toFinset.card
  told : s.told.filter (· ≠ .noecho) = verdicts s.replies

/-- **No further reply comes to the request whose bit is gone.** -/
def Kept (s : Host) : Event → Prop
  | .reply k => ¬ (k ∈ s.replies ∧ k + 1024 = s.ping.numXmit ∧ s.gone)
  | _ => True

instance (s : Host) : DecidablePred (Kept s)
  | .xmit _ _ => inferInstanceAs (Decidable True)
  | .reply k => inferInstanceAs (Decidable (¬ (k ∈ s.replies ∧ k + 1024 = s.ping.numXmit ∧ s.gone)))
  | .stray _ => inferInstanceAs (Decidable True)

/-! ### The table -/

theorem ind_seq (k : ℕ) : ind (seq k) = ind k := by
  unfold ind seq cktabsize
  omega

theorem ind_lt (k : ℕ) : ind k / 8 < cktabsize := by
  unfold ind cktabsize
  omega

theorem ind_inj {n j : ℕ} (hj : j < n) (hk : k < n) (hnj : n ≤ j + 1024) (hnk : n ≤ k + 1024)
    (h : ind j = ind k) : j = k := by
  unfold ind cktabsize at h
  omega

section
variable {t : Table} (ht : t.length = cktabsize)
include ht

theorem pingTst_pingSet (j k : ℕ) :
    pingTst (pingSet t j) k = (decide (ind k = ind j) || pingTst t k) :=
  testBit_setBit (by rw [ht]; exact ind_lt j) _

theorem pingTst_pingClr (j k : ℕ) :
    pingTst (pingClr t j) k = (!decide (ind k = ind j) && pingTst t k) :=
  testBit_clearBit (by rw [ht]; exact ind_lt j) _

end

/-- In the window the table says which requests were answered, but for the bit that is gone. -/
structure Ready (s : Host) : Prop where
  sent : ∀ k ∈ s.replies, k < s.ping.numXmit
  none : s.ping.cktab = none → s.ping.numXmit = 0
  length : ∀ t, s.ping.cktab = some t → t.length = cktabsize
  tst : ∀ t, s.ping.cktab = some t → ∀ k, k < s.ping.numXmit → s.ping.numXmit ≤ k + 1024 →
    (pingTst t k ↔ k ∈ s.replies ∧ ¬ (k + 1024 = s.ping.numXmit ∧ s.gone))

theorem ready_next : Ready (next p) where
  sent := fun _ hk => absurd hk not_mem_nil
  none := fun _ => rfl
  length := nofun
  tst := nofun

theorem counted_next : Counted (next p) := ⟨rfl, rfl, rfl⟩

section
variable {v : Version} {s : Host}

theorem ready_setbuf (h : Ready s) {malloc : Bool} {t : Table}
    (ht : setbuf malloc s.ping = some t) :
    t.length = cktabsize ∧ ∀ k, k < s.ping.numXmit → s.ping.numXmit ≤ k + 1024 →
      (pingTst t k ↔ k ∈ s.replies ∧ ¬ (k + 1024 = s.ping.numXmit ∧ s.gone)) := by
  unfold setbuf at ht
  cases htab : s.ping.cktab with
  | none =>
    rw [htab] at ht
    split_ifs at ht
    rw [← some.inj ht]
    refine ⟨length_replicate, fun k hk => ?_⟩
    rw [h.none htab] at hk
    exact absurd hk (Nat.not_lt_zero k)
  | some t' =>
    rw [htab] at ht
    rw [← some.inj ht]
    exact ⟨h.length t' htab, h.tst t' htab⟩

theorem ready_xmit (h : Ready s) (malloc sendto : Bool) : Ready (s.xmit malloc sendto) := by
  unfold Host.xmit pingXmit
  cases ht : setbuf malloc s.ping with
  | none => exact h
  | some t =>
    obtain ⟨hlen, htst⟩ := ready_setbuf h ht
    cases sendto with
    | true =>
      refine ⟨fun k hk => Nat.lt_succ_of_lt (h.sent k hk), nofun, fun t' ht' => ?_,
        fun t' ht' k hk hw => ?_⟩
      · rw [← some.inj ht']
        exact (length_clearBit _ _).trans hlen
      · rw [← some.inj ht', pingTst_pingClr hlen]
        change s.ping.numXmit + 1 ≤ k + 1024 at hw
        rcases Nat.lt_succ_iff_lt_or_eq.1 hk with hlt | rfl
        · have hne : ind k ≠ ind s.ping.numXmit := fun he => by
            unfold ind cktabsize at he
            omega
          have hedge : k + 1024 ≠ s.ping.numXmit := by omega
          simp [hne, hedge, htst k hlt (by omega)]
        · have hnew : s.ping.numXmit ∉ s.replies := fun hmem => lt_irrefl _ (h.sent _ hmem)
          simp [hnew]
    | false =>
      refine ⟨h.sent, nofun, fun t' ht' => ?_, fun t' ht' k hk hw => ?_⟩
      · rw [← some.inj ht']
        exact (length_clearBit _ _).trans hlen
      · rw [← some.inj ht', pingTst_pingClr hlen]
        change k < s.ping.numXmit at hk
        change s.ping.numXmit ≤ k + 1024 at hw
        by_cases hedge : k + 1024 = s.ping.numXmit
        · have he : ind k = ind s.ping.numXmit := by
            unfold ind cktabsize
            omega
          simp [he, hedge]
        · have hne : ind k ≠ ind s.ping.numXmit := fun he => by
            unfold ind cktabsize at he
            omega
          simp [hne, hedge, htst k hk hw]

theorem reply_eq (v : Version) {t : Table} (ht : s.ping.cktab = some t) (k : ℕ) :
    s.reply v k =
      { ping := if pingTst t k then { s.ping with numRept := s.ping.numRept + 1 }
          else { s.ping with cktab := some (pingSet t k), numRecv := s.ping.numRecv + 1 }
        told := (if pingTst t k then .duplicate else .response) :: s.told
        replies := k :: s.replies
        gone := s.gone && k + 1024 != s.ping.numXmit } := by
  have hseq : pingTst t (seq k) = pingTst t k := by rw [pingTst, ind_seq, pingTst]
  have hset : pingSet t (seq k) = pingSet t k := by rw [pingSet, ind_seq, pingSet]
  unfold Host.reply
  rw [recv_eq, pingRecv6, if_neg (not_not.2 rfl), ht]
  dsimp only
  rw [hseq, hset]
  cases pingTst t k with
  | true => simp [Host.heard, ht]
  | false => rfl

theorem ready_table (h : Ready s) (hk : k < s.ping.numXmit) : ∃ t, s.ping.cktab = some t := by
  cases ht : s.ping.cktab with
  | none => exact absurd (h.none ht) (by omega)
  | some t => exact ⟨t, rfl⟩

theorem reply_table (h : Ready s) (hk : k < s.ping.numXmit) (hw : s.ping.numXmit ≤ k + 1024)
    {t : Table} (ht : s.ping.cktab = some t) :
    ∃ t', (s.reply v k).ping.cktab = some t' ∧ t'.length = cktabsize ∧
      ∀ j, j < s.ping.numXmit → s.ping.numXmit ≤ j + 1024 →
      (pingTst t' j ↔ j = k ∨ pingTst t j) := by
  have hlen := h.length t ht
  rw [reply_eq v ht]
  cases htst : pingTst t k with
  | true =>
    refine ⟨t, ht, hlen, fun j _ _ => ?_⟩
    constructor
    · exact Or.inr
    · rintro (rfl | hj)
      · exact htst
      · exact hj
  | false =>
    refine ⟨pingSet t k, rfl, (length_setBit _ _).trans hlen, fun j hj hwj => ?_⟩
    have hind : ind j = ind k ↔ j = k := ⟨ind_inj hj hk hwj hw, congrArg ind⟩
    rw [pingTst_pingSet hlen, Bool.or_eq_true, decide_eq_true_iff, hind]

theorem reply_numXmit (v : Version) (s : Host) (k : ℕ) :
    (s.reply v k).ping.numXmit = s.ping.numXmit := by
  unfold Host.reply
  rw [recv_eq, pingRecv6, if_neg (not_not.2 rfl)]
  cases s.ping.cktab with
  | none => rfl
  | some t =>
    dsimp only
    cases pingTst t (seq k) <;> rfl

theorem ready_reply (h : Ready s) (hk : k < s.ping.numXmit) (hw : s.ping.numXmit ≤ k + 1024) :
    Ready (s.reply v k) := by
  obtain ⟨t, ht⟩ := ready_table h hk
  obtain ⟨t', ht', hlen', htst'⟩ := reply_table (v := v) h hk hw ht
  have hxmit := reply_numXmit v s k
  refine ⟨fun j hj => ?_, fun h0 => ?_, fun u hu => ?_, fun u hu j hj hwj => ?_⟩
  · rw [hxmit]
    rcases mem_cons.1 hj with rfl | hj
    · exact hk
    · exact h.sent j hj
  · rw [ht'] at h0
    exact nomatch h0
  · rw [← some.inj (ht'.symm.trans hu)]
    exact hlen'
  · rw [hxmit] at hj hwj ⊢
    rw [← some.inj (ht'.symm.trans hu), htst' j hj hwj, h.tst t ht j hj hwj]
    show _ ↔ j ∈ k :: s.replies ∧
      ¬ (j + 1024 = s.ping.numXmit ∧ (s.gone && k + 1024 != s.ping.numXmit) = true)
    by_cases hjk : j = k
    · subst hjk
      simp only [true_or, mem_cons_self, true_and, true_iff]
      rintro ⟨hedge, hg⟩
      rw [Bool.and_eq_true, bne_iff_ne] at hg
      exact hg.2 hedge
    · have hgone : j + 1024 = s.ping.numXmit → (s.gone && k + 1024 != s.ping.numXmit) = s.gone :=
        fun hedge => by
        rw [bne_iff_ne.2 (show k + 1024 ≠ s.ping.numXmit by omega), Bool.and_true]
      simp only [hjk, false_or, mem_cons]
      constructor
      · rintro ⟨hmem, hkept⟩
        exact ⟨hmem, fun ⟨hedge, hg⟩ => hkept ⟨hedge, hgone hedge ▸ hg⟩⟩
      · rintro ⟨hmem, hkept⟩
        exact ⟨hmem, fun ⟨hedge, hg⟩ => hkept ⟨hedge, (hgone hedge).symm ▸ hg⟩⟩

theorem ready_stray (h : Ready s) {pkt : Packet} (hpkt : pkt.answers s.ping.ident = false) :
    Ready (s.heard (recv v s.ping pkt)) ∧ (Counted (s.heard (recv v s.ping pkt)) ↔ Counted s) := by
  have hstray : ∃ o : Option Pev, (∀ e ∈ o, e = .noecho) ∧ recv v s.ping pkt = (s.ping, o) := by
    rw [recv_eq]
    cases pkt with
    | short => exact ⟨none, nofun, rfl⟩
    | request => exact ⟨none, nofun, rfl⟩
    | reply id seq =>
      have hid : id ≠ s.ping.ident := of_decide_eq_false hpkt
      exact ⟨none, nofun, if_pos hid⟩
    | error mine =>
      refine ⟨_, fun e he => ?_, rfl⟩
      cases mine with
      | true => exact (some.inj he).symm
      | false => exact nomatch he
  obtain ⟨o, ho, hrecv⟩ := hstray
  rw [hrecv]
  refine ⟨⟨h.sent, h.none, h.length, h.tst⟩, ?_⟩
  have htold : (o.toList ++ s.told).filter (· ≠ .noecho) = s.told.filter (· ≠ .noecho) := by
    rw [filter_append, filter_eq_nil_iff.2 fun e he => ?_, nil_append]
    rw [ho e (mem_toList.1 he)]
    decide
  constructor
  · rintro ⟨h1, h2, h3⟩
    exact ⟨h1, h2, htold ▸ h3⟩
  · rintro ⟨h1, h2, h3⟩
    exact ⟨h1, h2, htold.trans h3⟩

theorem ready_step (s : Host) (e : Event) (h : Ready s) (he : Answers s e) :
    Ready (step v s e) := by
  cases e with
  | xmit malloc sendto => exact ready_xmit h malloc sendto
  | reply k => exact ready_reply h he.1 he.2
  | stray pkt => exact (ready_stray h he).1

/-! ### The counters -/

theorem counted_xmit (malloc sendto : Bool) : Counted (s.xmit malloc sendto) ↔ Counted s := by
  have hcounters : (pingXmit malloc sendto s.ping).numRecv = s.ping.numRecv ∧
      (pingXmit malloc sendto s.ping).numRept = s.ping.numRept := by
    unfold pingXmit
    cases setbuf malloc s.ping <;> exact ⟨rfl, rfl⟩
  constructor
  · rintro ⟨h1, h2, h3⟩
    exact ⟨hcounters.1 ▸ h1, hcounters.2 ▸ h2, h3⟩
  · rintro ⟨h1, h2, h3⟩
    exact ⟨hcounters.1.trans h1, hcounters.2.trans h2, h3⟩

/-- **The step lemma**: a reply is counted as it should be unless the bit of its request is gone. -/
theorem counted_reply (h : Ready s) (hc : Counted s) (hk : k < s.ping.numXmit)
    (hw : s.ping.numXmit ≤ k + 1024) : Counted (s.reply v k) ↔ Kept s (.reply k) := by
  obtain ⟨t, ht⟩ := ready_table h hk
  have htst := h.tst t ht k hk hw
  have hle : s.replies.toFinset.card ≤ s.replies.length := toFinset_card_le _
  rw [reply_eq v ht]
  by_cases hmem : k ∈ s.replies
  · have hcard : (k :: s.replies).toFinset.card = s.replies.toFinset.card := by
      rw [toFinset_cons, Finset.insert_eq_of_mem (List.mem_toFinset.2 hmem)]
    cases hb : pingTst t k with
    | true =>
      refine iff_of_true ⟨?_, ?_, ?_⟩ fun hkept => (htst.1 hb).2 hkept.2
      · exact hc.recv.trans hcard.symm
      · show s.ping.numRept + 1 = _
        rw [hc.rept, hcard, length_cons]
        omega
      · show List.filter _ (.duplicate :: s.told) = verdicts (k :: s.replies)
        rw [filter_cons_of_pos (by decide), hc.told, verdicts, if_pos hmem]
    | false =>
      have hgone : k + 1024 = s.ping.numXmit ∧ s.gone := by
        by_contra hne
        rw [htst.2 ⟨hmem, hne⟩] at hb
        exact nomatch hb
      refine iff_of_false (fun hc' => ?_) fun hkept => hkept ⟨hmem, hgone⟩
      have hrecv : s.ping.numRecv + 1 = (k :: s.replies).toFinset.card := hc'.recv
      rw [hcard, hc.recv] at hrecv
      omega
  · have hb : pingTst t k = false := Bool.eq_false_iff.2 fun hb => hmem (htst.1 hb).1
    have hcard : (k :: s.replies).toFinset.card = s.replies.toFinset.card + 1 := by
      rw [toFinset_cons, Finset.card_insert_of_notMem (by rwa [List.mem_toFinset])]
    rw [hb]
    refine iff_of_true ⟨?_, ?_, ?_⟩ fun hkept => hmem hkept.1
    · show s.ping.numRecv + 1 = _
      rw [hc.recv, hcard]
    · show s.ping.numRept = _
      rw [hc.rept, hcard, length_cons]
      omega
    · show List.filter _ (.response :: s.told) = verdicts (k :: s.replies)
      rw [filter_cons_of_pos (by decide), hc.told, verdicts, if_neg hmem]

/-- **Every reply is counted once and for what it is, on every host**, just in case none comes for a
bit that is gone. -/
theorem counts_iff (v : Version) (p : PingData) (l : List Event)
    (hl : Allowed (step v) Answers (next p) l) :
    (∀ l', l' <+: l → Counted (run (step v) (next p) l')) ↔ Allowed (step v) Kept (next p) l := by
  refine inv_iff_allowed_within (J := Ready) (fun s e hpre hc hr => ?_)
    (fun s e hpre _ hr _ => ready_step s e hr hpre) (counted_next p) (ready_next p) hl
  cases e with
  | xmit malloc sendto => exact iff_of_true ((counted_xmit malloc sendto).2 hc) trivial
  | reply k => exact counted_reply hr hc hpre.1 hpre.2
  | stray pkt => exact iff_of_true ((ready_stray hr hpre).2.2 hc) trivial

end

/-! ### A request that cannot be sent -/

theorem run_requests (v : Version) : ∀ (n : ℕ) (s : Host),
    (run (step v) s (List.replicate n (.xmit true true))).ping.numXmit = s.ping.numXmit + n ∧
      Allowed (step v) Answers s (List.replicate n (.xmit true true))
  | 0, _ => ⟨rfl, trivial⟩
  | n + 1, s => by
    obtain ⟨hxmit, hok⟩ := run_requests v n (s.xmit true true)
    have hone : (s.xmit true true).ping.numXmit = s.ping.numXmit + 1 := by
      unfold Host.xmit pingXmit setbuf
      cases s.ping.cktab <;> rfl
    refine ⟨?_, trivial, hok⟩
    rw [hone] at hxmit
    rw [replicate_succ, run_cons]
    show (run (step v) (s.xmit true true) _).ping.numXmit = _
    omega

theorem xmit_fails (s : Host) : (s.xmit true false).ping.numXmit = s.ping.numXmit ∧
    (s.xmit true false).gone := by
  unfold Host.xmit pingXmit setbuf
  cases s.ping.cktab <;> exact ⟨rfl, rfl⟩

/-- The first of 1024 requests is answered, and `sendto` fails for the next one. -/
def unsent : List Event := List.replicate 1024 (.xmit true true) ++ [.reply 0, .xmit true false]

theorem allowed_unsent (v : Version) (p : PingData) : Allowed (step v) Answers (next p) unsent ∧
    (run (step v) (next p) unsent).ping.numXmit = 1024 ∧ 0 ∈
    (run (step v) (next p) unsent).replies ∧ (run (step v) (next p) unsent).gone := by
  obtain ⟨hxmit, hok⟩ := run_requests v 1024 (next p)
  unfold unsent
  rw [allowed_append, run_append]
  generalize run (step v) (next p) (List.replicate 1024 (.xmit true true)) = s at hxmit ⊢
  have hs : s.ping.numXmit = 1024 := hxmit.trans (zero_add 1024)
  obtain ⟨hfail, hgone⟩ := xmit_fails (s.reply v 0)
  refine ⟨⟨hok, ?_, trivial, trivial⟩, ?_, mem_cons_self, hgone⟩
  · show 0 < s.ping.numXmit ∧ s.ping.numXmit ≤ 0 + 1024
    omega
  · exact hfail.trans ((reply_numXmit v s 0).trans hs)

/-- **A duplicate of the answer is taken for another answer.** -/
theorem counts_wrong : Allowed (step .ping) Answers (next (pingInit 7)) (unsent ++ [.reply 0]) ∧
    ¬ ∀ l', l' <+: unsent ++ [.reply 0] → Counted (run (step .ping) (next (pingInit 7)) l') := by
  obtain ⟨hok, hxmit, hmem, hgone⟩ := allowed_unsent .ping (pingInit 7)
  constructor
  · rw [allowed_append]
    refine ⟨hok, ⟨?_, ?_⟩, trivial⟩
    · omega
    · omega
  · intro h
    have hready := run_inv ready_step (ready_next (pingInit 7)) hok
    have hlast := h _ prefix_rfl
    rw [run_append] at hlast
    exact (counted_reply hready (h unsent (prefix_append _ _)) (by omega) (by omega)).1 hlast
      ⟨hmem, hxmit.symm, hgone⟩

/-- A request that is lost, one that is answered twice, one that is not sent, and an error for
another program. -/
theorem counts_iff_pinged :
    Allowed (step .ping6) Answers (next (pingInit 7))
      [.xmit true true, .xmit true true, .reply 1, .stray (.error false),
        .xmit true false, .reply 1] ∧
    ∀ l', l' <+:
    [.xmit true true, .xmit true true, .reply 1, .stray (.error false),
      .xmit true false, .reply 1] → Counted (run (step .ping6) (next (pingInit 7)) l') :=
  ⟨by decide, (counts_iff .ping6 (pingInit 7) _ (by decide)).2 (by decide)⟩

end Inetutils.Ping.Duplicates
