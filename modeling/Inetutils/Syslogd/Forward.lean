import Inetutils.Syslogd.Logmsg
import Inetutils.Syslogd.Alone
import Inetutils.Lib.Mealy
import Inetutils.Lib.Runs

/-! # Forwarded messages

A datagram that syslogd sends to another one, and what the other makes of it. The priority in front
is `f_prevpri`, that of the line saved last; a line that is too long to be saved, or that is counted
as one more of the saved one, may have another (`long_line_with_old_priority`). As long as that does
not happen, the receiver's `logmsg` gets the priority, and takes the time and the text from where
they were put (`forward_conveys`). -/

namespace Inetutils.Syslogd.Alone

open Telnet.Proto Lib Lib.Decimal List
open Proto Entries Logmsg

variable {pend : List Message} {s : Solo}

/-! ### The receiver -/

/-- The main loop and `printline`: a NUL ends the line. -/
def receive (forceSync : Bool) (hname d : Text) : List Call :=
  printline forceSync hname (d.takeWhile (· ≠ 0))

def Plain (t : Text) : Prop := ∀ b ∈ t, ¬ iscntrl b

instance (t : Text) : Decidable (Plain t) := List.decidableBAll _ _

theorem Plain.append {t t' : Text} (h : Plain t) (h' : Plain t') : Plain (t ++ t') := by
  intro b hb
  rcases mem_append.1 hb with hb | hb
  · exact h b hb
  · exact h' b hb

theorem ne_zero_of_plain {b : Byte} (h : ¬ iscntrl b) : b ≠ 0 := by
  rintro rfl
  exact h (by decide)

theorem shown_of_plain {b : Byte} (h : ¬ iscntrl b) : shown b = [b] := by rw [shown, if_neg h]

theorem copyLine_of_plain : ∀ (t : Text) (n : ℕ), Plain t → n + t.length ≤ MAXLINE →
    copyLine n t = t
  | [], _, _, _ => rfl
  | b :: t, n, h, hn => by
    have hb : ¬ iscntrl b := h b mem_cons_self
    rw [length_cons] at hn
    rw [copyLine, if_pos (by omega), shown_of_plain hb, length_singleton,
      copyLine_of_plain t (n + 1) (fun c hc => h c (mem_cons_of_mem b hc)) (by omega)]
    rfl

theorem plain_of_isDigit {b : Byte} (h : isDigit b) : ¬ iscntrl b := by
  rw [isDigit, Bool.and_eq_true, decide_eq_true_eq, decide_eq_true_eq] at h
  simp only [iscntrl, Bool.or_eq_true, decide_eq_true_eq, beq_iff_eq, not_or]
  refine ⟨fun hb => ?_, ?_⟩
  · have : b.toNat < 32 := UInt8.lt_iff_toNat_lt.1 hb
    omega
  · rintro rfl
    exact absurd h.2 (by decide)

theorem standard_of_stamp {t : Text} (ht : Stamp t) (text : Text) :
    standard (t ++ 32 :: text) = true := by
  have hlen := ht.len
  have hget : ∀ i, i < 15 → (t ++ 32 :: text)[i]? = t[i]? := fun i hi =>
    getElem?_append_left (by omega)
  have h15 : (t ++ 32 :: text)[15]? = some 32 := by
    rw [getElem?_append_right (by omega), hlen]
    rfl
  simp only [standard, hget 3 (by decide), hget 6 (by decide), hget 9 (by decide),
    hget 12 (by decide), h15,
    ht.sp3, ht.sp6, ht.colon9, ht.colon12, length_append, length_cons, Bool.and_eq_true,
    decide_eq_true_eq, beq_self_eq_true, and_true]
  omega

/-- **The receiver reads what was put together.** -/
theorem receive_datagram (forceSync : Bool) (hname : Text) {p : ℕ} {t text : Text}
    (hp : logFac p ≠ LOG_KERN ∧ p < 1024) (ht : Stamp t) (hplain : Plain t) (htext : Plain text)
    (hlen : 16 + text.length ≤ MAXLINE) (clock : Clock) (now : ℤ) :
    ∀ c ∈ receive forceSync hname (60 :: (decimal p ++ 62 :: (t ++ 32 :: text))), c.pri = p ∧
      (Message.ofCall clock now c).stamp = t ∧ (Message.ofCall clock now c).text = text := by
  have hsep : isDigit 62 = false := by decide
  have hrest : Plain (t ++ 32 :: text) := hplain.append (Plain.append (t := [32]) (by decide) htext)
  have hall : Plain (60 :: (decimal p ++ 62 :: (t ++ 32 :: text))) :=
    Plain.append (t := [60]) (by decide) (Plain.append (fun b hb =>
      plain_of_isDigit (isDigit_of_mem_decimal p b hb))
      (Plain.append (t := [62]) (by decide) hrest))
  have hcut : (60 :: (decimal p ++ 62 :: (t ++ 32 :: text))).takeWhile (· ≠ 0) =
      60 :: (decimal p ++ 62 :: (t ++ 32 :: text)) :=
    takeWhile_eq_self_iff.2 fun b hb => decide_eq_true (ne_zero_of_plain (hall b hb))
  have hhead : lineHead (60 :: (decimal p ++ 62 :: (t ++ 32 :: text))) = (p, t ++ 32 :: text) := by
    rw [lineHead, readPri, takeWhile_decimal hsep, dropWhile_decimal hsep]
    have hacc : accumulate 0 (decimal p) = BitVec.ofNat 32 p := by
      rw [show (0 : BitVec 32) = BitVec.ofNat 32 0 from rfl, accumulate_ofNat, value_decimal]
    have hmod : p % 2 ^ 32 = p := Nat.mod_eq_of_lt (by omega)
    rw [hacc, checkPri_ofNat, hmod, if_pos hp.2, if_neg hp.1]
    rfl
  have hcopy : copyLine 0 (t ++ 32 :: text) = t ++ 32 :: text := by
    refine copyLine_of_plain _ 0 hrest ?_
    rw [length_append, length_cons, ht.len]
    omega
  have hparse : ∀ flags : Flags, flags.addDate = false →
      (Message.ofCall clock now ⟨p, t ++ 32 :: text, hname, flags⟩).stamp = t ∧
      (Message.ofCall clock now ⟨p, t ++ 32 :: text, hname, flags⟩).text = text := by
    intro flags hf
    rw [Message.ofCall, hf, standard_of_stamp ht, if_neg (by decide)]
    refine ⟨?_, ?_⟩
    · rw [← ht.len]
      exact take_left
    · rw [append_cons, show 16 = (t ++ [32]).length by rw [length_append, ht.len]; rfl]
      exact drop_left
  intro c hc
  rw [receive, hcut, printline, hhead, mem_append, mem_singleton] at hc
  rw [hcopy] at hc
  rcases hc with hc | rfl
  · split at hc
    · rw [mem_singleton.1 hc]
      exact ⟨rfl, hparse _ rfl⟩
    · exact absurd hc not_mem_nil
  · exact ⟨rfl, hparse _ rfl⟩

theorem stamp_ofCall (clock : Clock) (now : ℤ) (c : Call) :
    Stamp (Message.ofCall clock now c).stamp := by
  rw [Message.ofCall]
  split
  next => exact clock.stamp now
  next h =>
    rw [Bool.or_eq_true, not_or, Bool.not_eq_true', Bool.not_eq_false] at h
    have hs := h.2
    simp only [standard, Bool.and_eq_true, decide_eq_true_eq, beq_iff_eq] at hs
    obtain ⟨⟨⟨⟨⟨hlen, h3⟩, h6⟩, h9⟩, h12⟩, _⟩ := hs
    have hget : ∀ i, i < 15 → (c.msg.take 15)[i]? = c.msg[i]? := fun i hi => getElem?_take_of_lt hi
    exact ⟨length_take_of_le (by omega), (hget 3 (by decide)).trans h3,
      (hget 6 (by decide)).trans h6, (hget 9 (by decide)).trans h9, (hget 12 (by decide)).trans h12⟩

/-! ### What is sent for which messages -/

/-- What the datagram for the messages `ms` is to say: the message, or how often the last one
came. -/
def sentText (ms : List Message) (last : Message) : Text :=
  if ms.length = 1 then last.text else repeated ms.length

/-- A datagram says the messages `ms`: the receiver, with whatever settings, passes their priority
to `logmsg`, which takes the last one's time and the text from it. -/
def Conveys (ms : List Message) (d : Text) : Prop :=
  ∀ last, ms.getLast? = some last → (∀ m ∈ ms, logFac m.pri ≠ LOG_KERN ∧ m.pri < 1024) →
    Plain last.stamp → Plain (sentText ms last) →
    (decimal last.pri).length + 18 + (sentText ms last).length ≤ MAXLINE →
    ∀ (forceSync : Bool) (hname : Text) (clock : Clock) (now : ℤ), ∀ c ∈ receive forceSync hname d,
      (∀ m ∈ ms, c.pri = m.pri) ∧ (Message.ofCall clock now c).stamp = last.stamp ∧
        (Message.ofCall clock now c).text = sentText ms last

instance {σ : Type} (slot : Slot σ) (mark : ℕ) (m : Message) (s : σ) :
    Decidable (slot.logs mark m s) :=
  inferInstanceAs (Decidable (_ ∧ _ ∧ _))

section
variable (cfg : Config)

/-- The messages counted after the body of the loop, of which `pend` were counted before, and the
messages of each datagram in it. -/
def takeGroups (m : Message) (s : Solo) (pend : List Message) :
    List Message × List (List Message) :=
  if (solo cfg).logs cfg.markInterval m s then
    if s.filed.duplicate m then
      if (s.filed.counted m).repeattime < s.now then ([], [pend ++ [m]]) else (pend ++ [m], [])
    else ([], (if pend = [] then [] else [pend]) ++ [[m]])
  else (pend, [])

/-- The same for what `domark` sends by itself. -/
def tickGroups (s : Solo) (pend : List Message) : List Message × List (List Message) :=
  if s.filed.fPrevcount ≠ 0 ∧ s.filed.repeattime ≤ s.now then ([], [pend]) else (pend, [])

def stepGroups (s : Solo) (pend : List Message) : Op → List Message × List (List Message)
  | .logmsg now c => takeGroups cfg (Message.ofCall cfg.clock now c) { s with now := now } pend
  | .domark now now' =>
    let r := if s.markDue cfg then
      takeGroups cfg (Message.ofCall cfg.clock now' (markCall cfg)) { s with now := now' } pend
    else (pend, [])
    let r' := tickGroups (s.mark cfg now now') r.1
    (r'.1, r.2 ++ r'.2)
  | .init _ => ([], if pend = [] then [] else [pend])

def sendStep (s : Solo × List Message) (op : Op) : Solo × List Message :=
  (s.1.step cfg op, (stepGroups cfg s.1 s.2 op).1)

/-- The entry over a run, with the messages of all datagrams. -/
def traffic : Solo × List Message → List Op → (Solo × List Message) × List (List Message) :=
  Mealy.feed fun s op => (sendStep cfg s op, (stepGroups cfg s.1 s.2 op).2)

/-- A message that is logged without being saved has the priority that is saved. -/
def Told (now : ℤ) (c : Call) (s : Solo) : Prop :=
  let m := Message.ofCall cfg.clock now c
  (solo cfg).logs cfg.markInterval m { s with now := now } →
    s.filed.duplicate m ∨ MAXSVLINE ≤ m.text.length → m.pri = s.filed.fPrevpri

def SendOk (s : Solo × List Message) : Op → Prop
  | .logmsg now c => Told cfg now c s.1
  | _ => True

end

/-! ### The saved priority is the one of what is sent -/

/-- The entry forwards, and what it has saved is what the messages `pend` have in common. -/
structure Ready (s : Solo) (pend : List Message) : Prop where
  type : s.filed.fType = .forw
  count : s.filed.fPrevcount = pend.length
  host : pend ≠ [] → s.filed.fPrevhost ≠ none
  pri : ∀ m ∈ pend, m.pri = s.filed.fPrevpri
  text : ∀ m ∈ pend, m.text = s.filed.fPrevline
  last : ∀ m, pend.getLast? = some m → s.filed.fLasttime = m.stamp
  stamp : ∀ m ∈ pend, Stamp m.stamp

/-- The datagrams `out` say the messages of `groups`, one after the other. -/
def Says (groups : List (List Message)) (out : List Out) : Prop :=
  List.Forall₂ (fun ms o => ∃ d, o = .datagram d ∧ Conveys ms d) groups out

section
variable {cfg : Config} (hops : cfg.noHops = false) (hforw : cfg.noForward = false)
include hops hforw

theorem fprintlog_forw (hf : s.filed.fType = .forw) (host : Text) (flags : Flags)
    (msg : Option Text) : Solo.fprintlog cfg host flags msg s = { s with
      filed := { s.filed with fTime := s.now, fPrevcount := 0 }
      out := s.out ++ [.datagram (s.filed.packet (s.filed.said msg).1)] } := by
  have hd : s.filed.deliver cfg {} s.now host flags msg =
      s.filed.forward cfg {} s.now host (s.filed.said msg).1 := by
    rw [Filed.deliver, hf]
  rw [Solo.fprintlog, hd, Filed.forward,
    if_neg (by rw [hops]; exact fun h => Bool.false_ne_true h.2),
    if_neg (by rw [hforw]; exact Bool.false_ne_true)]
  rw [Filed.printed, if_neg (by dsimp only; rw [hf]; decide)]

end

theorem conveys_packet {f : Filed} {ms : List Message} {text : Text} (hhost : f.fPrevhost ≠ none)
    (hpri : ∀ m ∈ ms, m.pri = f.fPrevpri)
    (hstamp : ∀ m, ms.getLast? = some m → f.fLasttime = m.stamp)
    (hS : ∀ m ∈ ms, Stamp m.stamp) (ht : ∀ m, ms.getLast? = some m → text = sentText ms m) :
    Conveys ms (f.packet text) := by
  intro last hlast hkern hplain htext hlen forceSync hname clock now c hc
  have hmem : last ∈ ms := mem_of_getLast? hlast
  have hl := hS last hmem
  obtain ⟨h, hh⟩ := Option.ne_none_iff_exists'.1 hhost
  have hp : f.packet text =
      60 :: (decimal last.pri ++ 62 :: (last.stamp ++ 32 :: sentText ms last)) := by
    rw [Filed.packet, hh, ← hpri last hmem, hstamp last hlast, ← ht last hlast]
    rw [take_of_length_le (l := last.stamp) (by rw [hl.len]), take_of_length_le]
    rw [← ht last hlast] at hlen
    simp only [length_cons, length_append, hl.len]
    omega
  rw [hp] at hc
  obtain ⟨h1, h2, h3⟩ :=
    receive_datagram forceSync hname (hkern last hmem) hl hplain htext (by omega)
    clock now c hc
  refine ⟨fun m hm => ?_, h2, h3⟩
  rw [h1, hpri last hmem, hpri m hm]

theorem told_mark (cfg : Config) (now : ℤ) (s : Solo) : Told cfg now (markCall cfg) s := by
  rintro _ (h | h)
  · have hm : true = false := (duplicate_iff.1 h).1.1.1
    exact absurd hm.symm Bool.false_ne_true
  · have hlen : (Message.ofCall cfg.clock now (markCall cfg)).text.length = 10 := rfl
    rw [hlen] at h
    exact absurd h (by decide)

/-- From `s` to `s'` the messages of `groups` were sent, and those of `pend` are counted in `s'`. -/
def Sends (s s' : Solo) (pend : List Message) (groups : List (List Message)) : Prop :=
  Ready s' pend ∧ ∃ out, s'.out = s.out ++ out ∧ Says groups out

theorem Sends.trans {s₁ s₂ : Solo} {p₁ p₂ : List Message} {g₁ g₂ : List (List Message)}
    (h₁ : Sends s s₁ p₁ g₁) (h₂ : Sends s₁ s₂ p₂ g₂) : Sends s s₂ p₂ (g₁ ++ g₂) := by
  obtain ⟨_, o₁, ho₁, hs₁⟩ := h₁
  obtain ⟨hr, o₂, ho₂, hs₂⟩ := h₂
  exact ⟨hr, o₁ ++ o₂, by rw [ho₂, ho₁, append_assoc], rel_append hs₁ hs₂⟩

theorem Sends.quiet {s' : Solo} (h : Ready s' pend) (ho : s'.out = s.out) :
    Sends s s' pend [] :=
  ⟨h, [], by rw [ho, append_nil], List.Forall₂.nil⟩

theorem Ready.none (hf : s.filed.fType = .forw) (hc : s.filed.fPrevcount = 0) : Ready s [] :=
  ⟨hf, hc, fun h => absurd rfl h, fun _ h => absurd h not_mem_nil,
    fun _ h => absurd h not_mem_nil,
    fun _ h => absurd h (by simp), fun _ h => absurd h not_mem_nil⟩

theorem Ready.congr {s' : Solo} (h : Ready s pend)
    (htype : s'.filed.fType = s.filed.fType) (hcount : s'.filed.fPrevcount = s.filed.fPrevcount)
    (hhost : s'.filed.fPrevhost = s.filed.fPrevhost) (hpri : s'.filed.fPrevpri = s.filed.fPrevpri)
    (hline : s'.filed.fPrevline = s.filed.fPrevline)
    (hlast : s'.filed.fLasttime = s.filed.fLasttime) :
    Ready s' pend := by
  refine ⟨htype.trans h.type, hcount.trans h.count, ?_, ?_, ?_, ?_, h.stamp⟩
  · rw [hhost]
    exact h.host
  · rw [hpri]
    exact h.pri
  · rw [hline]
    exact h.text
  · rw [hlast]
    exact h.last

section
variable {cfg : Config} (hops : cfg.noHops = false) (hforw : cfg.noForward = false)
include hops hforw

theorem send_pending (hs : Ready s pend) (hp : pend ≠ []) (host : Text)
    (flags : Flags) : Sends s (Solo.fprintlog cfg host flags none s) [] [pend] ∧
      (Solo.fprintlog cfg host flags none s).filed =
      { s.filed with fTime := s.now, fPrevcount := 0 } := by
  rw [fprintlog_forw hops hforw hs.type]
  refine ⟨⟨Ready.none hs.type rfl, _, rfl, List.Forall₂.cons ⟨_, rfl, ?_⟩ List.Forall₂.nil⟩, rfl⟩
  refine conveys_packet (hs.host hp) hs.pri hs.last hs.stamp fun last hlast => ?_
  have hlen : 0 < pend.length := length_pos_iff.2 hp
  rw [sentText, Filed.said, hs.count]
  by_cases h1 : pend.length = 1
  · rw [if_pos h1, if_neg (by omega), hs.text last (mem_of_getLast? hlast)]
  · rw [if_neg h1, if_pos (by omega), Int.toNat_natCast]

theorem flush_sends (hs : Ready s pend) (host : Text) :
    Sends s ((solo cfg).flush host s) [] (if pend = [] then [] else [pend]) ∧
      ((solo cfg).flush host s).filed.fPrevpri = s.filed.fPrevpri := by
  have hcount : ((solo cfg).filed s).fPrevcount = pend.length := hs.count
  rw [Slot.flush, hcount]
  by_cases hp : pend = []
  · subst hp
    exact ⟨Sends.quiet hs rfl, rfl⟩
  · have hlen : 0 < pend.length := length_pos_iff.2 hp
    rw [if_pos (by omega), if_neg hp]
    obtain ⟨h1, h2⟩ := send_pending hops hforw hs hp host {}
    exact ⟨h1, by rw [show ((solo cfg).fprintlog host {} none s).filed = _ from h2]⟩

variable {m : Message}

theorem save_sends (hs : Ready s []) (hm : Stamp m.stamp)
    (hlong : MAXSVLINE ≤ m.text.length → m.pri = s.filed.fPrevpri) :
    Sends s ((solo cfg).save m s) [] [[m]] := by
  have hone : ∀ {f : Filed} {text : Text}, f.fPrevhost = some m.host → m.pri = f.fPrevpri →
      f.fLasttime = m.stamp → text = m.text → Conveys [m] (f.packet text) := by
    intro f text hh hp hl ht
    refine conveys_packet (by rw [hh]; exact Option.some_ne_none _) (fun m' h => ?_)
      (fun m' h => ?_)
      (fun m' h => ?_) (fun m' h => ?_)
    · rw [mem_singleton.1 h, hp]
    · obtain rfl : m = m' := Option.some.inj h
      exact hl
    · rw [mem_singleton.1 h]
      exact hm
    · obtain rfl : m = m' := Option.some.inj h
      exact ht
  rw [Slot.save]
  split
  · have hf : ((s.filed.renewed m).kept m).fType = .forw := hs.type
    have h :=
      fprintlog_forw hops hforw (s := { s with filed := (s.filed.renewed m).kept m }) hf m.host
      m.flags none
    change Sends s (Solo.fprintlog cfg m.host m.flags none
      { s with filed := (s.filed.renewed m).kept m }) _ _
    rw [h]
    refine ⟨Ready.none hf rfl, _, rfl,
      List.Forall₂.cons ⟨_, rfl, hone rfl rfl rfl ?_⟩ List.Forall₂.nil⟩
    have hc : ((s.filed.renewed m).kept m).fPrevcount ≤ 1 := by
      have := hs.count
      change s.filed.fPrevcount ≤ 1
      rw [this]
      decide
    rw [Filed.said_of_le hc]
    rfl
  next hl =>
    have hf : ((s.filed.renewed m).emptied).fType = .forw := hs.type
    have h :=
      fprintlog_forw hops hforw (s := { s with filed := (s.filed.renewed m).emptied }) hf m.host
      m.flags (some m.text)
    change Sends s (Solo.fprintlog cfg m.host m.flags (some m.text)
      { s with filed := (s.filed.renewed m).emptied }) _ _
    rw [h]
    exact ⟨Ready.none hf rfl, _, rfl, List.Forall₂.cons
      ⟨_, rfl, hone rfl (hlong (Nat.not_lt.1 hl)) rfl rfl⟩ List.Forall₂.nil⟩

theorem again_sends (hs : Ready s pend) (hm : Stamp m.stamp) (hd : s.filed.duplicate m)
    (hp : m.pri = s.filed.fPrevpri) : Sends s ((solo cfg).again m s)
      (if (s.filed.counted m).repeattime < s.now then [] else pend ++ [m])
      (if (s.filed.counted m).repeattime < s.now then [pend ++ [m]] else []) := by
  obtain ⟨⟨_, hhost⟩, htext⟩ := duplicate_iff.1 hd
  have h1 : Ready { s with filed := s.filed.counted m } (pend ++ [m]) := by
    have hor : ∀ {P : Message → Prop}, (∀ m' ∈ pend, P m') → P m → ∀ m' ∈ pend ++ [m], P m' := by
      intro P h h' m' hm'
      rcases mem_append.1 hm' with hm' | hm'
      · exact h m' hm'
      · rw [mem_singleton.1 hm']
        exact h'
    refine ⟨hs.type, ?_, fun _ => ?_, hor hs.pri hp, hor hs.text htext, fun m' h => ?_,
      hor hs.stamp hm⟩
    · change s.filed.fPrevcount + 1 = _
      rw [hs.count, length_append, length_singleton]
      rfl
    · change s.filed.fPrevhost ≠ none
      rw [hhost]
      exact Option.some_ne_none _
    · rw [getLast?_concat] at h
      rw [← Option.some.inj h]
      rfl
  have hstep : (solo cfg).again m s = if (s.filed.counted m).repeattime < s.now then
      (solo cfg).modify Filed.backoff
        (Solo.fprintlog cfg m.host m.flags none { s with filed := s.filed.counted m })
      else { s with filed := s.filed.counted m } := rfl
  rw [hstep]
  split
  · obtain ⟨⟨h2, out, ho, hsays⟩, _⟩ := send_pending hops hforw h1 (by simp) m.host m.flags
    exact ⟨h2.congr rfl rfl rfl rfl rfl rfl, out, ho, hsays⟩
  · exact Sends.quiet h1 rfl

theorem take_sends (hs : Ready s pend) (hm : Stamp m.stamp)
    (ht : (solo cfg).logs cfg.markInterval m s → s.filed.duplicate m ∨ MAXSVLINE ≤ m.text.length →
      m.pri = s.filed.fPrevpri) : Sends s ((solo cfg).take cfg.markInterval m s)
      (takeGroups cfg m s pend).1 (takeGroups cfg m s pend).2 := by
  rw [takeGroups]
  rcases (solo cfg).take_cases cfg.markInterval m s with ⟨hl, h⟩ | ⟨hl, hd, h⟩ | ⟨hl, hd, h⟩
  · rw [h, if_neg hl]
    exact Sends.quiet hs rfl
  · rw [h, if_pos hl, if_pos (show s.filed.duplicate m from hd)]
    have ha := again_sends hops hforw hs hm hd (ht hl (.inl hd))
    split at ha
    next hr => rw [if_pos hr]; exact ha
    next hr => rw [if_neg hr]; exact ha
  · rw [h, if_pos hl, if_neg (show ¬ s.filed.duplicate m from hd)]
    obtain ⟨h1, hpri⟩ := flush_sends hops hforw hs m.host
    refine h1.trans (save_sends hops hforw h1.1 hm fun hlong => ?_)
    rw [hpri]
    exact ht hl (.inr hlong)

theorem logmsg_sends (hs : Ready s pend) {now : ℤ} {c : Call}
    (ht : Told cfg now c s) : Sends s (s.logmsg cfg now c)
      (takeGroups cfg (Message.ofCall cfg.clock now c) { s with now := now } pend).1
      (takeGroups cfg (Message.ofCall cfg.clock now c) { s with now := now } pend).2 :=
  take_sends hops hforw (s := { s with now := now }) (hs.congr rfl rfl rfl rfl rfl rfl)
    (stamp_ofCall cfg.clock now c) ht

theorem mark_sends (hs : Ready s pend) (now now' : ℤ) :
    let r := if s.markDue cfg then
      takeGroups cfg (Message.ofCall cfg.clock now' (markCall cfg)) { s with now := now' } pend
      else (pend, [])
    Sends s (s.mark cfg now now') r.1 r.2 := by
  rw [Solo.mark]
  split
  · obtain ⟨h1, out, ho, hsays⟩ := logmsg_sends hops hforw (s := { s with now := now })
      (hs.congr rfl rfl rfl rfl rfl rfl) (told_mark cfg now' _)
    exact ⟨h1.congr rfl rfl rfl rfl rfl rfl, out, ho, hsays⟩
  · exact Sends.quiet (hs.congr rfl rfl rfl rfl rfl rfl) rfl

theorem tick_sends (hs : Ready s pend) :
    Sends s ((solo cfg).tick cfg.localHostName s) (tickGroups s pend).1 (tickGroups s pend).2 := by
  have hstep : (solo cfg).tick cfg.localHostName s =
      if s.filed.fPrevcount ≠ 0 ∧ s.filed.repeattime ≤ s.now then
        (solo cfg).modify Filed.backoff (Solo.fprintlog cfg cfg.localHostName {} none s)
      else s := rfl
  rw [hstep, tickGroups]
  by_cases h : s.filed.fPrevcount ≠ 0 ∧ s.filed.repeattime ≤ s.now
  · rw [if_pos h, if_pos h]
    have hp : pend ≠ [] := by
      rintro rfl
      exact h.1 hs.count
    obtain ⟨⟨h1, out, ho, hsays⟩, _⟩ := send_pending hops hforw hs hp cfg.localHostName {}
    exact ⟨h1.congr rfl rfl rfl rfl rfl rfl, out, ho, hsays⟩
  · rw [if_neg h, if_neg h]
    exact Sends.quiet hs rfl

theorem step_sends (hs : Ready s pend) (op : Op)
    (ho : SendOk cfg (s, pend) op) :
    Sends s (s.step cfg op) (stepGroups cfg s pend op).1 (stepGroups cfg s pend op).2 := by
  rcases op with ⟨now, c⟩ | ⟨now, now'⟩ | pmask
  · exact logmsg_sends hops hforw hs ho
  · have h1 := mark_sends hops hforw hs now now'
    exact h1.trans (tick_sends hops hforw h1.1)
  · obtain ⟨⟨h1, out, ho, hsays⟩, _⟩ := flush_sends hops hforw hs cfg.localHostName
    exact ⟨Ready.none h1.type rfl, out, ho, hsays⟩

theorem traffic_sends : ∀ (ops : List Op) {s : Solo} {pend : List Message}, Ready s pend →
    Runs.Allowed (sendStep cfg) (SendOk cfg) (s, pend) ops →
    Sends s (traffic cfg (s, pend) ops).1.1 (traffic cfg (s, pend) ops).1.2
    (traffic cfg (s, pend) ops).2
  | [], _, _, hs, _ => Sends.quiet hs rfl
  | op :: ops, _, _, hs, ho =>
    (step_sends hops hforw hs op ho.1).trans
      (traffic_sends ops (step_sends hops hforw hs op ho.1).1 ho.2)

end

/-- **Forwarding preserves messages** as long as one that is logged without being saved has the
priority of the one saved last: the datagrams sent say the messages, one after the other. -/
theorem forward_conveys (cfg : Config) (hops : cfg.noHops = false) (hforw : cfg.noForward = false)
    (name : Text) (pmask : ℕ → Byte) (ops : List Op)
    (ho : Runs.Allowed (sendStep cfg) (SendOk cfg) (Solo.start .forw name pmask, []) ops) :
    Says (traffic cfg (Solo.start .forw name pmask, []) ops).2
      (traffic cfg (Solo.start .forw name pmask, []) ops).1.1.out := by
  obtain ⟨_, out, hout, hsays⟩ := traffic_sends hops hforw ops (Ready.none rfl rfl) ho
  rw [hout]
  exact hsays

/-- The host `h`, which sends on what others sent to it. -/
def hopConfig : Config := { stillConfig with noHops := false }

instance (cfg : Config) (now : ℤ) (c : Call) (s : Solo) : Decidable (Told cfg now c s) :=
  inferInstanceAs (Decidable (_ → _ → _))

instance (cfg : Config) (s : Solo × List Message) : ∀ op, Decidable (SendOk cfg s op)
  | .logmsg now c => inferInstanceAs (Decidable (Told cfg now c s.1))
  | .domark _ _ => inferInstanceAs (Decidable True)
  | .init _ => inferInstanceAs (Decidable True)

/-- A line twice, another, and a long one with the same priority as that. -/
def oftenAndLong : List Op :=
  [.logmsg 0 ⟨14, [97], [104], {}⟩, .logmsg 0 ⟨14, [97], [104], {}⟩,
    .logmsg 5 ⟨10, [98], [104], {}⟩, .logmsg 5 ⟨10, List.replicate 240 98, [104], {}⟩]

theorem forward_conveys_four :
    (hopConfig.noHops = false ∧ hopConfig.noForward = false ∧
      Runs.Allowed (sendStep hopConfig) (SendOk hopConfig) (Solo.start .forw [] fun _ => 255, [])
        oftenAndLong) ∧
    Says (traffic hopConfig (Solo.start .forw [] fun _ => 255, []) oftenAndLong).2
      (traffic hopConfig (Solo.start .forw [] fun _ => 255, []) oftenAndLong).1.1.out := by
  have ho :
      Runs.Allowed (sendStep hopConfig) (SendOk hopConfig) (Solo.start .forw [] fun _ => 255, [])
      oftenAndLong := by decide +kernel
  exact ⟨⟨rfl, rfl, ho⟩, forward_conveys hopConfig rfl rfl [] (fun _ => 255) oftenAndLong ho⟩

def shortAndLong : List Op :=
  [.logmsg 0 ⟨14, [97], [104], {}⟩, .logmsg 0 ⟨10, List.replicate 240 98, [104], {}⟩]

/-- **A line too long to be saved is sent with the priority of the one before**. -/
theorem long_line_with_old_priority :
    ¬ Says (traffic hopConfig (Solo.start .forw [] fun _ => 255, []) shortAndLong).2
      (traffic hopConfig (Solo.start .forw [] fun _ => 255, []) shortAndLong).1.1.out := by
  intro h
  have hg : (traffic hopConfig (Solo.start .forw [] fun _ => 255, []) shortAndLong).2 =
      [[⟨14, stillClock.ctime 0, [97], [104], { addDate := true }⟩],
        [⟨10, stillClock.ctime 0, List.replicate 240 98, [104], { addDate := true }⟩]] := by
    decide +kernel
  have ho : (traffic hopConfig (Solo.start .forw [] fun _ => 255, []) shortAndLong).1.1.out =
      [.datagram (60 :: 49 :: 52 :: 62 :: (stillClock.ctime 0 ++ [32, 97])),
        .datagram
        (60 :: 49 :: 52 :: 62 :: (stillClock.ctime 0 ++ 32 :: List.replicate 240 98))] := by
    decide +kernel
  rw [hg, ho] at h
  obtain ⟨d, hd, hc⟩ : ∃ d, _ = Out.datagram d ∧ Conveys _ d := by
    cases h with
    | cons _ h => cases h with
      | cons h _ => exact h
  cases hd
  have hlast := hc _ rfl (by decide) (by decide) (by decide +kernel) (by decide +kernel) false [104]
    stillClock 0
    ⟨14, stillClock.ctime 0 ++ 32 :: List.replicate 240 98, [104], {}⟩ (by decide +kernel)
  exact absurd (hlast.1 _ mem_cons_self) (by decide)

end Inetutils.Syslogd.Alone
