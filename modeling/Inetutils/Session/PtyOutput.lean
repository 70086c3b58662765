import Inetutils.Telnet.Telrcv
import Inetutils.Telnetd.NetOutput

/-! # The output of the pty reaches the terminal

telnetd reads the pty in packets, each with a status byte in front, and copies what it does not take
of them to its output buffer, an `IAC` doubled and a carriage return with no line feed behind it in
the same piece followed by a null byte. The client receives the stream in other pieces, and adds
bytes to `ttyoring`. In a session in which the server echoes, and in no binary mode, the client adds
what the copy loop is given (`tty_eq_input`); that is what the pty produced as long as no status
byte is left in it (`tty_eq_produced_iff`).

Both sides look a byte ahead, and both do something else at the end of a piece. The invariant
(`Inv`) is about what is still under way: a machine that never looks ahead (`decode`), started in
the state of `telrcv`, makes of it just what the terminal still lacks. -/

namespace Inetutils.Session.PtyOutput

open Lib.Mealy Lib.Runs Telnet.Proto Telnet.Automaton List
open Telnet.Telrcv Telnetd.Netobuf
open Telnetd.NetOutput (copyLoop_appends)

/-! ### Decoding without looking ahead -/

inductive Dec
  | text
  | ret
  | iac
  | bad
  deriving DecidableEq

/-- Reads the stream telnetd makes of the output of the pty. -/
def decode : Dec → Byte → Dec × List Byte
  | .text, c => if c = IAC then (.iac, []) else if c = CR then (.ret, [CR]) else (.text, [c])
  | .ret, c =>
    if c = NUL then (.text, [])
    else if c = IAC then (.iac, []) else if c = CR then (.ret, [CR]) else (.text, [c])
  | .iac, c => if c = IAC then (.text, [IAC]) else (.bad, [])
  | .bad, _ => (.bad, [])

theorem feed_bad : ∀ l : List Byte, feed decode .bad l = (.bad, [])
  | [] => rfl
  | c :: l => by rw [feed_cons]; simp [decode, feed_bad l]

theorem feed_ret {c : Byte} (hc : c ≠ NUL) (l : List Byte) :
    feed decode .ret (c :: l) = feed decode .text (c :: l) := by
  simp [feed_cons, decode, hc]

theorem feed_return_nul (l : List Byte) :
    feed decode .text (CR :: NUL :: l) =
      ((feed decode .text l).1, CR :: (feed decode .text l).2) := rfl

theorem feed_return {x : Byte} (hx : x ≠ NUL) (l : List Byte) :
    feed decode .text (CR :: x :: l) =
      ((feed decode .text (x :: l)).1, CR :: (feed decode .text (x :: l)).2) := by
  rw [← feed_ret hx l]; rfl

theorem feed_escaped {c : Byte} (hc : c ≠ CR) (l : List Byte) :
    feed decode .text ((if c = IAC then [c, c] else [c]) ++ l) =
      ((feed decode .text l).1, c :: (feed decode .text l).2) := by
  by_cases h : c = IAC
  · subst h; rfl
  · simp [h, feed_cons, decode, hc]

/-- **What telnetd makes of a piece decodes to the piece**, whatever follows. -/
theorem feed_copyItems (input : List Byte) (more : List Byte) :
    feed decode .text ((copyItems false input).flatten ++ more) =
      ((feed decode .text more).1, input ++ (feed decode .text more).2) := by
  fun_induction copyItems false input with
  | case1 => rfl
  | case2 c hc l ih =>
    rw [hc.1, flatten_cons, append_assoc]
    show feed decode .text (CR :: LF :: ((copyItems false l).flatten ++ more)) = _
    rw [feed_return (by decide), feed_cons, show decode .text LF = (.text, [LF]) from rfl]
    rw [ih]; rfl
  | case3 c hc x l hx ih =>
    rw [hc.1, flatten_cons, append_assoc]
    show feed decode .text (CR :: NUL :: ((copyItems false (x :: l)).flatten ++ more)) = _
    rw [feed_return_nul, ih]; rfl
  | case4 c hc => rw [hc.1]; exact feed_return_nul more
  | case5 c l hc ih =>
    rw [flatten_cons, append_assoc, feed_escaped (by simpa using hc), ih]; rfl

/-! ### What the client does with a stretch -/

/-- The state of `telrcv`, as far as it matters here. -/
def decOf : TS → Dec
  | .DATA => .text
  | .CR => .ret
  | .IAC => .iac
  | _ => .bad

/-- The bytes added to `ttyoring`. -/
def ttyOf (evs : List Event) : List Byte :=
  evs.filterMap fun e => match e with
    | .tty b => some b
    | .act _ => none

@[simp] theorem ttyOf_append (evs evs' : List Event) :
    ttyOf (evs ++ evs') = ttyOf evs ++ ttyOf evs' :=
  filterMap_append

variable {σ : Type*} {cl : Client σ}

/-- The server echoes, the server's side of `BINARY` and `crmod` are off, nothing is flushed. -/
structure Plain (cl : Client σ) (c : σ) : Prop where
  echo : cl.dontEcho c = false
  noBinary : cl.dontBinary c = true
  noCrmod : cl.crmod c = false
  noFlush : cl.flushing c = false

/-- `p`, made of `l`, does what `decode` does: the bytes it adds are those that come out, and what
is left in front of `more` decodes to the others. -/
def Decodes (r : Rcv σ) (l more : List Byte) (p : Rcv σ × List Event × List Byte) : Prop :=
  p.1.client = r.client ∧
    feed decode (decOf r.state) (l ++ more) =
      ((feed decode (decOf p.1.state) (p.2.2 ++ more)).1,
        ttyOf p.2.1 ++ (feed decode (decOf p.1.state) (p.2.2 ++ more)).2)

section
variable {r : Rcv σ} (hp : Plain cl r.client)
include hp

theorem ttyadd_eq (b : Byte) : r.ttyadd cl b = [.tty b] := if_neg (by simp [hp.noFlush])

theorem ttyReturn_eq : r.ttyReturn cl = [.tty CR] := by
  simp [Rcv.ttyReturn, ttyadd_eq hp, hp.noCrmod]

theorem data_decodes (hr : r.state = .DATA) (c : Byte) (l more : List Byte) :
    Decodes r (c :: l) more (r.data cl c l) := by
  unfold Decodes Rcv.data
  rw [hr, cons_append]
  by_cases hi : c = IAC
  · subst hi; exact ⟨rfl, rfl⟩
  rw [if_neg hi]
  by_cases hc : c = CR
  · subst hc
    rw [if_pos ⟨rfl, hp.noBinary⟩]
    cases l with
    | nil => exact ⟨rfl, by rw [ttyReturn_eq hp]; rfl⟩
    | cons nc l' =>
      dsimp only
      split_ifs with h1 h2
      · rw [ttyadd_eq hp, hr, h1]; exact ⟨rfl, rfl⟩
      · rw [hp.echo] at h2; exact absurd h2.1 (by decide)
      · rw [ttyReturn_eq hp, hr]; exact ⟨rfl, feed_return h1 _⟩
  · rw [if_neg (fun h => hc h.1), ttyadd_eq hp, hr]
    exact ⟨rfl, by simp [feed_cons, decode, decOf, hi, hc, ttyOf]⟩

/-- **A turn decodes**, if there is anything to decode. -/
theorem turn_decodes {c : Byte} {l more : List Byte}
    (h : (feed decode (decOf r.state) (c :: l ++ more)).1 ≠ .bad) :
    Decodes r (c :: l) more (turn cl r c l) := by
  rcases r with ⟨st, sub, s⟩
  cases st with
  | DATA => exact data_decodes hp rfl c l more
  | CR =>
    by_cases hc : c = NUL
    · subst hc; exact ⟨rfl, rfl⟩
    · have hd := data_decodes (r := ⟨.DATA, sub, s⟩) hp rfl c l more
      have ht : turn cl ⟨.CR, sub, s⟩ c l = Rcv.data cl ⟨.DATA, sub, s⟩ c l := by
        simp [turn, hc, hp.echo]
      rw [ht]
      exact ⟨hd.1, (feed_ret hc _).trans hd.2⟩
  | IAC =>
    by_cases hc : c = IAC
    · subst hc
      have ht : turn cl ⟨.IAC, sub, s⟩ IAC l = (⟨.DATA, sub, s⟩, [.tty IAC], l) := by
        rw [← ttyadd_eq hp]; rfl
      rw [ht]; exact ⟨rfl, rfl⟩
    · refine absurd ?_ h
      simp [feed_cons, decOf, decode, hc, feed_bad]
  | SB | SE | verb v => exact absurd (congrArg Prod.fst (feed_bad _)) h

end

theorem telrcv_decodes : ∀ (k : ℕ) {r : Rcv σ} {l more : List Byte}, Plain cl r.client →
    (feed decode (decOf r.state) (l ++ more)).1 ≠ .bad → Decodes r l more (telrcv cl k r l)
  | 0, r, l, more, _, _ => ⟨rfl, rfl⟩
  | k + 1, r, [], more, _, _ => ⟨rfl, rfl⟩
  | k + 1, r, c :: l, more, hp, h => by
    obtain ⟨h1, h2⟩ := turn_decodes hp h
    rw [h2] at h
    have hp' : Plain cl (turn cl r c l).1.client := by rw [h1]; exact hp
    obtain ⟨h3, h4⟩ := telrcv_decodes k hp' h
    refine ⟨h3.trans h1, h2.trans ?_⟩
    rw [h4]
    simp [telrcv]

/-! ### The session -/

/-- What a read from the pty gives in packet mode: bytes that the pty produced, behind a status byte
of 0; or a status byte alone. -/
inductive Packet
  | data (b : Byte) (piece : List Byte)
  | control (c : Byte)

def Packet.produced : Packet → List Byte
  | .data b piece => b :: piece
  | .control _ => []

def Packet.read : Packet → List Byte
  | .data b piece => NUL :: b :: piece
  | .control c => [c]

/-- How often `telnetd_run` calls `pty_get_char (0)` for a status byte: `TIOCPKT_IOCTL`,
`TIOCPKT_FLUSHWRITE` and, where the client does `LFLOW`, `TIOCPKT_NOSTOP` and `TIOCPKT_DOSTOP`. -/
def taken (lflow : Bool) (c : Byte) : ℕ :=
  (if c &&& 64 ≠ 0 then 1 else 0) + (if c &&& 2 ≠ 0 then 1 else 0) +
    (if lflow ∧ c &&& 48 ≠ 0 then 1 else 0)

/-- What the copy loop is given of a packet. -/
def Packet.left (lflow : Bool) (p : Packet) : List Byte :=
  p.read.drop (taken lflow (p.read.headD NUL))

/-- `pty` is what telnetd has read and not copied yet, `input` all that the copy loop has been
given, `delivered` counts the bytes it has written that have reached the client, `netiring` holds
those the client has not looked at. -/
structure Ends (σ : Type*) where
  produced : List Byte
  input : List Byte
  pty : List Byte
  net : NetBuf
  delivered : ℕ
  netiring : List Byte
  rcv : Rcv σ
  tty : List Byte

/-- telnetd reads from the pty, copies, writes; the client reads from the network, and handles a
stretch of `m` bytes at most in `k` turns at most. -/
inductive Op
  | ptyRead (p : Packet)
  | copy
  | write (w : WriteResult)
  | receive (k : ℕ)
  | handle (m k : ℕ)

def start (buf : ℕ → Byte) (not42 : Bool) (c : σ) : Ends σ :=
  ⟨[], [], [], ioSetup buf not42, 0, [], ⟨.DATA, [], c⟩, []⟩

variable (cl) (lflow : Bool) in
/-- What telnetd sends for a status byte that it takes (options, SYNCH) is not part of the
session. -/
def step (s : Ends σ) : Op → Ends σ
  | .ptyRead p =>
    -- the pty is read when all that was read before is copied
    if s.pty = [] then
      { s with
        produced := s.produced ++ p.produced
        input := s.input ++ p.left lflow
        pty := p.left lflow }
    else s
  | .copy =>
    let p := copyLoop false s.pty s.net
    { s with net := p.1, pty := p.2 }
  | .write w => { s with net := netflush w s.net }
  | .receive k =>
    { s with
      netiring := s.netiring ++ (s.net.written.drop s.delivered).take k
      delivered := min (s.delivered + k) s.net.written.length }
  | .handle m k =>
    let p := telrcv cl k s.rcv (s.netiring.take m)
    { s with rcv := p.1, tty := s.tty ++ ttyOf p.2.1, netiring := p.2.2 ++ s.netiring.drop m }

variable {lflow : Bool}

/-- What the copy loop was given and the client has not handled, in the form it has on the
network. -/
def Ends.underway (s : Ends σ) : List Byte :=
  s.netiring ++ (s.net.stream.drop s.delivered ++ (copyItems false s.pty).flatten)

def Ends.Idle (s : Ends σ) : Prop :=
  s.pty = [] ∧ s.net.pending = [] ∧ s.delivered = s.net.written.length ∧ s.netiring = []

/-- **The invariant**: what is under way decodes to what the terminal lacks. -/
structure Inv (cl : Client σ) (s : Ends σ) : Prop where
  wf : WF s.net
  bound : s.net.nfrontp ≤ BUFSIZ
  delivered_le : s.delivered ≤ s.net.written.length
  plain : Plain cl s.rcv.client
  decodes : ∃ rest, feed decode (decOf s.rcv.state) s.underway = (.text, rest) ∧
    s.tty ++ rest = s.input

theorem length_written_le (n : NetBuf) : n.written.length ≤ n.stream.length := by
  rw [NetBuf.stream, length_append]; exact Nat.le_add_right ..

variable {s : Ends σ}

theorem underway_setNet {n : NetBuf} {p : List Byte} (hd : s.delivered ≤ s.net.written.length)
    (hw : s.net.written.length ≤ n.written.length) (he : n.stream ++ (copyItems false p).flatten =
      s.net.stream ++ (copyItems false s.pty).flatten) :
    ({ s with net := n, pty := p } : Ends σ).underway = s.underway := by
  have h1 := hd.trans (hw.trans (length_written_le n))
  have h2 := hd.trans (length_written_le s.net)
  rw [Ends.underway, Ends.underway, ← drop_append_of_le_length h1,
    ← drop_append_of_le_length h2, he]

theorem underway_receive (hd : s.delivered ≤ s.net.written.length) (k : ℕ) :
    (step cl lflow s (.receive k)).underway = s.underway := by
  have hdrop : ∀ {j : ℕ}, j ≤ s.net.written.length →
      s.net.stream.drop j = s.net.written.drop j ++ s.net.pending :=
    fun hj => drop_append_of_le_length hj
  have hmin : s.net.written.drop (min (s.delivered + k) s.net.written.length) =
      (s.net.written.drop s.delivered).drop k := by
    rw [drop_drop]
    rcases le_total (s.delivered + k) s.net.written.length with h | h
    · rw [min_eq_left h]
    · rw [min_eq_right h, drop_length, drop_of_length_le h]
  simp only [Ends.underway, step]
  rw [hdrop (min_le_right ..), hdrop hd, hmin]
  simp only [← append_assoc]
  rw [append_assoc s.netiring, take_append_drop]

theorem inv_start (buf : ℕ → Byte) (not42 : Bool) {c : σ} (hp : Plain cl c) :
    Inv cl (start buf not42 c) :=
  ⟨wf_ioSetup buf not42, Nat.zero_le _, le_rfl, hp, [], rfl, rfl⟩

theorem written_netflush {n : NetBuf} (h : WF n) (w : WriteResult) :
    n.written.length ≤ (netflush w n).written.length := by
  rcases netflush_advance h w with he | ⟨k, -, he⟩ <;> rw [he]
  unfold NetBuf.advance
  dsimp only
  split_ifs <;> simp

theorem decodes_append {st : TS} {l rest : List Byte} (h : feed decode (decOf st) l = (.text, rest))
    (input : List Byte) :
    feed decode (decOf st) (l ++ (copyItems false input).flatten) = (.text, rest ++ input) := by
  have hin := feed_copyItems input []
  rw [append_nil, feed_nil, append_nil] at hin
  rw [feed_append, h]
  rw [hin]

theorem inv_step (h : Inv cl s) (op : Op) : Inv cl (step cl lflow s op) := by
  obtain ⟨rest, hd, ht⟩ := h.decodes
  cases op with
  | ptyRead p =>
    unfold step
    split_ifs with hpty
    · refine ⟨h.wf, h.bound, h.delivered_le, h.plain, rest ++ p.left lflow, ?_, by simp [← ht]⟩
      have hu : s.underway = s.netiring ++ s.net.stream.drop s.delivered := by
        simp [Ends.underway, hpty, copyItems]
      rw [hu] at hd
      rw [Ends.underway, ← append_assoc]
      exact decodes_append hd (p.left lflow)
    · exact h
  | copy =>
    obtain ⟨hb, done, he, happ⟩ := copyLoop_appends false s.pty s.net h.bound
    have hw : (copyLoop false s.pty s.net).1.written = s.net.written := happ.written_eq
    refine ⟨happ.wf h.wf, hb, h.delivered_le.trans_eq (congrArg _ hw.symm), h.plain, rest, ?_, ht⟩
    have hu : (step cl lflow s .copy).underway = s.underway :=
      underway_setNet h.delivered_le (congrArg _ hw.symm).le
        (by rw [happ.stream_eq h.wf, he, flatten_append, append_assoc])
    rw [hu]; exact hd
  | write w =>
    obtain ⟨hwf, hst, hle⟩ := netflush_spec h.wf w
    have hw := written_netflush h.wf w
    refine ⟨hwf, hle.trans h.bound, h.delivered_le.trans hw, h.plain, rest, ?_, ht⟩
    have hu : (step cl lflow s (.write w)).underway = s.underway :=
      underway_setNet h.delivered_le hw (by rw [hst])
    rw [hu]; exact hd
  | receive k =>
    refine ⟨h.wf, h.bound, min_le_right .., h.plain, rest, ?_, ht⟩
    rw [underway_receive h.delivered_le]; exact hd
  | handle m k =>
    set more :=
      s.netiring.drop m ++ (s.net.stream.drop s.delivered ++ (copyItems false s.pty).flatten)
      with hmore
    have hu : s.underway = s.netiring.take m ++ more := by
      rw [hmore, ← append_assoc, take_append_drop]; rfl
    rw [hu] at hd
    obtain ⟨h1, h2⟩ := telrcv_decodes k h.plain (by rw [hd]; exact Dec.noConfusion)
    rw [hd, Prod.mk.injEq] at h2
    refine ⟨h.wf, h.bound, h.delivered_le, ?_, _, Prod.ext ?_ rfl, ?_⟩
    · show Plain cl (telrcv cl k s.rcv (s.netiring.take m)).1.client
      rw [h1]; exact h.plain
    · rw [h2.1, Ends.underway, step, append_assoc]
    · show _ = s.input
      rw [← ht, h2.2]
      simp only [Ends.underway, step, append_assoc, ← hmore]

section
variable (lflow) (buf : ℕ → Byte) (not42 : Bool) (c : σ)

/-- **What the client adds to `ttyoring` is what the copy loop is given**: at any time a part of it
from its beginning on, and all of it when nothing is under way. -/
theorem tty_eq_input (hp : Plain cl c) (ops : List Op) :
    let s := run (step cl lflow) (start buf not42 c) ops
    s.tty <+: s.input ∧ (s.Idle → s.tty = s.input) := by
  have hstep : ∀ s op, Inv cl s → Inv cl (step cl lflow s op) := fun _ op hs => inv_step hs op
  have h := run_keeps hstep ops (inv_start buf not42 hp)
  obtain ⟨rest, hd, ht⟩ := h.decodes
  refine ⟨⟨rest, ht⟩, fun ⟨h1, h2, h3, h4⟩ => ?_⟩
  have hu : (run (step cl lflow) (start buf not42 c) ops).underway = [] := by
    simp [Ends.underway, h1, h2, h3, h4, NetBuf.stream, copyItems]
  rw [hu, feed_nil, Prod.mk.injEq] at hd
  rw [← ht, ← hd.2, append_nil]

end

/-! ### The status bytes -/

/-- A packet that is read is a status byte that telnetd takes. -/
def Taken (lflow : Bool) (s : Ends σ) : Op → Prop
  | .ptyRead p => s.pty = [] → ∃ c, p = .control c ∧ 0 < taken lflow c
  | _ => True

theorem left_control {c : Byte} (h : 0 < taken lflow c) : (Packet.control c).left lflow = [] :=
  drop_of_length_le h

/-- The status byte of a packet that is not taken is one byte more than the pty produced. -/
theorem length_left {p : Packet} (h : ¬ ∃ c, p = .control c ∧ 0 < taken lflow c) :
    (p.left lflow).length = p.produced.length + 1 := by
  cases p with
  | data b piece =>
    have h0 : taken lflow NUL = 0 := by cases lflow <;> decide
    have hleft : (Packet.data b piece).left lflow = (NUL :: b :: piece).drop (taken lflow NUL) :=
      rfl
    rw [hleft, h0]
    rfl
  | control c =>
    have hc : taken lflow c = 0 := Nat.eq_zero_of_not_pos fun hc => h ⟨c, rfl, hc⟩
    have hleft : (Packet.control c).left lflow = [c].drop (taken lflow c) := rfl
    rw [hleft, hc]
    rfl

theorem step_input (op : Op) :
    (Taken lflow s op ∧ (step cl lflow s op).input = s.input ∧
      (step cl lflow s op).produced = s.produced) ∨ (¬ Taken lflow s op ∧
        (step cl lflow s op).input.length + s.produced.length =
          (step cl lflow s op).produced.length + s.input.length + 1) := by
  cases op with
  | ptyRead p =>
    by_cases hpty : s.pty = []
    · have hs : step cl lflow s (.ptyRead p) =
          { s with
            produced := s.produced ++ p.produced, input := s.input ++ p.left lflow
            pty := p.left lflow } :=
        if_pos hpty
      rw [hs]
      by_cases hp : ∃ c, p = .control c ∧ 0 < taken lflow c
      · obtain ⟨c, rfl, hc⟩ := hp
        rw [left_control hc]
        exact .inl ⟨fun _ => ⟨c, rfl, hc⟩, append_nil _, append_nil _⟩
      · refine .inr ⟨fun h => hp (h hpty), ?_⟩
        dsimp only
        rw [length_append, length_append, length_left hp]
        omega
    · have hs : step cl lflow s (.ptyRead p) = s := if_neg hpty
      rw [hs]
      exact .inl ⟨fun h => absurd h hpty, rfl, rfl⟩
  | copy => exact .inl ⟨trivial, rfl, rfl⟩
  | write w => exact .inl ⟨trivial, rfl, rfl⟩
  | receive k => exact .inl ⟨trivial, rfl, rfl⟩
  | handle m k => exact .inl ⟨trivial, rfl, rfl⟩

theorem run_input (ops : List Op) (h : s.produced.length ≤ s.input.length) :
    (run (step cl lflow) s ops).input = (run (step cl lflow) s ops).produced ↔
      s.input = s.produced ∧ Allowed (step cl lflow) (Taken lflow) s ops := by
  induction ops generalizing s with
  | nil => exact (and_iff_left trivial).symm
  | cons op ops ih =>
    rw [run_cons, allowed_cons]
    rcases @step_input _ cl lflow s op with ⟨htaken, hi, hpr⟩ | ⟨htaken, hlen⟩
    · rw [ih (by rwa [hi, hpr]), hi, hpr, and_iff_right htaken]
    · rw [ih (by omega)]
      refine iff_of_false (fun hs => ?_) fun hs => htaken hs.2.1
      have heq := congrArg List.length hs.1
      omega

/-- **What the client adds is what the pty produced** just in case the pty produced nothing, and
every status byte that was read is one that telnetd takes. -/
theorem tty_eq_produced_iff (lflow : Bool) (buf : ℕ → Byte) (not42 : Bool) (c : σ) (hp : Plain cl c)
    (ops : List Op) (hidle : (run (step cl lflow) (start buf not42 c) ops).Idle) :
    (run (step cl lflow) (start buf not42 c) ops).tty =
    (run (step cl lflow) (start buf not42 c) ops).produced ↔
      Allowed (step cl lflow) (Taken lflow) (start buf not42 c) ops := by
  have hstart : (start buf not42 c).input = (start buf not42 c).produced := rfl
  rw [(tty_eq_input lflow buf not42 c hp ops).2 hidle, run_input ops le_rfl, and_iff_right hstart]

/-- A client without any handlers, with its modes as the session has them. -/
def plainClient : Client Unit where
  dontEcho _ := false
  dontBinary _ := true
  crmod _ := false
  flushing _ := false
  handle _ c := c

/-- `TIOCPKT_IOCTL`, and a carriage return at the end of a piece, for telnetd and for the client. -/
def splitOps : List Op :=
  [.ptyRead (.control 64), .ptyRead (.data 65 [CR]), .copy,
    .ptyRead (.data LF [IAC, CR, LF]), .copy,
    .write (.accepted 6), .write (.accepted 4), .receive 3, .handle 3 3, .receive 6,
    .handle 6 5, .receive 1, .handle 3 3]

theorem tty_ne_produced_splitOps :
    let s := run (step plainClient true) (start (fun _ => 0) true ()) splitOps
    s.tty = [0, 65, CR, 0, LF, IAC, CR, LF] ∧ s.tty ≠ s.produced := by
  have h :=
    @tty_eq_produced_iff _ plainClient true (fun _ => 0) true () ⟨rfl, rfl, rfl, rfl⟩ splitOps
    ⟨by decide, by decide, by decide, by decide⟩
  refine ⟨by decide, fun hs => ?_⟩
  obtain ⟨c, hc, -⟩ := (h.1 hs).2.1 rfl
  exact Packet.noConfusion hc

/-- The pty produces an `a`: the terminal gets a null byte in front of it. -/
theorem status_byte_copied :
    let s := run (step plainClient false) (start (fun _ => 0) true ())
      [.ptyRead (.data 97 []), .copy, .write (.accepted 2), .receive 2, .handle 2 2]
    s.Idle ∧ s.tty = [0, 97] ∧ s.tty ≠ s.produced := by
  exact ⟨⟨by decide, by decide, by decide, by decide⟩, by decide, by decide⟩

end Inetutils.Session.PtyOutput
