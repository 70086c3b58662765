import Inetutils.Lib.Runs
import Inetutils.Traceroute.Read

/-! # The hops of traceroute

`do_try` and `trace_write` of `src/src/traceroute.c`, in the loop of `main`. A turn of `do_try` is
one `select`; the clock has microseconds. Which probe a datagram answers is known to the network
only. A system call that fails otherwise ends the program, and with it the run. -/

namespace Inetutils.Traceroute.Hops

open Lib.Runs Libicmp Read List

/-! ### The program -/

/-- `opt_port` is between `1` and `65536`. -/
structure Config where
  order : Cksum.Order
  type : TraceType
  dest : List Byte
  opt_port : ℕ
  max_tries : ℕ
  pos : 0 < max_tries

def opt_max_hops : ℕ := 64

structure Probe where
  hop : ℕ
  ttl : ℕ
  port : ℕ
  time : ℤ

/-- What arrives, with what stands in `data` before, and the number of the probe that it answers. -/
structure Datagram where
  bytes : List Byte
  stale : List Byte
  length_stale : stale.length = 56
  source : List Byte
  answers : Option ℕ

/-- `data`, behind `recvfrom`. -/
def Datagram.data (d : Datagram) : List Byte := d.bytes.take 56 ++ d.stale.drop d.bytes.length

inductive Wait
  | interrupted
  | expired
  | ready (d : Datagram)

/-- A turn of the loop: `sendto` may come to `ECONNRESET`, and `clock` is the time behind it. -/
structure Turn where
  reset : Bool
  clock : ℤ
  wait : Wait
  now : ℤ

/-- `" * "`, or a time in microseconds, with an address ahead of it. -/
inductive Printed
  | star
  | time (source : Option (List Byte)) (us : ℤ)

def Printed.time? : Printed → Option ℤ
  | star => none
  | time _ us => some us

/-- An answer that was taken, the probe that it answers, and the time that was measured. -/
structure Heard where
  hop : ℕ
  datagram : Datagram
  probe : Option Probe
  stops : Bool
  us : ℤ
  now : ℤ

inductive Phase
  | running
  | done
  | broken
  deriving DecidableEq

structure State where
  phase : Phase
  stop : Bool
  hop : ℕ
  tries : ℕ
  readonly : Bool
  ttl : ℕ
  port : ℕ
  tsent : ℤ
  prev_addr : List Byte
  sent : List Probe
  heard : List Heard
  line : List Printed
  lines : List (List Printed)

/-- `trace_init`, with the `ttl` of `TRACE_TTL` and the port `htons (opt_port)`. -/
def start (c : Config) : State where
  phase := .running
  stop := false
  hop := 1
  tries := 0
  readonly := false
  ttl := 1
  port := c.opt_port % 65536
  tsent := 0
  prev_addr := [0, 0, 0, 0]
  sent := []
  heard := []
  line := []
  lines := []

/-- **`trace_write`** -/
def trace_write (s : State) (t : Turn) : State :=
  if t.reset then { s with tsent := t.clock }
  else { s with tsent := t.clock, sent := s.sent ++ [⟨s.hop, s.ttl, s.port, t.clock⟩] }

/-- `if (!readonly)` -/
def State.probe (s : State) (t : Turn) : State := if s.readonly then s else trace_write s t

/-- The end of a try, and behind the last one the end of the hop. -/
def next (c : Config) (s : State) : State :=
  if s.tries + 1 < c.max_tries then { s with readonly := false, tries := s.tries + 1 }
  else
    { s with
      phase := if s.stop || decide (opt_max_hops < s.hop + 1) then .done else .running
      hop := s.hop + 1
      tries := 0
      readonly := false
      ttl := s.ttl + 1
      port := if c.type = .udp then (s.port + 1) % 65536 else s.port
      prev_addr := [0, 0, 0, 0]
      line := []
      lines := s.lines ++ [s.line] }

def State.star (s : State) : State := { s with line := s.line ++ [.star] }

def State.answered (s : State) (d : Datagram) (stops : Bool) (now : ℤ) : State :=
  let us := now - s.tsent
  { s with
    stop := s.stop || stops
    prev_addr := d.source
    heard := s.heard ++ [⟨s.hop, d, d.answers.bind (s.sent[·]?), stops, us, now⟩]
    line :=
      s.line ++ [.time (if s.tries = 0 ∨ s.prev_addr ≠ d.source then some d.source else none) us] }

def ready (c : Config) (s : State) (d : Datagram) (now : ℤ) : State :=
  match trace_read c.order ⟨c.type, s.port, c.dest⟩ d.data with
  | none => { s with phase := .broken }
  | some (false, _) => { s with readonly := true }
  | some (true, stops) => next c (s.answered d stops now)

/-- **`do_try`**: a turn of its loop. -/
def turn (c : Config) (s : State) (t : Turn) : State :=
  match s.phase with
  | .running =>
    let s := s.probe t
    match t.wait with
    | .interrupted => next c s
    | .expired => next c s.star
    | .ready d => ready c s d t.now
  | _ => s

/-! ### What is to hold -/

/-- The datagram is an answer to a probe of the hop: the header that it quotes or echoes, in what
was received, is that of the probe, and the time is measured against the probe. -/
def Heard.Ours (c : Config) (h : Heard) : Prop :=
  need c.type h.datagram.data ≤ h.datagram.bytes.length ∧
    ∃ p, h.probe = some p ∧ p.hop = h.hop ∧ Passes c.order c.type p.port h.datagram.data ∧
    h.us = h.now - p.time

def State.count (s : State) (hop : ℕ) : ℕ := s.sent.countP (·.hop = hop)

/-- All answers that are taken are ours, and every hop that is over has its probes and their
results. -/
structure Kept (c : Config) (s : State) : Prop where
  ours : ∀ h ∈ s.heard, h.Ours c
  stop : s.stop = s.heard.any Heard.stops
  times : (s.lines.flatten ++ s.line).filterMap Printed.time? = s.heard.map Heard.us
  probes : ∀ hop, 0 < hop → hop < s.hop → s.count hop = c.max_tries
  hops : s.lines.length + 1 = s.hop
  results : ∀ l ∈ s.lines, l.length = c.max_tries

/-- **Every try has a probe**, and its result if it is over. -/
structure Right (c : Config) (s : State) : Prop extends Kept c s where
  broken : s.phase ≠ .broken
  probe : s.count s.hop = s.tries + if s.readonly then 1 else 0
  result : s.line.length = s.tries

/-- The datagram has 56 bytes or fewer to be looked at; if it has the fields that are compared then
all of these have been received, and it answers the probe of the hop that was sent last. -/
def Known (c : Config) (s : State) (d : Datagram) : Prop :=
  need c.type d.data ≤ 56 ∧
    (Passes c.order c.type s.port d.data →
      need c.type d.data ≤ d.bytes.length ∧
        ∃ p, d.answers.bind (s.sent[·]?) = some p ∧ p.hop = s.hop ∧ p.time = s.tsent)

def Ok (c : Config) (s : State) (t : Turn) : Prop :=
  s.phase = .running →
    (s.readonly = false → t.reset = false) ∧
      match t.wait with
      | .interrupted => False
      | .expired => True
      | .ready d => Known c (s.probe t) d

/-! ### What every turn keeps -/

structure Inv (c : Config) (s : State) : Prop where
  hop : 0 < s.hop
  tries : s.tries < c.max_tries
  bound : ∀ p ∈ s.sent, p.hop ≤ s.hop
  port : ∀ p ∈ s.sent, p.hop = s.hop → p.port = s.port

section
variable {c : Config} {s : State}

theorem inv_start (c : Config) : Inv c (start c) :=
  ⟨one_pos, c.pos, forall_mem_nil _, forall_mem_nil _⟩

theorem inv_next (h : Inv c s) : Inv c (next c s) := by
  rw [next]
  split
  next hlt => exact ⟨h.hop, hlt, h.bound, h.port⟩
  next =>
    refine ⟨Nat.succ_pos _, c.pos, fun p hp => Nat.le_succ_of_le (h.bound p hp), fun p hp heq => ?_⟩
    have hle := h.bound p hp
    dsimp only at heq
    omega

theorem inv_write (h : Inv c s) (t : Turn) : Inv c (trace_write s t) := by
  rw [trace_write]
  split
  next => exact ⟨h.hop, h.tries, h.bound, h.port⟩
  next =>
    refine ⟨h.hop, h.tries, ?_, ?_⟩
    · exact forall_mem_append.2 ⟨h.bound, forall_mem_singleton.2 le_rfl⟩
    · exact forall_mem_append.2 ⟨h.port, forall_mem_singleton.2 fun _ => rfl⟩

theorem inv_star (h : Inv c s) : Inv c s.star := ⟨h.hop, h.tries, h.bound, h.port⟩

theorem inv_answered (h : Inv c s) (d : Datagram) (stops : Bool) (now : ℤ) :
    Inv c (s.answered d stops now) :=
  ⟨h.hop, h.tries, h.bound, h.port⟩

theorem inv_ready (h : Inv c s) (d : Datagram) (now : ℤ) : Inv c (ready c s d now) := by
  rw [ready]
  split
  · exact ⟨h.hop, h.tries, h.bound, h.port⟩
  · exact ⟨h.hop, h.tries, h.bound, h.port⟩
  · exact inv_next (inv_answered h _ _ _)

theorem inv_probe (h : Inv c s) (t : Turn) : Inv c (s.probe t) := by
  rw [State.probe]
  split
  · exact h
  · exact inv_write h t

theorem inv_turn (h : Inv c s) (t : Turn) : Inv c (turn c s t) := by
  have hwrite := inv_probe h t
  rw [turn]
  split
  · dsimp only
    split
    · exact inv_next hwrite
    · exact inv_next (inv_star hwrite)
    · exact inv_ready hwrite _ _
  · exact h

/-! ### The end of a try -/

theorem count_of_lt (h : Inv c s) {hop : ℕ} (hlt : s.hop < hop) : s.count hop = 0 := by
  refine countP_eq_zero.2 fun p hp => ?_
  have hle := h.bound p hp
  simp only [decide_eq_true_eq]
  omega

theorem right_next (h : Inv c s) (hrun : s.phase = .running) :
    Right c (next c s) ↔ Kept c s ∧ s.count s.hop = s.tries + 1 ∧ s.line.length = s.tries + 1 := by
  rw [next]
  split
  next hlt =>
    constructor
    · rintro ⟨⟨hours, hstop, htimes, hprobes, hhops, hresults⟩, -, hprobe, hresult⟩
      exact ⟨⟨hours, hstop, htimes, hprobes, hhops, hresults⟩, hprobe, hresult⟩
    · rintro ⟨⟨hours, hstop, htimes, hprobes, hhops, hresults⟩, hprobe, hresult⟩
      exact ⟨⟨hours, hstop, htimes, hprobes, hhops, hresults⟩, by rw [hrun]; decide,
        hprobe, hresult⟩
  next hge =>
    have hmax : s.tries + 1 = c.max_tries := Nat.le_antisymm h.tries (Nat.le_of_not_lt hge)
    have hlast : s.count (s.hop + 1) = 0 := count_of_lt h (Nat.lt_succ_self _)
    have hphase : (if s.stop || decide (opt_max_hops < s.hop + 1) then Phase.done
      else .running) ≠ .broken := by
      split <;> decide
    have hflat : (s.lines ++ [s.line]).flatten ++ [] = s.lines.flatten ++ s.line := by simp
    constructor
    · rintro ⟨⟨hours, hstop, htimes, hprobes, hhops, hresults⟩, -, -, -⟩
      dsimp only at htimes hprobes hhops hresults
      rw [hflat] at htimes
      rw [forall_mem_append, forall_mem_singleton] at hresults
      rw [length_append, length_singleton] at hhops
      refine ⟨⟨hours, hstop, htimes,
        fun hop hpos hlt => hprobes hop hpos (Nat.lt_succ_of_lt hlt), by omega, hresults.1⟩, ?_, ?_⟩
      · exact (hprobes s.hop h.hop (Nat.lt_succ_self _)).trans hmax.symm
      · exact hresults.2.trans hmax.symm
    · rintro ⟨⟨hours, hstop, htimes, hprobes, hhops, hresults⟩, hprobe, hresult⟩
      refine ⟨⟨hours, hstop, hflat ▸ htimes, fun hop hpos hlt => ?_, ?_, ?_⟩, hphase, hlast, rfl⟩
      · rcases Nat.lt_succ_iff_lt_or_eq.1 hlt with hlt | rfl
        · exact hprobes hop hpos hlt
        · exact hprobe.trans hmax
      · dsimp only
        rw [length_append, length_singleton, hhops]
      · exact forall_mem_append.2 ⟨hresults, forall_mem_singleton.2 (hresult.trans hmax)⟩

theorem length_data (d : Datagram) : d.data.length = 56 := by
  rw [Datagram.data, length_append, length_take, length_drop, d.length_stale]
  omega

theorem ours_iff (h : Inv c s) {d : Datagram} (hpasses : Passes c.order c.type s.port d.data)
    (stops : Bool) (now : ℤ) :
    (⟨s.hop, d, d.answers.bind (s.sent[·]?), stops, now - s.tsent, now⟩ : Heard).Ours c ↔
      need c.type d.data ≤ d.bytes.length ∧
        ∃ p, d.answers.bind (s.sent[·]?) = some p ∧ p.hop = s.hop ∧ p.time = s.tsent := by
  refine and_congr_right fun _ => exists_congr fun p => and_congr_right fun hp =>
    and_congr_right fun hhop => ?_
  obtain ⟨k, -, hk⟩ := Option.bind_eq_some_iff.1 hp
  have hport : p.port = s.port := h.port p (mem_of_getElem? hk) hhop
  dsimp only
  rw [hport, and_iff_right hpasses]
  omega

theorem right_ready (h : Inv c s) (hrun : s.phase = .running) (hkept : Kept c s)
    (hresult : s.line.length = s.tries)
    (d : Datagram) (now : ℤ) : Right c (ready c s d now) ↔
    s.count s.hop = s.tries + 1 ∧ Known c s d := by
  obtain ⟨hfits, hout⟩ := trace_read_eq c.order ⟨c.type, s.port, c.dest⟩ (length_data d)
  rw [ready, Known]
  by_cases hneed : need c.type d.data ≤ 56
  · rw [and_iff_right hneed]
    rcases hfits hneed with ⟨hpasses, stops, hread⟩ | ⟨hpasses, hread⟩
    · rw [hread]
      rw [right_next (inv_answered h d stops now) hrun, imp_iff_right hpasses,
        ← ours_iff h hpasses stops now]
      constructor
      · rintro ⟨hkept', hcount, -⟩
        exact ⟨hcount, hkept'.ours _ (mem_append_right _ (mem_singleton.2 rfl))⟩
      · rintro ⟨hcount, hours⟩
        refine ⟨⟨?_, ?_, ?_, hkept.probes, hkept.hops, hkept.results⟩, hcount, ?_⟩
        · exact forall_mem_append.2 ⟨hkept.ours, forall_mem_singleton.2 hours⟩
        · rw [State.answered, hkept.stop, any_append]
          simp
        · rw [State.answered, ← append_assoc, filterMap_append, hkept.times, map_append]
          rfl
        · rw [State.answered, length_append, hresult]
          rfl
    · rw [hread]
      rw [and_iff_left fun hp => absurd hp hpasses]
      exact ⟨fun hright => hright.probe,
        fun hcount => ⟨⟨hkept.ours, hkept.stop, hkept.times, hkept.probes, hkept.hops,
        hkept.results⟩, by rw [hrun]; decide, hcount, hresult⟩⟩
  · rw [hout hneed]
    exact iff_of_false (fun hright => hright.broken rfl) fun hknown => hneed hknown.2.1

/-! ### A probe is sent -/

structure Sends (s s' : State) : Prop where
  phase : s'.phase = s.phase
  stop : s'.stop = s.stop
  hop : s'.hop = s.hop
  tries : s'.tries = s.tries
  heard : s'.heard = s.heard
  line : s'.line = s.line
  lines : s'.lines = s.lines

theorem sends_probe (s : State) (t : Turn) : Sends s (s.probe t) := by
  rw [State.probe, trace_write]
  split
  · exact ⟨rfl, rfl, rfl, rfl, rfl, rfl, rfl⟩
  · split <;> exact ⟨rfl, rfl, rfl, rfl, rfl, rfl, rfl⟩

theorem count_probe (s : State) (t : Turn) (hop : ℕ) :
    (s.probe t).count hop =
    s.count hop + if s.readonly = false ∧ t.reset = false ∧ s.hop = hop then 1 else 0 := by
  rw [State.probe, trace_write]
  cases s.readonly with
  | true => simp
  | false => cases t.reset <;> simp [State.count, countP_append, countP_cons]

theorem kept_probe (hs : Kept c s) (t : Turn) : Kept c (s.probe t) := by
  have hsends := sends_probe s t
  refine ⟨hsends.heard ▸ hs.ours, ?_, ?_, fun hop hpos hlt => ?_, ?_, hsends.lines ▸ hs.results⟩
  · rw [hsends.stop, hsends.heard, hs.stop]
  · rw [hsends.lines, hsends.line, hsends.heard, hs.times]
  · rw [hsends.hop] at hlt
    rw [count_probe, if_neg fun hn => ne_of_gt hlt hn.2.2, add_zero, hs.probes hop hpos hlt]
  · rw [hsends.lines, hsends.hop, hs.hops]

theorem sent_probe (hs : Right c s) (t : Turn) :
    (s.probe t).count (s.probe t).hop = (s.probe t).tries + 1 ↔
    (s.readonly = false → t.reset = false) := by
  have hsends := sends_probe s t
  rw [hsends.hop, hsends.tries, count_probe, hs.probe]
  cases s.readonly <;> cases t.reset <;> simp

/-- **One turn** keeps to the property just in case it meets the condition. -/
theorem right_turn (h : Inv c s) (hs : Right c s) (t : Turn) : Right c (turn c s t) ↔ Ok c s t := by
  by_cases hrun : s.phase = .running
  · have hsends := sends_probe s t
    have hinv := inv_probe h t
    have hkept := kept_probe hs.toKept t
    have hphase : (s.probe t).phase = .running := hsends.phase.trans hrun
    have hresult :
        (s.probe t).line.length = (s.probe t).tries := by rw [hsends.line, hsends.tries, hs.result]
    rw [turn, hrun, Ok, imp_iff_right hrun, ← sent_probe hs t]
    cases t.wait with
    | interrupted =>
      rw [right_next hinv hphase]
      refine iff_of_false (fun hright => ?_) fun hok => hok.2
      omega
    | expired =>
      have hstar : Kept c (s.probe t).star := by
        refine ⟨hkept.ours, hkept.stop, ?_, hkept.probes, hkept.hops, hkept.results⟩
        rw [State.star, ← append_assoc, filterMap_append, hkept.times]
        exact append_nil _
      rw [right_next (inv_star hinv) hphase, and_iff_right hstar, and_true]
      exact and_iff_left (by rw [State.star, length_append, hresult]; rfl)
    | ready d => exact right_ready hinv hphase hkept hresult d t.now
  · have hturn : turn c s t = s := by
      rw [turn]
      split
      next hrun' => exact absurd hrun' hrun
      next => rfl
    rw [hturn]
    exact iff_of_true hs fun hrun' => absurd hrun' hrun

end

theorem right_start (c : Config) : Right c (start c) where
  broken := by simp [start]
  ours := forall_mem_nil _
  stop := rfl
  times := rfl
  probes := fun hop hpos hlt => absurd hlt (Nat.not_lt_of_le hpos)
  hops := rfl
  results := forall_mem_nil _
  probe := rfl
  result := rfl

/-- **In every state of a run** the answers that were taken are ours, and each try has its probe and
its result, just in case every turn meets the condition. -/
theorem probes_iff (c : Config) (l : List Turn) :
    (∀ l', l' <+: l → Right c (run (turn c) (start c) l')) ↔ Allowed (turn c) (Ok c) (start c) l :=
  inv_iff_allowed (J := Inv c) (fun _ t hs h => right_turn h hs t) (fun _ t h => inv_turn h t)
    (right_start c) (inv_start c)

/-! ### Another traceroute -/

/-- `traceroute 192.0.2.9`, with the options as they are by default. -/
def tracing : Config := ⟨.little, .icmp, [192, 0, 2, 9], 33434, 3, Nat.succ_pos 2⟩

/-- A router answers a probe that another process has sent to `192.0.2.7`. -/
def foreign : Datagram where
  bytes :=
    [0x45, 0, 0, 56, 0, 0, 0, 0, 64, 1, 0, 0, 192, 0, 2, 1,
      192, 0, 2, 2, 11, 0, 0, 0, 0, 0, 0, 0] ++
      [0x45, 0, 0, 28, 0, 0, 0, 0, 1, 1, 0, 0, 192, 0, 2, 2,
        192, 0, 2, 7, 8, 0, 0xf7, 0xff, 0, 0, 0, 0]
  stale := List.replicate 56 0
  length_stale := List.length_replicate
  source := [192, 0, 2, 1]
  answers := none

/-- It is taken for an answer. -/
theorem not_right_foreign : ¬ ∀ (c : Config) (l l' : List Turn), l' <+:
    l → Right c (run (turn c) (start c) l') := by
  intro h
  have hright := h tracing [⟨false, 0, .ready foreign, 1000⟩] _ (prefix_refl _)
  have hok :=
    (right_turn (inv_start tracing) (right_start tracing) ⟨false, 0, .ready foreign, 1000⟩).1 hright
  obtain ⟨-, hknown⟩ := (hok rfl).2
  have hpasses : Passes .little .icmp (33434 % 65536) foreign.data := by decide
  obtain ⟨-, p, hp, -⟩ := hknown hpasses
  exact absurd hp.symm (Option.some_ne_none p)

end Inetutils.Traceroute.Hops
