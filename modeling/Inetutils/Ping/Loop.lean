import Inetutils.Ping.Duplicates

/-! # The loop of ping

`ping_run` of `src/ping/ping.c` with a count, over the requests and packets of `Duplicates`. A turn
of the loop is one `select`; it says what came of it and how much time went by. The clock has
microseconds and is not set meanwhile. -/

namespace Inetutils.Ping.Loop

open Lib.Runs Duplicates

/-! ### The clock -/

structure Timeval where
  tv_sec : ℤ
  tv_usec : ℤ

def Timeval.micros (t : Timeval) : ℤ := 1000000 * t.tv_sec + t.tv_usec

def gettimeofday (clock : ℤ) : Timeval := ⟨clock / 1000000, clock % 1000000⟩

def tvsub (out t : Timeval) : Timeval :=
  if out.tv_usec - t.tv_usec < 0 then ⟨out.tv_sec - 1 - t.tv_sec, out.tv_usec - t.tv_usec + 1000000⟩
  else ⟨out.tv_sec - t.tv_sec, out.tv_usec - t.tv_usec⟩

/-- What `select` waits for; the two loops leave the microseconds of a second. -/
def resp_time (last intvl now : Timeval) : Timeval :=
  let tv_sec := last.tv_sec + intvl.tv_sec - now.tv_sec
  let tv_usec := last.tv_usec + intvl.tv_usec - now.tv_usec
  if tv_sec + tv_usec / 1000000 < 0 then ⟨0, 0⟩ else ⟨tv_sec + tv_usec / 1000000, tv_usec % 1000000⟩

/-! ### The loop -/

structure Config where
  ping_count : ℕ
  preload : ℕ
  ping_interval : ℕ
  flood : Bool
  linger : ℕ
  timeout : ℤ
  ping_start_time : Timeval
  pos : 0 < ping_count
  lt : preload < ping_count

def ping_timeout_p (c : Config) (clock : ℤ) : Bool :=
  c.timeout ≠ -1 && c.timeout ≤ (tvsub (gettimeofday clock) c.ping_start_time).tv_sec

/-- `PING_SET_INTERVAL`, or the interval of a flood. -/
def Config.intvl (c : Config) : Timeval :=
  if c.flood then ⟨0, 10000⟩ else ⟨c.ping_interval / 1000, (c.ping_interval % 1000) * 1000⟩

/-- Why the loop is over; to count behind `INT_MAX` is not defined. -/
inductive Reason
  | interrupted
  | timedOut
  | counted
  | finished
  | overflow
  deriving DecidableEq

/-- `sent` is the time of the last request, and `answered` are the requests that have been
answered. -/
structure State where
  ping : PingData
  last : Timeval
  intvl : Timeval
  finishing : Bool
  nresp : ℕ
  clock : ℤ
  ended : Option Reason
  sent : ℤ
  answered : Finset ℕ

structure Send where
  wait : ℕ
  malloc : Bool
  sendto : Bool

/-- An answer to request `k`, and any other packet. -/
inductive Arrival
  | answer (k : ℕ)
  | stray (pkt : Packet)

def Arrival.packet (p : PingData) : Arrival → Packet
  | .answer k => .reply p.ident (seq k)
  | .stray pkt => pkt

inductive Select
  | error
  | ready (a : Arrival)
  | timeout (x : Send)

/-- `before` is the time up to `now`, `during` the time in `select`, of a timeout that by which it
is late, and `behind` the time up to `last`. -/
structure Turn where
  stop : Bool
  before : ℕ
  select : Select
  during : ℕ
  behind : ℕ

def State.send_echo (s : State) (x : Send) : State :=
  { s with
    ping := pingXmit x.malloc x.sendto s.ping
    clock := s.clock + x.wait
    sent := if (pingXmit x.malloc x.sendto s.ping).numXmit = s.ping.numXmit then s.sent
      else s.clock + x.wait }

def preloaded (s : State) (sends : ℕ → Send) : ℕ → State
  | 0 => s
  | n + 1 => (preloaded s sends n).send_echo (sends n)

def begin (c : Config) (p : PingData) (clock : ℤ) : State :=
  { ping := pingReset (pingUnsetData p), last := ⟨0, 0⟩, intvl := c.intvl,
    finishing := false, nresp := 0, clock
    ended := none, sent := clock, answered := ∅ }

/-- **`ping_run`** up to the loop. -/
def start (c : Config) (p : PingData) (clock : ℤ) (sends : ℕ → Send) (x : Send) : State :=
  let s := preloaded (begin c p clock) sends c.preload
  { s with last := gettimeofday s.clock }.send_echo x

def Arrival.answers (s : State) : Arrival → Finset ℕ
  | .answer k => if k < s.ping.numXmit then insert k s.answered else s.answered
  | .stray _ => s.answered

/-- `ping_recv` returns `0`. -/
def accepts (s : State) (a : Arrival) : Bool := (pingRecv s.ping (a.packet s.ping)).2.isSome

def received (c : Config) (s : State) (a : Arrival) : State :=
  if accepts s a ∧ s.nresp + 1 = 2 ^ 31 then { s with ended := some .overflow }
  else
    let s :=
      { s with
        ping := (pingRecv s.ping (a.packet s.ping)).1
        nresp := if accepts s a then s.nresp + 1 else s.nresp
        answered := a.answers s }
    if ping_timeout_p c s.clock then { s with ended := some .timedOut }
    else if c.ping_count ≠ 0 ∧ c.ping_count ≤ s.nresp then { s with ended := some .counted }
    else s

def expired (c : Config) (s : State) (x : Send) (behind : ℕ) : State :=
  if c.ping_count = 0 ∨ s.ping.numXmit < c.ping_count then
    let s := s.send_echo x
    if ping_timeout_p c s.clock then { s with ended := some .timedOut }
    else { s with last := gettimeofday (s.clock + behind), clock := s.clock + behind }
  else if s.finishing then { s with ended := some .finished }
  else
    { s with
      finishing := true
      intvl := { s.intvl with tv_sec := c.linger }
      last := gettimeofday (s.clock + behind)
      clock := s.clock + behind }

/-- **A turn of the loop**. -/
def turn (c : Config) (s : State) (t : Turn) : State :=
  if s.ended.isSome then s
  else if t.stop then { s with ended := some .interrupted }
  else
    let now := s.clock + t.before
    match t.select with
    | .error => { s with clock := now + t.during }
    | .ready a => received c { s with clock := now + t.during } a
    | .timeout x =>
      let wait := (resp_time s.last s.intvl (gettimeofday now)).micros
      expired c { s with clock := now + wait + t.during } x t.behind

/-! ### What is to hold -/

/-- All requests have been sent, and the time to linger is over. -/
def Lingered (c : Config) (s : State) : Prop :=
  s.ping.numXmit = c.ping_count ∧ s.sent + 1000000 * c.linger ≤ s.clock

/-- **When the loop may return**. -/
def Sound (c : Config) (s : State) : Prop :=
  match s.ended with
  | some .counted | some .finished =>
    s.ping.numXmit = c.ping_count ∧
      (s.answered.card = c.ping_count ∨ s.sent + 1000000 * c.linger ≤ s.clock)
  | some .overflow => False
  | _ => True

def Arrival.First (s : State) : Arrival → Prop
  | .answer k => k < s.ping.numXmit ∧ k ∉ s.answered
  | .stray _ => False

instance (s : State) (a : Arrival) : Decidable (a.First s) :=
  match a with
  | .answer _ => inferInstanceAs (Decidable (_ ∧ _))
  | .stray _ => inferInstanceAs (Decidable False)

/-- **A packet that is counted**: there is room in the counter, and if it is the last that is
counted then all of them are first answers, or the time to linger is over. -/
def Fits (c : Config) (s : State) (a : Arrival) : Prop :=
  s.nresp + 1 < 2 ^ 31 ∧
    (ping_timeout_p c s.clock = true ∨ s.nresp + 1 < c.ping_count ∨
      (s.nresp = s.answered.card ∧ a.First s) ∨ Lingered c s)

def Kept (c : Config) (s : State) (t : Turn) : Prop :=
  ∀ a, s.ended = none → t.stop = false → t.select = .ready a →
    accepts s a = true → Fits c { s with clock := s.clock + t.before + t.during } a

/-! ### The time -/

theorem micros_gettimeofday (clock : ℤ) : (gettimeofday clock).micros = clock := by
  unfold gettimeofday Timeval.micros
  dsimp only
  omega

theorem le_micros_resp_time (last intvl now : Timeval) :
    last.micros + intvl.micros ≤ now.micros + (resp_time last intvl now).micros ∧
      0 ≤ (resp_time last intvl now).micros := by
  unfold resp_time Timeval.micros
  dsimp only
  split_ifs <;> dsimp only <;> omega

/-! ### The requests -/

theorem numXmit_pingXmit (malloc sendto : Bool) (p : PingData) :
    (pingXmit malloc sendto p).numXmit = p.numXmit ∨
      (pingXmit malloc sendto p).numXmit = p.numXmit + 1 ∧ ∃ t,
      (pingXmit malloc sendto p).cktab = some t := by
  unfold pingXmit
  split
  · exact .inl rfl
  · cases sendto with
    | true => exact .inr ⟨rfl, _, rfl⟩
    | false => exact .inl rfl

theorem cktab_pingXmit (malloc sendto : Bool) {p : PingData} {t : Lib.Bits.Table}
    (h : p.cktab = some t) :
    ∃ t', (pingXmit malloc sendto p).cktab = some t' := by
  unfold pingXmit setbuf
  rw [h]
  exact ⟨_, rfl⟩

theorem pingRecv_keeps (p : PingData) (pkt : Packet) :
    (pingRecv p pkt).1.numXmit = p.numXmit ∧
    (p.cktab.isSome → (pingRecv p pkt).1.cktab.isSome) := by
  unfold pingRecv
  cases pkt with
  | short => exact ⟨rfl, fun h => h⟩
  | request => exact ⟨rfl, fun h => h⟩
  | error mine => exact ⟨rfl, fun h => h⟩
  | reply id seq =>
    dsimp only
    split_ifs
    · exact ⟨rfl, fun h => h⟩
    · cases htab : p.cktab with
      | none => exact ⟨rfl, fun h => nomatch h⟩
      | some t =>
        dsimp only
        split_ifs
        · exact ⟨rfl, fun _ => rfl⟩
        · exact ⟨rfl, fun _ => rfl⟩

/-! ### The invariant -/

structure Inv (c : Config) (s : State) : Prop where
  numXmit : s.ping.numXmit ≤ c.ping_count
  answered : ∀ k ∈ s.answered, k < s.ping.numXmit
  card : s.answered.card ≤ s.nresp
  cktab : s.ping.numXmit ≠ 0 → s.ping.cktab.isSome
  nresp : s.nresp < 2 ^ 31
  going : s.ended = none → s.nresp < c.ping_count
  sent : s.sent ≤ s.clock
  tv_usec : 0 ≤ s.intvl.tv_usec
  finishing : s.finishing = true →
    s.ping.numXmit = c.ping_count ∧ s.sent ≤ s.last.micros ∧ s.intvl.tv_sec = c.linger

section
variable {c : Config} {s : State}

theorem inv_clock (h : Inv c s) {clock : ℤ} (hle : s.clock ≤ clock) : Inv c { s with clock } :=
  ⟨h.numXmit, h.answered, h.card, h.cktab, h.nresp, h.going, h.sent.trans hle, h.tv_usec,
    h.finishing⟩

theorem inv_ended (h : Inv c s) (r : Reason) : Inv c { s with ended := some r } :=
  ⟨h.numXmit, h.answered, h.card, h.cktab, h.nresp, nofun, h.sent, h.tv_usec, h.finishing⟩

theorem inv_send_echo (h : Inv c s) (hlt : s.ping.numXmit < c.ping_count) (x : Send) :
    Inv c (s.send_echo x) := by
  have hnum := numXmit_pingXmit x.malloc x.sendto s.ping
  have hnot : s.finishing ≠ true := fun hf => hlt.ne (h.finishing hf).1
  have hle : s.ping.numXmit ≤ (pingXmit x.malloc x.sendto s.ping).numXmit := by omega
  refine ⟨?_, fun k hk => lt_of_lt_of_le (h.answered k hk) hle, h.card, fun hne => ?_, h.nresp,
    h.going, ?_, h.tv_usec, fun hf => absurd hf hnot⟩
  · show (pingXmit x.malloc x.sendto s.ping).numXmit ≤ c.ping_count
    omega
  · rcases hnum with heq | ⟨-, t, ht⟩
    · obtain ⟨t, ht⟩ := Option.isSome_iff_exists.1 (h.cktab (heq ▸ hne))
      obtain ⟨t', ht'⟩ := cktab_pingXmit x.malloc x.sendto ht
      exact Option.isSome_iff_exists.2 ⟨t', ht'⟩
    · exact Option.isSome_iff_exists.2 ⟨t, ht⟩
  · have hwait : s.clock ≤ s.clock + x.wait := Int.le_add_of_nonneg_right (Int.natCast_nonneg _)
    show (if _ then s.sent else s.clock + x.wait) ≤ s.clock + x.wait
    split_ifs
    · exact h.sent.trans hwait
    · exact Int.le_refl _

theorem accepts_of_first (h : Inv c s) {a : Arrival} (ha : a.First s) : accepts s a = true := by
  cases a with
  | stray pkt => exact absurd ha id
  | answer k =>
    obtain ⟨t, ht⟩ :=
      Option.isSome_iff_exists.1 (h.cktab (Nat.ne_of_gt (Nat.lt_of_le_of_lt (Nat.zero_le k) ha.1)))
    unfold accepts Arrival.packet pingRecv
    dsimp only
    rw [if_neg (not_not.2 rfl), ht]
    dsimp only
    split_ifs <;> rfl

theorem card_answers (h : Inv c s) (a : Arrival) :
    (∀ k ∈ a.answers s, k < s.ping.numXmit) ∧
    (a.First s → (a.answers s).card = s.answered.card + 1) ∧
      (¬ a.First s → (a.answers s).card = s.answered.card) := by
  cases a with
  | stray pkt => exact ⟨h.answered, fun ha => absurd ha id, fun _ => rfl⟩
  | answer k =>
    unfold Arrival.answers Arrival.First
    dsimp only
    by_cases hk : k < s.ping.numXmit
    · rw [if_pos hk]
      refine ⟨fun j hj => ?_, fun ha => Finset.card_insert_of_notMem ha.2, fun ha => ?_⟩
      · rcases Finset.mem_insert.1 hj with rfl | hj
        · exact hk
        · exact h.answered j hj
      · rw [Finset.insert_eq_of_mem (not_not.1 fun hmem => ha ⟨hk, hmem⟩)]
    · rw [if_neg hk]
      exact ⟨h.answered, fun ha => absurd ha.1 hk, fun _ => rfl⟩

/-! ### A packet -/

/-- The state behind `ping_recv`. -/
def counted (s : State) (a : Arrival) : State :=
  { s with
    ping := (pingRecv s.ping (a.packet s.ping)).1
    nresp := if accepts s a then s.nresp + 1 else s.nresp
    answered := a.answers s }

theorem received_eq (a : Arrival) (h : ¬ (accepts s a = true ∧ s.nresp + 1 = 2 ^ 31)) :
    received c s a =
      if ping_timeout_p c s.clock then { counted s a with ended := some .timedOut }
      else if c.ping_count ≠ 0 ∧ c.ping_count ≤ (counted s a).nresp then
        { counted s a with ended := some .counted }
      else counted s a := if_neg h

theorem inv_counted (h : Inv c s) (a : Arrival)
    (hroom : ¬ (accepts s a = true ∧ s.nresp + 1 = 2 ^ 31))
    {e : Option Reason} (hgoing : e = none → (counted s a).nresp < c.ping_count) :
    Inv c { counted s a with ended := e } := by
  obtain ⟨hnum, htable⟩ := pingRecv_keeps s.ping (a.packet s.ping)
  obtain ⟨hlt, hfirst, hother⟩ := card_answers h a
  have hnresp : (counted s a).nresp = if accepts s a then s.nresp + 1 else s.nresp := rfl
  have hcard := h.card
  have hmax := h.nresp
  refine ⟨hnum.trans_le h.numXmit, fun k hk => hnum.symm ▸ hlt k hk, ?_,
    fun hne => htable (h.cktab (hnum ▸ hne)), ?_,
    hgoing, h.sent, h.tv_usec, fun hf => ⟨hnum.trans (h.finishing hf).1, (h.finishing hf).2⟩⟩
  · show (a.answers s).card ≤ (counted s a).nresp
    by_cases ha : a.First s
    · rw [hfirst ha, hnresp, if_pos (accepts_of_first h ha)]
      exact Nat.succ_le_succ hcard
    · rw [hother ha, hnresp]
      split_ifs <;> omega
  · rw [hnresp]
    split_ifs with hacc
    · have hne : s.nresp + 1 ≠ 2 ^ 31 := fun heq => hroom ⟨hacc, heq⟩
      omega
    · exact hmax

theorem inv_received (h : Inv c s) (a : Arrival) : Inv c (received c s a) := by
  by_cases hroom : accepts s a = true ∧ s.nresp + 1 = 2 ^ 31
  · rw [received, if_pos hroom]
    exact inv_ended h _
  · rw [received_eq a hroom]
    split_ifs with htimeout hcount
    · exact inv_counted h a hroom nofun
    · exact inv_counted h a hroom nofun
    · refine inv_counted h a hroom fun _ => ?_
      exact Nat.lt_of_not_le fun hle => hcount ⟨Nat.ne_of_gt c.pos, hle⟩

/-- **A packet**: when the loop may go on, or return. -/
theorem sound_received (h : Inv c s) (hended : s.ended = none) (a : Arrival) :
    Sound c (received c s a) ↔ (accepts s a = true → Fits c s a) := by
  have hgoing := h.going hended
  have hmax := h.nresp
  have hon {e : Option Reason} (he : e = none ∨ e = some .timedOut) :
      Sound c { counted s a with ended := e } := by
    rcases he with rfl | rfl <;> trivial
  by_cases hacc : accepts s a = true
  swap
  · have hnresp : (counted s a).nresp = s.nresp := if_neg hacc
    refine iff_of_true ?_ fun h => absurd h hacc
    rw [received_eq a fun h => hacc h.1, hnresp]
    split_ifs with htimeout hcount
    · exact hon (.inr rfl)
    · exact absurd hcount.2 (Nat.not_le.2 hgoing)
    · exact hon (.inl hended)
  rw [forall_prop_of_true hacc]
  by_cases hroom : s.nresp + 1 = 2 ^ 31
  · rw [received, if_pos ⟨hacc, hroom⟩]
    exact iff_of_false id fun hfits => absurd hroom hfits.1.ne
  have hnresp : (counted s a).nresp = s.nresp + 1 := if_pos hacc
  have hlt : s.nresp + 1 < 2 ^ 31 := by omega
  rw [received_eq a fun h => hroom h.2, hnresp, Fits, and_iff_right hlt]
  by_cases htimeout : ping_timeout_p c s.clock = true
  · rw [if_pos htimeout]
    exact iff_of_true (hon (.inr rfl)) (.inl htimeout)
  rw [if_neg htimeout, or_iff_right htimeout]
  by_cases hcount : c.ping_count ≤ s.nresp + 1
  swap
  · rw [if_neg fun h => hcount h.2]
    exact iff_of_true (hon (.inl hended)) (.inl (Nat.lt_of_not_le hcount))
  rw [if_pos ⟨Nat.ne_of_gt c.pos, hcount⟩, or_iff_right (Nat.not_lt.2 hcount)]
  -- the packet is the last that is counted
  obtain ⟨hnum, -⟩ := pingRecv_keeps s.ping (a.packet s.ping)
  obtain ⟨hsent, hfirst, hother⟩ := card_answers h a
  have hle : (a.answers s).card ≤ s.ping.numXmit := by
    have hsub : a.answers s ⊆ Finset.range s.ping.numXmit :=
      fun k hk => Finset.mem_range.2 (hsent k hk)
    exact (Finset.card_le_card hsub).trans_eq (Finset.card_range _)
  have hxmit := h.numXmit
  have hcard := h.card
  show (pingRecv s.ping (a.packet s.ping)).1.numXmit = c.ping_count ∧
    ((a.answers s).card = c.ping_count ∨ s.sent + 1000000 * c.linger ≤ s.clock) ↔ _
  rw [hnum]
  constructor
  · rintro ⟨hall, hanswered | hlinger⟩
    · refine .inl ?_
      by_cases ha : a.First s
      · exact ⟨by rw [hfirst ha] at hanswered; omega, ha⟩
      · rw [hother ha] at hanswered
        omega
    · exact .inr ⟨hall, hlinger⟩
  · rintro (⟨hfull, ha⟩ | ⟨hall, hlinger⟩)
    · rw [hfirst ha] at hle ⊢
      omega
    · exact ⟨hall, .inr hlinger⟩

/-! ### A timeout -/

theorem inv_expired (h : Inv c s) (x : Send) (behind : ℕ) : Inv c (expired c s x behind) := by
  have hbehind (clock : ℤ) : clock ≤ clock + behind :=
    Int.le_add_of_nonneg_right (Int.natCast_nonneg _)
  unfold expired
  by_cases hlt : s.ping.numXmit < c.ping_count
  · rw [if_pos (.inr hlt)]
    have hsend := inv_send_echo h hlt x
    have hnot : s.finishing ≠ true := fun hf => hlt.ne (h.finishing hf).1
    dsimp only
    split_ifs
    · exact inv_ended hsend _
    · have hclock := inv_clock hsend (hbehind (s.send_echo x).clock)
      exact ⟨hclock.numXmit, hclock.answered, hclock.card, hclock.cktab, hclock.nresp, hclock.going,
        hclock.sent, hclock.tv_usec, fun hf => absurd hf hnot⟩
  · have hnot : ¬ (c.ping_count = 0 ∨ s.ping.numXmit < c.ping_count) :=
      not_or.2 ⟨Nat.ne_of_gt c.pos, hlt⟩
    split_ifs
    · exact inv_ended h _
    · have hclock := inv_clock h (hbehind s.clock)
      refine ⟨hclock.numXmit, hclock.answered, hclock.card, hclock.cktab, hclock.nresp,
        hclock.going, hclock.sent,
        hclock.tv_usec, fun _ => ⟨Nat.le_antisymm h.numXmit (Nat.le_of_not_lt hlt), ?_, rfl⟩⟩
      rw [micros_gettimeofday]
      exact hclock.sent

/-- **A timeout**: the loop goes on, or has lingered. -/
theorem sound_expired (h : Inv c s) (hended : s.ended = none)
    (hclock : s.last.micros + s.intvl.micros ≤ s.clock)
    (x : Send) (behind : ℕ) : Sound c (expired c s x behind) := by
  have hgoing {s : State} (hs : s.ended = none) : Sound c s := by
    unfold Sound
    rw [hs]
    trivial
  unfold expired
  dsimp only
  split_ifs with hlt htimeout hfinishing
  · trivial
  · exact hgoing hended
  · obtain ⟨hall, hlast, hlinger⟩ := h.finishing hfinishing
    have husec := h.tv_usec
    refine ⟨hall, .inr ?_⟩
    unfold Timeval.micros at hclock hlast
    show s.sent + 1000000 * c.linger ≤ s.clock
    rw [hlinger] at hclock
    omega
  · exact hgoing hended

/-! ### The run -/

theorem le_clock (s : State) (before during : ℕ) :
    s.clock ≤ s.clock + before +
    (resp_time s.last s.intvl (gettimeofday (s.clock + before))).micros + during ∧
      s.last.micros + s.intvl.micros ≤
        s.clock + before +
        (resp_time s.last s.intvl (gettimeofday (s.clock + before))).micros + during := by
  have hwait := le_micros_resp_time s.last s.intvl (gettimeofday (s.clock + before))
  rw [micros_gettimeofday] at hwait
  omega

theorem inv_turn (h : Inv c s) (t : Turn) : Inv c (turn c s t) := by
  unfold turn
  split_ifs
  · exact h
  · exact inv_ended h _
  · have hle : s.clock ≤ s.clock + t.before + t.during := by omega
    cases t.select with
    | error => exact inv_clock h hle
    | ready a => exact inv_received (inv_clock h hle) a
    | timeout x => exact inv_expired (inv_clock h (le_clock s t.before t.during).1) x t.behind

theorem sound_turn (hs : Sound c s) (h : Inv c s) (t : Turn) : Sound c (turn c s t) ↔
    Kept c s t := by
  unfold turn Kept
  by_cases hended : s.ended = none
  swap
  · rw [if_pos (Option.isSome_iff_ne_none.2 hended)]
    exact iff_of_true hs fun a he => absurd he hended
  rw [if_neg (by rw [hended]; decide)]
  cases hstop : t.stop with
  | true => exact iff_of_true trivial fun a _ he => nomatch he
  | false =>
    have hle : s.clock ≤ s.clock + t.before + t.during := by omega
    rw [if_neg Bool.false_ne_true]
    cases hselect : t.select with
    | error =>
      refine iff_of_true ?_ fun a _ _ he => nomatch he
      rw [hended]
      trivial
    | timeout x =>
      obtain ⟨hclock, hlast⟩ := le_clock s t.before t.during
      refine iff_of_true ?_ fun a _ _ he => nomatch he
      exact sound_expired (inv_clock h hclock) hended hlast x t.behind
    | ready a =>
      rw [sound_received (inv_clock h hle) hended a]
      constructor
      · rintro hfits b - - he
        cases he
        exact hfits
      · exact fun hkept => hkept a hended rfl rfl

theorem inv_preloaded (h : Inv c s) (h0 : s.ping.numXmit = 0) (sends : ℕ → Send) {n : ℕ}
    (hn : n ≤ c.preload) :
    Inv c (preloaded s sends n) ∧ (preloaded s sends n).ping.numXmit ≤ n ∧
      (preloaded s sends n).ended = s.ended := by
  induction n with
  | zero => exact ⟨h, le_of_eq h0, rfl⟩
  | succ n ih =>
    obtain ⟨hinv, hle, hended⟩ := ih (Nat.le_of_succ_le hn)
    have hlt := c.lt
    refine ⟨inv_send_echo hinv (by omega) (sends n), ?_, hended⟩
    have hnum := numXmit_pingXmit (sends n).malloc (sends n).sendto (preloaded s sends n).ping
    show (pingXmit _ _ (preloaded s sends n).ping).numXmit ≤ n + 1
    omega

theorem inv_start (c : Config) (p : PingData) (clock : ℤ) (sends : ℕ → Send) (x : Send) :
    Inv c (start c p clock sends x) ∧ (start c p clock sends x).ended = none := by
  have hbegin : Inv c (begin c p clock) := by
    refine ⟨Nat.zero_le _, nofun, Nat.le_refl 0, fun h => absurd rfl h, Nat.two_pow_pos 31,
      fun _ => c.pos, Int.le_refl _, ?_, nofun⟩
    show 0 ≤ c.intvl.tv_usec
    unfold Config.intvl
    split_ifs <;> dsimp only <;> omega
  obtain ⟨h, hle, hended⟩ := inv_preloaded hbegin rfl sends (Nat.le_refl c.preload)
  have hlt := Nat.lt_of_le_of_lt hle c.lt
  have hlast (last : Timeval) : Inv c { preloaded (begin c p clock) sends c.preload with last } :=
    ⟨h.numXmit, h.answered, h.card, h.cktab, h.nresp, h.going, h.sent, h.tv_usec,
      fun hf => absurd (h.finishing hf).1 hlt.ne⟩
  exact ⟨inv_send_echo
    (hlast (gettimeofday (preloaded (begin c p clock) sends c.preload).clock)) hlt x, hended⟩

end

/-- **In which runs the loop returns** with all requests sent, and answered or waited for: those
where the packets that are counted are first answers, or fewer than the requests. -/
theorem returns_iff (c : Config) (p : PingData) (clock : ℤ) (sends : ℕ → Send) (x : Send)
    (l : List Turn) :
    (∀ l', l' <+: l → Sound c (run (turn c) (start c p clock sends x) l')) ↔
      Allowed (turn c) (Kept c) (start c p clock sends x) l := by
  obtain ⟨hinv, hended⟩ := inv_start c p clock sends x
  have hsound : Sound c (start c p clock sends x) := by
    unfold Sound
    rw [hended]
    trivial
  exact inv_iff_allowed (J := Inv c) (fun s t hs h => sound_turn hs h t)
    (fun s t h => inv_turn h t) hsound hinv

/-! ### A second answer -/

/-- `-c 2` -/
def two : Config :=
  { ping_count := 2, preload := 0, ping_interval := 1000, flood := false,
    linger := 10, timeout := -1
    ping_start_time := ⟨0, 0⟩, pos := Nat.two_pos, lt := Nat.two_pos }

def twice : List Turn :=
  [⟨false, 0, .ready (.answer 0), 10, 0⟩, ⟨false, 0, .ready (.answer 0), 10, 0⟩]

theorem not_sound_twice :
    ¬ ∀ (c : Config) (p : PingData) (clock : ℤ) (sends : ℕ → Send) (x : Send) (l : List Turn),
      Sound c (run (turn c) (start c p clock sends x) l) := by
  intro h
  have hsound := h two (pingInit 7) 0 (fun _ => ⟨0, true, true⟩) ⟨0, true, true⟩ twice
  have hended :
      (run (turn two)
        (start two (pingInit 7) 0 (fun _ => ⟨0, true, true⟩) ⟨0, true, true⟩) twice).ended =
      some .counted := by decide +kernel
  have hsent :
      (run (turn two)
        (start two (pingInit 7) 0 (fun _ => ⟨0, true, true⟩) ⟨0, true, true⟩) twice).ping.numXmit
      = 1 := by decide +kernel
  unfold Sound at hsound
  rw [hended] at hsound
  exact absurd (hsent.symm.trans hsound.1) (by decide)

end Inetutils.Ping.Loop
