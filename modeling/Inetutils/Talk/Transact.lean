import Inetutils.Lib.Runs
import Mathlib.Data.Int.Notation
import Mathlib.Data.List.Basic

/-! # A request to the talk daemon

`ctl_transact` of `src/talk/ctl_transact.c` as a machine that makes one system call a step. A call
of `select` leaves the rest of the time in its argument, as Linux does, and the other calls take no
time. `*rp` is its bytes: the version, the type, and those behind them; what `rp` and `nready` hold
before is anything. `p_error` quits. -/

namespace Inetutils.Talk.Transact

open Lib.Runs

/-! ### The response -/

def TALK_VERSION : UInt8 := 1

/-- `sizeof (CTL_RESPONSE)` -/
def size : ℕ := 24

/-- The bytes at the offsets of a `CTL_RESPONSE`. -/
abbrev Response := ℕ → UInt8

/-- `rp->vers` and `rp->type` are the ones that are asked for. -/
def Answers (type : ℤ) (rp : Response) : Prop := rp 0 = TALK_VERSION ∧ ((rp 1).toNat : ℤ) = type

instance (type : ℤ) (rp : Response) : Decidable (Answers type rp) :=
  inferInstanceAs (Decidable (_ ∧ _))

/-- What `recv` leaves of a datagram. -/
def overlay (d : List UInt8) (rp : Response) : Response :=
  fun i => if i < size then d.getD i (rp i) else rp i

/-- `ntohl` of `id_num` and `ntohs` of `addr.sa_family`, both in place. -/
def toHost (rp : Response) : Response := fun i =>
  if 4 ≤ i ∧ i < 8 then rp (11 - i) else if 8 ≤ i ∧ i < 10 then rp (17 - i) else rp i

/-- The datagram has the version and the type that are asked for. -/
def Genuine (type : ℤ) (d : List UInt8) : Prop :=
  d[0]? = some TALK_VERSION ∧ d[1]?.map (fun b => (b.toNat : ℤ)) = some type

instance (type : ℤ) (d : List UInt8) : Decidable (Genuine type d) :=
  inferInstanceAs (Decidable (_ ∧ _))

variable (rp : Response) {d : List UInt8}

theorem overlay_zero (d : List UInt8) (rp : Response) : overlay d rp 0 = d.getD 0 (rp 0) :=
  if_pos (by decide)

theorem overlay_one (d : List UInt8) (rp : Response) : overlay d rp 1 = d.getD 1 (rp 1) :=
  if_pos (by decide)

theorem answers_overlay_iff {type : ℤ} (h : 2 ≤ d.length) (rp : Response) :
    Answers type (overlay d rp) ↔ Genuine type d := by
  have h0 : d[0]? = some d[0] := List.getElem?_eq_getElem (by omega)
  have h1 : d[1]? = some d[1] := List.getElem?_eq_getElem (by omega)
  simp [Answers, Genuine, overlay_zero, overlay_one, h0, h1, List.getD_eq_getElem?_getD]

theorem Genuine.two_le {type : ℤ} (h : Genuine type d) : 2 ≤ d.length := by
  obtain ⟨b, hb, -⟩ := Option.map_eq_some_iff.1 h.2
  have := (List.getElem?_eq_some_iff.1 hb).1
  omega

theorem Genuine.answers {type : ℤ} (h : Genuine type d) (rp : Response) :
    Answers type (overlay d rp) :=
  (answers_overlay_iff h.two_le rp).2 h

/-! ### The loops -/

/-- `CTL_WAIT` in microseconds. -/
def CTL_WAIT : ℕ := 2000000

/-- The call that is next; `poll` is the second `select`. -/
inductive Pc
  | sendto
  | select
  | recv
  | poll
  | quit
  | return
  deriving DecidableEq

/-- What has happened: whether the request has been sent, how long ago, whether an answer of another
version or type has come since, whether the last `select` has found something to read that is still
there, and the last datagram. -/
structure History where
  sent : Bool
  since : ℕ
  wrong : Bool
  readable : Bool
  last : Option (List UInt8)

structure State where
  pc : Pc
  wait : ℕ
  nready : ℤ
  rp : Response
  history : History

inductive Sendto
  | full
  | eintr
  | error

/-- `left` is what is left of the time. -/
inductive Select
  | ready (left : ℕ)
  | timeout
  | eintr (left : ℕ)
  | error

inductive Recv
  | datagram (d : List UInt8)
  | eintr
  | error

/-- What a system call returns; `select` is either of the two. -/
inductive Outcome
  | sendto (r : Sendto)
  | select (r : Select)
  | recv (r : Recv)

/-- The conditions of the loop that sends, which `continue` goes to as well. -/
def State.untilReady (s : State) : State := { s with pc := if s.nready = 0 then .sendto else .recv }

/-- The conditions of the loop that reads and of the one around both. -/
def State.untilRight (type : ℤ) (s : State) : State :=
  if 0 < s.nready ∧ ¬ Answers type s.rp then { s with pc := .recv }
  else if ¬ Answers type s.rp then { s with pc := .sendto, wait := CTL_WAIT }
  else { s with pc := .return, rp := toHost s.rp }

def State.sendto (s : State) : Sendto → State
  | .full =>
    { s with pc := .select, history := { s.history with sent := true, since := 0, wrong := false } }
  | .eintr => s.untilReady
  | .error => { s with pc := .quit }

/-- The time of `select` goes by. -/
def State.waited (s : State) (left : ℕ) (nready : ℤ) : State :=
  { s with
    wait := min left s.wait
    nready
    history := { s.history with
      since := s.history.since + (s.wait - left), readable := decide (0 < nready) } }

def State.select (s : State) : Select → State
  | .ready left => (s.waited left 1).untilReady
  | .timeout => (s.waited 0 0).untilReady
  | .eintr left => (s.waited left (-1)).untilReady
  | .error => { s with pc := .quit }

def History.received (type : ℤ) (h : History) (d : List UInt8) : History :=
  { h with wrong := h.wrong || decide (¬ Genuine type d), readable := false, last := some d }

def State.recv (type : ℤ) (s : State) : Recv → State
  | .datagram d =>
    { s with pc := .poll, rp := overlay d s.rp, history := s.history.received type d }
  | .eintr => s.untilRight type
  | .error => { s with pc := .quit }

/-- The second `select` has no time, and its failures are not told from an answer. -/
def State.poll (type : ℤ) (s : State) (r : Select) : State :=
  let s := { s with wait := 0 }
  match r with
  | .ready left => (s.waited left 1).untilRight type
  | .timeout => (s.waited 0 0).untilRight type
  | .eintr left => (s.waited left (-1)).untilRight type
  | .error => (s.waited 0 (-1)).untilRight type

def step (type : ℤ) (s : State) : Outcome → State
  | .sendto r => if s.pc = .sendto then s.sendto r else s
  | .select r => if s.pc = .select then s.select r else if s.pc = .poll then s.poll type r else s
  | .recv r => if s.pc = .recv then s.recv type r else s

/-- **`ctl_transact`** up to the first call. -/
def start (nready : ℤ) (rp : Response) : State :=
  { pc := .sendto, wait := CTL_WAIT, nready, rp
    history := { sent := false, since := 0, wrong := false, readable := false, last := none } }

/-! ### What is asked of it -/

/-- The request has not been sent, not for the time, or not since an answer of another version or
type. -/
def History.Due (h : History) : Prop := h.sent = true → CTL_WAIT ≤ h.since ∨ h.wrong = true

/-- The response is a datagram of this call, and has the version and the type. -/
def Returned (type : ℤ) (s : State) : Prop :=
  ∃ d, s.history.last = some d ∧ Genuine type d ∧ ∃ rp, s.rp = toHost (overlay d rp)

def Right (type : ℤ) (s : State) : Prop :=
  match s.pc with
  | .sendto => s.history.Due
  | .recv => s.history.readable = true
  | .return => Returned type s
  | _ => True

/-- What may come of a call: an interrupt before the request is sent finds `nready` zero, the time
of the first `select` is over when it had all of it, and no interrupt ends it; an interrupted `recv`
has the wrong bytes in `rp`, and so has the datagram that is too short. -/
def Ok (type : ℤ) (s : State) : Outcome → Prop
  | .sendto .eintr => s.pc = .sendto → s.nready = 0
  | .select r =>
    (s.pc = .select → match r with
      | .timeout => s.wait = CTL_WAIT
      | .eintr _ => False
      | _ => True) ∧
    (s.pc = .poll → Answers type s.rp → ∀ d, s.history.last = some d → 2 ≤ d.length)
  | .recv .eintr => s.pc = .recv → ¬ Answers type s.rp
  | _ => True

structure Inv (type : ℤ) (s : State) : Prop where
  wait : s.wait ≤ CTL_WAIT
  sendto : s.pc = .sendto → s.history.readable = false
  select : s.pc = .select → s.history.sent = true ∧ s.history.since = 0 ∧ s.history.wrong = false
  recv : s.pc = .recv → 0 < s.nready
  poll : s.pc = .poll → ∃ d rp, s.history.last = some d ∧ s.rp = overlay d rp ∧
    (s.history.wrong = true ∨ Genuine type d)
  fresh : s.pc = .sendto ∨ s.pc = .select ∨ s.pc = .recv → Answers type s.rp → s.history.last = none

/-! ### The steps -/

section
variable {type : ℤ} {s : State}

theorem right_untilReady_iff : Right type s.untilReady ↔
    if s.nready = 0 then s.history.Due else s.history.readable = true := by
  by_cases h : s.nready = 0 <;> simp [State.untilReady, Right, h]

theorem inv_untilReady (hwait : s.wait ≤ CTL_WAIT) (hz : s.nready = 0 → s.history.readable = false)
    (hpos : s.nready ≠ 0 → 0 < s.nready) (hfresh : Answers type s.rp → s.history.last = none) :
    Inv type s.untilReady := by
  by_cases h : s.nready = 0
  · exact ⟨hwait, fun _ => hz h, by simp [State.untilReady, h], by simp [State.untilReady, h],
      by simp [State.untilReady, h], fun _ => hfresh⟩
  · exact ⟨hwait, by simp [State.untilReady, h], by simp [State.untilReady, h], fun _ => hpos h,
      by simp [State.untilReady, h], fun _ => hfresh⟩

theorem untilRight_of_answers (h : Answers type s.rp) :
    s.untilRight type = { s with pc := .return, rp := toHost s.rp } := by simp [State.untilRight, h]

theorem untilRight_of_wrong (h : ¬ Answers type s.rp) :
    s.untilRight type =
      if 0 < s.nready then { s with pc := .recv }
      else { s with pc := .sendto, wait := CTL_WAIT } := by
  simp [State.untilRight, h]

theorem right_untilRight_of_wrong (h : ¬ Answers type s.rp) : Right type (s.untilRight type) ↔
    if 0 < s.nready then s.history.readable = true else s.history.Due := by
  rw [untilRight_of_wrong h]
  split <;> rfl

theorem inv_untilRight (hwait : s.wait ≤ CTL_WAIT)
    (hn : s.nready ≤ 0 → s.history.readable = false) :
    Inv type (s.untilRight type) := by
  by_cases h : Answers type s.rp
  · rw [untilRight_of_answers h]
    exact ⟨hwait, nofun, nofun, nofun, nofun, by simp⟩
  · rw [untilRight_of_wrong h]
    split
    next hpos => exact ⟨hwait, nofun, nofun, fun _ => hpos, nofun, fun _ ha => absurd ha h⟩
    next hpos =>
      exact ⟨Nat.le_refl _, fun _ => hn (by omega), nofun, nofun, nofun, fun _ ha => absurd ha h⟩

/-! #### `sendto` -/

theorem right_sendto_iff (hpc : s.pc = .sendto) (hr : Right type s) (hi : Inv type s) (r : Sendto) :
    Right type (s.sendto r) ↔ Ok type s (.sendto r) := by
  have hdue : s.history.Due := by simpa [Right, hpc] using hr
  have hread := hi.sendto hpc
  cases r with
  | full => exact iff_of_true trivial trivial
  | error => exact iff_of_true trivial trivial
  | eintr =>
    rw [State.sendto, right_untilReady_iff]
    by_cases h : s.nready = 0 <;> simp [Ok, h, hpc, hdue, hread]

theorem inv_sendto (hpc : s.pc = .sendto) (hi : Inv type s) {r : Sendto}
    (hok : Ok type s (.sendto r)) :
    Inv type (s.sendto r) := by
  have hfresh := hi.fresh (.inl hpc)
  cases r with
  | full => exact ⟨hi.wait, nofun, fun _ => ⟨rfl, rfl, rfl⟩, nofun, nofun, fun _ => hfresh⟩
  | error => exact ⟨hi.wait, nofun, nofun, nofun, nofun, by simp [State.sendto]⟩
  | eintr =>
    have hz : s.nready = 0 := hok hpc
    exact inv_untilReady hi.wait (fun _ => hi.sendto hpc) (absurd hz) hfresh

/-! #### The first `select` -/

theorem right_select_iff (hpc : s.pc = .select) (hi : Inv type s) (r : Select) :
    Right type (s.select r) ↔ Ok type s (.select r) := by
  obtain ⟨hsent, hsince, hwrong⟩ := hi.select hpc
  have hle := hi.wait
  cases r with
  | ready left => simp [State.select, right_untilReady_iff, State.waited, Ok, hpc]
  | error => simp [State.select, Right, Ok, hpc]
  | eintr left => simp [State.select, right_untilReady_iff, State.waited, Ok, hpc]
  | timeout =>
    -- since the request went out there was only this `select`
    have h : Right type (s.select .timeout) ↔ CTL_WAIT ≤ s.wait := by
      simp [State.select, right_untilReady_iff, State.waited, History.Due, hsent, hsince, hwrong]
    rw [h]
    simp [Ok, hpc]
    omega

theorem inv_select (hpc : s.pc = .select) (hi : Inv type s) {r : Select}
    (hok : Ok type s (.select r)) :
    Inv type (s.select r) := by
  have hfresh := hi.fresh (.inr (.inl hpc))
  have hle : ∀ left, min left s.wait ≤ CTL_WAIT :=
    fun left => Nat.le_trans (Nat.min_le_right _ _) hi.wait
  cases r with
  | ready left =>
    exact inv_untilReady (hle left) (by simp [State.waited]) (by simp [State.waited]) hfresh
  | timeout => exact inv_untilReady (hle 0) (by simp [State.waited]) (by simp [State.waited]) hfresh
  | eintr left => exact absurd (hok.1 hpc) id
  | error => exact ⟨hi.wait, nofun, nofun, nofun, nofun, by simp [State.select]⟩

/-! #### `recv` -/

theorem right_recv_iff (hpc : s.pc = .recv) (hr : Right type s) (hi : Inv type s) (r : Recv) :
    Right type (s.recv type r) ↔ Ok type s (.recv r) := by
  have hread : s.history.readable = true := by simpa [Right, hpc] using hr
  cases r with
  | datagram d => exact iff_of_true trivial trivial
  | error => exact iff_of_true trivial trivial
  | eintr =>
    by_cases h : Answers type s.rp
    · have hlast := hi.fresh (.inr (.inr hpc)) h
      simp [State.recv, untilRight_of_answers h, Right, Returned, hlast, Ok, hpc, h]
    · simp [State.recv, right_untilRight_of_wrong h, hi.recv hpc, hread, Ok, h]

theorem inv_recv (hpc : s.pc = .recv) (hi : Inv type s) (r : Recv) : Inv type (s.recv type r) := by
  cases r with
  | datagram d =>
    refine ⟨hi.wait, nofun, nofun, nofun, fun _ => ⟨d, s.rp, rfl, rfl, ?_⟩, by simp [State.recv]⟩
    by_cases h : Genuine type d <;> simp [State.recv, History.received, h]
  | error => exact ⟨hi.wait, nofun, nofun, nofun, nofun, by simp [State.recv]⟩
  | eintr => exact inv_untilRight hi.wait fun h => absurd (hi.recv hpc) (by omega)

/-! #### The second `select` -/

/-- Behind the second `select` the response is the last datagram, and a wrong one makes a new
request due. -/
theorem right_polled_iff {rp : Response} (hlast : s.history.last = some d)
    (hrp : s.rp = overlay d rp) (hwrong : s.history.wrong = true ∨ Genuine type d) (left : ℕ)
    (nready : ℤ) :
    Right type ((s.waited left nready).untilRight type) ↔ (Answers type s.rp → 2 ≤ d.length) := by
  by_cases h : Answers type s.rp
  · have hret : Right type ((s.waited left nready).untilRight type) ↔ Genuine type d := by
      rw [untilRight_of_answers (s := s.waited left nready) h]
      constructor
      · rintro ⟨d', hd', hg, -⟩
        exact Option.some.inj (hlast.symm.trans hd') ▸ hg
      · intro hg
        exact ⟨d, hlast, hg, rp, congrArg toHost hrp⟩
    rw [hret, imp_iff_right h]
    exact ⟨Genuine.two_le, fun hd => (answers_overlay_iff hd rp).1 (hrp ▸ h)⟩
  · have hw : s.history.wrong = true := hwrong.resolve_right fun hg => h (hrp ▸ hg.answers rp)
    rw [right_untilRight_of_wrong (s := s.waited left nready) h]
    simp only [h, false_imp_iff, iff_true]
    split
    next hpos => exact decide_eq_true hpos
    next => exact fun _ => .inr hw

theorem right_poll_iff (hpc : s.pc = .poll) (hi : Inv type s) (r : Select) :
    Right type (s.poll type r) ↔ Ok type s (.select r) := by
  obtain ⟨d, rp, hlast, hrp, hwrong⟩ := hi.poll hpc
  have h : Right type (s.poll type r) ↔ (Answers type s.rp → 2 ≤ d.length) := by
    cases r <;> exact right_polled_iff (s := { s with wait := 0 }) hlast hrp hwrong _ _
  rw [h]
  simp [Ok, hpc, hlast]

theorem inv_poll (r : Select) : Inv type (s.poll type r) := by
  cases r <;> exact inv_untilRight (by simp [State.waited]) (by simp [State.waited])

/-! #### Any call -/

theorem right_step_iff (a : Outcome) (hr : Right type s) (hi : Inv type s) :
    Right type (step type s a) ↔ Ok type s a := by
  cases a with
  | sendto r =>
    by_cases h : s.pc = .sendto
    · simpa [step, h] using right_sendto_iff h hr hi r
    · cases r <;> simp [step, h, hr, Ok]
  | select r =>
    by_cases h : s.pc = .select
    · simpa [step, h] using right_select_iff h hi r
    · by_cases h' : s.pc = .poll
      · simpa [step, h'] using right_poll_iff h' hi r
      · simp [step, h, h', hr, Ok]
  | recv r =>
    by_cases h : s.pc = .recv
    · simpa [step, h] using right_recv_iff h hr hi r
    · cases r <;> simp [step, h, hr, Ok]

theorem inv_step (a : Outcome) (hi : Inv type s) (hok : Ok type s a) :
    Inv type (step type s a) := by
  cases a with
  | sendto r =>
    by_cases h : s.pc = .sendto
    · simpa [step, h] using inv_sendto h hi hok
    · simpa [step, h] using hi
  | select r =>
    by_cases h : s.pc = .select
    · simpa [step, h] using inv_select h hi hok
    · by_cases h' : s.pc = .poll
      · simpa [step, h'] using inv_poll (s := s) r
      · simpa [step, h, h'] using hi
  | recv r =>
    by_cases h : s.pc = .recv
    · simpa [step, h] using inv_recv h hi r
    · simpa [step, h] using hi

end

theorem inv_start (type nready : ℤ) (rp : Response) : Inv type (start nready rp) :=
  ⟨Nat.le_refl _, fun _ => rfl, nofun, nofun, nofun, fun _ _ => rfl⟩

theorem right_start (type nready : ℤ) (rp : Response) : Right type (start nready rp) :=
  nofun

/-! ### The runs -/

/-- **The runs that are right**: `recv` is called when there is something to read, the request goes
out when it is due and the response that is returned has come in this call, just in case every call
returns what is admitted. -/
theorem transacts_iff (type nready : ℤ) (rp : Response) (l : List Outcome) :
    (∀ l', l' <+: l → Right type (run (step type) (start nready rp) l')) ↔
      Allowed (step type) (Ok type) (start nready rp) l := by
  have hany : Allowed (step type) (fun _ _ => True) (start nready rp) l :=
    (allowed_const_iff _ l).2 fun _ _ => trivial
  exact inv_iff_allowed_within (fun _ a _ hr hi => right_step_iff a hr hi)
    (fun _ a _ _ hi hok => inv_step a hi hok)
    (right_start type nready rp) (inv_start type nready rp) hany

/-- The time of the second request is over at once. -/
theorem not_right_repeated : ¬ ∀ (type nready : ℤ) (rp : Response) (l : List Outcome),
    Right type (run (step type) (start nready rp) l) := by
  intro h
  have hrun := h 1 0 (fun _ => 0) [.sendto .full, .select .timeout, .sendto .full, .select .timeout]
  have hdue : CTL_WAIT ≤ 0 ∨ false = true := hrun rfl
  simp [CTL_WAIT] at hdue

end Inetutils.Talk.Transact
