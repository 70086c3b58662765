import Inetutils.Telnet.Telsnd

/-! # Runs of the client's output

The client between the two `read`s and `send`: turns of `telrcv` on what was received, turns of
`telsnd` on what was typed, and calls of `netflush` with any results of `send`, in any order.

`telsnd` looks for room for 3 bytes, and the suboptions for as many as they have; an answer to an
option command, and what a special character sends beyond 3 bytes, is put into `netoring` in any
case. In every run in which there is room for these whenever they are due, the ring is never overrun
(`netoring_never_overrun`). The peer can make the client overrun it by asking for an option it
refuses, again and again, while nothing can be sent (`refusals_overrun`). -/

namespace Inetutils.Telnet.Overrun

open Lib.Runs Proto Items Automaton List
open Sides Options Suboption
open Netoring Telsnd Demand
open Ring.Model Network

structure State (ρ : Type*) where
  rcv : Telrcv.Rcv (Client ρ)
  snd : Snd
  netiring : List Byte
  ttyiring : List Byte
  net : Net

/-- What happens: bytes are received or typed, as many as fit; a turn of a loop, on a stretch of at
most `m` bytes; output with the results of `send`; urgent data is announced; another ring is used;
something else queues its requests, as at the start of the session. -/
inductive Op
  | receive (l : List Byte)
  | type (l : List Byte)
  | telrcv (m : ℕ)
  | telsnd (m : ℕ)
  | netflush (results : List SendResult)
  | urgent
  | tick
  | queue (l : List Req)

section
variable {ρ : Type*} (env : Terminal ρ) (k : Keyboard ρ)

def start (buf : ℕ → Byte) (size clock : ℕ) (c : Client ρ) : State ρ :=
  ⟨⟨.DATA, [], { c with out := [] }⟩, ⟨true, false⟩, [], [], Netoring.start buf size clock⟩

def fill (ring l : List Byte) : List Byte := ring ++ l.take (BUFSIZ - ring.length)

/-- The handlers have asked for `rs`. -/
def State.carry (s : State ρ) (rs : List Req) (c : Client ρ) : Option (State ρ) :=
  (s.net.requests rs).map fun n =>
    { s with net := n, rcv := { s.rcv with client := { c with out := [] } } }

def State.telrcv (s : State ρ) (m : ℕ) : Option (State ρ) :=
  match s.netiring.take m with
  | [] => some s
  | b :: l =>
    let t := Telrcv.turn (rcvClient env) s.rcv b l
    { s with rcv := t.1, netiring := t.2.2 ++ s.netiring.drop m }.carry t.1.client.out t.1.client

def State.telsnd (s : State ρ) (m : ℕ) : Option (State ρ) :=
  if s.net.room > 2 then
    match s.ttyiring.take m with
    | [] => some s
    | b :: l =>
      let t := Telsnd.turn env.toRest k s.snd s.rcv.client b l
      { s with snd := t.1, ttyiring := t.2.2 ++ s.ttyiring.drop m }.carry t.2.1.out t.2.1
  else some s

def step (s : Option (State ρ)) (o : Op) : Option (State ρ) :=
  s.bind fun s =>
    if s.net.exited then some s
    else match o with
      | .receive l => some { s with netiring := fill s.netiring l }
      | .type l => some { s with ttyiring := fill s.ttyiring l }
      | .telrcv m => s.telrcv env m
      | .telsnd m => s.telsnd env k m
      | .netflush xs => some { s with net := s.net.netflush xs }
      | .urgent => some { s with rcv.client.SYNCHing := true }
      | .tick => some { s with net.out.ring := ringTick s.net.ring }
      | .queue rs => s.carry rs s.rcv.client

/-- There is room for what the handlers and the special characters queue, and for what a command and
the rest of the program do, and the clock does not turn over. -/
def roomy (s : State ρ) : Op → Prop
  | .telrcv m => ∀ b ∈ (s.netiring.take m).head?,
      (∀ a ∈ acts s.rcv b, Demand.Fits env s.rcv.client a s.net.room) ∧
        s.net.ring.clock + 10 < ulongSize
  | .telsnd m => ∀ b ∈ (s.ttyiring.take m).head?,
      Telsnd.Fits k s.snd s.rcv.client b (s.ttyiring.take m).tail s.net.room ∧
        s.net.ring.clock + 7 + commandTicks k s.snd s.rcv.client b
        (s.ttyiring.take m).tail < ulongSize
  | .netflush xs => s.net.ring.clock + xs.length < ulongSize
  | .tick => s.net.ring.clock + 1 < ulongSize
  | .queue rs => RoomFor s.net.room rs ∧ s.net.ring.clock + ticks rs < ulongSize
  | _ => True

instance decidableRoomy (s : State ρ) : ∀ o : Op, Decidable (roomy env k s o)
  | .telrcv _ => inferInstanceAs (Decidable (∀ _ ∈ _, (∀ _ ∈ acts _ _, Demand.Fits ..) ∧ _ < _))
  | .telsnd _ => inferInstanceAs (Decidable (∀ _ ∈ _, Telsnd.Fits .. ∧ _ < _))
  | .netflush _ => inferInstanceAs (Decidable (_ < _))
  | .tick => inferInstanceAs (Decidable (_ < _))
  | .queue _ => inferInstanceAs (Decidable (RoomFor _ _ ∧ _ < _))
  | .receive _ => inferInstanceAs (Decidable True)
  | .type _ => inferInstanceAs (Decidable True)
  | .urgent => inferInstanceAs (Decidable True)

def keptRoomy (s : Option (State ρ)) (o : Op) : Prop := ∃ u, s = some u ∧ roomy env k u o

instance decidableKeptRoomy : ∀ (s : Option (State ρ)) (o : Op), Decidable (keptRoomy env k s o)
  | none, _ => isFalse fun ⟨_, h, _⟩ => nomatch h
  | some u, o => decidable_of_iff (roomy env k u o)
      ⟨fun h => ⟨u, rfl, h⟩, fun ⟨_, hu, h⟩ => by cases hu; exact h⟩

/-! ### The invariant -/

/-- What is queued is in the ring or was sent, and the handlers have asked for nothing more. -/
def Inv (s : State ρ) : Prop := s.rcv.client.out = [] ∧ ∃ l, Good s.net l

variable {env k} {s : State ρ}

theorem inv_carry {rs : List Req} {l : List Byte} (h : Good s.net l) (hroom : RoomFor s.net.room rs)
    (hclock : s.net.ring.clock + ticks rs < ulongSize) (c : Client ρ) :
    ∃ s', s.carry rs c = some s' ∧ Inv s' := by
  obtain ⟨n', l', hn, hg⟩ := good_requests rs h hroom hclock
  exact ⟨_, by rw [State.carry, hn]; rfl, rfl, l', hg⟩

theorem inv_telrcv (h : Inv s) {m : ℕ} (hr : roomy env k s (.telrcv m)) :
    ∃ s', s.telrcv env m = some s' ∧ Inv s' := by
  obtain ⟨ho, l, hg⟩ := h
  unfold State.telrcv
  cases hs : s.netiring.take m with
  | nil => exact ⟨s, rfl, ho, l, hg⟩
  | cons b q =>
    obtain ⟨hfits, hclock⟩ := hr b (by rw [hs]; rfl)
    obtain ⟨rs, hout, ht, hiff⟩ := turn_asks env s.rcv b q
    rw [ho, nil_append] at hout
    dsimp only
    rw [hout]
    refine inv_carry (l := l) ?_ ?_ ?_ _
    · exact hg
    · exact (hiff _).mpr hfits
    · exact lt_of_le_of_lt (Nat.add_le_add_left ht _) hclock

theorem inv_telsnd (h : Inv s) {m : ℕ} (hr : roomy env k s (.telsnd m)) :
    ∃ s', s.telsnd env k m = some s' ∧ Inv s' := by
  obtain ⟨ho, l, hg⟩ := h
  unfold State.telsnd
  split_ifs with hroom
  swap
  · exact ⟨s, rfl, ho, l, hg⟩
  cases hs : s.ttyiring.take m with
  | nil => exact ⟨s, rfl, ho, l, hg⟩
  | cons b q =>
    obtain ⟨hfits, hclock⟩ := hr b (by rw [hs]; rfl)
    rw [hs, tail_cons] at hfits hclock
    obtain ⟨rs, hout, ht, hiff⟩ := turn_sends (k := k) (c := s.rcv.client) env.toRest s.snd b q
    rw [ho, nil_append] at hout
    dsimp only
    rw [hout]
    have hticks : s.net.ring.clock + ticks rs < ulongSize := by omega
    refine inv_carry (l := l) ?_ ?_ ?_ _
    · exact hg
    · exact (hiff s.net.room (by omega)).mpr hfits
    · exact hticks

theorem inv_step (h : Inv s) {o : Op} (hr : roomy env k s o) :
    ∃ s', step env k (some s) o = some s' ∧ Inv s' := by
  rw [step, Option.bind_some]
  split_ifs
  · exact ⟨s, rfl, h⟩
  cases o with
  | receive l => exact ⟨_, rfl, h⟩
  | type l => exact ⟨_, rfl, h⟩
  | telrcv m => exact inv_telrcv h hr
  | telsnd m => exact inv_telsnd h hr
  | urgent => exact ⟨_, rfl, h⟩
  | netflush xs =>
    obtain ⟨ho, l, hg⟩ := h
    obtain ⟨l', hg'⟩ := good_netflush xs hg hr
    exact ⟨_, rfl, ho, l', hg'⟩
  | tick =>
    obtain ⟨ho, l, hg⟩ := h
    exact ⟨_, rfl, ho, l, hg.holds.tick hr, hg.markSafe, hg.sent_eq, hg.within⟩
  | queue rs =>
    obtain ⟨-, l, hg⟩ := h
    exact inv_carry hg hr.1 hr.2 _

/-- **In every run where there is room, the bytes sent followed by those in the ring are those
queued**, and no supply was of more bytes than the room. -/
theorem netoring_never_overrun (env : Terminal ρ) (k : Keyboard ρ) (c : Client ρ) (buf : ℕ → Byte)
    (size clock : ℕ) (hsize : 0 < size) (hclock : clock < ulongSize) (ops : List Op)
    (h : Allowed (step env k) (keptRoomy env k) (some (start buf size clock c)) ops) :
    ∃ s, run (step env k) (some (start buf size clock c)) ops = some s ∧ ∃ l, Good s.net l := by
  obtain ⟨s, hrun, hinv⟩ :=
    run_inv (I := fun s => ∃ u, s = some u ∧ Inv u)
      (fun s o ⟨u, h0, hinv⟩ ⟨u', hu, hr⟩ => by
        subst h0
        obtain rfl := Option.some.inj hu
        exact inv_step hinv hr) ⟨_, rfl, rfl, [], good_start buf hsize hclock⟩ h
  exact ⟨s, hrun, hinv.2⟩

end

def plainTerminal : Terminal Unit where
  settimer := id
  setconnmode _ := ()
  display _ := none
  slcInit _ := ((), none)
  crmod _ := false
  setcommandmode := id
  synch _ := ((), false)
  localflow _ := id
  restartany _ := id
  windowSize _ := some (24, 80)
  gettermname _ := ((), [88])
  terminalSpeeds _ := (9600, 9600)
  slc _ _ := ((), none)
  envOpt _ _ := ((), none)

def plainKeyboard : Keyboard Unit where
  rlogin _ := POSIX_VDISABLE
  escape _ := 29
  echoc _ := 5
  tchars _ := ⟨3, 28, 4, 26, 15, 21, 127⟩
  modeEdit _ := true
  localChars _ := true
  crlf _ := false
  autoflush _ := true
  autosynch _ := true
  toggleEcho := id
  ttyflush := id
  command _ c := (c, [])

def plainClient : Client Unit := ⟨.off, false, false, false, true, 0, [], ()⟩

def roomyOps : List Op :=
  [.receive [IAC, DO, 99], .telrcv 3, .telrcv 2, .telrcv 1, .netflush [.accepted 2], .type [97, 3],
    .telsnd 2, .telsnd 1, .netflush [.accepted 8, .wouldBlock]]

theorem netoring_never_overrun_roomyOps :
    let s := start (fun _ => 0) 11 0 plainClient
    Allowed (step plainTerminal plainKeyboard) (keptRoomy plainTerminal plainKeyboard)
      (some s) roomyOps ∧
      ∃ s', run (step plainTerminal plainKeyboard) (some s) roomyOps = some s' ∧ ∃ l,
      Good s'.net l := by
  intro s
  have h :
      Allowed (step plainTerminal plainKeyboard) (keptRoomy plainTerminal plainKeyboard) (some s)
      roomyOps := by decide +kernel
  exact ⟨h, netoring_never_overrun _ _ _ _ _ _ (by decide) (by decide) _ h⟩

/-! ### Refusals -/

def refusal : List Op := [.receive [IAC, DO, 99], .telrcv 3, .telrcv 2, .telrcv 1]

def refusals (n : ℕ) : List Op := (List.replicate n refusal).flatten

/-- The client after it has refused `n` times. -/
structure Refused (size n : ℕ) (s : State Unit) : Prop where
  state : s.rcv.state = .DATA
  netiring : s.netiring = []
  out : s.rcv.client.out = []
  exited : s.net.exited = false
  sent : s.net.out.sent = []
  size_eq : s.net.ring.size = size
  queued : s.net.queued.length = 3 * n
  side : (s.rcv.client.options.side .willWont 99).answered true = ⟨true, false, 0⟩ ∨
    (s.rcv.client.options.side .willWont 99).answered true = ⟨false, false, 0⟩

theorem dooption_refuses {c : Client Unit}
    (h : (c.options.side .willWont 99).answered true = ⟨true, false, 0⟩ ∨
      (c.options.side .willWont 99).answered true = ⟨false, false, 0⟩) :
    (dooption plainTerminal.toRest 99 c).out = c.out ++ [.option .WONT 99] ∧
      (dooption plainTerminal.toRest 99 c).options.side .willWont 99 = ⟨true, false, 1⟩ := by
  have htm : ¬ (99 : Byte) = TELOPT_TM := by decide
  have hlm : ¬ (99 : Byte) = TELOPT_LINEMODE := by decide
  have hacc (c' : Client Unit) : acceptsDo plainTerminal.toRest c' 99 = false := rfl
  unfold dooption
  rcases h with h | h <;> simp [h, htm, hlm, hacc, sendWont, Dir.verb]

theorem step_receive {s : State Unit} (hs : s.net.exited = false) (l : List Byte) :
    step plainTerminal plainKeyboard (some s) (.receive l) =
      some { s with netiring := fill s.netiring l } := by
  simp [step, hs]

theorem step_telrcv {s : State Unit} (hs : s.net.exited = false) (m : ℕ) :
    step plainTerminal plainKeyboard (some s) (.telrcv m) = s.telrcv plainTerminal m := by
  simp [step, hs]

theorem run_refusal {s : State Unit} (hstate : s.rcv.state = .DATA) (hni : s.netiring = [])
    (hx : s.net.exited = false) (hout : s.rcv.client.out = [])
    (h : (dooption plainTerminal.toRest 99 s.rcv.client).out = [.option .WONT 99]) :
    run (step plainTerminal plainKeyboard) (some s) refusal = some
      { s with
        rcv := ⟨.DATA, s.rcv.sub, { dooption plainTerminal.toRest 99 s.rcv.client with out := [] }⟩
        net := s.net.netadds [IAC, WONT, 99] } := by
  obtain ⟨⟨st, sub, ⟨opts, sy, fo, fl, kl, lm, out, re⟩⟩, snd, ni, ti, net⟩ := s
  dsimp only at hstate hni hx hout h
  subst hstate hni hout
  let c : Client Unit := ⟨opts, sy, fo, fl, kl, lm, [], re⟩
  have h2 : State.telrcv plainTerminal ⟨⟨.DATA, sub, c⟩, snd, [IAC, DO, 99], ti, net⟩ 3 =
      some ⟨⟨.IAC, sub, c⟩, snd, [DO, 99], ti, net⟩ := rfl
  have h3 : State.telrcv plainTerminal ⟨⟨.IAC, sub, c⟩, snd, [DO, 99], ti, net⟩ 2 =
      some ⟨⟨.verb .DO, sub, c⟩, snd, [99], ti, net⟩ := rfl
  have h4 : State.telrcv plainTerminal ⟨⟨.verb .DO, sub, c⟩, snd, [99], ti, net⟩ 1 =
      some ⟨⟨.DATA, sub, { dooption plainTerminal.toRest 99 c with out := [] }⟩, snd, [], ti,
        net.netadds [IAC, WONT, 99]⟩ := by
    show State.carry _ (dooption plainTerminal.toRest 99 c).out _ = _
    rw [h, State.carry, Net.requests, if_neg (by simp [hx])]
    rfl
  rw [refusal, run_cons, step_receive hx, run_cons, step_telrcv hx]
  show run _ (State.telrcv plainTerminal ⟨⟨.DATA, sub, c⟩, snd, [IAC, DO, 99], ti, net⟩ 3) _ = _
  rw [h2, run_cons, step_telrcv hx, h3, run_cons, step_telrcv hx, h4]
  rfl

theorem refused_next {size n : ℕ} {s : State Unit} (h : Refused size n s) :
    ∃ s', run (step plainTerminal plainKeyboard) (some s) refusal = some s' ∧
    Refused size (n + 1) s' := by
  obtain ⟨hout, hside⟩ := dooption_refuses h.side
  rw [h.out, nil_append] at hout
  refine ⟨_, run_refusal h.state h.netiring h.exited h.out hout, rfl, h.netiring, rfl,
    h.exited, h.sent, h.size_eq, ?_, .inl ?_⟩
  · show (s.net.queued ++ [_] ++ [_] ++ [_]).length = _
    simp [h.queued]; omega
  · show (Table.side _ _ _).answered true = _
    rw [hside]; rfl

theorem run_refusals {size : ℕ} : ∀ (n : ℕ) {m : ℕ} {s : State Unit}, Refused size m s →
    ∃ s', run (step plainTerminal plainKeyboard) (some s) (refusals n) = some s' ∧
    Refused size (m + n) s'
  | 0, _, s, h => ⟨s, rfl, h⟩
  | n + 1, m, s, h => by
    obtain ⟨s1, h1, hr⟩ := refused_next h
    obtain ⟨s2, h2, hr'⟩ := run_refusals n hr
    refine ⟨s2, ?_, by rwa [add_right_comm] at hr'⟩
    rw [refusals, replicate_succ, flatten_cons, run_append, h1]
    exact h2

/-- **The peer can have the ring overrun**: 5462 refusals while nothing can be sent are more than
`netoring` has room for. -/
theorem refusals_overrun :
    ∃ s, run (step plainTerminal plainKeyboard)
        (some (start (fun _ => 0) (2 * BUFSIZ) 0 plainClient)) (refusals 5462) = some s ∧
      ¬ ∃ l, Good s.net l := by
  have h0 : Refused (2 * BUFSIZ) 0 (start (fun _ => 0) (2 * BUFSIZ) 0 plainClient) :=
    ⟨rfl, rfl, rfl, rfl, rfl, rfl, rfl, .inr (by decide)⟩
  obtain ⟨s, hrun, h⟩ := run_refusals 5462 h0
  refine ⟨s, hrun, fun ⟨l, hl⟩ => ?_⟩
  have hlen := hl.holds.length_le
  have hq := h.queued
  rw [← hl.sent_eq, h.sent, nil_append] at hq
  rw [h.size_eq, hq] at hlen
  exact absurd hlen (by decide)

end Inetutils.Telnet.Overrun
