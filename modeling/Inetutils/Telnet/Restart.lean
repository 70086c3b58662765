import Inetutils.Telnet.Suboption

/-! # One session after another

`bye` of `telnet/commands.c` closes a connection and calls `tninit`, after which another may be
opened. `init_telnet` clears the options, but the counters of the requests that were not answered
are not among them. So a session starts as the first one did just if none was open when the one
before was closed (`byes_fresh_iff`, `unanswered_request_is_kept`).

Also kept, and for that matter told apart from the state of the negotiation, are the modes:
`kludgelinemode`, `linemode` and the rest of the client. -/

namespace Inetutils.Telnet.Restart

open Lib.Runs
open Proto Items Automaton Sides
open Options Suboption
open Telrcv (Rcv turn)

variable {ρ : Type*}

/-- `ClearArray (options)`. -/
def clearArray (t : Table) : Table := fun o =>
  ⟨{ (t o).doDont with state := false, want := false },
    { (t o).willWont with state := false, want := false }⟩

/-- `tninit`: nothing is on its way to the network, and `init_telnet` is called. What it makes of
the rest of the client is a parameter. -/
def tninit (init : ρ → ρ) (s : Rcv (Client ρ)) : Rcv (Client ρ) where
  state := .DATA
  sub := []
  client := { s.client with
    options := clearArray s.client.options
    SYNCHing := false
    flushline := true
    out := []
    rest := init s.client.rest }

/-- A turn of `telrcv`; a request made by a command or when the session begins; whatever else the
client does that leaves the options as they are; and the end of the session. -/
inductive Op (ρ : Type*)
  | network (c : Byte) (l : List Byte)
  | send (d : Dir) (n : Bool) (o : Byte)
  | other (c : Client ρ)
  | bye

section
variable (env : Terminal ρ) (init : ρ → ρ)

def step (s : Rcv (Client ρ)) : Op ρ → Rcv (Client ρ)
  | .network c l => (turn (rcvClient env) s c l).1
  | .send d n o => { s with client := Client.send d n o true s.client }
  | .other c => { s with client := { c with options := s.client.options } }
  | .bye => tninit init s

def started (c : Client ρ) : Rcv (Client ρ) := ⟨.DATA, [], { c with options := .off }⟩

/-- The negotiation has the state it had at the start of the program. -/
structure Fresh (s : Rcv (Client ρ)) : Prop where
  options : s.client.options = .off
  state : s.state = .DATA
  sub : s.sub = []

def NoneOpen (s : Rcv (Client ρ)) : Prop := ∀ d o, (s.client.options.side d o).resp = 0

def Answered (s : Rcv (Client ρ)) : Op ρ → Prop
  | .bye => NoneOpen s
  | _ => True

/-! ### The end of a session -/

theorem clearArray_eq_off (t : Table) :
    clearArray t = .off ↔ ∀ d o, (t.side d o).resp = 0 := by
  constructor
  · intro h d o
    have ho := congrFun h o
    cases d with
    | doDont => exact congrArg (fun x : Opt => x.doDont.resp) ho
    | willWont => exact congrArg (fun x : Opt => x.willWont.resp) ho
  · intro h
    funext o
    have h1 : (t o).doDont.resp = 0 := h .doDont o
    have h2 : (t o).willWont.resp = 0 := h .willWont o
    unfold clearArray
    rcases ht : t o with ⟨⟨_, _, r⟩, ⟨_, _, r'⟩⟩
    rw [ht] at h1 h2
    obtain rfl : r = 0 := h1
    obtain rfl : r' = 0 := h2
    rfl

theorem fresh_tninit_iff (s : Rcv (Client ρ)) : Fresh (tninit init s) ↔ NoneOpen s :=
  ⟨fun h => (clearArray_eq_off _).mp h.options, fun h => ⟨(clearArray_eq_off _).mpr h, rfl, rfl⟩⟩

/-- **Every session that follows another starts as the first one did, just if each was closed with
no request open.** -/
theorem byes_fresh_iff (c : Client ρ) (l : List (Op ρ)) :
    (∀ l1 l2, l = l1 ++ .bye :: l2 → Fresh (run (step env init) (started c) (l1 ++ [.bye]))) ↔
      Allowed (step env init) Answered (started c) l := by
  generalize started c = s
  induction l generalizing s with
  | nil => exact ⟨fun _ => trivial, fun _ l1 l2 h => absurd h (by simp)⟩
  | cons o l ih =>
    rw [allowed_cons, ← ih (step env init s o)]
    constructor
    · intro h
      constructor
      · cases o with
        | bye => exact (fresh_tninit_iff init s).mp (h [] l rfl)
        | _ => trivial
      · rintro l1 l2 rfl
        exact h (o :: l1) l2 rfl
    · rintro ⟨hans, hrest⟩ l1 l2 hl
      rcases l1 with _ | ⟨o', l1⟩
      · obtain ⟨rfl, rfl⟩ := List.cons.inj hl
        exact (fresh_tninit_iff init s).mpr hans
      · obtain ⟨rfl, rfl⟩ := List.cons.inj hl
        exact hrest l1 l2 rfl

end

/-! ### A request that is not answered -/

def bare : Terminal Unit where
  settimer := id
  setconnmode _ := ()
  display _ := none
  slcInit _ := ((), none)
  crmod _ := false
  setcommandmode := id
  synch _ := ((), false)
  localflow _ := id
  restartany _ := id
  windowSize _ := none
  gettermname _ := ((), [])
  terminalSpeeds _ := (0, 0)
  slc _ _ := ((), none)
  envOpt _ _ := ((), none)

def first : Rcv (Client Unit) := started ⟨.off, false, false, true, true, 0, [], ()⟩

def asked : List (Op Unit) := [.network IAC [], .network DO [], .network TELOPT_BINARY []]

/-- **The user turns binary text on and off again and closes the session, before the server has
answered.** In the next one `DO BINARY` is taken for an answer and gets none itself, as it would in
a first session. -/
theorem unanswered_request_is_kept :
    let next := run (step bare id) first
      [.send .willWont true TELOPT_BINARY, .send .willWont false TELOPT_BINARY, .bye]
    ¬ Fresh next ∧ (run (step bare id) next asked).client.out.length = 0 ∧
      (run (step bare id) first asked).client.out.length = 1 := by
  refine ⟨?_, by decide, by decide⟩
  rintro ⟨h, -, -⟩
  exact absurd (congrFun h TELOPT_BINARY) (by decide)

end Inetutils.Telnet.Restart
