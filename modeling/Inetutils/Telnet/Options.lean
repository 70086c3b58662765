import Inetutils.Telnet.Sides

/-! # Option negotiation in the client

The functions of `telnet/telnet.c` that send option commands and those that receive them, for the
program built as it is by default: without `TN3270`, `AUTHENTICATION` and `ENCRYPTION`, with
`KLUDGELINEMODE`.

What is put on the network is a list of requests to `netoring` (`Req`); some look at the room there
first. The terminal, the environment and the special characters are the rest of the client (`Rest`).

For an option that the client accepts, and that has no other effect on the options, each of the
functions that receive is `Side.receive` on one side of the option (`willoption_plain` and so
on). -/

namespace Inetutils.Telnet.Options

open Proto Items Sides

/-- What is put into `netoring`. By `NETADD`, whatever the room: an option command, other bytes, or
those of `dosynch`, where the first is marked. By `ring_supply_data`, only if the room exceeds the
number of bytes by `spare`; where they are required and it does not exceed them, the program
exits. -/
inductive Req
  | option (v : Verb) (o : Byte)
  | add (l : List Byte)
  | synch
  | supply (l : List Byte) (spare : ℕ)
  | require (l : List Byte)

structure Client (ρ : Type*) where
  options : Table
  SYNCHing : Bool
  flushout : Bool
  flushline : Bool
  kludgelinemode : Bool
  linemode : Byte
  out : List Req
  rest : ρ

/-- The rest of the client: `settimer (modenegotiated)`, `setconnmode`, the value of `DISPLAY`, and
`slc_init` with the reply it makes, if any. -/
structure Rest (ρ : Type*) where
  settimer : ρ → ρ
  setconnmode : Client ρ → ρ
  display : ρ → Option (List Byte)
  slcInit : ρ → ρ × Option (List Byte)

variable {ρ : Type*} (env : Rest ρ)

def Client.mod (c : Client ρ) (d : Dir) (o : Byte) (f : Side → Side) : Client ρ :=
  { c with options := c.options.set d o (f (c.options.side d o)) }

def Client.emit (c : Client ρ) (r : Req) : Client ρ := { c with out := c.out ++ [r] }

def Client.settimer (c : Client ρ) : Client ρ := { c with rest := env.settimer c.rest }

def Client.setconnmode (c : Client ρ) : Client ρ := { c with rest := env.setconnmode c }

/-- `slc_init`: the reply is sent if there is room for more than it. -/
def Client.slcInit (c : Client ρ) : Client ρ :=
  let p := env.slcInit c.rest
  { c with rest := p.1, out := c.out ++ (p.2.map fun l => .supply l 1).toList }

/-! ### Sending -/

/-- `send_do`, `send_dont`, `send_will`, `send_wont`. -/
def Client.send (d : Dir) (n : Bool) (o : Byte) (init : Bool) (c : Client ρ) : Client ρ :=
  if init then
    if (c.options.side d o).declines n then c
    else (c.mod d o (·.initiate n)).emit (.option (d.verb n) o)
  else c.emit (.option (d.verb n) o)

def sendDo : Byte → Bool → Client ρ → Client ρ := Client.send .doDont true
def sendDont : Byte → Bool → Client ρ → Client ρ := Client.send .doDont false
def sendWill : Byte → Bool → Client ρ → Client ρ := Client.send .willWont true
def sendWont : Byte → Bool → Client ρ → Client ρ := Client.send .willWont false

/-! ### Receiving -/

def acceptsWill (o : Byte) : Bool :=
  o = TELOPT_ECHO ∨ o = TELOPT_BINARY ∨ o = TELOPT_SGA ∨ o = TELOPT_STATUS

def willoption (o : Byte) (c : Client ρ) : Client ρ :=
  let c := c.mod .doDont o (·.answered true)
  if (c.options.side .doDont o).resp = 0 ∧ (c.options.side .doDont o).want = false then
    if o = TELOPT_TM then
      { c with flushout := false }.mod .doDont o fun x => { x with want := false, state := false }
    else
      let c := if o = TELOPT_ECHO ∨ o = TELOPT_BINARY ∨ o = TELOPT_SGA then c.settimer env else c
      let c :=
        if acceptsWill o then
          (sendDo o false (c.mod .doDont o fun x => { x with want := true })).setconnmode env
        else sendDont o false (c.mod .doDont o fun x => { x with resp := x.resp + 1 })
      c.mod .doDont o fun x => { x with state := true }
  else c.mod .doDont o fun x => { x with state := true }

def wontoption (o : Byte) (c : Client ρ) : Client ρ :=
  let c := c.mod .doDont o (·.answered false)
  if (c.options.side .doDont o).resp = 0 ∧ (c.options.side .doDont o).want = true then
    if o = TELOPT_TM then
      { c with flushout := false }.mod .doDont o fun x => { x with want := false, state := false }
    else
      let c :=
        if (o = TELOPT_SGA ∧ c.kludgelinemode) ∨ o = TELOPT_ECHO then c.settimer env else c
      let c := c.mod .doDont o fun x => { x with want := false }
      let c := if (c.options.side .doDont o).state then sendDont o false c else c
      (c.setconnmode env).mod .doDont o fun x => { x with state := false }
  else
    let c :=
      if o = TELOPT_TM then
        { c with flushout := false }.mod .doDont o fun x => { x with want := false }
      else c
    c.mod .doDont o fun x => { x with state := false }

def acceptsDo (c : Client ρ) (o : Byte) : Bool :=
  o = TELOPT_BINARY ∨ o = TELOPT_NAWS ∨ o = TELOPT_TSPEED ∨ o = TELOPT_LFLOW ∨ o = TELOPT_TTYPE ∨
    o = TELOPT_SGA ∨ o = TELOPT_NEW_ENVIRON ∨ (o = TELOPT_XDISPLOC ∧ (env.display c.rest).isSome)

def dooption (o : Byte) (c : Client ρ) : Client ρ :=
  let c := c.mod .willWont o (·.answered true)
  if (c.options.side .willWont o).resp = 0 then
    if (c.options.side .willWont o).want = false then
      if o = TELOPT_TM then
        -- a WILL is sent, but as if it were a WONT
        (sendWill o false c).mod .willWont o fun x => { x with want := false, state := false }
      else if o = TELOPT_LINEMODE then
        let c := sendDo TELOPT_SGA true { c with kludgelinemode := false }
        let c := sendWill o false (c.mod .willWont o fun x => { x with want := true })
        (c.mod .willWont o fun x => { x with state := true }).slcInit env
      else
        let c :=
          if acceptsDo env c o then
            (sendWill o false (c.mod .willWont o fun x => { x with want := true })).setconnmode env
          else sendWont o false (c.mod .willWont o fun x => { x with resp := x.resp + 1 })
        c.mod .willWont o fun x => { x with state := true }
    else if o = TELOPT_LINEMODE then
      let c := sendDo TELOPT_SGA true { c with kludgelinemode := false }
      sendDo TELOPT_SGA false ((c.mod .willWont o fun x => { x with state := true }).slcInit env)
    else c.mod .willWont o fun x => { x with state := true }
  else c.mod .willWont o fun x => { x with state := true }

def dontoption (o : Byte) (c : Client ρ) : Client ρ :=
  let c := c.mod .willWont o (·.answered false)
  if (c.options.side .willWont o).resp = 0 ∧ (c.options.side .willWont o).want = true then
    let c := if o = TELOPT_LINEMODE then { c with linemode := 0 } else c
    let c := c.mod .willWont o fun x => { x with want := false }
    let c := if (c.options.side .willWont o).state then sendWont o false c else c
    (c.setconnmode env).mod .willWont o fun x => { x with state := false }
  else c.mod .willWont o fun x => { x with state := false }

/-! ### Plain options -/

/-- `f` changes the side `d` of the option `o` as `g` does, and tells the change to `n` when `g`
says so; it does nothing else to the options. -/
def ActsOn (g : Side → Bool → Side × Bool) (d : Dir) (n : Bool) (o : Byte)
    (f : Client ρ → Client ρ) : Prop :=
  ∀ c, (f c).options = c.options.set d o (g (c.options.side d o) n).1 ∧
    (f c).out = c.out ++ if (g (c.options.side d o) n).2 then [.option (d.verb n) o] else []

/-- The client accepts the option in this direction, and has no special case for it. -/
def plain : Dir → Byte → Bool
  | .doDont, o => o = TELOPT_ECHO ∨ o = TELOPT_BINARY ∨ o = TELOPT_SGA ∨ o = TELOPT_STATUS
  | .willWont, o =>
    o = TELOPT_BINARY ∨ o = TELOPT_NAWS ∨ o = TELOPT_TSPEED ∨ o = TELOPT_LFLOW ∨ o = TELOPT_TTYPE ∨
      o = TELOPT_SGA ∨ o = TELOPT_NEW_ENVIRON

section
variable (c : Client ρ) (d : Dir) (n : Bool) (o : Byte) (f g : Side → Side)

@[simp] theorem mod_options : (c.mod d o f).options = c.options.set d o (f (c.options.side d o)) :=
  rfl
@[simp] theorem mod_out : (c.mod d o f).out = c.out := rfl
@[simp] theorem emit_options (r : Req) : (c.emit r).options = c.options := rfl
@[simp] theorem emit_out (r : Req) : (c.emit r).out = c.out ++ [r] := rfl
@[simp] theorem settimer_options : (c.settimer env).options = c.options := rfl
@[simp] theorem settimer_out : (c.settimer env).out = c.out := rfl
@[simp] theorem setconnmode_options : (c.setconnmode env).options = c.options := rfl
@[simp] theorem setconnmode_out : (c.setconnmode env).out = c.out := rfl

@[simp] theorem send_answer : c.send d n o false = c.emit (.option (d.verb n) o) := rfl

end

theorem plain_ne {d : Dir} {o x : Byte} (h : plain d o = true) (hx : plain d x = false) : o ≠ x :=
  fun he => Bool.false_ne_true (hx.symm.trans (he ▸ h))

theorem send_request (d : Dir) (n : Bool) (o : Byte) :
    ActsOn Side.request d n o (Client.send (ρ := ρ) d n o true) := by
  intro c
  unfold Client.send Side.request
  by_cases hd : (c.options.side d o).declines n <;> simp [hd]

theorem willoption_plain {o : Byte} (h : plain .doDont o = true) :
    ActsOn Side.receive .doDont true o (willoption env o) := by
  intro c
  have htm : o ≠ TELOPT_TM := plain_ne h (by decide)
  have hacc : acceptsWill o = true := h
  simp only [willoption, mod_options, side_set, htm, hacc, if_false, if_true, sendDo]
  rcases receive_cases (c.options.side .doDont o) true with ⟨h0, hw, hr⟩ | ⟨hk, hr⟩
  · simp [hr, h0, hw, apply_ite Client.options, apply_ite Client.out, Dir.verb]
  · rw [hr]
    split_ifs <;> simp_all

theorem wontoption_plain {o : Byte} (h : plain .doDont o = true) :
    ActsOn Side.receive .doDont false o (wontoption env o) := by
  intro c
  have htm : o ≠ TELOPT_TM := plain_ne h (by decide)
  simp only [wontoption, mod_options, side_set, htm, if_false, sendDont]
  rcases receive_cases (c.options.side .doDont o) false with ⟨h0, hw, hr⟩ | ⟨hk, hr⟩
  · simp [hr, h0, hw, apply_ite Client.options, apply_ite Client.out, Dir.verb]
    split <;> simp
  · rw [hr]
    split_ifs <;> simp_all

theorem dooption_plain {o : Byte} (h : plain .willWont o = true) :
    ActsOn Side.receive .willWont true o (dooption env o) := by
  intro c
  have htm : o ≠ TELOPT_TM := plain_ne h (by decide)
  have hlm : o ≠ TELOPT_LINEMODE := plain_ne h (by decide)
  have hacc : ∀ c : Client ρ, acceptsDo env c o = true := fun c => by
    simp only [plain, acceptsDo, decide_eq_true_eq] at h ⊢; tauto
  simp only [dooption, mod_options, side_set, htm, hlm, hacc, if_false, if_true, sendWill]
  rcases receive_cases (c.options.side .willWont o) true with ⟨h0, hw, hr⟩ | ⟨hk, hr⟩
  · simp [hr, h0, hw, Dir.verb]
  · rw [hr]
    split_ifs <;> simp_all

theorem dontoption_plain {o : Byte} (h : plain .willWont o = true) :
    ActsOn Side.receive .willWont false o (dontoption env o) := by
  intro c
  have hlm : o ≠ TELOPT_LINEMODE := plain_ne h (by decide)
  simp only [dontoption, mod_options, side_set, hlm, if_false, sendWont]
  rcases receive_cases (c.options.side .willWont o) false with ⟨h0, hw, hr⟩ | ⟨hk, hr⟩
  · simp [hr, h0, hw, apply_ite Client.options, apply_ite Client.out, Dir.verb]
    split <;> simp
  · rw [hr]
    split_ifs <;> simp_all

end Inetutils.Telnet.Options
