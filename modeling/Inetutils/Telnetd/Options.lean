import Inetutils.Telnet.Sides

/-! # Option negotiation in the server

The functions of `telnetd/state.c` that send option commands and those that receive them, without
`AUTHENTICATION` and `ENCRYPTION`, and of `clientstat` of `telnetd/termstat.c` the part that turns
line mode on and off. What is queued for the network is a list of items.

The terminal is the rest of the server (`Rest`). `his_state` of the source is the side of `DO` and
`DONT`. As in the client, each of the functions that receive is `Side.receive` for an option that
the server accepts and that has no other effect on the options (`willoption_plain` and so on). -/

namespace Inetutils.Telnetd.Options

open Telnet.Proto Telnet.Items Telnet.Sides

/-! ### Linemode support -/

abbrev NO_LINEMODE : ℕ := 0
abbrev KLUDGE_LINEMODE : ℕ := 1
abbrev NO_AUTOKLUDGE : ℕ := 2
abbrev KLUDGE_OK : ℕ := 3
abbrev REAL_LINEMODE : ℕ := 4

structure Server (ρ : Type*) where
  options : Table
  not42 : Bool
  lmodetype : ℕ
  linemode : Bool
  alwayslinemode : Bool
  editmode : Byte
  exited : Bool
  out : List Item
  rest : ρ

/-- The rest of the server. The functions of the terminal change it together with `init_termbuf` and
`set_termbuf`; `editmask` is the mask of the modes of the terminal, and `slcFlow` says whether the
client can change the flow control characters. -/
structure Rest (ρ : Type*) where
  ttyBinaryin : Bool → ρ → ρ
  ttyBinaryout : Bool → ρ → ρ
  ttySetecho : Bool → ρ → ρ
  ttySetlinemode : Bool → ρ → ρ
  ttyIsediting : ρ → Bool
  editmask : ρ → Byte
  slcFlow : Bool → ρ → ρ
  settimer : Byte → ρ → ρ
  flowstat : Table → ρ → ρ × List Item

variable {ρ : Type*} (env : Rest ρ)

def Server.mod (s : Server ρ) (d : Dir) (o : Byte) (f : Side → Side) : Server ρ :=
  { s with options := s.options.set d o (f (s.options.side d o)) }

def Server.emit (s : Server ρ) (it : Item) : Server ρ := { s with out := s.out ++ [it] }

def Server.tty (s : Server ρ) (f : ρ → ρ) : Server ρ := { s with rest := f s.rest }

/-! ### Sending -/

/-- `send_do`, `send_dont`, `send_will`, `send_wont`. A `DO TM` is sent as if it were a `DONT`. -/
def Server.send (d : Dir) (n : Bool) (o : Byte) (init : Bool) (s : Server ρ) : Server ρ :=
  if init then
    if (s.options.side d o).declines n then s
    else
      let s := s.mod d o (·.initiate n)
      let s :=
        if d = .doDont ∧ n = true ∧ o = TELOPT_TM then s.mod d o fun x => { x with want := false }
        else s
      s.emit (.option (d.verb n) o)
  else s.emit (.option (d.verb n) o)

def sendDo : Byte → Bool → Server ρ → Server ρ := Server.send .doDont true
def sendDont : Byte → Bool → Server ρ → Server ρ := Server.send .doDont false
def sendWill : Byte → Bool → Server ρ → Server ρ := Server.send .willWont true
def sendWont : Byte → Bool → Server ρ → Server ρ := Server.send .willWont false

/-! ### Line mode -/

/-- `clientstat (TELOPT_LINEMODE, WILL, 0)` and `clientstat (TELOPT_LINEMODE, WONT, 0)`. -/
def clientstat (will : Bool) (s : Server ρ) : Server ρ :=
  let uselinemode :=
    if will ≠ s.linemode ∧ s.lmodetype = KLUDGE_LINEMODE ∧ s.alwayslinemode ∧
      env.ttyIsediting s.rest
    then true else will
  if uselinemode = s.linemode then s
  else
    let s :=
      if s.lmodetype = REAL_LINEMODE ∧ uselinemode then
        { s with editmode := env.editmask s.rest }.emit
          (.sub [TELOPT_LINEMODE, LM_MODE, env.editmask s.rest])
      else s
    let s := { s with linemode := uselinemode }.tty (env.ttySetlinemode uselinemode)
    if uselinemode then s else sendWill TELOPT_ECHO true s

def doclientstat : Server ρ → Server ρ := clientstat env true

def flowstat (s : Server ρ) : Server ρ :=
  let p := env.flowstat s.options s.rest
  { s with rest := p.1, out := s.out ++ p.2 }

/-! ### Receiving -/

def acceptsWill (o : Byte) : Bool :=
  o = TELOPT_BINARY ∨ o = TELOPT_LFLOW ∨ o = TELOPT_TTYPE ∨ o = TELOPT_SGA ∨ o = TELOPT_NAWS ∨
    o = TELOPT_TSPEED ∨ o = TELOPT_XDISPLOC ∨ o = TELOPT_NEW_ENVIRON ∨ o = TELOPT_OLD_ENVIRON ∨
    o = TELOPT_LINEMODE

/-- A `WILL TM` that answers the question whether the client has a kludge linemode. -/
def willTM (s : Server ρ) : Server ρ :=
  if s.lmodetype < KLUDGE_LINEMODE then
    sendWont TELOPT_SGA true (clientstat env true { s with lmodetype := KLUDGE_LINEMODE })
  else if s.lmodetype = NO_AUTOKLUDGE then { s with lmodetype := KLUDGE_OK }
  else s

def willoption (o : Byte) (s : Server ρ) : Server ρ :=
  let s := s.mod .doDont o (·.answered true)
  if (s.options.side .doDont o).resp = 0 then
    if (s.options.side .doDont o).want = false then
      if o = TELOPT_TM then willTM env s
      else
        let s :=
          if o = TELOPT_BINARY then s.tty (env.ttyBinaryin true)
          else if o = TELOPT_ECHO then { s with not42 := false }
          else if o = TELOPT_LFLOW then s.tty (env.slcFlow true)
          else if o = TELOPT_LINEMODE then { s with lmodetype := REAL_LINEMODE }
          else s
        let s :=
          if acceptsWill o then sendDo o false (s.mod .doDont o fun x => { x with want := true })
          else sendDont o false (s.mod .doDont o fun x => { x with resp := x.resp + 1 })
        let s := s.mod .doDont o fun x => { x with state := true }
        if o = TELOPT_LINEMODE then doclientstat env s else s
    else
      let s :=
        if o = TELOPT_ECHO then sendDont o true { s with not42 := false }
        else if o = TELOPT_LINEMODE then { s with lmodetype := REAL_LINEMODE }
        else s
      let s := s.mod .doDont o fun x => { x with state := true }
      if o = TELOPT_LINEMODE then doclientstat env s
      else if o = TELOPT_LFLOW then flowstat env s
      else s
  else s.mod .doDont o fun x => { x with state := true }

/-- A `WONT TM`: the client has no linemode. -/
def wontTM (s : Server ρ) : Server ρ :=
  if s.lmodetype < NO_AUTOKLUDGE then
    sendWill TELOPT_ECHO true
      (sendWill TELOPT_SGA true (clientstat env false { s with lmodetype := NO_LINEMODE }))
  else s

/-- The options with a suboption the server may be waiting for. -/
def awaited (o : Byte) : Bool :=
  o = TELOPT_TTYPE ∨ o = TELOPT_TSPEED ∨ o = TELOPT_XDISPLOC ∨ o = TELOPT_OLD_ENVIRON ∨
    o = TELOPT_NEW_ENVIRON

def wontoption (o : Byte) (s : Server ρ) : Server ρ :=
  let s := s.mod .doDont o (·.answered false)
  if (s.options.side .doDont o).resp = 0 then
    if (s.options.side .doDont o).want = true then
      if o = TELOPT_TM then s.mod .doDont o fun x => { x with want := false }
      else
        let s :=
          if o = TELOPT_ECHO then { s with not42 := true }
          else if o = TELOPT_BINARY then s.tty (env.ttyBinaryin false)
          else if o = TELOPT_LINEMODE ∧ s.lmodetype = REAL_LINEMODE then clientstat env false s
          else if o = TELOPT_LFLOW then s.tty (env.slcFlow false)
          else if awaited o then s.tty (env.settimer o)
          else s
        let s := s.mod .doDont o fun x => { x with want := false }
        let s := if (s.options.side .doDont o).state then sendDont o false s else s
        s.mod .doDont o fun x => { x with state := false }
    else
      let s := if o = TELOPT_TM then wontTM env s else s
      s.mod .doDont o fun x => { x with state := false }
  else s.mod .doDont o fun x => { x with state := false }

def dooption (o : Byte) (s : Server ρ) : Server ρ :=
  let s := s.mod .willWont o (·.answered true)
  if (s.options.side .willWont o).resp = 0 ∧ (s.options.side .willWont o).want = false then
    if o = TELOPT_TM then
      -- a WILL is sent, but as if it were a WONT
      (sendWill o false s).mod .willWont o fun x => { x with want := false, state := false }
    else if o = TELOPT_LOGOUT then
      let s := sendWill o false (s.mod .willWont o fun x => { x with want := true })
      { s.mod .willWont o fun x => { x with state := true } with exited := true }
    else
      let s :=
        if o = TELOPT_ECHO ∧ s.lmodetype = NO_LINEMODE then s.tty (env.ttySetecho true)
        else if o = TELOPT_BINARY then s.tty (env.ttyBinaryout true)
        else if o = TELOPT_SGA ∧ s.lmodetype = KLUDGE_LINEMODE then clientstat env false s
        else s
      let changeok : Bool :=
        o = TELOPT_ECHO ∨ o = TELOPT_BINARY ∨ o = TELOPT_STATUS ∨
          (o = TELOPT_SGA ∧ ¬ (s.lmodetype = KLUDGE_LINEMODE ∧ s.linemode))
      let s :=
        if changeok then sendWill o false (s.mod .willWont o fun x => { x with want := true })
        else sendWont o false (s.mod .willWont o fun x => { x with resp := x.resp + 1 })
      s.mod .willWont o fun x => { x with state := true }
  else s.mod .willWont o fun x => { x with state := true }

def dontoption (o : Byte) (s : Server ρ) : Server ρ :=
  let s := s.mod .willWont o (·.answered false)
  if (s.options.side .willWont o).resp = 0 ∧ (s.options.side .willWont o).want = true then
    let s :=
      if o = TELOPT_BINARY then s.tty (env.ttyBinaryout false)
      else if o = TELOPT_ECHO ∧ s.lmodetype ≠ REAL_LINEMODE ∧ s.lmodetype ≠ KLUDGE_LINEMODE then
        s.tty (env.ttySetecho false)
      else if o = TELOPT_SGA ∧ (s.lmodetype = KLUDGE_LINEMODE ∨ s.lmodetype = KLUDGE_OK) then
        clientstat env true { s with lmodetype := KLUDGE_LINEMODE }
      else s
    let s := s.mod .willWont o fun x => { x with want := false }
    let s := if (s.options.side .willWont o).state then sendWont o false s else s
    s.mod .willWont o fun x => { x with state := false }
  else s.mod .willWont o fun x => { x with state := false }

/-! ### Plain options -/

/-- `f` changes the side `d` of the option `o` as `g` does, and tells the change to `n` when `g`
says so; it does nothing else to the options. -/
def ActsOn (g : Side → Bool → Side × Bool) (d : Dir) (n : Bool) (o : Byte)
    (f : Server ρ → Server ρ) : Prop :=
  ∀ s, (f s).options = s.options.set d o (g (s.options.side d o) n).1 ∧
    (f s).out = s.out ++ if (g (s.options.side d o) n).2 then [.option (d.verb n) o] else []

/-- The server accepts the option in this direction, and has no special case for it. -/
def plain : Dir → Byte → Bool
  | .doDont, o =>
    o = TELOPT_BINARY ∨ o = TELOPT_TTYPE ∨ o = TELOPT_SGA ∨ o = TELOPT_NAWS ∨ o = TELOPT_TSPEED ∨
      o = TELOPT_XDISPLOC ∨ o = TELOPT_NEW_ENVIRON ∨ o = TELOPT_OLD_ENVIRON
  | .willWont, o => o = TELOPT_ECHO ∨ o = TELOPT_BINARY ∨ o = TELOPT_STATUS

section
variable (s : Server ρ) (d : Dir) (n : Bool) (o : Byte) (f g : Side → Side) (h : ρ → ρ)

@[simp] theorem mod_options : (s.mod d o f).options = s.options.set d o (f (s.options.side d o)) :=
  rfl
@[simp] theorem mod_out : (s.mod d o f).out = s.out := rfl
@[simp] theorem emit_options (it : Item) : (s.emit it).options = s.options := rfl
@[simp] theorem emit_out (it : Item) : (s.emit it).out = s.out ++ [it] := rfl
@[simp] theorem tty_options : (s.tty h).options = s.options := rfl
@[simp] theorem tty_out : (s.tty h).out = s.out := rfl

@[simp] theorem send_answer : s.send d n o false = s.emit (.option (d.verb n) o) := rfl

end

theorem plain_ne {d : Dir} {o x : Byte} (h : plain d o = true) (hx : plain d x = false) : o ≠ x :=
  fun he => Bool.false_ne_true (hx.symm.trans (he ▸ h))

theorem send_request {o : Byte} (h : o ≠ TELOPT_TM) (d : Dir) (n : Bool) :
    ActsOn Side.request d n o (Server.send (ρ := ρ) d n o true) := by
  intro s
  unfold Server.send Side.request
  by_cases hd : (s.options.side d o).declines n <;> simp [hd, h]

theorem willoption_plain {o : Byte} (h : plain .doDont o = true) :
    ActsOn Side.receive .doDont true o (willoption env o) := by
  intro s
  have htm : o ≠ TELOPT_TM := plain_ne h (by decide)
  have hec : o ≠ TELOPT_ECHO := plain_ne h (by decide)
  have hfl : o ≠ TELOPT_LFLOW := plain_ne h (by decide)
  have hlm : o ≠ TELOPT_LINEMODE := plain_ne h (by decide)
  have hacc : acceptsWill o = true := by
    simp only [plain, acceptsWill, decide_eq_true_eq] at h ⊢; tauto
  simp only [willoption, mod_options, side_set, htm, hec, hfl, hlm, hacc, if_false, if_true, sendDo]
  rcases receive_cases (s.options.side .doDont o) true with ⟨h0, hw, hr⟩ | ⟨hk, hr⟩
  · simp [hr, h0, hw, apply_ite Server.options, apply_ite Server.out, Dir.verb]
  · rw [hr]
    split_ifs <;> simp_all

theorem wontoption_plain {o : Byte} (h : plain .doDont o = true) :
    ActsOn Side.receive .doDont false o (wontoption env o) := by
  intro s
  have htm : o ≠ TELOPT_TM := plain_ne h (by decide)
  have hec : o ≠ TELOPT_ECHO := plain_ne h (by decide)
  have hfl : o ≠ TELOPT_LFLOW := plain_ne h (by decide)
  have hlm : o ≠ TELOPT_LINEMODE := plain_ne h (by decide)
  simp only [wontoption, mod_options, side_set, htm, hec, hfl, hlm, false_and, if_false, sendDont]
  rcases receive_cases (s.options.side .doDont o) false with ⟨h0, hw, hr⟩ | ⟨hk, hr⟩
  · simp [hr, h0, hw, apply_ite Server.options, apply_ite Server.out, Dir.verb]
    split <;> simp
  · rw [hr]
    split_ifs <;> simp_all

theorem dooption_plain {o : Byte} (h : plain .willWont o = true) :
    ActsOn Side.receive .willWont true o (dooption env o) := by
  intro s
  have htm : o ≠ TELOPT_TM := plain_ne h (by decide)
  have hlo : o ≠ TELOPT_LOGOUT := plain_ne h (by decide)
  have hsga : o ≠ TELOPT_SGA := plain_ne h (by decide)
  have hacc : o = TELOPT_ECHO ∨ o = TELOPT_BINARY ∨ o = TELOPT_STATUS := by
    simpa only [plain, decide_eq_true_eq] using h
  simp only [dooption, mod_options, side_set, htm, hlo, hsga, false_and, or_false, hacc,
    decide_true,
    if_false, if_true, sendWill]
  rcases receive_cases (s.options.side .willWont o) true with ⟨h0, hw, hr⟩ | ⟨hk, hr⟩
  · simp [hr, h0, hw, apply_ite Server.options, apply_ite Server.out, Dir.verb]
  · rw [hr]
    split_ifs <;> simp_all

theorem dontoption_plain {o : Byte} (h : plain .willWont o = true) :
    ActsOn Side.receive .willWont false o (dontoption env o) := by
  intro s
  have hsga : o ≠ TELOPT_SGA := plain_ne h (by decide)
  simp only [dontoption, mod_options, side_set, hsga, false_and, if_false, sendWont]
  rcases receive_cases (s.options.side .willWont o) false with ⟨h0, hw, hr⟩ | ⟨hk, hr⟩
  · simp [hr, h0, hw, apply_ite Server.options, apply_ite Server.out, Dir.verb]
    split <;> simp
  · rw [hr]
    split_ifs <;> simp_all

end Inetutils.Telnetd.Options
