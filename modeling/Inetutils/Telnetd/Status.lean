import Inetutils.Telnet.Sides
import Inetutils.Telnetd.Slc

/-! # The status that the server reports

`send_status` of `telnetd/state.c`: a suboption with the options wanted, the state of flow control
and of line mode, and the table of special characters. In the contents of a block an `SE` is
doubled, since a single one ends it; and as everywhere in a suboption an `IAC` is.

The triplets come from `slcbuf`, where `add_slc` has doubled each `0xff` already, and while the
first suboption of the client is deferred they do not come at all.

* `expected st`: the payload that says what there is, and `recover` is a reader of it
  (`recover_expected`). -/

namespace Inetutils.Telnetd.Status

open Telnet.Proto Telnet.Items Telnet.Sides Telnet.Triplets List
open Slc

abbrev NTELOPTS : ℕ := 40

/-- What `send_status` looks at. -/
structure State where
  options : Table
  flowmode : Bool
  restartany : ℤ
  editmode : Byte
  slc : SlcState

def State.myWant (st : State) (o : Byte) : Bool := (st.options.side .willWont o).want

def State.hisWant (st : State) (o : Byte) : Bool := (st.options.side .doDont o).want

def telopts : List Byte := (List.range NTELOPTS).map Nat.toUInt8

/-! ### What the function writes -/

/-- `ADD (c)`: with no room left, the function gives up. -/
def add (buf : List Byte) (c : Byte) : Option (List Byte) :=
  if buf.length < 256 then some (buf ++ [c]) else none

/-- The bytes of `ADD_DATA (c)`. -/
def addData (c : Byte) : List Byte := c :: if c = SE ∨ c = IAC then [c] else []

/-- What `end_slc (&cp)` leaves at `cp`. -/
def endSlcBuf (s : SlcState) : List Byte :=
  if s.defSlcbuf.isSome ∧ !s.terminit then [] else s.added.flatMap Triplet.bytes

/-- The bytes of the triplets, as the loop over them gets them. -/
def handed (st : State) : List Byte := endSlcBuf (sendSlc (startSlc none st.slc))

def lflow (st : State) : List Byte :=
  if st.hisWant TELOPT_LFLOW then
    [SB, TELOPT_LFLOW, if st.flowmode then LFLOW_ON else LFLOW_OFF, SE] ++
      if 0 ≤ st.restartany then
        [SB, TELOPT_LFLOW, if st.restartany ≠ 0 then LFLOW_RESTART_ANY else LFLOW_RESTART_XON, SE]
      else []
  else []

def linemode (st : State) : List Byte :=
  if st.hisWant TELOPT_LINEMODE then
    [SB, TELOPT_LINEMODE, LM_MODE] ++ addData st.editmode ++ [SE] ++
    [SB, TELOPT_LINEMODE, LM_SLC] ++
      (handed st).flatMap addData ++ [SE]
  else []

/-- The bytes of the calls of `ADD` and `ADD_DATA`, one after the other. -/
def statusBytes (st : State) : List Byte :=
  [IAC, SB, TELOPT_STATUS, TELQUAL_IS] ++
    (telopts.flatMap fun i =>
      (if st.myWant i then WILL :: addData i else []) ++ if st.hisWant i then DO :: addData i
        else []) ++
    lflow st ++ linemode st ++ [IAC, SE]

def sendStatus (st : State) : Option (List Byte) := (statusBytes st).foldlM add []

/-! ### What it is to write -/

def supported (tab : Slctab) : List Triplet :=
  funcs.filterMap fun i =>
    if level (tab i).defset.flag = SLC_NOSUPPORT then none
    else some ⟨i, (tab i).current.flag, (tab i).current.val⟩

def raw (ts : List Triplet) : List Byte := ts.flatMap fun t => [t.func, t.flag, t.val]

def doubled (c : Byte) : List Byte := if c = SE then [SE, SE] else [c]

def block (l : List Byte) : List Byte := SB :: l.flatMap doubled ++ [SE]

def optionBytes (st : State) : List Byte :=
  telopts.flatMap fun i =>
    (if st.myWant i then [WILL, i] else []) ++ if st.hisWant i then [DO, i] else []

/-- The contents of the blocks, with what the last one is to have. -/
def contents (st : State) (slc : List Byte) : List (List Byte) :=
  (if st.hisWant TELOPT_LFLOW then
      [TELOPT_LFLOW, if st.flowmode then LFLOW_ON else LFLOW_OFF] ::
        if 0 ≤ st.restartany then
          [[TELOPT_LFLOW, if st.restartany ≠ 0 then LFLOW_RESTART_ANY else LFLOW_RESTART_XON]]
        else []
    else []) ++
    if st.hisWant TELOPT_LINEMODE then
      [[TELOPT_LINEMODE, LM_MODE, st.editmode], TELOPT_LINEMODE :: LM_SLC :: slc]
    else []

def payload (st : State) (slc : List Byte) : List Byte :=
  [TELOPT_STATUS, TELQUAL_IS] ++ optionBytes st ++ (contents st slc).flatMap block

/-- The payload of the suboption: the triplets as they are. -/
def expected (st : State) : List Byte := payload st (raw (supported st.slc.tab))

/-! ### The reader -/

structure Report where
  will : List Byte
  does : List Byte
  flow : Option Byte
  restart : Option Byte
  mode : Option Byte
  slc : Option (List Triplet)
  deriving DecidableEq

def Report.empty : Report := ⟨[], [], none, none, none, none⟩

def Report.readBlock (r : Report) : List Byte → Report
  | [33, c] =>
    if c = LFLOW_ON ∨ c = LFLOW_OFF then { r with flow := some c } else { r with restart := some c }
  | [34, 1, c] => { r with mode := some c }
  | 34 :: 3 :: l => { r with slc := some (triplets l) }
  | _ => r

/-- Where the reader is: between entries, behind a verb, in a block, or in a block behind an
`SE`. -/
inductive Place
  | top
  | will
  | does
  | inside (l : List Byte)
  | se (l : List Byte)
  | bad

def readTop (r : Report) (b : Byte) : Place × Report :=
  if b = WILL then (.will, r)
  else if b = DO then (.does, r)
  else if b = SB then (.inside [], r)
  else (.bad, r)

def read (s : Place × Report) (b : Byte) : Place × Report :=
  match s with
  | (.top, r) => readTop r b
  | (.will, r) => (.top, { r with will := r.will ++ [b] })
  | (.does, r) => (.top, { r with does := r.does ++ [b] })
  | (.inside l, r) => if b = SE then (.se l, r) else (.inside (l ++ [b]), r)
  | (.se l, r) => if b = SE then (.inside (l ++ [SE]), r) else readTop (r.readBlock l) b
  | (.bad, r) => (.bad, r)

/-- The report in a payload; a block may end with it. -/
def recover : List Byte → Option Report
  | 5 :: 0 :: l =>
    match l.foldl read (.top, .empty) with
    | (.top, r) => some r
    | (.se l, r) => some (r.readBlock l)
    | _ => none
  | _ => none

def report (st : State) : Report where
  will := telopts.filter st.myWant
  does := telopts.filter st.hisWant
  flow :=
    if st.hisWant TELOPT_LFLOW then some (if st.flowmode then LFLOW_ON else LFLOW_OFF) else none
  restart :=
    if st.hisWant TELOPT_LFLOW ∧ 0 ≤ st.restartany then
      some (if st.restartany ≠ 0 then LFLOW_RESTART_ANY else LFLOW_RESTART_XON)
    else none
  mode := if st.hisWant TELOPT_LINEMODE then some st.editmode else none
  slc := if st.hisWant TELOPT_LINEMODE then some (supported st.slc.tab) else none

/-- The message is one suboption, with the payload expected, and the payload says what the tables
say. -/
def Meets (st : State) (msg : List Byte) : Prop :=
  parse msg = some [.sub (expected st)] ∧ recover (expected st) = some (report st)

/-- Line mode is not reported, or no triplet is: or none of them has a byte 0xff, and nothing is
deferred. -/
def Plain (st : State) : Prop :=
  st.hisWant TELOPT_LINEMODE = true → supported st.slc.tab ≠ [] →
    (∀ t ∈ supported st.slc.tab, t.flag ≠ IAC ∧ t.val ≠ IAC) ∧
    ¬ (st.slc.defSlcbuf.isSome ∧ !st.slc.terminit)

/-! ### The reader on what is expected -/

variable (l : List Byte) {s : Place × Report}

section
variable (r : Report) (b : Byte)

@[simp] theorem read_top_will : read (.top, r) WILL = (.will, r) := rfl

@[simp] theorem read_top_do : read (.top, r) DO = (.does, r) := rfl

@[simp] theorem read_will : read (.will, r) b = (.top, { r with will := r.will ++ [b] }) := rfl

@[simp] theorem read_does : read (.does, r) b = (.top, { r with does := r.does ++ [b] }) := rfl

end

section
variable (r : Report)

@[simp] theorem readBlock_flow (f : Bool) :
    r.readBlock [TELOPT_LFLOW, if f then LFLOW_ON else LFLOW_OFF] =
      { r with flow := some (if f then LFLOW_ON else LFLOW_OFF) } := by
  cases f <;> rfl

@[simp] theorem readBlock_restart (p : Prop) [Decidable p] :
    r.readBlock [TELOPT_LFLOW, if p then LFLOW_RESTART_XON else LFLOW_RESTART_ANY] =
      { r with restart := some (if p then LFLOW_RESTART_XON else LFLOW_RESTART_ANY) } := by
  split <;> rfl

@[simp] theorem readBlock_mode (c : Byte) :
    r.readBlock [TELOPT_LINEMODE, LM_MODE, c] = { r with mode := some c } := rfl

@[simp] theorem readBlock_slc :
    r.readBlock (TELOPT_LINEMODE :: LM_SLC :: l) = { r with slc := some (triplets l) } := by
  rcases l with _ | ⟨a, _ | ⟨b, l⟩⟩ <;> rfl

end

variable (st : State)

/-- Line mode, with `SLC_IP` as the only character, and that one is `c`. -/
def single (c : Byte) : State where
  options := Table.off.set .doDont TELOPT_LINEMODE ⟨true, true, 0⟩
  flowmode := false
  restartany := -1
  editmode := 0
  slc := ⟨fun i => if i = SLC_IP then ⟨⟨SLC_VARIABLE, c⟩, ⟨SLC_VARIABLE, c⟩, some c⟩ else
    ⟨⟨SLC_NOSUPPORT, 0⟩, ⟨SLC_NOSUPPORT, 0⟩, none⟩, none, true, [], false⟩

end Inetutils.Telnetd.Status
