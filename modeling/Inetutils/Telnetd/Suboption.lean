import Inetutils.Lib.Decimal
import Inetutils.Lib.Letters
import Inetutils.Lib.Traced
import Inetutils.Telnetd.Environ
import Inetutils.Telnetd.Segments
import Mathlib.Data.List.Induction

/-! # The suboption buffer of the server

How `telrcv` of `telnetd/state.c` fills `subbuffer`, and where `suboption` looks and writes in it. A
place is an index; what lies behind the 512 bytes is never known, so a step that reads there is the
last one.

`SB_ACCUM` drops what does not fit, and two bytes behind `subend` are for the diagnostics: of a long
payload they keep the bytes 510 and 511. `atoi` knows nothing of `subend`: it stops at the `IAC`
behind the payload, or, if the payload is long, it may go on past the buffer. -/

namespace Inetutils.Telnetd.Suboption

open Lib.Cyclic Lib.Decimal Lib.Letters Lib.Traced List
open Telnet.Proto Telnet.Items Telnet.Automaton
open Environ Telrcv Segments

/-! ### Filling the buffer -/

/-- `subbuffer` and `subpointer`. -/
structure Sub where
  mem : ℕ → Byte
  subpointer : ℕ

/-- `SB_ACCUM (c)` -/
def Sub.accum (s : Sub) (c : Byte) : Sub :=
  if s.subpointer < subbufferSize then ⟨write s.mem s.subpointer [c], s.subpointer + 1⟩ else s

/-- From `SB_CLEAR` to `SB_TERM`, which takes `subend` two bytes back: the payload `p`, and `IAC`
and the byte `x` behind it. -/
def filled (old : ℕ → Byte) (p : List Byte) (x : Byte) : Sub :=
  (p ++ [IAC, x]).foldl Sub.accum ⟨old, 0⟩

def subend (old : ℕ → Byte) (p : List Byte) (x : Byte) : ℕ := (filled old p x).subpointer - 2

theorem foldl_accum (old : ℕ → Byte) (l : List Byte) :
    l.foldl Sub.accum ⟨old, 0⟩ =
    ⟨write old 0 (l.take subbufferSize), (l.take subbufferSize).length⟩ := by
  induction l using List.reverseRecOn with
  | nil => exact congrArg (Sub.mk · 0) (write_nil old 0).symm
  | append_singleton l c ih =>
    rw [foldl_append, ih, foldl_cons, foldl_nil, Sub.accum]
    by_cases h : l.length < subbufferSize
    · have hall : (l ++ [c]).take subbufferSize = l ++ [c] :=
        take_of_length_le (by rw [length_append]; exact h)
      rw [take_of_length_le h.le, if_pos h, hall, write_append, Nat.zero_add, length_append]
      rfl
    · have hlen : subbufferSize ≤ l.length := Nat.le_of_not_lt h
      have hfull : ¬ (l.take subbufferSize).length < subbufferSize := by
        rw [length_take, Nat.min_eq_left hlen]
        exact Nat.lt_irrefl _
      rw [if_neg hfull, take_append_of_le_length hlen]

theorem subend_eq (old : ℕ → Byte) (p : List Byte) (x : Byte) :
    subend old p x = min p.length 510 := by
  rw [subend, filled, foldl_accum, length_take, length_append]
  change min 512 (p.length + 2) - 2 = _
  omega

variable {i : ℕ}

theorem mem_filled (old : ℕ → Byte) (p : List Byte) (x : Byte) (hi : i < 512)
    (hlen : i < (p ++ [IAC, x]).length) : (filled old p x).mem i = (p ++ [IAC, x])[i] := by
  have hl : i < ((p ++ [IAC, x]).take subbufferSize).length := by
    rw [length_take]
    exact lt_min hi hlen
  rw [filled, foldl_accum]
  dsimp only
  have h := write_add old 0 ((p ++ [IAC, x]).take subbufferSize) hl
  rw [zero_add] at h
  rw [h, getElem_take]

theorem mem_filled_payload (old : ℕ → Byte) (p : List Byte) (x : Byte) (hi : i < 512)
    (hp : i < p.length) : (filled old p x).mem i = p[i] := by
  have hlen : i < (p ++ [IAC, x]).length := by
    rw [length_append]
    exact Nat.lt_add_right _ hp
  rw [mem_filled old p x hi hlen, getElem_append_left hp]

theorem mem_filled_iac (old : ℕ → Byte) (p : List Byte) (x : Byte) (hp : p.length < 512) :
    (filled old p x).mem p.length = IAC := by
  have hlen : p.length < (p ++ [IAC, x]).length := by
    rw [length_append]
    exact Nat.lt_add_of_pos_right two_pos
  rw [mem_filled old p x hp hlen, getElem_append_right le_rfl]
  simp

/-! ### What is handed over -/

/-- The payload that begins a stream, with `IAC` undone, and if it ends the byte that ends it and
the rest. -/
def cutSub : List Byte → List Byte × Option (Byte × List Byte)
  | [] => ([], none)
  | [c] => (if c = IAC then [] else [c], none)
  | c :: d :: l =>
    if c = IAC then
      if d = IAC then (IAC :: (cutSub l).1, (cutSub l).2) else ([], some (d, l))
    else (c :: (cutSub (d :: l)).1, (cutSub (d :: l)).2)

section
variable {σ : Type*} (srv : Server σ)

theorem serveStream_step (st : TS) (hst : st ≠ .DATA) (hst' : st ≠ .CR) (sub : List Byte)
    (s : σ) (c : Byte) (l : List Byte) : serveStream srv ⟨st, sub, s⟩ (c :: l) =
      ((serveStream srv (Rcv.receive srv ⟨st, sub, s⟩ c).1 l).1,
        (Rcv.receive srv ⟨st, sub, s⟩ c).2 ++
        (serveStream srv (Rcv.receive srv ⟨st, sub, s⟩ c).1 l).2) := by
  have hturn : turn srv ⟨st, sub, s⟩ c l =
      ((Rcv.receive srv ⟨st, sub, s⟩ c).1, (Rcv.receive srv ⟨st, sub, s⟩ c).2, l) := by
    unfold turn
    simp [Rcv.looksAhead, hst, hst']
  rw [serveStream_cons, hturn]

variable (q : List Byte)

theorem sbAccum_take (c : Byte) :
    sbAccum subbufferSize (q.take subbufferSize) c = (q ++ [c]).take subbufferSize := by
  unfold sbAccum
  by_cases h : q.length < subbufferSize
  · rw [take_of_length_le h.le, if_pos h, take_of_length_le (by rw [length_append]; exact h)]
  · have hlen : subbufferSize ≤ q.length := Nat.le_of_not_lt h
    rw [if_neg (by rw [length_take, Nat.min_eq_left hlen]; exact Nat.lt_irrefl _),
      take_append_of_le_length hlen]

theorem sbTerm_take (c : Byte) : sbTerm subbufferSize (q.take subbufferSize) c = q.take 510 := by
  unfold sbTerm
  rw [sbAccum_take, sbAccum_take, length_take, length_append, length_append, length_singleton,
    length_singleton, take_take]
  by_cases h : q.length ≤ 510
  · have hmin : min (min subbufferSize (q.length + 1 + 1) - 2) subbufferSize = q.length := by
      change min (min 512 (q.length + 1 + 1) - 2) 512 = q.length
      omega
    rw [hmin, take_of_length_le h, append_assoc, take_left]
  · have hmin : min (min subbufferSize (q.length + 1 + 1) - 2) subbufferSize = 510 := by
      change min (min 512 (q.length + 1 + 1) - 2) 512 = 510
      omega
    rw [hmin, append_assoc, take_append_of_le_length (by omega)]

theorem serveStream_payload (s : σ) (c : Byte) (l : List Byte) :
    serveStream srv ⟨.SB, q.take subbufferSize, s⟩ (if c = IAC then IAC :: IAC :: l else c :: l) =
      serveStream srv ⟨.SB, (q ++ [c]).take subbufferSize, s⟩ l := by
  rw [← sbAccum_take]
  by_cases hc : c = IAC
  · subst hc
    rw [if_pos rfl, serveStream_step srv .SB nofun nofun]
    have hr : Rcv.receive srv ⟨.SB, q.take subbufferSize, s⟩ IAC =
      (⟨.SE, q.take subbufferSize, s⟩, []) := rfl
    rw [hr, serveStream_step srv .SE nofun nofun]
    rfl
  · rw [if_neg hc, serveStream_step srv .SB nofun nofun]
    have hr : Rcv.receive srv ⟨.SB, q.take subbufferSize, s⟩ c =
        (⟨.SB, sbAccum subbufferSize (q.take subbufferSize) c, s⟩, []) := by
      unfold Rcv.receive
      dsimp only
      rw [if_neg hc]
    rw [hr]
    rfl

/-- What `suboption` gets of a payload that ended with `IAC` and `x`, and how the stream goes on:
behind the `SE`, or with `x` as after an `IAC`. -/
def handOver (p : List Byte) (s : σ) (x : Byte) (rest : List Byte) : Rcv σ × List Event :=
  let h := srv.handle (.suboption (p.take 510)) s
  let q := if x = SE then serveStream srv ⟨.DATA, [], h.1⟩ rest
    else serveStream srv ⟨.IAC, [], h.1⟩ (x :: rest)
  (q.1, .act (.suboption (p.take 510)) :: h.2.map .pty ++ q.2)

theorem serveStream_end (s : σ) {x : Byte} (hx : x ≠ IAC) (rest : List Byte) :
    serveStream srv ⟨.SB, q.take subbufferSize, s⟩ (IAC :: x :: rest) =
    handOver srv q s x rest := by
  have hr : Rcv.receive srv ⟨.SB, q.take subbufferSize, s⟩ IAC =
    (⟨.SE, q.take subbufferSize, s⟩, []) := rfl
  rw [serveStream_step srv .SB nofun nofun, hr, serveStream_step srv .SE nofun nofun, handOver]
  by_cases hse : x = SE
  · subst hse
    have hend : Rcv.receive srv ⟨.SE, q.take subbufferSize, s⟩ SE =
        (⟨.DATA, [], (srv.handle (.suboption (q.take 510)) s).1⟩,
          .act (.suboption (q.take 510)) ::
          (srv.handle (.suboption (q.take 510)) s).2.map .pty) := by
      unfold Rcv.receive Rcv.suboption Rcv.call
      rw [if_pos rfl, sbTerm_take]
    rw [hend]
    simp
  · have hend : Rcv.receive srv ⟨.SE, q.take subbufferSize, s⟩ x =
        ((Rcv.gotiac srv ⟨.IAC, [], (srv.handle (.suboption (q.take 510)) s).1⟩ x).1,
          .act (.suboption (q.take 510)) :: (srv.handle (.suboption (q.take 510)) s).2.map .pty ++
            (Rcv.gotiac srv ⟨.IAC, [], (srv.handle (.suboption (q.take 510)) s).1⟩ x).2) := by
      unfold Rcv.receive Rcv.suboption Rcv.call
      dsimp only
      rw [if_neg hse, if_neg hx, sbTerm_take]
    have hiac : serveStream srv ⟨.IAC, [], (srv.handle (.suboption (q.take 510)) s).1⟩ (x :: rest) =
        ((serveStream srv
          (Rcv.gotiac srv ⟨.IAC, [], (srv.handle (.suboption (q.take 510)) s).1⟩ x).1 rest).1,
          (Rcv.gotiac srv ⟨.IAC, [], (srv.handle (.suboption (q.take 510)) s).1⟩ x).2 ++
            (serveStream srv
              (Rcv.gotiac srv ⟨.IAC, [], (srv.handle (.suboption (q.take 510)) s).1⟩ x).1
              rest).2) :=
      serveStream_step srv .IAC nofun nofun [] _ x rest
    rw [hend, hiac]
    simp [hse]

/-- **What is handed over:** of a payload that ends the first 510 bytes, at most. -/
theorem serveStream_sub (s : σ) (l : List Byte) :
    (∀ x rest, (cutSub l).2 = some (x, rest) →
      serveStream srv ⟨.SB, q.take subbufferSize, s⟩ l =
      handOver srv (q ++ (cutSub l).1) s x rest) ∧
    ((cutSub l).2 = none → (serveStream srv ⟨.SB, q.take subbufferSize, s⟩ l).2 = []) := by
  fun_induction cutSub l generalizing q with
  | case1 => exact ⟨(fun x rest h => nomatch h), fun _ => rfl⟩
  | case2 c =>
    refine ⟨(fun x rest h => nomatch h), fun _ => ?_⟩
    rw [serveStream_step srv .SB nofun nofun]
    unfold Rcv.receive
    dsimp only
    split <;> rfl
  | case3 l ih =>
    have hstep := serveStream_payload srv q s IAC l
    rw [if_pos rfl] at hstep
    rw [hstep]
    obtain ⟨h1, h2⟩ := ih (q ++ [IAC])
    refine ⟨fun x rest h => ?_, h2⟩
    rw [h1 x rest h, append_assoc]
    rfl
  | case4 d l hd =>
    refine ⟨fun x rest h => ?_, (fun h => nomatch h)⟩
    obtain ⟨rfl, rfl⟩ := Prod.mk.inj (Option.some.inj h)
    rw [serveStream_end srv q s hd, append_nil]
  | case5 c d l hc ih =>
    have hstep := serveStream_payload srv q s c (d :: l)
    rw [if_neg hc] at hstep
    rw [hstep]
    obtain ⟨h1, h2⟩ := ih (q ++ [c])
    refine ⟨fun x rest h => ?_, h2⟩
    rw [h1 x rest h, append_assoc]
    rfl

end

/-! ### `suboption` -/

/-- What is done with a suboption; of `clientstat` and of what handles special characters,
authentication and encryption, the call. -/
inductive Action
  | settimer (option : Byte)
  | tspeed (xspeed rspeed : ℤ)
  | terminaltype (l : List Byte)
  | naws (xwinsize ywinsize : ℕ)
  | slc (l : List Byte)
  | mode (useeditmode : Byte)
  | sendStatus
  | display (l : List Byte)
  | environ (c : Environ.Call)
  | pass (option qual : Byte) (l : List Byte)

inductive Step
  | read (i : ℕ)
  | write (i : ℕ)
  | act (a : Action)

abbrev Run := Prog Step

structure Modes where
  hisTspeed : Bool
  hisTtype : Bool
  hisNaws : Bool
  hisLinemode : Bool
  myStatus : Bool

abbrev TELOPT_AUTHENTICATION : Byte := 37
abbrev TELOPT_ENCRYPT : Byte := 38

def load (mem : ℕ → Byte) (i : ℕ) : Run Byte := do
  emit (.read i)
  if i < subbufferSize then pure (mem i) else stop

/-- Reads from `p` on, up to the end `e`. -/
def loads (mem : ℕ → Byte) (e : ℕ) : ℕ → ℕ → Run Unit
  | 0, _ => pure ()
  | n + 1, p => do
    if p < e then
      let _ ← load mem p
      loads mem e n (p + 1)
    else pure ()

/-- A C string is read: from `p` on, up to the NUL. -/
def loadString (mem : ℕ → Byte) : ℕ → ℕ → Run Unit
  | 0, _ => stop
  | n + 1, p => do
    let c ← load mem p
    if c = 0 then pure () else loadString mem n (p + 1)

def isspace (c : Byte) : Bool := c = 32 || 9 ≤ c && c ≤ 13

/-- The first place from `p` on with no `f`. -/
def skipWhile (f : Byte → Bool) (mem : ℕ → Byte) : ℕ → ℕ → Run ℕ
  | 0, _ => stop
  | n + 1, p => do
    let c ← load mem p
    if f c then skipWhile f mem n (p + 1) else pure p

/-- The digits from `p` on; a loop that is still at it behind the buffer has been stopped by
then. -/
def number (mem : ℕ → Byte) (neg : Bool) (p : ℕ) : Run ℤ := do
  let e ← skipWhile isDigit mem (subbufferSize - p + 1) p
  pure (if neg then -(value 0 (read mem p (e - p)) : ℤ) else (value 0 (read mem p (e - p)) : ℤ))

def atoi (mem : ℕ → Byte) (p : ℕ) : Run ℤ := do
  let p ← skipWhile isspace mem (subbufferSize - p + 1) p
  let c ← load mem p
  if c = 43 ∨ c = 45 then number mem (c = 45) (p + 1) else number mem false p

/-- `while (SB_GET () != ',' && !SB_EOF ());` -/
def comma (mem : ℕ → Byte) (subend : ℕ) : ℕ → ℕ → Run ℕ
  | 0, p => pure p
  | n + 1, p => do
    let c ← load mem p
    if c ≠ 44 ∧ p + 1 < subend then comma mem subend n (p + 1) else pure (p + 1)

section
variable (md : Modes) (mem : ℕ → Byte) (subend : ℕ)

def tspeed : Run Unit := do
  if md.hisTspeed then
    emit (.act (.settimer TELOPT_TSPEED))
    if subend ≤ 1 then pure ()
    else if (← load mem 1) ≠ TELQUAL_IS then pure ()
    else
      let xspeed ← atoi mem 2
      let p ← comma mem subend subend 2
      if subend ≤ p then pure ()
      else
        let rspeed ← atoi mem p
        emit (.act (.tspeed xspeed rspeed))
  else pure ()

def ttype : Run Unit := do
  if md.hisTtype then
    emit (.act (.settimer TELOPT_TTYPE))
    if subend ≤ 1 then pure ()
    else if (← load mem 1) ≠ TELQUAL_IS then pure ()
    else
      loads mem subend subend 2
      emit (.act (.terminaltype (((read mem 2 (subend - 2)).map tolower).takeWhile (· ≠ 0))))
  else pure ()

def naws : Run Unit := do
  if md.hisNaws then
    if subend ≤ 1 then pure ()
    else
      let a ← load mem 1
      if subend ≤ 2 then pure ()
      else
        let b ← load mem 2
        if subend ≤ 3 then pure ()
        else
          let c ← load mem 3
          if subend ≤ 4 then pure ()
          else
            let d ← load mem 4
            emit (.act (.naws (256 * a.toNat + b.toNat) (256 * c.toNat + d.toNat)))
  else pure ()

def linemode : Run Unit := do
  if md.hisLinemode then
    if subend ≤ 1 then pure ()
    else
      let request ← load mem 1
      if subend ≤ 2 then pure ()
      else if request = LM_SLC then
        loads mem subend subend 2
        emit (.act (.slc (read mem 2 (subend - 2))))
      else if request = LM_MODE then
        let m ← load mem 2
        emit (.act (.mode m))
      else
        let _ ← load mem 2
        pure ()
  else pure ()

def status : Run Unit := do
  if subend ≤ 1 then pure ()
  else if (← load mem 1) = TELQUAL_SEND ∧ md.myStatus then emit (.act .sendStatus)
  else pure ()

def xdisploc : Run Unit := do
  if subend ≤ 1 then pure ()
  else if (← load mem 1) ≠ TELQUAL_IS then pure ()
  else
    emit (.act (.settimer TELOPT_XDISPLOC))
    emit (.write subend)
    loadString (write mem subend [0]) (subbufferSize + 1) 2
    emit (.act (.display (cString (write mem subend [0]) 2)))

/-- `AUTHENTICATION` and `ENCRYPT` pass on what is behind the qualifier, to what handles it if
anything does. -/
def passOn (subchar : Byte) : Run Unit := do
  if subend ≤ 1 then pure ()
  else
    let qual ← load mem 1
    emit (.act (.pass subchar qual (read mem 2 (subend - 2))))

/-! ### The environment -/

/-- The reads of the loop that looks for the first `VAR` or `USERVAR`. -/
def envSkip (subchar : Byte) : ℕ → ℕ → Run ℕ
  | 0, p => pure p
  | n + 1, p => do
    if p < subend then
      let c ← load mem p
      if envTag subchar c = NEW_ENV_VAR ∨ c = ENV_USERVAR then pure (p + 1)
      else envSkip subchar n (p + 1)
    else pure p

def loadValue (e : Env) : Run Unit :=
  match e.valp with
  | some valp => loadString (write e.mem e.cp [0]) (subbufferSize + 1) valp
  | none => pure ()

/-- A variable is complete: the NUL is written at `cp`, and `setenv` or `unsetenv` reads the
strings. -/
def envCall (e : Env) : Run Unit := do
  emit (.write e.cp)
  loadString (write e.mem e.cp [0]) (subbufferSize + 1) e.varp
  loadValue e
  emit (.act (.environ e.call))

/-- What a turn of the loop does besides changing `Env`, behind the read of `c`. -/
def envTouch (subchar : Byte) (e : Env) (c : Byte) : Run Unit :=
  if envTag subchar c = NEW_ENV_VALUE then emit (.write e.cp)
  else if envTag subchar c = NEW_ENV_VAR ∨ envTag subchar c = ENV_USERVAR then envCall e
  else if envTag subchar c = ENV_ESC then
    if subend ≤ e.subpointer + 1 then pure ()
    else do
      let _ ← load e.mem (e.subpointer + 1)
      emit (.write e.cp)
  else emit (.write e.cp)

def envTurn (subchar : Byte) (e : Env) : Run Env := do
  let c ← load e.mem e.subpointer
  envTouch subend subchar e c
  pure (e.turn subchar subend)

def envLoop (subchar : Byte) : ℕ → Env → Run Env
  | 0, e => pure e
  | n + 1, e => do
    if e.subpointer < subend then
      let e' ← envTurn subend subchar e
      envLoop subchar n e'
    else pure e

def environTimer (subchar c : Byte) : Run Unit :=
  if c = TELQUAL_IS then emit (.act (.settimer subchar)) else pure ()

def environ (subchar : Byte) : Run Unit := do
  if subend ≤ 1 then pure ()
  else
    let c ← load mem 1
    if c ≠ TELQUAL_IS ∧ c ≠ TELQUAL_INFO then pure ()
    else
      environTimer subchar c
      let p ← envSkip mem subend subchar subend 2
      if subend ≤ p then pure ()
      else
        let e ← envLoop subend subchar subend ⟨mem, p, p, p, none, []⟩
        envCall e

/-- `suboption`; `subpointer` starts at the option, which is read in any case. -/
def suboption : Run Unit := do
  let subchar ← load mem 0
  if subchar = TELOPT_TSPEED then tspeed md mem subend
  else if subchar = TELOPT_TTYPE then ttype md mem subend
  else if subchar = TELOPT_NAWS then naws md mem subend
  else if subchar = TELOPT_LINEMODE then linemode md mem subend
  else if subchar = TELOPT_STATUS then status md mem subend
  else if subchar = TELOPT_XDISPLOC then xdisploc mem subend
  else if subchar = TELOPT_NEW_ENVIRON ∨ subchar = TELOPT_OLD_ENVIRON then
    environ mem subend subchar
  else if subchar = TELOPT_AUTHENTICATION ∨ subchar = TELOPT_ENCRYPT then passOn mem subend subchar
  else pure ()

end

/-! ### What is asked of it -/

def Step.Inside : Step → Prop
  | .read i => i < subbufferSize
  | .write i => i < subbufferSize
  | .act _ => True

abbrev Safe {α : Type} (x : Run α) : Prop := Clear Step.Inside x

/-- What `atoi` leaves of a text: behind spaces, a sign and digits. -/
def scanRest (l : List Byte) : List Byte :=
  (match l.dropWhile isspace with
    | c :: l => if c = 43 ∨ c = 45 then l else c :: l
    | [] => []).dropWhile isDigit

def afterComma (l : List Byte) : List Byte := (l.dropWhile (· ≠ 44)).tail

/-- Terminal speeds without end: the payload fills the buffer, and from the qualifier or from the
comma on it is nothing that would stop `atoi`. -/
def Overruns (md : Modes) (p : List Byte) : Prop :=
  md.hisTspeed = true ∧ subbufferSize ≤ p.length ∧ ∃ l,
    p.take subbufferSize = TELOPT_TSPEED :: TELQUAL_IS :: l ∧
    (scanRest l = [] ∨ 2 < (afterComma l).length ∧ scanRest (afterComma l) = [])

/-! ### The loops -/

section
variable (mem : ℕ → Byte)

@[simp] theorem safe_load_bind {β : Type} (i : ℕ) (f : Byte → Run β) :
    Safe (load mem i >>= f) ↔ i < subbufferSize ∧ Safe (f (mem i)) := by
  rw [Safe, clear_bind, load, clear_emit_bind]
  by_cases hi : i < subbufferSize
  · rw [if_pos hi]
    constructor
    · rintro ⟨-, h⟩
      exact ⟨hi, h _ rfl⟩
    · rintro ⟨-, h⟩
      refine ⟨⟨hi, clear_pure _⟩, fun a ha => ?_⟩
      rw [← Option.some.inj ha]
      exact h
  · exact iff_of_false (fun h => hi h.1.1) fun h => hi h.1

theorem load_of_lt (hi : i < subbufferSize) : load mem i = ⟨[.read i], some (mem i)⟩ := by
  rw [load, if_pos hi]
  rfl

theorem value_load_bind {β : Type} (hi : i < subbufferSize) (f : Byte → Run β) :
    (load mem i >>= f).value = (f (mem i)).value := by
  rw [value_bind, load_of_lt mem hi]
  rfl

theorem skipWhile_spec (f : Byte → Bool) : ∀ (k p : ℕ), p + k = subbufferSize →
    (Safe (skipWhile f mem (k + 1) p) ↔ (read mem p k).dropWhile f ≠ []) ∧
      ((read mem p k).dropWhile f ≠ [] → ∃ q, (skipWhile f mem (k + 1) p).value = some q ∧ p ≤ q ∧
        q < subbufferSize ∧ read mem q (subbufferSize - q) = (read mem p k).dropWhile f)
  | 0, p, hp => by
    refine ⟨?_, fun h => absurd rfl h⟩
    rw [skipWhile, safe_load_bind]
    exact iff_of_false (fun h => absurd h.1 (by omega)) fun h => h rfl
  | k + 1, p, hp => by
    have hlt : p < subbufferSize := by omega
    have hk : subbufferSize - p = k + 1 := by omega
    rw [read_succ, skipWhile, safe_load_bind, value_load_bind mem hlt, and_iff_right hlt]
    by_cases hf : f (mem p) = true
    · rw [if_pos hf, dropWhile_cons_of_pos hf]
      obtain ⟨h1, h2⟩ := skipWhile_spec f k (p + 1) (by omega)
      refine ⟨h1, fun h => ?_⟩
      obtain ⟨q, hq, hpq, hlq, hread⟩ := h2 h
      exact ⟨q, hq, by omega, hlq, hread⟩
    · rw [if_neg hf, dropWhile_cons_of_neg hf]
      refine ⟨iff_of_true (clear_pure p) (cons_ne_nil _ _), fun _ => ⟨p, rfl, le_refl p, hlt, ?_⟩⟩
      rw [hk, read_succ]

theorem number_spec (neg : Bool) {p : ℕ} (hp : p ≤ subbufferSize) :
    (Safe (number mem neg p) ↔ (read mem p (subbufferSize - p)).dropWhile isDigit ≠ []) ∧
      ((read mem p (subbufferSize - p)).dropWhile isDigit ≠ [] → ∃ v,
        (number mem neg p).value = some v) := by
  obtain ⟨h1, h2⟩ := skipWhile_spec mem isDigit (subbufferSize - p) p (by omega)
  unfold number
  refine ⟨?_, fun h => ?_⟩
  · rw [Safe, clear_bind, ← h1]
    exact and_iff_left fun e _ => clear_pure _
  · obtain ⟨q, hq, -⟩ := h2 h
    rw [value_bind, hq]
    exact ⟨_, rfl⟩

theorem atoi_spec {p : ℕ} (hp : p ≤ subbufferSize) :
    (Safe (atoi mem p) ↔ scanRest (read mem p (subbufferSize - p)) ≠ []) ∧
      (scanRest (read mem p (subbufferSize - p)) ≠ [] → ∃ v, (atoi mem p).value = some v) := by
  obtain ⟨hsp, hspv⟩ := skipWhile_spec mem isspace (subbufferSize - p) p (by omega)
  unfold atoi scanRest
  by_cases hne : (read mem p (subbufferSize - p)).dropWhile isspace = []
  · rw [hne]
    refine ⟨iff_of_false (fun h => ?_) fun h => h rfl, fun h => absurd rfl h⟩
    exact absurd (hsp.1 ((clear_bind _ _).1 h).1) (not_not.2 hne)
  · obtain ⟨q, hq, hpq, hlq, hread⟩ := hspv hne
    have hk : subbufferSize - q = subbufferSize - (q + 1) + 1 := by omega
    have hcons := read_succ mem q (subbufferSize - (q + 1))
    rw [← hk] at hcons
    rw [Safe, clear_bind, value_bind, hq, ← hread, hcons]
    simp only [Option.bind_some, Option.some_inj, forall_eq', and_iff_right (hsp.2 hne)]
    rw [value_load_bind mem hlq]
    have hload : ∀ f : Byte → Run ℤ, Clear Step.Inside (load mem q >>= f) ↔
      Clear Step.Inside (f (mem q)) :=
      fun f => (safe_load_bind mem q f).trans (and_iff_right hlq)
    rw [hload]
    split
    · exact number_spec mem _ (by omega)
    · rw [← hcons]
      exact number_spec mem _ hlq.le

theorem comma_spec {subend : ℕ} (hend : subend ≤ subbufferSize) :
    ∀ (n p : ℕ), p < subend → subend ≤ p + n →
    Safe (comma mem subend n p) ∧ ∃ q, (comma mem subend n p).value = some q ∧ p < q ∧ q ≤ subend ∧
      (q < subend ↔ subbufferSize - subend < (afterComma (read mem p (subbufferSize - p))).length) ∧
      (q < subend → read mem q (subbufferSize - q) = afterComma (read mem p (subbufferSize - p)))
  | 0, p, hp, hn => absurd hn (by omega)
  | n + 1, p, hp, hn => by
    have hk : subbufferSize - p = subbufferSize - (p + 1) + 1 := by omega
    have hcons := read_succ mem p (subbufferSize - (p + 1))
    rw [← hk] at hcons
    have hlt : p < subbufferSize := by omega
    rw [comma, safe_load_bind, value_load_bind mem hlt, and_iff_right hlt]
    by_cases hc : mem p = 44
    · have hrest : afterComma (read mem p (subbufferSize - p)) =
        read mem (p + 1) (subbufferSize - (p + 1)) := by
        rw [hcons, afterComma, dropWhile_cons_of_neg (by simp [hc])]
        rfl
      rw [if_neg (fun h => h.1 hc), hrest, length_read]
      refine ⟨clear_pure _, p + 1, rfl, by omega, hp, ⟨fun h => by omega, fun h => by omega⟩,
        fun _ => rfl⟩
    · have hrest : afterComma (read mem p (subbufferSize - p)) =
          afterComma (read mem (p + 1) (subbufferSize - (p + 1))) := by
        rw [hcons, afterComma, dropWhile_cons_of_pos (by simp [hc])]
        rfl
      rw [hrest]
      by_cases hmore : p + 1 < subend
      · rw [if_pos ⟨hc, hmore⟩]
        obtain ⟨hsafe, q, hq, hpq, hle, hiff, hread⟩ := comma_spec hend n (p + 1) hmore (by omega)
        exact ⟨hsafe, q, hq, by omega, hle, hiff, hread⟩
      · rw [if_neg fun h => hmore h.2]
        have hlen : (afterComma (read mem (p + 1) (subbufferSize - (p + 1)))).length ≤
          subbufferSize - (p + 1) := by
          have hdrop :=
            (dropWhile_suffix (l := read mem (p + 1) (subbufferSize - (p + 1))) (· ≠ 44)).length_le
          rw [length_read] at hdrop
          rw [afterComma, length_tail]
          omega
        exact ⟨clear_pure _, p + 1, rfl, by omega, hp, ⟨fun h => by omega, fun h => by omega⟩,
          fun h => by omega⟩

end

/-! ### What stays inside -/

/-- The computation stays in the buffer, and gives a value. -/
abbrev Gives {α : Type} (x : Run α) (a : α) : Prop := Yields Step.Inside x a

theorem safe_bind_iff {α β : Type} {x : Run α} {a : α} {f : α → Run β} (hx : Gives x a) :
    Safe (x >>= f) ↔ Safe (f a) := clear_bind_iff hx

theorem gives_load (mem : ℕ → Byte) (hi : i < subbufferSize) : Gives (load mem i) (mem i) := by
  have hload := load_of_lt mem hi
  refine ⟨?_, by rw [hload]⟩
  intro st hst
  rw [hload] at hst
  rw [mem_singleton.1 hst]
  exact hi

theorem gives_loads (mem : ℕ → Byte) {e : ℕ} (he : e ≤ subbufferSize) :
    ∀ n p, Gives (loads mem e n p) ()
  | 0, _ => yields_pure ()
  | n + 1, p => by
    rw [loads]
    split
    next hp =>
      exact yields_bind (gives_load mem (lt_of_lt_of_le hp he)) (gives_loads mem he n (p + 1))
    next => exact yields_pure ()

theorem gives_loadString {mem : ℕ → Byte} {q : ℕ} (hq : q < subbufferSize) (h0 : mem q = 0) :
    ∀ n p, p ≤ q → q < p + n → Gives (loadString mem n p) ()
  | 0, p, hp, hn => absurd hn (by omega)
  | n + 1, p, hp, hn => by
    refine yields_bind (gives_load mem (by omega)) ?_
    split
    next => exact yields_pure ()
    next hc =>
      have hne : p ≠ q := by
        rintro rfl
        exact hc h0
      exact gives_loadString hq h0 n (p + 1) (by omega) (by omega)

/-! ### The environment -/

structure Behind (subend : ℕ) (e : Env) : Prop where
  varp : e.varp ≤ e.cp
  valp : ∀ v ∈ e.valp, v ≤ e.cp
  cp : e.cp ≤ e.subpointer
  subpointer : e.subpointer ≤ subend

section
variable {subend : ℕ} (hend : subend < subbufferSize) (subchar : Byte)
include hend

theorem gives_envSkip (mem : ℕ → Byte) :
    ∀ n p, p ≤ subend → ∃ q, Gives (envSkip mem subend subchar n p) q
  | 0, p, _ => ⟨p, yields_pure p⟩
  | n + 1, p, hp => by
    rw [envSkip]
    split
    next hlt =>
      obtain ⟨q, hq⟩ :
        ∃ q, Gives (if envTag subchar (mem p) = NEW_ENV_VAR ∨ mem p = ENV_USERVAR then
          (pure (p + 1) : Run ℕ) else envSkip mem subend subchar n (p + 1)) q := by
        split
        · exact ⟨p + 1, yields_pure _⟩
        · exact gives_envSkip mem n (p + 1) hlt
      exact ⟨q, yields_bind (gives_load mem (hlt.trans hend)) hq⟩
    next => exact ⟨p, yields_pure p⟩

theorem gives_envCall {e : Env} (he : Behind subend e) : Gives (envCall e) () := by
  have hcp : e.cp < subbufferSize := lt_of_le_of_lt (he.cp.trans he.subpointer) hend
  have h0 : write e.mem e.cp [0] e.cp = 0 := write_add e.mem e.cp [0] one_pos
  have hvalue : Gives (loadValue e) () := by
    unfold loadValue
    split
    next v hv => exact gives_loadString hcp h0 _ v (he.valp v hv) (by omega)
    next => exact yields_pure ()
  exact yields_bind (yields_emit hcp)
    (yields_bind (gives_loadString hcp h0 _ e.varp he.varp (by omega))
    (yields_bind hvalue (yields_emit trivial)))

theorem gives_envTouch {e : Env} (he : Behind subend e) (c : Byte) :
    Gives (envTouch subend subchar e c) () := by
  have hcp : e.cp < subbufferSize := lt_of_le_of_lt (he.cp.trans he.subpointer) hend
  unfold envTouch
  split
  · exact yields_emit hcp
  split
  · exact gives_envCall hend he
  split
  · split
    · exact yields_pure ()
    · exact yields_bind (gives_load e.mem (by omega)) (yields_emit hcp)
  · exact yields_emit hcp

omit hend in
theorem behind_turn {e : Env} (he : Behind subend e) (hlt : e.subpointer < subend) :
    Behind subend (e.turn subchar subend) := by
  obtain ⟨h1, h2, h3, h4⟩ := he
  unfold Env.turn
  dsimp only
  split
  · exact ⟨by dsimp only; omega, by simp, le_rfl, hlt⟩
  split
  · exact ⟨le_rfl, by simp, le_rfl, hlt⟩
  split
  · split
    next => exact ⟨h1, h2, Nat.le_succ_of_le h3, hlt⟩
    next hmore =>
      exact ⟨Nat.le_succ_of_le h1, fun v hv => Nat.le_succ_of_le (h2 v hv),
        Nat.succ_le_succ (Nat.le_succ_of_le h3), Nat.lt_of_not_le hmore⟩
  · exact ⟨Nat.le_succ_of_le h1, fun v hv => Nat.le_succ_of_le (h2 v hv), Nat.succ_le_succ h3, hlt⟩

theorem gives_envLoop : ∀ (n : ℕ) {e : Env}, Behind subend e →
    ∃ e', Gives (envLoop subend subchar n e) e' ∧ Behind subend e'
  | 0, e, he => ⟨e, yields_pure e, he⟩
  | n + 1, e, he => by
    rw [envLoop]
    split
    next hlt =>
      obtain ⟨e', h, h'⟩ := gives_envLoop n (behind_turn subchar he hlt)
      refine ⟨e', yields_bind (yields_bind (gives_load e.mem (hlt.trans hend)) ?_) h, h'⟩
      exact yields_bind (gives_envTouch hend subchar he _) (yields_pure _)
    next => exact ⟨e, yields_pure e, he⟩

theorem gives_environ (mem : ℕ → Byte) : Gives (environ mem subend subchar) () := by
  unfold environ
  split
  next => exact yields_pure ()
  next h1 =>
    refine yields_bind (gives_load mem (by omega)) ?_
    split
    next => exact yields_pure ()
    next =>
      have htimer : Gives (environTimer subchar (mem 1)) () := by
        unfold environTimer
        split
        · exact yields_emit trivial
        · exact yields_pure ()
      obtain ⟨p, hp⟩ := gives_envSkip hend subchar mem subend 2 (by omega)
      refine yields_bind htimer (yields_bind hp ?_)
      split
      next => exact yields_pure ()
      next hp =>
        have hstart : Behind subend ⟨mem, p, p, p, none, []⟩ :=
          ⟨le_rfl, by simp, le_rfl, by dsimp only; omega⟩
        obtain ⟨e, he, hb⟩ := gives_envLoop hend subchar subend hstart
        exact yields_bind he (gives_envCall hend hb)

/-! ### The other handlers -/

section
variable (md : Modes) (mem : ℕ → Byte)
omit subchar

theorem gives_ttype : Gives (ttype md mem subend) () := by
  unfold ttype
  split
  · refine yields_bind (yields_emit trivial) ?_
    split
    next => exact yields_pure ()
    next =>
      refine yields_bind (gives_load mem (by omega)) ?_
      split
      · exact yields_pure ()
      · exact yields_bind (gives_loads mem hend.le subend 2) (yields_emit trivial)
  · exact yields_pure ()

theorem gives_naws : Gives (naws md mem subend) () := by
  unfold naws
  split
  · split
    next => exact yields_pure ()
    next =>
    refine yields_bind (gives_load mem (by omega)) ?_
    split
    next => exact yields_pure ()
    next =>
    refine yields_bind (gives_load mem (by omega)) ?_
    split
    next => exact yields_pure ()
    next =>
    refine yields_bind (gives_load mem (by omega)) ?_
    split
    next => exact yields_pure ()
    next => exact yields_bind (gives_load mem (by omega)) (yields_emit trivial)
  · exact yields_pure ()

theorem gives_linemode : Gives (linemode md mem subend) () := by
  unfold linemode
  split
  · split
    next => exact yields_pure ()
    next =>
    refine yields_bind (gives_load mem (by omega)) ?_
    split
    next => exact yields_pure ()
    next =>
    split
    · exact yields_bind (gives_loads mem hend.le subend 2) (yields_emit trivial)
    split
    · exact yields_bind (gives_load mem (by omega)) (yields_emit trivial)
    · exact yields_bind (gives_load mem (by omega)) (yields_pure ())
  · exact yields_pure ()

theorem gives_status : Gives (status md mem subend) () := by
  unfold status
  split
  next => exact yields_pure ()
  next =>
    refine yields_bind (gives_load mem (by omega)) ?_
    split
    · exact yields_emit trivial
    · exact yields_pure ()

theorem gives_xdisploc : Gives (xdisploc mem subend) () := by
  unfold xdisploc
  split
  next => exact yields_pure ()
  next =>
    refine yields_bind (gives_load mem (by omega)) ?_
    split
    · exact yields_pure ()
    · have h0 : write mem subend [0] subend = 0 := write_add mem subend [0] one_pos
      exact yields_bind (yields_emit trivial) (yields_bind (yields_emit hend)
        (yields_bind (gives_loadString hend h0 _ 2 (by omega) (by omega)) (yields_emit trivial)))

theorem gives_passOn (subchar : Byte) : Gives (passOn mem subend subchar) () := by
  unfold passOn
  split
  next => exact yields_pure ()
  next => exact yields_bind (gives_load mem (by omega)) (yields_emit trivial)

omit hend in
theorem safe_atoi_bind {p : ℕ} (hp : p ≤ subbufferSize) (f : ℤ → Run Unit) :
    Safe (atoi mem p >>= f) ↔
      scanRest (read mem p (subbufferSize - p)) ≠ [] ∧ ∀ v, (atoi mem p).value = some v →
      Safe (f v) := by
  rw [Safe, clear_bind, ← (atoi_spec mem hp).1]

omit hend in
theorem length_afterComma (l : List Byte) : (afterComma l).length ≤ l.length - 1 := by
  have hdrop := (dropWhile_suffix (l := l) (· ≠ 44)).length_le
  rw [afterComma, length_tail]
  omega

theorem safe_rspeed_iff (xspeed : ℤ) (h2 : 2 ≤ subend) :
    Safe (do
      let p ← comma mem subend subend 2
      if subend ≤ p then pure ()
      else
        let rspeed ← atoi mem p
        emit (.act (.tspeed xspeed rspeed))) ↔
      (subbufferSize - subend < (afterComma (read mem 2 (subbufferSize - 2))).length →
        scanRest (afterComma (read mem 2 (subbufferSize - 2))) ≠ []) := by
  have hlen := length_afterComma (read mem 2 (subbufferSize - 2))
  rw [length_read] at hlen
  by_cases hlt : 2 < subend
  · obtain ⟨hsafe, q, hq, -, hle, hiff, hread⟩ := comma_spec mem hend.le subend 2 hlt (by omega)
    rw [safe_bind_iff ⟨hsafe, hq⟩, ← hiff]
    by_cases hmore : q < subend
    · rw [if_neg (Nat.not_le.2 hmore), safe_atoi_bind mem (by omega), hread hmore,
        forall_prop_of_true hmore]
      exact and_iff_left fun v _ => (clear_emit _).2 trivial
    · rw [if_pos (Nat.le_of_not_lt hmore)]
      exact iff_of_true (clear_pure ()) fun h => absurd h hmore
  · obtain rfl : subend = 2 := by omega
    have hcomma : Gives (comma mem 2 2 2) 3 := by
      refine yields_bind (gives_load mem hend) ?_
      rw [if_neg fun h => absurd h.2 (by decide)]
      exact yields_pure 3
    rw [safe_bind_iff hcomma, if_pos (by decide)]
    exact iff_of_true (clear_pure ()) fun h => absurd h (by omega)

theorem safe_tspeed_iff : Safe (tspeed md mem subend) ↔
    (md.hisTspeed = true → 1 < subend → mem 1 = TELQUAL_IS →
      scanRest (read mem 2 (subbufferSize - 2)) ≠ [] ∧
      (subbufferSize - subend < (afterComma (read mem 2 (subbufferSize - 2))).length →
        scanRest (afterComma (read mem 2 (subbufferSize - 2))) ≠ [])) := by
  unfold tspeed
  split
  next hhis =>
    have hin : Step.Inside (.act (.settimer TELOPT_TSPEED)) := trivial
    rw [safe_bind_iff (yields_emit hin), forall_prop_of_true hhis]
    by_cases h1 : 1 < subend
    · rw [if_neg (Nat.not_le.2 h1), safe_bind_iff (gives_load mem (h1.trans hend)),
        forall_prop_of_true h1]
      by_cases his : mem 1 = TELQUAL_IS
      · rw [if_neg (not_not.2 his), forall_prop_of_true his, safe_atoi_bind mem (by omega)]
        refine and_congr_right fun hne => ?_
        obtain ⟨v, hv⟩ := (atoi_spec mem (by omega : 2 ≤ subbufferSize)).2 hne
        rw [hv]
        simp only [Option.some_inj, forall_eq']
        exact safe_rspeed_iff hend mem v h1
      · rw [if_pos his]
        exact iff_of_true (clear_pure ()) fun h => absurd h his
    · rw [if_pos (Nat.le_of_not_lt h1)]
      exact iff_of_true (clear_pure ()) fun h => absurd h h1
  next hhis => exact iff_of_true (clear_pure ()) fun h => absurd h hhis

theorem safe_suboption_iff : Safe (suboption md mem subend) ↔
    (mem 0 = TELOPT_TSPEED → Safe (tspeed md mem subend)) := by
  have h0 : (0 : ℕ) < subbufferSize := by omega
  unfold suboption
  rw [safe_bind_iff (gives_load mem h0)]
  by_cases hts : mem 0 = TELOPT_TSPEED
  · rw [if_pos hts]
    exact ⟨fun h _ => h, fun h => h hts⟩
  · rw [if_neg hts]
    refine iff_of_true ?_ fun h => absurd h hts
    split
    · exact (gives_ttype hend md mem).1
    split
    · exact (gives_naws hend md mem).1
    split
    · exact (gives_linemode hend md mem).1
    split
    · exact (gives_status hend md mem).1
    split
    · exact (gives_xdisploc hend mem).1
    split
    · exact (gives_environ hend _ mem).1
    split
    · exact (gives_passOn hend mem _).1
    · exact (yields_pure ()).1

end

end

/-! ### The buffer that `telrcv` filled -/

variable {l : List Byte}

theorem iac_stops (h : IAC ∈ l) : scanRest l ≠ [] := by
  intro hnil
  unfold scanRest at hnil
  have hsp : IAC ∈ l.dropWhile isspace := by
    rw [← takeWhile_append_dropWhile (p := isspace) (l := l), mem_append] at h
    exact h.resolve_left fun hin => absurd (mem_takeWhile_imp hin) (by decide)
  rcases hrest : l.dropWhile isspace with _ | ⟨c, l'⟩
  · rw [hrest] at hsp
    exact nomatch hsp
  · rw [hrest] at hnil hsp
    have hdigits : ∀ {l : List Byte}, IAC ∈ l → l.dropWhile isDigit ≠ [] := by
      intro l hl hd
      rw [dropWhile_eq_nil_iff] at hd
      exact absurd (hd IAC hl) (by decide)
    dsimp only at hnil
    split at hnil
    next hsign =>
      refine hdigits ((mem_cons.1 hsp).resolve_left ?_) hnil
      rintro rfl
      exact absurd hsign (by decide)
    next => exact hdigits hsp hnil

section
variable (old : ℕ → Byte) (p : List Byte) (x : Byte)

theorem read_filled_long (hp : subbufferSize ≤ p.length) (hi : i ≤ subbufferSize) :
    read (filled old p x).mem i (subbufferSize - i) = (p.take subbufferSize).drop i := by
  refine ext_getElem (by rw [length_read, length_drop, length_take, min_eq_left hp]) ?_
  intro j h1 h2
  have hread :
      (read (filled old p x).mem i (subbufferSize - i))[j] = (filled old p x).mem (i + j) := by
    simp [Lib.Cyclic.read]
  rw [length_read] at h1
  have hin : i + j < subbufferSize := by omega
  rw [hread, mem_filled_payload old p x hin (by omega), getElem_drop, getElem_take]

theorem iac_mem_read (hp : p.length < subbufferSize) (hi : i ≤ p.length) :
    IAC ∈ read (filled old p x).mem i (subbufferSize - i) := by
  rw [Lib.Cyclic.read, mem_map]
  refine ⟨p.length - i, mem_range.2 (by omega), ?_⟩
  rw [show i + (p.length - i) = p.length by omega]
  exact mem_filled_iac old p x hp

theorem safe_filled_iff (md : Modes) :
    Safe (suboption md (filled old p x).mem (subend old p x)) ↔ ¬ Overruns md p := by
  have hsub := subend_eq old p x
  have hend : subend old p x < subbufferSize := by
    change _ < 512
    omega
  rw [safe_suboption_iff hend, safe_tspeed_iff hend]
  by_cases hlong : subbufferSize ≤ p.length
  · have h510 : subend old p x = 510 := by
      omega
    have hlen : (p.take subbufferSize).length = 512 := by rw [length_take, Nat.min_eq_left hlong]
    obtain ⟨a, b, l, hl⟩ : ∃ a b l, p.take subbufferSize = a :: b :: l := by
      rcases hcases : p.take subbufferSize with _ | ⟨a, _ | ⟨b, l⟩⟩
      · rw [hcases] at hlen
        exact absurd hlen (by decide)
      · rw [hcases] at hlen
        exact absurd hlen (by simp)
      · exact ⟨a, b, l, rfl⟩
    have hread := read_filled_long old p x hlong (by omega : 2 ≤ subbufferSize)
    rw [hl] at hread
    have hp : p = a :: b :: (l ++ p.drop subbufferSize) :=
      (take_append_drop subbufferSize p).symm.trans (by rw [hl]; rfl)
    have h0 : (filled old p x).mem 0 = a :=
      (mem_filled_payload old p x (by decide) (by omega)).trans (getElem_of_eq hp _)
    have h1 : (filled old p x).mem 1 = b :=
      (mem_filled_payload old p x (by decide) (by omega)).trans (getElem_of_eq hp _)
    rw [h510, h0, h1, hread]
    constructor
    · rintro h ⟨hhis, -, l', heq, hor⟩
      rw [hl] at heq
      obtain ⟨rfl, htail⟩ := List.cons.inj heq
      obtain ⟨rfl, rfl⟩ := List.cons.inj htail
      obtain ⟨hfirst, hsecond⟩ := h rfl hhis (by decide) rfl
      rcases hor with hnil | ⟨hlen, hnil⟩
      · exact hfirst hnil
      · exact hsecond hlen hnil
    · intro hno ha hhis _ hb
      have heq : p.take subbufferSize = TELOPT_TSPEED :: TELQUAL_IS :: l := by rw [hl, ha, hb]
      exact ⟨fun hnil => hno ⟨hhis, hlong, l, heq, .inl hnil⟩,
        fun hlt hnil => hno ⟨hhis, hlong, l, heq, .inr ⟨hlt, hnil⟩⟩⟩
  · have hshort : p.length < subbufferSize := Nat.lt_of_not_le hlong
    have hno : ¬ Overruns md p := fun h => hlong h.2.1
    refine iff_of_true (fun _ _ h1 _ => ?_) hno
    have hle : subend old p x ≤ p.length := by
      rw [hsub]
      exact Nat.min_le_left _ _
    have hstop := iac_stops (iac_mem_read old p x hshort (h1.trans_le hle))
    refine ⟨hstop, fun hlt => ?_⟩
    obtain ⟨-, q, -, -, hqle, hiff, hread⟩ :=
      comma_spec (filled old p x).mem hend.le (subend old p x) 2
      (by
        have hlen := length_afterComma (read (filled old p x).mem 2 (subbufferSize - 2))
        rw [length_read] at hlen
        omega)
      (by omega)
    rw [← hread (hiff.2 hlt)]
    exact iac_stops (iac_mem_read old p x hshort (hqle.trans hle))

end

/-! ### The whole -/

/-- What is asked of the server on a stream in a suboption, with the modes `modes` and the buffer
`old`: if the payload ends, its first 510 bytes are handed over and what ended it is a command, and
`suboption` stays in the buffer; else nothing is handed over. -/
def Sound {σ : Type*} (srv : Server σ) (modes : σ → Modes) (old : ℕ → Byte) (s : σ)
    (l : List Byte) : Prop :=
  match cutSub l with
  | (p, some (x, rest)) =>
    serveStream srv ⟨.SB, [], s⟩ l = handOver srv p s x rest ∧
      Safe (suboption (modes s) (filled old p x).mem (subend old p x))
  | (_, none) => (serveStream srv ⟨.SB, [], s⟩ l).2 = []

/-- **When the server is sound on a suboption:** unless it ends, and is one of terminal speeds that
`atoi` reads past the buffer. -/
theorem suboption_sound_iff {σ : Type*} (srv : Server σ) (modes : σ → Modes) (old : ℕ → Byte)
    (s : σ) (l : List Byte) :
    Sound srv modes old s l ↔ ((cutSub l).2.isSome = true → ¬ Overruns (modes s) (cutSub l).1) := by
  obtain ⟨hsome, hnone⟩ := serveStream_sub srv [] s l
  rw [take_nil] at hsome hnone
  unfold Sound
  rcases hcut : cutSub l with ⟨p, _ | ⟨x, rest⟩⟩
  · rw [hcut] at hnone
    exact iff_of_true (hnone rfl) fun h => absurd h (by simp)
  · rw [hcut] at hsome
    have hover := hsome x rest rfl
    rw [nil_append] at hover
    dsimp only
    rw [and_iff_right hover, safe_filled_iff]
    exact ⟨fun h _ => h, fun h => h rfl⟩

def idle : Server Unit :=
  ⟨fun _ => false, fun _ => false, fun _ => false, fun _ => false, fun _ s => (s, [])⟩

/-- A terminal speed of `n` digits. -/
def speed (n : ℕ) : List Byte := TELOPT_TSPEED :: TELQUAL_IS :: List.replicate n 48

theorem cutSub_cons {c : Byte} (hc : c ≠ IAC) (hl : l ≠ []) :
    cutSub (c :: l) = (c :: (cutSub l).1, (cutSub l).2) := by
  rcases l with _ | ⟨d, l⟩
  · exact absurd rfl hl
  · rw [cutSub, if_neg hc]

theorem cutSub_speed (n : ℕ) : cutSub (speed n ++ [IAC, SE]) = (speed n, some (SE, [])) := by
  have hdigits :
      ∀ n, cutSub (List.replicate n 48 ++ [IAC, SE]) = (List.replicate n 48, some (SE, [])) := by
    intro n
    induction n with
    | zero => rfl
    | succ n ih => rw [replicate_succ, cons_append, cutSub_cons (by decide) (by simp), ih]
  unfold speed
  rw [cons_append, cons_append, cutSub_cons (by decide) (by simp),
    cutSub_cons (by decide) (by simp), hdigits]

theorem scanRest_digits (n : ℕ) : scanRest (List.replicate n 48) = [] := by
  have hdrop : ∀ n, (List.replicate n (48 : Byte)).dropWhile isDigit = [] := by
    intro n
    rw [dropWhile_eq_nil_iff]
    intro c hc
    rw [eq_of_mem_replicate hc]
    decide
  unfold scanRest
  rcases n with _ | n
  · rfl
  · rw [replicate_succ, dropWhile_cons_of_neg (by decide)]
    dsimp only
    exact hdrop _

theorem overruns_speed {md : Modes} (hmd : md.hisTspeed = true) {n : ℕ} (hn : 510 ≤ n) :
    Overruns md (speed n) := by
  have hlen : (speed n).length = n + 2 := by simp [speed]
  obtain ⟨m, hm⟩ : ∃ m, m = 510 := ⟨510, rfl⟩
  refine ⟨hmd, ?_, List.replicate m 48, ?_, .inl (scanRest_digits m)⟩
  · rw [hlen]
    exact Nat.add_le_add_right hn 2
  · rw [show subbufferSize = m + 1 + 1 by rw [hm], speed, take_succ_cons, take_succ_cons,
      take_replicate, Nat.min_eq_left (hm.trans_le hn)]

theorem not_sound_speed {n : ℕ} (hn : 510 ≤ n) :
    ¬ Sound idle (fun _ => ⟨true, true, true, true, true⟩) (fun _ => 0) ()
    (speed n ++ [IAC, SE]) := by
  unfold Sound
  rw [cutSub_speed]
  intro h
  exact (safe_filled_iff _ _ _ _).1 h.2 (overruns_speed rfl hn)

/-- A terminal speed of 510 digits. -/
theorem not_sound_digits :
    ¬ ∀ (srv : Server Unit) (modes : Unit → Modes) (old : ℕ → Byte) (s : Unit) (l : List Byte),
    Sound srv modes old s l := by
  intro h
  obtain ⟨n, hn⟩ : ∃ n, n = 510 := ⟨510, rfl⟩
  exact not_sound_speed hn.ge (h _ _ _ _ _)

end Inetutils.Telnetd.Suboption
