import Inetutils.Telnet.Triplets
import Mathlib.Algebra.Order.Ring.Int

/-! # Special characters in the client

The functions for `SLC` of `telnet/telnet.c`. Where `valp` points is the character of the terminal,
which every function has for itself; what else is done to the terminal is left out. The value of a
disabled character is a parameter.

`slc_reply` has 128 bytes, and `slc` answers as many triplets as the payload has it answer: `demand`
says in how many bytes, and `slc_replyp` stays in the buffer just if they are 122 at most
(`slc_reply_within_iff`, `unknown_functions_overflow_reply`). -/

namespace Inetutils.Telnet.Slc

open Lib.Mealy Proto Items Triplets

/-- `struct spc`, with the character `valp` points to, if it is not null. -/
structure Spc where
  val : Byte
  valp : Option Byte
  flags : Byte
  mylevel : Byte

abbrev SpcData := Byte → Spc

/-! ### One function -/

section
variable (vdisable : Byte)

/-- `slc` for a function in the table: the new entry and what is answered. -/
def Spc.slc (e : Spc) (flag val : Byte) : Spc × Option (Byte × Byte) :=
  let lvl := flag &&& (SLC_LEVELBITS ||| SLC_ACK)
  if val = e.val ∧ lvl &&& SLC_LEVELBITS = level e.flags then (e, none)
  else
    -- an acknowledgement of the level `SLC_DEFAULT` is taken for a request
    let flag := if lvl = SLC_DEFAULT ||| SLC_ACK then flag &&& ~~~SLC_ACK else flag
    if lvl = level e.flags ||| SLC_ACK then ({ e with val := val, flags := flag }, none)
    else
      let lvl := lvl &&& ~~~SLC_ACK
      let e := if lvl ≤ level e.mylevel then { e with flags := flag ||| SLC_ACK, val := val } else e
      let e :=
        if lvl = SLC_DEFAULT then
          { e with flags := if level e.mylevel = SLC_DEFAULT then SLC_NOSUPPORT else e.mylevel }
        else e
      (e, some (e.flags, e.val))

/-- `slc_update` for one function. -/
def Spc.update (e : Spc) : Spc :=
  if acks e.flags then
    { e with flags := e.flags &&& ~~~SLC_ACK, valp := e.valp.map fun _ => e.val }
  else e

/-- `slc_check` for one function. -/
def Spc.check (e : Spc) : Spc × Option (Byte × Byte) :=
  match e.valp with
  | none => (e, none)
  | some c =>
    if e.val = c then (e, none)
    else
      let flags := if c = vdisable then SLC_NOSUPPORT else e.mylevel
      ({ e with val := c, flags := flags }, some (flags, c))

/-- `initfunc`, with what `tcval` says of the function. -/
def Spc.init (valp : Option Byte) (flags : Byte) : Spc :=
  match valp with
  | some c => ⟨c, some c, SLC_NOSUPPORT, SLC_VARIABLE ||| flags⟩
  | none => ⟨0, none, SLC_NOSUPPORT, SLC_DEFAULT⟩

/-- `slc_export` for one function, once the terminal has its default characters, of which this is
`c`. -/
def Spc.export (c : Byte) (e : Spc) : Spc × Option (Byte × Byte) :=
  if e.mylevel = SLC_NOSUPPORT then (e, none)
  else
    let flags := if e.val = vdisable then SLC_NOSUPPORT else e.mylevel
    let val := if e.valp.isSome then c else e.val
    ({ e with val := val, valp := e.valp.map fun _ => c, flags := flags }, some (flags, val))

/-! ### The table -/

/-- What `f` does to the entry of the function `i`, and the triplet that is added for it. -/
def on (f : Spc → Spc × Option (Byte × Byte)) (d : SpcData) (i : Byte) : SpcData × List Triplet :=
  (Function.update d i (f (d i)).1, ((f (d i)).2.map fun p => Triplet.mk i p.1 p.2).toList)

/-- A turn of the loop of `slc`. -/
def slcTriplet (d : SpcData) (t : Triplet) : SpcData × List Triplet :=
  if t.func = 0 then (d, [])
  else if t.func.toNat > NSLC then
    (d, if level t.flag = SLC_NOSUPPORT then [] else [⟨t.func, SLC_NOSUPPORT, 0⟩])
  else on (fun e => e.slc t.flag t.val) d t.func

/-- The table `slc_init` sets up, with what `tcval` says of each function; `sysv` is
`SYSV_TERMIO`. -/
def slcInit (sysv : Bool) (tcval : Byte → Option Byte) : SpcData := fun func =>
  let initfunc (flags : Byte) : Spc := Spc.init (tcval func) flags
  if func = SLC_SYNCH ∨ func = SLC_AO ∨ func = SLC_AYT ∨ func = SLC_EOF ∨ func = SLC_EC ∨
    func = SLC_EL ∨
      func = SLC_FORW1 ∨ func = SLC_FORW2 then initfunc 0
  else if func = SLC_ABORT ∨ func = SLC_IP then initfunc (SLC_FLUSHIN ||| SLC_FLUSHOUT)
  else if func = SLC_XON ∨ func = SLC_XOFF then
    if sysv then { initfunc 0 with mylevel := SLC_CANTCHANGE } else initfunc 0
  else if sysv = false ∧ func = SLC_SUSP then initfunc SLC_FLUSHIN
  else if sysv = false ∧ (func = SLC_EW ∨ func = SLC_RP ∨ func = SLC_LNEXT) then initfunc 0
  else ⟨0, none, SLC_NOSUPPORT, SLC_NOSUPPORT⟩

def slcUpdate (d : SpcData) : SpcData := fun i => if i ∈ funcs then (d i).update else d i

/-- `slc`: the table and the triplets of the reply. -/
def slc (p : List Byte) (d : SpcData) : SpcData × List Triplet :=
  let r := feed slcTriplet d (triplets p)
  (slcUpdate r.1, r.2)

def slcCheck (d : SpcData) : SpcData × List Triplet := feed (on (Spc.check vdisable)) d funcs

/-- `slc_export`, with the default characters of the terminal. -/
def slcExport (tty : Byte → Byte) (d : SpcData) : SpcData × List Triplet :=
  let r := feed (fun d i => on (Spc.export vdisable (tty i)) d i) d funcs
  (slcUpdate r.1, r.2)

/-- What `slc_end_reply` has put into `slc_reply` when it looks at the length. -/
def slcReply (l : List Triplet) : List Byte :=
  [IAC, SB, TELOPT_LINEMODE, LM_SLC] ++ l.flatMap Triplet.bytes ++ [IAC, SE]

/-- The size of `slc_reply`. -/
abbrev slcReplySize : ℕ := 128

/-- `slc_replyp` has not left the buffer. -/
def Within (l : List Triplet) : Prop := (slcReply l).length ≤ slcReplySize

end

/-! ### What is done with a triplet -/

variable (flag : Byte)

theorem lvl_and_levelbits :
    flag &&& (SLC_LEVELBITS ||| SLC_ACK) &&& SLC_LEVELBITS = level flag := by
  revert flag
  exact forall_byte (by decide +kernel)

theorem lvl_and_not_ack : flag &&& (SLC_LEVELBITS ||| SLC_ACK) &&& ~~~SLC_ACK = level flag := by
  revert flag
  exact forall_byte (by decide +kernel)

theorem lvl_eq_iff (f : Byte) :
    flag &&& (SLC_LEVELBITS ||| SLC_ACK) = level f ||| SLC_ACK ↔
      acks flag = true ∧ level flag = level f := by
  revert flag
  rcases level_cases f with h | h | h | h <;> rw [h] <;> exact forall_byte (by decide +kernel)

theorem update_acks {e : Spc} (h : acks e.flags = true) : e.update =
    { e with flags := e.flags &&& ~~~SLC_ACK, valp := e.valp.map fun _ => e.val } := if_pos h

theorem update_not_acks {e : Spc} (h : acks e.flags = false) : e.update = e :=
  if_neg (by rw [h]; exact Bool.false_ne_true)

/-- What `slc` puts for a level `SLC_DEFAULT`, which it refuses. -/
def Spc.refusal (e : Spc) : Byte :=
  if level e.mylevel = SLC_DEFAULT then SLC_NOSUPPORT else e.mylevel

/-- **The five things `slc` does with a triplet**: it says nothing new, acknowledges the level that
the entry has, is refused as a default, is accepted, or has a level that is not supported. -/
theorem slc_eq (e : Spc) (flag val : Byte) : e.slc flag val =
    if val = e.val ∧ level flag = level e.flags then (e, none)
    else if acks flag = true ∧ level flag = level e.flags then
      ({ e with
          val := val
          flags := if acks flag = true ∧ level flag = SLC_DEFAULT then flag &&& ~~~SLC_ACK
            else flag }, none)
    else if level flag = SLC_DEFAULT then
      let v := if level flag ≤ level e.mylevel then val else e.val
      ({ e with val := v, flags := e.refusal }, some (e.refusal, v))
    else if level flag ≤ level e.mylevel then
      ({ e with val := val, flags := flag ||| SLC_ACK }, some (flag ||| SLC_ACK, val))
    else (e, some (e.flags, e.val)) := by
  have hdef := lvl_eq_iff flag SLC_DEFAULT
  rw [show level SLC_DEFAULT = SLC_DEFAULT from rfl] at hdef
  unfold Spc.slc Spc.refusal
  dsimp only
  rw [lvl_and_levelbits, lvl_and_not_ack]
  simp only [lvl_eq_iff, hdef]
  by_cases hs : val = e.val ∧ level flag = level e.flags
  · rw [if_pos hs, if_pos hs]
  by_cases ha : acks flag = true ∧ level flag = level e.flags
  · rw [if_neg hs, if_neg hs, if_pos ha, if_pos ha]
  by_cases hd : level flag = SLC_DEFAULT
  · rw [if_pos hd, if_pos hd]
    split_ifs <;> rfl
  · have hd' : ¬ (acks flag = true ∧ level flag = SLC_DEFAULT) := fun h => hd h.2
    split_ifs <;> rfl

/-! ### What a payload demands -/

/-- The triplet says nothing new, or acknowledges the level of the entry. -/
def Spc.ignores (e : Spc) (flag val : Byte) : Bool :=
  level flag = level e.flags ∧ (val = e.val ∨ acks flag)

/-- The level and the value that answer any other triplet. -/
def Spc.answer (e : Spc) (flag val : Byte) : Byte × Byte :=
  if level flag = SLC_DEFAULT then (e.refusal, if level flag ≤ level e.mylevel then val else e.val)
  else if level flag ≤ level e.mylevel then (flag ||| SLC_ACK, val)
  else (e.flags, e.val)

/-- The bytes that answer a triplet: an unknown function is refused, and a known one is answered
unless the triplet says nothing new or acknowledges. -/
def asked (d : SpcData) (t : Triplet) : ℕ :=
  if t.func = 0 then 0
  else if t.func.toNat > NSLC then
    if level t.flag = SLC_NOSUPPORT then 0 else size t.func SLC_NOSUPPORT 0
  else if (d t.func).ignores t.flag t.val then 0
  else
    let a := (d t.func).answer t.flag t.val
    size t.func a.1 a.2

/-- The bytes that answer the triplets of a payload, from this table on. -/
def demand : SpcData → List Triplet → ℕ
  | _, [] => 0
  | d, t :: ts => asked d t + demand (slcTriplet d t).1 ts

theorem slc_answer (e : Spc) (flag val : Byte) :
    (e.slc flag val).2 = if e.ignores flag val then none else some (e.answer flag val) := by
  rw [slc_eq]
  by_cases hi : e.ignores flag val = true
  · rw [if_pos hi]
    obtain ⟨hlevel, h⟩ := of_decide_eq_true hi
    by_cases hval : val = e.val
    · rw [if_pos ⟨hval, hlevel⟩]
    · rw [if_neg fun h' => hval h'.1, if_pos ⟨h.resolve_left hval, hlevel⟩]
  · have hnew : ¬ (val = e.val ∧ level flag = level e.flags) :=
      fun h => hi (decide_eq_true ⟨h.2, .inl h.1⟩)
    have hack : ¬ (acks flag = true ∧ level flag = level e.flags) :=
      fun h => hi (decide_eq_true ⟨h.2, .inr h.1⟩)
    rw [if_neg hi, if_neg hnew, if_neg hack]
    unfold Spc.answer
    split_ifs <;> rfl

theorem bytes_slcTriplet (d : SpcData) (t : Triplet) :
    ((slcTriplet d t).2.flatMap Triplet.bytes).length = asked d t := by
  unfold slcTriplet asked
  split_ifs
  · rfl
  · rfl
  · simp [size]
  · rename_i hi
    unfold on
    rw [slc_answer, if_pos hi]
    rfl
  · rename_i hi
    unfold on
    rw [slc_answer, if_neg hi]
    simp [size]

theorem bytes_feed (ts : List Triplet) (d : SpcData) :
    ((feed slcTriplet d ts).2.flatMap Triplet.bytes).length = demand d ts := by
  induction ts generalizing d with
  | nil => rfl
  | cons t ts ih =>
    rw [feed_cons, demand, ← bytes_slcTriplet, ← ih]
    simp

/-- **`slc_replyp` stays in the buffer just if the bytes demanded are 122 at most.** -/
theorem slc_reply_within_iff (p : List Byte) (d : SpcData) :
    Within (slc p d).2 ↔ demand d (triplets p) ≤ 122 := by
  have hlen : (slcReply (slc p d).2).length = 4 + demand d (triplets p) + 2 := by
    rw [← bytes_feed]
    simp [slcReply, slc]; omega
  unfold Within
  rw [hlen]
  show _ ≤ 128 ↔ _
  omega

/-- The table after `slc_init`, where the terminal has no characters. -/
def bare : SpcData := fun _ => Spc.init none 0

/-- **41 triplets of an unknown function are refused in more bytes than the buffer has.** -/
theorem unknown_functions_overflow_reply :
    (List.replicate 41 [19, SLC_VARIABLE, 1]).flatten.length ≤ 252 ∧
    ¬ Within (slc (List.replicate 41 [19, SLC_VARIABLE, 1]).flatten bare).2 := by
  rw [slc_reply_within_iff]
  decide +kernel

end Inetutils.Telnet.Slc
