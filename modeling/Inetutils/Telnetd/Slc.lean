import Inetutils.Telnet.Triplets
import Mathlib.Algebra.BigOperators.Group.List.Basic
import Mathlib.Algebra.Order.Ring.Int

/-! # Special characters in the server

`telnetd/slc.c`. What is written to the terminal is left out; what it has for a character is where
`sptr` points (`Slcfun`), and is read again by `startSlc`. The value of a disabled character is a
parameter.

`slcbuf` has room for 6 bytes for each function of the table, which is enough for what `check_slc`
and `send_slc` put there. What `do_opt_slc` puts there has no bound but the length of the payload:
`demand` says how much it is, and `slcptr` stays in the buffer just if that is at most 102
(`slc_within_iff`, `unknown_functions_overflow`). -/

namespace Inetutils.Telnetd.Slc

open Telnet.Proto Telnet.Items Telnet.Triplets List

structure Slcent where
  flag : Byte
  val : Byte

/-- `slcfun`, with the character `sptr` points to, if it is not null. -/
structure Slcfun where
  defset : Slcent
  current : Slcent
  sptr : Option Byte

abbrev Slctab := Byte → Slcfun

/-- `slctab`, what is deferred, whether `terminit`, and what is in `slcbuf`: the triplets added, and
whether the suboption is ended. -/
structure SlcState where
  tab : Slctab
  defSlcbuf : Option (List Byte)
  terminit : Bool
  added : List Triplet
  ended : Bool

/-- `slcbuf` up to `slcptr`. -/
def SlcState.slcbuf (s : SlcState) : List Byte :=
  [IAC, SB, TELOPT_LINEMODE, LM_SLC] ++ s.added.flatMap Triplet.bytes ++ if s.ended then [IAC, SE]
    else []

def SlcState.slcptr (s : SlcState) : ℕ := s.slcbuf.length

/-! ### One function -/

section
variable (vdisable : Byte)

/-- `change_slc` for one function: the new entry, and the flag and value that are added. -/
def Slcfun.change (e : Slcfun) (flag val : Byte) : Slcfun × Byte × Byte :=
  let hislevel := level flag
  let mylevel := level e.defset.flag
  if hislevel = SLC_NOSUPPORT then ({ e with current := ⟨flag, vdisable⟩ }, flag ||| SLC_ACK, val)
  else if hislevel = SLC_DEFAULT then
    let c : Slcent := ⟨if mylevel = SLC_DEFAULT then SLC_NOSUPPORT else e.defset.flag, e.defset.val⟩
    ({ e with current := c }, c.flag, c.val)
  else match e.sptr with
    | some _ => ({ e with current := ⟨flag, val⟩, sptr := some val }, flag ||| SLC_ACK, val)
    | none =>
      if mylevel = SLC_DEFAULT then ({ e with current := ⟨flag, val⟩ }, flag ||| SLC_ACK, val)
      else if hislevel = SLC_CANTCHANGE ∧ mylevel = SLC_CANTCHANGE then
        let flag := flag &&& ~~~SLC_LEVELBITS ||| SLC_NOSUPPORT
        ({ e with current.flag := flag }, flag, val)
      else
        let flag := flag &&& ~~~SLC_LEVELBITS ||| mylevel
        if mylevel = SLC_CANTCHANGE then
          ({ e with current := ⟨flag, e.defset.val⟩ }, flag, e.defset.val)
        else ({ e with current.flag := flag }, flag, val)

/-- The tests of `process_slc`: what the entry has already, or an acknowledgement. -/
def Slcfun.ignores (e : Slcfun) (flag val : Byte) : Bool :=
  (level flag = level e.current.flag ∧ (val = e.current.val ∨ acks flag)) ∨ acks flag

/-- `process_slc` for a function in the table. -/
def Slcfun.process (e : Slcfun) (flag val : Byte) : Slcfun × Option (Byte × Byte) :=
  if e.ignores flag val then (e, none)
  else ((e.change vdisable flag val).1, some (e.change vdisable flag val).2)

/-- `check_slc` for one function. -/
def Slcfun.check (e : Slcfun) : Slcfun × Option (Byte × Byte) :=
  match e.sptr with
  | none => (e, none)
  | some c =>
    if c = e.current.val then (e, none)
    else
      let flag := if c = vdisable then SLC_NOSUPPORT else e.defset.flag
      ({ e with current := ⟨flag, c⟩ }, some (flag, c))

/-- `send_slc` for one function. -/
def Slcfun.send (e : Slcfun) : Slcfun × Option (Byte × Byte) :=
  (e, if level e.defset.flag = SLC_NOSUPPORT then none else some (e.current.flag, e.current.val))

/-- `default_slc` for one function. -/
def Slcfun.default (e : Slcfun) : Slcfun :=
  { e with
    current := ⟨if e.defset.val = vdisable then SLC_NOSUPPORT else e.defset.flag, e.defset.val⟩
    sptr := e.sptr.map fun _ => e.defset.val }

/-! ### The table -/

/-- What `f` does to the entry of the function `i`, and adds for it. -/
def SlcState.on (f : Slcfun → Slcfun × Option (Byte × Byte)) (s : SlcState) (i : Byte) : SlcState :=
  { s with
    tab := Function.update s.tab i (f (s.tab i)).1
    added := s.added ++ ((f (s.tab i)).2.map fun p => Triplet.mk i p.1 p.2).toList }

def SlcState.addSlc (s : SlcState) (t : Triplet) : SlcState := { s with added := s.added ++ [t] }

def sendSlc (s : SlcState) : SlcState := funcs.foldl (SlcState.on Slcfun.send) s

def checkSlc (s : SlcState) : SlcState := funcs.foldl (SlcState.on (Slcfun.check vdisable)) s

def defaultSlc (tab : Slctab) : Slctab :=
  fun i => if i ∈ funcs then (tab i).default vdisable else tab i

/-- `spcset` of `telnetd/term.c`, for a terminal that has all the characters but `VSTATUS`. -/
def spcset (tty : Byte → Byte) (func : Byte) : Slcent × Option Byte :=
  let setval (flag : Byte) : Slcent × Option Byte := (⟨flag, tty func⟩, some (tty func))
  if func = SLC_EOF ∨ func = SLC_EC ∨ func = SLC_EL ∨ func = SLC_XON ∨ func = SLC_XOFF ∨
    func = SLC_EW ∨
      func = SLC_RP ∨ func = SLC_LNEXT ∨ func = SLC_FORW1 ∨
      func = SLC_FORW2 then setval SLC_VARIABLE
  else if func = SLC_IP ∨ func = SLC_ABORT then
    setval (SLC_VARIABLE ||| SLC_FLUSHIN ||| SLC_FLUSHOUT)
  else if func = SLC_AO then setval (SLC_VARIABLE ||| SLC_FLUSHOUT)
  else if func = SLC_SUSP then setval (SLC_VARIABLE ||| SLC_FLUSHIN)
  else if func = SLC_AYT ∨ func = SLC_BRK ∨ func = SLC_SYNCH ∨ func = SLC_EOR then
    (⟨SLC_DEFAULT, 0⟩, none)
  else (⟨SLC_NOSUPPORT, 0⟩, none)

/-- `get_slc_defaults`, with what `spcset` says of each function. -/
def getSlcDefaults (spcset : Byte → Slcent × Option Byte) : Slctab :=
  fun i => ⟨(spcset i).1, ⟨SLC_NOSUPPORT, 0⟩, (spcset i).2⟩

/-- `start_slc`; with `getit`, the characters of the terminal are read again. -/
def startSlc (getit : Option (Byte → Byte)) (s : SlcState) : SlcState :=
  { s with
    tab := match getit with
      | none => s.tab
      | some tty => fun i => { s.tab i with sptr := (s.tab i).sptr.map fun _ => tty i }
    added := []
    ended := false }

/-- `end_slc`; with `bufp` the caller sends the triplets. -/
def endSlc (bufp : Bool) (s : SlcState) : SlcState :=
  if s.defSlcbuf.isSome ∧ !s.terminit then s
  else if s.added ≠ [] ∧ !bufp then { s with ended := true }
  else s

def processSlc (s : SlcState) (t : Triplet) : SlcState :=
  if t.func.toNat > NSLC then s.addSlc ⟨t.func, SLC_NOSUPPORT, 0⟩
  else if t.func = 0 then
    if level t.flag = SLC_DEFAULT then sendSlc { s with tab := defaultSlc vdisable s.tab }
    else if level t.flag = SLC_VARIABLE then sendSlc s
    else s
  else s.on (fun e => e.process vdisable t.flag t.val) t.func

def doOptSlc (p : List Byte) (s : SlcState) : SlcState :=
  if s.terminit then (triplets p).foldl (processSlc vdisable) s
  else if s.defSlcbuf = none then { s with defSlcbuf := some p }
  else s

def optSlc (tty : Byte → Byte) (p : List Byte) (s : SlcState) : SlcState :=
  endSlc false (doOptSlc vdisable p (startSlc (some tty) s))

def deferslc (tty : Byte → Byte) (s : SlcState) : SlcState :=
  match s.defSlcbuf with
  | none => s
  | some p => { optSlc vdisable tty p s with defSlcbuf := none }

/-! ### What a payload demands -/

def tableSize (tab : Slctab) : ℕ :=
  (funcs.map fun i =>
    if level (tab i).defset.flag = SLC_NOSUPPORT then 0
    else size i (tab i).current.flag (tab i).current.val).sum

/-- The bytes that answer a triplet: an unknown function is refused, for the function 0 the whole
table is sent, and a known one is answered unless it says nothing new. -/
def asked (tab : Slctab) (t : Triplet) : ℕ :=
  if t.func.toNat > NSLC then size t.func SLC_NOSUPPORT 0
  else if t.func = 0 then
    if level t.flag = SLC_DEFAULT then tableSize (defaultSlc vdisable tab)
    else if level t.flag = SLC_VARIABLE then tableSize tab
    else 0
  else if (tab t.func).ignores t.flag t.val then 0
  else
    let a := ((tab t.func).change vdisable t.flag t.val).2
    size t.func a.1 a.2

def after (tab : Slctab) (t : Triplet) : Slctab :=
  if t.func.toNat > NSLC then tab
  else if t.func = 0 then if level t.flag = SLC_DEFAULT then defaultSlc vdisable tab else tab
  else Function.update tab t.func ((tab t.func).process vdisable t.flag t.val).1

/-- The bytes that answer the triplets of a payload, from this table on. -/
def demand : Slctab → List Triplet → ℕ
  | _, [] => 0
  | tab, t :: ts => asked vdisable tab t + demand (after vdisable tab t) ts

end

/-! ### Where `slcptr` goes -/

def SlcState.bytes (s : SlcState) : ℕ := (s.added.flatMap Triplet.bytes).length

/-- `slcptr` has not left the buffer. -/
def SlcState.Within (s : SlcState) : Prop := s.slcptr ≤ NSLC * 6

structure Same (s s' : SlcState) : Prop where
  defSlcbuf : s'.defSlcbuf = s.defSlcbuf
  terminit : s'.terminit = s.terminit
  ended : s'.ended = s.ended

theorem Same.refl (s : SlcState) : Same s s := ⟨rfl, rfl, rfl⟩

theorem Same.trans {s s' s'' : SlcState} (h : Same s s') (h' : Same s' s'') : Same s s'' :=
  ⟨h'.defSlcbuf.trans h.defSlcbuf, h'.terminit.trans h.terminit, h'.ended.trans h.ended⟩

theorem slcptr_eq (s : SlcState) : s.slcptr = 4 + s.bytes + if s.ended then 2 else 0 := by
  unfold SlcState.slcptr SlcState.slcbuf SlcState.bytes
  split_ifs <;> simp only [length_append, length_cons, length_nil]

theorem bytes_pos {s : SlcState} : 0 < s.bytes ↔ s.added ≠ [] := by
  unfold SlcState.bytes
  rcases s.added with _ | ⟨t, ts⟩
  · simp
  · simp only [flatMap_cons, length_append, length_bytes]
    exact iff_of_true (by omega) (cons_ne_nil _ _)

theorem bytes_append (s : SlcState) (l : List Triplet) :
    SlcState.bytes { s with added := s.added ++ l } =
    s.bytes + (l.flatMap Triplet.bytes).length := by
  simp [SlcState.bytes, flatMap_append]

section
variable {vdisable : Byte} {s : SlcState}

variable (f : Slcfun → Slcfun × Option (Byte × Byte))

theorem same_on (i : Byte) : Same s (s.on f i) :=
  ⟨rfl, rfl, rfl⟩

theorem bytes_on (i : Byte) :
    (s.on f i).bytes = s.bytes + ((f (s.tab i)).2.elim 0 fun p => size i p.1 p.2) := by
  refine (bytes_append s _).trans ?_
  rcases (f (s.tab i)).2 with _ | p
  · rfl
  · simp [size]

theorem bytes_foldl_on {l : List Byte} (hl : ∀ i ∈ l, i ∈ funcs) :
    Same s (l.foldl (SlcState.on f) s) ∧
      (l.foldl (SlcState.on f) s).bytes ≤ s.bytes + 5 * l.length := by
  induction l generalizing s with
  | nil => exact ⟨.refl s, le_rfl⟩
  | cons i l ih =>
    obtain ⟨h1, h2⟩ := ih (s := s.on f i) fun j hj => hl j (mem_cons_of_mem _ hj)
    refine ⟨(same_on f i).trans h1, h2.trans ?_⟩
    have hi : ((f (s.tab i)).2.elim 0 fun p => size i p.1 p.2) ≤ 5 := by
      rcases (f (s.tab i)).2 with _ | p
      · exact Nat.zero_le _
      · exact size_le (hl i mem_cons_self)
    rw [bytes_on, length_cons]
    omega

theorem sendSlc_spec : Same s (sendSlc s) ∧ (sendSlc s).tab = s.tab ∧
    (sendSlc s).bytes = s.bytes + tableSize s.tab := by
  unfold sendSlc tableSize
  induction funcs generalizing s with
  | nil => exact ⟨.refl s, rfl, rfl⟩
  | cons i l ih =>
    obtain ⟨h1, h2, h3⟩ := ih (s := s.on Slcfun.send i)
    have htab : (s.on Slcfun.send i).tab = s.tab := Function.update_eq_self ..
    refine ⟨(same_on _ i).trans h1, h2.trans htab, h3.trans ?_⟩
    rw [htab, bytes_on, map_cons, sum_cons, Slcfun.send]
    split_ifs <;> simp [add_assoc]

theorem processSlc_spec (vdisable : Byte) (s : SlcState) (t : Triplet) :
    Same s (processSlc vdisable s t) ∧ (processSlc vdisable s t).tab = after vdisable s.tab t ∧
    (processSlc vdisable s t).bytes = s.bytes + asked vdisable s.tab t := by
  unfold processSlc after asked
  by_cases hbig : t.func.toNat > NSLC
  · rw [if_pos hbig, if_pos hbig, if_pos hbig]
    refine ⟨⟨rfl, rfl, rfl⟩, rfl, (bytes_append s _).trans ?_⟩
    simp [size]
  rw [if_neg hbig, if_neg hbig, if_neg hbig]
  by_cases h0 : t.func = 0
  · rw [if_pos h0, if_pos h0, if_pos h0]
    split_ifs
    · obtain ⟨⟨h1, h2, h3⟩, htab, hb⟩ :=
        sendSlc_spec (s := { s with tab := defaultSlc vdisable s.tab })
      exact ⟨⟨h1, h2, h3⟩, htab, hb⟩
    · exact sendSlc_spec
    · exact ⟨.refl s, rfl, rfl⟩
  rw [if_neg h0, if_neg h0, if_neg h0]
  refine ⟨same_on _ _, rfl, (bytes_on _ _).trans ?_⟩
  unfold Slcfun.process
  split_ifs <;> rfl

theorem processSlcs_spec (vdisable : Byte) (s : SlcState) (ts : List Triplet) :
    Same s (ts.foldl (processSlc vdisable) s) ∧
    (ts.foldl (processSlc vdisable) s).bytes = s.bytes + demand vdisable s.tab ts := by
  induction ts generalizing s with
  | nil => exact ⟨.refl s, rfl⟩
  | cons t ts ih =>
    obtain ⟨h1, htab, h2⟩ := processSlc_spec vdisable s t
    obtain ⟨h3, h4⟩ := ih (s := processSlc vdisable s t)
    refine ⟨h1.trans h3, h4.trans ?_⟩
    rw [htab, h2, demand, add_assoc]

theorem slcptr_endSlc (h : s.ended = false) (bufp : Bool) :
    (endSlc bufp s).slcptr ≤ 4 + s.bytes + 2 := by
  unfold endSlc
  split_ifs
  · rw [slcptr_eq, h]; simp
  · exact (slcptr_eq _).le
  · rw [slcptr_eq, h]; simp

theorem slcptr_endSlc_of_terminit (h : s.ended = false) (ht : s.terminit = true) :
    (endSlc false s).slcptr = 4 + s.bytes + if s.bytes = 0 then 0 else 2 := by
  have hpos := bytes_pos (s := s)
  unfold endSlc
  rw [if_neg (by simp [ht])]
  by_cases hb : s.bytes = 0
  · rw [if_neg (by simp [← hpos, hb]), slcptr_eq, h, if_pos hb]; rfl
  · rw [if_pos ⟨hpos.mp (by omega), rfl⟩, if_neg hb]
    exact slcptr_eq _

/-- For what a payload has the server answer, `slcptr` stays in the buffer just if the bytes
demanded are 102 at most; before the terminal is initialized nothing is answered. -/
theorem optSlc_within_iff (tty : Byte → Byte) (p : List Byte) (s : SlcState) :
    (optSlc vdisable tty p s).Within ↔
      (s.terminit = true → demand vdisable (startSlc (some tty) s).tab (triplets p) ≤ 102) := by
  show _ ≤ 108 ↔ _
  unfold optSlc doOptSlc
  by_cases ht : s.terminit = true
  · have hterm : (startSlc (some tty) s).terminit = true := ht
    obtain ⟨hsame, hbytes⟩ :=
      processSlcs_spec vdisable (startSlc (some tty) s) (triplets p)
    have hzero : (startSlc (some tty) s).bytes = 0 := rfl
    rw [if_pos hterm, slcptr_endSlc_of_terminit hsame.ended (hsame.terminit.trans hterm),
      hbytes, hzero]
    simp only [ht, forall_const]
    split_ifs <;> omega
  · rw [if_neg (show ¬ (startSlc (some tty) s).terminit = true from ht)]
    refine iff_of_true ((slcptr_endSlc ?_ false).trans ?_) fun h => absurd h ht
    · split_ifs <;> rfl
    · split_ifs <;> exact (show 4 + 0 + 2 ≤ 108 by decide)

theorem within_foldl_on (getit : Option (Byte → Byte)) (bufp : Bool) (s : SlcState) :
    (endSlc bufp (funcs.foldl (SlcState.on f) (startSlc getit s))).Within := by
  obtain ⟨hsame, hbytes⟩ := bytes_foldl_on (s := startSlc getit s) f fun i hi => hi
  have hzero : (startSlc getit s).bytes = 0 := rfl
  have hlen : funcs.length = 18 := rfl
  have hend := slcptr_endSlc hsame.ended bufp
  show _ ≤ 108
  omega

/-- **`slcptr` stays in the buffer** for `check_slc` and `send_slc`, in every state; for a payload,
received now or deferred, just if the bytes demanded are 102 at most. -/
theorem slc_within_iff (vdisable : Byte) (tty : Byte → Byte) (s : SlcState) :
    (endSlc false (checkSlc vdisable (startSlc none s))).Within ∧
      (endSlc true (sendSlc (startSlc none s))).Within ∧
      (∀ p, (optSlc vdisable tty p s).Within ↔
        (s.terminit = true → demand vdisable (startSlc (some tty) s).tab (triplets p) ≤ 102)) ∧
      ∀ p, (deferslc vdisable tty { s with defSlcbuf := some p }).Within ↔
        (s.terminit = true → demand vdisable (startSlc (some tty) s).tab (triplets p) ≤ 102) := by
  refine ⟨within_foldl_on _ none false s, within_foldl_on _ none true s,
    fun p => optSlc_within_iff tty p s, ?_⟩
  intro p
  exact optSlc_within_iff tty p { s with defSlcbuf := some p }

def initialized : SlcState := ⟨getSlcDefaults (spcset fun _ => 3), none, true, [], false⟩

/-- **35 triplets of an unknown function are refused in more bytes than the buffer has.** -/
theorem unknown_functions_overflow :
    ¬ (optSlc 0 (fun _ => 3)
      (List.replicate 35 [19, SLC_VARIABLE, 1]).flatten initialized).Within := by
  rw [optSlc_within_iff]
  decide +kernel

end

end Inetutils.Telnetd.Slc
