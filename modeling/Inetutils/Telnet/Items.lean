import Inetutils.Lib.Mealy
import Inetutils.Telnet.Proto
import Mathlib.Data.List.Flatten

/-! # The telnet stream as items

A telnet stream is a sequence of items: data bytes (an `IAC` is doubled), two-byte commands,
three-byte option commands, and suboptions `IAC SB … IAC SE` with `IAC` doubled inside. `receive` is
a receiver: it reads the stream byte by byte and gives the items; `parse` accepts the streams that
end with an item.

A stream is accepted as the items `its` just if it is their encoding (`parse_eq_some`): the encoding
is unambiguous, and only encodings are accepted. -/

namespace Inetutils.Telnet.Items

open Lib.Mealy Proto List

inductive Verb
  | WILL
  | WONT
  | DO
  | DONT
  deriving DecidableEq

def Verb.code : Verb → Byte
  | .WILL => Proto.WILL
  | .WONT => Proto.WONT
  | .DO => Proto.DO
  | .DONT => Proto.DONT

def verbOf (c : Byte) : Option Verb :=
  if c = WILL then some .WILL
  else if c = WONT then some .WONT
  else if c = DO then some .DO
  else if c = DONT then some .DONT
  else none

def isCommand (c : Byte) : Bool := c ≠ IAC ∧ c ≠ SB ∧ verbOf c = none

inductive Item
  | data (b : Byte)
  | command (c : Byte) (h : isCommand c = true)
  | option (v : Verb) (o : Byte)
  | sub (payload : List Byte)

/-- `IAC` is doubled. -/
def escape (l : List Byte) : List Byte := l.flatMap fun b => if b = IAC then [IAC, IAC] else [b]

def Item.encode : Item → List Byte
  | .data b => if b = IAC then [IAC, IAC] else [b]
  | .command c _ => [IAC, c]
  | .option v o => [IAC, v.code, o]
  | .sub p => IAC :: SB :: (escape p ++ [IAC, SE])

def encodeAll (its : List Item) : List Byte := its.flatMap Item.encode

@[simp] theorem encodeAll_nil : encodeAll [] = [] := rfl

@[simp] theorem encodeAll_cons (it : Item) (its : List Item) :
    encodeAll (it :: its) = it.encode ++ encodeAll its := rfl

@[simp] theorem encodeAll_append (its its' : List Item) :
    encodeAll (its ++ its') = encodeAll its ++ encodeAll its' := flatMap_append

theorem escape_append (l l' : List Byte) : escape (l ++ l') = escape l ++ escape l' :=
  flatMap_append

/-! ### The receiver -/

inductive Rx
  | text
  | iac
  | verb (v : Verb)
  | sub (payload : List Byte)
  | subIac (payload : List Byte)
  | bad

def receive : Rx → Byte → Rx × List Item
  | .text, b => if b = IAC then (.iac, []) else (.text, [.data b])
  | .iac, b =>
    if h : isCommand b = true then (.text, [.command b h])
    else if b = IAC then (.text, [.data IAC])
    else match verbOf b with
      | some v => (.verb v, [])
      | none => (.sub [], [])
  | .verb v, b => (.text, [.option v b])
  | .sub p, b => if b = IAC then (.subIac p, []) else (.sub (p ++ [b]), [])
  | .subIac p, b =>
    if b = IAC then (.sub (p ++ [IAC]), [])
    else if b = SE then (.text, [.sub p])
    else (.bad, [])
  | .bad, _ => (.bad, [])

/-- The items of a stream that ends with an item. -/
def parse (s : List Byte) : Option (List Item) :=
  match feed receive .text s with
  | (.text, its) => some its
  | _ => none

theorem verbOf_code (v : Verb) : verbOf v.code = some v := by cases v <;> rfl

theorem code_of_verbOf {c : Byte} {v : Verb} (h : verbOf c = some v) : v.code = c := by
  unfold verbOf at h
  split_ifs at h with h1 h2 h3 h4 <;> cases h
  · exact h1.symm
  · exact h2.symm
  · exact h3.symm
  · exact h4.symm

theorem not_isCommand_code (v : Verb) : isCommand v.code = false := by cases v <;> decide

theorem code_ne_IAC (v : Verb) : v.code ≠ IAC := by cases v <;> decide

theorem eq_SB {c : Byte} (h1 : ¬ isCommand c = true) (h2 : c ≠ IAC) (h3 : verbOf c = none) :
    c = SB := by
  simpa [isCommand, h2, h3] using h1

/-! ### What is sent is received -/

theorem feed_escape (p : List Byte) : ∀ q : List Byte,
    feed receive (.sub p) (escape q) = (.sub (p ++ q), [])
  | [] => by simp [escape]
  | b :: q => by
    have ih := feed_escape (p ++ [b]) q
    rw [show escape (b :: q) = escape [b] ++ escape q from escape_append [b] q, feed_append]
    have hb : feed receive (.sub p) (escape [b]) = (.sub (p ++ [b]), []) := by
      by_cases hb : b = IAC
      · subst hb; rfl
      · simp [escape, hb, feed_cons, receive]
    rw [hb]
    rw [ih, append_assoc]; rfl

theorem feed_encode (it : Item) : feed receive .text it.encode = (.text, [it]) := by
  cases it with
  | data b =>
    by_cases hb : b = IAC
    · subst hb; rfl
    · simp [Item.encode, hb, feed_cons, receive]
  | command c h => simp [Item.encode, feed_cons, receive, h]
  | option v o =>
    simp [Item.encode, feed_cons, receive, not_isCommand_code, code_ne_IAC, verbOf_code]
  | sub p =>
    have h : Item.encode (.sub p) = [IAC, SB] ++ (escape p ++ [IAC, SE]) := rfl
    rw [h, feed_append, show feed receive .text [IAC, SB] = (.sub [], []) from rfl]
    rw [feed_append, feed_escape, nil_append]
    rfl

theorem feed_encodeAll : ∀ its : List Item, feed receive .text (encodeAll its) = (.text, its)
  | [] => rfl
  | it :: its => by
    rw [encodeAll_cons, feed_append, feed_encode]
    rw [feed_encodeAll its]; rfl

/-! ### What is received was sent -/

def Rx.begun : Rx → List Byte
  | .text => []
  | .iac => [IAC]
  | .verb v => [IAC, v.code]
  | .sub p => IAC :: SB :: escape p
  | .subIac p => IAC :: SB :: (escape p ++ [IAC])
  | .bad => []

theorem receive_begun (st : Rx) (b : Byte) (h : (receive st b).1 ≠ .bad) :
    st.begun ++ [b] = encodeAll (receive st b).2 ++ (receive st b).1.begun := by
  cases st with
  | text =>
    simp only [receive]
    split_ifs with hb
    · subst hb; rfl
    · simp [Rx.begun, encodeAll, Item.encode, hb]
  | iac =>
    simp only [receive]
    split_ifs with hc hb
    · rfl
    · subst hb; rfl
    · split
      · rename_i v hv
        simp [Rx.begun, code_of_verbOf hv]
      · rename_i hv
        simp [Rx.begun, escape, eq_SB hc hb hv]
  | verb v => rfl
  | sub p =>
    simp only [receive]
    split_ifs with hb
    · subst hb; simp [Rx.begun]
    · simp [Rx.begun, escape, hb]
  | subIac p =>
    simp only [receive] at h ⊢
    split_ifs at h ⊢ with hb hs
    · subst hb; simp [Rx.begun, escape]
    · subst hs; simp [Rx.begun, encodeAll, Item.encode]
    · exact absurd rfl h
  | bad => exact absurd rfl h

theorem feed_bad : ∀ s : List Byte, feed receive .bad s = (.bad, [])
  | [] => rfl
  | b :: s => by rw [feed_cons]; simp [receive, feed_bad s]

theorem feed_begun : ∀ (s : List Byte) (st : Rx), (feed receive st s).1 ≠ .bad →
    st.begun ++ s = encodeAll (feed receive st s).2 ++ (feed receive st s).1.begun
  | [], st, _ => by simp
  | b :: s, st, h => by
    rw [feed_cons] at h ⊢
    have hst : (receive st b).1 ≠ .bad := by
      intro h0
      rw [h0, feed_bad] at h
      exact h rfl
    have ih := feed_begun s (receive st b).1 h
    rw [encodeAll_append, append_assoc, ← ih, ← append_assoc, ← receive_begun st b hst,
      append_assoc]
    rfl

/-- **A stream is accepted as the items it encodes, and as nothing else.** -/
theorem parse_eq_some {s : List Byte} {its : List Item} : parse s = some its ↔
    s = encodeAll its := by
  constructor
  · intro h
    have hf : feed receive .text s = (.text, its) := by
      unfold parse at h
      split at h
      · rename_i its' he
        rw [he, Option.some.inj h]
      · cases h
    have := feed_begun s .text (by rw [hf]; exact fun h0 => by cases h0)
    rw [hf] at this
    simpa [Rx.begun] using this
  · rintro rfl
    rw [parse, feed_encodeAll]

theorem encodeAll_injective {its its' : List Item} (h : encodeAll its = encodeAll its') :
    its = its' :=
  Option.some.inj ((parse_eq_some.mpr rfl).symm.trans (parse_eq_some.mpr h))

end Inetutils.Telnet.Items
