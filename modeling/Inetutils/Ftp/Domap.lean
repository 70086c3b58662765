import Inetutils.Lib.Cells
import Mathlib.Data.List.TakeDrop
import Mathlib.Tactic.Cases

/-! # The names that ftp maps

`domap` of `src/ftp/cmds.c`, with its buffer: `mapin` is matched with the name, character by
character, and then `mapout` is copied into the buffer. A loop that comes round to where it was goes
on for ever; a write outside of the buffer, or to a block that has been moved, and a place outside
of the arrays, are not defined. The parameter `moves` says of each size whether `realloc` moves the
block when it makes it that long. -/

namespace Inetutils.Ftp.Domap

open Lib.Cells List

abbrev Byte := UInt8

abbrev Text := List Byte

abbrev Str := { l : Text // (0 : Byte) ∉ l }

def isdigit (c : Byte) : Bool := 48 ≤ c && c ≤ 57

/-! ### The match -/

/-- What a place of `mapin` is: a character that is compared, the end behind a backslash, or a
variable. -/
inductive Token
  | char (c : Byte)
  | ended
  | var (c : Byte)
  deriving DecidableEq

/-- The `switch` on `*cp2`, and what is behind. `*cp2 + 1` is the character after the dollar, and is
not above `9`; characters are signed. -/
def token : Text → Token × Text
  | [] => (.ended, [])
  | c :: cp2 =>
    if c = 92 then
      match cp2 with
      | [] => (.ended, [])
      | d :: cp2 => (.char d, cp2)
    else if c = 36 then
      match cp2 with
      | [] => (.char c, [])
      | d :: rest => if 49 ≤ d ∧ d < 128 then (.var d, rest) else (.char c, cp2)
    else (.char c, cp2)

/-- `toks`, `tp` and `te`: what is between the pointers, where the count is not zero. -/
abbrev Toks := ℕ → Option Text

abbrev tokens : ℕ := 9

/-- What a variable takes, where `rest` is behind it in `mapin`. -/
def run (rest cp1 : Text) : Text := cp1.takeWhile (some · ≠ rest.head?)

def afterRun (rest cp1 : Text) : Text := (cp1.dropWhile (some · ≠ rest.head?)).tail

theorem length_afterRun (rest : Text) (c : Byte) (cp1 : Text) :
    (afterRun rest (c :: cp1)).length < (c :: cp1).length := by
  have hle := (dropWhile_suffix (some · ≠ rest.head?) (l := c :: cp1)).length_le
  unfold afterRun
  rw [length_tail]
  rw [length_cons] at hle ⊢
  omega

/-- The loop that matches; `toknum` is the last token, which a mismatch takes back. -/
def matchLoop (cp1 cp2 : Text) (toks : Toks) (toknum : ℕ) : Option Toks :=
  match cp1 with
  | [] => some toks
  | c :: cp1 =>
    if cp2 = [] then some toks
    else
      match token cp2 with
      | (.char d, rest) =>
        if d = c then matchLoop cp1 rest toks toknum else some (Function.update toks toknum none)
      | (.ended, _) => some (Function.update toks toknum none)
      | (.var d, rest) =>
        if rest.head? = some c then matchLoop (afterRun rest (c :: cp1)) rest.tail toks toknum
        else if tokens ≤ d.toNat - 49 then none
        else
          matchLoop (afterRun rest (c :: cp1)) rest.tail
            (Function.update toks (d.toNat - 49) (some (run rest (c :: cp1)))) (d.toNat - 49)
termination_by cp1.length
decreasing_by
  · exact Nat.lt_succ_self _
  · exact length_afterRun rest c cp1
  · exact length_afterRun rest c cp1

/-! ### The buffer -/

/-- The buffer, and where `cp1` is in it. -/
structure Out where
  buf : Block Byte
  pos : ℕ

def puts (s : Text) (o : Out) : Option Out := (fill o.buf o.pos s).map fun b =>
    ⟨b, o.pos + s.length⟩

section

variable (moves : ℕ → Bool)

/-- What `cp_subst` copies; a buffer that is moved is written to where it was. -/
def subst (src : Text) (o : Out) : Option Out :=
  if 2 < src.length then
    if moves (o.buf.length + (src.length - 2)) then none
    else puts src { o with buf := realloc o.buf (o.buf.length + (src.length - 2)) }
  else puts src o

variable (toks : Toks) (name : Text)

/-- What a variable stands for; none when it has not been matched. -/
def source (d : Byte) : Option Text := if d = 48 then some name else toks (d.toNat - 49)

/-- `cp_subst`, with its result. -/
def cpSubst (d : Byte) (o : Out) : Option (Bool × Out) :=
  match source toks name d with
  | none => some (false, o)
  | some src => (subst moves src o).map fun o => (true, o)

inductive Closed
  | forever
  | undefined
  | unbalanced
  | closed (cp2 : Text) (o : Out)

def skip (o : Out) : Text → Closed
  | [] => .unbalanced
  | c :: cp2 =>
    if c = 93 then .closed cp2 o
    else if c = 92 then
      match cp2 with
      | [] => .unbalanced
      | _ :: cp2 => skip o cp2
    else skip o cp2

theorem skip_of_ne {c : Byte} (h93 : c ≠ 93) (h92 : c ≠ 92) (o : Out) (t : Text) :
    skip o (c :: t) = skip o t := by
  rw [skip.eq_def]
  dsimp only
  rw [if_neg h93, if_neg h92]

/-- `while (*cp2 && *cp2 != ',' && *cp2 != ']')`; a character that is none of those that move `cp2`
stays where it is. -/
def literal (o : Out) : Text → Closed
  | [] => .unbalanced
  | c :: cp2 =>
    if c = 44 ∨ c = 93 then skip o (c :: cp2)
    else if c = 92 then literal o cp2
    else if c = 36 ∧ (cp2.head?.any isdigit) then
      match cp2 with
      | [] => .forever
      | d :: rest =>
        match cpSubst moves toks name d o with
        | none => .undefined
        | some (true, o) => literal o (d :: rest)
        | some (false, o) =>
          match puts [d] o with
          | none => .undefined
          | some o => literal o rest
    else .forever

/-- From `LOOP` on. -/
def alternatives (o : Out) : Text → Closed
  | [] => literal moves toks name o []
  | [c] => literal moves toks name o [c]
  | c :: d :: cp2 =>
    if c = 36 ∧ isdigit d then
      match cpSubst moves toks name d o with
      | none => .undefined
      | some (_, o) =>
        match cp2 with
        | [] => alternatives o []
        | e :: rest =>
          if e = 44 then alternatives o rest
          else if e = 93 then .closed rest o
          else alternatives o (e :: rest)
    else literal moves toks name o (c :: d :: cp2)

theorem skip_length {o o' : Out} {l cp2 : Text} (h : skip o l = .closed cp2 o') :
    cp2.length < l.length := by
  fun_induction skip o l with
  | case1 => cases h
  | case2 l =>
    cases h
    exact Nat.lt_succ_self _
  | case3 => cases h
  | case4 d l hc ih => exact Nat.lt_trans (ih h) (Nat.lt_add_of_pos_right Nat.two_pos)
  | case5 c l hc hc' ih => exact Nat.lt_trans (ih h) (Nat.lt_succ_self _)

theorem literal_length {o o' : Out} {l cp2 : Text}
    (h : literal moves toks name o l = .closed cp2 o') :
    cp2.length < l.length := by
  fun_induction literal moves toks name o l with
  | case2 o c l hc => exact skip_length h
  | case3 o l hc ih => exact Nat.lt_trans (ih h) (Nat.lt_succ_self _)
  | case6 =>
    rename_i ih
    exact Nat.lt_trans (ih h) (Nat.lt_succ_self _)
  | case8 =>
    rename_i ih
    exact Nat.lt_trans (ih h) (Nat.lt_add_of_pos_right Nat.two_pos)
  | _ => cases h

theorem alternatives_length {o o' : Out} {l cp2 : Text}
    (h : alternatives moves toks name o l = .closed cp2 o') :
    cp2.length < l.length := by
  fun_induction alternatives moves toks name o l with
  | case1 => exact literal_length moves toks name h
  | case2 => exact literal_length moves toks name h
  | case3 => cases h
  | case4 =>
    rename_i ih
    exact absurd (ih h) (Nat.not_lt_zero _)
  | case5 =>
    rename_i ih
    have hlt := ih h
    simp only [length_cons]
    omega
  | case6 =>
    cases h
    simp only [length_cons]
    omega
  | case7 =>
    rename_i ih
    have hlt := ih h
    simp only [length_cons] at hlt ⊢
    omega
  | case8 => exact literal_length moves toks name h

/-- How the copying of `mapout` ends. -/
inductive Copied
  | forever
  | undefined
  | unbalanced
  | copied (o : Out)

/-- `while (*cp2)` -/
def copyLoop (mapout : Text) (o : Out) : Copied :=
  match mapout with
  | [] => .copied o
  | c :: cp2 =>
    if c = 92 then
      match cp2 with
      | [] => .copied o
      | d :: cp2 =>
        match puts [d] o with
        | none => .undefined
        | some o => copyLoop cp2 o
    else if c = 91 then
      match _ : alternatives moves toks name o cp2 with
      | .forever => .forever
      | .undefined => .undefined
      | .unbalanced => .unbalanced
      | .closed rest o => copyLoop rest o
    else if c = 36 ∧ (cp2.head?.any isdigit) then
      match cp2 with
      | [] => .copied o
      | d :: cp2 =>
        match cpSubst moves toks name d o with
        | none => .undefined
        | some (_, o) => copyLoop cp2 o
    else
      match puts [c] o with
      | none => .undefined
      | some o => copyLoop cp2 o
termination_by mapout.length
decreasing_by
  · exact Nat.lt_add_of_pos_right Nat.two_pos
  · exact Nat.lt_trans (alternatives_length moves toks name ‹_›) (Nat.lt_succ_self _)
  · exact Nat.lt_add_of_pos_right Nat.two_pos
  · exact Nat.lt_succ_self _

end

/-- What `domap` comes to: it goes on for ever, does what is not defined, returns its argument, or a
new block. -/
inductive Mapped
  | forever
  | undefined
  | argument
  | block (b : Block Byte)
  deriving DecidableEq

/-- `*cp1 = 0`, and `strcpy (buf, name)` where there is nothing in the buffer. -/
def finish (name : Text) (o : Out) : Mapped :=
  match write o.buf o.pos 0 with
  | none => .undefined
  | some b =>
    if fetch b 0 = some 0 then
      match fill b 0 (name ++ [0]) with
      | none => .undefined
      | some b => .block b
    else .block b

/-- **`domap`** -/
def domap (moves : ℕ → Bool) (mapin mapout name : Text) : Mapped :=
  match matchLoop name mapin (fun _ => none) 0 with
  | none => .undefined
  | some toks =>
    match copyLoop moves toks name mapout ⟨(alloc (name.length + 1)).set 0 (some 0), 0⟩ with
    | .forever => .forever
    | .undefined => .undefined
    | .unbalanced => .argument
    | .copied o => finish name o

end Inetutils.Ftp.Domap
