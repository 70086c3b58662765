import Inetutils.Telnet.Items

/-! # Triplets of special characters

The `LM_SLC` suboption of `LINEMODE` is a list of triplets: a function, flags with a level of
support, and the character. The codes are those of `<arpa/telnet.h>`. In a buffer every byte of a
triplet that is `0xff` is doubled. -/

namespace Inetutils.Telnet.Triplets

open Proto Items

/-- The functions are numbered from 1 to `NSLC`. -/
abbrev NSLC : ℕ := 18

abbrev SLC_NOSUPPORT : Byte := 0
abbrev SLC_CANTCHANGE : Byte := 1
abbrev SLC_VARIABLE : Byte := 2
abbrev SLC_DEFAULT : Byte := 3
abbrev SLC_LEVELBITS : Byte := 3
abbrev SLC_ACK : Byte := 128

abbrev SLC_FLUSHIN : Byte := 64
abbrev SLC_FLUSHOUT : Byte := 32

abbrev SLC_SYNCH : Byte := 1
abbrev SLC_BRK : Byte := 2
abbrev SLC_IP : Byte := 3
abbrev SLC_AO : Byte := 4
abbrev SLC_AYT : Byte := 5
abbrev SLC_EOR : Byte := 6
abbrev SLC_ABORT : Byte := 7
abbrev SLC_EOF : Byte := 8
abbrev SLC_SUSP : Byte := 9
abbrev SLC_EC : Byte := 10
abbrev SLC_EL : Byte := 11
abbrev SLC_EW : Byte := 12
abbrev SLC_RP : Byte := 13
abbrev SLC_LNEXT : Byte := 14
abbrev SLC_XON : Byte := 15
abbrev SLC_XOFF : Byte := 16
abbrev SLC_FORW1 : Byte := 17
abbrev SLC_FORW2 : Byte := 18

/-- `flag & SLC_LEVELBITS`. -/
def level (flag : Byte) : Byte := flag &&& SLC_LEVELBITS

/-- `flag & SLC_ACK`. -/
def acks (flag : Byte) : Bool := flag &&& SLC_ACK ≠ 0

structure Triplet where
  func : Byte
  flag : Byte
  val : Byte
  deriving DecidableEq

def Triplet.bytes (t : Triplet) : List Byte := escape [t.func, t.flag, t.val]

/-- The triplets of a payload. What is left at the end is not looked at. -/
def triplets : List Byte → List Triplet
  | f :: g :: v :: l => ⟨f, g, v⟩ :: triplets l
  | _ => []

def funcs : List Byte := (List.range' 1 NSLC).map Nat.toUInt8

theorem forall_byte {p : Byte → Prop} (h : ∀ n : Fin 256, p n.val.toUInt8) (b : Byte) : p b := by
  have hb := h ⟨b.toNat, b.toNat_lt⟩
  rwa [show b.toNat.toUInt8 = b from UInt8.ofNat_toNat] at hb

theorem mem_funcs : ∀ f : Byte, f ∈ funcs ↔ f ≠ 0 ∧ f.toNat ≤ NSLC :=
  forall_byte (by decide +kernel)

/-! ### Levels and acknowledgements -/

theorem or_ack : ∀ f : Byte, level (f ||| SLC_ACK) = level f ∧ acks (f ||| SLC_ACK) = true :=
  forall_byte (by decide +kernel)

variable (f : Byte)

@[simp] theorem level_or_ack : level (f ||| SLC_ACK) = level f := (or_ack f).1

@[simp] theorem acks_or_ack : acks (f ||| SLC_ACK) = true := (or_ack f).2

@[simp] theorem level_and_not_ack : level (f &&& ~~~SLC_ACK) = level f := by
  rw [level, UInt8.and_assoc]
  rfl

@[simp] theorem acks_and_not_ack : acks (f &&& ~~~SLC_ACK) = false := by
  rw [acks, UInt8.and_assoc]
  exact decide_eq_false (not_not.2 UInt8.and_zero)

theorem level_cases : ∀ f : Byte, level f = SLC_NOSUPPORT ∨ level f = SLC_CANTCHANGE ∨
    level f = SLC_VARIABLE ∨ level f = SLC_DEFAULT :=
  forall_byte (by decide +kernel)

theorem level_le_default : level f ≤ SLC_DEFAULT := by
  rcases level_cases f with h | h | h | h <;> rw [h] <;> decide

theorem level_replace (g : Byte) : level (f &&& ~~~SLC_LEVELBITS ||| level g) = level g := by
  revert f
  rcases level_cases g with h | h | h | h <;> rw [h] <;> exact forall_byte (by decide +kernel)

/-! ### Sizes -/

theorem length_escape (l : List Byte) : (escape l).length = l.length + l.count IAC := by
  induction l with
  | nil => rfl
  | cons b l ih =>
    rw [show escape (b :: l) = escape [b] ++ escape l from escape_append [b] l,
      List.length_append, ih, List.count_cons, List.length_cons]
    by_cases hb : b = IAC
    · subst hb
      show 2 + _ = _
      simp; omega
    · simp [escape, hb]; omega

theorem length_bytes (t : Triplet) : t.bytes.length = 3 + [t.func, t.flag, t.val].count IAC :=
  length_escape _

def size (func flag val : Byte) : ℕ := (Triplet.mk func flag val).bytes.length

theorem size_le {i flag val : Byte} (hi : i ∈ funcs) : size i flag val ≤ 5 := by
  have hne : i ≠ IAC := by
    rintro rfl
    exact absurd hi (by decide)
  have hc : [flag, val].count IAC ≤ 2 := List.count_le_length
  rw [size, length_bytes, List.count_cons_of_ne hne]
  show 3 + [flag, val].count IAC ≤ 5
  omega

end Inetutils.Telnet.Triplets
