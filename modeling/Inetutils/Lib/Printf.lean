import Inetutils.Lib.Decimal

/-! # Integer conversions of `printf`

A format that is one conversion: `%`, flags, a width, `h` or `l` or neither, and one of `d`, `i`,
`u`, `o`, `x` and `X`. `#` is not defined for decimal numbers, and the width is an `int`. -/

namespace Inetutils.Lib.Printf

open List
open Decimal (isDigit value)

variable {l : List UInt8}

inductive Base
  | dec
  | oct
  | hex
  | upperHex
  deriving DecidableEq

inductive Length
  | short
  | int
  | long
  deriving DecidableEq

def Length.bits : Length → ℕ
  | short => 16
  | int => 32
  | long => 64

/-- The type that is passed: a `short` is an `int` by then. -/
def Length.promoted : Length → Length
  | short => int
  | n => n

structure Directive where
  alternate : Bool
  width : ℕ
  length : Length
  signed : Bool
  base : Base

structure Head where
  flags : List UInt8
  width : List UInt8
  rest : List UInt8

/-- `#`, `0`, `-`, `+` and the blank. -/
def isFlag (c : UInt8) : Bool := c ∈ [35, 48, 45, 43, 32]

def head (l : List UInt8) : Head where
  flags := l.takeWhile isFlag
  width := (l.dropWhile isFlag).takeWhile isDigit
  rest := (l.dropWhile isFlag).dropWhile isDigit

def modifier : List UInt8 → Length × List UInt8
  | 104 :: l => (.short, l)
  | 108 :: l => (.long, l)
  | l => (.int, l)

/-- Whether a conversion takes a signed number, and its base. -/
def conversion : List UInt8 → Option (Bool × Base)
  | [100] => some (true, .dec)
  | [105] => some (true, .dec)
  | [117] => some (false, .dec)
  | [111] => some (false, .oct)
  | [120] => some (false, .hex)
  | [88] => some (false, .upperHex)
  | _ => none

def Head.directive (h : Head) : Option Directive :=
  (conversion (modifier h.rest).2).bind fun c =>
    if 35 ∈ h.flags ∧ c.2 = .dec ∨ 2 ^ 31 ≤ value 0 h.width then none
    else some ⟨35 ∈ h.flags, value 0 h.width, (modifier h.rest).1, c.1, c.2⟩

def directive : List UInt8 → Option Directive
  | 37 :: l => (head l).directive
  | _ => none

def number (length : Length) (signed : Bool) (v : ℤ) : ℤ :=
  if signed then (v + 2 ^ (length.bits - 1)) % 2 ^ length.bits - 2 ^ (length.bits - 1)
  else v % 2 ^ length.bits

def Fits (length : Length) (signed : Bool) (v : ℤ) : Prop :=
  if signed then -2 ^ (length.bits - 1) ≤ v ∧ v < 2 ^ (length.bits - 1)
  else 0 ≤ v ∧ v < 2 ^ length.bits

instance (length : Length) (signed : Bool) (v : ℤ) : Decidable (Fits length signed v) := by
  unfold Fits
  infer_instance

theorem head_append (l : List UInt8) : (head l).flags ++ ((head l).width ++ (head l).rest) = l := by
  unfold head
  rw [takeWhile_append_dropWhile, takeWhile_append_dropWhile]

variable {α : Type*} {c : UInt8} {p : α → Bool} {a : α}

theorem of_mem_takeWhile {l : List α} (h : a ∈ l.takeWhile p) : p a = true := by
  have hp := mem_takeWhile_imp h
  exact hp

theorem isFlag_of_mem_flags (h : c ∈ (head l).flags) : isFlag c = true := of_mem_takeWhile h

theorem isDigit_of_mem_width (h : c ∈ (head l).width) : isDigit c = true :=
  of_mem_takeWhile h

theorem not_of_head?_dropWhile {l : List α} (h : a ∈ (l.dropWhile p).head?) : p a = false := by
  have hnot := head?_dropWhile_not p l
  rw [Option.mem_def.1 h] at hnot
  exact hnot

theorem mem_head?_of_takeWhile {l : List α} (h : a ∈ (l.takeWhile p).head?) : a ∈ l.head? := by
  rcases l with - | ⟨b, l⟩
  · exact h
  · rw [takeWhile_cons] at h
    split at h
    · exact h
    · cases h

theorem not_flag_of_head?_width (h : c ∈ (head l).width.head?) : isFlag c = false :=
  not_of_head?_dropWhile (mem_head?_of_takeWhile h)

theorem not_flag_of_head?_behind (h : c ∈ ((head l).width ++ (head l).rest).head?) :
    isFlag c = false := by
  have hl : (head l).width ++ (head l).rest = l.dropWhile isFlag := takeWhile_append_dropWhile
  rw [hl] at h
  exact not_of_head?_dropWhile h

theorem not_digit_of_head?_rest (h : c ∈ (head l).rest.head?) : isDigit c = false :=
  not_of_head?_dropWhile h

theorem takeWhile_of_head? {l : List α} (h : ∀ a ∈ l.head?, p a = false) :
    l.takeWhile p = [] ∧ l.dropWhile p = l := by
  rcases l with - | ⟨a, l⟩
  · exact ⟨rfl, rfl⟩
  · have ha : ¬ p a = true := by simp [h a rfl]
    exact ⟨takeWhile_cons_of_neg ha, dropWhile_cons_of_neg ha⟩

theorem head_eq {f w r : List UInt8} (hf : ∀ c ∈ f, isFlag c = true)
    (hw : ∀ c ∈ w, isDigit c = true)
    (hfw : ∀ c ∈ w.head?, isFlag c = false)
    (hr : ∀ c ∈ r.head?, isDigit c = false ∧ (w = [] → isFlag c = false)) :
    head (f ++ (w ++ r)) = ⟨f, w, r⟩ := by
  have hhead : ∀ c ∈ (w ++ r).head?, isFlag c = false := by
    rcases w with - | ⟨a, w⟩
    · exact fun c hc => (hr c hc).2 rfl
    · exact hfw
  unfold head
  rw [takeWhile_append_of_pos hf, dropWhile_append_of_pos hf, (takeWhile_of_head? hhead).1,
    (takeWhile_of_head? hhead).2, takeWhile_append_of_pos hw, dropWhile_append_of_pos hw,
    (takeWhile_of_head? fun c hc => (hr c hc).1).1,
    (takeWhile_of_head? fun c hc => (hr c hc).1).2, append_nil, append_nil]

theorem directive_eq {f w r : List UInt8} (hf : ∀ c ∈ f, isFlag c = true)
    (hw : ∀ c ∈ w, isDigit c = true)
    (hfw : ∀ c ∈ w.head?, isFlag c = false)
    (hr : ∀ c ∈ r.head?, isDigit c = false ∧ (w = [] → isFlag c = false)) :
    directive (37 :: (f ++ (w ++ r))) = Head.directive ⟨f, w, r⟩ :=
  congrArg Head.directive (head_eq hf hw hfw hr)

theorem modifier_of_not_mem (h : 108 ∉ l) : (modifier l).1 ≠ .long := by
  unfold modifier
  split
  · exact Length.noConfusion
  · exact absurd mem_cons_self h
  · exact Length.noConfusion

theorem mem_of_long {d : Directive} (h : directive (37 :: l) = some d) (hlong : d.length = .long) :
    108 ∈ l := by
  by_contra hnot
  obtain ⟨c, -, hc⟩ := Option.bind_eq_some_iff.1 h
  split at hc
  · cases hc
  · obtain rfl := Option.some.inj hc
    refine modifier_of_not_mem (fun hin => hnot ?_) hlong
    rw [← head_append l]
    exact mem_append_right _ (mem_append_right _ hin)

theorem number_iff {length : Length} {signed : Bool} {v : ℤ} : number length signed v = v ↔
    Fits length signed v := by
  unfold number Fits
  cases signed <;> cases length <;> simp only [Length.bits, Bool.false_eq_true, if_true,
    if_false] <;> omega

end Inetutils.Lib.Printf
