import Inetutils.Lib.Cells
import Inetutils.Lib.Printf
import Mathlib.Data.UInt

/-! # Numbers in a template

`put_int` and `put_ulong` of `ifconfig/printif.c`: the argument is rewritten in place into a format
for `printf`. To write behind the end of the argument has no result. -/

namespace Inetutils.Ifconfig.Put

open Lib.Cells Lib.Printf Option
open Lib.Decimal (isDigit value)

abbrev Text := List UInt8

variable {l : Text} {c : UInt8}

/-- `if (*p == c) p++;` -/
def skip (c : UInt8) : Text → Text
  | [] => []
  | a :: l => if a = c then l else a :: l

/-- `while (isdigit (*p)) p++;` -/
def digits (l : Text) : Text := l.dropWhile isDigit

/-- `if ((*p == 'h' || *p == 'H') && p[1]) ++p;` -/
def half : Text → Text
  | c :: d :: l => if c = 104 ∨ c = 72 then d :: l else c :: d :: l
  | l => l

/-- The `switch` on `*p`. -/
def specifier (c : UInt8) : UInt8 :=
  if c = 120 ∨ c = 104 then 120 else if c = 88 ∨ c = 72 then 88 else if c = 111 ∨
    c = 79 then 111 else 105

/-- The end of both functions, with `p` in front of `q` in the string `s`; the string that stands
there then. -/
def finish (s q : Text) : Option Text :=
  (fill ((s ++ [0]).map some) (s.length - q.length) [specifier (q.headD 0), 0]).bind (string 0)

/-- **`put_int`**: the format for `printf`. -/
def put_int : List Text → Option Text
  | (37 :: l) :: _ => finish (37 :: l) (half (digits (skip 35 l)))
  | _ => some [37, 105]

/-- **`put_ulong`**: the format for `printf`. -/
def put_ulong : List Text → Option Text
  | (37 :: l) :: _ => finish (37 :: l) (skip 108 (skip 35 (digits l)))
  | _ => some [37, 108, 117]

/-! ### What an argument asks for -/

structure Field where
  width : ℕ
  base : Base

/-- The base of a letter; one that is not known is for decimal numbers. -/
def base (c : UInt8) : Base :=
  if c = 120 ∨ c = 104 then .hex else if c = 88 ∨ c = 72 then .upperHex
  else if c = 111 ∨ c = 79 then .oct else .dec

def precision : Text → Text
  | 46 :: l => digits l
  | l => l

/-- `h`, `H`, `l`, `L`, `j`, `z` and `t`. -/
def isModifier (c : UInt8) : Bool := c ∈ [104, 72, 108, 76, 106, 122, 116]

/-- The letter behind the width: behind the modifiers, of which the last one may stand for a
letter. -/
def letter (l : Text) : UInt8 :=
  (((precision l).dropWhile isModifier).head?.or
    ((precision l).takeWhile isModifier).getLast?).getD 0

def asked : Text → Field
  | 37 :: l => ⟨value 0 (head l).width, base (letter (head l).rest)⟩
  | _ => ⟨0, .dec⟩

/-- A format is one conversion, for an argument of this length, and it prints the whole of `v` as
`f` says. -/
def Prints (length : Length) (v : ℤ) (f : Field) (fmt : Option Text) : Prop :=
  ∃ t ∈ fmt, ∃ d ∈ directive t,
    d.length.promoted = length ∧ number d.length d.signed v = v ∧ d.width = f.width ∧
    d.base = f.base

/-! ### The end of the string -/

theorem specifier_mem (c : UInt8) : specifier c ∈ ([120, 88, 111, 105] : List UInt8) := by
  unfold specifier
  split
  · simp
  · split
    · simp
    · split <;> simp

theorem specifier_not (c : UInt8) :
    isFlag (specifier c) = false ∧ isDigit (specifier c) = false ∧ specifier c ≠ 0 ∧
    specifier c ≠ 108 ∧ specifier c ≠ 104 :=
  List.forall_iff_forall_mem.1
    (show ([120, 88, 111, 105] : List UInt8).Forall fun c =>
      isFlag c = false ∧ isDigit c = false ∧ c ≠ 0 ∧ c ≠ 108 ∧ c ≠ 104 by decide) _
      (specifier_mem c)

theorem conversion_specifier (c : UInt8) :
    conversion [specifier c] = some (decide (base c = .dec), base c) := by
  unfold specifier base
  split
  · rfl
  · split
    · rfl
    · split <;> rfl

theorem finish_nil (s : Text) : finish s [] = none := by
  unfold finish
  rw [fill_eq (by simp), if_neg (by simp)]
  rfl

theorem finish_cons {u q : Text} (h : 0 ∉ u) :
    finish (u ++ c :: q) (c :: q) = some (u ++ [specifier c]) := by
  have hlen : (u ++ c :: q).length - (c :: q).length =
    u.length := by rw [List.length_append, Nat.add_sub_cancel]
  have hnot : 0 ∉ u ++ [specifier c] := by
    rw [List.mem_append, List.mem_singleton]
    exact not_or.2 ⟨h, (specifier_not c).2.2.1.symm⟩
  unfold finish
  rw [hlen, fill_eq (by simp), if_pos (by simp), bind_some]
  have htake : (List.map some (u ++ c :: q ++ [0])).take u.length = u.map some := by
    rw [List.append_assoc, List.map_append, List.take_left' (List.length_map _)]
  have hs :=
    string_append hnot
    ((List.map some (u ++ c :: q ++ [0])).drop (u.length + [specifier c, 0].length))
  rw [← hs]
  simp

theorem finish_width {f w k q : Text} (h : 0 ∉ f ++ (w ++ (k ++ c :: q))) :
    finish (37 :: (f ++ (w ++ (k ++ c :: q)))) (c :: q) =
    some (37 :: (f ++ (w ++ (k ++ [specifier c])))) := by
  have hu : 0 ∉ 37 :: (f ++ (w ++ k)) := by
    simp only [List.mem_cons, List.mem_append, not_or] at h ⊢
    exact ⟨by decide, h.1, h.2.1, h.2.2.1⟩
  have hs := finish_cons (q := q) (c := c) hu
  simp only [List.cons_append, List.append_assoc] at hs
  exact hs

/-! ### What a rewritten argument prints -/

def mark : Length → Text
  | .short => [104]
  | .int => []
  | .long => [108]

theorem modifier_mark (m : Length) (c : UInt8) :
    modifier (mark m ++ [specifier c]) = (m, [specifier c]) := by
  cases m
  · rfl
  · obtain ⟨-, -, -, hl, hh⟩ := specifier_not c
    unfold mark modifier
    split
    · next heq => exact absurd (List.cons.inj heq).1 hh
    · next heq => exact absurd (List.cons.inj heq).1 hl
    · rfl
  · rfl

section
variable {f w : Text} (hf : ∀ c ∈ f, isFlag c = true) (hw : ∀ c ∈ w, isDigit c = true)
  (hfw : ∀ c ∈ w.head?, isFlag c = false)
include hf hw hfw

theorem directive_format (m : Length) (c : UInt8) :
    directive (37 :: (f ++ (w ++ (mark m ++ [specifier c])))) =
      if 35 ∈ f ∧ base c = .dec ∨ 2 ^ 31 ≤ value 0 w then none
      else some ⟨35 ∈ f, value 0 w, m, base c = .dec, base c⟩ := by
  have hr : ∀ a ∈ (mark m ++ [specifier c]).head?,
    isDigit a = false ∧ (w = [] → isFlag a = false) := by
    obtain ⟨hflag, hdig, -⟩ := specifier_not c
    rintro a ha
    cases m <;> obtain rfl := some.inj ha
    · exact ⟨rfl, fun _ => rfl⟩
    · exact ⟨hdig, fun _ => hflag⟩
    · exact ⟨rfl, fun _ => rfl⟩
  rw [directive_eq hf hw hfw hr]
  unfold Head.directive
  rw [modifier_mark, conversion_specifier]
  rfl

theorem prints_format (m : Length) (c : UInt8) (length : Length) (v : ℤ) (g : Field) :
    Prints length v g (some (37 :: (f ++ (w ++ (mark m ++ [specifier c]))))) ↔
      m.promoted = length ∧ value 0 w < 2 ^ 31 ∧ (35 ∈ f → base c ≠ .dec) ∧
      Fits m (base c = .dec) v ∧ value 0 w = g.width ∧ base c = g.base := by
  have hd := directive_format hf hw hfw m c
  constructor
  · rintro ⟨t, ht, d, hmem, hlen, hnum, hwid, hbase⟩
    obtain rfl := some.inj ht
    rw [hd, mem_def] at hmem
    split at hmem
    · cases hmem
    · next hnot =>
      obtain rfl := some.inj hmem
      rw [not_or, not_and, not_le] at hnot
      exact ⟨hlen, hnot.2, hnot.1, number_iff.1 hnum, hwid, hbase⟩
  · rintro ⟨hlen, hlt, halt, hfits, hwid, hbase⟩
    refine ⟨_, rfl, ⟨35 ∈ f, value 0 w, m, base c = .dec, base c⟩, ?_, hlen, number_iff.2 hfits,
      hwid, hbase⟩
    rw [hd, if_neg (by rw [not_or, not_and, not_le]; exact ⟨halt, hlt⟩)]
    rfl

end

/-! ### What the functions find -/

theorem skip_eq_self (h : c ∉ l.head?) : skip c l = l := by
  rcases l with - | ⟨a, l⟩
  · rfl
  · exact if_neg fun ha => h (congrArg some ha)

theorem skip_cases (c : UInt8) (l : Text) : skip c l = l ∨ l = c :: skip c l := by
  rcases l with - | ⟨a, l⟩
  · exact .inl rfl
  · rw [skip]
    split
    · next ha => exact .inr (by rw [ha])
    · exact .inl rfl

theorem skip_append (h : l ≠ []) (m : Text) : skip c (l ++ m) = skip c l ++ m := by
  rcases l with - | ⟨a, l⟩
  · exact absurd rfl h
  · rw [List.cons_append, skip, skip]
    split <;> rfl

theorem isDigit_zero : isDigit 48 = true := rfl

theorem eq_zero_of_flag (hf : isFlag c = true) (hd : isDigit c = true) : c = 48 := by
  unfold isFlag at hf
  unfold isDigit at hd
  simp only [List.mem_cons, List.not_mem_nil, or_false, decide_eq_true_eq] at hf
  rcases hf with rfl | rfl | rfl | rfl | rfl <;> simp at hd ⊢

variable {r : Text}

theorem digits_append {z w : Text} (hz : ∀ c ∈ z, c = 48) (hw : ∀ c ∈ w, isDigit c = true)
    (hr : ∀ c ∈ r.head?, isDigit c = false) : digits (z ++ (w ++ r)) = r := by
  have hzd : ∀ c ∈ z, isDigit c = true := fun c hc => hz c hc ▸ isDigit_zero
  unfold digits
  rw [List.dropWhile_append_of_pos hzd, List.dropWhile_append_of_pos hw, (takeWhile_of_head? hr).2]

theorem digits_skip_plain {f w : Text} (hf : ∀ c ∈ skip 35 f, c = 48)
    (hw : ∀ c ∈ w, isDigit c = true) (hfw : ∀ c ∈ (w ++ r).head?, isFlag c = false)
    (hr : ∀ c ∈ r.head?, isDigit c = false) : digits (skip 35 (f ++ (w ++ r))) = r := by
  rcases f with - | ⟨a, f⟩
  · rw [List.nil_append, skip_eq_self, ← List.nil_append (w ++ r)]
    · exact digits_append (List.forall_mem_nil _) hw hr
    · intro h35
      cases hfw 35 h35
  · rw [skip_append (List.cons_ne_nil a f)]
    exact digits_append hf hw hr

theorem digits_flag (hl : ∀ c ∈ l, isFlag c = true) (h : ¬ ∀ c ∈ l, c = 48) (x : Text) :
    ∃ z c m, l = z ++ c :: m ∧ (∀ a ∈ z, a = 48) ∧ digits (l ++ x) = c :: (m ++ x) := by
  have hcut := List.takeWhile_append_dropWhile (p := isDigit) (l := l)
  have hz : ∀ a ∈ l.takeWhile isDigit, a = 48 := fun a ha =>
    eq_zero_of_flag (hl a (List.takeWhile_subset _ ha)) (of_mem_takeWhile ha)
  rcases hd : l.dropWhile isDigit with - | ⟨c, m⟩
  · rw [hd, List.append_nil] at hcut
    exact absurd (hcut ▸ hz) h
  · rw [hd] at hcut
    refine ⟨_, c, m, hcut.symm, hz, ?_⟩
    have hc : ¬ isDigit c = true := by
      have hfalse := not_of_head?_dropWhile (p := isDigit) (l := l) (a := c) (by rw [hd]; rfl)
      simp [hfalse]
    unfold digits
    conv_lhs => rw [← hcut]
    rw [List.append_assoc, List.dropWhile_append_of_pos fun a ha => hz a ha ▸ isDigit_zero,
      List.cons_append, List.dropWhile_cons_of_neg hc]

theorem digits_skip_flag {f : Text} (hf : ∀ c ∈ f, isFlag c = true) (h : ¬ ∀ c ∈ skip 35 f, c = 48)
    (x : Text) :
    ∃ g c m, f = g ++ c :: m ∧ (35 ∈ g ↔ 35 ∈ f.head?) ∧
    digits (skip 35 (f ++ x)) = c :: (m ++ x) := by
  rcases f with - | ⟨a, f⟩
  · exact absurd (List.forall_mem_nil _) h
  rw [skip_append (List.cons_ne_nil a f)]
  by_cases ha : a = 35
  · rw [skip, if_pos ha] at h ⊢
    obtain ⟨z, c, m, rfl, -, hd⟩ := digits_flag (fun c hc => hf c (List.mem_cons_of_mem a hc)) h x
    exact ⟨a :: z, c, m, rfl, by simp [ha], hd⟩
  · rw [skip, if_neg ha] at h ⊢
    obtain ⟨z, c, m, heq, hz, hd⟩ := digits_flag hf h x
    refine ⟨z, c, m, heq, iff_of_false (fun h35 => ?_) fun h35 => ha (some.inj h35), hd⟩
    cases hz 35 h35

/-! ### `put_int` -/

/-- The length and the letter that `put_int` finds; `H` is no length. -/
def halfLetter : Text → Option (Length × UInt8)
  | [] => none
  | [c] => some (.int, c)
  | c :: d :: _ => if c = 104 then some (.short, d) else if c = 72 then none else some (.int, c)

/-- When `put_int` prints what its argument asks for: there are no flags but `#` at the front and
zeros, the width is an `int`, a letter is there, it is the one that is asked for, `#` does not stand
with decimal numbers, and the number is of the type of the conversion. With other flags it is when a
decimal number without a width is asked for. -/
def IntRight (nr : ℤ) : Text → Prop
  | 37 :: l =>
    if (skip 35 (head l).flags).all (· = 48) then
      (asked (37 :: l)).width < 2 ^ 31 ∧
        ∃ x ∈ halfLetter (head l).rest,
          base x.2 = (asked (37 :: l)).base ∧ (35 ∈ (head l).flags → base x.2 ≠ .dec) ∧
          Fits x.1 (base x.2 = .dec) nr
    else (head l).flags.head? ≠ some 35 ∧ (asked (37 :: l)).width = 0 ∧
      (asked (37 :: l)).base = .dec
  | _ => True

theorem base_of_flag (h : isFlag c = true) : base c = .dec ∧ ¬ (c = 104 ∨ c = 72) := by
  unfold isFlag at h
  simp only [List.mem_cons, List.not_mem_nil, or_false, decide_eq_true_eq] at h
  rcases h with rfl | rfl | rfl | rfl | rfl <;> decide

section
variable {f w : Text} (hf : ∀ c ∈ f, isFlag c = true) (hw : ∀ c ∈ w, isDigit c = true)
  (hfw : ∀ c ∈ w.head?, isFlag c = false)
include hf hw hfw

theorem not_prints_upper (c : UInt8) (length : Length) (v : ℤ) (g : Field) :
    ¬ Prints length v g (some (37 :: (f ++ (w ++ [72, c])))) := by
  rintro ⟨t, ht, d, hmem, -⟩
  obtain rfl := some.inj ht
  rw [directive_eq hf hw hfw (r := [72, c])
    (by rintro a ha; obtain rfl := some.inj ha; exact ⟨rfl, fun _ => rfl⟩)]
    at hmem
  cases hmem

theorem finish_half (h0 : 0 ∉ f ++ (w ++ r)) (length : Length) (v : ℤ) (g : Field) :
    Prints length v g (finish (37 :: (f ++ (w ++ r))) (half r)) ↔
      ∃ x ∈ halfLetter r,
      Prints length v g (some (37 :: (f ++ (w ++ (mark x.1 ++ [specifier x.2]))))) := by
  have hsome : ∀ {P : Length × UInt8 → Prop} {x : Length × UInt8}, (∃ y ∈ some x, P y) ↔
    P x := by simp
  rcases r with - | ⟨c, - | ⟨d, r⟩⟩
  · rw [half, finish_nil]
    · exact iff_of_false (fun ⟨t, ht, _⟩ => nomatch ht) fun ⟨x, hx, _⟩ => nomatch hx
    · exact fun _ _ _ h => nomatch h
  · rw [half, halfLetter, hsome]
    · exact iff_of_eq (congrArg _ (finish_width (k := []) h0))
    · exact fun _ _ _ h => nomatch h
  · rw [half, halfLetter]
    by_cases hc : c = 104
    · rw [if_pos (.inl hc), if_pos hc, hsome, hc]
      exact iff_of_eq (congrArg _ (finish_width (k := [104]) (hc ▸ h0)))
    rw [if_neg hc]
    by_cases hu : c = 72
    · rw [if_pos (.inr hu), if_pos hu, hu]
      refine iff_of_false ?_ fun ⟨x, hx, _⟩ => nomatch hx
      rw [show finish (37 :: (f ++ (w ++ 72 :: d :: r))) (d :: r) = _ from
        finish_width (k := [72]) (hu ▸ h0)]
      exact not_prints_upper hf hw hfw (specifier d) length v g
    · rw [if_neg hu, if_neg (not_or.2 ⟨hc, hu⟩), hsome]
      exact iff_of_eq (congrArg _ (finish_width (k := []) h0))

end

theorem promoted_of_halfLetter {x : Length × UInt8} (h : x ∈ halfLetter r) :
    x.1.promoted = .int := by
  rcases r with - | ⟨c, - | ⟨d, r⟩⟩
  · cases h
  · obtain rfl := some.inj h
    rfl
  · rw [halfLetter] at h
    split at h
    · obtain rfl := some.inj h
      rfl
    · split at h
      · cases h
      · obtain rfl := some.inj h
        rfl

theorem half_of_not (h : ¬ (c = 104 ∨ c = 72)) (l : Text) : half (c :: l) = c :: l := by
  rcases l with - | ⟨d, l⟩
  · rfl
  · exact if_neg h

theorem put_int_iff (h0 : 0 ∉ l) (args : List Text) (nr : Int32) :
    Prints .int nr.toInt (asked (37 :: l)) (put_int ((37 :: l) :: args)) ↔
    IntRight nr.toInt (37 :: l) := by
  have hf := fun c => isFlag_of_mem_flags (l := l) (c := c)
  have hw := fun c => isDigit_of_mem_width (l := l) (c := c)
  have hfw := fun c => not_flag_of_head?_width (l := l) (c := c)
  have hr := fun c => not_digit_of_head?_rest (l := l) (c := c)
  have hl := head_append l
  have h0' : 0 ∉ (head l).flags ++ ((head l).width ++ (head l).rest) := by rwa [hl]
  have hput : put_int ((37 :: l) :: args) =
    finish (37 :: ((head l).flags ++ ((head l).width ++ (head l).rest)))
      (half (digits (skip 35 ((head l).flags ++ ((head l).width ++ (head l).rest))))) := by
    rw [hl]
    rfl
  have hall : (skip 35 (head l).flags).all (· = 48) ↔ ∀ c ∈ skip 35 (head l).flags, c = 48 := by
    simp only [List.all_eq_true, decide_eq_true_eq]
  rw [hput]
  change _ ↔ ite _ _ _
  by_cases hz : ∀ c ∈ skip 35 (head l).flags, c = 48
  · rw [if_pos (hall.2 hz), digits_skip_plain hz hw (fun c => not_flag_of_head?_behind) hr,
      finish_half hf hw hfw h0']
    constructor
    · rintro ⟨x, hx, hprints⟩
      obtain ⟨-, hlt, halt, hfits, hwid, hbase⟩ := (prints_format hf hw hfw x.1 x.2 _ _ _).1 hprints
      exact ⟨hlt, x, hx, hbase, halt, hfits⟩
    · rintro ⟨hlt, x, hx, hbase, halt, hfits⟩
      exact ⟨x, hx, (prints_format hf hw hfw x.1 x.2 _ _ _).2
        ⟨promoted_of_halfLetter hx, hlt, halt, hfits, rfl, hbase⟩⟩
  · rw [if_neg (mt hall.1 hz)]
    obtain ⟨g, c, m, heq, hg, hd⟩ := digits_skip_flag hf hz ((head l).width ++ (head l).rest)
    obtain ⟨hdec, hnot⟩ := base_of_flag (hf c (by rw [heq]; simp))
    have hgf : ∀ a ∈ g, isFlag a = true :=
      fun a ha => hf a (by rw [heq]; exact List.mem_append_left _ ha)
    have hfit : Fits .int true nr.toInt := ⟨nr.le_toInt, nr.toInt_lt⟩
    rw [heq, List.append_assoc, List.cons_append] at h0'
    have hfinish : finish (37 :: ((head l).flags ++ ((head l).width ++ (head l).rest)))
        (c :: (m ++ ((head l).width ++ (head l).rest))) =
        some (37 :: (g ++ ([] ++ (mark .int ++ [specifier c])))) := by
      rw [heq, List.append_assoc, List.cons_append]
      exact finish_width (f := g) (w := []) (k := []) h0'
    have hprints :=
      prints_format (w := []) hgf (List.forall_mem_nil _)
      (fun a ha => nomatch ha) .int c .int nr.toInt
      (asked (37 :: l))
    rw [hdec] at hprints
    rw [hd, half_of_not hnot, hfinish]
    refine hprints.trans ⟨?_, ?_⟩
    · rintro ⟨-, -, h35, -, hwid, hbase⟩
      exact ⟨fun hhead => h35 (hg.2 hhead) rfl, hwid.symm, hbase.symm⟩
    · rintro ⟨hhead, hwid, hbase⟩
      exact ⟨rfl, by decide, fun h35 => absurd (hg.1 h35) hhead, hfit, hwid.symm, hbase.symm⟩

/-! ### `put_ulong` -/

/-- The letter behind `l`. -/
def longLetter : Text → Option UInt8
  | 108 :: c :: _ => some c
  | _ => none

/-- When `put_ulong` prints what its argument asks for: there are no flags but zeros and one `#`
behind them, `l` and a letter are there, it is the one that is asked for, `#` stands neither with
decimal numbers nor in front of a width, and the number is of the type of the conversion. -/
def UlongRight (v : ℤ) : Text → Prop
  | 37 :: l =>
    skip 35 ((head l).flags.dropWhile (· = 48)) = [] ∧ (asked (37 :: l)).width < 2 ^ 31 ∧
      ∃ c ∈ longLetter (head l).rest,
        base c = (asked (37 :: l)).base ∧
        (35 ∈ (head l).flags → (head l).width = [] ∧ base c ≠ .dec) ∧
          Fits .long (base c = .dec) v
  | _ => True

theorem mem_longLetter_iff : c ∈ longLetter r ↔ ∃ q, r = 108 :: c :: q := by
  unfold longLetter
  constructor
  · intro h
    split at h
    · obtain rfl := some.inj h
      exact ⟨_, rfl⟩
    · cases h
  · rintro ⟨q, rfl⟩
    rfl

theorem eq_of_skip_nil (h : skip c l = []) : l = [] ∨ l = [c] := by
  rcases l with - | ⟨a, l⟩
  · exact .inl rfl
  · rw [skip] at h
    split at h
    · next ha => exact .inr (by rw [ha, h])
    · cases h

theorem head_of_digits {d q : Text} (hd : ∀ c ∈ d, isDigit c = true)
    (hq : ∀ c ∈ q.head?, isDigit c = false ∧ (d.dropWhile isFlag = [] → isFlag c = false)) :
    head (d ++ q) = ⟨d.takeWhile isFlag, d.dropWhile isFlag, q⟩ := by
  conv_lhs => rw [← List.takeWhile_append_dropWhile (p := isFlag) (l := d), List.append_assoc]
  refine head_eq (fun c => of_mem_takeWhile)
    (fun c hc => hd c (List.dropWhile_subset _ hc)) (fun c => not_of_head?_dropWhile) hq

theorem skip_digits (h : skip 35 ((head l).flags.dropWhile (· = 48)) = [])
    (h35 : 35 ∈ (head l).flags → (head l).width = []) (hr : 35 ∉ (head l).rest.head?) :
    skip 35 (digits l) = (head l).rest := by
  have hl := head_append l
  have hw := fun c => isDigit_of_mem_width (l := l) (c := c)
  have hd := fun c => not_digit_of_head?_rest (l := l) (c := c)
  have hcut := List.takeWhile_append_dropWhile (p := (· = 48)) (l := (head l).flags)
  have hz : ∀ c ∈ (head l).flags.takeWhile (· = 48), c = 48 := fun c hc => by
    have hp := of_mem_takeWhile hc
    exact of_decide_eq_true hp
  rcases eq_of_skip_nil h with hnil | hone
  · rw [hnil, List.append_nil] at hcut
    rw [hcut] at hz
    rw [← hl, digits_append hz hw hd, hl]
    exact skip_eq_self hr
  · rw [hone] at hcut
    have hwid : (head l).width = [] := h35 (by rw [← hcut]; simp)
    have hnum : digits l = 35 :: (head l).rest := by
      conv_lhs => rw [← hl, hwid, ← hcut, List.append_assoc]
      exact digits_append (w := []) hz (List.forall_mem_nil _) fun c hc => by
        obtain rfl := some.inj hc
        rfl
    rw [hnum, skip, if_pos rfl]

theorem ulongRight_iff {f w : Text} (hh : head l = ⟨f, w, r⟩) (v : ℤ) :
    UlongRight v (37 :: l) ↔ skip 35 (f.dropWhile (· = 48)) = [] ∧ value 0 w < 2 ^ 31 ∧
      ∃ c ∈ longLetter r, base c = (asked (37 :: l)).base ∧ (35 ∈ f → w = [] ∧ base c ≠ .dec) ∧
        Fits .long (base c = .dec) v := by
  obtain ⟨rfl, rfl, rfl⟩ : (head l).flags = f ∧ (head l).width = w ∧ (head l).rest = r := by
    rw [hh]
    exact ⟨rfl, rfl, rfl⟩
  exact Iff.rfl

theorem prints_long {f w q : Text} (hf : ∀ c ∈ f, isFlag c = true) (hw : ∀ c ∈ w, isDigit c = true)
    (hfw : ∀ c ∈ w.head?, isFlag c = false) (hl : f ++ (w ++ 108 :: c :: q) = l)
    (h0 : 0 ∉ l) (v : ℤ) :
    Prints .long v (asked (37 :: l)) (finish (37 :: l) (c :: q)) ↔
      value 0 w < 2 ^ 31 ∧ base c = (asked (37 :: l)).base ∧ (35 ∈ f → base c ≠ .dec) ∧
        Fits .long (base c = .dec) v := by
  have hh : head l = ⟨f, w, 108 :: c :: q⟩ := by
    rw [← hl]
    exact head_eq hf hw hfw fun a ha => by obtain rfl := some.inj ha; exact ⟨rfl, fun _ => rfl⟩
  have hfinish :
      finish (37 :: l) (c :: q) = some (37 :: (f ++ (w ++ (mark .long ++ [specifier c])))) := by
    rw [← hl] at h0 ⊢
    exact finish_width (k := [108]) h0
  have hwid : value 0 w = (asked (37 :: l)).width := by
    change value 0 w = value 0 (head l).width
    rw [hh]
  rw [hfinish, prints_format hf hw hfw]
  constructor
  · rintro ⟨-, hlt, halt, hfits, -, hbase⟩
    exact ⟨hlt, hbase, halt, hfits⟩
  · rintro ⟨hlt, hbase, halt, hfits⟩
    exact ⟨rfl, hlt, halt, hfits, hwid, hbase⟩

theorem not_prints_long {k q : Text} (hk : 108 ∉ k) (h0 : 0 ∉ k ++ c :: q) (v : ℤ) (g : Field) :
    ¬ Prints .long v g (finish (37 :: (k ++ c :: q)) (c :: q)) := by
  have hfinish := finish_width (f := k) (w := []) (k := []) h0
  rintro ⟨t, ht, d, hmem, hlen, -⟩
  rw [show finish (37 :: (k ++ c :: q)) (c :: q) = _ from hfinish] at ht
  obtain rfl := some.inj ht
  have hlong : d.length = .long := by
    cases hd : d.length <;> rw [hd] at hlen <;> cases hlen
  have hin := mem_of_long hmem hlong
  simp only [List.nil_append, List.mem_append, List.mem_singleton] at hin
  exact hin.elim hk (specifier_not c).2.2.2.1.symm

section
variable {d q : Text} {c : UInt8}

theorem prints_alternate (hz : ∀ c ∈ d, c = 48) (hl : d ++ 35 :: 108 :: c :: q = l)
    (h0 : 0 ∉ l) (v : ℤ) :
    Prints .long v (asked (37 :: l)) (finish (37 :: l) (c :: q)) ↔ UlongRight v (37 :: l) := by
  have hf : ∀ c ∈ d ++ [35], isFlag c = true := by
    intro c hc
    rcases List.mem_append.1 hc with hc | hc
    · rw [hz c hc]
      rfl
    · rw [List.mem_singleton.1 hc]
      rfl
  have hcut : (d ++ [35]) ++ ([] ++ 108 :: c :: q) = l := by rw [← hl, List.append_assoc]; rfl
  have hh : head l = ⟨d ++ [35], [], 108 :: c :: q⟩ := by
    rw [← hcut]
    exact head_eq hf (List.forall_mem_nil _) (fun a ha => nomatch ha) fun a ha => by
      obtain rfl := some.inj ha
      exact ⟨rfl, fun _ => rfl⟩
  have hdrop : skip 35 ((d ++ [35]).dropWhile (· = 48)) = [] := by
    rw [List.dropWhile_append_of_pos fun c hc => decide_eq_true (hz c hc)]
    rfl
  have h35 : 35 ∈ d ++ [35] := List.mem_append_right _ List.mem_cons_self
  rw [prints_long hf (List.forall_mem_nil _) (fun a ha => nomatch ha) hcut h0, ulongRight_iff hh]
  constructor
  · rintro ⟨hlt, hbase, halt, hfits⟩
    exact ⟨hdrop, hlt, c, rfl, hbase, fun _ => ⟨rfl, halt h35⟩, hfits⟩
  · rintro ⟨-, hlt, a, ha, hbase, halt, hfits⟩
    obtain rfl := some.inj ha
    exact ⟨hlt, hbase, fun h => (halt h).2, hfits⟩

section
variable (hd : ∀ c ∈ d, isDigit c = true)
include hd

theorem flags_zero : ∀ c ∈ d.takeWhile isFlag, c = 48 := fun c hc =>
  eq_zero_of_flag (of_mem_takeWhile hc) (hd c (List.takeWhile_subset _ hc))

theorem prints_digits (hl : d ++ 108 :: c :: q = l) (h0 : 0 ∉ l) (v : ℤ) :
    Prints .long v (asked (37 :: l)) (finish (37 :: l) (c :: q)) ↔ UlongRight v (37 :: l) := by
  have hz := flags_zero hd
  have h35 : 35 ∉ d.takeWhile isFlag := fun hin => nomatch hz 35 hin
  have hdrop : (d.takeWhile isFlag).dropWhile (· = 48) = [] :=
    List.dropWhile_eq_nil_iff.2 fun c hc => decide_eq_true (hz c hc)
  have hcut : d.takeWhile isFlag ++ (d.dropWhile isFlag ++ 108 :: c :: q) = l := by
    rw [← List.append_assoc, List.takeWhile_append_dropWhile, hl]
  have hh : head l = ⟨d.takeWhile isFlag, d.dropWhile isFlag, 108 :: c :: q⟩ := by
    rw [← hl]
    exact head_of_digits hd fun a ha => by obtain rfl := some.inj ha; exact ⟨rfl, fun _ => rfl⟩
  rw [prints_long (fun c => of_mem_takeWhile)
    (fun c hc => hd c (List.dropWhile_subset _ hc)) (fun c => not_of_head?_dropWhile) hcut h0,
    ulongRight_iff hh, hdrop]
  constructor
  · rintro ⟨hlt, hbase, -, hfits⟩
    exact ⟨rfl, hlt, c, rfl, hbase, fun hin => absurd hin h35, hfits⟩
  · rintro ⟨-, hlt, a, ha, hbase, -, hfits⟩
    obtain rfl := some.inj ha
    exact ⟨hlt, hbase, fun hin => absurd hin h35, hfits⟩

theorem not_alternate (hz : ¬ ∀ c ∈ d, c = 48) (hl : d ++ 35 :: 108 :: c :: q = l)
    (h0 : 0 ∉ l) (v : ℤ) :
    ¬ Prints .long v (asked (37 :: l)) (finish (37 :: l) (c :: q)) ∧ ¬ UlongRight v (37 :: l) := by
  have hwid : d.dropWhile isFlag ≠ [] := fun hnil =>
    hz fun c hc => eq_zero_of_flag (List.dropWhile_eq_nil_iff.1 hnil c hc) (hd c hc)
  have hcut : d.takeWhile isFlag ++ (d.dropWhile isFlag ++ ([35, 108] ++ c :: q)) = l := by
    rw [← List.append_assoc, List.takeWhile_append_dropWhile, ← hl]
    rfl
  have hhead : ∀ r : Text, ∀ a ∈ (35 :: r).head?,
    isDigit a = false ∧ (d.dropWhile isFlag = [] → isFlag a = false) := by
    intro r a ha
    obtain rfl := some.inj ha
    exact ⟨rfl, fun hnil => absurd hnil hwid⟩
  constructor
  · rintro ⟨t, ht, e, hmem, -⟩
    rw [← hcut] at h0 ht
    rw [finish_width h0] at ht
    obtain rfl := some.inj ht
    rw [directive_eq (fun c => of_mem_takeWhile)
      (fun c hc => hd c (List.dropWhile_subset _ hc)) (fun c => not_of_head?_dropWhile)
      (r := [35, 108] ++ [specifier c]) (hhead _)] at hmem
    cases hmem
  · rw [ulongRight_iff (hl ▸ head_of_digits hd (hhead _))]
    rintro ⟨-, -, a, ha, -⟩
    cases ha

end

end

theorem not_mem_before (l : Text) : ∃ k, 108 ∉ k ∧ k ++ skip 35 (digits l) = l := by
  have hl : l.takeWhile isDigit ++ digits l = l := List.takeWhile_append_dropWhile
  have hnot : 108 ∉ l.takeWhile isDigit := fun hin =>
    Bool.false_ne_true (of_mem_takeWhile hin)
  rcases skip_cases 35 (digits l) with heq | heq
  · exact ⟨_, hnot, by rw [heq, hl]⟩
  · refine ⟨l.takeWhile isDigit ++ [35], by simpa using hnot, ?_⟩
    rw [List.append_assoc, List.singleton_append, ← heq, hl]

theorem not_prints_other (h0 : 0 ∉ l) (h : ¬ ∃ c q, skip 35 (digits l) = 108 :: c :: q) (v : ℤ)
    (g : Field) :
    ¬ Prints .long v g (finish (37 :: l) (skip 108 (skip 35 (digits l)))) := by
  have hnone : ¬ Prints .long v g (finish (37 :: l) []) := by
    rw [finish_nil]
    rintro ⟨t, ht, -⟩
    cases ht
  obtain ⟨k, hk, hcut⟩ := not_mem_before l
  rcases hp : skip 35 (digits l) with - | ⟨a, p⟩
  · exact hnone
  · rw [hp] at h hcut
    rw [skip]
    split
    · next ha =>
      rcases p with - | ⟨c, q⟩
      · exact hnone
      · exact absurd ⟨c, q, by rw [ha]⟩ h
    · rw [← hcut]
      exact not_prints_long hk (hcut.symm ▸ h0) v g

theorem put_ulong_iff (h0 : 0 ∉ l) (args : List Text) (v : ℤ) :
    Prints .long v (asked (37 :: l)) (put_ulong ((37 :: l) :: args)) ↔ UlongRight v (37 :: l) := by
  have hd : ∀ c ∈ l.takeWhile isDigit, isDigit c = true := fun c => of_mem_takeWhile
  have hl : l.takeWhile isDigit ++ digits l = l := List.takeWhile_append_dropWhile
  have hput : put_ulong ((37 :: l) :: args) = finish (37 :: l) (skip 108 (skip 35 (digits l))) :=
    rfl
  rw [hput]
  by_cases h : ∃ c q, skip 35 (digits l) = 108 :: c :: q
  · obtain ⟨c, q, h⟩ := h
    rw [h, skip, if_pos rfl]
    by_cases h35 : digits l = 35 :: 108 :: c :: q
    · rw [h35] at hl
      by_cases hz : ∀ c ∈ l.takeWhile isDigit, c = 48
      · exact prints_alternate hz hl h0 v
      · exact iff_of_false (not_alternate hd hz hl h0 v).1 (not_alternate hd hz hl h0 v).2
    · have hnum : digits l = 108 :: c :: q := by
        rcases skip_cases 35 (digits l) with heq | heq
        · rw [← heq, h]
        · rw [h] at heq
          exact absurd heq h35
      rw [hnum] at hl
      exact prints_digits hd hl h0 v
  · refine iff_of_false (not_prints_other h0 h v _) ?_
    rintro ⟨hz, -, c, hc, -, h35, -⟩
    obtain ⟨q, hq⟩ := mem_longLetter_iff.1 hc
    refine h ⟨c, q, ?_⟩
    rw [skip_digits hz (fun hin => (h35 hin).1) (by rw [hq]; exact fun hin => nomatch hin), hq]

/-! ### Every argument -/

def Argument := {s : Text // 0 ∉ s}

theorem prints_int (nr : Int32) : Prints .int nr.toInt ⟨0, .dec⟩ (some [37, 105]) :=
  ⟨_, rfl, ⟨false, 0, .int, true, .dec⟩, rfl, rfl,
    number_iff.2 ⟨nr.le_toInt, nr.toInt_lt⟩, rfl, rfl⟩

theorem prints_ulong (value : UInt64) : Prints .long value.toNat ⟨0, .dec⟩ (some [37, 108, 117]) :=
  ⟨_, rfl, ⟨false, 0, .long, false, .dec⟩, rfl, rfl,
    number_iff.2 ⟨Int.natCast_nonneg _, by have hlt := value.toNat_lt; exact_mod_cast hlt⟩, rfl,
    rfl⟩

theorem put_default {s : Text} (h : ∀ l, s = 37 :: l → False) (args : List Text) :
    asked s = ⟨0, .dec⟩ ∧ put_int (s :: args) = some [37, 105] ∧
    put_ulong (s :: args) = some [37, 108, 117] ∧ ∀ v, IntRight v s ∧ UlongRight v s := by
  have hcons : ∀ l tail, s :: args = (37 :: l) :: tail → False :=
    fun l tail heq => h l (List.cons.inj heq).1
  refine ⟨?_, ?_, ?_, fun v => ⟨?_, ?_⟩⟩
  · rw [asked]
    exact h
  · rw [put_int]
    exact hcons
  · rw [put_ulong]
    exact hcons
  · rw [IntRight]
    · trivial
    · exact h
  · rw [UlongRight]
    · trivial
    · exact h

/-- **Which arguments and numbers are printed as the argument asks.** -/
theorem printed_iff (s : Argument) (args : List Text) :
    (∀ nr : Int32, Prints .int nr.toInt (asked s.1) (put_int (s.1 :: args)) ↔
      IntRight nr.toInt s.1) ∧
      ∀ value : UInt64, Prints .long value.toNat (asked s.1) (put_ulong (s.1 :: args)) ↔
      UlongRight value.toNat s.1 := by
  obtain ⟨s, h0⟩ := s
  by_cases hs : ∃ l, s = 37 :: l
  · obtain ⟨l, rfl⟩ := hs
    have hl : 0 ∉ l := fun hin => h0 (List.mem_cons_of_mem _ hin)
    exact ⟨fun nr => put_int_iff hl args nr, fun value => put_ulong_iff hl args value.toNat⟩
  · obtain ⟨hasked, hint, hulong, hright⟩ := put_default (fun l heq => hs ⟨l, heq⟩) args
    rw [hasked, hint, hulong]
    exact ⟨fun nr => iff_of_true (prints_int nr) (hright _).1,
      fun value => iff_of_true (prints_ulong value) (hright _).2⟩

/-! ### An argument that is only `%` -/

theorem not_put : ¬ ∀ (s : Argument) (args : List Text),
    (∀ nr : Int32, Prints .int nr.toInt (asked s.1) (put_int (s.1 :: args))) ∧
      ∀ value : UInt64, Prints .long value.toNat (asked s.1) (put_ulong (s.1 :: args)) := by
  intro h
  obtain ⟨t, ht, -⟩ := (h ⟨[37], by decide⟩ []).1 0
  cases ht

end Inetutils.Ifconfig.Put
