import Inetutils.Ftpd.Dataconn
import Inetutils.Lib.Pieces

/-! # How ftpd reads a line

`telnet_fgets` of `src/ftpcmd.y`: first what an interruption left in `tmpline`, then the control
connection, with the TELNET commands taken out and the options refused. The end of the list is the
end of the connection. -/

namespace Inetutils.Ftpd.Input

open Lib.Pieces List
open Dataconn (Text upper)

/-! ### The control connection -/

def IAC : UInt8 := 255
def DONT : UInt8 := 254
def DO : UInt8 := 253
def WONT : UInt8 := 252
def WILL : UInt8 := 251

/-- What a read of the connection stores, what it leaves, and what it answers. -/
structure Read where
  line : Text
  rest : Text
  sent : Text
  deriving DecidableEq

def Read.store (c : UInt8) (r : Read) : Read := { r with line := c :: r.line }

def Read.answer (a : Text) (r : Read) : Read := { r with sent := a ++ r.sent }

/-- The loop over the connection, `n` bytes at most. At the end an option is read as 255, and an IAC
stands for itself. -/
def readLine (n : ℕ) : Text → Read
  | [] => ⟨[], [], []⟩
  | c :: l =>
    if c = IAC then
      match l with
      | [] => ⟨[IAC], [], []⟩
      | b :: l =>
        if b = WILL ∨ b = WONT then
          match l with
          | [] => ⟨[], [], [IAC, DONT, 255]⟩
          | o :: l => (readLine n l).answer [IAC, DONT, o]
        else if b = DO ∨ b = DONT then
          match l with
          | [] => ⟨[], [], [IAC, WONT, 255]⟩
          | o :: l => (readLine n l).answer [IAC, WONT, o]
        else if b = IAC then
          if n ≤ 1 then ⟨[IAC], l, []⟩ else (readLine (n - 1) l).store IAC
        else readLine n l
    else if c = 10 ∨ n ≤ 1 then ⟨[c], l, []⟩ else (readLine (n - 1) l).store c

def strip : Text → Text
  | [] => []
  | c :: l =>
    if c = IAC then
      match l with
      | [] => [IAC]
      | b :: l =>
        if b = WILL ∨ b = WONT ∨ b = DO ∨ b = DONT then
          match l with
          | [] => []
          | _ :: l => strip l
        else if b = IAC then IAC :: strip l
        else strip l
    else c :: strip l

theorem strip_byte {c : UInt8} (hc : c ≠ IAC) (l : Text) : strip (c :: l) = c :: strip l := by
  conv_lhs => unfold strip
  exact if_neg hc

variable {b : UInt8} {l tmpline : Text} {n : ℕ}

theorem strip_option (hb : b = WILL ∨ b = WONT ∨ b = DO ∨ b = DONT) (o : UInt8) (l : Text) :
    strip (IAC :: b :: o :: l) = strip l := by
  rw [strip, if_pos rfl]
  exact if_pos hb

theorem strip_cut (hb : b = WILL ∨ b = WONT ∨ b = DO ∨ b = DONT) : strip [IAC, b] = [] := by
  rw [strip, if_pos rfl]
  exact if_pos hb

theorem strip_iac (l : Text) : strip (IAC :: IAC :: l) = IAC :: strip l := by
  conv_lhs => unfold strip
  rfl

theorem strip_other (hb : ¬ (b = WILL ∨ b = WONT ∨ b = DO ∨ b = DONT)) (hi : b ≠ IAC) (l : Text) :
    strip (IAC :: b :: l) = strip l := by
  conv_lhs => unfold strip
  simp only [if_pos, if_neg hb, if_neg hi]

/-- **A read takes a piece of the text of the connection.** -/
theorem readLine_eq (n : ℕ) (l : Text) :
    piece 10 n (strip l) = ((readLine n l).line, strip (readLine n l).rest) := by
  have hIAC : ¬ (IAC = 10) := by decide
  fun_induction readLine n l with
  | case1 n => rfl
  | case2 n =>
    by_cases hn : n ≤ 1
    · exact piece_last 10 (.inr hn) []
    · exact piece_more 10 (not_or.2 ⟨hIAC, hn⟩) []
  | case3 n b hb =>
    rw [strip_cut (by tauto)]
    rfl
  | case4 n b hb o l ih =>
    rw [strip_option (by tauto)]
    exact ih
  | case5 n b _ hb =>
    rw [strip_cut (by tauto)]
    rfl
  | case6 n b _ hb o l ih =>
    rw [strip_option (by tauto)]
    exact ih
  | case7 n l hn _ _ =>
    rw [strip_iac]
    exact piece_last 10 (.inr hn) _
  | case8 n l hn _ _ ih =>
    rw [strip_iac, piece_more 10 (not_or.2 ⟨hIAC, hn⟩), ih]
    rfl
  | case9 n b l h1 h2 h3 ih =>
    rw [strip_other (by tauto) h3]
    exact ih
  | case10 n c l hc h =>
    rw [strip_byte hc]
    exact piece_last 10 h _
  | case11 n c l hc h ih =>
    rw [strip_byte hc, piece_more 10 h, ih]
    rfl

/-! ### Strings -/

def cstring (l : Text) : Text := l.takeWhile (· ≠ 0)

theorem length_cstring_le (l : Text) : (cstring l).length ≤ l.length :=
  (List.takeWhile_prefix _).length_le

theorem cstring_eq_iff (l : Text) : cstring l = l ↔ 0 ∉ l := by
  unfold cstring
  rw [takeWhile_eq_self_iff]
  constructor
  · intro h hmem
    exact absurd (h 0 hmem) (by decide)
  · intro h b hb
    exact decide_eq_true fun h0 => h (h0 ▸ hb)

def LfLast (l : Text) : Prop := ∀ p q, l = p ++ 10 :: q → q = []

theorem LfLast.cstring (h : LfLast l) : LfLast (cstring l) := by
  intro p q hpq
  have hl : l = p ++ 10 :: (q ++ l.dropWhile (· ≠ 0)) := by
    rw [← cons_append, ← append_assoc, ← hpq]
    exact takeWhile_append_dropWhile.symm
  exact (append_eq_nil_iff.1 (h _ _ hl)).1

theorem upper_eq_iff {c : UInt8} (hc : c < 65) (b : UInt8) : upper b = c ↔ b = c := by
  have hc65 : c.toNat < 65 := UInt8.lt_iff_toNat_lt.1 hc
  unfold upper
  split
  next h =>
    have h97 : 97 ≤ b.toNat := UInt8.le_iff_toNat_le.1 h.1
    have hsub : (b - 32).toNat = b.toNat - 32 :=
      UInt8.toNat_sub_of_le b 32 (UInt8.le_iff_toNat_le.2 (le_trans (by decide) h97))
    constructor
    · intro hb
      rw [hb] at hsub
      omega
    · intro hb
      rw [hb] at h97
      omega
  · exact Iff.rfl

theorem LfLast.upper (h : LfLast l) : LfLast (l.map upper) := by
  intro p q hpq
  obtain ⟨p', t, rfl, -, ht⟩ := map_eq_append_iff.1 hpq
  obtain ⟨c, q', rfl, hc, rfl⟩ := map_eq_cons_iff.1 ht
  rw [upper_eq_iff (by decide)] at hc
  rw [h p' q' (by rw [hc])]
  rfl

/-! ### `telnet_fgets` -/

/-- The loop over the string in `tmpline`: what is copied, whether a newline ends it, and the room
that is left. -/
def copySaved : ℕ → Text → Text × Bool × ℕ
  | n, [] => ([], false, n)
  | n, c :: l =>
    if n ≤ 1 then ([], false, 0)
    else if c = 10 then ([c], true, n - 1)
    else (copySaved (n - 1) l).map (c :: ·) id

/-- What `telnet_fgets` stores in front of the NUL, and NULL is returned when that is nothing;
whether it copied from `tmpline`, and then it has emptied it; the connection after the call, and
what was answered on it. -/
structure Fgets where
  stored : Text
  copied : Bool
  input : Text
  sent : Text
  deriving DecidableEq

def telnetFgets (n : ℕ) (tmpline input : Text) : Fgets :=
  match copySaved n tmpline with
  | (saved, true, _) => ⟨saved, true, input, []⟩
  | (saved, false, n) =>
    ⟨saved ++ (readLine n input).line, !saved.isEmpty, (readLine n input).rest,
      (readLine n input).sent⟩

/-- What `tmpline` can hold: a line, or a part of one. -/
def Saved (tmpline : Text) : Prop :=
  tmpline.length ≤ 7 ∧ ∃ p, 10 ∉ p ∧ (tmpline = p ∨ tmpline = p ++ [10])

theorem LfLast.saved (h : LfLast l) (hlen : l.length ≤ 7) : Saved l := by
  refine ⟨hlen, ?_⟩
  by_cases hmem : 10 ∈ l
  · obtain ⟨p, q, rfl, hp⟩ := eq_append_cons_of_mem hmem
    have hq := h p q rfl
    exact ⟨p, hp, .inr (by rw [hq])⟩
  · exact ⟨l, hmem, .inl rfl⟩

theorem copySaved_part {p : Text} (hp : 10 ∉ p) (hn : p.length < n) :
    copySaved n p = (p, false, n - p.length) := by
  induction p generalizing n with
  | nil => rfl
  | cons c p ih =>
    rw [mem_cons, not_or] at hp
    rw [length_cons] at hn
    rw [copySaved, if_neg (by omega), if_neg (Ne.symm hp.1), ih hp.2 (by omega), length_cons,
      add_comm p.length 1, ← Nat.sub_sub]
    rfl

theorem copySaved_line {p : Text} (hp : 10 ∉ p) (hn : p.length + 1 < n) :
    copySaved n (p ++ [10]) = (p ++ [10], true, n - p.length - 1) := by
  induction p generalizing n with
  | nil =>
    rw [length_nil] at hn
    rw [nil_append, copySaved, if_neg (by omega), if_pos rfl]
    rfl
  | cons c p ih =>
    rw [mem_cons, not_or] at hp
    rw [length_cons] at hn
    rw [cons_append, copySaved, if_neg (by omega), if_neg (Ne.symm hp.1), ih hp.2 (by omega),
      length_cons, add_comm p.length 1, ← Nat.sub_sub]
    rfl

/-- **`telnet_fgets` takes a piece** of what was saved and of the text of the connection after
it. -/
theorem telnetFgets_eq (ht : Saved tmpline) (hn : 7 < n) (input : Text) :
    piece 10 n (tmpline ++ strip input) =
      ((telnetFgets n tmpline input).stored, strip (telnetFgets n tmpline input).input) := by
  obtain ⟨hlen, p, hp, rfl | rfl⟩ := ht
  · have hroom : tmpline.length < n := by omega
    rw [piece_of_not_mem 10 hp hroom, readLine_eq]
    unfold telnetFgets
    rw [copySaved_part hp hroom]
  · rw [length_append, length_singleton] at hlen
    rw [append_assoc, singleton_append, piece_of_delim 10 hp (by omega)]
    unfold telnetFgets
    rw [copySaved_line hp (by omega)]

theorem copied_of_ne_nil (hn : 1 < n) (h : tmpline ≠ []) (input : Text) :
    (telnetFgets n tmpline input).copied = true ∧ (telnetFgets n tmpline input).stored ≠ [] := by
  rcases tmpline with - | ⟨c, l⟩
  · exact absurd rfl h
  · unfold telnetFgets
    rw [copySaved, if_neg (by omega)]
    by_cases hc : c = 10
    · rw [if_pos hc]
      simp
    · rw [if_neg hc]
      rcases copySaved (n - 1) l with ⟨a, - | -, m⟩ <;> simp

theorem length_input_le (n : ℕ) (tmpline input : Text) :
    (strip (telnetFgets n tmpline input).input).length ≤ (strip input).length := by
  have hread : ∀ m, (strip (readLine m input).rest).length ≤ (strip input).length := by
    intro m
    have happ := congrArg List.length (piece_append 10 m (strip input))
    rw [readLine_eq, length_append] at happ
    exact Nat.le.intro ((add_comm _ _).trans happ)
  unfold telnetFgets
  split
  · exact le_rfl
  · exact hread _

theorem telnetFgets_nil (n : ℕ) (input : Text) :
    telnetFgets n [] input =
    ⟨(readLine n input).line, false, (readLine n input).rest, (readLine n input).sent⟩ := rfl

end Inetutils.Ftpd.Input
