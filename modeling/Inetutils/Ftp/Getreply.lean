import Inetutils.Ftp.Pswitch
import Inetutils.Lib.Decimal

/-! # How ftp reads a reply

`getreply` of `src/ftp.c`: one loop over the control connection takes the TELNET commands out, reads
the code of each line, decides at the end of a line whether the reply goes on, keeps the line for
`reply_string`, and stores what comes after a 227, 228 or 229 in `pasv`. The end of the list is the
end of the connection. -/

namespace Inetutils.Ftp.Getreply

open Lib
open Lib.Decimal (isDigit digit value)
open Pswitch (Text)

/-! ### The loop -/

def Passive (code : ℕ) : Prop := code = 227 ∨ code = 228 ∨ code = 229

instance (code : ℕ) : Decidable (Passive code) := by unfold Passive; infer_instance

/-- A character that is stored in `pasv`. -/
def kept (c : UInt8) : Bool := c ≠ 13 && c ≠ 41

/-- The variables of `getreply`, and what is stored through `pt` and `cp`. -/
structure Loop where
  dig : ℕ
  n : UInt8
  code : ℕ
  originalcode : ℕ
  continuation : ℕ
  pflag : ℕ
  pt : Text
  cp : Text
  deriving DecidableEq

variable {ls : List Text} {s : Loop} {c : Text}

def start : Loop := ⟨0, 0, 0, 0, 0, 0, [], []⟩

section
variable (s : Loop) (c : UInt8)

/-- `code` behind the digits. -/
def Loop.number : ℕ := if s.dig + 1 < 4 ∧ isDigit c then 10 * s.code + digit c else s.code

/-- `pflag` behind the look at the code. -/
def Loop.passive : ℕ := if s.pflag = 0 ∧ Passive (s.number c) then 1 else s.pflag

/-- `pflag` behind the look for a digit. -/
def Loop.found : ℕ := if 4 < s.dig + 1 ∧ s.passive c = 1 ∧ isDigit c then 2 else s.passive c

def Loop.char : Loop where
  dig := s.dig + 1
  n := if s.n = 0 then c else s.n
  code := if s.dig + 1 = 4 ∧ c = 45 ∧ s.continuation ≠ 0 then 0 else s.number c
  originalcode := s.originalcode
  continuation := if s.dig + 1 = 4 ∧ c = 45 then s.continuation + 1 else s.continuation
  pflag := if s.found c = 2 ∧ kept c = false then 3 else s.found c
  pt := if s.found c = 2 ∧ kept c then s.pt ++ [c] else s.pt
  cp := if s.cp.length < 8191 then s.cp ++ [c] else s.cp

end

def Loop.GoesOn (s : Loop) : Prop := s.continuation ≠ 0 ∧ s.code ≠ s.originalcode

instance (s : Loop) : Decidable s.GoesOn := by unfold Loop.GoesOn; infer_instance

def Loop.next (s : Loop) : Loop :=
  { s with
    originalcode := if s.originalcode = 0 then s.code else s.originalcode
    dig := 0
    n := 0
    code := 0
    cp := [] }

/-- What `getreply` returns; `code`; whether `cpend` is 0 now, and whether `lostpeer` was called;
what is left of the connection, and what is stored. -/
structure Result where
  ret : ℤ
  code : ℕ
  answered : Bool
  lost : Bool
  rest : Text
  last : Loop
  deriving DecidableEq

def Loop.eof (expecteof : Bool) (s : Loop) : Result :=
  if expecteof then ⟨0, 221, false, false, [], s⟩ else ⟨4, 421, false, true, [], s⟩

def Loop.done (s : Loop) (rest : Text) : Result :=
  ⟨s.n.toNat - 48, s.code, s.n ≠ 49, s.code = 421 ∨ s.originalcode = 421, rest, s⟩

def Negotiates (b : UInt8) : Prop := 251 ≤ b ∧ b ≤ 254

instance (b : UInt8) : Decidable (Negotiates b) := by unfold Negotiates; infer_instance

def getreply (expecteof : Bool) (s : Loop) : Text → Result
  | [] => s.eof expecteof
  | c :: l =>
    if c = 255 then
      match l with
      | [] => s.eof expecteof
      | b :: l =>
        if Negotiates b then
          match l with
          | [] => s.eof expecteof
          | _ :: l => getreply expecteof s l
        else getreply expecteof s l
    else if c = 10 then if s.GoesOn then getreply expecteof s.next l else s.done l
    else getreply expecteof (s.char c) l

/-- What is in `pasv`, or goes over its end. -/
def Loop.stored (s : Loop) : Text := s.pt ++ if s.pflag = 3 then [0] else []

def Loop.pasv (s : Loop) (old : Text) : Text := s.stored ++ old.drop s.stored.length

/-- No write is outside of `pasv` and `reply_string`. -/
def Loop.Inside (s : Loop) : Prop := s.stored.length ≤ 64 ∧ s.cp.length < 8192

/-! ### The lines of the connection -/

/-- The first line without its TELNET commands, and what is behind it. -/
def scan : Text → Text × Option Text
  | [] => ([], none)
  | c :: l =>
    if c = 255 then
      match l with
      | [] => ([], none)
      | b :: l =>
        if Negotiates b then
          match l with
          | [] => ([], none)
          | _ :: l => scan l
        else scan l
    else if c = 10 then ([], some l)
    else (scan l).map (c :: ·) id

def lines : Text → List Text
  | [] => [[]]
  | c :: l =>
    if c = 255 then
      match l with
      | [] => [[]]
      | b :: l =>
        if Negotiates b then
          match l with
          | [] => [[]]
          | _ :: l => lines l
        else lines l
    else if c = 10 then [] :: lines l
    else (lines l).modifyHead (c :: ·)

def codeOf (L : Text) : ℕ :=
  (L.take 3).foldl (fun k c => if isDigit c then 10 * k + digit c else k) 0

/-- After the first line of a reply: the lines up to one with the code of the reply and no dash. -/
def block (code : ℕ) : List Text → List Text
  | [] => []
  | L :: ls => if L[3]? ≠ some 45 ∧ codeOf L = code then [L] else L :: block code ls

def consumed : List Text → List Text
  | [] => []
  | L :: ls => if L[3]? = some 45 ∧ codeOf L ≠ 0 then L :: block (codeOf L) ls else [L]

/-- What comes after the code of a line, from the first digit on. -/
def digits (L : Text) : Text := (L.drop 4).dropWhile fun c => !isDigit c

/-- What comes after the first digit, on the lines that follow too. -/
def address : List Text → Text
  | [] => []
  | L :: ls => if digits L = [] then address ls else digits L ++ ls.flatten

def captured (ls : List Text) : Text := address (ls.dropWhile fun L => ¬ Passive (codeOf L))

/-! ### Replies -/

structure Code (c : Text) : Prop where
  len : c.length = 3
  digits : ∀ b ∈ c, isDigit b
  first : ∀ b ∈ c.head?, 49 ≤ b ∧ b ≤ 53

def Line (c L : Text) : Prop := c <+: L ∧ L[3]? ≠ some 45

/-- **A reply**: a line, or a block with the line of its code that comes first. -/
inductive Reply (c : Text) : List Text → Text → Prop where
  | line {L : Text} (h : Line c L) : Reply c [L] L
  | block {L N : Text} {ms : List Text} (ho : c ++ [45] <+: L) (hm : ∀ M ∈ ms, ¬ Line c M)
    (h : Line c N) :
    Reply c (L :: ms ++ [N]) N

/-- The lines at the beginning of the connection, and what is behind them. -/
inductive Reads : Text → List Text → Text → Prop where
  | nil (l : Text) : Reads l [] l
  | cons {l L t u : Text} {ls : List Text} (h : scan l = (L, some t)) (hr : Reads t ls u) :
    Reads l (L :: ls) u

/-- From the first digit after the code up to the `)` or the end of the line. -/
def textOf (N : Text) : Text := (digits N).takeWhile kept

/-- **What is left of a reply.** -/
structure Served (old : Vector UInt8 64) (c N t : Text) (r : Result) : Prop where
  rest : r.rest = t
  ret : c.head?.map (fun b => (digit b : ℤ)) = some r.ret
  code : r.code = value 0 c
  reply : r.last.cp = N.take 8191
  pasv : Passive (value 0 c) → digits N ≠ [] →
    r.last.pt = textOf N ∧ (r.last.pasv old.toList)[(textOf N).length]? = some 0

/-- A call stays inside of the arrays and returns the reply that it reads, with `old` in `pasv`. -/
def Meets (expecteof : Bool) (old : Vector UInt8 64) (l : Text) : Prop :=
  (getreply expecteof start l).last.Inside ∧ ∀ c ls N t, Code c → Reply c ls N → Reads l ls t →
    Served old c N t (getreply expecteof start l)

/-! ### The characters of a line -/

section
open List

def Loop.eol (expecteof : Bool) (s : Loop) : Option Text → Result
  | none => s.eof expecteof
  | some t => if s.GoesOn then getreply expecteof s.next t else s.done t

theorem scan_char {c : UInt8} (h : c ≠ 255) (hn : c ≠ 10) (l : Text) :
    scan (c :: l) = (scan l).map (c :: ·) id := by
  rw [scan.eq_def]
  dsimp only
  rw [if_neg h, if_neg hn]

theorem getreply_scan (expecteof : Bool) (s : Loop) (l : Text) :
    getreply expecteof s l = ((scan l).1.foldl Loop.char s).eol expecteof (scan l).2 := by
  fun_induction scan l generalizing s with
  | case1 => rfl
  | case2 => rfl
  | case3 b hb =>
    rw [getreply, if_pos rfl]
    exact if_pos hb
  | case4 b hb o l ih =>
    rw [getreply, if_pos rfl]
    exact (if_pos hb).trans (ih s)
  | case5 b l hb ih =>
    rw [getreply.eq_def]
    exact (if_neg hb).trans (ih s)
  | case6 l h =>
    rw [getreply.eq_def]
    rfl
  | case7 c l h1 h2 ih =>
    rw [getreply.eq_def]
    dsimp only
    rw [if_neg h1, if_neg h2, ih]
    rfl

theorem lines_scan (l : Text) : lines l = (scan l).1 :: match (scan l).2 with
    | none => []
    | some t => lines t := by
  fun_induction scan l with
  | case1 => rfl
  | case2 => rfl
  | case3 b hb =>
    rw [lines, if_pos rfl]
    exact if_pos hb
  | case4 b hb o l ih =>
    rw [lines, if_pos rfl]
    exact (if_pos hb).trans ih
  | case5 b l hb ih =>
    rw [lines.eq_def]
    exact (if_neg hb).trans ih
  | case6 l h =>
    rw [lines.eq_def]
    rfl
  | case7 c l h1 h2 ih =>
    rw [lines.eq_def]
    dsimp only
    rw [if_neg h1, if_neg h2, ih]
    rfl

theorem length_scan {l L t : Text} (h : scan l = (L, some t)) : t.length < l.length := by
  fun_induction scan l generalizing L with
  | case1 => cases h
  | case2 => cases h
  | case3 b hb => cases h
  | case4 b hb o l ih =>
    have := ih h
    simp only [length_cons]
    omega
  | case5 b l hb ih =>
    have := ih h
    simp only [length_cons]
    omega
  | case6 l h' =>
    cases h
    simp
  | case7 c l h1 h2 ih =>
    obtain ⟨hL, ht⟩ := Prod.mk.inj h
    have := ih (Prod.ext rfl ht)
    simp only [length_cons]
    omega

theorem scan_induction {P : Text → Prop} (last : ∀ l L, scan l = (L, none) → P l)
    (more : ∀ l L t, scan l = (L, some t) → P t → P l) (l : Text) : P l := by
  induction hn : l.length using Nat.strong_induction_on generalizing l with
  | _ n ih =>
    rcases hl : scan l with ⟨L, - | t⟩
    · exact last l L hl
    · exact more l L t hl (ih t.length (hn ▸ length_scan hl) t rfl)

/-! ### What a line leaves -/

section
variable (s : Loop) (L : Text)

theorem dig_line : (L.foldl Loop.char s).dig = s.dig + L.length := by
  induction L generalizing s with
  | nil => rfl
  | cons c L ih =>
    rw [foldl_cons, ih, length_cons]
    exact add_right_comm s.dig 1 L.length

theorem originalcode_line : (L.foldl Loop.char s).originalcode = s.originalcode := by
  induction L generalizing s with
  | nil => rfl
  | cons c L ih => exact ih (s.char c)

theorem n_line (h : s.n ≠ 0) : (L.foldl Loop.char s).n = s.n := by
  induction L generalizing s with
  | nil => rfl
  | cons c L ih =>
    have hc : (s.char c).n = s.n := if_neg h
    rw [foldl_cons, ih _ (hc ▸ h), hc]

theorem cp_line (h : s.cp.length ≤ 8191) : (L.foldl Loop.char s).cp = (s.cp ++ L).take 8191 := by
  induction L generalizing s with
  | nil => rw [append_nil, take_of_length_le h, foldl_nil]
  | cons c L ih =>
    rw [foldl_cons]
    by_cases hl : s.cp.length < 8191
    · have hc : (s.char c).cp = s.cp ++ [c] := if_pos hl
      rw [ih _ (by rw [hc, length_append]; exact hl), hc, append_assoc, singleton_append]
    · have hc : (s.char c).cp = s.cp := if_neg hl
      have hle : 8191 ≤ s.cp.length := by omega
      rw [ih _ (hc ▸ h), hc, take_append_of_le_length hle, take_append_of_le_length hle]

end

theorem code_columns {L : Text} (h : s.dig + L.length ≤ 3) :
    (L.foldl Loop.char s).code = L.foldl (fun k c => if isDigit c then 10 * k + digit c
      else k) s.code ∧ (L.foldl Loop.char s).continuation = s.continuation := by
  induction L generalizing s with
  | nil => exact ⟨rfl, rfl⟩
  | cons c L ih =>
    rw [length_cons] at h
    have h4 : ¬ s.dig + 1 = 4 := by omega
    have hcode : (s.char c).code = if isDigit c then 10 * s.code + digit c else s.code := by
      have hn : (s.char c).code = s.number c := if_neg fun hc => h4 hc.1
      rw [hn]
      unfold Loop.number
      simp only [show s.dig + 1 < 4 by omega, true_and]
    have hcont : (s.char c).continuation = s.continuation := if_neg fun hc => h4 hc.1
    obtain ⟨h1, h2⟩ := ih (s := s.char c) (by change s.dig + 1 + L.length ≤ 3; omega)
    exact ⟨by rw [foldl_cons, h1, hcode, foldl_cons], by rw [foldl_cons, h2, hcont]⟩

theorem code_text (h : 4 ≤ s.dig) (L : Text) :
    (L.foldl Loop.char s).code = s.code ∧ (L.foldl Loop.char s).continuation = s.continuation := by
  induction L generalizing s with
  | nil => exact ⟨rfl, rfl⟩
  | cons c L ih =>
    have h4 : ¬ s.dig + 1 = 4 := by omega
    have hcode : (s.char c).code = s.code :=
      (if_neg fun hc => h4 hc.1).trans (if_neg fun hc => absurd hc.1 (by omega))
    have hcont : (s.char c).continuation = s.continuation := if_neg fun hc => h4 hc.1
    obtain ⟨h1, h2⟩ := ih (s := s.char c) (Nat.le_succ_of_le h)
    exact ⟨h1.trans hcode, h2.trans hcont⟩

/-- **The code of a line**, and whether it has the dash. -/
theorem code_line (hd : s.dig = 0) (hc : s.code = 0) (L : Text) :
    (L.foldl Loop.char s).code = (if L[3]? = some 45 ∧ s.continuation ≠ 0 then 0 else codeOf L) ∧
      (L.foldl Loop.char s).continuation =
        if L[3]? = some 45 then s.continuation + 1 else s.continuation := by
  have hsplit :
      L.foldl Loop.char s = (L.drop 3).foldl Loop.char ((L.take 3).foldl Loop.char s) := by
    rw [← foldl_append, take_append_drop]
  have hlen : (L.take 3).length ≤ 3 := length_take_le 3 L
  obtain ⟨h1, h2⟩ := code_columns (s := s) (L := L.take 3) (by omega)
  have h0 := dig_line s (L.take 3)
  rw [hc] at h1
  rw [hsplit]
  rcases hdrop : L.drop 3 with - | ⟨b, L'⟩
  · have h3 : L[3]? = none := by
      rw [getElem?_eq_none_iff]
      exact drop_eq_nil_iff.1 hdrop
    simp only [h3, reduceCtorEq, false_and, if_false, foldl_nil]
    exact ⟨h1, h2⟩
  · have h3 : L[3]? = some b := by
      rw [← head?_drop, hdrop]
      rfl
    have hl3 : (L.take 3).length = 3 := by
      have := congrArg List.length hdrop
      rw [length_drop, length_cons] at this
      rw [length_take]
      omega
    have hdig : ((L.take 3).foldl Loop.char s).dig + 1 = 4 := by omega
    obtain ⟨ht1, ht2⟩ := code_text (s := ((L.take 3).foldl Loop.char s).char b) (by
      change 4 ≤ ((L.take 3).foldl Loop.char s).dig + 1
      omega) L'
    rw [foldl_cons, ht1, ht2, h3]
    simp only [Loop.char, Loop.number, hdig, lt_irrefl, false_and, if_false, h1, h2, true_and,
      Option.some.injEq]
    exact ⟨rfl, trivial⟩

/-! ### What is stored in `pasv` -/

/-- `s'` is `s` behind a text from the first digit on. -/
structure Took (s : Loop) (T : Text) (s' : Loop) : Prop where
  pt : s'.pt = s.pt ++ T.takeWhile kept
  pflag : s'.pflag = if T.all kept then 2 else 3

structure Same (s s' : Loop) : Prop where
  pt : s'.pt = s.pt
  pflag : s'.pflag = s.pflag

theorem Same.trans {s1 s2 : Loop} (h : Same s s1) (h' : Same s1 s2) : Same s s2 :=
  ⟨h'.pt.trans h.pt, h'.pflag.trans h.pflag⟩

theorem Same.took {s1 s2 : Loop} {T : Text} (h : Same s s1) (h' : Took s1 T s2) : Took s T s2 :=
  ⟨h.pt ▸ h'.pt, h'.pflag⟩

theorem Took.trans {s1 s2 : Loop} {T T' : Text} (h : Took s T s1)
    (hw : s1.pflag = 2 → Took s1 T' s2) (ho : s1.pflag = 3 → Same s1 s2) : Took s (T ++ T') s2 := by
  rcases hT : T.all kept with - | -
  · have h3 : s1.pflag = 3 := by rw [h.pflag, hT]; rfl
    obtain ⟨hpt, hpf⟩ := ho h3
    constructor
    · rw [hpt, h.pt, takeWhile_append, if_neg fun hl => ?_]
      have := takeWhile_eq_self_iff.1 ((List.takeWhile_prefix kept).eq_of_length hl)
      rw [all_eq_false] at hT
      obtain ⟨b, hb, hk⟩ := hT
      exact hk (this b hb)
    · rw [hpf, h3, all_append, hT]
      rfl
  · obtain ⟨hpt, hpf⟩ := hw (by rw [h.pflag, hT]; rfl)
    have hall : ∀ b ∈ T, kept b := all_eq_true.1 hT
    constructor
    · rw [hpt, h.pt, takeWhile_append_of_pos hall, takeWhile_eq_self_iff.2 hall, append_assoc]
    · rw [hpf, all_append, hT, Bool.true_and]

theorem took_char {c : UInt8} (h : s.found c = 2) : Took s [c] (s.char c) := by
  constructor
  · change (if s.found c = 2 ∧ kept c then s.pt ++ [c] else s.pt) = _
    rcases hc : kept c with - | - <;> simp [h, hc]
  · change (if s.found c = 2 ∧ kept c = false then 3 else s.found c) = _
    rcases hc : kept c with - | - <;> simp [h, hc]

theorem same_char {c : UInt8} (h : s.found c = s.pflag) (h2 : s.pflag ≠ 2) : Same s (s.char c) := by
  have hf : ¬ s.found c = 2 := h ▸ h2
  exact ⟨if_neg fun hc => hf hc.1, (if_neg fun hc => hf hc.1).trans h⟩

theorem found_of_ne (h0 : s.pflag ≠ 0) (h1 : s.pflag ≠ 1) (c : UInt8) : s.found c = s.pflag := by
  have hp : s.passive c = s.pflag := if_neg fun hc => h0 hc.1
  unfold Loop.found
  rw [hp, if_neg fun hc => h1 hc.2.1]

theorem over_line (h : s.pflag = 3) (L : Text) : Same s (L.foldl Loop.char s) := by
  induction L generalizing s with
  | nil => exact ⟨rfl, rfl⟩
  | cons c L ih =>
    have hc : Same s (s.char c) := same_char (found_of_ne (by omega) (by omega) c) (by omega)
    exact hc.trans (ih (hc.pflag.trans h))

theorem within_line (h : s.pflag = 2) (L : Text) : Took s L (L.foldl Loop.char s) := by
  induction L generalizing s with
  | nil => exact ⟨(append_nil _).symm, h⟩
  | cons c L ih =>
    have hc : Took s [c] (s.char c) := took_char ((found_of_ne (by omega) (by omega) c).trans h)
    exact hc.trans ih fun h3 => over_line h3 L

/-- **From the first digit on**, behind the fourth column. -/
theorem search_line (h : s.pflag = 1) (L : Text) :
    ((L.drop (4 - s.dig)).dropWhile (fun c => !isDigit c) = [] → Same s (L.foldl Loop.char s)) ∧
      ((L.drop (4 - s.dig)).dropWhile (fun c => !isDigit c) ≠ [] →
        Took s ((L.drop (4 - s.dig)).dropWhile fun c => !isDigit c) (L.foldl Loop.char s)) := by
  induction L generalizing s with
  | nil => exact ⟨fun _ => ⟨rfl, rfl⟩, fun h => absurd (by rw [drop_nil]; rfl) h⟩
  | cons c L ih =>
    have hp : s.passive c = 1 := (if_neg fun hc => absurd hc.1 (by omega)).trans h
    by_cases hd : 4 ≤ s.dig
    · have h4 : 4 - s.dig = 0 := by omega
      rw [h4, drop_zero]
      rcases hc : isDigit c with - | -
      · have hf : s.found c = s.pflag := by
          rw [h]
          exact (if_neg fun hx => absurd hx.2.2 (by rw [hc]; decide)).trans hp
        have hs : Same s (s.char c) := same_char hf (by omega)
        have h4' : 4 - (s.char c).dig = 0 := by change 4 - (s.dig + 1) = 0; omega
        obtain ⟨h1, h2⟩ := ih (hs.pflag.trans h)
        rw [h4', drop_zero] at h1 h2
        rw [dropWhile_cons_of_pos (by rw [hc]; rfl)]
        exact ⟨fun h => hs.trans (h1 h), fun h => hs.took (h2 h)⟩
      · have hf : s.found c = 2 := if_pos ⟨by omega, hp, hc⟩
        rw [dropWhile_cons_of_neg (by rw [hc]; decide)]
        refine ⟨fun h => absurd h (cons_ne_nil c L), fun _ => ?_⟩
        exact (took_char hf).trans (fun h2 => within_line h2 L) fun h3 => over_line h3 L
    · have hf : s.found c = s.pflag := by
        rw [h]
        exact (if_neg fun hx => absurd hx.1 (by omega)).trans hp
      have hs : Same s (s.char c) := same_char hf (by omega)
      have h4 : 4 - s.dig = 4 - (s.char c).dig + 1 := by change _ = 4 - (s.dig + 1) + 1; omega
      obtain ⟨h1, h2⟩ := ih (hs.pflag.trans h)
      rw [h4, drop_succ_cons]
      exact ⟨fun h => hs.trans (h1 h), fun h => hs.took (h2 h)⟩

theorem never_line (h : s.pflag = 0) (hd : 3 ≤ s.dig) (hc : ¬ Passive s.code) (L : Text) :
    Same s (L.foldl Loop.char s) := by
  induction L generalizing s with
  | nil => exact ⟨rfl, rfl⟩
  | cons c L ih =>
    have hn : s.number c = s.code := if_neg fun hx => absurd hx.1 (by omega)
    have hp : s.passive c = 0 := (if_neg fun hx => hc (hn ▸ hx.2)).trans h
    have hf : s.found c = s.pflag := by
      rw [h]
      exact (if_neg fun hx => absurd (hp.symm.trans hx.2.1) (by decide)).trans hp
    have hs : Same s (s.char c) := same_char hf (by omega)
    have hc' : ¬ Passive (s.char c).code := by
      change ¬ Passive (if s.dig + 1 = 4 ∧ c = 45 ∧ s.continuation ≠ 0 then 0 else s.number c)
      split
      · decide
      · rw [hn]; exact hc
    exact hs.trans (ih (hs.pflag.trans h) (Nat.le_succ_of_le hd) hc')

theorem digit_lt {c : UInt8} (h : isDigit c) : digit c < 10 := by
  unfold isDigit at h
  unfold digit
  simp only [Bool.and_eq_true, decide_eq_true_eq] at h
  omega

theorem early_line (h : s.pflag = 0) (hc : s.code < 10 ^ s.dig) {L : Text}
    (hd : s.dig + L.length ≤ 2) :
    Same s (L.foldl Loop.char s) ∧ (L.foldl Loop.char s).code < 100 := by
  induction L generalizing s with
  | nil =>
    refine ⟨⟨rfl, rfl⟩, lt_of_lt_of_le hc ?_⟩
    exact Nat.pow_le_pow_right (by decide) hd
  | cons c L ih =>
    rw [length_cons] at hd
    have hn : s.number c < 10 ^ (s.dig + 1) := by
      rw [pow_succ]
      unfold Loop.number
      split
      next hx =>
        have := digit_lt hx.2
        omega
      · omega
    have hlt : s.number c < 100 :=
      lt_of_lt_of_le hn (Nat.pow_le_pow_right (by decide) (by omega : _ ≤ 2))
    have hp : s.passive c = 0 := by
      refine (if_neg fun hx => ?_).trans h
      rcases hx.2 with hx | hx | hx <;> omega
    have hf : s.found c = s.pflag := by
      rw [h]
      exact (if_neg fun hx => absurd hx.1 (by omega)).trans hp
    have hs : Same s (s.char c) := same_char hf (by omega)
    have hcode : (s.char c).code = s.number c := if_neg fun hx => absurd hx.1 (by omega)
    obtain ⟨h1, h2⟩ := ih (s := s.char c) (hs.pflag.trans h) (hcode ▸ hn) (by
      change s.dig + 1 + L.length ≤ 2
      omega)
    exact ⟨hs.trans h1, h2⟩

theorem fresh_line (h : s.pflag = 0) (hd : s.dig = 0) (hc : s.code = 0) (L : Text) :
    (¬ Passive (codeOf L) → Same s (L.foldl Loop.char s)) ∧
      (Passive (codeOf L) → digits L = [] →
        (L.foldl Loop.char s).pt = s.pt ∧ (L.foldl Loop.char s).pflag = 1) ∧
      (Passive (codeOf L) → digits L ≠ [] → Took s (digits L) (L.foldl Loop.char s)) := by
  have hlen : (L.take 2).length ≤ 2 := length_take_le 2 L
  obtain ⟨hs, hlt⟩ :=
    early_line (L := L.take 2) h (by rw [hc]; exact Nat.pow_pos (by decide)) (by omega)
  obtain ⟨hcode, -⟩ := code_columns (s := s) (L := L.take 2) (by omega)
  rw [hc] at hcode
  have hsplit :
      L.foldl Loop.char s = (L.drop 2).foldl Loop.char ((L.take 2).foldl Loop.char s) := by
    rw [← foldl_append, take_append_drop]
  rcases hdrop : L.drop 2 with - | ⟨c, L'⟩
  · have htake : L.take 2 = L := take_of_length_le (drop_eq_nil_iff.1 hdrop)
    have htake3 :
        L.take 3 = L.take 2 := by rw [htake, take_of_length_le (Nat.le_succ_of_le (htake ▸ hlen))]
    have hnot : ¬ Passive (codeOf L) := by
      unfold codeOf
      rw [htake3, ← hcode]
      rintro (hx | hx | hx) <;> omega
    rw [htake] at hs
    exact ⟨fun _ => hs, fun hx => absurd hx hnot, fun hx => absurd hx hnot⟩
  · obtain ⟨s2, hs2⟩ : ∃ s2, s2 = (L.take 2).foldl Loop.char s := ⟨_, rfl⟩
    have hL : L = L.take 2 ++ c :: L' := by rw [← hdrop, take_append_drop]
    have hl2 : (L.take 2).length = 2 := by
      have := congrArg List.length hdrop
      rw [length_drop, length_cons] at this
      rw [length_take]
      omega
    have hd2 : s2.dig = 2 := by rw [hs2, dig_line, hd, hl2]
    rw [hsplit, hdrop, foldl_cons, ← hs2]
    rw [← hs2] at hs hcode
    have hnum : s2.number c = codeOf L := by
      have htake3 : L.take 3 = L.take 2 ++ [c] := by
        conv_lhs => rw [hL]
        rw [take_append, hl2, take_of_length_le (by omega)]
        rfl
      unfold Loop.number codeOf
      rw [htake3, foldl_append, ← hcode, hd2]
      simp
    have hdigits : digits L = (L'.drop 1).dropWhile fun c => !isDigit c := by
      unfold digits
      conv_lhs => rw [hL]
      rw [drop_append, hl2, drop_eq_nil_of_le (by omega)]
      rfl
    have h2 : s2.pflag = 0 := hs.pflag.trans h
    have hcode2 : (s2.char c).code = s2.number c := if_neg fun hx => absurd hx.1 (by omega)
    have hdig : (s2.char c).dig = 3 := by change s2.dig + 1 = 3; omega
    by_cases hP : Passive (codeOf L)
    · have hp : s2.passive c = 1 := if_pos ⟨h2, hnum ▸ hP⟩
      have hf : s2.found c = 1 := (if_neg fun hx => absurd hx.1 (by omega)).trans hp
      have hpf : (s2.char c).pflag = 1 :=
        (if_neg fun hx => absurd (hf.symm.trans hx.1) (by decide)).trans hf
      have hpt : (s2.char c).pt = s.pt :=
        (if_neg fun hx => absurd (hf.symm.trans hx.1) (by decide)).trans hs.pt
      obtain ⟨h3, h4⟩ := search_line hpf L'
      rw [hdig] at h3 h4
      refine ⟨fun hx => absurd hP hx, fun _ hn => ?_, fun _ hn => ?_⟩
      · have := h3 (hdigits ▸ hn)
        exact ⟨this.pt.trans hpt, this.pflag.trans hpf⟩
      · have := h4 (hdigits ▸ hn)
        rw [hdigits]
        exact ⟨hpt ▸ this.pt, this.pflag⟩
    · have hp : s2.passive c = 0 := (if_neg fun hx => hP (hnum ▸ hx.2)).trans h2
      have hf : s2.found c = s2.pflag := by
        rw [h2]
        exact (if_neg fun hx => absurd (hp.symm.trans hx.2.1) (by decide)).trans hp
      have hs3 : Same s2 (s2.char c) := same_char hf (by omega)
      have hs4 := never_line (hs3.pflag.trans h2) (by omega) (by rw [hcode2, hnum]; exact hP) L'
      exact ⟨fun _ => hs.trans (hs3.trans hs4), fun hx => absurd hx hP, fun hx => absurd hx hP⟩

/-! ### Line after line -/

def Loop.readAll (s : Loop) : List Text → Loop
  | [] => s
  | [L] => L.foldl char s
  | L :: ls => (L.foldl char s).next.readAll ls

theorem readAll_cons (s : Loop) (L : Text) (h : ls ≠ []) :
    s.readAll (L :: ls) = (L.foldl Loop.char s).next.readAll ls := by
  rcases ls with - | ⟨M, ls⟩
  · exact absurd rfl h
  · rfl

theorem same_next (s : Loop) : Same s s.next := ⟨rfl, rfl⟩

theorem over_lines (h : s.pflag = 3) (ls : List Text) : Same s (s.readAll ls) := by
  fun_induction Loop.readAll s ls with
  | case1 s => exact ⟨rfl, rfl⟩
  | case2 s L => exact over_line h L
  | case3 s L ls hne ih =>
    have hs := (over_line h L).trans (same_next _)
    exact hs.trans (ih (hs.pflag.trans h))

theorem Took.next {s' : Loop} {T : Text} (h : Took s T s') : Took s T s'.next := ⟨h.pt, h.pflag⟩

theorem within_lines (h : s.pflag = 2) (ls : List Text) : Took s ls.flatten (s.readAll ls) := by
  fun_induction Loop.readAll s ls with
  | case1 s => exact ⟨(append_nil _).symm, h⟩
  | case2 s L =>
    rw [flatten_cons, flatten_nil, append_nil]
    exact within_line h L
  | case3 s L ls hne ih =>
    rw [flatten_cons]
    exact (within_line h L).next.trans ih fun h3 => over_lines h3 ls

theorem took_lines {L T : Text} (h : Took s T (L.foldl Loop.char s)) (ls : List Text) :
    Took s (T ++ ls.flatten) (s.readAll (L :: ls)) := by
  rcases eq_or_ne ls [] with rfl | hls
  · rw [flatten_nil, append_nil]
    exact h
  · rw [readAll_cons s L hls]
    exact h.next.trans (fun h2 => within_lines h2 ls) fun h3 => over_lines h3 ls

theorem address_cons (L : Text) (ls : List Text) :
    address (L :: ls) = if digits L = [] then address ls else digits L ++ ls.flatten := rfl

theorem search_lines (h : s.pflag = 1) (hd : s.dig = 0) (ls : List Text) :
    (address ls = [] → Same s (s.readAll ls)) ∧
    (address ls ≠ [] → Took s (address ls) (s.readAll ls)) := by
  induction ls generalizing s with
  | nil => exact ⟨fun _ => ⟨rfl, rfl⟩, fun h => absurd rfl h⟩
  | cons L ls ih =>
    obtain ⟨h1, h2⟩ := search_line h L
    rw [hd] at h1 h2
    rw [address_cons]
    split
    next hL =>
      have hs := h1 hL
      rcases eq_or_ne ls [] with rfl | hls
      · exact ⟨fun _ => hs, fun h => absurd rfl h⟩
      · have hn := hs.trans (same_next _)
        obtain ⟨h3, h4⟩ := ih (hn.pflag.trans h) rfl
        rw [readAll_cons s L hls]
        exact ⟨fun h => hn.trans (h3 h), fun h => hn.took (h4 h)⟩
    next hL =>
      exact ⟨fun h => absurd (append_eq_nil_iff.1 h).1 hL, fun _ => took_lines (h2 hL) ls⟩

theorem captured_cons (L : Text) (ls : List Text) :
    captured (L :: ls) = if Passive (codeOf L) then address (L :: ls) else captured ls := by
  unfold captured
  by_cases hL : Passive (codeOf L)
  · rw [dropWhile_cons_of_neg (by simp [hL]), if_pos hL]
  · rw [dropWhile_cons_of_pos (by simp [hL]), if_neg hL]

theorem fresh_lines (h : s.pflag = 0) (hd : s.dig = 0) (hc : s.code = 0) (ls : List Text) :
    (captured ls = [] → (s.readAll ls).pt = s.pt ∧ (s.readAll ls).pflag ≠ 3) ∧
      (captured ls ≠ [] → Took s (captured ls) (s.readAll ls)) := by
  induction ls generalizing s with
  | nil => exact ⟨fun _ => ⟨rfl, by rw [Loop.readAll, h]; decide⟩, fun h => absurd rfl h⟩
  | cons L ls ih =>
    obtain ⟨h1, h2, h3⟩ := fresh_line h hd hc L
    rw [captured_cons]
    split
    next hL =>
      rw [address_cons]
      split
      next hdig =>
        obtain ⟨hpt, hpf⟩ := h2 hL hdig
        rcases eq_or_ne ls [] with rfl | hls
        · exact ⟨fun _ => ⟨hpt, by rw [Loop.readAll, hpf]; decide⟩, fun h => absurd rfl h⟩
        · obtain ⟨h4, h5⟩ := search_lines (s := (L.foldl Loop.char s).next) hpf rfl ls
          rw [readAll_cons s L hls]
          refine ⟨fun h => ?_, fun h => ?_⟩
          · have := h4 h
            exact ⟨this.pt.trans hpt, by rw [this.pflag]; exact ne_of_eq_of_ne hpf (by decide)⟩
          · have := h5 h
            exact ⟨hpt ▸ this.pt, this.pflag⟩
      next hdig =>
        exact ⟨fun h => absurd (append_eq_nil_iff.1 h).1 hdig, fun _ => took_lines (h3 hL hdig) ls⟩
    next hL =>
      have hs := h1 hL
      rcases eq_or_ne ls [] with rfl | hls
      · refine ⟨fun _ => ⟨hs.pt, ?_⟩, fun h => absurd rfl h⟩
        rw [Loop.readAll, hs.pflag, h]
        decide
      · have hn := hs.trans (same_next _)
        obtain ⟨h4, h5⟩ := ih (s := (L.foldl Loop.char s).next) (hn.pflag.trans h) rfl rfl
        rw [readAll_cons s L hls]
        exact ⟨fun h => ⟨(h4 h).1.trans hn.pt, (h4 h).2⟩, fun h => hn.took (h5 h)⟩

/-- **What is stored**: the text from the first digit after the code, and a NUL where it has an
end. -/
theorem stored_lines (ls : List Text) :
    (start.readAll ls).pt = (captured ls).takeWhile kept ∧
      ((start.readAll ls).pflag = 3 ↔ ∃ b ∈ captured ls, kept b = false) := by
  obtain ⟨h1, h2⟩ := fresh_lines (s := start) rfl rfl rfl ls
  rcases eq_or_ne (captured ls) [] with h | h
  · obtain ⟨hpt, hpf⟩ := h1 h
    rw [h, hpt]
    exact ⟨rfl, fun h3 => absurd h3 hpf, fun ⟨b, hb, _⟩ => absurd hb not_mem_nil⟩
  · obtain ⟨hpt, hpf⟩ := h2 h
    refine ⟨hpt, ?_⟩
    rw [hpf]
    rcases hall : (captured ls).all kept with - | -
    · rw [all_eq_false] at hall
      obtain ⟨b, hb, hk⟩ := hall
      exact ⟨fun _ => ⟨b, hb, Bool.eq_false_iff.2 hk⟩, fun _ => rfl⟩
    · rw [all_eq_true] at hall
      exact ⟨fun h => absurd h (by decide),
        fun ⟨b, hb, hk⟩ => absurd (hall b hb) (by rw [hk]; decide)⟩

theorem cp_lines (h : s.cp.length ≤ 8191) (ls : List Text) : (s.readAll ls).cp.length ≤ 8191 := by
  fun_induction Loop.readAll s ls with
  | case1 s => exact h
  | case2 s L =>
    rw [cp_line s L h]
    exact length_take_le _ _
  | case3 s L ls hne ih => exact ih (Nat.zero_le _)

/-! ### Where a reply ends -/

theorem last_eof (expecteof : Bool) (s : Loop) : (s.eof expecteof).last = s := by
  unfold Loop.eof
  split <;> rfl

theorem lines_ne_nil (l : Text) : lines l ≠ [] := by
  rw [lines_scan]
  exact cons_ne_nil _ _

structure Loop.Blocked (s : Loop) (k : ℕ) : Prop where
  dig : s.dig = 0
  code : s.code = 0
  continuation : s.continuation ≠ 0
  originalcode : s.originalcode = k

section
variable {s : Loop} {k : ℕ} (hk : k ≠ 0)
include hk

theorem goesOn_blocked (h : s.Blocked k) (L : Text) :
    (L.foldl Loop.char s).GoesOn ↔ ¬ (L[3]? ≠ some 45 ∧ codeOf L = k) := by
  obtain ⟨h1, h2⟩ := code_line h.dig h.code L
  unfold Loop.GoesOn
  rw [h1, h2, originalcode_line, h.originalcode]
  have hcont := h.continuation
  by_cases hL : L[3]? = some 45
  · simp only [hL, true_and, ne_eq, hcont, not_false_eq_true, if_true, not_true,
      false_and, iff_true]
    exact ⟨Nat.succ_ne_zero _, Ne.symm hk⟩
  · simp only [hL, false_and, if_false, ne_eq, hcont, not_false_eq_true, true_and]

theorem blocked_next (h : s.Blocked k) (L : Text) : (L.foldl Loop.char s).next.Blocked k := by
  obtain ⟨h1, h2⟩ := code_line h.dig h.code L
  refine ⟨rfl, rfl, ?_, ?_⟩
  · change (L.foldl Loop.char s).continuation ≠ 0
    have := h.continuation
    rw [h2]
    split <;> omega
  · change (if (L.foldl Loop.char s).originalcode = 0 then _
      else (L.foldl Loop.char s).originalcode) = k
    rw [originalcode_line, h.originalcode, if_neg hk]

omit hk in
theorem block_cons (L : Text) (ls : List Text) :
    block k (L :: ls) = if L[3]? ≠ some 45 ∧ codeOf L = k then [L] else L :: block k ls := rfl

omit hk in
theorem block_ne_nil (h : ls ≠ []) : block k ls ≠ [] := by
  rcases ls with - | ⟨L, ls⟩
  · exact absurd rfl h
  · rw [block_cons]
    split <;> exact cons_ne_nil _ _

theorem block_last (expecteof : Bool) (h : s.Blocked k) (l : Text) :
    (getreply expecteof s l).last = s.readAll (block k (lines l)) := by
  induction l using scan_induction generalizing s with
  | last l L hl =>
    rw [getreply_scan, lines_scan, hl, block_cons]
    simp only [Loop.eol, last_eof]
    split <;> rfl
  | more l L t hl ih =>
    rw [getreply_scan, lines_scan, hl, block_cons]
    simp only [Loop.eol]
    by_cases hg : (L.foldl Loop.char s).GoesOn
    · rw [if_pos hg, if_neg ((goesOn_blocked hk h L).1 hg), ih (blocked_next hk h L),
        readAll_cons s L (block_ne_nil (lines_ne_nil t))]
    · rw [if_neg hg, if_pos (not_not.1 (mt (goesOn_blocked hk h L).2 hg))]
      rfl

theorem getreply_block (expecteof : Bool) (h : s.Blocked k) {ms : List Text} {N : Text}
    (hm : ∀ M ∈ ms, ¬ (M[3]? ≠ some 45 ∧ codeOf M = k)) (hN : N[3]? ≠ some 45 ∧ codeOf N = k)
    {l t : Text}
    (hr : Reads l (ms ++ [N]) t) : getreply expecteof s l = (s.readAll (ms ++ [N])).done t := by
  induction ms generalizing s l with
  | nil =>
    rcases hr with - | ⟨hl, hr⟩
    cases hr
    rw [getreply_scan, hl]
    simp only [Loop.eol]
    rw [if_neg fun hg => (goesOn_blocked hk h N).1 hg hN]
    rfl
  | cons M ms ih =>
    rcases hr with - | ⟨hl, hr⟩
    have hg := (goesOn_blocked hk h M).2 (hm M mem_cons_self)
    rw [getreply_scan, hl]
    simp only [Loop.eol]
    rw [if_pos hg, ih (blocked_next hk h M) (fun M' hM' => hm M' (mem_cons_of_mem _ hM')) hr]
    rw [cons_append, readAll_cons s M (append_ne_nil_of_right_ne_nil ms (cons_ne_nil N []))]

end

theorem goesOn_start (L : Text) : (L.foldl Loop.char start).GoesOn ↔
    L[3]? = some 45 ∧ codeOf L ≠ 0 := by
  obtain ⟨h1, h2⟩ := code_line (s := start) rfl rfl L
  unfold Loop.GoesOn
  rw [h1, h2, originalcode_line]
  by_cases hL : L[3]? = some 45 <;> simp [hL, start]

theorem blocked_start {L : Text} (h : L[3]? = some 45 ∧ codeOf L ≠ 0) :
    (L.foldl Loop.char start).next.Blocked (codeOf L) := by
  obtain ⟨h1, h2⟩ := code_line (s := start) rfl rfl L
  have hcode : (L.foldl Loop.char start).code = codeOf L := by rw [h1, if_neg fun hx => hx.2 rfl]
  refine ⟨rfl, rfl, ?_, ?_⟩
  · change (L.foldl Loop.char start).continuation ≠ 0
    rw [h2, if_pos h.1]
    exact Nat.succ_ne_zero _
  · change (if (L.foldl Loop.char start).originalcode = 0 then _ else _) = _
    rw [originalcode_line]
    exact (if_pos rfl).trans hcode

theorem consumed_cons (L : Text) (ls : List Text) : consumed (L :: ls) =
    if L[3]? = some 45 ∧ codeOf L ≠ 0 then L :: block (codeOf L) ls else [L] := rfl

theorem getreply_last (expecteof : Bool) (l : Text) :
    (getreply expecteof start l).last = start.readAll (consumed (lines l)) := by
  rcases hl : scan l with ⟨L, - | t⟩
  · rw [getreply_scan, lines_scan, hl, consumed_cons]
    simp only [Loop.eol, last_eof]
    split <;> rfl
  · rw [getreply_scan, lines_scan, hl, consumed_cons]
    simp only [Loop.eol]
    by_cases hg : (L.foldl Loop.char start).GoesOn
    · have hL := (goesOn_start L).1 hg
      rw [if_pos hg, if_pos hL, block_last hL.2 expecteof (blocked_start hL) t,
        readAll_cons start L (block_ne_nil (lines_ne_nil t))]
    · rw [if_neg hg, if_neg (mt (goesOn_start L).2 hg)]
      rfl

/-! ### The code of a reply -/

theorem codeOf_eq (L : Text) : codeOf L = value 0 ((L.take 3).filter isDigit) := by
  unfold codeOf
  generalize 0 = k
  induction L.take 3 generalizing k with
  | nil => rfl
  | cons b p ih =>
    rw [foldl_cons, ih]
    rcases hb : isDigit b with - | -
    · rw [filter_cons_of_neg (by rw [hb]; decide), if_neg (by decide)]
    · rw [filter_cons_of_pos hb, Decimal.value_cons, if_pos rfl]

theorem value_lt {p : Text} (h : ∀ b ∈ p, isDigit b) (k : ℕ) :
    value k p < (k + 1) * 10 ^ p.length := by
  induction p generalizing k with
  | nil => simp
  | cons b p ih =>
    rw [Decimal.value_cons, length_cons, Nat.pow_succ', ← Nat.mul_assoc]
    refine Nat.lt_of_lt_of_le (ih (fun b' hb' => h b' (mem_cons_of_mem _ hb')) _)
      (Nat.mul_le_mul_right _ ?_)
    have := digit_lt (h b mem_cons_self)
    omega

theorem digit_inj {b d : UInt8} (hb : isDigit b) (hd : isDigit d) (h : digit b = digit d) :
    b = d := by
  unfold isDigit at hb hd
  unfold digit at h
  simp only [Bool.and_eq_true, decide_eq_true_eq] at hb hd
  exact UInt8.toNat_inj.1 (by omega)

theorem value_inj {p q : Text} (hp : ∀ b ∈ p, isDigit b) (hq : ∀ b ∈ q, isDigit b)
    (hl : p.length = q.length)
    {k m : ℕ} (h : value k p = value m q) : k = m ∧ p = q := by
  induction p generalizing q k m with
  | nil =>
    obtain rfl : q = [] := eq_nil_of_length_eq_zero hl.symm
    exact ⟨h, rfl⟩
  | cons b p ih =>
    rcases q with - | ⟨d, q⟩
    · cases hl
    · rw [Decimal.value_cons, Decimal.value_cons] at h
      obtain ⟨hkm, rfl⟩ := ih (fun b' hb' => hp b' (mem_cons_of_mem _ hb'))
        (fun b' hb' => hq b' (mem_cons_of_mem _ hb')) (Nat.succ.inj hl) h
      have hb := hp b mem_cons_self
      have hd := hq d mem_cons_self
      have hb9 := digit_lt hb
      have hd9 := digit_lt hd
      obtain rfl : b = d := digit_inj hb hd (by omega)
      exact ⟨by omega, rfl⟩

theorem Code.le_value (hc : Code c) : 100 ≤ value 0 c := by
  obtain ⟨x, y, z, rfl⟩ := length_eq_three.1 hc.len
  have hx := UInt8.le_iff_toNat_le.1 (hc.first x rfl).1
  have h49 : (49 : UInt8).toNat = 49 := rfl
  have hdig : 1 ≤ digit x := by unfold digit; omega
  simp only [Decimal.value_cons, Decimal.value_nil]
  omega

/-- **The number is that of the code** where the line starts with it, and nowhere else. -/
theorem codeOf_iff (hc : Code c) (L : Text) : codeOf L = value 0 c ↔ c <+: L := by
  rw [codeOf_eq]
  constructor
  · intro h
    have hall : ∀ b ∈ (L.take 3).filter isDigit, isDigit b := fun b hb => (mem_filter.1 hb).2
    have hle : ((L.take 3).filter isDigit).length ≤ (L.take 3).length := length_filter_le _ _
    have h3 : (L.take 3).length ≤ 3 := length_take_le 3 L
    have hlen : ((L.take 3).filter isDigit).length = 3 := by
      by_contra hne
      have hlt := value_lt hall 0
      have hpow : 10 ^ ((L.take 3).filter isDigit).length ≤ 10 ^ 2 :=
        Nat.pow_le_pow_right (by decide) (by omega)
      have := hc.le_value
      omega
    have hself : (L.take 3).filter isDigit = L.take 3 := filter_sublist.eq_of_length (by omega)
    obtain ⟨-, rfl⟩ := value_inj hall hc.digits (hlen.trans hc.len.symm) h
    rw [hself]
    exact List.take_prefix 3 L
  · intro h
    have htake : L.take 3 = c := by
      rw [← hc.len]
      exact (prefix_iff_eq_take.1 h).symm
    rw [htake, filter_eq_self.2 hc.digits]

theorem Code.value_ne_zero (hc : Code c) : value 0 c ≠ 0 := by
  have := hc.le_value
  omega

theorem line_iff (hc : Code c) (L : Text) : Line c L ↔ L[3]? ≠ some 45 ∧ codeOf L = value 0 c := by
  rw [codeOf_iff hc]
  exact and_comm

theorem opens {L : Text} (hc : Code c) (h : c ++ [45] <+: L) :
    L[3]? = some 45 ∧ codeOf L = value 0 c := by
  refine ⟨?_, (codeOf_iff hc L).2 ((prefix_append c [45]).trans h)⟩
  obtain ⟨l, rfl⟩ := h
  rw [append_assoc, getElem?_append_right (by rw [hc.len]), hc.len]
  rfl

/-! ### Replies are read -/

theorem readAll_concat (hd : s.dig = 0) (hn : s.n = 0) (hc : s.code = 0) (hcp : s.cp = [])
    (ms : List Text) (N : Text) : ∃ s' : Loop, s'.dig = 0 ∧ s'.n = 0 ∧ s'.code = 0 ∧ s'.cp = [] ∧
      s.readAll (ms ++ [N]) = N.foldl Loop.char s' := by
  induction ms generalizing s with
  | nil => exact ⟨s, hd, hn, hc, hcp, rfl⟩
  | cons M ms ih =>
    rw [cons_append, readAll_cons s M (append_ne_nil_of_right_ne_nil ms (cons_ne_nil N []))]
    exact ih rfl rfl rfl rfl

theorem getreply_of_reply (expecteof : Bool) {N l t : Text} (hc : Code c) (h : Reply c ls N)
    (hr : Reads l ls t) : getreply expecteof start l = (start.readAll ls).done t := by
  cases h with
  | line hL =>
    cases hr with | cons hl hr =>
    cases hr
    obtain ⟨h3, -⟩ := (line_iff hc N).1 hL
    rw [getreply_scan, hl]
    exact if_neg fun hg => h3 ((goesOn_start N).1 hg).1
  | block ho hm hN =>
    rename_i L ms
    cases hr with | cons hl hr =>
    obtain ⟨h3, hcode⟩ := opens hc ho
    have hne : codeOf L ≠ 0 := hcode ▸ hc.value_ne_zero
    have hm' : ∀ M ∈ ms, ¬ (M[3]? ≠ some 45 ∧ codeOf M = codeOf L) :=
      fun M hM => hcode ▸ mt (line_iff hc M).2 (hm M hM)
    rw [getreply_scan, hl, cons_append,
      readAll_cons start L (append_ne_nil_of_right_ne_nil ms (cons_ne_nil N []))]
    refine (if_pos ((goesOn_start L).2 ⟨h3, hne⟩)).trans ?_
    exact getreply_block hne expecteof (blocked_start ⟨h3, hne⟩) hm'
      (hcode ▸ (line_iff hc N).1 hN) hr

theorem Reply.last_line {N : Text} (h : Reply c ls N) : Line c N ∧ ∃ ms, ls = ms ++ [N] := by
  cases h with
  | line hL => exact ⟨hL, [], rfl⟩
  | block ho hm hN => exact ⟨hN, _, rfl⟩

theorem outcome {N : Text} (hc : Code c) (h : Reply c ls N) :
    c.head? = some (start.readAll ls).n ∧ (start.readAll ls).code = value 0 c ∧
      (start.readAll ls).cp = N.take 8191 := by
  obtain ⟨hN, ms, rfl⟩ := h.last_line
  obtain ⟨s, hd, hn, hcode, hcp, hs⟩ := readAll_concat (s := start) rfl rfl rfl rfl ms N
  rw [hs]
  refine ⟨?_, ?_, ?_⟩
  · obtain ⟨l, rfl⟩ := hN.1
    obtain ⟨x, y, z, rfl⟩ := length_eq_three.1 hc.len
    have hx : x ≠ 0 := by
      rintro rfl
      exact absurd (hc.first 0 rfl).1 (by decide)
    have hsx : (s.char x).n = x := if_pos hn
    have hn0 : (s.char x).n ≠ 0 := by rw [hsx]; exact hx
    rw [cons_append, foldl_cons, n_line _ _ hn0, hsx]
    rfl
  · obtain ⟨h3, hv⟩ := (line_iff hc N).1 hN
    rw [(code_line hd hcode N).1, if_neg fun hx => h3 hx.1, hv]
  · rw [cp_line s N (by rw [hcp]; exact Nat.zero_le _), hcp, nil_append]

end

/-! ### What fits in `pasv` -/

open List (length_append append_assoc append_nil getElem?_append_right getElem?_drop)

def Ended (T : Text) : Prop := ∃ b ∈ T, kept b = false

instance (T : Text) : Decidable (Ended T) := by unfold Ended; infer_instance

/-- **What the lines must be**: what is looked at behind the code of a passive mode fits, with its
NUL; and at the end of such a reply it is the text of the last line, and has an end or a NUL behind
it. -/
structure Allowed (old : Vector UInt8 64) (l : Text) : Prop where
  room : ((captured (consumed (lines l))).takeWhile kept).length +
    (if Ended (captured (consumed (lines l))) then 1 else 0) ≤ 64
  text : ∀ c ls N t, Code c → Reply c ls N → Reads l ls t → Passive (value 0 c) → digits N ≠ [] →
    (captured ls).takeWhile kept = textOf N ∧
      (Ended (captured ls) ∨ old.toList[(textOf N).length]? = some 0)

theorem stored_eq (ls : List Text) : (start.readAll ls).stored =
    (captured ls).takeWhile kept ++ if Ended (captured ls) then [0] else [] := by
  obtain ⟨hpt, hpf⟩ := stored_lines ls
  unfold Loop.stored
  rw [hpt]
  exact congrArg _ (if_congr hpf rfl rfl)

theorem inside_iff (ls : List Text) : (start.readAll ls).Inside ↔
    ((captured ls).takeWhile kept).length + (if Ended (captured ls) then 1 else 0) ≤ 64 := by
  have hcp : (start.readAll ls).cp.length ≤ 8191 := cp_lines (Nat.zero_le _) ls
  have hlen : (if Ended (captured ls) then [(0 : UInt8)] else []).length =
    if Ended (captured ls) then 1 else 0 := by
    split <;> rfl
  unfold Loop.Inside
  rw [stored_eq, length_append, hlen]
  exact ⟨fun h => h.1, fun h => ⟨h, by omega⟩⟩

theorem pasv_end {T : Text} (h : (captured ls).takeWhile kept = T) (old : Text) :
    ((start.readAll ls).pasv old)[T.length]? = some 0 ↔
    Ended (captured ls) ∨ old[T.length]? = some 0 := by
  unfold Loop.pasv
  rw [stored_eq, h]
  by_cases he : Ended (captured ls)
  · rw [if_pos he, append_assoc, getElem?_append_right le_rfl, Nat.sub_self]
    exact ⟨fun _ => .inl he, fun _ => rfl⟩
  · rw [if_neg he, append_nil, getElem?_append_right le_rfl, Nat.sub_self, getElem?_drop,
      Nat.add_zero]
    exact ⟨Or.inr, fun h => h.resolve_left he⟩

/-- **When a call keeps its bounds and says what was read.** -/
theorem meets_iff (expecteof : Bool) (old : Vector UInt8 64) (l : Text) :
    Meets expecteof old l ↔ Allowed old l := by
  unfold Meets
  rw [getreply_last, inside_iff]
  constructor
  · rintro ⟨hroom, hserved⟩
    refine ⟨hroom, fun c ls N t hc hr hl hp hd => ?_⟩
    have hv := hserved c ls N t hc hr hl
    rw [getreply_of_reply expecteof hc hr hl] at hv
    obtain ⟨hpt, hnul⟩ := hv.pasv hp hd
    have htext : (captured ls).takeWhile kept = textOf N := (stored_lines ls).1.symm.trans hpt
    exact ⟨htext, (pasv_end htext old.toList).1 hnul⟩
  · rintro ⟨hroom, htext⟩
    refine ⟨hroom, fun c ls N t hc hr hl => ?_⟩
    obtain ⟨hn, hcode, hcp⟩ := outcome hc hr
    rw [getreply_of_reply expecteof hc hr hl]
    refine ⟨rfl, ?_, hcode, hcp, fun hp hd => ?_⟩
    · have h49 : 48 ≤ (start.readAll ls).n.toNat := by
        have := UInt8.le_iff_toNat_le.1 (hc.first _ hn).1
        exact le_trans (by decide) this
      rw [hn]
      change some ((digit (start.readAll ls).n : ℕ) : ℤ) =
        some (((start.readAll ls).n.toNat : ℤ) - 48)
      unfold digit
      rw [Nat.cast_sub h49]
      rfl
    · obtain ⟨h1, h2⟩ := htext c ls N t hc hr hl hp hd
      exact ⟨(stored_lines ls).1.trans h1, (pasv_end h1 old.toList).2 h2⟩

def longPassive : Text :=
  "228 Entering Long Passive Mode (6,16,254,128,0,0,0,0,0,0,186,251,254,176,172,233,201,187,2,200,100)\r\n".toList.map
    fun c => c.toNat.toUInt8

/-- `pasv` has no place for it. -/
theorem longPassive_overruns : ¬ Meets false (Vector.replicate 64 0) longPassive := by
  have hout : ¬ (getreply false start longPassive).last.Inside := by
    unfold Loop.Inside
    decide +kernel
  exact fun h => hout h.1

end Inetutils.Ftp.Getreply
