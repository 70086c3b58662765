import Inetutils.Ftp.Domap
import Mathlib.Algebra.GroupWithZero.Nat
import Mathlib.Data.List.TakeWhile

/-! # What `nmap` is to do with a name

The patterns of the manual of ftp: `mapin` gives values to the variables, up to the next literal
character, and `mapout` is the name with the values in their places; of the sequences in brackets,
the first that is not a null string. `domap` is compared with it.

* `Maps`: what is to hold of `domap`; `Readable` and `Fits`: where it does. -/

namespace Inetutils.Ftp.Nmap

open Lib.Cells Domap List

variable {rest t : Text}

/-! ### Values -/

/-- A character of `mapin`, or a variable; nothing is matched by a backslash with nothing behind. -/
inductive Item
  | lit (c : Byte)
  | never
  | var (k : ℕ)
  deriving DecidableEq

/-- `1` to `9` -/
def isVar (c : Byte) : Bool := 49 ≤ c && c ≤ 57

def pattern : Text → List Item
  | [] => []
  | c :: t =>
    if c = 92 then
      match t with
      | [] => [.never]
      | d :: t => .lit d :: pattern t
    else if c = 36 then
      match t with
      | [] => [.lit c]
      | d :: rest =>
        if isVar d then .var (d.toNat - 49) :: pattern rest else .lit c :: pattern (d :: rest)
    else .lit c :: pattern t

variable {d c : Byte} {mapin : Text}

theorem isVar_of (h : isVar d = true) : 49 ≤ d ∧ d < 128 := by
  unfold isVar at h
  rw [Bool.and_eq_true, decide_eq_true_iff, decide_eq_true_iff] at h
  exact ⟨h.1, UInt8.lt_of_le_of_lt h.2 (by decide)⟩

theorem pattern_char (h : token mapin = (.char d, rest)) :
    pattern mapin = .lit d :: pattern rest := by
  rcases mapin with - | ⟨c, - | ⟨e, t⟩⟩
  · cases h
  · rw [token] at h
    rw [pattern]
    split_ifs at h ⊢ <;> cases h <;> rfl
  · rw [token] at h
    rw [pattern]
    by_cases h92 : c = 92
    · rw [if_pos h92] at h ⊢
      cases h
      rfl
    rw [if_neg h92] at h ⊢
    by_cases h36 : c = 36
    · rw [if_pos h36] at h ⊢
      split_ifs at h with hrange
      · cases h
      · rw [if_neg fun hv => hrange (isVar_of hv)]
        cases h
        rfl
    · rw [if_neg h36] at h ⊢
      cases h
      rfl

theorem pattern_ended (hmapin : mapin ≠ []) (h : token mapin = (.ended, rest)) :
    pattern mapin = [.never] := by
  rcases mapin with - | ⟨c, - | ⟨e, t⟩⟩
  · exact absurd rfl hmapin
  · rw [token] at h
    rw [pattern]
    split_ifs at h ⊢
    · rfl
    · cases h
    · cases h
  · rw [token] at h
    split_ifs at h <;> cases h

theorem pattern_var (h : token mapin = (.var d, rest)) (hd : d ≤ 57) :
    pattern mapin = .var (d.toNat - 49) :: pattern rest := by
  rcases mapin with - | ⟨c, - | ⟨e, t⟩⟩
  · cases h
  · rw [token] at h
    split_ifs at h <;> cases h
  · rw [token] at h
    rw [pattern]
    split_ifs at h with h92 h36 hrange
    · cases h
    · cases h
      have hvar : isVar d = true := by
        unfold isVar
        rw [Bool.and_eq_true, decide_eq_true_iff, decide_eq_true_iff]
        exact ⟨hrange.1, hd⟩
      rw [if_neg h92, if_pos h36, if_pos hvar]
    · cases h
    · cases h

def stop (p : List Item) : Option Byte :=
  p.findSome? fun
    | .lit c => some c
    | _ => none

/-- The values, one after the other, and whether the name is matched as far as it goes. -/
def bindings : List Item → Text → List (ℕ × Text) × Bool
  | [], _ => ([], true)
  | _ :: _, [] => ([], true)
  | .lit c :: p, b :: n => if c = b then bindings p n else ([], false)
  | .never :: _, _ :: _ => ([], false)
  | .var k :: p, b :: n =>
    let r := bindings p ((b :: n).dropWhile (some · ≠ stop p))
    ((k, (b :: n).takeWhile (some · ≠ stop p)) :: r.1, r.2)

def assign (s : Toks × ℕ) (b : ℕ × Text) : Toks × ℕ :=
  if b.2 = [] then s else (Function.update s.1 b.1 (some b.2), b.1)

/-- Where the name is not matched, the variable that was matched last is taken back. -/
def settle (s : Toks × ℕ) (matched : Bool) : Toks :=
  if matched then s.1 else Function.update s.1 s.2 none

def values (mapin name : Text) : Toks :=
  let b := bindings (pattern mapin) name
  settle (b.1.foldl assign (fun _ => none, 0)) b.2

def Matches (mapin name : Text) : Prop := (bindings (pattern mapin) name).2 = true

/-! ### The name that is meant -/

inductive Elem
  | lit (c : Byte)
  | var (d : Byte)
  deriving DecidableEq

variable {seqs : List (List Elem)}

inductive Part
  | elem (e : Elem)
  | bracket (seqs : List (List Elem))
  deriving DecidableEq

def addHead (e : Elem) (r : List (List Elem) × Text) : List (List Elem) × Text :=
  (r.1.modifyHead (e :: ·), r.2)

/-- The sequences in brackets, and what is behind; none when they are not closed. -/
def sequences : Text → Option (List (List Elem) × Text)
  | [] => none
  | c :: t =>
    if c = 93 then some ([[]], t)
    else if c = 44 then (sequences t).map fun r => ([] :: r.1, r.2)
    else if c = 92 then
      match t with
      | [] => none
      | d :: t => (sequences t).map (addHead (.lit d))
    else if c = 36 ∧ (t.head?.any isdigit) then
      match t with
      | [] => none
      | d :: t => (sequences t).map (addHead (.var d))
    else (sequences t).map (addHead (.lit c))

inductive Reads : Text → List (List Elem) → Text → Prop
  | close (t : Text) : Reads (93 :: t) [[]] t
  | comma {t rest : Text} {seqs : List (List Elem)} (h : Reads t seqs rest) :
    Reads (44 :: t) ([] :: seqs) rest
  | quoted (d : Byte) {t rest : Text} {seqs : List (List Elem)} (h : Reads t seqs rest) :
      Reads (92 :: d :: t) (seqs.modifyHead (.lit d :: ·)) rest
  | var {d : Byte} {t rest : Text} {seqs : List (List Elem)} (hd : isdigit d = true)
    (h : Reads t seqs rest) :
      Reads (36 :: d :: t) (seqs.modifyHead (.var d :: ·)) rest
  | char {c : Byte} {t rest : Text} {seqs : List (List Elem)} (h93 : c ≠ 93) (h44 : c ≠ 44)
    (h92 : c ≠ 92)
      (h36 : ¬ (c = 36 ∧ t.head?.any isdigit)) (h : Reads t seqs rest) :
      Reads (c :: t) (seqs.modifyHead (.lit c :: ·)) rest

theorem reads_of (h : sequences t = some (seqs, rest)) :
    Reads t seqs rest := by
  fun_induction sequences t generalizing seqs rest with
  | case2 t =>
    cases h
    exact .close _
  | case3 t h93 ih =>
    obtain ⟨r, hr, he⟩ := Option.map_eq_some_iff.1 h
    cases he
    exact .comma (ih hr)
  | case5 d t h93 h44 ih =>
    obtain ⟨r, hr, he⟩ := Option.map_eq_some_iff.1 h
    cases he
    exact .quoted d (ih hr)
  | case7 c h93 h44 h92 d t hdigit ih =>
    obtain ⟨r, hr, he⟩ := Option.map_eq_some_iff.1 h
    cases he
    obtain ⟨rfl, hd⟩ := hdigit
    exact .var hd (ih hr)
  | case8 c t h93 h44 h92 hdigit ih =>
    obtain ⟨r, hr, he⟩ := Option.map_eq_some_iff.1 h
    cases he
    exact .char h93 h44 h92 hdigit (ih hr)
  | _ => cases h

theorem Reads.length (h : Reads t seqs rest) : rest.length < t.length := by
  induction h with
  | close t => exact Nat.lt_succ_self _
  | comma h ih => exact Nat.lt_trans ih (Nat.lt_succ_self _)
  | quoted d h ih => exact Nat.lt_trans ih (Nat.lt_add_of_pos_right Nat.two_pos)
  | var hd h ih => exact Nat.lt_trans ih (Nat.lt_add_of_pos_right Nat.two_pos)
  | char h93 h44 h92 h36 h ih => exact Nat.lt_trans ih (Nat.lt_succ_self _)

theorem Reads.exists_cons (h : Reads t seqs rest) :
    ∃ q qs, seqs = q :: qs := by
  have hhead (e : Elem) {seqs : List (List Elem)} (hseqs : ∃ q qs, seqs = q :: qs) :
      ∃ q qs, seqs.modifyHead (e :: ·) = q :: qs := by
    obtain ⟨q, qs, rfl⟩ := hseqs
    exact ⟨_, _, rfl⟩
  induction h with
  | close t => exact ⟨_, _, rfl⟩
  | comma h ih => exact ⟨_, _, rfl⟩
  | quoted d h ih => exact hhead _ ih
  | var hd h ih => exact hhead _ ih
  | char h93 h44 h92 h36 h ih => exact hhead _ ih

theorem Reads.start (h : Reads (c :: t) seqs rest) :
    ((c = 44 ∨ c = 93) ∧ ∃ qs, seqs = [] :: qs) ∨
      ¬ (c = 44 ∨ c = 93) ∧ ∃ e q qs,
      seqs = (e :: q) :: qs ∧ ((∃ d, e = .var d) → c = 36 ∧ t.head?.any isdigit) := by
  cases h with
  | close t => exact .inl ⟨.inr rfl, [], rfl⟩
  | comma h => exact .inl ⟨.inl rfl, _, rfl⟩
  | quoted d h =>
    obtain ⟨q, qs, rfl⟩ := h.exists_cons
    refine .inr ⟨by decide, _, q, qs, rfl, ?_⟩
    rintro ⟨d, hd⟩
    cases hd
  | var hd h =>
    obtain ⟨q, qs, rfl⟩ := h.exists_cons
    exact .inr ⟨by decide, _, q, qs, rfl, fun _ => ⟨rfl, hd⟩⟩
  | char h93 h44 h92 h36 h =>
    obtain ⟨q, qs, rfl⟩ := h.exists_cons
    refine .inr ⟨not_or.2 ⟨h44, h93⟩, _, q, qs, rfl, ?_⟩
    rintro ⟨d, hd⟩
    cases hd

theorem Reads.of_var (hc : c = 36 ∧ isdigit d = true) (h : Reads (c :: d :: t) seqs rest) :
    ∃ q qs, Reads t (q :: qs) rest ∧ seqs = (.var d :: q) :: qs := by
  cases h with
  | close t => exact absurd hc.1 (by decide)
  | comma h => exact absurd hc.1 (by decide)
  | quoted d h => exact absurd hc.1 (by decide)
  | var hd h =>
    obtain ⟨q, qs, rfl⟩ := h.exists_cons
    exact ⟨q, qs, h, rfl⟩
  | char h93 h44 h92 h36 h => exact absurd hc h36

theorem Reads.of_comma (h : Reads (44 :: t) seqs rest) :
    ∃ qs, Reads t qs rest ∧ seqs = [] :: qs := by
  cases h with
  | comma h => exact ⟨_, h, rfl⟩
  | char h93 h44 h92 h36 h => exact absurd rfl h44

theorem Reads.of_close (h : Reads (93 :: t) seqs rest) :
    seqs = [[]] ∧ rest = t := by
  cases h with
  | close t => exact ⟨rfl, rfl⟩
  | char h93 h44 h92 h36 h => exact absurd rfl h93

theorem Reads.noNul (h : Reads t seqs rest) (h0 : 0 ∉ t) :
    (∀ q ∈ seqs, .lit 0 ∉ q) ∧ 0 ∉ rest := by
  have hhead (e : Elem) (he : e ≠ .lit 0) {qs : List (List Elem)} (hqs : ∀ q ∈ qs, .lit 0 ∉ q) :
      ∀ q ∈ qs.modifyHead (e :: ·), .lit 0 ∉ q := by
    rcases qs with - | ⟨q, qs⟩
    · exact hqs
    · rw [modifyHead_cons]
      refine forall_mem_cons.2 ⟨?_, (forall_mem_cons.1 hqs).2⟩
      rw [mem_cons, not_or]
      exact ⟨he.symm, hqs q mem_cons_self⟩
  have hlit {c : Byte} (hc : c ≠ 0) : Elem.lit c ≠ .lit 0 := fun he => hc (Elem.lit.inj he)
  induction h with
  | close t => exact ⟨by simp, (ne_and_not_mem_of_not_mem_cons h0).2⟩
  | comma h ih =>
    obtain ⟨hseqs, hrest⟩ := ih (ne_and_not_mem_of_not_mem_cons h0).2
    exact ⟨forall_mem_cons.2 ⟨not_mem_nil, hseqs⟩, hrest⟩
  | quoted d h ih =>
    obtain ⟨-, h0⟩ := ne_and_not_mem_of_not_mem_cons h0
    obtain ⟨hd, h0⟩ := ne_and_not_mem_of_not_mem_cons h0
    obtain ⟨hseqs, hrest⟩ := ih h0
    exact ⟨hhead _ (hlit hd.symm) hseqs, hrest⟩
  | var hd h ih =>
    obtain ⟨-, h0⟩ := ne_and_not_mem_of_not_mem_cons h0
    obtain ⟨hseqs, hrest⟩ := ih (ne_and_not_mem_of_not_mem_cons h0).2
    exact ⟨hhead _ (by simp) hseqs, hrest⟩
  | char h93 h44 h92 h36 h ih =>
    obtain ⟨hc, h0⟩ := ne_and_not_mem_of_not_mem_cons h0
    obtain ⟨hseqs, hrest⟩ := ih h0
    exact ⟨hhead _ (hlit hc.symm) hseqs, hrest⟩

/-- `mapout`; none when there are brackets that are not closed. -/
def template (mapout : Text) : Option (List Part) :=
  match mapout with
  | [] => some []
  | c :: t =>
    if c = 92 then
      match t with
      | [] => some []
      | d :: t => (template t).map (.elem (.lit d) :: ·)
    else if c = 91 then
      match _ : sequences t with
      | none => none
      | some (seqs, rest) => (template rest).map (.bracket seqs :: ·)
    else if c = 36 ∧ (t.head?.any isdigit) then
      match t with
      | [] => some []
      | d :: t => (template t).map (.elem (.var d) :: ·)
    else (template t).map (.elem (.lit c) :: ·)
termination_by mapout.length
decreasing_by
  · exact Nat.lt_add_of_pos_right Nat.two_pos
  · exact Nat.lt_trans (reads_of ‹_›).length (Nat.lt_succ_self _)
  · exact Nat.lt_add_of_pos_right Nat.two_pos
  · exact Nat.lt_succ_self _

/-- What is written for an element: a character, or the value of a variable. -/
inductive Piece
  | lit (c : Byte)
  | value (s : Text)
  deriving DecidableEq

def Piece.text : Piece → Text
  | .lit c => [c]
  | .value s => s

section

variable (toks : Toks) (name : Text)

def Elem.pieces : Elem → List Piece
  | .lit c => [.lit c]
  | .var d =>
    if (source toks name d).getD [] = [] then [] else [.value ((source toks name d).getD [])]

def seqPieces (seq : List Elem) : List Piece := seq.flatMap (Elem.pieces toks name)

def Part.pieces : Part → List Piece
  | .elem e => e.pieces toks name
  | .bracket seqs => ((seqs.map (seqPieces toks name)).find? (· ≠ [])).getD []

def pieces (parts : List Part) : List Piece := parts.flatMap (Part.pieces toks name)

end

def meaning (toks : Toks) (name : Text) (parts : List Part) : Text :=
  let s := (pieces toks name parts).flatMap Piece.text
  if s = [] then name else s

/-! ### What is to hold -/

def str : Block Byte → Option Text
  | some c :: b => if c = 0 then some [] else (str b).map (c :: ·)
  | _ => none

/-- `domap` ends and returns a new string, which is the name that is meant where the name is
matched. -/
def Maps (moves : ℕ → Bool) (mapin mapout name : Str) : Prop :=
  ∃ b s, domap moves mapin mapout name = .block b ∧ str b = some s ∧
    (Matches mapin name → ∀ parts, template mapout = some parts →
      s = meaning (values mapin name) name parts)

/-! ### Where it holds -/

/-- What is behind a variable is the end, or a literal with no backslash before it. -/
def Plain (rest : Text) : Prop :=
  rest.head? ≠ some 92 ∧ (rest.head? = some 36 → ∀ c, rest.tail.head? = some c → isVar c = false)

/-- As far as the name is matched, there is no variable above `$9`, and what is behind each is
plain. -/
inductive Clear : Text → Text → Prop
  | name (mapin : Text) : Clear mapin []
  | mapin (name : Text) : Clear [] name
  | char {mapin rest name : Text} {c d : Byte} (htoken : token mapin = (.char d, rest))
      (hrest : d = c → Clear rest name) : Clear mapin (c :: name)
  | ended {mapin rest name : Text} {c : Byte} (hmapin : mapin ≠ [])
    (htoken : token mapin = (.ended, rest)) :
      Clear mapin (c :: name)
  | var {mapin rest name : Text} {c d : Byte} (htoken : token mapin = (.var d, rest))
    (hvar : d ≤ 57)
      (hplain : Plain rest) (hrest : Clear rest.tail (afterRun rest (c :: name))) :
        Clear mapin (c :: name)

def leading (seqs : List (List Elem)) : List (List Elem) := seqs.takeWhile (· ≠ [])

def Vars (seqs : List (List Elem)) : Prop := ∀ q ∈ leading seqs, ∀ e ∈ q, ∃ d, e = .var d

/-- Of the leading sequences, one at most has a value; and where none has one, no other sequence is
anything. -/
structure Sole (toks : Toks) (name : Text) (seqs : List (List Elem)) : Prop where
  one : (((leading seqs).map (seqPieces toks name)).filter (· ≠ [])).length ≤ 1
  others : (∀ q ∈ leading seqs, seqPieces toks name q = []) → ∀ q ∈ seqs, seqPieces toks name q = []

def Readable (mapin mapout name : Str) : Prop :=
  Clear mapin name ∧ ∃ parts, template mapout = some parts ∧
    ∀ seqs, .bracket seqs ∈ parts → Vars seqs ∧
    (Matches mapin name → Sole (values mapin name) name seqs)

def leadingPieces (toks : Toks) (name : Text) (seqs : List (List Elem)) : List Piece :=
  (leading seqs).flatMap (seqPieces toks name)

def Part.written (toks : Toks) (name : Text) : Part → List Piece
  | .elem e => e.pieces toks name
  | .bracket seqs => leadingPieces toks name seqs

/-- What is written of `mapout`. -/
def written (toks : Toks) (name : Text) (parts : List Part) : List Piece :=
  parts.flatMap (Part.written toks name)

def Piece.cost : Piece → ℕ
  | .lit _ => 1
  | .value s => min s.length 2

def cost (ps : List Piece) : ℕ := (ps.map Piece.cost).sum

/-- The buffer, of `size` bytes, is not moved. -/
def Piece.Stays (moves : ℕ → Bool) (size : ℕ) : Piece → Prop
  | .lit _ => True
  | .value s => 2 < s.length → moves (size + (s.length - 2)) = false

def Stays (moves : ℕ → Bool) : ℕ → List Piece → Prop
  | _, [] => True
  | size, p :: ps => p.Stays moves size ∧ Stays moves (size + (p.text.length - p.cost)) ps

def Fits (moves : ℕ → Bool) (mapin mapout name : Str) : Prop :=
  ∀ parts, template mapout = some parts →
    let ps := written (values mapin name) name parts
    cost ps ≤ name.1.length ∧ Stays moves (name.1.length + 1) ps

/-! ### The match -/

theorem pattern_plain (h : Plain (c :: t)) : pattern (c :: t) = .lit c :: pattern t := by
  obtain ⟨h92, h36⟩ := h
  have hc : c ≠ 92 := fun hc => h92 (congrArg some hc)
  rcases t with - | ⟨e, t⟩
  · simp [pattern, hc]
  · rw [pattern, if_neg hc]
    split_ifs with hd he
    · rw [h36 (congrArg some hd) e rfl] at he
      cases he
    · rfl
    · rfl

theorem stop_pattern (h : Plain rest) : stop (pattern rest) = rest.head? := by
  cases rest with
  | nil => rfl
  | cons c t =>
    rw [pattern_plain h]
    rfl

theorem bindings_nil (p : List Item) : bindings p [] = ([], true) := by cases p <;> rfl

theorem bindings_afterRun (h : Plain rest) (n : Text) :
    bindings (pattern rest) (n.dropWhile (some · ≠ rest.head?)) =
    bindings (pattern rest.tail) (afterRun rest n) := by
  unfold afterRun
  rcases hd : n.dropWhile (some · ≠ rest.head?) with - | ⟨b, n'⟩
  · rw [tail_nil, bindings_nil, bindings_nil]
  · have hb : some b = rest.head? := by
      have hhead := head?_dropWhile_not (some · ≠ rest.head?) n
      rw [hd] at hhead
      simpa using hhead
    cases rest with
    | nil => exact absurd hb (Option.some_ne_none b)
    | cons c t =>
      obtain rfl := Option.some.inj hb
      rw [pattern_plain h, bindings, if_pos rfl]
      rfl

/-- **The variables** that `domap` finds are those of the pattern. -/
theorem matchLoop_eq {name : Text} (h : Clear mapin name) (s : Toks × ℕ) :
    matchLoop name mapin s.1 s.2 =
      some (settle ((bindings (pattern mapin) name).1.foldl assign s)
        (bindings (pattern mapin) name).2) := by
  induction h generalizing s with
  | name mapin =>
    rw [bindings_nil, matchLoop]
    rfl
  | mapin name =>
    rw [pattern, bindings]
    cases name <;> simp [matchLoop, settle]
  | @char mapin rest name c d htoken hrest ih =>
    have hmapin : mapin ≠ [] := by
      rintro rfl
      cases htoken
    rw [matchLoop, if_neg hmapin, htoken, pattern_char htoken, bindings]
    dsimp only
    split_ifs with hc
    · exact ih hc s
    · rfl
  | @ended mapin rest name c hmapin htoken =>
    rw [matchLoop, if_neg hmapin, htoken, pattern_ended hmapin htoken, bindings]
    rfl
  | @var mapin rest name c d htoken hvar hplain hrest ih =>
    have hmapin : mapin ≠ [] := by
      rintro rfl
      cases htoken
    have hd : ¬ tokens ≤ d.toNat - 49 := by
      have hle : d.toNat ≤ 57 := UInt8.le_iff_toNat_le.1 hvar
      unfold tokens
      omega
    rw [matchLoop, if_neg hmapin, htoken, pattern_var htoken hvar, bindings, stop_pattern hplain,
      bindings_afterRun hplain]
    dsimp only
    split_ifs with hc
    · have hrun : (c :: name).takeWhile (some · ≠ rest.head?) = [] := by
        rw [takeWhile_cons_of_neg]
        simpa using hc.symm
      rw [ih s, foldl_cons, assign, if_pos hrun]
    · have hrun : (c :: name).takeWhile (some · ≠ rest.head?) ≠ [] := by
        rw [takeWhile_cons_of_pos]
        · exact cons_ne_nil _ _
        · simpa using Ne.symm hc
      rw [ih (_, _), foldl_cons, assign, if_neg hrun]
      rfl

end Inetutils.Ftp.Nmap
