import Inetutils.Ftpd.Parser

/-! # The lines of ftpd and their tokens

What `yylex` returns for a line depends on the string in `cbuf` alone, as long as `cpos` is inside
of it. -/

namespace Inetutils.Ftpd.Framing

open List hiding lex
open Lib.Pieces Input Scanner Ftpd.Parser
open Dataconn (Text upper)
open Lib.Decimal (isDigit)

variable {m : Move} {s s' : Scan} {v : Text} {t : Token}

/-! ### Strings in a buffer -/

theorem not_mem_cstring (l : Text) : 0 ∉ cstring l := by
  intro h
  exact absurd (mem_takeWhile_imp h) (by decide)

theorem cstring_append_dropWhile {x : Text} (hx : 0 ∉ x) (l : Text) :
    cstring (x ++ l.dropWhile (· ≠ 0)) = x := by
  have hdrop : cstring (l.dropWhile (· ≠ 0)) = [] := by
    induction l with
    | nil => rfl
    | cons a l ih =>
      by_cases ha : a = 0
      · subst ha
        rfl
      · rw [dropWhile_cons, if_pos (decide_eq_true ha)]
        exact ih
  have hpos : ∀ a ∈ x, decide (a ≠ 0) = true := fun a ha => decide_eq_true fun h0 => hx (h0 ▸ ha)
  unfold cstring at hdrop ⊢
  rw [takeWhile_append_of_pos hpos, hdrop, append_nil]

theorem cstring_append_nul {x : Text} (hx : 0 ∉ x) (l : Text) : cstring (x ++ 0 :: l) = x :=
  cstring_append_dropWhile hx (0 :: l)

theorem cstring_append_self (l : Text) : cstring l ++ l.dropWhile (· ≠ 0) = l :=
  takeWhile_append_dropWhile

variable {l text : Text} {k : ℕ} {state : LexState} {l' : Line}

theorem cstring_take (hk : k ≤ (cstring l).length) : l.take k = (cstring l).take k := by
  conv_lhs => rw [← cstring_append_self l]
  rw [take_append_of_le_length hk]

theorem cstring_drop (hk : k ≤ (cstring l).length) : cstring (l.drop k) = (cstring l).drop k := by
  have hdrop : l.drop k = (cstring l).drop k ++ l.dropWhile (· ≠ 0) := by
    conv_lhs => rw [← cstring_append_self l]
    rw [drop_append_of_le_length hk]
  rw [hdrop, cstring_append_dropWhile fun h => not_mem_cstring l (mem_of_mem_drop h)]

theorem zero_not_mem_map_upper (h : 0 ∉ l) : 0 ∉ l.map upper := by
  intro hmem
  obtain ⟨b, hb, h0⟩ := mem_map.1 hmem
  rw [upper_eq_iff (by decide)] at h0
  exact h (h0 ▸ hb)

theorem cstring_raiseAt {i : ℕ} (h : i + k ≤ (cstring l).length) :
    cstring (raiseAt i k l) = raiseAt i k (cstring l) := by
  have hraise : raiseAt i k l = raiseAt i k (cstring l) ++ l.dropWhile (· ≠ 0) := by
    unfold raiseAt
    conv_lhs => rw [← cstring_append_self l]
    rw [take_append_of_le_length (by omega), drop_append_of_le_length (by omega),
      drop_append_of_le_length h, take_append_of_le_length (by rw [length_drop]; omega),
      append_assoc, append_assoc]
  have hnul : 0 ∉ raiseAt i k (cstring l) := by
    have hc := not_mem_cstring l
    unfold raiseAt
    rw [mem_append, mem_append]
    rintro (hm | hm | hm)
    · exact hc (mem_of_mem_take hm)
    · exact zero_not_mem_map_upper (fun h0 => hc (mem_of_mem_drop (mem_of_mem_take h0))) hm
    · exact hc (mem_of_mem_drop hm)
  rw [hraise, cstring_append_dropWhile hnul]

theorem cstring_yyerror (s : Scan) : cstring (yyerror s).cbuf = before 10 (cstring s.cbuf) := by
  unfold yyerror
  split
  · exact cstring_append_nul (fun h => not_mem_cstring s.cbuf (takeWhile_subset _ h)) _
  next h =>
    unfold before
    rw [takeWhile_eq_self_iff.2]
    exact fun a ha => decide_eq_true fun h10 => h (h10 ▸ ha)

/-! ### What a token passes -/

/-- What a token says of its move: a CRLF ends the line, and another token passes some characters of
the string, with no newline. -/
structure Passes (v : Text) (t : Token) (m : Move) : Prop where
  le : m.k ≤ v.length
  state : t = .crlf ↔ m.state = .cmd
  some : t ≠ .crlf → 0 < m.k ∧ 10 ∉ v.take m.k

theorem char_eq {c : UInt8} (h : char v = c) (hc : c ≠ 0) : ∃ l, v = c :: l := by
  rcases v with - | ⟨a, l⟩
  · exact absurd h.symm hc
  · exact ⟨l, by rw [← h]; rfl⟩

theorem passes_char (h0 : char v ≠ 0) (h10 : char v ≠ 10) (ht : t ≠ .crlf) (hs : state ≠ .cmd) :
    Passes v t ⟨1, state, false⟩ := by
  obtain ⟨l, hl⟩ := char_eq rfl h0
  rw [hl]
  refine ⟨Nat.succ_le_succ (Nat.zero_le _), iff_of_false ht hs, fun _ => ⟨Nat.one_pos, ?_⟩⟩
  rw [take_succ_cons, take_zero, mem_singleton]
  exact Ne.symm h10

theorem passes_crlf (h : char v = 10) (hk : k ≤ 1) : Passes v .crlf ⟨k, .cmd, false⟩ := by
  obtain ⟨l, rfl⟩ := char_eq h (by decide)
  exact ⟨hk.trans (Nat.succ_le_succ (Nat.zero_le _)), iff_of_true rfl rfl, fun h => absurd rfl h⟩

theorem strpbrk_spec (v : Text) : (strpbrk v).getD 0 ≤ v.length ∧ ∀ b ∈ v.take ((strpbrk v).getD 0),
    ¬ isBreak b := by
  unfold strpbrk
  split
  next h =>
    refine ⟨findIdx_le_length, fun b hb => ?_⟩
    rw [Option.getD_some] at hb
    obtain ⟨i, hi, rfl⟩ := mem_iff_getElem.1 hb
    rw [length_take] at hi
    have hlt : i < v.findIdx isBreak := by omega
    rw [getElem_take]
    exact Bool.eq_false_iff.1 (not_of_lt_findIdx hlt)
  · exact ⟨Nat.zero_le _, fun b hb => absurd hb not_mem_nil⟩

theorem passes_number (h : isDigit (char v)) (hs : state ≠ .cmd)
    (hm : number v state = .token t m) : Passes v t m := by
  obtain ⟨rfl, rfl⟩ := Lexed.token.inj hm
  refine ⟨(List.takeWhile_prefix _).length_le, iff_of_false (by intro h; cases h) hs,
    fun _ => ⟨?_, fun hmem => ?_⟩⟩
  · obtain ⟨l, hl⟩ := char_eq rfl (fun h0 => absurd h (by rw [h0]; decide) : char v ≠ 0)
    rw [hl, takeWhile_cons, if_pos h]
    exact Nat.succ_pos _
  · have hdigits : v.take (v.takeWhile isDigit).length = v.takeWhile isDigit :=
      (prefix_iff_eq_take.1 (List.takeWhile_prefix _)).symm
    rw [hdigits] at hmem
    exact absurd (mem_takeWhile_imp hmem) (by decide)

theorem lookup_some {tabs : List Tab} {cmd : Text} {p : Tab} (h : lookup tabs cmd = some p) :
    p ∈ tabs ∧ cmd = p.name := by
  refine ⟨mem_of_find?_eq_some h, ?_⟩
  have hname := find?_some h
  exact of_decide_eq_true hname

theorem passes_sitecmd (hm : sitecmd v = .token t m) : Passes v t m := by
  have htab : ∀ p ∈ sitetab, p.state ≠ .cmd ∧ p.name ≠ [] := forall_iff_forall_mem.1 (by decide)
  unfold sitecmd at hm
  split at hm
  next h32 =>
    obtain ⟨rfl, rfl⟩ := Lexed.token.inj hm
    exact passes_char (by rw [h32]; decide) (by rw [h32]; decide) (by decide) (by decide)
  next =>
    dsimp only at hm
    split at hm
    next p hp =>
      split at hm
      · obtain ⟨rfl, rfl⟩ := Lexed.token.inj hm
        obtain ⟨hmem, hword⟩ := lookup_some hp
        obtain ⟨hstate, hname⟩ := htab p hmem
        obtain ⟨hle, hbreak⟩ := strpbrk_spec v
        refine ⟨hle, iff_of_false (by intro h; cases h) hstate,
          fun _ => ⟨?_, fun h10 => hbreak 10 h10 (by decide)⟩⟩
        by_contra hzero
        have hk : (strpbrk v).getD 0 = 0 := Nat.eq_zero_of_not_pos hzero
        rw [hk] at hword
        exact hname hword.symm
      · cases hm
    · cases hm

theorem passes_str2 (hlf : LfLast v) (hm : str2 v = .token t m) : Passes v t m := by
  unfold str2 at hm
  split at hm
  next h =>
    obtain ⟨rfl, rfl⟩ := Lexed.token.inj hm
    obtain ⟨hlen, hlast⟩ := h
    have hv : v = v.dropLast ++ [10] := by
      rw [dropLast_append_getLast? 10 hlast]
    refine ⟨Nat.sub_le _ _, iff_of_false (by intro h; cases h) (by intro h; cases h), fun _ =>
      ⟨Nat.sub_pos_of_lt hlen, fun h10 => ?_⟩⟩
    rw [← dropLast_eq_take] at h10
    obtain ⟨p, q, hpq⟩ := append_of_mem h10
    rw [hpq, append_assoc, cons_append] at hv
    exact absurd (hlf p _ hv) (append_ne_nil_of_right_ne_nil _ (cons_ne_nil _ _))
  · cases hm

theorem passes_dostr1 (hm : dostr1 state v = .token t m) : Passes v t m := by
  unfold dostr1 at hm
  split at hm
  next h32 =>
    obtain ⟨rfl, rfl⟩ := Lexed.token.inj hm
    refine passes_char (by rw [h32]; decide) (by rw [h32]; decide) (by decide) ?_
    split <;> decide
  · cases hm

theorem passes_args (hm : args v = .token t m) : Passes v t m := by
  unfold args at hm
  split at hm
  next hd => exact passes_number hd (by decide) hm
  next =>
    split at hm
    next h10 =>
      obtain ⟨rfl, rfl⟩ := Lexed.token.inj hm
      exact passes_crlf h10 (Nat.le_refl 1)
    next h10 =>
      split at hm
      next h32 =>
        obtain ⟨rfl, rfl⟩ := Lexed.token.inj hm
        exact passes_char (by rw [h32]; decide) h10 (by decide) (by decide)
      next =>
        split at hm
        next h44 =>
          obtain ⟨rfl, rfl⟩ := Lexed.token.inj hm
          exact passes_char (by rw [h44]; decide) h10 (by decide) (by decide)
        next =>
          split at hm
          next code hcode =>
            obtain ⟨rfl, rfl⟩ := Lexed.token.inj hm
            refine passes_char (fun h0 => ?_) h10 (by intro h; cases h) (by decide)
            have hnone : letter 0 = none := by decide
            rw [h0, hnone] at hcode
            cases hcode
          · cases hm

theorem passes_lex (hlf : LfLast v) (hm : lex state v = .token t m) : Passes v t m := by
  unfold lex at hm
  split at hm
  · cases hm
  · exact passes_sitecmd hm
  · split at hm
    next h10 =>
      obtain ⟨rfl, rfl⟩ := Lexed.token.inj hm
      exact passes_crlf h10 (Nat.zero_le 1)
    · exact passes_dostr1 hm
  · exact passes_dostr1 hm
  · exact passes_dostr1 hm
  · split at hm
    next h10 =>
      obtain ⟨rfl, rfl⟩ := Lexed.token.inj hm
      exact passes_crlf h10 (Nat.zero_le 1)
    · exact passes_str2 hlf hm
  · exact passes_str2 hlf hm
  · split at hm
    next h32 =>
      obtain ⟨rfl, rfl⟩ := Lexed.token.inj hm
      exact passes_char (by rw [h32]; decide) (by rw [h32]; decide) (by decide) (by decide)
    · split at hm
      next hd => exact passes_number hd (by decide) hm
      · exact passes_dostr1 hm
  · exact passes_args hm

/-! ### Scanners with the same string -/

def Inside (s : Scan) : Prop := s.cpos ≤ (cstring s.cbuf).length

structure Same (s s' : Scan) : Prop where
  cbuf : cstring s.cbuf = cstring s'.cbuf
  cpos : s.cpos = s'.cpos
  state : s.state = s'.state

/-- `cpos` is in the string, and within a line no newline is behind it. -/
structure Ready (s : Scan) : Prop where
  inside : Inside s
  lf : LfLast (cstring s.cbuf)
  before : s.state ≠ .cmd → 10 ∉ (cstring s.cbuf).take s.cpos

theorem Inside.view (h : Inside s) : s.view = (cstring s.cbuf).drop s.cpos := cstring_drop h

theorem Same.inside (h : Same s s') (hin : Inside s) : Inside s' := by
  unfold Inside at hin ⊢
  rwa [← h.cbuf, ← h.cpos]

theorem Same.view (h : Same s s') (hin : Inside s) : s'.view = s.view := by
  rw [hin.view, (h.inside hin).view, h.cbuf, h.cpos]

theorem Same.yylex (h : Same s s') (hin : Inside s) : yylex s' = yylex s := by
  unfold Scanner.yylex
  rw [h.view hin, h.state]

theorem upper_upper (b : UInt8) : upper (upper b) = upper b := by
  unfold upper
  by_cases hb : 97 ≤ b ∧ b ≤ 122
  · rw [if_pos hb]
    refine if_neg fun h => ?_
    have h97 : 97 ≤ b.toNat := UInt8.le_iff_toNat_le.1 hb.1
    have h122 : b.toNat ≤ 122 := UInt8.le_iff_toNat_le.1 hb.2
    have hsub : (b - 32).toNat = b.toNat - 32 :=
      UInt8.toNat_sub_of_le b 32 (UInt8.le_iff_toNat_le.2 (le_trans (by decide) h97))
    have hle : 97 ≤ (b - 32).toNat := UInt8.le_iff_toNat_le.1 h.1
    omega
  · rw [if_neg hb, if_neg hb]

theorem map_upper_raiseAt (i k : ℕ) (l : Text) : (raiseAt i k l).map upper = l.map upper := by
  have hid : upper ∘ upper = upper := funext upper_upper
  unfold raiseAt
  rw [map_append, map_append, map_map, hid, ← map_append, ← map_append, ← drop_drop,
    take_append_drop, take_append_drop]

theorem lf_mem_upper_iff (l : Text) : 10 ∈ l.map upper ↔ 10 ∈ l := by
  rw [mem_map]
  constructor
  · rintro ⟨b, hb, h⟩
    rw [upper_eq_iff (by decide)] at h
    exact h ▸ hb
  · exact fun h => ⟨10, h, by decide⟩

theorem lfLast_of_upper (h : LfLast (l.map upper)) : LfLast l := by
  rintro p q rfl
  rw [map_append, map_cons] at h
  exact map_eq_nil_iff.1 (h _ _ rfl)

theorem move_cpos (s : Scan) (m : Move) : (s.move m).cpos = s.cpos + m.k := by
  unfold Scan.move
  split <;> rfl

theorem move_state (s : Scan) (m : Move) : (s.move m).state = m.state := by
  unfold Scan.move
  split <;> rfl

theorem cstring_move (h : s.cpos + m.k ≤ (cstring s.cbuf).length) :
    cstring (s.move m).cbuf = if m.raised then raiseAt s.cpos m.k (cstring s.cbuf)
      else cstring s.cbuf := by
  unfold Scan.move
  split
  · exact cstring_raiseAt h
  · rfl

theorem map_upper_move (h : s.cpos + m.k ≤ (cstring s.cbuf).length) :
    (cstring (s.move m).cbuf).map upper = (cstring s.cbuf).map upper := by
  rw [cstring_move h]
  split
  · exact map_upper_raiseAt _ _ _
  · rfl

theorem Same.move (h : Same s s') (hk : s.cpos + m.k ≤ (cstring s.cbuf).length) :
    Same (s.move m) (s'.move m) := by
  have hk' : s'.cpos + m.k ≤ (cstring s'.cbuf).length := by rwa [← h.cbuf, ← h.cpos]
  refine ⟨?_, ?_, ?_⟩
  · rw [cstring_move hk, cstring_move hk', h.cbuf, h.cpos]
  · rw [move_cpos, move_cpos, h.cpos]
  · rw [move_state, move_state]

theorem Ready.le (h : Ready s) (hk : m.k ≤ s.view.length) :
    s.cpos + m.k ≤ (cstring s.cbuf).length := by
  have hin := h.inside
  unfold Inside at hin
  rw [h.inside.view, length_drop] at hk
  omega

theorem Ready.token (h : Ready s) (ht : yylex s = .token t m) :
    Passes s.view t m ∧ s.state ≠ .cmd := by
  constructor
  · refine passes_lex ?_ ht
    rw [h.inside.view]
    intro p q hpq
    refine h.lf ((cstring s.cbuf).take s.cpos ++ p) q ?_
    rw [append_assoc, ← hpq, take_append_drop]
  · intro hs
    unfold yylex at ht
    rw [hs] at ht
    cases ht

theorem Ready.move (h : Ready s) (ht : yylex s = .token t m) :
    Ready (s.move m) := by
  obtain ⟨hpass, hstate⟩ := h.token ht
  have hk := h.le hpass.le
  have hup := map_upper_move hk
  have hlen := congrArg List.length hup
  rw [length_map, length_map] at hlen
  refine ⟨?_, ?_, ?_⟩
  · unfold Inside
    rwa [move_cpos, hlen]
  · refine lfLast_of_upper ?_
    rw [hup]
    exact h.lf.upper
  · rw [move_state, move_cpos]
    intro hm
    rw [← lf_mem_upper_iff, map_take, hup, ← map_take, lf_mem_upper_iff, take_add, mem_append]
    have hnew := (hpass.some fun hcrlf => hm (hpass.state.1 hcrlf)).2
    rw [h.inside.view] at hnew
    exact not_or.2 ⟨h.before hstate, hnew⟩

theorem length_before (hk : k ≤ l.length) (h : 10 ∉ l.take k) : k ≤ (before 10 l).length := by
  have hpos : ∀ b ∈ l.take k, decide (b ≠ 10) = true := fun b hb => decide_eq_true fun h10 =>
    h (h10 ▸ hb)
  unfold before
  conv_rhs => rw [← take_append_drop k l]
  rw [takeWhile_append_of_pos hpos, length_append, length_take]
  omega

theorem not_mem_before (l : Text) : 10 ∉ before 10 l := by
  intro h
  exact absurd (mem_takeWhile_imp h) (by decide)

theorem Ready.yyerror (h : Ready s) (hs : s.state ≠ .cmd) : Ready (yyerror s) := by
  have hstate : (Scanner.yyerror s).cpos = s.cpos := by
    unfold Scanner.yyerror
    split <;> rfl
  refine ⟨?_, ?_, fun _ hmem => ?_⟩
  · unfold Inside
    rw [cstring_yyerror, hstate]
    exact length_before h.inside (h.before hs)
  · rw [cstring_yyerror]
    rintro p q hpq
    refine absurd ?_ (not_mem_before (cstring s.cbuf))
    rw [hpq]
    exact mem_append_right _ mem_cons_self
  · rw [cstring_yyerror] at hmem
    exact not_mem_before _ (mem_of_mem_take hmem)

theorem Same.yyerror (h : Same s s') : Same (yyerror s) (yyerror s') := by
  have hkeep : ∀ x :
      Scan, (Scanner.yyerror x).cpos = x.cpos ∧ (Scanner.yyerror x).state = x.state := by
    intro x
    unfold Scanner.yyerror
    split <;> exact ⟨rfl, rfl⟩
  refine ⟨?_, ?_, ?_⟩
  · rw [cstring_yyerror, cstring_yyerror, h.cbuf]
  · rw [(hkeep s).1, (hkeep s').1, h.cpos]
  · rw [(hkeep s).2, (hkeep s').2, h.state]

/-! ### A line -/

def said (l : Line) : List Token × List Reduction × Bool × Stop :=
  (l.tokens, l.reductions, l.complained, l.stop)

/-- Two runs over a line say the same, and `cpos` is in the string whenever the first of them looks
at it. -/
def Alike (l l' : Line) : Prop := said l = said l' ∧ ∀ s ∈ l.visited, Inside s

theorem alike_stopped (stop : Stop) (s s' : Scan) : Alike (.stopped stop s) (.stopped stop s') :=
  ⟨rfl, fun _ h => absurd h not_mem_nil⟩

theorem Alike.visit {l : Line} (h : Alike l l') (hs : Inside s) (s' : Scan) :
    Alike (l.visit s) (l'.visit s') := by
  refine ⟨h.1, fun x hx => ?_⟩
  rcases mem_cons.1 hx with rfl | hx
  · exact hs
  · exact h.2 x hx

theorem Alike.token {l : Line} (h : Alike l l') (t : Token) : Alike (l.token t) (l'.token t) :=
  ⟨congrArg (fun x => (t :: x.1, x.2)) h.1, h.2⟩

theorem Alike.reduce {l : Line} (h : Alike l l') (r : Reduction) :
    Alike (l.reduce r) (l'.reduce r) :=
  ⟨congrArg (fun x => (x.1, r :: x.2.1, x.2.2)) h.1, h.2⟩

theorem Alike.complain {l : Line} (h : Alike l l') : Alike l.complain l'.complain :=
  ⟨congrArg (fun x => (x.1, x.2.1, true, x.2.2.2)) h.1, h.2⟩

theorem alike_recover (n : ℕ) (hs : Ready s) (h : Same s s') :
    Alike (recover n s) (recover n s') := by
  induction n generalizing s s' with
  | zero => exact alike_stopped _ _ _
  | succ n ih =>
    unfold recover
    rw [h.yylex hs.inside]
    rcases hy : yylex s with ⟨t, m⟩ | ⟨m, back⟩ | ⟨name, m⟩
    · have hmove := h.move (hs.le (hs.token hy).1.le)
      refine Alike.visit (Alike.token ?_ t) hs.inside s'
      split
      · exact alike_stopped _ _ _
      · exact ih (hs.move hy) hmove
    · exact (alike_stopped _ _ _).visit hs.inside s'
    · exact (alike_stopped _ _ _).visit hs.inside s'

theorem alike_complain (hs : Ready s) (ht : t ≠ .crlf → s.state ≠ .cmd) (h : Same s s') :
    Alike (complain t s) (complain t s') := by
  unfold Parser.complain
  split
  · exact (alike_stopped _ _ _).complain
  next hne =>
    have hready := hs.yyerror (ht hne)
    rw [h.yyerror.view hready.inside]
    exact (alike_recover _ hready h.yyerror).complain

/-- **The parser** sees the string and nothing else. -/
theorem alike_parse (r : Rule) (hs : Ready s) (ht : t ≠ .crlf → s.state ≠ .cmd)
    (h : Same s s') : Alike (parse r t s) (parse r t s') := by
  induction r generalizing t s s' with
  | done a => exact alike_stopped _ _ _
  | error => exact alike_complain hs ht h
  | reduce r rule ih => exact (ih hs ht h).reduce r
  | shift next ih =>
    unfold parse
    rw [h.yylex hs.inside]
    rcases hy : yylex s with ⟨t, m⟩ | ⟨m, back⟩ | ⟨name, m⟩
    · obtain ⟨hpass, -⟩ := hs.token hy
      have hstate : t ≠ .crlf → (s.move m).state ≠ .cmd := by
        exact fun hne hcmd => hne (hpass.state.2 hcmd)
      exact ((ih t (hs.move hy) hstate (h.move (hs.le hpass.le))).token t).visit hs.inside s'
    · exact (alike_stopped _ _ _).visit hs.inside s'
    · exact (alike_stopped _ _ _).visit hs.inside s'

theorem alike_parseLine (hin : Inside s) (hlf : LfLast (cstring s.cbuf)) (h : Same s s') :
    Alike (parseLine s) (parseLine s') := by
  have htab : ∀ p ∈ cmdtab, p.state ≠ .cmd ∧ 10 ∉ p.name := forall_iff_forall_mem.1 (by decide)
  have hword : s.cbuf.take s.cpos = (cstring s.cbuf).take s.cpos := cstring_take hin
  have hword' : s'.cbuf.take s'.cpos = (cstring s.cbuf).take s.cpos := by
    rw [cstring_take (h.inside hin), h.cbuf, h.cpos]
  have hnul : cstring ((cstring s.cbuf).take s.cpos) = (cstring s.cbuf).take s.cpos :=
    (cstring_eq_iff _).2 fun h0 => not_mem_cstring _ (mem_of_mem_take h0)
  unfold parseLine command
  rw [hword, hword', hnul]
  rcases hp : lookup cmdtab ((cstring s.cbuf).take s.cpos) with - | p
  · exact (alike_stopped _ _ _).visit hin s'
  · obtain ⟨hmem, hname⟩ := lookup_some hp
    obtain ⟨hstate, hlf10⟩ := htab p hmem
    by_cases himp : p.implemented
    · simp only [if_pos himp]
      have hready : Ready (s.move ⟨0, p.state, false⟩) := ⟨hin, hlf, fun _ => by
        show 10 ∉ (cstring s.cbuf).take s.cpos
        rwa [hname]⟩
      exact ((alike_parse _ hready (fun _ => hstate) (h.move hin)).token _).visit hin s'
    · simp only [if_neg himp]
      exact (alike_stopped _ _ _).visit hin s'

/-! ### The reading of a line -/

def contents (text : Text) : Text :=
  if 13 ∈ cstring text then before 13 (cstring text) ++ [10] else cstring text

theorem cstring_fill (text cbuf : Text) : cstring (fill text cbuf) = cstring text := by
  unfold fill
  generalize cbuf.drop (text.length + 1) = rest
  induction text with
  | nil => rfl
  | cons b l ih =>
    unfold cstring at ih ⊢
    rw [cons_append, takeWhile_cons, takeWhile_cons, ih]

theorem cstring_cutCr (cbuf : Text) :
    cstring (cutCr cbuf) = if 13 ∈ cstring cbuf then before 13 (cstring cbuf) ++ [10]
      else cstring cbuf := by
  unfold cutCr
  split
  · have hnul : 0 ∉ before 13 (cstring cbuf) ++ [10] := by
      rw [mem_append, not_or]
      exact ⟨fun h => not_mem_cstring cbuf (takeWhile_subset _ h), by decide⟩
    rw [append_cons, cstring_append_nul hnul]
  · rfl

theorem lfLast_contents (h : LfLast text) : LfLast (contents text) := by
  unfold contents
  split
  next hcr =>
    have hmem : 10 ∉ before 13 (Input.cstring text) := by
      intro h10
      obtain ⟨p', q', hb⟩ := append_of_mem h10
      have hsplit : Input.cstring text =
          p' ++ 10 :: (q' ++ (Input.cstring text).dropWhile (· ≠ 13)) := by
        rw [← cons_append, ← append_assoc, ← hb]
        exact takeWhile_append_dropWhile.symm
      have hnil := (append_eq_nil_iff.1 (h.cstring _ _ hsplit)).2
      have hall := dropWhile_eq_nil_iff.1 hnil 13 hcr
      exact absurd hall (by decide)
    exact fun p q hpq => ((append_cons_inj_of_notMem hmem not_mem_nil).1 hpq).2.2.symm
  · exact h.cstring

theorem cstring_read (s : Scan) (h : position (contents text) s.cpos ≤ (contents text).length) :
    cstring (s.read text).cbuf = raiseAt 0 (position (contents text) s.cpos) (contents text) ∧
      (s.read text).cpos = position (contents text) s.cpos := by
  have hc : cstring (cutCr (fill text s.cbuf)) = contents text := by
    rw [cstring_cutCr, cstring_fill]
    rfl
  have hpos : (s.read text).cpos = position (contents text) s.cpos :=
    congrArg (position · s.cpos) hc
  refine ⟨?_, hpos⟩
  have hread : (s.read text).cbuf =
      raiseAt 0 (position (contents text) s.cpos) (cutCr (fill text s.cbuf)) := by
    have hk :
        position (contents text) s.cpos ≤ (cstring (cutCr (fill text s.cbuf))).length := by rwa [hc]
    have hword : commandWord (cutCr (fill text s.cbuf)) (position (contents text) s.cpos) =
        ((cutCr (fill text s.cbuf)).take (position (contents text) s.cpos)).map upper := by
      unfold commandWord
      rw [(cstring_eq_iff _).2]
      rw [cstring_take hk]
      exact fun h0 => not_mem_cstring _ (mem_of_mem_take h0)
    have hlen : (commandWord (cutCr (fill text s.cbuf)) (position (contents text) s.cpos)).length =
        position (contents text) s.cpos := by
      rw [hword, length_map, cstring_take hk, length_take]
      omega
    show commandWord _ (position (cstring (cutCr (fill text s.cbuf))) s.cpos) ++ List.drop _ _ = _
    rw [hc, hlen, hword]
    unfold raiseAt
    rw [take_zero, drop_zero, zero_add, nil_append]
  rw [hread, cstring_raiseAt (by rw [hc, zero_add]; exact h), hc]

/-- A line that fits the buffer; a blank or a newline follows the first character, or four
characters are there. Before the first line `cpos` is zero, and then the blank may be missing. -/
def Framed (first : Prop) (text : Text) : Prop :=
  text.length ≤ 511 ∧ (first ∨ (contents text).any isBreak) ∧
    position (contents text) 0 ≤ (contents text).length

theorem position_eq {cpos : ℕ} (h : cpos = 0 ∨ (contents text).any isBreak) :
    position (contents text) cpos = position (contents text) 0 := by
  rcases h with rfl | h
  · rfl
  · unfold position strpbrk
    rw [if_pos h]

/-- **A line** that is framed is read as if it were the first. -/
theorem alike_line (hlf : LfLast text) (h : Framed (s.cpos = 0) text) :
    Alike (line s text) (line .start text) := by
  obtain ⟨-, hbreak, hlen⟩ := h
  have hpos := position_eq hbreak
  obtain ⟨hbuf, hcpos⟩ := cstring_read s (by rwa [hpos])
  obtain ⟨hbuf', hcpos'⟩ := cstring_read .start hlen
  have hup := map_upper_raiseAt 0 (position (contents text) s.cpos) (contents text)
  have hlen' := congrArg List.length hup
  rw [length_map, length_map] at hlen'
  refine alike_parseLine ?_ ?_ ⟨?_, ?_, rfl⟩
  · unfold Inside
    rw [hbuf, hcpos, hlen', hpos]
    exact hlen
  · rw [hbuf]
    refine lfLast_of_upper ?_
    rw [hup]
    exact (lfLast_contents hlf).upper
  · rw [hbuf, hbuf', hpos]
    rfl
  · rw [hcpos, hcpos', hpos]
    rfl

/-! ### A session -/

/-- The first `n` lines that the server reads. -/
def session : ℕ → Scan → Text → List Line
  | 0, _, _ => []
  | n + 1, s, input =>
    let r := telnetFgets 511 [] input
    if r.stored = [] then [] else line s r.stored :: session n (line s r.stored).last r.input

theorem session_succ (n : ℕ) (s : Scan) (input : Text) :
    session (n + 1) s input = if (telnetFgets 511 [] input).stored = [] then []
      else line s (telnetFgets 511 [] input).stored ::
        session n (line s (telnetFgets 511 [] input).stored).last
        (telnetFgets 511 [] input).input := rfl

def lines (l : Text) : List Text := pieces 10 l.length l.length l

theorem lines_eq (hl : l ≠ []) :
    lines l = (piece 10 l.length l).1 :: lines (piece 10 l.length l).2 := by
  have happ := congrArg List.length (piece_append 10 l.length l)
  rw [length_append] at happ
  unfold lines
  rw [pieces_eq 10 _ _ hl, pieces_of_le 10 (by omega) le_rfl (by omega) le_rfl]

/-- What is said of each line is said of it alone, a line is one command, and `cpos` is always in
the string. -/
def FramedSession (input : Text) : Prop :=
  ∀ n, (session n .start input).map said =
    ((lines (strip input)).take n).map (fun text => said (line .start text)) ∧
    ∀ l ∈ session n .start input, ∀ s ∈ l.visited, Inside s

theorem Framed.mono {first first' : Prop} (hf : first → first') (h : Framed first text) :
    Framed first' text := ⟨h.1, h.2.1.imp_left hf, h.2.2⟩

theorem session_framed (n : ℕ) (s : Scan) (input : Text)
    (hhead : ∀ text ∈ (lines (strip input)).head?, Framed (s.cpos = 0) text)
    (htail : ∀ text ∈ (lines (strip input)).tail, Framed False text) :
    (session n s input).map said =
    ((lines (strip input)).take n).map (fun text => said (line .start text)) ∧
      ∀ l ∈ session n s input, ∀ x ∈ l.visited, Inside x := by
  induction n generalizing s input with
  | zero => exact ⟨rfl, fun l hl => absurd hl not_mem_nil⟩
  | succ n ih =>
    have hread := readLine_eq 511 input
    rw [session_succ, telnetFgets_nil]
    by_cases hemp : strip input = []
    · have hnone : (readLine 511 input).line = [] := by
        rw [hemp, piece_nil] at hread
        exact (congrArg Prod.fst hread).symm
      rw [if_pos hnone, hemp]
      exact ⟨rfl, fun l hl => absurd hl not_mem_nil⟩
    · rw [lines_eq hemp] at hhead htail ⊢
      have hfirst := hhead _ rfl
      have hpiece := piece_of_le 10 (by decide : 0 < 511) le_rfl hfirst.1
      rw [hread] at hpiece
      rw [← hpiece] at hfirst hhead htail ⊢
      have hsome : (readLine 511 input).line ≠ [] := by
        intro hnone
        refine hemp ((piece_eq_nil_iff 10 511 _).1 ?_)
        rw [hread, hnone]
      have hlf : LfLast (readLine 511 input).line := by
        intro p q hpq
        refine piece_delim 10 511 (strip input) (p := p) ?_
        rw [hread, hpq]
      obtain ⟨hsaid, hin⟩ := alike_line hlf hfirst
      obtain ⟨ihsaid, ihin⟩ := ih (line s (readLine 511 input).line).last (readLine 511 input).rest
        (fun text ht => (htail text (mem_of_mem_head? ht)).mono False.elim)
        (fun text ht => htail text (mem_of_mem_tail ht))
      rw [if_neg hsome]
      constructor
      · rw [map_cons, take_succ_cons, map_cons, ihsaid, hsaid]
      · intro l hl
        rcases mem_cons.1 hl with rfl | hl
        · exact hin
        · exact ihin l hl

/-- **The tokens of a session.** When every line fits the buffer and has its blank or newline in
place, what the scanner returns for a line depends on that line alone. -/
theorem framed_of_lines {input : Text}
    (h : ∀ i text, (lines (strip input))[i]? = some text → Framed (i = 0) text) :
    FramedSession input := by
  intro n
  refine session_framed n .start input (fun text ht => ?_) (fun text ht => ?_)
  · rw [Option.mem_def, head?_eq_getElem?] at ht
    exact (h 0 text ht).mono fun _ => rfl
  · obtain ⟨i, hi⟩ := mem_iff_getElem?.1 ht
    rw [getElem?_tail] at hi
    exact (h (i + 1) text hi).mono fun h0 => Nat.succ_ne_zero i h0

/-- Two lines that are framed. -/
theorem framed_user_pass : FramedSession (ascii "USER ann\r\nPASS pw\r\n") := by
  have hlines : lines (strip (ascii "USER ann\r\nPASS pw\r\n")) =
    [ascii "USER ann\r\n", ascii "PASS pw\r\n"] := by
    decide +kernel
  refine framed_of_lines fun i text hi => ?_
  rw [hlines] at hi
  rcases i with - | - | i
  · obtain rfl := Option.some.inj hi
    exact ⟨by decide +kernel, .inl rfl, by decide +kernel⟩
  · obtain rfl := Option.some.inj hi
    exact ⟨by decide +kernel, .inr (by decide +kernel), by decide +kernel⟩
  · cases hi

/-- After a HELP, the end of a QUIT that is cut by a NUL is looked for where the line before
ended. -/
theorem quit_after_help : ¬ ∀ input : Text, FramedSession input := by
  intro h
  have hlines : lines (strip (ascii "HELP x\r\nQUIT\x00ab\n")) =
    [ascii "HELP x\r\n", ascii "QUIT\x00ab\n"] := by
    decide +kernel
  have hfirst : telnetFgets 511 [] (ascii "HELP x\r\nQUIT\x00ab\n") =
      ⟨ascii "HELP x\r\n", false, ascii "QUIT\x00ab\n", []⟩ := by decide +kernel
  have hsecond :
      telnetFgets 511 [] (ascii "QUIT\x00ab\n") = ⟨ascii "QUIT\x00ab\n", false, [], []⟩ := by
    decide +kernel
  have hlast : (line .start (ascii "HELP x\r\n")).last =
    ⟨ascii "HELP x\n" ++ List.replicate 505 0, 7, .cmd⟩ := by
    decide +kernel
  have hquit :
      (line ⟨ascii "HELP x\n" ++ List.replicate 505 0, 7, .cmd⟩ (ascii "QUIT\x00ab\n")).stop =
      .action .quit := by decide +kernel
  have halone : (line .start (ascii "QUIT\x00ab\n")).stop = .notUnderstood := by decide +kernel
  have hsession : session 2 .start (ascii "HELP x\r\nQUIT\x00ab\n") =
      [line .start (ascii "HELP x\r\n"),
        line (line .start (ascii "HELP x\r\n")).last (ascii "QUIT\x00ab\n")] := by
    rw [session_succ, hfirst, session_succ, hsecond, if_neg (by decide +kernel),
      if_neg (by decide +kernel)]
    rfl
  have hsaid := (h (ascii "HELP x\r\nQUIT\x00ab\n") 2).1
  rw [hsession, hlines, hlast] at hsaid
  have hsame := congrArg (fun x => x.2.2.2) (List.cons.inj (List.cons.inj hsaid).2).1
  have hstop :
      (line ⟨ascii "HELP x\n" ++ List.replicate 505 0, 7, .cmd⟩ (ascii "QUIT\x00ab\n")).stop =
      (line .start (ascii "QUIT\x00ab\n")).stop := hsame
  rw [hquit, halone] at hstop
  cases hstop

end Inetutils.Ftpd.Framing
