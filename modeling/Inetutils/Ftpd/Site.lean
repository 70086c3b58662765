import Inetutils.Ftpd.Commands
import Inetutils.Ftpd.Framing
import Mathlib.Data.Nat.Digits.Lemmas

/-! # The modes of SITE

SITE UMASK and SITE CHMOD of `src/ftpd/ftpcmd.y`: the digits are read by `atoi`, the `int` is taken
apart again and put together as an octal number, and the two commands ask in different ways whether
that went well. -/

namespace Inetutils.Ftpd.Site

open List hiding lex
open Input Scanner Ftpd.Parser Commands Framing
open Dataconn (Text)
open Lib.Decimal (isDigit digit value value_append value_cons value_nil)
open Lib.Pieces

/-! ### Decimal digits as octal ones -/

def NoEight (n : ℕ) : Prop := ∀ k ∈ Nat.digits 10 n, k ≤ 7

instance (n : ℕ) : Decidable (NoEight n) := by
  unfold NoEight
  infer_instance

/-- The digits of `n`, read in octal. -/
def octalOf (n : ℕ) : ℕ := Nat.ofDigits 8 (Nat.digits 10 n)

theorem octalOf_zero : octalOf 0 = 0 := rfl

theorem octalOf_eq (n : ℕ) : octalOf n = n % 10 + 8 * octalOf (n / 10) := by
  rcases Nat.eq_zero_or_pos n with rfl | hn
  · rfl
  · rw [octalOf, Nat.digits_def' (by decide) hn, Nat.ofDigits_cons]
    rfl

theorem noEight_iff (n : ℕ) : NoEight n ↔ n % 10 ≤ 7 ∧ NoEight (n / 10) := by
  rcases Nat.eq_zero_or_pos n with rfl | hn
  · exact iff_of_true (by decide) ⟨by decide, by decide⟩
  · unfold NoEight
    rw [Nat.digits_def' (by decide) hn]
    exact forall_mem_cons

theorem octalOf_pos {n : ℕ} (h : 0 < n) : 0 < octalOf n := by
  induction n using Nat.strong_induction_on with
  | _ n ih =>
    rw [octalOf_eq]
    by_cases hlast : n % 10 = 0
    · have := ih (n / 10) (by omega) (by omega)
      omega
    · omega

theorem octalOf_eq_one {n : ℕ} (h : octalOf n = 1) : n = 1 := by
  rw [octalOf_eq] at h
  by_contra hne
  by_cases hn : n < 10
  · rw [Nat.div_eq_of_lt hn, octalOf_zero, Nat.mod_eq_of_lt hn] at h
    omega
  · have := octalOf_pos (n := n / 10) (by omega)
    omega

theorem octalOf_le_iff (n : ℕ) : octalOf n ≤ 511 ↔ n ≤ 777 := by
  rw [octalOf_eq n, octalOf_eq (n / 10), octalOf_eq (n / 10 / 10)]
  rcases Nat.eq_zero_or_pos (n / 10 / 10 / 10) with h0 | hpos
  · rw [h0, octalOf_zero]
    omega
  · have := octalOf_pos hpos
    omega

section
variable {k n : ℕ} {m r : ℤ}

theorem octal_nat (hn : n < 10 ^ k) :
    octal k n m r = if NoEight n then r + octalOf n * m else -1 := by
  induction k generalizing n m r with
  | zero =>
    obtain rfl : n = 0 := by simpa using hn
    rw [octal, if_pos (by decide), octalOf_zero]
    simp
  | succ k ih =>
    rw [pow_succ] at hn
    rw [octal]
    by_cases h0 : n = 0
    · subst h0
      rw [if_pos (show ((0 : ℕ) : ℤ) = 0 from rfl), if_pos (by decide), octalOf_zero]
      simp
    · have hmod : (n : ℤ).tmod 10 = ((n % 10 : ℕ) : ℤ) := (Int.ofNat_tmod n 10).symm
      have hdiv : (n : ℤ).tdiv 10 = ((n / 10 : ℕ) : ℤ) := (Int.ofNat_tdiv n 10).symm
      rw [if_neg (by omega), hmod, hdiv, ih (by omega), octalOf_eq n]
      by_cases h7 : n % 10 ≤ 7
      · rw [if_neg (by omega)]
        have hiff : NoEight n ↔ NoEight (n / 10) := by rw [noEight_iff n, and_iff_right h7]
        simp only [hiff]
        refine if_congr Iff.rfl ?_ rfl
        push_cast
        ring
      · rw [if_pos (by omega), if_neg fun h => h7 ((noEight_iff n).1 h).1]

theorem octal_neg (hn : n < 10 ^ k) : octal k (-(n : ℤ)) m r = r - octalOf n * m := by
  induction k generalizing n m r with
  | zero =>
    obtain rfl : n = 0 := by simpa using hn
    rw [octal, octalOf_zero]
    simp
  | succ k ih =>
    rw [pow_succ] at hn
    rw [octal]
    by_cases h0 : n = 0
    · subst h0
      rw [if_pos (show -((0 : ℕ) : ℤ) = 0 from rfl), octalOf_zero]
      simp
    · have hmod : (-(n : ℤ)).tmod 10 = -((n % 10 : ℕ) : ℤ) := by
        rw [Int.neg_tmod]
        exact congrArg _ (Int.ofNat_tmod n 10).symm
      have hdiv : (-(n : ℤ)).tdiv 10 = -((n / 10 : ℕ) : ℤ) := by
        rw [Int.neg_tdiv]
        exact congrArg _ (Int.ofNat_tdiv n 10).symm
      rw [if_neg (by omega), hmod, if_neg (by omega), hdiv, ih (by omega), octalOf_eq n]
      push_cast
      ring

end

theorem octalNumber_nat {n : ℕ} (h : n < 2 ^ 31) :
    octalNumber n = if NoEight n then (octalOf n : ℤ) else -1 := by
  unfold octalNumber
  rw [octal_nat (by omega)]
  simp

theorem octalNumber_neg {n : ℕ} (h : n ≤ 2 ^ 31) : octalNumber (-(n : ℤ)) = -(octalOf n : ℤ) := by
  unfold octalNumber
  rw [octal_neg (by omega)]
  simp

/-! ### Digits that are typed -/

def octalValue (ds : Text) : ℕ := ds.foldl (fun n c => 8 * n + digit c) 0

def OctalMode (ds : Text) : Prop := (∀ c ∈ ds, c ≤ 55) ∧ octalValue ds ≤ 511

theorem digit_lt {c : UInt8} (h : isDigit c) : digit c < 10 ∧ (digit c ≤ 7 ↔ c ≤ 55) := by
  unfold isDigit at h
  unfold digit
  rw [UInt8.le_iff_toNat_le]
  simp only [Bool.and_eq_true, decide_eq_true_eq] at h
  change _ ∧ (_ ↔ c.toNat ≤ 55)
  omega

theorem noEight_value {ds : Text} (h : ∀ c ∈ ds, isDigit c) : NoEight (value 0 ds) ↔
    ∀ c ∈ ds, c ≤ 55 := by
  induction ds using List.reverseRecOn with
  | nil => exact iff_of_true (by decide) fun c hc => absurd hc not_mem_nil
  | append_singleton ds c ih =>
    obtain ⟨hlt, hle⟩ := digit_lt (h c (mem_append_right _ (mem_singleton_self c)))
    have ih := ih fun b hb => h b (mem_append_left _ hb)
    rw [value_append, value_cons, value_nil, noEight_iff,
      show (10 * value 0 ds + digit c) % 10 = digit c by omega,
      show (10 * value 0 ds + digit c) / 10 = value 0 ds by omega, ih, hle]
    simp only [mem_append, mem_singleton]
    constructor
    · rintro ⟨hc, hds⟩ b (hb | rfl)
      · exact hds b hb
      · exact hc
    · exact fun hall => ⟨hall c (.inr rfl), fun b hb => hall b (.inl hb)⟩

theorem octalValue_eq {ds : Text} (h : ∀ c ∈ ds, isDigit c) :
    octalValue ds = octalOf (value 0 ds) := by
  induction ds using List.reverseRecOn with
  | nil => rfl
  | append_singleton ds c ih =>
    obtain ⟨hlt, -⟩ := digit_lt (h c (mem_append_right _ (mem_singleton_self c)))
    have ih := ih fun b hb => h b (mem_append_left _ hb)
    rw [value_append, value_cons, value_nil, octalOf_eq,
      show (10 * value 0 ds + digit c) % 10 = digit c by omega,
      show (10 * value 0 ds + digit c) / 10 = value 0 ds by omega, ← ih]
    unfold octalValue
    rw [foldl_append, foldl_cons, foldl_nil]
    omega

theorem octalMode_iff {ds : Text} (h : ∀ c ∈ ds, isDigit c) :
    OctalMode ds ↔ NoEight (value 0 ds) ∧ value 0 ds ≤ 777 := by
  unfold OctalMode
  rw [← noEight_value h, octalValue_eq h]
  exact and_congr_right fun _ => octalOf_le_iff _

/-! ### The commands -/

inductive Command
  | umask
  | chmod (path : Text)

def Command.text (ds : Text) : Command → Text
  | umask => ascii "SITE " ++ (ascii "UMASK " ++ ds)
  | chmod path => ascii "SITE " ++ (ascii "CHMOD " ++ (ds ++ 32 :: path))

def modeT (n : ℤ) : ℕ := (n % 2 ^ 32).toNat

inductive Effect
  | umask (mask : ℕ)
  | chmod (path : Text) (mode : ℕ)
  deriving DecidableEq

def effects (w : World) : Stop → List Effect
  | .action (.siteUmaskSet mask) =>
    if w.loggedIn then
      if octalNumber mask = -1 ∨ 511 < octalNumber mask then []
      else [.umask (modeT (octalNumber mask))]
    else []
  | .action (.siteChmod mode s) =>
    if w.loggedIn then
      match w.pathname s with
      | some path => if 511 < octalNumber mode then [] else [.chmod path (modeT (octalNumber mode))]
      | none => []
    else []
  | _ => []

/-- The line that ftpd reads when `input` comes. -/
def firstLine (s : Scan) (input : Text) : Line := line s (telnetFgets 511 [] input).stored

/-! ### How the line is read -/

/-- The scanner has `v` in front of it. -/
structure At (s : Scan) (state : LexState) (v : Text) : Prop where
  inside : Inside s
  state : s.state = state
  view : s.view = v

theorem At.move {s : Scan} {state : LexState} {v : Text} (h : At s state v) {m : Move}
    (hk : m.k ≤ v.length) :
    At (s.move m) m.state (v.drop m.k) := by
  have hview := h.inside.view
  rw [h.view] at hview
  have hin := h.inside
  unfold Inside at hin
  have hle : s.cpos + m.k ≤ (cstring s.cbuf).length := by
    rw [hview, length_drop] at hk
    omega
  have hlen : (cstring (s.move m).cbuf).length = (cstring s.cbuf).length := by
    have := congrArg List.length (map_upper_move hle)
    rwa [length_map, length_map] at this
  have hinside : Inside (s.move m) := by
    unfold Inside
    rwa [hlen, move_cpos]
  refine ⟨hinside, move_state s m, ?_⟩
  rw [hinside.view, cstring_move hle, move_cpos, hview, drop_drop]
  split
  · unfold raiseAt
    rw [← append_assoc, drop_left']
    rw [length_append, length_map, length_take, length_take, length_drop]
    omega
  · rfl

/-- The reductions, and how the line ends, without an error of the grammar. -/
def Goes (l : Line) (rs : List Reduction) (stop : Stop) : Prop :=
  l.reductions = rs ∧ l.complained = false ∧ l.stop = stop

theorem Goes.visit {l : Line} {rs : List Reduction} {stop : Stop} (h : Goes l rs stop) (t : Token)
    (s : Scan) :
    Goes ((l.token t).visit s) rs stop :=
  ⟨h.1, h.2.1, h.2.2⟩

section
variable {s : Scan} {state : LexState} {u v : Text} {t t₀ : Token} {m : Move} {next : Token → Rule}
    {rs : List Reduction}
  {stop : Stop}

theorem goes_shift (h : At s state (u ++ v)) (hlex : lex state (u ++ v) = .token t m)
    (hk : m.k = u.length) (hnext : ∀ s', At s' m.state v → Goes (parse (next t) t s') rs stop) :
    Goes (parse (.shift next) t₀ s) rs stop := by
  have hy : yylex s = .token t m := by
    unfold yylex
    rw [h.state, h.view, hlex]
  have hmove := h.move (m := m) (by rw [hk, length_append]; exact Nat.le_add_right _ _)
  rw [hk, drop_left] at hmove
  rw [parse, hy]
  exact (hnext _ hmove).visit t s

theorem goes_not_understood {back : ℕ} (h : At s state v)
    (hlex : lex state v = .notUnderstood m back) :
    Goes (parse (.shift next) t₀ s) [] .notUnderstood := by
  have hy : yylex s = .notUnderstood m back := by
    unfold yylex
    rw [h.state, h.view, hlex]
  rw [parse, hy]
  exact ⟨rfl, rfl, rfl⟩

theorem goes_reduce {r : Reduction} {rule : Rule} (h : Goes (parse rule t₀ s) rs stop) :
    Goes (parse (.reduce r rule) t₀ s) (r :: rs) stop := by
  obtain ⟨hrs, hc, hstop⟩ := h
  exact ⟨congrArg _ hrs, hc, hstop⟩

end

theorem goes_site {text y : Text} {rs : List Reduction} {stop : Stop}
    (hc : contents text = ascii "SITE " ++ y)
    (h : ∀ s, At s .sitecmd y → Goes (parse site .sp s) rs stop) (s : Scan) :
    Goes (line s text) rs stop := by
  have hsite : ascii "SITE " = [83, 73, 84, 69, 32] := by decide
  rw [hsite] at hc
  have hpos : position (contents text) s.cpos = 4 := by
    rw [hc]
    rfl
  have hle : position (contents text) s.cpos ≤ (contents text).length := by
    rw [hpos, hc, length_append]
    exact Nat.le_add_right_of_le (by decide)
  obtain ⟨hbuf, hcpos⟩ := cstring_read s hle
  have hraise : raiseAt 0 4 (contents text) = contents text := by
    rw [hc]
    rfl
  rw [hpos] at hbuf hcpos
  rw [hraise] at hbuf
  have hword : cstring ((s.read text).cbuf.take (s.read text).cpos) = [83, 73, 84, 69] := by
    rw [hcpos,
      cstring_take (by rw [hbuf, hc, length_append]; exact Nat.le_add_right_of_le (by decide)),
      hbuf, hc]
    rfl
  have hcmd : command (s.read text) = .token (.cmd .site) ⟨0, .sitecmd, false⟩ := by
    unfold command
    rw [hword]
    decide +kernel
  have hinside : Inside (s.read text) := by
    unfold Inside
    rw [hbuf, hcpos, hc, length_append]
    exact Nat.le_add_right_of_le (by decide)
  have hat : At ((s.read text).move ⟨0, .sitecmd, false⟩) .sitecmd (32 :: y) := by
    refine ⟨hinside, rfl, ?_⟩
    have hview := hinside.view
    rw [hbuf, hcpos, hc] at hview
    exact hview
  have hparse :
      Goes (parse (rule .site) (.cmd .site) ((s.read text).move ⟨0, .sitecmd, false⟩)) rs stop := by
    exact goes_shift (u := [32]) hat (t := .sp) (m := ⟨1, .sitecmd, false⟩) rfl rfl h
  unfold line parseLine
  rw [hcmd]
  exact hparse.visit _ _

section
variable {text y : Text} {rs : List Reduction} {stop : Stop}

theorem goes_site_umask (hc : contents text = ascii "SITE " ++ (ascii "UMASK " ++ y))
    (h : ∀ s, At s .args y →
      Goes (parse (number fun mask => crlf (.siteUmaskSet mask)) .sp s) rs stop) (s : Scan) :
    Goes (line s text) (.checkLogin :: rs) stop := by
  have humask : ascii "UMASK " = [85, 77, 65, 83, 75, 32] := by decide
  rw [humask] at hc
  refine goes_site hc (fun s hs => ?_) s
  refine goes_shift (u := [85, 77, 65, 83, 75]) hs (t := .cmd .umask) (m := ⟨5, .args, true⟩)
    (by rfl) rfl fun s hs => ?_
  refine goes_reduce ?_
  exact goes_shift (u := [32]) hs (t := .sp) (m := ⟨1, .args, false⟩) rfl rfl h

theorem goes_site_chmod (hc : contents text = ascii "SITE " ++ (ascii "CHMOD " ++ y))
    (h : ∀ s,
      At s .nstr y →
      Goes (parse (number fun mode => tok .sp (pathname fun p => crlf (.siteChmod mode p))) .sp s)
      rs stop)
    (s : Scan) : Goes (line s text) (.checkLogin :: rs) stop := by
  have hchmod : ascii "CHMOD " = [67, 72, 77, 79, 68, 32] := by decide
  rw [hchmod] at hc
  refine goes_site hc (fun s hs => ?_) s
  refine goes_shift (u := [67, 72, 77, 79, 68]) hs (t := .cmd .chmod) (m := ⟨5, .nstr, true⟩)
    (by rfl) rfl fun s hs => ?_
  refine goes_reduce ?_
  exact goes_shift (u := [32]) hs (t := .sp) (m := ⟨1, .nstr, false⟩) rfl rfl h

end

theorem lex_number {ds x : Text} (hne : ds ≠ []) (hd : ∀ c ∈ ds, isDigit c)
    (hx : ∀ c ∈ x.head?, isDigit c = false) :
    args (ds ++ x) = .token (.number (atoi ds)) ⟨ds.length, .args, false⟩ ∧
      lex .nstr (ds ++ x) = .token (.number (atoi ds)) ⟨ds.length, .str1, false⟩ := by
  have htake : (ds ++ x).takeWhile isDigit = ds := by
    rw [takeWhile_append_of_pos hd]
    rcases x with - | ⟨c, x⟩
    · rw [takeWhile_nil, append_nil]
    · rw [takeWhile_cons_of_neg (by simp [hx c rfl]), append_nil]
  obtain ⟨c, l, rfl⟩ := exists_cons_of_ne_nil hne
  have hc : isDigit (char (c :: l ++ x)) = true := hd c mem_cons_self
  have h32 : char (c :: l ++ x) ≠ 32 := by
    intro heq
    rw [heq] at hc
    exact absurd hc (by decide)
  constructor
  · unfold args Scanner.number
    rw [if_pos hc, htake]
  · unfold lex Scanner.number
    rw [if_neg h32, if_pos hc, htake]

theorem not_digit_ten : ∀ c ∈ ([10] : Text).head?, isDigit c = false := by decide +kernel

theorem goes_umask {ds text : Text} (hne : ds ≠ []) (hd : ∀ c ∈ ds, isDigit c)
    (hc : contents text = ascii "SITE " ++ (ascii "UMASK " ++ (ds ++ [10]))) (s : Scan) :
    Goes (line s text) [.checkLogin] (.action (.siteUmaskSet (atoi ds))) := by
  refine goes_site_umask hc (fun s hs => ?_) s
  refine goes_shift hs (lex_number hne hd not_digit_ten).1 rfl fun s hs => ?_
  exact goes_shift (u := [10]) (v := []) hs (t := .crlf) (m := ⟨1, .cmd, false⟩) rfl rfl fun _ _ =>
    ⟨rfl, rfl, rfl⟩

theorem goes_chmod {ds path text : Text} (hne : ds ≠ []) (hd : ∀ c ∈ ds, isDigit c)
    (hpath : path ≠ [])
    (hc : contents text = ascii "SITE " ++ (ascii "CHMOD " ++ (ds ++ 32 :: (path ++ [10]))))
    (s : Scan) :
    Goes (line s text) [.checkLogin, .pathname path] (.action (.siteChmod (atoi ds) path)) := by
  refine goes_site_chmod hc (fun s hs => ?_) s
  have hnd : ∀ c ∈ (32 :: (path ++ [10])).head?, isDigit c = false := by
    rintro c ⟨⟩
    decide
  refine goes_shift hs (lex_number hne hd hnd).2 rfl fun s hs => ?_
  refine goes_shift (u := [32]) hs (t := .sp) (m := ⟨1, .str2, false⟩) rfl rfl fun s hs => ?_
  have hstr : lex .str2 (path ++ [10]) = .token (.string path) ⟨path.length, .args, false⟩ := by
    have hlen : 1 < (path ++ [10]).length := by
      rw [length_append, length_singleton]
      exact Nat.lt_add_of_pos_left (length_pos_of_ne_nil hpath)
    unfold lex str2
    dsimp only
    rw [if_pos ⟨hlen, getLast?_concat⟩, dropLast_concat, length_append, length_singleton,
      Nat.add_sub_cancel]
  refine goes_shift hs hstr rfl fun s hs => goes_reduce ?_
  exact goes_shift (u := [10]) (v := []) hs (t := .crlf) (m := ⟨1, .cmd, false⟩) rfl rfl fun _ _ =>
    ⟨rfl, rfl, rfl⟩

theorem goes_cut {ds text : Text} (hne : ds ≠ []) (hd : ∀ c ∈ ds, isDigit c)
    (hc : contents text = ascii "SITE " ++ (ascii "UMASK " ++ ds) ∨
      contents text = ascii "SITE " ++ (ascii "CHMOD " ++ ds)) (s : Scan) :
    Goes (line s text) [.checkLogin] .notUnderstood := by
  have hnum := lex_number (x := []) hne hd (by simp)
  rcases hc with hc | hc
  · rw [← append_nil ds] at hc
    refine goes_site_umask hc (fun s hs => ?_) s
    refine goes_shift hs hnum.1 rfl fun s hs => ?_
    exact goes_not_understood hs (m := ⟨1, .cmd, false⟩) (by rfl)
  · rw [← append_nil ds] at hc
    refine goes_site_chmod hc (fun s hs => ?_) s
    refine goes_shift hs hnum.2 rfl fun s hs => ?_
    exact goes_not_understood hs (m := ⟨0, .cmd, false⟩) (by rfl)

theorem goes_cut_path {ds path text : Text} (hne : ds ≠ []) (hd : ∀ c ∈ ds, isDigit c)
    (h10 : 10 ∉ path)
    (hc : contents text = ascii "SITE " ++ (ascii "CHMOD " ++ (ds ++ 32 :: path))) (s : Scan) :
    Goes (line s text) [.checkLogin] .notUnderstood := by
  refine goes_site_chmod hc (fun s hs => ?_) s
  have hnd : ∀ c ∈ (32 :: path).head?, isDigit c = false := by
    rintro c ⟨⟩
    decide
  refine goes_shift hs (lex_number hne hd hnd).2 rfl fun s hs => ?_
  refine goes_shift (u := [32]) hs (t := .sp) (m := ⟨1, .str2, false⟩) rfl rfl fun s hs => ?_
  refine goes_not_understood hs (m := ⟨path.length, .cmd, false⟩) (if_neg ?_)
  exact fun h => h10 (mem_of_getLast? h.2)

/-! ### What is read -/

theorem contents_cr {l : Text} (h0 : 0 ∉ l) (h13 : 13 ∉ l) (r : Text) :
    contents (l ++ 13 :: r) = l ++ [10] := by
  have hstr : cstring (l ++ 13 :: r) = l ++ 13 :: cstring r := by
    unfold cstring
    rw [takeWhile_append_of_pos (by grind), takeWhile_cons_of_pos (by decide)]
  unfold contents before
  rw [hstr, if_pos (mem_append_right _ mem_cons_self), takeWhile_append_of_pos (by grind),
    takeWhile_cons_of_neg (by decide), append_nil]

theorem contents_part {l : Text} (h0 : 0 ∉ l) (h13 : 13 ∉ l) : contents l = l := by
  have hstr := (cstring_eq_iff l).2 h0
  unfold contents
  rw [hstr, if_neg h13]

theorem strip_append {l : Text} (h : IAC ∉ l) (r : Text) : strip (l ++ r) = l ++ strip r := by
  induction l with
  | nil => rfl
  | cons c l ih =>
    rw [mem_cons, not_or] at h
    rw [cons_append, strip_byte (Ne.symm h.1), ih h.2, cons_append]

structure Plain (l : Text) : Prop where
  nul : 0 ∉ l
  lf : 10 ∉ l
  cr : 13 ∉ l
  iac : IAC ∉ l

/-- **The line as it is scanned**: with its end if that fits, and else cut. -/
theorem contents_stored {l : Text} (h : Plain l) (more : Text) :
    contents (telnetFgets 511 [] (l ++ 13 :: 10 :: more)).stored = if l.length ≤ 510 then l ++ [10]
      else l.take 511 := by
  have hcr : 13 ≠ IAC := by decide
  have hlf : 10 ≠ IAC := by decide
  have hstrip : strip (l ++ 13 :: 10 :: more) = (l ++ [13]) ++ 10 :: strip more := by
    rw [strip_append h.iac, strip_byte hcr, strip_byte hlf, append_assoc]
    rfl
  have hread : (telnetFgets 511 [] (l ++ 13 :: 10 :: more)).stored =
      (piece 10 511 ((l ++ [13]) ++ 10 :: strip more)).1 := by
    rw [telnetFgets_nil, ← hstrip, readLine_eq]
  have h10 : 10 ∉ l ++ [13] := by
    rw [mem_append, not_or]
    exact ⟨h.lf, by decide⟩
  have hlen : (l ++ [13]).length = l.length + 1 := by rw [length_append, length_singleton]
  rw [hread]
  split_ifs with hfits
  · rcases Nat.lt_or_eq_of_le hfits with hlt | heq
    · rw [piece_of_delim 10 h10 (by omega)]
      rw [append_assoc, singleton_append, contents_cr h.nul h.cr]
    · rw [piece_full 10 h10 (by decide) (by omega)]
      rw [contents_cr h.nul h.cr]
  · have hsplit : (l ++ [13]) ++ 10 :: strip more =
      l.take 511 ++ (l.drop 511 ++ ([13] ++ 10 :: strip more)) := by
      rw [← append_assoc (l.take 511), take_append_drop, append_assoc]
    rw [hsplit, piece_full 10 (fun hm => h.lf (mem_of_mem_take hm)) (by decide)
      (length_take_of_le (by omega))]
    exact contents_part (fun hm => h.nul (mem_of_mem_take hm)) fun hm => h.cr (mem_of_mem_take hm)

/-! ### The mode that is applied -/

/-- What the command does with the mode `n`. -/
def Command.effect (w : World) (n : ℕ) : Command → List Effect
  | umask => [.umask n]
  | chmod path => ((w.pathname path).map fun p => Effect.chmod p n).toList

def Command.Ready (w : World) : Command → Prop
  | umask => w.loggedIn
  | chmod path => w.loggedIn ∧ path ≠ [] ∧ Plain path ∧ (w.pathname path).isSome

/-- What is done with an `int`. -/
def Command.action (a : ℤ) : Command → Action
  | umask => .siteUmaskSet a
  | chmod path => .siteChmod a path

/-- When the command takes an `int` for no mode. -/
def Command.refuses (a : ℤ) : Command → Prop
  | umask => octalNumber a = -1 ∨ 511 < octalNumber a
  | chmod _ => 511 < octalNumber a

/-- **The mode of the digits is applied**, or the command is refused. -/
def Proper (w : World) (ds : Text) (c : Command) (l : Line) : Prop :=
  (OctalMode ds → effects w l.stop = c.effect w (octalValue ds)) ∧
    (¬ OctalMode ds → effects w l.stop = [] ∧ ∃ f, answer w l = [.reply 501 f])

def Command.Reads (ds : Text) : Command → Prop
  | umask => value 0 ds < 2 ^ 31 ∨ atoi ds = -1 ∨ 777 < atoi ds ∨ ¬ NoEight (atoi ds).toNat
  | chmod _ => NoEight (atoi ds).toNat ∧ (value 0 ds < 2 ^ 31 ∨ 777 < atoi ds)

section
variable {w : World} {ds more : Text} {c : Command} {l : Line}

theorem atoi_range (ds : Text) : -(2 : ℤ) ^ 31 ≤ atoi ds ∧ atoi ds < 2 ^ 31 := by
  unfold atoi
  have h1 := Int.le_bmod (x := (min (value 0 ds) (2 ^ 63 - 1) : ℤ)) (m := 2 ^ 32) (by decide)
  have h2 := Int.bmod_lt (x := (min (value 0 ds) (2 ^ 63 - 1) : ℤ)) (m := 2 ^ 32) (by decide)
  omega

theorem atoi_small (h : value 0 ds < 2 ^ 31) : atoi ds = value 0 ds := by
  unfold atoi
  rw [min_eq_left (by omega), Int.bmod_eq_of_le (by omega) (by omega)]

/-- **`octal_number`** of what `atoi` gives, by its sign. -/
theorem octalNumber_cases (a : ℤ) (h : -(2 : ℤ) ^ 31 ≤ a ∧ a < 2 ^ 31) :
    (0 ≤ a ∧ octalNumber a = if NoEight a.toNat then (octalOf a.toNat : ℤ) else -1) ∨
      (a < 0 ∧ octalNumber a = -(octalOf (-a).toNat : ℤ)) := by
  rcases Int.lt_or_le a 0 with hneg | hpos
  · have := octalNumber_neg (n := (-a).toNat) (by omega)
    rw [Int.toNat_of_nonneg (by omega), neg_neg] at this
    exact .inr ⟨hneg, this⟩
  · have := octalNumber_nat (n := a.toNat) (by omega)
    rw [Int.toNat_of_nonneg hpos] at this
    exact .inl ⟨hpos, this⟩

theorem refuses_umask {a : ℤ} (h : -(2 : ℤ) ^ 31 ≤ a ∧ a < 2 ^ 31) :
    Command.umask.refuses a ↔ a = -1 ∨ 777 < a ∨ ¬ NoEight a.toNat := by
  unfold Command.refuses
  rcases octalNumber_cases a h with ⟨hpos, heq⟩ | ⟨hneg, heq⟩
  · rw [heq]
    split_ifs with hoct
    · have hle := octalOf_le_iff a.toNat
      simp only [hoct, not_true_eq_false, or_false, false_or]
      omega
    · simp [hoct]
  · have hzero : a.toNat = 0 := by omega
    have hone : octalOf (-a).toNat = 1 → (-a).toNat = 1 := octalOf_eq_one
    rw [heq, hzero]
    constructor
    · rintro (h1 | h1)
      · exact .inl (by have := hone (by omega); omega)
      · omega
    · rintro (rfl | h1 | h1)
      · exact .inl (by decide)
      · omega
      · exact absurd (by decide) h1

theorem refuses_chmod {a : ℤ} {path : Text} (h : -(2 : ℤ) ^ 31 ≤ a ∧ a < 2 ^ 31) :
    (Command.chmod path).refuses a ↔ 777 < a ∧ NoEight a.toNat := by
  unfold Command.refuses
  rcases octalNumber_cases a h with ⟨hpos, heq⟩ | ⟨hneg, heq⟩
  · rw [heq]
    split_ifs with hoct
    · have hle := octalOf_le_iff a.toNat
      simp only [hoct, and_true]
      omega
    · simp [hoct]
  · rw [heq]
    exact iff_of_false (by omega) fun h => by omega

/-- **The digits that are read as they are typed**: no others are taken for a mode, and no mode is
refused. -/
theorem reads_iff (h : ∀ c ∈ ds, isDigit c) :
    c.Reads ds ↔
    (OctalMode ds → ¬ c.refuses (atoi ds)) ∧ (¬ OctalMode ds → c.refuses (atoi ds)) := by
  rw [octalMode_iff h]
  have hrange := atoi_range ds
  rcases lt_or_ge (value 0 ds) (2 ^ 31) with hlt | hge
  · have ha := atoi_small hlt
    have hnat : (atoi ds).toNat = value 0 ds := by omega
    cases c with
    | umask =>
      rw [refuses_umask hrange, hnat]
      refine iff_of_true (.inl hlt) ⟨fun ⟨hoct, hle⟩ => ?_, fun hno => ?_⟩
      · rintro (h1 | h1 | h1)
        · omega
        · omega
        · exact h1 hoct
      · by_cases hoct : NoEight (value 0 ds)
        · have : ¬ value 0 ds ≤ 777 := fun hle => hno ⟨hoct, hle⟩
          exact .inr (.inl (by omega))
        · exact .inr (.inr hoct)
    | chmod path =>
      rw [refuses_chmod hrange, Command.Reads, hnat, and_iff_left (.inl hlt)]
      constructor
      · intro hoct
        refine ⟨fun hle h1 => by omega, fun hno => ⟨?_, hoct⟩⟩
        have : ¬ value 0 ds ≤ 777 := fun hle => hno ⟨hoct, hle⟩
        omega
      · rintro ⟨-, hno⟩
        by_contra hoct
        exact hoct (hno fun h => hoct h.1).2
  · have hno : ¬ (NoEight (value 0 ds) ∧ value 0 ds ≤ 777) := fun h => by omega
    rw [and_iff_right fun h => absurd h hno, imp_iff_right hno]
    cases c with
    | umask => rw [refuses_umask hrange, Command.Reads, or_iff_right (by omega)]
    | chmod path => rw [refuses_chmod hrange, Command.Reads, or_iff_right (by omega), and_comm]

theorem done_action (hw : c.Ready w) (a : ℤ) :
    (c.refuses a → effects w (.action (c.action a)) = [] ∧ ∃ f,
      Commands.action w (c.action a) = [.reply 501 f]) ∧
      (¬ c.refuses a → effects w (.action (c.action a)) = c.effect w (modeT (octalNumber a)) ∧
        ∀ f, Commands.action w (c.action a) ≠ [.reply 501 f]) := by
  cases c with
  | umask =>
    have hin : w.loggedIn = true := hw
    unfold Command.refuses Command.action effects Commands.action World.logged Command.effect
    dsimp only
    rw [if_pos hin, if_pos hin]
    refine ⟨fun h => ?_, fun h => ?_⟩
    · rw [if_pos h, if_pos h]
      exact ⟨rfl, _, rfl⟩
    · rw [if_neg h, if_neg h]
      exact ⟨rfl, fun f hf => by simp at hf⟩
  | chmod path =>
    obtain ⟨hin, -, -, hsome⟩ := hw
    obtain ⟨p, hp⟩ := Option.isSome_iff_exists.1 hsome
    unfold Command.refuses Command.action effects Commands.action World.onPath World.logged
      Command.effect
    dsimp only
    rw [if_pos hin, if_pos hin, hp]
    refine ⟨fun h => ?_, fun h => ?_⟩
    · dsimp only
      rw [if_pos h, if_pos h]
      exact ⟨rfl, _, rfl⟩
    · dsimp only
      rw [if_neg h, if_neg h]
      refine ⟨rfl, fun f hf => ?_⟩
      split_ifs at hf <;> simp [perrorReply] at hf

theorem effect_ne_nil (hw : c.Ready w) (n : ℕ) : c.effect w n ≠ [] := by
  cases c with
  | umask => exact cons_ne_nil _ _
  | chmod path =>
    obtain ⟨p, hp⟩ := Option.isSome_iff_exists.1 hw.2.2.2
    unfold Command.effect
    dsimp only
    rw [hp]
    exact cons_ne_nil _ _

theorem Plain.append {l r : Text} (hl : Plain l) (hr : Plain r) : Plain (l ++ r) := by
  constructor <;> rw [mem_append, not_or]
  exacts [⟨hl.nul, hr.nul⟩, ⟨hl.lf, hr.lf⟩, ⟨hl.cr, hr.cr⟩, ⟨hl.iac, hr.iac⟩]

theorem plain_digits (h : ∀ c ∈ ds, isDigit c) : Plain ds := by
  constructor <;> exact fun hm => absurd (h _ hm) (by decide)

theorem plain_text (hw : c.Ready w) (hd : ∀ c ∈ ds, isDigit c) : Plain (c.text ds) := by
  have hsite : Plain (ascii "SITE ") := by constructor <;> decide
  cases c with
  | umask =>
    have humask : Plain (ascii "UMASK ") := by constructor <;> decide
    exact hsite.append (humask.append (plain_digits hd))
  | chmod path =>
    have hchmod : Plain (ascii "CHMOD ") := by constructor <;> decide
    have hblank : Plain [32] := by constructor <;> decide
    have := hsite.append (hchmod.append ((plain_digits hd).append (hblank.append hw.2.2.1)))
    exact this

theorem goes_fits (hw : c.Ready w) (hne : ds ≠ []) (hd : ∀ c ∈ ds, isDigit c)
    (hlen : (c.text ds).length ≤ 510) (s : Scan) (more : Text) :
    (firstLine s (c.text ds ++ 13 :: 10 :: more)).stop = .action (c.action (atoi ds)) ∧
      answer w (firstLine s (c.text ds ++ 13 :: 10 :: more)) =
      Commands.action w (c.action (atoi ds)) := by
  have hcontents := contents_stored (plain_text hw hd) more
  rw [if_pos hlen] at hcontents
  unfold firstLine
  generalize (telnetFgets 511 [] (c.text ds ++ 13 :: 10 :: more)).stored = text at hcontents ⊢
  cases c with
  | umask =>
    have hin : w.loggedIn = true := hw
    unfold Command.text at hcontents
    rw [append_assoc, append_assoc] at hcontents
    obtain ⟨hrs, hcompl, hstop⟩ := goes_umask hne hd hcontents s
    refine ⟨hstop, ?_⟩
    unfold answer
    rw [hrs, hcompl, hstop]
    simp [reduction, hin, ending, Command.action]
  | chmod path =>
    obtain ⟨hin, hpath, -, hsome⟩ := hw
    unfold Command.text at hcontents
    rw [append_assoc, append_assoc, append_assoc, cons_append] at hcontents
    obtain ⟨hrs, hcompl, hstop⟩ := goes_chmod hne hd hpath hcontents s
    refine ⟨hstop, ?_⟩
    unfold answer
    rw [hrs, hcompl, hstop]
    simp [reduction, hin, hsome, ending, Command.action]

theorem goes_long (hw : c.Ready w) (hne : ds ≠ []) (hd : ∀ c ∈ ds, isDigit c)
    (hlen : ¬ (c.text ds).length ≤ 510) (s : Scan) (more : Text) :
    Goes (firstLine s (c.text ds ++ 13 :: 10 :: more)) [.checkLogin] .notUnderstood := by
  have hcontents := contents_stored (plain_text hw hd) more
  rw [if_neg hlen] at hcontents
  unfold firstLine
  generalize (telnetFgets 511 [] (c.text ds ++ 13 :: 10 :: more)).stored = text at hcontents ⊢
  have hsite : (ascii "SITE ").length = 5 := by decide
  have htake : ds.take 500 ≠ [] := by
    obtain ⟨b, l, rfl⟩ := exists_cons_of_ne_nil hne
    exact cons_ne_nil _ _
  have hdtake : ∀ c ∈ ds.take 500, isDigit c := fun c hc => hd c (mem_of_mem_take hc)
  cases c with
  | umask =>
    have humask : (ascii "UMASK ").length = 6 := by decide
    unfold Command.text at hcontents
    rw [take_append, take_of_length_le (by omega), hsite, take_append, take_of_length_le (by omega),
      humask] at hcontents
    exact goes_cut htake hdtake (.inl hcontents) s
  | chmod path =>
    have hchmod : (ascii "CHMOD ").length = 6 := by decide
    unfold Command.text at hcontents
    rw [take_append, take_of_length_le (by omega), hsite, take_append, take_of_length_le (by omega),
      hchmod, take_append] at hcontents
    rcases lt_or_ge ds.length 500 with hlt | hge
    · obtain ⟨k, hk⟩ := Nat.exists_eq_add_of_lt hlt
      have hsucc : 511 - 5 - 6 - ds.length = k + 1 := by omega
      rw [take_of_length_le (show ds.length ≤ 511 - 5 - 6 by omega), hsucc,
        take_succ_cons] at hcontents
      exact goes_cut_path hne hd (fun h => hw.2.2.1.lf (mem_of_mem_take h)) hcontents s
    · rw [Nat.sub_eq_zero_of_le (show 511 - 5 - 6 ≤ ds.length from hge), take_zero,
        append_nil] at hcontents
      exact goes_cut htake hdtake (.inr hcontents) s

/-- **SITE UMASK and SITE CHMOD**: the digits are the mode, or are refused, exactly when the line
fits and they are read as they are typed. -/
theorem site_iff (hw : c.Ready w) (hne : ds ≠ []) (hd : ∀ c ∈ ds, isDigit c) (s : Scan)
    (more : Text) :
    Proper w ds c (firstLine s (c.text ds ++ 13 :: 10 :: more)) ↔
    (c.text ds).length ≤ 510 ∧ c.Reads ds := by
  by_cases hlen : (c.text ds).length ≤ 510
  · obtain ⟨hstop, hanswer⟩ := goes_fits hw hne hd hlen s more
    obtain ⟨hyes, hno⟩ := done_action hw (atoi ds)
    rw [and_iff_right hlen, reads_iff hd, Proper, hstop, hanswer]
    by_cases hrefuses : c.refuses (atoi ds)
    · obtain ⟨heff, hreply⟩ := hyes hrefuses
      rw [heff]
      refine and_congr (imp_congr_right fun _ => ?_)
        (imp_congr_right fun _ => iff_of_true ⟨rfl, hreply⟩ hrefuses)
      exact iff_of_false (Ne.symm (effect_ne_nil hw _)) fun h => h hrefuses
    · obtain ⟨heff, hreply⟩ := hno hrefuses
      rw [heff]
      refine and_congr (imp_congr_right fun hoct => ?_) (imp_congr_right fun _ => ?_)
      · obtain ⟨hseven, hle⟩ := (octalMode_iff hd).1 hoct
        have hmode : octalNumber (atoi ds) = (octalValue ds : ℤ) := by
          rw [atoi_small (by omega), octalNumber_nat (by omega), if_pos hseven, octalValue_eq hd]
        have hvalue : modeT (octalValue ds : ℤ) = octalValue ds := by
          have := hoct.2
          unfold modeT
          omega
        rw [hmode, hvalue]
        exact iff_of_true rfl hrefuses
      · exact iff_of_false (fun h => effect_ne_nil hw _ h.1) hrefuses
  · obtain ⟨hrs, hcompl, hstop⟩ := goes_long hw hne hd hlen s more
    refine iff_of_false (fun h => ?_) fun h => hlen h.1
    rw [Proper, hstop] at h
    by_cases hoct : OctalMode ds
    · exact effect_ne_nil hw _ (h.1 hoct).symm
    · obtain ⟨-, f, hf⟩ := h.2 hoct
      unfold answer at hf
      rw [hrs, hcompl, hstop] at hf
      have hin : w.loggedIn = true := by
        cases c with
        | umask => exact hw
        | chmod path => exact hw.1
      simp [reduction, hin, ending, notUnderstood] at hf

end

def user : World := { (default : World) with loggedIn := true }

/-- `SITE UMASK 022` -/
theorem proper_umask :
    Proper user (ascii "022") .umask
    (firstLine Scan.start (Command.umask.text (ascii "022") ++ [13, 10])) :=
  (site_iff (show Command.umask.Ready user from rfl) (by decide)
    (by decide +kernel) Scan.start []).2
    ⟨by decide, .inl (by decide)⟩

/-- **`SITE CHMOD 8 f`** gives the file all the bits there are. -/
theorem not_proper_chmod :
    effects user (firstLine Scan.start (ascii "SITE CHMOD 8 f\r\n")).stop =
    [.chmod (ascii "f") 4294967295] ∧
      ¬ Proper user (ascii "8") (.chmod (ascii "f"))
      (firstLine Scan.start (ascii "SITE CHMOD 8 f\r\n")) := by
  have heff : effects user (firstLine Scan.start (ascii "SITE CHMOD 8 f\r\n")).stop =
      [.chmod (ascii "f") 4294967295] := by decide +kernel
  refine ⟨heff, fun h => ?_⟩
  have height : ¬ OctalMode (ascii "8") := fun h => absurd (h.1 56 (by decide)) (by decide)
  exact cons_ne_nil _ _ (heff.symm.trans (h.2 height).1)

end Inetutils.Ftpd.Site
