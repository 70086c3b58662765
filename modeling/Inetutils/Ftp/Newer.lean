import Inetutils.Lib.Dates
import Inetutils.Lib.Decimal
import Inetutils.Lib.Letters

/-! # Which of two files is newer

`getit` of `src/ftp/cmds.c`, as `newer` calls it: the time at which the local file was modified is
compared with the date in the reply to MDTM. What the system, the user and the server answer is
given (`Host`). -/

namespace Inetutils.Ftp.Newer

open Lib.Calendar Lib.Letters List
open Lib.Decimal (isDigit digit value value_append value_cons)

abbrev Text := List UInt8

abbrev COMPLETE : ℤ := 2

/-! ### The library -/

structure Tm where
  tmYear : ℤ
  tmMon : ℤ
  tmMday : ℤ
  tmHour : ℤ
  tmMin : ℤ
  tmSec : ℤ

/-- What an `int` can hold. -/
def IsInt (n : ℤ) : Prop := -2147483648 ≤ n ∧ n ≤ 2147483647

instance (n : ℤ) : Decidable (IsInt n) := inferInstanceAs (Decidable (_ ∧ _))

def gmtime (t : ℤ) : Option Tm :=
  let d := date t
  if IsInt (d.year - 1900) then some ⟨d.year - 1900, d.month - 1, d.day, d.hour, d.minute, d.second⟩
  else none

/-- Digits, at least one and at most `w`, and what follows. -/
def scanDigits (w : ℕ) (l : Text) : Option (ℕ × Text) :=
  let ds := (l.take w).takeWhile isDigit
  if ds = [] then none else some (value 0 ds, l.drop ds.length)

/-- `%d` with a width, and what follows. -/
def scanInt (width : ℕ) (l : Text) : Option (ℤ × Text) :=
  match l.dropWhile isspace with
  | 45 :: l => (scanDigits (width - 1) l).map fun r => (-(r.1 : ℤ), r.2)
  | 43 :: l => (scanDigits (width - 1) l).map fun r => ((r.1 : ℤ), r.2)
  | l => (scanDigits width l).map fun r => ((r.1 : ℤ), r.2)

def scanInts : List ℕ → Text → List ℤ
  | [], _ => []
  | w :: ws, l =>
    match scanInt w l with
    | some (n, l) => n :: scanInts ws l
    | none => []

/-- `sscanf (l, "%*s %04d%02d%02d%02d%02d%02d", ...)`: what is stored. -/
def sscanf (l : Text) : List ℤ :=
  let l := l.dropWhile isspace
  if l = [] then [] else scanInts [4, 2, 2, 2, 2, 2] (l.dropWhile fun c => !isspace c)

/-! ### `getit` -/

structure Stat where
  stSize : ℤ
  stMtime : ℤ

/-- `command` and `reply_string`. -/
structure Reply where
  code : ℤ
  replyString : Text

structure Host where
  another : List Text → Text → Option (List Text)
  globulize : Text → Option Text
  mcase : Bool
  ntflag : Bool
  mapflag : Bool
  allUpper : Text → Bool
  strdown : Text → Text
  dotrans : Text → Text
  domap : Text → Text
  stat : Text → Option Stat
  mdtm : Text → Reply
  debug : Bool
  /-- What is in the six variables before anything is stored. -/
  junk : ℕ → ℤ

/-- The globals that `getit` changes. -/
structure Client where
  verbose : ℤ
  restartPoint : ℤ
  code : ℤ

inductive Call
  | usage (argv0 : Text)
  | error (file : Text)
  | mdtm (file : Text) (verbose : ℤ)
  | print (reply : Text)
  | recvrequest (localFile remote mode : Text) (printnames : Bool) (restartPoint : ℤ)
  deriving DecidableEq

def Call.transfers : Call → Bool
  | .recvrequest .. => true
  | _ => false

/-- The value of `getit`, the globals behind it, and what it did. -/
structure Ended where
  ret : ℤ
  client : Client
  calls : List Call

/-- `remote-file` -/
def remoteFile : Text := [114, 101, 109, 111, 116, 101, 45, 102, 105, 108, 101]

/-- `local-file` -/
def localFile : Text := [108, 111, 99, 97, 108, 45, 102, 105, 108, 101]

/-- The words that there are in the end, or those with which the usage is shown; and whether the
local name is the remote one. -/
def arguments (h : Host) (argv : List Text) : (Option (List Text) × List Text) × Bool :=
  match argv with
  | [cmd, file] => ((some [cmd, file, file], argv), true)
  | _ =>
    let asked (argv : List Text) : Option (List Text) × List Text :=
      if argv.length < 3 then (h.another argv localFile, argv) else (some argv, argv)
    if argv.length < 2 then
      match h.another argv remoteFile with
      | none => ((none, argv), false)
      | some argv => (asked argv, false)
    else (asked argv, false)

/-- `local` behind the changes that the settings ask for. -/
def localName (h : Host) (loc : Bool) (name : Text) : Text :=
  let name := if loc && h.mcase && h.allUpper name then h.strdown name else name
  let name := if loc && h.ntflag then h.dotrans name else name
  if loc && h.mapflag then h.domap name else name

/-- The comparison, `tm_mon` being one more than in `tm`. -/
def isNewer (tm : Tm) (yy mo day hour min sec : ℤ) : Bool :=
  let tmMon := tm.tmMon + 1
  (yy < tm.tmYear + 1900) ||
    ((tm.tmYear + 1900 = yy && mo < tmMon) || (tmMon = mo && day < tm.tmMday) || (tm.tmMday =
      day && hour < tm.tmHour) ||
      (tm.tmHour = hour && min < tm.tmMin) || (tm.tmMin = min && sec < tm.tmSec))

/-- `getit`; it has no value where `tm` is NULL or a sum leaves the `int`s. -/
def getit (h : Host) (c : Client) (argv : List Text) (restartit : ℤ) (mode : Text) : Option Ended :=
  match arguments h argv with
  | ((none, argv), _) => some ⟨0, { c with code := -1 }, [.usage (argv.headD [])]⟩
  | ((some argv, _), loc) =>
    let remote := argv.getD 1 []
    match h.globulize (argv.getD 2 []) with
    | none => some ⟨0, { c with code := -1 }, []⟩
    | some name =>
      let name := localName h loc name
      let receive : ℤ → Call := .recvrequest name remote mode (name ≠ argv.getD 2 [])
      if restartit = 0 then some ⟨0, { c with restartPoint := 0 }, [receive c.restartPoint]⟩
      else if restartit = 1 then
        match h.stat name with
        | none => some ⟨0, c, [.error name]⟩
        | some st => some ⟨0, { c with restartPoint := 0 }, [receive st.stSize]⟩
      else
        match h.stat name with
        | none => some ⟨0, { c with restartPoint := 0 }, [receive c.restartPoint]⟩
        | some st =>
          let command : Call := .mdtm remote (if h.debug then c.verbose else -1)
          let reply := h.mdtm remote
          if reply.code = COMPLETE then
            let stored := sscanf reply.replyString
            let var (i : ℕ) : ℤ := stored.getD i (h.junk i)
            match gmtime st.stMtime with
            | none => none
            | some tm =>
              if ¬ IsInt (tm.tmYear + 1900) then none
              else if isNewer tm (var 0) (var 1) (var 2) (var 3) (var 4) (var 5) then
                some ⟨1, c, [command]⟩
              else some ⟨0, { c with restartPoint := 0 }, [command, receive c.restartPoint]⟩
          else some ⟨0, c, [command, .print reply.replyString]⟩

/-! ### The reply -/

/-- `%0*d` -/
def pad : ℕ → ℕ → Text
  | 0, _ => []
  | w + 1, n => pad w (n / 10) ++ [(48 + n % 10).toUInt8]

def dateText (d : Date) : Text :=
  pad 4 d.year.toNat ++
    (pad 2 d.month.toNat ++ (pad 2 d.day.toNat ++ (pad 2 d.hour.toNat ++ (pad 2 d.minute.toNat ++
    pad 2 d.second.toNat))))

/-- `213`, the date, and whatever follows it in the line. -/
def reply213 (d : Date) (rest : Text) : Text := [50, 49, 51, 32] ++ (dateText d ++ rest)

structure WellFormed (d : Date) : Prop where
  valid : d.Valid
  year : 0 ≤ d.year ∧ d.year ≤ 9999

theorem digit_toUInt8 : ∀ k < 10, isDigit (48 + k).toUInt8 = true ∧ digit (48 + k).toUInt8 = k ∧
    isspace (48 + k).toUInt8 = false ∧ (48 + k).toUInt8 ≠ 45 ∧ (48 + k).toUInt8 ≠ 43 := by decide

theorem length_pad (w n : ℕ) : (pad w n).length = w := by
  induction w generalizing n with
  | zero => rfl
  | succ w ih => rw [pad, length_append, ih, length_singleton]

theorem exists_of_mem_pad {w n : ℕ} {b : UInt8} (h : b ∈ pad w n) :
    ∃ k < 10, b = (48 + k).toUInt8 := by
  induction w generalizing n with
  | zero => exact absurd h not_mem_nil
  | succ w ih =>
    rw [pad, mem_append, mem_singleton] at h
    rcases h with h | rfl
    · exact ih h
    · exact ⟨n % 10, Nat.mod_lt _ (by decide), rfl⟩

theorem value_pad {w n : ℕ} (h : n < 10 ^ w) : value 0 (pad w n) = n := by
  induction w generalizing n with
  | zero =>
    rw [pow_zero] at h
    exact (Nat.lt_one_iff.1 h).symm
  | succ w ih =>
    have hlt : n / 10 < 10 ^ w := by
      rw [pow_succ] at h
      omega
    rw [pad, value_append, ih hlt, value_cons,
      (digit_toUInt8 (n % 10) (Nat.mod_lt _ (by decide))).2.1]
    change 10 * (n / 10) + n % 10 = n
    omega

theorem scanInt_pad {w n : ℕ} (hw : 0 < w) (h : n < 10 ^ w) (l : Text) :
    scanInt w (pad w n ++ l) = some ((n : ℤ), l) := by
  obtain ⟨c, t, ht⟩ : ∃ c t, pad w n = c :: t := exists_cons_of_length_pos (by rwa [length_pad])
  obtain ⟨k, hk, hc⟩ := exists_of_mem_pad (ht ▸ mem_cons_self : c ∈ pad w n)
  obtain ⟨-, -, hspace, h45, h43⟩ := digit_toUInt8 k hk
  rw [← hc] at hspace h45 h43
  have hdrop : (pad w n ++ l).dropWhile isspace = pad w n ++ l := by
    rw [ht, cons_append, dropWhile_cons_of_neg (by simp [hspace])]
  have hdigits : ((pad w n ++ l).take w).takeWhile isDigit = pad w n := by
    rw [take_left' (length_pad w n)]
    refine takeWhile_eq_self_iff.2 fun b hb => ?_
    obtain ⟨k, hk, rfl⟩ := exists_of_mem_pad hb
    exact (digit_toUInt8 k hk).1
  have hscan : scanDigits w (pad w n ++ l) = some (n, l) := by
    unfold scanDigits
    rw [hdigits, if_neg (by simp [ht]), value_pad h, length_pad, drop_left' (length_pad w n)]
  unfold scanInt
  rw [hdrop]
  split
  next heq =>
    rw [ht, cons_append] at heq
    exact absurd (List.cons.inj heq).1 h45
  next heq =>
    rw [ht, cons_append] at heq
    exact absurd (List.cons.inj heq).1 h43
  next => rw [hscan, Option.map_some]

/-- **The date that is sent is the one that is read.** -/
theorem sscanf_reply {d : Date} (h : WellFormed d) (rest : Text) :
    sscanf (reply213 d rest) = [d.year, d.month, d.day, d.hour, d.minute, d.second] := by
  obtain ⟨⟨hmonth, hday, hhour, hminute, hsecond⟩, hyear⟩ := h
  have hday' : d.day < 100 := by
    have hend : monthStart d.year (d.month + 1) ≤ monthStart d.year d.month + 31 := by
      unfold monthStart
      rcases leap_cases d.year with hy | hy
      · rw [hy]
        split_ifs <;> omega
      · rw [hy]
        split_ifs <;> omega
    omega
  have hhead :
      sscanf (reply213 d rest) = scanInts [4, 2, 2, 2, 2, 2] (32 :: (dateText d ++ rest)) := rfl
  have hspace : scanInts [4, 2, 2, 2, 2, 2] (32 :: (dateText d ++ rest)) =
      scanInts [4, 2, 2, 2, 2, 2] (dateText d ++ rest) := rfl
  have htwo : ∀ {n : ℤ}, 0 ≤ n → n < 100 → ∀ (l : Text),
    scanInt 2 (pad 2 n.toNat ++ l) = some (n, l) := by
    intro n h0 h1 l
    have hread := scanInt_pad (w := 2) (n := n.toNat) (by decide) (by omega) l
    rwa [Int.toNat_of_nonneg h0] at hread
  have hfour : ∀ l, scanInt 4 (pad 4 d.year.toNat ++ l) = some (d.year, l) := by
    intro l
    have hread := scanInt_pad (w := 4) (n := d.year.toNat) (by decide) (by omega) l
    rwa [Int.toNat_of_nonneg hyear.1] at hread
  rw [hhead, hspace, dateText]
  simp only [append_assoc, scanInts, hfour, htwo (by omega : 0 ≤ d.month) (by omega),
    htwo (by omega : 0 ≤ d.day)
    hday', htwo hhour.1 (by omega), htwo hminute.1 (by omega), htwo hsecond.1 (by omega)]

/-! ### When the comparison is right -/

/-- In a pair of neighbouring components below the year, the dates agree in the first and `a` is
greater in the second. -/
def Greater (a b : Date) : Prop :=
  a.month = b.month ∧ b.day < a.day ∨ a.day = b.day ∧ b.hour < a.hour ∨ a.hour = b.hour ∧
    b.minute < a.minute ∨
    a.minute = b.minute ∧ b.second < a.second

instance (a b : Date) : Decidable (Greater a b) := by
  unfold Greater
  infer_instance

/-- The year can be computed with, and no lower component says more than it should. -/
def Comparable (t : ℤ) (d : Date) : Prop :=
  IsInt ((date t).year - 1900) ∧ IsInt (date t).year ∧ (d.seconds < t ∨ ¬ Greater (date t) d)

/-- `newer` as documented: there is an end, which is without a transfer and with 1 just when the
local file is later, and otherwise with a transfer. -/
def Exact (h : Host) (c : Client) (argv : List Text) (t : ℤ) (d : Date) : Prop :=
  ∃ e, getit h c argv (-1) [119] = some e ∧
    ((e.ret = 1 ∧ ∀ x ∈ e.calls, x.transfers = false) ↔ d.seconds < t) ∧
    ((∃ x ∈ e.calls, x.transfers = true) ↔ ¬ d.seconds < t)

theorem isNewer_iff {t : ℤ} {tm : Tm} {d : Date} (hd : d.Valid) (h : gmtime t = some tm) :
    isNewer tm d.year d.month d.day d.hour d.minute d.second = true ↔
    d.seconds < t ∨ Greater (date t) d := by
  have hlater : d.seconds < t ↔ d.Before (date t) := by
    rw [← Date.seconds_lt_iff hd (valid_date t), seconds_date]
  unfold gmtime at h
  dsimp only at h
  split_ifs at h
  obtain rfl := Option.some.inj h
  rw [hlater]
  unfold isNewer Date.Before Greater
  simp only [Bool.or_eq_true, Bool.and_eq_true, decide_eq_true_eq]
  omega

theorem getit_newer {h : Host} {argv argv' : List Text} {loc : Bool} {name : Text} {st : Stat}
    {d : Date} {rest : Text}
    (hargv : arguments h argv = ((some argv', argv), loc))
    (hname : h.globulize (argv'.getD 2 []) = some name)
    (hstat : h.stat (localName h loc name) = some st)
    (hreply : h.mdtm (argv'.getD 1 []) = ⟨COMPLETE, reply213 d rest⟩) (hd : WellFormed d)
    (c : Client) (mode : Text) :
    getit h c argv (-1) mode = match gmtime st.stMtime with
      | none => none
      | some tm =>
        if ¬ IsInt (tm.tmYear + 1900) then none
        else if isNewer tm d.year d.month d.day d.hour d.minute d.second then
          some ⟨1, c, [.mdtm (argv'.getD 1 []) (if h.debug then c.verbose else -1)]⟩
        else some ⟨0, { c with restartPoint := 0 },
          [.mdtm (argv'.getD 1 []) (if h.debug then c.verbose else -1),
          .recvrequest (localName h loc name) (argv'.getD 1 []) mode
          (localName h loc name ≠ argv'.getD 2 []) c.restartPoint]⟩ := by
  unfold getit
  rw [hargv]
  dsimp only
  rw [hname]
  dsimp only
  rw [if_neg (by decide), if_neg (by decide), hstat]
  dsimp only
  rw [hreply, if_pos rfl, sscanf_reply hd]
  rfl

/-- There is a local file, modified at `t`, and the reply to MDTM has the date `d`. -/
def Compares (h : Host) (argv : List Text) (t : ℤ) (d : Date) : Prop :=
  ∃ argv' loc name st rest, arguments h argv = ((some argv', argv), loc) ∧
    h.globulize (argv'.getD 2 []) = some name ∧ h.stat (localName h loc name) = some st ∧
    st.stMtime = t ∧
      h.mdtm (argv'.getD 1 []) = ⟨COMPLETE, reply213 d rest⟩

/-- **When `newer` transfers exactly the files that it should.** -/
theorem exact_iff_comparable {h : Host} {argv : List Text} {t : ℤ} {d : Date}
    (hc : Compares h argv t d)
    (hd : WellFormed d) (c : Client) : Exact h c argv t d ↔ Comparable t d := by
  obtain ⟨argv', loc, name, st, rest, hargv, hname, hstat, rfl, hreply⟩ := hc
  have hrun := getit_newer hargv hname hstat hreply hd c [119]
  unfold Exact Comparable
  rw [hrun]
  by_cases hyear : IsInt ((date st.stMtime).year - 1900)
  swap
  · rw [show gmtime st.stMtime = none from if_neg hyear]
    exact iff_of_false (fun ⟨_, h, _⟩ => by cases h) fun h => hyear h.1
  obtain ⟨tm, htm⟩ : ∃ tm, gmtime st.stMtime = some tm := ⟨_, if_pos hyear⟩
  have hsum : tm.tmYear + 1900 = (date st.stMtime).year := by
    unfold gmtime at htm
    dsimp only at htm
    rw [if_pos hyear] at htm
    rw [← Option.some.inj htm]
    exact Int.sub_add_cancel _ _
  have hnewer := isNewer_iff hd.valid htm
  rw [htm]
  dsimp only
  rw [hsum]
  by_cases hint : IsInt (date st.stMtime).year
  swap
  · rw [if_pos hint]
    exact iff_of_false (fun ⟨_, h, _⟩ => by cases h) fun h => hint h.2.1
  rw [if_neg (not_not.2 hint)]
  split
  next hyes =>
    have hor := hnewer.1 hyes
    simp only [Option.some_inj, exists_eq_left', mem_singleton, forall_eq, exists_eq_left,
      Call.transfers, and_self, true_iff, Bool.false_eq_true, false_iff, not_not]
    exact ⟨fun h => ⟨hyear, hint, .inl h⟩,
      fun h => h.2.2.elim id fun hnot => hor.resolve_right hnot⟩
  next hno =>
    have hnor := not_or.1 (mt hnewer.2 hno)
    refine iff_of_true ⟨_, rfl, ?_, ?_⟩ ⟨hyear, hint, .inr hnor.2⟩
    · exact iff_of_false (fun h => (by decide : (0 : ℤ) ≠ 1) h.1) hnor.1
    · exact iff_of_true ⟨_, mem_cons_of_mem _ mem_cons_self, rfl⟩ hnor.1

/-- A host with a local file, modified at `t`, and a server whose file has the date `d`. -/
def host (t : ℤ) (d : Date) : Host where
  another _ _ := none
  globulize := some
  mcase := false
  ntflag := false
  mapflag := false
  allUpper _ := false
  strdown := id
  dotrans := id
  domap := id
  stat _ := some ⟨0, t⟩
  mdtm _ := ⟨COMPLETE, reply213 d []⟩
  debug := false
  junk _ := 0

def newerF : List Text := [[110, 101, 119, 101, 114], [102]]

theorem compares_host (t : ℤ) (d : Date) : Compares (host t d) newerF t d :=
  ⟨_, _, _, _, [], rfl, rfl, rfl, rfl, rfl⟩

/-- The file of the server is of the second of January. -/
theorem exact_next_day :
    Exact (host 0 ⟨1970, 1, 2, 0, 0, 0⟩) ⟨0, 0, 0⟩ newerF 0 ⟨1970, 1, 2, 0, 0, 0⟩ :=
  (exact_iff_comparable (compares_host _ _)
    ⟨⟨by decide, by decide, by decide, by decide, by decide⟩, by decide⟩ _).2
    ⟨by decide, by decide, .inr (by decide)⟩

/-- The file of the server is of February, and at the beginning of an hour. -/
theorem not_exact_minute : ¬ ∀ h c argv t d, Compares h argv t d → WellFormed d →
    Exact h c argv t d := by
  intro hall
  obtain ⟨e, hrun, hiff, -⟩ := hall _ ⟨0, 0, 0⟩ _ _ _ (compares_host 60 ⟨1970, 2, 2, 0, 0, 0⟩)
    ⟨⟨by decide, by decide, by decide, by decide, by decide⟩, by decide⟩
  have hone : getit (host 60 ⟨1970, 2, 2, 0, 0, 0⟩) ⟨0, 0, 0⟩ newerF (-1) [119] =
      some ⟨1, ⟨0, 0, 0⟩, [.mdtm [102] (-1)]⟩ := by rfl
  rw [hone] at hrun
  obtain rfl := Option.some.inj hrun
  exact absurd (hiff.1 ⟨rfl, by simp [Call.transfers]⟩) (by decide)

end Inetutils.Ftp.Newer
