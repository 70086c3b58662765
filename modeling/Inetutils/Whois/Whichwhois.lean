import Inetutils.Lib.Decimal
import Inetutils.Lib.Letters
import Mathlib.Data.List.Infix

/-! # The server of a query

`whichwhois` of `src/whois/whois.c`, with `domcmp`, `whereas` and `myinet_aton`, over tables like
those of `src/whois/data.h`. A string is its bytes without the NUL, and a read outside of it is
`none`. -/

namespace Inetutils.Whois.Whichwhois

open Lib.Decimal Lib.Letters List Option

abbrev Text := List UInt8

abbrev CString := { l : Text // (0 : UInt8) ∉ l }

/-- The byte at `s + i`. -/
def peek (s : Text) (i : ℤ) : Option UInt8 := if i < 0 then none else (s ++ [0])[i.toNat]?

/-! ### Comparisons -/

/-- `strncasecmp (s + i, pat, strlen (pat)) == 0` -/
def strncasecmp (s : Text) : ℤ → Text → Option Bool
  | _, [] => some true
  | i, c :: pat => (peek s i).bind fun b =>
    if tolower b = tolower c then strncasecmp s (i + 1) pat else some false

/-- The loop of `domcmp`, of which the cursors are at the last of `p` and of `q` bytes. -/
def domcmpLoop (dom tld : Text) : ℕ → ℕ → Option Bool
  | 0, _ => some false
  | _ + 1, 0 => some false
  | p + 1, q + 1 =>
    (peek dom p).bind fun a => (peek tld q).bind fun b =>
      if tolower a = b then if q = 0 then some true else domcmpLoop dom tld p q else some false

/-- Check if `dom` ends with `tld`. -/
def domcmp (dom tld : Text) : Option Bool := domcmpLoop dom tld dom.length tld.length

/-! ### Numbers -/

/-- What `strtol` makes of a number, as an `int`. -/
def toInt (n : ℤ) : ℤ := (max (-2 ^ 63) (min n (2 ^ 63 - 1))).bmod (2 ^ 32)

def scanInt (l : Text) : Option (ℤ × Text) :=
  let l := l.dropWhile isspace
  let neg := l.head? = some 45
  let l := if neg ∨ l.head? = some 43 then l.tail else l
  if l.takeWhile isDigit = [] then none
  else
    let n : ℤ := value 0 (l.takeWhile isDigit)
    some (toInt (if neg then -n else n), l.dropWhile isDigit)

def atoi (l : Text) : ℤ := (scanInt l).elim 0 Prod.fst

/-- `sscanf` with `.%d` as often as there are numbers to be read. -/
def scanDotted : ℕ → Text → Option (List ℤ)
  | 0, _ => some []
  | n + 1, l => if l.head? = some 46 then (scanInt l.tail).bind fun r =>
    (scanDotted n r.2).map (r.1 :: ·) else none

/-- The sum is an `int`, and what is returned an `unsigned long`. -/
def myinet_aton (s : Text) : ℕ :=
  match (scanInt s).bind fun r => (scanDotted 3 r.2).map (r.1 :: ·) with
  | some [a, b, c, d] => ((a * 2 ^ 24 + b * 2 ^ 16 + c * 2 ^ 8 + d).bmod (2 ^ 32) % 2 ^ 64).toNat
  | _ => 0

/-! ### `whichwhois` -/

structure AsDel where
  first : ℤ
  last : ℤ
  serv : String

structure IpDel where
  net : ℕ
  mask : ℕ
  serv : String

structure Tables where
  as_assign : List AsDel
  ip_assign : List IpDel
  tld_serv : List (CString × String)
  nic_handles : List (CString × String)

def whereas (asn : ℤ) (aslist : List AsDel) : String :=
  match aslist.find? fun e => e.first ≤ asn ∧ asn ≤ e.last with
  | some e => e.serv
  | none => "whois.arin.net"

/-- The server beside the first string that passes the test. -/
def firstServ (test : Text → Option Bool) : List (CString × String) → Option (Option String)
  | [] => some none
  | (key, serv) :: l => (test key.1).bind fun b => if b then some (some serv) else firstServ test l

def ipv6Serv (s : Text) : Option String :=
  (strncasecmp s 0 [50, 48, 48, 49, 58, 50]).bind fun apnic =>
    if apnic then some "whois.apnic.net"
    else (strncasecmp s 0 [50, 48, 48, 49, 58, 52]).bind fun arin =>
      if arin then some "whois.arin.net"
      else (strncasecmp s 0 [50, 48, 48, 49, 58, 54]).bind fun ripe =>
        if ripe then some "whois.ripe.net" else some "whois.6bone.net"

/-- `s[2]` is a digit or a space. -/
def asNumber (s : Text) : Option Bool :=
  (strncasecmp s 0 [97, 115]).bind fun b => if b then (peek s 2).map fun c =>
    isDigit c || c = 32 else some false

def handleServ (t : Tables) (s : Text) : Option String :=
  (asNumber s).bind fun b =>
    if b then some (whereas (atoi (s.drop 2)) t.as_assign)
    else (strncasecmp s (s.length - 2) [106, 112]).bind fun jp =>
      if jp then some "whois.nic.ad.jp"
      else (peek s s.length).map fun c => if c = 33 then "whois.networksolutions.com" else ""

def ipServ (t : Tables) (ip : ℕ) : String :=
  match t.ip_assign.find? fun e => ip &&& e.mask = e.net with
  | some e => e.serv
  | none => "whois.arin.net"

/-- **`whichwhois`** -/
def whichwhois (t : Tables) (s : Text) : Option String :=
  if s = [] then some "whois.ripe.net"
  else if 58 ∈ s then ipv6Serv s
  else if 64 ∈ s then some ""
  else if 46 ∉ s ∧ 45 ∉ s then handleServ t s
  else if myinet_aton s ≠ 0 then some (ipServ t (myinet_aton s))
  else (firstServ (domcmp s) t.tld_serv).bind fun r =>
    match r with
    | some serv => some serv
    | none =>
      if 46 ∉ s then (firstServ (strncasecmp s 0) t.nic_handles).map fun r =>
        r.getD "whois.arin.net" else some ""

/-! ### What is read -/

section
variable {s : Text} {i : ℕ}

theorem peek_of_lt (h : i < s.length) : peek s i = some s[i] := by
  simp [peek, getElem?_append_left h, h]

theorem peek_length (s : Text) : peek s s.length = some 0 := by simp [peek]

theorem peek_isSome (h : i ≤ s.length) : ∃ b, peek s i = some b := by
  rcases Nat.lt_or_eq_of_le h with h | rfl
  · exact ⟨_, peek_of_lt h⟩
  · exact ⟨_, peek_length s⟩

theorem strncasecmp_isSome {pat : Text} (hpat : (0 : UInt8) ∉ pat) (h : i ≤ s.length) :
    ∃ b, strncasecmp s i pat = some b ∧ (b = true → i + pat.length ≤ s.length) := by
  induction pat generalizing i with
  | nil => exact ⟨true, rfl, fun _ => h⟩
  | cons c pat ih =>
    rw [mem_cons, not_or] at hpat
    rcases Nat.lt_or_eq_of_le h with hlt | rfl
    · rw [strncasecmp, peek_of_lt hlt, bind_some]
      split
      · obtain ⟨b, hb, hlen⟩ := ih hpat.2 (i := i + 1) hlt
        refine ⟨b, hb, fun ht => ?_⟩
        have := hlen ht
        rw [length_cons]
        omega
      · exact ⟨false, rfl, nofun⟩
    · have hne : tolower 0 ≠ tolower c := fun h => tolower_ne_zero (Ne.symm hpat.1) h.symm
      rw [strncasecmp, peek_length, bind_some, if_neg hne]
      exact ⟨false, rfl, nofun⟩

end

theorem concat_suffix_concat_iff {α : Type*} {l l' : List α} {a b : α} :
    l ++ [a] <:+ l' ++ [b] ↔ b = a ∧ l <:+ l' := by
  rw [← List.reverse_prefix, ← List.reverse_prefix, reverse_append, reverse_append,
    reverse_singleton,
    reverse_singleton, singleton_append, singleton_append, cons_prefix_cons, eq_comm]

theorem domcmpLoop_eq (dom tld : Text) {p q : ℕ} (hp : p ≤ dom.length) (hq : q ≤ tld.length) :
    ∃ b, domcmpLoop dom tld p q = some b ∧
    (b = true ↔ 0 < q ∧ tld.take q <:+ (dom.take p).map tolower) := by
  induction p generalizing q with
  | zero =>
    refine ⟨false, rfl, iff_of_false nofun fun ⟨hpos, hsuf⟩ => ?_⟩
    have hle := hsuf.length_le
    rw [length_take, take_zero, map_nil, length_nil] at hle
    omega
  | succ p ih =>
    rcases q with - | q
    · exact ⟨false, rfl, iff_of_false nofun fun h => absurd h.1 (Nat.lt_irrefl 0)⟩
    · have hd : dom.take (p + 1) = dom.take p ++ [dom[p]] := take_succ_eq_append_getElem hp
      have ht : tld.take (q + 1) = tld.take q ++ [tld[q]] := take_succ_eq_append_getElem hq
      rw [domcmpLoop, peek_of_lt hp, bind_some, peek_of_lt hq, bind_some, hd, ht, map_append,
        map_singleton, concat_suffix_concat_iff]
      split
      next heq =>
        split
        next h0 =>
          subst h0
          exact ⟨true, rfl, iff_of_true rfl ⟨Nat.succ_pos 0, heq, nil_suffix⟩⟩
        next h0 =>
          obtain ⟨b, hb, hiff⟩ := ih (Nat.le_of_succ_le hp) (Nat.le_of_succ_le hq)
          refine ⟨b, hb, hiff.trans ?_⟩
          simp [heq, Nat.pos_of_ne_zero h0]
      next hne => exact ⟨false, rfl, iff_of_false nofun fun h => hne h.2.1⟩

/-- **`domcmp`** reads inside of its strings, and finds whether one ends with the other. -/
theorem domcmp_eq (dom tld : Text) :
    ∃ b, domcmp dom tld = some b ∧ (b = true ↔ tld ≠ [] ∧ tld <:+ dom.map tolower) := by
  obtain ⟨b, hb, hiff⟩ := domcmpLoop_eq dom tld le_rfl le_rfl
  refine ⟨b, hb, hiff.trans ?_⟩
  rw [take_length, take_length, length_pos_iff]

/-! ### Which queries are read inside -/

theorem firstServ_isSome {test : Text → Option Bool} (h : ∀ key : CString, ∃ b, test key.1 = some b)
    (l : List (CString × String)) : ∃ r, firstServ test l = some r := by
  induction l with
  | nil => exact ⟨none, rfl⟩
  | cons e l ih =>
    obtain ⟨b, hb⟩ := h e.1
    rw [firstServ, hb, bind_some]
    split
    · exact ⟨_, rfl⟩
    · exact ih

theorem ipv6Serv_isSome (s : Text) : (ipv6Serv s).isSome = true := by
  have h : ∀ c : UInt8, c ≠ 0 → ∃ b, strncasecmp s 0 [50, 48, 48, 49, 58, c] = some b :=
    fun c hc => by
    obtain ⟨b, hb, -⟩ := @strncasecmp_isSome s 0 [50, 48, 48, 49, 58, c] (by simp [hc.symm])
      (Nat.zero_le _)
    exact ⟨b, hb⟩
  obtain ⟨b2, h2⟩ := h 50 (by decide)
  obtain ⟨b4, h4⟩ := h 52 (by decide)
  obtain ⟨b6, h6⟩ := h 54 (by decide)
  rw [ipv6Serv, h2, h4, h6]
  cases b2 <;> cases b4 <;> cases b6 <;> rfl

theorem handleServ_isSome_iff (t : Tables) {s : Text} (hs : s ≠ []) :
    (handleServ t s).isSome = true ↔ s.length ≠ 1 := by
  have hpos := length_pos_of_ne_nil hs
  obtain ⟨b, hb, hlen⟩ := @strncasecmp_isSome s 0 [97, 115] (by decide) (Nat.zero_le _)
  obtain ⟨asn, hasn, htwo⟩ : ∃ asn, asNumber s = some asn ∧ (asn = true → 2 ≤ s.length) := by
    rw [asNumber, show strncasecmp s 0 [97, 115] = some b from hb, bind_some]
    rcases b with - | -
    · exact ⟨false, rfl, nofun⟩
    · have h2 : 2 ≤ s.length := by simpa using hlen rfl
      obtain ⟨c, hc⟩ := peek_isSome h2
      refine ⟨isDigit c || c = 32, ?_, fun _ => h2⟩
      rw [if_pos rfl, show peek s 2 = some c from hc]
      rfl
  rw [handleServ, hasn, bind_some]
  rcases asn with - | -
  · rw [if_neg Bool.false_ne_true]
    by_cases h1 : s.length = 1
    · refine iff_of_false ?_ (not_not.2 h1)
      have hout : strncasecmp s (s.length - 2) [106, 112] = none := by
        rw [h1]
        rfl
      rw [hout]
      exact Bool.false_ne_true
    · refine iff_of_true ?_ h1
      obtain ⟨jp, hjp, -⟩ := @strncasecmp_isSome s (s.length - 2) [106, 112] (by decide) (by omega)
      have hcast : ((s.length - 2 : ℕ) : ℤ) = s.length - 2 := by omega
      rw [← hcast, hjp, bind_some, peek_length]
      split <;> rfl
  · exact iff_of_true rfl (by have := htwo rfl; omega)

/-- **`whichwhois`** reads inside of the query, unless that is a single byte and none of `:@.-`. -/
theorem whichwhois_isSome_iff (t : Tables) (s : Text) :
    (whichwhois t s).isSome = true ↔ (s.length = 1 → 58 ∈ s ∨ 64 ∈ s ∨ 46 ∈ s ∨ 45 ∈ s) := by
  rw [whichwhois]
  split
  next hs =>
    subst hs
    exact iff_of_true rfl nofun
  next hs =>
    split
    next h58 => exact iff_of_true (ipv6Serv_isSome s) fun _ => .inl h58
    next h58 =>
      split
      next h64 => exact iff_of_true rfl fun _ => .inr (.inl h64)
      next h64 =>
        split
        next h =>
          rw [handleServ_isSome_iff t hs]
          simp [h58, h64, h.1, h.2]
        next h =>
          have hdot : 46 ∈ s ∨ 45 ∈ s := by
            rw [← not_not (a := 46 ∈ s), ← not_not (a := 45 ∈ s), ← not_and_or]
            exact h
          refine iff_of_true ?_ fun _ => .inr (.inr hdot)
          split
          · rfl
          · obtain ⟨r, hr⟩ :=
              firstServ_isSome (fun key => (domcmp_eq s key.1).imp fun _ hb => hb.1) t.tld_serv
            rw [hr, bind_some]
            rcases r with - | serv
            · dsimp only
              split
              · obtain ⟨r, hr⟩ := @firstServ_isSome (strncasecmp s 0)
                  (fun key => (strncasecmp_isSome key.2 (Nat.zero_le _)).imp fun _ hb => hb.1)
                    t.nic_handles
                rw [hr]
                rfl
              · rfl
            · rfl

end Inetutils.Whois.Whichwhois
