import Inetutils.Lib.Cells
import Inetutils.Lib.Masks
import Inetutils.Talkd.Access

/-! # The networks of a rule

`read_address` and `netdef_parse` of `talkd/acl.c`, with `inet_addr` and `inet_network` as they read
texts of digits and dots, and the test in `acl_match`. What stands in memory is in network order, on
a machine of either order. A shift by the width of a word has no result, and no more has a write
outside of the buffer. -/

namespace Inetutils.Talkd.Netdef

open Lib.Cells Lib.Decimal Lib.Masks Access List Option

/-! ### Addresses in a text -/

def isOctal (b : UInt8) : Bool := 48 ≤ b && b ≤ 55

def octal (acc : ℕ) (l : Text) : ℕ := (l.takeWhile isOctal).foldl (fun n b => 8 * n + digit b) acc

def number (l : Text) : Option ℕ :=
  match l with
  | [] => none
  | 48 :: l => if l.all isOctal then some (octal 0 l) else none
  | l => if l.all isDigit then some (value 0 l) else none

def parts (l : Text) : Option (List ℕ) := (l.splitOn 46).mapM number

/-- `inet_aton`, in host order: the last part has what the others leave of the 32 bits. -/
def inet_aton (l : Text) : Option Addr :=
  match parts l with
  | some [d] => if d < 2 ^ 32 then some (.ofNat 32 d) else none
  | some [a, d] => if a < 2 ^ 8 ∧ d < 2 ^ 24 then some (.ofNat 32 (a * 2 ^ 24 + d)) else none
  | some [a, b, d] =>
    if a < 2 ^ 8 ∧ b < 2 ^ 8 ∧ d < 2 ^ 16 then some (.ofNat 32 (a * 2 ^ 24 + b * 2 ^ 16 + d))
    else none
  | some [a, b, c, d] =>
    if a < 2 ^ 8 ∧ b < 2 ^ 8 ∧ c < 2 ^ 8 ∧ d < 2 ^ 8
      then some (.ofNat 32 (a * 2 ^ 24 + b * 2 ^ 16 + c * 2 ^ 8 + d)) else none
  | _ => none

section
variable (big : Bool)

/-- `htonl`, on a machine of big-endian order or little-endian order. -/
def htonl (x : Addr) : Addr :=
  if big then x
  else x.extractLsb' 0 8 ++ x.extractLsb' 8 8 ++ x.extractLsb' 16 8 ++ x.extractLsb' 24 8

def inet_addr (l : Text) : Addr := ((inet_aton l).map (htonl big)).getD inaddrNone

/-- `inet_network`, in host order: each part is a byte. -/
def inet_network (l : Text) : Addr :=
  match parts l with
  | some ps =>
    if ps.length ≤ 4 ∧ ps.all (· < 2 ^ 8) then .ofNat 32 (ps.foldl (fun v p => v * 2 ^ 8 + p) 0)
    else inaddrNone
  | none => inaddrNone

/-! ### The parser -/

def isDotted (b : UInt8) : Bool := isDigit b || b == 46

/-- The loop of `read_address`, at place `i` of the text and of the buffer. -/
def readLoop (i dotcount : ℕ) : Text → Block UInt8 → Option (Text × Block UInt8 × ℕ)
  | [], ptr => (write ptr i 0).map fun ptr => ([], ptr, dotcount)
  | c :: l, ptr =>
    if isDotted c && decide (i < dottedQuadLen) then
      (write ptr i c).bind (readLoop (i + 1) (if c = 46 then dotcount + 1 else dotcount) l)
    else (write ptr i 0).map fun ptr => (c :: l, ptr, dotcount)

/-- **`read_address`**: what follows, the buffer, and the dots. -/
def read_address (line : Text) (ptr : Block UInt8) : Option (Text × Block UInt8 × ℕ) :=
  readLoop 0 0 line ptr

/-- `netmask = 0xfffffffful >> (32 - len); netmask <<= (32 - len);`, of which the second is not
defined for all 32 bits. -/
def shifted (len : ℕ) : Option Addr := if len = 0 then none else some (prefixMask len)

/-- **`netdef_parse`** -/
def netdef_parse (str : Text) : Option (Option Netdef) :=
  if str = anyWord then some (some ⟨0, 0⟩)
  else do
    let (str, ipbuf, _) ← read_address str (alloc (dottedQuadLen + 1))
    let ipaddr := inet_addr big (← string 0 ipbuf)
    if ipaddr = inaddrNone then return none
    match str with
    | [] => return some ⟨ipaddr, htonl big 0xffffffff⟩
    | c :: str =>
      if c ≠ 47 then return none
      let (_, ipbuf, dotcount) ← read_address str ipbuf
      let text ← string 0 ipbuf
      if dotcount = 0 then
        let len := strtoul text % 2 ^ 32
        if len > 32 then return none
        return some ⟨ipaddr, htonl big (← shifted len)⟩
      return some ⟨ipaddr, htonl big (inet_network text)⟩

end

/-! ### The buffer -/

variable (l : Text) {c : UInt8}

theorem readLoop_eq : ∀ (i dotcount : ℕ) (ptr : Block UInt8),
    readLoop i dotcount l ptr =
      (fill ptr i ((l.takeWhile isDotted).take (dottedQuadLen - i) ++ [0])).map fun b =>
        (l.drop ((l.takeWhile isDotted).take (dottedQuadLen - i)).length, b,
          dotcount + ((l.takeWhile isDotted).take (dottedQuadLen - i)).count 46) := by
  induction l with
  | nil =>
    intro i dotcount ptr
    rw [takeWhile_nil, take_nil, nil_append, fill_singleton]
    rfl
  | cons c l ih =>
    intro i dotcount ptr
    unfold readLoop
    by_cases hc : isDotted c
    · rw [takeWhile_cons_of_pos hc]
      by_cases hi : i < dottedQuadLen
      · have hsucc : dottedQuadLen - i = dottedQuadLen - (i + 1) + 1 := by omega
        rw [if_pos (by rw [hc, decide_eq_true hi]; rfl), hsucc, take_succ_cons, cons_append, fill,
          map_bind, length_cons, drop_succ_cons, count_cons]
        refine congrArg _ (funext fun b => ?_)
        rw [ih, Function.comp_apply]
        refine congrArg (Option.map · _) (funext fun b => ?_)
        by_cases hdot : c = 46
        · rw [if_pos hdot, if_pos (beq_iff_eq.2 hdot)]
          congr 2
          omega
        · rw [if_neg hdot, if_neg (mt beq_iff_eq.1 hdot)]
          rfl
      · have hzero : dottedQuadLen - i = 0 := by omega
        rw [if_neg (by rw [decide_eq_false hi, Bool.and_false]; exact Bool.false_ne_true),
          hzero, take_zero, nil_append, fill_singleton]
        rfl
    · rw [takeWhile_cons_of_neg hc, take_nil, nil_append, fill_singleton,
        if_neg (by rw [Bool.eq_false_of_not_eq_true hc]; exact Bool.false_ne_true)]
      rfl

theorem read_address_eq (ptr : Block UInt8) :
    read_address l ptr = (fill ptr 0 ((readAddress l).1 ++ [0])).map fun b =>
      ((readAddress l).2, b, (readAddress l).1.count 46) := by
  unfold read_address
  rw [readLoop_eq, zero_add]
  rfl

theorem length_readAddress : (readAddress l).1.length ≤ dottedQuadLen := length_take_le _ _

theorem isDotted_of_mem_readAddress {l : Text} {b : UInt8} (hb : b ∈ (readAddress l).1) :
    isDotted b :=
  mem_takeWhile_imp (mem_of_mem_take hb)

theorem read_address_string (ptr : Block UInt8) (h : dottedQuadLen + 1 ≤ ptr.length) :
    ∃ ptr', read_address l ptr = some ((readAddress l).2, ptr', (readAddress l).1.count 46) ∧
      string 0 ptr' = some (readAddress l).1 ∧ ptr'.length = ptr.length := by
  have hlen := length_readAddress l
  have hnul : 0 ∉ (readAddress l).1 :=
    fun hmem => absurd (isDotted_of_mem_readAddress hmem) (by decide)
  rw [read_address_eq, fill_eq (Nat.zero_le _), if_pos (by simp; omega)]
  refine ⟨_, rfl, ?_, ?_⟩
  · rw [take_zero, nil_append, map_append, append_assoc]
    exact string_append hnul _
  · simp
    omega

/-! ### Network order -/

theorem getLsbD_htonl (x : Addr) {i : ℕ} (hi : i < 32) :
    (htonl false x).getLsbD i = x.getLsbD (24 - 8 * (i / 8) + i % 8) := by
  change (x.extractLsb' 0 8 ++ x.extractLsb' 8 8 ++ x.extractLsb' 16 8 ++
    x.extractLsb' 24 8).getLsbD i = _
  simp only [BitVec.getLsbD_append, BitVec.getLsbD_extractLsb']
  split_ifs
  all_goals
    rw [decide_eq_true (by omega), Bool.true_and]
    congr 1
    omega

theorem htonl_and (big : Bool) (x y : Addr) :
    htonl big (x &&& y) = htonl big x &&& htonl big y := by
  cases big with
  | true => rfl
  | false =>
    refine BitVec.eq_of_getLsbD_eq fun i hi => ?_
    rw [getLsbD_htonl _ hi, BitVec.getLsbD_and, BitVec.getLsbD_and, getLsbD_htonl _ hi,
      getLsbD_htonl _ hi]

theorem htonl_inj (big : Bool) {x y : Addr} : htonl big x = htonl big y ↔ x = y := by
  constructor
  · intro h
    cases big with
    | true => exact h
    | false =>
      refine BitVec.eq_of_getLsbD_eq fun i hi => ?_
      have hbit := congrArg (·.getLsbD (24 - 8 * (i / 8) + i % 8)) h
      rw [getLsbD_htonl _ (by omega), getLsbD_htonl _ (by omega)] at hbit
      have hi' : 24 - 8 * ((24 - 8 * (i / 8) + i % 8) / 8) + (24 - 8 * (i / 8) + i % 8) % 8 =
        i := by omega
      rwa [hi'] at hbit
  · exact congrArg _

theorem htonl_ones (big : Bool) : htonl big 0xffffffff = 0xffffffff := by cases big <;> decide

/-! ### What is parsed -/

def netmask (text : Text) : Option (Option Addr) :=
  if 46 ∈ text then some (some (inet_network text))
  else if strtoul text % 2 ^ 32 > 32 then some none
  else (shifted (strtoul text % 2 ^ 32)).map some

section
variable (big : Bool)

def rest (ipaddr : Addr) : Text → Option (Option Netdef)
  | [] => some (some ⟨ipaddr, htonl big 0xffffffff⟩)
  | c :: str =>
    if c ≠ 47 then some none
    else (netmask (readAddress str).1).map fun m => m.map fun m => ⟨ipaddr, htonl big m⟩

theorem netdef_parse_eq {str : Text} (hany : str ≠ anyWord) :
    netdef_parse big str =
      if inet_addr big (readAddress str).1 = inaddrNone then some none
      else rest big (inet_addr big (readAddress str).1) (readAddress str).2 := by
  obtain ⟨ipbuf, hread, hstring, hlen⟩ :=
    read_address_string str (alloc (dottedQuadLen + 1)) (by rw [length_alloc])
  rw [length_alloc] at hlen
  rw [netdef_parse, if_neg hany, hread]
  change (string 0 ipbuf).bind _ = _
  rw [hstring, bind_some]
  dsimp only
  split_ifs with hnone
  · rfl
  · rcases (readAddress str).2 with - | ⟨c, str'⟩
    · rfl
    · unfold rest
      dsimp only
      by_cases hc : c ≠ 47
      · rw [if_pos hc, if_pos hc]
        rfl
      · rw [if_neg hc, if_neg hc]
        obtain ⟨ipbuf', hread', hstring', -⟩ := read_address_string str' ipbuf hlen.ge
        rw [hread']
        change (string 0 ipbuf').bind _ = _
        rw [hstring', bind_some, netmask]
        by_cases hdot : 46 ∈ (readAddress str').1
        · rw [if_pos hdot, if_neg (count_pos_iff.2 hdot).ne']
          rfl
        · rw [if_neg hdot, if_pos (count_eq_zero.2 hdot)]
          split_ifs with hlong
          · rfl
          · cases shifted (strtoul (readAddress str').1 % 2 ^ 32) <;> rfl

def libc {ρ : Type} (regcomp : Text → Option ρ) (regexec : ρ → Text → Bool) : Libc ρ :=
  ⟨regcomp, regexec, inet_addr big, inet_network, htonl big⟩

/-- **The parser of the rules**, where the shift is defined. -/
theorem netdef_parse_eq_netdefParse {ρ : Type} (regcomp : Text → Option ρ)
    (regexec : ρ → Text → Bool) (str : Text) :
    netdef_parse big str = none ∨
      netdef_parse big str = some (netdefParse (libc big regcomp regexec) str) := by
  by_cases hany : str = anyWord
  · exact .inr (by rw [netdef_parse, netdefParse, if_pos hany, if_pos hany])
  · rw [netdef_parse_eq big hany, netdefParse, if_neg hany]
    change _ ∨ _ = some (if inet_addr big (readAddress str).1 = inaddrNone then none else _)
    split_ifs with hnone
    · exact .inr rfl
    · rcases (readAddress str).2 with - | ⟨c, str'⟩
      · rw [rest, htonl_ones]
        exact .inr rfl
      · by_cases hc : c = 47
        · subst hc
          rw [rest, if_neg (not_not_intro rfl), netmask, shifted]
          change _ ∨ _ = some (if 46 ∈ (readAddress str').1 then _
            else if strtoul (readAddress str').1 % 2 ^ 32 > 32 then none else _)
          split_ifs
          · exact .inr rfl
          · exact .inr rfl
          · exact .inl rfl
          · exact .inr rfl
        · rw [rest, if_pos hc]
          refine .inr (congrArg some ?_)
          split
          · rename_i heq
            cases heq
          · rename_i heq
            cases heq
            exact absurd rfl hc
          · rfl

end

/-! ### Lengths -/

theorem value_ge (acc : ℕ) (l : Text) : 10 ^ l.length * acc ≤ value acc l := by
  induction l generalizing acc with
  | nil => rw [length_nil, pow_zero, Nat.one_mul, value_nil]
  | cons c l ih =>
    rw [value_cons, length_cons, pow_succ, Nat.mul_assoc]
    exact (Nat.mul_le_mul_left _ (Nat.le_add_right _ _)).trans (ih _)

theorem le_value (acc : ℕ) (l : Text) : acc ≤ value acc l :=
  (Nat.le_mul_of_pos_left _ (Nat.pow_pos (by decide))).trans (value_ge acc l)

theorem octal_cons_of_pos (h : isOctal c) (acc : ℕ) (l : Text) :
    octal acc (c :: l) = octal (8 * acc + digit c) l := by
  rw [octal, takeWhile_cons_of_pos h, foldl_cons, octal]

theorem octal_cons_of_neg (h : ¬ isOctal c) (acc : ℕ) (l : Text) : octal acc (c :: l) = acc := by
  rw [octal, takeWhile_cons_of_neg h, foldl_nil]

theorem isOctal_iff (h : isDigit c) : isOctal c ↔ digit c < 8 := by
  unfold isDigit at h
  unfold isOctal digit
  rw [Bool.and_eq_true, decide_eq_true_iff, decide_eq_true_iff] at h
  rw [Bool.and_eq_true, decide_eq_true_iff, decide_eq_true_iff, UInt8.le_iff_toNat_le,
    UInt8.le_iff_toNat_le]
  change 48 ≤ c.toNat ∧ c.toNat ≤ 55 ↔ _
  omega

theorem octal_le {l : Text} : ∀ {o v : ℕ}, l.all isDigit → o ≤ v → (8 ≤ v → o < v) →
    octal o l ≤ value v l ∧ (8 ≤ value v l → octal o l < value v l) := by
  induction l with
  | nil =>
    intro o v _ hle hlt
    exact ⟨hle, hlt⟩
  | cons c l ih =>
    intro o v hall hle hlt
    rw [all_cons, Bool.and_eq_true] at hall
    rw [value_cons]
    by_cases hc : digit c < 8
    · rw [octal_cons_of_pos ((isOctal_iff hall.1).2 hc)]
      exact ih hall.2 (by omega) fun h => by omega
    · rw [octal_cons_of_neg (mt (isOctal_iff hall.1).1 hc)]
      have hv := le_value (10 * v + digit c) l
      omega

theorem octal_eq_of_lt {l : Text} :
    ∀ {v : ℕ}, l.all isDigit → value v l < 8 → octal v l = value v l := by
  induction l with
  | nil => exact fun _ _ => rfl
  | cons c l ih =>
    intro v hall hlt
    rw [all_cons, Bool.and_eq_true] at hall
    rw [value_cons] at hlt ⊢
    have hv := le_value (10 * v + digit c) l
    have hacc : 8 * v + digit c = 10 * v + digit c := by omega
    rw [octal_cons_of_pos ((isOctal_iff hall.1).2 (by omega)), hacc]
    exact ih hall.2 hlt

theorem octal_eq_iff {l : Text} (h : l.all isDigit) : octal 0 l = value 0 l ↔ value 0 l < 8 := by
  constructor
  · intro heq
    by_contra hge
    exact ((octal_le h (Nat.le_refl 0) (by omega)).2 (Nat.le_of_not_lt hge)).ne heq
  · exact octal_eq_of_lt h

theorem octal_take_le {l : Text} (h : l.all isDigit) (n : ℕ) :
    octal 0 (l.take n) ≤ value 0 (l.take n) :=
  (octal_le (all_eq_true.2 fun c hc => all_eq_true.1 h c (mem_of_mem_take hc)) (Nat.le_refl 0)
    (by omega)).1

theorem value_take (n : ℕ) : value (value 0 (l.take n)) (l.drop n) = value 0 l := by
  rw [← value_append, take_append_drop]

theorem octal_take_lt {l : Text} (h : l.all isDigit) {n : ℕ} (hn : n < l.length)
    (hpos : value 0 l ≠ 0) :
    octal 0 (l.take n) < value 0 l := by
  have hle := octal_take_le h n
  have hge := value_ge (value 0 (l.take n)) (l.drop n)
  have hten : 10 ^ 1 ≤ 10 ^ (l.drop n).length :=
    Nat.pow_le_pow_right (by decide) (by rw [length_drop]; omega)
  have hmul := Nat.mul_le_mul_right (value 0 (l.take n)) hten
  rw [value_take] at hge
  omega

theorem strtoul_of_ne (h : c ≠ 48) (l : Text) : strtoul (c :: l) = value 0 (c :: l) := by
  unfold strtoul
  split
  · rename_i heq
    exact absurd (List.cons.inj heq).1 h
  · rfl

theorem shifted_eq_some_iff {k n : ℕ} (hk : k ≤ 32) (hn : n ≤ 32) :
    shifted k = some (leading 32 n) ↔ k ≠ 0 ∧ k = n := by
  unfold shifted
  split_ifs with hzero
  · exact iff_of_false nofun fun h => h.1 hzero
  · have hmask : prefixMask k = leading 32 k := leading_eq_shift hk
    rw [hmask, some_inj, leading_inj hk hn, and_iff_right hzero]

/-! ### The specifications -/

abbrev Dotted := { l : Text // l.all isDotted }

abbrev Digits := { l : Text // l ≠ [] ∧ l.all isDigit }

inductive Spec
  | any
  | address (t : Dotted)
  | length (t : Dotted) (d : Digits)
  | mask (t u : Dotted)

def Spec.text : Spec → Text
  | .any => anyWord
  | .address t => t.1
  | .length t d => t.1 ++ 47 :: d.1
  | .mask t u => t.1 ++ 47 :: u.1

def quad (l : Text) : Option Addr :=
  match parts l with
  | some [a, b, c, d] =>
    if a < 2 ^ 8 ∧ b < 2 ^ 8 ∧ c < 2 ^ 8 ∧ d < 2 ^ 8
      then some (.ofNat 32 (a * 2 ^ 24 + b * 2 ^ 16 + c * 2 ^ 8 + d)) else none
  | _ => none

/-- The address and the mask, in host order; a length is decimal, and a mask is the ones of a
length. -/
inductive Spec.Denotes : Spec → Addr → Addr → Prop
  | any : Denotes .any 0 0
  | address {t : Dotted} {a : Addr} (ha : inet_aton t.1 = some a) :
    Denotes (.address t) a (leading 32 32)
  | length {t : Dotted} {d : Digits} {a : Addr} (ha : inet_aton t.1 = some a)
    (hd : value 0 d.1 ≤ 32) :
    Denotes (.length t d) a (leading 32 (value 0 d.1))
  | mask {t u : Dotted} {a : Addr} {n : ℕ} (ha : inet_aton t.1 = some a) (hn : n ≤ 32)
    (hu : quad u.1 = some (leading 32 n)) : Denotes (.mask t u) a (leading 32 n)

/-- What is read of the mask is the mask: the length is not 0, and a leading zero does no harm; the
first 16 characters of a dotted mask are enough. -/
def Spec.Read (m : Addr) : Spec → Prop
  | .length _ d =>
    value 0 d.1 ≠ 0 ∧ (d.1.head? ≠ some 48 ∨ value 0 d.1 < 8 ∧ d.1.length ≤ dottedQuadLen)
  | .mask _ u => netmask (u.1.take dottedQuadLen) = some (some m)
  | _ => True

/-- The network contains the addresses that agree with `a` on `m`. -/
def Right (big : Bool) (sp : Spec) (a m : Addr) : Prop :=
  ∃ net, netdef_parse big sp.text = some (some net) ∧ ∀ ip, net.contains (htonl big ip) ↔
    Agree m ip a

theorem netmask_length_iff {d : Digits} (h : value 0 d.1 ≤ 32) :
    netmask (d.1.take dottedQuadLen) = some (some (leading 32 (value 0 d.1))) ↔
      value 0 d.1 ≠ 0 ∧ (d.1.head? ≠ some 48 ∨ value 0 d.1 < 8 ∧ d.1.length ≤ dottedQuadLen) := by
  obtain ⟨d, hne, hall⟩ := d
  dsimp only at h ⊢
  have hdot : 46 ∉ d.take dottedQuadLen := fun hmem =>
    absurd (all_eq_true.1 hall _ (mem_of_mem_take hmem)) (by decide)
  -- the length that is read
  have hread : strtoul (d.take dottedQuadLen) ≤ 32 →
      (netmask (d.take dottedQuadLen) = some (some (leading 32 (value 0 d))) ↔
        strtoul (d.take dottedQuadLen) ≠ 0 ∧ strtoul (d.take dottedQuadLen) = value 0 d) :=
          fun hle => by
    rw [netmask, if_neg hdot, Nat.mod_eq_of_lt (by omega), if_neg (by omega),
      ← shifted_eq_some_iff hle h]
    cases shifted (strtoul (d.take dottedQuadLen)) <;> simp
  obtain ⟨c, d, rfl⟩ := exists_cons_of_ne_nil hne
  rw [all_cons, Bool.and_eq_true] at hall
  rw [head?_cons]
  by_cases hc : c = 48
  · subst hc
    have hoctal : strtoul ((48 :: d).take dottedQuadLen) = octal 0 (d.take 15) := rfl
    have hvalue : value 0 (48 :: d) = value 0 d := rfl
    have hle : octal 0 (d.take 15) ≤ value 0 d :=
      (octal_take_le hall.2 15).trans ((le_value _ (d.drop 15)).trans_eq (value_take d 15))
    rw [hoctal, hvalue] at hread
    rw [hvalue] at h ⊢
    rw [hread (hle.trans h), or_iff_right (not_not_intro rfl), length_cons]
    rcases lt_or_ge 15 d.length with hlong | hshort
    · refine iff_of_false (fun hk => ?_) fun hk => ?_
      · exact (octal_take_lt hall.2 hlong (hk.2 ▸ hk.1)).ne hk.2
      · have : d.length + 1 ≤ 16 := hk.2.2
        omega
    · have hlen : d.length + 1 ≤ dottedQuadLen := Nat.succ_le_succ hshort
      rw [take_of_length_le hshort, octal_eq_iff hall.2, and_iff_left hlen]
      refine and_congr_left fun hlt => ?_
      rw [(octal_eq_iff hall.2).2 hlt]
  · have hpos : 1 ≤ digit c := by
      have hdigit := hall.1
      have hne48 : c.toNat ≠ 48 := fun he => hc (UInt8.toNat_inj.1 he)
      unfold isDigit at hdigit
      unfold digit
      rw [Bool.and_eq_true, decide_eq_true_iff, decide_eq_true_iff] at hdigit
      omega
    have hge := value_ge (digit c) d
    have hfirst : value 0 (c :: d) = value (digit c) d := by rw [value_cons, mul_zero, zero_add]
    have hlen : d.length < 2 := by
      by_contra hlen
      have hhundred : 10 ^ 2 ≤ 10 ^ d.length := Nat.pow_le_pow_right (by decide) (by omega)
      have hmul := Nat.mul_le_mul hhundred hpos
      omega
    have htake : (c :: d).take dottedQuadLen = c :: d := take_of_length_le (by
      change d.length + 1 ≤ 16
      omega)
    rw [htake, strtoul_of_ne hc] at hread
    rw [htake, hread h, and_iff_left rfl, and_iff_left (.inl (mt some.inj hc))]

/-- A dotted mask that is not too long is read as it is. -/
theorem read_mask_of_short {t u : Dotted} {m : Addr} (hu : quad u.1 = some m)
    (hlen : u.1.length ≤ dottedQuadLen) :
    (Spec.mask t u).Read m := by
  have hdot : 46 ∈ u.1 := by
    by_contra hdot
    unfold quad parts at hu
    rw [splitOn_eq_singleton hdot] at hu
    cases hn : number u.1 <;> simp [hn] at hu
  unfold quad at hu
  rw [Spec.Read, take_of_length_le hlen, netmask, if_pos hdot, inet_network]
  split at hu
  · rename_i a b c d hparts
    rw [hparts]
    split_ifs at hu with hbytes
    obtain rfl := some.inj hu
    obtain ⟨ha, hb, hc, hd⟩ := hbytes
    have hsum : [a, b, c, d].foldl (fun v p => v * 2 ^ 8 + p) 0 =
      a * 2 ^ 24 + b * 2 ^ 16 + c * 2 ^ 8 + d := by
      rw [foldl_cons, foldl_cons, foldl_cons, foldl_cons, foldl_nil]
      omega
    have hall : [a, b, c, d].length ≤ 4 ∧ [a, b, c, d].all (· < 2 ^ 8) = true := ⟨Nat.le_refl 4, by
      simp
      omega⟩
    dsimp only
    rw [if_pos hall, hsum]
  · cases hu
/-! ### What a network contains -/

section
variable {big : Bool} {a m m' : Addr} {t : Dotted} {r : Text}

theorem contains_htonl (ip : Addr) :
    (⟨htonl big a, htonl big m'⟩ : Access.Netdef).contains (htonl big ip) ↔ a = ip &&& m' := by
  unfold Access.Netdef.contains
  rw [beq_iff_eq, ← htonl_and, htonl_inj]

theorem right_of_parsed {sp : Spec} {r : Option (Option Addr)}
    (h : netdef_parse big sp.text = r.map fun m => m.map fun m => ⟨htonl big a, htonl big m⟩) :
    Right big sp a m ↔ r = some (some m) ∧ a &&& m = a := by
  unfold Right
  rw [h]
  constructor
  · rintro ⟨net, hnet, hall⟩
    obtain ⟨m', rfl, hm'⟩ := map_eq_some_iff.1 hnet
    obtain ⟨m', rfl, rfl⟩ := map_eq_some_iff.1 hm'
    have ⟨hm, ha⟩ := test_iff_agree.1 fun ip => (contains_htonl ip).symm.trans (hall ip)
    exact ⟨by rw [hm], ha⟩
  · rintro ⟨rfl, ha⟩
    exact ⟨_, rfl, fun ip => (contains_htonl ip).trans (test_iff_agree.2 ⟨rfl, ha⟩ ip)⟩

theorem readAddress_append (hr : ∀ c ∈ r.head?, ¬ isDotted c) :
    readAddress (t.1 ++ r) = (t.1.take dottedQuadLen, t.1.drop dottedQuadLen ++ r) := by
  have hdotted : ∀ c ∈ t.1, isDotted c := all_eq_true.1 t.2
  have htake : (t.1 ++ r).takeWhile isDotted = t.1 := by
    rw [takeWhile_append_of_pos hdotted]
    rcases r with - | ⟨c, r⟩
    · rw [takeWhile_nil, append_nil]
    · rw [takeWhile_cons_of_neg (hr c rfl), append_nil]
  have hread : readAddress (t.1 ++ r) = (((t.1 ++ r).takeWhile isDotted).take dottedQuadLen,
      (t.1 ++ r).drop (((t.1 ++ r).takeWhile isDotted).take dottedQuadLen).length) := rfl
  have hover : min dottedQuadLen t.1.length - t.1.length = 0 := by omega
  have hdrop : t.1.drop (min dottedQuadLen t.1.length) = t.1.drop dottedQuadLen := by
    rcases le_total dottedQuadLen t.1.length with hle | hge
    · rw [min_eq_left hle]
    · rw [min_eq_right hge, drop_length, drop_of_length_le hge]
  rw [hread, htake, length_take, drop_append, hover, drop_zero, hdrop]

theorem ne_anyWord (ht : inet_aton t.1 = some a) (r : Text) : t.1 ++ r ≠ anyWord := by
  intro h
  obtain ⟨l, hl⟩ := t
  rcases l with - | ⟨c, l⟩
  · cases ht
  · obtain rfl : c = 97 := (List.cons.inj h).1
    rw [all_cons] at hl
    cases hl

theorem netdef_parse_append (ht : inet_aton t.1 = some a) (hr : ∀ c ∈ r.head?, ¬ isDotted c)
    (hacc : netdef_parse big (t.1 ++ r) ≠ some none) :
    netdef_parse big (t.1 ++ r) = rest big (htonl big a) r := by
  rw [netdef_parse_eq big (ne_anyWord ht r), readAddress_append hr] at hacc ⊢
  have hlen : t.1.length ≤ dottedQuadLen := by
    by_contra hlong
    obtain ⟨c, l, hdrop⟩ := exists_cons_of_ne_nil (l := t.1.drop dottedQuadLen) fun hnil =>
      hlong (drop_eq_nil_iff.1 hnil)
    have hc : c ≠ 47 := by
      rintro rfl
      have hmem : 47 ∈ t.1 := mem_of_mem_drop (hdrop ▸ mem_cons_self)
      exact absurd (all_eq_true.1 t.2 _ hmem) (by decide)
    rw [hdrop, cons_append, rest, if_pos hc, ite_self] at hacc
    exact hacc rfl
  have haddr : inet_addr big t.1 = htonl big a := by rw [inet_addr, ht, map_some, getD_some]
  rw [take_of_length_le hlen, drop_of_length_le hlen, nil_append, haddr] at hacc ⊢
  split_ifs at hacc ⊢ with hnone
  · exact absurd rfl hacc
  · rfl

end

theorem netdef_parse_any (big : Bool) :
    netdef_parse big anyWord = some (some ⟨htonl big 0, htonl big 0⟩) := by
  cases big <;> decide

theorem readAddress_dotted (u : Dotted) : (readAddress u.1).1 = u.1.take dottedQuadLen := by
  have h := readAddress_append (t := u) (r := []) nofun
  rw [append_nil] at h
  rw [h]

theorem slash_not_dotted : ∀ c ∈ (47 :: l).head?, ¬ isDotted c := by
  intro c hc
  obtain rfl := some.inj hc
  decide

/-- **An accepted specification means what it says, and `read_address` keeps to its buffer**, just
in case the address has no bit beside the mask and the mask that is read is the mask. -/
theorem match_iff (big : Bool) {sp : Spec} {a m : Addr} (h : sp.Denotes a m)
    (hacc : netdef_parse big sp.text ≠ some none) :
    (Right big sp a m ∧ ∀ (l : Text) (ptr : Block UInt8), ptr.length = dottedQuadLen + 1 →
      (read_address l ptr).isSome) ↔
      a &&& m = a ∧ sp.Read m := by
  have hbuffer : ∀ (l : Text) (ptr : Block UInt8), ptr.length = dottedQuadLen + 1 →
    (read_address l ptr).isSome :=
    fun l ptr hptr => by
      obtain ⟨_, hread, -⟩ := read_address_string l ptr hptr.ge
      rw [hread]
      rfl
  rw [and_iff_left hbuffer, and_comm (a := a &&& m = a)]
  cases h with
  | any =>
    exact (right_of_parsed (r := some (some 0)) (netdef_parse_any big)).trans
      (and_congr_left' (iff_of_true rfl trivial))
  | @address t a ha =>
    have hparse := netdef_parse_append (r := []) ha nofun (by rw [append_nil]; exact hacc)
    rw [append_nil] at hparse
    refine (right_of_parsed (r := some (some (leading 32 32))) hparse).trans
      (and_congr_left' (iff_of_true rfl trivial))
  | @length t d a ha hd =>
    have hdotted : d.1.all isDotted := all_eq_true.2 fun c hc => by
      rw [isDotted, all_eq_true.1 d.2.2 c hc, Bool.true_or]
    have hparse := netdef_parse_append ha (slash_not_dotted d.1) hacc
    rw [rest, if_neg (not_not_intro rfl), readAddress_dotted ⟨d.1, hdotted⟩] at hparse
    exact (right_of_parsed hparse).trans (and_congr_left' (netmask_length_iff hd))
  | @mask t u a n ha hn hu =>
    have hparse := netdef_parse_append ha (slash_not_dotted u.1) hacc
    rw [rest, if_neg (not_not_intro rfl), readAddress_dotted] at hparse
    exact right_of_parsed hparse

/-- `10.0.0.0/8` -/
def net10 : Spec := .length ⟨[49, 48, 46, 48, 46, 48, 46, 48], by decide⟩ ⟨[56], by decide⟩

theorem right_net10 : Right false net10 0x0a000000 (leading 32 8) := by
  have hdenotes : net10.Denotes 0x0a000000 (leading 32 8) := .length (by decide) (by decide)
  exact ((match_iff false hdenotes (by decide)).2 ⟨by decide, by decide, .inl (by decide)⟩).1

/-! ### A host in the address -/

/-- `10.0.0.1/8` -/
def host10 : Spec := .length ⟨[49, 48, 46, 48, 46, 48, 46, 49], by decide⟩ ⟨[56], by decide⟩

/-- **With a bit beside the mask nothing matches**, not even the address itself. -/
theorem not_right_host :
    ¬ ∀ big sp a m, Spec.Denotes sp a m → netdef_parse big sp.text ≠ some none →
    Right big sp a m := by
  intro h
  have hdenotes : host10.Denotes 0x0a000001 (leading 32 8) := .length (by decide) (by decide)
  have hparse : netdef_parse false host10.text = some (some ⟨0x0100000a, 0x000000ff⟩) := by decide
  obtain ⟨net, hnet, hall⟩ := h false host10 _ _ hdenotes (by rw [hparse]; exact nofun)
  obtain rfl := some.inj (some.inj (hparse.symm.trans hnet))
  exact absurd ((hall 0x0a000001).2 fun _ _ _ => rfl) (by decide)

end Inetutils.Talkd.Netdef
