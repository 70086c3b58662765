import Inetutils.Lib.OnesComplement
import Mathlib.Algebra.Order.BigOperators.Group.List
import Mathlib.Algebra.Order.Ring.Nat
import Mathlib.Data.UInt

/-! # The checksum of ICMP

`icmp_cksum` of `src/libicmp/icmp_cksum.c`, with which `icmp_generic_encode` and
`icmp_generic_decode` of `src/libicmp/icmp_echo.c` set and check the checksum of a message. The
words are those of the machine, in either order of their bytes, and `int` has 32 bits. -/

namespace Inetutils.Libicmp.Cksum

open Lib OnesComplement List Option

abbrev Byte := UInt8

/-! ### The words of a machine -/

inductive Order
  | little
  | big
  deriving DecidableEq

def Order.word : Order → Byte → Byte → ℕ
  | .little, a, b => a.toNat + 256 * b.toNat
  | .big, a, b => 256 * a.toNat + b.toNat

def Order.bytes : Order → ℕ → List Byte
  | .little, w => [UInt8.ofNat w, UInt8.ofNat (w / 256)]
  | .big, w => [UInt8.ofNat (w / 256), UInt8.ofNat w]

/-! ### The checksum -/

/-- `sum += w`, in `int`. -/
def addInt (sum w : ℕ) : Option ℕ := if sum + w < 2 ^ 31 then some (sum + w) else none

def sumLoop (o : Order) : ℕ → List Byte → Option ℕ
  | sum, a :: b :: addr => (addInt sum (o.word a b)).bind fun sum => sumLoop o sum addr
  | sum, [a] => addInt sum (o.word a 0)
  | sum, [] => some sum

/-- **`icmp_cksum`** -/
def icmp_cksum (o : Order) (addr : List Byte) : Option ℕ :=
  (sumLoop o 0 addr).map fun sum =>
    let sum := (sum >>> 16) + (sum &&& 0xffff)
    let sum := sum + (sum >>> 16)
    0xffff - sum % 2 ^ 16

/-! ### The messages -/

/-- `icmp_cksum` of a message that begins at `icmp`. -/
def field (o : Order) : List Byte → ℕ
  | _ :: _ :: c :: d :: _ => o.word c d
  | _ => 0

def setField (icmp cksum : List Byte) : List Byte := icmp.take 2 ++ cksum ++ icmp.drop 4

/-- **`icmp_generic_encode`**: what it returns, and the buffer. -/
def icmp_generic_encode (o : Order) (buffer : List Byte) (type ident seqno : ℤ) :
    Option (ℤ × List Byte) :=
  if buffer.length < 8 then some (-1, buffer)
  else
    let icmp := [UInt8.ofNat (type % 256).toNat, 0, 0, 0] ++ o.bytes (ident % 65536).toNat ++
      o.bytes (seqno % 65536).toNat ++ buffer.drop 8
    (icmp_cksum o icmp).map fun cksum => (0, setField icmp (o.bytes cksum))

/-- `ip_hl << 2` -/
def hlen : List Byte → ℕ
  | [] => 0
  | b :: _ => 4 * (b.toNat % 16)

/-- **`icmp_generic_decode`**: what it returns, and the buffer; of an empty one the header is not
there. -/
def icmp_generic_decode (o : Order) (buffer : List Byte) : Option (ℤ × List Byte) :=
  if buffer = [] then none
  else if buffer.length < hlen buffer + 8 then some (-1, buffer)
  else
    let icmp := buffer.drop (hlen buffer)
    (icmp_cksum o (setField icmp [0, 0])).map fun cksum =>
      (if cksum ≠ field o icmp then 1 else 0,
        buffer.take (hlen buffer) ++ setField icmp (o.bytes cksum))

/-! ### What is to hold -/

def words (o : Order) : List Byte → List ℕ
  | a :: b :: m => o.word a b :: words o m
  | [a] => [o.word a 0]
  | [] => []

def onesSum (m : List Byte) : ℕ := total 0xffff (words .big m)

def rfc1071 (m : List Byte) : ℕ := 0xffff - onesSum m

abbrev Message := { m : List Byte // 8 ≤ m.length ∧ m.length ≤ 65535 }

abbrev IpHeader := { h : List Byte // h ≠ [] ∧ h.length = hlen h }

abbrev Packet :=
  { p : List Byte // p ≠ [] ∧ 8 ≤ (p.drop (hlen p)).length ∧ (p.drop (hlen p)).length ≤ 65535 }

def Packet.icmp (p : Packet) : List Byte := p.1.drop (hlen p.1)

/-- The checksum is the one zero while the other words sum up to the other one. -/
def OtherZero (m : List Byte) : Prop :=
  (m.drop 2).take 2 = [255, 255] ∧ ∃ b ∈ m.take 2 ++ m.drop 4, b ≠ 0

/-! ### The sum -/

theorem toNat_le (b : Byte) : b.toNat ≤ 255 := Nat.le_of_lt_succ b.toNat_lt

variable (o : Order) {w : ℕ} {m : List Byte}

theorem word_le (a b : Byte) : o.word a b ≤ 0xffff := by
  have ha := toNat_le a
  have hb := toNat_le b
  cases o <;> unfold Order.word <;> dsimp only <;> omega

theorem words_le {o : Order} {m : List Byte} : ∀ w ∈ words o m, w ≤ 0xffff := by
  fun_induction words o m with
  | case1 a b m ih => exact forall_mem_cons.2 ⟨word_le o a b, ih⟩
  | case2 a => exact forall_mem_singleton.2 (word_le o a 0)
  | case3 => nofun

theorem length_words (m : List Byte) : (words o m).length = (m.length + 1) / 2 := by
  fun_induction words o m with
  | case1 a b m ih =>
    rw [length_cons, length_cons, length_cons, ih]
    omega
  | case2 a => rw [length_singleton, length_singleton]
  | case3 => rfl

theorem sum_lt (o : Order) {m : List Byte} (h : m.length ≤ 65535) : (words o m).sum < 2 ^ 31 := by
  have hsum := sum_le_card_nsmul (words o m) 0xffff words_le
  rw [length_words, nsmul_eq_mul] at hsum
  have hcast : ((m.length + 1) / 2 : ℕ) * 0xffff ≤ 32768 * 0xffff :=
    Nat.mul_le_mul_right _ (by omega)
  exact Nat.lt_of_le_of_lt (hsum.trans hcast) (by decide)

/-- **The loop**: where `int` does not overflow, the sum of the words. -/
theorem sumLoop_eq {o : Order} {sum : ℕ} {m : List Byte} (h : sum + (words o m).sum < 2 ^ 31) :
    sumLoop o sum m = some (sum + (words o m).sum) := by
  fun_induction sumLoop o sum m with
  | case1 sum a b m ih =>
    rw [words, sum_cons, ← add_assoc] at h ⊢
    rw [addInt, if_pos (by omega), bind_some]
    exact ih _ h
  | case2 sum a =>
    rw [words, sum_singleton] at h ⊢
    exact if_pos h
  | case3 sum => rfl

theorem fold_eq {s : ℕ} (h : s < 2 ^ 31) :
    ((s >>> 16) + (s &&& 0xffff) + (((s >>> 16) + (s &&& 0xffff)) >>> 16)) % 2 ^ 16 =
    rest 0xffff s := by
  have hand : s &&& 0xffff = s % 65536 := Nat.and_two_pow_sub_one_eq_mod s 16
  rw [hand, Nat.shiftRight_eq_div_pow, Nat.shiftRight_eq_div_pow, ← rest_fold s]
  show (s / 65536 + s % 65536 + (s / 65536 + s % 65536) / 65536) % 65536 =
    rest 0xffff (s / 65536 + s % 65536)
  have hle : s / 65536 + s % 65536 < 98304 := by omega
  generalize s / 65536 + s % 65536 = t at hle ⊢
  rcases lt_or_ge t 65536 with hlt | hge
  · rw [Nat.div_eq_of_lt hlt, add_zero, Nat.mod_eq_of_lt hlt, rest_of_le (by omega)]
  · have hcarry : t / 65536 = 1 := by omega
    have hdiff : rest 0xffff t = rest 0xffff (t - 0xffff) := by
      refine rest_congr ?_ (by omega)
      exact ((Nat.modEq_iff_dvd' (Nat.sub_le _ _)).2 (by rw [Nat.sub_sub_self (by omega)])).symm
    rw [hcarry, hdiff, rest_of_le (by omega)]
    omega

/-- **The checksum**: the complement of the one's complement sum. -/
theorem icmp_cksum_eq (o : Order) {m : List Byte} (h : m.length ≤ 65535) :
    icmp_cksum o m = some (0xffff - total 0xffff (words o m)) := by
  have hlt := sum_lt o h
  have hsum := @sumLoop_eq o 0 m (by rwa [zero_add])
  rw [zero_add] at hsum
  rw [icmp_cksum, hsum, map_some, total_eq (by decide) words_le]
  dsimp only
  rw [fold_eq hlt]

/-! ### The order of the bytes -/

def swap (w : ℕ) : ℕ := w / 256 + 256 * (w % 256)

theorem sum_little (m : List Byte) :
    (words .little m).sum ≡ 256 * (words .big m).sum [MOD 0xffff] ∧
      ((words .little m).sum = 0 ↔ (words .big m).sum = 0) := by
  have hword (a b : Byte) : Order.little.word a b ≡ 256 * Order.big.word a b [MOD 0xffff] ∧
      (Order.little.word a b = 0 ↔ Order.big.word a b = 0) := by
    unfold Order.word Nat.ModEq
    dsimp only
    omega
  fun_induction words .little m with
  | case1 a b m ih =>
    obtain ⟨hmod, hzero⟩ := hword a b
    rw [words, sum_cons, sum_cons, mul_add, Nat.add_eq_zero_iff, Nat.add_eq_zero_iff]
    exact ⟨hmod.add ih.1, and_congr hzero ih.2⟩
  | case2 a =>
    rw [words, sum_singleton, sum_singleton]
    exact hword a 0
  | case3 => exact ⟨rfl, Iff.rfl⟩

theorem rest_swap (s : ℕ) : rest 0xffff (256 * s) = swap (rest 0xffff s) := by
  have hle := rest_le (n := 0xffff) (by decide) s
  have hmul : rest 0xffff (256 * s) = rest 0xffff (256 * rest 0xffff s) := by
    refine rest_congr ((rest_modEq s).symm.mul_left 256) ?_
    rw [Nat.mul_eq_zero, Nat.mul_eq_zero, rest_eq_zero]
  rw [hmul]
  generalize rest 0xffff s = t at hle ⊢
  have hswap : swap t ≤ 0xffff := by
    unfold swap
    omega
  rw [← rest_of_le hswap]
  refine rest_congr ?_ ?_
  · unfold swap Nat.ModEq
    omega
  · unfold swap
    omega

theorem total_little (m : List Byte) : total 0xffff (words .little m) = swap (onesSum m) := by
  obtain ⟨hmod, hzero⟩ := sum_little m
  rw [onesSum, total_eq (by decide) words_le, total_eq (by decide) words_le, ← rest_swap]
  refine rest_congr hmod ?_
  rw [hzero, Nat.mul_eq_zero]
  omega

theorem bytes_swap (h : w ≤ 0xffff) :
    Order.little.bytes (0xffff - swap w) = Order.big.bytes (0xffff - w) := by
  have hbig : 0xffff - w = 256 * (255 - w / 256) + (255 - w % 256) := by omega
  have hlittle : 0xffff - swap w = 256 * (255 - w % 256) + (255 - w / 256) := by
    unfold swap
    omega
  have hbytes {h l : ℕ} (hl : l < 256) :
      Order.big.bytes (256 * h + l) = [UInt8.ofNat h, UInt8.ofNat l] := by
    have hdiv : (256 * h + l) / 256 = h := by omega
    have hmod : UInt8.ofNat (256 * h + l) = UInt8.ofNat l := by
      rw [← UInt8.ofNat_mod_size, show (256 * h + l) % 2 ^ 8 = l by omega]
    rw [Order.bytes, hdiv, hmod]
  have hrev (v : ℕ) : Order.little.bytes v = (Order.big.bytes v).reverse := rfl
  rw [hrev, hbig, hlittle, hbytes (by omega), hbytes (by omega)]
  rfl

theorem onesSum_le (m : List Byte) : onesSum m ≤ 0xffff := by
  rw [onesSum, total_eq (by decide) words_le]
  exact rest_le (by decide) _

/-- **The bytes** that are stored are those of RFC 1071, in either order of the machine. -/
theorem cksum_bytes (h : m.length ≤ 65535) :
    ∃ cksum, icmp_cksum o m = some cksum ∧ o.bytes cksum = Order.big.bytes (rfc1071 m) := by
  refine ⟨_, icmp_cksum_eq o h, ?_⟩
  cases o with
  | little => rw [total_little, bytes_swap (onesSum_le m), rfc1071]
  | big => rfl

/-! ### The field -/

theorem exists_cons (h : 4 ≤ m.length) : ∃ a b c d r, m = a :: b :: c :: d :: r := by
  match m, h with
  | a :: b :: c :: d :: r, _ => exact ⟨a, b, c, d, r, rfl⟩

theorem length_bytes (w : ℕ) : (o.bytes w).length = 2 := by cases o <;> rfl

theorem setField_setField {bs : List Byte} (hm : 4 ≤ m.length) (hbs : bs.length = 2)
    (cs : List Byte) : setField (setField m bs) cs = setField m cs := by
  obtain ⟨a, b, c, d, r, rfl⟩ := exists_cons hm
  obtain ⟨e, f, rfl⟩ := length_eq_two.1 hbs
  rfl

theorem length_setField {bs : List Byte} (hm : 4 ≤ m.length) (hbs : bs.length = 2) :
    (setField m bs).length = m.length := by
  obtain ⟨a, b, c, d, r, rfl⟩ := exists_cons hm
  obtain ⟨e, f, rfl⟩ := length_eq_two.1 hbs
  rfl

theorem field_setField (hm : 4 ≤ m.length) (hw : w ≤ 0xffff) :
    field o (setField m (o.bytes w)) = w := by
  obtain ⟨a, b, c, d, r, rfl⟩ := exists_cons hm
  have hhigh : (UInt8.ofNat (w / 256)).toNat = w / 256 :=
    UInt8.toNat_ofNat_of_lt' (by rw [UInt8.size]; omega)
  have hlow : (UInt8.ofNat w).toNat = w % 256 := UInt8.toNat_ofNat'
  cases o with
  | little =>
    show (UInt8.ofNat w).toNat + 256 * (UInt8.ofNat (w / 256)).toNat = w
    omega
  | big =>
    show 256 * (UInt8.ofNat (w / 256)).toNat + (UInt8.ofNat w).toNat = w
    omega

/-! ### What is accepted -/

theorem decode_eq {p : List Byte} (hp : p ≠ []) (h : 8 ≤ (p.drop (hlen p)).length) :
    icmp_generic_decode o p = (icmp_cksum o (setField (p.drop (hlen p)) [0, 0])).map fun cksum =>
      (if cksum ≠ field o (p.drop (hlen p)) then 1 else 0,
        p.take (hlen p) ++ setField (p.drop (hlen p)) (o.bytes cksum)) := by
  have hlength : ¬ p.length < hlen p + 8 := by
    rw [length_drop] at h
    omega
  rw [icmp_generic_decode, if_neg hp, if_neg hlength]

/-- **A message that was encoded** is accepted behind a header. -/
theorem decode_encode (buffer : Message) (type ident seqno : ℤ) (h : IpHeader) :
    ∃ m, icmp_generic_encode o buffer.1 type ident seqno = some (0, m) ∧
      m.length = buffer.1.length ∧ icmp_generic_decode o (h.1 ++ m) = some (0, h.1 ++ m) := by
  obtain ⟨buffer, hmin, hmax⟩ := buffer
  obtain ⟨h, hne, hlength⟩ := h
  set icmp := [UInt8.ofNat (type % 256).toNat, 0, 0, 0] ++ o.bytes (ident % 65536).toNat ++
    o.bytes (seqno % 65536).toNat ++ buffer.drop 8 with hicmp
  have hlen_icmp : icmp.length = buffer.length := by
    simp only [hicmp, length_append, length_cons, length_nil, length_bytes, length_drop]
    omega
  have hfour : 4 ≤ icmp.length := by omega
  have hclear : setField icmp [0, 0] = icmp := rfl
  set cksum := 0xffff - total 0xffff (words o icmp) with hcksum
  have hsum : icmp_cksum o icmp = some cksum := icmp_cksum_eq o (by omega)
  have hbytes := length_bytes o cksum
  refine ⟨setField icmp (o.bytes cksum), ?_, (length_setField hfour hbytes).trans hlen_icmp, ?_⟩
  · rw [icmp_generic_encode, if_neg (Nat.not_lt.2 hmin)]
    dsimp only
    rw [← hicmp, hsum, map_some]
  · have hhlen : hlen (h ++ setField icmp (o.bytes cksum)) = h.length := by
      rw [hlength]
      obtain ⟨b, h, rfl⟩ := exists_cons_of_ne_nil hne
      rfl
    have hdrop : (h ++ setField icmp (o.bytes cksum)).drop h.length = _ := drop_left
    rw [decode_eq o (append_ne_nil_of_left_ne_nil hne _), hhlen, hdrop, take_left,
      setField_setField hfour hbytes, hclear, hsum, field_setField o hfour (Nat.sub_le _ _)]
    · rw [map_some, if_neg (not_not.2 rfl), setField_setField hfour hbytes]
    · rw [hhlen, hdrop, length_setField hfour hbytes]
      omega

theorem swap_eq_top (h : w ≤ 0xffff) : swap w = 0xffff ↔ w = 0xffff := by
  unfold swap
  omega

theorem onesSum_eq_top (m : List Byte) :
    onesSum m = 0xffff ↔ rest 0xffff (words o m).sum = 0xffff := by
  rw [← total_eq (by decide) words_le]
  cases o with
  | little => rw [total_little, swap_eq_top (onesSum_le m)]
  | big => exact Iff.rfl

theorem word_eq_zero {o : Order} {a b : Byte} : o.word a b = 0 ↔ a = 0 ∧ b = 0 := by
  rw [← UInt8.toNat_inj, ← UInt8.toNat_inj, UInt8.toNat_zero]
  cases o <;> unfold Order.word <;> dsimp only <;> omega

theorem word_eq_top {o : Order} {a b : Byte} : o.word a b = 0xffff ↔ a = 255 ∧ b = 255 := by
  have ha := toNat_le a
  have hb := toNat_le b
  rw [← UInt8.toNat_inj, ← UInt8.toNat_inj, show (255 : Byte).toNat = 255 from rfl]
  cases o <;> unfold Order.word <;> dsimp only <;> omega

theorem sum_eq_zero {o : Order} : (words o m).sum = 0 ↔ ∀ b ∈ m, b = 0 := by
  fun_induction words o m with
  | case1 a b m ih =>
    rw [sum_cons, Nat.add_eq_zero_iff, word_eq_zero, ih, forall_mem_cons,
      forall_mem_cons, and_assoc]
  | case2 a =>
    rw [sum_singleton, word_eq_zero, forall_mem_singleton]
    exact and_iff_left rfl
  | case3 => exact iff_of_true rfl nofun

theorem decode_eq_zero (p : Packet) :
    (∃ buffer, icmp_generic_decode o p.1 = some (0, buffer)) ↔
    onesSum p.icmp = 0xffff ∧ ¬ OtherZero p.icmp := by
  obtain ⟨p, hp, hmin, hmax⟩ := p
  have hdecode := decode_eq o hp hmin
  unfold Packet.icmp
  dsimp only
  generalize p.drop (hlen p) = m at hmin hmax hdecode ⊢
  obtain ⟨a, b, c, d, r, rfl⟩ := exists_cons (le_trans (by decide) hmin)
  have hcksum : icmp_cksum o (a :: b :: 0 :: 0 :: r) = _ := icmp_cksum_eq o hmax
  rw [total_eq (by decide) words_le] at hcksum
  have hclear : setField (a :: b :: c :: d :: r) [0, 0] = a :: b :: 0 :: 0 :: r := rfl
  have hfield : field o (a :: b :: c :: d :: r) = o.word c d := rfl
  rw [hclear, hfield, hcksum, map_some] at hdecode
  have hsum : (words o (a :: b :: 0 :: 0 :: r)).sum = o.word a b + (words o r).sum := by
    rw [words, words, sum_cons, sum_cons, word_eq_zero.2 ⟨rfl, rfl⟩, zero_add]
  have hwhole :
      (words o (a :: b :: c :: d :: r)).sum = o.word a b + (words o r).sum + o.word c d := by
    rw [words, words, sum_cons, sum_cons]
    omega
  have hother : OtherZero (a :: b :: c :: d :: r) ↔
    o.word c d = 0xffff ∧ o.word a b + (words o r).sum ≠ 0 := by
    have htop : [c, d] = [255, 255] ↔ c = 255 ∧ d = 255 := by
      rw [List.cons.injEq, List.cons.injEq, eq_self, and_true]
    have hzero : (∃ e ∈ a :: b :: r, e ≠ 0) ↔ ¬ ((a = 0 ∧ b = 0) ∧ ∀ e ∈ r, e = 0) := by
      have hall : (∀ e ∈ a :: b :: r, e = 0) ↔ (a = 0 ∧ b = 0) ∧ ∀ e ∈ r, e = 0 := by
        rw [forall_mem_cons, forall_mem_cons, and_assoc]
      simp only [← hall, not_forall, exists_prop, ne_eq]
    rw [word_eq_top, Ne, Nat.add_eq_zero_iff, word_eq_zero, sum_eq_zero, ← hzero, ← htop]
    rfl
  rw [hdecode, onesSum_eq_top o, hwhole, hother,
    ← sub_rest_eq_iff (by decide) (word_le o c d), ← hsum]
  constructor
  · rintro ⟨buffer, hbuffer⟩
    by_contra hne
    rw [if_pos hne] at hbuffer
    cases hbuffer
  · intro heq
    exact ⟨_, by rw [if_neg (not_not.2 heq)]⟩

/-- **The checksum of a message, its encoding and what is accepted**. -/
theorem checks (o : Order) :
    (∀ m : Message, ∃ cksum, icmp_cksum o m.1 = some cksum ∧
      o.bytes cksum = Order.big.bytes (rfc1071 m.1)) ∧
      (∀ (buffer : Message) (type ident seqno : ℤ) (h : IpHeader), ∃ m,
        icmp_generic_encode o buffer.1 type ident seqno = some (0, m) ∧ m.length = buffer.1.length ∧
          icmp_generic_decode o (h.1 ++ m) = some (0, h.1 ++ m)) ∧
      ∀ p : Packet, (∃ buffer, icmp_generic_decode o p.1 = some (0, buffer)) ↔
        onesSum p.icmp = 0xffff ∧ ¬ OtherZero p.icmp :=
  ⟨fun m => cksum_bytes o m.2.2, decode_encode o, decode_eq_zero o⟩

/-- An echo request whose checksum is the second zero: it sums up to all ones, and is rejected. -/
def second : Packet :=
  ⟨[0x45, 0, 0, 28, 0, 0, 0, 0, 64, 1, 0, 0, 127, 0, 0, 1, 127, 0, 0, 1,
    8, 0, 0xff, 0xff, 0xf7, 0xff, 0, 0],
    by decide +kernel⟩

theorem not_checks_second :
    ¬ ∀ (o : Order) (p : Packet),
      (∃ buffer, icmp_generic_decode o p.1 = some (0, buffer)) ↔ onesSum p.icmp = 0xffff := by
  intro h
  have hsum : onesSum second.icmp = 0xffff := by decide +kernel
  have hother : (icmp_generic_decode .little second.1).map Prod.fst = some 1 := by decide +kernel
  obtain ⟨buffer, hbuffer⟩ := (h .little second).2 hsum
  rw [hbuffer, map_some] at hother
  have hzero : (0 : ℤ) = 1 := some.inj hother
  exact absurd hzero (by decide)

end Inetutils.Libicmp.Cksum
