import Inetutils.Ping.Received

/-! # What traceroute takes for an answer

`trace_read` of `src/src/traceroute.c`, of what stands in its buffer of 56 bytes. Reading outside of
the buffer has no result, and neither has the use of a place that `icmp_generic_decode` has not
set. -/

namespace Inetutils.Traceroute.Read

open Libicmp Ping.Received Option

abbrev Byte := UInt8

/-- `enum trace_type` -/
inductive TraceType
  | udp
  | icmp
  deriving DecidableEq

/-- What is read of `trace_t`, `to.sin_port` as a number, and the address `dest`. -/
structure Trace where
  type : TraceType
  port : ℕ
  dest : List Byte

def pid : ℕ := 0

def word (o : Cksum.Order) (data : List Byte) (i : ℕ) : Option ℕ :=
  data[i]?.bind fun a => data[i + 1]?.map fun b => o.word a b

/-- `case TRACE_UDP`, with the message at `ic`: whether it is for us, and whether it is the last
one. -/
def readUdp (t : Trace) (data : List Byte) (ic : ℕ) : Option (Bool × Bool) :=
  data[ic]?.bind fun icmp_type => data[ic + 1]?.bind fun icmp_code =>
    if (icmp_type ≠ 11 ∧ icmp_type ≠ 3) ∨ (icmp_type = 3 ∧ icmp_code ≠ 3) then some (false, false)
    else
      -- both are in the order of the network
      (word .big data (ic + 8 + 2 * 11)).map fun port =>
        if port ≠ t.port then (false, false) else (true, decide (icmp_code = 3))

/-- `case TRACE_ICMP` -/
def readIcmp (o : Cksum.Order) (t : Trace) (data : List Byte) (ic : ℕ) : Option (Bool × Bool) :=
  data[ic]?.bind fun icmp_type =>
    if icmp_type ≠ 11 ∧ icmp_type ≠ 0 then some (false, false)
    else
      let seq := if icmp_type = 0 then ic + 6 else ic + 8 + 2 * 12
      let ident := if icmp_type = 0 then ic + 4 else ic + 8 + 2 * 13
      (word o data seq).bind fun seq =>
        if seq ≠ pid then some (false, false)
        else
          (word o data ident).map fun ident =>
            if ident ≠ pid then (false, false) else (true, decide ((data.drop 12).take 4 = t.dest))

/-- **`trace_read`**: whether it returns `0`, and whether it sets `stop`. -/
def trace_read (o : Cksum.Order) (t : Trace) (data : List Byte) : Option (Bool × Bool) :=
  (Cksum.icmp_generic_decode o data).bind fun (rc, data') =>
    if rc < 0 then none
    else
      match t.type with
      | .udp => readUdp t data' (Cksum.hlen data)
      | .icmp => readIcmp o t data' (Cksum.hlen data)

/-! ### The fields -/

def byte (data : List Byte) (i : ℕ) : Byte := data.getD i 0

def short (o : Cksum.Order) (data : List Byte) (i : ℕ) : ℕ :=
  o.word (byte data i) (byte data (i + 1))

def Quotes (ty : TraceType) (data : List Byte) : Prop :=
  byte data (Cksum.hlen data) = 11 ∨
    ty = .udp ∧ byte data (Cksum.hlen data) = 3 ∧ byte data (Cksum.hlen data + 1) = 3

instance (ty : TraceType) (data : List Byte) : Decidable (Quotes ty data) :=
  inferInstanceAs (Decidable (_ ∨ _))

def need (ty : TraceType) (data : List Byte) : ℕ :=
  Cksum.hlen data + if Quotes ty data then (if ty = .udp then 32 else 36) else 8

/-- **The fields that are compared** are those of a probe to the port. -/
def Passes (o : Cksum.Order) (ty : TraceType) (port : ℕ) (data : List Byte) : Prop :=
  match ty with
  | .udp => Quotes .udp data ∧ short .big data (Cksum.hlen data + 30) = port
  | .icmp =>
    (byte data (Cksum.hlen data) = 0 ∧ short o data (Cksum.hlen data + 6) = pid ∧
        short o data (Cksum.hlen data + 4) = pid) ∨
      Quotes .icmp data ∧ short o data (Cksum.hlen data + 32) = pid ∧
      short o data (Cksum.hlen data + 34) = pid

instance (o : Cksum.Order) (ty : TraceType) (port : ℕ) (data : List Byte) :
    Decidable (Passes o ty port data) :=
  match ty with
  | .udp => inferInstanceAs (Decidable (_ ∧ _))
  | .icmp => inferInstanceAs (Decidable (_ ∨ _))

/-! ### Reading them -/

theorem getElem?_of_lt {data : List Byte} {i : ℕ} (h : i < data.length) :
    data[i]? = some (byte data i) := by
  rw [byte, List.getD_eq_getElem?_getD, List.getElem?_eq_getElem h]
  rfl

theorem word_of_lt {o : Cksum.Order} {data : List Byte} {i : ℕ} (h : i + 1 < data.length) :
    word o data i = some (short o data i) := by
  rw [word, getElem?_of_lt (Nat.lt_of_succ_lt h), getElem?_of_lt h]
  rfl

theorem word_of_ge {o : Cksum.Order} {data : List Byte} {i : ℕ} (h : data.length ≤ i + 1) :
    word o data i = none := by
  rw [word, List.getElem?_eq_none h]
  cases data[i]? <;> rfl

section
variable {o : Cksum.Order} {t : Trace} {data q : List Byte} {ic : ℕ}

theorem short_congr (h : SameBut ic q data) {i : ℕ} (hi : ic + 4 ≤ i) :
    short o q i = short o data i := by
  rw [short, short, byte, byte, h.getD (.inr hi), h.getD (.inr (Nat.le_succ_of_le hi))]
  rfl

theorem quotes_udp : Quotes .udp data ↔ byte data (Cksum.hlen data) = 11 ∨
    byte data (Cksum.hlen data) = 3 ∧ byte data (Cksum.hlen data + 1) = 3 := by simp [Quotes]

theorem quotes_icmp : Quotes .icmp data ↔ byte data (Cksum.hlen data) = 11 := by simp [Quotes]

/-- What a reading comes to: no result, or whether the fields are those of a probe; only if so it
may be the last. -/
def Reads (r : Option (Bool × Bool)) (fits passes : Prop) : Prop :=
  (fits → ((passes ∧ ∃ stops, r = some (true, stops)) ∨ (¬ passes ∧ r = some (false, false)))) ∧
    (¬ fits → r = none)

variable {fits passes : Prop}

theorem reads_pass (h : fits) (hp : passes) (stops : Bool) :
    Reads (some (true, stops)) fits passes :=
  ⟨fun _ => .inl ⟨hp, stops, rfl⟩, fun hn => absurd h hn⟩

theorem reads_fail (h : fits) (hp : ¬ passes) : Reads (some (false, false)) fits passes :=
  ⟨fun _ => .inr ⟨hp, rfl⟩, fun hn => absurd h hn⟩

theorem reads_none (h : ¬ fits) : Reads none fits passes := ⟨fun hf => absurd hf h, fun _ => rfl⟩

theorem readUdp_eq (o : Cksum.Order) (hlen : data.length = 56)
    (h : SameBut (Cksum.hlen data) q data) (hle : Cksum.hlen data + 8 ≤ 56) :
    Reads (readUdp t q (Cksum.hlen data)) (need .udp data ≤ 56) (Passes o .udp t.port data) := by
  have hq : q.length = 56 := h.length.trans hlen
  have htype : byte q (Cksum.hlen data) = byte data (Cksum.hlen data) := h.getD (.inl (by omega))
  have hcode : byte q (Cksum.hlen data + 1) = byte data (Cksum.hlen data + 1) :=
    h.getD (.inl (by omega))
  rw [readUdp, getElem?_of_lt (by omega), bind_some, getElem?_of_lt (by omega), bind_some,
    htype, hcode]
  by_cases hquotes : Quotes .udp data
  · have hskip : ¬ ((byte data (Cksum.hlen data) ≠ 11 ∧ byte data (Cksum.hlen data) ≠ 3) ∨
        (byte data (Cksum.hlen data) = 3 ∧ byte data (Cksum.hlen data + 1) ≠ 3)) := by
      have := quotes_udp.1 hquotes
      grind
    rw [if_neg hskip, need, if_pos hquotes, if_pos rfl]
    by_cases hfits : Cksum.hlen data + 32 ≤ 56
    · rw [word_of_lt (by omega), short_congr h (by omega), map_some]
      by_cases hport : short .big data (Cksum.hlen data + 8 + 2 * 11) = t.port
      · rw [if_neg (not_not.2 hport)]
        exact reads_pass hfits ⟨hquotes, hport⟩ _
      · rw [if_pos hport]
        exact reads_fail hfits fun hp => hport hp.2
    · rw [word_of_ge (by omega)]
      exact reads_none hfits
  · have hskip : (byte data (Cksum.hlen data) ≠ 11 ∧ byte data (Cksum.hlen data) ≠ 3) ∨
        (byte data (Cksum.hlen data) = 3 ∧ byte data (Cksum.hlen data + 1) ≠ 3) := by
      have := fun h => hquotes (quotes_udp.2 h)
      grind
    rw [if_pos hskip, need, if_neg hquotes]
    exact reads_fail hle fun hp => hquotes hp.1

theorem hlen_dvd (data : List Byte) : 4 ∣ Cksum.hlen data := by
  cases data with
  | nil => exact Nat.dvd_zero 4
  | cons b data => exact Nat.dvd_mul_right 4 _

theorem readIcmp_eq (o : Cksum.Order) (hlen : data.length = 56)
    (h : SameBut (Cksum.hlen data) q data) (hle : Cksum.hlen data + 8 ≤ 56) :
    Reads (readIcmp o t q (Cksum.hlen data)) (need .icmp data ≤ 56)
    (Passes o .icmp t.port data) := by
  have hq : q.length = 56 := h.length.trans hlen
  have hdvd := hlen_dvd data
  have htype : byte q (Cksum.hlen data) = byte data (Cksum.hlen data) := h.getD (.inl (by omega))
  have hword : ∀ i, Cksum.hlen data + 4 ≤ i → i + 1 < 56 → word o q i = some (short o data i) :=
    fun i hi hlt => by
    rw [word_of_lt (by omega), short_congr h hi]
  rw [readIcmp, getElem?_of_lt (by omega), bind_some, htype]
  by_cases hreply : byte data (Cksum.hlen data) = 0
  · have hquotes : ¬ Quotes .icmp data := fun hn => by
      rw [quotes_icmp, hreply] at hn
      exact absurd hn (by decide)
    rw [if_neg (fun hn => hn.2 hreply), need, if_neg hquotes]
    simp only [if_pos hreply]
    rw [hword _ (by omega) (by omega), hword _ (by omega) (by omega), bind_some, map_some]
    by_cases hseq : short o data (Cksum.hlen data + 6) = pid
    · rw [if_neg (not_not.2 hseq)]
      by_cases hident : short o data (Cksum.hlen data + 4) = pid
      · rw [if_neg (not_not.2 hident)]
        exact reads_pass hle (.inl ⟨hreply, hseq, hident⟩) _
      · rw [if_pos hident]
        exact reads_fail hle fun hp => hident (hp.resolve_right fun h => hquotes h.1).2.2
    · rw [if_pos hseq]
      exact reads_fail hle fun hp => hseq (hp.resolve_right fun h => hquotes h.1).2.1
  · by_cases hquotes : Quotes .icmp data
    · rw [if_neg (fun hn => hn.1 (quotes_icmp.1 hquotes)), need, if_pos hquotes,
        if_neg (show TraceType.icmp ≠ .udp by decide)]
      simp only [if_neg hreply]
      by_cases hfits : Cksum.hlen data + 36 ≤ 56
      · rw [hword _ (by omega) (by omega), hword _ (by omega) (by omega), bind_some, map_some]
        by_cases hseq : short o data (Cksum.hlen data + 8 + 2 * 12) = pid
        · rw [if_neg (not_not.2 hseq)]
          by_cases hident : short o data (Cksum.hlen data + 8 + 2 * 13) = pid
          · rw [if_neg (not_not.2 hident)]
            exact reads_pass hfits (.inr ⟨hquotes, hseq, hident⟩) _
          · rw [if_pos hident]
            exact reads_fail hfits fun hp => hident (hp.resolve_left fun h => hreply h.1).2.2
        · rw [if_pos hseq]
          exact reads_fail hfits fun hp => hseq (hp.resolve_left fun h => hreply h.1).2.1
      · rw [word_of_ge (by omega)]
        exact reads_none hfits
    · rw [if_pos ⟨fun hn => hquotes (quotes_icmp.2 hn), hreply⟩, need, if_neg hquotes]
      exact reads_fail hle fun hp => hp.elim (fun h => hreply h.1) fun h => hquotes h.1

theorem trace_read_eq (o : Cksum.Order) (t : Trace) (hlen : data.length = 56) :
    Reads (trace_read o t data) (need t.type data ≤ 56) (Passes o t.type t.port data) := by
  have hne : data ≠ [] := List.ne_nil_of_length_pos (by omega)
  have hneed : Cksum.hlen data + 8 ≤ need t.type data := by
    rw [need]
    split <;> try split
    all_goals omega
  rw [trace_read]
  by_cases hle : Cksum.hlen data + 8 ≤ 56
  · obtain ⟨rc, q, hdecode, hrc, hsame⟩ := icmp_generic_decode_eq o hne (by omega) (by omega)
    rw [hdecode, bind_some]
    dsimp only
    rw [if_neg (by omega)]
    cases ht : t.type with
    | udp => exact readUdp_eq o hlen hsame hle
    | icmp => exact readIcmp_eq o hlen hsame hle
  · have hdecode : Cksum.icmp_generic_decode o data = some (-1, data) := by
      rw [Cksum.icmp_generic_decode, if_neg hne, if_pos (by omega)]
    rw [hdecode]
    exact reads_none (by omega)

end

end Inetutils.Traceroute.Read
