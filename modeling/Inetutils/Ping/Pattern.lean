import Mathlib.Data.UInt

/-! # The pattern of a packet

`decode_pattern` and `init_data_buffer` of `src/ping/ping_common.c`, as `parse_opt` and `main` of
`src/ping/ping.c` call them. `decode_pattern` counts the bytes of its text and stores none of them;
`init_data_buffer` goes back to the first byte of the pattern one byte late. To read outside of the
pattern has no result, nor has to end the program. -/

namespace Inetutils.Ping.Pattern

open List Option

abbrev Byte := UInt8
abbrev Text := List Byte

/-! ### The text -/

def xdigit (c : Byte) : Option ℕ :=
  if 48 ≤ c ∧ c ≤ 57 then some (c.toNat - 48)
  else if 65 ≤ c ∧ c ≤ 70 then some (c.toNat - 55)
  else if 97 ≤ c ∧ c ≤ 102 then some (c.toNat - 87)
  else none

def isspace (c : Byte) : Bool := c = 32 || (9 ≤ c && c ≤ 13)

/-- A number of two characters: a sign takes one of them, and `0x` is no number. -/
def number : Text → Option (ℕ × Text)
  | [] => none
  | a :: text =>
    if a = 43 ∨ a = 45 then
      match text with
      | [] => none
      | b :: text => (xdigit b).map fun d => (if a = 45 then (2 ^ 32 - d) % 2 ^ 32 else d, text)
    else
      (xdigit a).bind fun d =>
        match text with
        | [] => some (d, [])
        | b :: text =>
          match xdigit b with
          | some e => some (16 * d + e, text)
          | none => if a = 48 ∧ (b = 120 ∨ b = 88) then none else some (d, b :: text)

/-- `sscanf (text, "%2x%n", &c, &off)`: `c`, and the text behind `off`. -/
def sscanf (text : Text) : Option (ℕ × Text) := number (text.dropWhile isspace)

/-- The loop of `decode_pattern` for `room` more bytes: how many there are. -/
def convert : ℕ → Text → Option ℕ
  | 0, _ => some 0
  | _ + 1, [] => some 0
  | room + 1, text@(_ :: _) => (sscanf text).bind fun s => (convert room s.2).map (· + 1)

/-- **`decode_pattern`**: `*pattern_len`, and `pattern_data` as it was. -/
def decode_pattern (text : Text) (pattern_len : ℕ) (pattern_data : List Byte) :
    Option (ℕ × List Byte) :=
  (convert pattern_len text).map fun i => (i, pattern_data)

/-! ### The buffer -/

def fill (pat : List Byte) (len : ℕ) : ℕ → ℕ → Option (List Byte)
  | 0, _ => some []
  | n + 1, i => pat[i]?.bind fun b => (fill pat len n (if len ≤ i then 0 else i + 1)).map (b :: ·)

/-- **`init_data_buffer`** -/
def init_data_buffer (pat : Option (List Byte)) (len data_length : ℕ) : Option (List Byte) :=
  if data_length = 0 then some []
  else
    match pat with
    | some pat => fill pat len data_length 0
    | none => some ((List.range data_length).map UInt8.ofNat)

/-- The static array of `parse_opt`. -/
def pattern : List Byte := List.replicate 16 0

/-- `data_buffer` under `-p text -s data_length`. -/
def data_buffer (text : Text) (data_length : ℕ) : Option (List Byte) :=
  (decode_pattern text 16 pattern).bind fun p => init_data_buffer (some p.2) p.1 data_length

/-! ### What is to hold -/

/-- The bytes of a text; an odd digit is the last one by itself. -/
def bytes : Text → List Byte
  | a :: b :: t => UInt8.ofNat (16 * (xdigit a).getD 0 + (xdigit b).getD 0) :: bytes t
  | [a] => [UInt8.ofNat ((xdigit a).getD 0)]
  | [] => []

abbrev Hex :=
  { t : Text // (∀ c ∈ t, (xdigit c).isSome) ∧ 1 ≤ (bytes t).length ∧ (bytes t).length ≤ 16 }

def Fills (t : Hex) (data_length : ℕ) : Prop :=
  ∃ buffer, data_buffer t.1 data_length = some buffer ∧
    ∀ k < data_length, buffer[k]? = (bytes t.1)[k % (bytes t.1).length]?

/-! ### The length -/

theorem not_isspace {c : Byte} (h : (xdigit c).isSome) :
    isspace c = false ∧ ¬ (c = 43 ∨ c = 45) := by
  have hlow : 48 ≤ c := by
    unfold xdigit at h
    split_ifs at h with h1 h2 h3
    · exact h1.1
    · exact UInt8.le_trans (by decide) h2.1
    · exact UInt8.le_trans (by decide) h3.1
    · cases h
  constructor
  · unfold isspace
    rw [Bool.or_eq_false_iff, Bool.and_eq_false_iff]
    refine ⟨decide_eq_false ?_,
      .inr (decide_eq_false fun h13 => absurd (UInt8.le_trans hlow h13) (by decide))⟩
    rintro rfl
    exact absurd hlow (by decide)
  · rintro (rfl | rfl) <;> exact absurd hlow (by decide)

theorem convert_eq {t : Text} (ht : ∀ c ∈ t, (xdigit c).isSome) {room : ℕ}
    (h : (bytes t).length ≤ room) :
    convert room t = some (bytes t).length := by
  fun_induction bytes t generalizing room with
  | case1 a b t ih =>
    obtain ⟨room, rfl⟩ :=
      Nat.exists_eq_add_of_le' (Nat.le_trans (Nat.succ_le_succ (Nat.zero_le _)) h)
    obtain ⟨ha, hb, ht⟩ := forall_mem_cons.1 ht |>.imp id forall_mem_cons.1
    obtain ⟨d, hd⟩ := isSome_iff_exists.1 ha
    obtain ⟨e, he⟩ := isSome_iff_exists.1 hb
    have hscan : sscanf (a :: b :: t) = some (16 * d + e, t) := by
      rw [sscanf, dropWhile_cons_of_neg (by rw [(not_isspace ha).1]; decide), number,
        if_neg (not_isspace ha).2, hd, bind_some, he]
    rw [convert, hscan, bind_some, ih ht (Nat.le_of_succ_le_succ h)]
    rfl
  | case2 a =>
    obtain ⟨room, rfl⟩ := Nat.exists_eq_add_of_le' (show 1 ≤ room from h)
    have ha := forall_mem_singleton.1 ht
    obtain ⟨d, hd⟩ := isSome_iff_exists.1 ha
    have hscan : sscanf [a] = some (d, []) := by
      rw [sscanf, dropWhile_cons_of_neg (by rw [(not_isspace ha).1]; decide), number,
        if_neg (not_isspace ha).2, hd, bind_some]
    rw [convert, hscan, bind_some]
    cases room <;> rfl
  | case3 => cases room <;> rfl

/-! ### The copy -/

/-- **The cyclic copy**: behind byte `len` of the pattern comes the first one again. -/
theorem fill_eq_some {pat : List Byte} {len n i : ℕ} (h : i ≤ len) {buffer : List Byte} :
    fill pat len n i = some buffer ↔
      buffer.length = n ∧ ∀ k < n, ∃ b, pat[(i + k) % (len + 1)]? = some b ∧
      buffer[k]? = some b := by
  induction n generalizing i buffer with
  | zero =>
    rw [fill, some_inj, eq_comm, ← length_eq_zero_iff]
    exact (and_iff_left nofun).symm
  | succ n ih =>
    have hnext : (if len ≤ i then 0 else i + 1) ≤ len := by
      split_ifs <;> omega
    have hfirst : (i + 0) % (len + 1) = i := Nat.mod_eq_of_lt (by omega)
    have hrest (k : ℕ) :
        ((if len ≤ i then 0 else i + 1) + k) % (len + 1) = (i + (k + 1)) % (len + 1) := by
      split_ifs with hi
      · rw [show i + (k + 1) = 0 + k + (len + 1) by omega, Nat.add_mod_right]
      · rw [add_right_comm, add_assoc]
    rw [fill, bind_eq_some_iff]
    constructor
    · rintro ⟨b, hb, hmap⟩
      obtain ⟨buffer, hbuffer, rfl⟩ := map_eq_some_iff.1 hmap
      obtain ⟨hlength, hbytes⟩ := (ih hnext).1 hbuffer
      refine ⟨congrArg (· + 1) hlength, fun k hk => ?_⟩
      cases k with
      | zero => exact ⟨b, by rw [hfirst, hb], rfl⟩
      | succ k =>
        rw [← hrest k]
        exact hbytes k (Nat.lt_of_succ_lt_succ hk)
    · rintro ⟨hlength, hbytes⟩
      obtain ⟨b, hb, hb0⟩ := hbytes 0 (Nat.succ_pos n)
      rw [hfirst] at hb
      cases buffer with
      | nil => cases hb0
      | cons c buffer =>
        cases hb0
        have hcopy := (ih hnext).2 ⟨Nat.succ.inj hlength, fun k hk => ?_⟩
        · exact ⟨b, hb, map_eq_some_iff.2 ⟨buffer, hcopy, rfl⟩⟩
        rw [hrest k]
        exact hbytes (k + 1) (Nat.succ_lt_succ hk)

theorem pattern_get {i : ℕ} {b : Byte} : pattern[i]? = some b ↔ i < 16 ∧ b = 0 := by
  unfold pattern
  rw [getElem?_replicate]
  split_ifs with h
  · rw [some_inj, eq_comm]
    exact (and_iff_right h).symm
  · exact iff_of_false nofun fun hb => h hb.1

theorem data_buffer_eq_some (t : Hex) {data_length : ℕ} {buffer : List Byte} :
    data_buffer t.1 data_length = some buffer ↔
      buffer = List.replicate data_length 0 ∧ ((bytes t.1).length < 16 ∨ data_length ≤ 16) := by
  obtain ⟨t, ht, hmin, hmax⟩ := t
  have hinit : data_buffer t data_length = fill pattern (bytes t).length data_length 0 := by
    rw [data_buffer, decode_pattern, convert_eq ht hmax, map_some, bind_some, init_data_buffer]
    split_ifs with h0
    · rw [h0, fill]
    · rfl
  dsimp only
  rw [hinit, fill_eq_some (Nat.zero_le _)]
  constructor
  · rintro ⟨hlength, hbytes⟩
    refine ⟨eq_replicate_iff.2 ⟨hlength, fun b hb => ?_⟩, ?_⟩
    · obtain ⟨k, hk⟩ := mem_iff_getElem?.1 hb
      have hlt : k < data_length := hlength ▸ (List.getElem?_eq_some_iff.1 hk).1
      obtain ⟨c, hc, hck⟩ := hbytes k hlt
      rw [hk, some_inj] at hck
      rw [hck, (pattern_get.1 hc).2]
    · by_contra hover
      -- byte 16 of the buffer would be read behind the pattern
      obtain ⟨c, hc, -⟩ := hbytes 16 (by omega)
      have hindex := (pattern_get.1 hc).1
      rw [Nat.zero_add, show (bytes t).length = 16 by omega] at hindex
      exact absurd hindex (by decide)
  · rintro ⟨rfl, hroom⟩
    refine ⟨length_replicate, fun k hk => ⟨0, pattern_get.2 ⟨?_, rfl⟩, ?_⟩⟩
    · rcases hroom with hlt | hle
      · exact Nat.lt_of_lt_of_le (Nat.mod_lt _ (Nat.succ_pos _)) (by omega)
      · exact Nat.lt_of_le_of_lt (Nat.mod_le _ _) (by omega)
    · rw [getElem?_replicate, if_pos hk]

/-- **When the buffer is filled with the pattern**: the bytes that are used are zero, and none
behind the array is. -/
theorem fills_iff (t : Hex) (data_length : ℕ) :
    Fills t data_length ↔
      (∀ b ∈ (bytes t.1).take data_length, b = 0) ∧
      ((bytes t.1).length < 16 ∨ data_length ≤ 16) := by
  have hmin := t.2.2.1
  constructor
  · rintro ⟨buffer, hbuffer, hbytes⟩
    obtain ⟨rfl, hroom⟩ := (data_buffer_eq_some t).1 hbuffer
    refine ⟨fun b hb => ?_, hroom⟩
    obtain ⟨k, hk⟩ := mem_iff_getElem?.1 hb
    rw [getElem?_take] at hk
    split_ifs at hk with hlt
    have hcopy := hbytes k hlt
    rw [getElem?_replicate, if_pos hlt, Nat.mod_eq_of_lt (List.getElem?_eq_some_iff.1 hk).1,
      hk] at hcopy
    exact (some.inj hcopy).symm
  · rintro ⟨hzero, hroom⟩
    refine ⟨_, (data_buffer_eq_some t).2 ⟨rfl, hroom⟩, fun k hk => ?_⟩
    have hindex : k % (bytes t.1).length < (bytes t.1).length := Nat.mod_lt _ hmin
    have hle : k % (bytes t.1).length < data_length := lt_of_le_of_lt (Nat.mod_le _ _) hk
    rw [getElem?_replicate, if_pos hk, getElem?_eq_getElem hindex, some_inj]
    refine (hzero _ (mem_iff_getElem?.2 ⟨k % (bytes t.1).length, ?_⟩)).symm
    rw [getElem?_take, if_pos hle, getElem?_eq_getElem hindex]

/-- `-p ff -s 1` -/
theorem not_fills_ff : ¬ ∀ (t : Hex) (data_length : ℕ), Fills t data_length := by
  intro h
  obtain ⟨buffer, hbuffer, hbytes⟩ := h ⟨[102, 102], by decide +kernel⟩ 1
  have hzero : data_buffer [102, 102] 1 = some [0] := by decide +kernel
  rw [hzero, some_inj] at hbuffer
  subst hbuffer
  exact absurd (hbytes 0 (by decide)) (by decide +kernel)

end Inetutils.Ping.Pattern
