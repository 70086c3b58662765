import Inetutils.Lib.Runs
import Mathlib.Data.UInt

/-! # Records of encrypted bytes

`des_read` and `des_write` of `libinetutils/des_rw.c`. A record is a `long` with the length in
network order and the encrypted bytes, up to a multiple of eight; one of less than eight bytes
stands at the right of its block. The cipher is any one that undoes itself on multiples of eight, a
`long` has eight bytes, and the two machines are of one byte order. The two ends take turns in any
way, and the connection may break anywhere. An access outside of `des_inbuf`, `des_outbuf` or
`storage` has no result. -/

namespace Inetutils.Libinetutils.DesRw

open Lib.Runs List Option

abbrev Bytes := List UInt8

/-- `des_pcbc_encrypt`, with the key and in either direction. -/
structure Pcbc where
  encrypt : Bytes → Bytes
  decrypt : Bytes → Bytes
  length_encrypt {l : Bytes} (h : 8 ∣ l.length) : (encrypt l).length = l.length
  length_decrypt {l : Bytes} (h : 8 ∣ l.length) : (decrypt l).length = l.length
  decrypt_encrypt {l : Bytes} (h : 8 ∣ l.length) : decrypt (encrypt l) = l

/-- `roundup (n, 8)` -/
def roundup (n : ℕ) : ℕ := (n + 7) / 8 * 8

def be32 (n : ℕ) : Bytes :=
  [(n / 2 ^ 24).toUInt8, (n / 2 ^ 16).toUInt8, (n / 2 ^ 8).toUInt8, n.toUInt8]

def value (l : Bytes) : ℕ := l.foldl (fun n b => n * 2 ^ 8 + b.toNat) 0

section
variable (big : Bool)

/-- `net_len = htonl (len)`, a `long` in memory. -/
def header (n : ℕ) : Bytes := if big then [0, 0, 0, 0] ++ be32 n else be32 n ++ [0, 0, 0, 0]

/-- `ntohl (net_len)` -/
def netLen (l : Bytes) : ℕ := value (if big then l.drop 4 else l.take 4)

variable (pcbc : Pcbc)

/-- **`des_write`**: what is sent. `junk` is the garbage before the data in `garbage_buf`, or what
stands behind them in memory. -/
def des_write (buf : Bytes) (junk : ℕ → UInt8) : Option Bytes :=
  let len := buf.length
  let input :=
    if len < 8 then ((List.range 8).map junk).take (8 - len) ++ buf
    else buf ++ (List.range (roundup len - len)).map junk
  let des_outbuf := pcbc.encrypt input
  if 10240 < des_outbuf.length then none else some (header big len ++ des_outbuf.take (roundup len))

/-- The end that reads: what has arrived, whether more can come, and the statics. -/
structure Reader where
  wire : Bytes
  closed : Bool
  storage : Bytes
  store_ptr : ℕ

/-- `krb_net_read`: it waits for `n` bytes, unless no more can come. -/
def krb_net_read (n : ℕ) (r : Reader) : Option (Bytes × Reader) :=
  if n ≤ r.wire.length then some (r.wire.take n, { r with wire := r.wire.drop n })
  else if r.closed then some (r.wire, { r with wire := [] })
  else none

inductive Outcome
  | waits
  | wild
  | returned (buf : Bytes) (r : Reader)

/-- `memcpy (buf, store_ptr, n); store_ptr += move;` -/
def fromStorage (n move : ℕ) (r : Reader) : Outcome :=
  if 10240 < r.store_ptr + n then .wild
  else .returned ((r.storage.drop r.store_ptr).take n) { r with store_ptr := r.store_ptr + move }

/-- `if (net_len < 8) store_ptr = storage + 8 - net_len; else store_ptr = storage;` -/
def offset (net_len : ℕ) : ℕ := if net_len < 8 then 8 - net_len else 0

/-- **`des_read`**: `nstored` is a local variable. -/
def des_read (len : ℕ) (r : Reader) : Outcome :=
  let nstored := 0
  if len ≤ nstored then fromStorage len len r
  else
    let buf := (r.storage.drop r.store_ptr).take nstored
    let len := len - nstored
    match krb_net_read 8 r with
    | none => .waits
    | some (net_len, r) =>
      if net_len.length ≠ 8 then .returned [] r
      else
        let net_len := netLen big net_len
        if net_len = 0 ∨ 10240 < net_len then .returned [] r
        else
          match krb_net_read (roundup net_len) r with
          | none => .waits
          | some (des_inbuf, r) =>
            if des_inbuf.length ≠ roundup net_len then .returned [] r
            else
              let out := pcbc.decrypt des_inbuf
              if 10240 < des_inbuf.length ∨ 10240 < out.length then .wild
              else
                let r := { r with
                  storage := out ++ r.storage.drop out.length, store_ptr := offset net_len }
                let nstored := net_len
                match if len < nstored then fromStorage len len r else fromStorage nstored 0 r with
                | .returned l r => .returned (buf ++ l) r
                | o => o

/-! ### Both ends -/

/-- `untaken` are the writes of which no read has taken the record. -/
structure Link where
  reader : Reader
  untaken : List Bytes
  written : Bytes
  returned : Bytes

inductive Call
  | write (buf : Bytes) (junk : ℕ → UInt8)
  | read (len : ℕ)
  /-- The connection breaks, and so many of the bytes on the way still arrive. -/
  | hangup (k : ℕ)

/-- A call that waits has not returned. A read that takes a record returns some of it. -/
def step : Option Link → Call → Option Link
  | none, _ => none
  | some s, .write buf junk =>
    (des_write big pcbc buf junk).map fun record =>
      { s with
        reader :=
          { s.reader with wire := if s.reader.closed then s.reader.wire
            else s.reader.wire ++ record }
        untaken := s.untaken ++ [buf]
        written := s.written ++ buf }
  | some s, .read len =>
    match des_read big pcbc len s.reader with
    | .waits => some s
    | .wild => none
    | .returned l r =>
      some { s with reader := r, untaken := if l = [] then s.untaken
        else s.untaken.tail, returned := s.returned ++ l }
  | some s, .hangup k =>
    some { s with reader := { s.reader with wire := s.reader.wire.take k, closed := true } }

end

/-- A new connection; `storage` holds anything. -/
def start (storage : Bytes) (store_ptr : ℕ) : Option Link :=
  some ⟨⟨[], false, storage, store_ptr⟩, [], [], []⟩

def Contract : Call → Prop
  | .write buf _ => 0 < buf.length ∧ buf.length ≤ 10240
  | .read len => 0 < len
  | .hangup _ => True

/-- What was written is what was returned and then what no read has taken: nothing is lost, returned
twice or made up. -/
def Right (s : Option Link) : Prop :=
  ∃ link, s = some link ∧ link.returned ++ link.untaken.flatten = link.written

/-- The record that a read takes is no longer than its buffer. -/
def Fits : Option Link → Call → Prop
  | some s, .read len =>
    ∀ buf ∈ s.untaken.head?, 8 + roundup buf.length ≤ s.reader.wire.length → buf.length ≤ len
  | _, _ => True

/-! ### A record -/

theorem le_roundup (n : ℕ) : n ≤ roundup n := by
  unfold roundup
  omega

theorem dvd_roundup (n : ℕ) : 8 ∣ roundup n := Nat.dvd_mul_left 8 _

theorem value_be32 {n : ℕ} (h : n < 2 ^ 32) : value (be32 n) = n := by
  simp only [value, be32, foldl_cons, foldl_nil, Nat.toUInt8_eq, UInt8.toNat_ofNat']
  omega

section
variable {big : Bool}

theorem length_header (n : ℕ) : (header big n).length = 8 := by cases big <;> rfl

theorem netLen_header {n : ℕ} (h : n < 2 ^ 32) : netLen big (header big n) = n := by
  cases big <;> exact value_be32 h

end

/-! ### Reading a record -/

section
variable {big : Bool} {pcbc : Pcbc} {buf record : Bytes} {junk : ℕ → UInt8} {r : Reader}
    {rest : Bytes} {len : ℕ}

structure Holds (buf input : Bytes) : Prop where
  length_eq : input.length = roundup buf.length
  data : (input.drop (offset buf.length)).take buf.length = buf

theorem holds_input (hpos : 0 < buf.length) (junk : ℕ → UInt8) :
    Holds buf (if buf.length < 8 then ((List.range 8).map junk).take (8 - buf.length) ++ buf
      else buf ++ (List.range (roundup buf.length - buf.length)).map junk) := by
  have hround := le_roundup buf.length
  by_cases hlt : buf.length < 8
  · have height : roundup buf.length = 8 := by
      unfold roundup
      omega
    rw [if_pos hlt]
    have hlen : (((List.range 8).map junk).take (8 - buf.length)).length = 8 - buf.length := by
      rw [length_take, length_map, length_range]
      omega
    refine ⟨by rw [length_append, hlen]; omega, ?_⟩
    rw [offset, if_pos hlt, drop_left' hlen, take_length]
  · rw [if_neg hlt]
    refine ⟨by rw [length_append, length_map, length_range]; omega, ?_⟩
    rw [offset, if_neg hlt, drop_zero, take_left]

theorem Holds.dvd {input : Bytes} (h : Holds buf input) : 8 ∣ input.length :=
  h.length_eq ▸ dvd_roundup _

variable (big pcbc) in
theorem des_write_eq (hpos : 0 < buf.length) (hlen : buf.length ≤ 10240) (junk : ℕ → UInt8) :
    ∃ input, Holds buf input ∧
      des_write big pcbc buf junk = some (header big buf.length ++ pcbc.encrypt input) := by
  have hholds := holds_input hpos junk
  have hout := pcbc.length_encrypt hholds.dvd
  have hround : roundup buf.length ≤ 10240 := by
    unfold roundup
    omega
  refine ⟨_, hholds, ?_⟩
  unfold des_write
  rw [if_neg (by rw [hout, hholds.length_eq]; omega),
    take_of_length_le (by rw [hout, hholds.length_eq])]

theorem krb_net_read_append {l : Bytes} {n : ℕ} (hl : l.length = n) (h : r.wire = l ++ rest) :
    krb_net_read n r = some (l, { r with wire := rest }) := by
  subst hl
  unfold krb_net_read
  rw [h, if_pos (by rw [length_append]; omega), take_left, drop_left]

variable (big) in
/-- What a read makes of a record: what does not fit in its buffer is left in `storage`, and
`store_ptr` behind it. -/
theorem des_read_record {input : Bytes} (hpos : 0 < buf.length) (hlen : buf.length ≤ 10240)
    (hholds : Holds buf input) (hread : 0 < len) (hstorage : r.storage.length = 10240)
    (hwire : r.wire = header big buf.length ++ (pcbc.encrypt input ++ rest)) :
    ∃ r', des_read big pcbc len r = .returned (buf.take len) r' ∧ r'.wire = rest ∧
    r'.closed = r.closed ∧ r'.storage.length = 10240 := by
  have hle : roundup buf.length ≤ 10240 := by
    unfold roundup
    omega
  have hout := (pcbc.length_encrypt hholds.dvd).trans hholds.length_eq
  have hin := hholds.length_eq
  have hoffset : offset buf.length + buf.length ≤ roundup buf.length := by
    unfold offset roundup
    split_ifs <;> omega
  have hfilled : (input ++ r.storage.drop input.length).length = 10240 := by
    rw [length_append, length_drop]
    omega
  -- the part of the data that is copied
  have hcopy :
      ∀ m ≤ buf.length, ((input ++ r.storage.drop input.length).drop (offset buf.length)).take m =
      buf.take m := fun m hm => by
    rw [drop_append_of_le_length (by omega), take_append_of_le_length (by rw [length_drop]; omega)]
    conv_rhs => rw [← hholds.data, take_take, Nat.min_eq_left hm]
  unfold des_read
  rw [if_neg (by omega), krb_net_read_append (length_header _) hwire]
  dsimp only
  rw [if_neg (not_not_intro (length_header _)), netLen_header (by omega), if_neg (by omega),
    krb_net_read_append hout rfl]
  dsimp only
  rw [if_neg (not_not_intro hout), pcbc.decrypt_encrypt hholds.dvd, if_neg (by omega), take_zero,
    Nat.sub_zero]
  have hfrom : ∀ n move, n ≤ buf.length → fromStorage n move
      ⟨rest, r.closed, input ++ r.storage.drop input.length, offset buf.length⟩ =
        .returned (buf.take n) ⟨rest, r.closed, input ++ r.storage.drop input.length,
          offset buf.length + move⟩ :=
    fun n move hn => by
      rw [← hcopy n hn]
      exact if_neg (show ¬ 10240 < offset buf.length + n by omega)
  by_cases hlt : len < buf.length
  · rw [if_pos hlt, hfrom len len hlt.le]
    exact ⟨_, rfl, rfl, rfl, hfilled⟩
  · rw [if_neg hlt, hfrom buf.length 0 le_rfl, take_length,
      take_of_length_le (Nat.le_of_not_lt hlt)]
    exact ⟨_, rfl, rfl, rfl, hfilled⟩

theorem krb_net_read_short {n : ℕ} (h : r.wire.length < n) :
    krb_net_read n r = if r.closed then some (r.wire, { r with wire := [] }) else none :=
  if_neg (Nat.not_le.2 h)

theorem des_read_short (hread : 0 < len) (hshort : r.wire.length < 8) :
    des_read big pcbc len r = if r.closed then .returned [] { r with wire := [] } else .waits := by
  unfold des_read
  rw [if_neg (by omega), krb_net_read_short hshort]
  cases r.closed with
  | true => exact if_pos hshort.ne
  | false => rfl

theorem des_read_partial (hlen : buf.length ≤ 10240) (hpos : 0 < buf.length) (hread : 0 < len)
    (hwire : r.wire <+: header big buf.length ++ rest)
    (hshort : r.wire.length < 8 + roundup buf.length) :
    des_read big pcbc len r = if r.closed then .returned [] { r with wire := [] } else .waits := by
  rcases lt_or_ge r.wire.length 8 with hlt | hge
  · exact des_read_short hread hlt
  · obtain ⟨w, hw⟩ :=
      prefix_of_prefix_length_le (prefix_append _ rest) hwire (by rw [length_header]; exact hge)
    rw [← hw, length_append, length_header] at hshort
    have hlt : w.length < roundup buf.length := by omega
    unfold des_read
    rw [if_neg (by omega), krb_net_read_append (length_header _) hw.symm]
    dsimp only
    rw [if_neg (not_not_intro (length_header _)), netLen_header (by omega), if_neg (by omega),
      krb_net_read_short hlt]
    cases r.closed with
    | true => exact if_pos hlt.ne
    | false => rfl

end

/-! ### The stream -/

section
variable {big : Bool} {pcbc : Pcbc}

def IsRecord (big : Bool) (pcbc : Pcbc) (buf record : Bytes) : Prop :=
  0 < buf.length ∧ buf.length ≤ 10240 ∧ ∃ input,
    Holds buf input ∧ record = header big buf.length ++ pcbc.encrypt input

theorem length_record {buf record : Bytes} (h : IsRecord big pcbc buf record) :
    record.length = 8 + roundup buf.length := by
  obtain ⟨-, -, input, hholds, rfl⟩ := h
  rw [length_append, length_header, pcbc.length_encrypt hholds.dvd, hholds.length_eq]

/-- On the way are the records that no read has taken, or as much as arrives of them. -/
structure Sound (big : Bool) (pcbc : Pcbc) (s : Link) (records : List Bytes) : Prop where
  storage : s.reader.storage.length = 10240
  each : List.Forall₂ (IsRecord big pcbc) s.untaken records
  wire : s.reader.wire <+: records.flatten
  whole : s.reader.closed = false → s.reader.wire = records.flatten

def Stands (big : Bool) (pcbc : Pcbc) (s : Option Link) : Prop :=
  ∃ link records, s = some link ∧ Sound big pcbc link records

/-- **What a read does**: it takes the first record, or waits, or finds the connection broken. -/
theorem read_cases {s : Link} {records : List Bytes} (h : Sound big pcbc s records) {len : ℕ}
    (hread : 0 < len) :
    (∃ buf untaken r, s.untaken = buf :: untaken ∧ 8 + roundup buf.length ≤ s.reader.wire.length ∧
        des_read big pcbc len s.reader = .returned (buf.take len) r ∧ 0 < buf.length ∧
        Sound big pcbc { s with reader := r, untaken := untaken } records.tail) ∨
      ((∀ buf ∈ s.untaken.head?, s.reader.wire.length < 8 + roundup buf.length) ∧
        des_read big pcbc len s.reader =
          if s.reader.closed then .returned [] { s.reader with wire := [] } else .waits) := by
  obtain ⟨r, untaken, written, returned⟩ := s
  obtain ⟨hstorage, heach, hwire, hwhole⟩ := h
  rcases heach with - | ⟨hrecord, heach⟩
  · rw [flatten_nil, prefix_nil] at hwire
    exact .inr ⟨nofun, des_read_short hread (by rw [hwire]; decide)⟩
  · rename_i buf record untaken records
    obtain ⟨hpos, hle, input, hholds, rfl⟩ := id hrecord
    by_cases hfull : 8 + roundup buf.length ≤ r.wire.length
    · rw [flatten_cons] at hwire hwhole
      obtain ⟨rest, hrest⟩ := prefix_of_prefix_length_le (prefix_append _ records.flatten) hwire
        ((length_record hrecord).trans_le hfull)
      rw [← hrest, prefix_append_right_inj] at hwire
      obtain ⟨r', hreturns, hwire', hclosed, hstorage'⟩ :=
        des_read_record big hpos hle hholds hread hstorage
        (hrest.symm.trans (append_assoc _ _ _))
      refine .inl ⟨buf, untaken, r', rfl, hfull, hreturns, hpos, hstorage', heach, hwire' ▸ hwire,
        fun hopen => ?_⟩
      have hall := hwhole (hclosed ▸ hopen)
      rw [← hrest] at hall
      exact hwire'.trans (append_cancel_left hall)
    · have hshort : r.wire.length < 8 + roundup buf.length := Nat.lt_of_not_le hfull
      rw [flatten_cons, append_assoc] at hwire
      exact .inr ⟨by rintro b ⟨⟩; exact hshort, des_read_partial hle hpos hread hwire hshort⟩

theorem take_ne_nil {buf : Bytes} {len : ℕ} (hpos : 0 < buf.length) (hread : 0 < len) :
    buf.take len ≠ [] := fun hnil => by
  have hlen := congrArg List.length hnil
  rw [length_take, length_nil] at hlen
  omega

/-- **A step loses nothing** just in case it is no read of a record that is longer than its
buffer. -/
theorem right_step_iff {s : Option Link} {a : Call} (ha : Contract a) (hright : Right s)
    (h : Stands big pcbc s) :
    Right (step big pcbc s a) ↔ Fits s a := by
  obtain ⟨s, records, rfl, h⟩ := h
  obtain ⟨s', hs', hright⟩ := hright
  obtain rfl := some.inj hs'
  cases a with
  | write buf junk =>
    obtain ⟨input, hholds, hwrite⟩ := des_write_eq big pcbc ha.1 ha.2 junk
    rw [step, hwrite, map_some]
    refine iff_of_true ⟨_, rfl, ?_⟩ trivial
    rw [flatten_append, flatten_singleton, ← append_assoc, hright]
  | read len =>
    rcases read_cases h ha with ⟨buf, untaken, r, huntaken, hfull, hreturns, hpos,
      -⟩ | ⟨hshort, hnothing⟩
    · have hfits : Fits (some s) (.read len) ↔ buf.length ≤ len := by
        refine ⟨fun hall => hall buf (by rw [huntaken]; rfl) hfull, fun hle b hb _ => ?_⟩
        rw [huntaken] at hb
        rw [← some.inj hb]
        exact hle
      have hlost : s.returned ++ buf.take len ++ untaken.flatten = s.written ↔
        buf.take len = buf := by
        rw [← hright, huntaken, flatten_cons, append_assoc, append_cancel_left_eq,
          append_cancel_right_eq]
      rw [hfits, ← take_eq_self_iff, ← hlost, step, hreturns]
      dsimp only
      rw [if_neg (take_ne_nil hpos ha), huntaken, tail_cons]
      exact ⟨fun ⟨_, hsome, hall⟩ => by rw [← some.inj hsome] at hall; exact hall,
        fun hall => ⟨_, rfl, hall⟩⟩
    · have hfits : Fits (some s) (.read len) :=
        fun buf hbuf hfull => absurd hfull (Nat.not_le.2 (hshort buf hbuf))
      rw [step, hnothing]
      split_ifs
      · exact iff_of_true ⟨_, rfl, by rw [if_pos rfl, append_nil]; exact hright⟩ hfits
      · exact iff_of_true ⟨_, rfl, hright⟩ hfits
  | hangup k => exact iff_of_true ⟨_, rfl, hright⟩ trivial

end

def plain : Pcbc := ⟨id, id, fun _ => rfl, fun _ => rfl, fun _ => rfl⟩

end Inetutils.Libinetutils.DesRw
