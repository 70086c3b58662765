import Inetutils.Lib.Feedback
import Inetutils.Lib.Mealy
import Mathlib.Data.UInt

/-! # DES with feedback

`fb64_stream_iv`, `fb64_stream_key`, and the four functions of `libtelnet/enc_des.c` that encrypt
and decrypt with cipher feedback and with output feedback. The cipher is any function of a key and a
block, and a schedule is its key. The sender cuts his text into calls; the receiver hands over one
byte at a time, and may push it back and hand it over again. -/

namespace Inetutils.Libtelnet.EncDes

open Lib.Feedback Lib.Mealy List

abbrev Byte := UInt8

/-- `Block` -/
abbrev DesBlock := Block 8 Byte

/-- `struct stinfo`, of which `str_feed` is used by both modes, and `str_output` by cipher
feedback. -/
structure Stinfo where
  str_output : DesBlock
  str_feed : DesBlock
  str_iv : DesBlock
  str_ikey : DesBlock
  str_sched : DesBlock
  str_index : Fin 9

/-- **`fb64_stream_iv`** -/
def fb64StreamIv (seed : DesBlock) (stp : Stinfo) : Stinfo :=
  { stp with str_iv := seed, str_output := seed, str_sched := stp.str_ikey, str_index := 8 }

/-- **`fb64_stream_key`** -/
def fb64StreamKey (key : DesBlock) (stp : Stinfo) : Stinfo :=
  { stp with str_ikey := key, str_sched := key, str_output := stp.str_iv, str_index := 8 }

section
variable (des : DesBlock → DesBlock → DesBlock) (mode : Mode)

def Stinfo.input (stp : Stinfo) : DesBlock :=
  match mode with
  | .cipher => stp.str_output
  | .output => stp.str_feed

/-- `if (index == sizeof (Block))` -/
def Stinfo.refill (stp : Stinfo) : Stinfo :=
  if stp.str_index = 8 then { stp with str_feed := des stp.str_sched (stp.input mode) } else stp

/-- `index`, behind that. -/
def Stinfo.index (stp : Stinfo) : Fin 8 := ⟨stp.str_index % 8, Nat.mod_lt _ (Nat.succ_pos 7)⟩

/-- The byte that is written is stored, in cipher feedback. -/
def Stinfo.store (stp : Stinfo) (c : Byte) : Stinfo :=
  { stp with
    str_output :=
      match mode with
      | .cipher => Function.update stp.str_output stp.index c
      | .output => stp.str_output
    str_index := stp.index.succ }

/-- A turn of `while (c-- > 0)`. -/
def encryptByte (stp : Stinfo) (b : Byte) : Stinfo × List Byte :=
  let stp := stp.refill des mode
  let c := stp.str_feed stp.index ^^^ b
  (stp.store mode c, [c])

def fb64Encrypt (stp : Stinfo) (s : List Byte) : Stinfo × List Byte :=
  feed (encryptByte des mode) stp s

/-- `data` is a byte, or -1 to back up one. -/
def fb64Decrypt (stp : Stinfo) (data : Option Byte) : Stinfo × Byte :=
  match data with
  | none => ({ stp with str_index := if stp.str_index = 0 then 0 else stp.str_index - 1 }, 0)
  | some c =>
    let stp := stp.refill des mode
    (stp.store mode c, c ^^^ stp.str_feed stp.index)

/-- **`cfb64_encrypt`** -/
def cfb64Encrypt := fb64Encrypt des .cipher

/-- **`cfb64_decrypt`** -/
def cfb64Decrypt := fb64Decrypt des .cipher

/-- **`ofb64_encrypt`** -/
def ofb64Encrypt := fb64Encrypt des .output

/-- **`ofb64_decrypt`** -/
def ofb64Decrypt := fb64Decrypt des .output

/-! ### A session -/

/-- The key and the initialisation vector, in either order. -/
def keyed (key iv : DesBlock) (ivFirst : Bool) (stp : Stinfo) : Stinfo :=
  if ivFirst then fb64StreamKey key (fb64StreamIv iv stp)
  else fb64StreamIv iv (fb64StreamKey key stp)

def encryptCalls (mode : Mode) : Stinfo → List (List Byte) → Stinfo × List Byte :=
  feed (match mode with
    | .cipher => cfb64Encrypt des
    | .output => ofb64Encrypt des)

def decrypt (mode : Mode) : Stinfo → Option Byte → Stinfo × Byte :=
  match mode with
  | .cipher => cfb64Decrypt des
  | .output => ofb64Decrypt des

def present (stp : Stinfo) (c : Byte) : ℕ → Stinfo × List Byte
  | 0 => ((decrypt des mode stp (some c)).1, [(decrypt des mode stp (some c)).2])
  | n + 1 =>
    let first := decrypt des mode stp (some c)
    let later := present (decrypt des mode first.1 none).1 c n
    (later.1, first.2 :: later.2)

/-- The bytes of the receiver, each with the times that it is pushed back. -/
def receive (stp : Stinfo) (l : List (Byte × ℕ)) : Stinfo × List Byte :=
  feed (fun stp p => present des mode stp p.1 p.2) stp l

/-- The text of the sender is that of the mode, and whatever the receiver hands over is
deciphered. -/
def Works (key iv : DesBlock) (sender receiver : Stinfo) (calls : List (List Byte))
    (again : ℕ → ℕ) : Prop :=
  Enciphers (· ^^^ ·) mode (des key) iv calls.flatten (encryptCalls des mode sender calls).2 ∧
    (receive des mode receiver
      ((encryptCalls des mode sender calls).2.mapIdx fun i c => (c, again i))).2 =
      (calls.flatten.mapIdx fun i b => List.replicate (again i + 1) b).flatten

end

/-! ### Where a stream stands -/

section
variable {des : DesBlock → DesBlock → DesBlock} {mode : Mode} {key iv : DesBlock} {stp : Stinfo}
    {o : List Byte}

theorem encryptCalls_eq (mode : Mode) (stp : Stinfo) (calls : List (List Byte)) :
    encryptCalls des mode stp calls = feed (encryptByte des mode) stp calls.flatten := by
  have hcalls : encryptCalls des mode = feed (fb64Encrypt des mode) := by
    cases mode <;> rfl
  rw [hcalls]
  induction calls generalizing stp with
  | nil => rfl
  | cons s calls ih =>
    rw [feed_cons, ih, flatten_cons, feed_append]
    rfl

theorem decrypt_eq (mode : Mode) (stp : Stinfo) (data : Option Byte) :
    decrypt des mode stp data = fb64Decrypt des mode stp data := by
  cases mode <;> rfl

/-- The stream stands behind `o`: the next byte is combined with the symbol of the mode, and of the
block of `o` that is not full yet, cipher feedback has what was written. -/
structure At (des : DesBlock → DesBlock → DesBlock) (mode : Mode) (key iv : DesBlock) (stp : Stinfo)
    (o : List Byte) :
    Prop where
  sched : stp.str_sched = key
  index : (stp.index : ℕ) = o.length % 8
  feed : (stp.refill des mode).str_feed = vector mode (des key) iv o (o.length / 8)
  output : mode = .cipher → ∀ j :
    Fin 8, (j : ℕ) < o.length % 8 → stp.str_output j = block 8 o (o.length / 8) j

theorem index_refill (stp : Stinfo) : (stp.refill des mode).index = stp.index := by
  unfold Stinfo.refill
  split_ifs <;> rfl

theorem sched_refill (stp : Stinfo) : (stp.refill des mode).str_sched = stp.str_sched := by
  unfold Stinfo.refill
  split_ifs <;> rfl

theorem output_refill (stp : Stinfo) : (stp.refill des mode).str_output = stp.str_output := by
  unfold Stinfo.refill
  split_ifs <;> rfl

theorem At.symbol (h : At des mode key iv stp o) :
    (stp.refill des mode).str_feed (stp.refill des mode).index =
    symbol mode (des key) iv o o.length := by
  rw [h.feed, index_refill]
  congr 1
  exact Fin.ext h.index

theorem refill_full (h : stp.str_index = 8) :
    (stp.refill des mode).str_feed = des stp.str_sched (stp.input mode) := by
  unfold Stinfo.refill
  rw [if_pos h]

theorem refill_of_ne (h : stp.str_index ≠ 8) : stp.refill des mode = stp := if_neg h

theorem At.store (h : At des mode key iv stp o) (c : Byte) :
    At des mode key iv ((stp.refill des mode).store mode c) (o ++ [c]) := by
  have hindex : ((stp.refill des mode).index : ℕ) = o.length % 8 := by rw [index_refill, h.index]
  have hlen : (o ++ [c]).length = o.length + 1 := by simp
  -- what was written of the block, with the byte
  have houtput : mode = .cipher → ∀ j : Fin 8, (j : ℕ) ≤ o.length % 8 →
      ((stp.refill des mode).store mode c).str_output j = block 8 (o ++ [c]) (o.length / 8) j := by
    rintro rfl j hj
    unfold Stinfo.store block
    dsimp only
    have hdiv := Nat.div_add_mod o.length 8
    rcases Nat.lt_or_eq_of_le hj with hlt | heq
    · have hne : j ≠ (stp.refill des .cipher).index := fun he => by
        rw [he, hindex] at hlt
        omega
      rw [Function.update_of_ne hne, output_refill, h.output rfl j hlt,
        getD_append _ _ _ _ (by omega)]
      rfl
    · have he : j = (stp.refill des .cipher).index := Fin.ext (heq.trans hindex.symm)
      rw [he, Function.update_self, hindex, hdiv, getD_append_right _ _ _ _ le_rfl, Nat.sub_self]
      rfl
  have hnext : (((stp.refill des mode).store mode c).str_index : ℕ) = o.length % 8 + 1 := by
    unfold Stinfo.store
    rw [Fin.val_succ, hindex]
  have hsched : ((stp.refill des mode).store mode c).str_sched = key :=
    (sched_refill stp).trans h.sched
  have hfeed : ((stp.refill des mode).store mode c).str_feed =
    vector mode (des key) iv (o ++ [c]) (o.length / 8) := by
    rw [vector_append (Nat.mul_div_le _ _)]
    exact h.feed
  refine ⟨hsched, ?_, ?_, ?_⟩
  · unfold Stinfo.index
    dsimp only
    rw [hnext, hlen]
    omega
  · rw [hlen]
    by_cases hfull : o.length % 8 = 7
    · have height : ((stp.refill des mode).store mode c).str_index = 8 :=
        Fin.ext (by rw [hnext, hfull]; rfl)
      have hdiv : (o.length + 1) / 8 = o.length / 8 + 1 := by omega
      rw [refill_full height, hsched, hdiv]
      cases mode with
      | cipher => exact congrArg (des key) (funext fun j => houtput rfl j (by omega))
      | output => exact congrArg (des key) hfeed
    · have hne : ((stp.refill des mode).store mode c).str_index ≠ 8 := fun he => by
        rw [he] at hnext
        omega
      have hdiv : (o.length + 1) / 8 = o.length / 8 := by omega
      rw [refill_of_ne hne, hfeed, hdiv]
  · intro hmode j hj
    rw [hlen] at hj ⊢
    have hdiv : (o.length + 1) / 8 = o.length / 8 := by omega
    rw [hdiv]
    exact houtput hmode j (by omega)

/-- **The byte that was written is pushed back.** -/
theorem At.back (h : At des mode key iv stp o) (c : Byte) :
    At des mode key iv (fb64Decrypt des mode ((stp.refill des mode).store mode c) none).1 o := by
  have hindex : ((stp.refill des mode).index : ℕ) = o.length % 8 := by rw [index_refill, h.index]
  have hval : ((fb64Decrypt des mode ((stp.refill des mode).store mode c) none).1.str_index : ℕ) =
    o.length % 8 := by
    unfold fb64Decrypt Stinfo.store
    rw [if_neg (Fin.succ_ne_zero _), Fin.val_sub_one_of_ne_zero (Fin.succ_ne_zero _),
      Fin.val_succ, hindex]
    omega
  have hne : (fb64Decrypt des mode ((stp.refill des mode).store mode c) none).1.str_index ≠ 8 :=
    fun he => by
    rw [he] at hval
    omega
  refine ⟨(sched_refill stp).trans h.sched, ?_, ?_, ?_⟩
  · unfold Stinfo.index
    dsimp only
    omega
  · rw [refill_of_ne hne]
    exact h.feed
  · rintro rfl j hj
    have hnej : j ≠ (stp.refill des .cipher).index := fun he => by
      rw [he, hindex] at hj
      omega
    unfold fb64Decrypt Stinfo.store
    dsimp only
    rw [Function.update_of_ne hnej, output_refill]
    exact h.output rfl j hj

theorem At.start {ivFirst : Bool} (h : mode = .output → stp.str_feed = iv) :
    At des mode key iv (keyed key iv ivFirst stp) [] := by
  have height : (keyed key iv ivFirst stp).str_index = 8 := by cases ivFirst <;> rfl
  have hsched : (keyed key iv ivFirst stp).str_sched = key := by cases ivFirst <;> rfl
  have hinput : (keyed key iv ivFirst stp).input mode = iv := by
    cases mode with
    | cipher => cases ivFirst <;> rfl
    | output =>
      rw [← h rfl]
      cases ivFirst <;> rfl
  refine ⟨hsched, ?_, ?_, fun _ _ hj => absurd hj (Nat.not_lt_zero _)⟩
  · unfold Stinfo.index
    dsimp only
    rw [height]
    rfl
  · rw [refill_full height, hsched, hinput]
    rfl

/-! ### The two ends -/

theorem at_encrypt : ∀ (l d : List Byte) {stp : Stinfo} {o : List Byte}, At des mode key iv stp o →
    Enciphers (· ^^^ ·) mode (des key) iv d o →
      Enciphers (· ^^^ ·) mode (des key) iv (d ++ l) (o ++ (feed (encryptByte des mode) stp l).2)
  | [], d, stp, o, _, h => by
    rw [feed_nil, append_nil, append_nil]
    exact h
  | b :: l, d, stp, o, hat, h => by
    have hbyte : (stp.refill des mode).str_feed (stp.refill des mode).index ^^^ b =
        b ^^^ Lib.Feedback.symbol mode (des key) iv o o.length := by
      rw [hat.symbol, UInt8.xor_comm]
    have ih := at_encrypt l (d ++ [b]) (hat.store _) (h.concat b)
    rw [feed_cons, ← singleton_append (l := l), ← append_assoc, ← append_assoc]
    unfold encryptByte
    dsimp only
    rw [hbyte]
    exact ih

theorem at_present (c : Byte) (n : ℕ) {stp : Stinfo} (h : At des mode key iv stp o) :
    At des mode key iv (present des mode stp c n).1 (o ++ [c]) ∧
      (present des mode stp c n).2 =
        List.replicate (n + 1) (c ^^^ Lib.Feedback.symbol mode (des key) iv o o.length) := by
  induction n generalizing stp with
  | zero =>
    unfold present
    rw [decrypt_eq, ← h.symbol]
    exact ⟨h.store c, rfl⟩
  | succ n ih =>
    unfold present
    dsimp only
    rw [decrypt_eq, decrypt_eq]
    obtain ⟨hat, hback⟩ := ih (h.back c)
    refine ⟨hat, ?_⟩
    rw [replicate_succ, ← hback]
    exact congrArg (· :: _) (congrArg (c ^^^ ·) h.symbol)

/-- **Each byte is combined with the symbol of the mode**, as often as it is handed over. -/
theorem at_receive : ∀ (l : List (Byte × ℕ)) {stp : Stinfo} {o : List Byte},
    At des mode key iv stp o →
    (receive des mode stp l).2 = (l.mapIdx fun i p => List.replicate (p.2 + 1)
      (p.1 ^^^ Lib.Feedback.symbol mode (des key) iv (o ++ l.map Prod.fst) (o.length + i))).flatten
  | [], _, _, _ => rfl
  | p :: l, stp, o, h => by
    have ⟨hat, hout⟩ := at_present p.1 p.2 h
    have ih := at_receive l hat
    unfold receive at ih ⊢
    rw [feed_cons, ih, hout, mapIdx_cons, flatten_cons, map_cons]
    rw [add_zero o.length, symbol_append le_rfl]
    simp only [length_append, length_singleton, append_assoc, singleton_append, add_assoc,
      add_comm 1]

theorem works_of_start {s r : Stinfo} (hs : At des mode key iv s []) (hr : At des mode key iv r [])
    (calls : List (List Byte)) (again : ℕ → ℕ) : Works des mode key iv s r calls again := by
  have henc := at_encrypt calls.flatten [] hs (enciphers_nil _)
  rw [nil_append, nil_append, ← encryptCalls_eq] at henc
  refine ⟨henc, ?_⟩
  rw [at_receive _ hr]
  have hfst :
      (List.mapIdx (fun i c => (c, again i)) (encryptCalls des mode s calls).2).map Prod.fst =
      (encryptCalls des mode s calls).2 := ext_getElem (by simp) (by simp)
  rw [nil_append, hfst]
  congr 1
  refine ext_getElem (by simpa using henc.1) fun i hi hi' => ?_
  rw [length_mapIdx] at hi'
  have hlt : i < (encryptCalls des mode s calls).2.length := henc.1.symm ▸ hi'
  have hsymbol :=
    henc.symbols (fun a b => by rw [UInt8.xor_assoc, UInt8.xor_self, UInt8.xor_zero]) hi'
  rw [getD_eq_getElem _ _ hlt, getD_eq_getElem _ _ hi'] at hsymbol
  simp only [getElem_mapIdx, length_nil, zero_add]
  rw [hsymbol]

theorem head?_present (c : Byte) (n : ℕ) :
    (present des mode stp c n).2.head? = some (decrypt des mode stp (some c)).2 := by
  cases n <;> rfl

/-- With a cipher that copies one byte of a block to all of them, the first byte tells that byte of
the feed. -/
theorem feed_of_works {ivFirst : Bool} {s r : Stinfo} {calls : List (List Byte)} {again : ℕ → ℕ}
    (hne : calls.flatten ≠ []) {j : Fin 8}
    (h : Works (fun _ b _ => b j) .output key iv (keyed key iv ivFirst s)
      (keyed key iv ivFirst r) calls again) :
    s.str_feed j = iv j ∧ r.str_feed j = iv j := by
  rw [Works, encryptCalls_eq] at h
  obtain ⟨b, l, hl⟩ := exists_cons_of_ne_nil hne
  obtain ⟨w, hw⟩ :
    ∃ w, (feed (encryptByte (fun _ b _ => b j) .output) (keyed key iv ivFirst s) (b :: l)).2 =
      (s.str_feed j ^^^ b) :: w := by
    cases ivFirst <;> exact ⟨_, rfl⟩
  rw [hl, hw] at h
  obtain ⟨⟨-, henc⟩, hdec⟩ := h
  have hs : s.str_feed j ^^^ b = b ^^^ iv j := henc 0 (Nat.succ_pos _)
  have hread := congrArg List.head? hdec
  unfold receive at hread
  rw [mapIdx_cons, feed_cons, head?_append, head?_present, Option.some_or, mapIdx_cons,
    flatten_cons, replicate_succ, cons_append, head?_cons, Option.some_inj] at hread
  have hbyte :
      (decrypt (fun _ b _ => b j) .output (keyed key iv ivFirst r) (some (s.str_feed j ^^^ b))).2 =
      (s.str_feed j ^^^ b) ^^^ r.str_feed j := by
    cases ivFirst <;> rfl
  have hr : (b ^^^ iv j) ^^^ r.str_feed j = b := by rw [← hs, ← hbyte]; exact hread
  rw [UInt8.xor_assoc] at hr
  have hzero : iv j ^^^ r.str_feed j = 0 := (UInt8.xor_right_inj b).1 (hr.trans UInt8.xor_zero.symm)
  rw [UInt8.xor_comm b, UInt8.xor_left_inj] at hs
  exact ⟨hs, (UInt8.xor_eq_zero_iff.1 hzero).symm⟩

/-- **The ciphertext is that of the mode and what is handed over is deciphered, whatever the
cipher**, with cipher feedback, and with output feedback when both feeds happen to hold the
initialisation vector. -/
theorem modes_iff (mode : Mode) (key iv : DesBlock) (ivFirst : Bool) (s r : Stinfo)
    (calls : List (List Byte)) (again : ℕ → ℕ) :
    (∀ des, Works des mode key iv (keyed key iv ivFirst s) (keyed key iv ivFirst r) calls again) ↔
      mode = .cipher ∨ calls.flatten = [] ∨ (s.str_feed = iv ∧ r.str_feed = iv) := by
  constructor
  · intro h
    cases mode with
    | cipher => exact .inl rfl
    | output =>
      refine .inr (Decidable.or_iff_not_imp_left.2 fun hne => ?_)
      exact ⟨funext fun j => (feed_of_works hne (h _)).1,
        funext fun j => (feed_of_works hne (h _)).2⟩
  · rintro (rfl | hnil | ⟨hs, hr⟩) des
    · have hcipher : Mode.cipher ≠ .output := Mode.noConfusion
      exact works_of_start (.start fun he => absurd he hcipher)
        (.start fun he => absurd he hcipher) calls again
    · unfold Works
      rw [encryptCalls_eq, hnil]
      exact ⟨enciphers_nil _, rfl⟩
    · exact works_of_start (.start fun _ => hs) (.start fun _ => hr) calls again

end

/-! ### What is encrypted first -/

/-- What `fb64_init` leaves. -/
def zeroed : Stinfo := ⟨fun _ => 0, fun _ => 0, fun _ => 0, fun _ => 0, fun _ => 0, 0⟩

/-- **The first block of output feedback is not that of the initialisation vector**:
`fb64_stream_iv` leaves zeros in `str_feed`, and one byte shows it. -/
theorem not_of_vector : ¬ ∀ des mode key iv ivFirst calls again,
    Works des mode key iv (keyed key iv ivFirst zeroed)
    (keyed key iv ivFirst zeroed) calls again := by
  intro h
  have hne : [[(0 : Byte)]].flatten ≠ [] := by decide
  have ⟨hfeed, _⟩ :=
    feed_of_works (j := 0) hne (h _ .output (fun _ => 0) (fun _ => 1) true _ fun _ => 0)
  exact absurd hfeed (by decide)

end Inetutils.Libtelnet.EncDes
