import Inetutils.Lib.Mealy
import Inetutils.Telnet.Ring.Marks

/-! # Encrypting in the ring

`ring_encrypt` and `ring_clearto` of `telnet/ring.c`. The encryptor is called with segments of the
buffer and encrypts them in place, byte after byte, with a state of its own; `Crypt` keeps what it
was passed and what it produced.

`Done r k e`: `clearto` says that the first `e` of the `k` bytes held need no encryption any more. A
`clearto` left at the bottom when the ring drained also says so, of none. `clearto` cannot tell this
from a full ring with all its bytes done, so `Done` excludes a full ring with none. -/

namespace Inetutils.Telnet.Ring.Encrypt

open Lib.Cyclic Lib.Mealy Ring.Model List
open Ring.Contents Ring.Marks

variable {α κ : Type*}

/-- A ring with its encryptor's state, what the encryptor was passed and what it produced. -/
structure Crypt (α κ : Type*) where
  ring : RingBuffer α
  key : κ
  passed : List α
  produced : List α

def bytewise (enc : κ → α → κ × α) (k : κ) (x : α) : κ × List α := ((enc k x).1, [(enc k x).2])

/-- `(*encryptor) (c, len)`. -/
def Crypt.encryptor (enc : κ → α → κ × α) (s : Crypt α κ) (c len : ℕ) : Crypt α κ :=
  let l := read s.ring.buf c len
  let out := feed (bytewise enc) s.key l
  { ring := { s.ring with buf := write s.ring.buf c out.2 }
    key := out.1
    passed := s.passed ++ l
    produced := s.produced ++ out.2 }

def ringEncrypt (enc : κ → α → κ × α) (s : Crypt α κ) : Crypt α κ :=
  if ringEmpty s.ring ∨ s.ring.clearto = some s.ring.supply then s
  else
    let c := s.ring.clearto.getD s.ring.consume
    let s' :=
      if s.ring.supply ≤ c then
        (s.encryptor enc c (s.ring.size - c)).encryptor enc 0 s.ring.supply
      else s.encryptor enc c (s.ring.supply - c)
    { s' with ring := { s'.ring with clearto := some s.ring.supply } }

def ringClearto (r : RingBuffer α) : RingBuffer α :=
  { r with clearto := if ringEmpty r then none else some r.supply }

/-- The first `e` of the `k` bytes held are done. -/
def Done (r : RingBuffer α) (k e : ℕ) : Prop :=
  e ≤ k ∧
    ((r.clearto = none ∧ e = 0) ∨
      (r.clearto = some (wrap r.size (r.consume + e)) ∧ (e = 0 → r.consume = 0 ∧ k ≠ r.size)))

section
variable {r : RingBuffer α} {l : List α}

theorem done_ringClearto (h : Holds r l) : Done (ringClearto r) l.length l.length := by
  refine ⟨le_rfl, ?_⟩
  by_cases he : ringEmpty r = true
  · exact .inl ⟨if_pos he, by rw [h.ringEmpty_iff.mp he]; rfl⟩
  · have hne : l ≠ [] := fun h0 => he (h.ringEmpty_iff.mpr h0)
    refine .inr ⟨(if_neg he).trans (congrArg some h.supply_eq), fun h0 => ?_⟩
    exact absurd (length_eq_zero_iff.mp h0) hne

theorem Done.eq_length (h : Holds r l) {e : ℕ} (hd : Done r l.length e)
    (hs : ringEmpty r ∨ r.clearto = some r.supply) : e = l.length := by
  have h2 := h.length_le
  have h3 := h.supply_eq
  obtain ⟨hle, ⟨hc, rfl⟩ | ⟨hc, h0⟩⟩ := hd
  · rcases hs with hs | hs
    · rw [h.ringEmpty_iff.mp hs]; rfl
    · rw [hc] at hs; cases hs
  · rcases hs with hs | hs
    · have := h.ringEmpty_iff.mp hs
      subst this
      exact Nat.le_zero.mp hle
    · rw [hc, Option.some.injEq, h3] at hs
      unfold wrap at hs; split_ifs at hs <;> omega

theorem Done.nothing_left {l' : List α} (h : Holds r (l ++ l'))
    (hd : Done r (l ++ l').length l.length)
    (hl' : l' = []) : ringEmpty r = true ∨ r.clearto = some r.supply := by
  subst hl'
  rw [append_nil] at h hd
  obtain ⟨-, ⟨-, h0⟩ | ⟨hc, -⟩⟩ := hd
  · exact .inl (h.ringEmpty_iff.mpr (length_eq_zero_iff.mp h0))
  · exact .inr (by rw [hc, h.supply_eq])

theorem Done.getD (h : Holds r l) {e : ℕ} (hd : Done r l.length e) :
    r.clearto.getD r.consume = wrap r.size (r.consume + e) := by
  obtain ⟨hle, ⟨hc, rfl⟩ | ⟨hc, h0⟩⟩ := hd
  · rw [hc, add_zero, wrap_of_lt h.consume_lt]; rfl
  · rw [hc]; rfl

theorem Done.supplied {r' : RingBuffer α} (hs : SuppliedFrom r r') {k k' e : ℕ} (hd : Done r k e)
    (hk : k ≤ k') (hfill : r.clearto = some r.consume → k ≠ k' → k' ≠ r.size)
    (h1 : r.consume < r.size) :
    Done r' k' e := by
  obtain ⟨hle, hd⟩ := hd
  refine ⟨hle.trans hk, ?_⟩
  rw [hs.clearto, hs.size, hs.consume]
  refine hd.imp_right fun ⟨hc, h0⟩ => ⟨hc, fun he => ⟨(h0 he).1, ?_⟩⟩
  subst he
  rw [add_zero, wrap_of_lt h1] at hc
  rcases eq_or_ne k k' with rfl | hne
  · exact (h0 rfl).2
  · exact hfill hc hne

theorem clearedTo_eq {c n : ℕ} (hc : r.clearto = some c) (hend : r.consume + n ≤ r.size) :
    clearedTo r n = if r.consume < c ∧ c ≤ r.consume + n then none else some c := by
  simp only [clearedTo, hc]
  rw [if_neg (show ¬ (r.consume + n > r.size ∧ 0 ≤ c) by omega)]

theorem ringConsumed_clearto_none (hc : r.clearto = none) (n : ℕ) :
    (Model.ringConsumed r n).clearto = none := by
  rcases eq_or_ne n 0 with rfl | hn
  · exact hc
  · rw [Holds.ringConsumed_clearto r hn, clearedTo, hc]

theorem Done.ringConsumed (h : Holds r l) {n e : ℕ} (hd : Done r l.length e) (hn : n ≤ e)
    (hend : r.consume + n ≤ r.size) (hclock : r.clock + 1 < ulongSize) :
    Done (Model.ringConsumed r n) (l.drop n).length (e - n) := by
  have h1 := h.consume_lt
  have h2 := h.length_le
  rcases Nat.eq_zero_or_pos n with rfl | hpos
  · rw [Holds.ringConsumed_zero]; exact hd
  obtain ⟨hle, ⟨-, rfl⟩ | ⟨hc, -⟩⟩ := hd
  · omega
  have hlen : (l.drop n).length = l.length - n := length_drop
  refine ⟨by omega, ?_⟩
  rw [Holds.ringConsumed_clearto r (by omega), clearedTo_eq hc hend, Holds.ringConsumed_size]
  by_cases hover : r.consume + e < r.size
  · rw [wrap_of_lt hover]
    by_cases hen : e = n
    · exact .inl ⟨if_pos (by omega), by omega⟩
    · have hne : l.drop n ≠ [] := ne_nil_of_length_pos (by omega)
      refine .inr ⟨?_, fun h0 => by omega⟩
      rw [if_neg (by omega), h.ringConsumed_consume (by omega) hclock hne,
        wrap_of_lt (show r.consume + n < r.size by omega), wrap_of_lt (by omega)]
      congr 1; omega
  · -- the bytes that are done reach the top; the consumer does not get past it in one piece
    rw [wrap_of_le (by omega), if_neg (by omega)]
    refine .inr ?_
    by_cases hne : l.drop n = []
    · have hcons := ((h.ringConsumed (by omega) hclock).empty hne).2
      rw [hne, length_nil] at hlen
      rw [hcons, wrap_of_lt (by omega), hne, length_nil]
      exact ⟨by congr 1; omega, fun _ => ⟨rfl, by omega⟩⟩
    · have hcons := h.ringConsumed_consume (by omega) hclock hne
      rw [hcons, wrap_wrap_add h1 (by omega), hlen]
      refine ⟨?_, fun h0 => ⟨?_, by omega⟩⟩
      · rw [wrap_of_le (by omega)]; congr 1; omega
      · rw [wrap_of_le (by omega)]; omega

end

/-! ### The encryptor -/

section
variable {enc : κ → α → κ × α} {s s' s1 : Crypt α κ} {done todo todo' rest : List α}

/-- `s'` is `s` after the encryptor was passed `todo`, which the ring holds between `done` and
`rest`. -/
structure Encrypted (enc : κ → α → κ × α) (s s' : Crypt α κ) (done todo rest : List α) : Prop where
  holds : Holds s'.ring (done ++ (feed (bytewise enc) s.key todo).2 ++ rest)
  key_eq : s'.key = (feed (bytewise enc) s.key todo).1
  passed_eq : s'.passed = s.passed ++ todo
  produced_eq : s'.produced = s.produced ++ (feed (bytewise enc) s.key todo).2
  frame : s'.ring = { s.ring with buf := s'.ring.buf, clearto := s'.ring.clearto }

theorem length_encrypted (k : κ) (l : List α) : (feed (bytewise enc) k l).2.length = l.length :=
  length_feed _ (fun _ _ => rfl) _ _

theorem Encrypted.trans (h : Encrypted enc s s1 done todo (todo' ++ rest))
    (h' : Encrypted enc s1 s' (done ++ (feed (bytewise enc) s.key todo).2) todo' rest) :
    Encrypted enc s s' done (todo ++ todo') rest := by
  obtain ⟨h1, h2, h3, h4, h5⟩ := h'
  rw [h.key_eq] at h1 h2 h4
  rw [h.passed_eq] at h3
  rw [h.produced_eq] at h4
  rw [h.frame] at h5
  refine ⟨?_, ?_, ?_, ?_, h5⟩
  · rw [feed_append, ← append_assoc done]; exact h1
  · rw [feed_append]; exact h2
  · rw [h3, append_assoc]
  · rw [feed_append, h4, append_assoc]

theorem Encrypted.clearto (h : Encrypted enc s s' done todo rest) (c : Option ℕ) :
    Encrypted enc s { s' with ring := { s'.ring with clearto := c } } done todo rest :=
  ⟨h.holds.congr _ _, h.key_eq, h.passed_eq, h.produced_eq, by rw [h.frame]⟩

theorem encrypted_encryptor (h : Holds s.ring (done ++ todo ++ rest))
    (hend : wrap s.ring.size (s.ring.consume + done.length) + todo.length ≤ s.ring.size) :
    Encrypted enc s
      (s.encryptor enc (wrap s.ring.size (s.ring.consume + done.length)) todo.length)
      done todo rest := by
  have h1 := h.consume_lt
  have h2 := h.length_le
  simp only [length_append] at h2
  obtain ⟨hpre, hrest⟩ := h.window_append
  rw [length_append, window_add _ h1 (by omega)] at hpre
  rw [length_append] at hrest
  obtain ⟨hdone, htodo⟩ := append_inj hpre (by simp)
  rw [window_eq_read _ hend] at htodo
  have hlen : (feed (bytewise enc) s.key todo).2.length = todo.length := length_encrypted ..
  unfold Crypt.encryptor
  rw [htodo]
  refine ⟨h.setBuf (by simp [hlen]) ?_, rfl, rfl, rfl, rfl⟩
  rw [length_append, length_append, window_write_mid _ _ h1 (by rw [hlen]; exact hend)
    (by rw [hlen]; exact h2), hdone, hlen, hrest]

theorem encrypted_wrapped (h : Holds s.ring (done ++ (todo ++ todo')))
    (htop : wrap s.ring.size (s.ring.consume + done.length) + todo.length = s.ring.size)
    (hend : todo'.length ≤ s.ring.size) :
    Encrypted enc s
      ((s.encryptor enc (wrap s.ring.size (s.ring.consume + done.length)) todo.length).encryptor
        enc 0 todo'.length) done (todo ++ todo') [] := by
  have h1 := h.consume_lt
  have h2 := h.length_le
  simp only [length_append] at h2
  have hlen : (feed (bytewise enc) s.key todo).2.length = todo.length := length_encrypted ..
  have hfst : Encrypted enc s _ done todo (todo' ++ []) :=
    encrypted_encryptor (by rwa [append_nil, append_assoc]) htop.le
  refine hfst.trans ?_
  set s1 := s.encryptor enc (wrap s.ring.size (s.ring.consume + done.length)) todo.length with hs1
  have hzero : wrap s1.ring.size
      (s1.ring.consume + (done ++ (feed (bytewise enc) s.key todo).2).length) = 0 := by
    show wrap s.ring.size (s.ring.consume + _) = 0
    rw [length_append, hlen, ← Nat.add_assoc, ← wrap_wrap_add h1 (by omega), htop,
      wrap_of_le le_rfl, Nat.sub_self]
  have hsnd : Encrypted enc s1 _ _ todo' [] := encrypted_encryptor
    (by have := hfst.holds; rwa [← append_assoc] at this)
    (by rw [hzero, Nat.zero_add]; exact hend)
  rwa [hzero] at hsnd

/-- **`ring_encrypt` passes the bytes that are not done, in order**, and then all are done. -/
theorem ringEncrypt_spec (h : Holds s.ring (done ++ todo))
    (hd : Done s.ring (done ++ todo).length done.length) :
    Encrypted enc s (ringEncrypt enc s) done todo [] ∧
      Done (ringEncrypt enc s).ring (done ++ todo).length (done ++ todo).length := by
  have h1 := h.consume_lt
  have h2 := h.length_le
  have h3 := h.supply_eq
  unfold ringEncrypt
  by_cases hs : ringEmpty s.ring = true ∨ s.ring.clearto = some s.ring.supply
  · have he := hd.eq_length h hs
    rw [length_append] at he
    obtain rfl : todo = [] := length_eq_zero_iff.mp (by omega)
    rw [if_pos hs]
    rw [append_nil] at h hd ⊢
    exact ⟨⟨by simpa using h, rfl, by simp, by simp, rfl⟩, hd⟩
  have hne : todo ≠ [] := fun h0 => hs (hd.nothing_left h h0)
  have hpos := length_pos_of_ne_nil hne
  rw [length_append] at h2 h3
  rw [if_neg hs, hd.getD h]
  set c := wrap s.ring.size (s.ring.consume + done.length) with hc
  have hcs : s.ring.supply = wrap s.ring.size (c + todo.length) := by
    rw [h3, hc, wrap_wrap_add h1 h2, add_assoc]
  have hclt : c < s.ring.size := wrap_lt (by omega)
  have henc : Encrypted enc s (if s.ring.supply ≤ c then
        (s.encryptor enc c (s.ring.size - c)).encryptor enc 0 s.ring.supply
      else s.encryptor enc c (s.ring.supply - c)) done todo [] := by
    split_ifs with hsc
    · have hlong :
          s.ring.size - c ≤ todo.length ∧ s.ring.supply = todo.length - (s.ring.size - c) := by
        unfold wrap at hcs; split_ifs at hcs <;> omega
      have htake : (todo.take (s.ring.size - c)).length = s.ring.size - c :=
        length_take_of_le hlong.1
      have :
          Encrypted enc s _ done (todo.take (s.ring.size - c) ++ todo.drop (s.ring.size - c)) [] :=
        encrypted_wrapped (by rwa [take_append_drop]) (by rw [htake, ← hc]; omega)
          (by rw [length_drop]; omega)
      rwa [take_append_drop, htake, ← hc, length_drop, ← hlong.2] at this
    · have hshort : s.ring.supply - c = todo.length ∧ c + todo.length ≤ s.ring.size := by
        unfold wrap at hcs; split_ifs at hcs <;> omega
      rw [hshort.1]
      exact encrypted_encryptor (by rwa [append_nil]) (by rw [← hc]; exact hshort.2)
  refine ⟨henc.clearto _, le_rfl, .inr ⟨?_, fun h0 => ?_⟩⟩
  · rw [(henc.clearto _).frame, length_append, ← h3]
  · rw [length_append] at h0; omega

theorem ringEncrypt_full {l : List α} (h : Holds s.ring l) (hl : l.length = s.ring.size)
    (hc : s.ring.clearto = some s.ring.consume) : ringEncrypt enc s = s := by
  have hsup := h.supply_eq_consume.mpr (.inr hl)
  exact if_pos (.inr (by rw [hc, hsup]))

end

end Inetutils.Telnet.Ring.Encrypt
