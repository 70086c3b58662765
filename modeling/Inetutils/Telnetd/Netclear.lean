import Inetutils.Telnet.Items
import Inetutils.Telnetd.NetOutput

/-! # Clearing the output buffer

`nextitem`, `wewant` and `netclear` of `telnetd/utility.c`. They walk over the buffer item by item,
from its start; `lim` is a position they must not read at or beyond, and the result is `none` when
they do. A walk gets on by at least a byte a turn, so the `fuel` of each loop is what is left of the
buffer.

On a buffer of whole items, part of which is written, `netclear` leaves the items from the one at
`nbackp` on that `kept` selects (`netclear_spec`): commands other than `EC` and `EL`, and doubled
`IAC`s. -/

namespace Inetutils.Telnetd.Netclear

open Lib.Cyclic Telnet.Proto Telnet.Items Netobuf List Option

section
variable (lim : ℕ) (m : ℕ → Byte)

def fetch (p : ℕ) : Option Byte := if p < lim then some (m p) else none

/-- The loop of `nextitem` that looks for the end of a suboption. -/
def findSE : ℕ → ℕ → Option ℕ
  | 0, _ => none
  | fuel + 1, look =>
    (fetch lim m look).bind fun b =>
      if b = IAC then
        (fetch lim m (look + 1)).bind fun b' =>
          if b' = SE then some (look + 2) else findSE fuel (look + 2)
      else findSE fuel (look + 1)

def nextitem (current : ℕ) : Option ℕ :=
  (fetch lim m current).bind fun b =>
    if b ≠ IAC then some (current + 1)
    else
      (fetch lim m (current + 1)).bind fun c =>
        if c = DO ∨ c = DONT ∨ c = WILL ∨ c = WONT then some (current + 3)
        else if c = SB then findSE lim m lim (current + 2)
        else some (current + 2)

def wewant (nfrontp p : ℕ) : Option Bool :=
  if nfrontp > p then
    (fetch lim m p).bind fun b =>
      if b = IAC then (fetch lim m (p + 1)).bind fun c => some (c ≠ EC ∧ c ≠ EL)
      else some false
  else some false

/-- The first loop of `netclear`, up to the item at `nbackp`. -/
def findItem (nbackp : ℕ) : ℕ → ℕ → Option ℕ
  | 0, _ => none
  | fuel + 1, thisitem =>
    (nextitem lim m thisitem).bind fun next =>
      if next ≤ nbackp then findItem nbackp fuel next else some thisitem

/-- The inner loop of `netclear`, over a row of wanted items. -/
def skipWanted (nfrontp : ℕ) : ℕ → ℕ → Option ℕ
  | 0, _ => none
  | fuel + 1, next =>
    (wewant lim m nfrontp next).bind fun w =>
      if w ∧ nfrontp > next then (nextitem lim m next).bind (skipWanted nfrontp fuel)
      else some next

end

/-- The second loop of `netclear`: the wanted items are moved to `good`. -/
def moveWanted (lim nfrontp : ℕ) : ℕ → (ℕ → Byte) → ℕ → ℕ → Option ((ℕ → Byte) × ℕ)
  | 0, _, _, _ => none
  | fuel + 1, m, good, thisitem =>
    if nfrontp > thisitem then
      (wewant lim m nfrontp thisitem).bind fun w =>
        if w then
          (skipWanted lim m nfrontp (nfrontp + 1) thisitem).bind fun next =>
            moveWanted lim nfrontp fuel (write m good (read m thisitem (next - thisitem)))
              (good + (next - thisitem)) next
        else (nextitem lim m thisitem).bind fun next => moveWanted lim nfrontp fuel m good next
    else some (m, good)

def netclear (lim : ℕ) (n : NetBuf) : Option NetBuf :=
  (findItem lim n.buf n.nbackp (n.nbackp + 1) 0).bind fun thisitem =>
    (moveWanted lim n.nfrontp (n.nfrontp + 1) n.buf 0 thisitem).map fun r =>
      { n with buf := r.1, nbackp := 0, nfrontp := r.2, neturg := none }

/-- The items `netclear` keeps. -/
def kept : Item → Bool
  | .data b => b = IAC
  | .command c _ => c ≠ EC ∧ c ≠ EL
  | .option _ _ => true
  | .sub _ => true

/-! ### Walking over items -/

/-- The bytes `l` are in memory from `t` on. -/
def At (m : ℕ → Byte) (t : ℕ) (l : List Byte) : Prop := read m t l.length = l

section
variable {lim : ℕ} {m : ℕ → Byte} {t : ℕ}

theorem at_cons {b : Byte} {l : List Byte} : At m t (b :: l) ↔ m t = b ∧ At m (t + 1) l := by
  rw [At, length_cons, read_succ, List.cons.injEq]; rfl

theorem at_append {l l' : List Byte} :
    At m t (l ++ l') ↔ At m t l ∧ At m (t + l.length) l' := by
  rw [At, length_append, read_add]
  exact ⟨fun h => append_inj h (by simp), fun ⟨h, h'⟩ => by rw [h, h']⟩

theorem At.congr {m' : ℕ → Byte} {l : List Byte} (h : At m t l)
    (hm : ∀ p, t ≤ p → p < t + l.length → m' p = m p) : At m' t l :=
  (read_congr hm).trans h

theorem fetch_eq {b : Byte} (h : m t = b) (hlim : t < lim) : fetch lim m t = some b := by
  rw [fetch, if_pos hlim, h]

theorem findSE_spec : ∀ (p : List Byte) (fuel t : ℕ), p.length < fuel →
    At m t (escape p ++ [IAC, SE]) → t + (escape p ++ [IAC, SE]).length ≤ lim →
    findSE lim m fuel t = some (t + (escape p ++ [IAC, SE]).length)
  | [], fuel + 1, t, _, h, hlim => by
    simp only [escape, flatMap_nil, nil_append, length_cons, length_nil] at h hlim ⊢
    obtain ⟨h1, h⟩ := at_cons.mp h
    obtain ⟨h2, -⟩ := at_cons.mp h
    simp [findSE, fetch_eq h1 (show t < lim by omega), fetch_eq h2 (show t + 1 < lim by omega)]
  | b :: p, fuel + 1, t, hf, h, hlim => by
    have hesc : escape (b :: p) = (if b = IAC then [IAC, IAC] else [b]) ++ escape p := rfl
    rw [length_cons] at hf
    rw [hesc, append_assoc] at h hlim ⊢
    have ih := findSE_spec p fuel
    split_ifs at h hlim ⊢ with hb
    · obtain ⟨h1, h⟩ := at_cons.mp h
      obtain ⟨h2, h⟩ := at_cons.mp h
      simp only [nil_append, cons_append, length_cons] at h hlim ⊢
      rw [findSE, fetch_eq h1 (by omega), bind_some, if_pos rfl, fetch_eq h2 (by omega),
        bind_some, if_neg (by decide), ih _ (by omega) h (by omega)]
      congr 1; omega
    · obtain ⟨h1, h⟩ := at_cons.mp h
      simp only [nil_append, cons_append, length_cons] at h hlim ⊢
      rw [findSE, fetch_eq h1 (by omega), bind_some, if_neg hb, ih _ (by omega) h (by omega)]
      congr 1; omega

theorem length_le_escape : ∀ p : List Byte, p.length ≤ (escape p).length
  | [] => le_rfl
  | b :: p => by
    have ih := length_le_escape p
    rw [show escape (b :: p) = (if b = IAC then [IAC, IAC] else [b]) ++ escape p from rfl]
    split_ifs <;> simp only [length_append, length_cons, length_nil] <;> omega

theorem nextitem_spec {it : Item} (h : At m t it.encode) (hlim : t + it.encode.length ≤ lim) :
    nextitem lim m t = some (t + it.encode.length) := by
  cases it with
  | data b =>
    by_cases hb : b = IAC
    · subst hb
      have hlim : t + 2 ≤ lim := hlim
      obtain ⟨h1, h⟩ := at_cons.mp h
      obtain ⟨h2, -⟩ := at_cons.mp h
      rw [nextitem, fetch_eq h1 (by omega), bind_some, if_neg (by decide),
        fetch_eq h2 (by omega)]
      rfl
    · simp only [Item.encode, if_neg hb, length_cons, length_nil] at h hlim ⊢
      obtain ⟨h1, -⟩ := at_cons.mp h
      rw [nextitem, fetch_eq h1 (by omega), bind_some, if_pos hb]
  | command c hc =>
    have hlim : t + 2 ≤ lim := hlim
    obtain ⟨h1, h⟩ := at_cons.mp h
    obtain ⟨h2, -⟩ := at_cons.mp h
    have hv : ¬ (c = DO ∨ c = DONT ∨ c = WILL ∨ c = WONT) := by
      rintro (rfl | rfl | rfl | rfl) <;> exact absurd hc (by decide)
    have hs : c ≠ SB := by rintro rfl; exact absurd hc (by decide)
    rw [nextitem, fetch_eq h1 (by omega), bind_some, if_neg (by decide),
      fetch_eq h2 (by omega), bind_some, if_neg hv, if_neg hs]
    rfl
  | option v o =>
    have hlim : t + 3 ≤ lim := hlim
    obtain ⟨h1, h⟩ := at_cons.mp h
    obtain ⟨h2, -⟩ := at_cons.mp h
    have hv : v.code = DO ∨ v.code = DONT ∨ v.code = WILL ∨ v.code = WONT := by
      cases v <;> decide
    rw [nextitem, fetch_eq h1 (by omega), bind_some, if_neg (by decide),
      fetch_eq h2 (by omega), bind_some, if_pos hv]
    rfl
  | sub p =>
    have hlen : (Item.sub p).encode.length = (escape p ++ [IAC, SE]).length + 2 := rfl
    have hle := length_le_escape p
    have hlen' : (escape p ++ [IAC, SE]).length = (escape p).length + 2 := by simp
    obtain ⟨h1, h⟩ := at_cons.mp h
    obtain ⟨h2, h⟩ := at_cons.mp h
    rw [nextitem, fetch_eq h1 (by omega), bind_some, if_neg (by decide),
      fetch_eq h2 (by omega), bind_some, if_neg (by decide), if_pos rfl,
      findSE_spec p lim (t + 2) (by omega) h (by omega), hlen]
    congr 1; omega

theorem encode_length_pos (it : Item) : 0 < it.encode.length := by
  cases it with
  | data b => simp only [Item.encode]; split_ifs <;> exact Nat.succ_pos _
  | command c h => exact Nat.succ_pos _
  | option v o => exact Nat.succ_pos _
  | sub p => exact Nat.succ_pos _

theorem length_le_encodeAll : ∀ its : List Item, its.length ≤ (encodeAll its).length
  | [] => le_rfl
  | it :: its => by
    have ih := length_le_encodeAll its
    have hpos := encode_length_pos it
    rw [encodeAll_cons, length_append, length_cons]; omega

theorem wewant_spec {it : Item} {nfrontp : ℕ} (h : At m t it.encode)
    (hlim : t + it.encode.length ≤ lim) (hf : t < nfrontp) :
    wewant lim m nfrontp t = some (kept it) := by
  cases it with
  | data b =>
    by_cases hb : b = IAC
    · subst hb
      have hlim : t + 2 ≤ lim := hlim
      obtain ⟨h1, h⟩ := at_cons.mp h
      obtain ⟨h2, -⟩ := at_cons.mp h
      rw [wewant, if_pos hf, fetch_eq h1 (by omega), bind_some, if_pos rfl,
        fetch_eq h2 (by omega)]
      rfl
    · simp only [Item.encode, if_neg hb, length_cons, length_nil] at h hlim
      obtain ⟨h1, -⟩ := at_cons.mp h
      rw [wewant, if_pos hf, fetch_eq h1 (by omega), bind_some, if_neg hb]
      simp [kept, hb]
  | command c hc =>
    have hlim : t + 2 ≤ lim := hlim
    obtain ⟨h1, h⟩ := at_cons.mp h
    obtain ⟨h2, -⟩ := at_cons.mp h
    rw [wewant, if_pos hf, fetch_eq h1 (by omega), bind_some, if_pos rfl,
      fetch_eq h2 (by omega)]
    rfl
  | option v o =>
    have hlim : t + 3 ≤ lim := hlim
    obtain ⟨h1, h⟩ := at_cons.mp h
    obtain ⟨h2, -⟩ := at_cons.mp h
    rw [wewant, if_pos hf, fetch_eq h1 (by omega), bind_some, if_pos rfl,
      fetch_eq h2 (by omega)]
    cases v <;> rfl
  | sub p =>
    have hlen : (Item.sub p).encode.length = (escape p ++ [IAC, SE]).length + 2 := rfl
    obtain ⟨h1, h⟩ := at_cons.mp h
    obtain ⟨h2, -⟩ := at_cons.mp h
    rw [wewant, if_pos hf, fetch_eq h1 (by omega), bind_some, if_pos rfl,
      fetch_eq h2 (by omega)]
    rfl

end

/-! ### The loops -/

section
variable {lim : ℕ}

theorem findItem_spec {m : ℕ → Byte} {nbackp : ℕ} {it : Item} : ∀ {done : List Item} {fuel t : ℕ},
    done.length < fuel → At m t (encodeAll done ++ it.encode) →
    t + (encodeAll done).length + it.encode.length ≤ lim →
    t + (encodeAll done).length ≤ nbackp →
    nbackp < t + (encodeAll done).length + it.encode.length →
    findItem lim m nbackp fuel t = some (t + (encodeAll done).length)
  | [], fuel + 1, t, _, h, hlim, _, hlt => by
    rw [encodeAll_nil, length_nil, Nat.add_zero] at *
    rw [findItem, nextitem_spec h hlim, bind_some, if_neg (by omega)]; rfl
  | it' :: done, fuel + 1, t, hf, h, hlim, hle, hlt => by
    rw [length_cons] at hf
    rw [encodeAll_cons, append_assoc] at h
    rw [encodeAll_cons, length_append] at hlim hle hlt ⊢
    obtain ⟨h1, h2⟩ := at_append.mp h
    rw [findItem, nextitem_spec h1 (by omega), bind_some, if_pos (by omega),
      findItem_spec (by omega) h2 (by omega) (by omega) (by omega)]
    congr 1; omega

theorem skipWanted_spec {m : ℕ → Byte} {nfrontp : ℕ} : ∀ {its : List Item} {fuel t : ℕ},
    its.length < fuel → At m t (encodeAll its) → t + (encodeAll its).length = nfrontp →
    nfrontp ≤ lim →
    skipWanted lim m nfrontp fuel t = some (t + (encodeAll (its.takeWhile kept)).length)
  | [], fuel + 1, t, _, _, hn, _ => by
    have hn : t = nfrontp := hn
    have : wewant lim m nfrontp t = some false := by rw [wewant, if_neg (by omega)]
    rw [skipWanted, this]; rfl
  | it :: its, fuel + 1, t, hf, h, hn, hlim => by
    have hpos := encode_length_pos it
    rw [length_cons] at hf
    rw [encodeAll_cons] at h
    rw [encodeAll_cons, length_append] at hn
    obtain ⟨h1, h2⟩ := at_append.mp h
    rw [skipWanted, wewant_spec h1 (by omega) (by omega), bind_some]
    by_cases hk : kept it = true
    · rw [if_pos ⟨hk, by omega⟩, nextitem_spec h1 (by omega), bind_some,
        skipWanted_spec (by omega) h2 (by omega) hlim, takeWhile_cons_of_pos hk, encodeAll_cons,
        length_append]
      congr 1; omega
    · rw [if_neg (fun h0 => hk h0.1), takeWhile_cons_of_neg hk]; rfl

theorem filter_eq_takeWhile {α : Type*} (p : α → Bool) : ∀ l : List α,
    l.filter p = l.takeWhile p ++ (l.dropWhile p).filter p
  | [] => rfl
  | a :: l => by
    by_cases h : p a = true
    · rw [filter_cons_of_pos h, takeWhile_cons_of_pos h, dropWhile_cons_of_pos h,
        filter_eq_takeWhile p l, cons_append]
    · rw [takeWhile_cons_of_neg h, dropWhile_cons_of_neg h, nil_append]

theorem moveWanted_spec {nfrontp : ℕ} (hlim : nfrontp ≤ lim) : ∀ {fuel : ℕ} {its : List Item}
    {m : ℕ → Byte} {good t : ℕ}, its.length < fuel → At m t (encodeAll its) →
    t + (encodeAll its).length = nfrontp → good ≤ t →
    ∃ m', moveWanted lim nfrontp fuel m good t =
        some (m', good + (encodeAll (its.filter kept)).length) ∧
      At m' good (encodeAll (its.filter kept)) ∧ ∀ p < good, m' p = m p
  | fuel + 1, [], m, good, t, _, _, hn, _ => by
    have hn : t = nfrontp := hn
    exact ⟨m, by rw [moveWanted, if_neg (by omega)]; rfl, rfl, fun _ _ => rfl⟩
  | fuel + 1, it :: its, m, good, t, hf, h, hn, hgood => by
    have hpos := encode_length_pos it
    rw [length_cons] at hf
    obtain ⟨h1, h2⟩ := at_append.mp (encodeAll_cons it its ▸ h)
    have hn' := hn
    rw [encodeAll_cons, length_append] at hn'
    rw [moveWanted, if_pos (by omega), wewant_spec h1 (by omega) (by omega), bind_some]
    by_cases hk : kept it = true
    · -- a row `w` of wanted items is moved at once
      set w := (it :: its).takeWhile kept with hw
      set rest := (it :: its).dropWhile kept with hr
      have hrest : rest.length ≤ its.length := by
        rw [hr, dropWhile_cons_of_pos hk]; exact (dropWhile_sublist _).length_le
      have hsplit : encodeAll (it :: its) = encodeAll w ++ encodeAll rest := by
        rw [← encodeAll_append, takeWhile_append_dropWhile]
      rw [hsplit] at h
      rw [hsplit, length_append] at hn
      obtain ⟨h3, h4⟩ := at_append.mp h
      have hskip : skipWanted lim m nfrontp (nfrontp + 1) t = some (t + (encodeAll w).length) :=
        skipWanted_spec
        (by have := length_le_encodeAll (it :: its)
            rw [hsplit, length_append] at this; omega)
        (by rw [hsplit]; exact h) (by rw [hsplit, length_append]; exact hn) hlim
      rw [if_pos hk, hskip, bind_some, Nat.add_sub_cancel_left, h3]
      have h5 : At (write m good (encodeAll w)) (t + (encodeAll w).length) (encodeAll rest) :=
        h4.congr fun p hp _ => write_of_le m _ (by omega)
      obtain ⟨m', e, hat, hlow⟩ := moveWanted_spec hlim (show rest.length < fuel by omega) h5
        (by omega) (show good + (encodeAll w).length ≤ t + (encodeAll w).length by omega)
      rw [filter_eq_takeWhile, ← hw, ← hr, encodeAll_append, length_append]
      refine ⟨m', by rw [e, Nat.add_assoc], at_append.mpr ⟨?_, hat⟩, fun p hp => ?_⟩
      · exact (read_congr fun p _ hp => hlow p hp).trans (read_write m good _)
      · rw [hlow p (by omega), write_of_lt m _ hp]
    · rw [if_neg hk, nextitem_spec h1 (by omega), bind_some, filter_cons_of_neg hk]
      exact moveWanted_spec hlim (by omega) h2 (by omega) (by omega)

/-- **What `netclear` leaves**: the kept ones of the items that are not wholly written. -/
theorem netclear_spec {n : NetBuf} {done rest : List Item} {it : Item}
    (hheld : n.held = encodeAll (done ++ it :: rest)) (hle : (encodeAll done).length ≤ n.nbackp)
    (hlt : n.nbackp < (encodeAll done).length + it.encode.length) :
    ∃ n', netclear n.nfrontp n = some n' ∧ n'.nbackp = 0 ∧ n'.written = n.written ∧
      n'.held = encodeAll ((it :: rest).filter kept) := by
  have hlen := length_held n
  rw [hheld] at hlen
  have hat : At n.buf 0 (encodeAll (done ++ it :: rest)) := by
    rw [At, hlen]; exact hheld
  have hcount := length_le_encodeAll done
  have hcount' := length_le_encodeAll (it :: rest)
  rw [encodeAll_append, length_append, encodeAll_cons, length_append] at hlen
  rw [encodeAll_append] at hat
  obtain ⟨h1, h2⟩ := at_append.mp hat
  rw [encodeAll_cons, length_append] at hcount'
  have hfind : findItem n.nfrontp n.buf n.nbackp (n.nbackp + 1) 0 =
      some (0 + (encodeAll done).length) :=
    findItem_spec (by omega) (at_append.mpr ⟨h1, (at_append.mp h2).1⟩) (by omega) (by omega)
      (by omega)
  obtain ⟨m', e, hgood, -⟩ := moveWanted_spec (le_refl n.nfrontp)
    (show (it :: rest).length < n.nfrontp + 1 by omega) h2
    (by rw [encodeAll_cons, length_append]; omega) (Nat.zero_le (0 + (encodeAll done).length))
  rw [netclear, hfind, bind_some, e, Nat.zero_add]
  exact ⟨_, rfl, rfl, rfl, hgood⟩

end

end Inetutils.Telnetd.Netclear
