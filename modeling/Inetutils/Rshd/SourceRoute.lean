import Inetutils.Rshd.Doit
import Mathlib.Order.Filter.AtTopBot.Basic

/-! # The walk over the options of a connection

The loop over what `getsockopt` gives as `IP_OPTIONS`, in `doit` of `src/rshd.c` and in
`rlogind_auth` of `src/rlogind.c`. To read behind the bytes that were given, or to write behind
`lbuf`, has no result. -/

namespace Inetutils.Rshd.SourceRoute

open Domain Doit List Option
open Filter Relation

/-! ### The code -/

abbrev Text := List UInt8

def BUFSIZ : ℕ := 8192

def hexDigit (n : ℕ) : UInt8 := if n < 10 then 48 + n.toUInt8 else 87 + n.toUInt8

/-- `" %2.2x"` -/
def octet (c : Byte) : Text := [32, hexDigit (c.toNat / 16), hexDigit (c.toNat % 16)]

def IsRoute (c : Byte) : Prop := c = IPOPT_SSRR ∨ c = IPOPT_LSRR

instance (c : Byte) : Decidable (IsRoute c) := inferInstanceAs (Decidable (_ ∨ _))

/-- How the loop ends: the program exits, or `optsize` goes to `setsockopt`. -/
inductive Ending
  | discarded
  | through (optsize : UInt32)

structure Result where
  lbuf : Text
  ending : Ending

/-- `for (cp = optbuf; optsize > 0; )`, for at most `n` turns. -/
def loop (optbuf : List Byte) : ℕ → ℕ → UInt32 → Text → Option Result
  | 0, _, _, _ => none
  | n + 1, cp, optsize, lbuf =>
    if optsize = 0 then some ⟨lbuf, .through optsize⟩
    else
      match optbuf[cp]? with
      | none => none
      | some c =>
        if BUFSIZ < lbuf.length + 4 then none
        else if IsRoute c then some ⟨lbuf ++ octet c, .discarded⟩
        else if c = IPOPT_EOL then some ⟨lbuf ++ octet c, .through optsize⟩
        else if c = IPOPT_NOP then loop optbuf n (cp + 1) (optsize - 1) (lbuf ++ octet c)
        else
          match optbuf[cp + 1]? with
          | none => none
          | some inc => loop optbuf n (cp + inc.toNat) (optsize - inc.toUInt32) (lbuf ++ octet c)

/-- The loop in `doit`. -/
def doit (n : ℕ) (optbuf : List Byte) : Option Result := loop optbuf n 0 optbuf.length.toUInt32 []

/-- The loop in `rlogind_auth`. -/
def rlogind_auth (n : ℕ) (optbuf : List Byte) : Option Result :=
  loop optbuf n 0 optbuf.length.toUInt32 []

/-! ### The walk of RFC 791 -/

section
variable (l : List Byte)

def Long (c : Byte) : Prop := ¬ IsRoute c ∧ c ≠ IPOPT_EOL ∧ c ≠ IPOPT_NOP

inductive Next : ℕ → ℕ → Prop
  | nop {i : ℕ} (h : l[i]? = some IPOPT_NOP) : Next i (i + 1)
  | long {i : ℕ} {c len : Byte} (h : l[i]? = some c) (hc : Long c) (hlen : l[i + 1]? = some len) :
    Next i (i + len.toNat)

/-- The options that are met from place `p` on. -/
def Visited (p i : ℕ) : Prop := ReflTransGen (Next l) p i ∧ i < l.length

def Meets (p : ℕ) : Prop := ∃ i c, Visited l p i ∧ l[i]? = some c ∧ IsRoute c

/-- A length octet is there, is not zero, and does not lead out of the options. -/
def WholeAt (i : ℕ) : Prop :=
  ∀ c, l[i]? = some c → Long c → ∃ len, l[i + 1]? = some len ∧ 0 < len.toNat ∧
    i + len.toNat ≤ l.length

def Whole (p : ℕ) : Prop := ∀ i, Visited l p i → WholeAt l i

/-- What the loop should do: it ends, without reading anything else, `lbuf` has three characters for
each option that was met, and the connection is discarded if one of these is a source route. -/
def Right (walk : ℕ → List Byte → Option Result) : Prop :=
  ∃ (r : Result) (is : List ℕ), (∀ᶠ n in atTop, walk n l = some r) ∧ is.Nodup ∧
    (∀ i, i ∈ is ↔ Visited l 0 i) ∧
    r.lbuf = is.flatMap (fun i => octet (l.getD i 0)) ∧ (r.ending = .discarded ↔ Meets l 0)

end

variable {l : List Byte} {p : ℕ}

/-! ### One option -/

theorem lt_of_getElem? {c : Byte} (h : l[p]? = some c) : p < l.length :=
  (List.getElem?_eq_some_iff.1 h).1

theorem length_octet (c : Byte) : (octet c).length = 3 := rfl

theorem visited_self {c : Byte} (h : l[p]? = some c) : Visited l p p := ⟨.refl, lt_of_getElem? h⟩

variable {q : ℕ} {lbuf : Text}

theorem Visited.head {i : ℕ} (h : Next l p q) (hv : Visited l q i) :
    Visited l p i := ⟨.head h hv.1, hv.2⟩

theorem visited_iff_of_next {c : Byte} (hc : l[p]? = some c) (h : Next l p q)
    (hone : ∀ q', Next l p q' → q' = q) (i : ℕ) : Visited l p i ↔ i = p ∨ Visited l q i := by
  constructor
  · rintro ⟨hpath, hlt⟩
    rcases hpath.cases_head with rfl | ⟨q', hnext, hrest⟩
    · exact .inl rfl
    · exact .inr ⟨hone q' hnext ▸ hrest, hlt⟩
  · rintro (rfl | hv)
    · exact visited_self hc
    · exact hv.head h

theorem visited_iff_of_stop {c : Byte} (hc : l[p]? = some c) (h : ∀ q, ¬ Next l p q) (i : ℕ) :
    Visited l p i ↔ i = p := by
  constructor
  · rintro ⟨hpath, -⟩
    rcases hpath.cases_head with rfl | ⟨q, hnext, -⟩
    · rfl
    · exact absurd hnext (h q)
  · rintro rfl
    exact visited_self hc

theorem Next.unique {q' : ℕ} (h : Next l p q) (h' : Next l p q') : q' = q := by
  cases h with
  | nop hc =>
    cases h' with
    | nop => rfl
    | long hc' hlong => exact absurd (some.inj (hc'.symm.trans hc)) hlong.2.2
  | long hc hlong hlen =>
    cases h' with
    | nop hc' => exact absurd (some.inj (hc.symm.trans hc')) hlong.2.2
    | long _ _ hlen' => rw [some.inj (hlen.symm.trans hlen')]

theorem not_next {c : Byte} (hc : l[p]? = some c) (h : IsRoute c ∨ c = IPOPT_EOL) (q : ℕ) :
    ¬ Next l p q := by
  rintro (hnop | ⟨hc', hlong, -⟩)
  · obtain rfl := some.inj (hc.symm.trans hnop)
    exact absurd h (by decide)
  · obtain rfl := some.inj (hc.symm.trans hc')
    exact h.elim hlong.1 hlong.2.1

theorem not_visited_of_le (h : l.length ≤ p) (i : ℕ) : ¬ Visited l p i := by
  rintro ⟨hpath, hlt⟩
  rcases hpath.cases_head with rfl | ⟨q, hnext, -⟩
  · omega
  · have hp : p < l.length := by
      cases hnext with
      | nop hc => exact lt_of_getElem? hc
      | long hc => exact lt_of_getElem? hc
    omega

/-! ### The whole walk -/

/-- How the walk from `p` on is to end. -/
def Ended (l : List Byte) (p : ℕ) : Ending → Prop
  | .discarded => Meets l p
  | .through optsize => ¬ Meets l p ∧ (optsize = 0 ↔ ∀ i, Visited l p i → l[i]? ≠ some IPOPT_EOL)

/-- The options that the walk from `p` on meets, and how it ends. -/
structure Walk (l : List Byte) (p : ℕ) (is : List ℕ) (e : Ending) : Prop where
  nodup : is.Nodup
  le : ∀ i ∈ is, p ≤ i
  mem : ∀ i, i ∈ is ↔ Visited l p i
  ended : Ended l p e

theorem toUInt32_eq_zero_iff {k : ℕ} (h : k ≤ 40) : k.toUInt32 = 0 ↔ k = 0 := by
  rw [← UInt32.toNat_inj]
  change k % 2 ^ 32 = 0 ↔ k = 0
  omega

theorem walk_end (h : l.length ≤ p) : Walk l p [] (.through 0) := by
  have hnone := not_visited_of_le h
  refine ⟨nodup_nil, nofun, fun i => iff_of_false not_mem_nil (hnone i), ?_, iff_of_true rfl ?_⟩
  · rintro ⟨i, -, hi, -⟩
    exact hnone i hi
  · exact fun i hi => absurd hi (hnone i)

section
variable {c : Byte} (hc : l[p]? = some c)
include hc

theorem walk_stop {e : Ending} (h : IsRoute c ∨ c = IPOPT_EOL) (he : Ended l p e) :
    Walk l p [p] e := by
  refine ⟨nodup_cons.2 ⟨not_mem_nil, nodup_nil⟩, fun i hi => (mem_singleton.1 hi).ge,
    fun i => ?_, he⟩
  rw [mem_singleton, visited_iff_of_stop hc (not_next hc h)]

theorem ended_route (h : IsRoute c) : Ended l p .discarded := ⟨p, c, visited_self hc, hc, h⟩

theorem ended_eol (hlen : l.length ≤ 40) (h : c = IPOPT_EOL) :
    Ended l p (.through (l.length - p).toUInt32) := by
  have hp := lt_of_getElem? hc
  constructor
  · rintro ⟨i, d, hi, hd, hroute⟩
    rw [visited_iff_of_stop hc (not_next hc (.inr h))] at hi
    subst hi h
    obtain rfl := some.inj (hc.symm.trans hd)
    exact absurd hroute (by decide)
  · rw [toUInt32_eq_zero_iff (by omega)]
    refine iff_of_false (by omega) fun hall => hall p (visited_self hc) ?_
    rw [hc, h]

theorem walk_cons {is : List ℕ} {e : Ending} (h : Next l p q) (hpq : p < q) (hroute : ¬ IsRoute c)
    (heol : c ≠ IPOPT_EOL) (hw : Walk l q is e) : Walk l p (p :: is) e := by
  have hvisited := visited_iff_of_next hc h fun q' h' => h.unique h'
  have hmeets : Meets l p ↔ Meets l q := by
    constructor
    · rintro ⟨i, d, hi, hd, hr⟩
      rcases (hvisited i).1 hi with rfl | hi
      · obtain rfl := some.inj (hc.symm.trans hd)
        exact absurd hr hroute
      · exact ⟨i, d, hi, hd, hr⟩
    · rintro ⟨i, d, hi, hd⟩
      exact ⟨i, d, hi.head h, hd⟩
  refine ⟨nodup_cons.2 ⟨fun hmem => ?_, hw.nodup⟩, fun i hi => ?_, fun i => ?_, ?_⟩
  · have hle := hw.le p hmem
    omega
  · rcases mem_cons.1 hi with rfl | hi
    · exact le_rfl
    · have hle := hw.le i hi
      omega
  · rw [mem_cons, hvisited, hw.mem]
  · have hended := hw.ended
    rcases e with - | optsize
    · exact hmeets.2 hended
    · refine ⟨mt hmeets.1 hended.1,
        hended.2.trans ⟨fun hall i hi => ?_, fun hall i hi => hall i (hi.head h)⟩⟩
      rcases (hvisited i).1 hi with rfl | hi
      · rw [hc]
        exact fun heq => heol (some.inj heq)
      · exact hall i hi

end

theorem loop_of_outside (hlen : l.length ≤ 40) (hp : p ≤ l.length) {n : ℕ} {len : Byte} {r : Result}
    (h : ¬ p + len.toNat ≤ l.length) :
    loop l n (p + len.toNat) ((l.length - p).toUInt32 - len.toUInt32) lbuf ≠ some r := by
  have hbound := len.toNat_lt
  have hsize : (l.length - p).toUInt32 - len.toUInt32 ≠ 0 := by
    intro hzero
    have hnat := congrArg UInt32.toNat hzero
    rw [UInt32.toNat_sub, UInt8.toNat_toUInt32] at hnat
    change (2 ^ 32 - len.toNat + (l.length - p) % 2 ^ 32) % 2 ^ 32 = 0 at hnat
    omega
  have hnone : l[p + len.toNat]? = none := getElem?_eq_none (by omega)
  cases n with
  | zero => exact nofun
  | succ n =>
    rw [loop, if_neg hsize, hnone]
    exact nofun

section
variable (hlen : l.length ≤ 40)
include hlen

/-- **Options that are whole**: the walk, with any fuel that is enough. -/
theorem loop_of_whole (hp : p ≤ l.length) (hwhole : Whole l p) (lbuf : Text)
    (hlbuf : lbuf.length ≤ 3 * p) :
    ∃ is e, Walk l p is e ∧ ∀ n, l.length - p < n → loop l n p (l.length - p).toUInt32 lbuf =
      some ⟨lbuf ++ is.flatMap fun i => octet (l.getD i 0), e⟩ := by
  induction hk : l.length - p using Nat.strong_induction_on generalizing p lbuf with
  | _ k ih =>
    subst hk
    by_cases hend : p = l.length
    · refine ⟨[], _, walk_end hend.ge, fun n hn => ?_⟩
      obtain ⟨n, rfl⟩ := Nat.exists_eq_succ_of_ne_zero (Nat.ne_of_gt (Nat.zero_lt_of_lt hn))
      rw [loop, hend, Nat.sub_self, flatMap_nil, append_nil]
      exact if_pos rfl
    obtain ⟨c, hc⟩ : ∃ c, l[p]? = some c := ⟨_, getElem?_eq_getElem (by omega)⟩
    have hroom : ¬ BUFSIZ < lbuf.length + 4 := by
      unfold BUFSIZ
      omega
    have hpos : (l.length - p).toUInt32 ≠ 0 := mt (toUInt32_eq_zero_iff (by omega)).1 (by omega)
    have hoctet : l.getD p 0 = c := by rw [getD_eq_getElem?_getD, hc, getD_some]
    by_cases hstop : IsRoute c ∨ c = IPOPT_EOL
    · -- the loop ends here
      obtain ⟨e, he, hloop⟩ : ∃ e, Ended l p e ∧
          ∀ n, loop l (n + 1) p (l.length - p).toUInt32 lbuf = some ⟨lbuf ++ octet c, e⟩ := by
        by_cases hroute : IsRoute c
        · refine ⟨_, ended_route hc hroute, fun n => ?_⟩
          rw [loop, if_neg hpos, hc]
          dsimp only
          rw [if_neg hroom, if_pos hroute]
        · have heol := hstop.resolve_left hroute
          refine ⟨_, ended_eol hc hlen heol, fun n => ?_⟩
          rw [loop, if_neg hpos, hc]
          dsimp only
          rw [if_neg hroom, if_neg hroute, if_pos heol]
      refine ⟨[p], e, walk_stop hc hstop he, fun n hn => ?_⟩
      obtain ⟨n, rfl⟩ := Nat.exists_eq_succ_of_ne_zero (Nat.ne_of_gt (Nat.zero_lt_of_lt hn))
      rw [hloop, flatMap_singleton, hoctet]
    · -- it goes on behind the option
      obtain ⟨hroute, heol⟩ := not_or.1 hstop
      obtain ⟨k, hk, hle, hnext, hloop⟩ : ∃ k, 0 < k ∧ p + k ≤ l.length ∧ Next l p (p + k) ∧
          ∀ n, loop l (n + 1) p (l.length - p).toUInt32 lbuf =
            loop l n (p + k) (l.length - (p + k)).toUInt32 (lbuf ++ octet c) := by
        by_cases hnop : c = IPOPT_NOP
        · refine ⟨1, Nat.one_pos, by omega, .nop (hnop ▸ hc), fun n => ?_⟩
          have hsub := toUInt32_sub (a := l.length - p) (x := 1) (by omega) (by change 1 ≤ _; omega)
          rw [Nat.sub_sub] at hsub
          rw [loop, if_neg hpos, hc]
          dsimp only
          rw [if_neg hroom, if_neg hroute, if_neg heol, if_pos hnop, hsub]
          rfl
        · obtain ⟨len, hget, hlen0, hle⟩ := hwhole p (visited_self hc) c hc ⟨hroute, heol, hnop⟩
          refine ⟨len.toNat, hlen0, hle, .long hc ⟨hroute, heol, hnop⟩ hget, fun n => ?_⟩
          have hx : len.toUInt32.toNat = len.toNat := UInt8.toNat_toUInt32 len
          have hsub := toUInt32_sub (a := l.length - p) (x := len.toUInt32) (by omega) (by omega)
          rw [Nat.sub_sub, hx] at hsub
          rw [loop, if_neg hpos, hc]
          dsimp only
          rw [if_neg hroom, if_neg hroute, if_neg heol, if_neg hnop, hget]
          dsimp only
          rw [hsub]
      have hrest : Whole l (p + k) := fun i hi => hwhole i (hi.head hnext)
      have hroom' : (lbuf ++ octet c).length ≤ 3 * (p + k) := by
        rw [length_append, length_octet]
        omega
      obtain ⟨is, e, hw, hrun⟩ := ih _ (by omega) hle hrest _ hroom' rfl
      refine ⟨p :: is, e, walk_cons hc hnext (by omega) hroute heol hw, fun n hn => ?_⟩
      obtain ⟨n, rfl⟩ := Nat.exists_eq_succ_of_ne_zero (Nat.ne_of_gt (Nat.zero_lt_of_lt hn))
      rw [hloop, hrun n (by omega), flatMap_cons, hoctet, append_assoc]

/-- **A walk that ends** goes over options that are whole. -/
theorem whole_of_loop {n : ℕ} {r : Result} (hp : p ≤ l.length)
    (h : loop l n p (l.length - p).toUInt32 lbuf = some r) : Whole l p := by
  induction n generalizing p lbuf with
  | zero => cases h
  | succ n ih =>
    by_cases hend : p = l.length
    · exact fun i hi => absurd hi (not_visited_of_le hend.ge i)
    obtain ⟨c, hc⟩ : ∃ c, l[p]? = some c := ⟨_, getElem?_eq_getElem (by omega)⟩
    have hpos : (l.length - p).toUInt32 ≠ 0 := mt (toUInt32_eq_zero_iff (by omega)).1 (by omega)
    by_cases hstop : IsRoute c ∨ c = IPOPT_EOL
    · intro i hi d hd hlong
      rw [visited_iff_of_stop hc (not_next hc hstop)] at hi
      subst hi
      obtain rfl := some.inj (hc.symm.trans hd)
      exact absurd hstop (not_or.2 ⟨hlong.1, hlong.2.1⟩)
    obtain ⟨hroute, heol⟩ := not_or.1 hstop
    rw [loop, if_neg hpos, hc] at h
    dsimp only at h
    split_ifs at h with hroom hnop
    · have hnext : Next l p (p + 1) := .nop (hnop ▸ hc)
      have hsub := toUInt32_sub (a := l.length - p) (x := 1) (by omega) (by change 1 ≤ _; omega)
      rw [hsub, Nat.sub_sub] at h
      have hrest := ih (p := p + 1) (by omega) h
      intro i hi
      rcases (visited_iff_of_next hc hnext (fun q' h' => hnext.unique h') i).1 hi with rfl | hi
      · intro d hd hlong
        obtain rfl := some.inj (hc.symm.trans hd)
        exact absurd hnop hlong.2.2
      · exact hrest i hi
    · rcases hget : l[p + 1]? with - | len
      · rw [hget] at h
        cases h
      rw [hget] at h
      dsimp only at h
      have hnext : Next l p (p + len.toNat) := .long hc ⟨hroute, heol, hnop⟩ hget
      have hx : len.toUInt32.toNat = len.toNat := UInt8.toNat_toUInt32 len
      have hle : p + len.toNat ≤ l.length := by
        by_contra hover
        exact absurd h (loop_of_outside hlen hp hover)
      have hsub := toUInt32_sub (a := l.length - p) (x := len.toUInt32) (by omega) (by omega)
      rw [hsub, Nat.sub_sub, hx] at h
      have hrest := ih hle h
      have hlen0 : 0 < len.toNat := by
        by_contra hzero
        rw [Nat.eq_zero_of_not_pos hzero] at hrest
        obtain ⟨len', hget', hlen', -⟩ := hrest p (visited_self hc) c hc ⟨hroute, heol, hnop⟩
        obtain rfl := some.inj (hget.symm.trans hget')
        exact hzero hlen'
      intro i hi
      rcases (visited_iff_of_next hc hnext (fun q' h' => hnext.unique h') i).1 hi with rfl | hi
      · intro d hd _
        exact ⟨len, hget, hlen0, hle⟩
      · exact hrest i hi

end

/-! ### Both programs -/

theorem right_iff_whole {walk : ℕ → List Byte → Option Result} (hlen : l.length ≤ 40)
    (hwalk : ∀ n, walk n l = loop l n 0 (l.length - 0).toUInt32 []) : Right l walk ↔ Whole l 0 := by
  constructor
  · rintro ⟨r, is, hr, -⟩
    obtain ⟨n, hn⟩ := hr.exists
    rw [hwalk] at hn
    exact whole_of_loop hlen (Nat.zero_le _) hn
  · intro h
    obtain ⟨is, e, hw, hrun⟩ := loop_of_whole hlen (Nat.zero_le _) h [] (Nat.zero_le _)
    refine ⟨_, is, (eventually_gt_atTop (l.length - 0)).mono fun n hn =>
      (hwalk n).trans (hrun n hn), hw.nodup, hw.mem, nil_append _, ?_⟩
    have hended := hw.ended
    rcases e with - | optsize
    · exact iff_of_true rfl hended
    · exact iff_of_false nofun hended.1

theorem right_doit_iff (hlen : l.length ≤ 40) : Right l doit ↔ Whole l 0 :=
  right_iff_whole hlen fun _ => rfl

theorem right_rlogind_auth_iff (hlen : l.length ≤ 40) : Right l rlogind_auth ↔ Whole l 0 :=
  right_iff_whole hlen fun _ => rfl

/-- **When the loops do what they should.** -/
theorem routes_iff (o : IpOptions) :
    Right o.bytes doit ∧ Right o.bytes rlogind_auth ↔ Whole o.bytes 0 := by
  rw [right_doit_iff o.short, right_rlogind_auth_iff o.short, and_self]

/-- A length octet that is zero. -/
theorem not_right_routes : ¬ ∀ o : IpOptions, Right o.bytes doit ∧ Right o.bytes rlogind_auth := by
  intro h
  have hright : Right [7, 0] doit := (h ⟨[7, 0], by decide⟩).1
  have hwhole := (right_doit_iff (by decide)).1 hright
  obtain ⟨len, hlen, hpos, -⟩ := hwhole 0 (visited_self rfl) 7 rfl (by unfold Long; decide)
  cases hlen
  exact absurd hpos (by decide)

end Inetutils.Rshd.SourceRoute
