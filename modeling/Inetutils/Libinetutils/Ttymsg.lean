import Inetutils.Lib.Paths
import Mathlib.Data.UInt

/-! # The terminal that `ttymsg` opens

`ttymsg` of `libinetutils/ttymsg.c` up to `open`, and `normalize_path`, which cuts every `"/../"`
out of the name in place, with what is in front of it. Going back to the delimiter before reads the
byte in front of the string when there is none.

* `turn_spec`: in front of the place that a turn of the loop starts from nothing is left of that
  kind. -/

namespace Inetutils.Libinetutils.Ttymsg

open Lib.Paths List Option

abbrev Text := List UInt8

abbrev delim : UInt8 := 47
abbrev dot : UInt8 := 46

/-! ### `normalize_path` -/

/-- `*q`, an offset into the string; `before` is the byte in front of it. -/
def byteAt (before : UInt8) (path : Text) (q : ℤ) : UInt8 :=
  if q < 0 then before else path.getD q.toNat 0

def previous (before : UInt8) (path : Text) (q : ℤ) : ℤ :=
  if byteAt before path q ≠ delim ∧ 0 ≤ q then previous before path (q - 1) else q
termination_by (q + 1).toNat

/-- `strchr (p, '.')` -/
def strchr (path : Text) (p : ℕ) : Option ℕ := ((path.drop p).findIdx? (· == dot)).map (p + ·)

/-- `"/.."` and the end or another delimiter. -/
def found (before : UInt8) (path : Text) (p : ℕ) : Bool :=
  0 < p && byteAt before path (p - 1) == delim && byteAt before path (p + 1) == dot &&
    (byteAt before path (p + 2) == 0 || byteAt before path (p + 2) == delim)

inductive Turn
  | again (path : Text) (p : ℕ)
  | left (path : Text)

/-- What is between `q` and `p + 2` goes. -/
def cut (path : Text) (p : ℕ) (q : ℤ) : Turn :=
  if q < 0 then .left path else .again (path.take q.toNat ++ path.drop (p + 2)) q.toNat

def turn (before : UInt8) (path : Text) (p : ℕ) : Turn :=
  match strchr path p with
  | none => .left path
  | some p =>
    if found before path p then cut path p (previous before path (p - 2)) else .again path (p + 1)

def eliminate (before : UInt8) : ℕ → Text → ℕ → Option Text
  | 0, _, _ => none
  | n + 1, path, p =>
    match turn before path p with
    | .again path p => eliminate before n path p
    | .left path => some path

def deleteTrailing (path : Text) : Text :=
  if path.getLast? = some delim then path.dropLast else path

def normalizePath (before : UInt8) (turns : ℕ) (path : Text) : Option Text :=
  if path = [] then some path
  else (eliminate before turns (deleteTrailing path) 0).map fun path =>
    if path = [] then [delim] else path

/-! ### `ttymsg` -/

def pathTtyPfx : Text := "/dev/".toList.map fun c => c.toNat.toUInt8

/-- A line that a caller passes, out of a field of `utmp` or of a request: its length is an
`int`. -/
structure Line where
  text : Text
  noNul : 0 ∉ text
  fits : text.length + 5 < 2 ^ 31

inductive Outcome
  | tooManyIovs
  | notEnoughMemory
  | badLineName (line : Text)
  | opened (device : Text)
  deriving DecidableEq

/-- Up to `open`; `localiov` has 6 elements. -/
def ttymsg (before : UInt8) (turns : ℕ) (malloc : Bool) (iovcnt : ℕ) (line : Line) :
    Option Outcome :=
  if 6 < iovcnt then some .tooManyIovs
  else if !malloc then some .notEnoughMemory
  else (normalizePath before turns (pathTtyPfx ++ line.text)).map fun device =>
    if pathTtyPfx <+: device then .opened device else .badLineName line.text

/-! ### Two-dot components -/

section
variable {before : UInt8} {path : Text} {p i : ℕ}

/-- A two-dot component begins at `i`. -/
def DotdotAt (path : Text) (i : ℕ) : Prop :=
  (0 < i ∧ path[i - 1]? = some delim) ∧ path[i]? = some dot ∧ path[i + 1]? = some dot ∧
    (path[i + 2]? = none ∨ path[i + 2]? = some delim)

theorem byteAt_natCast (before : UInt8) (path : Text) (n : ℕ) :
    byteAt before path n = path.getD n 0 := by
  unfold byteAt
  rw [if_neg (by omega), Int.toNat_natCast]

theorem byteAt_eq_iff {c : UInt8} (hc : c ≠ 0) (n : ℕ) : byteAt before path n = c ↔
    path[n]? = some c := by
  rw [byteAt_natCast, getD_eq_getElem?_getD]
  cases path[n]? with
  | none => simp [Ne.symm hc]
  | some b => simp

theorem byteAt_eq_zero_iff (hnul : 0 ∉ path) (n : ℕ) : byteAt before path n = 0 ↔
    path[n]? = none := by
  rw [byteAt_natCast, getD_eq_getElem?_getD]
  cases hb : path[n]? with
  | none => simp
  | some b =>
    have hmem : b ∈ path := mem_of_getElem? hb
    simp only [getD_some, reduceCtorEq, iff_false]
    rintro rfl
    exact hnul hmem

theorem found_iff (hnul : 0 ∉ path) (hp : path[p]? = some dot) : found before path p ↔
    DotdotAt path p := by
  unfold found DotdotAt
  rcases Nat.eq_zero_or_pos p with rfl | hpos
  · simp
  have hprev : ((p : ℤ) - 1) = ((p - 1 : ℕ) : ℤ) := by omega
  have hnext : ((p : ℤ) + 1) = ((p + 1 : ℕ) : ℤ) := by omega
  have hend : ((p : ℤ) + 2) = ((p + 2 : ℕ) : ℤ) := by omega
  rw [hprev, hnext, hend]
  simp only [Bool.and_eq_true, Bool.or_eq_true, beq_iff_eq, decide_eq_true_eq,
    byteAt_eq_zero_iff hnul,
    byteAt_eq_iff (show delim ≠ 0 by decide), byteAt_eq_iff (show dot ≠ 0 by decide), hp, hpos,
    true_and, and_assoc]

theorem strchr_eq_none (h : strchr path p = none) : ∀ i, p ≤ i → path[i]? ≠ some dot := by
  intro i hi hdot
  unfold strchr at h
  rw [map_eq_none_iff, findIdx?_eq_none_iff] at h
  have hmem : dot ∈ path.drop p := by
    refine mem_of_getElem? (i := i - p) ?_
    rw [getElem?_drop, Nat.add_sub_cancel' hi, hdot]
  exact absurd (h dot hmem) (by decide)

theorem strchr_eq_some {k : ℕ} (h : strchr path p = some k) :
    p ≤ k ∧ k < path.length ∧ path[k]? = some dot ∧ ∀ i, p ≤ i → i < k → path[i]? ≠ some dot := by
  obtain ⟨j, hj, rfl⟩ := map_eq_some_iff.1 h
  obtain ⟨hlt, hdot, hfirst⟩ := List.findIdx?_eq_some_iff_getElem.1 hj
  rw [List.length_drop] at hlt
  rw [List.getElem_drop, beq_iff_eq] at hdot
  refine ⟨Nat.le_add_right p j, by omega, by rw [List.getElem?_eq_getElem (by omega), hdot], ?_⟩
  intro i hi hik hi'
  refine hfirst (i - p) (by omega) ?_
  rw [List.getElem_drop, beq_iff_eq]
  obtain ⟨_, hget⟩ := List.getElem?_eq_some_iff.1 hi'
  simpa only [Nat.add_sub_cancel' hi] using hget

theorem previous_spec (before : UInt8) (path : Text) (q : ℤ) (hq : -1 ≤ q) :
    previous before path q ≤ q ∧ -1 ≤ previous before path q ∧
      (0 ≤ previous before path q → path[(previous before path q).toNat]? = some delim) ∧
      ∀ j : ℕ, previous before path q < j → j ≤ q → path[j]? ≠ some delim := by
  induction hn : (q + 1).toNat generalizing q with
  | zero =>
    have hq' : ¬ (byteAt before path q ≠ delim ∧ 0 ≤ q) := fun h => by omega
    rw [previous, if_neg hq']
    exact ⟨le_rfl, hq, fun h0 => by omega, fun j h1 h2 => by omega⟩
  | succ n ih =>
    have h0 : 0 ≤ q := by omega
    have hcast : q = (q.toNat : ℤ) := by omega
    rw [previous]
    by_cases hd : byteAt before path q = delim
    · rw [if_neg (fun h => h.1 hd)]
      rw [hcast, byteAt_eq_iff (by decide)] at hd
      exact ⟨le_rfl, hq, fun _ => hd, fun j h1 h2 => by omega⟩
    · rw [if_pos ⟨hd, h0⟩]
      obtain ⟨hle, hlow, hat, hnone⟩ := ih (q - 1) (by omega) (by omega)
      refine ⟨by omega, hlow, hat, fun j h1 h2 => ?_⟩
      rcases eq_or_lt_of_le h2 with heq | hlt
      · intro hj
        rw [← heq, byteAt_eq_iff (by decide)] at hd
        exact hd hj
      · exact hnone j h1 (by omega)

/-- What a turn starts from: in front of `p` there is no two-dot component. -/
structure Scanned (path : Text) (p : ℕ) : Prop where
  head : ∀ c, path[0]? = some c → c = delim
  noNul : 0 ∉ path
  le : p ≤ path.length
  clean : ∀ i < p, ¬ DotdotAt path i

theorem dotdotAt_cut {q : ℕ} (hq : path[q]? = some delim) {rest : Text}
    (hrest : rest = [] ∨ rest.head? = some delim)
    (hi : i < q) (h : DotdotAt (path.take q ++ rest) i) : DotdotAt path i := by
  have hlt : q < path.length := (List.getElem?_eq_some_iff.1 hq).1
  have hlen : (path.take q).length = q := length_take_of_le hlt.le
  have hfront : ∀ j < q, (path.take q ++ rest)[j]? = path[j]? := fun j hj => by
    rw [getElem?_append_left (by omega), getElem?_take_of_lt hj]
  have hat : (path.take q ++ rest)[q]? = none ∨ (path.take q ++ rest)[q]? = some delim := by
    rw [getElem?_append_right (by omega), hlen, Nat.sub_self, ← head?_eq_getElem?]
    rcases hrest with rfl | hrest
    · exact .inl rfl
    · exact .inr hrest
  obtain ⟨⟨hpos, h1⟩, h2, h3, h4⟩ := h
  have hi1 : i + 1 ≠ q := by
    rintro rfl
    rcases hat with hat | hat
    · rw [h3] at hat
      exact absurd hat (by decide)
    · rw [h3] at hat
      exact absurd hat (by decide)
  rw [hfront _ (by omega)] at h1 h2 h3
  refine ⟨⟨hpos, h1⟩, h2, h3, ?_⟩
  rcases Nat.lt_or_ge (i + 2) q with hlt2 | hge
  · rwa [hfront _ hlt2] at h4
  · rw [show i + 2 = q by omega, hq]
    exact .inr rfl

theorem turn_decreases {path' : Text} {p' : ℕ} (ht : turn before path p = .again path' p') :
    p' ≤ path'.length ∧ path'.length + p < path.length + p' := by
  unfold turn at ht
  split at ht
  · exact nomatch ht
  · rename_i k hk
    obtain ⟨hpk, hklt, -, -⟩ := strchr_eq_some hk
    split at ht
    · rename_i hfound
      have hpos : 0 < k := by
        unfold found at hfound
        rw [Bool.and_eq_true, Bool.and_eq_true, Bool.and_eq_true, decide_eq_true_eq] at hfound
        exact hfound.1.1.1
      obtain ⟨hle, -, -, -⟩ := previous_spec before path ((k : ℤ) - 2) (by omega)
      unfold cut at ht
      split_ifs at ht with hneg
      injection ht with hpath hp
      subst hpath hp
      rw [length_append, length_take_of_le (by omega), length_drop]
      omega
    · injection ht with hpath hp
      subst hpath hp
      omega

theorem turn_again {path' : Text} {p' : ℕ} (h : Scanned path p)
    (ht : turn before path p = .again path' p') :
    Scanned path' p' := by
  have hle' := (turn_decreases ht).1
  unfold turn at ht
  split at ht
  · exact nomatch ht
  · rename_i k hk
    obtain ⟨hpk, hklt, hdot, hfirst⟩ := strchr_eq_some hk
    have hclean : ∀ i < k, ¬ DotdotAt path i := fun i hi hd => by
      rcases lt_or_ge i p with hip | hip
      · exact h.clean i hip hd
      · exact hfirst i hip hi hd.2.1
    split at ht
    · rename_i hfound
      rw [found_iff h.noNul hdot] at hfound
      obtain ⟨⟨hpos, -⟩, -, -, hend⟩ := hfound
      obtain ⟨hle, -, hat, -⟩ := previous_spec before path ((k : ℤ) - 2) (by omega)
      unfold cut at ht
      split_ifs at ht with hneg
      injection ht with hpath hp
      subst hpath hp
      have hq := hat (by omega)
      generalize hqe : (previous before path ((k : ℤ) - 2)).toNat = q at hq hle' ⊢
      have hlen : (path.take q).length = q := length_take_of_le (by omega)
      have hrest : path.drop (k + 2) = [] ∨ (path.drop (k + 2)).head? = some delim := by
        rw [head?_drop, drop_eq_nil_iff, ← getElem?_eq_none_iff]
        exact hend
      refine ⟨fun c hc => ?_, fun hmem => ?_, hle',
        fun i hi hd => hclean i (by omega) (dotdotAt_cut hq hrest hi hd)⟩
      · rcases Nat.eq_zero_or_pos q with rfl | hq0
        · rw [take_zero, nil_append, ← head?_eq_getElem?] at hc
          rcases hrest with hrest | hrest
          · rw [hrest] at hc
            exact nomatch hc
          · rw [hrest] at hc
            exact (some.inj hc).symm
        · rw [getElem?_append_left (by omega), getElem?_take_of_lt hq0] at hc
          exact h.head c hc
      · rcases mem_append.1 hmem with hmem | hmem
        · exact h.noNul (mem_of_mem_take hmem)
        · exact h.noNul (mem_of_mem_drop hmem)
    · rename_i hfound
      injection ht with hpath hp
      subst hpath hp
      rw [found_iff h.noNul hdot] at hfound
      refine ⟨h.head, h.noNul, hklt, fun i hi hd => ?_⟩
      rcases Nat.lt_succ_iff_lt_or_eq.1 hi with hi | rfl
      · exact hclean i hi hd
      · exact hfound hd

theorem turn_left {r : Text} (h : Scanned path p) (ht : turn before path p = .left r) :
    (∀ i, ¬ DotdotAt r i) ∨ r[1]? = some dot := by
  unfold turn at ht
  split at ht
  · rename_i hnone
    injection ht with hr
    subst hr
    refine .inl fun i hd => ?_
    rcases lt_or_ge i p with hip | hip
    · exact h.clean i hip hd
    · exact strchr_eq_none hnone i hip hd.2.1
  · rename_i k hk
    obtain ⟨-, hklt, hdot, -⟩ := strchr_eq_some hk
    split at ht
    · rename_i hfound
      rw [found_iff h.noNul hdot] at hfound
      obtain ⟨⟨hpos, hprev⟩, -⟩ := hfound
      obtain ⟨hle, hlow, -, hnone⟩ := previous_spec before path ((k : ℤ) - 2) (by omega)
      unfold cut at ht
      split_ifs at ht with hneg
      injection ht with hr
      subst hr
      have h0 : path[0]? = some delim := by
        rw [getElem?_eq_getElem (by omega)]
        exact congrArg some (h.head _ (getElem?_eq_getElem _))
      have hk1 : k = 1 := by
        by_contra hne
        exact hnone 0 (by omega) (by omega) h0
      subst hk1
      exact .inr hdot
    · exact nomatch ht

/-- **The loop ends**, and more turns do not change what comes out. -/
theorem eliminate_terminates : ∀ (n : ℕ) {path : Text} {p : ℕ},
    p ≤ path.length → path.length < n + p → ∃ r, ∀ m, n ≤ m → eliminate before m path p = some r
  | 0, _, _, hp, hn => by omega
  | n + 1, path, p, hp, hn => by
    cases ht : turn before path p with
    | again path' p' =>
      obtain ⟨hp', hlt⟩ := turn_decreases ht
      obtain ⟨r, hr⟩ := eliminate_terminates n hp' (by omega)
      refine ⟨r, fun m hm => ?_⟩
      obtain ⟨m, rfl⟩ := Nat.exists_eq_add_of_le' (show 1 ≤ m by omega)
      rw [eliminate, ht]
      exact hr m (by omega)
    | left r =>
      refine ⟨r, fun m hm => ?_⟩
      obtain ⟨m, rfl⟩ := Nat.exists_eq_add_of_le' (show 1 ≤ m by omega)
      rw [eliminate, ht]

theorem eliminate_spec : ∀ (n : ℕ) {path r : Text} {p : ℕ},
    Scanned path p → eliminate before n path p = some r → (∀ i, ¬ DotdotAt r i) ∨ r[1]? = some dot
  | 0, _, _, _, _, hr => nomatch hr
  | n + 1, path, r, p, h, hr => by
    unfold eliminate at hr
    split at hr
    · rename_i path' p' ht
      exact eliminate_spec n (turn_again h ht) hr
    · rename_i r' ht
      rw [← some.inj hr]
      exact turn_left h ht

end

/-! ### The device -/

theorem scanned_deleteTrailing {path : Text} (h0 : path.head? = some delim) (hnul : 0 ∉ path) :
    Scanned (deleteTrailing path) 0 := by
  have hpre : deleteTrailing path <+: path := by
    unfold deleteTrailing
    split_ifs
    · exact List.dropLast_prefix path
    · exact prefix_rfl
  refine ⟨fun c hc => ?_, fun hmem => hnul (hpre.subset hmem), Nat.zero_le _, fun i hi => by omega⟩
  obtain ⟨t, ht⟩ := hpre
  have hget : path[0]? = some c := by
    rw [← ht, getElem?_append_left (List.getElem?_eq_some_iff.1 hc).1, hc]
  rw [← head?_eq_getElem?, h0] at hget
  exact (some.inj hget).symm

theorem length_deleteTrailing_le (path : Text) : (deleteTrailing path).length ≤ path.length := by
  unfold deleteTrailing
  split_ifs
  · simp
  · exact le_rfl

/-- **`normalize_path` terminates** on every string. -/
theorem normalizePath_terminates (before : UInt8) (path : Text) :
    ∃ r, ∀ turns, path.length < turns → normalizePath before turns path = some r := by
  by_cases hnil : path = []
  · exact ⟨path, fun _ _ => if_pos hnil⟩
  · have hlen := length_deleteTrailing_le path
    obtain ⟨r, hr⟩ :
      ∃ r, ∀ m, path.length + 1 ≤ m → eliminate before m (deleteTrailing path) 0 = some r :=
      eliminate_terminates _ (Nat.zero_le _) (by omega)
    refine ⟨if r = [] then [delim] else r, fun turns hturns => ?_⟩
    unfold normalizePath
    rw [if_neg hnil, hr turns hturns]
    rfl

theorem normalizePath_spec {before : UInt8} {turns : ℕ} {path r : Text}
    (h0 : path.head? = some delim) (hnul : 0 ∉ path)
    (h : normalizePath before turns path = some r) : (∀ i, ¬ DotdotAt r i) ∨ r[1]? = some dot := by
  unfold normalizePath at h
  rw [if_neg (by rintro rfl; exact nomatch h0)] at h
  obtain ⟨r', hr', rfl⟩ := map_eq_some_iff.1 h
  split_ifs with hnil
  · refine .inl fun i hd => ?_
    have hi := hd.2.2.1
    rw [getElem?_eq_none (by simp)] at hi
    exact nomatch hi
  · exact eliminate_spec _ (scanned_deleteTrailing h0 hnul) hr'

theorem exists_dotdotAt {path : Text} (h0 : path.head? = some delim)
    (h : [dot, dot] ∈ path.splitOn delim) :
    ∃ i, DotdotAt path i := by
  obtain ⟨a, b, rfl, ha, hb⟩ := exists_append_of_mem_splitOn h
  rcases ha with rfl | ha
  · exact absurd (some.inj h0) (by decide)
  · have hne : a ≠ [] := by
      rintro rfl
      exact nomatch ha
    have hpos := length_pos_iff.2 hne
    refine ⟨a.length, ⟨hpos, ?_⟩, ?_, ?_, ?_⟩
    · rw [getElem?_append_left (by omega), ← getLast?_eq_getElem?, ha]
    · simp
    · rw [getElem?_append_right (by omega), Nat.add_sub_cancel_left]
      rfl
    · rw [getElem?_append_right (by omega), Nat.add_sub_cancel_left]
      show b[0]? = none ∨ b[0]? = some delim
      rw [← head?_eq_getElem?]
      rcases hb with rfl | hb
      · exact .inl rfl
      · exact .inr hb

/-- **Nothing outside the directory of the terminals is opened**, and `normalize_path` ends on every
string, whatever the byte in front of the string is. -/
theorem ttymsg_inside (before : UInt8) :
    (∀ path : Text, ∃ r, ∀ turns, path.length < turns → normalizePath before turns path = some r) ∧
      ∀ (turns : ℕ) (malloc : Bool) (iovcnt : ℕ) (line : Line) (device : Text),
        ttymsg before turns malloc iovcnt line = some (.opened device) →
          pathTtyPfx <+: device ∧ [dot, dot] ∉ device.splitOn delim := by
  refine ⟨normalizePath_terminates before, fun turns malloc iovcnt line device h => ?_⟩
  unfold ttymsg at h
  split_ifs at h
  · exact nomatch h
  · exact nomatch h
  obtain ⟨r, hr, hopen⟩ := map_eq_some_iff.1 h
  split_ifs at hopen with hpre
  injection hopen with hrd
  subst hrd
  refine ⟨hpre, fun hmem => ?_⟩
  have hnul : 0 ∉ pathTtyPfx ++ line.text := fun h0 => by
    rcases mem_append.1 h0 with h0 | h0
    · exact absurd h0 (by decide)
    · exact line.noNul h0
  obtain ⟨t, rfl⟩ := hpre
  rcases normalizePath_spec rfl hnul hr with hclean | hfirst
  · obtain ⟨i, hi⟩ := exists_dotdotAt rfl hmem
    exact hclean i hi
  · exact absurd (some.inj hfirst) (by decide)

/-- `"pts/1/"` -/
theorem ttymsg_inside_pts :
    pathTtyPfx <+: [47, 100, 101, 118, 47, 112, 116, 115, 47, 49] ∧
      [dot, dot] ∉ [47, 100, 101, 118, 47, 112, 116, 115, 47, 49].splitOn delim :=
  (ttymsg_inside 47).2 12 true 1 ⟨[112, 116, 115, 47, 49, 47], by decide, by decide⟩ _ (by decide)

end Inetutils.Libinetutils.Ttymsg
