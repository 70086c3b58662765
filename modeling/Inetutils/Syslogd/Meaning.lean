import Inetutils.Syslogd.Selectors

/-! # What the selectors mean

A selector names facilities and a level. It adds the level and all that are higher, or with `=` only
the level, to what is selected of the facilities; `none` removes everything, and with `!` what is
added is removed, and the other way around. -/

namespace Inetutils.Syslogd.Meaning

open Telnet.Proto Proto Selectors List
open Lib.Decimal (isDigit value)
open Lib.Letters

/-! ### Selectors -/

inductive FacilityName
  | all
  | others
  | named (name : Text)

inductive Level
  | all
  | none (name : Text)
  | named (name : Text)

/-- Facilities, the modifiers of the level, the level, and what parts the selector from the next. -/
structure Selector where
  first : FacilityName
  more : List FacilityName
  modifiers : Text
  level : Level
  separators : Text

def levelNumber (name : Text) : Option ℕ :=
  if isDigit (name.headD 0) then
    if name.all isDigit ∧ value 0 name ≤ LOG_PRIMASK then some (value 0 name) else none
  else ((prioritynames.find? fun c => sameCase name c.1).map fun c => c.2.toNat).filter
    (· ≤ LOG_PRIMASK)

/-- The number of a facility: its name, or its code, which is the eightfold. -/
def facilityNumber (name : Text) : Option ℕ :=
  if isDigit (name.headD 0) then
    if name.all isDigit ∧ 8 ∣ value 0 name ∧ value 0 name ≤ 8 * LOG_NFACILITIES then some
    (value 0 name / 8) else none
  else (facilitynames.find? fun c => sameCase name c.1).map fun c => c.2.toNat / 8

def FacilityName.text : FacilityName → Text
  | all => [42]
  | others => [42, 42]
  | named name => name

def Level.text : Level → Text
  | all => [42]
  | none name => name
  | named name => name

def Selector.facilities (s : Selector) : List FacilityName := s.first :: s.more

def Selector.text (s : Selector) : Text :=
  s.first.text ++
    (s.more.flatMap (fun f => 44 :: f.text) ++ 46 :: (s.modifiers ++ s.level.text ++ s.separators))

def FacilityName.Good : FacilityName → Prop
  | named name => (facilityNumber name).isSome
  | _ => True

def Level.Good : Level → Prop
  | all => True
  | none name => sameCase name (ascii "none")
  | named name => (levelNumber name).isSome

structure Selector.Good (s : Selector) : Prop where
  facilities : ∀ f ∈ s.facilities, f.Good
  modifiers : ∀ c ∈ s.modifiers, modifier c
  level : s.level.Good
  separators : ∀ c ∈ s.separators, cruft c

def WellFormed : List Selector → Prop
  | [] => True
  | s :: ss => s.Good ∧ (s.separators ≠ [] ∨ ss = []) ∧ WellFormed ss

def render (ss : List Selector) : Text := ss.flatMap Selector.text

def AtAction (rest : Text) : Prop := ∀ c ∈ rest.head?, blank c

/-! ### Their meaning -/

/-- Which priorities are selected of a facility, and which facilities have been named. -/
structure Selection where
  selects : ℕ → ℕ → Bool
  named : ℕ → Bool

variable {x : Selection} {s : Selector} {w : Text}

def FacilityName.covers (named : ℕ → Bool) : FacilityName → ℕ → Bool
  | all, _ => true
  | others, i => !named i
  | .named name, i => facilityNumber name = some i

def FacilityName.names : FacilityName → ℕ → Bool
  | named name, i => facilityNumber name = some i
  | _, _ => false

/-- The priorities that a level is about: of two, the higher one has the smaller number. -/
def Level.chosen (excl : Bool) : Level → ℕ → Bool
  | all, _ => true
  | none _, _ => true
  | named name, p => (levelNumber name).any fun n => if excl then p = n else p ≤ n

def Level.adds : Level → Bool
  | none _ => false
  | _ => true

def Selector.apply (s : Selector) (x : Selection) (f : FacilityName) : Selection :=
  { selects := fun i p =>
      if f.covers x.named i && s.level.chosen (s.modifiers.contains 61) p then
        s.level.adds != s.modifiers.contains 33
      else x.selects i p
    named := fun i => x.named i || f.names i }

/-- **The meaning** of the selectors, in order. -/
def meaning (x : Selection) (ss : List Selector) : Selection :=
  ss.foldl (fun x s => s.facilities.foldl s.apply x) x

/-! ### The names of the tables -/

def special : List Byte := [9, 32, 33, 42, 44, 46, 59, 61]

def plain (c : Byte) : Bool := !special.contains c

def Plain (w : Text) : Prop := w ≠ [] ∧ ∀ c ∈ w, plain c

variable {c : Byte} {f : FacilityName} {ss : List Selector} {rest : Text}
  {y : BitVec 32 × BitVec 32} {i : ℕ} {m : Masks}

theorem mem_special (h : ¬ plain c) : c ∈ special := by
  unfold plain at h
  rw [Bool.not_eq_true', Bool.not_eq_false] at h
  exact contains_iff_mem.1 h

theorem plain_of_tolower (h : plain (tolower c)) : plain c := by
  by_contra hc
  have hlower : (special.all fun c => tolower c = c) = true := by decide +kernel
  rw [of_decide_eq_true (all_eq_true.1 hlower c (mem_special hc))] at h
  exact hc h

theorem plain_of_isDigit (h : isDigit c) : plain c := by
  by_contra hc
  have hdigit : (special.all fun c => isDigit c = false) = true := by decide +kernel
  rw [of_decide_eq_true (all_eq_true.1 hdigit c (mem_special hc))] at h
  cases h

theorem plain_of_sameCase {v : Text} (h : sameCase w v) (hv : Plain (v.map tolower)) : Plain w := by
  have hmap : w.map tolower = v.map tolower := eq_of_beq h
  refine ⟨fun hw => hv.1 ?_, fun c hc => plain_of_tolower (hv.2 _ ?_)⟩
  · rw [← hmap, hw]
    rfl
  · rw [← hmap]
    exact mem_map_of_mem hc

theorem plain_table : ∀ e ∈ prioritynames ++ facilitynames, Plain (e.1.map tolower) := by
  have h : ∀ e ∈ prioritynames ++ facilitynames,
    e.1.map tolower ≠ [] ∧ (e.1.map tolower).all plain := by decide +kernel
  exact fun e he => ⟨(h e he).1, all_eq_true.1 (h e he).2⟩

theorem plain_digits (h0 : isDigit (w.headD 0)) (h : w.all isDigit) : Plain w := by
  constructor
  · rintro rfl
    cases h0
  · exact fun c hc => plain_of_isDigit (all_eq_true.1 h c hc)

theorem atoi_digits (h : w.all isDigit) (hvalue : value 0 w < 2 ^ 31) : atoi w = value 0 w := by
  have hall : w.takeWhile isDigit = w := takeWhile_eq_self_iff.2 (all_eq_true.1 h)
  unfold atoi
  rw [hall, min_eq_left (by omega), Int.bmod_eq_of_le (by omega) (by omega)]

theorem levelNumber_some {n : ℕ} (h : levelNumber w = some n) :
    Plain w ∧ decode w prioritynames = n ∧ n ≤ LOG_PRIMASK := by
  unfold levelNumber at h
  unfold decode
  split_ifs at h ⊢ with h0 hdigits
  · obtain ⟨hall, hle⟩ := hdigits
    obtain rfl := Option.some_inj.1 h
    exact ⟨plain_digits h0 hall, atoi_digits hall (lt_of_le_of_lt hle (by decide)), hle⟩
  · obtain ⟨hmap, hle⟩ := Option.filter_eq_some_iff.1 h
    obtain ⟨e, he, rfl⟩ := Option.map_eq_some_iff.1 hmap
    have hmem := mem_of_find?_eq_some he
    have hnonneg : ∀ e ∈ prioritynames, 0 ≤ e.2 := by decide
    refine ⟨plain_of_sameCase (find?_some (p := fun c : Text × ℤ => sameCase w c.1) he)
      (plain_table e (mem_append_left _ hmem)), ?_, of_decide_eq_true hle⟩
    rw [he]
    exact (Int.toNat_of_nonneg (hnonneg e hmem)).symm

theorem facilityNumber_some {k : ℕ} (h : facilityNumber w = some k) :
    Plain w ∧ decode w facilitynames = (8 * k : ℕ) ∧ k ≤ LOG_NFACILITIES := by
  unfold facilityNumber at h
  unfold decode
  split_ifs at h ⊢ with h0 hdigits
  · obtain ⟨hall, hdvd, hle⟩ := hdigits
    obtain rfl := Option.some_inj.1 h
    rw [Nat.mul_div_cancel' hdvd]
    exact ⟨plain_digits h0 hall, atoi_digits hall (lt_of_le_of_lt hle (by decide)), by omega⟩
  · obtain ⟨e, he, rfl⟩ := Option.map_eq_some_iff.1 h
    have hmem := mem_of_find?_eq_some he
    have hcodes : ∀ e ∈ facilitynames, e.2 = (8 * (e.2.toNat / 8) : ℕ) ∧
      e.2.toNat / 8 ≤ LOG_NFACILITIES := by decide
    refine ⟨plain_of_sameCase (find?_some (p := fun c : Text × ℤ => sameCase w c.1) he)
      (plain_table e (mem_append_right _ hmem)), ?_, (hcodes e hmem).2⟩
    rw [he]
    exact (hcodes e hmem).1

theorem decode_none (h : sameCase w (ascii "none")) : Plain w ∧ decode w prioritynames = nopri := by
  have hplain : Plain w :=
    plain_of_sameCase h (plain_table (ascii "none", nopri) (mem_append_left _ (by decide)))
  have hmap : w.map tolower = (ascii "none").map tolower := eq_of_beq h
  have h0 : isDigit (w.headD 0) = false := by
    obtain ⟨c, r, rfl⟩ := exists_cons_of_ne_nil hplain.1
    have hc : tolower c = 110 := (List.cons.inj hmap).1
    have hdigit : ∀ c, isDigit c → tolower c = c := by
      intro c hc
      unfold isDigit at hc
      unfold tolower isupper
      rw [if_neg]
      rw [Bool.and_eq_true, decide_eq_true_eq, UInt8.le_iff_toNat_le]
      simp only [Bool.and_eq_true, decide_eq_true_eq] at hc
      change ¬ (65 ≤ c.toNat ∧ _)
      omega
    by_contra hne
    have hdig : isDigit c = true := by simpa using hne
    have h110 := hdigit c hdig
    rw [hc] at h110
    subst h110
    cases hdig
  refine ⟨hplain, ?_⟩
  unfold decode
  rw [if_neg (by rw [h0]; decide)]
  have hfind : (prioritynames.find? fun c => sameCase w c.1) = prioritynames.find? fun c =>
    sameCase (ascii "none") c.1 := by
    unfold sameCase
    rw [hmap]
  rw [hfind]
  decide

/-! ### The names of a line that is well formed -/

theorem inFacility_of_plain (h : plain c) : inFacility c := by
  by_contra hc
  have hends : ∀ c, ¬ inFacility c → c ∈ special := by
    intro c hc
    simp only [inFacility, facilitiesEnd, blank, Bool.not_eq_true', Bool.not_eq_false,
      Bool.or_eq_true, beq_iff_eq] at hc
    rcases hc with (((rfl | rfl) | rfl) | rfl) | rfl <;> decide
  have := contains_iff_mem.2 (hends c hc)
  rw [plain, this] at h
  cases h

theorem inPriority_of_inFacility (h : inFacility c) : inPriority c := by
  unfold inFacility facilitiesEnd at h
  unfold inPriority
  simp only [Bool.not_eq_true', Bool.or_eq_false_iff] at h ⊢
  exact ⟨⟨h.1.1.1, h.2⟩, h.1.2⟩

theorem not_modifier_of_plain (h : plain c) : modifier c = false := by
  by_contra hc
  have hmem : c ∈ special := by
    simp only [modifier, Bool.not_eq_false, Bool.or_eq_true, beq_iff_eq] at hc
    rcases hc with rfl | rfl <;> decide
  rw [plain, contains_iff_mem.2 hmem] at h
  cases h

theorem starred_of_plain (h : Plain w) : starred w = false := by
  obtain ⟨c, r, rfl⟩ := exists_cons_of_ne_nil h.1
  have hc : c ≠ 42 := by
    rintro rfl
    exact absurd (h.2 42 mem_cons_self) (by decide)
  simp [starred, hc]

def Word (w : Text) : Prop := w ≠ [] ∧ ∀ c ∈ w, inFacility c

theorem FacilityName.Good.word (h : f.Good) : Word f.text := by
  cases f with
  | all => exact ⟨cons_ne_nil _ _, by decide +kernel⟩
  | others => exact ⟨cons_ne_nil _ _, by decide +kernel⟩
  | named name =>
    obtain ⟨k, hk⟩ := Option.isSome_iff_exists.1 h
    obtain ⟨⟨hne, hall⟩, -, -⟩ := facilityNumber_some hk
    exact ⟨hne, fun c hc => inFacility_of_plain (hall c hc)⟩

theorem Level.Good.word {l : Level} (h : l.Good) : Word l.text ∧ ∀ c ∈ l.text.head?,
    modifier c = false := by
  have hplain : ∀ w, Plain w → Word w ∧ ∀ c ∈ w.head?, modifier c = false := fun w hw =>
    ⟨⟨hw.1, fun c hc => inFacility_of_plain (hw.2 c hc)⟩,
      fun c hc => not_modifier_of_plain (hw.2 c (mem_of_head? hc))⟩
  cases l with
  | all => exact ⟨⟨cons_ne_nil _ _, by decide +kernel⟩, by decide +kernel⟩
  | none name => exact hplain name (decode_none h).1
  | named name =>
    obtain ⟨n, hn⟩ := Option.isSome_iff_exists.1 h
    exact hplain name (levelNumber_some hn).1

theorem takeWhile_word {p : Byte → Bool} {r : Text} (hw : ∀ c ∈ w, p c)
    (hr : ∀ c ∈ r.head?, p c = false) :
    (w ++ r).takeWhile p = w ∧ (w ++ r).dropWhile p = r := by
  rw [takeWhile_append_of_pos hw, dropWhile_append_of_pos hw]
  cases r with
  | nil => exact ⟨append_nil w, rfl⟩
  | cons c r =>
    have hc : ¬ p c = true := by rw [hr c rfl]; decide
    rw [takeWhile_cons_of_neg hc, dropWhile_cons_of_neg hc]
    exact ⟨append_nil w, rfl⟩

theorem pastDot_word (h : ∀ c ∈ w, inFacility c ∨ c = 44) (r : Text) :
    pastDot (w ++ 46 :: r) = r := by
  induction w with
  | nil => rfl
  | cons c w ih =>
    have hc : c ≠ 9 ∧ c ≠ 46 := by
      constructor <;> rintro rfl <;> exact absurd (h _ mem_cons_self) (by decide)
    rw [cons_append, pastDot, if_neg hc.1, if_neg hc.2]
    exact ih fun b hb => h b (mem_cons_of_mem c hb)

theorem facilityNames_text {ws : List Text} (hw : Word w) (hws : ∀ v ∈ ws, Word v) (r : Text) :
    facilityNames (w ++ (ws.flatMap (44 :: ·) ++ 46 :: r)) = w :: ws := by
  have step : ∀ w : Text, Word w → ∀ t : Text, (∀ c ∈ t.head?, inFacility c = false) →
      facilityNames (w ++ t) = w :: facilityNames (t.dropWhile skipped) := by
    intro w hw t ht
    obtain ⟨c, w', rfl⟩ := exists_cons_of_ne_nil hw.1
    have hc : facilitiesEnd c = false := by
      have := hw.2 c mem_cons_self
      rw [inFacility, Bool.not_eq_true'] at this
      exact (Bool.or_eq_false_iff.1 this).1
    obtain ⟨htake, hdrop⟩ := takeWhile_word hw.2 ht
    rw [cons_append] at htake hdrop ⊢
    rw [facilityNames, dif_neg (by rw [hc]; decide), htake, afterFacility, hdrop]
  have head (d : Byte) (hd : inFacility d = false) (t : Text) :
      ∀ c ∈ (d :: t).head?, inFacility c = false := by
    rintro c ⟨⟩
    exact hd
  induction ws generalizing w with
  | nil =>
    rw [flatMap_nil, nil_append, step w hw _ (head 46 rfl r), dropWhile_cons_of_neg (by decide),
      facilityNames, dif_pos (by decide)]
  | cons v ws ih =>
    have hv := hws v mem_cons_self
    obtain ⟨c, v', hcv⟩ := exists_cons_of_ne_nil hv.1
    have hskip : skipped c = false := by
      have hin : inFacility c := hv.2 c (by rw [hcv]; exact mem_cons_self)
      by_contra hne
      rw [Bool.not_eq_false, skipped, Bool.or_eq_true, beq_iff_eq, beq_iff_eq] at hne
      rcases hne with rfl | rfl <;> cases hin
    have hdrop : (44 :: (v ++ (ws.flatMap (44 :: ·) ++ 46 :: r))).dropWhile skipped =
        v ++ (ws.flatMap (44 :: ·) ++ 46 :: r) := by
      rw [dropWhile_cons_of_pos (by decide), hcv, cons_append,
        dropWhile_cons_of_neg (by rw [hskip]; decide)]
    rw [flatMap_cons, append_assoc, cons_append, step w hw _ (head 44 rfl _), hdrop,
      ih hv fun u hu => hws u (mem_cons_of_mem v hu)]

def Selector.names (s : Selector) : Names :=
  ⟨s.modifiers ++ s.level.text, s.facilities.map FacilityName.text⟩

theorem head_render (h : WellFormed ss) (hrest : AtAction rest) :
    ∀ c ∈ (render ss ++ rest).head?, cruft c = false := by
  intro c hc
  cases ss with
  | nil =>
    have hblank := hrest c hc
    rw [blank, Bool.or_eq_true, beq_iff_eq, beq_iff_eq] at hblank
    rcases hblank with rfl | rfl <;> rfl
  | cons s ss =>
    obtain ⟨hgood, -, -⟩ := h
    obtain ⟨hne, hall⟩ := (hgood.facilities s.first mem_cons_self).word
    obtain ⟨d, w, hw⟩ := exists_cons_of_ne_nil hne
    rw [render, flatMap_cons, Selector.text, hw] at hc
    obtain rfl : d = c := Option.some_inj.1 hc
    have hin : inFacility d := hall d (by rw [hw]; exact mem_cons_self)
    by_contra hcruft
    rw [Bool.not_eq_false, cruft, Bool.or_eq_true, beq_iff_eq, beq_iff_eq] at hcruft
    rcases hcruft with rfl | rfl <;> cases hin

/-- **A line that is well formed** is read as it is written. -/
theorem names_render (h : WellFormed ss) (hrest : AtAction rest) :
    Selectors.names (render ss ++ rest) = (ss.map Selector.names, rest) := by
  induction ss with
  | nil =>
    rw [render, flatMap_nil, nil_append, map_nil]
    cases rest with
    | nil =>
      rw [Selectors.names]
    | cons c rest => rw [Selectors.names, dif_pos (hrest c rfl)]
  | cons s ss ih =>
    obtain ⟨hgood, hsep, hss⟩ := h
    have hnext := head_render hss hrest
    obtain ⟨hlevel, hmodifier⟩ := hgood.level.word
    have hfirst := (hgood.facilities s.first mem_cons_self).word
    have hmore : ∀ v ∈ s.more.map FacilityName.text, Word v := by
      intro v hv
      obtain ⟨f, hf, rfl⟩ := mem_map.1 hv
      exact (hgood.facilities f (mem_cons_of_mem _ hf)).word
    have hfacilities :
        ∀ r, facilityNames (s.first.text ++ (s.more.flatMap (fun f => 44 :: f.text) ++ 46 :: r)) =
        s.facilities.map FacilityName.text := by
      intro r
      have := facilityNames_text hfirst hmore r
      rwa [flatMap_map] at this
    have hdot :
        ∀ r, pastDot (s.first.text ++ (s.more.flatMap (fun f => 44 :: f.text) ++ 46 :: r)) = r := by
      intro r
      rw [← append_assoc]
      refine pastDot_word (fun c hc => ?_) r
      rcases mem_append.1 hc with hc | hc
      · exact .inl (hfirst.2 c hc)
      · obtain ⟨f, hf, hc⟩ := mem_flatMap.1 hc
        rcases mem_cons.1 hc with rfl | hc
        · exact .inr rfl
        · exact .inl ((hgood.facilities f (mem_cons_of_mem _ hf)).word.2 c hc)
    have hpriority : ∀ c ∈ s.modifiers ++ s.level.text, inPriority c := by
      intro c hc
      rcases mem_append.1 hc with hc | hc
      · have := hgood.modifiers c hc
        rw [modifier, Bool.or_eq_true, beq_iff_eq, beq_iff_eq] at this
        rcases this with rfl | rfl <;> rfl
      · exact inPriority_of_inFacility (hlevel.2 c hc)
    have htail : ∀ c ∈ (s.separators ++ (render ss ++ rest)).head?, inPriority c = false := by
      intro c hc
      cases hs : s.separators with
      | nil =>
        obtain rfl : ss = [] := hsep.resolve_left fun hne => hne hs
        rw [hs] at hc
        have hblank := hrest c hc
        rw [inPriority, hblank]
        rfl
      | cons d sep =>
        rw [hs] at hc
        obtain rfl : d = c := Option.some_inj.1 hc
        have hcruft := hgood.separators d (by rw [hs]; exact mem_cons_self)
        rw [cruft, Bool.or_eq_true, beq_iff_eq, beq_iff_eq] at hcruft
        rcases hcruft with rfl | rfl <;> rfl
    generalize hX : render ss ++ rest = X at *
    have htext :
        render (s :: ss) ++ rest = s.first.text ++ (s.more.flatMap (fun f => 44 :: f.text) ++
        46 :: ((s.modifiers ++ s.level.text) ++ (s.separators ++ X))) := by
      rw [← hX, render, flatMap_cons, Selector.text]
      simp only [append_assoc, cons_append]
      rfl
    obtain ⟨c, p, hp⟩ := exists_cons_of_ne_nil (show render (s :: ss) ++ rest ≠ [] by
      rw [htext]
      exact append_ne_nil_of_left_ne_nil hfirst.1 _)
    have hblank : blank c = false := by
      obtain ⟨d, w, hw⟩ := exists_cons_of_ne_nil hfirst.1
      rw [htext, hw] at hp
      obtain rfl : d = c := (List.cons.inj hp).1
      have hin : inFacility d := hfirst.2 d (by rw [hw]; exact mem_cons_self)
      by_contra hne
      rw [Bool.not_eq_false, blank, Bool.or_eq_true, beq_iff_eq, beq_iff_eq] at hne
      rcases hne with rfl | rfl <;> cases hin
    obtain ⟨htake, hdrop⟩ := takeWhile_word hpriority htail
    have hcruft := (takeWhile_word hgood.separators hnext).2
    have hpast := hdot ((s.modifiers ++ s.level.text) ++ (s.separators ++ X))
    have hnames := hfacilities ((s.modifiers ++ s.level.text) ++ (s.separators ++ X))
    rw [← htext, hp] at hpast hnames
    rw [hp, Selectors.names, dif_neg (by rw [hblank]; decide), nextSelector, hpast, htake, hdrop,
      hcruft, hnames, ih hss]
    rfl

/-! ### The masks that are set -/

def bit (b : Byte) (p : ℕ) : Bool := b.toBitVec.getLsbD p

theorem bit_change (x : BitVec 32 × BitVec 32) (b : Byte) {p : ℕ} (hp : p < 8) :
    bit (change x b) p = (bit b p && !x.1.getLsbD p || x.2.getLsbD p) := by
  have hp32 : p < 32 := by omega
  simp [bit, change, hp, hp32]

theorem upto_bit : ∀ n ≤ LOG_PRIMASK, ∀ p < 8, (upto n).getLsbD p = decide (p ≤ n) := by decide

theorem maskOf_bit : ∀ n ≤ LOG_PRIMASK, ∀ p < 8, (maskOf n).getLsbD p = decide (p = n) := by decide

structure Stands (m : Masks) (x : Selection) : Prop where
  selects : ∀ i ≤ LOG_NFACILITIES, ∀ p < 8, bit (m.pmask i) p = x.selects i p
  seen : ∀ i ≤ LOG_NFACILITIES, m.seen.getLsbD i = x.named i

def Sets (s : Selector) (y : BitVec 32 × BitVec 32) : Prop :=
  ∀ b, ∀ p < 8, bit (change y b) p =
    if s.level.chosen (s.modifiers.contains 61) p then s.level.adds !=
    s.modifiers.contains 33 else bit b p

theorem sets_mask (mask : BitVec 32)
    (h : ∀ p < 8, mask.getLsbD p = s.level.chosen (s.modifiers.contains 61) p)
    (hy : y = if s.level.adds then (0, mask) else (mask, 0)) :
    Sets s (if s.modifiers.contains 33 then y.swap else y) := by
  intro b p hp
  rw [bit_change _ _ hp, hy]
  cases s.level.adds <;> cases s.modifiers.contains 33 <;>
    cases hchosen : s.level.chosen (s.modifiers.contains 61) p <;> simp_all

theorem priority_sets (h : s.Good) (m : Masks) :
    ∃ y, priority s.names.priority m = .ok y ∧ Sets s y := by
  obtain ⟨hword, hhead⟩ := h.level.word
  obtain ⟨htake, hdrop⟩ := takeWhile_word h.modifiers hhead
  unfold priority Selector.names
  rw [htake, hdrop]
  cases hl : s.level with
  | all =>
    refine ⟨_, if_pos rfl, sets_mask (upto LOG_PRIMASK) (fun p hp => ?_) (by rw [hl]; rfl)⟩
    rw [hl, upto_bit _ (by decide) p hp]
    exact decide_eq_true (Nat.le_of_lt_succ hp)
  | none name =>
    obtain ⟨hplain, hdecode⟩ := decode_none (show (Level.none name).Good from hl ▸ h.level)
    have hall : ∀ p < 8, (255 : BitVec 32).getLsbD p = true := by decide
    rw [Level.text, if_neg (by rw [starred_of_plain hplain]; decide), hdecode,
      if_neg (by decide), if_pos rfl]
    refine ⟨_, rfl, sets_mask 255 (fun p hp => ?_) (by rw [hl]; rfl)⟩
    rw [hl, hall p hp]
    rfl
  | named name =>
    obtain ⟨n, hn⟩ := Option.isSome_iff_exists.1 (show (Level.named name).Good from hl ▸ h.level)
    obtain ⟨hplain, hdecode, hle⟩ := levelNumber_some hn
    have hle7 : n ≤ 7 := hle
    rw [Level.text, if_neg (by rw [starred_of_plain hplain]; decide), hdecode, if_neg (by omega),
      if_neg (by unfold nopri; omega)]
    by_cases hexcl : s.modifiers.contains 61
    · rw [if_pos hexcl, if_neg (by omega)]
      refine ⟨_, rfl, sets_mask (maskOf n) (fun p hp => ?_) (by rw [hl]; rfl)⟩
      rw [hl, maskOf_bit n hle p hp, Level.chosen, hn, hexcl]
      rfl
    · rw [if_neg hexcl, if_neg (by omega)]
      refine ⟨_, rfl, sets_mask (upto n) (fun p hp => ?_) (by rw [hl]; rfl)⟩
      rw [hl, upto_bit n hle p hp, Level.chosen, hn, Bool.eq_false_iff.2 hexcl]
      rfl

theorem one_shift_bit {k : ℕ} (hi : i < 32) : (1#32 <<< k).getLsbD i = decide (i = k) := by
  rw [BitVec.getLsbD_shiftLeft, BitVec.getLsbD_one]
  by_cases hik : i = k
  · simp [hik, hik ▸ hi]
  · rw [decide_eq_false hik]
    by_cases hlt : i < k
    · simp [hlt]
    · simp [show i - k ≠ 0 by omega]

theorem seen_iff (hi : i < 32) {seen : BitVec 32} :
    1#32 <<< i &&& seen ≠ 0 ↔ seen.getLsbD i = true := by
  constructor
  · intro hne
    by_contra hbit
    refine hne (BitVec.eq_of_getLsbD_eq fun j hj => ?_)
    rw [BitVec.getLsbD_and, one_shift_bit hj, show (0 : BitVec 32) = 0#32 from rfl,
      BitVec.getLsbD_zero]
    by_cases hji : j = i
    · rw [hji, Bool.eq_false_iff.2 hbit, Bool.and_false]
    · rw [decide_eq_false hji, Bool.false_and]
  · intro hbit hzero
    have hi' := congrArg (fun v => v.getLsbD i) hzero
    rw [BitVec.getLsbD_and, one_shift_bit hi, show (0 : BitVec 32) = 0#32 from rfl,
      BitVec.getLsbD_zero, decide_eq_true rfl, hbit] at hi'
    cases hi'

theorem facOf_code : ∀ k ≤ LOG_NFACILITIES, facOf (8 * k : ℕ) = k := by decide

theorem selects_of_covers (h : f.covers x.named i = true) (p : ℕ) :
    (s.apply x f).selects i p =
      if s.level.chosen (s.modifiers.contains 61) p then s.level.adds !=
      s.modifiers.contains 33 else x.selects i p := by
  unfold Selector.apply
  dsimp only
  rw [h, Bool.true_and]

theorem selects_of_not_covers (h : f.covers x.named i = false) (p : ℕ) :
    (s.apply x f).selects i p = x.selects i p := by
  unfold Selector.apply
  dsimp only
  rw [h, Bool.false_and, if_neg Bool.false_ne_true]

theorem facility_stands (hy : Sets s y) (hf : f.Good) (hm : Stands m x) :
    ∃ m', facility y f.text m = .ok m' ∧ Stands m' (s.apply x f) := by
  cases f with
  | all =>
    refine ⟨_, if_pos rfl, fun i hi p hp => ?_, fun i hi => ?_⟩
    · have hcond : i ≤ LOG_NFACILITIES ∧
        ¬ (FacilityName.all.text[1]? = some 42 ∧ 1#32 <<< i &&& m.seen ≠ 0) :=
        ⟨hi, fun h => by cases h.1⟩
      dsimp only
      rw [if_pos hcond, hy _ p hp, hm.selects i hi p hp, selects_of_covers rfl]
    · exact (hm.seen i hi).trans (Bool.or_false _).symm
  | others =>
    refine ⟨_, if_pos rfl, fun i hi p hp => ?_, fun i hi => ?_⟩
    · have hcond : (i ≤ LOG_NFACILITIES ∧
          ¬ (FacilityName.others.text[1]? = some 42 ∧ 1#32 <<< i &&& m.seen ≠ 0)) ↔
          x.named i = false := by
        rw [and_iff_right hi, and_iff_right (show FacilityName.others.text[1]? = some 42 from rfl),
          seen_iff (lt_of_le_of_lt hi (by decide)), hm.seen i hi, Bool.not_eq_true]
      dsimp only
      cases hnamed : x.named i with
      | true =>
        have hcovers :
            FacilityName.others.covers x.named i = false := by rw [FacilityName.covers, hnamed]; rfl
        rw [if_neg (by rw [hcond, hnamed]; decide), hm.selects i hi p hp,
          selects_of_not_covers hcovers]
      | false =>
        have hcovers :
            FacilityName.others.covers x.named i = true := by rw [FacilityName.covers, hnamed]; rfl
        rw [if_pos (hcond.2 hnamed), hy _ p hp, hm.selects i hi p hp, selects_of_covers hcovers]
    · exact (hm.seen i hi).trans (Bool.or_false _).symm
  | named name =>
    obtain ⟨k, hk⟩ := Option.isSome_iff_exists.1 (show (facilityNumber name).isSome from hf)
    obtain ⟨hplain, hdecode, hle⟩ := facilityNumber_some hk
    have hfac : facOf (8 * k : ℕ) = k := facOf_code k hle
    have hle24 : k ≤ 24 := hle
    unfold facility FacilityName.text
    dsimp only
    rw [if_neg (by rw [starred_of_plain hplain]; decide), hdecode, hfac, if_neg (by omega),
      if_neg (by omega),
      if_neg (by omega)]
    refine ⟨_, rfl, fun i hi p hp => ?_, fun i hi => ?_⟩
    · dsimp only
      by_cases hik : i = k
      · subst hik
        have hcovers : (FacilityName.named name).covers x.named i = true := decide_eq_true hk
        rw [Function.update_self, hy _ p hp, hm.selects i hi p hp, selects_of_covers hcovers]
      · have hne : facilityNumber name ≠ some i := by
          rw [hk]
          exact fun h => hik (Option.some_inj.1 h).symm
        have hcovers : (FacilityName.named name).covers x.named i = false := decide_eq_false hne
        rw [Function.update_of_ne hik, hm.selects i hi p hp, selects_of_not_covers hcovers]
    · dsimp only
      unfold Selector.apply FacilityName.names
      dsimp only
      rw [BitVec.getLsbD_or, hm.seen i hi, hk, one_shift_bit (lt_of_le_of_lt hi (by decide))]
      simp [eq_comm]

/-! ### All selectors -/

theorem copied_cases {α : Type} (buf : Text) (k : Except Stop α) :
    copied buf k = .error .fault ∨ copied buf k = k := by
  unfold copied
  split_ifs
  · exact .inl rfl
  · exact .inr rfl

theorem facilityList_stands (hy : Sets s y) {fs : List FacilityName} (hfs : ∀ f ∈ fs, f.Good)
    (hm : Stands m x) :
    facilityList y (fs.map FacilityName.text) m = .error .fault ∨
      ∃ m', facilityList y (fs.map FacilityName.text) m = .ok m' ∧
      Stands m' (fs.foldl s.apply x) := by
  induction fs generalizing m x with
  | nil => exact .inr ⟨m, rfl, hm⟩
  | cons f fs ih =>
    obtain ⟨m', hm', hstands⟩ := facility_stands hy (hfs f mem_cons_self) hm
    rw [map_cons, facilityList, hm']
    rcases copied_cases f.text
      ((Except.ok m').bind (facilityList y (fs.map FacilityName.text))) with hfault | hok
    · exact .inl hfault
    · rw [hok]
      exact ih (fun g hg => hfs g (mem_cons_of_mem f hg)) hstands

theorem selector_stands (hs : s.Good) (hm : Stands m x) :
    selector s.names m = .error .fault ∨
      ∃ m', selector s.names m = .ok m' ∧ Stands m' (s.facilities.foldl s.apply x) := by
  obtain ⟨y, hpri, hy⟩ := priority_sets hs m
  unfold selector
  rw [hpri]
  rcases copied_cases s.names.priority
    ((Except.ok y).bind fun x => facilityList x s.names.facilities m) with
    hfault | hok
  · exact .inl hfault
  · rw [hok]
    exact facilityList_stands hy hs.facilities hm

/-- **The masks are what is meant**, unless something did not fit. -/
theorem selectorList_stands (h : WellFormed ss) (hm : Stands m x) :
    selectorList (ss.map Selector.names) m = .error .fault ∨
      ∃ m', selectorList (ss.map Selector.names) m = .ok m' ∧ Stands m' (meaning x ss) := by
  induction ss generalizing m x with
  | nil => exact .inr ⟨m, rfl, hm⟩
  | cons s ss ih =>
    obtain ⟨hgood, -, hss⟩ := h
    rw [map_cons, selectorList]
    rcases selector_stands hgood hm with hfault | ⟨m', hok, hstands⟩
    · rw [hfault]
      exact .inl rfl
    · rw [hok]
      exact ih hss hstands

def nothing (seen : BitVec 32) : Selection := ⟨fun _ _ => false, seen.getLsbD⟩

/-- **`cfline` handles the selectors**: without a fault, and if the line is well formed then with
their meaning. -/
def Handles (line : Text) (seen : BitVec 32) : Prop :=
  cfline line seen ≠ .error .fault ∧
    ∀ ss rest, WellFormed ss → AtAction rest → line = render ss ++ rest →
      ∃ m, cfline line seen = .ok (rest, m) ∧
        ∀ i ≤ LOG_NFACILITIES, ∀ p < 8, bit (m.pmask i) p = (meaning (nothing seen) ss).selects i p

/-- **A line is handled** when all names that are reached fit and none is a number that is too
large, or the name of no facility. -/
theorem handles_iff (line : Text) (seen : BitVec 32) : Handles line seen ↔
    Safe (Selectors.names line).1 := by
  unfold Handles
  rw [← fault_iff line seen]
  refine and_iff_left_of_imp fun hno ss rest hss hrest hline => ?_
  have hnone : Stands ⟨fun _ => 0, seen⟩ (nothing seen) :=
    ⟨fun i _ p _ => by simp [bit, nothing], fun i _ => rfl⟩
  unfold cfline at hno ⊢
  rw [selectors_eq, hline, names_render hss hrest] at hno ⊢
  rcases selectorList_stands hss hnone with hfault | ⟨m, hok, hstands⟩
  · rw [hfault] at hno
    exact absurd rfl hno
  · rw [hok]
    exact ⟨m, rfl, hstands.selects⟩

/-- The name of no facility is used before it is refused. -/
theorem not_handles_mial :
    cfline (ascii "mial.info") 0 = .error .fault ∧ ¬ Handles (ascii "mial.info") 0 := by
  have hfault : cfline (ascii "mial.info") 0 = .error .fault := by
    have hline : ascii "mial.info" = 109 :: ascii "ial.info" := by decide
    have hlen : ¬ MAXLINE ≤
      ((pastDot (109 :: ascii "ial.info")).takeWhile inPriority).length := by decide +kernel
    have hname :
        ¬ MAXLINE ≤ ((109 :: ascii "ial.info").takeWhile inFacility).length := by decide +kernel
    have hfacilities (x : BitVec 32 × BitVec 32) (m : Masks) :
        facilities x (109 :: ascii "ial.info") m = .error .fault := by
      rw [facilities, dif_neg (by decide), if_neg hname]
      rfl
    unfold cfline
    rw [hline, selectors, dif_neg (by decide), if_neg hlen]
    simp only [hfacilities]
    rfl
  exact ⟨hfault, fun h => h.1 hfault⟩

end Inetutils.Syslogd.Meaning
