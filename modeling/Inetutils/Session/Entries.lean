import Inetutils.Lib.Arbiter
import Inetutils.Telnet.Slc
import Inetutils.Telnetd.Slc

/-! # The entries of a special character

What the client and the server have of one function, and what they make of a triplet for it. The
client may insist on what it has and the server decides: they keep to the rules of a client and an
arbiter (`lawful`), where the value is the level of support, with the character if there is
support. -/

namespace Inetutils.Session.Entries

open Lib.Arbiter Option
open Telnet.Proto Telnet.Triplets
open Telnet.Slc (Spc slc_eq update_acks update_not_acks)
open Telnetd.Slc (Slcfun Slcent)

/-! ### The rules -/

/-- What a level and a character say: without support the character means nothing. -/
def view (flag val : Byte) : Option (Byte × Byte) :=
  if level flag = SLC_NOSUPPORT then none else some (level flag, val)

theorem view_congr {f g : Byte} (h : level f = level g) (v : Byte) : view f v = view g v := by
  unfold view; rw [h]

theorem view_nosupport {f : Byte} (h : level f = SLC_NOSUPPORT) (v : Byte) :
    view f v = none := if_pos h

/-- What the server does with a triplet, for the function `i`. -/
def answer (vdisable i : Byte) (e : Slcfun) (t : Triplet) : Slcfun × Option Triplet :=
  let r :=
    if t.func = 0 then
      if level t.flag = SLC_DEFAULT then (e.default vdisable).send
      else if level t.flag = SLC_VARIABLE then e.send
      else (e, none)
    else e.process vdisable t.flag t.val
  (r.1, r.2.map fun p => ⟨i, p.1, p.2⟩)

/-- The client and the server as client and arbiter, for the function `i`, which the client has at
the level `m`. A triplet of the server that the client cannot but refuse may cause a request and its
answer. -/
def rules (vdisable i m : Byte) : Rules Spc Slcfun Triplet Triplet (Option (Byte × Byte)) where
  client e := view e.flags e.val
  server e := view e.current.flag e.current.val
  asks t := if t.func = 0 ∨ acks t.flag = true then none else some (view t.flag t.val)
  tells t := view t.flag t.val
  causes t := if t.func = 0 then 4 else if acks t.flag = true then 0 else 2
  causes' t := if level t.flag ≤ level m ∧ level t.flag ≠ SLC_DEFAULT then 1 else 3
  hear e t := ((e.slc t.flag t.val).1.update, (e.slc t.flag t.val).2.map fun p => ⟨i, p.1, p.2⟩)
  answer := answer vdisable i

structure Quiet (m : Byte) (e : Spc) : Prop where
  mylevel : e.mylevel = m
  acks : acks e.flags = false
  le : level e.flags ≤ level m

/-- The entry of the server: what it can change it has at the level `SLC_VARIABLE`, and what it does
not support stays so. -/
structure Fixed (e : Slcfun) : Prop where
  some : ∀ c, e.sptr = some c → level e.defset.flag = SLC_VARIABLE
  none : e.sptr = none → level e.defset.flag = SLC_DEFAULT ∨ level e.defset.flag = SLC_NOSUPPORT
  nosupport : level e.defset.flag = SLC_NOSUPPORT → level e.current.flag = SLC_NOSUPPORT

def Request (m : Byte) (t : Triplet) : Prop :=
  t.func = 0 ∨ acks t.flag = true ∨ level t.flag ≤ level m

/-! ### The client -/

section
variable {m : Byte} {e : Spc}

theorem Quiet.update (hm : e.mylevel = m) (hle : level e.flags ≤ level m) : Quiet m e.update := by
  by_cases ha : Telnet.Triplets.acks e.flags = true
  · rw [update_acks ha]
    exact ⟨hm, acks_and_not_ack _, by rwa [level_and_not_ack]⟩
  · rw [Bool.not_eq_true] at ha
    rw [update_not_acks ha]
    exact ⟨hm, ha, hle⟩

theorem view_update (e : Spc) : view e.update.flags e.update.val = view e.flags e.val := by
  by_cases ha : acks e.flags = true
  · rw [update_acks ha]
    exact view_congr (level_and_not_ack _) _
  · rw [Bool.not_eq_true] at ha
    rw [update_not_acks ha]

theorem refusal_spec (hm : acks m = false) (he : e.mylevel = m) :
    acks e.refusal = false ∧ level e.refusal ≤ level m := by
  subst he
  unfold Spc.refusal
  split_ifs with h
  · exact ⟨rfl, by rw [h]; decide⟩
  · exact ⟨hm, UInt8.le_refl _⟩

variable (hm : acks m = false) (he : Quiet m e) (flag val : Byte)
include hm he

theorem quiet_slc : Quiet m (e.slc flag val).1.update := by
  rw [slc_eq]
  split_ifs with hs ha hack hd hle hle
  · exact Quiet.update he.mylevel he.le
  · refine Quiet.update he.mylevel ?_
    rw [level_and_not_ack, ha.2]
    exact he.le
  · refine Quiet.update he.mylevel ?_
    rw [ha.2]
    exact he.le
  · exact Quiet.update he.mylevel (refusal_spec hm he.mylevel).2
  · exact Quiet.update he.mylevel (refusal_spec hm he.mylevel).2
  · refine Quiet.update he.mylevel ?_
    rw [level_or_ack, ← he.mylevel]
    exact hle
  · exact Quiet.update he.mylevel he.le

theorem slc_view :
    (∃ f v, (e.slc flag val).2 = some (f, v) ∧ acks f = false ∧
      view f v = view (e.slc flag val).1.flags (e.slc flag val).1.val) ∨
    (∀ f v, (e.slc flag val).2 = some (f, v) → acks f = true) ∧
      view (e.slc flag val).1.flags (e.slc flag val).1.val = view flag val := by
  rw [slc_eq]
  split_ifs with hs ha hack hd hle hle
  · right
    rw [hs.1]
    exact ⟨fun f v h => (nomatch h), view_congr hs.2.symm _⟩
  · right
    exact ⟨fun f v h => (nomatch h), view_congr (level_and_not_ack _) _⟩
  · right
    exact ⟨fun f v h => (nomatch h), rfl⟩
  · left
    exact ⟨_, _, rfl, (refusal_spec hm he.mylevel).1, rfl⟩
  · left
    exact ⟨_, _, rfl, (refusal_spec hm he.mylevel).1, rfl⟩
  · right
    refine ⟨fun f v h => ?_, view_congr (level_or_ack _) _⟩
    cases h
    exact acks_or_ack _
  · left
    exact ⟨_, _, rfl, he.acks, rfl⟩

theorem slc_sends {f v : Byte} (h : (e.slc flag val).2 = some (f, v)) :
    if level flag ≤ level m ∧ level flag ≠ SLC_DEFAULT then acks f = true
    else acks f = false ∧ level f ≤ level m := by
  rw [slc_eq] at h
  rw [← he.mylevel]
  split_ifs at h with hs ha hd hv hle
  · cases h
    rw [if_neg fun h => h.2 hd]
    exact he.mylevel ▸ refusal_spec hm he.mylevel
  · cases h
    rw [if_neg fun h => h.2 hd]
    exact he.mylevel ▸ refusal_spec hm he.mylevel
  · cases h
    rw [if_pos ⟨hle, hd⟩]
    exact acks_or_ack _
  · cases h
    rw [if_neg fun h => hle h.1]
    exact he.mylevel ▸ ⟨he.acks, he.le⟩

end

structure Announces (m : Byte) (e e' : Spc) (a : Option (Byte × Byte)) : Prop where
  quiet : Quiet m e'
  some : ∀ p, a = some p → acks p.1 = false ∧ level p.1 ≤ level m ∧
    view p.1 p.2 = view e'.flags e'.val
  none : a = none → e' = e

section
variable {m : Byte} {e : Spc} (hm : acks m = false) (vdisable : Byte)
include hm

theorem flags_spec (p : Prop) [Decidable p] : acks (if p then SLC_NOSUPPORT else m) = false ∧
    level (if p then SLC_NOSUPPORT else m) ≤ level m := by
  split_ifs
  · exact ⟨rfl, UInt8.zero_le⟩
  · exact ⟨hm, UInt8.le_refl _⟩

theorem announces_check (he : Quiet m e) :
    Announces m e (Spc.check vdisable e).1 (Spc.check vdisable e).2 := by
  obtain ⟨rfl, hacks, hle⟩ := he
  unfold Spc.check
  rcases e.valp with _ | c
  · exact ⟨⟨rfl, hacks, hle⟩, fun p h => (nomatch h), fun _ => rfl⟩
  · dsimp only
    by_cases h1 : e.val = c
    · rw [if_pos h1]
      exact ⟨⟨rfl, hacks, hle⟩, fun p h => (nomatch h), fun _ => rfl⟩
    · rw [if_neg h1]
      have hflags := flags_spec hm (c = vdisable)
      refine ⟨⟨rfl, hflags.1, hflags.2⟩, fun p h => ?_, fun h => (nomatch h)⟩
      cases h
      exact ⟨hflags.1, hflags.2, rfl⟩

theorem announces_export (he : Quiet m e) (c : Byte) :
    Announces m e (Spc.export vdisable c e).1 (Spc.export vdisable c e).2 := by
  obtain ⟨rfl, hacks, hle⟩ := he
  unfold Spc.export
  by_cases h0 : e.mylevel = SLC_NOSUPPORT
  · rw [if_pos h0]
    exact ⟨⟨rfl, hacks, hle⟩, fun p h => (nomatch h), fun _ => rfl⟩
  · rw [if_neg h0]
    have hflags := flags_spec hm (e.val = vdisable)
    refine ⟨⟨rfl, hflags.1, hflags.2⟩, fun p h => ?_, fun h => (nomatch h)⟩
    cases h
    exact ⟨hflags.1, hflags.2, rfl⟩

end

/-! ### The server -/

section
variable {vdisable : Byte} {e : Slcfun}

theorem Fixed.current {d c c' : Slcent} {s : Option Byte} (h : Fixed ⟨d, c, s⟩)
    (hc : level d.flag = SLC_NOSUPPORT → level c'.flag = SLC_NOSUPPORT) : Fixed ⟨d, c', s⟩ :=
  ⟨h.some, h.none, hc⟩

theorem Fixed.sptr {d c : Slcent} {s s' : Option Byte} (h : Fixed ⟨d, c, s⟩)
    (hs : s'.isSome = s.isSome) : Fixed ⟨d, c, s'⟩ := by
  refine ⟨fun v hv => ?_, fun hv => h.none ?_, h.nosupport⟩
  · cases hv
    obtain ⟨w, hw⟩ := isSome_iff_exists.mp hs.symm
    exact h.some w hw
  · cases hv
    exact isSome_eq_false_iff.mp hs.symm |> isNone_iff_eq_none.mp

/-- **What the server does with a request**: it tells the value it has then, in the level that was
asked for or a lower one. -/
theorem change_spec (vdisable : Byte) (he : Fixed e) (flag val : Byte) :
    Fixed (e.change vdisable flag val).1 ∧
      view (e.change vdisable flag val).2.1 (e.change vdisable flag val).2.2 =
        view (e.change vdisable flag val).1.current.flag
        (e.change vdisable flag val).1.current.val ∧
      level (e.change vdisable flag val).2.1 ≤ level flag ∧
      level (e.change vdisable flag val).2.1 ≠ SLC_DEFAULT := by
  obtain ⟨d, c, s⟩ := e
  unfold Slcfun.change
  by_cases h0 : level flag = SLC_NOSUPPORT
  · rw [if_pos h0]
    refine ⟨he.current fun _ => h0, ?_, ?_, ?_⟩
    · rw [view_nosupport h0, view_nosupport (by rw [level_or_ack, h0])]
    · rw [level_or_ack]; exact UInt8.le_refl _
    · rw [level_or_ack, h0]; decide
  rw [if_neg h0]
  by_cases hd : level flag = SLC_DEFAULT
  · rw [if_pos hd, hd]
    refine ⟨he.current fun h => ?_, rfl, level_le_default _,
      ?_⟩ <;> dsimp only <;> split_ifs with h'
    · rfl
    · exact h
    · decide
    · exact h'
  rw [if_neg hd]
  rcases s with _ | v
  · dsimp only
    rcases he.none rfl with h | h <;> dsimp only at h
    · rw [if_pos h]
      refine ⟨he.current fun h' => absurd (h.symm.trans h') (by decide),
        view_congr (level_or_ack _) _, ?_, ?_⟩
      · rw [level_or_ack]; exact UInt8.le_refl _
      · rw [level_or_ack]; exact hd
    · have hlev := level_replace flag d.flag
      rw [h] at hlev
      rw [h, if_neg (by decide), if_neg fun h' => absurd h'.2 (by decide), if_neg (by decide)]
      refine ⟨he.current fun _ => hlev, ?_, ?_, ?_⟩
      · rw [view_nosupport hlev, view_nosupport hlev]
      · rw [hlev]; exact UInt8.zero_le
      · rw [hlev]; decide
  · have hvar : level d.flag = SLC_VARIABLE := he.some v rfl
    have hval : Fixed ⟨d, c, some val⟩ := he.sptr rfl
    refine ⟨hval.current fun h => absurd (hvar.symm.trans h) (by decide),
      view_congr (level_or_ack _) _, ?_, ?_⟩
    · rw [level_or_ack]; exact UInt8.le_refl _
    · rw [level_or_ack]; exact hd

theorem fixed_default (he : Fixed e) : Fixed (e.default vdisable) := by
  refine (he.sptr (by rw [isSome_map])).current fun h => ?_
  dsimp only
  split_ifs
  · rfl
  · exact h

/-- What the server sends of a function, for whatever reason, is what it has then. -/
def Tells (e e' : Slcfun) (a : Option (Byte × Byte)) : Prop :=
  (∀ p, a = some p → view p.1 p.2 = view e'.current.flag e'.current.val) ∧
    (a = none → view e'.current.flag e'.current.val = view e.current.flag e.current.val)

theorem tells_send (he : Fixed e) {e₀ : Slcfun} (h₀ : Fixed e₀) (hd : e₀.defset = e.defset) :
    Tells e₀ e.send.1 e.send.2 := by
  unfold Slcfun.send
  constructor
  · intro p h
    split_ifs at h
    cases h
    rfl
  · intro h
    split_ifs at h with h'
    -- what is not supported is not sent, but it is not changed either
    exact (view_nosupport (he.nosupport h') _).trans
      (view_nosupport (h₀.nosupport (by rwa [hd])) _).symm

theorem check_spec (vdisable : Byte) (he : Fixed e) :
    Fixed (e.check vdisable).1 ∧ Tells e (e.check vdisable).1 (e.check vdisable).2 := by
  obtain ⟨d, c, _ | v⟩ := e
  · exact ⟨he, fun p h => (nomatch h), fun _ => rfl⟩
  · unfold Slcfun.check
    dsimp only
    by_cases h1 : v = c.val
    · rw [if_pos h1]
      exact ⟨he, fun p h => (nomatch h), fun _ => rfl⟩
    · rw [if_neg h1]
      refine ⟨he.current fun h => ?_, fun p h => by cases h; rfl, fun h => (nomatch h)⟩
      dsimp only
      split_ifs
      · rfl
      · exact h

end

/-! ### The two keep to the rules -/

section
variable {vdisable i m : Byte} {e : Slcfun} {t : Triplet}

theorem fixed_process (he : Fixed e) (flag val : Byte) : Fixed (e.process vdisable flag val).1 := by
  unfold Slcfun.process
  split_ifs
  · exact he
  · exact (change_spec vdisable he flag val).1

theorem fixed_answer (he : Fixed e) : Fixed (answer vdisable i e t).1 := by
  unfold answer
  split_ifs
  · exact fixed_default he
  · exact he
  · exact he
  · exact fixed_process he _ _

theorem tells_process (he : Fixed e) (flag val : Byte) :
    Tells e (e.process vdisable flag val).1 (e.process vdisable flag val).2 := by
  unfold Slcfun.process
  split_ifs
  · exact ⟨fun p h => (nomatch h), fun _ => rfl⟩
  · refine ⟨fun p h => ?_, fun h => (nomatch h)⟩
    cases h
    exact (change_spec vdisable he flag val).2.1

theorem asks_of_ignores {flag val : Byte} (h : e.ignores flag val = true) (ha : acks flag = false) :
    view flag val = view e.current.flag e.current.val := by
  unfold Slcfun.ignores at h
  rw [ha] at h
  simp only [decide_eq_true_eq, Bool.false_eq_true, or_false] at h
  rw [h.2]
  exact view_congr h.1 _

theorem tells_answer (he : Fixed e) : Tells e (answer vdisable i e t).1
    ((answer vdisable i e t).2.map fun d => (d.flag, d.val)) := by
  have hmap : ∀ o : Option (Byte × Byte),
      ((o.map fun p => Triplet.mk i p.1 p.2).map fun d => (d.flag, d.val)) = o := by
    rintro (_ | _) <;> rfl
  unfold answer
  rw [hmap]
  split_ifs
  · exact tells_send (fixed_default he) he rfl
  · exact tells_send he he rfl
  · exact ⟨fun p h => (nomatch h), fun _ => rfl⟩
  · exact tells_process he _ _

theorem answer_of_ne (h : t.func ≠ 0) : (answer vdisable i e t).2 =
    (e.process vdisable t.flag t.val).2.map fun p => ⟨i, p.1, p.2⟩ := by
  unfold answer
  rw [if_neg h]

theorem process_none {flag val : Byte} (h : (e.process vdisable flag val).2 = none) :
    e.ignores flag val = true := by
  unfold Slcfun.process at h
  by_contra hn
  rw [if_neg hn] at h
  cases h

theorem process_some {flag val : Byte} {p : Byte × Byte}
    (h : (e.process vdisable flag val).2 = some p) :
    acks flag = false ∧ p = (e.change vdisable flag val).2 := by
  unfold Slcfun.process at h
  split_ifs at h with hn
  refine ⟨?_, (some.inj h).symm⟩
  by_contra ha
  rw [Bool.not_eq_false] at ha
  exact hn (by unfold Slcfun.ignores; rw [ha]; simp)

theorem causes_answer (he : Fixed e) (ht : Request m t) {d : Triplet}
    (hd : (answer vdisable i e t).2 = some d) :
    (rules vdisable i m).causes' d < (rules vdisable i m).causes t := by
  show (if _ then _ else _) < (if t.func = 0 then _ else if acks t.flag = true then _ else _)
  by_cases h0 : t.func = 0
  · rw [if_pos h0]
    split_ifs <;> decide
  rw [if_neg h0]
  rw [answer_of_ne h0] at hd
  obtain ⟨p, hp, rfl⟩ := map_eq_some_iff.mp hd
  obtain ⟨ha, rfl⟩ := process_some hp
  have hle : level t.flag ≤ level m := by
    rcases ht with h | h | h
    · exact absurd h h0
    · exact absurd (ha.symm.trans h) (by decide)
    · exact h
  obtain ⟨-, -, h1, h2⟩ := change_spec vdisable he t.flag t.val
  rw [if_pos ⟨UInt8.le_trans h1 hle, h2⟩, ha]
  decide

theorem hear_view (hi : i ≠ 0) (hm : acks m = false) {e : Spc} (he : Quiet m e) :
    (rules vdisable i m).Asks ((rules vdisable i m).hear e t).2 ((rules vdisable i m).hear e t).1 ∨
      ((rules vdisable i m).hear e t).2.bind (rules vdisable i m).asks = none ∧
        (rules vdisable i m).client ((rules vdisable i m).hear e t).1 =
          (rules vdisable i m).tells t := by
  show Option.bind (Option.map _ _) _ = some (view (Spc.update _).flags (Spc.update _).val) ∨
    Option.bind (Option.map _ _) _ = none ∧
    view (Spc.update _).flags (Spc.update _).val = view t.flag t.val
  rw [view_update]
  rcases slc_view hm he t.flag t.val with ⟨f, v, hs, ha, hv⟩ | ⟨hack, hv⟩
  · left
    rw [hs, ← hv]
    show (if i = 0 ∨ acks f = true then _ else _) = _
    rw [if_neg]
    rintro (h | h)
    · exact hi h
    · exact absurd (ha.symm.trans h) (by decide)
  · right
    refine ⟨?_, hv⟩
    rcases hs : (e.slc t.flag t.val).2 with _ | ⟨f, v⟩
    · rfl
    · exact if_pos (.inr (hack f v hs))

theorem lawful (vdisable : Byte) (hi : i ≠ 0) (hm : acks m = false) :
    Lawful (rules vdisable i m) (Quiet m) Fixed (Request m) := by
  constructor
  · intro e t he
    exact quiet_slc hm he _ _
  · intro e t he _
    exact fixed_answer he
  · intro e t u he hu
    obtain ⟨⟨f, v⟩, hs, rfl⟩ := map_eq_some_iff.mp hu
    have hsends := slc_sends hm he _ _ hs
    show Request m _ ∧ (if i = 0 then _ else if acks f = true then _ else _) < (if _ then _ else _)
    rw [if_neg hi]
    by_cases hacc : level t.flag ≤ level m ∧ level t.flag ≠ SLC_DEFAULT
    · rw [if_pos hacc] at hsends ⊢
      exact ⟨.inr (.inl hsends), by rw [if_pos hsends]; decide⟩
    · rw [if_neg hacc] at hsends ⊢
      exact ⟨.inr (.inr hsends.2), by split_ifs <;> decide⟩
  · intro e t d he ht hd
    exact causes_answer he ht hd
  · intro e t he
    exact hear_view hi hm he
  · intro e t d he _ hd
    exact (tells_answer he).1 (d.flag, d.val) (map_eq_some_iff.mpr ⟨d, hd, rfl⟩)
  · intro e t he _ hd
    refine ⟨(tells_answer he).2 (map_eq_none_iff.mpr hd), ?_⟩
    intro v hv
    change (if t.func = 0 ∨ acks t.flag = true then _ else _) = _ at hv
    split_ifs at hv with hasks
    rw [not_or, Bool.not_eq_true] at hasks
    cases hv
    change (answer vdisable i e t).2 = none at hd
    rw [answer_of_ne hasks.1] at hd
    exact asks_of_ignores (process_none (map_eq_none_iff.mp hd)) hasks.2

end

end Inetutils.Session.Entries
