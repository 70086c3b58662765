import Inetutils.Syslogd.Proto
import Mathlib.Data.List.Flatten

/-! # The line that `printline` puts together

`printline` of `src/syslogd.c` copies the text of a message into `line[MAXLINE + 1]`, one character
after the other, and tests before each of them whether there is room for one byte. A control
character takes two: one that comes when a single place is left is written with its second byte in
the place of the NUL, and the NUL after the array.

* `writes msg`: the bytes the loop stores, with their places.
* `CutAt n t l`: `l` is `t` in its mapped form, as far as whole characters fit into `n` bytes. -/

namespace Inetutils.Syslogd.Printline

open Telnet.Proto Lib.Decimal Proto List

/-! ### What is stored -/

/-- The stores of the copying loop and of the NUL after it; `q` is at `line[n]`. -/
def copyStores : ℕ → Text → List (Byte × ℕ)
  | n, [] => [(0, n)]
  | n, c :: p =>
    if n < MAXLINE then (shown c).zipIdx n ++ copyStores (n + (shown c).length) p else [(0, n)]

def writes (msg : Text) : List (Byte × ℕ) := copyStores 0 (lineHead msg).2

theorem copyStores_eq (n : ℕ) (p : Text) : copyStores n p = (copyLine n p ++ [0]).zipIdx n := by
  fun_induction copyLine n p with
  | case1 n => rfl
  | case2 n c p h ih => rw [copyStores, if_pos h, ih, append_assoc, ← zipIdx_append]
  | case3 n c p h =>
    rw [copyStores, if_neg h]
    rfl

theorem inside_iff (msg : Text) :
    (∀ w ∈ writes msg, w.2 ≤ MAXLINE) ↔ (copyLine 0 (lineHead msg).2).length ≤ MAXLINE := by
  rw [writes, copyStores_eq]
  constructor
  · intro h
    have hmem : ((0 : Byte), (copyLine 0 (lineHead msg).2).length) ∈
      (copyLine 0 (lineHead msg).2 ++ [0]).zipIdx := by
      rw [zipIdx_append]
      exact mem_append_right _ (by simp)
    exact h _ hmem
  · rintro h ⟨b, i⟩ hw
    have hi := snd_lt_of_mem_zipIdx hw
    rw [length_append, length_singleton] at hi
    omega

/-! ### The mapping -/

def IsCaret (c : Byte) : Prop := c < 32 ∧ c ≠ 9 ∧ c ≠ 10

instance : DecidablePred IsCaret := fun c => inferInstanceAs (Decidable (c < 32 ∧ c ≠ 9 ∧ c ≠ 10))

/-- Newline to space, a control character to `^` and the character with its bit 0100 turned; tab,
DEL and all others stay. -/
def mapped (c : Byte) : Text := if c = 10 then [32] else if IsCaret c then [94, c ^^^ 64] else [c]

theorem shown_eq (c : Byte) : shown c = mapped c := by
  unfold shown iscntrl mapped IsCaret
  by_cases h10 : c = 10
  · subst h10
    rfl
  by_cases h9 : c = 9
  · subst h9
    rfl
  by_cases h127 : c = 127
  · subst h127
    rfl
  by_cases hlt : c < 32
  · have hle : ¬ (127 : Byte) ≤ c := by
      rw [UInt8.le_iff_toNat_le]
      have hlt' := UInt8.lt_iff_toNat_lt.1 hlt
      change c.toNat < 32 at hlt'
      change ¬ 127 ≤ c.toNat
      omega
    simp [h10, h9, hlt, hle]
  · simp [h10, h127, hlt]

theorem length_mapped (c : Byte) : (mapped c).length = if IsCaret c then 2 else 1 := by
  unfold mapped
  by_cases h10 : c = 10
  · subst h10
    rfl
  · rw [if_neg h10]
    split <;> rfl

theorem length_flatMap_mapped (t : Text) :
    (t.flatMap mapped).length = t.length + t.countP (fun c => decide (IsCaret c)) := by
  induction t with
  | nil => rfl
  | cons c t ih =>
    rw [flatMap_cons, length_append, ih, length_mapped, length_cons, countP_cons]
    by_cases hc : IsCaret c
    · rw [if_pos hc, if_pos (decide_eq_true hc)]
      omega
    · rw [if_neg hc, if_neg (by rw [decide_eq_false hc]; exact Bool.false_ne_true)]
      omega

/-- `l` is the text in its mapped form, cut at the last whole character that fits into `n` bytes. -/
def CutAt (n : ℕ) (text l : Text) : Prop :=
  ∃ t r, text = t ++ r ∧ l = t.flatMap mapped ∧ l.length ≤ n ∧ ∀ c ∈ r.head?,
    n < l.length + (mapped c).length

/-! ### The text after the priority -/

/-- `t` is what is left of the message behind its priority; of a number that is not closed, only the
digits are taken away. -/
inductive AfterPri : Text → Text → Prop
  | bare {t : Text} (h : t.head? ≠ some 60) : AfterPri t t
  | closed {ds : Text} (hds : ∀ d ∈ ds, isDigit d = true) (t : Text) :
    AfterPri (60 :: (ds ++ 62 :: t)) t
  | unclosed {ds t : Text} (hds : ∀ d ∈ ds, isDigit d = true)
    (ht : ∀ c ∈ t.head?, isDigit c = false ∧ c ≠ 62) :
    AfterPri (60 :: (ds ++ t)) t

theorem lineHead_bare {msg : Text} (h : msg.head? ≠ some 60) : (lineHead msg).2 = msg := by
  unfold lineHead
  split
  next p => exact absurd rfl h
  next => rfl

theorem lineHead_pri (p : Text) : (lineHead (60 :: p)).2 = (readPri p).2 := rfl

theorem readPri_closed {ds : Text} (hds : ∀ d ∈ ds, isDigit d = true) (t : Text) :
    (readPri (ds ++ 62 :: t)).2 = t := by
  have hdrop : (ds ++ 62 :: t).dropWhile isDigit = 62 :: t := by
    rw [dropWhile_append_of_pos hds]
    rfl
  rw [readPri, hdrop]
  rfl

theorem readPri_unclosed {ds t : Text} (hds : ∀ d ∈ ds, isDigit d = true)
    (ht : ∀ c ∈ t.head?, isDigit c = false ∧ c ≠ 62) : (readPri (ds ++ t)).2 = t := by
  have hdrop : (ds ++ t).dropWhile isDigit = t := by
    rw [dropWhile_append_of_pos hds]
    rcases t with _ | ⟨c, t⟩
    · rfl
    · rw [dropWhile_cons, (ht c rfl).1]
      rfl
  rw [readPri, hdrop]
  split
  next r => exact absurd rfl (ht 62 rfl).2
  next => rfl

theorem afterPri_iff {msg t : Text} : AfterPri msg t ↔ t = (lineHead msg).2 := by
  constructor
  · rintro (h | ⟨hds, t⟩ | ⟨hds, ht⟩)
    · exact (lineHead_bare h).symm
    · rw [lineHead_pri, readPri_closed hds]
    · rw [lineHead_pri, readPri_unclosed hds ht]
  · rintro rfl
    by_cases h : msg.head? = some 60
    · obtain ⟨p, rfl⟩ : ∃ p, msg = 60 :: p := head?_eq_some_iff.1 h
      have hds : ∀ d ∈ p.takeWhile isDigit, isDigit d = true := fun d hd => mem_takeWhile_imp hd
      have hp : p.takeWhile isDigit ++ p.dropWhile isDigit = p := takeWhile_append_dropWhile
      by_cases h62 : (p.dropWhile isDigit).head? = some 62
      · obtain ⟨r, hr⟩ := head?_eq_some_iff.1 h62
        rw [hr] at hp
        rw [← hp, lineHead_pri, readPri_closed hds]
        exact .closed hds r
      · have ht : ∀ c ∈ (p.dropWhile isDigit).head?, isDigit c = false ∧ c ≠ 62 := by
          intro c hc
          refine ⟨?_, ?_⟩
          · have hnot := head?_dropWhile_not isDigit p
            rw [Option.mem_def.1 hc] at hnot
            exact hnot
          · rintro rfl
            exact h62 hc
        rw [← hp, lineHead_pri, readPri_unclosed hds ht]
        exact .unclosed hds ht
    · rw [lineHead_bare h]
      exact .bare h

/-! ### The copy against the mapping -/

/-- A control character with a caret comes when one place is left. -/
def Splits (text : Text) : Prop :=
  ∃ t c r, text = t ++ c :: r ∧ IsCaret c ∧
    t.length + t.countP (fun b => decide (IsCaret b)) + 1 = MAXLINE

theorem copyLine_split (n : ℕ) (p : Text) :
    ∃ t r, p = t ++ r ∧ copyLine n p = t.flatMap mapped ∧
    (r ≠ [] → MAXLINE ≤ n + (t.flatMap mapped).length) ∧
      ∀ u c v, t = u ++ c :: v → n + (u.flatMap mapped).length < MAXLINE := by
  fun_induction copyLine n p with
  | case1 n => exact ⟨[], [], rfl, rfl, fun h => absurd rfl h, fun u c v h => by simp at h⟩
  | case2 n c p h ih =>
    obtain ⟨t, r, rfl, ht, hr, hu⟩ := ih
    rw [shown_eq] at ht hr hu
    refine ⟨c :: t, r, rfl, ?_, fun hne => ?_, ?_⟩
    · rw [shown_eq, ht, flatMap_cons]
    · have := hr hne
      rw [flatMap_cons, length_append]
      omega
    · rintro (_ | ⟨c', u⟩) d v huv
      · exact h
      · obtain ⟨rfl, rfl⟩ := List.cons.inj huv
        have := hu u d v rfl
        rw [flatMap_cons, length_append]
        omega
  | case3 n c p h =>
    exact ⟨[], c :: p, rfl, rfl, fun _ => by omega, fun u c v h => by simp at h⟩

theorem copyLine_append {n : ℕ} (t r : Text) (h : n + (t.flatMap mapped).length ≤ MAXLINE) :
    copyLine n (t ++ r) = t.flatMap mapped ++ copyLine (n + (t.flatMap mapped).length) r := by
  induction t generalizing n with
  | nil => rfl
  | cons c t ih =>
    rw [flatMap_cons, length_append] at h
    have hpos : 0 < (mapped c).length := by
      rw [length_mapped]
      split <;> omega
    have hroom : n < MAXLINE := by omega
    rw [cons_append, copyLine, if_pos hroom, shown_eq, ih (by omega), flatMap_cons, length_append,
      append_assoc, add_assoc]

theorem cutAt_of_not_splits {text : Text} (h : ¬ Splits text) :
    CutAt MAXLINE text (copyLine 0 text) ∧ (copyLine 0 text).length ≤ MAXLINE := by
  obtain ⟨t, r, rfl, ht, hr, hu⟩ := copyLine_split 0 text
  have hle : (t.flatMap mapped).length ≤ MAXLINE := by
    rcases eq_nil_or_concat t with rfl | ⟨u, c, rfl⟩
    · exact Nat.zero_le _
    · rw [concat_eq_append] at h hu ⊢
      have hlt := hu u c [] rfl
      have hone : ¬ (IsCaret c ∧ (u.flatMap mapped).length + 1 = MAXLINE) := by
        rintro ⟨hc, hlen⟩
        rw [length_flatMap_mapped] at hlen
        exact h ⟨u, c, r, by rw [append_assoc]; rfl, hc, hlen⟩
      rw [flatMap_append, length_append, flatMap_singleton, length_mapped]
      split
      next hc =>
        have hne : (u.flatMap mapped).length + 1 ≠ MAXLINE := fun he => hone ⟨hc, he⟩
        omega
      next => omega
  rw [ht]
  refine ⟨⟨t, r, rfl, rfl, hle, fun c hc => ?_⟩, hle⟩
  have hfull := hr (by rintro rfl; exact nomatch hc)
  have hpos : 0 < (mapped c).length := by
    rw [length_mapped]
    split <;> omega
  omega

theorem length_copyLine_of_splits {text : Text} (h : Splits text) :
    MAXLINE < (copyLine 0 text).length := by
  obtain ⟨t, c, r, rfl, hc, hlen⟩ := h
  rw [← length_flatMap_mapped] at hlen
  have hroom : 0 + (t.flatMap mapped).length < MAXLINE := by omega
  rw [copyLine_append t _ hroom.le, copyLine, if_pos hroom, shown_eq, length_append, length_append,
    length_mapped, if_pos hc]
  omega

/-! ### The calls of `logmsg` -/

/-- `logmsg` is called once, with the text behind the priority, mapped and cut at the last whole
character that fits; and nothing is stored outside of `line`. -/
structure Proper (forceSync : Bool) (hname msg : Text) : Prop where
  once : ∃ call t, printline forceSync hname msg = [call] ∧ AfterPri msg t ∧
    CutAt MAXLINE t call.msg
  inside : ∀ w ∈ writes msg, w.2 ≤ MAXLINE

theorem length_printline (forceSync : Bool) (hname msg : Text) :
    (printline forceSync hname msg).length = if forceSync then 2 else 1 := by
  cases forceSync <;> rfl

/-- **When `printline` hands over a line once and whole:** the lines are not synchronised, and no
control character comes when `line` has a single place left. -/
theorem proper_iff (forceSync : Bool) (hname msg : Text) :
    Proper forceSync hname msg ↔ forceSync = false ∧ ∀ t, AfterPri msg t → ¬ Splits t := by
  constructor
  · rintro ⟨⟨call, t, hcall, -, -⟩, hinside⟩
    refine ⟨?_, fun t ht hsplit => ?_⟩
    · have hlen := length_printline forceSync hname msg
      rw [hcall] at hlen
      cases forceSync
      · rfl
      · exact absurd hlen (Nat.ne_of_lt (Nat.lt_succ_self 1))
    · rw [afterPri_iff] at ht
      subst ht
      exact absurd ((inside_iff msg).1 hinside) (Nat.not_le.2 (length_copyLine_of_splits hsplit))
  · rintro ⟨rfl, hsplit⟩
    have htext : AfterPri msg (lineHead msg).2 := afterPri_iff.2 rfl
    obtain ⟨hcut, hle⟩ := cutAt_of_not_splits (hsplit _ htext)
    exact ⟨⟨_, _, rfl, htext, hcut⟩, (inside_iff msg).2 hle⟩

def edgeLine : Text := List.replicate 1023 97 ++ [1]

theorem not_proper_edgeLine : ¬ ∀ (forceSync : Bool) (hname msg : Text), msg.length ≤ MAXLINE →
    Proper forceSync hname msg := by
  intro h
  have hlen : edgeLine.length = 1024 := by rw [edgeLine, length_append, length_replicate]; rfl
  have hbare : AfterPri edgeLine edgeLine := .bare (by
    rw [edgeLine, replicate_succ]
    decide)
  have hcount : (List.replicate 1023 (97 : Byte)).countP (fun b => decide (IsCaret b)) = 0 := by
    rw [countP_eq_zero]
    intro b hb
    rw [eq_of_mem_replicate hb]
    decide
  have hsplit : Splits edgeLine :=
    ⟨List.replicate 1023 97, 1, [], rfl, by decide, by rw [hcount, length_replicate]⟩
  have hinside := (inside_iff edgeLine).1 (h false [] edgeLine hlen.le).inside
  rw [← afterPri_iff.1 hbare] at hinside
  exact absurd hinside (Nat.not_le.2 (length_copyLine_of_splits hsplit))

end Inetutils.Syslogd.Printline
