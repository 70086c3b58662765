import Mathlib.Data.List.DropRight
import Mathlib.Data.List.Infix
import Mathlib.Algebra.Order.Ring.Int

/-! # Words of a command line

A line over any alphabet is split at its blanks; a quote opens a word that runs to the next quote of
the same sort, or to the end of the line when there is none. The symbols of the line are read
through a function, so that a line of symbols and a line that only stands for one are split by the
same definition (`split_map`). A word is kept with its span: where its text begins, and how long it
is. -/

namespace Inetutils.Lib.Words

open List Option

/-- How the symbols of a line are used. What is a `cut` ends a bare word although it is no blank. -/
structure Lexis (β : Type*) where
  blank : β → Bool
  quote : β → Bool
  cut : β → Bool
  space : β → Bool
  space_of_blank {b : β} : blank b → space b
  quote_of_cut {b : β} : cut b → quote b
  not_space_of_quote {b : β} : quote b → ¬ space b

namespace Lexis

variable {β : Type*} (lex : Lexis β)

def inner (b : β) : Bool := !lex.blank b && !lex.cut b

theorem not_blank_of_quote {b : β} (h : lex.quote b) : ¬ lex.blank b :=
  fun hb => lex.not_space_of_quote h (lex.space_of_blank hb)

theorem inner_of_plain {b : β} (hb : ¬ lex.blank b) (hq : ¬ lex.quote b) : lex.inner b := by
  have hc : ¬ lex.cut b := fun h => hq (lex.quote_of_cut h)
  simp [inner, hb, hc]

end Lexis

/-- Where a text begins in the line, and how many symbols it has. -/
structure Span where
  start : ℕ
  n : ℕ
  deriving DecidableEq

/-- The `m` symbols from `i` on are in the text. -/
def Span.Covers (s : Span) (i m : ℕ) : Prop := s.start ≤ i ∧ i + m ≤ s.start + s.n

instance (s : Span) (i m : ℕ) : Decidable (s.Covers i m) := inferInstanceAs (Decidable (_ ∧ _))

inductive Word (β α : Type*)
  | closed (q : β) (text : List α)
  | opened (q : β) (text : List α)
  | bare (text : List α)

namespace Word

variable {β α : Type*}

/-- The symbols of the line that the word takes, its quotes among them. -/
def size : Word β α → ℕ
  | closed _ text => text.length + 2
  | opened _ text => text.length + 1
  | bare text => text.length

/-- The span of a word that begins at `p`. A word that its quote does not close takes its quote, and
the symbol at which the line ends. -/
def span (p : ℕ) : Word β α → Span
  | closed _ text => ⟨p + 1, text.length⟩
  | opened _ text => ⟨p, text.length + 2⟩
  | bare text => ⟨p, text.length⟩

def map {α' : Type*} (f : α → α') : Word β α → Word β α'
  | closed q text => closed q (text.map f)
  | opened q text => opened q (text.map f)
  | bare text => bare (text.map f)

@[simp] theorem size_map {α' : Type*} (f : α → α') (w : Word β α) : (w.map f).size = w.size := by
  rcases w with _ | _ | _ <;> simp [map, size]

@[simp] theorem span_map {α' : Type*} (f : α → α') (p : ℕ) (w : Word β α) :
    (w.map f).span p = w.span p := by
  rcases w with _ | _ | _ <;> simp [map, span]

theorem le_start_span (p : ℕ) (w : Word β α) : p ≤ (w.span p).start := by
  rcases w with _ | _ | _ <;> simp [span]

end Word

/-- The first word of a line, with the blanks before it and what is left after it. -/
structure Found (β α : Type*) where
  gap : ℕ
  word : Word β α
  rest : List α

section

variable {β α : Type*} (lex : Lexis β) (read : α → β)

/-- `l` begins with the word that `f` says. -/
inductive Leads : List α → Found β α → Prop
  | closed {g : List α} {a : α} {w : List α} {b : α} {rest : List α}
      (hg : ∀ c ∈ g, lex.blank (read c)) (ha : lex.quote (read a))
      (hw : ∀ c ∈ w, read c ≠ read a) (hb : read b = read a) :
      Leads (g ++ a :: (w ++ b :: rest)) ⟨g.length, .closed (read a) w, rest⟩
  | opened {g : List α} {a : α} {w : List α}
      (hg : ∀ c ∈ g, lex.blank (read c)) (ha : lex.quote (read a))
      (hw : ∀ c ∈ w, read c ≠ read a) :
      Leads (g ++ a :: w) ⟨g.length, .opened (read a) w, []⟩
  | bare {g : List α} {a : α} {w : List α} {rest : List α}
      (hg : ∀ c ∈ g, lex.blank (read c)) (ha : ¬ lex.blank (read a)) (ha' : ¬ lex.quote (read a))
      (hw : ∀ c ∈ w, lex.inner (read c)) (hr : ∀ c ∈ rest.head?, ¬ lex.inner (read c)) :
      Leads (g ++ a :: (w ++ rest)) ⟨g.length, .bare (a :: w), rest⟩

variable {lex read} {l : List α} {p : α → Bool}

theorem Leads.length_eq {f : Found β α} (h : Leads lex read l f) :
    l.length = f.gap + f.word.size + f.rest.length := by
  rcases h with _ | _ | _ <;> simp [Word.size] <;> omega

theorem Leads.size_pos {f : Found β α} (h : Leads lex read l f) : 0 < f.word.size := by
  rcases h with _ | _ | _ <;> simp [Word.size]

theorem Leads.drop_eq {f : Found β α} (h : Leads lex read l f) :
    l.drop (f.gap + f.word.size) = f.rest := by
  rcases h with @⟨g, a, w, b, rest⟩ | @⟨g, a, w⟩ | @⟨g, a, w, rest⟩
  · have e : g ++ a :: (w ++ b :: rest) = (g ++ a :: (w ++ [b])) ++ rest := by simp
    rw [e, drop_left' (by simp [Word.size])]
  · exact drop_eq_nil_of_le (by simp [Word.size])
  · have e : g ++ a :: (w ++ rest) = (g ++ a :: w) ++ rest := by simp
    rw [e, drop_left' (by simp [Word.size])]

theorem Leads.end_le {f : Found β α} (h : Leads lex read l f) (hr : f.rest ≠ []) (p : ℕ) :
    (f.word.span p).start + (f.word.span p).n ≤ p + f.word.size := by
  rcases h with _ | _ | _
  · simp only [Word.span, Word.size]; omega
  · exact absurd rfl hr
  · simp only [Word.span, Word.size]; omega

theorem Leads.covers {f : Found β α} (h : Leads lex read l f) {i : ℕ} {a : α} (hi : l[i]? = some a)
    (hb : ¬ lex.blank (read a)) (hq : ¬ lex.quote (read a)) (k : ℕ) :
    (f.word.span (k + f.gap)).Covers (k + i) 1 ∨
      ∃ j, i = f.gap + f.word.size + j ∧ f.rest[j]? = some a := by
  rcases h with @⟨g, c, w, d, rest, hg, hc, -, hd⟩ | @⟨g, c, w, hg, hc, -⟩ |
    @⟨g, c, w, rest, hg, -, -, -, -⟩
  all_goals
    have hgi : g.length ≤ i := by
      by_contra hlt
      rw [getElem?_append_left (by omega)] at hi
      exact hb (hg a (mem_of_getElem? hi))
    rw [getElem?_append_right hgi] at hi
  · obtain ⟨j, rfl⟩ : ∃ j, i = g.length + (j + 1) := by
      refine ⟨i - g.length - 1, ?_⟩
      rcases hj : i - g.length with _ | j
      · rw [hj, getElem?_cons_zero, some.injEq] at hi
        exact absurd (hi ▸ hc) hq
      · omega
    rw [Nat.add_sub_cancel_left, getElem?_cons_succ] at hi
    rcases Nat.lt_or_ge j w.length with hj | hj
    · left; simp only [Word.span, Span.Covers]; omega
    · rw [getElem?_append_right hj] at hi
      rcases hn : j - w.length with _ | n
      · rw [hn, getElem?_cons_zero, some.injEq] at hi
        exact absurd (hi ▸ hd ▸ hc) hq
      · rw [hn, getElem?_cons_succ] at hi
        exact .inr ⟨n, by simp only [Word.size]; omega, hi⟩
  · left
    have := (List.getElem?_eq_some_iff.mp hi).1
    simp only [length_cons] at this
    simp only [Word.span, Span.Covers]; omega
  · obtain ⟨j, rfl⟩ := Nat.exists_eq_add_of_le hgi
    rw [Nat.add_sub_cancel_left, ← cons_append] at hi
    rcases Nat.lt_or_ge j (c :: w).length with hj | hj
    · left; simp only [Word.span, Span.Covers]; omega
    · rw [getElem?_append_right hj] at hi
      exact .inr ⟨j - (c :: w).length, by simp only [Word.size]; omega, hi⟩

theorem Leads.getElem?_gap {f : Found β α} (h : Leads lex read l f) :
    ∃ a ∈ l[f.gap]?, ¬ lex.blank (read a) := by
  rcases h with ⟨-, ha⟩ | ⟨-, ha⟩ | ⟨-, ha⟩
  · exact ⟨_, by simp, lex.not_blank_of_quote ha⟩
  · exact ⟨_, by simp, lex.not_blank_of_quote ha⟩
  · exact ⟨_, by simp, ha⟩

theorem Leads.lt_gap {g : List α} {a : α} {f : Found β α} (h : Leads lex read (g ++ a :: l) f)
    (hg : ∀ c ∈ g, lex.blank (read c)) (ha : lex.blank (read a)) : g.length < f.gap := by
  obtain ⟨b, hb, hnb⟩ := h.getElem?_gap
  by_contra hle
  rcases Nat.lt_or_eq_of_le (Nat.le_of_not_lt hle) with hlt | heq
  · rw [getElem?_append_left hlt] at hb
    exact hnb (hg b (mem_of_getElem? hb))
  · rw [heq, getElem?_append_right le_rfl] at hb
    simp only [Nat.sub_self, getElem?_cons_zero, mem_def, some.injEq] at hb
    exact hnb (hb ▸ ha)

variable [DecidableEq β] (lex read)

def firstWord (l : List α) : Option (Found β α) :=
  let gap := (l.takeWhile fun a => lex.blank (read a)).length
  match l.dropWhile fun a => lex.blank (read a) with
  | [] => none
  | a :: t =>
    if lex.quote (read a) then
      match t.dropWhile fun c => read c ≠ read a with
      | [] => some ⟨gap, .opened (read a) t, []⟩
      | _ :: rest => some ⟨gap, .closed (read a) (t.takeWhile fun c => read c ≠ read a), rest⟩
    else
      some ⟨gap, .bare (a :: t.takeWhile fun c => lex.inner (read c)),
        t.dropWhile fun c => lex.inner (read c)⟩

variable {lex read}

/-! ### The first word -/

theorem takeWhile_append_of_head {r : List α} (hl : ∀ a ∈ l, p a) (hr : ∀ a ∈ r.head?, ¬ p a) :
    (l ++ r).takeWhile p = l := by
  rw [takeWhile_append_of_pos hl]
  rcases r with _ | ⟨a, r⟩
  · simp
  · rw [takeWhile_cons_of_neg (hr a rfl), append_nil]

theorem dropWhile_append_of_head {r : List α} (hl : ∀ a ∈ l, p a) (hr : ∀ a ∈ r.head?, ¬ p a) :
    (l ++ r).dropWhile p = r := by
  rw [dropWhile_append_of_pos hl]
  rcases r with _ | ⟨a, r⟩
  · simp
  · rw [dropWhile_cons_of_neg (hr a rfl)]

theorem firstWord_of_leads {f : Found β α} (h : Leads lex read l f) :
    firstWord lex read l = some f := by
  rcases h with @⟨g, a, w, b, rest, hg, ha, hw, hb⟩ | @⟨g, a, w, hg, ha, hw⟩ |
    @⟨g, a, w, rest, hg, ha, ha', hw, hr⟩
  · have hna : ∀ c ∈ (a :: (w ++ b :: rest)).head?, ¬ lex.blank (read c) := by
      rintro c ⟨⟩; exact lex.not_blank_of_quote ha
    have hnb : ∀ c ∈ (b :: rest).head?, ¬ decide (read c ≠ read a) := by
      rintro c ⟨⟩; simpa using hb
    have hw' : ∀ c ∈ w, decide (read c ≠ read a) := fun c hc => by simpa using hw c hc
    simp only [firstWord, takeWhile_append_of_head hg hna, dropWhile_append_of_head hg hna, ha,
      if_true, takeWhile_append_of_head hw' hnb, dropWhile_append_of_head hw' hnb]
  · have hna : ∀ c ∈ (a :: w).head?, ¬ lex.blank (read c) := by
      rintro c ⟨⟩; exact lex.not_blank_of_quote ha
    have hw' : w.dropWhile (fun c => decide (read c ≠ read a)) = [] :=
      dropWhile_eq_nil_iff.mpr fun c hc => by simpa using hw c hc
    simp only [firstWord, takeWhile_append_of_head hg hna, dropWhile_append_of_head hg hna, ha,
      if_true, hw']
  · have hna : ∀ c ∈ (a :: (w ++ rest)).head?, ¬ lex.blank (read c) := by
      rintro c ⟨⟩; exact ha
    simp only [firstWord, takeWhile_append_of_head hg hna, dropWhile_append_of_head hg hna,
      if_neg ha', takeWhile_append_of_head hw hr, dropWhile_append_of_head hw hr]

theorem head_dropWhile_not : ∀ a ∈ (l.dropWhile p).head?, ¬ p a := by
  intro a ha
  have := head?_dropWhile_not p l
  rw [mem_def.mp ha] at this
  simpa using this

theorem leads_of_firstWord {f : Found β α} (h : firstWord lex read l = some f) :
    Leads lex read l f := by
  have hl := takeWhile_append_dropWhile (p := fun a => lex.blank (read a)) (l := l)
  have hg : ∀ c ∈ l.takeWhile fun a => lex.blank (read a), lex.blank (read c) :=
    fun c hc => mem_takeWhile_imp (p := fun a => lex.blank (read a)) hc
  have hd := head_dropWhile_not (p := fun a => lex.blank (read a)) (l := l)
  simp only [firstWord] at h
  rcases hs : l.dropWhile (fun a => lex.blank (read a)) with _ | ⟨a, t⟩
  · simp [hs] at h
  rw [hs] at h hl hd
  have ha : ¬ lex.blank (read a) := hd a rfl
  by_cases hq : lex.quote (read a)
  · have hw : ∀ c ∈ t.takeWhile (fun c => decide (read c ≠ read a)), read c ≠ read a :=
      fun c hc => by simpa using mem_takeWhile_imp hc
    have ht := takeWhile_append_dropWhile (p := fun c => decide (read c ≠ read a)) (l := t)
    have hb := head_dropWhile_not (p := fun c => decide (read c ≠ read a)) (l := t)
    rcases hr : t.dropWhile (fun c => decide (read c ≠ read a)) with _ | ⟨b, rest⟩
    · simp only [hq, if_true, hr, some.injEq] at h
      rw [hr, append_nil] at ht
      rw [← hl, ← h]
      exact .opened hg hq (by rw [← ht]; exact hw)
    · simp only [hq, if_true, hr, some.injEq] at h
      rw [hr] at ht hb
      rw [← hl, ← h]
      nth_rewrite 1 [← ht]
      exact .closed hg hq hw (by simpa using hb b rfl)
  · simp only [hq, Bool.false_eq_true, if_false, some.injEq] at h
    rw [← hl, ← h]
    nth_rewrite 1 [← takeWhile_append_dropWhile (p := fun c => lex.inner (read c)) (l := t)]
    exact .bare hg ha hq (fun c hc => mem_takeWhile_imp (p := fun c => lex.inner (read c)) hc)
      head_dropWhile_not

theorem firstWord_eq_none_iff : firstWord lex read l = none ↔ ∀ a ∈ l, lex.blank (read a) := by
  rw [← dropWhile_eq_nil_iff]
  simp only [firstWord]
  rcases l.dropWhile (fun a => lex.blank (read a)) with _ | ⟨a, t⟩
  · simp
  · simp only [reduceCtorEq, iff_false]
    split_ifs
    · split <;> simp
    · simp

/-! ### All words -/

theorem length_rest_lt {f : Found β α} (h : firstWord lex read l = some f) :
    f.rest.length < l.length := by
  have := (leads_of_firstWord h).length_eq
  have := (leads_of_firstWord h).size_pos
  omega

variable (lex read) in
/-- The words of a line that begins at `p`, each with its span. -/
def split (p : ℕ) (l : List α) : List (Span × Word β α) :=
  match _h : firstWord lex read l with
  | none => []
  | some f =>
    (f.word.span (p + f.gap), f.word) :: split (p + f.gap + f.word.size) f.rest
termination_by l.length
decreasing_by exact length_rest_lt _h

theorem split_of_none (h : firstWord lex read l = none) (p : ℕ) : split lex read p l = [] := by
  rw [split]; split
  · rfl
  · simp_all

theorem split_of_leads {f : Found β α} (h : Leads lex read l f) (p : ℕ) :
    split lex read p l =
      (f.word.span (p + f.gap), f.word) :: split lex read (p + f.gap + f.word.size) f.rest := by
  have hf := firstWord_of_leads h
  rw [split]; split
  · simp_all
  · simp_all

@[simp] theorem split_nil (p : ℕ) : split lex read p [] = [] :=
  split_of_none (firstWord_eq_none_iff.mpr (by simp)) p

theorem split_eq_nil_iff {p : ℕ} : split lex read p l = [] ↔ ∀ a ∈ l, lex.blank (read a) := by
  rw [← firstWord_eq_none_iff]
  rcases h : firstWord lex read l with _ | f
  · simp [split_of_none h]
  · simp [split_of_leads (leads_of_firstWord h)]

variable (lex read) in
theorem words_induction {P : ℕ → List α → Prop}
    (hnone : ∀ p l, (∀ a ∈ l, lex.blank (read a)) → P p l)
    (hsome : ∀ p l f, Leads lex read l f → P (p + f.gap + f.word.size) f.rest → P p l) (p : ℕ)
    (l : List α) : P p l := by
  induction hn : l.length using Nat.strong_induction_on generalizing p l with
  | _ n ih =>
    rcases h : firstWord lex read l with _ | f
    · exact hnone p l (firstWord_eq_none_iff.mp h)
    · exact hsome p l f (leads_of_firstWord h) (ih _ (hn ▸ length_rest_lt h) _ _ rfl)

theorem le_start_of_mem_split {p : ℕ} {x : Span × Word β α} (hx : x ∈ split lex read p l) :
    p ≤ x.1.start := by
  induction p, l using words_induction lex read with
  | hnone p l h => simp [split_eq_nil_iff.mpr h] at hx
  | hsome p l f h ih =>
    rw [split_of_leads h] at hx
    rcases mem_cons.mp hx with rfl | hx
    · exact (Nat.le_add_right _ _).trans (Word.le_start_span _ _)
    · have := ih hx; omega

variable (lex read) in
theorem exists_covers {k : ℕ} {l : List α} {i : ℕ} {a : α} (hi : l[i]? = some a)
    (hb : ¬ lex.blank (read a)) (hq : ¬ lex.quote (read a)) :
    ∃ t ∈ split lex read k l, t.1.Covers (k + i) 1 := by
  induction k, l using words_induction lex read generalizing i with
  | hnone k l h => exact absurd (h a (mem_of_getElem? hi)) hb
  | hsome k l f h ih =>
    rw [split_of_leads h]
    rcases h.covers hi hb hq k with hc | ⟨j, rfl, hj⟩
    · exact ⟨_, mem_cons_self, hc⟩
    · obtain ⟨t, ht, hc⟩ := ih hj
      exact ⟨t, mem_cons_of_mem _ ht, by simpa [add_assoc] using hc⟩

variable (lex read) in
theorem pairwise_split (k : ℕ) (l : List α) :
    (split lex read k l).Pairwise fun s t => s.1.start + s.1.n ≤ t.1.start := by
  induction k, l using words_induction lex read with
  | hnone k l h => simp [split_eq_nil_iff.mpr h]
  | hsome k l f h ih =>
    rw [split_of_leads h]
    refine List.Pairwise.cons (fun t ht => ?_) ih
    have hr : f.rest ≠ [] := by
      intro hr
      rw [hr, split_nil] at ht
      exact not_mem_nil ht
    exact (h.end_le hr _).trans (le_start_of_mem_split ht)

theorem covers_unique {k : ℕ} {i j m : ℕ} {s t : Span × Word β α}
    (hs : (split lex read k l)[i]? = some s) (ht : (split lex read k l)[j]? = some t)
    (hsm : s.1.Covers m 1) (htm : t.1.Covers m 1) : i = j := by
  have hp := List.pairwise_iff_getElem.mp (pairwise_split lex read k l)
  obtain ⟨hi, rfl⟩ := List.getElem?_eq_some_iff.mp hs
  obtain ⟨hj, rfl⟩ := List.getElem?_eq_some_iff.mp ht
  have h1 := hsm
  have h2 := htm
  simp only [Span.Covers] at h1 h2
  by_contra hne
  rcases Nat.lt_or_gt_of_ne hne with hlt | hgt
  · have := hp i j hi hj hlt; omega
  · have := hp j i hj hi hgt; omega

/-! ### Symbols that stand for others -/

section map

variable {γ : Type*} (f : γ → α)

omit [DecidableEq β] in
theorem Leads.map {l : List γ} {g : Found β γ} (h : Leads lex (read ∘ f) l g) :
    Leads lex read (l.map f) ⟨g.gap, g.word.map f, g.rest.map f⟩ := by
  have hgl : ∀ g : List γ, (g.map f).length = g.length := fun g => length_map f
  rcases h with @⟨g, a, w, b, rest, hg, ha, hw, hb⟩ | @⟨g, a, w, hg, ha, hw⟩ |
    @⟨g, a, w, rest, hg, ha, ha', hw, hr⟩
  · simp only [map_append, map_cons, Word.map]
    rw [← hgl]
    exact .closed (by simpa using hg) ha (by simpa using hw) hb
  · simp only [map_append, map_cons, Word.map, map_nil]
    rw [← hgl]
    exact .opened (by simpa using hg) ha (by simpa using hw)
  · simp only [map_append, map_cons, Word.map]
    rw [← hgl]
    exact .bare (by simpa using hg) ha ha' (by simpa using hw) (by
      rw [head?_map]; rintro c hc
      obtain ⟨d, hd, rfl⟩ := mem_map.mp hc
      exact hr d hd)

theorem split_map (p : ℕ) (l : List γ) :
    split lex read p (l.map f) =
      (split lex (read ∘ f) p l).map fun x => (x.1, x.2.map f) := by
  induction p, l using words_induction lex (read ∘ f) with
  | hnone p l h =>
    rw [split_eq_nil_iff.mpr h, split_eq_nil_iff.mpr (by simpa using h), map_nil]
  | hsome p l g h ih =>
    rw [split_of_leads h, split_of_leads (h.map f)]
    simp [ih]

end map

end

end Inetutils.Lib.Words
