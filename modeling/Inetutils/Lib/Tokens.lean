import Inetutils.Lib.Words

/-! # Tokens of a line

Blanks separate the tokens of a line. A quote at the beginning of a token that has a second one
after it takes what stands between them, and one that has none takes the line to its end; a
delimiter is a token of its own; any other token goes up to a blank, a delimiter or what cuts it. -/

namespace Inetutils.Lib.Tokens

open Words List

variable {α : Type*}

structure Signs (α : Type*) where
  blank : α → Bool
  quote : α → Bool
  delim : α → Bool
  cut : α → Bool

def Signs.inner (sg : Signs α) (c : α) : Bool := !(sg.blank c || (sg.cut c || sg.delim c))

inductive Token (α : Type*)
  | quoted (q : α) (w : List α)
  | unmatched (q : α) (w : List α)
  | delimiter (c : α)
  | plain (w : List α)

namespace Token

def text : Token α → List α
  | quoted _ w => w
  | unmatched q w => q :: w
  | delimiter c => [c]
  | plain w => w

def size : Token α → ℕ
  | quoted _ w => w.length + 2
  | t => t.text.length

def isUnmatched : Token α → Bool
  | unmatched _ _ => true
  | _ => false

end Token

variable {sg : Signs α}

inductive First (sg : Signs α) : List α → ℕ → Token α → List α → Prop
  | quoted {g w rest : List α} {q : α} (hg : ∀ c ∈ g, sg.blank c) (hb : ¬ sg.blank q)
    (hq : sg.quote q)
      (hw : ∀ c ∈ w, c ≠ q) : First sg (g ++ q :: (w ++ q :: rest)) g.length (.quoted q w) rest
  | unmatched {g w : List α} {q : α} (hg : ∀ c ∈ g, sg.blank c) (hb : ¬ sg.blank q)
    (hq : sg.quote q)
      (hw : ∀ c ∈ w, c ≠ q) : First sg (g ++ q :: w) g.length (.unmatched q w) []
  | delimiter {g rest : List α} {c : α} (hg : ∀ c ∈ g, sg.blank c) (hb : ¬ sg.blank c)
    (hq : ¬ sg.quote c)
      (hd : sg.delim c) : First sg (g ++ c :: rest) g.length (.delimiter c) rest
  | plain {g w rest : List α} {c : α} (hg : ∀ c ∈ g, sg.blank c) (hb : ¬ sg.blank c)
    (hq : ¬ sg.quote c)
      (hd : ¬ sg.delim c) (hw : ∀ c ∈ w, sg.inner c) (hr : ∀ c ∈ rest.head?, ¬ sg.inner c) :
      First sg (g ++ c :: (w ++ rest)) g.length (.plain (c :: w)) rest

inductive Reads (sg : Signs α) : List α → List (Token α) → Prop
  | nil {l : List α} (h : ∀ c ∈ l, sg.blank c) : Reads sg l []
  | cons {l rest : List α} {n : ℕ} {t : Token α} {ts : List (Token α)}
    (hfirst : First sg l n t rest)
      (hrest : Reads sg rest ts) : Reads sg l (t :: ts)

variable {l rest : List α} {n : ℕ} {t : Token α} {ts ts' : List (Token α)}

theorem First.length_eq (h : First sg l n t rest) : l.length = n + t.size + rest.length := by
  cases h <;> simp [Token.size, Token.text] <;> omega

theorem First.size_pos (h : First sg l n t rest) : 0 < t.size := by
  cases h <;> simp [Token.size, Token.text]

theorem First.isUnmatched_eq_false (h : First sg l n t rest) (hrest : rest ≠ []) :
    t.isUnmatched = false := by
  cases h with
  | unmatched => exact absurd rfl hrest
  | _ => rfl

theorem First.drop_eq (h : First sg l n t rest) : l.drop (n + t.size) = rest := by
  have hsuffix : rest <:+ l := by
    cases h with
    | @quoted g w _ q => exact ⟨g ++ q :: (w ++ [q]), by simp⟩
    | unmatched => exact nil_suffix
    | @delimiter g _ c => exact ⟨g ++ [c], by simp⟩
    | @plain g w _ c => exact ⟨g ++ c :: w, by simp⟩
  obtain ⟨k, hk⟩ := hsuffix
  have hlen := h.length_eq
  rw [← hk, length_append] at hlen
  rw [← hk, drop_left' (by omega)]

section
variable [DecidableEq α]

def first (sg : Signs α) (l : List α) : Option (ℕ × Token α × List α) :=
  match l.dropWhile sg.blank with
  | [] => none
  | c :: r =>
    if sg.quote c then
      if c ∈ r then
        some ((l.takeWhile sg.blank).length, .quoted c (r.takeWhile (· ≠ c)),
          (r.dropWhile (· ≠ c)).tail)
      else some ((l.takeWhile sg.blank).length, .unmatched c r, [])
    else if sg.delim c then some ((l.takeWhile sg.blank).length, .delimiter c, r)
    else some ((l.takeWhile sg.blank).length, .plain (c :: r.takeWhile sg.inner),
      r.dropWhile sg.inner)

theorem First.eq (h : First sg l n t rest) : first sg l = some (n, t, rest) := by
  cases h with
  | @quoted g w _ q hg hb hq hw =>
    have hblank : ∀ c ∈ (q :: (w ++ q :: rest)).head?, ¬ sg.blank c := by rintro c ⟨⟩; exact hb
    have hne : ∀ c ∈ w, decide (c ≠ q) = true := fun c hc => decide_eq_true (hw c hc)
    have hq' : ∀ c ∈ (q :: rest).head?, ¬ decide (c ≠ q) = true := by rintro c ⟨⟩; simp
    rw [first, takeWhile_append_of_head hg hblank, dropWhile_append_of_head hg hblank]
    simp only [if_pos hq]
    rw [if_pos (by simp), takeWhile_append_of_head hne hq',
      dropWhile_append_of_head hne hq', tail_cons]
  | @unmatched g w q hg hb hq hw =>
    have hblank : ∀ c ∈ (q :: w).head?, ¬ sg.blank c := by rintro c ⟨⟩; exact hb
    rw [first, takeWhile_append_of_head hg hblank, dropWhile_append_of_head hg hblank]
    simp only [if_pos hq]
    rw [if_neg fun hmem => hw q hmem rfl]
  | @delimiter g _ c hg hb hq hd =>
    have hblank : ∀ a ∈ (c :: rest).head?, ¬ sg.blank a := by rintro a ⟨⟩; exact hb
    rw [first, takeWhile_append_of_head hg hblank, dropWhile_append_of_head hg hblank]
    simp only [if_neg hq, if_pos hd]
  | @plain g w _ c hg hb hq hd hw hr =>
    have hblank : ∀ a ∈ (c :: (w ++ rest)).head?, ¬ sg.blank a := by rintro a ⟨⟩; exact hb
    rw [first, takeWhile_append_of_head hg hblank, dropWhile_append_of_head hg hblank]
    simp only [if_neg hq, if_neg hd]
    rw [takeWhile_append_of_head hw hr, dropWhile_append_of_head hw hr]

theorem first_eq_none (h : ∀ c ∈ l, sg.blank c) : first sg l = none := by
  rw [first, dropWhile_eq_nil_iff.2 h]

theorem Reads.unique (h : Reads sg l ts) (h' : Reads sg l ts') : ts = ts' := by
  induction h generalizing ts' with
  | nil hblank =>
    cases h' with
    | nil => rfl
    | cons hfirst => exact nomatch (first_eq_none hblank).symm.trans hfirst.eq
  | cons hfirst _ ih =>
    cases h' with
    | nil hblank => exact nomatch (first_eq_none hblank).symm.trans hfirst.eq
    | cons hfirst' hrest' =>
      obtain ⟨-, rfl, rfl⟩ := Option.some.inj (hfirst.eq.symm.trans hfirst'.eq)
      rw [ih hrest']

end

theorem exists_first (sg : Signs α) (l : List α) : (∀ c ∈ l, sg.blank c) ∨ ∃ n t rest,
    First sg l n t rest := by
  rcases hl : l.dropWhile sg.blank with - | ⟨c, r⟩
  · exact .inl (dropWhile_eq_nil_iff.1 hl)
  · have hg : ∀ c ∈ l.takeWhile sg.blank, sg.blank c := fun _ => mem_takeWhile_imp
    have hb : ¬ sg.blank c := head_dropWhile_not (l := l) c (by rw [hl]; rfl)
    rw [← takeWhile_append_dropWhile (p := sg.blank) (l := l), hl]
    refine .inr ?_
    by_cases hq : sg.quote c
    · by_cases hmem : c ∈ r
      · obtain ⟨w, rest, rfl, hw⟩ := eq_append_cons_of_mem hmem
        exact ⟨_, _, _, .quoted hg hb hq fun a ha he => hw (he ▸ ha)⟩
      · exact ⟨_, _, _, .unmatched hg hb hq fun a ha he => hmem (he ▸ ha)⟩
    · by_cases hd : sg.delim c
      · exact ⟨_, _, _, .delimiter hg hb hq hd⟩
      · rw [← takeWhile_append_dropWhile (p := sg.inner) (l := r)]
        exact ⟨_, _, _, .plain hg hb hq hd (fun _ => mem_takeWhile_imp) head_dropWhile_not⟩

theorem exists_reads (sg : Signs α) (l : List α) : ∃ ts, Reads sg l ts := by
  induction hn : l.length using Nat.strong_induction_on generalizing l with
  | _ n ih =>
    rcases exists_first sg l with hblank | ⟨k, t, rest, hfirst⟩
    · exact ⟨[], .nil hblank⟩
    · have hlen := hfirst.length_eq
      have hpos := hfirst.size_pos
      obtain ⟨ts, hts⟩ := ih rest.length (by omega) rest rfl
      exact ⟨t :: ts, .cons hfirst hts⟩

end Inetutils.Lib.Tokens
