import Inetutils.Lib.Words

/-! # Values put in a line before it is split

A template is a list of symbols and values; its text has the values in their places, and with one
letter for each value it is a line of its own. `Inside` and `Follows` say where the values of a
template are in the words of its text, `Intact` that every value is whole in the word where its
letter is. -/

namespace Inetutils.Lib.Templates

open Words List

variable {s : Span}

inductive Piece (β : Type*)
  | lit (b : β)
  | value (v : List β)
  deriving DecidableEq

namespace Piece

variable {β : Type*}

def text : Piece β → List β
  | lit b => [b]
  | value v => v

/-- The symbol that stands for a piece when each value is the letter `x`. -/
def letter (x : β) : Piece β → β
  | lit b => b
  | value _ => x

def lettered (x : β) : Piece β → Piece β
  | lit b => lit b
  | value _ => value [x]

end Piece

variable {β : Type*}

def text (ps : List (Piece β)) : List β := ps.flatMap Piece.text

@[simp] theorem text_nil : text ([] : List (Piece β)) = [] := rfl

@[simp] theorem text_append (ps qs : List (Piece β)) : text (ps ++ qs) = text ps ++ text qs :=
  flatMap_append

@[simp] theorem text_lit (b : β) (ps : List (Piece β)) : text (.lit b :: ps) = b :: text ps := rfl

@[simp] theorem text_value (v : List β) (ps : List (Piece β)) :
    text (.value v :: ps) = v ++ text ps := rfl

theorem text_lettered (x : β) (ps : List (Piece β)) :
    text (ps.map (Piece.lettered x)) = ps.map (Piece.letter x) := by
  induction ps with
  | nil => rfl
  | cons a ps ih =>
    rcases a with b | v
    · rw [map_cons, map_cons, ← ih]; rfl
    · rw [map_cons, map_cons, ← ih]; rfl

variable {ps : List (Piece β)} {P : β → Prop} {u u' l v : List β} {d : β}

theorem exists_value_of_text_eq (h : text ps = u ++ d :: u') (hd : P d)
    (hlit : ∀ b, .lit b ∈ ps → ¬ P b) :
    ∃ A v B, ps = A ++ .value v :: B ∧ d ∈ v ∧ u.length < (text A).length + v.length := by
  induction ps generalizing u with
  | nil => simp at h
  | cons a ps ih =>
    rcases a with b | v
    · rcases u with _ | ⟨c, u⟩
      · simp only [text_lit, nil_append, List.cons.injEq] at h
        exact absurd (h.1 ▸ hd) (hlit b mem_cons_self)
      · simp only [text_lit, cons_append, List.cons.injEq] at h
        obtain ⟨A, w, B, rfl, hdw, hlt⟩ := ih h.2 fun b hb => hlit b (mem_cons_of_mem _ hb)
        refine ⟨.lit b :: A, w, B, rfl, hdw, ?_⟩
        simp only [text_lit, length_cons]; omega
    · rw [text_value] at h
      rcases append_eq_append_iff.mp h with ⟨s, rfl, hs⟩ | ⟨s, rfl, hs⟩
      · obtain ⟨A, w, B, rfl, hdw, hlt⟩ := ih hs fun b hb => hlit b (mem_cons_of_mem _ hb)
        refine ⟨.value v :: A, w, B, rfl, hdw, ?_⟩
        simp only [text_value, length_append]; omega
      · rcases s with _ | ⟨e, s⟩
        · simp only [nil_append, append_nil] at hs ⊢
          obtain ⟨A, w, B, rfl, hdw, hlt⟩ := ih (u := []) (by simpa using hs.symm)
            fun b hb => hlit b (mem_cons_of_mem _ hb)
          refine ⟨.value u :: A, w, B, rfl, hdw, ?_⟩
          simp only [text_value, length_append, length_nil] at hlt ⊢; omega
        · simp only [cons_append, List.cons.injEq] at hs
          exact ⟨[], u ++ e :: s, ps, rfl, by simp [hs.1], by simp⟩

theorem length_takeWhile_le {p : β → Bool} (hd : ¬ p d) (h : l <+: u ++ d :: v) :
    (l.takeWhile p).length ≤ u.length := by
  by_contra hlt
  have hu : u ++ [d] <+: u ++ d :: v := ⟨v, by simp⟩
  have := prefix_of_prefix_length_le hu ((List.takeWhile_prefix p).trans h)
    (by rw [length_append, length_singleton]; omega)
  exact hd (mem_takeWhile_imp (this.subset (by simp)))

section

variable (lex : Lexis β)

structure Letter where
  sym : β
  not_quote : ¬ lex.quote sym
  not_space : ¬ lex.space sym

def trim (l : List β) : List β := l.rdropWhile lex.space

variable {lex}

theorem Letter.not_blank (x : Letter lex) : ¬ lex.blank x.sym :=
  fun h => x.not_space (lex.space_of_blank h)

theorem Letter.inner (x : Letter lex) : lex.inner x.sym :=
  lex.inner_of_plain x.not_blank x.not_quote

/-! ### Trimming -/

theorem trim_eq_nil_iff : trim lex l = [] ↔ ∀ b ∈ l, lex.space b :=
  rdropWhile_eq_nil_iff

variable {r : List β} {b : β} {qs : List (Piece β)} {last : Prop}

theorem trim_append_of_space (hr : ∀ b ∈ r, lex.space b) : trim lex (l ++ r) = trim lex l := by
  rw [trim, trim, List.rdropWhile, reverse_append,
    dropWhile_append_of_pos (by simpa using hr), List.rdropWhile]

theorem trim_append (hr : ∃ b ∈ r, ¬ lex.space b) : trim lex (l ++ r) = l ++ trim lex r := by
  rw [trim, trim, List.rdropWhile, reverse_append, dropWhile_append,
    if_neg (by simpa using hr), reverse_append, reverse_reverse, List.rdropWhile]

theorem trim_cons (h : ∃ c ∈ b :: l, ¬ lex.space c) : trim lex (b :: l) = b :: trim lex l := by
  by_cases hl : ∀ c ∈ l, lex.space c
  · have hb : ¬ lex.space b := by
      obtain ⟨c, hc, hs⟩ := h
      rcases mem_cons.mp hc with rfl | hc
      · exact hs
      · exact absurd (hl c hc) hs
    rw [trim_eq_nil_iff.mpr hl, ← singleton_append, trim_append_of_space hl]
    simp [trim, rdropWhile_singleton, hb]
  · simp only [not_forall] at hl
    obtain ⟨c, hc, hs⟩ := hl
    exact trim_append (l := [b]) ⟨c, hc, hs⟩

theorem mem_trim (hb : b ∈ l) (hs : ¬ lex.space b) : b ∈ trim lex l := by
  obtain ⟨u, u', rfl⟩ := append_of_mem hb
  rw [trim_append ⟨b, mem_cons_self, hs⟩, trim_cons ⟨b, mem_cons_self, hs⟩]
  simp

theorem trim_prefix_self (l : List β) : trim lex l <+: l := List.rdropWhile_prefix _ _

theorem length_trim_le (l : List β) : (trim lex l).length ≤ l.length :=
  (trim_prefix_self l).length_le

/-! ### Values in the text of a word -/

/-- The values of `ps`, when the text of `ps` begins at `p`, are inside the span. -/
def Inside (p : ℕ) (ps : List (Piece β)) (s : Span) : Prop :=
  ∀ A v B, ps = A ++ .value v :: B → s.Covers (p + (text A).length) v.length

theorem inside_of_le {p : ℕ} (h : s.start ≤ p) (h' : p + (text ps).length ≤ s.start + s.n) :
    Inside p ps s := by
  rintro A v B rfl
  simp only [text_append, text_value, length_append] at h'
  constructor <;> omega

theorem Inside.start_le {p : ℕ} (h : Inside p (.value v :: ps) s) : s.start ≤ p := (h [] v ps rfl).1

theorem Inside.le_end {p : ℕ} (h : Inside p (ps ++ [.value v]) s) :
    p + (text (ps ++ [.value v])).length ≤ s.start + s.n := by
  have := (h ps v [] rfl).2
  simp only [text_append, text_value, text_nil, append_nil, length_append]
  omega

theorem not_inside_of_text_eq {p : ℕ} (h : text ps = u ++ d :: u') (hd : P d)
    (hlit : ∀ b, .lit b ∈ ps → ¬ P b) (hs : s.start + s.n ≤ p + u.length) : ¬ Inside p ps s := by
  intro hin
  obtain ⟨A, v, B, rfl, -, hlt⟩ := exists_value_of_text_eq h hd hlit
  have := (hin A v B rfl).2
  omega

/-- A value of `ps` whose letter is in the first span is whole in the second. -/
def Follows (k p : ℕ) (ps : List (Piece β)) (t s : Span) : Prop :=
  ∀ A v B, ps = A ++ .value v :: B → t.Covers (k + A.length) 1 →
    s.Covers (p + (text A).length) v.length

theorem follows_append_iff {k p : ℕ} {C : List (Piece β)} {t : Span} (ht : k + C.length ≤ t.start) :
    Follows k p (C ++ ps) t s ↔ Follows (k + C.length) (p + (text C).length) ps t s := by
  constructor
  · rintro h A v B rfl hc
    have := h (C ++ A) v B (by simp) (by simpa [add_assoc] using hc)
    simpa [add_assoc] using this
  · intro h A v B hps hc
    have hle : C.length ≤ A.length := by have := hc.1; omega
    obtain ⟨A', rfl⟩ : ∃ A', A = C ++ A' := by
      rcases append_eq_append_iff.mp hps with ⟨s, rfl, -⟩ | ⟨s, rfl, -⟩
      · exact ⟨s, rfl⟩
      · have hs : s.length = 0 := by rw [length_append] at hle; omega
        exact ⟨[], by simp [eq_nil_of_length_eq_zero hs]⟩
    rw [append_assoc] at hps
    have := h A' v B (append_cancel_left hps) (by simpa [add_assoc] using hc)
    simpa [add_assoc] using this

theorem follows_iff_inside {k p : ℕ} {G w r : List (Piece β)} {t : Span}
    (ht : ∀ A v B, G ++ (w ++ r) = A ++ .value v :: B →
      (t.Covers (k + A.length) 1 ↔ G.length ≤ A.length ∧ A.length < G.length + w.length)) :
    Follows k p (G ++ (w ++ r)) t s ↔ Inside (p + (text G).length) w s := by
  constructor
  · rintro h A v B rfl
    have hps : G ++ (A ++ .value v :: B ++ r) = (G ++ A) ++ .value v :: (B ++ r) := by simp
    have := h _ v _ hps ((ht _ v _ hps).mpr (by simp))
    simpa [add_assoc] using this
  · intro h A v B hps hc
    obtain ⟨hle, hlt⟩ := (ht A v B hps).mp hc
    obtain ⟨A', rfl⟩ : ∃ A', A = G ++ A' := by
      rcases append_eq_append_iff.mp hps with ⟨s, rfl, -⟩ | ⟨s, rfl, -⟩
      · exact ⟨s, rfl⟩
      · have hs : s.length = 0 := by rw [length_append] at hle; omega
        exact ⟨[], by simp [eq_nil_of_length_eq_zero hs]⟩
    rw [append_assoc] at hps
    have hw := append_cancel_left hps
    obtain ⟨B', rfl⟩ : ∃ B', w = A' ++ .value v :: B' := by
      rcases append_eq_append_iff.mp hw with ⟨s, hs, -⟩ | ⟨s, rfl, hs⟩
      · have := congrArg List.length hs
        simp only [length_append] at this hlt
        omega
      · rcases s with _ | ⟨a, s⟩
        · simp at hlt
        · simp only [cons_append, List.cons.injEq] at hs
          exact ⟨s, by rw [hs.1]⟩
    have := h A' v B' rfl
    simpa [add_assoc] using this

/-- A template of which nothing is trimmed when its values are letters. -/
def Trimmed (x : Letter lex) (ps : List (Piece β)) : Prop :=
  ∀ a ∈ ps.getLast?, ¬ lex.space (a.letter x.sym)

variable {x : Letter lex}

theorem Trimmed.of_append (ps : List (Piece β)) (h : Trimmed x (ps ++ qs)) : Trimmed x qs := by
  rcases eq_nil_or_concat' qs with rfl | ⟨qs, a, rfl⟩
  · intro a ha; simp at ha
  · intro b hb
    refine h b ?_
    rw [← append_assoc, getLast?_concat]
    rwa [getLast?_concat] at hb

theorem Trimmed.of_cons_append {a : Piece β} (h : Trimmed x (a :: (ps ++ qs))) : Trimmed x qs := by
  rw [← cons_append] at h
  exact h.of_append _

theorem Trimmed.eq_nil_of_blank (h : Trimmed x ps) (hb : ∀ a ∈ ps, lex.blank (a.letter x.sym)) :
    ps = [] := by
  rcases eq_nil_or_concat' ps with rfl | ⟨qs, a, rfl⟩
  · rfl
  · exact absurd (lex.space_of_blank (hb a (by simp))) (h a (by simp))

theorem trim_text_or_le (h : Trimmed x ps) {p : ℕ} (hin : Inside p ps s) :
    trim lex (text ps) = text ps ∨ p + (text ps).length ≤ s.start + s.n := by
  rcases eq_nil_or_concat' ps with rfl | ⟨qs, b | v, rfl⟩
  · exact .inl rfl
  · have hb : ¬ lex.space b := h (.lit b) (by simp)
    left
    simp [trim, rdropWhile_concat_neg, hb]
  · exact .inr hin.le_end

/-! ### Literals -/

theorem eq_lit_of_letter {a : Piece β} (h : a.letter x.sym ≠ x.sym) :
    ∃ b, a = .lit b ∧ a.letter x.sym = b := by
  rcases a with b | v
  · exact ⟨b, rfl, rfl⟩
  · exact absurd rfl h

theorem eq_lit_of_quote {a : Piece β} (h : lex.quote (a.letter x.sym)) :
    ∃ q, a = .lit q ∧ a.letter x.sym = q :=
  eq_lit_of_letter fun he => x.not_quote (he ▸ h)

theorem length_text_of_blank {g : List (Piece β)} (hg : ∀ c ∈ g, lex.blank (c.letter x.sym)) :
    (text g).length = g.length ∧ ∀ b ∈ text g, lex.blank b := by
  induction g with
  | nil => simp
  | cons a g ih =>
    obtain ⟨hl, hb⟩ := ih fun c hc => hg c (mem_cons_of_mem _ hc)
    have ha := hg a mem_cons_self
    obtain ⟨b, rfl, -⟩ := eq_lit_of_letter (x := x) (a := a) fun he => x.not_blank (he ▸ ha)
    refine ⟨by simp [hl], fun c hc => ?_⟩
    rcases mem_cons.mp hc with rfl | hc
    · exact ha
    · exact hb c hc

/-! ### Lines of symbols -/

section

variable {g w rest : List β} {q c : β}

theorem leads_closed (rest : List β) (hg : ∀ b ∈ g, lex.blank b) (hq : lex.quote q) (hw : q ∉ w) :
    Leads lex id (g ++ q :: (w ++ q :: rest)) ⟨g.length, .closed q w, rest⟩ :=
  .closed (a := q) (b := q) hg hq (fun _ hc he => hw ((show _ = q from he) ▸ hc)) rfl

theorem leads_opened (hg : ∀ b ∈ g, lex.blank b) (hq : lex.quote q) (hw : q ∉ w) :
    Leads lex id (g ++ q :: w) ⟨g.length, .opened q w, []⟩ :=
  .opened (a := q) hg hq fun _ hc he => hw ((show _ = q from he) ▸ hc)

theorem leads_bare (hg : ∀ b ∈ g, lex.blank b) (hc : ¬ lex.blank c) (hc' : ¬ lex.quote c) :
    Leads lex id (g ++ c :: w)
      ⟨g.length, .bare (c :: w.takeWhile lex.inner), w.dropWhile lex.inner⟩ := by
  have h : Leads lex id (g ++ c :: (w.takeWhile lex.inner ++ w.dropWhile lex.inner))
      ⟨g.length, .bare (c :: w.takeWhile lex.inner), w.dropWhile lex.inner⟩ :=
    .bare hg hc hc' (fun _ hb => mem_takeWhile_imp (p := lex.inner) (l := w) hb)
      (head_dropWhile_not (p := lex.inner) (l := w))
  rwa [takeWhile_append_dropWhile] at h

end

/-! ### Trimmed templates -/

theorem trimmed_rest {f : Found β (Piece β)} (h : Leads lex (Piece.letter x.sym) ps f)
    (ht : Trimmed x ps) : Trimmed x f.rest := by
  rcases h with @⟨g, a, w, b, rest, -⟩ | ⟨-⟩ | @⟨g, a, w, rest, -⟩
  · exact Trimmed.of_append (g ++ a :: (w ++ [b])) (by simpa using ht)
  · intro a ha; simp at ha
  · exact Trimmed.of_append (g ++ a :: w) (by simpa using ht)

variable (x) in
/-- The template without the spaces that are trimmed when its values are letters. -/
def trimTemplate (ps : List (Piece β)) : List (Piece β) :=
  ps.rdropWhile fun a => lex.space (a.letter x.sym)

theorem trimTemplate_append (ps : List (Piece β)) : ∃ tail,
    trimTemplate x ps ++ tail = ps ∧ (∀ a ∈ tail, lex.space (a.letter x.sym)) ∧
      ∀ b ∈ text tail, lex.space b := by
  have htail : ∀ a ∈ ps.rtakeWhile fun a => lex.space (a.letter x.sym),
      lex.space (a.letter x.sym) := fun a ha =>
    mem_rtakeWhile_imp (p := fun a => lex.space (Piece.letter x.sym a)) ha
  refine ⟨_, rdropWhile_append_rtakeWhile, htail, fun b hb => ?_⟩
  obtain ⟨a, ha, hba⟩ := mem_flatMap.mp hb
  have hs := htail a ha
  have hne : a.letter x.sym ≠ x.sym := fun he => x.not_space (by rwa [he] at hs)
  obtain ⟨c, rfl, -⟩ := eq_lit_of_letter hne
  rw [Piece.text, mem_singleton] at hba
  exact hba ▸ hs

theorem trimmed_trimTemplate (ps : List (Piece β)) : Trimmed x (trimTemplate x ps) := by
  intro a ha
  have hne : trimTemplate x ps ≠ [] := by rintro he; simp [he] at ha
  have := rdropWhile_last_not _ ps hne
  rw [getLast?_eq_some_getLast hne, Option.mem_def, Option.some.injEq] at ha
  rwa [← ha]

/-! ### The condition -/

variable (lex) in
/-- What the values of a word of the template may be. A bare word must not end where its text does
not, and begins with neither a blank nor a quote; or it is the last word, and begins with a quote
that does not come again. -/
def WordFits (last : Prop) : Word β (Piece β) → Prop
  | .closed q w => ∀ v, .value v ∈ w → q ∉ v
  | .opened q w => (∀ v, .value v ∈ w → q ∉ v) ∧
      (text w).length ≤ (trim lex (text w)).length + 1
  | .bare w =>
      ((∃ c ∈ (text w).head?, ¬ lex.blank c ∧ ¬ lex.quote c) ∧
        (∀ v, .value v ∈ w → ∀ b ∈ v, lex.inner b) ∧ (last → trim lex (text w) = text w)) ∨
      (last ∧ ∃ q r, text w = q :: r ∧ lex.quote q ∧ q ∉ r ∧ r.length ≤ (trim lex r).length + 1)

variable (lex) in
def Fits : List (Word β (Piece β)) → Prop
  | [] => True
  | w :: ws => WordFits lex (ws = []) w ∧ Fits ws

theorem exists_head_of_wordFits {w : List (Piece β)} (h : WordFits lex last (.bare w)) :
    ∃ c r, text w = c :: r ∧ ¬ lex.blank c ∧
      (lex.quote c → last ∧ c ∉ r ∧ r.length ≤ (trim lex r).length + 1) ∧
      (¬ lex.quote c → (∀ v, .value v ∈ w → ∀ b ∈ v, lex.inner b) ∧
        (last → trim lex (text w) = text w)) := by
  rcases h with ⟨⟨c, hc, hb, hq⟩, hin, ht⟩ | ⟨hl, q, r, hr, hq, hmem, hle⟩
  · obtain ⟨r, hr⟩ : ∃ r, text w = c :: r := head?_eq_some_iff.mp hc
    exact ⟨c, r, hr, hb, fun h => absurd h hq, fun _ => ⟨hin, ht⟩⟩
  · exact ⟨q, r, hr, lex.not_blank_of_quote hq, fun _ => ⟨hl, hmem, hle⟩, fun h => absurd hq h⟩

theorem exists_not_space_of_wordFits {w : List (Piece β)} (h : WordFits lex last (.bare w))
    (hl : last) : ∃ b ∈ text w, ¬ lex.space b := by
  obtain ⟨c, r, hc, -, hq, hp⟩ := exists_head_of_wordFits h
  by_cases hcq : lex.quote c
  · exact ⟨c, by simp [hc], lex.not_space_of_quote hcq⟩
  · by_contra hs
    simp only [not_exists, not_and, not_not] at hs
    have := (hp hcq).2 hl
    rw [trim_eq_nil_iff.mpr hs, hc] at this
    exact cons_ne_nil _ _ this.symm

theorem wordFits_iff_of_plain {w : List (Piece β)} {c : β} (hb : ¬ lex.blank c) (hq : ¬ lex.quote c)
    (hr : text w = c :: r) :
    WordFits lex last (.bare w) ↔
      (∀ v, .value v ∈ w → ∀ b ∈ v, lex.inner b) ∧ (last → trim lex (c :: r) = c :: r) := by
  rw [WordFits, hr]
  constructor
  · rintro (⟨-, h⟩ | ⟨-, q, r', he, hq', -⟩)
    · exact h
    · rw [List.cons.injEq] at he
      exact absurd (he.1 ▸ hq') hq
  · exact fun h => .inl ⟨⟨c, rfl, hb, hq⟩, h⟩

theorem inner_of_value {w : List (Piece β)} {c : β} (hb : ¬ lex.blank c) (hq : ¬ lex.quote c)
    (hr : text w = c :: r) (hin : ∀ b ∈ r, lex.inner b) :
    ∀ v, .value v ∈ w → ∀ b ∈ v, lex.inner b := by
  intro v hv b hbv
  have hbt : b ∈ text w := mem_flatMap.mpr ⟨_, hv, hbv⟩
  rw [hr] at hbt
  rcases mem_cons.mp hbt with rfl | hbt
  · exact lex.inner_of_plain hb hq
  · exact hin b hbt

/-! ### A bare word -/

variable (x) in
structure IsBare (g : List (Piece β)) (a : Piece β) (w rest : List (Piece β)) : Prop where
  blank : ∀ c ∈ g, lex.blank (c.letter x.sym)
  not_blank : ¬ lex.blank (a.letter x.sym)
  not_quote : ¬ lex.quote (a.letter x.sym)
  inner : ∀ c ∈ w, lex.inner (c.letter x.sym)
  stops : ∀ c ∈ rest.head?, ¬ lex.inner (c.letter x.sym)

namespace IsBare

variable {k p : ℕ} {g w rest : List (Piece β)} {a : Piece β} (h : IsBare x g a w rest)
include h

theorem leads : Leads lex (Piece.letter x.sym) (g ++ a :: (w ++ rest))
    ⟨g.length, .bare (a :: w), rest⟩ :=
  .bare h.blank h.not_blank h.not_quote h.inner h.stops

theorem length_text : (text g).length = g.length := (length_text_of_blank h.blank).1

theorem follows_iff : Follows k p (g ++ a :: (w ++ rest))
    (Word.span (β := β) (k + g.length) (.bare (a :: w))) s ↔ Inside (p + g.length) (a :: w) s := by
  have := follows_iff_inside (k := k) (p := p) (G := g) (w := a :: w) (r := rest)
    (t := Word.span (β := β) (k + g.length) (.bare (a :: w))) (s := s)
    fun A v B _ => by simp only [Word.span, Span.Covers]; omega
  simpa [h.length_text] using this

theorem inner_of_lit (hb : .lit b ∈ a :: w) : lex.inner b := by
  rcases mem_cons.mp hb with rfl | hb
  · exact lex.inner_of_plain h.not_blank h.not_quote
  · exact h.inner _ hb

theorem eq_value {c : β} {t y : List β} (hc : lex.blank c ∨ lex.quote c)
    (hy : text (a :: w) ++ t = c :: y) : ∃ v, a = .value v := by
  rcases a with b | v
  · simp only [text_lit, cons_append, List.cons.injEq] at hy
    rcases hc with hc | hc
    · exact absurd (hy.1 ▸ hc) h.not_blank
    · exact absurd (hy.1 ▸ hc) h.not_quote
  · exact ⟨v, rfl⟩

theorem not_inside_of_lt {c : β} {t y : List β} (hc : lex.blank c ∨ lex.quote c)
    (hy : text (a :: w) ++ t = c :: y) (hs : p < s.start) : ¬ Inside p (a :: w) s := by
  obtain ⟨v, rfl⟩ := h.eq_value hc hy
  intro hin
  have := hin.start_le
  omega

theorem trim_text : (trim lex (text (g ++ a :: (w ++ rest))) = [] ∧
      ∀ b ∈ text (a :: w) ++ text rest, lex.space b) ∨
    ∃ c y, text (a :: w) ++ text rest = c :: y ∧ (∃ b ∈ c :: y, ¬ lex.space b) ∧
      trim lex (text (g ++ a :: (w ++ rest))) = text g ++ c :: trim lex y := by
  have hgb := (length_text_of_blank h.blank).2
  have e : text (g ++ a :: (w ++ rest)) = text g ++ (text (a :: w) ++ text rest) := by
    rw [← cons_append, text_append, text_append]
  rw [e]
  by_cases hs : ∃ b ∈ text (a :: w) ++ text rest, ¬ lex.space b
  · right
    rcases hy : text (a :: w) ++ text rest with _ | ⟨c, y⟩
    · simp [hy] at hs
    · rw [hy] at hs
      exact ⟨c, y, rfl, hs, by rw [trim_append hs, trim_cons hs]⟩
  · left
    simp only [not_exists, not_and, not_not] at hs
    refine ⟨trim_eq_nil_iff.mpr fun b hb => ?_, hs⟩
    rcases mem_append.mp hb with hb | hb
    · exact lex.space_of_blank (hgb b hb)
    · exact hs b hb

theorem eq_nil_or_stops : rest = [] ∨ ∃ d ds, text rest = d :: ds ∧ ¬ lex.inner d := by
  rcases rest with _ | ⟨a', rest⟩
  · exact .inl rfl
  · right
    have hs := h.stops a' rfl
    rcases a' with d | v
    · exact ⟨d, text rest, rfl, hs⟩
    · exact absurd x.inner hs

end IsBare

/-! ### Nothing added, split or removed -/

/-- As many words, and each value whole in the word where its letter is. -/
def Intact (plain real : List Span) (ps : List (Piece β)) : Prop :=
  plain.length = real.length ∧ ∀ A v B, ps = A ++ .value v :: B → ∃ (i : ℕ) (t s : Span),
    plain[i]? = some t ∧ real[i]? = some s ∧ t.Covers A.length 1 ∧ s.Covers (text A).length v.length

theorem intact_append_iff {plain real : List Span} {tail : List (Piece β)}
    (ht : ∀ v, Piece.value v ∉ tail) : Intact plain real (ps ++ tail) ↔ Intact plain real ps := by
  refine and_congr_right fun _ => ⟨fun h A v B hps => ?_, fun h A v B hps => ?_⟩
  · exact h A v (B ++ tail) (by rw [hps]; simp)
  · rcases append_eq_append_iff.mp hps with ⟨s, rfl, hs⟩ | ⟨s, rfl, hs⟩
    · exact absurd (show Piece.value v ∈ tail by rw [hs]; simp) (ht v)
    · rcases s with _ | ⟨a, s⟩
      · exact absurd (show Piece.value v ∈ tail by
          rw [nil_append] at hs; rw [← hs]; simp) (ht v)
      · rw [cons_append, List.cons.injEq] at hs
        exact h A v s (by rw [hs.1])

end

end Inetutils.Lib.Templates
