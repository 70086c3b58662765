import Inetutils.Lib.Templates
import Mathlib.Data.List.Forall2

/-! # Splitting a text against splitting its template

`Kept` compares the words of a text with those of its template word by word. `Fits` says, of each
word of the template alone, what its values may be. The two agree (`kept_iff_fits`): a word that
does not fit is where the two runs of `split` part, and up to it they are at the same places. -/

namespace Inetutils.Lib.Templates

open List hiding head_dropWhile_not
open Words

variable {β : Type*} [DecidableEq β] {lex : Lexis β} {x : Letter lex}

/-! ### The condition and the comparison -/

variable (x) in
/-- The words of the template, each with its span, when the template begins at `k`. -/
def templateWords (k : ℕ) (ps : List (Piece β)) : List (Span × Word β (Piece β)) :=
  split lex (Piece.letter x.sym) k ps

variable (lex) in
/-- The words of the text, when it begins at `p`. -/
def textWords (p : ℕ) (ps : List (Piece β)) : List (Span × Word β β) :=
  split lex id p (trim lex (text ps))

variable (x) in
/-- Word by word, the values of the template are where their letters are. -/
def Kept (k p : ℕ) (ps : List (Piece β)) : Prop :=
  List.Forall₂ (fun t s => Follows k p ps t.1 s.1) (templateWords x k ps) (textWords lex p ps)

theorem forall₂_congr_of_mem {α γ : Type*} {R S : α → γ → Prop} {l : List α} {m : List γ}
    (h : ∀ a ∈ l, ∀ b, R a b ↔ S a b) : List.Forall₂ R l m ↔ List.Forall₂ S l m := by
  induction l generalizing m with
  | nil => simp
  | cons a l ih =>
    rcases m with _ | ⟨b, m⟩
    · simp
    · rw [List.forall₂_cons, List.forall₂_cons, h a mem_cons_self b,
        ih fun a ha => h a (mem_cons_of_mem _ ha)]

variable {ps : List (Piece β)} {f : Found β (Piece β)} {f' : Found β β}

theorem kept_cons {k p : ℕ} (h : Leads lex (Piece.letter x.sym) ps f)
    (h' : Leads lex id (trim lex (text ps)) f') :
    Kept x k p ps ↔ Follows k p ps (f.word.span (k + f.gap)) (f'.word.span (p + f'.gap)) ∧
      List.Forall₂ (fun t s => Follows k p ps t.1 s.1)
        (templateWords x (k + f.gap + f.word.size) f.rest)
        (split lex id (p + f'.gap + f'.word.size) f'.rest) := by
  rw [Kept, templateWords, textWords, split_of_leads h, split_of_leads h', List.forall₂_cons,
    templateWords]

theorem kept_rest {k p : ℕ} {C : List (Piece β)} :
    List.Forall₂ (fun t s => Follows k p (C ++ ps) t.1 s.1) (templateWords x (k + C.length) ps)
      (textWords lex (p + (text C).length) ps) ↔
      Kept x (k + C.length) (p + (text C).length) ps :=
  forall₂_congr_of_mem fun _ ht _ => follows_append_iff (le_start_of_mem_split ht)

theorem kept_step {k p : ℕ} {C : List (Piece β)} (h : Leads lex (Piece.letter x.sym) ps f)
    (h' : Leads lex id (trim lex (text ps)) f') (hC : ps = C ++ f.rest)
    (hk : f.gap + f.word.size = C.length) (hp : f'.gap + f'.word.size = (text C).length)
    (hr : f'.rest = trim lex (text f.rest)) :
    Kept x k p ps ↔ Follows k p ps (f.word.span (k + f.gap)) (f'.word.span (p + f'.gap)) ∧
      Kept x (k + C.length) (p + (text C).length) f.rest := by
  rw [kept_cons h h', add_assoc k, add_assoc p, hk, hp, hr]
  nth_rewrite 2 [hC]
  rw [← kept_rest (C := C), textWords]

theorem templateWords_eq_nil {k : ℕ} (h : Trimmed x ps) : templateWords x k ps = [] ↔ ps = [] := by
  rw [templateWords, split_eq_nil_iff]
  constructor
  · exact h.eq_nil_of_blank
  · rintro rfl; simp

/-! ### A word in quotes -/

section

variable {k p : ℕ} {g w rest : List (Piece β)} {q : β}

theorem kept_closed_iff (hg : ∀ c ∈ g, lex.blank (c.letter x.sym)) (hq : lex.quote q)
    (hw : ∀ c ∈ w, c.letter x.sym ≠ q) :
    Kept x k p (g ++ .lit q :: (w ++ .lit q :: rest)) ↔
      (∀ v, .value v ∈ w → q ∉ v) ∧
        Kept x (k + (g.length + (w.length + 2))) (p + (g.length + ((text w).length + 2))) rest := by
  obtain ⟨hgl, hgb⟩ := length_text_of_blank hg
  have hqs := lex.not_space_of_quote hq
  have hlit : ∀ b, Piece.lit b ∈ w → ¬ b = q := fun b hb => hw _ hb
  have hT : Leads lex (Piece.letter x.sym) (g ++ .lit q :: (w ++ .lit q :: rest))
      ⟨g.length, .closed q w, rest⟩ :=
    .closed hg (show lex.quote (Piece.letter x.sym (.lit q)) from hq) hw rfl
  have hS : trim lex (text (g ++ .lit q :: (w ++ .lit q :: rest))) =
      text g ++ q :: (text w ++ q :: trim lex (text rest)) := by
    simp only [text_append, text_lit]
    rw [trim_append ⟨q, by simp, hqs⟩, trim_cons ⟨q, by simp, hqs⟩,
      trim_append ⟨q, by simp, hqs⟩, trim_cons ⟨q, by simp, hqs⟩]
  have hF : ∀ s, Follows k p (g ++ .lit q :: (w ++ .lit q :: rest))
      ⟨k + g.length + 1, w.length⟩ s ↔ Inside (p + (g.length + 1)) w s := by
    intro s
    have := follows_iff_inside (k := k) (p := p) (G := g ++ [.lit q]) (w := w)
      (r := .lit q :: rest) (t := ⟨k + g.length + 1, w.length⟩) (s := s)
      fun A v B _ => by simp only [Span.Covers, length_append, length_singleton]; omega
    simpa [hgl] using this
  by_cases hmem : q ∈ text w
  · obtain ⟨u, u', hu, hqu⟩ := eq_append_cons_of_mem hmem
    have hL := leads_closed (u' ++ q :: trim lex (text rest)) hgb hq hqu
    have e : text g ++ q :: (u ++ q :: (u' ++ q :: trim lex (text rest))) =
        trim lex (text (g ++ .lit q :: (w ++ .lit q :: rest))) := by
      rw [hS, hu, append_assoc, cons_append]
    rw [e] at hL
    constructor
    · intro h
      exact absurd ((hF _).mp ((kept_cons hT hL).mp h).1)
        (not_inside_of_text_eq (P := (· = q)) hu rfl hlit (by simp only [Word.span, hgl]; omega))
    · rintro ⟨h, -⟩
      obtain ⟨A, v, B, rfl, hv, -⟩ := exists_value_of_text_eq (P := (· = q)) hu rfl hlit
      exact absurd hv (h v (by simp))
  · have hL := leads_closed (trim lex (text rest)) hgb hq hmem
    rw [← hS] at hL
    have hv : ∀ v, Piece.value v ∈ w → q ∉ v := fun v hv hqv =>
      hmem (mem_flatMap.mpr ⟨_, hv, hqv⟩)
    have hin : Inside (p + (g.length + 1)) w ⟨p + g.length + 1, (text w).length⟩ :=
      inside_of_le (by dsimp only; omega) (by dsimp only; omega)
    rw [kept_step (C := g ++ .lit q :: (w ++ [.lit q])) hT hL (by simp)
      (by simp [Word.size]) (by simp [Word.size]) rfl]
    simp only [Word.span, hgl, hF, hin, true_and, iff_true_intro hv]
    simp only [length_append, length_cons,
      length_nil, text_append, text_lit, text_nil, add_assoc, hgl, zero_add,
      Nat.reduceAdd]

theorem kept_opened_iff (hg : ∀ c ∈ g, lex.blank (c.letter x.sym)) (hq : lex.quote q)
    (hw : ∀ c ∈ w, c.letter x.sym ≠ q) (ht : Trimmed x w) :
    Kept x k p (g ++ .lit q :: w) ↔ (∀ v, .value v ∈ w → q ∉ v) ∧
      (text w).length ≤ (trim lex (text w)).length + 1 := by
  obtain ⟨hgl, hgb⟩ := length_text_of_blank hg
  have hqs := lex.not_space_of_quote hq
  have hlit : ∀ b, Piece.lit b ∈ w → ¬ b = q := fun b hb => hw _ hb
  have hT : Leads lex (Piece.letter x.sym) (g ++ .lit q :: w) ⟨g.length, .opened q w, []⟩ :=
    .opened hg (show lex.quote (Piece.letter x.sym (.lit q)) from hq) hw
  have hS : trim lex (text (g ++ .lit q :: w)) = text g ++ q :: trim lex (text w) := by
    simp only [text_append, text_lit]
    rw [trim_append ⟨q, by simp, hqs⟩, trim_cons ⟨q, by simp, hqs⟩]
  have hF : ∀ s, Follows k p (g ++ .lit q :: w) ⟨k + g.length, w.length + 2⟩ s ↔
      Inside (p + (g.length + 1)) w s := by
    intro s
    have := follows_iff_inside (k := k) (p := p) (G := g ++ [.lit q]) (w := w)
      (r := []) (t := ⟨k + g.length, w.length + 2⟩) (s := s)
      fun A v B hA => by
        have hlen := congrArg List.length hA
        have hne : A.length ≠ g.length := by
          intro he
          have := congrArg (·[g.length]?) hA
          simp [← he] at this
        simp only [Span.Covers, length_append, length_cons, length_nil] at hlen ⊢
        omega
    simpa [hgl] using this
  by_cases hmem : q ∈ text w
  · obtain ⟨u, u', hu, hqu⟩ := eq_append_cons_of_mem hmem
    have hL := leads_closed (trim lex u') hgb hq hqu
    have e : text g ++ q :: (u ++ q :: trim lex u') = trim lex (text (g ++ .lit q :: w)) := by
      rw [hS, hu, trim_append ⟨q, by simp, hqs⟩, trim_cons ⟨q, by simp, hqs⟩]
    rw [e] at hL
    constructor
    · intro h
      exact absurd ((hF _).mp ((kept_cons hT hL).mp h).1)
        (not_inside_of_text_eq (P := (· = q)) hu rfl hlit (by simp only [Word.span, hgl]; omega))
    · rintro ⟨h, -⟩
      obtain ⟨A, v, B, rfl, hv, -⟩ := exists_value_of_text_eq (P := (· = q)) hu rfl hlit
      exact absurd hv (h v (by simp))
  · have hL := leads_opened (w := trim lex (text w)) hgb hq
      fun h => hmem ((trim_prefix_self _).subset h)
    rw [← hS] at hL
    have hv : ∀ v, Piece.value v ∈ w → q ∉ v := fun v hv hqv =>
      hmem (mem_flatMap.mpr ⟨_, hv, hqv⟩)
    rw [kept_cons hT hL]
    simp only [Word.span, hF, hgl, templateWords, split_nil, List.forall₂_nil_left_iff, and_true,
      iff_true_intro hv, true_and]
    constructor
    · intro h
      rcases trim_text_or_le ht h with h | h
      · rw [h]; omega
      · dsimp only at h; omega
    · intro h
      exact inside_of_le (by dsimp only; omega) (by dsimp only; omega)

end

/-! ### The condition -/

theorem fits_iff_of_leads {k : ℕ} (h : Leads lex (Piece.letter x.sym) ps f)
    (ht : Trimmed x f.rest) :
    Fits lex ((templateWords x k ps).map Prod.snd) ↔ WordFits lex (f.rest = []) f.word ∧
      Fits lex ((templateWords x (k + f.gap + f.word.size) f.rest).map Prod.snd) := by
  rw [templateWords, split_of_leads h, map_cons, Fits, map_eq_nil_iff,
    ← templateWords, templateWords_eq_nil ht]

theorem exists_not_space_of_fits {k : ℕ} (ht : Trimmed x ps) (hne : ps ≠ [])
    (h : Fits lex ((templateWords x k ps).map Prod.snd)) : ∃ b ∈ text ps, ¬ lex.space b := by
  induction k, ps using words_induction lex (Piece.letter x.sym) with
  | hnone k ps hb => exact absurd (ht.eq_nil_of_blank hb) hne
  | hsome k ps f hf ih =>
    have htr : Trimmed x f.rest := trimmed_rest hf ht
    obtain ⟨hw, hr⟩ := (fits_iff_of_leads hf htr).mp h
    rcases hf with @⟨g, a, w, b, rest, -, ha, -, -⟩ | @⟨g, a, w, -, ha, -⟩ |
      @⟨g, a, w, rest, -, -, -, -, -⟩
    · obtain ⟨q, rfl, -⟩ := eq_lit_of_quote ha
      exact ⟨q, by simp, lex.not_space_of_quote ha⟩
    · obtain ⟨q, rfl, -⟩ := eq_lit_of_quote ha
      exact ⟨q, by simp, lex.not_space_of_quote ha⟩
    · rcases eq_or_ne rest [] with rfl | hrest
      · obtain ⟨b, hb, hs⟩ := exists_not_space_of_wordFits hw rfl
        exact ⟨b, by rw [append_nil, text_append]; exact mem_append_right _ hb, hs⟩
      · obtain ⟨b, hb, hs⟩ := ih htr hrest hr
        refine ⟨b, ?_, hs⟩
        rw [← cons_append, text_append, text_append]
        simp [hb]

/-! ### A bare word -/

namespace IsBare

variable {k p : ℕ} {g w rest : List (Piece β)} {a : Piece β} (h : IsBare x g a w rest)
include h
variable {c : β} {y : List β}

theorem not_kept_of_blank (hc : lex.blank c) (hy : text (a :: w) ++ text rest = c :: y)
    (hex : ∃ b ∈ c :: y, ¬ lex.space b)
    (hS : trim lex (text (g ++ a :: (w ++ rest))) = text g ++ c :: trim lex y) :
    ¬ Kept x k p (g ++ a :: (w ++ rest)) := by
  have hgb := (length_text_of_blank h.blank).2
  rcases hf : firstWord lex id (trim lex (text (g ++ a :: (w ++ rest)))) with _ | f'
  · obtain ⟨b, hb, hs⟩ := hex
    have hb' : b ∈ c :: trim lex y := by
      rw [← trim_cons ⟨b, hb, hs⟩]; exact mem_trim hb hs
    have := firstWord_eq_none_iff.mp hf b (by rw [hS]; exact mem_append_right _ hb')
    exact absurd (lex.space_of_blank this) hs
  · have hL := leads_of_firstWord hf
    have hgap := (hS ▸ hL).lt_gap hgb hc
    rw [h.length_text] at hgap
    intro hk
    have hin := h.follows_iff.mp ((kept_cons h.leads hL).mp hk).1
    exact h.not_inside_of_lt (.inl hc) hy
      (lt_of_lt_of_le (by omega) (Word.le_start_span _ _)) hin

theorem not_kept_of_closed (hc : lex.quote c) (hmem : c ∈ trim lex y)
    (hy : text (a :: w) ++ text rest = c :: y)
    (hS : trim lex (text (g ++ a :: (w ++ rest))) = text g ++ c :: trim lex y) :
    ¬ Kept x k p (g ++ a :: (w ++ rest)) := by
  obtain ⟨u, u', hu, hcu⟩ := eq_append_cons_of_mem hmem
  have hL := leads_closed (u') (length_text_of_blank h.blank).2 hc hcu
  rw [← hu, ← hS] at hL
  intro hk
  have hin := h.follows_iff.mp ((kept_cons h.leads hL).mp hk).1
  exact h.not_inside_of_lt (.inr hc) hy (by simp [Word.span, h.length_text]) hin

theorem kept_iff_of_opened (ht : Trimmed x rest) (hc : lex.quote c) (hmem : c ∉ trim lex y)
    (hS : trim lex (text (g ++ a :: (w ++ rest))) = text g ++ c :: trim lex y) :
    Kept x k p (g ++ a :: (w ++ rest)) ↔
      Inside (p + g.length) (a :: w) ⟨p + g.length, (trim lex y).length + 2⟩ ∧ rest = [] := by
  have hL := leads_opened (length_text_of_blank h.blank).2 hc hmem
  rw [← hS] at hL
  rw [kept_cons h.leads hL, h.follows_iff, split_nil, List.forall₂_nil_right_iff,
    templateWords_eq_nil ht, Word.span, h.length_text]

theorem kept_iff_of_plain (hc : ¬ lex.blank c) (hc' : ¬ lex.quote c)
    (hS : trim lex (text (g ++ a :: (w ++ rest))) = text g ++ c :: trim lex y) :
    Kept x k p (g ++ a :: (w ++ rest)) ↔
      Inside (p + g.length) (a :: w)
          ⟨p + g.length, ((trim lex y).takeWhile lex.inner).length + 1⟩ ∧
        List.Forall₂ (fun t s => Follows k p (g ++ a :: (w ++ rest)) t.1 s.1)
          (templateWords x (k + g.length + (a :: w).length) rest)
          (split lex id (p + g.length + (((trim lex y).takeWhile lex.inner).length + 1))
            ((trim lex y).dropWhile lex.inner)) := by
  have hL := leads_bare (w := trim lex y) (length_text_of_blank h.blank).2 hc hc'
  rw [← hS] at hL
  rw [kept_cons h.leads hL, h.follows_iff, Word.span, h.length_text]
  rfl

theorem not_kept_of_space (hS : trim lex (text (g ++ a :: (w ++ rest))) = []) :
    ¬ Kept x k p (g ++ a :: (w ++ rest)) := by
  intro hk
  rw [Kept, textWords, hS, split_nil, List.forall₂_nil_right_iff, templateWords,
    split_of_leads h.leads] at hk
  exact cons_ne_nil _ _ hk

section

variable (ht : Trimmed x (a :: (w ++ rest))) {F : Prop}
  (ih : Kept x (k + (g ++ a :: w).length) (p + (text (g ++ a :: w)).length) rest ↔ F)
  (hF : F → rest ≠ [] → ∃ b ∈ text rest, ¬ lex.space b)

include ih in
theorem of_rest_eq_nil (hr : rest = []) : F := by
  subst hr
  exact ih.mp (by simp [Kept, templateWords, textWords, trim])

include ht ih in
theorem kept_iff_of_quote {c : β} {y : List β} (hq : lex.quote c)
    (hy : text (a :: w) ++ text rest = c :: y)
    (hS : trim lex (text (g ++ a :: (w ++ rest))) = text g ++ c :: trim lex y) :
    Kept x k p (g ++ a :: (w ++ rest)) ↔ WordFits lex (rest = []) (.bare (a :: w)) ∧ F := by
  have hqs := lex.not_space_of_quote hq
  by_cases hmem : c ∈ trim lex y
  · refine iff_of_false (h.not_kept_of_closed hq hmem hy hS) ?_
    rintro ⟨hw, -⟩
    obtain ⟨c', r, hr, -, hq', -⟩ := exists_head_of_wordFits hw
    rw [hr, cons_append, List.cons.injEq] at hy
    obtain ⟨rfl, hcr, -⟩ := hq' (hy.1 ▸ hq)
    rw [text_nil, append_nil] at hy
    exact hcr (hy.1 ▸ hy.2 ▸ (trim_prefix_self y).subset hmem)
  rw [h.kept_iff_of_opened (ht.of_cons_append) hq hmem hS]
  constructor
  · rintro ⟨hin, hr⟩
    have hfit := h.of_rest_eq_nil ih hr
    subst hr
    rw [text_nil, append_nil] at hy
    refine ⟨.inr ⟨rfl, c, y, hy, hq, fun hc => hmem (mem_trim hc hqs), ?_⟩, hfit⟩
    rcases trim_text_or_le (by simpa using ht) hin with he | hle
    · rw [hy, trim_cons ⟨c, by simp, hqs⟩, List.cons.injEq] at he
      rw [he.2]; omega
    · simp only [hy, length_cons] at hle; omega
  · rintro ⟨hw, -⟩
    obtain ⟨c', r, hr, -, hq', -⟩ := exists_head_of_wordFits hw
    have hy' := hy
    rw [hr, cons_append, List.cons.injEq] at hy'
    obtain ⟨rfl, -, hle⟩ := hq' (hy'.1 ▸ hq)
    rw [text_nil, append_nil] at hy' hy
    rw [hy'.2] at hle
    exact ⟨inside_of_le le_rfl (by rw [hy, length_cons]; dsimp only; omega), rfl⟩

include ih in
theorem kept_iff_of_rest {c : β} {r : List β} (hb : ¬ lex.blank c) (hq : ¬ lex.quote c)
    (hr : text (a :: w) = c :: r) (hin : ∀ b ∈ r, lex.inner b)
    (hsp : ∃ b ∈ text rest, ¬ lex.space b)
    (hS : trim lex (text (g ++ a :: (w ++ rest))) = text g ++ c :: trim lex (r ++ text rest)) :
    Kept x k p (g ++ a :: (w ++ rest)) ↔ F := by
  have htr : trim lex (r ++ text rest) = r ++ trim lex (text rest) := trim_append hsp
  have hstop : ∀ b ∈ (trim lex (text rest)).head?, ¬ lex.inner b := by
    rcases h.eq_nil_or_stops with rfl | ⟨d, ds, hd, hs⟩
    · simp at hsp
    · rw [hd] at hsp ⊢
      rw [trim_cons hsp]
      rintro b ⟨⟩
      exact hs
  have e : p + g.length + (r.length + 1) = p + (text (g ++ a :: w)).length := by
    rw [text_append, length_append, h.length_text, hr, length_cons, add_assoc]
  have e' : k + g.length + (a :: w).length = k + (g ++ a :: w).length := by
    rw [length_append, add_assoc]
  have hins : Inside (p + g.length) (a :: w) ⟨p + g.length, r.length + 1⟩ :=
    inside_of_le le_rfl (by rw [hr]; simp)
  rw [h.kept_iff_of_plain hb hq hS, htr, takeWhile_append_of_head hin hstop,
    dropWhile_append_of_head hin hstop, iff_true_intro hins, true_and, e, e', ← cons_append,
    ← append_assoc]
  exact kept_rest.trans ih

include ht in
theorem kept_iff_of_last {c : β} {r : List β} (hb : ¬ lex.blank c) (hq : ¬ lex.quote c)
    (hr : text (a :: w) = c :: r) (hin : ∀ b ∈ r, lex.inner b)
    (hsp : ∀ b ∈ text rest, lex.space b) (hex : ∃ b ∈ c :: (r ++ text rest), ¬ lex.space b)
    (hS : trim lex (text (g ++ a :: (w ++ rest))) = text g ++ c :: trim lex (r ++ text rest)) :
    Kept x k p (g ++ a :: (w ++ rest)) ↔ rest = [] ∧ trim lex (c :: r) = c :: r := by
  have htr : trim lex (r ++ text rest) = trim lex r := trim_append_of_space hsp
  have hall : ∀ b ∈ trim lex r, lex.inner b := fun b hb => hin b ((trim_prefix_self r).subset hb)
  rw [h.kept_iff_of_plain hb hq hS, htr, takeWhile_eq_self_iff.mpr hall,
    dropWhile_eq_nil_iff.mpr hall, split_nil, List.forall₂_nil_right_iff,
    templateWords_eq_nil (ht.of_cons_append), and_comm]
  refine and_congr_right fun hrest => ?_
  subst hrest
  rw [text_nil, append_nil] at hex
  rw [trim_cons hex, List.cons.injEq]
  constructor
  · intro hins
    refine ⟨rfl, (trim_prefix_self r).eq_of_length_le ?_⟩
    rcases trim_text_or_le (by simpa using ht) hins with he | hle
    · rw [hr, trim_cons hex, List.cons.injEq] at he
      rw [he.2]
    · simp only [hr, length_cons] at hle; omega
  · rintro ⟨-, he⟩
    exact inside_of_le le_rfl (by rw [hr, he]; simp)

theorem not_kept_of_cut {r : List β} (hb : ¬ lex.blank c) (hq : ¬ lex.quote c)
    (hr : text (a :: w) = c :: r) (hin : ¬ ∀ b ∈ r, lex.inner b)
    (hS : trim lex (text (g ++ a :: (w ++ rest))) = text g ++ c :: trim lex (r ++ y)) :
    ¬ Kept x k p (g ++ a :: (w ++ rest)) ∧ ¬ ∀ v, .value v ∈ a :: w → ∀ b ∈ v, lex.inner b := by
  have hd := head_dropWhile_not (p := lex.inner) (l := r)
  have hru := takeWhile_append_dropWhile (p := lex.inner) (l := r)
  rcases hdr : r.dropWhile lex.inner with _ | ⟨d, u'⟩
  · exact absurd (dropWhile_eq_nil_iff.mp hdr) hin
  rw [hdr] at hd hru
  have hnd : ¬ lex.inner d := hd d rfl
  have hlit : ∀ b, Piece.lit b ∈ a :: w → ¬ ¬ lex.inner b := fun b hb =>
    not_not.mpr (h.inner_of_lit hb)
  have hr' : text (a :: w) = (c :: r.takeWhile lex.inner) ++ d :: u' := by
    rw [hr, cons_append, hru]
  have hlen : ((trim lex (r ++ y)).takeWhile lex.inner).length ≤
      (r.takeWhile lex.inner).length := by
    refine length_takeWhile_le (v := u' ++ y) hnd ?_
    rw [← cons_append, ← append_assoc, hru]
    exact trim_prefix_self _
  constructor
  · intro hk
    exact not_inside_of_text_eq (P := fun b => ¬ lex.inner b) hr' hnd hlit
      (by rw [length_cons]; dsimp only; omega)
      ((h.kept_iff_of_plain hb hq hS).mp hk).1
  · intro hval
    obtain ⟨A, v, B, hA, hdv, -⟩ :=
      exists_value_of_text_eq (P := fun b => ¬ lex.inner b) hr' hnd hlit
    exact hnd (hval v (by rw [hA]; simp) d hdv)

include ht ih hF in
theorem kept_iff_of_not_quote {c : β} {y : List β} (hb : ¬ lex.blank c) (hq : ¬ lex.quote c)
    (hy : text (a :: w) ++ text rest = c :: y) (hex : ∃ b ∈ c :: y, ¬ lex.space b)
    (hS : trim lex (text (g ++ a :: (w ++ rest))) = text g ++ c :: trim lex y) :
    Kept x k p (g ++ a :: (w ++ rest)) ↔ WordFits lex (rest = []) (.bare (a :: w)) ∧ F := by
  obtain ⟨r, hr, rfl⟩ : ∃ r, text (a :: w) = c :: r ∧ y = r ++ text rest := by
    rcases hr : text (a :: w) with _ | ⟨c', r⟩
    · rw [hr, nil_append] at hy
      rcases h.eq_nil_or_stops with rfl | ⟨d, ds, hd, hs⟩
      · simp at hy
      · rw [hd, List.cons.injEq] at hy
        exact absurd (lex.inner_of_plain hb hq) (hy.1 ▸ hs)
    · rw [hr, cons_append, List.cons.injEq] at hy
      exact ⟨r, by rw [hy.1], hy.2.symm⟩
  rw [wordFits_iff_of_plain hb hq hr]
  by_cases hin : ∀ b ∈ r, lex.inner b
  · have hval := inner_of_value hb hq hr hin
    by_cases hsp : ∃ b ∈ text rest, ¬ lex.space b
    · have hne : rest ≠ [] := by rintro rfl; simp at hsp
      rw [h.kept_iff_of_rest ih hb hq hr hin hsp hS]
      exact ⟨fun hf => ⟨⟨hval, fun he => absurd he hne⟩, hf⟩, And.right⟩
    · simp only [not_exists, not_and, not_not] at hsp
      rw [h.kept_iff_of_last ht hb hq hr hin hsp hex hS]
      constructor
      · rintro ⟨hrest, he⟩
        exact ⟨⟨hval, fun _ => he⟩, h.of_rest_eq_nil ih hrest⟩
      · rintro ⟨⟨-, he⟩, hf⟩
        have hrest : rest = [] := by
          by_contra hne
          obtain ⟨b, hb, hs⟩ := hF hf hne
          exact hs (hsp b hb)
        exact ⟨hrest, he hrest⟩
  · obtain ⟨hnk, hnv⟩ := h.not_kept_of_cut (k := k) (p := p) hb hq hr hin hS
    exact iff_of_false hnk fun hw => hnv hw.1.1

include ht ih hF in
theorem kept_iff :
    Kept x k p (g ++ a :: (w ++ rest)) ↔ WordFits lex (rest = []) (.bare (a :: w)) ∧ F := by
  rcases h.trim_text with ⟨hS, hsp⟩ | ⟨c, y, hy, hex, hS⟩
  · refine iff_of_false (h.not_kept_of_space hS) ?_
    rintro ⟨hw, hf⟩
    rcases eq_or_ne rest [] with hr | hr
    · obtain ⟨b, hb, hs⟩ := exists_not_space_of_wordFits hw hr
      exact hs (hsp b (mem_append_left _ hb))
    · obtain ⟨b, hb, hs⟩ := hF hf hr
      exact hs (hsp b (mem_append_right _ hb))
  by_cases hb : lex.blank c
  · refine iff_of_false (h.not_kept_of_blank hb hy hex hS) ?_
    rintro ⟨hw, -⟩
    obtain ⟨c', r, hr, hb', -⟩ := exists_head_of_wordFits hw
    rw [hr, cons_append, List.cons.injEq] at hy
    exact hb' (hy.1 ▸ hb)
  by_cases hq : lex.quote c
  · exact h.kept_iff_of_quote ht ih hq hy hS
  · exact h.kept_iff_of_not_quote ht ih hF hb hq hy hex hS

end

end IsBare

/-! ### All words -/

/-- **A template is kept just when each of its words fits.** -/
theorem kept_iff_fits {k p : ℕ} (ht : Trimmed x ps) :
    Kept x k p ps ↔ Fits lex ((templateWords x k ps).map Prod.snd) := by
  induction k, ps using words_induction lex (Piece.letter x.sym)
    generalizing p with
  | hnone k ps hb =>
    rw [ht.eq_nil_of_blank hb]
    simp [Kept, templateWords, textWords, trim, Fits]
  | hsome k ps f hf ih =>
    have htr := trimmed_rest hf ht
    have ih := fun p => ih (p := p) htr
    rw [fits_iff_of_leads hf htr]
    rcases hf with @⟨g, a, w, b, rest, hg, ha, hw, hb⟩ | @⟨g, a, w, hg, ha, hw⟩ |
      @⟨g, a, w, rest, hg, ha, ha', hw, hr⟩
    · obtain ⟨q, rfl, -⟩ := eq_lit_of_quote ha
      obtain ⟨q', rfl, -⟩ := eq_lit_of_quote (x := x) (a := b) (hb ▸ ha)
      have hqq : q' = q := hb
      subst hqq
      refine (kept_closed_iff hg ha hw).trans (and_congr Iff.rfl ?_)
      rw [← add_assoc k]
      exact ih _
    · obtain ⟨q, rfl, -⟩ := eq_lit_of_quote ha
      have htw : Trimmed x w := by
        rw [← singleton_append, ← append_assoc] at ht
        exact ht.of_append _
      refine (kept_opened_iff hg ha hw htw).trans ?_
      simp [WordFits, Fits, templateWords, Piece.letter]
    · have hB : IsBare x g a w rest := ⟨hg, ha, ha', hw, hr⟩
      refine hB.kept_iff (ht.of_append _) ?_ fun hF hne => exists_not_space_of_fits htr hne hF
      rw [length_append, ← add_assoc]
      exact ih _

theorem intact_iff_kept (ps : List (Piece β)) :
    Intact ((templateWords x 0 ps).map Prod.fst) ((textWords lex 0 ps).map Prod.fst) ps ↔
      Kept x 0 0 ps := by
  rw [Intact, Kept, List.length_map, List.length_map, List.forall₂_iff_get]
  refine and_congr_right fun hlen => ⟨fun h i hi hi' A v B hps hc => ?_, fun h A v B hps => ?_⟩
  · obtain ⟨j, t, s, ht, hs, htc, hsc⟩ := h A v B hps
    rw [List.getElem?_map, Option.map_eq_some_iff] at ht hs
    obtain ⟨t, ht, rfl⟩ := ht
    obtain ⟨s, hs, rfl⟩ := hs
    have hij : i = j := covers_unique (List.getElem?_eq_getElem hi) ht
      (by simpa using hc) htc
    subst hij
    obtain ⟨_, he⟩ := List.getElem?_eq_some_iff.mp hs
    rw [← he] at hsc
    simpa using hsc
  · have hA : ps[A.length]? = some (.value v) := by rw [hps]; simp
    obtain ⟨t, ht, hc⟩ := exists_covers lex (Piece.letter x.sym) (k := 0) hA
      x.not_blank x.not_quote
    obtain ⟨i, hi, rfl⟩ := List.getElem_of_mem ht
    have hi' : i < (textWords lex 0 ps).length := hlen ▸ hi
    refine ⟨i, _, _, ?_, ?_, by simpa using hc, by simpa using h i hi hi' A v B hps hc⟩
    · rw [List.getElem?_map, templateWords, List.getElem?_eq_getElem hi]; rfl
    · rw [List.getElem?_map, List.getElem?_eq_getElem hi']; rfl

/-- **Splitting a text, against splitting the template with a letter for each value.** -/
theorem intact_iff_fits (ps : List (Piece β)) :
    Intact ((split lex id 0 (trim lex (ps.map (Piece.letter x.sym)))).map Prod.fst)
        ((split lex id 0 (trim lex (text ps))).map Prod.fst) ps ↔
      Fits lex ((templateWords x 0 (trimTemplate x ps)).map Prod.snd) := by
  obtain ⟨tail, hps, hsp, hst⟩ := trimTemplate_append (x := x) ps
  have hplain : trim lex (ps.map (Piece.letter x.sym)) =
      (trimTemplate x ps).map (Piece.letter x.sym) := by
    rw [trim, trimTemplate, List.rdropWhile, List.rdropWhile, ← map_reverse,
      dropWhile_map, ← map_reverse]
    rfl
  have hreal : trim lex (text ps) = trim lex (text (trimTemplate x ps)) := by
    rw [← hps, text_append, trim_append_of_space hst, hps]
  have hv : ∀ v, Piece.value v ∉ tail := fun v hv => x.not_space (hsp _ hv)
  rw [hplain, hreal, split_map, map_map, ← kept_iff_fits (p := 0) (trimmed_trimTemplate ps),
    ← intact_iff_kept]
  nth_rewrite 3 [← hps]
  exact intact_append_iff hv

end Inetutils.Lib.Templates
