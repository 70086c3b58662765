import Inetutils.Lib.Fields

/-! # Quoted words

Blanks part a line into words. A symbol behind an escape stands for itself, and so does what is
between two quotes of the same sort; the quotes and the escapes are parts of the word, but not of
its text. A quote that is not closed goes to the end of the line. -/

namespace Inetutils.Lib.Quoting

open List

structure Quotes (α : Type*) where
  blank : α → Bool
  quote : α → Bool
  escape : α → Bool

/-- What a symbol of the line is: it parts words, has no text, or is one of the text. -/
inductive Mark (α : Type*)
  | sep
  | quote
  | char (a : α)

def Mark.isSep {α : Type*} : Mark α → Bool
  | sep => true
  | _ => false

def Mark.char? {α : Type*} : Mark α → Option α
  | char a => some a
  | _ => none

variable {α : Type*} [DecidableEq α] (qt : Quotes α)

def marks : Option α → List α → List (Mark α)
  | _, [] => []
  | some q, c :: l => if c = q then .quote :: marks none l else .char c :: marks (some q) l
  | none, c :: l =>
    if qt.blank c then .sep :: marks none l
    else if qt.escape c then
      match l with
      | [] => [.quote]
      | d :: l => .char d :: marks none l
    else if qt.quote c then .quote :: marks (some c) l
    else .char c :: marks none l

/-- **The texts of the words.** -/
def words (l : List α) : List (List α) :=
  (Fields.words Mark.isSep (marks qt none l)).map (·.filterMap Mark.char?)

def scan : Option α → List α → List α × List α
  | _, [] => ([], [])
  | some q, c :: l => if c = q then scan none l else (scan (some q) l).map (c :: ·) id
  | none, c :: l =>
    if qt.blank c then ([], c :: l)
    else if qt.escape c then
      match l with
      | [] => ([], [])
      | d :: l => (scan none l).map (d :: ·) id
    else if qt.quote c then scan (some c) l
    else (scan none l).map (c :: ·) id

variable {qt}

section
variable {c : α}

theorem marks_blank (hb : qt.blank c = true) (l : List α) :
    marks qt none (c :: l) = .sep :: marks qt none l := by
  rw [marks.eq_def]
  simp only [if_pos hb]

theorem marks_escape_last (hb : ¬ qt.blank c) (he : qt.escape c = true) :
    marks qt none [c] = [.quote] := by
  rw [marks, if_neg hb, if_pos he]

theorem marks_escape (hb : ¬ qt.blank c) (he : qt.escape c = true) (d : α) (l : List α) :
    marks qt none (c :: d :: l) = .char d :: marks qt none l := by
  rw [marks, if_neg hb, if_pos he]

theorem marks_quote (hb : ¬ qt.blank c) (he : ¬ qt.escape c) (hq : qt.quote c = true) (l : List α) :
    marks qt none (c :: l) = .quote :: marks qt (some c) l := by
  rw [marks.eq_def]
  simp only [if_neg hb, if_neg he, if_pos hq]

theorem marks_char (hb : ¬ qt.blank c) (he : ¬ qt.escape c) (hq : ¬ qt.quote c) (l : List α) :
    marks qt none (c :: l) = .char c :: marks qt none l := by
  rw [marks.eq_def]
  simp only [if_neg hb, if_neg he, if_neg hq]

end

structure Takes (ms : List (Mark α)) (r : List α × List α) (w : List (Mark α)) : Prop where
  marks : ms = w ++ Quoting.marks qt none r.2
  sep : ∀ m ∈ w, m.isSep = false
  text : w.filterMap Mark.char? = r.1
  rest : ∀ c ∈ r.2.head?, qt.blank c = true

variable {ms w : List (Mark α)} {r : List α × List α}

theorem Takes.char (h : @Takes _ _ qt ms r w) (c : α) :
    @Takes _ _ qt (.char c :: ms) (r.map (c :: ·) id) (.char c :: w) :=
  ⟨by rw [h.marks]; rfl, forall_mem_cons.2 ⟨rfl, h.sep⟩, congrArg (c :: ·) h.text, h.rest⟩

theorem Takes.quote (h : @Takes _ _ qt ms r w) : @Takes _ _ qt (.quote :: ms) r (.quote :: w) :=
  ⟨by rw [h.marks]; rfl, forall_mem_cons.2 ⟨rfl, h.sep⟩, h.text, h.rest⟩

variable (st : Option α) (l : List α)

theorem scan_takes : ∃ w, @Takes _ _ qt (marks qt st l) (scan qt st l) w := by
  fun_induction scan qt st l with
  | case1 st => exact ⟨[], by rw [marks]; rfl, forall_mem_nil _, rfl, by simp⟩
  | case2 q l ih =>
    obtain ⟨w, hw⟩ := ih
    rw [marks, if_pos rfl]
    exact ⟨_, hw.quote⟩
  | case3 q c l hne ih =>
    obtain ⟨w, hw⟩ := ih
    rw [marks, if_neg hne]
    exact ⟨_, hw.char c⟩
  | case4 c l hb => exact ⟨[], rfl, forall_mem_nil _, rfl, by simpa using hb⟩
  | case5 c hb he =>
    rw [marks_escape_last hb he]
    exact ⟨[.quote], rfl, forall_mem_singleton.2 rfl, rfl, by simp⟩
  | case6 c hb he d l ih =>
    obtain ⟨w, hw⟩ := ih
    rw [marks_escape hb he]
    exact ⟨_, hw.char d⟩
  | case7 c l hb he hq ih =>
    obtain ⟨w, hw⟩ := ih
    rw [marks_quote hb he hq]
    exact ⟨_, hw.quote⟩
  | case8 c l hb he hq ih =>
    obtain ⟨w, hw⟩ := ih
    rw [marks_char hb he hq]
    exact ⟨_, hw.char c⟩

theorem scan_rest : ∀ c ∈ (scan qt st l).2.head?, qt.blank c = true :=
  (scan_takes st l).elim fun _ h => h.rest

theorem scan_subset : (scan qt st l).1 ⊆ l := by
  fun_induction scan qt st l with
  | case3 | case8 => exact cons_subset_cons _ ‹_›
  | case2 | case7 => exact subset_cons_of_subset _ ‹_›
  | case6 c hb he d l ih => exact subset_cons_of_subset _ (cons_subset_cons _ ih)
  | _ => exact nil_subset _

theorem scan_suffix : (scan qt st l).2 <:+ l := by
  fun_induction scan qt st l with
  | case1 | case5 => exact nil_suffix
  | case4 => exact suffix_refl _
  | case6 c hb he d l ih => exact (ih.trans (suffix_cons _ _)).trans (suffix_cons _ _)
  | _ => exact List.IsSuffix.trans ‹_› (suffix_cons _ _)

theorem words_nil : words qt [] = [] := rfl

theorem words_blank {c : α} (hb : qt.blank c = true) (l : List α) :
    words qt (c :: l) = words qt l := by
  rw [words, marks_blank hb, Fields.words_sep rfl, words]

theorem words_dropWhile : words qt (l.dropWhile qt.blank) = words qt l := by
  induction l with
  | nil => rfl
  | cons c l ih =>
    by_cases hb : qt.blank c = true
    · rw [dropWhile_cons_of_pos hb, ih, words_blank hb]
    · rw [dropWhile_cons_of_neg hb]

theorem marks_head {c : α} (hb : ¬ qt.blank c) (l : List α) :
    ∃ m ms, marks qt none (c :: l) = m :: ms ∧ m.isSep = false := by
  by_cases he : qt.escape c
  · rcases l with - | ⟨d, l⟩
    · exact ⟨_, _, marks_escape_last hb he, rfl⟩
    · exact ⟨_, _, marks_escape hb he d l, rfl⟩
  · by_cases hq : qt.quote c
    · exact ⟨_, _, marks_quote hb he hq l, rfl⟩
    · exact ⟨_, _, marks_char hb he hq l, rfl⟩

theorem words_scan {c : α} (hb : ¬ qt.blank c) (l : List α) :
    words qt (c :: l) = (scan qt none (c :: l)).1 :: words qt (scan qt none (c :: l)).2 := by
  obtain ⟨w, hw⟩ := @scan_takes _ _ qt none (c :: l)
  obtain ⟨m, ms, hhead, hm⟩ := marks_head hb l
  rw [words, hw.marks, ← hw.text, words]
  have happ := hhead.symm.trans hw.marks
  have hrest := hw.rest
  generalize (scan qt none (c :: l)).2 = r at happ hrest ⊢
  rcases r with - | ⟨d, r⟩
  · rw [marks, append_nil] at happ
    rw [marks, append_nil, Fields.words_single (happ ▸ cons_ne_nil m ms) hw.sep]
    rfl
  · have hne : w ≠ [] := by
      rintro rfl
      rw [marks_blank (hrest d rfl)] at happ
      rw [(List.cons.inj happ).1] at hm
      exact absurd hm.symm Bool.false_ne_true
    rw [marks_blank (hrest d rfl), Fields.words_field hne hw.sep rfl, Fields.words_sep rfl]
    rfl

end Inetutils.Lib.Quoting
