import Inetutils.Lib.Cells
import Inetutils.Lib.Fields
import Mathlib.Data.UInt

/-! # The words of a command line

`makeargv` and `slurpstring` of `src/ftp/main.c` cut `line` into words. The text of a word is stored
in `argbuf`, and a pointer to it in `margv`; `!` and `$` at the beginning of the line are words of
their own, with a pointer to a constant. Writing behind the end of an array has no result.
`cmdscanner` looks at the length of the lines that are typed, but not `another`, which adds an
argument to the line, nor `domacro`, which makes lines from the text of a macro. -/

namespace Inetutils.Ftp.Makeargv

open Lib Lib.Cells List Option

abbrev Byte := UInt8

abbrev Text := List Byte

abbrev Str := { l : Text // (0 : Byte) ∉ l }

def blank (c : Byte) : Bool := c = 32 || c = 9

/-- `!` and `$` -/
def special (c : Byte) : Bool := c = 33 || c = 36

/-! ### The scanner -/

inductive Label
  | S1
  | S2
  | S3

/-- From a label on: the characters that are stored, and where `sb` is at `OUT`. -/
def scan : Label → Text → Text × Text
  | _, [] => ([], [])
  | .S1, c :: sb =>
    if blank c then ([], c :: sb)
    else if c = 92 then scan .S2 sb
    else if c = 34 then scan .S3 sb
    else (scan .S1 sb).map (c :: ·) id
  | .S2, c :: sb => (scan .S1 sb).map (c :: ·) id
  | .S3, c :: sb => if c = 34 then scan .S1 sb else (scan .S3 sb).map (c :: ·) id

/-- A word: one of the constants `"!"` and `"$"`, or a place of `argbuf`. -/
inductive Ptr
  | constant (c : Byte)
  | argbuf (i : ℕ)
  deriving DecidableEq

/-- `altarg` is a place of the line: what is behind it. -/
structure State where
  stringbase : Text
  argbuf : Block Byte
  argbase : ℕ
  slrflag : ℕ
  altarg : Option Text

variable {s : State}

/-- `switch (slrflag)` -/
def State.switch (s : State) (alt : Option Text) : State :=
  match s.slrflag with
  | 0 => { s with slrflag := 1 }
  | 1 => { s with slrflag := 2, altarg := alt }
  | _ => s

variable (alt : Option Text) {s' : State} {p : Ptr} {c : Byte} {r : Text × Text} {ts : List Text}

@[simp] theorem switch_stringbase (s : State) (alt : Option Text) :
    (s.switch alt).stringbase = s.stringbase := by
  unfold State.switch
  split <;> rfl

@[simp] theorem switch_argbuf (s : State) (alt : Option Text) :
    (s.switch alt).argbuf = s.argbuf := by
  unfold State.switch
  split <;> rfl

@[simp] theorem switch_argbase (s : State) (alt : Option Text) :
    (s.switch alt).argbase = s.argbase := by
  unfold State.switch
  split <;> rfl

/-- From `S0` on, with `sb` behind the blanks. -/
def slurpWord (s : State) : Option (Option Ptr × State) :=
  match s.stringbase.dropWhile blank with
  | [] => some (none, { s.switch none with stringbase := [] })
  | c :: sb =>
    let s' := s.switch (some (c :: sb))
    let (word, rest) := scan .S1 (c :: sb)
    if word = [] then some (none, { s'.switch none with stringbase := rest })
    else
      (fill s'.argbuf s'.argbase (word ++ [0])).map fun b =>
        (some (.argbuf s'.argbase),
          { s' with stringbase := rest, argbuf := b, argbase := s'.argbase + (word.length + 1) })

/-- **`slurpstring`** -/
def slurpstring (s : State) : Option (Option Ptr × State) :=
  match s.stringbase with
  | [] => slurpWord s
  | c :: sb =>
    if special c then
      if s.slrflag = 0 then some (some (.constant c), { s with stringbase := sb, slrflag := 1 })
      else slurpWord (s.switch (some (c :: sb)))
    else slurpWord s

variable (l : Text)

theorem scan_length (st : Label) (l : Text) :
    (scan st l).1.length + (scan st l).2.length ≤ l.length := by
  fun_induction scan st l <;> simp_all <;> omega

theorem slurpWord_length (h : slurpWord s = some (some p, s')) :
    s'.stringbase.length < s.stringbase.length := by
  unfold slurpWord at h
  rcases hsb : s.stringbase.dropWhile blank with - | ⟨c, sb⟩
  · rw [hsb] at h
    cases h
  · rw [hsb] at h
    dsimp only at h
    split_ifs at h with hword
    · cases h
    · obtain ⟨b, -, hs⟩ := map_eq_some_iff.1 h
      obtain ⟨-, rfl⟩ := Prod.mk.inj hs
      have hle := (dropWhile_suffix blank (l := s.stringbase)).length_le
      have hscan := scan_length .S1 (c :: sb)
      have hpos := length_pos_of_ne_nil hword
      rw [hsb] at hle
      dsimp only
      omega

theorem slurpstring_length (h : slurpstring s = some (some p, s')) :
    s'.stringbase.length < s.stringbase.length := by
  unfold slurpstring at h
  rcases hs : s.stringbase with - | ⟨c, sb⟩
  · rw [hs] at h
    exact hs ▸ slurpWord_length h
  · rw [hs] at h
    dsimp only at h
    split_ifs at h
    · cases h
      exact Nat.lt_succ_self _
    · have hlt := slurpWord_length h
      rwa [switch_stringbase, hs] at hlt
    · exact hs ▸ slurpWord_length h

/-! ### The arguments -/

/-- `margv`, `margc`, `argbuf` and `altarg`. -/
structure Globals where
  margv : Block (Option Ptr)
  margc : ℕ
  argbuf : Block Byte
  altarg : Option Text

/-- `while ((*argp++ = slurpstring ()))` -/
def argsLoop (margc : ℕ) (margv : Block (Option Ptr)) (s : State) : Option Globals :=
  match _ : slurpstring s with
  | none => none
  | some (none, s) => (write margv margc none).map fun margv => ⟨margv, margc, s.argbuf, s.altarg⟩
  | some (some p, s) => (write margv margc (some p)).bind fun margv => argsLoop (margc + 1) margv s
termination_by s.stringbase.length
decreasing_by exact slurpstring_length ‹_›

/-- **`makeargv`** -/
def makeargv (line : Text) (g : Globals) : Option Globals :=
  argsLoop 0 g.margv ⟨line, g.argbuf, 0, 0, g.altarg⟩

/-! ### What is to hold -/

/-- What a character of the line is: a blank that parts words, a double quote, or a character of a
word. -/
inductive Kind
  | sep
  | quote
  | char (c : Byte)
  deriving DecidableEq

/-- The characters of a line, each with what is from its place on; a backslash belongs to the
character behind it. -/
def marks (quoted : Bool) : Text → List (Kind × Text)
  | [] => []
  | c :: l =>
    if quoted then
      if c = 34 then (.quote, c :: l) :: marks false l else (.char c, c :: l) :: marks true l
    else if blank c then (.sep, c :: l) :: marks false l
    else if c = 92 then
      match l with
      | [] => []
      | d :: l => (.char d, c :: d :: l) :: marks false l
    else if c = 34 then (.quote, c :: l) :: marks true l
    else (.char c, c :: l) :: marks false l

theorem marks_blank (hc : blank c = true) (l : Text) : marks false (c :: l) =
    (.sep, c :: l) :: marks false l := by
  rw [marks.eq_def]
  dsimp only
  rw [if_neg Bool.false_ne_true, if_pos hc]

abbrev Word := List (Kind × Text)

def Word.text (w : Word) : Text := w.filterMap fun m =>
  match m.1 with
  | .char c => some c
  | _ => none

def Word.start (w : Word) : Option Text := w.head?.map Prod.snd

def words (l : Text) : List Word := Fields.words (fun m => m.1 = .sep) (marks false l)

/-- A `!` or `$` at the beginning of the line, and the words of what is behind it. -/
def parts : Text → Option Byte × List Word
  | [] => (none, [])
  | c :: l => if special c then (some c, words l) else (none, words (c :: l))

def argTexts (line : Text) : List Text :=
  (parts line).1.toList.map ([·]) ++ (parts line).2.map Word.text

def secondWord (line : Text) : Option Word :=
  match parts line with
  | (some _, ws) => ws[0]?
  | (none, ws) => ws[1]?

def pointed (argbuf : Block Byte) : Ptr → Option Text
  | .constant c => some [c]
  | .argbuf i => string 0 (argbuf.drop i)

/-- The strings that `margv` points to, up to the NULL. -/
def strings (g : Globals) : Option (List Text) := (untilNull g.margv).bind fun ps =>
    ps.mapM (pointed g.argbuf)

/-- The arrays have the lengths `20` and `MAXLINE`. -/
structure Sized (g : Globals) : Prop where
  margv : g.margv.length = 20
  argbuf : g.argbuf.length = 200

/-- `makeargv` stores within its arrays, yields the words, and `altarg` is the place of the second
one. -/
def Splits (line : Text) (g : Globals) : Prop :=
  ∃ g', makeargv line g = some g' ∧ strings g' = some (argTexts line) ∧
    g'.margc = (argTexts line).length ∧
    ∀ w ∈ secondWord line, g'.altarg = w.start

/-- The bytes of `argbuf` that words need. -/
def stored (ts : List Text) : ℕ := (ts.map fun t => t.length + 1).sum

/-! ### A word -/

theorem marks_char (hc : blank c = false) (h92 : c ≠ 92) (h34 : c ≠ 34) (l : Text) :
    marks false (c :: l) = (.char c, c :: l) :: marks false l := by
  rw [marks.eq_def]
  simp [hc, h92, h34]

theorem marks_quote : marks false (34 :: l) = (.quote, 34 :: l) :: marks true l := by
  rw [marks.eq_def]
  rfl

theorem marks_backslash (d : Byte) (l : Text) : marks false (92 :: d :: l) =
    (.char d, 92 :: d :: l) :: marks false l := by
  rw [marks.eq_def]
  rfl

theorem marks_close : marks true (34 :: l) = (.quote, 34 :: l) :: marks false l := by
  rw [marks.eq_def]
  rfl

theorem marks_quoted (h34 : c ≠ 34) (l : Text) : marks true (c :: l) =
    (.char c, c :: l) :: marks true l := by
  rw [marks.eq_def]
  simp [h34]

theorem words_blank (hc : blank c = true) (l : Text) : words (c :: l) = words l := by
  rw [words, marks_blank hc, Fields.words_sep (by simp)]
  rfl

theorem words_dropWhile : words (l.dropWhile blank) = words l := by
  induction l with
  | nil => rfl
  | cons c l ih =>
    by_cases hc : blank c = true
    · rw [dropWhile_cons_of_pos hc, ih, words_blank hc]
    · rw [dropWhile_cons_of_neg hc]

theorem marks_head (hc : blank c = false) (l : Text) :
    (marks false (c :: l) = [] ∧ scan .S1 (c :: l) = ([], [])) ∨
      ∃ m ms, marks false (c :: l) = m :: ms ∧ m.1 ≠ .sep ∧ m.2 = c :: l := by
  by_cases h92 : c = 92
  · subst h92
    rcases l with - | ⟨d, l⟩
    · exact .inl ⟨rfl, rfl⟩
    · exact .inr ⟨_, _, marks_backslash d l, by simp, rfl⟩
  · by_cases h34 : c = 34
    · subst h34
      exact .inr ⟨_, _, marks_quote l, by simp, rfl⟩
    · exact .inr ⟨_, _, marks_char hc h92 h34 l, by simp, rfl⟩

def Label.marks : Label → Text → List (Kind × Text)
  | .S1, l => Makeargv.marks false l
  | .S2, l => Makeargv.marks false (92 :: l)
  | .S3, l => Makeargv.marks true l

structure Takes (ms : List (Kind × Text)) (r : Text × Text) (w : Word) : Prop where
  marks : ms = w ++ Makeargv.marks false r.2
  sep : ∀ m ∈ w, m.1 ≠ .sep
  text : w.text = r.1
  rest : ∀ c ∈ r.2.head?, blank c = true

variable {ms : List (Kind × Text)} {w : Word}

theorem Takes.char (h : Takes ms r w) (c : Byte) (l : Text) :
    Takes ((.char c, l) :: ms) (r.map (c :: ·) id) ((.char c, l) :: w) :=
  ⟨by rw [h.marks]; rfl, forall_mem_cons.2 ⟨by simp, h.sep⟩, congrArg (c :: ·) h.text, h.rest⟩

theorem Takes.quote (h : Takes ms r w) (l : Text) :
    Takes ((.quote, l) :: ms) r ((.quote, l) :: w) :=
  ⟨by rw [h.marks]; rfl, forall_mem_cons.2 ⟨by simp, h.sep⟩, h.text, h.rest⟩

theorem scan_takes (st : Label) (l : Text) : ∃ w, Takes (st.marks l) (scan st l) w := by
  fun_induction scan st l with
  | case1 st =>
    refine ⟨[], ?_, fun m hm => absurd hm not_mem_nil, rfl, by rintro c ⟨⟩⟩
    cases st <;> rfl
  | case2 c sb hblank =>
    refine ⟨[], rfl, fun m hm => absurd hm not_mem_nil, rfl, ?_⟩
    rintro d ⟨⟩
    exact hblank
  | case3 sb hblank ih => exact ih
  | case4 sb hblank h92 ih =>
    obtain ⟨w, hw⟩ := ih
    rw [Label.marks, marks_quote]
    exact ⟨_, hw.quote _⟩
  | case5 c sb hblank h92 h34 ih =>
    obtain ⟨w, hw⟩ := ih
    rw [Label.marks, marks_char (Bool.eq_false_iff.2 hblank) h92 h34]
    exact ⟨_, hw.char _ _⟩
  | case6 c sb ih =>
    obtain ⟨w, hw⟩ := ih
    rw [Label.marks, marks_backslash]
    exact ⟨_, hw.char _ _⟩
  | case7 sb ih =>
    obtain ⟨w, hw⟩ := ih
    rw [Label.marks, marks_close]
    exact ⟨_, hw.quote _⟩
  | case8 c sb h34 ih =>
    obtain ⟨w, hw⟩ := ih
    rw [Label.marks, marks_quoted h34]
    exact ⟨_, hw.char _ _⟩

/-- **A word**: from its first character on, the scanner stores its text, and comes to those behind
it. -/
theorem words_scan (hc : blank c = false) (l : Text) :
    (words (c :: l) = [] ∧ (scan .S1 (c :: l)).1 = []) ∨
      ∃ w, words (c :: l) = w :: words (scan .S1 (c :: l)).2 ∧ w.text = (scan .S1 (c :: l)).1 ∧
        w.start = some (c :: l) := by
  obtain ⟨hnil, hscan⟩ | ⟨m, ms, hmarks, hm, hstart⟩ := marks_head hc l
  · refine .inl ⟨?_, by rw [hscan]⟩
    rw [words, hnil, Fields.words_nil]
  · obtain ⟨w, hw⟩ := scan_takes .S1 (c :: l)
    have happ : marks false (c :: l) = w ++ marks false (scan .S1 (c :: l)).2 := hw.marks
    have hsep : ∀ m ∈ w, decide (m.1 = Kind.sep) = false :=
      fun m hm => decide_eq_false (hw.sep m hm)
    have hword : words (c :: l) = w :: words (scan .S1 (c :: l)).2 ∧ w ≠ [] := by
      rw [words, happ]
      rcases hrest : (scan .S1 (c :: l)).2 with - | ⟨d, r⟩
      · have hne : w ≠ [] := by
          rintro rfl
          rw [happ, hrest] at hmarks
          cases hmarks
        refine ⟨?_, hne⟩
        rw [show marks false ([] : Text) = [] from rfl, append_nil, Fields.words_single hne hsep]
        rfl
      · have hd : blank d = true := hw.rest d (by rw [hrest]; rfl)
        have hne : w ≠ [] := by
          rintro rfl
          rw [happ, hrest, marks_blank hd] at hmarks
          cases hmarks
          exact hm rfl
        refine ⟨?_, hne⟩
        rw [marks_blank hd, Fields.words_field hne hsep (by simp), words_blank hd]
        rfl
    refine .inr ⟨w, hword.1, hw.text, ?_⟩
    obtain ⟨m', w', rfl⟩ := exists_cons_of_ne_nil hword.2
    rw [happ, cons_append] at hmarks
    obtain ⟨rfl, -⟩ := List.cons.inj hmarks
    exact congrArg some hstart

/-! ### The loop -/

def leading (ws : List Word) : List Text := (ws.map Word.text).takeWhile (· ≠ [])

/-- What is stored in `argbuf`. -/
def bytes (ts : List Text) : Text := ts.flatMap (· ++ [0])

def pointers : ℕ → List Text → List Ptr
  | _, [] => []
  | p, t :: ts => .argbuf p :: pointers (p + (t.length + 1)) ts

theorem length_bytes (ts : List Text) : (bytes ts).length = stored ts := by
  induction ts with
  | nil => rfl
  | cons t ts ih =>
    rw [stored, map_cons, sum_cons, ← stored, ← ih, bytes, flatMap_cons, length_append,
      length_append]
    rfl

theorem length_pointers (p : ℕ) (ts : List Text) : (pointers p ts).length = ts.length := by
  induction ts generalizing p with
  | nil => rfl
  | cons t ts ih => rw [pointers, length_cons, length_cons, ih]

def State.behind (s : State) (w : Word) (rest : Text) (b : Block Byte) : State :=
  { s.switch w.start with
    stringbase := rest, argbuf := b, argbase := s.argbase + (w.text.length + 1) }

def Gives (s : State) (r : Option (Option Ptr × State)) : Prop :=
  (leading (words s.stringbase) = [] ∧
      ∃ s', r = some (none, s') ∧ s'.argbuf = s.argbuf ∧ (s.slrflag = 2 → s'.altarg = s.altarg)) ∨
    ∃ w rest, words s.stringbase = w :: words rest ∧ w.text ≠ [] ∧
      r = (fill s.argbuf s.argbase (w.text ++ [0])).map fun b =>
        (some (.argbuf s.argbase), s.behind w rest b)

theorem switch_zero (h : s.slrflag = 0) (alt : Option Text) :
    s.switch alt = { s with slrflag := 1 } := by
  obtain ⟨sb, b, p, flag, a⟩ := s
  cases h
  rfl

theorem switch_one (h : s.slrflag = 1) (alt : Option Text) :
    s.switch alt = { s with slrflag := 2, altarg := alt } := by
  obtain ⟨sb, b, p, flag, a⟩ := s
  cases h
  rfl

theorem switch_two (h : s.slrflag = 2) (alt : Option Text) : s.switch alt = s := by
  obtain ⟨sb, b, p, flag, a⟩ := s
  cases h
  rfl

theorem switch_switch (h : s.slrflag ≠ 0) (alt : Option Text) :
    (s.switch alt).switch alt = s.switch alt := by
  obtain ⟨sb, b, p, - | - | flag, a⟩ := s
  · exact absurd rfl h
  · rfl
  · rfl

theorem slurpWord_gives (s : State) : Gives s (slurpWord s) := by
  unfold slurpWord Gives
  rw [← words_dropWhile]
  rcases hsb : s.stringbase.dropWhile blank with - | ⟨c, sb⟩
  · exact .inl ⟨rfl, _, rfl, switch_argbuf s none, fun h => by rw [switch_two h]⟩
  · have hc : blank c = false := by
      have hhead := head?_dropWhile_not blank s.stringbase
      rw [hsb] at hhead
      exact hhead
    dsimp only
    obtain ⟨hnil, hword⟩ | ⟨w, hw, htext, hstart⟩ := words_scan hc sb
    · rw [hnil, if_pos hword]
      exact .inl ⟨rfl, _, rfl, by simp, fun h => by rw [switch_two h, switch_two h]⟩
    · rw [hw]
      split_ifs with hword
      · refine .inl ⟨?_, _, rfl, by simp, fun h => by rw [switch_two h, switch_two h]⟩
        rw [leading, map_cons, htext, hword]
        rfl
      · refine .inr ⟨w, _, rfl, htext ▸ hword, ?_⟩
        rw [switch_argbuf, switch_argbase, ← htext]
        unfold State.behind
        rw [hstart]

theorem slurpstring_gives (h : s.slrflag ≠ 0 ∨ ∀ c ∈ s.stringbase.head?, special c = false) :
    Gives s (slurpstring s) := by
  unfold slurpstring
  rcases hs : s.stringbase with - | ⟨c, sb⟩
  · exact slurpWord_gives s
  · dsimp only
    split_ifs with hc hflag
    · have hplain := (h.resolve_left (not_not.2 hflag)) c (by rw [hs]; rfl)
      rw [hplain] at hc
      cases hc
    · have hblank : blank c = false := by
        unfold special at hc
        rw [Bool.or_eq_true, decide_eq_true_iff, decide_eq_true_iff] at hc
        rcases hc with rfl | rfl <;> rfl
      obtain ⟨hnil, s', hs', hbuf, halt⟩ | ⟨w, rest, hw, htext, hs'⟩ :=
        slurpWord_gives (s.switch (some (c :: sb)))
      · rw [switch_stringbase] at hnil
        rw [switch_argbuf] at hbuf
        exact .inl ⟨hnil, s', hs', hbuf, fun h => by rw [switch_two h] at halt; exact halt h⟩
      · rw [switch_stringbase, hs] at hw
        have hstart : w.start = some (c :: sb) := by
          obtain ⟨hnil, -⟩ | ⟨w', hw', -, hstart⟩ := words_scan hblank sb
          · rw [hnil] at hw
            cases hw
          · rw [hw'] at hw
            obtain ⟨rfl, -⟩ := List.cons.inj hw
            exact hstart
        refine .inr ⟨w, rest, hs ▸ hw, htext, ?_⟩
        rw [hs', switch_argbuf, switch_argbase]
        unfold State.behind
        rw [hstart, switch_switch hflag, switch_argbase]
    · exact slurpWord_gives s

theorem switch_slrflag (s : State) (alt : Option Text) : (s.switch alt).slrflag ≠ 0 := by
  obtain ⟨sb, b, p, - | - | flag, a⟩ := s
  · exact Nat.one_ne_zero
  · exact (Nat.succ_ne_zero 1)
  · exact Nat.succ_ne_zero _

/-- The arrays, without `altarg`. -/
def Globals.arrays (g : Globals) : Block (Option Ptr) × ℕ × Block Byte :=
  (g.margv, g.margc, g.argbuf)

theorem leading_cons (h : w.text ≠ []) (ws : List Word) :
    leading (w :: ws) = w.text :: leading ws := by
  rw [leading, map_cons, takeWhile_cons_of_pos (by simpa using h)]
  rfl

theorem fill_bytes (b : Block Byte) (p : ℕ) (t : Text) (ts : List Text) :
    fill b p (bytes (t :: ts)) = (fill b p (t ++ [0])).bind fun b =>
    fill b (p + (t.length + 1)) (bytes ts) := by
  rw [bytes, flatMap_cons, fill_append, length_append]
  rfl

/-- **The loop** stores the words up to the first with no text, and NULL. -/
theorem argsLoop_eq (i : ℕ) (margv : Block (Option Ptr))
    (h : s.slrflag ≠ 0 ∨ ∀ c ∈ s.stringbase.head?, special c = false) :
    (argsLoop i margv s).map Globals.arrays =
      (fill s.argbuf s.argbase (bytes (leading (words s.stringbase)))).bind fun b =>
        (fill margv i ((pointers s.argbase (leading (words s.stringbase))).map some ++ [none])).map
        fun m =>
          (m, i + (leading (words s.stringbase)).length, b) := by
  fun_induction argsLoop i margv s with
  | case1 i margv s hs =>
    obtain ⟨-, s', hs', -⟩ | ⟨w, rest, hw, htext, hs'⟩ := slurpstring_gives h
    · rw [hs] at hs'
      cases hs'
    · rw [hs] at hs'
      rw [hw, leading_cons htext, fill_bytes, map_eq_none_iff.1 hs'.symm]
      rfl
  | case2 i margv s s' hs =>
    obtain ⟨hnil, s'', hs', hbuf, -⟩ | ⟨w, rest, hw, htext, hs'⟩ := slurpstring_gives h
    · rw [hs] at hs'
      cases hs'
      rw [hnil, hbuf]
      show _ = (fill margv i [none]).map _
      rw [fill_singleton, Option.map_map]
      rfl
    · rw [hs] at hs'
      obtain ⟨b, -, hb⟩ := map_eq_some_iff.1 hs'.symm
      cases hb
  | case3 i margv s p s' hs ih =>
    obtain ⟨hnil, s'', hs', hbuf, -⟩ | ⟨w, rest, hw, htext, hs'⟩ := slurpstring_gives h
    · rw [hs] at hs'
      cases hs'
    · rw [hs] at hs'
      obtain ⟨b, hb, heq⟩ := map_eq_some_iff.1 hs'.symm
      cases heq
      rw [hw, leading_cons htext, fill_bytes, hb, pointers, map_cons, cons_append, fill]
      have hih (m : Block (Option Ptr)) := ih m (.inl (switch_slrflag s w.start))
      have hbuf : (s.behind w rest b).argbuf = b := rfl
      have hbase : (s.behind w rest b).argbase = s.argbase + (w.text.length + 1) := rfl
      have hbehind : (s.behind w rest b).stringbase = rest := rfl
      rw [hbuf, hbase, hbehind] at hih
      have hlen :
          i + (w.text :: leading (words rest)).length = i + 1 + (leading (words rest)).length := by
        rw [length_cons]
        omega
      rw [bind_some, hlen]
      rcases write margv i (some (.argbuf s.argbase)) with - | m
      · rw [bind_none, map_none]
        cases fill b (s.argbase + (w.text.length + 1)) (bytes (leading (words rest))) <;> rfl
      · rw [bind_some, hih m]
        rfl

theorem argsLoop_altarg {i : ℕ} {margv : Block (Option Ptr)} {g : Globals}
    (h : s.slrflag ≠ 0 ∨ ∀ c ∈ s.stringbase.head?, special c = false)
    (hg : argsLoop i margv s = some g) :
    (s.slrflag = 2 → g.altarg = s.altarg) ∧
      (s.slrflag = 1 → ∀ w ∈ (words s.stringbase)[0]?, w.text ≠ [] → g.altarg = w.start) ∧
      (s.slrflag = 0 → ∀ v ∈ (words s.stringbase)[0]?, v.text ≠ [] →
        ∀ w ∈ (words s.stringbase)[1]?, w.text ≠ [] → g.altarg = w.start) := by
  fun_induction argsLoop i margv s with
  | case1 i margv s hs => cases hg
  | case2 i margv s s' hs =>
    obtain ⟨m, -, rfl⟩ := map_eq_some_iff.1 hg
    obtain ⟨hnil, s'', hs', hbuf, halt⟩ | ⟨w, rest, hw, htext, hs'⟩ := slurpstring_gives h
    · rw [hs] at hs'
      cases hs'
      have hfirst (w : Word) (hw : w ∈ (words s.stringbase)[0]?) (htext : w.text ≠ []) : False := by
        rcases hws : words s.stringbase with - | ⟨v, ws⟩
        · rw [hws] at hw
          cases hw
        · rw [hws] at hw hnil
          cases hw
          rw [leading_cons htext] at hnil
          cases hnil
      exact ⟨halt, fun _ w hw htext => (hfirst w hw htext).elim,
        fun _ v hv htext => (hfirst v hv htext).elim⟩
    · rw [hs] at hs'
      obtain ⟨b, -, hb⟩ := map_eq_some_iff.1 hs'.symm
      cases hb
  | case3 i margv s p s' hs ih =>
    obtain ⟨m, -, hm⟩ := bind_eq_some_iff.1 hg
    obtain ⟨hnil, s'', hs', hbuf, -⟩ | ⟨w, rest, hw, htext, hs'⟩ := slurpstring_gives h
    · rw [hs] at hs'
      cases hs'
    · rw [hs] at hs'
      obtain ⟨b, hb, heq⟩ := map_eq_some_iff.1 hs'.symm
      cases heq
      obtain ⟨h2, h1, -⟩ := ih m (.inl (switch_slrflag s w.start)) hm
      rw [hw]
      refine ⟨fun hflag => ?_, fun hflag v hv _ => ?_, fun hflag _ _ _ v hv htext => ?_⟩
      · rw [State.behind, switch_two hflag] at h2
        exact h2 hflag
      · cases hv
        rw [State.behind, switch_one hflag] at h2
        exact h2 rfl
      · rw [State.behind, switch_zero hflag] at h1
        exact h1 rfl v hv htext

/-! ### The whole line -/

def argPointers (line : Text) : List Ptr :=
  (parts line).1.toList.map .constant ++ pointers 0 (leading (parts line).2)

theorem argsLoop_some (h : slurpstring s = some (some p, s')) (i : ℕ) (margv : Block (Option Ptr)) :
    argsLoop i margv s = (write margv i (some p)).bind fun margv => argsLoop (i + 1) margv s' := by
  rw [argsLoop.eq_def]
  split <;> rename_i h' <;> rw [h] at h' <;> cases h'
  rfl

theorem slurpstring_special {l : Text} (hs : s.stringbase = c :: l) (hc : special c = true)
    (h : s.slrflag = 0) :
    slurpstring s = some (some (.constant c), { s with stringbase := l, slrflag := 1 }) := by
  unfold slurpstring
  rw [hs]
  dsimp only
  rw [if_pos hc, if_pos h]

theorem makeargv_eq (line : Text) (g : Globals) :
    (makeargv line g).map Globals.arrays =
      (fill g.argbuf 0 (bytes (leading (parts line).2))).bind fun b =>
        (fill g.margv 0 ((argPointers line).map some ++ [none])).map fun m =>
        (m, (argPointers line).length, b) := by
  have hplain (h : ∀ c ∈ line.head?, special c = false) := argsLoop_eq 0 g.margv
    (s := ⟨line, g.argbuf, 0, 0, g.altarg⟩) (.inr h)
  unfold makeargv argPointers parts
  rcases line with - | ⟨c, l⟩
  · exact hplain (by rintro c ⟨⟩)
  · dsimp only
    split_ifs with hc
    · have hspecial (m : Block (Option Ptr)) := argsLoop_eq 1 m (s := ⟨l, g.argbuf, 0, 1, g.altarg⟩)
        (.inl Nat.one_ne_zero)
      have hmap : (some c).toList.map Ptr.constant = [Ptr.constant c] := rfl
      rw [argsLoop_some (slurpstring_special rfl hc rfl), map_bind, hmap,
        singleton_append, map_cons,
        cons_append, fill, length_cons, length_pointers, add_comm (leading (words l)).length]
      rcases write g.margv 0 (some (Ptr.constant c)) with - | m
      · show none = (fill g.argbuf 0 (bytes (leading (words l)))).bind _
        cases fill g.argbuf 0 (bytes (leading (words l))) <;> rfl
      · exact hspecial m
    · have hpointers := hplain (by rintro d ⟨⟩; exact Bool.eq_false_iff.2 hc)
      rw [hpointers]
      simp only [toList_none, map_nil, nil_append, length_pointers, zero_add]

theorem marks_mem (quoted : Bool) (l : Text) : ∀ m ∈ marks quoted l, ∀ c,
    m.1 = .char c → c ∈ l := by
  fun_induction marks quoted l <;> simp_all <;> grind

theorem words_noNul {l : Text} (h : 0 ∉ l) : ∀ w ∈ words l, 0 ∉ w.text := by
  intro w hw hm
  obtain ⟨m, hm, hc⟩ := mem_filterMap.1 hm
  have hmarks := Fields.mem_of_mem_words hw hm
  rcases hkind : m.1 with - | - | c
  · rw [hkind] at hc
    cases hc
  · rw [hkind] at hc
    cases hc
  · rw [hkind] at hc
    cases hc
    exact h (marks_mem false l m hmarks 0 hkind)

theorem mapM_pointers {b r : Block Byte} {p : ℕ} (h : b.drop p = (bytes ts).map some ++ r)
    (hts : ∀ t ∈ ts, 0 ∉ t) : (pointers p ts).mapM (pointed b) = some ts := by
  induction ts generalizing p with
  | nil => rfl
  | cons t ts ih =>
    have hbytes : b.drop p = t.map some ++ some 0 :: ((bytes ts).map some ++ r) := by
      rw [h, bytes, flatMap_cons, map_append, map_append, append_assoc, append_assoc]
      rfl
    have hdrop : b.drop (p + (t.length + 1)) = (bytes ts).map some ++ r := by
      rw [← drop_drop, hbytes, ← singleton_append, ← append_assoc]
      exact drop_left' (by rw [length_append, length_map, length_singleton])
    have hfirst : pointed b (.argbuf p) = some t := by
      rw [pointed, hbytes, string_append (hts t mem_cons_self)]
    rw [pointers, mapM_cons, hfirst, ih hdrop fun t ht => hts t (mem_cons_of_mem _ ht)]
    rfl

theorem mapM_constants (b : Block Byte) (o : Option Byte) (ps : List Ptr)
    (h : ps.mapM (pointed b) = some ts) :
    (o.toList.map Ptr.constant ++ ps).mapM (pointed b) = some (o.toList.map ([·]) ++ ts) := by
  cases o with
  | none => exact h
  | some c =>
    rw [toList_some, map_singleton, singleton_append, mapM_cons, h]
    rfl

theorem parts_noNul {line : Text} (h : 0 ∉ line) : ∀ w ∈ (parts line).2, 0 ∉ w.text := by
  rcases line with - | ⟨c, l⟩
  · exact fun w hw => absurd hw not_mem_nil
  · unfold parts
    dsimp only
    split_ifs
    · exact words_noNul fun hm => h (mem_cons_of_mem c hm)
    · exact words_noNul h

section

variable {line : Text} {g : Globals}

def Fits (line : Text) : Prop :=
  (argPointers line).length ≤ 19 ∧ stored (leading (parts line).2) ≤ 200

theorem makeargv_some (hline : 0 ∉ line) (hg : Sized g) (h : Fits line) :
    ∃ g', makeargv line g = some g' ∧ Sized g' ∧
      strings g' = some ((parts line).1.toList.map ([·]) ++ leading (parts line).2) ∧
      g'.margc = (argPointers line).length := by
  have heq := makeargv_eq line g
  have hbytes : 0 + (bytes (leading (parts line).2)).length ≤ g.argbuf.length := by
    rw [Nat.zero_add, length_bytes, hg.argbuf]
    exact h.2
  have hptrs : 0 + ((argPointers line).map some ++ [none]).length ≤ g.margv.length := by
    rw [Nat.zero_add, length_append, length_map, length_singleton, hg.margv]
    exact Nat.succ_le_succ h.1
  rw [fill_eq (Nat.zero_le _), if_pos hbytes, bind_some, fill_eq (Nat.zero_le _), if_pos hptrs,
    take_zero, take_zero, nil_append, nil_append] at heq
  obtain ⟨g', hg', harrays⟩ := map_eq_some_iff.1 heq
  obtain ⟨hmargv, hmargc, hargbuf⟩ : g'.margv = _ ∧ g'.margc = _ ∧ g'.argbuf = _ :=
    ⟨congrArg Prod.fst harrays, congrArg (fun r => r.2.1) harrays,
      congrArg (fun r => r.2.2) harrays⟩
  refine ⟨g', hg', ⟨?_, ?_⟩, ?_, hmargc⟩
  · rw [hmargv, length_append, length_map, length_drop]
    rw [hg.margv] at hptrs ⊢
    omega
  · rw [hargbuf, length_append, length_map, length_drop]
    rw [hg.argbuf] at hbytes ⊢
    omega
  · have hnull : untilNull g'.margv = some (argPointers line) := by
      rw [hmargv, map_append, map_singleton, append_assoc]
      exact untilNull_append _ _
    have htexts : ∀ t ∈ leading (parts line).2, 0 ∉ t := by
      intro t ht
      obtain ⟨w, hw, rfl⟩ := mem_map.1 ((takeWhile_sublist _).subset ht)
      exact parts_noNul hline w hw
    rw [strings, hnull, bind_some, argPointers]
    have hdrop : g'.argbuf.drop 0 = (bytes (leading (parts line).2)).map some ++ _ :=
      drop_zero.trans hargbuf
    exact mapM_constants _ _ _ (mapM_pointers hdrop htexts)

theorem fits_of_some {g' : Globals} (hg : Sized g) (h : makeargv line g = some g') : Fits line := by
  have heq := makeargv_eq line g
  rw [h, map_some] at heq
  obtain ⟨b, hb, hmap⟩ := bind_eq_some_iff.1 heq.symm
  obtain ⟨m, hm, -⟩ := map_eq_some_iff.1 hmap
  rw [fill_eq (Nat.zero_le _)] at hb hm
  split_ifs at hb hm with hbytes hptrs
  rw [Nat.zero_add, length_bytes, hg.argbuf] at hbytes
  rw [Nat.zero_add, length_append, length_map, length_singleton, hg.margv] at hptrs
  exact ⟨by omega, hbytes⟩

theorem length_argPointers (line : Text) :
    (argPointers line).length = (parts line).1.toList.length + (leading (parts line).2).length := by
  rw [argPointers, length_append, length_map, length_pointers]

theorem leading_eq_iff {ws : List Word} : leading ws = ws.map Word.text ↔
    [] ∉ ws.map Word.text := by
  rw [leading, takeWhile_eq_self_iff]
  constructor
  · exact fun h hmem => absurd (h [] hmem) (by simp)
  · intro h t ht
    rw [decide_eq_true_iff]
    rintro rfl
    exact h ht

theorem nil_mem_argTexts : [] ∈ argTexts line ↔ [] ∈ (parts line).2.map Word.text := by
  rw [argTexts, mem_append]
  refine or_iff_right fun hmem => ?_
  obtain ⟨c, -, hc⟩ := mem_map.1 hmem
  cases hc

theorem altarg_eq {g' : Globals} (h : makeargv line g = some g')
    (htexts : [] ∉ (parts line).2.map Word.text) :
    ∀ w ∈ secondWord line, g'.altarg = w.start := by
  have htext {i : ℕ} {w : Word} (hw : w ∈ (parts line).2[i]?) : w.text ≠ [] := by
    intro hnil
    exact htexts (mem_map.2 ⟨w, mem_of_getElem? hw, hnil⟩)
  unfold secondWord
  unfold makeargv at h
  rcases line with - | ⟨c, l⟩
  · rintro w ⟨⟩
  · by_cases hc : special c = true
    · have hparts : parts (c :: l) = (some c, words l) := if_pos hc
      rw [argsLoop_some (slurpstring_special rfl hc rfl)] at h
      obtain ⟨m, -, hm⟩ := bind_eq_some_iff.1 h
      obtain ⟨-, hone, -⟩ := argsLoop_altarg (.inl Nat.one_ne_zero) hm
      rw [hparts] at htext ⊢
      exact fun w hw => hone rfl w hw (htext hw)
    · have hparts : parts (c :: l) = (none, words (c :: l)) := if_neg hc
      have hplain : ∀ d ∈ (c :: l).head?, special d = false := by
        rintro d ⟨⟩
        exact Bool.eq_false_iff.2 hc
      obtain ⟨-, -, hzero⟩ := argsLoop_altarg (.inr hplain) h
      rw [hparts] at htext ⊢
      intro w hw
      obtain ⟨v, hv⟩ : ∃ v, (words (c :: l))[0]? = some v := by
        have hlt := List.getElem?_eq_some_iff.1 hw
        exact ⟨_, getElem?_eq_getElem (Nat.lt_of_succ_lt hlt.1)⟩
      exact hzero rfl v hv (htext hv) w hw (htext hw)

end

/-- **A command line is split into its words** just in case there are at most 19, each has a text,
and with their NULs they fit into `argbuf`. -/
theorem splits_iff (line : Str) {g : Globals} (hg : Sized g) :
    Splits line g ↔
      (argTexts line).length ≤ 19 ∧ [] ∉ argTexts line ∧
      stored ((parts line).2.map Word.text) ≤ 200 := by
  have hlen : (argTexts line).length =
    (parts line.1).1.toList.length + ((parts line.1).2.map Word.text).length := by
    rw [argTexts, length_append, length_map]
  rw [nil_mem_argTexts]
  constructor
  · rintro ⟨g', hg', hstrings, -, -⟩
    obtain ⟨hptrs, hstored⟩ := fits_of_some hg hg'
    obtain ⟨g'', hg'', -, hstrings', -⟩ := makeargv_some line.2 hg ⟨hptrs, hstored⟩
    rw [hg'] at hg''
    cases hg''
    rw [hstrings, argTexts] at hstrings'
    have hleading := (append_cancel_left (some.inj hstrings')).symm
    rw [length_argPointers, hleading] at hptrs
    rw [hleading] at hstored
    exact ⟨hlen ▸ hptrs, leading_eq_iff.1 hleading, hstored⟩
  · rintro ⟨hlength, htexts, hstored⟩
    have hleading := leading_eq_iff.2 htexts
    have hfits : Fits line.1 := by
      refine ⟨?_, hleading ▸ hstored⟩
      rw [length_argPointers, hleading]
      exact hlen ▸ hlength
    obtain ⟨g', hg', -, hstrings, hmargc⟩ := makeargv_some line.2 hg hfits
    refine ⟨g', hg', ?_, ?_, altarg_eq hg' htexts⟩
    · rw [hstrings, hleading]
      rfl
    · rw [hmargc, length_argPointers, hleading, hlen]

/-- `ls -l` -/
def lsLine : Str := ⟨[108, 115, 32, 45, 108], by decide⟩

def noArgs : Globals := ⟨alloc 20, 0, alloc 200, none⟩

theorem splits_ls : Splits lsLine noArgs :=
  (splits_iff lsLine ⟨length_alloc 20, length_alloc 200⟩).2 (by decide +kernel)

def twentyWords : Str := ⟨(List.replicate 20 [97, 32]).flatten, by decide +kernel⟩

/-- A line that is typed: the NULL is stored behind the end of `margv`. -/
theorem not_splits_twenty : twentyWords.1.length < 200 ∧ ¬ Splits twentyWords noArgs := by
  refine ⟨by decide +kernel, ?_⟩
  rintro ⟨g', hg', -⟩
  have hfits := fits_of_some ⟨length_alloc 20, length_alloc 200⟩ hg'
  exact absurd hfits.1 (by decide +kernel)

end Inetutils.Ftp.Makeargv
