import Inetutils.Lib.Letters
import Inetutils.Lib.Pieces
import Mathlib.Data.List.DropRight

/-! # The lines of the configuration file

`init` of `src/syslogd.c` reads the lines of the file into a buffer that it doubles when a line does
not fit. A line that ends in a backslash is joined with the next one, which is read behind it.
`cline` is where the next line is read; what is before it in the buffer is `pre`. -/

namespace Inetutils.Syslogd.Init

open Lib.Letters Lib.Lines Lib.Pieces List Option

abbrev Text := List UInt8

def lineMax : ℕ := 2048

def blank (c : UInt8) : Bool := c == 32 || c == 9

/-- What is done with a line that is complete: what is sent to `cfline`, or what is continued. -/
def examine (t : Text) : List Text × Option Text :=
  let p := t.dropWhile isspace
  if p = [] ∨ p.head? = some 35 then ([], none)
  else
    let q := p.rdropWhile isspace
    if q.getLast? = some 92 then ([], some q.dropLast) else ([q], none)

/-- `strcpy (cline, p)` writes over what it reads: the text with its NUL, behind less white space
than that. -/
def overlaps (t : Text) : Prop :=
  let p := t.dropWhile isspace
  ¬ (p = [] ∨ p.head? = some 35) ∧ p.length < t.length ∧ t.length ≤ 2 * p.length

instance : DecidablePred overlaps := fun t => by unfold overlaps; infer_instance

/-- What has happened: whether the program has done what is not defined with its memory, the lines
that were completed with whether several calls of `fgets` were needed, and the calls of `cfline`. -/
structure Run where
  fault : Bool
  lines : List (Text × Bool)
  calls : List Text

/-- The loop around `fgets`, which stores `max - pre.length` bytes at most. -/
def loop (max : ℕ) (pre : Text) (cont several : Bool) (input : Text) : Run :=
  if max < pre.length + 2 then ⟨true, [], []⟩
  else if _hinput : input = [] then ⟨false, [], []⟩
  else
    let r := piece 10 (max - pre.length - 1) input
    let text := if cont then r.1.dropWhile blank else r.1
    if 10 ∈ text then
      if overlaps (pre ++ text) then ⟨true, [], []⟩
      else
        let e := examine (pre ++ text)
        let next := loop max (e.2.getD []) e.2.isSome false r.2
        { next with lines := (pre ++ text, several) :: next.lines, calls := e.1 ++ next.calls }
    -- `cline` would be before the buffer
    else if pre ++ text = [] ∧ r.2 ≠ [] then ⟨true, [], []⟩
    else loop (2 * max) (pre ++ text).dropLast false true r.2
termination_by input.length
decreasing_by
  all_goals
    have happend := congrArg List.length (piece_append 10 (max - pre.length - 1) input)
    have hpos :=
      List.length_pos_of_ne_nil (mt (piece_eq_nil_iff 10 (max - pre.length - 1) input).1 _hinput)
    rw [List.length_append] at happend
    omega

/-- **The lines of a file.** -/
def init (file : Text) : Run := loop lineMax [] false false file

/-! ### The lines as they are meant -/

def strip (t : Text) : Text := (t.dropWhile isspace).rdropWhile isspace

/-- A line without blanks at its ends: nothing, a comment, the first part of a line, or a line. -/
def logical (t : Text) : List Text × Option Text :=
  if strip t = [] ∨ (strip t).head? = some 35 then ([], none)
  else if (strip t).getLast? = some 92 then ([], some (strip t).dropLast)
  else ([strip t], none)

def raw : Option Text → Text → Text
  | none, l => l
  | some u, l => u ++ l.dropWhile blank

/-- The text of each line of the file that a newline ends, with what it continues. -/
def raws : Option Text → List Text → List Text
  | _, [] => []
  | u, l :: ls => raw u l :: raws (logical (raw u l)).2 ls

/-- What the file ends with: `last` has no newline, and nothing is behind it. -/
def final (u : Option Text) (last : Text) : List Text :=
  let e := if last = [] then ([], u) else logical (raw u last)
  e.1 ++ (e.2.filter fun v => strip v ≠ []).toList.map strip

/-- **The logical lines.** -/
def logicalLines : Option Text → List Text → Text → List Text
  | u, [], last => final u last
  | u, l :: ls, last => (logical (raw u l)).1 ++ logicalLines (logical (raw u l)).2 ls last

/-- **`cfline` is called for each logical line**, with its text, what was read in several calls is
the line that would have been read in one, and `fgets` has room. -/
def Good (r : Run) (u : Option Text) (ls : List Text) (last : Text) : Prop :=
  r.fault = false ∧ r.calls = logicalLines u ls last ∧
    ∀ (i : ℕ) (t : Text), r.lines[i]? = some (t, true) → (raws u ls)[i]?.map (· ++ [10]) = some t

def Delivers (file : Text) : Prop := Good (init file) none (cut 10 [] file).1 (cut 10 [] file).2

/-! ### The lines that are read -/

def Fits (max : ℕ) (u : Option Text) (l : Text) : Prop := (u.getD []).length + l.length + 2 ≤ max

/-- A line fills the buffer with blanks, which are dropped, and the last byte of what it continues,
which is lost then, is what the line has next. -/
def Lucky (max : ℕ) (u : Option Text) (l : Text) : Prop :=
  ∃ v c, u = some (v ++ [c]) ∧ (∀ b ∈ l.take (max - v.length - 2), blank b) ∧
    l.drop (max - v.length - 2) = c :: l.dropWhile blank ∧
    v.length + (c :: l.dropWhile blank).length + 2 ≤ 2 * max

/-- White space in front of a line that is used, and no more of it than of the rest with its
newline. -/
def Moved (t : Text) : Prop :=
  let p := t.dropWhile isspace
  ¬ (p = [] ∨ p.head? = some 35) ∧ p.length < t.length ∧ t.length ≤ 2 * p.length + 1

/-- The end of the file: nothing that should be sent, nor so many blanks that `cline` gets before
the buffer. -/
def Ends (max : ℕ) (u : Option Text) (last : Text) : Prop :=
  final u last = [] ∧ ¬ (u = some [] ∧ max ≤ last.length ∧ ∀ b ∈ last.take (max - 1), blank b)

/-- **The files that are read**: no line is moved, all lines fit, up to luck, and nothing is behind
the last newline. -/
def Reads : ℕ → Option Text → List Text → Text → Prop
  | max, u, [], last => Ends max u last
  | max, u, l :: ls, last =>
    ¬ Moved (raw u l) ∧ ((Fits max u l ∧ Reads max (logical (raw u l)).2 ls last) ∨
      (Lucky max u l ∧ Reads (2 * max) (logical (raw u l)).2 ls last))

/-! ### One line -/

theorem rdropWhile_cons {p : UInt8 → Bool} {c : UInt8} (hc : p c = false) (l : Text) :
    (c :: l).rdropWhile p = c :: l.rdropWhile p := by
  induction l using List.reverseRecOn with
  | nil => exact rdropWhile_concat_neg p [] c (by rw [hc]; decide)
  | append_singleton l a ih =>
    by_cases ha : p a
    · rw [← cons_append, rdropWhile_concat_pos _ _ _ ha, rdropWhile_concat_pos _ _ _ ha, ih]
    · rw [← cons_append, rdropWhile_concat_neg _ _ _ ha, rdropWhile_concat_neg _ _ _ ha,
        cons_append]

theorem dropWhile_isspace_newline (t : Text) :
    (t ++ [10]).dropWhile isspace = if t.dropWhile isspace = [] then []
      else t.dropWhile isspace ++ [10] := by
  rw [dropWhile_append]
  cases t.dropWhile isspace with
  | nil => rfl
  | cons c p => rfl

/-- **A complete line is examined** as it is meant. -/
theorem examine_newline (t : Text) : examine (t ++ [10]) = logical t := by
  unfold examine logical strip
  have hspace : isspace 10 = true := by decide
  rw [dropWhile_isspace_newline]
  cases ht : t.dropWhile isspace with
  | nil => rfl
  | cons c p =>
    have hc : isspace c = false := by
      have := head?_dropWhile_not isspace t
      rw [ht] at this
      exact this
    rw [if_neg (cons_ne_nil c p), cons_append, rdropWhile_cons hc]
    dsimp only
    rw [rdropWhile_cons hc, rdropWhile_concat_pos _ _ _ hspace]
    simp only [cons_ne_nil, false_or, head?_cons]

theorem overlaps_newline (t : Text) : overlaps (t ++ [10]) ↔ Moved t := by
  unfold overlaps Moved
  rw [dropWhile_isspace_newline]
  cases t.dropWhile isspace with
  | nil => exact iff_of_false (fun h => h.1 (.inl rfl)) fun h => h.1 (.inl rfl)
  | cons c p =>
    rw [if_neg (cons_ne_nil c p), cons_append]
    simp only [cons_ne_nil, false_or, head?_cons, length_append, length_cons, length_nil]
    refine and_congr_right fun _ => ?_
    omega

theorem dropWhile_newline {l : Text} : (l ++ [10]).dropWhile blank = l.dropWhile blank ++ [10] := by
  rw [dropWhile_append]
  cases l.dropWhile blank with
  | nil => rfl
  | cons _ _ => rfl

def stored (cont : Bool) (l : Text) : Text := if cont then l.dropWhile blank else l

theorem stored_newline (cont : Bool) (l : Text) :
    stored cont (l ++ [10]) = stored cont l ++ [10] := by
  cases cont with
  | false => rfl
  | true => exact dropWhile_newline

theorem length_stored_le (cont : Bool) (l : Text) : (stored cont l).length ≤ l.length := by
  cases cont with
  | false => exact le_rfl
  | true => exact (dropWhile_suffix _).length_le

theorem not_mem_stored {l : Text} (h : 10 ∉ l) (cont : Bool) : 10 ∉ stored cont l := by
  cases cont with
  | false => exact h
  | true => exact fun hm => h ((dropWhile_suffix _).subset hm)

section
variable {max : ℕ} {pre l : Text} {cont several : Bool}

theorem loop_newline (h10 : 10 ∉ l) (hfits : pre.length + l.length + 2 ≤ max) (more : Text) :
    loop max pre cont several (l ++ 10 :: more) =
      if overlaps (pre ++ stored cont l ++ [10]) then ⟨true, [], []⟩
      else
        let e := logical (pre ++ stored cont l)
        let next := loop max (e.2.getD []) e.2.isSome false more
        { next with
          lines := (pre ++ stored cont l ++ [10], several) :: next.lines
          calls := e.1 ++ next.calls } := by
  have hpiece : piece 10 (max - pre.length - 1) (l ++ 10 :: more) = (l ++ [10], more) :=
    piece_of_delim 10 h10 (by omega) more
  rw [loop, if_neg (by omega), dif_neg (append_ne_nil_of_right_ne_nil _ (cons_ne_nil _ _)), hpiece]
  have htext : (if cont then (l ++ [10]).dropWhile blank else l ++ [10]) = stored cont l ++ [10] :=
    stored_newline cont l
  dsimp only
  rw [htext, if_pos (mem_append_right _ mem_cons_self), ← append_assoc, examine_newline]

theorem loop_moved (h10 : 10 ∉ l) (hfits : pre.length + l.length + 2 ≤ max)
    (hm : Moved (pre ++ stored cont l))
    (more : Text) : loop max pre cont several (l ++ 10 :: more) = ⟨true, [], []⟩ :=
  (loop_newline h10 hfits more).trans (if_pos ((overlaps_newline _).2 hm))

theorem loop_fits (h10 : 10 ∉ l) (hfits : pre.length + l.length + 2 ≤ max)
    (hm : ¬ Moved (pre ++ stored cont l)) (more : Text) :
    loop max pre cont several (l ++ 10 :: more) =
      let e := logical (pre ++ stored cont l)
      let next := loop max (e.2.getD []) e.2.isSome false more
      { next with
        lines := (pre ++ stored cont l ++ [10], several) :: next.lines
        calls := e.1 ++ next.calls } :=
  (loop_newline h10 hfits more).trans (if_neg (mt (overlaps_newline _).1 hm))

/-- **A line that does not**: the last byte that was stored is lost. -/
theorem loop_full (h10 : 10 ∉ l) (hroom : pre.length + 2 ≤ max)
    (hlen : max ≤ pre.length + l.length + 1) (rest : Text) :
    loop max pre cont several (l ++ rest) =
      let text := stored cont (l.take (max - pre.length - 1))
      let left := l.drop (max - pre.length - 1) ++ rest
      if pre ++ text = [] ∧ left ≠ [] then ⟨true, [], []⟩
      else loop (2 * max) (pre ++ text).dropLast false true left := by
  have h10' : 10 ∉ l.take (max - pre.length - 1) := fun h => h10 (mem_of_mem_take h)
  have hpiece :=
    piece_full 10 h10' (n := max - pre.length - 1) (by omega) (length_take_of_le (by omega))
    (l.drop (max - pre.length - 1) ++ rest)
  rw [← append_assoc, take_append_drop] at hpiece
  have hne : l ++ rest ≠ [] := append_ne_nil_of_left_ne_nil (ne_nil_of_length_pos (by omega)) _
  rw [loop, if_neg (by omega), dif_neg hne, hpiece]
  exact if_neg (not_mem_stored h10' cont)

theorem loop_rest (h10 : 10 ∉ l) (hne : l ≠ []) (hlen : pre.length + l.length + 1 < max) :
    loop max pre cont several l = loop (2 * max) (pre ++ stored cont l).dropLast false true [] := by
  have hpiece : piece 10 (max - pre.length - 1) (l ++ []) = (l, []) := by
    rw [piece_of_not_mem 10 h10 (by omega), piece_nil, append_nil]
  rw [append_nil] at hpiece
  rw [loop, if_neg (by omega), dif_neg hne, hpiece]
  have htext : 10 ∉ (if cont then l.dropWhile blank else l) := not_mem_stored h10 cont
  rw [if_neg htext, if_neg (fun h => h.2 rfl)]
  rfl

end

/-! ### A line that does not fit -/

/-- **The line that is completed**, once blanks are no longer dropped: what is before it is kept,
and nothing is added; or it is moved. -/
theorem long_cases (max : ℕ) (pre l : Text) (more : Text) (several : Bool) (h10 : 10 ∉ l)
    (hroom : pre.length + 2 ≤ max) :
    (loop max pre false several (l ++ 10 :: more)).fault = true ∨
      ∃ t b, (loop max pre false several (l ++ 10 :: more)).lines.head? = some (t, b) ∧ pre <+: t ∧
        t.length ≤ pre.length + l.length + 1 ∧ (several = true → b = true) := by
  induction hn : l.length using Nat.strong_induction_on generalizing max pre l several with
  | _ n ih =>
    subst hn
    rcases lt_or_ge (pre.length + l.length + 1) max with hfits | hlong
    · by_cases hm : Moved (pre ++ stored false l)
      · exact .inl (congrArg Run.fault (loop_moved h10 (by omega) hm more))
      refine .inr ⟨pre ++ l ++ [10], several, ?_, ⟨l ++ [10], (append_assoc _ _ _).symm⟩, ?_, id⟩
      · rw [loop_fits h10 (by omega) hm]
        rfl
      · rw [length_append, length_append, length_singleton]
    · have hne : ¬ (pre ++ stored false (l.take (max - pre.length - 1)) = [] ∧
          l.drop (max - pre.length - 1) ++ 10 :: more ≠ []) := by
        intro h
        have := congrArg List.length h.1
        rw [length_append, stored, if_neg Bool.false_ne_true, length_take_of_le (by omega),
          length_nil] at this
        omega
      have hlen :
          (pre ++ stored false (l.take (max - pre.length - 1))).dropLast.length = max - 2 := by
        rw [length_dropLast, length_append, stored, if_neg Bool.false_ne_true,
          length_take_of_le (by omega)]
        omega
      have hloop : loop max pre false several (l ++ 10 :: more) = _ :=
        (loop_full h10 hroom hlong (10 :: more)).trans (if_neg hne)
      rw [hloop]
      refine (ih (l.drop (max - pre.length - 1)).length (by rw [length_drop]; omega) (2 * max)
        (pre ++ stored false (l.take (max - pre.length - 1))).dropLast
        (l.drop (max - pre.length - 1)) true
        (fun h => h10 (mem_of_mem_drop h)) (by omega) rfl).imp_right ?_
      rintro ⟨t, b, hlines, hpre, ht, hb⟩
      refine ⟨t, b, hlines, ?_, ?_, fun _ => hb rfl⟩
      · refine List.IsPrefix.trans ?_ hpre
        rw [dropLast_append_of_ne_nil]
        · exact prefix_append _ _
        · exact ne_nil_of_length_pos (by
            rw [stored, if_neg Bool.false_ne_true, length_take_of_le (by omega)]
            omega)
      · rw [hlen, length_drop] at ht
        omega

theorem loop_last (max : ℕ) (pre last : Text) (several : Bool) (h10 : 10 ∉ last)
    (hroom : pre.length + 2 ≤ max) :
    loop max pre false several last = ⟨false, [], []⟩ := by
  induction hn : last.length using Nat.strong_induction_on generalizing max pre last several with
  | _ n ih =>
    subst hn
    by_cases hempty : last = []
    · subst hempty
      rw [loop, if_neg (by omega), dif_pos rfl]
    have hpos := length_pos_of_ne_nil hempty
    rcases lt_or_ge (pre.length + last.length + 1) max with hfits | hlong
    · rw [loop_rest h10 hempty hfits]
      refine ih 0 hpos (2 * max) _ [] true not_mem_nil ?_ rfl
      have := length_stored_le false last
      rw [length_dropLast, length_append]
      omega
    · have hfull : loop max pre false several (last ++ []) = _ := loop_full h10 hroom hlong []
      rw [append_nil, append_nil] at hfull
      rw [hfull]
      have hlen : (pre ++ stored false (last.take (max - pre.length - 1))).length = max - 1 := by
        rw [length_append, stored, if_neg Bool.false_ne_true, length_take_of_le (by omega)]
        omega
      rw [if_neg fun h => by have := congrArg List.length h.1; rw [hlen, length_nil] at this; omega]
      refine ih (last.drop (max - pre.length - 1)).length (by rw [length_drop]; omega)
        (2 * max) _ _ true
        (fun h => h10 (mem_of_mem_drop h)) ?_ rfl
      rw [length_dropLast, hlen]
      omega

/-- **The end of the file**: nothing is sent any more. -/
theorem loop_end (max : ℕ) (u : Option Text) (last : Text) (h10 : 10 ∉ last)
    (hroom : (u.getD []).length + 2 ≤ max) :
    (loop max (u.getD []) u.isSome false last).lines = [] ∧
    (loop max (u.getD []) u.isSome false last).calls = [] ∧
      ((loop max (u.getD []) u.isSome false last).fault = true ↔
        u = some [] ∧ max ≤ last.length ∧ ∀ b ∈ last.take (max - 1), blank b) := by
  cases u with
  | none =>
    rw [getD_none, isSome_none, loop_last max [] last false h10 hroom]
    exact ⟨rfl, rfl, iff_of_false (fun h => by cases h) fun h => by cases h.1⟩
  | some pre =>
    rw [getD_some] at hroom ⊢
    rw [isSome_some]
    by_cases hempty : last = []
    · subst hempty
      rw [loop, if_neg (by omega), dif_pos rfl]
      exact ⟨rfl, rfl, iff_of_false (fun h => by cases h) fun h => by
        have := h.2.1
        rw [length_nil] at this
        omega⟩
    rcases lt_or_ge (pre.length + last.length + 1) max with hfits | hlong
    · rw [loop_rest h10 hempty hfits, loop_last _ _ _ _ not_mem_nil]
      · exact ⟨rfl, rfl, iff_of_false (fun h => by cases h) fun h => by have := h.2.1; omega⟩
      · have := length_stored_le true last
        rw [length_dropLast, length_append]
        omega
    · have hfull : loop max pre true false (last ++ []) = _ := loop_full h10 hroom hlong []
      rw [append_nil, append_nil] at hfull
      rw [hfull]
      have hlen : (pre ++ stored true (last.take (max - pre.length - 1))).length ≤ max - 1 := by
        have := length_stored_le true (last.take (max - pre.length - 1))
        rw [length_take_of_le (by omega)] at this
        rw [length_append]
        omega
      have hblank : stored true (last.take (max - pre.length - 1)) = [] ↔
          ∀ b ∈ last.take (max - pre.length - 1), blank b := dropWhile_eq_nil_iff
      by_cases hbefore : pre ++ stored true (last.take (max - pre.length - 1)) = [] ∧
          last.drop (max - pre.length - 1) ≠ []
      · rw [if_pos hbefore]
        obtain ⟨happend, hrest⟩ := hbefore
        obtain ⟨rfl, hnil⟩ := append_eq_nil_iff.1 happend
        rw [Ne, drop_eq_nil_iff, length_nil] at hrest
        refine ⟨rfl, rfl, iff_of_true rfl ⟨rfl, by omega, hblank.1 hnil⟩⟩
      · rw [if_neg hbefore, loop_last _ _ _ _ fun h => h10 (mem_of_mem_drop h)]
        · refine ⟨rfl, rfl, iff_of_false (fun h => by cases h) fun ⟨hu, hmax, hall⟩ => hbefore ?_⟩
          obtain rfl : pre = [] := some_inj.1 hu
          refine ⟨hblank.2 hall, ?_⟩
          rw [Ne, drop_eq_nil_iff, length_nil]
          omega
        · rw [length_dropLast]
          omega

/-! ### The files that are read -/

theorem raw_eq (u : Option Text) (l : Text) : raw u l = u.getD [] ++ stored u.isSome l := by
  cases u <;> rfl

theorem length_logical {t q : Text} (h : (logical t).2 = some q) : q.length + 1 ≤ t.length := by
  unfold logical at h
  split_ifs at h with hskip hcont
  · obtain rfl := some_inj.1 h
    have hstrip : (strip t).length ≤ t.length :=
      (List.rdropWhile_prefix _ _).length_le.trans (dropWhile_suffix _).length_le
    have hpos := length_pos_of_mem (mem_of_getLast? hcont)
    rw [length_dropLast]
    omega

variable {u : Option Text} {ls : List Text} {last : Text}

theorem good_cons {next : Run} {l : Text} {b : Bool} :
    Good { next with
      lines := (raw u l ++ [10], b) :: next.lines, calls := (logical (raw u l)).1 ++ next.calls } u
      (l :: ls) last ↔ Good next (logical (raw u l)).2 ls last := by
  refine and_congr_right fun _ => and_congr ?_ ?_
  · exact ⟨fun h => append_cancel_left h, fun h => congrArg _ h⟩
  · constructor
    · exact fun h i t hi => h (i + 1) t hi
    · intro h i t hi
      cases i with
      | zero =>
        rw [getElem?_cons_zero, some_inj, Prod.mk.injEq] at hi
        rw [← hi.1]
        rfl
      | succ i => exact h i t hi

theorem not_good {r : Run} {t : Text} (h : r.lines.head? = some (t, true)) {l : Text}
    (hne : t ≠ raw u l ++ [10]) : ¬ Good r u (l :: ls) last := by
  rintro ⟨-, -, hlines⟩
  rw [head?_eq_getElem?] at h
  exact hne (some_inj.1 (hlines 0 t h)).symm

theorem not_good_of_fault {r : Run} (h : r.fault = true) :
    ¬ Good r u ls last := fun hg => Bool.false_ne_true (hg.1.symm.trans h)

/-- A line that has its newline in the buffer. -/
theorem good_newline {max : ℕ} {pre l r : Text} {cont several : Bool} (h10 : 10 ∉ r)
    (hfits : pre.length + r.length + 2 ≤ max) (hraw : pre ++ stored cont r = raw u l) (more : Text)
    (ls : List Text) (last : Text) :
    Good (loop max pre cont several (r ++ 10 :: more)) u (l :: ls) last ↔
      ¬ Moved (raw u l) ∧
        Good (loop max ((logical (raw u l)).2.getD []) (logical (raw u l)).2.isSome false more)
        (logical (raw u l)).2 ls last := by
  rw [← hraw]
  by_cases hm : Moved (pre ++ stored cont r)
  · rw [loop_moved h10 hfits hm]
    exact iff_of_false (not_good_of_fault rfl) fun h => h.1 hm
  · rw [loop_fits h10 hfits hm, and_iff_right hm, hraw]
    exact good_cons

theorem Lucky.loop_eq {max : ℕ} {l : Text} (h : Lucky max u l) (h10 : 10 ∉ l)
    (hroom : (u.getD []).length + 3 ≤ max) (more : Text) :
    ¬ Fits max u l ∧ ∃ v r, 10 ∉ r ∧ v.length + r.length + 2 ≤ 2 * max ∧
    v ++ stored false r = raw u l ∧
      loop max (u.getD []) u.isSome false (l ++ 10 :: more) =
      loop (2 * max) v false true (r ++ 10 :: more) := by
  obtain ⟨v, c, rfl, hblank, hdrop, hlen⟩ := h
  rw [getD_some, length_append, length_singleton] at hroom
  have hk : max - (v ++ [c]).length - 1 = max - v.length - 2 := by
    rw [length_append, length_singleton]
    omega
  have hlong : max - v.length - 2 < l.length := by
    by_contra hle
    rw [drop_eq_nil_of_le (Nat.le_of_not_lt hle)] at hdrop
    cases hdrop
  refine ⟨fun hfits => ?_, v, c :: l.dropWhile blank, ?_, hlen, ?_, ?_⟩
  · unfold Fits at hfits
    rw [getD_some, length_append, length_singleton] at hfits
    omega
  · rw [← hdrop]
    exact fun h => h10 (mem_of_mem_drop h)
  · rw [raw, append_assoc, singleton_append]
    rfl
  · have hstored : stored true (l.take (max - v.length - 2)) = [] := dropWhile_eq_nil_iff.2 hblank
    have hpre : ((v ++ [c]) ++ [] : Text) ≠ [] := by simp
    rw [getD_some, isSome_some, loop_full h10 (by rw [length_append, length_singleton]; omega)
      (by rw [length_append, length_singleton]; omega), hk, hstored]
    rw [if_neg fun h => hpre h.1, append_nil, dropLast_concat, hdrop]

theorem not_blank_head {b : UInt8} (hb : blank b) (s r : Text) :
    ¬ b :: s <+: r.dropWhile blank ++ [10] := by
  rintro ⟨s', heq⟩
  cases hD : r.dropWhile blank with
  | nil =>
    rw [hD] at heq
    obtain rfl : b = 10 := (cons.inj heq).1
    cases hb
  | cons e D =>
    rw [hD] at heq
    obtain rfl : b = e := (cons.inj heq).1
    have := head?_dropWhile_not blank r
    rw [hD] at this
    exact Bool.false_ne_true (this.symm.trans hb)

theorem not_good_of_blanks {max : ℕ} {v l r : Text} {c : UInt8} (h10 : 10 ∉ r)
    (hroom : v.length + 4 ≤ max)
    (hne : r = c :: r.dropWhile blank → ¬ v.length + r.length + 2 ≤ 2 * max)
    (hdrop : l.dropWhile blank = r.dropWhile blank) (more : Text) (ls : List Text) (last : Text) :
    ¬ Good (loop (2 * max) v false true (r ++ 10 :: more)) (some (v ++ [c])) (l :: ls) last := by
  have hraw : raw (some (v ++ [c])) l ++ [10] = v ++ c :: (r.dropWhile blank ++ [10]) := by
    rw [raw, hdrop, append_assoc, append_assoc]
    rfl
  rcases lt_or_ge (2 * max) (v.length + r.length + 2) with hlong | hfits
  · rw [loop_full h10 (by omega) (by omega)]
    generalize hk : 2 * max - v.length - 1 = k
    rw [stored, if_neg Bool.false_ne_true]
    obtain ⟨k, rfl⟩ : ∃ k', k = k' + 3 := ⟨k - 3, by omega⟩
    obtain ⟨a, b, d, r, rfl⟩ : ∃ a b d r', r = a :: b :: d :: r' := by
      match r, hlong with
      | a :: b :: d :: r', _ => exact ⟨a, b, d, r', rfl⟩
      | [], h => simp at h; omega
      | [a], h => simp at h; omega
      | [a, b], h => simp at h; omega
    have hprefix :
        (v ++ a :: b :: d :: r.take k).dropLast = v ++ a :: b :: (d :: r.take k).dropLast := by
      rw [dropLast_append_of_ne_nil (cons_ne_nil _ _)]
      rfl
    rw [show (a :: b :: d :: r).take (k + 3) = a :: b :: d :: r.take k from rfl,
      show (a :: b :: d :: r).drop (k + 3) = r.drop k from rfl,
      if_neg fun h => by simp at h, hprefix]
    simp only [length_cons] at hlong
    have hlen : (v ++ a :: b :: (d :: r.take k).dropLast).length = v.length + 2 + k := by
      rw [length_append, length_cons, length_cons, length_dropLast, length_cons,
        length_take_of_le (by omega)]
      omega
    obtain hfault | ⟨t, _, hlines, hpre, ht, hb⟩ := long_cases (2 * (2 * max))
      (v ++ a :: b :: (d :: r.take k).dropLast) (r.drop k) more true
        (fun h => h10 (by simp [mem_of_mem_drop h]))
      (by omega)
    · exact not_good_of_fault hfault
    obtain rfl := hb rfl
    refine not_good hlines fun heq => ?_
    -- the first two bytes behind `v` have been kept
    rw [hraw] at heq
    rw [heq, prefix_append_right_inj, cons_prefix_cons] at hpre
    obtain ⟨-, hpre⟩ := hpre
    rw [heq, hlen, length_append, length_cons, length_append, length_singleton, length_drop] at ht
    by_cases ha : blank a
    · rw [dropWhile_cons_of_pos ha] at hpre ht
      by_cases hb : blank b
      · exact not_blank_head hb _ _ hpre
      · rw [dropWhile_cons_of_neg hb] at ht
        simp only [length_cons] at ht
        omega
    · rw [dropWhile_cons_of_neg ha] at ht
      simp only [length_cons] at ht
      omega
  · by_cases hm : Moved (v ++ stored false r)
    · exact not_good_of_fault (congrArg Run.fault (loop_moved h10 hfits hm more))
    rw [loop_fits h10 hfits hm]
    refine not_good rfl fun heq => ?_
    rw [hraw, stored, if_neg Bool.false_ne_true, append_assoc] at heq
    have hcancel := append_cancel_left heq
    rw [← cons_append] at hcancel
    exact hne (append_cancel_right hcancel) hfits

theorem dropWhile_of_take {l : Text} {k : ℕ} (h : (l.take k).dropWhile blank = []) :
    l.dropWhile blank = (l.drop k).dropWhile blank := by
  have happend : (l.take k ++ l.drop k).dropWhile blank = _ := dropWhile_append
  rwa [take_append_drop, h] at happend

theorem stored_of_take {l : Text} {k : ℕ} (b : Bool) (h : stored b (l.take k) ≠ []) :
    stored b l = stored b (l.take k) ++ l.drop k := by
  cases b with
  | false => exact (take_append_drop k l).symm
  | true =>
    have happend : (l.take k ++ l.drop k).dropWhile blank = _ := dropWhile_append
    rw [take_append_drop, if_neg (by rwa [List.isEmpty_iff])] at happend
    exact happend

theorem not_good_of_long {max : ℕ} {l : Text} (h10 : 10 ∉ l) (hroom : (u.getD []).length + 3 ≤ max)
    (hfits : ¬ Fits max u l) (hlucky : ¬ Lucky max u l) (more : Text) (ls : List Text)
    (last : Text) :
    ¬ Good (loop max (u.getD []) u.isSome false (l ++ 10 :: more)) u (l :: ls) last := by
  unfold Fits at hfits
  have h10' (k : ℕ) : 10 ∉ l.drop k := fun h => h10 (List.mem_of_mem_drop h)
  have hleft (k : ℕ) : l.drop k ++ 10 :: more ≠ [] :=
    List.append_ne_nil_of_right_ne_nil _ (List.cons_ne_nil _ _)
  rw [loop_full h10 (by omega) (by omega)]
  dsimp only
  generalize hk : max - (u.getD []).length - 1 = k
  -- what is stored of the line until the buffer is full
  have htake : (l.take k).length = k := List.length_take_of_le (by omega)
  have hle := length_stored_le u.isSome (l.take k)
  by_cases hsome : stored u.isSome (l.take k) = []
  · cases u with
    | none =>
      have : (l.take k).length = 0 := congrArg List.length hsome
      omega
    | some pre =>
      rw [getD_some] at *
      rw [isSome_some] at hsome
      rw [isSome_some, hsome, List.append_nil]
      rcases List.eq_nil_or_concat pre with rfl | ⟨v, c, hv⟩
      · rw [if_pos ⟨rfl, hleft k⟩]
        exact fun h => by cases h.1
      · rw [List.concat_eq_append] at hv
        subst hv
        rw [if_neg fun h => by simp at h, List.dropLast_concat]
        rw [List.length_append, List.length_singleton] at hroom hfits hk
        have hblank : ∀ b ∈ l.take k, blank b := List.dropWhile_eq_nil_iff.1 hsome
        have hkv : k = max - v.length - 2 := by omega
        have hdrop := dropWhile_of_take hsome
        refine not_good_of_blanks (h10' k) (by omega)
          (fun heq hlen => hlucky ⟨v, c, rfl, ?_, ?_, ?_⟩) hdrop more ls last
        · rwa [← hkv]
        · rw [← hkv, hdrop]
          exact heq
        · rw [hdrop, ← heq]
          exact hlen
  · have hpos := List.length_pos_of_ne_nil hsome
    rw [if_neg fun h => hsome (List.append_eq_nil_iff.1 h.1).2]
    obtain hfault | ⟨t, b, hlines, -, ht, hb⟩ := long_cases (2 * max)
      (u.getD [] ++ stored u.isSome (l.take k)).dropLast (l.drop k) more true (h10' k)
      (by rw [List.length_dropLast, List.length_append]; omega)
    · exact not_good_of_fault hfault
    obtain rfl := hb rfl
    refine not_good hlines fun heq => ?_
    have hlen := congrArg List.length heq
    rw [raw_eq, stored_of_take _ hsome, List.length_append, List.length_append, List.length_append,
      List.length_singleton] at hlen
    rw [List.length_dropLast, List.length_append] at ht
    omega

/-- **The lines that are delivered**, from a line on. -/
theorem good_iff (max : ℕ) (u : Option Text) (ls : List Text) (last : Text) (hls : ∀ l ∈ ls, 10 ∉ l)
    (hlast : 10 ∉ last) (hroom : (u.getD []).length + 3 ≤ max) :
    Good (loop max (u.getD []) u.isSome false (join 10 ls last)) u ls last ↔
    Reads max u ls last := by
  induction ls generalizing max u with
  | nil =>
    obtain ⟨hlines, hcalls, hfault⟩ := loop_end max u last hlast (by omega)
    rw [join_nil, Good, hlines, hcalls, Reads, Ends, ← hfault, Bool.not_eq_true, and_comm]
    refine and_congr ?_ Iff.rfl
    rw [and_iff_left (fun i t hi => by cases hi)]
    exact eq_comm
  | cons l ls ih =>
    have hl : 10 ∉ l := hls l mem_cons_self
    have hls' : ∀ l ∈ ls, 10 ∉ l := fun l' hl' => hls l' (mem_cons_of_mem l hl')
    have hraw : (raw u l).length ≤ (u.getD []).length + l.length := by
      have := length_stored_le u.isSome l
      rw [raw_eq, length_append]
      omega
    have hnext (max' : ℕ) (hmax : 3 ≤ max') (hle : (raw u l).length + 2 ≤ max') :
        ((logical (raw u l)).2.getD []).length + 3 ≤ max' := by
      cases hq : (logical (raw u l)).2 with
      | none =>
        rw [getD_none, length_nil]
        exact hmax
      | some q =>
        have := length_logical hq
        rw [getD_some]
        omega
    rw [join_cons, Reads]
    by_cases hlucky : Lucky max u l
    · obtain ⟨hfits, v, r, h10, hlen, hv, hloop⟩ := hlucky.loop_eq hl hroom (join 10 ls last)
      rw [or_iff_right fun h => hfits h.1, and_iff_right hlucky, hloop]
      refine (good_newline h10 hlen hv _ ls last).trans
        (and_congr_right fun _ => ih (2 * max) _ hls' (hnext _ ?_ ?_))
      · omega
      · rw [← hv, stored, if_neg Bool.false_ne_true, length_append]
        omega
    · by_cases hfits : Fits max u l
      · rw [or_iff_left fun h => hlucky h.1, and_iff_right hfits]
        unfold Fits at hfits
        exact (good_newline hl hfits (raw_eq u l).symm _ ls last).trans
          (and_congr_right fun _ => ih max _ hls' (hnext _ (by omega) (by omega)))
      · rw [iff_false_left (not_good_of_long hl hroom hfits hlucky _ ls last)]
        rintro ⟨-, h | h⟩
        · exact hfits h.1
        · exact hlucky h.1

/-- **The configuration files** of which `cfline` gets each line as it is. -/
theorem delivers_iff (file : Text) :
    Delivers file ↔ Reads lineMax none (cut 10 [] file).1 (cut 10 [] file).2 := by
  obtain ⟨hls, hlast⟩ := not_mem_cut 10 not_mem_nil file
  rw [← good_iff lineMax none _ _ hls hlast (by decide), join_cut]
  rfl

/-- `*.* /m`, without a newline, is not sent. -/
theorem not_delivers_last :
    (init [42, 46, 42, 32, 47, 109]).calls = [] ∧ ¬ Delivers [42, 46, 42, 32, 47, 109] := by
  have hcalls : (init [42, 46, 42, 32, 47, 109]).calls = [] :=
    (loop_end lineMax none [42, 46, 42, 32, 47, 109] (by decide) (by decide)).2.1
  refine ⟨hcalls, ?_⟩
  rintro ⟨-, hlines, -⟩
  rw [hcalls] at hlines
  exact absurd hlines (by decide)

end Inetutils.Syslogd.Init
