import Inetutils.Lib.Templates
import Inetutils.Telnet.Proto

/-! # `argcv_get`

The splitter of `libinetutils/argcv.c`: it scans the command once to count the words, and once more
to copy them. The scan skips blanks, takes a quote up to the next one of the same sort, and takes
what begins without a quote up to a blank or a double quote; a quote with no other takes the command
to its end, and the byte after it. The spans it finds are those of `split` (`argcvSpans_eq`). -/

namespace Inetutils.Telnetd.Argcv

open Lib.Words Lib.Templates Telnet.Proto List

def isws (c : Byte) : Bool := c == 32 || c == 9

abbrev dquote : Byte := 34
abbrev squote : Byte := 39

/-- `strchr` finds the NUL of any `delim`. -/
def isdelim (delim : List Byte) (c : Byte) : Bool := c == dquote || c == 0 || delim.contains c

def isspace (c : Byte) : Bool := c == 32 || (9 ≤ c && c ≤ 13)

/-- `command[i]`: after the last byte there is a NUL. -/
def char (command : List Byte) (i : ℕ) : Byte := command.getD i 0

/-- Where `while (i < len && p (command[i])) i++` stops, `k` bytes before `len`. -/
def skip (p : Byte → Bool) (command : List Byte) : ℕ → ℕ → ℕ
  | 0, i => i
  | k + 1, i => if p (char command i) then skip p command k (i + 1) else i

/-- What `argcv_scan` sets. -/
structure Scan where
  start : ℕ
  stop : ℕ
  save : ℕ
  deriving DecidableEq

section

variable (len : ℕ) (command delim : List Byte)

def argcvScan (save : ℕ) : Scan :=
  let start := skip isws command (len - save) save
  let c := char command start
  let isquote := c = dquote ∨ c = squote
  -- `while (++i < len && command[i] != command[*start])`
  let match_ := skip (fun d => d ≠ c) command (len - (start + 1)) (start + 1)
  if isquote ∧ match_ < len then ⟨start, match_, match_ + 1⟩
  else
    let i := if isquote then match_ else start
    if isdelim delim (char command i) then ⟨start, i, i + 1⟩
    else
      let j := skip (fun d => !(isws d || isdelim delim d)) command (len - (i + 1)) (i + 1)
      ⟨start, j - 1, j⟩

/-- `*argc = 1; while (argcv_scan (...) < len) (*argc)++`. -/
def countArgs : ℕ → ℕ → ℕ
  | 0, _ => 1
  | n + 1, save =>
    let s := argcvScan len command delim save
    if s.save < len then countArgs n s.save + 1 else 1

/-- The word without its quotes: where it begins in the command, and its length. -/
def unquote (s : Scan) : Span :=
  if char command s.start = dquote ∧ char command s.stop = dquote then
    ⟨s.start + 1, s.stop - 1 + 1 - (s.start + 1)⟩
  else if char command s.start = squote ∧ char command s.stop = squote then
    ⟨s.start + 1, s.stop - 1 + 1 - (s.start + 1)⟩
  else ⟨s.start, s.stop + 1 - s.start⟩

/-- The loop that copies `argc` words. -/
def copyArgs : ℕ → ℕ → List Span
  | 0, _ => []
  | n + 1, save =>
    let s := argcvScan len command delim save
    unquote command s :: copyArgs n s.save

end

/-- `while (len > 0 && isspace (command[len - 1])) len--`. -/
def trimLen (command : List Byte) : ℕ → ℕ
  | 0 => 0
  | len + 1 => if isspace (char command len) then trimLen command len else len + 1

/-- Where in the command the words are that `argcv_get` copies. -/
def argcvSpans (command delim : List Byte) : List Span :=
  let len := trimLen command command.length
  if len < 1 then []
  else copyArgs len command delim (countArgs len command delim len 0) 0

/-- `memcpy` of a word; the NUL of the command, when it is in the span, ends it. -/
def copyWord (command : List Byte) (s : Span) : List Byte := (command.drop s.start).take s.n

/-- The argument vector that `argcv_get` stores. -/
def argcvGet (command delim : List Byte) : List (List Byte) :=
  (argcvSpans command delim).map (copyWord command)

/-! ### The scan as a splitter -/

/-- How `argcv_get` uses the bytes when `delim` is empty. -/
def lexis : Lexis Byte where
  blank := isws
  quote c := c == dquote || c == squote
  cut c := c == dquote
  space := isspace
  space_of_blank {c} h := by
    simp only [isws, isspace, Bool.or_eq_true, beq_iff_eq] at *
    rcases h with rfl | rfl <;> decide
  quote_of_cut {c} h := by simp [h]
  not_space_of_quote {c} h := by
    simp only [Bool.or_eq_true, beq_iff_eq] at h
    rcases h with rfl | rfl <;> decide

theorem char_of_getElem? {command : List Byte} {i : ℕ} {c : Byte} (h : command[i]? = some c) :
    char command i = c := by
  rw [char, getD_eq_getElem?_getD, h, Option.getD_some]

section

variable {command : List Byte} {len : ℕ}

theorem skip_eq (p : Byte → Bool) {i : ℕ} (h : i ≤ len) (hlen : len ≤ command.length) :
    skip p command (len - i) i = i + (((command.take len).drop i).takeWhile p).length := by
  obtain ⟨k, rfl⟩ := Nat.exists_eq_add_of_le h
  rw [Nat.add_sub_cancel_left]
  induction k generalizing i with
  | zero => simp [skip, drop_eq_nil_of_le]
  | succ k ih =>
    have hi : i < command.length := by omega
    have hd : (command.take (i + (k + 1))).drop i =
        char command i :: (command.take (i + 1 + k)).drop (i + 1) := by
      rw [drop_eq_getElem_cons (by rw [length_take]; omega), getElem_take,
        char_of_getElem? (getElem?_eq_getElem hi), Nat.add_right_comm, Nat.add_assoc]
    rw [skip, hd, takeWhile_cons]
    split_ifs with hp
    · rw [ih (by omega) (by omega), length_cons]
      omega
    · rfl

theorem char_add {save : ℕ} {l : List Byte} {j : ℕ} {c : Byte}
    (hl : (command.take len).drop save = l)
    (hj : l[j]? = some c) : char command (save + j) = c := by
  rw [← hl, getElem?_drop, getElem?_take] at hj
  split_ifs at hj
  exact char_of_getElem? hj

end

theorem trimLen_eq (command : List Byte) (n : ℕ) (hn : n ≤ command.length) :
    trimLen command n = (trim lexis (command.take n)).length := by
  induction n with
  | zero => simp [trimLen, trim]
  | succ n ih =>
    have hc : command.take (n + 1) = command.take n ++ [char command n] := by
      rw [take_add_one, getElem?_eq_getElem (by omega),
        char_of_getElem? (getElem?_eq_getElem (by omega))]
      rfl
    rw [trimLen, hc, trim, rdropWhile_concat]
    split_ifs with hs hs' hs'
    · exact ih (by omega)
    · exact absurd hs hs'
    · exact absurd hs' hs
    · rw [length_append, length_take, length_singleton]; omega

section

variable {command : List Byte} (hnul : 0 ∉ command) {len save : ℕ}

/-- Where the scan goes on after a word that begins at `p`. -/
def nextSave (len p : ℕ) (f : Found Byte Byte) : ℕ :=
  match f.word with
  | .opened _ _ => len + 1
  | _ => p + f.gap + f.word.size

variable {l : List Byte} {s : Scan} {f : Found Byte Byte}

theorem skip_of_leads (p : Byte → Bool) {r : List Byte} (hs : save ≤ len)
    (hlen : len ≤ command.length) (hl : (command.take len).drop save = l ++ r) (hp : ∀ c ∈ l, p c)
    (hr : ∀ c ∈ r.head?, ¬ p c) : skip p command (len - save) save = save + l.length := by
  rw [skip_eq p hs hlen, hl, takeWhile_append_of_head hp hr]

theorem drop_add_of_eq {r : List Byte} (hl : (command.take len).drop save = l ++ r) :
    (command.take len).drop (save + l.length) = r := by
  rw [← drop_drop, hl, drop_left]

theorem length_of_drop (hlen : len ≤ command.length) (hl : (command.take len).drop save = l)
    (hs : save ≤ len) : len = save + l.length := by
  rw [← hl, length_drop, length_take]
  omega

theorem lexis_quote_iff {c : Byte} : lexis.quote c ↔ c = dquote ∨ c = squote := by
  simp [lexis]

theorem unquote_of_not_quote (h : ¬ lexis.quote (char command s.start)) :
    unquote command s = ⟨s.start, s.stop + 1 - s.start⟩ := by
  rw [lexis_quote_iff, not_or] at h
  rw [unquote, if_neg (fun he => h.1 he.1), if_neg (fun he => h.2 he.1)]

theorem unquote_of_ne (h : ¬ lexis.quote (char command s.stop)) :
    unquote command s = ⟨s.start, s.stop + 1 - s.start⟩ := by
  rw [lexis_quote_iff, not_or] at h
  rw [unquote, if_neg (fun he => h.1 he.2), if_neg (fun he => h.2 he.2)]

theorem unquote_of_eq {q : Byte} (hq : lexis.quote q) (h : char command s.start = q)
    (h' : char command s.stop = q) :
    unquote command s = ⟨s.start + 1, s.stop - 1 + 1 - (s.start + 1)⟩ := by
  rw [unquote, h, h']
  rcases lexis_quote_iff.mp hq with rfl | rfl
  · rw [if_pos ⟨rfl, rfl⟩]
  · rw [if_neg (by decide), if_pos ⟨rfl, rfl⟩]

/-- **The scan finds the word that the command goes on with.** -/
theorem argcvScan_of_leads (hnul : 0 ∉ command) (hlen : len ≤ command.length) (hs : save ≤ len)
    (hend : ¬ lexis.quote (char command len))
    (h : Leads lexis id ((command.take len).drop save) f) :
    unquote command (argcvScan len command [] save) = f.word.span (save + f.gap) ∧
      (argcvScan len command [] save).save = nextSave len save f := by
  generalize hl : (command.take len).drop save = l at h
  have hn := length_of_drop hlen hl hs
  rcases h with @⟨g, q, w, b, rest, hg, hq, hw, hb⟩ | @⟨g, q, w, hg, hq, hw⟩ |
    @⟨g, a, w, rest, hg, ha, ha', hw, hr⟩
  · obtain rfl : b = q := hb
    have hstart : skip isws command (len - save) save = save + g.length :=
      skip_of_leads isws hs hlen hl hg (by rintro c ⟨⟩; exact lexis.not_blank_of_quote hq)
    have hc : char command (save + g.length) = b := char_add hl (by simp)
    have hl' : (command.take len).drop (save + g.length + 1) = w ++ b :: rest := by
      have := drop_add_of_eq (l := g ++ [b]) (r := w ++ b :: rest) (by simpa using hl)
      simpa [add_assoc] using this
    simp only [length_append, length_cons] at hn
    have hmatch :
        skip (fun d => d ≠ b) command (len - (save + g.length + 1)) (save + g.length + 1) =
        save + g.length + 1 + w.length :=
      skip_of_leads _ (by omega) hlen hl' (fun c hc => by simpa using hw c hc)
        (by rintro c ⟨⟩; simp)
    have hc' : char command (save + g.length + 1 + w.length) = b := char_add hl' (by simp)
    have hscan : argcvScan len command [] save =
        ⟨save + g.length, save + g.length + 1 + w.length, save + g.length + 1 + w.length + 1⟩ := by
      simp only [argcvScan, hstart, hc, hmatch]
      rw [if_pos ⟨lexis_quote_iff.mp hq, by omega⟩]
    rw [hscan, unquote_of_eq hq hc hc']
    constructor
    · simp only [Word.span, Span.mk.injEq, true_and]; omega
    · simp only [nextSave, Word.size]; omega
  · have hstart : skip isws command (len - save) save = save + g.length :=
      skip_of_leads isws hs hlen hl hg (by rintro c ⟨⟩; exact lexis.not_blank_of_quote hq)
    have hc : char command (save + g.length) = q := char_add hl (by simp)
    have hl' : (command.take len).drop (save + g.length + 1) = w ++ [] := by
      have := drop_add_of_eq (l := g ++ [q]) (r := w) (by simpa using hl)
      simpa [add_assoc] using this
    simp only [length_append, length_cons] at hn
    have hmatch :
        skip (fun d => d ≠ q) command (len - (save + g.length + 1)) (save + g.length + 1) =
        len := by
      rw [skip_of_leads _ (by omega) hlen hl' (fun c hc => by simpa using hw c hc) (by simp)]
      omega
    have hzero : len - (len + 1) = 0 := by omega
    have hscan : argcvScan len command [] save = ⟨save + g.length, len, len + 1⟩ := by
      simp only [argcvScan, hstart, hc, hmatch]
      have hqq : q = dquote ∨ q = squote := lexis_quote_iff.mp hq
      rw [if_neg (by simp), if_pos hqq, hzero, skip]
      split_ifs <;> rfl
    rw [hscan, unquote_of_ne hend]
    constructor
    · simp only [Word.span, Span.mk.injEq, true_and]; omega
    · rfl
  · have hstart : skip isws command (len - save) save = save + g.length :=
      skip_of_leads isws hs hlen hl hg (by rintro c ⟨⟩; exact ha)
    have hc : char command (save + g.length) = a := char_add hl (by simp)
    have hl' : (command.take len).drop (save + g.length + 1) = w ++ rest := by
      have := drop_add_of_eq (l := g ++ [a]) (r := w ++ rest) (by simpa using hl)
      simpa [add_assoc] using this
    have hnz : ∀ c ∈ g ++ a :: (w ++ rest), c ≠ 0 := by
      rintro c hc rfl
      rw [← hl] at hc
      exact hnul (mem_of_mem_take (mem_of_mem_drop hc))
    simp only [length_append, length_cons] at hn
    have hskip : skip (fun d => !(isws d || isdelim [] d)) command (len - (save + g.length + 1))
        (save + g.length + 1) = save + g.length + 1 + w.length := by
      refine skip_of_leads _ (by omega) hlen hl' (fun c hc => ?_) fun c hc => ?_
      · have h0 := hnz c (by simp [hc])
        have := hw c hc
        simp only [Lexis.inner, lexis, id_eq] at this
        simpa [isdelim, h0] using this
      · have := hr c hc
        simp only [Lexis.inner, lexis, id_eq] at this
        simp only [isdelim]
        intro h
        simp_all
    have hna : ¬ isdelim [] a := by
      have : ¬ (a = dquote ∨ a = squote) := fun h => ha' (lexis_quote_iff.mpr h)
      simp only [isdelim]
      simp_all
    have hscan : argcvScan len command [] save =
        ⟨save + g.length, save + g.length + 1 + w.length - 1, save + g.length + 1 + w.length⟩ := by
      simp only [argcvScan, hstart, hc]
      have hnq : ¬ (a = dquote ∨ a = squote) := fun h => ha' (lexis_quote_iff.mpr h)
      rw [if_neg (fun h => hnq h.1), if_neg hnq, hc, if_neg hna, hskip]
    rw [hscan, unquote_of_not_quote (by rw [hc]; exact ha')]
    constructor
    · simp only [Word.span, Span.mk.injEq, true_and, length_cons]; omega
    · simp only [nextSave, Word.size, length_cons]; omega

theorem nextSave_of_leads (hlen : len ≤ command.length) (hs : save ≤ len)
    (h : Leads lexis id ((command.take len).drop save) f) :
    (f.rest = [] ∧ len ≤ nextSave len save f) ∨
      (f.rest ≠ [] ∧ nextSave len save f < len ∧ save < nextSave len save f ∧
        nextSave len save f = save + f.gap + f.word.size ∧
        (command.take len).drop (nextSave len save f) = f.rest) := by
  have hn := length_of_drop hlen rfl hs
  rw [h.length_eq] at hn
  have hsize := h.size_pos
  have hd := h.drop_eq
  rw [drop_drop, ← add_assoc] at hd
  rcases eq_or_ne f.rest [] with hr | hr
  · left
    rw [hr, length_nil] at hn
    refine ⟨hr, ?_⟩
    unfold nextSave
    split <;> omega
  · right
    have hlt := length_pos_iff.mpr hr
    have hns : nextSave len save f = save + f.gap + f.word.size := by
      rcases f with ⟨gap, _ | _ | _, rest⟩
      · rfl
      · generalize (command.take len).drop save = l at h
        cases h
        exact absurd rfl hr
      · rfl
    rw [hns]
    exact ⟨hr, by omega, by omega, rfl, hd⟩

theorem copyArgs_eq (hnul : 0 ∉ command) (hlen : len ≤ command.length) (hs : save < len)
    (hlast : ∀ c ∈ (command.take len).getLast?, ¬ lexis.space c)
    (hend : ¬ lexis.quote (char command len)) {n : ℕ} (hn : len - save ≤ n) :
    copyArgs len command [] (countArgs len command [] n save) save =
      (split lexis id save ((command.take len).drop save)).map Prod.fst := by
  induction n generalizing save with
  | zero => omega
  | succ n ih =>
    obtain ⟨f, hf⟩ : ∃ f, firstWord lexis id ((command.take len).drop save) = some f := by
      rw [← Option.ne_none_iff_exists', Ne, firstWord_eq_none_iff]
      intro hb
      rcases hc : (command.take len).getLast? with _ | c
      · have := congrArg List.length (getLast?_eq_none_iff.mp hc)
        simp only [length_take, length_nil] at this
        omega
      · have hd : ((command.take len).drop save).getLast? = some c := by
          rw [getLast?_drop, if_neg (by rw [length_take]; omega), hc]
        exact hlast c hc (lexis.space_of_blank (hb c (mem_of_getLast? hd)))
    have hL := leads_of_firstWord hf
    obtain ⟨hspan, hsave⟩ := argcvScan_of_leads hnul hlen (by omega) hend hL
    rw [split_of_leads hL, countArgs, hsave]
    rcases nextSave_of_leads hlen (by omega) hL with ⟨hr, hle⟩ | ⟨-, hlt, hgt, heq, hd⟩
    · simp only [if_neg (Nat.not_lt.mpr hle), copyArgs, hspan, hr, split_nil, map_cons,
        map_nil]
    · simp only [if_pos hlt, copyArgs, hspan, hsave, map_cons]
      rw [ih hlt (by omega), hd, heq]

omit hnul

theorem length_trim (command : List Byte) :
    trimLen command command.length = (trim lexis command).length := by
  rw [trimLen_eq command _ le_rfl, take_length]

theorem take_length_trim (command : List Byte) :
    command.take (trim lexis command).length = trim lexis command :=
  (prefix_iff_eq_take.mp (trim_prefix_self command)).symm

theorem last_trim_not_space {command : List Byte} (h : trim lexis command ≠ []) :
    ∀ c ∈ (trim lexis command).getLast?, ¬ lexis.space c := by
  intro c hc
  rw [getLast?_eq_some_getLast h, Option.mem_def, Option.some.injEq] at hc
  rw [← hc]
  exact rdropWhile_last_not _ _ h

theorem char_trim_not_quote (command : List Byte) :
    ¬ lexis.quote (char command (trim lexis command).length) := by
  have ht := rdropWhile_append_rtakeWhile (p := lexis.space) (l := command)
  rcases hc : command[(trim lexis command).length]? with _ | c
  · rw [char, getD_eq_getElem?_getD, hc]
    decide
  · rw [char_of_getElem? hc]
    nth_rewrite 1 [← ht] at hc
    rw [trim, getElem?_append_right le_rfl] at hc
    intro hq
    exact lexis.not_space_of_quote hq (mem_rtakeWhile_imp (mem_of_getElem? hc))

include hnul in
/-- **The words that `argcv_get` copies are those of `split`.** -/
theorem argcvSpans_eq :
    argcvSpans command [] = (split lexis id 0 (trim lexis command)).map Prod.fst := by
  rw [argcvSpans, length_trim]
  rcases Nat.eq_zero_or_pos (trim lexis command).length with h0 | hpos
  · rw [if_pos (by omega), length_eq_zero_iff.mp h0, split_nil, map_nil]
  · have hlast := last_trim_not_space (length_pos_iff.mp hpos)
    rw [if_neg (by omega), copyArgs_eq hnul (length_trim_le _) hpos (by rwa [take_length_trim])
      (char_trim_not_quote command) (by omega), take_length_trim, drop_zero]

end

end Inetutils.Telnetd.Argcv
