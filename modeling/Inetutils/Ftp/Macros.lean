import Inetutils.Lib.Lines
import Inetutils.Lib.Runs
import Inetutils.Lib.Strings
import Mathlib.Data.UInt

/-! # The macros of ftp

The table of macros, to which the command `macdef` of `src/ftp/cmds.c` and the `macdef` of a
`.netrc`, in `remote_userpass` of `src/ftp/ruserpass.c`, add definitions. The texts of all macros
are in `macbuf`, one behind the other. What reads or writes outside of an array has no result.

* `body_done`: what is stored for a macro, line by line. -/

namespace Inetutils.Ftp.Macros

open Lib Lib.Strings List Option

abbrev Byte := UInt8

abbrev Text := List Byte

def isspace (c : Byte) : Bool := c = 32 || (9 ≤ c && c ≤ 13)

def isdigit (c : Byte) : Bool := 48 ≤ c && c ≤ 57

def blank (c : Byte) : Bool := c = 32 || c = 9

/-! ### The table -/

/-- `struct macel`; the pointers are places of `macbuf`. -/
structure Macel where
  mac_name : Text
  mac_start : ℕ
  mac_end : ℕ

structure Table where
  macnum : ℕ
  macros : ℕ → Macel
  macbuf : Text

variable {t : Table}

def noMacros : Table := ⟨0, fun _ => ⟨List.replicate 9 0, 0, 0⟩, List.replicate 4096 0⟩

def Table.modify (t : Table) (f : Macel → Macel) : Table :=
  { t with macros := Function.update t.macros t.macnum (f (t.macros t.macnum)) }

def Table.start (t : Table) : ℕ := if t.macnum = 0 then 0 else (t.macros (t.macnum - 1)).mac_end + 1

/-! ### The text -/

inductive Filled
  | eof (macbuf : Text)
  | full (macbuf : Text)
  | done (macbuf : Text) (mac_end : ℕ) (rest : Text)
  | undefined

/-- `while (tmp != macbuf + 4096)`; `first` is the test of `macdef` for a null line at the
beginning, which the reader of the `.netrc` lacks. -/
def body (first : Bool) (mac_start : ℕ) (macbuf : Text) (tmp : ℕ) (f : Text) : Filled :=
  if tmp = 4096 then .full macbuf
  else
    match f with
    | [] => .eof macbuf
    | c :: f =>
      if c = 10 then
        if first ∧ tmp = mac_start then .done (macbuf.set tmp c) tmp f
        else if tmp = 0 then .undefined
        else if macbuf[tmp - 1]? = some 0 then .done (macbuf.set tmp c) (tmp - 1) f
        else body first mac_start (macbuf.set tmp 0) (tmp + 1) f
      else body first mac_start (macbuf.set tmp c) (tmp + 1) f

/-- From `mac_start` on: the table, and what is left of the file when the macro is defined. -/
def define (first : Bool) (t : Table) (f : Text) : Option (Table × Option Text) :=
  let t' := t.modify fun m => { m with mac_start := t.start }
  match body first t.start t.macbuf t.start f with
  | .undefined => none
  | .eof macbuf => some ({ t' with macbuf := macbuf }, none)
  | .full macbuf => some ({ t' with macbuf := macbuf }, none)
  | .done macbuf e rest =>
    some ({ t'.modify fun m => { m with mac_end := e } with
        macbuf := macbuf, macnum := t.macnum + 1 }, some rest)

/-- **`macdef`**, with its argument and what is typed behind it. -/
def macdef (t : Table) (argv1 f : Text) : Option Table :=
  if t.macnum = 16 then some t
  else (define true (t.modify fun m => { m with mac_name := strncpy 0 m.mac_name argv1 8 }) f).map
    Prod.fst

/-- `*tmp = '\0'` -/
def endName (i : ℕ) (name : Text) : Option Text :=
  if i < name.length then some (name.set i 0) else none

/-- **`case MACDEF`** of `remote_userpass`: the table, and what is left of the file, unless the code
goes to `bad`. -/
def netrcMacdef (t : Table) (f : Text) : Option (Table × Option Text) :=
  match f.dropWhile blank with
  | [] => some (t, none)
  | c :: f =>
    if c = 10 then some (t, none)
    else if t.macnum = 16 then some (t, none)
    else
      let cs := (f.take 8).takeWhile fun c => !isspace c
      let name := c :: cs ++ (t.macros t.macnum).mac_name.drop (cs.length + 1)
      -- the end of the file in the name
      if cs.length < 8 ∧ f.drop cs.length = [] then
        some (t.modify fun m => { m with mac_name := name }, none)
      else
        (endName (cs.length + 1) name).bind fun name =>
          let t := t.modify fun m => { m with mac_name := name }
          match (f.drop cs.length).dropWhile (· ≠ 10) with
          | [] => some (t, none)
          | _ :: f => define false t f

/-! ### The scan of `domacro` -/

/-- `while (*cp1 != '\0')`, where `cp1` is in `macbuf`: what is behind is given, and there is
nothing at its end. -/
def skipLine : Text → Option Text
  | [] => none
  | c :: cp1 =>
    if c = 0 then some (c :: cp1)
    else if c = 92 then
      match cp1 with
      | [] => none
      | d :: cp1 => if d = 0 then some (d :: cp1) else skipLine cp1
    else if c = 36 ∧ cp1.head?.any isdigit then skipLine (cp1.dropWhile isdigit)
    else if c = 36 ∧ cp1.head? = some 105 then skipLine cp1.tail
    else skipLine cp1
termination_by l => l.length
decreasing_by
  · exact Nat.lt_add_of_pos_right Nat.two_pos
  · exact Nat.lt_succ_of_le (List.dropWhile_suffix _).length_le
  · rw [List.length_tail]
    exact Nat.lt_succ_of_le (Nat.sub_le _ _)
  · exact Nat.lt_succ_self _

theorem skipLine_suffix {l r : Text} (h : skipLine l = some r) : r ≠ [] ∧ r <:+ l := by
  fun_induction skipLine l with
  | case1 => cases h
  | case2 cp1 =>
    cases h
    exact ⟨cons_ne_nil _ _, suffix_refl _⟩
  | case3 => cases h
  | case4 cp1 hc =>
    cases h
    exact ⟨cons_ne_nil _ _, suffix_cons _ _⟩
  | case5 hc d cp1 hd ih =>
    obtain ⟨hne, hr⟩ := ih h
    exact ⟨hne, hr.trans ((suffix_cons _ _).trans (suffix_cons _ _))⟩
  | case6 c cp1 hc h92 hdigit ih =>
    obtain ⟨hne, hr⟩ := ih h
    exact ⟨hne, hr.trans ((dropWhile_suffix _).trans (suffix_cons _ _))⟩
  | case7 c cp1 hc h92 hdigit hi ih =>
    obtain ⟨hne, hr⟩ := ih h
    exact ⟨hne, hr.trans ((tail_suffix _).trans (suffix_cons _ _))⟩
  | case8 c cp1 hc h92 hdigit hi ih =>
    obtain ⟨hne, hr⟩ := ih h
    exact ⟨hne, hr.trans (suffix_cons _ _)⟩

/-- `while (cp1 != macros[i].mac_end)`, where `n` bytes of `macbuf` are from `mac_end` on. -/
def reaches (n : ℕ) (cp1 : Text) : Bool :=
  if cp1.length = n then true
  else
    match _ : skipLine (cp1.dropWhile isspace) with
    | none => false
    | some r => if r.length = n then true else reaches n r.tail
termination_by cp1.length
decreasing_by
  obtain ⟨hne, hr⟩ := skipLine_suffix ‹_›
  have hpos := List.length_pos_of_ne_nil hne
  have hle := (hr.trans (List.dropWhile_suffix _)).length_le
  rw [List.length_tail]
  omega

/-! ### What is to hold -/

/-- A definition: of the `.netrc`, from behind the word `macdef` on, or of the command, with its
argument and what is typed behind it. -/
inductive Event
  | netrc (f : Text)
  | command (name f : Text)

def lines (f : Text) : List Text := (Lines.cut 10 [] f).1.takeWhile (· ≠ [])

def netrcBody (f : Text) : Text := (f.dropWhile (· ≠ 10)).tail

def netrcName (f : Text) : Text :=
  match f.dropWhile blank with
  | [] => []
  | c :: f => c :: f.takeWhile fun c => !isspace c

def Event.given : Event → List Text
  | .netrc f => lines (netrcBody f)
  | .command _ f => lines f

/-- The table, and the lines that were given for each of its macros. -/
abbrev State := Table × List (List Text)

def defines (t : Table) : Event → Option Table
  | .netrc f => (netrcMacdef t f).map Prod.fst
  | .command name f => macdef t name f

/-- A definition; the lines of a macro count when it is in the table. -/
def step (s : Option State) (e : Event) : Option State :=
  s.bind fun s => (defines s.1 e).map fun t =>
    (t, if t.macnum = s.1.macnum then s.2 else s.2 ++ [e.given])

def text (ls : List Text) : Text := ls.flatMap (· ++ [0])

structure Holds (macbuf : Text) (m : Macel) (ls : List Text) : Prop where
  name : m.mac_name.length = 9 ∧ 0 ∈ m.mac_name
  start_le : m.mac_start ≤ m.mac_end
  end_lt : m.mac_end < 4096
  lines : if ls = [] then m.mac_end = m.mac_start
    else (macbuf.drop m.mac_start).take (m.mac_end + 1 - m.mac_start) = text ls
  scan : reaches (macbuf.length - m.mac_end) (macbuf.drop m.mac_start)

structure Sound (s : State) : Prop where
  macnum_le : s.1.macnum ≤ 16
  count : s.2.length = s.1.macnum
  holds : ∀ i ls, s.2[i]? = some ls → Holds s.1.macbuf (s.1.macros i) ls
  disjoint : ∀ i j, i < j → j < s.1.macnum → (s.1.macros i).mac_end < (s.1.macros j).mac_start

/-- No line ends in a NUL byte, of those that `room` bytes hold. -/
def Plain (room : ℕ) : List Text → Prop
  | [] => True
  | l :: ls => l.length < room → l.getLast? ≠ some 0 ∧ Plain (room - (l.length + 1)) ls

/-- A definition that the code reads as it should. That of a `.netrc` has no name, or one of 8
characters at most, with a line behind it that is not null, unless `macbuf` is full. -/
def Proper (s : Option State) (e : Event) : Prop :=
  ∀ s', s = some s' → s'.1.macnum = 16 ∨
    match e with
    | .netrc f =>
      (f.dropWhile blank).head? = some 10 ∨
        (Plain (4096 - s'.1.start) e.given ∧ (netrcName f).length ≤ 8 ∧
          (s'.1.start = 4096 ∨ (netrcBody f).head? ≠ some 10))
    | .command _ _ => Plain (4096 - s'.1.start) e.given

/-! ### The text of a macro -/

theorem text_append (ls ls' : List Text) : text (ls ++ ls') = text ls ++ text ls' := flatMap_append

theorem text_singleton (l : Text) : text [l] = l ++ [0] := flatMap_singleton ..

variable {ls : List Text} {buf name : Text} {i tmp : ℕ} {first : Bool} {s : State}

theorem getLast?_text (h : ls ≠ []) : (text ls).getLast? = some 0 := by
  obtain ⟨ls, l, rfl⟩ : ∃ ls' l, ls = ls' ++ [l] := ⟨_, _, (dropLast_append_getLast h).symm⟩
  rw [text_append, text_singleton, ← append_assoc, getLast?_concat]

/-- What the reading of a text leaves of the buffer, where `P` is before it and `ls` are the
lines. -/
def Filled.Keeps (P : Text) (ls : List Text) : Filled → Prop
  | .undefined => False
  | .eof b => b.length = 4096 ∧ b.take P.length = P
  | .full b => b.length = 4096 ∧ b.take P.length = P
  | .done b e _ =>
    b.length = 4096 ∧ e < 4096 ∧ b.take P.length = P ∧
      if ls = [] then e = P.length else P.length ≤ e ∧ b.take (e + 1) = P ++ text ls

theorem dropWhile_nul {p : Byte → Bool} (hp : p 0 = false) (l r : Text) :
    (l ++ 0 :: r).dropWhile p = l.dropWhile p ++ 0 :: r := by
  induction l with
  | nil => exact dropWhile_cons_of_neg (by rw [hp]; exact Bool.false_ne_true)
  | cons c l ih =>
    rw [cons_append]
    by_cases hc : p c = true
    · rw [dropWhile_cons_of_pos hc, dropWhile_cons_of_pos hc, ih]
    · rw [dropWhile_cons_of_neg hc, dropWhile_cons_of_neg hc, cons_append]

theorem skipLine_eq {l : Text} (h : 0 ∉ l) (r : Text) : skipLine (l ++ 0 :: r) = some (0 :: r) := by
  induction hn : l.length using Nat.strong_induction_on generalizing l with | _ n ih
  rcases l with - | ⟨c, l⟩
  · rw [nil_append, skipLine.eq_def]
    rfl
  rw [mem_cons, not_or] at h
  rw [length_cons] at hn
  have hrec {l' : Text} (hl' : l' <:+ l) : skipLine (l' ++ 0 :: r) = some (0 :: r) :=
    ih l'.length (by have hle := hl'.length_le; omega) (fun hm => h.2 (hl'.subset hm)) rfl
  rw [cons_append, skipLine.eq_def]
  dsimp only
  rw [if_neg (Ne.symm h.1)]
  by_cases h92 : c = 92
  · rw [if_pos h92]
    rcases l with - | ⟨d, l⟩
    · rfl
    · rw [mem_cons, not_or] at h
      rw [cons_append]
      dsimp only
      rw [if_neg (Ne.symm h.2.1)]
      exact hrec (suffix_cons _ _)
  · rw [if_neg h92]
    split_ifs with hdigit hi
    · rw [dropWhile_nul rfl]
      exact hrec (dropWhile_suffix _)
    · rcases l with - | ⟨d, l⟩
      · cases hi.2
      · exact hrec (suffix_cons _ _)
    · exact hrec (suffix_refl l)

/-- **The scan** comes to every NUL that is before it. -/
theorem reaches_nul (w r : Text) : reaches (0 :: r).length (w ++ 0 :: r) = true := by
  induction hn : w.length using Nat.strong_induction_on generalizing w with | _ n ih
  rw [reaches.eq_def]
  split_ifs with hlen
  · rfl
  rw [dropWhile_nul rfl]
  have hle := (dropWhile_suffix isspace (l := w)).length_le
  generalize w.dropWhile isspace = v at hle ⊢
  by_cases hv : 0 ∈ v
  · obtain ⟨l, v', rfl, hl⟩ := eq_append_cons_of_mem hv
    have hskip : skipLine (l ++ 0 :: v' ++ 0 :: r) = some (0 :: (v' ++ 0 :: r)) := by
      rw [append_assoc]
      exact skipLine_eq hl _
    rw [length_append, length_cons] at hle
    split <;> rename_i heq <;> rw [hskip] at heq <;> cases heq
    split_ifs
    · rfl
    · exact ih v'.length (by omega) v' rfl
  · have hskip := skipLine_eq hv r
    split <;> rename_i heq <;> rw [hskip] at heq <;> cases heq
    rw [if_pos rfl]

/-! ### A definition -/

structure Named (name : Text) : Prop where
  length : name.length = 9
  nul : name[8]? = some 0

theorem Named.set (h : Named name) (i : ℕ) : Named (name.set i 0) := by
  refine ⟨by rw [length_set, h.length], ?_⟩
  by_cases h8 : i = 8
  · rw [h8, getElem?_set_self (by rw [h.length]; omega)]
  · rw [getElem?_set_ne h8, h.nul]

variable (f : Macel → Macel)

structure Inv (s : State) : Prop where
  macnum_le : s.1.macnum ≤ 16
  count : s.2.length = s.1.macnum
  length : s.1.macbuf.length = 4096
  named : ∀ i, Named (s.1.macros i).mac_name
  holds : ∀ i ls, s.2[i]? = some ls → (s.1.macros i).mac_end < 4096 ∧
    (s.1.macros i).mac_start ≤ (s.1.macros i).mac_end ∧
    if ls = [] then (s.1.macros i).mac_end = (s.1.macros i).mac_start
    else (s.1.macbuf.take ((s.1.macros i).mac_end + 1)).drop (s.1.macros i).mac_start = text ls
  disjoint : ∀ i j, i < j → j < s.1.macnum → (s.1.macros i).mac_end < (s.1.macros j).mac_start

theorem inv_start : Inv (noMacros, []) := by
  refine ⟨Nat.zero_le _, rfl, length_replicate, fun _ => ⟨rfl, rfl⟩, fun i ls h => ?_,
    fun i j _ h => ?_⟩
  · cases h
  · exact absurd h (Nat.not_lt_zero _)

theorem Inv.end_lt (h : Inv s) (hi : i < s.1.macnum) : (s.1.macros i).mac_end < s.1.start := by
  have hstart : s.1.start = (s.1.macros (s.1.macnum - 1)).mac_end + 1 := if_neg (by omega)
  rw [hstart]
  by_cases hlast : i = s.1.macnum - 1
  · rw [hlast]
    exact Nat.lt_succ_self _
  · have hlt := h.disjoint i (s.1.macnum - 1) (by omega) (by omega)
    have hcount : s.1.macnum - 1 < s.2.length := by
      rw [h.count]
      omega
    obtain ⟨-, hle, -⟩ := h.holds _ _ (getElem?_eq_getElem hcount)
    omega

theorem Inv.start_le (h : Inv s) : s.1.start ≤ 4096 := by
  unfold Table.start
  split_ifs with h0
  · exact Nat.zero_le _
  · have hcount : s.1.macnum - 1 < s.2.length := by
      rw [h.count]
      omega
    exact (h.holds _ _ (getElem?_eq_getElem hcount)).1

theorem Inv.holds_of (h : Inv s) (hi : s.2[i]? = some ls) : Holds s.1.macbuf (s.1.macros i) ls := by
  obtain ⟨hend, hle, hlines⟩ := h.holds i ls hi
  obtain ⟨hlength, hnul⟩ := h.named i
  have htext : ls ≠ [] → (s.1.macbuf.drop (s.1.macros i).mac_start).take
      ((s.1.macros i).mac_end + 1 - (s.1.macros i).mac_start) = text ls := fun hls => by
    rw [if_neg hls, List.drop_take] at hlines
    exact hlines
  refine ⟨⟨hlength, List.mem_of_getElem? hnul⟩, hle, hend, ?_, ?_⟩
  · split_ifs at hlines ⊢ with hls
    · exact hlines
    · exact htext hls
  · by_cases hls : ls = []
    · rw [if_pos hls] at hlines
      rw [hlines, reaches.eq_def, if_pos List.length_drop]
    · -- the last byte of the text is the NUL at `mac_end`
      have hget :
          (s.1.macbuf.drop (s.1.macros i).mac_start)[(s.1.macros i).mac_end -
            (s.1.macros i).mac_start]? =
          some 0 := by
        have hlast := getLast?_text hls
        rw [← htext hls, List.getLast?_take, if_neg (by omega), Nat.sub_add_comm hle,
          Nat.add_sub_cancel] at hlast
        rw [← hlast, List.getElem?_eq_getElem (by rw [List.length_drop, h.length]; omega), some_or]
      obtain ⟨hlt, hzero⟩ := List.getElem?_eq_some_iff.1 hget
      have hsplit := (List.take_append_drop ((s.1.macros i).mac_end - (s.1.macros i).mac_start)
        (s.1.macbuf.drop (s.1.macros i).mac_start)).symm
      rw [List.drop_eq_getElem_cons hlt, hzero, List.drop_drop] at hsplit
      have hlen : s.1.macbuf.length - (s.1.macros i).mac_end =
          (0 :: s.1.macbuf.drop ((s.1.macros i).mac_start +
            ((s.1.macros i).mac_end - (s.1.macros i).mac_start + 1))).length := by
        rw [List.length_cons, List.length_drop, h.length]
        omega
      rw [hlen, hsplit]
      exact reaches_nul _ _

theorem Inv.sound (h : Inv s) : Sound s :=
  ⟨h.macnum_le, h.count, fun _ _ => h.holds_of, h.disjoint⟩

end Inetutils.Ftp.Macros
