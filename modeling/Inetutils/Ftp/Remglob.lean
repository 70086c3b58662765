import Inetutils.Lib.Cursors
import Inetutils.Lib.Pieces
import Inetutils.Lib.Strings
import Mathlib.Data.UInt

/-! # The remote files of `mget` and `mdelete`

`remglob` of `src/ftp/cmds.c` gives one name at each call. With globbing on these are the lines of a
temporary file to which `recvrequest` writes what NLST gives for each argument; with globbing off
they are to be the arguments. Two static variables hold what is left. What is not defined has no
result. -/

namespace Inetutils.Ftp.Remglob

open Lib Lib.Cursors Lib.Pieces Lib.Strings List

abbrev Byte := UInt8

abbrev Text := List Byte

structure Arg where
  name : Text
  listing : Text
  deriving DecidableEq

structure Settings where
  doglob : Bool
  runique : Bool

/-- `ftemp`, with what is left of the file, and `args`, as a place of `argv`. -/
structure Statics where
  ftemp : Option Text
  args : Option ℕ
  deriving DecidableEq

/-! ### The list -/

inductive Mode
  | w
  | a

/-- `recvrequest`, and what the temporary file holds then; with `runique` it writes to another
file. -/
def recvrequest (set : Settings) (mode : Mode) (listing file : Text) : Text :=
  if set.runique then file
  else
    match mode with
    | .w => listing
    | .a => file ++ listing

/-- `for (mode = "w"; *++argv != NULL; mode = "a")` -/
def nlst (set : Settings) : Mode → List Arg → Text → Text
  | _, [], file => file
  | mode, arg :: args, file => nlst set .a args (recvrequest set mode arg.listing file)

/-! ### A line -/

abbrev intMax : ℕ := 2147483647

def fgets (n : ℕ) (ftemp : Text) : Text × Text := piece 10 (n - 1) ftemp

inductive Got
  | null
  | line (s ftemp : Text)
  | undefined
  deriving DecidableEq

/-- `for (;;)`; there is nothing before the buffer to be read, and no `int` above `INT_MAX`. -/
def readLoop (buf : Text) (buf_len : ℕ) (ftemp : Text) : Got :=
  match _ : fgets (buf_len - buf.length) ftemp with
  | ([], _) => .null
  | (c :: cs, rest) =>
    match (str 0 (buf ++ c :: cs)).getLast? with
    | none => .undefined
    | some d =>
      if d = 10 then .line (str 0 (buf ++ c :: cs)).dropLast rest
      else if intMax < buf_len + buf_len then .undefined
      else readLoop (str 0 (buf ++ c :: cs)) (buf_len + buf_len) rest
termination_by ftemp.length
decreasing_by
  have happ := piece_append 10 (buf_len - buf.length - 1) ftemp
  rw [fgets] at *
  simp_all only
  rw [← happ, List.length_append, List.length_cons]
  omega

/-! ### A name -/

def strdup (s : Option Text) : Option Text := s

/-- `argv`, with the NULL behind it; the first is the name of the command. -/
def argv (args : List Arg) : List (Option Text) :=
  some [] :: args.map (fun arg => some arg.name) ++ [none]

/-- **`remglob`** -/
def remglob (set : Settings) (args : List Arg) (s : Statics) (mflag : Bool) :
    Option (Option Text × Statics) :=
  if !mflag then
    if !set.doglob then some (none, { s with args := none })
    else some (none, { s with ftemp := none })
  else if !set.doglob then
    let i := s.args.getD 0 + 1
    (argv args)[i]?.bind fun cp =>
      let s := { s with args := if cp = none then none else some i }
      if cp ≠ none then some (none, s) else (strdup cp).map fun t => (some t, s)
  else
    match readLoop [] 100 (s.ftemp.getD (nlst set .w args [])) with
    | .null => some (none, { s with ftemp := none })
    | .line t rest => some (some t, { s with ftemp := some rest })
    | .undefined => none

/-! ### What is to hold -/

/-- The lines of a file, the last one included when it has no newline. -/
def lines (file : Text) : List Text :=
  (Lines.cut 10 [] file).1 ++ if (Lines.cut 10 [] file).2 = [] then []
    else [(Lines.cut 10 [] file).2]

def items (set : Settings) (args : List Arg) : List Text :=
  if set.doglob then lines (args.flatMap Arg.listing) else args.map Arg.name

/-- Nothing has been enumerated, or the last call was one with `mflag` cleared. -/
def Begins (set : Settings) (s : Statics) : Prop :=
  s = ⟨none, none⟩ ∨ ∃ args s', remglob set args s' false = some (none, s)

/-- **The successive results**, for all calls with `mflag` set or cleared. -/
def Enumerates (set : Settings) (args : List Arg) : Prop :=
  ∀ s, Begins set s → Agrees (remglob set args) (items set args) s none

/-- Lines that come back: each ends in a newline, has no NUL, and fits into a buffer the length of
which is an `int`. -/
structure Complete (file : Text) : Prop where
  newline : (Lines.cut 10 [] file).2 = []
  nul : 0 ∉ file
  short : ∀ l ∈ lines file, l.length + 2 ≤ 100 * 2 ^ 24

/-! ### Lines -/

theorem lines_nil : lines [] = [] := rfl

variable {l file buf : Text} {len : ℕ}

theorem lines_cons (h : 10 ∉ l) (rest : Text) : lines (l ++ 10 :: rest) = l :: lines rest := by
  rw [lines, Lines.cut_part 10 h, Lines.cut_delim]
  rfl

theorem lines_part (hne : file ≠ []) (h10 : 10 ∉ file) : lines file = [file] := by
  rw [lines, Lines.cut_of_not_mem 10 h10, nil_append, nil_append, if_neg hne]

theorem complete_nil : Complete [] := ⟨rfl, not_mem_nil, fun _ h => absurd h not_mem_nil⟩

theorem complete_cons {rest : Text} (h : 10 ∉ l) :
    Complete (l ++ 10 :: rest) ↔ (0 ∉ l ∧ l.length + 2 ≤ 100 * 2 ^ 24) ∧ Complete rest := by
  have hcut : (Lines.cut 10 [] (l ++ 10 :: rest)).2 = (Lines.cut 10 [] rest).2 := by
    rw [Lines.cut_part 10 h, Lines.cut_delim]
  have hnul : 0 ∉ l ++ 10 :: rest ↔ 0 ∉ l ∧ 0 ∉ rest := by
    rw [mem_append, mem_cons, not_or, not_or]
    exact ⟨fun hn => ⟨hn.1, hn.2.2⟩, fun hn => ⟨hn.1, by decide, hn.2⟩⟩
  constructor
  · rintro ⟨hnewline, hn, hshort⟩
    rw [hcut] at hnewline
    rw [lines_cons h, forall_mem_cons] at hshort
    exact ⟨⟨(hnul.1 hn).1, hshort.1⟩, hnewline, (hnul.1 hn).2, hshort.2⟩
  · rintro ⟨⟨hl, hlen⟩, hnewline, hn, hshort⟩
    refine ⟨hcut.trans hnewline, hnul.2 ⟨hl, hn⟩, ?_⟩
    rw [lines_cons h, forall_mem_cons]
    exact ⟨hlen, hshort⟩

theorem file_cases (file : Text) :
    file = [] ∨ (file ≠ [] ∧ 10 ∉ file) ∨ ∃ l rest, 10 ∉ l ∧ file = l ++ 10 :: rest := by
  by_cases h : 10 ∈ file
  · obtain ⟨l, rest, rfl, hl⟩ := eq_append_cons_of_mem h
    exact .inr (.inr ⟨l, rest, hl, rfl⟩)
  · by_cases hnil : file = []
    · exact .inl hnil
    · exact .inr (.inl ⟨hnil, h⟩)

/-! ### What is read -/

theorem str_eq (h : 0 ∉ l) : str 0 l = l := by
  refine takeWhile_eq_self_iff.2 fun b hb => decide_eq_true ?_
  rintro rfl
  exact h hb

theorem readLoop_eq {chunk init rest : Text} {d : Byte}
    (hget : fgets (len - buf.length) file = (chunk, rest)) (hne : chunk ≠ [])
    (h0 : 0 ∉ buf ++ chunk) (hlast : buf ++ chunk = init ++ [d]) :
    readLoop buf len file =
      if d = 10 then .line init rest
      else if intMax < len + len then .undefined
      else readLoop (init ++ [d]) (len + len) rest := by
  rcases chunk with - | ⟨c, cs⟩
  · exact absurd rfl hne
  · rw [readLoop.eq_def, hget]
    dsimp only
    rw [str_eq h0, hlast, getLast?_concat, dropLast_concat]

theorem readLoop_fits (rest : Text) (hbuf : 0 ∉ buf ++ l) (h10 : 10 ∉ l)
    (hfits : buf.length + l.length + 2 ≤ len) :
    readLoop buf len (l ++ 10 :: rest) = .line (buf ++ l) rest := by
  have hget : fgets (len - buf.length) (l ++ 10 :: rest) = (l ++ [10], rest) :=
    piece_of_delim 10 h10 (by omega) rest
  have hnul : 0 ∉ buf ++ (l ++ [10]) := by
    rw [← append_assoc, mem_append, not_or]
    exact ⟨hbuf, by decide⟩
  rw [readLoop_eq hget (append_ne_nil_of_right_ne_nil _ (cons_ne_nil _ _)) hnul
    (append_assoc ..).symm,
    if_pos rfl]

theorem readLoop_full {p q : Text} (rest : Text) (hbuf : 0 ∉ buf ++ p) (h10 : 10 ∉ buf ++ p)
    (hp : buf.length + p.length + 1 = len) (hne : p ≠ []) :
    readLoop buf len (p ++ (q ++ 10 :: rest)) =
      if intMax < len + len then .undefined
      else readLoop (buf ++ p) (len + len) (q ++ 10 :: rest) := by
  have h10p : 10 ∉ p := fun hm => h10 (mem_append_right _ hm)
  have hpos := length_pos_of_ne_nil hne
  have hget : fgets (len - buf.length) (p ++ (q ++ 10 :: rest)) = (p, q ++ 10 :: rest) :=
    piece_full 10 h10p (by omega) (by omega) _
  have hlast := (dropLast_append_getLast (append_ne_nil_of_right_ne_nil buf hne)).symm
  have hd : (buf ++ p).getLast (append_ne_nil_of_right_ne_nil buf hne) ≠ 10 :=
    fun hd => h10 (hd ▸ getLast_mem _)
  rw [readLoop_eq hget hne hbuf hlast, if_neg hd, ← hlast]

/-- **The first line of a file**, behind what has been read of it. -/
theorem readLoop_line {k : ℕ} (hk : k ≤ 24) {buf l : Text} (rest : Text) (hbuf : 0 ∉ buf ++ l)
    (h10 : 10 ∉ buf ++ l) (hroom : buf.length + 1 < 100 * 2 ^ k) :
    readLoop buf (100 * 2 ^ k) (l ++ 10 :: rest) =
      if buf.length + l.length + 2 ≤ 100 * 2 ^ 24 then .line (buf ++ l) rest else .undefined := by
  have hpow : (2 : ℕ) ^ k ≤ 2 ^ 24 := Nat.pow_le_pow_right Nat.two_pos hk
  by_cases hfits : buf.length + l.length + 2 ≤ 100 * 2 ^ k
  · rw [readLoop_fits rest hbuf (fun hm => h10 (mem_append_right _ hm)) hfits, if_pos (by omega)]
  · obtain ⟨p, q, hp, rfl⟩ : ∃ p q, buf.length + p.length + 1 = 100 * 2 ^ k ∧ l = p ++ q := by
      refine ⟨l.take (100 * 2 ^ k - buf.length - 1), l.drop _, ?_, (take_append_drop _ _).symm⟩
      rw [length_take_of_le (by omega)]
      omega
    have hne : p ≠ [] := ne_nil_of_length_pos (by omega)
    rw [← append_assoc] at hbuf h10
    have hfull := readLoop_full (q := q) rest (fun hm => hbuf (mem_append_left _ hm))
      (fun hm => h10 (mem_append_left _ hm)) hp hne
    rw [append_assoc, hfull]
    have hlen : (buf ++ p).length + q.length = buf.length + (p ++ q).length := by
      rw [length_append, length_append]
      omega
    by_cases hlast : k = 24
    · subst hlast
      rw [if_pos (by decide), if_neg hfits]
    · have hlt : (2 : ℕ) ^ (k + 1) ≤ 2 ^ 24 := Nat.pow_le_pow_right Nat.two_pos (by omega)
      have hdouble : 100 * 2 ^ k + 100 * 2 ^ k = 100 * 2 ^ (k + 1) := by
        omega
      have hint : ¬ intMax < 100 * 2 ^ (k + 1) := by
        unfold intMax
        omega
      rw [hdouble, if_neg hint, readLoop_line (by omega) rest hbuf h10, hlen, append_assoc]
      rw [length_append, pow_succ]
      omega
termination_by 24 - k

theorem of_readLoop {s rest : Text} (h : readLoop buf len file = .line s rest) :
    0 ∉ s ∧ 10 ∈ buf ++ file := by
  fun_induction readLoop buf len file with
  | case1 => cases h
  | case2 => cases h
  | case3 buf len file c cs rest' hget hlast =>
    cases h
    have happ := piece_append 10 (len - buf.length - 1) file
    rw [show piece 10 (len - buf.length - 1) file = _ from hget] at happ
    refine ⟨fun hm => ne_of_mem_str (dropLast_subset _ hm) rfl, ?_⟩
    have hmem := (takeWhile_sublist _).subset (mem_of_getLast? hlast)
    rw [← happ, ← append_assoc]
    exact mem_append_left _ hmem
  | case4 => cases h
  | case5 buf len file c cs rest' hget d hlast h10 hint ih =>
    have happ := piece_append 10 (len - buf.length - 1) file
    rw [show piece 10 (len - buf.length - 1) file = _ from hget] at happ
    obtain ⟨hs, hm⟩ := ih h
    refine ⟨hs, ?_⟩
    rw [← happ, ← append_assoc]
    rcases mem_append.1 hm with hm | hm
    · exact mem_append_left _ ((takeWhile_sublist _).subset hm)
    · exact mem_append_right _ hm

theorem readLoop_nil (buf : Text) (len : ℕ) : readLoop buf len [] = .null := by
  rw [readLoop.eq_def]
  rfl

/-! ### A name -/

theorem nlst_append (set : Settings) (args : List Arg) (file : Text) :
    nlst set .a args file = if set.runique then file else file ++ args.flatMap Arg.listing := by
  induction args generalizing file with
  | nil =>
    rw [flatMap_nil, append_nil, ite_self]
    rfl
  | cons arg args ih =>
    rw [nlst, ih, recvrequest, flatMap_cons]
    split_ifs
    · rfl
    · exact append_assoc ..

/-- **The list** is what NLST gives for all the arguments, in their order. -/
theorem nlst_eq (set : Settings) (args : List Arg) :
    nlst set .w args [] = if set.runique then [] else args.flatMap Arg.listing := by
  rcases args with - | ⟨arg, args⟩
  · rw [flatMap_nil, ite_self]
    rfl
  · rw [nlst, nlst_append, recvrequest, flatMap_cons]
    split_ifs <;> rfl

theorem remglob_glob {set : Settings} (hglob : set.doglob = true) (args : List Arg) (s : Statics) :
    remglob set args s true =
      match readLoop [] 100 (s.ftemp.getD (nlst set .w args [])) with
      | .null => some (none, { s with ftemp := none })
      | .line t rest => some (some t, { s with ftemp := some rest })
      | .undefined => none := by
  simp [remglob, hglob]

theorem remglob_stop {set : Settings} (hglob : set.doglob = true) (args : List Arg) (s : Statics) :
    remglob set args s false = some (none, { s with ftemp := none }) := by
  simp [remglob, hglob]

theorem readLoop_first (rest : Text) (h0 : 0 ∉ l) (h10 : 10 ∉ l) :
    readLoop [] 100 (l ++ 10 :: rest) = if l.length + 2 ≤ 100 * 2 ^ 24 then .line l rest
      else .undefined := by
  have hline : readLoop [] (100 * 2 ^ 0) (l ++ 10 :: rest) = _ :=
    readLoop_line (Nat.zero_le _) rest h0 h10 (by decide)
  rwa [length_nil, Nat.zero_add] at hline

section

variable {set : Settings} {args : List Arg} {s : Statics} {rest : Option (List Text)}

theorem complete_of_agrees (hglob : set.doglob = true)
    (hfile : s.ftemp.getD (nlst set .w args []) = file) (hrest : rest.getD (items set args) =
    lines file) (h : Agrees (remglob set args) (items set args) s rest) : Complete file := by
  induction hn : file.length using Nat.strong_induction_on generalizing s rest file with | _ n ih
  obtain ⟨s', hs', hagrees⟩ := agrees_iff.1 h true
  rw [remglob_glob hglob, hfile, call, if_pos rfl, hrest] at hs'
  rw [call, if_pos rfl, hrest] at hagrees
  obtain rfl | ⟨hne, h10⟩ | ⟨l, r, h10, rfl⟩ := file_cases file
  · exact complete_nil
  · rw [lines_part hne h10] at hs'
    rcases hread : readLoop [] 100 file with - | ⟨t, r⟩ | -
    · rw [hread] at hs'
      cases hs'
    · exact absurd (of_readLoop hread).2 h10
    · rw [hread] at hs'
      cases hs'
  · rw [lines_cons h10] at hs' hagrees
    rcases hread : readLoop [] 100 (l ++ 10 :: r) with - | ⟨t, r'⟩ | -
    · rw [hread] at hs'
      cases hs'
    · rw [hread] at hs'
      obtain ⟨hl, rfl⟩ := Prod.mk.inj (Option.some.inj hs')
      obtain rfl := Option.some.inj hl
      have h0 := (of_readLoop hread).1
      rw [readLoop_first r h0 h10] at hread
      split_ifs at hread with hshort
      cases hread
      have hlt : r.length < n := by
        rw [← hn, length_append, length_cons]
        omega
      exact (complete_cons h10).2 ⟨⟨h0, hshort⟩, ih _ hlt rfl rfl hagrees rfl⟩
    · rw [hread] at hs'
      cases hs'

def Left (set : Settings) (args : List Arg) (s : Statics) (rest : Option (List Text)) : Prop :=
  ∃ file, s.ftemp.getD (nlst set .w args []) = file ∧ rest.getD (items set args) = lines file ∧
    Complete file

theorem agrees_of_left (hglob : set.doglob = true) (hstart : Left set args ⟨none, none⟩ none)
    (h : Left set args s rest) : Agrees (remglob set args) (items set args) s rest := by
  refine agrees_of (R := Left set args) (fun s rest b hleft => ?_) h
  obtain ⟨file, hfile, hrest, hcomplete⟩ := hleft
  cases b with
  | false => exact ⟨_, remglob_stop hglob args s, hstart⟩
  | true =>
    rw [remglob_glob hglob, hfile, call, if_pos rfl, hrest]
    obtain rfl | ⟨hne, h10⟩ | ⟨l, r, h10, rfl⟩ := file_cases file
    · rw [readLoop_nil]
      exact ⟨_, rfl, hstart⟩
    · have hnewline := hcomplete.newline
      rw [Lines.cut_of_not_mem 10 h10] at hnewline
      exact absurd hnewline hne
    · obtain ⟨⟨h0, hshort⟩, hr⟩ := (complete_cons h10).1 hcomplete
      rw [readLoop_first r h0 h10, if_pos hshort, lines_cons h10]
      exact ⟨_, rfl, r, rfl, rfl, hr⟩

end

theorem lines_eq_nil (h : lines file = []) : file = [] := by
  obtain rfl | ⟨hne, h10⟩ | ⟨l, r, h10, rfl⟩ := file_cases file
  · rfl
  · rw [lines_part hne h10] at h
    cases h
  · rw [lines_cons h10] at h
    cases h

/-- **The successive results** are the lines of the list just in case globbing is on, the list is
not written to another file, and it has nothing that does not come back. -/
theorem enumerates_iff (set : Settings) (args : List Arg) :
    Enumerates set args ↔
      set.doglob = true ∧ (set.runique = true → args.flatMap Arg.listing = []) ∧
        Complete (args.flatMap Arg.listing) := by
  constructor
  · intro h
    have hagrees := h ⟨none, none⟩ (.inl rfl)
    by_cases hglob : set.doglob = true
    · refine ⟨hglob, ?_⟩
      have hitems : items set args = lines (args.flatMap Arg.listing) := if_pos hglob
      by_cases hrunique : set.runique = true
      · obtain ⟨s', hs', -⟩ := agrees_iff.1 hagrees true
        have hnil : nlst set .w args [] = [] := (nlst_eq set args).trans (if_pos hrunique)
        rw [remglob_glob hglob, Option.getD_none, hnil, readLoop_nil, call, if_pos rfl,
          Option.getD_none, hitems] at hs'
        rcases hl : lines (args.flatMap Arg.listing) with - | ⟨l, ls⟩
        · have hlisting := lines_eq_nil hl
          exact ⟨fun _ => hlisting, hlisting ▸ complete_nil⟩
        · rw [hl] at hs'
          cases hs'
      · have hfile : nlst set .w args [] = args.flatMap Arg.listing :=
          (nlst_eq set args).trans (if_neg hrunique)
        have hleft : (none : Option (List Text)).getD (items set args) =
          lines (args.flatMap Arg.listing) := hitems
        exact ⟨fun hr => absurd hr hrunique,
          complete_of_agrees hglob (s := ⟨none, none⟩) hfile hleft hagrees⟩
    · obtain ⟨s', hs', -⟩ := agrees_iff.1 hagrees true
      have hitems : items set args = args.map Arg.name := if_neg hglob
      rw [call, if_pos rfl, Option.getD_none, hitems] at hs'
      rcases args with - | ⟨arg, args⟩
      · simp [remglob, hglob, argv, strdup] at hs'
      · simp [remglob, hglob, argv, Cursors.next] at hs'
  · rintro ⟨hglob, hrunique, hcomplete⟩ s hs
    have hitems : items set args = lines (args.flatMap Arg.listing) := if_pos hglob
    have hfile : nlst set .w args [] = args.flatMap Arg.listing := by
      rw [nlst_eq]
      split_ifs with hr
      · exact (hrunique hr).symm
      · rfl
    have hstart : Left set args ⟨none, none⟩ none := ⟨_, hfile, hitems, hcomplete⟩
    refine agrees_of_left hglob hstart ?_
    rcases hs with rfl | ⟨args', s', hs⟩
    · exact hstart
    · rw [remglob_stop hglob] at hs
      obtain ⟨-, rfl⟩ := Prod.mk.inj (Option.some.inj hs)
      exact hstart

/-- `glob` switched off, and one argument: there is no result. -/
theorem not_enumerates_off : ¬ Enumerates ⟨false, false⟩ [⟨[102], []⟩] := by
  intro h
  have hone := h ⟨none, none⟩ (.inl rfl) [true]
  exact absurd hone (by decide +kernel)

end Inetutils.Ftp.Remglob
