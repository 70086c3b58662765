import Inetutils.Lib.Pieces
import Inetutils.Lib.Strings
import Mathlib.Algebra.Order.Ring.Int

/-! # The lists of users

`checkuser` of `src/ftpd/conf.c`, with which `auth_user` looks for a name in `ftpusers` and
`ftpchroot`. `fgets` reads a line in pieces if it does not fit in the buffer, each piece is taken
for a line, and one without a newline for none. -/

namespace Inetutils.Ftpd.Conf

open Lib Lib.Pieces Lib.Strings List

abbrev Text := List UInt8

/-- `BUFSIZ` of `<stdio.h>`. -/
abbrev bufsiz : ℕ := 8192

/-- `fgets (line, sizeof (line), fp)` until the end of the file. -/
def fgetsLines (content : Text) : List Text := pieces 10 (bufsiz - 1) (bufsiz - 1) content

def finds (name : Text) : List Text → Bool
  | [] => false
  | line :: ls =>
    if line.head? = some 35 then finds name ls
    else if 10 ∈ str 0 line ∧ (str 0 line).takeWhile (· ≠ 10) = name then true
    else finds name ls

/-- `checkuser`; no file is `none`. -/
def checkuser (file : Option Text) (name : Text) : Bool :=
  match file with
  | none => false
  | some content => finds name (fgetsLines content)

/-! ### What is listed -/

def fileLines (content : Text) : List Text :=
  (Lines.cut 10 [] content).1 ++ if (Lines.cut 10 [] content).2 = [] then []
    else [(Lines.cut 10 [] content).2]

/-- Some line that does not start with `#` is the name. -/
def Listed (content name : Text) : Prop := ∃ l ∈ fileLines content, l.head? ≠ some 35 ∧ l = name

/-- A name as `checkuser` gets it. -/
structure UserName (name : Text) : Prop where
  newline : 10 ∉ name
  nul : 0 ∉ name

theorem listed_iff {content name : Text} : Listed content name ↔
    name.head? ≠ some 35 ∧ (name ∈ (Lines.cut 10 [] content).1 ∨
      (Lines.cut 10 [] content).2 = name ∧ name ≠ []) := by
  constructor
  · rintro ⟨l, hl, hhead, rfl⟩
    refine ⟨hhead, (mem_append.1 hl).imp id fun hlast => ?_⟩
    split_ifs at hlast with hnil
    · exact absurd hlast not_mem_nil
    · rw [mem_singleton] at hlast
      exact ⟨hlast.symm, hlast ▸ hnil⟩
  · rintro ⟨hhead, hmem | ⟨rfl, hne⟩⟩
    · exact ⟨name, mem_append_left _ hmem, hhead, rfl⟩
    · exact ⟨_, mem_append_right _ (by rw [if_neg hne]; exact mem_singleton_self _), hhead, rfl⟩

/-! ### What is found -/

theorem finds_iff_mem {name : Text} (hname : UserName name) (ls : List Text)
    (hls : ∀ l ∈ ls, ∀ p q, l = p ++ 10 :: q → q = []) :
    finds name ls = true ↔ name.head? ≠ some 35 ∧ name ++ [10] ∈ ls := by
  induction ls with
  | nil => exact iff_of_false Bool.false_ne_true fun h => absurd h.2 not_mem_nil
  | cons line ls ih =>
    have ih := ih fun l hl => hls l (mem_cons_of_mem _ hl)
    have hline : 10 ∈ str 0 line ∧ (str 0 line).takeWhile (· ≠ 10) = name ↔
      line = name ++ [10] := by
      constructor
      · rintro ⟨hmem, htake⟩
        obtain ⟨p, q, hsplit, hp⟩ := eq_append_cons_of_mem hmem
        obtain ⟨r, hr⟩ := List.takeWhile_prefix (fun b : UInt8 => decide (b ≠ 0)) (l := line)
        change str 0 line ++ r = line at hr
        rw [hsplit, append_assoc, cons_append] at hr
        have hnil := hls line mem_cons_self p (q ++ r) hr.symm
        have hp' : (p ++ 10 :: q).takeWhile (· ≠ 10) = p := by
          rw [takeWhile_append_of_pos (by intro b hb; exact decide_eq_true fun h => hp (h ▸ hb)),
            takeWhile_cons_of_neg (by simp), append_nil]
        rw [hsplit, hp'] at htake
        rw [← hr, hnil, htake]
      · rintro rfl
        have hstr : str 0 (name ++ [10]) = name ++ [10] := by
          refine (takeWhile_eq_self_iff).2 fun b hb => ?_
          rcases mem_append.1 hb with hb | hb
          · exact decide_eq_true fun h => hname.nul (h ▸ hb)
          · rw [mem_singleton.1 hb]
            rfl
        rw [hstr]
        refine ⟨mem_append_right _ (mem_singleton_self _), ?_⟩
        rw [takeWhile_append_of_pos
          (by intro b hb; exact decide_eq_true fun h => hname.newline (h ▸ hb)),
          takeWhile_cons_of_neg (by simp), append_nil]
    have hhead : (name ++ [10]).head? = some 35 ↔ name.head? = some 35 := by
      rcases name with - | ⟨b, t⟩
      · exact iff_of_false (by decide) (by decide)
      · rfl
    rw [finds]
    split_ifs with h35 hfound
    · rw [ih, mem_cons]
      refine and_congr_right fun hne => (or_iff_right fun heq => hne ?_).symm
      rwa [← hhead, heq]
    · have heq := hline.1 hfound
      refine iff_of_true rfl ⟨?_, heq ▸ mem_cons_self⟩
      rwa [Ne, ← hhead, ← heq]
    · rw [ih, mem_cons, or_iff_right fun heq => hfound (hline.2 heq.symm)]

/-- **Found are the ends of the lines, where they are cut.** -/
theorem finds_iff {name : Text} (hname : UserName name) (content : Text) :
    checkuser (some content) name = true ↔
      name.head? ≠ some 35 ∧ ∃ l ∈ (Lines.cut 10 [] content).1, Tail (bufsiz - 1) name l := by
  change finds name (fgetsLines content) = true ↔ _
  rw [finds_iff_mem hname, fgetsLines, mem_pieces_iff 10 (by decide)]
  intro l hl p q heq
  exact delim_of_mem_pieces 10 hl heq

/-! ### When that is what is listed -/

def Leftover (content name : Text) : Prop :=
  ∃ l ∈ (Lines.cut 10 [] content).1, l ≠ name ∧ Tail (bufsiz - 1) name l

/-- A line that does not fit, or the last one, without a newline. -/
def Unread (content name : Text) : Prop :=
  name ∈ (Lines.cut 10 [] content).1 ∧ bufsiz - 1 ≤ name.length ∨
    (Lines.cut 10 [] content).2 = name ∧ name ≠ []

/-- **When `checkuser` finds just the names that are listed.** -/
theorem checkuser_iff {name : Text} (hname : UserName name) (content : Text) :
    (checkuser (some content) name = true ↔ Listed content name) ↔
      (name.head? = some 35 ∨ name ∈ (Lines.cut 10 [] content).1 ∧ name.length < bufsiz - 1 ∨
        (Leftover content name ↔ Unread content name)) := by
  rw [finds_iff hname, listed_iff]
  by_cases hhead : name.head? = some 35
  · exact iff_of_true (iff_of_false (fun h => h.1 hhead) fun h => h.1 hhead) (.inl hhead)
  rw [and_iff_right hhead, and_iff_right hhead, or_iff_right hhead]
  by_cases hfits : name ∈ (Lines.cut 10 [] content).1 ∧ name.length < bufsiz - 1
  · exact iff_of_true (iff_of_true ⟨name, hfits.1, hfits.2, [], rfl, Nat.dvd_zero _⟩ (.inl hfits.1))
      (.inl hfits)
  rw [or_iff_right hfits]
  have hleft : (∃ l ∈ (Lines.cut 10 [] content).1, Tail (bufsiz - 1) name l) ↔
    Leftover content name := by
    constructor
    · rintro ⟨l, hl, htail⟩
      exact ⟨l, hl, fun heq => hfits ⟨heq ▸ hl, htail.1⟩, htail⟩
    · rintro ⟨l, hl, -, htail⟩
      exact ⟨l, hl, htail⟩
  have hunread :
      (name ∈ (Lines.cut 10 [] content).1 ∨ (Lines.cut 10 [] content).2 = name ∧ name ≠ []) ↔
      Unread content name :=
    or_congr_left ⟨fun h => ⟨h, Nat.le_of_not_lt fun hlt => hfits ⟨h, hlt⟩⟩, And.left⟩
  rw [hleft, hunread]

/-- `bob`, the only line, with its newline. -/
theorem checkuser_bob : checkuser (some [98, 111, 98, 10]) [98, 111, 98] = true ↔
    Listed [98, 111, 98, 10] [98, 111, 98] :=
  (checkuser_iff ⟨by decide, by decide⟩ _).2 (.inr (.inl ⟨by decide, by decide⟩))

/-- And without it. -/
theorem not_checkuser_bob : ¬ ∀ content name, UserName name →
    (checkuser (some content) name = true ↔ Listed content name) := by
  intro h
  have hiff := h [98, 111, 98] [98, 111, 98] ⟨by decide, by decide⟩
  have hlisted : Listed [98, 111, 98] [98, 111, 98] :=
    listed_iff.2 ⟨by decide, .inr ⟨rfl, by decide⟩⟩
  exact absurd (hiff.2 hlisted) (by decide)

end Inetutils.Ftpd.Conf
