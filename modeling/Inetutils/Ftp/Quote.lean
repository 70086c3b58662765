import Inetutils.Lib.Cells
import Mathlib.Data.UInt

/-! # A line that is sent verbatim

`quote` and `site` of `src/ftp/cmds.c` join their arguments in the buffer of `quote1`, which hands
it to `command` of `src/ftp/ftp.c` as a format. To write behind the buffer has no result, and
neither has a format that asks for an argument. -/

namespace Inetutils.Ftp.Quote

open Lib.Cells List Option

abbrev Byte := UInt8

abbrev Text := List Byte

abbrev Str := { l : Text // (0 : Byte) ∉ l }

/-- `BUFSIZ` of `<stdio.h>`. -/
def BUFSIZ : ℕ := 8192

/-- `vfprintf` without arguments: `%%` is a `%`, and what else begins with a `%` is not defined. -/
def vfprintf : Text → Option Text
  | [] => some []
  | c :: fmt =>
    if c = 37 then
      match fmt with
      | d :: fmt => if d = 37 then (vfprintf fmt).map (37 :: ·) else none
      | [] => none
    else (vfprintf fmt).map (c :: ·)

/-- **`command`**: what is written to `cout`. -/
def command (buf : Block Byte) : Option Text :=
  (string 0 buf).bind fun fmt => (vfprintf fmt).map (· ++ [13, 10])

/-- `for (i = 2; i < argc; i++)` -/
def joinLoop (buf : Block Byte) (len : ℕ) : List Str → Option (Block Byte)
  | [] => some buf
  | a :: argv =>
    (write buf len 32).bind fun buf =>
      (fill buf (len + 1) (a.1 ++ [0])).bind fun buf => joinLoop buf (len + 1 + a.1.length) argv

/-- **`quote1`**, with `argv[1]` and what is behind it. -/
def quote1 (initial : Str) (argv : List Str) : Option Text :=
  (fill (alloc BUFSIZ) 0 (initial.1 ++ [0])).bind fun buf =>
    match argv with
    | [] => command buf
    | a :: argv =>
      (fill buf initial.1.length (a.1 ++ [0])).bind fun buf =>
        (joinLoop buf (initial.1.length + a.1.length) argv).bind command

/-- The arguments, for which `another` asks when there are none. -/
def arguments (argv : List Str) (another : Option (List Str)) : Option (List Str) :=
  if argv = [] then another else some argv

/-- **`quote`**; where there are no arguments, nothing is sent. -/
def quote (argv : List Str) (another : Option (List Str)) : Option Text :=
  match arguments argv another with
  | none => some []
  | some argv => quote1 ⟨[], List.not_mem_nil⟩ argv

/-- `SITE ` -/
def siteText : Str := ⟨[83, 73, 84, 69, 32], by decide⟩

/-- **`site`** -/
def site (argv : List Str) (another : Option (List Str)) : Option Text :=
  match arguments argv another with
  | none => some []
  | some argv => quote1 siteText argv

/-! ### What is to hold -/

inductive Verb
  | quote
  | site

def Verb.initial : Verb → Text
  | .quote => []
  | .site => [83, 73, 84, 69, 32]

def Verb.run : Verb → List Str → Option (List Str) → Option Text
  | .quote => Quote.quote
  | .site => Quote.site

/-- The initial text, and the arguments with a space between them. -/
def joined (initial : Text) (argv : List Str) : Text :=
  initial ++ [32].intercalate (argv.map Subtype.val)

def Sends (verb : Verb) (argv : List Str) (another : Option (List Str)) : Prop :=
  verb.run argv another =
    match arguments argv another with
    | none => some []
    | some argv => some (joined verb.initial argv ++ [13, 10])

/-! ### The format -/

theorem vfprintf_length {fmt out : Text} (h : vfprintf fmt = some out) :
    out.length ≤ fmt.length ∧ (37 ∈ fmt → out.length < fmt.length) := by
  fun_induction vfprintf fmt generalizing out with
  | case1 =>
    cases h
    exact ⟨le_rfl, fun hm => absurd hm not_mem_nil⟩
  | case2 fmt ih =>
    obtain ⟨out, hout, rfl⟩ := map_eq_some_iff.1 h
    have hle := (ih hout).1
    rw [length_cons, length_cons, length_cons]
    exact ⟨by omega, fun _ => by omega⟩
  | case3 => cases h
  | case4 => cases h
  | case5 c fmt hc ih =>
    obtain ⟨out, hout, rfl⟩ := map_eq_some_iff.1 h
    obtain ⟨hle, hlt⟩ := ih hout
    rw [length_cons, length_cons]
    refine ⟨Nat.succ_le_succ hle, fun hm => Nat.succ_lt_succ (hlt ?_)⟩
    exact (mem_cons.1 hm).resolve_left (Ne.symm hc)

/-- **What is written as it is**: a text without a `%`. -/
theorem vfprintf_eq_self {fmt : Text} : vfprintf fmt = some fmt ↔ 37 ∉ fmt := by
  constructor
  · intro h hm
    exact absurd ((vfprintf_length h).2 hm) (lt_irrefl _)
  · intro h
    induction fmt with
    | nil => rfl
    | cons c fmt ih =>
      rw [mem_cons, not_or] at h
      rw [vfprintf.eq_def]
      dsimp only
      rw [if_neg (Ne.symm h.1), ih h.2, map_some]

/-! ### The buffer -/

theorem fill_behind {b : Block Byte} {t : Text} (h : b.take t.length = t.map some)
    (hlen : t.length ≤ b.length) (u : Text) :
    (t.length + u.length < b.length ∧ ∃ r,
      fill b t.length (u ++ [0]) = some ((t ++ u).map some ++ some 0 :: r) ∧
      ((t ++ u).map some ++ some 0 :: r).length = b.length) ∨
      (b.length ≤ t.length + u.length ∧ fill b t.length (u ++ [0]) = none) := by
  rw [fill_eq hlen, h, length_append, length_singleton]
  by_cases hlt : t.length + (u.length + 1) ≤ b.length
  · refine .inl ⟨hlt, b.drop (t.length + (u.length + 1)), ?_, ?_⟩
    · rw [if_pos hlt, map_append, map_append, append_assoc, append_assoc, append_assoc]
      rfl
    · rw [length_append, length_map, length_append, length_cons, length_drop]
      omega
  · exact .inr ⟨by omega, if_neg hlt⟩

def behind (argv : List Str) : Text := argv.flatMap fun a => 32 :: a.1

theorem joined_cons (initial : Text) (a : Str) (argv : List Str) :
    joined initial (a :: argv) = initial ++ a.1 ++ behind argv := by
  rw [joined, append_assoc, append_cancel_left_eq]
  induction argv generalizing a with
  | nil => exact intercalate_singleton.trans (append_nil _).symm
  | cons b argv ih =>
    rw [map_cons, map_cons, intercalate_cons_cons, append_assoc, behind, flatMap_cons]
    exact congrArg (a.1 ++ 32 :: ·) (ih b)

/-- **The loop**: what is in the buffer behind it. -/
theorem joinLoop_eq {buf r : Block Byte} {t : Text} (h : buf = t.map some ++ some 0 :: r)
    (argv : List Str) :
    (t.length + (behind argv).length < buf.length ∧
      ∃ r, joinLoop buf t.length argv = some ((t ++ behind argv).map some ++ some 0 :: r)) ∨
      (buf.length ≤ t.length + (behind argv).length ∧ joinLoop buf t.length argv = none) := by
  induction argv generalizing buf r t with
  | nil =>
    refine .inl ⟨?_, r, ?_⟩
    · rw [h, length_append, length_map, length_cons]
      exact Nat.lt_add_of_pos_right (Nat.succ_pos _)
    · rw [behind, flatMap_nil, append_nil, h]
      rfl
  | cons a argv ih =>
    have hfront : buf.take t.length = t.map some := by
      rw [h]
      exact take_left' (length_map _)
    have hlen : t.length ≤ buf.length := by
      rw [h, length_append, length_map]
      exact Nat.le_add_right _ _
    have hsize : (behind (a :: argv)).length = (32 :: a.1).length + (behind argv).length := by
      rw [behind, flatMap_cons, length_append]
      rfl
    have hstep : joinLoop buf t.length (a :: argv) =
        (fill buf t.length ((32 :: a.1) ++ [0])).bind fun buf =>
          joinLoop buf (t.length + 1 + a.1.length) argv :=
      (bind_assoc _ _ _).symm
    rw [hstep, hsize]
    rcases fill_behind hfront hlen (32 :: a.1) with ⟨hlt, r', hfill, hlen'⟩ | ⟨hge, hfill⟩
    · have hplace : t.length + 1 + a.1.length = (t ++ 32 :: a.1).length := by
        rw [length_append, length_cons]
        omega
      rw [hfill, bind_some, hplace, ← hlen']
      have hsum : t.length + ((32 :: a.1).length + (behind argv).length) =
          (t ++ 32 :: a.1).length + (behind argv).length := by
        rw [length_append, Nat.add_assoc]
      have hall : t ++ behind (a :: argv) = t ++ 32 :: a.1 ++ behind argv :=
        (append_assoc _ _ _).symm
      rw [hsum, hall]
      exact ih (t := t ++ 32 :: a.1) (r := r') rfl
    · rw [hfill]
      exact .inr ⟨by omega, rfl⟩

theorem mem_behind {c : Byte} {argv : List Str} (h : c ∈ behind argv) :
    c = 32 ∨ ∃ a ∈ argv, c ∈ a.1 := by
  obtain ⟨a, ha, hc⟩ := mem_flatMap.1 h
  exact (mem_cons.1 hc).imp_right fun hc => ⟨a, ha, hc⟩

theorem mem_joined {c : Byte} {initial : Text} {argv : List Str} (h : c ∈ joined initial argv) :
    c ∈ initial ∨ c = 32 ∨ ∃ a ∈ argv, c ∈ a.1 := by
  rcases argv with - | ⟨a, argv⟩
  · exact .inl (by simpa [joined] using h)
  · rw [joined_cons, append_assoc, mem_append, mem_append] at h
    rcases h with h | h | h
    · exact .inl h
    · exact .inr (.inr ⟨a, mem_cons_self, h⟩)
    · rcases mem_behind h with h | ⟨b, hb, h⟩
      · exact .inr (.inl h)
      · exact .inr (.inr ⟨b, mem_cons_of_mem a hb, h⟩)

theorem noNul_joined (initial : Str) (argv : List Str) : 0 ∉ joined initial.1 argv := by
  intro h
  rcases mem_joined h with h | h | ⟨a, -, h⟩
  · exact initial.2 h
  · exact absurd h (by decide)
  · exact a.2 h

theorem command_string {t : Text} (h : 0 ∉ t) (r : Block Byte) :
    command (t.map some ++ some 0 :: r) = (vfprintf t).map (· ++ [13, 10]) := by
  rw [command, string_append h, bind_some]

/-- **The text** that `quote1` hands to `command`. -/
theorem quote1_eq (initial : Str) (argv : List Str) :
    quote1 initial argv =
      if (joined initial.1 argv).length < BUFSIZ then
      (vfprintf (joined initial.1 argv)).map (· ++ [13, 10])
      else none := by
  have hnul := noNul_joined initial argv
  have hbuf : (alloc BUFSIZ : Block Byte).length = BUFSIZ := length_alloc _
  have hfirst := fill_behind (b := alloc BUFSIZ) (t := []) rfl (Nat.zero_le _) initial.1
  rw [length_nil, Nat.zero_add, nil_append, hbuf] at hfirst
  unfold quote1
  rcases hfirst with ⟨hlt, r, hfill, hlen⟩ | ⟨hge, hfill⟩
  · rw [hfill, bind_some]
    rcases argv with - | ⟨a, argv⟩
    · have hjoined : joined initial.1 [] = initial.1 := append_nil _
      rw [hjoined, if_pos hlt]
      exact command_string initial.2 r
    · rw [joined_cons] at hnul ⊢
      have hsecond := fill_behind (b := initial.1.map some ++ some 0 :: r) (t := initial.1)
        (take_left' (length_map _)) (by rw [hlen]; exact hlt.le) a.1
      rw [hlen] at hsecond
      rw [length_append, length_append]
      rcases hsecond with ⟨hlt2, r2, hfill2, hlen2⟩ | ⟨hge2, hfill2⟩
      · have hloop := joinLoop_eq (t := initial.1 ++ a.1) rfl argv (r := r2)
        rw [hlen2, length_append] at hloop
        dsimp only
        rw [hfill2, bind_some]
        rcases hloop with ⟨hlt3, r3, hloop⟩ | ⟨hge3, hloop⟩
        · rw [hloop, if_pos hlt3, bind_some]
          exact command_string hnul r3
        · rw [hloop, if_neg (by omega)]
          rfl
      · dsimp only
        rw [hfill2, if_neg (by omega)]
        rfl
  · have hle : initial.1.length ≤ (joined initial.1 argv).length := by
      rw [joined, length_append]
      exact Nat.le_add_right _ _
    rw [hfill, if_neg (by omega)]
    rfl

theorem quote1_verbatim (initial : Str) (argv : List Str) :
    quote1 initial argv = some (joined initial.1 argv ++ [13, 10]) ↔
      37 ∉ joined initial.1 argv ∧ (joined initial.1 argv).length < BUFSIZ := by
  rw [quote1_eq]
  split_ifs with hlt
  · rw [and_iff_left hlt, ← vfprintf_eq_self, map_eq_some_iff]
    constructor
    · rintro ⟨out, hout, heq⟩
      rwa [append_cancel_right heq] at hout
    · exact fun h => ⟨_, h, rfl⟩
  · exact iff_of_false nofun fun h => hlt h.2

theorem percent_mem_joined {verb : Verb} {argv : List Str} :
    37 ∈ joined verb.initial argv ↔ ∃ a ∈ argv, 37 ∈ a.1 := by
  constructor
  · intro h
    rcases mem_joined h with h | h | h
    · exact absurd h (by cases verb <;> decide)
    · exact absurd h (by decide)
    · exact h
  · rintro ⟨a, ha, h⟩
    rcases argv with - | ⟨b, argv⟩
    · exact absurd ha not_mem_nil
    · rw [joined_cons]
      rcases mem_cons.1 ha with rfl | ha
      · exact mem_append_left _ (mem_append_right _ h)
      · exact mem_append_right _ (mem_flatMap.2 ⟨a, ha, mem_cons_of_mem _ h⟩)

/-- **When a line is sent verbatim.** -/
theorem sends_iff (verb : Verb) (argv : List Str) (another : Option (List Str)) :
    Sends verb argv another ↔
      ∀ args, arguments argv another = some args →
        (∀ a ∈ args, 37 ∉ a.1) ∧ (joined verb.initial args).length < BUFSIZ := by
  have hinitial : 0 ∉ verb.initial := by cases verb <;> decide
  have hrun : verb.run argv another =
      match arguments argv another with
      | none => some []
      | some args => quote1 ⟨verb.initial, hinitial⟩ args := by
    cases verb <;> rfl
  unfold Sends
  rw [hrun]
  rcases arguments argv another with - | args
  · exact iff_of_true rfl nofun
  · have hpercent : 37 ∉ joined verb.initial args ↔ ∀ a ∈ args, 37 ∉ a.1 := by
      rw [percent_mem_joined]
      push Not
      rfl
    dsimp only
    rw [quote1_verbatim, hpercent]
    exact ⟨fun h args' hargs => some.inj hargs ▸ h, fun h => h args rfl⟩

/-- An argument with a `%`. -/
theorem not_sends_percent : ¬ ∀ verb argv another, Sends verb argv another := by
  intro h
  have hsends := h .site [⟨[53, 37, 120], by decide⟩] none
  have hnone : (site [⟨[53, 37, 120], by decide⟩] none).isNone = true := by decide +kernel
  cases (isNone_iff_eq_none.1 hnone).symm.trans hsends

end Inetutils.Ftp.Quote
