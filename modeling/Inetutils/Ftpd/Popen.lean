import Inetutils.Lib.Cells
import Inetutils.Lib.Fields

/-! # The programs that ftpd starts

`ftpd_popen` of `src/ftpd/popen.c` parts a command at blanks into `argv`, lets `glob` expand all the
words but the first, and executes what that gives, `gargv`. Memory suffices; the parameter `glob`
gives for a place of `argv` and the word there the paths that are found, or that nothing could be
done. -/

namespace Inetutils.Ftpd.Popen

open Lib.Cells Lib.Fields List Option

abbrev Text := List UInt8

abbrev Glob := ℕ → Text → Option (List Text)

def maxArgc : ℕ := 100

def maxGargc : ℕ := 1000

def blank (c : UInt8) : Bool := c == 32 || c == 9 || c == 10

/-- Break up string into pieces, `n` at most. -/
def breakUp : ℕ → Block (Option Text) → ℕ → Text → Option (Block (Option Text))
  | 0, argv, _, _ => some argv
  | n + 1, argv, argc, cp =>
    match strtok blank cp with
    | none => write argv argc none
    | some (w, cp) => (write argv argc (some w)).bind fun argv => breakUp n argv (argc + 1) cp

def expansion (glob : Glob) (argc : ℕ) (w : Text) : List Text := (glob argc w).getD [w]

/-- Glob each piece: the places of `argv` from `argc` on are read up to a NULL. -/
def globPieces (glob : Glob) :
    Block (Option Text) → ℕ → Block (Option Text) → ℕ → Option (Block (Option Text) × ℕ)
  | some (some w) :: pieces, argc, gargv, gargc =>
    (fill gargv gargc ((expansion glob argc w).map some)).bind fun gargv =>
      globPieces glob pieces (argc + 1) gargv (gargc + (expansion glob argc w).length)
  | some none :: _, _, gargv, gargc => some (gargv, gargc)
  | _, _, _, _ => none

/-- The vector for `execv`. -/
def vector (glob : Glob) (program : Text) : Option (List Text) := do
  let argv ← breakUp (maxArgc - 1) (alloc maxArgc) 0 program
  let argv ← write argv (maxArgc - 1) none
  let gargv ← write (alloc maxGargc) 0 (← fetch argv 0)
  let (gargv, gargc) ← globPieces glob (argv.drop 1) 1 gargv 1
  untilNull (← write gargv gargc none)

def goodType (type : Text) : Bool := type = [114] || type = [119]

/-- **`ftpd_popen`**: whether it has no result, executes nothing, or executes a vector. -/
def ftpdPopen (pipe : Bool) (glob : Glob) (program type : Text) : Option (Option (List Text)) :=
  if ¬ goodType type then some none
  else if ¬ pipe then some none
  else (vector glob program).map some

/-! ### What should be executed -/

/-- The expansions of the words from the place `argc` on. -/
def expansions (glob : Glob) : ℕ → List Text → List Text
  | _, [] => []
  | argc, w :: ws => expansion glob argc w ++ expansions glob (argc + 1) ws

def expanded (glob : Glob) : List Text → List Text
  | [] => []
  | w :: ws => w :: expansions glob 1 ws

/-- **The vector is that of the words**, and no array is left. -/
def Opens (pipe : Bool) (glob : Glob) (program type : Text) : Prop :=
  ∃ r, ftpdPopen pipe glob program type = some r ∧ ∀ v ∈ r, v = expanded glob (words blank program)

/-! ### The arrays -/

section
variable {glob : Glob}

theorem breakUp_eq (n : ℕ) (argv : Block (Option Text)) (argc : ℕ) (cp : Text) :
    breakUp n argv argc cp = fill argv argc (((words blank cp).map some ++ [none]).take n) := by
  induction n generalizing argv argc cp with
  | zero => rfl
  | succ n ih =>
    rw [breakUp]
    have hfirst : (strtok blank cp = none ∧ words blank cp = []) ∨ _ := strtok_words cp
    rcases hfirst with ⟨htok, hwords⟩ | ⟨w, r, htok, hwords⟩
    · rw [htok, hwords]
      exact (fill_singleton argv argc none).symm.trans (by rw [take_of_length_le (by simp)]; rfl)
    · rw [htok, hwords, map_cons, cons_append, take_succ_cons, fill]
      dsimp only
      exact congrArg _ (funext fun b => ih b (argc + 1) r)

theorem expansions_append (argc : ℕ) (ws ws' : List Text) :
    expansions glob argc (ws ++ ws') = expansions glob argc ws ++
    expansions glob (argc + ws.length) ws' := by
  induction ws generalizing argc with
  | nil => rfl
  | cons w ws ih =>
    rw [cons_append, expansions, expansions, ih, append_assoc, length_cons, Nat.add_assoc,
      Nat.add_comm 1]

/-- **The expansions are written** one after the other. -/
theorem globPieces_eq (ws : List Text) (r : Block (Option Text)) (argc : ℕ)
    (gargv : Block (Option Text)) (gargc : ℕ) :
    globPieces glob ((ws.map some).map some ++ some none :: r) argc gargv gargc =
      (fill gargv gargc ((expansions glob argc ws).map some)).map fun b =>
        (b, gargc + (expansions glob argc ws).length) := by
  induction ws generalizing argc gargv gargc with
  | nil => rfl
  | cons w ws ih =>
    rw [map_cons, map_cons, cons_append, globPieces, expansions, map_append, fill_append,
      map_bind, length_map, length_append, ← Nat.add_assoc]
    exact congrArg _ (funext fun b => ih _ b _)

theorem argv_eq (program : Text) :
    ∃ argv r, breakUp (maxArgc - 1) (alloc maxArgc) 0 program = some argv ∧
      write argv (maxArgc - 1) none =
        some ((((words blank program).take 99).map some).map some ++ some none :: r) ∧
      (words blank program = [] → r.head? = some none) := by
  rw [breakUp_eq, fill_alloc, if_pos ((length_take_le _ _).trans (by decide))]
  generalize words blank program = ws
  unfold maxArgc
  rcases lt_or_ge ws.length 99 with hlt | hge
  · have hpieces : (ws.map some ++ [none]).take (100 - 1) = ws.map some ++ [none] := by
      rw [take_of_length_le]
      rw [length_append, length_map, length_singleton]
      omega
    have hlen : (ws.map some ++ [none]).length = ws.length + 1 := by
      rw [length_append, length_map, length_singleton]
    refine ⟨_, (alloc (99 - ws.length)).set (98 - ws.length) (some none), rfl, ?_, ?_⟩
    · rw [hpieces, hlen, write_of_lt (by rw [length_append, length_map, hlen, length_alloc]; omega),
        set_append_right _ _ (by rw [length_map, hlen]; omega), length_map, hlen,
        take_of_length_le (by omega), map_append, append_assoc,
        show 100 - (ws.length + 1) = 99 - ws.length by omega,
        show 100 - 1 - (ws.length + 1) = 98 - ws.length by omega]
      rfl
    · rintro rfl
      decide
  · have hpieces : (ws.map some ++ [none]).take (100 - 1) = (ws.take 99).map some := by
      rw [take_append_of_le_length (by rw [length_map]; omega), map_take]
    have hlen : ((ws.take 99).map some).length = 99 := by
      rw [length_map, length_take_of_le hge]
    refine ⟨_, [], rfl, ?_, ?_⟩
    · rw [hpieces, hlen, write_of_lt (by rw [length_append, length_map, hlen, length_alloc]; omega),
        set_append_right _ _ (by rw [length_map, hlen]), length_map, hlen]
      rfl
    · rintro rfl
      exact absurd hge (by decide)

/-- **The vector**, when there is a first word and `gargv` suffices. -/
theorem vector_eq (program : Text) :
    vector glob program =
      if words blank program ≠ [] ∧
      (expanded glob ((words blank program).take 99)).length < maxGargc then
        some (expanded glob ((words blank program).take 99))
      else none := by
  obtain ⟨argv, r, hbreak, hwrite, hr⟩ := argv_eq program
  unfold vector
  simp only [bind_eq_bind, hbreak, hwrite, bind_some]
  generalize words blank program = ws at hr ⊢
  cases ws with
  | nil =>
    rw [if_neg fun h => h.1 rfl]
    cases r with
    | nil => cases hr rfl
    | cons x r =>
      cases hr rfl
      have hread :
          fetch (((([] : List Text).take 99).map some).map some ++ some none :: none :: r) 0 =
          some none := rfl
      have hglob (b : Block (Option Text)) : globPieces glob
          ((((([] : List Text).take 99).map some).map some ++
            some none :: none :: r).drop 1) 1 b 1 = none := rfl
      simp only [hread, hglob, bind_none, bind_fun_none]
  | cons w ws =>
    have hread :
        fetch ((((w :: ws).take 99).map some).map some ++ some none :: r) 0 = some (some w) := rfl
    have hdrop : ((((w :: ws).take 99).map some).map some ++ some none :: r).drop 1 =
        ((ws.take 98).map some).map some ++ some none :: r := rfl
    have hexpanded : expanded glob ((w :: ws).take 99) = w :: expansions glob 1 (ws.take 98) := rfl
    simp only [hread, hdrop, bind_some, globPieces_eq, hexpanded]
    generalize expansions glob 1 (ws.take 98) = l
    have hfill : ((write (alloc maxGargc) 0 (some w)).bind fun b =>
        (fill b 1 (l.map some)).bind fun b => write b (1 + l.length) none) =
          fill (alloc maxGargc) 0 (((w :: l).map some) ++ [none]) := by
      rw [fill_append, map_cons, fill, bind_assoc]
      refine congrArg _ (funext fun b => congrArg _ (funext fun b => ?_))
      rw [fill_singleton, length_cons, length_map, Nat.add_comm 1, Nat.zero_add]
    have hvector : ((write (alloc maxGargc) 0 (some w)).bind fun gargv =>
        ((fill gargv 1 (l.map some)).map fun b => (b, 1 + l.length)).bind fun x =>
          (write x.1 x.2 none).bind untilNull) =
        (fill (alloc maxGargc) 0 (((w :: l).map some) ++ [none])).bind untilNull := by
      rw [← hfill, bind_assoc]
      refine congrArg _ (funext fun b => ?_)
      rw [bind_assoc, bind_map]
      rfl
    refine hvector.trans ?_
    rw [fill_alloc, length_append, length_map, length_singleton]
    by_cases hlen : (w :: l).length + 1 ≤ maxGargc
    · rw [if_pos hlen, if_pos ⟨cons_ne_nil _ _, hlen⟩, bind_some, map_append, append_assoc]
      exact untilNull_append (w :: l) _
    · rw [if_neg hlen, if_neg fun h => hlen h.2]
      rfl

/-- **`ftpd_popen`** executes what it should when there is a first word, `gargv` has room for the
expansions and for NULL, and what `argv` has no room for would expand to nothing. -/
theorem opens_iff (pipe : Bool) (program type : Text) :
    Opens pipe glob program type ↔
      (goodType type → pipe → words blank program ≠ [] ∧
        (expanded glob (words blank program)).length < maxGargc ∧
        expansions glob 99 ((words blank program).drop 99) = []) := by
  unfold Opens ftpdPopen
  by_cases htype : goodType type
  · by_cases hpipe : pipe
    · rw [if_neg (not_not.2 htype), if_neg (not_not.2 hpipe), imp_iff_right htype,
        imp_iff_right hpipe, vector_eq]
      generalize words blank program = ws
      cases ws with
      | nil => simp
      | cons w ws =>
        have hsplit : expanded glob (w :: ws) =
            expanded glob ((w :: ws).take 99) ++ expansions glob 99 ((w :: ws).drop 99) := by
          have hws : expansions glob 1 (ws.take 98 ++ ws.drop 98) = _ := expansions_append 1 _ _
          rw [take_append_drop] at hws
          rw [expanded, hws]
          rcases lt_or_ge ws.length 98 with hlt | hge
          · rw [drop_of_length_le (le_of_lt hlt), drop_of_length_le (by rw [length_cons]; omega)]
            rfl
          · rw [length_take_of_le hge]
            rfl
        generalize expanded glob ((w :: ws).take 99) = first at hsplit ⊢
        generalize expansions glob 99 ((w :: ws).drop 99) = more at hsplit ⊢
        have hne : w :: ws ≠ [] := cons_ne_nil w ws
        simp only [hsplit, hne, ne_eq, not_false_eq_true, true_and]
        constructor
        · rintro ⟨r, hr, hv⟩
          split_ifs at hr with hlen
          · cases hr
            obtain rfl : more = [] := self_eq_append_right.1 (hv first rfl)
            rw [append_nil]
            exact ⟨hlen, rfl⟩
          · cases hr
        · rintro ⟨hlen, rfl⟩
          rw [append_nil] at hlen
          rw [if_pos hlen, append_nil]
          exact ⟨_, rfl, fun v hv => (mem_some.1 hv).symm⟩
    · rw [if_neg (not_not.2 htype), if_pos hpipe]
      exact iff_of_true ⟨none, rfl, fun v hv => by cases hv⟩ fun _ h => absurd h hpipe
  · rw [if_pos htype]
    exact iff_of_true ⟨none, rfl, fun v hv => by cases hv⟩ fun h => absurd h htype

end

/-- What `ls` finds with a `*` when there are `n` files. -/
def directory (n : ℕ) : Glob :=
  fun _ w => if w = [42] then some (List.replicate n [102]) else some [w]

/-- `/bin/ls *` in a directory of two files. -/
theorem opens_ls : Opens true (directory 2) [108, 115, 32, 42] [114] :=
  (opens_iff true _ _).2 fun _ _ => ⟨by decide, by decide +kernel, by decide +kernel⟩

/-- In one of 999 files. -/
theorem not_opens_ls : ftpdPopen true (directory 999) [108, 115, 32, 42] [114] = none ∧
    ¬ Opens true (directory 999) [108, 115, 32, 42] [114] := by
  have hwords : words blank [108, 115, 32, 42] = [[108, 115], [42]] := by decide +kernel
  have hnone : ftpdPopen true (directory 999) [108, 115, 32, 42] [114] = none := by
    have hmany : expanded (directory 999) [[108, 115], [42]] =
      [108, 115] :: (List.replicate 999 [102] ++ []) := rfl
    unfold ftpdPopen
    rw [if_neg (by decide), if_neg (by decide), vector_eq, hwords, take_of_length_le (by decide),
      hmany, if_neg]
    · rfl
    · rw [append_nil, length_cons, length_replicate]
      decide
  refine ⟨hnone, ?_⟩
  rintro ⟨r, hr, -⟩
  rw [hnone] at hr
  cases hr

end Inetutils.Ftpd.Popen
