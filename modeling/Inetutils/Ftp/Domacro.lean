import Inetutils.Ftp.Macros
import Inetutils.Ftp.Makeargv

/-! # The commands of a macro

`domacro` of `src/ftp/domacro.c` writes each line of a macro, with `$1` and `$i` replaced, over the
line that has called it, cuts it into words with `makeargv` and calls the handler of its command.
`argv` is `margv`, so that the arguments of the macro are only there as long as the words of the
calling line are. -/

namespace Inetutils.Ftp.Domacro

open Lib.Cells Makeargv List
open Macros (isspace isdigit dropWhile_nul)

abbrev Line := { l : Text // l ≠ [] ∧ (0 : Byte) ∉ l }

/-! ### The expansion of a line -/

/-- `j = 10 * j + *cp1 - '0'`, in `int`. -/
def number : ℕ → Text → Option ℕ
  | j, [] => some j
  | j, c :: cp1 => if 10 * j + c.toNat < 2 ^ 31 then number (10 * j + c.toNat - 48) cp1 else none

/-- What is stored at `line`, the places of `argv` that are read, whether there is a `$i`, and what
is behind. -/
structure Out where
  bytes : Text
  reads : List ℕ
  loopflg : Bool
  cp1 : Text

def Out.put (a : Text × List ℕ) (flag : Bool) (o : Out) : Out :=
  ⟨a.1 ++ o.bytes, a.2 ++ o.reads, flag || o.loopflg, o.cp1⟩

/-- `argv[k]`, or nothing when there are not so many arguments. -/
def arg (argc : ℕ) (argv : ℕ → Option Text) (k : ℕ) : Option (Text × List ℕ) :=
  if k < argc then (argv k).map (·, [k]) else some ([], [])

/-- `while (*cp1 != '\0')` -/
def expand (argc count : ℕ) (argv : ℕ → Option Text) : Text → Option Out
  | [] => none
  | c :: cp1 =>
    if c = 0 then some ⟨[], [], false, c :: cp1⟩
    else if c = 92 then
      match cp1 with
      | [] => none
      -- the NUL is stored as well
      | d :: cp1 =>
        if d = 0 then some ⟨[d], [], false, d :: cp1⟩
        else (expand argc count argv cp1).map (.put ([d], []) false)
    else if c = 36 ∧ cp1.head?.any isdigit then
      (number 0 (cp1.takeWhile isdigit)).bind fun j => (arg argc argv (j + 1)).bind fun a =>
        (expand argc count argv (cp1.dropWhile isdigit)).map (.put a false)
    else if c = 36 ∧ cp1.head? = some 105 then
      (arg argc argv count).bind fun a => (expand argc count argv cp1.tail).map (.put a true)
    else (expand argc count argv cp1).map (.put ([c], []) false)
termination_by l => l.length
decreasing_by
  · exact Nat.lt_add_of_pos_right Nat.two_pos
  · exact Nat.lt_succ_of_le (List.dropWhile_suffix _).length_le
  · rw [List.length_tail]
    exact Nat.lt_succ_of_le (Nat.sub_le _ _)
  · exact Nat.lt_succ_self _

theorem expand_suffix {argc count : ℕ} {argv : ℕ → Option Text} {l : Text} {o : Out}
    (h : expand argc count argv l = some o) : o.cp1 ≠ [] ∧ o.cp1 <:+ l := by
  fun_induction expand argc count argv l generalizing o with
  | case1 => cases h
  | case2 =>
    cases h
    exact ⟨cons_ne_nil _ _, suffix_refl _⟩
  | case3 => cases h
  | case4 =>
    cases h
    exact ⟨cons_ne_nil _ _, suffix_cons _ _⟩
  | case5 hc d cp1 hd ih =>
    obtain ⟨o', ho', rfl⟩ := Option.map_eq_some_iff.1 h
    obtain ⟨hne, hr⟩ := ih ho'
    exact ⟨hne, hr.trans ((suffix_cons _ _).trans (suffix_cons _ _))⟩
  | case6 c cp1 hc h92 hdigit ih =>
    obtain ⟨j, -, hj⟩ := Option.bind_eq_some_iff.1 h
    obtain ⟨a, -, ha⟩ := Option.bind_eq_some_iff.1 hj
    obtain ⟨o', ho', rfl⟩ := Option.map_eq_some_iff.1 ha
    obtain ⟨hne, hr⟩ := ih ho'
    exact ⟨hne, hr.trans ((dropWhile_suffix _).trans (suffix_cons _ _))⟩
  | case7 c cp1 hc h92 hdigit hi ih =>
    obtain ⟨a, -, ha⟩ := Option.bind_eq_some_iff.1 h
    obtain ⟨o', ho', rfl⟩ := Option.map_eq_some_iff.1 ha
    obtain ⟨hne, hr⟩ := ih ho'
    exact ⟨hne, hr.trans ((tail_suffix _).trans (suffix_cons _ _))⟩
  | case8 c cp1 hc h92 hdigit hi ih =>
    obtain ⟨o', ho', rfl⟩ := Option.map_eq_some_iff.1 h
    obtain ⟨hne, hr⟩ := ih ho'
    exact ⟨hne, hr.trans (suffix_cons _ _)⟩

/-! ### The loops -/

/-- A line that is executed, if it has a command, and the places of `argv` that were read for it,
each with the line whose words were there. -/
structure Command where
  text : Option Text
  reads : List (Text × ℕ)

/-- The words of `margv` are those of `parsed`. -/
structure State where
  line : Block Byte
  argc : ℕ
  globals : Globals
  loopflg : Bool
  parsed : Text
  executed : List Command

/-- What becomes of a command: it is ambiguous, or invalid, or needs a connection; or its handler
runs, and leaves `line` and the words so. -/
inductive Outcome
  | notRun
  | run (line : Block Byte) (globals : { g : Globals // Sized g })

/-- The string `argv[k]`, where `argv` is `margv`. -/
def argv (g : Globals) (k : ℕ) : Option Text := (fetch g.margv k).join.bind (pointed g.argbuf)

/-- Whether `return` has been met. -/
inductive Ended
  | returned (s : State)
  | going (s : State)

def Ended.state : Ended → State
  | .returned s => s
  | .going s => s

def next (e : Option Ended) (f : State → Option Ended) : Option Ended :=
  e.bind fun e =>
    match e with
    | .returned s => some (.returned s)
    | .going s => f s

/-- From `*cp2 = '\0'` on, with what the commands do. -/
def execute (env : ℕ → Outcome) (line2 : Text) (s : State) (o : Out) : Option Ended :=
  (fill s.line 0 (o.bytes ++ [0])).bind fun line =>
    let t := o.bytes.takeWhile (· ≠ 0)
    (makeargv t s.globals).bind fun g =>
      let made (text : Option Text) : State :=
        ⟨line, s.argc, g, s.loopflg || o.loopflg, t,
          s.executed ++ [⟨text, o.reads.map (s.parsed, ·)⟩]⟩
      match fetch g.margv 0 with
      | none => none
      | some none => some (.returned (made none))
      | some (some _) =>
        let s' := made (some t)
        match env s.executed.length with
        | .notRun => some (.going s')
        | .run line g =>
          (fill line 0 (line2 ++ [0])).bind fun line =>
            (makeargv line2 g).map fun g =>
              .going { s' with line := line, argc := g.margc, globals := g, parsed := line2 }

/-- `while (cp1 != macros[i].mac_end)`, where `mac_end` is the number of bytes of `macbuf` from
there on. -/
def pass (env : ℕ → Outcome) (line2 : Text) (mac_end count : ℕ) (s : State) (cp1 : Text) :
    Option Ended :=
  if cp1.length = mac_end then some (.going s)
  else
    match _ : expand s.argc count (argv s.globals) (cp1.dropWhile isspace) with
    | none => none
    | some o =>
      next (execute env line2 s o) fun s =>
        if o.cp1.length = mac_end then some (.going s)
        else pass env line2 mac_end count s o.cp1.tail
termination_by cp1.length
decreasing_by
  obtain ⟨hne, hr⟩ := expand_suffix ‹_›
  have hpos := List.length_pos_of_ne_nil hne
  have hle := (hr.trans (List.dropWhile_suffix _)).length_le
  rw [List.length_tail]
  omega

/-- `do … while (loopflg && ++count < argc)`; the number of passes is bounded. -/
def passes (env : ℕ → Outcome) (line2 mac_start : Text) (mac_end : ℕ) : ℕ → ℕ → State → Option Ended
  | 0, _, _ => none
  | fuel + 1, count, s =>
    next (pass env line2 mac_end count s mac_start) fun s =>
      if s.loopflg ∧ count + 1 < s.argc then passes env line2 mac_start mac_end fuel (count + 1) s
      else some (.going s)

/-- **`domacro`**, from where the macro has been found: the lines that are executed. -/
def domacro (env : ℕ → Outcome) (mac_start : Text) (mac_end : ℕ) (s : State) :
    Option (List Command) :=
  (string 0 s.line).bind fun line2 =>
    (fill (alloc 200 : Block Byte) 0 (line2 ++ [0])).bind fun _ =>
      (passes env line2 mac_start mac_end (s.argc + 1) 2 { s with loopflg := false }).map fun e =>
        e.state.executed

/-! ### What is to hold -/

/-- What a line is made of: characters, a backslash with nothing behind it, `$1` and `$i`. -/
inductive Piece
  | char (c : Byte)
  | quote
  | number (n : ℕ)
  | current
  deriving DecidableEq

def value (j : ℕ) (ds : Text) : ℕ := ds.foldl (fun j c => 10 * j + c.toNat - 48) j

def pieces : Text → List Piece
  | [] => []
  | c :: l =>
    if c = 92 then
      match l with
      | [] => [.quote]
      | d :: l => .char d :: pieces l
    else if c = 36 ∧ l.head?.any isdigit then
      .number (value 0 (l.takeWhile isdigit)) :: pieces (l.dropWhile isdigit)
    else if c = 36 ∧ l.head? = some 105 then .current :: pieces l.tail
    else .char c :: pieces l
termination_by l => l.length
decreasing_by
  · exact Nat.lt_add_of_pos_right Nat.two_pos
  · exact Nat.lt_succ_of_le (List.dropWhile_suffix _).length_le
  · rw [List.length_tail]
    exact Nat.lt_succ_of_le (Nat.sub_le _ _)
  · exact Nat.lt_succ_self _

/-- The place of `argv` that it names. -/
def Piece.place (count : ℕ) : Piece → Option ℕ
  | .number n => some (n + 1)
  | .current => some count
  | _ => none

/-- What it stands for, where `args` are the words of the line that calls the macro. -/
def Piece.text (args : List Text) (count : ℕ) : Piece → Text
  | .char c => [c]
  | .quote => []
  | .number n => args[n + 1]?.getD []
  | .current => args[count]?.getD []

/-- A line in the pass of `count`. -/
abbrev Item := ℕ × Line

def Item.pieces (i : Item) : List Piece := Domacro.pieces (i.2.1.dropWhile isspace)

def Item.text (args : List Text) (i : Item) : Text := i.pieces.flatMap (Piece.text args i.1)

/-- The places of `argv` that are read for it. -/
def Item.reads (argc : ℕ) (i : Item) : List ℕ :=
  (i.pieces.filterMap (Piece.place i.1)).filter (· < argc)

def taken (line : Text) : List Text := (parts line).1.toList.map ([·]) ++ leading (parts line).2

def items (argc : ℕ) (body : List Line) : List Item :=
  let counts :=
    if body.any fun l => .current ∈ (Item.pieces (0, l)) then List.range' 2 (max 1 (argc - 2))
    else [2]
  counts.flatMap fun count => body.map (count, ·)

/-- What is executed of lines: those with no word do nothing. -/
def nonblank (ts : List Text) : List Text := ts.filter fun t => argTexts t ≠ []

/-- A call of a macro: the line that calls it, and its words. -/
structure Call where
  line2 : Text
  line : Block Byte
  holds : string 0 line = some line2
  before : { g : Globals // Sized g }
  globals : Globals
  words : makeargv line2 before.1 = some globals

def Call.state (c : Call) : State := ⟨c.line, c.globals.margc, c.globals, false, c.line2, []⟩

def Call.args (c : Call) : List Text := taken c.line2

/-- The place of the end of a macro: the last NUL of its text. -/
def macEnd (body : List Line) (behind : Text) : ℕ :=
  if body = [] then behind.length else behind.length + 1

/-- The lines are executed, one behind the other, and only the arguments of the macro are read. -/
def Executes (env : ℕ → Outcome) (c : Call) (body : List Line) (behind : Text) : Prop :=
  ∃ cs, domacro env (Macros.text (body.map Subtype.val) ++ behind) (macEnd body behind) c.state =
    some cs ∧
    cs.filterMap Command.text = nonblank ((items c.args.length body).map (Item.text c.args)) ∧
    ∀ cmd ∈ cs, ∀ r ∈ cmd.reads, r.1 = c.line2 ∧ r.2 < c.args.length

/-- A line that is expanded as it should be: its numbers are small, `argv` has the words of `line2`
where it is read, and there is room for it in `line`, of which there are `size` bytes, and in
`margv` and `argbuf`. -/
structure Good (line2 : Text) (size : ℕ) (parsed : Text) (i : Item) : Prop where
  small : ∀ n, .number n ∈ i.pieces → n < 2147483600
  reads : i.reads (taken line2).length = [] ∨ parsed = line2
  room : (i.text (taken line2)).length + (if .quote ∈ i.pieces then 1 else 0) < size
  fits : Fits (i.text (taken line2))

/-- What the code needs of the lines of all passes and of the commands: behind a line with no word
there is no command, and a handler leaves room for `line2`. -/
def Proper (env : ℕ → Outcome) (line2 : Text) : ℕ → ℕ → Text → List Item → Prop
  | _, _, _, [] => True
  | k, size, parsed, i :: is =>
    let t := i.text (taken line2)
    Good line2 size parsed i ∧
      if argTexts t = [] then ∀ j ∈ is, argTexts (j.text (taken line2)) = []
      else
        (argTexts t).head? ≠ some [] ∧
          match env k with
          | .notRun => Proper env line2 (k + 1) size t is
          | .run line _ =>
            line2.length < line.length ∧ Proper env line2 (k + 1) line.length line2 is

/-! ### The pieces of a line -/

variable {c : Byte} {p : Byte → Bool} {argc count : ℕ} {ps : List Piece} {l line : Text}
  {args : List Text}

theorem isdigit_iff : isdigit c = true ↔ 48 ≤ c.toNat ∧ c.toNat ≤ 57 := by
  unfold isdigit
  rw [Bool.and_eq_true, decide_eq_true_iff, decide_eq_true_iff]
  rfl

theorem le_value {ds : Text} (hds : ∀ c ∈ ds, isdigit c = true) (j : ℕ) : j ≤ value j ds := by
  induction ds generalizing j with
  | nil => exact Nat.le_refl j
  | cons c ds ih =>
    have hle := ih (fun d hd => hds d (mem_cons_of_mem c hd)) (10 * j + c.toNat - 48)
    have hc := isdigit_iff.1 (hds c mem_cons_self)
    exact le_trans (by omega) hle

/-- **A number** fits into `int`, or has no result. -/
theorem number_eq {ds : Text} (hds : ∀ c ∈ ds, isdigit c = true) {j : ℕ} (hj : j < 2147483600) :
    number j ds = if value j ds < 2147483600 then some (value j ds) else none := by
  induction ds generalizing j with
  | nil => exact (if_pos hj).symm
  | cons c ds ih =>
    have hrest := fun d hd => hds d (mem_cons_of_mem c hd)
    have hvalue : value j (c :: ds) = value (10 * j + c.toNat - 48) ds := rfl
    rw [number, hvalue]
    by_cases hlt : 10 * j + c.toNat < 2 ^ 31
    · rw [if_pos hlt, ih hrest (by omega)]
    · have hle := le_value hrest (10 * j + c.toNat - 48)
      rw [if_neg hlt, if_neg (by omega)]

def Piece.fetch (argc count : ℕ) (argv : ℕ → Option Text) : Piece → Option (Text × List ℕ)
  | .char c => some ([c], [])
  | .quote => some ([0], [])
  | .number n => if n < 2147483600 then arg argc argv (n + 1) else none
  | .current => arg argc argv count

def out (ps : List Piece) (as : List (Text × List ℕ)) (cp1 : Text) : Out :=
  ⟨as.flatMap Prod.fst, as.flatMap Prod.snd, ps.contains .current, cp1⟩

theorem head?_nul (hp : p 0 = false) (l r : Text) : (l ++ 0 :: r).head?.any p = l.head?.any p := by
  cases l with
  | nil => exact hp
  | cons c l => rfl

theorem takeWhile_nul (hp : p 0 = false) (l r : Text) :
    (l ++ 0 :: r).takeWhile p = l.takeWhile p := by
  induction l with
  | nil => exact takeWhile_cons_of_neg (by rw [hp]; exact Bool.false_ne_true)
  | cons c l ih =>
    rw [cons_append]
    by_cases hc : p c = true
    · rw [takeWhile_cons_of_pos hc, takeWhile_cons_of_pos hc, ih]
    · rw [takeWhile_cons_of_neg hc, takeWhile_cons_of_neg hc]

theorem map_put {argv : ℕ → Option Text} {a : Option (Text × List ℕ)} {p : Piece} {r : Text}
    (ha : p.fetch argc count argv = a) :
    (a.bind fun a => ((ps.mapM (Piece.fetch argc count argv)).map fun as => out ps as r).map
        (.put a (decide (p = .current)))) =
      ((p :: ps).mapM (Piece.fetch argc count argv)).map fun as => out (p :: ps) as r := by
  rw [mapM_cons, ha]
  cases a with
  | none => rfl
  | some a =>
    cases ps.mapM (Piece.fetch argc count argv) with
    | none => rfl
    | some as =>
      show some (Out.mk (a.1 ++ as.flatMap Prod.fst) (a.2 ++ as.flatMap Prod.snd)
        (decide (p = .current) || ps.contains .current) r) = some (out (p :: ps) (a :: as) r)
      rw [out, flatMap_cons, flatMap_cons, contains_cons]
      cases p <;> rfl

theorem pieces_backslash (d : Byte) (l : Text) : pieces (92 :: d :: l) = .char d :: pieces l := by
  rw [pieces.eq_def]
  rfl

theorem pieces_digit (hc : c ≠ 92) (h : c = 36 ∧ l.head?.any isdigit) :
    pieces (c :: l) = .number (value 0 (l.takeWhile isdigit)) :: pieces (l.dropWhile isdigit) := by
  rw [pieces.eq_def]
  dsimp only
  rw [if_neg hc, if_pos h]

theorem pieces_current (hc : c ≠ 92) (h : ¬ (c = 36 ∧ l.head?.any isdigit))
    (hi : c = 36 ∧ l.head? = some 105) : pieces (c :: l) = .current :: pieces l.tail := by
  rw [pieces.eq_def]
  dsimp only
  rw [if_neg hc, if_neg h, if_pos hi]

theorem pieces_char (hc : c ≠ 92) (h : ¬ (c = 36 ∧ l.head?.any isdigit))
    (hi : ¬ (c = 36 ∧ l.head? = some 105)) : pieces (c :: l) = .char c :: pieces l := by
  rw [pieces.eq_def]
  dsimp only
  rw [if_neg hc, if_neg h, if_neg hi]

theorem expand_eq (argc count : ℕ) (argv : ℕ → Option Text) (h : 0 ∉ l) (r : Text) :
    expand argc count argv (l ++ 0 :: r) =
      ((pieces l).mapM (Piece.fetch argc count argv)).map fun as => out (pieces l) as (0 :: r) := by
  induction l using pieces.induct with
  | case1 =>
    rw [nil_append, expand.eq_def, pieces]
    rfl
  | case2 =>
    rw [singleton_append, expand.eq_def, pieces.eq_def]
    rfl
  | case3 d l ih =>
    rw [mem_cons, mem_cons, not_or, not_or] at h
    obtain ⟨-, hd, hl⟩ := h
    rw [pieces_backslash, ← map_put rfl, ← ih hl, cons_append, cons_append, expand.eq_def]
    dsimp only
    rw [if_neg (by decide), if_pos rfl, if_neg (Ne.symm hd)]
    rfl
  | case4 c l hc hdigit ih =>
    rw [mem_cons, not_or] at h
    have hdrop : 0 ∉ l.dropWhile isdigit := fun hm => h.2 ((dropWhile_suffix _).subset hm)
    rw [pieces_digit hc hdigit, ← map_put rfl, ← ih hdrop, cons_append, expand.eq_def]
    dsimp only
    rw [if_neg (Ne.symm h.1), if_neg hc, head?_nul rfl, if_pos hdigit, dropWhile_nul rfl,
      takeWhile_nul rfl, number_eq (fun d hd => mem_takeWhile_imp hd) (by omega), Piece.fetch]
    split_ifs
    · rfl
    · rfl
  | case5 c l hc hdigit hi ih =>
    rw [mem_cons, not_or] at h
    obtain ⟨hc36, hhead⟩ := hi
    obtain ⟨l, rfl⟩ : ∃ l', l = 105 :: l' := by
      rcases l with - | ⟨d, l⟩
      · cases hhead
      · cases hhead
        exact ⟨l, rfl⟩
    rw [tail_cons] at ih
    rw [pieces_current hc hdigit ⟨hc36, hhead⟩, tail_cons, ← map_put rfl,
      ← ih fun hm => h.2 (mem_cons_of_mem _ hm), cons_append, cons_append, expand.eq_def]
    have hdigit' : ¬ (c = 36 ∧ (105 :: (l ++ 0 :: r)).head?.any isdigit) := hdigit
    dsimp only
    rw [if_neg (Ne.symm h.1), if_neg hc, if_neg hdigit', if_pos ⟨hc36, rfl⟩]
    rfl
  | case6 c l hc hdigit hi ih =>
    rw [mem_cons, not_or] at h
    have hnext : ¬ (c = 36 ∧ (l ++ 0 :: r).head? = some 105) := by
      rintro ⟨hc36, hhead⟩
      rcases l with - | ⟨d, l⟩
      · cases hhead
      · exact hi ⟨hc36, hhead⟩
    rw [pieces_char hc hdigit hi, ← map_put rfl, ← ih h.2, cons_append, expand.eq_def]
    dsimp only
    rw [if_neg (Ne.symm h.1), if_neg hc, head?_nul rfl, if_neg hdigit, if_neg hnext]
    rfl

/-! ### What the pieces of a line give -/

theorem fetch_reads {argv : ℕ → Option Text} {p : Piece} {a : Text × List ℕ}
    (h : p.fetch argc count argv = some a) :
    a.2 = (p.place count).toList.filter (· < argc) ∧ ∀ n, p = .number n → n < 2147483600 := by
  have harg {k : ℕ} (hk : arg argc argv k = some a) : a.2 = [k].filter (· < argc) := by
    unfold arg at hk
    split_ifs at hk with hlt
    · obtain ⟨t, -, rfl⟩ := Option.map_eq_some_iff.1 hk
      simp [hlt]
    · cases hk
      simp [not_lt.1 hlt]
  cases p with
  | char c =>
    cases h
    exact ⟨rfl, nofun⟩
  | quote =>
    cases h
    exact ⟨rfl, nofun⟩
  | number n =>
    rw [Piece.fetch] at h
    split_ifs at h with hn
    exact ⟨harg h, fun m hm => by cases hm; exact hn⟩
  | current => exact ⟨harg h, nofun⟩

theorem mapM_reads {argv : ℕ → Option Text} {as : List (Text × List ℕ)}
    (h : ps.mapM (Piece.fetch argc count argv) = some as) :
    as.flatMap Prod.snd = (ps.filterMap (Piece.place count)).filter (· < argc) ∧
      ∀ n, .number n ∈ ps → n < 2147483600 := by
  induction ps generalizing as with
  | nil =>
    cases h
    exact ⟨rfl, fun n hn => absurd hn not_mem_nil⟩
  | cons p ps ih =>
    rw [mapM_cons] at h
    obtain ⟨a, ha, hrest⟩ := Option.bind_eq_some_iff.1 h
    obtain ⟨as', has', heq⟩ := Option.bind_eq_some_iff.1 hrest
    cases heq
    obtain ⟨hreads, hsmall⟩ := fetch_reads ha
    obtain ⟨hreads', hsmall'⟩ := ih has'
    constructor
    · rw [flatMap_cons, hreads, hreads', filterMap_cons]
      cases p.place count with
      | none => rfl
      | some k => rw [← filter_append]; rfl
    · rintro n (- | ⟨-, hn⟩)
      · exact hsmall n rfl
      · exact hsmall' n hn

def Piece.bytes (args : List Text) (count : ℕ) : Piece → Text
  | .quote => [0]
  | p => p.text args count

theorem arg_eq {argv : ℕ → Option Text} {k : ℕ} (h : k < args.length → argv k = args[k]?) :
    ∃ a, arg args.length argv k = some a ∧ a.1 = args[k]?.getD [] := by
  unfold arg
  split_ifs with hlt
  · rw [h hlt, getElem?_eq_getElem hlt]
    exact ⟨_, rfl, rfl⟩
  · rw [getElem?_eq_none (not_lt.1 hlt)]
    exact ⟨_, rfl, rfl⟩

theorem mapM_bytes {argv : ℕ → Option Text}
    (hargv : ∀ k ∈ (ps.filterMap (Piece.place count)).filter (· < args.length), argv k = args[k]?)
    (hsmall : ∀ n, .number n ∈ ps → n < 2147483600) :
    ∃ as, ps.mapM (Piece.fetch args.length count argv) = some as ∧
      as.flatMap Prod.fst = ps.flatMap (Piece.bytes args count) := by
  induction ps with
  | nil => exact ⟨[], rfl, rfl⟩
  | cons p ps ih =>
    have hread {k : ℕ} (hk : p.place count = some k) (hlt : k < args.length) :
        argv k = args[k]? := by
      refine hargv k (mem_filter.2 ⟨?_, by simpa using hlt⟩)
      exact mem_filterMap.2 ⟨p, mem_cons_self, hk⟩
    obtain ⟨as, has, hbytes⟩ := ih (fun k hk => by
      obtain ⟨hk, hlt⟩ := mem_filter.1 hk
      obtain ⟨q, hq, hplace⟩ := mem_filterMap.1 hk
      exact hargv k (mem_filter.2 ⟨mem_filterMap.2 ⟨q, mem_cons_of_mem p hq, hplace⟩, hlt⟩))
      fun n hn => hsmall n (mem_cons_of_mem p hn)
    obtain ⟨a, ha, htext⟩ :
      ∃ a, p.fetch args.length count argv = some a ∧ a.1 = p.bytes args count := by
      cases p with
      | char c => exact ⟨_, rfl, rfl⟩
      | quote => exact ⟨_, rfl, rfl⟩
      | number n =>
        rw [Piece.fetch, if_pos (hsmall n mem_cons_self)]
        exact arg_eq (hread rfl)
      | current => exact arg_eq (hread rfl)
    refine ⟨a :: as, ?_, ?_⟩
    · rw [mapM_cons, ha, has]
      rfl
    · rw [flatMap_cons, flatMap_cons, htext, hbytes]

theorem bytes_pieces (args : List Text) (count : ℕ) (l : Text) :
    (pieces l).flatMap (Piece.bytes args count) =
      (pieces l).flatMap (Piece.text args count) ++ (if .quote ∈ pieces l then [0] else []) := by
  have hcons {p : Piece} {ps : List Piece} (hp : p ≠ .quote)
      (ih : ps.flatMap (Piece.bytes args count) =
        ps.flatMap (Piece.text args count) ++ (if .quote ∈ ps then [0] else [])) :
      (p :: ps).flatMap (Piece.bytes args count) =
        (p :: ps).flatMap (Piece.text args count) ++ (if .quote ∈ p :: ps then [0] else []) := by
    have hmem : .quote ∈ p :: ps ↔ .quote ∈ ps := mem_cons.trans (or_iff_right (Ne.symm hp))
    have hbytes : p.bytes args count = p.text args count := by
      cases p with
      | quote => exact absurd rfl hp
      | _ => rfl
    rw [flatMap_cons, flatMap_cons, hbytes, ih, append_assoc, if_congr hmem rfl rfl]
  induction l using pieces.induct with
  | case1 =>
    rw [pieces]
    rfl
  | case2 =>
    rw [pieces.eq_def]
    rfl
  | case3 d l ih =>
    rw [pieces_backslash]
    exact hcons nofun ih
  | case4 c l hc hdigit ih =>
    rw [pieces_digit hc hdigit]
    exact hcons nofun ih
  | case5 c l hc hdigit hi ih =>
    rw [pieces_current hc hdigit hi]
    exact hcons nofun ih
  | case6 c l hc hdigit hi ih =>
    rw [pieces_char hc hdigit hi]
    exact hcons nofun ih

theorem char_mem (h : .char c ∈ pieces l) : c ∈ l := by
  induction l using pieces.induct with
  | case1 =>
    rw [pieces] at h
    exact absurd h not_mem_nil
  | case2 =>
    rw [pieces.eq_def] at h
    simp at h
  | case3 d l ih =>
    rw [pieces_backslash, mem_cons, Piece.char.injEq] at h
    rcases h with rfl | h
    · exact mem_cons_of_mem _ mem_cons_self
    · exact mem_cons_of_mem _ (mem_cons_of_mem _ (ih h))
  | case4 d l hc hdigit ih =>
    rw [pieces_digit hc hdigit, mem_cons] at h
    exact mem_cons_of_mem d ((dropWhile_suffix _).subset (ih (h.resolve_left nofun)))
  | case5 d l hc hdigit hi ih =>
    rw [pieces_current hc hdigit hi, mem_cons] at h
    exact mem_cons_of_mem d (mem_of_mem_tail (ih (h.resolve_left nofun)))
  | case6 d l hc hdigit hi ih =>
    rw [pieces_char hc hdigit hi, mem_cons, Piece.char.injEq] at h
    rcases h with rfl | h
    · exact mem_cons_self
    · exact mem_cons_of_mem d (ih h)

theorem text_noNul (hargs : ∀ t ∈ args, (0 : Byte) ∉ t) (i : Item) : 0 ∉ i.text args := by
  intro h
  obtain ⟨p, hp, h0⟩ := mem_flatMap.1 h
  have hget (k : ℕ) (hk : 0 ∈ args[k]?.getD []) : False := by
    rcases hget : args[k]? with - | t
    · rw [hget] at hk
      exact absurd hk not_mem_nil
    · rw [hget] at hk
      exact hargs t (mem_of_getElem? hget) hk
  cases p with
  | char c =>
    obtain rfl := mem_singleton.1 h0
    exact i.2.2.2 ((dropWhile_suffix _).subset (char_mem hp))
  | quote => exact absurd h0 not_mem_nil
  | number n => exact hget _ h0
  | current => exact hget _ h0

/-! ### The words that are there -/

variable {α : Type*}

theorem fetch_untilNull {b : Block (Option α)} {ps : List α} (h : untilNull b = some ps) {k : ℕ}
    (hk : k ≤ ps.length) : fetch b k = some ps[k]? := by
  obtain ⟨r, rfl⟩ := untilNull_iff.1 h
  unfold fetch
  rcases Nat.lt_or_eq_of_le hk with hlt | rfl
  · rw [getElem?_append_left (by rwa [length_map, length_map]), getElem?_map, getElem?_map,
      getElem?_eq_getElem hlt]
    rfl
  · rw [getElem?_append_right (by rw [length_map, length_map]), length_map, length_map,
      Nat.sub_self, getElem?_eq_none le_rfl]
    rfl

theorem makeargv_taken {g : Globals} (hline : 0 ∉ line) (hg : Sized g) (h : Fits line) :
    ∃ g', makeargv line g = some g' ∧ Sized g' ∧ g'.margc = (taken line).length ∧
      (∀ k < (taken line).length, argv g' k = (taken line)[k]?) ∧
      ∃ p, fetch g'.margv 0 = some p ∧ (p = none ↔ taken line = []) := by
  obtain ⟨g', hg', hsized, hstrings, hmargc⟩ := makeargv_some hline hg h
  obtain ⟨ps, hps, hmap⟩ := Option.bind_eq_some_iff.1 hstrings
  obtain ⟨hlen, hget⟩ := mapM_getElem? hmap
  refine ⟨g', hg', hsized, ?_, fun k hk => ?_, ps[0]?, fetch_untilNull hps (Nat.zero_le _), ?_⟩
  · rw [hmargc, length_argPointers, taken, length_append, length_map]
  · unfold argv
    rw [fetch_untilNull hps (hlen ▸ Nat.le_of_lt hk)]
    exact hget k
  · rw [getElem?_eq_none_iff, Nat.le_zero, ← hlen, length_eq_zero_iff]
    rfl

theorem taken_noNul (h : 0 ∉ line) : ∀ t ∈ taken line, (0 : Byte) ∉ t := by
  intro t ht
  rcases mem_append.1 ht with ht | ht
  · obtain ⟨c, hc, rfl⟩ := mem_map.1 ht
    rcases line with - | ⟨d, l⟩
    · cases hc
    · unfold parts at hc
      dsimp only at hc
      split_ifs at hc with hspecial
      · obtain rfl : c = d := by simpa using hc
        rw [mem_singleton]
        rintro rfl
        exact absurd hspecial (by decide)
      · cases hc
  · obtain ⟨w, hw, rfl⟩ := mem_map.1 ((takeWhile_sublist _).subset ht)
    exact parts_noNul h w hw

theorem taken_eq_nil : taken line = [] ↔ argTexts line = [] ∨ (argTexts line).head? = some [] := by
  unfold taken argTexts leading
  rcases (parts line).1 with - | c
  · rcases (parts line).2 with - | ⟨w, ws⟩
    · simp
    · by_cases hw : w.text = []
      · simp [hw]
      · simp [hw]
  · simp

/-! ### A line of a macro -/

def lineStep (env : ℕ → Outcome) (line2 : Text) (s : State) (i : Item) : Option Ended :=
  (i.pieces.mapM (Piece.fetch s.argc i.1 (argv s.globals))).bind fun as =>
    execute env line2 s (out i.pieces as [])

structure Ready (line2 : Text) (s : State) : Prop where
  sized : Sized s.globals
  argc : s.argc = (taken line2).length
  argv : s.parsed = line2 → ∀ k < (taken line2).length, argv s.globals k = (taken line2)[k]?

section

variable {env : ℕ → Outcome} {line2 : Text} {s : State} {i : Item}

/-- The line that is recorded, and what it adds to `loopflg`. -/
structure Records (s : State) (i : Item) (t : Option Text) (s' : State) : Prop where
  executed : s'.executed = s.executed ++ [⟨t, (i.reads s.argc).map (s.parsed, ·)⟩]
  loopflg : s'.loopflg = (s.loopflg || i.pieces.contains .current)

theorem takeWhile_nonNul {t r : Text} (h : 0 ∉ t) : (t ++ 0 :: r).takeWhile (· ≠ 0) = t := by
  rw [takeWhile_append_of_pos fun c hc => by
    rw [decide_eq_true_iff]
    rintro rfl
    exact h hc, takeWhile_cons_of_neg (by simp), append_nil]

theorem fill_front {b : Block α} {l : List α} (h : l.length ≤ b.length) :
    ∃ b', fill b 0 l = some b' ∧ b'.length = b.length := by
  rw [fill_eq (Nat.zero_le _), Nat.zero_add, if_pos h]
  refine ⟨_, rfl, ?_⟩
  rw [take_zero, nil_append, length_append, length_map, length_drop]
  omega

theorem fill_front_none {b : Block α} {l : List α} (h : b.length < l.length) :
    fill b 0 l = none := by
  rw [fill_eq (Nat.zero_le _), Nat.zero_add, if_neg (Nat.not_le_of_lt h)]

theorem bytes_eq (hline2 : 0 ∉ line2) (h : Ready line2 s)
    (hsmall : ∀ n, .number n ∈ i.pieces → n < 2147483600)
    (hreads : i.reads (taken line2).length = [] ∨ s.parsed = line2) :
    ∃ as, i.pieces.mapM (Piece.fetch s.argc i.1 (argv s.globals)) = some as ∧
      (out i.pieces as []).bytes.length =
        (i.text (taken line2)).length + (if .quote ∈ i.pieces then 1 else 0) ∧
      (out i.pieces as []).bytes.takeWhile (· ≠ 0) = i.text (taken line2) := by
  have hargv : ∀ k ∈ i.reads (taken line2).length, argv s.globals k = (taken line2)[k]? := by
    intro k hk
    rcases hreads with hnil | hparsed
    · rw [hnil] at hk
      exact absurd hk not_mem_nil
    · exact h.argv hparsed k (of_decide_eq_true (mem_filter.1 hk).2)
  obtain ⟨as, has, hbytes⟩ := mapM_bytes hargv hsmall
  have hnul := text_noNul (taken_noNul hline2) i
  have hall : (out i.pieces as []).bytes =
      i.text (taken line2) ++ (if .quote ∈ i.pieces then [0] else []) :=
        hbytes.trans (bytes_pieces _ _ _)
  rw [h.argc]
  refine ⟨as, has, ?_, ?_⟩
  · rw [hall, length_append, apply_ite List.length]
    rfl
  · rw [hall]
    split_ifs
    · exact takeWhile_nonNul hnul
    · rw [append_nil, takeWhile_eq_self_iff]
      intro c hc
      rw [decide_eq_true_iff]
      rintro rfl
      exact hnul hc

/-- Behind `makeargv`, for a line that gives `t`. -/
def State.recorded (s : State) (i : Item) (t : Text) (line : Block Byte) (g : Globals)
    (text : Option Text) : State :=
  ⟨line, s.argc, g, s.loopflg || i.pieces.contains .current, t,
    s.executed ++ [⟨text, (i.reads s.argc).map (s.parsed, ·)⟩]⟩

theorem records_recorded (s : State) (i : Item) (t : Text) (line : Block Byte) (g : Globals)
    (text : Option Text) :
    Records s i text (s.recorded i t line g text) := ⟨rfl, rfl⟩

variable (env) in
theorem lineStep_eq (hline2 : 0 ∉ line2) (h : Ready line2 s)
    (hgood : Good line2 s.line.length s.parsed i) :
    ∃ (line : Block Byte) (g : Globals) (p : Option Ptr), line.length = s.line.length ∧ Sized g ∧
      (∀ k < (taken (i.text (taken line2))).length, argv g k = (taken (i.text (taken line2)))[k]?) ∧
      (p = none ↔ taken (i.text (taken line2)) = []) ∧
      lineStep env line2 s i =
        match p with
        | none => some (.returned (s.recorded i (i.text (taken line2)) line g none))
        | some _ =>
          match env s.executed.length with
          | .notRun =>
            some (.going (s.recorded i (i.text (taken line2)) line g (some (i.text (taken line2)))))
          | .run line' g' =>
            (fill line' 0 (line2 ++ [0])).bind fun line' => (makeargv line2 g').map fun g' :
              Globals => .going
              { s.recorded i (i.text (taken line2)) line g (some (i.text (taken line2))) with
                line := line', argc := g'.margc, globals := g', parsed := line2 } := by
  obtain ⟨as, has, hlen, htext⟩ := bytes_eq hline2 h hgood.small hgood.reads
  have hroom := hgood.room
  rw [← hlen] at hroom
  obtain ⟨g, hg, hsized, -, hargv, p, hp, hnone⟩ :=
    makeargv_taken (text_noNul (taken_noNul hline2) i) h.sized hgood.fits
  obtain ⟨line, hline, hsame⟩ :=
    fill_front (b := s.line) (l := (out i.pieces as []).bytes ++ [0]) (by
    rw [length_append]
    exact hroom)
  refine ⟨line, g, p, hsame, hsized, hargv, hnone, ?_⟩
  have hreads : i.reads s.argc = (out i.pieces as []).reads := (mapM_reads has).1.symm
  unfold lineStep execute State.recorded
  rw [has, Option.bind_some, hline, Option.bind_some]
  dsimp only
  rw [htext, hg, Option.bind_some, hp, hreads]
  cases p <;> rfl

variable (env) in
/-- **A line that is expanded as it should be**, where there is no first word. -/
theorem lineStep_returned (hline2 : 0 ∉ line2) (h : Ready line2 s)
    (hgood : Good line2 s.line.length s.parsed i) (ht : taken (i.text (taken line2)) = []) :
    ∃ s', lineStep env line2 s i = some (.returned s') ∧ Records s i none s' := by
  obtain ⟨line, g, p, -, -, -, hnone, hstep⟩ := lineStep_eq env hline2 h hgood
  obtain rfl := hnone.2 ht
  exact ⟨_, hstep, records_recorded s i _ line g _⟩

variable (env) in
/-- **A line that is expanded as it should be**, and its command. -/
theorem lineStep_going (hline2 : 0 ∉ line2) (hfits : Fits line2) (h : Ready line2 s)
    (hgood : Good line2 s.line.length s.parsed i) (ht : taken (i.text (taken line2)) ≠ []) :
    match env s.executed.length with
    | .notRun =>
      ∃ s', lineStep env line2 s i = some (.going s') ∧
        Records s i (some (i.text (taken line2))) s' ∧
        Ready line2 s' ∧ s'.line.length = s.line.length ∧ s'.parsed = i.text (taken line2)
    | .run line _ =>
      if line2.length < line.length then
        ∃ s', lineStep env line2 s i = some (.going s') ∧
        Records s i (some (i.text (taken line2))) s' ∧
          Ready line2 s' ∧ s'.line.length = line.length ∧ s'.parsed = line2
      else lineStep env line2 s i = none := by
  obtain ⟨line, g, p, hlen, hsized, hargv, hnone, hstep⟩ := lineStep_eq env hline2 h hgood
  obtain ⟨p, rfl⟩ := Option.ne_none_iff_exists'.1 fun hp => ht (hnone.1 hp)
  rcases henv : env s.executed.length with - | ⟨line', g', hg'⟩
  · rw [henv] at hstep
    refine ⟨_, hstep, records_recorded s i _ line g _, ⟨hsized, h.argc, ?_⟩, hlen, rfl⟩
    intro hparsed k hk
    have hsame : i.text (taken line2) = line2 := hparsed
    rw [hsame] at hargv
    exact hargv k hk
  · obtain ⟨g2, hg2, hsized2, hmargc2, hargv2, -⟩ := makeargv_taken hline2 hg' hfits
    have hlen2 : (line2 ++ [0]).length = line2.length + 1 := length_append
    rw [henv] at hstep
    dsimp only at hstep ⊢
    split_ifs with hlt
    · obtain ⟨line2', hline2', hlen2'⟩ :=
        fill_front (hlen2 ▸ hlt : (line2 ++ [0]).length ≤ line'.length)
      rw [hline2', Option.bind_some, hg2] at hstep
      exact ⟨_, hstep, ⟨rfl, rfl⟩, ⟨hsized2, hmargc2, fun _ => hargv2⟩, hlen2', rfl⟩
    · rw [hstep, fill_front_none (by omega), Option.bind_none]

theorem zero_not_mem_takeWhile (l : Text) : 0 ∉ l.takeWhile (· ≠ 0) := fun h =>
  absurd (mem_takeWhile_imp h) (by simp)

/-- **A line that has a result** is recorded, and where it reads the words of `line2`, it is
expanded as it should be. -/
theorem lineStep_some (hline2 : 0 ∉ line2) (h : Ready line2 s) {e : Ended}
    (he : lineStep env line2 s i = some e) :
    (∃ t, Records s i t e.state) ∧ (∀ s', e = .going s' → Ready line2 s') ∧
      (i.reads s.argc = [] ∨ s.parsed = line2 → Good line2 s.line.length s.parsed i) := by
  obtain ⟨as, has, hexec⟩ := Option.bind_eq_some_iff.1 he
  obtain ⟨line, hline, hrest⟩ := Option.bind_eq_some_iff.1 hexec
  obtain ⟨g, hg, hends⟩ := Option.bind_eq_some_iff.1 hrest
  obtain ⟨hreads, hsmall⟩ := mapM_reads has
  have hrecords {s' : State} {t : Option Text}
      (hexecuted : s'.executed = s.executed ++ [⟨t, (out i.pieces as []).reads.map (s.parsed, ·)⟩])
      (hflag : s'.loopflg = (s.loopflg || i.pieces.contains .current)) : Records s i t s' := by
    refine ⟨?_, hflag⟩
    rw [hexecuted, Item.reads, ← hreads]
    rfl
  obtain ⟨g', hg', hsized, -, hargv, -⟩ :=
    makeargv_taken (zero_not_mem_takeWhile _) h.sized (fits_of_some h.sized hg)
  obtain rfl : g = g' := Option.some.inj (hg.symm.trans hg')
  refine ⟨?_, ?_, fun hread => ?_⟩
  · dsimp only at hends
    split at hends
    · cases hends
    · cases hends
      exact ⟨_, hrecords rfl rfl⟩
    · split at hends
      · cases hends
        exact ⟨_, hrecords rfl rfl⟩
      · obtain ⟨line', -, hmap⟩ := Option.bind_eq_some_iff.1 hends
        obtain ⟨g', -, rfl⟩ := Option.map_eq_some_iff.1 hmap
        exact ⟨_, hrecords rfl rfl⟩
  · rintro s' rfl
    split at hends
    · cases hends
    · cases hends
    · split at hends
      · cases hends
        refine ⟨hsized, h.argc, fun hparsed k hk => ?_⟩
        dsimp only at hparsed ⊢
        rw [hparsed] at hargv
        exact hargv k hk
      · rename_i g2 _
        obtain ⟨line', -, hmap⟩ := Option.bind_eq_some_iff.1 hends
        obtain ⟨g3, hg3, heq⟩ := Option.map_eq_some_iff.1 hmap
        cases heq
        obtain ⟨g4, hg4, hsized4, hmargc4, hargv4, -⟩ :=
          makeargv_taken hline2 g2.2 (fits_of_some g2.2 hg3)
        obtain rfl : g3 = g4 := Option.some.inj (hg3.symm.trans hg4)
        exact ⟨hsized4, hmargc4, fun _ => hargv4⟩
  · rw [h.argc] at hread
    obtain ⟨as', has', hlen, htext⟩ := bytes_eq hline2 h hsmall hread
    obtain rfl : as = as' := Option.some.inj (has.symm.trans has')
    refine ⟨hsmall, hread, ?_, ?_⟩
    · rw [← hlen]
      by_contra hge
      rw [fill_front_none (by rw [length_append, length_singleton]; omega)] at hline
      cases hline
    · rw [← htext]
      exact fits_of_some h.sized hg

end

/-! ### The lines of all passes -/

def runItems (env : ℕ → Outcome) (line2 : Text) : List Item → State → Option Ended
  | [], s => some (.going s)
  | i :: is, s => next (lineStep env line2 s i) (runItems env line2 is)

section

variable {env : ℕ → Outcome} {line2 : Text}

theorem runItems_append (is is' : List Item) (s : State) :
    runItems env line2 (is ++ is') s = next (runItems env line2 is s) (runItems env line2 is') := by
  induction is generalizing s with
  | nil => rfl
  | cons i is ih =>
    rw [cons_append, runItems, runItems]
    rcases lineStep env line2 s i with - | ⟨s' | s'⟩
    · rfl
    · rfl
    · exact ih s'

variable {is : List Item}

theorem runItems_some (hline2 : 0 ∉ line2) {s : State} (h : Ready line2 s) {e : Ended}
    (he : runItems env line2 is s = some e) :
    (∃ cs, e.state.executed = s.executed ++ cs) ∧ ∀ s', e = .going s' →
      Ready line2 s' ∧ s'.loopflg = (s.loopflg || is.any fun i => i.pieces.contains .current) := by
  induction is generalizing s with
  | nil =>
    cases he
    refine ⟨⟨[], (append_nil _).symm⟩, fun s' hs' => ?_⟩
    cases hs'
    exact ⟨h, (Bool.or_false _).symm⟩
  | cons i is ih =>
    rw [runItems] at he
    rcases hstep : lineStep env line2 s i with - | ⟨s1 | s1⟩
    · rw [hstep] at he
      cases he
    · rw [hstep] at he
      cases he
      obtain ⟨⟨t, hrec⟩, -, -⟩ := lineStep_some hline2 h hstep
      exact ⟨⟨_, hrec.executed⟩, nofun⟩
    · rw [hstep] at he
      obtain ⟨⟨t, hrec⟩, hready, -⟩ := lineStep_some hline2 h hstep
      obtain ⟨⟨cs, hcs⟩, hgoing⟩ := ih (hready s1 rfl) he
      refine ⟨⟨⟨t, (i.reads s.argc).map (s.parsed, ·)⟩ :: cs, ?_⟩, fun s' hs' => ?_⟩
      · rw [hcs, show s1.executed = _ from hrec.executed, append_assoc]
        rfl
      · obtain ⟨hready', hflag⟩ := hgoing s' hs'
        refine ⟨hready', ?_⟩
        rw [hflag, show s1.loopflg = _ from hrec.loopflg, any_cons, Bool.or_assoc]

/-- What is recorded for lines that are executed, and that read the arguments of the macro only. -/
def Traced (line2 : Text) (cs : List Command) (is : List Item) : Prop :=
  cs.filterMap Command.text = nonblank (is.map (Item.text (taken line2))) ∧
    ∀ cmd ∈ cs, ∀ r ∈ cmd.reads, r.1 = line2 ∧ r.2 < (taken line2).length

theorem nonblank_cons_pos {t : Text} (h : argTexts t ≠ []) (ts : List Text) :
    nonblank (t :: ts) = t :: nonblank ts :=
  filter_cons_of_pos (by simpa using h)

theorem nonblank_eq_nil {ts : List Text} : nonblank ts = [] ↔ ∀ t ∈ ts, argTexts t = [] := by
  simp [nonblank]

theorem reads_iff {s : State} {i : Item} (h : Ready line2 s) :
    (∀ r ∈ (i.reads s.argc).map (s.parsed, ·), r.1 = line2 ∧ r.2 < (taken line2).length) ↔
      (i.reads s.argc = [] ∨ s.parsed = line2) := by
  rw [forall_mem_map]
  constructor
  · intro hall
    rcases hreads : i.reads s.argc with - | ⟨k, ks⟩
    · exact .inl rfl
    · exact .inr (hall k (hreads ▸ mem_cons_self)).1
  · rintro (hnil | hparsed) k hk
    · rw [hnil] at hk
      exact absurd hk not_mem_nil
    · exact ⟨hparsed, h.argc ▸ of_decide_eq_true (mem_filter.1 hk).2⟩

theorem runItems_cons (hline2 : 0 ∉ line2) {i : Item} {s : State} (h : Ready line2 s) {e : Ended}
    {cs : List Command} (he : runItems env line2 (i :: is) s = some e)
    (hcs : e.state.executed = s.executed ++ cs) :
    ∃ e1 t cs', lineStep env line2 s i = some e1 ∧
    cs = ⟨t, (i.reads s.argc).map (s.parsed, ·)⟩ :: cs' := by
  rw [runItems] at he
  rcases hstep : lineStep env line2 s i with - | e1
  · rw [hstep] at he
    cases he
  · rw [hstep] at he
    obtain ⟨⟨t, hrec⟩, hready, -⟩ := lineStep_some hline2 h hstep
    obtain ⟨cs', hcs'⟩ : ∃ cs', e.state.executed = e1.state.executed ++ cs' := by
      cases e1 with
      | returned s1 =>
        cases he
        exact ⟨[], (append_nil _).symm⟩
      | going s1 => exact (runItems_some hline2 (hready s1 rfl) he).1
    rw [hcs', hrec.executed, append_assoc, append_cancel_left_eq] at hcs
    exact ⟨e1, t, cs', rfl, hcs.symm⟩

theorem traced_cons (hline2 : 0 ∉ line2) {i : Item} {s s' : State} (h : Ready line2 s)
    (h' : Ready line2 s') (hrec : Records s i (some (i.text (taken line2))) s')
    (ht : argTexts (i.text (taken line2)) ≠ []) (hreads : i.reads s.argc = [] ∨ s.parsed = line2) :
    (∃ e cs, runItems env line2 is s' = some e ∧ e.state.executed = s.executed ++ cs ∧
      Traced line2 cs (i :: is)) ↔
      ∃ e cs, runItems env line2 is s' = some e ∧ e.state.executed = s'.executed ++ cs ∧
      Traced line2 cs is := by
  have hcons (cs : List Command) :
      Traced line2
      (⟨some (i.text (taken line2)), (i.reads s.argc).map (s.parsed, ·)⟩ :: cs) (i :: is) ↔
        Traced line2 cs is := by
    unfold Traced
    rw [filterMap_cons, map_cons, nonblank_cons_pos ht, forall_mem_cons,
      and_iff_right ((reads_iff h).2 hreads)]
    exact and_congr_left fun _ => cons_inj_right _
  constructor
  · rintro ⟨e, cs, he, hcs, htraced⟩
    obtain ⟨cs', hcs'⟩ := (runItems_some hline2 h' he).1
    refine ⟨e, cs', he, hcs', ?_⟩
    rw [hcs', hrec.executed, append_assoc, append_cancel_left_eq] at hcs
    rw [← hcs] at htraced
    exact (hcons cs').1 htraced
  · rintro ⟨e, cs, he, hcs, htraced⟩
    refine ⟨e, _, he, ?_, (hcons cs).2 htraced⟩
    rw [hcs, hrec.executed, append_assoc]
    rfl

theorem traced_returned {i : Item} {s s' : State} (h : Ready line2 s) (hrec : Records s i none s')
    (hreads : i.reads s.argc = [] ∨ s.parsed = line2) :
    (∃ e cs, some (Ended.returned s') = some e ∧ e.state.executed = s.executed ++ cs ∧
      Traced line2 cs (i :: is)) ↔
      argTexts (i.text (taken line2)) = [] ∧ ∀ j ∈ is, argTexts (j.text (taken line2)) = [] := by
  have hall : nonblank ((i :: is).map (Item.text (taken line2))) = [] ↔
      argTexts (i.text (taken line2)) = [] ∧ ∀ j ∈ is, argTexts (j.text (taken line2)) = [] := by
    rw [nonblank_eq_nil, forall_mem_map, forall_mem_cons]
  rw [← hall]
  constructor
  · rintro ⟨e, cs, he, hcs, htexts, -⟩
    cases he
    rw [Ended.state, hrec.executed, append_cancel_left_eq] at hcs
    rw [← htexts, ← hcs]
    rfl
  · intro hnil
    exact ⟨_, _, rfl, hrec.executed, hnil.symm, forall_mem_singleton.2 ((reads_iff h).2 hreads)⟩

variable (env) in
/-- **The lines of all passes** are executed, just in case they are as the code needs them. -/
theorem runItems_iff (hline2 : 0 ∉ line2) (hfits : Fits line2) (is : List Item) {s : State}
    (h : Ready line2 s) :
    (∃ e cs, runItems env line2 is s = some e ∧ e.state.executed = s.executed ++ cs ∧
      Traced line2 cs is) ↔
      Proper env line2 s.executed.length s.line.length s.parsed is := by
  induction is generalizing s with
  | nil => exact iff_of_true ⟨_, [], rfl, (append_nil _).symm, rfl, nofun⟩ trivial
  | cons i is ih =>
    by_cases hgood : Good line2 s.line.length s.parsed i
    · have hreads : i.reads s.argc = [] ∨ s.parsed = line2 := h.argc ▸ hgood.reads
      rw [runItems, Proper]
      rw [and_iff_right hgood]
      by_cases htaken : taken (i.text (taken line2)) = []
      · obtain ⟨s', hstep, hrec⟩ := lineStep_returned env hline2 h hgood htaken
        rw [hstep]
        refine (traced_returned h hrec hreads).trans ?_
        split_ifs with ht
        · exact and_iff_right ht
        · have hhead := (taken_eq_nil.1 htaken).resolve_left ht
          exact iff_of_false (fun hboth => ht hboth.1) fun hboth => hboth.1 hhead
      · have ht : argTexts (i.text (taken line2)) ≠ [] :=
          fun ht => htaken (taken_eq_nil.2 (.inl ht))
        have hhead : (argTexts (i.text (taken line2))).head? ≠ some [] := fun hhead =>
          htaken (taken_eq_nil.2 (.inr hhead))
        have hgoing := lineStep_going env hline2 hfits h hgood htaken
        rw [if_neg ht, and_iff_right hhead]
        have hrest {s' : State} {k : ℕ} {p : Text}
          (hstep : lineStep env line2 s i = some (.going s'))
            (hrec : Records s i (some (i.text (taken line2))) s') (h' : Ready line2 s')
              (hlen : s'.line.length = k)
            (hparsed : s'.parsed = p) :
            (∃ e cs, next (lineStep env line2 s i) (runItems env line2 is) = some e ∧
                e.state.executed = s.executed ++ cs ∧ Traced line2 cs (i :: is)) ↔
              Proper env line2 (s.executed.length + 1) k p is := by
          have hcount : s'.executed.length = s.executed.length + 1 := by
            rw [hrec.executed, length_append]
            rfl
          rw [hstep, ← hlen, ← hparsed, ← hcount, ← ih h']
          exact traced_cons hline2 h h' hrec ht hreads
        rcases henv : env s.executed.length with - | ⟨line, g⟩
        · rw [henv] at hgoing
          obtain ⟨s', hstep, hrec, h', hlen, hparsed⟩ := hgoing
          exact hrest hstep hrec h' hlen hparsed
        · rw [henv] at hgoing
          dsimp only at hgoing ⊢
          split_ifs at hgoing with hlt
          · obtain ⟨s', hstep, hrec, h', hlen, hparsed⟩ := hgoing
            rw [and_iff_right hlt]
            exact hrest hstep hrec h' hlen hparsed
          · rw [hgoing]
            refine iff_of_false ?_ fun hboth => hlt hboth.1
            rintro ⟨e, cs, he, -⟩
            cases he
    · refine iff_of_false ?_ fun hproper => hgood hproper.1
      rintro ⟨e, cs, he, hcs, -, hreads⟩
      obtain ⟨e1, t, cs', hstep, rfl⟩ := runItems_cons hline2 h he hcs
      exact hgood ((lineStep_some hline2 h hstep).2.2 ((reads_iff h).1 (hreads _ mem_cons_self)))

/-! ### The passes -/

theorem next_going (e : Option Ended) : next e (fun s => some (.going s)) = e := by
  rcases e with - | ⟨s | s⟩ <;> rfl

theorem next_congr {e : Option Ended} {f g : State → Option Ended}
    (h : ∀ s, e = some (.going s) → f s = g s) :
    next e f = next e g := by
  rcases e with - | ⟨s | s⟩
  · rfl
  · rfl
  · exact h s rfl

theorem next_bind (x : Option α) (f : α → Option Ended) (g : State → Option Ended) :
    next (x.bind f) g = x.bind fun a => next (f a) g := by
  cases x <;> rfl

theorem pass_bind (mac_end count : ℕ) (s : State) (cp1 : Text) :
    pass env line2 mac_end count s cp1 =
      if cp1.length = mac_end then some (.going s)
      else (expand s.argc count (argv s.globals) (cp1.dropWhile isspace)).bind fun o =>
        next (execute env line2 s o) fun s =>
          if o.cp1.length = mac_end then some (.going s)
          else pass env line2 mac_end count s o.cp1.tail := by
  rw [pass.eq_def]
  refine if_congr Iff.rfl rfl ?_
  split <;> rename_i heq
  · rw [heq]
    rfl
  · rw [heq]
    rfl

theorem text_cons (l : Line) (ls : List Line) (behind : Text) :
    Macros.text ((l :: ls).map Subtype.val) ++ behind =
      l.1 ++ 0 :: (Macros.text (ls.map Subtype.val) ++ behind) := by
  rw [map_cons, Macros.text, flatMap_cons, append_assoc, append_assoc]
  rfl

theorem pass_eq {body : List Line} (hbody : body ≠ []) (behind : Text) (count : ℕ) (s : State) :
    pass env line2 (behind.length + 1) count s (Macros.text (body.map Subtype.val) ++ behind) =
      runItems env line2 (body.map (count, ·)) s := by
  induction body generalizing s with
  | nil => exact absurd rfl hbody
  | cons l ls ih =>
    have hpos := length_pos_of_ne_nil l.2.1
    have hlong :
        (l.1 ++ 0 :: (Macros.text (ls.map Subtype.val) ++ behind)).length ≠ behind.length + 1 := by
      rw [length_append, length_cons, length_append]
      omega
    have hdrop : 0 ∉ l.1.dropWhile isspace := fun hm => l.2.2 ((dropWhile_suffix _).subset hm)
    rw [text_cons, pass_bind, if_neg hlong, dropWhile_nul rfl, expand_eq _ _ _ hdrop,
      Option.bind_map, map_cons, runItems, lineStep, next_bind]
    refine Option.bind_congr fun as _ => next_congr fun s' _ => ?_
    show (if (0 :: (Macros.text (ls.map Subtype.val) ++ behind)).length = behind.length + 1 then
      some (Ended.going s')
      else pass env line2 (behind.length + 1) count s'
      (Macros.text (ls.map Subtype.val) ++ behind)) = _
    rcases ls with - | ⟨l', ls⟩
    · exact if_pos rfl
    · rw [if_neg ?_, ih (cons_ne_nil _ _)]
      rw [text_cons, length_cons, length_append, length_cons, length_append]
      omega

theorem pass_body (body : List Line) (behind : Text) (count : ℕ) (s : State) :
    pass env line2 (macEnd body behind) count s (Macros.text (body.map Subtype.val) ++ behind) =
      runItems env line2 (body.map (count, ·)) s := by
  unfold macEnd
  split_ifs with hbody
  · subst hbody
    rw [pass_bind]
    exact if_pos rfl
  · exact pass_eq hbody behind count s

/-- The passes from `count` on. -/
def itemsFrom (again : Bool) (argc count : ℕ) (body : List Line) : List Item :=
  (if again then List.range' count (max 1 (argc - count)) else [count]).flatMap fun count =>
    body.map (count, ·)

theorem itemsFrom_of_lt (h : count + 1 < argc) (body : List Line) :
    itemsFrom true argc count body =
    body.map (count, ·) ++ itemsFrom true argc (count + 1) body := by
  have hrange : List.range' count (max 1 (argc - count)) =
      count :: List.range' (count + 1) (max 1 (argc - (count + 1))) := by
    rw [show max 1 (argc - count) = max 1 (argc - (count + 1)) + 1 by omega, range'_succ]
  unfold itemsFrom
  rw [if_pos rfl, if_pos rfl, hrange, flatMap_cons]

theorem itemsFrom_last {again : Bool} (h : ¬ (again = true ∧ count + 1 < argc)) (body : List Line) :
    itemsFrom again argc count body = body.map (count, ·) := by
  unfold itemsFrom
  cases again with
  | false => rw [if_neg Bool.false_ne_true, flatMap_singleton]
  | true =>
    have hle : ¬ count + 1 < argc := fun hlt => h ⟨rfl, hlt⟩
    rw [if_pos rfl, show max 1 (argc - count) = 1 by omega, range'_one, flatMap_singleton]

/-- Whether a line of the macro has a `$i`. -/
def again (body : List Line) : Bool := body.any fun l => .current ∈ (Item.pieces (0, l))

theorem any_current (body : List Line) (count : ℕ) :
    ((body.map fun l => ((count, l) : Item)).any fun i : Item => i.pieces.contains .current) =
    again body := by
  rw [any_map]
  exact any_congr rfl fun l => contains_eq_mem _ _

variable (env) in
theorem passes_eq (hline2 : 0 ∉ line2) (body : List Line) (behind : Text)
    {fuel count : ℕ} {s : State}
    (h : Ready line2 s) (hpos : 0 < fuel) (hfuel : s.argc < fuel + count)
    (hflag : s.loopflg = true → again body = true) :
    passes env line2 (Macros.text (body.map Subtype.val) ++ behind)
    (macEnd body behind) fuel count s =
      runItems env line2 (itemsFrom (again body) (taken line2).length count body) s := by
  induction fuel generalizing count s with
  | zero => exact absurd hpos (lt_irrefl 0)
  | succ fuel ih =>
    -- when a pass is over, `loopflg` tells whether there is a `$i`
    have hafter {s' : State} (hs' : runItems env line2 (body.map (count, ·)) s = some (.going s')) :
        Ready line2 s' ∧ s'.loopflg = again body := by
      obtain ⟨-, hgoing⟩ := runItems_some hline2 h hs'
      obtain ⟨hready, hloop⟩ := hgoing s' rfl
      rw [any_current] at hloop
      refine ⟨hready, hloop.trans ?_⟩
      rcases hs : s.loopflg with - | -
      · exact Bool.false_or _
      · rw [hflag hs]
        rfl
    rw [passes, pass_body]
    by_cases hmore : again body = true ∧ count + 1 < (taken line2).length
    · obtain ⟨hagain, hlt⟩ := hmore
      rw [hagain, itemsFrom_of_lt hlt, runItems_append]
      refine next_congr fun s' hs' => ?_
      obtain ⟨hready, hloop⟩ := hafter hs'
      rw [hagain] at hloop
      rw [if_pos ⟨hloop, hready.argc ▸ hlt⟩, ← hagain]
      rw [h.argc] at hfuel
      exact ih hready (by omega) (by rw [hready.argc]; omega) fun _ => hagain
    · rw [itemsFrom_last hmore]
      refine (next_congr (g := fun s' => some (.going s')) fun s' hs' => ?_).trans (next_going _)
      obtain ⟨hready, hloop⟩ := hafter hs'
      rw [hloop, hready.argc, if_neg hmore]

end

/-! ### The whole -/

theorem string_some {b : Block Byte} {l : Text} (h : string 0 b = some l) : 0 ∉ l ∧
    l.length < b.length := by
  induction b generalizing l with
  | nil => cases h
  | cons o b ih =>
    rcases o with - | c
    · cases h
    · rw [string] at h
      split_ifs at h with hc
      · cases h
        exact ⟨not_mem_nil, Nat.succ_pos _⟩
      · obtain ⟨l', hl', rfl⟩ := Option.map_eq_some_iff.1 h
        obtain ⟨hnul, hlt⟩ := ih hl'
        exact ⟨fun hm => (mem_cons.1 hm).elim (fun h0 => hc h0.symm) hnul, Nat.succ_lt_succ hlt⟩

theorem Call.ready (c : Call) : Ready c.line2 c.state ∧ Fits c.line2 := by
  have hfits := fits_of_some c.before.2 c.words
  obtain ⟨g, hg, hsized, hmargc, hargv, -⟩ :=
    makeargv_taken (string_some c.holds).1 c.before.2 hfits
  obtain rfl : c.globals = g := Option.some.inj (c.words.symm.trans hg)
  exact ⟨⟨hsized, hmargc, fun _ => hargv⟩, hfits⟩

/-- **When a macro is executed** with its arguments, in bounds. -/
theorem executes_iff (env : ℕ → Outcome) (c : Call) (body : List Line) (behind : Text) :
    Executes env c body behind ↔
      c.line2.length < 200 ∧
      Proper env c.line2 0 c.line.length c.line2 (items c.args.length body) := by
  obtain ⟨hready, hfits⟩ := c.ready
  have hline2 := (string_some c.holds).1
  have hpasses :=
    @passes_eq env c.line2 hline2 body behind _ 2 c.state hready (Nat.succ_pos c.state.argc)
    (by omega) nofun
  have hitems : items c.args.length body = itemsFrom (again body) (taken c.line2).length 2 body :=
    rfl
  have hline : string 0 c.state.line = some c.line2 := c.holds
  have hrun := runItems_iff env hline2 hfits (items c.args.length body) hready
  unfold Executes domacro
  rw [hline, Option.bind_some]
  by_cases hlt : c.line2.length < 200
  · obtain ⟨b, hb, -⟩ := fill_front (b := (alloc 200 : Block Byte)) (l := c.line2 ++ [0]) (by
      rw [length_append, length_alloc]
      exact hlt)
    rw [hb, Option.bind_some, and_iff_right hlt]
    refine Iff.trans ?_ hrun
    rw [hitems, ← hpasses]
    constructor
    · rintro ⟨cs, hcs, htraced⟩
      obtain ⟨e, he, rfl⟩ := Option.map_eq_some_iff.1 hcs
      exact ⟨e, _, he, rfl, htraced⟩
    · rintro ⟨e, cs, he, hcs, htraced⟩
      obtain rfl : e.state.executed = cs := hcs
      exact ⟨_, Option.map_eq_some_iff.2 ⟨e, he, rfl⟩, htraced⟩
  · rw [fill_front_none (by rw [length_append, length_alloc, length_singleton]; omega),
      Option.bind_none]
    exact iff_of_false (fun ⟨_, hcs, _⟩ => nomatch hcs) fun h => hlt h.1

/-- `$m`, as it is typed. -/
def typed : Call where
  line2 := [36, 109]
  line := [some 36, some 109, some 0]
  holds := by decide
  before := ⟨noArgs, List.length_replicate, List.length_replicate⟩
  globals := (makeargv [36, 109] noArgs).get (by decide +kernel)
  words := (Option.some_get _).symm

/-- A macro with the line `pwd`. -/
theorem not_executes_pwd : ¬ ∀ env (c : Call) body behind, Executes env c body behind := by
  intro h
  obtain ⟨cs, hcs, -⟩ := h (fun _ => .notRun) typed [⟨[112, 119, 100], by decide⟩] []
  have hnone : ( domacro (fun _ => .notRun) [112, 119, 100, 0] 1 typed.state).isNone =
    true := by decide +kernel
  have hsome := Option.isNone_iff_eq_none.1 hnone
  cases hsome.symm.trans hcs

end Inetutils.Ftp.Domacro
