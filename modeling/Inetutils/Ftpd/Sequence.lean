import Inetutils.Ftpd.Parser

/-! # REST and RNFR

`restart_point` and `fromname` of `src/ftpcmd.y` are set by one command and used by the next. They
are reset where `cmd_list` is reduced, at the end of each line that the parser reads to its CRLF,
also if it has an error; a line that leaves the parser by `longjmp` is not reduced. -/

namespace Inetutils.Ftpd.Sequence

open Lib.Runs Scanner Ftpd.Parser
open Dataconn (Text)

/-! ### The state -/

/-- What the server knows of the session, and the answers of the system in a line: `glob` gives the
first match of a pattern, and `stat` whether the file of RNFR is there. -/
structure Env where
  loggedIn : Bool
  glob : Text → Option Text
  stat : Text → Bool

/-- The value of the symbol `pathname`. -/
def Env.pathname (env : Env) (s : Text) : Option Text :=
  if env.loggedIn ∧ s.head? = some 126 then env.glob s else some s

/-- The line that was read last: a REST, a RNFR that was answered 350 with its name, or another
one. -/
inductive Last
  | rest (n : ℤ)
  | rnfr (name : Text)
  | other
  deriving DecidableEq

/-- A command that was carried out, with `restart_point`, `fromname` and the line before it. -/
structure Ran where
  action : Action
  restartPoint : ℤ
  fromname : Option Text
  last : Last
  deriving DecidableEq

structure State where
  scan : Scan
  restartPoint : ℤ
  fromname : Option Text
  last : Last
  ran : List Ran
  deriving DecidableEq

variable {s : State}

def State.start : State := ⟨.start, 0, none, .other, []⟩

/-! ### A line -/

/-- `renamefrom`: the name, if the answer is 350. -/
def renamefrom (env : Env) (name : Text) : Option Text := if env.stat name then some name else none

/-- The transfers that use `restart_point`, when they are carried out. -/
def transfers (env : Env) : Action → Bool
  | .retr s | .stor s | .appe s | .stou s | .listPath s => env.loggedIn && (env.pathname s).isSome
  | .list => env.loggedIn
  | _ => false

/-- RNTO calls `renamecmd`. -/
def renames (env : Env) : Action → Bool
  | .rnto _ => env.loggedIn
  | _ => false

def State.run (s : State) (a : Action) : State :=
  { s with ran := s.ran ++ [⟨a, s.restartPoint, s.fromname, s.last⟩] }

/-- The reduction of `cmd_list cmd`. -/
def State.reset (s : State) : State :=
  { s with restartPoint := 0, fromname := none, last := .other }

def State.setRest (s : State) (n : ℤ) : State :=
  { s with restartPoint := n, fromname := none, last := .rest n }

/-- What RNFR does with a name, `none` when it is not logged in or `glob` finds nothing: then the
name that was there stays. -/
def State.setFrom (s : State) (env : Env) : Option Text → State
  | none => { s with restartPoint := 0, last := .other }
  | some name =>
    match renamefrom env name with
    | some name => { s with restartPoint := 0, fromname := some name, last := .rnfr name }
    | none => { s with restartPoint := 0, fromname := none, last := .other }

def State.action (s : State) (env : Env) (a : Action) : State :=
  match a with
  | .rnfr name => s.setFrom env (if env.loggedIn then env.pathname name else none)
  | .rest n => s.setRest n
  | a => ((if transfers env a ∨ renames env a then s.run a else s)).reset

def State.stop (s : State) (env : Env) : Stop → State
  | .action a => s.action env a
  | .errorCrlf => s.reset
  | .notUnderstood => { s with last := .other }
  | .unimplemented _ => { s with last := .other }

def step (s : State) (e : Env × Text) : State :=
  { s.stop e.1 (line s.scan e.2).stop with scan := (line s.scan e.2).last }

/-! ### The order of the commands -/

/-- A transfer restarts after a REST, and a name is renamed after its RNFR. -/
def Ran.Proper (r : Ran) : Prop :=
  (r.restartPoint ≠ 0 → r.last = .rest r.restartPoint) ∧ ∀ name,
    r.fromname = some name → r.last = .rnfr name

/-- So it was in every command that was carried out, and any other line has cancelled both. -/
def InOrder (s : State) : Prop :=
  (∀ r ∈ s.ran, r.Proper) ∧
    (s.restartPoint ≠ 0 → s.last = .rest s.restartPoint) ∧ ∀ name,
    s.fromname = some name → s.last = .rnfr name

/-- A RNFR whose path is not looked for does not leave a pending name. -/
def LeavesNone (s : State) (env : Env) : Action → Prop
  | .rnfr name => env.loggedIn = true ∧ (env.pathname name).isSome ∨ s.fromname = none
  | _ => True

def Cancels (s : State) (e : Env × Text) : Prop :=
  match (line s.scan e.2).stop with
  | .action a => LeavesNone s e.1 a
  | .errorCrlf => True
  | .notUnderstood => s.restartPoint = 0 ∧ s.fromname = none
  | .unimplemented _ => s.restartPoint = 0 ∧ s.fromname = none

theorem inOrder_reset (h : ∀ r ∈ s.ran, r.Proper) : InOrder s.reset :=
  ⟨h, fun hne => absurd rfl hne, fun _ hname => by cases hname⟩

theorem inOrder_run (h : InOrder s) (a : Action) : ∀ r ∈ (s.run a).ran, r.Proper := by
  intro r hr
  rcases List.mem_append.1 hr with hr | hr
  · exact h.1 r hr
  · obtain rfl := List.mem_singleton.1 hr
    exact h.2

theorem inOrder_cmd (h : InOrder s) (env : Env) (a : Action) :
    InOrder (if transfers env a ∨ renames env a then s.run a else s).reset := by
  refine inOrder_reset ?_
  split
  · exact inOrder_run h a
  · exact h.1

theorem inOrder_rest (h : InOrder s) (n : ℤ) : InOrder (s.setRest n) :=
  ⟨h.1, fun _ => rfl, fun _ hname => by cases hname⟩

theorem inOrder_from (h : InOrder s) (env : Env) (name : Text) :
    InOrder (s.setFrom env (some name)) := by
  unfold State.setFrom
  dsimp only
  split
  · refine ⟨h.1, fun hne => absurd rfl hne, fun name' hname => ?_⟩
    obtain rfl := Option.some.inj hname
    rfl
  · exact ⟨h.1, fun hne => absurd rfl hne, fun _ hname => by cases hname⟩

theorem inOrder_from_none_iff (h : InOrder s) (env : Env) :
    InOrder (s.setFrom env none) ↔ s.fromname = none := by
  constructor
  · intro hord
    rcases hfrom : s.fromname with - | name
    · rfl
    · have hlast := hord.2.2 name hfrom
      cases hlast
  · intro hfrom
    refine ⟨h.1, fun hne => absurd rfl hne, fun name hname => ?_⟩
    have hsome : s.fromname = some name := hname
    rw [hfrom] at hsome
    cases hsome

theorem inOrder_jump_iff (h : InOrder s) :
    InOrder { s with last := .other } ↔ s.restartPoint = 0 ∧ s.fromname = none := by
  constructor
  · rintro ⟨-, hrest, hfrom⟩
    constructor
    · by_contra hne
      have hlast := hrest hne
      cases hlast
    · rcases hname : s.fromname with - | name
      · rfl
      · have hlast := hfrom name hname
        cases hlast
  · rintro ⟨hrest, hfrom⟩
    refine ⟨h.1, fun hne => absurd hrest hne, fun name hname => ?_⟩
    have hsome : s.fromname = some name := hname
    rw [hfrom] at hsome
    cases hsome

theorem action_cases (a : Action) :
    (∃ name, a = .rnfr name) ∨ (∃ n, a = .rest n) ∨ ∀ (s : State) (env : Env), LeavesNone s env a ∧
      s.action env a = (if transfers env a ∨ renames env a then s.run a else s).reset := by
  cases a
  case rnfr name => exact .inl ⟨name, rfl⟩
  case rest n => exact .inr (.inl ⟨n, rfl⟩)
  all_goals exact .inr (.inr fun _ _ => ⟨trivial, rfl⟩)

theorem inOrder_action_iff (h : InOrder s) (env : Env) (a : Action) :
    InOrder (s.action env a) ↔ LeavesNone s env a := by
  rcases action_cases a with ⟨name, rfl⟩ | ⟨n, rfl⟩ | hother
  · show InOrder (s.setFrom env (if env.loggedIn then env.pathname name else none)) ↔
      (env.loggedIn = true ∧ (env.pathname name).isSome ∨ s.fromname = none)
    by_cases hlog : env.loggedIn = true
    · rw [if_pos hlog]
      rcases hpath : env.pathname name with - | path
      · rw [inOrder_from_none_iff h]
        exact ⟨Or.inr, fun hor => hor.resolve_left fun hand => absurd hand.2 Bool.false_ne_true⟩
      · exact iff_of_true (inOrder_from h env path) (.inl ⟨hlog, rfl⟩)
    · rw [if_neg hlog, inOrder_from_none_iff h]
      exact ⟨Or.inr, fun hor => hor.resolve_left fun hand => hlog hand.1⟩
  · exact iff_of_true (inOrder_rest h n) trivial
  · obtain ⟨hleaves, haction⟩ := hother s env
    rw [haction]
    exact iff_of_true (inOrder_cmd h env a) hleaves

theorem inOrder_step_iff (h : InOrder s) (e : Env × Text) : InOrder (step s e) ↔ Cancels s e := by
  show InOrder (s.stop e.1 (line s.scan e.2).stop) ↔ Cancels s e
  unfold Cancels
  rcases (line s.scan e.2).stop with a | - | - | name
  · exact inOrder_action_iff h e.1 a
  · exact iff_of_true (inOrder_reset h.1) trivial
  · exact inOrder_jump_iff h
  · exact inOrder_jump_iff h

theorem inOrder_start : InOrder .start := by
  refine ⟨fun r hr => absurd hr List.not_mem_nil, fun hne => absurd rfl hne, fun name hname => ?_⟩
  have hnone : (none : Option Text) = some name := hname
  cases hnone

/-- **Every sequence of lines.** The order is kept in every state of a session just when each line
cancels what the line before has left. -/
theorem in_order_iff (l : List (Env × Text)) :
    (∀ l', l' <+: l → InOrder (run step .start l')) ↔ Allowed step Cancels .start l :=
  inv_iff_allowed (I := InOrder) (J := fun _ => True) (fun _ e h _ => inOrder_step_iff h e)
    (fun _ _ _ => trivial)
    inOrder_start trivial

/-- A misspelt command stands between REST and RETR. -/
theorem restart_after_misspelt : ¬ ∀ l : List (Env × Text), InOrder (run step .start l) := by
  intro h
  have hrest : (line .start (ascii "REST 5\r\n")).stop = .action (.rest 5) := by decide +kernel
  have hlast : (line .start (ascii "REST 5\r\n")).last =
    ⟨ascii "REST 5\n" ++ List.replicate 505 0, 7, .cmd⟩ := by
    decide +kernel
  have hfoo : (line ⟨ascii "REST 5\n" ++ List.replicate 505 0, 7, .cmd⟩ (ascii "FOO\r\n")).stop =
    .notUnderstood := by
    decide +kernel
  have hlast' : (line ⟨ascii "REST 5\n" ++ List.replicate 505 0, 7, .cmd⟩ (ascii "FOO\r\n")).last =
      ⟨ascii "FOO\x00\x00\x00\n" ++ List.replicate 505 0, 3, .cmd⟩ := by
    decide +kernel
  have hretr :
      (line ⟨ascii "FOO\x00\x00\x00\n" ++ List.replicate 505 0, 3, .cmd⟩
        (ascii "RETR f\r\n")).stop =
      .action (.retr (ascii "f")) := by
    decide +kernel
  let env : Env := ⟨true, fun _ => none, fun _ => true⟩
  have hrun := h [(env, ascii "REST 5\r\n"), (env, ascii "FOO\r\n"), (env, ascii "RETR f\r\n")]
  have hproper : Ran.Proper ⟨.retr (ascii "f"), 5, none, .other⟩ := by
    refine hrun.1 _ ?_
    simp only [run_cons, run_nil, step, State.start, hrest, hlast, hfoo, hlast', hretr, State.stop]
    exact List.mem_singleton.2 rfl
  have hafter := hproper.1 (by decide)
  cases hafter

end Inetutils.Ftpd.Sequence
