import Inetutils.Lib.Substitution
import Inetutils.Telnetd.Argcv
import Inetutils.Telnetd.Expand

/-! # The arguments of the login program

`start_login` of `telnetd/pty.c` expands the login command, and then splits what it has expanded. A
value that is put in the command is split with it: no value adds an argument just when the values
fit the words of the template (`start_login_intact_iff`), and a value with a blank in a word without
quotes does not. -/

namespace Inetutils.Telnetd.Login

open Lib.Words Lib.Templates Telnet.Environ Telnet.Proto Option List
open Argcv Expand

/-- The letter `x` for a value. -/
def letter : Letter lexis := ⟨120, by decide, by decide⟩

/-- `start_login`: the argument vector for `execv`, or `none` when the command cannot be expanded,
which is fatal. -/
def startLogin (val : Values) (login_invocation : List Byte) : Option (List (List Byte)) :=
  (expandLine val login_invocation).map fun stk => argcvGet (text stk) []

/-- There are as many arguments as when each variable has one letter for its value, and a value is
whole in the argument that has its letter; or the command cannot be expanded, whatever the
values. -/
def ArgsIntact (v : Vars) (login_invocation : CString) : Prop :=
  match expandLine (varShortName v) login_invocation.bytes,
      expandLine (letters letter.sym (varShortName v)) login_invocation.bytes with
  | some stk, some plain => Intact (argcvSpans (text plain) []) (argcvSpans (text stk) []) stk
  | none, none => True
  | _, _ => False

/-- The values fit the words that the command has with letters for them. -/
def ArgsFit (v : Vars) (login_invocation : CString) : Prop :=
  ∀ stk ∈ expandLine (varShortName v) login_invocation.bytes,
    Fits lexis ((templateWords letter 0 (trimTemplate letter stk)).map Prod.snd)

/-! ### No NUL in the command -/

theorem mem_of_mem_ttyName {line : List Byte} {b : Byte} (h : b ∈ ttyName line) : b ∈ line := by
  unfold ttyName at h
  split at h
  · exact h
  · next c q hd =>
    have hq : q <:+ line.tail := (suffix_cons c q).trans (hd ▸ dropWhile_suffix _)
    exact (hq.trans (tail_suffix _)).subset h

theorem ne_zero_of_mem_value {v : Vars} {c : Byte} {p : List Byte}
    (hc : varShortName v c = some (some p)) {b : Byte} (hb : b ∈ p) : b ≠ 0 := by
  have hs : ∀ s : CString, b ∈ s.bytes → b ≠ 0 := fun s hb he => s.nul (he ▸ hb)
  simp only [varShortName] at hc
  split_ifs at hc <;> simp only [some.injEq, reduceCtorEq] at hc
  · subst hc
    rintro rfl
    exact absurd hb (by decide)
  · exact hs _ (hc ▸ hb)
  · exact hs _ (hc ▸ hb)
  · exact hs _ (hc ▸ hb)
  · exact hs _ (mem_of_mem_ttyName (hc ▸ hb))
  · obtain ⟨t, -, rfl⟩ := map_eq_some_iff.mp hc
    exact hs t hb
  · obtain ⟨u, -, rfl⟩ := map_eq_some_iff.mp hc
    exact hs u hb

variable {line : CString} {stk : List (Piece Byte)}

theorem nul_expandLine {v : Vars} (h : expandLine (varShortName v) line.bytes = some stk) :
    0 ∉ text stk := by
  intro h0
  obtain ⟨a, ha, ha0⟩ := mem_flatMap.mp h0
  have hf := from_of_mem_expandLine h ha
  rcases a with b | p
  · have hb : 0 = b := mem_singleton.mp ha0
    exact line.nul (hb ▸ hf)
  · obtain ⟨c, hc⟩ := hf
    exact ne_zero_of_mem_value hc ha0 rfl

theorem nul_letter {v : Vars} (h : expandLine (varShortName v) line.bytes = some stk) :
    0 ∉ stk.map (Piece.letter letter.sym) := by
  intro h0
  obtain ⟨a, ha, ha0⟩ := mem_map.mp h0
  rcases a with b | p
  · have hb : b = 0 := ha0
    exact nul_expandLine h (mem_flatMap.mpr ⟨_, ha, by simp [Piece.text, hb]⟩)
  · have hx : letter.sym = 0 := ha0
    exact absurd hx (by decide)

/-! ### Arguments -/

theorem intact_argcvSpans_iff {v : Vars} (h : expandLine (varShortName v) line.bytes = some stk) :
    Intact (argcvSpans (text (stk.map (Piece.lettered letter.sym))) [])
    (argcvSpans (text stk) []) stk ↔
      Fits lexis ((templateWords letter 0 (trimTemplate letter stk)).map Prod.snd) := by
  rw [text_lettered, argcvSpans_eq (nul_letter h), argcvSpans_eq (nul_expandLine h)]
  exact intact_iff_fits stk

/-- **No value adds, splits or removes an argument just when the values fit the words of the
command.** -/
theorem start_login_intact_iff (v : Vars) (login_invocation : CString) :
    ArgsIntact v login_invocation ↔ ArgsFit v login_invocation := by
  rw [ArgsIntact, ArgsFit, expandLine_letters]
  rcases h : expandLine (varShortName v) login_invocation.bytes with _ | stk
  · simp
  · simp only [map_some, mem_def, some.injEq, forall_eq']
    exact intact_argcvSpans_iff h

section

variable {v : Vars} {login_invocation : CString} (h : ArgsIntact v login_invocation)
include h

theorem length_startLogin :
    (startLogin (varShortName v) login_invocation.bytes).map List.length =
      (startLogin (letters letter.sym (varShortName v)) login_invocation.bytes).map
      List.length := by
  rw [ArgsIntact, expandLine_letters] at h
  rw [startLogin, startLogin, expandLine_letters]
  rcases hs : expandLine (varShortName v) login_invocation.bytes with _ | stk
  · rfl
  · rw [hs] at h
    simp only [map_some, argcvGet, length_map, some.injEq]
    exact h.1.symm

end

/-! ### A user with a blank -/

/-- `/bin/login -p -h %h %?u{-f %u}`. -/
def defaultInvocation : CString := .ofBytes
  [47, 98, 105, 110, 47, 108, 111, 103, 105, 110, 32, 45, 112, 32, 45, 104, 32, 37, 104, 32,
    37, 63, 117, 123, 45, 102, 32, 37, 117, 125]

/-- The user `-f root`, from the host `pc`. -/
def rootVars : Vars where
  auth := false
  timebuf := .ofBytes []
  remote_hostname := .ofBytes [112, 99]
  local_hostname := .ofBytes []
  line := .ofBytes []
  terminaltype := none
  user_name := some (.ofBytes [45, 102, 32, 114, 111, 111, 116])

theorem user_adds_argument : ¬ ∀ v login_invocation, ArgsIntact v login_invocation := by
  intro h
  exact absurd (length_startLogin (h rootVars defaultInvocation)) (by decide +kernel)

end Inetutils.Telnetd.Login
