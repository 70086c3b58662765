import Inetutils.Lib.Traced
import Mathlib.Data.Int.Notation

/-! # The run of `rexecd`

`doit`, `die` and `getstr` of `src/rexecd.c`. What comes from the client is an `Input`; the password
files, `crypt` and the answers of the system are parameters.

`die` writes its message and returns. So a check that fails through it stops nothing: the run is
`Sound` just when no such check fails (`doit_sound_iff`), and with a wrong password the command is
executed (`wrong_password_executes`). -/

namespace Inetutils.Rexecd.Doit

open Lib.Traced List

abbrev Byte := UInt8

abbrev Name := List Byte

/-! ### What the run depends on -/

/-- What the client sends: bytes, and then it closes its side, or the connection fails, or nothing
more comes. -/
inductive Input
  | byte (c : Byte) (input : Input)
  | eof
  | error
  | silence

/-- `struct passwd`, what is used of it. -/
structure Passwd where
  name : Name
  passwd : Name
  dir : Name
  shell : Name

/-- In which process `fork` returned, if it did not fail. -/
inductive Fork
  | failed
  | parent (pid : ℕ)
  | child

/-- The system: whether an allocation of a size succeeds, for each string asked for the byte before
the new buffer and the string its content makes, whether the second connection is made; the password
files and `crypt`; the answers of `fork`, of the calls that change the identity, and of `chdir`. -/
structure System where
  malloc : ℕ → Bool
  below : String → Byte
  garbage : String → Name
  connects : UInt16 → Bool
  getpwnam : Name → Option Passwd
  getspnam : Name → Option Name
  crypt : Name → Name → Option Name
  fork : Fork
  setids : Passwd → Bool
  chdir : Name → Bool
  pathBshell : Name

/-! ### The steps -/

inductive Step
  /-- The second connection, to this port of the client. -/
  | connect (port : UInt16)
  /-- `die` with this format. -/
  | refused (fmt : String)
  /-- A byte outside of any buffer is used. -/
  | outside
  /-- The end of the input is read again and again, refused each time. -/
  | spin
  | lookup (user : Name)
  /-- A null pointer is followed: there is no such entry, or no result. -/
  | missing
  | crypt (pass field : Name)
  /-- The NUL that tells the client that all is well. -/
  | accept
  /-- The loop of the parent. -/
  | relay (pid : ℤ)
  | setids
  | chdir (dir : Name)
  | exec (shell arg0 cmd : Name)
  deriving DecidableEq

def Step.isRefused : Step → Bool
  | .refused _ => true
  | _ => false

def Step.isExec : Step → Bool
  | .exec .. => true
  | _ => false

/-- A check that failed, or an entry that is used without being there. -/
def Step.fails : Step → Bool
  | .refused _ => true
  | .missing => true
  | _ => false

abbrev Run := Prog Step

/-- `die`: it returns. -/
def die (fmt : String) : Run Unit := emit (.refused fmt)

/-! ### `getstr` -/

/-- The loop after a read that found the end of the input, with `buf` read so far: the last byte of
`buf`, or the byte before it, decides whether there is another round. -/
def getstrEof (sys : System) (err : String) (buf : Name) : Run (Name × Input) := do
  if buf = [] then
    emit .outside
    if sys.below err = 0 then pure (sys.garbage err, .eof)
    else do
      emit .spin
      stop
  else do
    emit .spin
    stop

/-- The loop with a buffer of `bufLen` bytes, `buf` read so far. -/
def getstrLoop (sys : System) (err : String) (bufLen : ℕ) (buf : Name) : Input → Run (Name × Input)
  | .byte c input =>
    if bufLen - (buf.length + 1) < bufLen >>> 3 then
      if sys.malloc (bufLen + bufLen) then
        if c = 0 then pure (buf, input)
        else getstrLoop sys err (bufLen + bufLen) (buf ++ [c]) input
      else do
        die ("Out of space reading " ++ err)
        emit .outside
        stop
    else if c = 0 then pure (buf, input)
    else getstrLoop sys err bufLen (buf ++ [c]) input
  | .eof => do
    die ("EOF reading " ++ err)
    getstrEof sys err buf
  | .error => stop
  | .silence => stop

def getstr (sys : System) (err : String) (input : Input) : Run (Name × Input) := do
  if sys.malloc 100 then getstrLoop sys err 100 [] input
  else do
    die ("Out of space reading " ++ err)
    emit .outside
    stop

/-! ### `doit` -/

/-- The loop over the digits of the port: `unsigned short`, and `c` a `char` with a sign. -/
def readPort (port : UInt16) : Input → Run (UInt16 × Input)
  | .byte c input =>
    if c = 0 then pure (port, input)
    else readPort (port * 10 + c.toInt8.toInt16.toUInt16 - 48) input
  | _ => stop

def secondConnection (sys : System) (port : UInt16) : Run Unit := do
  if port ≠ 0 then
    emit (.connect port)
    if sys.connects port then pure () else stop
  else pure ()

/-- `getpwnam` and the first use of the entry. -/
def findUser (sys : System) (user : Name) : Run Passwd := do
  emit (.lookup user)
  match sys.getpwnam user with
  | some pwd => pure pwd
  | none => do
    die "Login incorrect."
    emit .missing
    stop

def getUserPassword (sys : System) (pwd : Passwd) : Name := (sys.getspnam pwd.name).getD pwd.passwd

def checkPassword (sys : System) (pass pwPassword : Name) : Run Unit := do
  if pwPassword ≠ [] then
    emit (.crypt pass pwPassword)
    match sys.crypt pass pwPassword with
    | some namep =>
      if namep = pwPassword then emit .accept
      else do
        die "Password incorrect."
        emit .accept
    | none => do
      emit .missing
      stop
  else emit .accept

/-- With a second connection there are two processes from here; the parent only relays. -/
def forkRun (sys : System) (port : UInt16) : Run Unit := do
  if port ≠ 0 then
    match sys.fork with
    | .failed => do
      die "Try again."
      emit (.relay (-1))
      stop
    | .parent pid => do
      emit (.relay pid)
      stop
    | .child => pure ()
  else pure ()

def arg0 (shell : Name) : Name := (shell.reverse.takeWhile (· ≠ 47)).reverse

def execute (sys : System) (pwd : Passwd) (cmdbuf : Name) : Run Unit := do
  let shell := if pwd.shell = [] then sys.pathBshell else pwd.shell
  emit .setids
  if sys.setids pwd then
    emit (.chdir pwd.dir)
    if sys.chdir pwd.dir then emit (.exec shell (arg0 shell) cmdbuf)
    else do
      die "No remote directory."
      emit (.exec shell (arg0 shell) cmdbuf)
  else stop

def doit (sys : System) (input : Input) : Run Unit := do
  let (port, input) ← readPort 0 input
  secondConnection sys port
  let (user, input) ← getstr sys "username" input
  let (pass, input) ← getstr sys "password" input
  let (cmdbuf, _) ← getstr sys "command" input
  let pwd ← findUser sys user
  checkPassword sys pass (getUserPassword sys pwd)
  forkRun sys port
  execute sys pwd cmdbuf

/-! ### What the client sent -/

/-- The number before the first NUL, as `doit` counts it, and what comes after. -/
def Input.port (port : UInt16) : Input → Option (UInt16 × Input)
  | .byte c input =>
    if c = 0 then some (port, input)
    else input.port (port * 10 + c.toInt8.toInt16.toUInt16 - 48)
  | _ => none

def Input.str : Input → Option (Name × Input)
  | .byte c input => if c = 0 then some ([], input) else input.str.map fun r => (c :: r.1, r.2)
  | _ => none

def Input.cut : Input → Bool
  | .byte c input => c ≠ 0 && input.cut
  | .eof => true
  | _ => false

def Input.strLength : Input → ℕ
  | .byte c input => if c = 0 then 1 else input.strLength + 1
  | _ => 0

structure Request where
  port : UInt16
  user : Name
  pass : Name
  cmd : Name

def Input.request (input : Input) : Option Request := do
  let (port, input) ← input.port 0
  let (user, input) ← input.str
  let (pass, input) ← input.str
  let (cmd, _) ← input.str
  some ⟨port, user, pass, cmd⟩

/-- The password of the entry is empty, or the one sent gives it. -/
def Matches (sys : System) (pass : Name) (pwd : Passwd) : Prop :=
  getUserPassword sys pwd = [] ∨
    sys.crypt pass (getUserPassword sys pwd) = some (getUserPassword sys pwd)

/-- The user named has an entry, and the password sent is the one of that entry. -/
def Authenticated (sys : System) (input : Input) : Prop :=
  ∃ r, input.request = some r ∧ ∃ pwd, sys.getpwnam r.user = some pwd ∧ Matches sys r.pass pwd

/-- What the daemon is for: only an authenticated client has a command executed, nothing is done
after a check that failed, and no entry is used that is not there. -/
structure Sound (sys : System) (input : Input) (trace : List Step) : Prop where
  authenticated : ∀ s ∈ trace, s.isExec → Authenticated sys input
  stops : ∀ pre s post, trace = pre ++ s :: post → s.isRefused → post = []
  present : .missing ∉ trace

/-! ### Where no check fails -/

/-- The size of the buffer of `getstr` after so many bytes. -/
def bufLen : ℕ → ℕ
  | 0 => 100
  | n + 1 => if bufLen n - (n + 1) < bufLen n >>> 3 then bufLen n + bufLen n else bufLen n

def Whole (sys : System) (input : Input) : Prop :=
  (∀ k ≤ input.strLength, sys.malloc (bufLen k)) ∧ ¬ input.cut

/-- Every check that fails through `die` succeeds, if the run comes to it: a run that ends before,
with a port that is not complete, without the second connection or with a read that fails, is not
concerned. -/
def Checked (sys : System) (input : Input) : Prop :=
  ∀ port rest, input.port 0 = some (port, rest) → (port ≠ 0 → sys.connects port) →
  Whole sys rest ∧ ∀ user rest₁, rest.str = some (user, rest₁) →
  Whole sys rest₁ ∧ ∀ pass rest₂, rest₁.str = some (pass, rest₂) →
  Whole sys rest₂ ∧ ∀ cmd rest₃, rest₂.str = some (cmd, rest₃) →
  ∃ pwd, sys.getpwnam user = some pwd ∧ Matches sys pass pwd ∧ (port ≠ 0 → sys.fork ≠ .failed) ∧
    (port = 0 ∨ sys.fork = .child → sys.setids pwd → sys.chdir pwd.dir)

/-! ### The strings -/

section
variable {sys : System}

variable (port : UInt16) (input : Input) {err : String}

theorem readPort_eq : readPort port input = ⟨[], input.port port⟩ := by
  induction input generalizing port with
  | byte c input ih =>
    rw [readPort, Input.port]
    split_ifs
    · rfl
    · exact ih _
  | eof | error | silence => rfl

theorem getstrLoop_of_whole (sys : System) (buf : Name) {input : Input}
    (hroom : ∀ k, buf.length ≤ k → k ≤ buf.length + input.strLength → sys.malloc (bufLen k))
    (hcut : ¬ input.cut) (err : String) :
    getstrLoop sys err (bufLen buf.length) buf input =
    ⟨[], input.str.map fun r => (buf ++ r.1, r.2)⟩ := by
  induction input generalizing buf with
  | byte c input ih =>
    have hnext : getstrLoop sys err (bufLen buf.length) buf (.byte c input) =
        if c = 0 then pure (buf, input)
        else getstrLoop sys err (bufLen (buf.length + 1)) (buf ++ [c]) input := by
      have hm : sys.malloc (bufLen (buf.length + 1)) := by
        refine hroom _ (Nat.le_succ _) (Nat.add_le_add_left ?_ _)
        rw [Input.strLength]
        split_ifs <;> omega
      rw [bufLen] at hm ⊢
      rw [getstrLoop]
      split_ifs at hm ⊢ <;> rfl
    rw [hnext, Input.str]
    split_ifs with hc
    · simp only [Option.map_some, append_nil]
      rfl
    · have hlen : (buf ++ [c]).length = buf.length + 1 := by simp
      rw [Input.strLength, if_neg hc] at hroom
      rw [← hlen, ih (buf ++ [c]) (fun k h1 h2 => hroom k (by omega) (by omega))
        (by simpa [Input.cut, hc] using hcut)]
      simp [Option.map_map, Function.comp_def]
  | eof => exact absurd rfl hcut
  | error | silence => rfl

theorem getstr_of_whole {input : Input} (h : Whole sys input) :
    getstr sys err input = ⟨[], input.str⟩ := by
  have hm : sys.malloc 100 := h.1 0 (Nat.zero_le _)
  rw [getstr, if_pos hm]
  have hloop := getstrLoop_of_whole sys [] (fun k _ hk => h.1 k (by simpa using hk)) h.2
  simpa [bufLen] using hloop err

def Quiet {α : Type} (x : Run α) : Prop := Clear (fun s => ¬ s.fails) x

section
variable {α β : Type}

@[simp] theorem quiet_pure (a : α) : Quiet (pure a : Run α) := clear_pure a

@[simp] theorem quiet_stop : Quiet (stop : Run α) := clear_stop

@[simp] theorem quiet_emit (s : Step) : Quiet (emit s) ↔ ¬ s.fails := clear_emit s

theorem quiet_bind (x : Run α) (f : α → Run β) :
    Quiet (x >>= f) ↔ Quiet x ∧ ∀ a, x.value = some a → Quiet (f a) := clear_bind x f

theorem quiet_unit_bind (x : Run Unit) (f : Unit → Run β) :
    Quiet (x >>= f) ↔ Quiet x ∧ (x.value = some () → Quiet (f ())) :=
  (quiet_bind x f).trans (and_congr_right fun _ => ⟨fun h => h (), fun h _ => h⟩)

@[simp] theorem quiet_emit_bind (s : Step) (f : Unit → Run α) :
    Quiet (emit s >>= f) ↔ ¬ s.fails ∧ Quiet (f ()) := clear_emit_bind s f

@[simp] theorem not_quiet_die (fmt : String) (f : Unit → Run α) : ¬ Quiet (die fmt >>= f) :=
  fun h => ((quiet_emit_bind _ _).1 h).1 rfl

end

theorem whole_of_quiet_loop (buf : Name) {input : Input} (hm : sys.malloc (bufLen buf.length))
    (h : Quiet (getstrLoop sys err (bufLen buf.length) buf input)) :
    (∀ k, buf.length ≤ k → k ≤ buf.length + input.strLength → sys.malloc (bufLen k)) ∧
    ¬ input.cut := by
  induction input generalizing buf with
  | byte c input ih =>
    have hm' : sys.malloc (bufLen (buf.length + 1)) := by
      rw [getstrLoop] at h
      rw [bufLen]
      split_ifs at h ⊢ with hgrow hroom
      · exact hroom
      · exact hroom
      · exact absurd h (not_quiet_die _ _)
      · exact hm
      · exact hm
    have hnext :
        c ≠ 0 → Quiet (getstrLoop sys err (bufLen (buf.length + 1)) (buf ++ [c]) input) := by
      intro hc
      rw [getstrLoop] at h
      rw [bufLen] at hm' ⊢
      split_ifs at h hm' ⊢ <;> exact h
    rw [Input.strLength, Input.cut]
    by_cases hc : c = 0
    · rw [if_pos hc]
      refine ⟨fun k h1 h2 => ?_, by simp [hc]⟩
      rcases Nat.lt_or_ge buf.length k with hk | hk
      · rwa [show k = buf.length + 1 by omega]
      · rwa [show k = buf.length by omega]
    · have hlen : (buf ++ [c]).length = buf.length + 1 := by simp
      rw [if_neg hc]
      have hrest := ih (buf ++ [c]) (by rwa [hlen]) (by rw [hlen]; exact hnext hc)
      refine ⟨fun k h1 h2 => ?_, by simpa [hc] using hrest.2⟩
      rcases Nat.lt_or_ge buf.length k with hk | hk
      · exact hrest.1 k (by omega) (by omega)
      · rwa [show k = buf.length by omega]
  | eof => exact absurd h (not_quiet_die _ _)
  | error | silence =>
    refine ⟨fun k h1 h2 => ?_, by simp [Input.cut]⟩
    rwa [show k = buf.length from Nat.le_antisymm h2 h1]

theorem whole_of_quiet {input : Input} (h : Quiet (getstr sys err input)) : Whole sys input := by
  rw [getstr] at h
  split_ifs at h with hm
  · have hloop := whole_of_quiet_loop [] (by simpa [bufLen] using hm) (by simpa [bufLen] using h)
    exact ⟨fun k hk => hloop.1 k (Nat.zero_le _) (by simpa using hk), hloop.2⟩
  · exact absurd h (not_quiet_die _ _)

/-! ### Where nothing fails -/

section
variable {α : Type}

theorem quiet_readPort_bind (f : UInt16 × Input → Run α) :
    Quiet (readPort 0 input >>= f) ↔ ∀ a, input.port 0 = some a → Quiet (f a) := by
  rw [quiet_bind, readPort_eq]
  exact and_iff_right fun _ h => nomatch h

variable (f : Unit → Run α)

theorem quiet_secondConnection_bind :
    Quiet (secondConnection sys port >>= f) ↔ ((port ≠ 0 → sys.connects port) → Quiet (f ())) := by
  rw [quiet_unit_bind, secondConnection]
  split_ifs with hport hconn
  · simp [Step.fails, hconn]
  · simp [Step.fails, hport, hconn]
  · simp [hport]

theorem quiet_getstr_bind (err : String) (input : Input) (f : Name × Input → Run α) :
    Quiet (getstr sys err input >>= f) ↔
    Whole sys input ∧ ∀ a, input.str = some a → Quiet (f a) := by
  rw [quiet_bind]
  constructor
  · rintro ⟨hquiet, hrest⟩
    have hw := whole_of_quiet hquiet
    rw [getstr_of_whole hw] at hrest
    exact ⟨hw, hrest⟩
  · rintro ⟨hw, hrest⟩
    rw [getstr_of_whole hw]
    exact ⟨fun _ h => (nomatch h), hrest⟩

theorem quiet_findUser_bind (user : Name) (f : Passwd → Run α) :
    Quiet (findUser sys user >>= f) ↔ ∃ pwd, sys.getpwnam user = some pwd ∧ Quiet (f pwd) := by
  rw [quiet_bind, findUser]
  cases sys.getpwnam user <;> simp [Step.fails]

theorem quiet_checkPassword_bind (pass pwPassword : Name) (f : Unit → Run α) :
    Quiet (checkPassword sys pass pwPassword >>= f) ↔
      (pwPassword = [] ∨ sys.crypt pass pwPassword = some pwPassword) ∧ Quiet (f ()) := by
  rw [quiet_unit_bind, checkPassword]
  split_ifs with hpw
  · cases hc : sys.crypt pass pwPassword with
    | none => simp [Step.fails, hpw]
    | some namep =>
      by_cases heq : namep = pwPassword
      · simp [Step.fails, heq]
      · simp [hpw, heq]
  · simp [Step.fails, not_not.1 hpw]

theorem quiet_forkRun_bind :
    Quiet (forkRun sys port >>= f) ↔
      (port ≠ 0 → sys.fork ≠ .failed) ∧ (port = 0 ∨ sys.fork = .child → Quiet (f ())) := by
  rw [quiet_unit_bind, forkRun]
  split_ifs with hport
  · cases sys.fork <;> simp [Step.fails, hport]
  · simp [not_not.1 hport]

theorem quiet_execute_iff (pwd : Passwd) (cmdbuf : Name) :
    Quiet (execute sys pwd cmdbuf) ↔ (sys.setids pwd → sys.chdir pwd.dir) := by
  rw [execute]
  by_cases hids : sys.setids pwd
  · by_cases hdir : sys.chdir pwd.dir <;> simp [Step.fails, hids, hdir]
  · simp [Step.fails, hids]

end

theorem quiet_doit_iff : Quiet (doit sys input) ↔ Checked sys input := by
  simp only [doit, Checked, Matches, quiet_readPort_bind, quiet_secondConnection_bind,
    quiet_getstr_bind,
    quiet_findUser_bind, quiet_checkPassword_bind, quiet_forkRun_bind, quiet_execute_iff,
    Prod.forall]

/-! ### After a check that failed -/

section
variable {α : Type}

/-- The last thing done is not a refusal: the run went on after it. -/
abbrev Goes (x : Run α) : Prop := Ends (fun s => s.isRefused) x

theorem goes_die_bind (fmt : String) {f : Unit → Run α} (hne : (f ()).trace ≠ [])
    (hf : Goes (f ())) :
    Goes (die fmt >>= f) := ends_emit_bind hne hf

theorem goes_emit_bind {s : Step} (h : ¬ s.isRefused) {f : Unit → Run α} (hf : Goes (f ())) :
    Goes (emit s >>= f) := ends_bind (ends_emit h) fun _ => hf

theorem goes_getstrEof (sys : System) (err : String) (buf : Name) :
    Goes (getstrEof sys err buf) ∧ (getstrEof sys err buf).trace ≠ [] := by
  have hspin : Goes (emit .spin >>= fun _ => stop : Run (Name × Input)) :=
    goes_emit_bind (by decide) ends_stop
  rw [getstrEof]
  split_ifs
  · exact ⟨goes_emit_bind (by decide) (ends_pure _), cons_ne_nil _ _⟩
  · exact ⟨goes_emit_bind (by decide) hspin, cons_ne_nil _ _⟩
  · exact ⟨hspin, cons_ne_nil _ _⟩

theorem goes_outOfSpace (err : String) :
    Goes (do die ("Out of space reading " ++ err); emit .outside; stop : Run α) :=
  goes_die_bind _ (cons_ne_nil _ _) (goes_emit_bind (by decide) ends_stop)

theorem goes_getstrLoop (err : String) (len : ℕ) (buf : Name) (input : Input) :
    Goes (getstrLoop sys err len buf input) := by
  induction input generalizing len buf with
  | byte c input ih =>
    rw [getstrLoop]
    split_ifs
    · exact ends_pure _
    · exact ih _ _
    · exact goes_outOfSpace err
    · exact ends_pure _
    · exact ih _ _
  | eof =>
    obtain ⟨hgoes, hne⟩ := goes_getstrEof sys err buf
    exact goes_die_bind _ hne hgoes
  | error | silence => exact ends_stop

theorem goes_getstr (err : String) (input : Input) : Goes (getstr sys err input) := by
  rw [getstr]
  split_ifs
  · exact goes_getstrLoop _ _ _ _
  · exact goes_outOfSpace err

theorem goes_secondConnection : Goes (secondConnection sys port) := by
  rw [secondConnection]
  split_ifs
  · exact goes_emit_bind (by simp [Step.isRefused]) (ends_pure _)
  · exact goes_emit_bind (by simp [Step.isRefused]) ends_stop
  · exact ends_pure _

theorem goes_findUser (user : Name) : Goes (findUser sys user) := by
  refine goes_emit_bind (by simp [Step.isRefused]) ?_
  cases sys.getpwnam user with
  | some pwd => exact ends_pure _
  | none => exact goes_die_bind _ (cons_ne_nil _ _) (goes_emit_bind (by decide) ends_stop)

theorem goes_checkPassword (pass pwPassword : Name) : Goes (checkPassword sys pass pwPassword) := by
  have haccept : Goes (emit .accept) := ends_emit (by decide)
  rw [checkPassword]
  split_ifs
  · refine goes_emit_bind (by simp [Step.isRefused]) ?_
    cases sys.crypt pass pwPassword with
    | none => exact goes_emit_bind (by decide) ends_stop
    | some namep =>
      dsimp only
      split_ifs
      · exact haccept
      · exact goes_die_bind _ (cons_ne_nil _ _) haccept
  · exact haccept

theorem goes_forkRun : Goes (forkRun sys port) := by
  rw [forkRun]
  split_ifs
  · cases sys.fork with
    | failed => exact goes_die_bind _ (cons_ne_nil _ _) (goes_emit_bind (by decide) ends_stop)
    | parent pid => exact goes_emit_bind (by simp [Step.isRefused]) ends_stop
    | child => exact ends_pure _
  · exact ends_pure _

theorem goes_execute (pwd : Passwd) (cmdbuf : Name) : Goes (execute sys pwd cmdbuf) := by
  have hexec (shell : Name) : Goes (emit (.exec shell (arg0 shell) cmdbuf)) :=
    ends_emit (by simp [Step.isRefused])
  refine goes_emit_bind (by decide) ?_
  by_cases hids : sys.setids pwd
  · rw [if_pos hids]
    refine goes_emit_bind (by simp [Step.isRefused]) ?_
    by_cases hdir : sys.chdir pwd.dir
    · rw [if_pos hdir]
      exact hexec _
    · rw [if_neg hdir]
      exact goes_die_bind _ (cons_ne_nil _ _) (hexec _)
  · rw [if_neg hids]
    exact ends_stop

end

theorem goes_doit : Goes (doit sys input) := by
  refine ends_bind (fun s hs => by rw [readPort_eq] at hs; exact nomatch hs) fun a => ?_
  refine ends_bind (goes_secondConnection _) fun _ => ?_
  refine ends_bind (goes_getstr _ _) fun b => ?_
  refine ends_bind (goes_getstr _ _) fun c => ?_
  refine ends_bind (goes_getstr _ _) fun d => ?_
  refine ends_bind (goes_findUser _) fun pwd => ?_
  refine ends_bind (goes_checkPassword _ _) fun _ => ?_
  exact ends_bind (goes_forkRun _) fun _ => goes_execute _ _

/-! ### The command -/

theorem mute_secondConnection : Clear (fun s => ¬ s.isExec) (secondConnection sys port) := by
  rw [secondConnection]
  split_ifs <;> simp [Step.isExec]

theorem value_secondConnection {port : UInt16} (h : (secondConnection sys port).value = some ()) :
    port ≠ 0 → sys.connects port := by
  intro hport
  by_contra hconn
  simp [secondConnection, hport, hconn] at h

theorem authenticated_of_checked {input : Input} (hc : Checked sys input) {s : Step}
    (hs : s ∈ (doit sys input).trace) (hexec : s.isExec) : Authenticated sys input := by
  have hclear : Clear (fun s => s.isExec → Authenticated sys input) (doit sys input) := by
    have hmute : ∀ s : Step, ¬ s.isExec → s.isExec → Authenticated sys input :=
      fun _ h h' => absurd h' h
    refine clear_bind_of (fun s hs => by rw [readPort_eq] at hs; exact nomatch hs) hmute ?_
    rintro ⟨port, rest⟩ hport
    rw [readPort_eq] at hport
    refine clear_bind_of (mute_secondConnection port) hmute fun _ hconn => ?_
    obtain ⟨hw, hc⟩ := hc port rest hport (value_secondConnection hconn)
    rw [getstr_of_whole hw]
    refine clear_bind_of (fun _ h => nomatch h) hmute ?_
    rintro ⟨user, rest₁⟩ huser
    obtain ⟨hw, hc⟩ := hc user rest₁ huser
    dsimp only
    rw [getstr_of_whole hw]
    refine clear_bind_of (fun _ h => nomatch h) hmute ?_
    rintro ⟨pass, rest₂⟩ hpass
    obtain ⟨hw, hc⟩ := hc pass rest₂ hpass
    rw [getstr_of_whole hw]
    refine clear_bind_of (fun _ h => nomatch h) hmute ?_
    rintro ⟨cmd, rest₃⟩ hcmd
    obtain ⟨pwd, hpwd, hmatch, -⟩ := hc cmd rest₃ hcmd
    have hreq : input.request = some ⟨port, user, pass, cmd⟩ := by
      change input.port 0 = _ at hport
      change rest.str = _ at huser
      change rest₁.str = _ at hpass
      change rest₂.str = _ at hcmd
      simp only [Input.request, hport, huser, hpass, hcmd, Option.bind_eq_bind, Option.bind_some]
    exact fun _ _ _ => ⟨_, hreq, pwd, hpwd, hmatch⟩
  exact hclear s hs hexec

/-- **A run is sound just when no check of it fails.** -/
theorem doit_sound_iff (sys : System) (input : Input) :
    Sound sys input (doit sys input).trace ↔ Checked sys input := by
  rw [← quiet_doit_iff]
  constructor
  · intro h s hs hfails
    cases s with
    | refused fmt => exact clear_of_ends (goes_doit input) h.stops _ hs rfl
    | missing => exact h.present hs
    | _ => exact nomatch hfails
  · intro h
    refine ⟨fun s hs => authenticated_of_checked ((quiet_doit_iff input).1 h) hs, ?_,
      fun hm => h _ hm rfl⟩
    intro pre s post hsplit href
    refine absurd ?_ (h s (hsplit ▸ mem_append_right _ mem_cons_self))
    cases s with
    | refused fmt => rfl
    | _ => exact nomatch href

/-- The user `u` has the password field `x`, which nothing gives; the password `p` is sent and the
command `c` is executed. -/
theorem wrong_password_executes : ¬ ∀ sys input, Sound sys input (doit sys input).trace := by
  intro h
  let sys : System := {
    malloc := fun _ => true
    below := fun _ => 0
    garbage := fun _ => []
    connects := fun _ => true
    getpwnam := fun _ => some ⟨[117], [120], [47], [47, 115]⟩
    getspnam := fun _ => none
    crypt := fun _ _ => some [121]
    fork := .child
    setids := fun _ => true
    chdir := fun _ => true
    pathBshell := [47, 115] }
  let input : Input := .byte 0 (.byte 117 (.byte 0 (.byte 112 (.byte 0 (.byte 99 (.byte 0 .eof))))))
  have htrace : (doit sys input).trace =
      [.lookup [117], .crypt [112] [120], .refused "Password incorrect.", .accept, .setids,
        .chdir [47], .exec [47, 115] [115] [99]] := by decide
  obtain ⟨r, -, pwd, hpwd, hmatch⟩ := (h sys input).authenticated (.exec [47, 115] [115] [99])
    (by rw [htrace]; decide) rfl
  rw [← Option.some_inj.1 hpwd] at hmatch
  exact absurd hmatch (by simp [Matches, getUserPassword, sys])

end

end Inetutils.Rexecd.Doit
