import Inetutils.Rexecd.Doit
import Inetutils.Rshd.Domain

/-! # The run of `rshd`

`doit` and `getstr` of `src/rshd.c`, and `localhost` of `libinetutils`, as they are built without
Kerberos. What comes from the client is an `Input`; the options of the connection, the resolver, the
password file, `iruserok` (or `ruserok`) and the answers of the system are parameters.

The resolver returns places in storage of its own, and may overwrite it when it is called again.
`doit` keeps a copy of the name of the client, but gives `local_domain` the place, and there
`localhost` calls the resolver first. `reread` is what is found at the place then; if a name that is
local does not read so any more, it is not verified. But for that every command that is executed has
passed all the checks (`sound_iff`). -/

namespace Inetutils.Rshd.Doit

open Lib.Traced Domain Option List
open Rexecd.Doit (Input)

/-! ### What the run depends on -/

abbrev Addr := UInt32

/-- `struct hostent`, what is used of it; there is always a first address. -/
structure Hostent where
  name : Name
  addr : Addr
  more : List Addr

/-- `gethostname`, once there is room for the name, and the resolver; `reread` is what is at the
place of a name that it has returned, after it has been called again. -/
structure Resolver where
  gethostname : Option Name
  gethostbyaddr : Addr → Option Name
  gethostbyname : Name → Option Hostent
  reread : Name → Name

/-- `struct passwd`, what is used of it. -/
structure Passwd where
  passwd : Option Name
  uid : ℕ
  shell : Name

structure IpOptions where
  bytes : List Byte
  short : bytes.length ≤ 40

/-- In which process `fork` returned, if it did not fail. -/
inductive Fork
  | failed
  | parent
  | child

/-- The system: the client (`inet` if its address is one of the internet), the options if
`getsockopt` gives them and what is in memory behind them, and the answers of the calls that are
made. -/
structure System where
  checkAll : Bool
  resolver : Resolver
  inet : Bool
  addr : Addr
  port : UInt16
  ipOptions : Option IpOptions
  beyond : ℕ → Byte
  clears : Bool
  rresvport : Bool
  connects : UInt16 → Bool
  malloc : ℕ → Bool
  getpwnam : Name → Option Passwd
  iruserok : Addr → Bool → Name → Name → Bool
  nologin : Bool
  writes : Bool
  pipes : Bool
  fork : Fork
  pathBshell : Name

/-! ### The steps -/

/-- What `%s` stands for in a refusal. -/
inductive Errorhost
  | null
  | name (n : Name)
  | address (a : Addr)

inductive Step
  /-- The second connection. -/
  | connect (addr : Addr) (port : UInt16)
  /-- `rshd_error` with this format, before `exit`. -/
  | refused (fmt : String) (host : Errorhost)
  /-- The list of the options is written past its end. -/
  | outside
  | lookup (user : Name)
  /-- The NUL that tells the client that all is well. -/
  | accept
  /-- The loop of the parent. -/
  | relay
  | exec (pwd : Passwd) (shell arg0 cmd : Name)

def Step.isExec : Step → Bool
  | .exec .. => true
  | _ => false

abbrev Run := Prog Step

/-- `rshd_error` and `exit` -/
def fail {α : Type} (fmt : String) (host : Errorhost) : Run α := do
  emit (.refused fmt host)
  stop

/-! ### The connection -/

abbrev IPOPT_EOL : Byte := 0
abbrev IPOPT_NOP : Byte := 1
abbrev IPOPT_LSRR : Byte := 131
abbrev IPOPT_SSRR : Byte := 137

/-- How many times three bytes and a NUL fit in `lbuf`. -/
def lbufRoom : ℕ := 2730

/-- The loop over the options: the room in `lbuf`, the place and `optsize`, which is unsigned. -/
def optionsLoop (optbuf : ℕ → Byte) : ℕ → ℕ → UInt32 → Run Unit
  | 0, _, optsize => if optsize = 0 then pure () else do
    emit .outside
    stop
  | n + 1, cp, optsize =>
    if optsize = 0 then pure ()
    else if optbuf cp = IPOPT_SSRR ∨ optbuf cp = IPOPT_LSRR then stop
    else if optbuf cp = IPOPT_EOL then pure ()
    else if optbuf cp = IPOPT_NOP then optionsLoop optbuf n (cp + 1) (optsize - 1)
    else optionsLoop optbuf n (cp + (optbuf (cp + 1)).toNat) (optsize - (optbuf (cp + 1)).toUInt32)

/-- `optbuf` after `getsockopt`. -/
def optbuf (sys : System) (o : IpOptions) : ℕ → Byte := fun i => (o.bytes[i]?).getD (sys.beyond i)

def checkOptions (sys : System) : Run Unit :=
  match sys.ipOptions with
  | none => pure ()
  | some o =>
    if o.bytes = [] then pure ()
    else do
      optionsLoop (optbuf sys o) lbufRoom 0 o.bytes.length.toUInt32
      if sys.clears then pure () else stop

def checkClient (sys : System) : Run Unit := do
  if sys.inet then
    checkOptions sys
    if 1024 ≤ sys.port ∨ sys.port < 512 then stop else pure ()
  else stop

/-- The loop over the digits of the port: `unsigned short`, and `c` a `char` with a sign. -/
def readPort (port : UInt16) : Input → Run (UInt16 × Input)
  | .byte c input =>
    if c = 0 then pure (port, input)
    else readPort (port * 10 + c.toInt8.toInt16.toUInt16 - 48) input
  | _ => stop

def secondConnection (sys : System) (port : UInt16) : Run Unit := do
  if port ≠ 0 then
    if sys.rresvport then
      if 1024 ≤ port ∨ port < 512 then stop
      else
        emit (.connect sys.addr port)
        if sys.connects port then pure () else stop
    else stop
  else pure ()

/-! ### The name of the client -/

def localhost (r : Resolver) : Option Name :=
  match r.gethostname with
  | none => none
  | some buf =>
    match r.gethostbyname buf with
    | none => some buf
    | some hp => some ((r.gethostbyaddr hp.addr).getD buf)

/-- `local_domain`, of a name in the storage of the resolver. -/
def localDomain (r : Resolver) (h : Name) : Bool :=
  match localhost r with
  | none => false
  | some hostname => sameDomain hostname (r.reread h)

/-- The loop over `h_addr_list`. -/
def listed (addr : Addr) : List Addr → Bool
  | [] => false
  | a :: l => if a = addr then true else listed addr l

/-- `errorstr` and `errorhost` after the lookups. -/
def hostError (sys : System) : Option String × Errorhost :=
  match sys.resolver.gethostbyaddr sys.addr with
  | none => (none, .address sys.addr)
  | some hostname =>
    if sys.checkAll || localDomain sys.resolver hostname then
      match sys.resolver.gethostbyname hostname with
      | none => (some "Couldn't look up address for your host (%s)\n", .name hostname)
      | some hp =>
        if listed sys.addr (hp.addr :: hp.more) then (none, .name hostname)
        else (some "Host address mismatch for %s\n", .name hostname)
    else (none, .null)

/-! ### The user -/

/-- The loop of `getstr` with a buffer of `bufLen` bytes, `buf` read so far. -/
def getstrLoop (sys : System) (err : String) (bufLen : ℕ) (buf : Name) : Input → Run (Name × Input)
  | .byte c input =>
    if bufLen - (buf.length + 1) < bufLen >>> 3 then
      if sys.malloc (bufLen + bufLen) then
        if c = 0 then pure (buf, input)
        else getstrLoop sys err (bufLen + bufLen) (buf ++ [c]) input
      else fail ("Out of space reading " ++ err ++ "\n") .null
    else if c = 0 then pure (buf, input)
    else getstrLoop sys err bufLen (buf ++ [c]) input
  | .eof => fail ("EOF reading " ++ err ++ "\n") .null
  | .error => stop
  | .silence => stop

def getstr (sys : System) (err : String) (input : Input) : Run (Name × Input) := do
  if sys.malloc 100 then getstrLoop sys err 100 [] input
  else fail ("Out of space reading " ++ err ++ "\n") .null

def findUser (sys : System) (error : Option String × Errorhost) (locuser : Name) : Run Passwd := do
  emit (.lookup locuser)
  match sys.getpwnam locuser with
  | some pwd => pure pwd
  | none => fail (error.1.getD "Login incorrect.\n") error.2

def hasPasswd (pwd : Passwd) : Bool :=
  match pwd.passwd with
  | none => false
  | some p => p ≠ []

/-- The test of `errorstr` and `iruserok`. -/
def authorise (sys : System) (error : Option String × Errorhost) (pwd : Passwd)
    (remuser locuser : Name) : Run Unit :=
  if error.1.isSome || (hasPasswd pwd && !sys.iruserok sys.addr (pwd.uid = 0) remuser locuser) then
    fail (error.1.getD "Permission denied.\n") error.2
  else pure ()

def checkNologin (sys : System) (pwd : Passwd) : Run Unit :=
  if pwd.uid ≠ 0 ∧ sys.nologin = true then fail "Logins currently disabled.\n" .null else pure ()

/-! ### The command -/

def accept (sys : System) : Run Unit := do
  if sys.writes then emit .accept else fail "Lost connection.\n" .null

/-- With a second connection there are two processes from here; the parent only relays. -/
def forkRun (sys : System) (port : UInt16) : Run Unit := do
  if port ≠ 0 then
    if sys.pipes then
      match sys.fork with
      | .failed => fail "Can't fork; try again.\n" .null
      | .parent => do
        emit .relay
        stop
      | .child => pure ()
    else fail "Can't make pipe.\n" .null
  else pure ()

def arg0 (shell : Name) : Name := (shell.reverse.takeWhile (· ≠ 47)).reverse

def execute (sys : System) (pwd : Passwd) (cmdbuf : Name) : Run Unit :=
  emit (.exec pwd (if pwd.shell = [] then sys.pathBshell else pwd.shell)
    (arg0 (if pwd.shell = [] then sys.pathBshell else pwd.shell)) cmdbuf)

def doit (sys : System) (input : Input) : Run Unit := do
  checkClient sys
  let (port, input) ← readPort 0 input
  secondConnection sys port
  let (remuser, input) ← getstr sys "remuser" input
  let (locuser, input) ← getstr sys "locuser" input
  let (cmdbuf, _) ← getstr sys "command" input
  let pwd ← findUser sys (hostError sys) locuser
  authorise sys (hostError sys) pwd remuser locuser
  checkNologin sys pwd
  accept sys
  forkRun sys port
  execute sys pwd cmdbuf

/-! ### What is asked of it -/

/-- The options, one after the other, up to the end of the list or to one that is not whole. -/
def sourceRouted : ℕ → List Byte → Bool
  | 0, _ => false
  | _ + 1, [] => false
  | n + 1, c :: l =>
    if c = IPOPT_SSRR ∨ c = IPOPT_LSRR then true
    else if c = IPOPT_EOL then false
    else if c = IPOPT_NOP then sourceRouted n l
    else
      match l with
      | [] => false
      | len :: l =>
        if 2 ≤ len.toNat ∧ len.toNat ≤ l.length + 2 then sourceRouted n (l.drop (len.toNat - 2))
        else false

def IpOptions.routed (o : IpOptions) : Bool := sourceRouted o.bytes.length o.bytes

structure Request where
  port : UInt16
  remuser : Name
  locuser : Name
  cmd : Name

def request (input : Input) : Option Request := do
  let (port, input) ← input.port 0
  let (remuser, input) ← input.str
  let (locuser, input) ← input.str
  let (cmd, _) ← input.str
  some ⟨port, remuser, locuser, cmd⟩

def Confirms (r : Resolver) (addr : Addr) (name : Name) : Prop :=
  ∃ hp, r.gethostbyname name = some hp ∧ addr ∈ hp.addr :: hp.more

structure Checked (sys : System) (input : Input) : Prop where
  port : 512 ≤ sys.port ∧ sys.port < 1024
  options : ∀ o, sys.ipOptions = some o → o.routed = false
  user : ∃ r, request input = some r ∧ ∃ pwd, sys.getpwnam r.locuser = some pwd ∧
    (hasPasswd pwd = false ∨ sys.iruserok sys.addr (pwd.uid = 0) r.remuser r.locuser = true) ∧
    (pwd.uid ≠ 0 → sys.nologin = false)
  host : ∀ name, sys.resolver.gethostbyaddr sys.addr = some name →
    (sys.checkAll = true ∨ ∃ l, localhost sys.resolver = some l ∧ Local l name) →
    Confirms sys.resolver sys.addr name

/-- What `rshd` is for. -/
structure Sound (sys : System) (input : Input) (trace : List Step) : Prop where
  second : ∀ addr port, .connect addr port ∈ trace → addr = sys.addr ∧ 512 ≤ port ∧ port < 1024
  checked : ∀ s ∈ trace, s.isExec → Checked sys input

/-- All names are verified, or the client's, if it is local, still reads so, or it needs no
verifying. -/
def Reads (r : Resolver) (checkAll : Bool) (addr : Addr) : Prop :=
  checkAll = true ∨ ∀ name l, r.gethostbyaddr addr = some name → localhost r = some l →
    Local l name →
    Local l (r.reread name) ∨ Confirms r addr name

/-! ### The parts -/

def Step.plain : Step → Prop
  | .connect .. => False
  | .exec .. => False
  | _ => True

abbrev Plain {α : Type} (x : Run α) : Prop := Clear Step.plain x

section
variable {sys : System} {α : Type}

@[simp] theorem plain_fail (fmt : String) (host : Errorhost) : Plain (fail fmt host : Run α) := by
  simp [fail, Step.plain]

@[simp] theorem value_fail (fmt : String) (host : Errorhost) :
    (fail fmt host : Run α).value = none := rfl

theorem plain_optionsLoop (optbuf : ℕ → Byte) (n cp : ℕ) (optsize : UInt32) :
    Plain (optionsLoop optbuf n cp optsize) := by
  induction n generalizing cp optsize with
  | zero =>
    rw [optionsLoop]
    split_ifs
    · exact clear_pure _
    · simp [Step.plain]
  | succ n ih =>
    rw [optionsLoop]
    split_ifs
    · exact clear_pure _
    · exact clear_stop
    · exact clear_pure _
    · exact ih _ _
    · exact ih _ _

theorem plain_checkOptions : Plain (checkOptions sys) := by
  unfold checkOptions
  split
  · exact clear_pure _
  split
  · exact clear_pure _
  · refine (clear_bind _ _).2 ⟨plain_optionsLoop _ _ _ _, fun _ _ => ?_⟩
    split
    · exact clear_pure _
    · exact clear_stop

theorem plain_checkClient : Plain (checkClient sys) := by
  unfold checkClient
  split
  · refine (clear_bind _ _).2 ⟨plain_checkOptions, fun _ _ => ?_⟩
    split
    · exact clear_stop
    · exact clear_pure _
  · exact clear_stop

theorem readPort_eq (port : UInt16) (input : Input) :
    readPort port input = ⟨[], input.port port⟩ := by
  induction input generalizing port with
  | byte c input ih =>
    rw [readPort, Input.port]
    split_ifs
    · rfl
    · exact ih _
  | eof | error | silence => rfl

theorem plain_getstrLoop (err : String) (bufLen : ℕ) (buf : Name) (input : Input) :
    Plain (getstrLoop sys err bufLen buf input) := by
  induction input generalizing bufLen buf with
  | byte c input ih =>
    rw [getstrLoop]
    split_ifs
    · exact clear_pure _
    · exact ih _ _
    · exact plain_fail _ _
    · exact clear_pure _
    · exact ih _ _
  | eof => exact plain_fail _ _
  | error | silence => exact clear_stop

theorem plain_getstr (err : String) (input : Input) : Plain (getstr sys err input) := by
  rw [getstr]
  split_ifs
  · exact plain_getstrLoop _ _ _ _
  · exact plain_fail _ _

variable {err : String} {input : Input} {name : Name} {pwd : Passwd}

theorem value_getstrLoop {bufLen : ℕ} {buf : Name} {r : Name × Input}
    (h : (getstrLoop sys err bufLen buf input).value = some r) :
    input.str = some (r.1.drop buf.length, r.2) ∧ buf <+: r.1 := by
  induction input generalizing bufLen buf with
  | byte c input ih =>
    have hnext : ∀ n, (getstrLoop sys err n (buf ++ [c]) input).value = some r → c ≠ 0 →
        (Input.byte c input).str = some (r.1.drop buf.length, r.2) ∧ buf <+: r.1 := by
      intro n hn hc
      obtain ⟨hstr, hpre⟩ := ih hn
      obtain ⟨t, ht⟩ := hpre
      refine ⟨?_, ⟨c :: t, by rw [← ht]; simp⟩⟩
      rw [Input.str, if_neg hc, hstr, ← ht]
      simp
    have hlast : some (buf, input) = some r → c = 0 →
        (Input.byte c input).str = some (r.1.drop buf.length, r.2) ∧ buf <+: r.1 := by
      intro hr hc
      obtain rfl := some.inj hr
      rw [Input.str, if_pos hc]
      exact ⟨by simp, prefix_rfl⟩
    rw [getstrLoop] at h
    split_ifs at h with _ _ hc hc
    · exact hlast h hc
    · exact hnext _ h hc
    · cases h
    · exact hlast h hc
    · exact hnext _ h hc
  | eof => cases h
  | error | silence => cases h

theorem value_getstr {r : Name × Input} (h : (getstr sys err input).value = some r) :
    input.str = some r := by
  rw [getstr] at h
  split_ifs at h
  · simpa using (value_getstrLoop h).1
  · exact nomatch h

/-! ### The options -/

theorem toUInt32_sub {a : ℕ} {x : UInt32} (ha : a ≤ 40) (hx : x.toNat ≤ a) : a.toUInt32 - x =
    (a - x.toNat).toUInt32 := by
  rw [← UInt32.toNat_inj, UInt32.toNat_sub]
  change (2 ^ 32 - x.toNat + a % 2 ^ 32) % 2 ^ 32 = (a - x.toNat) % 2 ^ 32
  omega

theorem not_routed_of_loop {optbuf : ℕ → Byte} {n : ℕ} : ∀ {cp : ℕ} {l : List Byte} (k : ℕ),
    l.length ≤ 40 → (∀ i (h : i < l.length), optbuf (cp + i) = l[i]) →
    (optionsLoop optbuf n cp l.length.toUInt32).value = some () → sourceRouted k l = false := by
  induction n with
  | zero =>
    intro cp l k hlen _ h
    rcases l with _ | ⟨c, l⟩
    · cases k <;> rfl
    · rw [optionsLoop, if_neg] at h
      · exact nomatch h
      · intro hzero
        have hnat := congrArg UInt32.toNat hzero
        change (c :: l).length % 2 ^ 32 = 0 at hnat
        rw [length_cons] at hnat hlen
        omega
  | succ n ih =>
    intro cp l k hlen hbuf h
    rcases l with _ | ⟨c, l⟩
    · cases k <;> rfl
    rcases k with _ | k
    · rfl
    have hc : optbuf cp = c := hbuf 0 (by simp)
    have hne : (c :: l).length.toUInt32 ≠ 0 := by
      intro hzero
      have hnat := congrArg UInt32.toNat hzero
      change (c :: l).length % 2 ^ 32 = 0 at hnat
      rw [length_cons] at hnat hlen
      omega
    rw [length_cons] at hlen
    rw [optionsLoop, if_neg hne, hc] at h
    unfold sourceRouted
    by_cases hroute : c = IPOPT_SSRR ∨ c = IPOPT_LSRR
    · rw [if_pos hroute] at h
      exact nomatch h
    rw [if_neg hroute] at h ⊢
    by_cases heol : c = IPOPT_EOL
    · rw [if_pos heol]
    rw [if_neg heol] at h ⊢
    by_cases hnop : c = IPOPT_NOP
    · rw [if_pos hnop] at h ⊢
      rw [length_cons, toUInt32_sub hlen (by change 1 ≤ _; omega)] at h
      refine ih k (by omega) (fun i hi => ?_) h
      have hnext := hbuf (i + 1) (by rw [length_cons]; omega)
      rw [show cp + (i + 1) = cp + 1 + i by omega] at hnext
      exact hnext
    rw [if_neg hnop] at h ⊢
    rcases l with _ | ⟨len, l⟩
    · rfl
    have hl : optbuf (cp + 1) = len := hbuf 1 (by simp)
    dsimp only
    rw [hl] at h
    by_cases hwhole : 2 ≤ len.toNat ∧ len.toNat ≤ l.length + 2
    · rw [if_pos hwhole]
      have hlen' : (c :: len :: l).length = l.length + 2 := rfl
      have hx : len.toUInt32.toNat = len.toNat := UInt8.toNat_toUInt32 len
      have hroom : l.length + 2 ≤ 40 := hlen
      rw [hlen', toUInt32_sub hroom (by rw [hx]; exact hwhole.2), hx] at h
      have hdrop : (l.drop (len.toNat - 2)).length = l.length + 2 - len.toNat := by
        rw [length_drop]
        omega
      rw [← hdrop] at h
      refine ih k (by rw [hdrop]; simp only [length_cons] at hlen; omega) (fun i hi => ?_) h
      rw [hdrop] at hi
      have hnext := hbuf (len.toNat + i) (by rw [hlen']; omega)
      rw [← Nat.add_assoc] at hnext
      rw [hnext, getElem_drop]
      have hpos : len.toNat + i = (len.toNat - 2 + i) + 1 + 1 := by omega
      simp only [hpos, getElem_cons_succ]
    · rw [if_neg hwhole]

theorem routed_of_checkOptions (h : (checkOptions sys).value = some ()) {o : IpOptions}
    (ho : sys.ipOptions = some o) : o.routed = false := by
  unfold checkOptions at h
  rw [ho] at h
  dsimp only at h
  split at h
  next hnil => rw [IpOptions.routed, hnil]; rfl
  next =>
    rw [value_bind, bind_eq_some_iff] at h
    obtain ⟨_, hloop, -⟩ := h
    refine not_routed_of_loop o.bytes.length o.short (fun i hi => ?_) hloop
    rw [Nat.zero_add, optbuf, getElem?_eq_getElem hi]
    rfl

theorem of_checkClient (h : (checkClient sys).value = some ()) :
    (512 ≤ sys.port ∧ sys.port < 1024) ∧ ∀ o, sys.ipOptions = some o → o.routed = false := by
  unfold checkClient at h
  split at h
  next =>
    rw [value_bind, bind_eq_some_iff] at h
    obtain ⟨_, hopt, hport⟩ := h
    split at hport
    next => exact nomatch hport
    next hin =>
      rw [not_or, UInt16.not_le, UInt16.not_lt] at hin
      exact ⟨⟨hin.2, hin.1⟩, fun o ho => routed_of_checkOptions hopt ho⟩
  next => exact nomatch h

/-! ### The name -/

theorem listed_iff (addr : Addr) (l : List Addr) : listed addr l = true ↔ addr ∈ l := by
  induction l with
  | nil => simp [listed]
  | cons a l ih =>
    rw [listed, mem_cons]
    split
    next h => exact iff_of_true rfl (.inl h.symm)
    next h => rw [ih, or_iff_right (Ne.symm h)]

theorem confirms_of_hostError (h : (hostError sys).1 = none)
    (hname : sys.resolver.gethostbyaddr sys.addr = some name)
    (hmust : sys.checkAll = true ∨ localDomain sys.resolver name = true) :
    Confirms sys.resolver sys.addr name := by
  unfold hostError at h
  rw [hname] at h
  dsimp only at h
  rw [if_pos (by rw [Bool.or_eq_true]; exact hmust)] at h
  split at h
  next => exact nomatch h
  next hp hhp =>
    split at h
    next hin => exact ⟨hp, hhp, (listed_iff _ _).1 hin⟩
    next => exact nomatch h

theorem localDomain_iff {r : Resolver} {l : Name} (hl : localhost r = some l) (name : Name) :
    localDomain r name = true ↔ Local l (r.reread name) := by
  rw [localDomain, hl]
  exact sameDomain_iff l (r.reread name)

theorem confirms_of_reads (hreads : Reads sys.resolver sys.checkAll sys.addr)
    (h : (hostError sys).1 = none) (hname : sys.resolver.gethostbyaddr sys.addr = some name)
    (hmust : sys.checkAll = true ∨ ∃ l, localhost sys.resolver = some l ∧ Local l name) :
    Confirms sys.resolver sys.addr name := by
  by_cases hall : sys.checkAll = true
  · exact confirms_of_hostError h hname (.inl hall)
  obtain ⟨l, hl, hlocal⟩ := hmust.resolve_left hall
  obtain hread | hconf := hreads.resolve_left hall name l hname hl hlocal
  · exact confirms_of_hostError h hname (.inr ((localDomain_iff hl name).2 hread))
  · exact hconf

/-! ### The user -/

variable (error : Option String × Errorhost)

theorem plain_findUser (locuser : Name) : Plain (findUser sys error locuser) := by
  rw [findUser, Plain, clear_emit_bind]
  refine ⟨trivial, ?_⟩
  split
  · exact clear_pure _
  · exact plain_fail _ _

theorem of_findUser {error : Option String × Errorhost} {locuser : Name}
    (h : (findUser sys error locuser).value = some pwd) : sys.getpwnam locuser = some pwd := by
  rw [findUser, value_bind] at h
  rcases hp : sys.getpwnam locuser with _ | p
  · rw [hp] at h
    exact nomatch h
  · rw [hp] at h
    exact h

theorem plain_authorise (pwd : Passwd) (remuser locuser : Name) :
    Plain (authorise sys error pwd remuser locuser) := by
  unfold authorise
  split
  · exact plain_fail _ _
  · exact clear_pure _

theorem of_authorise {error : Option String × Errorhost} {remuser locuser : Name}
    (h : (authorise sys error pwd remuser locuser).value = some ()) :
    error.1 = none ∧
    (hasPasswd pwd = false ∨ sys.iruserok sys.addr (pwd.uid = 0) remuser locuser = true) := by
  unfold authorise at h
  split at h
  next => exact nomatch h
  next hno =>
    simp only [Bool.or_eq_true, isSome_iff_ne_none, ne_eq, Bool.and_eq_true, Bool.not_eq_true',
      not_or, not_not, not_and, Bool.not_eq_false] at hno
    refine ⟨hno.1, ?_⟩
    by_cases hpw : hasPasswd pwd = true
    · exact .inr (hno.2 hpw)
    · exact .inl (Bool.eq_false_iff.2 hpw)

theorem plain_checkNologin (pwd : Passwd) : Plain (checkNologin sys pwd) := by
  unfold checkNologin
  split
  · exact plain_fail _ _
  · exact clear_pure _

theorem of_checkNologin (h : (checkNologin sys pwd).value = some ()) :
    pwd.uid ≠ 0 → sys.nologin = false := by
  unfold checkNologin at h
  split at h
  next => exact nomatch h
  next hno => exact fun huid => Bool.eq_false_iff.2 fun hn => hno ⟨huid, hn⟩

theorem plain_accept : Plain (accept sys) := by
  unfold accept
  split
  · exact (clear_emit _).2 trivial
  · exact plain_fail _ _

theorem plain_forkRun (port : UInt16) : Plain (forkRun sys port) := by
  unfold forkRun
  split
  · split
    · split
      · exact plain_fail _ _
      · exact (clear_emit_bind _ _).2 ⟨trivial, clear_stop⟩
      · exact clear_pure _
    · exact plain_fail _ _
  · exact clear_pure _

/-! ### The run -/

/-- The second connection goes to the client, at a reserved port. -/
def Step.Second (sys : System) (s : Step) : Prop :=
  ∃ port, s = .connect sys.addr port ∧ 512 ≤ port ∧ port < 1024

theorem second_secondConnection (port : UInt16) :
    Clear (Step.Second sys) (secondConnection sys port) := by
  unfold secondConnection
  split
  · split
    · split
      next => exact clear_stop
      next hin =>
        rw [not_or, UInt16.not_le, UInt16.not_lt] at hin
        refine (clear_emit_bind _ _).2 ⟨⟨port, rfl, hin.2, hin.1⟩, ?_⟩
        split
        · exact clear_pure _
        · exact clear_stop
    · exact clear_stop
  · exact clear_pure _

structure Step.Good (sys : System) (input : Input) (s : Step) : Prop where
  second : ∀ addr port, s = .connect addr port → addr = sys.addr ∧ 512 ≤ port ∧ port < 1024
  checked : s.isExec → Checked sys input

theorem good_of_plain (s : Step) (h : s.plain) : s.Good sys input := by
  cases s with
  | connect | exec => exact h.elim
  | _ => exact ⟨fun _ _ h => (nomatch h), fun h => (nomatch h)⟩

theorem good_of_second (s : Step) (h : s.Second sys) : s.Good sys input := by
  obtain ⟨port, rfl, hport⟩ := h
  refine ⟨fun addr port' heq => ?_, fun h => (nomatch h)⟩
  obtain ⟨rfl, rfl⟩ := Step.connect.inj heq
  exact ⟨rfl, hport⟩

theorem good_doit (hreads : Reads sys.resolver sys.checkAll sys.addr) (input : Input) :
    Clear (Step.Good sys input) (doit sys input) := by
  refine clear_bind_of plain_checkClient good_of_plain fun _ hclient => ?_
  obtain ⟨hport, hoptions⟩ := of_checkClient hclient
  refine clear_bind_of (by rw [readPort_eq]; exact fun s hs => nomatch hs) good_of_plain ?_
  rintro ⟨port, rest⟩ hread
  rw [readPort_eq] at hread
  refine clear_bind_of (second_secondConnection port) good_of_second fun _ _ => ?_
  refine clear_bind_of (plain_getstr _ _) good_of_plain ?_
  rintro ⟨remuser, rest₁⟩ hremuser
  refine clear_bind_of (plain_getstr _ _) good_of_plain ?_
  rintro ⟨locuser, rest₂⟩ hlocuser
  refine clear_bind_of (plain_getstr _ _) good_of_plain ?_
  rintro ⟨cmdbuf, rest₃⟩ hcmd
  refine clear_bind_of (plain_findUser _ _) good_of_plain fun pwd hpwd => ?_
  refine clear_bind_of (plain_authorise _ _ _ _) good_of_plain fun _ hauth => ?_
  refine clear_bind_of (plain_checkNologin _) good_of_plain fun _ hnologin => ?_
  refine clear_bind_of plain_accept good_of_plain fun _ _ => ?_
  refine clear_bind_of (plain_forkRun _) good_of_plain fun _ _ => ?_
  obtain ⟨herror, huser⟩ := of_authorise hauth
  have hrequest : request input = some ⟨port, remuser, locuser, cmdbuf⟩ := by
    have h1 : input.port 0 = some (port, rest) := hread
    have h2 : rest.str = some (remuser, rest₁) := value_getstr hremuser
    have h3 : rest₁.str = some (locuser, rest₂) := value_getstr hlocuser
    have h4 : rest₂.str = some (cmdbuf, rest₃) := value_getstr hcmd
    simp only [request, h1, h2, h3, h4, bind_eq_bind, bind_some]
  have hchecked : Checked sys input := by
    refine ⟨hport, hoptions,
      ⟨_, hrequest, pwd, of_findUser hpwd, huser, of_checkNologin hnologin⟩, ?_⟩
    exact fun name hname hmust => confirms_of_reads hreads herror hname hmust
  exact (clear_emit _).2 ⟨fun _ _ h => (nomatch h), fun _ => hchecked⟩

theorem sound_of_good {x : Run Unit} (h : Clear (Step.Good sys input) x) :
    Sound sys input x.trace :=
  ⟨fun addr port hs => (h _ hs).second addr port rfl, fun s hs => (h s hs).checked⟩

end

/-! ### A name that is not verified -/

def obliging (r : Resolver) (checkAll : Bool) (addr : Addr) : System where
  checkAll := checkAll
  resolver := r
  inet := true
  addr := addr
  port := 1023
  ipOptions := none
  beyond := fun _ => 0
  clears := true
  rresvport := true
  connects := fun _ => true
  malloc := fun _ => true
  getpwnam := fun _ => some ⟨none, 0, [47]⟩
  iruserok := fun _ _ _ _ => true
  nologin := false
  writes := true
  pipes := true
  fork := .child
  pathBshell := [47]

/-- The request: no second connection, and three empty strings. -/
def empties : Input := .byte 0 (.byte 0 (.byte 0 (.byte 0 .eof)))

variable {r : Resolver} {addr : Addr}

theorem exec_obliging {checkAll : Bool} {e : Errorhost}
    (h : hostError (obliging r checkAll addr) = (none, e)) :
    .exec ⟨none, 0, [47]⟩ [47] [] [] ∈ (doit (obliging r checkAll addr) empties).trace := by
  have hauth :
      (authorise (obliging r checkAll addr) (hostError (obliging r checkAll addr)) ⟨none, 0, [47]⟩
      [] []).value = some () := by
    rw [h]
    rfl
  refine mem_trace_bind (a := ()) rfl ?_
  refine mem_trace_bind (a := (0, .byte 0 (.byte 0 (.byte 0 .eof)))) rfl ?_
  refine mem_trace_bind (a := ()) rfl ?_
  refine mem_trace_bind (a := ([], .byte 0 (.byte 0 .eof))) rfl ?_
  refine mem_trace_bind (a := ([], .byte 0 .eof)) rfl ?_
  refine mem_trace_bind (a := ([], .eof)) rfl ?_
  refine mem_trace_bind (a := ⟨none, 0, [47]⟩) rfl ?_
  refine mem_trace_bind hauth ?_
  refine mem_trace_bind (a := ()) rfl ?_
  refine mem_trace_bind (a := ()) rfl ?_
  refine mem_trace_bind (a := ()) rfl ?_
  exact mem_singleton.2 rfl

theorem hostError_of_misread {name l : Name} (hname : r.gethostbyaddr addr = some name)
    (hl : localhost r = some l) (hread : ¬ Local l (r.reread name)) :
    hostError (obliging r false addr) = (none, .null) := by
  have hno : localDomain r name = false := Bool.eq_false_iff.2 fun h =>
    hread ((localDomain_iff hl name).1 h)
  change (match r.gethostbyaddr addr with | none => _ | some hostname => _) = _
  rw [hname]
  change (if (false || localDomain r name) = true then _ else _) = _
  rw [hno]
  rfl

/-- **When every command that is executed has passed the checks:** just when the name of the client,
if it is local and not confirmed, still reads so at its place in the storage of the resolver, or all
names are verified. -/
theorem sound_iff (r : Resolver) (checkAll : Bool) (addr : Addr) :
    (∀ (sys : System) (input : Input), sys.resolver = r → sys.checkAll = checkAll →
      sys.addr = addr → Sound sys input (doit sys input).trace) ↔ Reads r checkAll addr := by
  constructor
  · intro h
    rcases checkAll with _ | _
    swap
    · exact .inl rfl
    refine .inr fun name l hname hl hlocal => ?_
    by_contra hno
    rw [not_or] at hno
    have hexec := exec_obliging (hostError_of_misread hname hl hno.1)
    have hchecked := (h (obliging r false addr) empties rfl rfl rfl).checked _ hexec rfl
    exact hno.2 (hchecked.host name hname (.inr ⟨l, hl, hlocal⟩))
  · rintro hreads sys input rfl rfl rfl
    exact sound_of_good (good_doit hreads input)

/-- The client's name is `c.e.o`, the host's own `h.e.o`, which nobody else has; what is read again
of a name is `a.b`. -/
theorem not_sound_overwritten : ¬ ∀ sys input, Sound sys input (doit sys input).trace := by
  intro h
  let r : Resolver := {
    gethostname := some [104]
    gethostbyaddr :=
      fun a => some (if a = 1 then [104, 46, 101, 46, 111] else [99, 46, 101, 46, 111])
    gethostbyname := fun _ => some ⟨[104, 46, 101, 46, 111], 1, []⟩
    reread := fun _ => [97, 46, 98] }
  have hname : r.gethostbyaddr 2 = some [99, 46, 101, 46, 111] := rfl
  have hl : localhost r = some [104, 46, 101, 46, 111] := rfl
  have hlocal : Local [104, 46, 101, 46, 111] [99, 46, 101, 46, 111] :=
    (sameDomain_iff _ _).1 (by decide)
  have hread : ¬ Local [104, 46, 101, 46, 111] (r.reread [99, 46, 101, 46, 111]) :=
    fun hloc => absurd ((sameDomain_iff _ _).2 hloc) (by decide)
  have hexec := exec_obliging (hostError_of_misread hname hl hread)
  obtain ⟨hp, hhp, hin⟩ := ((h (obliging r false 2) empties).checked _ hexec rfl).host _ hname
    (.inr ⟨_, hl, hlocal⟩)
  obtain rfl := some.inj hhp
  exact absurd hin (by decide)

end Inetutils.Rshd.Doit
