import Inetutils.Lib.Descriptors

/-! # The data connection of ftp

`data` of `src/ftp.c`, with `initconn` and `dataconn`, which open it, and what `lostpeer` of
`src/main.c` does to it. What the calls give is in a label, and a reply says whether an interrupt
came while it was awaited: an interrupt acts at the calls that wait, and where the peer is lost
`pswitch` forgets it.

* `Tidy`: `data` was closed only while it was a data connection, and every data connection is in
  `data`. -/

namespace Inetutils.Ftp.Descriptors

open Lib.Descriptors Option List

/-! ### The control connections -/

/-- What `pswitch` exchanges: a control connection, here with its family. -/
structure Ctl where
  connected : Bool
  cpend : Bool
  inet6 : Bool
  deriving DecidableEq

structure Control where
  ctl : Ctl
  other : Ctl
  proxy : Bool
  doepsv4 : Bool
  deriving DecidableEq

/-- The end of the connection, a reply of 421, or one with its first digit, and whether it was
interrupted. -/
inductive Reply
  | eof (intr : Bool)
  | closing (intr : Bool)
  | digit (n : ℕ) (intr : Bool)
  deriving DecidableEq

def Reply.intr : Reply → Bool
  | eof i | closing i | digit _ i => i

/-- What is returned, unless an interrupt is acted on; and whether `lostpeer` found a standing
connection. -/
structure Heard where
  ret : Option ℕ
  drops : Bool
  control : Control

def Heard.andThen (h : Heard) (f : Control → Heard) : Heard :=
  { f h.control with drops := h.drops || (f h.control).drops }

namespace Control

def pswitch (flag : Bool) (c : Control) : Control :=
  if c.proxy = flag then c else { c with ctl := c.other, other := c.ctl, proxy := flag }

def connect (b : Bool) (c : Control) : Control := { c with ctl := { c.ctl with connected := b } }

def pend (b : Bool) (c : Control) : Control := { c with ctl := { c.ctl with cpend := b } }

/-- `lostpeer`, but for `data`. -/
def lostpeer (c : Control) : Control :=
  (((c.connect false).pswitch true).connect false).pswitch false

/-- An interrupt is not acted on at the end of the connection. -/
def getreply (r : Reply) (c : Control) : Heard :=
  match r with
  | .eof _ => ⟨some 4, c.ctl.connected, c.lostpeer⟩
  | .closing intr => ⟨if intr then none else some 4, c.ctl.connected, (c.pend false).lostpeer⟩
  | .digit n intr => ⟨if intr then none else some n, false, if n = 1 then c else c.pend false⟩

def command (r : Reply) (c : Control) : Heard :=
  if c.ctl.connected then
    { getreply r (c.pend true) with ret := if r.intr then none else (getreply r (c.pend true)).ret }
  else ⟨some 0, false, c⟩

def offer (ret : ℕ) : List Reply → Control → Heard
  | [], c => ⟨some ret, false, c⟩
  | r :: rs, c =>
    match (command r c).ret with
    | none => command r c
    | some n => if n = 2 then command r c else (command r c).andThen (offer n rs)

/-- EPSV, PASV and LPSV, or EPRT, PORT and LPRT: what is left of `doepsv4` where the first fails. -/
def negotiate (ret : ℕ) (ext plain long : Reply) (c : Control) : Heard :=
  if c.ctl.inet6 then offer ret [ext, long] c
  else if c.doepsv4 then
    match (command ext c).ret with
    | none => command ext c
    | some n =>
      if n = 2 then command ext c
      else (command ext c).andThen fun c => offer n [plain, long] { c with doepsv4 := false }
  else offer ret [plain, long] c

/-- REST, and then the command of the transfer: 1 where it begins. -/
def begin (rest : Option Reply) (cmd : Reply) (c : Control) : Heard :=
  match rest with
  | none => command cmd c
  | some r =>
    match (command r c).ret with
    | none => command r c
    | some n =>
      if n = 3 then (command r c).andThen (command cmd) else { command r c with ret := some 0 }

end Control

/-! ### The descriptors -/

inductive Use
  | data
  | file
  deriving DecidableEq

/-- `none` is -1. `closes` is what each `close (data)` has met. -/
structure Client where
  data : Option ℕ
  table : Table Use
  closes : List (Option Use)
  control : Control
  passivemode : Bool
  sendport : ℤ
  deriving DecidableEq

inductive Out
  | done
  | failed
  | intr
  deriving DecidableEq

namespace Client

/-- `close (data)`. -/
def closeData (s : Client) : Client :=
  { s with
    closes := s.closes ++ [s.data.bind s.table.get]
    table := s.data.elim s.table s.table.close }

/-- `close (data), data = -1`. -/
def giveUp (s : Client) : Client := { s.closeData with data := none }

/-- The same if `data >= 0`. -/
def giveUpOpen (s : Client) : Client := if s.data.isSome then s.giveUp else s

/-- `data = socket ()`. -/
def socket (p : Pick) (s : Client) : Client :=
  { s with data := some (p.of s.table), table := s.table.opened p .data }

def fclose (fd : Option ℕ) (s : Client) : Client :=
  { s with table := fd.elim s.table s.table.close }

/-- Commands and replies, with what `lostpeer` does to `data`. -/
def heard (h : Heard) (s : Client) : Client :=
  { (if h.drops then s.giveUpOpen else s) with control := h.control }

def getreply (r : Reply) (s : Client) : Client := s.heard (s.control.getreply r)

end Client

/-! ### `initconn` and `dataconn` -/

/-- What the calls of `initconn` give. The replies are those to EPSV, PASV and LPSV, or to EPRT,
PORT and LPRT; `bind` is `setsockopt`, `bind` and `getsockname`, and there are a second `socket` and
`bind` after `goto noport`. -/
structure Conn where
  socket : Option Pick
  ext : Reply
  plain : Reply
  long : Reply
  scan : Bool
  abor : Reply
  connect : Out
  bind : Bool
  again : Option Pick
  bindAgain : Bool

/-- The end of the passive mode: `connect` fails on -1. -/
def connect (o : Out) (s : Client) : Out × Client :=
  match s.data, o with
  | none, _ | some _, .failed => (.failed, s.giveUp)
  | some _, o => (o, s)

/-- ABOR, and then `bad`. -/
def cancel (h : Heard) (s : Client) : Out × Client :=
  match h.ret with
  | none => (.intr, s.heard h)
  | some _ => (.failed, (s.heard h).giveUp)

def passiveReply (c : Conn) (h : Heard) (s : Client) : Out × Client :=
  match h.ret with
  | none => (.intr, s.heard h)
  | some n =>
    if n = 2 then
      if c.scan then connect c.connect (s.heard h)
      else cancel (h.control.command c.abor) (s.heard h)
    else (.failed, (s.heard h).giveUp)

def passive (c : Conn) (s : Client) : Out × Client :=
  match c.socket with
  | none => (.failed, { s with data := none })
  | some p => passiveReply c (s.control.negotiate 0 c.ext c.plain c.long) (s.socket p)

/-- From `noport` to `listen`, but for the first `close`. -/
def bound (socket : Option Pick) (bind : Bool) (s : Client) : Out × Client :=
  match socket with
  | none => (.failed, { s with data := none })
  | some p => if bind then (.done, s.socket p) else (.failed, (s.socket p).giveUp)

def noport (socket : Option Pick) (bind : Bool) (s : Client) : Out × Client :=
  bound socket bind (if s.data.isSome then s.closeData else s)

/-- `goto noport`, with `tmpno`. -/
def again (c : Conn) (s : Client) : Out × Client :=
  match noport c.again c.bindAgain { s with sendport := 0 } with
  | (o, s) => (o, { s with sendport := 1 })

def activeReply (c : Conn) (h : Heard) (s : Client) : Out × Client :=
  match h.ret with
  | none => (.intr, s.heard h)
  | some n =>
    if n = 5 ∧ s.sendport = -1 then again c (s.heard h)
    else (if n = 2 then .done else .failed, s.heard h)

def active (c : Conn) (s : Client) : Out × Client :=
  match noport c.socket c.bind s with
  | (.done, s) =>
    if s.sendport = 0 then (.done, s)
    else activeReply c (s.control.negotiate 5 c.ext c.plain c.long) s
  | (o, s) => (o, s)

def initconn (c : Conn) (s : Client) : Out × Client :=
  if s.passivemode then passive c s else active c s

/-- What `accept` gives, whether it is interrupted, and `fdopen`. -/
structure Accept where
  accept : Option Pick
  intr : Bool
  fdopen : Bool

/-- The connection takes the place of the socket that listened. -/
def Client.accepted (p : Pick) (s : Client) : Client :=
  { ({ s with table := s.table.opened p .data } : Client).closeData with
    data := some (p.of s.table) }

/-- The stream by its descriptor; none where there is none or `accept` is interrupted, which fails
at once on -1. -/
def dataconn (a : Accept) (s : Client) : Option ℕ × Client :=
  if s.passivemode then (if a.fdopen then s.data else none, s)
  else if s.data.isSome ∧ a.intr then (none, s)
  else
    match s.data, a.accept with
    | some _, some p => (if a.fdopen then some (p.of s.table) else none, s.accepted p)
    | _, _ => (none, s.giveUp)

/-! ### What is to be kept -/

/-- **Tidy**: `data` was closed only while it was a data connection, and every data connection is in
`data`. -/
structure Tidy (s : Client) : Prop where
  closes : ∀ u ∈ s.closes, u = some .data
  held : ∀ fd, s.table.get fd = some .data → s.data = some fd

/-! ### The conditions -/

/-- There is a data connection in `data`. -/
def Live (s : Client) : Prop := s.data.bind s.table.get = some .data

/-- The number in `data` is not that of a data connection: the stream over it was closed. -/
def Stale (s : Client) : Prop := s.data ≠ none ∧ ¬ Live s

instance (s : Client) : Decidable (Live s) := by unfold Live; infer_instance

instance (s : Client) : Decidable (Stale s) := by unfold Stale; infer_instance

section
variable (c : Conn) (s : Client)

/-- EPSV, PASV and LPSV as they are answered, or EPRT, PORT and LPRT. -/
def Conn.replies : Heard :=
  s.control.negotiate (if s.passivemode then 0 else 5) c.ext c.plain c.long

def Conn.heard : Heard :=
  if (c.replies s).ret = some 2 ∧ c.scan = false then (c.replies s).andThen (Control.command c.abor)
  else c.replies s

def Conn.Passive : Prop :=
  ¬ Live s ∧ (c.socket.isSome → (c.heard s).drops → (c.heard s).ret = none)

/-- In the passive mode nothing is in `data`, and where the peer is lost an interrupt follows; with
a port the number in `data` is not stale. -/
def Conn.Opens : Prop := if s.passivemode then c.Passive s else ¬ Stale s

def Conn.Succeeds : Prop :=
  c.socket.isSome ∧
    if s.passivemode then (c.replies s).ret = some 2 ∧ c.scan ∧ c.connect = .done
    else c.bind ∧ (s.sendport ≠ 0 → (c.replies s).ret = some 2 ∨
      (c.replies s).ret = some 5 ∧ s.sendport = -1 ∧ c.again.isSome ∧ c.bindAgain)

/-- The peer is lost, and another one takes the command for it. -/
def Conn.Lost : Prop :=
  s.passivemode = false ∧ c.socket.isSome ∧ c.bind ∧ s.sendport ≠ 0 ∧ (c.replies s).drops ∧
    (c.replies s).ret = some 2

def Conn.control : Control :=
  if s.passivemode ∨ s.sendport ≠ 0 then (c.replies s).control else s.control

end

def Accept.Streams (a : Accept) (s : Client) : Prop :=
  a.fdopen ∧ (s.passivemode = false → a.intr = false ∧ a.accept.isSome)

/-! ### What is kept -/

structure Ready (f : Option ℕ) (s : Client) : Prop where
  tidy : Tidy s
  file : ∀ n ∈ f, s.table.get n = some .file

/-- **Spoilt**: `data` was closed when it was no data connection, or one is lost that is not among
those a stream will close. -/
def Spoilt (F : List ℕ) (s : Client) : Prop :=
  (∃ u ∈ s.closes, u ≠ some .data) ∨ ∃ d, d ∉ F ∧ s.table.get d = some .data ∧ s.data ≠ some d

theorem Spoilt.not_tidy {F : List ℕ} {s : Client} (h : Spoilt F s) : ¬ Tidy s := by
  intro ht
  rcases h with ⟨u, hu, hne⟩ | ⟨d, -, hd, hne⟩
  · exact hne (ht.closes u hu)
  · exact hne (ht.held d hd)

theorem live_iff {s : Client} : Live s ↔ ∃ d, s.data = some d ∧ s.table.get d = some .data := by
  unfold Live
  rw [bind_eq_some_iff]

theorem stale_iff {s : Client} : Stale s ↔ ∃ d, s.data = some d ∧ s.table.get d ≠ some .data := by
  unfold Stale
  rw [live_iff]
  constructor
  · rintro ⟨hne, hl⟩
    obtain ⟨d, hd⟩ := ne_none_iff_exists'.1 hne
    exact ⟨d, hd, fun hg => hl ⟨d, hd, hg⟩⟩
  · rintro ⟨d, hd, hg⟩
    refine ⟨by rw [hd]; exact some_ne_none d, ?_⟩
    rintro ⟨d', hd', hg'⟩
    obtain rfl : d = d' := some.inj (hd.symm.trans hd')
    exact hg hg'

theorem not_stale_iff {s : Client} : ¬ Stale s ↔ s.data = none ∨ Live s := by
  unfold Stale
  tauto

section
variable {f : Option ℕ} {s : Client}

theorem get_close_self (t : Table Use) (d : ℕ) : (t.close d).get d = none := by
  by_contra h
  have hm := isSome_get_iff.1 (isSome_iff_ne_none.2 h)
  exact (mem_fds_close.1 hm).2 rfl

variable {t : Table Use} {r : Heard}

theorem of_ne_of_some {d : ℕ} {u : Use} (h : t.get d = some u) (p : Pick) : p.of t ≠ d := by
  rintro rfl
  exact p.of_not_mem t (isSome_get_iff.1 (by rw [h]; rfl))

theorem get_opened_of_some {d : ℕ} {u : Use} (h : t.get d = some u) (p : Pick) (k : Use) :
    (t.opened p k).get d = some u := (get_cons_of_ne k (of_ne_of_some h p)).trans h

/-! ### Closing -/

theorem giveUp_closes (s : Client) : s.giveUp.closes = s.closes ++ [s.data.bind s.table.get] := rfl

theorem Ready.giveUp (h : Ready f s) (hl : Live s) : Ready f s.giveUp := by
  obtain ⟨d, hd, hg⟩ := live_iff.1 hl
  have ht : s.giveUp.table = s.table.close d := by
    show s.data.elim s.table s.table.close = _
    rw [hd]
    rfl
  refine ⟨⟨fun u hu => ?_, fun fd hfd => ?_⟩, fun n hn => ?_⟩
  · rw [giveUp_closes, mem_append, mem_singleton] at hu
    rcases hu with hu | rfl
    · exact h.tidy.closes u hu
    · exact hl
  · rw [ht] at hfd
    have hne : fd ≠ d := by
      rintro rfl
      rw [get_close_self] at hfd
      cases hfd
    rw [get_close_of_ne hne] at hfd
    exact absurd (some.inj ((h.tidy.held fd hfd).symm.trans hd)) hne
  · rw [ht, get_close_of_ne, h.file n hn]
    rintro rfl
    have := hg.symm.trans (h.file n hn)
    cases this

theorem Ready.giveUpOpen (h : Ready f s) (hs : ¬ Stale s) : Ready f s.giveUpOpen := by
  unfold Client.giveUpOpen
  rcases not_stale_iff.1 hs with hd | hl
  · rw [hd]
    exact h
  · split
    · exact h.giveUp hl
    · exact h

theorem giveUpOpen_data (s : Client) : s.giveUpOpen.data = none := by
  unfold Client.giveUpOpen
  split
  · rfl
  next h => exact not_isSome_iff_eq_none.1 h

theorem spoilt_closeData (F : List ℕ) (hl : ¬ Live s) : Spoilt F s.closeData :=
  .inl ⟨_, mem_append_right _ mem_cons_self, hl⟩

theorem spoilt_giveUp (F : List ℕ) (hl : ¬ Live s) : Spoilt F s.giveUp :=
  .inl ⟨_, mem_append_right _ mem_cons_self, hl⟩

theorem spoilt_giveUpOpen (F : List ℕ) (hs : Stale s) : Spoilt F s.giveUpOpen := by
  unfold Client.giveUpOpen
  rw [if_pos (isSome_iff_ne_none.2 hs.1)]
  exact spoilt_giveUp F hs.2

theorem not_stale_of_none (h : s.data = none) : ¬ Stale s := fun hs => hs.1 h

theorem Ready.heard (h : Ready f s) (hs : r.drops → ¬ Stale s) : Ready f (s.heard r) := by
  have h' : Ready f (if r.drops then s.giveUpOpen else s) := by
    split
    next hd => exact h.giveUpOpen (hs hd)
    · exact h
  exact ⟨⟨h'.tidy.closes, h'.tidy.held⟩, h'.file⟩

theorem heard_of_drops (s : Client) (hd : r.drops) : (s.heard r).data = none := by
  unfold Client.heard
  rw [if_pos hd]
  exact giveUpOpen_data s

theorem heard_of_not_drops (s : Client) (hd : ¬ r.drops) :
    s.heard r = { s with control := r.control } := by
  unfold Client.heard
  rw [if_neg hd]

theorem not_stale_heard (hs : ¬ Stale s) (r : Heard) : ¬ Stale (s.heard r) := by
  by_cases hd : r.drops
  · exact not_stale_of_none (heard_of_drops s hd)
  · rw [heard_of_not_drops s hd]
    exact hs

theorem live_heard (hd : ¬ r.drops) (hl : Live s) : Live (s.heard r) := by
  rw [heard_of_not_drops s hd]
  exact hl

theorem spoilt_heard (F : List ℕ) (hd : r.drops) (hs : Stale s) : Spoilt F (s.heard r) := by
  have := spoilt_giveUpOpen F hs
  unfold Client.heard
  rw [if_pos hd]
  exact this

/-- **A data connection is opened** where there is none. -/
theorem Ready.socket (h : Ready f s) (hl : ¬ Live s) (p : Pick) :
    Ready f (s.socket p) ∧ Live (s.socket p) := by
  have hself : (s.table.opened p .data).get (p.of s.table) = some Use.data := get_cons_self _ _ _
  refine ⟨⟨⟨h.tidy.closes, fun fd hfd => ?_⟩, fun n hn => get_opened_of_some (h.file n hn) p _⟩,
    live_iff.2 ⟨_, rfl, hself⟩⟩
  by_cases hfree : p.of s.table = fd
  · exact congrArg some hfree
  · have hfd' : s.table.get fd = some .data := by
      rw [← get_cons_of_ne Use.data hfree]
      exact hfd
    exact absurd (live_iff.2 ⟨fd, h.tidy.held fd hfd', hfd'⟩) hl

/-- **A data connection is left open** where there was one. -/
theorem spoilt_socket {F : List ℕ} (hF : ∀ n ∈ F, s.table.get n ≠ some .data) (hl : Live s)
    (p : Pick) :
    Spoilt F (s.socket p) := by
  obtain ⟨d, hd, hg⟩ := live_iff.1 hl
  exact .inr ⟨d, fun hm => hF d hm hg, get_opened_of_some hg p _,
    fun heq => of_ne_of_some hg p (some.inj heq)⟩

theorem none_mem {α : Type} {P : α → Prop} : ∀ a ∈ (none : Option α), P a :=
  fun a ha => absurd ha (not_mem_none a)

theorem ready_none (h : Tidy s) : Ready none s := ⟨h, none_mem⟩

theorem Tidy.fclose (h : Tidy s) (fd : Option ℕ) : Tidy (s.fclose fd) := by
  rcases fd with - | n
  · exact h
  · refine ⟨h.closes, fun fd hfd => ?_⟩
    have hne : fd ≠ n := by
      rintro rfl
      have := (get_close_self s.table fd).symm.trans hfd
      cases this
    exact h.held fd ((get_close_of_ne hne).symm.trans hfd)

end

/-! ### What is spoilt stays so -/

section
variable {F : List ℕ} {s : Client} (h : Spoilt F s)
include h

theorem Spoilt.mono {s' : Client} (hc : ∀ u ∈ s.closes, u ∈ s'.closes)
    (hl : ∀ d ∉ F, s.table.get d = some .data → s.data ≠ some d →
      s'.table.get d = some .data ∧ s'.data ≠ some d) : Spoilt F s' := by
  rcases h with ⟨u, hu, hne⟩ | ⟨d, hF, hd, hne⟩
  · exact .inl ⟨u, hc u hu, hne⟩
  · exact .inr ⟨d, hF, hl d hF hd hne⟩

theorem Spoilt.closeData : Spoilt F s.closeData := by
  refine h.mono (fun u hu => mem_append_left _ hu) fun d _ hd hne => ⟨?_, hne⟩
  show (s.data.elim s.table s.table.close).get d = _
  rcases hdata : s.data with - | n
  · exact hd
  · have hdn : d ≠ n := by
      rintro rfl
      exact hne hdata
    exact (get_close_of_ne hdn).trans hd

theorem Spoilt.giveUp : Spoilt F s.giveUp :=
  h.closeData.mono (fun _ hu => hu) fun _ _ hd _ => ⟨hd, (some_ne_none _).symm⟩

theorem Spoilt.giveUpOpen : Spoilt F s.giveUpOpen := by
  unfold Client.giveUpOpen
  split
  · exact h.giveUp
  · exact h

theorem Spoilt.heard (r : Heard) : Spoilt F (s.heard r) := by
  unfold Client.heard
  split
  · exact h.giveUpOpen
  · exact h

theorem Spoilt.getreply (r : Reply) : Spoilt F (s.getreply r) := h.heard _

theorem Spoilt.opens (p : Pick) (k : Use) {s' : Client} (hc : s'.closes = s.closes)
    (ht : s'.table = s.table.opened p k)
    (hdata : s'.data = s.data ∨ s'.data = some (p.of s.table)) :
    Spoilt F s' := by
  refine h.mono (fun u hu => hc ▸ hu) fun d _ hd hne => ⟨ht ▸ get_opened_of_some hd p k, ?_⟩
  rcases hdata with hs | hs
  · rw [hs]
    exact hne
  · rw [hs]
    intro heq
    refine p.of_not_mem s.table (isSome_get_iff.1 ?_)
    rw [some.inj heq, hd]
    rfl

theorem Spoilt.socket (p : Pick) : Spoilt F (s.socket p) := h.opens p .data rfl rfl (.inr rfl)

theorem Spoilt.fclose {fd : Option ℕ} (hfd : ∀ n ∈ fd, n ∈ F) : Spoilt F (s.fclose fd) := by
  rcases fd with - | n
  · exact h
  · refine h.mono (fun _ hu => hu) fun d hF hd hne => ⟨?_, hne⟩
    have hdn : d ≠ n := by
      rintro rfl
      exact hF (hfd d rfl)
    exact (get_close_of_ne hdn).trans hd

theorem Spoilt.nothing : Spoilt F { s with data := none } :=
  h.mono (fun _ hu => hu) fun _ _ hd _ => ⟨hd, (some_ne_none _).symm⟩

theorem Spoilt.noport (so : Option Pick) (b : Bool) : Spoilt F (noport so b s).2 := by
  have hc : Spoilt F (if s.data.isSome then s.closeData else s) := by
    split
    · exact h.closeData
    · exact h
  unfold Descriptors.noport bound
  split
  · exact hc.nothing
  · split
    · exact hc.socket _
    · exact (hc.socket _).giveUp

theorem Spoilt.accepted (p : Pick) : Spoilt F (s.accepted p) := by
  refine h.mono (fun u hu => mem_append_left _ hu) fun d _ hd hne => ⟨?_, fun heq => ?_⟩
  · show (s.data.elim (s.table.opened p .data) (s.table.opened p .data).close).get d = _
    rcases hdata : s.data with - | n
    · exact get_opened_of_some hd p _
    · have hdn : d ≠ n := by
        rintro rfl
        exact hne hdata
      exact (get_close_of_ne hdn).trans (get_opened_of_some hd p _)
  · exact of_ne_of_some hd p (some.inj heq)

theorem Spoilt.cons {d : ℕ} (hd : s.data = some d) : Spoilt (d :: F) s := by
  rcases h with hb | ⟨d', hF, hg, hne⟩
  · exact .inl hb
  · refine .inr ⟨d', ?_, hg, hne⟩
    rw [mem_cons, not_or]
    exact ⟨fun heq => hne (heq ▸ hd), hF⟩

end

/-! ### A socket that listens -/

section
variable {f : Option ℕ} {s : Client}

/-- What `initconn` leaves alone. -/
structure Framed (s s' : Client) : Prop where
  control : s'.control = s.control
  passivemode : s'.passivemode = s.passivemode

theorem Ready.closeData (h : Ready f s) (hl : Live s) :
    Ready f s.closeData ∧ ¬ Live s.closeData := by
  have hg := h.giveUp hl
  have hnone : ¬ Live s.closeData := by
    rintro hl'
    obtain ⟨d', hd', hget⟩ := live_iff.1 hl'
    have := hg.tidy.held d' hget
    cases this
  refine ⟨⟨⟨hg.tidy.closes, fun fd hfd => ?_⟩, hg.file⟩, hnone⟩
  have := hg.tidy.held fd hfd
  cases this

theorem noport_spec (h : Ready f s) (hs : ¬ Stale s) (so : Option Pick) (b : Bool) :
    Ready f (noport so b s).2 ∧ ¬ Stale (noport so b s).2 ∧ Framed s (noport so b s).2 ∧
      (noport so b s).2.sendport = s.sendport ∧
      (so.isSome ∧ b ∧ (noport so b s).1 = .done ∧ Live (noport so b s).2 ∨
        ¬ (so.isSome ∧ b) ∧ (noport so b s).1 = .failed) := by
  obtain ⟨s1, hs1⟩ : ∃ s1, s1 = if s.data.isSome then s.closeData else s := ⟨_, rfl⟩
  have h1 : Ready f s1 ∧ ¬ Live s1 ∧ Framed s s1 ∧ s1.sendport = s.sendport := by
    rw [hs1]
    rcases not_stale_iff.1 hs with hd | hl
    · have hn : ¬ Live s := fun hl => by
        obtain ⟨d, hd', -⟩ := live_iff.1 hl
        exact some_ne_none d (hd'.symm.trans hd)
      rw [hd]
      exact ⟨h, hn, ⟨rfl, rfl⟩, rfl⟩
    · obtain ⟨d, hd, -⟩ := live_iff.1 hl
      obtain ⟨hr, hn⟩ := h.closeData hl
      rw [if_pos (by rw [hd]; rfl)]
      exact ⟨hr, hn, ⟨rfl, rfl⟩, rfl⟩
  obtain ⟨hr, hn, hf, hp⟩ := h1
  unfold noport
  rw [← hs1]
  rcases so with - | p
  · refine ⟨⟨⟨hr.tidy.closes, fun fd hfd => ?_⟩, hr.file⟩, not_stale_of_none rfl,
      ⟨hf.control, hf.passivemode⟩, hp, .inr ⟨fun hx => absurd hx.1 (by decide), rfl⟩⟩
    have := hr.tidy.held fd hfd
    exact absurd (live_iff.2 ⟨fd, this, hfd⟩) hn
  · obtain ⟨hrs, hls⟩ := hr.socket hn p
    rcases b with - | -
    · exact ⟨hrs.giveUp hls, not_stale_of_none rfl, ⟨hf.control, hf.passivemode⟩, hp,
        .inr ⟨fun hx => absurd hx.2 (by decide), rfl⟩⟩
    · exact ⟨hrs, not_stale_iff.2 (.inr hls), ⟨hf.control, hf.passivemode⟩, hp,
        .inl ⟨rfl, rfl, rfl, hls⟩⟩

theorem spoilt_noport (F : List ℕ) (hs : Stale s) (so : Option Pick) (b : Bool) :
    Spoilt F (noport so b s).2 := by
  have hc : Spoilt F s.closeData := spoilt_closeData F hs.2
  unfold noport
  rw [if_pos (isSome_iff_ne_none.2 hs.1)]
  rcases so with - | p
  · exact hc.nothing
  · rcases b with - | -
    · exact (hc.socket p).giveUp
    · exact hc.socket p

end

section
variable {F : List ℕ} {s : Client}

theorem Spoilt.passiveReply (h : Spoilt F s) (c : Conn) (r : Heard) :
    Spoilt F (passiveReply c r s).2 := by
  have hh := h.heard r
  unfold Descriptors.passiveReply
  split
  · exact hh
  · split
    · split
      · unfold Descriptors.connect
        split
        · exact hh.giveUp
        · exact hh.giveUp
        · exact hh
      · unfold cancel
        split
        · exact hh.heard _
        · exact (hh.heard _).giveUp
    · exact hh.giveUp

theorem Spoilt.activeReply (h : Spoilt F s) (c : Conn) (r : Heard) :
    Spoilt F (activeReply c r s).2 := by
  unfold Descriptors.activeReply
  split
  · exact h.heard r
  · split
    · have hz : Spoilt F { s.heard r with sendport := 0 } := h.heard r
      exact hz.noport c.again c.bindAgain
    · exact h.heard r

theorem spoilt_active {c : Conn} (h : Spoilt F (noport c.socket c.bind s).2) :
    Spoilt F (active c s).2 := by
  unfold active
  split
  next s1 heq =>
    rw [heq] at h
    split
    · exact h
    · exact h.activeReply c _
  next o s1 hne heq =>
    rw [heq] at h
    exact h

end

/-! ### `initconn` -/

/-- **What `initconn` leaves** where it keeps the descriptors. -/
structure Conned (c : Conn) (f : Option ℕ) (s : Client) (r : Out × Client) : Prop where
  ready : Ready f r.2
  fresh : ¬ Stale r.2
  done : r.1 = .done ↔ c.Succeeds s
  framed : r.1 = .done → r.2.control = c.control s ∧ r.2.passivemode = s.passivemode
  lost : r.1 = .done → (r.2.data = none ↔ c.Lost s)

section
variable {f : Option ℕ} {s : Client} {c : Conn}

theorem not_live_of_none (h : s.data = none) : ¬ Live s := fun hl => by
  obtain ⟨d, hd, -⟩ := live_iff.1 hl
  exact some_ne_none d (hd.symm.trans h)

theorem connect_spec (h : Ready f s) (hl : Live s) (o : Out) :
    Ready f (connect o s).2 ∧ ¬ Stale (connect o s).2 ∧ Framed s (connect o s).2 ∧
      ((connect o s).1 = .done ↔ o = .done) ∧ ((connect o s).1 = .done → Live (connect o s).2) := by
  obtain ⟨d, hd, -⟩ := live_iff.1 hl
  unfold connect
  rw [hd]
  rcases o with - | - | -
  · exact ⟨h, not_stale_iff.2 (.inr hl), ⟨rfl, rfl⟩, Iff.rfl, fun _ => hl⟩
  · exact ⟨h.giveUp hl, not_stale_of_none rfl, ⟨rfl, rfl⟩,
      iff_of_false Out.noConfusion Out.noConfusion,
      fun hd => Out.noConfusion hd⟩
  · exact ⟨h, not_stale_iff.2 (.inr hl), ⟨rfl, rfl⟩, iff_of_false Out.noConfusion Out.noConfusion,
      fun hd => Out.noConfusion hd⟩

theorem connect_of_none (h : s.data = none) (o : Out) : connect o s = (.failed, s.giveUp) := by
  unfold connect
  rw [h]

theorem passive_eq {p : Pick} (hp : c.socket = some p) (hm : s.passivemode) :
    passive c s = passiveReply c (c.replies s) (s.socket p) := by
  unfold passive Conn.replies
  rw [hp, hm]
  rfl

theorem spoilt_passiveReply (F : List ℕ) {h : Heard} (s : Client)
    (hd : (if h.ret = some 2 ∧ c.scan = false then h.andThen (Control.command c.abor) else h).drops)
    (hr : (if h.ret = some 2 ∧ c.scan = false then h.andThen (Control.command c.abor)
      else h).ret ≠ none) :
    Spoilt F (passiveReply c h s).2 := by
  have hend : ∀ {s' : Client}, s'.data = none → Spoilt F s'.giveUp :=
    fun hs' => spoilt_giveUp F (not_live_of_none hs')
  unfold passiveReply
  rcases hret : h.ret with - | n
  · rw [if_neg (by rw [hret]; simp)] at hr
    exact absurd hret hr
  dsimp only
  by_cases hn : n = 2
  · subst hn
    rw [if_pos rfl]
    rcases hscan : c.scan with - | -
    · rw [if_pos ⟨hret, hscan⟩] at hd hr
      have hr' : (Control.command c.abor h.control).ret ≠ none := hr
      obtain ⟨m, hm⟩ := ne_none_iff_exists'.1 hr'
      unfold cancel
      rw [hm]
      refine hend ?_
      rcases Bool.or_eq_true_iff.1 hd with hd | hd
      · by_cases hd' : (Control.command c.abor h.control).drops
        · exact heard_of_drops _ hd'
        · rw [heard_of_not_drops _ hd']
          exact heard_of_drops s hd
      · exact heard_of_drops _ hd
    · rw [if_neg (by rw [hscan]; simp)] at hd
      rw [if_pos rfl, connect_of_none (heard_of_drops s hd)]
      exact hend (heard_of_drops s hd)
  · rw [if_neg fun hx => hn (some.inj (hret.symm.trans hx.1))] at hd
    rw [if_neg hn]
    exact hend (heard_of_drops s hd)

theorem Conned.failed {s' : Client} {o : Out} (ho : o ≠ .done) (h : Ready f s') (hs : ¬ Stale s')
    (hc : ¬ c.Succeeds s) : Conned c f s (o, s') :=
  ⟨h, hs, iff_of_false ho hc, fun hd => absurd hd ho, fun hd => absurd hd ho⟩

theorem passive_spec (h : Ready f s) (hm : s.passivemode) (hc : c.Passive s) :
    Conned c f s (passive c s) := by
  obtain ⟨hl, hheard⟩ := hc
  rcases hp : c.socket with - | p
  · have hno : ¬ c.Succeeds s := fun hs => by
      have := hs.1
      rw [hp] at this
      cases this
    unfold passive
    rw [hp]
    refine .failed Out.noConfusion ⟨⟨h.tidy.closes, fun fd hfd => ?_⟩, h.file⟩
      (not_stale_of_none rfl) hno
    exact absurd (live_iff.2 ⟨fd, h.tidy.held fd hfd, hfd⟩) hl
  have hsucc : c.Succeeds s ↔ (c.replies s).ret = some 2 ∧ c.scan ∧ c.connect = .done := by
    unfold Conn.Succeeds
    rw [hp, if_pos hm]
    exact and_iff_right rfl
  obtain ⟨hr, hlive⟩ := h.socket hl p
  have hfresh : ¬ Stale (s.socket p) := not_stale_iff.2 (.inr hlive)
  replace hheard := hheard (by rw [hp]; rfl)
  rw [passive_eq hp hm]
  unfold passiveReply
  have hrh : Ready f ((s.socket p).heard (c.replies s)) := hr.heard fun _ => hfresh
  have hfh := not_stale_heard hfresh (c.replies s)
  unfold Conn.heard at hheard
  rcases hret : (c.replies s).ret with - | n
  · exact .failed Out.noConfusion hrh hfh fun hs => by
      have := hret.symm.trans (hsucc.1 hs).1
      cases this
  dsimp only
  by_cases hn : n = 2
  · subst hn
    rw [if_pos rfl]
    rcases hscan : c.scan with - | -
    · have hno : ¬ c.Succeeds s := fun hs => by
        have := hscan.symm.trans (hsucc.1 hs).2.1
        cases this
      rw [if_pos ⟨hret, hscan⟩] at hheard
      unfold cancel
      have hrc := hrh.heard (r := (c.replies s).control.command c.abor) fun _ => hfh
      have hfc := not_stale_heard hfh ((c.replies s).control.command c.abor)
      rcases habor : ((c.replies s).control.command c.abor).ret with - | m
      · exact .failed Out.noConfusion hrc hfc hno
      · have hnd : ¬ ((c.replies s).drops ∨ ((c.replies s).control.command c.abor).drops) :=
          fun hd => by
          have := habor.symm.trans (hheard (Bool.or_eq_true_iff.2 hd))
          cases this
        rw [not_or] at hnd
        exact .failed Out.noConfusion (hrc.giveUp (live_heard hnd.2 (live_heard hnd.1 hlive)))
          (not_stale_of_none rfl) hno
    · rw [if_neg (by rw [hscan]; simp)] at hheard
      have hnd : ¬ (c.replies s).drops := fun hd => by
        have := hret.symm.trans (hheard hd)
        cases this
      obtain ⟨h1, h2, h3, h4, h5⟩ := connect_spec hrh (live_heard hnd hlive) c.connect
      rw [if_pos rfl]
      refine ⟨h1, h2, ?_, fun _ => ⟨?_, ?_⟩, fun hd => iff_of_false (fun hnone => ?_) fun hx => ?_⟩
      · rw [h4, hsucc]
        exact ⟨fun hd => ⟨hret, hscan, hd⟩, fun hd => hd.2.2⟩
      · rw [h3.control]
        unfold Conn.control
        rw [if_pos (.inl hm)]
        rfl
      · rw [h3.passivemode, heard_of_not_drops _ hnd]
        rfl
      · exact not_live_of_none hnone (h5 hd)
      · have := hm.symm.trans hx.1
        cases this
  · have hnd : ¬ (c.replies s).drops := fun hd => by
      rw [if_neg fun hx => hn (some.inj (hret.symm.trans hx.1))] at hheard
      have := hret.symm.trans (hheard hd)
      cases this
    rw [if_neg hn]
    exact .failed Out.noConfusion (hrh.giveUp (live_heard hnd hlive)) (not_stale_of_none rfl)
      fun hs => hn (some.inj (hret.symm.trans (hsucc.1 hs).1))

theorem not_none_of_live (h : Live s) : s.data ≠ none := fun hn => not_live_of_none hn h

theorem activeReply_spec (h : Ready f s) (hl : Live s) {s0 : Client} (hf : Framed s0 s)
    (hp : s.sendport = s0.sendport)
    (hm : s0.passivemode = false) (hs : c.socket.isSome ∧ c.bind) (h0 : s0.sendport ≠ 0) :
    Conned c f s0 (activeReply c (c.replies s0) s) := by
  have hfresh : ¬ Stale s := not_stale_iff.2 (.inr hl)
  have hrh : Ready f (s.heard (c.replies s0)) := h.heard fun _ => hfresh
  have hfh := not_stale_heard hfresh (c.replies s0)
  have hcontrol : c.control s0 = (c.replies s0).control := if_pos (.inr h0)
  have hsucc : c.Succeeds s0 ↔ (c.replies s0).ret = some 2 ∨
      (c.replies s0).ret = some 5 ∧ s0.sendport = -1 ∧ c.again.isSome ∧ c.bindAgain := by
    unfold Conn.Succeeds
    rw [hm, if_neg (by decide)]
    exact ⟨fun hx => hx.2.2 h0, fun hx => ⟨hs.1, hs.2, fun _ => hx⟩⟩
  have hpm : (s.heard (c.replies s0)).passivemode = s0.passivemode := by
    rw [← hf.passivemode]
    unfold Client.heard Client.giveUpOpen
    split
    · split <;> rfl
    · rfl
  unfold activeReply
  rcases hret : (c.replies s0).ret with - | n
  · refine .failed Out.noConfusion hrh hfh fun hx => ?_
    rcases hsucc.1 hx with hx | hx
    · rw [hret] at hx
      cases hx
    · have := hret.symm.trans hx.1
      cases this
  dsimp only
  by_cases hn : n = 5 ∧ s.sendport = -1
  · obtain ⟨rfl, hsend⟩ := hn
    rw [if_pos ⟨rfl, hsend⟩]
    obtain ⟨h1, h2, h3, -, h5⟩ := noport_spec (s := { s.heard (c.replies s0) with sendport := 0 })
      ⟨⟨hrh.tidy.closes, hrh.tidy.held⟩, hrh.file⟩ hfh c.again c.bindAgain
    have hnl : ¬ c.Lost s0 := fun hx => by
      have := hret.symm.trans hx.2.2.2.2.2
      cases this
    rcases h5 with ⟨ha, hb, hd, hlive⟩ | ⟨hno, hd⟩
    · refine ⟨⟨⟨h1.tidy.closes, h1.tidy.held⟩, h1.file⟩, h2, iff_of_true hd ?_, fun _ => ⟨?_, ?_⟩,
        fun _ => ?_⟩
      · exact hsucc.2 (.inr ⟨hret, hp ▸ hsend, ha, hb⟩)
      · rw [hcontrol]
        exact h3.control
      · exact h3.passivemode.trans hpm
      · exact iff_of_false (not_none_of_live hlive) hnl
    · refine ⟨⟨⟨h1.tidy.closes, h1.tidy.held⟩, h1.file⟩, h2, iff_of_false ?_ fun hx => ?_,
        fun hx => ?_, fun hx => ?_⟩
      · show (noport _ _ _).1 ≠ _
        rw [hd]
        exact Out.noConfusion
      · rcases hsucc.1 hx with hx | hx
        · have := hret.symm.trans hx
          cases this
        · exact hno hx.2.2
      · have := hd.symm.trans hx
        cases this
      · have := hd.symm.trans hx
        cases this
  · rw [if_neg hn]
    by_cases hn2 : n = 2
    · subst hn2
      refine ⟨hrh, hfh, iff_of_true rfl (hsucc.2 (.inl hret)), fun _ => ⟨hcontrol.symm, hpm⟩,
        fun _ => ?_⟩
      constructor
      · intro hnone
        refine ⟨hm, hs.1, hs.2, h0, ?_, hret⟩
        by_contra hnd
        exact not_live_of_none hnone (live_heard hnd hl)
      · intro hx
        exact heard_of_drops s hx.2.2.2.2.1
    · rw [if_neg hn2]
      refine .failed Out.noConfusion hrh hfh fun hx => ?_
      rcases hsucc.1 hx with hx | hx
      · exact hn2 (some.inj (hret.symm.trans hx))
      · exact hn ⟨some.inj (hret.symm.trans hx.1), hp.trans hx.2.1⟩

theorem active_spec (h : Ready f s) (hm : s.passivemode = false) (hs : ¬ Stale s) :
    Conned c f s (active c s) := by
  obtain ⟨h1, h2, h3, h4, h5⟩ := noport_spec h hs c.socket c.bind
  unfold active
  rcases hn : noport c.socket c.bind s with ⟨o, s1⟩
  rw [hn] at h1 h2 h3 h4 h5
  rcases h5 with ⟨ha, hb, hd, hlive⟩ | ⟨hno, hd⟩
  · obtain rfl : o = .done := hd
    dsimp only
    by_cases h0 : s1.sendport = 0
    · rw [if_pos h0]
      have h0' : s.sendport = 0 := h4.symm.trans h0
      refine ⟨h1, h2, iff_of_true rfl ⟨ha, ?_⟩, fun _ => ⟨?_, h3.passivemode⟩, fun _ => ?_⟩
      · rw [hm, if_neg (by decide)]
        exact ⟨hb, fun hx => absurd h0' hx⟩
      · have hor : ¬ (s.passivemode ∨ s.sendport ≠ 0) := by
          rw [hm, h0']
          decide
        exact h3.control.trans (if_neg hor).symm
      · exact iff_of_false (not_none_of_live hlive) fun hx => hx.2.2.2.1 h0'
    · rw [if_neg h0]
      have hrep : s1.control.negotiate 5 c.ext c.plain c.long = c.replies s := by
        have hc : s1.control = s.control := h3.control
        unfold Conn.replies
        rw [hm, hc]
        rfl
      rw [hrep]
      exact activeReply_spec h1 hlive h3 h4 hm ⟨ha, hb⟩ (h4 ▸ h0)
  · obtain rfl : o = .failed := hd
    refine .failed Out.noConfusion h1 h2 fun hx => hno ⟨hx.1, ?_⟩
    have := hx.2
    rw [hm, if_neg (by decide)] at this
    exact this.1

theorem spoilt_initconn {F : List ℕ} (hF : ∀ n ∈ F, s.table.get n ≠ some .data) (hc : ¬ c.Opens s) :
    Spoilt F (initconn c s).2 := by
  unfold initconn
  unfold Conn.Opens at hc
  by_cases hm : s.passivemode
  · rw [if_pos hm] at hc ⊢
    rcases hp : c.socket with - | p
    · have hl : Live s := by
        by_contra hl
        exact hc ⟨hl, fun hx => by rw [hp] at hx; exact absurd hx (by decide)⟩
      obtain ⟨d, hd, hg⟩ := live_iff.1 hl
      unfold passive
      rw [hp]
      exact .inr ⟨d, fun hmem => hF d hmem hg, hg, (some_ne_none d).symm⟩
    · rw [passive_eq hp hm]
      by_cases hl : Live s
      · exact (spoilt_socket hF hl p).passiveReply c _
      · have hh : (c.heard s).drops ∧ (c.heard s).ret ≠ none := by
          by_contra hx
          exact hc ⟨hl, fun _ hd => by_contra fun hr => hx ⟨hd, hr⟩⟩
        exact spoilt_passiveReply F (s.socket p) hh.1 hh.2
  · rw [if_neg hm] at hc ⊢
    exact spoilt_active (spoilt_noport F (not_not.1 hc) c.socket c.bind)

theorem initconn_spec (h : Ready f s) (hc : c.Opens s) : Conned c f s (initconn c s) := by
  unfold initconn
  unfold Conn.Opens at hc
  by_cases hm : s.passivemode
  · rw [if_pos hm] at hc ⊢
    exact passive_spec h hm hc
  · rw [if_neg hm] at hc ⊢
    exact active_spec h (Bool.eq_false_iff.2 hm) hc

end

end Inetutils.Ftp.Descriptors
