import Inetutils.Lib.Descriptors
import Inetutils.Lib.Runs

/-! # The descriptors of a data connection of ftpd

`data` and `pdata` of `src/ftpd.c`, and what opens and closes them: PORT and PASV, `dataconn` with
`getdatasock`, and the three routines that run over a data connection, `retrieve`, `store` and
`send_file_list`. A system call gives what the command's label says, but `accept` fails on a socket
that does not listen. An ABOR is acted on from the `setjmp` of `send_data`, `receive_data` or
`send_file_list` on, while `transflag` is set. -/

namespace Inetutils.Ftpd.Descriptors

open Lib.Runs Lib.Descriptors List

/-- What a descriptor stands for: a new socket, one that listens, or a connection that came to be at
a command. -/
inductive Sock
  | bound
  | listening
  | connected (since : ℕ)
  deriving DecidableEq

/-- `none` is -1. A transfer is recorded with the number of its command and what it runs over. -/
structure Data where
  data : Option ℕ
  pdata : Option ℕ
  sockets : Table Sock
  now : ℕ
  transfers : List (ℕ × Option Sock)

variable {s : Data}

def Data.init : Data := ⟨none, none, [], 0, []⟩

/-! ### The data connection -/

/-- What the calls of `dataconn` give: `accept`, `socket`, then `setsockopt` and `bind`, `fdopen`
and `connect`. -/
structure Conn where
  accept : Option Pick
  socket : Option Pick
  bind : Bool
  fdopen : Bool
  connect : Bool

def Conn.stream (c : Conn) (fd : ℕ) : Option ℕ := if c.fdopen then some fd else none

def getdatasock (c : Conn) (s : Data) : Option ℕ × Data :=
  match s.data, c.socket with
  | some fd, _ => (c.stream fd, s)
  | none, none => (none, s)
  | none, some p =>
    if c.bind then (c.stream (p.of s.sockets), { s with sockets := s.sockets.opened p .bound })
    else (none, { s with sockets := (s.sockets.opened p .bound).close (p.of s.sockets) })

/-- `accept` on the descriptor `l`. -/
def Data.accepts (s : Data) (l : ℕ) (c : Conn) : Option Pick :=
  if s.sockets.get l = some .listening then c.accept else none

/-- The accepted connection takes the place of the socket that listened. -/
def Data.accepted (s : Data) (l : ℕ) (p : Pick) : Data :=
  { s with
    pdata := some (p.of s.sockets)
    sockets := (s.sockets.opened p (.connected s.now)).close l }

/-- The stream, if there is one, by its descriptor. -/
def dataconn (c : Conn) (s : Data) : Option ℕ × Data :=
  match s.pdata, s.data with
  | some l, _ =>
    match s.accepts l c with
    | none => (none, { s with pdata := none, sockets := s.sockets.close l })
    | some p => (c.stream (p.of s.sockets), s.accepted l p)
  | none, some fd => (c.stream fd, s)
  | none, none =>
    match getdatasock c s with
    | (none, s) => (none, s)
    | (some fd, s) =>
      if c.connect then
        (some fd, { s with data := some fd, sockets := s.sockets.become fd (.connected s.now) })
      else (none, { s with data := none, sockets := s.sockets.close fd })

/-! ### The commands -/

def Data.runsOver (s : Data) (fd : ℕ) : Data :=
  { s with transfers := s.transfers ++ [(s.now, s.sockets.get fd)] }

/-- The stream is closed, and both descriptors are given up. -/
def Data.finish (s : Data) (fd : ℕ) : Data :=
  { s with data := none, pdata := none, sockets := s.sockets.close fd }

/-- `ready`: the file is open, a plain one, and read up to the restart point. -/
structure Transfer where
  ready : Bool
  conn : Conn

/-- `send_data` returns after an ABOR as at the end of the file. -/
def retrieve (t : Transfer) (s : Data) : Data :=
  if t.ready then
    match dataconn t.conn s with
    | (none, s) => s
    | (some dout, s) => (s.runsOver dout).finish dout
  else s

/-- `receive_data` too. -/
def store (t : Transfer) (s : Data) : Data :=
  if t.ready then
    match dataconn t.conn s with
    | (none, s) => s
    | (some din, s) => (s.runsOver din).finish din
  else s

/-- A step of `send_file_list`: a name that `stat` does not find, and whether it begins with '-'; a
file that is put on the list, by its name or from a directory; a name or an entry that is not; an
ABOR. -/
inductive Item
  | missing (dash : Bool)
  | line
  | pass
  | abor
  deriving DecidableEq

/-- No name is left: `*dirlist == NULL`. -/
def last (l : List Item) : Bool := l.all (· = .abor)

/-- The loop, with `dout`. Without a stream `transflag` is 0, and an ABOR is not acted on. -/
def listLoop (c : Conn) (r : Transfer) : Option ℕ → Data → List Item → Data
  | none, s, [] => { s with data := none, pdata := none }
  | some dout, s, [] => s.finish dout
  | none, s, .missing dash :: l => if dash ∧ last l then retrieve r s else s
  | some dout, s, .missing _ :: _ => s.finish dout
  | none, s, .line :: l =>
    match dataconn c s with
    | (none, s) => s
    | (some dout, s) => listLoop c r (some dout) (s.runsOver dout) l
  | some dout, s, .line :: l => listLoop c r (some dout) s l
  | dout, s, .pass :: l => listLoop c r dout s l
  | none, s, .abor :: l => listLoop c r none s l
  | some _, s, .abor :: _ => s

/-- `glob` finds names, and `retrieve` is for a name that is an option of `ls`. -/
structure Listing where
  found : Bool
  items : List Item
  conn : Conn
  ls : Transfer

def sendFileList (l : Listing) (s : Data) : Data :=
  if l.found then listLoop l.conn l.ls none s l.items else s

/-- What `socket` gives, and whether `bind`, `getsockname` and `listen` succeed. -/
structure Passive where
  socket : Option Pick
  listen : Bool

def passive (p : Passive) (s : Data) : Data :=
  match p.socket with
  | none => { s with pdata := none }
  | some q =>
    if p.listen then
      { s with pdata := some (q.of s.sockets), sockets := s.sockets.opened q .listening }
    else { s with pdata := none, sockets := (s.sockets.opened q .bound).close (q.of s.sockets) }

def port (s : Data) : Data :=
  match s.pdata with
  | none => s
  | some fd => { s with pdata := none, sockets := s.sockets.close fd }

/-- A command line: `retr` is RETR and LIST, `stor` is STOR, APPE and STOU. What is not carried out,
as no one is logged in or the path is not found, is among the others, but for PORT. -/
inductive Command
  | port
  | pasv (p : Passive)
  | retr (t : Transfer)
  | stor (t : Transfer)
  | nlst (l : Listing)
  | other

def Data.next (s : Data) : Data := { s with now := s.now + 1 }

def exec (s : Data) : Command → Data
  | .port => port s
  | .pasv p => passive p s
  | .retr t => retrieve t s
  | .stor t => store t s
  | .nlst l => sendFileList l s
  | .other => s

def step (s : Data) (c : Command) : Data := exec s.next c

/-! ### Between two commands -/

/-- **Apart**: `data` is -1, what is open is `pdata` and listens, and every transfer has run over a
connection of its own command. -/
structure Apart (s : Data) : Prop where
  data : s.data = none
  sockets : s.sockets = s.pdata.toList.map fun fd => (fd, .listening)
  transfers : ∀ t ∈ s.transfers, t.2 = some (.connected t.1)

/-- Where there is a connection or a socket, `fdopen` makes a stream of it. -/
def Conn.Streams (c : Conn) (s : Data) : Prop :=
  match s.pdata with
  | some _ => c.accept.isSome → c.fdopen
  | none => c.socket.isSome → c.bind → c.fdopen

def Conn.Connects (c : Conn) (s : Data) : Prop :=
  match s.pdata with
  | some _ => c.accept.isSome ∧ c.fdopen
  | none => c.socket.isSome ∧ c.bind ∧ c.fdopen ∧ c.connect

/-- A listing: something is put on the list, or no socket listens; and no ABOR comes once there is a
connection. -/
def Lists (c : Conn) (r : Transfer) (s : Data) : List Item → Prop
  | [] => s.pdata = none
  | .missing dash :: l => dash ∧ last l → r.ready → r.conn.Streams s
  | .line :: l =>
    c.Streams s ∧ (c.Connects s → .abor ∉ l.takeWhile fun i => ∀ dash, i ≠ .missing dash)
  | .pass :: l => Lists c r s l
  | .abor :: l => Lists c r s l

def Releases (s : Data) : Command → Prop
  | .pasv _ => s.pdata = none
  | .retr t => t.ready → t.conn.Streams s
  | .stor t => t.ready → t.conn.Streams s
  | .nlst l => l.found → Lists l.conn l.ls s l.items
  | .port | .other => True

/-! ### What a command leaves -/

theorem apart_next : Apart s.next ↔ Apart s :=
  ⟨fun h => ⟨h.data, h.sockets, h.transfers⟩, fun h => ⟨h.data, h.sockets, h.transfers⟩⟩

structure Over (s : Data) (fd : ℕ) : Prop where
  sockets : s.sockets = [(fd, .connected s.now)]
  held : s.data = some fd ∨ s.pdata = some fd
  transfers : ∀ t ∈ s.transfers, t.2 = some (.connected t.1)

variable {fd : ℕ} {r : Transfer}

theorem Over.not_apart (h : Over s fd) : ¬ Apart s := by
  intro ha
  have hs := h.sockets.symm.trans ha.sockets
  cases hp : s.pdata <;> rw [hp] at hs <;> simp at hs

theorem Over.runsOver (h : Over s fd) : Over (s.runsOver fd) fd := by
  refine ⟨h.sockets, h.held, fun t ht => ?_⟩
  rcases mem_append.1 ht with ht | ht
  · exact h.transfers t ht
  · rw [mem_singleton.1 ht, h.sockets, get_cons_self]

theorem Over.finish (h : Over s fd) : Apart (s.finish fd) := by
  refine ⟨rfl, ?_, h.transfers⟩
  show s.sockets.close fd = []
  rw [h.sockets, close_cons_self, close_nil]

/-- What `dataconn` makes of the state between two commands. -/
inductive Outcome (c : Conn) (s : Data) : Option ℕ × Data → Prop
  | ready (fd : ℕ) (s' : Data) : c.Connects s → c.Streams s → Over s' fd → Outcome c s (some fd, s')
  | refused (s' : Data) : ¬ c.Connects s → c.Streams s → Apart s' → Outcome c s (none, s')
  | left (s' : Data) : ¬ c.Connects s → ¬ c.Streams s → ¬ Apart s' → Outcome c s (none, s')

theorem outcome_passive (h : Apart s) (c : Conn) {l : ℕ} (hl : s.pdata = some l) :
    Outcome c s (dataconn c s) := by
  have hsock : s.sockets = [(l, .listening)] := by
    have := h.sockets
    rwa [hl] at this
  have hacc : s.accepts l c = c.accept := by
    unfold Data.accepts
    rw [hsock, get_cons_self, if_pos rfl]
  unfold dataconn
  rw [hl]
  dsimp only
  rw [hacc]
  rcases ha : c.accept with - | p
  · refine .refused _ ?_ ?_ ⟨h.data, ?_, h.transfers⟩
    · simp [Conn.Connects, hl, ha]
    · simp [Conn.Streams, hl, ha]
    · show s.sockets.close l = []
      rw [hsock, close_cons_self, close_nil]
  · have hne : p.of s.sockets ≠ l := by
      intro heq
      refine p.of_not_mem s.sockets ?_
      rw [heq, hsock]
      exact mem_singleton_self l
    have hover : Over (s.accepted l p) (p.of s.sockets) := by
      refine ⟨?_, .inr rfl, h.transfers⟩
      show Table.close ((p.of s.sockets, .connected s.now) :: s.sockets) l = _
      rw [close_cons_of_ne _ hne, hsock, close_cons_self, close_nil]
      rfl
    rcases hf : c.fdopen with - | -
    · have hnone : c.stream (p.of s.sockets) = none := by simp [Conn.stream, hf]
      dsimp only
      rw [hnone]
      refine .left _ ?_ ?_ hover.not_apart
      · simp [Conn.Connects, hl, hf]
      · simp [Conn.Streams, hl, ha, hf]
    · have hsome : c.stream (p.of s.sockets) = some (p.of s.sockets) := by simp [Conn.stream, hf]
      dsimp only
      rw [hsome]
      refine .ready _ _ ?_ ?_ hover
      · simp [Conn.Connects, hl, ha, hf]
      · simp [Conn.Streams, hl, hf]

theorem getdatasock_of (h : s.data = none) (c : Conn) :
    getdatasock c s =
      match c.socket with
      | none => (none, s)
      | some p =>
        if c.bind then (c.stream (p.of s.sockets), { s with sockets := s.sockets.opened p .bound })
        else (none, s) := by
  unfold getdatasock
  rw [h]
  rcases c.socket with - | p
  · rfl
  · dsimp only
    rw [opened_close]
    rcases s with ⟨d, pdata, sockets, now, transfers⟩
    cases h
    rfl

theorem outcome_active (h : Apart s) (c : Conn) (hl : s.pdata = none) :
    Outcome c s (dataconn c s) := by
  have hsock : s.sockets = [] := by
    have := h.sockets
    rwa [hl] at this
  unfold dataconn
  rw [getdatasock_of h.data, hl, h.data]
  rcases hs : c.socket with - | p
  · refine .refused _ ?_ ?_ h
    · simp [Conn.Connects, hl, hs]
    · simp [Conn.Streams, hl, hs]
  rcases hb : c.bind with - | -
  · refine .refused _ ?_ ?_ h
    · simp [Conn.Connects, hl, hb]
    · simp [Conn.Streams, hl, hb]
  rcases hf : c.fdopen with - | -
  · have hnone : c.stream (p.of s.sockets) = none := by simp [Conn.stream, hf]
    dsimp only
    rw [if_pos rfl, hnone]
    refine .left _ ?_ ?_ fun ha => ?_
    · simp [Conn.Connects, hl, hf]
    · simp [Conn.Streams, hl, hs, hb, hf]
    · have hsockets := ha.sockets
      simp [Table.opened] at hsockets
  have hsome : c.stream (p.of s.sockets) = some (p.of s.sockets) := by simp [Conn.stream, hf]
  dsimp only
  rw [if_pos rfl, hsome]
  dsimp only
  rcases hc : c.connect with - | -
  · rw [if_neg Bool.false_ne_true]
    refine .refused _ ?_ ?_ ⟨rfl, ?_, h.transfers⟩
    · simp [Conn.Connects, hl, hc]
    · simp [Conn.Streams, hl, hf]
    · show (s.sockets.opened p .bound).close (p.of s.sockets) = _
      rw [opened_close]
      exact hsock
  · rw [if_pos rfl]
    refine .ready _ _ ?_ ?_ ⟨?_, .inl rfl, h.transfers⟩
    · simp [Conn.Connects, hl, hs, hb, hf, hc]
    · simp [Conn.Streams, hl, hf]
    · show (s.sockets.opened p .bound).become (p.of s.sockets) (.connected s.now) = _
      rw [Table.opened, become_cons_self, hsock]
      rfl

theorem dataconn_outcome (h : Apart s) (c : Conn) : Outcome c s (dataconn c s) := by
  rcases hl : s.pdata with - | l
  · exact outcome_active h c hl
  · exact outcome_passive h c hl

/-! ### A step -/

theorem apart_retrieve_iff (h : Apart s) (t : Transfer) :
    Apart (retrieve t s) ↔ (t.ready → t.conn.Streams s) := by
  unfold retrieve
  by_cases hr : t.ready
  · rw [if_pos hr]
    rcases hd : dataconn t.conn s with ⟨fd, s'⟩
    have ho := dataconn_outcome h t.conn
    rw [hd] at ho
    cases ho with
    | ready _ _ _ hs hover => exact iff_of_true hover.runsOver.finish fun _ => hs
    | refused _ _ hs ha => exact iff_of_true ha fun _ => hs
    | left _ _ hs ha => exact iff_of_false ha fun hall => hs (hall hr)
  · rw [if_neg hr]
    exact iff_of_true h fun hr' => absurd hr' hr

theorem apart_passive_iff (h : Apart s) (p : Passive) : Apart (passive p s) ↔ s.pdata = none := by
  rcases hl : s.pdata with - | l
  · have hsock : s.sockets = [] := by
      have := h.sockets
      rwa [hl] at this
    refine iff_of_true ?_ rfl
    unfold passive
    rcases p.socket with - | q
    · exact ⟨h.data, hsock, h.transfers⟩
    · by_cases hlisten : p.listen
      · dsimp only
        rw [if_pos hlisten]
        refine ⟨h.data, ?_, h.transfers⟩
        rw [hsock]
        rfl
      · dsimp only
        rw [if_neg hlisten]
        refine ⟨h.data, ?_, h.transfers⟩
        rw [opened_close, hsock]
        rfl
  · have hsock : s.sockets = [(l, .listening)] := by
      have := h.sockets
      rwa [hl] at this
    refine iff_of_false (fun ha => ?_) (Option.some_ne_none l)
    have hsockets := ha.sockets
    unfold passive at hsockets
    rcases hq : p.socket with - | q
    · simp [hq, hsock] at hsockets
    · by_cases hlisten : p.listen
      · simp [hq, hlisten, hsock, Table.opened] at hsockets
      · simp only [hq, hlisten, opened_close, hsock] at hsockets
        simp at hsockets

theorem apart_port (h : Apart s) : Apart (port s) := by
  unfold port
  rcases hl : s.pdata with - | l
  · exact h
  · refine ⟨h.data, ?_, h.transfers⟩
    have hsock := h.sockets
    rw [hl] at hsock
    rw [hsock]
    exact close_cons_self [] l _

theorem apart_listLoop_some {c : Conn} :
    ∀ (l : List Item) {s : Data}, Over s fd →
      (Apart (listLoop c r (some fd) s l) ↔ .abor ∉ l.takeWhile fun i => ∀ dash, i ≠ .missing dash)
  | [], s, h => iff_of_true h.finish not_mem_nil
  | .missing dash :: l, s, h => by
    refine iff_of_true h.finish ?_
    simp
  | .line :: l, s, h => by
    rw [listLoop, apart_listLoop_some l h]
    simp
  | .pass :: l, s, h => by
    rw [listLoop, apart_listLoop_some l h]
    simp
  | .abor :: l, s, h => by
    refine iff_of_false h.not_apart ?_
    simp

theorem apart_listLoop_iff {c : Conn} (h : Apart s) :
    ∀ l : List Item, Apart (listLoop c r none s l) ↔ Lists c r s l
  | [] => by
    rw [listLoop, Lists]
    constructor
    · intro ha
      have hsockets := h.sockets.symm.trans ha.sockets
      simpa using hsockets
    · intro hp
      have hsockets := h.sockets
      rw [hp] at hsockets
      exact ⟨rfl, hsockets, h.transfers⟩
  | .missing dash :: l => by
    rw [listLoop, Lists]
    by_cases hd : dash ∧ last l
    · rw [if_pos hd, apart_retrieve_iff h]
      exact ⟨fun hs _ => hs, fun hs => hs hd⟩
    · rw [if_neg hd]
      exact iff_of_true h fun hd' => absurd hd' hd
  | .line :: l => by
    rw [listLoop, Lists]
    rcases hd : dataconn c s with ⟨fd, s'⟩
    have ho := dataconn_outcome h c
    rw [hd] at ho
    cases ho with
    | ready _ _ hc hs hover =>
      rw [apart_listLoop_some l hover.runsOver]
      exact ⟨fun hl => ⟨hs, fun _ => hl⟩, fun hl => hl.2 hc⟩
    | refused _ hc hs ha => exact iff_of_true ha ⟨hs, fun hc' => absurd hc' hc⟩
    | left _ _ hs ha => exact iff_of_false ha fun hl => hs hl.1
  | .pass :: l => by
    rw [listLoop, Lists]
    exact apart_listLoop_iff h l
  | .abor :: l => by
    rw [listLoop, Lists]
    exact apart_listLoop_iff h l

theorem apart_exec_iff (h : Apart s) (c : Command) : Apart (exec s c) ↔ Releases s c := by
  rcases c with - | p | t | t | l | -
  · exact iff_of_true (apart_port h) trivial
  · exact apart_passive_iff h p
  · exact apart_retrieve_iff h t
  · exact apart_retrieve_iff h t
  · show Apart (if l.found then listLoop l.conn l.ls none s l.items else s) ↔
      (l.found → Lists l.conn l.ls s l.items)
    by_cases hf : l.found
    · rw [if_pos hf, apart_listLoop_iff h]
      exact ⟨fun hl _ => hl, fun hl => hl hf⟩
    · rw [if_neg hf]
      exact iff_of_true h fun hf' => absurd hf' hf
  · exact iff_of_true h trivial

theorem apart_step_iff (h : Apart s) (c : Command) : Apart (step s c) ↔ Releases s.next c :=
  apart_exec_iff (apart_next.2 h) c

theorem releases_next (s : Data) (c : Command) : Releases s.next c ↔ Releases s c := by
  rcases c with - | p | t | t | l | -
  · rfl
  · rfl
  · rfl
  · rfl
  · have hl : ∀ items, Lists l.conn l.ls s.next items ↔ Lists l.conn l.ls s items := by
      intro items
      induction items with
      | nil => rfl
      | cons i items ih =>
        rcases i with dash | - | - | -
        · rfl
        · rfl
        · exact ih
        · exact ih
    exact imp_congr_right fun _ => hl l.items
  · rfl

/-! ### Every sequence of commands -/

/-- **The data connections of different commands are apart** in every state of a run, just when each
command meets the condition. -/
theorem apart_iff (l : List Command) :
    (∀ l', l' <+: l → Apart (run step .init l')) ↔ Allowed step Releases .init l := by
  refine inv_iff_allowed (J := fun _ => True) (fun s c h _ => ?_) (fun _ _ _ => trivial) ?_ trivial
  · rw [apart_step_iff h, releases_next]
  · exact ⟨rfl, rfl, fun t ht => absurd ht not_mem_nil⟩

/-- A connection over which a first name was listed when an ABOR came, and a file that is fetched
over it then. -/
theorem retr_over_aborted :
    ¬ ∀ (l l' : List Command), l' <+: l → Apart (run step .init l') := by
  intro h
  have hall := (h _ [.nlst ⟨true, [.line, .abor], ⟨none, some lowest, true, true, true⟩,
    ⟨true, ⟨none, none, true, true, true⟩⟩⟩, .retr ⟨true, ⟨none, none, true, true, true⟩⟩]
    prefix_rfl).transfers
  exact absurd (hall (2, some (.connected 1)) (by decide)) (by decide)

end Inetutils.Ftpd.Descriptors
