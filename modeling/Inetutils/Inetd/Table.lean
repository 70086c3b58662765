import Inetutils.Telnet.Proto
import Inetutils.Lib.Runs
import Mathlib.Order.Lattice.Nat

/-! # The service table of inetd

What `src/inetd.c` does to its service table and to the sockets: configuration (`enter`,
`expandEnter`, `nextconfig`, `config`), what is done when a service is asked for, and what is done
when a child has ended. A line of a configuration file is what `getconfigent` makes of it. A
descriptor is a number, and `none` stands for -1; that a wait child of a service is running is kept
in `child`, which the program does not have. -/

namespace Inetutils.Inetd.Table

open Telnet.Proto

abbrev Text := List Byte

inductive Family
  | inet
  | inet6
  deriving DecidableEq

inductive Socktype
  | stream
  | dgram
  | rdm
  | seqpacket
  | raw
  | bad
  deriving DecidableEq

inductive Kind
  | norm
  | mux
  | muxplus
  deriving DecidableEq

abbrev Pid := { n : ℕ // 1 < n }

structure Biltin where
  service : Text
  socktype : Socktype
  fork : Bool
  wait : Bool
  deriving DecidableEq

/-- `tcpmux` -/
def tcpmuxName : Text := [116, 99, 112, 109, 117, 120]

def tcpmuxBiltin : Biltin := ⟨tcpmuxName, .stream, true, false⟩

/-- What an entry of the table is made of, apart from what is done with it. -/
structure Entry where
  node : Option Text
  service : Text
  socktype : Socktype
  proto : Text
  max : ℕ
  checked : Bool
  user : Text
  bi : Option Biltin
  server : Text
  argv : List Text
  kind : Kind
  family : Family
  v4mapped : Bool
  ctrladdr : Text
  deriving DecidableEq

structure Conf extends Entry where
  wait : Bool
  deriving DecidableEq

def Conf.atNode (cp : Conf) (node : Option Text) : Conf := { cp with node := node }
def Conf.atAddr (cp : Conf) (addr : Text) : Conf := { cp with ctrladdr := addr }
def Conf.ofFamily (cp : Conf) (family : Family) : Conf := { cp with family := family }
def Conf.check (cp : Conf) (checked : Bool) : Conf := { cp with checked := checked }

/-- An entry of the table; `wait` is 0, 1 or the number of the child that is waited for. -/
structure Servtab extends Entry where
  wait : ℕ
  fd : Option ℕ
  count : ℕ
  time : ℕ
  child : Option Pid
  deriving DecidableEq

def Entry.isMux (e : Entry) : Bool := e.kind ≠ .norm

def Entry.key (e : Entry) : Text × Text × Text × Bool := (e.ctrladdr, e.service, e.proto, e.isMux)

/-- The set of sockets that is waited on, its size, and the largest; and of the sockets that are
open, those that are listened on. -/
structure Socks where
  allsock : Finset ℕ
  nsock : ℤ
  maxsock : ℤ
  opened : Finset ℕ
  listening : Finset ℕ

structure State extends Socks where
  servtab : List Servtab

def State.init : State := ⟨⟨∅, 0, 0, ∅, ∅⟩, []⟩

/-! ### Sockets -/

/-- What `socket` and `bind` give for an address family: a descriptor, or an error; the error may be
one of those after which the other family is tried. -/
abbrev Net := Family → Except Bool ℕ

def newFd (opened : Finset ℕ) (fd : ℕ) : ℕ := if fd ∈ opened then opened.sup id + 1 else fd

def Servtab.bindTo (sep : Servtab) (family : Family) (fd : Option ℕ) : Servtab :=
  { sep with family := family, fd := fd }

def setup (net : Net) (opened : Finset ℕ) (sep : Servtab) : Servtab :=
  match net sep.family with
  | .ok fd => sep.bindTo sep.family (some (newFd opened fd))
  | .error again =>
    if again ∧ sep.family = .inet6 ∧ sep.v4mapped then
      match net .inet with
      | .ok fd => sep.bindTo .inet (some (newFd opened fd))
      | .error _ => sep.bindTo .inet none
    else sep.bindTo sep.family none

/-- `FD_SET`, with the counting, and `listen` before. -/
def Socks.register (k : Socks) (stream : Bool) (fd : ℕ) : Socks where
  allsock := insert fd k.allsock
  nsock := k.nsock + 1
  maxsock := max k.maxsock fd
  opened := insert fd k.opened
  listening := if stream then insert fd k.listening else k.listening

def Servtab.check (sep : Servtab) (checked : Bool) : Servtab := { sep with checked := checked }

def serventSetup (net : Net) (i : ℕ) (s : State) : State :=
  match s.servtab[i]? with
  | none => s
  | some sep =>
    if sep.fd ≠ none then { s with servtab := s.servtab.set i (sep.check true) }
    else
      let sep := setup net s.opened (sep.check true)
      { (match sep.fd with
          | none => s.toSocks
          | some fd => s.register (sep.socktype = Socktype.stream) fd) with
        servtab := s.servtab.set i sep }

def Socks.close (k : Socks) (fd : ℕ) : Socks where
  allsock := k.allsock.erase fd
  nsock := k.nsock - 1
  maxsock := k.maxsock
  opened := k.opened.erase fd
  listening := k.listening.erase fd

def closeSep (sep : Servtab) (k : Socks) : Servtab × Socks :=
  ({ sep with fd := none, count := 0, wait := if 1 < sep.wait then 1 else sep.wait },
    match sep.fd with
    | some fd => k.close fd
    | none => k)

/-- The loop of `retry`; a new socket is open. -/
def retryTab (net : ℕ → Net) : List Servtab → Socks → List Servtab × Socks
  | [], k => ([], k)
  | sep :: l, k =>
    if sep.fd = none ∧ ¬ sep.isMux then
      let sep' := setup (net l.length) k.opened sep
      let r := retryTab net l { k with
        opened := match sep'.fd with
          | some fd => insert fd k.opened
          | none => k.opened }
      (sep' :: r.1, r.2)
    else
      let r := retryTab net l k
      (sep :: r.1, r.2)

def retry (net : ℕ → Net) (s : State) : State :=
  let r := retryTab net s.servtab s.toSocks
  { r.2 with servtab := r.1 }

/-! ### Configuration -/

def Conf.added (cp : Conf) : Servtab :=
  { cp.toEntry with wait := cp.wait.toNat, fd := none, count := 0, time := 0, child := none }

def Conf.redone (cp : Conf) (sep : Servtab) : Servtab :=
  { sep with
    wait := if cp.bi = none ∧ (sep.wait = 1 ∨ cp.wait = false) then cp.wait.toNat else sep.wait
    user := cp.user
    server := cp.server
    argv := cp.argv
    checked := true }

/-- What `cp` is left with then. -/
def Conf.swapped (cp : Conf) (sep : Servtab) : Conf :=
  { cp with user := sep.user, server := sep.server, argv := [] }

/-- `enter`: where the entry is in the table, and what becomes of `cp` and of the table. -/
def enter (cp : Conf) (s : State) : ℕ × Conf × State :=
  let i := s.servtab.findIdx (·.key = cp.key)
  match s.servtab[i]? with
  | some sep => (i, cp.swapped sep, { s with servtab := s.servtab.set i (cp.redone sep) })
  | none => (0, cp, { s with servtab := cp.added :: s.servtab })

structure Query where
  node : Option Text
  service : Text
  socktype : Socktype
  proto : Text
  family : Family
  v4mapped : Bool

def Entry.query (e : Entry) : Query :=
  ⟨e.node, e.service, e.socktype, e.proto, e.family, e.v4mapped⟩

/-- What the configuration finds: the users, the protocols, the addresses (an error may be one after
which the other family is tried), and what `socket` and `bind` give. -/
structure World where
  getpwnam : Text → Bool
  getprotobyname : Text → Bool
  getaddrinfo : Query → Except Bool (List Text)
  net : Entry → Net

/-- `tcp6` is `tcp`, and so on. -/
def protoName (proto : Text) : Text :=
  if proto.take 3 = [116, 99, 112] then [116, 99, 112]
  else if proto.take 3 = [117, 100, 112] then [117, 100, 112]
  else proto

section
variable (w : World)

/-- The addresses that are found, with the family they were last looked for; none when there is an
error. -/
def addresses (q : Query) : Family × List Text :=
  if ¬ w.getprotobyname (protoName q.proto) then (q.family, [])
  else match w.getaddrinfo q with
    | .ok l => (q.family, l)
    | .error again =>
      if again ∧ q.family = .inet6 ∧ q.v4mapped then
        match w.getaddrinfo { q with family := .inet } with
        | .ok l => (.inet, l)
        | .error _ => (.inet, [])
      else (q.family, [])

/-- One round of the loop of `expand_enter`. -/
def enterAddr (r : Conf × State) (addr : Text) : Conf × State :=
  let cp := r.1.atAddr addr
  let e := enter cp r.2
  (e.2.1, serventSetup (w.net cp.toEntry) e.1 e.2.2)

def expandEnter (cp : Conf) (s : State) : Conf × State :=
  let a := addresses w cp.query
  a.2.foldl (enterAddr w) (cp.ofFamily a.1, s)

def nextNode (nodes : Text) : Text × Option Text :=
  (nodes.takeWhile (· ≠ 44),
    match nodes.dropWhile (· ≠ 44) with
    | [] => none
    | _ :: rest => some rest)

theorem nextNode_lt {nodes rest : Text} (h : (nextNode nodes).2 = some rest) :
    rest.length < nodes.length := by
  have hd := (List.dropWhile_suffix (· ≠ (44 : Byte)) (l := nodes)).length_le
  rw [nextNode] at h
  rcases hr : nodes.dropWhile (· ≠ 44) with _ | ⟨b, r⟩
  · rw [hr] at h
    exact absurd h (by simp)
  · rw [hr] at h hd
    obtain rfl := Option.some.inj h
    exact hd

/-- One round of the loop of `nextconfig`. -/
def enterNode (r : Conf × State) (node : Option Text) : Conf × State :=
  let cp := r.1.atNode node
  if ¬ w.getpwnam cp.user then (cp, r.2)
  else if cp.isMux then
    let e := enter (cp.check true) r.2
    (e.2.1, e.2.2)
  else expandEnter w cp r.2

/-- The nodes that `next_node_sep` takes off `serv_node`. -/
def nodes (servNode : Text) : List Text :=
  match _ : (nextNode servNode).2 with
  | none => [(nextNode servNode).1]
  | some rest => (nextNode servNode).1 :: nodes rest
termination_by servNode.length
decreasing_by exact nextNode_lt ‹_›

structure Line extends Conf where
  servNode : Option Text

def Line.nodes (line : Line) : List (Option Text) :=
  match line.servNode with
  | none => [none]
  | some servNode => (Table.nodes servNode).map some

def enterLine (s : State) (line : Line) : State :=
  (line.nodes.foldl (enterNode w) (line.toConf, s)).2

end

def purgeTab : List Servtab → Socks → List Servtab × Socks
  | [], k => ([], k)
  | sep :: l, k =>
    if sep.checked then
      let r := purgeTab l k
      (sep :: r.1, r.2)
    else purgeTab l (if sep.fd ≠ none then (closeSep sep k).2 else k)

def purge (s : State) : State :=
  let r := purgeTab s.servtab s.toSocks
  { r.2 with servtab := r.1 }

section
variable (w : World)

/-- A file that cannot be opened is passed over. -/
def nextconfig (s : State) (file : Option (List Line)) : State :=
  match file with
  | none => s
  | some lines => purge (lines.foldl (enterLine w) s)

/-- The loop of `fix_tcpmux`: is an entry needed? -/
def tcpmuxLoop : Bool → Bool → List Servtab → Bool
  | need, has, [] => need && !has
  | need, has, sep :: l =>
    if ¬ sep.checked then tcpmuxLoop need has l
    else if sep.isMux ∧ has then false
    else
      let need := need || sep.isMux
      if sep.service = tcpmuxName then
        if need then false else tcpmuxLoop need true l
      else tcpmuxLoop need has l

def tcpmuxConf : Conf where
  node := none
  service := tcpmuxName
  socktype := .stream
  proto := [116, 99, 112, 54]
  max := 0
  checked := true
  user := [114, 111, 111, 116]
  bi := some tcpmuxBiltin
  server := [105, 110, 116, 101, 114, 110, 97, 108]
  argv := []
  kind := .norm
  family := .inet6
  v4mapped := true
  ctrladdr := []
  wait := false

def fixTcpmux (s : State) : State :=
  if tcpmuxLoop false false s.servtab then (expandEnter w tcpmuxConf s).2 else s

/-- The loop that begins `config`. -/
def uncheck (s : State) : State :=
  { s with servtab := s.servtab.map fun sep => sep.check false }

/-- `config`, with the files that `stat` and `readdir` find. -/
def config (files : List (Option (List Line))) (s : State) : State :=
  fixTcpmux w (files.foldl (nextconfig w) (uncheck s))

end

/-! ### The main loop -/

abbrev CNT_INTVL : ℕ := 60

section
variable (toomany : ℕ)

/-- One more start of a server; `none` when it is looping. -/
def counted (now : ℕ) (sep : Servtab) : Option Servtab :=
  if sep.count = 0 then some { sep with count := 1, time := now }
  else if (sep.max ≠ 0 ∧ sep.max < sep.count + 1) ∨ toomany ≤ sep.count + 1 then
    if sep.time + CNT_INTVL < now then some { sep with count := 1, time := now } else none
  else some { sep with count := sep.count + 1 }

def Servtab.dofork (sep : Servtab) : Bool :=
  match sep.bi with
  | none => true
  | some bi => bi.fork

/-- What is done when `select` says that the socket of the service at `i` is readable: whether
`accept` gives a connection, the time, and the result of `fork`. -/
def dispatch (i : ℕ) (accepted : Bool) (now : ℕ) (fork : Option Pid) (s : State) : State :=
  match s.servtab[i]? with
  | none => s
  | some sep =>
    match sep.fd with
    | none => s
    | some fd =>
      if fd ∉ s.allsock then s
      else if sep.wait = 0 ∧ sep.socktype = .stream ∧ ¬ accepted then s
      else if ¬ sep.dofork then s
      else match counted toomany now sep with
        | none =>
          let r := closeSep { sep with count := sep.count + 1 } s.toSocks
          { r.2 with servtab := s.servtab.set i r.1 }
        | some sep =>
          match fork with
          | none => { s with servtab := s.servtab.set i sep }
          | some pid =>
            if sep.wait = 0 then { s with servtab := s.servtab.set i sep }
            else
              { s with
                servtab := s.servtab.set i { sep with wait := pid, child := some pid }
                allsock := s.allsock.erase fd
                nsock := s.nsock - 1 }

end

def Servtab.ended (sep : Servtab) (pid : Pid) : Servtab :=
  { sep with child := if sep.child = some pid then none else sep.child }

/-- The loop of `reapchild` over the table. -/
def reapTab (pid : Pid) : List Servtab → Socks → List Servtab × Socks
  | [], k => ([], k)
  | sep :: l, k =>
    if sep.wait = pid then
      let r := reapTab pid l { k with
        allsock := match sep.fd with
          | some fd => insert fd k.allsock
          | none => k.allsock
        nsock := k.nsock + 1 }
      ({ sep.ended pid with wait := 1 } :: r.1, r.2)
    else
      let r := reapTab pid l k
      (sep.ended pid :: r.1, r.2)

/-- The child `pid` has ended. -/
def reapchild (pid : Pid) (s : State) : State :=
  let r := reapTab pid s.servtab s.toSocks
  { r.2 with servtab := r.1 }

end Inetutils.Inetd.Table
