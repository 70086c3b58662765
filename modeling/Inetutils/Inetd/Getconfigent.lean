import Inetutils.Inetd.Lines

/-! # Reading the configuration, line by line

The reading of the configuration files of inetd, step by step: `getconfigent` of `src/inetd.c` with
all it keeps between two lines and between two files, and `enter` with the memory of the argument
vectors; the table itself is that of `Table`. A step that uses memory which is freed, or memory
outside of a block, is not defined. -/

namespace Inetutils.Inetd.Getconfigent

open Table Lines Telnetd.Argcv

/-! ### The state -/

/-- `global_serv_node` -/
inductive Global
  | unset
  | set (node : Text)
  | freed
  deriving DecidableEq

/-- The static entry, and the memory of its argument vector. -/
structure Serv where
  conf : Conf
  argc : ℕ
  vec : Vec

/-- The address and the mark of an entry are set when it is entered. -/
def Serv.given (sep : Serv) : Conf := (sep.conf.atAddr []).check false

/-- Where the program is: between two files, at a line, or where `getconfigent` has returned an
entry; `stray` is an entry with nothing but a node. In `entering` there are addresses left. -/
inductive Phase
  | idle
  | reading (lines : List Text)
  | returned (sep : Serv) (lines : List Text)
  | entering (sep : Serv) (addrs : List Text) (lines : List Text)
  | stray (node : Text)
  | undefined

def Phase.serv : Phase → Option Serv
  | .returned sep _ => some sep
  | .entering sep _ _ => some sep
  | _ => none

/-- The vector of an entry of the table, and the words of the line that it was entered for. -/
structure Memory where
  vec : Vec
  words : Option (List Text)
  deriving DecidableEq

/-- The node in effect (`addr`), the words of the last entry that was read and the number of its
node are not in the program. -/
structure State where
  phase : Phase
  servNode : Option Text
  globalNode : Global
  tab : Table.State
  mem : List Memory
  addr : Option Text
  words : List Text
  nth : ℕ

def State.init : State := ⟨.idle, none, .unset, Table.State.init, [], none, [], 0⟩

def State.go (s : State) (phase : Phase) : State := { s with phase := phase }

/-! ### `getconfigent` -/

def nextNodeSep (sep : Serv) (servNode : Option Text) : Serv × Option Text :=
  match servNode with
  | none => (sep, none)
  | some nodes =>
    ({ sep with conf := sep.conf.atNode (some (nextNode nodes).1) }, (nextNode nodes).2)

def addrLine (s : State) (node : Text) : State :=
  if s.globalNode = .freed then s.go .undefined
  else if node = [42] then
    { s with addr := none, globalNode := if s.globalNode = .unset then .unset else .freed }
  else { s with addr := some node, globalNode := .set node }

def servOf (words : List Text) (conf : Conf) : Serv := ⟨conf, argc words, some (vector words)⟩

/-- `serv_node`, where the line has been read as far as the service. -/
def readNode (words : List Text) (s : State) : Option Text :=
  match (splitNode (word words 0)).1, s.globalNode with
  | some node, _ => if node = [42] then s.servNode else some node
  | none, .set node => some node
  | none, _ => s.servNode

def entryLine (ipv6 : Bool) (words : List Text) (lines : List Text) (s : State) : State :=
  if (splitNode (word words 0)).1 = none ∧ s.globalNode = .freed then s.go .undefined
  else
    match lineConf words ipv6 with
    | none => { s with servNode := readNode words s }
    | some conf =>
      let r := nextNodeSep (servOf words conf) (readNode words s)
      { s with phase := .returned r.1 lines, servNode := r.2, words := words, nth := 0 }

/-- The loop of `getconfigent`. -/
def readLine (ipv6 : Bool) (line : Text) (lines : List Text) (s : State) : State :=
  let s := s.go (.reading lines)
  if line = [] ∨ line.head? = some 35 then s
  else
    match argcvGet line [] with
    | [] => s
    | [word] =>
      -- `argv[0][strlen (argv[0]) - 1]`
      if word = [] then s.go .undefined
      else if word.getLast? = some 58 then addrLine s word.dropLast
      else s
    | words => if words.length < fieldsMin then s else entryLine ipv6 words lines s

/-! ### `enter` -/

def dupmem (vec : Vec) (argc : ℕ) : Vec := some ((vec.getD []).take argc)

/-- `enter`, with the memory. -/
def enterMem (words : Option (List Text)) (sep : Serv) (tab : Table.State) (mem : List Memory) :
    Serv × List Memory :=
  let i := tab.servtab.findIdx (·.key = sep.conf.key)
  let conf := (enter sep.conf tab).2.1
  match tab.servtab[i]? with
  | some _ => (⟨conf, 0, none⟩, mem.set i ⟨sep.vec, words⟩)
  | none => (⟨conf, sep.argc, sep.vec⟩, ⟨dupmem sep.vec sep.argc, words⟩ :: mem)

def Serv.atAddr (sep : Serv) (addr : Text) : Serv := { sep with conf := sep.conf.atAddr addr }
def Serv.check (sep : Serv) : Serv := { sep with conf := sep.conf.check true }
def Serv.ofFamily (sep : Serv) (family : Family) : Serv :=
  { sep with conf := sep.conf.ofFamily family }

/-- One round of the loop of `expand_enter`. -/
def enterAddrMem (w : World) (words : Option (List Text)) (r : Serv × Table.State × List Memory)
    (addr : Text) :
    Serv × Table.State × List Memory :=
  let e := enterMem words (r.1.atAddr addr) r.2.1 r.2.2
  (e.1, (enterAddr w (r.1.conf, r.2.1) addr).2, e.2)

/-- What `nextconfig` does with an entry. -/
def enterReturned (w : World) (sep : Serv) (lines : List Text) (s : State) : State :=
  if ¬ w.getpwnam sep.conf.user then s.go (.entering sep [] lines)
  else if sep.conf.isMux then
    let e := enterMem (some s.words) sep.check s.tab s.mem
    { s with phase := .entering e.1 [] lines, tab := (enter sep.check.conf s.tab).2.2, mem := e.2 }
  else
    let a := addresses w sep.conf.query
    s.go (.entering (sep.ofFamily a.1) a.2 lines)

/-- `getconfigent` is called again. -/
def nextEntry (sep : Serv) (lines : List Text) (s : State) : State :=
  match s.servNode with
  | none => s.go (.reading lines)
  | some _ =>
    let r := nextNodeSep sep s.servNode
    { s with phase := .returned r.1 lines, servNode := r.2, nth := s.nth + 1 }

def purgeMem (tab : Table.State) (mem : List Memory) : List Memory :=
  ((tab.servtab.zip mem).filter fun p => p.1.checked).map Prod.snd

def fixMem (w : World) (s : State) : State :=
  if tcpmuxLoop false false s.tab.servtab then
    let a := addresses w tcpmuxConf.query
    let r := a.2.foldl (enterAddrMem w none) (⟨tcpmuxConf.ofFamily a.1, 0, none⟩, s.tab, s.mem)
    { s with tab := r.2.1, mem := r.2.2 }
  else s

/-! ### The steps -/

/-- The configuration is read from the beginning; a file is opened; the program goes on, in a world;
and what follows the last file. -/
inductive Act
  | config
  | opened (file : Text)
  | next (w : World)
  | fix (w : World)

def step (ipv6 : Bool) (s : State) (a : Act) : State :=
  match a, s.phase with
  | .config, .idle => { s with tab := uncheck s.tab, addr := none }
  | .opened file, .idle =>
    match s.servNode with
    | none => s.go (.reading (getlines file))
    | some nodes => { s with phase := .stray (nextNode nodes).1, servNode := (nextNode nodes).2 }
  | .next _, .reading [] =>
    { s with phase := .idle, tab := purge s.tab, mem := purgeMem s.tab s.mem }
  | .next _, .reading (line :: lines) => readLine ipv6 line lines s
  | .next w, .returned sep lines => enterReturned w sep lines s
  | .next _, .entering sep [] lines => nextEntry sep lines s
  | .next w, .entering sep (addr :: addrs) lines =>
    let r := enterAddrMem w (some s.words) (sep, s.tab, s.mem) addr
    { s with phase := .entering r.1 addrs lines, tab := r.2.1, mem := r.2.2 }
  -- `getpwnam (NULL)`
  | .next _, .stray _ => s.go .undefined
  | .fix w, .idle => fixMem w s
  | _, _ => s

end Inetutils.Inetd.Getconfigent
