import Inetutils.Lib.Descriptors
import Inetutils.Lib.Runs
import Inetutils.Lib.Strings

/-! # Two connections of ftp

`pswitch` of `src/ftp.c` exchanges the variables of the connection in use with those that are put
away, and `hookup`, `setpeer`, `disconnect`, `settype`, `setntrans` and `setnmap` change the ones in
use. Plain variables are copied, the translation tables are copied as strings, and the pointers are
moved. The host name is in one buffer of `hookup`; `typename` and `ctladdrlen` are not exchanged.
`Sides` is what it is for: two connections of which the one in use is changed and the other is
not. -/

namespace Inetutils.Ftp.Pswitch

open Lib.Runs Lib.Strings Lib.Descriptors List Option

abbrev Text := List UInt8

/-! ### Memory -/

/-- A pointer to a string: the buffer of `hookup`, or a block of `strdup`. -/
inductive Ptr
  | hostnamebuf
  | block (a : ℕ)
  deriving DecidableEq

/-- `valid` says that whatever was freed was a block, and not freed before. -/
structure Mem where
  hostnamebuf : Text
  heap : Table Text
  valid : Bool

def Mem.deref (m : Mem) : Option Ptr → Option Text
  | none => none
  | some .hostnamebuf => some m.hostnamebuf
  | some (.block a) => m.heap.get a

def Mem.free (m : Mem) : Option Ptr → Mem
  | none => m
  | some .hostnamebuf => { m with valid := false }
  | some (.block a) => { m with heap := m.heap.close a, valid := m.valid && (m.heap.get a).isSome }

def Mem.strdup (m : Mem) (p : Pick) (t : Text) : Option Ptr × Mem :=
  (some (.block (p.of m.heap)), { m with heap := m.heap.opened p (str 0 t) })

/-! ### The variables -/

inductive TypeName
  | ascii
  | binary
  | image
  | ebcdic
  | tenex
  deriving DecidableEq

/-- `t_type` of `types`. -/
def TypeName.type : TypeName → ℕ
  | .ascii => 1
  | .ebcdic => 2
  | .binary | .image => 3
  | .tenex => 4

/-- What is copied; `0` of a type is `TYPE` not given. -/
structure Plain where
  connect : Bool
  mctl : Text
  hctl : Text
  cin : Option ℕ
  cout : Option ℕ
  tpe : ℕ
  curtpe : ℕ
  cpnd : Bool
  sunqe : Bool
  runqe : Bool
  mcse : Bool
  ntflg : ℕ
  mapflg : Bool
  deriving DecidableEq

/-- `struct comvars`, and the variables in use under the names of its members. -/
structure Comvars where
  plain : Plain
  name : Option Ptr
  nti : Text
  nto : Text
  mi : Option Ptr
  mo : Option Ptr

def Plain.init : Plain := ⟨false, [], [], none, none, 0, 0, false, false, false, false, 0, false⟩

def Comvars.init : Comvars := ⟨.init, none, .replicate 17 0, .replicate 17 0, none, none⟩

structure Client where
  cur : Comvars
  proxstruct : Comvars
  tmpstruct : Comvars
  proxy : Bool
  typename : Option TypeName
  ctladdrlen : ℕ
  mem : Mem

variable {s : Client}

def Client.init : Client := ⟨.init, .init, .init, false, none, 0, ⟨[], [], true⟩⟩

/-! ### `pswitch` -/

/-- What is put away in `ip`. -/
def Comvars.put (ip cur : Comvars) : Comvars :=
  { plain := cur.plain
    name := cur.name
    nti := strncpy 0 ip.nti cur.nti 16
    nto := strncpy 0 ip.nto cur.nto 16
    mi := cur.mi
    mo := cur.mo }

/-- What is taken from `op`. -/
def Comvars.take (cur op : Comvars) : Comvars :=
  { plain := op.plain
    name := op.name
    nti := strcpy 0 cur.nti op.nti
    nto := strcpy 0 cur.nto op.nto
    mi := op.mi
    mo := op.mo }

/-- The pointers of `op` are cleared. -/
def Comvars.clear (op : Comvars) : Comvars := { op with name := none, mi := none, mo := none }

/-- The pointers of `ip` are freed. -/
def Mem.release (m : Mem) (ip : Comvars) : Mem := ((m.free ip.name).free ip.mi).free ip.mo

def pswitch (flag : Bool) (s : Client) : Client :=
  if flag = s.proxy then s
  else if flag then
    { s with
      cur := s.cur.take s.proxstruct
      tmpstruct := s.tmpstruct.put s.cur
      proxstruct := s.proxstruct.clear
      proxy := true
      mem := s.mem.release s.tmpstruct }
  else
    { s with
      cur := s.cur.take s.tmpstruct
      proxstruct := s.proxstruct.put s.cur
      tmpstruct := s.tmpstruct.clear
      proxy := false
      mem := s.mem.release s.proxstruct }

/-! ### What changes the connection in use -/

/-- What the calls of `hookup` give: `ai_canonname` of `getaddrinfo`, the address that `connect`
reaches, `getsockname`, both of `fdopen`, and whether the first reply is a good one. -/
structure Hookup where
  canonname : Option Text
  peer : Option Text
  own : Option Text
  cin : Option ℕ
  cout : Option ℕ
  greeted : Bool

def Hookup.Stands (h : Hookup) : Prop :=
  h.canonname.isSome ∧ h.peer.isSome ∧ h.own.isSome ∧ h.cin.isSome ∧ h.cout.isSome ∧ h.greeted

instance decidableStands (h : Hookup) : Decidable h.Stands := inferInstanceAs (Decidable (_ ∧ _))

/-- `strncpy` into the buffer of 80 bytes. -/
def hostnamebuf (canonname : Text) : Text := (str 0 canonname).take 80

/-- The variables that `hookup` sets and `pswitch` copies. -/
def Plain.hookup (v : Plain) (h : Hookup) : Plain :=
  match h.canonname, h.peer, h.own with
  | some _, some a, some b => { v with hctl := a, mctl := b, cin := h.cin, cout := h.cout }
  | some _, some a, none => { v with hctl := a }
  | _, _, _ => { v with hctl := [] }

def hookup (h : Hookup) (s : Client) : Client :=
  { s with
    cur := { s.cur with
      plain := s.cur.plain.hookup h
      name := if h.canonname.isSome then some .hostnamebuf else s.cur.name }
    ctladdrlen :=
      if h.canonname.isSome then (h.peer.map List.length).getD s.ctladdrlen else s.ctladdrlen
    mem := { s.mem with hostnamebuf := (h.canonname.map hostnamebuf).getD s.mem.hostnamebuf } }

def Comvars.set (c : Comvars) (f : Plain → Plain) : Comvars := { c with plain := f c.plain }

def Plain.setpeer (v : Plain) : Plain :=
  { v with connect := true, tpe := TypeName.ascii.type, curtpe := TypeName.ascii.type }

/-- `setpeer` up to the login. -/
def setpeer (h : Hookup) (s : Client) : Client :=
  if s.cur.plain.connect then s
  else if h.Stands then
    { hookup h s with cur := (hookup h s).cur.set Plain.setpeer, typename := some .ascii }
  else hookup h s

def unixType (s : Client) : Client :=
  { s with cur := s.cur.set fun v => { v with tpe := 0 }, typename := some .binary }

/-- `settype`, when the server accepts it. -/
def settype (p : TypeName) (s : Client) : Client :=
  { s with
    cur := s.cur.set fun v => { v with tpe := p.type, curtpe := p.type }, typename := some p }

def Plain.disconnect (v : Plain) : Plain :=
  if v.connect then { v with connect := false, cout := none } else v

def Plain.setntrans (v : Plain) (argv : List Text) : Plain :=
  match argv with
  | [] => { v with ntflg := 0 }
  | _ => { v with ntflg := v.ntflg + 1 }

/-- `strncpy` and the NUL at the end. -/
def setTable (dst a : Text) : Text := (strncpy 0 dst a 16).set 16 0

def Comvars.setntrans (c : Comvars) (argv : List Text) : Comvars :=
  match argv with
  | [] => { c with plain := c.plain.setntrans argv }
  | [a] => { c with plain := c.plain.setntrans argv, nti := setTable c.nti a, nto := c.nto.set 0 0 }
  | a :: b :: _ =>
    { c with plain := c.plain.setntrans argv, nti := setTable c.nti a, nto := setTable c.nto b }

/-- The two words of `nmap`, and the blocks that `strdup` gives. -/
structure Maps where
  mapin : Text
  mapout : Text
  blockin : Pick
  blockout : Pick

/-- `free` and `strdup`. -/
def Mem.replace (m : Mem) (old : Option Ptr) (p : Pick) (t : Text) : Option Ptr × Mem :=
  (m.free old).strdup p t

def setnmap (maps : Option Maps) (s : Client) : Client :=
  match maps with
  | none => { s with cur := s.cur.set fun v => { v with mapflg := false } }
  | some a =>
    let (mi, m) := s.mem.replace s.cur.mi a.blockin a.mapin
    let (mo, m) := m.replace s.cur.mo a.blockout a.mapout
    { s with
      cur := { s.cur.set fun v => { v with mapflg := true } with mi := mi, mo := mo }, mem := m }

/-- An event at the connection in use, or a change of connections. Of a command that is sent to the
server and the reply the type in use there and `cpend` remain. -/
inductive Event
  | pswitch (flag : Bool)
  | setpeer (h : Hookup)
  | unixType
  | disconnect
  | settype (p : TypeName)
  | setcase
  | setsunique
  | setrunique
  | setntrans (argv : List Text)
  | setnmap (maps : Option Maps)
  | command (curtype : ℕ) (cpend : Bool)

def Plain.event (v : Plain) : Event → Plain
  | .disconnect => v.disconnect
  | .setcase => { v with mcse := !v.mcse }
  | .setsunique => { v with sunqe := !v.sunqe }
  | .setrunique => { v with runqe := !v.runqe }
  | .command t p => { v with curtpe := t, cpnd := p }
  | _ => v

def step (s : Client) (e : Event) : Client :=
  match e with
  | .pswitch flag => pswitch flag s
  | .setpeer h => setpeer h s
  | .unixType => unixType s
  | .settype p => settype p s
  | .setntrans argv => { s with cur := s.cur.setntrans argv }
  | .setnmap maps => setnmap maps s
  | _ => { s with cur := s.cur.set fun v => v.event e }

/-! ### Two sides -/

/-- The values of a connection. The name of the type and the length of an address are shown while
there is one. -/
structure Side where
  plain : Plain
  hostname : Option Text
  ntin : Text
  ntout : Text
  mapin : Option Text
  mapout : Option Text
  shown : Option (Option TypeName × ℕ)

def Side.init : Side := ⟨.init, none, [], [], none, none, none⟩

structure Sides where
  active : Side
  other : Side
  proxy : Bool

def Sides.init : Sides := ⟨.init, .init, false⟩

def Side.hookup (a : Side) (h : Hookup) : Side :=
  { a with plain := a.plain.hookup h, hostname := (h.canonname.map hostnamebuf).or a.hostname }

def Side.setpeer (a : Side) (h : Hookup) : Side :=
  if a.plain.connect then a
  else if h.Stands then
    { a.hookup h with
      plain := (a.plain.hookup h).setpeer
      shown := some (some .ascii, (h.peer.map List.length).getD 0) }
  else a.hookup h

def Side.setntrans (a : Side) (argv : List Text) : Side :=
  match argv with
  | [] => { a with plain := a.plain.setntrans argv }
  | [b] => { a with plain := a.plain.setntrans argv, ntin := (str 0 b).take 16, ntout := [] }
  | b :: c :: _ =>
    { a with
      plain := a.plain.setntrans argv, ntin := (str 0 b).take 16, ntout := (str 0 c).take 16 }

def Side.named (a : Side) (p : TypeName) : Side :=
  { a with shown := a.shown.map fun t => (some p, t.2) }

def Side.step (a : Side) (e : Event) : Side :=
  match e with
  | .pswitch _ => a
  | .setpeer h => a.setpeer h
  | .unixType => { a.named .binary with plain := { a.plain with tpe := 0 } }
  | .settype p => { a.named p with plain := { a.plain with tpe := p.type, curtpe := p.type } }
  | .setntrans argv => a.setntrans argv
  | .setnmap none => { a with plain := { a.plain with mapflg := false } }
  | .setnmap (some m) =>
    { a with
      plain := { a.plain with mapflg := true }
      mapin := some (str 0 m.mapin)
      mapout := some (str 0 m.mapout) }
  | .disconnect => { a with plain := a.plain.event e, shown := none }
  | _ => { a with plain := a.plain.event e }

def Sides.step (t : Sides) (e : Event) : Sides :=
  match e with
  | .pswitch flag => if flag = t.proxy then t else ⟨t.other, t.active, flag⟩
  | _ => { t with active := t.active.step e }

/-! ### The view -/

/-- The variables that are put away, and the structure that holds none. -/
def Client.saved (s : Client) : Comvars := if s.proxy then s.tmpstruct else s.proxstruct

def Client.spare (s : Client) : Comvars := if s.proxy then s.proxstruct else s.tmpstruct

def Client.side (s : Client) (c : Comvars) : Side :=
  { plain := c.plain
    hostname := s.mem.deref c.name
    ntin := str 0 c.nti
    ntout := str 0 c.nto
    mapin := s.mem.deref c.mi
    mapout := s.mem.deref c.mo
    shown := if c.plain.connect then some (s.typename, s.ctladdrlen) else none }

def Client.view (s : Client) : Sides := ⟨s.side s.cur, s.side s.saved, s.proxy⟩

/-- Nothing that is referred to was freed, and whatever was freed was a block in use. -/
structure Client.Sound (s : Client) : Prop where
  valid : s.mem.valid = true
  live : ∀ c ∈ [s.cur, s.proxstruct, s.tmpstruct], ∀ p ∈ [c.name, c.mi, c.mo],
    p.isSome → (s.mem.deref p).isSome

/-! ### Translation tables -/

def Terminated (l : Text) : Prop := l.drop 16 = [0]

theorem Terminated.length {l : Text} (h : Terminated l) : l.length = 17 := by
  have hlen := congrArg List.length h
  rw [length_drop, length_singleton] at hlen
  omega

theorem Terminated.getElem {l : Text} (h : Terminated l) : l[16]? = some 0 := by
  have h0 : (l.drop 16)[0]? = some 0 := by rw [show l.drop 16 = [0] from h]; rfl
  rwa [getElem?_drop] at h0

theorem Terminated.set {l : Text} (h : Terminated l) : l.set 16 0 = l := by
  refine ext_getElem? fun i => ?_
  rw [getElem?_set]
  split
  · next hi =>
    subst hi
    rw [h.getElem, if_pos (by rw [h.length]; omega)]
  · rfl

theorem Terminated.length_str_le {l : Text} (h : Terminated l) : (str 0 l).length ≤ 16 := by
  by_contra hlt
  have hpre : str 0 l <+: l := List.takeWhile_prefix _
  have h16 : (str 0 l)[16]? = some 0 := by
    obtain ⟨r, hr⟩ := hpre
    rw [← h.getElem, ← hr, getElem?_append_left (by omega), hr]
  exact ne_of_mem_str (mem_of_getElem? h16) rfl

variable {dst : Text} {l : List Ptr} {m : Mem} {c : Comvars} {s' : Client} {p : Option Ptr}

theorem str_strncpy_of (h : Terminated dst) (a : Text) :
    str 0 (strncpy 0 dst a 16) = (str 0 a).take 16 := by
  refine str_strncpy a fun b hb => ?_
  rw [show dst.drop 16 = [0] from h] at hb
  exact (some.inj hb).symm

theorem terminated_strncpy (h : Terminated dst) (a : Text) : Terminated (strncpy 0 dst a 16) :=
  (drop_strncpy dst a 16).trans h

theorem setTable_eq (h : Terminated dst) (a : Text) :
    setTable dst a = strncpy 0 dst a 16 := (terminated_strncpy h a).set

theorem terminated_strcpy {src : Text} (hd : Terminated dst) (hs : Terminated src) :
    Terminated (strcpy 0 dst src) := by
  have hle := hs.length_str_le
  unfold Terminated strcpy
  rw [drop_append, drop_of_length_le hle, nil_append]
  rcases hk : 16 - (str 0 src).length with - | k
  · rw [drop_zero, show (str 0 src).length + 1 = 17 by omega, drop_of_length_le hd.length.le]
  · rw [drop_succ_cons, drop_drop, show (str 0 src).length + 1 + k = 16 by omega]
    exact hd

theorem Terminated.set_zero {l : Text} (h : Terminated l) : Terminated (l.set 0 0) := by
  unfold Terminated
  rw [drop_set_of_lt (by omega)]
  exact h

theorem str_set_zero {l : Text} (h : l ≠ []) : str 0 (l.set 0 0) = [] := by
  rcases l with - | ⟨b, l⟩
  · exact absurd rfl h
  · rfl

/-! ### Blocks -/

structure Held (m : Mem) (l : List Ptr) : Prop where
  nodup : l.Nodup
  block : ∀ p ∈ l, ∃ a, p = .block a ∧ a ∈ m.heap.fds

theorem Held.perm {l' : List Ptr} (h : Held m l) (hl : l.Perm l') : Held m l' :=
  ⟨hl.nodup_iff.1 h.nodup, fun p hp => h.block p (hl.mem_iff.2 hp)⟩

theorem Held.isSome (h : Held m l) {p : Ptr} (hp : p ∈ l) : (m.deref (some p)).isSome := by
  obtain ⟨a, rfl, ha⟩ := h.block p hp
  exact isSome_get_iff.2 ha

/-- What `free` and `strdup` leave. -/
structure Replaced (m m' : Mem) (new : Ptr) (t : Text) (l : List Ptr) : Prop where
  held : Held m' (new :: l)
  deref_new : m'.deref (some new) = some (str 0 t)
  deref_of_mem : ∀ q ∈ l, m'.deref (some q) = m.deref (some q)
  hostnamebuf : m'.hostnamebuf = m.hostnamebuf
  valid : m'.valid = m.valid

theorem strdup_replaced (h : Held m l) (p : Pick) (t : Text) :
    Replaced m (m.strdup p t).2 (.block (p.of m.heap)) t l := by
  have hne : ∀ q ∈ l, q ≠ .block (p.of m.heap) := by
    rintro q hq rfl
    obtain ⟨a, ha, hmem⟩ := h.block _ hq
    exact p.of_not_mem m.heap (Ptr.block.inj ha ▸ hmem)
  refine ⟨⟨nodup_cons.2 ⟨fun hq => hne _ hq rfl, h.nodup⟩, fun q hq => ?_⟩, get_cons_self _ _ _,
    fun q hq => ?_, rfl, rfl⟩
  · rcases mem_cons.1 hq with rfl | hq
    · exact ⟨_, rfl, mem_cons_self⟩
    · obtain ⟨a, rfl, ha⟩ := h.block q hq
      exact ⟨a, rfl, mem_cons_of_mem _ ha⟩
  · obtain ⟨a, rfl, ha⟩ := h.block q hq
    exact get_cons_of_ne _ fun heq => hne _ hq (heq ▸ rfl)

theorem free_held {a : ℕ} (h : Held m (.block a :: l)) :
    Held (m.free (some (.block a))) l ∧
    (∀ q ∈ l, (m.free (some (.block a))).deref (some q) = m.deref (some q)) ∧
      (m.free (some (.block a))).valid = m.valid := by
  have hnot := (nodup_cons.1 h.nodup).1
  have hne : ∀ b, Ptr.block b ∈ l → b ≠ a := by
    rintro b hb rfl
    exact hnot hb
  refine ⟨⟨(nodup_cons.1 h.nodup).2, fun q hq => ?_⟩, fun q hq => ?_, ?_⟩
  · obtain ⟨b, rfl, hb⟩ := h.block q (mem_cons_of_mem _ hq)
    exact ⟨b, rfl, mem_fds_close.2 ⟨hb, hne b hq⟩⟩
  · obtain ⟨b, rfl, -⟩ := h.block q (mem_cons_of_mem _ hq)
    exact get_close_of_ne (hne b hq)
  · have hlive : (m.heap.get a).isSome = true := h.isSome mem_cons_self
    show (m.valid && (m.heap.get a).isSome) = m.valid
    rw [hlive, Bool.and_true]

theorem replace_replaced {old : Option Ptr} (h : Held m (old.toList ++ l)) (p : Pick) (t : Text) :
    ∃ new, (m.replace old p t).1 = some new ∧ Replaced m (m.replace old p t).2 new t l := by
  rcases old with - | q
  · exact ⟨_, rfl, strdup_replaced h p t⟩
  · obtain ⟨a, rfl, -⟩ := h.block q mem_cons_self
    obtain ⟨hheld, hderef, hvalid⟩ := free_held h
    have hr := strdup_replaced hheld p t
    exact ⟨_, rfl, hr.held, hr.deref_new, fun q hq => (hr.deref_of_mem q hq).trans (hderef q hq),
      hr.hostnamebuf, hr.valid.trans hvalid⟩

/-! ### The shape of the state -/

def Comvars.blocks (c : Comvars) : List Ptr := c.mi.toList ++ c.mo.toList

structure Comvars.Tables (c : Comvars) : Prop where
  nti : Terminated c.nti
  nto : Terminated c.nto

/-- **What holds in every run.** -/
structure Shape (s : Client) : Prop where
  name : s.cur.name = none ∨ s.cur.name = some .hostnamebuf
  savedName : s.saved.name = none ∨ s.saved.name = some .hostnamebuf
  spareName : s.spare.name = none
  spareBlocks : s.spare.blocks = []
  held : Held s.mem (s.cur.blocks ++ s.saved.blocks)
  cur : s.cur.Tables
  saved : s.saved.Tables
  spare : s.spare.Tables
  valid : s.mem.valid = true

theorem blocks_eq_nil (h : c.blocks = []) : c.mi = none ∧ c.mo = none := by
  obtain ⟨hi, ho⟩ := append_eq_nil_iff.1 h
  exact ⟨toList_eq_nil_iff.1 hi, toList_eq_nil_iff.1 ho⟩

theorem Shape.release (h : Shape s) : s.mem.release s.spare = s.mem := by
  obtain ⟨hi, ho⟩ := blocks_eq_nil h.spareBlocks
  unfold Mem.release
  rw [h.spareName, hi, ho]
  rfl

theorem pswitch_of_ne (h : Shape s) {flag : Bool} (hf : flag ≠ s.proxy) :
    (pswitch flag s).cur = s.cur.take s.saved ∧ (pswitch flag s).saved = s.spare.put s.cur ∧
      (pswitch flag s).spare = s.saved.clear ∧ (pswitch flag s).proxy = flag ∧
      (pswitch flag s).mem = s.mem ∧
      (pswitch flag s).typename = s.typename ∧ (pswitch flag s).ctladdrlen = s.ctladdrlen := by
  have hrel := h.release
  unfold pswitch
  unfold Client.saved Client.spare at *
  rcases flag with - | -
  · have hp : s.proxy = true := by
      rcases hp : s.proxy with - | -
      · exact absurd hp.symm hf
      · rfl
    rw [hp, if_pos rfl] at hrel
    rw [hp]
    exact ⟨rfl, rfl, rfl, rfl, hrel, rfl, rfl⟩
  · have hp : s.proxy = false := by
      rcases hp : s.proxy with - | -
      · rfl
      · exact absurd hp.symm hf
    rw [hp, if_neg Bool.false_ne_true] at hrel
    rw [hp]
    exact ⟨rfl, rfl, rfl, rfl, hrel, rfl, rfl⟩

theorem shape_pswitch (h : Shape s) (flag : Bool) : Shape (pswitch flag s) := by
  by_cases hf : flag = s.proxy
  · unfold pswitch
    rw [if_pos hf]
    exact h
  · obtain ⟨hcur, hsaved, hspare, -, hmem, -, -⟩ := pswitch_of_ne h hf
    constructor
    · rw [hcur]
      exact h.savedName
    · rw [hsaved]
      exact h.name
    · rw [hspare]
      rfl
    · rw [hspare]
      rfl
    · rw [hcur, hsaved, hmem]
      exact h.held.perm perm_append_comm
    · rw [hcur]
      exact ⟨terminated_strcpy h.cur.nti h.saved.nti, terminated_strcpy h.cur.nto h.saved.nto⟩
    · rw [hsaved]
      exact ⟨terminated_strncpy h.spare.nti s.cur.nti, terminated_strncpy h.spare.nto s.cur.nto⟩
    · rw [hspare]
      exact ⟨h.saved.nti, h.saved.nto⟩
    · rw [hmem]
      exact h.valid

structure Away (s s' : Client) : Prop where
  proxstruct : s'.proxstruct = s.proxstruct
  tmpstruct : s'.tmpstruct = s.tmpstruct
  proxy : s'.proxy = s.proxy

theorem Away.saved (h : Away s s') : s'.saved = s.saved := by
  unfold Client.saved
  rw [h.proxy, h.proxstruct, h.tmpstruct]

theorem Away.spare (h : Away s s') : s'.spare = s.spare := by
  unfold Client.spare
  rw [h.proxy, h.proxstruct, h.tmpstruct]

theorem Shape.of_away (h : Shape s) (ha : Away s s')
    (hname : s'.cur.name = none ∨ s'.cur.name = some .hostnamebuf)
    (hheld : Held s'.mem (s'.cur.blocks ++ s.saved.blocks)) (htables : s'.cur.Tables)
    (hvalid : s'.mem.valid = s.mem.valid) : Shape s' := by
  have hsaved := ha.saved
  have hspare := ha.spare
  exact ⟨hname, hsaved ▸ h.savedName, hspare ▸ h.spareName, hspare ▸ h.spareBlocks,
    hsaved ▸ hheld, htables, hsaved ▸ h.saved, hspare ▸ h.spare, hvalid.trans h.valid⟩

theorem shape_hookup (h : Shape s) (k : Hookup) : Shape (hookup k s) := by
  refine h.of_away ⟨rfl, rfl, rfl⟩ ?_ ⟨h.held.nodup, h.held.block⟩ ⟨h.cur.nti, h.cur.nto⟩ rfl
  show (if k.canonname.isSome then some Ptr.hostnamebuf else s.cur.name) = none ∨
    (if k.canonname.isSome then some Ptr.hostnamebuf else s.cur.name) = some .hostnamebuf
  by_cases hk : k.canonname.isSome
  · rw [if_pos hk]
    exact .inr rfl
  · rw [if_neg hk]
    exact h.name

theorem shape_plain (h : Shape s) (ha : Away s s')
    (hcur : s'.cur = { s.cur with plain := s'.cur.plain }) (hmem : s'.mem = s.mem) : Shape s' := by
  refine h.of_away ha ?_ ?_ ?_ (by rw [hmem])
  · rw [hcur]
    exact h.name
  · rw [hcur, hmem]
    exact h.held
  · rw [hcur]
    exact ⟨h.cur.nti, h.cur.nto⟩

theorem shape_setpeer (h : Shape s) (k : Hookup) : Shape (setpeer k s) := by
  unfold setpeer
  split
  · exact h
  split
  · exact shape_plain (shape_hookup h k) ⟨rfl, rfl, rfl⟩ rfl rfl
  · exact shape_hookup h k

theorem tables_setntrans (h : c.Tables) (argv : List Text) : (c.setntrans argv).Tables := by
  rcases argv with - | ⟨a, - | ⟨b, argv⟩⟩
  · exact ⟨h.nti, h.nto⟩
  · refine ⟨?_, h.nto.set_zero⟩
    show Terminated (setTable c.nti a)
    rw [setTable_eq h.nti]
    exact terminated_strncpy h.nti a
  · constructor
    · show Terminated (setTable c.nti a)
      rw [setTable_eq h.nti]
      exact terminated_strncpy h.nti a
    · show Terminated (setTable c.nto b)
      rw [setTable_eq h.nto]
      exact terminated_strncpy h.nto b

theorem shape_setntrans (h : Shape s) (argv : List Text) :
    Shape { s with cur := s.cur.setntrans argv } := by
  refine h.of_away ⟨rfl, rfl, rfl⟩ ?_ ?_ (tables_setntrans h.cur argv) rfl
  · rcases argv with - | ⟨a, - | ⟨b, argv⟩⟩ <;> exact h.name
  · rcases argv with - | ⟨a, - | ⟨b, argv⟩⟩ <;> exact h.held

theorem setnmap_some (h : Shape s) (a : Maps) :
    Shape (setnmap (some a) s) ∧
      (setnmap (some a) s).mem.deref (setnmap (some a) s).cur.mi = some (str 0 a.mapin) ∧
      (setnmap (some a) s).mem.deref (setnmap (some a) s).cur.mo = some (str 0 a.mapout) ∧
      (∀ q ∈ s.saved.blocks, (setnmap (some a) s).mem.deref (some q) = s.mem.deref (some q)) ∧
      (setnmap (some a) s).mem.hostnamebuf = s.mem.hostnamebuf := by
  have hheld : Held s.mem (s.cur.mi.toList ++ (s.cur.mo.toList ++ s.saved.blocks)) := by
    have := h.held
    rwa [Comvars.blocks, append_assoc] at this
  obtain ⟨mi, hmi, hin⟩ := replace_replaced hheld a.blockin a.mapin
  have hperm :
      Held (s.mem.replace s.cur.mi a.blockin a.mapin).2
      (s.cur.mo.toList ++ (mi :: s.saved.blocks)) :=
    hin.held.perm perm_middle.symm
  obtain ⟨mo, hmo, hout⟩ := replace_replaced hperm a.blockout a.mapout
  unfold setnmap
  dsimp only
  rw [hmi, hmo]
  refine ⟨h.of_away ⟨rfl, rfl, rfl⟩ h.name ?_ ⟨h.cur.nti, h.cur.nto⟩ (hout.valid.trans hin.valid),
    ?_, hout.deref_new,
    fun q hq => ?_, hout.hostnamebuf.trans hin.hostnamebuf⟩
  · exact hout.held.perm (List.Perm.swap mi mo _)
  · exact (hout.deref_of_mem mi mem_cons_self).trans hin.deref_new
  · exact (hout.deref_of_mem q (mem_cons_of_mem _ hq)).trans
      (hin.deref_of_mem q (mem_append_right _ hq))

theorem shape_step (h : Shape s) (e : Event) : Shape (step s e) := by
  rcases e with flag | k | - | - | p | - | - | - | argv | maps | ⟨t, p⟩
  · exact shape_pswitch h flag
  · exact shape_setpeer h k
  · exact shape_plain h ⟨rfl, rfl, rfl⟩ rfl rfl
  · exact shape_plain h ⟨rfl, rfl, rfl⟩ rfl rfl
  · exact shape_plain h ⟨rfl, rfl, rfl⟩ rfl rfl
  · exact shape_plain h ⟨rfl, rfl, rfl⟩ rfl rfl
  · exact shape_plain h ⟨rfl, rfl, rfl⟩ rfl rfl
  · exact shape_plain h ⟨rfl, rfl, rfl⟩ rfl rfl
  · exact shape_setntrans h argv
  · rcases maps with - | a
    · exact shape_plain h ⟨rfl, rfl, rfl⟩ rfl rfl
    · exact (setnmap_some h a).1
  · exact shape_plain h ⟨rfl, rfl, rfl⟩ rfl rfl

theorem shape_init : Shape .init := by
  have ht : Comvars.init.Tables := ⟨rfl, rfl⟩
  exact ⟨.inl rfl, .inl rfl, rfl, rfl, ⟨nodup_nil, fun p hp => absurd hp not_mem_nil⟩, ht,
    ht, ht, rfl⟩

theorem Shape.sound (h : Shape s) : s.Sound := by
  have hname : ∀ p : Option Ptr, p = none ∨ p = some .hostnamebuf → p.isSome →
    (s.mem.deref p).isSome := by
    rintro p (rfl | rfl) hp
    · exact absurd hp Bool.false_ne_true
    · rfl
  have hblock : ∀ c : Comvars, c.blocks ⊆ s.cur.blocks ++ s.saved.blocks →
      (c.name = none ∨ c.name = some .hostnamebuf) →
      ∀ p ∈ [c.name, c.mi, c.mo], p.isSome → (s.mem.deref p).isSome := by
    intro c hsub hc p hp hsome
    obtain ⟨q, rfl⟩ := isSome_iff_exists.1 hsome
    simp only [mem_cons, not_mem_nil, or_false] at hp
    rcases hp with hq | hq | hq
    · exact hname _ (hq ▸ hc) rfl
    · refine h.held.isSome (hsub (mem_append_left _ ?_))
      rw [← hq]
      exact mem_singleton_self q
    · refine h.held.isSome (hsub (mem_append_right _ ?_))
      rw [← hq]
      exact mem_singleton_self q
  have hcur := hblock s.cur (subset_append_left _ _) h.name
  have hsaved := hblock s.saved (subset_append_right _ _) h.savedName
  have hspare := hblock s.spare (h.spareBlocks ▸ nil_subset _) (.inl h.spareName)
  refine ⟨h.valid, fun c hc => ?_⟩
  unfold Client.saved Client.spare at *
  simp only [mem_cons, not_mem_nil, or_false] at hc
  rcases hp :
    s.proxy with - | - <;> rw [hp] at hsaved hspare <;>
    rcases hc with rfl | rfl | rfl <;> assumption

/-! ### The view of a step -/

/-- The condition: while a host name is put away `hookup` finds the same name, and while a
connection is put away the names of the types and the lengths of the addresses are the same. -/
def Keeps (s : Client) (e : Event) : Prop :=
  match e with
  | .setpeer h => s.cur.plain.connect = false →
    (∀ name ∈ h.canonname, s.saved.name.isSome → hostnamebuf name = s.mem.hostnamebuf) ∧
      (s.saved.plain.connect →
        (∀ a ∈ h.peer, h.canonname.isSome → a.length = s.ctladdrlen) ∧
        (h.Stands → s.typename = some .ascii))
  | .settype p => s.saved.plain.connect → s.typename = some p
  | .unixType => s.saved.plain.connect → s.typename = some .binary
  | _ => True

theorem side_eq_iff (s s' : Client) (c : Comvars) :
    s'.side c = s.side c ↔
      s'.mem.deref c.name = s.mem.deref c.name ∧ s'.mem.deref c.mi = s.mem.deref c.mi ∧
        s'.mem.deref c.mo = s.mem.deref c.mo ∧
        (c.plain.connect → s'.typename = s.typename ∧ s'.ctladdrlen = s.ctladdrlen) := by
  unfold Client.side
  rw [Side.mk.injEq]
  simp only [true_and]
  refine and_congr_right fun _ => and_congr_right fun _ => and_congr_right fun _ => ?_
  by_cases hc : c.plain.connect
  · rw [if_pos hc, if_pos hc, some_inj, Prod.mk.injEq]
    exact ⟨fun h _ => h, fun h => h hc⟩
  · rw [if_neg hc, if_neg hc]
    exact iff_of_true rfl fun hc' => absurd hc' hc

theorem view_iff_of_away (ha : Away s s') {a : Side} (hactive : s'.side s'.cur = a) :
    s'.view = { s.view with active := a } ↔ s'.side s.saved = s.side s.saved := by
  unfold Client.view
  rw [ha.saved, ha.proxy, hactive, Sides.mk.injEq]
  simp only [true_and, and_true]

theorem Held.deref_congr {m' : Mem} (h : Held m l) (hheap : m'.heap = m.heap) (hp : p.toList ⊆ l) :
    m'.deref p = m.deref p := by
  rcases p with - | q
  · rfl
  · obtain ⟨a, rfl, -⟩ := h.block q (hp (mem_singleton_self q))
    show m'.heap.get a = m.heap.get a
    rw [hheap]

theorem Shape.subset (_ : Shape s) :
    s.cur.mi.toList ⊆ s.cur.blocks ++ s.saved.blocks ∧
    s.cur.mo.toList ⊆ s.cur.blocks ++ s.saved.blocks ∧
      s.saved.mi.toList ⊆ s.cur.blocks ++ s.saved.blocks ∧
      s.saved.mo.toList ⊆ s.cur.blocks ++ s.saved.blocks :=
  ⟨fun _ h => mem_append_left _ (mem_append_left _ h),
    fun _ h => mem_append_left _ (mem_append_right _ h),
    fun _ h => mem_append_right _ (mem_append_left _ h),
    fun _ h => mem_append_right _ (mem_append_right _ h)⟩

theorem connect_hookup (v : Plain) (h : Hookup) : (v.hookup h).connect = v.connect := by
  unfold Plain.hookup
  split <;> rfl

theorem hostname_hookup (s : Client) (h : Hookup) :
    (hookup h s).mem.deref (hookup h s).cur.name =
    (h.canonname.map hostnamebuf).or (s.mem.deref s.cur.name) := by
  unfold hookup
  rcases h.canonname with - | name
  · rcases s.cur.name with - | - | a <;> rfl
  · rfl

theorem deref_hookup (hs : Shape s) (h : Hookup) (hp : p.toList ⊆ s.cur.blocks ++ s.saved.blocks) :
    (hookup h s).mem.deref p = s.mem.deref p := by
  have hheap : (hookup h s).mem.heap = s.mem.heap := rfl
  exact hs.held.deref_congr hheap hp

theorem side_hookup (hs : Shape s) (h : Hookup) (hc : s.cur.plain.connect = false) :
    (hookup h s).side (hookup h s).cur = (s.side s.cur).hookup h := by
  unfold Client.side Side.hookup
  rw [Side.mk.injEq]
  refine ⟨rfl, hostname_hookup s h, rfl, rfl, deref_hookup hs h hs.subset.1,
    deref_hookup hs h hs.subset.2.1, ?_⟩
  have hplain : (hookup h s).cur.plain.connect = false := (connect_hookup s.cur.plain h).trans hc
  rw [hplain, hc, if_neg Bool.false_ne_true]
  rfl

theorem Hookup.Stands.length {h : Hookup} (hs : h.Stands) (n : ℕ) :
    (if h.canonname.isSome then (h.peer.map List.length).getD n else n) =
    (h.peer.map List.length).getD 0 := by
  rw [if_pos hs.1]
  obtain ⟨a, ha⟩ := isSome_iff_exists.1 hs.2.1
  rw [ha]
  rfl

theorem side_setpeer (hs : Shape s) (h : Hookup) :
    (setpeer h s).side (setpeer h s).cur = (s.side s.cur).setpeer h := by
  unfold setpeer Side.setpeer
  by_cases hc : s.cur.plain.connect
  · rw [if_pos hc, if_pos (show (s.side s.cur).plain.connect = true from hc)]
  have hfalse : s.cur.plain.connect = false := Bool.eq_false_iff.2 hc
  rw [if_neg hc, if_neg (show ¬ (s.side s.cur).plain.connect = true from hc)]
  have hside := side_hookup hs h hfalse
  by_cases hst : h.Stands
  · rw [if_pos hst, if_pos hst, ← hside]
    have hlen := hst.length s.ctladdrlen
    rw [Side.mk.injEq]
    refine ⟨rfl, rfl, rfl, rfl, rfl, rfl, ?_⟩
    rw [← hlen]
    rfl
  · rw [if_neg hst, if_neg hst]
    exact hside

theorem side_setntrans (hs : Shape s) (argv : List Text) :
    s.side (s.cur.setntrans argv) = (s.side s.cur).setntrans argv := by
  have hnt : ∀ {l : Text} (a : Text), Terminated l → str 0 (setTable l a) = (str 0 a).take 16 := by
    intro l a hl
    rw [setTable_eq hl, str_strncpy_of hl]
  rcases argv with - | ⟨a, - | ⟨b, argv⟩⟩
  · rfl
  · have hne : s.cur.nto ≠ [] := by
      intro h0
      have := hs.cur.nto.length
      rw [h0] at this
      exact absurd this (by decide)
    rw [Side.mk.injEq]
    exact ⟨rfl, rfl, hnt a hs.cur.nti, str_set_zero hne, rfl, rfl, rfl⟩
  · unfold Client.side Side.setntrans
    rw [Side.mk.injEq]
    exact ⟨rfl, rfl, hnt a hs.cur.nti, hnt b hs.cur.nto, rfl, rfl, rfl⟩

theorem side_disconnect (s : Client) :
    s.side (s.cur.set Plain.disconnect) = (s.side s.cur).step .disconnect := by
  rw [Side.mk.injEq]
  refine ⟨rfl, rfl, rfl, rfl, rfl, rfl, if_neg ?_⟩
  show ¬ (s.cur.plain.disconnect).connect = true
  unfold Plain.disconnect
  by_cases hc : s.cur.plain.connect
  · rw [if_pos hc]
    exact Bool.false_ne_true
  · rw [if_neg hc]
    exact hc

theorem side_named (s : Client) (p : TypeName) (f : Plain → Plain)
    (hf : (f s.cur.plain).connect = s.cur.plain.connect) :
    Client.side { s with cur := s.cur.set f, typename := some p } (s.cur.set f) =
      { (s.side s.cur).named p with plain := f s.cur.plain } := by
  rw [Side.mk.injEq]
  refine ⟨rfl, rfl, rfl, rfl, rfl, rfl, ?_⟩
  show (if (f s.cur.plain).connect = true then _ else _) = _
  rw [hf]
  by_cases hc : s.cur.plain.connect
  · rw [if_pos hc]
    show _ = Option.map _ (if s.cur.plain.connect = true then _ else _)
    rw [if_pos hc]
    rfl
  · rw [if_neg hc]
    show _ = Option.map _ (if s.cur.plain.connect = true then _ else _)
    rw [if_neg hc]
    rfl

theorem side_setnmap (hs : Shape s) (a : Maps) :
    (setnmap (some a) s).side (setnmap (some a) s).cur =
    (s.side s.cur).step (.setnmap (some a)) := by
  obtain ⟨-, hin, hout, -, hbuf⟩ := setnmap_some hs a
  have hname : (setnmap (some a) s).mem.deref s.cur.name = s.mem.deref s.cur.name := by
    rcases hs.name with hn | hn
    · rw [hn]
      rfl
    · rw [hn]
      exact congrArg some hbuf
  rw [Side.mk.injEq]
  exact ⟨rfl, hname, rfl, rfl, hin, hout, rfl⟩

theorem view_pswitch (hs : Shape s) (flag : Bool) :
    (pswitch flag s).view = s.view.step (.pswitch flag) := by
  by_cases hf : flag = s.proxy
  · unfold pswitch Sides.step
    rw [if_pos hf]
    exact (if_pos hf).symm
  · obtain ⟨hcur, hsaved, -, hproxy, hmem, htype, hlen⟩ := pswitch_of_ne hs hf
    have hstep : s.view.step (.pswitch flag) = ⟨s.side s.saved, s.side s.cur, flag⟩ := if_neg hf
    rw [hstep]
    unfold Client.view Client.side
    rw [hcur, hsaved, hproxy, hmem, htype, hlen]
    have hnt :
        ∀ {l c : Text}, Terminated l → Terminated c → str 0 (strncpy 0 l c 16) = str 0 c := by
      intro l c hl hc
      rw [str_strncpy_of hl, take_of_length_le hc.length_str_le]
    have htake : ∀ l c : Text, str 0 (strcpy 0 l c) = str 0 c := fun l c => str_strcpy l c
    rw [Sides.mk.injEq, Side.mk.injEq, Side.mk.injEq]
    refine ⟨⟨rfl, rfl, htake _ _, htake _ _, rfl, rfl, rfl⟩, ⟨rfl, rfl, ?_, ?_, rfl, rfl, rfl⟩, rfl⟩
    · exact hnt hs.spare.nti hs.cur.nti
    · exact hnt hs.spare.nto hs.cur.nto

theorem saved_hostname_iff (hs : Shape s) (h : Hookup) :
    (hookup h s).mem.deref s.saved.name = s.mem.deref s.saved.name ↔
      ∀ name ∈ h.canonname, s.saved.name.isSome → hostnamebuf name = s.mem.hostnamebuf := by
  rcases hs.savedName with hn | hn
  · rw [hn]
    exact iff_of_true rfl fun name _ hsome => absurd hsome Bool.false_ne_true
  · rw [hn]
    show some ((h.canonname.map hostnamebuf).getD s.mem.hostnamebuf) = some s.mem.hostnamebuf ↔ _
    rw [some_inj]
    rcases h.canonname with - | name
    · exact iff_of_true rfl fun name hname => absurd hname (not_mem_none name)
    · constructor
      · intro hbuf n hn _
        obtain rfl : name = n := some.inj hn
        exact hbuf
      · intro hall
        exact hall name rfl rfl

theorem ctladdrlen_hookup_iff (s : Client) (h : Hookup) :
    (hookup h s).ctladdrlen = s.ctladdrlen ↔
    ∀ a ∈ h.peer, h.canonname.isSome → a.length = s.ctladdrlen := by
  unfold hookup
  dsimp only
  by_cases hc : h.canonname.isSome
  · rw [if_pos hc]
    rcases h.peer with - | a
    · exact iff_of_true rfl fun a ha => absurd ha (not_mem_none a)
    · constructor
      · intro hlen b hb _
        obtain rfl : a = b := some.inj hb
        exact hlen
      · intro hall
        exact hall a rfl hc
  · rw [if_neg hc]
    exact iff_of_true rfl fun a _ hc' => absurd hc' hc

theorem saved_setpeer_iff (hs : Shape s) (h : Hookup) :
    (setpeer h s).side s.saved = s.side s.saved ↔ Keeps s (.setpeer h) := by
  unfold Keeps setpeer
  dsimp only
  by_cases hc : s.cur.plain.connect
  · rw [if_pos hc]
    exact iff_of_true rfl fun hc' => absurd hc (Bool.eq_false_iff.1 hc')
  · rw [if_neg hc]
    have hmi : (hookup h s).mem.deref s.saved.mi = s.mem.deref s.saved.mi :=
      deref_hookup hs h hs.subset.2.2.1
    have hmo : (hookup h s).mem.deref s.saved.mo = s.mem.deref s.saved.mo :=
      deref_hookup hs h hs.subset.2.2.2
    have hname := saved_hostname_iff hs h
    have hlen := ctladdrlen_hookup_iff s h
    rw [← hname, ← hlen]
    by_cases hst : h.Stands
    · rw [if_pos hst, side_eq_iff]
      constructor
      · rintro ⟨hn, -, -, hshown⟩ -
        exact ⟨hn, fun hsaved => ⟨(hshown hsaved).2, fun _ => (hshown hsaved).1.symm⟩⟩
      · intro hall
        obtain ⟨hn, hshown⟩ := hall (Bool.eq_false_iff.2 hc)
        exact ⟨hn, hmi, hmo, fun hsaved => ⟨((hshown hsaved).2 hst).symm, (hshown hsaved).1⟩⟩
    · rw [if_neg hst, side_eq_iff]
      constructor
      · rintro ⟨hn, -, -, hshown⟩ -
        exact ⟨hn, fun hsaved => ⟨(hshown hsaved).2, fun hst' => absurd hst' hst⟩⟩
      · intro hall
        obtain ⟨hn, hshown⟩ := hall (Bool.eq_false_iff.2 hc)
        exact ⟨hn, hmi, hmo, fun hsaved => ⟨rfl, (hshown hsaved).1⟩⟩

theorem saved_named_iff (s : Client) (p : TypeName) (c : Comvars) :
    Client.side { s with cur := c, typename := some p } s.saved = s.side s.saved ↔
      (s.saved.plain.connect → s.typename = some p) := by
  rw [side_eq_iff]
  constructor
  · rintro ⟨-, -, -, h⟩ hc
    exact (h hc).1.symm
  · intro h
    exact ⟨rfl, rfl, rfl, fun hc => ⟨(h hc).symm, rfl⟩⟩

theorem saved_setnmap (hs : Shape s) (a : Maps) :
    (setnmap (some a) s).side s.saved = s.side s.saved := by
  obtain ⟨-, -, -, hderef, hbuf⟩ := setnmap_some hs a
  refine (side_eq_iff s _ s.saved).2 ⟨?_, ?_, ?_, fun _ => ⟨rfl, rfl⟩⟩
  · rcases hs.savedName with hn | hn
    · rw [hn]
      rfl
    · rw [hn]
      exact congrArg some hbuf
  · rcases hmi : s.saved.mi with - | q
    · rfl
    · refine hderef q (mem_append_left _ ?_)
      rw [hmi]
      exact mem_singleton_self q
  · rcases hmo : s.saved.mo with - | q
    · rfl
    · refine hderef q (mem_append_right _ ?_)
      rw [hmo]
      exact mem_singleton_self q

/-- **A step is that of the side in use**, just when the condition holds. -/
theorem view_step_iff (hs : Shape s) (e : Event) : (step s e).view = s.view.step e ↔ Keeps s e := by
  rcases e with flag | h | - | - | p | - | - | - | argv | maps | ⟨t, p⟩
  · exact iff_of_true (view_pswitch hs flag) trivial
  · have haway : Away s (setpeer h s) := by
      unfold setpeer
      split
      · exact ⟨rfl, rfl, rfl⟩
      split <;> exact ⟨rfl, rfl, rfl⟩
    exact (view_iff_of_away haway (side_setpeer hs h)).trans (saved_setpeer_iff hs h)
  · have haway : Away s (unixType s) := ⟨rfl, rfl, rfl⟩
    have hside : (unixType s).side (unixType s).cur = (s.side s.cur).step .unixType :=
      side_named s .binary _ rfl
    exact (view_iff_of_away haway hside).trans (saved_named_iff s .binary _)
  · exact (view_iff_of_away ⟨rfl, rfl, rfl⟩ (side_disconnect s)).trans (iff_of_true rfl trivial)
  · have haway : Away s (settype p s) := ⟨rfl, rfl, rfl⟩
    have hside : (settype p s).side (settype p s).cur = (s.side s.cur).step (.settype p) :=
      side_named s p _ rfl
    exact (view_iff_of_away haway hside).trans (saved_named_iff s p _)
  · exact iff_of_true rfl trivial
  · exact iff_of_true rfl trivial
  · exact iff_of_true rfl trivial
  · exact (view_iff_of_away ⟨rfl, rfl, rfl⟩ (side_setntrans hs argv)).trans
      (iff_of_true rfl trivial)
  · rcases maps with - | a
    · exact iff_of_true rfl trivial
    · have haway : Away s (setnmap (some a) s) := ⟨rfl, rfl, rfl⟩
      exact (view_iff_of_away haway (side_setnmap hs a)).trans
        (iff_of_true (saved_setnmap hs a) trivial)
  · exact iff_of_true rfl trivial

/-! ### Every run -/

/-- **The connections are isolated** in every state of a run, and no string that is referred to is
freed, just when each event meets the condition. -/
theorem isolated_iff (l : List Event) :
    (∀ l', l' <+: l → (run step .init l').view = run Sides.step .init l' ∧
      (run step .init l').Sound) ↔
      Allowed step Keeps .init l := by
  have hstep : ∀ (s : Client) (e : Event), Shape s → Shape (step s e) :=
    fun s e hs => shape_step hs e
  have hsound : ∀ l', (run step .init l').Sound := fun l' => (run_keeps hstep l' shape_init).sound
  have hview : (∀ l', l' <+: l → (run step .init l').view = run Sides.step Client.init.view l') ↔
      Allowed step Keeps .init l :=
    view_iff_allowed (fun s e hs => view_step_iff hs e) hstep shape_init
  refine Iff.trans ⟨fun h l' hl' => (h l' hl').1, fun h l' hl' => ⟨h l' hl', hsound l'⟩⟩ hview

/-- The host name of the first connection after a second one was opened. -/
theorem hostname_of_other :
    ¬ ∀ l l' : List Event, l' <+: l →
      (run step .init l').view = run Sides.step .init l' ∧ (run step .init l').Sound := by
  intro h
  have hview := (h _ [.setpeer ⟨some [97], some [], some [], some 0, some 1, true⟩, .pswitch true,
    .setpeer ⟨some [98], some [], some [], some 2, some 3, true⟩, .pswitch false] prefix_rfl).1
  have hname := congrArg (fun t => t.active.hostname) hview
  exact absurd hname (by decide)

end Inetutils.Ftp.Pswitch
