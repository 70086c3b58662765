import Inetutils.Lib.Strings
import Inetutils.Talkd.Table

/-! # The requests of talkd

`talkd/process.c`: what the daemon answers to a request, from the table of invitations. The response
is a structure on the stack of `talkd_run`; a field is `none` until it is set. `reads` lists the
fields of requests that were given to a function that reads a string, with their sizes.

What a request meets beside the table comes with it: whether `acl_match` drops it, the users that
are logged in, whether the host has a name, the result of `announce`, the place that `malloc` would
give, and the readings of the clock. -/

namespace Inetutils.Talkd.Process

open Lib.Linked Lib.Runs Lib.Strings Table List

abbrev talkVersion : UInt8 := 1

abbrev afInet : ℕ := 2

abbrev Read := ℕ × Field

abbrev nameField (f : Field) : Read := (12, f)

abbrev ttyField (f : Field) : Read := (16, f)

/-- `stat` gives whether others may write to the terminal, and when it was used. -/
structure Utmp where
  user : Field
  line : Field
  stat : Option (Bool × ℤ)

structure Request where
  msg : CtlMsg
  dropped : Bool
  utmp : List Utmp
  hostKnown : Bool
  announced : Answer
  ptr : ℕ
  now : ℤ
  later : ℤ

/-- `CTL_RESPONSE` -/
structure Response where
  vers : Option UInt8
  type : Option MsgType
  answer : Option Answer
  idNum : Option ℕ
  addr : Option Osockaddr
  deriving DecidableEq

/-- `strcmp` gives 0. -/
def same (a b : Field) : Bool := str 0 a == str 0 b

def sameUser (user name : Field) : Bool := (str 0 user).take 32 == (str 0 name).take 32

/-! ### `find_user` -/

structure Found where
  status : Answer
  tty : Field
  lastTime : ℤ
  reads : List Read

def Found.reading (f : Found) (l : List Read) : Found := { f with reads := f.reads ++ l }

/-- A terminal that `stat` finds. -/
def Found.terminal (f : Found) (line : Field) (writable : Bool) (atime : ℤ) : Found :=
  if !writable then { f with status := if f.status ≠ .success then .permissionDenied else f.status }
  else if atime > f.lastTime then
    { f with lastTime := atime, tty := strcpy 0 f.tty line, status := .success }
  else f

def findUserLoop (name : Field) (notty : Bool) : List Utmp → Found → Found
  | [], f => f
  | u :: us, f =>
    if sameUser u.user name then
      match notty, u.stat with
      | true, some (writable, atime) =>
        findUserLoop name notty us ((f.reading [nameField name]).terminal u.line writable atime)
      | _, _ =>
        if same u.line f.tty then
          { f.reading [nameField name, ttyField f.tty] with status := .success }
        else findUserLoop name notty us (f.reading [nameField name, ttyField f.tty])
    else findUserLoop name notty us (f.reading [nameField name])

def findUser (name tty : Field) (utmp : List Utmp) : Found :=
  findUserLoop name (tty.head? == some 0) utmp ⟨.notHere, tty, 0, []⟩

/-! ### `process_request` -/

structure Done where
  response : Option Response
  table : State
  reads : List Read

def answered (msg : CtlMsg) : Response := ⟨some talkVersion, some msg.type, none, some 0, none⟩

def invalid (msg : CtlMsg) : Option Answer :=
  if msg.vers ≠ talkVersion then some .badversion
  else if msg.addr.saFamily ≠ afInet then some .badaddr
  else if msg.ctlAddr.saFamily ≠ afInet then some .badctladdr
  else none

/-- In `acl_match`. -/
def aclReads (msg : CtlMsg) : List Read := [nameField msg.rName, nameField msg.lName]

/-- In `announce`. -/
def announceReads (msg : CtlMsg) : List Read := [ttyField msg.rTty, nameField msg.lName]

def fuzzyReads (request : CtlMsg) (e : Entry) : List Read :=
  if e.request.type = .leaveInvite then
    if same request.lName e.request.rName then
      [nameField request.lName, nameField e.request.rName, nameField request.rName,
        nameField e.request.lName]
    else [nameField request.lName, nameField e.request.rName]
  else []

def exactReads (request : CtlMsg) (e : Entry) : List Read :=
  if request.type = e.request.type ∧ request.pid = e.request.pid then
    if same request.rName e.request.rName then
      [nameField request.rName, nameField e.request.rName, nameField request.lName,
        nameField e.request.lName]
    else [nameField request.rName, nameField e.request.rName]
  else []

def compared (ttl : ℤ) (comp : Entry → Option Entry) (now : ℤ) (h : Heap Entry) :
    ℕ → Option ℕ → List Entry
  | n + 1, some ptr =>
    match h ptr with
    | some c =>
      if c.entry.time - now > ttl then []
      else c.entry :: if (comp c.entry).isSome then [] else compared ttl comp now h n c.next
    | none => []
  | _, _ => []

section
variable (ttl : ℤ)

def requestReads (msg : CtlMsg) (now : ℤ) (s : State) : List Read :=
  (compared ttl (exactComp same msg now) now s.heap s.cells s.table).flatMap (exactReads msg)

def matchReads (msg : CtlMsg) (now : ℤ) (s : State) : List Read :=
  (compared ttl (fuzzyComp same msg) now s.heap s.cells s.table).flatMap (fuzzyReads msg)

def idAt (ptr : ℕ) (s : State) : Option ℕ := (requestAt (some ptr) s).map CtlMsg.idNum

def addrAt (ptr : ℕ) (s : State) : Option Osockaddr := (requestAt (some ptr) s).map CtlMsg.addr

def setId (idNum : ℕ) (c : Cell Entry) : Cell Entry :=
  { c with entry := { c.entry with request := { c.entry.request with idNum := idNum } } }

/-- `ptr->id_num = new_id ()` -/
def renumber (ptr : ℕ) (s : State) : State :=
  setCell ptr (setId (newId s.currentId)) { s with currentId := newId s.currentId }

def leaveInvite (q : Request) (rp : Response) (s : State) : Done :=
  match findRequest ttl same q.msg q.now s with
  | (some ptr, s') =>
    ⟨some { rp with idNum := idAt ptr s', answer := some .success }, s',
      requestReads ttl q.msg q.now s⟩
  | (none, s') =>
    ⟨some { rp with idNum := some (insertTable q.ptr q.msg q.later s').1 },
      (insertTable q.ptr q.msg q.later s').2, requestReads ttl q.msg q.now s⟩

def lookUp (q : Request) (rp : Response) (s : State) : Done :=
  match findMatch ttl same q.msg q.now s with
  | (some ptr, s') =>
    ⟨some { rp with idNum := idAt ptr s', addr := addrAt ptr s', answer := some .success }, s',
      matchReads ttl q.msg q.now s⟩
  | (none, s') => ⟨some { rp with answer := some .notHere }, s', matchReads ttl q.msg q.now s⟩

def deleteRequest (q : Request) (rp : Response) (s : State) : Done :=
  ⟨some { rp with answer := some (deleteInvite q.msg.idNum s).1 },
    (deleteInvite q.msg.idNum s).2, []⟩

/-- `do_announce`, from the search on. -/
def announceOnce (q : Request) (mp : CtlMsg) (rp : Response) (s : State) : Done :=
  match findRequest ttl same mp q.now s with
  | (some ptr, s') =>
    if (idAt ptr s').any (· < mp.idNum) then
      ⟨some { rp with idNum := idAt ptr (renumber ptr s'), answer := some q.announced },
        renumber ptr s', requestReads ttl mp q.now s ++ announceReads mp⟩
    else ⟨some { rp with idNum := idAt ptr s', answer := some .success }, s',
      requestReads ttl mp q.now s⟩
  | (none, s') =>
    ⟨some { rp with idNum := some (insertTable q.ptr mp q.later s').1, answer := some q.announced },
      (insertTable q.ptr mp q.later s').2, requestReads ttl mp q.now s ++ announceReads mp⟩

def Request.user (q : Request) : Found := findUser q.msg.rName q.msg.rTty q.utmp

def Request.toUser (q : Request) : CtlMsg := { q.msg with rTty := q.user.tty }

def Done.reading (l : List Read) (d : Done) : Done := { d with reads := l ++ d.reads }

def doAnnounce (q : Request) (rp : Response) (s : State) : Done :=
  if q.user.status ≠ .success then ⟨some { rp with answer := some q.user.status }, s, q.user.reads⟩
  else if !q.hostKnown then ⟨some { rp with answer := some .machineUnknown }, s, q.user.reads⟩
  else (announceOnce ttl q q.toUser rp s).reading q.user.reads

def dispatch (q : Request) (rp : Response) (s : State) : Done :=
  match q.msg.type with
  | .announce => doAnnounce ttl q rp s
  | .leaveInvite => leaveInvite ttl q rp s
  | .lookUp => lookUp ttl q rp s
  | .delete => deleteRequest q rp s
  | .other _ => ⟨some { rp with answer := some .unknownRequest }, s, []⟩

def processRequest (q : Request) (s : State) : Done :=
  if q.dropped then ⟨none, s, aclReads q.msg⟩
  else
    match invalid q.msg with
    | some a => ⟨some { answered q.msg with answer := some a }, s, aclReads q.msg⟩
    | none => (dispatch ttl q (answered q.msg) s).reading (aclReads q.msg)

/-- `talkd_run` -/
structure Daemon where
  table : State
  log : List (Request × Option Response)
  reads : List Read

def step (d : Daemon) (q : Request) : Daemon :=
  ⟨(processRequest ttl q d.table).table, d.log ++ [(q, (processRequest ttl q d.table).response)],
    d.reads ++ (processRequest ttl q d.table).reads⟩

end

def begin : Daemon := ⟨start, [], []⟩

/-! ### What is due -/

def freshly (ttl now : ℤ) (comp : Entry → Option Entry) (e : Entry) : Option Entry :=
  if fresh ttl now e then comp e else none

def numbered (idNum : ℕ) (e : Entry) : Entry :=
  { e with request := { e.request with idNum := idNum } }

section
variable (ttl : ℤ)

def Invitations.add (mp : CtlMsg) (later : ℤ) (v : Invitations) : Invitations :=
  ⟨⟨{ mp with idNum := newId v.currentId }, later⟩ :: v.live, newId v.currentId⟩

/-- An invitation is accepted, and one that is there is refreshed. -/
def dueInvite (q : Request) (rp : Response) (v : Invitations) : Response × Invitations :=
  match v.live.findSome? (freshly ttl q.now (exactComp same q.msg q.now)) with
  | some e =>
    ({ rp with idNum := some e.request.idNum, answer := some .success },
      { v with live := touch (freshly ttl q.now (exactComp same q.msg q.now)) v.live })
  | none =>
    ({ rp with idNum := some (newId v.currentId), answer := some .success },
      Invitations.add q.msg q.later v)

def dueLookUp (q : Request) (rp : Response) (v : Invitations) : Response × Invitations :=
  match v.live.findSome? (freshly ttl q.now (fuzzyComp same q.msg)) with
  | some e =>
    ({ rp with
      idNum := some e.request.idNum, addr := some e.request.addr, answer := some .success }, v)
  | none => ({ rp with answer := some .notHere }, v)

def dueDelete (q : Request) (rp : Response) (v : Invitations) : Response × Invitations :=
  ({ rp with answer := some (if v.live.any (·.request.idNum == q.msg.idNum) then .success
    else .notHere) },
    { v with live := v.live.filter (·.request.idNum != q.msg.idNum) })

/-- A user is told once, and again when the request asks for it by a higher number. -/
def dueOnce (q : Request) (mp : CtlMsg) (rp : Response) (v : Invitations) :
    Response × Invitations :=
  match v.live.findSome? (freshly ttl q.now (exactComp same mp q.now)) with
  | some e =>
    if e.request.idNum < mp.idNum then
      ({ rp with idNum := some (newId v.currentId), answer := some q.announced },
        ⟨touch
          (fun x => (freshly ttl q.now (exactComp same mp q.now) x).map
            (numbered (newId v.currentId))) v.live,
          newId v.currentId⟩)
    else
      ({ rp with idNum := some e.request.idNum, answer := some .success },
        { v with live := touch (freshly ttl q.now (exactComp same mp q.now)) v.live })
  | none =>
    ({ rp with idNum := some (newId v.currentId), answer := some q.announced },
      Invitations.add mp q.later v)

def dueAnnounce (q : Request) (rp : Response) (v : Invitations) : Response × Invitations :=
  if q.user.status ≠ .success then ({ rp with answer := some q.user.status }, v)
  else if !q.hostKnown then ({ rp with answer := some .machineUnknown }, v)
  else dueOnce ttl q q.toUser rp v

def dueByType (q : Request) (rp : Response) (v : Invitations) : Response × Invitations :=
  match q.msg.type with
  | .announce => dueAnnounce ttl q rp v
  | .leaveInvite => dueInvite ttl q rp v
  | .lookUp => dueLookUp ttl q rp v
  | .delete => dueDelete q rp v
  | .other _ => ({ rp with answer := some .unknownRequest }, v)

/-- The response that is due to a request, and the invitations after it. -/
def due (v : Invitations) (q : Request) : Option Response × Invitations :=
  if q.dropped then (none, v)
  else
    match invalid q.msg with
    | some a => (some { answered q.msg with answer := some a }, v)
    | none => (some (dueByType ttl q (answered q.msg) v).1, (dueByType ttl q (answered q.msg) v).2)

/-! ### Orderly requests -/

/-- What a search meets is not ahead of the clock by too much, and what it finds is not too old. -/
def InTime (comp : Entry → Option Entry) (now : ℤ) (es : List Entry) : Prop :=
  ∀ e ∈ met comp es, e.time - now ≤ ttl ∧ ((comp e).isSome → now - e.time ≤ ttl)

def Ends (r : Read) : Prop := 0 ∈ r.2.take r.1

/-- The names end in their fields; so does the terminal, where it is used, and those of the users
would. -/
def Ended (q : Request) : Prop :=
  Ends (nameField q.msg.lName) ∧ Ends (nameField q.msg.rName) ∧
    (q.msg.type = .announce → Ends (ttyField q.msg.rTty) ∧ ∀ u ∈ q.utmp, (str 0 u.line).length < 16)

/-- The table as the request needs it: a search is in time, and what is deleted is the newest. -/
def Suits (q : Request) (es : List Entry) : Prop :=
  match q.msg.type with
  | .leaveInvite => InTime ttl (exactComp same q.msg q.now) q.now es
  | .announce =>
    q.user.status = .success → q.hostKnown = true →
      InTime ttl (exactComp same q.toUser q.now) q.now es
  | .lookUp => InTime ttl (fuzzyComp same q.msg) q.now es
  | .delete => ∀ e ∈ es.tail, e.request.idNum ≠ q.msg.idNum
  | .other _ => True

/-- A request that `process_request` serves. -/
def Served (q : Request) : Prop := q.dropped = false ∧ invalid q.msg = none

def Orderly (v : Invitations) (q : Request) : Prop := Ended q ∧ (Served q → Suits ttl q v.live)

def NewInvite (v : Invitations) (q : Request) : Prop :=
  Served q ∧ q.msg.type = .leaveInvite ∧
    v.live.findSome? (freshly ttl q.now (exactComp same q.msg q.now)) = none

end

def key (m : CtlMsg) : MsgType × ℤ × Field × Field := (m.type, m.pid, str 0 m.rName, str 0 m.lName)

/-- Nothing that the protocol defines for the request is missing. -/
def Complete (rp : Response) : Prop :=
  rp.vers.isSome ∧ rp.type.isSome ∧ rp.answer.isSome ∧ rp.idNum.isSome ∧
    (rp.type = some .lookUp → rp.answer = some .success → rp.addr.isSome)

/-- The response is the one that is due, but for the answer to an invitation. -/
def Agree (p : Request × Option Response) (r : Option Response) : Prop :=
  p.2 = r ∨ p.1.msg.type = .leaveInvite ∧ p.2 = r.map fun rp => { rp with answer := none }

/-- A daemon that answers as is due: complete, from a table without double entries, and from fields
that end. -/
structure Kept (d : Daemon) (v : Invitations × List (Option Response)) : Prop where
  responses : List.Forall₂ Agree d.log v.2
  complete : ∀ r ∈ v.2, ∀ rp, r = some rp → Complete rp
  table : ∃ ns, Held d.table ns ∧ entries ns = v.1.live
  once : (v.1.live.map fun e => key e.request).Nodup
  reads : ∀ r ∈ d.reads, Ends r

/-! ### Fields that end -/

section
variable {ttl now : ℤ} {comp : Entry → Option Entry}

def Found.Sound (f : Found) : Prop := Ends (ttyField f.tty) ∧ ∀ r ∈ f.reads, Ends r

theorem Found.Sound.reading {f : Found} (h : f.Sound) {l : List Read} (hl : ∀ r ∈ l, Ends r) :
    (f.reading l).Sound :=
  ⟨h.1, fun r hr => (mem_append.1 hr).elim (h.2 r) (hl r)⟩

theorem ends_strcpy {dst line : Field} (h : (str 0 line).length < 16) :
    Ends (ttyField (strcpy 0 dst line)) := by
  have hlt : (str 0 line).length < ((strcpy 0 dst line).take 16).length := by
    simp [strcpy]
    omega
  have hget : ((strcpy 0 dst line).take 16)[(str 0 line).length] = 0 := by
    simp [strcpy]
  have hmem := getElem_mem hlt
  rw [hget] at hmem
  exact hmem

theorem Found.Sound.terminal {f : Found} (h : f.Sound) {line : Field}
    (hline : (str 0 line).length < 16) (writable : Bool)
    (atime : ℤ) : (f.terminal line writable atime).Sound := by
  unfold Found.terminal
  split_ifs
  · exact h
  · exact h
  · exact ⟨ends_strcpy hline, h.2⟩
  · exact h

theorem sound_findUserLoop {name : Field} (hname : Ends (nameField name)) (notty : Bool) :
    ∀ {us : List Utmp} {f : Found}, (∀ u ∈ us, (str 0 u.line).length < 16) → f.Sound →
      (findUserLoop name notty us f).Sound := by
  intro us
  induction us with
  | nil => exact fun _ hf => hf
  | cons u us ih =>
    intro f hus hf
    obtain ⟨hu, hus⟩ := forall_mem_cons.1 hus
    have hone : (f.reading [nameField name]).Sound := hf.reading (by simpa using hname)
    have htwo : (f.reading [nameField name, ttyField f.tty]).Sound :=
      hf.reading (by simp [hname, hf.1])
    unfold findUserLoop
    by_cases hsame : sameUser u.user name = true
    · rw [if_pos hsame]
      split
      · exact ih hus (hone.terminal hu ..)
      · by_cases hline : same u.line f.tty = true
        · rw [if_pos hline]
          exact htwo
        · rw [if_neg hline]
          exact ih hus htwo
    · rw [if_neg hsame]
      exact ih hus hone

theorem sound_user {q : Request} (h : Ended q) (hq : q.msg.type = .announce) : q.user.Sound :=
  sound_findUserLoop h.2.1 _ (h.2.2 hq).2 ⟨(h.2.2 hq).1, nofun⟩

theorem mem_of_compared {h : Heap Entry} {e : Entry} :
    ∀ {n : ℕ} {p : Option ℕ} {ns : List (ℕ × Cell Entry)},
    Chain h p ns → e ∈ compared ttl comp now h n p → e ∈ entries ns := by
  intro n
  induction n with
  | zero => intro p ns _ he; simp [compared] at he
  | succ n ih =>
    intro p ns hc he
    rcases ns with - | ⟨⟨a, c⟩, ns⟩
    · rw [chain_nil.1 hc] at he
      simp [compared] at he
    · obtain ⟨rfl, hcell, hc⟩ := hc
      simp only [compared, hcell] at he
      split_ifs at he with hahead hcomp
      · cases he
      · simp_all
      · rcases mem_cons.1 he with rfl | he
        · exact mem_cons_self
        · exact mem_cons_of_mem _ (ih hc he)

def NamesEnd (m : CtlMsg) : Prop := Ends (nameField m.lName) ∧ Ends (nameField m.rName)

theorem ends_fuzzyReads {m : CtlMsg} {e : Entry} (hm : NamesEnd m) (he : NamesEnd e.request) :
    ∀ r ∈ fuzzyReads m e, Ends r := by
  unfold fuzzyReads
  split_ifs <;> simp [hm.1, hm.2, he.1, he.2]

theorem ends_exactReads {m : CtlMsg} {e : Entry} (hm : NamesEnd m) (he : NamesEnd e.request) :
    ∀ r ∈ exactReads m e, Ends r := by
  unfold exactReads
  split_ifs <;> simp [hm.1, hm.2, he.1, he.2]

/-! ### A search in time -/

theorem freshly_of_none {e : Entry} (h : comp e = none) :
    freshly ttl now comp e = none := by simp [freshly, h]

theorem findSome_append {f : Entry → Option Entry} {es fs : List Entry} {x e : Entry}
    (h : ∀ y ∈ es, f y = none) (hx : f x = some e) : (es ++ x :: fs).findSome? f = some e := by
  rw [findSome?_append, findSome?_eq_none_iff.2 h, findSome?_cons, hx]
  rfl

variable {ns : List (ℕ × Cell Entry)}

/-- **A search in time** finds what is due, in its place. -/
theorem search_spec {s : State} (h : Held s ns) (hin : InTime ttl comp now (entries ns)) :
    (lookupRequest ttl comp now s = (none, s) ∧
      (entries ns).findSome? (freshly ttl now comp) = none ∧ ∀ e ∈ entries ns, comp e = none) ∨
    ∃ l a c r e, ns = l ++ (a, c) :: r ∧ (∀ y ∈ entries l, freshly ttl now comp y = none) ∧
    comp c.entry = some e ∧ freshly ttl now comp c.entry = some e ∧
      lookupRequest ttl comp now s =
        (some a, { s with heap := Function.update s.heap a (some { c with entry := e }) }) := by
  rcases lookup_cases comp h fun e he =>
    (hin e he).1 with ⟨heq, hnone⟩ | ⟨l, a, c, r, e, rfl, hl, he, heq⟩
  · exact .inl ⟨heq, findSome?_eq_none_iff.2 fun e he => freshly_of_none (hnone e he), hnone⟩
  · have hmet : c.entry ∈ met comp (entries (l ++ (a, c) :: r)) := by
      rw [entries_append, entries_cons, met_append hl he]
      simp
    have hfresh : now - c.entry.time ≤ ttl := (hin _ hmet).2 (by simp [he])
    exact .inr ⟨l, a, c, r, e, rfl, fun y hy => freshly_of_none (hl y hy), he,
      by simp [freshly, fresh, hfresh, he], heq⟩

theorem delete_spec {s : State} (h : Held s ns) {idNum : ℕ}
    (htail : ∀ e ∈ (entries ns).tail, e.request.idNum ≠ idNum) :
    (deleteInvite idNum s).1 = (if (entries ns).any (·.request.idNum == idNum) then .success
      else .notHere) ∧ (deleteInvite idNum s).2.currentId = s.currentId ∧
      ∃ ms, Held (deleteInvite idNum s).2 ms ∧
      entries ms = (entries ns).filter (·.request.idNum != idNum) := by
  rcases delete_cases h idNum with ⟨heq, hne⟩ | ⟨l, a, c, r, rfl, hl, hc, heq, hheld⟩
  · have hkeep : (entries ns).filter (·.request.idNum != idNum) = entries ns :=
      filter_eq_self.2 fun e he => by simpa using hne e he
    have hany : (entries ns).any (·.request.idNum == idNum) = false :=
      any_eq_false.2 fun e he => by simpa using hne e he
    exact ⟨by simp [heq, hany], by rw [heq], ns, by rw [heq]; exact h, hkeep.symm⟩
  · obtain rfl : l = [] := by
      rcases l with - | ⟨n, l⟩
      · rfl
      · exact absurd hc (htail c.entry (by simp))
    have hkeep : (entries r).filter (·.request.idNum != idNum) = entries r :=
      filter_eq_self.2 fun e he => by simpa using htail e (by simpa using he)
    refine ⟨by simp [heq, hc], ?_, r, by rw [heq]; exact hheld, by simp [hc, hkeep]⟩
    rw [heq, tableDelete_eq h]

end

/-! ### One request -/

/-- The table has the invitations that are due, none twice, with names that end. -/
structure Tied (s : State) (v : Invitations) : Prop where
  table : ∃ ns, Held s ns ∧ entries ns = v.live
  number : s.currentId = v.currentId
  once : (v.live.map fun e => key e.request).Nodup
  names : ∀ e ∈ v.live, NamesEnd e.request

structure Follows (d : Done) (v : Invitations) : Prop where
  tied : Tied d.table v
  reads : ∀ r ∈ d.reads, Ends r

section
variable {ttl now : ℤ} {s : State} {v : Invitations} {q : Request} {m : CtlMsg} {a : ℕ}
    {c : Cell Entry} {e : Entry}

theorem exactComp_eq (m : CtlMsg) (now : ℤ) (e : Entry) :
    exactComp same m now e = if key m = key e.request then some { e with time := now }
      else none := by
  simp [exactComp, key, same]

theorem key_of_exactComp {x : Entry} (h : exactComp same m now x = some e) :
    e.request = x.request := by
  rw [exactComp_eq] at h
  split_ifs at h with hkey
  rw [← Option.some.inj h]

theorem tied_update {l r : List (ℕ × Cell Entry)} (h : Held s (l ++ (a, c) :: r)) (ht : Tied s v)
    (hlive : entries (l ++ (a, c) :: r) = v.live) (hkey : key e.request = key c.entry.request)
    (hname : NamesEnd c.entry.request → NamesEnd e.request) (n : ℕ) :
    Tied { s with heap := Function.update s.heap a (some { c with entry := e }), currentId := n }
      ⟨entries l ++ e :: entries r, n⟩ := by
  have hheld := held_setEntry h e
  have honce := ht.once
  have hnames := ht.names
  rw [← hlive] at honce hnames
  refine ⟨⟨_, ⟨hheld.chain, hheld.prevs, hheld.enough, hheld.sound⟩, by simp⟩, rfl, ?_,
    fun x hx => ?_⟩
  · simpa [hkey] using honce
  · simp only [mem_append, mem_cons] at hx
    rcases hx with hx | rfl | hx
    · exact hnames x (by simp [hx])
    · exact hname (hnames c.entry (by simp))
    · exact hnames x (by simp [hx])

theorem tied_insert (ht : Tied s v) (hm : NamesEnd m)
    (hkey : key m ∉ v.live.map fun e => key e.request)
    (hptr : s.heap a = none) (later : ℤ) :
    Tied (insertTable a m later s).2 (Invitations.add m later v) := by
  obtain ⟨ns, hns, hlive⟩ := ht.table
  refine ⟨⟨_, held_insert hns hptr m later, ?_⟩, ?_, ?_, ?_⟩
  · simp [Invitations.add, hlive, ht.number]
  · simp [insertTable, Invitations.add, ht.number]
  · exact nodup_cons.2 ⟨hkey, ht.once⟩
  · exact forall_mem_cons.2 ⟨hm, ht.names⟩

theorem renumber_eq (s : State) (a : ℕ) (c : Cell Entry) (e : Entry) :
    renumber a { s with heap := Function.update s.heap a (some { c with entry := e }) } =
      { s with
        heap := Function.update s.heap a (some { c with entry := numbered (newId s.currentId) e })
        currentId := newId s.currentId } := by
  unfold renumber setCell
  simp [setId, numbered]

theorem ends_requestReads (ht : Tied s v) (hm : NamesEnd m) (ttl now : ℤ) :
    ∀ r ∈ requestReads ttl m now s, Ends r := by
  obtain ⟨ns, hns, hlive⟩ := ht.table
  intro r hr
  obtain ⟨e, he, hr⟩ := mem_flatMap.1 hr
  exact ends_exactReads hm (ht.names e (hlive ▸ mem_of_compared hns.chain he)) r hr

theorem ends_matchReads (ht : Tied s v) (hm : NamesEnd m) (ttl now : ℤ) :
    ∀ r ∈ matchReads ttl m now s, Ends r := by
  obtain ⟨ns, hns, hlive⟩ := ht.table
  intro r hr
  obtain ⟨e, he, hr⟩ := mem_flatMap.1 hr
  exact ends_fuzzyReads hm (ht.names e (hlive ▸ mem_of_compared hns.chain he)) r hr

/-- **`find_request`**: nothing is known by the names, or what is known is refreshed, and has a new
number if need be. -/
theorem request_spec (ht : Tied s v) (hin : InTime ttl (exactComp same m now) now v.live) :
    (findRequest ttl same m now s = (none, s) ∧
      v.live.findSome? (freshly ttl now (exactComp same m now)) = none ∧
      key m ∉ v.live.map fun e => key e.request) ∨
    ∃ a e s', findRequest ttl same m now s = (some a, s') ∧
      v.live.findSome? (freshly ttl now (exactComp same m now)) = some e ∧
      idAt a s' = some e.request.idNum ∧
      Tied s' { v with live := touch (freshly ttl now (exactComp same m now)) v.live } ∧
      idAt a (renumber a s') = some (newId v.currentId) ∧
      Tied (renumber a s')
        ⟨touch
          (fun x => (freshly ttl now (exactComp same m now) x).map (numbered (newId v.currentId)))
          v.live, newId v.currentId⟩ := by
  obtain ⟨ns, hns, hlive⟩ := ht.table
  rw [← hlive] at hin ⊢
  rcases search_spec hns hin with ⟨heq, hnone, hcomp⟩ | ⟨l, a, c, r, e, rfl, hl, hcomp, he, heq⟩
  · refine .inl ⟨heq, hnone, fun hmem => ?_⟩
    obtain ⟨e, he, hkey⟩ := mem_map.1 hmem
    have habsurd := hcomp e he
    rw [exactComp_eq, if_pos hkey.symm] at habsurd
    cases habsurd
  · have hreq : e.request = c.entry.request := key_of_exactComp hcomp
    have hmap : ∀ y ∈ entries l,
        (freshly ttl now (exactComp same m now) y).map (numbered (newId v.currentId)) = none := by
      intro y hy
      rw [hl y hy]
      rfl
    have hone :=
      tied_update (e := e) hns ht hlive (by rw [hreq]) (by rw [hreq]; exact id) s.currentId
    have htwo :=
      tied_update (e := numbered (newId v.currentId) e) hns ht hlive (by simp [numbered, key, hreq])
      (by simp [numbered, hreq, NamesEnd]) (newId v.currentId)
    refine .inr ⟨a, e, _, heq, ?_, ?_, ?_, ?_, ?_⟩
    · rw [entries_append, entries_cons, findSome_append hl he]
    · simp [idAt, requestAt]
    · rw [entries_append, entries_cons, touch_append hl he, ← ht.number]
      exact hone
    · rw [renumber_eq]
      simp [idAt, requestAt, numbered, ht.number]
    · rw [renumber_eq, entries_append, entries_cons, touch_append hmap (by rw [he]; rfl), ht.number]
      exact htwo

theorem Follows.reading {d : Done} {l : List Read} (h : Follows d v) (hl : ∀ r ∈ l, Ends r) :
    Follows (d.reading l) v :=
  ⟨h.tied, fun r hr => (mem_append.1 hr).elim (hl r) (h.reads r)⟩

theorem follows_leaveInvite (ht : Tied s v) (hm : NamesEnd q.msg)
    (hin : InTime ttl (exactComp same q.msg q.now) q.now v.live) (hptr : s.heap q.ptr = none)
    (rp : Response) :
    Follows (leaveInvite ttl q rp s) (dueInvite ttl q rp v).2 ∧ (leaveInvite ttl q rp s).response =
      some (if v.live.findSome? (freshly ttl q.now (exactComp same q.msg q.now)) = none then
        { (dueInvite ttl q rp v).1 with answer := rp.answer } else (dueInvite ttl q rp v).1) := by
  have hreads := ends_requestReads ht hm ttl q.now
  unfold leaveInvite dueInvite
  rcases request_spec ht hin with ⟨heq, hnone, hkey⟩ | ⟨a, e, s', heq, he, hid, htied, -, -⟩
  · rw [heq, hnone]
    exact ⟨⟨tied_insert ht hm hkey hptr q.later, hreads⟩, by simp [insertTable, ht.number]⟩
  · rw [heq, he]
    exact ⟨⟨htied, hreads⟩, by simp [hid]⟩

theorem follows_lookUp (ht : Tied s v) (hm : NamesEnd q.msg)
    (hin : InTime ttl (fuzzyComp same q.msg) q.now v.live) (rp : Response) :
    Follows (lookUp ttl q rp s) (dueLookUp ttl q rp v).2 ∧
      (lookUp ttl q rp s).response = some (dueLookUp ttl q rp v).1 := by
  have hreads := ends_matchReads ht hm ttl q.now
  obtain ⟨ns, hns, hlive⟩ := ht.table
  unfold lookUp dueLookUp findMatch
  rw [← hlive] at hin ⊢
  rcases search_spec hns hin with ⟨heq, hnone, -⟩ | ⟨l, a, c, r, e, rfl, hl, hcomp, he, heq⟩
  · rw [heq, hnone]
    exact ⟨⟨ht, hreads⟩, rfl⟩
  · -- an invitation that matches stays as it is
    have hsame : e = c.entry := by
      unfold fuzzyComp at hcomp
      split_ifs at hcomp
      exact (Option.some.inj hcomp).symm
    have htied :=
      tied_update hns ht hlive (congrArg (fun x : Entry => key x.request) hsame)
      (by rw [hsame]; exact id)
      s.currentId
    have hsplit : entries l ++ c.entry :: entries r = v.live := by simpa using hlive
    have hv : (⟨entries l ++ e :: entries r, s.currentId⟩ : Invitations) =
      v := by rw [hsame, hsplit, ht.number]
    rw [hv] at htied
    rw [heq, entries_append, entries_cons, findSome_append hl he]
    exact ⟨⟨htied, hreads⟩, by simp [idAt, addrAt, requestAt]⟩

theorem follows_delete (ht : Tied s v) (htail : ∀ e ∈ v.live.tail, e.request.idNum ≠ q.msg.idNum)
    (rp : Response) :
    Follows (deleteRequest q rp s) (dueDelete q rp v).2 ∧
      (deleteRequest q rp s).response = some (dueDelete q rp v).1 := by
  obtain ⟨ns, hns, hlive⟩ := ht.table
  rw [← hlive] at htail
  obtain ⟨hanswer, hid, ms, hms, hfilter⟩ := delete_spec hns htail
  rw [hlive] at hanswer hfilter
  refine ⟨⟨⟨⟨ms, hms, hfilter⟩, hid.trans ht.number, ?_, fun e he => ?_⟩, nofun⟩, ?_⟩
  · exact ht.once.sublist (List.Sublist.map _ filter_sublist)
  · exact ht.names e (mem_of_mem_filter he)
  · simp [deleteRequest, dueDelete, hanswer]

theorem follows_announceOnce (ht : Tied s v) (hm : NamesEnd m) (htty : Ends (ttyField m.rTty))
    (hin : InTime ttl (exactComp same m q.now) q.now v.live) (hptr : s.heap q.ptr = none)
    (rp : Response) :
    Follows (announceOnce ttl q m rp s) (dueOnce ttl q m rp v).2 ∧
      (announceOnce ttl q m rp s).response = some (dueOnce ttl q m rp v).1 := by
  have hreads := ends_requestReads ht hm ttl q.now
  have hboth : ∀ r ∈ requestReads ttl m q.now s ++ announceReads m, Ends r := fun r hr =>
    (mem_append.1 hr).elim (hreads r) fun hr => by
      simp only [announceReads, mem_cons, not_mem_nil, or_false] at hr
      rcases hr with rfl | rfl
      · exact htty
      · exact hm.1
  unfold announceOnce dueOnce
  rcases request_spec ht hin with ⟨heq, hnone, hkey⟩ | ⟨a, e, s', heq, he, hid, htied, hid', htied'⟩
  · rw [heq, hnone]
    exact ⟨⟨tied_insert ht hm hkey hptr q.later, hboth⟩, by simp [insertTable, ht.number]⟩
  · rw [heq, he]
    simp only [hid, Option.any_some, decide_eq_true_iff]
    split_ifs
    · exact ⟨⟨htied', hboth⟩, by simp [hid']⟩
    · exact ⟨⟨htied, hreads⟩, by simp⟩

theorem follows_doAnnounce (ht : Tied s v) (h : Ended q) (hq : q.msg.type = .announce)
    (hin : q.user.status = .success → q.hostKnown = true →
      InTime ttl (exactComp same q.toUser q.now) q.now v.live)
    (hptr : s.heap q.ptr = none) (rp : Response) :
    Follows (doAnnounce ttl q rp s) (dueAnnounce ttl q rp v).2 ∧
      (doAnnounce ttl q rp s).response = some (dueAnnounce ttl q rp v).1 := by
  obtain ⟨htty, hreads⟩ := sound_user h hq
  unfold doAnnounce dueAnnounce
  split_ifs with huser hhost
  · exact ⟨⟨ht, hreads⟩, rfl⟩
  · exact ⟨⟨ht, hreads⟩, rfl⟩
  · have hm : NamesEnd q.toUser := ⟨h.1, h.2.1⟩
    obtain ⟨hfollows, hresponse⟩ := follows_announceOnce ht hm htty
      (hin (by simpa using huser) (by simpa using hhost)) hptr rp
    exact ⟨hfollows.reading hreads, hresponse⟩

theorem ends_aclReads (hm : NamesEnd m) : ∀ r ∈ aclReads m, Ends r := by simp [aclReads, hm.1, hm.2]

theorem dispatch_spec (ht : Tied s v) (h : Ended q) (hs : Suits ttl q v.live)
    (hptr : s.heap q.ptr = none)
    {rp : Response} (hrp : rp.answer = none) :
    Follows (dispatch ttl q rp s) (dueByType ttl q rp v).2 ∧
      (dispatch ttl q rp s).response =
        some (if q.msg.type = .leaveInvite ∧
        v.live.findSome? (freshly ttl q.now (exactComp same q.msg q.now)) = none then
          { (dueByType ttl q rp v).1 with answer := none } else (dueByType ttl q rp v).1) := by
  have hm : NamesEnd q.msg := ⟨h.1, h.2.1⟩
  unfold Suits at hs
  unfold dispatch dueByType
  rcases htype : q.msg.type with - | - | - | - | b
  · simp only [htype] at hs
    simpa [hrp] using follows_leaveInvite ht hm hs hptr rp
  · simp only [htype] at hs
    simpa using follows_lookUp ht hm hs rp
  · simp only [htype] at hs
    simpa using follows_delete ht hs rp
  · simp only [htype] at hs
    simpa using follows_doAnnounce ht h htype hs hptr rp
  · exact ⟨⟨ht, nofun⟩, by simp⟩

theorem process_spec (ht : Tied s v) (h : Orderly ttl v q) (hptr : s.heap q.ptr = none) :
    Follows (processRequest ttl q s) (due ttl v q).2 ∧
      (¬ NewInvite ttl v q → (processRequest ttl q s).response = (due ttl v q).1) ∧
      (NewInvite ttl v q →
        (processRequest ttl q s).response = (due ttl v q).1.map fun rp =>
        { rp with answer := none }) := by
  have hm : NamesEnd q.msg := ⟨h.1.1, h.1.2.1⟩
  have hacl := ends_aclReads hm
  unfold processRequest due NewInvite Served
  by_cases hdropped : q.dropped = true
  · simp only [hdropped, if_true]
    exact ⟨⟨ht, hacl⟩, by simp, by simp⟩
  · rcases hinvalid : invalid q.msg with - | a
    · have hrp : (answered q.msg).answer = none := rfl
      obtain ⟨hfollows, hresponse⟩ :=
        dispatch_spec ht h.1 (h.2 ⟨by simpa using hdropped, hinvalid⟩) hptr hrp
      simp only [if_neg hdropped]
      refine ⟨hfollows.reading hacl, fun hnot => ?_, fun hnew => ?_⟩
      · refine hresponse.trans ?_
        rw [if_neg fun hnew => hnot ⟨⟨by simpa using hdropped, by simp⟩, hnew⟩]
      · refine hresponse.trans ?_
        rw [if_pos hnew.2]
        rfl
    · simp only [if_neg hdropped]
      exact ⟨⟨ht, hacl⟩, by simp, by simp⟩

theorem invalid_ne_success (m : CtlMsg) : invalid m ≠ some .success := by
  unfold invalid
  split_ifs <;> simp

theorem due_complete (ttl : ℤ) (v : Invitations) (q : Request) :
    ∀ rp, (due ttl v q).1 = some rp → Complete rp := by
  intro rp
  unfold due
  split_ifs
  · simp
  · split
    · rename_i a ha
      have hne : a ≠ .success := fun heq => invalid_ne_success q.msg (heq ▸ ha)
      rintro ⟨⟩
      simp [Complete, answered, hne]
    · rintro ⟨⟩
      unfold dueByType
      rcases htype : q.msg.type with - | - | - | - | b
      · dsimp only
        unfold dueInvite
        split <;> simp [Complete, answered, htype]
      · dsimp only
        unfold dueLookUp
        split <;> simp [Complete, answered]
      · simp [Complete, answered, dueDelete, htype]
      · dsimp only
        unfold dueAnnounce dueOnce
        split_ifs
        · simp [Complete, answered, htype]
        · simp [Complete, answered, htype]
        · split
          · split_ifs <;> simp [Complete, answered, htype]
          · simp [Complete, answered, htype]
      · simp [Complete, answered, htype]

theorem due_answered (h : NewInvite ttl v q) :
    (due ttl v q).1.map (fun rp => { rp with answer := none }) ≠ (due ttl v q).1 := by
  obtain ⟨⟨hdropped, hinvalid⟩, -⟩ := h
  rcases hdue : (due ttl v q).1 with - | rp
  · simp [due, hdropped, hinvalid] at hdue
  · intro heq
    have hanswer := (due_complete ttl v q rp hdue).2.2.1
    rw [← Option.some.inj heq] at hanswer
    cases hanswer

end

/-! ### Runs -/

section
variable {ttl : ℤ} {d : Daemon} {v : Invitations × List (Option Response)} {q : Request}

structure Runs (dv : Daemon × (Invitations × List (Option Response))) : Prop where
  kept : Kept dv.1 dv.2
  tied : Tied dv.1.table dv.2.1

/-- `malloc` gives a place where nothing is. -/
def Malloc (d : Daemon) (q : Request) : Prop := d.table.heap q.ptr = none

def dueStep (ttl : ℤ) :
    Invitations × List (Option Response) → Request → Invitations × List (Option Response) :=
  logged fun v q => due ttl v q

theorem runs_step (h : Runs (d, v)) (hm : Malloc d q) (ho : Orderly ttl v.1 q) :
    Runs (both (step ttl) (dueStep ttl) (d, v) q) := by
  obtain ⟨hfollows, hold, hnew⟩ := process_spec h.tied ho hm
  obtain ⟨htied, hreads⟩ := hfollows
  have hagree : Agree (q, (processRequest ttl q d.table).response) (due ttl v.1 q).1 := by
    by_cases hcase : NewInvite ttl v.1 q
    · exact .inr ⟨hcase.2.1, hnew hcase⟩
    · exact .inl (hold hcase)
  refine ⟨⟨?_, ?_, htied.table, htied.once, ?_⟩, htied⟩
  · exact rel_append h.kept.responses (List.Forall₂.cons hagree List.Forall₂.nil)
  · intro r hr
    rcases mem_append.1 hr with hr | hr
    · exact h.kept.complete r hr
    · rw [mem_singleton.1 hr]
      exact due_complete ttl v.1 q
  · exact fun r hr => (mem_append.1 hr).elim (h.kept.reads r) (hreads r)

theorem responses_step (h : Runs (d, v)) (heq : d.log.map Prod.snd = v.2) (hm : Malloc d q)
    (ho : Orderly ttl v.1 q) :
    (step ttl d q).log.map Prod.snd = (dueStep ttl v q).2 ↔ ¬ NewInvite ttl v.1 q := by
  obtain ⟨-, hold, hnew⟩ := process_spec h.tied ho hm
  have hiff : (step ttl d q).log.map Prod.snd = (dueStep ttl v q).2 ↔
      (processRequest ttl q d.table).response = (due ttl v.1 q).1 := by
    simp [step, dueStep, logged, heq]
  rw [hiff]
  exact ⟨fun hresponse hcase => due_answered hcase ((hnew hcase).symm.trans hresponse), hold⟩

theorem runs_begin : Runs (begin, (⟨[], 0⟩, [])) :=
  ⟨⟨List.Forall₂.nil, nofun, ⟨[], held_start, rfl⟩, nodup_nil, nofun⟩,
    ⟨⟨[], held_start, rfl⟩, rfl, nodup_nil, nofun⟩⟩

theorem answers_within {l : List Request} (hm : Allowed (step ttl) Malloc begin l)
    (ho : Allowed (dueStep ttl) (fun v q => Orderly ttl v.1 q) (⟨[], 0⟩, []) l) :
    (∀ l', l' <+: l → Kept (run (step ttl) begin l') (run (dueStep ttl) (⟨[], 0⟩, []) l')) ∧
      ((∀ l', l' <+: l →
          (run (step ttl) begin l').log.map Prod.snd = (run (dueStep ttl) (⟨[], 0⟩, []) l').2) ↔
        Allowed (dueStep ttl) (fun v q => ¬ NewInvite ttl v.1 q) (⟨[], 0⟩, []) l) := by
  have hpre :
      Allowed (both (step ttl) (dueStep ttl)) (fun dv q => Malloc dv.1 q ∧ Orderly ttl dv.2.1 q)
      (begin, (⟨[], 0⟩, [])) l :=
        allowed_and.2 ⟨(allowed_both_left l _ _).2 hm, (allowed_both_right l _ _).2 ho⟩
  constructor
  · rintro l' ⟨r, rfl⟩
    have hrun :=
      run_inv (fun dv q hdv hok => runs_step hdv hok.1 hok.2) runs_begin
      (allowed_append l' r _ |>.1 hpre).1
    rw [run_both] at hrun
    exact hrun.kept
  · have hboth : (∀ l', l' <+: l →
        (fun dv : Daemon × (Invitations × List (Option Response)) => dv.1.log.map Prod.snd = dv.2.2)
          (run (both (step ttl) (dueStep ttl)) (begin, (⟨[], 0⟩, [])) l')) ↔
        Allowed (both (step ttl) (dueStep ttl)) (fun dv q => ¬ NewInvite ttl dv.2.1 q)
        (begin, (⟨[], 0⟩, [])) l :=
      inv_iff_allowed_within (J := Runs)
        (I := fun dv : Daemon × (Invitations × List (Option Response)) =>
          dv.1.log.map Prod.snd = dv.2.2)
        (fun dv q hok heq hdv => responses_step hdv heq hok.1 hok.2)
        (fun dv q hok _ hdv _ => runs_step hdv hok.1 hok.2) rfl runs_begin hpre
    refine Iff.trans ?_ (hboth.trans
      (allowed_both_right
        (q := fun (v : Invitations × List (Option Response)) q => ¬ NewInvite ttl v.1 q) l _ _))
    simp only [run_both]

end

/-- **In an orderly run** every response is the one that is due, but for the answer to an invitation
that is new; the table has no double entries, and no field is read beyond its end. The responses are
all as is due just in case no invitation is new. -/
theorem answers_as_due (ttl : ℤ) (l : List Request) (hm : Allowed (step ttl) Malloc begin l)
    (ho : Allowed (dueStep ttl) (fun v q => Orderly ttl v.1 q) (⟨[], 0⟩, []) l) :
    (∀ l', l' <+: l → Kept (run (step ttl) begin l') (run (dueStep ttl) (⟨[], 0⟩, []) l')) ∧
      ((∀ l', l' <+: l →
          (run (step ttl) begin l').log.map Prod.snd = (run (dueStep ttl) (⟨[], 0⟩, []) l').2) ↔
        Allowed (dueStep ttl) (fun v q => ¬ NewInvite ttl v.1 q) (⟨[], 0⟩, []) l) :=
  answers_within hm ho

/-! ### An invitation and its answer -/

/-- `a` invites `b`. -/
def inviting : Request :=
  ⟨⟨1, .leaveInvite, 0, ⟨2, [9]⟩, ⟨2, []⟩, 7, [97, 0], [98, 0], [0]⟩, false, [], true,
    .success, 1, 0, 0⟩

/-- `b` looks for an invitation of `a`. -/
def looking : Request :=
  ⟨⟨1, .lookUp, 0, ⟨2, []⟩, ⟨2, []⟩, 8, [98, 0], [97, 0], [0]⟩, false, [], true, .success, 2, 3, 3⟩

/-- The invitation is found. -/
theorem kept_looking : Kept (run (step 60) begin [inviting, looking])
    (run (dueStep 60) (⟨[], 0⟩, []) [inviting, looking]) := by
  have hm : Allowed (step 60) Malloc begin [inviting, looking] := ⟨rfl, rfl, trivial⟩
  have ho :
      Allowed (dueStep 60) (fun v q => Orderly 60 v.1 q) (⟨[], 0⟩, []) [inviting, looking] := by
    refine ⟨⟨⟨?_, ?_, nofun⟩, fun _ => ?_⟩, ⟨⟨?_, ?_, nofun⟩, fun _ => ?_⟩, trivial⟩
    · exact mem_cons_of_mem _ (mem_singleton_self _)
    · exact mem_cons_of_mem _ (mem_singleton_self _)
    · exact fun e he => absurd he not_mem_nil
    · exact mem_cons_of_mem _ (mem_singleton_self _)
    · exact mem_cons_of_mem _ (mem_singleton_self _)
    · intro e he
      obtain rfl := mem_singleton.1 (mem_of_mem_met he)
      decide
  exact (answers_as_due 60 _ hm ho).1 _ prefix_rfl

/-- The answer to the invitation is not set. -/
theorem not_answered_inviting : ¬ ∀ l', l' <+: [inviting] →
    (run (step 60) begin l').log.map Prod.snd = (run (dueStep 60) (⟨[], 0⟩, []) l').2 := by
  intro h
  have hlog := h _ prefix_rfl
  exact absurd hlog (by decide)

end Inetutils.Talkd.Process
