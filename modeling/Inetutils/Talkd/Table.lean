import Inetutils.Lib.Linked
import Inetutils.Lib.Runs
import Mathlib.Data.Int.Notation

/-! # The table of talkd

`talkd/table.c`: the invitations, in a list that is linked both ways, the newest first.
`insert_table` sets the `prev` of the new entry only, so no entry ever knows the one before it, and
`table_delete` takes each entry for the first: what is newer is dropped from the list. An entry is
never too old, as its age is taken with the wrong sign; where the clock is behind it by more than
`max_request_ttl`, it is freed and its `next` is read after that.

The place of a new entry is what `malloc` gives. `strcmp` of two names is `same`, and times have no
bound. -/

namespace Inetutils.Talkd.Table

open Lib.Linked Lib.Runs List

abbrev Field := List UInt8

inductive MsgType
  | leaveInvite
  | lookUp
  | delete
  | announce
  | other (b : UInt8)
  deriving DecidableEq

structure Osockaddr where
  saFamily : ℕ
  saData : List UInt8
  deriving DecidableEq

structure CtlMsg where
  vers : UInt8
  type : MsgType
  idNum : ℕ
  addr : Osockaddr
  ctlAddr : Osockaddr
  pid : ℤ
  lName : Field
  rName : Field
  rTty : Field
  deriving DecidableEq

/-- The answers of `CTL_RESPONSE`. -/
inductive Answer
  | success
  | notHere
  | failed
  | machineUnknown
  | permissionDenied
  | unknownRequest
  | badversion
  | badaddr
  | badctladdr
  deriving DecidableEq

structure Entry where
  request : CtlMsg
  time : ℤ
  deriving DecidableEq

/-- `cells` is how often `malloc` was called, and `wild` says that something was read or written
that is free. -/
structure State where
  heap : Heap Entry
  table : Option ℕ
  cells : ℕ
  currentId : ℕ
  wild : Bool

def start : State := ⟨fun _ => none, none, 0, 0, false⟩

def State.stray (s : State) : State := { s with wild := true }

def maxId : ℕ := 16000

def newId (currentId : ℕ) : ℕ := if (currentId + 1) % maxId = 0 then 1 else (currentId + 1) % maxId

def insertTable (ptr : ℕ) (request : CtlMsg) (now : ℤ) (s : State) : ℕ × State :=
  (newId s.currentId,
    { s with
      heap :=
        Function.update s.heap ptr
        (some ⟨s.table, none, { request with idNum := newId s.currentId }, now⟩)
      table := some ptr
      cells := s.cells + 1
      currentId := newId s.currentId })

def setCell (t : ℕ) (f : Cell Entry → Cell Entry) (s : State) : State :=
  match s.heap t with
  | some c => { s with heap := Function.update s.heap t (some (f c)) }
  | none => s.stray

def unlinkPrev (c : Cell Entry) (s : State) : State :=
  match c.prev with
  | some t => setCell t (fun d => { d with next := c.next }) s
  | none => { s with table := c.next }

def unlinkNext (c : Cell Entry) (s : State) : State :=
  match c.next with
  | some t => setCell t (fun d => { d with prev := c.prev }) s
  | none => s

def free (ptr : ℕ) (s : State) : State := { s with heap := Function.update s.heap ptr none }

def tableDelete (ptr : ℕ) (c : Cell Entry) (s : State) : State :=
  free ptr (unlinkNext c (unlinkPrev c s))

/-- A loop over the list, which ends when `body` gives something. The bound on the rounds is the
number of cells. -/
def walk {ρ : Type} (body : ℕ → Cell Entry → State → Option ρ × State) :
    ℕ → Option ℕ → State → Option ρ × State
  | _, none, s => (none, s)
  | 0, some _, s => (none, s.stray)
  | n + 1, some ptr, s =>
    match s.heap ptr with
    | none => (none, s.stray)
    | some c =>
      match body ptr c s with
      | (some r, s') => (some r, s')
      | (none, s') =>
        match s'.heap ptr with
        | none => (none, s'.stray)
        | some c' => walk body n c'.next s'

section
variable (ttl : ℤ)

/-- `comp` gives the entry as it leaves it, where it matches. -/
def lookupBody (comp : Entry → Option Entry) (now : ℤ) (ptr : ℕ) (c : Cell Entry) (s : State) :
    Option ℕ × State :=
  if c.entry.time - now > ttl then (none, tableDelete ptr c s)
  else
    match comp c.entry with
    | some e =>
      (some ptr, { s with heap := Function.update s.heap ptr (some { c with entry := e }) })
    | none => (none, s)

def lookupRequest (comp : Entry → Option Entry) (now : ℤ) (s : State) : Option ℕ × State :=
  walk (lookupBody ttl comp now) s.cells s.table s

variable (same : Field → Field → Bool)

def fuzzyComp (request : CtlMsg) (e : Entry) : Option Entry :=
  if e.request.type = .leaveInvite ∧ same request.lName e.request.rName ∧
    same request.rName e.request.lName then some e
  else none

def exactComp (request : CtlMsg) (now : ℤ) (e : Entry) : Option Entry :=
  if request.type = e.request.type ∧ request.pid = e.request.pid ∧
    same request.rName e.request.rName ∧
      same request.lName e.request.lName then some { e with time := now }
  else none

def findMatch (request : CtlMsg) (now : ℤ) (s : State) : Option ℕ × State :=
  lookupRequest ttl (fuzzyComp same request) now s

def findRequest (request : CtlMsg) (now : ℤ) (s : State) : Option ℕ × State :=
  lookupRequest ttl (exactComp same request now) now s

end

def deleteBody (idNum : ℕ) (ptr : ℕ) (c : Cell Entry) (s : State) : Option Answer × State :=
  if c.entry.request.idNum = idNum then (some .success, tableDelete ptr c s) else (none, s)

def deleteInvite (idNum : ℕ) (s : State) : Answer × State :=
  ((walk (deleteBody idNum) s.cells s.table s).1.getD .notHere,
    (walk (deleteBody idNum) s.cells s.table s).2)

/-! ### What the functions do to the list -/

structure Held (s : State) (ns : List (ℕ × Cell Entry)) : Prop where
  chain : Chain s.heap s.table ns
  prevs : ∀ n ∈ ns, n.2.prev = none
  enough : ns.length ≤ s.cells
  sound : s.wild = false

def entries (ns : List (ℕ × Cell Entry)) : List Entry := ns.map fun n => n.2.entry

section
variable {s : State} {ns l r : List (ℕ × Cell Entry)} {ptr a idNum : ℕ} {c : Cell Entry} {ρ : Type}
  {body : ℕ → Cell Entry → State → Option ρ × State}

@[simp] theorem entries_nil : entries [] = [] := rfl

@[simp] theorem entries_cons (n : ℕ × Cell Entry) (ns : List (ℕ × Cell Entry)) :
    entries (n :: ns) = n.2.entry :: entries ns := rfl

@[simp] theorem entries_append (l r : List (ℕ × Cell Entry)) :
    entries (l ++ r) = entries l ++ entries r :=
  map_append

theorem newId_ne_zero (n : ℕ) : newId n ≠ 0 := by
  unfold newId
  split_ifs with h <;> omega

theorem held_start : Held start [] := ⟨rfl, nofun, Nat.le_refl _, rfl⟩

theorem held_insert (h : Held s ns) (hptr : s.heap ptr = none) (request : CtlMsg) (now : ℤ) :
    Held (insertTable ptr request now s).2
      ((ptr, ⟨s.table, none, { request with idNum := newId s.currentId }, now⟩) :: ns) := by
  refine ⟨⟨rfl, Function.update_self .., h.chain.update _ (h.chain.fresh hptr)⟩, ?_, ?_, h.sound⟩
  · simpa using h.prevs
  · have := h.enough
    simp [insertTable]
    omega

theorem setCell_prev {b : ℕ} {d : Cell Entry} (hcell : s.heap b = some d) (hd : d.prev = none) :
    setCell b (fun d => { d with prev := none }) s = s := by
  have hsame : ({ d with prev := none } : Cell Entry) = d := by rw [← hd]
  unfold setCell
  rw [hcell]
  dsimp only
  rw [hsame, ← hcell, Function.update_eq_self]

theorem tableDelete_eq (h : Held s (l ++ (a, c) :: r)) :
    tableDelete a c s = { s with table := c.next, heap := Function.update s.heap a none } := by
  have hprev : c.prev = none := h.prevs (a, c) (by simp)
  have hright : Chain s.heap c.next r := h.chain.right.2.2
  unfold tableDelete unlinkPrev unlinkNext free
  rw [hprev]
  rcases r with - | ⟨⟨b, d⟩, r⟩
  · rw [chain_nil.1 hright]
  · obtain ⟨hnext, hcell, -⟩ := hright
    have hd : d.prev = none := h.prevs (b, d) (by simp)
    rw [hnext]
    dsimp only
    rw [setCell_prev (s := { s with table := some b }) hcell hd]

theorem held_delete (h : Held s (l ++ (a, c) :: r)) : Held (tableDelete a c s) r := by
  rw [tableDelete_eq h]
  refine ⟨h.chain.free, fun n hn => h.prevs n (by simp [hn]), ?_, h.sound⟩
  have := h.enough
  simp at this
  dsimp only
  omega

theorem walk_append (hbody : ∀ n ∈ l, body n.1 n.2 s = (none, s)) :
    ∀ {p : Option ℕ} {n : ℕ}, Chain s.heap p (l ++ r) → (l ++ r).length ≤ n →
      ∃ q m, Chain s.heap q r ∧ r.length ≤ m ∧ walk body n p s = walk body m q s := by
  induction l with
  | nil => exact fun hc hn => ⟨_, _, hc, hn, rfl⟩
  | cons x l ih =>
    intro p n hc hn
    obtain ⟨rfl, hcell, hc⟩ := hc
    rcases n with - | n
    · simp at hn
    · obtain ⟨q, m, hq, hm, heq⟩ := ih (fun y hy => hbody y (by simp [hy])) hc (by simpa using hn)
      refine ⟨q, m, hq, hm, ?_⟩
      rw [← heq]
      simp only [walk, hcell, hbody x (by simp)]

theorem walk_none (h : Held s ns) (hbody : ∀ n ∈ ns, body n.1 n.2 s = (none, s)) :
    walk body s.cells s.table s = (none, s) := by
  have hchain : Chain s.heap s.table (ns ++ []) := by simpa using h.chain
  obtain ⟨q, m, hq, -, heq⟩ := walk_append hbody hchain (by simpa using h.enough)
  rw [chain_nil] at hq
  rw [heq, hq]
  cases m <;> rfl

theorem walk_some (h : Held s (l ++ (a, c) :: r)) (hbody : ∀ n ∈ l, body n.1 n.2 s = (none, s))
    {x : ρ} {s' : State}
    (hlast : body a c s = (some x, s')) : walk body s.cells s.table s = (some x, s') := by
  obtain ⟨q, m, hq, hm, heq⟩ := walk_append hbody h.chain h.enough
  obtain ⟨rfl, hcell, -⟩ := hq
  rcases m with - | m
  · simp at hm
  · rw [heq]
    simp only [walk, hcell, hlast]

theorem exists_first (p : Entry → Bool) (ns : List (ℕ × Cell Entry)) :
    (∀ n ∈ ns, p n.2.entry = false) ∨
    ∃ l a c r, ns = l ++ (a, c) :: r ∧ (∀ n ∈ l, p n.2.entry = false) ∧ p c.entry = true := by
  rcases hfind : ns.find? fun n => p n.2.entry with - | ⟨a, c⟩
  · left
    simpa using hfind
  · obtain ⟨hc, l, r, rfl, hl⟩ := find?_eq_some_iff_append.1 hfind
    exact .inr ⟨l, a, c, r, rfl, by simpa using hl, hc⟩

/-- **Deletion**: the first entry with the id goes, and all before it. -/
theorem delete_cases (h : Held s ns) (idNum : ℕ) :
    (deleteInvite idNum s = (.notHere, s) ∧ ∀ e ∈ entries ns, e.request.idNum ≠ idNum) ∨
    ∃ l a c r, ns = l ++ (a, c) :: r ∧ (∀ e ∈ entries l, e.request.idNum ≠ idNum) ∧
    c.entry.request.idNum = idNum ∧
      deleteInvite idNum s = (.success, tableDelete a c s) ∧ Held (tableDelete a c s) r := by
  have hskip : ∀ n : ℕ × Cell Entry, (n.2.entry.request.idNum == idNum) = false →
      deleteBody idNum n.1 n.2 s = (none, s) := fun n hn => if_neg (by simpa using hn)
  rcases exists_first (fun e => e.request.idNum == idNum) ns with hns | ⟨l, a, c, r, rfl, hl, hc⟩
  · left
    unfold deleteInvite
    rw [walk_none h fun n hn => hskip n (hns n hn)]
    refine ⟨rfl, fun e he => ?_⟩
    obtain ⟨n, hn, rfl⟩ := mem_map.1 he
    simpa using hns n hn
  · right
    have hid : c.entry.request.idNum = idNum := by simpa using hc
    refine ⟨l, a, c, r, rfl, fun e he => ?_, hid, ?_, held_delete h⟩
    · obtain ⟨n, hn, rfl⟩ := mem_map.1 he
      simpa using hl n hn
    · unfold deleteInvite
      rw [walk_some h (fun n hn => hskip n (hl n hn)) (if_pos hid)]
      rfl

variable {ttl now : ℤ} (comp : Entry → Option Entry)

/-- The entries that a search meets, up to the first that matches. -/
def met : List Entry → List Entry
  | [] => []
  | e :: es => e :: if (comp e).isSome then [] else met es

/-- The first entry that matches is left as `comp` leaves it. -/
def touch : List Entry → List Entry
  | [] => []
  | e :: es =>
    match comp e with
    | some e' => e' :: es
    | none => e :: touch es

variable {comp} {es : List Entry} {e : Entry}

theorem met_of_none (h : ∀ e ∈ es, comp e = none) : met comp es = es := by
  induction es with
  | nil => rfl
  | cons e es ih => simp [met, h e, ih fun x hx => h x (by simp [hx])]

theorem met_append {fs : List Entry} {x : Entry} (h : ∀ e ∈ es, comp e = none)
    (hx : comp x = some e) : met comp (es ++ x :: fs) = es ++ [x] := by
  induction es with
  | nil => simp [met, hx]
  | cons y es ih => simp [met, h y, ih fun x hx => h x (by simp [hx])]

theorem mem_of_mem_met (h : e ∈ met comp es) : e ∈ es := by
  induction es with
  | nil => exact h
  | cons x es ih =>
    unfold met at h
    split_ifs at h with hx
    · simp_all
    · rcases mem_cons.1 h with rfl | h
      · exact mem_cons_self
      · exact mem_cons_of_mem _ (ih h)

theorem touch_append {fs : List Entry} {x : Entry} (h : ∀ e ∈ es, comp e = none)
    (hx : comp x = some e) : touch comp (es ++ x :: fs) = es ++ e :: fs := by
  induction es with
  | nil => simp [touch, hx]
  | cons y es ih => simp [touch, h y, ih fun x hx => h x (by simp [hx])]

variable (comp)

theorem held_setEntry (h : Held s (l ++ (a, c) :: r)) (e : Entry) :
    Held { s with heap := Function.update s.heap a (some { c with entry := e }) }
      (l ++ (a, { c with entry := e }) :: r) := by
  refine ⟨h.chain.setEntry e, fun n hn => ?_, ?_, h.sound⟩
  · simp only [mem_append, mem_cons] at hn
    rcases hn with hn | rfl | hn
    · exact h.prevs n (by simp [hn])
    · exact h.prevs (a, c) (by simp)
    · exact h.prevs n (by simp [hn])
  · simpa using h.enough

/-- **A search**, where no entry that it meets is ahead of the clock by too much: the first that
matches is found. -/
theorem lookup_cases (h : Held s ns) (hahead : ∀ e ∈ met comp (entries ns), e.time - now ≤ ttl) :
    (lookupRequest ttl comp now s = (none, s) ∧ ∀ e ∈ entries ns, comp e = none) ∨
    ∃ l a c r e, ns = l ++ (a, c) :: r ∧ (∀ e ∈ entries l, comp e = none) ∧ comp c.entry = some e ∧
      lookupRequest ttl comp now s =
        (some a, { s with heap := Function.update s.heap a (some { c with entry := e }) }) := by
  have hskip : ∀ n : ℕ × Cell Entry, n.2.entry.time - now ≤ ttl → comp n.2.entry = none →
      lookupBody ttl comp now n.1 n.2 s = (none, s) := by
    intro n hn hcomp
    simp only [lookupBody, if_neg (Int.not_lt.2 hn), hcomp]
  rcases exists_first (fun e => (comp e).isSome) ns with hns | ⟨l, a, c, r, rfl, hl, hc⟩
  · left
    have hnone : ∀ e ∈ entries ns, comp e = none := fun e he => by
      obtain ⟨n, hn, rfl⟩ := mem_map.1 he
      simpa using hns n hn
    rw [met_of_none hnone] at hahead
    exact ⟨walk_none h fun n hn => hskip n (hahead _ (mem_map_of_mem hn))
      (hnone _ (mem_map_of_mem hn)), hnone⟩
  · right
    obtain ⟨e, he⟩ := Option.isSome_iff_exists.1 hc
    have hnone : ∀ e ∈ entries l, comp e = none := fun e he => by
      obtain ⟨n, hn, rfl⟩ := mem_map.1 he
      simpa using hl n hn
    rw [entries_append, entries_cons, met_append hnone he] at hahead
    refine ⟨l, a, c, r, e, rfl, hnone, he, walk_some h (fun n hn => ?_) ?_⟩
    · have hmem : n.2.entry ∈ entries l := mem_map_of_mem hn
      exact hskip n (hahead _ (by simp [hmem])) (hnone _ hmem)
    · simp only [lookupBody, if_neg (Int.not_lt.2 (hahead c.entry (by simp))), he]

theorem lookup_wild {n : ℕ × Cell Entry} (h : Held s (n :: ns))
    (hahead : n.2.entry.time - now > ttl) :
    (lookupRequest ttl comp now s).2.wild = true := by
  obtain ⟨hp, hcell, -⟩ := h.chain
  have henough := h.enough
  obtain ⟨m, hm⟩ : ∃ m, s.cells = m + 1 := ⟨s.cells - 1, by simp at henough; omega⟩
  have hfree : (tableDelete n.1 n.2 s).heap n.1 = none := Function.update_self ..
  unfold lookupRequest
  rw [hm, hp]
  simp only [walk, hcell, lookupBody, if_pos hahead, hfree]
  rfl

end

/-! ### Calls -/

inductive Call
  | insertTable (ptr : ℕ) (request : CtlMsg) (now : ℤ)
  | deleteInvite (idNum : ℕ)
  | findMatch (request : CtlMsg) (now : ℤ)
  | findRequest (request : CtlMsg) (now : ℤ)

inductive Reply
  | inserted (idNum : ℕ)
  | deleted (answer : Answer)
  | found (request : Option CtlMsg)
  deriving DecidableEq

def requestAt (p : Option ℕ) (s : State) : Option CtlMsg :=
  p.bind fun ptr => (s.heap ptr).map fun c => c.entry.request

def showing (x : Option ℕ × State) : Reply × State := (.found (requestAt x.1 x.2), x.2)

section
variable (ttl : ℤ) (same : Field → Field → Bool)

def call (s : State) : Call → Reply × State
  | .insertTable ptr request now =>
    (.inserted (insertTable ptr request now s).1, (insertTable ptr request now s).2)
  | .deleteInvite idNum => (.deleted (deleteInvite idNum s).1, (deleteInvite idNum s).2)
  | .findMatch request now => showing (findMatch ttl same request now s)
  | .findRequest request now => showing (findRequest ttl same request now s)

def Malloc (s : State × List Reply) : Call → Prop
  | .insertTable ptr _ _ => s.1.heap ptr = none
  | _ => True

end

/-! ### Timed invitations -/

/-- What the table is for: the invitations that are live, the newest first. -/
structure Invitations where
  live : List Entry
  currentId : ℕ

/-- Refreshed at most `ttl` seconds ago. -/
def fresh (ttl now : ℤ) (e : Entry) : Bool := now - e.time ≤ ttl

section
variable (ttl : ℤ) (same : Field → Field → Bool)

def Invitations.search (comp : Entry → Option Entry) (now : ℤ) (v : Invitations) :
    Reply × Invitations :=
  (.found (((v.live.filter (fresh ttl now)).findSome? comp).map Entry.request),
    { v with live := touch comp (v.live.filter (fresh ttl now)) })

def Invitations.call (v : Invitations) : Call → Reply × Invitations
  | .insertTable _ request now =>
    (.inserted (newId v.currentId),
      ⟨⟨{ request with idNum := newId v.currentId }, now⟩ :: v.live, newId v.currentId⟩)
  | .deleteInvite idNum =>
    (.deleted (if v.live.any (·.request.idNum == idNum) then .success else .notHere),
      { v with live := v.live.filter (·.request.idNum != idNum) })
  | .findMatch request now => v.search ttl (fuzzyComp same request) now
  | .findRequest request now => v.search ttl (exactComp same request now) now

/-- The table and the answers, against those of the invitations. -/
structure Refines (s : State × List Reply) (v : Invitations × List Reply) : Prop where
  linked : ∃ ns, Chain s.1.heap s.1.table ns ∧ Back none ns ∧ entries ns = v.1.live
  untouched : s.1.wild = false
  distinct : (v.1.live.map fun e => e.request.idNum).Nodup
  nonzero : ∀ e ∈ v.1.live, e.request.idNum ≠ 0
  answers : s.2 = v.2

/-- An insertion when nothing is live, and a search when what is live was refreshed at most `ttl`
seconds before it, and not more than that after it. -/
def Timely (v : Invitations × List Reply) : Call → Prop
  | .insertTable _ _ _ => v.1.live = []
  | .deleteInvite _ => True
  | .findMatch _ now | .findRequest _ now => ∀ e ∈ v.1.live, now - e.time ≤ ttl ∧ e.time - now ≤ ttl

end

def Single (sv : (State × List Reply) × (Invitations × List Reply)) : Prop :=
  (∃ ns, Held sv.1.1 ns) ∧ sv.1.1.currentId = sv.2.1.currentId ∧ sv.2.1.live.length ≤ 1

section
variable {ttl now : ℤ} {same : Field → Field → Bool} {s : State × List Reply}
    {v : Invitations × List Reply}
  {comp : Entry → Option Entry}

theorem length_entries (ns : List (ℕ × Cell Entry)) : (entries ns).length = ns.length :=
  length_map ..

theorem Refines.held (h : Refines s v) (hs : ∃ ns, Held s.1 ns) :
    ∃ ns, Held s.1 ns ∧ entries ns = v.1.live := by
  obtain ⟨ns, hns⟩ := hs
  obtain ⟨ms, hms, -, hlive⟩ := h.linked
  obtain rfl := hns.chain.unique hms
  exact ⟨ns, hns, hlive⟩

variable {t : State} {request : CtlMsg}

theorem back_of_live {ns : List (ℕ × Cell Entry)} (h : Held t ns) (hlen : (entries ns).length ≤ 1) :
    Back none ns := (back_iff h.prevs).2 (length_entries ns ▸ hlen)

theorem refines_insert (hr : Refines s v) (hj : Single (s, v)) {ptr : ℕ}
    (hptr : s.1.heap ptr = none) :
    Refines (logged (call ttl same) s (.insertTable ptr request now))
      (logged (Invitations.call ttl same) v (.insertTable ptr request now)) ↔ v.1.live = [] := by
  obtain ⟨ns, hns, hlive⟩ := hr.held hj.1
  have hid : s.1.currentId = v.1.currentId := hj.2.1
  have hnew := held_insert hns hptr request now
  constructor
  · intro h
    obtain ⟨ms, hms, hback, -⟩ := h.linked
    obtain rfl := hnew.chain.unique hms
    have hone := (back_iff hnew.prevs).1 hback
    rw [← hlive, ← length_eq_zero_iff, length_entries]
    simpa using hone
  · intro hnil
    obtain rfl : ns = [] := by simpa [entries, hnil] using hlive
    refine ⟨⟨_, hnew.chain, back_of_live hnew (by simp), ?_⟩, hnew.sound, ?_, ?_, ?_⟩
    · simp [logged, Invitations.call, hnil, hid]
    · simp [logged, Invitations.call, hnil]
    · simp [logged, Invitations.call, hnil, newId_ne_zero]
    · simp [logged, Invitations.call, call, insertTable, hid, hr.answers]

theorem refines_delete (hr : Refines s v) (hj : Single (s, v)) (idNum : ℕ) :
    Refines (logged (call ttl same) s (.deleteInvite idNum))
      (logged (Invitations.call ttl same) v (.deleteInvite idNum)) := by
  obtain ⟨ns, hns, hlive⟩ := hr.held hj.1
  have hlen : (entries ns).length ≤ 1 := hlive ▸ hj.2.2
  have hids := hr.nonzero
  have hanswers := hr.answers
  rcases delete_cases hns idNum with ⟨heq, hne⟩ | ⟨l, a, c, r, rfl, -, hc, heq, hheld⟩
  · have hkeep : v.1.live.filter (·.request.idNum != idNum) = v.1.live :=
      filter_eq_self.2 fun e he => by simpa using hne e (hlive ▸ he)
    have hany : v.1.live.any (·.request.idNum == idNum) = false :=
      any_eq_false.2 fun e he => by simpa using hne e (hlive ▸ he)
    refine ⟨⟨ns, ?_, back_of_live hns hlen, ?_⟩, ?_, ?_, ?_, ?_⟩
    · simpa [logged, call, heq] using hns.chain
    · simp [logged, Invitations.call, hkeep, hlive]
    · simpa [logged, call, heq] using hns.sound
    · simpa [logged, Invitations.call, hkeep] using hr.distinct
    · simpa [logged, Invitations.call, hkeep] using hids
    · simp [logged, call, Invitations.call, heq, hany, hanswers]
  · obtain ⟨rfl, rfl⟩ : l = [] ∧ r = [] := by
      simp only [entries_append, entries_cons, length_append, length_cons, length_entries] at hlen
      exact ⟨length_eq_zero_iff.1 (by omega), length_eq_zero_iff.1 (by omega)⟩
    have hone : v.1.live = [c.entry] := by simpa using hlive.symm
    refine ⟨⟨[], ?_, trivial, ?_⟩, ?_, ?_, ?_, ?_⟩
    · simpa [logged, call, heq] using hheld.chain
    · simp [logged, Invitations.call, hone, hc]
    · simpa [logged, call, heq] using hheld.sound
    · simp [logged, Invitations.call, hone, hc]
    · simp [logged, Invitations.call, hone, hc]
    · simp [logged, call, Invitations.call, heq, hone, hc, hanswers]

theorem refines_search (hr : Refines s v) (hj : Single (s, v)) (hcomp : ∀ e e', comp e = some e' →
    e'.request = e.request) :
    Refines ((showing (lookupRequest ttl comp now s.1)).2,
      s.2 ++ [(showing (lookupRequest ttl comp now s.1)).1])
      ((v.1.search ttl comp now).2, v.2 ++ [(v.1.search ttl comp now).1]) ↔
      ∀ e ∈ v.1.live, now - e.time ≤ ttl ∧ e.time - now ≤ ttl := by
  obtain ⟨ns, hns, hlive⟩ := hr.held hj.1
  have hanswers := hr.answers
  rcases ns with - | ⟨⟨a, c⟩, ns⟩
  · have hnil : v.1.live = [] := hlive.symm
    have heq : lookupRequest ttl comp now s.1 = (none, s.1) := walk_none hns nofun
    refine iff_of_true ⟨⟨[], ?_, trivial, ?_⟩, ?_, ?_, ?_, ?_⟩ (by simp [hnil])
    · simpa [showing, heq] using hns.chain
    · simp [Invitations.search, hnil, touch]
    · simpa [showing, heq] using hns.sound
    · simp [Invitations.search, hnil, touch]
    · simp [Invitations.search, hnil, touch]
    · simp [showing, heq, Invitations.search, hnil, requestAt, hanswers]
  obtain rfl : ns = [] := by
    have hlen : (entries ((a, c) :: ns)).length ≤ 1 := hlive ▸ hj.2.2
    simpa [length_entries] using hlen
  have hone : v.1.live = [c.entry] := by simpa using hlive.symm
  by_cases hahead : c.entry.time - now > ttl
  · refine iff_of_false (fun h => ?_) (fun h => ?_)
    · have hwild : (lookupRequest ttl comp now s.1).2.wild = true := lookup_wild comp hns hahead
      have hsound : (lookupRequest ttl comp now s.1).2.wild = false := h.untouched
      simp [hwild] at hsound
    · have := (h c.entry (by simp [hone])).2
      omega
  -- what the code keeps is the entry, whatever its age
  obtain ⟨d, hheld, hd, hreply⟩ : ∃ d, Held (lookupRequest ttl comp now s.1).2 [(a, d)] ∧
      [d.entry] = touch comp [c.entry] ∧ (showing (lookupRequest ttl comp now s.1)).1 =
        .found (([c.entry].findSome? comp).map Entry.request) := by
    rcases lookup_cases comp hns (by simpa [met] using hahead) with
      ⟨heq, hnone⟩ | ⟨l, b, d, r, e, hsplit, -, he, heq⟩
    · have hnone : comp c.entry = none := hnone c.entry (by simp)
      exact ⟨c, by simpa [heq] using
        hns, by simp [touch, hnone], by simp [showing, heq, requestAt, hnone]⟩
    · obtain ⟨rfl, hbd, rfl⟩ : l = [] ∧ (b, d) = (a, c) ∧ r = [] := by
        rcases l with - | ⟨x, l⟩ <;> simp_all
      obtain ⟨rfl, rfl⟩ := Prod.mk.inj hbd
      refine ⟨{ d with entry := e }, ?_, by simp [touch, he], ?_⟩
      · rw [heq]
        exact held_setEntry (l := []) hns e
      · simp [showing, heq, requestAt, he]
  have hafter := hheld.chain
  rw [hone, forall_mem_singleton, and_iff_left (by omega)]
  constructor
  · intro h
    obtain ⟨ms, hms, -, hlive'⟩ := h.linked
    obtain rfl := hafter.unique hms
    by_contra hold
    simp [Invitations.search, hone, fresh, hold, touch] at hlive'
  · intro hfresh
    have hfilter : v.1.live.filter (fresh ttl now) = [c.entry] := by simp [hone, fresh, hfresh]
    have hreq : d.entry.request = c.entry.request := by
      rcases he : comp c.entry with - | e
      · simp [touch, he] at hd
        rw [hd]
      · simp [touch, he] at hd
        rw [hd, hcomp _ _ he]
    have hids := hr.nonzero
    rw [hone] at hids
    refine ⟨⟨_, hafter, back_of_live hheld (by simp), ?_⟩, hheld.sound, ?_, ?_, ?_⟩
    · simp [Invitations.search, hfilter, ← hd]
    · simp [Invitations.search, hfilter, ← hd]
    · simpa [Invitations.search, hfilter, ← hd, hreq] using hids
    · simp [hreply, Invitations.search, hfilter, hanswers]

theorem fuzzyComp_request {e e' : Entry} (h : fuzzyComp same request e = some e') :
    e'.request = e.request := by
  unfold fuzzyComp at h
  split_ifs at h with hmatch
  rw [← Option.some.inj h]

theorem exactComp_request {e e' : Entry} (h : exactComp same request now e = some e') :
    e'.request = e.request := by
  unfold exactComp at h
  split_ifs at h with hmatch
  rw [← Option.some.inj h]

theorem refines_step (hr : Refines s v) (hj : Single (s, v)) {a : Call} (ha : Malloc s a) :
    Refines (logged (call ttl same) s a) (logged (Invitations.call ttl same) v a) ↔
    Timely ttl v a := by
  cases a with
  | insertTable ptr request now => exact refines_insert hr hj ha
  | deleteInvite idNum => exact iff_of_true (refines_delete hr hj idNum) trivial
  | findMatch request now => exact refines_search hr hj fun _ _ => fuzzyComp_request
  | findRequest request now => exact refines_search hr hj fun _ _ => exactComp_request

theorem length_touch (l : List Entry) : (touch comp l).length = l.length := by
  induction l with
  | nil => rfl
  | cons e l ih =>
    unfold touch
    split
    · rfl
    · simp [ih]

theorem held_lookup {ns : List (ℕ × Cell Entry)} (h : Held t ns)
    (hahead : ∀ e ∈ met comp (entries ns), e.time - now ≤ ttl) :
    ∃ ms, Held (lookupRequest ttl comp now t).2 ms := by
  rcases lookup_cases comp h hahead with ⟨heq, -⟩ | ⟨l, a, c, r, e, rfl, -, -, heq⟩
  · exact ⟨ns, by simpa [heq] using h⟩
  · exact ⟨_, by rw [heq]; exact held_setEntry h e⟩

theorem lookup_currentId {ns : List (ℕ × Cell Entry)} (h : Held t ns)
    (hahead : ∀ e ∈ met comp (entries ns), e.time - now ≤ ttl) :
    (lookupRequest ttl comp now t).2.currentId = t.currentId := by
  rcases lookup_cases comp h hahead with ⟨heq, -⟩ | ⟨l, a, c, r, e, rfl, -, -, heq⟩ <;> rw [heq]

theorem single_search (hr : Refines s v) (hj : Single (s, v))
    (h : ∀ e ∈ v.1.live, now - e.time ≤ ttl ∧ e.time - now ≤ ttl) (la lb : List Reply) :
    Single (((showing (lookupRequest ttl comp now s.1)).2, la),
      ((v.1.search ttl comp now).2, lb)) := by
  obtain ⟨ns, hns, hlive⟩ := hr.held hj.1
  have hahead : ∀ e ∈ met comp (entries ns), e.time - now ≤ ttl :=
    fun e he => (h e (hlive ▸ mem_of_mem_met he)).2
  refine ⟨held_lookup hns hahead, (lookup_currentId hns hahead).trans hj.2.1, ?_⟩
  have hfilter := length_filter_le (fresh ttl now) v.1.live
  have hone : v.1.live.length ≤ 1 := hj.2.2
  simp only [Invitations.search, length_touch]
  omega

theorem single_step (hr : Refines s v) (hj : Single (s, v)) {a : Call} (ha : Malloc s a)
    (ht : Timely ttl v a) :
    Single (logged (call ttl same) s a, logged (Invitations.call ttl same) v a) := by
  cases a with
  | insertTable ptr request now =>
    obtain ⟨ns, hns⟩ := hj.1
    have hnil : v.1.live = [] := ht
    have hid : s.1.currentId = v.1.currentId := hj.2.1
    exact ⟨⟨_, held_insert hns ha request now⟩,
      congrArg newId hid, by simp [logged, Invitations.call, hnil]⟩
  | deleteInvite idNum =>
    obtain ⟨ns, hns, hlive⟩ := hr.held hj.1
    have hlen : (v.1.live.filter (·.request.idNum != idNum)).length ≤ 1 :=
      Nat.le_trans (length_filter_le ..) hj.2.2
    rcases delete_cases hns idNum with ⟨heq, -⟩ | ⟨l, a, c, r, rfl, -, -, heq, hheld⟩
    · exact ⟨⟨ns, by simpa [logged, call, heq] using hns⟩, by simpa [logged, call, Invitations.call,
        heq] using hj.2.1, hlen⟩
    · refine ⟨⟨r, by simpa [logged, call, heq] using hheld⟩, ?_, hlen⟩
      simpa [logged, call, Invitations.call, heq, tableDelete_eq hns] using hj.2.1
  | findMatch request now => exact single_search hr hj ht ..
  | findRequest request now => exact single_search hr hj ht ..

theorem refines_within {l : List Call} (h : Allowed (logged (call ttl same)) Malloc (start, []) l) :
    (∀ l', l' <+: l →
      Refines (run (logged (call ttl same)) (start, []) l')
        (run (logged (Invitations.call ttl same)) (⟨[], 0⟩, []) l')) ↔
      Allowed (logged (Invitations.call ttl same)) (Timely ttl) (⟨[], 0⟩, []) l := by
  have hstart : Refines (start, []) (⟨[], 0⟩, []) :=
    ⟨⟨[], rfl, trivial, rfl⟩, rfl, nodup_nil, nofun, rfl⟩
  have hsingle : Single ((start, []), (⟨[], 0⟩, [])) := ⟨⟨[], held_start⟩, rfl, Nat.zero_le _⟩
  have hstep : ∀ (sv : (State × List Reply) × (Invitations × List Reply)) (a : Call),
    Malloc sv.1 a →
      Refines sv.1 sv.2 → Single sv →
        (Refines (logged (call ttl same) sv.1 a) (logged (Invitations.call ttl same) sv.2 a) ↔
          Timely ttl sv.2 a) :=
    fun sv a ha hr hj => refines_step hr hj ha
  have hkeep : ∀ (sv : (State × List Reply) × (Invitations × List Reply)) (a : Call),
    Malloc sv.1 a →
      Refines sv.1 sv.2 → Single sv → Timely ttl sv.2 a →
        Single (logged (call ttl same) sv.1 a, logged (Invitations.call ttl same) sv.2 a) :=
    fun sv a ha hr hj => single_step hr hj ha
  have hboth : (∀ l', l' <+: l →
      (fun sv => Refines sv.1 sv.2)
      (run (both (logged (call ttl same)) (logged (Invitations.call ttl same))) _ l')) ↔
      Allowed (both (logged (call ttl same)) (logged (Invitations.call ttl same))) (fun sv a =>
        Timely ttl sv.2 a) _ l :=
    inv_iff_allowed_within (I := fun sv => Refines sv.1 sv.2) hstep hkeep hstart hsingle
      ((allowed_both_left l _ _).2 h)
  rw [allowed_both_right] at hboth
  rw [← hboth]
  simp only [run_both]

end

/-- **The table is a list of timed invitations** in every state of a run, just in case each call is
timely. -/
theorem refines_iff (ttl : ℤ) (same : Field → Field → Bool) (l : List Call)
    (h : Allowed (logged (call ttl same)) Malloc (start, []) l) :
    (∀ l', l' <+: l →
      Refines (run (logged (call ttl same)) (start, []) l')
        (run (logged (Invitations.call ttl same)) (⟨[], 0⟩, []) l')) ↔
      Allowed (logged (Invitations.call ttl same)) (Timely ttl) (⟨[], 0⟩, []) l :=
  refines_within h

/-! ### Two invitations -/

/-- An invitation of `a` for `b`. -/
def invite : CtlMsg := ⟨1, .leaveInvite, 0, ⟨2, []⟩, ⟨2, []⟩, 7, [97, 0], [98, 0], [0]⟩

/-- One that is found after 5 seconds, and deleted by its id. -/
theorem refines_found : Refines
    (run (logged (call 60 (· == ·))) (start, [])
      [.insertTable 1 invite 0, .findRequest invite 5, .deleteInvite 1])
    (run (logged (Invitations.call 60 (· == ·))) (⟨[], 0⟩, [])
      [.insertTable 1 invite 0, .findRequest invite 5, .deleteInvite 1]) := by
  have hmalloc : Allowed (logged (call 60 (· == ·))) Malloc (start, [])
      [.insertTable 1 invite 0, .findRequest invite 5, .deleteInvite 1] :=
        ⟨rfl, trivial, trivial, trivial⟩
  refine (refines_iff 60 (· == ·) _ hmalloc).2 ⟨rfl, ?_, trivial, trivial⟩ _ prefix_rfl
  intro e he
  obtain rfl := mem_singleton.1 he
  decide

/-- After two insertions the list is not linked back. -/
theorem not_refines_two : ¬ ∀ l', l' <+: [.insertTable 1 invite 0, .insertTable 2 invite 0] →
    Refines (run (logged (call 60 (· == ·))) (start, []) l')
      (run (logged (Invitations.call 60 (· == ·))) (⟨[], 0⟩, []) l') := by
  intro h
  have hmalloc : Allowed (logged (call 60 (· == ·))) Malloc (start, [])
      [.insertTable 1 invite 0, .insertTable 2 invite 0] := ⟨rfl, rfl, trivial⟩
  have hempty := ((refines_within hmalloc).1 h).2.1
  exact cons_ne_nil _ _ hempty

end Inetutils.Talkd.Table
