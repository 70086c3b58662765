import Inetutils.Lib.Exchange
import Inetutils.Rcp.Records

/-! # The two ends of rcp

`source` and `rsource` of `src/rcp.c` at one end of a connection and `sink` at the other. `source`
reads one response for a record and one for the body of a file, and none for an error of its own;
`sink` writes a null byte or an error where the code does. The items of a tree carry what becomes of
them at either end, and a record takes along what the calls of `sink` for it give. Items and
responses are on the way in any order (`Inetutils.Lib.Exchange`).

Memory for a name is there, and `verifydir` finds the directory that was made. -/

namespace Inetutils.Rcp.Copy

open Lib.Exchange Records List

/-- `-p` and `-r`, at both ends. -/
structure Flags where
  preserve : Bool
  recursive : Bool

/-- What the calls of `sink` for a record give: `stat`, and whether it is a directory, `open` or
`mkdir`, `allocbuf`, `write`, `ftruncate`, `fchmod` and `utimes`. -/
structure Local where
  stat : Option Bool
  make : Bool
  alloc : Bool
  write : Bool
  ftruncate : Bool
  fchmod : Bool
  utimes : Bool

/-- What `source` sends: a record, an error, a body by its length, and the null byte behind it. -/
inductive Token
  | line (l : Text) (o : Local)
  | error
  | body (size : ℕ)
  | ok

variable {next : Client Token}

/-- A response, with the number of the record that it is for, and whether it is for the body that
follows. -/
structure Resp where
  line : ℕ
  body : Bool
  ok : Bool

/-! ### `sink` -/

structure Entry where
  mode : ℕ
  size : ℕ
  o : Local

inductive Phase
  | record
  | body (e : Entry)
  | status (e : Entry)
  | exited

/-- `outer` are the calls of `sink` that wait for the innermost one, with `setimes` and the
directory it is for. -/
structure Sink where
  phase : Phase
  setimes : Bool
  outer : List (Bool × Local)
  lines : ℕ
  inStep : Bool

def Sink.lost (k : Sink) : Sink := { k with phase := .exited, inStep := false }

def Sink.answer (k : Sink) (ok : Bool) : Resp := ⟨k.lines, false, ok⟩

def Sink.bodyAnswer (k : Sink) (ok : Bool) : Resp := ⟨k.lines, true, ok⟩

/-- `omode != mode`: the owner may not write. -/
def Entry.readOnly (e : Entry) : Bool := e.mode / 128 % 2 = 0

/-- `fchmod` is called. -/
def Entry.setsMode (F : Flags) (e : Entry) : Bool :=
  if F.preserve then e.o.stat.isSome || e.readOnly else !e.o.stat.isSome && e.readOnly

inductive Wrerr
  | yes
  | no
  | displayed
  deriving DecidableEq

/-- `wrerr` after `ftruncate`. -/
def Entry.wrerr (e : Entry) : Wrerr :=
  if !e.o.ftruncate then .displayed else if 0 < e.size ∧ !e.o.write then .yes else .no

/-- The errors between the body and `response`. -/
def Sink.written (F : Flags) (k : Sink) (e : Entry) : List Resp :=
  (if e.o.ftruncate then [] else [k.bodyAnswer false]) ++
    (if e.setsMode F && !e.o.fchmod then [k.bodyAnswer false] else [])

/-- `utimes` is called. -/
def Sink.setsTimes (k : Sink) (e : Entry) : Bool := k.setimes && e.wrerr = .no

/-- What follows `response`. -/
def Sink.finished (k : Sink) (e : Entry) : List Resp :=
  match e.wrerr with
  | .yes => [k.bodyAnswer false]
  | .displayed => []
  | .no => [k.bodyAnswer (!k.setsTimes e || e.o.utimes)]

def sinkFile (F : Flags) (k : Sink) (mode : ℕ) (size : ℤ) (o : Local) : Sink × List Resp :=
  if !o.make then (k, [k.answer false])
  else if !o.alloc then (k, [k.answer true, k.answer false])
  else if 0 < size then ({ k with phase := .body ⟨mode, size.toNat, o⟩ }, [k.answer true])
  else ({ k with phase := .status ⟨mode, 0, o⟩ }, k.answer true :: k.written F ⟨mode, 0, o⟩)

def Local.enters (o : Local) : Bool :=
  match o.stat with
  | some isDir => isDir
  | none => o.make

def sinkDir (k : Sink) (o : Local) : Sink × List Resp :=
  if o.enters then
    ({ k with setimes := false, outer := (k.setimes, o) :: k.outer }, [k.answer true])
  else (k, [k.answer false])

/-- `E`: the innermost call returns. -/
def sinkStop (k : Sink) : Sink × List Resp :=
  match k.outer with
  | [] => ({ k with phase := .exited }, [k.answer true])
  | (setimes, o) :: outer =>
    ({ k with setimes := false, outer := outer },
      k.answer true :: if setimes && !o.utimes then [k.answer false] else [])

def sinkRecord (F : Flags) (k : Sink) (r : Record) (o : Local) : Sink × List Resp :=
  match r with
  | .times _ _ => ({ k with setimes := true }, [k.answer true])
  | .stop => sinkStop k
  | .file mode size => sinkFile F k mode size o
  | .dir _ => sinkDir k o
  | .screwup => (k.lost, [k.answer false])

def sink (F : Flags) (k : Sink) (t : Token) : Sink × List Resp :=
  match k.phase, t with
  | .record, .line l o => sinkRecord F { k with lines := k.lines + 1 } (parse l) o
  | .record, .error => (k, [])
  | .body e, .body size =>
    if size = e.size then ({ k with phase := .status e }, k.written F e) else (k.lost, [])
  | .status e, .ok =>
    ({ k with phase := .record, setimes := k.setimes && !k.setsTimes e }, k.finished e)
  | .status e, .error =>
    ({ k with phase := .record, setimes := k.setimes && !k.setsTimes e }, k.finished e)
  | _, _ => (k.lost, [])

/-! ### `source` -/

abbrev Name := { l : Text // 10 ∉ l }

/-- A file that `source` opens: `st_size`, whether `allocbuf` succeeds, and whether the file is read
and closed without an error. -/
structure File where
  name : Name
  mode : ℕ
  size : ℕ
  mtime : Time
  atime : Time
  alloc : Bool
  read : Bool
  o : Local

structure Dir where
  name : Name
  mode : ℕ
  mtime : Time
  atime : Time
  opendir : Bool
  o : Local

/-- The names that `source` is called for, one after the other; for `error` it is neither a file nor
a directory, or cannot be opened. -/
inductive Items
  | nil
  | error (rest : Items)
  | file (f : File) (rest : Items)
  | dir (d : Dir) (contents rest : Items)

def times (F : Flags) (mtime atime : Time) (o : Local) (good bad : Client Token) : Client Token :=
  if F.preserve then .send (.line (statTime mtime atime) o) (.await good bad) else good

def status (read : Bool) : Token := if read then .ok else .error

def sourceBody (f : File) (next : Client Token) : Client Token :=
  if !f.alloc then .send .error next
  else if 0 < f.size then .send (.body f.size) (.send (status f.read) (.await next next))
  else .send (status f.read) (.await next next)

def sourceFile (F : Flags) (f : File) (next : Client Token) : Client Token :=
  times F f.mtime f.atime f.o
    (.send (.line (fileRecord f.mode f.size f.name) f.o) (.await (sourceBody f next) next)) next

def rsource (F : Flags) (d : Dir) (contents : Client Token → Client Token) (next : Client Token) :
    Client Token :=
  if !d.opendir then .send .error next
  else times F d.mtime d.atime d.o
    (.send (.line (dirRecord d.mode d.name) d.o)
      (.await (contents (.send (.line endRecord d.o) (.await next next))) next)) next

def source (F : Flags) : Items → Client Token → Client Token
  | .nil, next => next
  | .error rest, next => .send .error (source F rest next)
  | .file f rest, next => sourceFile F f (source F rest next)
  | .dir d contents rest, next =>
    if F.recursive then rsource F d (source F contents) (source F rest next)
    else .send .error (source F rest next)

/-! ### The two together -/

def Token.isLine : Token → Bool
  | .line _ _ => true
  | _ => false

def lines (sent : List Token) : ℕ := sent.countP Token.isLine

/-- The response is for the last record, or for the body when something was sent behind it. -/
def fits (sent : List Token) (r : Resp) : Bool :=
  r.line = lines sent ∧ r.body = (sent.getLast?.map fun t => !t.isLine).getD false

theorem inStep_of_sink (F : Flags) (k : Sink) (t : Token) (h : (sink F k t).1.inStep) :
    k.inStep := by
  unfold sink at h
  split at h
  · unfold sinkRecord sinkStop sinkFile sinkDir at h
    split at h
    · exact h
    · split at h <;> exact h
    · split at h
      · exact h
      split at h
      · exact h
      split at h <;> exact h
    · split at h <;> exact h
    · exact absurd h Bool.false_ne_true
  · exact h
  · split at h
    · exact h
    · exact absurd h Bool.false_ne_true
  · exact h
  · exact h
  · exact absurd h Bool.false_ne_true

def rules (F : Flags) : Rules Sink Token Resp where
  serve := sink F
  good := Resp.ok
  fits := fits
  sound := Sink.inStep
  sound_of_serve := inStep_of_sink F

/-- `sink` has written its first null byte, and `source` reads it before it begins. -/
def start (F : Flags) (l : Items) : Sys Sink Token Resp :=
  ⟨.await (source F l .done) .done, [], [], ⟨.record, false, [], 0, true⟩, [⟨0, false, true⟩], true⟩

/-! ### The condition -/

def Dated (F : Flags) (mtime atime : Time) : Prop := F.preserve → 0 ≤ mtime.sec ∧ 0 ≤ atime.sec

/-- A file that `sink` opens has its buffers, a size that is an `int`, and a mode that can be
set. -/
def File.Answered (F : Flags) (f : File) : Prop :=
  Dated F f.mtime f.atime ∧ (f.o.make → f.o.alloc ∧ f.alloc ∧ f.size < 2 ^ 31 ∧
    (Entry.setsMode F ⟨f.mode % 4096, f.size, f.o⟩ → f.o.fchmod))

/-- **Every item is answered once.** -/
def Answered (F : Flags) : Items → Prop
  | .nil => True
  | .error rest => Answered F rest
  | .file f rest => f.Answered F ∧ Answered F rest
  | .dir d contents rest =>
    (F.recursive → d.opendir → Dated F d.mtime d.atime ∧
      (d.o.enters → Answered F contents ∧ (F.preserve → d.o.utimes))) ∧ Answered F rest

/-! ### A response too many -/

section
variable {F : Flags}

theorem lines_append (sent : List Token) (t : Token) :
    lines (sent ++ [t]) = lines sent + if t.isLine then 1 else 0 := by
  unfold lines
  rw [countP_append, countP_singleton]

theorem fits_line (sent : List Token) (l : Text) (o : Local) (r : Resp) :
    fits (sent ++ [.line l o]) r ↔ r.line = lines sent + 1 ∧ r.body = false := by
  unfold fits
  rw [lines_append, getLast?_concat, decide_eq_true_iff]
  rfl

variable {t : Token} {n : ℕ} {e : Entry}

theorem fits_status (sent : List Token) (ht : t.isLine = false) (r : Resp) :
    fits (sent ++ [t]) r ↔ r.line = lines sent ∧ r.body = true := by
  unfold fits
  rw [lines_append, getLast?_concat, decide_eq_true_iff]
  show r.line = lines sent + (if t.isLine then 1 else 0) ∧ r.body = !t.isLine ↔ _
  rw [ht]
  rfl

/-- With a response that no one reads for what it is, the rest of the program is out of step. -/
def Stuck (F : Flags) (n : ℕ) (p : Client Token) : Prop :=
  ∀ (k : Sink) (sent : List Token) (r : Resp) (back : List Resp),
    r.line ≤ n → n ≤ lines sent → ¬ (rules F).Runs p k sent (r :: back)

theorem stuck_done (n : ℕ) : Stuck F n .done := fun _ _ _ _ _ _ h => cons_ne_nil _ _ h.2

theorem stuck_send {p : Client Token} (h : Stuck F n p) (t : Token) : Stuck F n (.send t p) := by
  intro k sent r back hr hn
  refine h _ _ r _ hr ?_
  rw [lines_append]
  omega

theorem stuck_line (n : ℕ) (l : Text) (o : Local) (a b : Client Token) :
    Stuck F n (.send (.line l o) (.await a b)) := by
  intro k sent r back hr hn h
  have hfits := ((fits_line sent l o r).1 h.1).1
  omega

theorem stuck_times (mtime atime : Time) (l : Text) (o o' : Local) (a b bad : Client Token) :
    Stuck F n (times F mtime atime o (.send (.line l o') (.await a b)) bad) := by
  unfold times
  split
  · exact stuck_line n _ _ _ _
  · exact stuck_line n _ _ _ _

theorem stuck_source (h : Stuck F n next) : ∀ l : Items, Stuck F n (source F l next)
  | .nil => h
  | .error rest => stuck_send (stuck_source h rest) _
  | .file f rest => stuck_times _ _ _ _ _ _ _ _
  | .dir d contents rest => by
    rw [source]
    split
    · unfold rsource
      split
      · exact stuck_send (stuck_source h rest) _
      · exact stuck_times _ _ _ _ _ _ _ _
    · exact stuck_send (stuck_source h rest) _

/-! ### A record -/

theorem runs_send (t : Token) (p : Client Token) (k : Sink) (sent : List Token) (back : List Resp) :
    (rules F).Runs (.send t p) k sent back ↔
      (rules F).Runs p (sink F k t).1 (sent ++ [t]) (back ++ (sink F k t).2) := Iff.rfl

/-- `sink` has taken everything for what it is, and is in the phase `p`. -/
structure At (F : Flags) (p : Phase) (outer : List (Bool × Local)) (k : Sink) (sent : List Token) :
    Prop where
  phase : k.phase = p
  inStep : k.inStep = true
  lines : k.lines = lines sent
  outer : k.outer = outer
  setimes : k.setimes → F.preserve

/-- `sink` waits for a record. -/
abbrev Ready (F : Flags) (outer : List (Bool × Local)) (k : Sink) (sent : List Token) : Prop :=
  At F .record outer k sent

variable {outer : List (Bool × Local)} {k : Sink} {sent : List Token}

theorem Ready.sink_line (h : Ready F outer k sent) (l : Text) (o : Local) :
    sink F k (.line l o) = sinkRecord F { k with lines := k.lines + 1 } (parse l) o := by
  unfold sink
  rw [h.phase]

theorem Ready.sink_error (h : Ready F outer k sent) : sink F k .error = (k, []) := by
  unfold sink
  rw [h.phase]

theorem Ready.error (h : Ready F outer k sent) : Ready F outer k (sent ++ [.error]) := by
  refine ⟨h.phase, h.inStep, ?_, h.outer, h.setimes⟩
  rw [h.lines, lines_append]
  rfl

theorem Ready.runs_error (h : Ready F outer k sent) (p : Client Token) :
    (rules F).Runs (.send .error p) k sent [] ↔ (rules F).Runs p k (sent ++ [.error]) [] := by
  rw [runs_send, h.sink_error]
  rfl

theorem runs_answered {l : Text} {o : Local} {k' : Sink} {good : Bool} (h : Ready F outer k sent)
    (hk : sinkRecord F { k with lines := k.lines + 1 } (parse l) o =
      (k', [⟨k.lines + 1, false, good⟩]))
    (a b : Client Token) :
    (rules F).Runs (.send (.line l o) (.await a b)) k sent [] ↔
      (rules F).Runs (if good then a else b) k' (sent ++ [.line l o]) [] := by
  rw [runs_send, h.sink_line, hk]
  refine (Rules.runs_await (rules F)).trans ⟨fun hr => hr.2, fun hr => ⟨?_, hr⟩⟩
  exact (fits_line sent l o _).2 ⟨congrArg (· + 1) h.lines, rfl⟩

theorem runs_times (h : Ready F outer k sent) (mtime atime : Time) (o : Local)
    (good bad : Client Token) :
    ∃ k' sent', Ready F outer k' sent' ∧ (k'.setimes ↔ F.preserve) ∧
      ((rules F).Runs (times F mtime atime o good bad) k sent [] ↔
        Dated F mtime atime ∧ (rules F).Runs good k' sent' []) := by
  unfold times Dated
  by_cases hp : F.preserve
  · rw [if_pos hp]
    by_cases hd : 0 ≤ mtime.sec ∧ 0 ≤ atime.sec
    · refine ⟨{ k with lines := k.lines + 1, setimes := true },
        sent ++ [.line (statTime mtime atime) o], ?_, ?_, ?_⟩
      · refine ⟨h.phase, h.inStep, ?_, h.outer, fun _ => hp⟩
        rw [lines_append, ← h.lines]
        rfl
      · exact iff_of_true rfl hp
      · have hk : sinkRecord F { k with lines := k.lines + 1 } (parse (statTime mtime atime)) o =
            ({ k with lines := k.lines + 1, setimes := true }, [⟨k.lines + 1, false, true⟩]) := by
          rw [parse_statTime hd.1 hd.2]
          rfl
        rw [runs_answered h hk, if_pos rfl]
        exact ⟨fun hr => ⟨fun _ => hd, hr⟩, fun hr => hr.2⟩
    · refine ⟨{ k with setimes := true }, sent, ⟨h.phase, h.inStep, h.lines, h.outer, fun _ => hp⟩,
        iff_of_true rfl hp,
        iff_of_false (fun hr => ?_) fun hr => hd (hr.1 hp)⟩
      have hneg : mtime.sec < 0 ∨ atime.sec < 0 := by omega
      rw [runs_send] at hr
      have hsound := Rules.Runs.sound (rules F) hr
      have hlost : (sink F k (.line (statTime mtime atime) o)).1.inStep = false := by
        rw [h.sink_line, parse_statTime_neg hneg]
        rfl
      exact Bool.false_ne_true (hlost.symm.trans hsound)
  · rw [if_neg hp]
    have hs : ¬ k.setimes := fun hs => hp (h.setimes hs)
    exact ⟨k, sent, h, iff_of_false hs hp, fun hr => ⟨fun hp' => absurd hp' hp, hr⟩, fun hr => hr.2⟩

/-! ### A file -/

theorem finished_eq (k : Sink) (e : Entry) :
    k.written F e ++ k.finished e =
      (if e.setsMode F && !e.o.fchmod then [k.bodyAnswer false] else []) ++
        [k.bodyAnswer (e.wrerr = .no && (!k.setsTimes e || e.o.utimes))] ∨
    k.written F e ++ k.finished e =
      k.bodyAnswer false :: (if e.setsMode F && !e.o.fchmod then [k.bodyAnswer false] else []) := by
  unfold Sink.written Sink.finished
  by_cases ht : e.o.ftruncate
  · refine .inl ?_
    rw [if_pos ht, nil_append]
    rcases hw : e.wrerr with - | - | -
    · rfl
    · rfl
    · unfold Entry.wrerr at hw
      rw [ht] at hw
      split at hw
      · exact absurd ‹_› Bool.false_ne_true
      · split at hw <;> exact absurd hw (by decide)
  · refine .inr ?_
    have hw : e.wrerr = .displayed := by
      unfold Entry.wrerr
      rw [if_pos (by simpa using ht)]
    rw [if_neg ht, hw]
    simp

theorem answers_of_fchmod (k : Sink) (h : e.setsMode F → e.o.fchmod) :
    ∃ good, k.written F e ++ k.finished e = [k.bodyAnswer good] := by
  have hnone : (e.setsMode F && !e.o.fchmod) = false := by
    rcases hm : e.setsMode F with - | -
    · rfl
    · rw [h hm]
      rfl
  rcases finished_eq (F := F) k e with heq | heq
  · rw [hnone] at heq
    exact ⟨_, heq⟩
  · rw [hnone] at heq
    exact ⟨_, heq⟩

theorem answers_of_not_fchmod (k : Sink) (h : ¬ (e.setsMode F → e.o.fchmod)) :
    ∃ good good', k.written F e ++ k.finished e = [k.bodyAnswer good, k.bodyAnswer good'] := by
  have hmode : (e.setsMode F && !e.o.fchmod) = true := by
    rcases hm : e.setsMode F with - | -
    · exact absurd (fun hm' => absurd (hm.symm.trans hm') Bool.false_ne_true) h
    · rcases hf : e.o.fchmod with - | -
      · rfl
      · exact absurd (fun _ => hf) h
  rcases finished_eq (F := F) k e with heq | heq
  · rw [hmode] at heq
    exact ⟨_, _, heq⟩
  · rw [hmode] at heq
    exact ⟨_, _, heq⟩

theorem answers_ne_nil (k : Sink) (e : Entry) :
    ∃ good back, k.written F e ++ k.finished e = k.bodyAnswer good :: back := by
  by_cases h : e.setsMode F → e.o.fchmod
  · obtain ⟨good, heq⟩ := answers_of_fchmod k h
    exact ⟨good, [], heq⟩
  · obtain ⟨good, good', heq⟩ := answers_of_not_fchmod k h
    exact ⟨good, [k.bodyAnswer good'], heq⟩

/-- What `sink` is like after a file. -/
def Sink.after (k : Sink) (e : Entry) : Sink :=
  { k with phase := .record, setimes := k.setimes && !k.setsTimes e }

theorem after_ready (h : At F (.status e) outer k sent) (ht : t.isLine = false) :
    Ready F outer (k.after e) (sent ++ [t]) := by
  refine ⟨rfl, h.inStep, ?_, h.outer, fun hs => h.setimes (Bool.and_eq_true_iff.1 hs).1⟩
  rw [lines_append, ht]
  exact h.lines

theorem sink_status (h : At F (.status e) outer k sent) (read : Bool) :
    sink F k (status read) = (k.after e, k.finished e) := by
  unfold sink
  rw [h.phase]
  rcases read with - | - <;> rfl

theorem isLine_status (read : Bool) : (status read).isLine = false := by
  rcases read with - | - <;> rfl

variable {C : Prop}
    (hnext : ∀ k' sent', Ready F outer k' sent' → ((rules F).Runs next k' sent' [] ↔ C))
  (hstuck : ∀ n, Stuck F n next)

include hnext hstuck in
theorem runs_status {e : Entry} (h : At F (.status e) outer k sent) (read : Bool) :
    (rules F).Runs (.send (status read) (.await next next)) k sent (k.written F e) ↔
      (e.setsMode F → e.o.fchmod) ∧ C := by
  have hready := after_ready h (isLine_status read)
  have hfits : ∀ good, fits (sent ++ [status read]) (k.bodyAnswer good) := fun good =>
    (fits_status sent (isLine_status read) _).2 ⟨h.lines, rfl⟩
  rw [runs_send, sink_status h]
  by_cases hm : e.setsMode F → e.o.fchmod
  · obtain ⟨good, heq⟩ := answers_of_fchmod k hm
    rw [heq, Rules.runs_await, Rules.next, ite_self]
    rw [hnext _ _ hready]
    exact ⟨fun hr => ⟨hm, hr.2⟩, fun hr => ⟨hfits good, hr.2⟩⟩
  · obtain ⟨good, good', heq⟩ := answers_of_not_fchmod k hm
    refine iff_of_false (fun hr => ?_) fun hr => hm hr.1
    rw [heq, Rules.runs_await, Rules.next, ite_self] at hr
    refine hstuck k.lines _ _ _ _ le_rfl ?_ hr.2
    rw [← hready.lines]
    exact le_rfl

theorem not_runs_unsent (h : At F (.status e) outer k sent) (hstuck : ∀ n, Stuck F n next) :
    ¬ (rules F).Runs (.send .error next) k sent (k.written F e) := by
  have hstatus : sink F k .error = (k.after e, k.finished e) := sink_status h false
  obtain ⟨good, back, heq⟩ := answers_ne_nil (F := F) k e
  intro hr
  rw [runs_send, hstatus, heq] at hr
  refine hstuck k.lines _ _ _ _ le_rfl ?_ hr
  rw [lines_append, h.lines]
  exact Nat.le_add_right _ _

theorem not_runs_unwritten {f : File} {r : Resp} (hr : r.line ≤ lines sent) (hbody : r.body = false)
    (hstuck : ∀ n, Stuck F n next) (k : Sink) :
    ¬ (rules F).Runs (sourceBody f next) k sent [r] := by
  have hstatus : ∀ (k' : Sink) (sent' : List Token) (back : List Resp),
      ¬ (rules F).Runs (.send (status f.read) (.await next next)) k' sent' (r :: back) := by
    intro k' sent' back h
    have hfits := ((fits_status sent' (isLine_status f.read) r).1 h.1).2
    exact Bool.false_ne_true (hbody.symm.trans hfits)
  unfold sourceBody
  split
  · exact stuck_send (hstuck (lines sent)) _ k sent r [] hr le_rfl
  split
  · exact hstatus _ _ _
  · exact hstatus _ _ _

theorem not_runs_of_lost (h : (sink F k t).1.inStep = false) (p : Client Token) (back : List Resp) :
    ¬ (rules F).Runs (.send t p) k sent back := by
  intro hr
  rw [runs_send] at hr
  have hsound : (sink F k t).1.inStep = true := Rules.Runs.sound (rules F) hr
  exact Bool.false_ne_true (h.symm.trans hsound)

include hnext hstuck in
theorem runs_sourceBody {f : File} {mode size : ℕ}
    (h : At F (.body ⟨mode, size, f.o⟩) outer k sent) (hpos : 0 < size)
    (hsize : wrap f.size = size) :
    (rules F).Runs (sourceBody f next) k sent [] ↔
      (f.alloc ∧ f.size < 2 ^ 31 ∧ (Entry.setsMode F ⟨mode, f.size, f.o⟩ → f.o.fchmod)) ∧ C := by
  unfold sourceBody
  by_cases ha : f.alloc
  · have hfpos : 0 < f.size := by
      rcases Nat.eq_zero_or_pos f.size with h0 | h0
      · rw [h0] at hsize
        have hzero : wrap 0 = 0 := by decide
        omega
      · exact h0
    rw [ha, if_neg (by decide), if_pos hfpos]
    by_cases hlt : f.size < 2 ^ 31
    · have hn : f.size = size := by
        have := (wrap_eq_iff f.size).2 hlt
        omega
      have hsink : sink F k (.body f.size) =
          ({ k with phase := .status ⟨mode, size, f.o⟩ }, k.written F ⟨mode, size, f.o⟩) := by
        unfold sink
        rw [h.phase]
        exact if_pos hn
      have hw : At F (.status ⟨mode, size, f.o⟩) outer { k with phase := .status ⟨mode, size, f.o⟩ }
          (sent ++ [.body f.size]) := by
        refine ⟨rfl, h.inStep, ?_, h.outer, h.setimes⟩
        rw [lines_append]
        exact h.lines
      rw [runs_send, hsink, nil_append]
      refine (runs_status hnext hstuck hw f.read).trans ?_
      exact and_congr_left fun _ => ⟨fun hm => ⟨rfl, hn ▸ hlt, hm⟩, fun hm => hm.2.2⟩
    · refine iff_of_false (not_runs_of_lost ?_ _ _) fun hr => hlt hr.1.2.1
      have hn : f.size ≠ size := by
        intro hn
        exact hlt ((wrap_eq_iff f.size).1 (by omega))
      unfold sink
      rw [h.phase]
      dsimp only
      rw [if_neg hn]
      rfl
  · rw [Bool.eq_false_iff.2 ha, if_pos (by decide)]
    refine iff_of_false (not_runs_of_lost ?_ _ _) fun hr => absurd hr.1.1 Bool.false_ne_true
    unfold sink
    rw [h.phase]
    rfl

include hnext hstuck in
theorem runs_sourceBody_empty {f : File} (hsize : ¬ 0 < wrap f.size) {mode : ℕ}
    (hw : At F (.status ⟨mode, 0, f.o⟩) outer k sent) :
    (rules F).Runs (sourceBody f next) k sent (k.written F ⟨mode, 0, f.o⟩) ↔
      (f.alloc ∧ f.size < 2 ^ 31 ∧ (Entry.setsMode F ⟨mode, f.size, f.o⟩ → f.o.fchmod)) ∧ C := by
  unfold sourceBody
  by_cases ha : f.alloc
  · rw [ha, if_neg (by decide)]
    by_cases hfpos : 0 < f.size
    · rw [if_pos hfpos]
      refine iff_of_false (not_runs_of_lost ?_ _ _) fun hr => ?_
      · unfold sink
        rw [hw.phase]
        rfl
      · have := (wrap_eq_iff f.size).2 hr.1.2.1
        omega
    · obtain h0 : f.size = 0 := by omega
      rw [if_neg hfpos, h0]
      refine (runs_status hnext hstuck hw f.read).trans ?_
      exact and_congr_left fun _ => ⟨fun hm => ⟨rfl, by decide, hm⟩, fun hm => hm.2.2⟩
  · rw [Bool.eq_false_iff.2 ha, if_pos (by decide)]
    exact iff_of_false (not_runs_unsent hw hstuck) fun hr => absurd hr.1.1 Bool.false_ne_true

include hnext hstuck in
theorem runs_fileRecord {f : File} (h : Ready F outer k sent) :
    (rules F).Runs
    (.send (.line (fileRecord f.mode f.size f.name) f.o) (.await (sourceBody f next) next)) k sent
    [] ↔
      (f.o.make → f.o.alloc ∧ f.alloc ∧ f.size < 2 ^ 31 ∧
        (Entry.setsMode F ⟨f.mode % 4096, f.size, f.o⟩ → f.o.fchmod)) ∧ C := by
  have hlines : k.lines + 1 = lines (sent ++ [.line (fileRecord f.mode f.size f.name) f.o]) := by
    rw [lines_append, h.lines]
    rfl
  have hparse :
      sinkRecord F { k with lines := k.lines + 1 } (parse (fileRecord f.mode f.size f.name)) f.o =
      sinkFile F { k with lines := k.lines + 1 } (f.mode % 4096) (wrap f.size) f.o := by
    rw [parse_fileRecord]
    rfl
  by_cases hm : f.o.make
  · by_cases ha : f.o.alloc
    · by_cases hs : 0 < wrap f.size
      · have hk : sinkRecord F { k with lines := k.lines + 1 }
            (parse (fileRecord f.mode f.size f.name)) f.o =
            ({ k with
                lines := k.lines + 1, phase := .body ⟨f.mode % 4096, (wrap f.size).toNat, f.o⟩ },
              [⟨k.lines + 1, false, true⟩]) := by
          rw [hparse, sinkFile, hm, ha, if_neg (by decide), if_neg (by decide), if_pos hs]
          rfl
        rw [runs_answered h hk, if_pos rfl]
        have hat : At F (.body ⟨f.mode % 4096, (wrap f.size).toNat, f.o⟩) outer
            { k with
              lines := k.lines + 1, phase := .body ⟨f.mode % 4096, (wrap f.size).toNat, f.o⟩ }
            (sent ++ [.line (fileRecord f.mode f.size f.name) f.o]) :=
              ⟨rfl, h.inStep, hlines, h.outer, h.setimes⟩
        refine (runs_sourceBody hnext hstuck hat (by omega) (by omega)).trans ?_
        exact and_congr_left fun _ => ⟨fun hc _ => ⟨ha, hc⟩, fun hc => (hc hm).2⟩
      · have hk : sinkRecord F { k with lines := k.lines + 1 }
            (parse (fileRecord f.mode f.size f.name)) f.o =
            ({ k with lines := k.lines + 1, phase := .status ⟨f.mode % 4096, 0, f.o⟩ },
              ⟨k.lines + 1, false, true⟩ :: Sink.written F { k with lines := k.lines + 1 }
              ⟨f.mode % 4096, 0, f.o⟩) := by
          rw [hparse, sinkFile, hm, ha, if_neg (by decide), if_neg (by decide), if_neg hs]
          rfl
        have hw : At F (.status ⟨f.mode % 4096, 0, f.o⟩) outer
            { k with lines := k.lines + 1, phase := .status ⟨f.mode % 4096, 0, f.o⟩ }
            (sent ++ [.line (fileRecord f.mode f.size f.name) f.o]) :=
          ⟨rfl, h.inStep, hlines, h.outer, h.setimes⟩
        have hfits : fits (sent ++ [.line (fileRecord f.mode f.size f.name) f.o])
          ⟨k.lines + 1, false, true⟩ :=
          (fits_line sent _ _ _).2 ⟨congrArg (· + 1) h.lines, rfl⟩
        rw [runs_send, h.sink_line, hk, nil_append, Rules.runs_await]
        refine Iff.trans ⟨fun hr => hr.2, fun hr => ⟨hfits, hr⟩⟩
          ((runs_sourceBody_empty hnext hstuck hs hw).trans ?_)
        exact and_congr_left fun _ => ⟨fun hc _ => ⟨ha, hc⟩, fun hc => (hc hm).2⟩
    · have hk :
          sinkRecord F { k with lines := k.lines + 1 }
          (parse (fileRecord f.mode f.size f.name)) f.o =
          ({ k with lines := k.lines + 1 },
            [⟨k.lines + 1, false, true⟩, ⟨k.lines + 1, false, false⟩]) := by
        rw [hparse, sinkFile, hm, Bool.eq_false_iff.2 ha, if_neg (by decide), if_pos (by decide)]
        rfl
      refine iff_of_false (fun hr => ?_) fun hr => ha (hr.1 hm).1
      rw [runs_send, h.sink_line, hk, nil_append, Rules.runs_await] at hr
      exact not_runs_unwritten hlines.le rfl hstuck _ hr.2
  · have hk :
        sinkRecord F { k with lines := k.lines + 1 } (parse (fileRecord f.mode f.size f.name)) f.o =
        ({ k with lines := k.lines + 1 }, [⟨k.lines + 1, false, false⟩]) := by
      rw [hparse, sinkFile, Bool.eq_false_iff.2 hm, if_pos (by decide)]
      rfl
    have hready : Ready F outer { k with lines := k.lines + 1 }
        (sent ++ [.line (fileRecord f.mode f.size f.name) f.o]) :=
          ⟨h.phase, h.inStep, hlines, h.outer, h.setimes⟩
    rw [runs_answered h hk, if_neg Bool.false_ne_true, hnext _ _ hready]
    exact ⟨fun hc => ⟨fun hm' => absurd hm' hm, hc⟩, fun hc => hc.2⟩

include hnext hstuck in
theorem runs_sourceFile (f : File) (h : Ready F outer k sent) :
    (rules F).Runs (sourceFile F f next) k sent [] ↔ f.Answered F ∧ C := by
  unfold sourceFile File.Answered
  obtain ⟨k', sent', hr, -, hiff⟩ := runs_times h f.mtime f.atime f.o
    (.send (.line (fileRecord f.mode f.size f.name) f.o) (.await (sourceBody f next) next)) next
  rw [hiff, runs_fileRecord hnext hstuck hr, and_assoc]

/-! ### A directory -/

include hnext hstuck in
theorem runs_end {setimes : Bool} {o o' : Local}
    (h : Ready F ((setimes, o) :: outer) k sent) :
    (rules F).Runs (.send (.line endRecord o') (.await next next)) k sent [] ↔
    (setimes → o.utimes) ∧ C := by
  have hparse : sinkRecord F { k with lines := k.lines + 1 } (parse endRecord) o' =
      ({ k with lines := k.lines + 1, setimes := false, outer := outer },
        ⟨k.lines + 1, false, true⟩ :: if setimes && !o.utimes then [⟨k.lines + 1, false, false⟩]
          else []) := by
    show sinkStop { k with lines := k.lines + 1 } = _
    rw [h.outer]
    rfl
  have hready : Ready F outer { k with lines := k.lines + 1, setimes := false, outer := outer }
      (sent ++ [.line endRecord o']) := by
    refine ⟨h.phase, h.inStep, ?_, rfl, nofun⟩
    rw [lines_append, ← h.lines]
    rfl
  by_cases hu : setimes → o.utimes
  · have hnone : (setimes && !o.utimes) = false := by
      rcases hs : setimes with - | -
      · rfl
      · rw [hu hs]
        rfl
    rw [hnone, if_neg Bool.false_ne_true] at hparse
    rw [runs_answered h hparse, ite_self, hnext _ _ hready]
    exact ⟨fun hc => ⟨hu, hc⟩, fun hc => hc.2⟩
  · have hsome : (setimes && !o.utimes) = true := by
      rcases hs : setimes with - | -
      · exact absurd (fun hs' => absurd (hs.symm.trans hs') Bool.false_ne_true) hu
      · rcases hut : o.utimes with - | -
        · rfl
        · exact absurd (fun _ => hut) hu
    rw [hsome, if_pos rfl] at hparse
    refine iff_of_false (fun hr => ?_) fun hr => hu hr.1
    rw [runs_send, h.sink_line, hparse, nil_append, Rules.runs_await, Rules.next, ite_self] at hr
    exact hstuck (k.lines + 1) _ _ _ _ le_rfl hready.lines.le hr.2

include hnext hstuck in
theorem runs_dirRecord {d : Dir} {contents : Client Token → Client Token} {A : Prop}
    (h : Ready F outer k sent) (hset : k.setimes ↔ F.preserve)
    (hcontents : ∀ p k' sent', Ready F ((k.setimes, d.o) :: outer) k' sent' →
      (∀ n, Stuck F n p) →
      ∀ B :
      Prop,
      (∀ k' sent', Ready F ((k.setimes, d.o) :: outer) k' sent' →
        ((rules F).Runs p k' sent' [] ↔ B)) → ((rules F).Runs (contents p) k' sent' [] ↔ A ∧ B)) :
    (rules F).Runs (.send (.line (dirRecord d.mode d.name) d.o)
      (.await (contents (.send (.line endRecord d.o) (.await next next))) next)) k sent [] ↔
      (d.o.enters → A ∧ (F.preserve → d.o.utimes)) ∧ C := by
  have hlines : k.lines + 1 = lines (sent ++ [.line (dirRecord d.mode d.name) d.o]) := by
    rw [lines_append, h.lines]
    rfl
  have hparse : sinkRecord F { k with lines := k.lines + 1 } (parse (dirRecord d.mode d.name)) d.o =
      sinkDir { k with lines := k.lines + 1 } d.o := by
    rw [parse_dirRecord]
    rfl
  by_cases he : d.o.enters
  · have hk : sinkRecord F { k with lines := k.lines + 1 } (parse (dirRecord d.mode d.name)) d.o =
        ({ k with lines := k.lines + 1, setimes := false, outer := (k.setimes, d.o) :: k.outer },
          [⟨k.lines + 1, false, true⟩]) := by
      rw [hparse, sinkDir, if_pos he]
      rfl
    have hready : Ready F ((k.setimes, d.o) :: outer)
        { k with lines := k.lines + 1, setimes := false, outer := (k.setimes, d.o) :: k.outer }
        (sent ++ [.line (dirRecord d.mode d.name) d.o]) :=
      ⟨h.phase, h.inStep, hlines, by rw [h.outer], nofun⟩
    rw [runs_answered h hk, if_pos rfl]
    refine (hcontents _ _ _ hready (fun n => stuck_line n _ _ _ _) ((k.setimes → d.o.utimes) ∧ C)
      fun k' sent' hr => runs_end hnext hstuck hr).trans ?_
    rw [← and_assoc]
    refine and_congr_left fun _ => ⟨fun hc _ => ⟨hc.1, fun hp => hc.2 (hset.2 hp)⟩, fun hc => ?_⟩
    exact ⟨(hc he).1, fun hs => (hc he).2 (hset.1 hs)⟩
  · have hk : sinkRecord F { k with lines := k.lines + 1 } (parse (dirRecord d.mode d.name)) d.o =
        ({ k with lines := k.lines + 1 }, [⟨k.lines + 1, false, false⟩]) := by
      rw [hparse, sinkDir, if_neg he]
      rfl
    have hready :
        Ready F outer { k with lines := k.lines + 1 }
        (sent ++ [.line (dirRecord d.mode d.name) d.o]) :=
      ⟨h.phase, h.inStep, hlines, h.outer, h.setimes⟩
    rw [runs_answered h hk, if_neg Bool.false_ne_true, hnext _ _ hready]
    exact ⟨fun hc => ⟨fun he' => absurd he' he, hc⟩, fun hc => hc.2⟩

/-! ### A tree -/

theorem runs_source :
    ∀ (l : Items) {outer : List (Bool × Local)} {k : Sink} {sent : List Token} {next : Client Token}
    {C : Prop}, Ready F outer k sent →
      (∀ k' sent', Ready F outer k' sent' → ((rules F).Runs next k' sent' [] ↔ C)) →
      (∀ n, Stuck F n next) → ((rules F).Runs (source F l next) k sent [] ↔ Answered F l ∧ C)
  | .nil, _, k, sent, next, C, h, hnext, _ => by
    rw [source, Answered, hnext k sent h]
    exact ⟨fun hc => ⟨trivial, hc⟩, fun hc => hc.2⟩
  | .error rest, _, k, sent, next, C, h, hnext, hstuck => by
    rw [source, Answered, h.runs_error]
    exact runs_source rest h.error hnext hstuck
  | .file f rest, outer, k, sent, next, C, h, hnext, hstuck => by
    rw [source, Answered, and_assoc]
    exact runs_sourceFile (fun k' sent' hr => runs_source rest hr hnext hstuck)
      (fun n => stuck_source (hstuck n) rest) f h
  | .dir d contents rest, outer, k, sent, next, C, h, hnext, hstuck => by
    have hrest : ∀ k' sent', Ready F outer k' sent' →
        ((rules F).Runs (source F rest next) k' sent' [] ↔ Answered F rest ∧ C) :=
      fun k' sent' hr => runs_source rest hr hnext hstuck
    rw [source, Answered, and_assoc]
    by_cases hrec : F.recursive
    · rw [if_pos hrec, rsource]
      by_cases ho : d.opendir
      · rw [ho, if_neg (by decide)]
        obtain ⟨k₁, sent₁, hr, hset, hiff⟩ := runs_times h d.mtime d.atime d.o
          (.send (.line (dirRecord d.mode d.name) d.o)
            (.await
              (source F contents
                (.send (.line endRecord d.o) (.await (source F rest next) (source F rest next))))
              (source F rest next))) (source F rest next)
        rw [hiff, runs_dirRecord hrest (fun n => stuck_source (hstuck n) rest)
          (A := Answered F contents) hr hset
          fun p k' sent' hr' hs B hB => runs_source contents hr' hB hs, ← and_assoc]
        refine and_congr_left fun _ => ⟨fun hc _ _ => hc, fun hc => hc hrec rfl⟩
      · rw [Bool.eq_false_iff.2 ho, if_pos (by decide), h.runs_error, hrest _ _ h.error]
        exact ⟨fun hc => ⟨fun _ ho' => absurd ho' Bool.false_ne_true, hc⟩, fun hc => hc.2⟩
    · rw [if_neg hrec, h.runs_error, hrest _ _ h.error]
      exact ⟨fun hc => ⟨fun hrec' => absurd hrec' hrec, hc⟩, fun hc => hc.2⟩

end

/-- **The two ends keep in step**, in every order in which they run, just when the condition holds
of the tree. -/
theorem inStep_iff (F : Flags) (l : Items) :
    (∀ s, Relation.ReflTransGen (Step (rules F)) (start F l) s → (rules F).Kept s) ↔
    Answered F l := by
  have hready : Ready F [] ⟨.record, false, [], 0, true⟩ [] :=
    ⟨rfl, rfl, rfl, rfl, nofun⟩
  have hdone : ∀ k' sent', Ready F [] k' sent' → ((rules F).Runs .done k' sent' [] ↔ True) :=
    fun k' sent' hr => iff_of_true ⟨hr.inStep, rfl⟩ trivial
  have hsource := runs_source l hready hdone stuck_done
  refine ((rules F).kept_iff_runs _ _ _).trans ((Rules.runs_await (rules F)).trans ?_)
  constructor
  · intro hr
    exact (hsource.1 hr.2).1
  · intro ha
    exact ⟨rfl, hsource.2 ⟨ha, trivial⟩⟩

/-- A file that the owner may not write, whose mode cannot be set, is answered twice. -/
theorem mode_answered_twice :
    ¬ ∀ (F : Flags) (l : Items),
      (∀ s, Relation.ReflTransGen (Step (rules F)) (start F l) s → (rules F).Kept s) := by
  intro h
  have hall := (rules ⟨false, false⟩).runs_of_kept _ _ _ _ (h ⟨false, false⟩
    (.file ⟨⟨[97], by decide⟩, 256, 0, ⟨0, 0⟩, ⟨0, 0⟩, true, true,
      ⟨none, true, true, true, true, false, true⟩⟩ .nil))
  have hbody := (hall.2.1 rfl).2.1 rfl
  exact cons_ne_nil _ _ (hbody.2.2 (by decide)).2

end Inetutils.Rcp.Copy
