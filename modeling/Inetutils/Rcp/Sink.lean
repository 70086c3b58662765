import Inetutils.Lib.Blocks
import Inetutils.Lib.Pieces
import Inetutils.Rcp.Records

/-! # What the stream of rcp does to the files

`sink` of `src/rcp.c` on every stream of bytes, with its recursion as a stack of the calls that
wait. The system is a parameter: what `stat` says of a path, and what becomes of it by a call and
whether that call succeeds. `acts` are the calls that name a file, by its path or by a descriptor
for it.

There is memory for a name, and the name in a record is taken as it stands. -/

namespace Inetutils.Rcp.Sink

open Lib.Blocks Lib.Pieces Records List

abbrev Path := Text

abbrev bufsiz : ℕ := 8192

abbrev Mode := BitVec 12

/-- `-p` and `-d`, and the mask of the process. -/
structure Flags where
  preserve : Bool
  targetshouldbedirectory : Bool
  mask : Mode

/-- The mask while files are made: with `-p` it stays off. -/
def Flags.umask (F : Flags) : Mode := if F.preserve then 0 else F.mask

/-- Seconds and microseconds, of the modification and of the access. -/
abbrev Times := (ℕ × ℕ) × (ℕ × ℕ)

/-- `open` for writing, which may make the file, and `mkdir` with the mask that is in force. -/
inductive Act
  | mkdir (path : Path) (mode umask : Mode)
  | create (path : Path) (mode umask : Mode)
  | write (path : Path) (data : Text)
  | ftruncate (path : Path) (size : ℤ)
  | chmod (path : Path) (mode : Mode)
  | utimes (path : Path) (times : Times)

def Act.path : Act → Path
  | .mkdir path _ _ => path
  | .create path _ _ => path
  | .write path _ => path
  | .ftruncate path _ => path
  | .chmod path _ => path
  | .utimes path _ => path

/-- `stat` says whether it is a directory; `alloc` is `allocbuf`. -/
structure Os (σ : Type*) where
  stat : σ → Path → Option Bool
  alloc : σ → Path → Bool
  act : σ → Act → Bool × σ

/-- The variables of a call of `sink`. -/
structure Frame where
  targ : Path
  targisdir : Bool
  setimes : Bool
  times : Times

/-- A call that waits for one inside, and what it does then. -/
structure Outer where
  frame : Frame
  np : Path
  mode : Mode
  modFlag : Bool

inductive Wrerr
  | yes
  | no
  | displayed
  deriving DecidableEq

/-- What is read next: a record, `size` bytes of a file, or what `response` reads behind them. -/
inductive Phase
  | record
  | body (np : Path) (existed : Bool) (omode : Mode) (size : ℤ)
  | status (np : Path) (wrerr : Wrerr)

def Phase.np : Phase → Option Path
  | .record => none
  | .body np _ _ _ => some np
  | .status np _ => some np

/-- `replies` are the null bytes and the errors that were written, `records` the names in the
records for files and directories that were read. -/
structure State (σ : Type*) where
  os : σ
  input : Text
  phase : Phase
  frame : Frame
  outer : List Outer
  live : Bool
  acts : List Act
  replies : List Bool
  records : List Text

variable {σ : Type*} (sys : Os σ) (F : Flags)

def State.exit (k : State σ) : State σ := { k with live := false }

def State.reply (k : State σ) (ok : Bool) : State σ := { k with replies := k.replies ++ [ok] }

def State.call (k : State σ) (a : Act) : Bool × State σ :=
  ((sys.act k.os a).1, { k with os := (sys.act k.os a).2, acts := k.acts ++ [a] })

def State.callIf (k : State σ) (c : Bool) (a : Act) : State σ := if c then (k.call sys a).2 else k

def State.callOrErr (k : State σ) (a : Act) : Bool × State σ :=
  ((k.call sys a).1, if (k.call sys a).1 then (k.call sys a).2 else (k.call sys a).2.reply false)

/-! ### Calls of `sink` -/

/-- A call begins, for `targ`. -/
def State.enter (k : State σ) (targ : Path) (outer : List Outer) : State σ :=
  if F.targetshouldbedirectory && sys.stat k.os targ != some true then (k.reply false).exit
  else
    { k.reply true with
      frame := ⟨targ, sys.stat k.os targ == some true, false, ((0, 0), (0, 0))⟩
      outer := outer }

/-- The call inside `o` has returned. -/
def State.resume (k : State σ) (o : Outer) : State σ :=
  (if o.frame.setimes then (k.callOrErr sys (.utimes o.np o.frame.times)).2
    else k).callIf sys o.modFlag
    (.chmod o.np o.mode)

def State.leave (k : State σ) : State σ :=
  match k.outer with
  | [] => k.exit
  | o :: outer =>
    State.resume sys { k with frame := { o.frame with setimes := false }, outer := outer } o

/-! ### A file -/

def State.writeBlocks (np : Path) : List Text → State σ → Bool × State σ
  | [], k => (true, k)
  | b :: bs, k =>
    if (k.call sys (.write np b)).1 then State.writeBlocks np bs (k.call sys (.write np b)).2
    else (false, (k.call sys (.write np b)).2)

/-- A line that is there up to its newline, or as much as fits. -/
def Whole (n : ℕ) (l : Text) : Prop :=
  (piece 10 n l).1.getLast? = some 10 ∨ (piece 10 n l).1.length = n

instance (n : ℕ) (l : Text) : Decidable (Whole n l) := inferInstanceAs (Decidable (_ ∨ _))

/-- `response`: what follows, unless it exits. -/
def response : Text → Option Text
  | [] => none
  | b :: l =>
    if b = 0 then some l else if b = 1 ∧ Whole bufsiz l then some (piece 10 bufsiz l).2 else none

/-- What follows `response`. -/
def State.finish (np : Path) (wrerr : Wrerr) (k : State σ) : State σ :=
  match wrerr with
  | .yes => k.reply false
  | .displayed => k
  | .no =>
    if k.frame.setimes then
      (({ k with frame := { k.frame with setimes := false } }).call sys
        (.utimes np k.frame.times)).2.reply
        (k.call sys (.utimes np k.frame.times)).1
    else k.reply true

def State.respond (np : Path) (wrerr : Wrerr) (k : State σ) : State σ :=
  match response k.input with
  | none => k.exit
  | some rest => State.finish sys np wrerr { k with input := rest, phase := .record }

def writable (mode : Mode) : Mode := mode ||| 0o200

def State.setMode (np : Path) (existed : Bool) (omode : Mode) (k : State σ) : State σ :=
  if F.preserve then
    if existed || omode != writable omode then (k.callOrErr sys (.chmod np omode)).2 else k
  else if !existed && omode != writable omode then
    (k.callOrErr sys (.chmod np (omode &&& ~~~F.mask))).2 else k

/-- After the blocks; `wrote` is what became of them. -/
def State.close (np : Path) (existed : Bool) (omode : Mode) (size : ℤ) (wrote : Bool)
    (k : State σ) : State σ :=
  { State.setMode sys F np existed omode (k.callOrErr sys (.ftruncate np size)).2 with
    phase := .status np
      (if !(k.callOrErr sys (.ftruncate np size)).1 then .displayed else if wrote then .no
        else .yes) }

/-- `data` in blocks of `BUFSIZ`, and one for what is left. -/
def blocksOf (data : Text) : List Text :=
  (List.range ((data.length + bufsiz - 1) / bufsiz)).map (block bufsiz data)

/-- Only whole blocks are written when the connection is dropped. -/
def State.body (np : Path) (existed : Bool) (omode : Mode) (size : ℤ) (k : State σ) : State σ :=
  if k.input.length < size.toNat then
    ((State.writeBlocks sys np ((List.range (k.input.length / bufsiz)).map (block bufsiz k.input))
      k).2.reply false).exit
  else
    State.close sys F np existed omode size
      (State.writeBlocks sys np (blocksOf (k.input.take size.toNat))
        { k with input := k.input.drop size.toNat }).1
      (State.writeBlocks sys np (blocksOf (k.input.take size.toNat))
        { k with input := k.input.drop size.toNat }).2

def State.file (np : Path) (mode : Mode) (size : ℤ) (k : State σ) : State σ :=
  if !(k.call sys (.create np (writable mode) F.umask)).1 then
    (k.call sys (.create np (writable mode) F.umask)).2.reply false
  else if !sys.alloc (k.call sys (.create np (writable mode) F.umask)).2.os np then
    ((k.call sys (.create np (writable mode) F.umask)).2.reply true).reply false
  else if 0 < size then
    { (k.call sys (.create np (writable mode) F.umask)).2.reply true with
      phase := .body np (sys.stat k.os np).isSome mode size }
  else
    State.close sys F np (sys.stat k.os np).isSome mode size true
      ((k.call sys (.create np (writable mode) F.umask)).2.reply true)

/-! ### A directory -/

def State.dir (np : Path) (mode : Mode) (k : State σ) : State σ :=
  match sys.stat k.os np with
  | some false => k.reply false
  | some true =>
    (k.callIf sys F.preserve (.chmod np mode)).enter sys F np
      (⟨k.frame, np, mode, F.preserve⟩ :: k.outer)
  | none =>
    if (k.call sys (.mkdir np (mode ||| 0o700) F.umask)).1 then
      (k.call sys (.mkdir np (mode ||| 0o700) F.umask)).2.enter sys F np
      (⟨k.frame, np, mode, true⟩ :: k.outer)
    else (k.call sys (.mkdir np (mode ||| 0o700) F.umask)).2.reply false

/-! ### A record -/

def parseEntry (l : Text) : Option (Mode × ℤ × Text) := do
  let (mode, l) ← getmode 4 0 l
  let (size, l) := getnum (← delim 32 l)
  let name ← delim 32 l
  return (BitVec.ofNat 12 mode, wrap size, name)

/-- `np` -/
def Frame.target (f : Frame) (name : Text) : Path :=
  if f.targisdir then f.targ ++ (if f.targ = [] then [] else [47]) ++ name else f.targ

def State.screwup (k : State σ) : State σ := (k.reply false).exit

def State.read (k : State σ) (name : Text) : State σ := { k with records := k.records ++ [name] }

def State.record (k : State σ) (l : Text) : State σ :=
  match l with
  | 1 :: _ => k
  | 2 :: _ => k.exit
  | 69 :: _ => State.leave sys (k.reply true)
  | 84 :: l =>
    match parseTimes l with
    | some (.times mtime atime) =>
      { k.reply true with frame := { k.frame with setimes := true, times := (mtime, atime) } }
    | _ => k.screwup
  | 67 :: l =>
    match parseEntry l with
    | some (mode, size, name) => State.file sys F (k.frame.target name) mode size (k.read name)
    | none => k.screwup
  | 68 :: l =>
    match parseEntry l with
    | some (mode, _, name) => State.dir sys F (k.frame.target name) mode (k.read name)
    | none => k.screwup
  | _ => k.screwup

def cstring (l : Text) : Text := (if l.getLast? = some 10 then l.dropLast else l).takeWhile (· ≠ 0)

def State.line (k : State σ) : State σ :=
  match k.input with
  | [] => State.leave sys k
  | b :: l =>
    if b = 10 then k.screwup
    else if Whole (bufsiz - 1) (b :: l) then
      State.record sys F { k with input := (piece 10 (bufsiz - 1) (b :: l)).2 }
        (cstring (piece 10 (bufsiz - 1) (b :: l)).1)
    else k.screwup

def State.turn (k : State σ) : State σ :=
  if !k.live then k
  else
    match k.phase with
    | .record => State.line sys F k
    | .body np existed omode size => State.body sys F np existed omode size k
    | .status np wrerr => State.respond sys np wrerr k

def start (s : σ) (targ : Path) (input : Text) : State σ :=
  State.enter sys F ⟨s, input, .record, ⟨targ, false, false, ((0, 0), (0, 0))⟩, [], true, [],
    [], []⟩ targ []

def turns : ℕ → State σ → State σ
  | 0, k => k
  | n + 1, k => turns n (State.turn sys F k)

/-! ### What a record touches -/

/-- Nothing but calls for `np`, and what does not say where the next file goes. -/
structure Touches (np : Path) (k k' : State σ) : Prop where
  targ : k'.frame.targ = k.frame.targ
  targisdir : k'.frame.targisdir = k.frame.targisdir
  outer : k'.outer = k.outer
  records : k'.records = k.records
  phase : k'.phase.np = none ∨ k'.phase.np = some np ∨ k'.phase.np = k.phase.np
  acts : ∀ a ∈ k'.acts, a ∈ k.acts ∨ a.path = np

section
variable {sys : Os σ} {F : Flags} {np : Path} {k k' k'' : State σ}

theorem Touches.refl (np : Path) (k : State σ) : Touches np k k :=
    ⟨rfl, rfl, rfl, rfl, .inr (.inr rfl), fun _ h => .inl h⟩

theorem Touches.trans (h : Touches np k k') (h' : Touches np k' k'') : Touches np k k'' where
  targ := h'.targ.trans h.targ
  targisdir := h'.targisdir.trans h.targisdir
  outer := h'.outer.trans h.outer
  records := h'.records.trans h.records
  phase := by
    rcases h'.phase with hp | hp | hp
    · exact .inl hp
    · exact .inr (.inl hp)
    · rw [hp]
      exact h.phase
  acts := fun a ha => (h'.acts a ha).elim (h.acts a) Or.inr

theorem touches_reply (np : Path) (k : State σ) (ok : Bool) : Touches np k (k.reply ok) :=
  ⟨rfl, rfl, rfl, rfl, .inr (.inr rfl), fun _ h => .inl h⟩

theorem touches_exit (np : Path) (k : State σ) : Touches np k k.exit :=
    ⟨rfl, rfl, rfl, rfl, .inr (.inr rfl), fun _ h => .inl h⟩

theorem touches_input (np : Path) (k : State σ) (l : Text) : Touches np k { k with input := l } :=
  ⟨rfl, rfl, rfl, rfl, .inr (.inr rfl), fun _ h => .inl h⟩

theorem touches_phase (k : State σ) (phase : Phase) (h : phase.np = none ∨ phase.np = some np) :
    Touches np k { k with phase := phase } :=
  ⟨rfl, rfl, rfl, rfl, h.imp_right Or.inl, fun _ h => .inl h⟩

theorem touches_times (np : Path) (k : State σ) (b : Bool) (t : Times) :
    Touches np k { k with frame := { k.frame with setimes := b, times := t } } :=
  ⟨rfl, rfl, rfl, rfl, .inr (.inr rfl), fun _ h => .inl h⟩

theorem touches_call (a : Act) (k : State σ) : Touches a.path k (k.call sys a).2 := by
  refine ⟨rfl, rfl, rfl, rfl, .inr (.inr rfl), fun b hb => ?_⟩
  rcases mem_append.1 hb with hb | hb
  · exact .inl hb
  · exact .inr (congrArg Act.path (mem_singleton.1 hb))

theorem touches_callIf (a : Act) (k : State σ) (c : Bool) :
    Touches a.path k (k.callIf sys c a) := by
  unfold State.callIf
  split_ifs
  · exact touches_call a k
  · exact .refl _ k

theorem touches_callOrErr (a : Act) (k : State σ) : Touches a.path k (k.callOrErr sys a).2 := by
  unfold State.callOrErr
  split_ifs
  · exact touches_call a k
  · exact (touches_call a k).trans (touches_reply _ _ _)

theorem touches_writeBlocks : ∀ (bs : List Text) (k : State σ),
    Touches np k (State.writeBlocks sys np bs k).2
  | [], k => .refl np k
  | b :: bs, k => by
    unfold State.writeBlocks
    have hcall : Touches np k (k.call sys (.write np b)).2 := touches_call (.write np b) k
    split_ifs
    · exact hcall.trans (touches_writeBlocks bs _)
    · exact hcall

theorem touches_finish (wrerr : Wrerr) (k : State σ) :
    Touches np k (State.finish sys np wrerr k) := by
  unfold State.finish
  cases wrerr with
  | yes => exact touches_reply np k _
  | displayed => exact .refl np k
  | no =>
    split_ifs
    · exact ((touches_times np k false k.frame.times).trans (touches_call (.utimes np k.frame.times)
        _)).trans (touches_reply np _ _)
    · exact touches_reply np k _

theorem touches_respond (wrerr : Wrerr) (k : State σ) :
    Touches np k (State.respond sys np wrerr k) := by
  unfold State.respond
  split
  · exact touches_exit np k
  · rename_i rest _
    exact ((touches_input np k rest).trans (touches_phase _ .record (.inl rfl))).trans
      (touches_finish wrerr _)

theorem touches_setMode (existed : Bool) (omode : Mode) (k : State σ) :
    Touches np k (State.setMode sys F np existed omode k) := by
  unfold State.setMode
  split_ifs
  · exact touches_callOrErr (.chmod np omode) k
  · exact .refl np k
  · exact touches_callOrErr (.chmod np (omode &&& ~~~F.mask)) k
  · exact .refl np k

theorem touches_close (existed : Bool) (omode : Mode) (size : ℤ) (wrote : Bool) (k : State σ) :
    Touches np k (State.close sys F np existed omode size wrote k) :=
  ((touches_callOrErr (.ftruncate np size) k).trans (touches_setMode existed omode _)).trans
    (touches_phase _ _ (.inr rfl))

theorem touches_body (existed : Bool) (omode : Mode) (size : ℤ) (k : State σ) :
    Touches np k (State.body sys F np existed omode size k) := by
  unfold State.body
  split_ifs
  · exact ((touches_writeBlocks _ k).trans (touches_reply np _ _)).trans (touches_exit np _)
  · exact ((touches_input np k _).trans (touches_writeBlocks _ _)).trans
      (touches_close existed omode size _ _)

theorem touches_file (mode : Mode) (size : ℤ) (k : State σ) :
    Touches np k (State.file sys F np mode size k) := by
  have hcreate : Touches np k (k.call sys (.create np (writable mode) F.umask)).2 :=
    touches_call (.create _ _ _) k
  unfold State.file
  split_ifs
  · exact hcreate.trans (touches_reply np _ _)
  · exact (hcreate.trans (touches_reply np _ _)).trans (touches_reply np _ _)
  · exact (hcreate.trans (touches_reply np _ _)).trans (touches_phase _ _ (.inr rfl))
  · exact (hcreate.trans (touches_reply np _ _)).trans (touches_close _ _ _ _ _)

theorem touches_resume (o : Outer) (k : State σ) : Touches o.np k (State.resume sys k o) := by
  refine Touches.trans ?_ (touches_callIf (.chmod o.np o.mode) _ _)
  split_ifs
  · exact touches_callOrErr (.utimes o.np o.frame.times) k
  · exact .refl _ k

end

/-! ### Names -/

/-- The names one after the other below `targ`, as they stand. -/
def below (targ : Path) (names : List Text) : Path :=
  names.foldl (fun p name => p ++ (if p = [] then [] else [47]) ++ name) targ

def Named (targ : Path) (records : List Text) (p : Path) : Prop :=
  ∃ names, names ≠ [] ∧ names.Sublist records ∧ p = below targ names

/-- Where a call of `sink` puts what it is told of next. -/
def Placed (targ : Path) (records : List Text) (f : Frame) : Prop :=
  ∃ names, names.Sublist records ∧ f.targ = below targ names ∧ (names = [] → f.targisdir)

structure Inside (targ : Path) (k : State σ) : Prop where
  frame : Placed targ k.records k.frame
  outer : ∀ o ∈ k.outer, Named targ k.records o.np ∧ Placed targ k.records o.frame
  phase : ∀ np ∈ k.phase.np, Named targ k.records np
  acts : ∀ a ∈ k.acts, Named targ k.records a.path

section
variable {sys : Os σ} {F : Flags} {targ np : Path} {k k' : State σ} {records : List Text}

theorem Named.more {p : Path} (h : Named targ records p) (name : Text) :
    Named targ (records ++ [name]) p := by
  obtain ⟨names, hne, hsub, hp⟩ := h
  exact ⟨names, hne, hsub.trans (sublist_append_left _ _), hp⟩

theorem Placed.more {f : Frame} (h : Placed targ records f) (name : Text) :
    Placed targ (records ++ [name]) f := by
  obtain ⟨names, hsub, hf, hdir⟩ := h
  exact ⟨names, hsub.trans (sublist_append_left _ _), hf, hdir⟩

theorem Inside.read (h : Inside targ k) (name : Text) : Inside targ (k.read name) where
  frame := h.frame.more name
  outer := fun o ho => ⟨(h.outer o ho).1.more name, (h.outer o ho).2.more name⟩
  phase := fun np hnp => (h.phase np hnp).more name
  acts := fun a ha => (h.acts a ha).more name

theorem below_concat (targ : Path) (names : List Text) (name : Text) :
    below targ (names ++ [name]) =
      below targ names ++ (if below targ names = [] then [] else [47]) ++ name := foldl_concat ..

theorem named_target {f : Frame} (h : Placed targ records f) (name : Text) :
    Named targ (records ++ [name]) (f.target name) := by
  obtain ⟨names, hsub, hf, hdir⟩ := h
  by_cases hisdir : f.targisdir
  · refine ⟨names ++ [name], by simp, hsub.append (List.Sublist.refl [name]), ?_⟩
    rw [Frame.target, if_pos hisdir, below_concat, hf]
  · refine ⟨names, fun hnil => hisdir (hdir hnil), hsub.trans (sublist_append_left _ _), ?_⟩
    rw [Frame.target, if_neg hisdir, hf]

theorem Inside.touches (h : Inside targ k) (hnp : Named targ k.records np) (ht : Touches np k k') :
    Inside targ k' where
  frame := by
    obtain ⟨names, hsub, hf, hdir⟩ := h.frame
    exact ⟨names, ht.records ▸ hsub, ht.targ.trans hf, fun hnil => ht.targisdir ▸ hdir hnil⟩
  outer := by
    rw [ht.outer, ht.records]
    exact h.outer
  phase := fun p hp => by
    rw [ht.records]
    rcases ht.phase with hn | hn | hn
    · exact absurd (hn.symm.trans hp) nofun
    · exact Option.some.inj (hn.symm.trans hp) ▸ hnp
    · exact h.phase p (hn.symm.trans hp)
  acts := fun a ha => by
    rw [ht.records]
    rcases ht.acts a ha with ha | ha
    · exact h.acts a ha
    · exact ha ▸ hnp

theorem Inside.quiet (h : Inside targ k)
    (hf : k'.frame.targ = k.frame.targ ∧ k'.frame.targisdir = k.frame.targisdir)
    (ho : k'.outer = k.outer) (hr : k'.records = k.records) (hp : k'.phase = k.phase)
    (ha : k'.acts = k.acts) :
    Inside targ k' where
  frame := by
    obtain ⟨names, hsub, hf', hdir⟩ := h.frame
    exact ⟨names, hr ▸ hsub, hf.1.trans hf', fun hnil => hf.2 ▸ hdir hnil⟩
  outer := by
    rw [ho, hr]
    exact h.outer
  phase := by
    rw [hp, hr]
    exact h.phase
  acts := by
    rw [ha, hr]
    exact h.acts

theorem Inside.leave (h : Inside targ k) : Inside targ (State.leave sys k) := by
  unfold State.leave
  split
  · exact h.quiet ⟨rfl, rfl⟩ rfl rfl rfl rfl
  · rename_i o outer heq
    obtain ⟨hnp, hframe⟩ := h.outer o (by rw [heq]; exact mem_cons_self)
    refine Inside.touches
      (k := { k with frame := { o.frame with setimes := false }, outer := outer })
      ⟨?_, ?_, h.phase, h.acts⟩ hnp (touches_resume o _)
    · obtain ⟨names, hsub, hf, hdir⟩ := hframe
      exact ⟨names, hsub, hf, hdir⟩
    · intro o' ho'
      exact h.outer o' (by rw [heq]; exact mem_cons_of_mem _ ho')

theorem Inside.enter (h : Inside targ k) (hnp : Named targ k.records np) {mode : Mode}
    {modFlag : Bool} {f : Frame} (hf : Placed targ k.records f) :
    Inside targ (State.enter sys F k np (⟨f, np, mode, modFlag⟩ :: k.outer)) := by
  unfold State.enter
  split_ifs
  · exact h.quiet ⟨rfl, rfl⟩ rfl rfl rfl rfl
  · obtain ⟨names, hne, hsub, hp⟩ := hnp
    refine ⟨⟨names, hsub, hp, fun hnil => absurd hnil hne⟩, fun o ho => ?_, h.phase, h.acts⟩
    rcases mem_cons.1 ho with rfl | ho
    · exact ⟨⟨names, hne, hsub, hp⟩, hf⟩
    · exact h.outer o ho

theorem Inside.dir (h : Inside targ k) (hnp : Named targ k.records np) (mode : Mode) :
    Inside targ (State.dir sys F np mode k) := by
  unfold State.dir
  split
  · exact h.quiet ⟨rfl, rfl⟩ rfl rfl rfl rfl
  · have ht : Touches np k (k.callIf sys F.preserve (.chmod np mode)) :=
      touches_callIf (.chmod np mode) k _
    have hin := h.touches hnp ht
    rw [← ht.outer]
    exact hin.enter (by rw [ht.records]; exact hnp) (by rw [ht.records]; exact h.frame)
  · have ht : Touches np k (k.call sys (.mkdir np (mode ||| 0o700) F.umask)).2 :=
      touches_call (.mkdir _ _ _) k
    have hin := h.touches hnp ht
    split_ifs
    · exact hin.enter hnp h.frame
    · exact hin.quiet ⟨rfl, rfl⟩ rfl rfl rfl rfl

theorem Inside.record (h : Inside targ k) (l : Text) : Inside targ (State.record sys F k l) := by
  unfold State.record State.screwup
  split
  · exact h
  · exact h.quiet ⟨rfl, rfl⟩ rfl rfl rfl rfl
  · have hin : Inside targ (k.reply true) := h.quiet ⟨rfl, rfl⟩ rfl rfl rfl rfl
    exact hin.leave
  · split
    · exact h.quiet ⟨rfl, rfl⟩ rfl rfl rfl rfl
    · exact h.quiet ⟨rfl, rfl⟩ rfl rfl rfl rfl
  · split
    · exact (h.read _).touches (named_target h.frame _) (touches_file _ _ _)
    · exact h.quiet ⟨rfl, rfl⟩ rfl rfl rfl rfl
  · split
    · exact (h.read _).dir (named_target h.frame _) _
    · exact h.quiet ⟨rfl, rfl⟩ rfl rfl rfl rfl
  · exact h.quiet ⟨rfl, rfl⟩ rfl rfl rfl rfl

theorem Inside.line (h : Inside targ k) : Inside targ (State.line sys F k) := by
  unfold State.line State.screwup
  split
  · exact h.leave
  · split_ifs
    · exact h.quiet ⟨rfl, rfl⟩ rfl rfl rfl rfl
    · refine Inside.record ?_ _
      exact h.quiet ⟨rfl, rfl⟩ rfl rfl rfl rfl
    · exact h.quiet ⟨rfl, rfl⟩ rfl rfl rfl rfl

theorem Inside.turn (h : Inside targ k) : Inside targ (State.turn sys F k) := by
  unfold State.turn
  split_ifs
  · exact h
  · split
    · exact h.line
    · rename_i heq
      exact h.touches (h.phase _ (congrArg Phase.np heq)) (touches_body _ _ _ k)
    · rename_i heq
      exact h.touches (h.phase _ (congrArg Phase.np heq)) (touches_respond _ k)

theorem Inside.turns : ∀ (n : ℕ) {k : State σ}, Inside targ k → Inside targ (turns sys F n k)
  | 0, _, h => h
  | n + 1, _, h => Inside.turns n h.turn

theorem inside_start {s : σ} (hdir : sys.stat s targ = some true) (input : Text) :
    Inside targ (start sys F s targ input) := by
  unfold start State.enter
  rw [hdir]
  simp only [bne_self_eq_false, Bool.and_false, Bool.false_eq_true, if_false, beq_self_eq_true]
  exact ⟨⟨[], nil_sublist _, rfl, fun _ => rfl⟩, nofun, nofun, nofun⟩

/-! ### Components -/

/-- One component, and neither of the two that lead elsewhere. -/
def Plain (name : Text) : Prop := 47 ∉ name ∧ name ≠ [] ∧ name ≠ [46] ∧ name ≠ [46, 46]

instance (name : Text) : Decidable (Plain name) := inferInstanceAs (Decidable (_ ∧ _))

/-- `targ` and so many plain components. -/
def Contained (targ : Path) (n : ℕ) (p : Path) : Prop :=
  ∃ cs : List Text, cs.length = n ∧ (∀ c ∈ cs, Plain c) ∧ p = below targ cs

theorem below_ne_nil (htarg : targ ≠ []) (names : List Text) : below targ names ≠ [] := by
  induction names using List.reverseRecOn with
  | nil => exact htarg
  | append_singleton names name ih =>
    rw [below_concat, append_assoc]
    exact append_ne_nil_of_left_ne_nil ih _

theorem splitOn_below (htarg : targ ≠ []) (names : List Text) :
    (below targ names).splitOn 47 = targ.splitOn 47 ++ names.flatMap fun name =>
    name.splitOn 47 := by
  induction names using List.reverseRecOn with
  | nil => exact (append_nil _).symm
  | append_singleton names name ih =>
    rw [below_concat, if_neg (below_ne_nil htarg names), append_assoc, singleton_append,
      splitOn_append_cons_self, ih, flatMap_append, flatMap_singleton, append_assoc]

theorem flatMap_splitOn_plain {cs : List Text} (h : ∀ c ∈ cs, 47 ∉ c) :
    (cs.flatMap fun c => c.splitOn 47) = cs := by
  induction cs with
  | nil => rfl
  | cons c cs ih =>
    rw [flatMap_cons, splitOn_eq_singleton (h c mem_cons_self),
      ih fun c' hc' => h c' (mem_cons_of_mem _ hc')]
    rfl

theorem length_le_flatMap_splitOn (names : List Text) :
    names.length ≤ (names.flatMap fun name => name.splitOn 47).length := by
  induction names with
  | nil => exact le_rfl
  | cons name names ih =>
    have hpos := length_pos_iff.2 (splitOn_ne_nil 47 name)
    rw [flatMap_cons, length_append, length_cons]
    omega

theorem flatMap_splitOn_eq {names : List Text}
    (h : (names.flatMap fun name => name.splitOn 47).length = names.length) :
    (names.flatMap fun name => name.splitOn 47) = names := by
  induction names with
  | nil => rfl
  | cons name names ih =>
    have hle := length_le_flatMap_splitOn names
    have hpos := length_pos_iff.2 (splitOn_ne_nil 47 name)
    rw [flatMap_cons, length_append, length_cons] at h
    obtain ⟨c, hc⟩ := length_eq_one_iff.1 (show (name.splitOn 47).length = 1 by omega)
    have hname : name = c := by
      have hjoin : [47].intercalate (name.splitOn 47) = name := intercalate_splitOn 47
      rw [← hjoin, hc, intercalate_singleton]
    rw [flatMap_cons, hc, ih (by omega), hname]
    rfl

/-- **A path is contained just in case the names it was made of are plain.** -/
theorem contained_iff (htarg : targ ≠ []) (names : List Text) :
    Contained targ names.length (below targ names) ↔ ∀ name ∈ names, Plain name := by
  constructor
  · rintro ⟨cs, hlen, hplain, heq⟩
    have hsplit := congrArg (List.splitOn 47) heq
    rw [splitOn_below htarg, splitOn_below htarg,
      flatMap_splitOn_plain fun c hc => (hplain c hc).1] at hsplit
    have hcs := append_cancel_left hsplit
    have hnames : names = cs := (flatMap_splitOn_eq (by rw [hcs, hlen])).symm.trans hcs
    rw [hnames]
    exact hplain
  · exact fun h => ⟨names, rfl, h, rfl⟩

end

/-- **Every path is the target and what the records named, one at a time**, and it is contained just
in case these names are plain. -/
theorem sink_below (sys : Os σ) (F : Flags) (s : σ) {targ : Path} (htarg : targ ≠ [])
    (hdir : sys.stat s targ = some true) (input : Text) (n : ℕ) :
    ∀ a ∈ (turns sys F n (start sys F s targ input)).acts, ∃ names, names ≠ [] ∧
      names.Sublist (turns sys F n (start sys F s targ input)).records ∧ a.path = below targ names ∧
        (Contained targ names.length a.path ↔ ∀ name ∈ names, Plain name) := by
  intro a ha
  obtain ⟨names, hne, hsub, hp⟩ := (Inside.turns n (inside_start hdir input)).acts a ha
  refine ⟨names, hne, hsub, hp, ?_⟩
  rw [hp]
  exact contained_iff htarg names

/-! ### A name that leads out -/

/-- A system in which all is well, and `t` is the one directory. -/
def willing : Os Unit :=
  ⟨fun _ p => if p = [116] then some true else none, fun _ _ => true, fun _ _ => (true, ())⟩

/-- `C0644 0 ../x`, and no bytes. -/
def upward : Text := [67, 48, 54, 52, 52, 32, 48, 32, 46, 46, 47, 120, 10, 0]

theorem sink_below_upward : willing.stat () [116] = some true ∧
    ∀ a ∈ (turns willing ⟨false, true, 0⟩ 2 (start willing ⟨false, true, 0⟩ () [116] upward)).acts,
    ∃ names, names ≠ [] ∧
      names.Sublist
      (turns willing ⟨false, true, 0⟩ 2 (start willing ⟨false, true, 0⟩ () [116] upward)).records ∧
        a.path = below [116] names ∧
        (Contained [116] names.length a.path ↔ ∀ name ∈ names, Plain name) :=
  ⟨by decide, sink_below willing ⟨false, true, 0⟩ () (by decide) (by decide) upward 2⟩

/-- `t/../x` is made, and it is not `t` and plain components. -/
theorem sink_leads_out : willing.stat () [116] = some true ∧
    ∃ a ∈ (turns willing ⟨false, true, 0⟩ 1 (start willing ⟨false, true, 0⟩ () [116] upward)).acts,
      ¬ ∃ n, Contained [116] n a.path := by
  have hmade : [116, 47, 46, 46, 47, 120] ∈ (turns willing ⟨false, true, 0⟩ 1
      (start willing ⟨false, true, 0⟩ () [116] upward)).acts.map Act.path := by decide
  obtain ⟨a, ha, hpath⟩ := mem_map.1 hmade
  refine ⟨rfl, a, ha, ?_⟩
  rintro ⟨n, cs, -, hplain, heq⟩
  rw [hpath] at heq
  have hsplit := congrArg (List.splitOn 47) heq
  rw [splitOn_below (by decide), flatMap_splitOn_plain fun c hc => (hplain c hc).1] at hsplit
  have hboth : [[116]] ++ [[46, 46], [120]] = [[116]] ++ cs := hsplit
  have hcs : [[46, 46], [120]] = cs := append_cancel_left hboth
  have hup : Plain [46, 46] := hplain _ (hcs ▸ mem_cons_self)
  exact hup.2.2.2 rfl

end Inetutils.Rcp.Sink
