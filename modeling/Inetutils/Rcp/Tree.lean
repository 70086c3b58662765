import Inetutils.Lib.Exchange
import Inetutils.Rcp.Files

/-! # A tree arrives

`source` and `rsource` of `src/rcp.c`, with `-r`, at one end of a connection and `sink` at the
other, on files and directories that can be read. The bytes and the responses are on the way in any
order; a read of `sink` returns when what it reads is there, or when `source` has returned. -/

namespace Inetutils.Rcp.Tree

open Lib.Blocks Lib.Decimal Lib.Exchange Lib.Mealy Lib.Pieces List
open Files Records Sink

variable {l : Text}

/-! ### Trees -/

abbrev Name := { l : Text // Plain l ∧ 0 ∉ l ∧ l.length ≤ 255 }

/-- What `off_t` can express. -/
abbrev Data := { l : Text // l.length < 2 ^ 63 }

abbrev Date := { t : Stamp // (-2 ^ 63 ≤ t.sec ∧ t.sec < 2 ^ 63) ∧ t.nsec < 10 ^ 9 }

/-- What `fstat` says. -/
structure Attr where
  mode : Mode
  mtime : Date
  atime : Date

/-- The entries of a directory, in the order of `readdir`, or the names that `source` is called
for. -/
inductive Entries
  | nil
  | file (name : Name) (a : Attr) (data : Data) (rest : Entries)
  | dir (name : Name) (a : Attr) (contents rest : Entries)

def Entries.names : Entries → List Text
  | .nil => []
  | .file name _ _ rest => name.1 :: rest.names
  | .dir name _ _ rest => name.1 :: rest.names

def Entries.Distinct : Entries → Prop
  | .nil => True
  | .file name _ _ rest => name.1 ∉ rest.names ∧ rest.Distinct
  | .dir name _ contents rest => name.1 ∉ rest.names ∧ contents.Distinct ∧ rest.Distinct

structure Item where
  attr : Attr
  data : Option Data

def Entries.find : Entries → List Text → Option Item
  | .nil, _ => none
  | .file name a data rest, names =>
    if names = [name.1] then some ⟨a, some data⟩ else rest.find names
  | .dir _ _ _ _, [] => none
  | .dir name a contents rest, n :: names =>
    if n = name.1 then if names = [] then some ⟨a, none⟩ else contents.find names
    else rest.find (n :: names)

def Entries.All (P : Text → Item → Prop) : Entries → Prop
  | .nil => True
  | .file name a data rest => P name.1 ⟨a, some data⟩ ∧ rest.All P
  | .dir name a contents rest => P name.1 ⟨a, none⟩ ∧ contents.All P ∧ rest.All P

/-! ### `source` -/

/-- Whether a `stat` has microseconds. -/
structure Sender where
  usec : Bool

/-- What `write_stat_time` makes of a time. -/
def Sender.time (S : Sender) (t : Date) : Time := ⟨t.1.sec, if S.usec then t.1.nsec / 1000 else 0⟩

variable (H : Host) (F : Flags) (S : Sender)

def times (a : Attr) (good bad : Client UInt8) : Client UInt8 :=
  if F.preserve then .sends (statTime (S.time a.mtime) (S.time a.atime) ++ [10]) (.await good bad)
  else good

def sourceFile (name : Name) (a : Attr) (data : Data) (next : Client UInt8) : Client UInt8 :=
  times F S a
    (.sends (fileRecord a.mode.toNat data.1.length name.1 ++ [10])
      (.await (.sends data.1 (.send 0 (.await next next))) next)) next

def rsource (name : Name) (a : Attr) (contents : Client UInt8 → Client UInt8)
    (next : Client UInt8) : Client UInt8 :=
  times F S a
    (.sends (dirRecord a.mode.toNat name.1 ++ [10])
      (.await (contents (.sends (endRecord ++ [10]) (.await next next))) next)) next

def source : Entries → Client UInt8 → Client UInt8
  | .nil, next => next
  | .file name a data rest, next => sourceFile F S name a data (source rest next)
  | .dir name a contents rest, next => rsource F S name a (source contents) (source rest next)

/-! ### The two together -/

/-- What `sink` reads next is there. -/
def ready {σ : Type*} (k : State σ) : Bool :=
  k.live &&
    match k.phase, k.input with
    | .record, [] => false
    | .record, b :: l => b = 10 ∨ Whole (bufsiz - 1) (b :: l)
    | .body _ _ _ size, l => size.toNat ≤ l.length
    | .status _ _, [] => false
    | .status _ _, b :: l => b = 0 ∨ Whole (if b = 1 ∨ b = 2 then bufsiz else bufsiz - 1) l

def serve (k : State Disk) (b : UInt8) : State Disk × List Bool :=
  if ready { k with input := k.input ++ [b] } then
    (State.turn (disk H) F { k with input := k.input ++ [b], replies := [] },
      (State.turn (disk H) F { k with input := k.input ++ [b], replies := [] }).replies)
  else ({ k with input := k.input ++ [b] }, [])

def rules : Rules (State Disk) UInt8 Bool where
  serve := serve H F
  good := id
  fits := fun _ _ => true
  sound := fun _ => true
  sound_of_serve := fun _ _ _ => rfl

/-- `source` reads the first null byte of `sink` before it begins. -/
def begin (es : Entries) (targ : Path) (D : Disk) : Sys (State Disk) UInt8 Bool :=
  ⟨.await (source F S es .done) .done, [], [], Sink.start (disk H) F D targ [],
    (Sink.start (disk H) F D targ []).replies, true⟩

def closed (k : State Disk) : State Disk := turns (disk H) F (k.outer.length + 1) k

/-! ### What is copied -/

def kept (mode : Mode) : Mode := if F.preserve then mode else mode &&& ~~~F.mask

def got (x : Item) : Mode :=
  match x.data with
  | some _ => if x.attr.mode = writable x.attr.mode then H.written (kept F x.attr.mode)
    else kept F x.attr.mode
  | none => x.attr.mode

/-- `n` is a copy of `x` with this mode, and with these times if `-p` is given. -/
def Copy (x : Item) (mode : Mode) (mtime atime : Stamp) (n : Node) : Prop :=
  match x.data, n with
  | some data, .file mode' data' mtime' atime' =>
    mode' = mode ∧ data' = data.1 ∧ (F.preserve → mtime' = mtime ∧ atime' = atime)
  | none, .dir mode' mtime' atime' => mode' = mode ∧ (F.preserve → mtime' = mtime ∧ atime' = atime)
  | _, _ => False

def Matches (x : Item) (n : Node) : Prop :=
  Copy F x (kept F x.attr.mode) x.attr.mtime.1 x.attr.atime.1 n

def Sender.sent (t : Date) : Stamp := stampOf ((S.time t).sec.toNat, (S.time t).usec)

/-! ### Feeding `sink` -/

section
variable {H : Host} {F : Flags} {S : Sender} {k : State Disk}

theorem ready_record (hlive : k.live = true) (hphase : k.phase = .record) (b : UInt8) (l : Text) :
    ready { k with input := b :: l } = decide (b = 10 ∨ Whole (bufsiz - 1) (b :: l)) := by
  rw [hlive, hphase]
  rfl

variable {np : Path} {existed : Bool} {omode mode : Mode} {size : ℤ} {wrerr : Wrerr} {b : UInt8}
  {a : Attr} {mtime atime : Stamp}

theorem ready_body (hlive : k.live = true) (hphase : k.phase = .body np existed omode size)
    (l : Text) : ready { k with input := l } = decide (size.toNat ≤ l.length) := by
  rw [hlive, hphase]
  rfl

theorem ready_status (hlive : k.live = true) (hphase : k.phase = .status np wrerr) :
    ready { k with input := [0] } = true := by
  rw [hlive, hphase]
  rfl

theorem turn_body (hlive : k.live = true) (hphase : k.phase = .body np existed omode size) :
    State.turn (disk H) F k = State.body (disk H) F np existed omode size k := by
  unfold State.turn
  rw [hlive, hphase]
  rfl

theorem turn_status (hlive : k.live = true) (hphase : k.phase = .status np wrerr) :
    State.turn (disk H) F k = State.respond (disk H) np wrerr k := by
  unfold State.turn
  rw [hlive, hphase]
  rfl

theorem serve_ready (h : ready { k with input := k.input ++ [b] }) :
    serve H F k b = (State.turn (disk H) F { k with input := k.input ++ [b], replies := [] },
      (State.turn (disk H) F { k with input := k.input ++ [b], replies := [] }).replies) := if_pos h

theorem serve_waits (h : ready { k with input := k.input ++ [b] } = false) :
    serve H F k b = ({ k with input := k.input ++ [b] }, []) := if_neg (ne_true_of_eq_false h)

theorem feed_waits : ∀ (l : Text) {k : State Disk},
    (∀ l', l' ≠ [] → l' <+: l → ready { k with input := k.input ++ l' } = false) →
      feed (serve H F) k l = ({ k with input := k.input ++ l }, [])
  | [], k, _ => by
    rw [append_nil]
    rfl
  | b :: l, k, h => by
    have hb := serve_waits (H := H) (F := F) (h [b] (cons_ne_nil _ _) ⟨l, rfl⟩)
    have hl := feed_waits l (k := { k with input := k.input ++ [b] }) fun l' hl' hpre => by
      have := h (b :: l') (cons_ne_nil _ _) ((prefix_cons_inj b).2 hpre)
      simpa using this
    rw [feed_cons, hb, hl]
    simp

theorem feed_until (hk : k.input = [])
    (hwait : ∀ l', l' ≠ [] → l' <+: l → ready { k with input := l' } = false)
    (hready : ready { k with input := l ++ [b] }) :
    feed (serve H F) k (l ++ [b]) =
    (State.turn (disk H) F { k with input := l ++ [b], replies := [] },
      (State.turn (disk H) F { k with input := l ++ [b], replies := [] }).replies) := by
  have hl := feed_waits (H := H) (F := F) l (k := k) fun l' hl' hpre => by
    rw [hk]
    exact hwait l' hl' hpre
  rw [hk, nil_append] at hl
  rw [feed_append, hl, feed_cons, feed_nil, serve_ready (k := { k with input := l }) hready]
  simp

/-! ### A line -/

theorem not_whole {n : ℕ} (h : 10 ∉ l) (hlen : l.length < n) : ¬ Whole n l := by
  have hpiece : (piece 10 n l).1 = l := by
    have hnil := congrArg Prod.fst (piece_of_not_mem 10 h hlen [])
    rwa [append_nil, piece_nil, append_nil] at hnil
  unfold Whole
  rw [hpiece, not_or]
  exact ⟨fun hlast => h (mem_of_getLast? hlast), fun heq => by omega⟩

theorem cstring_line (h : 0 ∉ l) : cstring (l ++ [10]) = l := by
  unfold cstring
  rw [getLast?_concat, if_pos rfl, dropLast_concat]
  refine takeWhile_eq_self_iff.2 fun b hb => decide_eq_true fun heq => ?_
  exact h (heq ▸ hb)

/-- `sink` waits for what is read next. -/
structure At (f : Frame) (outer : List Outer) (phase : Phase) (D : Disk) (k : State Disk) :
    Prop where
  live : k.live = true
  input : k.input = []
  frame : k.frame = f
  outer : k.outer = outer
  phase : k.phase = phase
  os : k.os = D

variable {f : Frame} {outer : List Outer} {phase : Phase} {D : Disk}

theorem feed_line (h : At f outer .record D k) (hne : l ≠ []) (h10 : 10 ∉ l) (h0 : 0 ∉ l)
    (hlen : l.length + 1 < bufsiz) :
    feed (serve H F) k (l ++ [10]) =
      (State.record (disk H) F { k with replies := [] } l,
        (State.record (disk H) F { k with replies := [] } l).replies) := by
  obtain ⟨b, l, rfl⟩ := exists_cons_of_ne_nil hne
  have hb : b ≠ 10 := fun heq => h10 (heq ▸ mem_cons_self)
  have hwhole : piece 10 (bufsiz - 1) (b :: (l ++ [10])) = (b :: (l ++ [10]), []) :=
    piece_of_delim 10 h10 (by omega) []
  have hw : Whole (bufsiz - 1) (b :: (l ++ [10])) := by
    refine .inl ?_
    rw [hwhole]
    exact getLast?_concat (l := b :: l)
  have hturn : State.turn (disk H) F { k with input := b :: (l ++ [10]), replies := [] } =
      State.record (disk H) F { k with replies := [] } (b :: l) := by
    unfold State.turn State.line
    simp only [h.live, h.phase, if_neg hb, if_pos hw, hwhole, Bool.not_true,
      Bool.false_eq_true, if_false]
    rw [← cons_append, cstring_line h0, ← h.input]
  rw [feed_until h.input ?_ ?_, cons_append, hturn]
  · intro l' hl' hpre
    obtain ⟨b', l', rfl⟩ := exists_cons_of_ne_nil hl'
    have h10' : 10 ∉ b' :: l' := fun hmem => h10 (hpre.subset hmem)
    rw [ready_record h.live h.phase]
    refine decide_eq_false (not_or.2 ⟨fun heq => h10' (heq ▸ mem_cons_self), ?_⟩)
    exact not_whole h10' (lt_of_le_of_lt hpre.length_le (by omega))
  · rw [cons_append, ready_record h.live h.phase]
    exact decide_eq_true (.inr hw)

/-! ### What the lines are made of -/

theorem not_mem_decimal (hb : isDigit b = false) (n : ℕ) : b ∉ decimal n := fun h =>
  Bool.false_ne_true (hb.symm.trans (isDigit_of_mem_decimal n b h))

theorem length_decimal_le {n : ℕ} : ∀ {d : ℕ}, n < 10 ^ (d + 1) → (decimal n).length ≤ d + 1
  | 0, h => by
    rw [decimal_of_lt h]
    exact le_rfl
  | d + 1, h => by
    rcases Nat.lt_or_ge n 10 with hn | hn
    · rw [decimal_of_lt hn]
      exact Nat.le_add_left _ _
    · have hdiv : n / 10 < 10 ^ (d + 1) := by omega
      rw [decimal_of_le hn, length_append, length_singleton]
      exact Nat.succ_le_succ (length_decimal_le hdiv)

theorem not_mem_octal (hb : isDigit b = false) (mode : ℕ) : b ∉ octal mode := by
  have hdigit : ∀ d < 8, isDigit (48 + d).toUInt8 = true := by decide
  have hlt : ∀ n : ℕ, n % 8 < 8 := fun n => Nat.mod_lt n (by decide)
  intro h
  obtain ⟨d, hd, rfl⟩ := mem_map.1 h
  refine Bool.false_ne_true (hb.symm.trans (hdigit d ?_))
  simp only [mem_cons, not_mem_nil, or_false] at hd
  rcases hd with rfl | rfl | rfl | rfl <;> exact hlt _

theorem parseEntry_record (mode : Mode) (size : ℕ) (name : Text) :
    parseEntry (octal mode.toNat ++ 32 :: (decimal size ++ 32 :: name)) =
    some (mode, wrap size, name) := by
  have hmode : BitVec.ofNat 12 (mode.toNat % 4096) = mode := by
    rw [Nat.mod_eq_of_lt mode.isLt, BitVec.ofNat_toNat, BitVec.setWidth_eq]
  unfold parseEntry
  rw [getmode_octal, Option.bind_eq_bind, Option.bind_some]
  dsimp only
  rw [delim_cons, Option.bind_eq_bind, Option.bind_some, getnum_decimal (by decide)]
  rw [delim_cons, hmode]
  rfl

theorem record_times {mtime atime : ℕ × ℕ} (h : parseTimes l = some (.times mtime atime)) :
    State.record (disk H) F k (84 :: l) =
      { k.reply true with frame := { k.frame with setimes := true, times := (mtime, atime) } } := by
  rw [State.record, h]

theorem record_file {name : Text} (h : parseEntry l = some (mode, size, name)) :
    State.record (disk H) F k (67 :: l) =
      State.file (disk H) F (k.frame.target name) mode size (k.read name) := by
  rw [State.record, h]

theorem record_dir {name : Text} (h : parseEntry l = some (mode, size, name)) :
    State.record (disk H) F k (68 :: l) =
    State.dir (disk H) F (k.frame.target name) mode (k.read name) := by
  rw [State.record, h]

theorem parseTimes_statTime {mtime atime : Time} (hm : 0 ≤ mtime.sec) (ha : 0 ≤ atime.sec) :
    parseTimes (statTime mtime atime).tail =
      some (.times (mtime.sec.toNat, mtime.usec) (atime.sec.toNat, atime.usec)) := by
  have hparse : (parseTimes (statTime mtime atime).tail).getD .screwup =
      .times (mtime.sec.toNat, mtime.usec) (atime.sec.toNat, atime.usec) := parse_statTime hm ha
  rcases h : parseTimes (statTime mtime atime).tail with - | r
  · rw [h] at hparse
    exact absurd hparse nofun
  · rw [h] at hparse
    exact congrArg some hparse

theorem record_statTime {mtime atime : Time} (hm : 0 ≤ mtime.sec) (ha : 0 ≤ atime.sec) :
    State.record (disk H) F k (statTime mtime atime) =
      { k.reply true with
        frame := { k.frame with
          setimes := true, times :=
            ((mtime.sec.toNat, mtime.usec), (atime.sec.toNat, atime.usec)) } } :=
  record_times (parseTimes_statTime hm ha)

/-! ### The times -/

theorem ends_answered {k' : State Disk} (h : feed (serve H F) k l = (k', [true]))
    (good bad : Client UInt8) :
    (rules H F).ends (.sends l (.await good bad)) k [] = (rules H F).ends good k' [] := by
  have hserve : feed (rules H F).serve k l = (k', [true]) := h
  rw [Rules.ends_sends, hserve]
  rfl

def Dated (F : Flags) (a : Attr) : Prop := F.preserve → 0 ≤ a.mtime.1.sec ∧ 0 ≤ a.atime.1.sec

def Sender.times (S : Sender) (a : Attr) : Times :=
  (((S.time a.mtime).sec.toNat, (S.time a.mtime).usec),
    ((S.time a.atime).sec.toNat, (S.time a.atime).usec))

theorem usec_lt (t : Date) : (S.time t).usec < 1000000 := by
  unfold Sender.time
  dsimp only
  split
  · omega
  · decide

theorem statTime_line {mtime atime : Date} (hm : 0 ≤ mtime.1.sec) (ha : 0 ≤ atime.1.sec) :
    10 ∉ statTime (S.time mtime) (S.time atime) ∧ 0 ∉ statTime (S.time mtime) (S.time atime) ∧
      (statTime (S.time mtime) (S.time atime)).length + 1 < bufsiz := by
  have hmsec : (S.time mtime).sec = mtime.1.sec := rfl
  have hasec : (S.time atime).sec = atime.1.sec := rfl
  have hnot : ∀ b :
      UInt8, isDigit b = false → b ≠ 32 → b ≠ 84 → b ∉ statTime (S.time mtime) (S.time atime) := by
    intro b hb h32 h84
    unfold statTime
    rw [hmsec, hasec, decimalInt_of_nonneg hm, decimalInt_of_nonneg ha]
    simp [not_mem_decimal hb, h32, h84]
  refine ⟨hnot 10 (by decide) (by decide) (by decide),
    hnot 0 (by decide) (by decide) (by decide), ?_⟩
  have h1 := length_decimal_le (n := mtime.1.sec.toNat) (d := 18) (by have := mtime.2.1.2; omega)
  have h2 := length_decimal_le (n := (S.time mtime).usec) (d := 5) (usec_lt mtime)
  have h3 := length_decimal_le (n := atime.1.sec.toNat) (d := 18) (by have := atime.2.1.2; omega)
  have h4 := length_decimal_le (n := (S.time atime).usec) (d := 5) (usec_lt atime)
  unfold statTime
  rw [hmsec, hasec, decimalInt_of_nonneg hm, decimalInt_of_nonneg ha]
  simp only [length_cons, length_append]
  unfold bufsiz
  omega

/-- **The times are read, and the rest goes on.** -/
theorem ends_times (h : At f outer .record D k) (hf : f.setimes = false) (hd : Dated F a)
    (good bad : Client UInt8) :
    ∃ k' f', At f' outer .record D k' ∧ f'.targ = f.targ ∧ f'.targisdir = f.targisdir ∧
    f'.setimes = F.preserve ∧ (F.preserve → f'.times = S.times a) ∧
        (rules H F).ends (times F S a good bad) k [] = (rules H F).ends good k' [] := by
  unfold times
  by_cases hp : F.preserve
  · rw [if_pos hp]
    obtain ⟨hm, ha⟩ := hd hp
    obtain ⟨h10, h0, hlen⟩ := statTime_line (S := S) hm ha
    have hne : statTime (S.time a.mtime) (S.time a.atime) ≠ [] := cons_ne_nil _ _
    have hfeed := feed_line (H := H) (F := F) h hne h10 h0 hlen
    rw [record_statTime (by exact hm) (by exact ha)] at hfeed
    refine ⟨_, { f with setimes := true, times := S.times a }, ?_, rfl, rfl, hp.symm, fun _ => rfl,
      ends_answered hfeed good bad⟩
    rw [← h.frame]
    exact ⟨h.live, h.input, rfl, h.outer, h.phase, h.os⟩
  · rw [if_neg hp]
    exact ⟨k, f, h, rfl, rfl, hf.trans (eq_false_of_ne_true hp).symm, fun hp' => absurd hp' hp, rfl⟩

/-! ### A file -/

theorem At.call (h : At f outer phase D k) (a : Act) :
    At f outer phase (D.act H a).2 (k.call (disk H) a).2 :=
  ⟨h.live, h.input, h.frame, h.outer, h.phase, congrArg (fun d => (Disk.act H d a).2) h.os⟩

theorem call_fst (h : At f outer phase D k) (a : Act) : (k.call (disk H) a).1 = (D.act H a).1 :=
  congrArg (fun d => (Disk.act H d a).1) h.os

theorem At.reply (h : At f outer phase D k) (ok : Bool) : At f outer phase D (k.reply ok) :=
  ⟨h.live, h.input, h.frame, h.outer, h.phase, h.os⟩

theorem At.turnTo (h : At f outer phase D k) (phase' : Phase) :
    At f outer phase' D { k with phase := phase' } :=
  ⟨h.live, h.input, h.frame, h.outer, rfl, h.os⟩

theorem callOrErr_eq (h : At f outer phase D k) {a : Act} (ha : (D.act H a).1 = true) :
    k.callOrErr (disk H) a = (true, (k.call (disk H) a).2) := by
  have hcall := (call_fst h a).trans ha
  unfold State.callOrErr
  rw [hcall]
  rfl

theorem setMode_new (np : Path) (omode : Mode) (k : State Disk) :
    State.setMode (disk H) F np false omode k =
      if omode = writable omode then k
      else (k.callOrErr (disk H) (.chmod np (kept F omode))).2 := by
  unfold State.setMode kept
  by_cases hp : F.preserve
  · simp [hp]
  · simp [hp]

variable {targ : Path} {loc : List Text} (htarg : targ ≠ []) (hloc : ∀ n ∈ loc, Plain n)
include htarg hloc

theorem writeBlocks_new : ∀ (bs : List Text) {k : State Disk} {D : Disk} {mode : Mode} {data : Text}
    {mtime atime : Stamp},
    At f outer phase D k → D.at targ loc = some (.file mode data mtime atime) →
    D.offset = data.length →
      ∃ D' mode' mtime', (State.writeBlocks (disk H) (below targ loc) bs k).1 = true ∧
        At f outer phase D' (State.writeBlocks (disk H) (below targ loc) bs k).2 ∧
        (State.writeBlocks (disk H) (below targ loc) bs k).2.replies = k.replies ∧
        D'.at targ loc = some (.file mode' (data ++ bs.flatten) mtime' atime) ∧
        H.written mode' = H.written mode ∧ Changes targ loc D D'
  | [], k, D, mode, data, mtime, atime, h, hfile, _ => by
    rw [flatten_nil, append_nil]
    exact ⟨D, mode, mtime, rfl, h, rfl, hfile, rfl, .refl rfl⟩
  | b :: bs, k, D, mode, data, mtime, atime, h, hfile, hoffset => by
    obtain ⟨hok, hfile', hoffset'⟩ := act_write (H := H) hfile hoffset b
    have hcall := (call_fst h (.write (below targ loc) b)).trans hok
    obtain ⟨D', mode', mtime', hres, hat, hreplies, hfile'', hmode, hchanges⟩ :=
      writeBlocks_new bs (h.call (.write (below targ loc) b)) hfile' hoffset'
    have hwritten : H.written (H.written mode) = H.written mode := by
      unfold Host.written
      split_ifs
      · rw [BitVec.and_assoc, BitVec.and_self]
      · rfl
    unfold State.writeBlocks
    rw [if_pos hcall, flatten_cons, ← append_assoc]
    refine ⟨D', mode', mtime', hres, hat, hreplies, hfile'', hmode.trans hwritten, ?_⟩
    exact (changes_act htarg hloc rfl).trans hchanges

variable {data : Text}

theorem close_new (omode : Mode) {k : State Disk} {D : Disk} (h : At f outer phase D k)
    (hfile : D.at targ loc = some (.file mode data mtime atime)) :
    ∃ D' mtime', At f outer (.status (below targ loc) .no) D'
        (State.close (disk H) F (below targ loc) false omode data.length true k) ∧
      (State.close (disk H) F (below targ loc) false omode data.length true k).replies = k.replies ∧
      D'.at targ loc = some (.file
        (if omode = writable omode then H.written mode else kept F omode) data mtime' atime) ∧
      Changes targ loc D D' := by
  obtain ⟨hok, hfile'⟩ := act_ftruncate (H := H) hfile
  have hcall := callOrErr_eq h hok
  have hat := h.call (H := H) (.ftruncate (below targ loc) data.length)
  unfold State.close
  rw [hcall]
  rw [setMode_new]
  by_cases hmode : omode = writable omode
  · rw [if_pos hmode, if_pos hmode]
    exact ⟨_, _, hat.turnTo _, rfl, hfile', changes_act htarg hloc rfl⟩
  · obtain ⟨hok', hfile''⟩ := act_chmod_file (H := H) hfile' (kept F omode)
    rw [if_neg hmode, if_neg hmode, callOrErr_eq hat hok']
    exact ⟨_, _, (hat.call _).turnTo _, rfl, hfile'',
      (changes_act htarg hloc rfl).trans (changes_act htarg hloc rfl)⟩

omit htarg hloc in
theorem record_line {name : Name} (hname : 10 ∉ name.1) (mode : ℕ) {c : UInt8}
    (hc : c ≠ 10 ∧ c ≠ 0) {n : ℕ}
    (hn : n < 10 ^ 19) : let l := c :: (octal mode ++ 32 :: (decimal n ++ 32 :: name.1))
    10 ∉ l ∧ 0 ∉ l ∧ l.length + 1 < bufsiz := by
  have hnot : ∀ b : UInt8, isDigit b = false → b ≠ 32 → c ≠ b → b ∉ name.1 →
      b ∉ c :: (octal mode ++ 32 :: (decimal n ++ 32 :: name.1)) := by
    intro b hb h32 hcb hn
    simp [not_mem_octal hb, not_mem_decimal hb, h32, hcb.symm, hn]
  refine ⟨hnot 10 (by decide) (by decide) hc.1 hname,
    hnot 0 (by decide) (by decide) hc.2 name.2.2.1, ?_⟩
  have h1 := length_decimal_le hn
  have h3 : (octal mode).length = 4 := rfl
  simp only [length_cons, length_append]
  unfold bufsiz
  omega

omit htarg hloc in
theorem fileRecord_line {name : Name} (hname : 10 ∉ name.1) (mode : ℕ) (data : Data) :
    10 ∉ fileRecord mode data.1.length name.1 ∧ 0 ∉ fileRecord mode data.1.length name.1 ∧
      (fileRecord mode data.1.length name.1).length + 1 < bufsiz :=
  record_line hname mode (by decide) (by have := data.2; omega)

omit htarg hloc in
theorem flatten_blocksOf (data : Text) : (blocksOf data).flatten = data := by
  unfold blocksOf
  rw [flatten_map_block]
  refine take_of_length_le ?_
  unfold bufsiz
  omega

omit htarg hloc in
theorem kept_eq (mode : Mode) : kept F mode = mode &&& ~~~F.umask := by
  unfold kept Flags.umask
  split
  · exact (BitVec.and_allOnes (x := mode)).symm
  · rfl

omit htarg hloc in
theorem got_file (a : Attr) (data : Data) : got H F ⟨a, some data⟩ =
    if a.mode = writable a.mode then H.written (kept F a.mode) else kept F a.mode := rfl

theorem feed_body {k : State Disk} {D : Disk} (hdata : data ≠ [])
    (h : At f outer (.body (below targ loc) false omode data.length) D k)
    (hfile : D.at targ loc = some (.file mode [] mtime atime)) (hoffset : D.offset = 0) :
    ∃ k' D' mode' mtime', feed (serve H F) k data = (k', []) ∧
    At f outer (.status (below targ loc) .no) D' k' ∧ D'.at targ loc = some (.file
        (if omode = writable omode then H.written mode' else kept F omode) data mtime' atime) ∧
      H.written mode' = H.written mode ∧ Changes targ loc D D' := by
  have hstart : At f outer (.body (below targ loc) false omode data.length) D
      ({ k with input := data.drop data.length, replies := [] } : State Disk) :=
    ⟨h.live, drop_length, h.frame, h.outer, h.phase, h.os⟩
  obtain ⟨D₁, mode', mtime₁, hok, hat, hreplies, hfile₁, hmode, hchanges₁⟩ :=
    writeBlocks_new (H := H) htarg hloc (blocksOf data) hstart hfile hoffset
  rw [nil_append, flatten_blocksOf] at hfile₁
  obtain ⟨D₂, mtime₂, hat₂, hreplies₂, hfile₂, hchanges₂⟩ :=
    close_new (H := H) (F := F) htarg hloc omode hat hfile₁
  have hturn : State.turn (disk H) F { k with input := data, replies := [] } =
      State.close (disk H) F (below targ loc) false omode data.length true
        (State.writeBlocks (disk H) (below targ loc) (blocksOf data)
          { k with input := data.drop data.length, replies := [] }).2 := by
    rw [turn_body (k := { k with input := data, replies := [] }) h.live h.phase]
    unfold State.body
    simp only [Int.toNat_natCast, lt_irrefl, if_false, take_length, hok]
  refine ⟨_, D₂, mode', mtime₂, ?_, hat₂, hfile₂, hmode, hchanges₁.trans hchanges₂⟩
  obtain ⟨l, b, rfl⟩ := (eq_nil_or_concat data).resolve_left hdata
  rw [concat_eq_append] at *
  rw [feed_until h.input ?_ ?_, hturn, hreplies₂, hreplies]
  · intro l' _ hpre
    rw [ready_body h.live h.phase]
    have hle := hpre.length_le
    refine decide_eq_false ?_
    rw [Int.toNat_natCast, length_append, length_singleton]
    omega
  · rw [ready_body h.live h.phase]
    exact decide_eq_true (le_of_eq (Int.toNat_natCast _))

theorem create_new {k : State Disk} {D : Disk} (h : At f outer phase D k)
    (hfresh : D.at targ loc = none) (mode : Mode) (size : ℤ) :
    ∃ k' D', At f outer phase D' k' ∧ k'.replies = k.replies ++ [true] ∧
      D'.at targ loc = some (.file (writable mode &&& ~~~F.umask) [] H.now H.now) ∧ D'.offset = 0 ∧
      Changes targ loc D D' ∧
      State.file (disk H) F (below targ loc) mode size k =
        if 0 < size then { k' with phase := .body (below targ loc) false mode size }
        else State.close (disk H) F (below targ loc) false mode size true k' := by
  obtain ⟨hok, hfile, hoffset⟩ := act_create (H := H) hfresh (writable mode) F.umask
  have hcall := (call_fst h (.create (below targ loc) (writable mode) F.umask)).trans hok
  have hstat : ((disk H).stat k.os (below targ loc)).isSome = false := by
    show ((k.os.nodes (below targ loc)).map Node.isDir).isSome = false
    rw [h.os, show D.nodes (below targ loc) = none from hfresh]
    rfl
  have halloc : ∀ d : Disk, (disk H).alloc d (below targ loc) = true := fun _ => rfl
  refine ⟨_, _, (h.call (.create (below targ loc) (writable mode) F.umask)).reply true, rfl,
    hfile, hoffset, changes_act htarg hloc rfl, ?_⟩
  unfold State.file
  rw [hcall, halloc, hstat]
  rfl

theorem feed_file (h : At f outer .record D k) {name : Name} (hname : 10 ∉ name.1)
    (hnp : f.target name.1 = below targ loc) (hfresh : D.at targ loc = none) {data : Data}
    (hsize : data.1.length < 2 ^ 31) :
    ∃ k₁ k₂ D' mtime atime,
      feed (serve H F) k (fileRecord a.mode.toNat data.1.length name.1 ++ [10]) = (k₁, [true]) ∧
      feed (serve H F) k₁ data.1 = (k₂, []) ∧ At f outer (.status (below targ loc) .no) D' k₂ ∧
      D'.at targ loc = some (.file (got H F ⟨a, some data⟩) data.1 mtime atime) ∧
      Changes targ loc D D' := by
  obtain ⟨h10, h0, hlen⟩ := fileRecord_line hname a.mode.toNat data
  have hne : fileRecord a.mode.toNat data.1.length name.1 ≠ [] := cons_ne_nil _ _
  have hwrap : wrap data.1.length = data.1.length := (wrap_eq_iff _).2 hsize
  have hline := feed_line (H := H) (F := F) h hne h10 h0 hlen
  have hrecord := record_file (H := H) (F := F) (k := { k with replies := [] })
    (parseEntry_record a.mode data.1.length name.1)
  have hread : At f outer .record D (({ k with replies := [] } : State Disk).read name.1) :=
    ⟨h.live, h.input, h.frame, h.outer, h.phase, h.os⟩
  obtain ⟨k', D', hat, hreplies, hfile, hoffset, hchanges, heq⟩ :=
    create_new htarg hloc hread hfresh a.mode (wrap data.1.length)
  rw [show (({ k with replies := [] } : State Disk).frame.target name.1) = below targ loc from
    (congrArg (fun f => Frame.target f name.1) h.frame).trans hnp, heq, hwrap] at hrecord
  rw [show fileRecord a.mode.toNat data.1.length name.1 =
    67 :: (octal a.mode.toNat ++ 32 :: (decimal data.1.length ++ 32 :: name.1)) from rfl,
    hrecord] at hline
  have hgot : ∀ mode, H.written mode = H.written (writable a.mode &&& ~~~F.umask) →
      (if a.mode = writable a.mode then H.written mode else kept F a.mode) =
      got H F ⟨a, some data⟩ := by
    intro mode hmode
    rw [got_file]
    by_cases hw : a.mode = writable a.mode
    · rw [if_pos hw, if_pos hw, hmode, ← hw, kept_eq]
    · rw [if_neg hw, if_neg hw]
  by_cases hdata : data.1 = []
  · rw [hdata] at hline ⊢
    obtain ⟨D₂, mtime₂, hat₂, hreplies₂, hfile₂, hchanges₂⟩ :=
      close_new (H := H) (F := F) htarg hloc a.mode hat hfile
    rw [hgot _ rfl] at hfile₂
    have hlen0 : ¬ (0 : ℤ) < ([] : Text).length := lt_irrefl _
    rw [if_neg hlen0, hreplies₂, hreplies] at hline
    exact ⟨_, _, D₂, mtime₂, H.now, hline, rfl, hat₂, hfile₂, hchanges.trans hchanges₂⟩
  · have hlen0 : (0 : ℤ) < data.1.length := by
      have := length_pos_iff.2 hdata
      omega
    obtain ⟨k₂, D₂, mode', mtime₂, hfeed, hat₂, hfile₂, hmode, hchanges₂⟩ :=
      feed_body (H := H) (F := F) htarg hloc hdata
        (hat.turnTo (.body (below targ loc) false a.mode data.1.length)) hfile hoffset
    rw [if_pos hlen0] at hline
    rw [hgot mode' hmode] at hfile₂
    refine ⟨_, k₂, D₂, mtime₂, H.now, hline.trans ?_, hfeed, hat₂, hfile₂, hchanges.trans hchanges₂⟩
    rw [show (({ k' with phase := .body (below targ loc) false a.mode data.1.length } :
      State Disk).replies) = [true] from
      hreplies]

theorem feed_status {k : State Disk} {D : Disk} (h : At f outer (.status (below targ loc) .no) D k)
    (hfile : D.at targ loc = some (.file mode data mtime atime)) (hsetimes : f.setimes = F.preserve)
    (htimes : F.preserve → f.times = S.times a) :
    ∃ k' D' mtime' atime', feed (serve H F) k [0] = (k', [true]) ∧
      At { f with setimes := false } outer .record D' k' ∧
      D'.at targ loc = some (.file mode data mtime' atime') ∧
      (F.preserve → mtime' = S.sent a.mtime ∧ atime' = S.sent a.atime) ∧ Changes targ loc D D' := by
  have hturn : State.turn (disk H) F { k with input := [0], replies := [] } =
      State.finish (disk H) (below targ loc) .no { k with phase := .record, replies := [] } := by
    rw [turn_status (k := { k with input := [0], replies := [] }) h.live h.phase, ← h.input]
    rfl
  have hfeed : feed (serve H F) k [0] =
      (State.finish (disk H) (below targ loc) .no { k with phase := .record, replies := [] },
        (State.finish (disk H) (below targ loc) .no
          { k with phase := .record, replies := [] }).replies) := by
    rw [← hturn]
    refine feed_until (l := []) (b := 0) h.input (fun l' hl' hpre => ?_)
      (ready_status h.live h.phase)
    exact absurd (prefix_nil.1 hpre) hl'
  have hfinish :
      State.finish (disk H) (below targ loc) .no { k with phase := .record, replies := [] } =
      if k.frame.setimes then
        (({ k with
            phase := .record, replies := []
            frame := { k.frame with setimes := false } } : State Disk).call
          (disk H) (.utimes (below targ loc) k.frame.times)).2.reply
            (k.call (disk H) (.utimes (below targ loc) k.frame.times)).1
      else ({ k with phase := .record, replies := [] } : State Disk).reply true := rfl
  rw [hfeed, hfinish, h.frame, hsetimes]
  by_cases hp : F.preserve
  · have husec : f.times.1.2 < 1000000 ∧ f.times.2.2 < 1000000 := by
      rw [htimes hp]
      exact ⟨usec_lt _, usec_lt _⟩
    obtain ⟨hok, hfile'⟩ := act_utimes_file (H := H) husec hfile
    have hat : At { f with setimes := false } outer .record D
        ({ k with
            phase := .record, replies := [], frame := { f with setimes := false } } : State Disk) :=
      ⟨h.live, h.input, rfl, h.outer, rfl, h.os⟩
    rw [if_pos hp, (call_fst h (.utimes (below targ loc) f.times)).trans hok]
    refine ⟨_, _, _, _, rfl, (hat.call (.utimes (below targ loc) f.times)).reply true, hfile',
      fun _ => ?_, changes_act htarg hloc rfl⟩
    rw [htimes hp]
    exact ⟨rfl, rfl⟩
  · rw [if_neg hp]
    refine ⟨_, D, mtime, atime, rfl, ⟨h.live, h.input, ?_, h.outer, rfl, h.os⟩, hfile, fun hp' =>
      absurd hp' hp, .refl rfl⟩
    show f = _
    rw [← hsetimes.trans (eq_false_of_ne_true hp)]

end

/-! ### What arrives -/

/-- The copy that is made of `x`. -/
def Received (H : Host) (F : Flags) (S : Sender) (x : Item) (n : Node) : Prop :=
  Copy F x (got H F x) (S.sent x.attr.mtime) (S.sent x.attr.atime) n

/-- `es` at the end of `base`, when there was `D`. -/
def Holds (H : Host) (F : Flags) (S : Sender) (es : Entries) (targ : Path) (base : List Text)
    (D D' : Disk) : Prop :=
  ∀ names, names ≠ [] → (∀ n ∈ names, Plain n) →
    match es.find names with
    | some x => ∃ n, D'.at targ (base ++ names) = some n ∧ Received H F S x n
    | none => D'.at targ (base ++ names) = D.at targ (base ++ names)

/-- A file or a directory has arrived at the end of `loc`, with what is in it. -/
structure Arrived (H : Host) (F : Flags) (S : Sender) (x : Item) (contents : Entries) (targ : Path)
    (loc : List Text) (D D' : Disk) : Prop where
  self : ∃ n, D'.at targ loc = some n ∧ Received H F S x n
  inside : Holds H F S contents targ loc D D'
  other : ∀ names, (∀ n ∈ names, Plain n) → ¬ loc <+: names → (∀ name, loc ≠ names ++ [name]) →
    D'.at targ names = D.at targ names
  around : ∀ names, (∀ n ∈ names, Plain n) → (∃ name, loc = names ++ [name]) →
    (D'.at targ names).map Node.isDir = (D.at targ names).map Node.isDir

/-- All the entries have arrived in the directory at the end of `base`. -/
structure Grown (H : Host) (F : Flags) (S : Sender) (es : Entries) (targ : Path) (base : List Text)
    (D D' : Disk) :
    Prop where
  inside : Holds H F S es targ base D D'
  other : ∀ names, (∀ n ∈ names, Plain n) → ¬ base <+: names → D'.at targ names = D.at targ names
  here : (D'.at targ base).map Node.isDir = (D.at targ base).map Node.isDir

def Fresh (es : Entries) (targ : Path) (base : List Text) (D : Disk) : Prop :=
  ∀ n ∈ es.names, ∀ names, (∀ m ∈ names, Plain m) → D.at targ (base ++ n :: names) = none

section
variable {H : Host} {F : Flags} {S : Sender} {D D' D'' : Disk} {targ : Path}
    {base loc : List Text} {x : Item}
  {contents rest es : Entries} {name : Name}

variable {n : Text} {names : List Text}

theorem find_eq_none : ∀ {es : Entries}, n ∉ es.names → ∀ names, es.find (n :: names) = none
  | .nil, _, _ => rfl
  | .file name a data rest, h, names => by
    rw [Entries.names, mem_cons, not_or] at h
    rw [Entries.find, if_neg fun heq => h.1 (List.cons.inj heq).1]
    exact find_eq_none h.2 names
  | .dir name a contents rest, h, names => by
    rw [Entries.names, mem_cons, not_or] at h
    rw [Entries.find, if_neg h.1]
    exact find_eq_none h.2 names

theorem find_file_self (h : name.1 ∉ rest.names) (a : Attr) (data : Data) (names : List Text) :
    (Entries.file name a data rest).find (name.1 :: names) =
      if names = [] then some ⟨a, some data⟩ else Entries.nil.find names := by
  have heq : (Entries.file name a data rest).find (name.1 :: names) =
      if name.1 :: names = [name.1] then some ⟨a, some data⟩ else rest.find (name.1 :: names) := rfl
  rw [heq, find_eq_none h]
  simp only [List.cons.injEq, true_and]
  rfl

theorem find_file_other (hn : n ≠ name.1) (a : Attr) (data : Data) (names : List Text) :
    (Entries.file name a data rest).find (n :: names) = rest.find (n :: names) :=
  if_neg fun heq => hn (List.cons.inj heq).1

theorem find_dir_self (a : Attr) (names : List Text) :
    (Entries.dir name a contents rest).find (name.1 :: names) =
      if names = [] then some ⟨a, none⟩ else contents.find names := if_pos rfl

theorem find_dir_other (hn : n ≠ name.1) (a : Attr) (names : List Text) :
    (Entries.dir name a contents rest).find (n :: names) = rest.find (n :: names) := if_neg hn

theorem not_prefix_of_ne (hn : n ≠ name.1) (names : List Text) :
    ¬ base ++ [name.1] <+: base ++ n :: names := by
  rw [prefix_append_right_inj, prefix_cons_iff]
  rintro (h | ⟨l, h, -⟩)
  · exact cons_ne_nil _ _ h
  · exact hn (List.cons.inj h).1.symm

theorem Arrived.apart (h : Arrived H F S x contents targ (base ++ [name.1]) D D')
    (hbase : ∀ n ∈ base, Plain n) (hn : n ≠ name.1) (hplain : ∀ m ∈ n :: names, Plain m) :
    D'.at targ (base ++ n :: names) = D.at targ (base ++ n :: names) := by
  refine h.other _ (fun m hm => ?_) (not_prefix_of_ne hn names) fun m heq => ?_
  · exact (mem_append.1 hm).elim (hbase m) (hplain m)
  · have hlen := congrArg List.length heq
    simp only [length_append, length_cons, length_nil] at hlen
    omega

theorem Grown.cons (hself : ∀ names, es.find (name.1 :: names) = if names = [] then some x
      else contents.find names)
    (hother : ∀ n, n ≠ name.1 → ∀ names, es.find (n :: names) = rest.find (n :: names))
    (hrest : name.1 ∉ rest.names)
    (hbase : ∀ n ∈ base, Plain n) (h : Arrived H F S x contents targ (base ++ [name.1]) D D')
    (h' : Grown H F S rest targ base D' D'') : Grown H F S es targ base D D'' where
  inside := by
    rintro (- | ⟨n, names⟩) hne hplain
    · exact absurd rfl hne
    by_cases hn : n = name.1
    · subst hn
      have hnone := h'.inside (name.1 :: names) (cons_ne_nil _ _) hplain
      rw [find_eq_none hrest] at hnone
      rw [hself, hnone]
      by_cases hnames : names = []
      · rw [if_pos hnames, hnames]
        exact h.self
      · have hin := h.inside names hnames fun m hm => hplain m (mem_cons_of_mem _ hm)
        rw [if_neg hnames]
        rwa [append_assoc, singleton_append] at hin
    · have hin := h'.inside (n :: names) (cons_ne_nil _ _) hplain
      rw [hother n hn]
      rwa [h.apart hbase hn hplain] at hin
  other := fun names hplain hpre => by
    rw [h'.other names hplain hpre]
    refine h.other names hplain (fun hpre' => hpre ((prefix_append _ _).trans hpre')) fun m heq =>
      hpre ?_
    have hlen := congrArg List.length heq
    have hbase' := (append_inj heq (by simpa using hlen)).1
    exact hbase' ▸ prefix_rfl
  here := h'.here.trans (h.around base hbase ⟨name.1, rfl⟩)

theorem plain_of_mem_names : ∀ {es : Entries}, n ∈ es.names → Plain n
  | .file name _ _ _, h => (mem_cons.1 h).elim (fun heq => heq ▸ name.2.1) plain_of_mem_names
  | .dir name _ _ _, h => (mem_cons.1 h).elim (fun heq => heq ▸ name.2.1) plain_of_mem_names

theorem Fresh.others (h : Fresh es targ base D) (hsub : ∀ n ∈ rest.names, n ∈ es.names)
    (hname : name.1 ∉ rest.names)
    (hbase : ∀ n ∈ base, Plain n) (ha : Arrived H F S x contents targ (base ++ [name.1]) D D') :
    Fresh rest targ base D' := by
  intro n hn names hm
  have hne : n ≠ name.1 := fun heq => hname (heq ▸ hn)
  have hplain : ∀ m ∈ n :: names, Plain m := fun m hmem =>
    (mem_cons.1 hmem).elim (fun heq => heq ▸ plain_of_mem_names hn) (hm m)
  rw [ha.apart hbase hne hplain]
  exact h n (hsub n hn) names hm

theorem changes_below (hloc : ∀ n ∈ loc, Plain n) (h : Changes targ loc D D') (hne : names ≠ [])
    (hplain : ∀ n ∈ names, Plain n) : D'.at targ (loc ++ names) = D.at targ (loc ++ names) := by
  refine h.other _ (fun m hm => (mem_append.1 hm).elim (hloc m) (hplain m))
    (fun heq => ?_) fun m heq => ?_
  · exact hne (append_right_eq_self.1 heq)
  · have hlen := congrArg List.length heq
    simp only [length_append, length_singleton] at hlen
    omega

theorem Arrived.of_changes (hloc : ∀ n ∈ loc, Plain n) (h : Changes targ loc D D')
    (hself : ∃ n, D'.at targ loc = some n ∧ Received H F S x n) :
    Arrived H F S x .nil targ loc D D' where
  self := hself
  inside := fun _ hne hplain => changes_below hloc h hne hplain
  other := fun names hplain hpre hup =>
    h.other names hplain (fun heq => hpre (heq ▸ prefix_rfl)) hup
  around := h.around

theorem Arrived.of_dir (hloc : ∀ n ∈ loc, Plain n) {D₁ D₂ : Disk} (h : Changes targ loc D D₁)
    (hin : Grown H F S contents targ loc D₁ D₂) (h' : Changes targ loc D₂ D')
    (hself : ∃ n, D'.at targ loc = some n ∧ Received H F S x n) :
    Arrived H F S x contents targ loc D D' where
  self := hself
  inside := fun names hne hplain => by
    have hfound := hin.inside names hne hplain
    rw [changes_below hloc h' hne hplain]
    rwa [changes_below hloc h hne hplain] at hfound
  other := fun names hplain hpre hup => by
    have hne : names ≠ loc := fun heq => hpre (heq ▸ prefix_rfl)
    rw [h'.other names hplain hne hup, hin.other names hplain hpre, h.other names hplain hne hup]
  around := fun names hplain hup => by
    have hpre : ¬ loc <+: names := by
      obtain ⟨name, rfl⟩ := hup
      intro hpre
      have hlen := hpre.length_le
      rw [length_append, length_singleton] at hlen
      omega
    rw [h'.around names hplain hup, hin.other names hplain hpre, h.around names hplain hup]

end

/-! ### A file, a directory and a list of entries -/

section
variable {H : Host} {F : Flags} {S : Sender} {k : State Disk} {f : Frame} {outer : List Outer}
    {D : Disk} {targ : Path}
  {loc base : List Text} (htarg : targ ≠ []) (hloc : ∀ n ∈ loc, Plain n)
include htarg hloc

theorem ends_file (h : At f outer .record D k) (hf : f.setimes = false) {name : Name}
    (hname : 10 ∉ name.1)
    (hnp : f.target name.1 = below targ loc) (hfresh : D.at targ loc = none) {a : Attr}
    {data : Data} (hsize : data.1.length < 2 ^ 31) (hd : Dated F a) (next : Client UInt8) :
    ∃ k' f' D', At f' outer .record D' k' ∧ f'.targ = f.targ ∧ f'.targisdir = f.targisdir ∧
    f'.setimes = false ∧ Arrived H F S ⟨a, some data⟩ .nil targ loc D D' ∧
      (rules H F).ends (sourceFile F S name a data next) k [] = (rules H F).ends next k' [] := by
  obtain ⟨k₁, f', hat₁, htarg', hisdir, hsetimes, htimes, hends⟩ :=
    ends_times (H := H) (S := S) h hf hd
    (.sends (fileRecord a.mode.toNat data.1.length name.1 ++ [10])
      (.await (.sends data.1 (.send 0 (.await next next))) next)) next
  have hnp' : f'.target name.1 = below targ loc := by
    rw [← hnp, Frame.target, Frame.target, htarg', hisdir]
  obtain ⟨k₂, k₃, D₁, mtime₁, atime₁, hline, hdata, hat₃, hfile, hchanges⟩ :=
    feed_file (H := H) (F := F) htarg hloc hat₁ hname hnp' hfresh hsize (a := a)
  obtain ⟨k₄, D₂, mtime₂, atime₂, hstatus, hat₄, hfile₂, htimes₂, hchanges₂⟩ :=
    feed_status (H := H) (S := S) htarg hloc hat₃ hfile hsetimes htimes
  refine ⟨k₄, _, D₂, hat₄, htarg', hisdir, rfl, ?_, ?_⟩
  · exact Arrived.of_changes hloc (hchanges.trans hchanges₂) ⟨_, hfile₂, rfl, rfl, htimes₂⟩
  · have hserve : feed (rules H F).serve k₂ data.1 = (k₃, []) := hdata
    have hserve' : feed (rules H F).serve k₃ [0] = (k₄, [true]) := hstatus
    refine hends.trans ((ends_answered hline _ _).trans ?_)
    rw [Rules.ends_sends, hserve]
    have hlast := (rules H F).ends_sends [0] (.await next next) k₃ []
    rw [hserve'] at hlast
    exact hlast

omit htarg hloc in
theorem dirRecord_line {name : Name} (hname : 10 ∉ name.1) (mode : ℕ) :
    10 ∉ dirRecord mode name.1 ∧ 0 ∉ dirRecord mode name.1 ∧
    (dirRecord mode name.1).length + 1 < bufsiz :=
  record_line hname mode (by decide) (by decide)

theorem mkdir_new (h : At f outer .record D k) (hfresh : D.at targ loc = none) (mode : Mode) :
    ∃ D' mode', At ⟨below targ loc, true, false, ((0, 0), (0, 0))⟩
    (⟨f, below targ loc, mode, true⟩ :: outer) .record D'
        (State.dir (disk H) F (below targ loc) mode k) ∧
      (State.dir (disk H) F (below targ loc) mode k).replies = k.replies ++ [true] ∧
      D'.at targ loc = some (.dir mode' H.now H.now) ∧ Changes targ loc D D' := by
  obtain ⟨hok, hdir⟩ := act_mkdir (H := H) hfresh (mode ||| 0o700) F.umask
  have hat := h.call (H := H) (.mkdir (below targ loc) (mode ||| 0o700) F.umask)
  have hcall := (call_fst h (.mkdir (below targ loc) (mode ||| 0o700) F.umask)).trans hok
  have hstat : (disk H).stat k.os (below targ loc) = none := by
    show (k.os.nodes (below targ loc)).map Node.isDir = none
    rw [h.os, show D.nodes (below targ loc) = none from hfresh]
    rfl
  have hstat' : (disk H).stat (k.call (disk H) (.mkdir (below targ loc) (mode ||| 0o700)
    F.umask)).2.os (below targ loc) =
      some true := by
    rw [hat.os]
    exact congrArg (Option.map Node.isDir) hdir
  have heq : State.dir (disk H) F (below targ loc) mode k =
      { (k.call (disk H) (.mkdir (below targ loc) (mode ||| 0o700) F.umask)).2.reply true with
        frame := ⟨below targ loc, true, false, ((0, 0), (0, 0))⟩
        outer := ⟨f, below targ loc, mode, true⟩ :: outer } := by
    unfold State.dir
    rw [hstat]
    dsimp only
    rw [if_pos hcall, State.enter, hstat', bne_self_eq_false, Bool.and_false,
      if_neg Bool.false_ne_true, h.frame, h.outer]
    rfl
  rw [heq]
  exact ⟨_, _, ⟨hat.live, hat.input, rfl, rfl, hat.phase, hat.os⟩, rfl, hdir,
    changes_act htarg hloc rfl⟩

theorem feed_stop {f' : Frame} {mode mode' : Mode} {mtime atime : Stamp} {a : Attr}
    (h : At f' (⟨f, below targ loc, mode, true⟩ :: outer) .record D k)
    (hdir : D.at targ loc = some (.dir mode' mtime atime)) (hsetimes : f.setimes = F.preserve)
    (htimes : F.preserve → f.times = S.times a) :
    ∃ k' D' mtime' atime', feed (serve H F) k (endRecord ++ [10]) = (k', [true]) ∧
      At { f with setimes := false } outer .record D' k' ∧
      D'.at targ loc = some (.dir mode mtime' atime') ∧
      (F.preserve → mtime' = S.sent a.mtime ∧ atime' = S.sent a.atime) ∧ Changes targ loc D D' := by
  have hne : endRecord ≠ [] := cons_ne_nil _ _
  have hfeed := feed_line (H := H) (F := F) h hne (by decide) (by decide) (by decide)
  have hat : At { f with setimes := false } outer .record D
      ({ ({ k with replies := [] } : State Disk).reply true with
        frame := { f with setimes := false }, outer := outer } : State Disk) :=
    ⟨h.live, h.input, rfl, rfl, h.phase, h.os⟩
  have hrecord : State.record (disk H) F { k with replies := [] } endRecord =
      State.resume (disk H)
        { ({ k with replies := [] } : State Disk).reply true with
          frame := { f with setimes := false }, outer :=
            outer } ⟨f, below targ loc, mode, true⟩ := by
    show State.leave (disk H) (({ k with replies := [] } : State Disk).reply true) = _
    unfold State.leave
    rw [show (({ k with replies := [] } : State Disk).reply true).outer =
      ⟨f, below targ loc, mode, true⟩ :: outer from h.outer]
  rw [hfeed, hrecord]
  unfold State.resume State.callIf
  by_cases hp : F.preserve
  · have husec : f.times.1.2 < 1000000 ∧ f.times.2.2 < 1000000 := by
      rw [htimes hp]
      exact ⟨usec_lt _, usec_lt _⟩
    obtain ⟨hok, hdir'⟩ := act_utimes_dir (H := H) husec hdir
    obtain ⟨-, hdir''⟩ := act_chmod_dir (H := H) hdir' mode
    rw [hsetimes, if_pos hp, if_pos rfl, callOrErr_eq hat hok]
    refine ⟨_, _, _, _, rfl,
      (hat.call (.utimes (below targ loc) f.times)).call (.chmod (below targ loc) mode), hdir'',
      fun _ => ?_, (changes_act htarg hloc rfl).trans (changes_act htarg hloc rfl)⟩
    rw [htimes hp]
    exact ⟨rfl, rfl⟩
  · obtain ⟨-, hdir'⟩ := act_chmod_dir (H := H) hdir mode
    rw [hsetimes, if_neg hp, if_pos rfl]
    exact ⟨_, _, _, _, rfl, hat.call (.chmod (below targ loc) mode), hdir',
      fun hp' => absurd hp' hp, changes_act htarg hloc rfl⟩

def Ends (H : Host) (F : Flags) (S : Sender) (es : Entries) (targ : Path) (base : List Text) :
    Prop :=
  ∀ (k : State Disk) (f : Frame) (outer : List Outer) (D : Disk) (next : Client UInt8),
    At f outer .record D k →
    f.targ = below targ base → f.targisdir = true → f.setimes = false → Fresh es targ base D →
      ∃ k' f' D', At f' outer .record D' k' ∧ f'.targ = f.targ ∧ f'.targisdir = true ∧
      f'.setimes = false ∧
        Grown H F S es targ base D D' ∧
        (rules H F).ends (source F S es next) k [] = (rules H F).ends next k' []

theorem ends_dir (h : At f outer .record D k) (hf : f.setimes = false) {name : Name}
    (hname : 10 ∉ name.1) (hnp : f.target name.1 = below targ loc) {a : Attr} {contents : Entries}
    (hfresh : ∀ names, (∀ n ∈ names, Plain n) → D.at targ (loc ++ names) = none) (hd : Dated F a)
    (ih : Ends H F S contents targ loc) (next : Client UInt8) :
    ∃ k' f' D', At f' outer .record D' k' ∧ f'.targ = f.targ ∧ f'.targisdir = f.targisdir ∧
    f'.setimes = false ∧ Arrived H F S ⟨a, none⟩ contents targ loc D D' ∧
      (rules H F).ends (rsource F S name a (source F S contents) next) k [] =
      (rules H F).ends next k' [] := by
  obtain ⟨k₁, f', hat₁, htarg', hisdir, hsetimes, htimes, hends⟩ :=
    ends_times (H := H) (S := S) h hf hd
    (.sends (dirRecord a.mode.toNat name.1 ++ [10])
      (.await (source F S contents (.sends (endRecord ++ [10]) (.await next next))) next)) next
  have hnp' : f'.target name.1 = below targ loc := by
    rw [← hnp, Frame.target, Frame.target, htarg', hisdir]
  have hnew : D.at targ loc = none := by
    have := hfresh [] fun _ hn => absurd hn not_mem_nil
    rwa [append_nil] at this
  obtain ⟨h10, h0, hlen⟩ := dirRecord_line hname a.mode.toNat
  have hne : dirRecord a.mode.toNat name.1 ≠ [] := cons_ne_nil _ _
  have hline := feed_line (H := H) (F := F) hat₁ hne h10 h0 hlen
  have hrecord := record_dir (H := H) (F := F) (k := { k₁ with replies := [] })
    (parseEntry_record a.mode 0 name.1)
  have hread : At f' outer .record D (({ k₁ with replies := [] } : State Disk).read name.1) :=
    ⟨hat₁.live, hat₁.input, hat₁.frame, hat₁.outer, hat₁.phase, hat₁.os⟩
  obtain ⟨D₁, mode', hat₂, hreplies, hdir, hchanges⟩ :=
    mkdir_new (H := H) (F := F) htarg hloc hread hnew a.mode
  rw [show (({ k₁ with replies := [] } : State Disk).frame.target name.1) = below targ loc from
    (congrArg (fun f => Frame.target f name.1) hat₁.frame).trans hnp'] at hrecord
  rw [show dirRecord a.mode.toNat name.1 = 68 ::
    (octal a.mode.toNat ++ 32 :: (decimal 0 ++ 32 :: name.1)) from rfl, hrecord, hreplies] at hline
  have hfresh' : Fresh contents targ loc D₁ := by
    intro n hn names hm
    have hplain : ∀ m ∈ n :: names, Plain m := fun m hmem =>
      (mem_cons.1 hmem).elim (fun heq => heq ▸ plain_of_mem_names hn) (hm m)
    rw [changes_below hloc hchanges (cons_ne_nil _ _) hplain]
    exact hfresh (n :: names) hplain
  obtain ⟨k₃, f₃, D₂, hat₃, -, -, -, hgrown, hends₃⟩ :=
    ih _ _ _ _ (.sends (endRecord ++ [10]) (.await next next)) hat₂ rfl rfl rfl hfresh'
  have hdir₂ : ∃ mode₂ mtime₂ atime₂, D₂.at targ loc = some (.dir mode₂ mtime₂ atime₂) := by
    have hhere := hgrown.here
    rw [hdir] at hhere
    rcases hn : D₂.at targ loc with - | (⟨mode₂, data₂, mtime₂, atime₂⟩ | ⟨mode₂, mtime₂, atime₂⟩)
    · rw [hn] at hhere
      cases hhere
    · rw [hn] at hhere
      exact absurd (Option.some.inj hhere) Bool.false_ne_true
    · exact ⟨mode₂, mtime₂, atime₂, rfl⟩
  obtain ⟨mode₂, mtime₂, atime₂, hdir₂⟩ := hdir₂
  obtain ⟨k₄, D₃, mtime₃, atime₃, hstop, hat₄, hdir₃, htimes₃, hchanges₃⟩ :=
    feed_stop (H := H) (F := F) (S := S) htarg hloc hat₃ hdir₂ hsetimes htimes
  refine ⟨k₄, _, D₃, hat₄, htarg', hisdir, rfl, ?_, ?_⟩
  · exact Arrived.of_dir hloc hchanges hgrown hchanges₃ ⟨_, hdir₃, rfl, htimes₃⟩
  · refine hends.trans ((ends_answered hline _ _).trans (hends₃.trans ?_))
    exact ends_answered hstop next next

/-- The name has no newline, the size is an `int`, and with `-p` no time is before 1970. -/
def Sent (F : Flags) (name : Text) (x : Item) : Prop :=
  10 ∉ name ∧ (∀ data ∈ x.data, data.1.length < 2 ^ 31) ∧ Dated F x.attr

omit htarg hloc in
theorem target_below {base : List Text} (hf : f.targ = below targ base)
    (hisdir : f.targisdir = true) (name : Text) :
    f.target name = below targ (base ++ [name]) := by
  rw [Frame.target, if_pos hisdir, hf, below_concat]

omit htarg hloc in
theorem plain_concat {base : List Text} (hbase : ∀ n ∈ base, Plain n) (name : Name) :
    ∀ n ∈ base ++ [name.1], Plain n := fun n hn =>
  (mem_append.1 hn).elim (hbase n) fun hn => mem_singleton.1 hn ▸ name.2.1

omit hloc in
theorem ends_source : ∀ {es : Entries}, es.Distinct → es.All (Sent F) → ∀ {base : List Text},
    (∀ n ∈ base, Plain n) → Ends H F S es targ base
  | .nil, _, _, base, hbase => by
    intro k f outer D next h _ hisdir hsetimes _
    exact ⟨k, f, D, h, rfl, hisdir, hsetimes, ⟨fun _ _ _ => rfl, fun _ _ _ => rfl, rfl⟩, rfl⟩
  | .file name a data rest, ⟨hnotin, hdistinct⟩, ⟨⟨hname, hsize, hdated⟩, hsent⟩, base, hbase => by
    intro k f outer D next h hf hisdir hsetimes hfresh
    have hnew : D.at targ (base ++ [name.1]) = none := hfresh name.1 mem_cons_self [] nofun
    obtain ⟨k₁, f₁, D₁, hat₁, htarg₁, hisdir₁, hsetimes₁, harrived, hends₁⟩ :=
      ends_file (H := H) (S := S) htarg (plain_concat hbase name) h hsetimes hname
        (target_below hf hisdir name.1) hnew
        (hsize data rfl) hdated (source F S rest next)
    have hfresh₁ := hfresh.others (fun n hn => mem_cons_of_mem _ hn) hnotin hbase harrived
    obtain ⟨k₂, f₂, D₂, hat₂, htarg₂, hisdir₂, hsetimes₂, hgrown, hends₂⟩ :=
      ends_source hdistinct hsent hbase k₁ f₁ outer D₁ next hat₁ (htarg₁.trans hf)
        (hisdir₁.trans hisdir) hsetimes₁
        hfresh₁
    refine ⟨k₂, f₂, D₂, hat₂, htarg₂.trans htarg₁, hisdir₂, hsetimes₂, ?_, hends₁.trans hends₂⟩
    exact Grown.cons (find_file_self hnotin a data)
      (fun n hn names => find_file_other hn a data names) hnotin hbase
      harrived hgrown
  | .dir name a contents rest, ⟨hnotin, hinside, hdistinct⟩, ⟨⟨hname, _, hdated⟩, hin, hsent⟩,
    base, hbase => by
    intro k f outer D next h hf hisdir hsetimes hfresh
    have hnew : ∀ names, (∀ n ∈ names, Plain n) → D.at targ (base ++ [name.1] ++ names) = none := by
      intro names hplain
      rw [append_assoc, singleton_append]
      exact hfresh name.1 mem_cons_self names hplain
    obtain ⟨k₁, f₁, D₁, hat₁, htarg₁, hisdir₁, hsetimes₁, harrived, hends₁⟩ :=
      ends_dir (H := H) (S := S) htarg (plain_concat hbase name) h hsetimes hname
        (target_below hf hisdir name.1) hnew
        hdated (ends_source hinside hin (plain_concat hbase name)) (source F S rest next)
    have hfresh₁ := hfresh.others (fun n hn => mem_cons_of_mem _ hn) hnotin hbase harrived
    obtain ⟨k₂, f₂, D₂, hat₂, htarg₂, hisdir₂, hsetimes₂, hgrown, hends₂⟩ :=
      ends_source hdistinct hsent hbase k₁ f₁ outer D₁ next hat₁ (htarg₁.trans hf)
        (hisdir₁.trans hisdir) hsetimes₁
        hfresh₁
    refine ⟨k₂, f₂, D₂, hat₂, htarg₂.trans htarg₁, hisdir₂, hsetimes₂, ?_, hends₁.trans hends₂⟩
    exact Grown.cons (find_dir_self a)
      (fun n hn names => find_dir_other hn a names) hnotin hbase harrived hgrown

end

end Inetutils.Rcp.Tree
