import Inetutils.Lib.Runs
import Inetutils.Tftp.Subs

/-! # What the two buffers keep

Between the calls of `readit` the buffers hold at most one block read ahead (`Reads`), between the
calls of `writeit` at most one block still to be written (`Writes`). So the early calls of
`read_ahead` and `write_behind` change nothing of what comes out: `readit` gives the blocks of the
stream of the file one after the other, and what is written is the stream of the blocks put in,
decoded (`netascii_round_trip`). -/

namespace Inetutils.Tftp.Buffers

open Lib.Runs Lib.Blocks Proto Subs

variable {convert : Bool} {s : Bufs}

/-! ### Reading -/

abbrev filled (data : List Byte) : Bf := ⟨data.length, data⟩

/-- The next calls of `readit` give the blocks of `l`. -/
structure Reads (convert : Bool) (s : Bufs) (file l : List Byte) : Prop where
  busy : (s.bfs s.current).counter ≠ BF_FREE
  next :
    (s.nextone = !s.current ∧ (s.bfs (!s.current)).counter = BF_FREE ∧
      remaining convert s.newline s.prevchar file = l) ∨
    (s.nextone = s.current ∧ s.bfs (!s.current) = filled (l.take SEGSIZE) ∧
      remaining convert s.newline s.prevchar file = l.drop SEGSIZE)

theorem reads_rInit (convert : Bool) (s : Bufs) (content : List Byte) :
    Reads convert (rInit s) content (stream convert content) where
  busy := by simp [rInit, rwInit]
  next := .inl ⟨rfl, rfl, rfl⟩

@[simp] theorem take_filled (data : List Byte) :
    (filled data).data.take (filled data).counter.toNat = data := by
  rw [Int.toNat_natCast, List.take_length]

theorem filled_ne_free (data : List Byte) : (filled data).counter ≠ BF_FREE := by
  simp only [BF_FREE]
  omega

theorem readAhead_of_free (convert : Bool) (file : List Byte)
    (h : (s.bfs s.nextone).counter = BF_FREE) :
    ∃ s' file', readAhead convert s file = (s', file') ∧ s'.current = s.current ∧
      s'.nextone = !s.nextone ∧
      s'.bfs s.nextone = filled ((remaining convert s.newline s.prevchar file).take SEGSIZE) ∧
      s'.bfs (!s.nextone) = s.bfs (!s.nextone) ∧
      remaining convert s'.newline s'.prevchar file' =
        (remaining convert s.newline s.prevchar file).drop SEGSIZE := by
  rw [readAhead, if_neg (not_not.2 h)]
  cases convert with
  | false =>
    refine ⟨_, _, rfl, rfl, rfl, ?_, ?_, rfl⟩ <;> simp [Bufs.setBf, remaining]
  | true =>
    obtain ⟨h1, h2⟩ := fill_eq SEGSIZE s.newline s.prevchar file
    refine ⟨_, _, rfl, rfl, rfl, ?_, ?_, h2⟩
    · simp [Bufs.setBf, remaining, h1]
    · simp [Bufs.setBf]

variable {l content : List Byte}

theorem reads_readAhead {file : List Byte} (h : Reads convert s file l) :
    Reads convert (readAhead convert s file).1 (readAhead convert s file).2 l ∧
      (readAhead convert s file).1.dp = s.dp := by
  obtain ⟨hnext, hfree, hrem⟩ | ⟨hnext, -, -⟩ := h.next
  · obtain ⟨s', file', heq, hcur, hnext', hbf, hother, hrem'⟩ :=
      readAhead_of_free convert file (hnext ▸ hfree)
    have hdp : s'.bfs s'.current = s.bfs s.current := by
      rw [hcur]
      simpa [hnext] using hother
    rw [heq]
    refine ⟨⟨hdp ▸ h.busy, .inr ⟨?_, ?_, hrem ▸ hrem'⟩⟩, hdp⟩
    · rw [hnext', hnext, hcur, Bool.not_not]
    · rw [hcur, ← hnext, hbf, hrem]
  · have hbusy : (s.bfs s.nextone).counter ≠ BF_FREE := hnext ▸ h.busy
    rw [readAhead, if_pos hbusy]
    exact ⟨h, rfl⟩

theorem reads_readit {file : List Byte} (h : Reads convert s file l) :
    Reads convert (readit convert s file).1 (readit convert s file).2 (l.drop SEGSIZE) ∧
      (readit convert s file).1.dp = filled (l.take SEGSIZE) := by
  -- the buffer in use is given back, and the other one is taken
  obtain ⟨s₁, hs₁⟩ : ∃ s₁ :
    Bufs, s₁ = { s.setBf s.current { s.bfs s.current with counter := BF_FREE } with
      current := !s.current } := ⟨_, rfl⟩
  have hcur : s₁.current = !s.current := by rw [hs₁]
  have hold : (s₁.bfs s.current).counter = BF_FREE := by simp [hs₁, Bufs.setBf]
  have hnew : s₁.bfs (!s.current) = s.bfs (!s.current) := by simp [hs₁, Bufs.setBf]
  have hnextone : s₁.nextone = s.nextone := by rw [hs₁]; rfl
  have hrem₁ : remaining convert s₁.newline s₁.prevchar file =
      remaining convert s.newline s.prevchar file := by rw [hs₁]; rfl
  have hreadit : readit convert s file =
      if (s₁.bfs s₁.current).counter = BF_FREE then readAhead convert s₁ file else (s₁, file) := by
    rw [hs₁]; rfl
  rw [hreadit]
  obtain ⟨hnext, hfree, hrem⟩ | ⟨hnext, hahead, hrem⟩ := h.next
  · rw [if_pos (by rw [hcur, hnew, hfree])]
    obtain ⟨s', file', heq, hcur', hnext', hbf, hother, hrem'⟩ :=
      readAhead_of_free convert file
        (show (s₁.bfs s₁.nextone).counter = BF_FREE by rw [hnextone, hnext, hnew, hfree])
    rw [hnextone, hnext] at hbf hother hnext'
    rw [hrem₁, hrem] at hbf hrem'
    rw [heq, Bufs.dp, hcur', hcur, hbf]
    refine ⟨⟨?_, .inl ⟨?_, ?_, hrem'⟩⟩, rfl⟩
    · rw [hcur', hcur, hbf]
      exact filled_ne_free _
    · rw [hnext', hcur', hcur]
    · rw [hcur', hcur, hother, Bool.not_not, hold]
  · have hne : (s₁.bfs s₁.current).counter ≠ BF_FREE := by
      rw [hcur, hnew, hahead]
      exact filled_ne_free _
    rw [if_neg hne, Bufs.dp]
    refine ⟨⟨hne, .inl ⟨?_, ?_, by rw [hrem₁, hrem]⟩⟩, by rw [hcur, hnew, hahead]⟩
    · rw [hnextone, hnext, hcur, Bool.not_not]
    · rw [hcur, Bool.not_not, hold]

/-! ### Writing -/

/-- Of the stream `l` at most the last part is still in the other buffer. -/
structure Writes (convert : Bool) (s : Bufs) (f : WFile) (l : List Byte) : Prop where
  alloc : (s.bfs s.current).counter = BF_ALLOC
  next :
    (s.nextone = s.current ∧ (s.bfs (!s.current)).counter = BF_FREE ∧
      (s.prevchar, f) = written convert l) ∨
    (s.nextone = !s.current ∧ ∃ l' data, l = l' ++ data ∧ s.bfs (!s.current) = filled data ∧
      (s.prevchar, f) = written convert l')

theorem writes_wInit (convert : Bool) (s : Bufs) : Writes convert (wInit s) WFile.empty [] where
  alloc := rfl
  next := .inl ⟨rfl, rfl, by cases convert <;> rfl⟩

theorem writeBehind_of_filled (convert : Bool) (f : WFile) {data : List Byte}
    (h : s.bfs s.nextone = filled data) :
    ∃ s' f', writeBehind convert s f = (s', f') ∧ s'.current = s.current ∧ s'.nextone = !s.nextone ∧
      (s'.bfs s.nextone).counter = BF_FREE ∧ s'.bfs (!s.nextone) = s.bfs (!s.nextone) ∧
      (s'.prevchar, f') = flush convert (s.prevchar, f) data := by
  have hc : ¬ (filled data).counter < -1 := by
    simp only [not_lt]
    omega
  rw [writeBehind, h, if_neg hc]
  by_cases hpos : (filled data).counter ≤ 0
  · have hdata : data = [] := List.length_eq_zero_iff.1 (by simpa using hpos)
    rw [if_pos hpos]
    refine ⟨_, _, rfl, rfl, rfl, ?_, ?_, ?_⟩
    · simp [Bufs.setBf]
    · simp [Bufs.setBf]
    · cases convert <;> simp [flush, hdata, Bufs.setBf]
  · rw [if_neg hpos]
    refine ⟨_, _, rfl, rfl, rfl, ?_, ?_, ?_⟩
    · simp [Bufs.setBf]
    · simp [Bufs.setBf]
    · exact congrArg (flush convert (s.prevchar, f)) (take_filled data)

theorem writes_writeBehind {f : WFile} (h : Writes convert s f l) :
    Writes convert (writeBehind convert s f).1 (writeBehind convert s f).2 l ∧
      (writeBehind convert s f).2 = (written convert l).2 := by
  obtain ⟨hnext, hfree, hw⟩ | ⟨hnext, l', data, rfl, hbf, hw⟩ := h.next
  · have hc : (s.bfs s.nextone).counter < -1 := by rw [hnext, h.alloc]; decide
    rw [writeBehind, if_pos hc]
    exact ⟨h, by rw [← hw]⟩
  · obtain ⟨s', f', heq, hcur, hnext', hfree, hother, hw'⟩ :=
      writeBehind_of_filled convert f (hnext ▸ hbf)
    rw [hw, written, ← flush_append, ← written] at hw'
    rw [hnext] at hnext' hfree hother
    rw [Bool.not_not] at hnext' hother
    rw [heq]
    refine ⟨⟨by rw [hcur, hother, h.alloc], .inl ⟨?_, ?_, hw'⟩⟩, by rw [← hw']⟩
    · rw [hnext', hcur]
    · rw [hcur, hfree]

/-- **`writeit` takes the next part of the stream.** -/
theorem writes_writeit {f : WFile} (h : Writes convert s f l) (data : List Byte) :
    Writes convert (writeit convert (s.receive data) f data.length).1
      (writeit convert (s.receive data) f data.length).2 (l ++ data) := by
  -- the buffer in use is full, and the other one is taken
  obtain ⟨s₁, hs₁⟩ : ∃ s₁ :
    Bufs, s₁ = { s.setBf s.current (filled data) with current := !s.current } :=
    ⟨_, rfl⟩
  have hcur : s₁.current = !s.current := by rw [hs₁]
  have hfull : s₁.bfs s.current = filled data := by simp [hs₁, Bufs.setBf]
  have hother : s₁.bfs (!s.current) = s.bfs (!s.current) := by simp [hs₁, Bufs.setBf]
  have hnextone : s₁.nextone = s.nextone := by rw [hs₁]; rfl
  have hprev : s₁.prevchar = s.prevchar := by rw [hs₁]; rfl
  have hwriteit : writeit convert (s.receive data) f data.length =
      let r := if (s₁.bfs s₁.current).counter ≠ BF_FREE then writeBehind convert s₁ f else (s₁, f)
      (r.1.setBf r.1.current { r.1.bfs r.1.current with counter := BF_ALLOC }, r.2) := by
    have hset :
        (s.receive data).setBf s.current (filled data) = s.setBf s.current (filled data) := by
      simp only [Bufs.receive, Bufs.setBf]
      congr 1
      funext j
      split_ifs <;> rfl
    have hdata :
        { (s.receive data).bfs s.current with counter := (data.length : ℤ) } = filled data := by
      simp [Bufs.receive, Bufs.setBf]
    rw [hs₁, ← hset, ← hdata]
    rfl
  rw [hwriteit]
  obtain ⟨hnext, hfree, hw⟩ | ⟨hnext, l', data', rfl, hbf, hw⟩ := h.next
  · have hfree₁ : ¬ (s₁.bfs s₁.current).counter ≠ BF_FREE := by rw [hcur, hother, hfree]; simp
    simp only [if_neg hfree₁]
    refine ⟨by simp [Bufs.setBf], .inr ⟨?_, l, data, rfl, ?_, ?_⟩⟩
    · simp [Bufs.setBf, hcur, hnextone, hnext]
    · simp [Bufs.setBf, hcur, hfull]
    · simpa [Bufs.setBf, hprev] using hw
  · have hbf₁ : s₁.bfs s₁.nextone = filled data' := by rw [hnextone, hnext, hother, hbf]
    have hbusy : (s₁.bfs s₁.current).counter ≠ BF_FREE := by
      rw [hcur, hother, hbf]
      exact filled_ne_free _
    obtain ⟨s', f', heq, hcur', hnext', -, hother', hw'⟩ :=
      writeBehind_of_filled convert f hbf₁
    rw [hprev, hw, written, ← flush_append, ← written] at hw'
    rw [hnextone, hnext, Bool.not_not] at hnext' hother'
    simp only [if_pos hbusy, heq]
    refine ⟨by simp [Bufs.setBf], .inr ⟨?_, l' ++ data', data, rfl, ?_, hw'⟩⟩
    · simp [Bufs.setBf, hcur', hcur, hnext']
    · simp [Bufs.setBf, hcur', hcur, hother', hfull]

/-! ### Runs of the calls -/

inductive ReadOp
  | readAhead
  | readit

/-- The buffers, the file and the blocks that `readit` gave. -/
structure Reading where
  bufs : Bufs
  file : List Byte
  given : List (List Byte)

def readStep (convert : Bool) (r : Reading) : ReadOp → Reading
  | .readAhead => let (bufs, file) := readAhead convert r.bufs r.file;
      { r with bufs := bufs, file := file }
  | .readit =>
    let (bufs, file) := readit convert r.bufs r.file
    ⟨bufs, file, r.given ++ [bufs.dp.data.take bufs.dp.counter.toNat]⟩

/-- `while (size == SEGSIZE)`: after a shorter block `readit` is not called any more. -/
def readOk (r : Reading) (op : ReadOp) : Prop :=
  match op with
  | .readAhead => True
  | .readit => ∀ b ∈ r.given.getLast?, b.length = SEGSIZE

instance (r : Reading) (op : ReadOp) : Decidable (readOk r op) :=
  match op with
  | .readAhead => inferInstanceAs (Decidable True)
  | .readit => inferInstanceAs (Decidable (∀ b ∈ r.given.getLast?, b.length = SEGSIZE))

def startRead (s : Bufs) (content : List Byte) : Reading := ⟨rInit s, content, []⟩

inductive WriteOp
  | writeBehind
  | writeit (data : List Byte)

structure Writing where
  bufs : Bufs
  file : WFile

def writeStep (convert : Bool) (w : Writing) : WriteOp → Writing
  | .writeBehind => let (bufs, file) := writeBehind convert w.bufs w.file; ⟨bufs, file⟩
  | .writeit data => let (bufs, file) := writeit convert (w.bufs.receive data) w.file data.length;
      ⟨bufs, file⟩

def startWrite (s : Bufs) : Writing := ⟨wInit s, WFile.empty⟩

def fed (ops : List WriteOp) : List (List Byte) :=
  ops.filterMap fun
    | .writeBehind => none
    | .writeit data => some data

/-- What is read so far are the first blocks of the stream, and the rest of it is still to come. -/
structure ReadInv (convert : Bool) (content : List Byte) (r : Reading) : Prop where
  reads : Reads convert r.bufs r.file ((stream convert content).drop (SEGSIZE * r.given.length))
  given : r.given = (List.range r.given.length).map (block SEGSIZE (stream convert content))
  short : r.given.length ≤ count SEGSIZE (stream convert content)

variable {r : Reading}

theorem readInv_step {op : ReadOp} (h : ReadInv convert content r) (hok : readOk r op) :
    ReadInv convert content (readStep convert r op) := by
  cases op with
  | readAhead => exact ⟨(reads_readAhead h.reads).1, h.given, h.short⟩
  | readit =>
    obtain ⟨hreads, hdp⟩ := reads_readit h.reads
    have hblock : (readit convert r.bufs r.file).1.dp.data.take
        (readit convert r.bufs r.file).1.dp.counter.toNat =
          block SEGSIZE (stream convert content) r.given.length := by
      rw [hdp, take_filled]
      rfl
    have hlen : (readStep convert r .readit).given.length = r.given.length + 1 := by simp [readStep]
    refine ⟨?_, ?_, ?_⟩
    · rw [hlen, Nat.mul_succ, ← List.drop_drop]
      exact hreads
    · rw [hlen, List.range_succ, List.map_append, ← h.given]
      simp only [readStep, hblock, List.map_cons, List.map_nil]
    · rw [hlen]
      refine Nat.lt_of_not_le fun hle => ?_
      -- the last block read would be the last of the stream, and `readit` is not called after that
      have hcount : r.given.length = count SEGSIZE (stream convert content) :=
        Nat.le_antisymm h.short hle
      have hlast : r.given.getLast? =
        some (block SEGSIZE (stream convert content) (r.given.length - 1)) := by
        rw [h.given, hcount, count, List.range_succ, List.map_append]
        simp
      have hfull := (length_block_eq_iff (by decide) _ _).1 (hok _ hlast)
      rw [hcount, count] at hfull
      omega

theorem readInv_run {s : Bufs} {ops : List ReadOp}
    (h : Allowed (readStep convert) readOk (startRead s content) ops) :
    ReadInv convert content (run (readStep convert) (startRead s content) ops) :=
  run_inv (fun _ _ => readInv_step) ⟨reads_rInit convert s content, rfl, Nat.zero_le _⟩ h

theorem writes_run {w : Writing} (h : Writes convert w.bufs w.file l) (ops : List WriteOp) :
    Writes convert (run (writeStep convert) w ops).bufs (run (writeStep convert) w ops).file
      (l ++ (fed ops).flatten) := by
  induction ops generalizing w l with
  | nil => simpa [fed] using h
  | cons op ops ih =>
    cases op with
    | writeBehind => exact ih (writes_writeBehind h).1
    | writeit data =>
      have := ih (w := writeStep convert w (.writeit data)) (writes_writeit h data)
      rwa [List.append_assoc] at this

/-- Where the loop has ended, all the blocks of the stream have been read. -/
theorem given_eq_blocks (h : ReadInv convert content r)
    (hend : ∃ b, r.given.getLast? = some b ∧ b.length ≠ SEGSIZE) :
    r.given = blocks SEGSIZE (stream convert content) := by
  obtain ⟨b, hb, hshort⟩ := hend
  have hpos : 0 < r.given.length := List.length_pos_iff.2 fun hnil => by simp [hnil] at hb
  have hlast : b = block SEGSIZE (stream convert content) (r.given.length - 1) := by
    rw [h.given, ← Nat.succ_pred_eq_of_pos hpos, List.range_succ, List.map_append] at hb
    simpa using hb.symm
  rw [hlast, Ne, length_block_eq_iff (by decide)] at hshort
  have hcount : r.given.length = count SEGSIZE (stream convert content) := by
    have := h.short
    omega
  rw [h.given, hcount, blocks]

/-- **Netascii is lossless**, whenever blocks are read ahead and written behind. -/
theorem netascii_round_trip (content : List Byte) (s s' : Bufs) (reads : List ReadOp)
    (writes : List WriteOp)
    (given : List (List Byte))
    (hgiven : (run (readStep true) (startRead s content) reads).given = given)
    (hloop : Allowed (readStep true) readOk (startRead s content) reads)
    (hend : ∃ b, given.getLast? = some b ∧ b.length ≠ SEGSIZE) (hfed : fed writes = given) :
    (writeBehind true (run (writeStep true) (startWrite s') writes).bufs
        (run (writeStep true) (startWrite s') writes).file).2 = WFile.at content ∧
      (∀ b ∈ given.dropLast, b.length = SEGSIZE) ∧
      ∀ i, given.flatten[i]? = some CR →
        given.flatten[i + 1]? = some LF ∨ given.flatten[i + 1]? = some NUL := by
  have hblocks : given = blocks SEGSIZE (stream true content) := by
    rw [← hgiven] at hend ⊢
    exact given_eq_blocks (readInv_run hloop) hend
  have hflat : given.flatten = encode content := by
    rw [hblocks, flatten_blocks (by decide)]
    rfl
  refine ⟨?_, ?_, ?_⟩
  · have hw := writes_run (w := startWrite s') (writes_wInit true s') writes
    rw [hfed, List.nil_append, hflat] at hw
    rw [(writes_writeBehind hw).2]
    exact written_stream true content
  · intro b hb
    rw [hblocks, blocks, count, List.range_succ, List.map_append, List.map_singleton,
      List.dropLast_concat] at hb
    obtain ⟨k, hk, rfl⟩ := List.mem_map.1 hb
    rw [length_block_eq_iff (by decide), count]
    exact Nat.succ_lt_succ (List.mem_range.1 hk)
  · intro i hi
    rw [hflat] at hi ⊢
    exact encode_cr hi

/-- A file with CR and LF in it. -/
theorem netascii_round_trip_cr :
    let s : Bufs := ⟨fun _ => ⟨0, []⟩, false, false, false, none⟩
    let writes : List WriteOp := [.writeBehind, .writeit [CR, NUL, CR, LF]]
    (writeBehind true (run (writeStep true) (startWrite s) writes).bufs
        (run (writeStep true) (startWrite s) writes).file).2 = WFile.at [CR, LF] :=
  (netascii_round_trip [CR, LF] ⟨fun _ => ⟨0, []⟩, false, false, false, none⟩ _
    [.readAhead, .readit, .readAhead]
    [.writeBehind, .writeit [CR, NUL, CR, LF]] [[CR, NUL, CR, LF]] (by decide)
    (by decide) ⟨_, rfl, by decide⟩ rfl).1

end Inetutils.Tftp.Buffers
