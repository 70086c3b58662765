import Inetutils.Syslogd.Alone
import Inetutils.Lib.Repeats
import Inetutils.Lib.Mealy
import Inetutils.Lib.Runs

/-! # Lines that are repeated

A file that syslogd logs to, over any sequence of messages, timer calls and new initialisations. A
line that says how often the message before it was repeated stands for that many messages; with
those still counted in `f_prevcount` the file holds the messages that were logged to it, in order
(`repeats_expand`). A mark is not logged to a file that was written to a short time ago
(`mark_left_out`).

A message too long for `f_prevline` leaves an empty line saved, so that an empty message after it is
counted as one more of it. -/

namespace Inetutils.Syslogd.Alone

open Telnet.Proto Lib Lib.Decimal Lib.Repeats List
open Proto Entries

/-! ### What is to be in the file -/

section
variable (cfg : Config)

def Message.said (m : Message) : Option Text × Text := (some m.host, m.text)

/-- The messages that are to be in the file: those whose priority is wanted, less the marks that
come too soon. -/
def Solo.logged (now : ℤ) (c : Call) (s : Solo) : List (Option Text × Text) :=
  let m := Message.ofCall cfg.clock now c
  if s.filed.wants m && !s.filed.recent cfg.markInterval now m then [Message.said m] else []

def Solo.offered (s : Solo) : Op → List (Option Text × Text)
  | .logmsg now c => s.logged cfg now c
  | .domark _ now' => if s.markDue cfg then s.logged cfg now' (markCall cfg) else []
  | .init _ => []

end

/-! ### Reading the file -/

/-- `last message repeated ` -/
def repeatedHead : Text :=
  [108, 97, 115, 116, 32, 109, 101, 115, 115, 97, 103, 101,
    32, 114, 101, 112, 101, 97, 116, 101, 100, 32]

def readRepeated (t : Text) : Option ℕ :=
  if t.take 22 = repeatedHead ∧ (t.drop 22).dropWhile isDigit = [32, 116, 105, 109, 101, 115] then
    some (value 0 ((t.drop 22).takeWhile isDigit))
  else none

def Out.entry : Out → List (Entry (Option Text × Text))
  | .line _ host text =>
    match readRepeated text with
    | some n => [.again n]
    | none => [.once (host, text)]
  | _ => []

def Solo.written (s : Solo) : List (Option Text × Text) := expand (s.out.flatMap Out.entry)

def Solo.pending (s : Solo) : List (Option Text × Text) :=
  List.replicate s.filed.fPrevcount.toNat (s.filed.fPrevhost, s.filed.fPrevline)

/-- The last line is of a message that was too long to be saved. -/
def Solo.lastLong (s : Solo) : Bool :=
  match s.out.getLast? with
  | some (.line _ _ text) => MAXSVLINE ≤ text.length && (readRepeated text).isNone
  | _ => false

theorem nil_short : ([] : Text).length < MAXSVLINE ∧ readRepeated [] = none := by decide

theorem readRepeated_repeated (n : ℕ) : readRepeated (repeated n) = some n := by
  have hsp : isDigit 32 = false := by decide
  have h : repeated n = repeatedHead ++ (decimal n ++ 32 :: [116, 105, 109, 101, 115]) := by
    rw [repeated, append_assoc]
    rfl
  have hlen : repeatedHead.length = 22 := rfl
  rw [readRepeated, h, ← hlen, take_left, drop_left, takeWhile_decimal hsp, dropWhile_decimal hsp,
    value_decimal, if_pos ⟨rfl, rfl⟩]

/-! ### What the saved line is -/

/-- The entry writes to a file, and what it has saved is the last message in it, unless that was too
long to be saved. -/
structure Steady (s : Solo) : Prop where
  file : s.filed.fType = .file
  count : 0 ≤ s.filed.fPrevcount
  len : s.filed.fPrevlen = s.filed.fPrevline.length
  short : s.filed.fPrevline.length < MAXSVLINE
  plain : readRepeated s.filed.fPrevline = none
  host : s.filed.fPrevcount ≠ 0 → s.filed.fPrevhost ≠ none
  last : ∀ h, s.filed.fPrevhost = some h → s.lastLong = false →
    s.written.getLast? = some (some h, s.filed.fPrevline)
  long : s.lastLong = true → s.filed.fPrevcount = 0 ∧ s.filed.fPrevline = []

def Solo.content (s : Solo) : List (Option Text × Text) := s.written ++ s.pending

section
variable {cfg : Config} {s : Solo} {host : Text} {flags : Flags}

variable (cfg host flags) in
theorem fprintlog_file (hf : s.filed.fType = .file) (msg : Option Text) :
    Solo.fprintlog cfg host flags msg s = { s with
      filed := { s.filed with fTime := s.now, fPrevcount := 0 }
      out := s.out ++
        [.line s.filed.fLasttime s.filed.fPrevhost ((s.filed.said msg).1.take (s.filed.said msg).2)]
        } := by
  have hd :
      s.filed.deliver cfg {} s.now host flags msg = s.filed.writev {} s.now (s.filed.said msg) := by
    rw [Filed.deliver, hf]
  rw [Solo.fprintlog, hd, Filed.writev]
  rw [Filed.printed, if_neg (by dsimp only; rw [hf]; decide)]

theorem written_line (s : Solo) (f : Filed) (stamp text : Text) (h : Option Text) :
    Solo.written { s with filed := f, out := s.out ++ [.line stamp h text] } =
      expand (s.out.flatMap Out.entry ++ Out.entry (.line stamp h text)) := by
  rw [Solo.written, flatMap_append, flatMap_singleton]

theorem lastLong_line (s : Solo) (f : Filed) (stamp text : Text) (h : Option Text) :
    Solo.lastLong { s with filed := f, out := s.out ++ [.line stamp h text] } =
      (MAXSVLINE ≤ text.length && (readRepeated text).isNone : Bool) := by
  unfold Solo.lastLong
  rw [getLast?_concat]

theorem entry_once {text : Text} (ht : readRepeated text = none) (stamp : Text) (h : Option Text) :
    Out.entry (.line stamp h text) = [.once (h, text)] := by
  rw [Out.entry, ht]

variable (cfg host flags) in
theorem print_pending (hs : Steady s) (hc : s.filed.fPrevcount ≠ 0) :
    Steady (Solo.fprintlog cfg host flags none s) ∧
    (Solo.fprintlog cfg host flags none s).written = s.content ∧
    (Solo.fprintlog cfg host flags none s).filed =
    { s.filed with fTime := s.now, fPrevcount := 0 } ∧
    (Solo.fprintlog cfg host flags none s).now = s.now := by
  have hcount := hs.count
  have hlong : s.lastLong = false := by
    by_contra h
    exact hc (hs.long (by simpa using h)).1
  obtain ⟨h, hh⟩ := Option.ne_none_iff_exists'.1 (hs.host hc)
  have hlast := hs.last h hh hlong
  rw [fprintlog_file cfg host flags hs.file]
  rcases lt_or_ge 1 s.filed.fPrevcount with h1 | h1
  · -- the repetition is written
    have hsaid : s.filed.said none =
        (repeated s.filed.fPrevcount.toNat, (repeated s.filed.fPrevcount.toNat).length) := if_pos h1
    have hentry : Out.entry (.line s.filed.fLasttime s.filed.fPrevhost
        (repeated s.filed.fPrevcount.toNat)) = [.again s.filed.fPrevcount.toNat] := by
      rw [Out.entry, readRepeated_repeated]
    rw [hsaid, take_length]
    refine ⟨⟨hs.file, Int.le_refl 0, hs.len, hs.short, hs.plain, fun h => absurd rfl h, ?_, ?_⟩, ?_,
      rfl, rfl⟩
    · intro h' hh' _
      rw [written_line, hentry]
      exact getLast?_expand_again _ _ (hs.last h' hh' hlong)
    · intro h'
      rw [lastLong_line, readRepeated_repeated, Option.isNone_some, Bool.and_false] at h'
      exact absurd h' Bool.false_ne_true
    · rw [written_line, hentry, expand_again _ _ hlast, Solo.content, Solo.pending, hh]
      rfl
  · -- one message is pending, and is written itself
    have hcount1 : s.filed.fPrevcount = 1 := by omega
    rw [Filed.said_of_le h1, hs.len, take_length]
    refine ⟨⟨hs.file, Int.le_refl 0, hs.len, hs.short, hs.plain, fun h => absurd rfl h, ?_, ?_⟩, ?_,
      rfl, rfl⟩
    · intro h' hh' _
      rw [written_line, entry_once hs.plain, getLast?_expand_once, hh']
    · intro h'
      rw [lastLong_line, decide_eq_false (Nat.not_le.2 hs.short), Bool.false_and] at h'
      exact absurd h' Bool.false_ne_true
    · rw [written_line, entry_once hs.plain, expand_once, Solo.content, Solo.pending, hcount1]
      rfl

theorem Steady.congr {s' : Solo} (hs : Steady s) (htype : s'.filed.fType = s.filed.fType)
    (hcount : s'.filed.fPrevcount = s.filed.fPrevcount)
    (hlen : s'.filed.fPrevlen = s.filed.fPrevlen)
    (hline : s'.filed.fPrevline = s.filed.fPrevline)
    (hhost : s'.filed.fPrevhost = s.filed.fPrevhost) (hout : s'.out = s.out) : Steady s' := by
  have hlong : s'.lastLong = s.lastLong := by rw [Solo.lastLong, Solo.lastLong, hout]
  have hwritten : s'.written = s.written := by rw [Solo.written, Solo.written, hout]
  refine ⟨htype.trans hs.file, hcount ▸ hs.count, ?_, hline ▸ hs.short,
    hline ▸ hs.plain, ?_, ?_, ?_⟩
  · rw [hlen, hline, hs.len]
  · rw [hcount, hhost]
    exact hs.host
  · rw [hhost, hlong, hwritten, hline]
    exact hs.last
  · rw [hlong, hcount, hline]
    exact hs.long

variable (cfg host) in
theorem flush_steady (hs : Steady s) :
    Steady ((solo cfg).flush host s) ∧ ((solo cfg).flush host s).filed.fPrevcount = 0 ∧
    ((solo cfg).flush host s).written = s.content ∧ ((solo cfg).flush host s).now = s.now ∧
    ((solo cfg).flush host s).filed.fPmask = s.filed.fPmask := by
  rw [Slot.flush]
  split
  next hc =>
    obtain ⟨h1, h2, h3, h4⟩ := print_pending cfg host {} hs hc
    exact ⟨h1, by rw [show ((solo cfg).fprintlog host {} none s).filed = _ from h3], h2, h4,
      by rw [show ((solo cfg).fprintlog host {} none s).filed = _ from h3]⟩
  next hc =>
    have hc' : s.filed.fPrevcount = 0 := not_not.1 hc
    refine ⟨hs, hc', ?_, rfl, rfl⟩
    rw [Solo.content, Solo.pending, hc']
    exact (append_nil _).symm

theorem content_of_count {s : Solo} (h : s.filed.fPrevcount = 0) : s.content = s.written := by
  rw [Solo.content, Solo.pending, h]
  exact append_nil _

theorem again_steady (hs : Steady s) {m : Message} (hm : s.filed.duplicate m)
    (hl : s.lastLong = false) :
    Steady ((solo cfg).again m s) ∧
    ((solo cfg).again m s).content = s.content ++ [Message.said m] := by
  obtain ⟨⟨_, hhost⟩, htext⟩ := duplicate_iff.1 hm
  have hcount := hs.count
  obtain ⟨s₁, hs₁⟩ : ∃ s₁ : Solo, s₁ = { s with filed := s.filed.counted m } := ⟨_, rfl⟩
  have h1 : Steady s₁ := by
    rw [hs₁]
    refine ⟨hs.file, Int.add_nonneg hcount (by decide), hs.len, hs.short, hs.plain,
      fun _ => ?_, hs.last,
      fun h => absurd (h.symm.trans hl) (by decide)⟩
    dsimp only [Filed.counted]
    rw [hhost]
    exact Option.some_ne_none _
  have hc1 : s₁.filed.fPrevcount ≠ 0 := by
    rw [hs₁]
    dsimp only [Filed.counted]
    omega
  have hcontent : s₁.content = s.content ++ [Message.said m] := by
    have hn : s₁.filed.fPrevcount.toNat = s.filed.fPrevcount.toNat + 1 := by
      rw [hs₁]
      exact Int.toNat_add hcount (by decide)
    rw [Solo.content, Solo.content, Solo.pending, Solo.pending, hn, replicate_succ', hs₁,
      append_assoc, Message.said, htext, ← hhost]
    rfl
  have hstep : (solo cfg).again m s = if s₁.filed.repeattime < s₁.now then
      (solo cfg).modify Filed.backoff (Solo.fprintlog cfg m.host m.flags none s₁) else s₁ := by
    rw [hs₁]
    rfl
  rw [hstep]
  split
  · obtain ⟨h2, hw, hf, _⟩ := print_pending cfg m.host m.flags h1 hc1
    refine ⟨h2.congr rfl rfl rfl rfl rfl rfl, ?_⟩
    rw [content_of_count (by rw [solo]; dsimp only; rw [Filed.backoff, hf]), ← hcontent, ← hw]
    rfl
  · exact ⟨h1, hcontent⟩

theorem line_steady (s : Solo) {f : Filed} {stamp h text : Text} (hf : f.fType = .file)
    (hc : f.fPrevcount = 0) (hlen : f.fPrevlen = f.fPrevline.length) (hh : f.fPrevhost = some h)
    (ht : readRepeated text = none) (hline : text.length < MAXSVLINE ∧ f.fPrevline = text ∨
      MAXSVLINE ≤ text.length ∧ f.fPrevline = []) :
    Steady { s with filed := f, out := s.out ++ [.line stamp (some h) text] } ∧
    Solo.content { s with filed := f, out := s.out ++ [.line stamp (some h) text] } =
      s.written ++ [(some h, text)] := by
  have hwritten : Solo.written { s with filed := f, out := s.out ++ [.line stamp (some h) text] } =
      s.written ++ [(some h, text)] := by
    rw [written_line, entry_once ht, expand_once]
    rfl
  refine ⟨?_, (content_of_count hc).trans hwritten⟩
  rcases hline with ⟨hshort, rfl⟩ | ⟨hlong, hnil⟩
  · refine ⟨hf, Int.le_of_eq hc.symm, hlen, hshort, ht, fun h => absurd hc h, ?_, ?_⟩
    · intro h' hh' _
      rw [hwritten, getLast?_concat, ← hh', ← hh]
    · intro hl
      rw [lastLong_line, decide_eq_false (Nat.not_le.2 hshort), Bool.false_and] at hl
      exact absurd hl Bool.false_ne_true
  · refine ⟨hf, Int.le_of_eq hc.symm, hlen, ?_, ?_, fun h => absurd hc h, ?_, fun _ => ⟨hc, hnil⟩⟩
    · exact hnil ▸ nil_short.1
    · exact hnil ▸ nil_short.2
    · intro h' hh' hl
      rw [lastLong_line, decide_eq_true hlong, ht] at hl
      exact absurd hl (by decide)

variable (cfg) in
theorem save_steady (hs : Steady s) (hc : s.filed.fPrevcount = 0) {m : Message}
    (hm : readRepeated m.text = none) :
    Steady ((solo cfg).save m s) ∧
    ((solo cfg).save m s).content = s.written ++ [Message.said m] := by
  rw [Slot.save]
  split
  next hshort =>
    obtain ⟨s₁, hs₁⟩ : ∃ s₁ : Solo, s₁ = { s with filed := (s.filed.renewed m).kept m } := ⟨_, rfl⟩
    have hfile : s₁.filed.fType = .file := by rw [hs₁]; exact hs.file
    have hstep := fprintlog_file cfg m.host m.flags hfile none
    rw [Filed.said_of_le (by rw [hs₁]; exact Int.le_trans (Int.le_of_eq hc) (by decide)),
      hs₁] at hstep
    dsimp only [Filed.kept, Filed.renewed] at hstep
    rw [take_length] at hstep
    dsimp only [solo, Filed.kept, Filed.renewed]
    rw [hstep]
    exact line_steady s hs.file rfl rfl rfl hm (.inl ⟨hshort, rfl⟩)
  next hlong =>
    have hfile : (s.filed.renewed m).emptied.fType = .file := hs.file
    have hstep := fprintlog_file cfg m.host m.flags
      (s := { s with filed := (s.filed.renewed m).emptied }) hfile (some m.text)
    dsimp only [Filed.emptied, Filed.renewed, Filed.said] at hstep
    rw [take_length] at hstep
    dsimp only [solo, Filed.emptied, Filed.renewed]
    rw [hstep]
    exact line_steady s hs.file rfl rfl rfl hm (.inr ⟨Nat.not_lt.1 hlong, rfl⟩)

/-! ### Steps and runs -/

/-- A message that is logged does not read like a repetition, and is not counted as one more of a
message that was too long to be saved. -/
def Solo.Clear (cfg : Config) (now : ℤ) (c : Call) (s : Solo) : Prop :=
  let m := Message.ofCall cfg.clock now c
  s.filed.wants m → readRepeated m.text = none ∧ ¬ (s.lastLong ∧ s.filed.duplicate m)

def Solo.Ok (cfg : Config) (s : Solo) : Op → Prop
  | .logmsg now c => s.Clear cfg now c
  | _ => True

instance (cfg : Config) (now : ℤ) (c : Call) (s : Solo) : Decidable (s.Clear cfg now c) :=
  inferInstanceAs (Decidable (_ → _))

instance (cfg : Config) (s : Solo) : ∀ op, Decidable (s.Ok cfg op)
  | .logmsg now c => inferInstanceAs (Decidable (s.Clear cfg now c))
  | .domark _ _ => inferInstanceAs (Decidable True)
  | .init _ => inferInstanceAs (Decidable True)

theorem take_steady (hs : Steady s) (markInterval : ℕ) {m : Message}
    (hc : s.filed.wants m → readRepeated m.text = none ∧ ¬ (s.lastLong ∧ s.filed.duplicate m)) :
    Steady ((solo cfg).take markInterval m s) ∧
    ((solo cfg).take markInterval m s).content = s.content ++
      if s.filed.wants m && !s.filed.recent markInterval s.now m then [Message.said m] else [] := by
  have hlogs : (s.filed.wants m && !s.filed.recent markInterval s.now m) = true ↔
      (solo cfg).logs markInterval m s := by
    rw [Slot.logs, Bool.and_eq_true, Bool.not_eq_true', ← Bool.not_eq_true]
    refine ⟨fun h => ⟨h.1, fun hcons => ?_, h.2⟩, fun h => ⟨h.1, h.2.2⟩⟩
    exact absurd (hs.file.symm.trans hcons.1) (by decide)
  rcases (solo cfg).take_cases markInterval m s with ⟨hl, h⟩ | ⟨hl, hd, h⟩ | ⟨hl, hd, h⟩
  · rw [h, if_neg (fun h => hl (hlogs.1 h)), append_nil]
    exact ⟨hs, rfl⟩
  · rw [h, if_pos (hlogs.2 hl)]
    have hlong : s.lastLong = false := by
      by_contra hlong
      exact (hc hl.1).2 ⟨by simpa using hlong, hd⟩
    exact again_steady hs hd hlong
  · rw [h, if_pos (hlogs.2 hl)]
    obtain ⟨h2, hc2, hw2, _⟩ := flush_steady cfg m.host hs
    have h3 := save_steady cfg h2 hc2 (hc hl.1).1
    rw [hw2] at h3
    exact h3

variable (cfg) in
theorem logmsg_steady (hs : Steady s) {now : ℤ} {c : Call} (hc : s.Clear cfg now c) :
    Steady (s.logmsg cfg now c) ∧ (s.logmsg cfg now c).content = s.content ++ s.logged cfg now c :=
  take_steady (s := { s with now := now }) (hs.congr rfl rfl rfl rfl rfl rfl) cfg.markInterval hc

theorem clear_mark (now : ℤ) : s.Clear cfg now (markCall cfg) := by
  have hread : readRepeated markText = none := by decide
  refine fun _ => ⟨hread, fun h => ?_⟩
  have hm : true = false := (duplicate_iff.1 h.2).1.1.1
  exact absurd hm.symm Bool.false_ne_true

variable (cfg) in
theorem mark_steady (hs : Steady s) (now now' : ℤ) :
    Steady (s.mark cfg now now') ∧ (s.mark cfg now now').content = s.content ++
      if s.markDue cfg then s.logged cfg now' (markCall cfg) else [] := by
  rw [Solo.mark]
  split
  · have h1 : Steady { s with now := now } := hs.congr rfl rfl rfl rfl rfl rfl
    obtain ⟨h2, h3⟩ := logmsg_steady cfg h1 (clear_mark now')
    exact ⟨h2.congr rfl rfl rfl rfl rfl rfl, h3⟩
  · exact ⟨hs.congr rfl rfl rfl rfl rfl rfl, (append_nil _).symm⟩

variable (cfg host) in
theorem tick_steady (hs : Steady s) :
    Steady ((solo cfg).tick host s) ∧ ((solo cfg).tick host s).content = s.content := by
  rw [Slot.tick]
  split
  next h =>
    obtain ⟨h1, hw, hf, _⟩ := print_pending cfg host {} hs h.1
    refine ⟨h1.congr rfl rfl rfl rfl rfl rfl, ?_⟩
    rw [content_of_count (by rw [solo]; dsimp only; rw [Filed.backoff, hf]), ← hw]
    rfl
  next => exact ⟨hs, rfl⟩

/-- **What one step does**: the messages it is about are added to what the file holds or will
hold. -/
theorem step_steady (hs : Steady s) (op : Op) (ho : s.Ok cfg op) :
    Steady (s.step cfg op) ∧ (s.step cfg op).content = s.content ++ s.offered cfg op := by
  rcases op with ⟨now, c⟩ | ⟨now, now'⟩ | pmask
  · exact logmsg_steady cfg hs ho
  · obtain ⟨h1, h2⟩ := mark_steady cfg hs now now'
    obtain ⟨h3, h4⟩ := tick_steady cfg cfg.localHostName h1
    exact ⟨h3, h4.trans h2⟩
  · obtain ⟨h1, h2, h3, _⟩ := flush_steady cfg cfg.localHostName hs
    have hnil : (s.step cfg (.init pmask)).content = s.content := (content_of_count rfl).trans h3
    refine ⟨⟨h1.file, Int.le_refl 0, rfl, nil_short.1, nil_short.2, fun h => absurd rfl h, ?_,
      fun _ => ⟨rfl, rfl⟩⟩, hnil.trans (append_nil _).symm⟩
    intro h hh
    exact nomatch hh

theorem start_steady (name : Text) (pmask : ℕ → Byte) : Steady (Solo.start .file name pmask) := by
  refine ⟨rfl, Int.le_refl 0, rfl, nil_short.1, nil_short.2, fun h => absurd rfl h, ?_,
    fun _ => ⟨rfl, rfl⟩⟩
  intro h hh
  exact nomatch hh

end

/-- The entry over a run, with the messages that are to be in the file. -/
def history (cfg : Config) : Solo → List Op → Solo × List (Option Text × Text) :=
  Mealy.feed fun s op => (s.step cfg op, s.offered cfg op)

theorem history_content (cfg : Config) : ∀ (ops : List Op) {s : Solo}, Steady s →
    Runs.Allowed (Solo.step cfg) (Solo.Ok cfg) s ops →
    (history cfg s ops).1.content = s.content ++ (history cfg s ops).2
  | [], s, _, _ => (append_nil _).symm
  | op :: ops, s, hs, ho => by
    obtain ⟨h1, h2⟩ := step_steady hs op ho.1
    have ih := history_content cfg ops h1 ho.2
    rw [h2, append_assoc] at ih
    exact ih

/-- **Nothing is lost and nothing invented**: the file written out, with what is still counted, is
what was logged to it. -/
theorem repeats_expand (cfg : Config) (name : Text) (pmask : ℕ → Byte) (ops : List Op)
    (ho : Runs.Allowed (Solo.step cfg) (Solo.Ok cfg) (Solo.start .file name pmask) ops) :
    let h := history cfg (Solo.start .file name pmask) ops
    expand (h.1.out.flatMap Out.entry) ++
      List.replicate h.1.filed.fPrevcount.toNat (h.1.filed.fPrevhost, h.1.filed.fPrevline) = h.2 :=
  history_content cfg ops (start_steady name pmask) ho

def fourAndOne : List Op :=
  [.logmsg 0 ⟨13, [97], [104], {}⟩, .logmsg 0 ⟨13, [97], [104], {}⟩,
    .logmsg 5 ⟨13, [97], [104], {}⟩,
    .domark 9 9, .logmsg 10 ⟨13, [97], [104], {}⟩, .logmsg 20 ⟨13, [98], [104], {}⟩]

theorem repeats_expand_five :
    Runs.Allowed (Solo.step stillConfig) (Solo.Ok stillConfig) (Solo.start .file [] fun _ => 255)
      fourAndOne ∧
    let h := history stillConfig (Solo.start .file [] fun _ => 255) fourAndOne
    expand (h.1.out.flatMap Out.entry) ++
      List.replicate h.1.filed.fPrevcount.toNat (h.1.filed.fPrevhost, h.1.filed.fPrevline) =
      h.2 := by
  have ho : Runs.Allowed (Solo.step stillConfig) (Solo.Ok stillConfig)
      (Solo.start .file [] fun _ => 255) fourAndOne := by decide +kernel
  exact ⟨ho, repeats_expand stillConfig [] (fun _ => 255) fourAndOne ho⟩

/-- The messages whose priority is wanted, whatever they are. -/
def Solo.passed (cfg : Config) (s : Solo) : Op → List (Option Text × Text)
  | .logmsg now c =>
    let m := Message.ofCall cfg.clock now c
    if s.filed.wants m then [Message.said m] else []
  | _ => []

/-- **A mark is not logged to a file that was just written to**, although its priority is wanted. -/
theorem mark_left_out :
    let ops : List Op := [.logmsg 1000 ⟨13, [97], [104], {}⟩, .logmsg 1000 (markCall stillConfig)]
    let h := history stillConfig (Solo.start .file [] fun _ => 255) ops
    expand (h.1.out.flatMap Out.entry) ++
      List.replicate h.1.filed.fPrevcount.toNat (h.1.filed.fPrevhost, h.1.filed.fPrevline) ≠
    (Mealy.feed (fun s op => (s.step stillConfig op, s.passed stillConfig op))
      (Solo.start .file [] fun _ => 255) ops).2 := by
  decide +kernel

end Inetutils.Syslogd.Alone
