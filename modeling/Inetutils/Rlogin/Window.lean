import Inetutils.Lib.Runs
import Mathlib.Data.List.Chain
import Mathlib.Data.UInt

/-! # The window size between the bytes of the user

`writer` and `sendwindow` of `src/rlogin.c` at one end, and at the other the part of `protocol` of
`src/rlogind.c` that reads the connection and writes the terminal, with `control`. The message is
looked for in what one `read` returned. -/

namespace Inetutils.Rlogin.Window

open Lib.Runs List

abbrev Bytes := List UInt8

structure Winsize where
  row : UInt16
  col : UInt16
  xpixel : UInt16
  ypixel : UInt16
  deriving DecidableEq

/-! ### `rlogin` -/

/-- The characters of the terminal that `writer` looks at; one that is disabled is none. -/
structure Tty where
  noescape : Bool
  escapechar : UInt8
  eof : UInt8
  susp : UInt8
  dsusp : Option UInt8
  kill : UInt8
  intr : UInt8

/-- A `char`, which is signed, is equal to what is not. -/
def same (c d : UInt8) : Bool := c < 128 && c == d

def Tty.endsLine (t : Tty) (c : UInt8) : Bool :=
  same c t.kill || same c t.eof || same c t.intr || same c t.susp || same c 13 || same c 10

/-- What `writer` writes of what it reads; `bol` and `local_` as they stand. -/
def writer (t : Tty) : Bool → Bool → Bytes → Bytes
  | _, _, [] => []
  | bol, local_, c :: keys =>
    if bol then
      if !t.noescape && same c t.escapechar then writer t false true keys
      else c :: writer t (t.endsLine c) local_ keys
    else if local_ then
      if same c 46 || same c t.eof then []
      else if same c t.susp || t.dsusp.any (same c) then writer t true false keys
      else if same c t.escapechar then c :: writer t (t.endsLine c) false keys
      else t.escapechar :: c :: writer t (t.endsLine c) false keys
    else c :: writer t (t.endsLine c) local_ keys

def htons (w : UInt16) : Bytes := [(w.toNat / 256).toUInt8, w.toUInt8]

/-- `sendwindow` -/
def message (w : Winsize) : Bytes :=
  255 :: 255 :: 115 :: 115 :: (htons w.row ++ htons w.col ++ htons w.xpixel ++ htons w.ypixel)

inductive Item
  | byte (b : UInt8)
  | window (w : Winsize)

def Item.encode : Item → Bytes
  | .byte b => [b]
  | .window w => message w

def stream (items : List Item) : Bytes := items.flatMap Item.encode

def bytes (items : List Item) : Bytes := items.filterMap fun
  | .byte b => some b
  | .window _ => none

def sizes (items : List Item) : List Winsize := items.filterMap fun
  | .byte _ => none
  | .window w => some w

/-! ### `rlogind` -/

def ntohs (hi lo : UInt8) : UInt16 := (256 * hi.toNat + lo.toNat).toUInt16

/-- `control`: the size, and what is behind the message. -/
def control : Bytes → Option (Winsize × Bytes)
  | _ :: _ :: s1 :: s2 :: r1 :: r2 :: c1 :: c2 :: x1 :: x2 :: y1 :: y2 :: l =>
    if s1 = 115 ∧ s2 = 115 then some (⟨ntohs r1 r2, ntohs c1 c2, ntohs x1 x2, ntohs y1 y2⟩, l)
    else none
  | _ => none

variable {l : Bytes} {w : Winsize} {d : UInt8} {j : ℕ}

theorem length_of_control {l' : Bytes} (h : control l = some (w, l')) :
    l.length = l'.length + 12 := by
  unfold control at h
  split at h
  · split_ifs at h
    rw [← (Prod.mk.inj (Option.some.inj h)).2]
    rfl
  · exact nomatch h

/-- The loop over what was read: what stays, and the sizes that are set. -/
def scan : Bytes → Bytes × List Winsize
  | [] => ([], [])
  | [b] => ([b], [])
  | b :: b' :: l =>
    if b = 255 ∧ b' = 255 then
      match _h : control (b :: b' :: l) with
      | some (w, l') => ((scan l').1, w :: (scan l').2)
      | none => (b :: (scan (b' :: l)).1, (scan (b' :: l)).2)
    else (b :: (scan (b' :: l)).1, (scan (b' :: l)).2)
termination_by l => l.length
decreasing_by
  · have := length_of_control _h
    omega
  · simp
  · simp

/-- The bytes that wait for the terminal, those that were written to it, the sizes that were set,
and `TIOCPKT_WINDOW` in `oobdata`. -/
structure Daemon where
  fbuf : Bytes
  pty : Bytes
  winsz : List Winsize
  window : Bool

inductive Event
  | read (l : Bytes)
  | write (cc : ℕ)

def step (d : Daemon) : Event → Daemon
  | .read l =>
    { d with
      fbuf := (scan l).1, winsz := d.winsz ++ (scan l).2, window := d.window && (scan l).2.isEmpty }
  | .write cc => { d with fbuf := d.fbuf.drop cc, pty := d.pty ++ d.fbuf.take cc }

def start : Daemon := ⟨[], [], [], true⟩

/-- The connection is read when nothing waits, and gives something. -/
def Ready (d : Daemon) : Event → Prop
  | .read l => d.fbuf = [] ∧ l ≠ []
  | .write _ => True

def reads (es : List Event) : List Bytes := es.filterMap fun
  | .read l => some l
  | .write _ => none

/-! ### What a read leaves -/

theorem ntohs_htons (w : UInt16) : ntohs (w.toNat / 256).toUInt8 w.toUInt8 = w := by
  have hw := w.toNat_lt
  unfold ntohs
  apply UInt16.toNat_inj.1
  simp only [UInt16.toNat_toUInt8, Nat.toUInt8_eq, UInt8.toNat_ofNat', Nat.toUInt16_eq,
    UInt16.toNat_ofNat']
  omega

theorem control_message (w : Winsize) (l : Bytes) : control (message w ++ l) = some (w, l) := by
  show some (_, [] ++ l) = _
  simp only [ntohs_htons, nil_append]

theorem control_short (h : l.length < 12) : control l = none := by
  cases hc : control l with
  | none => rfl
  | some p =>
    have hlen := length_of_control hc
    omega

theorem control_third (b c : UInt8) (hd : d ≠ 115) (l : Bytes) :
    control (b :: c :: d :: l) = none := by
  unfold control
  split
  · rename_i heq
    injection heq with _ heq
    injection heq with _ heq
    injection heq with heq _
    rw [if_neg (fun h => hd (heq ▸ h.1))]
  · rfl

theorem scan_cons {b : UInt8} (h : control (b :: l) = none ∨ ¬ (b = 255 ∧ l.head? = some 255)) :
    scan (b :: l) = (b :: (scan l).1, (scan l).2) := by
  cases l with
  | nil => rw [scan, scan]
  | cons b' l =>
    rw [scan]
    split_ifs with hmagic
    · have hnone : control (b :: b' :: l) = none :=
        h.resolve_right fun hn => hn ⟨hmagic.1, congrArg some hmagic.2⟩
      split
      · rename_i hsome
        rw [hnone] at hsome
        exact nomatch hsome
      · rfl
    · rfl

theorem scan_message (w : Winsize) (l : Bytes) :
    scan (message w ++ l) = ((scan l).1, w :: (scan l).2) := by
  have hc := control_message w l
  unfold message at hc ⊢
  rw [cons_append, cons_append] at hc ⊢
  rw [scan, if_pos ⟨rfl, rfl⟩]
  split
  · rename_i w' l' hsome
    obtain ⟨hw, hl⟩ := Prod.mk.inj (Option.some.inj (hc.symm.trans hsome))
    rw [← hw, ← hl]
  · rename_i hnone
    rw [hc] at hnone
    exact nomatch hnone

theorem scan_short : ∀ {l : Bytes}, l.length < 12 → scan l = (l, [])
  | [], _ => by rw [scan]
  | b :: l, h => by
    rw [scan_cons (.inl (control_short h)), scan_short (Nat.lt_of_succ_lt h)]

/-! ### Items -/

/-- No two adjacent bytes of the kind that begins a message. -/
def Apart (l : Bytes) : Prop := ¬ [255, 255] <:+: l

instance (l : Bytes) : Decidable (Apart l) := inferInstanceAs (Decidable (¬ _))

theorem Apart.of_infix {l' : Bytes} (h : Apart l) (hl : l' <:+: l) :
    Apart l' := fun hp => h (hp.trans hl)

theorem Apart.head (h : Apart (255 :: l)) : l.head? ≠ some 255 := by
  intro hl
  obtain ⟨t, rfl⟩ := head?_eq_some_iff.1 hl
  exact h ⟨[], t, rfl⟩

theorem apart_cons {b : UInt8} (h : Apart l) (hb : b = 255 → l.head? ≠ some 255) :
    Apart (b :: l) := by
  intro hp
  rcases infix_cons_iff.1 hp with hpre | hin
  · obtain ⟨h1, h2⟩ := cons_prefix_cons.1 hpre
    obtain ⟨t, rfl⟩ := h2
    exact hb h1.symm rfl
  · exact h hin

theorem bytes_append (g g' : List Item) : bytes (g ++ g') = bytes g ++ bytes g' := filterMap_append

theorem sizes_append (g g' : List Item) : sizes (g ++ g') = sizes g ++ sizes g' := filterMap_append

theorem length_message (w : Winsize) : (message w).length = 12 := rfl

theorem scan_head (hj : j < 12) : scan ((message w).take j) = ((message w).take j, []) := by
  refine scan_short ?_
  rw [length_take, length_message]
  omega

/-- **What is read up to the middle of a message** passes with the start of it. -/
theorem scan_stream (hj : j < 12) : ∀ {g : List Item}, Apart (bytes g) →
    scan (stream g ++ (message w).take j) = (bytes g ++ (message w).take j, sizes g)
  | [], _ => scan_head hj
  | .window w' :: g, h => by
    show scan (message w' ++ stream g ++ _) = _
    rw [append_assoc, scan_message, scan_stream hj (g := g) h]
    rfl
  | .byte b :: g, h => by
    have hrest : scan (stream g ++ (message w).take j) = (bytes g ++ (message w).take j, sizes g) :=
      scan_stream hj (h.of_infix ⟨[b], [], by simp [bytes]⟩)
    show scan (b :: (stream g ++ (message w).take j)) = _
    rw [scan_cons ?_, hrest]
    · rfl
    by_cases hb : b = 255
    swap
    · exact .inr fun hm => hb hm.1
    subst hb
    cases g with
    | nil =>
      rcases j with - | - | j
      · exact .inr fun hm => nomatch hm.2
      · exact .inl rfl
      · exact .inl (control_third _ _ (by decide) _)
    | cons i g =>
      cases i with
      | byte b' => exact .inr fun hm => h.head hm.2
      | window w' => exact .inl (control_third _ _ (by decide) _)

/-! ### Reads -/

def Whole (items : List Item) (pieces : List Bytes) : Prop :=
  ∃ groups : List (List Item), groups.flatten = items ∧ groups.map stream = pieces

theorem read_first : ∀ (items : List Item) (p rest : Bytes), p ++ rest = stream items →
    ∃ g items' r, items = g ++ items' ∧ p = stream g ++ r ∧ r ++ rest = stream items' ∧
      (r = [] ∨ ∃ w j, 0 < j ∧ j < 12 ∧ r = (message w).take j ∧ (message w).drop j <+: rest)
  | [], p, rest, h => by
    obtain ⟨rfl, rfl⟩ := append_eq_nil_iff.1 h
    exact ⟨[], [], [], rfl, rfl, rfl, .inl rfl⟩
  | i :: items, p, rest, h => by
    rcases append_eq_append_iff.1 (show p ++ rest = i.encode ++ stream items from h) with
      ⟨a, ha, hrest⟩ | ⟨a, ha, hrest⟩
    · by_cases hnil : a = []
      · subst hnil
        rw [append_nil] at ha
        exact ⟨[i], items, [], rfl, by simp [stream, ha], hrest, .inl rfl⟩
      · by_cases hp : p = []
        · subst hp
          exact ⟨[], i :: items, [], rfl, rfl, h, .inl rfl⟩
        · refine ⟨[], i :: items, p, rfl, rfl, h, .inr ?_⟩
          have hlen := congrArg List.length ha
          rw [length_append] at hlen
          have h1 := length_pos_iff.2 hp
          have h2 := length_pos_iff.2 hnil
          cases i with
          | byte b =>
            change 1 = _ at hlen
            omega
          | window w =>
            change message w = p ++ a at ha
            rw [show (Item.window w).encode.length = 12 from rfl] at hlen
            refine ⟨w, p.length, h1, by omega, ?_, ?_⟩
            · rw [ha, take_left]
            · rw [ha, drop_left]
              exact ⟨_, hrest.symm⟩
    · obtain ⟨g, items', r, hitems, hp, hr, hcut⟩ := read_first items a rest hrest.symm
      exact ⟨i :: g, items',
        r, by rw [hitems, cons_append], by rw [ha, hp, ← append_assoc]; rfl, hr, hcut⟩

theorem scan_second {q rest : Bytes} (hq : q ≠ []) (hd : d ≠ 255)
    (h : 255 :: d :: l <+: q ++ rest) :
    (scan q).1.head? = some 255 := by
  obtain ⟨t, ht⟩ := h
  rcases q with - | ⟨b, q⟩
  · exact absurd rfl hq
  · injection ht with hb ht
    subst hb
    rw [scan_cons (.inr fun hm => ?_)]
    · rfl
    obtain ⟨q, rfl⟩ := head?_eq_some_iff.1 hm.2
    injection ht with hb _
    exact hd hb

theorem scan_whole {g : List Item} (h : Apart (bytes g)) :
    scan (stream g) = (bytes g, sizes g) := by
  have hscan := scan_stream (w := ⟨0, 0, 0, 0⟩) (j := 0) (by decide) h
  rwa [take_zero, append_nil, append_nil] at hscan

def left (pieces : List Bytes) : Bytes := pieces.flatMap fun l => (scan l).1

def found (pieces : List Bytes) : List Winsize := pieces.flatMap fun l => (scan l).2

theorem left_cons (l : Bytes) (pieces : List Bytes) :
    left (l :: pieces) = (scan l).1 ++ left pieces := rfl

theorem found_cons (l : Bytes) (pieces : List Bytes) :
    found (l :: pieces) = (scan l).2 ++ found pieces := rfl

theorem left_groups : ∀ groups : List (List Item), Apart (bytes groups.flatten) →
    left (groups.map stream) = bytes groups.flatten ∧
    found (groups.map stream) = sizes groups.flatten
  | [], _ => ⟨rfl, rfl⟩
  | g :: groups, h => by
    rw [flatten_cons, bytes_append] at h
    obtain ⟨h1, h2⟩ := left_groups groups (h.of_infix (suffix_append _ _).isInfix)
    rw [map_cons, flatten_cons, bytes_append, sizes_append, left_cons, found_cons,
      scan_whole (h.of_infix (prefix_append _ _).isInfix), h1, h2]
    exact ⟨rfl, rfl⟩

/-- **A message that is cut leaves two adjacent bytes of its own.** -/
theorem not_apart_of_cut {pieces : List Bytes} (hne : ∀ q ∈ pieces, q ≠ []) (hj0 : 0 < j)
    (hrest : (message w).drop j <+: pieces.flatten) (hj : j < 12) :
    ¬ Apart ((message w).take j ++ left pieces) := by
  rcases j with - | - | j
  · omega
  · rcases pieces with - | ⟨q, pieces⟩
    · exact absurd (prefix_nil.1 hrest) (by simp [message])
    · have hhead : (scan q).1.head? = some 255 :=
        scan_second (hne q mem_cons_self) (show (115 : UInt8) ≠ 255 by decide) hrest
      obtain ⟨t, ht⟩ := head?_eq_some_iff.1 hhead
      rw [left_cons, ht]
      exact fun h => h ⟨[], t ++ left pieces, rfl⟩
  · exact fun h => h ⟨[], _, rfl⟩

theorem left_eq_iff : ∀ (pieces : List Bytes) {items : List Item}, (∀ q ∈ pieces, q ≠ []) →
    pieces.flatten = stream items → Apart (bytes items) →
      (left pieces = bytes items ∧ found pieces = sizes items ↔ Whole items pieces)
  | [], items, _, hflat, _ => by
    have hnil : items = [] := by
      rcases items with - | ⟨i, items⟩
      · rfl
      · cases i <;> exact nomatch hflat
    subst hnil
    exact iff_of_true ⟨rfl, rfl⟩ ⟨[], rfl, rfl⟩
  | p :: pieces, items, hne, hflat, hap => by
    constructor
    · rintro ⟨hleft, hfound⟩
      obtain ⟨g, items', r, rfl, rfl, hr, hcut⟩ := read_first items p pieces.flatten hflat
      rw [bytes_append] at hap
      rw [left_cons, bytes_append] at hleft
      rw [found_cons, sizes_append] at hfound
      have hne' : ∀ q ∈ pieces, q ≠ [] := fun q hq => hne q (mem_cons_of_mem _ hq)
      have hapg : Apart (bytes g) := hap.of_infix (prefix_append _ _).isInfix
      have hap' : Apart (bytes items') := hap.of_infix (suffix_append _ _).isInfix
      rcases hcut with rfl | ⟨w, j, hj0, hj, rfl, hrest⟩
      · rw [append_nil, scan_whole hapg] at hleft hfound
        obtain ⟨groups, rfl, rfl⟩ := (left_eq_iff pieces hne' hr hap').1
          ⟨append_cancel_left hleft, append_cancel_left hfound⟩
        exact ⟨g :: groups, rfl, by rw [map_cons, append_nil]⟩
      · rw [scan_stream hj hapg, append_assoc] at hleft
        rw [← append_cancel_left hleft] at hap'
        exact absurd hap' (not_apart_of_cut hne' hj0 hrest hj)
    · rintro ⟨groups, rfl, hgroups⟩
      rw [← hgroups]
      exact left_groups groups hap

/-! ### The run of the daemon -/

theorem run_reads : ∀ (es : List Event) (d : Daemon), Allowed step Ready d es →
    (run step d es).pty ++ (run step d es).fbuf = d.pty ++ (d.fbuf ++ left (reads es)) ∧
      (run step d es).winsz = d.winsz ++ found (reads es) ∧ ∀ q ∈ reads es, q ≠ []
  | [], d, _ => ⟨by simp [reads, left], by simp [reads, found], nofun⟩
  | .read l :: es, d, ⟨⟨hbuf, hl⟩, h⟩ => by
    obtain ⟨h1, h2, h3⟩ := run_reads es _ h
    rw [run_cons, h1, h2]
    refine ⟨?_, append_assoc _ _ _, fun q hq => ?_⟩
    · rw [hbuf]
      rfl
    · rcases mem_cons.1 hq with rfl | hq
      · exact hl
      · exact h3 q hq
  | .write cc :: es, d, ⟨_, h⟩ => by
    obtain ⟨h1, h2, h3⟩ := run_reads es _ h
    rw [run_cons, h1, h2]
    refine ⟨?_, rfl, h3⟩
    show d.pty ++ d.fbuf.take cc ++ (d.fbuf.drop cc ++ _) = _
    rw [append_assoc, ← append_assoc (d.fbuf.take cc), take_append_drop]
    rfl

/-! ### The keys -/

theorem lt_of_same {c : UInt8} (h : same c d) : c < 128 ∧ c = d := by
  unfold same at h
  rwa [Bool.and_eq_true, decide_eq_true_iff, beq_iff_eq] at h

theorem endsLine_magic (t : Tty) : t.endsLine 255 = false := by
  have hsame : ∀ d, same 255 d = false := fun d => rfl
  unfold Tty.endsLine
  simp only [hsame, Bool.or_false]

theorem writer_head (t : Tty) (keys : Bytes) : (writer t false false keys).head? = keys.head? := by
  cases keys <;> rfl

theorem apart_writer {t : Tty} : ∀ (keys : Bytes) (bol local_ : Bool), (bol → local_ = false) →
    (local_ → t.escapechar < 128) → Apart keys → Apart (writer t bol local_ keys)
  | [], _, _, _, _, h => h
  | c :: keys, bol, local_, hbol, hlocal, h => by
    have htail : Apart keys := h.of_infix (suffix_cons c keys).isInfix
    have hnext : ∀ bol', Apart (writer t bol' false keys) := fun bol' =>
      apart_writer keys bol' false (fun _ => rfl) nofun htail
    have hcons : Apart (c :: writer t (t.endsLine c) false keys) := by
      refine apart_cons (hnext _) ?_
      rintro rfl
      rw [endsLine_magic, writer_head]
      exact h.head
    unfold writer
    cases bol with
    | true =>
      rw [hbol rfl]
      simp only [if_true]
      split_ifs with hesc
      · rw [Bool.and_eq_true] at hesc
        have hlt := lt_of_same hesc.2
        exact apart_writer keys false true nofun
          (fun _ => hlt.2 ▸ hlt.1) htail
      · exact hcons
    | false =>
      cases local_ with
      | false => exact hcons
      | true =>
        simp only [Bool.false_eq_true, if_false, if_true]
        split_ifs with hdot hsusp hesc
        · exact fun hp => nomatch infix_nil.1 hp
        · exact hnext true
        · exact hcons
        · refine apart_cons hcons fun heq => ?_
          have hlt := hlocal rfl
          rw [heq] at hlt
          exact absurd hlt (by decide)

/-- **The terminal gets the bytes of the user, and the sizes are set, just in case every read ends
between two items.** -/
theorem passed_iff (t : Tty) {keys : Bytes} (hkeys : Apart keys) {items : List Item}
    (hitems : bytes items = writer t true false keys) {es : List Event}
    (hes : Allowed step Ready start es)
    (hreads : (reads es).flatten = stream items) (hdone : (run step start es).fbuf = []) :
    ((run step start es).pty = writer t true false keys ∧ (run step start es).winsz = sizes items) ↔
      Whole items (reads es) := by
  obtain ⟨hpty, hwin, hne⟩ := run_reads es start hes
  rw [hdone, append_nil] at hpty
  have hap : Apart (bytes items) :=
    hitems ▸ apart_writer keys true false (fun _ => rfl)
      nofun hkeys
  rw [hpty, hwin, ← hitems]
  exact left_eq_iff (reads es) hne hreads hap

def usual : Tty := ⟨false, 126, 4, 26, none, 21, 3⟩

def resized : Winsize := ⟨24, 80, 0, 0⟩

/-- The message in one read with the byte before it, and the terminal takes a byte at a time. -/
def between : List Event := [.read (97 :: message resized), .write 1, .read [98], .write 1]

theorem passed_iff_between :
    (run step start between).pty = [97, 98] ∧ (run step start between).winsz = [resized] := by
  have h1 : scan (97 :: message resized) = ([97], [resized]) :=
    scan_whole (g := [.byte 97, .window resized]) (by decide)
  have h2 : scan [98] = ([98], []) := scan_short (by decide)
  have hkeys : Apart [97, 98] := by decide
  have hitems :
      bytes [.byte 97, .window resized, .byte 98] = writer usual true false [97, 98] := by decide
  have hes : Allowed step Ready start between := by
    refine ⟨⟨rfl, cons_ne_nil _ _⟩, trivial, ⟨?_, cons_ne_nil _ _⟩, trivial, trivial⟩
    show (scan (97 :: message resized)).1.drop 1 = []
    rw [h1]
    rfl
  have hdone : (run step start between).fbuf = [] := by
    show (scan [98]).1.drop 1 = []
    rw [h2]
    rfl
  exact (passed_iff usual hkeys hitems hes rfl hdone).2
    ⟨[[.byte 97, .window resized], [.byte 98]], rfl, rfl⟩

def halves : List Event :=
  [.read ((message resized).take 6), .write 6, .read ((message resized).drop 6), .write 6]

/-- **The terminal gets a message that was cut.** -/
theorem passed_cut :
    Allowed step Ready start halves ∧ (reads halves).flatten = stream [.window resized] ∧
      (run step start halves).fbuf = [] ∧
      (run step start halves).pty ≠ writer usual true false [] := by
  have h1 : scan ((message resized).take 6) = ((message resized).take 6, []) :=
    scan_short (by decide)
  have h2 : scan ((message resized).drop 6) = ((message resized).drop 6, []) :=
    scan_short (by decide)
  refine ⟨⟨⟨rfl, by decide⟩, trivial, ⟨?_, by decide⟩, trivial, trivial⟩, rfl, ?_, ?_⟩
  · show (scan ((message resized).take 6)).1.drop 6 = []
    rw [h1]
    rfl
  · show (scan ((message resized).drop 6)).1.drop 6 = []
    rw [h2]
    rfl
  · show [] ++ (scan ((message resized).take 6)).1.take 6 ++
      (scan ((message resized).drop 6)).1.take 6 ≠ []
    rw [h1, h2]
    decide

end Inetutils.Rlogin.Window
