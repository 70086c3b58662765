import Inetutils.Rcp.Sink

/-! # Files and directories

The system that `sink` calls, with files and directories by their paths: `disk` answers every call
as it is answered where there is room, memory and permission. A file or a directory that is made
changes the time of the directory that it is in, and a host may clear the set-id bits of a file that
is written to.

A tree below `targ` is seen by the names that lead to a file (`at_set`, `at_touch`). -/

namespace Inetutils.Rcp.Files

open Records Sink List

structure Stamp where
  sec : ℤ
  nsec : ℕ
  deriving DecidableEq

inductive Node
  | file (mode : Mode) (data : Text) (mtime atime : Stamp)
  | dir (mode : Mode) (mtime atime : Stamp)

def Node.isDir : Node → Bool
  | .file _ _ _ _ => false
  | .dir _ _ _ => true

/-- `offset` is where the file that is open is written next. -/
structure Disk where
  nodes : Path → Option Node
  offset : ℕ

/-- What time it is, and whether a write clears the set-id bits. -/
structure Host where
  sec : ℕ
  nsec : ℕ
  strip : Bool

variable (H : Host)

def Host.now : Stamp := ⟨H.sec, H.nsec⟩

def Host.written (mode : Mode) : Mode := if H.strip then mode &&& 0o1777 else mode

def parent (p : Path) : Path := (p.reverse.dropWhile (· ≠ 47)).tail.reverse

def Host.touched : Node → Node
  | .file mode data _ atime => .file mode data H.now atime
  | .dir mode _ atime => .dir mode H.now atime

def Disk.set (D : Disk) (p : Path) (n : Node) : Disk :=
  { D with nodes := fun q => if q = p then some n else D.nodes q }

def Disk.touch (D : Disk) (p : Path) : Disk :=
  { D with nodes := fun q => if q = p then (D.nodes q).map H.touched else D.nodes q }

def Disk.make (D : Disk) (p : Path) (n : Node) : Disk := (D.touch H (parent p)).set p n

def overwrite (old : Text) (offset : ℕ) (data : Text) : Text :=
  old.take offset ++ data ++ old.drop (offset + data.length)

def resize (old : Text) (size : ℕ) : Text := old.take size ++ List.replicate (size - old.length) 0

def stampOf (t : ℕ × ℕ) : Stamp := ⟨t.1, t.2 * 1000⟩

def Disk.act (D : Disk) : Act → Bool × Disk
  | .mkdir p mode umask =>
    match D.nodes p with
    | some _ => (false, D)
    | none => (true, D.make H p (.dir (mode &&& ~~~umask) H.now H.now))
  | .create p mode umask =>
    match D.nodes p with
    | some (.dir _ _ _) => (false, D)
    | some (.file _ _ _ _) => (true, { D with offset := 0 })
    | none => (true, { D.make H p (.file (mode &&& ~~~umask) [] H.now H.now) with offset := 0 })
  | .write p data =>
    match D.nodes p with
    | some (.file mode old _ atime) =>
      (true, { D.set p (.file (H.written mode) (overwrite old D.offset data) H.now atime) with
        offset := D.offset + data.length })
    | _ => (false, D)
  | .ftruncate p size =>
    match D.nodes p with
    | some (.file mode old _ atime) =>
      if size < 0 then (false, D)
      else (true, D.set p (.file (H.written mode) (resize old size.toNat) H.now atime))
    | _ => (false, D)
  | .chmod p mode =>
    match D.nodes p with
    | some (.file _ data mtime atime) => (true, D.set p (.file mode data mtime atime))
    | some (.dir _ mtime atime) => (true, D.set p (.dir mode mtime atime))
    | none => (false, D)
  | .utimes p (mtime, atime) =>
    if 1000000 ≤ mtime.2 ∨ 1000000 ≤ atime.2 then (false, D)
    else
      match D.nodes p with
      | some (.file mode data _ _) =>
        (true, D.set p (.file mode data (stampOf mtime) (stampOf atime)))
      | some (.dir mode _ _) => (true, D.set p (.dir mode (stampOf mtime) (stampOf atime)))
      | none => (false, D)

def disk : Os Disk where
  stat D p := (D.nodes p).map Node.isDir
  alloc _ _ := true
  act := Disk.act H

/-! ### By the names that lead there -/

def Disk.at (D : Disk) (targ : Path) (names : List Text) : Option Node := D.nodes (below targ names)

/-- Only what stands at the end of `loc` is another; the directory that it is in stays one. -/
structure Changes (targ : Path) (loc : List Text) (D D' : Disk) : Prop where
  other : ∀ names, (∀ n ∈ names, Plain n) → names ≠ loc → (∀ name, loc ≠ names ++ [name]) →
    D'.at targ names = D.at targ names
  around : ∀ names, (∀ n ∈ names, Plain n) → (∃ name, loc = names ++ [name]) →
    (D'.at targ names).map Node.isDir = (D.at targ names).map Node.isDir

section
variable {H : Host} {D D' D'' : Disk} {targ : Path} {loc : List Text} {n : Node}

theorem length_below_le (names : List Text) : targ.length ≤ (below targ names).length := by
  induction names using List.reverseRecOn with
  | nil => exact le_rfl
  | append_singleton names name ih =>
    rw [below_concat, append_assoc, length_append]
    omega

theorem isDir_touched (n : Node) : (H.touched n).isDir = n.isDir := by
  cases n <;> rfl

theorem Changes.refl (h : D'.nodes = D.nodes) : Changes targ loc D D' :=
  ⟨fun names _ _ _ => congrFun h (below targ names),
    fun _ _ _ => congrArg (Option.map Node.isDir) (congrFun h _)⟩

theorem Changes.trans (h : Changes targ loc D D') (h' : Changes targ loc D' D'') :
    Changes targ loc D D'' where
  other := fun names hn hne hup => (h'.other names hn hne hup).trans (h.other names hn hne hup)
  around := fun names hn hup => (h'.around names hn hup).trans (h.around names hn hup)

variable (htarg : targ ≠ []) (hloc : ∀ n ∈ loc, Plain n)
include htarg

theorem below_ne_parent (names : List Text) : below targ names ≠ parent targ := by
  intro h
  have hle : targ.length ≤ (below targ names).length := length_below_le names
  have hdrop := (dropWhile_sublist (fun b : UInt8 => decide (b ≠ 47)) (l := targ.reverse)).length_le
  have hlen :
      (parent targ).length = (targ.reverse.dropWhile fun b => decide (b ≠ 47)).length - 1 := by
    unfold parent
    rw [length_reverse, length_tail]
  have hpos := length_pos_iff.2 htarg
  rw [h, hlen] at hle
  rw [length_reverse] at hdrop
  omega

theorem parent_below (names : List Text) {name : Text} (hname : Plain name) :
    parent (below targ (names ++ [name])) = below targ names := by
  have hall : ∀ b ∈ name.reverse, b ≠ 47 := fun b hb heq => hname.1 (heq ▸ mem_reverse.1 hb)
  unfold parent
  rw [below_concat, if_neg (below_ne_nil htarg names), reverse_append, reverse_append,
    dropWhile_append_of_pos (by simpa using hall)]
  simp

include hloc

theorem below_inj {names : List Text} (h : ∀ n ∈ names, Plain n) :
    below targ names = below targ loc ↔ names = loc := by
  refine ⟨fun heq => ?_, fun heq => heq ▸ rfl⟩
  have hsplit := congrArg (List.splitOn 47) heq
  rw [splitOn_below htarg, splitOn_below htarg, flatMap_splitOn_plain fun n hn => (h n hn).1,
    flatMap_splitOn_plain fun n hn => (hloc n hn).1] at hsplit
  exact append_cancel_left hsplit

theorem at_set_of_ne {names : List Text} (h : ∀ n ∈ names, Plain n) (hne : names ≠ loc) :
    (D.set (below targ loc) n).at targ names = D.at targ names :=
  if_neg fun heq => hne ((below_inj htarg hloc h).1 heq)

theorem changes_set : Changes targ loc D (D.set (below targ loc) n) := by
  refine ⟨fun names hn hne _ => at_set_of_ne htarg hloc hn hne, ?_⟩
  rintro names hn ⟨name, rfl⟩
  rw [at_set_of_ne htarg hloc hn fun heq => cons_ne_nil _ _ (self_eq_append_right.1 heq)]

theorem changes_touch : Changes targ loc D (D.touch H (parent (below targ loc))) := by
  have hparent : ∀ names, (∀ n ∈ names, Plain n) → below targ names = parent (below targ loc) →
      ∃ name, loc = names ++ [name] := by
    intro names hn heq
    rcases eq_nil_or_concat loc with rfl | ⟨base, name, rfl⟩
    · exact absurd heq (below_ne_parent htarg names)
    · rw [concat_eq_append] at hloc heq ⊢
      rw [parent_below htarg base (hloc name (by simp))] at heq
      have hbase := (below_inj htarg (fun n h => hloc n (mem_append_left _ h)) hn).1 heq
      exact ⟨name, hbase ▸ rfl⟩
  refine ⟨fun names hn _ hup => if_neg fun heq => ?_, fun names hn _ => ?_⟩
  · obtain ⟨name, hname⟩ := hparent names hn heq
    exact hup name hname
  · unfold Disk.at Disk.touch
    dsimp only
    split_ifs
    · rw [Option.map_map]
      exact congrArg (fun f => Option.map f _) (funext isDir_touched)
    · rfl

theorem changes_make : Changes targ loc D (D.make H (below targ loc) n) :=
  (changes_touch htarg hloc).trans (changes_set htarg hloc)

/-- **A call changes what it names, and nothing else.** -/
theorem changes_act {a : Act} (ha : a.path = below targ loc) :
    Changes targ loc D (D.act H a).2 := by
  have hset : ∀ (n : Node) (offset : ℕ),
    Changes targ loc D { D.set (below targ loc) n with offset := offset } :=
    fun n offset => (changes_set htarg hloc).trans (.refl rfl)
  have hmake : ∀ (n : Node) (offset : ℕ),
    Changes targ loc D { D.make H (below targ loc) n with offset := offset } :=
    fun n offset => (changes_make htarg hloc).trans (.refl rfl)
  unfold Disk.act
  cases a with
  | mkdir p mode umask =>
    obtain rfl : p = below targ loc := ha
    dsimp only
    split
    · exact .refl rfl
    · exact hmake _ _
  | create p mode umask =>
    obtain rfl : p = below targ loc := ha
    dsimp only
    split
    · exact .refl rfl
    · exact .refl rfl
    · exact hmake _ _
  | write p data =>
    obtain rfl : p = below targ loc := ha
    dsimp only
    split
    · exact hset _ _
    · exact .refl rfl
  | ftruncate p size =>
    obtain rfl : p = below targ loc := ha
    dsimp only
    split
    · split_ifs
      · exact .refl rfl
      · exact hset _ _
    · exact .refl rfl
  | chmod p mode =>
    obtain rfl : p = below targ loc := ha
    dsimp only
    split
    · exact hset _ _
    · exact hset _ _
    · exact .refl rfl
  | utimes p times =>
    obtain rfl : p = below targ loc := ha
    dsimp only
    split_ifs
    · exact .refl rfl
    · split
      · exact hset _ _
      · exact hset _ _
      · exact .refl rfl

end

/-! ### A file or a directory that is new -/

section
variable {H : Host} {D : Disk} {targ : Path} {loc : List Text} {mode : Mode} {data : Text}
    {mtime atime : Stamp}

theorem act_create (h : D.at targ loc = none) (mode umask : Mode) :
    (D.act H (.create (below targ loc) mode umask)).1 = true ∧
      (D.act H (.create (below targ loc) mode umask)).2.at targ loc =
        some (.file (mode &&& ~~~umask) [] H.now H.now) ∧
      (D.act H (.create (below targ loc) mode umask)).2.offset = 0 := by
  have hnodes : D.nodes (below targ loc) = none := h
  simp only [Disk.act, hnodes, true_and]
  exact ⟨if_pos rfl, trivial⟩

theorem act_mkdir (h : D.at targ loc = none) (mode umask : Mode) :
    (D.act H (.mkdir (below targ loc) mode umask)).1 = true ∧
      (D.act H (.mkdir (below targ loc) mode umask)).2.at targ loc =
        some (.dir (mode &&& ~~~umask) H.now H.now) := by
  have hnodes : D.nodes (below targ loc) = none := h
  simp only [Disk.act, hnodes, true_and]
  exact if_pos rfl

theorem overwrite_end (old new : Text) : overwrite old old.length new = old ++ new := by
  unfold overwrite
  rw [take_length, drop_of_length_le (Nat.le_add_right _ _), append_nil]

theorem resize_length (old : Text) : resize old old.length = old := by
  unfold resize
  rw [take_length, Nat.sub_self, replicate_zero, append_nil]

theorem act_write (h : D.at targ loc = some (.file mode data mtime atime))
    (hoffset : D.offset = data.length) (new : Text) :
    (D.act H (.write (below targ loc) new)).1 = true ∧
      (D.act H (.write (below targ loc) new)).2.at targ loc =
        some (.file (H.written mode) (data ++ new) H.now atime) ∧
      (D.act H (.write (below targ loc) new)).2.offset = (data ++ new).length := by
  have hnodes : D.nodes (below targ loc) = some (.file mode data mtime atime) := h
  simp only [Disk.act, hnodes, hoffset, overwrite_end, true_and]
  exact ⟨if_pos rfl, length_append.symm⟩

theorem act_ftruncate (h : D.at targ loc = some (.file mode data mtime atime)) :
    (D.act H (.ftruncate (below targ loc) data.length)).1 = true ∧
      (D.act H (.ftruncate (below targ loc) data.length)).2.at targ loc =
        some (.file (H.written mode) data H.now atime) := by
  have hnodes : D.nodes (below targ loc) = some (.file mode data mtime atime) := h
  have hneg : ¬ (data.length : ℤ) < 0 := by omega
  simp only [Disk.act, hnodes, if_neg hneg, Int.toNat_natCast, resize_length, true_and]
  exact if_pos rfl

theorem act_chmod_file (h : D.at targ loc = some (.file mode data mtime atime)) (mode' : Mode) :
    (D.act H (.chmod (below targ loc) mode')).1 = true ∧
      (D.act H (.chmod (below targ loc) mode')).2.at targ loc =
      some (.file mode' data mtime atime) := by
  have hnodes : D.nodes (below targ loc) = some (.file mode data mtime atime) := h
  simp only [Disk.act, hnodes, true_and]
  exact if_pos rfl

theorem act_chmod_dir (h : D.at targ loc = some (.dir mode mtime atime)) (mode' : Mode) :
    (D.act H (.chmod (below targ loc) mode')).1 = true ∧
      (D.act H (.chmod (below targ loc) mode')).2.at targ loc = some (.dir mode' mtime atime) := by
  have hnodes : D.nodes (below targ loc) = some (.dir mode mtime atime) := h
  simp only [Disk.act, hnodes, true_and]
  exact if_pos rfl

variable {times : Times} (htimes : times.1.2 < 1000000 ∧ times.2.2 < 1000000)
include htimes

theorem act_utimes_file (h : D.at targ loc = some (.file mode data mtime atime)) :
    (D.act H (.utimes (below targ loc) times)).1 = true ∧
      (D.act H (.utimes (below targ loc) times)).2.at targ loc =
        some (.file mode data (stampOf times.1) (stampOf times.2)) := by
  have hnodes : D.nodes (below targ loc) = some (.file mode data mtime atime) := h
  have hbad : ¬ (1000000 ≤ times.1.2 ∨ 1000000 ≤ times.2.2) := by omega
  simp only [Disk.act, if_neg hbad, hnodes, true_and]
  exact if_pos rfl

theorem act_utimes_dir (h : D.at targ loc = some (.dir mode mtime atime)) :
    (D.act H (.utimes (below targ loc) times)).1 = true ∧
      (D.act H (.utimes (below targ loc) times)).2.at targ loc =
        some (.dir mode (stampOf times.1) (stampOf times.2)) := by
  have hnodes : D.nodes (below targ loc) = some (.dir mode mtime atime) := h
  have hbad : ¬ (1000000 ≤ times.1.2 ∨ 1000000 ≤ times.2.2) := by omega
  simp only [Disk.act, if_neg hbad, hnodes, true_and]
  exact if_pos rfl

end

end Inetutils.Rcp.Files
