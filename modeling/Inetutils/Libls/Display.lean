import Inetutils.Lib.Decimal
import Mathlib.Data.List.Induction

/-! # What is listed

`display` of `src/libls/ls.c` goes through a list of entries, marks those that are not printed, and
finds how wide the fields are; for a long listing it also finds the names of the owners and groups.
`st_blocks` and `st_size` are not negative.

* `scan_user`, `scan_group`: the names that an entry gets. -/

namespace Inetutils.Libls.Display

open Lib.Decimal List

abbrev Text := List UInt8

structure Options where
  f_inode : Bool
  f_longform : Bool
  f_size : Bool
  f_flags : Bool
  f_type : Bool
  f_typedir : Bool
  f_numericonly : Bool
  f_listdir : Bool
  f_listdot : Bool
  f_nonprint : Bool

def Options.needstats (o : Options) : Bool := o.f_inode || o.f_longform || o.f_size

/-- It is set with `-l` and `-s` only. -/
def Options.blocksize (o : Options) : ℕ := if o.f_longform || o.f_size then 2 else 0

inductive Kind
  | dir
  | fifo
  | lnk
  | sock
  | chr
  | blk
  | reg
  deriving DecidableEq

def Kind.device (k : Kind) : Bool := k = .chr || k = .blk

/-- What `stat` says of a file, with the text that `strmode` makes of the mode and the one that
`printtime` prints. -/
structure Stat where
  ino : ℕ
  blocks : ℕ
  nlink : ℕ
  size : ℕ
  uid : ℕ
  gid : ℕ
  kind : Kind
  exec : Bool
  major : ℕ
  minor : ℕ
  mode : Text
  time : Text

/-- An entry: `fts_info` is `FTS_ERR` or `FTS_NS`, or it is `FTS_D`; and the text that `printlink`
prints. -/
structure Ftsent where
  failed : Bool
  directory : Bool
  name : Text
  stat : Stat
  link : Text

/-- `fts_number = NO_PRINT`; the arguments have no parent. -/
def Ftsent.noPrint (o : Options) (root : Bool) (cur : Ftsent) : Bool :=
  cur.failed || if root then cur.directory && !o.f_listdir else cur.name.head? =
    some 46 && !o.f_listdot

/-! ### Owners -/

/-- A database, and what its storage holds behind the lookup for the `i`th entry, when nothing is
found. -/
structure Database where
  name : ℕ → Option Text
  stale : ℕ → Text

/-- Where `user` or `group` points to. -/
inductive Pointer
  | storage
  | number
  deriving DecidableEq

/-- `user`, with the storage of `getpwuid` and `nuser`; or the same for the group. -/
structure Owner where
  pointer : Option Pointer
  storage : Text
  number : Text

def Owner.init : Owner := ⟨none, [], []⟩

def Owner.text (w : Owner) : Text :=
  match w.pointer with
  | none => []
  | some .storage => w.storage
  | some .number => w.number

def Owner.find (db : Database) (i id : ℕ) (w : Owner) : Owner :=
  match db.name id with
  | some name => { w with pointer := some .storage, storage := name }
  | none => { w with storage := db.stale i }

/-- What is done for the `i`th entry that is printed. -/
def Owner.next (numeric : Bool) (db : Database) (i id : ℕ) (w : Owner) : Owner :=
  let w := if numeric then w else w.find db i id
  if w.pointer = none then { w with pointer := some .number, number := decimal id } else w

/-! ### The loop -/

/-- What `fts_pointer` points to; there are only flags with `-o`. -/
structure Names where
  user : Text
  group : Text
  flags : Text

structure Listed where
  entry : Ftsent
  noPrint : Bool
  names : Option Names

structure Scan where
  maxsize : ℕ
  btotal : ℕ
  maxblock : ℕ
  maxinode : ℕ
  maxlen : ℕ
  maxnlink : ℕ
  bcfile : Bool
  maxflags : ℕ
  maxgroup : ℕ
  maxuser : ℕ
  entries : ℕ
  user : Owner
  group : Owner
  list : List Listed

def Scan.init : Scan := ⟨0, 0, 0, 0, 0, 0, false, 0, 0, 0, 0, .init, .init, []⟩

structure Databases where
  pw : Database
  gr : Database

section
variable (o : Options) (db : Databases)

def Scan.stats (d : Scan) (sp : Stat) : Scan :=
  { d with
    maxblock := max d.maxblock sp.blocks
    maxinode := max d.maxinode sp.ino
    maxnlink := max d.maxnlink sp.nlink
    maxsize := max d.maxsize sp.size
    btotal := d.btotal + sp.blocks }

def Scan.owners (d : Scan) (sp : Stat) : Scan :=
  { d with
    user := d.user.next o.f_numericonly db.pw d.entries sp.uid
    group := d.group.next o.f_numericonly db.gr d.entries sp.gid }

/-- The names of the entry, when `user` and `group` are found. -/
def Scan.names (d : Scan) : Names := ⟨d.user.text, d.group.text, if o.f_flags then [45] else []⟩

def Scan.long (d : Scan) (sp : Stat) : Scan :=
  let d := d.owners o db sp
  { d with
    maxuser := max d.maxuser (d.names o).user.length
    maxgroup := max d.maxgroup (d.names o).group.length
    maxflags := max d.maxflags (d.names o).flags.length
    bcfile := d.bcfile || sp.kind.device }

def Scan.print (d : Scan) (cur : Ftsent) : Scan :=
  let d := { d with maxlen := max d.maxlen cur.name.length }
  let d := if o.needstats then d.stats cur.stat else d
  let d := if o.f_longform then d.long o db cur.stat else d
  { d with
    entries := d.entries + 1
    list := d.list ++ [⟨cur, false, if o.f_longform then some (d.names o) else none⟩] }

def Scan.step (root : Bool) (d : Scan) (cur : Ftsent) : Scan :=
  if cur.noPrint o root then { d with list := d.list ++ [⟨cur, true, none⟩] } else d.print o db cur

def scan (root : Bool) (list : List Ftsent) : Scan := list.foldl (Scan.step o db root) .init

/-- `DISPLAY`; the widths of the fields of `stat` are not set, and not read, if it is not needed. -/
structure DISPLAY where
  list : List Listed
  root : Bool
  btotal : ℕ
  bcfile : Bool
  entries : ℕ
  maxlen : ℕ
  s_block : ℕ
  s_flags : ℕ
  s_group : ℕ
  s_inode : ℕ
  s_nlink : ℕ
  s_size : ℕ
  s_user : ℕ

/-- `strlen (umaxtostr (n, buf))` -/
def digits (n : ℕ) : ℕ := (decimal n).length

/-- **`display`**: what is handed to the function that prints, when there is something to be
printed. -/
def display (root : Bool) (list : List Ftsent) : Option DISPLAY :=
  let d := scan o db root list
  if d.entries = 0 then none
  else
    some
      { list := d.list
        root
        btotal := d.btotal
        bcfile := d.bcfile
        entries := d.entries
        maxlen := d.maxlen
        s_block := digits d.maxblock
        s_flags := d.maxflags
        s_group := d.maxgroup
        s_inode := digits d.maxinode
        s_nlink := digits d.maxnlink
        s_size := digits d.maxsize
        s_user := d.maxuser }

end

/-! ### Owners, one after the other -/

/-- `user`, or `group`, behind the entries with these numbers. -/
def Owner.after (numeric : Bool) (db : Database) (ids : List ℕ) : Owner :=
  ids.zipIdx.foldl (fun w p => w.next numeric db p.2 p.1) .init

section
variable (numeric : Bool) (db : Database)

theorem Owner.after_concat (ids : List ℕ) (id : ℕ) :
    after numeric db (ids ++ [id]) = (after numeric db ids).next numeric db ids.length id := by
  rw [after, zipIdx_append, foldl_append, zero_add]
  rfl

variable {ids : List ℕ}

theorem Owner.after_take_succ {i id : ℕ} (h : ids[i]? = some id) :
    after numeric db (ids.take (i + 1)) = (after numeric db (ids.take i)).next numeric db i id := by
  obtain ⟨hi, -⟩ := List.getElem?_eq_some_iff.1 h
  rw [List.take_add_one, h, Option.toList, after_concat, List.length_take_of_le (le_of_lt hi)]

theorem Owner.after_of_unnamed (h : numeric = true ∨ ∀ id ∈ ids, db.name id = none) :
    (after numeric db ids).pointer = ids.head?.map (fun _ => .number) ∧
      ∀ id, ids.head? = some id → (after numeric db ids).number = decimal id := by
  induction ids using List.reverseRecOn with
  | nil => exact ⟨rfl, nofun⟩
  | append_singleton ids id ih =>
    obtain ⟨hptr, hnum⟩ := ih (h.imp_right fun h a ha => h a (mem_append_left _ ha))
    have hfind : ∀ w : Owner, (if numeric then w else w.find db ids.length id).pointer = w.pointer ∧
        (if numeric then w else w.find db ids.length id).number = w.number := by
      intro w
      by_cases hn : numeric = true
      · rw [if_pos hn]
        exact ⟨rfl, rfl⟩
      · have hnone := h.resolve_left hn id (mem_append_right _ mem_cons_self)
        rw [if_neg hn, find, hnone]
        exact ⟨rfl, rfl⟩
    obtain ⟨hp, hn⟩ := hfind (after numeric db ids)
    rw [after_concat, next]
    rcases ids with - | ⟨a, ids⟩
    · rw [head?_nil, Option.map_none] at hptr
      rw [if_pos (hp.trans hptr)]
      exact ⟨rfl, fun b hb => congrArg decimal (Option.some.inj hb)⟩
    · rw [if_neg (by rw [hp, hptr]; exact Option.some_ne_none _)]
      exact ⟨hp.trans hptr, fun b hb => hn.trans (hnum b hb)⟩

theorem Owner.after_of_named (hn : numeric = false) (h : ∃ id ∈ ids, db.name id ≠ none) :
    (after numeric db ids).pointer = some .storage := by
  induction ids using List.reverseRecOn with
  | nil => exact absurd h (by simp)
  | append_singleton ids id ih =>
    rw [after_concat, next, hn, if_neg Bool.false_ne_true]
    rcases hname : db.name id with - | name
    · have hold : ∃ id ∈ ids, db.name id ≠ none := by
        obtain ⟨a, ha, hne⟩ := h
        rcases mem_append.1 ha with ha | ha
        · exact ⟨a, ha, hne⟩
        · exact absurd hname (mem_singleton.1 ha ▸ hne)
      have hptr := ih hold
      rw [hn] at hptr
      simp [find, hname, hptr]
    · simp [find, hname]

end

/-! ### What the loop finds -/

section
variable (o : Options) (db : Databases) (root : Bool)

def printed (list : List Ftsent) : List Ftsent := list.filter fun cur => !cur.noPrint o root

variable (list : List Ftsent) (cur : Ftsent)

theorem scan_concat :
    scan o db root (list ++ [cur]) = (scan o db root list).step o db root cur := foldl_append ..

theorem printed_concat :
    printed o root (list ++ [cur]) = printed o root list ++ if cur.noPrint o root then []
      else [cur] := by
  rw [printed, filter_append]
  rcases h : cur.noPrint o root <;> simp [h, printed]

theorem scan_entries : (scan o db root list).entries = (printed o root list).length := by
  induction list using List.reverseRecOn with
  | nil => rfl
  | append_singleton list cur ih =>
    rw [scan_concat, printed_concat, Scan.step, length_append]
    split
    · exact ih
    · rw [← ih, Scan.print]
      split <;> split <;> rfl

def namesAt (ps : List Ftsent) (i : ℕ) : Names :=
  ⟨(Owner.after o.f_numericonly db.pw ((ps.take (i + 1)).map (·.stat.uid))).text,
    (Owner.after o.f_numericonly db.gr ((ps.take (i + 1)).map (·.stat.gid))).text,
    if o.f_flags then [45] else []⟩

theorem print_user_group (hl : o.f_longform = true) (d : Scan) (cur : Ftsent) :
    (d.print o db cur).user = d.user.next o.f_numericonly db.pw d.entries cur.stat.uid ∧
      (d.print o db cur).group = d.group.next o.f_numericonly db.gr d.entries cur.stat.gid := by
  rw [Scan.print, if_pos hl]
  split <;> exact ⟨rfl, rfl⟩

theorem print_list (hl : o.f_longform = true) (d : Scan) (cur : Ftsent) :
    (d.print o db cur).list = d.list ++ [⟨cur, false, some ⟨(d.print o db cur).user.text,
      (d.print o db cur).group.text, if o.f_flags then [45] else []⟩⟩] := by
  rw [Scan.print, if_pos hl, if_pos hl]
  split <;> rfl

theorem scan_user_group (hl : o.f_longform = true) (list : List Ftsent) :
    (scan o db root list).user =
    Owner.after o.f_numericonly db.pw ((printed o root list).map (·.stat.uid)) ∧
      (scan o db root list).group =
      Owner.after o.f_numericonly db.gr ((printed o root list).map (·.stat.gid)) := by
  induction list using List.reverseRecOn with
  | nil => exact ⟨rfl, rfl⟩
  | append_singleton list cur ih =>
    rw [scan_concat, printed_concat, Scan.step]
    split
    · rw [append_nil]
      exact ih
    · obtain ⟨hu, hg⟩ := print_user_group o db hl (scan o db root list) cur
      rw [hu, hg, ih.1, ih.2, scan_entries, map_append, map_append, map_singleton, map_singleton,
        Owner.after_concat, Owner.after_concat, length_map, length_map]
      exact ⟨rfl, rfl⟩

/-- **The entries that are printed in a long listing**, with their names. -/
theorem scan_list (hl : o.f_longform = true) (list : List Ftsent) :
    (scan o db root list).list.filter (fun x => !x.noPrint) =
      (printed o root list).mapIdx fun i cur =>
      ⟨cur, false, some (namesAt o db (printed o root list) i)⟩ := by
  induction list using List.reverseRecOn with
  | nil => rfl
  | append_singleton list cur ih =>
    have huser := scan_user_group o db root hl (list ++ [cur])
    rw [scan_concat, printed_concat] at *
    rw [Scan.step] at *
    split at huser
    next h =>
      rw [if_pos h, if_pos h, filter_append, ih, append_nil]
      exact append_nil _
    next h =>
      rw [if_neg h, if_neg h, print_list o db hl, filter_append, ih, huser.1, huser.2,
        mapIdx_concat]
      have hlast : namesAt o db (printed o root list ++ [cur]) (printed o root list).length =
          ⟨(Owner.after o.f_numericonly db.pw
            ((printed o root list ++ [cur]).map (·.stat.uid))).text,
            (Owner.after o.f_numericonly db.gr
              ((printed o root list ++ [cur]).map (·.stat.gid))).text,
            if o.f_flags then [45] else []⟩ := by
        rw [namesAt, take_of_length_le (by simp)]
      rw [hlast]
      refine congrArg₂ (· ++ ·) (mapIdx_eq_mapIdx_iff.2 fun i hi => ?_) rfl
      rw [namesAt, namesAt, take_append_of_le_length (Nat.succ_le_of_lt hi)]

/-- What is printed of an entry is not longer than what was found. -/
structure Held (d : Scan) (x : Listed) : Prop where
  name : x.entry.name.length ≤ d.maxlen
  stats : o.needstats = true → x.entry.stat.ino ≤ d.maxinode ∧ x.entry.stat.blocks ≤ d.maxblock ∧
    x.entry.stat.nlink ≤ d.maxnlink ∧ x.entry.stat.size ≤ d.maxsize
  names : ∀ n, x.names = some n →
    n.user.length ≤ d.maxuser ∧ n.group.length ≤ d.maxgroup ∧ n.flags.length ≤ d.maxflags

structure Grows (d d' : Scan) : Prop where
  maxlen : d.maxlen ≤ d'.maxlen
  maxinode : d.maxinode ≤ d'.maxinode
  maxblock : d.maxblock ≤ d'.maxblock
  maxnlink : d.maxnlink ≤ d'.maxnlink
  maxsize : d.maxsize ≤ d'.maxsize
  maxuser : d.maxuser ≤ d'.maxuser
  maxgroup : d.maxgroup ≤ d'.maxgroup
  maxflags : d.maxflags ≤ d'.maxflags

theorem Held.grows {o : Options} {d d' : Scan} {x : Listed} (h : Held o d x) (hg : Grows d d') :
    Held o d' x := by
  refine ⟨h.name.trans hg.maxlen, fun hn => ?_, fun n hn => ?_⟩
  · obtain ⟨hi, hb, hl, hs⟩ := h.stats hn
    exact ⟨hi.trans hg.maxinode, hb.trans hg.maxblock, hl.trans hg.maxnlink, hs.trans hg.maxsize⟩
  · obtain ⟨hu, hr, hf⟩ := h.names n hn
    exact ⟨hu.trans hg.maxuser, hr.trans hg.maxgroup, hf.trans hg.maxflags⟩

theorem grows_print (d : Scan) (cur : Ftsent) : Grows d (d.print o db cur) := by
  unfold Scan.print
  by_cases hs : o.needstats = true <;> by_cases hl : o.f_longform = true <;>
    simp only [hs, hl, if_pos, if_neg, Bool.false_eq_true, not_false_eq_true] <;>
    constructor <;> first | exact le_max_left _ _ | exact le_rfl

theorem held_print (d : Scan) (cur : Ftsent) :
    ∃ names, (d.print o db cur).list = d.list ++ [⟨cur, false, names⟩] ∧
    Held o (d.print o db cur) ⟨cur, false, names⟩ := by
  unfold Scan.print
  by_cases hs : o.needstats = true <;> by_cases hl : o.f_longform = true <;>
    simp only [hs, hl, if_pos, if_neg, Bool.false_eq_true, not_false_eq_true] <;>
    refine ⟨_, rfl, ⟨?_, fun hn => ?_, fun n hn => ?_⟩⟩
  all_goals first
    | exact le_max_right _ _
    | exact absurd hn hs
    | exact absurd hn.symm (Option.some_ne_none n)
    | exact ⟨le_max_right _ _, le_max_right _ _, le_max_right _ _, le_max_right _ _⟩
    | exact Option.some.inj hn ▸ ⟨le_max_right _ _, le_max_right _ _, le_max_right _ _⟩

/-- **The entries that are printed**, in their order. -/
theorem scan_printed :
    ((scan o db root list).list.filter fun x => !x.noPrint).map Listed.entry =
    printed o root list := by
  induction list using List.reverseRecOn with
  | nil => rfl
  | append_singleton list cur ih =>
    rw [scan_concat, printed_concat, Scan.step]
    split
    next =>
      rw [filter_append, map_append, ih]
      rfl
    next =>
      obtain ⟨names, hlist, -⟩ := held_print o db (scan o db root list) cur
      rw [hlist, filter_append, map_append, ih]
      rfl

/-- **The widths** are those of all that is printed. -/
theorem scan_fits :
    ∀ x ∈ (scan o db root list).list, x.noPrint = false → Held o (scan o db root list) x := by
  induction list using List.reverseRecOn with
  | nil => exact fun x hx => absurd hx not_mem_nil
  | append_singleton list cur ih =>
    rw [scan_concat, Scan.step]
    intro x hx hp
    split at hx
    next h =>
      rw [if_pos h]
      rcases mem_append.1 hx with hx | hx
      · exact (ih x hx hp).grows ⟨le_rfl, le_rfl, le_rfl, le_rfl, le_rfl, le_rfl,
          le_rfl, le_rfl⟩
      · rw [mem_singleton.1 hx] at hp
        exact absurd hp.symm Bool.false_ne_true
    next h =>
      rw [if_neg h]
      obtain ⟨names, hlist, hheld⟩ := held_print o db (scan o db root list) cur
      rw [hlist] at hx
      rcases mem_append.1 hx with hx | hx
      · exact (ih x hx hp).grows (grows_print o db _ cur)
      · rw [mem_singleton.1 hx]
        exact hheld

end

end Inetutils.Libls.Display
