import Inetutils.Libls.Display

/-! # Long listings

`printlong` of `src/libls/print.c`, over what `display` hands to it. A row has the fields of which
`display` has computed the width, each with that width. -/

namespace Inetutils.Libls.Printlong

open Lib.Decimal Display List Option

/-! ### Rows -/

/-- `%*lu`, or `%-*s`. -/
structure Field where
  width : ℕ
  text : Text

def Field.right (f : Field) : Text := List.replicate (f.width - f.text.length) 32 ++ f.text

def Field.left (f : Field) : Text := f.text ++ List.replicate (f.width - f.text.length) 32

/-- The size behind blanks that leave it as much room as a device has, or the numbers of a
device. -/
inductive Size
  | device (major minor : ℕ)
  | file (blanks : ℕ) (size : Field)

def Size.text : Size → Text
  | .device major minor =>
    Field.right ⟨3, decimal major⟩ ++ [44, 32] ++ Field.right ⟨3, decimal minor⟩ ++ [32]
  | .file blanks size => List.replicate blanks 32 ++ size.right ++ [32]

structure Row where
  inode : Option Field
  block : Option Field
  mode : Text
  nlink : Field
  user : Field
  group : Field
  flags : Option Field
  size : Size
  time : Text
  name : Text
  link : Text

def Row.text (r : Row) : Text :=
  (r.inode.elim [] fun f => f.right ++ [32]) ++ (r.block.elim [] fun f => f.right ++ [32]) ++
    r.mode ++ [32] ++
    r.nlink.right ++ [32] ++ r.user.left ++ [32, 32] ++ r.group.left ++ [32, 32] ++
    (r.flags.elim [] fun f => f.left ++ [32]) ++ r.size.text ++ r.time ++ r.name ++ r.link

def Row.fields (r : Row) : List Field :=
  r.inode.toList ++ r.block.toList ++ [r.nlink, r.user, r.group] ++ r.flags.toList ++
    match r.size with
    | .device _ _ => []
    | .file _ size => [size]

def Row.Fits (r : Row) : Prop := ∀ f ∈ r.fields, f.text.length ≤ f.width

/-! ### What is printed -/

def howmany (x y : ℕ) : ℕ := (x + (y - 1)) / y

def putname (o : Options) (name : Text) : Text :=
  name.map fun c => if ¬ (32 ≤ c ∧ c < 127) ∧ o.f_nonprint then 63 else c

def printtype (sp : Stat) : Text :=
  match sp.kind with
  | .dir => [47]
  | .fifo => [124]
  | .lnk => [64]
  | .sock => [61]
  | _ => if sp.exec then [42] else []

def typeText (o : Options) (sp : Stat) : Text :=
  if o.f_type || o.f_typedir && sp.kind = .dir then printtype sp else []

/-- `"total %lu\n"` -/
def heading (o : Options) (d : DISPLAY) : Text :=
  if !d.root && (o.f_longform || o.f_size) then
    [116, 111, 116, 97, 108, 32] ++ decimal (howmany d.btotal o.blocksize) ++ [10]
  else []

/-- A number of links is printed as an `unsigned int`. -/
def row (o : Options) (d : DISPLAY) (p : Ftsent) (np : Names) : Row where
  inode := if o.f_inode then some ⟨d.s_inode, decimal p.stat.ino⟩ else none
  block := if o.f_size then some ⟨d.s_block, decimal (howmany p.stat.blocks o.blocksize)⟩ else none
  mode := p.stat.mode
  nlink := ⟨d.s_nlink, decimal (p.stat.nlink % 2 ^ 32)⟩
  user := ⟨d.s_user, np.user⟩
  group := ⟨d.s_group, np.group⟩
  flags := if o.f_flags then some ⟨d.s_flags, np.flags⟩ else none
  size :=
    if p.stat.kind.device then .device p.stat.major p.stat.minor
    else .file (if d.bcfile then (8 - d.s_size : ℤ).natAbs else 0) ⟨d.s_size, decimal p.stat.size⟩
  time := p.stat.time
  name := putname o p.name ++ typeText o p.stat
  link := if p.stat.kind = .lnk then p.link else []

def rows (o : Options) (d : DISPLAY) : Option (List Row) :=
  (d.list.filter fun x => !x.noPrint).mapM fun x => x.names.map (row o d x.entry)

/-- **`printlong`** -/
def printlong (o : Options) (d : DISPLAY) : Option Text :=
  (rows o d).map fun rs => heading o d ++ rs.flatMap fun r => r.text ++ [10]

/-! ### Which owners are shown -/

/-- The name if there is one and no number is asked for, or the number. -/
def ownerText (numeric : Bool) (db : Database) (id : ℕ) : Text :=
  if numeric then decimal id else (db.name id).getD (decimal id)

/-- If it is to be shown with a number, it has the owner of the first one; or where there was a name
before, the storage happens to hold the number. -/
def OwnedAt (numeric : Bool) (db : Database) (ids : List ℕ) (i id : ℕ) : Prop :=
  numeric = true ∨ db.name id = none →
    if numeric = false ∧ ∃ id' ∈ ids.take i, db.name id' ≠ none then db.stale i = decimal id
    else ids.head? = some id

def Owned (numeric : Bool) (db : Database) (ids : List ℕ) : Prop :=
  ∀ i id, ids[i]? = some id → OwnedAt numeric db ids i id

theorem ownerText_of_number {numeric : Bool} {db : Database} {id : ℕ}
    (h : numeric = true ∨ db.name id = none) :
    ownerText numeric db id = decimal id := by
  rw [ownerText]
  rcases h with h | h
  · rw [if_pos h]
  · rw [h, getD_none, ite_self]

theorem text_after_iff {numeric : Bool} {db : Database} {ids : List ℕ} {i id : ℕ}
    (h : ids[i]? = some id) :
    (Owner.after numeric db (ids.take (i + 1))).text = ownerText numeric db id ↔
    OwnedAt numeric db ids i id := by
  unfold OwnedAt
  by_cases hnum : numeric = true ∨ db.name id = none
  · rw [imp_iff_right hnum, ownerText_of_number hnum]
    split
    next hold =>
      -- the storage is pointed to, and was written by a lookup that has found nothing
      obtain ⟨rfl, hold⟩ := hold
      have hptr := Owner.after_of_named false db rfl hold
      have hnone := hnum.resolve_left Bool.false_ne_true
      rw [Owner.after_take_succ false db h]
      simp [Owner.next, Owner.find, hnone, hptr, Owner.text]
    next hold =>
      have hall : numeric = true ∨ ∀ a ∈ ids.take (i + 1), db.name a = none := by
        rcases hn : numeric with - | -
        · refine .inr fun a ha => ?_
          rw [take_add_one, h, mem_append] at ha
          rcases ha with ha | ha
          · by_contra hne
            exact hold ⟨hn, a, ha, hne⟩
          · rw [mem_singleton.1 ha]
            exact hnum.resolve_left (by rw [hn]; exact Bool.false_ne_true)
        · exact .inl rfl
      obtain ⟨hptr, hno⟩ := Owner.after_of_unnamed numeric db hall
      obtain ⟨a, l, rfl⟩ : ∃ a l, ids = a :: l := by
        rcases ids with - | ⟨a, l⟩
        · exact absurd h (by simp)
        · exact ⟨a, l, rfl⟩
      rw [take_succ_cons, head?_cons] at hptr hno
      rw [take_succ_cons, Owner.text, hptr, head?_cons, some.injEq]
      rw [hno a rfl]
      exact decimal_injective.eq_iff
  · refine iff_of_true ?_ fun hor => absurd hor hnum
    rw [not_or, Bool.not_eq_true] at hnum
    obtain ⟨name, hname⟩ := ne_none_iff_exists'.1 hnum.2
    rw [Owner.after_take_succ numeric db h]
    simp [Owner.next, hnum.1, Owner.find, hname, Owner.text, ownerText]

/-! ### The listing -/

theorem mapM_mapIdx {α β γ : Type*} {f : ℕ → α → β} {g : β → Option γ} {h : ℕ → α → γ}
    (hg : ∀ i a, g (f i a) = some (h i a)) (l : List α) :
    (l.mapIdx f).mapM g = some (l.mapIdx h) := by
  induction l using List.reverseRecOn with
  | nil => rfl
  | append_singleton l a ih =>
    rw [mapIdx_concat, mapIdx_concat, mapM_append, ih]
    simp [hg]

section
variable (o : Options) (db : Databases) (root : Bool) (list : List Ftsent)

/-- The row of the `i`th entry. -/
def rowAt (d : DISPLAY) (i : ℕ) (cur : Ftsent) : Row :=
  row o d cur (namesAt o db (printed o root list) i)

variable {o db root list} {d : DISPLAY}

theorem display_list (h : display o db root list = some d) :
    d.list = (scan o db root list).list := by
  rw [display] at h
  split at h
  · exact absurd h.symm (some_ne_none d)
  · exact (some.inj h).symm ▸ rfl

theorem rows_eq (hl : o.f_longform = true) (h : display o db root list = some d) :
    rows o d = some ((printed o root list).mapIdx (rowAt o db root list d)) := by
  rw [rows, display_list h, scan_list o db root hl]
  exact mapM_mapIdx (g := fun x : Listed => x.names.map (row o d x.entry)) (fun _ _ => rfl) _

theorem howmany_le (x y : ℕ) : howmany x y ≤ x := by
  rw [howmany]
  rcases y with - | y
  · rw [Nat.div_zero]
    exact Nat.zero_le x
  · rcases x with - | x
    · rw [Nat.div_eq_of_lt (by omega)]
    · refine Nat.div_le_of_le_mul ?_
      rw [Nat.add_mul, Nat.mul_add]
      omega

theorem rowAt_fits (hl : o.f_longform = true) (h : display o db root list = some d) {i : ℕ}
    {cur : Ftsent}
    (hcur : (printed o root list)[i]? = some cur) : (rowAt o db root list d i cur).Fits := by
  have hmem :
      ⟨cur, false, some (namesAt o db (printed o root list) i)⟩ ∈ (scan o db root list).list := by
    have hx : ((scan o db root list).list.filter fun x => !x.noPrint)[i]? =
        some ⟨cur, false, some (namesAt o db (printed o root list) i)⟩ := by
      rw [scan_list o db root hl, getElem?_mapIdx, hcur]
      rfl
    exact (mem_filter.1 (mem_of_getElem? hx)).1
  have hheld := scan_fits o db root list _ hmem rfl
  obtain ⟨hino, hblk, hlnk, hsize⟩ := hheld.stats (by simp [Options.needstats, hl])
  obtain ⟨huser, hgroup, hflags⟩ := hheld.names _ rfl
  have hd : d.s_inode = digits (scan o db root list).maxinode ∧
    d.s_block = digits (scan o db root list).maxblock ∧
      d.s_nlink = digits (scan o db root list).maxnlink ∧
      d.s_size = digits (scan o db root list).maxsize ∧
      d.s_user = (scan o db root list).maxuser ∧ d.s_group = (scan o db root list).maxgroup ∧
      d.s_flags = (scan o db root list).maxflags := by
    rw [display] at h
    split at h
    · exact absurd h.symm (some_ne_none d)
    · obtain rfl := some.inj h
      exact ⟨rfl, rfl, rfl, rfl, rfl, rfl, rfl⟩
  obtain ⟨h1, h2, h3, h4, h5, h6, h7⟩ := hd
  have hle : ∀ {m n w : ℕ}, m ≤ n → w = digits n → (decimal m).length ≤ w := fun hmn hw =>
    hw ▸ length_decimal_mono hmn
  intro f hf
  simp only [rowAt, row, Row.fields, mem_append, mem_toList, ite_none_right_eq_some,
    some.injEq, mem_cons, not_mem_nil, or_false] at hf
  rcases hf with (((⟨-, rfl⟩ | ⟨-, rfl⟩) | rfl | rfl | rfl) | ⟨-, rfl⟩) | hf
  · exact hle hino h1
  · exact hle ((howmany_le _ _).trans hblk) h2
  · exact hle ((Nat.mod_le _ _).trans hlnk) h3
  · exact h5 ▸ huser
  · exact h6 ▸ hgroup
  · exact h7 ▸ hflags
  · rcases hdev : cur.stat.kind.device with - | -
    · rw [hdev] at hf
      obtain rfl := mem_singleton.1 hf
      exact hle hsize h4
    · rw [hdev] at hf
      exact absurd hf not_mem_nil

variable (o db root list d) in
/-- Each entry that is printed has a row, with its owner and its group, and with fields that fit. -/
def Shown : Prop :=
  ∃ rs : List Row, rows o d = some rs ∧ rs.length = (printed o root list).length ∧
    ∀ (i : ℕ) (cur : Ftsent), (printed o root list)[i]? = some cur → ∃ r, rs[i]? = some r ∧
      r.user.text = ownerText o.f_numericonly db.pw cur.stat.uid ∧
      r.group.text = ownerText o.f_numericonly db.gr cur.stat.gid ∧ r.Fits

/-- **The owners that are shown** are those of the entries, and all fields fit, just in case these
are found. -/
theorem owners_iff (hl : o.f_longform = true) (h : display o db root list = some d) :
    Shown o db root list d ↔
      Owned o.f_numericonly db.pw ((printed o root list).map (·.stat.uid)) ∧
        Owned o.f_numericonly db.gr ((printed o root list).map (·.stat.gid)) := by
  have hrow : ∀ (i : ℕ) (cur : Ftsent), (printed o root list)[i]? = some cur →
      ((printed o root list).mapIdx (rowAt o db root list d))[i]? =
      some (rowAt o db root list d i cur) :=
    fun i cur hcur => by rw [getElem?_mapIdx, hcur]; rfl
  have hid : ∀ (f : Ftsent → ℕ) (i id : ℕ), ((printed o root list).map f)[i]? = some id ↔
      ∃ cur, (printed o root list)[i]? = some cur ∧ f cur = id := fun f i id => by
    rw [getElem?_map, map_eq_some_iff]
  -- what is shown of one entry
  have huser : ∀ (i : ℕ) (cur : Ftsent), (printed o root list)[i]? = some cur →
      ((rowAt o db root list d i cur).user.text = ownerText o.f_numericonly db.pw cur.stat.uid ↔
        OwnedAt o.f_numericonly db.pw ((printed o root list).map (·.stat.uid)) i cur.stat.uid) :=
    fun i cur hcur => by
      rw [← text_after_iff ((hid (·.stat.uid) i _).2 ⟨cur, hcur, rfl⟩), ← map_take]
      rfl
  have hgroup : ∀ (i : ℕ) (cur : Ftsent), (printed o root list)[i]? = some cur →
      ((rowAt o db root list d i cur).group.text = ownerText o.f_numericonly db.gr cur.stat.gid ↔
        OwnedAt o.f_numericonly db.gr ((printed o root list).map (·.stat.gid)) i cur.stat.gid) :=
    fun i cur hcur => by
      rw [← text_after_iff ((hid (·.stat.gid) i _).2 ⟨cur, hcur, rfl⟩), ← map_take]
      rfl
  constructor
  · rintro ⟨rs, hrs, -, hall⟩
    obtain rfl := some.inj (hrs.symm.trans (rows_eq hl h))
    constructor
    · intro i id hi
      obtain ⟨cur, hcur, rfl⟩ := (hid _ i id).1 hi
      obtain ⟨r, hr, hu, -⟩ := hall i cur hcur
      obtain rfl := some.inj ((hrow i cur hcur).symm.trans hr)
      exact (huser i cur hcur).1 hu
    · intro i id hi
      obtain ⟨cur, hcur, rfl⟩ := (hid _ i id).1 hi
      obtain ⟨r, hr, -, hg, -⟩ := hall i cur hcur
      obtain rfl := some.inj ((hrow i cur hcur).symm.trans hr)
      exact (hgroup i cur hcur).1 hg
  · rintro ⟨hu, hg⟩
    refine ⟨_, rows_eq hl h, length_mapIdx,
      fun i cur hcur => ⟨_, hrow i cur hcur, ?_, ?_, rowAt_fits hl h hcur⟩⟩
    · exact (huser i cur hcur).2 (hu i _ ((hid _ i _).2 ⟨cur, hcur, rfl⟩))
    · exact (hgroup i cur hcur).2 (hg i _ ((hid _ i _).2 ⟨cur, hcur, rfl⟩))

end

/-! ### Two files -/

def file (name : UInt8) (uid : ℕ) : Ftsent :=
  ⟨false, false, [name], ⟨1, 8, 1, 3, uid, 0, .reg, false, 0, 0, [], []⟩, []⟩

def longNumeric : Options := ⟨false, true, false, false, false, false, true, false, false, false⟩

/-- With `-n` two files of one owner are right. -/
theorem owners_of_root :
    let db : Databases := ⟨⟨fun _ => none, fun _ => []⟩, ⟨fun _ => none, fun _ => []⟩⟩
    ∃ d, display longNumeric db false [file 97 0, file 98 0] = some d ∧
      (Shown longNumeric db false [file 97 0, file 98 0] d ↔
        Owned true db.pw [0, 0] ∧ Owned true db.gr [0, 0]) :=
  ⟨_, rfl, owners_iff rfl rfl⟩

/-- The second of two owners is not shown. -/
theorem not_shown_second :
    ¬ ∀ (o : Options) (db : Databases) (root : Bool) (list : List Ftsent) (d : DISPLAY),
    o.f_longform = true → display o db root list = some d → Shown o db root list d := by
  intro h
  obtain ⟨rs, hrs, -, hall⟩ :=
    h longNumeric ⟨⟨fun _ => none, fun _ => []⟩, ⟨fun _ => none, fun _ => []⟩⟩ false
    [file 97 0, file 98 1] _ rfl rfl
  obtain rfl := some.inj hrs
  obtain ⟨r, hr, huser, -⟩ := hall 1 (file 98 1) rfl
  obtain rfl := some.inj hr
  exact absurd huser (by decide)

end Inetutils.Libls.Printlong
