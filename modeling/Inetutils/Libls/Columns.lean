import Inetutils.Lib.Cells
import Inetutils.Lib.Grid
import Inetutils.Lib.Runs
import Inetutils.Libls.Printlong
import Mathlib.Data.List.Forall2

/-! # Listings in columns

`printcol` and `printacol` of `src/libls/print.c`, over what `display` hands to them, with the table
that `printcol` keeps from call to call. A division by zero, a place outside of the table and a sum
that is no `int` have no result; names are shorter than `2 ^ 16` bytes, as `fts_namelen` says. -/

namespace Inetutils.Libls.Columns

open Lib.Cells Lib.Decimal Lib.Grid Lib.Runs Display Printlong List Option

/-! ### An entry -/

def div (a b : ℕ) : Option ℕ := if b = 0 then none else some (a / b)

/-- What `printaname` prints. -/
def printaname (o : Options) (d : DISPLAY) (p : Ftsent) : Option Text :=
  let inode := if o.f_inode then Field.right ⟨d.s_inode, decimal p.stat.ino⟩ ++ [32] else []
  let block :=
    if o.f_size then
      (div (p.stat.blocks + (o.blocksize - 1)) o.blocksize).map fun n =>
        Field.right ⟨d.s_block, decimal n⟩ ++ [32]
    else some []
  block.map fun block => inode ++ block ++ putname o p.name ++ typeText o p.stat

/-- An entry, what is printed of it, and the blanks behind. -/
structure Item where
  entry : Ftsent
  text : Text
  blanks : ℕ

abbrev Line := List Item

def Line.width (l : Line) : ℕ := (l.map fun x => x.text.length + x.blanks).sum

/-- What is printed: one entry a line, or a table, behind the total where there is to be one. -/
inductive Printed
  | single (lines : List Line)
  | table (total : Option Text) (lines : List Line)

/-- `"total %lu\n"` -/
def total (o : Options) (d : DISPLAY) : Option (Option Text) :=
  if !d.root && (o.f_longform || o.f_size) then
    (div (d.btotal + (o.blocksize - 1)) o.blocksize).map fun n =>
      some ([116, 111, 116, 97, 108, 32] ++ decimal n)
  else some none

def printable (d : DISPLAY) : List Ftsent := (d.list.filter fun x => !x.noPrint).map Listed.entry

def printscol (o : Options) (d : DISPLAY) : Option Printed :=
  ((printable d).mapM fun p => (printaname o d p).map fun t => [⟨p, t, 0⟩]).map .single

/-! ### Columns -/

def colwidth (o : Options) (d : DISPLAY) : ℕ :=
  d.maxlen + (if o.f_inode then d.s_inode + 1 else 0) + (if o.f_size then d.s_block + 1 else 0) +
    (if o.f_type || o.f_typedir then 1 else 0) + 1

/-- `compute_columns`: the number of columns and their width, or nothing when there is no room for
two. -/
def compute_columns (o : Options) (d : DISPLAY) (termwidth : ℤ) : Option (Option (ℕ × ℕ)) :=
  if termwidth = 2 ^ 31 - 1 then none
  else if termwidth + 1 < 2 * colwidth o d then some none
  else
    (div (termwidth + 1).toNat (colwidth o d)).bind fun num =>
      (div (termwidth + 1).toNat num).map fun width => some (num, width)

structure Table where
  array : Block Ftsent
  lastentries : ℤ

def Table.init : Table := ⟨[], -1⟩

/-- The loop over the columns, with `k` of them left. -/
def printRow (name : Ftsent → Option Text) (array : Block Ftsent) (numrows num width : ℕ) :
    ℕ → ℕ → Option Line
  -- there is a column
  | 0, _ => none
  | k + 1, base =>
    (fetch array base).bind fun p => (name p).bind fun t =>
      if num ≤ base + numrows ∨ k = 0 then some [⟨p, t, 0⟩]
      else (printRow name array numrows num width k (base + numrows)).map
        (⟨p, t, width - t.length⟩ :: ·)

/-- **`printcol`**; `memory` says whether there is memory for the table. -/
def printcol (o : Options) (d : DISPLAY) (termwidth : ℤ) (memory : Bool) (s : Table) :
    Option (Printed × Table) :=
  (compute_columns o d termwidth).bind fun r =>
    match r with
    | none => (printscol o d).map (·, s)
    | some (numcols, width) =>
      if s.lastentries < d.entries ∧ memory = false then (printscol o d).map (·, s)
      else
        let s := if s.lastentries < d.entries then ⟨realloc s.array d.entries, d.entries⟩ else s
        (fill s.array 0 (printable d)).bind fun array =>
          let num := (printable d).length
          (div num numcols).bind fun rows =>
            let numrows := if num % numcols = 0 then rows else rows + 1
            (total o d).bind fun total =>
              ((List.range numrows).mapM
                (printRow (printaname o d) array numrows num width numcols)).map fun lines =>
                (.table total lines, { s with array := array })

/-! ### Rows -/

/-- The loop of `printacol`, with what stands in the line. -/
def acolLoop (name : Ftsent → Option Text) (numcols width : ℕ) :
    ℕ → Line → List Ftsent → Option (List Line)
  | _, line, [] => some [line]
  | col, line, p :: l =>
    (name p).bind fun t =>
      let item (col : ℕ) : Item := ⟨p, t, if col + 1 < numcols then width - t.length else 0⟩
      if numcols ≤ col then (acolLoop name numcols width 1 [item 0] l).map (line :: ·)
      else acolLoop name numcols width (col + 1) (line ++ [item col]) l

/-- **`printacol`** -/
def printacol (o : Options) (d : DISPLAY) (termwidth : ℤ) : Option Printed :=
  (compute_columns o d termwidth).bind fun r =>
    match r with
    | none => printscol o d
    | some (numcols, width) =>
      (total o d).bind fun total =>
        (acolLoop (printaname o d) numcols width 0 [] (printable d)).map (.table total)

/-! ### What there is room for -/

theorem div_of_pos {b : ℕ} (h : 0 < b) (a : ℕ) : div a b = some (a / b) := if_neg (ne_of_gt h)

variable {termwidth : ℤ}

theorem compute_columns_spec (o : Options) (d : DISPLAY) (h : termwidth ≠ 2 ^ 31 - 1) :
    compute_columns o d termwidth = some none ∨ ∃ num width,
    compute_columns o d termwidth = some (some (num, width)) ∧
      2 ≤ num ∧ colwidth o d ≤ width ∧ ((num * width : ℕ) : ℤ) ≤ termwidth + 1 := by
  have hpos : 0 < colwidth o d := Nat.succ_pos _
  rw [compute_columns, if_neg h]
  by_cases hlt : termwidth + 1 < 2 * colwidth o d
  · exact .inl (if_pos hlt)
  · right
    obtain ⟨w, hw⟩ : ∃ w : ℕ, termwidth + 1 = w := ⟨(termwidth + 1).toNat, by omega⟩
    rw [hw] at hlt ⊢
    have htwo : 2 * colwidth o d ≤ w := by omega
    have hnum : 2 ≤ w / colwidth o d := (Nat.le_div_iff_mul_le hpos).2 htwo
    refine ⟨w / colwidth o d, w / (w / colwidth o d), ?_, hnum, ?_, ?_⟩
    · rw [if_neg hlt, Int.toNat_natCast, div_of_pos hpos, bind_some, div_of_pos (by omega)]
      rfl
    · rw [Nat.le_div_iff_mul_le (by omega), mul_comm]
      exact Nat.div_mul_le_self _ _
    · exact Int.ofNat_le.2 (Nat.mul_div_le _ _)

theorem typeText_length (o : Options) (sp : Stat) :
    (typeText o sp).length ≤ if o.f_type || o.f_typedir then 1 else 0 := by
  rw [typeText]
  by_cases h : o.f_type || o.f_typedir && sp.kind = .dir
  · have hor : (o.f_type || o.f_typedir) = true := by
      rw [Bool.or_eq_true] at h ⊢
      exact h.imp_right fun h => (Bool.and_eq_true_iff.1 h).1
    rw [if_pos h, if_pos hor, printtype]
    split <;> try exact Nat.le_refl 1
    split <;> simp
  · rw [if_neg h]
    exact Nat.zero_le _

theorem length_right {f : Field} (h : f.text.length ≤ f.width) : f.right.length = f.width := by
  rw [Field.right, length_append, length_replicate]
  omega

section
variable {o : Options} {db : Databases} {root : Bool} {list : List Ftsent} {d : DISPLAY}

theorem display_eq (h : display o db root list = some d) :
    printable d = printed o root list ∧
    d.entries = (printed o root list).length ∧ 0 < d.entries := by
  have hlist := display_list h
  rw [display] at h
  split at h
  next => exact absurd h.symm (some_ne_none d)
  next hne =>
    refine ⟨by rw [printable, hlist, scan_printed], ?_, ?_⟩
    · obtain rfl := some.inj h
      exact scan_entries o db root list
    · obtain rfl := some.inj h
      exact Nat.pos_of_ne_zero hne

theorem display_none (h : display o db root list = none) : printed o root list = [] := by
  rw [display] at h
  split at h
  next hzero => exact eq_nil_of_length_eq_zero ((scan_entries o db root list).symm.trans hzero)
  next => exact absurd h (some_ne_none _)

/-- **An entry fits** in a column, with a blank behind. -/
theorem printaname_spec (h : display o db root list = some d) {p : Ftsent} (hp : p ∈ printable d) :
    ∃ t, printaname o d p = some t ∧ t.length < colwidth o d := by
  obtain ⟨x, hx, rfl⟩ := mem_map.1 hp
  rw [display_list h] at hx
  obtain ⟨hmem, hno⟩ := mem_filter.1 hx
  have hheld := scan_fits o db root list x hmem (by simpa using hno)
  have hd : d.s_inode = digits (scan o db root list).maxinode ∧
    d.s_block = digits (scan o db root list).maxblock ∧
      d.maxlen = (scan o db root list).maxlen := by
    rw [display] at h
    split at h
    · exact absurd h.symm (some_ne_none d)
    · obtain rfl := some.inj h
      exact ⟨rfl, rfl, rfl⟩
  have hname : (putname o x.entry.name).length ≤ d.maxlen := by
    rw [putname, length_map, hd.2.2]
    exact hheld.name
  have htype := typeText_length o x.entry.stat
  have hinode :
      (if o.f_inode then Field.right ⟨d.s_inode, decimal x.entry.stat.ino⟩ ++ [32] else []).length =
      if o.f_inode then d.s_inode + 1 else 0 := by
    split
    next hi =>
      have hfit := length_decimal_mono (hheld.stats (by simp [Options.needstats, hi])).1
      rw [length_append, length_right (hd.1 ▸ hfit)]
      rfl
    next => rfl
  obtain ⟨b, hb, hblock⟩ : ∃ b, (if o.f_size then
      (div (x.entry.stat.blocks + (o.blocksize - 1)) o.blocksize).map fun n =>
        Field.right ⟨d.s_block, decimal n⟩ ++ [32]
      else some []) = some b ∧ b.length = if o.f_size then d.s_block + 1 else 0 := by
    split
    next hs =>
      have hfit : (decimal (howmany x.entry.stat.blocks o.blocksize)).length ≤ d.s_block := hd.2.1 ▸
        length_decimal_mono
          ((howmany_le _ _).trans (hheld.stats (by simp [Options.needstats, hs])).2.1)
      rw [div_of_pos (by simp [Options.blocksize, hs])]
      refine ⟨_, rfl, ?_⟩
      rw [length_append]
      exact congrArg (· + 1)
        (length_right (f := ⟨d.s_block, decimal (howmany x.entry.stat.blocks o.blocksize)⟩) hfit)
    next => exact ⟨[], rfl, rfl⟩
  refine ⟨_, by rw [printaname, hb]; rfl, ?_⟩
  rw [length_append, length_append, length_append, hinode, hblock, colwidth]
  omega

theorem total_spec (o : Options) (d : DISPLAY) : ∃ t, total o d = some t := by
  rw [total]
  split
  next h =>
    have hpos : 0 < o.blocksize := by
      rw [Options.blocksize, if_pos (Bool.and_eq_true_iff.1 h).2]
      exact Nat.two_pos
    rw [div_of_pos hpos]
    exact ⟨_, rfl⟩
  next => exact ⟨_, rfl⟩

end

/-! ### The rows -/

theorem mapM_forall₂ {α β : Type*} {f : α → Option β} {P : α → β → Prop} (l : List α)
    (h : ∀ a ∈ l, ∃ b, f a = some b ∧ P a b) : ∃ bs, l.mapM f = some bs ∧ List.Forall₂ P l bs := by
  induction l with
  | nil => exact ⟨[], rfl, .nil⟩
  | cons a l ih =>
    rw [forall_mem_cons] at h
    obtain ⟨b, hb, hab⟩ := h.1
    obtain ⟨bs, hbs, hall⟩ := ih h.2
    exact ⟨b :: bs, by rw [mapM_cons, hb, hbs]; rfl, .cons hab hall⟩

theorem map_eq_of_forall₂ {α β γ : Type*} {f : α → γ} {g : β → γ} {l : List α} {l' : List β}
    (h : List.Forall₂ (fun a b => g b = f a) l l') : l'.map g = l.map f := by
  induction h with
  | nil => rfl
  | cons hab _ ih => exact congrArg₂ List.cons hab ih

theorem mem_of_forall₂ {α β : Type*} {P : α → β → Prop} {l : List α} {l' : List β}
    (h : List.Forall₂ P l l') {b : β} (hb : b ∈ l') : ∃ a ∈ l, P a b := by
  induction h with
  | nil => exact absurd hb not_mem_nil
  | cons hab _ ih =>
    rcases mem_cons.1 hb with rfl | hb
    · exact ⟨_, mem_cons_self, hab⟩
    · exact (ih hb).imp fun a ha => ⟨mem_cons_of_mem _ ha.1, ha.2⟩

theorem width_cons (x : Item) (l : Line) :
    Line.width (x :: l) = x.text.length + x.blanks + l.width := sum_cons

theorem width_append (l : Line) (x : Item) :
    Line.width (l ++ [x]) = l.width + (x.text.length + x.blanks) := by
  rw [Line.width, Line.width, map_append, sum_append]
  exact congrArg _ (add_zero _)

section
variable {name : Ftsent → Option Text} {l : List Ftsent} {width numcols : ℕ}
  (hname : ∀ p ∈ l, ∃ t, name p = some t ∧ t.length < width)
include hname

/-- **A row of `printcol`**: the entries that stand `numrows` apart. -/
theorem printRow_eq {array : Block Ftsent} (hin : ∀ i < l.length, fetch array i = l[i]?)
    (numrows : ℕ) {k base : ℕ}
    (hk : 0 < k) (hbase : base < l.length) :
    ∃ line, printRow name array numrows l.length width k base = some line ∧
      (∀ col, (line.map Item.entry)[col]? = if col < k then l[base + col * numrows]? else none) ∧
      line.length ≤ k ∧ line.width + 1 ≤ k * width := by
  induction k generalizing base with
  | zero => exact absurd hk (Nat.lt_irrefl 0)
  | succ k ih =>
    obtain ⟨t, ht, hlen⟩ := hname l[base] (getElem_mem hbase)
    have hfetch : fetch array base = some l[base] :=
      (hin base hbase).trans (getElem?_eq_getElem hbase)
    rw [printRow, hfetch, bind_some, ht, bind_some]
    have hone : width ≤ (k + 1) * width := Nat.le_mul_of_pos_left _ hk
    split
    next hend =>
      refine ⟨_, rfl, fun col => ?_, Nat.succ_le_succ (Nat.zero_le k), ?_⟩
      · rcases col with - | col
        · rw [if_pos hk, Nat.zero_mul, Nat.add_zero, getElem?_eq_getElem hbase]
          rfl
        · have hout :
              (if col + 1 < k + 1 then l[base + (col + 1) * numrows]? else none) = none := by
            split
            next hlt =>
              refine getElem?_eq_none ?_
              rw [Nat.succ_mul]
              omega
            next => rfl
          rw [hout]
          rfl
      · rw [width_cons]
        exact Nat.le_trans (by simp [Line.width]; omega) hone
    next hend =>
      rw [not_or] at hend
      obtain ⟨line, hline, hcols, hlength, hwidth⟩ :=
        @ih (base + numrows) (Nat.pos_of_ne_zero hend.2) (by omega)
      rw [hline]
      refine ⟨_, rfl, fun col => ?_, Nat.succ_le_succ hlength, ?_⟩
      · rcases col with - | col
        · rw [if_pos hk, Nat.zero_mul, Nat.add_zero, getElem?_eq_getElem hbase]
          rfl
        · rw [map_cons, getElem?_cons_succ, hcols, Nat.succ_mul, Nat.add_assoc base numrows,
            Nat.add_comm numrows]
          exact if_congr Nat.succ_lt_succ_iff.symm rfl rfl
      · rw [width_cons, Nat.succ_mul]
        dsimp only
        omega

/-- **The rows of `printacol`**: the line is full only if it has no blanks at its end. -/
theorem acolLoop_eq (hcols : 0 < numcols) {line : Line} (hlen : line.length ≤ numcols)
    (hwidth : line.width + (if line.length = numcols then 1 else 0) ≤ line.length * width) :
    ∃ lines, acolLoop name numcols width line.length line l = some lines ∧
      lines.flatten.map Item.entry = line.map Item.entry ++ l ∧
      ∀ r ∈ lines,
      r.length ≤ numcols ∧ r.width + (if r.length = numcols then 1 else 0) ≤ r.length * width := by
  induction l generalizing line with
  | nil =>
    refine ⟨[line], rfl, by simp, fun r hr => ?_⟩
    rw [mem_singleton.1 hr]
    exact ⟨hlen, hwidth⟩
  | cons p l ih =>
    rw [forall_mem_cons] at hname
    obtain ⟨⟨t, ht, htlen⟩, hrest⟩ := hname
    rw [acolLoop, ht, bind_some]
    -- an item with its blanks
    have hitem : ∀ {before : Line}, before.length < numcols → before.width ≤ before.length * width →
        (before ++
          [⟨p, t, if before.length + 1 < numcols then width - t.length else 0⟩] : Line).width +
          (if before.length + 1 = numcols then 1 else 0) ≤ (before.length + 1) * width := by
      intro before hb hw
      rw [width_append, Nat.succ_mul]
      dsimp only
      split <;> split <;> omega
    split
    next hfull =>
      obtain ⟨lines, hlines, hflat, hall⟩ :=
        @ih hrest [⟨p, t, if 0 + 1 < numcols then width - t.length else 0⟩]
        hcols (@hitem [] hcols (Nat.zero_le _))
      refine ⟨line :: lines, congrArg (Option.map _) hlines, ?_,
        forall_mem_cons.2 ⟨⟨hlen, hwidth⟩, hall⟩⟩
      rw [flatten_cons, map_append, hflat]
      rfl
    next hfull =>
      have hlt : line.length < numcols := Nat.lt_of_not_le hfull
      rw [if_neg (Nat.ne_of_lt hlt), Nat.add_zero] at hwidth
      obtain ⟨lines, hlines, hflat, hall⟩ :=
        @ih hrest (line ++ [⟨p, t, if line.length + 1 < numcols then width - t.length else 0⟩])
          (by rw [length_append]; exact hlt) (by rw [length_append]; exact hitem hlt hwidth)
      rw [length_append] at hlines
      refine ⟨lines, hlines, ?_, hall⟩
      rw [hflat, map_append, append_assoc]
      rfl

end

/-! ### What is printed -/

/-- Each of the entries stands once in its place, and the rows of a table fit. -/
def Right (across : Bool) (ps : List Ftsent) (termwidth : ℤ) : Printed → Prop
  | .single lines => lines.map (·.map Item.entry) = ps.map ([·])
  | .table _ lines =>
    (if across then lines.flatten.map Item.entry = ps
      else ∃ n, columns n (lines.map (·.map Item.entry)) = ps ∧ ∀ r ∈ lines, r.length ≤ n) ∧
    ∀ r ∈ lines, (r.width : ℤ) ≤ termwidth

structure Sound (s : Table) : Prop where
  length : (s.array.length : ℤ) = max s.lastentries 0
  least : -1 ≤ s.lastentries

theorem sound_init : Sound .init := ⟨rfl, Int.le_refl _⟩

section
variable {o : Options} {db : Databases} {root : Bool} {list : List Ftsent} {d : DISPLAY}

theorem printscol_right (h : display o db root list = some d) (across : Bool) (termwidth : ℤ) :
    ∃ p, printscol o d = some p ∧ Right across (printable d) termwidth p := by
  obtain ⟨lines, hlines, hall⟩ :=
    mapM_forall₂ (f := fun p => (printaname o d p).map fun t => [(⟨p, t, 0⟩ : Item)])
    (P := fun p (line : Line) => line.map Item.entry = [p]) (printable d) fun p hp => by
      obtain ⟨t, ht, -⟩ := printaname_spec h hp
      exact ⟨_, by rw [ht]; rfl, rfl⟩
  exact ⟨.single lines, by rw [printscol, hlines]; rfl, map_eq_of_forall₂ hall⟩

theorem printacol_right (h : display o db root list = some d) (hw : termwidth ≠ 2 ^ 31 - 1) :
    ∃ p, printacol o d termwidth = some p ∧ Right true (printable d) termwidth p := by
  rw [printacol]
  rcases compute_columns_spec o d hw with hc | ⟨num, width, hc, hnum, hcol, hle⟩
  · rw [hc]
    exact printscol_right h true termwidth
  · rw [hc, bind_some]
    dsimp only
    obtain ⟨t, ht⟩ := total_spec o d
    obtain ⟨lines, hlines, hflat, hall⟩ := @acolLoop_eq (printaname o d) (printable d) width num
      (fun p hp => (printaname_spec h hp).imp fun _ ht => ⟨ht.1, Nat.lt_of_lt_of_le ht.2 hcol⟩)
      (by omega) [] (Nat.zero_le _) (by rw [if_neg (by simp; omega)]; exact Nat.zero_le _)
    have hlines : acolLoop (printaname o d) num width 0 [] (printable d) = some lines := hlines
    rw [ht, bind_some, hlines]
    refine ⟨_, rfl, ?_, fun r hr => ?_⟩
    · rw [if_pos rfl]
      exact hflat
    · obtain ⟨hlen, hwidth⟩ := hall r hr
      have hpos : 0 < width := Nat.lt_of_lt_of_le (Nat.succ_pos _) hcol
      have hfin : r.width + 1 ≤ num * width := by
        split at hwidth
        next heq => exact heq ▸ hwidth
        next hne =>
          have hlt := Nat.mul_le_mul_right width (Nat.succ_le_of_lt (Nat.lt_of_le_of_ne hlen hne))
          rw [Nat.succ_mul] at hlt
          omega
      omega

/-- **`printcol`**, from a table that is as long as it is said to be. -/
theorem printcol_right (h : display o db root list = some d) (hw : termwidth ≠ 2 ^ 31 - 1)
    (memory : Bool) {s : Table} (hs : Sound s) :
    ∃ p s', printcol o d termwidth memory s = some (p, s') ∧ Sound s' ∧
      Right false (printable d) termwidth p := by
  obtain ⟨hprinted, hentries, hpos⟩ := display_eq h
  obtain ⟨single, hsingle, hright⟩ := printscol_right h false termwidth
  rw [printcol]
  rcases compute_columns_spec o d hw with hc | ⟨num, width, hc, hnum, hcol, hle⟩
  · rw [hc, bind_some, hsingle]
    exact ⟨single, s, rfl, hs, hright⟩
  · rw [hc, bind_some]
    dsimp only
    by_cases hmem : s.lastentries < d.entries ∧ memory = false
    · rw [if_pos hmem, hsingle]
      exact ⟨single, s, rfl, hs, hright⟩
    · rw [if_neg hmem]
      -- the table, with room for the entries
      obtain ⟨s₁, hs₁, hsound, hroom⟩ : ∃ s₁ : Table, (if s.lastentries < d.entries then
          ⟨realloc s.array d.entries, d.entries⟩ else s) = s₁ ∧ Sound s₁ ∧
          d.entries ≤ s₁.array.length := by
        refine ⟨_, rfl, ?_⟩
        split
        next hlt =>
          have hlen : (realloc s.array d.entries).length = d.entries := length_realloc _ _
          exact ⟨⟨by rw [hlen]; exact (max_eq_left (Int.natCast_nonneg _)).symm,
            by dsimp only; omega⟩, Nat.le_of_eq hlen.symm⟩
        next hlt =>
          have := hs.length
          exact ⟨hs, by omega⟩
      have hlen : (printable d).length = d.entries := by rw [hprinted, hentries]
      have hfill := fill_eq (b := s₁.array) (i := 0) (Nat.zero_le _) (printable d)
      rw [if_pos (by omega), take_zero, nil_append, Nat.zero_add] at hfill
      obtain ⟨t, ht⟩ := total_spec o d
      rw [hs₁, hfill, bind_some, div_of_pos (by omega), bind_some, ht, bind_some]
      have hfetch : ∀ i < (printable d).length,
          fetch ((printable d).map some ++ s₁.array.drop (printable d).length) i =
          (printable d)[i]? := by
        intro i hi
        rw [fetch, getElem?_append_left (by rw [length_map]; exact hi), ← fetch, fetch_map_some]
      -- so many rows that all entries have a place
      obtain ⟨numrows, hrows, hrpos, hall, hless⟩ :
        ∃ numrows, (if (printable d).length % num = 0 then
          (printable d).length / num else (printable d).length / num + 1) = numrows ∧ 0 < numrows ∧
          (printable d).length ≤ num * numrows ∧ numrows ≤ (printable d).length := by
        refine ⟨_, rfl, ?_⟩
        have hdm := Nat.div_add_mod (printable d).length num
        have hmod := Nat.mod_lt (printable d).length (show num > 0 by omega)
        have hdiv := Nat.div_le_self (printable d).length num
        split
        next hzero =>
          have hdpos : 0 < (printable d).length / num := by
            rcases Nat.eq_zero_or_pos ((printable d).length / num) with h0 | h0
            · rw [h0, Nat.mul_zero] at hdm
              omega
            · exact h0
          exact ⟨hdpos, by omega, hdiv⟩
        next hne =>
          have hmul : (printable d).length / num * 2 ≤ num * ((printable d).length / num) := by
            rw [Nat.mul_comm]
            exact Nat.mul_le_mul_right _ hnum
          exact ⟨Nat.succ_pos _, by rw [Nat.mul_succ]; omega, by omega⟩
      rw [hrows]
      have hname : ∀ p ∈ printable d, ∃ t, printaname o d p = some t ∧ t.length < width :=
        fun p hp =>
        (printaname_spec h hp).imp fun _ ht => ⟨ht.1, Nat.lt_of_lt_of_le ht.2 hcol⟩
      obtain ⟨lines, hlines, hforall⟩ := mapM_forall₂ (f := printRow (printaname o d)
          ((printable d).map some ++ s₁.array.drop (printable d).length) numrows
          (printable d).length width num)
        (P := fun row line => (∀ col, (line.map Item.entry)[col]? =
          if col < num then (printable d)[row + col * numrows]? else none) ∧ line.length ≤ num ∧
          line.width + 1 ≤ num * width)
        (List.range numrows) fun row hrow =>
          printRow_eq hname hfetch numrows (by omega) (Nat.lt_of_lt_of_le (mem_range.1 hrow) hless)
      rw [hlines]
      refine ⟨.table t lines, { s₁ with array := _ }, rfl, ⟨?_, hsound.least⟩, ?_, fun r hr => ?_⟩
      · rw [length_append, length_map, length_drop, Nat.add_sub_cancel' (by omega)]
        exact hsound.length
      · rw [if_neg Bool.false_ne_true]
        have hcount : (lines.map (·.map Item.entry)).length = numrows := by
          rw [length_map, ← hforall.length_eq, length_range]
        refine ⟨num, columns_eq (by rw [hcount]; exact hall) fun row hr col => ?_, fun r hr => ?_⟩
        · rw [hcount] at hr ⊢
          have hline := (List.forall₂_iff_get.1 hforall).2 row (by rw [length_range]; exact hr)
            (by rw [← hforall.length_eq, length_range]; exact hr)
          rw [get_eq_getElem, get_eq_getElem, getElem_range] at hline
          rw [getElem_map, hline.1 col, Nat.add_comm row]
          split
          next => rfl
          next hcol =>
            -- there is nothing behind the last column
            have := Nat.mul_le_mul_right numrows (Nat.le_of_not_lt hcol)
            exact (getElem?_eq_none (by omega)).symm
        · obtain ⟨row, -, hline⟩ := mem_of_forall₂ hforall hr
          exact hline.2.1
      · obtain ⟨row, -, hline⟩ := mem_of_forall₂ hforall hr
        omega

end

/-! ### Calls -/

/-- A call, with the flags, the databases and the entries that it has. -/
structure Call where
  o : Options
  db : Databases
  root : Bool
  list : List Ftsent
  termwidth : ℤ
  memory : Bool
  across : Bool

def Call.run (c : Call) (s : Table) : Option (Option Printed × Table) :=
  match display c.o c.db c.root c.list with
  | none => some (none, s)
  | some d =>
    if c.across then (printacol c.o d c.termwidth).map fun p => (some p, s)
    else (printcol c.o d c.termwidth c.memory s).map fun r => (some r.1, r.2)

def calls : Table → List Call → Option (List (Option Printed) × Table)
  | s, [] => some ([], s)
  | s, c :: l => (c.run s).bind fun r => (calls r.2 l).map fun t => (r.1 :: t.1, t.2)

def Call.Right (c : Call) : Option Printed → Prop
  | none => printed c.o c.root c.list = []
  | some p => Columns.Right c.across (printed c.o c.root c.list) c.termwidth p

theorem print_right {c : Call} (hw : c.termwidth ≠ 2 ^ 31 - 1) {s : Table} (hs : Sound s) :
    ∃ p s', c.run s = some (p, s') ∧ Sound s' ∧ c.Right p := by
  rw [Call.run]
  cases hd : display c.o c.db c.root c.list with
  | none => exact ⟨none, s, rfl, hs, display_none hd⟩
  | some d =>
    have hright : ∀ p, Columns.Right c.across (printable d) c.termwidth p → c.Right (some p) :=
      fun p hp => by
      rw [(display_eq hd).1] at hp
      exact hp
    dsimp only
    split
    next hacross =>
      obtain ⟨p, hp, hp'⟩ := printacol_right hd hw
      rw [hp]
      exact ⟨some p, s, rfl, hs, hright p (hacross ▸ hp')⟩
    next hacross =>
      obtain ⟨p, s', hp, hs', hp'⟩ := printcol_right hd hw c.memory hs
      rw [hp]
      exact ⟨some p, s', rfl, hs', hright p (Bool.eq_false_of_not_eq_true hacross ▸ hp')⟩

/-- **Every call prints what it has.** -/
theorem columns_right (l : List Call) (hw : ∀ c ∈ l, c.termwidth ≠ 2 ^ 31 - 1) :
    ∃ ps s, calls .init l = some (ps, s) ∧ Sound s ∧ List.Forall₂ Call.Right l ps := by
  generalize hs : Table.init = s₀
  have hsound : Sound s₀ := hs ▸ sound_init
  clear hs
  induction l generalizing s₀ with
  | nil => exact ⟨[], s₀, rfl, hsound, .nil⟩
  | cons c l ih =>
    rw [forall_mem_cons] at hw
    obtain ⟨p, s₁, hp, hs₁, hright⟩ := print_right hw.1 hsound
    obtain ⟨ps, s₂, hps, hs₂, hall⟩ := ih hw.2 s₁ hs₁
    exact ⟨p :: ps, s₂, by rw [calls, hp, bind_some, hps]; rfl, hs₂, .cons hright hall⟩

/-! ### Three files -/

/-- `ls -s` in a directory of three files. -/
def three : Call where
  o := ⟨false, false, true, false, false, false, false, false, false, false⟩
  db := ⟨⟨fun _ => none, fun _ => []⟩, ⟨fun _ => none, fun _ => []⟩⟩
  root := false
  list := [file 97 0, file 98 0, file 99 0]
  termwidth := 7
  memory := true
  across := false

theorem columns_right_three : ∃ ps s, calls .init [three, three] = some (ps, s) ∧ Sound s ∧
    List.Forall₂ Call.Right [three, three] ps :=
  columns_right [three, three] (by decide)

def Narrow (termwidth : ℤ) : Printed → Prop
  | .single _ => True
  | .table total lines => (∀ t ∈ total, (t.length : ℤ) ≤ termwidth) ∧ ∀ r ∈ lines,
    (r.width : ℤ) ≤ termwidth

/-- The total is wider. -/
theorem not_narrow_total : ¬ ∀ c : Call, c.termwidth ≠ 2 ^ 31 - 1 →
    ∃ p s, c.run .init = some (p, s) ∧ ∀ x ∈ p, Narrow c.termwidth x := by
  intro h
  obtain ⟨p, s, hp, hall⟩ := h three (by decide)
  obtain ⟨rfl, -⟩ := Prod.mk.inj (some.inj hp)
  exact absurd ((hall _ rfl).1 _ rfl) (by decide)

end Inetutils.Libls.Columns
