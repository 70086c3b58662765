import Inetutils.Lib.Paths
import Inetutils.Tftp.Proto

/-! # The files `tftpd` opens

`validate_access` of `src/tftpd.c` with the list of directories `main` makes. The file system is a
parameter. Tests on the text of the name stand for its resolution: `"/../"` is nowhere in it, a
relative name does not begin with `"../"`, and a regular file is not named by a last component `"."`
or `".."`; so what is opened is inside one of the directories (`validate_access_inside`). -/

namespace Inetutils.Tftp.Access

open Lib.Paths Proto List

abbrev Name := List Byte

abbrev slash : Byte := 47
abbrev dot : Byte := 46

/-! ### The directories -/

abbrev MAXDIRS : ℕ := 20

/-- An entry of `dirs`; `len` is always the length of the name. -/
structure Dirlist where
  name : Name
  absolute : name.head? = some slash

def Dirlist.len (dirp : Dirlist) : ℕ := dirp.name.length

/-! ### The file system -/

abbrev S_IFMT : UInt32 := 0o170000
abbrev S_IFREG : UInt32 := 0o100000
abbrev S_IROTH : UInt32 := 0o4
abbrev S_IWOTH : UInt32 := 0o2

abbrev ENOENT : ℕ := 2
abbrev ENOMEM : ℕ := 12

/-- The second argument of `open`. -/
inductive Flags
  | rdonly
  | wronlyTrunc
  deriving DecidableEq

/-- What the system answers: the mode or `errno` of `stat`, whether there is memory, and `errno`
where `open` or `fdopen` fail. -/
structure System where
  stat : Name → Except ℕ UInt32
  malloc : ℕ → Bool
  openFile : Name → Flags → Except ℕ Unit
  fdopen : Except ℕ Unit

def isReg (mode : UInt32) : Bool := mode &&& S_IFMT == S_IFREG

/-! ### `validate_access` -/

/-- Refused before `open`, or what was opened and how, with the code returned. -/
inductive Outcome
  | refused (ecode : ℕ)
  | opened (filename : Name) (flags : Flags) (ecode : ℕ)
  deriving DecidableEq

/-- `open`, `fdopen` and the code for it. -/
def openIt (sys : System) (filename : Name) (mode : ℕ) : Outcome :=
  let flags := if mode = RRQ then Flags.rdonly else Flags.wronlyTrunc
  .opened filename flags
    (match sys.openFile filename flags with
    | .error errno => errno + 100
    | .ok () =>
      match sys.fdopen with
      | .error errno => errno + 100
      | .ok () => 0)

/-- Whether the loop over the directories stops at `dirp` for an absolute name. -/
def approved (filename : Name) (dirp : Dirlist) : Bool :=
  dirp.len == 1 || decide (dirp.name <+: filename) && filename[dirp.len]? == some slash

def closed (stMode : UInt32) (mode : ℕ) : Bool :=
  if mode = RRQ then stMode &&& S_IROTH == 0 else stMode &&& S_IWOTH == 0

def validateAbsolute (sys : System) (dirs : List Dirlist) (filename : Name) (mode : ℕ) : Outcome :=
  if !dirs.any (approved filename) && !dirs.isEmpty then .refused EACCESS
  else
    match sys.stat filename with
    | .error errno => .refused (if errno = ENOENT then ENOTFOUND else EACCESS)
    | .ok stMode =>
      if !isReg stMode then .refused ENOTFOUND
      else if closed stMode mode then .refused EACCESS
      else openIt sys filename mode

/-- The loop over the directories for a relative name, `err` as it stands. -/
def search (sys : System) (filename : Name) (mode err : ℕ) : List Dirlist → Outcome
  | [] => .refused err
  | dirp :: dirs =>
    if !sys.malloc (dirp.name.length + 1 + filename.length + 1) then .refused ENOMEM
    else
      let pathname := dirp.name ++ slash :: filename
      match sys.stat pathname with
      | .error _ => search sys filename mode err dirs
      | .ok stMode =>
        if !isReg stMode then search sys filename mode err dirs
        else if stMode &&& S_IROTH = 0 then search sys filename mode EACCESS dirs
        else openIt sys pathname mode

def validateAccess (sys : System) (dirs : List Dirlist) (filename : Name) (mode : ℕ) : Outcome :=
  if [slash, dot, dot, slash] <:+: filename then .refused EACCESS
  else if filename.head? = some slash then validateAbsolute sys dirs filename mode
  else if mode ≠ RRQ ∨ [dot, dot, slash] <+: filename then .refused EACCESS
  else search sys filename mode ENOTFOUND dirs

/-! ### What was opened -/

variable {sys : System} {filename path : Name} {ecode : ℕ} {flags : Flags} {dirs : List Dirlist}
  {dirp : Dirlist}

theorem openIt_eq {mode : ℕ} (h : openIt sys filename mode = .opened path flags ecode) :
    path = filename ∧ (mode = RRQ → flags = .rdonly) := by
  obtain ⟨rfl, rfl, -⟩ := h
  exact ⟨rfl, fun h => if_pos h⟩

/-- What `stat` says of the path that is opened. -/
def Regular (sys : System) (path : Name) : Prop :=
  ∃ stMode, sys.stat path = .ok stMode ∧ isReg stMode

theorem validateAbsolute_opened {mode : ℕ} (hdirs : dirs ≠ [])
    (h : validateAbsolute sys dirs filename mode = .opened path flags ecode) :
    path = filename ∧ Regular sys filename ∧ ∃ dirp ∈ dirs, approved filename dirp := by
  unfold validateAbsolute at h
  split at h
  · exact nomatch h
  rename_i hany
  split at h
  · exact nomatch h
  · rename_i stMode hstat
    split at h
    · exact nomatch h
    · rename_i hreg
      split at h
      · exact nomatch h
      · exact ⟨(openIt_eq h).1, ⟨stMode, hstat, by simpa using hreg⟩, by simpa [hdirs] using hany⟩

theorem search_opened {mode err : ℕ}
    (h : search sys filename mode err dirs = .opened path flags ecode) :
    Regular sys path ∧ (mode = RRQ → flags = .rdonly) ∧
      ∃ dirp ∈ dirs, path = dirp.name ++ slash :: filename := by
  induction dirs generalizing err with
  | nil => exact nomatch h
  | cons dirp dirs ih =>
    have hrest {err : ℕ} (h : search sys filename mode err dirs = .opened path flags ecode) :
        Regular sys path ∧ (mode = RRQ → flags = .rdonly) ∧
          ∃ d ∈ dirp :: dirs, path = d.name ++ slash :: filename := by
      obtain ⟨hreg, hflags, d, hd, hp⟩ := ih h
      exact ⟨hreg, hflags, d, mem_cons_of_mem _ hd, hp⟩
    unfold search at h
    split_ifs at h
    dsimp only at h
    split at h
    · exact hrest h
    · rename_i stMode hstat
      split_ifs at h with hreg
      · exact hrest h
      · exact hrest h
      · obtain ⟨rfl, hflags⟩ := openIt_eq h
        exact ⟨⟨stMode, hstat, by simpa using hreg⟩, hflags, dirp, mem_cons_self, rfl⟩

/-! ### Inside one of the directories -/

theorem inside_root (h : dirp.len = 1) (path : Name) : Inside slash dot dirp.name path := by
  obtain ⟨a, ha⟩ := length_eq_one_iff.1 h
  have hs := dirp.absolute
  rw [ha, head?_cons, Option.some_inj] at hs
  have hroot : resolve slash dot dirp.name = [] := by rw [ha, hs]; rfl
  rw [Inside, hroot]
  exact List.nil_prefix

/-- A name with no `"/../"` and another last component than `".."` stays below any prefix of it that
a slash ends, if what follows does not begin with `"../"`. -/
theorem inside_of_text {d q : Name} (hmid : ¬ [slash, dot, dot, slash] <:+: q)
    (hfront : ¬ [dot, dot, slash] <+: q) (hlast : basename slash q ≠ [dot, dot]) :
    Inside slash dot d (d ++ slash :: q) := by
  refine inside_append_sep fun hmem => ?_
  rcases mem_splitOn hmem with h | h | h
  · exact hlast h
  · exact hfront h
  · exact hmid h

theorem inside_of_approved (h : approved filename dirp)
    (hmid : ¬ [slash, dot, dot, slash] <:+: filename)
    (hlast : basename slash filename ≠ [dot, dot]) :
    Inside slash dot dirp.name filename := by
  simp only [approved, Bool.or_eq_true, Bool.and_eq_true, beq_iff_eq, decide_eq_true_eq] at h
  rcases h with h | ⟨⟨rest, rfl⟩, hnext⟩
  · exact inside_root h _
  · rw [Dirlist.len, getElem?_append_right le_rfl, Nat.sub_self, ← head?_eq_getElem?] at hnext
    obtain ⟨q, rfl⟩ := head?_eq_some_iff.1 hnext
    rw [basename_append_sep] at hlast
    refine inside_of_text (fun hq => hmid (hq.trans ⟨dirp.name ++ [slash], [], by simp⟩)) ?_ hlast
    rintro ⟨t, rfl⟩
    exact hmid ⟨dirp.name, t, by simp⟩

/-- **Nothing outside the directories is opened, and a relative name is not written.** -/
theorem validate_access_inside (sys : System) (dirs : List Dirlist) (filename : Name) (mode : ℕ)
    (hdirs : dirs ≠ [])
    (hstat : ∀ path, Regular sys path → basename slash path ≠ [dot] ∧
      basename slash path ≠ [dot, dot])
    {path : Name} {flags : Flags} {ecode : ℕ}
    (h : validateAccess sys dirs filename mode = .opened path flags ecode) :
    (∃ dirp ∈ dirs, Inside slash dot dirp.name path) ∧
      (filename.head? ≠ some slash → flags = .rdonly) := by
  unfold validateAccess at h
  split_ifs at h with hmid habs hrel
  · obtain ⟨rfl, hreg, dirp, hdirp, happ⟩ := validateAbsolute_opened hdirs h
    exact ⟨⟨dirp, hdirp, inside_of_approved happ hmid (hstat _ hreg).2⟩, fun hne => absurd habs hne⟩
  · obtain ⟨hmode, hfront⟩ := not_or.1 hrel
    obtain ⟨hreg, hflags, dirp, hdirp, rfl⟩ := search_opened h
    have hlast := (hstat _ hreg).2
    rw [basename_append_sep] at hlast
    exact ⟨⟨dirp, hdirp, inside_of_text hmid hfront hlast⟩, fun _ => hflags (not_not.1 hmode)⟩

/-- With the directory `"/t"`, where `"/t/f"` is the only file and anyone can read it. -/
theorem validate_access_inside_file :
    (∃ dirp ∈ [(⟨[slash, 116], rfl⟩ : Dirlist)],
      Inside slash dot dirp.name [slash, 116, slash, 102]) ∧
      ([102].head? ≠ some slash → Flags.rdonly = .rdonly) := by
  let sys : System := {
    stat := fun path => if path = [slash, 116, slash, 102] then .ok 0o100644 else .error ENOENT
    malloc := fun _ => true
    openFile := fun _ _ => .ok ()
    fdopen := .ok () }
  have hopened : validateAccess sys [⟨[slash, 116], rfl⟩] [102] RRQ =
      .opened [slash, 116, slash, 102] .rdonly 0 := by decide
  refine validate_access_inside sys [⟨[slash, 116], rfl⟩] [102] RRQ (by decide) ?_ hopened
  rintro path ⟨stMode, hstat, -⟩
  by_cases hp : path = [slash, 116, slash, 102]
  · rw [hp]
    decide
  · rw [show sys.stat path = .error ENOENT from if_neg hp] at hstat
    exact nomatch hstat

end Inetutils.Tftp.Access
