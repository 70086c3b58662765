import Inetutils.Rcp.Tree

/-! # When a tree is copied faithfully

Whatever is sent to it, `sink` makes no file of 2^31 bytes, no name with a newline and no time
before 1970 (`Tame`). So a tree is copied faithfully, in any order of steps, just when it can be
sent (`Sent`) and each copy gets the mode and the times that it is to have. -/

namespace Inetutils.Rcp.Fidelity

open Lib.Blocks Lib.Decimal Lib.Exchange Lib.Mealy Lib.Pieces List Option
open Files Records Sink Rcp.Tree

/-! ### What `sink` makes of any stream -/

def Within (targ : Path) (p : Path) : Prop := ∃ w, p = targ ++ w ∧ 10 ∉ w

def Small : Node → Prop
  | .file _ data mtime atime => data.length < 2 ^ 31 ∧ 0 ≤ mtime.sec ∧ 0 ≤ atime.sec
  | .dir _ mtime atime => 0 ≤ mtime.sec ∧ 0 ≤ atime.sec

/-- What was not there in `D` is small, and has no newline in what follows `targ`. -/
def Tame (targ : Path) (D D' : Disk) : Prop :=
  ∀ p n, D.nodes p = none → D'.nodes p = some n → Small n ∧ Within targ p

def Fits (D : Disk) : Act → Prop
  | .write _ data => D.offset + data.length < 2 ^ 31
  | .ftruncate _ size => size < 2 ^ 31
  | _ => True

section
variable {H : Host} {F : Flags} {D D' : Disk} {targ np : Path} {n : Node}

theorem Tame.set (h : Tame targ D D') {p : Path} (hn : D.nodes p = none → Small n ∧ Within targ p) :
    Tame targ D (D'.set p n) := by
  intro q m hq hm
  unfold Disk.set at hm
  dsimp only at hm
  split_ifs at hm with heq
  · subst heq
    exact some.inj hm ▸ hn hq
  · exact h q m hq hm

theorem small_touched (hn : Small n) : Small (H.touched n) := by
  have hnow : 0 ≤ H.now.sec := Int.natCast_nonneg _
  cases n with
  | file mode data mtime atime => exact ⟨hn.1, hnow, hn.2.2⟩
  | dir mode mtime atime => exact ⟨hnow, hn.2⟩

theorem Tame.touch (h : Tame targ D D') (p : Path) : Tame targ D (D'.touch H p) := by
  intro q m hq hm
  unfold Disk.touch at hm
  dsimp only at hm
  split_ifs at hm with heq
  · obtain ⟨m', hm', rfl⟩ := map_eq_some_iff.1 hm
    exact ⟨small_touched (h q m' hq hm').1, (h q m' hq hm').2⟩
  · exact h q m hq hm

theorem length_overwrite (old data : Text) (offset : ℕ) (ho : old.length < 2 ^ 31)
    (hd : offset + data.length < 2 ^ 31) : (overwrite old offset data).length < 2 ^ 31 := by
  unfold overwrite
  rw [length_append, length_append, length_take, length_drop]
  omega

theorem length_resize (old : Text) (size : ℕ) : (resize old size).length = size := by
  unfold resize
  rw [length_append, length_take, length_replicate]
  omega

theorem Tame.act (h : Tame targ D D') {a : Act} (ha : Within targ a.path) (hfits : Fits D' a) :
    Tame targ D (D'.act H a).2 := by
  have hnow : 0 ≤ H.now.sec := Int.natCast_nonneg _
  have hold : ∀ {p n}, D'.nodes p = some n → D.nodes p = none → Small n :=
    fun hn hp => (h _ _ hp hn).1
  unfold Disk.act
  cases a with
  | mkdir p mode umask =>
    dsimp only
    split
    · exact h
    · exact (h.touch _).set fun _ => ⟨⟨hnow, hnow⟩, ha⟩
  | create p mode umask =>
    dsimp only
    split
    · exact h
    · exact h
    · exact (h.touch _).set fun _ => ⟨⟨by decide, hnow, hnow⟩, ha⟩
  | write p data =>
    dsimp only
    split
    · rename_i heq
      exact h.set fun hp =>
        ⟨⟨length_overwrite _ _ _ (hold heq hp).1 hfits, hnow, (hold heq hp).2.2⟩, ha⟩
    · exact h
  | ftruncate p size =>
    dsimp only
    split
    · rename_i heq
      split_ifs
      · exact h
      · refine h.set fun hp => ⟨⟨?_, hnow, (hold heq hp).2.2⟩, ha⟩
        have hsize : size < 2 ^ 31 := hfits
        rw [length_resize]
        omega
    · exact h
  | chmod p mode =>
    dsimp only
    split
    · rename_i heq
      exact h.set fun hp => ⟨⟨(hold heq hp).1, (hold heq hp).2⟩, ha⟩
    · rename_i heq
      exact h.set fun hp => ⟨⟨(hold heq hp).1, (hold heq hp).2⟩, ha⟩
    · exact h
  | utimes p times =>
    have hsec : ∀ t : ℕ × ℕ, 0 ≤ (stampOf t).sec := fun t => Int.natCast_nonneg _
    dsimp only
    split_ifs
    · exact h
    · split
      · rename_i heq
        exact h.set fun hp => ⟨⟨(hold heq hp).1, hsec _, hsec _⟩, ha⟩
      · exact h.set fun hp => ⟨⟨hsec _, hsec _⟩, ha⟩
      · exact h

variable {k : State Disk}

theorem Tame.callOrErr (h : Tame targ D k.os) {a : Act} (ha : Within targ a.path)
    (hfits : Fits k.os a) :
    Tame targ D (k.callOrErr (disk H) a).2.os := by
  unfold State.callOrErr
  split_ifs
  · exact h.act ha hfits
  · exact h.act ha hfits

theorem offset_write (D : Disk) (p : Path) (data : Text) :
    (D.act H (.write p data)).2.offset ≤ D.offset + data.length := by
  unfold Disk.act
  dsimp only
  split
  · exact le_rfl
  · exact Nat.le_add_right _ _

theorem Tame.writeBlocks (hnp : Within targ np) : ∀ (bs : List Text) {k : State Disk},
    Tame targ D k.os →
    k.os.offset + bs.flatten.length < 2 ^ 31 → Tame targ D (State.writeBlocks (disk H) np bs k).2.os
  | [], _, h, _ => h
  | b :: bs, k, h, hlen => by
    rw [flatten_cons, length_append] at hlen
    have hcall : Tame targ D (k.call (disk H) (.write np b)).2.os :=
      h.act (a := .write np b) hnp (show k.os.offset + b.length < 2 ^ 31 by omega)
    have hoffset : (k.call (disk H) (.write np b)).2.os.offset ≤ k.os.offset + b.length :=
      offset_write k.os np b
    unfold State.writeBlocks
    split_ifs
    · exact Tame.writeBlocks hnp bs hcall (by omega)
    · exact hcall

theorem Tame.finish (h : Tame targ D k.os) (hnp : Within targ np) (wrerr : Wrerr) :
    Tame targ D (State.finish (disk H) np wrerr k).os := by
  unfold State.finish
  cases wrerr with
  | yes => exact h
  | displayed => exact h
  | no =>
    split_ifs
    · exact h.act (a := .utimes np k.frame.times) hnp trivial
    · exact h

theorem Tame.respond (h : Tame targ D k.os) (hnp : Within targ np) (wrerr : Wrerr) :
    Tame targ D (State.respond (disk H) np wrerr k).os := by
  unfold State.respond
  split
  · exact h
  · rename_i rest _
    exact Tame.finish (k := { k with input := rest, phase := .record }) h hnp wrerr

variable {size : ℤ}

theorem Tame.close (h : Tame targ D k.os) (hnp : Within targ np) (existed : Bool) (omode : Mode)
    (hsize : size < 2 ^ 31) (wrote : Bool) :
    Tame targ D (State.close (disk H) F np existed omode size wrote k).os := by
  have hcut : Tame targ D (k.callOrErr (disk H) (.ftruncate np size)).2.os :=
    h.callOrErr (a := .ftruncate np size) hnp hsize
  have hmode : ∀ mode, Tame targ D ((k.callOrErr (disk H) (.ftruncate np size)).2.callOrErr (disk H)
    (.chmod np mode)).2.os :=
    fun mode => hcut.callOrErr (a := .chmod np mode) hnp trivial
  show Tame targ D
    (State.setMode (disk H) F np existed omode (k.callOrErr (disk H) (.ftruncate np size)).2).os
  unfold State.setMode
  split_ifs
  · exact hmode _
  · exact hcut
  · exact hmode _
  · exact hcut

theorem length_map_block_le (l : Text) (n : ℕ) :
    ((List.range n).map (block bufsiz l)).flatten.length ≤ l.length := by
  rw [flatten_map_block, length_take]
  exact min_le_right _ _

theorem Tame.body (h : Tame targ D k.os) (hnp : Within targ np) (existed : Bool) (omode : Mode)
    (hsize : size < 2 ^ 31) (hoffset : k.os.offset = 0) :
    Tame targ D (State.body (disk H) F np existed omode size k).os := by
  unfold State.body
  split_ifs with hlen
  · have hle := length_map_block_le k.input (k.input.length / bufsiz)
    have hwritten :=
      Tame.writeBlocks (H := H) hnp
      ((List.range (k.input.length / bufsiz)).map (block bufsiz k.input)) h
    refine hwritten ?_
    omega
  · refine Tame.close ?_ hnp existed omode hsize _
    refine Tame.writeBlocks hnp _ h ?_
    rw [flatten_blocksOf, length_take]
    show k.os.offset + min size.toNat k.input.length < 2 ^ 31
    omega

theorem Tame.file (h : Tame targ D k.os) (hnp : Within targ np) (mode : Mode)
    (hsize : size < 2 ^ 31) : Tame targ D (State.file (disk H) F np mode size k).os := by
  have hcreate : Tame targ D (k.call (disk H) (.create np (writable mode) F.umask)).2.os :=
    h.act (a := .create np (writable mode) F.umask) hnp trivial
  unfold State.file
  split_ifs
  · exact hcreate
  · exact hcreate
  · exact hcreate
  · exact Tame.close (k := (k.call (disk H) (.create np (writable mode) F.umask)).2.reply true)
      hcreate hnp _ _ hsize _

theorem Tame.resume (h : Tame targ D k.os) {o : Outer} (hnp : Within targ o.np) :
    Tame targ D (State.resume (disk H) k o).os := by
  have htimes : Tame targ D
    (if o.frame.setimes then (k.callOrErr (disk H) (.utimes o.np o.frame.times)).2 else k).os := by
    split_ifs
    · exact h.callOrErr (a := .utimes o.np o.frame.times) hnp trivial
    · exact h
  unfold State.resume State.callIf
  split_ifs at htimes ⊢
  · exact htimes.act (a := .chmod o.np o.mode) hnp trivial
  · exact htimes.act (a := .chmod o.np o.mode) hnp trivial
  · exact htimes
  · exact htimes

theorem os_enter (k : State Disk) (p : Path) (outer : List Outer) :
    (k.enter (disk H) F p outer).os = k.os := by
  unfold State.enter
  split_ifs <;> rfl

theorem Tame.dir (h : Tame targ D k.os) (hnp : Within targ np) (mode : Mode) :
    Tame targ D (State.dir (disk H) F np mode k).os := by
  have hmkdir : Tame targ D (k.call (disk H) (.mkdir np (mode ||| 0o700) F.umask)).2.os :=
    h.act (a := .mkdir np (mode ||| 0o700) F.umask) hnp trivial
  unfold State.dir
  split
  · exact h
  · rw [os_enter]
    unfold State.callIf
    split_ifs
    · exact h.act (a := .chmod np mode) hnp trivial
    · exact h
  · split_ifs
    · rw [os_enter]
      exact hmkdir
    · exact hmkdir

def Expects (targ : Path) (k : State Disk) : Prop :=
  match k.phase with
  | .record => True
  | .body np _ _ size => Within targ np ∧ size < 2 ^ 31 ∧ k.os.offset = 0
  | .status np _ => Within targ np

/-- What holds of `sink`, whatever it has read. -/
structure Tamed (targ : Path) (D : Disk) (k : State Disk) : Prop where
  os : Tame targ D k.os
  frame : Within targ k.frame.targ
  outer : ∀ o ∈ k.outer, Within targ o.np ∧ Within targ o.frame.targ
  phase : k.live → Expects targ k

theorem Within.target {f : Frame} (h : Within targ f.targ) {name : Text} (hname : 10 ∉ name) :
    Within targ (f.target name) := by
  obtain ⟨w, hw, hnot⟩ := h
  unfold Frame.target
  split_ifs
  · refine ⟨w ++ name, ?_, ?_⟩
    · rw [hw]
      simp
    · simp [hnot, hname]
  · refine ⟨w ++ [47] ++ name, ?_, ?_⟩
    · rw [hw]
      simp
    · simp [hnot, hname]
  · exact ⟨w, hw, hnot⟩

theorem expects_of_record (h : k.phase = .record) : Expects targ k := by
  unfold Expects
  rw [h]
  trivial

theorem expects_of_status {wrerr : Wrerr} (h : k.phase = .status np wrerr) (hnp : Within targ np) :
    Expects targ k := by
  unfold Expects
  rw [h]
  exact hnp

variable {k' : State Disk}

theorem Tamed.of_touches (h : Tamed targ D k) (ht : Touches np k k') (hdisk : Tame targ D k'.os)
    (hphase : k'.live → Expects targ k') : Tamed targ D k' where
  os := hdisk
  frame := ht.targ ▸ h.frame
  outer := ht.outer ▸ h.outer
  phase := hphase

theorem Tamed.quiet (h : Tamed targ D k) (hos : k'.os = k.os) (hf : k'.frame.targ = k.frame.targ)
    (ho : k'.outer = k.outer) (hphase : k'.live → k'.phase = .record) : Tamed targ D k' where
  os := hos ▸ h.os
  frame := hf ▸ h.frame
  outer := ho ▸ h.outer
  phase := fun hlive => expects_of_record (hphase hlive)

theorem phase_callIf (k : State Disk) (c : Bool) (a : Act) :
    (k.callIf (disk H) c a).phase = k.phase := by
  unfold State.callIf
  split_ifs <;> rfl

theorem phase_callOrErr (k : State Disk) (a : Act) :
    (k.callOrErr (disk H) a).2.phase = k.phase := by
  unfold State.callOrErr
  split_ifs <;> rfl

theorem phase_resume (k : State Disk) (o : Outer) :
    (State.resume (disk H) k o).phase = k.phase := by
  unfold State.resume
  rw [phase_callIf]
  split_ifs
  · exact phase_callOrErr k _
  · rfl

theorem phase_enter (k : State Disk) (p : Path) (outer : List Outer) :
    (k.enter (disk H) F p outer).phase = k.phase := by
  unfold State.enter
  split_ifs <;> rfl

theorem phase_dir (np : Path) (k : State Disk) (mode : Mode) :
    (State.dir (disk H) F np mode k).phase = k.phase := by
  unfold State.dir
  split
  · rfl
  · rw [phase_enter, phase_callIf]
  · split_ifs
    · rw [phase_enter]
      rfl
    · rfl

theorem Tamed.leave (h : Tamed targ D k) (hphase : k.phase = .record) :
    Tamed targ D (State.leave (disk H) k) := by
  unfold State.leave
  split
  · exact h.quiet rfl rfl rfl nofun
  · rename_i o outer heq
    obtain ⟨hnp, hf⟩ := h.outer o (by rw [heq]; exact mem_cons_self)
    have hback :
        Tamed targ D { k with frame := { o.frame with setimes := false }, outer := outer } :=
      ⟨h.os, hf, fun o' ho' => h.outer o' (by rw [heq]; exact mem_cons_of_mem _ ho'),
        fun _ => expects_of_record hphase⟩
    exact hback.of_touches (touches_resume o _) (Tame.resume hback.os hnp) fun _ =>
      expects_of_record ((phase_resume _ o).trans hphase)

theorem Tamed.dir (h : Tamed targ D k) (hphase : k.phase = .record) (hnp : Within targ np)
    (mode : Mode) :
    Tamed targ D (State.dir (disk H) F np mode k) := by
  have hdisk := Tame.dir (H := H) (F := F) h.os hnp mode
  have hrecord := (phase_dir (H := H) (F := F) np k mode).trans hphase
  have henter : ∀ (k' : State Disk) (modFlag : Bool), k'.outer = k.outer → k'.frame = k.frame →
      Within targ (k'.enter (disk H) F np (⟨k.frame, np, mode, modFlag⟩ :: k.outer)).frame.targ ∧
        ∀ o ∈ (k'.enter (disk H) F np (⟨k.frame, np, mode, modFlag⟩ :: k.outer)).outer,
          Within targ o.np ∧ Within targ o.frame.targ := by
    intro k' modFlag ho hf
    unfold State.enter
    split_ifs
    · exact ⟨hf ▸ h.frame, ho ▸ h.outer⟩
    · exact ⟨hnp,
        fun o hmem => (mem_cons.1 hmem).elim (fun heq => heq ▸ ⟨hnp, h.frame⟩) (h.outer o)⟩
  have hframe : Within targ (State.dir (disk H) F np mode k).frame.targ ∧
      ∀ o ∈ (State.dir (disk H) F np mode k).outer,
      Within targ o.np ∧ Within targ o.frame.targ := by
    unfold State.dir
    split
    · exact ⟨h.frame, h.outer⟩
    · refine henter _ _ ?_ ?_
      · unfold State.callIf
        split_ifs <;> rfl
      · unfold State.callIf
        split_ifs <;> rfl
    · split_ifs
      · exact henter _ _ rfl rfl
      · exact ⟨h.frame, h.outer⟩
  exact ⟨hdisk, hframe.1, hframe.2, fun _ => expects_of_record hrecord⟩

theorem offset_create {mode umask : Mode} (D : Disk)
    (h : (D.act H (.create np mode umask)).1 = true) :
    (D.act H (.create np mode umask)).2.offset = 0 := by
  unfold Disk.act at h ⊢
  dsimp only at h ⊢
  split at h
  · exact absurd h Bool.false_ne_true
  · rfl
  · rfl

theorem expects_file (hphase : k.phase = .record) (hnp : Within targ np) (mode : Mode)
    (hsize : size < 2 ^ 31) : Expects targ (State.file (disk H) F np mode size k) := by
  unfold State.file
  split_ifs with hcreate
  · exact expects_of_record hphase
  · exact expects_of_record hphase
  · refine ⟨hnp, hsize, offset_create k.os ?_⟩
    rcases hok : (k.call (disk H) (.create np (writable mode) F.umask)).1 with - | -
    · rw [hok] at hcreate
      exact absurd rfl hcreate
    · exact hok
  · exact expects_of_status rfl hnp

theorem Tamed.file (h : Tamed targ D k) (hphase : k.phase = .record) (hnp : Within targ np)
    (mode : Mode) (hsize : size < 2 ^ 31) : Tamed targ D (State.file (disk H) F np mode size k) :=
  h.of_touches (touches_file mode size k) (Tame.file h.os hnp mode hsize) fun _ =>
    expects_file hphase hnp mode hsize

theorem getmode_suffix : ∀ {n mode mode' : ℕ} {l l' : Text},
    getmode n mode l = some (mode', l') → l' <:+ l
  | 0, mode, mode', l, l', h => by
    obtain ⟨rfl, rfl⟩ := Prod.mk.inj (some.inj h)
    exact suffix_rfl
  | n + 1, mode, mode', [], l', h => absurd h nofun
  | n + 1, mode, mode', b :: l, l', h => by
    unfold getmode at h
    split_ifs at h
    exact (getmode_suffix h).trans (suffix_cons b l)

theorem delim_suffix {c : UInt8} {l l' : Text} (h : delim c l = some l') : l' <:+ l := by
  unfold delim at h
  split at h
  · exact absurd h nofun
  · split_ifs at h
    exact some.inj h ▸ suffix_cons _ _

theorem wrap_lt (n : ℕ) : wrap n < 2 ^ 31 := BitVec.toInt_lt

theorem parseEntry_bounds {l name : Text} {mode : Mode}
    (h : parseEntry l = some (mode, size, name)) :
    name <:+ l ∧ size < 2 ^ 31 := by
  obtain ⟨⟨m, l₁⟩, hmode, h⟩ := bind_eq_some_iff.1 h
  obtain ⟨l₂, hdelim, h⟩ := bind_eq_some_iff.1 h
  obtain ⟨l₃, hdelim', h⟩ := bind_eq_some_iff.1 h
  have hrest := Prod.mk.inj (Prod.mk.inj (some.inj h)).2
  refine ⟨?_, hrest.1 ▸ wrap_lt _⟩
  rw [← hrest.2]
  exact (delim_suffix hdelim').trans ((dropWhile_suffix _).trans
    ((delim_suffix hdelim).trans (getmode_suffix hmode)))

theorem not_mem_cstring (n : ℕ) (l : Text) : 10 ∉ cstring (piece 10 n l).1 := by
  intro hmem
  have hmem' := (takeWhile_sublist _).subset hmem
  split_ifs at hmem' with hlast
  · obtain ⟨p, q, hpq⟩ := append_of_mem hmem'
    have hwhole : (piece 10 n l).1 = p ++ 10 :: (q ++ [10]) := by
      rw [← dropLast_append_getLast? 10 hlast, hpq, append_assoc]
      rfl
    exact append_ne_nil_of_right_ne_nil q (cons_ne_nil _ _) (piece_delim 10 n l hwhole)
  · obtain ⟨p, q, hpq⟩ := append_of_mem hmem'
    have hq := piece_delim 10 n l hpq
    rw [hpq, hq] at hlast
    exact hlast getLast?_concat

theorem Tamed.record (h : Tamed targ D k) (hphase : k.phase = .record) {l : Text} (hl : 10 ∉ l) :
    Tamed targ D (State.record (disk H) F k l) := by
  have hsuffix : ∀ {b : UInt8} {l' name : Text}, 10 ∉ b :: l' → name <:+ l' → 10 ∉ name :=
    fun hb hname hmem =>
    hb (mem_cons_of_mem _ (hname.subset hmem))
  have hread : ∀ name, Tamed targ D (k.read name) := fun name => h.quiet rfl rfl rfl fun _ => hphase
  unfold State.record State.screwup
  split
  · exact h
  · exact h.quiet rfl rfl rfl nofun
  · have hquiet : Tamed targ D (k.reply true) := h.quiet rfl rfl rfl fun _ => hphase
    exact hquiet.leave hphase
  · split
    · exact h.quiet rfl rfl rfl fun _ => hphase
    · exact h.quiet rfl rfl rfl nofun
  · split
    · rename_i hparse
      obtain ⟨hname, hsize⟩ := parseEntry_bounds hparse
      exact (hread _).file hphase (h.frame.target (hsuffix hl hname)) _ hsize
    · exact h.quiet rfl rfl rfl nofun
  · split
    · rename_i hparse
      obtain ⟨hname, -⟩ := parseEntry_bounds hparse
      exact (hread _).dir hphase (h.frame.target (hsuffix hl hname)) _
    · exact h.quiet rfl rfl rfl nofun
  · exact h.quiet rfl rfl rfl nofun

theorem Tamed.line (h : Tamed targ D k) (hphase : k.phase = .record) :
    Tamed targ D (State.line (disk H) F k) := by
  unfold State.line State.screwup
  split
  · exact h.leave hphase
  · split_ifs
    · exact h.quiet rfl rfl rfl nofun
    · rename_i b l _ _ _
      have hread : Tamed targ D { k with input := (piece 10 (bufsiz - 1) (b :: l)).2 } :=
        h.quiet rfl rfl rfl fun _ => hphase
      exact hread.record hphase (not_mem_cstring _ _)
    · exact h.quiet rfl rfl rfl nofun

theorem phase_finish (wrerr : Wrerr) (k : State Disk) :
    (State.finish (disk H) np wrerr k).phase = k.phase := by
  unfold State.finish
  cases wrerr with
  | yes => rfl
  | displayed => rfl
  | no =>
    split_ifs <;> rfl

theorem Tamed.turn (h : Tamed targ D k) : Tamed targ D (State.turn (disk H) F k) := by
  unfold State.turn
  split_ifs with hlive
  · exact h
  have hexpects := h.phase (by simpa using hlive)
  unfold Expects at hexpects
  split
  · rename_i heq
    exact h.line heq
  · rename_i np existed omode size heq
    rw [heq] at hexpects
    obtain ⟨hnp, hsize, hoffset⟩ := hexpects
    refine h.of_touches (touches_body _ _ _ k)
      (Tame.body h.os hnp existed omode hsize hoffset) fun hlive' => ?_
    unfold State.body at hlive' ⊢
    split_ifs at hlive' ⊢
    · exact absurd hlive' Bool.false_ne_true
    · exact expects_of_status rfl hnp
  · rename_i np wrerr heq
    rw [heq] at hexpects
    refine h.of_touches (touches_respond _ k) (Tame.respond h.os hexpects wrerr) fun hlive' => ?_
    unfold State.respond at hlive' ⊢
    rcases hresponse : response k.input with - | rest
    · rw [hresponse] at hlive'
      exact absurd hlive' Bool.false_ne_true
    · exact expects_of_record (phase_finish wrerr _)

theorem Tamed.turns : ∀ (n : ℕ) {k : State Disk},
    Tamed targ D k → Tamed targ D (turns (disk H) F n k)
  | 0, _, h => h
  | n + 1, _, h => Tamed.turns n h.turn

end

/-! ### In any order -/

section
variable {H : Host} {F : Flags} {D : Disk} {targ : Path} {k : State Disk}

theorem Tamed.serve (h : Tamed targ D k) (b : UInt8) : Tamed targ D (serve H F k b).1 := by
  unfold Tree.serve
  split_ifs
  · have hread : Tamed targ D { k with input := k.input ++ [b], replies := [] } :=
      ⟨h.os, h.frame, h.outer, h.phase⟩
    exact hread.turn
  · exact ⟨h.os, h.frame, h.outer, h.phase⟩

theorem tamed_reached {s s' : Sys (State Disk) UInt8 Bool} (h : Tamed targ D s.server)
    (hs : Relation.ReflTransGen (Step (rules H F)) s s') : Tamed targ D s'.server := by
  induction hs with
  | refl => exact h
  | tail _ hstep ih =>
    cases hstep with
    | send t p sent flight k back m => exact ih
    | serve p sent t flight k back m => exact ih.serve t
    | read a b sent flight k r back m => exact ih

theorem tamed_start (input : Text) : Tamed targ D (Sink.start (disk H) F D targ input) := by
  have htame : Tame targ D D := fun p n hp hn => absurd (hp.symm.trans hn) nofun
  have htarg : Within targ targ := ⟨[], (append_nil targ).symm, nofun⟩
  unfold Sink.start
  refine ⟨?_, ?_, ?_, fun _ => expects_of_record (phase_enter _ _ _)⟩
  · rw [os_enter]
    exact htame
  · unfold State.enter
    split_ifs
    · exact htarg
    · exact htarg
  · unfold State.enter
    split_ifs
    · exact nofun
    · exact nofun

end

/-! ### What is said of a copy -/

/-- Where the names lead: without the first, if the tree is to have the name `targ`. -/
def place (isDir : Bool) (names : List Text) : List Text := if isDir then names else names.tail

/-- What the names of the tree lead to there is as `Q` says, and nothing else is new. -/
def Stands (Q : Item → Node → Prop) (es : Entries) (isDir : Bool) (targ : Path) (D D' : Disk) :
    Prop :=
  ∀ names, names ≠ [] → (∀ n ∈ names, Plain n) → (isDir = false → names.head? = es.names.head?) →
    match es.find names with
    | some x => ∃ n, D'.at targ (place isDir names) = some n ∧ Q x n
    | none => D'.at targ (place isDir names) = D.at targ (place isDir names)

/-- A directory in which nothing has the names of the tree, or what is not there and has no name of
its own. -/
inductive Target (F : Flags) (es : Entries) (targ : Path) (D : Disk) : Bool → Prop
  | directory (hdir : (D.nodes targ).map Node.isDir = some true) (hfresh : Fresh es targ [] D) :
    Target F es targ D true
  | absent (name : Text) (hname : 10 ∉ name) (hes : es.names = [name])
    (hflag : F.targetshouldbedirectory = false)
    (hfresh : ∀ names, (∀ n ∈ names, Plain n) → D.at targ names = none) : Target F es targ D false

/-- **A faithful copy**: the same names, data and directories, the modes under the mask, and with
`-p` the modes and the times. -/
def Faithful (F : Flags) (es : Entries) (isDir : Bool) (targ : Path) (D D' : Disk) : Prop :=
  Stands (Matches F) es isDir targ D D'

/-- Every run comes to an end, and there `source` is done and what `sink` leaves is a faithful
copy. -/
def Copies (H : Host) (F : Flags) (S : Sender) (es : Entries) (isDir : Bool) (targ : Path)
    (D : Disk) : Prop :=
  Acc (fun s' s => Step (rules H F) s s') (begin H F S es targ D) ∧
    ∀ s, Relation.ReflTransGen (Step (rules H F)) (begin H F S es targ D) s →
    (rules H F).Stopped s →
      s.client = .done ∧ Faithful F es isDir targ D (closed H F s.server).os

/-- The mode is kept: a mode with which the owner may write is one that a write leaves, and the mode
of a directory is one that the mask leaves. -/
def ModeKept (H : Host) (F : Flags) (x : Item) : Prop :=
  match x.data with
  | some _ =>
    x.attr.mode = writable x.attr.mode → H.written (kept F x.attr.mode) = kept F x.attr.mode
  | none => kept F x.attr.mode = x.attr.mode

def Datable (S : Sender) (t : Date) :
    Prop := 0 ≤ t.1.sec ∧ if S.usec then 1000 ∣ t.1.nsec else t.1.nsec = 0

def Survives (H : Host) (F : Flags) (S : Sender) (name : Text) (x : Item) : Prop :=
  10 ∉ name ∧ (∀ data ∈ x.data, data.1.length < 2 ^ 31) ∧ ModeKept H F x ∧
    (F.preserve → Datable S x.attr.mtime ∧ Datable S x.attr.atime)

section
variable {H : Host} {F : Flags} {S : Sender} {es : Entries} {isDir : Bool} {targ : Path}
    {D D' : Disk} {x : Item}
  {n : Node}

theorem sent_eq_iff (t : Date) : S.sent t = t.1 ↔ Datable S t := by
  have hsent : S.sent t = ⟨(t.1.sec.toNat : ℤ), (S.time t).usec * 1000⟩ := rfl
  have heq : S.sent t = t.1 ↔
    (t.1.sec.toNat : ℤ) = t.1.sec ∧ (S.time t).usec * 1000 = t.1.nsec := by
    exact Stamp.mk.injEq .. |>.to_iff
  rw [heq]
  unfold Datable Sender.time
  dsimp only
  split_ifs
  · omega
  · omega

theorem got_eq_iff (x : Item) : got H F x = kept F x.attr.mode ↔ ModeKept H F x := by
  obtain ⟨a, - | data⟩ := x
  · exact eq_comm
  · unfold got ModeKept
    split_ifs with hw
    · exact ⟨fun h _ => h, fun h => h hw⟩
    · exact ⟨fun _ hw' => absurd hw' hw, fun _ => rfl⟩

theorem matches_iff (h : Received H F S x n) :
    Matches F x n ↔
    ModeKept H F x ∧ (F.preserve → Datable S x.attr.mtime ∧ Datable S x.attr.atime) := by
  rw [← got_eq_iff, ← sent_eq_iff, ← sent_eq_iff]
  obtain ⟨a, - | data⟩ := x
  · cases n with
    | file mode data mtime atime => exact absurd h not_false
    | dir mode mtime atime =>
      obtain ⟨rfl, htimes⟩ := h
      exact and_congr_right fun _ => imp_congr_right fun hp => by rw [(htimes hp).1, (htimes hp).2]
  · cases n with
    | file mode data mtime atime =>
      obtain ⟨rfl, rfl, htimes⟩ := h
      have htimes' : (F.preserve → mtime = a.mtime.1 ∧ atime = a.atime.1) ↔
          (F.preserve → S.sent a.mtime = a.mtime.1 ∧ S.sent a.atime = a.atime.1) :=
        imp_congr_right fun hp => by rw [(htimes hp).1, (htimes hp).2]
      exact ⟨fun hm => ⟨hm.1, htimes'.1 hm.2.2⟩, fun hm => ⟨hm.1, rfl, htimes'.2 hm.2⟩⟩
    | dir mode mtime atime => exact absurd h not_false

/-! ### Entries by their names -/

variable {names : List Text} {P : Text → Item → Prop}

theorem ne_of_find {rest : Entries} {name m : Text} (hnotin : name ∉ rest.names)
    (hx : rest.find (m :: names) = some x) : m ≠ name := by
  rintro rfl
  exact absurd ((find_eq_none hnotin names).symm.trans hx) nofun

theorem all_of_find : ∀ {es : Entries}, es.Distinct →
    (∀ names name x, es.find (names ++ [name]) = some x → P name x) → es.All P
  | .nil, _, _ => trivial
  | .file name a data rest, ⟨hnotin, hdistinct⟩, h => by
    refine ⟨h [] name.1 _ (if_pos rfl), all_of_find hdistinct fun names m x hx => h names m x ?_⟩
    rcases names with - | ⟨n, names⟩
    · exact (find_file_other (ne_of_find hnotin hx) a data []).trans hx
    · exact (find_file_other (ne_of_find hnotin hx) a data _).trans hx
  | .dir name a contents rest, ⟨hnotin, hinside, hdistinct⟩, h => by
    refine ⟨h [] name.1 _ (find_dir_self a []),
      all_of_find hinside fun names m x hx => h (name.1 :: names) m x ?_,
      all_of_find hdistinct fun names m x hx => h names m x ?_⟩
    · rw [cons_append, find_dir_self, if_neg (append_ne_nil_of_right_ne_nil _ (cons_ne_nil _ _))]
      exact hx
    · rcases names with - | ⟨n, names⟩
      · exact (find_dir_other (ne_of_find hnotin hx) a []).trans hx
      · exact (find_dir_other (ne_of_find hnotin hx) a _).trans hx

theorem find_of_all : ∀ {es : Entries}, es.All P →
    ∀ names name x, es.find (names ++ [name]) = some x → P name x
  | .nil, _, _, _, _, hx => absurd hx nofun
  | .file name a data rest, ⟨hp, hrest⟩, names, m, x, hx => by
    rw [Entries.find] at hx
    split_ifs at hx with heq
    · rcases names with - | ⟨n, names⟩
      · rw [(List.cons.inj heq).1]
        exact some.inj hx ▸ hp
      · exact absurd (List.cons.inj heq).2 (append_ne_nil_of_right_ne_nil _ (cons_ne_nil _ _))
    · exact find_of_all hrest names m x hx
  | .dir name a contents rest, ⟨hp, hin, hrest⟩, [], m, x, hx => by
    by_cases hm : m = name.1
    · subst hm
      exact some.inj ((find_dir_self a []).symm.trans hx) ▸ hp
    · exact find_of_all hrest [] m x ((find_dir_other hm a []).symm.trans hx)
  | .dir name a contents rest, ⟨hp, hin, hrest⟩, n :: names, m, x, hx => by
    rw [cons_append, Entries.find] at hx
    split_ifs at hx with heq hnil
    · exact absurd hnil (append_ne_nil_of_right_ne_nil _ (cons_ne_nil _ _))
    · exact find_of_all hin names m x hx
    · exact find_of_all hrest (n :: names) m x hx

theorem plain_of_find : ∀ {es : Entries} {n : Text} {names : List Text},
    es.find (n :: names) = some x → n ∈ es.names ∧ ∀ m ∈ n :: names, Plain m
  | .nil, _, _, hx => absurd hx nofun
  | .file name a data rest, n, names, hx => by
    rw [Entries.find] at hx
    split_ifs at hx with heq
    · obtain ⟨rfl, rfl⟩ := List.cons.inj heq
      exact ⟨mem_cons_self, fun m hm => mem_singleton.1 hm ▸ name.2.1⟩
    · exact ⟨mem_cons_of_mem _ (plain_of_find hx).1, (plain_of_find hx).2⟩
  | .dir name a contents rest, n, names, hx => by
    rw [Entries.find] at hx
    split_ifs at hx with heq hnil
    · subst heq hnil
      exact ⟨mem_cons_self, fun m hm => mem_singleton.1 hm ▸ name.2.1⟩
    · subst heq
      obtain ⟨m, names, rfl⟩ := exists_cons_of_ne_nil hnil
      refine ⟨mem_cons_self, fun m' hm' => ?_⟩
      rcases mem_cons.1 hm' with rfl | hm'
      · exact name.2.1
      · exact (plain_of_find hx).2 m' hm'
    · exact ⟨mem_cons_of_mem _ (plain_of_find hx).1, (plain_of_find hx).2⟩

/-! ### What can be sent arrives -/

theorem start_at (D : Disk) (targ : Path)
    (h : F.targetshouldbedirectory = false ∨ (D.nodes targ).map Node.isDir = some true) :
    At ⟨targ, (D.nodes targ).map Node.isDir == some true, false, ((0, 0), (0, 0))⟩ [] .record D
        (Sink.start (disk H) F D targ []) ∧
      (Sink.start (disk H) F D targ []).replies = [true] := by
  have hstat : (disk H).stat D targ = (D.nodes targ).map Node.isDir := rfl
  have hno : (F.targetshouldbedirectory && (disk H).stat D targ != some true) = false := by
    rcases h with h | h
    · rw [h, Bool.false_and]
    · rw [hstat, h, bne_self_eq_false, Bool.and_false]
  unfold Sink.start State.enter
  rw [if_neg (ne_true_of_eq_false hno)]
  exact ⟨⟨rfl, rfl, rfl, rfl, rfl, rfl⟩, rfl⟩

theorem closed_at {k : State Disk} {f : Frame} (h : At f [] .record D' k) :
    (closed H F k).os = D' := by
  have hturn : State.turn (disk H) F k = k.exit := by
    unfold State.turn State.line State.leave
    rw [h.live, h.phase]
    simp only [Bool.not_true, Bool.false_eq_true, if_false]
    rw [h.input, h.outer]
  unfold closed
  rw [h.outer]
  show (State.turn (disk H) F k).os = D'
  rw [hturn]
  exact h.os

theorem outcome_begin
    (h : F.targetshouldbedirectory = false ∨ (D.nodes targ).map Node.isDir = some true) :
    (rules H F).outcome (begin H F S es targ D) =
      (rules H F).ends (source F S es .done) (Sink.start (disk H) F D targ []) [] := by
  have hreplies := (start_at (H := H) D targ h).2
  unfold Rules.outcome begin
  rw [hreplies]
  rfl

theorem eq_nil_of_names : ∀ {es : Entries}, es.names = [] → es = .nil
  | .nil, _ => rfl
  | .file _ _ _ _, h => absurd h nofun
  | .dir _ _ _ _, h => absurd h nofun

theorem arrives (htarg : targ ≠ []) (htarget : Target F es targ D isDir) (hdistinct : es.Distinct)
    (hsent : es.All (Sent F)) :
    ∃ k, (rules H F).outcome (begin H F S es targ D) = some k ∧
      Stands (Received H F S) es isDir targ D (closed H F k).os := by
  have hhere : ∀ n ∈ ([] : List Text), Plain n := nofun
  cases htarget with
  | directory hdir hfresh =>
    have hat := (start_at (H := H) (F := F) D targ (.inr hdir)).1
    rw [hdir] at hat
    obtain ⟨k, f, D', hat', -, -, -, hgrown, hends⟩ :=
      ends_source (H := H) (S := S) htarg hdistinct hsent hhere _ _ _ _ .done hat rfl rfl rfl hfresh
    refine ⟨k, (outcome_begin (.inr hdir)).trans hends, ?_⟩
    rw [closed_at hat']
    exact fun names hne hplain _ => hgrown.inside names hne hplain
  | absent name hname hes hflag hfresh =>
    have hnone : D.at targ [] = none := hfresh [] nofun
    have hat := (start_at (H := H) (F := F) D targ (.inl hflag)).1
    rw [show D.nodes targ = none from hnone] at hat
    have hstands : ∀ {x : Item} {contents : Entries} {D' : Disk},
      Arrived H F S x contents targ [] D D' →
        (∀ names, es.find (name :: names) = if names = [] then some x else contents.find names) →
          Stands (Received H F S) es false targ D D' := by
      intro x contents D' harrived hfind names hne hplain hhead
      rw [hes] at hhead
      obtain ⟨n, names, rfl⟩ := exists_cons_of_ne_nil hne
      obtain rfl : n = name := some.inj (hhead rfl)
      rw [hfind]
      by_cases hnil : names = []
      · rw [if_pos hnil, hnil]
        exact harrived.self
      · rw [if_neg hnil]
        exact harrived.inside names hnil fun m hm => hplain m (mem_cons_of_mem _ hm)
    cases es with
    | nil => exact absurd hes nofun
    | file root a data rest =>
      obtain ⟨rfl, hrest⟩ := List.cons.inj hes
      obtain rfl := eq_nil_of_names hrest
      obtain ⟨⟨hroot, hsize, hdated⟩, -⟩ := hsent
      obtain ⟨k, f, D', hat', -, -, -, harrived, hends⟩ :=
        ends_file (H := H) (S := S) htarg hhere hat rfl hroot rfl hnone
          (hsize data rfl) hdated .done
      refine ⟨k, (outcome_begin (.inl hflag)).trans hends, ?_⟩
      rw [closed_at hat']
      exact hstands harrived (find_file_self not_mem_nil a data)
    | dir root a contents rest =>
      obtain ⟨rfl, hrest⟩ := List.cons.inj hes
      obtain rfl := eq_nil_of_names hrest
      obtain ⟨-, hinside, -⟩ := hdistinct
      obtain ⟨⟨hroot, -, hdated⟩, hin, -⟩ := hsent
      obtain ⟨k, f, D', hat', -, -, -, harrived, hends⟩ :=
        ends_dir (H := H) (S := S) htarg hhere hat rfl hroot rfl hfresh hdated
          (ends_source htarg hinside hin hhere) .done
      refine ⟨k, (outcome_begin (.inl hflag)).trans hends, ?_⟩
      rw [closed_at hat']
      exact hstands harrived (find_dir_self a)

/-! ### When the copy is faithful -/

theorem below_eq (htarg : targ ≠ []) (names : List Text) : below targ names =
    targ ++ names.flatMap fun n => 47 :: n := by
  induction names using List.reverseRecOn with
  | nil => exact (append_nil _).symm
  | append_singleton names n ih =>
    rw [below_concat, if_neg (below_ne_nil htarg names), ih, flatMap_append, flatMap_singleton]
    simp

theorem not_mem_of_within (htarg : targ ≠ []) (h : Within targ (below targ names)) :
    ∀ n ∈ names, 10 ∉ n := by
  obtain ⟨w, hw, hnot⟩ := h
  rw [below_eq htarg] at hw
  have hflat := append_cancel_left hw
  intro n hn hmem
  exact hnot (hflat ▸ mem_flatMap.2 ⟨n, hn, mem_cons_of_mem _ hmem⟩)

theorem plain_of_found (hne : names ≠ []) (hx : es.find names = some x) : ∀ n ∈ names, Plain n := by
  obtain ⟨m, l, rfl⟩ := exists_cons_of_ne_nil hne
  exact (plain_of_find hx).2

theorem Target.new (h : Target F es targ D isDir) (hne : names ≠ []) (hx : es.find names = some x) :
    D.at targ (place isDir names) = none ∧ (isDir = false → names.head? = es.names.head?) := by
  obtain ⟨n, names, rfl⟩ := exists_cons_of_ne_nil hne
  obtain ⟨hmem, hplain⟩ := plain_of_find hx
  cases h with
  | directory hdir hfresh =>
    exact ⟨hfresh n hmem names fun m hm => hplain m (mem_cons_of_mem _ hm), fun h => absurd h nofun⟩
  | absent name hname hes hflag hfresh =>
    rw [hes] at hmem ⊢
    exact ⟨hfresh names fun m hm => hplain m (mem_cons_of_mem _ hm),
      fun _ => congrArg some (mem_singleton.1 hmem)⟩

theorem sent_of_small (hsmall : Small n) (h : Matches F x n) :
    (∀ data ∈ x.data, data.1.length < 2 ^ 31) ∧ Dated F x.attr := by
  obtain ⟨a, - | data⟩ := x
  · cases n with
    | file mode data mtime atime => exact absurd h not_false
    | dir mode mtime atime =>
      obtain ⟨-, htimes⟩ := h
      exact ⟨nofun, fun hp => ⟨(htimes hp).1 ▸ hsmall.1, (htimes hp).2 ▸ hsmall.2⟩⟩
  · cases n with
    | file mode data' mtime atime =>
      obtain ⟨-, hdata, htimes⟩ := h
      refine ⟨fun data'' hmem => ?_,
        fun hp => ⟨(htimes hp).1 ▸ hsmall.2.1, (htimes hp).2 ▸ hsmall.2.2⟩⟩
      rw [← some.inj hmem, ← hdata]
      exact hsmall.1
    | dir mode mtime atime => exact absurd h not_false

theorem sent_of_faithful (htarg : targ ≠ []) (htarget : Target F es targ D isDir)
    (hdistinct : es.Distinct)
    (htame : Tame targ D D') (h : Faithful F es isDir targ D D') : es.All (Sent F) := by
  refine all_of_find hdistinct fun names name x hx => ?_
  have hne : names ++ [name] ≠ [] := append_ne_nil_of_right_ne_nil _ (cons_ne_nil _ _)
  obtain ⟨hnew, hhead⟩ := htarget.new hne hx
  have hcopy := h (names ++ [name]) hne (plain_of_found hne hx) hhead
  rw [hx] at hcopy
  obtain ⟨n, hn, hmatches⟩ := hcopy
  obtain ⟨hsmall, hwithin⟩ := htame _ n hnew hn
  have hnames := not_mem_of_within htarg hwithin
  refine ⟨?_, sent_of_small hsmall hmatches⟩
  cases htarget with
  | directory hdir hfresh => exact hnames name (mem_append_right _ (mem_singleton_self _))
  | absent root hroot hes hflag hfresh =>
    rcases names with - | ⟨m, names⟩
    · have hname : some name = some root := by simpa [hes] using hhead rfl
      exact some.inj hname ▸ hroot
    · exact hnames name (mem_append_right _ (mem_singleton_self _))

section
variable (hdistinct : es.Distinct) (htarg : targ ≠ []) (htarget : Target F es targ D isDir)
include hdistinct htarg htarget

theorem survives_of_copies (h : Copies H F S es isDir targ D) : es.All (Survives H F S) := by
  obtain ⟨s, hs, hstop⟩ := (rules H F).exists_stopped (begin H F S es targ D)
  have htame : Tamed targ D s.server := tamed_reached (tamed_start []) hs
  have hfaithful := (h.2 s hs hstop).2
  have hsent := sent_of_faithful htarg htarget hdistinct (Tamed.turns _ htame).os hfaithful
  obtain ⟨k, hk, hstands⟩ := arrives (H := H) (S := S) htarg htarget hdistinct hsent
  rw [((rules H F).stopped_of_ends hk hs hstop).2] at hfaithful
  refine all_of_find hdistinct fun names name x hx => ?_
  have hne : names ++ [name] ≠ [] := append_ne_nil_of_right_ne_nil _ (cons_ne_nil _ _)
  have hhead := (htarget.new hne hx).2
  have hcopy := hfaithful (names ++ [name]) hne (plain_of_found hne hx) hhead
  have hmade := hstands (names ++ [name]) hne (plain_of_found hne hx) hhead
  rw [hx] at hcopy hmade
  obtain ⟨n, hn, hmatches⟩ := hcopy
  obtain ⟨n', hn', hreceived⟩ := hmade
  obtain rfl := some.inj (hn.symm.trans hn')
  obtain ⟨hname, hsize, -⟩ := find_of_all hsent names name x hx
  exact ⟨hname, hsize, (matches_iff hreceived).1 hmatches⟩

theorem copies_of_survives (h : es.All (Survives H F S)) : Copies H F S es isDir targ D := by
  have hsurvives := find_of_all h
  have hsent : es.All (Sent F) := by
    refine all_of_find hdistinct fun names name x hx => ?_
    obtain ⟨hname, hsize, -, hdates⟩ := hsurvives names name x hx
    exact ⟨hname, hsize, fun hp => ⟨(hdates hp).1.1, (hdates hp).2.1⟩⟩
  obtain ⟨k, hk, hstands⟩ := arrives (H := H) (S := S) htarg htarget hdistinct hsent
  refine ⟨(rules H F).acc_step _, fun s hs hstop => ?_⟩
  obtain ⟨hdone, hserver⟩ := (rules H F).stopped_of_ends hk hs hstop
  refine ⟨hdone, fun names hne hplain hhead => ?_⟩
  rw [hserver]
  have hmade := hstands names hne hplain hhead
  rcases hx : es.find names with - | x
  · rw [hx] at hmade
    exact hmade
  · rw [hx] at hmade
    obtain ⟨n, hn, hreceived⟩ := hmade
    obtain ⟨base, name, rfl⟩ := (eq_nil_or_concat names).resolve_left hne
    rw [concat_eq_append] at hx
    exact ⟨n, hn, (matches_iff hreceived).2 (hsurvives base name x hx).2.2⟩

end

/-- **A tree is copied faithfully just in case each of its entries is one that survives.** -/
theorem copies_iff (H : Host) (F : Flags) (S : Sender) {es : Entries} (hdistinct : es.Distinct)
    {targ : Path}
    (htarg : targ ≠ []) {D : Disk} {isDir : Bool} (htarget : Target F es targ D isDir) :
    Copies H F S es isDir targ D ↔ es.All (Survives H F S) :=
  ⟨survives_of_copies hdistinct htarg htarget, copies_of_survives hdistinct htarg htarget⟩

end

/-! ### Two trees -/

def epoch : Date := ⟨⟨0, 0⟩, by decide⟩

def plainAttr (mode : Mode) : Attr := ⟨mode, epoch, epoch⟩

/-- An empty directory `t`. -/
def emptyDir : Disk := ⟨fun p => if p = [116] then some (.dir 0o755 epoch.1 epoch.1) else none, 0⟩

theorem target_emptyDir (F : Flags) (es : Entries) : Target F es [116] emptyDir true := by
  refine .directory rfl fun n _ names _ => if_neg fun heq => ?_
  have hlen := congrArg List.length ((below_eq (by decide) _).symm.trans heq)
  rw [nil_append, flatMap_cons] at hlen
  simp at hlen

/-- `d`, and in it a file `f` of three bytes. -/
def smallTree : Entries :=
  .dir ⟨[100], by decide⟩ (plainAttr 0o755) (.file ⟨[102], by decide⟩ (plainAttr 0o644)
    ⟨[97, 98, 99], by decide⟩ .nil) .nil

theorem copies_smallTree :
    Copies ⟨0, 0, true⟩ ⟨false, false, 0o022⟩ ⟨false⟩ smallTree true [116] emptyDir := by
  refine (copies_iff ⟨0, 0, true⟩ ⟨false, false, 0o022⟩ ⟨false⟩ ?_ (by decide)
    (target_emptyDir _ _)).2 ?_
  · exact ⟨by decide, ⟨by decide, trivial⟩, trivial⟩
  · have hmode : kept ⟨false, false, 0o022⟩ 0o755 = 0o755 := by decide
    refine ⟨⟨by decide, nofun, hmode, nofun⟩,
      ⟨⟨by decide, ?_, fun _ => by decide, nofun⟩, trivial⟩, trivial⟩
    rintro data h
    rw [← some.inj h]
    decide

def bigFile : Entries :=
  .file ⟨[102], by decide⟩ (plainAttr 0o644)
    ⟨List.replicate (2 ^ 31) 0, by rw [List.length_replicate]; decide⟩ .nil

theorem not_copies_bigFile :
    ¬ Copies ⟨0, 0, true⟩ ⟨false, false, 0o022⟩ ⟨false⟩ bigFile true [116] emptyDir := by
  intro h
  have hdistinct : bigFile.Distinct := ⟨by decide, trivial⟩
  obtain ⟨⟨-, hsize, -⟩, -⟩ := survives_of_copies hdistinct (by decide) (target_emptyDir _ _) h
  have hlt := hsize _ rfl
  rw [length_replicate] at hlt
  exact lt_irrefl _ hlt

end Inetutils.Rcp.Fidelity
