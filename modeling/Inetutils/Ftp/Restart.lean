import Inetutils.Ftp.Ascii

/-! # Transfers that are taken up again

`sendrequest` and `recvrequest` of `src/ftp.c` where there is a restart point, with `store` and
`retrieve` of `src/ftpd.c` at the other end. Each end makes a place in its file of the restart
point: by a seek, or by reading lines up to it. `put` seeks where the server reads lines, and
`reget` takes the size of the local file for the restart point. What is written at a place covers
what was there. -/

namespace Inetutils.Ftp.Restart

open Ftpd.Retr Ascii List

/-! ### The functions -/

/-- What is in a file after `w` is written at `k`. -/
def writeAt (k : ℕ) (w file : Text) : Text :=
  if w = [] then file
  else file.take k ++ List.replicate (k - file.length) 0 ++ w ++ file.drop (k + w.length)

/-- What `receive_data` writes. -/
def received (type : Rep) (instr : Text) : Text :=
  match type with
  | .A => (receiveData instr).1
  | _ => instr

/-- `store` for STOR and APPE. With a restart point the file is not truncated. -/
def store (append : Bool) (type : Rep) (restartPoint : ℤ) (instr file : Text) : Text :=
  if restartPoint = 0 then
    if append then file ++ received type instr else received type instr
  else match type with
    | .A => match skipLoop restartPoint file with
      | none => file
      | some pos => writeAt pos (received type instr) file
    | _ => if restartPoint < 0 then file else writeAt restartPoint.toNat (received type instr) file

/-- What `sendrequest` sends, from the restart point of the file on. -/
def sent (type : Rep) (restart : ℕ) (fin : Text) : Text :=
  match type with
  | .A => sendrequest (fin.drop restart)
  | _ => fin.drop restart

/-- `put` and `append` with a restart point: the file of the server. -/
def put (append : Bool) (type : Rep) (restart : ℕ) (fin file : Text) : Text :=
  store append type (restartPoint restart) (sent type restart fin) file

/-- `reget`: the file of the client. In `TYPE_A` the restart point goes through an `int` here,
too. -/
def reget (env : Env) (crflag : Bool) (type : Rep) (fin file : Text) : Text :=
  match retrieve env type (restartPoint file.length) fin with
  | none => file
  | some din => match type with
    | .A => match skipLoop (restartPoint file.length) file with
      | none => file
      | some pos => writeAt pos (recvrequest crflag true din).1 file
    | _ => writeAt file.length din file

/-! ### Writing at a place -/

variable {k : ℕ} {file : Text} {r : ℤ}

theorem writeAt_of_le {w : Text} (hk : k ≤ file.length) :
    writeAt k w file = file.take k ++ (w ++ (file.drop k).drop w.length) := by
  rw [writeAt]
  split
  next hw =>
    rw [hw, nil_append, length_nil, drop_zero, take_append_drop]
  next =>
    rw [Nat.sub_eq_zero_of_le hk, replicate_zero, append_nil, append_assoc, drop_drop]

theorem cover_iff {w d rest : Text} :
    w ++ d.drop w.length = d ++ rest ↔ w <+:
    d ++ rest ∧ (rest = [] ∨ w.length = (d ++ rest).length) := by
  constructor
  · intro h
    refine ⟨⟨_, h⟩, ?_⟩
    have hlen := congrArg List.length h
    rw [length_append, length_drop, length_append] at hlen
    rcases Nat.lt_or_ge d.length w.length with hlt | hge
    · rw [length_append]
      omega
    · exact .inl (length_eq_zero_iff.mp (by omega))
  · rintro ⟨hw, rfl | hlen⟩
    · rw [append_nil] at hw ⊢
      exact (prefix_iff_eq_append.mp hw)
    · rw [hw.eq_of_length hlen, drop_eq_nil_of_le, append_nil]
      rw [length_append]
      exact Nat.le_add_right _ _

/-- What is written into the first part of a file makes it whole just when it is what the file has
there, and goes to its end unless the part was whole. -/
theorem writeAt_eq_iff {w part rest : Text} (hk : k ≤ part.length) :
    writeAt k w part = part ++ rest ↔
      w <+: (part ++ rest).drop k ∧ (rest = [] ∨ k + w.length = (part ++ rest).length) := by
  have hdrop : (part ++ rest).drop k = part.drop k ++ rest := drop_append_of_le_length hk
  have hsplit : part ++ rest = part.take k ++ (part.drop k ++ rest) := by
    rw [← append_assoc, take_append_drop]
  have hlen : (part.drop k ++ rest).length = (part ++ rest).length - k := by
    rw [← hdrop, length_drop]
  have hle : k ≤ (part ++ rest).length := by
    rw [length_append]
    omega
  rw [writeAt_of_le hk, hdrop]
  conv_lhs => rw [hsplit]
  have harith : w.length = (part ++ rest).length - k ↔
    k + w.length = (part ++ rest).length := by omega
  rw [append_cancel_left_eq, cover_iff, hlen, harith]

/-! ### What arrives -/

theorem received_lines (l : Text) : (receiveData (putLines l)).1 = dropNuls false l :=
  congrArg Prod.fst (getLines_putLines l).1

theorem recvrequest_lines (l : Text) : (recvrequest true true (putLines l)).1 = dropNuls false l :=
  congrArg Prod.fst (getLines_putLines l).1

theorem dropNuls_false_eq_iff (l : Text) : dropNuls false l = l ↔ ¬ [13, 0] <:+: l := by
  rw [dropNuls_eq_iff]
  exact ⟨fun h => h.2, fun h => ⟨fun hcr => Bool.false_ne_true hcr.1, h⟩⟩

theorem length_putLines_mono (file : Text) {j : ℕ} (h : j ≤ k) :
    (putLines (file.take j)).length ≤ (putLines (file.take k)).length := by
  have hj : (file.take k).take j = file.take j := by rw [take_take, min_eq_left h]
  rw [← hj]
  exact length_putLines_le (file.take k) j

theorem length_putLines_newline {i : ℕ} (h : file[i]? = some 10) :
    (putLines (file.take (i + 1))).length = (putLines (file.take i)).length + 2 := by
  rw [take_add_one, h, putLines_append, length_append]
  rfl

theorem length_putLines_eq_iff (l : Text) : (putLines l).length = l.length ↔ 10 ∉ l := by
  induction l with
  | nil => exact ⟨fun _ => not_mem_nil, fun _ => rfl⟩
  | cons c l ih =>
    have hle := le_length_putLines l
    rw [putLines, mem_cons, not_or, ← ih]
    split
    next hc =>
      simp only [length_cons]
      constructor
      · intro h
        omega
      · rintro ⟨h, -⟩
        exact absurd hc.symm h
    next hc =>
      simp only [length_cons]
      constructor
      · intro h
        exact ⟨fun h => hc h.symm, by omega⟩
      · rintro ⟨-, h⟩
        omega

/-- What the server writes of what the client sends from `restart` on. -/
def carried (type : Rep) (restart : ℕ) (fin : Text) : Text := received type (sent type restart fin)

theorem carried_lines (restart : ℕ) (fin : Text) :
    carried .A restart fin = dropNuls false (fin.drop restart) :=
  received_lines _

variable (type : Rep)

theorem length_carried_le (restart : ℕ) (fin : Text) :
    (carried type restart fin).length ≤ fin.length - restart := by
  cases type with
  | A =>
    rw [carried_lines, ← length_drop]
    exact length_dropNuls_le false _
  | I => exact le_of_eq length_drop
  | L => exact le_of_eq length_drop

variable (part : Text)

theorem length_le_sizecmd : part.length ≤ sizecmd type part := by
  cases type with
  | A =>
    rw [sizecmd, sizeLoop_eq]
    exact le_length_putLines part
  | I => exact le_rfl
  | L => exact le_rfl

theorem carried_eq_iff (rest : Text) :
    carried type (sizecmd type part) (part ++ rest) = rest ↔
      rest = [] ∨ (type = .A → 10 ∉ part ∧ ¬ [13, 0] <:+: rest) := by
  have hbytes : (part ++ rest).drop part.length = rest := drop_left
  cases type with
  | A =>
    have hsize : sizecmd .A part = (putLines part).length := sizeLoop_eq part
    rw [hsize]
    by_cases hnl : 10 ∈ part
    · have hlt : part.length < (putLines part).length :=
        lt_of_le_of_ne (le_length_putLines part) fun h =>
          (length_putLines_eq_iff part).mp h.symm hnl
      have hle := length_carried_le .A (putLines part).length (part ++ rest)
      rw [length_append] at hle
      constructor
      · intro h
        rw [h] at hle
        exact .inl (length_eq_zero_iff.mp (by omega))
      · rintro (rfl | h)
        · exact length_eq_zero_iff.mp (by rw [length_nil] at hle; omega)
        · exact absurd hnl (h rfl).1
    · rw [(length_putLines_eq_iff part).mpr hnl, carried_lines, hbytes, dropNuls_false_eq_iff]
      constructor
      · intro h
        exact .inr fun _ => ⟨hnl, h⟩
      · rintro (rfl | h)
        · intro h
          simp at h
        · exact (h rfl).2
  | I =>
    constructor
    · intro _
      exact .inr fun h => nomatch h
    · intro _
      exact hbytes
  | L =>
    constructor
    · intro _
      exact .inr fun h => nomatch h
    · intro _
      exact hbytes

/-! ### Sending -/

/-- When `put` and `append` make the file of the server whole. -/
def Puts (append : Bool) (type : Rep) (part rest : Text) : Prop :=
  (rest = [] ∨ (type = .A → 10 ∉ part ∧ ¬ [13, 0] <:+: rest)) ∧
    (sizecmd type part < 2 ^ 31 ∨ restartPoint (sizecmd type part) = 0 ∧ append = true ∨
      restartPoint (sizecmd type part) ≠ 0 ∧ rest = [])

theorem not_splits_length : ¬ Splits part (putLines part).length := by
  rintro ⟨a, b, rfl, hn⟩
  rw [putLines_append, length_append, putLines, if_pos rfl, length_cons, length_cons] at hn
  omega

variable (append : Bool)

theorem store_place_bytes {part : Text} (h : restartPoint part.length ≠ 0)
    (hneg : 0 ≤ restartPoint part.length) :
    ∃ k ≤ part.length, (part.length < 2 ^ 31 → k = part.length) ∧
      (2 ^ 31 ≤ part.length → k < part.length) ∧
      ∀ instr, store append .I (restartPoint part.length) instr part = writeAt k instr part := by
  have hle := restartPoint_le part.length
  refine ⟨(restartPoint part.length).toNat, by omega, fun hlt => ?_, fun hge => ?_, fun instr => ?_⟩
  · rw [restartPoint_eq hlt]
    rfl
  · rcases restartPoint_far hge with hn | hfar <;> omega
  · have hstore : store append .I (restartPoint part.length) instr part =
        if restartPoint part.length = 0 then if append then part ++ instr else instr
        else if restartPoint part.length < 0 then part
        else writeAt (restartPoint part.length).toNat instr part := rfl
    rw [hstore, if_neg h, if_neg (by omega)]

theorem store_place (type : Rep) {part : Text} (h : restartPoint (sizecmd type part) ≠ 0)
    (hneg : type = .A ∨ 0 ≤ restartPoint (sizecmd type part)) :
    ∃ k ≤ part.length, (sizecmd type part < 2 ^ 31 → k = part.length) ∧
      (2 ^ 31 ≤ sizecmd type part → k < part.length) ∧
      ∀ instr, store append type (restartPoint (sizecmd type part)) instr part =
        writeAt k (received type instr) part := by
  cases type with
  | A =>
    have hsize : sizecmd .A part = (putLines part).length := sizeLoop_eq part
    rw [hsize] at h ⊢
    have hle := restartPoint_le (putLines part).length
    obtain ⟨k, hk⟩ := Option.isSome_iff_exists.mp (skipLoop_isSome hle)
    obtain ⟨hkl, hzero, hpos⟩ := skipLoop_spec hk
    refine ⟨k, hkl, fun hlt => ?_, fun hge => ?_, fun instr => ?_⟩
    · rw [restartPoint_eq hlt] at hk
      have hexact := skipLoop_exact (not_splits_length part) hk
      refine length_putLines_inj hkl le_rfl ?_
      rw [hexact, take_length]
    · refine lt_of_le_of_ne hkl fun heq => ?_
      rw [heq, take_length] at hpos
      have hlen := length_putLines_le_two part
      rcases restartPoint_far hge with hneg | hfar
      · have hk0 := hzero (by omega)
        omega
      · rcases hpos (by omega) with hp | ⟨hp, -⟩ <;> omega
    · rw [store, if_neg h, hk]
  | I => exact store_place_bytes append h (hneg.resolve_left fun h => nomatch h)
  | L => exact store_place_bytes append h (hneg.resolve_left fun h => nomatch h)

theorem store_neg {type : Rep} (htype : type ≠ .A) (hr : r < 0) (instr file : Text) :
    store append type r instr file = file := by
  have hstore : store append .I r instr file = if r = 0 then if append then file ++ instr else instr
      else if r < 0 then file else writeAt r.toNat instr file := rfl
  cases type with
  | A => exact absurd rfl htype
  | I => rw [hstore, if_neg (by omega), if_pos hr]
  | L => exact hstore.trans (by rw [if_neg (by omega), if_pos hr])

theorem sizecmd_nil : sizecmd type [] = 0 := by
  cases type <;> rfl

theorem put_iff (type : Rep) (part rest : Text) :
    put append type (sizecmd type part) (part ++ rest) part = part ++ rest ↔
    Puts append type part rest := by
  have hw := carried_eq_iff type part rest
  have hwle := length_carried_le type (sizecmd type part) (part ++ rest)
  have hsize := length_le_sizecmd type part
  rw [length_append] at hwle
  rw [put, Puts]
  by_cases hzero : restartPoint (sizecmd type part) = 0
  · -- the server does not know of the restart point
    have hstore : store append type (restartPoint (sizecmd type part))
        (sent type (sizecmd type part) (part ++ rest)) part =
        if append then part ++ carried type (sizecmd type part) (part ++ rest)
        else carried type (sizecmd type part) (part ++ rest) := by
      unfold store
      rw [if_pos hzero]
      rfl
    rw [hstore, hw.symm]
    cases append with
    | true =>
      rw [if_pos rfl, append_cancel_left_eq]
      exact ⟨fun h => ⟨h, .inr (.inl ⟨hzero, rfl⟩)⟩, fun h => h.1⟩
    | false =>
      rw [if_neg Bool.false_ne_true]
      rcases Nat.lt_or_ge (sizecmd type part) (2 ^ 31) with hlt | hge
      · have hnil : part = [] := by
          rw [restartPoint_eq hlt] at hzero
          exact length_eq_zero_iff.mp (by omega)
        rw [hnil, nil_append]
        rw [hnil] at hlt
        exact ⟨fun h => ⟨h, .inl hlt⟩, fun h => h.1⟩
      · constructor
        · intro h
          have hlen := congrArg List.length h
          rw [length_append] at hlen
          have hpart : rest.length = 0 ∧ part.length = 0 := by omega
          rw [length_eq_zero_iff.mp hpart.2, sizecmd_nil] at hge
          omega
        · rintro ⟨-, hlt | ⟨-, h⟩ | ⟨h, -⟩⟩
          · omega
          · exact absurd h Bool.false_ne_true
          · exact absurd hzero h
  · by_cases hneg : type = .A ∨ 0 ≤ restartPoint (sizecmd type part)
    · obtain ⟨k, hkl, hlt, hge, hstore⟩ := store_place append type hzero hneg
      have hput : store append type (restartPoint (sizecmd type part))
          (sent type (sizecmd type part) (part ++ rest)) part =
          writeAt k (carried type (sizecmd type part) (part ++ rest)) part := hstore _
      rw [hput, writeAt_eq_iff hkl, ← hw, length_append]
      rcases Nat.lt_or_ge (sizecmd type part) (2 ^ 31) with hr | hr
      · rw [hlt hr, drop_left]
        constructor
        · rintro ⟨hpre, hend⟩
          refine ⟨hpre.eq_of_length ?_, .inl hr⟩
          have hlen := hpre.length_le
          rcases hend with rfl | hend
          · exact Nat.le_antisymm hlen (Nat.zero_le _)
          · omega
        · rintro ⟨h, -⟩
          rw [h]
          exact ⟨prefix_rfl, .inr rfl⟩
      · have hlast := hge hr
        have hnil : rest = [] → carried type (sizecmd type part) (part ++ rest) = [] := by
          intro h
          rw [h, length_nil] at hwle
          exact length_eq_zero_iff.mp (by rw [h]; omega)
        constructor
        · rintro ⟨-, hend⟩
          have hrest : rest = [] := hend.resolve_right (by omega)
          exact ⟨(hnil hrest).trans hrest.symm, .inr (.inr ⟨hzero, hrest⟩)⟩
        · rintro ⟨-, hlt' | ⟨h, -⟩ | ⟨-, hrest⟩⟩
          · omega
          · exact absurd h hzero
          · rw [hnil hrest]
            exact ⟨List.nil_prefix, .inl hrest⟩
    · -- the seek of the server fails
      rw [not_or, Int.not_le] at hneg
      rw [store_neg append hneg.1 hneg.2, self_eq_append_right]
      constructor
      · intro h
        exact ⟨.inl h, .inr (.inr ⟨hzero, h⟩)⟩
      · rintro ⟨-, hlt | ⟨h, -⟩ | ⟨-, h⟩⟩
        · have hpos := restartPoint_eq hlt
          omega
        · exact absurd h hzero
        · exact h

/-! ### Receiving -/

/-- The lines of the first `k` bytes of a file take `r` bytes, or one more, and those of fewer bytes
take less. -/
def LinesEnd (file : Text) (r : ℤ) (k : ℕ) : Prop :=
  r ≤ (putLines (file.take k)).length ∧ ∀ j < k, ((putLines (file.take j)).length : ℤ) < r

theorem LinesEnd.unique {j : ℕ} (hj : LinesEnd file r j) (hk : LinesEnd file r k) : j = k := by
  rcases Nat.lt_trichotomy j k with h | h | h
  · have hlt := hk.2 j h
    have hle := hj.1
    omega
  · exact h
  · have hlt := hj.2 k h
    have hle := hk.1
    omega

theorem linesEnd_of_skipLoop (h : skipLoop r file = some k) : LinesEnd file r k := by
  obtain ⟨hk, hzero, hpos⟩ := skipLoop_spec h
  rcases Int.lt_or_le 0 r with hr | hr
  · rcases hpos hr with heq | ⟨heq, i, hi, hlen, hl⟩
    · refine ⟨by omega, fun j hj => ?_⟩
      have hlt := length_putLines_lt hj hk
      omega
    · refine ⟨by omega, fun j hj => ?_⟩
      rcases Nat.lt_or_ge i j with hij | hij
      · -- there is no room for a place between the newline and the end
        have h2 := length_putLines_lt hj hk
        have hstep := length_putLines_newline hl
        have hle := length_putLines_mono file (show i + 1 ≤ j from hij)
        omega
      · have hle := length_putLines_mono file hij
        omega
  · obtain rfl := hzero hr
    refine ⟨?_, fun j hj => absurd hj (Nat.not_lt_zero j)⟩
    rw [take_zero]
    exact hr

theorem skipLoop_append {l : Text} (h : skipLoop r l = some k) (l' : Text) :
    skipLoop r (l ++ l') = some k := by
  induction l generalizing r k with
  | nil =>
    rw [skipLoop] at h
    split at h
    next hr =>
      cases h
      rw [nil_append]
      cases l' with
      | nil => rw [skipLoop, if_pos hr]
      | cons c l' => rw [skipLoop, if_pos hr]
    next => cases h
  | cons c l ih =>
    rw [skipLoop] at h
    rw [cons_append, skipLoop]
    split at h
    next hr =>
      rw [if_pos hr]
      exact h
    next hr =>
      obtain ⟨k', hk', rfl⟩ := Option.map_eq_some_iff.mp h
      rw [if_neg hr, ih hk', Option.map_some]

/-- When `reget` makes the file of the client whole. -/
def Regets (env : Env) (type : Rep) (part rest : Text) : Prop :=
  match type with
  | .A => ∀ k ≤ part.length, LinesEnd part (restartPoint part.length) k →
      env.start (part ++ rest) k = k ∧ ¬ [13, 0] <:+: (part ++ rest).drop k ∨
        rest = [] ∧ dropNuls false (part.drop (env.start part k)) <+: part.drop k
  | _ =>
    if 0 ≤ restartPoint part.length ∧
    env.maps (part ++ rest) (restartPoint part.length).toNat = true
      then part.length < 2 ^ 31 else rest = []

theorem reget_lines (env : Env) (part rest : Text) :
    reget env true .A (part ++ rest) part = part ++ rest ↔ Regets env .A part rest := by
  have hr := restartPoint_le part.length
  have hle := le_length_putLines part
  obtain ⟨k, hk⟩ := Option.isSome_iff_exists.mp
    (skipLoop_isSome (hr.trans (Int.ofNat_le.mpr hle)))
  have hkl := (skipLoop_spec hk).1
  have hend := linesEnd_of_skipLoop hk
  have hks : k ≤ (part ++ rest).length := by
    rw [length_append]
    omega
  have hstart :
      k ≤ env.start (part ++ rest) k ∧ env.start (part ++ rest) k ≤ (part ++ rest).length := by
    refine ⟨?_, start_le env hks⟩
    rw [Env.start]
    split
    · exact le_readAhead env hks
    · exact Nat.le_refl k
  have hreget : reget env true .A (part ++ rest) part =
      writeAt k (dropNuls false ((part ++ rest).drop (env.start (part ++ rest) k))) part := by
    rw [reget, retrieve_lines, skipLoop_append hk, Option.map_some, ← putLines_take_drop]
    dsimp only
    rw [hk, recvrequest_lines]
  have hw := length_dropNuls_le false ((part ++ rest).drop (env.start (part ++ rest) k))
  rw [length_drop] at hw
  rw [hreget, writeAt_eq_iff hkl]
  constructor
  · rintro ⟨hpre, hlast⟩ k' - hk'
    obtain rfl := hend.unique hk'
    rcases hlast with rfl | hlast
    · rw [append_nil] at hpre
      exact .inr ⟨rfl, hpre⟩
    · left
      have heq : env.start (part ++ rest) k = k := by omega
      rw [heq] at hpre
      refine ⟨heq, (dropNuls_false_eq_iff _).mp (hpre.eq_of_length ?_)⟩
      rw [heq] at hlast
      rw [length_drop]
      omega
  · intro h
    rcases h k hkl hend with ⟨heq, hnul⟩ | ⟨rfl, hpre⟩
    · rw [heq, (dropNuls_false_eq_iff _).mpr hnul, length_drop]
      exact ⟨prefix_rfl, .inr (by omega)⟩
    · rw [append_nil]
      exact ⟨hpre, .inl rfl⟩

theorem reget_bytes (env : Env) (part rest : Text) :
    reget env true .I (part ++ rest) part = part ++ rest ↔ Regets env .I part rest := by
  have hdrop : (part ++ rest).drop part.length = rest := drop_left
  have hwrite : ∀ w, writeAt part.length w part = part ++ rest ↔ w = rest := by
    intro w
    rw [writeAt_of_le le_rfl, take_length, drop_length, drop_nil, append_nil,
      append_cancel_left_eq]
  have hreget : reget env true .I (part ++ rest) part =
      if restartPoint part.length < 0 then part else writeAt part.length
        (if env.maps (part ++ rest) (restartPoint part.length).toNat
          then (part ++ rest).drop (restartPoint part.length).toNat else []) part := by
    rw [reget, retrieve_bytes]
    by_cases hneg : restartPoint part.length < 0
    · rw [if_pos hneg, if_pos hneg]
    · rw [if_neg hneg, if_neg hneg]
  have hregets : Regets env .I part rest ↔
      if 0 ≤ restartPoint part.length ∧
      env.maps (part ++ rest) (restartPoint part.length).toNat = true
        then part.length < 2 ^ 31 else rest = [] := Iff.rfl
  rw [hreget, hregets]
  rcases Int.lt_or_le (restartPoint part.length) 0 with hneg | hpos
  · rw [if_pos hneg, if_neg (by omega), self_eq_append_right]
  · rw [if_neg (by omega), hwrite]
    by_cases hmaps : env.maps (part ++ rest) (restartPoint part.length).toNat = true
    · rw [if_pos hmaps, if_pos ⟨hpos, hmaps⟩]
      rcases lt_or_ge part.length (2 ^ 31) with hlt | hge
      · rw [restartPoint_eq hlt, Int.toNat_natCast, hdrop]
        exact ⟨fun _ => hlt, fun _ => rfl⟩
      · rcases restartPoint_far hge with hneg | hfar
        · omega
        · constructor
          · intro h
            have hlen := congrArg List.length h
            rw [length_drop, length_append] at hlen
            omega
          · intro h
            omega
    · rw [if_neg hmaps, if_neg (fun h => hmaps h.2)]
      exact eq_comm

/-! ### The result -/

/-- **Restarted transfers.** The server has the first part of a file, or the client. `put` and
`append` from the byte where the part ends in the representation make the file whole just when
nothing is left, or the part of a text has one line; `reget` just when the server sends the rest
from where the client goes on. -/
theorem restarted_transfers (env : Env) (append : Bool) (type : Rep) (part rest : Text) :
    (put append type (sizecmd type part) (part ++ rest) part = part ++ rest ↔
      Puts append type part rest) ∧
      (reget env true type (part ++ rest) part = part ++ rest ↔ Regets env type part rest) := by
  refine ⟨put_iff append type part rest, ?_⟩
  cases type with
  | A => exact reget_lines env part rest
  | I => exact reget_bytes env part rest
  | L => exact reget_bytes env part rest

/-- The second of two lines: the client seeks to the byte after its first. -/
theorem second_line_not_put :
    ¬ ∀ (env : Env) (append : Bool) (type : Rep) (part rest : Text),
      put append type (sizecmd type part) (part ++ rest) part = part ++ rest ∧
        reget env true type (part ++ rest) part = part ++ rest := by
  intro h
  exact absurd (h paged false .A [97, 10] [98]).1 (by decide)

end Inetutils.Ftp.Restart
