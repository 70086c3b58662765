import Inetutils.Lib.Cells
import Inetutils.Lib.Decimal
import Inetutils.Lib.Strings

/-! # Unique names

`gunique` and the opening of the file in `store` of `ftpd/ftpd.c`, and `gunique` of `ftp/ftp.c`. The
string of the caller is a buffer, which the server cuts at the last slash and mends again. `malloc`
succeeds; to write outside of what it gives has no result. -/

namespace Inetutils.Ftpd.Gunique

open Lib.Cells Lib.Decimal Lib.Strings List Option

abbrev Text := List UInt8

/-- `stat`, and `errno` if it fails: ENOENT, or something else. -/
inductive Stat
  | found
  | absent
  | error
  deriving DecidableEq

/-- The files that there are; there is none without a name. -/
structure Files where
  stat : Text → Stat
  empty : stat [] ≠ .found

abbrev Name := { l : Text // 0 ∉ l }

section
variable (fs : Files)

/-! ### The server -/

inductive Reply
  | perror (code : ℕ) (name : Text)
  | reply (code : ℕ) (text : String)

/-- What `gunique` returns, the string of the caller afterwards, and what is replied. -/
structure Called where
  result : Option Text
  name : Text
  replies : List Reply

/-- The last place of `c`. -/
def strrchr (c : UInt8) : Text → Option ℕ
  | [] => none
  | a :: l =>
    match strrchr c l with
    | some i => some (i + 1)
    | none => if a = c then some 0 else none

/-- `for (count = 1; count < 100; count++)`, with `n` turns left. -/
def tries (string : Block UInt8) (cp : ℕ) : ℕ → ℕ → Option (Option Text)
  | 0, _ => some none
  | n + 1, count =>
    (fill string cp (decimal count ++ [0])).bind fun string =>
      (Lib.Cells.string 0 string).bind fun s =>
        if fs.stat s ≠ .found then some (some s) else tries string cp n (count + 1)

/-- `strcpy (new, local)` and the dot, in a block of `room` more bytes than the name has. -/
def dotted (name : Text) (room : ℕ) : Option (Block UInt8) :=
  (fill (alloc (name.length + room)) 0 (name ++ [0])).bind fun new => write new name.length 46

def gunique (name : Text) : Option Called :=
  let cp := strrchr 47 name
  let cut := cp.elim name fun i => name.set i 0
  let dir := cp.elim [46] fun _ => str 0 cut
  if fs.stat dir ≠ .found then some ⟨none, cut, [.perror 553 dir]⟩
  else
    let mended := cp.elim cut fun i => cut.set i 47
    (dotted (str 0 mended) 5).bind fun string =>
      (tries fs string ((str 0 mended).length + 1) 99 1).map fun r =>
        ⟨r, mended, r.elim [.reply 452 "Unique file name cannot be created."] fun _ => []⟩

/-- What `store` opens, in which mode, and the string of the caller afterwards. -/
structure Stored where
  opens : Option (Text × String)
  name : Text
  replies : List Reply

/-- `store`, up to `fopen`. -/
def store (unique restart : Bool) (mode : String) (name : Text) : Option Stored :=
  let mode' := if restart then "r+" else mode
  if unique ∧ fs.stat name = .found then
    (gunique fs name).map fun c => ⟨c.result.map fun s => (s, mode'), c.name, c.replies⟩
  else some ⟨some (name, mode'), name, []⟩

/-! ### The client -/

/-- `for (;;)`, with at most `n` turns. -/
def loop : ℕ → ℕ → UInt8 → ℕ → Block UInt8 → Option (Option Text)
  | 0, _, _, _, _ => none
  | n + 1, count, ext, cp, new =>
    if count + 1 = 100 then some none
    else
      (write new cp ext).bind fun new => (write new (cp + 1) 0).bind fun new =>
        let next := if ext = 57 then 48 else ext + 1
        (Lib.Cells.string 0 new).bind fun s =>
          match fs.stat s with
          | .absent => some (some s)
          | .error => some none
          | .found =>
            if next ≠ 48 then loop n (count + 1) next cp new
            else
              (fetch new (cp - 1)).bind fun d =>
                if d = 46 then (write new cp 49).bind (loop n (count + 1) next (cp + 1))
                else (write new (cp - 1) (d + 1)).bind (loop n (count + 1) next cp)

/-- `gunique` of the client, for at most `n` turns; it has a copy of the name. -/
def guniqueClient (n : ℕ) (name : Text) : Option (Option Text) :=
  (dotted name 5).bind (loop fs n 0 49 (name.length + 1))

/-! ### What is asked of them -/

def numbered (name : Text) (n : ℕ) : Text := name ++ 46 :: decimal n

def Free (name : Text) (n : ℕ) : Prop := fs.stat (numbered name n) ≠ .found

instance (name : Text) (n : ℕ) : Decidable (Free fs name n) := inferInstanceAs (Decidable (_ ≠ _))

def directory (name : Text) : Text :=
  match strrchr 47 name with
  | none => [46]
  | some 0 => [47]
  | some i => name.take i

/-- The directory cannot be examined, or not for one of the names. -/
def Unexamined (name : Text) : Prop :=
  fs.stat (directory name) ≠ .found ∨ ∃ n, 1 ≤ n ∧ n < 100 ∧ fs.stat (numbered name n) = .error

/-- The name that is chosen has the smallest number that is free. -/
def Chosen (name : Text) (result : Option Text) : Prop :=
  match result with
  | some s => ∃ n, 1 ≤ n ∧ n < 100 ∧ s = numbered name n ∧ Free fs name n ∧ ∀ m, 1 ≤ m → m < n →
    ¬ Free fs name m
  | none => (∀ n, 1 ≤ n → n < 100 → ¬ Free fs name n) ∨ Unexamined fs name

/-- The server: its `gunique`, and what `store` opens for STOU. -/
def RightServer (name : Text) : Prop :=
  (∃ c, gunique fs name = some c ∧ Chosen fs name c.result ∧ c.name = name) ∧
    ∀ restart, ∃ s, store fs true restart "w" name = some s ∧ s.name = name ∧
      ∀ o ∈ s.opens, fs.stat o.1 ≠ .found

def RightClient (name : Text) : Prop :=
  ∃ N r, (∀ n, N ≤ n → guniqueClient fs n name = some r) ∧ Chosen fs name r

/-- What is left of the name at its last slash is a directory that can be examined. -/
def Examined (name : Text) : Prop := ∀ i, strrchr 47 name = some i → fs.stat (name.take i) = .found

end

variable {fs : Files} {name : Text}

/-! ### The last slash -/

theorem strrchr_spec {c : UInt8} {i : ℕ} (h : strrchr c name = some i) :
    ∃ l r, name = l ++ c :: r ∧ l.length = i := by
  induction name generalizing i with
  | nil => cases h
  | cons a name ih =>
    rw [strrchr] at h
    rcases hlast : strrchr c name with - | j
    · rw [hlast] at h
      split_ifs at h with hac
      obtain rfl := some.inj h
      exact ⟨[], name, by rw [hac]; rfl, rfl⟩
    · rw [hlast] at h
      obtain rfl := some.inj h
      obtain ⟨l, r, rfl, rfl⟩ := ih hlast
      exact ⟨a :: l, r, rfl, rfl⟩

section
variable {i : ℕ} (h : strrchr 47 name = some i)
include h

theorem str_cut (h0 : 0 ∉ name) : str 0 (name.set i 0) = name.take i := by
  obtain ⟨l, r, rfl, rfl⟩ := strrchr_spec h
  have hl : ∀ b ∈ l, b ≠ 0 := fun b hb => ne_of_mem_of_not_mem (mem_append_left _ hb) h0
  rw [set_append_right _ _ le_rfl, Nat.sub_self, set_cons_zero, str_append hl,
    str_of_head (by rintro b ⟨⟩; rfl), append_nil, take_left']
  rfl

theorem set_mended : (name.set i 0).set i 47 = name := by
  obtain ⟨l, r, rfl, rfl⟩ := strrchr_spec h
  rw [set_set, set_append_right _ _ le_rfl, Nat.sub_self, set_cons_zero]

theorem set_ne : name.set i 0 ≠ name := by
  obtain ⟨l, r, rfl, rfl⟩ := strrchr_spec h
  rw [set_append_right _ _ le_rfl, Nat.sub_self, set_cons_zero]
  intro heq
  cases (List.cons.inj (append_cancel_left heq)).1

end

theorem str_self (h0 : 0 ∉ name) : str 0 name = name := by
  have happ :=
    str_append (z := (0 : UInt8)) (fun b hb => ne_of_mem_of_not_mem hb h0) ([] : List UInt8)
  have hnil : str 0 ([] : List UInt8) = [] := rfl
  rwa [append_nil, hnil, append_nil] at happ

/-! ### The numbers -/

theorem zero_not_mem_decimal (n : ℕ) : 0 ∉ decimal n :=
  fun h => absurd (isDigit_of_mem_decimal n 0 h) (by decide)

theorem zero_not_mem_numbered (h0 : 0 ∉ name) (n : ℕ) : 0 ∉ numbered name n := by
  unfold numbered
  rw [mem_append, mem_cons, not_or, not_or]
  exact ⟨h0, by decide, zero_not_mem_decimal n⟩

theorem length_decimal_le {n : ℕ} (h : n < 100) : (decimal n).length ≤ 2 := by
  rcases lt_or_ge n 10 with hlt | hge
  · rw [decimal_of_lt hlt]
    exact Nat.le_succ 1
  · rw [decimal_of_le hge, decimal_of_lt (show n / 10 < 10 by omega)]
    exact Nat.le_refl 2

/-- The smallest number, from `count` on, that is free; there are `n` to try. -/
def first (fs : Files) (name : Text) (count n : ℕ) : Option ℕ :=
  (List.range' count n).find? fun k => Free fs name k

theorem first_succ (count n : ℕ) :
    first fs name count (n + 1) = if Free fs name count then some count
      else first fs name (count + 1) n := by
  unfold first
  rw [range'_succ, find?_cons]
  by_cases hfree : Free fs name count
  · rw [if_pos hfree, decide_eq_true hfree]
  · rw [if_neg hfree, decide_eq_false hfree]

theorem chosen_first : Chosen fs name ((first fs name 1 99).map (numbered name)) := by
  unfold first
  rcases hfirst : (List.range' 1 99).find? fun k => Free fs name k with - | k
  · rw [find?_range'_eq_none] at hfirst
    refine .inl fun n h1 h100 hfree => ?_
    have hnot := hfirst n h1 (by omega)
    rw [decide_eq_true hfree] at hnot
    cases hnot
  · rw [find?_range'_eq_some] at hfirst
    obtain ⟨hfree, hmem, hmin⟩ := hfirst
    rw [mem_range'_1] at hmem
    refine ⟨k, hmem.1, hmem.2, rfl, of_decide_eq_true hfree, fun m h1 hlt hfree' => ?_⟩
    have hnot := hmin m h1 hlt
    rw [decide_eq_true hfree'] at hnot
    cases hnot

/-! ### The server -/

theorem dotted_eq (name : Text) (room : ℕ) :
    dotted name (room + 2) = some ((name ++ [46]).map some ++ alloc (room + 1)) := by
  have hfill : fill (alloc (name.length + (room + 2))) 0 (name ++ [0]) =
      some (name.map some ++ some 0 :: alloc (room + 1)) := by
    rw [fill_alloc, length_append, length_singleton, if_pos (by omega), map_append, append_assoc,
      show name.length + (room + 2) - (name.length + 1) = room + 1 by omega]
    rfl
  unfold dotted
  rw [hfill, bind_some, write_append]

theorem tries_eq (h0 : 0 ∉ name) (n count : ℕ) (hn : count + n ≤ 100) {r : Block UInt8}
    (hr : 3 ≤ r.length) :
    tries fs ((name ++ [46]).map some ++ r) (name.length + 1) n count =
      some ((first fs name count n).map (numbered name)) := by
  induction n generalizing count r with
  | zero => rfl
  | succ n ih =>
    have hlen := length_decimal_le (n := count) (by omega)
    have hfill : fill ((name ++ [46]).map some ++ r) (name.length + 1) (decimal count ++ [0]) =
        some ((name ++ [46]).map some ++ (decimal count ++ [0]).map some ++
          r.drop ((decimal count).length + 1)) := by
      have hl : (List.map some (name ++ [46])).length = name.length + 1 := by
        rw [length_map, length_append, length_singleton]
      have hd : (decimal count ++ [0]).length = (decimal count).length + 1 := length_append
      have hb : (List.map some (name ++ [46]) ++ r).length = name.length + 1 + r.length := by
        rw [length_append, hl]
      rw [fill_eq (by rw [hb]; omega), hd, hb, if_pos (by omega), take_left' hl, ← drop_drop,
        drop_left' hl]
    have hstring : Lib.Cells.string 0 ((name ++ [46]).map some ++ (decimal count ++ [0]).map some ++
        r.drop ((decimal count).length + 1)) = some (numbered name count) := by
      have happ :=
        string_append (zero_not_mem_numbered h0 count) (r.drop ((decimal count).length + 1))
      rw [← happ]
      unfold numbered
      simp only [map_append, map_cons, map_nil, append_assoc, cons_append, nil_append]
    rw [tries, hfill, bind_some, hstring, bind_some, first_succ]
    by_cases hfree : Free fs name count
    · rw [if_pos hfree]
      exact if_pos hfree
    · rw [if_neg hfree, append_assoc]
      refine (if_neg hfree).trans (ih (count + 1) (by omega) ?_)
      rw [length_append, length_map, length_append, length_singleton, length_drop]
      omega

theorem gunique_eq (h0 : 0 ∉ name) :
    gunique fs name =
      if fs.stat ((strrchr 47 name).elim [46] name.take) ≠ .found then
        some ⟨none, (strrchr 47 name).elim name fun i => name.set i 0,
          [.perror 553 ((strrchr 47 name).elim [46] name.take)]⟩
      else
        some ⟨(first fs name 1 99).map (numbered name), name,
          ((first fs name 1 99).map (numbered name)).elim
          [.reply 452 "Unique file name cannot be created."] fun _ => []⟩ := by
  have htries : tries fs ((name ++ [46]).map some ++ alloc 4) (name.length + 1) 99 1 =
      some ((first fs name 1 99).map (numbered name)) :=
    tries_eq h0 99 1 le_rfl (by rw [length_alloc]; omega)
  have hrest :
      ((dotted name 5).bind fun string => (tries fs string (name.length + 1) 99 1).map fun r =>
      (⟨r, name, r.elim [.reply 452 "Unique file name cannot be created."] fun _ => []⟩ : Called)) =
      some ⟨(first fs name 1 99).map (numbered name), name,
          ((first fs name 1 99).map (numbered name)).elim
          [.reply 452 "Unique file name cannot be created."] fun _ => []⟩ := by
    rw [dotted_eq, bind_some, htries, map_some]
  unfold gunique
  rcases hslash : strrchr 47 name with - | i
  · simp only [elim_none, str_self h0]
    exact if_congr Iff.rfl rfl hrest
  · simp only [elim_some, str_cut hslash h0, set_mended hslash, str_self h0]
    exact if_congr Iff.rfl rfl hrest

theorem rightServer_iff (h0 : 0 ∉ name) : RightServer fs name ↔ Examined fs name := by
  have hgunique := @gunique_eq fs name h0
  constructor
  · rintro ⟨⟨c, hc, -, hname⟩, -⟩ i hi
    by_contra hnot
    rw [hi, elim_some, if_pos hnot, hc] at hgunique
    obtain rfl := some.inj hgunique
    exact set_ne hi hname
  · intro hexam
    have hname : ∃ r, gunique fs name = some r ∧ Chosen fs name r.result ∧ r.name = name ∧
        ∀ s, r.result = some s → fs.stat s ≠ .found := by
      by_cases hdir : fs.stat ((strrchr 47 name).elim [46] name.take) ≠ .found
      · -- the name has no slash, and the working directory cannot be examined
        have hslash : strrchr 47 name = none := by
          rcases hi : strrchr 47 name with - | i
          · rfl
          · rw [hi] at hdir
            exact absurd (hexam i hi) hdir
        rw [hslash] at hgunique hdir
        rw [if_pos hdir] at hgunique
        refine ⟨_, hgunique, .inr (.inl ?_), rfl, nofun⟩
        unfold directory
        rw [hslash]
        exact hdir
      · rw [if_neg hdir] at hgunique
        have hchosen := @chosen_first fs name
        refine ⟨_, hgunique, hchosen, rfl, fun s hs => ?_⟩
        dsimp only at hs
        rw [hs] at hchosen
        obtain ⟨n, -, -, rfl, hfree, -⟩ := hchosen
        exact hfree
    obtain ⟨r, hr, hchosen, hsame, hfree⟩ := hname
    refine ⟨⟨r, hr, hchosen, hsame⟩, fun restart => ?_⟩
    unfold store
    by_cases hfound : fs.stat name = .found
    · refine ⟨_, by rw [if_pos ⟨rfl, hfound⟩, hr]; rfl, hsame, fun o ho => ?_⟩
      obtain ⟨s, hs, rfl⟩ := map_eq_some_iff.1 ho
      exact hfree s hs
    · refine ⟨_, if_neg fun h => hfound h.2, rfl, fun o ho => ?_⟩
      obtain rfl := some.inj ho
      exact hfound

/-! ### The client -/

/-- The digits of a number below 100: what stands before the last one, and that. -/
def tens (n : ℕ) : Text := if n < 10 then [] else [48 + (n / 10).toUInt8]

def units (n : ℕ) : UInt8 := 48 + (n % 10).toUInt8

theorem decimal_eq : ∀ n < 100, decimal n = tens n ++ [units n] := by decide +kernel

theorem count_succ : ∀ n < 100, (if units n = 57 then 48 else units n + 1) = units (n + 1) ∧
    (units (n + 1) ≠ 48 → tens (n + 1) = tens n) ∧
    (units (n + 1) = 48 → tens n = [] → tens (n + 1) = [49]) ∧
    (tens n).all (fun d => d ≠ 46 ∧ (units (n + 1) = 48 → tens (n + 1) = [d + 1])) =
    true := by decide +kernel

theorem length_tens_le (n : ℕ) : (tens n).length ≤ 1 := by
  unfold tens
  split
  · exact Nat.zero_le 1
  · exact Nat.le_refl 1

/-- What the client finds, from `count` on. -/
def foundFrom (fs : Files) (name : Text) (count n : ℕ) : Option Text :=
  ((first fs name count n).filter fun k => fs.stat (numbered name k) = .absent).map (numbered name)

theorem foundFrom_succ (count n : ℕ) :
    foundFrom fs name count (n + 1) =
      match fs.stat (numbered name count) with
      | .absent => some (numbered name count)
      | .error => none
      | .found => foundFrom fs name (count + 1) n := by
  unfold foundFrom
  rw [first_succ]
  by_cases hfree : Free fs name count
  · rw [if_pos hfree]
    rcases hstat : fs.stat (numbered name count)
    · exact absurd hstat hfree
    · have hkeep : decide (fs.stat (numbered name count) = .absent) = true := decide_eq_true hstat
      rw [filter_some, if_pos hkeep]
      rfl
    · have hdrop : ¬ decide (fs.stat (numbered name count) = .absent) = true := by
        rw [hstat]
        decide
      rw [filter_some, if_neg hdrop]
      rfl
  · have hstat : fs.stat (numbered name count) = .found := not_not.1 hfree
    rw [if_neg hfree, hstat]

theorem loop_eq (h0 : 0 ∉ name) {n c m : ℕ} (hc : c + 1 + n = 100) (hm : n < m) {r : Block UInt8}
    (hr : (tens (c + 1)).length + r.length = 4) :
    loop fs m c (units (c + 1)) (name ++ 46 :: tens (c + 1)).length
    ((name ++ 46 :: tens (c + 1)).map some ++ r) = some (foundFrom fs name (c + 1) n) := by
  induction n generalizing c m r with
  | zero =>
    obtain ⟨m, rfl⟩ := Nat.exists_eq_succ_of_ne_zero (Nat.ne_of_gt hm)
    exact if_pos hc
  | succ n ih =>
    obtain ⟨m, rfl⟩ := Nat.exists_eq_succ_of_ne_zero (Nat.ne_of_gt (Nat.zero_lt_of_lt hm))
    obtain ⟨x, y, r, rfl⟩ : ∃ x y r', r = x :: y :: r' := by
      have htens := length_tens_le (c + 1)
      rcases r with - | ⟨x, - | ⟨y, r⟩⟩
      · simp only [length_nil] at hr
        omega
      · simp only [length_cons, length_nil] at hr
        omega
      · exact ⟨x, y, r, rfl⟩
    have hnumbered : numbered name (c + 1) = (name ++ 46 :: tens (c + 1)) ++ [units (c + 1)] := by
      unfold numbered
      rw [decimal_eq (c + 1) (by omega), append_assoc, cons_append]
    have hlen : (numbered name (c + 1)).length = (name ++ 46 :: tens (c + 1)).length + 1 := by
      rw [hnumbered, length_append, length_singleton]
    have hstring : Lib.Cells.string 0 ((numbered name (c + 1) ++ [0]).map some ++ r) =
      some (numbered name (c + 1)) := by
      rw [map_append, append_assoc]
      exact string_append (zero_not_mem_numbered h0 _) r
    rw [loop, if_neg (by omega), write_append, bind_some, ← hnumbered, ← hlen,
      write_append, bind_some]
    rw [hstring, bind_some, foundFrom_succ]
    rcases fs.stat (numbered name (c + 1))
    · obtain ⟨hnext, hsame, hten, hdigit⟩ := count_succ (c + 1) (by omega)
      rw [hnext]
      by_cases hsame' : units (c + 1 + 1) ≠ 48
      · -- the last digit is counted up
        rw [if_pos hsame']
        have htens := hsame hsame'
        have hnew : (numbered name (c + 1) ++ [0]).map some ++ r =
            (name ++ 46 :: tens (c + 1 + 1)).map some ++ some (units (c + 1)) :: some 0 :: r := by
          rw [hnumbered, htens]
          simp only [map_append, append_assoc, map_cons, map_nil, cons_append, nil_append]
        rw [hnew, ← htens]
        refine ih (by omega) (by omega) ?_
        rw [htens]
        simpa only [length_cons] using hr
      · have h48 := not_not.1 hsame'
        rw [if_neg hsame']
        rcases htens : tens (c + 1) with - | ⟨d, l⟩
        · -- from 9 to 10: the digit becomes the first of two
          have hnew : (numbered name (c + 1) ++ [0]).map some ++ r =
              (name ++ [46]).map some ++ some (units (c + 1)) :: some 0 :: r := by
            rw [hnumbered, htens]
            simp only [map_append, append_assoc, map_cons, map_nil, cons_append, nil_append]
          have hnext : tens (c + 1 + 1) = [49] := hten h48 htens
          have hdot : fetch ((name ++ [46]).map some ++ some (units (c + 1)) :: some 0 :: r)
              ((name ++ [46]).length - 1) = some 46 := by
            unfold fetch
            rw [length_append, length_singleton, Nat.add_sub_cancel, map_append, append_assoc,
              getElem?_append_right (Nat.le_of_eq (length_map _)), length_map, Nat.sub_self]
            rfl
          rw [hnew, hdot, bind_some, if_pos rfl, write_append, bind_some, append_assoc]
          have hgo := ih (c := c + 1) (m := m) (by omega) (by omega) (r := some 0 :: r) (by
            rw [hnext, length_singleton]
            rw [htens, length_nil] at hr
            simp only [length_cons] at hr ⊢
            omega)
          have hpos : (numbered name (c + 1)).length = (name ++ [46, 49]).length := by
            rw [hlen, htens]
            simp only [length_append, length_cons, length_nil]
          rw [hnext] at hgo
          rw [hpos]
          exact hgo
        · -- a new first digit
          obtain rfl : l = [] := by
            have hle := length_tens_le (c + 1)
            rw [htens, length_cons] at hle
            exact length_eq_zero_iff.1 (by omega)
          have hnew : (numbered name (c + 1) ++ [0]).map some ++ r =
              (name ++ [46]).map some ++ some d :: some (units (c + 1)) :: some 0 :: r := by
            rw [hnumbered, htens]
            simp only [map_append, append_assoc, map_cons, map_nil, cons_append, nil_append]
          obtain ⟨hne, hcarry⟩ :=
            of_decide_eq_true (all_eq_true.1 hdigit d (by rw [htens]; exact mem_singleton_self d))
          have hnext : tens (c + 1 + 1) = [d + 1] := hcarry h48
          have hlen' : (name ++ [46, d]).length - 1 = (name ++ [46]).length := by
            simp only [length_append, length_cons, length_nil]
            omega
          have hget :
              fetch ((name ++ [46]).map some ++ some d :: some (units (c + 1)) :: some 0 :: r)
              (name ++ [46]).length = some d := by
            unfold fetch
            rw [getElem?_append_right (Nat.le_of_eq (length_map _)), length_map, Nat.sub_self]
            rfl
          rw [hnew, hlen', hget, bind_some, if_neg hne, write_append, bind_some, append_assoc]
          have hgo :=
            ih (c := c + 1) (m := m) (by omega) (by omega)
            (r := some (units (c + 1)) :: some 0 :: r) (by
            rw [hnext]
            rw [htens] at hr
            simpa only [length_cons] using hr)
          rw [hnext, length_append] at hgo
          rw [length_append]
          exact hgo
    · rfl
    · rfl

theorem chosen_foundFrom : Chosen fs name (foundFrom fs name 1 99) := by
  have hchosen := @chosen_first fs name
  unfold foundFrom
  rcases hfirst : first fs name 1 99 with - | k
  · rw [hfirst] at hchosen
    exact hchosen
  rw [hfirst] at hchosen
  by_cases hstat : fs.stat (numbered name k) = .absent
  · have hkeep : decide (fs.stat (numbered name k) = .absent) = true := decide_eq_true hstat
    rw [filter_some, if_pos hkeep]
    exact hchosen
  · have hdrop : ¬ decide (fs.stat (numbered name k) = .absent) = true :=
      fun h => hstat (of_decide_eq_true h)
    rw [filter_some, if_neg hdrop]
    unfold first at hfirst
    rw [find?_range'_eq_some] at hfirst
    obtain ⟨hfree, hmem, -⟩ := hfirst
    rw [mem_range'_1] at hmem
    refine .inr (.inr ⟨k, hmem.1, hmem.2, ?_⟩)
    rcases hk : fs.stat (numbered name k)
    · exact absurd hk (of_decide_eq_true hfree)
    · exact absurd hk hstat
    · rfl

theorem rightClient (h0 : 0 ∉ name) : RightClient fs name := by
  refine ⟨100, _, fun n hn => ?_, chosen_foundFrom⟩
  have hloop : loop fs n 0 (units (0 + 1)) (name ++ 46 :: tens (0 + 1)).length
      ((name ++ 46 :: tens (0 + 1)).map some ++ alloc 4) = some (foundFrom fs name (0 + 1) 99) :=
    loop_eq h0 rfl hn (by rw [length_alloc]; rfl)
  unfold guniqueClient
  rw [dotted_eq, bind_some, ← hloop, show tens (0 + 1) = [] from rfl, length_append,
    length_singleton]
  rfl

/-- **When both do what they should.** -/
theorem unique_iff (fs : Files) (name : Name) :
    RightServer fs name.1 ∧ RightClient fs name.1 ↔ Examined fs name.1 := by
  rw [rightServer_iff name.2, and_iff_left (rightClient name.2)]

/-- A file in the root directory, which is the only one there is. -/
def rootFile : Files where
  stat l := if l = [47, 120] ∨ l = [47] then .found else .absent
  empty := by decide

theorem not_right_root : ¬ ∀ (fs : Files) (name : Name), fs.stat name.1 = .found →
    RightServer fs name.1 ∧ RightClient fs name.1 := by
  intro h
  have hright := (h rootFile ⟨[47, 120], by decide⟩ rfl).1
  have hexam := (rightServer_iff (by decide)).1 hright
  exact absurd (hexam 0 rfl) (by decide)

end Inetutils.Ftpd.Gunique
