import Inetutils.Lib.Letters
import Inetutils.Lib.Strings
import Inetutils.Lib.Traced
import Inetutils.Tftp.Proto

/-! # The request that `tftpd` reads

`tftp` of `src/tftpd.c`, as far as `f_validate`. The memory from `buf` on is a function of the
place; a datagram of `n` bytes is in its first `n` places (`memory`), and what stands behind is what
was there before.

The loop over a string stops at the end of the datagram, and the byte that is tested after it is
read all the same.

* `IsRequest l`: a filename and a mode, each with its NUL. -/

namespace Inetutils.Tftp.Request

open Lib.Letters Lib.Strings Lib.Traced Proto List

variable {s : List Byte}

abbrev Memory := ℕ → Byte

/-- `struct formats`, with what is looked at here. -/
structure Format where
  mode : List Byte
  convert : Bool
  deriving DecidableEq

def netascii : List Byte := [110, 101, 116, 97, 115, 99, 105, 105]

def octet : List Byte := [111, 99, 116, 101, 116]

def formats : List Format := [⟨netascii, true⟩, ⟨octet, false⟩]

inductive Step
  | read (i : ℕ)
  | write (i : ℕ)
  /-- `nak (EBADOP)`, and the process ends. -/
  | nak
  /-- `f_validate` is called. -/
  | validate (pf : Format)
  /-- A loop has not come to its end. -/
  | spin
  deriving DecidableEq

abbrev Run := Prog Step

def load (mem : Memory) (i : ℕ) : Run Byte := do
  emit (.read i)
  pure (mem i)

/-- The loop from `again` on, with `room` places to the end of the datagram. -/
def scan (mem : Memory) : ℕ → ℕ → Run ℕ
  | 0, cp => pure cp
  | room + 1, cp => do
    let c ← load mem cp
    if c = 0 then pure cp else scan mem room (cp + 1)

def again (mem : Memory) (size cp : ℕ) : Run ℕ := do
  let cp ← scan mem (size - cp) cp
  let c ← load mem cp
  if c = 0 then pure cp
  else do
    emit .nak
    stop

def lower (mem : Memory) : ℕ → ℕ → Run Memory
  | 0, _ => do
    emit .spin
    stop
  | fuel + 1, cp => do
    let c ← load mem cp
    if c = 0 then pure mem
    else if isupper c then do
      emit (.write cp)
      lower (Function.update mem cp (tolower c)) fuel (cp + 1)
    else lower mem fuel (cp + 1)

/-- `strcmp (s, mode) == 0` -/
def strcmp (mem : Memory) : List Byte → ℕ → Run Bool
  | [], i => do
    let c ← load mem i
    pure (c == 0)
  | b :: s, i => do
    let c ← load mem i
    if c = b then strcmp mem s (i + 1) else pure false

def findFormat (mem : Memory) (mode : ℕ) : List Format → Run (Option Format)
  | [] => pure none
  | pf :: pfs => do
    if ← strcmp mem pf.mode mode then pure (some pf) else findFormat mem mode pfs

/-- `mode` is the place behind the first NUL. The loop over it stops at the NUL that was found, so
it has as many rounds as there are bytes. -/
def tftp (mem : Memory) (size : ℕ) : Run Unit := do
  let cp ← again mem size 2
  let cp' ← again mem size (cp + 1)
  let mem ← lower mem (cp' - cp) (cp + 1)
  match ← findFormat mem (cp + 1) formats with
  | some pf => emit (.validate pf)
  | none => do
    emit .nak
    stop

/-- A datagram is read into `buf`. -/
def memory (d : List Byte) (old : Memory) : Memory := fun i => d.getD i (old i)

/-! ### What is asked of it -/

/-- A filename and a mode, each with its NUL; upper and lower case are one in the mode. -/
def IsRequest (l : List Byte) : Prop :=
  ∃ filename mode rest, l = filename ++ 0 :: (mode ++ 0 :: rest) ∧ 0 ∉ filename ∧ 0 ∉ mode ∧
    (mode.map tolower = netascii ∨ mode.map tolower = octet)

def Accepts (mem : Memory) (size : ℕ) : Prop := ∃ pf, Step.validate pf ∈ (tftp mem size).trace

/-- No place from `size` on is read. -/
def ReadsInside (mem : Memory) (size : ℕ) : Prop :=
  ∀ i, Step.read i ∈ (tftp mem size).trace → i < size

/-- The datagrams accepted are the requests, and nothing behind the datagram is read. -/
def Exact (d : List Byte) (old : Memory) : Prop :=
  (Accepts (memory d old) d.length ↔ IsRequest (d.drop 2)) ∧ ReadsInside (memory d old) d.length

/-! ### Strings in memory -/

/-- The bytes `l` stand at `cp`. -/
def At (mem : Memory) (cp : ℕ) (l : List Byte) : Prop := ∀ i (h : i < l.length), mem (cp + i) = l[i]

variable {mem : Memory} {cp : ℕ} {l : List Byte} {size : ℕ}

theorem at_cons {b : Byte} : At mem cp (b :: l) ↔ mem cp = b ∧ At mem (cp + 1) l := by
  constructor
  · intro h
    refine ⟨h 0 (Nat.succ_pos _), fun i hi => ?_⟩
    have hget := h (i + 1) (Nat.succ_lt_succ hi)
    rw [← Nat.add_assoc, Nat.add_right_comm] at hget
    exact hget
  · rintro ⟨hb, hl⟩ (_ | i) hi
    · exact hb
    · rw [← Nat.add_assoc, Nat.add_right_comm]
      exact hl i (Nat.lt_of_succ_lt_succ hi)

theorem at_append {l' : List Byte} :
    At mem cp (l ++ l') ↔ At mem cp l ∧ At mem (cp + l.length) l' := by
  induction l generalizing cp with
  | nil => simp [At]
  | cons b l ih =>
    rw [cons_append, at_cons, at_cons, ih, and_assoc, length_cons, Nat.add_assoc, Nat.add_comm 1]

theorem at_memory (d : List Byte) (old : Memory) (k : ℕ) : At (memory d old) k (d.drop k) := by
  intro i hi
  rw [length_drop] at hi
  have hlt : k + i < d.length := by omega
  rw [memory, getD_eq_getElem?_getD, getElem?_eq_getElem hlt, getElem_drop]
  rfl

/-! ### The loops on a string -/

/-- Nothing is decided, and no place from `size` on is touched. -/
def Quiet (size : ℕ) : Step → Prop
  | .read i => i < size
  | .write i => i < size
  | _ => False

theorem load_eq (mem : Memory) (i : ℕ) : load mem i = ⟨[.read i], some (mem i)⟩ := rfl

theorem scan_str (hs : 0 ∉ s) (hat : At mem cp (s ++ [0])) {room : ℕ} (hroom : s.length < room) :
    ∃ tr, scan mem room cp = ⟨tr, some (cp + s.length)⟩ ∧ ∀ x ∈ tr,
    Quiet (cp + s.length + 1) x := by
  induction s generalizing cp room with
  | nil =>
    obtain ⟨room, rfl⟩ : ∃ r, room = r + 1 := ⟨room - 1, by simp at hroom; omega⟩
    have h0 : mem cp = 0 := (at_cons.1 hat).1
    refine ⟨[.read cp], ?_, ?_⟩
    · rw [scan, load_eq, bind_of_some rfl, h0, if_pos rfl]
      rfl
    · intro x hx
      rw [mem_singleton.1 hx]
      exact Nat.lt_succ_self cp
  | cons b s ih =>
    rw [length_cons] at hroom
    obtain ⟨room, rfl⟩ : ∃ r, room = r + 1 := ⟨room - 1, by omega⟩
    rw [cons_append, at_cons] at hat
    rw [mem_cons, not_or] at hs
    obtain ⟨tr, htr, hq⟩ := ih hs.2 hat.2 (by omega : s.length < room)
    have hb : ¬ mem cp = 0 := by
      rw [hat.1]
      exact Ne.symm hs.1
    refine ⟨.read cp :: tr, ?_, ?_⟩
    · rw [scan, load_eq, bind_of_some rfl, if_neg hb, htr, length_cons]
      simp [Nat.add_assoc, Nat.add_comm 1]
    · have heq : cp + 1 + s.length + 1 = cp + (b :: s).length + 1 := by
        rw [length_cons]
        omega
      rw [heq] at hq
      intro x hx
      rcases mem_cons.1 hx with rfl | hx
      · change cp < cp + (b :: s).length + 1
        omega
      · exact hq x hx

theorem scan_all (hs : 0 ∉ s) (hat : At mem cp s) :
    (scan mem s.length cp).value = some (cp + s.length) := by
  induction s generalizing cp with
  | nil => rfl
  | cons b s ih =>
    rw [at_cons] at hat
    rw [mem_cons, not_or] at hs
    have hb : ¬ mem cp = 0 := by
      rw [hat.1]
      exact Ne.symm hs.1
    rw [length_cons, scan, load_eq, bind_of_some rfl, if_neg hb, ih hs.2 hat.2, Nat.add_assoc,
      Nat.add_comm 1]

theorem again_str (hs : 0 ∉ s) (hat : At mem cp (s ++ [0])) (hsize : cp + s.length < size) :
    ∃ tr, again mem size cp = ⟨tr, some (cp + s.length)⟩ ∧ ∀ x ∈ tr,
    Quiet (cp + s.length + 1) x := by
  obtain ⟨tr, htr, hq⟩ := scan_str hs hat (by omega : s.length < size - cp)
  have h0 : mem (cp + s.length) = 0 := (at_cons.1 (at_append.1 hat).2).1
  refine ⟨tr ++ [.read (cp + s.length)], ?_, ?_⟩
  · rw [again, htr, bind_of_some rfl, load_eq, bind_of_some rfl, if_pos h0]
    rfl
  · intro x hx
    rcases mem_append.1 hx with hx | hx
    · exact hq x hx
    · rw [mem_singleton.1 hx]
      exact Nat.lt_succ_self _

theorem read_mem_again {e : ℕ} (h : (scan mem (size - cp) cp).value = some e) :
    .read e ∈ (again mem size cp).trace := by
  rw [again, bind_of_some h, load_eq, bind_of_some rfl]
  exact mem_append_right _ (mem_append_left _ (mem_singleton_self _))

theorem lower_str (hs : 0 ∉ s) (hat : At mem cp (s ++ [0])) :
    ∃ tr mem', lower mem (s.length + 1) cp = ⟨tr, some mem'⟩ ∧
    (∀ x ∈ tr, Quiet (cp + s.length + 1) x) ∧
      At mem' cp (s.map tolower ++ [0]) ∧ ∀ i < cp, mem' i = mem i := by
  induction s generalizing cp mem with
  | nil =>
    have h0 : mem cp = 0 := (at_cons.1 hat).1
    refine ⟨[.read cp], mem, ?_, ?_, hat, fun _ _ => rfl⟩
    · rw [length_nil, lower, load_eq, bind_of_some rfl, if_pos h0]
      rfl
    · intro x hx
      rw [mem_singleton.1 hx]
      exact Nat.lt_succ_self cp
  | cons b s ih =>
    rw [cons_append, at_cons] at hat
    rw [mem_cons, not_or] at hs
    have hb : ¬ mem cp = 0 := by
      rw [hat.1]
      exact Ne.symm hs.1
    have hread : Quiet (cp + (b :: s).length + 1) (.read cp) := by
      change cp < cp + (b :: s).length + 1
      omega
    have hwrite : Quiet (cp + (b :: s).length + 1) (.write cp) := hread
    have heq : cp + 1 + s.length + 1 = cp + (b :: s).length + 1 := by
      rw [length_cons]
      omega
    by_cases hup : isupper (mem cp) = true
    · have hupd : At (Function.update mem cp (tolower (mem cp))) (cp + 1) (s ++ [0]) := by
        intro i hi
        rw [Function.update_of_ne (by omega)]
        exact hat.2 i hi
      obtain ⟨tr, mem', htr, hq, hat', hframe⟩ := ih hs.2 hupd
      refine ⟨.read cp :: .write cp :: tr, mem', ?_, ?_, ?_, fun i hi => ?_⟩
      · rw [length_cons, lower, load_eq, bind_of_some rfl, if_neg hb, if_pos hup,
          bind_of_some rfl, htr]
        rfl
      · rw [heq] at hq
        intro x hx
        rcases mem_cons.1 hx with rfl | hx
        · exact hread
        rcases mem_cons.1 hx with rfl | hx
        · exact hwrite
        · exact hq x hx
      · rw [map_cons, cons_append, at_cons]
        refine ⟨?_, hat'⟩
        rw [hframe cp (Nat.lt_succ_self cp), Function.update_self, hat.1]
      · rw [hframe i (Nat.lt_succ_of_lt hi), Function.update_of_ne (by omega)]
    · obtain ⟨tr, mem', htr, hq, hat', hframe⟩ := ih hs.2 hat.2
      refine ⟨.read cp :: tr, mem', ?_, ?_, ?_, fun i hi => hframe i (Nat.lt_succ_of_lt hi)⟩
      · rw [length_cons, lower, load_eq, bind_of_some rfl, if_neg hb, if_neg hup, htr]
        rfl
      · rw [heq] at hq
        intro x hx
        rcases mem_cons.1 hx with rfl | hx
        · exact hread
        · exact hq x hx
      · rw [map_cons, cons_append, at_cons]
        refine ⟨?_, hat'⟩
        rw [hframe cp (Nat.lt_succ_self cp), hat.1, tolower, if_neg (hat.1 ▸ hup)]

theorem strcmp_str (hs : 0 ∉ s) (hat : At mem cp (s ++ [0])) {name : List Byte} (hn : 0 ∉ name) :
    ∃ tr, strcmp mem name cp = ⟨tr, some (decide (s = name))⟩ ∧ ∀ x ∈ tr,
    Quiet (cp + s.length + 1) x := by
  induction name generalizing s cp with
  | nil =>
    rcases s with _ | ⟨b, s⟩
    · have h0 : mem cp = 0 := (at_cons.1 hat).1
      refine ⟨[.read cp], ?_, fun x hx => ?_⟩
      · rw [strcmp, load_eq, bind_of_some rfl, h0]
        rfl
      · rw [mem_singleton.1 hx]
        exact Nat.lt_succ_self cp
    · rw [cons_append, at_cons] at hat
      rw [mem_cons, not_or] at hs
      refine ⟨[.read cp], ?_, fun x hx => ?_⟩
      · have hb : (b == 0) = false := beq_false_of_ne (Ne.symm hs.1)
        rw [strcmp, load_eq, bind_of_some rfl, hat.1, hb, decide_eq_false (cons_ne_nil b s)]
        rfl
      · rw [mem_singleton.1 hx]
        change cp < _
        omega
  | cons a name ih =>
    rw [mem_cons, not_or] at hn
    rcases s with _ | ⟨b, s⟩
    · have h0 : ¬ mem cp = a := by
        rw [(at_cons.1 hat).1]
        exact hn.1
      refine ⟨[.read cp], ?_, fun x hx => ?_⟩
      · rw [strcmp, load_eq, bind_of_some rfl, if_neg h0, decide_eq_false (cons_ne_nil a name).symm]
        rfl
      · rw [mem_singleton.1 hx]
        exact Nat.lt_succ_self cp
    · rw [cons_append, at_cons] at hat
      rw [mem_cons, not_or] at hs
      have hread : Quiet (cp + (b :: s).length + 1) (.read cp) := by
        change cp < cp + (b :: s).length + 1
        omega
      by_cases hab : b = a
      · subst hab
        obtain ⟨tr, htr, hq⟩ := ih hs.2 hat.2 hn.2
        have heq : cp + 1 + s.length + 1 = cp + (b :: s).length + 1 := by
          rw [length_cons]
          omega
        rw [heq] at hq
        refine ⟨.read cp :: tr, ?_, fun x hx => ?_⟩
        · rw [strcmp, load_eq, bind_of_some rfl, if_pos hat.1, htr]
          simp
        · rcases mem_cons.1 hx with rfl | hx
          · exact hread
          · exact hq x hx
      · have hne : ¬ mem cp = a := by
          rw [hat.1]
          exact hab
        refine ⟨[.read cp], ?_, fun x hx => ?_⟩
        · rw [strcmp, load_eq, bind_of_some rfl, if_neg hne,
            decide_eq_false (fun h => hab (List.cons.inj h).1)]
          rfl
        · rw [mem_singleton.1 hx]
          exact hread

theorem findFormat_str (hs : 0 ∉ s) (hat : At mem cp (s ++ [0])) (pfs : List Format)
    (hn : ∀ pf ∈ pfs, 0 ∉ pf.mode) :
    ∃ tr, findFormat mem cp pfs = ⟨tr, some (pfs.find? fun pf => s = pf.mode)⟩ ∧
      ∀ x ∈ tr, Quiet (cp + s.length + 1) x := by
  induction pfs with
  | nil => exact ⟨[], rfl, fun x hx => nomatch hx⟩
  | cons pf pfs ih =>
    obtain ⟨tr, htr, hq⟩ := strcmp_str hs hat (hn pf mem_cons_self)
    obtain ⟨tr', htr', hq'⟩ := ih fun pf' h => hn pf' (mem_cons_of_mem pf h)
    rw [findFormat, htr, bind_of_some rfl, find?_cons]
    by_cases hpf : s = pf.mode
    · rw [decide_eq_true hpf]
      exact ⟨tr ++ [], rfl, fun x hx => hq x (by rwa [append_nil] at hx)⟩
    · rw [decide_eq_false hpf]
      refine ⟨tr ++ tr', ?_, fun x hx => (mem_append.1 hx).elim (hq x) (hq' x)⟩
      rw [if_neg Bool.false_ne_true, htr']

/-! ### The whole function -/

theorem not_mem_map_tolower (hs : 0 ∉ s) : 0 ∉ s.map tolower := by
  rw [mem_map]
  rintro ⟨c, hc, hzero⟩
  exact tolower_ne_zero (fun h => hs (h ▸ hc)) hzero

theorem not_mem_formats : ∀ pf ∈ formats, 0 ∉ pf.mode := by decide

theorem tftp_str {filename mode : List Byte} (hf : 0 ∉ filename) (hm : 0 ∉ mode)
    (hat : At mem 2 (filename ++ 0 :: (mode ++ [0])))
    (hsize : 2 + filename.length + 1 + mode.length < size) :
    ∃ tr, (∀ x ∈ tr, Quiet size x) ∧ (tftp mem size).trace = tr ++
      [match formats.find? fun pf => mode.map tolower = pf.mode with
        | some pf => .validate pf
        | none => .nak] := by
  have hat' : At mem 2 (filename ++ [0]) ∧ At mem (2 + filename.length + 1) (mode ++ [0]) := by
    rw [append_cons, at_append, length_append, length_singleton, ← Nat.add_assoc] at hat
    exact hat
  obtain ⟨tr1, h1, hq1⟩ := again_str hf hat'.1 (by omega : 2 + filename.length < size)
  obtain ⟨tr2, h2, hq2⟩ := again_str hm hat'.2 hsize
  obtain ⟨tr3, mem', h3, hq3, hlow, -⟩ := lower_str hm hat'.2
  obtain ⟨tr4, h4, hq4⟩ := findFormat_str (not_mem_map_tolower hm) hlow formats not_mem_formats
  rw [length_map] at hq4
  have hle : ∀ {n : ℕ} {x : Step}, n ≤ size → Quiet n x → Quiet size x := by
    intro n x hn hx
    cases x with
    | read i => exact Nat.lt_of_lt_of_le hx hn
    | write i => exact Nat.lt_of_lt_of_le hx hn
    | _ => exact hx
  have hrounds : 2 + filename.length + 1 + mode.length - (2 + filename.length) =
    mode.length + 1 := by omega
  refine ⟨tr1 ++ (tr2 ++ (tr3 ++ tr4)), fun x hx => ?_, ?_⟩
  · simp only [mem_append] at hx
    rcases hx with hx | hx | hx | hx
    · exact hle (by omega) (hq1 x hx)
    · exact hle (by omega) (hq2 x hx)
    · exact hle (by omega) (hq3 x hx)
    · exact hle (by omega) (hq4 x hx)
  · rw [tftp, h1, bind_of_some rfl, h2, bind_of_some rfl, hrounds, h3, bind_of_some rfl, h4,
      bind_of_some rfl]
    simp only [append_assoc]
    cases formats.find? fun pf => mode.map tolower = pf.mode <;> rfl

theorem not_readsInside (hat : At mem 2 l) (hl : l.length = size - 2) (hcount : l.count 0 < 2) :
    ¬ ReadsInside mem size := by
  intro h
  by_cases hmem : 0 ∈ l
  · obtain ⟨filename, mode, rfl, hf⟩ := eq_append_cons_of_mem hmem
    rw [count_append, count_cons_self] at hcount
    have hm : 0 ∉ mode := fun hin => by
      have := count_pos_iff.2 hin
      omega
    rw [length_append, length_cons] at hl
    rw [append_cons, at_append, length_append, length_singleton, ← Nat.add_assoc] at hat
    obtain ⟨tr1, h1, -⟩ := again_str hf hat.1 (by omega : 2 + filename.length < size)
    have hscan := scan_all hm hat.2
    have hroom : mode.length = size - (2 + filename.length + 1) := by omega
    rw [hroom] at hscan
    have hread := read_mem_again hscan
    have hlt := h _ (mem_trace_bind (h1 ▸ rfl) (mem_trace_bind_of_mem hread _))
    omega
  · have hscan := scan_all hmem hat
    rw [hl] at hscan
    have hlt := h _ (mem_trace_bind_of_mem (read_mem_again hscan) _)
    omega

theorem isRequest_iff {filename mode rest : List Byte} (hf : 0 ∉ filename) (hm : 0 ∉ mode) :
    IsRequest (filename ++ 0 :: (mode ++ 0 :: rest)) ↔
      mode.map tolower = netascii ∨ mode.map tolower = octet := by
  have hcut : ∀ {s s' r r' : List Byte}, 0 ∉ s → 0 ∉ s' → s ++ 0 :: r = s' ++ 0 :: r' → s = s' ∧
    r = r' := by
    intro s s' r r' hs hs' heq
    have hne : ∀ {t : List Byte}, 0 ∉ t → ∀ b ∈ t, b ≠ 0 := fun ht b hb h0 => ht (h0 ▸ hb)
    have hstr := congrArg (str 0) heq
    rw [str_append (hne hs), str_append (hne hs'), str_of_head (by simp), str_of_head (by simp),
      append_nil, append_nil] at hstr
    subst hstr
    exact ⟨rfl, (List.cons.inj (append_cancel_left heq)).2⟩
  constructor
  · rintro ⟨filename', mode', rest', heq, hf', hm', hmode⟩
    obtain ⟨-, heq'⟩ := hcut hf hf' heq
    obtain ⟨rfl, -⟩ := hcut hm hm' heq'
    exact hmode
  · intro hmode
    exact ⟨filename, mode, rest, rfl, hf, hm, hmode⟩

theorem find_formats_isSome (s : List Byte) :
    (formats.find? fun pf => s = pf.mode).isSome ↔ s = netascii ∨ s = octet := by
  rw [find?_isSome]
  simp [formats]

/-- **When `tftp` takes just the requests:** bytes 2 and on hold two NULs. -/
theorem exact_iff (d : List Byte) (old : Memory) : Exact d old ↔ 2 ≤ (d.drop 2).count 0 := by
  have hat := at_memory d old 2
  constructor
  · rintro ⟨-, hinside⟩
    by_contra hcount
    exact not_readsInside hat length_drop (Nat.lt_of_not_le hcount) hinside
  · intro hcount
    obtain ⟨filename, l, hl, hf⟩ :=
      eq_append_cons_of_mem (count_pos_iff.1 (Nat.lt_of_lt_of_le Nat.two_pos hcount))
    rw [hl, count_append, count_eq_zero.2 hf, count_cons_self] at hcount
    obtain ⟨mode, rest, rfl, hm⟩ :=
      eq_append_cons_of_mem (count_pos_iff.1 (by omega : 0 < l.count 0))
    have hlen := congrArg List.length hl
    simp only [length_drop, length_append, length_cons] at hlen
    have hsplit :
        filename ++ 0 :: (mode ++ 0 :: rest) = filename ++ 0 :: (mode ++ [0]) ++ rest := by simp
    rw [hl, hsplit, at_append] at hat
    obtain ⟨tr, hq, htr⟩ :=
      tftp_str hf hm hat.1 (by omega : 2 + filename.length + 1 + mode.length < d.length)
    refine ⟨?_, fun i hi => ?_⟩
    · rw [hl, isRequest_iff hf hm, ← find_formats_isSome]
      unfold Accepts
      rw [htr]
      constructor
      · rintro ⟨pf, hpf⟩
        rcases mem_append.1 hpf with hpf | hpf
        · exact absurd (hq _ hpf) id
        · rw [mem_singleton] at hpf
          split at hpf
          next pf' hfind => rw [hfind]; rfl
          next => exact Step.noConfusion hpf
      · intro hsome
        obtain ⟨pf, hfind⟩ := Option.isSome_iff_exists.1 hsome
        rw [hfind]
        exact ⟨pf, mem_append_right _ (mem_singleton_self _)⟩
    · rw [htr] at hi
      rcases mem_append.1 hi with hi | hi
      · exact hq _ hi
      · rw [mem_singleton] at hi
        split at hi
        · exact Step.noConfusion hi
        · exact Step.noConfusion hi

/-- A read request for `a` in the mode `octet`, without the last NUL. -/
def unterminated : List Byte := [0, 1, 97, 0, 111, 99, 116, 101, 116]

/-- In a buffer that was never used, it is accepted. -/
theorem unterminated_accepted : ¬ ∀ d old, d.length ≤ SEGSIZE + 4 → Exact d old := by
  intro h
  have hexact := h unterminated (fun _ => 0) (by decide)
  have haccept : Accepts (memory unterminated fun _ => 0) unterminated.length :=
    ⟨⟨octet, false⟩, by decide⟩
  have hrequest := hexact.1.1 haccept
  obtain ⟨filename, mode, rest, heq, -, -, -⟩ := hrequest
  have hcount := congrArg (List.count 0) heq
  rw [count_append, count_cons_self, count_append, count_cons_self] at hcount
  change 1 = _ at hcount
  omega

end Inetutils.Tftp.Request
