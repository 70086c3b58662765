import Inetutils.Lib.Cyclic
import Inetutils.Telnet.Proto
import Mathlib.Algebra.Order.Ring.Int

/-! # The output buffer of telnetd

`netobuf` with `nfrontp`, `nbackp` and `neturg`, and the functions of `telnetd/utility.c` that put
bytes into it and write it to the network; `copyLoop` is the loop of `telnetd_run` that copies from
the pty. Pointers are offsets from `netobuf`. Each function that may flush is given the result of
the `write`.

`held n` is what is in the buffer from its start on, `stream n` what was written followed by what is
still to be written. `WF n` says that the pointers are in order; it is all that is needed for
writing to leave the stream as it is (`netflush_spec`). The functions that put bytes into the buffer
do nothing but append to what is held (`Appends`). -/

namespace Inetutils.Telnetd.Netobuf

open Lib.Cyclic Telnet.Proto List

abbrev NETSLOP : ℕ := 64

/-- The number of values of a `size_t`. -/
abbrev sizeMax : ℕ := 18446744073709551616

structure NetBuf where
  buf : ℕ → Byte
  nfrontp : ℕ
  nbackp : ℕ
  neturg : Option ℕ
  not42 : Bool
  written : List Byte

/-- What `write` returns: some of the bytes taken, or `EWOULDBLOCK`. After any other failure the
server exits. -/
inductive WriteResult
  | accepted (n : ℕ)
  | wouldBlock

def ioSetup (buf : ℕ → Byte) (not42 : Bool) : NetBuf := ⟨buf, 0, 0, none, not42, []⟩

/-! ### Writing to the network -/

/-- The bytes given to `write`: up to the urgent one if there is one, and that one by itself. -/
def NetBuf.offered (n : NetBuf) : ℕ :=
  match n.neturg with
  | none => n.nfrontp - n.nbackp
  | some u =>
    if !n.not42 then n.nfrontp - n.nbackp
    else if u - n.nbackp > 1 then u - n.nbackp - 1
    else u - n.nbackp

/-- The end of `netflush`, once `k` bytes are written. -/
def NetBuf.advance (n : NetBuf) (k : ℕ) : NetBuf :=
  let n1 :=
    { n with
      written := n.written ++ read n.buf n.nbackp k
      nbackp := n.nbackp + k
      neturg := n.neturg.filter (n.nbackp + k < ·) }
  if n1.nbackp = n1.nfrontp then { n1 with nbackp := 0, nfrontp := 0 } else n1

def netflush (w : WriteResult) (n : NetBuf) : NetBuf :=
  if n.nfrontp - n.nbackp > 0 then
    match w with
    | .wouldBlock => n
    | .accepted k => n.advance (min k n.offered)
  else n.advance 0

/-! ### Filling the buffer -/

def netOutputByte (c : Byte) (n : NetBuf) : NetBuf :=
  { n with buf := write n.buf n.nfrontp [c], nfrontp := n.nfrontp + 1 }

/-- `BUFSIZ - (nfrontp - netobuf)`, as a `size_t`. -/
def NetBuf.remaining (n : NetBuf) : ℕ :=
  if n.nfrontp ≤ BUFSIZ then BUFSIZ - n.nfrontp else sizeMax - (n.nfrontp - BUFSIZ)

/-- What `vsnprintf` stores in `size` bytes: as much of the output as fits with a null byte after
it. -/
def vsnprintf (size : ℕ) (out : List Byte) : List Byte :=
  if size = 0 then [] else out.take (size - 1) ++ [NUL]

/-- The buffer of `net_output_data` after the flush it may make first. -/
def NetBuf.makeRoom (n : NetBuf) (format : ℕ) (w : WriteResult) : NetBuf :=
  if format > n.remaining ∨ BUFSIZ / 4 > n.remaining then netflush w n else n

/-- `net_output_data` with a format of length `format` that formats to `out`. `remaining - 1` is
computed in `size_t`. -/
def netOutputData (format : ℕ) (out : List Byte) (w : WriteResult) (n : NetBuf) : NetBuf :=
  let n1 := n.makeRoom format w
  let last := (n1.remaining + sizeMax - 1) % sizeMax
  { n1 with
    buf := write n1.buf n1.nfrontp (vsnprintf n1.remaining out)
    nfrontp := n1.nfrontp + if out.length < last then out.length else last }

/-- `net_output_datalen`, with what it returns. -/
def netOutputDatalen (l : List Byte) (w : WriteResult) (n : NetBuf) : NetBuf × ℤ :=
  let n1 := if n.remaining < l.length then netflush w n else n
  if n1.remaining < l.length then (n1, -1)
  else
    ({ n1 with buf := write n1.buf n1.nfrontp l, nfrontp := n1.nfrontp + l.length }, l.length)

def netBufferIsFull (n : NetBuf) : Bool := (BUFSIZ : ℤ) - n.nfrontp < 2

/-- The loop of `telnetd_run` over what was read from the pty, with what it leaves there. `binary`
is `my_state_is_will (TELOPT_BINARY)`. -/
def copyLoop (binary : Bool) : List Byte → NetBuf → NetBuf × List Byte
  | [], n => (n, [])
  | c :: l, n =>
    if netBufferIsFull n then (n, c :: l)
    else
      let n := if c = IAC then netOutputByte c n else n
      let n := netOutputByte c n
      if c = CR ∧ !binary then
        match l with
        | x :: l' =>
          if x = LF then copyLoop binary l' (netOutputByte x n)
          else copyLoop binary (x :: l') (netOutputByte NUL n)
        | [] => (netOutputByte NUL n, [])
      else copyLoop binary l n

/-- What the loop makes of the bytes from the pty, one item for each turn. -/
def copyItems (binary : Bool) : List Byte → List (List Byte)
  | [] => []
  | c :: l =>
    if c = CR ∧ !binary then
      match l with
      | x :: l' =>
        if x = LF then [c, x] :: copyItems binary l' else [c, NUL] :: copyItems binary (x :: l')
      | [] => [[c, NUL]]
    else (if c = IAC then [c, c] else [c]) :: copyItems binary l

theorem copyItems_cr_lf (l : List Byte) :
    copyItems false (CR :: LF :: l) = [CR, LF] :: copyItems false l := rfl

theorem copyItems_cr {x : Byte} (hx : x ≠ LF) (l : List Byte) :
    copyItems false (CR :: x :: l) = [CR, NUL] :: copyItems false (x :: l) := by
  simp [copyItems, hx]

theorem copyItems_of_not_cr {binary : Bool} {c : Byte} (hc : ¬ (c = CR ∧ !binary)) (l : List Byte) :
    copyItems binary (c :: l) = (if c = IAC then [c, c] else [c]) :: copyItems binary l := by
  rw [copyItems.eq_def]; exact if_neg hc

/-! ### The stream -/

def NetBuf.held (n : NetBuf) : List Byte := read n.buf 0 n.nfrontp

def NetBuf.pending (n : NetBuf) : List Byte := read n.buf n.nbackp (n.nfrontp - n.nbackp)

/-- What was written followed by what is still to be written. -/
def NetBuf.stream (n : NetBuf) : List Byte := n.written ++ n.pending

structure WF (n : NetBuf) : Prop where
  back_le : n.nbackp ≤ n.nfrontp
  urg_lt : ∀ u, n.neturg = some u → u < n.nfrontp

theorem wf_ioSetup (buf : ℕ → Byte) (not42 : Bool) : WF (ioSetup buf not42) :=
  ⟨le_rfl, fun u h => by cases h⟩

@[simp] theorem length_held (n : NetBuf) : n.held.length = n.nfrontp := length_read ..

theorem drop_held {n : NetBuf} (h : WF n) : n.held.drop n.nbackp = n.pending := by
  rw [NetBuf.held, drop_read _ _ h.back_le, zero_add]; rfl

/-! ### Writing -/

section
variable {n : NetBuf} (h : WF n)
include h

theorem offered_le : n.offered ≤ n.nfrontp - n.nbackp := by
  unfold NetBuf.offered
  split
  · exact le_rfl
  · rename_i u hu
    have := h.urg_lt u hu
    split_ifs <;> omega

theorem wf_advance {k : ℕ} (hk : k ≤ n.nfrontp - n.nbackp) : WF (n.advance k) := by
  have h1 := h.back_le
  unfold NetBuf.advance
  dsimp only
  split_ifs with hall
  · refine ⟨le_rfl, fun u hu => ?_⟩
    have hu : n.neturg = some u ∧ n.nbackp + k < u := by
      simpa using Option.filter_eq_some_iff.mp hu
    have := h.urg_lt u hu.1
    omega
  · exact ⟨by show n.nbackp + k ≤ n.nfrontp; omega,
      fun u hu => h.urg_lt u (Option.filter_eq_some_iff.mp hu).1⟩

omit h in
theorem stream_advance {k : ℕ} (hk : k ≤ n.nfrontp - n.nbackp) :
    (n.advance k).stream = n.stream := by
  have hsplit : n.stream = n.written ++ read n.buf n.nbackp k ++
      read n.buf (n.nbackp + k) (n.nfrontp - (n.nbackp + k)) := by
    rw [NetBuf.stream, NetBuf.pending, append_assoc, ← read_add]
    congr 2; omega
  unfold NetBuf.advance
  dsimp only
  split_ifs with hall
  · rw [hsplit, hall, Nat.sub_self]
    simp [NetBuf.stream, NetBuf.pending]
  · rw [hsplit]; rfl

/-- **A flush advances over what is offered**, or over nothing. -/
theorem netflush_advance (w : WriteResult) :
    netflush w n = n ∨ ∃ k, k ≤ n.nfrontp - n.nbackp ∧ netflush w n = n.advance k := by
  unfold netflush
  split_ifs
  · cases w with
    | accepted k => exact .inr ⟨_, (min_le_right ..).trans (offered_le h), rfl⟩
    | wouldBlock => exact .inl rfl
  · exact .inr ⟨0, Nat.zero_le _, rfl⟩

omit h in
theorem advance_nfrontp_le (k : ℕ) : (n.advance k).nfrontp ≤ n.nfrontp := by
  unfold NetBuf.advance
  dsimp only
  split_ifs
  · exact Nat.zero_le _
  · exact le_rfl

/-- **Writing moves the boundary between the written and the pending bytes, and nothing else.** -/
theorem netflush_spec (w : WriteResult) :
    WF (netflush w n) ∧ (netflush w n).stream = n.stream ∧ (netflush w n).nfrontp ≤ n.nfrontp := by
  rcases netflush_advance h w with he | ⟨k, hk, he⟩ <;> rw [he]
  · exact ⟨h, rfl, le_rfl⟩
  · exact ⟨wf_advance h hk, stream_advance hk, advance_nfrontp_le k⟩

end

/-! ### Appending -/

/-- `n'` is `n` with the bytes `l` put at the end. -/
structure Appends (n n' : NetBuf) (l : List Byte) : Prop where
  held_eq : n'.held = n.held ++ l
  nbackp_eq : n'.nbackp = n.nbackp
  neturg_eq : n'.neturg = n.neturg
  written_eq : n'.written = n.written

theorem Appends.refl (n : NetBuf) : Appends n n [] := ⟨(append_nil _).symm, rfl, rfl, rfl⟩

variable {l : List Byte}

theorem Appends.trans {n1 n2 n3 : NetBuf} {l' : List Byte} (h : Appends n1 n2 l)
    (h' : Appends n2 n3 l') : Appends n1 n3 (l ++ l') :=
  ⟨by rw [h'.held_eq, h.held_eq, append_assoc], h'.nbackp_eq.trans h.nbackp_eq,
    h'.neturg_eq.trans h.neturg_eq, h'.written_eq.trans h.written_eq⟩

theorem Appends.nfrontp_eq {n n' : NetBuf} (h : Appends n n' l) :
    n'.nfrontp = n.nfrontp + l.length := by
  rw [← length_held n', h.held_eq, length_append, length_held]

theorem Appends.wf {n n' : NetBuf} (h : Appends n n' l) (hn : WF n) : WF n' := by
  have h1 := hn.back_le
  have h2 := h.nfrontp_eq
  refine ⟨by rw [h.nbackp_eq]; omega, fun u hu => ?_⟩
  rw [h.neturg_eq] at hu
  have := hn.urg_lt u hu
  omega

theorem Appends.stream_eq {n n' : NetBuf} (h : Appends n n' l) (hn : WF n) :
    n'.stream = n.stream ++ l := by
  have h1 := hn.back_le
  rw [NetBuf.stream, NetBuf.stream, ← drop_held (h.wf hn), ← drop_held hn, h.held_eq, h.nbackp_eq,
    h.written_eq, drop_append_of_le_length (by rw [length_held]; exact h1), append_assoc]

theorem appends_store (n : NetBuf) (l : List Byte) {k : ℕ} (hk : k ≤ l.length) :
    Appends n { n with buf := write n.buf n.nfrontp l, nfrontp := n.nfrontp + k } (l.take k) := by
  refine ⟨?_, rfl, rfl, rfl⟩
  show read (write n.buf n.nfrontp l) 0 (n.nfrontp + k) = read n.buf 0 n.nfrontp ++ l.take k
  rw [read_add, read_write_of_disjoint _ _ (.inl (by omega)), zero_add, ← take_read _ _ hk,
    read_write]

end Inetutils.Telnetd.Netobuf
