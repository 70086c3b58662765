import Inetutils.Lib.Runs
import Inetutils.Telnetd.Netobuf

/-! # What telnetd queues reaches the network whole

A run of calls that put bytes into the output buffer or flush it, with any results of the writes.
Each call should queue its items whole or not at all, and what is written followed by what is
pending should be the items queued.

`net_output_data` fails this when it finds less room than it needs, even after a flush: it cuts its
output off (`option_command_truncated`), and when there is no room at all it counts bytes it never
stored. `fits` leaves out these calls, and no others; then the stream is whole
(`net_output_whole`). -/

namespace Inetutils.Telnetd.NetOutput

open Lib.Cyclic Lib.Runs Telnet.Proto Netobuf List

/-! ### The room -/

def drains (n : NetBuf) (w : WriteResult) : Bool :=
  n.nfrontp = n.nbackp ||
    match w with
    | .accepted k => n.nfrontp - n.nbackp ≤ k && (n.neturg.isNone || !n.not42)
    | .wouldBlock => false

/-- The room `net_output_data` finds: all of the buffer if a flush it asks for drains it, else what
is left. -/
def room (n : NetBuf) (format : ℕ) (w : WriteResult) : ℕ :=
  if (format > BUFSIZ - n.nfrontp ∨ BUFSIZ / 4 > BUFSIZ - n.nfrontp) ∧ drains n w then BUFSIZ
  else BUFSIZ - n.nfrontp

section
variable {n : NetBuf} (h : WF n)
include h

theorem offered_eq (hpos : n.nbackp < n.nfrontp) :
    n.offered = n.nfrontp - n.nbackp ↔ n.neturg.isNone ∨ n.not42 = false := by
  unfold NetBuf.offered
  split
  · rename_i hu; simp [hu]
  · rename_i u hu
    have := h.urg_lt u hu
    cases hn : n.not42
    · simp
    · simp [hu]; split_ifs <;> omega

theorem netflush_nfrontp (w : WriteResult) :
    (netflush w n).nfrontp = if drains n w then 0 else n.nfrontp := by
  have h1 := h.back_le
  by_cases heq : n.nfrontp = n.nbackp
  · have hd : drains n w = true := by simp [drains, heq]
    unfold netflush NetBuf.advance
    rw [if_pos hd, if_neg (by omega)]
    dsimp only
    rw [if_pos (by omega)]
  · have hlt : n.nbackp < n.nfrontp := by omega
    have ho := offered_le h
    have hoff := offered_eq h hlt
    unfold netflush
    rw [if_pos (by omega)]
    cases w with
    | wouldBlock => simp [drains, heq]
    | accepted k =>
      have hd : drains n (.accepted k) = true ↔ n.nbackp + min k n.offered = n.nfrontp := by
        simp only [drains, heq, decide_false, Bool.false_or, Bool.and_eq_true, decide_eq_true_eq,
          Bool.or_eq_true, Bool.not_eq_true']
        rw [← hoff]; omega
      unfold NetBuf.advance
      dsimp only
      by_cases hall : n.nbackp + min k n.offered = n.nfrontp
      · rw [if_pos hall, if_pos (hd.mpr hall)]
      · rw [if_neg hall, if_neg (fun h0 => hall (hd.mp h0))]

variable (hb : n.nfrontp ≤ BUFSIZ)
include hb

omit h in
theorem remaining_eq : n.remaining = BUFSIZ - n.nfrontp := if_pos hb

theorem makeRoom_spec (format : ℕ) (w : WriteResult) :
    WF (n.makeRoom format w) ∧ (n.makeRoom format w).stream = n.stream ∧
      (n.makeRoom format w).nfrontp ≤ BUFSIZ ∧
      (n.makeRoom format w).remaining = room n format w := by
  obtain ⟨hwf, hst, hle⟩ := netflush_spec h w
  have hfr := netflush_nfrontp h w
  unfold NetBuf.makeRoom room
  rw [remaining_eq hb]
  split_ifs with hask hd hd
  · rw [if_pos hd.2] at hfr
    exact ⟨hwf, hst, by omega, by rw [remaining_eq (by omega), hfr, Nat.sub_zero]⟩
  · rw [if_neg (fun h0 => hd ⟨hask, h0⟩)] at hfr
    exact ⟨hwf, hst, by omega, by rw [remaining_eq (by omega), hfr]⟩
  · exact absurd hd.1 hask
  · exact ⟨h, rfl, hb, remaining_eq hb⟩

/-- **`net_output_data` queues what fits in the room with a null byte after it**, and stays in the
buffer. -/
theorem netOutputData_appends (format : ℕ) (out : List Byte) (w : WriteResult)
    (hroom : 0 < room n format w) :
    Appends (n.makeRoom format w) (netOutputData format out w n)
        (out.take (room n format w - 1)) ∧
      (netOutputData format out w n).nfrontp ≤ BUFSIZ := by
  obtain ⟨hwf, hst, hle, hrem⟩ := makeRoom_spec h hb format w
  unfold netOutputData
  dsimp only
  rw [hrem]
  set m := n.makeRoom format w
  set k := room n format w - 1 with hk
  have hroom' : room n format w = BUFSIZ - m.nfrontp := by rw [← hrem, remaining_eq hle]
  have hsize : BUFSIZ < sizeMax := by decide
  have hlast : (room n format w + sizeMax - 1) % sizeMax = k := by
    rw [show room n format w + sizeMax - 1 = k + sizeMax by omega, Nat.add_mod_right,
      Nat.mod_eq_of_lt (by omega)]
  have hmin : (if out.length < k then out.length else k) = (out.take k).length := by
    rw [length_take]; split_ifs <;> omega
  rw [hlast, hmin]
  have hprint : vsnprintf (room n format w) out = out.take k ++ [NUL] := if_neg (by omega)
  have happ := appends_store m (vsnprintf (room n format w) out) (k := (out.take k).length)
    (by rw [hprint, length_append]; exact Nat.le_add_right ..)
  rw [hprint, take_append_of_le_length le_rfl, take_length, ← hprint] at happ
  refine ⟨happ, ?_⟩
  rw [length_take]; omega

theorem netOutputData_nil_appends (format : ℕ) (w : WriteResult) :
    Appends (n.makeRoom format w) (netOutputData format [] w n) [] ∧
      (netOutputData format [] w n).nfrontp ≤ BUFSIZ := by
  obtain ⟨hwf, hst, hle, hrem⟩ := makeRoom_spec h hb format w
  unfold netOutputData
  dsimp only
  rw [hrem]
  have hzero : (if ([] : List Byte).length < (room n format w + sizeMax - 1) % sizeMax
      then ([] : List Byte).length else (room n format w + sizeMax - 1) % sizeMax) = 0 := by
    rw [length_nil]; split_ifs <;> omega
  rw [hzero]
  exact ⟨appends_store _ _ (Nat.zero_le _), hle⟩

/-- **`net_output_datalen` queues its bytes or says it does not.** -/
theorem netOutputDatalen_appends (l : List Byte) (w : WriteResult) :
    let r := netOutputDatalen l w n
    r.1.nfrontp ≤ BUFSIZ ∧ ∃ n1, (n1 = n ∨ n1 = netflush w n) ∧
      ((r.2 = -1 ∧ r.1 = n1) ∨ (r.2 = l.length ∧ Appends n1 r.1 l)) := by
  obtain ⟨-, -, hle⟩ := netflush_spec h w
  unfold netOutputDatalen
  dsimp only
  set m := if n.remaining < l.length then netflush w n else n with hm
  have hcases : m = n ∨ m = netflush w n := by rw [hm]; split_ifs <;> simp
  have hmb : m.nfrontp ≤ BUFSIZ := by rcases hcases with h0 | h0 <;> rw [h0] <;> omega
  have hrem := remaining_eq hmb
  split_ifs with hno
  · exact ⟨hmb, m, hcases, .inl ⟨rfl, rfl⟩⟩
  · have happ := appends_store m l le_rfl
    rw [take_length] at happ
    exact ⟨by show m.nfrontp + l.length ≤ BUFSIZ; omega, m, hcases, .inr ⟨rfl, happ⟩⟩

omit h in
theorem netOutputDatalen_of_room {l : List Byte} {w : WriteResult}
    (hl : l.length ≤ BUFSIZ - n.nfrontp) :
    netOutputDatalen l w n =
      ({ n with buf := write n.buf n.nfrontp l, nfrontp := n.nfrontp + l.length },
        (l.length : ℤ)) := by
  have hrem := remaining_eq hb
  unfold netOutputDatalen
  rw [if_neg (show ¬ n.remaining < l.length by omega), if_neg (by omega)]

end

/-! ### The copy loop -/

theorem netOutputByte_appends (c : Byte) (n : NetBuf) : Appends n (netOutputByte c n) [c] :=
  appends_store n [c] le_rfl

theorem turn_appends (c : Byte) (n : NetBuf) :
    Appends n (netOutputByte c (if c = IAC then netOutputByte c n else n))
      (if c = IAC then [c, c] else [c]) := by
  split_ifs
  · exact (netOutputByte_appends c n).trans (netOutputByte_appends c _)
  · exact netOutputByte_appends c n

theorem turn_cr_appends (x : Byte) (n : NetBuf) :
    Appends n (netOutputByte x (netOutputByte CR (if CR = IAC then netOutputByte CR n else n)))
      [CR, x] :=
  (turn_appends CR n).trans (netOutputByte_appends x _)

theorem two_le_room {n : NetBuf} (h : ¬ netBufferIsFull n = true) : n.nfrontp + 2 ≤ BUFSIZ := by
  simp only [netBufferIsFull, decide_eq_true_eq] at h; omega

/-- **The copy loop queues whole items**, and what it leaves is what it has not copied. -/
theorem copyLoop_appends (binary : Bool) (input : List Byte) (n : NetBuf)
    (hb : n.nfrontp ≤ BUFSIZ) :
    let r := copyLoop binary input n
    r.1.nfrontp ≤ BUFSIZ ∧ ∃ done, copyItems binary input = done ++ copyItems binary r.2 ∧
      Appends n r.1 done.flatten := by
  fun_induction copyLoop binary input n with
  | case1 n => exact ⟨hb, [], rfl, Appends.refl n⟩
  | case2 c l n => exact ⟨hb, [], rfl, Appends.refl n⟩
  | case3 c n hroom n1 n2 hcr l' ih =>
    obtain ⟨rfl, hbin⟩ := hcr
    obtain rfl : binary = false := by simpa using hbin
    have happ := turn_cr_appends LF n
    obtain ⟨h4, done, h5, h6⟩ := ih (happ.nfrontp_eq.trans_le (two_le_room hroom))
    exact ⟨h4, [CR, LF] :: done, by rw [copyItems_cr_lf, h5]; rfl, happ.trans h6⟩
  | case4 c n hroom n1 n2 hcr x l' hx ih =>
    obtain ⟨rfl, hbin⟩ := hcr
    obtain rfl : binary = false := by simpa using hbin
    have happ := turn_cr_appends NUL n
    obtain ⟨h4, done, h5, h6⟩ := ih (happ.nfrontp_eq.trans_le (two_le_room hroom))
    exact ⟨h4, [CR, NUL] :: done, by rw [copyItems_cr hx, h5]; rfl, happ.trans h6⟩
  | case5 c n hroom n1 n2 hcr =>
    obtain ⟨rfl, hbin⟩ := hcr
    obtain rfl : binary = false := by simpa using hbin
    have happ := turn_cr_appends NUL n
    exact ⟨happ.nfrontp_eq.trans_le (two_le_room hroom), [[CR, NUL]], rfl, happ⟩
  | case6 c l n hroom n1 n2 hcr ih =>
    have happ := turn_appends c n
    have hb' : n2.nfrontp ≤ BUFSIZ := by
      have := two_le_room hroom
      refine happ.nfrontp_eq.trans_le ?_
      split_ifs <;> simp only [length_cons, length_nil] <;> omega
    obtain ⟨h4, done, h5, h6⟩ := ih hb'
    exact ⟨h4, (if c = IAC then [c, c] else [c]) :: done, by rw [copyItems_of_not_cr hcr, h5]; rfl,
      happ.trans h6⟩

/-! ### Runs -/

/-- What telnetd does with the buffer. A call of `net_output_data` is given by the length of its
format and the formatted output, one of the copy loop by what the pty has to read. -/
inductive Call
  | outputData (format : ℕ) (out : List Byte) (w : WriteResult)
  | outputDatalen (l : List Byte) (w : WriteResult)
  | copyLoop (binary : Bool) (input : List Byte)
  | netflush (w : WriteResult)

def step (n : NetBuf) : Call → NetBuf
  | .outputData format out w => netOutputData format out w n
  | .outputDatalen l w => (netOutputDatalen l w n).1
  | .copyLoop binary input => (Netobuf.copyLoop binary input n).1
  | .netflush w => Netobuf.netflush w n

/-- What the call is to queue. -/
def Call.items : Call → List (List Byte)
  | .outputData _ out _ => [out]
  | .outputDatalen l _ => [l]
  | .copyLoop binary input => copyItems binary input
  | .netflush _ => []

/-- `net_output_data` finds room for its output and a null byte, or for nothing but the null byte,
or has nothing to put out. -/
def fits (n : NetBuf) : Call → Prop
  | .outputData format out w => out.length < room n format w ∨ room n format w = 1 ∨ out = []
  | _ => True

/-- What it queues: its items or none, and the copy loop those of what it takes from the pty. -/
def Call.Queued (n : NetBuf) (q : List (List Byte)) : Call → Prop
  | .outputData _ out _ => q = [out] ∨ q = []
  | .outputDatalen l _ => q = [l] ∨ q = []
  | .copyLoop binary input =>
    copyItems binary input = q ++ copyItems binary (Netobuf.copyLoop binary input n).2
  | .netflush _ => q = []

def Queues (n : NetBuf) (c : Call) : Prop :=
  ∃ q : List (List Byte), c.Queued n q ∧ (step n c).stream = n.stream ++ q.flatten

/-- What the calls queue one after another. -/
def RunQueued : NetBuf → List Call → List (List Byte) → Prop
  | _, [], q => q = []
  | n, c :: calls, q => ∃ q₁ q₂, c.Queued n q₁ ∧ RunQueued (step n c) calls q₂ ∧ q = q₁ ++ q₂

theorem Call.Queued.sublist {n : NetBuf} {q : List (List Byte)} {c : Call} (h : c.Queued n q) :
    q.Sublist c.items := by
  cases c with
  | outputData format out w =>
    obtain rfl | rfl := h
    · exact List.Sublist.refl _
    · exact nil_sublist _
  | outputDatalen l w =>
    obtain rfl | rfl := h
    · exact List.Sublist.refl _
    · exact nil_sublist _
  | copyLoop binary input =>
    have hitems : (Call.copyLoop binary input).items =
      q ++ copyItems binary (Netobuf.copyLoop binary input n).2 := h
    rw [hitems]
    exact sublist_append_left ..
  | netflush w =>
    obtain rfl := h
    exact nil_sublist _

theorem RunQueued.sublist : ∀ {calls : List Call} {n : NetBuf} {q : List (List Byte)},
    RunQueued n calls q → q.Sublist (calls.flatMap Call.items)
  | [], _, _, h => h ▸ nil_sublist _
  | _ :: _, _, _, ⟨_, _, h₁, h₂, h⟩ => h ▸ h₁.sublist.append h₂.sublist

theorem step_appends {n : NetBuf} (h : WF n) (hb : n.nfrontp ≤ BUFSIZ) {c : Call} (hf : fits n c) :
    (step n c).nfrontp ≤ BUFSIZ ∧ ∃ n1 q, (n1 = n ∨ ∃ w, n1 = Netobuf.netflush w n) ∧
      c.Queued n q ∧ Appends n1 (step n c) q.flatten := by
  cases c with
  | outputData format out w =>
    have hroom : n.makeRoom format w = n ∨ ∃ w', n.makeRoom format w = Netobuf.netflush w' n := by
      unfold NetBuf.makeRoom
      split_ifs
      · exact .inr ⟨w, rfl⟩
      · exact .inl rfl
    by_cases hpos : 0 < room n format w
    · obtain ⟨h1, h2⟩ := netOutputData_appends h hb format out w hpos
      refine ⟨h2, n.makeRoom format w, ?_⟩
      rcases hf with hf | hf | rfl
      · rw [take_of_length_le (by omega)] at h1
        exact ⟨[out], hroom, .inl rfl, by rwa [flatten_singleton]⟩
      · rw [hf, Nat.sub_self, take_zero] at h1
        exact ⟨[], hroom, .inr rfl, h1⟩
      · rw [take_nil] at h1
        exact ⟨[], hroom, .inr rfl, h1⟩
    · obtain rfl : out = [] := by
        rcases hf with hf | hf | hf
        · omega
        · omega
        · exact hf
      obtain ⟨h1, h2⟩ := netOutputData_nil_appends h hb format w
      exact ⟨h2, _, [], hroom, .inr rfl, h1⟩
  | outputDatalen l w =>
    obtain ⟨h1, n1, h2, h3⟩ := netOutputDatalen_appends h hb l w
    refine ⟨h1, n1, ?_⟩
    rcases h3 with ⟨-, h3⟩ | ⟨-, h3⟩
    · exact ⟨[], h2.imp_right fun h0 => ⟨w, h0⟩, .inr rfl, h3 ▸ Appends.refl _⟩
    · exact ⟨[l], h2.imp_right fun h0 => ⟨w, h0⟩, .inl rfl,
        by rwa [flatten_singleton]⟩
  | copyLoop binary input =>
    obtain ⟨h1, done, h2, h3⟩ := copyLoop_appends binary input n hb
    exact ⟨h1, n, done, .inl rfl, h2, h3⟩
  | netflush w =>
    obtain ⟨-, -, h1⟩ := netflush_spec h w
    exact ⟨h1.trans hb, _, [], .inr ⟨w, rfl⟩, rfl, Appends.refl _⟩

theorem queues_step {n : NetBuf} (h : WF n) (hb : n.nfrontp ≤ BUFSIZ) {c : Call} (hf : fits n c) :
    WF (step n c) ∧ (step n c).nfrontp ≤ BUFSIZ ∧ Queues n c := by
  obtain ⟨h1, n1, q, hn1, hq, happ⟩ := step_appends h hb hf
  obtain ⟨hwf, hst⟩ : WF n1 ∧ n1.stream = n.stream := by
    rcases hn1 with rfl | ⟨w, rfl⟩
    · exact ⟨h, rfl⟩
    · exact ⟨(netflush_spec h w).1, (netflush_spec h w).2.1⟩
  exact ⟨happ.wf hwf, h1, q, hq, by rw [happ.stream_eq hwf, hst]⟩

theorem queues_run : ∀ {calls : List Call} {n : NetBuf}, WF n → n.nfrontp ≤ BUFSIZ →
    Allowed step fits n calls →
    WF (run step n calls) ∧ (run step n calls).nfrontp ≤ BUFSIZ ∧
      ∃ q, RunQueued n calls q ∧ (run step n calls).stream = n.stream ++ q.flatten
  | [], n, h, hb, _ => ⟨h, hb, [], rfl, (append_nil _).symm⟩
  | c :: calls, n, h, hb, ⟨hc, hcalls⟩ => by
    obtain ⟨h1, h2, q, hq, he⟩ := queues_step h hb hc
    obtain ⟨h4, h5, q', hq', he'⟩ := queues_run h1 h2 hcalls
    exact ⟨h4, h5, q ++ q',
      ⟨q, q', hq, hq', rfl⟩, by rw [run_cons, he', he, flatten_append, append_assoc]⟩

/-- **What is queued is queued whole, and nothing else is sent**: in every run in which what
`net_output_data` puts out fits, the pointers stay in the buffer, written and pending bytes are the
items queued, and the next call queues its items whole or not at all, the copy loop those of the
bytes it takes. -/
theorem net_output_whole (buf : ℕ → Byte) (not42 : Bool) (calls : List Call)
    (h : Allowed step fits (ioSetup buf not42) calls) :
    let n := run step (ioSetup buf not42) calls
    n.nbackp ≤ n.nfrontp ∧ n.nfrontp ≤ BUFSIZ + NETSLOP ∧
      (∃ q, RunQueued (ioSetup buf not42) calls q ∧ q.Sublist (calls.flatMap Call.items) ∧
        n.written ++ n.pending = q.flatten) ∧
      ∀ c, fits n c → Queues n c := by
  obtain ⟨h1, h2, q, hq, he⟩ := queues_run (wf_ioSetup buf not42) (Nat.zero_le _) h
  exact ⟨h1.back_le, h2.trans (Nat.le_add_right ..), ⟨q, hq, hq.sublist, he⟩,
    fun c hc => (queues_step h1 h2 hc).2.2⟩

/-- Input is copied, a command is put out and part of it written. -/
def fittingCalls : List Call :=
  [.copyLoop false [65, CR, LF, IAC], .outputData 4 [IAC, WILL, 1] .wouldBlock,
    .netflush (.accepted 5), .outputDatalen [IAC, DM] .wouldBlock]

theorem net_output_whole_fittingCalls :
    Allowed step fits (ioSetup (fun _ => 0) true) fittingCalls ∧
      let n := run step (ioSetup (fun _ => 0) true) fittingCalls
      n.nbackp ≤ n.nfrontp ∧ n.nfrontp ≤ BUFSIZ + NETSLOP ∧
        (∃ q, RunQueued (ioSetup (fun _ => 0) true) fittingCalls q ∧
          q.Sublist (fittingCalls.flatMap Call.items) ∧ n.written ++ n.pending = q.flatten) ∧
        ∀ c, fits n c → Queues n c :=
  have h : Allowed step fits (ioSetup (fun _ => 0) true) fittingCalls :=
    ⟨trivial, .inl (by decide), trivial, trivial, trivial⟩
  ⟨h, net_output_whole _ _ _ h⟩

theorem outputData_cut {l : List Byte} (hl : l.length = 8190) (verb option : Byte) :
    let n := run step (ioSetup (fun _ => 0) true) [.outputDatalen l .wouldBlock]
    n.stream = l ∧
      (step n (.outputData 4 [IAC, verb, option] .wouldBlock)).stream = n.stream ++ [IAC] := by
  have hn := netOutputDatalen_of_room (n := ioSetup (fun _ => 0) true) (Nat.zero_le _) (l := l)
    (w := .wouldBlock) (by rw [hl]; decide)
  have happ := appends_store (ioSetup (fun _ => 0) true) l le_rfl
  have h0 := wf_ioSetup (fun _ => 0) true
  intro n
  have hn : n = _ := congrArg Prod.fst hn
  have hst : n.stream = l := by rw [hn, happ.stream_eq h0, take_length]; rfl
  have hfr : n.nfrontp = 8190 := by rw [hn, ← hl]; exact Nat.zero_add _
  have hbk : n.nbackp = 0 := by rw [hn]; rfl
  have hwf : WF n := by rw [hn]; exact happ.wf h0
  have hroom : room n 4 .wouldBlock = 2 := by
    rw [room, hfr, drains, hfr, hbk]; rfl
  have hb : n.nfrontp ≤ BUFSIZ := by rw [hfr]; decide
  obtain ⟨h1, h2, -⟩ := makeRoom_spec hwf hb 4 .wouldBlock
  obtain ⟨h3, -⟩ := netOutputData_appends hwf hb 4 [IAC, verb, option] .wouldBlock
    (by rw [hroom]; decide)
  have h4 := h3.stream_eq h1
  rw [hroom, h2] at h4
  exact ⟨hst, h4⟩

/-- **An option command that is cut off**: of `IAC WILL BINARY` the first byte is queued and the
others are not. -/
theorem option_command_truncated :
    let n := run step (ioSetup (fun _ => 0) true)
      [.outputDatalen (List.replicate 8190 65) .wouldBlock]
    let n' := step n (.outputData 4 [IAC, WILL, 0] .wouldBlock)
    n'.stream = List.replicate 8190 65 ++ [IAC] ∧
      ¬ Queues n (.outputData 4 [IAC, WILL, 0] .wouldBlock) := by
  obtain ⟨h1, h2⟩ := outputData_cut (l := List.replicate 8190 65) length_replicate WILL 0
  refine ⟨h2.trans (by rw [h1]), ?_⟩
  rintro ⟨q, hq, he⟩
  have he := append_cancel_left (h2.symm.trans he)
  rcases hq with rfl | rfl
  · exact absurd he (by decide)
  · exact absurd he (by decide)

end Inetutils.Telnetd.NetOutput
