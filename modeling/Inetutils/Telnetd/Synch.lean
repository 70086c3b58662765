import Inetutils.Telnetd.Netclear

/-! # Clearing the path to the network

Before a synch the server clears its output buffer: what is not sent yet is dropped, except the
commands other than `EC` and `EL`. The client should then see the items sent, the rest of one that
was sent in part, and these commands (`Clears`).

`netclear` does this exactly when there is something to send, the last write ended between two items
and no data byte `IAC` is among those not sent (`clears_iff`): it sends an item again from its start
although part of it is sent already (`option_sent_again`), it takes a doubled `IAC` for a command,
and on an empty buffer it reads what is not there. -/

namespace Inetutils.Telnetd.Synch

open Lib.Cyclic Lib.Runs Telnet.Proto Telnet.Items List
open Netobuf NetOutput Netclear

variable {its old : List Item} {n : NetBuf}

/-! ### The items and what is sent of them -/

/-- Commands other than `EC` and `EL` are to survive. -/
def wanted : Item → Bool
  | .data _ => false
  | .command c _ => c ≠ EC ∧ c ≠ EL
  | .option _ _ => true
  | .sub _ => true

/-- Of the items `sent ++ part ++ unsent` the server has sent those of `sent` and some bytes, not
all, of the one in `part`, if there is one. -/
structure Progress (n : NetBuf) (sent part unsent : List Item) : Prop where
  stream_eq : n.stream = encodeAll (sent ++ part ++ unsent)
  written_eq : (part = [] ∧ n.written = encodeAll sent) ∨
    ∃ it j, part = [it] ∧ 0 < j ∧ j < it.encode.length ∧
      n.written = encodeAll sent ++ it.encode.take j

/-- **`netclear` reads nothing beyond what is queued, and the client receives what was sent, the
rest of what was sent in part, and the wanted commands.** -/
def Clears (n : NetBuf) (sent part unsent : List Item) : Prop :=
  ∃ n', netclear n.nfrontp n = some n' ∧
    parse (n'.written ++ n'.pending) = some (sent ++ part ++ unsent.filter wanted)

/-! ### The states reached -/

/-- The buffer holds the items `its`, after the items `old` were sent, and is not left drained. -/
structure Whole (n : NetBuf) (old its : List Item) : Prop where
  wf : WF n
  written_eq : n.written = encodeAll old ++ n.held.take n.nbackp
  held_eq : n.held = encodeAll its
  back_lt : n.nbackp < n.nfrontp ∨ n.nfrontp = 0

theorem whole_ioSetup (buf : ℕ → Byte) (not42 : Bool) : Whole (ioSetup buf not42) [] [] :=
  ⟨wf_ioSetup buf not42, rfl, rfl, .inr rfl⟩

def Complete (c : Call) : Prop := ∀ l ∈ c.items, ∃ its, l = encodeAll its

theorem complete_flatten : ∀ {q : List (List Byte)}, (∀ l ∈ q, ∃ its, l = encodeAll its) →
    ∃ its, q.flatten = encodeAll its
  | [], _ => ⟨[], rfl⟩
  | l :: q, h => by
    obtain ⟨its, rfl⟩ := h l mem_cons_self
    obtain ⟨its', h'⟩ := complete_flatten fun l' hl' => h l' (mem_cons_of_mem _ hl')
    exact ⟨its ++ its', by rw [flatten_cons, h', encodeAll_append]⟩

theorem whole_advance (h : Whole n old its) {k : ℕ}
    (hk : k ≤ n.nfrontp - n.nbackp) : ∃ old' its', Whole (n.advance k) old' its' := by
  have h1 := h.wf.back_le
  have hwf := wf_advance h.wf hk
  have hread :
      n.written ++ read n.buf n.nbackp k = encodeAll old ++ n.held.take (n.nbackp + k) := by
    have : read n.buf n.nbackp k = (n.held.drop n.nbackp).take k := by
      rw [drop_held h.wf, NetBuf.pending, take_read _ _ hk]
    rw [this, h.written_eq, append_assoc, ← take_add]
  unfold NetBuf.advance at hwf ⊢
  dsimp only at hwf ⊢
  split_ifs at hwf ⊢ with hall
  · refine ⟨old ++ its, [], hwf, ?_, rfl, .inr rfl⟩
    rw [hread, hall, take_of_length_le (by rw [length_held]), h.held_eq, encodeAll_append]
    simp
  · exact ⟨old, its, hwf, hread, h.held_eq, .inl (by show n.nbackp + k < n.nfrontp; omega)⟩

theorem whole_netflush (h : Whole n old its) (w : WriteResult) :
    ∃ old' its', Whole (netflush w n) old' its' := by
  rcases netflush_advance h.wf w with he | ⟨k, hk, he⟩ <;> rw [he]
  · exact ⟨old, its, h⟩
  · exact whole_advance h hk

variable {n' : NetBuf} {j : ℕ}

theorem whole_appends {its' : List Item} (h : Whole n old its)
    (ha : Appends n n' (encodeAll its')) : Whole n' old (its ++ its') := by
  have h1 := h.wf.back_le
  have h2 := ha.nfrontp_eq
  refine ⟨ha.wf h.wf, ?_, by rw [ha.held_eq, h.held_eq, encodeAll_append], ?_⟩
  · rw [ha.written_eq, ha.held_eq, ha.nbackp_eq, h.written_eq,
      take_append_of_le_length (by rw [length_held]; exact h1)]
  · rw [ha.nbackp_eq]
    rcases h.back_lt with h3 | h3 <;> omega

theorem whole_step (h : Whole n old its) (hb : n.nfrontp ≤ BUFSIZ)
    {c : Call} (hf : fits n c) (hc : Complete c) :
    (step n c).nfrontp ≤ BUFSIZ ∧ ∃ old' its', Whole (step n c) old' its' := by
  obtain ⟨h1, n1, q, hn1, hq, ha⟩ := step_appends h.wf hb hf
  obtain ⟨its', hq'⟩ := complete_flatten fun l hl => hc l ((Call.Queued.sublist hq).subset hl)
  rw [hq'] at ha
  obtain ⟨old1, its1, h2⟩ : ∃ old1 its1, Whole n1 old1 its1 := by
    rcases hn1 with rfl | ⟨w, rfl⟩
    · exact ⟨old, its, h⟩
    · exact whole_netflush h w
  exact ⟨h1, old1, its1 ++ its', whole_appends h2 ha⟩

def queuesItems (n : NetBuf) (c : Call) : Prop := fits n c ∧ Complete c

theorem whole_run {calls : List Call} {buf : ℕ → Byte} {not42 : Bool}
    (h : Allowed step queuesItems (ioSetup buf not42) calls) :
    ∃ old its, Whole (run step (ioSetup buf not42) calls) old its :=
  (run_inv (I := fun n => n.nfrontp ≤ BUFSIZ ∧ ∃ old its, Whole n old its)
    (fun _ _ ⟨hb, _, _, hw⟩ ⟨hf, hc⟩ => whole_step hw hb hf hc)
    ⟨Nat.zero_le _, [], [], whole_ioSetup buf not42⟩ h).2

/-! ### Where the last write ended -/

theorem prefix_of_length {sent u : List Item} (h : old ++ its = sent ++ u)
    (hlen : (encodeAll old).length ≤ (encodeAll sent).length + j)
    (hj : ∀ it v, u = it :: v → j < it.encode.length) :
    ∃ done, sent = old ++ done ∧ its = done ++ u := by
  rcases append_eq_append_iff.mp h with ⟨done, h1, h2⟩ | ⟨c, rfl, h2⟩
  · exact ⟨done, h1, h2⟩
  · cases c with
    | nil => exact ⟨[], by simp, by simpa using h2.symm⟩
    | cons it c =>
      have := hj it (c ++ its) h2
      rw [encodeAll_append, encodeAll_cons, length_append, length_append] at hlen
      omega

theorem split_items : ∀ (its : List Item) {k : ℕ}, k ≤ (encodeAll its).length →
    (∃ done rest, its = done ++ rest ∧ k = (encodeAll done).length) ∨
      ∃ done it rest j, its = done ++ it :: rest ∧ 0 < j ∧ j < it.encode.length ∧
        k = (encodeAll done).length + j
  | [], k, hk => .inl ⟨[], [], rfl, by simpa using hk⟩
  | it :: its, k, hk => by
    rw [encodeAll_cons, length_append] at hk
    by_cases hlt : k < it.encode.length
    · rcases Nat.eq_zero_or_pos k with rfl | hpos
      · exact .inl ⟨[], it :: its, rfl, rfl⟩
      · exact .inr ⟨[], it, its, k, rfl, hpos, hlt, (zero_add k).symm⟩
    · rcases split_items its (k := k - it.encode.length) (by omega) with
        ⟨done, rest, rfl, hk'⟩ | ⟨done, it', rest, j, rfl, h0, hj, hk'⟩
      · refine .inl ⟨it :: done, rest, rfl, ?_⟩
        rw [encodeAll_cons, length_append]; omega
      · refine .inr ⟨it :: done, it', rest, j, rfl, h0, hj, ?_⟩
        rw [encodeAll_cons, length_append]; omega

section
variable {n : NetBuf} {old its sent part unsent : List Item} (h : Whole n old its)
include h

theorem stream_whole : n.stream = encodeAll (old ++ its) := by
  rw [NetBuf.stream, h.written_eq, ← drop_held h.wf, append_assoc, take_append_drop,
    h.held_eq, encodeAll_append]

theorem length_written : n.written.length = (encodeAll old).length + n.nbackp := by
  have := h.wf.back_le
  rw [h.written_eq, length_append, length_take, length_held]; omega

theorem exists_progress : ∃ sent part unsent, Progress n sent part unsent := by
  have hback : n.nbackp ≤ (encodeAll its).length := by
    rw [← h.held_eq, length_held]; exact h.wf.back_le
  have hstream := stream_whole h
  have hw := h.written_eq
  rw [h.held_eq] at hw
  rcases split_items its hback with ⟨done, rest, rfl, hk⟩ | ⟨done, it, rest, j, rfl, h0, hj, hk⟩
  · refine ⟨old ++ done, [], rest, by rw [hstream]; simp, .inl ⟨rfl, ?_⟩⟩
    rw [hw, hk, encodeAll_append, encodeAll_append, take_left]
  · refine ⟨old ++ done, [it], rest, by rw [hstream]; simp, .inr ⟨it, j, rfl, h0, hj, ?_⟩⟩
    rw [hw, hk, encodeAll_append, encodeAll_cons, encodeAll_append, take_length_add_append,
      take_append_of_le_length hj.le, append_assoc]

variable (hp : Progress n sent part unsent)
include hp

theorem progress_append : old ++ its = sent ++ (part ++ unsent) := by
  have := hp.stream_eq
  rw [stream_whole h, append_assoc] at this
  exact encodeAll_injective this

theorem progress_boundary (hpart : part = []) :
    ∃ done, sent = old ++ done ∧ its = done ++ unsent ∧ n.nbackp = (encodeAll done).length := by
  subst hpart
  have happ := progress_append h hp
  have hlen := length_written h
  rcases hp.written_eq with ⟨-, hw⟩ | ⟨it, j, h0, -⟩
  · rw [hw] at hlen
    obtain ⟨done, h1, h2⟩ := prefix_of_length (j := 0) happ (by omega)
      (fun it _ _ => encode_length_pos it)
    rw [h1, encodeAll_append, length_append] at hlen
    exact ⟨done, h1, h2, by omega⟩
  · cases h0

theorem progress_inside {it : Item} (hpart : part = [it]) (hj : j < it.encode.length)
    (hw : n.written = encodeAll sent ++ it.encode.take j) :
    ∃ done, sent = old ++ done ∧ its = done ++ it :: unsent ∧
      n.nbackp = (encodeAll done).length + j := by
  subst hpart
  have happ := progress_append h hp
  have hlen := length_written h
  rw [hw, length_append, length_take_of_le hj.le] at hlen
  obtain ⟨done, h1, h2⟩ := prefix_of_length (j := j) happ (by omega)
    (fun it' v h0 => by
      rw [singleton_append, List.cons.injEq] at h0
      rw [← h0.1]; exact hj)
  rw [h1, encodeAll_append, length_append] at hlen
  exact ⟨done, h1, h2, by omega⟩

end

/-! ### When the path is cleared -/

theorem not_clears_of_empty (hf : n.nfrontp = 0) (hb : n.nbackp = 0)
    (sent part unsent : List Item) : ¬ Clears n sent part unsent := by
  rintro ⟨n', h, -⟩
  have : netclear n.nfrontp n = none := by rw [hf, netclear, hb]; rfl
  rw [this] at h
  cases h

theorem kept_eq_wanted {it : Item} (h : it ≠ .data IAC) : kept it = wanted it := by
  cases it with
  | data b =>
    have : b ≠ IAC := fun h0 => h (by rw [h0])
    simp [kept, wanted, this]
  | command c hc => rfl
  | option v o => rfl
  | sub p => rfl

theorem filter_kept_eq :
    its.filter kept = its.filter wanted ↔ .data IAC ∉ its := by
  constructor
  · intro h hmem
    have : Item.data IAC ∈ its.filter kept := mem_filter.mpr ⟨hmem, rfl⟩
    rw [h] at this
    exact absurd (mem_filter.mp this).2 (by decide)
  · intro h
    exact filter_congr fun it hit => kept_eq_wanted fun h0 => h (h0 ▸ hit)

theorem clears_spec {sent part unsent : List Item} (hclear : netclear n.nfrontp n = some n')
    (hb : n'.nbackp = 0) (hw : n'.written = n.written) (hheld : n'.held = encodeAll its) :
    Clears n sent part unsent ↔
      n.written ++ encodeAll its = encodeAll (sent ++ part ++ unsent.filter wanted) := by
  have hpend : n'.pending = encodeAll its := by
    rw [← hheld, NetBuf.pending, hb]; rfl
  rw [← parse_eq_some, ← hw, ← hpend]
  constructor
  · rintro ⟨n'', h1, h2⟩
    obtain rfl := Option.some.inj (hclear.symm.trans h1)
    exact h2
  · exact fun h => ⟨n', hclear, h⟩

theorem encodeAll_kept_head {b : Byte} {l : List Byte}
    (h : encodeAll (its.filter kept) = b :: l) : b = IAC := by
  cases hf : its.filter kept with
  | nil => rw [hf] at h; cases h
  | cons it rest =>
    have hk : kept it = true :=
      (mem_filter.mp (hf ▸ mem_cons_self : it ∈ its.filter kept)).2
    rw [hf, encodeAll_cons] at h
    cases it with
    | data c =>
      have hc : c = IAC := by simpa [kept] using hk
      subst hc
      exact (List.cons.inj h).1.symm
    | command c hc => exact (List.cons.inj h).1.symm
    | option v o => exact (List.cons.inj h).1.symm
    | sub p => exact (List.cons.inj h).1.symm

theorem length_wanted_le_kept (its : List Item) :
    (encodeAll (its.filter wanted)).length ≤ (encodeAll (its.filter kept)).length := by
  have : (its.filter wanted).Sublist (its.filter kept) :=
    monotone_filter_right its fun it hit => by
      cases it with
      | data b => cases hit
      | command c hc => exact hit
      | option v o => rfl
      | sub p => rfl
  exact (this.flatMap Item.encode).length_le

/-- **An item sent in part is sent again, or its rest is lost.** -/
theorem not_clears_inside {it : Item} {sent unsent : List Item}
    (hclear : netclear n.nfrontp n = some n') (hb : n'.nbackp = 0) (hw : n'.written = n.written)
    (hheld : n'.held = encodeAll ((it :: unsent).filter kept)) (h0 : 0 < j)
    (hj : j < it.encode.length) (hwritten : n.written = encodeAll sent ++ it.encode.take j) :
    ¬ Clears n sent [it] unsent := by
  rw [clears_spec hclear hb hw hheld, hwritten]
  intro he
  have he : it.encode.take j ++ encodeAll ((it :: unsent).filter kept) =
      it.encode.take j ++ (it.encode.drop j ++ encodeAll (unsent.filter wanted)) := by
    rw [← append_assoc (it.encode.take j) (it.encode.drop j), take_append_drop]
    refine append_cancel_left (?_ : encodeAll sent ++ _ = encodeAll sent ++ _)
    rw [← append_assoc, he]
    simp
  have he := append_cancel_left he
  by_cases hk : kept it = true
  · -- sent again: what is left is too long
    have hlen := congrArg List.length he
    have hle := length_wanted_le_kept unsent
    rw [filter_cons_of_pos hk, encodeAll_cons, length_append, length_append,
      length_drop] at hlen
    omega
  · -- dropped: what is left starts with an `IAC`, and the rest of the item does not
    rw [filter_cons_of_neg hk] at he
    cases it with
    | data b =>
      have hb : ¬ b = IAC := by simpa [kept] using hk
      rw [Item.encode, if_neg hb, length_singleton] at hj
      omega
    | command c hc =>
      have hj : j < 2 := hj
      obtain rfl : j = 1 := by omega
      have := encodeAll_kept_head he
      subst this
      exact absurd hc (by decide)
    | option v o => exact hk rfl
    | sub p => exact hk rfl

/-- **When `netclear` clears the path**: something is queued, the last write ended between two
items, and no data byte `IAC` is among those not sent. -/
theorem clears_iff {sent part unsent : List Item} (h : Whole n old its)
    (hp : Progress n sent part unsent) :
    Clears n sent part unsent ↔ n.nbackp < n.nfrontp ∧ part = [] ∧ .data IAC ∉ unsent := by
  have h1 := h.wf.back_le
  have hlen := length_held n
  rw [h.held_eq] at hlen
  rcases h.back_lt with hlt | hzero
  · rcases hp.written_eq with ⟨hpart, hw⟩ | ⟨it, j, hpart, h0, hj, hw⟩
    · obtain ⟨done, -, rfl, hback⟩ := progress_boundary h hp hpart
      cases unsent with
      | nil => rw [append_nil] at hlen; omega
      | cons it rest =>
        obtain ⟨n', hc, hb', hw', hh'⟩ := netclear_spec h.held_eq hback.ge
          (by have := encode_length_pos it; omega)
        rw [clears_spec hc hb' hw' hh', hw, hpart, append_nil, ← encodeAll_append]
        constructor
        · intro he
          exact ⟨hlt, rfl, filter_kept_eq.mp (append_cancel_left (encodeAll_injective he))⟩
        · rintro ⟨-, -, hno⟩
          rw [filter_kept_eq.mpr hno]
    · obtain ⟨done, -, rfl, hback⟩ := progress_inside h hp hpart hj hw
      obtain ⟨n', hc, hb', hw', hh'⟩ := netclear_spec h.held_eq (by omega) (by omega)
      rw [hpart]
      exact iff_of_false (not_clears_inside hc hb' hw' hh' h0 hj hw) fun h2 => by cases h2.2.1
  · exact iff_of_false (not_clears_of_empty hzero (by omega) _ _ _) fun h2 => by omega

/-- **Clearing the path to the network**, in every state that calls which queue whole items
reach. -/
theorem netclear_clears_iff (buf : ℕ → Byte) (not42 : Bool) (calls : List Call)
    (h : Allowed step queuesItems (ioSetup buf not42) calls) :
    let n := run step (ioSetup buf not42) calls
    (∃ sent part unsent, Progress n sent part unsent) ∧
      ∀ sent part unsent, Progress n sent part unsent →
        (Clears n sent part unsent ↔
          n.nbackp < n.nfrontp ∧ part = [] ∧ .data IAC ∉ unsent) := by
  obtain ⟨old, its, hw⟩ := whole_run h
  exact ⟨exists_progress hw, fun sent part unsent hp => clears_iff hw hp⟩

/-- An option command is sent, then text and another command are queued. -/
def synchCalls : List Call :=
  [.outputData 4 [IAC, WILL, 1] .wouldBlock, .netflush (.accepted 3),
    .copyLoop false [65, CR, LF], .outputData 4 [IAC, DO, 6] .wouldBlock]

theorem netclear_clears_iff_synchCalls :
    Allowed step queuesItems (ioSetup (fun _ => 0) true) synchCalls ∧
      let n := run step (ioSetup (fun _ => 0) true) synchCalls
      (∃ sent part unsent, Progress n sent part unsent) ∧
        ∀ sent part unsent, Progress n sent part unsent →
          (Clears n sent part unsent ↔
            n.nbackp < n.nfrontp ∧ part = [] ∧ .data IAC ∉ unsent) := by
  have h : Allowed step queuesItems (ioSetup (fun _ => 0) true) synchCalls := by
    refine ⟨⟨.inl (by decide), fun l hl => ⟨[.option .WILL 1], mem_singleton.mp hl⟩⟩,
      ⟨trivial, fun l hl => by cases hl⟩, ⟨trivial, fun l hl => ?_⟩,
      ⟨.inl (by decide), fun l hl => ⟨[.option .DO 6], mem_singleton.mp hl⟩⟩, trivial⟩
    rcases mem_cons.mp hl with rfl | hl
    · exact ⟨[.data 65], rfl⟩
    · exact ⟨[.data CR, .data LF], mem_singleton.mp hl⟩
  exact ⟨h, netclear_clears_iff _ _ _ h⟩

/-- **An option command sent again**: one byte of `IAC WILL ECHO` is sent when the path is cleared.
The client receives `IAC IAC WILL ECHO`, three data bytes. -/
theorem option_sent_again :
    let n := run step (ioSetup (fun _ => 0) true)
      [.outputData 4 [IAC, WILL, 1] .wouldBlock, .netflush (.accepted 1)]
    Progress n [] [.option .WILL 1] [] ∧
      (netclear n.nfrontp n).map (fun n' => n'.written ++ n'.pending) = some [IAC, IAC, WILL, 1] ∧
      ¬ Clears n [] [.option .WILL 1] [] := by
  have hmap : (netclear 3 (run step (ioSetup (fun _ => 0) true)
      [.outputData 4 [IAC, WILL, 1] .wouldBlock, .netflush (.accepted 1)])).map
        (fun n' => n'.written ++ n'.pending) = some [IAC, IAC, WILL, 1] := by decide
  refine ⟨⟨by decide, .inr ⟨_, 1, rfl, by decide, by decide, by decide⟩⟩, hmap, ?_⟩
  rintro ⟨n', h1, h2⟩
  have h3 : some (n'.written ++ n'.pending) = some [IAC, IAC, WILL, 1] := by
    rw [← hmap]
    exact (congrArg (Option.map fun n' => n'.written ++ n'.pending) h1).symm
  rw [Option.some.inj h3, parse_eq_some] at h2
  exact absurd h2 (by decide)

end Inetutils.Telnetd.Synch
