import Inetutils.Ftp.Descriptors
import Inetutils.Lib.Runs

/-! # The transfers of ftp

`sendrequest` and `recvrequest` of `src/ftp.c` with `disconnect` of `src/cmds.c`, over the data
connection. Where the program hangs or dies it is taken to go on. -/

namespace Inetutils.Ftp.Descriptors

open Lib.Runs Lib.Descriptors List Option

/-! ### The transfers -/

/-- The local file: a standard stream, one that is opened, or none; or the interrupt comes first. -/
inductive Local
  | std
  | file (p : Pick)
  | failed
  | intr

/-- After an interrupt before the transfer: the replies that are awaited, but for the last. -/
def settle : List Reply → Client → Client
  | [], s => { s with control := s.control.pend false }
  | r :: rs, s => if s.control.ctl.cpend then settle rs (s.getreply r) else s

def landing (rs : List Reply) (s : Client) : Client := (settle rs s).giveUpOpen

def Client.opened (p : Pick) (s : Client) : Client := { s with table := s.table.opened p .file }

/-- What happens at a call of `sendrequest`. `change` is the reply to TYPE where one is sent, `seek`
whether the file has the restart point; `finish` is the reply behind the transfer, unless it is
interrupted, and `after` the one that is read at `abort`. -/
structure Put where
  change : Option Reply
  fin : Local
  pending : List Reply
  conn : Conn
  rest : Option Reply
  seek : Bool
  cmd : Reply
  accept : Accept
  sent : Bool
  finish : Reply
  after : Reply

/-- The label `abort` of `sendrequest`. -/
def abortSend (t : Put) (dout fin : Option ℕ) (s : Client) : Client :=
  if s.control.ctl.cpend then
    match ((s.giveUpOpen.fclose dout).control.getreply t.after).ret with
    | none => (s.giveUpOpen.fclose dout).getreply t.after
    | some _ => ((s.giveUpOpen.fclose dout).getreply t.after).fclose fin
  else s

def endSend (t : Put) (dout fin : Option ℕ) (s : Client) : Client :=
  match (s.control.getreply t.finish).ret with
  | none => abortSend t dout fin (((s.fclose fin).fclose dout).getreply t.finish)
  | some _ => ((s.fclose fin).fclose dout).getreply t.finish

def send (t : Put) (fin : Option ℕ) (s : Client) : Client :=
  match dataconn t.accept s with
  | (none, s) => abortSend t none fin s
  | (some dout, s) => if t.sent then endSend t dout fin s else abortSend t dout fin s

def beginSend (t : Put) (fin : Option ℕ) (s : Client) : Client :=
  if t.rest.isSome ∧ ¬ t.seek then s.fclose fin
  else
    match (s.control.begin t.rest t.cmd).ret with
    | none => abortSend t none fin (s.heard (s.control.begin t.rest t.cmd))
    | some n =>
      if n = 1 then send t fin (s.heard (s.control.begin t.rest t.cmd))
      else (s.heard (s.control.begin t.rest t.cmd)).fclose fin

def connSend (t : Put) (fin : Option ℕ) (s : Client) : Client :=
  match initconn t.conn s with
  | (.intr, s) => landing t.pending s
  | (.failed, s) => s.fclose fin
  | (.done, s) => beginSend t fin s

def openSend (t : Put) (s : Client) : Client :=
  match t.fin with
  | .std => connSend t none s
  | .file p => connSend t (some (p.of s.table)) (s.opened p)
  | .failed => s
  | .intr => landing t.pending s

/-- With `proxy` the commands of `proxtrans` are steps of their own. TYPE is sent before
`setjmp`, and an interrupt then leaves. -/
def sendrequest (t : Put) (s : Client) : Client :=
  if s.control.proxy then s
  else
    match t.change with
    | none => openSend t s
    | some r =>
      match (s.control.command r).ret with
      | none => s.heard (s.control.command r)
      | some _ => openSend t (s.heard (s.control.command r))

/-- What happens at a call of `recvrequest`. `seek` is whether the file has the restart point,
`empty` whether `empty` finds something in `abort_remote`, and `after` are the replies that are read
there. -/
structure Get where
  retr : Bool
  change : Option Reply
  pending : List Reply
  conn : Conn
  rest : Option Reply
  cmd : Reply
  accept : Accept
  fout : Local
  seek : Bool
  received : Bool
  finish : Reply
  empty : Bool
  after : List Reply

def abortRemote (t : Get) (s : Client) : Client :=
  t.after.foldl (fun s r => s.getreply r)
    (if t.empty then s else s.heard ⟨none, s.control.ctl.connected, s.control.lostpeer⟩)

/-- The label `abort` of `recvrequest`. -/
def abortRecv (t : Get) (din fout : Option ℕ) (s : Client) : Client :=
  if s.control.ctl.cpend then (((abortRemote t s).giveUpOpen).fclose fout).fclose din else s

/-- The handler of SIGINT is put back before the reply is read, so that an interrupt does not lead
to `abort`. -/
def endRecv (t : Get) (din fout : Option ℕ) (s : Client) : Client :=
  ((s.fclose fout).fclose din).getreply t.finish

def copy (t : Get) (din fout : Option ℕ) (s : Client) : Client :=
  if ¬ t.seek then s.fclose fout
  else if t.received then endRecv t din fout s
  else abortRecv t din fout s

def recv (t : Get) (s : Client) : Client :=
  match dataconn t.accept s with
  | (none, s) => abortRecv t none none s
  | (some din, s) =>
    match t.fout with
    | .std => copy t din none s
    | .file p => copy t din (some (p.of s.table)) (s.opened p)
    | .failed | .intr => abortRecv t din none s

def beginRecv (t : Get) (s : Client) : Client :=
  match (s.control.begin t.rest t.cmd).ret with
  | none => abortRecv t none none (s.heard (s.control.begin t.rest t.cmd))
  | some n =>
    if n = 1 then recv t (s.heard (s.control.begin t.rest t.cmd))
    else s.heard (s.control.begin t.rest t.cmd)

def connRecv (t : Get) (s : Client) : Client :=
  match initconn t.conn s with
  | (.intr, s) => landing t.pending s
  | (.failed, s) => s
  | (.done, s) => beginRecv t s

/-- The TYPE command, too, is interrupted to the first `setjmp`. -/
def openRecv (t : Get) (s : Client) : Client :=
  match t.change with
  | none => connRecv t s
  | some r =>
    match (s.control.command r).ret with
    | none => landing t.pending (s.heard (s.control.command r))
    | some _ => connRecv t (s.heard (s.control.command r))

def recvrequest (t : Get) (s : Client) : Client :=
  if s.control.proxy ∧ t.retr then s else openRecv t s

/-! ### Steps -/

def quit (r : Reply) (s : Client) : Client :=
  match r with
  | .eof _ => { s with control := s.control.pend true }
  | r => s.heard (s.control.command r)

/-- An interrupt leaves it after QUIT. -/
def disconnect (r : Reply) (s : Client) : Client :=
  if s.control.ctl.connected then
    if (s.control.command r).ret.isNone then quit r s
    else { quit r s with data := none, control := (quit r s).control.connect false }
  else s

/-- The transfers; the toggles; a connection that is opened, one that is closed; and what all the
other commands are made of, with those of `proxtrans`, `login` and `reset`: commands, replies, and
`lostpeer` by itself. -/
inductive Act
  | put (t : Put)
  | get (t : Get)
  | setpassive
  | setport
  | setepsv4
  | pswitch (flag : Bool)
  | connect (inet6 : Bool)
  | disconnect (r : Reply)
  | command (r : Reply)
  | reply (r : Reply)
  | lostpeer

def step (s : Client) : Act → Client
  | .put t => sendrequest t s
  | .get t => recvrequest t s
  | .setpassive => { s with passivemode := !s.passivemode }
  | .setport => { s with sendport := if s.sendport = 0 then 1 else 0 }
  | .setepsv4 => { s with control := { s.control with doepsv4 := !s.control.doepsv4 } }
  | .pswitch flag => { s with control := s.control.pswitch flag }
  | .connect inet6 =>
    if s.control.ctl.connected then s
    else { s with control := { s.control with ctl := ⟨true, s.control.ctl.cpend, inet6⟩ } }
  | .disconnect r => disconnect r s
  | .command r => s.heard (s.control.command r)
  | .reply r => s.getreply r
  | .lostpeer => s.heard ⟨none, s.control.ctl.connected, s.control.lostpeer⟩

def init : Client :=
  ⟨none, [], [], ⟨⟨false, false, false⟩, ⟨false, false, false⟩, false, false⟩, false, -1⟩

/-! ### The condition -/

def Put.Finishes (t : Put) (s : Client) : Prop :=
  t.conn.Succeeds s ∧ (t.rest.isSome → t.seek) ∧
    ((t.conn.control s).begin t.rest t.cmd).ret = some 1 ∧
    t.accept.Streams s ∧ t.sent

def Get.Finishes (t : Get) (s : Client) : Prop :=
  t.conn.Succeeds s ∧ ((t.conn.control s).begin t.rest t.cmd).ret = some 1 ∧ t.accept.Streams s ∧
    (match t.fout with | .std | .file _ => True | .failed | .intr => False) ∧ t.seek ∧ t.received

/-- The reply keeps the peer. -/
def Stays : Reply → Prop
  | .digit _ _ => True
  | _ => False

/-- The reply behind a file that is sent: it is not a first one that is interrupted, too. -/
def Ends (r : Reply) : Prop := Stays r ∧ r ≠ .digit 1 true

/-- `changetype` sends TYPE. -/
def Client.changetype (r : Option Reply) (s : Client) : Client :=
  r.elim s fun r => s.heard (s.control.command r)

/-- `lostpeer` does not come with a stale number. -/
def Keeps (h : Heard) (s : Client) : Prop := h.drops → ¬ Stale s

/-- `initconn` keeps the descriptors; no transfer begins without one; and the end of a transfer
keeps them. -/
structure Put.Passes (t : Put) (s : Client) : Prop where
  opens : t.conn.Opens s
  begins :
    t.conn.Lost s → (t.rest.isSome → t.seek) → ((t.conn.control s).begin t.rest t.cmd).ret ≠ some 1
  ends : t.Finishes s → Ends t.finish

structure Get.Passes (t : Get) (s : Client) : Prop where
  opens : t.conn.Opens s
  begins : t.conn.Lost s → ((t.conn.control s).begin t.rest t.cmd).ret ≠ some 1
  ends : t.Finishes s → Stays t.finish

def Put.Sound (t : Put) (s : Client) : Prop :=
  match t.fin with
  | .failed => True
  | .intr => ¬ Stale s
  | .std | .file _ => t.Passes s

/-- **The condition** on a step. -/
def Sound (s : Client) : Act → Prop
  | .put t => s.control.proxy = false →
    (∀ r ∈ t.change, Keeps (s.control.command r) s) ∧
      ((∀ r ∈ t.change, (s.control.command r).ret ≠ none) → t.Sound (s.changetype t.change))
  | .get t => ¬ (s.control.proxy ∧ t.retr) →
    (∀ r ∈ t.change, Keeps (s.control.command r) s ∧
      ((s.control.command r).ret = none → ¬ Stale s)) ∧
      ((∀ r ∈ t.change, (s.control.command r).ret ≠ none) → t.Passes (s.changetype t.change))
  | .disconnect r => s.control.ctl.connected →
    match r with
    | .closing _ => ¬ Stale s
    | r => (s.control.command r).ret ≠ none → ¬ Live s
  | .command r => Keeps (s.control.command r) s
  | .reply r => Keeps (s.control.getreply r) s
  | .lostpeer => s.control.ctl.connected → ¬ Stale s
  | _ => True

/-! ### `sendrequest` -/

section
variable {F : List ℕ} {f : Option ℕ} {s : Client}

theorem Ready.control (h : Ready f s) (c : Control) : Ready f { s with control := c } :=
  ⟨⟨h.tidy.closes, h.tidy.held⟩, h.file⟩

theorem Ready.settle (h : Ready f s) (hs : ¬ Stale s) (rs : List Reply) :
    Ready f (settle rs s) ∧ ¬ Stale (settle rs s) := by
  induction rs generalizing s with
  | nil => exact ⟨h.control _, hs⟩
  | cons r rs ih =>
    unfold Descriptors.settle
    split
    · exact ih (h.heard fun _ => hs) (not_stale_heard hs _)
    · exact ⟨h, hs⟩

theorem Spoilt.settle (h : Spoilt F s) (rs : List Reply) : Spoilt F (settle rs s) := by
  induction rs generalizing s with
  | nil => exact h
  | cons r rs ih =>
    unfold Descriptors.settle
    split
    · exact ih (h.getreply r)
    · exact h

theorem stale_settle (F : List ℕ) (h : Stale s) (rs : List Reply) :
    Spoilt F (settle rs s) ∨ Stale (settle rs s) := by
  induction rs generalizing s with
  | nil => exact .inr h
  | cons r rs ih =>
    unfold settle
    split
    · by_cases hd : (s.control.getreply r).drops
      · exact .inl ((spoilt_heard F hd h).settle rs)
      · refine ih ?_
        unfold Client.getreply
        rw [heard_of_not_drops s hd]
        exact h
    · exact .inr h

/-- **An interrupt before the transfer**: what is in `data` is closed. -/
theorem tidy_landing_iff (h : Ready f s) (rs : List Reply) : Tidy (landing rs s) ↔ ¬ Stale s := by
  constructor
  · intro ht hs
    rcases stale_settle [] hs rs with hp | hp
    · exact hp.giveUpOpen.not_tidy ht
    · exact (spoilt_giveUpOpen [] hp).not_tidy ht
  · intro hs
    obtain ⟨h1, h2⟩ := h.settle hs rs
    exact (h1.giveUpOpen h2).tidy

theorem Spoilt.landing (h : Spoilt F s) (rs : List Reply) : Spoilt F (landing rs s) :=
  (h.settle rs).giveUpOpen

theorem tidy_abortSend (h : Ready f s) (hs : ¬ Stale s) (t : Put) (dout : Option ℕ) :
    Tidy (abortSend t dout f s) := by
  unfold abortSend
  split
  · have hnone := giveUpOpen_data s
    have h1 := (h.giveUpOpen hs).tidy.fclose dout
    have h2 := (ready_none h1).heard (r := (s.giveUpOpen.fclose dout).control.getreply t.after)
      fun _ => not_stale_of_none hnone
    split
    · exact h2.tidy
    · exact h2.tidy.fclose f
  · exact h.tidy

variable {dout din : Option ℕ} {c : Control} {r cmd : Reply} {rest : Option Reply} {d : ℕ}
  {s' : Client}

theorem Spoilt.abortSend (h : Spoilt F s) (t : Put) (hd : ∀ n ∈ dout, n ∈ F) (hf : ∀ n ∈ f, n ∈ F) :
    Spoilt F (abortSend t dout f s) := by
  have hs := (h.giveUpOpen.fclose hd).getreply t.after
  unfold Descriptors.abortSend
  split
  · split
    · exact hs
    · exact hs.fclose hf
  · exact h


/-- **The end of a transfer**, with a stale number: a reply is read. -/
theorem tidy_getreply_iff (h : Tidy s) (hs : Stale s) (hc : s.control.ctl.connected) (r : Reply) :
    Tidy (s.getreply r) ↔ Stays r := by
  rcases r with i | i | ⟨n, i⟩
  · exact iff_of_false (spoilt_heard [] hc hs).not_tidy id
  · exact iff_of_false (spoilt_heard [] hc hs).not_tidy id
  · exact iff_of_true ((ready_none h).heard fun hd => absurd hd Bool.false_ne_true).tidy trivial

theorem command_begun (h : (c.command r).ret = some 1) :
    (c.command r).control.ctl.connected ∧ (c.command r).control.ctl.cpend := by
  unfold Control.command at h ⊢
  split at h
  next hc =>
    rw [if_pos hc]
    rcases r with (- | -) | (- | -) | ⟨n, - | -⟩
    · cases h
    · cases h
    · cases h
    · cases h
    · obtain rfl : n = 1 := some.inj h
      exact ⟨hc, rfl⟩
    · cases h
  · cases h

theorem begin_begun (h : (c.begin rest cmd).ret = some 1) :
    (c.begin rest cmd).control.ctl.connected ∧ (c.begin rest cmd).control.ctl.cpend := by
  unfold Control.begin at h ⊢
  rcases rest with - | r
  · exact command_begun h
  · dsimp only at h ⊢
    rcases hr : (c.command r).ret with - | n
    · rw [hr] at h
      have := hr.symm.trans h
      cases this
    · rw [hr] at h
      dsimp only at h ⊢
      by_cases hn : n = 3
      · rw [if_pos hn] at h ⊢
        exact command_begun h
      · rw [if_neg hn] at h
        cases h

theorem command_drops {n : ℕ} (h : (c.command r).drops) (hr : (c.command r).ret = some n) :
    n = 4 := by
  unfold Control.command at h hr
  split at h
  next hc =>
    rw [if_pos hc] at hr
    rcases r with (- | -) | (- | -) | ⟨n, i⟩
    · exact (some.inj hr).symm
    · cases hr
    · exact (some.inj hr).symm
    · cases hr
    · cases h
  · cases h

theorem begin_drops (h : (c.begin rest cmd).ret = some 1) : ¬ (c.begin rest cmd).drops := by
  intro hd
  unfold Control.begin at h hd
  rcases rest with - | r
  · have := command_drops hd h
    omega
  · dsimp only at h hd
    rcases hr : (c.command r).ret with - | n
    · rw [hr] at h
      have := hr.symm.trans h
      cases this
    · rw [hr] at h hd
      dsimp only at h hd
      by_cases hn : n = 3
      · rw [if_pos hn] at h hd
        rcases Bool.or_eq_true_iff.1 hd with hd | hd
        · have := command_drops hd hr
          omega
        · have := command_drops hd h
          omega
      · rw [if_neg hn] at h
        cases h

theorem closed_spec (h : Tidy s) (f : Option ℕ) (hd : s.data = some d) :
    Tidy ((s.fclose f).fclose (some d)) ∧ Stale ((s.fclose f).fclose (some d)) := by
  have hself : ((s.fclose f).fclose (some d)).table.get d = none := get_close_self _ _
  exact ⟨(h.fclose f).fclose (some d),
    stale_iff.2 ⟨d, hd, by rw [hself]; exact (some_ne_none _).symm⟩⟩

theorem tidy_endSend_iff (h : Tidy s) (hd : s.data = some d)
    (hb : s.control.ctl.connected ∧ s.control.ctl.cpend) (t : Put) :
    Tidy (endSend t (some d) f s) ↔ Ends t.finish := by
  obtain ⟨ht, hst⟩ := closed_spec h f hd
  have hreply := tidy_getreply_iff ht hst hb.1
  unfold endSend Ends
  rcases t.finish with i | i | ⟨n, - | -⟩
  · exact (hreply (.eof i)).trans ⟨fun hx => absurd hx id, fun hx => hx.1⟩
  · refine iff_of_false (fun hx => ?_) fun hx => hx.1
    have hspoilt : Spoilt (d :: f.toList) (((s.fclose f).fclose (some d)).getreply (.closing i)) :=
      spoilt_heard _ hb.1 hst
    rcases i with - | -
    · exact hspoilt.not_tidy hx
    · exact (hspoilt.abortSend t (fun m hm => some.inj hm ▸ mem_cons_self)
        fun m hm => mem_cons_of_mem _ (mem_toList.2 hm)).not_tidy hx
  · exact iff_of_true ((hreply (.digit n false)).2 trivial) ⟨trivial, fun hx => by cases hx⟩
  · show Tidy (abortSend _ _ _ _) ↔ _
    by_cases hn : n = 1
    · subst hn
      refine iff_of_false (Spoilt.not_tidy (F := d :: f.toList) ?_) fun hx => hx.2 rfl
      have hf : ∀ m ∈ f, m ∈ d :: f.toList := fun m hm => mem_cons_of_mem _ (mem_toList.2 hm)
      have hcp : (((s.fclose f).fclose (some d)).getreply (.digit 1 true)).control.ctl.cpend := hb.2
      unfold abortSend
      rw [if_pos hcp]
      have hst' : Stale (((s.fclose f).fclose (some d)).getreply (.digit 1 true)) := hst
      have hd' : ∀ m ∈ some d, m ∈ d :: f.toList := fun m hm => some.inj hm ▸ mem_cons_self
      have hs := ((spoilt_giveUpOpen _ hst').fclose hd').getreply t.after
      split
      · exact hs
      · exact hs.fclose hf
    · have hcp :
          (((s.fclose f).fclose (some d)).getreply (.digit n true)).control.ctl.cpend = false := by
        show (if n = 1 then _ else Control.pend false _).ctl.cpend = false
        rw [if_neg hn]
        rfl
      unfold abortSend
      rw [hcp]
      exact iff_of_true ((hreply (.digit n true)).2 trivial)
        ⟨trivial, fun hx => hn (Reply.digit.inj hx).1⟩

/-- **A connection is accepted**, and the socket that listened is closed. -/
theorem Ready.accepted (h : Ready f s) (hl : Live s) (p : Pick) :
    Ready f (s.accepted p) ∧ Live (s.accepted p) := by
  obtain ⟨d, hd, hg⟩ := live_iff.1 hl
  have hne : p.of s.table ≠ d := of_ne_of_some hg p
  have ht : (s.accepted p).table = (s.table.opened p .data).close d := by
    show s.data.elim (s.table.opened p .data) (s.table.opened p .data).close = _
    rw [hd]
    rfl
  refine ⟨⟨⟨fun u hu => ?_, fun fd hfd => ?_⟩, fun n hn => ?_⟩, live_iff.2 ⟨p.of s.table, rfl, ?_⟩⟩
  · have hu' : u ∈ s.closes ++ [s.data.bind (s.table.opened p .data).get] := hu
    rw [mem_append, mem_singleton] at hu'
    rcases hu' with hu' | rfl
    · exact h.tidy.closes u hu'
    · rw [hd]
      exact get_opened_of_some hg p _
  · rw [ht] at hfd
    have hfd1 : fd ≠ d := by
      rintro rfl
      rw [get_close_self] at hfd
      cases hfd
    rw [get_close_of_ne hfd1] at hfd
    by_cases hfree : p.of s.table = fd
    · exact congrArg some hfree
    · have hfd' : s.table.get fd = some .data := (get_cons_of_ne Use.data hfree).symm.trans hfd
      exact absurd (some.inj ((h.tidy.held fd hfd').symm.trans hd)) hfd1
  · have hn' := h.file n hn
    have hnd : n ≠ d := by
      rintro rfl
      have := hn'.symm.trans hg
      cases this
    rw [ht, get_close_of_ne hnd]
    exact get_opened_of_some hn' p _
  · rw [ht, get_close_of_ne hne]
    exact get_cons_self _ _ _

/-- **What `dataconn` leaves**: a stream over what is in `data`, or none. -/
theorem dataconn_spec (h : Ready f s) (hl : Live s) (a : Accept) :
    Ready f (dataconn a s).2 ∧ ¬ Stale (dataconn a s).2 ∧ Framed s (dataconn a s).2 ∧
      (∀ d ∈ (dataconn a s).1, Live (dataconn a s).2 ∧ (dataconn a s).2.data = some d) ∧
      ((dataconn a s).1.isSome ↔ a.Streams s) := by
  obtain ⟨d, hd, -⟩ := live_iff.1 hl
  have hfresh := not_stale_iff.2 (.inr hl)
  unfold dataconn Accept.Streams
  by_cases hm : s.passivemode
  · rw [if_pos hm, hm]
    refine ⟨h, hfresh, ⟨rfl, rfl⟩, fun n hn => ⟨hl, ?_⟩, ?_⟩
    · dsimp only at hn
      split at hn
      · exact hn
      · cases hn
    · rcases a.fdopen with - | -
      · simp
      · simp [hd]
  · rw [if_neg hm, Bool.eq_false_iff.2 hm]
    by_cases hi : a.intr
    · rw [if_pos ⟨by rw [hd]; rfl, hi⟩]
      refine ⟨h, hfresh, ⟨rfl, rfl⟩, none_mem, ?_⟩
      simp [hi]
    · rw [if_neg fun hx => hi hx.2, hd]
      rcases ha : a.accept with - | p
      · refine ⟨h.giveUp hl, not_stale_of_none rfl, ⟨rfl, rfl⟩, none_mem, ?_⟩
        simp
      · obtain ⟨hr, hlive⟩ := h.accepted hl p
        refine ⟨hr, not_stale_iff.2 (.inr hlive), ⟨rfl, rfl⟩, fun n hn => ⟨hlive, ?_⟩, ?_⟩
        · dsimp only at hn
          split at hn
          · exact hn
          · cases hn
        · rcases a.fdopen with - | - <;> simp [hi]

theorem spoilt_dataconn (F : List ℕ) (hd : s.data = none) (hm : s.passivemode = false)
    (a : Accept) :
    (dataconn a s).1 = none ∧ Spoilt F (dataconn a s).2 := by
  unfold dataconn
  rw [hm, if_neg (by decide), hd, if_neg (by simp)]
  exact ⟨rfl, spoilt_giveUp F (not_live_of_none hd)⟩

theorem Spoilt.dataconn (h : Spoilt F s) (a : Accept) : Spoilt F (dataconn a s).2 := by
  unfold Descriptors.dataconn
  split
  · exact h
  · split
    · exact h
    · split
      · exact h.accepted _
      · exact h.giveUp

/-- **`sendrequest` from the data connection on.** -/
theorem tidy_send_iff (h : Ready f s) (hl : Live s)
    (hb : s.control.ctl.connected ∧ s.control.ctl.cpend) (t : Put) :
    Tidy (send t f s) ↔ (t.accept.Streams s → t.sent → Ends t.finish) := by
  obtain ⟨h1, h2, h3, h4, h5⟩ := dataconn_spec h hl t.accept
  unfold send
  rcases hdc : dataconn t.accept s with ⟨- | d, s1⟩
  · rw [hdc] at h1 h2 h5
    refine iff_of_true (tidy_abortSend h1 h2 t none) fun hs => ?_
    exact absurd (h5.2 hs) Bool.false_ne_true
  · rw [hdc] at h1 h2 h3 h4 h5
    obtain ⟨hlive, hdata⟩ := h4 d rfl
    have hs : t.accept.Streams s := h5.1 rfl
    dsimp only at *
    by_cases hsent : t.sent
    · rw [if_pos hsent, tidy_endSend_iff h1.tidy hdata (by rw [h3.control]; exact hb)]
      exact ⟨fun he _ _ => he, fun he => he hs hsent⟩
    · rw [if_neg hsent]
      exact iff_of_true (tidy_abortSend h1 h2 t (some d)) fun _ hx => absurd hx hsent

theorem dataconn_data (a : Accept) (s : Client) :
    ∀ d ∈ (dataconn a s).1, (dataconn a s).2.data = some d := by
  intro d hd
  unfold dataconn at hd ⊢
  split at hd
  next hm =>
    rw [if_pos hm]
    dsimp only at hd
    split at hd
    · exact hd
    · cases hd
  next hm =>
    rw [if_neg hm]
    split at hd
    · cases hd
    next hi =>
      rw [if_neg hi]
      split at hd
      next p hdata ha =>
        dsimp only at hd
        split at hd
        · exact hd
        · cases hd
      · cases hd

theorem Spoilt.of_cons (h : Spoilt (d :: F) s) : Spoilt F s := by
  rcases h with hb | ⟨d', hF, hd'⟩
  · exact .inl hb
  · exact .inr ⟨d', fun hm => hF (mem_cons_of_mem _ hm), hd'⟩

theorem Spoilt.endSend (h : Spoilt F s) (t : Put) (hd : ∀ n ∈ dout, n ∈ F) (hf : ∀ n ∈ f, n ∈ F) :
    Spoilt F (endSend t dout f s) := by
  have hs := ((h.fclose hf).fclose hd).getreply t.finish
  unfold Descriptors.endSend
  split
  · exact hs.abortSend t hd hf
  · exact hs

theorem Spoilt.send (h : Spoilt F s) (t : Put) (hf : ∀ n ∈ f, n ∈ F) : Spoilt F (send t f s) := by
  have hs := h.dataconn t.accept
  have hdata := dataconn_data t.accept s
  unfold Descriptors.send
  rcases hdc : Descriptors.dataconn t.accept s with ⟨- | d, s1⟩
  · rw [hdc] at hs
    exact hs.abortSend t none_mem hf
  · rw [hdc] at hs hdata
    have hs' : Spoilt (d :: F) s1 := hs.cons (hdata d rfl)
    have hf' : ∀ n ∈ f, n ∈ d :: F := fun n hn => mem_cons_of_mem _ (hf n hn)
    have hd' : ∀ n ∈ some d, n ∈ d :: F := fun n hn => by
      obtain rfl : d = n := some.inj hn
      exact mem_cons_self
    dsimp only
    split
    · exact (hs'.endSend t hd' hf').of_cons
    · exact (hs'.abortSend t hd' hf').of_cons

theorem Spoilt.beginSend (h : Spoilt F s) (t : Put) (hf : ∀ n ∈ f, n ∈ F) :
    Spoilt F (beginSend t f s) := by
  have hh := h.heard (s.control.begin t.rest t.cmd)
  unfold Descriptors.beginSend
  split
  · exact h.fclose hf
  · split
    · exact hh.abortSend t none_mem hf
    · split
      · exact hh.send t hf
      · exact hh.fclose hf

theorem tidy_beginSend_iff (h : Ready f s) (hs : ¬ Stale s)
    (hm : s.data = none → s.passivemode = false) (t : Put) :
    Tidy (beginSend t f s) ↔
      (s.data = none → (t.rest.isSome → t.seek) → (s.control.begin t.rest t.cmd).ret ≠ some 1) ∧
      ((t.rest.isSome → t.seek) → (s.control.begin t.rest t.cmd).ret = some 1 →
        t.accept.Streams s → t.sent → Ends t.finish) := by
  unfold beginSend
  by_cases hseek : t.rest.isSome ∧ ¬ t.seek
  · rw [if_pos hseek]
    exact iff_of_true (h.tidy.fclose f)
      ⟨fun _ hx => absurd (hx hseek.1) hseek.2, fun hx => absurd (hx hseek.1) hseek.2⟩
  rw [if_neg hseek]
  have hseek' : t.rest.isSome → t.seek := fun hr => by_contra fun hx => hseek ⟨hr, hx⟩
  have hrh := h.heard (r := s.control.begin t.rest t.cmd) fun _ => hs
  have hfh := not_stale_heard hs (s.control.begin t.rest t.cmd)
  rcases hret : (s.control.begin t.rest t.cmd).ret with - | n
  · exact iff_of_true (tidy_abortSend hrh hfh t none)
      ⟨fun _ _ => (some_ne_none 1).symm, fun _ hx => absurd hx (some_ne_none 1).symm⟩
  dsimp only
  by_cases hn : n = 1
  · subst hn
    rw [if_pos rfl]
    have hb := begin_begun hret
    have heq := heard_of_not_drops s (begin_drops hret)
    rcases not_stale_iff.1 hs with hd | hl
    · have hsp :=
        spoilt_dataconn f.toList (s := s.heard (s.control.begin t.rest t.cmd))
        (by rw [heq]; exact hd)
        (by rw [heq]; exact hm hd) t.accept
      refine iff_of_false (Spoilt.not_tidy (F := f.toList) ?_) fun hx => hx.1 hd hseek' rfl
      have hf : ∀ n ∈ f, n ∈ f.toList := fun n hn => mem_toList.2 hn
      unfold send
      rcases hdc : dataconn t.accept (s.heard (s.control.begin t.rest t.cmd)) with ⟨d, s1⟩
      rw [hdc] at hsp
      obtain rfl : d = none := hsp.1
      exact hsp.2.abortSend t none_mem hf
    · rw [tidy_send_iff hrh (live_heard (begin_drops hret) hl) hb]
      have hst : t.accept.Streams (s.heard (s.control.begin t.rest t.cmd)) ↔
        t.accept.Streams s := by
        rw [heq]
        exact Iff.rfl
      rw [hst]
      constructor
      · exact fun he => ⟨fun hnone => absurd hl (not_live_of_none hnone), fun _ _ => he⟩
      · exact fun he => he.2 hseek' rfl
  · rw [if_neg hn]
    have hn' : some n ≠ some 1 := fun hx => hn (some.inj hx)
    exact iff_of_true (hrh.tidy.fclose f) ⟨fun _ _ => hn', fun _ hx => absurd hx hn'⟩

theorem lost_succeeds {c : Conn} (h : c.Lost s) : c.Succeeds s := by
  obtain ⟨hm, hs, hb, -, -, hret⟩ := h
  refine ⟨hs, ?_⟩
  rw [hm, if_neg (by decide)]
  exact ⟨hb, fun _ => .inl hret⟩

theorem streams_iff (h : s'.passivemode = s.passivemode) (a : Accept) :
    a.Streams s' ↔ a.Streams s := by
  unfold Accept.Streams
  rw [h]

theorem Ready.file_ne (h : Ready f s) : ∀ n ∈ f.toList, s.table.get n ≠ some .data := by
  intro n hn heq
  have := (h.file n (mem_toList.1 hn)).symm.trans heq
  cases this

theorem tidy_connSend_iff (h : Ready f s) (t : Put) : Tidy (connSend t f s) ↔ t.Passes s := by
  have hf : ∀ n ∈ f, n ∈ f.toList := fun n hn => mem_toList.2 hn
  unfold connSend
  by_cases ho : t.conn.Opens s
  · obtain ⟨hr, hfresh, hdone, hframed, hlost⟩ := initconn_spec h ho
    have hno : ¬ t.conn.Succeeds s → t.Passes s := fun hx =>
      ⟨ho, fun hl => absurd (lost_succeeds hl) hx, fun hfin => absurd hfin.1 hx⟩
    rcases hi : initconn t.conn s with ⟨- | - | -, s1⟩
    · rw [hi] at hr hfresh hdone hframed hlost
      obtain ⟨hc, hm⟩ := hframed rfl
      have hsucc := hdone.1 rfl
      have hlost' : s1.data = none ↔ t.conn.Lost s := hlost rfl
      dsimp only at hr hfresh hc hm ⊢
      rw [tidy_beginSend_iff hr hfresh (fun hd => hm.trans (hlost'.1 hd).1) t, hlost', hc,
        streams_iff hm]
      constructor
      · exact fun hx => ⟨ho, hx.1, fun hfin => hx.2 hfin.2.1 hfin.2.2.1 hfin.2.2.2.1 hfin.2.2.2.2⟩
      · exact fun hx => ⟨hx.begins, fun h1 h2 h3 h4 => hx.ends ⟨hsucc, h1, h2, h3, h4⟩⟩
    · rw [hi] at hr hdone
      exact iff_of_true (hr.tidy.fclose f) (hno fun hx => Out.noConfusion (hdone.2 hx))
    · rw [hi] at hr hfresh hdone
      exact iff_of_true ((tidy_landing_iff hr _).2 hfresh)
        (hno fun hx => Out.noConfusion (hdone.2 hx))
  · refine iff_of_false (Spoilt.not_tidy (F := f.toList) ?_) fun hx => ho hx.opens
    have hs := spoilt_initconn h.file_ne ho
    split
    next s1 heq =>
      rw [heq] at hs
      exact hs.landing _
    next s1 heq =>
      rw [heq] at hs
      exact hs.fclose hf
    next s1 heq =>
      rw [heq] at hs
      exact hs.beginSend t hf

theorem Ready.opened (h : Tidy s) (p : Pick) : Ready (some (p.of s.table)) (s.opened p) := by
  refine ⟨⟨h.closes, fun fd hfd => ?_⟩, fun n hn => ?_⟩
  · have hne : p.of s.table ≠ fd := by
      rintro rfl
      have := (get_cons_self s.table (p.of s.table) Use.file).symm.trans hfd
      cases this
    exact h.held fd ((get_cons_of_ne Use.file hne).symm.trans hfd)
  · obtain rfl : p.of s.table = n := some.inj hn
    exact get_cons_self _ _ _

theorem live_opened (s : Client) (p : Pick) : Live (s.opened p) ↔ Live s := by
  rw [live_iff, live_iff]
  constructor
  · rintro ⟨d, hd, hg⟩
    refine ⟨d, hd, ?_⟩
    have hne : p.of s.table ≠ d := by
      rintro rfl
      have := (get_cons_self s.table (p.of s.table) Use.file).symm.trans hg
      cases this
    exact (get_cons_of_ne Use.file hne).symm.trans hg
  · rintro ⟨d, hd, hg⟩
    exact ⟨d, hd, get_opened_of_some hg p _⟩

theorem stale_opened (s : Client) (p : Pick) : Stale (s.opened p) ↔ Stale s :=
  and_congr Iff.rfl (not_congr (live_opened s p))

theorem passes_opened (s : Client) (p : Pick) (t : Put) : t.Passes (s.opened p) ↔ t.Passes s := by
  have ho : t.conn.Opens (s.opened p) ↔ t.conn.Opens s := by
    unfold Conn.Opens Conn.Passive
    rw [stale_opened, live_opened]
    exact Iff.rfl
  exact ⟨fun h => ⟨ho.1 h.opens, h.begins, h.ends⟩, fun h => ⟨ho.2 h.opens, h.begins, h.ends⟩⟩

theorem tidy_openSend_iff (h : Tidy s) (t : Put) : Tidy (openSend t s) ↔ t.Sound s := by
  unfold openSend Put.Sound
  rcases t.fin with - | p | - | -
  · exact tidy_connSend_iff (ready_none h) t
  · exact (tidy_connSend_iff (Ready.opened h p) t).trans (passes_opened s p t)
  · exact iff_of_true h trivial
  · exact tidy_landing_iff (ready_none h) t.pending

theorem tidy_heard_iff (h : Tidy s) (r : Heard) : Tidy (s.heard r) ↔ Keeps r s := by
  constructor
  · exact fun ht hd hs => (spoilt_heard [] hd hs).not_tidy ht
  · exact fun hk => ((ready_none h).heard hk).tidy

theorem Spoilt.initconn (h : Spoilt F s) (c : Conn) : Spoilt F (initconn c s).2 := by
  unfold Descriptors.initconn
  split
  · unfold passive
    split
    · exact h.nothing
    · exact (h.socket _).passiveReply c _
  · exact spoilt_active (h.noport c.socket c.bind)

theorem Spoilt.connSend (h : Spoilt F s) (t : Put) (hf : ∀ n ∈ f, n ∈ F) :
    Spoilt F (connSend t f s) := by
  have hs := h.initconn t.conn
  unfold Descriptors.connSend
  split
  next s1 heq =>
    rw [heq] at hs
    exact hs.landing _
  next s1 heq =>
    rw [heq] at hs
    exact hs.fclose hf
  next s1 heq =>
    rw [heq] at hs
    exact hs.beginSend t hf

theorem Spoilt.opened (h : Spoilt F s) (p : Pick) : Spoilt (p.of s.table :: F) (s.opened p) := by
  rcases h with hb | ⟨d, hF, hg, hne⟩
  · exact .inl hb
  · refine .inr ⟨d, ?_, get_opened_of_some hg p _, hne⟩
    rw [mem_cons, not_or]
    exact ⟨fun heq => of_ne_of_some hg p heq.symm, hF⟩

theorem Spoilt.openSend (h : Spoilt F s) (t : Put) : Spoilt F (openSend t s) := by
  unfold Descriptors.openSend
  rcases t.fin with - | p | - | -
  · exact h.connSend t none_mem
  · exact ((h.opened p).connSend t fun n hn => some.inj hn ▸ mem_cons_self).of_cons
  · exact h
  · exact h.landing _

theorem tidy_sendrequest_iff (h : Tidy s) (t : Put) : Tidy (sendrequest t s) ↔
    Sound s (.put t) := by
  unfold sendrequest
  show Tidy _ ↔ (s.control.proxy = false → (∀ r ∈ t.change, Keeps (s.control.command r) s) ∧
    ((∀ r ∈ t.change, (s.control.command r).ret ≠ none) → t.Sound (s.changetype t.change)))
  by_cases hp : s.control.proxy
  · rw [if_pos hp]
    exact iff_of_true h fun hx => absurd hp (by rw [hx]; decide)
  rw [if_neg hp]
  have hp' : s.control.proxy = false := Bool.eq_false_iff.2 hp
  rcases t.change with - | r
  · refine (tidy_openSend_iff h t).trans ?_
    exact ⟨fun hs _ => ⟨none_mem, fun _ => hs⟩, fun hs => (hs hp').2 none_mem⟩
  rw [show s.changetype (some r) = s.heard (s.control.command r) from rfl]
  dsimp only
  by_cases hk : Keeps (s.control.command r) s
  · have hkeeps : ∀ r' ∈ some r, Keeps (s.control.command r') s := fun r' hr => some.inj hr ▸ hk
    have ht := (tidy_heard_iff h _).2 hk
    rcases hret : (s.control.command r).ret with - | n
    · exact iff_of_true ht fun _ => ⟨hkeeps, fun hx => absurd hret (hx r rfl)⟩
    · refine (tidy_openSend_iff ht t).trans
        ⟨fun hs _ => ⟨hkeeps, fun _ => hs⟩, fun hs => (hs hp').2 fun r' hr => ?_⟩
      rw [← some.inj hr, hret]
      exact some_ne_none n
  · refine iff_of_false ?_ fun hs => hk ((hs hp').1 r rfl)
    obtain ⟨hd, hst⟩ := Classical.not_imp.1 hk
    have hspoilt := spoilt_heard [] hd (not_not.1 hst)
    split
    · exact hspoilt.not_tidy
    · exact (hspoilt.openSend t).not_tidy

/-! ### `recvrequest` -/

theorem Ready.abortRemote (h : Ready f s) (hs : ¬ Stale s) (t : Get) :
    Ready f (abortRemote t s) ∧ ¬ Stale (abortRemote t s) := by
  have hreplies : ∀ (rs : List Reply) {s : Client}, Ready f s → ¬ Stale s →
      Ready f (rs.foldl (fun s r => s.getreply r) s) ∧
      ¬ Stale (rs.foldl (fun s r => s.getreply r) s) := by
    intro rs
    induction rs with
    | nil => exact fun h hs => ⟨h, hs⟩
    | cons r rs ih => exact fun h hs => ih (h.heard fun _ => hs) (not_stale_heard hs _)
  unfold Descriptors.abortRemote
  split
  · exact hreplies t.after h hs
  · exact hreplies t.after (h.heard fun _ => hs) (not_stale_heard hs _)

theorem Spoilt.replies (h : Spoilt F s) (rs : List Reply) :
    Spoilt F (rs.foldl (fun s r => s.getreply r) s) := by
  induction rs generalizing s with
  | nil => exact h
  | cons r rs ih => exact ih (h.getreply r)

theorem Spoilt.abortRemote (h : Spoilt F s) (t : Get) : Spoilt F (abortRemote t s) := by
  unfold Descriptors.abortRemote
  split
  · exact h.replies _
  · exact (h.heard _).replies _

theorem tidy_abortRecv (h : Ready f s) (hs : ¬ Stale s) (t : Get) (din fout : Option ℕ) :
    Tidy (abortRecv t din fout s) := by
  unfold abortRecv
  split
  · obtain ⟨h1, h2⟩ := h.abortRemote hs t
    exact ((h1.giveUpOpen h2).tidy.fclose fout).fclose din
  · exact h.tidy

theorem Spoilt.abortRecv (h : Spoilt F s) (t : Get) (hd : ∀ n ∈ din, n ∈ F) (hf : ∀ n ∈ f, n ∈ F) :
    Spoilt F (abortRecv t din f s) := by
  unfold Descriptors.abortRecv
  split
  · exact ((h.abortRemote t).giveUpOpen.fclose hf).fclose hd
  · exact h

theorem Spoilt.copy (h : Spoilt F s) (t : Get) (hd : ∀ n ∈ din, n ∈ F) (hf : ∀ n ∈ f, n ∈ F) :
    Spoilt F (copy t din f s) := by
  have hs := ((h.fclose hf).fclose hd).getreply t.finish
  unfold Descriptors.copy
  split
  · exact h.fclose hf
  · split
    · exact hs
    · exact h.abortRecv t hd hf

theorem tidy_copy_iff (h : Ready f s) (hl : Live s) (hd : s.data = some d)
    (hc : s.control.ctl.connected) (t : Get) :
    Tidy (copy t (some d) f s) ↔ (t.seek → t.received → Stays t.finish) := by
  obtain ⟨ht, hst⟩ := closed_spec h.tidy f hd
  unfold copy
  by_cases hseek : t.seek
  · rw [if_neg (not_not.2 hseek)]
    by_cases hr : t.received
    · rw [if_pos hr, endRecv, tidy_getreply_iff ht hst hc]
      exact ⟨fun he _ _ => he, fun he => he hseek hr⟩
    · rw [if_neg hr]
      exact iff_of_true (tidy_abortRecv h (not_stale_iff.2 (.inr hl)) t _ _) fun _ hx =>
        absurd hx hr
  · rw [if_pos hseek]
    exact iff_of_true (h.tidy.fclose f) fun hx => absurd hx hseek

theorem Spoilt.recv (h : Spoilt F s) (t : Get) : Spoilt F (recv t s) := by
  have hs := h.dataconn t.accept
  have hdata := dataconn_data t.accept s
  unfold Descriptors.recv
  rcases hdc : Descriptors.dataconn t.accept s with ⟨- | d, s1⟩
  · rw [hdc] at hs
    exact hs.abortRecv t none_mem none_mem
  · rw [hdc] at hs hdata
    have hs' : Spoilt (d :: F) s1 := hs.cons (hdata d rfl)
    have hd' : ∀ n ∈ some d, n ∈ d :: F := fun n hn => some.inj hn ▸ mem_cons_self
    rcases t.fout with - | p | - | -
    · exact (hs'.copy t hd' none_mem).of_cons
    · refine ((hs'.opened p).copy t (fun n hn => ?_) fun n hn => ?_).of_cons.of_cons
      · exact mem_cons_of_mem _ (hd' n hn)
      · exact some.inj hn ▸ mem_cons_self
    · exact (hs'.abortRecv t hd' none_mem).of_cons
    · exact (hs'.abortRecv t hd' none_mem).of_cons

/-- **`recvrequest` from the data connection on.** -/
theorem tidy_recv_iff (h : Tidy s) (hl : Live s) (hc : s.control.ctl.connected) (t : Get) :
    Tidy (recv t s) ↔
    (t.accept.Streams s → (match t.fout with | .std | .file _ => True | .failed | .intr => False) →
      t.seek → t.received → Stays t.finish) := by
  obtain ⟨h1, h2, h3, h4, h5⟩ := dataconn_spec (ready_none h) hl t.accept
  unfold recv
  rcases hdc : dataconn t.accept s with ⟨- | d, s1⟩
  · rw [hdc] at h1 h2 h5
    refine iff_of_true (tidy_abortRecv h1 h2 t _ _) fun hs => ?_
    exact absurd (h5.2 hs) Bool.false_ne_true
  · rw [hdc] at h1 h2 h3 h4 h5
    obtain ⟨hlive, hdata⟩ := h4 d rfl
    have hs : t.accept.Streams s := h5.1 rfl
    have hc1 : s1.control.ctl.connected := by
      have hcontrol : s1.control = s.control := h3.control
      rw [hcontrol]
      exact hc
    rcases t.fout with - | p | - | -
    · exact (tidy_copy_iff h1 hlive hdata hc1 t).trans ⟨fun he _ _ => he, fun he => he hs trivial⟩
    · refine (tidy_copy_iff (Ready.opened h1.tidy p) ((live_opened s1 p).2 hlive) hdata hc1 t).trans
        ?_
      exact ⟨fun he _ _ => he, fun he => he hs trivial⟩
    · exact iff_of_true (tidy_abortRecv h1 h2 t _ _) fun _ hx => hx.elim
    · exact iff_of_true (tidy_abortRecv h1 h2 t _ _) fun _ hx => hx.elim

theorem Spoilt.beginRecv (h : Spoilt F s) (t : Get) : Spoilt F (beginRecv t s) := by
  have hh := h.heard (s.control.begin t.rest t.cmd)
  unfold Descriptors.beginRecv
  split
  · exact hh.abortRecv t none_mem none_mem
  · split
    · exact hh.recv t
    · exact hh

theorem tidy_beginRecv_iff (h : Tidy s) (hs : ¬ Stale s)
    (hm : s.data = none → s.passivemode = false) (t : Get) :
    Tidy (beginRecv t s) ↔
      (s.data = none → (s.control.begin t.rest t.cmd).ret ≠ some 1) ∧
      ((s.control.begin t.rest t.cmd).ret = some 1 → t.accept.Streams s →
        (match t.fout with | .std | .file _ => True | .failed | .intr => False) → t.seek →
        t.received → Stays t.finish) := by
  unfold beginRecv
  have hrh := (ready_none h).heard (r := s.control.begin t.rest t.cmd) fun _ => hs
  have hfh := not_stale_heard hs (s.control.begin t.rest t.cmd)
  rcases hret : (s.control.begin t.rest t.cmd).ret with - | n
  · exact iff_of_true (tidy_abortRecv hrh hfh t _ _)
      ⟨fun _ => (some_ne_none 1).symm, fun hx => absurd hx (some_ne_none 1).symm⟩
  dsimp only
  by_cases hn : n = 1
  · subst hn
    rw [if_pos rfl]
    have heq := heard_of_not_drops s (begin_drops hret)
    rcases not_stale_iff.1 hs with hd | hl
    · have hsp :=
        spoilt_dataconn [] (s := s.heard (s.control.begin t.rest t.cmd)) (by rw [heq]; exact hd)
        (by rw [heq]; exact hm hd) t.accept
      refine iff_of_false (Spoilt.not_tidy (F := []) ?_) fun hx => hx.1 hd rfl
      unfold recv
      rcases hdc : dataconn t.accept (s.heard (s.control.begin t.rest t.cmd)) with ⟨d, s1⟩
      rw [hdc] at hsp
      obtain rfl : d = none := hsp.1
      exact hsp.2.abortRecv t none_mem none_mem
    · have hst : t.accept.Streams (s.heard (s.control.begin t.rest t.cmd)) ↔
        t.accept.Streams s := by
        rw [heq]
        exact Iff.rfl
      rw [tidy_recv_iff hrh.tidy (live_heard (begin_drops hret) hl) (begin_begun hret).1, hst]
      constructor
      · exact fun he => ⟨fun hnone => absurd hl (not_live_of_none hnone), fun _ => he⟩
      · exact fun he => he.2 rfl
  · rw [if_neg hn]
    have hn' : some n ≠ some 1 := fun hx => hn (some.inj hx)
    exact iff_of_true hrh.tidy ⟨fun _ => hn', fun hx => absurd hx hn'⟩

theorem Spoilt.connRecv (h : Spoilt F s) (t : Get) : Spoilt F (connRecv t s) := by
  have hs := h.initconn t.conn
  unfold Descriptors.connRecv
  split
  next s1 heq =>
    rw [heq] at hs
    exact hs.landing _
  next s1 heq =>
    rw [heq] at hs
    exact hs
  next s1 heq =>
    rw [heq] at hs
    exact hs.beginRecv t

theorem tidy_connRecv_iff (h : Tidy s) (t : Get) : Tidy (connRecv t s) ↔ t.Passes s := by
  unfold connRecv
  by_cases ho : t.conn.Opens s
  · obtain ⟨hr, hfresh, hdone, hframed, hlost⟩ := initconn_spec (ready_none h) ho
    have hno : ¬ t.conn.Succeeds s → t.Passes s := fun hx =>
      ⟨ho, fun hl => absurd (lost_succeeds hl) hx, fun hfin => absurd hfin.1 hx⟩
    rcases hi : initconn t.conn s with ⟨- | - | -, s1⟩
    · rw [hi] at hr hfresh hdone hframed hlost
      obtain ⟨hc, hm⟩ := hframed rfl
      have hsucc := hdone.1 rfl
      have hlost' : s1.data = none ↔ t.conn.Lost s := hlost rfl
      dsimp only at hr hfresh hc hm ⊢
      rw [tidy_beginRecv_iff hr.tidy hfresh (fun hd => hm.trans (hlost'.1 hd).1) t, hlost', hc,
        streams_iff hm]
      constructor
      · exact fun hx => ⟨ho, hx.1, fun ⟨_, h1, h2, h3, h4, h5⟩ => hx.2 h1 h2 h3 h4 h5⟩
      · exact fun hx => ⟨hx.begins, fun h1 h2 h3 h4 h5 => hx.ends ⟨hsucc, h1, h2, h3, h4, h5⟩⟩
    · rw [hi] at hr hdone
      exact iff_of_true hr.tidy (hno fun hx => Out.noConfusion (hdone.2 hx))
    · rw [hi] at hr hfresh hdone
      exact iff_of_true ((tidy_landing_iff hr _).2 hfresh)
        (hno fun hx => Out.noConfusion (hdone.2 hx))
  · refine iff_of_false (Spoilt.not_tidy (F := []) ?_) fun hx => ho hx.opens
    have hs := spoilt_initconn (F := []) (fun n hn => absurd hn not_mem_nil) ho
    split
    next s1 heq =>
      rw [heq] at hs
      exact hs.landing _
    next s1 heq =>
      rw [heq] at hs
      exact hs
    next s1 heq =>
      rw [heq] at hs
      exact hs.beginRecv t

theorem tidy_recvrequest_iff (h : Tidy s) (t : Get) : Tidy (recvrequest t s) ↔
    Sound s (.get t) := by
  unfold recvrequest
  show Tidy _ ↔ (¬ (s.control.proxy ∧ t.retr) →
    (∀ r ∈ t.change, Keeps (s.control.command r) s ∧
      ((s.control.command r).ret = none → ¬ Stale s)) ∧
      ((∀ r ∈ t.change, (s.control.command r).ret ≠ none) → t.Passes (s.changetype t.change)))
  by_cases hp : s.control.proxy ∧ t.retr
  · rw [if_pos hp]
    exact iff_of_true h fun hx => absurd hp hx
  rw [if_neg hp]
  unfold openRecv
  rcases t.change with - | r
  · refine (tidy_connRecv_iff h t).trans ?_
    exact ⟨fun hs _ => ⟨none_mem, fun _ => hs⟩,
      fun hs => (hs hp).2 none_mem⟩
  rw [show s.changetype (some r) = s.heard (s.control.command r) from rfl]
  dsimp only
  by_cases hk : Keeps (s.control.command r) s
  · have ht := (tidy_heard_iff h _).2 hk
    rcases hret : (s.control.command r).ret with - | n
    · have hst : ¬ Stale (s.heard (s.control.command r)) ↔ ¬ Stale s := by
        by_cases hd : (s.control.command r).drops
        · exact iff_of_true (not_stale_of_none (heard_of_drops s hd)) (hk hd)
        · rw [heard_of_not_drops s hd]
          exact Iff.rfl
      refine (tidy_landing_iff (ready_none ht) _).trans (hst.trans ?_)
      refine ⟨fun hs _ => ⟨fun r' hr => ?_, fun hx => absurd hret (hx r rfl)⟩,
        fun hs => ((hs hp).1 r rfl).2 hret⟩
      rw [← some.inj hr]
      exact ⟨hk, fun _ => hs⟩
    · have hne : ∀ r' ∈ some r, (s.control.command r').ret ≠ none := fun r' hr => by
        rw [← some.inj hr, hret]
        exact some_ne_none n
      refine (tidy_connRecv_iff ht t).trans
        ⟨fun hs _ => ⟨fun r' hr => ?_, fun _ => hs⟩, fun hs => (hs hp).2 hne⟩
      exact ⟨some.inj hr ▸ hk, fun hx => absurd hx (hne r' hr)⟩
  · refine iff_of_false ?_ fun hs => hk ((hs hp).1 r rfl).1
    obtain ⟨hd, hst⟩ := Classical.not_imp.1 hk
    have hspoilt := spoilt_heard [] hd (not_not.1 hst)
    split
    · exact (hspoilt.landing _).not_tidy
    · exact (hspoilt.connRecv t).not_tidy

/-! ### Runs -/

theorem tidy_forget_iff (h : Tidy s) (c : Control) : Tidy { s with data := none, control := c } ↔
    ¬ Live s := by
  constructor
  · intro ht hl
    obtain ⟨d, -, hg⟩ := live_iff.1 hl
    have := ht.held d hg
    cases this
  · exact fun hl => ⟨h.closes, fun fd hfd => absurd (live_iff.2 ⟨fd, h.held fd hfd, hfd⟩) hl⟩

/-- QUIT, when the reply is not that the server closes. -/
theorem tidy_quit_iff {s' : Client} (hc : s.control.ctl.connected) (hs : Tidy s')
    (hdata : s'.data = s.data) (htable : s'.table = s.table) (hq : quit r s = s') :
    Tidy (disconnect r s) ↔ ((s.control.command r).ret ≠ none → ¬ Live s) := by
  have hlive : Live s' ↔ Live s := by
    unfold Live
    rw [hdata, htable]
  unfold disconnect
  rw [if_pos hc, hq]
  rcases (s.control.command r).ret with - | n
  · exact iff_of_true hs fun hx => absurd rfl hx
  · refine (tidy_forget_iff hs _).trans ((not_congr hlive).trans ?_)
    exact ⟨fun hl _ => hl, fun hl => hl (some_ne_none n)⟩

theorem tidy_disconnect_iff (h : Tidy s) (r : Reply) : Tidy (disconnect r s) ↔
    Sound s (.disconnect r) := by
  by_cases hc : s.control.ctl.connected
  · refine Iff.trans ?_ (forall_prop_of_true hc).symm
    rcases r with i | i | ⟨n, i⟩
    · have hp : Tidy { s with control := s.control.pend true } := ⟨h.closes, h.held⟩
      exact tidy_quit_iff hc hp rfl rfl rfl
    · have hdrops : (s.control.command (.closing i)).drops := by
        unfold Control.command
        rw [if_pos hc]
        exact hc
      have hk := tidy_heard_iff h (s.control.command (.closing i))
      show Tidy (disconnect _ s) ↔ ¬ Stale s
      unfold disconnect
      rw [if_pos hc]
      split
      · exact hk.trans ⟨fun hs => hs hdrops, fun hs _ => hs⟩
      · constructor
        · intro ht
          refine hk.1 ⟨ht.closes, fun fd hfd => ?_⟩ hdrops
          have := ht.held fd hfd
          cases this
        · intro hs
          refine (tidy_forget_iff (hk.2 fun _ => hs) _).2 ?_
          exact not_live_of_none (heard_of_drops s hdrops)
    · have hnd : ¬ (s.control.command (.digit n i)).drops := by
        unfold Control.command
        rw [if_pos hc]
        exact Bool.false_ne_true
      have ht : Tidy { s with control := (s.control.command (.digit n i)).control } :=
        ⟨h.closes, h.held⟩
      exact tidy_quit_iff hc ht rfl rfl (heard_of_not_drops s hnd)
  · unfold disconnect
    rw [if_neg hc]
    exact iff_of_true h fun hx => absurd hx hc

/-- **A step keeps the descriptors** just in case the condition is met. -/
theorem tidy_step_iff (h : Tidy s) (a : Act) : Tidy (step s a) ↔ Sound s a := by
  rcases a with t | t | - | - | - | flag | inet6 | r | r | r | -
  · exact tidy_sendrequest_iff h t
  · exact tidy_recvrequest_iff h t
  · exact iff_of_true ⟨h.closes, h.held⟩ trivial
  · exact iff_of_true ⟨h.closes, h.held⟩ trivial
  · exact iff_of_true ⟨h.closes, h.held⟩ trivial
  · exact iff_of_true ⟨h.closes, h.held⟩ trivial
  · refine iff_of_true ?_ trivial
    show Tidy (if s.control.ctl.connected then s else _)
    split
    · exact h
    · exact ⟨h.closes, h.held⟩
  · exact tidy_disconnect_iff h r
  · exact tidy_heard_iff h _
  · exact tidy_heard_iff h _
  · exact tidy_heard_iff h _

end

theorem tidy_init : Tidy init := ⟨fun u hu => absurd hu not_mem_nil, fun fd hfd => by cases hfd⟩

/-- **When the descriptors are kept**: in every state of a run, just in case every step meets the
condition. -/
theorem tidy_iff_sound (l : List Act) :
    (∀ l', l' <+: l → Tidy (run step init l')) ↔ Allowed step Sound init l := by
  have hstep : ∀ s a, Tidy s → True → (Tidy (step s a) ↔ Sound s a) :=
    fun _ a h _ => tidy_step_iff h a
  exact inv_iff_allowed hstep (fun _ _ _ => trivial) tidy_init trivial

def conn : Conn :=
  ⟨some lowest, .digit 2 false, .digit 2 false, .digit 2 false, true, .digit 2 false, .done, true,
    some lowest, true⟩

/-- A file is fetched in the passive mode, and one is sent with a port. -/
def session : List Act :=
  [.connect false, .setpassive,
    .get ⟨true, none, [], conn, none, .digit 1 false, ⟨some lowest, false, true⟩,
      .file lowest, true, true, .digit 2 false, true, []⟩,
    .setpassive,
    .put ⟨none, .file lowest, [], conn, none, true, .digit 1 false,
      ⟨some lowest, false, true⟩, true, .digit 2 false, .digit 2 false⟩]

/-- The number in `data` is that of the file to be sent, and `initconn` closes it. -/
theorem session_closes_file : ¬ ∀ l, Tidy (run step init l) := by
  intro h
  have hmem : some Use.file ∈ (run step init session).closes := by decide +kernel
  have := (h session).closes _ hmem
  cases this

end Inetutils.Ftp.Descriptors
