import Inetutils.Ftp.Commands

/-! # The representation types

`curtype` is to be the type of the last TYPE that the server has accepted, and the one by which the
files are read and written. A TYPE and its record are two steps, and so are a new connection and its
defaults: in between the variable is wrong, and SIGINT may leave the code there. A reply may also be
that to another command, and the type E has no codec. -/

namespace Inetutils.Ftp.Types

open Lib.Jumps Interrupts Commands List Option

variable {s s₀ : Client}

/-! ### What is asked of a step -/

/-- **The condition** on a step. Of a TYPE that is sent the answer is awaited, it is the next reply
and not a preliminary one, and the code is not left before a new type that was accepted is recorded;
the code is not left either between a new connection and its defaults; and a transfer is on a
connection that was opened, not with the type E. -/
def Kept : Entry → Prop
  | .opening curtype cut => cut = true → curtype = TYPE_A
  | .type talks curtype owed t progress cut => talks = true →
    match progress with
    | .unsent => True
    | .sent => False
    | .answered d => owed = [] ∧ d ≠ PRELIM ∧ (cut = true → d = COMPLETE → t = curtype)
  | .start connected _ _ => connected = true
  | .coding connected curtype _ _ => connected = true ∧ curtype ≠ TYPE_E

/-- **What a transfer is to be:** in the type of the server, and coded as it says. -/
def Faithful : Entry → Prop
  | .start _ curtype served => curtype = served
  | .coding _ curtype served codec => served = some curtype ∧ codec = meant curtype
  | _ => True

/-- As long as the steps are kept, the transfers are faithful. -/
def Sound (log : List Entry) : Prop := ∀ l, l <+: log → (∀ e ∈ l, Kept e) → ∀ e ∈ l, Faithful e

theorem sound_nil : Sound [] := by
  intro l hl _
  rw [prefix_nil.1 hl]
  exact fun _ h => (nomatch h)

theorem sound_concat {log : List Entry} {e : Entry} (h : Sound log)
    (he : (∀ e' ∈ log, Kept e') → Kept e → Faithful e) : Sound (log ++ [e]) := by
  intro l hl hkept
  rcases prefix_concat_iff.1 hl with rfl | hl
  · have hlog : ∀ e' ∈ log, Kept e' := fun e' he' => hkept e' (mem_append_left _ he')
    intro e' he'
    rcases mem_append.1 he' with he' | he'
    · exact h log prefix_rfl hlog e' he'
    · rw [mem_singleton.1 he']
      exact he hlog (hkept e (mem_append_right _ (mem_singleton_self e)))
  · exact h l hl hkept

/-! ### The invariant -/

/-- Its streams are of the connection `k`. -/
def Uses (v : Vars) (k : ℕ) : Prop := v.cin = some k ∨ v.cout = some k

/-- The type is that of the server, which owes no answer to a TYPE. -/
def Told (curtype : ℕ) (server : Server) : Prop :=
  server.served = curtype ∧ ∀ t, .type t ∉ server.owed

/-- The variables of a connection say how it is with the server. -/
def Agrees (servers : List Server) (v : Vars) : Prop :=
  v.connected = true → (∀ k, v.cout = some k → v.cin = some k) ∧
    ∀ k, v.cin = some k → ∃ server, servers[k]? = some server ∧ Told v.curtype server

structure Fit (servers : List Server) (cur other : Vars) : Prop where
  known : ∀ k, Uses cur k ∨ Uses other k → k < servers.length
  apart : ∀ k, Uses cur k → ¬ Uses other k
  cur : Agrees servers cur
  other : Agrees servers other

def Good (s : Client) : Prop := Fit s.servers s.cur s.other

def Inv (s : Client) : Prop := Sound s.log ∧ ((∀ e ∈ s.log, Kept e) → Good s)

theorem fit_swap {servers : List Server} {v w : Vars} (h : Fit servers v w) : Fit servers w v :=
  ⟨fun k hk => h.known k hk.symm, fun k hw hv => h.apart k hv hw, h.other, h.cur⟩

section
variable {servers : List Server} {cur other : Vars} {stream : Option ℕ}
    {f : Server → Server} {c : ℕ}

theorem length_atEnd : (atEnd stream f servers).length = servers.length := by
  unfold atEnd
  split <;> simp

theorem agrees_atEnd (h : Agrees servers other) (hstream : ∀ k, stream = some k → ¬ Uses other k) :
    Agrees (atEnd stream f servers) other := by
  intro hc
  obtain ⟨hcout, hcin⟩ := h hc
  refine ⟨hcout, fun k hk => ?_⟩
  obtain ⟨server, hserver, htold⟩ := hcin k hk
  refine ⟨server, ?_, htold⟩
  rcases stream with - | j
  · exact hserver
  · have hne : j ≠ k := by
      rintro rfl
      exact hstream j rfl (.inl hk)
    simp [atEnd, hserver, hne]

/-- **What is done at the server** of the connection in use, and with its type. -/
theorem fit_atEnd (h : Fit servers cur other) (hstream : ∀ k, stream = some k → Uses cur k)
    (hcur : cur.connected = true → ∀ k server, cur.cin = some k → servers[k]? = some server →
      Told cur.curtype server →
      (stream = some k ∧ Told c (f server)) ∨ (stream = none ∧ c = cur.curtype)) :
    Fit (atEnd stream f servers) { cur with curtype := c } other where
  known k hk := by
    rw [length_atEnd]
    exact h.known k hk
  apart := h.apart
  cur hc := by
    obtain ⟨hcout, hcin⟩ := h.cur hc
    refine ⟨hcout, fun k hk => ?_⟩
    obtain ⟨server, hserver, htold⟩ := hcin k hk
    rcases hcur hc k server hk hserver htold with ⟨rfl, hf⟩ | ⟨rfl, rfl⟩
    · exact ⟨f server, by simp [atEnd, hserver], hf⟩
    · exact ⟨server, hserver, htold⟩
  other := agrees_atEnd h.other fun k hk => h.apart k (hstream k hk)

end

/-! ### Acts that leave the connections alone -/

structure Still (s₀ s : Client) : Prop where
  connected : s.cur.connected = s₀.cur.connected
  cin : s.cur.cin = s₀.cur.cin
  cout : s.cur.cout = s₀.cur.cout
  curtype : s.cur.curtype = s₀.cur.curtype
  other : s.other = s₀.other
  servers : s.servers = s₀.servers
  log : s.log = s₀.log
  progress : s.progress = s₀.progress

structure Bent (s₀ s : Client) : Prop where
  log : s.log = s₀.log
  progress : s.progress = s₀.progress
  good : Good s₀ → Good s

theorem Still.refl (s : Client) : Still s s := ⟨rfl, rfl, rfl, rfl, rfl, rfl, rfl, rfl⟩

theorem Still.trans {s₁ s₂ : Client} (h : Still s₀ s₁) (h' : Still s₁ s₂) : Still s₀ s₂ :=
  ⟨h'.connected.trans h.connected, h'.cin.trans h.cin, h'.cout.trans h.cout,
    h'.curtype.trans h.curtype,
    h'.other.trans h.other, h'.servers.trans h.servers, h'.log.trans h.log,
    h'.progress.trans h.progress⟩

theorem Still.uses (h : Still s₀ s) (k : ℕ) : Uses s.cur k ↔ Uses s₀.cur k := by
  unfold Uses
  rw [h.cin, h.cout]

theorem Still.good (h : Still s₀ s) (hg : Good s₀) : Good s where
  known k hk := by
    rw [h.servers]
    rw [h.uses, h.other] at hk
    exact hg.known k hk
  apart k hk := by
    rw [h.other]
    exact hg.apart k ((h.uses k).1 hk)
  cur := by
    have hcur := hg.cur
    unfold Agrees at hcur ⊢
    rwa [h.connected, h.cin, h.cout, h.curtype, h.servers]
  other := by
    rw [h.other, h.servers]
    exact hg.other

theorem Still.bent (h : Still s₀ s) : Bent s₀ s := ⟨h.log, h.progress, h.good⟩

theorem Bent.trans {s₁ s₂ : Client} (h : Bent s₀ s₁) (h' : Bent s₁ s₂) : Bent s₀ s₂ :=
  ⟨h'.log.trans h.log, h'.progress.trans h.progress, h'.good ∘ h.good⟩

theorem Bent.inv (h : Bent s₀ s) (hs : Inv s₀) : Inv s := by
  unfold Inv
  rw [h.log]
  exact ⟨hs.1, fun hkept => h.good (hs.2 hkept)⟩

/-- It gives a value only if it leaves the connections alone. -/
def Mild {α : Type} (x : M α) : Prop := ∀ s₀, Triple (Still s₀) x (fun _ => Still s₀) (Bent s₀)

def Steady {α : Type} (x : M α) : Prop := ∀ s₀, Triple (Bent s₀) x (fun _ => Bent s₀) (Bent s₀)

section
variable {α β : Type} {x : M α}

theorem mild_bind {f : α → M β} (hx : Mild x) (hf : ∀ a, Mild (f a)) : Mild (x >>= f) :=
  fun s₀ => triple_bind (hx s₀) fun a => hf a s₀

theorem mild_pure (a : α) : Mild (pure a) := fun _ => triple_pure fun _ h => h

theorem mild_get : Mild (get : M Client) := fun _ => triple_get fun _ h => h

theorem mild_modify {f : Client → Client} (h : ∀ s, Still s (f s)) : Mild (modify f : M Unit) :=
  fun _ => triple_modify fun s hs => hs.trans (h s)

theorem mild_jump (t : Frame) : Mild (jump t : M α) := fun _ => triple_jump fun _ h => h.bent

theorem mild_halt : Mild (halt : M α) := fun _ => triple_halt fun _ h => h.bent

theorem mild_ite {c : Prop} [Decidable c] {y : M α} (hx : Mild x) (hy : Mild y) :
    Mild (if c then x else y) :=
  fun s₀ => triple_ite (fun _ => hx s₀) fun _ => hy s₀

theorem mild_whenever {c : Prop} [Decidable c] {x : M Unit} (hx : Mild x) : Mild (whenever c x) :=
  mild_ite hx (mild_pure ())

theorem mild_set (f : Flags → Flags) : Mild (set f) :=
  mild_modify fun _ => ⟨rfl, rfl, rfl, rfl, rfl, rfl, rfl, rfl⟩

theorem mild_next : Mild Interrupts.next := by
  intro s₀ s hs
  unfold Interrupts.next
  split
  · exact hs.bent
  · exact hs.trans ⟨rfl, rfl, rfl, rfl, rfl, rfl, rfl, rfl⟩

theorem Mild.steady (h : Mild x) : Steady x := fun _ s hs =>
  (h s s (Still.refl s)).mono (fun _ _ h' => hs.trans h'.bent) fun _ h' => hs.trans h'

theorem steady_bind {f : α → M β} (hx : Steady x) (hf : ∀ a, Steady (f a)) : Steady (x >>= f) :=
  fun s₀ => triple_bind (hx s₀) fun a => hf a s₀

theorem steady_modify {f : Client → Client} (h : ∀ s, Bent s (f s)) : Steady (modify f : M Unit) :=
  fun _ => triple_modify fun s hs => hs.trans (h s)

theorem steady_ite {c : Prop} [Decidable c] {y : M α} (hx : Steady x) (hy : Steady y) :
    Steady (if c then x else y) := fun s₀ => triple_ite (fun _ => hx s₀) fun _ => hy s₀

theorem steady_whenever {c : Prop} [Decidable c] {x : M Unit} (hx : Steady x) :
    Steady (whenever c x) :=
  steady_ite hx (mild_pure ()).steady

theorem Steady.keeps (h : Steady x) : Keeps Inv x := fun s hs =>
  (h s s (Still.refl s).bent).mono (fun _ _ h' => h'.inv hs) fun _ h' => h'.inv hs

end

theorem bent_switch (flag : Bool) (s : Client) : Bent s (s.switch flag) := by
  unfold Client.switch
  split
  · exact (Still.refl s).bent
  next hflag =>
    split
    next htrue =>
      have hproxy : s.proxy = false := by simpa [htrue] using hflag
      refine ⟨rfl, rfl, fun h => ?_⟩
      have hother : s.other = s.proxstruct := by rw [Client.other, hproxy]; rfl
      rw [Good, hother] at h
      exact fit_swap h
    next hfalse =>
      have hproxy : s.proxy = true := by simpa [hfalse] using hflag
      refine ⟨rfl, rfl, fun h => ?_⟩
      have hother : s.other = s.tmpstruct := by rw [Client.other, hproxy]; rfl
      rw [Good, hother] at h
      exact fit_swap h

theorem mild_deliver (h : Handler) : Mild (deliver h) := by
  cases h with
  | intr => exact mild_jump _
  | mabort => exact mild_bind mild_next fun _ => mild_bind (mild_set _) fun _ => mild_jump _
  | abortsend | abortrecv | abortpt => exact mild_bind (mild_set _) fun _ => mild_jump _
  | proxabort =>
    intro s₀
    refine triple_bind (mild_set _ s₀) fun _ => ?_
    refine triple_bind (Q := fun _ => Bent s₀) (triple_modify fun s hs =>
      hs.bent.trans (bent_switch true s)) fun _ => ?_
    refine triple_bind (Q := fun _ => Bent s₀)
      (triple_modify fun s hs => hs.trans (bent_switch false s)) fun _ => ?_
    exact triple_jump fun _ hs => hs
  | cmdabort => exact mild_bind (mild_set _) fun _ => mild_bind mild_get fun _ =>
    mild_whenever (mild_jump _)
  | psabort => exact mild_set _
  | ignored => exact mild_pure _
  | default => exact mild_halt

theorem mild_point : Mild point :=
  mild_bind mild_next fun _ => mild_bind mild_get fun _ => mild_whenever (mild_deliver _)

theorem mild_signal (h : Handler) : Mild (signal h) := by
  refine mild_bind mild_point fun _ => mild_bind mild_get fun _ => mild_bind (mild_modify fun _ =>
    ?_) fun _ => mild_pure _
  exact ⟨rfl, rfl, rfl, rfl, rfl, rfl, rfl, rfl⟩

theorem mild_deliverPending (h : Handler) : Mild (deliverPending h) :=
  mild_bind mild_get fun _ => mild_whenever (mild_deliver h)

theorem mild_listen : Mild listen :=
  mild_bind mild_next fun _ => mild_bind (mild_whenever (mild_deliver _)) fun _ => mild_pure _

theorem steady_pswitch (flag : Bool) : Steady (pswitch flag) := by
  refine steady_bind (mild_set _).steady fun _ =>
    steady_bind (mild_signal _).steady fun oldintr => ?_
  refine steady_bind mild_get.steady fun _ => steady_ite (mild_pure _).steady ?_
  refine steady_bind mild_point.steady fun _ =>
    steady_bind (steady_modify (bent_switch flag)) fun _ => ?_
  refine steady_bind (mild_signal _).steady fun _ => steady_bind mild_get.steady fun _ => ?_
  exact steady_whenever (steady_bind (mild_set _).steady fun _ => (mild_deliver _).steady)

theorem bent_shut (f : Vars → Vars) (hin : ∀ v k, (f v).cin = some k → v.cin = some k)
    (hout : ∀ v k, (f v).cout = some k → v.cout = some k ∧ (f v).cin = v.cin)
    (hcur : ∀ v, (f v).connected = true → v.connected = true ∧ (f v).curtype = v.curtype)
    (s : Client) :
    Bent s (s.setVars f) := by
  have huses : ∀ k, Uses (f s.cur) k → Uses s.cur k :=
    fun k hk => hk.imp (hin s.cur k) fun h => (hout s.cur k h).1
  refine ⟨rfl, rfl, fun h => ⟨fun k hk => h.known k (hk.imp_left (huses k)), fun k hk =>
    h.apart k (huses k hk), ?_, h.other⟩⟩
  intro hc
  obtain ⟨hconn, htype⟩ := hcur s.cur hc
  obtain ⟨hcout, hcin⟩ := h.cur hconn
  refine ⟨fun k hk => ?_, fun k hk => ?_⟩
  · obtain ⟨hk, hsame⟩ := hout s.cur k hk
    exact hsame.trans (hcout k hk)
  · obtain ⟨server, hserver, htold⟩ := hcin k (hin s.cur k hk)
    refine ⟨server, hserver, ?_⟩
    change Told (f s.cur).curtype server
    rwa [htype]

theorem bent_noOut (s : Client) : Bent s (s.setVars fun v => { v with cout := none }) :=
  bent_shut (fun v => { v with cout := none }) (fun _ _ h => h) (fun _ _ h => (nomatch h))
    (fun _ h => ⟨h, rfl⟩) s

theorem bent_noStreams (s : Client) :
    Bent s (s.setVars fun v => { v with cin := none, cout := none }) :=
  bent_shut (fun v => { v with cin := none, cout := none }) (fun _ _ h => (nomatch h))
    (fun _ _ h => (nomatch h))
    (fun _ h => ⟨h, rfl⟩) s

theorem bent_disconnected (s : Client) :
    Bent s (s.setVars fun v => { v with connected := false }) :=
  bent_shut (fun v => { v with connected := false }) (fun _ _ h => h) (fun _ _ h => ⟨h, rfl⟩)
    (fun _ h => (nomatch h)) s

theorem steady_giveUp : Steady giveUp := by
  refine steady_bind mild_get.steady fun _ => steady_whenever ?_
  refine steady_bind (steady_modify bent_noOut) fun _ => steady_bind mild_point.steady fun _ => ?_
  exact steady_modify bent_disconnected

theorem steady_lostpeer : Steady lostpeer :=
  steady_bind steady_giveUp fun _ => steady_bind (steady_pswitch true) fun _ =>
    steady_bind steady_giveUp fun _ =>
    steady_pswitch false

/-! ### A reply is read -/

def Shut (s₀ s : Client) : Prop := ∃ d, d ≠ COMPLETE ∧ Bent (s₀.hangUp d) s

/-- What is left of `getreply` if it gives `r`. -/
def Heard (quit : Bool) (s₀ : Client) (r : ℤ) (s : Client) : Prop :=
  ((r = 4 ∨ quit = true ∧ r = 0) ∧ (Shut s₀ s ∨ Bent (s₀.hear r) s)) ∨ Still (s₀.hear r) s

def Broken (s₀ s : Client) : Prop := Bent s₀ s ∨ Shut s₀ s ∨ ∃ d, Bent (s₀.hear d) s

variable {s' : Client} {d : ℤ}

theorem Heard.trans {quit : Bool} {r : ℤ} (h : Heard quit s₀ r s) (h' : Still s s') :
    Heard quit s₀ r s' := by
  rcases h with ⟨hr, ⟨d, hd, hs⟩ | hs⟩ | hs
  · exact .inl ⟨hr, .inl ⟨d, hd, hs.trans h'.bent⟩⟩
  · exact .inl ⟨hr, .inr (hs.trans h'.bent)⟩
  · exact .inr (hs.trans h')

theorem Heard.broken {quit : Bool} {r : ℤ} (h : Heard quit s₀ r s) (h' : Bent s s') :
    Broken s₀ s' := by
  rcases h with ⟨-, ⟨d, hd, hs⟩ | hs⟩ | hs
  · exact .inr (.inl ⟨d, hd, hs.trans h'⟩)
  · exact .inr (.inr ⟨r, hs.trans h'⟩)
  · exact .inr (.inr ⟨r, hs.bent.trans h'⟩)

theorem Heard.bend {quit : Bool} (h : Heard quit s₀ 4 s) (h' : Bent s s') : Heard quit s₀ 4 s' := by
  refine .inl ⟨.inl rfl, ?_⟩
  rcases h with ⟨-, ⟨d, hd, hs⟩ | hs⟩ | hs
  · exact .inl ⟨d, hd, hs.trans h'⟩
  · exact .inr (hs.trans h')
  · exact .inr (hs.bent.trans h')

theorem Mild.heard {α : Type} {x : M α} (hx : Mild x) (quit : Bool) (s₀ : Client) (r : ℤ) :
    Triple (Heard quit s₀ r) x (fun _ => Heard quit s₀ r) (Broken s₀) := fun s hs =>
  (hx s s (Still.refl s)).mono (fun _ _ h => hs.trans h) fun _ h => hs.broken h

theorem Steady.heard {α : Type} {x : M α} (hx : Steady x) (quit : Bool) (s₀ : Client) :
    Triple (Heard quit s₀ 4) x (fun _ => Heard quit s₀ 4) (Broken s₀) := fun s hs =>
  (hx s s (Still.refl s).bent).mono (fun _ _ h => hs.bend h) fun _ h => hs.broken h

theorem Still.server (h : Still s₀ s) : s.server = s₀.server := by
  unfold Client.server
  rw [h.cin, h.servers]

theorem Still.hear (h : Still s₀ s) (d : ℤ) : Still (s₀.hear d) (s.hear d) where
  connected := h.connected
  cin := h.cin
  cout := h.cout
  curtype := h.curtype
  other := h.other
  servers := by
    change atEnd s.cur.cin (Server.answer d) s.servers =
      atEnd s₀.cur.cin (Server.answer d) s₀.servers
    rw [h.cin, h.servers]
  log := by
    change s.log ++ s.starts d = s₀.log ++ s₀.starts d
    unfold Client.starts
    rw [h.log, h.server, h.connected, h.curtype]
  progress := rfl

theorem Still.hangUp (h : Still s₀ s) (d : ℤ) : Still (s₀.hangUp d) (s.hangUp d) where
  connected := h.connected
  cin := h.cin
  cout := h.cout
  curtype := h.curtype
  other := h.other
  servers := by
    change atEnd s.cur.cin Server.hangUp s.servers = atEnd s₀.cur.cin Server.hangUp s₀.servers
    rw [h.cin, h.servers]
  log := h.log
  progress := rfl

theorem Still.send (h : Still s₀ s) (c : Sent) : Still (s₀.send c) (s.send c) where
  connected := h.connected
  cin := h.cin
  cout := h.cout
  curtype := h.curtype
  other := h.other
  servers := by
    change atEnd s.cur.cout (Server.receive c) s.servers =
      atEnd s₀.cur.cout (Server.receive c) s₀.servers
    rw [h.cout, h.servers]
  log := h.log
  progress := rfl

theorem triple_closed (quit : Bool) (oldintr : Handler) (s₀ : Client) :
    Triple (Still s₀) (closed quit oldintr) (Heard quit s₀) (Broken s₀) := by
  have hshut : ∀ d : ℤ, d ≠ COMPLETE → ∀ s, Bent (s₀.hangUp d) s → Broken s₀ s :=
    fun d hd s hs => .inr (.inl ⟨d, hd, hs⟩)
  have hup : ∀ d :
      ℤ, Triple (Still s₀) (modify (Client.hangUp d) : M Unit) (fun _ => Bent (s₀.hangUp d))
      (Broken s₀) := fun d s hs => (hs.hangUp d).bent
  refine triple_ite (fun hquit => ?_) fun _ => ?_
  · refine triple_bind (hup 0) fun _ => ?_
    refine triple_bind (((mild_signal oldintr).steady _).weaken (hshut 0 (by decide))) fun _ => ?_
    exact triple_pure fun s h => .inl ⟨.inr ⟨hquit, rfl⟩, .inl ⟨0, by decide, h⟩⟩
  · refine triple_bind (hup 4) fun _ => ?_
    refine triple_bind ((steady_lostpeer _).weaken (hshut 4 (by decide))) fun _ => ?_
    refine triple_bind (((mild_set _).steady _).weaken (hshut 4 (by decide))) fun _ => ?_
    exact triple_pure fun s h => .inl ⟨.inl rfl, .inl ⟨4, by decide, h⟩⟩

theorem triple_line (quit : Bool) (oldintr : Handler) (l : Line) (s₀ : Client) :
    Triple (Still s₀) (line oldintr l) (Heard quit s₀) (Broken s₀) := by
  refine triple_bind (Q := fun _ => Still (s₀.hear l.digit))
    (triple_modify fun s hs => hs.hear l.digit) fun _ => ?_
  refine triple_bind (Q := fun _ => Heard quit s₀ l.digit) ?_ fun _ => ?_
  · exact (mild_set _ _).mono (fun _ h => h) (fun _ _ h => .inr h) fun _ h => .inr (.inr ⟨_, h⟩)
  refine triple_bind ((mild_whenever (mild_modify fun _ => ?_)).heard quit s₀ _) fun _ => ?_
  · exact ⟨rfl, rfl, rfl, rfl, rfl, rfl, rfl, rfl⟩
  refine triple_bind ((mild_signal oldintr).heard quit s₀ _) fun _ => ?_
  refine triple_bind (Q := fun _ => Heard quit s₀ l.digit) ?_ fun _ => ?_
  · refine triple_ite (fun hcode => ?_) fun _ => triple_pure fun _ h => h
    rw [l.closing hcode]
    exact steady_lostpeer.heard quit s₀
  refine triple_bind ((mild_whenever (mild_deliverPending oldintr)).heard quit s₀ _) fun _ => ?_
  exact triple_pure fun _ h => h

/-- **What `getreply` does**: the value is that of the reply, or the connection is shut. -/
theorem triple_getreply (quit : Bool) (s₀ : Client) :
    Triple (Still s₀) (getreply quit) (Heard quit s₀) (Broken s₀) := by
  have hbroken : ∀ s, Bent s₀ s → Broken s₀ s := fun _ h => .inl h
  refine triple_bind ((mild_signal _ s₀).weaken hbroken) fun oldintr => ?_
  refine triple_bind ((mild_get s₀).weaken hbroken) fun _ => ?_
  refine triple_ite (fun _ => triple_halt fun s h => hbroken s h.bent) fun _ => ?_
  refine triple_bind ((mild_listen s₀).weaken hbroken) fun reply => ?_
  cases reply with
  | eof => exact triple_closed quit oldintr s₀
  | line l => exact triple_line quit oldintr l s₀

/-! ### Commands -/

def Asked (c : Sent) (quit : Bool) (s₀ : Client) (r : ℤ) (s : Client) : Prop :=
  (s₀.cur.cout = none ∧ r = 0 ∧ Still s₀ s) ∨ (s₀.cur.cout ≠ none ∧ Heard quit (s₀.send c) r s)

def Dropped (c : Sent) (s₀ s : Client) : Prop :=
  Bent s₀ s ∨ (s₀.cur.cout ≠ none ∧ Broken (s₀.send c) s)

theorem triple_command (c : Sent) (quit : Bool) (s₀ : Client) :
    Triple (Still s₀) (command c quit) (Asked c quit s₀) (Dropped c s₀) := by
  have hdropped : ∀ s, Bent s₀ s → Dropped c s₀ s := fun _ h => .inl h
  refine triple_bind ((mild_set _ s₀).weaken hdropped) fun _ => ?_
  refine triple_bind (Q := fun a s => a = s ∧ Still s₀ s)
    (triple_get fun s hs => ⟨rfl, hs⟩) fun a => ?_
  refine triple_ite (fun hnone => ?_) fun hsome => ?_
  · refine triple_pure ?_
    rintro s ⟨rfl, hs⟩
    exact .inl ⟨hs.cout.symm.trans hnone, rfl, hs⟩
  by_cases hout : s₀.cur.cout = none
  · rintro s ⟨rfl, hs⟩
    exact absurd (hs.cout.trans hout) hsome
  have hbroken : ∀ s, Broken (s₀.send c) s → Dropped c s₀ s := fun _ h => .inr ⟨hout, h⟩
  refine triple_bind
    ((mild_signal _ s₀).mono (fun _ h => h.2) (fun _ _ h => h) hdropped) fun oldintr => ?_
  refine triple_bind (Q := fun _ => Still (s₀.send c))
    (triple_modify fun s hs => hs.send c) fun _ => ?_
  refine triple_bind (Q := fun _ => Still (s₀.send c))
    (triple_modify fun s hs => hs.trans ?_) fun _ => ?_
  · exact ⟨rfl, rfl, rfl, rfl, rfl, rfl, rfl, rfl⟩
  refine triple_bind ((triple_getreply quit _).weaken hbroken) fun r => ?_
  refine triple_bind
    (((mild_whenever (mild_deliverPending oldintr)).heard quit _ r).weaken hbroken) fun _ => ?_
  refine triple_bind (((mild_signal oldintr).heard quit _ r).weaken hbroken) fun _ => ?_
  exact triple_pure fun s h => .inr ⟨hout, h⟩

theorem good_send (h : Good s) {c : Sent} (hc : s.cur.connected = true → ∀ t, c ≠ .type t) :
    Good (s.send c) := by
  refine fit_atEnd (c := s.cur.curtype) h (fun k hk => .inr hk) fun hconn k server hcin _ htold =>
    ?_
  rcases hout : s.cur.cout with - | j
  · exact .inr ⟨rfl, rfl⟩
  · obtain rfl : j = k := some.inj (((h.cur hconn).1 j hout).symm.trans hcin)
    refine .inl ⟨rfl, htold.1, fun t ht => ?_⟩
    rcases mem_append.1 ht with ht | ht
    · exact htold.2 t ht
    · exact hc hconn t (mem_singleton.1 ht).symm

theorem told_answer {c : ℕ} {v : Server} (h : Told c v) (d : ℤ) : Told c (v.answer d) := by
  unfold Server.answer
  split
  · exact h
  · split
    · exact h
    next t l heq => exact absurd (heq ▸ mem_cons_self) (h.2 t)
    next x l _ heq => exact ⟨h.1, fun t ht => h.2 t (heq ▸ mem_cons_of_mem x ht)⟩

theorem good_hear (h : Good s) (d : ℤ) : Good (s.hear d) :=
  fit_atEnd (c := s.cur.curtype) h (fun _ hk => .inl hk) fun _ _ _ hcin _ htold =>
    .inl ⟨hcin, told_answer htold d⟩

theorem good_hangUp (h : Good s) (d : ℤ) : Good (s.hangUp d) :=
  fit_atEnd (c := s.cur.curtype) h (fun _ hk => .inl hk) fun _ _ _ hcin _ htold =>
    .inl ⟨hcin, htold.1, fun _ ht => (nomatch ht)⟩

theorem sound_hear (h : Sound s.log) (hserved : (∀ e ∈ s.log, Kept e) → s.cur.connected = true →
    ∀ v, s.server = some v → v.served = s.cur.curtype) (d : ℤ) : Sound (s.hear d).log := by
  change Sound (s.log ++ s.starts d)
  unfold Client.starts
  split
  · rwa [append_nil]
  next v hv =>
    split
    · exact sound_concat h fun hkept hconn => (hserved hkept hconn v hv).symm
    · rwa [append_nil]

theorem served_of_good (h : Good s) (hc : s.cur.connected = true) {v : Server}
    (hv : s.server = some v) :
    Told s.cur.curtype v := by
  obtain ⟨k, hcin, hv⟩ := bind_eq_some_iff.1 hv
  obtain ⟨server, hserver, htold⟩ := (h.cur hc).2 k hcin
  rwa [← some.inj (hserver.symm.trans hv)]

theorem kept_of_hear (h : ∀ e ∈ (s.hear d).log, Kept e) : ∀ e ∈ s.log, Kept e :=
  fun e he => h e (mem_append_left _ he)

theorem inv_hear (h : Inv s) (d : ℤ) : Inv (s.hear d) :=
  ⟨sound_hear h.1 (fun hkept hc _ hv => (served_of_good (h.2 hkept) hc hv).1) d, fun hkept =>
    good_hear (h.2 (kept_of_hear hkept)) d⟩

theorem inv_hangUp (h : Inv s) (d : ℤ) : Inv (s.hangUp d) :=
  ⟨h.1, fun hkept => good_hangUp (h.2 hkept) d⟩

theorem Heard.inv {quit : Bool} {r : ℤ} (h : Heard quit s₀ r s) (hs : Inv s₀) : Inv s := by
  rcases h with ⟨-, ⟨d, -, h⟩ | h⟩ | h
  · exact h.inv (inv_hangUp hs d)
  · exact h.inv (inv_hear hs r)
  · exact h.bent.inv (inv_hear hs r)

theorem Broken.inv (h : Broken s₀ s) (hs : Inv s₀) : Inv s := by
  rcases h with h | ⟨d, -, h⟩ | ⟨d, h⟩
  · exact h.inv hs
  · exact h.inv (inv_hangUp hs d)
  · exact h.inv (inv_hear hs d)

theorem inv_send (h : Inv s) {c : Sent} (hc : s.cur.connected = true → ∀ t, c ≠ .type t) :
    Inv (s.send c) := ⟨h.1, fun hkept => good_send (h.2 hkept) hc⟩

section
variable {c : Sent} {quit : Bool} {s₀ s : Client} {r : ℤ}

theorem Asked.inv (h : Asked c quit s₀ r s) (hs : Inv s₀)
    (hc : s₀.cur.connected = true → ∀ t, c ≠ .type t) :
    Inv s := by
  rcases h with ⟨-, -, h⟩ | ⟨-, h⟩
  · exact h.bent.inv hs
  · exact h.inv (inv_send hs hc)

theorem Dropped.inv (h : Dropped c s₀ s) (hs : Inv s₀)
    (hc : s₀.cur.connected = true → ∀ t, c ≠ .type t) :
    Inv s := by
  rcases h with h | ⟨-, h⟩
  · exact h.inv hs
  · exact h.inv (inv_send hs hc)

end

theorem keeps_command {c : Sent} (hc : ∀ t, c ≠ .type t) (quit : Bool) :
    Keeps Inv (command c quit) := fun s hs =>
  (triple_command c quit s s (Still.refl s)).mono (fun _ _ h => h.inv hs fun _ => hc) fun _ h =>
    h.inv hs fun _ => hc

theorem keeps_getreply (quit : Bool) : Keeps Inv (getreply quit) := fun s hs =>
  (triple_getreply quit s s (Still.refl s)).mono (fun _ _ h => h.inv hs) fun _ h => h.inv hs

/-! ### TYPE and its record -/

theorem inv_note {e : Entry} (h : Sound s.log) (he : Faithful e)
    (hgood : (∀ e' ∈ s.log, Kept e') → Kept e → Good s) : Inv (s.note e) := by
  refine ⟨sound_concat h fun _ _ => he, fun hkept => hgood ?_ ?_⟩
  · exact fun e' he' => hkept e' (mem_append_left _ he')
  · exact hkept e (mem_append_right _ (mem_singleton_self e))

theorem talks_of_connected (hc : s.cur.connected = true) (hout : s.cur.cout ≠ none) :
    s.talks = true := by
  simp [Client.talks, hc, isSome_iff_ne_none.2 hout]

/-- **A command that goes out, and what comes back**, at the server of the connection in use. -/
theorem fit_exchange (h : Good s) {sent : Sent} {g : Server → Server} {c : ℕ}
    (hout : s.cur.cout ≠ none)
    (htalks : s.talks = true → ∀ server, Told s.cur.curtype server → server.owed = s.owed →
      Told c (g (server.receive sent))) (hg : ∀ c server, Told c server → Told c (g server)) :
    Fit (atEnd s.cur.cin g (atEnd s.cur.cout (Server.receive sent) s.servers))
    { s.cur with curtype := c } s.other := by
  by_cases hc : s.cur.connected = true
  · obtain ⟨k, hcout⟩ := ne_none_iff_exists'.1 hout
    have hcin := (h.cur hc).1 k hcout
    obtain ⟨server, hserver, htold⟩ := (h.cur hc).2 k hcin
    have howed : server.owed = s.owed := by simp [Client.owed, Client.server, hcin, hserver]
    have hservers : atEnd s.cur.cin g (atEnd s.cur.cout (Server.receive sent) s.servers) =
        atEnd (some k) (g ∘ Server.receive sent) s.servers := by
      rw [hcin, hcout]
      simp [atEnd, modify_modify_eq]
    rw [hservers]
    refine fit_atEnd h ?_ fun _ k' server' hcin' hserver' _ => .inl ?_
    · rintro k' ⟨⟩
      exact .inl hcin
    · obtain rfl : k = k' := some.inj (hcin.symm.trans hcin')
      obtain rfl : server = server' := some.inj (hserver.symm.trans hserver')
      exact ⟨rfl, htalks (talks_of_connected hc hout) server htold howed⟩
  · have hsend := good_send h (c := sent) fun hconn => absurd hconn hc
    have hfit :=
      fit_atEnd (f := g) (c := s.cur.curtype) hsend (fun k (hk : s.cur.cin = some k) => .inl hk)
      fun _ _ _ hcin _ htold => .inl ⟨hcin, hg _ _ htold⟩
    exact ⟨hfit.known, hfit.apart, fun hconn => absurd hconn hc, hfit.other⟩

/-- **The answer to a TYPE** that is the only one that is owed. -/
theorem fit_answered (h : Good s) {t c : ℕ} (hout : s.cur.cout ≠ none)
    (htalks : s.talks = true → s.owed = [] ∧ d ≠ PRELIM ∧ c = if d = COMPLETE then t
      else s.cur.curtype) :
    Fit ((s.send (.type t)).hear d).servers { s.cur with curtype := c } s.other := by
  refine fit_exchange h hout (fun htalk server htold howed => ?_) fun _ _ htold =>
    told_answer htold d
  obtain ⟨hnil, hd, rfl⟩ := htalks htalk
  simp [Server.answer, Server.receive, howed, hnil, hd, Told, htold.1]

theorem good_hangUp_send (h : Good s) (c : Sent) (hout : s.cur.cout ≠ none) (d : ℤ) :
    Good ((s.send c).hangUp d) :=
  fit_exchange (c := s.cur.curtype) h hout
    (fun _ _ htold _ => ⟨htold.1, fun _ ht => (nomatch ht)⟩) fun _ _ htold =>
    ⟨htold.1, fun _ ht => (nomatch ht)⟩

section
variable {t : ℕ} {cut : Bool} {s₀ s : Client}

theorem noteType_of_inv (h : Inv s) : Inv (s₀.noteType t cut s) :=
  inv_note h.1 trivial fun hkept _ => h.2 hkept

theorem noteType_of_good (hlog : Sound s.log) (hs : Inv s₀) (hsub : ∀ e ∈ s₀.log, e ∈ s.log)
    (h : Good s₀ → Kept (.type s₀.talks s₀.cur.curtype s₀.owed t s.progress cut) → Good s) :
    Inv (s₀.noteType t cut s) :=
  inv_note hlog trivial fun hkept hk => h (hs.2 fun e he => hkept e (hsub e he)) hk

theorem sound_answered (hs : Inv s₀) (c : Sent) (d : ℤ) : Sound ((s₀.send c).hear d).log := by
  refine sound_hear (s := s₀.send c) hs.1 (fun hkept hc v hv => ?_) d
  obtain ⟨k, hcin, hv'⟩ := bind_eq_some_iff.1 hv
  obtain ⟨server, hserver, htold⟩ := ((hs.2 hkept).cur hc).2 k hcin
  have hserved : ∀ stream :
      Option ℕ, ∀ v, (atEnd stream (Server.receive c) s₀.servers)[k]? = some v →
      v.served = server.served := by
    rintro (- | j) v hv
    · rw [atEnd, hserver] at hv
      rw [some.inj hv]
    · rw [atEnd, getElem?_modify, hserver] at hv
      rw [← some.inj hv]
      split <;> rfl
  rw [hserved _ v hv', htold.1]
  rfl

theorem noteType_of_heard (hs : Inv s₀) (hout : s₀.cur.cout ≠ none)
    (h : Bent ((s₀.send (.type t)).hear d) s) (hcut : d = COMPLETE → cut = true) :
    Inv (s₀.noteType t cut s) := by
  refine noteType_of_good (h.log ▸ sound_answered hs _ d) hs (fun e he => ?_) fun hgood hkept =>
    h.good ?_
  · rw [h.log]
    exact mem_append_left _ he
  · refine fit_answered (c := s₀.cur.curtype) hgood hout fun htalk => ?_
    have hprogress : s.progress = .answered d := h.progress
    rw [hprogress] at hkept
    obtain ⟨howed, hd, hsame⟩ := hkept htalk
    refine ⟨howed, hd, ?_⟩
    split
    next hcomplete => exact (hsame (hcut hcomplete) hcomplete).symm
    next => rfl

theorem noteType_of_shut (hs : Inv s₀) (hout : s₀.cur.cout ≠ none)
    (h : Shut (s₀.send (.type t)) s) :
    Inv (s₀.noteType t cut s) := by
  obtain ⟨d, -, h⟩ := h
  refine noteType_of_good (h.log ▸ hs.1) hs (fun e he => h.log ▸ he) fun hgood _ => h.good ?_
  exact good_hangUp_send hgood _ hout d

theorem noteType_of_dropped (hs : Inv s₀) (h : Dropped (.type t) s₀ s) :
    Inv (s₀.noteType t true s) := by
  rcases h with h | ⟨hout, h | h | ⟨d, h⟩⟩
  · exact noteType_of_inv (h.inv hs)
  · refine noteType_of_good (h.log ▸ hs.1) hs (fun e he => h.log ▸ he) fun hgood hkept => h.good ?_
    refine good_send hgood fun hconn => ?_
    have hprogress : s.progress = .sent := h.progress
    rw [hprogress] at hkept
    exact (hkept (talks_of_connected hconn hout)).elim
  · exact noteType_of_shut hs hout h
  · exact noteType_of_heard hs hout h fun _ => rfl

theorem noteType_of_refused {r : ℤ} (hs : Inv s₀) (h : Asked (.type t) false s₀ r s)
    (hr : r ≠ COMPLETE) :
    Inv (s₀.noteType t false s) := by
  rcases h with ⟨-, -, h⟩ | ⟨hout, ⟨-, h | h⟩ | h⟩
  · exact noteType_of_inv (h.bent.inv hs)
  · exact noteType_of_shut hs hout h
  · exact noteType_of_heard hs hout h fun hcomplete => absurd hcomplete hr
  · exact noteType_of_heard hs hout h.bent fun hcomplete => absurd hcomplete hr

theorem noteType_of_recorded (hs : Inv s₀) (hout : s₀.cur.cout ≠ none)
    (h : Still ((s₀.send (.type t)).hear COMPLETE) s) :
    Inv (s₀.noteType t false (s.setVars fun v => { v with curtype := t })) := by
  have hstill : Still (((s₀.send (.type t)).hear COMPLETE).setVars fun v => { v with curtype := t })
      (s.setVars fun v => { v with curtype := t }) :=
    ⟨h.connected, h.cin, h.cout, rfl, h.other, h.servers, h.log, h.progress⟩
  refine noteType_of_good (h.log ▸ sound_answered hs _ _) hs (fun e he => ?_) fun hgood hkept =>
    hstill.good ?_
  · change e ∈ s.log
    rw [h.log]
    exact mem_append_left _ he
  · have hfit := fit_answered (t := t) (c := t) (d := COMPLETE) hgood hout fun htalk => ?_
    · exact ⟨hfit.known, hfit.apart, hfit.cur, hfit.other⟩
    · have hprogress : (s.setVars fun v => { v with curtype := t }).progress = .answered COMPLETE :=
        h.progress
      rw [hprogress] at hkept
      obtain ⟨howed, hd, -⟩ := hkept htalk
      exact ⟨howed, hd, rfl⟩

end

theorem triple_record (t : ℕ) (wanted : Bool) (s₀ : Client) (hs : Inv s₀) :
    Triple (Still s₀) (record t wanted) (fun _ s => Inv (s₀.noteType t false s)) fun s =>
    Inv (s₀.noteType t true s) := by
  refine triple_bind
    ((triple_command (.type t) false s₀).weaken fun _ h => noteType_of_dropped hs h) fun r => ?_
  refine triple_ite ?_ fun hr => triple_pure fun _ h => noteType_of_refused hs h hr
  rintro rfl
  have haccepted : ∀ s, Asked (.type t) false s₀ COMPLETE s →
      s₀.cur.cout ≠ none ∧ Still ((s₀.send (.type t)).hear COMPLETE) s := by
    rintro s (⟨-, h, -⟩ | ⟨hout, ⟨h | ⟨h, -⟩, -⟩ | h⟩)
    · exact absurd h (by decide)
    · exact absurd h (by decide)
    · exact (nomatch h)
    · exact ⟨hout, h⟩
  intro s hs'
  obtain ⟨hout, hstill⟩ := haccepted s hs'
  have hmild : ∀ {x : M Unit}, Mild x → Triple (Still ((s₀.send (.type t)).hear COMPLETE)) x
      (fun _ => Still ((s₀.send (.type t)).hear COMPLETE)) fun s => Inv (s₀.noteType t true s) :=
    fun hx => (hx _).weaken fun s h => noteType_of_heard hs hout h fun _ => rfl
  have hwanted : Mild (modify (Client.setVars fun v => { v with type := t })) :=
    mild_modify fun _ => ⟨rfl, rfl, rfl, rfl, rfl, rfl, rfl, rfl⟩
  refine triple_bind (hmild (mild_whenever (mild_bind mild_point fun _ => hwanted)))
    (fun _ => ?_) s hstill
  exact triple_bind (hmild mild_point) fun _ => triple_modify fun s h =>
    noteType_of_recorded hs hout h

theorem keeps_sendType (t : ℕ) (wanted : Bool) : Keeps Inv (sendType t wanted) := by
  intro s hs
  have h := triple_record t wanted { s with progress := .unsent } hs _ (Still.refl _)
  unfold sendType
  generalize record t wanted { s with progress := .unsent } = p at h ⊢
  rcases p with ⟨e | a, s'⟩
  · exact h
  · exact h

/-! ### A new connection -/

def Idle (s : Client) : Prop := Inv s ∧ s.cur.connected = false

/-- The stream from a server that is in ASCII, before the connection is taken for one. -/
def Standing (s : Client) : Prop :=
  Idle s ∧ ∃ k server, s.cur.cin = some k ∧ s.servers[k]? = some server ∧
  Told TYPE_A server

def Fresh (s : Client) : Prop := Standing s ∧ s.cur.cout = s.cur.cin

theorem Still.idle (h : Still s₀ s) (hs : Idle s₀) : Idle s :=
  ⟨h.bent.inv hs.1, h.connected.trans hs.2⟩

theorem Still.standing (h : Still s₀ s) (hs : Standing s₀) : Standing s := by
  refine ⟨h.idle hs.1, ?_⟩
  rw [h.cin, h.servers]
  exact hs.2

theorem Still.fresh (h : Still s₀ s) (hs : Fresh s₀) : Fresh s := by
  refine ⟨h.standing hs.1, ?_⟩
  rw [h.cout, h.cin]
  exact hs.2

theorem Mild.triple {α : Type} {x : M α} (hx : Mild x) {A : Client → Prop} (hA : ∀ s, A s → Inv s)
    (hstill : ∀ s₀ s, Still s₀ s → A s₀ → A s) : Triple A x (fun _ => A) Inv := fun s hs =>
  (hx s s (Still.refl s)).mono (fun _ s' h => hstill s s' h hs) fun _ h => h.inv (hA s hs)

theorem triple_disconnect : Triple Inv disconnect (fun _ => Idle) Inv := by
  refine triple_bind (Q := fun a s => a = s ∧ Inv s) (triple_get fun s hs => ⟨rfl, hs⟩) fun a => ?_
  refine triple_ite (fun _ => ?_) fun hc => triple_pure ?_
  · refine triple_bind
      ((keeps_command (c := .other) nofun true).mono (fun _ h => h.2) (fun _ _ h => h)
      fun _ h => h) fun _ => ?_
    refine triple_bind (Q := fun _ => Inv)
      (triple_modify fun s hs => (bent_noOut s).inv hs) fun _ => ?_
    refine triple_bind mild_point.steady.keeps fun _ => ?_
    exact triple_modify fun s hs => ⟨(bent_disconnected s).inv hs, rfl⟩
  · rintro s ⟨rfl, hs⟩
    exact ⟨hs, by simpa using hc⟩

theorem good_accept (h : Good s) (hc : s.cur.connected = false) : Good s.accept := by
  have hlength : s.accept.servers.length = s.servers.length + 1 := by simp [Client.accept]
  have huses : ∀ k, Uses s.accept.cur k → k = s.servers.length ∨ Uses s.cur k := by
    rintro k (hk | hk)
    · exact .inl (some.inj hk).symm
    · exact .inr (.inr hk)
  refine ⟨fun k hk => ?_, fun k hk hk' => ?_, fun hconn => ?_, fun hconn => ?_⟩
  · rw [hlength]
    rcases hk with hk | hk
    · rcases huses k hk with rfl | hk
      · omega
      · have := h.known k (.inl hk)
        omega
    · have := h.known k (.inr hk)
      omega
  · rcases huses k hk with rfl | hk
    · exact absurd (h.known _ (.inr hk')) (lt_irrefl _)
    · exact h.apart k hk hk'
  · exact absurd (hc.symm.trans hconn) (by decide)
  · obtain ⟨hcout, hcin⟩ := h.other hconn
    refine ⟨hcout, fun k hk => ?_⟩
    obtain ⟨server, hserver, htold⟩ := hcin k hk
    exact ⟨server, getElem?_append_left (h.known k (.inr (.inl hk))) ▸ hserver, htold⟩

theorem standing_accept (h : Idle s) : Standing s.accept := by
  refine ⟨⟨⟨h.1.1, fun hkept => good_accept (h.1.2 hkept) h.2⟩, h.2⟩, s.servers.length, .new, rfl,
    ?_, rfl, ?_⟩
  · simp [Client.accept]
  · simp [Server.new]

theorem fresh_cout (h : Standing s) : Fresh (s.setVars fun v => { v with cout := v.cin }) := by
  refine ⟨⟨⟨⟨h.1.1.1, fun hkept => ?_⟩, h.1.2⟩, h.2⟩, rfl⟩
  have hgood := h.1.1.2 hkept
  have huses : ∀ k, Uses { s.cur with cout := s.cur.cin } k → Uses s.cur k :=
    fun k hk => .inl (hk.elim id id)
  refine ⟨fun k hk => hgood.known k (hk.imp_left (huses k)), fun k hk => hgood.apart k (huses k hk),
    fun hconn => ?_, hgood.other⟩
  exact absurd (h.1.2.symm.trans hconn) (by decide)

theorem fresh_hear (h : Fresh s) (d : ℤ) : Fresh (s.hear d) := by
  obtain ⟨⟨⟨hinv, hc⟩, k, server, hcin, hserver, htold⟩, hout⟩ := h
  refine ⟨⟨⟨inv_hear hinv d, hc⟩, k, server.answer d, hcin, ?_, told_answer htold d⟩, hout⟩
  change (atEnd s.cur.cin (Server.answer d) s.servers)[k]? = some (server.answer d)
  rw [hcin]
  simp [atEnd, hserver]

theorem triple_hookup : Triple Idle hookup (fun b s => if b then Fresh s else Inv s) Inv := by
  refine triple_bind (mild_next.triple (fun _ h => h.1) fun _ _ => Still.idle) fun m => ?_
  refine triple_ite (fun _ => ?_) fun _ => triple_pure fun s hs => hs.1
  refine triple_bind (Q := fun _ => Standing)
    (triple_modify fun s hs => standing_accept hs) fun _ => ?_
  refine triple_bind (mild_point.triple (fun _ h => h.1.1) fun _ _ => Still.standing) fun _ => ?_
  refine triple_bind (Q := fun _ => Fresh) (triple_modify fun s hs => fresh_cout hs) fun _ => ?_
  refine triple_bind (Q := fun r s => Inv s ∧ (r ≤ COMPLETE → Fresh s)) (fun s hs => ?_) fun r => ?_
  · refine (triple_getreply false s s (Still.refl s)).mono
      (fun r s' h => ⟨h.inv hs.1.1.1, fun hr => ?_⟩)
      fun s' h => h.inv hs.1.1.1
    rcases h with ⟨rfl | hquit, -⟩ | h
    · exact absurd hr (by decide)
    · exact (nomatch hquit.1)
    · exact h.fresh (fresh_hear hs r)
  · refine triple_ite (fun _ => ?_) fun hr => triple_pure fun s hs => hs.2 (not_lt.1 hr)
    refine triple_bind (Q := fun _ => Inv)
      (triple_modify fun s hs => (bent_noStreams s).inv hs.1) fun _ => ?_
    exact triple_pure fun _ hs => hs

theorem fit_fresh (h : Fresh s) (hgood : Good s) :
    Fit s.servers { s.cur with connected := true, curtype := TYPE_A } s.other := by
  obtain ⟨⟨-, k, server, hcin, hserver, htold⟩, hout⟩ := h
  refine ⟨hgood.known, hgood.apart, fun _ => ⟨fun j hj => hout.symm.trans hj, fun j hj => ?_⟩,
    hgood.other⟩
  obtain rfl : k = j := some.inj (hcin.symm.trans hj)
  exact ⟨server, hserver, htold⟩

theorem triple_defaults (h : Fresh s₀) :
    Triple (· = s₀) defaults (fun _ s => Inv (s.note (.opening s₀.cur.curtype false)))
      fun s => Inv (s.note (.opening s₀.cur.curtype true)) := by
  obtain ⟨hsound, hgood⟩ := h.1.1.1
  have hcut : ∀ s, Bent (s₀.setVars fun v => { v with connected := true }) s →
      Inv (s.note (.opening s₀.cur.curtype true)) := by
    intro s hs
    refine inv_note (hs.log ▸ hsound) trivial fun hkept htype => hs.good ?_
    have hfit := fit_fresh h (hgood (hs.log ▸ hkept))
    rw [← htype rfl] at hfit
    exact hfit
  refine triple_bind
    (Q := fun _ => Still (s₀.setVars fun v => { v with connected := true })) ?_ fun _ => ?_
  · rintro s rfl
    exact Still.refl _
  refine triple_bind ((mild_point _).weaken hcut) fun _ => ?_
  refine triple_bind (Q := fun _ => Still (s₀.setVars fun v => { v with connected := true }))
    (triple_modify fun s hs => hs.trans ⟨rfl, rfl, rfl, rfl, rfl, rfl, rfl, rfl⟩) fun _ => ?_
  refine triple_bind ((mild_point _).weaken hcut) fun _ => triple_modify fun s hs => ?_
  have hstill : Still (s₀.setVars fun v => { v with connected := true, curtype := TYPE_A })
      (s.setVars fun v => { v with curtype := TYPE_A }) :=
    ⟨hs.connected, hs.cin, hs.cout, rfl, hs.other, hs.servers, hs.log, hs.progress⟩
  refine inv_note (hstill.log ▸ hsound) trivial fun hkept _ => hstill.good ?_
  have hfit := fit_fresh h (hgood (hstill.log ▸ hkept))
  exact hfit

theorem triple_opening : Triple Fresh opening (fun _ => Inv) Inv := by
  intro s hs
  have h := triple_defaults hs s rfl
  unfold opening
  generalize defaults s = p at h ⊢
  rcases p with ⟨e | a, s'⟩
  · exact h
  · exact h

theorem triple_connect : Triple Idle connect (fun _ => Inv) Inv := by
  refine triple_bind triple_hookup fun b => triple_ite (fun hb => ?_) fun hb =>
    triple_pure fun s hs => ?_
  · refine triple_bind (Q := fun _ => Fresh) ?_ fun _ => triple_bind triple_opening fun _ =>
      triple_pure fun _ hs => hs
    exact (mild_point.triple (fun _ h => h.1.1.1) fun _ _ => Still.fresh).mono
      (fun s hs => by simpa [hb] using hs)
      (fun _ _ hs => hs) fun _ hs => hs
  · simpa [hb] using hs

theorem keeps_setpeer : Keeps Inv setpeer := by
  refine triple_bind (Q := fun a s => a = s ∧ Inv s) (triple_get fun s hs => ⟨rfl, hs⟩) fun a => ?_
  refine triple_ite (fun _ => ?_) fun hc => ?_
  · refine triple_bind
      ((keeps_command (c := .other) nofun false).mono (fun _ h => h.2) (fun _ _ h => h)
      fun _ h => h) fun _ => ?_
    refine triple_ite (fun _ => triple_pure fun _ hs => hs) fun _ => ?_
    exact triple_bind triple_disconnect fun _ => triple_connect
  · refine triple_connect.mono ?_ (fun _ _ h => h) fun _ h => h
    rintro s ⟨rfl, hs⟩
    exact ⟨hs, by simpa using hc⟩

/-! ### Every operation -/

theorem codec_eq {t : ℕ} (h : t ≠ TYPE_E) : codec t = meant t := by
  unfold codec meant
  by_cases hA : t = TYPE_A
  · subst hA
    decide
  · rw [if_neg hA, if_neg h, if_neg hA]

theorem keeps_coding : Keeps Inv coding := by
  refine triple_bind (Q := fun a s => a = s ∧ Inv s) (triple_get fun s hs => ⟨rfl, hs⟩) fun a => ?_
  refine triple_bind (Q := fun _ => Inv) (triple_modify ?_) fun _ => triple_pure fun _ hs => hs
  rintro s ⟨rfl, hsound, hgood⟩
  refine ⟨sound_concat hsound fun hkept hk => ?_,
    fun hkept => hgood fun e he => hkept e (mem_append_left _ he)⟩
  obtain ⟨hstanding, hE⟩ := hk
  obtain ⟨hc, hserver⟩ := Bool.and_eq_true_iff.1 hstanding
  obtain ⟨v, hv⟩ := isSome_iff_exists.1 hserver
  refine ⟨?_, codec_eq hE⟩
  rw [hv, map_some, (served_of_good (hgood hkept) hc hv).1]

theorem keeps_abor : Keeps Inv abor := by
  refine keeps_bind keeps_get fun _ => keeps_ite keeps_halt (keeps_modify fun s hs => ?_)
  exact inv_send hs fun _ => nofun

theorem keeps_act (o : Op) : Keeps Inv (act o) := by
  cases o with
  | state => exact keeps_get
  | ask => exact keeps_bind mild_next.steady.keeps fun _ => keeps_pure _
  | set f => exact (mild_set f).steady.keeps
  | want t =>
    have hmild : Mild (modify (Client.setVars fun v => { v with type := t }) : M Unit) :=
      mild_modify fun _ => ⟨rfl, rfl, rfl, rfl, rfl, rfl, rfl, rfl⟩
    exact hmild.steady.keeps
  | signal h => exact (mild_signal h).steady.keeps
  | pswitch flag => exact (steady_pswitch flag).keeps
  | lostpeer => exact steady_lostpeer.keeps
  | getreply => exact keeps_getreply false
  | command => exact keeps_command (c := .other) nofun false
  | transfer => exact keeps_command (c := .transfer) nofun false
  | abor => exact keeps_abor
  | sendType t wanted => exact keeps_sendType t wanted
  | disconnect => exact triple_disconnect.mono (fun _ h => h) (fun _ _ h => h.1) fun _ h => h
  | setpeer => exact keeps_setpeer
  | coding => exact keeps_coding

/-- **Every operation keeps the invariant**, also where it is left. -/
theorem keeps_exec (o : Op) : Keeps Inv (exec o) :=
  keeps_bind mild_point.steady.keeps fun _ => keeps_act o

theorem inv_init (input : List Moment) : Inv (init input) := by
  have hinit : Fit [] Vars.init Vars.init := by
    refine ⟨fun k hk => ?_, fun k hk => ?_, nofun, nofun⟩
    · simp [Uses, Vars.init] at hk
    · simp [Uses, Vars.init] at hk
  exact ⟨sound_nil, fun _ => hinit⟩

theorem inv_run (cmds : List Command) (input : List Moment) : Inv (run cmds input) := by
  have h :=
    keeps_run (fun s : Client => s.input.length) keeps_exec (cmdscanner cmds) (init input)
    (inv_init input)
  unfold run
  generalize (cmdscanner cmds).run exec (fun s => s.input.length) (init input) = p at h ⊢
  rcases p with ⟨e | a, s⟩
  · exact h
  · exact h

/-- **In every run every transfer is faithful**, as long as the steps are kept. -/
theorem faithful_of_kept (cmds : List Command) (input : List Moment) (l : List Entry)
    (hl : l <+: (run cmds input).log)
    (hkept : ∀ e ∈ l, Kept e) : ∀ e ∈ l, Faithful e := (inv_run cmds input).1 l hl hkept

/-- A session of 80 moments: SIGINT comes at one, and at another the reply is a preliminary one,
else it is 2xx; what is asked is granted where the connection is made, and behind the second
command. -/
def session (sigint prelim : ℕ) : List Moment :=
  (List.range 80).map fun i =>
    ⟨i = sigint, .line ⟨if i = prelim then PRELIM else COMPLETE, 0, fun h => (nomatch h)⟩,
      i = 2 ∨ 30 ≤ i⟩

/-- `open`, `binary` and `put` without SIGINT. -/
theorem faithful_quiet :
    .start true TYPE_I TYPE_I ∈ (run [.open, .type .binary, .put true] (session 80 64)).log ∧
    ∀ e ∈ (run [.open, .type .binary, .put true] (session 80 64)).log, Faithful e := by
  have hlog : (run [.open, .type .binary, .put true] (session 80 64)).log =
      [.opening 0 false, .type true TYPE_A [] TYPE_I (.answered COMPLETE) false,
        .start true TYPE_I TYPE_I,
        .coding true TYPE_I (some TYPE_I) (some .image)] := by decide +kernel
  refine ⟨by simp [hlog], faithful_of_kept _ _ _ prefix_rfl ?_⟩
  have hcodes : COMPLETE ≠ PRELIM ∧ TYPE_I ≠ TYPE_E := by decide
  rw [hlog]
  simp [Kept, hcodes]

/-- SIGINT comes while `binary` waits for the reply. -/
theorem not_faithful_interrupted : ¬ ∀ cmds input, ∀ e ∈ (run cmds input).log, Faithful e := by
  intro h
  have hstart :
      .start true TYPE_A TYPE_I ∈ (run [.open, .type .binary, .put true] (session 28 59)).log := by
    decide +kernel
  have hsame : TYPE_A = TYPE_I := h _ _ _ hstart
  exact absurd hsame (by decide)

end Inetutils.Ftp.Types
