import Inetutils.Telnet.Suboption
import Inetutils.Telnet.Netoring

/-! # What the handlers ask of `netoring`

For each call of a handler by `telrcv`, the room it takes for granted (`Fits`): 3 bytes where an
option command is answered, and none elsewhere, but for `DO LINEMODE` and for a display that is no
longer there.

`handle_asks`: there is room for what the handler queues just if there is that much. -/

namespace Inetutils.Telnet.Demand

open Proto Items Automaton Sides
open Options Suboption Netoring

/-- What follows `c` in `c'` are requests for which there is room just if the room is one of `fits`,
and which take at most `k` supplies. -/
def Asks {ρ : Type*} (c c' : Client ρ) (k : ℕ) (fits : ℤ → Prop) : Prop :=
  ∃ rs, c'.out = c.out ++ rs ∧ ticks rs ≤ k ∧ ∀ room, RoomFor room rs ↔ fits room

section
variable {ρ : Type*} {c c' c'' : Client ρ} {k : ℕ} {fits : ℤ → Prop}

theorem asks_nothing (h : c'.out = c.out) : Asks c c' k fun _ => True :=
  ⟨[], by simpa using h, Nat.zero_le _, fun _ => Iff.rfl⟩

theorem asks_option {v : Verb} {o : Byte} {p : Prop} [Decidable p] (hk : 3 ≤ k)
    (h : c'.out = c.out ++ if p then [.option v o] else []) : Asks c c' k fun room =>
    p → 3 ≤ room := by
  refine ⟨_, h, ?_, fun room => ?_⟩
  · split_ifs <;> simp [ticks, hk]
  · split_ifs with hp <;> simp [RoomFor, hp]

def Guarded (r : Req) : Prop := ∃ l, (∃ spare, r = .supply l spare) ∨ r = .require l

theorem roomFor_append_guarded {r : Req} (hr : Guarded r) : ∀ (rs : List Req) (room : ℤ),
    RoomFor room (rs ++ [r]) ↔ RoomFor room rs
  | [], room => by obtain ⟨l, ⟨spare, rfl⟩ | rfl⟩ := hr <;> simp [RoomFor]
  | .option _ _ :: rs, room => and_congr_right fun _ => roomFor_append_guarded hr rs _
  | .add _ :: rs, room => and_congr_right fun _ => roomFor_append_guarded hr rs _
  | .synch :: rs, room => and_congr_right fun _ => roomFor_append_guarded hr rs _
  | .supply _ _ :: rs, room => roomFor_append_guarded hr rs _
  | .require _ :: rs, room => forall_congr' fun _ => roomFor_append_guarded hr rs _

theorem ticks_append : ∀ rs rs' : List Req, ticks (rs ++ rs') = ticks rs + ticks rs'
  | [], rs' => (zero_add _).symm
  | .option _ _ :: rs, rs' => by simp [ticks, ticks_append rs rs', add_assoc]
  | .add _ :: rs, rs' => by simp [ticks, ticks_append rs rs', add_assoc]
  | .synch :: rs, rs' => by simp [ticks, ticks_append rs rs', add_assoc]
  | .supply _ _ :: rs, rs' => by simp [ticks, ticks_append rs rs', add_assoc]
  | .require _ :: rs, rs' => by simp [ticks, ticks_append rs rs', add_assoc]

/-- From `c` to `c'` there is at most one reply, and it is sent only if there is room. -/
def MayReply (c c' : Client ρ) : Prop :=
  ∃ r : Option Req, (∀ x ∈ r, Guarded x) ∧ c'.out = c.out ++ r.toList

theorem mayReply_nothing (h : c'.out = c.out) : MayReply c c' := ⟨none, by simp, by simpa using h⟩

theorem mayReply_supply {l : List Byte} {k : ℕ} (h : c'.out = c.out ++ [.supply l k]) :
    MayReply c c' :=
  ⟨some _, by rintro x ⟨⟩; exact ⟨l, .inl ⟨k, rfl⟩⟩, h⟩

theorem Asks.reply (h : Asks c c' k fits) (h' : MayReply c' c'') : Asks c c'' (k + 2) fits := by
  obtain ⟨rs, h1, h2, h3⟩ := h
  obtain ⟨r, hr, h'⟩ := h'
  cases r with
  | none => exact ⟨rs, by simpa [h1] using h', by omega, h3⟩
  | some x =>
    refine ⟨rs ++ [x], by simp [h', h1], ?_, fun room => ?_⟩
    · obtain ⟨l, ⟨spare, rfl⟩ | rfl⟩ := hr x rfl <;> rw [ticks_append] <;> simpa [ticks] using h2
    · rw [roomFor_append_guarded (hr x rfl), h3]

theorem Asks.congr (h : Asks c c' k fits) (ho : c''.out = c'.out) : Asks c c'' k fits := by
  obtain ⟨rs, h1, h2, h3⟩ := h
  exact ⟨rs, ho.trans h1, h2, h3⟩

theorem Asks.iff (h : Asks c c' k fits) {f : ℤ → Prop} (hf : ∀ room, fits room ↔ f room) :
    Asks c c' k f := by
  obtain ⟨rs, h1, h2, h3⟩ := h
  exact ⟨rs, h1, h2, fun room => (h3 room).trans (hf room)⟩

theorem Asks.mono (h : Asks c c' k fits) {k' : ℕ} (hk : k ≤ k') : Asks c c' k' fits := by
  obtain ⟨rs, h1, h2, h3⟩ := h
  exact ⟨rs, h1, h2.trans hk, h3⟩

end

/-! ### Option commands -/

section
variable {ρ : Type*} (env : Rest ρ) (c : Client ρ) (o : Byte)

theorem willoption_out : (willoption env o c).out =
    c.out ++ if ((c.options.side .doDont o).receive true).2 ∧ o ≠ TELOPT_TM then
      [.option (if acceptsWill o then .DO else .DONT) o] else [] := by
  simp only [willoption, mod_options, side_set, sendDo, sendDont]
  rcases receive_cases (c.options.side .doDont o) true with ⟨h0, hw, hr⟩ | ⟨hk, hr⟩
  · by_cases ha : acceptsWill o <;> simp only [hr, h0, hw, ha] <;> split_ifs <;> simp_all [Dir.verb]
  · rw [hr]
    split_ifs <;> simp_all

theorem wontoption_out : (wontoption env o c).out =
    c.out ++ if ((c.options.side .doDont o).receive false).2 ∧ o ≠ TELOPT_TM then
      [.option .DONT o] else [] := by
  simp only [wontoption, mod_options, side_set, sendDont]
  rcases receive_cases (c.options.side .doDont o) false with ⟨h0, hw, hr⟩ | ⟨hk, hr⟩
  · simp only [hr, h0, hw]
    split_ifs <;> simp_all [Dir.verb]
  · rw [hr]
    split_ifs <;> simp_all

theorem dontoption_out : (dontoption env o c).out =
    c.out ++ if ((c.options.side .willWont o).receive false).2 then [.option .WONT o] else [] := by
  simp only [dontoption, mod_options, side_set, sendWont]
  rcases receive_cases (c.options.side .willWont o) false with ⟨h0, hw, hr⟩ | ⟨hk, hr⟩
  · simp only [hr, h0, hw]
    split_ifs <;> simp_all [Dir.verb]
  · rw [hr]
    split_ifs <;> simp_all

variable {o} in
theorem dooption_out (ho : o ≠ TELOPT_LINEMODE) : (dooption env o c).out =
    c.out ++ if ((c.options.side .willWont o).receive true).2 then
      [.option (if o = TELOPT_TM ∨ acceptsDo env c o then .WILL else .WONT) o] else [] := by
  have hacc (x : Side → Side) : acceptsDo env (c.mod .willWont o x) o = acceptsDo env c o := rfl
  simp only [dooption, mod_options, side_set, sendWill, sendWont, ho, if_false, hacc]
  rcases receive_cases (c.options.side .willWont o) true with ⟨h0, hw, hr⟩ | ⟨hk, hr⟩
  · by_cases ha :
      acceptsDo env c o <;> simp only [hr, h0, hw, ha] <;> split_ifs <;> simp_all [Dir.verb]
  · rw [hr]
    split_ifs <;> simp_all

/-- Whether `SGA` is asked for when line mode begins. -/
def asksSga : Prop := ((c.options.side .doDont TELOPT_SGA).request true).2 = true

instance : Decidable (asksSga c) := inferInstanceAs (Decidable (_ = true))

def sgaRequest : List Req := if asksSga c then [.option .DO TELOPT_SGA] else []

def slcReply : List Req := ((env.slcInit c.rest).2.map fun l => Req.supply l 1).toList

theorem sendDo_sga (c' : Client ρ)
    (ho : c'.options.side .doDont TELOPT_SGA = c.options.side .doDont TELOPT_SGA) :
    (sendDo TELOPT_SGA true c').out = c'.out ++ sgaRequest c ∧
      (sendDo TELOPT_SGA true c').rest = c'.rest := by
  unfold sendDo Client.send sgaRequest asksSga Side.request
  rw [ho, if_pos rfl]
  split_ifs <;> simp_all [Dir.verb, Client.mod, Client.emit]

theorem slcInit_out (c' : Client ρ) (h : c'.rest = c.rest) :
    (c'.slcInit env).out = c'.out ++ slcReply env c := by
  unfold Client.slcInit slcReply
  rw [h]

theorem dooption_linemode_out : (dooption env TELOPT_LINEMODE c).out = c.out ++
    if ((c.options.side .willWont TELOPT_LINEMODE).answered true).resp = 0 then
      if ((c.options.side .willWont TELOPT_LINEMODE).answered true).want = false then
        sgaRequest c ++ .option .WILL TELOPT_LINEMODE :: slcReply env c
      else sgaRequest c ++ (slcReply env c ++ [.option .DO TELOPT_SGA])
    else [] := by
  have htm : ¬ TELOPT_LINEMODE = TELOPT_TM := by decide
  simp only [dooption, mod_options, side_set, htm, if_false, if_true, sendWill]
  obtain ⟨hout, hrest⟩ := sendDo_sga c
    { c.mod .willWont TELOPT_LINEMODE (·.answered true) with kludgelinemode := false } rfl
  split_ifs with h0 hw
  · rw [slcInit_out env c]
    · simp only [mod_out, send_answer, emit_out, Dir.verb, List.append_assoc]
      exact (congrArg (· ++ _) hout).trans (List.append_assoc ..)
    · exact hrest
  · show ((Client.slcInit env _).out ++ [_] : List Req) = _
    rw [slcInit_out env c]
    · simp only [mod_out, Dir.verb, List.append_assoc]
      exact (congrArg (· ++ _) hout).trans (List.append_assoc ..)
    · exact hrest
  · simp

end

/-! ### Suboptions -/

section
variable {ρ : Type*} (env : Terminal ρ) (c : Client ρ)

theorem mayReply_sendSub (l : List Byte) (spare : ℕ) : MayReply c (Client.sendSub l spare c) :=
  mayReply_supply rfl

theorem mayReply_reply (p : ρ × Option (List Byte)) : MayReply c (Client.reply p c) := by
  obtain ⟨x, _ | l⟩ := p
  · exact mayReply_nothing (by simp [Client.reply])
  · exact mayReply_supply (l := l) (k := 1) (by simp [Client.reply])

theorem mayReply_sendnaws : MayReply c (sendnaws env c) := by
  unfold sendnaws
  split_ifs
  · exact mayReply_nothing rfl
  · split
    · exact mayReply_nothing rfl
    · exact mayReply_sendSub ..

theorem mayReply_lmMode (cmd : List Byte) (init : Bool) : MayReply c (lmMode env cmd init c) := by
  unfold lmMode
  split
  · split_ifs
    · exact mayReply_nothing rfl
    · exact mayReply_nothing rfl
    · exact mayReply_supply rfl
    · exact mayReply_supply rfl
  · exact mayReply_nothing rfl

theorem mayReply_lmWill (cmd : List Byte) : MayReply c (lmWill cmd c) := by
  cases cmd
  · exact mayReply_nothing rfl
  · exact mayReply_sendSub ..

theorem mayReply_lmDo (cmd : List Byte) : MayReply c (lmDo cmd c) := by
  cases cmd
  · exact mayReply_nothing rfl
  · exact mayReply_sendSub ..

theorem mayReply_linemode (p : List Byte) : MayReply c (linemode env p c) := by
  unfold linemode
  split
  · exact mayReply_nothing rfl
  · split_ifs
    · exact mayReply_lmWill c _
    · exact mayReply_nothing rfl
    · exact mayReply_lmDo c _
    · exact mayReply_nothing rfl
    · exact mayReply_reply c _
    · exact mayReply_lmMode env c _ _
    · exact mayReply_nothing rfl

theorem mayReply_lflow (b : Byte) : MayReply c (lflow env b c) := by
  unfold lflow
  split_ifs <;> exact mayReply_nothing rfl

theorem mayReply_newEnviron (p : List Byte) : MayReply c (newEnviron env p c) := by
  unfold newEnviron
  split
  · exact mayReply_nothing rfl
  · split_ifs
    · exact mayReply_reply c _
    · exact mayReply_nothing rfl

theorem mayReply_ttype : MayReply c (ttype env c) :=
  ⟨some _, by rintro x ⟨⟩; exact ⟨_, .inr rfl⟩, rfl⟩

/-- The suboption asks for a display that is no longer there, and the option is turned off. -/
def refusesDisplay (p : List Byte) : Prop :=
  p.take 2 = [TELOPT_XDISPLOC, TELQUAL_SEND] ∧ env.display c.rest = none ∧
    ((c.options.side .willWont TELOPT_XDISPLOC).request false).2 = true

instance (p : List Byte) : Decidable (refusesDisplay env c p) :=
  inferInstanceAs (Decidable (_ ∧ _ ∧ _))

theorem mayReply_xdisploc (h : ¬ (env.display c.rest = none ∧
    ((c.options.side .willWont TELOPT_XDISPLOC).request false).2 = true)) :
    MayReply c (xdisploc env c) := by
  unfold xdisploc
  cases hd : env.display c.rest with
  | some dp => exact mayReply_sendSub ..
  | none =>
    refine mayReply_nothing ?_
    show (Client.send ..).out = _
    rw [(send_request .willWont false TELOPT_XDISPLOC c).2]
    simp [hd] at h
    simp [h]

theorem mayReply_suboption {p : List Byte} (h : ¬ refusesDisplay env c p) :
    MayReply c (suboption env p c) := by
  unfold suboption
  cases p with
  | nil => exact mayReply_nothing rfl
  | cons o q =>
    dsimp only
    split_ifs with h1 h2 h3 h4 h5 h6 h7 h8 h9 h10 h11
    · exact mayReply_ttype env c
    · exact mayReply_nothing rfl
    · exact mayReply_sendSub ..
    · exact mayReply_nothing rfl
    · cases hq : q.head? with
      | none => exact mayReply_nothing rfl
      | some b => exact mayReply_lflow env c b
    · exact mayReply_nothing rfl
    · exact mayReply_linemode env c q
    · exact mayReply_nothing rfl
    · exact mayReply_newEnviron env c q
    · refine mayReply_xdisploc env c fun hd => h ⟨?_, hd⟩
      obtain ⟨q', rfl⟩ := List.head?_eq_some_iff.mp h11.2
      rw [h10]; rfl
    · exact mayReply_nothing rfl
    · exact mayReply_nothing rfl

theorem suboption_refuses {p : List Byte} (h : refusesDisplay env c p) :
    (suboption env p c).out = c.out ++ [.option .WONT TELOPT_XDISPLOC] := by
  obtain ⟨hp, hd, hr⟩ := h
  have hwill : (c.options.side .willWont TELOPT_XDISPLOC).want = true := by
    unfold Side.request at hr
    split_ifs at hr with hdec
    by_contra hw
    exact hdec (.inr (by simpa using hw))
  match p, hp with
  | o :: b :: q, hp =>
    obtain ⟨rfl, rfl⟩ : o = TELOPT_XDISPLOC ∧ b = TELQUAL_SEND := by simpa using hp
    show (if _ then xdisploc env c else c).out = _
    rw [if_pos ⟨hwill, rfl⟩, xdisploc, hd]
    show (Client.send ..).out = _
    rw [(send_request .willWont false TELOPT_XDISPLOC c).2, if_pos hr]
    rfl

end

/-! ### The room taken for granted -/

section
variable {ρ : Type*} (env : Terminal ρ) (c : Client ρ)

def afterReply (r : Option (List Byte)) (room : ℤ) : ℤ :=
  r.elim room fun l => if room ≥ l.length + (1 : ℕ) then room - l.length else room

/-- For `DO LINEMODE`: `SGA` is asked for in any case. The second answer follows the reply of
`slc_init`. -/
def fitsLinemode (room : ℤ) : Prop :=
  let y := (c.options.side .willWont TELOPT_LINEMODE).answered true
  let sga := if asksSga c then 3 else 0
  y.resp = 0 → (asksSga c → 3 ≤ room) ∧
    3 ≤ if y.want then afterReply (env.slcInit c.rest).2 (room - sga) else room - sga

/-- The room that is taken for granted. -/
def Fits (a : Act) (room : ℤ) : Prop :=
  match a with
  | .command _ => True
  | .option .WILL o => ((c.options.side .doDont o).receive true).2 ∧ o ≠ TELOPT_TM → 3 ≤ room
  | .option .WONT o => ((c.options.side .doDont o).receive false).2 ∧ o ≠ TELOPT_TM → 3 ≤ room
  | .option .DO o =>
    if o = TELOPT_LINEMODE then fitsLinemode env c room
    else ((c.options.side .willWont o).receive true).2 → 3 ≤ room
  | .option .DONT o => ((c.options.side .willWont o).receive false).2 → 3 ≤ room
  | .suboption p => refusesDisplay env c p → 3 ≤ room

instance (room : ℤ) : Decidable (fitsLinemode env c room) :=
  inferInstanceAs (Decidable (_ = (0 : UInt8) → (_ → _) ∧ (3 : ℤ) ≤ _))

instance decidableFits : ∀ (a : Act) (room : ℤ), Decidable (Fits env c a room)
  | .command _, _ => inferInstanceAs (Decidable True)
  | .option .WILL _, _ => inferInstanceAs (Decidable (_ ∧ _ → _))
  | .option .WONT _, _ => inferInstanceAs (Decidable (_ ∧ _ → _))
  | .option .DO o, room =>
    inferInstanceAs
      (Decidable (if o = TELOPT_LINEMODE then fitsLinemode env c room else _ → (3 : ℤ) ≤ room))
  | .option .DONT _, _ => inferInstanceAs (Decidable (_ → _))
  | .suboption _, _ => inferInstanceAs (Decidable (_ → _))

theorem dooption_linemode_asks :
    Asks c (dooption env.toRest TELOPT_LINEMODE c) 8 (fitsLinemode env c) := by
  refine ⟨_, dooption_linemode_out env.toRest c, ?_, fun room => ?_⟩
  · unfold sgaRequest slcReply
    cases (env.slcInit c.rest).2 <;> split_ifs <;> simp [ticks]
  · unfold fitsLinemode sgaRequest slcReply afterReply
    cases (env.slcInit c.rest).2 <;> split_ifs <;> simp_all [RoomFor]

/-- **A handler queues what there is room for, just if there is the room it takes for granted.** -/
theorem handle_asks (a : Act) : Asks c (handle env a c) 10 (Fits env c a) := by
  match a with
  | .command b =>
    refine asks_nothing ?_
    unfold handle
    dsimp only
    split_ifs <;> rfl
  | .option .WILL o => exact asks_option (by omega) (willoption_out env.toRest c o)
  | .option .WONT o => exact asks_option (by omega) (wontoption_out env.toRest c o)
  | .option .DONT o => exact asks_option (by omega) (dontoption_out env.toRest c o)
  | .option .DO o =>
    by_cases hl : o = TELOPT_LINEMODE
    · subst hl
      exact (dooption_linemode_asks env c).mono (by omega)
    · have hdo := asks_option (k := 3) le_rfl (dooption_out env.toRest c hl)
      rw [show Fits env c (.option .DO o) = _ from funext fun room => if_neg hl]
      unfold handle
      dsimp only
      split_ifs
      · exact (hdo.reply (mayReply_sendnaws env _)).mono (by omega)
      · exact (hdo.congr rfl).mono (by omega)
      · exact hdo.mono (by omega)
  | .suboption p =>
    by_cases h : refusesDisplay env c p
    · exact asks_option (p := refusesDisplay env c p) (by omega)
        (by rw [if_pos h]; exact suboption_refuses env c h)
    · obtain ⟨rs, h1, h2, h3⟩ := (asks_nothing rfl).reply (k := 0) (mayReply_suboption env c h)
      exact ⟨rs, h1, h2.trans (by omega), fun room => (h3 room).trans (by simp [Fits, h])⟩

end

/-! ### A turn of `telrcv` -/

/-- The handlers a turn on the byte `b` calls. -/
def acts {σ : Type*} (r : Telrcv.Rcv σ) (b : Byte) : List Act :=
  match r.state with
  | .IAC => if isCommand b then [.command b] else []
  | .verb v => [.option v b]
  | .SE =>
    if b = IAC then []
    else .suboption (sbTerm Telrcv.SUBBUFSIZE r.sub b) ::
      if b ≠ SE ∧ isCommand b then [.command b] else []
  | _ => []

section
variable {σ : Type*} (cl : Telrcv.Client σ) (r : Telrcv.Rcv σ) (b : Byte) (l : List Byte)

theorem data_client : (r.data cl b l).1.client = r.client := by
  unfold Telrcv.Rcv.data
  split_ifs
  · rfl
  · cases l with
    | nil => rfl
    | cons nc l' => dsimp only; split_ifs <;> rfl
  · rfl

theorem processIac_client : (r.processIac cl b).1.client =
    if isCommand b then cl.handle (.command b) r.client else r.client := by
  unfold Telrcv.Rcv.processIac isCommand
  cases hv : verbOf b with
  | some v => simp
  | none => dsimp only; split_ifs <;> simp_all [Telrcv.Rcv.call]

theorem turn_client : (Telrcv.turn cl r b l).1.client =
    (acts r b).foldl (fun x a => cl.handle a x) r.client := by
  unfold Telrcv.turn acts
  cases hs : r.state with
  | DATA => exact data_client cl r b l
  | CR =>
    dsimp only
    split_ifs
    · rfl
    · rfl
    · exact data_client cl _ b l
  | IAC =>
    simp only [Telrcv.Rcv.receive, hs]
    rw [processIac_client]
    split_ifs <;> rfl
  | verb v => simp only [Telrcv.Rcv.receive, hs]; rfl
  | SB => simp only [Telrcv.Rcv.receive, hs]; split_ifs <;> rfl
  | SE =>
    simp only [Telrcv.Rcv.receive, hs]
    by_cases h1 : b = SE
    · subst h1; rfl
    by_cases h2 : b = IAC
    · subst h2; rfl
    rw [if_neg h1, if_neg h2, if_neg h2]
    rw [processIac_client]
    split_ifs with h3 h4 h4
    · rfl
    · exact absurd ⟨h1, h3⟩ h4
    · exact absurd h4.2 h3
    · rfl

end

/-- **A turn queues what there is room for, just if there is the room its handlers take for
granted.** -/
theorem turn_asks {ρ : Type*} (env : Terminal ρ) (r : Telrcv.Rcv (Client ρ)) (b : Byte)
    (l : List Byte) :
    Asks r.client (Telrcv.turn (rcvClient env) r b l).1.client 10 fun room =>
      ∀ a ∈ acts r b, Fits env r.client a room := by
  have hcmd (c : Byte) (x : Client ρ) : (handle env (.command c) x).out = x.out := by
    unfold handle
    dsimp only
    split_ifs <;> rfl
  rw [turn_client]
  unfold acts
  cases r.state with
  | verb v => exact (handle_asks env r.client (.option v b)).iff fun room => by simp
  | SE =>
    have hsub := handle_asks env r.client (.suboption (sbTerm Telrcv.SUBBUFSIZE r.sub b))
    dsimp only
    split_ifs with h1 h2
    · exact (asks_nothing rfl).iff fun room => by simp
    · exact (hsub.congr (hcmd b _)).iff fun room => by simp [Fits]
    · exact hsub.iff fun room => by simp
  | IAC =>
    dsimp only
    split_ifs
    · exact (handle_asks env r.client (.command b)).iff fun room => by simp [Fits]
    · exact (asks_nothing rfl).iff fun room => by simp
  | DATA => exact (asks_nothing rfl).iff fun room => by simp
  | CR => exact (asks_nothing rfl).iff fun room => by simp
  | SB => exact (asks_nothing rfl).iff fun room => by simp

end Inetutils.Telnet.Demand
