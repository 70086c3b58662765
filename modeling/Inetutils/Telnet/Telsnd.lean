import Inetutils.Telnet.Demand

/-! # Sending what is typed

`telsnd` of `telnet/telnet.c`, with `TerminalSpecialChars` of `telnet/sys_bsd.c`. The settings of
the terminal and of the user, and what a command of the user does, are the rest of the client
(`Keyboard`).

`turn` is one turn of the loop, on a character and those that follow it in the same stretch of
`ttyiring`. The loop goes on as long as there is room for 3 bytes in `netoring`; a character that
interrupts takes up to 7. -/

namespace Inetutils.Telnet.Telsnd

open Proto Items Sides
open Options Netoring Demand

/-- `termIntChar` and so on. -/
structure Tchars where
  intr : Byte
  quit : Byte
  eof : Byte
  susp : Byte
  flush : Byte
  kill : Byte
  erase : Byte

/-- The rest of the client: the settings, what turning the local echo does, `ttyflush`, and what
`command` does and queues. `localChars` is `MODE_LOCAL_CHARS (globalmode)`, `modeEdit` the bit
`MODE_EDIT`. -/
structure Keyboard (ρ : Type*) where
  rlogin : ρ → Byte
  escape : ρ → Byte
  echoc : ρ → Byte
  tchars : ρ → Tchars
  modeEdit : ρ → Bool
  localChars : ρ → Bool
  crlf : ρ → Bool
  autoflush : ρ → Bool
  autosynch : ρ → Bool
  toggleEcho : ρ → ρ
  ttyflush : ρ → ρ
  command : List Byte → Client ρ → Client ρ × List Req

/-- `bol` and `local`: at the beginning of a line, and after the `rlogin` character there. -/
structure Snd where
  bol : Bool
  escaped : Bool

abbrev POSIX_VDISABLE : Byte := 0

variable {ρ : Type*} (env : Rest ρ) (k : Keyboard ρ)

def strip (c : Client ρ) (b : Byte) : Byte :=
  if (c.options.side .willWont TELOPT_BINARY).want then b else b &&& 127

def follows (c : Client ρ) (l : List Byte) (b : Byte) : Bool := l.head?.map (strip c) = some b

/-! ### Escapes -/

/-- What the tests for `rlogin` and `escape` make of a character: nothing more happens, a command of
the user is done, with the line flushed or not, or the character goes on, as it is and stripped. -/
inductive Escaped
  | swallowed
  | command (l : List Byte) (flush : Bool)
  | char (c sc : Byte)

def Snd.passes (t : Snd) (c sc : Byte) : Snd × Escaped :=
  (if sc = LF ∨ sc = CR then { t with bol := true } else t, .char c sc)

def Snd.escapes (t : Snd) (c : Client ρ) (b : Byte) (l : List Byte) : (Snd × Escaped) × List Byte :=
  let sc := strip c b
  let rlogin := k.rlogin c.rest
  if rlogin ≠ POSIX_VDISABLE then
    if t.bol then
      if sc = rlogin then (({ bol := false, escaped := true }, .swallowed), l)
      else ({ t with bol := false }.passes b sc, l)
    else if t.escaped then
      let t := { t with escaped := false }
      if sc = 46 ∨ b = (k.tchars c.rest).eof then
        (({ t with bol := true }, .command [99, 108, 111, 115, 101, LF] false), l)
      else if sc = (k.tchars c.rest).susp then
        (({ t with bol := true }, .command [122, LF] false), l)
      else if sc = k.escape c.rest then (({ t with bol := true }, .command l true), [])
      -- the character that was held back is sent, and this one is looked at again
      else if sc ≠ rlogin then (t.passes rlogin rlogin, b :: l)
      else (t.passes b sc, l)
    else (t.passes b sc, l)
  else if sc = k.escape c.rest then
    if follows c l sc then (({ t with bol := false }, .char b sc), l.tail)
    else (({ t with bol := true }, .command l true), [])
  else (({ t with bol := false }, .char b sc), l)

/-! ### Special characters -/

def doflush (c : Client ρ) : Client ρ :=
  { c.emit (.option .DO TELOPT_TM) with
    flushline := true, flushout := true, rest := k.ttyflush c.rest }

/-- `intp`, `sendbrk`, `sendabort`, `sendsusp`. -/
def interrupt (b : Byte) (c : Client ρ) : Client ρ :=
  let flush := k.autoflush c.rest
  let synch := k.autosynch c.rest
  let c := { c.emit (.add [IAC, b]) with flushline := true }
  let c := if flush then doflush k c else c
  if synch then c.emit .synch else c

def xmitAO (c : Client ρ) : Client ρ :=
  let c := c.emit (.add [IAC, AO])
  if k.autoflush c.rest then doflush k c else c

/-- The client after a special character, or none if the character is to be added. -/
def terminalSpecialChars (sc : Byte) (c : Client ρ) : Option (Client ρ) :=
  let tc := k.tchars c.rest
  if sc = tc.intr then some (interrupt k IP c)
  else if sc = tc.quit then some (interrupt k (if c.kludgelinemode then BREAK else ABORT) c)
  else if sc = tc.eof then
    if (c.options.side .willWont TELOPT_LINEMODE).want then some (c.emit (.add [IAC, xEOF]))
    else none
  else if sc = tc.susp then some (interrupt k SUSP c)
  else if sc = tc.flush then some (xmitAO k c)
  else if k.localChars c.rest then none
  else if sc = tc.kill then some (c.emit (.add [IAC, EL]))
  else if sc = tc.erase then some (c.emit (.add [IAC, EC]))
  else none

/-! ### The loop -/

def Snd.add (t : Snd) (b : Byte) (c : Client ρ) : Snd × Client ρ :=
  if (c.options.side .willWont TELOPT_BINARY).want = false ∧ b = LF then
    ({ t with bol := true },
      { c.emit (.add (if k.localChars c.rest then [CR, LF] else [LF])) with flushline := true })
  else if (c.options.side .willWont TELOPT_BINARY).want = false ∧ b = CR then
    ({ t with bol := true },
      { c.emit (.add [CR, if k.crlf c.rest then LF else NUL]) with flushline := true })
  else (t, c.emit (.add (if b = IAC then [IAC, IAC] else [b])))

def kludgeEcho (c : Client ρ) (sc : Byte) : Bool :=
  c.kludgelinemode && k.modeEdit c.rest && sc = k.echoc c.rest

def Snd.key (t : Snd) (b sc : Byte) (c : Client ρ) : Snd × Client ρ :=
  match if k.localChars c.rest then terminalSpecialChars k sc c else none with
  | some c => ({ t with bol := true }, c)
  | none => t.add k b c

/-- A character that goes on, with what is left of the stretch. -/
def Snd.char (t : Snd) (c : Client ρ) (b sc : Byte) (l : List Byte) : Snd × Client ρ × List Byte :=
  if kludgeEcho k c sc ∧ ¬ follows c l sc then
    (t, Client.setconnmode env { c with rest := k.toggleEcho c.rest, flushline := true }, l)
  else ((t.key k b sc c).1, (t.key k b sc c).2, if kludgeEcho k c sc then l.tail else l)

/-- `command`, with what it queues. -/
def Client.command (l : List Byte) (flush : Bool) (c : Client ρ) : Client ρ :=
  let p := k.command l c
  { p.1 with out := c.out ++ p.2, flushline := p.1.flushline || flush }

/-- A turn of the loop on the character `b`, with those of the stretch that follow it. -/
def turn (t : Snd) (c : Client ρ) (b : Byte) (l : List Byte) : Snd × Client ρ × List Byte :=
  let p := t.escapes k c b l
  match p.1.2 with
  | .swallowed => (p.1.1, c, p.2)
  | .command q flush => (p.1.1, Client.command k q flush c, p.2)
  | .char b sc => p.1.1.char env k c b sc p.2

/-! ### The room taken for granted -/

/-- The number of bytes of `xmitAO`. -/
def flushDemand (c : Client ρ) : ℤ := 2 + if k.autoflush c.rest then 3 else 0

def interruptDemand (c : Client ρ) : ℤ := flushDemand k c + if k.autosynch c.rest then 2 else 0

/-- The room a special character takes, where it is more than is looked for. -/
def specialDemand (sc : Byte) (c : Client ρ) : ℤ :=
  let tc := k.tchars c.rest
  if sc = tc.intr ∨ sc = tc.quit then interruptDemand k c
  else if sc = tc.eof then 0
  else if sc = tc.susp then interruptDemand k c
  else if sc = tc.flush then flushDemand k c
  else 0

/-- The room that is taken for granted after the tests for escapes, with what is left of the
stretch: that for the bytes of a special character beyond the 3 that are looked for, and for what a
command queues. -/
def Escaped.fits (c : Client ρ) (l : List Byte) (room : ℤ) : Escaped → Prop
  | .swallowed => True
  | .command q _ => RoomFor room (k.command q c).2
  | .char _ sc =>
    k.localChars c.rest ∧ (kludgeEcho k c sc → follows c l sc) → specialDemand k sc c ≤ room

instance (c : Client ρ) (l : List Byte) (room : ℤ) : ∀ e : Escaped, Decidable (e.fits k c l room)
  | .swallowed => inferInstanceAs (Decidable True)
  | .command q _ => inferInstanceAs (Decidable (RoomFor room (k.command q c).2))
  | .char _ sc => inferInstanceAs (Decidable
    (k.localChars c.rest ∧ (kludgeEcho k c sc → follows c l sc) → specialDemand k sc c ≤ room))

def Fits (t : Snd) (c : Client ρ) (b : Byte) (l : List Byte) (room : ℤ) : Prop :=
  (t.escapes k c b l).1.2.fits k c (t.escapes k c b l).2 room

instance (t : Snd) (c : Client ρ) (b : Byte) (l : List Byte) (room : ℤ) :
    Decidable (Fits k t c b l room) :=
  inferInstanceAs (Decidable (Escaped.fits ..))

def commandTicks (t : Snd) (c : Client ρ) (b : Byte) (l : List Byte) : ℕ :=
  match (t.escapes k c b l).1.2 with
  | .command q _ => ticks (k.command q c).2
  | _ => 0

variable {k} {c c' : Client ρ}

/-- What `c'` queues after `c`, where there is room for 3 bytes. -/
def Sends (c c' : Client ρ) (k : ℕ) (fits : ℤ → Prop) : Prop :=
  ∃ rs, c'.out = c.out ++ rs ∧ ticks rs ≤ k ∧ ∀ room, 3 ≤ room → (RoomFor room rs ↔ fits room)

theorem interrupt_out (b : Byte) (c : Client ρ) : (interrupt k b c).out =
    c.out ++ .add [IAC, b] :: ((if k.autoflush c.rest then [.option .DO TELOPT_TM] else []) ++
      if k.autosynch c.rest then [.synch] else []) := by
  unfold interrupt doflush
  dsimp only
  split_ifs <;> simp [Client.emit]

theorem xmitAO_out (c : Client ρ) : (xmitAO k c).out =
    c.out ++ .add [IAC, AO] :: if k.autoflush c.rest then [.option .DO TELOPT_TM] else [] := by
  unfold xmitAO doflush
  split_ifs <;> simp_all [Client.emit]

theorem sends_interrupt (b : Byte) (c : Client ρ) :
    Sends c (interrupt k b c) 7 (interruptDemand k c ≤ ·) := by
  refine ⟨_, interrupt_out b c, ?_, fun room hroom => ?_⟩
  · split_ifs <;> simp [ticks]
  · unfold interruptDemand flushDemand
    split_ifs
    all_goals simp [RoomFor]
    all_goals omega

theorem sends_xmitAO (c : Client ρ) : Sends c (xmitAO k c) 7 (flushDemand k c ≤ ·) := by
  refine ⟨_, xmitAO_out c, ?_, fun room hroom => ?_⟩
  · split_ifs <;> simp [ticks]
  · unfold flushDemand
    split_ifs
    all_goals simp [RoomFor]
    all_goals omega

theorem sends_add {l : List Byte} (hl : l.length ≤ 3) (h : c'.out = c.out ++ [.add l]) :
    Sends c c' 7 fun _ => True :=
  ⟨_, h, by simp [ticks]; omega, fun room hroom => by simp [RoomFor]; omega⟩

theorem sends_special {sc : Byte} (hl : k.localChars c.rest = true)
    (h : terminalSpecialChars k sc c = some c') : Sends c c' 7 (specialDemand k sc c ≤ ·) := by
  unfold terminalSpecialChars at h
  unfold specialDemand
  by_cases h1 : sc = (k.tchars c.rest).intr
  · rw [if_pos h1] at h; cases h
    rw [if_pos (Or.inl h1)]; exact sends_interrupt _ c
  rw [if_neg h1] at h
  by_cases h2 : sc = (k.tchars c.rest).quit
  · rw [if_pos h2] at h; cases h
    rw [if_pos (Or.inr h2)]; exact sends_interrupt _ c
  rw [if_neg (by tauto)]
  split_ifs at h ⊢
  · cases h
    refine ⟨[.add [IAC, xEOF]], rfl, by simp [ticks], fun room hroom => ?_⟩
    simp [RoomFor]; omega
  · cases h; exact sends_interrupt _ c
  · cases h; exact sends_xmitAO c

theorem specialDemand_none {sc : Byte} (h : terminalSpecialChars k sc c = none) :
    specialDemand k sc c = 0 := by
  unfold terminalSpecialChars at h
  unfold specialDemand
  by_cases h1 : sc = (k.tchars c.rest).intr
  · rw [if_pos h1] at h; cases h
  rw [if_neg h1] at h
  by_cases h2 : sc = (k.tchars c.rest).quit
  · rw [if_pos h2] at h; cases h
  rw [if_neg (by tauto)]
  split_ifs at h ⊢ <;> rfl

theorem sends_ordinary (t : Snd) (b : Byte) : Sends c (t.add k b c).2 7 fun _ => True := by
  unfold Snd.add
  split_ifs <;> exact sends_add (by simp) rfl

theorem sends_key (t : Snd) (b sc : Byte) : Sends c (t.key k b sc c).2 7 fun room =>
    k.localChars c.rest → specialDemand k sc c ≤ room := by
  unfold Snd.key
  cases hl : k.localChars c.rest with
  | false =>
    obtain ⟨rs, h1, h2, h3⟩ := sends_ordinary (k := k) (c := c) t b
    exact ⟨rs, by simpa using h1, h2, fun room hroom => by simpa using h3 room hroom⟩
  | true =>
    cases hs : terminalSpecialChars k sc c with
    | some c' =>
      obtain ⟨rs, h1, h2, h3⟩ := sends_special hl hs
      exact ⟨rs, by simpa [hs] using h1, h2, fun room hroom => by simpa using h3 room hroom⟩
    | none =>
      obtain ⟨rs, h1, h2, h3⟩ := sends_ordinary (k := k) (c := c) t b
      refine ⟨rs, by simpa [hs] using h1, h2, fun room hroom => ?_⟩
      have hle : specialDemand k sc c ≤ room := by rw [specialDemand_none hs]; omega
      exact (h3 room hroom).trans ⟨fun _ _ => hle, fun _ => trivial⟩

/-- **A turn queues what there is room for, just if there is the room it takes for granted.** -/
theorem turn_sends (t : Snd) (b' : Byte) (l : List Byte) :
    Sends c (turn env k t c b' l).2.1 (7 + commandTicks k t c b' l) (Fits k t c b' l) := by
  unfold turn commandTicks Fits Escaped.fits
  dsimp only
  cases (t.escapes k c b' l).1.2 with
  | swallowed => exact ⟨[], by simp, Nat.zero_le _, fun _ _ => Iff.rfl⟩
  | command q flush => exact ⟨_, rfl, Nat.le_add_left .., fun _ _ => Iff.rfl⟩
  | char b sc =>
    dsimp only
    unfold Snd.char
    by_cases hk : kludgeEcho k c sc ∧ ¬ follows c (t.escapes k c b' l).2 sc
    · rw [if_pos hk]
      refine ⟨[], by simp, Nat.zero_le _, fun room _ => ?_⟩
      simp [RoomFor, hk.1, hk.2]
    · rw [if_neg hk]
      obtain ⟨rs, h1, h2, h3⟩ := sends_key (k := k) (c := c) (t.escapes k c b' l).1.1 b sc
      refine ⟨rs, h1, h2, fun room hroom => (h3 room hroom).trans ?_⟩
      exact ⟨fun h hl => h hl.1, fun h hl => h ⟨hl, fun h1 => by_contra fun h2 => hk ⟨h1, h2⟩⟩⟩

end Inetutils.Telnet.Telsnd
