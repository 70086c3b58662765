import Inetutils.Lib.Mealy
import Inetutils.Telnet.Encrypt
import Inetutils.Telnet.Proto

/-! # Two peers of the encryption option

Two peers with the same session key, and what is on the way between them (`System`). A packet is a
message of the encryption option, or data. What is written carries the algorithm it is written with
and, byte by byte, the algorithm, the key and the stream of the sender at that byte; nobody reads
these, they are what the receiver is compared with (`Synced`).

What is sent lengthens what is on the way: it is read in the states it was written in
(`Written.states_read`), its modes go on from those before (`transmit_modes`), and so do the streams
(`transmit_follows`). -/

namespace Inetutils.Telnet.Peers

open Lib.Mealy Proto Encrypt List

/-! ### What is on the way -/

abbrev TELOPT_ENCRYPT : Byte := 38

/-- `ENCRYPT_IS`, `ENCRYPT_SUPPORT`, and so on. -/
def code : Msg → Byte
  | .is _ => 0
  | .support _ => 1
  | .reply _ => 2
  | .start _ => 3
  | .stop => 4
  | .requestStart _ => 5
  | .requestEnd => 6
  | .encKeyid _ => 7
  | .decKeyid _ => 8

def text : Msg → List Byte
  | .is data => data
  | .support types => types
  | .reply data => data
  | .start id => id
  | .stop => []
  | .requestStart id => id
  | .requestEnd => []
  | .encKeyid id => id
  | .decKeyid id => id

inductive Content
  | msg (m : Msg)
  | data (l : List Byte)
  deriving DecidableEq

def quote (l : List Byte) : List Byte := l.flatMap fun b => if b = IAC then [IAC, IAC] else [b]

def Content.bytes : Content → List Byte
  | .msg m => [IAC, SB, TELOPT_ENCRYPT, code m] ++ quote (text m) ++ [IAC, SE]
  | .data l => l

abbrev Point := Alg × Block × Stream

structure Packet where
  content : Content
  mode : Option Alg
  after : Option Alg
  bytes : List Byte
  points : List (Option Point)

section
variable (des : Block → Block → Block)

/-- A byte goes out in clear, or by `encryptByte`. -/
def encryptAt : Option Point → Byte → Option Point × List Byte
  | none, b => (none, [b])
  | some (a, key, s), b =>
    (some (a, key, (encryptByte des a key s b).2), [(encryptByte des a key s b).1])

def decryptAt : Option Point → Byte → Option Point × List Byte
  | none, c => (none, [c])
  | some (a, key, s), c =>
    (some (a, key, (decryptByte des a key s c).2), [(decryptByte des a key s c).1])

theorem decryptAt_undoes : Undoes (decryptAt des) (encryptAt des) := by
  refine ⟨fun s b => ?_, fun s b => ?_⟩
  · rcases s with - | ⟨a, key, s⟩
    · rfl
    · simp only [encryptAt, feed_cons, feed_nil, decryptAt, decrypt_encrypt]
      rfl
  · rcases s with - | ⟨a, key, s⟩ <;> rfl

def outPoint (e : Enc) (a : Alg) : Point := (a, (e.fb a).krbdesKey, (e.fb a).encStream)

def inPoint (e : Enc) (a : Alg) : Point := (a, (e.fb a).krbdesKey, (e.fb a).decStream)

def putOut (e : Enc) : Option Point → Enc
  | none => e
  | some (a, _, s) => e.setFb a { e.fb a with encStream := s }

def putIn (e : Enc) : Option Point → Enc
  | none => e
  | some (a, _, s) => e.setFb a { e.fb a with decStream := s }

/-- What is in use after a START or an END is what the handler leaves. -/
def next (o o' : Option Alg) : Content → Option Alg
  | .msg (.start _) => o'
  | .msg .stop => o'
  | _ => o

def packet (o' o : Option Alg) (e : Enc) (c : Content) : Packet where
  content := c
  mode := o
  after := next o o' c
  bytes := (feed (encryptAt des) (o.map (outPoint e)) c.bytes).2
  points := states (encryptAt des) (o.map (outPoint e)) c.bytes

def wrote (o : Option Alg) (e : Enc) (c : Content) : Enc :=
  putOut e (feed (encryptAt des) (o.map (outPoint e)) c.bytes).1

/-- What was written is sent, with `o` up to a START or an END, and with `o'` after it. -/
def transmit (o' : Option Alg) : Option Alg → Enc → List Content → Enc × List Packet
  | _, e, [] => (e, [])
  | o, e, c :: cs =>
    ((transmit o' (next o o' c) (wrote des o e c) cs).1,
      packet des o' o e c :: (transmit o' (next o o' c) (wrote des o e c) cs).2)

def readPacket (e : Enc) (p : Packet) : Enc :=
  putIn e (feed (decryptAt des) (e.decryptInput.map (inPoint e)) p.bytes).1

/-! ### Two peers -/

/-- A byte was read in another state than it was written in, if `lost`. The channel `t` goes from
the side `t`. -/
structure System where
  side : Bool → Enc
  chan : Bool → List Packet
  lost : Bool

inductive Command
  | type (a : Alg) (w : Which)
  | start (w : Which) (rand : Option Block)
  | stop (w : Which)
  | enable (a : Alg) (w : Which) (rand : Option Block)
  | support
  | data (l : List Byte)

inductive Event
  | deliver (side : Bool) (rand : Option Block)
  | issue (side : Bool) (c : Command)

def sending (r : Enc × List Msg) : Enc × List Content := (r.1, r.2.map .msg)

def command (e : Enc) : Command → Enc × List Content
  | .type a w => (commandType e a w, [])
  | .start w rand => sending (commandStart e w rand)
  | .stop w => sending (commandStop e w)
  | .enable a w rand => sending (commandEnable e a w rand)
  | .support => sending (encryptSendSupport e)
  | .data l => (e, [.data l])

def handle (e : Enc) (rand : Option Block) : Content → Enc × List Content
  | .msg m => sending (receive e rand m)
  | .data _ => (e, [])

/-- The side `t`, which wrote with `o`, is left with `r`. -/
def System.act (s : System) (t : Bool) (o : Option Alg) (r : Enc × List Content) : System :=
  { s with
    side := Function.update s.side t (transmit des r.1.encryptOutput o r.1 r.2).1
    chan := Function.update s.chan t (s.chan t ++ (transmit des r.1.encryptOutput o r.1 r.2).2) }

/-- The packets `us` are left for the side `t`. -/
def System.left (s : System) (t : Bool) (us : List Packet) : System :=
  { s with chan := Function.update s.chan (!t) us }

/-- The first packet reaches the side `t`. -/
def System.deliver (s : System) (t : Bool) (rand : Option Block) : System :=
  match s.chan !t with
  | [] => s
  | p :: us =>
    if states (decryptAt des) ((s.side t).decryptInput.map (inPoint (s.side t))) p.bytes =
      p.points then
      (s.left t us).act des t (s.side t).encryptOutput
      (handle (readPacket des (s.side t) p) rand p.content)
    else { s with lost := true }

def step (s : System) : Event → System
  | .deliver t rand => s.deliver des t rand
  | .issue t c => s.act des t (s.side t).encryptOutput (command (s.side t) c)

end

structure Setup where
  autoencrypt : Bool
  autodecrypt : Bool
  wontEncrypt : Alg → Bool
  wontDecrypt : Alg → Bool
  rand : Alg → Option Block

/-- A peer with the session key. The server is the side `true`. -/
def keyedPeer (key : Block) (u : Bool → Setup) (t : Bool) : Enc :=
  (encryptSessionKey
    (encryptInit t (u t).autoencrypt (u t).autodecrypt (u t).wontEncrypt (u t).wontDecrypt) key
    (u t).rand).1

def connected (key : Block) (u : Bool → Setup) : System := ⟨keyedPeer key u, fun _ => [], false⟩

/-- The packets are written with what their reader has then, from `m` now to `m'`. -/
def Modes : Option Alg → List Packet → Option Alg → Prop
  | m, [], m' => m = m'
  | m, p :: us, m' => p.mode = m ∧ Modes p.after us m'

/-- **Each byte is read with the algorithm it was written with**, and was read in the state it was
written in. -/
structure Synced (s : System) : Prop where
  mode : ∀ t, Modes (s.side !t).decryptInput (s.chan t) (s.side t).encryptOutput
  points : s.lost = false

def startInput (e : Enc) : Option Alg := (e.decryptMode.filter e.finddecryption).or e.decryptInput

/-- A START finds its receiver set to the algorithm it was sent for. -/
def Matched (s : System) : Event → Prop
  | .deliver t _ =>
    ∀ p ∈ (s.chan !t).head?, ∀ id, p.content = .msg (.start id) → startInput (s.side t) = p.after
  | .issue _ _ => True

/-! ### What is written and read -/

section
variable {des : Block → Block → Block} {e e' : Enc} {a b X : Alg} {o o' : Option Alg} {c : Content}
    {p : Packet}

/-- What is written in the state `σ`. -/
def Written (des : Block → Block → Block) (p : Packet) (σ : Option Point) : Prop :=
  p.bytes = (feed (encryptAt des) σ p.content.bytes).2 ∧
    p.points = states (encryptAt des) σ p.content.bytes

def pointAfter (des : Block → Block → Block) (p : Packet) (σ : Option Point) : Option Point :=
  (feed (encryptAt des) σ p.content.bytes).1

theorem Written.states_read {σ : Option Point} (h : Written des p σ) :
    states (decryptAt des) σ p.bytes = p.points := by
  rw [h.1, h.2, (decryptAt_undoes des).states_feed]

theorem Written.feed_read {σ : Option Point} (h : Written des p σ) :
    feed (decryptAt des) σ p.bytes = (pointAfter des p σ, p.content.bytes) := by
  rw [h.1, (decryptAt_undoes des).feed_feed]
  rfl

theorem feed_none (des : Block → Block → Block) : ∀ l, (feed (encryptAt des) none l).1 = none
  | [] => rfl
  | _ :: l => feed_none des l

theorem feed_some (des : Block → Block → Block) (a : Alg) (key : Block) :
    ∀ (l : List Byte) (s : Stream),
    ∃ s', (feed (encryptAt des) (some (a, key, s)) l).1 = some (a, key, s')
  | [], s => ⟨s, rfl⟩
  | b :: l, s => feed_some des a key l (encryptByte des a key s b).2

@[simp] theorem outPoint_setFb_self (x : Fb) :
    outPoint (e.setFb a x) a = (a, x.krbdesKey, x.encStream) := by
  simp [outPoint]

@[simp] theorem inPoint_setFb_self (x : Fb) :
    inPoint (e.setFb a x) a = (a, x.krbdesKey, x.decStream) := by
  simp [inPoint]

theorem outPoint_setFb_of_ne (x : Fb) (h : b ≠ a) : outPoint (e.setFb a x) b = outPoint e b := by
  simp [outPoint, setFb_of_ne _ _ h]

theorem inPoint_setFb_of_ne (x : Fb) (h : b ≠ a) : inPoint (e.setFb a x) b = inPoint e b := by
  simp [inPoint, setFb_of_ne _ _ h]

structure Kept (e e' : Enc) : Prop where
  output : e'.encryptOutput = e.encryptOutput
  input : e'.decryptInput = e.decryptInput
  inPoint : ∀ X, inPoint e' X = inPoint e X
  encState : ∀ X, (e'.fb X).encState = (e.fb X).encState
  tempFeed : ∀ X, (e'.fb X).tempFeed = (e.fb X).tempFeed

theorem wrote_none (des : Block → Block → Block) (e : Enc) (c : Content) :
    wrote des none e c = e := by
  simp [wrote, feed_none, putOut]

theorem wrote_some (des : Block → Block → Block) (a : Alg) (e : Enc) (c : Content) :
    ∃ s, wrote des (some a) e c = e.setFb a { e.fb a with encStream := s } ∧
      (feed (encryptAt des) (some (outPoint e a)) c.bytes).1 = some (a, (e.fb a).krbdesKey, s) := by
  obtain ⟨s, hs⟩ := feed_some des a (e.fb a).krbdesKey c.bytes (e.fb a).encStream
  refine ⟨s, ?_, hs⟩
  simp only [wrote, Option.map_some, outPoint, hs, putOut]

theorem wrote_kept (des : Block → Block → Block) (o : Option Alg) (e : Enc) (c : Content) :
    Kept e (wrote des o e c) := by
  rcases o with - | a
  · rw [wrote_none]
    exact ⟨rfl, rfl, fun _ => rfl, fun _ => rfl, fun _ => rfl⟩
  · obtain ⟨s, hs, -⟩ := wrote_some des a e c
    rw [hs]
    refine ⟨rfl, rfl, fun X => ?_, fun X => ?_, fun X => ?_⟩ <;> by_cases hX : X = a
    · subst hX
      simp [inPoint]
    · exact inPoint_setFb_of_ne _ hX
    · subst hX
      simp
    · rw [setFb_of_ne _ _ hX]
    · subst hX
      simp
    · rw [setFb_of_ne _ _ hX]

theorem outPoint_wrote (des : Block → Block → Block) (X : Alg) (e : Enc) (c : Content) :
    some (outPoint (wrote des (some X) e c) X) =
    (feed (encryptAt des) (some (outPoint e X)) c.bytes).1 := by
  obtain ⟨s, hs, hafter⟩ := wrote_some des X e c
  rw [hs, hafter, outPoint_setFb_self]

theorem outPoint_wrote_of_ne (h : o ≠ some X) : outPoint (wrote des o e c) X = outPoint e X := by
  rcases o with - | a
  · rw [wrote_none]
  · obtain ⟨s, hs, -⟩ := wrote_some des a e c
    rw [hs, outPoint_setFb_of_ne]
    exact fun heq => h (congrArg some heq.symm)

/-! ### What is sent -/

def Switches : Content → Prop
  | .msg (.start _) => True
  | .msg .stop => True
  | _ => False

theorem next_of_switches (o o' : Option Alg) (h : Switches c) : next o o' c = o' := by
  unfold Switches at h
  split at h
  · rfl
  · rfl
  · exact h.elim

theorem next_of_not (o o' : Option Alg) (h : ¬ Switches c) : next o o' c = o := by
  unfold next
  split
  · exact absurd trivial h
  · exact absurd trivial h
  · rfl

/-- Whatever is not for `X` changes nothing, and the rest is written on from what has been read. -/
def Follows (des : Block → Block → Block) (X : Alg) :
    Option Point → List Packet → Option Point → Prop
  | σ, [], τ => σ = τ
  | σ, p :: us, τ =>
    (p.mode = some X → Written des p σ) ∧
      Follows des X (if p.mode = some X then pointAfter des p σ else σ) us τ

theorem follows_snoc : ∀ {us : List Packet} {σ τ : Option Point}, Follows des X σ us τ →
    (p.mode = some X → Written des p τ) → Follows des X σ (us ++ [p]) (if p.mode =
    some X then pointAfter des p τ else τ)
  | [], _, _, rfl, hp => ⟨hp, rfl⟩
  | _ :: _, _, _, ⟨hq, h⟩, hp => ⟨hq, follows_snoc h hp⟩

theorem follows_idle : ∀ {us : List Packet} {σ : Option Point}, (∀ p ∈ us, p.mode ≠ some X) →
    Follows des X σ us σ
  | [], _, _ => rfl
  | p :: _, _, h => by
    have hp : p.mode ≠ some X := h p mem_cons_self
    refine ⟨fun heq => absurd heq hp, ?_⟩
    rw [if_neg hp]
    exact follows_idle fun q hq => h q (mem_cons_of_mem p hq)

theorem modes_snoc : ∀ {us : List Packet} {m m' : Option Alg}, Modes m us m' → p.mode = m' →
    Modes m (us ++ [p]) p.after
  | [], _, _, rfl, hp => ⟨hp, rfl⟩
  | _ :: _, _, _, ⟨hq, h⟩, hp => ⟨hq, modes_snoc h hp⟩

theorem modes_unique : ∀ {us : List Packet} {m n m' : Option Alg},
    Modes m us m' → Modes n us m' → m = n
  | [], _, _, _, h, h' => h.trans h'.symm
  | _ :: _, _, _, _, h, h' => h.1.symm.trans h'.1

theorem transmit_kept (des : Block → Block → Block) (o' : Option Alg) :
    ∀ (cs : List Content) (o : Option Alg) (e : Enc), Kept e (transmit des o' o e cs).1
  | [], _, _ => ⟨rfl, rfl, fun _ => rfl, fun _ => rfl, fun _ => rfl⟩
  | c :: cs, o, e => by
    have h := wrote_kept des o e c
    have h' := transmit_kept des o' cs (next o o' c) (wrote des o e c)
    exact ⟨h'.output.trans h.output, h'.input.trans h.input,
      fun X => (h'.inPoint X).trans (h.inPoint X),
      fun X => (h'.encState X).trans (h.encState X), fun X => (h'.tempFeed X).trans (h.tempFeed X)⟩

theorem transmit_contents (des : Block → Block → Block) (o' : Option Alg) :
    ∀ (cs : List Content) (o : Option Alg) (e : Enc),
    (transmit des o' o e cs).2.map Packet.content = cs
  | [], _, _ => rfl
  | c :: cs, o, e => congrArg (c :: ·) (transmit_contents des o' cs (next o o' c) (wrote des o e c))

theorem transmit_idle (des : Block → Block → Block) (ho' : o' ≠ some X) :
    ∀ (cs : List Content) (o : Option Alg) (e : Enc), o ≠ some X →
    outPoint (transmit des o' o e cs).1 X = outPoint e X ∧ ∀ p ∈ (transmit des o' o e cs).2,
    p.mode ≠ some X
  | [], _, _, _ => ⟨rfl, nofun⟩
  | c :: cs, o, e, ho => by
    have hnext : next o o' c ≠ some X := by
      by_cases hc : Switches c
      · rwa [next_of_switches o o' hc]
      · rwa [next_of_not o o' hc]
    obtain ⟨hpoint, hmode⟩ := transmit_idle des ho' cs (next o o' c) (wrote des o e c) hnext
    refine ⟨hpoint.trans (outPoint_wrote_of_ne ho), fun p hp => ?_⟩
    rcases mem_cons.1 hp with rfl | hp
    · exact ho
    · exact hmode p hp

theorem transmit_follows :
    ∀ (cs : List Content) (o : Option Alg) (e : Enc) (us : List Packet) (σ : Option Point),
    Follows des X σ us (some (outPoint e X)) →
      Follows des X σ (us ++ (transmit des o' o e cs).2)
      (some (outPoint (transmit des o' o e cs).1 X))
  | [], _, _, us, _, h => by
    simp only [transmit, append_nil]
    exact h
  | c :: cs, o, e, us, σ, h => by
    have hwritten : o = some X → Written des (packet des o' o e c) (some (outPoint e X)) := by
      rintro rfl
      exact ⟨rfl, rfl⟩
    have hpoint : (if o = some X then pointAfter des (packet des o' o e c) (some (outPoint e X))
        else some (outPoint e X)) = some (outPoint (wrote des o e c) X) := by
      split_ifs with ho
      · subst ho
        exact (outPoint_wrote des X e c).symm
      · rw [outPoint_wrote_of_ne ho]
    have hsnoc := follows_snoc (p := packet des o' o e c) h hwritten
    rw [show (packet des o' o e c).mode = o from rfl, hpoint] at hsnoc
    have hrest := transmit_follows cs (next o o' c) (wrote des o e c) _ σ hsnoc
    rwa [append_assoc] at hrest

theorem transmit_modes {m : Option Alg} :
    ∀ (cs : List Content) (o : Option Alg) (e : Enc) (us : List Packet),
    Modes m us o → (o' = o ∨ ∃ c ∈ cs, Switches c) → Modes m (us ++ (transmit des o' o e cs).2) o'
  | [], o, _, us, h, hor => by
    rw [show o' = o from hor.resolve_right (by simp)]
    simpa [transmit] using h
  | c :: cs, o, e, us, h, hor => by
    have hsnoc := modes_snoc (p := packet des o' o e c) h rfl
    have hnext : o' = next o o' c ∨ ∃ c ∈ cs, Switches c := by
      by_cases hc : Switches c
      · exact .inl (next_of_switches o o' hc).symm
      · rw [next_of_not o o' hc]
        exact hor.imp id fun ⟨d, hd, hs⟩ =>
          ⟨d, (mem_cons.1 hd).resolve_left (fun heq => hc (heq ▸ hs)), hs⟩
    have hrest := transmit_modes cs (next o o' c) (wrote des o e c) _ hsnoc hnext
    rwa [append_assoc] at hrest

end

end Inetutils.Telnet.Peers
