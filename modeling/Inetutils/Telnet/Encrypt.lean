import Mathlib.Data.List.GetD
import Mathlib.Data.Fintype.Pi

/-! # The encryption option

`libtelnet/encrypt.c` and `libtelnet/enc_des.c`: two algorithms, each with a stream for either
direction and what is still missing before the stream may be used. Output is switched on by the side
that sends START, once nothing is missing for the algorithm; input is switched on by a START that is
received, whatever `decrypt_mode` is.

A message is what stands between `IAC SB ENCRYPT` and `IAC SE`, with doubled IACs read as one.
Handlers give the messages that are sent. The random vectors come with the call, none where there is
no randomness. -/

namespace Inetutils.Telnet.Encrypt

abbrev Block := Fin 8 → UInt8

abbrev KeyId := List UInt8

inductive Alg
  | cfb64
  | ofb64
  deriving DecidableEq

/-- `ENCTYPE_DES_CFB64` and `ENCTYPE_DES_OFB64` -/
def Alg.type : Alg → UInt8
  | .cfb64 => 1
  | .ofb64 => 2

def algOf (type : UInt8) : Option Alg :=
  if type = 1 then some .cfb64 else if type = 2 then some .ofb64 else none

@[simp] theorem algOf_type (a : Alg) : algOf a.type = some a := by cases a <;> rfl

/-- What is missing, as the bits of `state`. -/
structure Missing where
  noSendIv : Bool
  noRecvIv : Bool
  noKeyid : Bool
  deriving DecidableEq

def inProgress : Missing := ⟨true, true, true⟩

/-- `SUCCESS` -/
def nothing : Missing := ⟨false, false, false⟩

/-- `struct stinfo`, whose `str_ikey` is always the key of the algorithm. -/
structure Stream where
  iv : Block
  output : Block
  feed : Block
  index : ℕ
  deriving DecidableEq

/-- `struct fb`. A state of `FAILED` is `none`. -/
structure Fb where
  krbdesKey : Block
  tempFeed : Block
  needStart : Bool
  encState : Option Missing
  decState : Option Missing
  encStream : Stream
  decStream : Stream

inductive Dir
  | encrypt
  | decrypt
  deriving DecidableEq

inductive Msg
  | is (data : List UInt8)
  | reply (data : List UInt8)
  | support (types : List UInt8)
  | start (id : KeyId)
  | stop
  | requestStart (id : KeyId)
  | requestEnd
  | encKeyid (id : KeyId)
  | decKeyid (id : KeyId)
  deriving DecidableEq

/-- `encKeyid` and `decKeyid` are what `ki[0]` and `ki[1]` hold. -/
structure Enc where
  server : Bool
  decryptMode : Option Alg
  encryptMode : Option Alg
  encryptOutput : Option Alg
  decryptInput : Option Alg
  autoencrypt : Bool
  autodecrypt : Bool
  wontEncrypt : Alg → Bool
  wontDecrypt : Alg → Bool
  remoteEncrypt : Alg → Bool
  remoteDecrypt : Alg → Bool
  encKeyid : KeyId
  decKeyid : KeyId
  strSend : Option (List UInt8)
  fb : Alg → Fb

def zero : Block := fun _ => 0

def zeroStream : Stream := ⟨zero, zero, zero, 0⟩

/-- `fb64_init` -/
def fbInit : Fb := ⟨zero, zero, false, none, none, zeroStream, zeroStream⟩

/-- `encrypt_init`, with what was set before. -/
def encryptInit (server autoencrypt autodecrypt : Bool) (wontEncrypt wontDecrypt : Alg → Bool) :
    Enc where
  server := server
  decryptMode := none
  encryptMode := none
  encryptOutput := none
  decryptInput := none
  autoencrypt := autoencrypt
  autodecrypt := autodecrypt
  wontEncrypt := wontEncrypt
  wontDecrypt := wontDecrypt
  remoteEncrypt := fun _ => false
  remoteDecrypt := fun _ => false
  encKeyid := []
  decKeyid := []
  strSend := some (([Alg.cfb64, .ofb64].filter fun a => !wontDecrypt a).map Alg.type)
  fb := fun _ => fbInit

section
variable (e : Enc) (a : Alg)

def Enc.setFb (x : Fb) : Enc := { e with fb := Function.update e.fb a x }

def Enc.findencryption : Bool := !e.wontEncrypt a && e.remoteDecrypt a

def Enc.finddecryption : Bool := !e.wontDecrypt a && e.remoteEncrypt a

def validkey (k : Block) : Bool := k ≠ zero

def fbIv : UInt8 := 1

def fbIvOk : UInt8 := 2

def fbIvBad : UInt8 := 3

def ivBytes (b : Block) : List UInt8 := List.ofFn b

def blockOf (l : List UInt8) : Block := fun i => l.getD i 0

/-- `fb64_stream_iv` -/
def Stream.setIv (seed : Block) (s : Stream) : Stream :=
  { s with iv := seed, output := seed, index := 8 }

/-- `fb64_stream_key` -/
def Stream.setKey (s : Stream) : Stream := { s with output := s.iv, index := 8 }

/-! ### `enc_des.c` -/

structure Result where
  ret : Option Missing
  enc : Enc
  sent : List Msg

def sendIv (m : Missing) (b : Block) : Result :=
  ⟨some { m with noSendIv := false, noRecvIv := true },
    e.setFb a { e.fb a with
      encState := some { m with noSendIv := false, noRecvIv := true }, tempFeed := b },
    [.is (a.type :: fbIv :: ivBytes b)]⟩

def awaitKey (m : Missing) : Result :=
  ⟨some m, e.setFb a { e.fb a with encState := some m, needStart := true }, []⟩

/-- What is missing before a start, where a vector must be sent. -/
def mustSend : Option Missing → Option Missing
  | none => some inProgress
  | some m => if m.noSendIv then some m else none

/-- In the direction `DIR_ENCRYPT`. -/
def fb64Start (rand : Option Block) : Result :=
  match mustSend (e.fb a).encState with
  | none => ⟨(e.fb a).encState, e, []⟩
  | some m =>
    if validkey (e.fb a).krbdesKey then
      match rand with
      | some b => sendIv e a m b
      | none => ⟨none, e, []⟩
    else awaitKey e a m

def ivBad : Msg := .reply [a.type, fbIvBad]

def ivOk : Msg := .reply [a.type, fbIvOk]

def fb64Is (data : List UInt8) : Result :=
  match data with
  | 1 :: iv =>
    if iv.length = 8 then
      ⟨some inProgress,
        e.setFb a { e.fb a with
          decState := some inProgress, decStream := (e.fb a).decStream.setIv (blockOf iv) },
        [ivOk a]⟩
    else ⟨none, e.setFb a { e.fb a with decState := none }, [ivBad a]⟩
  | _ => ⟨(e.fb a).decState, e, [ivBad a]⟩

/-- `encrypt_send_keyid`, which may keep the key id. -/
def sendKeyid (dir : Dir) (id : KeyId) : Msg :=
  match dir with
  | .encrypt => .encKeyid id
  | .decrypt => .decKeyid id

def fb64Reply (data : List UInt8) : Result :=
  match data with
  | 2 :: _ =>
    ⟨some { (e.fb a).encState.getD inProgress with noRecvIv := false },
      { e.setFb a { e.fb a with
          encState := some { (e.fb a).encState.getD inProgress with noRecvIv := false }
          encStream := (e.fb a).encStream.setIv (e.fb a).tempFeed } with encKeyid := [0] },
      [sendKeyid .encrypt [0]]⟩
  | 3 :: _ =>
    ⟨none,
      e.setFb a { e.fb a with
        encState := none, tempFeed := zero, encStream := (e.fb a).encStream.setIv zero },
      []⟩
  | _ => ⟨none, e.setFb a { e.fb a with encState := none }, []⟩

def Fb.state (x : Fb) : Dir → Option Missing
  | .encrypt => x.encState
  | .decrypt => x.decState

def Fb.setState (x : Fb) (m : Option Missing) : Dir → Fb
  | .encrypt => { x with encState := m }
  | .decrypt => { x with decState := m }

def Enc.keyid (e : Enc) : Dir → KeyId
  | .encrypt => e.encKeyid
  | .decrypt => e.decKeyid

def Enc.setKeyid (e : Enc) (id : KeyId) : Dir → Enc
  | .encrypt => { e with encKeyid := id }
  | .decrypt => { e with decKeyid := id }

def fb64Keyid (dir : Dir) (id : KeyId) : Option Missing × Enc :=
  if id = [0] then
    (some { ((e.fb a).state dir).getD inProgress with noKeyid := false },
      (e.setFb a
        ((e.fb a).setState
          (some { ((e.fb a).state dir).getD inProgress with noKeyid := false }) dir)).setKeyid
        [0] dir)
  else ((e.fb a).state dir, e.setKeyid [] dir)

def Fb.keyed (x : Fb) (k : Block) : Fb :=
  { x with
    krbdesKey := k, encStream := x.encStream.setKey, decStream := x.decStream.setKey
    needStart := false }

def fb64Session (k : Block) (rand : Option Block) : Enc × List Msg :=
  if (e.fb a).needStart then
    ((fb64Start (e.setFb a ((e.fb a).keyed k)) a rand).enc,
      (fb64Start (e.setFb a ((e.fb a).keyed k)) a rand).sent)
  else (e.setFb a ((e.fb a).keyed k), [])

/-! ### `encrypt.c` -/

/-- `encrypt_start_output`, after the start of the algorithm. -/
def startWith (r : Result) : Enc × List Msg :=
  if r.ret = some nothing then
    ({ r.enc with encryptOutput := some a, encryptMode := some a },
      r.sent ++ [.start r.enc.encKeyid])
  else (r.enc, r.sent)

def encryptStartOutput (rand : Option Block) : Enc × List Msg :=
  if e.findencryption a then startWith a (fb64Start e a rand) else (e, [])

end

section
variable (e : Enc)

def encryptSendEnd : Enc × List Msg :=
  match e.encryptOutput with
  | some _ => ({ e with encryptOutput := none }, [.stop])
  | none => (e, [])

def useType (types : List UInt8) : Option Alg :=
  types.findSome? fun t => (algOf t).filter fun a => !e.wontEncrypt a

def supporting (types : List UInt8) : Enc :=
  { e with remoteDecrypt := fun a => !e.wontEncrypt a && types.contains a.type }

def supportWith (a : Alg) (rand : Option Block) (r : Result) : Enc × List Msg :=
  match r.ret with
  | none => (r.enc, r.sent)
  | some m =>
    if m = nothing then
      ((encryptStartOutput { r.enc with encryptMode := some a } a rand).1,
        r.sent ++ (encryptStartOutput { r.enc with encryptMode := some a } a rand).2)
    else ({ r.enc with encryptMode := some a }, r.sent)

def encryptSupport (types : List UInt8) (rand : Option Block) : Enc × List Msg :=
  match useType e types with
  | none => (supporting e types, [])
  | some a =>
    if (supporting e types).findencryption a then
      supportWith a rand (fb64Start (supporting e types) a rand)
    else (supporting e types, [])

def offered (a : Alg) : Enc := { e with remoteEncrypt := Function.update e.remoteEncrypt a true }

def isWith (a : Alg) (r : Result) : Enc × List Msg :=
  match r.ret with
  | none => ({ r.enc with autodecrypt := false }, r.sent)
  | some m =>
    ({ r.enc with decryptMode := some a },
      r.sent ++ if m = nothing ∧ r.enc.autodecrypt then [.requestStart r.enc.decKeyid] else [])

def encryptIs (data : List UInt8) : Enc × List Msg :=
  match data with
  | [] => (e, [])
  | type :: data =>
    match algOf type with
    | none => (e, [])
    | some a => if (offered e a).finddecryption a then isWith a (fb64Is (offered e a) a data)
      else (offered e a, [])

def replyWith (a : Alg) (rand : Option Block) (r : Result) : Enc × List Msg :=
  match r.ret with
  | none => ({ r.enc with autoencrypt := false }, r.sent)
  | some m =>
    if m = nothing ∧ r.enc.autoencrypt then
      ((encryptStartOutput { r.enc with encryptMode := some a } a rand).1,
        r.sent ++ (encryptStartOutput { r.enc with encryptMode := some a } a rand).2)
    else ({ r.enc with encryptMode := some a }, r.sent)

def encryptReply (data : List UInt8) (rand : Option Block) : Enc × List Msg :=
  match data with
  | [] => (e, [])
  | type :: data =>
    match (algOf type).filter e.findencryption with
    | none => (e, [])
    | some a => replyWith a rand (fb64Reply e a data)

def encryptStart : Enc × List Msg :=
  match e.decryptMode.filter e.finddecryption with
  | some a => ({ e with decryptInput := some a }, [])
  | none => (e, [.requestEnd])

def encryptEnd : Enc := { e with decryptInput := none }

def encryptRequestStart (rand : Option Block) : Enc × List Msg :=
  match e.encryptMode with
  | none => ({ e with autoencrypt := e.autoencrypt || e.server }, [])
  | some a => encryptStartOutput e a rand

/-- `getcrypt`, of the mode. -/
def getcrypt : Dir → Option Alg
  | .encrypt => e.encryptMode.filter e.findencryption
  | .decrypt => e.decryptMode.filter e.finddecryption

def keyidAgain (dir : Dir) (a : Alg) (rand : Option Block) (r : Option Missing × Enc) :
    Enc × List Msg :=
  if r.1 = some nothing ∧ dir = .encrypt ∧ r.2.autoencrypt then encryptStartOutput r.2 a rand
  else (r.2, [])

def encryptKeyid (dir : Dir) (id : KeyId) (rand : Option Block) : Enc × List Msg :=
  match getcrypt e dir with
  | none => if id = [] then (e, []) else (e.setKeyid [] dir, [sendKeyid dir []])
  | some a =>
    if id = [] then
      if e.keyid dir = [] then (e, [])
      else ((fb64Keyid e a dir []).2, [sendKeyid dir ((fb64Keyid e a dir []).2.keyid dir)])
    else if id.take 64 = e.keyid dir then keyidAgain dir a rand (fb64Keyid e a dir (e.keyid dir))
    else ((fb64Keyid e a dir (id.take 64)).2,
      [sendKeyid dir ((fb64Keyid e a dir (id.take 64)).2.keyid dir)])

/-- `encrypt_session_key`, of a DES key. -/
def encryptSessionKey (k : Block) (rand : Alg → Option Block) : Enc × List Msg :=
  ((fb64Session (fb64Session e .cfb64 k (rand .cfb64)).1 .ofb64 k (rand .ofb64)).1,
    (fb64Session e .cfb64 k (rand .cfb64)).2 ++
      (fb64Session (fb64Session e .cfb64 k (rand .cfb64)).1 .ofb64 k (rand .ofb64)).2)

def receive (rand : Option Block) : Msg → Enc × List Msg
  | .is data => encryptIs e data
  | .reply data => encryptReply e data rand
  | .support types => encryptSupport e types rand
  | .start _ => encryptStart e
  | .stop => (encryptEnd e, [])
  | .requestStart _ => encryptRequestStart e rand
  | .requestEnd => encryptSendEnd e
  | .encKeyid id => encryptKeyid e .decrypt id rand
  | .decKeyid id => encryptKeyid e .encrypt id rand

end

/-! ### The commands of the user -/

inductive Which
  | both
  | input
  | output
  deriving DecidableEq

def Which.input? (w : Which) : Bool := w != .output

def Which.output? (w : Which) : Bool := w != .input

section
variable (e : Enc)

def commandType (a : Alg) (w : Which) : Enc :=
  { e with
    decryptMode := if w.input? then some a else e.decryptMode
    wontDecrypt := if w.input? then Function.update e.wontDecrypt a false else e.wontDecrypt
    encryptMode := if w.output? then some a else e.encryptMode
    wontEncrypt := if w.output? then Function.update e.wontEncrypt a false else e.wontEncrypt }

/-- `encrypt_send_request_start`, with a mode. -/
def commandStartInput : List Msg :=
  match e.decryptMode with
  | some _ => [.requestStart e.decKeyid]
  | none => []

def commandStartOutput (rand : Option Block) : Enc × List Msg :=
  match e.encryptMode with
  | some a => encryptStartOutput e a rand
  | none => (e, [])

def commandStart (w : Which) (rand : Option Block) : Enc × List Msg :=
  (if w.output? then (commandStartOutput e rand).1 else e,
    (if w.input? then commandStartInput e else []) ++
    if w.output? then (commandStartOutput e rand).2 else [])

def commandStop (w : Which) : Enc × List Msg :=
  (if w.output? then (encryptSendEnd e).1 else e,
    (if w.input? then [.requestEnd] else []) ++ if w.output? then (encryptSendEnd e).2 else [])

def commandEnable (a : Alg) (w : Which) (rand : Option Block) : Enc × List Msg :=
  commandStart (commandType e a w) w rand

def encryptSendSupport : Enc × List Msg :=
  match e.strSend with
  | none => (e, [])
  | some types =>
    ({ e with strSend := none },
      (if !e.server && e.autodecrypt then [.requestStart e.decKeyid] else []) ++ [.support types])

end

/-! ### The streams -/

section
variable (des : Block → Block → Block)

/-- A new block of the key stream, once the last is used up. -/
def Stream.refresh (a : Alg) (key : Block) (s : Stream) : Stream :=
  if s.index = 8 then
    { s with
      feed := des key (match a with | .cfb64 => s.output | .ofb64 => s.feed)
      index := 0 }
  else s

def Stream.place (s : Stream) : Fin 8 := ⟨s.index % 8, Nat.mod_lt _ (Nat.succ_pos 7)⟩

def Stream.keyByte (s : Stream) : UInt8 := s.feed s.place

def Stream.put (a : Alg) (c : UInt8) (s : Stream) : Stream :=
  match a with
  | .cfb64 => { s with output := Function.update s.output s.place c, index := s.index + 1 }
  | .ofb64 => { s with index := s.index + 1 }

/-- One round of `cfb64_encrypt` and `ofb64_encrypt`. -/
def encryptByte (a : Alg) (key : Block) (s : Stream) (b : UInt8) : UInt8 × Stream :=
  ((s.refresh des a key).keyByte ^^^ b,
    (s.refresh des a key).put a ((s.refresh des a key).keyByte ^^^ b))

/-- `cfb64_decrypt` and `ofb64_decrypt` -/
def decryptByte (a : Alg) (key : Block) (s : Stream) (c : UInt8) : UInt8 × Stream :=
  (c ^^^ (s.refresh des a key).keyByte, (s.refresh des a key).put a c)

/-- **What is encrypted is decrypted**, and the streams stay the same. -/
theorem decrypt_encrypt (a : Alg) (key : Block) (s : Stream) (b : UInt8) :
    decryptByte des a key s (encryptByte des a key s b).1 = (b, (encryptByte des a key s b).2) := by
  unfold decryptByte encryptByte
  rw [UInt8.xor_comm _ (s.refresh des a key).keyByte, ← UInt8.xor_assoc, UInt8.xor_self,
    UInt8.zero_xor]

end

/-! ### The start of an algorithm -/

section
variable {e e' : Enc} {a b : Alg} {m : Missing} {rand : Option Block}

@[simp] theorem setFb_self (e : Enc) (a : Alg) (x : Fb) : (e.setFb a x).fb a = x :=
  Function.update_self ..

theorem setFb_of_ne (e : Enc) (x : Fb) (h : b ≠ a) : (e.setFb a x).fb b = e.fb b :=
  Function.update_of_ne h ..

theorem type_inj : a.type = b.type ↔ a = b := by cases a <;> cases b <;> decide

theorem blockOf_ivBytes (b : Block) : blockOf (ivBytes b) = b := by
  funext i
  have hi : (i : ℕ) < (List.ofFn b).length := by simp
  rw [blockOf, ivBytes, List.getD_eq_getElem _ _ hi, List.getElem_ofFn]

/-- What leads to an output that is ready, in place of `fb64_start`: nothing, the wait for a key, or
a vector. -/
inductive Prepares (e : Enc) : Enc → List Msg → Prop
  | same : Prepares e e []
  | await (a : Alg) (m : Missing) :
    mustSend (e.fb a).encState = some m → Prepares e (awaitKey e a m).enc []
  | send (a : Alg) (m : Missing) (b : Block) :
    mustSend (e.fb a).encState = some m → Prepares e (sendIv e a m b).enc (sendIv e a m b).sent

theorem prepares_start (e : Enc) (a : Alg) (rand : Option Block) :
    Prepares e (fb64Start e a rand).enc (fb64Start e a rand).sent := by
  unfold fb64Start
  rcases hm : mustSend (e.fb a).encState with - | m
  · exact .same
  · dsimp only
    split_ifs
    · rcases rand with - | b
      · exact .same
      · exact .send a m b hm
    · exact .await a m hm

theorem noSendIv_of_mustSend {o : Option Missing} (h : mustSend o = some m) :
    m.noSendIv = true := by
  rcases o with - | n
  · obtain rfl := Option.some.inj h
    rfl
  · unfold mustSend at h
    dsimp only at h
    split_ifs at h with hn
    obtain rfl := Option.some.inj h
    exact hn

theorem start_nothing : (fb64Start e a rand).ret = some nothing ↔
    (e.fb a).encState = some nothing := by
  unfold fb64Start
  rcases hm : mustSend (e.fb a).encState with - | m
  · exact Iff.rfl
  · have hne : (e.fb a).encState ≠ some nothing := fun heq => by simp [heq, mustSend, nothing] at hm
    have hsend := noSendIv_of_mustSend hm
    refine iff_of_false ?_ hne
    split_ifs
    · rcases rand with - | b <;> simp [sendIv, nothing]
    · intro heq
      rw [Option.some.inj heq] at hsend
      cases hsend

theorem start_of_nothing (h : (e.fb a).encState = some nothing) :
    fb64Start e a rand = ⟨some nothing, e, []⟩ := by
  simp [fb64Start, h, mustSend, nothing]

/-- **`encrypt_start_output`** switches on where nothing is missing. -/
theorem startOutput_on (hfind : e.findencryption a = true) (h : (e.fb a).encState = some nothing) :
    encryptStartOutput e a rand =
      ({ e with encryptOutput := some a, encryptMode := some a }, [.start e.encKeyid]) := by
  simp [encryptStartOutput, hfind, startWith, start_of_nothing h]

theorem startOutput_off (rand : Option Block)
    (h : ¬ (e.findencryption a = true ∧ (e.fb a).encState = some nothing)) :
    Prepares e (encryptStartOutput e a rand).1 (encryptStartOutput e a rand).2 := by
  unfold encryptStartOutput
  split_ifs with hfind
  · unfold startWith
    rw [if_neg fun hret => h ⟨hfind, start_nothing.1 hret⟩]
    exact prepares_start e a rand
  · exact .same

end

end Inetutils.Telnet.Encrypt
