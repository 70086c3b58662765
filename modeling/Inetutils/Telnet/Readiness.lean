import Inetutils.Lib.Runs
import Inetutils.Telnet.Encrypt

/-! # When encryption is on

What must be there while output is encrypted or input is taken as encrypted (`Ready`): a session
key; a vector for the stream, which was received, or sent and acknowledged; and for output a key id
that both sides named. `Known` is what the messages say about it: the last vector that was sent for
an algorithm and not refused, the one that was acknowledged, the one that was received, and the key
id the peer named last.

The handlers do not check all of it: `encrypt_start` does not look for a key, `fb64_reply` puts the
stream back to the vector of zeros when the peer refuses a vector that it had acknowledged, and a
key id that the peer takes back leaves `NO_KEYID` cleared. -/

namespace Inetutils.Telnet.Readiness

open Lib.Runs Encrypt Option List

variable {r : Result}

structure Vectors where
  sent : Option Block
  acked : Option Block
  received : Option Block

structure Known where
  vec : Alg → Vectors
  theirs : KeyId

def unknown : Known := ⟨fun _ => ⟨none, none, none⟩, []⟩

def Known.setVec (k : Known) (a : Alg) (w : Vectors) : Known :=
  { k with vec := Function.update k.vec a w }

def ivSent (a : Alg) : Msg → Option Block
  | .is (type :: code :: iv) => if type = a.type ∧ code = fbIv then some (blockOf iv) else none
  | _ => none

def Known.noteOne (k : Known) (m : Msg) : Known :=
  { k with vec := fun a => { k.vec a with sent := (ivSent a m).or (k.vec a).sent } }

def Known.noteSent (k : Known) (ms : List Msg) : Known := ms.foldl Known.noteOne k

def Known.noteReceived (k : Known) (e : Enc) : Msg → Known
  | .is (type :: code :: iv) =>
    match (algOf type).filter fun a => !e.wontDecrypt a with
    | some a =>
      if code = fbIv ∧ iv.length = 8 then k.setVec a { k.vec a with received := some (blockOf iv) }
      else k
    | none => k
  | .reply (type :: code :: _) =>
    match (algOf type).filter e.findencryption with
    | some a =>
      if code = fbIvOk then k.setVec a { k.vec a with acked := (k.vec a).sent }
      else if code = fbIvBad then k.setVec a { k.vec a with sent := none, acked := none }
      else k
    | none => k
  | .decKeyid id => { k with theirs := id }
  | _ => k

/-- A message from the peer, or the session key, if it is one for DES. -/
inductive Event
  | receive (m : Msg) (rand : Option Block)
  | sessionKey (key : Option Block) (rand : Alg → Option Block)

def step (s : Enc × Known) : Event → Enc × Known
  | .receive m rand =>
    ((receive s.1 rand m).1, (s.2.noteReceived s.1 m).noteSent (receive s.1 rand m).2)
  | .sessionKey (some key) rand =>
    ((encryptSessionKey s.1 key rand).1, s.2.noteSent (encryptSessionKey s.1 key rand).2)
  | .sessionKey none _ => s

def Agreed (e : Enc) (k : Known) : Prop := e.encKeyid ≠ [] ∧ k.theirs = e.encKeyid

def Keyed (e : Enc) (a : Alg) : Prop := (e.fb a).krbdesKey ≠ zero

/-- What must be there. -/
structure Ready (s : Enc × Known) : Prop where
  input : ∀ a, s.1.decryptInput = some a → Keyed s.1 a ∧
    (s.2.vec a).received = some (s.1.fb a).decStream.iv
  output : ∀ a, s.1.encryptOutput = some a →
    Keyed s.1 a ∧ (s.2.vec a).acked = some (s.1.fb a).encStream.iv ∧ Agreed s.1 s.2

/-- Nothing is missing for the algorithm but what `m` takes away. -/
def Complete (e : Enc) (a : Alg) (m : Missing → Missing) : Prop :=
  m ((e.fb a).encState.getD inProgress) = nothing

/-- A START comes when there is a key; no vector that is in use is refused; while output is
encrypted the peer names the same key id, for an algorithm it takes; output is switched on with a
key and an agreed key id. -/
def Proper (s : Enc × Known) : Event → Prop
  | .receive (.start _) _ => ∀ a, s.1.decryptMode = some a → Keyed s.1 a
  | .receive (.support types) _ =>
    ∀ a, useType s.1 types = some a → Complete s.1 a id → Keyed s.1 a ∧ Agreed s.1 s.2
  | .receive (.requestStart _) _ =>
    ∀ a, s.1.encryptMode = some a → s.1.findencryption a → Complete s.1 a id → Keyed s.1 a ∧
      Agreed s.1 s.2
  | .receive (.reply (type :: code :: _)) _ =>
    ∀ a, algOf type = some a → s.1.findencryption a →
      (code = fbIvBad → s.1.encryptOutput ≠ some a) ∧
      (code = fbIvOk → s.1.autoencrypt → Complete s.1 a (fun m => { m with noRecvIv := false }) →
        Keyed s.1 a ∧ s.2.theirs = [0])
  | .receive (.decKeyid id) _ =>
    (s.1.encryptOutput.isSome → id = [0] ∧ (getcrypt s.1 .encrypt).isSome) ∧
    ∀ a, getcrypt s.1 .encrypt = some a → id = [0] → s.1.encKeyid = [0] → s.1.autoencrypt →
      Complete s.1 a (fun m => { m with noKeyid := false }) → Keyed s.1 a
  | .sessionKey (some key) _ => s.1.encryptOutput.isSome ∨ s.1.decryptInput.isSome → key ≠ zero
  | _ => True

/-! ### The invariant -/

structure FbInv (x : Fb) (w : Vectors) : Prop where
  sent : ∀ v, w.sent = some v → x.tempFeed = v
  received : ∀ v, w.received = some v → x.decStream.iv = v
  started : ∀ m, x.encState = some m → m.noSendIv = false → w.sent.isSome
  acked : ∀ m, x.encState = some m → m.noSendIv = false → m.noRecvIv = false →
    w.acked = some x.encStream.iv
  decrypting : x.decState.isSome → w.received.isSome

structure Inv (s : Enc × Known) : Prop where
  fb : ∀ a, FbInv (s.1.fb a) (s.2.vec a)
  mode : ∀ a, s.1.decryptMode = some a → s.1.finddecryption a ∧ (s.2.vec a).received.isSome
  output : ∀ a, s.1.encryptOutput = some a → (s.2.vec a).sent.isSome
  keyid : s.1.encKeyid = [] ∨ s.1.encKeyid = [0]

section
variable {e e' : Enc} {k : Known} {a b : Alg} {x : Fb} {m : Missing} {ms : List Msg}
    {rand : Option Block}

/-! ### One step -/

@[simp] theorem noteSent_nil (k : Known) : k.noteSent [] = k := rfl

theorem noteSent_append (k : Known) (l l' : List Msg) :
    k.noteSent (l ++ l') = (k.noteSent l).noteSent l' :=
  foldl_append ..

theorem noteOne_none {m : Msg} (h : ∀ a, ivSent a m = none) : k.noteOne m = k := by
  simp [Known.noteOne, h]

theorem noteSent_cons {m : Msg} (h : ∀ a, ivSent a m = none) (l : List Msg) :
    k.noteSent (m :: l) = k.noteSent l :=
  congrArg (·.noteSent l) (noteOne_none h)

theorem noteSent_single {m : Msg} (h : ∀ a, ivSent a m = none) : k.noteSent [m] = k :=
  noteOne_none h

theorem noteSent_rest (ms : List Msg) (k : Known) :
    (∀ a, ((k.noteSent ms).vec a).acked = (k.vec a).acked) ∧
    (∀ a, ((k.noteSent ms).vec a).received = (k.vec a).received) ∧
    (k.noteSent ms).theirs = k.theirs := by
  induction ms generalizing k with
  | nil => exact ⟨fun _ => rfl, fun _ => rfl, rfl⟩
  | cons m ms ih => exact ih (k.noteOne m)

variable {w : Vectors} {s : Enc × Known} {ok : Prop}

theorem FbInv.congr {y : Fb} (h : FbInv x w) (htemp : y.tempFeed = x.tempFeed)
    (hdec : y.decStream.iv = x.decStream.iv) (henc : y.encStream.iv = x.encStream.iv)
    (hstate : ∀ m, y.encState = some m → m.noSendIv = true ∨
      ∃ n, x.encState = some n ∧ n.noSendIv = m.noSendIv ∧ n.noRecvIv = m.noRecvIv)
    (hdecState : y.decState = x.decState) : FbInv y w := by
  refine ⟨fun v hv => htemp.trans (h.sent v hv),
    fun v hv => hdec.trans (h.received v hv), ?_, ?_, ?_⟩
  · intro m hm hsend
    rcases hstate m hm with htrue | ⟨n, hn, hs, -⟩
    · rw [htrue] at hsend
      cases hsend
    · exact h.started n hn (hs.trans hsend)
  · intro m hm hsend hrecv
    rcases hstate m hm with htrue | ⟨n, hn, hs, hr⟩
    · rw [htrue] at hsend
      cases hsend
    · rw [henc]
      exact h.acked n hn (hs.trans hsend) (hr.trans hrecv)
  · rw [hdecState]
    exact h.decrypting

theorem fbInv_send (h : FbInv x w) (v : Block) (hm : m.noRecvIv = true) :
    FbInv { x with encState := some m, tempFeed := v } { w with sent := some v } := by
  refine ⟨fun u hu => some.inj hu, h.received, fun _ _ _ => rfl, ?_, h.decrypting⟩
  intro n hn _ hrecv
  rw [← some.inj hn, hm] at hrecv
  cases hrecv

theorem prepares_inv (hp : Prepares e e' ms) (h : Inv (e, k)) : Inv (e', k.noteSent ms) := by
  cases hp with
  | same =>
    exact h
  | await a m hm =>
    refine ⟨fun b => ?_, h.mode, h.output, h.keyid⟩
    by_cases hb : b = a
    · subst hb
      simp only [awaitKey, setFb_self]
      refine (h.fb b).congr rfl rfl rfl (fun n hn => .inl ?_) rfl
      obtain rfl := some.inj hn
      exact noSendIv_of_mustSend hm
    · simp only [awaitKey, setFb_of_ne _ _ hb]
      exact h.fb b
  | send a m v hm =>
    have hsent : ∀ b, ((k.noteSent (sendIv e a m v).sent).vec b) =
        if b = a then { k.vec b with sent := some v } else k.vec b := by
      intro b
      by_cases hb : b = a
      · subst hb
        simp [Known.noteSent, Known.noteOne, sendIv, ivSent, blockOf_ivBytes]
      · have hne : ¬ a.type = b.type := fun heq => hb (type_inj.1 heq).symm
        simp [Known.noteSent, Known.noteOne, sendIv, ivSent, hne, hb]
    refine ⟨fun b => ?_, fun b hb => ⟨(h.mode b hb).1, ?_⟩, fun b hb => ?_, h.keyid⟩
    · rw [hsent]
      by_cases hb : b = a
      · subst hb
        simp only [sendIv, setFb_self, if_true]
        exact fbInv_send (h.fb b) v rfl
      · simp only [sendIv, setFb_of_ne _ _ hb, if_neg hb]
        exact h.fb b
    · rw [hsent]
      split_ifs
      · exact (h.mode b hb).2
      · exact (h.mode b hb).2
    · rw [hsent]
      split_ifs
      · rfl
      · exact h.output b hb

structure Quiet (e e' : Enc) : Prop where
  output : e'.encryptOutput = e.encryptOutput
  input : e'.decryptInput = e.decryptInput
  keyid : e'.encKeyid = e.encKeyid
  key : ∀ a, (e'.fb a).krbdesKey = (e.fb a).krbdesKey
  encIv : ∀ a, (e'.fb a).encStream.iv = (e.fb a).encStream.iv
  decIv : ∀ a, (e'.fb a).decStream.iv = (e.fb a).decStream.iv

theorem Quiet.refl (e : Enc) : Quiet e e :=
  ⟨rfl, rfl, rfl, fun _ => rfl, fun _ => rfl, fun _ => rfl⟩

theorem Quiet.setFb (x : Fb) (hkey : x.krbdesKey = (e.fb a).krbdesKey)
    (henc : x.encStream.iv = (e.fb a).encStream.iv)
    (hdec : x.decStream.iv = (e.fb a).decStream.iv) : Quiet e (e.setFb a x) := by
  refine ⟨rfl, rfl, rfl, fun b => ?_, fun b => ?_, fun b => ?_⟩ <;> by_cases hb : b = a <;>
    first | (subst hb; simpa using ‹_›) | simp [setFb_of_ne _ _ hb]

theorem Quiet.ready (h : Quiet e e') {k' : Known} (hacked : ∀ a, (k'.vec a).acked = (k.vec a).acked)
    (hreceived : ∀ a, (k'.vec a).received = (k.vec a).received) (htheirs : k'.theirs = k.theirs) :
    Ready (e', k') ↔ Ready (e, k) := by
  constructor
  · rintro ⟨hi, ho⟩
    refine ⟨fun a ha => ?_, fun a ha => ?_⟩
    · simpa [Keyed, h.key, h.decIv, hreceived] using hi a (h.input.trans ha)
    · simpa [Keyed, Agreed, h.key, h.encIv, hacked, h.keyid, htheirs] using ho a (h.output.trans ha)
  · rintro ⟨hi, ho⟩
    refine ⟨fun a ha => ?_, fun a ha => ?_⟩
    · simpa [Keyed, h.key, h.decIv, hreceived] using hi a (h.input.symm.trans ha)
    · simpa [Keyed, Agreed, h.key, h.encIv, hacked, h.keyid, htheirs] using
        ho a (h.output.symm.trans ha)

theorem prepares_quiet (hp : Prepares e e' ms) : Quiet e e' := by
  cases hp with
  | same => exact .refl e
  | await a m hm => exact .setFb _ rfl rfl rfl
  | send a m v hm => exact .setFb _ rfl rfl rfl

theorem prepares_ready (hp : Prepares e e' ms) : Ready (e', k.noteSent ms) ↔ Ready (e, k) :=
  (prepares_quiet hp).ready (noteSent_rest ms k).1 (noteSent_rest ms k).2.1 (noteSent_rest ms k).2.2

/-- The step is ready just in case it is proper, and keeps the invariant then. -/
def Steps (s : Enc × Known) (ok : Prop) : Prop := (Ready s ↔ ok) ∧ (ok → Inv s)

theorem Steps.of (hr : Ready s) (h : Inv s) (hok : ok) : Steps s ok :=
  ⟨iff_of_true hr hok, fun _ => h⟩

theorem Steps.iff {ok' : Prop} (h : Steps s ok) (hiff : ok ↔ ok') : Steps s ok' :=
  ⟨h.1.trans hiff, fun hok => h.2 (hiff.2 hok)⟩

theorem complete_id : Complete e a id ↔ (e.fb a).encState = some nothing := by
  unfold Complete
  rcases (e.fb a).encState with - | m
  · exact iff_of_false (by decide) nofun
  · simp

theorem inv_mode (h : Inv (e, k)) (o : Option Alg) : Inv ({ e with encryptMode := o }, k) :=
  ⟨h.fb, h.mode, h.output, h.keyid⟩

theorem startOutput_steps (h : Inv (e, k)) (hr : Ready (e, k)) (hfind : e.findencryption a = true)
    (rand : Option Block) :
    Steps ((encryptStartOutput e a rand).1, k.noteSent (encryptStartOutput e a rand).2)
      (Complete e a id → Keyed e a ∧ Agreed e k) := by
  rw [complete_id]
  by_cases hstate : (e.fb a).encState = some nothing
  · rw [startOutput_on hfind hstate, noteSent_single fun _ => rfl]
    refine ⟨⟨fun hready _ => ?_, fun hok => ⟨hr.input, fun b hb => ?_⟩⟩, fun _ =>
      ⟨h.fb, h.mode, fun b hb => ?_, h.keyid⟩⟩
    · obtain ⟨hkeyed, -, hagreed⟩ := hready.output a rfl
      exact ⟨hkeyed, hagreed⟩
    · obtain rfl := some.inj hb
      exact ⟨(hok hstate).1, (h.fb a).acked _ hstate rfl rfl, (hok hstate).2⟩
    · obtain rfl := some.inj hb
      exact (h.fb a).started _ hstate rfl
  · have hp := startOutput_off rand fun hboth => hstate hboth.2
    exact .of ((prepares_ready hp).2 hr) (prepares_inv hp h) fun hcomplete =>
      absurd hcomplete hstate

theorem start_eq (hmode : e.decryptMode = some a) (hfind : e.finddecryption a = true) :
    encryptStart e = ({ e with decryptInput := some a }, []) := by
  have hfilter : e.decryptMode.filter e.finddecryption = some a := by
    rw [hmode]
    exact filter_some_pos hfind
  unfold encryptStart
  rw [hfilter]

theorem start_steps (h : Inv (e, k)) (hr : Ready (e, k)) :
    Steps ((encryptStart e).1, k.noteSent (encryptStart e).2)
    (∀ a, e.decryptMode = some a → Keyed e a) := by
  rcases eq_none_or_eq_some e.decryptMode with hmode | ⟨a, hmode⟩
  · have heq : encryptStart e = (e, [.requestEnd]) := by simp [encryptStart, hmode]
    rw [heq, noteSent_single fun _ => rfl]
    exact .of hr h fun a ha => absurd (hmode.symm.trans ha) (by simp)
  · obtain ⟨hfind, hreceived⟩ := h.mode a hmode
    obtain ⟨v, hv⟩ := isSome_iff_exists.1 hreceived
    rw [start_eq hmode hfind]
    refine ⟨⟨fun hready b hb => ?_, fun hok => ⟨fun b hb => ?_, hr.output⟩⟩,
      fun _ => ⟨h.fb, h.mode, h.output, h.keyid⟩⟩
    · obtain rfl := some.inj (hmode.symm.trans hb)
      exact (hready.input a rfl).1
    · obtain rfl := some.inj hb
      exact ⟨hok a hmode, hv.trans (congrArg some ((h.fb a).received v hv).symm)⟩

theorem requestStart_steps (h : Inv (e, k)) (hr : Ready (e, k)) (rand : Option Block) :
    Steps ((encryptRequestStart e rand).1, k.noteSent (encryptRequestStart e rand).2)
      (∀ a, e.encryptMode = some a → e.findencryption a = true → Complete e a id → Keyed e a ∧
        Agreed e k) := by
  unfold encryptRequestStart
  rcases e.encryptMode with - | a
  · dsimp only
    exact .of ⟨hr.input, hr.output⟩ ⟨h.fb, h.mode, h.output, h.keyid⟩ nofun
  · by_cases hfind : e.findencryption a = true
    · refine (startOutput_steps h hr hfind rand).iff
        ⟨fun hok b hb _ => ?_, fun hok => hok a rfl hfind⟩
      obtain rfl := some.inj hb
      exact hok
    · have hp := startOutput_off rand fun hboth => hfind hboth.1
      refine .of ((prepares_ready hp).2 hr) (prepares_inv hp h) fun b hb hfind' => ?_
      obtain rfl := some.inj hb
      exact absurd hfind' hfind

theorem useType_find {types : List UInt8} (h : useType e types = some a) :
    (supporting e types).findencryption a = true := by
  obtain ⟨type, hmem, htype⟩ := exists_of_findSome?_eq_some h
  obtain ⟨halg, hwont⟩ := filter_eq_some_iff.1 htype
  have heq : type = a.type := by
    unfold algOf at halg
    split_ifs at halg with h1 h2
    · rw [h1, ← some.inj halg]
      rfl
    · rw [h2, ← some.inj halg]
      rfl
  rw [heq] at hmem
  have hwont' : e.wontEncrypt a = false := by simpa using hwont
  simp [Enc.findencryption, supporting, hmem, hwont']

theorem supportWith_steps (h : Inv (e, k)) (hr : Ready (e, k)) (hfind : e.findencryption a = true)
    (rand : Option Block) :
    Steps ((supportWith a rand (fb64Start e a rand)).1,
      k.noteSent (supportWith a rand (fb64Start e a rand)).2)
      (Complete e a id → Keyed e a ∧ Agreed e k) := by
  by_cases hstate : (e.fb a).encState = some nothing
  · rw [start_of_nothing hstate]
    exact startOutput_steps (inv_mode h (some a)) ⟨hr.input, hr.output⟩ hfind rand
  · have hp := prepares_start e a rand
    have hready := (prepares_ready hp).2 hr
    have hinv := prepares_inv hp h
    have hnot : ¬ Complete e a id := fun hcomplete => hstate (complete_id.1 hcomplete)
    unfold supportWith
    rcases hret : (fb64Start e a rand).ret with - | m
    · exact .of hready hinv fun hcomplete => absurd hcomplete hnot
    · have hne : m ≠ nothing := fun heq => hstate (start_nothing.1 (heq ▸ hret))
      dsimp only
      rw [if_neg hne]
      exact .of ⟨hready.input, hready.output⟩ (inv_mode hinv (some a)) fun hcomplete =>
        absurd hcomplete hnot

theorem support_steps (h : Inv (e, k)) (hr : Ready (e, k)) (types : List UInt8)
    (rand : Option Block) :
    Steps ((encryptSupport e types rand).1, k.noteSent (encryptSupport e types rand).2)
      (∀ a, useType e types = some a → Complete e a id → Keyed e a ∧ Agreed e k) := by
  have hinv : Inv (supporting e types, k) := ⟨h.fb, h.mode, h.output, h.keyid⟩
  have hready : Ready (supporting e types, k) := ⟨hr.input, hr.output⟩
  unfold encryptSupport
  rcases huse : useType e types with - | a
  · dsimp only
    exact .of hready hinv nofun
  · dsimp only
    rw [if_pos (useType_find huse)]
    refine (supportWith_steps hinv hready (useType_find huse) rand).iff
      ⟨fun hok b hb => ?_, fun hok => hok a rfl⟩
    obtain rfl := some.inj hb
    exact hok

theorem Inv.setFb (h : Inv (e, k)) (x : Fb) (w : Vectors) (hx : FbInv x w)
    (hreceived : (k.vec a).received.isSome → w.received.isSome)
    (hsent : e.encryptOutput = some a → w.sent.isSome) : Inv (e.setFb a x, k.setVec a w) := by
  refine ⟨fun b => ?_, fun b hb => ⟨(h.mode b hb).1, ?_⟩, fun b hb => ?_,
    h.keyid⟩ <;> by_cases hba : b = a
  · subst hba
    simpa [Known.setVec] using hx
  · simpa [Known.setVec, setFb_of_ne _ _ hba, Function.update_of_ne hba] using h.fb b
  · subst hba
    simpa [Known.setVec] using hreceived (h.mode b hb).2
  · simpa [Known.setVec, Function.update_of_ne hba] using (h.mode b hb).2
  · subst hba
    simpa [Known.setVec] using hsent hb
  · simpa [Known.setVec, Function.update_of_ne hba] using h.output b hb

theorem Known.setVec_self (k : Known) (a : Alg) : k.setVec a (k.vec a) = k := by
  simp [Known.setVec]

theorem replyFailed_steps (h : Inv (e, k)) (hr : Ready (e, k)) (hok : ok) :
    Steps ((replyWith a rand ⟨none, e.setFb a { e.fb a with encState := none }, []⟩).1,
      k.noteSent (replyWith a rand ⟨none, e.setFb a { e.fb a with encState := none }, []⟩).2)
      ok := by
  have hx : FbInv { e.fb a with encState := none } (k.vec a) := (h.fb a).congr rfl rfl rfl nofun rfl
  have hinv := h.setFb (a := a) _ _ hx id (h.output a)
  rw [Known.setVec_self] at hinv
  have hquiet : Quiet e (e.setFb a { e.fb a with encState := none }) := .setFb _ rfl rfl rfl
  have hready := (hquiet.ready (k := k) (fun _ => rfl) (fun _ => rfl) rfl).2 hr
  exact .of ⟨hready.input, hready.output⟩ ⟨hinv.fb, hinv.mode, hinv.output, hinv.keyid⟩ hok

theorem replyBad_steps (h : Inv (e, k)) (hr : Ready (e, k))
    (hret : r = ⟨none, e.setFb a { e.fb a with
      encState := none, tempFeed := zero, encStream := (e.fb a).encStream.setIv zero }, []⟩) :
    Steps ((replyWith a rand r).1,
      (k.setVec a { k.vec a with sent := none, acked := none }).noteSent (replyWith a rand r).2)
      (e.encryptOutput ≠ some a) := by
  subst hret
  simp only [replyWith, noteSent_nil]
  have hx :
      FbInv
      { e.fb a with encState := none, tempFeed := zero, encStream := (e.fb a).encStream.setIv zero }
      { k.vec a with sent := none, acked := none } :=
    ⟨nofun, (h.fb a).received, nofun, nofun, (h.fb a).decrypting⟩
  refine ⟨⟨fun hready heq => ?_, fun hok => ⟨fun b hb => ?_, fun b hb => ?_⟩⟩, fun hok => ?_⟩
  · have hacked := (hready.output a heq).2.1
    simp [Known.setVec] at hacked
  · have hin := hr.input b hb
    by_cases hba : b = a
    · subst hba
      simpa [Keyed, Known.setVec] using hin
    · simpa [Keyed, Known.setVec, setFb_of_ne _ _ hba, Function.update_of_ne hba] using hin
  · have hne : b ≠ a := fun heq => hok (heq ▸ hb)
    simpa [Keyed, Agreed, Known.setVec, Enc.setFb, Function.update_of_ne hne] using hr.output b hb
  · have hinv := h.setFb _ _ hx id fun heq => absurd heq hok
    exact ⟨hinv.fb, hinv.mode, hinv.output, hinv.keyid⟩

theorem replyWith_steps (h : Inv (r.enc, k)) (hr : Ready (r.enc, k))
    (hfind : r.enc.findencryption a = true)
    (hret : r.ret = some m) (hstate : (r.enc.fb a).encState = some m)
    (hsent : r.sent = [.encKeyid [0]])
    (rand : Option Block) : Steps ((replyWith a rand r).1, k.noteSent (replyWith a rand r).2)
      (r.enc.autoencrypt = true → Complete r.enc a id → Keyed r.enc a ∧ Agreed r.enc k) := by
  have hdone : Complete r.enc a id ↔ m = nothing := by rw [complete_id, hstate, some_inj]
  unfold replyWith
  rw [hret]
  dsimp only
  by_cases hboth : m = nothing ∧ r.enc.autoencrypt = true
  · rw [if_pos hboth, hsent, singleton_append, noteSent_cons fun _ => rfl]
    refine (startOutput_steps (inv_mode h (some a)) ⟨hr.input, hr.output⟩ hfind rand).iff ?_
    exact ⟨fun hok _ => hok, fun hok => hok hboth.2⟩
  · rw [if_neg hboth, hsent, noteSent_cons fun _ => rfl, noteSent_nil]
    exact .of ⟨hr.input, hr.output⟩ (inv_mode h (some a)) fun hauto hcomplete =>
      absurd ⟨hdone.1 hcomplete, hauto⟩ hboth

def acknowledged (x : Fb) : Fb :=
  { x with
    encState := some { x.encState.getD inProgress with noRecvIv := false }
    encStream := x.encStream.setIv x.tempFeed }

theorem fbInv_acked (h : FbInv x w) : FbInv (acknowledged x) { w with acked := w.sent } := by
  have hsome : ∀ m, (acknowledged x).encState = some m → m.noSendIv = false → ∃ v, w.sent = some v ∧
    x.tempFeed = v := by
    intro m hm hsend
    obtain rfl := some.inj hm
    rcases hstate : x.encState with - | n
    · rw [hstate] at hsend
      cases hsend
    · rw [hstate] at hsend
      obtain ⟨v, hv⟩ := isSome_iff_exists.1 (h.started n hstate hsend)
      exact ⟨v, hv, h.sent v hv⟩
  refine ⟨h.sent, h.received, fun m hm hsend => ?_, fun m hm hsend _ => ?_, h.decrypting⟩
  · obtain ⟨v, hv, -⟩ := hsome m hm hsend
    simp [hv]
  · obtain ⟨v, hv, htemp⟩ := hsome m hm hsend
    simp [hv, htemp, acknowledged, Stream.setIv]

/-- **A vector is acknowledged**, and the key id is named. -/
theorem replyOk_steps (h : Inv (e, k)) (hr : Ready (e, k)) (hfind : e.findencryption a = true)
    (data : List UInt8) :
    Steps ((replyWith a rand (fb64Reply e a (fbIvOk :: data))).1,
      (k.setVec a { k.vec a with acked := (k.vec a).sent }).noteSent
        (replyWith a rand (fb64Reply e a (fbIvOk :: data))).2)
      (e.autoencrypt = true → Complete e a (fun m => { m with noRecvIv := false }) → Keyed e a ∧
        k.theirs = [0]) := by
  have hset := h.setFb (a := a) _ _ (fbInv_acked (h.fb a)) id (h.output a)
  have hinv : Inv ({ e.setFb a (acknowledged (e.fb a)) with encKeyid := [0] },
      k.setVec a { k.vec a with acked := (k.vec a).sent }) :=
        ⟨hset.fb, hset.mode, hset.output, .inr rfl⟩
  have hready : Ready ({ e.setFb a (acknowledged (e.fb a)) with encKeyid := [0] },
      k.setVec a { k.vec a with acked := (k.vec a).sent }) := by
    refine ⟨fun b hb => ?_, fun b hb => ?_⟩ <;> by_cases hba : b = a
    · subst hba
      simpa [Keyed, Known.setVec, Enc.setFb, acknowledged] using hr.input b hb
    · simpa [Keyed, Known.setVec, Enc.setFb, Function.update_of_ne hba] using hr.input b hb
    · subst hba
      obtain ⟨hkeyed, -, hagreed⟩ := hr.output b hb
      obtain ⟨v, hv⟩ := isSome_iff_exists.1 (h.output b hb)
      have htheirs : k.theirs = [0] := hagreed.2.trans (h.keyid.resolve_left hagreed.1)
      have htemp := (h.fb b).sent v hv
      refine ⟨by simpa [Keyed, Enc.setFb, acknowledged] using hkeyed, ?_, cons_ne_nil _ _, htheirs⟩
      simp only [Known.setVec, Enc.setFb, acknowledged, Stream.setIv, Function.update_self]
      exact hv.trans (congrArg some htemp.symm)
    · obtain ⟨hkeyed, hacked, hagreed⟩ := hr.output b hb
      have htheirs : k.theirs = [0] := hagreed.2.trans (h.keyid.resolve_left hagreed.1)
      simpa [Keyed, Agreed, Known.setVec, Enc.setFb, Function.update_of_ne hba, htheirs] using
        ⟨hkeyed, hacked⟩
  have hsteps :=
    replyWith_steps (a := a) (r := fb64Reply e a (fbIvOk :: data)) hinv hready hfind rfl
    (congrArg Fb.encState (setFb_self ..)) rfl rand
  refine hsteps.iff ?_
  simp [Complete, Keyed, Agreed, Enc.setFb, Known.setVec, fb64Reply, fbIvOk]

theorem reply_steps (h : Inv (e, k)) (hr : Ready (e, k)) (data : List UInt8) (rand : Option Block) :
    Steps (step (e, k) (.receive (.reply data) rand))
    (Proper (e, k) (.receive (.reply data) rand)) := by
  rcases data with - | ⟨type, data⟩
  · simp only [step, receive, encryptReply, Known.noteReceived, noteSent_nil]
    exact .of hr h trivial
  rcases eq_none_or_eq_some ((algOf type).filter e.findencryption) with hfilter | ⟨a, hfilter⟩
  · -- the type is not one that is used
    have hnone : ∀ a, algOf type = some a → ¬ e.findencryption a = true := by
      intro a ha hfind
      rw [ha, filter_some_pos hfind] at hfilter
      cases hfilter
    have hstep : step (e, k) (.receive (.reply (type :: data)) rand) = (e, k) := by
      rcases data with - | ⟨code, data⟩ <;>
        simp [step, receive, encryptReply, Known.noteReceived, hfilter]
    rw [hstep]
    refine .of hr h ?_
    rcases data with - | ⟨code, data⟩
    · trivial
    · exact fun a ha hfind => absurd hfind (hnone a ha)
  · obtain ⟨ha, hfind⟩ := filter_eq_some_iff.1 hfilter
    have hreceive :
        receive e rand (.reply (type :: data)) = replyWith a rand (fb64Reply e a data) := by
      simp [receive, encryptReply, hfilter]
    rcases data with - | ⟨code, data⟩
    · have hstep : step (e, k) (.receive (.reply [type]) rand) =
          ((replyWith a rand (fb64Reply e a [])).1,
            k.noteSent (replyWith a rand (fb64Reply e a [])).2) := by
        simp only [step, hreceive]
        rfl
      rw [hstep]
      exact replyFailed_steps h hr trivial
    · have hproper : ∀ ok : Prop, (ok ↔ (code = fbIvBad → e.encryptOutput ≠ some a) ∧
          (code = fbIvOk → e.autoencrypt = true →
            Complete e a (fun m => { m with noRecvIv := false }) → Keyed e a ∧ k.theirs = [0])) →
          (ok ↔ Proper (e, k) (.receive (.reply (type :: code :: data)) rand)) := by
        refine fun ok hok => hok.trans ⟨fun hboth b hb _ => ?_, fun hall => hall a ha hfind⟩
        obtain rfl := some.inj (ha.symm.trans hb)
        exact hboth
      simp only [step, hreceive, Known.noteReceived, hfilter]
      by_cases hcode : code = fbIvOk
      · subst hcode
        exact (replyOk_steps h hr hfind data).iff
          (hproper _ ⟨fun hok => ⟨fun heq => absurd heq (by decide), fun _ => hok⟩,
          fun hok => hok.2 rfl⟩)
      · rw [if_neg hcode]
        by_cases hbad : code = fbIvBad
        · subst hbad
          exact (replyBad_steps h hr rfl).iff
            (hproper _ ⟨fun hok => ⟨fun _ => hok, fun heq => absurd heq hcode⟩,
            fun hok => hok.1 rfl⟩)
        · rw [if_neg hbad]
          have hfailed : fb64Reply e a (code :: data) =
            ⟨none, e.setFb a { e.fb a with encState := none }, []⟩ := by
            unfold fb64Reply
            split
            · rename_i heq
              exact absurd (List.cons.inj heq).1 hcode
            · rename_i heq
              exact absurd (List.cons.inj heq).1 hbad
            · rfl
          rw [hfailed]
          exact replyFailed_steps h hr
            ((hproper True ⟨fun _ => ⟨fun heq => absurd heq hbad, fun heq => absurd heq hcode⟩,
            fun _ => trivial⟩).1 trivial)

/-! ### Vectors that are received -/

theorem noteSent_isWith {m : Msg} (hsent : r.sent = [m]) (hm : ∀ b, ivSent b m = none) :
    k.noteSent (isWith a r).2 = k := by
  unfold isWith
  split
  · rw [hsent]
    exact noteSent_single hm
  · rw [hsent, noteSent_append, noteSent_single hm]
    split_ifs
    · exact noteSent_single fun _ => rfl
    · rfl

theorem isWith_steps (h : Inv (r.enc, k)) (hr : Ready (r.enc, k))
    (hmode : r.ret.isSome → r.enc.finddecryption a = true ∧ (k.vec a).received.isSome) :
    Ready ((isWith a r).1, k) ∧ Inv ((isWith a r).1, k) := by
  unfold isWith
  rcases hret : r.ret with - | m
  · exact ⟨⟨hr.input, hr.output⟩, ⟨h.fb, h.mode, h.output, h.keyid⟩⟩
  · refine ⟨⟨hr.input, hr.output⟩, ⟨h.fb, fun b hb => ?_, h.output, h.keyid⟩⟩
    obtain rfl := some.inj hb
    exact hmode (by rw [hret]; rfl)

theorem fbInv_received (h : FbInv x w) (v : Block) :
    FbInv { x with decState := some inProgress, decStream := x.decStream.setIv v }
    { w with received := some v } :=
  ⟨h.sent, fun _ hu => some.inj hu, h.started, h.acked, fun _ => rfl⟩

theorem offered_inv (h : Inv (e, k)) (a : Alg) : Inv (offered e a, k) := by
  refine ⟨h.fb, fun b hb => ⟨?_, (h.mode b hb).2⟩, h.output, h.keyid⟩
  have hfind : e.wontDecrypt b = false ∧ e.remoteEncrypt b = true := by
    simpa [Enc.finddecryption] using (h.mode b hb).1
  by_cases hba : b = a
  · subst hba
    simp [Enc.finddecryption, offered, hfind.1]
  · simp [Enc.finddecryption, offered, Function.update_of_ne hba, hfind.1, hfind.2]

theorem isIgnored_steps (h : Inv (e, k)) (hr : Ready (e, k)) (hfind : e.finddecryption a = true)
    (hret : r = ⟨(e.fb a).decState, e, [ivBad a]⟩) :
    Ready ((isWith a r).1, k.noteSent (isWith a r).2) ∧
    Inv ((isWith a r).1, k.noteSent (isWith a r).2) := by
  subst hret
  rw [noteSent_isWith rfl fun _ => rfl]
  exact isWith_steps h hr fun hsome => ⟨hfind, (h.fb a).decrypting hsome⟩

theorem isBad_steps (h : Inv (e, k)) (hr : Ready (e, k))
    (hret : r = ⟨none, e.setFb a { e.fb a with decState := none }, [ivBad a]⟩) :
    Ready ((isWith a r).1, k.noteSent (isWith a r).2) ∧
    Inv ((isWith a r).1, k.noteSent (isWith a r).2) := by
  subst hret
  rw [noteSent_isWith rfl fun _ => rfl]
  have hx : FbInv { e.fb a with decState := none } (k.vec a) :=
    ⟨(h.fb a).sent, (h.fb a).received, (h.fb a).started, (h.fb a).acked, nofun⟩
  have hinv := h.setFb (a := a) _ _ hx id (h.output a)
  rw [Known.setVec_self] at hinv
  have hquiet : Quiet e (e.setFb a { e.fb a with decState := none }) := .setFb _ rfl rfl rfl
  exact isWith_steps hinv ((hquiet.ready (fun _ => rfl) (fun _ => rfl) rfl).2 hr) nofun

theorem isGood_steps (h : Inv (e, k)) (hr : Ready (e, k)) (hfind : e.finddecryption a = true)
    (v : Block)
    (hret : r = ⟨some inProgress,
      e.setFb a { e.fb a with
        decState := some inProgress, decStream := (e.fb a).decStream.setIv v }, [ivOk a]⟩) :
    Ready ((isWith a r).1, (k.setVec a { k.vec a with
      received := some v }).noteSent (isWith a r).2) ∧
      Inv ((isWith a r).1, (k.setVec a { k.vec a with
        received := some v }).noteSent (isWith a r).2) := by
  subst hret
  rw [noteSent_isWith rfl fun _ => rfl]
  have hinv := h.setFb (a := a) _ _ (fbInv_received (h.fb a) v) (fun _ => rfl) (h.output a)
  refine isWith_steps hinv ⟨fun b hb => ?_, fun b hb => ?_⟩ fun _ =>
    ⟨hfind, by simp [Known.setVec]⟩ <;>
    by_cases hba : b = a
  · subst hba
    simpa [Keyed, Known.setVec, Stream.setIv] using (hr.input b hb).1
  · simpa [Keyed, Known.setVec, setFb_of_ne _ _ hba, Function.update_of_ne hba] using hr.input b hb
  · subst hba
    simpa [Keyed, Agreed, Known.setVec, Enc.setFb] using hr.output b hb
  · simpa [Keyed, Agreed, Known.setVec, Enc.setFb, Function.update_of_ne hba] using hr.output b hb

theorem is_steps (h : Inv (e, k)) (hr : Ready (e, k)) (data : List UInt8) (rand : Option Block) :
    Ready (step (e, k) (.receive (.is data) rand)) ∧
    Inv (step (e, k) (.receive (.is data) rand)) := by
  rcases data with - | ⟨type, data⟩
  · simp only [step, receive, encryptIs, Known.noteReceived, noteSent_nil]
    exact ⟨hr, h⟩
  rcases halg : algOf type with - | a
  · have hstep : step (e, k) (.receive (.is (type :: data)) rand) = (e, k) := by
      rcases data with - | ⟨code, data⟩ <;> simp [step, receive, encryptIs,
        Known.noteReceived, halg]
    rw [hstep]
    exact ⟨hr, h⟩
  have hinv := offered_inv h a
  have hready : Ready (offered e a, k) := ⟨hr.input, hr.output⟩
  by_cases hwont : e.wontDecrypt a = true
  · have hstep : step (e, k) (.receive (.is (type :: data)) rand) = (offered e a, k) := by
      rcases data with - | ⟨code, data⟩ <;>
        simp [step, receive, encryptIs, Known.noteReceived, halg, Enc.finddecryption, offered,
          hwont, filter_some]
    rw [hstep]
    exact ⟨hready, hinv⟩
  · have hwill : e.wontDecrypt a = false := eq_false_of_ne_true hwont
    have hfind :
        (offered e a).finddecryption a = true := by simp [Enc.finddecryption, offered, hwill]
    have hreceive :
        receive e rand (.is (type :: data)) = isWith a (fb64Is (offered e a) a data) := by
      simp [receive, encryptIs, halg, hfind]
    rcases data with - | ⟨code, iv⟩
    · simp only [step, hreceive, Known.noteReceived]
      exact isIgnored_steps hinv hready hfind rfl
    · simp only [step, hreceive, Known.noteReceived, halg]
      rw [filter_some_pos (by simp [hwill])]
      dsimp only
      by_cases hcode : code = fbIv
      · subst hcode
        by_cases hlen : iv.length = 8
        · rw [if_pos ⟨rfl, hlen⟩]
          exact isGood_steps hinv hready hfind _ (if_pos hlen)
        · rw [if_neg fun hboth => hlen hboth.2]
          exact isBad_steps hinv hready (if_neg hlen)
      · rw [if_neg fun hboth => hcode hboth.1]
        refine isIgnored_steps hinv hready hfind ?_
        unfold fb64Is
        split
        · rename_i heq
          exact absurd (List.cons.inj heq).1 hcode
        · rfl

/-! ### Key ids -/

def named (x : Fb) (dir : Dir) : Fb :=
  x.setState (some { (x.state dir).getD inProgress with noKeyid := false }) dir

theorem fbInv_named (h : FbInv x w) (dir : Dir) (hdec : dir = .decrypt → w.received.isSome) :
    FbInv (named x dir) w := by
  cases dir with
  | encrypt =>
    refine h.congr rfl rfl rfl (fun m hm => ?_) rfl
    obtain rfl := some.inj hm
    rcases hstate : x.encState with - | n
    · exact .inl (by simp [Fb.state, hstate, inProgress])
    · exact .inr ⟨n, rfl, by simp [Fb.state, hstate], by simp [Fb.state, hstate]⟩
  | decrypt => exact ⟨h.sent, h.received, h.started, h.acked, fun _ => hdec rfl⟩

theorem quiet_named (e : Enc) (a : Alg) (dir : Dir) : Quiet e (e.setFb a (named (e.fb a) dir)) := by
  cases dir <;> exact .setFb _ rfl rfl rfl

theorem getcrypt_decrypt (h : getcrypt e .decrypt = some a) : e.decryptMode = some a :=
  (filter_eq_some_iff.1 h).1

/-- **The peer's `ENC_KEYID`** concerns what is received only. -/
theorem fb64Keyid_decrypt (h : Inv (e, k)) (hr : Ready (e, k)) (ha : e.decryptMode = some a)
    (id : KeyId) :
    Ready ((fb64Keyid e a .decrypt id).2, k) ∧ Inv ((fb64Keyid e a .decrypt id).2, k) := by
  unfold fb64Keyid
  split_ifs with hid
  · have hx := fbInv_named (h.fb a) .decrypt fun _ => (h.mode a ha).2
    have hinv := h.setFb (a := a) _ _ hx (fun hsome => hsome) (h.output a)
    rw [Known.setVec_self] at hinv
    have hready :=
      ((quiet_named e a .decrypt).ready (k := k) (fun _ => rfl) (fun _ => rfl) rfl).2 hr
    exact ⟨⟨hready.input, hready.output⟩, ⟨hinv.fb, hinv.mode, hinv.output, hinv.keyid⟩⟩
  · exact ⟨⟨hr.input, hr.output⟩, ⟨h.fb, h.mode, h.output, h.keyid⟩⟩

theorem encKeyid_steps (h : Inv (e, k)) (hr : Ready (e, k)) (id : KeyId) (rand : Option Block) :
    Ready (step (e, k) (.receive (.encKeyid id) rand)) ∧
    Inv (step (e, k) (.receive (.encKeyid id) rand)) := by
  simp only [step, receive, Known.noteReceived]
  unfold encryptKeyid
  rcases hcrypt : getcrypt e .decrypt with - | a
  · dsimp only
    split_ifs with hid
    · rw [noteSent_nil]
      exact ⟨hr, h⟩
    · rw [noteSent_single fun _ => rfl]
      exact ⟨⟨hr.input, hr.output⟩, ⟨h.fb, h.mode, h.output, h.keyid⟩⟩
  · have hkeyid := fun id => fb64Keyid_decrypt h hr (getcrypt_decrypt hcrypt) id
    split_ifs with hid hkeep hsame
    · rw [noteSent_nil]
      exact ⟨hr, h⟩
    · rw [noteSent_single fun _ => rfl]
      exact hkeyid []
    · simp only [keyidAgain, reduceCtorEq, false_and, and_false, if_false, noteSent_nil]
      exact hkeyid _
    · rw [noteSent_single fun _ => rfl]
      exact hkeyid _

def Known.name (k : Known) (id : KeyId) : Known := { k with theirs := id }

theorem unagreed_steps (h : Inv (e, k)) (hr : Ready (e, k)) {o id : KeyId} (ho : o = [] ∨ o = [0])
    (hnot : ¬ (o ≠ [] ∧ id = o)) :
    Steps (e.setKeyid o .encrypt, k.name id) (e.encryptOutput = none) := by
  refine ⟨⟨fun hready => ?_, fun hnone => ⟨hr.input, fun a ha => ?_⟩⟩,
    fun _ => ⟨h.fb, h.mode, h.output, ho⟩⟩
  · refine eq_none_iff_forall_ne_some.2 fun a ha => hnot ?_
    exact (hready.output a ha).2.2
  · exact absurd (hnone.symm.trans ha) (by simp)

theorem take_eq_iff {id : KeyId} : id.take 64 = [0] ↔ id = [0] := by
  rcases id with - | ⟨b, - | ⟨c, id⟩⟩ <;> simp

theorem agreed_steps (h : Inv (e, k)) (hr : Ready (e, k)) (a : Alg) :
    Ready ((fb64Keyid e a .encrypt [0]).2, k.name [0]) ∧
    Inv ((fb64Keyid e a .encrypt [0]).2, k.name [0]) := by
  have hx := fbInv_named (h.fb a) .encrypt nofun
  have hinv := h.setFb (a := a) _ _ hx id (h.output a)
  rw [Known.setVec_self] at hinv
  have hready := ((quiet_named e a .encrypt).ready (k := k) (fun _ => rfl) (fun _ => rfl) rfl).2 hr
  refine ⟨⟨hready.input, fun b hb => ?_⟩, ⟨hinv.fb, hinv.mode, hinv.output, .inr rfl⟩⟩
  obtain ⟨hkeyed, hacked, -⟩ := hready.output b hb
  exact ⟨hkeyed, hacked, cons_ne_nil _ _, rfl⟩

/-- The key id is the one that was named before: the output is switched on where nothing else is
missing. -/
theorem again_steps (h : Inv (e, k)) (hr : Ready (e, k)) (hfind : e.findencryption a = true)
    (rand : Option Block) :
    Steps ((keyidAgain .encrypt a rand (fb64Keyid e a .encrypt [0])).1,
      (k.name [0]).noteSent (keyidAgain .encrypt a rand (fb64Keyid e a .encrypt [0])).2)
      (e.autoencrypt = true → Complete e a (fun m => { m with noKeyid := false }) → Keyed e a) := by
  obtain ⟨hready, hinv⟩ := agreed_steps h hr a
  have hcomplete : Complete (fb64Keyid e a .encrypt [0]).2 a id ↔ Complete e a fun m =>
    { m with noKeyid := false } := by
    simp [Complete, fb64Keyid, Enc.setKeyid, Enc.setFb, Fb.setState, Fb.state]
  have hkeyed : Keyed (fb64Keyid e a .encrypt [0]).2 a ↔ Keyed e a := by
    simp [Keyed, fb64Keyid, Enc.setKeyid, Enc.setFb, Fb.setState]
  have hagreed : Agreed (fb64Keyid e a .encrypt [0]).2 (k.name [0]) := ⟨cons_ne_nil _ _, rfl⟩
  have hauto : (fb64Keyid e a .encrypt [0]).2.autoencrypt = e.autoencrypt := rfl
  have hret : (fb64Keyid e a .encrypt [0]).1 = some nothing ↔ Complete e a fun m =>
    { m with noKeyid := false } := by
    simp [Complete, fb64Keyid, Fb.state]
  unfold keyidAgain
  by_cases hboth : (fb64Keyid e a .encrypt [0]).1 = some nothing ∧ Dir.encrypt = .encrypt ∧
      (fb64Keyid e a .encrypt [0]).2.autoencrypt = true
  · rw [if_pos hboth]
    refine (startOutput_steps hinv hready hfind rand).iff ?_
    rw [hcomplete, hkeyed, and_iff_left hagreed]
    exact ⟨fun hok _ => hok, fun hok => hok (hauto.symm.trans hboth.2.2)⟩
  · rw [if_neg hboth, noteSent_nil]
    exact .of hready hinv fun hautoencrypt hdone =>
      absurd ⟨hret.2 hdone, rfl, hauto.trans hautoencrypt⟩ hboth

theorem decKeyid_steps (h : Inv (e, k)) (hr : Ready (e, k)) (id : KeyId) (rand : Option Block) :
    Steps (step (e, k) (.receive (.decKeyid id) rand))
    (Proper (e, k) (.receive (.decKeyid id) rand)) := by
  have hreceived : k.noteReceived e (.decKeyid id) = k.name id := rfl
  -- where no key id is agreed on, nothing may be in use
  have hunagreed : ∀ o : KeyId, o = [] ∨ o = [0] → ¬ (o ≠ [] ∧ id = o) →
      ¬ (id = [0] ∧ (getcrypt e .encrypt).isSome) → Steps (e.setKeyid o .encrypt, k.name id)
        (Proper (e, k) (.receive (.decKeyid id) rand)) := by
    intro o ho hnot hproper
    refine (unagreed_steps h hr ho hnot).iff ⟨fun hnone => ⟨fun hsome => ?_, fun a ha hid => ?_⟩,
      fun hok => ?_⟩
    · rw [hnone] at hsome
      cases hsome
    · exact absurd ⟨hid, by rw [ha]; rfl⟩ hproper
    · exact not_isSome_iff_eq_none.1 fun hsome => hproper (hok.1 hsome)
  have hkeep : e.setKeyid e.encKeyid .encrypt = e := rfl
  simp only [step, receive, hreceived]
  unfold encryptKeyid
  rcases hcrypt : getcrypt e .encrypt with - | a
  · have hnone : ¬ (id = [0] ∧ (getcrypt e .encrypt).isSome) :=
      fun hboth => by simp [hcrypt] at hboth
    dsimp only
    split_ifs with hid
    · rw [noteSent_nil]
      have hsteps :=
        hunagreed e.encKeyid h.keyid (fun hboth => hboth.1 (hboth.2.symm.trans hid)) hnone
      rwa [hkeep] at hsteps
    · rw [noteSent_single fun _ => rfl]
      exact hunagreed [] (.inl rfl) (fun hboth => hboth.1 rfl) hnone
  · have hfind : e.findencryption a = true := (filter_eq_some_iff.1 hcrypt).2
    dsimp only
    split_ifs with hid hkeyid hsame
    · rw [noteSent_nil]
      have hsteps := hunagreed e.encKeyid h.keyid (fun hboth => hboth.1 (hboth.2.symm.trans hid))
        (fun hboth => by simp [hid] at hboth)
      rwa [hkeep] at hsteps
    · rw [noteSent_single fun _ => rfl]
      exact hunagreed [] (.inl rfl) (fun hboth => hboth.1 rfl) (fun hboth => by simp [hid] at hboth)
    · -- the key id that was named before is `[0]`
      have hne : e.encKeyid ≠ [] := fun heq => hid (by simpa [heq, Enc.keyid] using hsame)
      have hzero : e.encKeyid = [0] := h.keyid.resolve_left hne
      have hid0 : id = [0] := take_eq_iff.1 (hsame.trans hzero)
      have heq : e.keyid .encrypt = [0] := hzero
      rw [heq, hid0]
      refine (again_steps h hr hfind rand).iff
        ⟨fun hok => ⟨fun _ => ⟨rfl, by rw [hcrypt]; rfl⟩, ?_⟩, fun hok => ?_⟩
      · intro b hb _ _
        obtain rfl := some.inj (hcrypt.symm.trans hb)
        exact hok
      · exact hok.2 a hcrypt rfl hzero
    · rw [noteSent_single fun _ => rfl]
      by_cases htake : id.take 64 = [0]
      · have hid0 : id = [0] := take_eq_iff.1 htake
        have hnil : e.encKeyid = [] := h.keyid.resolve_right fun heq => hsame (htake.trans heq.symm)
        obtain ⟨hready, hinv⟩ := agreed_steps h hr a
        subst hid0
        refine .of hready hinv ⟨fun hsome => ?_, fun b hb _ hzero => ?_⟩
        · obtain ⟨b, hb⟩ := isSome_iff_exists.1 hsome
          exact absurd hnil (hr.output b hb).2.2.1
        · exact absurd (hnil.symm.trans hzero) (by simp)
      · have hother : (fb64Keyid e a .encrypt (id.take 64)).2 = e.setKeyid [] .encrypt := by
          rw [fb64Keyid, if_neg htake]
        rw [hother]
        exact hunagreed [] (.inl rfl) (fun hboth => hboth.1 rfl) fun hboth =>
          htake (take_eq_iff.2 hboth.1)

/-! ### The session key -/

/-- A new key for some algorithms, and nothing else of what is in use. -/
structure Rekeyed (e e' : Enc) (key : Block) (new : Alg → Prop) : Prop where
  output : e'.encryptOutput = e.encryptOutput
  input : e'.decryptInput = e.decryptInput
  keyid : e'.encKeyid = e.encKeyid
  key : ∀ a, new a → (e'.fb a).krbdesKey = key
  keep : ∀ a, ¬ new a → (e'.fb a).krbdesKey = (e.fb a).krbdesKey
  encIv : ∀ a, (e'.fb a).encStream.iv = (e.fb a).encStream.iv
  decIv : ∀ a, (e'.fb a).decStream.iv = (e.fb a).decStream.iv

theorem session_prepares (e : Enc) (a : Alg) (key : Block) (rand : Option Block) :
    Prepares (e.setFb a ((e.fb a).keyed key)) (fb64Session e a key rand).1
    (fb64Session e a key rand).2 := by
  unfold fb64Session
  split_ifs
  · exact prepares_start _ a rand
  · exact .same

theorem session_inv (h : Inv (e, k)) (a : Alg) (key : Block) (rand : Option Block) :
    Inv ((fb64Session e a key rand).1, k.noteSent (fb64Session e a key rand).2) := by
  have hx : FbInv ((e.fb a).keyed key) (k.vec a) :=
    (h.fb a).congr rfl rfl rfl (fun m hm => .inr ⟨m, hm, rfl, rfl⟩) rfl
  have hinv := h.setFb (a := a) _ _ hx id (h.output a)
  rw [Known.setVec_self] at hinv
  exact prepares_inv (session_prepares e a key rand) hinv

theorem session_rekeyed (e : Enc) (a : Alg) (key : Block) (rand : Option Block) :
    Rekeyed e (fb64Session e a key rand).1 key (· = a) := by
  have hquiet := prepares_quiet (session_prepares e a key rand)
  refine ⟨hquiet.output, hquiet.input, hquiet.keyid, fun b hb => ?_, fun b hb => ?_, fun b => ?_,
    fun b => ?_⟩
  · subst hb
    rw [hquiet.key, setFb_self]
    rfl
  · rw [hquiet.key, setFb_of_ne _ _ hb]
  · rw [hquiet.encIv]
    by_cases hb : b = a
    · subst hb
      rw [setFb_self]
      rfl
    · rw [setFb_of_ne _ _ hb]
  · rw [hquiet.decIv]
    by_cases hb : b = a
    · subst hb
      rw [setFb_self]
      rfl
    · rw [setFb_of_ne _ _ hb]

theorem sessionKey_rekeyed (e : Enc) (key : Block) (rand : Alg → Option Block) :
    Rekeyed e (encryptSessionKey e key rand).1 key fun _ => True := by
  have hcfb := session_rekeyed e .cfb64 key (rand .cfb64)
  have hofb := session_rekeyed (fb64Session e .cfb64 key (rand .cfb64)).1 .ofb64 key (rand .ofb64)
  refine ⟨hofb.output.trans hcfb.output, hofb.input.trans hcfb.input, hofb.keyid.trans hcfb.keyid,
    fun a _ => ?_,
    fun _ hnot => absurd trivial hnot, fun a => (hofb.encIv a).trans (hcfb.encIv a),
    fun a => (hofb.decIv a).trans (hcfb.decIv a)⟩
  cases a with
  | cfb64 => exact (hofb.keep .cfb64 (by simp)).trans (hcfb.key .cfb64 rfl)
  | ofb64 => exact hofb.key .ofb64 rfl

theorem sessionKey_steps (h : Inv (e, k)) (hr : Ready (e, k)) (key : Block)
    (rand : Alg → Option Block) :
    Steps (step (e, k) (.sessionKey (some key) rand)) (e.encryptOutput.isSome ∨
    e.decryptInput.isSome → key ≠ zero) := by
  have hkey := sessionKey_rekeyed e key rand
  obtain ⟨hacked, hreceived, htheirs⟩ := noteSent_rest (encryptSessionKey e key rand).2 k
  have hkeyed : ∀ a, Keyed (encryptSessionKey e key rand).1 a ↔ key ≠ zero := fun a => by
    rw [Keyed, hkey.key a trivial]
  refine ⟨⟨fun hready hor => ?_, fun hok => ⟨fun a ha => ?_, fun a ha => ?_⟩⟩, fun _ => ?_⟩
  · rcases hor with hsome | hsome
    · obtain ⟨a, ha⟩ := isSome_iff_exists.1 hsome
      exact (hkeyed a).1 (hready.output a (hkey.output.trans ha)).1
    · obtain ⟨a, ha⟩ := isSome_iff_exists.1 hsome
      exact (hkeyed a).1 (hready.input a (hkey.input.trans ha)).1
  · have ha' : e.decryptInput = some a := hkey.input.symm.trans ha
    refine ⟨(hkeyed a).2 (hok (.inr (by rw [ha']; rfl))), ?_⟩
    simp only [step, hreceived, hkey.decIv]
    exact (hr.input a ha').2
  · have ha' : e.encryptOutput = some a := hkey.output.symm.trans ha
    refine ⟨(hkeyed a).2 (hok (.inl (by rw [ha']; rfl))), ?_⟩
    simp only [step, Agreed, hacked, hkey.encIv, hkey.keyid, htheirs]
    exact (hr.output a ha').2
  · simp only [step, encryptSessionKey]
    rw [noteSent_append]
    exact session_inv (session_inv h .cfb64 key (rand .cfb64)) .ofb64 key (rand .ofb64)

/-! ### Runs -/

theorem sendEnd_steps (h : Inv (e, k)) (hr : Ready (e, k)) :
    Ready ((encryptSendEnd e).1, k.noteSent (encryptSendEnd e).2) ∧
      Inv ((encryptSendEnd e).1, k.noteSent (encryptSendEnd e).2) := by
  unfold encryptSendEnd
  split
  · rw [noteSent_single fun _ => rfl]
    exact ⟨⟨hr.input, nofun⟩, ⟨h.fb, h.mode, nofun, h.keyid⟩⟩
  · exact ⟨hr, h⟩

theorem steps (h : Inv (e, k)) (hr : Ready (e, k)) (x : Event) :
    Steps (step (e, k) x) (Proper (e, k) x) := by
  rcases x with ⟨m, rand⟩ | ⟨key, rand⟩
  · cases m with
    | is data => exact .of (is_steps h hr data rand).1 (is_steps h hr data rand).2 trivial
    | reply data => exact reply_steps h hr data rand
    | support types => exact support_steps h hr types rand
    | start id => exact start_steps h hr
    | stop => exact .of ⟨nofun, hr.output⟩ ⟨h.fb, h.mode, h.output, h.keyid⟩ trivial
    | requestStart id => exact requestStart_steps h hr rand
    | requestEnd => exact .of (sendEnd_steps h hr).1 (sendEnd_steps h hr).2 trivial
    | encKeyid id =>
      exact .of (encKeyid_steps h hr id rand).1 (encKeyid_steps h hr id rand).2 trivial
    | decKeyid id => exact decKeyid_steps h hr id rand
  · rcases key with - | key
    · exact .of hr h trivial
    · exact sessionKey_steps h hr key rand

end

theorem inv_init (server autoencrypt autodecrypt : Bool) (wontEncrypt wontDecrypt : Alg → Bool) :
    Inv (encryptInit server autoencrypt autodecrypt wontEncrypt wontDecrypt, unknown) :=
  ⟨fun _ => ⟨nofun, nofun, nofun, nofun, nofun⟩, nofun, nofun, .inl rfl⟩

/-- **Encryption is on only when it is ready**, in every state of a run, just in case each event is
proper. -/
theorem ready_iff (server autoencrypt autodecrypt : Bool) (wontEncrypt wontDecrypt : Alg → Bool)
    (l : List Event) :
    (∀ l', l' <+: l →
      Ready
      (run step (encryptInit server autoencrypt autodecrypt wontEncrypt wontDecrypt, unknown) l')) ↔
      Allowed step Proper (encryptInit server autoencrypt autodecrypt wontEncrypt wontDecrypt,
        unknown) l := by
  have hready :
      Ready (encryptInit server autoencrypt autodecrypt wontEncrypt wontDecrypt, unknown) :=
        ⟨nofun, nofun⟩
  have hstep : ∀ s x, True → Ready s → Inv s → (Ready (step s x) ↔ Proper s x) :=
    fun _ x _ hr h => (steps h hr x).1
  have hkeep : ∀ s x, True → Ready s → Inv s → Proper s x → Inv (step s x) :=
    fun _ x _ hr h => (steps h hr x).2
  exact inv_iff_allowed_within hstep hkeep hready (inv_init ..)
    ((allowed_const_iff _ l).2 fun _ _ => trivial)

/-! ### A START without a key -/

/-- A vector of CFB64 is received, and then a START, before there is a key. -/
def unkeyed : List Event :=
  [.receive (.is (1 :: fbIv :: ivBytes zero)) none, .receive (.start []) none]

/-- What follows is decrypted under the key of zeros. -/
theorem not_ready_unkeyed : ¬ ∀ l', l' <+: unkeyed →
    Ready
    (run step (encryptInit false false false (fun _ => false) (fun _ => false), unknown) l') := by
  intro h
  have hready := h _ prefix_rfl
  exact (hready.input .cfb64 (by decide)).1 rfl

end Inetutils.Telnet.Readiness
