import Inetutils.Telnet.Peers
import Inetutils.Telnet.Readiness
import Mathlib.Data.List.Permutation

/-! # The two ends of an encrypted connection

A START does not name its algorithm: the receiver takes its `decrypt_mode`, which is what the last
IS was for, or what the user asked for since. For each algorithm and direction the negotiation is in
one of five situations (`Way`); what a handler does for the other side is said once (`Sends`), and
what a packet does in `received`. -/

namespace Inetutils.Telnet.Synchrony

open Lib.Runs Lib.Mealy Encrypt Peers List Option
open Readiness (ivSent)

/-! ### Negotiation of one algorithm -/

/-- How far it is: no vector is sent, one is, or it has been acknowledged. -/
inductive Status
  | fresh
  | sent
  | ready
  deriving DecidableEq

def statusOf : Option Missing → Status
  | none => .fresh
  | some m => if m.noSendIv then .fresh else if m.noRecvIv then .sent else .ready

def iv (X : Alg) : Content → Option Block
  | .msg m => ivSent X m
  | .data _ => none

def ivs (X : Alg) (cs : List Content) : List Block := cs.filterMap (iv X)

def oks (X : Alg) (cs : List Content) : ℕ := cs.count (.msg (ivOk X))

/-- What the peers write. With a START the output is on, with an END it is off. -/
def Honest (o : Option Alg) : Msg → Prop
  | .is data => ∃ (a : Alg) (v : Block), data = a.type :: fbIv :: ivBytes v
  | .reply data => ∃ a : Alg, data = [a.type, fbIvOk]
  | .start _ => o.isSome
  | .stop => o = none
  | _ => True

structure Sound (des : Block → Block → Block) (p : Packet) : Prop where
  clear : p.mode = none → Written des p none
  honest : ∀ m, p.content = .msg m → Honest p.after m
  after : ¬ Switches p.content → p.after = p.mode

def base : Stream := zeroStream.setKey

/-- Nothing is written with `X`. -/
structure Idle (key : Block) (X : Alg) (e : Enc) (us : List Packet) : Prop where
  output : e.encryptOutput ≠ some X
  mode : ∀ p ∈ us, p.mode ≠ some X
  point : outPoint e X = (X, key, base)

/-- **What the sender of `us` and its reader know of `X`**: `σ` is where the reader is, the vectors
are on the way to it, and so many acknowledgements are on the way back. -/
inductive Way (des : Block → Block → Block) (key : Block) (X : Alg) (e : Enc) (σ : Point)
    (us : List Packet) :
    List Block → ℕ → Prop
  | fresh : statusOf (e.fb X).encState = .fresh → Idle key X e us → σ = (X, key, base) →
    Way des key X e σ us [] 0
  | sent : statusOf (e.fb X).encState = .sent → Idle key X e us → σ = (X, key, base) →
    Way des key X e σ us [(e.fb X).tempFeed] 0
  | received : statusOf (e.fb X).encState = .sent → Idle key X e us →
    σ = (X, key, base.setIv (e.fb X).tempFeed) →
    Way des key X e σ us [] 1
  | ignored : statusOf (e.fb X).encState = .sent → Idle key X e us → Way des key X e σ us [] 0
  | ready : statusOf (e.fb X).encState = .ready → Follows des X (some σ) us (some (outPoint e X)) →
    Way des key X e σ us [] 0

/-- What a handler does for the other side; `acc` is a vector that it takes. -/
structure Sends (acc : Option (Alg × Block)) (e e' : Enc) (cs : List Content) : Prop where
  out : ∀ X, outPoint e' X = outPoint e X
  dec : ∀ X, (inPoint e' X = inPoint e X ∧ oks X cs = 0) ∨
    ∃ v, acc = some (X, v) ∧ inPoint e' X = (X, (e.fb X).krbdesKey, (e.fb X).decStream.setIv v) ∧
    oks X cs = 1
  input : e'.decryptInput = e.decryptInput
  vec : ∀ X, (ivs X cs = [] ∧ statusOf (e'.fb X).encState = statusOf (e.fb X).encState ∧
      (e'.fb X).tempFeed = (e.fb X).tempFeed) ∨
    (ivs X cs = [(e'.fb X).tempFeed] ∧ statusOf (e.fb X).encState = .fresh ∧
      statusOf (e'.fb X).encState = .sent)
  honest : ∀ m, .msg m ∈ cs → Honest e'.encryptOutput m
  output : ∀ X, e'.encryptOutput = some X → e.encryptOutput = some X ∨
    statusOf (e'.fb X).encState = .ready
  switch : e'.encryptOutput = e.encryptOutput ∨ ∃ c ∈ cs, Switches c

section
variable {des : Block → Block → Block} {key : Block} {e e' e'' r : Enc} {a b X : Alg} {c : Content}
    {p : Packet}
  {us : List Packet} {σ : Point} {l : List Block} {n : ℕ} {acc : Option (Alg × Block)}
  {cs cs' : List Content}

@[simp] theorem ivs_append (X : Alg) (cs cs' : List Content) :
    ivs X (cs ++ cs') = ivs X cs ++ ivs X cs' :=
  filterMap_append

@[simp] theorem oks_append (X : Alg) (cs cs' : List Content) :
    oks X (cs ++ cs') = oks X cs + oks X cs' :=
  count_append

theorem transmit_sound (o' : Option Alg) : ∀ (cs : List Content) (o : Option Alg) (e : Enc),
    (∀ m, .msg m ∈ cs → Honest o' m) → ∀ p ∈ (transmit des o' o e cs).2, Sound des p
  | [], _, _, _, _, hp => by simp [transmit] at hp
  | c :: cs, o, e, h, p, hp => by
    rcases mem_cons.1 hp with rfl | hp
    · refine ⟨?_, fun m hm => ?_, fun hc => next_of_not o o' hc⟩
      · rintro rfl
        exact ⟨rfl, rfl⟩
      · have hm' : c = .msg m := hm
        have hhonest : Honest o' m := h m (by simp [hm'])
        subst hm'
        cases m <;> exact hhonest
    · exact transmit_sound o' cs (next o o' c) (wrote des o e c)
        (fun m hm => h m (mem_cons_of_mem c hm)) p hp

/-! ### The reader -/

theorem Way.written (h : Way des key X e σ (p :: us) l n) (hp : p.mode = some X) :
    Written des p (some σ) := by
  cases h with
  | fresh _ hidle _ => exact absurd hp (hidle.mode p mem_cons_self)
  | sent _ hidle _ => exact absurd hp (hidle.mode p mem_cons_self)
  | received _ hidle _ => exact absurd hp (hidle.mode p mem_cons_self)
  | ignored _ hidle => exact absurd hp (hidle.mode p mem_cons_self)
  | ready _ hfollows => exact hfollows.1 hp

theorem Idle.tail (h : Idle key X e (p :: us)) : Idle key X e us :=
  ⟨h.output, fun q hq => h.mode q (mem_cons_of_mem p hq), h.point⟩

theorem Way.read (h : Way des key X e σ (p :: us) l n) {σ' : Point}
    (hσ : some σ' = if p.mode = some X then pointAfter des p (some σ) else some σ) :
    Way des key X e σ' us l n := by
  have hidle : Idle key X e (p :: us) → σ' = σ := fun hi => by
    rw [if_neg (hi.mode p mem_cons_self)] at hσ
    exact some.inj hσ
  cases h with
  | fresh hst hi hbase => exact .fresh hst hi.tail ((hidle hi).trans hbase)
  | sent hst hi hbase => exact .sent hst hi.tail ((hidle hi).trans hbase)
  | received hst hi hbase => exact .received hst hi.tail ((hidle hi).trans hbase)
  | ignored hst hi => exact .ignored hst hi.tail
  | ready hst hfollows =>
    refine .ready hst ?_
    rw [hσ]
    exact hfollows.2

theorem Way.ignore {v : Block} (h : Way des key X e σ us (v :: l) n) :
    Way des key X e σ us l n := by
  cases h with
  | sent hst hi _ => exact .ignored hst hi

theorem Way.accept {v : Block} (h : Way des key X e σ us (v :: l) n) :
    Way des key X e (X, σ.2.1, σ.2.2.setIv v) us l (n + 1) := by
  cases h with
  | sent hst hi hbase =>
    refine .received hst hi ?_
    rw [hbase]

/-! ### The sender -/

theorem Way.unheard (h : Way des key X e σ us l (n + 1)) : Way des key X e σ us l n := by
  generalize hk : n + 1 = k at h
  cases h with
  | received hst hi _ =>
    obtain rfl : n = 0 := by omega
    exact .ignored hst hi
  | fresh _ _ _ => omega
  | sent _ _ _ => omega
  | ignored _ _ => omega
  | ready _ _ => omega

theorem Way.acked (h : Way des key X e σ us l (n + 1))
    (hst' : statusOf (e.fb X).encState = .sent → statusOf (e'.fb X).encState = .ready)
    (hpoint : outPoint e' X = (X, (e.fb X).krbdesKey, (e.fb X).encStream.setIv (e.fb X).tempFeed)) :
    Way des key X e' σ us l n := by
  generalize hk : n + 1 = k at h
  cases h with
  | received hst hi hσ =>
    obtain rfl : n = 0 := by omega
    refine .ready (hst' hst) ?_
    obtain ⟨-, hkey, hbase⟩ : X = X ∧ (e.fb X).krbdesKey = key ∧ (e.fb X).encStream = base := by
      simpa [outPoint] using hi.point
    rw [hpoint, hσ, hkey, hbase]
    exact follows_idle hi.mode
  | fresh _ _ _ => omega
  | sent _ _ _ => omega
  | ignored _ _ => omega
  | ready _ _ => omega

theorem Way.sends (h : Way des key X e σ us l n) (hs : Sends acc e e' cs) :
    Way des key X (transmit des e'.encryptOutput e.encryptOutput e' cs).1 σ
      (us ++ (transmit des e'.encryptOutput e.encryptOutput e' cs).2) (l ++ ivs X cs) n := by
  have hkept := transmit_kept des e'.encryptOutput cs e.encryptOutput e'
  have hidle : statusOf (e'.fb X).encState ≠ .ready → Idle key X e us →
      Idle key X (transmit des e'.encryptOutput e.encryptOutput e' cs).1
        (us ++ (transmit des e'.encryptOutput e.encryptOutput e' cs).2) := by
    intro hst hi
    have hout : e'.encryptOutput ≠ some X := fun heq => (hs.output X heq).elim hi.output hst
    obtain ⟨hpoint, hmode⟩ := transmit_idle des hout cs e.encryptOutput e' hi.output
    refine ⟨fun heq => hout (hkept.output.symm.trans heq), fun p hp => ?_, ?_⟩
    · exact (mem_append.1 hp).elim (hi.mode p) (hmode p)
    · exact (hpoint.trans (hs.out X)).trans hi.point
  rcases hs.vec X with ⟨hivs, hst', htemp⟩ | ⟨hivs, hfresh, hsent⟩
  · rw [hivs, append_nil]
    have hstate : statusOf ((transmit des e'.encryptOutput e.encryptOutput e' cs).1.fb X).encState =
        statusOf (e.fb X).encState := by rw [hkept.encState, hst']
    have hfeed : ((transmit des e'.encryptOutput e.encryptOutput e' cs).1.fb X).tempFeed =
      (e.fb X).tempFeed :=
      (hkept.tempFeed X).trans htemp
    cases h with
    | fresh hst hi hσ => exact .fresh (hstate.trans hst) (hidle (by simp [hst', hst]) hi) hσ
    | sent hst hi hσ =>
      rw [← hfeed]
      exact .sent (hstate.trans hst) (hidle (by simp [hst', hst]) hi) hσ
    | received hst hi hσ =>
      rw [← hfeed] at hσ
      exact .received (hstate.trans hst) (hidle (by simp [hst', hst]) hi) hσ
    | ignored hst hi => exact .ignored (hstate.trans hst) (hidle (by simp [hst', hst]) hi)
    | ready hst hfollows =>
      refine .ready (hstate.trans hst) (transmit_follows cs _ _ us _ ?_)
      rw [hs.out X]
      exact hfollows
  · rw [hivs, ← hkept.tempFeed X]
    cases h with
    | fresh hst hi hσ =>
      exact .sent (by rw [hkept.encState, hsent]) (hidle (by simp [hsent]) hi) hσ
    | sent hst _ _ => simp [hfresh] at hst
    | received hst _ _ => simp [hfresh] at hst
    | ignored hst _ => simp [hfresh] at hst
    | ready hst _ => simp [hfresh] at hst

end

/-! ### What the handlers send -/

/-- A message that says nothing about vectors, and changes nothing in use. -/
def Neutral : Content → Prop
  | .msg (.is _) => False
  | .msg (.reply _) => False
  | .msg (.start _) => False
  | .msg .stop => False
  | _ => True

section
variable {e e' e'' : Enc} {a b X : Alg} {cs cs' : List Content} {acc : Option (Alg × Block)}
    {rand : Option Block}

theorem ivs_neutral (X : Alg) (h : ∀ c ∈ cs, Neutral c) : ivs X cs = [] := by
  refine filterMap_eq_nil_iff.2 fun c hc => ?_
  have hn := h c hc
  rcases c with m | l
  · cases m <;> first | rfl | exact hn.elim
  · rfl

theorem oks_neutral (X : Alg) (h : ∀ c ∈ cs, Neutral c) : oks X cs = 0 :=
  count_eq_zero.2 fun hmem => (h _ hmem).elim

theorem honest_neutral {o : Option Alg} {m : Msg} (h : Neutral (.msg m)) : Honest o m := by
  cases m <;> trivial

theorem not_switches_neutral {c : Content} (h : Neutral c) : ¬ Switches c := by
  rcases c with m | l
  · cases m <;> first | exact h.elim | exact id
  · exact id

theorem Sends.quiet (hout : e'.encryptOutput = e.encryptOutput)
    (hin : e'.decryptInput = e.decryptInput)
    (hfb : ∀ X, e'.fb X = e.fb X ∨ ∃ m m' b,
      e'.fb X = { e.fb X with encState := m, decState := m', needStart := b } ∧
      statusOf m = statusOf (e.fb X).encState)
    (hcs : ∀ c ∈ cs, Neutral c) : Sends none e e' cs := by
  have hsame : ∀ X, outPoint e' X = outPoint e X ∧ inPoint e' X = inPoint e X ∧
      statusOf (e'.fb X).encState = statusOf (e.fb X).encState ∧
      (e'.fb X).tempFeed = (e.fb X).tempFeed := by
    intro X
    rcases hfb X with heq | ⟨m, m', b, heq, hst⟩
    · simp [outPoint, inPoint, heq]
    · simp [outPoint, inPoint, heq, hst]
  exact ⟨fun X => (hsame X).1, fun X => .inl ⟨(hsame X).2.1, oks_neutral X hcs⟩, hin,
    fun X => .inl ⟨ivs_neutral X hcs, (hsame X).2.2⟩, fun m hm => honest_neutral (hcs _ hm),
    fun X hX => .inl (hout.symm.trans hX), .inl hout⟩

theorem Sends.refl (e : Enc) : Sends none e e [] := .quiet rfl rfl (fun _ => .inl rfl) nofun

theorem Sends.dec_none (h : Sends none e e' cs) (X : Alg) :
    inPoint e' X = inPoint e X ∧ oks X cs = 0 := by
  obtain hsame | ⟨_, hnone, -⟩ := h.dec X
  · exact hsame
  · cases hnone

theorem Sends.trans (h : Sends acc e e' cs) (hcs : ∀ c ∈ cs, ¬ Switches c)
    (h' : Sends none e' e'' cs') :
    Sends acc e e'' (cs ++ cs') := by
  have hout : e'.encryptOutput = e.encryptOutput :=
    h.switch.resolve_right fun ⟨c, hc, hs⟩ => hcs c hc hs
  refine ⟨fun X => (h'.out X).trans (h.out X), fun X => ?_, h'.input.trans h.input, fun X => ?_,
    fun m hm => ?_,
    fun X hX => ?_, ?_⟩
  · rw [oks_append, (h'.dec_none X).1, (h'.dec_none X).2]
    exact h.dec X
  · rw [ivs_append]
    rcases h.vec X with ⟨hivs, hst, htemp⟩ | ⟨hivs, hst, hst'⟩
    · rcases h'.vec X with ⟨hivs', hst2, htemp2⟩ | ⟨hivs', hst2, hst2'⟩
      · exact .inl ⟨by rw [hivs, hivs']; rfl, hst2.trans hst, htemp2.trans htemp⟩
      · exact .inr ⟨by rw [hivs, hivs']; rfl, hst.symm.trans hst2, hst2'⟩
    · rcases h'.vec X with ⟨hivs', hst2, htemp2⟩ | ⟨-, hst2, -⟩
      · exact .inr ⟨by rw [hivs, hivs', htemp2]; rfl, hst, hst2.trans hst'⟩
      · rw [hst'] at hst2
        cases hst2
  · rcases mem_append.1 hm with hm | hm
    · have hhonest := h.honest m hm
      have hnot := hcs _ hm
      cases m <;> first | exact hhonest | exact absurd trivial hnot
    · exact h'.honest m hm
  · rcases h'.output X hX with hX' | hready
    · rw [hout] at hX'
      exact .inl hX'
    · exact .inr hready
  · rcases h'.switch with heq | ⟨c, hc, hs⟩
    · exact .inl (heq.trans hout)
    · exact .inr ⟨c, mem_append_right cs hc, hs⟩

theorem status_of_mustSend {o : Option Missing} {m : Missing} (h : mustSend o = some m) :
    statusOf o = .fresh ∧ statusOf (some m) = .fresh := by
  have hm := noSendIv_of_mustSend h
  refine ⟨?_, by simp [statusOf, hm]⟩
  rcases o with - | n
  · rfl
  · have hn : n.noSendIv = true := by
      by_contra hne
      simp [mustSend, hne] at h
    simp [statusOf, hn]

theorem sends_prepares {ms : List Msg} (hp : Prepares e e' ms) :
    Sends none e e' (ms.map .msg) ∧ ∀ c ∈ ms.map Content.msg, ¬ Switches c := by
  cases hp with
  | same => exact ⟨.refl e, nofun⟩
  | await a m hm =>
    refine ⟨.quiet rfl rfl (fun X => ?_) nofun, nofun⟩
    by_cases hX : X = a
    · subst hX
      refine .inr ⟨some m, (e.fb X).decState, true, by simp [awaitKey], ?_⟩
      rw [(status_of_mustSend hm).1, (status_of_mustSend hm).2]
    · exact .inl (setFb_of_ne _ _ hX)
  | send a m v hm =>
    have hoks : ∀ X, oks X ((sendIv e a m v).sent.map Content.msg) = 0 :=
      fun X => by simp [oks, sendIv, ivOk]
    refine ⟨⟨fun X => ?_, fun X => .inl ⟨?_, hoks X⟩, rfl, fun X => ?_, fun n hn => ?_,
      fun X hX => .inl hX, .inl rfl⟩, fun c hc => ?_⟩
    · by_cases hX : X = a
      · subst hX
        simp [sendIv, outPoint]
      · exact outPoint_setFb_of_ne _ hX
    · by_cases hX : X = a
      · subst hX
        simp [sendIv, inPoint]
      · exact inPoint_setFb_of_ne _ hX
    · by_cases hX : X = a
      · subst hX
        refine .inr ⟨by simp [sendIv, ivs, iv, ivSent, blockOf_ivBytes],
          (status_of_mustSend hm).1, ?_⟩
        simp [sendIv, statusOf]
      · have htype : ¬ a.type = X.type := fun heq => hX (type_inj.1 heq).symm
        refine .inl ⟨by simp [sendIv, ivs, iv, ivSent, htype], ?_⟩
        simp [sendIv, setFb_of_ne _ _ hX]
    · have heq : n = .is (a.type :: fbIv :: ivBytes v) := by simpa [sendIv] using hn
      subst heq
      exact ⟨a, v, rfl⟩
    · have heq : c = .msg (.is (a.type :: fbIv :: ivBytes v)) := by simpa [sendIv] using hc
      subst heq
      exact id

end

/-! ### Handler by handler -/

/-- What a handler or a command leaves and sends, with all that it sends in its messages. -/
abbrev Handles (e : Enc) (r : Enc × List Msg) : Prop := Sends none e r.1 (r.2.map .msg)

section
variable {e e' : Enc} {a b X : Alg} {rand : Option Block}

theorem handles_startOutput (e : Enc) (a : Alg) (rand : Option Block) :
    Handles e (encryptStartOutput e a rand) := by
  by_cases h : e.findencryption a = true ∧ (e.fb a).encState = some nothing
  · rw [startOutput_on h.1 h.2]
    refine ⟨fun _ => rfl, fun _ => .inl ⟨rfl, rfl⟩, rfl, fun _ => .inl ⟨rfl, rfl, rfl⟩,
      fun m hm => ?_, fun X hX => ?_,
      .inr ⟨.msg (.start e.encKeyid), mem_singleton_self _, trivial⟩⟩
    · have heq : m = .start e.encKeyid := by simpa using hm
      subst heq
      rfl
    · obtain rfl := some.inj hX
      refine .inr ?_
      rw [show ({ e with encryptOutput := some a, encryptMode := some a } : Enc).fb a =
        e.fb a from rfl, h.2]
      rfl
  · exact (sends_prepares (startOutput_off rand h)).1

theorem handles_sendEnd (e : Enc) : Handles e (encryptSendEnd e) := by
  unfold encryptSendEnd
  split
  · refine ⟨fun _ => rfl, fun _ => .inl ⟨rfl, rfl⟩, rfl, fun _ => .inl ⟨rfl, rfl, rfl⟩,
      fun m hm => ?_, nofun, .inr ⟨.msg .stop, mem_singleton_self _, trivial⟩⟩
    have heq : m = .stop := by simpa using hm
    subst heq
    rfl
  · exact .refl e

variable {ms : List Msg}

theorem handles_quiet (hfb : e'.fb = e.fb) (hout : e'.encryptOutput = e.encryptOutput)
    (hin : e'.decryptInput = e.decryptInput) (hms : ∀ m ∈ ms, Neutral (.msg m)) :
    Handles e (e', ms) := by
  refine .quiet hout hin (fun X => .inl (congrFun hfb X)) fun c hc => ?_
  obtain ⟨m, hm, rfl⟩ := mem_map.1 hc
  exact hms m hm

theorem handles_silent (hfb : e'.fb = e.fb) (hout : e'.encryptOutput = e.encryptOutput)
    (hin : e'.decryptInput = e.decryptInput) : Handles e (e', []) :=
  handles_quiet hfb hout hin fun _ hm => absurd hm not_mem_nil

theorem Sends.handles {acc : Option (Alg × Block)} {r : Enc × List Msg}
    (h : Sends acc e e' (ms.map .msg)) (hms : ∀ c ∈ ms.map Content.msg, ¬ Switches c)
    (h' : Handles e' r) : Sends acc e r.1 ((ms ++ r.2).map .msg) := by
  rw [map_append]
  exact h.trans hms h'

theorem not_switches_of_neutral (h : ∀ m ∈ ms, Neutral (.msg m)) :
    ∀ c ∈ ms.map Content.msg, ¬ Switches c := by
  intro c hc
  obtain ⟨m, hm, rfl⟩ := mem_map.1 hc
  exact not_switches_neutral (h m hm)

theorem Handles.after {r : Enc × List Msg} (h' : Handles e' r) (hfb : e'.fb = e.fb)
    (hout : e'.encryptOutput = e.encryptOutput) (hin : e'.decryptInput = e.decryptInput) :
    Handles e r := by
  have hsame : Handles e (e', []) := handles_silent hfb hout hin
  exact hsame.handles nofun h'

theorem handles_support (e : Enc) (types : List UInt8) (rand : Option Block) :
    Handles e (encryptSupport e types rand) := by
  have hsame : Handles e (supporting e types, []) := handles_silent rfl rfl rfl
  unfold encryptSupport
  split
  · exact hsame
  next a _ =>
    split_ifs with hfind
    · obtain ⟨hp, hplain⟩ := sends_prepares (prepares_start (supporting e types) a rand)
      have hrest :
          Handles (supporting e types)
          (supportWith a rand (fb64Start (supporting e types) a rand)) := by
        unfold supportWith
        split
        · exact hp
        next m _ =>
          split_ifs with hm
          · have hstart := handles_startOutput
              { (fb64Start (supporting e types) a rand).enc with encryptMode := some a } a rand
            exact hp.handles hplain (hstart.after rfl rfl rfl)
          · have hmode : Handles (fb64Start (supporting e types) a rand).enc
                ({ (fb64Start (supporting e types) a rand).enc with encryptMode := some a }, []) :=
              handles_silent rfl rfl rfl
            have hboth := hp.handles hplain hmode
            rwa [append_nil] at hboth
      exact hrest.after rfl rfl rfl
    · exact hsame

theorem handles_requestStart (e : Enc) (rand : Option Block) :
    Handles e (encryptRequestStart e rand) := by
  unfold encryptRequestStart
  split
  · exact handles_silent rfl rfl rfl
  next a _ => exact handles_startOutput e a rand

theorem handles_fb64Keyid (e : Enc) (a : Alg) (dir : Dir) (id : KeyId)
    (hms : ∀ m ∈ ms, Neutral (.msg m)) : Handles e ((fb64Keyid e a dir id).2, ms) := by
  have hcs : ∀ c ∈ ms.map Content.msg, Neutral c := fun c hc => by
    obtain ⟨m, hm, rfl⟩ := mem_map.1 hc
    exact hms m hm
  have hst : ∀ o :
      Option Missing, statusOf (some { o.getD inProgress with noKeyid := false }) = statusOf o := by
    rintro (- | m) <;> rfl
  unfold fb64Keyid
  split_ifs
  · cases dir with
    | encrypt =>
      refine .quiet rfl rfl (fun X => ?_) hcs
      by_cases hX : X = a
      · subst hX
        exact .inr ⟨_, (e.fb X).decState, (e.fb X).needStart, setFb_self .., hst _⟩
      · exact .inl (setFb_of_ne _ _ hX)
    | decrypt =>
      refine .quiet rfl rfl (fun X => ?_) hcs
      by_cases hX : X = a
      · subst hX
        exact .inr ⟨(e.fb X).encState, _, (e.fb X).needStart, setFb_self .., rfl⟩
      · exact .inl (setFb_of_ne _ _ hX)
  · cases dir <;> exact handles_quiet rfl rfl rfl hms

theorem neutral_sendKeyid (dir : Dir) (id : KeyId) : ∀ m ∈ [sendKeyid dir id],
    Neutral (.msg m) := by
  intro m hm
  rw [mem_singleton.1 hm]
  cases dir <;> trivial

theorem handles_keyid (e : Enc) (dir : Dir) (id : KeyId) (rand : Option Block) :
    Handles e (encryptKeyid e dir id rand) := by
  have hset : ∀ ms : List Msg, (∀ m ∈ ms, Neutral (.msg m)) → Handles e (e.setKeyid [] dir, ms) :=
    fun ms hms => by
    cases dir <;> exact handles_quiet rfl rfl rfl hms
  unfold encryptKeyid
  split
  · split_ifs
    · exact .refl e
    · exact hset _ (neutral_sendKeyid dir [])
  next a _ =>
    split_ifs
    · exact .refl e
    · exact handles_fb64Keyid e a dir [] (neutral_sendKeyid dir _)
    · unfold keyidAgain
      split_ifs
      · have hkeyid : Handles e ((fb64Keyid e a dir (e.keyid dir)).2, []) :=
          handles_fb64Keyid e a dir _ nofun
        exact hkeyid.handles nofun (handles_startOutput _ a rand)
      · exact handles_fb64Keyid e a dir (e.keyid dir) nofun
    · exact handles_fb64Keyid e a dir (id.take 64) (neutral_sendKeyid dir _)

/-! ### Commands -/

theorem handles_start (e : Enc) (w : Which) (rand : Option Block) :
    Handles e (commandStart e w rand) := by
  have hinput : ∀ m ∈ (if w.input? then commandStartInput e else []), Neutral (.msg m) := by
    intro m hm
    split_ifs at hm
    · unfold commandStartInput at hm
      split at hm
      · rw [mem_singleton.1 hm]
        trivial
      · cases hm
    · cases hm
  have houtput : Handles e (if w.output? then (commandStartOutput e rand).1 else e,
      if w.output? then (commandStartOutput e rand).2 else []) := by
    split_ifs
    · unfold commandStartOutput
      split
      next a _ => exact handles_startOutput e a rand
      · exact .refl e
    · exact .refl e
  exact (handles_quiet rfl rfl rfl hinput).handles (not_switches_of_neutral hinput) houtput

theorem handles_stop (e : Enc) (w : Which) : Handles e (commandStop e w) := by
  have hinput : ∀ m ∈ (if w.input? then [Msg.requestEnd] else []), Neutral (.msg m) := by
    intro m hm
    split_ifs at hm
    · rw [mem_singleton.1 hm]
      trivial
    · cases hm
  have houtput : Handles e (if w.output? then (encryptSendEnd e).1 else e,
      if w.output? then (encryptSendEnd e).2 else []) := by
    split_ifs
    · exact handles_sendEnd e
    · exact .refl e
  exact (handles_quiet rfl rfl rfl hinput).handles (not_switches_of_neutral hinput) houtput

theorem handles_sendSupport (e : Enc) : Handles e (encryptSendSupport e) := by
  unfold encryptSendSupport
  split
  · exact .refl e
  · refine handles_quiet rfl rfl rfl fun m hm => ?_
    split_ifs at hm
    · simp only [cons_append, nil_append, mem_cons, not_mem_nil, or_false] at hm
      rcases hm with rfl | rfl <;> trivial
    · rw [mem_singleton.1 hm]
      trivial

theorem sends_command (e : Enc) (c : Command) : Sends none e (command e c).1 (command e c).2 := by
  cases c with
  | type a w => exact .quiet rfl rfl (fun _ => .inl rfl) nofun
  | start w rand => exact handles_start e w rand
  | stop w => exact handles_stop e w
  | enable a w rand => exact (handles_start _ w rand).after rfl rfl rfl
  | support => exact handles_sendSupport e
  | data l =>
    refine .quiet rfl rfl (fun _ => .inl rfl) fun c hc => ?_
    rw [mem_singleton.1 hc]
    trivial

end

/-! ### Vectors and acknowledgements -/

section
variable {e e' : Enc} {a b X : Alg} {v : Block} {rand : Option Block}

theorem ivs_is (X a : Alg) (v : Block) :
    ivs X [.msg (.is (a.type :: fbIv :: ivBytes v))] = if a = X then [v] else [] := by
  by_cases h : a = X
  · subst h
    simp [ivs, iv, ivSent, blockOf_ivBytes]
  · have htype : ¬ a.type = X.type := fun heq => h (type_inj.1 heq)
    simp [ivs, iv, ivSent, htype, h]

theorem oks_reply (X a : Alg) :
    oks X [.msg (.reply [a.type, fbIvOk])] = if a = X then 1 else 0 := by
  by_cases h : a = X
  · subst h
    simp [oks, ivOk]
  · have htype : ¬ a.type = X.type := fun heq => h (type_inj.1 heq)
    simp [oks, ivOk, htype, h]

/-- **A vector is received**: it is taken, or not. -/
theorem sends_is (e : Enc) (a : Alg) (v : Block) :
    ∃ acc, (acc = none ∨ acc = some (a, v)) ∧
    Sends acc e (encryptIs e (a.type :: fbIv :: ivBytes v)).1
      ((encryptIs e (a.type :: fbIv :: ivBytes v)).2.map .msg) := by
  have hlen : (ivBytes v).length = 8 := length_ofFn
  have hcode : fb64Is (offered e a) a (fbIv :: ivBytes v) =
      ⟨some inProgress, (offered e a).setFb a { (offered e a).fb a with
        decState := some inProgress, decStream := ((offered e a).fb a).decStream.setIv v },
        [ivOk a]⟩ := by
    simp only [fb64Is, fbIv, hlen, if_true, blockOf_ivBytes]
  simp only [encryptIs, algOf_type]
  split_ifs with hfind
  · refine ⟨some (a, v), .inr rfl, ?_⟩
    have hne : ¬ inProgress = nothing := by decide
    simp only [hcode, isWith, hne, false_and, if_false, append_nil, map_cons, map_nil]
    refine ⟨fun X => ?_, fun X => ?_, rfl, fun X => .inl ⟨rfl, ?_⟩, fun m hm => ?_,
      fun _ hX => .inl hX, .inl rfl⟩
    · by_cases hX : X = a
      · subst hX
        simp [outPoint, offered, Enc.setFb]
      · simp [outPoint, offered, Enc.setFb, hX]
    · rw [show ivOk a = .reply [a.type, fbIvOk] from rfl, oks_reply]
      by_cases hX : X = a
      · subst hX
        exact .inr ⟨v, rfl, by simp [inPoint, offered, Enc.setFb], if_pos rfl⟩
      · exact .inl ⟨by simp [inPoint, offered, Enc.setFb, hX], if_neg fun heq => hX heq.symm⟩
    · by_cases hX : X = a
      · subst hX
        simp [offered, Enc.setFb]
      · simp [offered, Enc.setFb, hX]
    · have heq : m = ivOk a := by simpa using hm
      subst heq
      exact ⟨a, rfl⟩
  · exact ⟨none, .inl rfl, handles_silent rfl rfl rfl⟩

structure Acked (a : Alg) (e e' : Enc) : Prop where
  output : e'.encryptOutput = e.encryptOutput
  input : e'.decryptInput = e.decryptInput
  dec : ∀ X, inPoint e' X = inPoint e X
  other : ∀ X, X ≠ a → e'.fb X = e.fb X
  out : outPoint e' a = (a, (e.fb a).krbdesKey, (e.fb a).encStream.setIv (e.fb a).tempFeed)
  status : statusOf (e.fb a).encState = .sent → statusOf (e'.fb a).encState = .ready

/-- **An acknowledgement is received**: it is taken, or not. -/
theorem sends_reply (e : Enc) (a : Alg) (rand : Option Block) :
    ∃ e', (e' = e ∨ Acked a e e') ∧ Handles e' (encryptReply e [a.type, fbIvOk] rand) := by
  by_cases hfind : e.findencryption a = true
  · have hfilter : (algOf a.type).filter e.findencryption = some a := by
      rw [algOf_type]
      exact filter_some_pos hfind
    have hacked : Acked a e (fb64Reply e a [fbIvOk]).enc := by
      refine ⟨rfl, rfl, fun X => ?_, fun X hX => setFb_of_ne _ _ hX, ?_, fun hst => ?_⟩
      · by_cases hX : X = a
        · subst hX
          simp [fb64Reply, fbIvOk, inPoint, Enc.setFb]
        · simp [fb64Reply, fbIvOk, inPoint, Enc.setFb, hX]
      · simp [fb64Reply, fbIvOk, outPoint, Enc.setFb]
      · rcases eq_none_or_eq_some (e.fb a).encState with hnone | ⟨m, hm⟩
        · rw [hnone] at hst
          cases hst
        · have hsend : m.noSendIv = false := by
            rw [hm] at hst
            by_contra hne
            simp [statusOf, Bool.eq_true_of_not_eq_false hne] at hst
          simp [fb64Reply, fbIvOk, Enc.setFb, hm, statusOf, hsend]
    refine ⟨_, .inr hacked, ?_⟩
    have hkeyid :
        Handles (fb64Reply e a [fbIvOk]).enc
        ((fb64Reply e a [fbIvOk]).enc, (fb64Reply e a [fbIvOk]).sent) :=
      handles_quiet rfl rfl rfl (neutral_sendKeyid .encrypt [0])
    have hplain := not_switches_of_neutral (neutral_sendKeyid .encrypt [0])
    simp only [encryptReply, hfilter]
    unfold replyWith
    split
    · exact handles_quiet rfl rfl rfl (neutral_sendKeyid .encrypt [0])
    next m _ =>
      split_ifs
      · have hstart :=
          handles_startOutput { (fb64Reply e a [fbIvOk]).enc with encryptMode := some a } a rand
        exact hkeyid.handles hplain (hstart.after rfl rfl rfl)
      · exact handles_quiet rfl rfl rfl (neutral_sendKeyid .encrypt [0])
  · have hfilter : (algOf a.type).filter e.findencryption = none := by
      rw [algOf_type]
      exact filter_some_neg (by simpa using hfind)
    refine ⟨e, .inl rfl, ?_⟩
    simp only [encryptReply, hfilter]
    exact .refl e

end

/-! ### A packet that is received -/

/-- **One direction**: what `e` has sent to `r` and is on the way. -/
structure Half (des : Block → Block → Block) (key : Block) (e r : Enc) (us back : List Packet) :
    Prop where
  sound : ∀ p ∈ us, Sound des p
  way : ∀ X, Way des key X e (inPoint r X) us (ivs X (us.map Packet.content))
    (oks X (back.map Packet.content))

section
variable {des : Block → Block → Block} {key : Block} {e e' r : Enc} {a X : Alg} {p : Packet}
    {us back : List Packet}
  {σ : Point} {l : List Block} {n : ℕ} {rand : Option Block}

theorem ivs_cons (X : Alg) (c : Content) (cs : List Content) :
    ivs X (c :: cs) = ivs X [c] ++ ivs X cs :=
  ivs_append X [c] cs

theorem oks_cons (X : Alg) (c : Content) (cs : List Content) :
    oks X (c :: cs) = oks X cs + oks X [c] := by
  rw [add_comm]
  exact oks_append X [c] cs

theorem Way.congr (h : Way des key X e σ us l n) (hout : e'.encryptOutput = e.encryptOutput)
    (hpoint : outPoint e' X = outPoint e X) (hst : (e'.fb X).encState = (e.fb X).encState)
    (htemp : (e'.fb X).tempFeed = (e.fb X).tempFeed) : Way des key X e' σ us l n := by
  have hidle : Idle key X e us → Idle key X e' us :=
    fun hi => ⟨hout ▸ hi.output, hi.mode, hpoint.trans hi.point⟩
  cases h with
  | fresh h hi hσ => exact .fresh (hst ▸ h) (hidle hi) hσ
  | sent h hi hσ =>
    rw [← htemp]
    exact .sent (hst ▸ h) (hidle hi) hσ
  | received h hi hσ =>
    rw [← htemp] at hσ
    exact .received (hst ▸ h) (hidle hi) hσ
  | ignored h hi => exact .ignored (hst ▸ h) (hidle hi)
  | ready h hfollows => exact .ready (hst ▸ h) (hpoint ▸ hfollows)

structure Reads (des : Block → Block → Block) (e e' : Enc) (p : Packet) : Prop where
  output : e'.encryptOutput = e.encryptOutput
  input : e'.decryptInput = e.decryptInput
  start : startInput e' = startInput e
  out : ∀ X, outPoint e' X = outPoint e X
  encState : ∀ X, (e'.fb X).encState = (e.fb X).encState
  tempFeed : ∀ X, (e'.fb X).tempFeed = (e.fb X).tempFeed
  dec : ∀ X, some (inPoint e' X) =
    if p.mode = some X then pointAfter des p (some (inPoint e X)) else some (inPoint e X)

theorem reads_packet (hmode : p.mode = e.decryptInput)
    (hw : Written des p (e.decryptInput.map (inPoint e))) :
    Reads des e (readPacket des e p) p := by
  have hread :
      readPacket des e p = putIn e (pointAfter des p (e.decryptInput.map (inPoint e))) := by
    rw [readPacket, hw.feed_read]
  rw [hread]
  rcases eq_none_or_eq_some e.decryptInput with hin | ⟨a, hin⟩
  · have hafter : pointAfter des p (e.decryptInput.map (inPoint e)) = none := by
      rw [hin]
      exact feed_none des _
    rw [hafter]
    exact ⟨rfl, rfl, rfl, fun _ => rfl, fun _ => rfl, fun _ => rfl,
      fun X => by simp [putIn, hmode, hin]⟩
  · obtain ⟨s, hs⟩ := feed_some des a (e.fb a).krbdesKey p.content.bytes (e.fb a).decStream
    have hafter : pointAfter des p (some (inPoint e a)) = some (a, (e.fb a).krbdesKey, s) := hs
    rw [hin, map_some, hafter]
    refine ⟨rfl, rfl, rfl, fun X => ?_, fun X => ?_, fun X => ?_, fun X => ?_⟩ <;> by_cases hX :
      X = a
    · subst hX
      simp [putIn, outPoint]
    · exact outPoint_setFb_of_ne _ hX
    · subst hX
      simp [putIn]
    · simp [putIn, setFb_of_ne _ _ hX]
    · subst hX
      simp [putIn]
    · simp [putIn, setFb_of_ne _ _ hX]
    · subst hX
      rw [if_pos (hmode.trans hin), hafter]
      simp [putIn]
    · rw [if_neg fun heq => hX (some.inj ((hmode.trans hin).symm.trans heq)).symm]
      exact congrArg some (inPoint_setFb_of_ne _ hX)

/-- What a handler finds and leaves, with `e₂` in place of what it found. -/
structure Received (des : Block → Block → Block) (key : Block) (e r : Enc) (p : Packet)
    (us back : List Packet)
    (h : Enc × List Content) (acc : Option (Alg × Block)) (e₂ : Enc) : Prop where
  sends : Sends acc e₂ h.1 h.2
  output : e₂.encryptOutput = e.encryptOutput
  out : ∀ X, Way des key X e₂ (inPoint r X) back (ivs X (back.map Packet.content))
    (oks X (us.map Packet.content))
  dec : ∀ X, Way des key X r (inPoint h.1 X) us (ivs X (us.map Packet.content))
    (oks X (back.map Packet.content) + oks X h.2)
  input : e₂.decryptInput = p.after ↔ ∀ id, p.content = .msg (.start id) → startInput e = p.after

theorem start_eq (e : Enc) : ∃ ms, encryptStart e = ({ e with decryptInput := startInput e }, ms) ∧
    ∀ m ∈ ms, Neutral (.msg m) := by
  unfold encryptStart startInput
  split
  next a ha =>
    refine ⟨[], ?_, nofun⟩
    rw [ha]
    rfl
  next hnone =>
    refine ⟨[.requestEnd], ?_, fun m hm => ?_⟩
    · rw [hnone]
      rfl
    · rw [mem_singleton.1 hm]
      trivial

section
variable {h : Enc × List Content} {e₂ : Enc}
  (hout : ∀ X, Way des key X e (inPoint r X) back (ivs X (back.map Packet.content))
    (oks X ((p :: us).map Packet.content)))
  (hdec : ∀ X, Way des key X r (inPoint e X) us (ivs X ((p :: us).map Packet.content))
    (oks X (back.map Packet.content)))
  (hinput : e₂.decryptInput = p.after ↔ ∀ id, p.content = .msg (.start id) → startInput e = p.after)
include hout hdec hinput

theorem received_plain (hivs : ∀ X, ivs X [p.content] = []) (hoks : ∀ X, oks X [p.content] = 0)
    (hsends : Sends none e₂ h.1 h.2) (houtput : e₂.encryptOutput = e.encryptOutput)
    (hfb : e₂.fb = e.fb) :
    Received des key e r p us back h none e₂ := by
  have hpoints : ∀ X, outPoint e₂ X = outPoint e X ∧ inPoint e₂ X = inPoint e X := fun X => by
    simp [outPoint, inPoint, hfb]
  refine ⟨hsends, houtput, fun X => ?_, fun X => ?_, hinput⟩
  · have hway := hout X
    rw [map_cons, oks_cons, hoks X] at hway
    exact hway.congr houtput (hpoints X).1 (by rw [hfb]) (by rw [hfb])
  · obtain ⟨hsame, hzero⟩ := hsends.dec_none X
    have hway := hdec X
    rw [map_cons, ivs_cons, hivs X] at hway
    rw [hsame, hzero, (hpoints X).2]
    exact hway

theorem received_is {acc : Option (Alg × Block)} {v : Block} (he : e₂ = e)
    (hc : p.content = .msg (.is (a.type :: fbIv :: ivBytes v)))
    (hacc : acc = none ∨ acc = some (a, v))
    (hsends : Sends acc e h.1 h.2) : Received des key e r p us back h acc e₂ := by
  subst he
  refine ⟨hsends, rfl, fun X => ?_, fun X => ?_, hinput⟩
  · have hway := hout X
    rw [map_cons, oks_cons, hc] at hway
    exact hway
  · have hway := hdec X
    rw [map_cons, ivs_cons, hc, ivs_is] at hway
    rcases hsends.dec X with ⟨hsame, hzero⟩ | ⟨w, hw, hpoint, hone⟩
    · rw [hsame, hzero]
      split_ifs at hway
      · exact hway.ignore
      · exact hway
    · rw [hpoint, hone]
      obtain ⟨rfl, rfl⟩ : a = X ∧ v = w := by
        rcases hacc with hnone | hsome
        · rw [hnone] at hw
          cases hw
        · simpa using hsome.symm.trans hw
      rw [if_pos rfl] at hway
      exact hway.accept

theorem received_reply (hc : p.content = .msg (.reply [a.type, fbIvOk]))
    (hor : e₂ = e ∨ Acked a e e₂)
    (hsends : Sends none e₂ h.1 h.2) : Received des key e r p us back h none e₂ := by
  have hoks : ∀ X, oks X ((p :: us).map Packet.content) =
      oks X (us.map Packet.content) + if a = X then 1 else 0 := fun X => by
    rw [map_cons, oks_cons, hc, oks_reply]
  have hpoint : ∀ X, inPoint e₂ X = inPoint e X := fun X => by
    rcases hor with rfl | hacked
    · rfl
    · exact hacked.dec X
  refine ⟨hsends, hor.elim (fun heq => by rw [heq]) fun hacked => hacked.output, fun X => ?_,
    fun X => ?_, hinput⟩
  · have hway := hout X
    rw [hoks X] at hway
    split_ifs at hway with hX
    · subst hX
      rcases hor with rfl | hacked
      · exact hway.unheard
      · exact hway.acked hacked.status hacked.out
    · rcases hor with rfl | hacked
      · exact hway
      · have hfb := hacked.other X (fun heq => hX heq.symm)
        exact hway.congr hacked.output (by rw [outPoint, outPoint, hfb]) (by rw [hfb]) (by rw [hfb])
  · obtain ⟨hsame, hzero⟩ := hsends.dec_none X
    have hway := hdec X
    rw [map_cons, ivs_cons, hc] at hway
    rw [hsame, hzero, hpoint X]
    exact hway

end

/-- **One packet.** -/
theorem received (hsound : Sound des p) (hmode : p.mode = e.decryptInput)
    (hout : ∀ X, Way des key X e (inPoint r X) back (ivs X (back.map Packet.content))
      (oks X ((p :: us).map Packet.content)))
    (hdec : ∀ X, Way des key X r (inPoint e X) us (ivs X ((p :: us).map Packet.content))
      (oks X (back.map Packet.content))) (rand : Option Block) :
    ∃ acc e₂, Received des key e r p us back (handle e rand p.content) acc e₂ := by
  have hafter : ¬ Switches p.content → (e.decryptInput = p.after ↔
      ∀ id, p.content = .msg (.start id) → startInput e = p.after) := fun hnot =>
    iff_of_true (hmode.symm.trans (hsound.after hnot).symm) fun id hid =>
      absurd (hid ▸ trivial) hnot
  have hneutral : ∀ h : Enc × List Content, Neutral p.content → Sends none e h.1 h.2 →
      ∃ acc e₂, Received des key e r p us back h acc e₂ := fun h hn hsends => by
    have hall : ∀ c ∈ [p.content], Neutral c := fun c hmem => by rwa [mem_singleton.1 hmem]
    exact ⟨none, e,
      received_plain hout hdec (hafter (not_switches_neutral hn)) (fun X => ivs_neutral X hall)
      (fun X => oks_neutral X hall) hsends rfl rfl⟩
  rcases hc : p.content with m | data
  · have hhonest := hsound.honest m hc
    cases m with
    | is data =>
      obtain ⟨a, v, rfl⟩ := hhonest
      obtain ⟨acc, hacc, hsends⟩ := sends_is e a v
      exact ⟨acc, e, received_is hout hdec (hafter (by simp [hc, Switches])) rfl hc hacc hsends⟩
    | reply data =>
      obtain ⟨a, rfl⟩ := hhonest
      obtain ⟨e₂, hor, hsends⟩ := sends_reply e a rand
      have hin : e₂.decryptInput = e.decryptInput := hor.elim (fun heq => by rw [heq]) fun hacked =>
        hacked.input
      exact ⟨none, e₂,
        received_reply hout hdec (hin ▸ hafter (by simp [hc, Switches])) hc hor hsends⟩
    | start id =>
      obtain ⟨ms, hstart, hms⟩ := start_eq e
      have hsends : Handles { e with decryptInput := startInput e } (encryptStart e) := by
        rw [hstart]
        exact handles_quiet rfl rfl rfl hms
      refine ⟨none, { e with decryptInput := startInput e },
        received_plain hout hdec ?_ (fun X => ?_) (fun X => ?_) hsends rfl rfl⟩
      · exact ⟨fun h _ _ => h, fun h => h id hc⟩
      · rw [hc]
        rfl
      · rw [hc]
        rfl
    | stop =>
      refine ⟨none, encryptEnd e,
        received_plain hout hdec ?_ (fun X => ?_) (fun X => ?_) (.refl _) rfl rfl⟩
      · refine iff_of_true hhonest.symm fun id hid => ?_
        rw [hc] at hid
        cases hid
      · rw [hc]
        rfl
      · rw [hc]
        rfl
    | support types => exact hneutral _ (hc ▸ trivial) (handles_support e types rand)
    | requestStart id => exact hneutral _ (hc ▸ trivial) (handles_requestStart e rand)
    | requestEnd => exact hneutral _ (hc ▸ trivial) (handles_sendEnd e)
    | encKeyid id => exact hneutral _ (hc ▸ trivial) (handles_keyid e .decrypt id rand)
    | decKeyid id => exact hneutral _ (hc ▸ trivial) (handles_keyid e .encrypt id rand)
  · exact hneutral _ (hc ▸ trivial) (.refl e)

end

/-! ### Runs -/

def Inv (des : Block → Block → Block) (key : Block) (s : System) : Prop :=
  ∀ t, Half des key (s.side t) (s.side !t) (s.chan t) (s.chan !t)

section
variable {des : Block → Block → Block} {key : Block} {s : System} {t : Bool} {e : Enc}
  {r : Enc × List Content} {acc : Option (Alg × Block)}

theorem act_side (s : System) (t : Bool) (o : Option Alg) (r : Enc × List Content) :
    (s.act des t o r).side t = (transmit des r.1.encryptOutput o r.1 r.2).1 ∧
    (s.act des t o r).side (!t) = s.side !t :=
  ⟨Function.update_self .., Function.update_of_ne (Bool.not_ne_self t) ..⟩

theorem act_chan (s : System) (t : Bool) (o : Option Alg) (r : Enc × List Content) :
    (s.act des t o r).chan t = s.chan t ++ (transmit des r.1.encryptOutput o r.1 r.2).2 ∧
      (s.act des t o r).chan (!t) = s.chan !t :=
  ⟨Function.update_self .., Function.update_of_ne (Bool.not_ne_self t) ..⟩

theorem left_chan (s : System) (t : Bool) (us : List Packet) :
    (s.left t us).chan t = s.chan t ∧ (s.left t us).chan (!t) = us :=
  ⟨Function.update_of_ne (Bool.not_ne_self t).symm .., Function.update_self ..⟩

theorem forall_bool (t : Bool) {P : Bool → Prop} : (∀ u, P u) ↔ P t ∧ P !t := by
  cases t
  · exact Bool.forall_bool
  · exact Bool.forall_bool.trans and_comm

theorem inv_iff (t : Bool) : Inv des key s ↔
    Half des key (s.side t) (s.side !t) (s.chan t) (s.chan !t) ∧
    Half des key (s.side !t) (s.side t) (s.chan !t) (s.chan t) := by
  rw [Inv, forall_bool t, Bool.not_not]

theorem synced_iff_at (t : Bool) : Synced s ↔
    Modes (s.side !t).decryptInput (s.chan t) (s.side t).encryptOutput ∧
    Modes (s.side t).decryptInput (s.chan !t) (s.side !t).encryptOutput ∧ s.lost = false := by
  refine ⟨fun h => ⟨h.mode t, ?_, h.points⟩,
    fun ⟨h, h', hlost⟩ => ⟨(forall_bool t).2 ⟨h, ?_⟩, hlost⟩⟩
  · have hmode := h.mode !t
    rwa [Bool.not_not] at hmode
  · rwa [Bool.not_not]

/-- **The invariant after a handler**, from what it found. -/
theorem act_inv (hs : Sends acc e r.1 r.2) (hsound : ∀ p ∈ s.chan t, Sound des p) (hsound' :
    ∀ p ∈ s.chan !t, Sound des p)
    (hout : ∀ X,
      Way des key X e (inPoint (s.side !t) X) (s.chan t) (ivs X ((s.chan t).map Packet.content))
      (oks X ((s.chan !t).map Packet.content)))
    (hdec : ∀ X,
      Way des key X (s.side !t) (inPoint r.1 X) (s.chan !t) (ivs X ((s.chan !t).map Packet.content))
      (oks X ((s.chan t).map Packet.content) + oks X r.2)) :
    Inv des key (s.act des t e.encryptOutput r) := by
  have hkept := transmit_kept des r.1.encryptOutput r.2 e.encryptOutput r.1
  have hcontents := transmit_contents des r.1.encryptOutput r.2 e.encryptOutput r.1
  rw [inv_iff t, (act_side ..).1, (act_side ..).2, (act_chan ..).1, (act_chan ..).2]
  refine ⟨⟨fun p hp => ?_, fun X => ?_⟩, hsound', fun X => ?_⟩
  · exact (mem_append.1 hp).elim (hsound p) (transmit_sound _ r.2 _ _ hs.honest p)
  · rw [map_append, hcontents, ivs_append]
    exact (hout X).sends hs
  · rw [map_append, hcontents, oks_append, hkept.inPoint]
    exact hdec X

theorem act_synced (hs : Sends acc e r.1 r.2) (hlost : s.lost = false)
    (hmode : Modes (s.side !t).decryptInput (s.chan t) e.encryptOutput) :
    Synced (s.act des t e.encryptOutput r) ↔
    Modes e.decryptInput (s.chan !t) (s.side !t).encryptOutput := by
  have hkept := transmit_kept des r.1.encryptOutput r.2 e.encryptOutput r.1
  rw [synced_iff_at t, (act_side ..).1, (act_side ..).2, (act_chan ..).1, (act_chan ..).2,
    hkept.output, hkept.input, hs.input]
  exact ⟨fun h => h.2.1, fun h => ⟨transmit_modes r.2 _ r.1 _ hmode hs.switch, h, hlost⟩⟩

theorem issue_steps (h : Inv des key s) (hsync : Synced s) (t : Bool) (c : Command) :
    Synced (step des s (.issue t c)) ∧ Inv des key (step des s (.issue t c)) := by
  obtain ⟨hmode, hmode', hlost⟩ := (synced_iff_at t).1 hsync
  obtain ⟨hhalf, hhalf'⟩ := (inv_iff t).1 h
  have hs := sends_command (s.side t) c
  refine ⟨(act_synced hs hlost hmode).2 hmode',
    act_inv hs hhalf.sound hhalf'.sound hhalf.way fun X => ?_⟩
  obtain ⟨hsame, hzero⟩ := hs.dec_none X
  rw [hsame, hzero]
  exact hhalf'.way X

/-- **The first packet is read as it was written.** -/
theorem written_head {p : Packet} {us : List Packet} (h : Inv des key s) (hsync : Synced s)
    (hchan : s.chan (!t) = p :: us) :
    p.mode = (s.side t).decryptInput ∧ Modes p.after us (s.side !t).encryptOutput ∧
      Written des p ((s.side t).decryptInput.map (inPoint (s.side t))) := by
  obtain ⟨-, hmode, -⟩ := (synced_iff_at t).1 hsync
  obtain ⟨-, hhalf⟩ := (inv_iff t).1 h
  rw [hchan] at hmode hhalf
  refine ⟨hmode.1, hmode.2, ?_⟩
  rw [← hmode.1]
  rcases hp : p.mode with - | X
  · exact (hhalf.sound p mem_cons_self).clear hp
  · exact (hhalf.way X).written hp

theorem deliver_steps (h : Inv des key s) (hsync : Synced s) (t : Bool) (rand : Option Block) :
    (Synced (step des s (.deliver t rand)) ↔ Matched s (.deliver t rand)) ∧
    Inv des key (step des s (.deliver t rand)) := by
  rcases hchan : s.chan !t with - | ⟨p, us⟩
  · have hstep : step des s (.deliver t rand) = s := by simp [step, System.deliver, hchan]
    rw [hstep]
    refine ⟨iff_of_true hsync fun p hp => ?_, h⟩
    rw [hchan] at hp
    cases hp
  · obtain ⟨hmode, hrest, hwritten⟩ := written_head h hsync hchan
    obtain ⟨hmode', -, hlost⟩ := (synced_iff_at t).1 hsync
    obtain ⟨hhalf, hhalf'⟩ := (inv_iff t).1 h
    rw [hchan] at hhalf hhalf'
    have hreads := reads_packet hmode hwritten
    -- the packet is off the channel, and read
    have hout : ∀ X, Way des key X (readPacket des (s.side t) p) (inPoint (s.side !t) X) (s.chan t)
        (ivs X ((s.chan t).map Packet.content)) (oks X ((p :: us).map Packet.content)) := fun X =>
      (hhalf.way X).congr hreads.output (hreads.out X) (hreads.encState X) (hreads.tempFeed X)
    have hdec : ∀ X, Way des key X (s.side !t) (inPoint (readPacket des (s.side t) p) X) us
        (ivs X ((p :: us).map Packet.content)) (oks X ((s.chan t).map Packet.content)) := fun X =>
      (hhalf'.way X).read (hreads.dec X)
    obtain ⟨acc, e₂, hrec⟩ := received (hhalf'.sound p mem_cons_self)
      (hmode.trans hreads.input.symm) hout hdec rand
    have hstep : step des s (.deliver t rand) =
        (s.left t us).act des t e₂.encryptOutput
        (handle (readPacket des (s.side t) p) rand p.content) := by
      rw [hrec.output, hreads.output]
      simp only [step, System.deliver, hchan, hwritten.states_read, if_true]
    have hmatched : Matched s (.deliver t rand) ↔ e₂.decryptInput = p.after := by
      rw [hrec.input, hreads.start, Matched, hchan]
      simp
    rw [hstep, hmatched]
    constructor
    · have hmodes :
          Modes ((s.left t us).side !t).decryptInput ((s.left t us).chan t) e₂.encryptOutput := by
        rw [(left_chan s t us).1, hrec.output, hreads.output]
        exact hmode'
      have hlost' : (s.left t us).lost = false := hlost
      rw [act_synced hrec.sends hlost' hmodes, (left_chan s t us).2]
      exact ⟨fun hm => modes_unique hm hrest, fun heq => heq ▸ hrest⟩
    · refine act_inv hrec.sends ?_ ?_ (fun X => ?_) fun X => ?_
      · rw [(left_chan s t us).1]
        exact hhalf.sound
      · rw [(left_chan s t us).2]
        exact fun q hq => hhalf'.sound q (mem_cons_of_mem p hq)
      · rw [(left_chan s t us).1, (left_chan s t us).2]
        exact hrec.out X
      · rw [(left_chan s t us).1, (left_chan s t us).2]
        exact hrec.dec X

theorem inv_connected (des : Block → Block → Block) (key : Block) (u : Bool → Setup) :
    Inv des key (connected key u) := by
  have hfb : ∀ t X, ((connected key u).side t).fb X = fbInit.keyed key :=
    fun t X => by cases X <;> rfl
  have hpoint : ∀ t X, inPoint ((connected key u).side t) X = (X, key, base) := fun t X => by
    rw [inPoint, hfb]
    rfl
  have hout : ∀ t X, ((connected key u).side t).encryptOutput ≠ some X :=
    fun _ X h => some_ne_none X h.symm
  have hchan : ∀ t p, p ∉ (connected key u).chan t := fun _ _ => not_mem_nil
  refine fun t => ⟨fun p hp => absurd hp (hchan t p), fun X => .fresh ?_ ⟨hout t X, fun p hp =>
    absurd hp (hchan t p), ?_⟩ (hpoint (!t) X)⟩
  · rw [hfb]
    rfl
  · rw [outPoint, hfb]
    rfl

theorem synced_connected (key : Block) (u : Bool → Setup) : Synced (connected key u) :=
  ⟨fun _ => rfl, rfl⟩

end

/-- **The two ends stay synchronised**, in every state of a run, just in case each START finds its
receiver set to the algorithm it was sent for. -/
theorem synced_iff (des : Block → Block → Block) (key : Block) (u : Bool → Setup) (l : List Event) :
    (∀ l', l' <+: l → Synced (run (step des) (connected key u) l')) ↔
      Allowed (step des) Matched (connected key u) l := by
  have hstep : ∀ s x, True → Synced s → Inv des key s → (Synced (step des s x) ↔ Matched s x) := by
    rintro s (⟨t, rand⟩ | ⟨t, c⟩) - hsync h
    · exact (deliver_steps h hsync t rand).1
    · exact iff_of_true (issue_steps h hsync t c).1 trivial
  have hkeep : ∀ s x, True → Synced s → Inv des key s → Matched s x →
    Inv des key (step des s x) := by
    rintro s (⟨t, rand⟩ | ⟨t, c⟩) - hsync h -
    · exact (deliver_steps h hsync t rand).2
    · exact (issue_steps h hsync t c).2
  exact inv_iff_allowed_within hstep hkeep (synced_connected key u) (inv_connected des key u)
    ((allowed_const_iff _ l).2 fun _ _ => trivial)

/-! ### Another algorithm in between -/

def eager : Bool → Setup := fun _ => ⟨true, false, fun _ => false, fun _ => false, fun _ => none⟩

/-- CFB64 is negotiated; before the START comes, the server asks for OFB64. A byte of data
follows. -/
def retyped : List Event :=
  [.issue true .support, .deliver false (some zero), .deliver true none, .deliver false none,
    .deliver true none,
    .issue true (.type .ofb64 .input), .deliver false none, .issue false (.data [65]),
    .deliver true none, .deliver true none]

/-- The byte is encrypted, and taken as it is. -/
theorem not_synced_retyped : ¬ ∃ des, ∀ l', l' <+: retyped →
    Synced (run (step des) (connected (fun _ => 1) eager) l') := by
  rintro ⟨des, h⟩
  have hlost : (run (step des) (connected (fun _ => 1) eager) retyped).lost = true := by cbv
  rw [(h _ prefix_rfl).points] at hlost
  cases hlost

end Inetutils.Telnet.Synchrony
