import Inetutils.Lib.Letters
import Inetutils.Lib.Runs
import Mathlib.Data.BitVec

/-! # The authenticators that the server calls

`libtelnet/auth.c`, on the side of the server. What is disabled is kept in the mask
`i_wont_support`, and what `init` accepted in `i_support`, a bit for each type. `auth_request`
offers what both masks let through, and `auth_is` looks only into the table.

The table, the names of the types (`<arpa/telnet.h>`) and what `init` says are parameters; what `is`
does comes with the event.

* `Entitled`: the type is supported and not disabled, and the pair was offered. -/

namespace Inetutils.Telnetd.Auth

open Lib.Letters Lib.Runs List

abbrev Byte := UInt8

abbrev Name := List Byte

abbrev AUTH_REJECT : ℕ := 0
abbrev AUTH_USER : ℕ := 3
abbrev AUTH_VALID : ℕ := 4

abbrev TELQUAL_IS : Byte := 0

/-! ### The table and the masks -/

/-- `TN_Authenticator`; `init` is what the function says, if there is one. -/
structure Authenticator where
  type : ℕ
  way : ℕ
  init : Option Bool
  is : Bool
  pos : 0 < type
  lt : type < 32
  deriving DecidableEq

/-- `AUTHTYPE_NAME` -/
structure Names where
  null : Name
  rest : List Name
  count : rest.length < 32

def Names.all (names : Names) : List Name := names.null :: names.rest

/-- The shift is one of a 32 bit register, also for a type of zero. -/
def typemask (x : ℕ) : BitVec 32 := BitVec.twoPow 32 ((x + 31) % 32)

def findauthenticator (table : List Authenticator) (type way : ℕ) : Option Authenticator :=
  table.find? fun ap => ap.type = type ∧ ap.way = way

/-- The loop of `auth_init`: `i_support`. -/
def authInit (table : List Authenticator) : BitVec 32 :=
  table.foldl (fun m ap => if ap.init ≠ some false then m ||| typemask ap.type else m) 0

inductive Setting
  | enable (type : Name)
  | disable (type : Name)
  | disableName (name : Name)

def authDisableName (names : Names) (name : Name) (wont : BitVec 32) : BitVec 32 :=
  match names.all.findIdx? (sameCase name ·) with
  | some x => wont ||| typemask x
  | none => wont

def getauthmask (names : Names) (type : Name) : Option (BitVec 32) :=
  if sameCase type names.null then some (BitVec.allOnes 32)
  else (names.rest.findIdx? (sameCase type ·)).map fun x => typemask (x + 1)

/-- `?` or `help` -/
def asksHelp (type : Name) : Bool := sameCase type [63] || sameCase type [104, 101, 108, 112]

def authOnoff (names : Names) (type : Name) (on : Bool) (wont : BitVec 32) : BitVec 32 :=
  if asksHelp type then wont
  else
    match getauthmask names type with
    | some mask => if on then wont &&& ~~~mask else wont ||| mask
    | none => wont

def Setting.apply (names : Names) (wont : BitVec 32) : Setting → BitVec 32
  | .enable type => authOnoff names type true wont
  | .disable type => authOnoff names type false wont
  | .disableName name => authDisableName names name wont

structure Config where
  table : List Authenticator
  names : Names
  settings : List Setting

/-- `i_wont_support` -/
def Config.wont (cfg : Config) : BitVec 32 := cfg.settings.foldl (Setting.apply cfg.names) 0

/-- `i_support` -/
def Config.support (cfg : Config) : BitVec 32 := authInit cfg.table

/-! ### The negotiation -/

inductive Authenticated
  | null
  | noAuth
  | entry (ap : Authenticator)

/-- `sent` are the pairs of the requests sent, and `called` the authenticators whose `is` was
called. -/
structure Server where
  authenticated : Authenticated
  authenticating : Bool
  validuser : ℕ
  sent : List (ℕ × ℕ)
  called : List Authenticator

def Server.start : Server := ⟨.null, false, 0, [], []⟩

def Config.offers (cfg : Config) : List Authenticator :=
  cfg.table.filter fun ap => cfg.support &&& ~~~cfg.wont &&& typemask ap.type ≠ 0

def authRequest (cfg : Config) (s : Server) : Server :=
  if s.authenticating then s
  else
    { s with authenticating := true, sent := s.sent ++ cfg.offers.map fun ap => (ap.type, ap.way) }

def authFinished (ap : Option Authenticator) (result : ℕ) (s : Server) : Server :=
  { s with
    authenticated :=
      match ap with
      | some ap => .entry ap
      | none => .noAuth
    validuser := result }

/-- `auth_is`; an authenticator finishes with itself, each time with one of `results`. -/
def authIs (cfg : Config) (s : Server) (results : List ℕ) : List Byte → Server
  | t :: w :: _ =>
    if t = 0 then authFinished none AUTH_REJECT s
    else
      match findauthenticator cfg.table t.toNat w.toNat with
      | some ap =>
        if ap.is then
          results.foldl (fun s r => authFinished (some ap) r s)
          { s with called := s.called ++ [ap] }
        else s
      | none => s
  | _ => s

/-- What reaches the server: the option is agreed on or refused, the payload of a suboption comes,
with what `is` does about it, or the timer of `auth_wait` strikes. -/
inductive Event
  | will
  | wont
  | suboption (payload : List Byte) (results : List ℕ)
  | alarm

def step (cfg : Config) (s : Server) : Event → Server
  | .will => authRequest cfg s
  | .wont => authFinished none AUTH_REJECT s
  | .suboption (q :: data) results => if q = TELQUAL_IS then authIs cfg s results data else s
  | .suboption [] _ => s
  | .alarm => authFinished none AUTH_REJECT s

/-- What `auth_wait` returns once it has waited; `status` is the function of the authenticator, if
it has one. -/
def authWait (status : Authenticator → Option (ℕ → ℕ)) (s : Server) : ℕ :=
  if s.authenticating then
    match s.authenticated with
    | .entry ap =>
      ((status ap).getD id) (if s.validuser = AUTH_VALID then AUTH_USER else s.validuser)
    | _ => AUTH_REJECT
  else 0

/-! ### What is asked of it -/

def Named (names : Names) (name : Name) (t : ℕ) : Prop :=
  names.all.findIdx? (sameCase name ·) = some t

def Hits (names : Names) (type : Name) (t : ℕ) : Prop :=
  asksHelp type = false ∧ (sameCase type names.null = true ∨ Named names type t)

def Setting.after (names : Names) (D : Set ℕ) : Setting → Set ℕ
  | .enable type => {t | t ∈ D ∧ ¬ Hits names type t}
  | .disable type => {t | t ∈ D ∨ Hits names type t}
  | .disableName name => {t | t ∈ D ∨ Named names name t}

def Config.disabled (cfg : Config) : Set ℕ := cfg.settings.foldl (Setting.after cfg.names) ∅

/-- `init` succeeded for an entry of this type. -/
def Config.Supported (cfg : Config) (t : ℕ) : Prop :=
  ∃ ap ∈ cfg.table, ap.type = t ∧ ap.init ≠ some false

structure Entitled (cfg : Config) (s : Server) (ap : Authenticator) : Prop where
  supported : cfg.Supported ap.type
  enabled : ap.type ∉ cfg.disabled
  offered : (ap.type, ap.way) ∈ s.sent

/-- Only such authenticators are called, and what is reported of a user rests on one. -/
def Honoured (cfg : Config) (s : Server) : Prop :=
  (∀ ap ∈ s.called, Entitled cfg s ap) ∧
    ∀ status, AUTH_REJECT < authWait status s → ∃ ap, s.authenticated = .entry ap ∧
    Entitled cfg s ap

/-- An answer names a pair that was offered, if it names one that is in the table with an `is`. -/
def Answers (cfg : Config) (s : Server) (e : Event) : Prop :=
  ∀ t w data results, e = .suboption (TELQUAL_IS :: t :: w :: data) results →
    ∀ ap, findauthenticator cfg.table t.toNat w.toNat = some ap → ap.is = true →
    (t.toNat, w.toNat) ∈ s.sent

/-! ### The masks -/

variable {t : ℕ} {names : Names} {name : Name} {ap : Authenticator}

theorem getLsbD_typemask {x : ℕ} (hx : x < 33) (ht : 0 < t) (ht' : t < 32) :
    (typemask x).getLsbD (t - 1) = decide (x = t) := by
  rw [typemask, BitVec.getLsbD_twoPow, Bool.eq_iff_iff]
  simp only [Bool.and_eq_true, decide_eq_true_eq]
  omega

theorem and_typemask_ne_zero (m : BitVec 32) (ht : 0 < t) (ht' : t < 32) :
    m &&& typemask t ≠ 0 ↔ m.getLsbD (t - 1) = true := by
  have hmod : (t + 31) % 32 = t - 1 := by omega
  rw [typemask, BitVec.and_twoPow, hmod]
  split
  next h =>
    refine iff_of_true (fun hz => ?_) h
    have hbit := congrArg (BitVec.getLsbD · (t - 1)) hz
    have hlt : t - 1 < 32 := by omega
    simp [hlt] at hbit
  next h => exact iff_of_false (fun hne => hne rfl) h

theorem support_iff (cfg : Config) (ht : 0 < t) (ht' : t < 32) :
    cfg.support.getLsbD (t - 1) = true ↔ cfg.Supported t := by
  have hfold : ∀ (table : List Authenticator) (m : BitVec 32),
      (table.foldl (fun m ap => if ap.init ≠ some false then m ||| typemask ap.type
        else m) m).getLsbD (t - 1) = true ↔
        m.getLsbD (t - 1) = true ∨ ∃ ap ∈ table, ap.type = t ∧ ap.init ≠ some false := by
    intro table
    induction table with
    | nil => simp
    | cons ap table ih =>
      intro m
      rw [foldl_cons, ih]
      by_cases hinit : ap.init = some false
      · simp [hinit]
      · rw [if_pos hinit, BitVec.getLsbD_or, getLsbD_typemask (by have := ap.lt; omega) ht ht',
          Bool.or_eq_true, decide_eq_true_eq]
        simp [hinit, or_assoc]
  rw [Config.support, authInit, hfold]
  simp [Config.Supported]

theorem lt_of_named {x : ℕ} (h : Named names name x) : x < 33 := by
  obtain ⟨hx, -⟩ := findIdx?_eq_some_iff_findIdx_eq.1 h
  have := names.count
  rw [Names.all, length_cons] at hx
  omega

theorem named_of_not_null (h : sameCase name names.null = false) (x : ℕ) :
    Named names name x ↔ ∃ y, names.rest.findIdx? (sameCase name ·) = some y ∧ y + 1 = x := by
  rw [Named, Names.all, findIdx?_cons, h, if_neg Bool.false_ne_true, Option.map_eq_some_iff]

theorem getauthmask_bit {type : Name} (h : asksHelp type = false) (ht : 0 < t) (ht' : t < 32) :
    Hits names type t ↔
    ∃ mask, getauthmask names type = some mask ∧ mask.getLsbD (t - 1) = true := by
  have hlt : t - 1 < 32 := by omega
  unfold Hits getauthmask
  by_cases hnull : sameCase type names.null = true
  · rw [if_pos hnull]
    refine iff_of_true ⟨h, .inl hnull⟩ ⟨BitVec.allOnes 32, rfl, ?_⟩
    rw [BitVec.getLsbD_allOnes, decide_eq_true hlt]
  · rw [if_neg hnull]
    rw [Bool.not_eq_true] at hnull
    constructor
    · rintro ⟨-, hn | hn⟩
      · rw [hnull] at hn
        exact absurd hn Bool.false_ne_true
      · obtain ⟨y, hy, rfl⟩ := (named_of_not_null hnull t).1 hn
        refine ⟨typemask (y + 1), by rw [hy]; rfl, ?_⟩
        rw [getLsbD_typemask (lt_of_named hn) ht ht', decide_eq_true rfl]
    · rintro ⟨mask, hmask, hbit⟩
      obtain ⟨y, hy, rfl⟩ := Option.map_eq_some_iff.1 hmask
      have hn : Named names type (y + 1) := (named_of_not_null hnull _).2 ⟨y, hy, rfl⟩
      rw [getLsbD_typemask (lt_of_named hn) ht ht', decide_eq_true_eq] at hbit
      exact ⟨h, .inr (hbit ▸ hn)⟩

theorem apply_iff (names : Names) (st : Setting) (ht : 0 < t) (ht' : t < 32) {m : BitVec 32}
    {D : Set ℕ} (h : m.getLsbD (t - 1) = true ↔ t ∈ D) :
    (st.apply names m).getLsbD (t - 1) = true ↔ t ∈ st.after names D := by
  have hlt : t - 1 < 32 := by omega
  have honoff : ∀ type on, (authOnoff names type on m).getLsbD (t - 1) = true ↔
      if on then t ∈ D ∧ ¬ Hits names type t else t ∈ D ∨ Hits names type t := by
    intro type on
    unfold authOnoff
    by_cases hask : asksHelp type = true
    · have hno : ¬ Hits names type t := fun hh => absurd (hask.symm.trans hh.1) (by decide)
      rw [if_pos hask, h]
      cases on <;> simp [hno]
    · rw [if_neg hask]
      rw [Bool.not_eq_true] at hask
      rw [getauthmask_bit hask ht ht']
      cases hmask : getauthmask names type with
      | none => cases on <;> simp [h]
      | some mask =>
        cases on
        · simp [h]
        · simp only [if_true, Option.some.injEq, exists_eq_left', BitVec.getLsbD_and,
            BitVec.getLsbD_not, hlt,
            decide_true, Bool.true_and, Bool.and_eq_true, Bool.not_eq_true', h, Bool.not_eq_true]
  cases st with
  | enable type => exact (honoff type true).trans (by rw [if_pos rfl]; rfl)
  | disable type => exact (honoff type false).trans (by rw [if_neg Bool.false_ne_true]; rfl)
  | disableName name =>
    change (authDisableName names name m).getLsbD (t - 1) = true ↔ t ∈ D ∨ Named names name t
    unfold authDisableName
    cases hx : names.all.findIdx? (sameCase name ·) with
    | none =>
      have hno : ¬ Named names name t := fun hn => by
        rw [Named, hx] at hn
        exact nomatch hn
      simp [h, hno]
    | some x =>
      have hn : Named names name t ↔ x = t := by rw [Named, hx, Option.some_inj]
      rw [BitVec.getLsbD_or, getLsbD_typemask (lt_of_named hx) ht ht', Bool.or_eq_true,
        decide_eq_true_eq, h, hn]

/-- **The mask is the set of the disabled types.** -/
theorem wont_iff (cfg : Config) (ht : 0 < t) (ht' : t < 32) :
    cfg.wont.getLsbD (t - 1) = true ↔ t ∈ cfg.disabled := by
  have hfold : ∀ (settings : List Setting) (m : BitVec 32) (D : Set ℕ),
    (m.getLsbD (t - 1) = true ↔ t ∈ D) →
      ((settings.foldl (Setting.apply cfg.names) m).getLsbD (t - 1) = true ↔
        t ∈ settings.foldl (Setting.after cfg.names) D) := by
    intro settings
    induction settings with
    | nil => exact fun m D h => h
    | cons st settings ih => exact fun m D h => ih _ _ (apply_iff cfg.names st ht ht' h)
  exact hfold cfg.settings 0 ∅ (by simp)

/-! ### Runs -/

theorem mem_offers {cfg : Config} (h : ap ∈ cfg.offers) :
    cfg.Supported ap.type ∧ ap.type ∉ cfg.disabled := by
  rw [Config.offers, mem_filter, decide_eq_true_eq, and_typemask_ne_zero _ ap.pos ap.lt,
    BitVec.getLsbD_and,
    Bool.and_eq_true, support_iff cfg ap.pos ap.lt, BitVec.getLsbD_not, Bool.and_eq_true,
    Bool.not_eq_true', ← Bool.not_eq_true, wont_iff cfg ap.pos ap.lt] at h
  exact ⟨h.2.1, h.2.2.2⟩

/-- What was sent are pairs of types that are let through, and only a called authenticator has
finished. -/
structure Kept (cfg : Config) (s : Server) : Prop where
  sent : ∀ p ∈ s.sent, cfg.Supported p.1 ∧ p.1 ∉ cfg.disabled
  finished : ∀ ap, s.authenticated = .entry ap → ap ∈ s.called

theorem Kept.entitled_iff {cfg : Config} {s : Server} (h : Kept cfg s) (ap : Authenticator) :
    Entitled cfg s ap ↔ (ap.type, ap.way) ∈ s.sent :=
  ⟨Entitled.offered, fun hp => ⟨(h.sent _ hp).1, (h.sent _ hp).2, hp⟩⟩

theorem Kept.honoured_iff {cfg : Config} {s : Server} (h : Kept cfg s) :
    Honoured cfg s ↔ ∀ ap ∈ s.called, (ap.type, ap.way) ∈ s.sent := by
  constructor
  · exact fun hh ap hap => (hh.1 ap hap).offered
  · intro hcalled
    refine ⟨fun ap hap => (h.entitled_iff ap).2 (hcalled ap hap), fun status hwait => ?_⟩
    unfold authWait at hwait
    split at hwait
    · split at hwait
      next ap hap => exact ⟨ap, hap, (h.entitled_iff ap).2 (hcalled ap (h.finished ap hap))⟩
      next => exact absurd hwait (lt_irrefl 0)
    · exact absurd hwait (lt_irrefl 0)

section
variable {cfg : Config} {s : Server}

theorem Kept.finish (h : Kept cfg s) {ap : Option Authenticator}
    (hap : ∀ a ∈ ap, a ∈ s.called) (r : ℕ) :
    Kept cfg (authFinished ap r s) := by
  refine ⟨h.sent, fun a ha => hap a ?_⟩
  cases ap with
  | none => exact nomatch ha
  | some b => exact congrArg some (Authenticated.entry.inj ha)

theorem finishes (ap : Authenticator) (results : List ℕ) (s : Server) :
    (results.foldl (fun s r => authFinished (some ap) r s) s).called = s.called ∧
      (results.foldl (fun s r => authFinished (some ap) r s) s).sent = s.sent := by
  induction results generalizing s with
  | nil => exact ⟨rfl, rfl⟩
  | cons r results ih => exact ih (authFinished (some ap) r s)

theorem Kept.finishes (h : Kept cfg s) (hap : ap ∈ s.called) (results : List ℕ) :
    Kept cfg (results.foldl (fun s r => authFinished (some ap) r s) s) := by
  induction results generalizing s with
  | nil => exact h
  | cons r results ih => exact ih (h.finish (fun a ha => Option.some.inj ha ▸ hap) r) hap

theorem findauthenticator_spec {table : List Authenticator} {w : ℕ}
    (h : findauthenticator table t w = some ap) : ap.type = t ∧ ap.way = w := by
  have hp := find?_some h
  exact of_decide_eq_true hp

/-- The event makes the server call `ap`. -/
def Calls (cfg : Config) (e : Event) (ap : Authenticator) : Prop :=
  ∃ t w data results, e = .suboption (TELQUAL_IS :: t :: w :: data) results ∧
    findauthenticator cfg.table t.toNat w.toNat = some ap ∧ ap.is = true

theorem answers_iff (e : Event) : Answers cfg s e ↔
    ∀ ap, Calls cfg e ap → (ap.type, ap.way) ∈ s.sent := by
  constructor
  · rintro h ap ⟨t, w, data, results, he, hfind, his⟩
    obtain ⟨ht, hw⟩ := findauthenticator_spec hfind
    rw [ht, hw]
    exact h t w data results he ap hfind his
  · intro h t w data results he ap hfind his
    obtain ⟨ht, hw⟩ := findauthenticator_spec hfind
    rw [← ht, ← hw]
    exact h ap ⟨t, w, data, results, he, hfind, his⟩

theorem step_of_calls {e : Event} (h : Calls cfg e ap) :
    ∃ results : List ℕ, step cfg s e =
      results.foldl (fun s r => authFinished (some ap) r s)
      { s with called := s.called ++ [ap] } := by
  obtain ⟨t, w, data, results, rfl, hfind, his⟩ := h
  have ht : t ≠ 0 := by
    rintro rfl
    exact absurd (findauthenticator_spec hfind).1 (ne_of_gt ap.pos)
  refine ⟨results, ?_⟩
  rw [step, if_pos rfl, authIs, if_neg ht, hfind]
  exact if_pos his

theorem step_of_not_calls {e : Event} (h : ∀ ap, ¬ Calls cfg e ap) :
    step cfg s e = s ∨ step cfg s e = authFinished none AUTH_REJECT s ∨
    step cfg s e = authRequest cfg s := by
  cases e with
  | will => exact .inr (.inr rfl)
  | wont => exact .inr (.inl rfl)
  | alarm => exact .inr (.inl rfl)
  | suboption payload results =>
    rcases payload with _ | ⟨q, data⟩
    · exact .inl rfl
    rw [step]
    by_cases hq : q = TELQUAL_IS
    · subst hq
      rcases data with _ | ⟨t, _ | ⟨w, data⟩⟩
      · exact .inl rfl
      · exact .inl rfl
      rw [authIs]
      by_cases ht : t = 0
      · exact .inr (.inl (if_pos ht))
      · rw [if_neg ht]
        cases hfind : findauthenticator cfg.table t.toNat w.toNat with
        | none => exact .inl rfl
        | some ap =>
          have his : ¬ ap.is = true := fun his => h ap ⟨t, w, data, results, rfl, hfind, his⟩
          exact .inl (if_neg his)
    · exact .inl (if_neg hq)

theorem Kept.request (h : Kept cfg s) : Kept cfg (authRequest cfg s) := by
  unfold authRequest
  split
  · exact h
  · refine ⟨fun p hp => ?_, h.finished⟩
    rcases mem_append.1 hp with hp | hp
    · exact h.sent p hp
    · obtain ⟨ap, hap, rfl⟩ := mem_map.1 hp
      exact mem_offers hap

theorem subset_sent_authRequest : s.sent ⊆ (authRequest cfg s).sent := by
  unfold authRequest
  split
  · exact fun p hp => hp
  · exact subset_append_left _ _

theorem Kept.step (h : Kept cfg s) (e : Event) : Kept cfg (step cfg s e) := by
  by_cases hcalls : ∃ ap, Calls cfg e ap
  · obtain ⟨ap, hap⟩ := hcalls
    obtain ⟨results, hstep⟩ := step_of_calls (s := s) hap
    have hmore : Kept cfg { s with called := s.called ++ [ap] } :=
      ⟨h.sent, fun a ha => mem_append_left _ (h.finished a ha)⟩
    rw [hstep]
    exact hmore.finishes (mem_append_right _ (mem_singleton_self ap)) results
  · rcases step_of_not_calls (s := s) (not_exists.1 hcalls) with hs | hs | hs
    · rw [hs]
      exact h
    · rw [hs]
      exact h.finish (by simp) AUTH_REJECT
    · rw [hs]
      exact h.request

theorem honoured_step (h : Kept cfg s) (hs : Honoured cfg s) (e : Event) :
    Honoured cfg (step cfg s e) ↔ Answers cfg s e := by
  rw [h.honoured_iff] at hs
  rw [(h.step e).honoured_iff, answers_iff]
  by_cases hcalls : ∃ ap, Calls cfg e ap
  · obtain ⟨ap, hap⟩ := hcalls
    obtain ⟨results, hstep⟩ := step_of_calls (s := s) hap
    have hsame := Auth.finishes ap results { s with called := s.called ++ [ap] }
    rw [hstep, hsame.1, hsame.2]
    constructor
    · intro hall a ha
      have heq : a = ap := by
        obtain ⟨t, w, data, res, rfl, hfind, -⟩ := ha
        obtain ⟨t', w', data', res', he, hfind', -⟩ := hap
        cases he
        exact Option.some.inj (hfind.symm.trans hfind')
      rw [heq]
      exact hall ap (mem_append_right _ (mem_singleton_self ap))
    · intro hans a ha
      rcases mem_append.1 ha with ha | ha
      · exact hs a ha
      · rw [mem_singleton.1 ha]
        exact hans ap hap
  · refine iff_of_true ?_ fun ap hap => absurd ⟨ap, hap⟩ hcalls
    rcases step_of_not_calls (s := s) (not_exists.1 hcalls) with hstep | hstep | hstep
    · rw [hstep]
      exact hs
    · rw [hstep]
      exact hs
    · intro ap hap
      have hcalled : (step cfg s e).called = s.called := by
        rw [hstep, authRequest]
        split <;> rfl
      rw [hcalled] at hap
      rw [hstep]
      exact subset_sent_authRequest (hs ap hap)

end

/-- **Which runs honour the configuration:** those in which every answer that reaches an
authenticator names a pair that had been offered. -/
theorem honours_iff_answers (cfg : Config) (l : List Event) :
    (∀ l', l' <+: l → Honoured cfg (run (step cfg) .start l')) ↔
    Allowed (step cfg) (Answers cfg) .start l := by
  have hkept : Kept cfg .start := ⟨by simp [Server.start], by simp [Server.start]⟩
  have hstart : Honoured cfg .start := hkept.honoured_iff.2 (by simp [Server.start])
  have hstep : ∀ (s : Server) (e : Event), Honoured cfg s → Kept cfg s →
      (Honoured cfg (step cfg s e) ↔ Answers cfg s e) := fun s e hs h => honoured_step h hs e
  exact inv_iff_allowed hstep (fun s e h => h.step e) hstart hkept

/-- `NULL` -/
def nullName : Name := [78, 85, 76, 76]

def closed : Config where
  table := [⟨2, 0, none, true, by decide, by decide⟩]
  names := ⟨nullName, [[75, 49], [75, 50]], by decide⟩
  settings := [.disableName [107, 50]]

/-- A client that names the type all the same is let in. -/
theorem not_honoured_closed : ¬ ∀ (cfg : Config) (l : List Event),
    Honoured cfg (run (step cfg) .start l) := by
  intro h
  have hcalled := (h closed [.suboption [0, 2, 0] [AUTH_USER]]).1
    ⟨2, 0, none, true, by decide, by decide⟩ (by decide)
  exact absurd hcalled.offered (by decide)

end Inetutils.Telnetd.Auth
