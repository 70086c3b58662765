import Inetutils.Telnet.Items
import Mathlib.Algebra.Order.Ring.Int
import Mathlib.Data.List.TakeWhile

/-! # The environment in the client

The reply to `SEND` of `NEW-ENVIRON`: `env_opt` and what it calls in `telnet/telnet.c`, with the
list of variables of `telnet/commands.c`.

`opt_reply` is allocated with `OPT_REPLY_SIZE` bytes. `env_opt_add` adds as much once if the plain
lengths do not fit, but it may put twice as many bytes: `Roomy` says when all that is put fits, and
nothing is written past `opt_replyend` just then (`env_opt_within_iff`, `long_value_overflows`).
Whether an allocation succeeds is a parameter. -/

namespace Inetutils.Telnet.Environ

open Proto Items List

structure CString where
  bytes : List Byte
  nul : 0 ∉ bytes
  deriving DecidableEq

def CString.ofBytes (l : List Byte) : CString :=
  ⟨l.takeWhile (· ≠ 0), fun h => absurd (List.mem_takeWhile_imp h) (by simp)⟩

/-- `struct env_lst`; `welldefined` is always `opt_welldefined` of the name. -/
structure EnvLst where
  var : CString
  value : CString
  exports : Bool

def optWelldefined (ep : CString) : Bool :=
  ep.bytes ∈ [['U', 'S', 'E', 'R'], ['D', 'I', 'S', 'P', 'L', 'A', 'Y'],
    ['P', 'R', 'I', 'N', 'T', 'E', 'R'],
    ['S', 'Y', 'S', 'T', 'E', 'M', 'T', 'Y', 'P', 'E'], ['J', 'O', 'B'], ['A', 'C', 'C', 'T']].map
      fun l => l.map Char.toUInt8

def envFind (envlist : List EnvLst) (var : CString) : Option EnvLst :=
  envlist.find? fun ep => ep.var = var

def envGetvalue (envlist : List EnvLst) (var : CString) : Option CString :=
  (envFind envlist var).map EnvLst.value

/-- What `env_default` goes through. -/
def envDefault (envlist : List EnvLst) (welldefined : Bool) : List CString :=
  (envlist.filter fun ep => ep.exports && (optWelldefined ep.var == welldefined)).map EnvLst.var

/-! ### The reply -/

abbrev optReplySize : ℕ := 256

/-- `opt_reply` up to `opt_replyp`, and the size up to `opt_replyend`; whether there is a buffer at
all, and whether a byte was ever written past its end. -/
structure Reply where
  live : Bool
  bytes : List Byte
  size : ℕ
  past : Bool

variable {r : Reply}

def Reply.put (r : Reply) (b : Byte) : Reply :=
  { r with bytes := r.bytes ++ [b], past := r.past || decide (r.size ≤ r.bytes.length) }

def Reply.puts (r : Reply) (l : List Byte) : Reply := l.foldl Reply.put r

def Reply.null (past : Bool) : Reply := ⟨false, [], 0, past⟩

section
variable (grants : ℕ → Bool)

def envOptStart : Reply :=
  if grants optReplySize then
    Reply.puts ⟨true, [], optReplySize, false⟩ [IAC, SB, TELOPT_NEW_ENVIRON, TELQUAL_IS]
  else Reply.null false

def coded (c : Byte) : List Byte :=
  if c = IAC then [IAC, c]
  else if c = NEW_ENV_VAR ∨ c = NEW_ENV_VALUE ∨ c = ENV_ESC ∨ c = ENV_USERVAR then [ENV_ESC, c]
  else [c]

def codedValue : Option CString → List Byte
  | none => []
  | some vp => NEW_ENV_VALUE :: vp.bytes.flatMap coded

def codedVar (ep : CString) (vp : Option CString) : List Byte :=
  (if optWelldefined ep then NEW_ENV_VAR else ENV_USERVAR) :: ep.bytes.flatMap coded ++
    codedValue vp

/-- The length `env_opt_add` reckons with. -/
def plain (ep : CString) (vp : Option CString) : ℕ :=
  (vp.elim 0 fun v => v.bytes.length) + ep.bytes.length + 6

def Reply.grow (r : Reply) (n : ℕ) : Reply :=
  if r.bytes.length + n > r.size then
    if grants (r.size + optReplySize) then { r with size := r.size + optReplySize }
    else Reply.null r.past
  else r

/-- `env_opt_add` for a name, with its value. -/
def Reply.add (r : Reply) (ep : CString) (vp : Option CString) : Reply :=
  if r.live then
    let r := r.grow grants (plain ep vp)
    if r.live then r.puts (codedVar ep vp) else r
  else r

def envOptEnd (emptyok : Bool) (r : Reply) : Reply :=
  if emptyok ∨ r.bytes.length + 2 > 6 then r.puts [IAC, SE] else r

variable (envlist : List EnvLst)

/-- The calls of `f` for each element; they end with one that does not return. -/
def calls {α β : Type*} (f : α → β → β × Bool) : List α → β → β × Bool
  | [], b => (b, true)
  | a :: l, b => if (f a b).2 then calls f l (f a b).1 else f a b

/-- `env_opt_add`, and whether it returns. Without a name all variables are added; as this is done
by the function itself, a variable with an empty name makes it recur, and is followed up to a
depth. -/
def envOptAdd : ℕ → CString → Reply → Reply × Bool
  | n, ep, r =>
    if r.live then
      if ep.bytes = [] then
        match n with
        | 0 => (r, false)
        | n + 1 => calls (envOptAdd n) (envDefault envlist false ++ envDefault envlist true) r
      else (r.add grants ep (envGetvalue envlist ep), true)
    else (r, true)

/-- The names in the payload after `TELQUAL_SEND`, `ep` being the one that is read. After an
`ENV_ESC` at the end what comes after the payload is looked at. -/
def names (after : Byte) : Option (List Byte) → List Byte → List (List Byte)
  | ep, [] => ep.toList
  | ep, c :: l =>
    if c = NEW_ENV_VAR ∨ c = ENV_USERVAR then ep.toList ++ names after (some []) l
    else if c = ENV_ESC then
      match l with
      | [] => (ep.map (· ++ [after])).toList
      | d :: l => names after (ep.map (· ++ [d])) l
    else names after (ep.map (· ++ [c])) l

/-- The arguments of `env_opt_add`. -/
def requests (after : Byte) (l : List Byte) : List CString :=
  if l = [] then [.ofBytes []] else (names after none l).map .ofBytes

/-- `env_opt`: the reply, and whether it was ended. -/
def envOpt (n : ℕ) (after : Byte) : List Byte → Reply × Bool
  | [] => (Reply.null false, false)
  | q :: l =>
    if q = TELQUAL_SEND then
      let p := calls (envOptAdd grants envlist n) (requests after l) (envOptStart grants)
      if p.2 then (envOptEnd true p.1, true) else p
    else (Reply.null false, false)

/-! ### What is sent -/

/-- What the calls of `f` give, until one does not return. -/
def collect {α β : Type*} (f : α → List β × Bool) : List α → List β × Bool
  | [] => ([], true)
  | a :: l => if (f a).2 then ((f a).1 ++ (collect f l).1, (collect f l).2) else f a

def wanted : ℕ → CString → List CString × Bool
  | n, ep =>
    if ep.bytes = [] then
      match n with
      | 0 => ([], false)
      | n + 1 => collect (wanted n) (envDefault envlist false ++ envDefault envlist true)
    else ([ep], true)

/-- The variables sent for a payload, and whether these are all. -/
def sends (n : ℕ) (after : Byte) (l : List Byte) : List (CString × Option CString) × Bool :=
  let p := collect (wanted envlist n) (requests after l)
  (p.1.map fun ep => (ep, envGetvalue envlist ep), p.2)

/-- What is put for the variables fits, from `pos` on in a buffer of the size `size`, which is
enlarged once for each variable that does not seem to fit; and so does the end, if it comes. -/
def Roomy : ℕ → ℕ → Bool → List (CString × Option CString) → Prop
  | pos, size, ends, [] => ends = true → pos + 2 ≤ size
  | pos, size, ends, v :: vs =>
    if pos + plain v.1 v.2 > size then
      grants (size + optReplySize) = true ∧ pos + (codedVar v.1 v.2).length ≤ size + optReplySize ∧
        Roomy (pos + (codedVar v.1 v.2).length) (size + optReplySize) ends vs
    else pos + (codedVar v.1 v.2).length ≤ size ∧
      Roomy (pos + (codedVar v.1 v.2).length) size ends vs

instance decidableRoomy : ∀ (pos size : ℕ) (ends : Bool) (vs : List (CString × Option CString)),
    Decidable (Roomy grants pos size ends vs)
  | pos, size, ends, [] => inferInstanceAs (Decidable (ends = true → pos + 2 ≤ size))
  | pos, size, ends, v :: vs =>
    have := decidableRoomy (pos + (codedVar v.1 v.2).length) (size + optReplySize) ends vs
    have := decidableRoomy (pos + (codedVar v.1 v.2).length) size ends vs
    inferInstanceAs (Decidable (if pos + plain v.1 v.2 > size then
      grants (size + optReplySize) = true ∧ pos + (codedVar v.1 v.2).length ≤ size + optReplySize ∧
        Roomy grants (pos + (codedVar v.1 v.2).length) (size + optReplySize) ends vs
    else pos + (codedVar v.1 v.2).length ≤ size ∧
      Roomy grants (pos + (codedVar v.1 v.2).length) size ends vs))

def Reply.adds (r : Reply) (vs : List (CString × Option CString)) : Reply :=
  vs.foldl (fun r v => r.add grants v.1 v.2) r

end

/-! ### The bytes put -/

@[simp] theorem bytes_puts (r : Reply) (l : List Byte) : (r.puts l).bytes = r.bytes ++ l := by
  induction l generalizing r with
  | nil => exact (append_nil _).symm
  | cons b l ih => exact (ih (r.put b)).trans (append_assoc ..)

@[simp] theorem size_puts (r : Reply) (l : List Byte) : (r.puts l).size = r.size := by
  induction l generalizing r with
  | nil => rfl
  | cons b l ih => exact ih (r.put b)

@[simp] theorem live_puts (r : Reply) (l : List Byte) : (r.puts l).live = r.live := by
  induction l generalizing r with
  | nil => rfl
  | cons b l ih => exact ih (r.put b)

theorem past_puts_of_past (h : r.past = true) (l : List Byte) : (r.puts l).past = true := by
  induction l generalizing r with
  | nil => exact h
  | cons b l ih => exact ih (by simp [Reply.put, h])

theorem past_puts (h : r.bytes.length ≤ r.size) (l : List Byte) :
    (r.puts l).past = false ↔ r.past = false ∧ r.bytes.length + l.length ≤ r.size := by
  induction l generalizing r with
  | nil => exact ⟨fun hp => ⟨hp, h⟩, fun hp => hp.1⟩
  | cons b l ih =>
    by_cases hfull : r.size ≤ r.bytes.length
    · have hpast : (r.put b).past = true := by simp [Reply.put, hfull]
      have h1 := past_puts_of_past hpast l
      refine ⟨fun hp => absurd (h1.symm.trans hp) (by decide), fun hp => ?_⟩
      have := hp.2
      rw [length_cons] at this
      omega
    · have hput : (r.put b).bytes.length = r.bytes.length + 1 := length_append
      have hpast : (r.put b).past = r.past := by simp [Reply.put, hfull]
      have hsize : (r.put b).size = r.size := rfl
      have h1 := ih (r := r.put b) (by omega)
      rw [hpast, hput, hsize] at h1
      rw [length_cons,
        show r.bytes.length + (l.length + 1) = r.bytes.length + 1 + l.length by omega]
      exact h1

section
variable {grants : ℕ → Bool} {envlist : List EnvLst}

/-- The reply is ended when all calls have returned, which they do at once if there is no buffer any
more. -/
def finish (ends : Bool) (r : Reply) : Reply := if ends || !r.live then envOptEnd true r else r

theorem envOptEnd_true (r : Reply) : envOptEnd true r = r.puts [IAC, SE] := if_pos (.inl rfl)

theorem adds_not_live (h : r.live = false) (vs : List (CString × Option CString)) :
    r.adds grants vs = r := by
  induction vs with
  | nil => rfl
  | cons v vs ih =>
    have hadd : r.add grants v.1 v.2 = r := if_neg (by simp [h])
    show Reply.adds grants (r.add grants v.1 v.2) vs = r
    rw [hadd, ih]

theorem past_add (h : r.past = true) (ep : CString) (vp : Option CString) :
    (r.add grants ep vp).past = true := by
  have hgrow : (r.grow grants (plain ep vp)).past = true := by
    unfold Reply.grow
    split_ifs <;> exact h
  unfold Reply.add
  dsimp only
  split_ifs
  · exact past_puts_of_past hgrow _
  · exact hgrow
  · exact h

theorem past_finish_adds (h : r.past = true) (ends : Bool)
    (vs : List (CString × Option CString)) : (finish ends (r.adds grants vs)).past = true := by
  induction vs generalizing r with
  | nil =>
    unfold finish
    split_ifs
    · rw [envOptEnd_true]; exact past_puts_of_past h _
    · exact h
  | cons v vs ih => exact ih (past_add h v.1 v.2)

theorem past_finish_null (past ends : Bool) : (finish ends (Reply.null past)).past = true := by
  unfold finish
  rw [if_pos (by simp [Reply.null]), envOptEnd_true]
  simp [Reply.puts, Reply.put, Reply.null]

theorem past_cons (h : r.bytes.length ≤ r.size) (hp : r.past = false) (ends : Bool)
    (v : CString × Option CString) (vs : List (CString × Option CString))
    (ih : ∀ r' : Reply, r'.live = true → r'.bytes.length ≤ r'.size → r'.past = false →
      ((finish ends (r'.adds grants vs)).past = false ↔
        Roomy grants r'.bytes.length r'.size ends vs))
    (hl : r.live = true) :
    (finish ends ((r.puts (codedVar v.1 v.2)).adds grants vs)).past = false ↔
      r.bytes.length + (codedVar v.1 v.2).length ≤ r.size ∧
        Roomy grants (r.bytes.length + (codedVar v.1 v.2).length) r.size ends vs := by
  have hfit := past_puts h (codedVar v.1 v.2)
  rw [hp] at hfit
  by_cases hroom : r.bytes.length + (codedVar v.1 v.2).length ≤ r.size
  · have hih := ih (r.puts (codedVar v.1 v.2)) (by rw [live_puts, hl])
      (by rw [bytes_puts, length_append, size_puts]; exact hroom) (hfit.mpr ⟨rfl, hroom⟩)
    rw [bytes_puts, length_append, size_puts] at hih
    rw [hih]
    exact ⟨fun h' => ⟨hroom, h'⟩, fun h' => h'.2⟩
  · have hpast : (r.puts (codedVar v.1 v.2)).past = true := by
      by_contra hn
      exact hroom (hfit.mp (Bool.not_eq_true _ ▸ hn)).2
    exact iff_of_false (by rw [past_finish_adds hpast]; decide) fun h' => hroom h'.1

/-- **Nothing is written past the end just if there is room for all.** -/
theorem past_adds (grants : ℕ → Bool) (ends : Bool) (vs : List (CString × Option CString))
    (hl : r.live = true) (h : r.bytes.length ≤ r.size) (hp : r.past = false) :
    (finish ends (r.adds grants vs)).past = false ↔ Roomy grants r.bytes.length r.size ends vs := by
  induction vs generalizing r with
  | nil =>
    show (finish ends r).past = false ↔ (ends = true → r.bytes.length + 2 ≤ r.size)
    unfold finish
    rw [hl]
    cases ends with
    | true =>
      rw [if_pos (by decide), envOptEnd_true, past_puts h, hp]
      simp
    | false => simp [hp]
  | cons v vs ih =>
    show (finish ends ((r.add grants v.1 v.2).adds grants vs)).past = false ↔ _
    have ih' : ∀ r' : Reply, r'.live = true → r'.bytes.length ≤ r'.size → r'.past = false →
        ((finish ends (r'.adds grants vs)).past = false ↔
          Roomy grants r'.bytes.length r'.size ends vs) := fun r' h1 h2 h3 => ih h1 h2 h3
    unfold Reply.add Reply.grow Roomy
    rw [if_pos hl]
    by_cases hgrow : r.bytes.length + plain v.1 v.2 > r.size
    · rw [if_pos hgrow, if_pos hgrow]
      by_cases hg : grants (r.size + optReplySize) = true
      · rw [if_pos hg]
        rw [if_pos hl, past_cons (r := { r with size := r.size + optReplySize })
          (h.trans (Nat.le_add_right _ _)) hp ends v vs ih' hl]
        exact ⟨fun h' => ⟨hg, h'⟩, fun h' => h'.2⟩
      · rw [if_neg hg]
        refine iff_of_false ?_ fun h' => hg h'.1
        rw [if_neg (by simp [Reply.null]), adds_not_live (by rfl), past_finish_null]
        decide
    · rw [if_neg hgrow, if_neg hgrow, if_pos hl]
      exact past_cons h hp ends v vs ih' hl

theorem bytes_adds (ends : Bool) (vs : List (CString × Option CString)) (hl : r.live = true)
    (hroom : Roomy grants r.bytes.length r.size ends vs) : (r.adds grants vs).live = true ∧
      (r.adds grants vs).bytes = r.bytes ++ vs.flatMap fun v => codedVar v.1 v.2 := by
  induction vs generalizing r with
  | nil => exact ⟨hl, (append_nil _).symm⟩
  | cons v vs ih =>
    show ((r.add grants v.1 v.2).adds grants vs).live = true ∧
      ((r.add grants v.1 v.2).adds grants vs).bytes = _
    have hrest : ∀ r' : Reply, r'.live = true → r'.bytes = r.bytes →
        Roomy grants (r.bytes.length + (codedVar v.1 v.2).length) r'.size ends vs →
        ((r'.puts (codedVar v.1 v.2)).adds grants vs).live = true ∧
          ((r'.puts (codedVar v.1 v.2)).adds grants vs).bytes =
            r.bytes ++ (v :: vs).flatMap fun v => codedVar v.1 v.2 := by
      intro r' hl' hb hr
      have := ih (r := r'.puts (codedVar v.1 v.2)) (by rw [live_puts, hl'])
        (by rw [bytes_puts, size_puts, length_append, hb]; exact hr)
      rw [bytes_puts, hb, append_assoc] at this
      exact this
    unfold Roomy at hroom
    unfold Reply.add Reply.grow
    rw [if_pos hl]
    split_ifs at hroom with hgrow
    · rw [if_pos hgrow, if_pos hroom.1, if_pos (by exact hl)]
      exact hrest { r with size := r.size + optReplySize } hl rfl hroom.2.2
    · rw [if_neg hgrow, if_pos hl]
      exact hrest r hl rfl hroom.2

/-! ### All that is requested -/

theorem adds_append (r : Reply) (vs vs' : List (CString × Option CString)) :
    r.adds grants (vs ++ vs') = (r.adds grants vs).adds grants vs' := foldl_append ..

def withValues (envlist : List EnvLst) (p : List CString × Bool) :
    List (CString × Option CString) :=
  p.1.map fun ep => (ep, envGetvalue envlist ep)

theorem calls_eq {f : CString → Reply → Reply × Bool} {g : CString → List CString × Bool}
    (h : ∀ ep r, f ep r = (r.adds grants (withValues envlist (g ep)),
      (g ep).2 || !(r.adds grants (withValues envlist (g ep))).live)) (l : List CString)
      (r : Reply) :
    calls f l r = (r.adds grants (withValues envlist (collect g l)),
      (collect g l).2 || !(r.adds grants (withValues envlist (collect g l))).live) := by
  induction l generalizing r with
  | nil => rfl
  | cons ep l ih =>
    unfold calls collect
    rw [h ep r]
    by_cases hret : (g ep).2 = true
    · rw [hret, Bool.true_or, if_pos rfl, if_pos rfl, ih]
      simp only [withValues, map_append, adds_append]
    · rw [if_neg hret]
      rw [Bool.not_eq_true] at hret
      rw [hret, Bool.false_or]
      by_cases hlive : (r.adds grants (withValues envlist (g ep))).live = true
      · rw [hlive]; rfl
      · rw [Bool.not_eq_true] at hlive
        rw [hlive, Bool.not_false, if_pos rfl, ih, adds_not_live hlive, hlive, Bool.not_false,
          Bool.or_true]

theorem envOptAdd_eq (grants : ℕ → Bool) (envlist : List EnvLst) (n : ℕ) (ep : CString)
    (r : Reply) :
    envOptAdd grants envlist n ep r = (r.adds grants (withValues envlist (wanted envlist n ep)),
      (wanted envlist n ep).2 ||
      !(r.adds grants (withValues envlist (wanted envlist n ep))).live) := by
  induction n generalizing ep r with
  | zero =>
    unfold envOptAdd wanted
    by_cases hl : r.live = true
    · rw [if_pos hl]
      split_ifs
      · simp [withValues, Reply.adds, hl]
      · simp [withValues, Reply.adds]
    · rw [if_neg hl]
      rw [Bool.not_eq_true] at hl
      rw [adds_not_live hl, hl, Bool.not_false, Bool.or_true]
  | succ n ih =>
    unfold envOptAdd wanted
    by_cases hl : r.live = true
    · rw [if_pos hl]
      split_ifs
      · exact calls_eq ih _ r
      · simp [withValues, Reply.adds]
    · rw [if_neg hl]
      rw [Bool.not_eq_true] at hl
      rw [adds_not_live hl, hl, Bool.not_false, Bool.or_true]

theorem envOpt_eq (n : ℕ) (after : Byte) (l : List Byte) :
    (envOpt grants envlist n after (TELQUAL_SEND :: l)).1 =
      finish (sends envlist n after l).2
        ((envOptStart grants).adds grants (sends envlist n after l).1) := by
  have h := calls_eq (envOptAdd_eq grants envlist n) (requests after l)
    (envOptStart grants)
  unfold envOpt finish sends
  dsimp only
  rw [if_pos rfl, h]
  exact apply_ite Prod.fst _ _ _

/-- **`env_opt` writes nothing past the end of its buffer just if there is room for all that is
sent**, to whatever depth it is followed. -/
theorem env_opt_within_iff (n : ℕ) (after : Byte) (l : List Byte) :
    (envOpt grants envlist n after (TELQUAL_SEND :: l)).1.past = false ↔
      grants optReplySize = true ∧
        Roomy grants 4 optReplySize (sends envlist n after l).2 (sends envlist n after l).1 := by
  rw [envOpt_eq]
  by_cases hg : grants optReplySize = true
  · have hstart : envOptStart grants =
        ⟨true, [IAC, SB, TELOPT_NEW_ENVIRON, TELQUAL_IS], optReplySize, false⟩ := by
      unfold envOptStart
      rw [if_pos hg]
      rfl
    rw [hstart, past_adds _ _ _ rfl (by decide) rfl]
    exact ⟨fun h => ⟨hg, h⟩, fun h => h.2⟩
  · refine iff_of_false ?_ fun h => hg h.1
    unfold envOptStart
    rw [if_neg hg, adds_not_live rfl, past_finish_null]
    decide

/-- **A value of 600 bytes is asked for**: the buffer is enlarged once, to 512 bytes. -/
theorem long_value_overflows :
    (envOpt (fun _ => true) [⟨.ofBytes [65], .ofBytes (List.replicate 600 120), false⟩] 1 IAC
      [TELQUAL_SEND, ENV_USERVAR, 65]).1.past = true := by
  rw [← Bool.not_eq_false, env_opt_within_iff]
  decide +kernel

end

end Inetutils.Telnet.Environ
