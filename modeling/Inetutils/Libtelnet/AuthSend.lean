import Inetutils.Lib.Attempts
import Mathlib.Data.UInt

/-! # The answer to AUTH SEND

`auth_send` and `auth_send_retry` of `libtelnet/auth.c`, in the client. The list of the server is
saved when it is new, and a retry goes on in what was saved, with the pointer and the count that the
last call left. An access outside of the bytes that were saved has no result, and no more has a
count that leaves the `int`. -/

namespace Inetutils.Libtelnet.AuthSend

open Lib.Attempts List

abbrev Byte := UInt8

/-- What of `TN_Authenticator` is used; `send` is whether it has one. -/
structure TNAuthenticator where
  type : ℤ
  way : ℤ
  send : Bool

/-- What a call finds: the masks, the table of the authenticators, what `send ()` returns for the
pair at a place of the list, and what the machine makes of a shift that C does not define. -/
structure Env where
  i_support : BitVec 32
  i_wont_support : BitVec 32
  authenticators : List TNAuthenticator
  sends : ℕ → Bool
  shift : Byte → BitVec 32

/-- A type, a way, and the place of the two bytes in the list. -/
abbrev Pair := Byte × Byte × ℕ

def typemask (env : Env) (x : Byte) : BitVec 32 :=
  if 1 ≤ x ∧ x < 32 then 1#32 <<< (x.toNat - 1) else env.shift x

/-- **`findauthenticator`**: the table ends at type 0. -/
def findauthenticator (type way : ℤ) : List TNAuthenticator → Option TNAuthenticator
  | [] => none
  | ap :: l =>
    if ap.type = 0 then none
    else if ap.type ≠ type ∨ ap.way ≠ way then findauthenticator type way l
    else some ap

def enabled (env : Env) (p : Pair) : Bool :=
  (env.i_support &&& ~~~env.i_wont_support) &&& typemask env p.1 != 0 &&
    (findauthenticator p.1.toNat p.2.1.toNat env.authenticators).any (·.send)

def Env.chooser (env : Env) : Chooser Pair := ⟨enabled env, fun p => env.sends p.2.2⟩

inductive Act
  | send (p : Pair)
  | net_write (l : List Byte)
  | auth_finished
  deriving DecidableEq

/-- `str_none`: IAC, SB, TELOPT_AUTHENTICATION, TELQUAL_IS, AUTHTYPE_NULL, 0, IAC, SE. -/
def str_none : List Byte := [255, 250, 37, 0, 0, 0, 255, 240]

/-- Where `data` points: to bytes elsewhere, or into `_auth_send_data`. -/
inductive Data
  | elsewhere (l : List Byte)
  | saved (off : ℕ)

/-- `_auth_send_data` holds the bytes that were saved last; what of the 256 stands behind them is
older. -/
structure Statics where
  _auth_send_data : List Byte
  auth_send_data : Data
  auth_send_cnt : ℤ

/-- `while ((auth_send_cnt -= 2) >= 0)`, and the rejection behind it, with the pointer and the count
that are left. -/
def scan (env : Env) (s : List Byte) (off : ℕ) (cnt : ℤ) : Option (ℕ × ℤ × List Act) :=
  if cnt - 2 < -2 ^ 31 then none
  else if 0 ≤ cnt - 2 then
    match s[off]?, s[off + 1]? with
    | some type, some way =>
      if enabled env (type, way, off) then
        if env.sends off then some (off + 2, cnt - 2, [.send (type, way, off)])
        else (scan env s (off + 2) (cnt - 2)).map fun r =>
          (r.1, r.2.1, .send (type, way, off) :: r.2.2)
      else scan env s (off + 2) (cnt - 2)
    | _, _ => none
  else some (off, cnt - 2, [.net_write str_none, .auth_finished])
termination_by cnt.toNat

/-- What `scan` leaves. -/
def finish (s : List Byte) (r : ℕ × ℤ × List Act) : Statics × List Act :=
  (⟨s, .saved r.1, r.2.1⟩, r.2.2)

/-- **`auth_send`**: `cnt > sizeof (_auth_send_data)` compares as `size_t`. -/
def auth_send (server : Bool) (env : Env) (data : Data) (cnt : ℤ) (st : Statics) :
    Option (Statics × List Act) :=
  if server then some (st, [])
  else
    match data with
    | .elsewhere l =>
      let n := if cnt < 0 ∨ 256 < cnt then 256 else cnt
      if l.length < n then none else (scan env (l.take n.toNat) 0 n).map (finish (l.take n.toNat))
    | .saved off =>
      if 256 < off then none
      else (scan env st._auth_send_data off cnt).map (finish st._auth_send_data)

/-- **`auth_send_retry`** -/
def auth_send_retry (env : Env) (st : Statics) : Option (Statics × List Act) :=
  auth_send false env st.auth_send_data st.auth_send_cnt st

def retries : Statics → List Env → Option (List (List Act))
  | _, [] => some []
  | st, env :: envs => do
    let (st, acts) ← auth_send_retry env st
    let rest ← retries st envs
    return acts :: rest

/-- A list that an `int` can count. -/
abbrev Payload := { l : List Byte // l.length < 2 ^ 31 }

def session (st : Statics) (l : Payload) (env : Env) (envs : List Env) :
    Option (List (List Act)) := do
  let (st, acts) ← auth_send false env (.elsewhere l.1) l.1.length st
  let rest ← retries st envs
  return acts :: rest

/-! ### The list of the server -/

def pairs : ℕ → List Byte → List Pair
  | off, type :: way :: l => (type, way, off) :: pairs (off + 2) l
  | _, _ => []

/-- What a call does, when it tries these, and one of them is accepted or none. -/
def acts (r : List Pair × Bool) : List Act :=
  r.1.map .send ++ if r.2 then [] else [.net_write str_none, .auth_finished]

/-- The calls go through the pairs of the first 256 bytes in their order and try those that are
enabled, each place at most once, and a call that finds none sends the rejection. -/
def Right (l : Payload) (envs : List Env) (result : Option (List (List Act))) : Prop :=
  ∃ rs, result = some (rs.map acts) ∧ Session (envs.map Env.chooser) (pairs 0 (l.1.take 256)) rs ∧
    ((rs.flatMap Prod.fst).map fun p => p.2.2).Pairwise (· < ·)

theorem pairs_of_lt {off : ℕ} {l : List Byte} (h : l.length < 2) : pairs off l = [] := by
  match l, h with
  | [], _ => rfl
  | [_], _ => rfl

theorem le_of_mem_pairs {p : Pair} : ∀ {off : ℕ} {l : List Byte}, p ∈ pairs off l → off ≤ p.2.2
  | off, type :: way :: l, h => by
    rcases mem_cons.1 h with rfl | h
    · exact le_rfl
    · have := le_of_mem_pairs h
      omega

theorem pairwise_pairs : ∀ (off : ℕ) (l : List Byte),
    ((pairs off l).map fun p => p.2.2).Pairwise (· < ·)
  | _, [] => .nil
  | _, [_] => .nil
  | off, type :: way :: l => by
    refine pairwise_cons.2 ⟨fun n hn => ?_, pairwise_pairs (off + 2) l⟩
    obtain ⟨p, hp, rfl⟩ := mem_map.1 hn
    exact Nat.lt_of_lt_of_le (Nat.lt_add_of_pos_right Nat.two_pos) (le_of_mem_pairs hp)

/-! ### The statics between two calls -/

/-- The pairs that are left are `l`, and the rejection was sent `k` times. -/
structure Stands (s : List Byte) (off : ℕ) (cnt : ℤ) (l : List Pair) (k : ℕ) : Prop where
  size : s.length ≤ 256
  off_le : off ≤ s.length
  left : l = pairs off (s.drop off)
  cnt_eq : cnt = s.length - off - 2 * k
  done : 0 < k → s.length < off + 2

section
variable {env : Env} {s : List Byte} {off : ℕ} {cnt : ℤ} {l : List Pair} {k : ℕ}

variable (env) in
theorem scan_end (h : Stands s off cnt l k) (hlt : s.length < off + 2) (hk : k + 1 ≤ 2 ^ 30) :
    scan env s off cnt = some (off, cnt - 2, acts ([], false)) ∧
    Stands s off (cnt - 2) [] (k + 1) := by
  have hcnt := h.cnt_eq
  have hle := h.off_le
  constructor
  · rw [scan, if_neg (by omega), if_neg (by omega)]
    rfl
  · refine ⟨h.size, h.off_le, ?_, by omega, fun _ => hlt⟩
    rw [pairs_of_lt (by rw [length_drop]; omega)]

theorem scan_none (h : Stands s off cnt l k) (hk : 2 ^ 30 < k + 1) : scan env s off cnt = none := by
  have hcnt := h.cnt_eq
  have hlt := h.done (by omega)
  rw [scan, if_pos (by omega)]

theorem Stands.left_of_lt (h : Stands s off cnt l k) (hlt : s.length < off + 2) : l = [] := by
  rw [h.left, pairs_of_lt (by rw [length_drop]; omega)]

theorem Stands.cons (h : Stands s off cnt l 0) (hle : off + 2 ≤ s.length) :
    ∃ type way rest, s[off]? = some type ∧ s[off + 1]? = some way ∧ l = (type, way, off) :: rest ∧
      Stands s (off + 2) (cnt - 2) rest 0 := by
  have hcnt := h.cnt_eq
  have hdrop : s.drop off = s[off] :: s[off + 1] :: s.drop (off + 2) := by
    rw [drop_eq_getElem_cons (by omega), drop_eq_getElem_cons (i := off + 1) (by omega)]
  refine ⟨s[off], s[off + 1], pairs (off + 2) (s.drop (off + 2)), getElem?_eq_getElem _,
    getElem?_eq_getElem _, ?_, h.size, hle, rfl, by push_cast; omega, nofun⟩
  rw [h.left, hdrop]
  rfl

theorem scan_first (env : Env) : ∀ (n off : ℕ) {cnt : ℤ} {l : List Pair},
    s.length - off = n → Stands s off cnt l 0 → ∃ off' cnt', scan env s off cnt =
        some (off', cnt', acts ((attempt env.chooser l).1, (attempt env.chooser l).2.isSome)) ∧
      Stands s off' cnt' ((attempt env.chooser l).2.getD [])
      (if (attempt env.chooser l).2.isSome then 0 else 1) := by
  intro n
  induction n using Nat.strong_induction_on with
  | _ n ih =>
    intro off cnt l hn h
    by_cases hlt : s.length < off + 2
    · have ⟨hscan, hafter⟩ := scan_end env h hlt (by omega)
      rw [h.left_of_lt hlt]
      exact ⟨_, _, hscan, hafter⟩
    · obtain ⟨type, way, rest, htype, hway, rfl, hrest⟩ := h.cons (by omega)
      have hcnt := h.cnt_eq
      rw [scan, if_neg (by omega), if_pos (by omega), htype, hway]
      dsimp only
      unfold attempt
      by_cases hworth : enabled env (type, way, off)
      · rw [if_pos hworth, if_pos (c := env.chooser.worth _ = true) hworth]
        by_cases hsends : env.sends off
        · rw [if_pos hsends, if_pos (c := env.chooser.accepts (type, way, off) = true) hsends]
          exact ⟨_, _, rfl, hrest⟩
        · obtain ⟨off', cnt', hscan, hafter⟩ := ih _ (by omega) (off + 2) rfl hrest
          rw [if_neg hsends,
            if_neg (c := env.chooser.accepts (type, way, off) = true) hsends, hscan]
          exact ⟨off', cnt', rfl, hafter⟩
      · rw [if_neg hworth, if_neg (c := env.chooser.worth _ = true) hworth]
        exact ih _ (by omega) (off + 2) rfl hrest

/-- **A call at any time**: it comes to the end of the list, or leaves what it found. -/
theorem scan_eq (env : Env) (h : Stands s off cnt l k)
    (hk : k + (if (attempt env.chooser l).2.isSome then 0 else 1) ≤ 2 ^ 30) :
    ∃ off' cnt', scan env s off cnt =
        some (off', cnt', acts ((attempt env.chooser l).1, (attempt env.chooser l).2.isSome)) ∧
      Stands s off' cnt' ((attempt env.chooser l).2.getD [])
        (k + if (attempt env.chooser l).2.isSome then 0 else 1) := by
  rcases Nat.eq_zero_or_pos k with rfl | hpos
  · rw [zero_add]
    exact scan_first env _ off rfl h
  · have hlt := h.done hpos
    obtain rfl := h.left_of_lt hlt
    have ⟨hscan, hafter⟩ := scan_end env h hlt hk
    exact ⟨_, _, hscan, hafter⟩

theorem retries_eq (envs : List Env) (h : Stands s off cnt l k) (hk : k ≤ 2 ^ 30) :
    retries ⟨s, .saved off, cnt⟩ envs =
      if k + failures (envs.map Env.chooser) l ≤ 2 ^ 30
        then some ((attempts (envs.map Env.chooser) l).map acts) else none := by
  induction envs generalizing off cnt l k with
  | nil => exact (if_pos hk).symm
  | cons env envs ih =>
    rw [map_cons, failures, attempts, retries, auth_send_retry, auth_send,
      if_neg Bool.false_ne_true]
    rw [if_neg (Nat.not_lt.2 (h.off_le.trans h.size))]
    by_cases hnext : k + (if (attempt env.chooser l).2.isSome then 0 else 1) ≤ 2 ^ 30
    · obtain ⟨off', cnt', hscan, hafter⟩ := scan_eq env h hnext
      have ih := ih hafter hnext
      rw [add_assoc] at ih
      rw [hscan]
      change (retries ⟨s, .saved off', cnt'⟩ envs >>= fun rest => some (_ :: rest)) = _
      rw [ih]
      split_ifs <;> rfl
    · have hnone : scan env s off cnt = none := scan_none h (by split_ifs at hnext <;> omega)
      rw [hnone, if_neg (by omega)]
      rfl

end

/-! ### A session -/

theorem session_eq (st : Statics) (l : Payload) (env : Env) (envs : List Env) :
    session st l env envs =
      if failures ((env :: envs).map Env.chooser) (pairs 0 (l.1.take 256)) ≤ 2 ^ 30
        then some ((attempts ((env :: envs).map Env.chooser) (pairs 0 (l.1.take 256))).map acts)
          else none := by
  -- the AUTH SEND does what a retry does that finds the whole list
  have hretry : session st l env envs =
    retries ⟨l.1.take 256, .saved 0, (l.1.take 256).length⟩ (env :: envs) := by
    have hn : (if (l.1.length : ℤ) < 0 ∨ 256 < (l.1.length : ℤ) then 256 else (l.1.length : ℤ)) =
        (l.1.take 256).length := by
      rw [length_take]
      split_ifs <;> omega
    have htake :
        l.1.take (l.1.take 256).length = l.1.take 256 := by rw [length_take, ← take_eq_take_min]
    have hle : ¬ (l.1.length : ℤ) < (l.1.take 256).length := by
      rw [length_take]
      omega
    rw [session, auth_send, if_neg Bool.false_ne_true]
    rw [hn, if_neg hle, Int.toNat_natCast, htake]
    rfl
  rw [hretry, retries_eq (env :: envs) (l := pairs 0 (l.1.take 256)) (k := 0) ?_ (Nat.zero_le _),
    Nat.zero_add]
  exact ⟨length_take_le _ _, Nat.zero_le _, rfl, by simp, nofun⟩

/-- **The client tries the pairs in their order and rejects when none is left**, in any session,
just in case it does not reject more than 2 ^ 30 times. -/
theorem session_iff (st : Statics) (l : Payload) (env : Env) (envs : List Env) :
    Right l (env :: envs) (session st l env envs) ↔
      failures ((env :: envs).map Env.chooser) (pairs 0 (l.1.take 256)) ≤ 2 ^ 30 := by
  rw [session_eq]
  constructor
  · rintro ⟨rs, hresult, -⟩
    by_contra hlt
    rw [if_neg hlt] at hresult
    cases hresult
  · intro hle
    have hsession := attempts_spec ((env :: envs).map Env.chooser) (pairs 0 (l.1.take 256))
    rw [if_pos hle]
    exact ⟨_, rfl, hsession, (pairwise_pairs _ _).sublist (hsession.sublist.map _)⟩

/-! ### After the list is exhausted -/

def noAuthenticator : Env := ⟨0, 0, [], fun _ => false, fun _ => 0⟩

/-- **The count cannot bear every number of retries**: with an empty list, 2 ^ 30 retries after the
rejection. -/
theorem not_right_exhausted : ¬ ∀ st l env envs, Right l (env :: envs) (session st l env envs) := by
  intro h
  obtain ⟨rs, hresult, -⟩ :=
    h ⟨[], .elsewhere [], 0⟩ ⟨[], by decide⟩ noAuthenticator
      (List.replicate (2 ^ 30) noAuthenticator)
  rw [session_eq, if_neg] at hresult
  · cases hresult
  · rw [take_nil, pairs_of_lt (l := []) Nat.two_pos, failures_nil, length_map, length_cons,
      length_replicate]
    omega

end Inetutils.Libtelnet.AuthSend
