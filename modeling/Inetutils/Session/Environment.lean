import Inetutils.Telnet.Environ
import Inetutils.Telnet.Triplets
import Inetutils.Telnetd.Environ
import Inetutils.Telnetd.Segments

/-! # The environment sent to the server

What the client sends for a list of variables is a suboption whose payload lists them (`sent_eq`).
In it the strings are coded twice: the codes of the option are preceded by `ENV_ESC`, and `IAC` is
doubled. The server undoes the one in `telrcv` and the other in `suboption`, and makes one call for
each variable (`environ_round_trip`). -/

namespace Inetutils.Session.Environment

open Lib.Cyclic Telnet.Proto Telnet.Items Telnet.Automaton List
open Telnet.Environ Telnetd.Environ
open Telnetd.Telrcv (Server Rcv Event serveStream subbufferSize)

structure Var where
  name : CString
  value : Option CString
  ne : name.bytes ≠ []

def Var.call (v : Var) : Call :=
  match v.value with
  | some val => .setenv v.name.bytes val.bytes
  | none => .unsetenv v.name.bytes

/-! ### The payload -/

def stuff (c : Byte) : List Byte :=
  if c = NEW_ENV_VAR ∨ c = NEW_ENV_VALUE ∨ c = ENV_ESC ∨ c = ENV_USERVAR then [ENV_ESC, c] else [c]

def text (s : List Byte) : List Byte := s.flatMap stuff

def tag (v : Var) : Byte := if optWelldefined v.name then NEW_ENV_VAR else ENV_USERVAR

def body (v : Var) : List Byte :=
  text v.name.bytes ++ match v.value with
    | some val => NEW_ENV_VALUE :: text val.bytes
    | none => []

def payload (vs : List Var) : List Byte :=
  [TELOPT_NEW_ENVIRON, TELQUAL_IS] ++ vs.flatMap fun v => tag v :: body v

/-! ### What the server makes of it -/

section
variable {subend : ℕ}

def done (subend : ℕ) (e : Env) : Env := e.loop TELOPT_NEW_ENVIRON subend (subend - e.subpointer)

theorem turn_subpointer (subend : ℕ) (e : Env) :
    e.subpointer < (e.turn TELOPT_NEW_ENVIRON subend).subpointer := by
  unfold Env.turn Env.putc
  dsimp only
  split_ifs <;> dsimp only <;> omega

theorem loop_of_le : ∀ (n : ℕ) (e : Env), subend - e.subpointer ≤ n →
    e.loop TELOPT_NEW_ENVIRON subend n = done subend e
  | 0, e, h => by
    unfold done
    rw [Nat.le_zero.mp h]
  | n + 1, e, h => by
    unfold done
    by_cases hlt : e.subpointer < subend
    · have hturn := turn_subpointer subend e
      obtain ⟨k, hk⟩ : ∃ k, subend - e.subpointer = k + 1 := ⟨_, (Nat.succ_pred (by omega)).symm⟩
      rw [hk, Env.loop, Env.loop, if_pos hlt, if_pos hlt, loop_of_le n _ (by omega),
        loop_of_le k _ (by omega)]
    · rw [show subend - e.subpointer = 0 by omega]
      exact if_neg hlt

variable {e : Env} {l : List Byte}

theorem done_turn (h : e.subpointer < subend) :
    done subend e = done subend (e.turn TELOPT_NEW_ENVIRON subend) := by
  obtain ⟨k, hk⟩ : ∃ k, subend - e.subpointer = k + 1 := ⟨_, (Nat.succ_pred (by omega)).symm⟩
  have hturn := turn_subpointer subend e
  conv_lhs => unfold done
  rw [hk, Env.loop, if_pos h, loop_of_le k _ (by omega)]

theorem done_end (h : subend ≤ e.subpointer) : done subend e = e := by
  unfold done
  rw [show subend - e.subpointer = 0 by omega, Env.loop]

/-- What is in the buffer from a place on, up to the end of the suboption. -/
def Ahead (subend : ℕ) (e : Env) (l : List Byte) : Prop :=
  read e.mem e.subpointer l.length = l ∧ e.subpointer + l.length = subend

theorem Ahead.cons {c : Byte} (h : Ahead subend e (c :: l)) :
    e.subpointer < subend ∧ e.mem e.subpointer = c ∧
      read e.mem (e.subpointer + 1) l.length = l ∧ e.subpointer + 1 + l.length = subend := by
  obtain ⟨h1, h2⟩ := h
  rw [length_cons] at h1 h2
  rw [read_succ, List.cons.injEq] at h1
  exact ⟨by omega, h1.1, h1.2, by omega⟩

theorem done_stuff {c : Byte} (h : Ahead subend e (stuff c ++ l)) (hcp : e.cp ≤ e.subpointer) :
    ∃ e' : Env, done subend e = done subend e' ∧ Ahead subend e' l ∧
      e'.subpointer = e.subpointer + (stuff c).length ∧
      e' = { e with mem := write e.mem e.cp [c], cp := e.cp + 1, subpointer := e'.subpointer } := by
  unfold stuff at h ⊢
  split_ifs at h ⊢ with hc
  · -- the code is preceded by `ENV_ESC`
    replace h : Ahead subend e (ENV_ESC :: c :: l) := h
    obtain ⟨hlt, hesc, hrest, hend⟩ := h.cons
    rw [length_cons] at hrest hend
    rw [read_succ, List.cons.injEq] at hrest
    refine ⟨_, done_turn hlt, ?_⟩
    have hturn : e.turn TELOPT_NEW_ENVIRON subend = { e with
        mem := write e.mem e.cp [c], cp := e.cp + 1, subpointer := e.subpointer + 1 + 1 } := by
      unfold Env.turn Env.putc
      rw [hesc, ← hrest.1]
      dsimp only
      rw [if_neg (by decide), if_neg (by decide), if_pos (by decide), if_neg (by omega)]
    rw [hturn]
    refine ⟨⟨?_, ?_⟩, rfl, rfl⟩
    · show read (write e.mem e.cp [c]) (e.subpointer + 1 + 1) l.length = l
      rw [read_write_of_disjoint _ _ (.inr (by simp; omega))]
      exact hrest.2
    · show e.subpointer + 1 + 1 + l.length = subend
      omega
  · replace h : Ahead subend e (c :: l) := h
    obtain ⟨hlt, hmem, hrest, hend⟩ := h.cons
    refine ⟨_, done_turn hlt, ?_⟩
    have hturn : e.turn TELOPT_NEW_ENVIRON subend = { e with
        mem := write e.mem e.cp [c], cp := e.cp + 1, subpointer := e.subpointer + 1 } := by
      have htag : envTag TELOPT_NEW_ENVIRON c = c := if_neg (by decide)
      rw [not_or, not_or, not_or] at hc
      unfold Env.turn Env.putc
      rw [hmem, htag]
      rw [if_neg hc.2.1, if_neg (fun h => h.elim hc.1 hc.2.2.2), if_neg hc.2.2.1]
    rw [hturn]
    refine ⟨⟨?_, hend⟩, rfl, rfl⟩
    rw [read_write_of_disjoint _ _ (.inr (by simp; omega))]
    exact hrest

theorem length_stuff (c : Byte) : 1 ≤ (stuff c).length := by
  unfold stuff
  split_ifs <;> simp

theorem done_text (t : List Byte) (h : Ahead subend e (text t ++ l)) (hcp : e.cp ≤ e.subpointer) :
    ∃ e' : Env, done subend e = done subend e' ∧ Ahead subend e' l ∧ e'.cp ≤ e'.subpointer ∧
      e' = { e with
        mem := write e.mem e.cp t, cp := e.cp + t.length, subpointer := e'.subpointer } := by
  induction t generalizing e with
  | nil => exact ⟨e, rfl, h, hcp, by rw [write_nil]; rfl⟩
  | cons c t ih =>
    obtain ⟨e1, hdone, hahead, hptr, he1⟩ := done_stuff (c := c) (l := text t ++ l)
      (by rwa [← append_assoc]) hcp
    have hle := length_stuff c
    have hcp1 : e1.cp = e.cp + 1 := by rw [he1]
    obtain ⟨e2, hdone2, hahead2, hcp2, he2⟩ := ih hahead (by omega)
    refine ⟨e2, hdone.trans hdone2, hahead2, hcp2, he2.trans ?_⟩
    rw [he1]
    rw [show c :: t = [c] ++ t from rfl, write_append, length_append, add_assoc]
    rfl

theorem cString_eq {mem : ℕ → Byte} {p : ℕ} {s : List Byte}
    (h : read mem p (s.length + 1) = s ++ [0])
    (hs : 0 ∉ s) (hp : p + s.length < subbufferSize) : cString mem p = s := by
  obtain ⟨k, hk⟩ : ∃ k, subbufferSize - p = s.length + 1 + k :=
    ⟨_, (Nat.add_sub_of_le (by omega)).symm⟩
  unfold cString
  rw [hk, read_add, h, append_assoc, takeWhile_append_of_pos]
  · simp
  · intro c hc
    have hne : c ≠ 0 := fun h0 => hs (h0 ▸ hc)
    simpa using hne

theorem cString_write (mem : ℕ → Byte) (p : ℕ) (s : CString)
    (hp : p + s.bytes.length < subbufferSize) :
    cString (write (write mem p s.bytes) (p + s.bytes.length) [0]) p = s.bytes := by
  rw [← write_append]
  refine cString_eq ?_ s.nul hp
  have h := read_write mem p (s.bytes ++ [0])
  rwa [length_append] at h

theorem done_body (v : Var) (h : Ahead subend e (body v ++ l)) (hcp : e.cp = e.subpointer)
    (hvarp : e.varp = e.subpointer) (hvalp : e.valp = none) (hsub : subend < subbufferSize) :
    ∃ e' : Env, done subend e = done subend e' ∧ Ahead subend e' l ∧ e'.cp ≤ e'.subpointer ∧
      e'.calls = e.calls ∧ e'.call = v.call := by
  obtain ⟨name, value, hne⟩ := v
  rcases value with _ | val
  · rw [show body ⟨name, none, hne⟩ = text name.bytes from append_nil _] at h
    obtain ⟨e1, hdone, hahead, hcp1, he1⟩ := done_text name.bytes h hcp.le
    have hend := hahead.2
    have hcp1' : e1.cp = e.cp + name.bytes.length := by rw [he1]
    refine ⟨e1, hdone, hahead, hcp1, by rw [he1], ?_⟩
    rw [he1]
    unfold Env.call Var.call
    rw [hvalp, hvarp, ← hcp]
    dsimp only
    rw [cString_write _ _ _ (by omega)]
  · rw [show body ⟨name, some val, hne⟩ =
      text name.bytes ++ NEW_ENV_VALUE :: text val.bytes from rfl, append_assoc, cons_append] at h
    obtain ⟨e1, hdone1, hahead1, hcp1, he1⟩ := done_text name.bytes h hcp.le
    obtain ⟨hlt, hmem, hrest, hend⟩ := hahead1.cons
    have hcp1' : e1.cp = e.cp + name.bytes.length := by rw [he1]
    have hmem1 : e1.mem = write e.mem e.cp name.bytes := by rw [he1]
    have hturn : e1.turn TELOPT_NEW_ENVIRON subend = { e1 with
        mem := write e1.mem e1.cp [0], subpointer := e1.subpointer + 1, cp := e1.subpointer + 1
        valp := some (e1.subpointer + 1) } := by
      unfold Env.turn
      rw [hmem]
      rfl
    have hahead2 : Ahead subend (e1.turn TELOPT_NEW_ENVIRON subend) (text val.bytes ++ l) := by
      rw [hturn]
      refine ⟨?_, hend⟩
      rw [read_write_of_disjoint _ _ (.inr (by simp; omega))]
      exact hrest
    obtain ⟨e3, hdone3, hahead3, hcp3, he3⟩ := done_text val.bytes hahead2 (by rw [hturn])
    have hend3 := hahead3.2
    have hcp3' : e3.cp = e1.subpointer + 1 + val.bytes.length := by rw [he3, hturn]
    refine ⟨e3, (hdone1.trans (done_turn hlt)).trans hdone3, hahead3, hcp3, ?_, ?_⟩
    · rw [he3, hturn, he1]
    · rw [he3, hturn]
      unfold Env.call Var.call
      dsimp only
      rw [cString_write _ _ _ (by omega), show e1.varp = e.cp by rw [he1, hcp]; exact hvarp]
      congr 1
      -- the name ends before the value begins
      refine cString_eq ?_ name.nul (by omega)
      rw [read_write_of_disjoint _ _ (.inl (by omega)),
        read_write_of_disjoint _ _ (.inl (by omega)), hmem1, hcp1', ← write_append]
      have h := read_write e.mem e.cp (name.bytes ++ [0])
      rwa [length_append] at h

theorem done_tag (v : Var) (h : Ahead subend e (tag v :: l)) (hcp : e.cp ≤ e.subpointer) :
    ∃ e' : Env, done subend e = done subend e' ∧ Ahead subend e' l ∧ e'.cp = e'.subpointer ∧
      e'.varp = e'.subpointer ∧ e'.valp = none ∧ e'.calls = e.calls ++ [e.call] := by
  obtain ⟨hlt, hmem, hrest, hend⟩ := h.cons
  have hturn : e.turn TELOPT_NEW_ENVIRON subend =
      { mem := write e.mem e.cp [0], subpointer := e.subpointer + 1, cp := e.subpointer + 1
        varp := e.subpointer + 1, valp := none, calls := e.calls ++ [e.call] } := by
    unfold Env.turn
    rw [hmem]
    unfold tag
    split_ifs <;> rfl
  refine ⟨_, done_turn hlt, ?_⟩
  rw [hturn]
  refine ⟨⟨?_, hend⟩, rfl, rfl, rfl, rfl⟩
  rw [read_write_of_disjoint _ _ (.inr (by simp; omega))]
  exact hrest

theorem done_vars (vs : List Var) {v : Var}
    (h : Ahead subend e (body v ++ vs.flatMap fun v => tag v :: body v)) (hcp : e.cp = e.subpointer)
    (hvarp : e.varp = e.subpointer) (hvalp : e.valp = none) (hsub : subend < subbufferSize) :
    (done subend e).calls ++ [(done subend e).call] = e.calls ++ (v :: vs).map Var.call := by
  induction vs generalizing v e with
  | nil =>
    obtain ⟨e1, hdone, hahead, -, hcalls, hcall⟩ := done_body v h hcp hvarp hvalp hsub
    have hend : subend ≤ e1.subpointer := hahead.2.symm.le
    rw [hdone, done_end hend, hcalls, hcall]
    rfl
  | cons w vs ih =>
    obtain ⟨e1, hdone1, hahead1, hcp1, hcalls1, hcall1⟩ := done_body v h hcp hvarp hvalp hsub
    obtain ⟨e2, hdone2, hahead2, hcp2, hvarp2, hvalp2, hcalls2⟩ := done_tag w hahead1 hcp1
    rw [hdone1, hdone2, ih hahead2 hcp2 hvarp2 hvalp2, hcalls2, hcalls1, hcall1, append_assoc]
    rfl

end

theorem suboption_payload (vs : List Var) (rest : ℕ → Byte) (hlen : (payload vs).length ≤ 510) :
    suboption (payload vs) rest = vs.map Var.call := by
  rcases vs with _ | ⟨v, vs⟩
  · rfl
  obtain ⟨l, hl⟩ : ∃ l, l = body v ++ vs.flatMap fun v => tag v :: body v := ⟨_, rfl⟩
  have hpay : payload (v :: vs) = TELOPT_NEW_ENVIRON :: TELQUAL_IS :: tag v :: l := by
    rw [hl]; rfl
  have hread : read (received (payload (v :: vs)) rest) 0 (payload (v :: vs)).length =
      payload (v :: vs) := read_write ..
  rw [hpay] at hread hlen ⊢
  obtain ⟨mem, hmem⟩ :
    ∃ mem, mem = received (TELOPT_NEW_ENVIRON :: TELQUAL_IS :: tag v :: l) rest :=
    ⟨_, rfl⟩
  rw [← hmem] at hread
  simp only [length_cons, read_succ, List.cons.injEq, zero_add] at hread hlen
  obtain ⟨h0, h1, h2, h3⟩ := hread
  have htag : envTag TELOPT_NEW_ENVIRON (tag v) = NEW_ENV_VAR ∨ tag v = ENV_USERVAR := by
    unfold tag
    split_ifs <;> decide
  have hskip : skip TELOPT_NEW_ENVIRON (l.length + 1 + 1 + 1) mem (l.length + 1 + 1 + 1) 2 = 3 := by
    rw [skip, if_pos (by omega), h2, if_pos htag]
  unfold suboption environ
  rw [if_neg (by simp), ← hmem, if_pos (.inl h0), h0]
  simp only [length_cons]
  rw [if_neg (by omega), h1, if_neg (by decide), hskip]
  have hne : l ≠ [] := by
    rw [hl]
    unfold body text
    obtain ⟨c, t, hct⟩ := exists_cons_of_ne_nil v.ne
    have := length_stuff c
    rw [hct, flatMap_cons]
    intro h
    have hlen := congrArg List.length h
    simp only [length_append, length_nil] at hlen
    omega
  have hpos := length_pos_of_ne_nil hne
  rw [if_neg (by omega)]
  have hahead : Ahead (l.length + 1 + 1 + 1) ⟨mem, 3, 3, 3, none, []⟩
      (body v ++ vs.flatMap fun v => tag v :: body v) := by
    rw [← hl]
    exact ⟨h3, by show 3 + l.length = _; omega⟩
  have hvars := done_vars vs hahead rfl rfl rfl (by show _ < 512; omega)
  rw [loop_of_le _ _ (by omega)]
  exact hvars

/-! ### What the client sends -/

theorem coded_eq (c : Byte) : coded c = escape (stuff c) := by
  revert c
  exact Telnet.Triplets.forall_byte (by decide +kernel)

theorem coded_text (s : List Byte) : s.flatMap coded = escape (text s) := by
  induction s with
  | nil => rfl
  | cons c s ih =>
    rw [flatMap_cons, ih, coded_eq, ← escape_append]
    rfl

theorem codedVar_eq (v : Var) : codedVar v.name v.value = escape (tag v :: body v) := by
  have htag : escape [tag v] = [tag v] := by
    unfold tag
    split_ifs <;> rfl
  rw [show tag v :: body v = [tag v] ++ body v from rfl, escape_append, htag]
  unfold codedVar body
  rw [coded_text, escape_append]
  rcases v.value with _ | val
  · rfl
  · show _ :: _ ++ NEW_ENV_VALUE :: val.bytes.flatMap coded = _
    rw [coded_text]
    rfl

/-- `env_opt_start`, `env_opt_add` for each variable, and `env_opt_end`. -/
def reply (grants : ℕ → Bool) (vs : List Var) : Reply :=
  envOptEnd true ((envOptStart grants).adds grants (vs.map fun v => (v.name, v.value)))

/-- **What is sent is the payload as a suboption.** -/
theorem bytes_reply {grants : ℕ → Bool} {vs : List Var} (h : (reply grants vs).past = false) :
    (reply grants vs).bytes = [IAC, SB] ++ (escape (payload vs) ++ [IAC, SE]) := by
  by_cases hg : grants optReplySize = true
  · have hstart : envOptStart grants =
        ⟨true, [IAC, SB, TELOPT_NEW_ENVIRON, TELQUAL_IS], optReplySize, false⟩ := by
      unfold envOptStart
      rw [if_pos hg]
      rfl
    have hroom := (past_adds grants true (vs.map fun v => (v.name, v.value))
      (r := ⟨true, [IAC, SB, TELOPT_NEW_ENVIRON, TELQUAL_IS], optReplySize, false⟩) rfl
      (by decide) rfl).mp (by unfold reply at h; rwa [hstart] at h)
    have hbytes := (bytes_adds true _ (by rfl) hroom).2
    unfold reply
    rw [hstart, envOptEnd_true, bytes_puts, hbytes, flatMap_map]
    have hcoded : (vs.flatMap fun v => codedVar v.name v.value) =
        escape (vs.flatMap fun v => tag v :: body v) := by
      clear hroom hbytes h
      induction vs with
      | nil => rfl
      | cons v vs ih => rw [flatMap_cons, flatMap_cons, ih, codedVar_eq, escape_append]
    rw [hcoded]
    unfold payload
    rw [escape_append, append_assoc]
    rfl
  · unfold reply envOptStart at h
    rw [if_neg hg, adds_not_live rfl] at h
    exact absurd ((past_finish_null false true).symm.trans h) (by decide)

/-! ### What the server receives -/

section
variable {σ : Type*} (srv : Server σ)

theorem serve_cons {r : Rcv σ} {c : Byte} (h : r.looksAhead srv c = false) (l : List Byte) :
    serveStream srv r (c :: l) =
      ((serveStream srv (r.receive srv c).1 l).1,
        (r.receive srv c).2 ++ (serveStream srv (r.receive srv c).1 l).2) := by
  have hturn : Telnetd.Telrcv.turn srv r c l = ((r.receive srv c).1, (r.receive srv c).2, l) := by
    unfold Telnetd.Telrcv.turn
    rw [if_neg (by rw [h]; exact Bool.false_ne_true)]
  rw [Telnetd.Segments.serveStream_cons, hturn]

theorem serve_sub (sub : List Byte) (s : σ) {c : Byte} (hc : c ≠ IAC)
    (hlen : sub.length < subbufferSize)
    (l : List Byte) :
    serveStream srv ⟨.SB, sub, s⟩ (c :: l) = serveStream srv ⟨.SB, sub ++ [c], s⟩ l := by
  rw [serve_cons srv (by simp [Rcv.looksAhead])]
  have hr : Rcv.receive srv ⟨.SB, sub, s⟩ c = (⟨.SB, sub ++ [c], s⟩, []) := by
    unfold Rcv.receive
    dsimp only
    rw [if_neg hc, sbAccum, if_pos hlen]
  rw [hr]
  rfl

theorem serve_escape (p : List Byte) (sub : List Byte) (s : σ)
    (hlen : sub.length + p.length ≤ subbufferSize) (l : List Byte) :
    serveStream srv ⟨.SB, sub, s⟩ (escape p ++ l) = serveStream srv ⟨.SB, sub ++ p, s⟩ l := by
  induction p generalizing sub with
  | nil => rw [append_nil]; rfl
  | cons c p ih =>
    rw [length_cons] at hlen
    have hih := ih (sub ++ [c]) (by rw [length_append, length_singleton]; omega)
    rw [append_assoc, singleton_append] at hih
    rw [show escape (c :: p) = escape [c] ++ escape p from escape_append [c] p, append_assoc, ← hih]
    by_cases hc : c = IAC
    · subst hc
      show serveStream srv _ (IAC :: IAC :: (escape p ++ l)) = _
      rw [serve_cons srv (by simp [Rcv.looksAhead])]
      have hr : Rcv.receive srv ⟨.SB, sub, s⟩ IAC = (⟨.SE, sub, s⟩, []) := rfl
      rw [hr, serve_cons srv (by simp [Rcv.looksAhead])]
      have hr' : Rcv.receive srv ⟨.SE, sub, s⟩ IAC = (⟨.SB, sub ++ [IAC], s⟩, []) := by
        unfold Rcv.receive
        dsimp only
        rw [if_neg (by decide), if_pos rfl, sbAccum, if_pos (by omega)]
      rw [hr']
      rfl
    · rw [show escape [c] = [c] by simp [escape, hc]]
      exact serve_sub srv sub s hc (by omega) _

theorem serve_suboption (r : Rcv σ) (hr : r.state = .DATA) (p : List Byte) (hlen : p.length ≤ 510) :
    (serveStream srv r ([IAC, SB] ++ (escape p ++ [IAC, SE]))).2 =
      .act (.suboption p) :: (srv.handle (.suboption p) r.server).2.map .pty := by
  obtain ⟨st, sub, s⟩ := r
  obtain rfl : st = .DATA := hr
  show (serveStream srv _ (IAC :: SB :: (escape p ++ [IAC, SE]))).2 = _
  rw [serve_cons srv (by simp [Rcv.looksAhead, IAC, CR])]
  have h1 : Rcv.receive srv ⟨.DATA, sub, s⟩ IAC = (⟨.IAC, sub, s⟩, []) := rfl
  rw [h1, serve_cons srv (by simp [Rcv.looksAhead])]
  have h2 : Rcv.receive srv ⟨.IAC, sub, s⟩ SB = (⟨.SB, [], s⟩, []) := rfl
  rw [h2, serve_escape srv p [] s (by simp only [length_nil]; show _ ≤ 512; omega), nil_append,
    serve_cons srv (by simp [Rcv.looksAhead])]
  have h3 : Rcv.receive srv ⟨.SB, p, s⟩ IAC = (⟨.SE, p, s⟩, []) := rfl
  rw [h3, serve_cons srv (by simp [Rcv.looksAhead]), Telnetd.Segments.serveStream_nil]
  have hterm : sbTerm subbufferSize p SE = p := by
    unfold sbTerm sbAccum
    rw [if_pos (show p.length < 512 by omega),
      if_pos (by rw [length_append]; show p.length + 1 < 512; omega)]
    simp
  have h4 : (Rcv.receive srv ⟨.SE, p, s⟩ SE).2 =
      .act (.suboption p) :: (srv.handle (.suboption p) s).2.map .pty := by
    unfold Rcv.receive Rcv.suboption Rcv.call
    rw [if_pos rfl]
    rw [hterm]
  rw [h4]
  simp

/-- **The environment arrives as it was sent**: the reply for a list of variables, if it fits, is
handed over as one suboption, for which the server makes a call for each variable, in their
order. -/
theorem environ_round_trip (grants : ℕ → Bool) (vs : List Var)
    (hfits : (reply grants vs).past = false)
    (hlen : (payload vs).length ≤ 510) (r : Rcv σ) (hr : r.state = .DATA) (rest : ℕ → Byte) :
    ∃ p, (serveStream srv r (reply grants vs).bytes).2 =
        .act (.suboption p) :: (srv.handle (.suboption p) r.server).2.map .pty ∧
      suboption p rest = vs.map Var.call := by
  refine ⟨payload vs, ?_, suboption_payload vs rest hlen⟩
  rw [bytes_reply hfits]
  exact serve_suboption srv r hr _ hlen

end

/-- A server that does nothing but call `suboption`. -/
def quiet : Server Unit :=
  ⟨fun _ => false, fun _ => false, fun _ => false, fun _ => false, fun _ s => (s, [])⟩

/-- The codes of the option and `IAC` in a value, an empty value, and no value. -/
theorem environ_round_trip_codes :
    ∃ p, (serveStream quiet ⟨.DATA, [], ()⟩ (reply (fun _ => true)
        [⟨⟨[65, 255], by decide⟩, some ⟨[1, 255, 2, 3], by decide⟩, by decide⟩,
          ⟨⟨[3], by decide⟩, some ⟨[], by decide⟩, by decide⟩,
          ⟨⟨[74, 79, 66], by decide⟩, none, by decide⟩]).bytes).2 =
        .act (.suboption p) :: (quiet.handle (.suboption p) ()).2.map .pty ∧
      suboption p (fun _ => 7) =
        [.setenv [65, 255] [1, 255, 2, 3], .setenv [3] [], .unsetenv [74, 79, 66]] :=
  environ_round_trip quiet (fun _ => true) _ (by decide +kernel) (by decide +kernel) _ rfl _

end Inetutils.Session.Environment
