import Inetutils.Telnet.Options
import Inetutils.Telnetd.Options

/-! # The negotiation of an option

The client and the server negotiate one option, over two queues of option commands; either may ask
for a change at any time, and messages cross. The option is one that both accept without a special
case, in the directions in which it is negotiated (`agreeable`), and no side has a hundred requests
open.

A direction of the option is a talk between the two programs (`talk`): the side of `DO` and `DONT`
of one and the side of `WILL` and `WONT` of the other, with the messages about it. Each step of the
session is a step of one of the two talks and leaves the other (`clientAct_talk`, `serverAct_talk`),
so the negotiation ends, and in agreement (`negotiation_settles`). -/

namespace Inetutils.Session.Negotiation

open Lib Lib.Runs List
open Lib.Agreement (Talk requestA deliverA deliverA_nil deliverA_cons)
open Telnet.Proto Telnet.Items Telnet.Sides
open Telnet.Options (Client Req)
open Telnetd.Options (Server)

abbrev Msg := Verb × Byte

/-! ### The session -/

/-- The option commands among what the client puts into `netoring`. -/
def clientMsgs (l : List Req) : List Msg :=
  l.filterMap fun r => match r with
    | .option v o => some (v, o)
    | _ => none

def serverMsgs (l : List Item) : List Msg :=
  l.filterMap fun it => match it with
    | .option v o => some (v, o)
    | _ => none

variable {ρ τ : Type*}

structure Peers (ρ τ : Type*) where
  client : Client ρ
  server : Server τ
  toClient : List Msg
  toServer : List Msg
  sentToClient : List Msg
  sentToServer : List Msg

inductive Peer
  | client
  | server

/-- A peer calls `send_do` (and so on) with `init` set, or handles the first message on its way to
it. -/
inductive Op
  | initiate (p : Peer) (d : Dir) (n : Bool)
  | deliver (p : Peer)

def Peers.clientAct (f : Client ρ → Client ρ) (s : Peers ρ τ) : Peers ρ τ :=
  let c := f { s.client with out := [] }
  { s with
    client := c
    toServer := s.toServer ++ clientMsgs c.out
    sentToServer := s.sentToServer ++ clientMsgs c.out }

def Peers.serverAct (f : Server τ → Server τ) (s : Peers ρ τ) : Peers ρ τ :=
  let sv := f { s.server with out := [] }
  { s with
    server := sv
    toClient := s.toClient ++ serverMsgs sv.out
    sentToClient := s.sentToClient ++ serverMsgs sv.out }

section
variable (env : Telnet.Options.Rest ρ) (env' : Telnetd.Options.Rest τ)

open Telnet.Options in
def clientReceive : Msg → Client ρ → Client ρ
  | (.WILL, o) => willoption env o
  | (.WONT, o) => wontoption env o
  | (.DO, o) => dooption env o
  | (.DONT, o) => dontoption env o

open Telnetd.Options in
def serverReceive : Msg → Server τ → Server τ
  | (.WILL, o) => willoption env' o
  | (.WONT, o) => wontoption env' o
  | (.DO, o) => dooption env' o
  | (.DONT, o) => dontoption env' o

def step (o : Byte) (s : Peers ρ τ) : Op → Peers ρ τ
  | .initiate .client d n => s.clientAct (Client.send d n o true)
  | .initiate .server d n => s.serverAct (Server.send d n o true)
  | .deliver .client =>
    match s.toClient with
    | [] => s
    | m :: l => { s with toClient := l }.clientAct (clientReceive env m)
  | .deliver .server =>
    match s.toServer with
    | [] => s
    | m :: l => { s with toServer := l }.serverAct (serverReceive env' m)

end

def start (c : Client ρ) (sv : Server τ) : Peers ρ τ :=
  ⟨{ c with options := .off }, { sv with options := .off }, [], [], [], []⟩

def opp : Dir → Dir
  | .doDont => .willWont
  | .willWont => .doDont

/-- Both accept the option in the direction that is the side `d` of the client. -/
def agreeable (o : Byte) (d : Dir) : Bool :=
  Telnet.Options.plain d o && Telnetd.Options.plain (opp d) o

def few (x : Side) (n : Bool) : Prop := x.declines n ∨ x.resp.toNat + 1 < 100

/-- The directions in which a change may be initiated, and how often. -/
def ok (o : Byte) (s : Peers ρ τ) : Op → Prop
  | .initiate .client d n => agreeable o d = true ∧ few (s.client.options.side d o) n
  | .initiate .server d n => agreeable o (opp d) = true ∧ few (s.server.options.side d o) n
  | .deliver _ => True

instance (x : Side) (n : Bool) : Decidable (few x n) := inferInstanceAs (Decidable (_ ∨ _))

instance (o : Byte) (s : Peers ρ τ) : ∀ op : Op, Decidable (ok o s op)
  | .initiate .client _ _ => inferInstanceAs (Decidable (_ ∧ _))
  | .initiate .server _ _ => inferInstanceAs (Decidable (_ ∧ _))
  | .deliver _ => inferInstanceAs (Decidable True)

/-! ### The talks -/

def dirOf : Verb → Dir × Bool
  | .DO => (.doDont, true)
  | .DONT => (.doDont, false)
  | .WILL => (.willWont, true)
  | .WONT => (.willWont, false)

/-- What the messages say about the side `d` of the sender. -/
def heard (d : Dir) (l : List Msg) : List Bool :=
  l.filterMap fun m => if (dirOf m.1).1 = d then some (dirOf m.1).2 else none

/-- The talk about the side `d` of the client. -/
def Peers.talk (o : Byte) (d : Dir) (s : Peers ρ τ) : Talk where
  a := (s.client.options.side d o).party
  b := (s.server.options.side (opp d) o).party
  toA := heard (opp d) s.toClient
  toB := heard d s.toServer
  sent := (heard (opp d) s.sentToClient).length + (heard d s.sentToServer).length

@[simp] theorem dirOf_verb (d : Dir) (n : Bool) : dirOf (d.verb n) = (d, n) := by
  cases d <;> cases n <;> rfl

@[simp] theorem opp_opp (d : Dir) : opp (opp d) = d := by cases d <;> rfl

@[simp] theorem heard_nil (d : Dir) : heard d [] = [] := rfl

@[simp] theorem heard_append (d : Dir) (l l' : List Msg) :
    heard d (l ++ l') = heard d l ++ heard d l' := filterMap_append

@[simp] theorem heard_verb (d : Dir) (n : Bool) (o : Byte) : heard d [(d.verb n, o)] = [n] := by
  simp [heard]

theorem heard_verb_of_ne {d d' : Dir} (h : d' ≠ d) (n : Bool) (o : Byte) :
    heard d' [(d.verb n, o)] = [] := by
  simp [heard, Ne.symm h]

theorem length_heard (l : List Msg) :
    (heard .doDont l).length + (heard .willWont l).length = l.length := by
  induction l with
  | nil => rfl
  | cons m l ih =>
    obtain ⟨v, o⟩ := m
    cases v <;> simp only [heard, dirOf, filterMap_cons, reduceCtorEq, if_true, if_false,
      length_cons] at ih ⊢ <;> omega

theorem heard_cons (m : Msg) (l : List Msg) :
    heard (dirOf m.1).1 (m :: l) = (dirOf m.1).2 :: heard (dirOf m.1).1 l := by
  simp [heard]

theorem heard_cons_of_ne {d : Dir} {m : Msg} (h : d ≠ (dirOf m.1).1) (l : List Msg) :
    heard d (m :: l) = heard d l := by
  simp [heard, Ne.symm h]

/-! ### Steps -/

section
variable {g : Side → Bool → Side × Bool} {o : Byte} {d : Dir} {n : Bool} {s : Peers ρ τ}

variable {f : Client ρ → Client ρ} {m : Msg}

theorem clientMsgs_act (h : Telnet.Options.ActsOn g d n o f) (c : Client ρ) :
    clientMsgs (f { c with out := [] }).out =
      if (g (c.options.side d o) n).2 then [(d.verb n, o)] else [] := by
  rw [(h _).2]
  cases (g (c.options.side d o) n).2 <;> rfl

theorem serverMsgs_act {f : Server τ → Server τ} (h : Telnetd.Options.ActsOn g d n o f)
    (sv : Server τ) :
    serverMsgs (f { sv with out := [] }).out =
      if (g (sv.options.side d o) n).2 then [(d.verb n, o)] else [] := by
  rw [(h _).2]
  cases (g (sv.options.side d o) n).2 <;> rfl

theorem heard_said (r : Bool) :
    heard d (if r then [(d.verb n, o)] else []) = if r then [n] else [] := by
  cases r <;> simp

theorem heard_said_of_ne {d' : Dir} (hne : d' ≠ d) (r : Bool) :
    heard d' (if r then [(d.verb n, o)] else []) = [] := by
  cases r <;> simp [heard_verb_of_ne hne]

/-- **An act of the client is one in the talk about its side**, and in no other. -/
theorem clientAct_talk (h : Telnet.Options.ActsOn g d n o f) :
    let p := g (s.client.options.side d o) n
    let said := if p.2 then [n] else []
    (s.clientAct f).talk o d =
        { s.talk o d with
          a := p.1.party
          toB := (s.talk o d).toB ++ said
          sent := (s.talk o d).sent + said.length } ∧
      ∀ d' ≠ d, (s.clientAct f).talk o d' = s.talk o d' := by
  have htable := (h { s.client with out := [] }).1
  have hmsgs := clientMsgs_act h s.client
  intro p said
  constructor
  · simp only [Peers.talk, Peers.clientAct, htable, hmsgs, side_set, heard_append, heard_said,
      length_append, add_assoc, p, said]
  · intro d' hne
    simp only [Peers.talk, Peers.clientAct, htable, hmsgs, side_set_of_dir_ne _ _ _ hne,
      heard_append, heard_said_of_ne hne, append_nil]

/-- **So is one of the server**, in the talk about the side of the client that it is about. -/
theorem serverAct_talk {f : Server τ → Server τ} (h : Telnetd.Options.ActsOn g d n o f) :
    let p := g (s.server.options.side d o) n
    let said := if p.2 then [n] else []
    (s.serverAct f).talk o (opp d) =
        { s.talk o (opp d) with
          b := p.1.party
          toA := (s.talk o (opp d)).toA ++ said
          sent := (s.talk o (opp d)).sent + said.length } ∧
      ∀ d' ≠ opp d, (s.serverAct f).talk o d' = s.talk o d' := by
  have htable := (h { s.server with out := [] }).1
  have hmsgs := serverMsgs_act h s.server
  intro p said
  constructor
  · simp only [Peers.talk, Peers.serverAct, htable, hmsgs, opp_opp, side_set,
      heard_append, heard_said, length_append, add_right_comm, p, said]
  · intro d' hne
    have hne : opp d' ≠ d := fun h0 => hne (by rw [← h0, opp_opp])
    simp only [Peers.talk, Peers.serverAct, htable, hmsgs, side_set_of_dir_ne _ _ _ hne,
      heard_append, heard_said_of_ne hne, append_nil]

theorem mem_said {l : List Msg} {x : Msg} {r : Bool} (h : m ∈ l ++ if r then [x] else []) :
    m ∈ l ∨ m = x :=
  (mem_append.mp h).imp_right fun hm => by cases r <;> simp_all

theorem mem_clientAct (h : Telnet.Options.ActsOn g d n o f) (hm : m ∈ (s.clientAct f).toServer) :
    m ∈ s.toServer ∨ m = (d.verb n, o) := by
  rw [show (s.clientAct f).toServer = s.toServer ++ _ from rfl, clientMsgs_act h s.client] at hm
  exact mem_said hm

theorem mem_serverAct {f : Server τ → Server τ} (h : Telnetd.Options.ActsOn g d n o f)
    (hm : m ∈ (s.serverAct f).toClient) : m ∈ s.toClient ∨ m = (d.verb n, o) := by
  rw [show (s.serverAct f).toClient = s.toClient ++ _ from rfl, serverMsgs_act h s.server] at hm
  exact mem_said hm

end

variable (env : Telnet.Options.Rest ρ) (env' : Telnetd.Options.Rest τ)

open Telnet.Options in
theorem clientReceive_acts {v : Verb} {o : Byte} (h : plain (opp (dirOf v).1) o = true) :
    ActsOn Side.receive (opp (dirOf v).1) (dirOf v).2 o (clientReceive env (v, o)) :=
  match v, h with
  | .WILL, h => willoption_plain env h
  | .WONT, h => wontoption_plain env h
  | .DO, h => dooption_plain env h
  | .DONT, h => dontoption_plain env h

open Telnetd.Options in
theorem serverReceive_acts {v : Verb} {o : Byte} (h : plain (opp (dirOf v).1) o = true) :
    ActsOn Side.receive (opp (dirOf v).1) (dirOf v).2 o (serverReceive env' (v, o)) :=
  match v, h with
  | .WILL, h => willoption_plain env' h
  | .WONT, h => wontoption_plain env' h
  | .DO, h => dooption_plain env' h
  | .DONT, h => dontoption_plain env' h

theorem agreeable_ne_TM {o : Byte} {d : Dir} (h : agreeable o d = true) : o ≠ TELOPT_TM := by
  rintro rfl
  cases d <;> exact absurd h (by decide)

/-- What is on the way is about the option, in a direction in which both accept it. -/
structure Inv (o : Byte) (s : Peers ρ τ) : Prop where
  talks : ∀ d, Agreement.Inv (s.talk o d)
  toClient : ∀ m ∈ s.toClient, m.2 = o ∧ agreeable o (opp (dirOf m.1).1) = true
  toServer : ∀ m ∈ s.toServer, m.2 = o ∧ agreeable o (dirOf m.1).1 = true

def Op.inTalk : Op → Agreement.Op
  | .initiate .client _ n => .request .a n
  | .initiate .server _ n => .request .b n
  | .deliver .client => .deliver .a
  | .deliver .server => .deliver .b

section
variable {o : Byte} {s : Peers ρ τ}

/-- `s'` is `s` after a step of the talk about `d`. -/
structure TalkStep (o : Byte) (s s' : Peers ρ τ) (d : Dir) (op : Agreement.Op) : Prop where
  talk : s'.talk o d = Agreement.step (s.talk o d) op
  others : ∀ d' ≠ d, s'.talk o d' = s.talk o d'

theorem deliver_client {v : Verb} {l : List Msg} (hl : s.toClient = (v, o) :: l)
    (hag : agreeable o (opp (dirOf v).1) = true) :
    TalkStep o s (step env env' o s (.deliver .client)) (opp (dirOf v).1) (.deliver .a) := by
  obtain ⟨hpl, -⟩ := Bool.and_eq_true_iff.mp hag
  obtain ⟨h1, h2⟩ := clientAct_talk (s := { s with toClient := l })
    (clientReceive_acts env hpl)
  refine ⟨?_, fun d' hd' => ?_⟩ <;> simp only [step, hl]
  · have htoA : (s.talk o (opp (dirOf v).1)).toA = (dirOf v).2 :: heard (dirOf v).1 l := by
      simp only [Peers.talk, hl, opp_opp]
      exact heard_cons (v, o) l
    show _ = deliverA _
    rw [h1, deliverA_cons htoA]
    simp only [Peers.talk, party_receive, opp_opp]
  · have hne : opp d' ≠ (dirOf v).1 := fun h0 => hd' (by rw [← h0, opp_opp])
    rw [h2 d' hd']
    simp only [Peers.talk, hl, heard_cons_of_ne (m := (v, o)) hne]

theorem deliver_server {v : Verb} {l : List Msg} (hl : s.toServer = (v, o) :: l)
    (hag : agreeable o (dirOf v).1 = true) :
    TalkStep o s (step env env' o s (.deliver .server)) (dirOf v).1 (.deliver .b) := by
  obtain ⟨-, hpl⟩ := Bool.and_eq_true_iff.mp hag
  obtain ⟨h1, h2⟩ := serverAct_talk (s := { s with toServer := l })
    (serverReceive_acts env' hpl)
  rw [opp_opp] at h1 h2
  refine ⟨?_, fun d' hd' => ?_⟩ <;> simp only [step, hl]
  · have htoA : (s.talk o (dirOf v).1).swap.toA = (dirOf v).2 :: heard (dirOf v).1 l := by
      simp only [Peers.talk, Talk.swap, hl]
      exact heard_cons (v, o) l
    show _ = (deliverA _).swap
    rw [h1, deliverA_cons htoA]
    simp only [Peers.talk, Talk.swap, party_receive]
  · rw [h2 d' hd']
    simp only [Peers.talk, hl, heard_cons_of_ne (m := (v, o)) hd']

theorem initiate_client {d : Dir} {n : Bool} (hfew : few (s.client.options.side d o) n) :
    TalkStep o s (step env env' o s (.initiate .client d n)) d (.request .a n) := by
  obtain ⟨h1, h2⟩ := clientAct_talk (s := s) (Telnet.Options.send_request d n o)
  have hreq := party_request (hfew.imp_right fun h0 => h0.trans (by decide))
  refine ⟨?_, h2⟩
  show (s.clientAct _).talk o d = requestA n _
  rw [h1, requestA, show (s.talk o d).a = (s.client.options.side d o).party from rfl, hreq]

theorem initiate_server {d : Dir} {n : Bool} (hag : agreeable o (opp d) = true)
    (hfew : few (s.server.options.side d o) n) :
    TalkStep o s (step env env' o s (.initiate .server d n)) (opp d) (.request .b n) := by
  obtain ⟨h1, h2⟩ :=
    serverAct_talk (s := s) (Telnetd.Options.send_request (agreeable_ne_TM hag) d n)
  have hreq := party_request (hfew.imp_right fun h0 => h0.trans (by decide))
  refine ⟨?_, h2⟩
  have hb : (s.talk o (opp d)).swap.a = (s.server.options.side d o).party := by
    simp only [Peers.talk, Talk.swap, opp_opp]
  show (s.serverAct _).talk o (opp d) = (requestA n _).swap
  rw [h1, requestA, hb, hreq]; rfl

/-- **A step of the session is a step of one of the talks.** -/
theorem step_talk (h : Inv o s) : ∀ op : Op, ok o s op →
    ∃ d, TalkStep o s (step env env' o s op) d op.inTalk
  | .initiate .client d n, ⟨_, hfew⟩ => ⟨d, initiate_client env env' hfew⟩
  | .initiate .server d n, ⟨hag, hfew⟩ => ⟨opp d, initiate_server env env' hag hfew⟩
  | .deliver .client, _ => by
    cases hl : s.toClient with
    | nil =>
      have hnil : (s.talk o .doDont).toA = [] := by simp [Peers.talk, hl]
      refine ⟨.doDont, ?_, fun d' _ => ?_⟩ <;> simp only [step, hl]
      exact (deliverA_nil hnil).symm
    | cons m l =>
      obtain ⟨v, o'⟩ := m
      obtain ⟨ho, hag⟩ := h.toClient (v, o') (by rw [hl]; exact mem_cons_self)
      obtain rfl : o' = o := ho
      exact ⟨_, deliver_client env env' hl hag⟩
  | .deliver .server, _ => by
    cases hl : s.toServer with
    | nil =>
      have hnil : (s.talk o .doDont).swap.toA = [] := by simp [Peers.talk, Talk.swap, hl]
      refine ⟨.doDont, ?_, fun d' _ => ?_⟩ <;> simp only [step, hl]
      exact congrArg Talk.swap (deliverA_nil hnil).symm
    | cons m l =>
      obtain ⟨v, o'⟩ := m
      obtain ⟨ho, hag⟩ := h.toServer (v, o') (by rw [hl]; exact mem_cons_self)
      obtain rfl : o' = o := ho
      exact ⟨_, deliver_server env env' hl hag⟩

theorem step_channels (h : Inv o s) (op : Op) (hok : ok o s op) :
    let s' := step env env' o s op
    (∀ m ∈ s'.toClient, m.2 = o ∧ agreeable o (opp (dirOf m.1).1) = true) ∧
      ∀ m ∈ s'.toServer, m.2 = o ∧ agreeable o (dirOf m.1).1 = true := by
  match op, hok with
  | .initiate .client d n, ⟨hag, _⟩ =>
    refine ⟨h.toClient, fun m hm => ?_⟩
    rcases mem_clientAct (Telnet.Options.send_request d n o) hm with hm | rfl
    · exact h.toServer m hm
    · simpa using hag
  | .initiate .server d n, ⟨hag, _⟩ =>
    refine ⟨fun m hm => ?_, h.toServer⟩
    rcases mem_serverAct (Telnetd.Options.send_request (agreeable_ne_TM hag) d n) hm with hm | rfl
    · exact h.toClient m hm
    · simpa using hag
  | .deliver .client, _ =>
    cases hl : s.toClient with
    | nil => simp only [step, hl]; exact ⟨by simp, h.toServer⟩
    | cons m l =>
      obtain ⟨v, o'⟩ := m
      obtain ⟨ho, hag⟩ := h.toClient (v, o') (by rw [hl]; exact mem_cons_self)
      obtain rfl : o' = o := ho
      obtain ⟨hpl, -⟩ := Bool.and_eq_true_iff.mp hag
      simp only [step, hl]
      refine ⟨fun m hm => h.toClient m (by rw [hl]; exact mem_cons_of_mem _ hm), fun m hm => ?_⟩
      rcases mem_clientAct (clientReceive_acts env hpl) hm with hm | rfl
      · exact h.toServer m hm
      · simpa using hag
  | .deliver .server, _ =>
    cases hl : s.toServer with
    | nil => simp only [step, hl]; exact ⟨h.toClient, by simp⟩
    | cons m l =>
      obtain ⟨v, o'⟩ := m
      obtain ⟨ho, hag⟩ := h.toServer (v, o') (by rw [hl]; exact mem_cons_self)
      obtain rfl : o' = o := ho
      obtain ⟨-, hpl⟩ := Bool.and_eq_true_iff.mp hag
      simp only [step, hl]
      refine ⟨fun m hm => ?_, fun m hm => h.toServer m (by rw [hl]; exact mem_cons_of_mem _ hm)⟩
      rcases mem_serverAct (serverReceive_acts env' hpl) hm with hm | rfl
      · exact h.toClient m hm
      · simpa using hag

theorem inv_step (h : Inv o s) (op : Op) (hok : ok o s op) : Inv o (step env env' o s op) := by
  obtain ⟨d, ht⟩ := step_talk env env' h op hok
  obtain ⟨h1, h2⟩ := step_channels env env' h op hok
  refine ⟨fun d' => ?_, h1, h2⟩
  by_cases hd : d' = d
  · rw [hd, ht.talk]; exact Agreement.inv_step (h.talks d) _
  · rw [ht.others d' hd]; exact h.talks d'

theorem inv_start (o : Byte) (c : Client ρ) (sv : Server τ) : Inv o (start c sv) :=
  ⟨fun d => by cases d <;> exact Agreement.inv_start, fun _ hm => absurd hm not_mem_nil,
    fun _ hm => absurd hm not_mem_nil⟩

end

/-! ### The runs -/

def Peers.sent (s : Peers ρ τ) : ℕ := s.sentToClient.length + s.sentToServer.length

def Peers.flight (s : Peers ρ τ) : ℕ := s.toClient.length + s.toServer.length

/-- What is sent and what deliveries will still cause to be sent. -/
def Peers.due (o : Byte) (s : Peers ρ τ) : ℕ :=
  (s.talk o .doDont).sent + (s.talk o .doDont).owed +
    ((s.talk o .willWont).sent + (s.talk o .willWont).owed)

theorem sent_eq (o : Byte) (s : Peers ρ τ) :
    s.sent = (s.talk o .doDont).sent + (s.talk o .willWont).sent := by
  have h1 := length_heard s.sentToClient
  have h2 := length_heard s.sentToServer
  simp only [Peers.sent, Peers.talk, opp]
  omega

theorem due_le {o : Byte} {s : Peers ρ τ} (h : Inv o s) : s.due o ≤ s.sent + s.flight := by
  have h1 := Agreement.owed_le (h.talks .doDont)
  have h2 := Agreement.owed_le (h.talks .willWont)
  have h3 := length_heard s.toClient
  have h4 := length_heard s.toServer
  have h5 := sent_eq o s
  simp only [Peers.talk, opp] at h1 h2 h5
  simp only [Peers.due, Peers.flight, Peers.talk, opp]
  omega

theorem due_deliver {o : Byte} {s : Peers ρ τ} (h : Inv o s) (p : Peer) :
    (step env env' o s (.deliver p)).due o = s.due o := by
  obtain ⟨d, ht⟩ := step_talk env env' h (.deliver p) trivial
  have hpot : ((step env env' o s (.deliver p)).talk o d).sent +
      ((step env env' o s (.deliver p)).talk o d).owed = (s.talk o d).sent + (s.talk o d).owed := by
    rw [ht.talk]
    cases p <;> exact Agreement.deliver_potential (h.talks d) _
  unfold Peers.due
  cases d with
  | doDont => rw [hpot, ht.others .willWont (by decide)]
  | willWont => rw [hpot, ht.others .doDont (by decide)]

theorem sent_deliveries {o : Byte} {s : Peers ρ τ} (h : Inv o s) (ps : List Peer) :
    (run (step env env' o) s (ps.map .deliver)).sent ≤ s.sent + s.flight := by
  have hrun : ∀ (ps : List Peer) {s : Peers ρ τ}, Inv o s →
      Inv o (run (step env env' o) s (ps.map .deliver)) ∧
        (run (step env env' o) s (ps.map .deliver)).due o = s.due o := by
    intro ps
    induction ps with
    | nil => exact fun h => ⟨h, rfl⟩
    | cons p ps ih =>
      intro s h
      obtain ⟨h1, h2⟩ := ih (inv_step env env' h (.deliver p) trivial)
      exact ⟨h1, h2.trans (due_deliver env env' h p)⟩
  obtain ⟨-, hdue⟩ := hrun ps h
  have hle := due_le h
  have hsent := sent_eq o (run (step env env' o) s (ps.map .deliver))
  rw [← hdue] at hle
  unfold Peers.due at hle
  omega

/-- Both programs have the option in the same state, and no answer is awaited. -/
def Peers.Agreed (o : Byte) (s : Peers ρ τ) : Prop :=
  ∀ d, (s.client.options.side d o).resp = 0 ∧ (s.server.options.side (opp d) o).resp = 0 ∧
    (s.client.options.side d o).state = (s.server.options.side (opp d) o).state ∧
    (s.client.options.side d o).want = (s.server.options.side (opp d) o).want

theorem agreed_of_idle {o : Byte} {s : Peers ρ τ} (h : Inv o s) (h1 : s.toClient = [])
    (h2 : s.toServer = []) : s.Agreed o := by
  intro d
  obtain ⟨ha, hb, hw, hst, hbw⟩ :=
    (h.talks d).agree (by simp [Peers.talk, h1]) (by simp [Peers.talk, h2])
  exact ⟨resp_eq_zero.mpr ha, resp_eq_zero.mpr hb, hst.symm, hw.trans hbw.symm⟩

/-- **The negotiation ends, and in agreement**: in every run, from any moment on the deliveries send
no more messages than are on the way then, and with no message on the way the programs agree. -/
theorem negotiation_settles (env : Telnet.Options.Rest ρ) (env' : Telnetd.Options.Rest τ) (o : Byte)
    (c : Client ρ) (sv : Server τ) (ops : List Op)
    (h : Allowed (step env env' o) (ok o) (start c sv) ops) :
    let s := run (step env env' o) (start c sv) ops
    (∀ ps : List Peer, (run (step env env' o) s (ps.map .deliver)).sent ≤ s.sent + s.flight) ∧
      (s.toClient = [] → s.toServer = [] → s.Agreed o) := by
  have hinv : Inv o (run (step env env' o) (start c sv) ops) :=
    run_inv (I := Inv o) (fun _ op hs hok => inv_step env env' hs op hok) (inv_start o c sv) h
  exact ⟨sent_deliveries env env' hinv, agreed_of_idle hinv⟩

/-- Both ask for `BINARY` in both directions at once, and the client takes one request back. -/
def crossingOps : List Op :=
  [.initiate .client .doDont true, .initiate .server .willWont true, .initiate .server .doDont true,
    .initiate .client .willWont true, .deliver .client, .initiate .client .doDont false,
    .deliver .server, .deliver .server, .deliver .client, .deliver .server, .deliver .client]

def plainEnv : Telnet.Options.Rest Unit := ⟨id, fun _ => (), fun _ => none, fun _ => ((), none)⟩

def plainEnv' : Telnetd.Options.Rest Unit where
  ttyBinaryin _ := id
  ttyBinaryout _ := id
  ttySetecho _ := id
  ttySetlinemode _ := id
  ttyIsediting _ := false
  editmask _ := 0
  slcFlow _ := id
  settimer _ := id
  flowstat _ _ := ((), [])

theorem negotiation_settles_crossingOps :
    let c : Client Unit := ⟨.off, false, false, false, true, 0, [], ()⟩
    let sv : Server Unit := ⟨.off, true, 0, false, false, 0, false, [], ()⟩
    let s := run (step plainEnv plainEnv' TELOPT_BINARY) (start c sv) crossingOps
    s.sent = 6 ∧ s.Agreed TELOPT_BINARY := by
  intro c sv s
  have h := negotiation_settles plainEnv plainEnv' TELOPT_BINARY c sv crossingOps (by decide)
  exact ⟨by decide, h.2 (by decide) (by decide)⟩

end Inetutils.Session.Negotiation
