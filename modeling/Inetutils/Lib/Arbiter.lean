import Mathlib.Algebra.BigOperators.Group.List.Basic
import Mathlib.Algebra.Order.Ring.Int

/-! # Agreement with an arbiter

A client and a server each hold a value and send messages about it over two queues. The server
decides: of every change of its value it tells the client. The client, told of a value, takes it
over, or asks for the one it holds; and it asks for the value when it changes it by itself. What is
asked for is what the server has already, or the server answers.

* `Lawful` is what the rules of the two must keep to.
* `cost_hear`, `cost_answer`: a message causes less than its price in further messages, so that
  `cost`, which counts the messages sent and the ones still to be caused, grows only when a party
  acts by itself. -/

namespace Inetutils.Lib.Arbiter

open List

variable {γ σ μ ν ω : Type*}

/-- What the two hold, what the messages say, how many messages one may still cause, and what a
party does with a message. -/
structure Rules (γ σ μ ν ω : Type*) where
  client : γ → ω
  server : σ → ω
  asks : μ → Option ω
  tells : ν → ω
  causes : μ → ℕ
  causes' : ν → ℕ
  hear : γ → ν → γ × Option μ
  answer : σ → μ → σ × Option ν

/-- Whether a client that moves to `c'` and sends `u`, told of nothing, asks for the value it
holds. -/
def Rules.Asks (R : Rules γ σ μ ν ω) (u : Option μ) (c' : γ) : Prop :=
  u.bind R.asks = some (R.client c')

structure Lawful (R : Rules γ σ μ ν ω) (okC : γ → Prop) (okS : σ → Prop) (okU : μ → Prop) :
    Prop where
  ok_hear : ∀ {c d}, okC c → okC (R.hear c d).1
  ok_answer : ∀ {s u}, okS s → okU u → okS (R.answer s u).1
  ok_asked : ∀ {c d u}, okC c → (R.hear c d).2 = some u → okU u ∧ R.causes u < R.causes' d
  causes_answer : ∀ {s u d}, okS s → okU u → (R.answer s u).2 = some d → R.causes' d < R.causes u
  hear : ∀ {c d}, okC c → R.Asks (R.hear c d).2 (R.hear c d).1 ∨
    (R.hear c d).2.bind R.asks = none ∧ R.client (R.hear c d).1 = R.tells d
  answer_some : ∀ {s u d}, okS s → okU u → (R.answer s u).2 = some d →
    R.tells d = R.server (R.answer s u).1
  answer_none : ∀ {s u}, okS s → okU u → (R.answer s u).2 = none →
    R.server (R.answer s u).1 = R.server s ∧ ∀ v, R.asks u = some v → v = R.server s

structure Talk (γ σ μ ν : Type*) where
  client : γ
  server : σ
  toServer : List μ
  toClient : List ν
  sent : ℕ

/-- The client moves to `c` and sends `u`. -/
def Talk.ask (c : γ) (u : Option μ) (t : Talk γ σ μ ν) : Talk γ σ μ ν :=
  { t with client := c, toServer := t.toServer ++ u.toList, sent := t.sent + u.toList.length }

/-- The server moves to `s` and sends `d`. -/
def Talk.tell (s : σ) (d : Option ν) (t : Talk γ σ μ ν) : Talk γ σ μ ν :=
  { t with server := s, toClient := t.toClient ++ d.toList, sent := t.sent + d.toList.length }

/-- The client receives `d`, which was the first message on the way to it. -/
def Rules.heard (R : Rules γ σ μ ν ω) (d : ν) (l : List ν) (t : Talk γ σ μ ν) : Talk γ σ μ ν :=
  { t with toClient := l }.ask (R.hear t.client d).1 (R.hear t.client d).2

/-- The server receives `u`, which was the first message on the way to it. -/
def Rules.answered (R : Rules γ σ μ ν ω) (u : μ) (l : List μ) (t : Talk γ σ μ ν) : Talk γ σ μ ν :=
  { t with toServer := l }.tell (R.answer t.server u).1 (R.answer t.server u).2

/-- The messages sent, and those that the ones on the way may still cause. -/
def Rules.cost (R : Rules γ σ μ ν ω) (t : Talk γ σ μ ν) : ℕ :=
  t.sent + (t.toServer.map R.causes).sum + (t.toClient.map R.causes').sum

/-! ### The invariant -/

/-- The last message to the client tells what the server holds. With none, either the two agree or
the last request on the way to the server is for what the client holds. -/
structure Inv (R : Rules γ σ μ ν ω) (okC : γ → Prop) (okS : σ → Prop) (okU : μ → Prop)
    (t : Talk γ σ μ ν) : Prop where
  okC : okC t.client
  okS : okS t.server
  okU : ∀ u ∈ t.toServer, okU u
  told : ∀ d ∈ t.toClient.getLast?, R.tells d = R.server t.server
  asked : t.toClient = [] → R.client t.client = R.server t.server ∨
    (t.toServer.filterMap R.asks).getLast? = some (R.client t.client)

section
variable {R : Rules γ σ μ ν ω} {okC : γ → Prop} {okS : σ → Prop} {okU : μ → Prop}
  {t : Talk γ σ μ ν}

/-- **With nothing on the way the two hold the same value.** -/
theorem Inv.agree (h : Inv R okC okS okU t) (h1 : t.toClient = []) (h2 : t.toServer = []) :
    R.client t.client = R.server t.server := by
  rcases h.asked h1 with h3 | h3
  · exact h3
  · rw [h2] at h3
    cases h3

theorem getLast?_asks (l : List μ) (u : Option μ) :
    ((l ++ u.toList).filterMap R.asks).getLast? =
      (u.bind R.asks).or (l.filterMap R.asks).getLast? := by
  rw [filterMap_append, getLast?_append]
  rcases u with _ | u
  · rfl
  · rcases h : R.asks u with _ | v <;> simp [h]

theorem Inv.ask (h : Inv R okC okS okU t) {c : γ} {u : Option μ} (hc : okC c) (hu : ∀ v ∈ u, okU v)
    (hask : R.Asks u c ∨ u.bind R.asks = none ∧ R.client c = R.client t.client) :
    Inv R okC okS okU (t.ask c u) := by
  refine ⟨hc, h.okS, ?_, h.told, ?_⟩
  · intro v hv
    rcases mem_append.mp hv with hv | hv
    · exact h.okU v hv
    · exact hu v (Option.mem_toList.mp hv)
  · intro hnil
    show _ ∨ ((t.toServer ++ u.toList).filterMap R.asks).getLast? = some (R.client c)
    rw [getLast?_asks]
    rcases hask with hask | ⟨hnone, hsame⟩
    · right
      rw [show u.bind R.asks = _ from hask]; rfl
    · rw [hnone]
      show R.client c = _ ∨ (t.toServer.filterMap R.asks).getLast? = _
      rw [hsame]
      exact h.asked hnil

theorem Inv.tell (h : Inv R okC okS okU t) {s : σ} {d : Option ν} (hs : okS s)
    (htell : ∀ v ∈ d, R.tells v = R.server s)
    (hnone : d = none → R.server s = R.server t.server) : Inv R okC okS okU (t.tell s d) := by
  rcases d with _ | d
  · have hsame := hnone rfl
    have hnil : t.toClient ++ (none : Option ν).toList = t.toClient := append_nil _
    refine ⟨h.okC, hs, h.okU, ?_, ?_⟩
    · intro d hd
      exact (h.told d (by rwa [← hnil])).trans hsame.symm
    · intro h1
      show _ = R.server s ∨ _
      rw [hsame]
      exact h.asked (hnil ▸ h1)
  · refine ⟨h.okC, hs, h.okU, ?_, ?_⟩
    · intro v hv
      rw [show (t.tell s (some d)).toClient = t.toClient ++ [d] from rfl, getLast?_concat] at hv
      exact htell v hv
    · intro h1
      exact absurd h1 (by simp [Talk.tell])

theorem Inv.heard (L : Lawful R okC okS okU) (h : Inv R okC okS okU t) {d : ν} {l : List ν}
    (hd : t.toClient = d :: l) : Inv R okC okS okU (R.heard d l t) := by
  refine ⟨L.ok_hear h.okC, h.okS, ?_, ?_, ?_⟩
  · intro v hv
    rcases mem_append.mp hv with hv | hv
    · exact h.okU v hv
    · exact (L.ok_asked h.okC (Option.mem_toList.mp hv)).1
  · intro d' hd'
    refine h.told d' ?_
    rw [hd, getLast?_cons, show l.getLast? = some d' from hd']
    rfl
  · intro hnil
    have hl : l = [] := hnil
    have htold : R.tells d = R.server t.server := h.told d (by rw [hd, hl]; rfl)
    show _ ∨ ((t.toServer ++ _).filterMap R.asks).getLast? = _
    rw [getLast?_asks]
    rcases L.hear (d := d) h.okC with hask | ⟨-, htook⟩
    · right
      rw [show _ = some _ from hask]; rfl
    · exact .inl (htook.trans htold)

theorem Inv.answered (L : Lawful R okC okS okU) (h : Inv R okC okS okU t) {u : μ} {l : List μ}
    (hu : t.toServer = u :: l) : Inv R okC okS okU (R.answered u l t) := by
  have hok : okU u := h.okU u (by rw [hu]; exact mem_cons_self)
  have hokl : ∀ v ∈ l, okU v := fun v hv => h.okU v (by rw [hu]; exact mem_cons_of_mem _ hv)
  rcases hd : (R.answer t.server u).2 with _ | d
  · -- the value asked for is the one the server has, so that the request can go
    obtain ⟨hsame, hasks⟩ := L.answer_none h.okS hok hd
    have hrest : Inv R okC okS okU { t with toServer := l } := by
      refine ⟨h.okC, h.okS, hokl, h.told, ?_⟩
      intro hnil
      rcases h.asked hnil with h1 | h1
      · exact .inl h1
      · rw [hu] at h1
        rcases ha : R.asks u with _ | v
        · right
          rwa [filterMap_cons_none ha] at h1
        · rw [filterMap_cons_some ha, getLast?_cons] at h1
          rcases hl : (l.filterMap R.asks).getLast? with _ | w
          · rw [hl] at h1
            left
            exact (Option.some.inj h1).symm.trans (hasks v ha)
          · rw [hl] at h1
            exact .inr h1
    refine hrest.tell (L.ok_answer h.okS hok) ?_ fun _ => hsame
    intro v hv
    rw [hd] at hv
    cases hv
  · refine ⟨h.okC, L.ok_answer h.okS hok, hokl, ?_, ?_⟩
    · intro v hv
      have : (R.answered u l t).toClient = t.toClient ++ [d] := by
        show _ ++ _ = _
        rw [hd]; rfl
      rw [this, getLast?_concat] at hv
      cases hv
      exact L.answer_some h.okS hok hd
    · intro h1
      exact absurd h1 (by simp [Rules.answered, Talk.tell, hd])

/-! ### How many messages -/

theorem cost_ask (c : γ) (u : Option μ) :
    R.cost (t.ask c u) = R.cost t + (u.elim 0 fun v => R.causes v + 1) := by
  rcases u with _ | u
  · simp [Rules.cost, Talk.ask]
  · simp [Rules.cost, Talk.ask]; omega

theorem cost_tell (s : σ) (d : Option ν) :
    R.cost (t.tell s d) = R.cost t + (d.elim 0 fun v => R.causes' v + 1) := by
  rcases d with _ | d
  · simp [Rules.cost, Talk.tell]
  · simp [Rules.cost, Talk.tell]; omega

theorem cost_heard (L : Lawful R okC okS okU) (h : Inv R okC okS okU t) {d : ν} {l : List ν}
    (hd : t.toClient = d :: l) : R.cost (R.heard d l t) ≤ R.cost t := by
  have hcost : R.cost t = R.cost { t with toClient := l } + R.causes' d := by
    simp [Rules.cost, hd]; omega
  rw [hcost, Rules.heard, cost_ask]
  refine Nat.add_le_add_left ?_ _
  rcases hu : (R.hear t.client d).2 with _ | u
  · exact Nat.zero_le _
  · exact (L.ok_asked h.okC hu).2

theorem cost_answered (L : Lawful R okC okS okU) (h : Inv R okC okS okU t) {u : μ} {l : List μ}
    (hu : t.toServer = u :: l) : R.cost (R.answered u l t) ≤ R.cost t := by
  have hcost : R.cost t = R.cost { t with toServer := l } + R.causes u := by
    simp [Rules.cost, hu]; omega
  rw [hcost, Rules.answered, cost_tell]
  refine Nat.add_le_add_left ?_ _
  rcases hd : (R.answer t.server u).2 with _ | d
  · exact Nat.zero_le _
  · exact L.causes_answer h.okS (h.okU u (by rw [hu]; exact mem_cons_self)) hd

theorem sent_le_cost : t.sent ≤ R.cost t := by
  unfold Rules.cost
  omega

end

end Inetutils.Lib.Arbiter
