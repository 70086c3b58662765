import Inetutils.Lib.Mealy
import Mathlib.Order.WellFounded

/-! # A client and a server over two queues

A client sends items and waits for answers, of which it only looks at whether they are good; a
server takes one item after the other and answers each with a list. Items and answers are on the way
for as long as it pleases, and the two run in any order.

`Runs` is the run in which the server takes every item at once and in which every answer that the
client reads fits what it has sent. The server is sound as long as it took every item for what it
was. -/

namespace Inetutils.Lib.Exchange

open Mealy List

inductive Client (τ : Type*)
  | done
  | send (t : τ) (p : Client τ)
  | await (good bad : Client τ)

/-- What the server does with an item, whether an answer is a good one and fits what was sent, and
whether the server took everything for what it was. -/
structure Rules (σ τ ρ : Type*) where
  serve : σ → τ → σ × List ρ
  good : ρ → Bool
  fits : List τ → ρ → Bool
  sound : σ → Bool
  sound_of_serve : ∀ k t, sound (serve k t).1 → sound k

variable {σ τ ρ : Type*}

/-- `matched`: every answer that was read fits. -/
structure Sys (σ τ ρ : Type*) where
  client : Client τ
  sent : List τ
  flight : List τ
  server : σ
  back : List ρ
  matched : Bool

variable (R : Rules σ τ ρ)

def Rules.next (r : ρ) (good bad : Client τ) : Client τ := if R.good r then good else bad

inductive Step : Sys σ τ ρ → Sys σ τ ρ → Prop
  | send (t : τ) (p : Client τ) (sent flight : List τ) (k : σ) (back : List ρ) (m : Bool) :
    Step ⟨.send t p, sent, flight, k, back, m⟩ ⟨p, sent ++ [t], flight ++ [t], k, back, m⟩
  | serve (p : Client τ) (sent : List τ) (t : τ) (flight : List τ) (k : σ) (back : List ρ)
    (m : Bool) :
    Step ⟨p, sent, t :: flight, k, back, m⟩
    ⟨p, sent, flight, (R.serve k t).1, back ++ (R.serve k t).2, m⟩
  | read (a b : Client τ) (sent flight : List τ) (k : σ) (r : ρ) (back : List ρ) (m : Bool) :
    Step ⟨.await a b, sent, flight, k, r :: back, m⟩
    ⟨R.next r a b, sent, flight, k, back, m && R.fits sent r⟩

structure Rules.Kept (s : Sys σ τ ρ) : Prop where
  sound : R.sound s.server
  matched : s.matched
  answered : ∀ a b, s.client = .await a b → s.flight = [] → s.back ≠ []
  nothing_left : s.client = .done → s.flight = [] → s.back = []

/-- The run in which every item is taken at once. -/
def Rules.Runs : Client τ → σ → List τ → List ρ → Prop
  | .done, k, _, back => R.sound k ∧ back = []
  | .send t p, k, sent, back => Rules.Runs p (R.serve k t).1 (sent ++ [t]) (back ++ (R.serve k t).2)
  | .await _ _, _, _, [] => False
  | .await a b, k, sent, r :: back =>
    R.fits sent r ∧ (R.good r → Rules.Runs a k sent back) ∧ (¬ R.good r → Rules.Runs b k sent back)

/-! ### The run with everything taken -/

theorem Rules.Runs.sound : ∀ {p : Client τ} {k : σ} {sent : List τ} {back : List ρ},
    R.Runs p k sent back → R.sound k
  | .done, _, _, _, h => h.1
  | .send t p, k, _, _, h => R.sound_of_serve k t (Rules.Runs.sound (p := p) h)
  | .await a b, k, sent, r :: back, h => by
    by_cases hr : R.good r
    · exact Rules.Runs.sound (h.2.1 hr)
    · exact Rules.Runs.sound (h.2.2 hr)

theorem Rules.runs_await {a b : Client τ} {k : σ} {sent : List τ} {r : ρ} {back : List ρ} :
    R.Runs (.await a b) k sent (r :: back) ↔ R.fits sent r ∧ R.Runs (R.next r a b) k sent back := by
  rw [Rules.Runs, Rules.next]
  refine and_congr_right fun _ => ?_
  by_cases hr : R.good r
  · rw [if_pos hr]
    exact ⟨fun h => h.1 hr, fun h => ⟨fun _ => h, fun hn => absurd hr hn⟩⟩
  · rw [if_neg hr]
    exact ⟨fun h => h.2 hr, fun h => ⟨fun hp => absurd hp hr, fun _ => h⟩⟩

theorem Rules.sound_of_feed : ∀ (l : List τ) {k : σ}, R.sound (feed R.serve k l).1 → R.sound k
  | [], _, h => h
  | t :: l, k, h => R.sound_of_serve k t (Rules.sound_of_feed l h)

/-- What holds in every order: with everything on the way taken, the rest is a run. -/
structure Rules.Inv (s : Sys σ τ ρ) : Prop where
  matched : s.matched
  runs : R.Runs s.client (feed R.serve s.server s.flight).1 s.sent
    (s.back ++ (feed R.serve s.server s.flight).2)

variable {s s' : Sys σ τ ρ}

theorem Rules.Inv.step (h : R.Inv s) (hs : Step R s s') : R.Inv s' := by
  cases hs with
  | send t p sent flight k back m =>
    refine ⟨h.matched, ?_⟩
    have hruns := h.runs
    rw [Rules.Runs] at hruns
    rw [feed_append, feed_cons, feed_nil, append_nil, ← append_assoc]
    exact hruns
  | serve p sent t flight k back m =>
    refine ⟨h.matched, ?_⟩
    have hruns := h.runs
    rw [feed_cons, ← append_assoc] at hruns
    exact hruns
  | read a b sent flight k r back m =>
    have hruns := h.runs
    rw [cons_append, Rules.runs_await] at hruns
    refine ⟨?_, hruns.2⟩
    rw [hruns.1, Bool.and_true]
    exact h.matched

theorem Rules.Inv.kept (h : R.Inv s) : R.Kept s := by
  have hruns := h.runs
  refine ⟨R.sound_of_feed s.flight hruns.sound, h.matched, fun a b hp hf hb => ?_, fun hp hf => ?_⟩
  · rw [hp, hf, hb, feed_nil] at hruns
    exact hruns
  · rw [hp, hf, feed_nil, append_nil] at hruns
    exact hruns.2

/-! ### Every order -/

theorem Rules.runs_of_kept : ∀ (p : Client τ) (sent : List τ) (k : σ) (back : List ρ),
    (∀ s, Relation.ReflTransGen (Step R) ⟨p, sent, [], k, back, true⟩ s → R.Kept s) →
    R.Runs p k sent back
  | .done, sent, k, back, h => ⟨(h _ .refl).sound, (h _ .refl).nothing_left rfl rfl⟩
  | .send t p, sent, k, back, h => by
    refine Rules.runs_of_kept p _ _ _ fun s hs => h s ?_
    exact .head (.send t p sent [] k back true) (.head (.serve p (sent ++ [t]) t [] k back true) hs)
  | .await a b, sent, k, [], h => (h _ .refl).answered a b rfl rfl rfl
  | .await a b, sent, k, r :: back, h => by
    have hstep := Step.read (R := R) a b sent [] k r back true
    have hfits : R.fits sent r = true := (h _ (.single hstep)).matched
    rw [hfits] at hstep
    refine ⟨hfits, fun hr => ?_, fun hr => ?_⟩
    · refine Rules.runs_of_kept a sent k back fun s hs => h s (.head hstep ?_)
      rwa [Rules.next, if_pos hr]
    · refine Rules.runs_of_kept b sent k back fun s hs => h s (.head hstep ?_)
      rwa [Rules.next, if_neg hr]

/-- **In any order** the two keep in step just when they do with every item taken at once. -/
theorem Rules.kept_iff_runs (p : Client τ) (k : σ) (back : List ρ) :
    (∀ s, Relation.ReflTransGen (Step R) ⟨p, [], [], k, back, true⟩ s → R.Kept s) ↔
    R.Runs p k [] back := by
  refine ⟨R.runs_of_kept p [] k back, fun h s hs => ?_⟩
  have hinv : R.Inv s := by
    induction hs with
    | refl => exact ⟨rfl, by simpa using h⟩
    | tail _ hstep ih => exact ih.step R hstep
  exact hinv.kept R

/-! ### Where it ends -/

def Client.sends (l : List τ) (p : Client τ) : Client τ := l.foldr .send p

/-- The server when the client is done, with every item taken at once. -/
def Rules.ends : Client τ → σ → List ρ → Option σ
  | .done, k, _ => some k
  | .send t p, k, back => Rules.ends p (R.serve k t).1 (back ++ (R.serve k t).2)
  | .await _ _, _, [] => none
  | .await a b, k, r :: back => if R.good r then Rules.ends a k back else Rules.ends b k back

def Client.depth : Client τ → ℕ
  | .done => 0
  | .send _ p => p.depth + 1
  | .await a b => max a.depth b.depth + 1

def Rules.Stopped (s : Sys σ τ ρ) : Prop := ∀ s', ¬ Step R s s'

theorem Rules.ends_await (a b : Client τ) (k : σ) (r : ρ) (back : List ρ) :
    R.ends (.await a b) k (r :: back) = R.ends (R.next r a b) k back := by
  rw [Rules.ends, Rules.next]
  split <;> rfl

theorem Rules.ends_sends : ∀ (l : List τ) (p : Client τ) (k : σ) (back : List ρ),
    R.ends (.sends l p) k back = R.ends p (feed R.serve k l).1 (back ++ (feed R.serve k l).2)
  | [], p, k, back => by
    rw [feed_nil, append_nil]
    rfl
  | t :: l, p, k, back => by
    rw [feed_cons, ← append_assoc]
    exact Rules.ends_sends l p _ _

def Rules.outcome (s : Sys σ τ ρ) : Option σ :=
  R.ends s.client (feed R.serve s.server s.flight).1 (s.back ++ (feed R.serve s.server s.flight).2)

theorem Rules.outcome_step (hs : Step R s s') : R.outcome s' = R.outcome s := by
  cases hs with
  | send t p sent flight k back m =>
    unfold Rules.outcome
    rw [feed_append, feed_cons, feed_nil, append_nil, ← append_assoc]
    rfl
  | serve p sent t flight k back m =>
    unfold Rules.outcome
    rw [feed_cons, ← append_assoc]
  | read a b sent flight k r back m =>
    unfold Rules.outcome
    rw [cons_append, Rules.ends_await]

theorem Rules.outcome_reached (hs : Relation.ReflTransGen (Step R) s s') :
    R.outcome s' = R.outcome s := by
  induction hs with
  | refl => rfl
  | tail _ hstep ih => exact (R.outcome_step hstep).trans ih

theorem Rules.Stopped.client (h : R.Stopped s) :
    s.flight = [] ∧ (s.client = .done ∨ ∃ a b, s.client = .await a b ∧ s.back = []) := by
  obtain ⟨client, sent, flight, k, back, m⟩ := s
  rcases flight with - | ⟨t, flight⟩
  · refine ⟨rfl, ?_⟩
    cases client with
    | done => exact .inl rfl
    | send t p => exact absurd (Step.send t p sent [] k back m) (h _)
    | await a b =>
      rcases back with - | ⟨r, back⟩
      · exact .inr ⟨a, b, rfl, rfl⟩
      · exact absurd (Step.read a b sent [] k r back m) (h _)
  · exact absurd (Step.serve client sent t flight k back m) (h _)

/-- **In any order** the server ends as it does with every item taken at once. -/
theorem Rules.stopped_of_ends {k : σ} (hk : R.outcome s = some k)
    (hs : Relation.ReflTransGen (Step R) s s') (h : R.Stopped s') :
    s'.client = .done ∧ s'.server = k := by
  have hout := (R.outcome_reached hs).trans hk
  obtain ⟨hflight, hclient | ⟨a, b, hclient, hback⟩⟩ := h.client
  · refine ⟨hclient, ?_⟩
    unfold Rules.outcome at hout
    rw [hflight, hclient, feed_nil] at hout
    exact Option.some.inj hout
  · unfold Rules.outcome at hout
    rw [hflight, hclient, hback, feed_nil] at hout
    exact absurd hout nofun

theorem Rules.acc_step (s : Sys σ τ ρ) : Acc (fun s' s => Step R s s') s := by
  refine Subrelation.accessible (fun {s' s} hs => ?_)
    ((measure fun s : Sys σ τ ρ => 2 * s.client.depth + s.flight.length).wf.apply s)
  show 2 * s'.client.depth + s'.flight.length < 2 * s.client.depth + s.flight.length
  cases hs with
  | send t p sent flight k back m =>
    simp only [Client.depth, length_append, length_singleton]
    omega
  | serve p sent t flight k back m =>
    simp only [length_cons]
    omega
  | read a b sent flight k r back m =>
    have hnext : (R.next r a b).depth ≤ max a.depth b.depth := by
      unfold Rules.next
      split
      · exact le_max_left _ _
      · exact le_max_right _ _
    simp only [Client.depth]
    omega

theorem Rules.exists_stopped (s : Sys σ τ ρ) :
    ∃ s', Relation.ReflTransGen (Step R) s s' ∧ R.Stopped s' := by
  induction R.acc_step s with
  | intro s _ ih =>
    by_cases h : R.Stopped s
    · exact ⟨s, .refl, h⟩
    · obtain ⟨s', hs⟩ := not_forall_not.1 h
      obtain ⟨s'', hs', hstop⟩ := ih s' hs
      exact ⟨s'', .head hs hs', hstop⟩

end Inetutils.Lib.Exchange
