import Mathlib.Data.List.Basic

/-! # Machines that read a stream and write one

A machine `f` reads one element at a time, moves to a new state and writes a list of elements, empty
perhaps. `feed f s l` is the state after the input `l` and all that was written. What a machine does
with a stream is independent of how the stream is cut into pieces (`feed_append`).

Where the state is a table of which a machine for one entry sees only the elements that concern the
entry, what becomes of the entry is what that machine makes of those elements (`feed_project`).

A machine that undoes another element by element (`Undoes`) gives back the stream, through the same
states. -/

namespace Inetutils.Lib.Mealy

open List

variable {σ α β : Type*} (f : σ → α → σ × List β)

/-- The state after the input and what was written on the way. -/
def feed : σ → List α → σ × List β
  | s, [] => (s, [])
  | s, a :: l => ((feed (f s a).1 l).1, (f s a).2 ++ (feed (f s a).1 l).2)

@[simp] theorem feed_nil (s : σ) : feed f s [] = (s, []) := rfl

theorem feed_cons (s : σ) (a : α) (l : List α) :
    feed f s (a :: l) = ((feed f (f s a).1 l).1, (f s a).2 ++ (feed f (f s a).1 l).2) := rfl

theorem feed_append : ∀ (s : σ) (l l' : List α),
    feed f s (l ++ l') =
      ((feed f (feed f s l).1 l').1, (feed f s l).2 ++ (feed f (feed f s l).1 l').2)
  | s, [], l' => rfl
  | s, a :: l, l' => by
    rw [cons_append, feed_cons, feed_append (f s a).1 l l', feed_cons, append_assoc]

theorem length_feed (h : ∀ s a, (f s a).2.length = 1) :
    ∀ (s : σ) (l : List α), (feed f s l).2.length = l.length
  | s, [] => rfl
  | s, a :: l => by
    rw [feed_cons, length_append, h, length_feed h (f s a).1 l, length_cons,
      Nat.add_comm]

/-- **The machine seen at one place**: `π` is what is there, and `p` and `q` tell the elements read
and written that concern it. -/
theorem feed_project {τ : Type*} {g : τ → α → τ × List β} (π : σ → τ) (p : α → Bool) (q : β → Bool)
    (h : ∀ s a, (π (f s a).1, (f s a).2.filter q) = if p a then g (π s) a else (π s, [])) :
    ∀ (l : List α) (s : σ),
      (π (feed f s l).1, (feed f s l).2.filter q) = feed g (π s) (l.filter p)
  | [], s => rfl
  | a :: l, s => by
    obtain ⟨h1, h2⟩ := Prod.ext_iff.mp (h s a)
    obtain ⟨h3, h4⟩ := Prod.ext_iff.mp (feed_project π p q h l (f s a).1)
    dsimp only at h1 h2 h3 h4
    rw [feed_cons, filter_append, h2, h4, h3, h1]
    by_cases hp : p a = true
    · rw [filter_cons_of_pos hp, feed_cons, if_pos hp]
    · rw [filter_cons_of_neg hp, if_neg hp]; rfl

theorem map_feed_sublist {κ : Type*} (key : α → κ) (key' : β → κ) :
    ∀ (l : List α) (s : σ), (∀ a ∈ l, ∀ s, ((f s a).2.map key').Sublist [key a]) →
      ((feed f s l).2.map key').Sublist (l.map key)
  | [], _, _ => .slnil
  | a :: l, s, h => by
    rw [feed_cons, map_append, map_cons]
    exact (h a mem_cons_self s).append
      (map_feed_sublist key key' l _ fun b hb => h b (mem_cons_of_mem _ hb))

def states : σ → List α → List σ
  | _, [] => []
  | s, a :: l => s :: states (f s a).1 l

theorem states_append : ∀ (s : σ) (l l' : List α),
    states f s (l ++ l') = states f s l ++ states f (feed f s l).1 l'
  | _, [], _ => rfl
  | s, a :: l, l' => by
    rw [cons_append, states, states_append (f s a).1 l l', states, feed_cons, cons_append]

/-! ### Machines that undo each other -/

/-- Of what `f` writes for an element, `g` makes the element, and both are in the same state before
and after. -/
structure Undoes (g : σ → β → σ × List α) (f : σ → α → σ × List β) : Prop where
  feed : ∀ s a, Mealy.feed g s (f s a).2 = ((f s a).1, [a])
  states : ∀ s a, Mealy.states g s (f s a).2 = [s]

section
variable {f} {g : σ → β → σ × List α} (h : Undoes g f)
include h

theorem Undoes.feed_feed :
    ∀ (l : List α) (s : σ), Mealy.feed g s (Mealy.feed f s l).2 = ((Mealy.feed f s l).1, l)
  | [], _ => rfl
  | a :: l, s => by
    rw [feed_cons, feed_append, h.feed s a]
    rw [Undoes.feed_feed l (f s a).1]
    rfl

theorem Undoes.states_feed :
    ∀ (l : List α) (s : σ), Mealy.states g s (Mealy.feed f s l).2 = Mealy.states f s l
  | [], _ => rfl
  | a :: l, s => by
    rw [feed_cons, states_append, h.states s a, h.feed s a]
    rw [Undoes.states_feed l (f s a).1]
    rfl

end

end Inetutils.Lib.Mealy
