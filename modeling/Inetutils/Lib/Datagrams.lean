import Mathlib.Data.List.Perm.Basic

/-! # A link for datagrams

What was sent is in the air, from where it is delivered to the queue of the receiver in any order,
lost, or duplicated; the receiver takes from its queue or drops all of it.

* `LinkAll`: a property of all that is on the link; it needs to be proved of what is sent only
  (`linkAll_*`).
* `Holds`: all that is on the link, as a list without order; a reliable link loses none of it. -/

namespace Inetutils.Lib.Datagrams

open List

variable {π : Type*}

structure Link (π : Type*) where
  air : List π
  queue : List π

def Link.empty : Link π := ⟨[], []⟩

inductive Net
  | deliver (i : ℕ)
  | duplicate (i : ℕ)
  | lose (i : ℕ)
  deriving DecidableEq

def Link.net (l : Link π) : Net → Link π
  | .deliver i =>
    match l.air[i]? with
    | some p => ⟨l.air.eraseIdx i, l.queue ++ [p]⟩
    | none => l
  | .duplicate i =>
    match l.air[i]? with
    | some p => { l with air := l.air ++ [p] }
    | none => l
  | .lose i => { l with air := l.air.eraseIdx i }

def Link.send (l : Link π) (ps : List π) : Link π := { l with air := l.air ++ ps }

/-- The queue after its first datagram was taken, and possibly all others with it. -/
def Link.take (l : Link π) (flush : Bool) : Link π :=
  { l with queue := if flush then [] else l.queue.tail }

/-! ### A property of all that is on the link -/

def LinkAll (P : π → Prop) (l : Link π) : Prop := ∀ p, p ∈ l.air ∨ p ∈ l.queue → P p

section
variable {P : π → Prop} {l : Link π}

theorem linkAll_empty : LinkAll P (Link.empty : Link π) := fun _ h =>
  h.elim (fun h => nomatch h) fun h => nomatch h

theorem linkAll_net (h : LinkAll P l) (e : Net) : LinkAll P (l.net e) := by
  cases e with
  | deliver i =>
    simp only [Link.net]
    split
    · rename_i q hq
      rintro p (hp | hp)
      · exact h p (.inl ((eraseIdx_sublist ..).subset hp))
      · rcases mem_append.1 hp with hp | hp
        · exact h p (.inr hp)
        · exact h p (.inl (mem_singleton.1 hp ▸ mem_of_getElem? hq))
    · exact h
  | duplicate i =>
    simp only [Link.net]
    split
    · rename_i q hq
      rintro p (hp | hp)
      · rcases mem_append.1 hp with hp | hp
        · exact h p (.inl hp)
        · exact h p (.inl (mem_singleton.1 hp ▸ mem_of_getElem? hq))
      · exact h p (.inr hp)
    · exact h
  | lose i =>
    rintro p (hp | hp)
    · exact h p (.inl ((eraseIdx_sublist ..).subset hp))
    · exact h p (.inr hp)

theorem linkAll_send (h : LinkAll P l) {ps : List π} (hps : ∀ p ∈ ps, P p) :
    LinkAll P (l.send ps) := by
  rintro p (hp | hp)
  · exact (mem_append.1 hp).elim (fun hp => h p (.inl hp)) (hps p)
  · exact h p (.inr hp)

theorem linkAll_take (h : LinkAll P l) (flush : Bool) : LinkAll P (l.take flush) := by
  rintro p (hp | hp)
  · exact h p (.inl hp)
  · cases flush with
    | true => exact nomatch hp
    | false => exact h p (.inr (mem_of_mem_tail hp))

end

/-! ### A link with at most one datagram -/

/-- All that is on the link is `ps`, which has at most one element. -/
structure Holds (l : Link π) (ps : List π) : Prop where
  perm : (l.air ++ l.queue).Perm ps
  small : ps.length ≤ 1

section
variable {l : Link π} {ps : List π}

theorem holds_deliver (h : Holds l ps) (i : ℕ) : Holds (l.net (.deliver i)) ps := by
  refine ⟨?_, h.small⟩
  simp only [Link.net]
  split
  · rename_i p hp
    obtain ⟨hi, hget⟩ := List.getElem?_eq_some_iff.1 hp
    refine List.Perm.trans ?_ h.perm
    rw [← List.append_assoc]
    refine (List.perm_append_comm).trans ?_
    rw [List.singleton_append, ← List.cons_append, ← hget]
    exact (List.getElem_cons_eraseIdx_perm hi).append_right _
  · exact h.perm

theorem holds_send (h : Holds l []) {p : List π} (hp : p.length ≤ 1) : Holds (l.send p) p := by
  obtain ⟨ha, hq⟩ := append_eq_nil_iff.1 h.perm.eq_nil
  refine ⟨?_, hp⟩
  simp [Link.send, ha, hq]

theorem holds_take {p : π} {queue : List π} (h : Holds l ps) (hq : l.queue = p :: queue)
    (flush : Bool) :
    ps = [p] ∧ Holds (l.take flush) [] := by
  have hlen := h.perm.length_eq
  rw [hq, length_append, length_cons] at hlen
  have hsmall := h.small
  have hair : l.air = [] := length_eq_zero_iff.1 (by omega)
  have hqueue : queue = [] := length_eq_zero_iff.1 (by omega)
  have hperm := h.perm
  rw [hair, hq, hqueue, nil_append, singleton_perm] at hperm
  refine ⟨hperm.symm, ?_, Nat.zero_le _⟩
  cases flush <;> simp [Link.take, hair, hq, hqueue]

theorem exists_deliver {p : π} (h : Holds l [p]) :
    l.queue = [p] ∨ (l.net (.deliver 0)).queue = [p] := by
  have hlen := h.perm.length_eq
  rw [length_append, length_singleton] at hlen
  rcases Nat.eq_zero_or_pos l.air.length with hair | hair
  · have hperm := h.perm
    rw [length_eq_zero_iff.1 hair, nil_append] at hperm
    exact .inl (perm_singleton.1 hperm)
  · have hq : l.queue = [] := length_eq_zero_iff.1 (by omega)
    obtain ⟨q, hq'⟩ := length_eq_one_iff.1 (show l.air.length = 1 by omega)
    have hperm := h.perm
    rw [hq, hq', append_nil, perm_singleton] at hperm
    right
    simpa [Link.net, hq', hq] using hperm

end

end Inetutils.Lib.Datagrams
