import Mathlib.Data.List.Nodup

/-! # Linked lists in a heap

A cell has an entry, the place of the next cell and that of the cell before. A place that is free
holds nothing. `Chain h p ns` says that `next` leads from `p` over the cells `ns` to the end, and
`Back q ns` that `prev` leads back over them to `q`. -/

namespace Inetutils.Lib.Linked

open List

variable {α : Type*}

structure Cell (α : Type*) where
  next : Option ℕ
  prev : Option ℕ
  entry : α
  deriving DecidableEq

abbrev Heap (α : Type*) := ℕ → Option (Cell α)

def Chain (h : Heap α) : Option ℕ → List (ℕ × Cell α) → Prop
  | p, [] => p = none
  | p, n :: ns => p = some n.1 ∧ h n.1 = some n.2 ∧ Chain h n.2.next ns

def Back : Option ℕ → List (ℕ × Cell α) → Prop
  | _, [] => True
  | q, n :: ns => n.2.prev = q ∧ Back (some n.1) ns

section
variable {h : Heap α} {p : Option ℕ} {ns ms : List (ℕ × Cell α)} {n : ℕ × Cell α} {a : ℕ}
    {c : Cell α}

@[simp] theorem chain_nil : Chain h p [] ↔ p = none := Iff.rfl

@[simp] theorem chain_cons : Chain h p (n :: ns) ↔
    p = some n.1 ∧ h n.1 = some n.2 ∧ Chain h n.2.next ns := Iff.rfl

theorem Chain.unique : ∀ {ns ms : List (ℕ × Cell α)} {p : Option ℕ},
    Chain h p ns → Chain h p ms → ns = ms
  | [], [], _, _, _ => rfl
  | [], m :: ms, _, hn, hm => absurd (hn.symm.trans hm.1) (by simp)
  | n :: ns, [], _, hn, hm => absurd (hm.symm.trans hn.1) (by simp)
  | ⟨a, c⟩ :: ns, ⟨b, d⟩ :: ms, p, hn, hm => by
    obtain ⟨hp, hc, hn⟩ := hn
    obtain ⟨hq, hd, hm⟩ := hm
    obtain rfl : a = b := Option.some.inj (hp.symm.trans hq)
    obtain rfl : c = d := Option.some.inj (hc.symm.trans hd)
    rw [hn.unique hm]

theorem Chain.cell (hc : Chain h p ns) (hn : n ∈ ns) : h n.1 = some n.2 := by
  induction ns generalizing p with
  | nil => cases hn
  | cons m ns ih =>
    rcases mem_cons.1 hn with rfl | hn
    · exact hc.2.1
    · exact ih hc.2.2 hn

theorem Chain.right : ∀ {ns : List (ℕ × Cell α)} {p : Option ℕ}, Chain h p (ns ++ n :: ms) →
    Chain h (some n.1) (n :: ms)
  | [], _, hc => ⟨rfl, hc.2⟩
  | _ :: _, _, hc => Chain.right hc.2.2

theorem Chain.nodup (hc : Chain h p ns) : (ns.map Prod.fst).Nodup := by
  induction ns generalizing p with
  | nil => exact nodup_nil
  | cons n ns ih =>
    refine nodup_cons.2 ⟨fun hmem => ?_, ih hc.2.2⟩
    obtain ⟨m, hm, heq⟩ := mem_map.1 hmem
    obtain ⟨l, r, rfl⟩ := append_of_mem hm
    have hagain : Chain h (some n.1) (m :: r) := heq ▸ hc.2.2.right
    have honce : Chain h (some n.1) (n :: (l ++ m :: r)) := ⟨rfl, hc.2⟩
    have hlen := congrArg List.length (honce.unique hagain)
    simp at hlen
    omega

theorem Chain.update (hc : Chain h p ns) (x : Option (Cell α)) (ha : a ∉ ns.map Prod.fst) :
    Chain (Function.update h a x) p ns := by
  induction ns generalizing p with
  | nil => exact hc
  | cons n ns ih =>
    rw [map_cons, mem_cons, not_or] at ha
    refine ⟨hc.1, ?_, ih hc.2.2 ha.2⟩
    rw [Function.update_of_ne (Ne.symm ha.1)]
    exact hc.2.1

theorem Chain.fresh (hc : Chain h p ns) (ha : h a = none) : a ∉ ns.map Prod.fst := by
  intro hmem
  obtain ⟨n, hn, rfl⟩ := mem_map.1 hmem
  simp [hc.cell hn] at ha

theorem Chain.setEntry (hc : Chain h p (ns ++ (a, c) :: ms)) (x : α) :
    Chain (Function.update h a (some { c with entry := x })) p
    (ns ++ (a, { c with entry := x }) :: ms) := by
  induction ns generalizing p with
  | nil =>
    have hnodup := hc.nodup
    simp only [nil_append, map_cons, nodup_cons] at hnodup
    exact ⟨hc.1, Function.update_self .., hc.2.2.update _ hnodup.1⟩
  | cons n ns ih =>
    have hnodup := hc.nodup
    simp only [cons_append, map_cons, map_append, nodup_cons, mem_append, mem_cons,
      not_or] at hnodup
    exact ⟨hc.1, (Function.update_of_ne hnodup.1.2.1 ..).trans hc.2.1, ih hc.2.2⟩

theorem Chain.free (hc : Chain h p (ns ++ (a, c) :: ms)) :
    Chain (Function.update h a none) c.next ms := by
  have hnodup := hc.nodup
  simp only [map_append, map_cons, nodup_append, nodup_cons] at hnodup
  exact hc.right.2.2.update _ hnodup.2.1.1

theorem back_iff (hprev : ∀ n ∈ ns, n.2.prev = none) : Back none ns ↔ ns.length ≤ 1 := by
  rcases ns with - | ⟨n, - | ⟨m, ns⟩⟩
  · simp [Back]
  · simp [Back, hprev n]
  · have hm : m.2.prev = none := hprev m (by simp)
    simp [Back, hm]

end

end Inetutils.Lib.Linked
