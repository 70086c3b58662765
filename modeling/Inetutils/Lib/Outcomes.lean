import Mathlib.Order.Filter.AtTopBot.Prod

/-! # What runs come to

A run has no result, or it ends early or with a value; on its way it may let something slip. It is
clean when it has a result and lets nothing slip. A trace says what a run is to come to, and which
points it reaches on the way; a run settles on a trace when, with enough fuel, it is clean and comes
to the result of the trace if all these points are good, and is not clean otherwise. -/

namespace Inetutils.Lib.Outcomes

open Filter

variable {ν ε π α β ι κ : Type*}

abbrev Run (ν ε α : Type*) := Option (List ν × Except ε α)

def done (a : α) : Run ν ε α := some ([], .ok a)

def quit (e : ε) : Run ν ε α := some ([], .error e)

def next (r : Run ν ε α) (k : α → Run ν ε β) : Run ν ε β :=
  match r with
  | none => none
  | some (l, .error e) => some (l, .error e)
  | some (l, .ok a) => (k a).map fun s => (l ++ s.1, s.2)

def Foul (r : Run ν ε α) : Prop := ∀ o, r ≠ some ([], o)

theorem next_done (a : α) (k : α → Run ν ε β) : next (done a) k = k a := by
  change (k a).map (fun s => ([] ++ s.1, s.2)) = k a
  rcases k a with - | ⟨l, o⟩ <;> rfl

theorem next_quit (e : ε) (k : α → Run ν ε β) : next (quit e) k = quit e := rfl

theorem foul_none : Foul (none : Run ν ε α) := fun _ h => nomatch h

theorem foul_some {l : List ν} (h : l ≠ []) (o : Except ε α) : Foul (some (l, o)) := fun _ heq =>
  h (Prod.mk.inj (Option.some.inj heq)).1

theorem Foul.next {r : Run ν ε α} (h : Foul r) (k : α → Run ν ε β) : Foul (next r k) := by
  rcases r with - | ⟨l, e | a⟩
  · exact foul_none
  · exact foul_some (fun hl => h (.error e) (by rw [hl])) _
  · have hl : l ≠ [] := fun hl => h (.ok a) (by rw [hl])
    intro o heq
    obtain ⟨s, -, hs⟩ := Option.map_eq_some_iff.1 heq
    exact hl (List.append_eq_nil_iff.1 (Prod.mk.inj hs).1).1

/-- The points that are reached, and what has happened by the end, early or not. -/
structure Trace (π ε : Type*) where
  reached : List π
  result : Except ε ε

namespace Trace

def pure (e : ε) : Trace π ε := ⟨[], .ok e⟩

/-- The points `l`. -/
def points (l : List π) (e : ε) : Trace π ε := ⟨l, .ok e⟩

def next (t : Trace π ε) (k : ε → Trace π ε) : Trace π ε :=
  match t.result with
  | .error _ => t
  | .ok e => ⟨t.reached ++ (k e).reached, (k e).result⟩

variable (good : π → Prop)

def Good (t : Trace π ε) : Prop := ∀ p ∈ t.reached, good p

variable {good}

theorem good_pure (e : ε) : (pure e : Trace π ε).Good good := List.forall_mem_nil _

variable {e : ε} {k : ε → Trace π ε}

theorem next_of_error {t : Trace π ε} (h : t.result = .error e) (k : ε → Trace π ε) :
    t.next k = t := by
  unfold next
  rw [h]

theorem next_of_ok {t : Trace π ε} (h : t.result = .ok e) (k : ε → Trace π ε) :
    t.next k = ⟨t.reached ++ (k e).reached, (k e).result⟩ := by
  unfold next
  rw [h]

theorem good_next_iff {t : Trace π ε} (h : t.result = .ok e) :
    (t.next k).Good good ↔ t.Good good ∧ (k e).Good good := by
  rw [next_of_ok h]
  exact List.forall_mem_append

theorem Good.of_next {t : Trace π ε} (h : (t.next k).Good good) : t.Good good := by
  rcases ht : t.result with e | e
  · rwa [next_of_error ht] at h
  · exact ((good_next_iff ht).1 h).1

theorem next_pure (t : Trace π ε) : t.next pure = t := by
  obtain ⟨l, e | e⟩ := t
  · rfl
  · change (⟨l ++ [], .ok e⟩ : Trace π ε) = ⟨l, .ok e⟩
    rw [List.append_nil]

end Trace

def Matches (R : ε → α → Prop) : Except ε ε → Except ε α → Prop
  | .error e, .error e' => e = e'
  | .ok e, .ok a => R e a
  | _, _ => False

/-- **Runs with fuel that come to what a trace says.** -/
structure Settles (good : π → Prop) (F : Filter ι) (f : ι → Run ν ε α) (t : Trace π ε)
    (R : ε → α → Prop) : Prop where
  clean : t.Good good → ∃ o, Matches R t.result o ∧ ∀ᶠ n in F, f n = some ([], o)
  foul : ¬ t.Good good → ∀ᶠ n in F, Foul (f n)

namespace Settles

variable {good : π → Prop} {F : Filter ι} {f : ι → Run ν ε α} {t : Trace π ε} {R : ε → α → Prop}
variable {e : ε} {S : ε → β → Prop}

theorem done {a : α} (h : R e a) (hf : ∀ᶠ n in F, f n = done a) : Settles good F f (.pure e) R :=
  ⟨fun _ => ⟨.ok a, h, hf⟩, fun hnot => absurd (Trace.good_pure e) hnot⟩

theorem quit (hf : ∀ᶠ n in F, f n = quit e) : Settles good F f ⟨[], .error e⟩ R :=
  ⟨fun _ => ⟨.error e, rfl, hf⟩, fun hnot => absurd (List.forall_mem_nil _) hnot⟩

theorem of_not_good (h : ¬ t.Good good) (hf : ∀ᶠ n in F, Foul (f n)) : Settles good F f t R :=
  ⟨fun hgood => absurd hgood h, fun _ => hf⟩

theorem congr {g : ι → Run ν ε α} (h : Settles good F f t R) (hfg : ∀ᶠ n in F, g n = f n) :
    Settles good F g t R where
  clean hgood := by
    obtain ⟨o, ho, hf⟩ := h.clean hgood
    refine ⟨o, ho, ?_⟩
    filter_upwards [hf, hfg] with n hn hgn
    rw [hgn, hn]
  foul hnot := by
    filter_upwards [h.foul hnot, hfg] with n hn hgn
    rwa [hgn]

theorem congr_trace {u : Trace π ε} (h : Settles good F f t R) (hgood : t.Good good ↔ u.Good good)
    (hresult : t.Good good → t.result = u.result) : Settles good F f u R where
  clean hg := by
    rw [← hresult (hgood.2 hg)]
    exact h.clean (hgood.2 hg)
  foul hnot := h.foul (mt hgood.1 hnot)

theorem comp {G : Filter κ} {u : κ → ι} (h : Settles good F f t R) (hu : Tendsto u G F) :
    Settles good G (fun n => f (u n)) t R where
  clean hgood := by
    obtain ⟨o, ho, hf⟩ := h.clean hgood
    exact ⟨o, ho, hu.eventually hf⟩
  foul hnot := hu.eventually (h.foul hnot)

theorem mono {S : ε → α → Prop} (h : Settles good F f t R)
    (hRS : t.Good good → ∀ e a, R e a → S e a) :
    Settles good F f t S where
  clean hgood := by
    obtain ⟨o, ho, hf⟩ := h.clean hgood
    refine ⟨o, ?_, hf⟩
    revert ho
    rcases t.result with e | e
    · rcases o with e' | a
      · exact id
      · exact id
    · rcases o with e' | a
      · exact id
      · exact hRS hgood e a
  foul := h.foul

theorem next {k : ι → α → Run ν ε β} {u : ε → Trace π ε} (h : Settles good F f t R)
    (hk : ∀ e a, t.Good good → R e a → Settles good F (fun n => k n a) (u e) S) :
    Settles good F (fun n => Outcomes.next (f n) (k n)) (t.next u) S := by
  by_cases hgood : t.Good good
  · obtain ⟨o, ho, hf⟩ := h.clean hgood
    rcases ht : t.result with e | e
    · rw [ht] at ho
      rcases o with e' | a
      · obtain rfl : e = e' := ho
        rw [Trace.next_of_error ht]
        refine ⟨fun _ => ⟨.error e, by rw [ht]; exact rfl, ?_⟩, fun hnot => absurd hgood hnot⟩
        filter_upwards [hf] with n hn
        rw [hn]
        rfl
      · exact ho.elim
    · rw [ht] at ho
      rcases o with e' | a
      · exact ho.elim
      · have hnext : ∀ᶠ n in F, Outcomes.next (f n) (k n) = k n a := by
          filter_upwards [hf] with n hn
          rw [hn]
          exact next_done a (k n)
        refine ((hk e a hgood ho).congr hnext).congr_trace ?_ fun _ => ?_
        · rw [Trace.good_next_iff ht, and_iff_right hgood]
        · rw [Trace.next_of_ok ht]
  · refine of_not_good (fun hnext => hgood hnext.of_next) ?_
    filter_upwards [h.foul hgood] with n hn
    exact hn.next (k n)

theorem next_done {k : α → β} (h : Settles good F f t R) (hk : ∀ e a, R e a → S e (k a)) :
    Settles good F (fun n => Outcomes.next (f n) fun a => Outcomes.done (k a)) t S := by
  rw [← Trace.next_pure t]
  exact h.next fun e a _ ha => .done (hk e a ha) (.of_forall fun _ => rfl)

theorem points {l : List π} (h : Settles good F f (.pure e) R) (hl : ∀ p ∈ l, good p) :
    Settles good F f (.points l e) R :=
  h.congr_trace (iff_of_true (Trace.good_pure e) hl) fun _ => rfl

/-- **With enough fuel a run is clean just in case all points are good.** -/
theorem iff_clean [F.NeBot] {o : Except ε α} (h : Settles good F f t R)
    (ho : ∀ o', Matches R t.result o' → o' = o) : (∀ᶠ n in F, f n = some ([], o)) ↔
    t.Good good := by
  constructor
  · intro hf
    by_contra hnot
    obtain ⟨n, hn, hfoul⟩ := (hf.and (h.foul hnot)).exists
    exact hfoul o hn
  · intro hgood
    obtain ⟨o', ho', hf⟩ := h.clean hgood
    rwa [ho o' ho'] at hf

end Settles

theorem eventually_succ {P : ℕ × ℕ → Prop} (h : ∀ᶠ n : ℕ × ℕ in atTop, P (n.1, n.2 + 1)) :
    ∀ᶠ n : ℕ × ℕ in atTop, P n := by
  obtain ⟨⟨a, b⟩, h⟩ := eventually_atTop.1 h
  refine eventually_atTop.2 ⟨(a, b + 1), ?_⟩
  rintro ⟨n, m⟩ ⟨hn, hm⟩
  obtain ⟨m, rfl⟩ := Nat.exists_eq_add_of_le' (Nat.le_trans (Nat.le_add_left 1 b) hm)
  exact h (n, m) ⟨hn, Nat.le_of_succ_le_succ hm⟩

theorem Settles.succ {good : π → Prop} {f : ℕ × ℕ → Run ν ε α} {t : Trace π ε} {R : ε → α → Prop}
    (h : Settles good atTop (fun n : ℕ × ℕ => f (n.1, n.2 + 1)) t R) :
    Settles good atTop f t R where
  clean hgood := by
    obtain ⟨o, ho, hf⟩ := h.clean hgood
    exact ⟨o, ho, eventually_succ hf⟩
  foul hnot := eventually_succ (h.foul hnot)

theorem Settles.call {good : π → Prop} {f : ℕ → Run ν ε α} {g : ℕ × ℕ → Run ν ε α} {t : Trace π ε}
    {R : ε → α → Prop}
    (h : Settles good atTop g t R) (hfg : ∀ n, f (n + 1) = g (n, n)) :
    Settles good atTop f t R := by
  have hu : Tendsto (fun n : ℕ => (n - 1, n - 1)) atTop atTop := by
    rw [← prod_atTop_atTop_eq]
    exact (tendsto_sub_atTop_nat 1).prodMk (tendsto_sub_atTop_nat 1)
  refine (h.comp hu).congr ?_
  filter_upwards [eventually_ge_atTop 1] with n hn
  rw [← hfg, Nat.sub_add_cancel hn]

theorem Settles.fst {good : π → Prop} {f : ℕ → Run ν ε α} {t : Trace π ε} {R : ε → α → Prop}
    (h : Settles good atTop f t R) : Settles good atTop (fun n : ℕ × ℕ => f n.1) t R :=
  h.comp (by rw [← prod_atTop_atTop_eq]; exact tendsto_fst)

end Inetutils.Lib.Outcomes
