import Mathlib.Data.Nat.Notation

/-! # Runs of a state machine

A machine is a step function `step : σ → α → σ`; the label of a step carries everything that is not
the machine's own doing (an input, the result of a system call). `run step s l` is the state after
the steps `l`, and `Allowed step ok s l` says that every step of the run is taken in a state in
which `ok` admits it. -/

namespace Inetutils.Lib.Runs

open List

variable {σ τ α β : Type*}

/-- The state after the steps `l`. -/
def run (step : σ → α → σ) (s : σ) (l : List α) : σ := l.foldl step s

/-- Every step of the run is taken in a state where `ok` admits it. -/
def Allowed (step : σ → α → σ) (ok : σ → α → Prop) : σ → List α → Prop
  | _, [] => True
  | s, a :: l => ok s a ∧ Allowed step ok (step s a) l

instance decidableAllowed (step : σ → α → σ) (ok : σ → α → Prop) [∀ s a, Decidable (ok s a)] :
    ∀ (s : σ) (l : List α), Decidable (Allowed step ok s l)
  | _, [] => inferInstanceAs (Decidable True)
  | s, a :: l =>
    have := decidableAllowed step ok (step s a) l
    inferInstanceAs (Decidable (_ ∧ _))

section
variable {step : σ → α → σ} {ok ok' : σ → α → Prop}

@[simp] theorem run_nil (s : σ) : run step s [] = s := rfl

@[simp] theorem run_cons (s : σ) (a : α) (l : List α) :
    run step s (a :: l) = run step (step s a) l := rfl

theorem run_append (s : σ) (l l' : List α) :
    run step s (l ++ l') = run step (run step s l) l' := foldl_append ..

@[simp] theorem allowed_nil (s : σ) : Allowed step ok s [] := trivial

@[simp] theorem allowed_cons (s : σ) (a : α) (l : List α) :
    Allowed step ok s (a :: l) ↔ ok s a ∧ Allowed step ok (step s a) l := Iff.rfl

theorem allowed_append : ∀ (l l' : List α) (s : σ),
    Allowed step ok s (l ++ l') ↔ Allowed step ok s l ∧ Allowed step ok (run step s l) l'
  | [], l', s => by simp
  | a :: l, l', s => by simp [allowed_append l l', and_assoc]

theorem allowed_const_iff {p : α → Prop} :
    ∀ (s : σ) (l : List α), Allowed step (fun _ a => p a) s l ↔ ∀ a ∈ l, p a
  | _, [] => iff_of_true trivial nofun
  | s, a :: l => by rw [allowed_cons, allowed_const_iff _ l, forall_mem_cons]

theorem allowed_and : ∀ {l : List α} {s : σ},
    Allowed step (fun s a => ok s a ∧ ok' s a) s l ↔ Allowed step ok s l ∧ Allowed step ok' s l
  | [], _ => by simp
  | a :: l, s => by simp [allowed_and (l := l), and_and_and_comm]

variable {I J : σ → Prop} {l : List α} {s : σ}

theorem run_inv (hstep : ∀ s a, I s → ok s a → I (step s a)) (hs : I s) (hl : Allowed step ok s l) :
    I (run step s l) := by
  induction l generalizing s with
  | nil => exact hs
  | cons a l ih => exact ih (hstep s a hs hl.1) hl.2

theorem run_keeps (hstep : ∀ s a, I s → I (step s a)) :
    ∀ (l : List α) {s : σ}, I s → I (run step s l)
  | [], _, hs => hs
  | a :: l, _, hs => run_keeps hstep l (hstep _ a hs)

/-- **The invariant rule in both directions**, with an invariant `J` of every run beside the one
that is tested, within a contract which every step of the run keeps to. -/
theorem inv_iff_allowed_within {pre : σ → α → Prop}
    (hI : ∀ s a, pre s a → I s → J s → (I (step s a) ↔ ok s a))
    (hJ : ∀ s a, pre s a → I s → J s → ok s a → J (step s a)) (hs : I s) (hj : J s)
    (hl : Allowed step pre s l) : (∀ l', l' <+: l → I (run step s l')) ↔ Allowed step ok s l := by
  induction l generalizing s with
  | nil =>
    refine iff_of_true (fun l' hl' => ?_) trivial
    rw [prefix_nil.1 hl']
    exact hs
  | cons a l ih =>
    obtain ⟨hpre, hrest⟩ := hl
    constructor
    · intro h
      have hone : I (step s a) := h [a] ((prefix_cons_inj a).2 List.nil_prefix)
      have hok : ok s a := (hI s a hpre hs hj).1 hone
      exact ⟨hok, (ih hone (hJ s a hpre hs hj hok) hrest).1 fun l' hl' =>
        h (a :: l') ((prefix_cons_inj a).2 hl')⟩
    · rintro ⟨hok, htail⟩ l' hl'
      rcases l' with - | ⟨b, l'⟩
      · exact hs
      · obtain ⟨hab, hpre'⟩ := cons_prefix_cons.1 hl'
        subst hab
        exact (ih ((hI s b hpre hs hj).2 hok) (hJ s b hpre hs hj hok) hrest).2 htail l' hpre'

theorem inv_iff_allowed (hI : ∀ s a, I s → J s → (I (step s a) ↔ ok s a))
    (hJ : ∀ s a, J s → J (step s a)) (hs : I s) (hj : J s) :
    (∀ l', l' <+: l → I (run step s l')) ↔ Allowed step ok s l := by
  have hany : Allowed step (fun _ _ => True) s l := (allowed_const_iff s l).2 fun _ _ => trivial
  exact inv_iff_allowed_within (fun s a _ => hI s a) (fun s a _ _ hj _ => hJ s a hj) hs hj hany

def both (f : σ → α → σ) (g : τ → α → τ) (s : σ × τ) (a : α) : σ × τ := (f s.1 a, g s.2 a)

def logged (f : σ → α → β × σ) (s : σ × List β) (a : α) : σ × List β :=
  ((f s.1 a).2, s.2 ++ [(f s.1 a).1])

section
variable {f : σ → α → σ} {g : τ → α → τ} {p : σ → α → Prop} {q : τ → α → Prop}

theorem run_both : ∀ (l : List α) (s : σ) (t : τ), run (both f g) (s, t) l = (run f s l, run g t l)
  | [], _, _ => rfl
  | a :: l, s, t => run_both l (f s a) (g t a)

theorem allowed_both_left : ∀ (l : List α) (s : σ) (t : τ),
    Allowed (both f g) (fun st a => p st.1 a) (s, t) l ↔ Allowed f p s l
  | [], _, _ => Iff.rfl
  | a :: l, s, t => and_congr Iff.rfl (allowed_both_left l (f s a) (g t a))

theorem allowed_both_right : ∀ (l : List α) (s : σ) (t : τ),
    Allowed (both f g) (fun st a => q st.2 a) (s, t) l ↔ Allowed g q t l
  | [], _, _ => Iff.rfl
  | a :: l, s, t => and_congr Iff.rfl (allowed_both_right l (f s a) (g t a))

end

/-- **A view of the state**: when a step is the step of the view just in case it is allowed, the
runs agree in every state on the way just in case the run is allowed. -/
theorem view_iff_allowed {view : σ → τ} {g : τ → α → τ}
    (hview : ∀ s a, J s → (view (step s a) = g (view s) a ↔ ok s a))
    (hJ : ∀ s a, J s → J (step s a)) (hj : J s) :
    (∀ l', l' <+: l → view (run step s l') = run g (view s) l') ↔ Allowed step ok s l := by
  induction l generalizing s with
  | nil =>
    refine iff_of_true (fun l' hl' => ?_) trivial
    rw [prefix_nil.1 hl']
    rfl
  | cons a l ih =>
    constructor
    · intro h
      have hone : view (step s a) = g (view s) a := h [a] ((prefix_cons_inj a).2 List.nil_prefix)
      refine ⟨(hview s a hj).1 hone, (ih (hJ s a hj)).1 fun l' hl' => ?_⟩
      rw [hone]
      exact h (a :: l') ((prefix_cons_inj a).2 hl')
    · rintro ⟨hok, hl⟩ l' hl'
      rcases l' with - | ⟨b, l'⟩
      · rfl
      · obtain ⟨hab, htail⟩ := cons_prefix_cons.1 hl'
        subst hab
        rw [run_cons, run_cons, (ih (hJ s b hj)).2 hl l' htail, (hview s b hj).2 hok]

/-- **The simulation rule**: a step of the first machine is matched by one of the second, with the
label `f` gives it. -/
theorem run_sim {R : σ → τ → Prop} {g : τ → β → τ} {f : α → β}
    (hstep : ∀ s t a, R s t → ok s a → R (step s a) (g t (f a))) {t : τ} (hs : R s t)
    (hl : Allowed step ok s l) : R (run step s l) (run g t (l.map f)) := by
  induction l generalizing s t with
  | nil => exact hs
  | cons a l ih => exact ih (hstep s t a hs hl.1) hl.2

end

end Inetutils.Lib.Runs
