import Mathlib.Data.List.Basic

/-! # Computations that leave a trace

A computation does steps, which its trace lists in order, and then either gives a value or has ended
the program (`none`): what comes after it in a sequence is done only in the first case (`bind`). -/

namespace Inetutils.Lib.Traced

open Option List

variable {σ : Type*} {α β : Type}

structure Prog (σ : Type*) (α : Type) where
  trace : List σ
  value : Option α

instance : Monad (Prog σ) where
  pure a := ⟨[], some a⟩
  bind x f :=
    match x.value with
    | none => ⟨x.trace, none⟩
    | some a => ⟨x.trace ++ (f a).trace, (f a).value⟩

def emit (s : σ) : Prog σ Unit := ⟨[s], some ()⟩

def stop : Prog σ α := ⟨[], none⟩

variable {x : Prog σ α} {a : α} {s : σ} {f : α → Prog σ β}

theorem bind_of_none (h : x.value = none) (f : α → Prog σ β) : x >>= f = ⟨x.trace, none⟩ := by
  change (match x.value with | none => _ | some a => _) = _
  rw [h]

theorem bind_of_some (h : x.value = some a) (f : α → Prog σ β) :
    x >>= f = ⟨x.trace ++ (f a).trace, (f a).value⟩ := by
  change (match x.value with | none => _ | some a => _) = _
  rw [h]

@[simp] theorem value_bind (x : Prog σ α) (f : α → Prog σ β) :
    (x >>= f).value = x.value.bind fun a => (f a).value := by
  cases h : x.value with
  | none => rw [bind_of_none h]; rfl
  | some a => rw [bind_of_some h]; rfl

@[simp] theorem value_pure (a : α) : (pure a : Prog σ α).value = some a := rfl

@[simp] theorem value_emit (s : σ) : (emit s).value = some () := rfl

@[simp] theorem value_stop : (stop : Prog σ α).value = none := rfl

@[simp] theorem trace_emit_bind (s : σ) (f : Unit → Prog σ β) :
    (emit s >>= f).trace = s :: (f ()).trace := rfl

theorem mem_trace_bind_of_mem (h : s ∈ x.trace) (f : α → Prog σ β) : s ∈ (x >>= f).trace := by
  cases hx : x.value with
  | none => rw [bind_of_none hx]; exact h
  | some a => rw [bind_of_some hx]; exact mem_append_left _ h

theorem mem_trace_bind (hx : x.value = some a) (h : s ∈ (f a).trace) : s ∈ (x >>= f).trace := by
  rw [bind_of_some hx]
  exact mem_append_right _ h

/-! ### Every step of the trace -/

def Clear (P : σ → Prop) (x : Prog σ α) : Prop := ∀ s ∈ x.trace, P s

section
variable {P : σ → Prop}

@[simp] theorem clear_pure (a : α) : Clear P (pure a : Prog σ α) := fun _ h => nomatch h

@[simp] theorem clear_stop : Clear P (stop : Prog σ α) := fun _ h => nomatch h

@[simp] theorem clear_emit (s : σ) : Clear P (emit s) ↔ P s := by simp [Clear, emit]

theorem clear_bind (x : Prog σ α) (f : α → Prog σ β) :
    Clear P (x >>= f) ↔ Clear P x ∧ ∀ a, x.value = some a → Clear P (f a) := by
  cases h : x.value with
  | none =>
    rw [bind_of_none h]
    exact ⟨fun hx => ⟨hx, fun a ha => nomatch ha⟩, And.left⟩
  | some a =>
    rw [bind_of_some h]
    simp only [Clear, mem_append, some_inj, forall_eq']
    exact ⟨fun hx => ⟨fun s hs => hx s (.inl hs), fun s hs => hx s (.inr hs)⟩,
      fun ⟨h1, h2⟩ s hs => hs.elim (h1 s) (h2 s)⟩

@[simp] theorem clear_emit_bind (s : σ) (f : Unit → Prog σ β) :
    Clear P (emit s >>= f) ↔ P s ∧ Clear P (f ()) := by
  rw [clear_bind, clear_emit]
  exact and_congr_right fun _ => ⟨fun h => h () rfl, fun h _ _ => h⟩

theorem Clear.mono {Q : σ → Prop} (hx : Clear Q x) (h : ∀ s, Q s → P s) : Clear P x :=
  fun s hs => h s (hx s hs)

theorem clear_bind_of {Q : σ → Prop} (hx : Clear Q x) (h : ∀ s, Q s → P s)
    (hf : ∀ a, x.value = some a → Clear P (f a)) :
    Clear P (x >>= f) := (clear_bind x f).2 ⟨hx.mono h, hf⟩

end

/-! ### A value, and the steps to it -/

/-- The steps all satisfy `P`, and give `a`. -/
def Yields (P : σ → Prop) (x : Prog σ α) (a : α) : Prop := Clear P x ∧ x.value = some a

section
variable {P : σ → Prop}

theorem yields_pure (a : α) : Yields P (pure a : Prog σ α) a := ⟨clear_pure a, rfl⟩

theorem yields_emit (h : P s) : Yields P (emit s) () := ⟨(clear_emit s).2 h, rfl⟩

theorem clear_bind_iff (hx : Yields P x a) : Clear P (x >>= f) ↔ Clear P (f a) := by
  rw [clear_bind, hx.2]
  simp only [some_inj, forall_eq', and_iff_right hx.1]

theorem value_bind_of_yields (hx : Yields P x a) : (x >>= f).value = (f a).value := by
  rw [value_bind, hx.2]
  rfl

theorem yields_bind_iff {b : β} : Yields P (x >>= f) b ↔ ∃ a, Yields P x a ∧ Yields P (f a) b := by
  constructor
  · rintro ⟨hclear, hvalue⟩
    rw [value_bind, bind_eq_some_iff] at hvalue
    obtain ⟨a, ha, hb⟩ := hvalue
    obtain ⟨hx, hf⟩ := (clear_bind x f).1 hclear
    exact ⟨a, ⟨hx, ha⟩, hf a ha, hb⟩
  · rintro ⟨a, hx, hf⟩
    exact ⟨(clear_bind_iff hx).2 hf.1, (value_bind_of_yields hx).trans hf.2⟩

theorem yields_bind {b : β} (hx : Yields P x a) (hf : Yields P (f a) b) :
    Yields P (x >>= f) b := yields_bind_iff.2 ⟨a, hx, hf⟩

end

/-! ### When the steps all satisfy a property -/

/-- The steps all satisfy `P` just when `q` holds, and then give `a`. -/
def Exact (P : σ → Prop) (x : Prog σ α) (q : Prop) (a : α) : Prop :=
  (Clear P x ↔ q) ∧ (q → x.value = some a)

section
variable {P : σ → Prop} {q r : Prop}

theorem exact_pure (a : α) : Exact P (pure a : Prog σ α) True a :=
  ⟨iff_of_true (clear_pure a) trivial, fun _ => rfl⟩

theorem exact_emit (s : σ) : Exact P (emit s) (P s) () := ⟨clear_emit s, fun _ => rfl⟩

theorem Exact.clear_bind (hx : Exact P x q a) (f : α → Prog σ β) :
    Clear P (x >>= f) ↔ q ∧ Clear P (f a) := by
  rw [Traced.clear_bind, hx.1]
  refine and_congr_right fun hq => ?_
  rw [hx.2 hq]
  exact ⟨fun h => h a rfl, fun h c hc => some_inj.1 hc ▸ h⟩

/-- **A sequence**. -/
theorem Exact.bind {b : β} (hx : Exact P x q a) (hf : q → Exact P (f a) r b) :
    Exact P (x >>= f) (q ∧ r) b := by
  constructor
  · rw [hx.clear_bind]
    exact and_congr_right fun hq => (hf hq).1
  · rintro ⟨hq, hr⟩
    rw [value_bind, hx.2 hq, bind_some]
    exact (hf hq).2 hr

theorem Exact.map (hx : Exact P x q a) (g : α → β) :
    Exact P (x >>= fun a => pure (g a)) q (g a) := by
  have hbind := hx.bind (f := fun a => pure (g a)) fun _ => exact_pure (g a)
  exact ⟨hbind.1.trans (and_true _).to_iff, fun hq => hbind.2 ⟨hq, trivial⟩⟩

theorem Exact.congr (hx : Exact P x q a) (h : r ↔ q) : Exact P x r a :=
  ⟨hx.1.trans h.symm, fun hr => hx.2 (h.1 hr)⟩

theorem Exact.value {a' : α} (hx : Exact P x q a) (h : q → a = a') : Exact P x q a' :=
  ⟨hx.1, fun hq => (hx.2 hq).trans (congrArg some (h hq))⟩

end

/-! ### The last step of the trace -/

/-- The last step is not in `Q`. -/
def Ends (Q : σ → Prop) (x : Prog σ α) : Prop := ∀ s, x.trace.getLast? = some s → ¬ Q s

section
variable {Q : σ → Prop}

@[simp] theorem ends_pure (a : α) : Ends Q (pure a : Prog σ α) := fun _ h => nomatch h

@[simp] theorem ends_stop : Ends Q (stop : Prog σ α) := fun _ h => nomatch h

theorem ends_bind (hx : Ends Q x) (hf : ∀ a, Ends Q (f a)) : Ends Q (x >>= f) := by
  cases h : x.value with
  | none =>
    rw [bind_of_none h]
    exact hx
  | some a =>
    rw [bind_of_some h]
    intro s hs
    rw [getLast?_append] at hs
    cases hl : (f a).trace.getLast? with
    | none => exact hx s (by simpa [hl] using hs)
    | some t =>
      rw [hl, some_or, some_inj] at hs
      exact hs ▸ hf a t hl

theorem ends_emit (h : ¬ Q s) : Ends Q (emit s) := by
  intro t ht
  rw [← some_inj.1 ht]
  exact h

theorem ends_emit_bind {f : Unit → Prog σ β} (hne : (f ()).trace ≠ []) (hf : Ends Q (f ())) :
    Ends Q (emit s >>= f) := by
  intro t ht
  rw [trace_emit_bind, getLast?_cons_of_ne_nil hne] at ht
  exact hf t ht

theorem clear_of_ends (hx : Ends Q x)
    (h : ∀ pre s post, x.trace = pre ++ s :: post → Q s → post = []) :
    Clear (fun s => ¬ Q s) x := by
  intro s hs hq
  obtain ⟨pre, post, hsplit⟩ := append_of_mem hs
  have hpost := h pre s post hsplit hq
  refine hx s ?_ hq
  rw [hsplit, hpost, getLast?_append]
  rfl

end

end Inetutils.Lib.Traced
