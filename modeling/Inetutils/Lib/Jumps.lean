import Mathlib.Data.Nat.Notation

/-! # Programs that jump

An `Act` changes a state and gives a value, or is left: by a jump to a place `t`, or because the
whole run is over (`none`). A `Prog` is made of operations, in sequence, in loops, and in the reach
of a place that can be jumped to (`setjmp`): after a jump there the program goes on with `again`, as
often as it comes.

`run` gives a program the meaning of its operations. A loop and the returns to a place are bounded
by `size` of the state, for which the run is over when it is used up. -/

namespace Inetutils.Lib.Jumps

/-! ### Acts -/

def Act (σ τ α : Type) := σ → Except (Option τ) α × σ

section
variable {σ τ α β : Type}

instance : Monad (Act σ τ) where
  pure a := fun s => (.ok a, s)
  bind x f := fun s =>
    match x s with
    | (.ok a, s') => f a s'
    | (.error e, s') => (.error e, s')

def get : Act σ τ σ := fun s => (.ok s, s)

def modify (f : σ → σ) : Act σ τ Unit := fun s => (.ok (), f s)

def jump (t : τ) : Act σ τ α := fun s => (.error (some t), s)

def halt : Act σ τ α := fun s => (.error none, s)

/-- `x`, if `c`. -/
def whenever (c : Prop) [Decidable c] (x : Act σ τ Unit) : Act σ τ Unit := if c then x else pure ()

variable {x : Act σ τ α}

theorem bind_of_ok {s s' : σ} {a : α} (h : x s = (.ok a, s')) (f : α → Act σ τ β) :
    (x >>= f) s = f a s' := by
  change (match x s with | (.ok a, s') => _ | (.error e, s') => _) = _
  rw [h]

theorem bind_of_error {s s' : σ} {e : Option τ} (h : x s = (.error e, s')) (f : α → Act σ τ β) :
    (x >>= f) s = (.error e, s') := by
  change (match x s with | (.ok a, s') => _ | (.error e, s') => _) = _
  rw [h]

/-! ### What holds after an act -/

/-- `Q` of the value and the state after `x`, or `E` where `x` is left. -/
def Holds (Q : α → σ → Prop) (E : σ → Prop) : Except (Option τ) α × σ → Prop
  | (.ok a, s) => Q a s
  | (.error _, s) => E s

def Triple (P : σ → Prop) (x : Act σ τ α) (Q : α → σ → Prop) (E : σ → Prop) : Prop :=
  ∀ s, P s → Holds Q E (x s)

/-- `I` is kept, whichever way `x` ends. -/
def Keeps (I : σ → Prop) (x : Act σ τ α) : Prop := Triple I x (fun _ => I) I

variable {P E I : σ → Prop} {Q Q' : α → σ → Prop} {R : β → σ → Prop}
variable {E' : σ → Prop} {f : α → Act σ τ β}

theorem Holds.mono {r : Except (Option τ) α × σ} (h : Holds Q E r) (hQ : ∀ a s, Q a s → Q' a s)
    (hE : ∀ s, E s → E' s) : Holds Q' E' r := by
  rcases r with ⟨e | a, s⟩
  · exact hE s h
  · exact hQ a s h

theorem triple_bind (hx : Triple P x Q E) (hf : ∀ a, Triple (Q a) (f a) R E) :
    Triple P (x >>= f) R E := by
  intro s hs
  have h := hx s hs
  rcases hxs : x s with ⟨e | a, s'⟩
  · rw [hxs] at h
    rw [bind_of_error hxs]
    exact h
  · rw [hxs] at h
    rw [bind_of_ok hxs]
    exact hf a s' h

theorem triple_pure {a : α} (h : ∀ s, P s → Q a s) : Triple P (pure a : Act σ τ α) Q E := h

theorem triple_get {Q : σ → σ → Prop} (h : ∀ s, P s → Q s s) : Triple P (get : Act σ τ σ) Q E := h

theorem triple_modify {f : σ → σ} {Q : Unit → σ → Prop} (h : ∀ s, P s → Q () (f s)) :
    Triple P (modify f : Act σ τ Unit) Q E := h

theorem triple_jump {t : τ} (h : ∀ s, P s → E s) : Triple P (jump t : Act σ τ α) Q E := h

theorem triple_halt (h : ∀ s, P s → E s) : Triple P (halt : Act σ τ α) Q E := h

theorem triple_ite {c : Prop} [Decidable c] {y : Act σ τ α} (hx : c → Triple P x Q E)
    (hy : ¬ c → Triple P y Q E) : Triple P (if c then x else y) Q E := by
  split
  · exact hx ‹_›
  · exact hy ‹_›

theorem Triple.mono {P' : σ → Prop} (h : Triple P x Q E) (hP : ∀ s, P' s → P s)
    (hQ : ∀ a s, Q a s → Q' a s) (hE : ∀ s, E s → E' s) : Triple P' x Q' E' :=
  fun s hs => (h s (hP s hs)).mono hQ hE

theorem Triple.weaken (h : Triple P x Q E) (hE : ∀ s, E s → E' s) : Triple P x Q E' :=
  h.mono (fun _ hs => hs) (fun _ _ hs => hs) hE

theorem keeps_bind (hx : Keeps I x) (hf : ∀ a, Keeps I (f a)) :
    Keeps I (x >>= f) := triple_bind hx hf

theorem keeps_pure (a : α) : Keeps I (pure a : Act σ τ α) := fun _ h => h

theorem keeps_get : Keeps I (get : Act σ τ σ) := fun _ h => h

theorem keeps_modify {f : σ → σ} (h : ∀ s, I s → I (f s)) : Keeps I (modify f : Act σ τ Unit) := h

theorem keeps_halt : Keeps I (halt : Act σ τ α) := fun _ h => h

theorem keeps_ite {c : Prop} [Decidable c] {y : Act σ τ α} (hx : Keeps I x) (hy : Keeps I y) :
    Keeps I (if c then x else y) := triple_ite (fun _ => hx) fun _ => hy

end

/-! ### Programs -/

/-- Programs of operations `o` with answers in `ans o`, and of places `τ`. -/
inductive Prog {ι : Type} (ans : ι → Type) (τ : Type) : Type → Type 1
  | pure {α : Type} (a : α) : Prog ans τ α
  | op {α : Type} (o : ι) (k : ans o → Prog ans τ α) : Prog ans τ α
  | setjmp {α β : Type} (t : τ) (x again : Prog ans τ β) (k : β → Prog ans τ α) : Prog ans τ α
  | loop {α : Type} (body : Prog ans τ Bool) (k : Prog ans τ α) : Prog ans τ α

section
variable {ι : Type} {ans : ι → Type} {σ τ α β : Type}

def Prog.bind : {α : Type} → Prog ans τ α → (α → Prog ans τ β) → Prog ans τ β
  | _, .pure a, f => f a
  | _, .op o k, f => .op o fun b => (k b).bind f
  | _, .setjmp t x again k, f => .setjmp t x again fun b => (k b).bind f
  | _, .loop body k, f => .loop body (k.bind f)

instance : Monad (Prog ans τ) where
  pure := .pure
  bind := .bind

def perform (o : ι) : Prog ans τ (ans o) := .op o .pure

def setjmp (t : τ) (x again : Prog ans τ α) : Prog ans τ α := .setjmp t x again .pure

/-- As long as `body` gives `true`. -/
def loop (body : Prog ans τ Bool) : Prog ans τ Unit := .loop body (.pure ())

/-- `n` times. -/
def times : ℕ → Prog ans τ Unit → Prog ans τ Unit
  | 0, _ => pure ()
  | n + 1, x => do
    x
    times n x

variable [DecidableEq τ]

/-- `x`, and `again` whenever there is a jump to `t`. -/
def retry (t : τ) (again : Act σ τ α) : ℕ → Act σ τ α → Act σ τ α
  | 0, _ => halt
  | n + 1, x => fun s =>
    match x s with
    | (.ok a, s') => (.ok a, s')
    | (.error e, s') => if e = some t then retry t again n again s' else (.error e, s')

def iterate (body : Act σ τ Bool) : ℕ → Act σ τ Unit
  | 0 => halt
  | n + 1 => do
    if ← body then iterate body n else pure ()

def Prog.run (exec : (o : ι) → Act σ τ (ans o)) (size : σ → ℕ) :
    {α : Type} → Prog ans τ α → Act σ τ α
  | _, .pure a => Pure.pure a
  | _, .op o k => exec o >>= fun b => (k b).run exec size
  | _, .setjmp t x again k =>
    (fun s => retry t (again.run exec size) (size s + 1) (x.run exec size) s) >>= fun b =>
      (k b).run exec size
  | _, .loop body k => (fun s => iterate (body.run exec size) (size s + 1) s) >>= fun _ =>
    k.run exec size

variable {I : σ → Prop}

theorem keeps_retry {t : τ} {again : Act σ τ α} (hagain : Keeps I again) :
    ∀ (n : ℕ) {x : Act σ τ α}, Keeps I x → Keeps I (retry t again n x)
  | 0, _, _ => keeps_halt
  | n + 1, x, hx => by
    intro s hs
    have h := hx s hs
    rw [retry]
    dsimp only
    split
    next a s' hxs =>
      rw [hxs] at h
      exact h
    next e s' hxs =>
      rw [hxs] at h
      split
      · exact keeps_retry hagain n hagain s' h
      · exact h

omit [DecidableEq τ] in
theorem keeps_iterate {body : Act σ τ Bool} (hbody : Keeps I body) : ∀ n :
    ℕ, Keeps I (iterate body n)
  | 0 => keeps_halt
  | n + 1 => keeps_bind hbody fun _ => keeps_ite (keeps_iterate hbody n) (keeps_pure ())

/-- **The invariant rule:** what every operation keeps, every program keeps. -/
theorem keeps_run {exec : (o : ι) → Act σ τ (ans o)} (size : σ → ℕ)
    (h : ∀ o, Keeps I (exec o)) {α : Type} (p : Prog ans τ α) : Keeps I (p.run exec size) := by
  induction p with
  | pure a => exact keeps_pure a
  | op o k ih => exact keeps_bind (h o) ih
  | setjmp t x again k ihx ihagain ihk =>
    exact keeps_bind (fun s => keeps_retry ihagain _ ihx s) ihk
  | loop body k ihbody ihk => exact keeps_bind (fun s => keeps_iterate ihbody _ s) fun _ => ihk

end

end Inetutils.Lib.Jumps
