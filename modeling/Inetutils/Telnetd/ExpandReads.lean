import Inetutils.Lib.Traced
import Inetutils.Telnetd.ExpandCut

/-! # What `expand_line` reads

The same expander over the line in memory: `cp` is a place, and each byte that is looked at is a
read. The line has its bytes and a NUL; a read behind the NUL, and a `free` of a place in the line,
are the last thing that is known of a run. What is put on the obstack is left out: nothing is
decided by it.

The run is that of `Expand` as long as it stays in the line (`sim_block`), and it stays there, and
returns, just when the end of the line cuts nothing off (`stays_iff`). -/

namespace Inetutils.Telnetd.ExpandReads

open Lib.Templates Lib.Traced Telnet.Proto Telnet.Environ
    ExpandCut List Option
open Expand (percent slash question backslash lbrace rbrace Values Vars varShortName ExpState)

variable {l : List Byte} {p : ℕ}

inductive Step
  | read (i : ℕ)

abbrev Run := Prog Step

structure LineExpander where
  state : ExpState
  level : ℤ
  cp : ℕ

/-- What `_expand_var` returns: nothing, an allocated string, or a place in the line. -/
inductive Pointer
  | null
  | allocated
  | inLine (p : ℕ)

section
variable (line : List Byte) (val : Values)

def load (i : ℕ) : Run Byte := do
  emit (.read i)
  if i ≤ line.length then pure (line.getD i 0) else stop

/-- A string is read, from `p` on. -/
def loadString : ℕ → ℕ → Run Unit
  | 0, _ => stop
  | n + 1, p => do
    let c ← load line p
    if c = 0 then pure () else loadString n (p + 1)

def varShort (e : LineExpander) : Run (Pointer × LineExpander) := do
  let c ← load line e.cp
  match val c with
  | none => pure (.null, { e with state := .error, cp := e.cp + 1 })
  | some none => pure (.null, { e with cp := e.cp + 1 })
  | some (some _) => pure (.allocated, { e with cp := e.cp + 1 })

def nameEnd : ℕ → ℕ → Run ℕ
  | 0, _ => stop
  | n + 1, p => do
    let c ← load line p
    if c ≠ 0 ∧ c ≠ rbrace then nameEnd n (p + 1) else pure p

def expandVar (e : LineExpander) : Run (Pointer × LineExpander) := do
  let c ← load line e.cp
  if c = lbrace then
    let q ← nameEnd line (line.length + 2) (e.cp + 1)
    let d ← load line q
    if d = 0 then pure (.inLine (e.cp + 1), { e with state := .error, cp := e.cp + 1 })
    else pure (.null, { e with state := .error, cp := q + 1 })
  else varShort line val e

def skipText (level : ℤ) : ℕ → ℤ → ℕ → Run (ℤ × ℕ)
  | 0, _, _ => stop
  | n + 1, cur, p => do
    let c ← load line p
    if c = 0 then pure (cur, p)
    else if c = lbrace then skipText level n (cur + 1) (p + 1)
    else if c = rbrace then
      if cur - 1 = level then pure (cur - 1, p + 1) else skipText level n (cur - 1) (p + 1)
    else skipText level n cur (p + 1)

def skipBlock (e : LineExpander) : Run LineExpander := do
  let c ← load line e.cp
  if c = lbrace then
    let r ← skipText line e.level (line.length + 2) e.level e.cp
    pure { e with level := r.1, cp := r.2 }
  else pure e

/-- `free`, which only takes what has been allocated. -/
def free : Pointer → Run Unit
  | .inLine _ => stop
  | _ => pure ()

def blocks (expandBlock : LineExpander → Run LineExpander) (r : Pointer × LineExpander) :
    Run LineExpander :=
  match r.1 with
  | .null => do
    let e ← skipBlock line r.2
    expandBlock e
  | _ => do
    let e ← expandBlock r.2
    skipBlock line e

/-- `obstack_grow (&exp->stk, p, strlen (p))`, and `free` -/
def grow : Pointer → Run Unit
  | .inLine p => do
    loadString line (line.length + 2) p
    free (.inLine p)
  | p => free p

/-- `_expand_cond`, at the `%`. -/
def expandCond (expandBlock : LineExpander → Run LineExpander) (e : LineExpander) :
    Run LineExpander := do
  let c ← load line (e.cp + 1)
  if c = question then
    let r ← expandVar line val { e with cp := e.cp + 2 }
    let e' ← blocks line expandBlock r
    free r.1
    pure e'
  else
    let r ← expandVar line val { e with cp := e.cp + 1 }
    grow line r.1
    pure r.2

/-- The `for` loop of `_expand_block`. -/
def expandText (level : ℤ) : ℕ → LineExpander → Run (Bool × LineExpander)
  | 0, _ => stop
  | n + 1, e => do
    let c ← load line e.cp
    if c = 0 ∨ c = percent then pure (false, e)
    else if c = lbrace then expandText level n { e with level := e.level + 1, cp := e.cp + 1 }
    else if c = rbrace then
      if e.level - 1 = level then pure (true, { e with level := e.level - 1, cp := e.cp + 1 })
      else expandText level n { e with level := e.level - 1, cp := e.cp + 1 }
    else if c = backslash then
      let _ ← load line (e.cp + 1)
      expandText level n { e with cp := e.cp + 2 }
    else expandText level n { e with cp := e.cp + 1 }

def openBlock (e : LineExpander) : Run LineExpander := do
  let c ← load line e.cp
  pure (if c = lbrace then { e with level := e.level + 1, cp := e.cp + 1 } else e)

/-- The `while` loop of `_expand_block`. -/
def expandLoop : ℕ → ℤ → LineExpander → Run LineExpander
  | 0, _, _ => stop
  | n + 1, level, e =>
    if e.state ≠ .continues then pure e
    else do
      let r ← expandText line level (line.length + 2) e
      if r.1 then pure r.2
      else
        let c ← load line r.2.cp
        if c = 0 then pure { r.2 with state := .success }
        else
          let d ← load line (r.2.cp + 1)
          if d = percent then expandLoop n level { r.2 with cp := r.2.cp + 2 }
          else
            let e' ← expandCond line val (fun e => openBlock line e >>= expandLoop n e.level) r.2
            expandLoop n level e'

def expandBlock (n : ℕ) (e : LineExpander) : Run LineExpander :=
  openBlock line e >>= expandLoop line val n e.level

/-- `expand_line`; if the line cannot be expanded, the log gets the line and what is left of it. -/
def expandLine : Run Unit := do
  let e ← expandBlock line val (line.length + 1) ⟨.continues, 0, 0⟩
  if e.state = .success then pure ()
  else
    loadString line (line.length + 2) 0
    loadString line (line.length + 2) e.cp

end

/-! ### In the line -/

def Step.Inside (line : List Byte) : Step → Prop
  | .read i => i ≤ line.length

abbrev Gives (line : List Byte) {α : Type} (x : Run α) (a : α) : Prop :=
  Yields (Step.Inside line) x a

/-- `expand_line` returns, and reads only the line and its NUL. -/
def Stays (line : List Byte) (val : Values) : Prop := Gives line (expandLine line val) ()

/-- The rest of the line from `p` on is `l`. -/
def At (line : List Byte) (p : ℕ) (l : List Byte) : Prop := ∃ pre, line = pre ++ l ∧ pre.length = p

def Lost (line : List Byte) (x : Run LineExpander) : Prop :=
  ∀ e, Gives line x e → line.length < e.cp ∧ e.state = .error

/-- What is said of a loop over the text whose result is `r`. -/
def SimText (line : List Byte) (x : Run (Bool × LineExpander)) (r : Bool × Expand.LineExpander) :
    Prop :=
  (r.2.state ≠ .fault → ∃ q, At line q r.2.cp ∧ Gives line x (r.1, ⟨r.2.state, r.2.level, q⟩)) ∧
    (r.2.state = .fault → ∀ a, ¬ Gives line x a)

/-- The expander does what it does on lists, but for a place instead of the rest of the line. -/
def Sim (line : List Byte) (x : Run LineExpander) (r : Expand.LineExpander) : Prop :=
  (r.state ≠ .fault → ∃ q, At line q r.cp ∧ Gives line x ⟨r.state, r.level, q⟩) ∧
    (r.state = .fault → Lost line x)

section
variable {line : List Byte}

theorem At.le (h : At line p l) : p + l.length = line.length := by
  obtain ⟨pre, rfl, rfl⟩ := h
  rw [length_append]

theorem At.succ {c : Byte} (h : At line p (c :: l)) : At line (p + 1) l := by
  obtain ⟨pre, rfl, rfl⟩ := h
  exact ⟨pre ++ [c], by simp, by simp⟩

theorem At.of_nil : At line 0 line := ⟨[], rfl, rfl⟩

theorem gives_load (h : At line p l) : Gives line (load line p) (l.headD 0) := by
  have hle : p ≤ line.length := by
    have := h.le
    omega
  have hget : line.getD p 0 = l.headD 0 := by
    obtain ⟨pre, rfl, rfl⟩ := h
    rcases l with _ | ⟨c, l⟩ <;> simp
  rw [load, ← hget]
  refine yields_bind (yields_emit hle) ?_
  rw [if_pos hle]
  exact yields_pure _

theorem not_gives_load_bind (hp : line.length < p) {α : Type} (f : Byte → Run α) (a : α) :
    ¬ Gives line (load line p >>= f) a := by
  intro h
  obtain ⟨c, hc, -⟩ := yields_bind_iff.1 h
  rw [load] at hc
  exact absurd ((clear_emit_bind _ _).1 hc.1).1 (Nat.not_le.2 hp)

theorem lost_bind {x : Run LineExpander} {f : LineExpander → Run LineExpander} (hx : Lost line x)
    (hf : ∀ e, line.length < e.cp → e.state = .error → Lost line (f e)) : Lost line (x >>= f) := by
  intro e he
  obtain ⟨e', h1, h2⟩ := yields_bind_iff.1 he
  obtain ⟨hcp, hst⟩ := hx e' h1
  exact hf e' hcp hst e h2

theorem lost_of_not_gives {x : Run LineExpander} (h : ∀ e, ¬ Gives line x e) : Lost line x :=
  fun e he => absurd he (h e)

theorem Sim.of_gives {α : Type} {x : Run α} {a : α} (hx : Gives line x a) {f : α → Run LineExpander}
    {r : Expand.LineExpander} (h : Sim line (f a) r) : Sim line (x >>= f) r := by
  refine ⟨fun hr => ?_, fun hr e he => ?_⟩
  · obtain ⟨q, hq, hgives⟩ := h.1 hr
    exact ⟨q, hq, yields_bind hx hgives⟩
  · obtain ⟨a', ha', hf⟩ := yields_bind_iff.1 he
    have heq : a' = a := some.inj (ha'.2.symm.trans hx.2)
    exact h.2 hr e (heq ▸ hf)

theorem Sim.bind {x : Run LineExpander} {r r' : Expand.LineExpander} (hx : Sim line x r)
    {f : LineExpander → Run LineExpander} (hfault : r.state = .fault → r'.state = .fault)
    (hf : ∀ q, r.state ≠ .fault → At line q r.cp → Sim line (f ⟨r.state, r.level, q⟩) r')
    (hlost : ∀ e, line.length < e.cp → e.state = .error → Lost line (f e)) :
    Sim line (x >>= f) r' := by
  by_cases hr : r.state = .fault
  · exact ⟨fun h => absurd (hfault hr) h, fun _ => lost_bind (hx.2 hr) hlost⟩
  · obtain ⟨q, hq, hgives⟩ := hx.1 hr
    exact .of_gives hgives (hf q hr hq)

theorem Sim.pure {r : Expand.LineExpander} {q : ℕ} {level : ℤ} (hr : r.state ≠ .fault)
    (hq : At line q r.cp) (hl : r.level = level) : Sim line (Pure.pure ⟨r.state, level, q⟩) r := by
  subst hl
  exact ⟨fun _ => ⟨q, hq, yields_pure _⟩, fun h => absurd h hr⟩

theorem lost_skipBlock {e : LineExpander} (h : line.length < e.cp) : Lost line (skipBlock line e) :=
  lost_of_not_gives (not_gives_load_bind h _)

variable (h0 : (0 : Byte) ∉ line)

theorem At.head_ne_zero {c : Byte} (h : At line p (c :: l)) (h0 : (0 : Byte) ∉ line) :
    c ≠ 0 := by
  obtain ⟨pre, rfl, rfl⟩ := h
  rintro rfl
  exact h0 (by simp)

include h0

theorem gives_loadString : ∀ (n : ℕ) {p : ℕ} {l : List Byte}, At line p l → l.length < n →
    Gives line (loadString line n p) ()
  | 0, p, l, _, hn => absurd hn (Nat.not_lt_zero _)
  | n + 1, p, l, h, hn => by
    refine yields_bind (gives_load h) ?_
    rcases l with _ | ⟨c, l⟩
    · rw [headD_nil, if_pos rfl]
      exact yields_pure ()
    · rw [headD_cons, if_neg (h.head_ne_zero h0)]
      exact gives_loadString n h.succ (Nat.lt_of_succ_lt_succ hn)

theorem gives_nameEnd : ∀ (n : ℕ) {p : ℕ} {l : List Byte}, At line p l → l.length < n →
    ∃ q, At line q (l.dropWhile (· ≠ rbrace)) ∧ Gives line (nameEnd line n p) q
  | 0, p, l, _, hn => absurd hn (Nat.not_lt_zero _)
  | n + 1, p, l, h, hn => by
    have hload := gives_load h
    rcases l with _ | ⟨c, l⟩
    · refine ⟨p, h, yields_bind hload ?_⟩
      rw [headD_nil, if_neg fun h => h.1 rfl]
      exact yields_pure p
    · by_cases hc : c = rbrace
      · refine ⟨p, by rwa [dropWhile_cons_of_neg (by simpa using hc)], yields_bind hload ?_⟩
        rw [headD_cons, if_neg fun h => h.2 hc]
        exact yields_pure p
      · obtain ⟨q, hq, hgives⟩ := gives_nameEnd n h.succ (Nat.lt_of_succ_lt_succ hn)
        refine ⟨q, by rwa [dropWhile_cons_of_pos (by simpa using hc)], yields_bind hload ?_⟩
        rw [headD_cons, if_pos ⟨h.head_ne_zero h0, hc⟩]
        exact hgives

theorem gives_skipText (level : ℤ) : ∀ (n : ℕ) (cur : ℤ) {p : ℕ} {l : List Byte},
    At line p l → l.length < n → ∃ q, At line q (Expand.skipText level cur l).2 ∧
      Gives line (skipText line level n cur p) ((Expand.skipText level cur l).1, q)
  | 0, cur, p, l, _, hn => absurd hn (Nat.not_lt_zero _)
  | n + 1, cur, p, l, h, hn => by
    have hload := gives_load h
    rcases l with _ | ⟨c, l⟩
    · refine ⟨p, h, yields_bind hload ?_⟩
      rw [headD_nil, if_pos rfl]
      exact yields_pure (cur, p)
    have hnext : ∀ cur', ∃ q, At line q (Expand.skipText level cur' l).2 ∧
        Gives line (skipText line level n cur' (p + 1)) ((Expand.skipText level cur' l).1, q) :=
      fun cur' => gives_skipText level n cur' h.succ (Nat.lt_of_succ_lt_succ hn)
    rw [Expand.skipText]
    by_cases hl : c = lbrace
    · obtain ⟨q, hq, hgives⟩ := hnext (cur + 1)
      rw [if_pos hl]
      refine ⟨q, hq, yields_bind hload ?_⟩
      rw [headD_cons, if_neg (h.head_ne_zero h0), if_pos hl]
      exact hgives
    rw [if_neg hl]
    by_cases hr : c = rbrace
    · rw [if_pos hr]
      by_cases hlev : cur - 1 = level
      · rw [if_pos hlev]
        refine ⟨p + 1, h.succ, yields_bind hload ?_⟩
        rw [headD_cons, if_neg (h.head_ne_zero h0), if_neg hl, if_pos hr, if_pos hlev]
        exact yields_pure _
      · obtain ⟨q, hq, hgives⟩ := hnext (cur - 1)
        rw [if_neg hlev]
        refine ⟨q, hq, yields_bind hload ?_⟩
        rw [headD_cons, if_neg (h.head_ne_zero h0), if_neg hl, if_pos hr, if_neg hlev]
        exact hgives
    · obtain ⟨q, hq, hgives⟩ := hnext cur
      rw [if_neg hr]
      refine ⟨q, hq, yields_bind hload ?_⟩
      rw [headD_cons, if_neg (h.head_ne_zero h0), if_neg hl, if_neg hr]
      exact hgives

/-! ### In step with the expander -/

omit h0 in
theorem headD_eq_lbrace {l : List Byte} : l.headD 0 = lbrace ↔ l.head? = some lbrace := by
  cases l with
  | nil => decide
  | cons c l => exact some_inj.symm

theorem gives_skipBlock {x : Expand.LineExpander} (h : At line p x.cp) :
    ∃ q, At line q (Expand.skipBlock x).cp ∧
      Gives line (skipBlock line ⟨x.state, x.level, p⟩)
      ⟨x.state, (Expand.skipBlock x).level, q⟩ := by
  have hload := gives_load h
  have hle := h.le
  unfold Expand.skipBlock
  by_cases hc : x.cp.head? = some lbrace
  · obtain ⟨q, hq, hgives⟩ := gives_skipText h0 x.level (line.length + 2) x.level h (by omega)
    rw [if_pos hc]
    refine ⟨q, hq, yields_bind hload ?_⟩
    rw [if_pos (headD_eq_lbrace.2 hc)]
    exact yields_bind hgives (yields_pure _)
  · rw [if_neg hc]
    refine ⟨p, h, yields_bind hload ?_⟩
    rw [if_neg (mt headD_eq_lbrace.1 hc)]
    exact yields_pure _

omit h0 in
theorem gives_openBlock {x : Expand.LineExpander} (h : At line p x.cp) :
    ∃ q, At line q (Expand.openBlock x).cp ∧
      Gives line (openBlock line ⟨x.state, x.level, p⟩)
      ⟨x.state, (Expand.openBlock x).level, q⟩ := by
  have hload := gives_load h
  unfold Expand.openBlock
  by_cases hc : x.cp.head? = some lbrace
  · obtain ⟨l, hl⟩ := head?_eq_some_iff.1 hc
    have hnext : At line (p + 1) x.cp.tail := by
      rw [hl] at h ⊢
      exact h.succ
    rw [if_pos hc]
    refine ⟨p + 1, hnext, yields_bind hload ?_⟩
    rw [if_pos (headD_eq_lbrace.2 hc)]
    exact yields_pure _
  · rw [if_neg hc]
    refine ⟨p, h, yields_bind hload ?_⟩
    rw [if_neg (mt headD_eq_lbrace.1 hc)]
    exact yields_pure _

omit h0 in
theorem SimText.load {c : Byte} (hc : Gives line (load line p) c)
    {f : Byte → Run (Bool × LineExpander)} {r : Bool × Expand.LineExpander}
    (h : SimText line (f c) r) :
    SimText line (ExpandReads.load line p >>= f) r := by
  refine ⟨fun hr => ?_, fun hr a ha => ?_⟩
  · obtain ⟨q, hq, hgives⟩ := h.1 hr
    exact ⟨q, hq, yields_bind hc hgives⟩
  · obtain ⟨c', hc', hf⟩ := yields_bind_iff.1 ha
    have heq : c' = c := some.inj (hc'.2.symm.trans hc.2)
    exact h.2 hr a (heq ▸ hf)

theorem sim_expandText (level : ℤ) :
    ∀ (n : ℕ) (cur : ℤ) {p : ℕ} {l : List Byte} (stk : List (Piece Byte)),
    At line p l → l.length < n →
    SimText line (expandText line level n ⟨.continues, cur, p⟩) (Expand.expandText level cur l stk)
  | 0, cur, p, l, stk, _, hn => absurd hn (Nat.not_lt_zero _)
  | n + 1, cur, p, l, stk, h, hn => by
    have hload := gives_load h
    rcases l with _ | ⟨c, l⟩
    · refine .load hload ⟨fun _ => ⟨p, h, ?_⟩, fun hf => nomatch hf⟩
      rw [headD_nil, if_pos (.inl rfl)]
      exact yields_pure _
    have hlen : l.length < n := Nat.lt_of_succ_lt_succ hn
    rw [headD_cons] at hload
    refine .load hload ?_
    rw [Expand.expandText_cons]
    by_cases h1 : c = percent
    · rw [if_pos h1, if_pos (.inr h1)]
      exact ⟨fun _ => ⟨p, h, yields_pure _⟩, fun hf => nomatch hf⟩
    rw [if_neg h1, if_neg (not_or.2 ⟨h.head_ne_zero h0, h1⟩)]
    by_cases h2 : c = lbrace
    · rw [if_pos h2, if_pos h2]
      exact sim_expandText level n (cur + 1) _ h.succ hlen
    rw [if_neg h2, if_neg h2]
    by_cases h3 : c = rbrace
    · rw [if_pos h3, if_pos h3]
      by_cases hlev : cur - 1 = level
      · rw [if_pos hlev, if_pos hlev]
        exact ⟨fun _ => ⟨p + 1, h.succ, yields_pure _⟩, fun hf => nomatch hf⟩
      · rw [if_neg hlev, if_neg hlev]
        exact sim_expandText level n (cur - 1) _ h.succ hlen
    rw [if_neg h3, if_neg h3]
    by_cases h4 : c = backslash
    · rw [if_pos h4, if_pos h4]
      refine .load (gives_load h.succ) ?_
      rcases l with _ | ⟨d, l⟩
      · refine ⟨fun hf => absurd rfl hf, fun _ a ha => ?_⟩
        have hout : line.length < p + 2 := by
          have hle := h.le
          simp only [length_singleton] at hle
          omega
        rcases n with _ | n
        · exact nomatch ha.2
        · exact not_gives_load_bind hout _ a ha
      · exact sim_expandText level n cur _ h.succ.succ (Nat.lt_of_succ_lt hlen)
    · rw [if_neg h4, if_neg h4]
      exact sim_expandText level n cur _ h.succ hlen

/-! ### Variables -/

/-- What `_expand_var` returns for a value. -/
def pointer : Option (List Byte) → Pointer
  | none => .null
  | some _ => .allocated

variable {val : Values}

omit h0 in
theorem gives_varShort (level : ℤ) {c : Byte} (h : At line p (c :: l)) (hc : c ≠ lbrace)
    (stk : List (Piece Byte)) :
    (Expand.expandVar val ⟨.continues, level, c :: l, stk⟩).2.state ≠ .fault ∧
      (Expand.expandVar val ⟨.continues, level, c :: l, stk⟩).2.cp = l ∧
      Gives line (expandVar line val ⟨.continues, level, p⟩)
        (pointer (Expand.expandVar val ⟨.continues, level, c :: l, stk⟩).1,
          ⟨(Expand.expandVar val ⟨.continues, level, c :: l, stk⟩).2.state, level, p + 1⟩) := by
  have hload : Gives line (load line p) c := gives_load h
  have hshort : Gives line (expandVar line val ⟨.continues, level, p⟩)
      (match val c with
        | none => (.null, ⟨.error, level, p + 1⟩)
        | some none => (.null, ⟨.continues, level, p + 1⟩)
        | some (some _) => (.allocated, ⟨.continues, level, p + 1⟩)) := by
    refine yields_bind hload ?_
    rw [if_neg hc]
    refine yields_bind hload ?_
    rcases val c with _ | _ | v <;> exact yields_pure _
  rw [expandVar_short val hc]
  rcases hv : val c with _ | _ | v
  · rw [hv] at hshort
    exact ⟨by simp, rfl, hshort⟩
  · rw [hv] at hshort
    exact ⟨by simp, rfl, hshort⟩
  · rw [hv] at hshort
    exact ⟨by simp, rfl, hshort⟩

variable (hval : val 0 = none)
include hval

/-- A variable is read in the line, but for one that is cut off: then the name is taken to be the
NUL, or a place in the line is returned. -/
theorem gives_expandVar (level : ℤ) (h : At line p l) (stk : List (Piece Byte)) :
    ((Expand.expandVar val ⟨.continues, level, l, stk⟩).2.state ≠ .fault ∧
      (Expand.expandVar val ⟨.continues, level, l, stk⟩).2.level = level ∧
      ∃ q, At line q (Expand.expandVar val ⟨.continues, level, l, stk⟩).2.cp ∧
        Gives line (expandVar line val ⟨.continues, level, p⟩)
          (pointer (Expand.expandVar val ⟨.continues, level, l, stk⟩).1,
            ⟨(Expand.expandVar val ⟨.continues, level, l, stk⟩).2.state, level, q⟩)) ∨
    ((Expand.expandVar val ⟨.continues, level, l, stk⟩).1 = none ∧
      (Expand.expandVar val ⟨.continues, level, l, stk⟩).2.state = .fault ∧
      ∃ r e, Gives line (expandVar line val ⟨.continues, level, p⟩) (r, e) ∧
        ((∃ a, r = .inLine a) ∨ r = .null ∧ line.length < e.cp ∧ e.state = .error)) := by
  have hload := gives_load h
  have hle := h.le
  rcases l with _ | ⟨c, l⟩
  · refine .inr ⟨rfl, rfl, .null, ⟨.error, level, p + 1⟩, ?_, .inr ⟨rfl, ?_, rfl⟩⟩
    · refine yields_bind hload ?_
      rw [headD_nil, if_neg (by decide)]
      refine yields_bind hload ?_
      rw [headD_nil, hval]
      exact yields_pure _
    · simp only [length_nil] at hle
      dsimp only
      omega
  by_cases hc : c = lbrace
  · subst hc
    obtain ⟨q, hq, hend⟩ :=
      gives_nameEnd h0 (line.length + 2) h.succ (by simp only [length_cons] at hle; omega)
    have hloadq := gives_load hq
    rw [Expand.expandVar]
    dsimp only
    rcases hd : l.dropWhile (· ≠ rbrace) with _ | ⟨d, ds⟩
    · refine .inr ⟨rfl, rfl, .inLine (p + 1), ⟨.error, level, p + 1⟩, ?_, .inl ⟨_, rfl⟩⟩
      rw [hd, headD_nil] at hloadq
      refine yields_bind hload ?_
      rw [headD_cons, if_pos rfl]
      refine yields_bind hend (yields_bind hloadq ?_)
      exact yields_pure _
    · rw [hd] at hq
      rw [hd, headD_cons] at hloadq
      refine .inl ⟨by simp, rfl, q + 1, hq.succ, ?_⟩
      refine yields_bind hload ?_
      rw [headD_cons, if_pos rfl]
      refine yields_bind hend (yields_bind hloadq ?_)
      rw [if_neg (hq.head_ne_zero h0)]
      exact yields_pure _
  · obtain ⟨hst, hcp, hgives⟩ := gives_varShort level h hc stk
    refine .inl ⟨hst, ?_, p + 1, ?_, hgives⟩
    · rw [expandVar_short val hc]
      rcases val c with _ | v <;> rfl
    · rw [hcp]
      exact h.succ

omit hval in
theorem sim_blocks {block : Expand.LineExpander → Expand.LineExpander}
    {expandBlock : LineExpander → Run LineExpander}
    {x : Expand.LineExpander} {q : ℕ} (hx : x.state ≠ .fault) (hq : At line q x.cp)
    (hblock : ∀ x' q, At line q x'.cp → x'.cp.length ≤ x.cp.length → x'.state ≠ .fault →
      Sim line (expandBlock ⟨x'.state, x'.level, q⟩) (block x')) (v : Option (List Byte)) :
    Sim line (blocks line expandBlock (pointer v, ⟨x.state, x.level, q⟩))
      (if v.isSome then Expand.skipBlock (block x) else block (Expand.skipBlock x)) := by
  rcases v with _ | v
  · obtain ⟨q', hq', hskip⟩ := gives_skipBlock h0 hq
    have hle := (@Expand.grows_skipBlock (fun _ => none) x).1.length_le
    have hst := state_skipBlock x
    have hnext := hblock (Expand.skipBlock x) q' hq' hle (hst ▸ hx)
    rw [hst] at hnext
    exact .of_gives hskip hnext
  · refine (hblock x q hq le_rfl hx).bind (fun h => (state_skipBlock _).trans h) ?_
      fun e hcp _ => lost_skipBlock hcp
    intro q' hne hq'
    obtain ⟨q'', hq'', hskip⟩ := gives_skipBlock h0 hq'
    have hst := state_skipBlock (block x)
    rw [← hst] at hskip hne
    exact ⟨fun _ => ⟨q'', hq'', hst ▸ hskip⟩, fun h => absurd h hne⟩

theorem sim_expandCond {block : Expand.LineExpander → Expand.LineExpander}
    {expandBlock : LineExpander → Run LineExpander} {level : ℤ} {stk : List (Piece Byte)}
    (h : At line p (percent :: l))
    (hstop : ∀ x, x.state = .fault → (block x).state = .fault)
    (hblock : ∀ x q, At line q x.cp → x.cp.length ≤ l.length → x.state ≠ .fault →
      Sim line (expandBlock ⟨x.state, x.level, q⟩) (block x)) :
    Sim line (expandCond line val expandBlock ⟨.continues, level, p⟩)
      (Expand.expandCond val block ⟨.continues, level, l, stk⟩) := by
  have hload := gives_load h.succ
  refine .of_gives hload ?_
  by_cases hc : l.head? = some question
  · obtain ⟨l, rfl⟩ : ∃ l', l = question :: l' := ⟨l.tail, (cons_head?_tail hc).symm⟩
    rw [headD_cons, if_pos rfl, Expand.expandCond, if_pos hc]
    dsimp only [tail_cons]
    have hshort := (@Expand.grows_expandVar val ⟨.continues, level, l, stk⟩).1.length_le
    obtain ⟨hst, hlev, q, hq, hgives⟩ | ⟨hnone, hst, r, e, hgives, hr⟩ :=
      gives_expandVar h0 hval level h.succ.succ stk
    · refine .of_gives hgives ?_
      have hblocks := sim_blocks h0 hst hq
        (fun x' q' hq' hle hx' => hblock x' q' hq' (hle.trans (hshort.trans (Nat.le_succ _))) hx')
        (Expand.expandVar val ⟨.continues, level, l, stk⟩).1
      rw [hlev] at hblocks
      have hfree :
          Gives line (free (pointer (Expand.expandVar val ⟨.continues, level, l, stk⟩).1)) () := by
        rcases (Expand.expandVar val ⟨.continues, level, l, stk⟩).1 <;> exact yields_pure ()
      refine hblocks.bind id
        (fun q' hne hq' => .of_gives hfree (.pure hne hq' rfl)) fun e hcp hst' e' he' => ?_
      obtain ⟨_, -, hend⟩ := yields_bind_iff.1 he'
      rw [← some.inj hend.2]
      exact ⟨hcp, hst'⟩
    · have hfault :
          (block (Expand.skipBlock (Expand.expandVar val ⟨.continues, level, l, stk⟩).2)).state =
          .fault :=
        hstop _ ((state_skipBlock _).trans hst)
      simp only [hnone, isSome_none, Bool.false_eq_true, if_false]
      refine ⟨fun h => absurd hfault h, fun _ => lost_of_not_gives fun a ha => ?_⟩
      obtain ⟨r', hr', hrest⟩ := yields_bind_iff.1 ha
      obtain rfl : r' = (r, e) := some.inj (hr'.2.symm.trans hgives.2)
      obtain ⟨e', hb, hf⟩ := yields_bind_iff.1 hrest
      obtain ⟨a', rfl⟩ | ⟨rfl, hcp, -⟩ := hr
      · obtain ⟨_, hfree, -⟩ := yields_bind_iff.1 hf
        exact (some_ne_none _ hfree.2.symm).elim
      · exact not_gives_load_bind hcp _ _ (yields_bind_iff.1 hb).choose_spec.1
  · have hc' : l.headD 0 ≠ question := by
      rcases l with _ | ⟨c, l⟩
      · decide
      · exact fun h => hc (congrArg some h)
    rw [if_neg hc', Expand.expandCond, if_neg hc]
    dsimp only
    obtain ⟨hst, hlev, q, hq, hgives⟩ | ⟨hnone, hst, r, e, hgives, hr⟩ :=
      gives_expandVar h0 hval level h.succ stk
    · refine .of_gives hgives (.of_gives (a := ()) ?_ ?_)
      · rcases (Expand.expandVar val ⟨.continues, level, l, stk⟩).1 <;> exact yields_pure ()
      · rcases hv : (Expand.expandVar val ⟨.continues, level, l, stk⟩).1 with _ | v
        · exact .pure hst hq hlev
        · exact .pure (r := { (Expand.expandVar val ⟨.continues, level, l, stk⟩).2 with
            stk := (Expand.expandVar val ⟨.continues, level, l, stk⟩).2.stk ++ [.value v] }) hst hq
            hlev
    · simp only [hnone]
      refine ⟨fun h => absurd hst h, fun _ a ha => ?_⟩
      obtain ⟨r', hr', hrest⟩ := yields_bind_iff.1 ha
      obtain rfl : r' = (r, e) := some.inj (hr'.2.symm.trans hgives.2)
      obtain ⟨_, hgrow, hend⟩ := yields_bind_iff.1 hrest
      obtain ⟨a', rfl⟩ | ⟨rfl, hcp, hst'⟩ := hr
      · obtain ⟨_, -, hfree⟩ := yields_bind_iff.1 hgrow
        exact (some_ne_none _ hfree.2.symm).elim
      · rw [← some.inj hend.2]
        exact ⟨hcp, hst'⟩

omit h0 hval in
theorem lost_expandLoop {e : LineExpander} (hcp : line.length < e.cp) (hst : e.state = .error) :
    ∀ n level, Lost line (expandLoop line val n level e)
  | 0, _ => fun _ h => nomatch h.2
  | n + 1, level => by
    intro a ha
    rw [expandLoop, if_pos (by rw [hst]; decide)] at ha
    rw [← some.inj ha.2]
    exact ⟨hcp, hst⟩

theorem sim_expandLoop (n : ℕ) (level : ℤ) (x : Expand.LineExpander) (h : At line p x.cp)
    (hn : x.cp.length < n) (hx : x.state ≠ .fault) :
    Sim line (expandLoop line val n level ⟨x.state, x.level, p⟩)
    (Expand.expandLoop val n level x) := by
  induction n generalizing level x p with
  | zero => exact absurd hn (Nat.not_lt_zero _)
  | succ n ih =>
    rw [expandLoop, Expand.expandLoop]
    by_cases hst : x.state = .continues
    swap
    · rw [if_pos hst, if_pos hst]
      exact .pure hx h rfl
    rw [if_neg (not_not.2 hst), if_neg (not_not.2 hst), hst]
    have htext := sim_expandText h0 level (line.length + 2) x.level x.stk h (by have := h.le; omega)
    have hlen := (@Expand.grows_expandText val level x.level x.cp x.stk .continues 0).1.length_le
    have hstate := expandText_state level x.level x.cp x.stk
    have hpercent := fun c l => expandText_stop level x.level x.cp x.stk (c := c) (l := l)
    generalize Expand.expandText level x.level x.cp x.stk = r at htext hlen hstate hpercent ⊢
    dsimp only at hlen ⊢
    by_cases hfault : r.2.state = .fault
    · have hr : r.1 = true := by
        rcases hr : r.1 with _ | _
        · rw [hstate hr] at hfault
          cases hfault
        · rfl
      rw [if_pos hr]
      refine ⟨fun h => absurd hfault h, fun _ => lost_of_not_gives fun a ha => ?_⟩
      obtain ⟨b, hb, -⟩ := yields_bind_iff.1 ha
      exact htext.2 hfault b hb
    obtain ⟨q, hq, hgives⟩ := htext.1 hfault
    refine .of_gives hgives ?_
    by_cases hr : r.1 = true
    · rw [if_pos hr, if_pos hr]
      exact .pure hfault hq rfl
    replace hr : r.1 = false := Bool.eq_false_iff.2 hr
    simp only [hr, Bool.false_eq_true, if_false]
    refine .of_gives (gives_load hq) ?_
    rcases hcp : r.2.cp with _ | ⟨c, cp⟩
    · rw [headD_nil, if_pos rfl]
      rw [hcp] at hq
      exact .pure (r := { r.2 with state := .success, cp := [] }) (by simp) hq rfl
    obtain rfl := hpercent c cp hr hcp
    rw [hcp] at hq
    rw [hcp, length_cons] at hlen
    rw [headD_cons, if_neg (by decide)]
    refine .of_gives (gives_load hq.succ) ?_
    obtain ⟨m, rfl⟩ : ∃ m, n = m + 1 := ⟨n - 1, by omega⟩
    dsimp only
    by_cases hp : cp.head? = some percent
    · obtain ⟨l, rfl⟩ : ∃ l, cp = percent :: l := ⟨cp.tail, (cons_head?_tail hp).symm⟩
      rw [headD_cons, if_pos rfl, if_pos hp]
      have hshort : l.length < m + 1 := by
        simp only [length_cons] at hlen
        omega
      exact ih level
        { r.2 with cp := l, stk := r.2.stk ++ [.lit percent] } hq.succ.succ hshort hfault
    have hp' : cp.headD 0 ≠ percent := by
      rcases cp with _ | ⟨c, cp⟩
      · decide
      · exact fun h => hp (congrArg some h)
    rw [if_neg hp', if_neg hp]
    have hcond :
        Sim line
        (expandCond line val (fun e => openBlock line e >>= expandLoop line val (m + 1) e.level)
        ⟨.continues, r.2.level, q⟩) (Expand.expandCond val
          (fun e => Expand.expandLoop val (m + 1) e.level (Expand.openBlock e)) ⟨.continues,
            r.2.level, cp, r.2.stk⟩) := by
      refine sim_expandCond h0 hval hq (fun e he => ?_) fun e p' hp' hle he => ?_
      · rw [expandLoop_of_state (by rw [state_openBlock, he]; decide), state_openBlock, he]
      · obtain ⟨q', hq', hopen⟩ := gives_openBlock hp'
        have hshort := (@Expand.grows_openBlock val e).1.length_le
        have hloop := ih e.level (Expand.openBlock e) hq' (by omega) (by rwa [state_openBlock])
        rw [state_openBlock] at hloop
        exact .of_gives hopen hloop
    have hgrows :
        ∀ e', Expand.Grows val e' (Expand.expandLoop val (m + 1) e'.level (Expand.openBlock e')) :=
      fun e' => (Expand.grows_openBlock e').trans (Expand.grows_expandLoop _ _ _)
    have hshort := (Expand.grows_expandCond hgrows ⟨.continues, r.2.level, cp, r.2.stk⟩).1.length_le
    have hst' : r.2.state = .continues := hstate hr
    rw [hst']
    refine hcond.bind (fun hf => ?_)
      (fun q' hne hq' => ih level _ hq' (by dsimp only at hshort; omega) hne)
      fun e hcp' hst' => lost_expandLoop hcp' hst' _ _
    rw [expandLoop_of_state (by rw [hf]; decide)]
    exact hf

/-- **The run**, in step with the expander on lists. -/
theorem sim_block : Sim line (expandBlock line val (line.length + 1) ⟨.continues, 0, 0⟩)
    (Expand.expandBlock val (line.length + 1) ⟨.continues, 0, line, []⟩) := by
  obtain ⟨q, hq, hopen⟩ := gives_openBlock (x := ⟨.continues, 0, line, []⟩) At.of_nil
  have hshort := (@Expand.grows_openBlock val ⟨.continues, 0, line, []⟩).1.length_le
  have hst := state_openBlock ⟨.continues, 0, line, []⟩
  have hloop :=
    sim_expandLoop h0 hval (line.length + 1) 0 (Expand.openBlock ⟨.continues, 0, line, []⟩) hq
    (by dsimp only at hshort; omega) (by rw [hst]; exact nofun)
  rw [hst] at hloop
  exact .of_gives hopen hloop

theorem stays_iff_state : Stays line val ↔
    (Expand.expandBlock val (line.length + 1) ⟨.continues, 0, line, []⟩).state ≠ .fault := by
  have hsim := sim_block h0 hval
  constructor
  · intro h hfault
    obtain ⟨e, he, hrest⟩ := yields_bind_iff.1 h
    obtain ⟨hcp, hst⟩ := hsim.2 hfault e he
    rw [if_neg (by rw [hst]; decide)] at hrest
    obtain ⟨_, -, hlog⟩ := yields_bind_iff.1 hrest
    exact not_gives_load_bind hcp _ _ hlog
  · intro hne
    obtain ⟨q, hq, hgives⟩ := hsim.1 hne
    refine yields_bind hgives ?_
    split
    · exact yields_pure ()
    · have hle := hq.le
      exact yields_bind (gives_loadString h0 _ At.of_nil (by omega))
        (gives_loadString h0 _ hq (by omega))

end

/-! ### The whole -/

/-- **When `expand_line` stays in the line, and returns:** just when the end of the line cuts
nothing off. -/
theorem stays_iff (v : Vars) (line : CString) :
    Stays line.bytes (varShortName v) ↔ cuts (varShortName v) line.bytes = false := by
  rw [stays_iff_state line.nul rfl, ne_eq, fault_iff_cuts, Bool.not_eq_true]

def someVars : Vars :=
  ⟨false, ⟨[49], by decide⟩, ⟨[104], by decide⟩, ⟨[108], by decide⟩, ⟨[47, 116], by decide⟩,
  none, none⟩

/-- A line that ends with a `%`. -/
theorem not_stays_percent : ¬ ∀ (v : Vars) (line : CString), Stays line.bytes (varShortName v) := by
  intro h
  have hbad := h someVars ⟨[percent], by decide⟩
  rw [stays_iff_state (by decide) rfl] at hbad
  exact absurd (by decide) hbad

end Inetutils.Telnetd.ExpandReads
