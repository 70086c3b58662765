import Inetutils.Telnetd.Expand

/-! # Where the reading of a line ends

A reader that goes over the line byte by byte, with the blocks that are open on a stack, in step
with the expander: it tells whether the end of the line cuts off an escape, a `%`, a `%?` or a name
in braces that is being read (`cuts`). Just then the expander goes past the end of the line, or
frees what it has not allocated (`fault_iff_cuts`). -/

namespace Inetutils.Telnetd.ExpandCut

open Lib.Templates Telnet.Proto Expand List

/-! ### The reader -/

/-- What the next byte is taken for. In `block` one may begin that is expanded, in `first` and
`second` one of a condition that is skipped; `skip` is in such a block, entered at the level
`base`. -/
inductive Mode
  | text
  | escape
  | percent
  | question
  | name
  | block
  | first
  | second
  | skip (base : ℤ) (first : Bool)
  | ended
  deriving DecidableEq

def Mode.cut : Mode → Bool
  | .escape | .percent | .question | .name => true
  | _ => false

/-- A block that is being expanded: the level before it, and whether a second one is skipped behind
it. -/
structure Block where
  level : ℤ
  skips : Bool
  deriving DecidableEq

structure Reader where
  mode : Mode
  blocks : List Block
  level : ℤ
  deriving DecidableEq

def closed (skips : Bool) (blocks : List Block) (level : ℤ) : Reader :=
  match blocks with
  | [] => ⟨.ended, [], level⟩
  | _ :: _ => ⟨if skips then .second else .text, blocks, level⟩

def Reader.text (r : Reader) (c : Byte) : Reader :=
  if c = percent then { r with mode := .percent }
  else if c = lbrace then { r with mode := .text, level := r.level + 1 }
  else if c = rbrace then
    match r.blocks with
    | [] => { r with mode := .ended }
    | b :: blocks =>
      if r.level - 1 = b.level then closed b.skips blocks (r.level - 1)
      else { r with mode := .text, level := r.level - 1 }
  else if c = backslash then { r with mode := .escape }
  else { r with mode := .text }

variable (val : Values)

def Reader.step (r : Reader) (c : Byte) : Reader :=
  match r.mode with
  | .text => r.text c
  | .escape => { r with mode := .text }
  | .percent =>
    if c = percent then { r with mode := .text }
    else if c = question then { r with mode := .question }
    else if c = lbrace then { r with mode := .name }
    else { r with mode := if (val c).isSome then .text else .ended }
  | .question =>
    if c = lbrace then { r with mode := .name }
    else
      match val c with
      | none => { r with mode := .ended }
      | some none => { r with mode := .first }
      | some (some _) => { r with mode := .block, blocks := ⟨r.level, true⟩ :: r.blocks }
  | .name => if c = rbrace then { r with mode := .ended } else r
  | .block => if c = lbrace then { r with mode := .text, level := r.level + 1 } else r.text c
  | .first =>
    if c = lbrace then { r with mode := .skip r.level true, level := r.level + 1 }
    else Reader.text { r with blocks := ⟨r.level, false⟩ :: r.blocks } c
  | .second =>
    if c = lbrace then { r with mode := .skip r.level false, level := r.level + 1 } else r.text c
  | .skip base first =>
    if c = lbrace then { r with level := r.level + 1 }
    else if c = rbrace then
      if r.level - 1 = base then
        if first then ⟨.block, ⟨base, false⟩ :: r.blocks, base⟩ else ⟨.text, r.blocks, base⟩
      else { r with level := r.level - 1 }
    else r
  | .ended => r

/-- From `r` on, the end of the line cuts something off. -/
def cutsFrom (r : Reader) (l : List Byte) : Bool := (l.foldl (Reader.step val) r).mode.cut

def cuts (line : List Byte) : Bool := cutsFrom val ⟨.block, [⟨0, false⟩], 0⟩ line

/-! ### In step with the expander -/

@[simp] theorem cutsFrom_nil (r : Reader) : cutsFrom val r [] = r.mode.cut := rfl

@[simp] theorem cutsFrom_cons (r : Reader) (c : Byte) (l : List Byte) :
    cutsFrom val r (c :: l) = cutsFrom val (r.step val c) l := rfl

theorem cutsFrom_ended (blocks : List Block) (level : ℤ) (l : List Byte) :
    cutsFrom val ⟨.ended, blocks, level⟩ l = false := by
  induction l with
  | nil => rfl
  | cons c l ih => exact ih

theorem cutsFrom_name (blocks : List Block) (level : ℤ) (l : List Byte) :
    cutsFrom val ⟨.name, blocks, level⟩ l = decide (l.dropWhile (· ≠ rbrace) = []) := by
  induction l with
  | nil => rfl
  | cons c l ih =>
    by_cases hc : c = rbrace
    · subst hc
      rw [dropWhile_cons_of_neg (by simp), decide_eq_false (cons_ne_nil _ _)]
      exact cutsFrom_ended val blocks level l
    · have hstep : Reader.step val ⟨.name, blocks, level⟩ c = ⟨.name, blocks, level⟩ := if_neg hc
      rw [dropWhile_cons_of_pos (by simpa using hc), cutsFrom_cons, hstep, ih]

theorem cutsFrom_skip (base : ℤ) (first : Bool) (blocks : List Block) (level : ℤ) (l : List Byte) :
    cutsFrom val ⟨.skip base first, blocks, level⟩ l =
      cutsFrom val (if first then
        ⟨.block, ⟨(skipText base level l).1, false⟩ :: blocks, (skipText base level l).1⟩
        else ⟨.text, blocks, (skipText base level l).1⟩) (skipText base level l).2 := by
  fun_induction skipText base level l with
  | case1 cur => cases first <;> rfl
  | case2 cur l ih => exact ih
  | case3 cur l hl hb =>
    rw [cutsFrom_cons, hl]
    exact congrArg (cutsFrom val · l) (if_pos hl)
  | case4 cur l hl hb ih =>
    rw [← ih, cutsFrom_cons]
    exact congrArg (cutsFrom val · l) (if_neg hl)
  | case5 cur c l hc h ih =>
    rw [← ih, cutsFrom_cons]
    exact congrArg (cutsFrom val · l) ((if_neg hc).trans (if_neg h))

/-- How a reading goes on behind what the expander has left. -/
def after (k : LineExpander → Bool) (e : LineExpander) : Bool :=
  match e.state with
  | .continues => k e
  | .fault => true
  | _ => false

theorem skipBlock_brace {e : LineExpander} {l : List Byte} (h : e.cp = lbrace :: l) :
    skipBlock e = { e with
    level := (skipText e.level (e.level + 1) l).1, cp :=
  (skipText e.level (e.level + 1) l).2 } := by
  unfold skipBlock
  rw [h]
  rfl

theorem cutsFrom_second (blocks : List Block) (e : LineExpander) :
    cutsFrom val ⟨.second, blocks, e.level⟩ e.cp =
      cutsFrom val ⟨.text, blocks, (skipBlock e).level⟩ (skipBlock e).cp := by
  rcases hcp : e.cp with _ | ⟨c, l⟩
  · simp [skipBlock, hcp, Mode.cut]
  by_cases hc : c = lbrace
  · subst hc
    rw [skipBlock_brace hcp]
    exact cutsFrom_skip val e.level false blocks (e.level + 1) l
  · have hskip : skipBlock e = e := if_neg (by simpa [hcp] using hc)
    rw [hskip, hcp, cutsFrom_cons, cutsFrom_cons]
    exact congrArg (cutsFrom val · l) (if_neg hc)

theorem cutsFrom_block (blocks : List Block) (e : LineExpander) :
    cutsFrom val ⟨.block, blocks, e.level⟩ e.cp =
      cutsFrom val ⟨.text, blocks, (openBlock e).level⟩ (openBlock e).cp := by
  rcases hcp : e.cp with _ | ⟨c, l⟩
  · simp [openBlock, hcp, Mode.cut]
  by_cases hc : c = lbrace
  · subst hc
    have hopen : openBlock e = { e with level := e.level + 1, cp := l } := by simp [openBlock, hcp]
    rw [hopen]
    rfl
  · have hopen : openBlock e = e := if_neg (by simpa [hcp] using hc)
    rw [hopen, hcp, cutsFrom_cons, cutsFrom_cons]
    exact congrArg (cutsFrom val · l) (if_neg hc)

theorem cutsFrom_first (blocks : List Block) (e : LineExpander) :
    cutsFrom val ⟨.first, blocks, e.level⟩ e.cp =
      cutsFrom val ⟨.block, ⟨(skipBlock e).level, false⟩ :: blocks, (skipBlock e).level⟩
      (skipBlock e).cp := by
  rcases hcp : e.cp with _ | ⟨c, l⟩
  · simp [skipBlock, hcp, Mode.cut]
  by_cases hc : c = lbrace
  · subst hc
    rw [skipBlock_brace hcp]
    exact cutsFrom_skip val e.level true blocks (e.level + 1) l
  · have hskip : skipBlock e = e := if_neg (by simpa [hcp] using hc)
    rw [hskip, hcp, cutsFrom_cons, cutsFrom_cons]
    exact congrArg (cutsFrom val · l) ((if_neg hc).trans (if_neg hc).symm)

theorem cutsFrom_text (skips : Bool) (blocks : List Block) (level cur : ℤ) (cp : List Byte)
    (stk : List (Piece Byte)) :
    cutsFrom val ⟨.text, ⟨level, skips⟩ :: blocks, cur⟩ cp =
      if (expandText level cur cp stk).1 then
        after (fun e => cutsFrom val (closed skips blocks e.level) e.cp)
        (expandText level cur cp stk).2
      else cutsFrom val ⟨.text, ⟨level, skips⟩ :: blocks, (expandText level cur cp stk).2.level⟩
        (expandText level cur cp stk).2.cp := by
  fun_induction expandText level cur cp stk with
  | case1 => rfl
  | case2 => rfl
  | case3 cur cp stk h ih =>
    rw [← ih]
    rfl
  | case4 cur cp stk h h1 h2 =>
    have hstep : Reader.step val ⟨.text, ⟨level, skips⟩ :: blocks, cur⟩ rbrace =
      closed skips blocks (cur - 1) := by
      simp [Reader.step, Reader.text, h1, h2, h]
    rw [cutsFrom_cons, hstep]
    rfl
  | case5 cur cp stk h h1 h2 ih =>
    have hstep : Reader.step val ⟨.text, ⟨level, skips⟩ :: blocks, cur⟩ rbrace =
        ⟨.text, ⟨level, skips⟩ :: blocks, cur - 1⟩ := by
      simp [Reader.step, Reader.text, h1, h2, h]
    rw [cutsFrom_cons, hstep, ← ih]
  | case6 cur stk h h1 h2 => rfl
  | case7 cur stk d cp h h1 h2 ih =>
    rw [← ih]
    rfl
  | case8 cur c cp stk h h1 h2 h3 ih =>
    rw [← ih, cutsFrom_cons]
    exact congrArg (cutsFrom val · cp)
      ((if_neg h).trans ((if_neg h1).trans ((if_neg h2).trans (if_neg h3))))

theorem expandText_state (level cur : ℤ) (cp : List Byte) (stk : List (Piece Byte)) :
    (expandText level cur cp stk).1 = false →
    (expandText level cur cp stk).2.state = .continues := by
  fun_induction expandText level cur cp stk <;> simp_all

theorem expandText_stop (level cur : ℤ) (cp : List Byte) (stk : List (Piece Byte)) {c : Byte}
    {l : List Byte} :
    (expandText level cur cp stk).1 = false → (expandText level cur cp stk).2.cp = c :: l →
    c = percent := by
  fun_induction expandText level cur cp stk <;> simp_all

def Reads (blocks : List Block) (block : LineExpander → LineExpander) (e : LineExpander) : Prop :=
  ∀ skips, cutsFrom val ⟨.block, ⟨e.level, skips⟩ :: blocks, e.level⟩ e.cp =
    after (fun e' => cutsFrom val (closed skips blocks e'.level) e'.cp) (block e)

theorem state_skipBlock (e : LineExpander) : (skipBlock e).state = e.state := by
  unfold skipBlock
  split_ifs <;> rfl

theorem state_openBlock (e : LineExpander) : (openBlock e).state = e.state := by
  unfold openBlock
  split_ifs <;> rfl

theorem after_skipBlock (k : LineExpander → Bool) (e : LineExpander) :
    after k (skipBlock e) = after (fun e => k (skipBlock e)) e := by
  unfold after
  rw [state_skipBlock]

section
variable {val} {blocks : List Block} {block : LineExpander → LineExpander}

theorem after_of_state {k : LineExpander → Bool} {e : LineExpander} {state : ExpState}
    (h : e.state = state) (hne : state ≠ .continues) : after k e = decide (state = .fault) := by
  subst h
  unfold after
  rcases hst : e.state
  · exact absurd hst hne
  · rfl
  · rfl
  · rfl

variable (val) in
theorem expandVar_name (state : ExpState) (level : ℤ) (l : List Byte) (stk : List (Piece Byte)) :
    (expandVar val ⟨state, level, lbrace :: l, stk⟩).1 = none ∧
      (expandVar val ⟨state, level, lbrace :: l, stk⟩).2.state =
        if l.dropWhile (· ≠ rbrace) = [] then .fault else .error := by
  rw [expandVar]
  dsimp only
  rcases l.dropWhile (· ≠ rbrace) with _ | ⟨d, ds⟩
  · exact ⟨rfl, rfl⟩
  · exact ⟨rfl, rfl⟩

variable (val) in
theorem expandVar_short {c : Byte} (hc : c ≠ lbrace) (state : ExpState) (level : ℤ) (l : List Byte)
    (stk : List (Piece Byte)) : expandVar val ⟨state, level, c :: l, stk⟩ =
      match val c with
      | none => (none, ⟨.error, level, l, stk⟩)
      | some p => (p, ⟨state, level, l, stk⟩) := by
  rw [expandVar]
  exact if_neg hc

theorem cutsFrom_question (hne : blocks ≠ [])
    (hstop : ∀ e, e.state ≠ .continues → (block e).state = e.state)
    {e : LineExpander} (hst : e.state = .continues)
    (hblock : ∀ e', e'.cp.length ≤ e.cp.length → e'.state = .continues →
      Reads val blocks block e') :
    cutsFrom val ⟨.question, blocks, e.level⟩ e.cp =
      after (fun e' => cutsFrom val ⟨.text, blocks, e'.level⟩ e'.cp)
        (if (expandVar val e).1.isSome then skipBlock (block (expandVar val e).2)
          else block (skipBlock (expandVar val e).2)) := by
  have hends : ∀ e', e'.state ≠ .continues → (block (skipBlock e')).state = e'.state := by
    intro e' he'
    rw [hstop _ (by rwa [state_skipBlock]), state_skipBlock]
  obtain ⟨state, level, cp, stk⟩ := e
  obtain rfl : state = .continues := hst
  rcases cp with _ | ⟨c, l⟩
  · simp only [expandVar, Option.isSome_none, Bool.false_eq_true, if_false]
    rw [after_of_state (hends _ (by simp)) (by simp)]
    rfl
  by_cases hc : c = lbrace
  · subst hc
    obtain ⟨h1, h2⟩ := expandVar_name val .continues level l stk
    have hname : cutsFrom val ⟨.question, blocks, level⟩ (lbrace :: l) =
      decide (l.dropWhile (· ≠ rbrace) = []) :=
      cutsFrom_name val blocks level l
    simp only [h1, Option.isSome_none, Bool.false_eq_true, if_false]
    rw [hname]
    split_ifs at h2 with hd
    · rw [after_of_state (hends _ (by rw [h2]; simp)) (by rw [h2]; simp), h2, decide_eq_true hd]
      rfl
    · rw [after_of_state (hends _ (by rw [h2]; simp)) (by rw [h2]; simp), h2, decide_eq_false hd]
      rfl
  rw [cutsFrom_cons, expandVar_short val hc]
  rcases hv : val c with _ | _ | p
  · have hstep : Reader.step val ⟨.question, blocks, level⟩ c = ⟨.ended, blocks, level⟩ := by
      simp [Reader.step, hc, hv]
    simp only [Option.isSome_none, Bool.false_eq_true, if_false]
    rw [hstep, cutsFrom_ended, after_of_state (hends _ (by simp)) (by simp)]
    rfl
  · have hstep : Reader.step val ⟨.question, blocks, level⟩ c = ⟨.first, blocks, level⟩ := by
      simp [Reader.step, hc, hv]
    have hskip := (@grows_skipBlock val ⟨.continues, level, l, stk⟩).1.length_le
    have hfirst := cutsFrom_first val blocks ⟨.continues, level, l, stk⟩
    have hread :=
      hblock (skipBlock ⟨.continues, level, l, stk⟩) (by dsimp only at hskip; simp; omega)
      (state_skipBlock _) false
    rw [hstep, hfirst, hread]
    obtain ⟨b, bs, rfl⟩ := exists_cons_of_ne_nil hne
    rfl
  · have hstep : Reader.step val ⟨.question, blocks, level⟩ c =
        ⟨.block, ⟨level, true⟩ :: blocks, level⟩ := by
      simp [Reader.step, hc, hv]
    have hread := hblock ⟨.continues, level, l, stk⟩ (by simp) rfl true
    simp only [Option.isSome_some, if_true]
    rw [hstep, hread, after_skipBlock]
    obtain ⟨b, bs, rfl⟩ := exists_cons_of_ne_nil hne
    exact congrArg (after · _) (funext fun e' => cutsFrom_second val (b :: bs) e')

theorem cutsFrom_percent (hne : blocks ≠ [])
    (hstop : ∀ e, e.state ≠ .continues → (block e).state = e.state)
    {e : LineExpander} (hst : e.state = .continues) (hnot : e.cp.head? ≠ some percent)
    (hblock : ∀ e', e'.cp.length ≤ e.cp.length → e'.state = .continues →
      Reads val blocks block e') :
    cutsFrom val ⟨.percent, blocks, e.level⟩ e.cp =
      after (fun e' => cutsFrom val ⟨.text, blocks, e'.level⟩ e'.cp) (expandCond val block e) := by
  obtain ⟨state, level, cp, stk⟩ := e
  obtain rfl : state = .continues := hst
  rcases cp with _ | ⟨c, l⟩
  · rfl
  have hc1 : c ≠ percent := fun h => hnot (congrArg some h)
  by_cases hc2 : c = question
  · subst hc2
    have hquestion := cutsFrom_question hne hstop (e := ⟨.continues, level, l, stk⟩) rfl
      (fun e' he' => hblock e' (he'.trans (Nat.le_succ _)))
    exact hquestion
  rw [expandCond, if_neg (by simpa using hc2)]
  by_cases hc3 : c = lbrace
  · subst hc3
    obtain ⟨h1, h2⟩ := expandVar_name val .continues level l stk
    have hname : cutsFrom val ⟨.percent, blocks, level⟩ (lbrace :: l) =
      decide (l.dropWhile (· ≠ rbrace) = []) :=
      cutsFrom_name val blocks level l
    simp only [h1]
    rw [hname]
    split_ifs at h2 with hd
    · rw [after_of_state h2 (by simp), decide_eq_true hd]
      rfl
    · rw [after_of_state h2 (by simp), decide_eq_false hd]
      rfl
  rw [cutsFrom_cons, expandVar_short val hc3]
  rcases hv : val c with _ | p
  · have hstep : Reader.step val ⟨.percent, blocks, level⟩ c = ⟨.ended, blocks, level⟩ := by
      simp [Reader.step, hc1, hc2, hc3, hv]
    rw [hstep, cutsFrom_ended]
    rfl
  · have hstep : Reader.step val ⟨.percent, blocks, level⟩ c = ⟨.text, blocks, level⟩ := by
      simp [Reader.step, hc1, hc2, hc3, hv]
    rw [hstep]
    rcases p with _ | p <;> rfl

theorem expandLoop_of_state {e : LineExpander} (h : e.state ≠ .continues) (n : ℕ) (level : ℤ) :
    expandLoop val (n + 1) level e = e := by
  rw [expandLoop, if_pos h]

/-- **The loop of a block**, with enough calls: the reader goes on behind what the loop has left. -/
theorem cutsFrom_loop (n : ℕ) (level : ℤ) (e : LineExpander) (hn : e.cp.length < n)
    (hst : e.state = .continues) (skips : Bool) (blocks : List Block) :
    cutsFrom val ⟨.text, ⟨level, skips⟩ :: blocks, e.level⟩ e.cp =
      after (fun e' => cutsFrom val (closed skips blocks e'.level) e'.cp)
      (expandLoop val n level e) := by
  induction n generalizing level e skips blocks with
  | zero => exact absurd hn (Nat.not_lt_zero _)
  | succ n ih =>
    have hlen := (@grows_expandText val level e.level e.cp e.stk .continues 0).1.length_le
    have hstate := expandText_state level e.level e.cp e.stk
    have hpercent := fun c l => expandText_stop level e.level e.cp e.stk (c := c) (l := l)
    rw [cutsFrom_text val skips blocks level e.level e.cp e.stk, expandLoop, if_neg (not_not.2 hst)]
    generalize expandText level e.level e.cp e.stk = r at hlen hstate hpercent ⊢
    dsimp only at hlen ⊢
    by_cases hr : r.1 = true
    · rw [if_pos hr, if_pos hr]
    replace hr : r.1 = false := Bool.eq_false_iff.2 hr
    simp only [hr, Bool.false_eq_true, if_false]
    rcases hcp : r.2.cp with _ | ⟨c, cp⟩
    · rfl
    obtain rfl := hpercent c cp hr hcp
    rw [hcp, length_cons] at hlen
    obtain ⟨m, rfl⟩ : ∃ m, n = m + 1 := ⟨n - 1, by omega⟩
    have hstep : Reader.step val ⟨.text, ⟨level, skips⟩ :: blocks, r.2.level⟩ percent =
        ⟨.percent, ⟨level, skips⟩ :: blocks, r.2.level⟩ := rfl
    dsimp only
    rw [cutsFrom_cons, hstep]
    by_cases hp : cp.head? = some percent
    · obtain ⟨l, rfl⟩ : ∃ l, cp = percent :: l := ⟨cp.tail, (cons_head?_tail hp).symm⟩
      exact ih level { r.2 with cp := l, stk := r.2.stk ++ [.lit percent] }
        (by dsimp only; simp only [length_cons] at hlen; omega) (hstate hr) skips blocks
    rw [if_neg hp]
    have hopens : ∀ e', e'.cp.length ≤ cp.length → e'.state = .continues →
        Reads val (⟨level, skips⟩ :: blocks)
        (fun e => expandLoop val (m + 1) e.level (openBlock e)) e' := by
      intro e' hle hst' skips'
      have hshort := (@grows_openBlock val e').1.length_le
      rw [cutsFrom_block]
      exact ih e'.level (openBlock e') (by omega) ((state_openBlock e').trans hst') skips' _
    have hstop : ∀ e', e'.state ≠ .continues →
        (expandLoop val (m + 1) e'.level (openBlock e')).state = e'.state := by
      intro e' he'
      rw [expandLoop_of_state (by rwa [state_openBlock]), state_openBlock]
    have hcond :=
      cutsFrom_percent (cons_ne_nil _ _) hstop (e := { r.2 with cp := cp }) (hstate hr) hp hopens
    refine hcond.trans ?_
    have hgrows : ∀ e', Grows val e' (expandLoop val (m + 1) e'.level (openBlock e')) := fun e' =>
      (grows_openBlock e').trans (grows_expandLoop _ _ _)
    have hshort := (grows_expandCond hgrows { r.2 with cp := cp }).1.length_le
    generalize expandCond val _ { r.2 with cp := cp } = x at hshort ⊢
    by_cases hx : x.state = .continues
    · rw [← ih level x (by dsimp only at hshort; omega) hx skips blocks]
      unfold after
      rw [hx]
    · rw [expandLoop_of_state hx, after_of_state rfl hx, after_of_state rfl hx]

end

/-- **When the expander gets past the end of the line**, or frees what it did not allocate: just
when the end of the line cuts something off. -/
theorem fault_iff_cuts (line : List Byte) :
    (expandBlock val (line.length + 1) ⟨.continues, 0, line, []⟩).state = .fault ↔
    cuts val line = true := by
  have hlen := (@grows_openBlock val ⟨.continues, 0, line, []⟩).1.length_le
  have hsame := state_openBlock ⟨.continues, 0, line, []⟩
  have hloop := @cutsFrom_loop val (line.length + 1) 0 (openBlock ⟨.continues, 0, line, []⟩)
    (by dsimp only at hlen; omega) hsame false []
  have hblock := cutsFrom_block val [⟨0, false⟩] ⟨.continues, 0, line, []⟩
  rw [cuts, hblock, hloop, expandBlock]
  generalize expandLoop val (line.length + 1) 0 (openBlock ⟨.continues, 0, line, []⟩) = e
  unfold after
  rcases hst : e.state
  · exact iff_of_false (by simp) (by simp [closed, cutsFrom_ended])
  · exact iff_of_false (by simp) (by simp)
  · exact iff_of_false (by simp) (by simp)
  · exact iff_of_true rfl rfl

end Inetutils.Telnetd.ExpandCut
