import Inetutils.Lib.Templates
import Inetutils.Telnet.Environ

/-! # `expand_line`

The expander of `telnetd/utility.c`. It reads a line with variables, `%u`, and conditions on them,
`%?u{...}{...}`, and grows the expanded line on an obstack; the model keeps of each growth whether
it was a byte of the line or the value of a variable. What the expander does with the line depends
on which variables are set, and not on their values (`expandLine_letters`). -/

namespace Inetutils.Telnetd.Expand

open Lib.Templates Telnet.Proto Telnet.Environ List

abbrev percent : Byte := 37
abbrev slash : Byte := 47
abbrev question : Byte := 63
abbrev backslash : Byte := 92
abbrev lbrace : Byte := 123
abbrev rbrace : Byte := 125

/-! ### Variables -/

/-- What the variables stand for. `auth` is `auth_level >= 0 && autologin == AUTH_VALID`. -/
structure Vars where
  auth : Bool
  timebuf : CString
  remote_hostname : CString
  local_hostname : CString
  line : CString
  terminaltype : Option CString
  user_name : Option CString

/-- `strchr (line + 1, '/')`, past the slash, or the whole line. -/
def ttyName (line : List Byte) : List Byte :=
  match line.tail.dropWhile (· ≠ slash) with
  | [] => line
  | _ :: q => q

/-- The value of a name: `none` when there is no such variable, `some none` when it is not set. -/
abbrev Values := Byte → Option (Option (List Byte))

def varShortName (v : Vars) : Values := fun c =>
  if c = 97 /- a -/ then some (if v.auth then some [111, 107] else none)
  else if c = 100 /- d -/ then some (some v.timebuf.bytes)
  else if c = 104 /- h -/ then some (some v.remote_hostname.bytes)
  else if c = 108 /- l -/ then some (some v.local_hostname.bytes)
  else if c = 116 /- t -/ then some (some (ttyName v.line.bytes))
  else if c = 84 /- T -/ then some (v.terminaltype.map CString.bytes)
  else if c = 117 /- u -/ then some (v.user_name.map CString.bytes)
  else none

/-- Each variable that is set has one letter for its value. -/
def letters (x : Byte) (val : Values) : Values := fun c => (val c).map fun p => p.map fun _ => [x]

/-! ### The expander -/

/-- `fault` is no state of the source: the run has read past the end of the line, or freed what was
not allocated. -/
inductive ExpState
  | continues
  | success
  | error
  | fault
  deriving DecidableEq

/-- `struct line_expander`; `cp` is what is left of the line. -/
structure LineExpander where
  state : ExpState
  level : ℤ
  cp : List Byte
  stk : List (Piece Byte)
  deriving DecidableEq

variable {e : LineExpander}

variable (val : Values)

/-- `_expand_var`. A name in braces that does not end leaves a pointer into the line, which is then
freed. -/
def expandVar (e : LineExpander) : Option (List Byte) × LineExpander :=
  match e.cp with
  | [] => (none, { e with state := .fault })
  | c :: cp =>
    if c = lbrace then
      match cp.dropWhile (· ≠ rbrace) with
      | [] => (none, { e with state := .fault })
      | _ :: cp => (none, { e with state := .error, cp := cp })
    else
      match val c with
      | none => (none, { e with state := .error, cp := cp })
      | some p => (p, { e with cp := cp })

/-- The loop of `_skip_block`: the level it ends at, and what is left. -/
def skipText (level : ℤ) : ℤ → List Byte → ℤ × List Byte
  | cur, [] => (cur, [])
  | cur, c :: cp =>
    if c = lbrace then skipText level (cur + 1) cp
    else if c = rbrace then
      if cur - 1 = level then (cur - 1, cp) else skipText level (cur - 1) cp
    else skipText level cur cp

def skipBlock (e : LineExpander) : LineExpander :=
  if e.cp.head? = some lbrace then
    { e with level := (skipText e.level e.level e.cp).1, cp := (skipText e.level e.level e.cp).2 }
  else e

/-- `_expand_cond`, past the `%`, with `_expand_block` a parameter. -/
def expandCond (expandBlock : LineExpander → LineExpander) (e : LineExpander) : LineExpander :=
  if e.cp.head? = some question then
    let r := expandVar val { e with cp := e.cp.tail }
    if r.1.isSome then skipBlock (expandBlock r.2) else expandBlock (skipBlock r.2)
  else
    let r := expandVar val e
    match r.1 with
    | some p => { r.2 with stk := r.2.stk ++ [.value p] }
    | none => r.2

/-- The `for` loop of `_expand_block`: up to a `%` or the end of the line; `true` when the block
ends before. -/
def expandText (level : ℤ) : ℤ → List Byte → List (Piece Byte) → Bool × LineExpander
  | cur, [], stk => (false, ⟨.continues, cur, [], stk⟩)
  | cur, c :: cp, stk =>
    if c = percent then (false, ⟨.continues, cur, c :: cp, stk⟩)
    else if c = lbrace then expandText level (cur + 1) cp (stk ++ [.lit c])
    else if c = rbrace then
      if cur - 1 = level then (true, ⟨.continues, cur - 1, cp, stk⟩)
      else expandText level (cur - 1) cp (stk ++ [.lit c])
    else if c = backslash then
      match cp with
      | [] => (true, ⟨.fault, cur, [], stk⟩)
      | d :: cp => expandText level cur cp (stk ++ [.lit d])
    else expandText level cur cp (stk ++ [.lit c])

/-- The head of `_expand_block`. -/
def openBlock (e : LineExpander) : LineExpander :=
  if e.cp.head? = some lbrace then { e with level := e.level + 1, cp := e.cp.tail } else e

/-- The `while` loop of `_expand_block`, `level` what it was before the block. The first argument
bounds the calls; more than the bytes left are never needed (`expandLoop_fuel`). -/
def expandLoop : ℕ → ℤ → LineExpander → LineExpander
  | 0, _, e => { e with state := .fault }
  | n + 1, level, e =>
    if e.state ≠ .continues then e
    else
      let r := expandText level e.level e.cp e.stk
      if r.1 then r.2
      else
        match r.2.cp with
        | [] => { r.2 with state := .success }
        | _ :: cp =>
          if cp.head? = some percent then
            expandLoop n level { r.2 with cp := cp.tail, stk := r.2.stk ++ [.lit percent] }
          else
            expandLoop n level
              (expandCond val (fun e => expandLoop n e.level (openBlock e)) { r.2 with cp := cp })

def expandBlock (n : ℕ) (e : LineExpander) : LineExpander := expandLoop val n e.level (openBlock e)

/-- `expand_line`: what is on the obstack, or `none` when the line cannot be expanded. -/
def expandLine (line : List Byte) : Option (List (Piece Byte)) :=
  let e := expandBlock val (line.length + 1) ⟨.continues, 0, line, []⟩
  if e.state = .success then some e.stk else none

/-! ### What a run does to the line and the obstack -/

/-- Where a piece comes from: it is a byte of `cp`, or the value of a variable. -/
def From (cp : List Byte) : Piece Byte → Prop
  | .lit b => b ∈ cp
  | .value p => ∃ c, val c = some (some p)

/-- From `e` to `e'` the run has only gone on in the line, and grown bytes of the line and
values. -/
def Grows (e e' : LineExpander) : Prop :=
  e'.cp <:+ e.cp ∧ ∃ more, e'.stk = e.stk ++ more ∧ ∀ a ∈ more, From val e.cp a

variable {val}

theorem From.mono {cp cp' : List Byte} {a : Piece Byte} (h : From val cp a) (hc : cp ⊆ cp') :
    From val cp' a := by
  rcases a with b | p
  · exact hc h
  · exact h

theorem Grows.refl (e : LineExpander) : Grows val e e := ⟨suffix_rfl, [], by simp⟩

theorem Grows.of_cp {e' : LineExpander} (h : e'.cp <:+ e.cp) (hs : e'.stk = e.stk) :
    Grows val e e' := ⟨h, [], by simp [hs]⟩

theorem Grows.trans {e' e'' : LineExpander} (h : Grows val e e') (h' : Grows val e' e'') :
    Grows val e e'' := by
  obtain ⟨hc, m, hm, hb⟩ := h
  obtain ⟨hc', m', hm', hb'⟩ := h'
  refine ⟨hc'.trans hc, m ++ m', by rw [hm', hm, append_assoc], fun a h => ?_⟩
  rcases mem_append.mp h with h | h
  · exact hb a h
  · exact (hb' a h).mono hc.subset

theorem grows_expandVar (e : LineExpander) : Grows val e (expandVar val e).2 := by
  obtain ⟨state, level, _ | ⟨c, cp⟩, stk⟩ := e
  · exact .of_cp suffix_rfl rfl
  have hc : cp <:+ c :: cp := suffix_cons c cp
  simp only [expandVar]
  split_ifs
  · rcases hd : cp.dropWhile (· ≠ rbrace) with _ | ⟨d, ds⟩
    · exact .of_cp suffix_rfl rfl
    · exact .of_cp (((suffix_cons d ds).trans (hd ▸ dropWhile_suffix _)).trans hc) rfl
  · rcases val c with _ | p
    · exact .of_cp hc rfl
    · exact .of_cp hc rfl

theorem exists_of_expandVar {p : List Byte} (h : (expandVar val e).1 = some p) :
    ∃ c, val c = some (some p) := by
  obtain ⟨state, level, _ | ⟨c, cp⟩, stk⟩ := e
  · simp [expandVar] at h
  simp only [expandVar] at h
  split_ifs at h
  · split at h <;> simp at h
  · rcases hv : val c with _ | q
    · simp [hv] at h
    · simp only [hv] at h
      exact ⟨c, h ▸ hv⟩

theorem skipText_suffix (level cur : ℤ) (cp : List Byte) : (skipText level cur cp).2 <:+ cp := by
  induction cp generalizing cur with
  | nil => exact suffix_rfl
  | cons c cp ih =>
    rw [skipText]
    split_ifs
    · exact (ih _).trans (suffix_cons _ _)
    · exact suffix_cons _ _
    · exact (ih _).trans (suffix_cons _ _)
    · exact (ih _).trans (suffix_cons _ _)

theorem grows_skipBlock (e : LineExpander) : Grows val e (skipBlock e) := by
  unfold skipBlock
  split_ifs
  · exact .of_cp (skipText_suffix _ _ _) rfl
  · exact .refl e

theorem grows_openBlock (e : LineExpander) : Grows val e (openBlock e) := by
  unfold openBlock
  split_ifs
  · exact .of_cp (tail_suffix _) rfl
  · exact .refl e

theorem Grows.of_lit {state state' : ExpState} {level level' : ℤ} {c : Byte} {cp cp' : List Byte}
    {stk : List (Piece Byte)} (h : cp' <:+ cp) (hc : c ∈ cp)
    (he : Grows val ⟨state', level', cp', stk ++ [.lit c]⟩ e) :
    Grows val ⟨state, level, cp, stk⟩ e :=
  .trans ⟨h, [.lit c], rfl, fun a ha => by rw [mem_singleton.mp ha]; exact hc⟩ he

theorem grows_expandText (level cur : ℤ) (cp : List Byte) (stk : List (Piece Byte))
    (state : ExpState) (l : ℤ) :
    Grows val ⟨state, l, cp, stk⟩ (expandText level cur cp stk).2 := by
  fun_induction expandText level cur cp stk generalizing state l with
  | case1 => exact .of_cp suffix_rfl rfl
  | case2 => exact .of_cp suffix_rfl rfl
  | case3 _ _ _ _ ih => exact .of_lit (suffix_cons _ _) mem_cons_self (ih .continues 0)
  | case4 => exact .of_cp (suffix_cons _ _) rfl
  | case5 _ _ _ _ _ _ ih =>
    exact .of_lit (suffix_cons _ _) mem_cons_self (ih .continues 0)
  | case6 => exact .of_cp nil_suffix rfl
  | case7 _ _ d cp _ _ _ ih =>
    exact .of_lit ((suffix_cons d cp).trans (suffix_cons _ _)) (by simp)
      (ih .continues 0)
  | case8 _ _ _ _ _ _ _ _ ih =>
    exact .of_lit (suffix_cons _ _) mem_cons_self (ih .continues 0)

theorem grows_expandCond {block : LineExpander → LineExpander}
    (hb : ∀ e, Grows val e (block e)) (e : LineExpander) :
    Grows val e (expandCond val block e) := by
  unfold expandCond
  split_ifs
  · have h1 : Grows val e { e with cp := e.cp.tail } := .of_cp (tail_suffix _) rfl
    have hv := h1.trans (grows_expandVar _)
    dsimp only
    split_ifs
    · exact hv.trans ((hb _).trans (grows_skipBlock _))
    · exact hv.trans ((grows_skipBlock _).trans (hb _))
  · dsimp only
    split
    · next p hp =>
      refine (grows_expandVar e).trans ⟨suffix_rfl, [.value p], rfl, fun a ha => ?_⟩
      rw [mem_singleton.mp ha]
      exact exists_of_expandVar hp
    · exact grows_expandVar e

theorem grows_expandLoop (n : ℕ) (level : ℤ) (e : LineExpander) :
    Grows val e (expandLoop val n level e) := by
  induction n generalizing level e with
  | zero => exact .of_cp suffix_rfl rfl
  | succ n ih =>
    have ht : Grows val e (expandText level e.level e.cp e.stk).2 := grows_expandText _ _ _ _ _ _
    rw [expandLoop]
    split_ifs
    · exact .refl e
    generalize expandText level e.level e.cp e.stk = r at ht
    dsimp only
    split_ifs
    · exact ht
    refine ht.trans ?_
    split
    · exact .of_cp suffix_rfl rfl
    · next c cp hcp =>
      have hc : cp <:+ r.2.cp := hcp ▸ suffix_cons c cp
      split_ifs with hp
      · have h1 := ih level { r.2 with cp := cp.tail, stk := r.2.stk ++ [.lit percent] }
        exact .of_lit ((tail_suffix cp).trans hc) (hc.subset (mem_of_mem_head? hp)) h1
      · have h1 : Grows val r.2 { r.2 with cp := cp } := .of_cp hc rfl
        have hb : ∀ e, Grows val e (expandLoop val n e.level (openBlock e)) := fun e =>
          (grows_openBlock e).trans (ih _ _)
        exact h1.trans ((grows_expandCond hb _).trans (ih _ _))

/-! ### Enough calls -/

theorem expandCond_congr {block block' : LineExpander → LineExpander}
    (h : ∀ e', e'.cp.length ≤ e.cp.length → block e' = block' e') :
    expandCond val block e = expandCond val block' e := by
  unfold expandCond
  have hv : (expandVar val { e with cp := e.cp.tail }).2.cp.length ≤ e.cp.length :=
    ((grows_expandVar _).1.trans (tail_suffix _)).length_le
  have hs : Grows val _ (skipBlock (expandVar val { e with cp := e.cp.tail }).2) :=
    grows_skipBlock _
  dsimp only
  rw [h _ hv, h _ (hs.1.length_le.trans hv)]

/-- **With more calls than bytes left, their number makes no difference.** -/
theorem expandLoop_fuel {n m : ℕ} (level : ℤ) (e : LineExpander) (hn : e.cp.length < n)
    (hm : e.cp.length < m) : expandLoop val n level e = expandLoop val m level e := by
  induction n generalizing m level e with
  | zero => omega
  | succ n ih =>
    obtain ⟨m, rfl⟩ : ∃ m', m = m' + 1 := ⟨m - 1, by omega⟩
    have ht : Grows val e (expandText level e.level e.cp e.stk).2 := grows_expandText _ _ _ _ _ _
    replace ht := ht.1.length_le
    rw [expandLoop, expandLoop]
    generalize expandText level e.level e.cp e.stk = r at ht
    dsimp only
    rcases hcp : r.2.cp with _ | ⟨c, cp⟩
    · rfl
    rw [hcp, length_cons] at ht
    have hcond : expandCond val (fun e => expandLoop val n e.level (openBlock e))
          { r.2 with cp := cp } =
        expandCond val (fun e => expandLoop val m e.level (openBlock e)) { r.2 with cp := cp } := by
      refine expandCond_congr fun e' (he' : e'.cp.length ≤ cp.length) => ?_
      have ho : Grows val e' (openBlock e') := grows_openBlock e'
      have := ho.1.length_le
      exact ih _ _ (by omega) (by omega)
    have hb : ∀ e, Grows val e (expandLoop val m e.level (openBlock e)) := fun e =>
      (grows_openBlock e).trans (grows_expandLoop _ _ _)
    have hlen : (expandCond val (fun e => expandLoop val m e.level (openBlock e))
        { r.2 with cp := cp }).cp.length ≤ cp.length :=
      (grows_expandCond hb { r.2 with cp := cp }).1.length_le
    have htail : ({ r.2 with cp := cp.tail, stk := r.2.stk ++ [.lit percent] } :
        LineExpander).cp.length ≤ cp.length := (tail_suffix cp).length_le
    dsimp only
    rw [hcond, ih (m := m) _ _ (lt_of_le_of_lt htail (by omega)) (by omega),
      ih (m := m) _ _ (lt_of_le_of_lt hlen (by omega)) (by omega)]

/-! ### Letters for the values -/

def LineExpander.lettered (x : Byte) (e : LineExpander) : LineExpander :=
  { e with stk := e.stk.map (Piece.lettered x) }

section

variable (x : Byte)

theorem expandVar_lettered (e : LineExpander) : expandVar (letters x val) (e.lettered x) =
    ((expandVar val e).1.map fun _ => [x], (expandVar val e).2.lettered x) := by
  obtain ⟨state, level, _ | ⟨c, cp⟩, stk⟩ := e
  · rfl
  simp only [expandVar, LineExpander.lettered, letters]
  split_ifs
  · rcases cp.dropWhile (· ≠ rbrace) with _ | ⟨d, ds⟩ <;> rfl
  · rcases val c with _ | p <;> rfl

theorem skipBlock_lettered (e : LineExpander) :
    skipBlock (e.lettered x) = (skipBlock e).lettered x := by
  unfold skipBlock LineExpander.lettered
  split_ifs <;> rfl

theorem openBlock_lettered (e : LineExpander) :
    openBlock (e.lettered x) = (openBlock e).lettered x := by
  unfold openBlock LineExpander.lettered
  split_ifs <;> rfl

theorem expandText_cons (level cur : ℤ) (c : Byte) (cp : List Byte) (stk : List (Piece Byte)) :
    expandText level cur (c :: cp) stk =
      if c = percent then (false, ⟨.continues, cur, c :: cp, stk⟩)
      else if c = lbrace then expandText level (cur + 1) cp (stk ++ [.lit c])
      else if c = rbrace then
        if cur - 1 = level then (true, ⟨.continues, cur - 1, cp, stk⟩)
        else expandText level (cur - 1) cp (stk ++ [.lit c])
      else if c = backslash then
        match cp with
        | [] => (true, ⟨.fault, cur, [], stk⟩)
        | d :: cp => expandText level cur cp (stk ++ [.lit d])
      else expandText level cur cp (stk ++ [.lit c]) := by
  rcases cp with _ | ⟨d, cp⟩ <;> rfl

theorem expandText_lettered (level cur : ℤ) (cp : List Byte) (stk : List (Piece Byte)) :
    expandText level cur cp (stk.map (Piece.lettered x)) =
      ((expandText level cur cp stk).1, (expandText level cur cp stk).2.lettered x) := by
  fun_induction expandText level cur cp stk with
  | case1 => rfl
  | case2 => rw [expandText_cons, if_pos rfl]; rfl
  | case3 _ _ _ h ih =>
    rw [expandText_cons, if_neg h, if_pos rfl, ← ih, map_append]
    rfl
  | case4 _ _ _ h h1 h2 =>
    rw [expandText_cons, if_neg h1, if_neg h2, if_pos rfl, if_pos h]
    rfl
  | case5 _ _ _ h h1 h2 ih =>
    rw [expandText_cons, if_neg h1, if_neg h2, if_pos rfl, if_neg h, ← ih, map_append]
    rfl
  | case6 _ _ h h1 h2 =>
    rw [expandText_cons, if_neg h, if_neg h1, if_neg h2, if_pos rfl]
    rfl
  | case7 _ _ _ _ h h1 h2 ih =>
    rw [expandText_cons, if_neg h, if_neg h1, if_neg h2, if_pos rfl, ← ih, map_append]
    rfl
  | case8 _ _ _ _ h h1 h2 h3 ih =>
    rw [expandText_cons, if_neg h, if_neg h1, if_neg h2, if_neg h3, ← ih, map_append]
    rfl

theorem expandCond_lettered (block block' : LineExpander → LineExpander)
    (hb : ∀ e, block' (e.lettered x) = (block e).lettered x) (e : LineExpander) :
    expandCond (letters x val) block' (e.lettered x) = (expandCond val block e).lettered x := by
  unfold expandCond
  have ht : ({ e.lettered x with cp := (e.lettered x).cp.tail } : LineExpander) =
      LineExpander.lettered x { e with cp := e.cp.tail } := rfl
  have hh : (e.lettered x).cp.head? = e.cp.head? := rfl
  rw [hh, ht, expandVar_lettered, expandVar_lettered]
  split_ifs
  · simp only [Option.isSome_map]
    split_ifs
    · rw [hb, skipBlock_lettered]
    · rw [skipBlock_lettered, hb]
  · dsimp only
    rcases (expandVar val e).1 with _ | p
    · rfl
    · simp [LineExpander.lettered, Piece.lettered]

theorem expandLoop_lettered (n : ℕ) (level : ℤ) (e : LineExpander) :
    expandLoop (letters x val) n level (e.lettered x) = (expandLoop val n level e).lettered x := by
  induction n generalizing level e with
  | zero => rfl
  | succ n ih =>
    have hs : (e.lettered x).state = e.state := rfl
    have ht : expandText level (e.lettered x).level (e.lettered x).cp (e.lettered x).stk =
        ((expandText level e.level e.cp e.stk).1,
          (expandText level e.level e.cp e.stk).2.lettered x) :=
      expandText_lettered x level e.level e.cp e.stk
    rw [expandLoop, expandLoop, hs, ht]
    split_ifs
    · rfl
    dsimp only
    generalize expandText level e.level e.cp e.stk = r
    split_ifs
    · rfl
    have hc : (r.2.lettered x).cp = r.2.cp := rfl
    rw [hc]
    rcases hcp : r.2.cp with _ | ⟨c, cp⟩
    · rfl
    dsimp only
    split_ifs
    · rw [← ih]
      simp [LineExpander.lettered, Piece.lettered]
    · have hb : ∀ e, expandLoop (letters x val) n (e.lettered x).level (openBlock (e.lettered x)) =
          (expandLoop val n e.level (openBlock e)).lettered x := fun e => by
        rw [openBlock_lettered]; exact ih _ _
      rw [← ih]
      congr 1
      exact expandCond_lettered x (fun e => expandLoop val n e.level (openBlock e)) _ hb
        { r.2 with cp := cp }

/-- **The values of the variables are only copied.** -/
theorem expandLine_letters (line : List Byte) : expandLine (letters x val) line =
    (expandLine val line).map fun ps => ps.map (Piece.lettered x) := by
  have h : expandBlock (letters x val) (line.length + 1) ⟨.continues, 0, line, []⟩ =
      (expandBlock val (line.length + 1) ⟨.continues, 0, line, []⟩).lettered x := by
    rw [expandBlock, expandBlock, ← expandLoop_lettered, ← openBlock_lettered]
    rfl
  simp only [expandLine, h]
  split_ifs with hs hs' hs'
  · rfl
  · exact absurd hs hs'
  · exact absurd hs' hs
  · rfl

end

theorem from_of_mem_expandLine {line : List Byte} {ps : List (Piece Byte)}
    (h : expandLine val line = some ps) {a : Piece Byte} (ha : a ∈ ps) : From val line a := by
  simp only [expandLine] at h
  split_ifs at h with hs
  have hg : Grows val ⟨.continues, 0, line, []⟩
      (expandBlock val (line.length + 1) ⟨.continues, 0, line, []⟩) :=
    (grows_openBlock _).trans (grows_expandLoop _ _ _)
  obtain ⟨-, more, hm, hin⟩ := hg
  rw [Option.some.injEq] at h
  rw [← h, hm, nil_append] at ha
  exact hin a ha

end Inetutils.Telnetd.Expand
