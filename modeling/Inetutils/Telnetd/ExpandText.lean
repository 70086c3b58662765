import Inetutils.Telnetd.ExpandReads

/-! # What a format string means

The strings that `expand_line` is for, as trees: text, with braces that nest, `\c`, `%%`, variables
and conditions with one or two blocks. Read as a tree, a string gives its parts in order, of a
condition the block that its variable selects (`eval`).

The expander gives the same (`expandLine_print`) where it comes to none of these (`Follows`): a
block to skip whose braces only nest with the escaped ones left out, which `_skip_block` counts like
the others; a condition with one block, that is not selected, inside a block: what is behind it is
expanded as if it were the second one, over the brace that ends the block around it; and the second
one of braces in the text that stand in no block, which ends the whole. -/

namespace Inetutils.Telnetd.ExpandText

open Lib.Templates Telnet.Proto Telnet.Environ List
open Expand ExpandCut
open ExpandReads (someVars)

variable {e : LineExpander} {v : Option (List (Piece Byte))}

/-! ### The trees -/

inductive Text
  | nil
  | char (c : Byte) (rest : Text)
  | escaped (c : Byte) (rest : Text)
  | percent (rest : Text)
  | var (c : Byte) (rest : Text)
  | group (body rest : Text)
  | cond (c : Byte) (yes rest : Text)
  | condElse (c : Byte) (yes no rest : Text)

namespace Text

def print : Text → List Byte
  | nil => []
  | char c rest => c :: rest.print
  | escaped c rest => backslash :: c :: rest.print
  | percent rest => Expand.percent :: Expand.percent :: rest.print
  | var c rest => Expand.percent :: c :: rest.print
  | group body rest => lbrace :: (body.print ++ rbrace :: rest.print)
  | cond c yes rest =>
    Expand.percent :: question :: c :: lbrace :: (yes.print ++ rbrace :: rest.print)
  | condElse c yes no rest =>
    Expand.percent :: question :: c :: lbrace ::
      (yes.print ++ rbrace :: lbrace :: (no.print ++ rbrace :: rest.print))

def isGroup : Text → Bool
  | group _ _ => true
  | _ => false

/-- The bytes are what they are taken for, and a condition with one block has no second one behind
it. -/
def WellFormed : Text → Prop
  | nil => True
  | char c rest => c ≠ Expand.percent ∧ c ≠ backslash ∧ c ≠ lbrace ∧ c ≠ rbrace ∧ rest.WellFormed
  | escaped _ rest => rest.WellFormed
  | percent rest => rest.WellFormed
  | var c rest => c ≠ Expand.percent ∧ c ≠ question ∧ c ≠ lbrace ∧ c ≠ rbrace ∧ rest.WellFormed
  | group body rest => body.WellFormed ∧ rest.WellFormed
  | cond c yes rest =>
    c ≠ lbrace ∧ c ≠ rbrace ∧ yes.WellFormed ∧ rest.WellFormed ∧ rest.isGroup = false
  | condElse c yes no rest =>
    c ≠ lbrace ∧ c ≠ rbrace ∧ yes.WellFormed ∧ no.WellFormed ∧ rest.WellFormed

def both (a b : Option (List (Piece Byte))) : Option (List (Piece Byte)) :=
  a.bind fun ps => b.map fun qs => ps ++ qs

/-- What the text stands for; a variable that is not known makes it invalid, if it is come to. -/
def eval (val : Values) : Text → Option (List (Piece Byte))
  | nil => some []
  | char c rest => both (some [.lit c]) (rest.eval val)
  | escaped c rest => both (some [.lit c]) (rest.eval val)
  | percent rest => both (some [.lit Expand.percent]) (rest.eval val)
  | var c rest =>
    match val c with
    | none => none
    | some none => rest.eval val
    | some (some v) => both (some [.value v]) (rest.eval val)
  | group body rest =>
    both (some [.lit lbrace]) (both (body.eval val) (both (some [.lit rbrace]) (rest.eval val)))
  | cond c yes rest =>
    match val c with
    | none => none
    | some none => rest.eval val
    | some (some _) => both (yes.eval val) (rest.eval val)
  | condElse c yes no rest =>
    match val c with
    | none => none
    | some none => both (no.eval val) (rest.eval val)
    | some (some _) => both (yes.eval val) (rest.eval val)

end Text

/-- All the braces nest, the escaped ones too, `d` of them being open. -/
def nested : ℕ → List Byte → Bool
  | d, [] => d = 0
  | d, c :: l =>
    if c = lbrace then nested (d + 1) l
    else if c = rbrace then d ≠ 0 && nested (d - 1) l
    else nested d l

/-- The reading comes to no block to skip but such with `nested` braces, to no condition with only a
block that is not selected when it is `inside` one, and to no brace that ends braces outside. -/
def Text.Follows (val : Values) : Bool → Text → Prop
  | _, .nil => True
  | inside, .char _ rest => rest.Follows val inside
  | inside, .escaped _ rest => rest.Follows val inside
  | inside, .percent rest => rest.Follows val inside
  | inside, .var c rest => val c ≠ none → rest.Follows val inside
  | inside, .group body rest =>
    body.Follows val true ∧ (body.eval val ≠ none → inside = true ∧ rest.Follows val inside)
  | inside, .cond c yes rest =>
    match val c with
    | none => True
    | some none => inside = false ∧ nested 0 yes.print = true ∧ rest.Follows val inside
    | some (some _) => yes.Follows val true ∧ (yes.eval val ≠ none → rest.Follows val inside)
  | inside, .condElse c yes no rest =>
    match val c with
    | none => True
    | some none =>
      nested 0 yes.print = true ∧ no.Follows val true ∧
        (no.eval val ≠ none → rest.Follows val inside)
    | some (some _) =>
      yes.Follows val true ∧
        (yes.eval val ≠ none → nested 0 no.print = true ∧ rest.Follows val inside)

/-! ### Skipping -/

theorem skipText_nested (level : ℤ) (l r : List Byte) : ∀ d : ℕ, nested d l = true →
    skipText level (level + 1 + d) (l ++ rbrace :: r) = (level, r) := by
  induction l with
  | nil =>
    intro d hd
    obtain rfl : d = 0 := by simpa [nested] using hd
    rw [nil_append, skipText, if_neg (by decide), if_pos rfl, if_pos (by simp)]
    simp
  | cons c l ih =>
    intro d hd
    rw [nested] at hd
    rw [cons_append, skipText]
    by_cases hl : c = lbrace
    · rw [if_pos hl] at hd ⊢
      have h := ih (d + 1) hd
      rw [show level + 1 + ((d + 1 : ℕ) : ℤ) = level + 1 + d + 1 by omega] at h
      exact h
    rw [if_neg hl] at hd ⊢
    by_cases hr : c = rbrace
    · rw [if_pos hr] at hd ⊢
      rw [Bool.and_eq_true, decide_eq_true_eq] at hd
      obtain ⟨e, rfl⟩ := Nat.exists_eq_succ_of_ne_zero hd.1
      have h := ih e hd.2
      rw [if_neg (by omega), show level + 1 + ((e.succ : ℕ) : ℤ) - 1 = level + 1 + e by omega]
      exact h
    · rw [if_neg hr] at hd ⊢
      exact ih d hd

theorem skipText_not_nested (level : ℤ) (l : List Byte) (x : Byte) : ∀ d : ℕ, nested d l = false →
    (skipText level (level + 1 + d) (l ++ [rbrace, x])).2 ≠ [x] := by
  induction l with
  | nil =>
    intro d hd
    have hd0 : d ≠ 0 := by simpa [nested] using hd
    have hlast : ∀ cur, (skipText level cur [x]).2 = [] := by
      intro cur
      rw [skipText]
      split_ifs <;> rfl
    rw [nil_append, skipText, if_neg (by decide), if_pos rfl, if_neg (by omega), hlast]
    simp
  | cons c l ih =>
    intro d hd
    rw [nested] at hd
    rw [cons_append, skipText]
    by_cases hl : c = lbrace
    · rw [if_pos hl] at hd ⊢
      have h := ih (d + 1) hd
      rw [show level + 1 + ((d + 1 : ℕ) : ℤ) = level + 1 + d + 1 by omega] at h
      exact h
    rw [if_neg hl] at hd ⊢
    by_cases hr : c = rbrace
    · rw [if_pos hr] at hd ⊢
      rcases d with _ | e
      · rw [if_pos (by simp)]
        intro h
        have hlen := congrArg List.length h
        simp at hlen
      · rw [if_neg (by omega), show level + 1 + ((e + 1 : ℕ) : ℤ) - 1 = level + 1 + e by omega]
        exact ih e (by simpa using hd)
    · rw [if_neg hr] at hd ⊢
      exact ih d hd

/-! ### The loop, byte by byte -/

variable {c : Byte} {t : Text}

theorem head_ne {d : Byte} (h : c ≠ d) (l : List Byte) : (c :: l).head? ≠ some d := by simpa using h

section
variable (val : Values)

def loop (level : ℤ) (e : LineExpander) : LineExpander := expandLoop val (e.cp.length + 1) level e

def block (e : LineExpander) : LineExpander := loop val e.level (openBlock e)

theorem expandLoop_eq {n : ℕ} (level : ℤ) (hn : e.cp.length < n) :
    expandLoop val n level e = loop val level e := expandLoop_fuel level e hn (Nat.lt_succ_self _)

variable (level cur : ℤ) (stk : List (Piece Byte))

theorem loop_stop (h : e.state ≠ .continues) : loop val level e = e := by
  rw [loop, expandLoop, if_pos h]

theorem loop_of_text {cur cur' : ℤ} {cp cp' : List Byte} {stk stk' : List (Piece Byte)}
    (h : expandText level cur cp stk = expandText level cur' cp' stk') :
    loop val level ⟨.continues, cur, cp, stk⟩ = loop val level ⟨.continues, cur', cp', stk'⟩ := by
  have h1 :=
    expandLoop_eq val (n := cp.length + cp'.length + 1) (e := ⟨.continues, cur, cp, stk⟩) level
    (by dsimp only; omega)
  have h2 :=
    expandLoop_eq val (n := cp.length + cp'.length + 1) (e := ⟨.continues, cur', cp', stk'⟩) level
    (by dsimp only; omega)
  rw [← h1, ← h2, expandLoop, expandLoop]
  simp only [ne_eq, not_true_eq_false, if_false, h]

theorem loop_char (h1 : c ≠ percent) (h2 : c ≠ lbrace) (h3 : c ≠ rbrace) (h4 : c ≠ backslash)
    (cp : List Byte) :
    loop val level ⟨.continues, cur, c :: cp, stk⟩ =
    loop val level ⟨.continues, cur, cp, stk ++ [.lit c]⟩ := by
  refine loop_of_text val level ?_
  rw [expandText_cons, if_neg h1, if_neg h2, if_neg h3, if_neg h4]

variable (cp : List Byte)

theorem loop_escaped (c : Byte) (cp : List Byte) :
    loop val level ⟨.continues, cur, backslash :: c :: cp, stk⟩ =
      loop val level ⟨.continues, cur, cp, stk ++ [.lit c]⟩ := loop_of_text val level rfl

theorem loop_open :
    loop val level ⟨.continues, cur, lbrace :: cp, stk⟩ =
      loop val level ⟨.continues, cur + 1, cp, stk ++ [.lit lbrace]⟩ := by
  refine loop_of_text val level ?_
  rw [expandText_cons, if_neg (by decide), if_pos rfl]

variable {level cur}

theorem loop_close (h : cur - 1 ≠ level) (cp : List Byte) :
    loop val level ⟨.continues, cur, rbrace :: cp, stk⟩ =
      loop val level ⟨.continues, cur - 1, cp, stk ++ [.lit rbrace]⟩ := by
  refine loop_of_text val level ?_
  rw [expandText_cons, if_neg (by decide), if_neg (by decide), if_pos rfl, if_neg h]

theorem loop_end (h : cur - 1 = level) (cp : List Byte) :
    loop val level ⟨.continues, cur, rbrace :: cp, stk⟩ = ⟨.continues, cur - 1, cp, stk⟩ := by
  have htext :
      expandText level cur (rbrace :: cp) stk = (true, ⟨.continues, cur - 1, cp, stk⟩) := by
    rw [expandText_cons, if_neg (by decide), if_neg (by decide), if_pos rfl, if_pos h]
  rw [loop, expandLoop, if_neg (by simp)]
  rw [htext]
  rfl

variable (level cur)

theorem loop_percent :
    loop val level ⟨.continues, cur, percent :: percent :: cp, stk⟩ =
      loop val level ⟨.continues, cur, cp, stk ++ [.lit percent]⟩ := by
  have htext : expandText level cur (percent :: percent :: cp) stk =
      (false, ⟨.continues, cur, percent :: percent :: cp, stk⟩) := rfl
  rw [loop, expandLoop, if_neg (by simp)]
  exact expandLoop_eq val level (by simp only [tail_cons, length_cons]; omega)

theorem loop_cond {cp : List Byte} (hcp : cp.head? ≠ some percent) :
    loop val level ⟨.continues, cur, percent :: cp, stk⟩ =
      loop val level (expandCond val (block val) ⟨.continues, cur, cp, stk⟩) := by
  have htext : expandText level cur (percent :: cp) stk =
    (false, ⟨.continues, cur, percent :: cp, stk⟩) := by
    rw [expandText_cons, if_pos rfl]
  have hcond : expandCond val (fun e => expandLoop val (cp.length + 1) e.level (openBlock e))
      ⟨.continues, cur, cp, stk⟩ = expandCond val (block val) ⟨.continues, cur, cp, stk⟩ := by
    refine expandCond_congr fun e he => expandLoop_eq val e.level ?_
    have hopen := (@grows_openBlock val e).1.length_le
    dsimp only at he
    omega
  have hgrows : ∀ e, Grows val e (block val e) :=
    fun e => (grows_openBlock e).trans (grows_expandLoop _ _ _)
  have hlen := (grows_expandCond hgrows ⟨.continues, cur, cp, stk⟩).1.length_le
  rw [loop, expandLoop, if_neg (by simp)]
  rw [htext]
  dsimp only
  rw [if_neg (by simp), if_neg hcp]
  rw [length_cons, hcond]
  exact expandLoop_eq val level (by dsimp only at hlen; omega)

/-! ### What is behind a `%` -/

theorem loop_var (h1 : c ≠ percent) (h2 : c ≠ question) (h3 : c ≠ lbrace) (cp : List Byte) :
    loop val level ⟨.continues, cur, percent :: c :: cp, stk⟩ =
      match val c with
      | none => ⟨.error, cur, cp, stk⟩
      | some none => loop val level ⟨.continues, cur, cp, stk⟩
      | some (some v) => loop val level ⟨.continues, cur, cp, stk ++ [.value v]⟩ := by
  rw [loop_cond val level cur stk (by simpa using h1), expandCond, if_neg (by simpa using h2)]
  rw [expandVar_short val h3]
  rcases val c with _ | _ | v
  · exact loop_stop val level (by simp)
  · rfl
  · rfl

theorem loop_question (hc : c ≠ lbrace) (cp : List Byte) :
    loop val level ⟨.continues, cur, percent :: question :: c :: cp, stk⟩ =
      match val c with
      | none => loop val level (block val (skipBlock ⟨.error, cur, cp, stk⟩))
      | some none => loop val level (block val (skipBlock ⟨.continues, cur, cp, stk⟩))
      | some (some _) => loop val level (skipBlock (block val ⟨.continues, cur, cp, stk⟩)) := by
  rw [loop_cond val level cur stk (head_ne (by decide) _), expandCond, if_pos head?_cons]
  dsimp only [tail_cons]
  rw [expandVar_short val hc]
  rcases val c with _ | _ | v
  · simp
  · simp
  · simp

theorem state_block_of_stop (h : e.state ≠ .continues) : (block val e).state = e.state := by
  rw [block, loop_stop val e.level (by rwa [state_openBlock]), state_openBlock]

theorem loop_unknown (hc : c ≠ lbrace) (hv : val c = none) (cp : List Byte) :
    (loop val level ⟨.continues, cur, percent :: question :: c :: cp, stk⟩).state = .error := by
  have hst : (block val (skipBlock ⟨.error, cur, cp, stk⟩)).state = .error := by
    rw [state_block_of_stop val (by rw [state_skipBlock]; simp), state_skipBlock]
  rw [loop_question val level cur stk hc, hv]
  rw [loop_stop val level (by rw [hst]; simp), hst]

theorem skipBlock_nested {l : List Byte} (h : nested 0 l = true) (state : ExpState)
    (r : List Byte) :
    skipBlock ⟨state, cur, lbrace :: (l ++ rbrace :: r), stk⟩ = ⟨state, cur, r, stk⟩ := by
  have hskip := skipText_nested cur l r 0 h
  have hfirst : skipText cur cur (lbrace :: (l ++ rbrace :: r)) = (cur, r) := by
    rw [skipText, if_pos rfl]
    simpa using hskip
  rw [skipBlock, if_pos head?_cons]
  rw [hfirst]

theorem skipBlock_none {cp : List Byte} (h : cp.head? ≠ some lbrace) (state : ExpState) :
    skipBlock ⟨state, cur, cp, stk⟩ = ⟨state, cur, cp, stk⟩ := if_neg h

theorem block_open :
    block val ⟨.continues, cur, lbrace :: cp, stk⟩ = loop val cur ⟨.continues, cur + 1, cp, stk⟩ :=
  rfl

theorem block_none {cp : List Byte} (h : cp.head? ≠ some lbrace) :
    block val ⟨.continues, cur, cp, stk⟩ = loop val cur ⟨.continues, cur, cp, stk⟩ := by
  rw [block, openBlock, if_neg h]

end

theorem Text.head_print (h : t.isGroup = false) (ht : t.WellFormed) (r : List Byte)
    (hr : r.head? ≠ some lbrace) : (t.print ++ r).head? ≠ some lbrace := by
  rcases t with _ | ⟨c, t⟩ | ⟨c, t⟩ | t | ⟨c, t⟩ | ⟨b, t⟩ | ⟨c, y, t⟩ | ⟨c, y, n, t⟩
  · exact hr
  · simpa [Text.print] using ht.2.2.1
  · exact head_ne (by decide) _
  · exact head_ne (by decide) _
  · exact head_ne (by decide) _
  · exact nomatch h
  · exact head_ne (by decide) _
  · exact head_ne (by decide) _

/-! ### Inside a block -/

/-- What the loop is to have done with a text whose meaning is `v`: it goes on behind it, at the
same level, or has ended. -/
def Goes (val : Values) (level cur : ℤ) (r : List Byte) (stk : List (Piece Byte))
    (v : Option (List (Piece Byte))) (e : LineExpander) : Prop :=
  match v with
  | some ps => e = loop val level ⟨.continues, cur, r, stk ++ ps⟩
  | none => e.state = .error

variable {r : List Byte} {ps : List (Piece Byte)}

theorem Goes.both {val : Values} {level cur : ℤ} {stk : List (Piece Byte)}
    (h : Goes val level cur r (stk ++ ps) v e) :
    Goes val level cur r stk (Text.both (some ps) v) e := by
  rcases v with _ | qs
  · exact h
  · change e = loop val level ⟨.continues, cur, r, stk ++ ps ++ qs⟩ at h
    rw [append_assoc] at h
    exact h

/-- What a block gives: its brace is behind it, or the run has ended. -/
def Gives (cur : ℤ) (r : List Byte) (stk : List (Piece Byte)) (v : Option (List (Piece Byte)))
    (e : LineExpander) : Prop :=
  match v with
  | some ps => e = ⟨.continues, cur, r, stk ++ ps⟩
  | none => e.state = .error

section
variable {val : Values}

theorem gives_block (ht : ∀ (level cur : ℤ), level < cur → ∀ r stk,
      Goes val level cur (rbrace :: r) stk (t.eval val)
        (loop val level ⟨.continues, cur, t.print ++ rbrace :: r, stk⟩)) (cur : ℤ) (r : List Byte)
    (stk : List (Piece Byte)) :
    Gives cur r stk (t.eval val)
    (block val ⟨.continues, cur, lbrace :: (t.print ++ rbrace :: r), stk⟩) := by
  have h := ht cur (cur + 1) (by omega) r stk
  rw [block_open]
  rcases hv : t.eval val with _ | ps
  · rw [hv] at h
    exact h
  · rw [hv] at h
    rw [h, loop_end val (stk ++ ps) (by omega)]
    change (⟨.continues, cur + 1 - 1, r, stk ++ ps⟩ : LineExpander) =
      ⟨.continues, cur, r, stk ++ ps⟩
    rw [add_sub_cancel_right]

variable {v' : Option (List (Piece Byte))}

theorem goes_behind {cur level : ℤ} {r' : List Byte} {stk : List (Piece Byte)}
    (he : Gives cur r stk v e) (f : LineExpander → LineExpander)
    (hf : ∀ e, e.state = .error → (f e).state = .error)
    (h : ∀ ps, v = some ps → Goes val level cur r' (stk ++ ps)
    v' (loop val level (f ⟨.continues, cur, r, stk ++ ps⟩))) :
    Goes val level cur r' stk (Text.both v v') (loop val level (f e)) := by
  rcases v with _ | ps
  · have hst : (f e).state = .error := hf e he
    rw [loop_stop val level (by rw [hst]; simp)]
    exact hst
  · obtain rfl : e = ⟨.continues, cur, r, stk ++ ps⟩ := he
    exact (h ps rfl).both

theorem goes_inside (t : Text) (ht : t.WellFormed) (hf : t.Follows val true) :
    ∀ (level cur : ℤ), level < cur → ∀ r stk, Goes val level cur (rbrace :: r) stk (t.eval val)
      (loop val level ⟨.continues, cur, t.print ++ rbrace :: r, stk⟩) := by
  induction t with
  | nil =>
    intro level cur h r stk
    change loop val level ⟨.continues, cur, rbrace :: r, stk⟩ =
      loop val level ⟨.continues, cur, rbrace :: r, stk ++ []⟩
    rw [append_nil]
  | char c rest ih =>
    intro level cur h r stk
    obtain ⟨h1, h2, h3, h4, hrest⟩ := ht
    rw [Text.print, cons_append, loop_char val level cur stk h1 h3 h4 h2]
    exact (ih hrest hf level cur h r _).both
  | escaped c rest ih =>
    intro level cur h r stk
    rw [Text.print, cons_append, cons_append, loop_escaped]
    exact (ih ht hf level cur h r _).both
  | percent rest ih =>
    intro level cur h r stk
    rw [Text.print, cons_append, cons_append, loop_percent]
    exact (ih ht hf level cur h r _).both
  | var c rest ih =>
    intro level cur h r stk
    obtain ⟨h1, h2, h3, h4, hrest⟩ := ht
    rw [Text.print, cons_append, cons_append, loop_var val level cur stk h1 h2 h3, Text.eval]
    rcases hv : val c with _ | _ | v
    · rfl
    · exact ih hrest (hf (by simp [hv])) level cur h r stk
    · exact (ih hrest (hf (by simp [hv])) level cur h r _).both
  | group body rest ihb ih =>
    intro level cur h r stk
    obtain ⟨hbody, hrest⟩ := ht
    obtain ⟨hfb, hfr⟩ := hf
    rw [Text.print, cons_append, append_assoc, cons_append, loop_open]
    have hb :=
      ihb hbody hfb level (cur + 1) (by omega) (rest.print ++ rbrace :: r) (stk ++ [.lit lbrace])
    refine Goes.both ?_
    rcases hv : body.eval val with _ | ps
    · rw [hv] at hb
      exact hb
    · rw [hv] at hb
      rw [hb, loop_close val _ (by omega), add_sub_cancel_right]
      exact (ih hrest (hfr (by simp [hv])).2 level cur h r _).both.both
  | cond c yes rest ihy ih =>
    intro level cur h r stk
    obtain ⟨h1, -, hyes, hrest, hgroup⟩ := ht
    simp only [Text.print, cons_append, append_assoc]
    simp only [Text.Follows] at hf
    rw [Text.eval]
    rcases hv : val c with _ | _ | v
    · exact loop_unknown val level cur stk h1 hv _
    · rw [hv] at hf
      exact absurd hf.1 (by decide)
    · rw [hv] at hf
      rw [loop_question val level cur stk h1, hv]
      refine goes_behind (gives_block (ihy hyes hf.1) cur _ stk) skipBlock
        (fun e he => (state_skipBlock e).trans he) fun ps hps => ?_
      rw [skipBlock_none cur _ (Text.head_print hgroup hrest _ (head_ne (by decide) _))]
      exact ih hrest (hf.2 (by simp [hps])) level cur h r _
  | condElse c yes no rest ihy ihn ih =>
    intro level cur h r stk
    obtain ⟨h1, -, hyes, hno, hrest⟩ := ht
    simp only [Text.print, cons_append, append_assoc]
    simp only [Text.Follows] at hf
    rw [Text.eval]
    rcases hv : val c with _ | _ | v
    · exact loop_unknown val level cur stk h1 hv _
    · rw [hv] at hf
      rw [loop_question val level cur stk h1, hv]
      dsimp only
      rw [skipBlock_nested cur stk hf.1]
      exact goes_behind (gives_block (ihn hno hf.2.1) cur _ stk) id (fun e he => he) fun ps hps =>
        ih hrest (hf.2.2 (by simp [hps])) level cur h r _
    · rw [hv] at hf
      rw [loop_question val level cur stk h1, hv]
      refine goes_behind (gives_block (ihy hyes hf.1) cur _ stk) skipBlock
        (fun e he => (state_skipBlock e).trans he) fun ps hps => ?_
      obtain ⟨hnest, hfr⟩ := hf.2 (by simp [hps])
      rw [skipBlock_nested cur _ hnest]
      exact ih hrest hfr level cur h r _

/-! ### Outside -/

def Ends (stk : List (Piece Byte)) (v : Option (List (Piece Byte))) (e : LineExpander) : Prop :=
  match v with
  | some ps => e.state = .success ∧ e.stk = stk ++ ps
  | none => e.state = .error

theorem Ends.both {stk : List (Piece Byte)} (h : Ends (stk ++ ps) v e) :
    Ends stk (Text.both (some ps) v) e := by
  rcases v with _ | qs
  · exact h
  · exact ⟨h.1, h.2.trans (append_assoc _ _ _)⟩

theorem Ends.state_ne {stk : List (Piece Byte)}
    (h : Ends stk v e) : e.state ≠ .continues := by
  rcases v with _ | ps
  · rw [show e.state = .error from h]
    simp
  · rw [h.1]
    simp

theorem ends_behind {cur level : ℤ} {stk : List (Piece Byte)} (he : Gives cur r stk v e)
    (f : LineExpander → LineExpander) (hf : ∀ e, e.state = .error → (f e).state = .error)
    (h : ∀ ps,
      v = some ps → Ends (stk ++ ps) v' (loop val level (f ⟨.continues, cur, r, stk ++ ps⟩))) :
    Ends stk (Text.both v v') (loop val level (f e)) := by
  rcases v with _ | ps
  · have hst : (f e).state = .error := hf e he
    rw [loop_stop val level (by rw [hst]; simp)]
    exact hst
  · obtain rfl : e = ⟨.continues, cur, r, stk ++ ps⟩ := he
    exact (h ps rfl).both

/-- Braces outside all blocks have a variable in them that is not known. -/
theorem goes_group {body rest : Text} (hbody : body.WellFormed)
    (hf : (Text.group body rest).Follows val false) :
    body.eval val = none ∧ ∀ (level cur : ℤ), level < cur → ∀ stk,
      (loop val level ⟨.continues, cur, body.print ++ rbrace :: rest.print, stk⟩).state =
      .error := by
  have hv : body.eval val = none := by
    by_contra hv
    exact Bool.false_ne_true (hf.2 hv).1
  refine ⟨hv, fun level cur h stk => ?_⟩
  have hgoes := goes_inside body hbody hf.1 level cur h rest.print stk
  rwa [hv] at hgoes

theorem ends_outside (t : Text) (ht : t.WellFormed) (hf : t.Follows val false) :
    ∀ (level cur : ℤ), level ≤ cur → ∀ stk,
      Ends stk (t.eval val) (loop val level ⟨.continues, cur, t.print, stk⟩) := by
  induction t with
  | nil =>
    intro level cur _ stk
    exact ⟨rfl, (append_nil stk).symm⟩
  | char c rest ih =>
    intro level cur hle stk
    obtain ⟨h1, h2, h3, h4, hrest⟩ := ht
    rw [Text.print, loop_char val level cur stk h1 h3 h4 h2]
    exact (ih hrest hf level cur hle _).both
  | escaped c rest ih =>
    intro level cur hle stk
    rw [Text.print, loop_escaped]
    exact (ih ht hf level cur hle _).both
  | percent rest ih =>
    intro level cur hle stk
    rw [Text.print, loop_percent]
    exact (ih ht hf level cur hle _).both
  | var c rest ih =>
    intro level cur hle stk
    obtain ⟨h1, h2, h3, h4, hrest⟩ := ht
    rw [Text.print, loop_var val level cur stk h1 h2 h3, Text.eval]
    rcases hv : val c with _ | _ | v
    · rfl
    · exact ih hrest (hf (by simp [hv])) level cur hle stk
    · exact (ih hrest (hf (by simp [hv])) level cur hle _).both
  | group body rest ihb ih =>
    intro level cur hle stk
    obtain ⟨hv, hgoes⟩ := goes_group ht.1 hf
    rw [Text.print, loop_open, Text.eval, hv]
    exact hgoes level (cur + 1) (by omega) _
  | cond c yes rest ihy ih =>
    intro level cur hle stk
    obtain ⟨h1, -, hyes, hrest, hgroup⟩ := ht
    have hhead : rest.print.head? ≠ some lbrace := by
      simpa using Text.head_print hgroup hrest [] (by simp)
    simp only [Text.Follows] at hf
    rw [Text.print, Text.eval]
    rcases hv : val c with _ | _ | v
    · exact loop_unknown val level cur stk h1 hv _
    · rw [hv] at hf
      -- what is behind it is expanded by the call for the second block
      have hends := ih hrest hf.2.2 cur cur (Int.le_refl cur) stk
      rw [loop_question val level cur stk h1, hv]
      dsimp only
      rw [skipBlock_nested cur stk hf.2.1, block_none val cur stk hhead,
        loop_stop val level hends.state_ne]
      exact hends
    · rw [hv] at hf
      rw [loop_question val level cur stk h1, hv]
      refine ends_behind (gives_block (goes_inside yes hyes hf.1) cur _ stk) skipBlock
        (fun e he => (state_skipBlock e).trans he) fun ps hps => ?_
      rw [skipBlock_none cur _ hhead]
      exact ih hrest (hf.2 (by simp [hps])) level cur hle _
  | condElse c yes no rest ihy ihn ih =>
    intro level cur hle stk
    obtain ⟨h1, -, hyes, hno, hrest⟩ := ht
    simp only [Text.Follows] at hf
    rw [Text.print, Text.eval]
    rcases hv : val c with _ | _ | v
    · exact loop_unknown val level cur stk h1 hv _
    · rw [hv] at hf
      rw [loop_question val level cur stk h1, hv]
      dsimp only
      rw [skipBlock_nested cur stk hf.1]
      exact ends_behind (gives_block (goes_inside no hno hf.2.1) cur _ stk) id
        (fun e he => he) fun ps hps =>
        ih hrest (hf.2.2 (by simp [hps])) level cur hle _
    · rw [hv] at hf
      rw [loop_question val level cur stk h1, hv]
      refine ends_behind (gives_block (goes_inside yes hyes hf.1) cur _ stk) skipBlock
        (fun e he => (state_skipBlock e).trans he) fun ps hps => ?_
      obtain ⟨hnest, hfr⟩ := hf.2 (by simp [hps])
      rw [skipBlock_nested cur _ hnest]
      exact ih hrest hfr level cur hle _

/-! ### The whole -/

def Text.inBraces (t : Text) (r : List Byte) : List Byte := lbrace :: (t.print ++ rbrace :: r)

variable (val) in
/-- `_skip_block` and `_expand_block` leave the block at one place. -/
def SameEnd (t : Text) : Prop := ∀ (level : ℤ) (r : List Byte) (stk : List (Piece Byte)),
  (skipBlock ⟨.continues, level, t.inBraces r, stk⟩).cp =
    (expandBlock val ((t.inBraces r).length + 1) ⟨.continues, level, t.inBraces r, stk⟩).cp

variable (val) in
theorem expandBlock_eq (e : LineExpander) : expandBlock val (e.cp.length + 1) e = block val e :=
  expandLoop_eq val e.level (Nat.lt_succ_of_le (@grows_openBlock val e).1.length_le)

theorem sameEnd_iff (ht : t.WellFormed) (hf : t.Follows val true) (hv : t.eval val ≠ none) :
    SameEnd val t ↔ nested 0 t.print = true := by
  obtain ⟨ps, hps⟩ := Option.ne_none_iff_exists'.1 hv
  have hexpand : ∀ (level : ℤ) (r : List Byte) (stk : List (Piece Byte)),
      (expandBlock val ((t.inBraces r).length + 1) ⟨.continues, level, t.inBraces r, stk⟩).cp =
      r := by
    intro level r stk
    have h := gives_block (goes_inside t ht hf) level r stk
    rw [hps] at h
    rw [expandBlock_eq val ⟨.continues, level, t.inBraces r, stk⟩]
    exact congrArg LineExpander.cp h
  constructor
  · intro h
    rw [← Bool.not_eq_false]
    intro hno
    have hskip := h 0 [97] []
    rw [hexpand] at hskip
    have hfirst : (skipBlock ⟨.continues, 0, t.inBraces [97], []⟩).cp =
      (skipText 0 1 (t.print ++ [rbrace, 97])).2 :=
      congrArg LineExpander.cp (if_pos head?_cons)
    exact skipText_not_nested 0 t.print 97 0 hno (hfirst.symm.trans hskip)
  · intro h level r stk
    rw [hexpand, Text.inBraces, skipBlock_nested level stk h]

end

/-- **What `expand_line` gives:** the parts that are selected, if the reading follows the tree; and
a block is skipped to where it would be expanded just when all its braces nest. -/
theorem expandLine_print (val : Values) :
    (∀ t : Text, t.WellFormed → t.Follows val false → expandLine val t.print = t.eval val) ∧
      ∀ t : Text, t.WellFormed → t.Follows val true → t.eval val ≠ none →
        (SameEnd val t ↔ nested 0 t.print = true) := by
  refine ⟨fun t ht hf => ?_, fun t ht hf hv => sameEnd_iff ht hf hv⟩
  have hends : Ends [] (t.eval val) (block val ⟨.continues, 0, t.print, []⟩) := by
    cases hgroup : t.isGroup with
    | false =>
      have hhead :
          t.print.head? ≠ some lbrace := by simpa using Text.head_print hgroup ht [] (by simp)
      rw [block_none val 0 [] hhead]
      exact ends_outside t ht hf 0 0 (Int.le_refl 0) []
    | true =>
      obtain ⟨body, rest, rfl⟩ : ∃ body rest, t = .group body rest := by
        cases t with
        | group body rest => exact ⟨body, rest, rfl⟩
        | _ => cases hgroup
      obtain ⟨hv, hgoes⟩ := goes_group ht.1 hf
      rw [Text.print, block_open, Text.eval, hv]
      exact hgoes 0 1 (by decide) []
  have hblock := expandBlock_eq val ⟨.continues, 0, t.print, []⟩
  dsimp only at hblock
  rw [expandLine, hblock]
  generalize block val ⟨.continues, 0, t.print, []⟩ = e at hends ⊢
  rcases hv : t.eval val with _ | ps
  · rw [hv] at hends
    rw [if_neg (by rw [show e.state = .error from hends]; simp)]
  · rw [hv] at hends
    rw [if_pos hends.1, hends.2, nil_append]

/-- `%?l{\}}{y}%h`, with a host name. -/
def selected : Text := .condElse 108 (.escaped rbrace .nil) (.char 121 .nil) (.var 104 .nil)

theorem expandLine_print_selected :
    expandLine (varShortName someVars) selected.print = some [.lit rbrace, .value [104]] ∧
      (SameEnd (varShortName someVars) (.escaped rbrace .nil) ↔
        nested 0 [backslash, rbrace] = true) :=
  ⟨(expandLine_print (varShortName someVars)).1 selected
    (by simp [selected, Text.WellFormed]; decide) ⟨trivial, fun _ => ⟨rfl, fun _ => trivial⟩⟩,
    (expandLine_print (varShortName someVars)).2 (.escaped rbrace .nil) trivial trivial (by decide)⟩

/-- Two skips that end at the wrong place can make up for each other: `%?l{x}{\}}%?l{}{\{}\}`. -/
example : ¬ (Text.condElse 108 (.char 120 .nil) (.escaped rbrace .nil)
      (.condElse 108 .nil (.escaped lbrace .nil) (.escaped rbrace .nil))).Follows
      (varShortName someVars) false ∧
    expandLine (varShortName someVars) (Text.condElse 108 (.char 120 .nil) (.escaped rbrace .nil)
      (.condElse 108 .nil (.escaped lbrace .nil) (.escaped rbrace .nil))).print =
    (Text.condElse 108 (.char 120 .nil) (.escaped rbrace .nil)
      (.condElse 108 .nil (.escaped lbrace .nil) (.escaped rbrace .nil))).eval
      (varShortName someVars) := by
  refine ⟨fun h => ?_, by decide⟩
  exact absurd (h.2 (by decide)).1 (by decide)

/-- `%?l{x%?u{y}z}w`: the condition on `u`, that is not set, is inside the block of the other
one. -/
theorem not_expandLine_print : ¬ ∀ (v : Vars) (t : Text), t.WellFormed →
    expandLine (varShortName v) t.print = t.eval (varShortName v) := by
  intro h
  have hbad :=
    h someVars
    (.cond 108 (.char 120 (.cond 117 (.char 121 .nil) (.char 122 .nil))) (.char 119 .nil))
    (by simp [Text.WellFormed, Text.isGroup]; decide)
  exact absurd hbad (by decide)

end Inetutils.Telnetd.ExpandText
