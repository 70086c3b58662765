import Inetutils.Ifconfig.Put

/-! # The templates of `ifconfig`

A template is text with `$`, names in `${}` and brace blocks behind the names. `scan` goes through
it once and counts the blocks that are open; `blocks` are the blocks behind a name, and `pieces`
what a template consists of. -/

namespace Inetutils.Ifconfig.Template

open List
open Put (Text skip)

/-- Where a character stands: behind `$`, in a name, behind a name or a block, or anywhere else. -/
inductive Mode
  | text
  | dollar
  | name
  | behind
  deriving DecidableEq

/-- Where a template or a block stops: at what closes it or the end of the string, behind a `$` that
is the last character, or at a name that does not end. -/
inductive Stop
  | close (rest : Text)
  | lone
  | unclosed

namespace Stop

def rest : Stop → Text
  | close r => r
  | _ => []

def Closed : Stop → Prop
  | close _ => True
  | _ => False

instance : DecidablePred Closed
  | close _ => .isTrue trivial
  | lone => .isFalse id
  | unclosed => .isFalse id

def bind (s : Stop) (k : Text → Stop) : Stop :=
  match s with
  | close (_ :: r) => k r
  | s => s

end Stop

/-- Through a template, with `n` open blocks; when it is `nested`, a brace closes it. -/
def scan (nested : Bool) : ℕ → Mode → Text → Stop
  | _, m, [] => if m = .dollar then .lone else .close []
  | n, .name, c :: l => if c = 125 then scan nested n .behind l else scan nested n .name l
  | n, .dollar, c :: l =>
    if c = 123 then
      if 125 ∈ l then scan nested n .name l else .unclosed
    else scan nested n .text l
  | n, m, c :: l =>
    if c = 36 then scan nested n .dollar l
    else if c = 123 ∧ m = .behind then scan nested (n + 1) .text l
    else if c = 125 ∧ (nested ∨ 0 < n) then
      if n = 0 then .close (c :: l) else scan nested (n - 1) .behind l
    else scan nested n .text l

variable (n : ℕ)

theorem scan_nil (nested : Bool) (n : ℕ) {m : Mode} (hm : m ≠ .dollar) :
    scan nested n m [] = .close [] := by
  rw [scan, if_neg hm]

theorem scan_cons (nested : Bool) (n : ℕ) {m : Mode} (hname : m ≠ .name) (hdollar : m ≠ .dollar)
    (c : UInt8) (l : Text) :
    scan nested n m (c :: l) =
      if c = 36 then scan nested n .dollar l
      else if c = 123 ∧ m = .behind then scan nested (n + 1) .text l
      else if c = 125 ∧ (nested ∨ 0 < n) then
        if n = 0 then .close (c :: l) else scan nested (n - 1) .behind l
      else scan nested n .text l := by
  rw [scan]
  · exact hname
  · exact hdollar

structure Block where
  text : Text
  stop : Stop

theorem scan_add (nested : Bool) (n j : ℕ) (m : Mode) (l : Text) :
    scan nested (n + 1 + j) m l = (scan true j m l).bind (scan nested n .behind) := by
  induction l generalizing j m with
  | nil =>
    rw [scan, scan]
    split <;> rfl
  | cons c l ih =>
    by_cases hname : m = .name
    · rw [hname, scan, scan]
      split
      · exact ih j _
      · exact ih j _
    by_cases hdollar : m = .dollar
    · rw [hdollar, scan, scan]
      split
      · split
        · exact ih j _
        · rfl
      · exact ih j _
    rw [scan_cons _ _ hname hdollar, scan_cons _ _ hname hdollar]
    split
    · exact ih j _
    split
    · exact ih (j + 1) _
    by_cases hc : c = 125
    · rw [if_pos ⟨hc, .inr (by omega)⟩, if_neg (by omega), if_pos ⟨hc, .inl rfl⟩]
      rcases j with - | j
      · rfl
      · rw [if_neg (by omega)]
        exact ih j _
    · rw [if_neg fun h => hc h.1, if_neg fun h => hc h.1]
      exact ih j _

theorem scan_succ (nested : Bool) (n : ℕ) (m : Mode) (l : Text) :
    scan nested (n + 1) m l = (scan true 0 m l).bind (scan nested n .behind) :=
  scan_add nested n 0 m l

theorem rest_scan (nested : Bool) (n : ℕ) (m : Mode) (l : Text) :
    (scan nested n m l).rest <:+ l ∧
    ((scan nested n m l).rest = [] ∨ ∃ r, (scan nested n m l).rest = 125 :: r) := by
  induction l generalizing n m with
  | nil =>
    rw [scan]
    split <;> exact ⟨nil_suffix, .inl rfl⟩
  | cons c l ih =>
    have hstep : ∀ n m, (scan nested n m l).rest <:+ c :: l ∧
        ((scan nested n m l).rest = [] ∨ ∃ r, (scan nested n m l).rest = 125 :: r) := fun n m =>
      ⟨(ih n m).1.trans (suffix_cons c l), (ih n m).2⟩
    by_cases hname : m = .name
    · rw [hname, scan]
      split <;> exact hstep _ _
    by_cases hdollar : m = .dollar
    · rw [hdollar, scan]
      split
      · split
        · exact hstep _ _
        · exact ⟨nil_suffix, .inl rfl⟩
      · exact hstep _ _
    rw [scan_cons _ _ hname hdollar]
    split
    · exact hstep _ _
    split
    · exact hstep _ _
    split
    · next hc =>
      split
      · exact ⟨suffix_rfl, .inr ⟨l, by rw [hc.1]; rfl⟩⟩
      · exact hstep _ _
    · exact hstep _ _

theorem length_rest_scan_le (nested : Bool) (n : ℕ) (m : Mode) (l : Text) :
    (scan nested n m l).rest.length ≤ l.length :=
  (rest_scan nested n m l).1.length_le

/-! ### Names and blocks -/

def behind (l : Text) : Text := (l.dropWhile (· ≠ 125)).tail

theorem behind_suffix (l : Text) : behind l <:+ l := (tail_suffix _).trans (dropWhile_suffix _)

theorem scan_name (nested : Bool) (n : ℕ) {l : Text} (h : 125 ∈ l) :
    scan nested n .name l = scan nested n .behind (behind l) := by
  induction l with
  | nil => cases h
  | cons c l ih =>
    rw [scan]
    by_cases hc : c = 125
    · rw [if_pos hc]
      unfold behind
      rw [dropWhile_cons_of_neg (by simp [hc]), tail_cons]
    · rw [if_neg hc, ih ((mem_cons.1 h).resolve_left (Ne.symm hc))]
      unfold behind
      rw [dropWhile_cons_of_pos (by simp [hc])]

theorem length_skip_le (c : UInt8) (l : Text) : (skip c l).length ≤ l.length := by
  rcases l with - | ⟨a, l⟩
  · exact le_rfl
  · rw [skip]
    split
    · exact Nat.le_succ _
    · exact le_rfl

/-- The blocks at the front, and what is behind them. -/
def blocks : Text → List Block × Text
  | [] => ([], [])
  | c :: l =>
    if c = 123 then
      (⟨l.take (l.length - (scan true 0 .text l).rest.length), scan true 0 .text l⟩ ::
        (blocks (skip 125 (scan true 0 .text l).rest)).1,
        (blocks (skip 125 (scan true 0 .text l).rest)).2)
    else ([], c :: l)
termination_by l => l.length
decreasing_by
  all_goals
    have hrest := length_rest_scan_le true 0 .text l
    have hskip := length_skip_le 125 (scan true 0 .text l).rest
    simp only [List.length_cons]
    omega

theorem skip_suffix (c : UInt8) (l : Text) : skip c l <:+ l := by
  rcases l with - | ⟨a, l⟩
  · exact nil_suffix
  · rw [skip]
    split
    · exact suffix_cons a l
    · exact suffix_rfl

theorem blocks_suffix (l : Text) : (blocks l).2 <:+ l := by
  induction l using blocks.induct with
  | case1 => rw [blocks]
  | case2 l ih =>
    rw [blocks, if_pos rfl]
    exact ((ih.trans (skip_suffix _ _)).trans (rest_scan true 0 .text l).1).trans (suffix_cons _ l)
  | case3 c l hc => rw [blocks, if_neg hc]

theorem take_append_rest (l : Text) :
    l.take (l.length - (scan true 0 .text l).rest.length) ++ (scan true 0 .text l).rest = l :=
  suffix_iff_eq_append.1 (rest_scan true 0 .text l).1

theorem braced_of_mem_blocks {l : Text} {b : Block} (hb : b ∈ (blocks l).1) :
    123 :: (b.text ++ [125]) <:+: l ++ [125] ∧ b.text.length < l.length := by
  induction l using blocks.induct with
  | case1 =>
    rw [blocks] at hb
    cases hb
  | case2 l ih =>
    have hcut := take_append_rest l
    rw [blocks, if_pos rfl, mem_cons] at hb
    rcases hb with rfl | hb
    · refine ⟨?_, by rw [length_take, length_cons]; omega⟩
      rcases (rest_scan true 0 .text l).2 with hr | ⟨r, hr⟩
      · rw [hr, append_nil] at hcut
        rw [hr, hcut]
        exact infix_rfl
      · rw [hr] at hcut ⊢
        generalize l.take (l.length - (125 :: r).length) = t at hcut ⊢
        rw [← hcut]
        exact ⟨[], r ++ [125], by simp⟩
    · obtain ⟨hin, hlen⟩ := ih hb
      have hsuf : skip 125 (scan true 0 .text l).rest <:+ 123 :: l :=
        ((skip_suffix _ _).trans (rest_scan true 0 .text l).1).trans (suffix_cons _ l)
      exact ⟨hin.trans (suffix_append_self_iff.2 hsuf).isInfix, lt_of_lt_of_le hlen hsuf.length_le⟩
  | case3 c l hc =>
    rw [blocks, if_neg hc] at hb
    cases hb

/-- **The blocks behind a name**, and what is behind them. -/
theorem scan_behind (nested : Bool) (n : ℕ) (l : Text) :
    ((∀ b ∈ (blocks l).1, b.stop.Closed) →
      scan nested n .behind l = scan nested n .text (blocks l).2) ∧
      ((¬ ∀ b ∈ (blocks l).1, b.stop.Closed) → ¬ (scan nested n .behind l).Closed) := by
  induction l using blocks.induct with
  | case1 =>
    rw [blocks]
    exact ⟨fun _ => rfl, fun hnot => absurd (forall_mem_nil _) hnot⟩
  | case2 l ih =>
    have hscan :
        scan nested n .behind (123 :: l) = (scan true 0 .text l).bind (scan nested n .behind) := by
      rw [scan_cons _ _ (by decide) (by decide), if_neg (by decide), if_pos ⟨rfl, rfl⟩, scan_succ]
    rw [blocks, if_pos rfl, hscan]
    rcases hs : scan true 0 .text l with r | - | -
    · have hrest := (rest_scan true 0 .text l).2
      rw [hs] at hrest ih
      have hbind :
          (Stop.close r).bind (scan nested n .behind) = scan nested n .behind (skip 125 r) := by
        rcases hrest with hr | ⟨r', hr⟩ <;> obtain rfl : r = _ := hr <;> rfl
      rw [hbind, forall_mem_cons]
      exact ⟨fun h => ih.1 h.2, fun hnot => ih.2 fun h => hnot ⟨trivial, h⟩⟩
    · exact ⟨fun h => absurd (h _ mem_cons_self) id, fun _ => id⟩
    · exact ⟨fun h => absurd (h _ mem_cons_self) id, fun _ => id⟩
  | case3 c l hc =>
    rw [blocks, if_neg hc]
    refine ⟨fun _ => ?_, fun hnot => absurd (forall_mem_nil _) hnot⟩
    have hnot : ∀ m : Mode, ¬ (c = 123 ∧ m = .behind) := fun m h => hc h.1
    rw [scan_cons _ _ (by decide) (by decide), scan_cons _ _ (by decide) (by decide),
      if_neg (hnot _), if_neg (hnot _)]

/-! ### The pieces -/

/-- What is printed as it is, a name with what is behind it, and a `$` that is the last
character. -/
inductive Piece
  | put (t : Text)
  | call (id behind : Text)
  | lone

/-- The pieces of a template, up to the brace that closes it when it is nested. -/
def pieces (nested : Bool) : Text → List Piece
  | [] => []
  | c :: l =>
    if c = 36 then
      match l with
      | [] => [.lone]
      | c :: p =>
        if c = 123 then
          if 125 ∈ p then
            .call (p.takeWhile (· ≠ 125)) (behind p) :: pieces nested (blocks (behind p)).2
          else [.put (36 :: 123 :: p)]
        else .put (if c = 36 ∨ c = 125 then [c] else [36, c]) :: pieces nested p
    else if c = 125 ∧ nested then [] else .put [c] :: pieces nested l
termination_by l => l.length
decreasing_by
  · have hblocks := (blocks_suffix (behind p)).length_le
    have hbehind := (behind_suffix p).length_le
    simp only [List.length_cons]
    omega
  · simp only [List.length_cons]
    omega
  · simp only [List.length_cons]
    omega

variable (nested : Bool) {c : UInt8} {l p : Text}

theorem pieces_nil : pieces nested [] = [] := by rw [pieces]

theorem pieces_lone : pieces nested [36] = [.lone] := by rw [pieces, if_pos rfl]

theorem pieces_unclosed (h : 125 ∉ p) :
    pieces nested (36 :: 123 :: p) = [.put (36 :: 123 :: p)] := by
  rw [pieces, if_pos rfl]
  rw [if_pos rfl, if_neg h]

theorem pieces_call (h : 125 ∈ p) :
    pieces nested (36 :: 123 :: p) =
      .call (p.takeWhile (· ≠ 125)) (behind p) :: pieces nested (blocks (behind p)).2 := by
  rw [pieces, if_pos rfl]
  rw [if_pos rfl, if_pos h]

theorem pieces_dollar (hc : c ≠ 123) :
    pieces nested (36 :: c :: p) = .put (if c = 36 ∨ c = 125 then [c] else [36, c]) ::
    pieces nested p := by
  rw [pieces, if_pos rfl]
  rw [if_neg hc]

theorem pieces_close (l : Text) : pieces true (125 :: l) = [] := by
  rw [pieces.eq_def]
  exact (if_neg (by decide)).trans (if_pos ⟨rfl, rfl⟩)

theorem pieces_cons (hc : c ≠ 36) (h : ¬ (c = 125 ∧ nested)) :
    pieces nested (c :: l) = .put [c] :: pieces nested l := by
  rw [pieces.eq_def]
  exact (if_neg hc).trans (if_neg h)

/-! ### What a template goes on with -/

theorem scan_lone : scan nested n .text [36] = .lone := by
  rw [scan_cons _ _ (by decide) (by decide), if_pos rfl, scan, if_pos rfl]

theorem scan_unclosed (h : 125 ∉ p) : scan nested n .text (36 :: 123 :: p) = .unclosed := by
  rw [scan_cons _ _ (by decide) (by decide), if_pos rfl, scan, if_pos rfl, if_neg h]

theorem scan_call (h : 125 ∈ p) :
    scan nested n .text (36 :: 123 :: p) = scan nested n .behind (behind p) := by
  rw [scan_cons _ _ (by decide) (by decide), if_pos rfl, scan, if_pos rfl, if_pos h,
    scan_name _ _ h]

theorem scan_dollar (hc : c ≠ 123) :
    scan nested n .text (36 :: c :: p) = scan nested n .text p := by
  rw [scan_cons _ _ (by decide) (by decide), if_pos rfl, scan, if_neg hc]

theorem scan_close (l : Text) : scan true 0 .text (125 :: l) = .close (125 :: l) := by
  rw [scan_cons _ _ (by decide) (by decide), if_neg (by decide), if_neg (by decide),
    if_pos ⟨rfl, .inl rfl⟩, if_pos rfl]

theorem scan_char (hc : c ≠ 36) (h : ¬ (c = 125 ∧ nested)) :
    scan nested 0 .text (c :: l) = scan nested 0 .text l := by
  rw [scan_cons _ _ (by decide) (by decide), if_neg hc, if_neg (fun h => nomatch h.2), if_neg]
  rintro ⟨h125, hn | hn⟩
  · exact h ⟨h125, hn⟩
  · exact absurd hn (lt_irrefl 0)

end Inetutils.Ifconfig.Template
