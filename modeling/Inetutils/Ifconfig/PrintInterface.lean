import Inetutils.Ifconfig.Formats
import Inetutils.Lib.Outcomes

/-! # Printing a template

`print_interfaceX` of `ifconfig/printif.c`, with `select_arg`, `format_handler` and `fh_format`. The
other handlers print and expand arguments, as they like after all that has happened. To read behind
the end of a template, or to write outside of `argv`, has no result.

* `settles_quiet`: how a block is skipped.
* `settles_loop`: how a template is expanded. -/

namespace Inetutils.Ifconfig.PrintInterface

open List
open Put (Text skip)
open Template Formats Lib.Outcomes
open Filter

/-- What is printed, and which handlers are called with which arguments. -/
inductive Event
  | put (t : Text)
  | call (id : Text) (argv : List Text)

abbrev History := List Event

variable {h : History} {l : Text}

/-- What a handler does: it returns, ends the program, prints something, or expands an argument. -/
inductive Script
  | done
  | exit
  | put (t : Text) (s : Script)
  | select (nr : ℕ) (s : History → Script)

/-- `struct format_data` -/
structure Form where
  format : Text
  depth : ℕ
  events : History

section
variable (ptr : ℕ) (handlers : History → Text → List Text → Script)

/-! ### The code -/

/-- `quiet || put_char` -/
def echo (quiet : Bool) (t : Text) (form : Form) : Form :=
  if quiet then form else { form with events := form.events ++ [.put t] }

/-- `put_string`, which does not ask for `quiet`. -/
def put_string (quiet : Bool) (t : Text) (form : Form) : Run Text History Form :=
  if quiet then some ([t], .ok form) else done { form with events := form.events ++ [.put t] }

section
variable (print_interfaceX : Bool → Form → Run Text History Form)

def select_arg (argv : List Text) (nr : ℕ) (form : Form) : Run Text History Form :=
  match argv[nr]? with
  | some x => print_interfaceX false { form with format := x }
  | none => done form

def fh_format (argv : List Text) (form : Form) : Run Text History Form :=
  match argv.findSome? format_find with
  | some frm => print_interfaceX false { form with format := frm.templ }
  | none => done form

def perform (argv : List Text) : Script → Form → Run Text History Form
  | .done, form => done form
  | .exit, form => quit form.events
  | .put t s, form => perform argv s { form with events := form.events ++ [.put t] }
  | .select nr s, form => next (select_arg print_interfaceX argv nr form) fun form =>
    perform argv (s form.events) form

def format_handler (id : Text) (argv : List Text) (form : Form) : Run Text History Form :=
  let form := { form with events := form.events ++ [.call id argv] }
  if id = txt "format" then fh_format print_interfaceX argv form
  else perform print_interfaceX argv (handlers form.events id argv) form

/-- `Just consume all arguments.` -/
def consume : ℕ → Form → Run Text History Form
  | 0, _ => none
  | m + 1, form =>
    match form.format with
    | [] => done form
    | c :: p =>
      if c = 123 then
        next (print_interfaceX true { form with format := p }) fun form =>
          consume m { form with format := skip 125 form.format }
      else done form

/-- The loop that fills `argv`, which has `room` bytes. -/
def collect (room : ℕ) : ℕ → List Text → Form → Run Text History (List Text × Form)
  | 0, _, _ => none
  | m + 1, argv, form =>
    match form.format with
    | [] => done (argv, form)
    | c :: p =>
      if c = 123 then
        next (print_interfaceX true { form with format := p }) fun form =>
          if room < (argv.length + 1) * ptr then none
          else
            collect room m (argv ++ [p.take (p.length - form.format.length)])
              { form with format := skip 125 form.format }
      else done (argv, form)

/-- A name that ends, with `q` behind its brace. -/
def substitute (quiet : Bool) (m : ℕ) (id q : Text) (form : Form) : Run Text History Form :=
  if quiet then consume print_interfaceX m { form with format := q }
  else
    next (collect ptr print_interfaceX ((q.length + 1) / 2) m [] { form with format := q }) fun r =>
      next (format_handler handlers print_interfaceX id r.1 r.2) fun form =>
        done { form with format := r.2.format }

/-- What comes of `$`, with `l` behind it. -/
def dollar (quiet : Bool) (m : ℕ) (form : Form) : Text → Run Text History Form
  | [] => none
  | c :: p =>
    if c = 123 then
      if 125 ∈ p then
        substitute ptr handlers print_interfaceX quiet m (p.takeWhile (· ≠ 125)) (behind p) form
      else put_string quiet (36 :: 123 :: p) { form with format := [] }
    else done (echo quiet (if c = 36 ∨ c = 125 then [c] else [36, c]) { form with format := p })

/-- The loop of `print_interfaceX`, a character or a `$` at a time. -/
def loop (quiet : Bool) : ℕ → Form → Run Text History Form
  | 0, _ => none
  | m + 1, form =>
    match form.format with
    | [] => done form
    | c :: p =>
      if c = 36 then next (dollar ptr handlers print_interfaceX quiet m form p) (loop quiet m)
      else if c = 125 ∧ 1 < form.depth then done form
      else loop quiet m (echo quiet [c] { form with format := p })

end

/-- **`print_interfaceX`**, with fuel. -/
def print_interfaceX : ℕ → Bool → Form → Run Text History Form
  | 0, _, _ => none
  | n + 1, quiet, form =>
    next (loop ptr handlers (print_interfaceX n) quiet n { form with depth := form.depth + 1 })
      fun form =>
      done { form with depth := form.depth - 1 }

section
variable {ptr handlers} {print_interfaceX : Bool → Form → Run Text History Form} {quiet : Bool}
    {m d : ℕ} {c : UInt8}
  {l q : Text} {h : History} {form : Form}

theorem loop_dollar :
    loop ptr handlers print_interfaceX quiet (m + 1) ⟨36 :: l, d, h⟩ =
      next (dollar ptr handlers print_interfaceX quiet m ⟨36 :: l, d, h⟩ l)
      (loop ptr handlers print_interfaceX quiet m) := by
  unfold loop
  exact if_pos rfl

theorem loop_close (hd : 1 < d) :
    loop ptr handlers print_interfaceX quiet (m + 1) ⟨125 :: l, d, h⟩ = done ⟨125 :: l, d, h⟩ := by
  unfold loop
  exact (if_neg (by decide)).trans (if_pos ⟨rfl, hd⟩)

theorem loop_char (hc : c ≠ 36) (hd : ¬ (c = 125 ∧ 1 < d)) :
    loop ptr handlers print_interfaceX quiet (m + 1) ⟨c :: l, d, h⟩ =
      loop ptr handlers print_interfaceX quiet m (echo quiet [c] ⟨l, d, h⟩) := by
  exact (if_neg hc).trans (if_neg hd)

theorem dollar_name (hq : 125 ∈ q) :
    dollar ptr handlers print_interfaceX quiet m form (123 :: q) =
      substitute ptr handlers print_interfaceX quiet m (q.takeWhile (· ≠ 125)) (behind q) form := by
  rw [dollar, if_pos rfl, if_pos hq]

theorem dollar_unclosed (hq : 125 ∉ q) :
    dollar ptr handlers print_interfaceX quiet m form (123 :: q) =
      put_string quiet (36 :: 123 :: q) { form with format := [] } := by
  rw [dollar, if_pos rfl, if_neg hq]

theorem dollar_char (hc : c ≠ 123) :
    dollar ptr handlers print_interfaceX quiet m form (c :: q) =
      done (echo quiet (if c = 36 ∨ c = 125 then [c] else [36, c]) { form with format := q }) := by
  rw [dollar, if_neg hc]

theorem consume_block :
    consume print_interfaceX (m + 1) ⟨123 :: l, d, h⟩ =
      next (print_interfaceX true ⟨l, d, h⟩) fun form =>
        consume print_interfaceX m { form with format := skip 125 form.format } := by
  rw [consume]
  exact if_pos rfl

theorem collect_block {room : ℕ} {argv : List Text} :
    collect ptr print_interfaceX room (m + 1) argv ⟨123 :: l, d, h⟩ =
      next (print_interfaceX true ⟨l, d, h⟩) fun form =>
        if room < (argv.length + 1) * ptr then none
        else
          collect ptr print_interfaceX room m (argv ++ [l.take (l.length - form.format.length)])
            { form with format := skip 125 form.format } := by
  rw [collect]
  exact if_pos rfl

theorem collect_end {room : ℕ} {argv : List Text} (hc : c ≠ 123) :
    collect ptr print_interfaceX room (m + 1) argv ⟨c :: l, d, h⟩ =
    done (argv, ⟨c :: l, d, h⟩) := by
  exact if_neg hc

theorem consume_end (hc : c ≠ 123) :
    consume print_interfaceX (m + 1) ⟨c :: l, d, h⟩ = done ⟨c :: l, d, h⟩ := by
  exact if_neg hc

end

/-! ### What a template means -/

/-- What an expansion comes to: a `$` that is the last character, a block that is skipped, an entry
of `argv` that is set. -/
inductive Point
  | lone
  | block (s : Stop)
  | store (argc room : ℕ)

def Point.Good : Point → Prop
  | lone => False
  | block s => s.Closed
  | store argc room => (argc + 1) * ptr ≤ room

/-- The points of the blocks behind a name, with `argc` blocks before them. -/
def collected (room : ℕ) : ℕ → List Block → List Point
  | _, [] => []
  | argc, b :: bs => .block b.stop :: .store argc room :: collected room (argc + 1) bs

section
variable (expand : Text → History → Trace Point History)

def selected (argv : List Text) (nr : ℕ) (h : History) : Trace Point History :=
  match argv[nr]? with
  | some x => expand x h
  | none => .pure h

def performed (argv : List Text) : Script → History → Trace Point History
  | .done, h => .pure h
  | .exit, h => ⟨[], .error h⟩
  | .put t s, h => performed argv s (h ++ [.put t])
  | .select nr s, h => (selected expand argv nr h).next fun h => performed argv (s h) h

def formatted (argv : List Text) (h : History) : Trace Point History :=
  match argv.findSome? format_find with
  | some frm => expand frm.templ h
  | none => .pure h

def handled (id : Text) (argv : List Text) (h : History) : Trace Point History :=
  if id = txt "format" then formatted expand argv (h ++ [.call id argv])
  else performed expand argv (handlers (h ++ [.call id argv]) id argv) (h ++ [.call id argv])

def shown : Piece → History → Trace Point History
  | .put t, h => .pure (h ++ [.put t])
  | .lone, h => .points [.lone] h
  | .call id behind, h =>
    (Trace.points (collected ((behind.length + 1) / 2) 0 (blocks behind).1) h).next
      (handled handlers expand id ((blocks behind).1.map Block.text))

def expanded : List Piece → History → Trace Point History
  | [], h => .pure h
  | p :: ps, h => (shown handlers expand p h).next (expanded ps)

end

/-- The expansion of a block, with at most `k` expansions within each other. -/
def expand : ℕ → Text → History → Trace Point History
  | 0, _, h => .pure h
  | k + 1, x, h => expanded handlers (expand k) (pieces true x) h

/-- **What a template means**, nested or not. -/
def meaning (nested : Bool) (l : Text) (h : History) : Trace Point History :=
  expanded handlers (expand handlers (levels 0 l)) (pieces nested l) h

/-! ### Skipping -/

/-- Where `form` stands. -/
def Stands (l : Text) (d : ℕ) (h : History) (form : Form) : Prop := form = ⟨l, d, h⟩

theorem settles_print {quiet : Bool} {r : Text} {d : ℕ} {t : Trace Point History}
    (ht : Settles (Point.Good ptr) atTop
      (fun n : ℕ × ℕ => loop ptr handlers (print_interfaceX ptr handlers n.1) quiet n.2
      ⟨l, d + 1, h⟩) t fun e form => Stands r (d + 1) e form) :
    Settles (Point.Good ptr) atTop (fun n => print_interfaceX ptr handlers n quiet ⟨l, d, h⟩) t
    (Stands r d) :=
  (ht.next_done (k := fun form => { form with depth := form.depth - 1 }) fun e form hform => by
    rw [show form = _ from hform]
    rfl).call fun n => rfl

def SkipsAt (l : Text) (d : ℕ) (h : History) : Prop :=
  Settles (Point.Good ptr) atTop
    (fun n : ℕ × ℕ => loop ptr handlers (print_interfaceX ptr handlers n.1) true n.2 ⟨l, d + 1, h⟩)
    (.points [.block (scan (0 < d) 0 .text l)] h) (Stands (scan (0 < d) 0 .text l).rest (d + 1))

def Skips (l : Text) : Prop := ∀ d h, SkipsAt ptr handlers l d h

def Consumes (l : Text) : Prop :=
  ∀ (d : ℕ) (h : History), Settles (Point.Good ptr) atTop
    (fun n : ℕ × ℕ => consume (print_interfaceX ptr handlers n.1) n.2 ⟨l, d + 1, h⟩)
    (.points ((blocks l).1.map fun b => .block b.stop) h) (Stands (blocks l).2 (d + 1))

variable {ptr handlers}

theorem good_block_iff {s : Stop} :
    (Trace.points [Point.block s] h).Good (Point.Good ptr) ↔ s.Closed := by
  unfold Trace.points Trace.Good
  rw [forall_mem_singleton]
  exact Iff.rfl

theorem Skips.print (hl : Skips ptr handlers l) (d : ℕ) (h : History) :
    Settles (Point.Good ptr) atTop
    (fun n : ℕ × ℕ => print_interfaceX ptr handlers n.1 true ⟨l, d + 1, h⟩)
      (.points [.block (scan true 0 .text l)] h) (Stands (scan true 0 .text l).rest (d + 1)) := by
  have hskips := hl (d + 1) h
  unfold SkipsAt at hskips
  rw [decide_eq_true (Nat.succ_pos d)] at hskips
  exact (settles_print ptr handlers hskips).fst

theorem skips_close {d : ℕ}
    (hloop : ∀ m n, loop ptr handlers (print_interfaceX ptr handlers n) true (m + 1) ⟨l, d + 1, h⟩ =
      done ⟨l, d + 1, h⟩)
    (hscan : scan (0 < d) 0 .text l = .close l) :
    SkipsAt ptr handlers l d h := by
  unfold SkipsAt
  rw [hscan]
  refine .succ (.points (.done (a := ⟨l, d + 1, h⟩) rfl (.of_forall fun n => hloop n.2 n.1)) ?_)
  rw [forall_mem_singleton]
  trivial

theorem skips_goes {p : Text} {d : ℕ} (hp : Skips ptr handlers p)
    (hloop : ∀ m n, loop ptr handlers (print_interfaceX ptr handlers n) true (m + 1) ⟨l, d + 1, h⟩ =
      loop ptr handlers (print_interfaceX ptr handlers n) true m ⟨p, d + 1, h⟩)
    (hscan : scan (0 < d) 0 .text l = scan (0 < d) 0 .text p) :
    SkipsAt ptr handlers l d h := by
  unfold SkipsAt
  rw [hscan]
  exact .succ ((hp d h).congr (.of_forall fun n => hloop n.2 n.1))

theorem skips_foul {d : ℕ}
    (hloop : ∀ m n,
      Foul (loop ptr handlers (print_interfaceX ptr handlers n) true (m + 1) ⟨l, d + 1, h⟩))
    (hscan : ¬ (scan (0 < d) 0 .text l).Closed) :
    SkipsAt ptr handlers l d h :=
  .succ (.of_not_good (mt good_block_iff.1 hscan) (.of_forall fun n => hloop n.2 n.1))

theorem good_blocks_iff {bs : List Block} :
    (Trace.points (bs.map fun b => Point.block b.stop) h).Good (Point.Good ptr) ↔
    ∀ b ∈ bs, b.stop.Closed := by
  unfold Trace.points Trace.Good
  rw [forall_mem_map]
  exact Iff.rfl

theorem skips_call {q : Text} {d : ℕ} (hq : 125 ∈ q) (hconsumes : Consumes ptr handlers (behind q))
    (hskips : Skips ptr handlers (blocks (behind q)).2) :
    SkipsAt ptr handlers (36 :: 123 :: q) d h := by
  have hloop : ∀ m n,
    loop ptr handlers (print_interfaceX ptr handlers n) true (m + 1) ⟨36 :: 123 :: q, d + 1, h⟩ =
      next (consume (print_interfaceX ptr handlers n) m ⟨behind q, d + 1, h⟩)
        (loop ptr handlers (print_interfaceX ptr handlers n) true m) := by
    intro m n
    rw [loop_dollar, dollar_name hq]
    rfl
  obtain ⟨hclosed, hopen⟩ := scan_behind (0 < d) 0 (behind q)
  unfold SkipsAt
  rw [scan_call _ _ hq]
  refine .succ (.congr ?_ (.of_forall fun n => hloop n.2 n.1))
  have hrun :=
    (hconsumes d h).next
    (k := fun n => loop ptr handlers (print_interfaceX ptr handlers n.1) true n.2)
    (u := fun h => .points [.block (scan (0 < d) 0 .text (blocks (behind q)).2)] h)
    (S := Stands (scan (0 < d) 0 .text (blocks (behind q)).2).rest (d + 1)) fun e form _ hform => by
      rw [show form = _ from hform]
      exact hskips d e
  have hgood : (∀ b ∈ (blocks (behind q)).1, b.stop.Closed) ∧
    (scan (0 < d) 0 .text (blocks (behind q)).2).Closed ↔
      (scan (0 < d) 0 .behind (behind q)).Closed := by
    by_cases hall : ∀ b ∈ (blocks (behind q)).1, b.stop.Closed
    · rw [hclosed hall, and_iff_right hall]
    · exact iff_of_false (fun h => hall h.1) (hopen hall)
  have htrace := hrun.congr_trace (u := .points [.block (scan (0 < d) 0 .behind (behind q))] h)
    (by rw [Trace.good_next_iff rfl, good_blocks_iff, good_block_iff, good_block_iff, hgood])
      fun _ => rfl
  refine htrace.mono fun hg e form hform => ?_
  rw [good_block_iff, ← hgood] at hg
  rwa [hclosed hg.1]

theorem skips_of
    (ih : ∀ m : Text, m.length < l.length → Skips ptr handlers m ∧ Consumes ptr handlers m) :
    Skips ptr handlers l := by
  intro d h
  rcases l with - | ⟨c, p⟩
  · exact skips_close (fun _ _ => rfl) (scan_nil _ _ (by decide))
  by_cases h36 : c = 36
  · subst h36
    rcases p with - | ⟨c, q⟩
    · exact skips_foul (fun _ _ => foul_none) (by rw [scan_lone]; exact id)
    by_cases h123 : c = 123
    · subst h123
      by_cases hq : 125 ∈ q
      · have hbehind := (behind_suffix q).length_le
        have hblocks := (blocks_suffix (behind q)).length_le
        simp only [length_cons] at ih
        exact skips_call hq (ih _ (by omega)).2 (ih _ (by omega)).1
      · refine skips_foul (fun m n => ?_) (by rw [scan_unclosed _ _ hq]; exact id)
        rw [loop_dollar, dollar_unclosed hq]
        exact (foul_some (cons_ne_nil _ _) _).next _
    · refine skips_goes (ih q (by simp only [length_cons]; omega)).1 (fun m n => ?_)
        (scan_dollar _ _ h123)
      rw [loop_dollar, dollar_char h123, next_done]
      rfl
  by_cases h125 : c = 125 ∧ 1 < d + 1
  · obtain ⟨rfl, hd⟩ := h125
    refine skips_close (fun _ _ => loop_close hd) ?_
    rw [decide_eq_true (Nat.lt_of_succ_lt_succ hd)]
    exact scan_close p
  · refine skips_goes (ih p (Nat.lt_succ_self _)).1 (fun m n => loop_char h36 h125)
      (scan_char _ h36 ?_)
    rintro ⟨hc, hd⟩
    exact h125 ⟨hc, Nat.succ_lt_succ (of_decide_eq_true hd)⟩

theorem consumes_of
    (ih : ∀ m : Text, m.length < l.length → Skips ptr handlers m ∧ Consumes ptr handlers m) :
    Consumes ptr handlers l := by
  intro d h
  rcases l with - | ⟨c, p⟩
  · exact .succ
      (.points (.done (a := ⟨[], d + 1, h⟩) (by rw [blocks]; rfl) (.of_forall fun n => rfl))
        (by rw [blocks]; simp))
  refine .succ ?_
  by_cases h123 : c = 123
  · subst h123
    have hskip := length_skip_le 125 (scan true 0 .text p).rest
    have hrest := length_rest_scan_le true 0 .text p
    have hlt : (skip 125 (scan true 0 .text p).rest).length < (123 :: p).length := by
      rw [length_cons]
      omega
    have hrun := ((ih p (Nat.lt_succ_self _)).1.print d h).next
      (k := fun n form => consume (print_interfaceX ptr handlers n.1) n.2
        { form with format := skip 125 form.format })
      (u := fun h =>
        .points ((blocks (skip 125 (scan true 0 .text p).rest)).1.map fun b => .block b.stop) h)
      (S := Stands (blocks (skip 125 (scan true 0 .text p).rest)).2 (d + 1)) fun e form
        _ hform => by
        rw [show form = _ from hform]
        exact (ih _ hlt).2 d e
    rw [blocks, if_pos rfl]
    exact hrun.congr (.of_forall fun n => consume_block)
  · refine .points (.done (a := ⟨c :: p, d + 1, h⟩) ?_ (.of_forall fun n => consume_end h123)) ?_
    · rw [blocks, if_neg h123]
      rfl
    · rw [blocks, if_neg h123]
      exact forall_mem_nil _

theorem skips_and_consumes (l : Text) : Skips ptr handlers l ∧ Consumes ptr handlers l := by
  induction hn : l.length using Nat.strong_induction_on generalizing l with
  | _ n ih =>
    have hlt : ∀ m : Text, m.length < l.length → Skips ptr handlers m ∧ Consumes ptr handlers m :=
      fun m hm =>
      ih m.length (hn ▸ hm) m rfl
    exact ⟨skips_of hlt, consumes_of hlt⟩

/-! ### Expanding -/

theorem settles_collect (room : ℕ) (l : Text) (argv : List Text) (d : ℕ) (h : History) :
    Settles (Point.Good ptr) atTop
      (fun n : ℕ × ℕ => collect ptr (print_interfaceX ptr handlers n.1) room n.2 argv ⟨l, d + 1, h⟩)
      (.points (collected room argv.length (blocks l).1) h)
      fun e r => r = (argv ++ (blocks l).1.map Block.text, ⟨(blocks l).2, d + 1, e⟩) := by
  induction l using blocks.induct generalizing argv d h with
  | case1 =>
    rw [blocks]
    refine .succ (.done (a := (argv, ⟨[], d + 1, h⟩)) ?_ (.of_forall fun _ => rfl))
    rw [map_nil, append_nil]
  | case2 l ih =>
    rw [blocks, if_pos rfl]
    refine .succ
      (.congr
        (((skips_and_consumes l).1.print d h).next
          (u := fun h => .points (.store argv.length room ::
      collected room (argv.length + 1) (blocks (skip 125 (scan true 0 .text l).rest)).1) h) ?_)
      (.of_forall fun n => collect_block))
    rintro e form - hform
    obtain rfl : form = _ := hform
    by_cases hroom : room < (argv.length + 1) * ptr
    · refine .of_not_good (fun hgood => ?_) (.of_forall fun n => ?_)
      · exact Nat.not_le_of_lt hroom (hgood _ mem_cons_self)
      · rw [if_pos hroom]
        exact foul_none
    · have hrest := ih (argv ++ [l.take (l.length - (scan true 0 .text l).rest.length)]) d e
      rw [length_append, length_singleton] at hrest
      have htrace := hrest.congr_trace (u := .points (.store argv.length room ::
        collected room (argv.length + 1) (blocks (skip 125 (scan true 0 .text l).rest)).1) e) (by
          unfold Trace.points Trace.Good
          rw [forall_mem_cons,
            and_iff_right (show Point.Good ptr (.store _ _) from Nat.le_of_not_lt hroom)])
        fun _ => rfl
      refine (htrace.congr (.of_forall fun n => if_neg hroom)).mono fun _ e r hr => ?_
      rw [hr, map_cons, append_assoc]
      rfl
  | case3 c l hc =>
    rw [blocks, if_neg hc]
    refine .succ (.done (a := (argv, ⟨c :: l, d + 1, h⟩)) ?_ (.of_forall fun _ => collect_end hc))
    rw [map_nil, append_nil]

/-- What is left of `form` when a handler returns. -/
def After (d : ℕ) (h : History) (form : Form) : Prop := form.depth = d ∧ form.events = h

variable {sel : Text → History → Trace Point History} {argv : List Text} {d : ℕ}

variable (ptr handlers sel d) in
def Expands (x : Text) : Prop :=
  ∀ h, Settles (Point.Good ptr) atTop (fun n => print_interfaceX ptr handlers n false ⟨x, d + 1, h⟩)
    (sel x h) (After (d + 1))

section
variable (hargv : ∀ x ∈ argv, Expands ptr handlers sel d x)
include hargv

theorem settles_select (nr : ℕ) (f : Text) (h : History) :
    Settles (Point.Good ptr) atTop
      (fun n : ℕ × ℕ => select_arg (print_interfaceX ptr handlers n.1) argv nr ⟨f, d + 1, h⟩)
      (selected sel argv nr h) (After (d + 1)) := by
  unfold select_arg selected
  rcases hx : argv[nr]? with - | x
  · exact .done ⟨rfl, rfl⟩ (.of_forall fun _ => rfl)
  · exact (hargv x (mem_of_getElem? hx) h).fst

theorem settles_perform (s : Script) (f : Text) (h : History) :
    Settles (Point.Good ptr) atTop
      (fun n : ℕ × ℕ => perform (print_interfaceX ptr handlers n.1) argv s ⟨f, d + 1, h⟩)
      (performed sel argv s h) (After (d + 1)) := by
  induction s generalizing f h with
  | done => exact .done ⟨rfl, rfl⟩ (.of_forall fun _ => rfl)
  | exit => exact .quit (.of_forall fun _ => rfl)
  | put t s ih => exact ih f _
  | select nr s ih =>
    refine (settles_select hargv nr f h).next fun e form _ hform => ?_
    obtain ⟨f', d', e'⟩ := form
    obtain ⟨rfl, rfl⟩ := hform
    exact ih e' f' e'

variable
    (hformat : ∀ frm, argv.findSome? format_find = some frm → Expands ptr handlers sel d frm.templ)
include hformat

theorem settles_handler (id f : Text) (h : History) :
    Settles (Point.Good ptr) atTop
      (fun n : ℕ × ℕ => format_handler handlers (print_interfaceX ptr handlers n.1) id argv
        ⟨f, d + 1, h⟩)
      (handled handlers sel id argv h) (After (d + 1)) := by
  unfold format_handler handled
  split
  · unfold fh_format formatted
    rcases hfind : argv.findSome? format_find with - | frm
    · exact .done ⟨rfl, rfl⟩ (.of_forall fun _ => rfl)
    · exact (hformat frm hfind _).fst
  · exact settles_perform hargv _ f _

end

theorem settles_call {q : Text} (hargv : ∀ b ∈ (blocks q).1, Expands ptr handlers sel d b.text)
    (hformat : ∀ b ∈ (blocks q).1, ∀ frm, format_find b.text = some frm →
      Expands ptr handlers sel d frm.templ)
    (id f : Text) (h : History) :
    Settles (Point.Good ptr) atTop (fun n : ℕ × ℕ =>
      substitute ptr handlers (print_interfaceX ptr handlers n.1) false n.2 id q ⟨f, d + 1, h⟩)
      (shown handlers sel (.call id q) h) (Stands (blocks q).2 (d + 1)) := by
  have hargv' : ∀ x ∈ (blocks q).1.map Block.text, Expands ptr handlers sel d x :=
    forall_mem_map.2 hargv
  have hformat' : ∀ frm, ((blocks q).1.map Block.text).findSome? format_find = some frm →
      Expands ptr handlers sel d frm.templ := by
    intro frm hfrm
    obtain ⟨x, hx, hfind⟩ := exists_of_findSome?_eq_some hfrm
    obtain ⟨b, hb, rfl⟩ := mem_map.1 hx
    exact hformat b hb frm hfind
  refine (settles_collect ((q.length + 1) / 2) q [] d h).next fun e r _ hr => ?_
  obtain rfl : r = _ := hr
  refine (settles_handler hargv' hformat' id (blocks q).2 e).next_done fun e form hform => ?_
  obtain ⟨f', d', e'⟩ := form
  obtain ⟨rfl, rfl⟩ := hform
  rfl

variable (ptr handlers sel) in
def RunsAt (l : Text) (d : ℕ) (h : History) : Prop :=
  Settles (Point.Good ptr) atTop
    (fun n : ℕ × ℕ => loop ptr handlers (print_interfaceX ptr handlers n.1) false n.2 ⟨l, d + 1, h⟩)
    (expanded handlers sel (pieces (0 < d) l) h) (Stands (scan (0 < d) 0 .text l).rest (d + 1))

variable (ptr handlers sel) in
def Runs (l : Text) : Prop := ∀ d h, RunsAt ptr handlers sel l d h

theorem runs_put {p t : Text} (hp : Runs ptr handlers sel p)
    (hloop : ∀ m n,
      loop ptr handlers (print_interfaceX ptr handlers n) false (m + 1) ⟨l, d + 1, h⟩ =
      loop ptr handlers (print_interfaceX ptr handlers n) false m ⟨p, d + 1, h ++ [.put t]⟩)
    (hpieces : pieces (0 < d) l = .put t :: pieces (0 < d) p)
    (hscan : (scan (0 < d) 0 .text l).rest = (scan (0 < d) 0 .text p).rest) :
    RunsAt ptr handlers sel l d h := by
  unfold RunsAt
  rw [hpieces, hscan]
  exact .succ ((hp d (h ++ [.put t])).congr (.of_forall fun n => hloop n.2 n.1))

theorem closed_of_collected {room argc : ℕ} {bs : List Block}
    (h : ∀ p ∈ collected room argc bs, p.Good ptr) : ∀ b ∈ bs, b.stop.Closed := by
  induction bs generalizing argc with
  | nil => exact forall_mem_nil _
  | cons b bs ih =>
    rw [collected, forall_mem_cons, forall_mem_cons] at h
    exact forall_mem_cons.2 ⟨h.1, ih h.2.2⟩

theorem runs_call {q : Text} (hq : 125 ∈ q)
    (hcall : ∀ f, Settles (Point.Good ptr) atTop (fun n : ℕ × ℕ => substitute ptr handlers
      (print_interfaceX ptr handlers n.1) false n.2 (q.takeWhile (· ≠ 125)) (behind q)
      ⟨f, d + 1, h⟩)
      (shown handlers sel (.call (q.takeWhile (· ≠ 125)) (behind q)) h)
      (Stands (blocks (behind q)).2 (d + 1)))
    (hrest : Runs ptr handlers sel (blocks (behind q)).2) :
    RunsAt ptr handlers sel (36 :: 123 :: q) d h := by
  have hloop : ∀ m n,
    loop ptr handlers (print_interfaceX ptr handlers n) false (m + 1) ⟨36 :: 123 :: q, d + 1, h⟩ =
      next (substitute ptr handlers (print_interfaceX ptr handlers n) false m
        (q.takeWhile (· ≠ 125)) (behind q)
        ⟨36 :: 123 :: q, d + 1, h⟩)
        (loop ptr handlers (print_interfaceX ptr handlers n) false m) := by
    intro m n
    rw [loop_dollar, dollar_name hq]
  have hrun := (hcall (36 :: 123 :: q)).next
    (k := fun n : ℕ × ℕ => loop ptr handlers (print_interfaceX ptr handlers n.1) false n.2)
    (u := expanded handlers sel (pieces (0 < d) (blocks (behind q)).2))
    (S := Stands (scan (0 < d) 0 .text (blocks (behind q)).2).rest (d + 1)) fun e form _ hform => by
      rw [show form = _ from hform]
      exact hrest d e
  unfold RunsAt
  rw [pieces_call _ hq, scan_call _ _ hq]
  refine .succ ((hrun.congr (.of_forall fun n => hloop n.2 n.1)).mono fun hgood e form hform => ?_)
  have hclosed := closed_of_collected (Trace.Good.of_next (Trace.Good.of_next hgood))
  rwa [(scan_behind (0 < d) 0 (behind q)).1 hclosed]

theorem runs_of (hargv : ∀ x d, 123 :: (x ++ [125]) <:+: l ++ [125] → Expands ptr handlers sel d x)
    (hformat : ∀ x d frm, 123 :: (x ++ [125]) <:+: l ++ [125] → format_find x = some frm →
      Expands ptr handlers sel d frm.templ) : Runs ptr handlers sel l := by
  induction hn : l.length using Nat.strong_induction_on generalizing l with
  | _ n ih =>
    have hlt : ∀ p, p <:+ l → p.length < l.length → Runs ptr handlers sel p := fun p hp hlen =>
      have hin : p ++ [125] <:+: l ++ [125] := (suffix_append_self_iff.2 hp).isInfix
      ih p.length (hn ▸ hlen) (fun x d hx => hargv x d (hx.trans hin))
        (fun x d frm hx => hformat x d frm (hx.trans hin)) rfl
    intro d h
    rcases l with - | ⟨c, p⟩
    · unfold RunsAt
      rw [pieces_nil, scan_nil _ _ (by decide)]
      exact .succ (.done (a := ⟨[], d + 1, h⟩) rfl (.of_forall fun _ => rfl))
    by_cases h36 : c = 36
    · subst h36
      rcases p with - | ⟨c, q⟩
      · unfold RunsAt
        rw [pieces_lone]
        exact .succ
          (.of_not_good (fun hgood => hgood.of_next _ mem_cons_self)
            (.of_forall fun _ => foul_none))
      by_cases h123 : c = 123
      · subst h123
        by_cases hq : 125 ∈ q
        · have hsuf : behind q <:+ 36 :: 123 :: q :=
            ((behind_suffix q).trans (suffix_cons 123 q)).trans (suffix_cons 36 _)
          have hin : behind q ++ [125] <:+: 36 :: 123 :: q ++ [125] :=
            (suffix_append_self_iff.2 hsuf).isInfix
          have hbehind := (behind_suffix q).length_le
          have hblocks := (blocks_suffix (behind q)).length_le
          refine runs_call hq (fun f => settles_call ?_ ?_ _ f h)
            (hlt _ ((blocks_suffix _).trans hsuf) ?_)
          · exact fun b hb => hargv b.text d ((braced_of_mem_blocks hb).1.trans hin)
          · exact fun b hb frm => hformat b.text d frm ((braced_of_mem_blocks hb).1.trans hin)
          · simp only [length_cons]
            omega
        · refine runs_put (t := 36 :: 123 :: q) (hlt [] nil_suffix (Nat.succ_pos _))
            (fun m n => ?_) ?_ ?_
          · rw [loop_dollar, dollar_unclosed hq]
            exact next_done _ _
          · rw [pieces_unclosed _ hq, pieces_nil]
          · rw [scan_unclosed _ _ hq, scan_nil _ _ (by decide)]
            rfl
      · refine runs_put
          (hlt q ((suffix_cons c q).trans (suffix_cons 36 _)) (by simp only [length_cons]; omega))
          (fun m n => ?_)
          (pieces_dollar _ h123) (by rw [scan_dollar _ _ h123])
        rw [loop_dollar, dollar_char h123]
        exact next_done _ _
    by_cases h125 : c = 125 ∧ 1 < d + 1
    · obtain ⟨rfl, hd⟩ := h125
      unfold RunsAt
      rw [decide_eq_true (Nat.lt_of_succ_lt_succ hd), pieces_close, scan_close]
      exact .succ (.done (a := ⟨125 :: p, d + 1, h⟩) rfl (.of_forall fun _ => loop_close hd))
    · have hc : ¬ (c = 125 ∧ decide (0 < d) = true) :=
        fun hc => h125 ⟨hc.1, Nat.succ_lt_succ (of_decide_eq_true hc.2)⟩
      exact runs_put (hlt p (suffix_cons c p) (Nat.lt_succ_self _)) (fun m n => loop_char h36 h125)
        (pieces_cons _ h36 hc)
        (by rw [scan_char _ h36 hc])

theorem runs_of_lower {k i : ℕ} (hl : Later i l) (hk : levels i l ≤ k)
    (ih : ∀ i x d, Later i x → levels i x < k → Expands ptr handlers (expand handlers k) d x) :
    Runs ptr handlers (expand handlers k) l := by
  refine runs_of (fun x d hx => ?_) fun x d frm hx hfind => ?_
  · obtain ⟨hlater, hlt⟩ := braced_lower hl hx
    exact ih i x d hlater (lt_of_lt_of_le hlt hk)
  · obtain ⟨j, hlater, hlt⟩ := find_lower hl hx hfind
    exact ih j frm.templ d hlater (lt_of_lt_of_le hlt hk)

/-- **Every template is expanded**, with enough fuel. -/
theorem expands (k i : ℕ) (x : Text) (d : ℕ) (hx : Later i x) (hk : levels i x < k) :
    Expands ptr handlers (expand handlers k) d x := by
  induction k generalizing i x d with
  | zero => exact absurd hk (Nat.not_lt_zero _)
  | succ k ih =>
    intro h
    have hruns : Runs ptr handlers (expand handlers k) x :=
      runs_of_lower hx (Nat.le_of_lt_succ hk) ih
    have hloop := hruns (d + 1) h
    unfold RunsAt at hloop
    rw [decide_eq_true (Nat.succ_pos d)] at hloop
    refine (settles_print ptr handlers hloop).mono fun _ e form hform => ?_
    rw [show form = _ from hform]
    exact ⟨rfl, rfl⟩

theorem settles_template (l : Text) (d : ℕ) (h : History) :
    Settles (Point.Good ptr) atTop (fun n => print_interfaceX ptr handlers n false ⟨l, d, h⟩)
      (meaning handlers (0 < d) l h) (Stands (scan (0 < d) 0 .text l).rest d) :=
  settles_print ptr handlers (runs_of_lower (later_zero l) le_rfl (expands _) d h)

/-! ### Every template -/

variable (ptr handlers)

/-- With enough fuel `print_interfaceX` returns, or a handler ends the program; nothing is printed
that is not to be; it stops where the template does, quiet or not; and when it is not quiet, what is
printed and which handlers are called, with which arguments, is what the template means. -/
def Right (quiet : Bool) (l : Text) (d : ℕ) (h : History) : Prop :=
  ∀ᶠ n in atTop, print_interfaceX ptr handlers n quiet ⟨l, d, h⟩ =
    some ([], if quiet then .ok ⟨(scan (0 < d) 0 .text l).rest, d, h⟩
      else (meaning handlers (0 < d) l h).result.map fun h => ⟨(scan (0 < d) 0 .text l).rest, d, h⟩)

/-- A template that is skipped is closed, and one that is expanded comes to good points only. -/
def Sound (quiet : Bool) (l : Text) (d : ℕ) (h : History) : Prop :=
  if quiet then (scan (0 < d) 0 .text l).Closed
  else ∀ p ∈ (meaning handlers (0 < d) l h).reached, p.Good ptr

variable {ptr handlers}

theorem eq_of_matches {r : Except History History} {o : Except History Form}
    (h : Matches (Stands l d) r o) :
    o = r.map fun h => ⟨l, d, h⟩ := by
  rcases r with e | e <;> rcases o with e' | form
  · exact congrArg Except.error h.symm
  · exact h.elim
  · exact h.elim
  · exact congrArg Except.ok h

/-- **When nothing goes wrong.** -/
theorem print_iff (quiet : Bool) (l : Text) (d : ℕ) (h : History) :
    Right ptr handlers quiet l d h ↔ Sound ptr handlers quiet l d h := by
  cases quiet with
  | false => exact (settles_template l d h).iff_clean fun o ho => eq_of_matches ho
  | true =>
    exact ((settles_print ptr handlers ((skips_and_consumes l).1 d h)).iff_clean fun o ho =>
      eq_of_matches ho).trans
      good_block_iff

/-! ### A `$` at the end -/

theorem not_right_dollar : ¬ ∀ (handlers : History → Text → List Text → Script) (quiet : Bool)
    (l : Text) (d : ℕ) (h : History), Right 8 handlers quiet l d h := by
  intro hright
  obtain ⟨n, hn⟩ := (hright (fun _ _ _ => .done) false [36] 0 []).exists
  rcases n with - | - | n
  · cases hn
  · cases hn
  · rw [print_interfaceX, loop_dollar] at hn
    cases hn

end

end Inetutils.Ifconfig.PrintInterface
