import Inetutils.Telnetd.Telrcv
import Mathlib.Algebra.Order.Group.Nat

/-! # Where reads end

What the server does with a stream from the client should not depend on how the stream is cut into
reads. It does at one place: in line mode a carriage return and the byte that ends the line with it
come out as one line feed, but when the read ends between them `telrcv` cannot look ahead, puts out
the carriage return and drops the other byte (`return_cut_off`). In all other cuts the events are
those of the whole stream (`reads_same_iff`).

That the loop stops while the pty buffer is full makes no difference (`serve_eq`). -/

namespace Inetutils.Telnetd.Segments

open Telnet.Proto Telnet.Items Telnet.Automaton List
open Telrcv

variable {σ : Type*} (srv : Server σ)

/-! ### Stops -/

variable (r : Rcv σ)

theorem telrcv_nil (k : ℕ) (r : Rcv σ) : telrcv srv k r [] = (r, [], []) := by cases k <;> rfl

variable (c : Byte)

theorem telrcv_cons (k : ℕ) (r : Rcv σ) (c : Byte) (l : List Byte) :
    telrcv srv (k + 1) r (c :: l) =
      ((telrcv srv k (turn srv r c l).1 (turn srv r c l).2.2).1,
        (turn srv r c l).2.1 ++ (telrcv srv k (turn srv r c l).1 (turn srv r c l).2.2).2.1,
        (telrcv srv k (turn srv r c l).1 (turn srv r c l).2.2).2.2) := rfl

theorem length_turn (l : List Byte) : (turn srv r c l).2.2.length ≤ l.length := by
  unfold turn
  split_ifs
  · cases l with
    | nil => exact le_rfl
    | cons nc l' =>
      dsimp only
      split_ifs
      · exact Nat.le_succ _
      · exact le_rfl
  · exact le_rfl

theorem telrcv_add : ∀ (j k : ℕ) (r : Rcv σ) (l : List Byte),
    telrcv srv (j + k) r l =
      let p := telrcv srv j r l
      let q := telrcv srv k p.1 p.2.2
      (q.1, p.2.1 ++ q.2.1, q.2.2)
  | 0, k, r, l => by rw [zero_add]; rfl
  | j + 1, k, r, [] => by rw [telrcv_nil, telrcv_nil]; dsimp only; rw [telrcv_nil]; rfl
  | j + 1, k, r, c :: l => by
    rw [show j + 1 + k = (j + k) + 1 by omega, telrcv_cons, telrcv_cons, telrcv_add j k]
    dsimp only
    rw [append_assoc]

theorem telrcv_length : ∀ (k : ℕ) (r : Rcv σ) (l : List Byte), l.length ≤ k →
    (telrcv srv k r l).2.2 = []
  | k, r, [], _ => by rw [telrcv_nil]
  | k + 1, r, c :: l, h => by
    have := length_turn srv r c l
    rw [length_cons] at h
    exact telrcv_length k _ _ (by omega)

theorem telrcv_of_rest_nil {k : ℕ} {r : Rcv σ} {l : List Byte} (h : (telrcv srv k r l).2.2 = []) :
    telrcv srv k r l = telrcv srv l.length r l := by
  have hmore : ∀ {j m : ℕ}, (telrcv srv j r l).2.2 = [] →
      telrcv srv (j + m) r l = telrcv srv j r l := by
    intro j m hj
    rw [telrcv_add]
    dsimp only
    rw [hj, telrcv_nil, append_nil]
    exact Prod.ext rfl (Prod.ext rfl hj.symm)
  rw [← hmore h (m := l.length), add_comm, hmore (telrcv_length srv _ r l le_rfl)]

/-- **Stops of the loop make no difference.** -/
theorem serve_eq : ∀ (ks : List ℕ) (r : Rcv σ) (l : List Byte),
    serve srv ks r l = serveStream srv r l
  | [], r, l => rfl
  | k :: ks, r, l => by
    rw [serve, serve_eq ks]
    set p := telrcv srv k r l
    have hrest : (telrcv srv (k + p.2.2.length) r l).2.2 = [] := by
      rw [telrcv_add]; exact telrcv_length srv _ _ _ le_rfl
    have hall := telrcv_of_rest_nil srv hrest
    rw [telrcv_add] at hall
    show _ = ((telrcv srv l.length r l).1, (telrcv srv l.length r l).2.1)
    rw [← hall]; rfl

theorem serveStream_nil : serveStream srv r [] = (r, []) := rfl

theorem serveStream_cons (l : List Byte) :
    serveStream srv r (c :: l) =
      ((serveStream srv (turn srv r c l).1 (turn srv r c l).2.2).1,
        (turn srv r c l).2.1 ++ (serveStream srv (turn srv r c l).1 (turn srv r c l).2.2).2) := by
  have h : telrcv srv l.length (turn srv r c l).1 (turn srv r c l).2.2 =
      telrcv srv (turn srv r c l).2.2.length (turn srv r c l).1 (turn srv r c l).2.2 :=
    telrcv_of_rest_nil srv (telrcv_length srv _ _ _ (length_turn srv r c l))
  simp only [serveStream, serve, length_cons, telrcv_cons, h]

/-! ### Cuts -/

/-- The bytes `l` begin with the one that ends the line after the carriage return just read. -/
def splitsLine (r : Rcv σ) (l : List Byte) : Prop :=
  r.state = .CR ∧ ∃ c l', l = c :: l' ∧ endsLine srv r.server c = true

theorem gotiac_state_ne : (r.gotiac srv c).1.state ≠ .CR := by
  unfold Rcv.gotiac
  by_cases hs : c = SB
  · rw [if_pos hs]; exact TS.noConfusion
  · rw [if_neg hs]
    cases verbOf c with
    | some v => exact TS.noConfusion
    | none => dsimp only; split_ifs <;> exact TS.noConfusion

theorem receive_state_ne : (r.receive srv c).1.state ≠ .CR := by
  rcases r with ⟨st, sub, s⟩
  cases st <;> simp only [Rcv.receive]
  case IAC => exact gotiac_state_ne srv _ c
  case SE =>
    split_ifs
    · exact TS.noConfusion
    · exact TS.noConfusion
    · exact gotiac_state_ne srv _ c
  all_goals first | exact TS.noConfusion | (split_ifs <;> exact TS.noConfusion)

theorem turn_dropped {r : Rcv σ} {c : Byte} (hr : r.state = .CR) (hc : c = LF ∨ c = NUL)
    (l : List Byte) : turn srv r c l = ({ r with state := .DATA }, [], l) := by
  rcases r with ⟨st, sub, s⟩
  obtain rfl : st = .CR := hr
  rcases hc with rfl | rfl <;> rfl

/-- The stream `a ++ b` against its parts: the events are those of the parts, but for a line that is
split between them. -/
def Parts (r : Rcv σ) (a b : List Byte) : Prop :=
  let p := serveStream srv r a
  let q := serveStream srv p.1 b
  (serveStream srv r (a ++ b)).1 = q.1 ∧
    ((splitsLine srv p.1 b ∧
        ∃ e, p.2 = e ++ [.pty CR] ∧ (serveStream srv r (a ++ b)).2 = e ++ [.pty LF] ++ q.2) ∨
      (¬ splitsLine srv p.1 b ∧ (serveStream srv r (a ++ b)).2 = p.2 ++ q.2))

theorem parts_cons {r r' : Rcv σ} {c : Byte} {a a' b : List Byte} {e : List Event}
    (h1 : turn srv r c a = (r', e, a')) (h2 : turn srv r c (a ++ b) = (r', e, a' ++ b))
    (h : Parts srv r' a' b) : Parts srv r (c :: a) b := by
  unfold Parts
  rw [cons_append, serveStream_cons, serveStream_cons, h1, h2]
  obtain ⟨h3, h4⟩ := h
  refine ⟨h3, ?_⟩
  rcases h4 with ⟨hs, e', h5, h6⟩ | ⟨hs, h6⟩
  · exact .inl ⟨hs, e ++ e', by dsimp only; rw [h5, append_assoc],
      by dsimp only; rw [h6, append_assoc, append_assoc, append_assoc]⟩
  · exact .inr ⟨hs, by dsimp only; rw [h6, append_assoc]⟩

theorem parts_return {r : Rcv σ} {c : Byte} (hl : r.looksAhead srv c = true) (b : List Byte) :
    Parts srv r [c] b := by
  have h1 : turn srv r c [] = ({ r with state := .CR }, [.pty CR], []) := if_pos hl
  unfold Parts
  rw [cons_append, nil_append, serveStream_cons, serveStream_cons, h1]
  cases b with
  | nil =>
    rw [h1]
    refine ⟨rfl, .inr ⟨fun h0 => ?_, rfl⟩⟩
    obtain ⟨-, c', l', h0, -⟩ := h0
    cases h0
  | cons nc b =>
    have h2 : turn srv r c (nc :: b) = if endsLine srv r.server nc then
        ({ r with state := .DATA }, [.pty LF], b)
      else ({ r with state := .CR }, [.pty CR], nc :: b) := if_pos hl
    by_cases he : endsLine srv r.server nc = true
    · rw [if_pos he] at h2
      have hnc : nc = LF ∨ nc = NUL := by
        simp only [endsLine, decide_eq_true_eq] at he
        exact he.2.imp_right And.left
      have h3 := turn_dropped srv (r := { r with state := .CR }) rfl hnc b
      rw [h2]
      rw [serveStream_nil]
      dsimp only
      rw [serveStream_cons, h3]
      exact ⟨rfl, .inl ⟨⟨rfl, nc, b, rfl, he⟩, [], rfl, rfl⟩⟩
    · rw [if_neg he] at h2
      rw [h2]
      refine ⟨rfl, .inr ⟨fun h0 => ?_, rfl⟩⟩
      obtain ⟨-, c', l', h0, h3⟩ := h0
      cases h0
      exact he h3

theorem serveStream_append (b : List Byte) : ∀ (n : ℕ) (a : List Byte) (r : Rcv σ), a.length ≤ n →
    (a = [] → r.state ≠ .CR) → Parts srv r a b
  | _, [], r, _, h => ⟨rfl, .inr ⟨fun h0 => h rfl h0.1, rfl⟩⟩
  | n + 1, c :: a, r, hn, _ => by
    rw [length_cons] at hn
    by_cases hl : r.looksAhead srv c = true
    · cases a with
      | nil => exact parts_return srv hl b
      | cons nc a =>
        rw [length_cons] at hn
        by_cases he : endsLine srv r.server nc = true
        · have ht : ∀ l, turn srv r c (nc :: l) = ({ r with state := .DATA }, [.pty LF], l) :=
            fun l => (if_pos hl).trans (if_pos he)
          exact parts_cons srv (ht a) (ht (a ++ b)) (serveStream_append b n a _ (by omega)
            fun _ => TS.noConfusion)
        · have ht : ∀ l, turn srv r c (nc :: l) = ({ r with state := .CR }, [.pty CR], nc :: l) :=
            fun l => (if_pos hl).trans (if_neg he)
          exact parts_cons srv (ht a) (ht (a ++ b)) (serveStream_append b n (nc :: a) _
            (by rw [length_cons]; omega) fun h0 => by cases h0)
    · have ht : ∀ l, turn srv r c l = ((r.receive srv c).1, (r.receive srv c).2, l) :=
        fun l => if_neg hl
      exact parts_cons srv (ht a) (ht (a ++ b)) (serveStream_append b n a _ (by omega)
        fun _ => receive_state_ne srv r c)

/-! ### Sequences of reads -/

def bytesOf (rds : List Read) : List Byte := rds.flatMap Read.bytes

/-- No read ends between a carriage return and the byte that ends the line with it. -/
def LinesWhole : Rcv σ → List Read → Prop
  | _, [] => True
  | r, rd :: rds =>
    ¬ splitsLine srv (serveStream srv r rd.bytes).1 (bytesOf rds) ∧
      LinesWhole (serveStream srv r rd.bytes).1 rds

def ptyBytes (e : List Event) : List Byte :=
  e.filterMap fun x => match x with | .pty b => some b | .act _ => none

def acts (e : List Event) : List Act :=
  e.filterMap fun x => match x with | .pty _ => none | .act a => some a

/-- The same bytes on the pty and the same calls of handlers, with the same options and payloads. -/
def Same (e e' : List Event) : Prop := ptyBytes e = ptyBytes e' ∧ acts e = acts e'

theorem same_append_left (e : List Event) {e1 e2 : List Event} :
    Same (e ++ e1) (e ++ e2) ↔ Same e1 e2 := by
  simp only [Same, ptyBytes, acts, filterMap_append, append_cancel_left_eq]

theorem not_same_of_split (e e1 e2 : List Event) :
    ¬ Same (e ++ [.pty CR] ++ e1) (e ++ [.pty LF] ++ e2) := by
  rw [append_assoc, append_assoc, same_append_left]
  rintro ⟨h, -⟩
  exact absurd (List.cons.inj h).1 (by decide)

theorem serveReads_cons (rd : Read) (rds : List Read) :
    serveReads srv r (rd :: rds) =
      ((serveReads srv (serveStream srv r rd.bytes).1 rds).1,
        (serveStream srv r rd.bytes).2 ++
        (serveReads srv (serveStream srv r rd.bytes).1 rds).2) := by
  rw [serveReads, serve_eq]

/-- **When the reads make no difference**: the server comes to the same state however the stream is
cut, and it puts the same bytes on the pty and calls the same handlers just if no line is split
between a carriage return and the byte after it. -/
theorem reads_same_iff : ∀ (r : Rcv σ) (rds : List Read),
    (serveReads srv r rds).1 = (serveStream srv r (bytesOf rds)).1 ∧
      (Same (serveReads srv r rds).2 (serveStream srv r (bytesOf rds)).2 ↔ LinesWhole srv r rds)
  | r, [] => ⟨rfl, iff_of_true ⟨rfl, rfl⟩ trivial⟩
  | r, rd :: rds => by
    obtain ⟨h1, h2⟩ := reads_same_iff (serveStream srv r rd.bytes).1 rds
    obtain ⟨h3, h4⟩ := serveStream_append srv (bytesOf rds) rd.bytes.length rd.bytes r le_rfl
      fun h0 => absurd h0 rd.ne_nil
    have hb : bytesOf (rd :: rds) = rd.bytes ++ bytesOf rds := rfl
    rw [hb, serveReads_cons, LinesWhole]
    refine ⟨h1.trans h3.symm, ?_⟩
    rcases h4 with ⟨hs, e, h5, h6⟩ | ⟨hs, h6⟩
    · dsimp only
      rw [h5, h6]
      exact iff_of_false (not_same_of_split _ _ _) fun h0 => h0.1 hs
    · dsimp only
      rw [h6, same_append_left, h2]
      exact (and_iff_right hs).symm

def lineServer : Server Unit where
  linemode _ := true
  hisBinary _ := false
  hisEor _ := false
  ttyIscrnl _ := true
  handle _ s := (s, [])

/-- **A line that is split**: the two bytes `CR LF` in one read put a line feed on the pty, in two
reads a carriage return. -/
theorem return_cut_off :
    let r : Rcv Unit := ⟨.DATA, [], ()⟩
    let rds : List Read := [⟨[CR], by decide, []⟩, ⟨[LF], by decide, []⟩]
    ptyBytes (serveReads lineServer r rds).2 = [CR] ∧
      ptyBytes (serveStream lineServer r (bytesOf rds)).2 = [LF] ∧
      ¬ Same (serveReads lineServer r rds).2 (serveStream lineServer r (bytesOf rds)).2 := by
  refine ⟨rfl, rfl, fun h => ?_⟩
  exact absurd h.1 (by decide)

end Inetutils.Telnetd.Segments
