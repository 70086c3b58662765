import Inetutils.Ftpd.Input

/-! # Urgent data in ftpd

SIGURG may come at any moment of a transfer. `myoob` of `src/ftpd.c` then reads a line into
`tmpline`, which has seven bytes; ABOR and STAT are carried out at once, and the next call of
`telnet_fgets` begins with what is left in `tmpline`. The state also holds the lines that were acted
on, in their order, and whether a buffer was overrun. -/

namespace Inetutils.Ftpd.Urgent

open Lib.Pieces Lib.Runs Input List
open Dataconn (Text upper)

/-! ### The state -/

structure State where
  tmpline : Text
  input : Text
  transflag : Bool
  exited : Bool
  sent : Text
  replies : List ℕ
  acted : List Text
  overrun : Bool
  deriving DecidableEq

def start (input : Text) : State := ⟨[], input, false, false, [], [], [], false⟩

/-- The call of `telnet_fgets` has returned, with a buffer of `size` bytes. -/
def State.read (s : State) (size : ℕ) (r : Fgets) (tmpline : Text) : State :=
  { s with
    tmpline := tmpline
    input := r.input
    sent := s.sent ++ r.sent
    overrun := s.overrun || decide (size < r.stored.length + 1) }

def State.act (s : State) (line : Text) : State := { s with acted := s.acted ++ [line] }

def State.reply (s : State) (code : ℕ) : State := { s with replies := s.replies ++ [code] }

/-- `dologout`: "You could at least say goodbye." -/
def State.goodbye (s : State) : State := { s.reply 221 with exited := true }

/-! ### The code -/

def abor : Text := [65, 66, 79, 82, 13, 10]

def stat : Text := [83, 84, 65, 84, 13, 10]

/-- The string in `tmpline` after the call in `myoob` and `upper`. The call copies `tmpline` to
itself, and what was saved there has lost its first byte. -/
def urgentLine (r : Fgets) : Text := if r.copied then [] else (cstring r.stored).map upper

/-- `longjmp (urgcatch, 1)` ends the transfer. -/
def State.abort (s : State) : State :=
  { (s.reply 426).reply 226 with tmpline := [], transflag := false }

def State.urgent (s : State) (r : Fgets) : State :=
  if r.stored = [] then (s.read 7 r s.tmpline).goodbye
  else if urgentLine r = abor then ((s.read 7 r (urgentLine r)).act r.stored).abort
  else if urgentLine r = stat then ((s.read 7 r (urgentLine r)).act r.stored).reply 213
  else s.read 7 r (urgentLine r)

def myoob (s : State) : State :=
  if s.transflag then s.urgent (telnetFgets 7 s.tmpline s.input) else s

def State.next (s : State) (r : Fgets) : State :=
  if r.stored = [] then (s.read 512 r s.tmpline).goodbye
  else (s.read 512 r (if r.copied then [] else s.tmpline)).act r.stored

/-- The scanner reads the next command, when no transfer is going on. -/
def yylex (s : State) : State :=
  if s.transflag then s else s.next (telnetFgets 511 s.tmpline s.input)

inductive Event
  | command
  | transfer (on : Bool)
  | urgent
  deriving DecidableEq

def step (s : State) (e : Event) : State :=
  if s.exited then s
  else match e with
    | .command => yylex s
    | .transfer on => { s with transflag := on }
    | .urgent => myoob s

/-! ### Every line once -/

def lines (l : Text) : List Text := pieces 10 511 511 l

/-- What was acted on, and what the scanner would read next without an interruption, are the lines
that were sent; and no buffer was overrun. -/
def Once (input : Text) (s : State) : Prop :=
  s.overrun = false ∧ s.acted ++ lines (s.tmpline ++ strip s.input) = lines (strip input)

def urgentPiece (s : State) : Text := (piece 10 7 (strip s.input)).1

/-- Nothing is saved, and the line is an ABOR in any case of letters, or a short one other than
STAT, with no NUL and no small letter. -/
def Fits (s : State) : Prop :=
  s.tmpline = [] ∧
    ((urgentPiece s).map upper = abor ∨
      (urgentPiece s).length ≤ 6 ∧ 0 ∉ urgentPiece s ∧ (urgentPiece s).map upper = urgentPiece s ∧
        urgentPiece s ≠ stat)

def Harmless (s : State) : Event → Prop
  | .urgent => s.exited = false → s.transflag = true → Fits s
  | _ => True

/-! ### What is saved -/

theorem saved_nil : Saved [] := ⟨Nat.zero_le 7, [], not_mem_nil, .inl rfl⟩

theorem saved_urgentLine (s : State) : Saved (urgentLine (telnetFgets 7 s.tmpline s.input)) := by
  unfold urgentLine
  split
  · exact saved_nil
  next hcopied =>
    have hnil : s.tmpline = [] := by
      by_contra hne
      exact hcopied (copied_of_ne_nil (by decide) hne s.input).1
    rw [hnil, telnetFgets_nil]
    have hpiece : (piece 10 7 (strip s.input)).1 = (readLine 7 s.input).line :=
      congrArg Prod.fst (readLine_eq 7 s.input)
    have hlf : LfLast (readLine 7 s.input).line := by
      rw [← hpiece]
      exact fun p q => piece_delim 10 7 _
    have hlen : (readLine 7 s.input).line.length ≤ 7 := by
      rw [← hpiece]
      exact length_piece_le 10 (by decide) _
    refine hlf.cstring.upper.saved ?_
    rw [length_map]
    exact (length_cstring_le _).trans hlen

variable {s : State} {input : Text}

theorem saved_step (h : Saved s.tmpline) (e : Event) : Saved (step s e).tmpline := by
  unfold step
  split
  · exact h
  · rcases e with - | on | -
    · show Saved (yylex s).tmpline
      unfold yylex State.next
      split
      · exact h
      · split
        · exact h
        · show Saved (if _ then _ else _)
          split
          · exact saved_nil
          · exact h
    · exact h
    · show Saved (myoob s).tmpline
      unfold myoob State.urgent
      split
      · split
        · exact h
        · split
          · exact saved_nil
          · split
            · exact saved_urgentLine s
            · exact saved_urgentLine s
      · exact h

/-! ### An urgent line -/

theorem Once.flatten (h : Once input s) :
    s.acted.flatten ++ (s.tmpline ++ strip s.input) = strip input := by
  have hflat := congrArg List.flatten h.2
  unfold lines at hflat
  rwa [flatten_append, flatten_pieces, flatten_pieces] at hflat

theorem urgent_read (h : s.tmpline = []) : ∃ rest sent,
    telnetFgets 7 s.tmpline s.input = ⟨urgentPiece s, false, rest, sent⟩ ∧
      strip s.input = urgentPiece s ++ strip rest ∧
      (urgentPiece s ≠ [] → (urgentPiece s).length ≤ 6 →
        lines (strip s.input) = urgentPiece s :: lines (strip rest)) := by
  have hread := readLine_eq 7 s.input
  refine ⟨(readLine 7 s.input).rest, (readLine 7 s.input).sent, ?_, ?_, fun hne hlen => ?_⟩
  · rw [h, telnetFgets_nil]
    unfold urgentPiece
    rw [hread]
  · have happ := piece_append 10 7 (strip s.input)
    rw [hread] at happ
    unfold urgentPiece
    rw [hread]
    exact happ.symm
  · have hstrip : strip s.input ≠ [] := fun hnil => hne ((piece_eq_nil_iff 10 7 _).2 hnil)
    unfold lines
    rw [pieces_eq 10 511 511 hstrip, piece_mono 10 (by decide) (Nat.lt_succ_of_le hlen), hread]
    unfold urgentPiece
    rw [hread]

theorem eq_of_length_upper {l : Text} (h : ((cstring l).map upper).length = l.length) :
    cstring l = l := by
  rw [length_map] at h
  exact (List.takeWhile_prefix _).eq_of_length h

theorem not_mem_of_abor {l : Text} (h : l.map upper = abor) : 0 ∉ l := by
  intro hmem
  have hup := mem_map_of_mem (f := upper) hmem
  rw [h] at hup
  exact absurd hup (by decide)

theorem once_of_fits (h : Once input s) (hfits : Fits s) :
    Once input (s.urgent (telnetFgets 7 s.tmpline s.input)) := by
  obtain ⟨hnil, hfits⟩ := hfits
  obtain ⟨rest, sent, hr, happ, hlines⟩ := urgent_read hnil
  obtain ⟨hover, hacted⟩ := h
  rw [hnil, nil_append] at hacted
  have hnul : 0 ∉ urgentPiece s := by
    rcases hfits with hab | ⟨-, hnul, -⟩
    · exact not_mem_of_abor hab
    · exact hnul
  have hlen : (urgentPiece s).length ≤ 6 := by
    rcases hfits with hab | ⟨hlen, -⟩
    · rw [← length_map upper, hab]
      exact Nat.le_refl 6
    · exact hlen
  have hover' : (s.overrun || decide (7 < (urgentPiece s).length + 1)) = false := by
    rw [hover, decide_eq_false (by omega)]
    rfl
  have hline : urgentLine ⟨urgentPiece s, false, rest, sent⟩ = (urgentPiece s).map upper :=
    congrArg (List.map upper) ((cstring_eq_iff _).2 hnul)
  rw [hr]
  unfold State.urgent
  rw [hline]
  by_cases hemp : urgentPiece s = []
  · rw [if_pos hemp]
    refine ⟨hover', ?_⟩
    show s.acted ++ lines (s.tmpline ++ strip rest) = _
    rw [hemp, nil_append] at happ
    rw [hnil, nil_append, ← happ, hacted]
  · rw [if_neg hemp]
    rw [hlines hemp hlen] at hacted
    by_cases hab : (urgentPiece s).map upper = abor
    · rw [if_pos hab]
      refine ⟨hover', ?_⟩
      show s.acted ++ [urgentPiece s] ++ lines (strip rest) = _
      rw [append_assoc, singleton_append, hacted]
    · obtain ⟨-, -, hup, hstat⟩ := hfits.resolve_left hab
      rw [if_neg hab, hup, if_neg hstat]
      refine ⟨hover', ?_⟩
      show s.acted ++ lines (urgentPiece s ++ strip rest) = _
      rw [← happ, hlines hemp hlen, hacted]

theorem fits_of_once (h : Once input s)
    (h' : Once input (s.urgent (telnetFgets 7 s.tmpline s.input))) : Fits s := by
  have hflat := h.flatten
  have hflat' := h'.flatten
  have hover := h'.1
  rw [← hflat] at hflat'
  by_cases hnil : s.tmpline = []
  · refine ⟨hnil, ?_⟩
    obtain ⟨rest, sent, hr, happ, -⟩ := urgent_read hnil
    have hbase :
        s.tmpline ++ strip s.input = urgentPiece s ++ strip rest := by rw [hnil, happ, nil_append]
    rw [hr] at hover hflat'
    rw [hbase] at hflat'
    unfold State.urgent at hover hflat'
    by_cases hemp : urgentPiece s = []
    · rw [hemp]
      exact .inr (by decide)
    · rw [if_neg hemp] at hover hflat'
      have hline :
          urgentLine ⟨urgentPiece s, false, rest, sent⟩ = (cstring (urgentPiece s)).map upper := rfl
      rw [hline] at hover hflat'
      have hroom : (urgentPiece s).length ≤ 6 := by
        have hread : (s.overrun || decide (7 < (urgentPiece s).length + 1)) = false := by
          split at hover
          · exact hover
          · split at hover
            · exact hover
            · exact hover
        have hfull := of_decide_eq_false (Bool.or_eq_false_iff.1 hread).2
        omega
      by_cases hab : (cstring (urgentPiece s)).map upper = abor
      · have hlen := length_cstring_le (urgentPiece s)
        have habor := congrArg List.length hab
        have hall : cstring (urgentPiece s) = urgentPiece s := by
          refine eq_of_length_upper ?_
          rw [length_map] at habor ⊢
          have hsix : abor.length = 6 := rfl
          omega
        rw [hall] at hab
        exact .inl hab
      · rw [if_neg hab] at hflat'
        by_cases hst : (cstring (urgentPiece s)).map upper = stat
        · rw [if_pos hst] at hflat'
          have htwice : (s.acted ++ [urgentPiece s]).flatten ++
              ((cstring (urgentPiece s)).map upper ++ strip rest) =
                s.acted.flatten ++ (urgentPiece s ++ strip rest) := hflat'
          have hlen := congrArg List.length htwice
          rw [hst, flatten_append, flatten_singleton, append_assoc, length_append,
            length_append, length_append, length_append, length_append] at hlen
          have hsix : stat.length = 6 := rfl
          omega
        · rw [if_neg hst] at hflat'
          have hsame :
              (cstring (urgentPiece s)).map upper ++ strip rest = urgentPiece s ++ strip rest :=
            append_cancel_left hflat'
          have hup := append_cancel_right hsame
          have hall := eq_of_length_upper (congrArg List.length hup)
          rw [hall] at hup
          refine .inr ⟨hroom, (cstring_eq_iff _).1 hall, hup, fun hpiece => hst ?_⟩
          rw [hall, hup, hpiece]
  · obtain ⟨hcopied, hstored⟩ := copied_of_ne_nil (by decide : 1 < 7) hnil s.input
    have hle := length_input_le 7 s.tmpline s.input
    have hline : urgentLine (telnetFgets 7 s.tmpline s.input) = [] := if_pos hcopied
    unfold State.urgent at hflat'
    rw [if_neg hstored, hline, if_neg (by decide), if_neg (by decide)] at hflat'
    have hsame : strip (telnetFgets 7 s.tmpline s.input).input = s.tmpline ++ strip s.input :=
      append_cancel_left hflat'
    have hlen := congrArg List.length hsame
    rw [length_append] at hlen
    have hpos := length_pos_iff.2 hnil
    omega

/-! ### A line that is read -/

theorem once_command (h : Once input s) (hs : Saved s.tmpline) :
    Once input (s.next (telnetFgets 511 s.tmpline s.input)) := by
  obtain ⟨hover, hacted⟩ := h
  have hpiece := telnetFgets_eq hs (by decide : 7 < 511) s.input
  have happ := piece_append 10 511 (s.tmpline ++ strip s.input)
  have hfirst := congrArg Prod.fst hpiece
  have hle := length_piece_le 10 (by decide : 0 < 511) (s.tmpline ++ strip s.input)
  rw [hpiece] at happ
  rw [hfirst] at hle
  have hover' : (s.overrun ||
      decide (512 < (telnetFgets 511 s.tmpline s.input).stored.length + 1)) = false := by
    rw [hover, decide_eq_false (Nat.not_lt.2 (Nat.succ_le_succ hle))]
    rfl
  unfold State.next
  by_cases hemp : (telnetFgets 511 s.tmpline s.input).stored = []
  · rw [if_pos hemp]
    refine ⟨hover', ?_⟩
    have hnone : s.tmpline ++ strip s.input = [] :=
      (piece_eq_nil_iff 10 511 _).1 (hfirst.trans hemp)
    rw [hnone] at hacted happ
    have hrest : strip (telnetFgets 511 s.tmpline s.input).input = [] :=
      (append_eq_nil_iff.1 happ).2
    show s.acted ++ lines (s.tmpline ++ strip (telnetFgets 511 s.tmpline s.input).input) = _
    rw [hrest, (append_eq_nil_iff.1 hnone).1]
    exact hacted
  · rw [if_neg hemp]
    refine ⟨hover', ?_⟩
    have hne : s.tmpline ++ strip s.input ≠ [] := fun hnil =>
      hemp (hfirst.symm.trans ((piece_eq_nil_iff 10 511 _).2 hnil))
    have hempty : (if (telnetFgets 511 s.tmpline s.input).copied then [] else s.tmpline) = [] := by
      split
      · rfl
      next hcopied =>
        by_contra hsaved
        exact hcopied (copied_of_ne_nil (by decide) hsaved s.input).1
    show s.acted ++ [(telnetFgets 511 s.tmpline s.input).stored] ++
      lines ((if (telnetFgets 511 s.tmpline s.input).copied then [] else s.tmpline) ++
        strip (telnetFgets 511 s.tmpline s.input).input) = _
    unfold lines at hacted ⊢
    rw [pieces_eq 10 511 511 hne, hpiece] at hacted
    rw [hempty, append_assoc, singleton_append, nil_append, hacted]

/-- **One step.** A line is lost, changed or repeated just by urgent data that does not fit. -/
theorem once_step_iff (h : Once input s) (hs : Saved s.tmpline) (e : Event) :
    Once input (step s e) ↔ Harmless s e := by
  unfold step
  by_cases hexit : s.exited = true
  · rw [if_pos hexit]
    refine iff_of_true h ?_
    rcases e with - | on | -
    · trivial
    · trivial
    · exact fun hlive => absurd hexit (hlive ▸ Bool.false_ne_true)
  · rw [if_neg hexit]
    rcases e with - | on | -
    · refine iff_of_true ?_ trivial
      show Once input (yylex s)
      unfold yylex
      split
      · exact h
      · exact once_command h hs
    · exact iff_of_true h trivial
    · show Once input (myoob s) ↔ (s.exited = false → s.transflag = true → Fits s)
      unfold myoob
      split
      next htrans =>
        exact ⟨fun h' _ _ => fits_of_once h h',
          fun hfits => once_of_fits h (hfits (Bool.eq_false_iff.2 hexit) htrans)⟩
      next htrans => exact iff_of_true h fun _ hon => absurd hon htrans

/-! ### Every run -/

/-- **Every line is acted on once** in every state of a run just when each line that is read
urgently in it fits. -/
theorem every_line_once (input : Text) (l : List Event) :
    (∀ l', l' <+: l → Once input (run step (start input) l')) ↔
    Allowed step Harmless (start input) l :=
  inv_iff_allowed (J := fun s : State => Saved s.tmpline) (fun _ e h hs => once_step_iff h hs e)
    (fun _ e hs => saved_step hs e) ⟨rfl, rfl⟩ saved_nil

/-- A STAT that comes in a transfer is answered at once, and again as a command. -/
theorem stat_acted_twice :
    ¬ ∀ (input : Text) (l : List Event), Once input (run step (start input) l) := by
  intro h
  have htwice := h (82 :: 69 :: 84 :: 82 :: 32 :: 102 :: 13 :: 10 :: stat)
    [.command, .transfer true, .urgent, .transfer false, .command]
  revert htwice
  unfold Once
  decide

end Inetutils.Ftpd.Urgent
