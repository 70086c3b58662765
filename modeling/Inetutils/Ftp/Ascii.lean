import Inetutils.Ftpd.Retr

/-! # ASCII transfers between ftp and ftpd

The loops for `TYPE_A` of `sendrequest` and `recvrequest` of `src/ftp.c`, and of `receive_data` of
`src/ftpd.c`; the one of `send_data` is with RETR. Every write is taken to succeed, and the hash
marks are left out. -/

namespace Inetutils.Ftp.Ascii

open List
open Ftpd.Retr (Text Env putLines sendData)

/-! ### The loops -/

/-- The loop of the client that sends. A CR is not padded. -/
def sendrequest (fin : Text) : Text := putLines fin

/-- The loops that receive: what they write, and how many linefeeds come without a CR. The first
argument after `tcrflag` says whether the last byte was a CR, which is not written yet. -/
def getLines (tcrflag : Bool) : Bool → Text → Text × ℕ
  | false, [] => ([], 0)
  | true, [] => ([13], 0)
  | false, c :: l =>
    if c = 13 then getLines tcrflag true l
    else (getLines tcrflag false l).map (c :: ·) (· + if c = 10 then 1 else 0)
  | true, c :: l =>
    if c = 10 ∧ ¬ tcrflag then (getLines tcrflag false l).map (c :: ·) id
    else if c = 0 then (getLines tcrflag false l).map (13 :: ·) id
    else if c = 13 then (getLines tcrflag true l).map (13 :: ·) id
    else (getLines tcrflag false l).map (13 :: c :: ·) id

def receiveData (instr : Text) : Text × ℕ := getLines false false instr

/-- The loop of the client: `crflag` says whether a CR is stripped, of what RETR sends. -/
def recvrequest (crflag isRetr : Bool) (din : Text) : Text × ℕ :=
  getLines (!crflag && isRetr) false din

/-! ### What arrives -/

def dropNuls : Bool → Text → Text
  | _, [] => []
  | cr, c :: l => if cr ∧ c = 0 then dropNuls false l else c :: dropNuls (c = 13) l

theorem getLines_putLines (l : Text) :
    getLines false false (putLines l) = (dropNuls false l, 0) ∧
      getLines false true (putLines l) = (13 :: dropNuls true l, 0) := by
  induction l with
  | nil => exact ⟨rfl, rfl⟩
  | cons c l ih =>
    obtain ⟨hplain, hcr⟩ := ih
    by_cases hlf : c = 10
    · subst hlf
      have hput : putLines (10 :: l) = 13 :: 10 :: putLines l := rfl
      have hstep : getLines false true (10 :: putLines l) = (10 :: dropNuls false l, 0) := by
        rw [getLines, if_pos (by decide), hplain]
        rfl
      rw [hput]
      constructor
      · rw [getLines, if_pos rfl, hstep]
        rfl
      · rw [getLines, if_neg (by decide), if_neg (by decide), if_pos rfl, hstep]
        rfl
    · have hput : putLines (c :: l) = c :: putLines l := if_neg hlf
      rw [hput]
      by_cases hc : c = 13
      · subst hc
        constructor
        · rw [getLines, if_pos rfl, hcr]
          rfl
        · rw [getLines, if_neg (by decide), if_neg (by decide), if_pos rfl, hcr]
          rfl
      · have hcr' : decide (c = 13) = false := decide_eq_false hc
        constructor
        · have hkept : dropNuls false (c :: l) = c :: dropNuls false l := by
            rw [dropNuls, if_neg (fun h => Bool.false_ne_true h.1), hcr']
          rw [getLines, if_neg hc, hplain, hkept, if_neg hlf]
          rfl
        · by_cases hnul : c = 0
          · subst hnul
            rw [getLines, if_neg (fun h => hlf h.1), if_pos rfl, hplain]
            rfl
          · have hkept : dropNuls true (c :: l) = c :: dropNuls false l := by
              rw [dropNuls, if_neg (fun h => hnul h.2), hcr']
            rw [getLines, if_neg (fun h => hlf h.1), if_neg hnul, if_neg hc, hplain, hkept]
            rfl

theorem length_dropNuls_le (cr : Bool) (l : Text) : (dropNuls cr l).length ≤ l.length := by
  induction l generalizing cr with
  | nil => exact Nat.le_refl 0
  | cons c l ih =>
    rw [dropNuls]
    split
    · exact Nat.le_succ_of_le (ih false)
    · exact Nat.succ_le_succ (ih _)

theorem dropNuls_eq_iff (cr : Bool) (l : Text) :
    dropNuls cr l = l ↔ ¬ (cr = true ∧ [0] <+: l) ∧ ¬ [13, 0] <:+: l := by
  induction l generalizing cr with
  | nil => exact ⟨fun _ => ⟨fun h => by simp at h, fun h => by simp at h⟩, fun _ => rfl⟩
  | cons c l ih =>
    have hinfix : [13, 0] <:+: c :: l ↔ 13 = c ∧ [0] <+: l ∨ [13, 0] <:+: l := by
      rw [infix_cons_iff, cons_prefix_cons]
    have hprefix : [0] <+: c :: l ↔ 0 = c := by
      rw [cons_prefix_cons]
      exact ⟨fun h => h.1, fun h => ⟨h, List.nil_prefix⟩⟩
    rw [dropNuls]
    split
    next hdrop =>
      obtain ⟨hcr, hc⟩ := hdrop
      constructor
      · intro h
        have hlen := congrArg List.length h
        have hle := length_dropNuls_le false l
        rw [length_cons] at hlen
        omega
      · rintro ⟨h, -⟩
        exact absurd ⟨hcr, hprefix.mpr hc.symm⟩ h
    next hkeep =>
      rw [cons_eq_cons, ih, hinfix, hprefix, decide_eq_true_eq]
      constructor
      · rintro ⟨-, hnul, hrest⟩
        refine ⟨fun h => hkeep ⟨h.1, h.2.symm⟩, ?_⟩
        rintro (⟨hc, hl⟩ | h)
        · exact hnul ⟨hc.symm, hl⟩
        · exact hrest h
      · rintro ⟨-, h⟩
        exact ⟨rfl, fun hl => h (.inl ⟨hl.1.symm, hl.2⟩), fun hl => h (.inr hl)⟩

/-! ### The result -/

def upload (file : Text) : Text := (receiveData (sendrequest file)).1

/-- What the client has after a download, whether the server maps the file or not. -/
def download (env : Env) (crflag : Bool) (file : Text) : Text :=
    (recvrequest crflag true (sendData env .A file 0 0 0)).1

theorem sendData_lines (env : Env) (file : Text) : sendData env .A file 0 0 0 = putLines file := by
  rw [sendData, drop_zero, ite_self]

/-- **ASCII transfers.** An upload and a download drop the NULs that come right after a CR and keep
everything else, so that a file arrives as it was just when there are none. -/
theorem ascii_transfer (env : Env) (file : Text) :
    upload file = dropNuls false file ∧ download env true file = dropNuls false file ∧
      (dropNuls false file = file ↔ ¬ [13, 0] <:+: file) := by
  obtain ⟨hlines, -⟩ := getLines_putLines file
  refine ⟨congrArg Prod.fst hlines, ?_, ?_⟩
  · rw [download, sendData_lines]
    exact congrArg Prod.fst hlines
  · rw [dropNuls_eq_iff]
    exact ⟨fun h => h.2, fun h => ⟨fun hcr => Bool.false_ne_true hcr.1, h⟩⟩

/-- A CR and a NUL arrive as a CR. -/
theorem cr_nul_is_cr :
    ¬ ∀ (env : Env) (file : Text), upload file = file ∧ download env true file = file := by
  intro h
  exact absurd (h Inetutils.Ftpd.Retr.paged [13, 0]).1 (by decide)

end Inetutils.Ftp.Ascii
