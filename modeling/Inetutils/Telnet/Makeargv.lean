import Inetutils.Lib.Cells
import Inetutils.Lib.Pieces
import Inetutils.Lib.Quoting
import Mathlib.Data.UInt

/-! # Command lines

`command` of `src/telnet/commands.c` takes a line from its caller, or from the standard input, and
`makeargv` cuts it into words, whose texts it writes over the line. The locale is `C`. Writing
behind the end of an array has no result. -/

namespace Inetutils.Telnet.Makeargv

open Lib.Cells Lib.Pieces Lib.Quoting List Option

abbrev Byte := UInt8

abbrev Text := List Byte

def isspace (c : Byte) : Bool := c = 32 || 9 ≤ c && c ≤ 13

/-! ### The arguments -/

/-- The constant `"!"`, or a place of `line`. -/
inductive Ptr
  | shell
  | line (i : ℕ)

structure Globals where
  line : Block Byte
  saveline : Block Byte
  margv : Block (Option Ptr)
  margc : ℕ

/-- `while (isspace (c)) c = *++cp;` with `n` places from `cp` on; where it is then, and what is
there. -/
def spaces (line : Block Byte) : ℕ → ℕ → Option (ℕ × Byte)
  | 0, _ => none
  | n + 1, cp => (fetch line cp).bind fun c =>
    if isspace c then spaces line n (cp + 1) else some (cp, c)

/-- The loop over the characters of a word: `cp2`, `cp` and `c` at its end. -/
def wordLoop : ℕ → Block Byte → ℕ → ℕ → Option Byte → Option (Block Byte × ℕ × ℕ × Byte)
  | 0, _, _, _, _ => none
  | n + 1, line, cp2, cp, inquote =>
    (fetch line cp).bind fun c =>
      if c = 0 then some (line, cp2, cp, c)
      else
        match inquote with
        | some q =>
          if c = q then wordLoop n line cp2 (cp + 1) none
          else (write line cp2 c).bind fun line => wordLoop n line (cp2 + 1) (cp + 1) (some q)
        | none =>
          if c = 92 then
            match n with
            | 0 => none
            | n + 1 =>
              (fetch line (cp + 1)).bind fun c =>
                if c = 0 then some (line, cp2, cp + 1, c)
                else (write line cp2 c).bind fun line => wordLoop n line (cp2 + 1) (cp + 2) none
          else if c = 34 then wordLoop n line cp2 (cp + 1) (some 34)
          else if c = 39 then wordLoop n line cp2 (cp + 1) (some 39)
          else if isspace c then some (line, cp2, cp, c)
          else (write line cp2 c).bind fun line => wordLoop n line (cp2 + 1) (cp + 1) none

theorem wordLoop_end {n cp : ℕ} {line : Block Byte} (h : fetch line cp = some 0) (cp2 : ℕ)
    (q : Option Byte) :
    wordLoop (n + 1) line cp2 cp q = some (line, cp2, cp, 0) := by
  rw [wordLoop.eq_def]
  dsimp only
  rw [h]
  rfl

/-- `*argp++ = 0` -/
def Globals.finish (g : Globals) : Option Globals := (write g.margv g.margc none).map fun margv =>
    { g with margv := margv }

/-- A word, from `cp` on. -/
def Globals.word (g : Globals) (cp : ℕ) : Option (Globals × ℕ × Byte) :=
  (write g.margv g.margc (some (.line cp))).bind fun margv =>
    (wordLoop (g.line.length - cp) g.line cp cp none).bind fun (line, cp2, cp, c) =>
      (write line cp2 0).map fun line =>
        ({ g with line := line, margv := margv, margc := g.margc + 1 }, cp, c)

/-- `while ((c = *cp))`; every turn takes a character. -/
def argsLoop : ℕ → Globals → ℕ → Option Globals
  | 0, _, _ => none
  | n + 1, g, cp =>
    (fetch g.line cp).bind fun c =>
      if c = 0 then g.finish
      else
        (spaces g.line (g.line.length - cp) cp).bind fun (cp, c) =>
          if c = 0 then g.finish
          else (g.word cp).bind fun (g, cp, c) => if c = 0 then g.finish else argsLoop n g (cp + 1)

/-- **`makeargv`** -/
def makeargv (g : Globals) : Option Globals :=
  (fetch g.line 0).bind fun c =>
    if c = 33 then
      (string 0 g.line).bind fun s =>
        (fill g.saveline 0 (s ++ [0])).bind fun saveline =>
          (write g.margv 0 (some .shell)).bind fun margv =>
            argsLoop g.line.length { g with saveline := saveline, margv := margv, margc := 1 } 1
    else argsLoop g.line.length { g with margc := 0 } 0

/-! ### A line arrives -/

/-- `while (cnt > 0 && (*cp++ = *tbuf++) != '\n')`, over the `cnt` bytes. -/
def copyLoop : Text → Block Byte → ℕ → Option (Block Byte × ℕ)
  | [], line, cp => some (line, cp)
  | c :: tbuf, line, cp =>
    (write line cp c).bind fun line =>
      if c = 10 then some (line, cp + 1) else copyLoop tbuf line (cp + 1)

/-- `fgets` gives nothing at the end of the input. -/
def fgets (stdin : Text) (line : Block Byte) : Option (Bool × Block Byte × Text) :=
  if stdin = [] then some (false, line, [])
  else (fill line 0 ((piece 10 255 stdin).1 ++ [0])).map fun line =>
    (true, line, (piece 10 255 stdin).2)

/-- Whether there is a line, and what is left of the input. -/
def arrive (tbuf : Option Text) (stdin : Text) (line : Block Byte) :
    Option (Bool × Block Byte × Text) :=
  match tbuf with
  | none => fgets stdin line
  | some tbuf =>
    (copyLoop tbuf line 0).bind fun (line, cp) =>
      if cp = 0 then fgets stdin line
      else
        (fetch line (cp - 1)).bind fun c =>
          if c ≠ 10 ∨ cp - 1 = 0 then fgets stdin line
          else (write line (cp - 1) 0).map fun line => (true, line, stdin)

inductive Outcome
  | quit
  | nothing
  | args
  deriving DecidableEq

/-- **`command`**, up to the arguments of a command. -/
def command (tbuf : Option Text) (stdin : Text) (g : Globals) : Option (Outcome × Globals × Text) :=
  (arrive tbuf stdin g.line).bind fun (got, line, rest) =>
    let g := { g with line := line }
    if got then
      (fetch line 0).bind fun c =>
        if c = 0 then some (.nothing, g, rest) else (makeargv g).map fun g => (.args, g, rest)
    else some (.quit, g, rest)

/-! ### What is to hold -/

def quotes : Quotes Byte := ⟨isspace, fun c => c = 34 || c = 39, fun c => c = 92⟩

def argTexts : Text → List Text
  | [] => []
  | c :: l => if c = 33 then [33] :: words quotes l else words quotes (c :: l)

/-- What is copied of what the caller passes: all up to a newline. -/
def copied (tbuf : Text) : Text := tbuf.take ((tbuf.takeWhile (· ≠ 10)).length + 1)

def passed (tbuf : Text) : Option Text :=
  if 10 ∈ tbuf ∧ tbuf.head? ≠ some 10 then some (tbuf.takeWhile (· ≠ 10)) else none

/-- The next line of the input, as much of it as there is room for. -/
def typed (stdin : Text) : Option Text := if stdin = [] then none else some (piece 10 255 stdin).1

def received (tbuf : Option Text) (stdin : Text) : Option Text :=
  ((tbuf.bind passed).or (typed stdin)).map (·.takeWhile (· ≠ 0))

def pointed (line : Block Byte) : Ptr → Option Text
  | .shell => some [33]
  | .line i => string 0 (line.drop i)

/-- The strings that `margv` points to, up to the NULL. -/
def strings (g : Globals) : Option (List Text) := (untilNull g.margv).bind fun ps =>
    ps.mapM (pointed g.line)

structure Sized (g : Globals) : Prop where
  line : g.line.length = 256
  saveline : g.saveline.length = 256
  margv : g.margv.length = 20

/-- The line is stored within `line`, and its words within `margv`. -/
def Right (tbuf : Option Text) (stdin : Text) (g : Globals) : Prop :=
  ∃ out g' rest, command tbuf stdin g = some (out, g', rest) ∧ Sized g' ∧
    match received tbuf stdin with
    | none => out = .quit
    | some [] => out = .nothing
    | some s => out = .args ∧ strings g' = some (argTexts s) ∧ g'.margc = (argTexts s).length

def Fits (tbuf : Option Text) (stdin : Text) : Prop :=
  (∀ t ∈ tbuf, (copied t).length ≤ 256) ∧ ∀ s ∈ received tbuf stdin, (argTexts s).length < 20

/-! ### A word -/

variable (R : Block Byte) {w : Text × Text} {s : Text}

theorem fetch_append (D : Block Byte) (a : Byte) (R : Block Byte) :
    fetch (D ++ some a :: R) D.length = some a := by
  rw [fetch, getElem?_append_right le_rfl, Nat.sub_self]
  rfl

theorem write_ahead (Q G : Block Byte) (x : Option Byte) (T : Block Byte) (a : Byte) :
    ∃ G' : Block Byte, G'.length = G.length ∧
      write (Q ++ G ++ x :: T) Q.length a = some (Q ++ [some a] ++ G' ++ T) := by
  have hlt : Q.length < (Q ++ G ++ x :: T).length := by
    rw [length_append, length_append, length_cons]
    omega
  rw [write_of_lt hlt, append_assoc, set_append_right _ _ le_rfl, Nat.sub_self]
  rcases G with - | ⟨y, G⟩
  · exact ⟨[], rfl, by simp⟩
  · exact ⟨G ++ [x], by simp, by simp⟩

def mem (s : Text) (R : Block Byte) : Block Byte := s.map some ++ some 0 :: R

section
variable {n : ℕ} {line : Block Byte} {cp : ℕ}

theorem wordLoop_close {q : Byte} (h : fetch line cp = some q) (hq : q ≠ 0) (cp2 : ℕ) :
    wordLoop (n + 1) line cp2 cp (some q) = wordLoop n line cp2 (cp + 1) none := by
  rw [wordLoop.eq_def]
  dsimp only
  rw [h, bind_some, if_neg hq, if_pos rfl]

theorem wordLoop_quoted {q c : Byte} (h : fetch line cp = some c) (hc : c ≠ 0)
    (hne : c ≠ q) (cp2 : ℕ) :
    wordLoop (n + 1) line cp2 cp (some q) =
      (write line cp2 c).bind fun line => wordLoop n line (cp2 + 1) (cp + 1) (some q) := by
  rw [wordLoop.eq_def]
  dsimp only
  rw [h, bind_some, if_neg hc, if_neg hne]

theorem wordLoop_space {c : Byte} (h : fetch line cp = some c) (hc : isspace c) (cp2 : ℕ) :
    wordLoop (n + 1) line cp2 cp none = some (line, cp2, cp, c) := by
  have h0 : c ≠ 0 := by rintro rfl; exact absurd hc (by decide)
  have h92 : c ≠ 92 := by rintro rfl; exact absurd hc (by decide)
  have h34 : c ≠ 34 := by rintro rfl; exact absurd hc (by decide)
  have h39 : c ≠ 39 := by rintro rfl; exact absurd hc (by decide)
  rw [wordLoop.eq_def]
  dsimp only
  rw [h, bind_some, if_neg h0, if_neg h92, if_neg h34, if_neg h39, if_pos hc]

theorem wordLoop_last (h : fetch line cp = some 92) (h' : fetch line (cp + 1) = some 0) (cp2 : ℕ) :
    wordLoop (n + 2) line cp2 cp none = some (line, cp2, cp + 1, 0) := by
  rw [wordLoop.eq_def]
  dsimp only
  rw [h, bind_some, if_neg (by decide), if_pos rfl, h']
  rfl

theorem wordLoop_backslash {d : Byte} (h : fetch line cp = some 92)
    (h' : fetch line (cp + 1) = some d) (hd : d ≠ 0) (cp2 : ℕ) : wordLoop (n + 2) line cp2 cp none =
      (write line cp2 d).bind fun line => wordLoop n line (cp2 + 1) (cp + 2) none := by
  rw [wordLoop.eq_def]
  dsimp only
  rw [h, bind_some, if_neg (by decide), if_pos rfl, h', bind_some, if_neg hd]

theorem wordLoop_open {c : Byte} (h : fetch line cp = some c) (hc : quotes.quote c) (cp2 : ℕ) :
    wordLoop (n + 1) line cp2 cp none = wordLoop n line cp2 (cp + 1) (some c) := by
  have hor : c = 34 ∨ c = 39 := by simpa [quotes] using hc
  rw [wordLoop.eq_def]
  dsimp only
  rw [h, bind_some]
  rcases hor with rfl | rfl <;> rfl

theorem wordLoop_char {c : Byte} (h : fetch line cp = some c) (h0 : c ≠ 0) (hb : ¬ quotes.blank c)
    (he : ¬ quotes.escape c) (hq : ¬ quotes.quote c) (cp2 : ℕ) : wordLoop (n + 1) line cp2 cp none =
      (write line cp2 c).bind fun line => wordLoop n line (cp2 + 1) (cp + 1) none := by
  have h92 : c ≠ 92 := by simpa [quotes] using he
  have hor : c ≠ 34 ∧ c ≠ 39 := by simpa [quotes] using hq
  have hsp : ¬ isspace c := hb
  rw [wordLoop.eq_def]
  dsimp only
  rw [h, bind_some, if_neg h0, if_neg h92, if_neg hor.1, if_neg hor.2, if_neg hsp]

end

theorem mem_cons (D : Block Byte) (c : Byte) (l : Text) (R : Block Byte) :
    D ++ mem (c :: l) R = D ++ [some c] ++ mem l R := by
  rw [append_assoc]
  rfl

theorem fetch_mem (D : Block Byte) (c : Byte) (l : Text) (R : Block Byte) :
    fetch (D ++ mem (c :: l) R) D.length = some c :=
  fetch_append D c _

theorem fetch_mem_nil (D R : Block Byte) : fetch (D ++ mem [] R) D.length = some 0 :=
  fetch_append D 0 R

theorem fetch_next (D : Block Byte) (c : Byte) (l : Text) (R : Block Byte) :
    fetch (D ++ mem (c :: l) R) (D.length + 1) = some (l.headD 0) := by
  rw [mem_cons]
  have hlen : D.length + 1 = (D ++ [some c]).length := by rw [length_append]; rfl
  rw [hlen]
  rcases l with - | ⟨d, l⟩
  · exact fetch_mem_nil _ R
  · exact fetch_mem _ d l R

/-- The text is written from `Q` on, up to what is behind the word; the word ends at the place
`e`. -/
structure Stored (r : Option (Block Byte × ℕ × ℕ × Byte)) (Q R : Block Byte) (e : ℕ)
    (w : Text × Text) : Prop where
  eq : ∃ G : Block Byte, (Q ++ w.1.map some ++ G).length + w.2.length = e ∧
    r = some (Q ++ w.1.map some ++ G ++ mem w.2 R, (Q ++ w.1.map some).length,
      (Q ++ w.1.map some ++ G).length, w.2.headD 0)

theorem Stored.char {r : Option (Block Byte × ℕ × ℕ × Byte)} {Q R : Block Byte} {e : ℕ} {c : Byte}
    (h : Stored r (Q ++ [some c]) R e w) : Stored r Q R e (w.map (c :: ·) id) := by
  obtain ⟨G, hlen, heq⟩ := h.eq
  have hsplit : Q ++ [some c] ++ w.1.map some = Q ++ (c :: w.1).map some := by simp
  rw [hsplit] at hlen heq
  exact ⟨G, hlen, heq⟩

variable {q : Option Byte}

theorem Stored.skip {n : ℕ} {Q G R : Block Byte} {c : Byte} {l : Text}
    (h : ∀ G, Stored (wordLoop n (Q ++ G ++ mem l R) Q.length (Q ++ G).length q) Q R
      ((Q ++ G).length + l.length) w) :
    Stored (wordLoop n (Q ++ G ++ mem (c :: l) R) Q.length ((Q ++ G).length + 1) q) Q R
    ((Q ++ G).length + (c :: l).length) w := by
  have hone := h (G ++ [some c])
  rw [← append_assoc, ← mem_cons, @length_append _ (Q ++ G), length_singleton, add_assoc _ 1,
    add_comm 1] at hone
  exact hone

theorem Stored.store {n k : ℕ} {Q G R : Block Byte} {x : Option Byte} {d : Byte} {l : Text}
    (hk : (Q ++ G).length + 1 = k)
    (h : ∀ G,
      Stored
      (wordLoop n (Q ++ [some d] ++ G ++ mem l R) (Q ++ [some d]).length
        (Q ++ [some d] ++ G).length q)
      (Q ++ [some d]) R ((Q ++ [some d] ++ G).length + l.length) w) :
    Stored ((write (Q ++ G ++ x :: mem l R) Q.length d).bind fun line =>
      wordLoop n line (Q.length + 1) k q) Q R (k + l.length) (w.map (d :: ·) id) := by
  obtain ⟨G', hlen, hwrite⟩ := write_ahead Q G x (mem l R) d
  have hone := h G'
  have hk' : (Q ++ [some d] ++ G').length = k := by
    rw [← hk, length_append, length_append, length_append, length_singleton, hlen]
    omega
  rw [hk', length_append, length_singleton] at hone
  rw [hwrite, bind_some]
  exact hone.char

/-- **The text of a word** is written from `cp2` on. -/
theorem wordLoop_eq {n : ℕ} (hs : (0 : Byte) ∉ s) (hn : s.length < n) (q : Option Byte)
    (Q G R : Block Byte) :
    Stored (wordLoop n (Q ++ G ++ mem s R) Q.length (Q ++ G).length q) Q R
    ((Q ++ G).length + s.length) (scan quotes q s) := by
  fun_induction scan quotes q s generalizing n Q G with
  | case1 q =>
    obtain ⟨n, rfl⟩ : ∃ m, n = m + 1 := ⟨n - 1, by omega⟩
    rw [wordLoop_end (fetch_mem_nil _ _)]
    exact ⟨G, by simp, by simp⟩
  | case2 q l ih =>
    obtain ⟨n, rfl⟩ : ∃ m, n = m + 1 := ⟨n - 1, by omega⟩
    rw [List.mem_cons, not_or] at hs
    rw [List.length_cons] at hn
    rw [wordLoop_close (fetch_mem _ _ _ _) (Ne.symm hs.1)]
    exact Stored.skip fun G => ih hs.2 (by omega) Q G
  | case3 q c l hne ih =>
    obtain ⟨n, rfl⟩ : ∃ m, n = m + 1 := ⟨n - 1, by omega⟩
    rw [List.mem_cons, not_or] at hs
    rw [List.length_cons] at hn
    rw [wordLoop_quoted (fetch_mem _ _ _ _) (Ne.symm hs.1) hne, List.length_cons, add_comm l.length,
      ← add_assoc]
    exact Stored.store rfl fun G => ih hs.2 (by omega) (Q ++ [some c]) G
  | case4 c l hb =>
    obtain ⟨n, rfl⟩ : ∃ m, n = m + 1 := ⟨n - 1, by omega⟩
    rw [wordLoop_space (fetch_mem _ _ _ _) hb]
    exact ⟨G, by simp, by simp⟩
  | case5 c hb he =>
    obtain rfl : c = 92 := of_decide_eq_true he
    obtain ⟨n, rfl⟩ : ∃ m, n = m + 2 := ⟨n - 2, by rw [List.length_singleton] at hn; omega⟩
    rw [wordLoop_last (fetch_mem _ _ _ _) (fetch_next _ _ _ _)]
    exact ⟨G ++ [some 92], by simp; omega, by simp [mem_cons]; omega⟩
  | case6 c hb he d l ih =>
    obtain rfl : c = 92 := of_decide_eq_true he
    obtain ⟨n, rfl⟩ : ∃ m, n = m + 2 := ⟨n - 2, by rw [List.length_cons] at hn; omega⟩
    rw [List.mem_cons, List.mem_cons, not_or, not_or] at hs
    rw [List.length_cons, List.length_cons] at hn
    rw [wordLoop_backslash (d := d) (fetch_mem _ _ _ _) (fetch_next _ _ _ _) (Ne.symm hs.2.1),
      mem_cons, List.append_assoc Q,
      List.length_cons, List.length_cons, add_assoc l.length, add_comm l.length, ← add_assoc]
    exact Stored.store (by rw [← List.append_assoc, @List.length_append _ (Q ++ G)]; rfl) fun G =>
      ih hs.2.2 (by omega) (Q ++ [some d]) G
  | case7 c l hb he hq ih =>
    obtain ⟨n, rfl⟩ : ∃ m, n = m + 1 := ⟨n - 1, by omega⟩
    rw [List.mem_cons, not_or] at hs
    rw [List.length_cons] at hn
    rw [wordLoop_open (fetch_mem _ _ _ _) hq]
    exact Stored.skip fun G => ih hs.2 (by omega) Q G
  | case8 c l hb he hq ih =>
    obtain ⟨n, rfl⟩ : ∃ m, n = m + 1 := ⟨n - 1, by omega⟩
    rw [List.mem_cons, not_or] at hs
    rw [List.length_cons] at hn
    rw [wordLoop_char (fetch_mem _ _ _ _) (Ne.symm hs.1) hb he hq, List.length_cons,
      add_comm l.length, ← add_assoc]
    exact Stored.store rfl fun G => ih hs.2 (by omega) (Q ++ [some c]) G

/-! ### The words -/

theorem spaces_eq {n : ℕ} (hn : s.length < n) (D R : Block Byte) :
    spaces (D ++ mem s R) n D.length =
    some (D.length + (s.takeWhile isspace).length, (s.dropWhile isspace).headD 0) := by
  induction s generalizing n D with
  | nil =>
    obtain ⟨n, rfl⟩ : ∃ m, n = m + 1 := ⟨n - 1, by omega⟩
    rw [spaces, fetch_mem_nil]
    rfl
  | cons c s ih =>
    rw [List.length_cons] at hn
    obtain ⟨n, rfl⟩ : ∃ m, n = m + 1 := ⟨n - 1, by omega⟩
    rw [spaces, fetch_mem, bind_some]
    by_cases hc : isspace c = true
    · have hnext := ih (n := n) (by omega) (D ++ [some c])
      rw [List.length_append, List.length_singleton] at hnext
      rw [if_pos hc, mem_cons, hnext, List.takeWhile_cons_of_pos hc, List.dropWhile_cons_of_pos hc,
        List.length_cons, add_assoc, add_comm 1]
    · rw [if_neg hc, List.takeWhile_cons_of_neg hc, List.dropWhile_cons_of_neg hc]
      rfl

theorem mapM_imp {β γ : Type*} {f g : β → Option γ} (h : ∀ a b, f a = some b → g a = some b)
    {l : List β} {bs : List γ} (hl : l.mapM f = some bs) : l.mapM g = some bs := by
  induction l generalizing bs with
  | nil => exact hl
  | cons a l ih =>
    rw [List.mapM_cons, bind_eq_bind, bind_eq_some_iff] at hl
    obtain ⟨b, hb, hl⟩ := hl
    rw [bind_eq_bind, bind_eq_some_iff] at hl
    obtain ⟨bs', hbs', heq⟩ := hl
    rw [List.mapM_cons, h a b hb, ih hbs']
    exact heq

theorem pointed_append {D : Block Byte} {p : Ptr} {t : Text} (h : pointed D p = some t)
    (X : Block Byte) :
    pointed (D ++ X) p = some t := by
  rcases p with - | i
  · exact h
  · exact string_drop_append h X

/-- Words are cut off: they stand in `D`, and `margv` points to them. -/
structure Cut (g : Globals) (D X : Block Byte) (ps : List Ptr) (ts : List Text) : Prop where
  line : g.line = D ++ X
  margv : ∃ V, g.margv = (ps.map some).map some ++ V
  margc : g.margc = ps.length
  texts : ps.mapM (pointed D) = some ts

def Stores (r : Option Globals) (g : Globals) (ts : List Text) : Prop :=
  if ts.length < g.margv.length then
    ∃ g', r = some g' ∧ strings g' = some ts ∧ g'.margc = ts.length ∧
    g'.line.length = g.line.length ∧
      g'.saveline.length = g.saveline.length ∧ g'.margv.length = g.margv.length
  else r = none

section
variable {g : Globals} {D X Y : Block Byte} {ps : List Ptr} {ts : List Text}

theorem Cut.finish (h : Cut g D X ps ts) : Stores g.finish g ts := by
  obtain ⟨V, hV⟩ := h.margv
  have hlen := (mapM_getElem? h.texts).1
  rw [Stores, hlen, hV, List.length_append, List.length_map, List.length_map, Globals.finish,
    hV, h.margc]
  rcases V with - | ⟨x, V⟩
  · rw [if_neg (by simp), List.append_nil, write_of_ge (by simp)]
    rfl
  · have hwrite := write_append (ps.map some) x V (none : Option Ptr)
    rw [List.length_map] at hwrite
    rw [if_pos (by simp), hwrite]
    refine ⟨_, rfl, ?_, hlen.symm ▸ rfl, rfl, rfl, by simp⟩
    rw [strings, List.map_append, List.append_assoc]
    rw [List.map_singleton, List.singleton_append, untilNull_append, bind_some, h.line]
    exact mapM_imp (fun p t ht => pointed_append ht X) h.texts

theorem mem_append (D : Block Byte) (l m : Text) (R : Block Byte) :
    D ++ mem (l ++ m) R = D ++ l.map some ++ mem m R := by
  rw [mem, map_append, append_assoc, append_assoc]
  rfl

theorem length_mem (s : Text) (R : Block Byte) : (mem s R).length = s.length + (R.length + 1) := by
  rw [mem, length_append, length_map, length_cons]

structure Same (g g' : Globals) : Prop where
  line : g'.line.length = g.line.length
  margv : g'.margv.length = g.margv.length
  saveline : g'.saveline.length = g.saveline.length

theorem Stores.same {r : Option Globals} {g' : Globals} (h : Stores r g' ts) (hs : Same g g') :
    Stores r g ts := by
  rw [Stores, hs.line, hs.margv, hs.saveline] at h
  exact h

/-- **A word is stored**, if there is room for a pointer to it. -/
theorem Cut.word {R : Block Byte} (h : Cut g D (mem s R) ps ts) (hs : (0 : Byte) ∉ s) :
    (g.margv.length ≤ ps.length ∧ g.word D.length = none) ∨
      ∃ g' cp D' X, g.word D.length = some (g', cp, (scan quotes none s).2.headD 0) ∧ Same g g' ∧
        Cut g' D' X (ps ++ [.line D.length]) (ts ++ [(scan quotes none s).1]) ∧
        ((scan quotes none s).2 ≠ [] → D'.length = cp + 1 ∧
          X = mem (scan quotes none s).2.tail R) := by
  obtain ⟨V, hV⟩ := h.margv
  rw [Globals.word, hV, h.margc]
  rcases V with - | ⟨x, V⟩
  · exact .inl ⟨by simp, by rw [append_nil, write_of_ge (by simp)]; rfl⟩
  · right
    have hwrite := write_append (ps.map some) x V (some (Ptr.line D.length))
    rw [length_map] at hwrite
    have hplaces : s.length < g.line.length - D.length := by
      rw [h.line, length_append, Nat.add_sub_cancel_left, length_mem]
      exact Nat.lt_add_of_pos_right (Nat.succ_pos _)
    obtain ⟨G, hend, hword⟩ := (wordLoop_eq hs hplaces none D [] R).eq
    rw [append_nil] at hword hend
    have hw : (0 : Byte) ∉ (scan quotes none s).1 := fun h0 => hs (scan_subset _ _ h0)
    rw [hwrite, bind_some, h.line]
    rw [h.line] at hword
    rw [hword, bind_some]
    generalize (scan quotes none s).1 = w at hw hend
    generalize (scan quotes none s).2 = r at hend
    dsimp only
    -- the NUL behind the word
    obtain ⟨G', Y, hlen, hnul, hY⟩ : ∃ G' Y : Block Byte, G'.length = G.length ∧
        write (D ++ w.map some ++ G ++ mem r R) (D ++ w.map some).length 0 =
          some (D ++ w.map some ++ [some 0] ++ G' ++ Y) ∧ (r ≠ [] → Y = mem r.tail R) := by
      rcases r with - | ⟨b, r⟩
      · obtain ⟨G', hlen, hnul⟩ := write_ahead (D ++ w.map some) G (some 0) R 0
        exact ⟨G', R, hlen, hnul, fun hne => absurd rfl hne⟩
      · obtain ⟨G', hlen, hnul⟩ := write_ahead (D ++ w.map some) G (some b) (mem r R) 0
        exact ⟨G', mem r R, hlen, hnul, fun _ => rfl⟩
    rw [hnul]
    refine ⟨_, _, D ++ w.map some ++ [some 0] ++ G', Y, rfl, ?_, ⟨rfl, ⟨V, ?_⟩, ?_, ?_⟩,
      fun hr => ⟨?_, hY hr⟩⟩
    · refine ⟨?_, ?_, rfl⟩
      · have hline : (D ++ mem s R).length = D.length + (mem s R).length := length_append
        rw [length_of_write hnul, h.line, length_append, hline, length_mem, length_mem]
        omega
      · rw [length_of_write hwrite, hV]
    · simp
    · rw [length_append]
      rfl
    · have hold : ps.mapM (pointed (D ++ w.map some ++ [some 0] ++ G')) = some ts :=
        mapM_imp (fun p t ht => by
        rw [append_assoc, append_assoc]
        exact pointed_append ht _) h.texts
      have hnew : pointed (D ++ w.map some ++ [some 0] ++ G') (.line D.length) = some w := by
        rw [pointed, append_assoc, append_assoc, drop_left]
        exact string_append hw G'
      rw [mapM_append, hold, mapM_cons, hnew]
      rfl
    · rw [length_append, length_append, @length_append _ _ G, hlen]
      simp
      omega

theorem argsLoop_eq {n : ℕ} {s : Text} {R : Block Byte} (hs : (0 : Byte) ∉ s) (hn : s.length < n)
    (h : Cut g D (mem s R) ps ts) : Stores (argsLoop n g D.length) g (ts ++ words quotes s) := by
  induction n generalizing g D R s ps ts with
  | zero => exact absurd hn (Nat.not_lt_zero _)
  | succ n ih =>
    rcases s with - | ⟨c, s⟩
    · rw [argsLoop, h.line, fetch_mem_nil, bind_some, if_pos rfl, words_nil, append_nil]
      exact h.finish
    · have hc : c ≠ 0 := by rintro rfl; exact hs mem_cons_self
      have hplaces : (c :: s).length < g.line.length - D.length := by
        rw [h.line, length_append, Nat.add_sub_cancel_left, length_mem]
        exact Nat.lt_add_of_pos_right (Nat.succ_pos _)
      have hspaces := spaces_eq hplaces D R
      rw [argsLoop, h.line, fetch_mem, bind_some, if_neg hc, ← h.line]
      rw [← h.line] at hspaces
      rw [hspaces, bind_some, ← words_dropWhile]
      -- behind the spaces
      have hsuffix := dropWhile_suffix isspace (l := c :: s)
      have hT : (0 : Byte) ∉ (c :: s).dropWhile isspace := fun h0 => hs (hsuffix.subset h0)
      have hle := hsuffix.length_le
      have hfirst := head?_dropWhile_not isspace (c :: s)
      have hcut : Cut g (D ++ ((c :: s).takeWhile isspace).map some)
        (mem ((c :: s).dropWhile isspace) R) ps ts := by
        refine ⟨?_, h.margv, h.margc, mapM_imp (fun p t ht => pointed_append ht _) h.texts⟩
        rw [h.line, ← mem_append, takeWhile_append_dropWhile]
      have hD : D.length + ((c :: s).takeWhile isspace).length =
        (D ++ ((c :: s).takeWhile isspace).map some).length := by
        rw [length_append, length_map]
      rw [hD]
      change Stores _ g (ts ++ words quotes ((c :: s).dropWhile isspace))
      generalize D ++ ((c :: s).takeWhile isspace).map some = D' at hcut
      generalize (c :: s).dropWhile isspace = T at hfirst hT hle hcut
      rcases T with - | ⟨d, T⟩
      · rw [words_nil, append_nil]
        exact hcut.finish
      · have hd : ¬ quotes.blank d := fun hb => absurd (hfirst.symm.trans hb) Bool.false_ne_true
        have hd0 : d ≠ 0 := by rintro rfl; exact hT mem_cons_self
        dsimp only [headD_cons]
        rw [if_neg hd0, words_scan hd]
        rcases hcut.word hT with ⟨hfull, hnone⟩ | ⟨g', cp, D₁, X, hword, hsame, hcut', hrest⟩
        · rw [hnone, Stores, if_neg]
          · rfl
          · rw [length_append, length_cons, (mapM_getElem? hcut.texts).1]
            omega
        · rw [hword, bind_some]
          have hscan := @scan_rest _ _ quotes none (d :: T)
          have hsub := (@scan_suffix _ _ quotes none (d :: T)).subset
          have hshort := (@scan_suffix _ _ quotes none (d :: T)).length_le
          rw [append_cons]
          generalize (scan quotes none (d :: T)).1 = w at hcut'
          generalize (scan quotes none (d :: T)).2 = r at hscan hsub hshort hrest
          rcases r with - | ⟨b, r⟩
          · rw [words_nil, append_nil]
            exact hcut'.finish.same hsame
          · have hb : quotes.blank b = true := hscan b rfl
            have hb0 : (b :: r).headD 0 ≠ 0 := fun h0 : b = 0 => hT (hsub (h0 ▸ mem_cons_self))
            obtain ⟨hcp, rfl⟩ := hrest (cons_ne_nil b r)
            rw [if_neg hb0, words_blank hb, ← hcp]
            rw [length_cons] at hshort
            exact (ih (fun h0 => hT (hsub (mem_cons_of_mem b h0))) (by omega) hcut').same hsame

/-- **`makeargv`**: the words, or no room for them. -/
theorem makeargv_eq {s : Text} {R : Block Byte} (hline : g.line = mem s R) (hs : (0 : Byte) ∉ s)
    (hsave : s.length < g.saveline.length) (hmargv : 0 < g.margv.length) :
    Stores (makeargv g) g (argTexts s) := by
  have hn : s.length < g.line.length := by
    rw [hline, length_mem]
    exact Nat.lt_add_of_pos_right (Nat.succ_pos _)
  rw [makeargv]
  have hplain : Stores (argsLoop g.line.length { g with margc := 0 } 0) g (words quotes s) :=
    (@argsLoop_eq { g with margc := 0 } [] [] [] _ _ _ hs hn
      ⟨hline, ⟨g.margv, rfl⟩, rfl, rfl⟩).same ⟨rfl, rfl, rfl⟩
  rcases s with - | ⟨c, s⟩
  · rw [hline, show fetch (mem [] R) 0 = some 0 from rfl, bind_some, if_neg (by decide), ← hline]
    exact hplain
  · rw [hline, show fetch (mem (c :: s) R) 0 = some c from rfl, bind_some, argTexts, ← hline]
    by_cases hc : c = 33
    · subst hc
      obtain ⟨x, V, hV⟩ := List.exists_cons_of_length_pos hmargv
      have hstring : string 0 g.line = some (33 :: s) := by
        rw [hline]
        exact string_append hs R
      obtain ⟨save, hsaved⟩ : ∃ save, fill g.saveline 0 (33 :: s ++ [0]) = some save := by
        rw [fill_eq (Nat.zero_le _), if_pos (by rw [List.length_append, Nat.zero_add]; exact hsave)]
        exact ⟨_, rfl⟩
      rw [if_pos rfl, if_pos rfl, hstring, bind_some, hsaved, bind_some,
        write_of_lt hmargv, bind_some]
      rw [List.mem_cons, not_or] at hs
      have hcut : Cut { g with
          saveline := save, margv := g.margv.set 0 (some (some .shell)), margc := 1 } [some 33]
          (mem s R) [.shell] [[33]] := ⟨hline, ⟨V, by rw [hV]; rfl⟩, rfl, rfl⟩
      exact (argsLoop_eq hs.2 (Nat.lt_of_succ_lt hn) hcut).same
        ⟨rfl, List.length_set, length_of_fill hsaved⟩
    · rw [if_neg hc, if_neg hc]
      exact hplain

end

/-! ### The line -/

theorem copied_cons (c : Byte) (t : Text) :
    copied (c :: t) = if c = 10 then [c] else c :: copied t := by
  rw [copied]
  split
  next hc => rw [takeWhile_cons_of_neg (by simpa using hc)]; rfl
  next hc => rw [takeWhile_cons_of_pos (by simpa using hc)]; rfl

theorem copyLoop_eq (tbuf : Text) (line : Block Byte) (cp : ℕ) :
    copyLoop tbuf line cp = (fill line cp (copied tbuf)).map fun line =>
    (line, cp + (copied tbuf).length) := by
  induction tbuf generalizing line cp with
  | nil => rfl
  | cons c t ih =>
    rw [copyLoop, copied_cons]
    by_cases hc : c = 10
    · simp only [if_pos hc, fill_singleton]
      exact map_eq_bind.symm
    · simp only [if_neg hc, fill, map_bind, ih]
      simp only [Function.comp_apply, length_cons, add_assoc, add_comm 1]

theorem copied_eq (t : Text) :
    copied t = t.takeWhile (· ≠ 10) ++ (if 10 ∈ t then [10] else []) := by
  induction t with
  | nil => rfl
  | cons c t ih =>
    rw [copied_cons]
    by_cases hc : c = 10
    · rw [if_pos hc, takeWhile_cons_of_neg (by simpa using hc), if_pos (hc ▸ mem_cons_self), hc]
      rfl
    · rw [if_neg hc, ih, takeWhile_cons_of_pos (by simpa using hc), cons_append]
      simp [Ne.symm hc]

theorem mem_str (p : Text) (R : Block Byte) : ∃ R', mem p R = mem (p.takeWhile (· ≠ 0)) R' := by
  induction p with
  | nil => exact ⟨R, rfl⟩
  | cons c p ih =>
    by_cases hc : c = 0
    · rw [takeWhile_cons_of_neg (by simpa using hc), hc]
      exact ⟨mem p R, rfl⟩
    · rw [takeWhile_cons_of_pos (by simpa using hc)]
      exact ih.imp fun R' h => congrArg (some c :: ·) h

/-- What is in `line`, if there is one. -/
def Arrived (r : Option (Bool × Block Byte × Text)) : Option Text → Prop
  | none => ∃ line rest, r = some (false, line, rest) ∧ line.length = 256
  | some p => ∃ rest R, r = some (true, mem p R, rest) ∧ (mem p R).length = 256

section
variable {line : Block Byte} (hline : line.length = 256)
include hline

theorem fgets_eq (stdin : Text) : Arrived (fgets stdin line) (typed stdin) := by
  rw [fgets, typed]
  by_cases hempty : stdin = []
  · rw [if_pos hempty, if_pos hempty]
    exact ⟨line, [], rfl, hline⟩
  · have hle : (piece 10 255 stdin).1.length ≤ 255 := length_piece_le 10 (by omega) stdin
    rw [if_neg hempty, if_neg hempty]
    have hfill := fill_eq (b := line) (i := 0) (Nat.zero_le _) ((piece 10 255 stdin).1 ++ [0])
    rw [if_pos (by rw [length_append, length_singleton]; omega), take_zero, map_append, nil_append,
      append_assoc] at hfill
    rw [hfill]
    exact ⟨_, _, rfl, (length_of_fill hfill).trans hline⟩

/-- **A line arrives**, or there is no room for what is passed. -/
theorem arrive_eq (tbuf : Option Text) (stdin : Text) :
    if ∀ t ∈ tbuf, (copied t).length ≤ 256 then
    Arrived (arrive tbuf stdin line) ((tbuf.bind passed).or (typed stdin))
    else arrive tbuf stdin line = none := by
  rcases tbuf with - | t
  · rw [if_pos (by simp)]
    exact fgets_eq hline stdin
  · have hfill := fill_eq (b := line) (i := 0) (Nat.zero_le _) (copied t)
    rw [hline, Nat.zero_add] at hfill
    rw [arrive, copyLoop_eq]
    by_cases hle : (copied t).length ≤ 256
    · rw [if_pos hle, take_zero, nil_append] at hfill
      have hlen := (length_of_fill hfill).trans hline
      rw [if_pos (by simpa using hle), hfill, map_some, bind_some, bind_some]
      dsimp only
      generalize line.drop (copied t).length = R at hlen
      rw [copied_eq] at hlen ⊢
      have h10 : ∀ c ∈ t.takeWhile (· ≠ 10), c ≠ 10 := fun c hc => by
        simpa using mem_takeWhile_imp hc
      rw [passed]
      have hhead : t.takeWhile (· ≠ 10) = [] ↔ t = [] ∨ t.head? = some 10 := by
        rcases t with - | ⟨c, t⟩
        · simp
        · by_cases hc : c = 10 <;> simp [hc]
      generalize t.takeWhile (· ≠ 10) = y at h10 hhead hlen ⊢
      by_cases hmem : 10 ∈ t
      · rw [if_pos hmem] at hlen ⊢
        have hnil : t ≠ [] := ne_nil_of_mem hmem
        have hlast : fetch ((y ++ [10]).map some ++ R) y.length = some 10 := by
          rw [map_append, append_assoc, ← length_map some]
          exact fetch_append _ 10 R
        rw [Nat.zero_add, length_append, length_singleton, if_neg (Nat.succ_ne_zero _),
          Nat.add_sub_cancel, hlast, bind_some]
        by_cases hy : y = []
        · have h10 := (hhead.1 hy).resolve_left hnil
          rw [if_pos (.inr (by rw [hy]; rfl)), if_neg (fun h => h.2 h10)]
          exact fgets_eq hlen stdin
        · have hne : t.head? ≠ some 10 := fun h => hy (hhead.2 (.inr h))
          have hwrite : write ((y ++ [10]).map some ++ R) y.length 0 = some (mem y R) := by
            rw [map_append, append_assoc]
            exact (write_append y (some 10) R 0).trans (by rw [map_append, append_assoc]; rfl)
          rw [if_neg (by simpa using hy), hwrite, if_pos ⟨hmem, hne⟩]
          exact ⟨stdin, R, rfl, (length_of_write hwrite).trans hlen⟩
      · rw [if_neg hmem, append_nil] at hlen ⊢
        rw [Nat.zero_add, if_neg (fun h : 10 ∈ t ∧ _ => hmem h.1)]
        rcases y.eq_nil_or_concat' with rfl | ⟨y, c, rfl⟩
        · rw [length_nil, if_pos rfl]
          exact fgets_eq hlen stdin
        · have hlast : fetch ((y ++ [c]).map some ++ R) y.length = some c := by
            rw [map_append, append_assoc, ← length_map some]
            exact fetch_append _ c R
          have hc : c ≠ 10 := h10 c (by simp)
          rw [length_append, length_singleton, if_neg (Nat.succ_ne_zero _), Nat.add_sub_cancel,
            hlast, bind_some, if_pos (.inl hc)]
          exact fgets_eq hlen stdin
    · rw [if_neg hle] at hfill
      rw [if_neg (by simpa using hle), hfill]
      rfl

end

/-! ### What a line comes to -/

def Served (r : Option (Outcome × Globals × Text)) : Option Text → Prop
  | none => ∃ g' rest, r = some (.quit, g', rest) ∧ Sized g'
  | some [] => ∃ g' rest, r = some (.nothing, g', rest) ∧ Sized g'
  | some (c :: s) =>
    if (argTexts (c :: s)).length < 20 then
      ∃ g' rest, r = some (.args, g', rest) ∧ Sized g' ∧ strings g' = some (argTexts (c :: s)) ∧
        g'.margc = (argTexts (c :: s)).length
    else r = none

section
variable {tbuf : Option Text} {stdin : Text} {g : Globals} (hg : Sized g)
include hg

theorem command_passed (h : ¬ ∀ t ∈ tbuf, (copied t).length ≤ 256) :
    command tbuf stdin g = none := by
  have harrive := arrive_eq hg.line tbuf stdin
  rw [if_neg h] at harrive
  rw [command, harrive]
  rfl

theorem command_served (h : ∀ t ∈ tbuf, (copied t).length ≤ 256) :
    Served (command tbuf stdin g) (received tbuf stdin) := by
  have harrive := arrive_eq hg.line tbuf stdin
  rw [if_pos h] at harrive
  rw [received, command]
  generalize (tbuf.bind passed).or (typed stdin) = p at harrive
  cases p with
  | none =>
    obtain ⟨line, rest, hline, hlen⟩ := harrive
    rw [hline]
    exact ⟨_, _, rfl, hlen, hg.saveline, hg.margv⟩
  | some p =>
    obtain ⟨rest, R, hline, hlen⟩ := harrive
    rw [hline, bind_some, map_some]
    have hs : (0 : Byte) ∉ p.takeWhile (· ≠ 0) := fun h0 => by simpa using mem_takeWhile_imp h0
    obtain ⟨R', hR⟩ := mem_str p R
    rw [hR] at hlen ⊢
    generalize p.takeWhile (· ≠ 0) = s at hs hlen
    rcases s with - | ⟨c, s⟩
    · exact ⟨_, _, rfl, hlen, hg.saveline, hg.margv⟩
    · have hc : c ≠ 0 := by rintro rfl; exact hs mem_cons_self
      have hstores := makeargv_eq (g := { g with line := mem (c :: s) R' }) rfl hs
        (by rw [length_mem] at hlen; rw [hg.saveline]; omega) (by rw [hg.margv]; omega)
      rw [Stores, hg.margv] at hstores
      dsimp only at hstores ⊢
      rw [if_pos rfl, show fetch (mem (c :: s) R') 0 = some c from rfl, bind_some,
        if_neg hc, Served]
      split at hstores
      next hwords =>
        obtain ⟨g', hg', htexts, hmargc, hl, hsave, hv⟩ := hstores
        rw [if_pos hwords, hg']
        exact ⟨g', rest, rfl, ⟨hl.trans hlen, hsave.trans hg.saveline, hv⟩, htexts, hmargc⟩
      next hwords => rw [if_neg hwords, hstores, map_none]

/-- **A line is cut into its words** just in case there is room for it and for them. -/
theorem commands_iff : Right tbuf stdin g ↔ Fits tbuf stdin := by
  rw [Right, Fits]
  by_cases hroom : ∀ t ∈ tbuf, (copied t).length ≤ 256
  · rw [and_iff_right hroom]
    have hserved : Served (command tbuf stdin g) (received tbuf stdin) := command_served hg hroom
    rcases hr : received tbuf stdin with - | - | ⟨c, s⟩
    · rw [hr] at hserved
      obtain ⟨g', rest, hcommand, hsized⟩ := hserved
      exact iff_of_true ⟨_, _, _, hcommand, hsized, rfl⟩ (by simp)
    · rw [hr] at hserved
      obtain ⟨g', rest, hcommand, hsized⟩ := hserved
      exact iff_of_true ⟨_, _, _, hcommand, hsized, rfl⟩ (by simp [argTexts])
    · rw [hr, Served] at hserved
      split at hserved
      next hwords =>
        obtain ⟨g', rest, hcommand, hsized, htexts, hmargc⟩ := hserved
        exact iff_of_true ⟨_, _, _, hcommand, hsized, rfl, htexts, hmargc⟩ (by simpa using hwords)
      next hwords =>
        rw [hserved]
        refine iff_of_false ?_ fun h => hwords (h _ rfl)
        rintro ⟨out, g', rest, h, -⟩
        exact absurd h.symm (some_ne_none _)
  · rw [command_passed hg hroom]
    refine iff_of_false ?_ fun h => hroom h.1
    rintro ⟨out, g', rest, h, -⟩
    exact absurd h.symm (some_ne_none _)

end

/-! ### Twenty words -/

def Globals.init : Globals :=
  ⟨List.replicate 256 (some 0), List.replicate 256 (some 0), List.replicate 20 (some none), 0⟩

theorem sized_init : Sized .init := ⟨length_replicate, length_replicate, length_replicate⟩

/-- `close` -/
theorem commands_iff_close : Right (some [99, 108, 111, 115, 101, 10]) [] .init ↔
    Fits (some [99, 108, 111, 115, 101, 10]) [] :=
  commands_iff sized_init

def twenty : Text := (List.replicate 20 [97, 32]).flatten ++ [10]

/-- There is no room for a line of twenty words. -/
theorem not_right_twenty : ¬ ∀ (tbuf : Option Text) (stdin : Text) (g : Globals),
    Sized g → Right tbuf stdin g := by
  intro h
  obtain ⟨out, g', rest, hcommand, -⟩ := h none twenty .init sized_init
  have hserved : Served (command none twenty .init) (received none twenty) :=
    command_served sized_init (by simp)
  have hreceived : received none twenty = some (97 :: twenty.tail) := by decide
  rw [hreceived, Served, if_neg (by decide)] at hserved
  exact absurd (hserved.symm.trans hcommand).symm (some_ne_none _)

end Inetutils.Telnet.Makeargv
