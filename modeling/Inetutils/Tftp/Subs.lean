import Inetutils.Lib.Blocks
import Inetutils.Tftp.Proto

/-! # Read-ahead and write-behind

The two buffers of `libinetutils/tftpsubs.c` and the conversion to and from netascii. The file that
is read is what is left of it, the file that is written has a position, and both belong to the
caller. -/

namespace Inetutils.Tftp.Subs

open Proto List

/-! ### The buffers -/

/-- `struct bf`, the data after the header of the packet. -/
structure Bf where
  counter : ℤ
  data : List Byte

abbrev BF_ALLOC : ℤ := -3
abbrev BF_FREE : ℤ := -2

/-- The variables of the file; `prevchar` is `none` for -1. -/
structure Bufs where
  bfs : Bool → Bf
  nextone : Bool
  current : Bool
  newline : Bool
  prevchar : Option Byte

def Bufs.setBf (s : Bufs) (i : Bool) (b : Bf) : Bufs :=
  { s with bfs := fun j => if j = i then b else s.bfs j }

/-- `rw_init`, with `true` to read ahead. -/
def rwInit (s : Bufs) (x : Bool) : Bufs where
  bfs := fun i => { s.bfs i with counter := if i then BF_FREE else BF_ALLOC }
  nextone := x
  current := false
  newline := false
  prevchar := none

def rInit (s : Bufs) : Bufs := rwInit s true

def wInit (s : Bufs) : Bufs := rwInit s false

/-! ### Reading -/

/-- The loop of `read_ahead` that converts: at most so many characters, what is left of the file
with `newline` and `prevchar`. -/
def fill : ℕ → Bool → Option Byte → List Byte → List Byte × Bool × Option Byte × List Byte
  | 0, newline, prevchar, file => ([], newline, prevchar, file)
  | i + 1, true, prevchar, file =>
    let r := fill i false prevchar file
    ((if prevchar = some LF then LF else NUL) :: r.1, r.2)
  | _ + 1, false, prevchar, [] => ([], false, prevchar, [])
  | i + 1, false, prevchar, c :: file =>
    if c = LF ∨ c = CR then
      let r := fill i true (some c) file
      (CR :: r.1, r.2)
    else
      let r := fill i false prevchar file
      (c :: r.1, r.2)

def readAhead (convert : Bool) (s : Bufs) (file : List Byte) : Bufs × List Byte :=
  if (s.bfs s.nextone).counter ≠ BF_FREE then (s, file)
  else if !convert then
    let data := file.take SEGSIZE
    ({ s.setBf s.nextone ⟨data.length, data⟩ with nextone := !s.nextone }, file.drop SEGSIZE)
  else
    let (data, newline, prevchar, file) := fill SEGSIZE s.newline s.prevchar file
    ({ s.setBf s.nextone ⟨data.length, data⟩ with
        nextone := !s.nextone, newline := newline, prevchar := prevchar }, file)

/-- `readit`; the buffer it gives is the current one. -/
def readit (convert : Bool) (s : Bufs) (file : List Byte) : Bufs × List Byte :=
  let s := s.setBf s.current { s.bfs s.current with counter := BF_FREE }
  let s := { s with current := !s.current }
  if (s.bfs s.current).counter = BF_FREE then readAhead convert s file else (s, file)

def Bufs.dp (s : Bufs) : Bf := s.bfs s.current

/-! ### Writing -/

structure WFile where
  content : List Byte
  pos : ℕ

def WFile.empty : WFile := ⟨[], 0⟩

def WFile.putc (f : WFile) (c : Byte) : WFile :=
  ⟨f.content.take f.pos ++ c :: f.content.drop (f.pos + 1), f.pos + 1⟩

/-- `fseeko (file, -1, 1)`. -/
def WFile.back (f : WFile) : WFile := { f with pos := f.pos - 1 }

/-- A round of the loop of `write_behind`. -/
def putChar (r : Option Byte × WFile) (c : Byte) : Option Byte × WFile :=
  if r.1 = some CR then
    if c = LF then (some c, r.2.back.putc c)
    else if c = NUL then (some c, r.2)
    else (some c, r.2.putc c)
  else (some c, r.2.putc c)

def flush (convert : Bool) (r : Option Byte × WFile) (data : List Byte) : Option Byte × WFile :=
  if !convert then (r.1, data.foldl WFile.putc r.2) else data.foldl putChar r

def writeBehind (convert : Bool) (s : Bufs) (f : WFile) : Bufs × WFile :=
  let b := s.bfs s.nextone
  if b.counter < -1 then (s, f)
  else
    let count := b.counter
    let s := s.setBf s.nextone { b with counter := BF_FREE }
    let s := { s with nextone := !s.nextone }
    if count ≤ 0 then (s, f)
    else
      let (prevchar, f) := flush convert (s.prevchar, f) (b.data.take count.toNat)
      ({ s with prevchar := prevchar }, f)

/-- What `recv` stores through `dp`. -/
def Bufs.receive (s : Bufs) (data : List Byte) : Bufs :=
  s.setBf s.current { s.dp with data := data }

def writeit (convert : Bool) (s : Bufs) (f : WFile) (ct : ℤ) : Bufs × WFile :=
  let s := s.setBf s.current { s.bfs s.current with counter := ct }
  let s := { s with current := !s.current }
  let (s, f) := if (s.bfs s.current).counter ≠ BF_FREE then writeBehind convert s f else (s, f)
  (s.setBf s.current { s.bfs s.current with counter := BF_ALLOC }, f)

/-! ### Netascii -/

def code (c : Byte) : List Byte := if c = LF then [CR, LF] else if c = CR then [CR, NUL] else [c]

def encode (content : List Byte) : List Byte := content.flatMap code

/-- The second half of a character that `read_ahead` is in the middle of. -/
def half (newline : Bool) (prevchar : Option Byte) : List Byte :=
  if newline then [if prevchar = some LF then LF else NUL] else []

variable (prevchar : Option Byte)

@[simp] theorem half_false : half false prevchar = [] := rfl

@[simp] theorem half_true : half true prevchar = [if prevchar = some LF then LF else NUL] := rfl

def remaining (convert newline : Bool) (prevchar : Option Byte) (file : List Byte) : List Byte :=
  if convert then half newline prevchar ++ encode file else file

abbrev stream (convert : Bool) (content : List Byte) : List Byte :=
  remaining convert false none content

theorem fill_eq (i : ℕ) (newline : Bool) (prevchar : Option Byte) (file : List Byte) :
    (fill i newline prevchar file).1 = (half newline prevchar ++ encode file).take i ∧
      half (fill i newline prevchar file).2.1 (fill i newline prevchar file).2.2.1 ++
        encode (fill i newline prevchar file).2.2.2 =
        (half newline prevchar ++ encode file).drop i := by
  induction i generalizing newline prevchar file with
  | zero => simp [fill]
  | succ i ih =>
    cases newline with
    | true => simpa [fill] using ih false prevchar file
    | false =>
      cases file with
      | nil => simp [fill, encode]
      | cons c file =>
        by_cases hc : c = LF ∨ c = CR
        · have hcode : code c = [CR, if some c = some LF then LF else NUL] := by
            rcases hc with rfl | rfl <;> rfl
          simpa [fill, hc, encode, hcode] using ih true (some c) file
        · have hcode : code c = [c] := by
            obtain ⟨h1, h2⟩ := not_or.1 hc
            simp [code, h1, h2]
          simpa [fill, hc, encode, hcode] using ih false prevchar file

theorem encode_cr {content : List Byte} {i : ℕ} (h : (encode content)[i]? = some CR) :
    (encode content)[i + 1]? = some LF ∨ (encode content)[i + 1]? = some NUL := by
  induction content generalizing i with
  | nil => exact nomatch h
  | cons c content ih =>
    rw [encode, flatMap_cons, ← encode] at h ⊢
    unfold code at h ⊢
    split_ifs at h ⊢ with hlf hcr
    · match i with
      | 0 => exact .inl rfl
      | 1 => exact absurd (Option.some_inj.1 h) (by decide)
      | i + 2 => exact ih (by simpa using h)
    · match i with
      | 0 => exact .inr rfl
      | 1 => exact absurd (Option.some_inj.1 h) (by decide)
      | i + 2 => exact ih (by simpa using h)
    · match i with
      | 0 => exact absurd (Option.some_inj.1 h) hcr
      | i + 1 => exact ih (by simpa using h)

/-! ### Writing at the end of a file -/

def WFile.at (content : List Byte) : WFile := ⟨content, content.length⟩

theorem putc_at (w : List Byte) (c : Byte) : (WFile.at w).putc c = WFile.at (w ++ [c]) := by
  simp [WFile.at, WFile.putc]

theorem back_putc_at (w : List Byte) (c d : Byte) :
    (WFile.at (w ++ [c])).back.putc d = WFile.at (w ++ [d]) := by
  simp [WFile.at, WFile.back, WFile.putc]

theorem foldl_putc_at (w l : List Byte) : l.foldl WFile.putc (WFile.at w) = WFile.at (w ++ l) := by
  induction l generalizing w with
  | nil => simp
  | cons c l ih => rw [foldl_cons, putc_at, ih, append_assoc, singleton_append]

theorem foldl_putChar_code {prevchar : Option Byte} (h : prevchar ≠ some CR) (w : List Byte)
    (c : Byte) :
    ∃ p, p ≠ some CR ∧
    (code c).foldl putChar (prevchar, WFile.at w) = (p, WFile.at (w ++ [c])) := by
  have hstart (d : Byte) : putChar (prevchar, WFile.at w) d = (some d, WFile.at (w ++ [d])) := by
    rw [putChar, if_neg h, putc_at]
  by_cases hlf : c = LF
  · refine ⟨some LF, by decide, ?_⟩
    rw [hlf, code, if_pos rfl, foldl_cons, hstart, foldl_cons, putChar, if_pos rfl, if_pos rfl,
      back_putc_at, foldl_nil]
  · by_cases hcr : c = CR
    · refine ⟨some NUL, by decide, ?_⟩
      rw [hcr, code, if_neg (by decide), if_pos rfl, foldl_cons, hstart]
      rfl
    · refine ⟨some c, fun hp => hcr (Option.some_inj.1 hp), ?_⟩
      rw [code, if_neg hlf, if_neg hcr, foldl_cons, hstart, foldl_nil]

theorem foldl_putChar_encode (h : prevchar ≠ some CR) (w content : List Byte) :
    ∃ p, p ≠ some CR ∧ (encode content).foldl putChar (prevchar, WFile.at w) =
    (p, WFile.at (w ++ content)) := by
  induction content generalizing prevchar w with
  | nil => exact ⟨prevchar, h, by simp [encode]⟩
  | cons c content ih =>
    obtain ⟨p, hp, hcode⟩ := foldl_putChar_code h w c
    obtain ⟨p', hp', hrest⟩ := ih p hp (w ++ [c])
    refine ⟨p', hp', ?_⟩
    rw [encode, flatMap_cons, foldl_append, hcode, ← encode, hrest, append_assoc,
      singleton_append]

def written (convert : Bool) (l : List Byte) : Option Byte × WFile :=
  flush convert (none, WFile.empty) l

theorem flush_append (convert : Bool) (r : Option Byte × WFile) (l l' : List Byte) :
    flush convert r (l ++ l') = flush convert (flush convert r l) l' := by
  cases convert <;> simp [flush]

theorem written_stream (convert : Bool) (content : List Byte) :
    (written convert (stream convert content)).2 = WFile.at content := by
  cases convert with
  | false => simpa [written, flush, remaining, WFile.empty, WFile.at] using foldl_putc_at [] content
  | true =>
    obtain ⟨p, -, h⟩ := foldl_putChar_encode none (by decide) [] content
    simp only [written, flush, remaining, half]
    simpa [WFile.empty, WFile.at] using congrArg Prod.snd h

end Inetutils.Tftp.Subs
