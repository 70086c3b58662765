import Inetutils.Ftpd.Input

/-! # The scanner of ftpd

`yylex` of `src/ftpcmd.y`. The line is in `cbuf`, `cpos` is an index into it, and both stay from one
line to the next. What is read at `cpos` is the string there, `Scan.view`, and the NUL after it. -/

namespace Inetutils.Ftpd.Scanner

open Input
open Dataconn (Text upper)
open Lib.Decimal (isDigit value)

/-! ### Tokens -/

inductive Letter
  | a | b | c | e | f | i | l | n | p | r | s | t
  deriving DecidableEq

inductive Keyword
  | user | pass | acct | rein | quit | port
  | pasv | type | stru | mode | retr | stor
  | appe | mlfl | mail | msnd | msom | msam
  | mrsq | mrcp | allo | rest | rnfr | rnto
  | abor | dele | cwd | list | nlst | site
  | stat | help | noop | mkd | rmd | pwd
  | cdup | stou | smnt | syst | size | mdtm
  | umask | idle | chmod
  deriving DecidableEq

inductive Token
  | letter (code : Letter)
  | sp | crlf | comma
  | cmd (k : Keyword)
  | string (s : Text)
  | number (n : ℤ)
  deriving DecidableEq

inductive LexState
  | cmd | args | str1 | str2 | ostr | zstr1 | zstr2 | sitecmd | nstr
  deriving DecidableEq

/-! ### The tables -/

def ascii (s : String) : Text := s.toList.map fun c => c.toNat.toUInt8

structure Tab where
  name : Text
  token : Keyword
  state : LexState
  implemented : Bool
  deriving DecidableEq

def tab (name : String) (token : Keyword) (state : LexState) (implemented : Bool) : Tab :=
  ⟨ascii name, token, state, implemented⟩

def cmdtab : List Tab :=
  [tab "USER" .user .str1 true, tab "PASS" .pass .zstr1 true, tab "ACCT" .acct .str1 false,
    tab "SMNT" .smnt .args false, tab "REIN" .rein .args false, tab "QUIT" .quit .args true,
    tab "PORT" .port .args true, tab "PASV" .pasv .args true, tab "TYPE" .type .args true,
    tab "STRU" .stru .args true, tab "MODE" .mode .args true, tab "RETR" .retr .str1 true,
    tab "STOR" .stor .str1 true, tab "APPE" .appe .str1 true, tab "MLFL" .mlfl .ostr false,
    tab "MAIL" .mail .ostr false, tab "MSND" .msnd .ostr false, tab "MSOM" .msom .ostr false,
    tab "MSAM" .msam .ostr false, tab "MRSQ" .mrsq .ostr false, tab "MRCP" .mrcp .str1 false,
    tab "ALLO" .allo .args true, tab "REST" .rest .args true, tab "RNFR" .rnfr .str1 true,
    tab "RNTO" .rnto .str1 true, tab "ABOR" .abor .args true, tab "DELE" .dele .str1 true,
    tab "CWD" .cwd .ostr true, tab "XCWD" .cwd .ostr true, tab "LIST" .list .ostr true,
    tab "NLST" .nlst .ostr true, tab "SITE" .site .sitecmd true, tab "SYST" .syst .args true,
    tab "STAT" .stat .ostr true, tab "HELP" .help .ostr true, tab "NOOP" .noop .args true,
    tab "MKD" .mkd .str1 true, tab "XMKD" .mkd .str1 true, tab "RMD" .rmd .str1 true,
    tab "XRMD" .rmd .str1 true, tab "PWD" .pwd .args true, tab "XPWD" .pwd .args true,
    tab "CDUP" .cdup .args true, tab "XCUP" .cdup .args true, tab "STOU" .stou .str1 true,
    tab "SIZE" .size .ostr true, tab "MDTM" .mdtm .ostr true]

def sitetab : List Tab :=
  [tab "UMASK" .umask .args true, tab "IDLE" .idle .args true, tab "CHMOD" .chmod .nstr true,
    tab "HELP" .help .ostr true]

def lookup (p : List Tab) (cmd : Text) : Option Tab := p.find? fun t => cmd = t.name

/-! ### The state -/

structure Scan where
  cbuf : Text
  cpos : ℕ
  state : LexState
  deriving DecidableEq

def Scan.start : Scan := ⟨List.replicate 512 0, 0, .cmd⟩

/-- The string at `&cbuf[cpos]`. -/
def Scan.view (s : Scan) : Text := cstring (s.cbuf.drop s.cpos)

/-- What a call does to `cpos` and to the state: `k` characters are passed, after `upper` if
`raised`. -/
structure Move where
  k : ℕ
  state : LexState
  raised : Bool
  deriving DecidableEq

/-- `upper` of the `k` characters from `i` on. -/
def raiseAt (i k : ℕ) (l : Text) : Text :=
  l.take i ++ (((l.drop i).take k).map upper ++ l.drop (i + k))

def Scan.raise (s : Scan) (k : ℕ) : Scan := { s with cbuf := raiseAt s.cpos k s.cbuf }

def Scan.pass (s : Scan) (k : ℕ) (state : LexState) : Scan := ⟨s.cbuf, s.cpos + k, state⟩

def Scan.move (s : Scan) (m : Move) : Scan := (if m.raised then s.raise m.k else s).pass m.k m.state

/-- The outcome of a call: a token, or a jump out of the parser after a reply of 500 or of 502. In
the first of these `cpos` goes `back` again. -/
inductive Lexed
  | token (t : Token) (m : Move)
  | notUnderstood (m : Move) (back : ℕ)
  | unimplemented (name : Text) (m : Move)
  deriving DecidableEq

/-! ### `yylex` in a line

What a call does depends on the state and on the string `v` at `cpos`. -/

def isBreak (b : UInt8) : Bool := b = 32 ∨ b = 10

/-- `strpbrk (cp, " \n")`, as an offset. -/
def strpbrk (l : Text) : Option ℕ := if l.any isBreak then some (l.findIdx isBreak) else none

/-- `cbuf[cpos]`. -/
def char (v : Text) : UInt8 := v.headD 0

def atoi (digits : Text) : ℤ := (min (value 0 digits) (2 ^ 63 - 1) : ℤ).bmod (2 ^ 32)

def sitecmd (v : Text) : Lexed :=
  if char v = 32 then .token .sp ⟨1, .sitecmd, false⟩
  else
    let k := (strpbrk v).getD 0
    match lookup sitetab ((v.take k).map upper) with
    | some p =>
      if p.implemented then .token (.cmd p.token) ⟨k, p.state, true⟩
      else .unimplemented p.name ⟨k, .cmd, true⟩
    | none => .notUnderstood ⟨k, .cmd, true⟩ 0

/-- The label `dostr1`. -/
def dostr1 (state : LexState) (v : Text) : Lexed :=
  if char v = 32 then .token .sp ⟨1, if state = .zstr1 then .zstr2 else .str2, false⟩
  else .notUnderstood ⟨0, .cmd, false⟩ 0

def str2 (v : Text) : Lexed :=
  if 1 < v.length ∧ v.getLast? = some 10 then
    .token (.string v.dropLast) ⟨v.length - 1, .args, false⟩
  else .notUnderstood ⟨v.length, .cmd, false⟩ 1

def number (v : Text) (state : LexState) : Lexed :=
  .token (.number (atoi (v.takeWhile isDigit))) ⟨(v.takeWhile isDigit).length, state, false⟩

def letter (c : UInt8) : Option Letter :=
  [(65, .a), (66, .b), (67, .c), (69, .e), (70, .f), (73, .i), (76, .l), (78, .n), (80, .p),
    (82, .r), (83, .s), (84, .t)].lookup (upper c)

def args (v : Text) : Lexed :=
  if isDigit (char v) then number v .args
  else if char v = 10 then .token .crlf ⟨1, .cmd, false⟩
  else if char v = 32 then .token .sp ⟨1, .args, false⟩
  else if char v = 44 then .token .comma ⟨1, .args, false⟩
  else match letter (char v) with
    | some code => .token (.letter code) ⟨1, .args, false⟩
    | none => .notUnderstood ⟨1, .cmd, false⟩ 0

def lex (state : LexState) (v : Text) : Lexed :=
  match state with
  | .cmd => .notUnderstood ⟨0, .cmd, false⟩ 0
  | .sitecmd => sitecmd v
  | .ostr => if char v = 10 then .token .crlf ⟨0, .cmd, false⟩ else dostr1 state v
  | .str1 => dostr1 state v
  | .zstr1 => dostr1 state v
  | .zstr2 => if char v = 10 then .token .crlf ⟨0, .cmd, false⟩ else str2 v
  | .str2 => str2 v
  | .nstr =>
    if char v = 32 then .token .sp ⟨1, .nstr, false⟩
    else if isDigit (char v) then number v .str1
    else dostr1 .str1 v
  | .args => args v

def yylex (s : Scan) : Lexed := lex s.state s.view

/-! ### The reading of a line -/

/-- `telnet_fgets` has stored `line` and a NUL. -/
def fill (line cbuf : Text) : Text := line ++ 0 :: cbuf.drop (line.length + 1)

/-- The characters in front of the first `c`. -/
def before (c : UInt8) (l : Text) : Text := l.takeWhile (· ≠ c)

def cutCr (cbuf : Text) : Text :=
  if 13 ∈ cstring cbuf then
    before 13 (cstring cbuf) ++ 10 :: 0 :: cbuf.drop ((before 13 (cstring cbuf)).length + 2)
  else cbuf

/-- Where the command ends in the line; `cpos` is left from the line before. -/
def position (line : Text) (cpos : ℕ) : ℕ :=
  match strpbrk line with
  | some k => if k = 0 then 4 else k
  | none => if cpos = 0 then 4 else cpos

/-- The command word is the string in front of `cpos`, in capital letters. -/
def commandWord (cbuf : Text) (cpos : ℕ) : Text := (cstring (cbuf.take cpos)).map upper

/-- The line is in `cbuf`, and `cpos` behind the command. -/
def Scan.read (s : Scan) (line : Text) : Scan :=
  let cbuf := cutCr (fill line s.cbuf)
  let cpos := position (cstring cbuf) s.cpos
  ⟨commandWord cbuf cpos ++ cbuf.drop (commandWord cbuf cpos).length, cpos, .cmd⟩

/-- The state `CMD`, when the line was read. -/
def command (s : Scan) : Lexed :=
  match lookup cmdtab (cstring (s.cbuf.take s.cpos)) with
  | some p =>
    if p.implemented then .token (.cmd p.token) ⟨0, p.state, false⟩
    else .unimplemented p.name ⟨0, .cmd, false⟩
  | none => .notUnderstood ⟨0, .cmd, false⟩ 0

/-- `yyerror` cuts the line, and replies 500 with what is left of it. -/
def yyerror (s : Scan) : Scan :=
  if 10 ∈ cstring s.cbuf then
    { s with cbuf := before 10 (cstring s.cbuf) ++ 0 ::
      s.cbuf.drop ((before 10 (cstring s.cbuf)).length + 1) }
  else s

/-- The jump out of the scanner, with `yyerror` first. -/
def Scan.leave (s : Scan) (m : Move) (back : ℕ) : Scan :=
  yyerror { s.move m with cpos := (s.move m).cpos - back }

end Inetutils.Ftpd.Scanner
