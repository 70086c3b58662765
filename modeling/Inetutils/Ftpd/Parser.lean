import Inetutils.Ftpd.Scanner

/-! # The parser of ftpd

The grammar of `src/ftpcmd.y`, as the tables that are generated from it parse a line: `rule` says
for each command which tokens may come next and when a part of the line is reduced. `check_login`
and `pathname` are reduced before the next token is read, STAT excepted. With IDLE a token is
shifted, so that the longer form of SITE IDLE is never accepted. -/

namespace Inetutils.Ftpd.Parser

open Scanner
open Dataconn (Text upper)

/-! ### The grammar -/

inductive TypeCode
  | a (form : Letter)
  | e (form : Letter)
  | i
  | l (size : ℤ)
  deriving DecidableEq

inductive Action
  | user (name : Text) | pass (password : Text) | port (hostPort : List ℤ) | pasv | type
    (code : TypeCode)
  | stru (code : Letter) | mode (code : Letter) | allo | retr (path : Text) | stor
    (path : Text) | appe (path : Text)
  | nlst | nlstString (path : Text) | list | listPath (path : Text) | statPath (path : Text) | stat
  | dele (path : Text) | rnto (path : Text) | abor | cwd | cwdPath (path : Text) | help | helpString
    (s : Text) | noop
  | mkd (path : Text) | rmd (path : Text) | pwd | cdup | siteHelp | siteHelpString
    (s : Text) | siteUmask
  | siteUmaskSet (mask : ℤ) | siteChmod (mode : ℤ) (path : Text) | siteIdle | stou
    (path : Text) | syst
  | size (path : Text) | mdtm (path : Text) | quit | rnfr (path : Text) | rest (size : ℤ)
  deriving DecidableEq

inductive Reduction
  | checkLogin
  | hostPort (hostPort : List ℤ)
  | pathname (path : Text)
  deriving DecidableEq

/-- What the parser does next: a command is complete, the last token has no place here, a part is
reduced, or the next token is read. -/
inductive Rule
  | done (a : Action)
  | error
  | reduce (r : Reduction) (rule : Rule)
  | shift (next : Token → Rule)

def tok (t : Token) (r : Rule) : Rule := .shift fun t' => if t' = t then r else .error

def crlf (a : Action) : Rule := tok .crlf (.done a)

def string (k : Text → Rule) : Rule := .shift fun t =>
  match t with
  | .string s => k s
  | _ => .error

def number (k : ℤ → Rule) : Rule := .shift fun t =>
  match t with
  | .number n => k n
  | _ => .error

def checkLogin (r : Rule) : Rule := .reduce .checkLogin r

/-- The line ends here, or something follows after a blank. -/
def crlfOr (a : Action) (r : Rule) : Rule := .shift fun t =>
  match t with
  | .crlf => .done a
  | .sp => r
  | _ => .error

def pathname (k : Text → Rule) : Rule := string fun s => .reduce (.pathname s) (k s)

def spPath (a : Text → Action) : Rule := tok .sp (pathname fun s => crlf (a s))

def hostPort (a : List ℤ → Action) : Rule :=
  number fun h₁ =>
    tok .comma (number fun h₂ => tok .comma (number fun h₃ => tok .comma (number fun h₄ =>
    tok .comma (number fun p₁ => tok .comma (number fun p₂ =>
      .reduce (.hostPort [h₁, h₂, h₃, h₄, p₁, p₂]) (crlf (a [h₁, h₂, h₃, h₄, p₁, p₂])))))))

def formCode (k : Letter → Rule) : Rule := .shift fun t =>
  match t with
  | .letter .n => k .n
  | .letter .t => k .t
  | .letter .c => k .c
  | _ => .error

def typeCode (a : TypeCode → Action) : Rule := .shift fun t =>
  match t with
  | .letter .a => crlfOr (a (.a .n)) (formCode fun form => crlf (a (.a form)))
  | .letter .e => crlfOr (a (.e .n)) (formCode fun form => crlf (a (.e form)))
  | .letter .i => crlf (a .i)
  | .letter .l => .shift fun t =>
    match t with
    | .crlf => .done (a (.l 8))
    | .sp => number fun size => crlf (a (.l size))
    | .number size => crlf (a (.l size))
    | _ => .error
  | _ => .error

def structCode (k : Letter → Rule) : Rule := .shift fun t =>
  match t with
  | .letter .f => k .f
  | .letter .r => k .r
  | .letter .p => k .p
  | _ => .error

def modeCode (k : Letter → Rule) : Rule := .shift fun t =>
  match t with
  | .letter .s => k .s
  | .letter .b => k .b
  | .letter .c => k .c
  | _ => .error

def password (k : Text → Action) : Rule := .shift fun t =>
  match t with
  | .crlf => .done (k [])
  | .string s => crlf (k s)
  | _ => .error

def site : Rule := .shift fun t =>
  match t with
  | .cmd .help => crlfOr .siteHelp (string fun s => crlf (.siteHelpString s))
  | .cmd .umask => checkLogin (crlfOr .siteUmask (number fun mask => crlf (.siteUmaskSet mask)))
  | .cmd .chmod =>
    checkLogin (tok .sp (number fun mode => tok .sp (pathname fun s => crlf (.siteChmod mode s))))
  | .cmd .idle => crlf .siteIdle
  | _ => .error

/-- What may follow the first token of a line. -/
def rule : Keyword → Rule
  | .user => tok .sp (string fun s => crlf (.user s))
  | .pass => tok .sp (password .pass)
  | .port => checkLogin (tok .sp (hostPort .port))
  | .pasv => checkLogin (crlf .pasv)
  | .type => tok .sp (typeCode .type)
  | .stru => tok .sp (structCode fun code => crlf (.stru code))
  | .mode => tok .sp (modeCode fun code => crlf (.mode code))
  | .allo =>
    tok .sp (number fun _ => crlfOr .allo (tok (.letter .r) (tok .sp (number fun _ => crlf .allo))))
  | .retr => checkLogin (spPath .retr)
  | .stor => checkLogin (spPath .stor)
  | .appe => checkLogin (spPath .appe)
  | .nlst => checkLogin (crlfOr .nlst (string fun s => crlf (.nlstString s)))
  | .list => checkLogin (crlfOr .list (pathname fun s => crlf (.listPath s)))
  | .stat => .shift fun t =>
    match t with
    | .crlf => .done .stat
    | .sp => checkLogin (pathname fun s => crlf (.statPath s))
    | _ => checkLogin .error
  | .dele => checkLogin (spPath .dele)
  | .rnto => checkLogin (spPath .rnto)
  | .abor => crlf .abor
  | .cwd => checkLogin (crlfOr .cwd (pathname fun s => crlf (.cwdPath s)))
  | .help => crlfOr .help (string fun s => crlf (.helpString s))
  | .noop => crlf .noop
  | .mkd => checkLogin (spPath .mkd)
  | .rmd => checkLogin (spPath .rmd)
  | .pwd => checkLogin (crlf .pwd)
  | .cdup => checkLogin (crlf .cdup)
  | .site => tok .sp site
  | .stou => checkLogin (spPath .stou)
  | .syst => crlf .syst
  | .size => checkLogin (spPath .size)
  | .mdtm => checkLogin (spPath .mdtm)
  | .quit => crlf .quit
  | .rnfr => checkLogin (spPath .rnfr)
  | .rest => tok .sp (number fun n => crlf (.rest n))
  | .acct | .rein | .mlfl | .mail | .msnd | .msom | .msam | .mrsq | .mrcp | .smnt | .umask | .idle
  | .chmod => .error

/-! ### A line -/

/-- How the processing of a line ends: with the command, with `error CRLF`, or with a jump out of
the parser. -/
inductive Stop
  | action (a : Action)
  | errorCrlf
  | notUnderstood
  | unimplemented (name : Text)
  deriving DecidableEq

/-- What happens to a line: the tokens that `yylex` returns, the reductions within the line, whether
the parser calls `yyerror`, how the line ends, the states in which `yylex` looks at `cbuf`, and the
last state. -/
structure Line where
  tokens : List Token
  reductions : List Reduction
  complained : Bool
  stop : Stop
  visited : List Scan
  last : Scan
  deriving DecidableEq

def Line.stopped (stop : Stop) (s : Scan) : Line := ⟨[], [], false, stop, [], s⟩

def Line.visit (s : Scan) (l : Line) : Line := { l with visited := s :: l.visited }

def Line.token (t : Token) (l : Line) : Line := { l with tokens := t :: l.tokens }

def Line.reduce (r : Reduction) (l : Line) : Line := { l with reductions := r :: l.reductions }

def Line.complain (l : Line) : Line := { l with complained := true }

/-- After an error tokens are dropped, up to a CRLF. The first argument bounds the tokens. -/
def recover : ℕ → Scan → Line
  | 0, s => .stopped .notUnderstood s
  | n + 1, s =>
    match yylex s with
    | .token t m =>
      ((if t = .crlf then .stopped .errorCrlf (s.move m) else recover n (s.move m)).token t).visit s
    | .notUnderstood m back => (Line.stopped .notUnderstood (s.leave m back)).visit s
    | .unimplemented name m => (Line.stopped (.unimplemented name) (s.move m)).visit s

/-- The parser calls `yyerror`, and drops the tokens from `t` on. -/
def complain (t : Token) (s : Scan) : Line :=
  if t = .crlf then (Line.stopped .errorCrlf (yyerror s)).complain
  else (recover ((yyerror s).view.length + 1) (yyerror s)).complain

/-- The parser in a line; `t` is the last token. -/
def parse : Rule → Token → Scan → Line
  | .done a, _, s => .stopped (.action a) s
  | .error, t, s => complain t s
  | .reduce r rule, t, s => (parse rule t s).reduce r
  | .shift next, _, s =>
    match yylex s with
    | .token t m => ((parse (next t) t (s.move m)).token t).visit s
    | .notUnderstood m back => (Line.stopped .notUnderstood (s.leave m back)).visit s
    | .unimplemented name m => (Line.stopped (.unimplemented name) (s.move m)).visit s

def start : Token → Rule
  | .cmd k => rule k
  | _ => .error

/-- The parser with the line in `cbuf`. -/
def parseLine (s : Scan) : Line :=
  match command s with
  | .token t m => ((parse (start t) t (s.move m)).token t).visit s
  | .notUnderstood m back => (Line.stopped .notUnderstood (s.leave m back)).visit s
  | .unimplemented name m => (Line.stopped (.unimplemented name) (s.move m)).visit s

/-- The processing of a line that `telnet_fgets` returns. -/
def line (s : Scan) (text : Text) : Line := parseLine (s.read text)

end Inetutils.Ftpd.Parser
