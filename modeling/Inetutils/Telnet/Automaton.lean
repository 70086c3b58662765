import Inetutils.Telnet.Items

/-! # The receiving automaton

What the two `telrcv`, of the client and of the server, have in common: the states of their
automaton, the calls of handlers they make, and the suboption buffer. -/

namespace Inetutils.Telnet.Automaton

open Proto Items

/-- `TS_DATA`, `TS_IAC` and so on. -/
inductive TS
  | DATA
  | IAC
  | CR
  | SB
  | SE
  | verb (v : Verb)
  deriving DecidableEq

/-- The calls of handlers: for a command, for an option, for a suboption. -/
inductive Act
  | command (c : Byte)
  | option (v : Verb) (o : Byte)
  | suboption (payload : List Byte)

/-- `SB_ACCUM`, with `size` the size of `subbuffer`. -/
def sbAccum (size : ℕ) (p : List Byte) (c : Byte) : List Byte :=
  if p.length < size then p ++ [c] else p

/-- The suboption buffer when a suboption ends with `IAC` and `c`, which are put into it and taken
off again. -/
def sbTerm (size : ℕ) (p : List Byte) (c : Byte) : List Byte :=
  (sbAccum size (sbAccum size p IAC) c).take ((sbAccum size (sbAccum size p IAC) c).length - 2)

end Inetutils.Telnet.Automaton
