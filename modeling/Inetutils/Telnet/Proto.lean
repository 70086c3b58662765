import Mathlib.Data.Nat.Notation

/-! # Bytes and codes of the telnet protocol

The codes of `<arpa/telnet.h>` and the control characters the programs name. -/

namespace Inetutils.Telnet.Proto

abbrev Byte := UInt8

/-! ### Commands -/

abbrev IAC : Byte := 255
abbrev DONT : Byte := 254
abbrev DO : Byte := 253
abbrev WONT : Byte := 252
abbrev WILL : Byte := 251
abbrev SB : Byte := 250
abbrev EL : Byte := 248
abbrev EC : Byte := 247
abbrev AYT : Byte := 246
abbrev AO : Byte := 245
abbrev IP : Byte := 244
abbrev BREAK : Byte := 243
abbrev DM : Byte := 242
abbrev SE : Byte := 240
abbrev EOR : Byte := 239
abbrev ABORT : Byte := 238
abbrev SUSP : Byte := 237
abbrev xEOF : Byte := 236

/-! ### Options -/

abbrev TELOPT_BINARY : Byte := 0
abbrev TELOPT_ECHO : Byte := 1
abbrev TELOPT_SGA : Byte := 3
abbrev TELOPT_STATUS : Byte := 5
abbrev TELOPT_TM : Byte := 6
abbrev TELOPT_LOGOUT : Byte := 18
abbrev TELOPT_TTYPE : Byte := 24
abbrev TELOPT_NAWS : Byte := 31
abbrev TELOPT_TSPEED : Byte := 32
abbrev TELOPT_LFLOW : Byte := 33
abbrev TELOPT_LINEMODE : Byte := 34
abbrev TELOPT_XDISPLOC : Byte := 35
abbrev TELOPT_OLD_ENVIRON : Byte := 36
abbrev TELOPT_NEW_ENVIRON : Byte := 39

/-! ### Suboptions -/

abbrev TELQUAL_IS : Byte := 0
abbrev TELQUAL_SEND : Byte := 1
abbrev TELQUAL_INFO : Byte := 2

abbrev NEW_ENV_VAR : Byte := 0
abbrev NEW_ENV_VALUE : Byte := 1
abbrev ENV_ESC : Byte := 2
abbrev ENV_USERVAR : Byte := 3

abbrev LFLOW_OFF : Byte := 0
abbrev LFLOW_ON : Byte := 1
abbrev LFLOW_RESTART_ANY : Byte := 2
abbrev LFLOW_RESTART_XON : Byte := 3

abbrev LM_MODE : Byte := 1
abbrev LM_FORWARDMASK : Byte := 2
abbrev LM_SLC : Byte := 3

/-! ### Characters -/

abbrev NUL : Byte := 0
abbrev LF : Byte := 10
abbrev CR : Byte := 13

/-! ### Buffers -/

/-- `BUFSIZ` of `<stdio.h>`. -/
abbrev BUFSIZ : ℕ := 8192

end Inetutils.Telnet.Proto
