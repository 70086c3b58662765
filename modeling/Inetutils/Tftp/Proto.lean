import Mathlib.Data.Nat.Notation

/-! # Codes of the trivial file transfer protocol

The codes of `<arpa/tftp.h>`, with the type of `th_block` there, and the sizes. -/

namespace Inetutils.Tftp.Proto

abbrev Byte := UInt8

/-! ### Operations -/

abbrev RRQ : ℕ := 1
abbrev WRQ : ℕ := 2

/-! ### Error codes -/

abbrev ENOTFOUND : ℕ := 1
abbrev EACCESS : ℕ := 2

/-! ### Characters -/

abbrev NUL : Byte := 0
abbrev LF : Byte := 10
abbrev CR : Byte := 13

/-! ### Sizes -/

abbrev SEGSIZE : ℕ := 512

end Inetutils.Tftp.Proto
