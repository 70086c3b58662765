import Inetutils.Inetd.Table
import Inetutils.Telnetd.Argcv
import Inetutils.Lib.Lines
import Inetutils.Lib.Decimal
import Inetutils.Lib.Cells

/-! # The lines of a configuration file of inetd

What `getconfigent` of `src/inetd.c` makes of the words of one line: the entry (`lineConf`), or
nothing when the line is passed over, and the node that is in front of the service or, where there
is none, the one in effect (`meant`). The argument vector is a block of pointers (`vector`); up to
its NULL are the arguments of the line, or the name of the server where there are none
(`untilNull_vector`). -/

namespace Inetutils.Inetd.Lines

open Table Telnetd.Argcv Lib Lib.Cells List

/-- What `getline` gives of a file, each line up to its first NUL. -/
def getlines (file : Text) : List Text :=
  let c := Lines.cut 10 [] file
  (c.1 ++ if c.2 = [] then [] else [c.2]).map (List.takeWhile (· ≠ 0))

/-! ### The fields -/

/-- `strrchr (node, ':')`: what is before, and what is behind. -/
def splitNode (word : Text) : Option Text × Text :=
  if 58 ∈ word then
    (some (word.reverse.dropWhile (· ≠ 58)).tail.reverse, (word.reverse.takeWhile (· ≠ 58)).reverse)
  else (none, word)

/-- `tcpmux/` -/
def tcpmuxToken : Text := [116, 99, 112, 109, 117, 120, 47]

def kindService (service : Text) : Kind × Text :=
  if tcpmuxToken.isPrefixOf service then
    let c := service.drop tcpmuxToken.length
    if c.head? = some 43 then (.muxplus, c.tail) else (.mux, c)
  else (.norm, service)

/-- `stream`, `dgram`, `rdm`, `seqpacket`, `raw` -/
def socktype (word : Text) : Socktype :=
  if word = [115, 116, 114, 101, 97, 109] then .stream
  else if word = [100, 103, 114, 97, 109] then .dgram
  else if word = [114, 100, 109] then .rdm
  else if word = [115, 101, 113, 112, 97, 99, 107, 101, 116] then .seqpacket
  else if word = [114, 97, 119] then .raw
  else .bad

def tcp : Text := [116, 99, 112]
def udp : Text := [117, 100, 112]

/-- `IPV6` is whether the program is built for it. -/
def family (ipv6 : Bool) (proto : Text) : Family × Bool :=
  if ipv6 then
    if (proto.take 3 = tcp ∨ proto.take 3 = udp) ∧ proto[3]? = some 54 then (.inet6, false)
    else (.inet, true)
  else (.inet, false)

/-- `strtoul` into an `unsigned`. -/
def strtoul (p : Text) : ℕ :=
  let p := p.dropWhile isspace
  let sign := p.head? = some 45
  let p := if p.head? = some 43 ∨ p.head? = some 45 then p.tail else p
  let v := Decimal.value 0 (p.takeWhile Decimal.isDigit)
  let n := if 2 ^ 64 ≤ v then 2 ^ 64 - 1 else if sign then (2 ^ 64 - v) % 2 ^ 64 else v
  n % 2 ^ 32

/-- `wait`, or anything else; and the number behind the dot. -/
def waitMax (word : Text) : Bool × ℕ :=
  (word.takeWhile (· ≠ 46) = [119, 97, 105, 116],
    match word.dropWhile (· ≠ 46) with
    | [] => 0
    | _ :: p => strtoul p)

/-- `internal` -/
def internalName : Text := [105, 110, 116, 101, 114, 110, 97, 108]

/-- `echo`, `discard`, `time`, `daytime`, `chargen`, `tcpmux` -/
def biltins : List Biltin :=
  [⟨[101, 99, 104, 111], .stream, true, false⟩, ⟨[101, 99, 104, 111], .dgram, false, false⟩,
    ⟨[100, 105, 115, 99, 97, 114, 100], .stream, true, false⟩,
    ⟨[100, 105, 115, 99, 97, 114, 100], .dgram, false, false⟩,
    ⟨[116, 105, 109, 101], .stream, false, false⟩, ⟨[116, 105, 109, 101], .dgram, false, false⟩,
    ⟨[100, 97, 121, 116, 105, 109, 101], .stream, false, false⟩,
    ⟨[100, 97, 121, 116, 105, 109, 101], .dgram, false, false⟩,
    ⟨[99, 104, 97, 114, 103, 101, 110], .stream, true, false⟩,
    ⟨[99, 104, 97, 114, 103, 101, 110], .dgram, false, false⟩, tcpmuxBiltin]

def biLookup (service : Text) (type : Socktype) : Option Biltin :=
  biltins.find? fun bi => bi.socktype = type ∧ bi.service = service

/-- `sep->se_bi` -/
def builtin (server service : Text) (type : Socktype) : Option Biltin :=
  if server = internalName then biLookup service type else none

/-! ### The argument vector -/

abbrev fieldsMin : ℕ := 6

abbrev Vec := Option (Block (Option Text))

/-- `strrchr (sep->se_server, '/')`, and what is behind it. -/
def argv0 (server : Text) : Text := (server.reverse.takeWhile (· ≠ 47)).reverse

section

variable (words : List Text)

def word (i : ℕ) : Text := words.getD i []

def argc : ℕ := words.length - fieldsMin + 1

/-- `sep->se_argv`; the vector of the words has a NULL at its end, and the first pointer that is
taken from a short line is that one. -/
def vector : Block (Option Text) :=
  let taken := (words.map some ++ [none]).drop fieldsMin
  ((if argc words = 1 then [some (argv0 (word words 5))] else taken) ++ [none]).map some

def arguments : List Text :=
  if words.length = fieldsMin then [argv0 (word words 5)] else words.drop fieldsMin

/-! ### The entry -/

/-- The entry that `getconfigent` makes; none when the line is passed over with a message. -/
def lineConf (ipv6 : Bool) : Option Conf :=
  let s := kindService (splitNode (word words 0)).2
  let type := socktype (word words 1)
  let proto := word words 2
  let w := waitMax (word words 3)
  let server := word words 5
  let bi := builtin server s.2 type
  if ¬ ipv6 ∧ (proto.take 4 = tcp ++ [54] ∨ proto.take 4 = udp ++ [54]) then none
  else if s.1 ≠ .norm ∧ (proto.take 3 ≠ tcp ∨ type ≠ .stream) then none
  else if server = internalName ∧ bi = none then none
  else some
    { node := none, service := s.2, socktype := type, proto := proto, max := w.2, checked := false
      user := word words 4, bi := bi, server := server, argv := arguments words, kind := s.1
      family := (family ipv6 proto).1, v4mapped := (family ipv6 proto).2, ctrladdr := []
      wait := match bi with
        | some bi => bi.wait
        | none => if s.1 = .norm then w.1 else false }

/-- What `serv_node` is set to by a line that is in front of a service, when `addr` is in effect. -/
def lineNode (addr : Option Text) : Option Text :=
  match (splitNode (word words 0)).1 with
  | none => addr
  | some node => if node = [42] then none else some node

/-- The line that is meant, when `addr` is in effect. -/
def meant (ipv6 : Bool) (addr : Option Text) : Option Line :=
  (lineConf words ipv6).map fun conf => ⟨conf, lineNode words addr⟩

end

def entries (line : Option Line) : List Conf :=
  match line with
  | none => []
  | some line => line.nodes.map line.toConf.atNode

/-! ### What the vector holds -/

section

variable {words : List Text}

theorem lineConf_blank {ipv6 : Bool} {conf : Conf} (h : lineConf words ipv6 = some conf) :
    conf.node = none ∧ conf.ctrladdr = [] ∧ conf.checked = false ∧
    ¬ (conf.family = .inet6 ∧ conf.v4mapped = true) := by
  have hfamily (proto : Text) :
      ¬ ((family ipv6 proto).1 = .inet6 ∧ (family ipv6 proto).2 = true) := by
    unfold family
    split_ifs <;> simp
  unfold lineConf at h
  simp only at h
  split at h
  · cases h
  split at h
  · cases h
  split at h
  · cases h
  obtain rfl := Option.some.inj h
  exact ⟨rfl, rfl, rfl, hfamily _⟩

end

end Inetutils.Inetd.Lines
