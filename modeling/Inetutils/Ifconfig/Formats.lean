import Inetutils.Ifconfig.Template
import Mathlib.Algebra.Order.BigOperators.Group.List
import Mathlib.Algebra.Order.Group.Nat

/-! # The formats of `ifconfig`

The table `formats` of `ifconfig/options.c`, with the names and the templates. A template names only
formats that come behind it in the table, so that one that is expanded within another never comes
back to it. -/

namespace Inetutils.Ifconfig.Formats

open List
open Put (Text)

def txt (s : String) : Text := s.toByteArray.data.toList

/-- A name in `${}`, and the blocks behind it. -/
def sub (id : String) (args : List Text) :
    Text := 36 :: 123 :: (txt id ++ [125]) ++ args.flatMap fun a => 123 :: (a ++ [125])

/-! ### The table -/

/-- `default` -/
def defaultFormat : Text :=
  sub "format" [txt "gnu"]

def gnu : Text :=
  sub "first?" [[], sub "\\n" []] ++ sub "format" [txt "gnu-one-entry"]

/-- `gnu-one-entry` -/
def gnuOneEntry : Text :=
  sub "format" [txt "check-existence"] ++
    sub "ifdisplay?" [sub "name" [] ++ txt " (" ++ sub "index" [] ++ txt "):" ++
  sub "\\n" [] ++
  sub "addr?" [txt "  inet address " ++ sub "tab" [txt "16"] ++ sub "addr" [] ++ sub "\\n" []] ++
  sub "netmask?" [txt "  netmask " ++ sub "tab" [txt "16"] ++ sub "netmask" [] ++ sub "\\n" []] ++
  sub "brdaddr?" [txt "  broadcast " ++ sub "tab" [txt "16"] ++ sub "brdaddr" [] ++ sub "\\n" []] ++
  sub "dstaddr?"
  [txt "  peer address " ++ sub "tab" [txt "16"] ++ sub "dstaddr" [] ++ sub "\\n" []] ++
  sub "flags?" [txt "  flags " ++ sub "tab" [txt "16"] ++ sub "flags" [] ++ sub "\\n" []] ++
  sub "mtu?" [txt "  mtu " ++ sub "tab" [txt "16"] ++ sub "mtu" [] ++ sub "\\n" []] ++
  sub "metric?" [txt "  metric " ++ sub "tab" [txt "16"] ++ sub "metric" [] ++ sub "\\n" []] ++
  sub "exists?"
  [txt "hwtype?", sub "hwtype?" [txt "  link encap " ++ sub "tab" [txt "16"] ++ sub "hwtype" [] ++
  sub "\\n" []]] ++
  sub "exists?" [txt "hwaddr?", sub "hwaddr?" [txt "  hardware addr " ++ sub "tab" [txt "16"] ++
  sub "hwaddr" [] ++ sub "\\n" []]] ++
  sub "exists?" [txt "txqlen?", sub "txqlen?" [txt "  tx queue len " ++
  sub "tab" [txt "16"] ++ sub "txqlen" [] ++ sub "\\n" []]]]

/-- `net-tools` -/
def netTools : Text :=
  sub "format" [txt "check-existence"] ++
    sub "ifdisplay?" [sub "name" [] ++ sub "exists?" [txt "hwtype?",
  sub "hwtype?" [sub "tab" [txt "10"] ++ txt "Link encap:" ++ sub "hwtype" []] ++
  sub "hwaddr?" [txt "  HWaddr " ++
  sub "hwaddr" []]] ++ sub "\\n" [] ++
  sub "addr?" [sub "tab" [txt "10"] ++ txt "inet addr:" ++ sub "addr" [] ++
  sub "brdaddr?" [txt "  Bcast:" ++ sub "brdaddr" []] ++
  sub "netmask?" [txt "  Mask:" ++ sub "netmask" []] ++
  sub "newline" []] ++ sub "tab" [txt "10"] ++ sub "flags" [] ++
  sub "mtu?" [txt "  MTU:" ++ sub "mtu" []] ++
  sub "metric?" [txt "  Metric:" ++ sub "metric" []] ++ sub "exists?" [txt "ifstat?",
  sub "ifstat?"
  [sub "newline" [] ++ txt "          RX packets:" ++ sub "rxpackets" [] ++ txt " errors:" ++
  sub "rxerrors" [] ++ txt " dropped:" ++ sub "rxdropped" [] ++ txt " overruns:" ++
  sub "rxfifoerr" [] ++
  txt " frame:" ++ sub "rxframeerr" [] ++ sub "newline" [] ++ txt "          TX packets:" ++
  sub "txpackets" [] ++
  txt " errors:" ++ sub "txerrors" [] ++ txt " dropped:" ++ sub "txdropped" [] ++
  txt " overruns:" ++
  sub "txfifoerr" [] ++ txt " carrier:" ++ sub "txcarrier" [] ++ sub "newline" [] ++
  txt "          collisions:" ++
  sub "collisions" [] ++
  sub "exists?" [txt "txqlen?", sub "txqlen?" [txt " txqueuelen:" ++ sub "txqlen" []]] ++
  sub "newline" [] ++ txt "          RX bytes:" ++ sub "rxbytes" [] ++ txt "  TX bytes:" ++
  sub "txbytes" []],
  sub "newline" [] ++
  sub "exists?" [txt "txqlen?", sub "txqlen?" [txt " " ++ sub "tab" [txt "10"] ++
  txt "txqueuelen:" ++ sub "txqlen" []] ++ sub "\\n" []]] ++ sub "newline" [] ++
  sub "exists?" [txt "map?",
  sub "map?"
  [sub "irq?"
    [txt "          Interrupt:" ++ sub "irq" [] ++ sub "baseaddr?" [txt " Base address:0x" ++
  sub "baseaddr" [txt "%x"]] ++
  sub "memstart?" [txt " Memory:" ++ sub "memstart" [txt "%lx"] ++ txt "-" ++
  sub "memend" [txt "%lx"]] ++ sub "dma?" [txt " DMA chan:" ++ sub "dma" [txt "%x"]] ++
  sub "newline" []]]] ++ sub "newline" []]

def netstat : Text :=
  sub "first?"
    [txt "Iface    MTU Met    RX-OK RX-ERR RX-DRP RX-OVR    TX-OK TX-ERR TX-DRP TX-OVR Flg" ++
  sub "newline" []] ++ sub "format" [txt "check-existence"] ++ sub "name" [] ++
  sub "tab" [txt "6"] ++
  sub "mtu" [txt "%6d"] ++ txt " " ++ sub "metric" [txt "%3d"] ++ sub "ifstat?" [txt " " ++
  sub "rxpackets" [txt "%8lu"] ++ txt " " ++ sub "rxerrors" [txt "%6lu"] ++ txt " " ++
  sub "rxdropped" [txt "%6lu"] ++
  txt " " ++ sub "rxfifoerr" [txt "%6lu"] ++ txt " " ++ sub "txpackets" [txt "%8lu"] ++ txt " " ++
  sub "txerrors" [txt "%6lu"] ++ txt " " ++ sub "txdropped" [txt "%6lu"] ++ txt " " ++
  sub "txfifoerr" [txt "%6lu"],
  txt "   - no statistics available -"] ++ sub "tab" [txt "76"] ++ txt " " ++
  sub "flags?" [sub "flags" [txt "short"], txt "[NO FLAGS]"] ++ sub "newline" []

def unix : Text :=
  sub "format" [txt "check-existence"] ++ sub "ifdisplay?" [sub "name" [] ++ txt ": flags=" ++
  sub "flags" [txt "number", txt "%hx"] ++ txt "<" ++
  sub "flags" [txt "string", txt ","] ++ txt ">" ++
  sub "mtu?" [txt " mtu " ++ sub "mtu" []] ++ sub "\\n" [] ++
  sub "addr?" [sub "\\t" [] ++ txt "inet " ++
  sub "addr" [] ++ txt " netmask " ++ sub "netmask" [txt "0", txt "%#02x"] ++
  sub "netmask" [txt "1", txt "%02x"] ++
  sub "netmask" [txt "2", txt "%02x"] ++ sub "netmask" [txt "3", txt "%02x"] ++
  sub "brdaddr?" [txt " broadcast " ++
  sub "brdaddr" []] ++ sub "\\n" []] ++ sub "exists?" [txt "hwtype?", sub "hwtype?" [sub "\\t" [] ++
  sub "hwtype" []] ++ sub "exists?" [txt "hwaddr?", sub "hwaddr?" [txt " " ++ sub "hwaddr" []]] ++
  sub "\\n" []]]

def osf : Text :=
  sub "format" [txt "check-existence"] ++ sub "ifdisplay?" [sub "name" [] ++ txt ": flags=" ++
  sub "flags" [txt "number", txt "%x"] ++ txt "<" ++ sub "flags" [txt "string", txt ","] ++
  txt ">" ++ sub "\\n" [] ++
  sub "addr?"
  [sub "\\t" [] ++ txt "inet " ++ sub "addr" [] ++ txt " netmask " ++ sub "netmask" [txt "0",
  txt "%02x"] ++ sub "netmask" [txt "1", txt "%02x"] ++ sub "netmask" [txt "2", txt "%02x"] ++
  sub "netmask" [txt "3",
  txt "%02x"] ++ sub "brdaddr?" [txt " broadcast " ++ sub "brdaddr" []] ++
  sub "mtu?" [txt " ipmtu " ++ sub "mtu" []] ++ sub "\\n" []]]

/-- `check-existence` -/
def checkExistence : Text :=
  sub "index?" [[], sub "error" [sub "progname" [] ++ txt ": error: interface `" ++ sub "name" [] ++
  txt "' does not exist" ++ sub "\\n" []] ++ sub "exit" [txt "1"]]

/-- `help` -/
def helpFormat : Text :=
  sub "foreachformat" [sub "name" [] ++ txt ":" ++ sub "tab" [txt "17"] ++ sub "docstr" [] ++
  sub "verbose?"
  [sub "newline" [] ++ sub "rep" [txt "79", txt "-"] ++ sub "newline" [] ++ sub "defn" [] ++
  sub "newline" []] ++ sub "newline" []] ++ sub "exit" [txt "0"]

/-- `struct format`, without the documentation. -/
structure Format where
  name : Text
  templ : Text

def formats : List Format :=
  [⟨txt "default", defaultFormat⟩, ⟨txt "gnu", gnu⟩, ⟨txt "gnu-one-entry", gnuOneEntry⟩,
    ⟨txt "net-tools", netTools⟩,
    ⟨txt "netstat", netstat⟩, ⟨txt "unix", unix⟩, ⟨txt "osf", osf⟩,
    ⟨txt "check-existence", checkExistence⟩, ⟨txt "help", helpFormat⟩]

def format_find (name : Text) : Option Format := formats.find? fun frm => frm.name = name

/-! ### No format comes back to itself -/

/-- The formats whose name stands in braces are the `i`th of the table or come behind it. -/
def Later (i : ℕ) (l : Text) : Prop :=
  ∀ j frm, formats[j]? = some frm → 123 :: (frm.name ++ [125]) <:+: l ++ [125] → i ≤ j

variable {i : ℕ} {l : Text} {frm : Format}

theorem Later.of_braced {m : Text} (h : Later i l) (hm : m ++ [125] <:+: l ++ [125]) : Later i m :=
  fun j frm hj hin => h j frm hj (hin.trans hm)

def named : Text → List Text
  | [] => []
  | c :: l => if c = 123 ∧ 125 ∈ l then l.takeWhile (· ≠ 125) :: named l else named l

theorem mem_named {y : Text} (hy : 125 ∉ y) (h : 123 :: (y ++ [125]) <:+: l) : y ∈ named l := by
  induction l with
  | nil => cases eq_nil_of_infix_nil h
  | cons c l ih =>
    rw [named]
    rcases infix_cons_iff.1 h with hpre | hin
    · obtain ⟨rfl, r, rfl⟩ := cons_prefix_cons.1 hpre
      have htake : (y ++ [125] ++ r).takeWhile (· ≠ 125) = y := by
        rw [append_assoc,
          takeWhile_append_of_pos fun b hb => decide_eq_true (ne_of_mem_of_not_mem hb hy),
          singleton_append, takeWhile_cons_of_neg (by simp), append_nil]
      rw [if_pos ⟨rfl, by simp⟩, htake]
      exact mem_cons_self
    · split
      · exact mem_cons_of_mem _ (ih hin)
      · exact ih hin

theorem not_mem_name : ∀ frm ∈ formats, 125 ∉ frm.name := by decide +kernel

theorem lt_of_mem_named : ∀ p ∈ formats.zipIdx, ∀ y ∈ named (p.1.templ ++ [125]),
    ∀ q ∈ formats.zipIdx, q.1.name = y → p.2 < q.2 := by decide +kernel

theorem later_templ (h : formats[i]? = some frm) : Later (i + 1) frm.templ := by
  intro j frm' hj hin
  have hname := mem_named (not_mem_name frm' (mem_of_getElem? hj)) hin
  exact lt_of_mem_named (frm, i) (mem_zipIdx_iff_getElem?.2 h) _ hname (frm', j)
    (mem_zipIdx_iff_getElem?.2 hj) rfl

theorem later_zero (l : Text) : Later 0 l := fun j _ _ _ => Nat.zero_le j

/-! ### How deep a template goes -/

def bound : ℕ := (formats.map fun frm => frm.templ.length).sum + 1

/-- How many expansions may go on within each other, for a template that names the formats from the
`i`th on. -/
def levels (i : ℕ) (l : Text) : ℕ := (formats.length - i) * bound + l.length

theorem length_templ_le {frms : List Format} (h : frm ∈ frms) :
    frm.templ.length ≤ (frms.map fun frm => frm.templ.length).sum :=
  single_le_sum (fun n _ => Nat.zero_le n) _ (mem_map_of_mem h)

theorem length_templ_lt (h : frm ∈ formats) : frm.templ.length < bound := by
  exact Nat.lt_add_one_of_le (length_templ_le h)

theorem braced_lower {y : Text} (hl : Later i l) (hy : 123 :: (y ++ [125]) <:+: l ++ [125]) :
    Later i y ∧ levels i y < levels i l := by
  have hlen := hy.length_le
  simp only [length_cons, length_append, length_nil] at hlen
  refine ⟨hl.of_braced ((suffix_cons 123 _).isInfix.trans hy), ?_⟩
  unfold levels
  omega

theorem find_lower {y : Text} (hl : Later i l) (hy : 123 :: (y ++ [125]) <:+: l ++ [125])
    (h : format_find y = some frm) : ∃ j, Later j frm.templ ∧ levels j frm.templ < levels i l := by
  have hmem := mem_of_find?_eq_some h
  have hfind := find?_some h
  have hname : frm.name = y := of_decide_eq_true hfind
  obtain ⟨j, hj⟩ := mem_iff_getElem?.1 hmem
  have hle : i ≤ j := hl j frm hj (by rwa [hname])
  have hlt : j < formats.length := (List.getElem?_eq_some_iff.1 hj).1
  have hlen := length_templ_lt hmem
  refine ⟨j + 1, later_templ hj, ?_⟩
  have hmul : (formats.length - (j + 1)) * bound + bound ≤ (formats.length - i) * bound := by
    rw [← Nat.succ_mul]
    exact Nat.mul_le_mul_right _ (by omega)
  unfold levels
  omega

end Inetutils.Ifconfig.Formats
