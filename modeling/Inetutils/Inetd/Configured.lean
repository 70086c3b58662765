import Inetutils.Inetd.Getconfigent
import Inetutils.Inetd.Reload

/-! # What is configured for a line

What an entry of inetd is made of: whenever `getconfigent` returns one, it should be what its line
and the node in effect give, and the vector of an entry of the table should hold the words of its
line, with a NULL behind them. -/

namespace Inetutils.Inetd.Configured

open Table hiding State
open Lines Getconfigent Telnetd.Argcv
open Reload (purgeTab_fst)
open Lib.Cells Lib.Runs

variable {words : List Text}

/-! ### What is configured -/

/-- The memory of a vector holds the words, with a NULL behind them. -/
def Holds (vec : Vec) (words : List Text) : Prop := vec.bind untilNull = some (arguments words)

def Given (ipv6 : Bool) (s : State) : Phase → Prop
  | .returned sep _ =>
    (entries (meant s.words ipv6 s.addr))[s.nth]? = some sep.given ∧ Holds sep.vec s.words
  | .stray _ => False
  | .undefined => False
  | _ => True

structure Proper (ipv6 : Bool) (s : State) : Prop where
  returned : Given ipv6 s s.phase
  entered : ∀ m ∈ s.mem, ∀ words, m.words = some words → Holds m.vec words

/-! ### What the steps have to meet -/

/-- What an entry of the table was entered for is what its vector holds. -/
def Right (m : Memory) : Prop := ∀ words, m.words = some words → Holds m.vec words

/-- The vector of the static entry has not been taken, or there is none. -/
def Kept (words : List Text) (sep : Serv) : Prop :=
  sep.vec ≠ none → sep.vec = some (vector words) ∧ sep.argc = argc words

section

variable {words : List Text} {sep : Serv} {tab : Table.State} {mem : List Memory}

def place (sep : Serv) (tab : Table.State) : ℕ := tab.servtab.findIdx (·.key = sep.conf.key)

theorem enterMem_of_lt (mem : List Memory) (words : Option (List Text))
    (h : place sep tab < tab.servtab.length) :
    ∃ e, enterMem words sep tab mem =
    (⟨sep.conf.swapped e, 0, none⟩, mem.set (place sep tab) ⟨sep.vec, words⟩) ∧
      (enter sep.conf tab).2.2.servtab = tab.servtab.set (place sep tab) (sep.conf.redone e) := by
  have he := List.getElem?_eq_getElem h
  unfold place at he
  refine ⟨tab.servtab[place sep tab], ?_, ?_⟩
  · unfold enterMem enter
    simp only [he]
    rfl
  · unfold enter
    simp only [he]
    rfl

theorem enterMem_of_ge (mem : List Memory) (words : Option (List Text))
    (h : tab.servtab.length ≤ place sep tab) :
    enterMem words sep tab mem = (sep, ⟨dupmem sep.vec sep.argc, words⟩ :: mem) ∧
      (enter sep.conf tab).2.2.servtab = sep.conf.added :: tab.servtab := by
  have he := List.getElem?_eq_none h
  unfold place at he
  constructor
  · unfold enterMem enter
    simp only [he]
  · unfold enter
    simp only [he]

theorem enterMem_fst (words : Option (List Text)) (sep : Serv) (tab : Table.State)
    (mem : List Memory) :
    (enterMem words sep tab mem).1 = sep ∨ (enterMem words sep tab mem).1.vec = none := by
  rcases lt_or_ge (place sep tab) tab.servtab.length with hlt | hge
  · obtain ⟨e, he, -⟩ := enterMem_of_lt mem words hlt
    rw [he]
    exact .inr rfl
  · rw [(enterMem_of_ge mem words hge).1]
    exact .inl rfl

end

/-! ### The static entry -/

/-- The nodes that are left of `serv_node`. -/
def restNodes : Option Text → List (Option Text)
  | none => []
  | some rest => (nodes rest).map some

theorem nodes_eq (servNode : Text) :
    (nodes servNode).map some = some (nextNode servNode).1 :: restNodes (nextNode servNode).2 := by
  rw [nodes]
  split
  · rename_i h
    rw [h]
    rfl
  · rename_i rest h
    rw [h]
    rfl

/-- The static entry is that of a line, for the node that was used last, as long as its vector has
not been taken. -/
structure Static (ipv6 : Bool) (words : List Text) (addr : Option Text) (nth : ℕ) (servNode :
    Option Text) (sep : Serv) :
    Prop where
  long : fieldsMin ≤ words.length
  kept : Kept words sep
  rest : ∃ conf, lineConf words ipv6 = some conf ∧
    (entries (meant words ipv6 addr)).drop (nth + 1) = (restNodes servNode).map conf.atNode
  given : sep.vec ≠ none → (entries (meant words ipv6 addr))[nth]? = some sep.given

abbrev Fits (ipv6 : Bool) (s : State) (sep : Serv) : Prop :=
  Static ipv6 s.words s.addr s.nth s.servNode sep

/-- What every step keeps that is as `Met` admits. -/
structure Inv (ipv6 : Bool) (s : State) : Prop where
  length : s.mem.length = s.tab.servtab.length
  addr : ∀ node, s.addr = some node → s.globalNode = .set node
  fits : ∀ sep, s.phase.serv = some sep → Fits ipv6 s sep

theorem inv_init (ipv6 : Bool) : Inv ipv6 State.init where
  length := rfl
  addr _ h := absurd h.symm (Option.some_ne_none _)
  fits _ h := absurd h.symm (Option.some_ne_none _)

section

variable {ipv6 : Bool} {s : State} {sep sep' : Serv}

theorem mem_entries {conf c : Conf} {addr : Option Text} {i : ℕ}
    (hconf : lineConf words ipv6 = some conf)
    (h : (entries (meant words ipv6 addr))[i]? = some c) : ∃ node, c = conf.atNode node := by
  rw [meant, hconf] at h
  obtain ⟨node, -, rfl⟩ := List.mem_map.1 (List.mem_of_getElem? h)
  exact ⟨node, rfl⟩

theorem Fits.replace (h : Fits ipv6 s sep)
    (h' : sep'.vec = none ∨ sep'.vec = sep.vec ∧ sep'.argc = sep.argc ∧ sep'.given = sep.given) :
    Fits ipv6 s sep' where
  long := h.long
  kept hv := by
    obtain ⟨hvec, hargc, -⟩ := h'.resolve_left hv
    rw [hvec, hargc]
    exact h.kept (hvec ▸ hv)
  rest := h.rest
  given hv := by
    obtain ⟨hvec, -, hgiven⟩ := h'.resolve_left hv
    rw [hgiven]
    exact h.given (hvec ▸ hv)

theorem Fits.enterMem (h : Fits ipv6 s sep) (words : Option (List Text)) (tab : Table.State)
    (mem : List Memory) :
    Fits ipv6 s (enterMem words sep tab mem).1 := by
  rcases enterMem_fst words sep tab mem with he | he
  · rwa [he]
  · exact h.replace (.inl he)

theorem Fits.atAddr (h : Fits ipv6 s sep) (addr : Text) : Fits ipv6 s (sep.atAddr addr) :=
  h.replace (.inr ⟨rfl, rfl, rfl⟩)

theorem Fits.check (h : Fits ipv6 s sep) : Fits ipv6 s sep.check := h.replace (.inr ⟨rfl, rfl, rfl⟩)

theorem Fits.ofFamily (h : Fits ipv6 s sep) (w : World) :
    Fits ipv6 s (sep.ofFamily (addresses w sep.conf.query).1) := by
  by_cases hv : sep.vec = none
  · exact h.replace (.inl hv)
  obtain ⟨conf, hconf, -⟩ := h.rest
  obtain ⟨node, hnode⟩ := mem_entries hconf (h.given hv)
  have hblank : ¬ (sep.conf.family = .inet6 ∧ sep.conf.v4mapped = true) := by
    have hfamily : sep.conf.family = conf.family := congrArg (·.family) hnode
    have hmapped : sep.conf.v4mapped = conf.v4mapped := congrArg (·.v4mapped) hnode
    rw [hfamily, hmapped]
    exact (lineConf_blank hconf).2.2.2
  have hsame : (addresses w sep.conf.query).1 = sep.conf.family := by
    unfold addresses
    split
    · rfl
    · split
      · rfl
      · rw [if_neg fun hc => hblank hc.2]
        rfl
  rw [hsame]
  exact h

theorem Fits.next (h : Fits ipv6 s sep) {nodes : Text} (hn : s.servNode = some nodes)
    (phase : Phase) :
    Fits ipv6 { s with phase := phase, servNode := (nextNode nodes).2, nth := s.nth + 1 }
      (nextNodeSep sep s.servNode).1 := by
  obtain ⟨conf, hconf, hrest⟩ := h.rest
  rw [hn, restNodes, nodes_eq, List.map_cons] at hrest
  rw [hn]
  refine ⟨h.long, h.kept, ⟨conf, hconf, ?_⟩, fun hv => ?_⟩
  · exact (List.drop_drop ..).symm.trans (congrArg (List.drop 1) hrest)
  · obtain ⟨node, hnode⟩ := mem_entries hconf (h.given hv)
    have hatNode : (nextNodeSep sep (some nodes)).1.given = conf.atNode (some (nextNode nodes).1) :=
      congrArg (Conf.atNode · (some (nextNode nodes).1)) hnode
    have hhead : ((entries (meant s.words ipv6 s.addr)).drop (s.nth + 1))[0]? =
        some (conf.atNode (some (nextNode nodes).1)) := by
      rw [hrest]
      rfl
    rw [hatNode, ← hhead, List.getElem?_drop]

end

/-! ### A line without arguments -/

end Inetutils.Inetd.Configured
