import Inetutils.Telnet.Suboption
import Inetutils.Telnetd.Suboption

/-! # The name of the terminal

`getterminaltype` of `telnetd/utility.c` asks the client for names until it knows one, or is told
one twice in a row, and `gettermname` of `telnet/telnet.c` goes through its list for the answers. A
name goes as a suboption from `suboption` of the client to that of the server. -/

namespace Inetutils.Session.Terminals

open Lib.Letters Lib.Traced Lib.Cyclic List
open Telnet.Proto Telnet.Items
open Telnetd.Telrcv Telnetd.Suboption

abbrev Text := List Byte

/-! ### The client -/

/-- The variables of `gettermname` when the list has been made: the names in front of the null
pointer, and the place `next`. -/
structure Names where
  tnamep : List Text
  next : ℕ

def gettermname (s : Names) : Names × Text :=
  let next := if s.tnamep.length ≤ s.next then 0 else s.next
  ({ s with next := next + 1 }, s.tnamep.getD next [])

def names : ℕ → Names → List Text
  | 0, _ => []
  | n + 1, s => (gettermname s).2 :: names n (gettermname s).1

/-! ### The server -/

/-- An answer to SEND: a name, a suboption without one, or that the option is turned off. -/
inductive Answer
  | is (name : Text)
  | other
  | wont
  deriving DecidableEq

/-- `terminaltype` after an answer. -/
def Answer.name (terminaltype : Text) : Answer → Text
  | .is name => name
  | _ => terminaltype

section
variable (known : Text → Bool)

/-- The loop, with `first` and `terminaltype`, which is not known; nothing comes of it while an
answer is awaited. When the option is off nothing is asked. -/
def loop (first : Text) : List Answer → Text → Option Text
  | [], _ => none
  | a :: l, last =>
    let terminaltype := a.name last
    if known terminaltype then some terminaltype
    else if last = terminaltype ∨ a = .wont then
      if first = terminaltype then some terminaltype
      else if a = .wont then some first
      else match l with
        | [] => none
        | b :: _ => some (if first = b.name terminaltype then b.name terminaltype else first)
    else loop first l terminaltype

/-- The part of `getterminaltype` for TTYPE, behind the WILL of the client: `terminaltype`, which is
null at first, and which is right for `terminaltypeok` then. `known`: what `tgetent` says. -/
def getterminaltype : List Answer → Option (Option Text)
  | [] => none
  | .is name :: l => if known name then some (some name) else (loop known name l name).map some
  | _ :: _ => some none

end

/-! ### The suboptions between them -/

/-- The calls that `suboption` of the server makes. -/
def actions (x : Run Unit) : List Action :=
  x.trace.filterMap fun
    | .act a => some a
    | _ => none

/-- What `suboption` of the server makes of a payload. -/
def hears (md : Modes) (old : ℕ → Byte) (p : List Byte) : Answer :=
  match (actions (suboption md (filled old p SE).mem (subend old p SE))).getLast? with
  | some (.terminaltype l) => .is l
  | _ => .other

def payload (l : List Byte) : List Byte := (cutSub (l.drop 2)).1

/-- What the client sends for SEND, as the server understands it. -/
def told (md : Modes) (old : ℕ → Byte) (name : Text) : Answer :=
  hears md old (payload (IAC :: SB :: TELOPT_TTYPE :: TELQUAL_IS :: (name ++ [IAC, SE])))

/-- As `mklist` leaves the names: short, and without an `IAC`. -/
def Sendable (name : Text) : Prop := IAC ∉ name ∧ 0 ∉ name ∧ name.length ≤ 40

variable {name : Text} {ns : List Text}

theorem cutSub_name (h : IAC ∉ name) : cutSub (name ++ [IAC, SE]) = (name, some (SE, [])) := by
  induction name with
  | nil => rfl
  | cons c name ih =>
    rw [mem_cons, not_or] at h
    have hne : name ++ [IAC, SE] ≠ [] := append_ne_nil_of_right_ne_nil _ (by decide)
    rw [cons_append, cutSub_cons (Ne.symm h.1) hne, ih h.2]

section
variable {mem : ℕ → Byte}

theorem actions_load_bind {i : ℕ} (hi : i < subbufferSize) (f : Byte → Run Unit) :
    actions (load mem i >>= f) = actions (f (mem i)) := by
  rw [load_of_lt mem hi, bind_of_some rfl]
  rfl

theorem actions_emit_bind (a : Action) (f : Unit → Run Unit) :
    actions (emit (.act a) >>= f) = a :: actions (f ()) := rfl

theorem actions_loads_bind {e : ℕ} (he : e ≤ subbufferSize) (f : Unit → Run Unit) :
    ∀ n p, actions (loads mem e n p >>= f) = actions (f ())
  | 0, p => by
    rw [loads, bind_of_some rfl]
    rfl
  | n + 1, p => by
    have hvalue := (gives_loads mem he (n + 1) p).2
    have htail := actions_loads_bind he f n (p + 1)
    rw [bind_of_some (gives_loads mem he n (p + 1)).2] at htail
    rw [bind_of_some hvalue, loads]
    split
    next hp =>
      rw [load_of_lt mem (lt_of_lt_of_le hp he), bind_of_some rfl]
      exact htail
    next => rfl

end

/-- **A name reaches the server**, in lower case. -/
theorem told_eq {md : Modes} (hmd : md.hisTtype = true) (old : ℕ → Byte) (h : Sendable name) :
    told md old name = .is (name.map tolower) := by
  obtain ⟨hiac, h0, hlen⟩ := h
  have hpayload : payload (IAC :: SB :: TELOPT_TTYPE :: TELQUAL_IS :: (name ++ [IAC, SE])) =
      TELOPT_TTYPE :: TELQUAL_IS :: name := by
    have hne : name ++ [IAC, SE] ≠ [] := append_ne_nil_of_right_ne_nil _ (by decide)
    rw [payload, drop_succ_cons, drop_succ_cons, drop_zero,
      cutSub_cons (by decide) (cons_ne_nil _ _), cutSub_cons (by decide) hne, cutSub_name hiac]
  rw [told, hpayload, hears]
  generalize hp : TELOPT_TTYPE :: TELQUAL_IS :: name = p
  have hplen : p.length = name.length + 2 := by rw [← hp]; rfl
  have hsub : subend old p SE = name.length + 2 := by
    rw [subend_eq]
    omega
  have hmem : ∀ i (hi : i < p.length), (filled old p SE).mem i = p[i] := fun i hi =>
    mem_filled_payload old p SE (by omega) hi
  have hread : read (filled old p SE).mem 2 (subend old p SE - 2) = name := by
    refine ext_getElem (by rw [length_read, hsub]; rfl) fun i h1 h2 => ?_
    have hi : (read (filled old p SE).mem 2 (subend old p SE - 2))[i] =
      (filled old p SE).mem (2 + i) := by
      simp [Lib.Cyclic.read]
    rw [hi, hmem (2 + i) (by omega)]
    simp [← hp, Nat.add_comm 2 i]
  have hzero : ∀ b ∈ name.map tolower, (b ≠ 0 : Bool) = true := by
    intro b hb
    obtain ⟨c, hc, rfl⟩ := mem_map.1 hb
    exact decide_eq_true (tolower_ne_zero fun h => h0 (h ▸ hc))
  have hact : actions (suboption md (filled old p SE).mem (subend old p SE)) =
      [.settimer TELOPT_TTYPE, .terminaltype (name.map tolower)] := by
    have hfirst : (filled old p SE).mem 0 = TELOPT_TTYPE := by
      rw [hmem 0 (by omega)]
      simp [← hp]
    have hsecond : (filled old p SE).mem 1 = TELQUAL_IS := by
      rw [hmem 1 (by omega)]
      simp [← hp]
    have hend : subend old p SE ≤ subbufferSize := by
      rw [hsub]
      exact Nat.le_trans (Nat.add_le_add_right hlen 2) (by decide)
    rw [suboption, actions_load_bind (by decide), hfirst, if_neg (by decide), if_pos rfl,
      ttype, if_pos hmd,
      actions_emit_bind, if_neg (by omega), actions_load_bind (by decide), hsecond,
      if_neg (by decide), actions_loads_bind hend, hread, takeWhile_eq_self_iff.2 hzero]
    rfl
  rw [hact]
  rfl

/-! ### The list of the client -/

/-- The names of the client, and the list for them: `mklist` has the last one twice, `unknown` is a
list of one. -/
inductive Listed : List Text → List Text → Prop
  | unknown (name : Text) : Listed [name] [name]
  | mklist (ns : List Text) (name : Text) : Listed (ns ++ [name]) (ns ++ [name, name])

theorem names_rest (n : ℕ) : ∀ l r : List Text,
    names (r.length + n) ⟨l ++ r, l.length⟩ = r ++ names n ⟨l ++ r, (l ++ r).length⟩
  | l, [] => by rw [append_nil, length_nil, zero_add, nil_append]
  | l, a :: r => by
    have ih := names_rest n (l ++ [a]) r
    have hlt : ¬ (l ++ a :: r).length ≤ l.length := by simp
    rw [append_assoc, singleton_append, length_append, length_singleton] at ih
    rw [length_cons, add_right_comm, names, gettermname]
    dsimp only
    rw [if_neg hlt, ih]
    simp

theorem names_again (n : ℕ) (l : List Text) : names n ⟨l, l.length⟩ = names n ⟨l, 0⟩ := by
  cases n with
  | zero => rfl
  | succ n => simp [names, gettermname]

theorem names_listed {l : List Text} (h : Listed ns l) (n : ℕ) :
    ∃ x y r, ns.getLast? = some x ∧ names (ns.length + 2 + n) ⟨l, 0⟩ = ns ++ x :: y :: r := by
  have hall (l : List Text) (n : ℕ) : names (l.length + n) ⟨l, 0⟩ = l ++ names n ⟨l, 0⟩ :=
    (names_rest n [] l).trans (congrArg (l ++ ·) (names_again n l))
  cases h with
  | unknown name =>
    refine ⟨name, name, names n ⟨[name], 0⟩, rfl, ?_⟩
    have hk : [name].length + 2 + n = [name].length + ([name].length + ([name].length + n)) := by
      simp only [length_singleton]
      omega
    rw [hk, hall, hall, hall]
    rfl
  | mklist ns name =>
    obtain ⟨y, r, hr⟩ : ∃ y r, names (1 + n) ⟨ns ++ [name, name], 0⟩ = y :: r :=
      ⟨_, _, by rw [add_comm, names]⟩
    have hk : (ns ++ [name]).length + 2 + n = (ns ++ [name, name]).length + (1 + n) := by
      simp only [length_append, length_cons, length_nil]
      omega
    refine ⟨name, y, r, getLast?_concat, ?_⟩
    rw [hk, hall, hr]
    simp

/-! ### What the server takes -/

section
variable {known : Text → Bool}

theorem loop_is (first name last : Text) (l : List Answer) :
    loop known first (.is name :: l) last =
      if known name then some name
      else if last = name then
        if first = name then some name
        else match l with
          | [] => none
          | b :: _ => some (if first = b.name name then b.name name else first)
      else loop known first l name := by
  have hname : (Answer.is name).name last = name := rfl
  rw [loop.eq_def]
  simp only [hname, reduceCtorEq, or_false, if_false]

theorem loop_names {first x : Text} {b : Answer} {r : List Answer} {last : Text}
    (hlast : known last = false) (hnodup : (last :: ns).Nodup)
    (hx : (last :: ns).getLast? = some x) :
    loop known first (ns.map .is ++ .is x :: b :: r) last = some ((ns.find? known).getD first) := by
  induction ns generalizing last with
  | nil =>
    have hx : last = x := by simpa using hx
    subst hx
    rw [map_nil, nil_append, loop_is, if_neg (by simp [hlast]), if_pos rfl]
    split
    next heq =>
      rw [heq]
      rfl
    next =>
      dsimp only
      split
      next heq =>
        rw [← heq]
        rfl
      next => rfl
  | cons n ns ih =>
    have hne : last ≠ n := fun h => (nodup_cons.1 hnodup).1 (h ▸ mem_cons_self)
    rw [map_cons, cons_append, loop_is]
    by_cases hn : known n = true
    · rw [if_pos hn, find?_cons_of_pos hn]
      rfl
    · rw [if_neg hn, if_neg hne, find?_cons_of_neg hn]
      exact ih (by simpa using hn) (nodup_cons.1 hnodup).2 (by rwa [getLast?_cons_cons] at hx)

/-- **The terminal type**: of the names that the client has, the server takes the first one that it
knows, or the first one when it knows none, and asks for two more than there are names at most. -/
theorem getterminaltype_listed {md : Modes} (hmd : md.hisTtype = true) (old : ℕ → Byte)
    {l : List Text} (h : Listed ns l) (hs : ∀ name ∈ ns, Sendable name)
    (hnodup : (ns.map (List.map tolower)).Nodup) {k : ℕ} (hk : ns.length + 2 ≤ k) :
    getterminaltype known ((names k ⟨l, 0⟩).map (told md old)) =
      some ((ns.map (List.map tolower)).find? known <|> (ns.map (List.map tolower)).head?) := by
  obtain ⟨k, rfl⟩ := Nat.exists_eq_add_of_le hk
  obtain ⟨x, y, r, hx, hnames⟩ := names_listed h k
  have htold : (ns ++ x :: y :: r).map (told md old) = (ns.map (List.map tolower)).map .is ++
      .is (x.map tolower) :: told md old y :: r.map (told md old) := by
    rw [map_append, map_congr_left fun name hname => told_eq hmd old (hs name hname), map_cons,
      map_cons, told_eq hmd old (hs x (mem_of_getLast? hx)), map_map]
    rfl
  rw [hnames, htold]
  rcases ns with - | ⟨n, ns⟩
  · cases hx
  · have hlast :
        ((n.map tolower) :: ns.map (List.map tolower)).getLast? = some (x.map tolower) := by
      rw [← map_cons (f := List.map tolower), getLast?_map, hx]
      rfl
    simp only [map_cons, cons_append, getterminaltype]
    by_cases hn : known (n.map tolower) = true
    · rw [if_pos hn, find?_cons_of_pos hn]
      rfl
    · rw [if_neg hn, find?_cons_of_neg hn, loop_names (by simpa using hn) hnodup hlast]
      cases (ns.map (List.map tolower)).find? known <;> rfl

end

theorem getterminaltype_vt100 :
    getterminaltype (· == [118])
    ((names 4 ⟨[[88], [86], [86]], 0⟩).map (told ⟨true, true, true, true, true⟩ fun _ => 0)) =
      some (some [118]) :=
  getterminaltype_listed rfl _ (.mklist [[88]] [86]) (by unfold Sendable; decide) (by decide)
    (Nat.le_refl 4)

end Inetutils.Session.Terminals
