import Inetutils.Lib.Pieces
import Inetutils.Lib.Decimal
import Inetutils.Lib.Runs
import Inetutils.Telnetd.Argcv
import Mathlib.Data.BitVec

/-! # Access control of talkd

`talkd/acl.c`: the rules of the site, which are read at the start, and those of the addressee, which
are appended for one request and removed after it. `mark` is the last rule of the site, and NULL in
three cases: the site has none, the addressee is unknown, or there is no memory for the name of the
file. After a NULL `mark` the list is empty.

The rules are the chain from `acl_head`, and `acl_tail` is its last. The action of a rule that was
freed is `none`. `regcomp`, `regexec` and what reads addresses are those of the system. -/

namespace Inetutils.Talkd.Access

open Lib.Decimal Lib.Pieces Lib.Runs Telnetd.Argcv List Option

abbrev Text := List UInt8

abbrev Addr := BitVec 32

structure Libc (ρ : Type) where
  regcomp : Text → Option ρ
  regexec : ρ → Text → Bool
  inetAddr : Text → Addr
  inetNetwork : Text → Addr
  htonl : Addr → Addr

/-- `netdef_t` -/
structure Netdef where
  ipaddr : Addr
  netmask : Addr
  deriving DecidableEq

inductive Action
  | allow
  | deny
  deriving DecidableEq

/-- `acl_t` -/
structure Acl (ρ : Type) where
  re : ρ
  netlist : List Netdef
  action : Action

variable {ρ : Type} (C : Libc ρ)

/-! ### Reading a file -/

abbrev inaddrNone : Addr := 0xffffffff

abbrev dottedQuadLen : ℕ := 16

def readAddress (l : Text) : Text × Text :=
  (((l.takeWhile fun b => isDigit b || b == 46).take dottedQuadLen),
    l.drop ((l.takeWhile fun b => isDigit b || b == 46).take dottedQuadLen).length)

def strtoul (l : Text) : ℕ :=
  match l with
  | 48 :: l => (l.takeWhile fun b => 48 ≤ b && b ≤ 55).foldl (fun n b => 8 * n + digit b) 0
  | l => value 0 l

def prefixMask (len : ℕ) : Addr := (0xffffffff >>> (32 - len)) <<< (32 - len)

/-- `any` -/
abbrev anyWord : Text := [97, 110, 121]

def netdefParse (str : Text) : Option Netdef :=
  if str = anyWord then some ⟨0, 0⟩
  else if C.inetAddr (readAddress str).1 = inaddrNone then none
  else
    match (readAddress str).2 with
    | [] => some ⟨C.inetAddr (readAddress str).1, 0xffffffff⟩
    | 47 :: str' =>
      if 46 ∈ (readAddress str').1 then
        some ⟨C.inetAddr (readAddress str).1, C.htonl (C.inetNetwork (readAddress str').1)⟩
      else if strtoul (readAddress str').1 % 2 ^ 32 > 32 then none
      else some ⟨C.inetAddr (readAddress str).1,
        C.htonl (prefixMask (strtoul (readAddress str').1 % 2 ^ 32))⟩
    | _ => none

/-- `allow` and `deny` -/
def keyword (l : Text) : Option Action :=
  if l = [97, 108, 108, 111, 119] then some .allow else if l = [100, 101, 110, 121] then some .deny
  else none

def ruleOf : List Text → Option (Acl ρ)
  | word :: re :: nets => do
    let action ← keyword word
    let re ← C.regcomp re
    return ⟨re, nets.filterMap (netdefParse C), action⟩
  | _ => none

/-- A line in the buffer, up to its NUL and without its newline. -/
def bufLine (l : Text) : Text :=
  if (l.takeWhile (· ≠ 0)).getLast? = some 10 then (l.takeWhile (· ≠ 0)).dropLast
  else l.takeWhile (· ≠ 0)

def parseLine (l : Text) : Option (Acl ρ) :=
  match (bufLine l).dropWhile isspace with
  | [] => none
  | 35 :: _ => none
  | ptr => ruleOf C (argcvGet ptr [])

/-- The rules in a file, which `fgets` reads into 128 bytes at a time. -/
def readAcl (file : Option Text) : List (Acl ρ) :=
  match file with
  | none => []
  | some content => (pieces 10 127 127 content).filterMap (parseLine C)

/-! ### A request -/

/-- What `getpwnam` and `malloc` give, and `.talkrc`, if it can be opened. -/
inductive Addressee
  | unknown
  | noMemory
  | known (talkrc : Option Text)

/-- `l_name`, the address it was sent from, and the user `r_name`. -/
structure Request where
  lName : Text
  ip : Addr
  addressee : Addressee

def Request.userAcl (req : Request) : List (Acl ρ) :=
  match req.addressee with
  | .known talkrc => readAcl C talkrc
  | _ => []

def tail (rules : List (Acl ρ)) : Option ℕ := if rules = [] then none else some (rules.length - 1)

/-- `mark`, and the list. -/
def openUsersAcl (rules : List (Acl ρ)) (req : Request) : Option ℕ × List (Acl ρ) :=
  match req.addressee with
  | .known _ => (tail rules, rules ++ req.userAcl C)
  | _ => (none, rules)

def discardAcl (mark : Option ℕ) (rules : List (Acl ρ)) : List (Acl ρ) :=
  match mark with
  | some i => rules.take (i + 1)
  | none => []

/-- What comes after `mark` is freed. -/
def freed (mark : Option ℕ) (i : ℕ) : Bool :=
  match mark with
  | some m => m < i
  | none => false

/-- A network contains the addresses that are its own under the mask. -/
def Netdef.contains (net : Netdef) (ip : Addr) : Bool := net.ipaddr == ip &&& net.netmask

def applies (req : Request) (acl : Acl ρ) : Bool :=
  acl.netlist.any fun net => net.contains req.ip && C.regexec acl.re req.lName

/-- The action, which is read after `discard_acl`, and the list. -/
def aclMatch (rules : List (Acl ρ)) (req : Request) : Option Action × List (Acl ρ) :=
  let opened := openUsersAcl C rules req
  (match opened.2.findIdx? (applies C req) with
    | some i => if freed opened.1 i then none else opened.2[i]?.map Acl.action
    | none => some .allow,
    discardAcl opened.1 opened.2)

structure State (ρ : Type) where
  rules : List (Acl ρ)
  log : List (Request × Option Action)

def step (s : State ρ) (req : Request) : State ρ :=
  ⟨(aclMatch C s.rules req).2, s.log ++ [(req, (aclMatch C s.rules req).1)]⟩

/-- `read_acl (acl_file)` in `main`. -/
def start (file : Option Text) : State ρ := ⟨readAcl C file, []⟩

/-! ### The decision -/

/-- The first rule that applies, of the site and then of the addressee. -/
def decision (site : List (Acl ρ)) (req : Request) : Action :=
  (((site ++ req.userAcl C).find? (applies C req)).map Acl.action).getD .allow

/-- Every request was decided so, and the list is that of the site. -/
def Served (site : List (Acl ρ)) (s : State ρ) : Prop :=
  s.rules = site ∧ ∀ p ∈ s.log, p.2 = some (decision C site p.1)

/-- The site has no rules; or the addressee is known, there is memory, and none of his own rules is
the first that applies. -/
def Safe (site : List (Acl ρ)) (req : Request) : Prop :=
  site = [] ∨ (∃ talkrc, req.addressee = .known talkrc) ∧
    (site.any (applies C req) ∨ ¬ (req.userAcl C).any (applies C req))

section
variable {C : Libc ρ} {site : List (Acl ρ)} {req : Request}

variable {talkrc : Option Text}

theorem discard_known (h : req.addressee = .known talkrc) : (aclMatch C site req).2 = site := by
  unfold aclMatch openUsersAcl
  rw [h]
  unfold tail discardAcl
  split_ifs with hsite
  · exact hsite.symm
  · have hpos := length_pos_iff.2 hsite
    dsimp only
    rw [take_append_of_le_length (by omega), take_of_length_le (by omega)]

theorem discard_unknown (h : ∀ talkrc, req.addressee ≠ .known talkrc) :
    (aclMatch C site req).2 = [] := by
  unfold aclMatch openUsersAcl
  split
  · rename_i talkrc heq
    exact absurd heq (h talkrc)
  · rfl

/-- **The list is that of the site**, unless a NULL mark drops rules. -/
theorem rules_iff : (aclMatch C site req).2 = site ↔
    site = [] ∨ ∃ talkrc, req.addressee = .known talkrc := by
  by_cases h : ∃ talkrc, req.addressee = .known talkrc
  · obtain ⟨talkrc, htalkrc⟩ := h
    exact iff_of_true (discard_known htalkrc) (.inr ⟨talkrc, htalkrc⟩)
  · rw [discard_unknown fun talkrc heq => h ⟨talkrc, heq⟩, or_iff_left h]
    exact eq_comm

theorem opened_rules (C : Libc ρ) (site : List (Acl ρ)) (req : Request) :
    (openUsersAcl C site req).2 = site ++ req.userAcl C := by
  unfold openUsersAcl
  split
  · rfl
  · rename_i h
    unfold Request.userAcl
    split
    · rename_i talkrc heq
      exact absurd heq (h talkrc)
    · exact (append_nil site).symm

/-- **The decision is made**, unless the rule was freed. -/
theorem action_iff : (aclMatch C site req).1 = some (decision C site req) ↔
    ∀ i, (site ++ req.userAcl C).findIdx? (applies C req) = some i →
    freed (openUsersAcl C site req).1 i = false := by
  unfold aclMatch decision
  dsimp only
  rw [opened_rules, find?_eq_bind_findIdx?_getElem?]
  rcases hi : (site ++ req.userAcl C).findIdx? (applies C req) with - | i
  · exact iff_of_true rfl nofun
  · obtain ⟨hlt, -⟩ := findIdx?_eq_some_iff_getElem.1 hi
    dsimp only
    rw [bind_some, getElem?_eq_getElem hlt]
    split_ifs with hfreed
    · exact iff_of_false nofun fun h => Bool.false_ne_true ((h i rfl).symm.trans hfreed)
    · refine iff_of_true rfl fun j hj => ?_
      rw [← some.inj hj]
      exact eq_false_of_ne_true hfreed

theorem length_le_iff {i : ℕ} (h : (site ++ req.userAcl C).findIdx? (applies C req) = some i) :
    site.length ≤ i ↔ ¬ site.any (applies C req) := by
  rw [findIdx?_append] at h
  rcases hsite : site.findIdx? (applies C req) with - | j
  · rw [hsite, none_or] at h
    obtain ⟨k, -, rfl⟩ := map_eq_some_iff.1 h
    refine iff_of_true (Nat.le_add_left _ _) fun hany => ?_
    obtain ⟨acl, hmem, happlies⟩ := any_eq_true.1 hany
    exact Bool.false_ne_true ((findIdx?_eq_none_iff.1 hsite acl hmem).symm.trans happlies)
  · rw [hsite, some_or] at h
    obtain rfl := some.inj h
    obtain ⟨hlt, happlies, -⟩ := findIdx?_eq_some_iff_getElem.1 hsite
    exact iff_of_false (by omega) (not_not_intro (any_eq_true.2 ⟨_, getElem_mem hlt, happlies⟩))

theorem freed_iff (hsite : site ≠ []) (h : req.addressee = .known talkrc) (i : ℕ) :
    freed (openUsersAcl C site req).1 i = true ↔ site.length ≤ i := by
  have hpos := length_pos_iff.2 hsite
  unfold openUsersAcl
  rw [h]
  unfold tail freed
  rw [if_neg hsite, decide_eq_true_iff]
  omega

theorem not_freed_of_nil (i : ℕ) : freed (openUsersAcl C [] req).1 i = false := by
  unfold openUsersAcl
  split <;> rfl

theorem action_known_iff (hsite : site ≠ []) (h : req.addressee = .known talkrc) :
    (aclMatch C site req).1 = some (decision C site req) ↔
      site.any (applies C req) ∨ ¬ (req.userAcl C).any (applies C req) := by
  rw [action_iff]
  constructor
  · intro hall
    by_contra hnot
    rw [not_or, not_not] at hnot
    have hany : ((site ++ req.userAcl C).findIdx? (applies C req)).isSome := by
      rw [findIdx?_isSome, any_append, hnot.2, Bool.or_true]
    obtain ⟨i, hi⟩ := isSome_iff_exists.1 hany
    have hfreed := (freed_iff (C := C) hsite h i).2 ((length_le_iff hi).2 hnot.1)
    exact Bool.false_ne_true ((hall i hi).symm.trans hfreed)
  · intro hor i hi
    refine eq_false_of_ne_true fun hfreed => ?_
    have hnone := (length_le_iff hi).1 ((freed_iff hsite h i).1 hfreed)
    have huser := hor.resolve_left hnone
    have hany := congrArg Option.isSome hi
    rw [findIdx?_isSome, any_append, eq_false_of_ne_true hnone, eq_false_of_ne_true huser] at hany
    exact Bool.false_ne_true hany

theorem served_once : (aclMatch C site req).1 = some (decision C site req) ∧
    (aclMatch C site req).2 = site ↔
    Safe C site req := by
  rw [rules_iff, Safe]
  by_cases hsite : site = []
  · subst hsite
    exact iff_of_true ⟨action_iff.2 fun i _ => not_freed_of_nil i, .inl rfl⟩ (.inl rfl)
  · rw [or_iff_right hsite, or_iff_right hsite, and_comm]
    refine and_congr_right ?_
    rintro ⟨talkrc, htalkrc⟩
    exact action_known_iff hsite htalkrc

theorem served_step {s : State ρ} (h : Served C site s) : Served C site (step C s req) ↔
    Safe C site req := by
  obtain ⟨hrules, hlog⟩ := h
  rw [← served_once]
  unfold Served step
  rw [hrules, and_comm]
  refine and_congr_left fun _ =>
    ⟨fun hall => hall (req, _) (mem_append_right _ (mem_singleton_self _)), ?_⟩
  rintro haction p hp
  rcases mem_append.1 hp with hp | hp
  · exact hlog p hp
  · rw [mem_singleton.1 hp]
    exact haction

end

/-- **Every request of a run is decided by the first rule that applies, and leaves the rules of the
site**, just in case each is safe. -/
theorem served_iff (C : Libc ρ) (file : Option Text) (l : List Request) :
    (∀ l', l' <+: l → Served C (readAcl C file) (run (step C) (start C file) l')) ↔
      ∀ req ∈ l, Safe C (readAcl C file) req := by
  have hstart : Served C (readAcl C file) (start C file) := ⟨rfl, nofun⟩
  have hstep : ∀ s req, Served C (readAcl C file) s → True →
      (Served C (readAcl C file) (step C s req) ↔ Safe C (readAcl C file) req) :=
        fun _ _ hs _ => served_step hs
  exact (inv_iff_allowed hstep (fun _ _ _ => trivial) hstart trivial).trans (allowed_const_iff _ l)

/-! ### A request to no one -/

/-- Expressions that are texts, of which `.` matches all. -/
def texts : Libc Text := ⟨some, fun re l => re = [46] ∨ re = l, fun _ => 0, fun _ => 0, id⟩

/-- `deny . any` -/
def denyAll : Text := [100, 101, 110, 121, 32, 46, 32, 97, 110, 121, 10]

/-- After a request to a user who is unknown, everything is allowed. -/
theorem not_served_unknown : ¬ ∀ l', l' <+: [⟨[97], 0, .unknown⟩, ⟨[97], 0, .unknown⟩] →
    Served texts (readAcl texts (some denyAll))
    (run (step texts) (start texts (some denyAll)) l') := by
  intro h
  have hserved := h _ prefix_rfl
  have hrules := congrArg List.length hserved.1
  exact absurd hrules (by decide)

end Inetutils.Talkd.Access
