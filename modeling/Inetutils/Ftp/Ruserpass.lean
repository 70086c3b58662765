import Inetutils.Ftp.Macros
import Inetutils.Lib.Letters

/-! # The login of a host

`remote_userpass` of `src/ftp/ruserpass.c` looks for a host in the `.netrc`, with one loop for the
words between the entries and one for the words of an entry that names the host. `token` reads a
word into `tokval`, of 100 bytes; to store behind it has no result.

* `items`, `entries`: the entries of a `.netrc`, in which the value of a word and the text of a
  macro are no words. -/

namespace Inetutils.Ftp.Ruserpass

open Lib List Option
open Macros (Byte Text Table netrcMacdef)
open Letters (sameCase)

variable {f rest : Text}

def ascii (s : String) : Text := s.toList.map fun c => c.toNat.toUInt8

/-! ### The words -/

def delim (c : Byte) : Bool := c = 10 || c = 9 || c = 32 || c = 44

/-- The characters that are stored up to the end of a word, and what is behind it; an `EOF` behind a
backslash is stored as well. -/
def scan (stop : Byte → Bool) : Text → Text × Text
  | [] => ([], [])
  | c :: f =>
    if stop c then ([], f)
    else if c = 92 then
      match f with
      | [] => ([255], [])
      | d :: f => (scan stop f).map (d :: ·) id
    else (scan stop f).map (c :: ·) id

def lex (f : Text) : Option (Text × Text) :=
  match f.dropWhile delim with
  | [] => none
  | c :: f => if c = 34 then some (scan (· = 34) f) else some ((scan delim f).map (c :: ·) id)

inductive Tok
  | zero
  | default
  | login
  | passwd
  | account
  | machine
  | macdef
  | id
  deriving DecidableEq

def toktab : List (Text × Tok) :=
  [(ascii "default", .default), (ascii "login", .login), (ascii "password", .passwd),
    (ascii "passwd", .passwd),
    (ascii "account", .account), (ascii "machine", .machine), (ascii "macdef", .macdef)]

/-- What `token` returns for a string in `tokval`. -/
def keyword (tokval : Text) : Tok :=
  if tokval = [] then .zero else ((toktab.find? (·.1 = tokval)).map Prod.snd).getD .id

def str (w : Text) : Text := w.takeWhile (· ≠ 0)

/-- **`token`**: what it returns, `tokval`, and what is left of the file. -/
def token (f : Text) : Option (Tok × Text × Text) :=
  match lex f with
  | none => some (.zero, [], [])
  | some (w, rest) => if w.length < 100 then some (keyword (str w), str w, rest) else none

theorem scan_length (stop : Byte → Bool) (f : Text) : (scan stop f).2.length ≤ f.length := by
  fun_induction scan stop f <;> simp_all <;> omega

theorem lex_length {w : Text} (h : lex f = some (w, rest)) : rest.length < f.length := by
  unfold lex at h
  have hle := (dropWhile_suffix delim (l := f)).length_le
  split at h
  · cases h
  · rename_i c f' hf
    rw [hf, length_cons] at hle
    split_ifs at h
    · have hscan := scan_length (· = 34) f'
      obtain rfl := congrArg Prod.snd (some.inj h)
      exact lt_of_le_of_lt hscan hle
    · have hscan := scan_length delim f'
      obtain rfl := congrArg Prod.snd (some.inj h)
      exact lt_of_le_of_lt hscan hle

theorem keyword_nil : keyword [] = .zero := rfl

theorem token_length {v : Text} {t : Tok} (h : token f = some (t, v, rest)) :
    rest.length ≤ f.length ∧ (t ≠ .zero → rest.length < f.length) := by
  unfold token at h
  split at h
  · cases h
    exact ⟨Nat.zero_le _, fun hne => absurd rfl hne⟩
  · rename_i w rest' hlex
    split_ifs at h
    cases h
    have hlt := lex_length hlex
    exact ⟨Nat.le_of_lt hlt, fun _ => hlt⟩

/-! ### The loops -/

/-- What is found: `*aname`, `*apass`, `*aacct` and the macros. -/
structure State where
  aname : Option Text
  apass : Option Text
  aacct : Option Text
  macros : Table

/-- The name of the host as it is typed and the official one, the domain of this host, whether
others can read the file, and `proxy`. -/
structure Env where
  host : Text
  hostname : Text
  mydomain : Text
  readable : Bool
  proxy : Bool

/-- A name without the domain, where that is the domain of this host. -/
def short (mydomain name tokval : Text) : Bool :=
  match name.dropWhile (· ≠ 46) with
  | [] => false
  | tmp => sameCase tmp mydomain && sameCase (name.takeWhile (· ≠ 46)) tokval

def Env.names (env : Env) (tokval : Text) : Bool :=
  sameCase env.host tokval || sameCase env.hostname tokval || short env.mydomain
    env.hostname tokval ||
    short env.mydomain env.host tokval

/-- `return (0)`, or `return (-1)`. -/
inductive Result
  | done (s : State)
  | bad

/-- How the words of an entry end; `next` is `goto next`. -/
inductive Ended
  | done (s : State)
  | bad
  | next (s : State) (f : Text)

theorem body_length {first : Bool} {mac_start tmp e : ℕ} {buf buf' : Text}
    (h : Macros.body first mac_start buf tmp f = .done buf' e rest) : rest.length < f.length := by
  fun_induction Macros.body first mac_start buf tmp f with
  | case1 => cases h
  | case2 => cases h
  | case3 =>
    cases h
    exact Nat.lt_succ_self _
  | case4 => cases h
  | case5 =>
    cases h
    exact Nat.lt_succ_self _
  | case6 _ _ _ _ _ _ _ ih => exact Nat.lt_succ_of_lt (ih h)
  | case7 _ _ _ _ _ _ ih => exact Nat.lt_succ_of_lt (ih h)

theorem netrcMacdef_length {t t' : Table} (h : netrcMacdef t f = some (t', some rest)) :
    rest.length ≤ f.length := by
  have hdefine {t : Table} {f : Text} (h : Macros.define false t f = some (t', some rest)) :
      rest.length < f.length := by
    unfold Macros.define at h
    split at h
    · cases h
    · cases h
    · cases h
    · rename_i hbody
      cases h
      exact body_length hbody
  unfold netrcMacdef at h
  have hblank := (dropWhile_suffix Macros.blank (l := f)).length_le
  split at h
  · cases h
  · rename_i c f' hf
    rw [hf, length_cons] at hblank
    dsimp only at h
    split_ifs at h
    · cases h
    · cases h
    · cases h
    · obtain ⟨name, -, hrest⟩ := bind_eq_some_iff.1 h
      split at hrest
      · cases hrest
      · rename_i d f'' hline
        have hlt := hdefine hrest
        have hle := (dropWhile_suffix (fun x => decide (x ≠ 10))
          (l := f'.drop ((f'.take 8).takeWhile fun c => !Macros.isspace c).length)).length_le
        rw [hline, length_cons, length_drop] at hle
        omega

theorem behind_value {rest' v v' : Text} {t t' : Tok} (h : token f = some (t, v, rest))
    (ht : t ≠ .zero) (h' : token rest = some (t', v', rest')) : rest'.length < f.length :=
  lt_of_le_of_lt (token_length h').1 ((token_length h).2 ht)

/-- `if (token () && *apass == 0)` -/
def store (t : Tok) (tokval : Text) (o : Option Text) : Option Text :=
  if t ≠ .zero ∧ o = none then some tokval else o

/-- `while ((t = token ()) && t != MACHINE && t != DEFAULT)` -/
def entryLoop (env : Env) (s : State) (f : Text) : Option Ended :=
  match _ : token f with
  | none => none
  | some (.zero, _, _) => some (.done s)
  | some (.machine, _, _) => some (.done s)
  | some (.default, _, _) => some (.done s)
  | some (.login, _, rest) =>
    match _ : token rest with
    | none => none
    | some (t, v, rest) =>
      if t = .zero then entryLoop env s rest
      else
        match s.aname with
        | none => entryLoop env { s with aname := some v } rest
        | some a => if a ≠ v then some (.next s rest) else entryLoop env s rest
  | some (.passwd, _, rest) =>
    if s.aname ≠ some (ascii "anonymous") ∧ env.readable then some .bad
    else
      match _ : token rest with
      | none => none
      | some (t, v, rest) => entryLoop env { s with apass := store t v s.apass } rest
  | some (.account, _, rest) =>
    if env.readable then some .bad
    else
      match _ : token rest with
      | none => none
      | some (t, v, rest) => entryLoop env { s with aacct := store t v s.aacct } rest
  | some (.macdef, _, rest) =>
    if env.proxy then some (.done s)
    else
      match _ : netrcMacdef s.macros rest with
      | none => none
      | some (_, none) => some .bad
      | some (t, some rest) => entryLoop env { s with macros := t } rest
  | some (.id, _, rest) => entryLoop env s rest
termination_by f.length
decreasing_by
  · exact behind_value (t := .login) ‹_› nofun ‹_›
  · exact behind_value (t := .login) ‹_› nofun ‹_›
  · exact behind_value (t := .login) ‹_› nofun ‹_›
  · exact behind_value (t := .passwd) ‹_› nofun ‹_›
  · exact behind_value (t := .account) ‹_› nofun ‹_›
  · exact lt_of_le_of_lt (netrcMacdef_length ‹_›) ((token_length (t := .macdef) ‹_›).2 nofun)
  · exact (token_length (t := .id) ‹_›).2 nofun

theorem entryLoop_length {env : Env} {s s' : State} {f' : Text}
    (h : entryLoop env s f = some (.next s' f')) :
    f'.length < f.length := by
  fun_induction entryLoop env s f with
  | case1 => cases h
  | case2 => cases h
  | case3 => cases h
  | case4 => cases h
  | case5 => cases h
  | case6 =>
    rename_i hf _ _ hv ih
    exact (ih h).trans (behind_value hf nofun hv)
  | case7 =>
    rename_i hf _ _ _ hv _ _ ih
    exact (ih h).trans (behind_value hf nofun hv)
  | case8 =>
    rename_i hf _ _ _ hv _ _ _ _
    cases h
    exact behind_value hf nofun hv
  | case9 =>
    rename_i hf _ _ _ hv _ _ _ _ ih
    exact (ih h).trans (behind_value hf nofun hv)
  | case10 => cases h
  | case11 => cases h
  | case12 =>
    rename_i hf _ _ _ _ hv ih
    exact (ih h).trans (behind_value hf nofun hv)
  | case13 => cases h
  | case14 => cases h
  | case15 =>
    rename_i hf _ _ _ _ hv ih
    exact (ih h).trans (behind_value hf nofun hv)
  | case16 => cases h
  | case17 => cases h
  | case18 => cases h
  | case19 =>
    rename_i hf _ _ _ hmacdef ih
    exact (ih h).trans (lt_of_le_of_lt (netrcMacdef_length hmacdef) ((token_length hf).2 nofun))
  | case20 =>
    rename_i hf ih
    exact (ih h).trans ((token_length hf).2 nofun)

/-- `while ((t = token ()))` -/
def fileLoop (env : Env) (usedefault : Bool) (s : State) (f : Text) : Option Result :=
  match _hf : token f with
  | none => none
  | some (t, _, rest) =>
    if _ht : t = .zero then some (.done s)
    else if t = .default ∨ (t = .machine ∧ usedefault) then
      match _hloop : entryLoop env s rest with
      | none => none
      | some (.done s) => some (.done s)
      | some .bad => some .bad
      | some (.next s f') => fileLoop env true s f'
    else if t = .machine then
      match _hv : token rest with
      | none => none
      | some (t, v, rest) =>
        if t = .id ∧ env.names v then
          match _hloop : entryLoop env s rest with
          | none => none
          | some (.done s) => some (.done s)
          | some .bad => some .bad
          | some (.next s f') => fileLoop env usedefault s f'
        else fileLoop env usedefault s rest
    else fileLoop env usedefault s rest
termination_by f.length
decreasing_by
  · exact (entryLoop_length _hloop).trans ((token_length _hf).2 _ht)
  · exact (entryLoop_length _hloop).trans (behind_value _hf _ht _hv)
  · exact behind_value _hf _ht _hv
  · exact (token_length _hf).2 _ht

/-- **`remote_userpass`** -/
def remote_userpass (env : Env) (s : State) (cfile : Text) : Option Result :=
  fileLoop env false s cfile

/-! ### What is to hold -/

def behindNull : Text → Option Text
  | [] => none
  | c :: f =>
    if c = 10 then some f
    else if f.dropWhile (· ≠ 10) = [] then none
    else behindNull (f.dropWhile (· ≠ 10)).tail
termination_by f => f.length
decreasing_by
  have hle := (List.dropWhile_suffix (fun x => decide (x ≠ 10)) (l := f)).length_le
  rw [List.length_tail, List.length_cons]
  omega

theorem behindNull_length (h : behindNull f = some rest) : rest.length < f.length := by
  fun_induction behindNull f with
  | case1 => cases h
  | case2 =>
    cases h
    exact Nat.lt_succ_self _
  | case3 => cases h
  | case4 c f hc hrest ih =>
    have hle := (dropWhile_suffix (fun x => decide (x ≠ 10)) (l := f)).length_le
    have hlt := ih h
    rw [length_tail] at hlt
    rw [length_cons]
    omega

def macroEnd (f : Text) : Option Text := behindNull (f.dropWhile (· ≠ 10)).tail

theorem macroEnd_length (h : macroEnd f = some rest) : rest.length < f.length := by
  have hlt := behindNull_length h
  have hle := (dropWhile_suffix (fun x => decide (x ≠ 10)) (l := f)).length_le
  rw [length_tail] at hlt
  omega

/-- A word of an entry with its value, the bytes of each, and what is behind the word. -/
structure Item where
  tok : Tok
  word : ℕ
  value : Option Text
  size : ℕ
  file : Text
  deriving DecidableEq

def given (tokval : Text) : Option Text := if tokval = [] then none else some tokval

def Tok.hasValue : Tok → Bool
  | .login => true
  | .passwd => true
  | .account => true
  | _ => false

/-- The words of an entry, up to the next one. -/
def items (f : Text) : List Item × Text :=
  match _hf : lex f with
  | none => ([], [])
  | some (w, rest) =>
    if keyword (str w) = .machine ∨ keyword (str w) = .default then ([], f)
    else if keyword (str w) = .macdef then
      match _hend : macroEnd rest with
      | none => ([⟨.macdef, w.length, none, 0, rest⟩], [])
      | some f' => (items f').map (⟨.macdef, w.length, none, 0, rest⟩ :: ·) id
    else if (keyword (str w)).hasValue then
      match _hv : lex rest with
      | none => ([⟨keyword (str w), w.length, none, 0, rest⟩], [])
      | some (v, f') =>
        (items f').map (⟨keyword (str w), w.length, given (str v), v.length, rest⟩ :: ·) id
    else (items rest).map (⟨keyword (str w), w.length, none, 0, rest⟩ :: ·) id
termination_by f.length
decreasing_by
  · exact (macroEnd_length _hend).trans (lex_length _hf)
  · exact (lex_length _hv).trans (lex_length _hf)
  · exact lex_length _hf

theorem items_length (f : Text) : (items f).2.length ≤ f.length := by
  fun_induction items f with
  | case1 => exact Nat.zero_le _
  | case2 => exact le_rfl
  | case3 => exact Nat.zero_le _
  | case4 _ _ _ hf _ _ _ hend ih => exact ih.trans ((macroEnd_length hend).trans (lex_length hf)).le
  | case5 => exact Nat.zero_le _
  | case6 _ _ _ hf _ _ _ _ _ hv ih => exact ih.trans ((lex_length hv).trans (lex_length hf)).le
  | case7 _ _ _ hf _ _ _ ih => exact ih.trans (lex_length hf).le

/-- An entry of a machine, or the default one: `first` is what is behind the name, and `last` where
it ends. -/
structure Entry where
  name : Option Text
  first : Text
  items : List Item
  last : Text
  deriving DecidableEq

/-- The entries, from the beginning of one on. -/
def entries (f : Text) : List Entry :=
  match _hf : lex f with
  | none => []
  | some (w, rest) =>
    if keyword (str w) = .default then
      ⟨none, rest, (items rest).1, (items rest).2⟩ :: entries (items rest).2
    else if keyword (str w) = .machine then
      match _hv : lex rest with
      | none => []
      | some (v, f') => ⟨some v, f', (items f').1, (items f').2⟩ :: entries (items f').2
    else []
termination_by f.length
decreasing_by
  · exact lt_of_le_of_lt (items_length rest) (lex_length _hf)
  · exact lt_of_le_of_lt (items_length f') ((lex_length _hv).trans (lex_length _hf))

def Entry.namesHost (env : Env) (e : Entry) : Bool := e.name.all fun v => env.names (str v)

/-- No login of the entry is another than the one that the caller gives. -/
def Entry.hasLogin (aname : Option Text) (e : Entry) : Bool :=
  e.items.all fun i => i.tok ≠ .login || aname.all fun a => i.value.all (· = a)

def give (env : Env) : State → List Item → Option Result
  | s, [] => some (.done s)
  | s, i :: is =>
    match i.tok with
    | .login => give env { s with aname := s.aname.or i.value } is
    | .passwd =>
      if s.aname ≠ some (ascii "anonymous") ∧ env.readable then some .bad
      else give env { s with apass := s.apass.or i.value } is
    | .account =>
      if env.readable then some .bad else give env { s with aacct := s.aacct.or i.value } is
    | .macdef =>
      if env.proxy then some (.done s)
      else
        match netrcMacdef s.macros i.file with
        | none => none
        | some (_, none) => some .bad
        | some (t, some _) => give env { s with macros := t } is
    | _ => give env s is

def answer (env : Env) (s : State) (es : List Entry) : Option Result :=
  match es.find? fun e => e.namesHost env && e.hasLogin s.aname with
  | none => some (.done s)
  | some e => give env s e.items

/-- Within the bounds of the arrays, the answer is that of the entry. -/
def Answers (env : Env) (s : State) (cfile : Text) : Prop :=
  ∃ r, remote_userpass env s cfile = some r ∧ answer env s (entries (items cfile).2) = some r

/-- The scan for the next entry, between those that name the host. -/
def skip (f : Text) : Option Text :=
  match _hf : token f with
  | none => none
  | some (t, _, rest) =>
    if _ht : t = .zero then some []
    else if t = .default ∨ t = .machine then some f
    else skip rest
termination_by f.length
decreasing_by exact (token_length _hf).2 _ht

/-- What is behind the first login of an entry that is another than the one in `s`, where no word
before it is stored. -/
def firstLogin (env : Env) (s : State) (f : Text) : Option Text :=
  match _ : token f with
  | some (.login, _, rest) =>
    match _ : token rest with
    | none => none
    | some (t, v, rest) => if t = .zero ∨ s.aname = some v then firstLogin env s rest else some rest
  | some (.passwd, _, rest) =>
    if s.aname ≠ some (ascii "anonymous") ∧ env.readable then none
    else
      match _ : token rest with
      | none => none
      | some (t, v, rest) => if store t v s.apass = s.apass then firstLogin env s rest else none
  | some (.account, _, rest) =>
    if env.readable then none
    else
      match _ : token rest with
      | none => none
      | some (t, v, rest) => if store t v s.aacct = s.aacct then firstLogin env s rest else none
  | some (.id, _, rest) => firstLogin env s rest
  | _ => none
termination_by f.length
decreasing_by
  · exact behind_value (t := .login) ‹_› nofun ‹_›
  · exact behind_value (t := .passwd) ‹_› nofun ‹_›
  · exact behind_value (t := .account) ‹_› nofun ‹_›
  · exact (token_length (t := .id) ‹_›).2 nofun

/-- An entry that is read as it should be: the words and values that are read fit, no word is empty,
there are no two different logins, and the macros end where they should. -/
def Fine (env : Env) (last : Text) : State → List Item → Prop
  | _, [] => ∀ p ∈ lex last, p.1.length < 100
  | s, i :: is =>
    i.word < 100 ∧
      match i.tok with
      | .zero => False
      | .login =>
        i.size < 100 ∧ (∀ v ∈ i.value, ∀ a ∈ s.aname, a = v) ∧
          Fine env last { s with aname := s.aname.or i.value } is
      | .passwd =>
        (s.aname ≠ some (ascii "anonymous") ∧ env.readable) ∨
          (i.size < 100 ∧ Fine env last { s with apass := s.apass.or i.value } is)
      | .account =>
        env.readable ∨ (i.size < 100 ∧ Fine env last { s with aacct := s.aacct.or i.value } is)
      | .macdef =>
        env.proxy ∨
          match netrcMacdef s.macros i.file with
          | none => False
          | some (_, none) => True
          | some (t, some f) => macroEnd i.file = some f ∧ Fine env last { s with macros := t } is
      | _ => Fine env last s is

/-- Entries that are read as they should be, up to the one that answers: nothing in those of other
hosts looks like the beginning of an entry; in one of the host with another login, nothing is stored
before that login, and nothing behind it looks like the beginning of an entry, and if it is the
default one, it is the last. -/
def Proper (env : Env) (s : State) : List Entry → Prop
  | [] => True
  | e :: es =>
    (∀ v ∈ e.name, v.length < 100) ∧
      if e.namesHost env then
        (∀ v ∈ e.name, keyword (str v) = .id) ∧
          if e.hasLogin s.aname then Fine env e.last s e.items
          else
            (e.name = none → es = []) ∧
              (∃ f, firstLogin env s e.first = some f ∧ skip f = some e.last) ∧ Proper env s es
      else skip e.first = some e.last ∧ Proper env s es

/-! ### The words of an entry -/

section

variable {env : Env} {s : State} {f v rest : Text}
variable {w : Text} {is : List Item} {e : Entry} {es : List Entry}

/-- How the loop for an entry ends, when it does not go on. -/
def Result.ended : Result → Ended
  | .done s => .done s
  | .bad => .bad

def resume (env : Env) (usedefault : Bool) : Option Ended → Option Result
  | none => none
  | some (.done s) => some (.done s)
  | some .bad => some .bad
  | some (.next s f) => fileLoop env usedefault s f

variable {usedefault : Bool} {t : Tok}

def Begins (f : Text) : Prop :=
  ∀ p ∈ lex f, p.1.length < 100 ∧ (keyword (str p.1) = .default ∨ keyword (str p.1) = .machine)

end

def nothing : State := ⟨none, none, none, Macros.noMacros⟩

end Inetutils.Ftp.Ruserpass
