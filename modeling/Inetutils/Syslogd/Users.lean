import Inetutils.Lib.Cells
import Inetutils.Lib.Fields
import Inetutils.Lib.Strings

/-! # The users of a configuration line

The action of a line of `syslog.conf`, where it is none of a host, a pipe, a file or `*`, lists
users. `cfline` of `src/syslogd.c` takes their number from the commas, and their names with another
loop, which passes all the commas and blanks behind a name; `wallmsg` and `init` then read as many
names as there should be. -/

namespace Inetutils.Syslogd.Users

open Lib.Cells Lib.Fields List
open Lib.Strings (str)

abbrev Text := List UInt8

/-! ### The action -/

/-- The action part, and whether it says `OMIT_SYNC`. -/
def actionPart (p : Text) : Text × Bool :=
  match p.dropWhile fun c => c == 9 || c == 32 with
  | 45 :: p => (p, true)
  | p => (p, false)

inductive Kind
  | empty
  | host
  | pipe
  | file
  | wall
  | users
  deriving DecidableEq

def kind : Text → Kind
  | [] => .empty
  | c :: _ => if c = 64 then .host else if c = 124 then .pipe else if c = 47 then .file
    else if c = 42 then .wall else .users

/-! ### The list -/

/-- `f_nusers` and `f_unames` -/
structure UserList where
  nusers : ℕ
  unames : Block (Option Text)
  deriving DecidableEq

def comma (c : UInt8) : Bool := c == 44

def passed (c : UInt8) : Bool := c == 44 || c == 32

/-- The names, into the places from `i` on; `malloc` says which allocations succeed. -/
def copyNames (malloc : ℕ → Bool) (unames : Block (Option Text)) (i : ℕ) (p : Text) :
    Option (Block (Option Text)) :=
  if hp : p = [] then some unames
  else
    let name := p.takeWhile fun c => !comma c
    (write unames i (if malloc (i + 1) then some name else none)).bind fun unames =>
      copyNames malloc unames (i + 1) ((p.dropWhile fun c => !comma c).dropWhile passed)
termination_by p.length
decreasing_by
  obtain ⟨c, p, rfl⟩ := List.exists_cons_of_ne_nil hp
  by_cases hc : comma c
  · have hpass : passed c := by
      unfold passed
      rw [show (c == 44) = true from hc]
      rfl
    rw [List.dropWhile_cons_of_neg (by simp [hc]), List.dropWhile_cons_of_pos hpass]
    exact Nat.lt_succ_of_le (List.dropWhile_suffix _).length_le
  · rw [List.dropWhile_cons_of_pos (by simp [hc])]
    exact Nat.lt_succ_of_le
      ((List.dropWhile_suffix _).length_le.trans (List.dropWhile_suffix _).length_le)

/-- **The users of an action**: the allocation 0 is the one of the array, which has no place when it
fails. -/
def users (malloc : ℕ → Bool) (p : Text) : Option UserList :=
  let nusers := p.countP comma + 1
  (copyNames malloc (if malloc 0 then alloc nusers else []) 0 p).map fun unames => ⟨nusers, unames⟩

/-- `strncmp` of a name and of the user in an entry of utmp, which has `size` bytes. -/
def same (size : ℕ) (name user : Text) : Bool := name.take size == (str 0 user).take size

/-- Whether the user is one of the next `n`: a name that is not set, or NULL, cannot be compared. -/
def approved (size : ℕ) (unames : Block (Option Text)) (user : Text) : ℕ → ℕ → Option Bool
  | 0, _ => some false
  | n + 1, i =>
    match fetch unames i with
    | some (some name) =>
      if same size name user then some true else approved size unames user n (i + 1)
    | _ => none

/-- `wallmsg`: the lines of the users that are logged in to which a message is sent. -/
def wallmsg (size : ℕ) (u : UserList) : List (Text × Text) → Option (List Text)
  | [] => some []
  | (user, line) :: utmp =>
    (approved size u.unames user u.nusers 0).bind fun yes =>
      (wallmsg size u utmp).map fun lines => if yes then line :: lines else lines

/-- What `init` frees. -/
def freed (unames : Block (Option Text)) : ℕ → ℕ → Option (List (Option Text))
  | 0, _ => some []
  | n + 1, i => (fetch unames i).bind fun name => (freed unames n (i + 1)).map (name :: ·)

/-! ### What should be stored -/

def space (c : UInt8) : Bool := c == 32

/-- What the commas part, without leading blanks, where that is something. -/
def names (p : Text) : List Text :=
  ((p.splitOnP comma).map fun w => w.dropWhile space).filter fun w => !w.isEmpty

/-- **All that is read is a name**: `line` is what follows the selectors. -/
def Lists (malloc : ℕ → Bool) (line : Text) : Prop :=
  let p := (actionPart line).1
  ∃ u, users malloc p = some u ∧ u.nusers = (names p).length ∧
    u.unames = ((names p).map some).map some ∧
    freed u.unames u.nusers 0 = some ((names p).map some) ∧
    ∀ size utmp, wallmsg size u utmp =
      some ((utmp.filter fun e => (names p).any fun name => same size name e.1).map Prod.snd)

/-! ### What is stored -/

theorem names_comma {c : UInt8} (hc : comma c) (p : Text) : names (c :: p) = names p := by
  unfold names
  rw [splitOnP_cons_eq_if_modifyHead, if_pos hc]
  rfl

theorem names_space {c : UInt8} (hc : space c) (p : Text) : names (c :: p) = names p := by
  have hcomma : ¬ comma c := by
    obtain rfl : c = 32 := eq_of_beq hc
    decide
  unfold names
  rw [splitOnP_cons_eq_if_modifyHead, if_neg hcomma]
  obtain ⟨w, ws, hws⟩ := exists_cons_of_ne_nil (splitOnP_ne_nil comma p)
  rw [hws, modifyHead_cons, map_cons, map_cons, dropWhile_cons_of_pos hc]

variable (p : Text)

theorem names_dropWhile : names (p.dropWhile passed) = names p := by
  induction p with
  | nil => rfl
  | cons c p ih =>
    by_cases hc : passed c
    · rw [dropWhile_cons_of_pos hc, ih]
      rcases Bool.or_eq_true_iff.1 hc with hcomma | hspace
      · rw [names_comma hcomma]
      · rw [names_space hspace]
    · rw [dropWhile_cons_of_neg hc]

/-- The names that are stored: the text up to the first comma, whatever that is, and the names
behind it. -/
def stored (p : Text) : List Text :=
  if p = [] then [] else p.takeWhile (fun c => !comma c) :: names (p.dropWhile fun c => !comma c)

theorem stored_of_head {p : Text} (h : ∀ c ∈ p.head?, passed c = false) : stored p = names p := by
  cases p with
  | nil => rfl
  | cons c p =>
    have hc : passed c = false := h c rfl
    have hcomma : comma c = false := by
      exact (Bool.or_eq_false_iff.1 hc).1
    have hspace : space c = false := by
      exact (Bool.or_eq_false_iff.1 hc).2
    have hw : ∀ b ∈ (c :: p).takeWhile fun c => !comma c, comma b = false := fun b hb => by
      simpa using mem_takeWhile_imp hb
    have hfirst : (c :: p).takeWhile (fun c => !comma c) = c :: p.takeWhile fun c => !comma c :=
      takeWhile_cons_of_pos (by rw [hcomma]; rfl)
    unfold stored
    cases hrest : (c :: p).dropWhile fun c => !comma c with
    | nil =>
      have hall : (c :: p).takeWhile (fun c => !comma c) = c :: p :=
        takeWhile_eq_self_iff.2 (dropWhile_eq_nil_iff.1 hrest)
      rw [hall] at hw ⊢
      unfold names
      rw [splitOnP_eq_singleton hw, map_singleton, dropWhile_cons_of_neg (by rw [hspace]; decide)]
      rfl
    | cons d q =>
      have hd : comma d = true := by
        have := head?_dropWhile_not (fun c => !comma c) (c :: p)
        rw [hrest] at this
        simpa using this
      have hp : c :: p = (c :: p).takeWhile (fun c => !comma c) ++ d :: q := by
        rw [← hrest, takeWhile_append_dropWhile]
      have hsplit := splitOnP_append_cons_of_forall_mem hw d hd q
      rw [← hp] at hsplit
      rw [names_comma hd]
      unfold names
      rw [hsplit, map_cons, hfirst, dropWhile_cons_of_neg (by rw [hspace]; decide)]
      rfl

def pointers (malloc : ℕ → Bool) : ℕ → List Text → List (Option Text)
  | _, [] => []
  | i, w :: ws => (if malloc (i + 1) then some w else none) :: pointers malloc (i + 1) ws

variable (malloc : ℕ → Bool)

theorem length_pointers (i : ℕ) (ws : List Text) : (pointers malloc i ws).length = ws.length := by
  induction ws generalizing i with
  | nil => rfl
  | cons w ws ih => rw [pointers, length_cons, ih, length_cons]

theorem pointers_eq_iff {malloc : ℕ → Bool} {i : ℕ} {ws ws' : List Text} :
    pointers malloc i ws = ws'.map some ↔ ws = ws' ∧ ∀ j < ws.length, malloc (i + j + 1) := by
  induction ws generalizing i ws' with
  | nil => cases ws' <;> simp [pointers]
  | cons w ws ih =>
    cases ws' with
    | nil => simp [pointers]
    | cons w' ws' =>
      have hsome : (if malloc (i + 1) then some w else none) = some w' ↔
        w = w' ∧ malloc (i + 1) := by
        by_cases h : malloc (i + 1) <;> simp [h]
      rw [pointers, map_cons, List.cons.injEq, List.cons.injEq, ih, hsome]
      constructor
      · rintro ⟨⟨rfl, h0⟩, rfl, h⟩
        refine ⟨⟨rfl, rfl⟩, fun j hj => ?_⟩
        cases j with
        | zero => exact h0
        | succ j =>
          have := h j (Nat.lt_of_succ_lt_succ hj)
          rwa [Nat.add_right_comm i 1 j] at this
      · rintro ⟨⟨rfl, rfl⟩, h⟩
        refine ⟨⟨rfl, h 0 (Nat.succ_pos _)⟩, rfl, fun j hj => ?_⟩
        rw [Nat.add_right_comm i 1 j]
        exact h (j + 1) (Nat.succ_lt_succ hj)

/-- **The names** are stored from the place `i` on. -/
theorem copyNames_eq (unames : Block (Option Text)) (i : ℕ) (p : Text) :
    copyNames malloc unames i p = fill unames i (pointers malloc i (stored p)) := by
  induction unames, i, p using copyNames.induct with
  | case1 unames i =>
    rw [copyNames, dif_pos rfl]
    rfl
  | case2 unames i p hp ih =>
    have hhead : ∀ c ∈ ((p.dropWhile fun c => !comma c).dropWhile passed).head?,
      passed c = false := by
      intro c hc
      have := head?_dropWhile_not passed (p.dropWhile fun c => !comma c)
      rw [Option.mem_def.1 hc] at this
      simpa using this
    rw [stored_of_head hhead, names_dropWhile] at ih
    rw [copyNames, dif_neg hp, stored, if_neg hp, pointers, fill]
    dsimp only
    exact congrArg _ (funext ih)

theorem users_eq (p : Text) :
    users malloc p =
      (fill (if malloc 0 then alloc (p.countP comma + 1)
        else []) 0 (pointers malloc 0 (stored p))).map fun unames =>
        ⟨p.countP comma + 1, unames⟩ := by
  rw [← copyNames_eq]
  rfl

theorem length_names_le : (names p).length ≤ p.countP comma + 1 := by
  rw [← length_splitOnP]
  exact (length_filter_le _ _).trans (le_of_eq (length_map _))

theorem length_stored_le : (stored p).length ≤ p.countP comma + 1 := by
  unfold stored
  split_ifs
  · exact Nat.zero_le _
  · have hrest : (names (p.dropWhile fun c => !comma c)).length ≤
      (p.dropWhile fun c => !comma c).countP comma := by
      cases hq : p.dropWhile fun c => !comma c with
      | nil => exact Nat.zero_le _
      | cons d q =>
        have hd : comma d = true := by
          have := head?_dropWhile_not (fun c => !comma c) p
          rw [hq] at this
          simpa using this
        rw [names_comma hd, countP_cons_of_pos hd]
        exact length_names_le q
    exact Nat.succ_le_succ (hrest.trans (List.Sublist.countP_le (dropWhile_sublist _)))

/-! ### What is read -/

theorem freed_eq (b : Block (Option Text)) (l : List (Option Text)) :
    freed (b ++ l.map some) l.length b.length = some l := by
  induction l generalizing b with
  | nil => rfl
  | cons name l ih =>
    have hread : fetch (b ++ (name :: l).map some) b.length = some name := by
      unfold fetch
      rw [map_cons, getElem?_append_right le_rfl, Nat.sub_self]
      rfl
    have := ih (b ++ [some name])
    rw [append_assoc, length_append] at this
    rw [length_cons, freed, hread, Option.bind_some, map_cons]
    exact congrArg (Option.map _) this

theorem approved_eq (size : ℕ) (user : Text) (b : Block (Option Text)) (l : List Text) :
    approved size (b ++ (l.map some).map some) user l.length b.length =
    some (l.any fun name => same size name user) := by
  induction l generalizing b with
  | nil => rfl
  | cons name l ih =>
    have hread : fetch (b ++ ((name :: l).map some).map some) b.length = some (some name) := by
      unfold fetch
      rw [map_cons, map_cons, getElem?_append_right le_rfl, Nat.sub_self]
      rfl
    have := ih (b ++ [some (some name)])
    rw [append_assoc, length_append] at this
    rw [length_cons, approved, hread, any_cons]
    dsimp only
    cases hsame : same size name user with
    | true => rfl
    | false => exact this

/-- **`wallmsg`** sends to the users that are named. -/
theorem wallmsg_eq (size : ℕ) (l : List Text) (utmp : List (Text × Text)) :
    wallmsg size ⟨l.length, (l.map some).map some⟩ utmp =
      some ((utmp.filter fun e => l.any fun name => same size name e.1).map Prod.snd) := by
  induction utmp with
  | nil => rfl
  | cons e utmp ih =>
    have happroved := approved_eq size e.1 [] l
    rw [nil_append] at happroved
    rw [wallmsg, show approved size ((l.map some).map some) e.1 l.length 0 = _ from happroved,
      Option.bind_some, ih, Option.map_some, filter_cons]
    split_ifs <;> rfl

/-! ### The lists that are stored -/

theorem dropWhile_space_ne_nil {w : Text} : (w.dropWhile space).isEmpty = false ↔
    ∃ c ∈ w, space c = false := by
  rw [isEmpty_eq_false_iff, Ne, dropWhile_eq_nil_iff]
  simp

theorem length_names_iff :
    (names p).length = p.countP comma + 1 ↔ ∀ w ∈ p.splitOnP comma, ∃ c ∈ w, space c = false := by
  have hlen : ((p.splitOnP comma).map fun w => w.dropWhile space).length = p.countP comma + 1 := by
    rw [length_map, length_splitOnP]
  rw [← hlen, names, length_filter_eq_length_iff, forall_mem_map]
  simp only [Bool.not_eq_true', dropWhile_space_ne_nil]

theorem head_of_mem_names {p w : Text} (h : w ∈ names p) : ∀ c ∈ w.head?, space c = false := by
  obtain ⟨w', -, rfl⟩ := mem_map.1 (mem_filter.1 h).1
  intro c hc
  have := head?_dropWhile_not space w'
  rw [Option.mem_def.1 hc] at this
  exact this

/-- **A list of users** of which what is read is what has been stored: memory suffices, something
else than blanks is before, between and behind the commas, and no blank comes first. -/
theorem lists_iff {malloc : ℕ → Bool} {line p : Text} {omitSync : Bool}
    (hline : actionPart line = (p, omitSync)) (hp : kind p = .users) :
    Lists malloc line ↔ (malloc 0 ∧ ∀ i < p.countP comma + 1, malloc (i + 1)) ∧
      (∀ w ∈ p.splitOnP comma, ∃ c ∈ w, space c = false) ∧ p.head? ≠ some 32 := by
  unfold Lists
  rw [hline]
  dsimp only
  have hne : p ≠ [] := by
    rintro rfl
    cases hp
  have hstored : stored p =
    p.takeWhile (fun c => !comma c) :: names (p.dropWhile fun c => !comma c) := if_neg hne
  have hlen := length_stored_le p
  rw [← length_names_iff]
  constructor
  · rintro ⟨u, hu, hnusers, hunames, -, -⟩
    rw [users_eq] at hu
    have hmalloc : malloc 0 := by
      by_contra h
      rw [if_neg h, hstored, pointers, fill, write_of_ge (Nat.zero_le _)] at hu
      cases hu
    rw [if_pos hmalloc, fill_alloc, length_pointers, if_pos hlen, Option.map_some,
      Option.some_inj] at hu
    subst hu
    dsimp only at hnusers hunames
    have hfull : (stored p).length = (names p).length := by
      refine Nat.le_antisymm (hlen.trans (Nat.le_of_eq hnusers)) (Nat.le_of_not_lt fun hlt => ?_)
      have hunset : none ∈ (pointers malloc 0 (stored p)).map some ++
          (alloc (p.countP comma + 1 - (stored p).length) : Block (Option Text)) :=
        mem_append_right _ (mem_replicate.2 ⟨by omega, rfl⟩)
      rw [hunames] at hunset
      obtain ⟨x, -, hx⟩ := mem_map.1 hunset
      cases hx
    have hpointers : pointers malloc 0 (stored p) = (names p).map some := by
      have := congrArg (List.take (stored p).length) hunames
      rw [take_left' (by rw [length_map, length_pointers]), hfull,
        take_of_length_le (by simp)] at this
      exact (map_inj_right fun _ _ => Option.some.inj).1 this
    obtain ⟨heq, hall⟩ := pointers_eq_iff.1 hpointers
    refine ⟨⟨hmalloc, fun i hi => ?_⟩, hnusers.symm, ?_⟩
    · have := hall i (by omega)
      rwa [Nat.zero_add] at this
    · intro h32
      obtain ⟨q, rfl⟩ : ∃ q, p = 32 :: q := head?_eq_some_iff.1 h32
      have hmem : (32 :: q).takeWhile (fun c => !comma c) ∈ names (32 :: q) := by
        rw [← heq, hstored]
        exact mem_cons_self
      exact absurd (head_of_mem_names hmem 32 rfl) (by decide)
  · rintro ⟨⟨hmalloc, hall⟩, hfull, h32⟩
    have hhead : ∀ c ∈ p.head?, passed c = false := by
      intro c hc
      obtain ⟨q, rfl⟩ : ∃ q, p = c :: q := head?_eq_some_iff.1 hc
      refine Bool.or_eq_false_iff.2 ⟨Bool.eq_false_iff.2 fun hcomma : comma c = true => ?_, ?_⟩
      · have hfirst : [] ∈ (c :: q).splitOnP comma := by
          rw [splitOnP_cons_eq_if_modifyHead, if_pos hcomma]
          exact mem_cons_self
        obtain ⟨b, hb, -⟩ := (length_names_iff _).1 hfull [] hfirst
        cases hb
      · exact beq_eq_false_iff_ne.2 fun h => h32 (congrArg some h)
    have heq := stored_of_head hhead
    have hpointers : pointers malloc 0 (stored p) = (names p).map some :=
      pointers_eq_iff.2 ⟨heq, fun j hj => by rw [Nat.zero_add]; exact hall j (by omega)⟩
    refine ⟨⟨(names p).length, ((names p).map some).map some⟩, ?_, rfl, rfl, ?_,
      fun size utmp => wallmsg_eq _ _ _⟩
    · rw [users_eq, if_pos hmalloc, fill_alloc, length_pointers, if_pos hlen, hpointers, heq,
        ← hfull, Nat.sub_self, alloc, replicate_zero, append_nil, Option.map_some]
    · have := freed_eq [] ((names p).map some)
      rw [length_map] at this
      exact this

/-- `root, bob` -/
theorem lists_root_bob : Lists (fun _ => true) [9, 114, 111, 111, 116, 44, 32, 98, 111, 98] :=
  (lists_iff (p := [114, 111, 111, 116, 44, 32, 98, 111, 98]) rfl rfl).2
    ⟨⟨rfl, fun _ _ => rfl⟩, by decide, by decide⟩

/-- `root,` makes room for two names and stores one; when someone else is logged in, the other is
read. -/
theorem not_lists_comma :
    (users (fun _ => true) [114, 111, 111, 116, 44]).map (fun u => (u.nusers, u.unames)) =
        some (2, [some (some [114, 111, 111, 116]), none]) ∧
      wallmsg 32 ⟨2, [some (some [114, 111, 111, 116]), none]⟩ [([98, 111, 98], [116, 116, 121])] =
      none ∧ ¬ Lists (fun _ => true) [9, 114, 111, 111, 116, 44] := by
  have husers : users (fun _ => true) [114, 111, 111, 116, 44] =
    some ⟨2, [some (some [114, 111, 111, 116]), none]⟩ := by
    rw [users_eq]
    decide +kernel
  refine ⟨by rw [husers]; rfl, by decide +kernel, ?_⟩
  rintro ⟨u, hu, -, hunames, -, -⟩
  obtain rfl := Option.some_inj.1 (husers.symm.trans hu)
  exact absurd hunames (by decide +kernel)

end Inetutils.Syslogd.Users
