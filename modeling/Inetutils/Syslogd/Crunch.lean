import Inetutils.Lib.Cells
import Inetutils.Lib.Fields

/-! # The lists of hosts and of domains

`crunch_list` of `src/syslogd.c` adds the parts of an argument to a list of strings that NULL ends.
It strips the delimiters from both ends, counts those that are left, and copies the fields between
them. -/

namespace Inetutils.Syslogd.Crunch

open Lib.Cells Lib.Fields List Option

abbrev Text := List UInt8

abbrev Strings := Option (Block (Option Text))

/-- `LIST_DELIMITER` -/
def delim (c : UInt8) : Bool := c == 58

/-- The trailing delimiters: `p[strlen (p) - 1]` is before the string when that is empty. -/
def stripTrailing (p : Text) : Option Text :=
  match _h : p.getLast? with
  | none => none
  | some c => if delim c then stripTrailing p.dropLast else some p
termination_by p.length
decreasing_by
  rw [List.length_dropLast]
  have := List.length_pos_of_mem (List.mem_of_getLast? _h)
  omega

/-- How many strings the old list has: it is read up to its NULL. -/
def listLength : Strings → Option ℕ
  | none => some 0
  | some b => (untilNull b).map List.length

/-- The fields, one after the other, into the places from `count` on; the last has no delimiter
behind it. -/
def copyFields (b : Block (Option Text)) (count : ℕ) (p : Text) :
    Option (Block (Option Text) × ℕ) :=
  match h : p.dropWhile fun c => !delim c with
  | [] => (write b count (some p)).map fun b => (b, count)
  | _ :: q => (write b count (some (p.takeWhile fun c => !delim c))).bind fun b =>
    copyFields b (count + 1) q
termination_by p.length
decreasing_by
  have := (List.dropWhile_suffix (l := p) fun c => !delim c).length_le
  rw [h, List.length_cons] at this
  omega

/-- **`crunch_list`**, with what `Debug` prints. -/
def crunchList (debug : Bool) (oldlist : Strings) (list : Text) : Option (Strings × List Text) := do
  let p ← stripTrailing list
  let p := p.dropWhile delim
  if p = [] then return (oldlist, [])
  let i ← listLength oldlist
  let b := realloc (oldlist.getD []) (i + (p.countP delim + 1) + 1)
  let (b, count) ← copyFields b i p
  let b ← write b (count + 1) none
  let printed ← if debug then untilNull b else some []
  return (some b, printed)

/-! ### The text that is left -/

theorem stripTrailing_eq (p : Text) :
    stripTrailing p = if p.rdropWhile delim = [] then none else some (p.rdropWhile delim) := by
  induction p using List.reverseRecOn with
  | nil =>
    rw [stripTrailing]
    rfl
  | append_singleton p c ih =>
    rw [stripTrailing]
    split
    · rename_i h
      rw [getLast?_concat] at h
      cases h
    · rename_i d h
      rw [getLast?_concat, some_inj] at h
      subst h
      by_cases hd : delim c
      · rw [if_pos hd, dropLast_concat, ih, rdropWhile_concat_pos _ _ _ hd]
      · rw [if_neg hd, rdropWhile_concat_neg _ _ _ hd,
          if_neg (append_ne_nil_of_right_ne_nil _ (by simp))]

theorem copyFields_eq (b : Block (Option Text)) (count : ℕ) (p : Text) :
    copyFields b count p =
      (fill b count ((p.splitOnP delim).map some)).map fun b => (b, count + p.countP delim) := by
  induction b, count, p using copyFields.induct with
  | case1 b count p h =>
    have hall : ∀ c ∈ p, delim c = false := by
      intro c hc
      have := dropWhile_eq_nil_iff.1 h c hc
      simpa using this
    have hcount : p.countP delim = 0 := countP_eq_zero.2 fun c hc => by simp [hall c hc]
    rw [copyFields, splitOnP_eq_singleton hall, hcount]
    split
    · simp [fill]
    · rename_i h'
      rw [h] at h'
      cases h'
  | case2 b count p d q h ih =>
    have hd : delim d = true := by
      have := head?_dropWhile_not (fun c => !delim c) p
      rw [h] at this
      simpa using this
    have hp :
        p = p.takeWhile (fun c => !delim c) ++ d :: q := by rw [← h, takeWhile_append_dropWhile]
    have hw : ∀ c ∈ p.takeWhile fun c => !delim c, delim c = false := fun c hc => by
      simpa using mem_takeWhile_imp hc
    have hcount : p.countP delim = q.countP delim + 1 := by
      rw [hp, countP_append, countP_cons_of_pos hd, countP_eq_zero.2 fun c hc => by simp [hw c hc]]
      exact Nat.zero_add _
    have hsplit : p.splitOnP delim = p.takeWhile (fun c => !delim c) :: q.splitOnP delim := by
      rw [← splitOnP_append_cons_of_forall_mem hw d hd, ← hp]
    rw [copyFields, hsplit, hcount]
    split
    · rename_i h'
      rw [h] at h'
      cases h'
    · rename_i d' q' h'
      rw [h] at h'
      cases h'
      rw [map_cons, fill]
      cases hwrite : write b count (some (p.takeWhile fun c => !delim c)) with
      | none => rfl
      | some b' =>
        rw [bind_some, bind_some, ih b', Nat.add_assoc, Nat.add_comm 1]

/-! ### What it returns -/

variable {debug : Bool} {oldlist : Strings} {l : List Text}

def entries : Strings → Option (List Text)
  | none => some []
  | some b => untilNull b

theorem listLength_eq (h : entries oldlist = some l) : listLength oldlist = some l.length := by
  cases oldlist with
  | none =>
    cases h
    rfl
  | some b =>
    exact congrArg (Option.map List.length) (show untilNull b = some l from h)

theorem take_realloc (h : entries oldlist = some l) {n : ℕ} (hn : l.length ≤ n) :
    (realloc (oldlist.getD []) n).take l.length = (l.map some).map some := by
  cases oldlist with
  | none =>
    cases h
    rfl
  | some b =>
    obtain ⟨r, rfl⟩ := untilNull_iff.1 (show untilNull b = some l from h)
    unfold realloc
    rw [getD_some, take_append_of_le_length, take_take, min_eq_left hn, take_left']
    · rw [length_map, length_map]
    · rw [length_take, length_append, length_map, length_map]
      omega

/-- **What `crunch_list` returns**: the fields of what is left between the delimiters at the ends,
unless nothing is, which it sees too late. -/
theorem crunchList_eq (h : entries oldlist = some l) (list : Text) :
    crunchList debug oldlist list =
      if list.rdropWhile delim = [] then none
      else
        let new := l ++ ((list.rdropWhile delim).dropWhile delim).splitOnP delim
        some (some ((new.map some).map some ++ [some none]), if debug then new else []) := by
  unfold crunchList
  rw [stripTrailing_eq]
  by_cases hempty : list.rdropWhile delim = []
  · rw [if_pos hempty, if_pos hempty]
    rfl
  · rw [if_neg hempty, if_neg hempty]
    generalize hp : (list.rdropWhile delim).dropWhile delim = p
    have hne : p ≠ [] := by
      intro hnil
      rw [hnil, dropWhile_eq_nil_iff] at hp
      exact rdropWhile_last_not _ _ hempty (hp _ (getLast_mem hempty))
    have hfields : (p.splitOnP delim).length = p.countP delim + 1 := length_splitOnP p
    generalize hb : realloc (oldlist.getD []) (l.length + (p.countP delim + 1) + 1) = b
    have hlen : b.length = l.length + (p.countP delim + 1) + 1 := by rw [← hb, length_realloc]
    have htake : b.take l.length = (l.map some).map some := by rw [← hb, take_realloc h (by omega)]
    have hfill : fill b l.length ((p.splitOnP delim).map some) =
        some (((l ++ p.splitOnP delim).map some).map some ++
          b.drop (l.length + (p.countP delim + 1))) := by
      rw [fill_eq (by omega), length_map, hfields, if_pos (by omega), htake, map_append, map_append]
    obtain ⟨x, hx⟩ : ∃ x, b.drop (l.length + (p.countP delim + 1)) = [x] :=
      length_eq_one_iff.1 (by rw [length_drop]; omega)
    generalize hnew : l ++ p.splitOnP delim = new at hfill ⊢
    have hnewlen :
        new.length = l.length + (p.countP delim + 1) := by rw [← hnew, length_append, hfields]
    have hwrite : write ((new.map some).map some ++ [x]) (l.length + p.countP delim + 1) none =
        some ((new.map some).map some ++ [some none]) := by
      rw [write_of_lt (by rw [length_append, length_map, length_map, length_singleton]; omega),
        set_append_right _ _ (by rw [length_map, length_map]; omega), length_map, length_map,
        show l.length + p.countP delim + 1 - new.length = 0 by omega]
      rfl
    simp only [bind_eq_bind, bind_some, if_neg hne, listLength_eq h, hb, hp,
      copyFields_eq, hfill, hx, map_some, hwrite, pure]
    cases debug with
    | false => rfl
    | true => rw [if_pos rfl, if_pos rfl, untilNull_append, bind_some]

/-- **The old list, and the words of the string**, then NULL. -/
def Appends (debug : Bool) (oldlist : Strings) (list : Text) : Prop :=
  ∃ new printed, crunchList debug oldlist list = some (new, printed) ∧
    entries new = (entries oldlist).map (· ++ words delim list)

/-- **`crunch_list`** does what it should if something is left between the delimiters at the ends
and no two of them follow each other there. -/
theorem appends_iff (h : entries oldlist = some l) (list : Text) :
    Appends debug oldlist list ↔
      (∃ c ∈ list, delim c = false) ∧
      [] ∉ ((list.rdropWhile delim).dropWhile delim).splitOnP delim := by
  have hempty : list.rdropWhile delim = [] ↔ ¬ ∃ c ∈ list, delim c = false := by
    rw [rdropWhile_eq_nil_iff]
    simp
  unfold Appends
  rw [crunchList_eq h]
  by_cases hnil : list.rdropWhile delim = []
  · rw [if_pos hnil]
    refine iff_of_false ?_ fun hex => hempty.1 hnil hex.1
    rintro ⟨new, printed, hnone, -⟩
    cases hnone
  · rw [if_neg hnil, and_iff_right (not_not.1 (mt hempty.2 hnil)), ← words_eq_splitOnP_iff,
      words_strip]
    constructor
    · rintro ⟨new, printed, hsome, hnew⟩
      cases hsome
      rw [entries, untilNull_append, h, map_some, some_inj] at hnew
      exact (append_cancel_left hnew).symm
    · intro hwords
      refine ⟨_, _, rfl, ?_⟩
      rw [entries, untilNull_append, h, hwords, map_some]

/-- `:a:b:` -/
theorem appends_ab : Appends true none [58, 97, 58, 98, 58] :=
  (appends_iff (l := []) rfl _).2 ⟨⟨97, by decide, by decide⟩, by decide⟩

/-- `:` -/
theorem not_appends_colon : crunchList false none [58] = none ∧ ¬ Appends false none [58] := by
  have hnone : crunchList false none [58] = none := by
    rw [crunchList_eq (l := []) rfl, if_pos (by decide)]
  refine ⟨hnone, ?_⟩
  rintro ⟨new, printed, hsome, -⟩
  rw [hnone] at hsome
  cases hsome

end Inetutils.Syslogd.Crunch
