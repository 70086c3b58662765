import Inetutils.Lib.Letters

/-! # Local names

`local_domain` and `topdomain` of `src/rshd.c`: whether a host is in the domain of this one. The
comment above them says it of the components of the domain part (`Local`), the code looks for two
dots from the end (`topdomain`), which comes to the same (`sameDomain_iff`). -/

namespace Inetutils.Rshd.Domain

open Lib.Letters List

abbrev Byte := UInt8

abbrev Name := List Byte

abbrev dot : Byte := 46

/-! ### As it is documented -/

def domainPart (h : Name) : Name := (h.dropWhile (· ≠ dot)).tail

def components (h : Name) : List Name := h.splitOn dot

def lastTwo (l : List Name) : List Name := l.drop (l.length - 2)

def lower (l : List Name) : List Name := l.map (·.map tolower)

/-- They share the last two components of the domain part, or the entire domain part if that of `l`
has only one. -/
def Shares (l h : Name) : Prop :=
  if (components (domainPart l)).length = 1 then
    lower (components (domainPart l)) = lower (components (domainPart h))
  else 2 ≤ (components (domainPart h)).length ∧
    lower (lastTwo (components (domainPart l))) = lower (lastTwo (components (domainPart h)))

/-- The host `h` is local to `l`: so it is if either name is unqualified. -/
def Local (l h : Name) : Prop := dot ∉ l ∨ dot ∉ h ∨ Shares l h

/-! ### As it is done -/

/-- The loop of `topdomain`, from the end: what is left of the name, the place `p`, the dots so far
and `maybe`. -/
def topdomainLoop : List Byte → Name → ℕ → Option Name → Option Name
  | [], _, _, maybe => maybe
  | c :: h, p, dots, maybe =>
    if c = dot then
      if dots + 1 = 2 then some (c :: p) else topdomainLoop h (c :: p) (dots + 1) (some (c :: p))
    else topdomainLoop h (c :: p) dots maybe

def topdomain (h : Name) : Option Name := topdomainLoop h.reverse [] 0 none

/-- The test of `local_domain`. -/
def sameDomain (l h : Name) : Bool :=
  match topdomain l, topdomain h with
  | some p1, some p2 => sameCase p1 p2
  | _, _ => true

/-! ### The last dots -/

theorem topdomainLoop_append {y : Name} (hy : dot ∉ y) (r : List Byte) (p : Name) (dots : ℕ)
    (maybe : Option Name) :
    topdomainLoop (y.reverse ++ r) p dots maybe = topdomainLoop r (y ++ p) dots maybe := by
  induction y generalizing r with
  | nil => rfl
  | cons c y ih =>
    rw [mem_cons, not_or] at hy
    rw [reverse_cons, append_assoc, singleton_append, ih hy.2, topdomainLoop, if_neg (Ne.symm hy.1)]
    rfl

theorem exists_last_dot {h : Name} (hd : dot ∈ h) : ∃ b y, h = b ++ dot :: y ∧ dot ∉ y := by
  obtain ⟨s, t, hst, hs⟩ := eq_append_cons_of_mem (mem_reverse.2 hd)
  refine ⟨t.reverse, s.reverse, ?_, by simpa using hs⟩
  rw [← reverse_reverse h, hst]
  simp

theorem topdomain_of_not_mem {h : Name} (hd : dot ∉ h) : topdomain h = none := by
  have hloop := topdomainLoop_append hd [] [] 0 none
  rw [append_nil] at hloop
  exact hloop

theorem topdomain_one {a x : Name} (ha : dot ∉ a) (hx : dot ∉ x) :
    topdomain (a ++ dot :: x) = some (dot :: x) := by
  have hrev : (a ++ dot :: x).reverse = x.reverse ++ dot :: (a.reverse ++ []) := by simp
  rw [topdomain, hrev, topdomainLoop_append hx, topdomainLoop, if_pos rfl, if_neg (by decide),
    topdomainLoop_append ha]
  simp [topdomainLoop]

theorem topdomain_two {a x y : Name} (hx : dot ∉ x) (hy : dot ∉ y) :
    topdomain (a ++ dot :: (x ++ dot :: y)) = some (dot :: (x ++ dot :: y)) := by
  have hrev : (a ++ dot :: (x ++ dot :: y)).reverse =
    y.reverse ++ dot :: (x.reverse ++ dot :: a.reverse) := by simp
  rw [topdomain, hrev, topdomainLoop_append hy, topdomainLoop, if_pos rfl, if_neg (by decide),
    topdomainLoop_append hx, topdomainLoop, if_pos rfl, if_pos (by decide)]
  simp

/-! ### The components -/

theorem components_of_not_mem {h : Name} (hd : dot ∉ h) : components h = [h] := by
  refine splitOnP_eq_singleton fun c hc => ?_
  rw [beq_eq_false_iff_ne]
  rintro rfl
  exact hd hc

theorem components_append (a b : Name) :
    components (a ++ dot :: b) = components a ++ components b :=
  splitOnP_append_cons a b (beq_self_eq_true dot)

theorem components_domainPart {h : Name} (hd : dot ∈ h) :
    components (domainPart h) = (components h).tail := by
  obtain ⟨a, b, rfl, ha⟩ := eq_append_cons_of_mem hd
  have hdrop : (a ++ dot :: b).dropWhile (· ≠ dot) = dot :: b := by
    rw [dropWhile_append_of_pos fun c hc => ?_, dropWhile_cons_of_neg (by simp)]
    rw [decide_eq_true_eq]
    rintro rfl
    exact ha hc
  rw [components_append, components_of_not_mem ha, domainPart, hdrop]
  rfl

/-- **What `topdomain` finds:** the last two components of the domain part, with their dots. -/
theorem topdomain_eq {h : Name} (hd : dot ∈ h) :
    topdomain h = some ((lastTwo (components (domainPart h))).flatMap (dot :: ·)) := by
  obtain ⟨b, y, rfl, hy⟩ := exists_last_dot hd
  rw [components_domainPart hd, components_append, components_of_not_mem hy]
  by_cases hb : dot ∈ b
  · obtain ⟨a, x, rfl, hx⟩ := exists_last_dot hb
    obtain ⟨c, cs, hcs⟩ := exists_cons_of_ne_nil (splitOnP_ne_nil (· == dot) a)
    have hlast : lastTwo ((components a ++ [x] ++ [y]).tail) = [x, y] := by
      have hshape : (components a ++ [x] ++ [y]).tail = cs ++ [x, y] := by
        rw [show components a = c :: cs from hcs]
        simp
      rw [hshape, lastTwo]
      simp
    rw [components_append, components_of_not_mem hx, hlast, append_assoc, cons_append,
      topdomain_two hx hy]
    simp
  · rw [topdomain_one hb hy, components_of_not_mem hb]
    simp [lastTwo]

theorem not_dot_of_mem_components (h : Name) : ∀ c ∈ components h, dot ∉ c := by
  induction h with
  | nil => simp [components]
  | cons d h ih =>
    obtain ⟨c, cs, hcs⟩ : ∃ c cs, components h = c :: cs :=
      exists_cons_of_ne_nil (splitOnP_ne_nil (· == dot) h)
    rw [hcs] at ih
    by_cases hd : d = dot
    · subst hd
      rw [show components (dot :: h) = [] :: c :: cs by
        rw [← hcs]
        exact components_append [] h]
      intro x hx
      rcases mem_cons.1 hx with rfl | hx
      · simp
      · exact ih x hx
    · have hcons : components (d :: h) = (d :: c) :: cs := by
        have hmod := splitOnP_cons_eq_if_modifyHead (p := (· == dot)) d h
        rw [if_neg (by simpa using hd), show h.splitOnP (· == dot) = c :: cs from hcs] at hmod
        exact hmod
      rw [hcons]
      intro x hx
      rcases mem_cons.1 hx with rfl | hx
      · rw [mem_cons, not_or]
        exact ⟨Ne.symm hd, ih c mem_cons_self⟩
      · exact ih x (mem_cons_of_mem _ hx)

/-! ### With their dots -/

theorem tolower_eq_dot {c : Byte} : tolower c = dot ↔ c = dot := by
  unfold tolower isupper
  constructor
  · intro h
    split at h
    next hup =>
      have hc : c = 14 := by
        rw [← UInt8.add_sub_cancel c 32, h]
        rfl
      rw [hc] at hup
      exact absurd hup (by decide)
    next => exact h
  · rintro rfl
    rfl

theorem not_dot_of_mem_lower {l : List Name} (hl : ∀ c ∈ l, dot ∉ c) : ∀ c ∈ lower l, dot ∉ c := by
  intro c hc
  obtain ⟨b, hb, rfl⟩ := mem_map.1 hc
  rw [mem_map]
  rintro ⟨d, hd, heq⟩
  exact hl b hb (tolower_eq_dot.1 heq ▸ hd)

theorem map_flatMap_dot (l : List Name) :
    (l.flatMap (dot :: ·)).map tolower = (lower l).flatMap (dot :: ·) := by
  induction l with
  | nil => rfl
  | cons x l ih =>
    rw [lower, map_cons, flatMap_cons, flatMap_cons, map_append, ih]
    rfl

theorem components_flatMap_dot : ∀ l :
    List Name, (∀ c ∈ l, dot ∉ c) → components (l.flatMap (dot :: ·)) = [] :: l
  | [], _ => rfl
  | [x], hl => by
    have hx := hl x mem_cons_self
    rw [flatMap_singleton]
    exact (components_append [] x).trans (by rw [components_of_not_mem hx]; rfl)
  | x :: y :: l, hl => by
    have hx := hl x mem_cons_self
    have ih := components_flatMap_dot (y :: l) fun c hc => hl c (mem_cons_of_mem _ hc)
    have hrest : components (y ++ l.flatMap (dot :: ·)) = y :: l :=
      (List.cons.inj ((components_append [] (y ++ l.flatMap (dot :: ·))).symm.trans ih)).2
    have hfirst : components (x ++ dot :: (y ++ l.flatMap (dot :: ·))) = x :: y :: l := by
      rw [components_append, hrest, components_of_not_mem hx]
      rfl
    exact (components_append [] _).trans (congrArg ([] :: ·) hfirst)

theorem sameCase_flatMap_dot {l m : List Name} (hl : ∀ c ∈ l, dot ∉ c) (hm : ∀ c ∈ m, dot ∉ c) :
    sameCase (l.flatMap (dot :: ·)) (m.flatMap (dot :: ·)) = true ↔ lower l = lower m := by
  rw [sameCase, beq_iff_eq, map_flatMap_dot, map_flatMap_dot]
  constructor
  · intro h
    have hcomp := congrArg components h
    rw [components_flatMap_dot _ (not_dot_of_mem_lower hl),
      components_flatMap_dot _ (not_dot_of_mem_lower hm)] at hcomp
    exact (List.cons.inj hcomp).2
  · intro h
    rw [h]

theorem length_lower (l : List Name) : (lower l).length = l.length := length_map _

theorem length_lastTwo (l : List Name) : (lastTwo l).length = min 2 l.length := by
  rw [lastTwo, length_drop]
  omega

theorem lastTwo_of_le {l : List Name} (h : l.length ≤ 2) : lastTwo l = l := by
  rw [lastTwo, Nat.sub_eq_zero_of_le h, drop_zero]

theorem shares_iff {l h : Name} : Shares l h ↔
    lower (lastTwo (components (domainPart l))) = lower (lastTwo (components (domainPart h))) := by
  have hne : (components (domainPart l)).length ≠ 0 := by
    rw [ne_eq, length_eq_zero_iff]
    exact splitOnP_ne_nil _ _
  unfold Shares
  generalize components (domainPart l) = cl at hne ⊢
  generalize components (domainPart h) = ch
  have hlen : ∀ {a b : List Name}, lower a = lower b → a.length = b.length := fun h => by
    rw [← length_lower, h, length_lower]
  split
  next hone =>
    rw [lastTwo_of_le (l := cl) (by omega)]
    constructor
    · intro heq
      rw [heq, lastTwo_of_le (by rw [← hlen heq]; omega)]
    · intro heq
      have hch := hlen heq
      rw [length_lastTwo] at hch
      rw [heq, lastTwo_of_le (by omega)]
  next hone =>
    refine and_iff_right_of_imp fun heq => ?_
    have hch := hlen heq
    rw [length_lastTwo, length_lastTwo] at hch
    omega

/-- **The code does what is documented.** -/
theorem sameDomain_iff (l h : Name) : sameDomain l h = true ↔ Local l h := by
  unfold Local sameDomain
  by_cases hl : dot ∈ l
  swap
  · rw [topdomain_of_not_mem hl]
    exact iff_of_true rfl (.inl hl)
  by_cases hh : dot ∈ h
  swap
  · rw [topdomain_of_not_mem hh, topdomain_eq hl]
    exact iff_of_true rfl (.inr (.inl hh))
  have hdots : ∀ x : Name, ∀ c ∈ lastTwo (components (domainPart x)), dot ∉ c := fun x c hc =>
    not_dot_of_mem_components _ c (mem_of_mem_drop hc)
  rw [topdomain_eq hl, topdomain_eq hh]
  rw [sameCase_flatMap_dot (hdots l) (hdots h), ← shares_iff]
  simp [hl, hh]

end Inetutils.Rshd.Domain
