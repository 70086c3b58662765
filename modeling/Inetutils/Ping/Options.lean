import Inetutils.Lib.Traced
import Mathlib.Data.UInt

/-! # The options of a packet

`print_ip_opt` of `src/ping/ping_echo.c` over the bytes of a packet, as a run that says which of
them it reads and where it looks for an option. A byte behind the packet is the last one that is
read in a run. -/

namespace Inetutils.Ping.Options

open Lib.Traced List

variable {c hlen : ℕ}

abbrev Byte := UInt8

/-- A read of the packet, an option, and a call of `print_ip_opt`. -/
inductive Event
  | read (i : ℕ)
  | visit (cp : ℕ)
  | enter (packet : List Byte) (hlen : ℕ)
  deriving DecidableEq

abbrev Run := Prog Event

/-! ### The packet -/

section
variable (p : List Byte)

def byte (i : ℕ) : ℕ := (p.getD i 0).toNat

def load (i : ℕ) : Run Byte := do
  emit (.read i)
  if i < p.length then pure (p.getD i 0) else stop

def loads : ℕ → ℕ → Run (List Byte)
  | _, 0 => pure []
  | i, n + 1 => do
    let b ← load p i
    let bs ← loads (i + 1) n
    pure (b :: bs)

/-! ### The options -/

/-- The static variables of `print_ip_opt`. -/
structure Route where
  old_rrlen : ℕ
  old_rr : List Byte
  lt : old_rrlen < 40

/-- The addresses of an `IPOPT_LSRR`: what `hlen` is less by. -/
def lsrrLoop (cp j : ℕ) : Run ℕ := do
  let _ ← loads p (cp + 1) 4
  if j ≤ 4 + 4 then pure 4
  else
    let k ← lsrrLoop (cp + 4) (j - 4)
    pure (k + 4)
termination_by j

/-- The addresses of an `IPOPT_RR`. -/
def rrLoop (cp i j : ℕ) : Run ℕ := do
  let _ ← loads p (cp + 1) 4
  if i ≤ 4 then pure 4
  else if 40 ≤ j + 4 then pure 4
  else
    let k ← rrLoop (cp + 4) (i - 4) (j + 4)
    pure (k + 4)
termination_by i

variable (flood : Bool)

/-- The case of `IPOPT_LSRR`: what `cp` is moved by. -/
def lsrr (s : Route) (cp : ℕ) : Run (Option (ℕ × Route)) := do
  let j ← load p (cp + 1)
  if j.toNat ≤ 4 then pure (some (2, s))
  else
    let k ← lsrrLoop p (cp + 2) j.toNat
    pure (some (2 + k, s))

/-- `i` bytes are kept, or none. -/
def keep (s : Route) (cp i : ℕ) : Run Route :=
  if h : i < 40 then do
    let bytes ← loads p cp i
    pure { old_rrlen := i, old_rr := bytes ++ s.old_rr.drop i, lt := h }
  else pure { s with old_rrlen := 0, lt := by decide }

def again (s : Route) (cp i : ℕ) : Run Bool :=
  if i = s.old_rrlen ∧ cp + 2 = 20 + 2 then do
    let bytes ← loads p (cp + 2) i
    pure (decide (bytes = s.old_rr.take i ∧ flood = false))
  else pure false

/-- The route of an `IPOPT_RR`, of which `i` bytes are recorded. -/
def route (s : Route) (cp i : ℕ) : Run (Option (ℕ × Route)) := do
  let same ← again p flood s cp i
  if same then pure (some (2 + (i + 3) / 4 * 4, s))
  else
    let s ← keep p s (cp + 2) i
    let k ← rrLoop p (cp + 2) i 0
    pure (some (2 + k, s))

/-- The case of `IPOPT_RR`. -/
def rr (s : Route) (cp : ℕ) : Run (Option (ℕ × Route)) := do
  let j ← load p (cp + 1)
  let i ← load p (cp + 2)
  let i := min i.toNat j.toNat - 4
  if i = 0 then pure (some (2, s)) else route p flood s cp i

/-- The `switch`; `none` is `hlen = 0`. -/
def option (s : Route) (cp : ℕ) : Run (Option (ℕ × Route)) := do
  let c ← load p cp
  if c = 0 then pure none
  else if c = 131 then lsrr p s cp
  else if c = 7 then rr p flood s cp
  else pure (some (0, s))

/-- The loop over the options, with the step of the `for`. -/
def walk (s : Route) (hlen cp : ℕ) : Run Route :=
  if _h : hlen ≤ 20 then pure s
  else do
    emit (.visit cp)
    let step ← option p flood s cp
    match step with
    | none => pure s
    | some (k, s) => walk s (hlen - (k + 1)) (cp + (k + 1))
termination_by hlen

/-- **`print_ip_opt`** -/
def print_ip_opt (s : Route) (hlen : ℕ) : Run Route := walk p flood s hlen 20

/-! ### What is to hold -/

def visits (events : List Event) : List ℕ :=
  events.filterMap fun e =>
    match e with
    | .visit cp => some cp
    | _ => none

/-- What is read is below `b`, and the calls are as in `W`. -/
def Below (b : ℕ) (W : List Byte → ℕ → Prop) : Event → Prop
  | .read i => i < b
  | .visit _ => True
  | .enter packet hlen => W packet hlen

def Whole (hlen c : ℕ) : Prop := c + 1 < hlen ∧ 2 ≤ byte p (c + 1) ∧ c + byte p (c + 1) ≤ hlen

instance (hlen c : ℕ) : Decidable (Whole p hlen c) := by unfold Whole; infer_instance

/-- Where the next option is; a length byte that cannot be right ends the options. -/
def next (hlen c : ℕ) : ℕ :=
  if byte p c = 1 then c + 1 else if Whole p hlen c then c + byte p (c + 1) else hlen

variable {p} in
theorem lt_next (h : c < hlen) : c < next p hlen c := by
  unfold next
  split_ifs with h1 hwhole
  · omega
  · have hlength := hwhole.2.1
    omega
  · exact h

/-- **The options of a header**, from a place on: `IPOPT_EOL` is the last one. -/
def options (hlen c : ℕ) : List ℕ :=
  if _h : c < hlen then c :: if byte p c = 0 then [] else options hlen (next p hlen c) else []
termination_by hlen - c
decreasing_by
  have hlt := lt_next (p := p) _h
  omega

def Walks (s : Route) (hlen : ℕ) : Prop :=
  visits (print_ip_opt p flood s hlen).trace = options p hlen 20 ∧
    Clear (Below hlen fun _ _ => True) (print_ip_opt p flood s hlen)

/-! ### How far an option is stepped over -/

def recorded (c : ℕ) : ℕ := min (byte p (c + 2)) (byte p (c + 1)) - 4

def Same (s : Route) (c : ℕ) : Prop :=
  recorded p c = s.old_rrlen ∧ c + 2 = 20 + 2 ∧
    (p.drop (c + 2)).take (recorded p c) = s.old_rr.take (recorded p c) ∧
    flood = false

instance (s : Route) (c : ℕ) : Decidable (Same p flood s c) := by unfold Same; infer_instance

/-- An option takes three bytes with the length and the pointer, and four for each address; one that
is not known takes one byte. -/
def step (c : ℕ) : ℕ :=
  if byte p c = 131 then 3 + 4 * ((byte p (c + 1) - 1) / 4)
  else if byte p c = 7 then 3 + 4 * min ((recorded p c + 3) / 4) 10
  else 1

def looked (s : Route) (c : ℕ) : ℕ :=
  if byte p c = 131 ∧ byte p (c + 1) ≤ 4 then 2
  else if byte p c = 7 ∧ 0 < recorded p c ∧ Same p flood s c then 2 + recorded p c
  else step p c

/-- The step leads to the next option, and all that is read is in the header. -/
def Stepped (s : Route) (hlen c : ℕ) : Prop :=
  byte p c = 0 ∨ c + looked p flood s c ≤ hlen ∧ min (c + step p c) hlen = next p hlen c

end

variable {p : List Byte} {flood : Bool} {b : ℕ} {W : List Byte → ℕ → Prop}

/-! ### The reads -/

theorem exact_load (hb : b ≤ p.length) (i : ℕ) :
    Exact (Below b W) (load p i) (i < b) (p.getD i 0) := by
  have hrest (hi : i < b) :
      Exact (Below b W) (if i < p.length then pure (p.getD i 0) else stop) True (p.getD i 0) := by
    rw [if_pos (lt_of_lt_of_le hi hb)]
    exact exact_pure _
  exact ((exact_emit (Event.read i)).bind fun hi => hrest hi).congr (and_true _).to_iff.symm

theorem exact_loads (hb : b ≤ p.length) (i n : ℕ) :
    Exact (Below b W) (loads p i n) (n = 0 ∨ i + n ≤ b) ((p.drop i).take n) := by
  induction n generalizing i with
  | zero =>
    rw [loads, take_zero]
    exact (exact_pure _).congr (iff_true_intro (.inl rfl))
  | succ n ih =>
    have hcons : Exact (Below b W) (loads p i (n + 1)) (i < b ∧ (n = 0 ∨ i + 1 + n ≤ b))
        (p.getD i 0 :: (p.drop (i + 1)).take n) :=
      (exact_load hb i).bind fun _ => (ih (i + 1)).map (p.getD i 0 :: ·)
    refine (hcons.value fun h => ?_).congr (by omega)
    have hi : i < p.length := by omega
    rw [drop_eq_getElem_cons hi, take_succ_cons, getD_eq_getElem?_getD, getElem?_eq_getElem hi,
      Option.getD_some]

theorem exact_lsrrLoop (hb : b ≤ p.length) {j : ℕ} (hj : 4 < j) :
    Exact (Below b W) (lsrrLoop p c j) (c + 4 * ((j - 1) / 4) < b) (4 * ((j - 1) / 4)) := by
  induction j using Nat.strong_induction_on generalizing c with
  | _ j ih =>
    rw [lsrrLoop]
    by_cases h8 : j ≤ 4 + 4
    · simp only [if_pos h8]
      have hone : (j - 1) / 4 = 1 := by omega
      rw [hone]
      exact ((exact_loads hb (c + 1) 4).map fun _ => 4).congr (by omega)
    · simp only [if_neg h8]
      have hmore : (j - 1) / 4 = (j - 4 - 1) / 4 + 1 := by omega
      rw [hmore, mul_add]
      have hrest := (@ih (j - 4) (by omega) (c + 4) (by omega)).map (· + 4)
      exact ((exact_loads hb (c + 1) 4).bind fun _ => hrest).congr (by omega)

variable {i c' : ℕ} {s : Route}

theorem exact_rrLoop (hb : b ≤ p.length) {j : ℕ} (hi : 0 < i) (hj : j < 40) :
    Exact (Below b W) (rrLoop p c i j) (c + 4 * min ((i + 3) / 4) ((43 - j) / 4) < b)
      (4 * min ((i + 3) / 4) ((43 - j) / 4)) := by
  induction i using Nat.strong_induction_on generalizing c j with
  | _ i ih =>
    rw [rrLoop]
    by_cases h4 : i ≤ 4
    · simp only [if_pos h4]
      have hone : min ((i + 3) / 4) ((43 - j) / 4) = 1 := by omega
      rw [hone]
      exact ((exact_loads hb (c + 1) 4).map fun _ => 4).congr (by omega)
    · by_cases h40 : 40 ≤ j + 4
      · simp only [if_neg h4, if_pos h40]
        have hone : min ((i + 3) / 4) ((43 - j) / 4) = 1 := by omega
        rw [hone]
        exact ((exact_loads hb (c + 1) 4).map fun _ => 4).congr (by omega)
      · simp only [if_neg h4, if_neg h40]
        have hmore : min ((i + 3) / 4) ((43 - j) / 4) =
          min ((i - 4 + 3) / 4) ((43 - (j + 4)) / 4) + 1 := by omega
        rw [hmore, mul_add]
        have hrest := (@ih (i - 4) (by omega) (c + 4) (j + 4) (by omega) (by omega)).map (· + 4)
        exact ((exact_loads hb (c + 1) 4).bind fun _ => hrest).congr (by omega)

theorem exact_lsrr (flood : Bool) (hb : b ≤ p.length) (s : Route) (hc : byte p c = 131) :
    Exact (Below b W) (lsrr p s c) (c + 1 < b ∧ c + looked p flood s c ≤ b)
    (some (step p c - 1, s)) := by
  have hstep : step p c = 3 + 4 * ((byte p (c + 1) - 1) / 4) := if_pos hc
  refine (exact_load hb (c + 1)).bind fun hlt => ?_
  change Exact _ (if byte p (c + 1) ≤ 4 then _ else _) _ _
  by_cases h4 : byte p (c + 1) ≤ 4
  · have hnone : (byte p (c + 1) - 1) / 4 = 0 := by omega
    rw [if_pos h4, looked, if_pos ⟨hc, h4⟩, hstep, hnone]
    exact (exact_pure _).congr (iff_true_intro hlt)
  · rw [if_neg h4, looked, if_neg (fun h => h4 h.2), if_neg (by omega), hstep]
    have hrest := (exact_lsrrLoop (W := W) hb (c := c + 2) (Nat.lt_of_not_le h4)).map fun k =>
      some (2 + k, s)
    rw [show 3 + 4 * ((byte p (c + 1) - 1) / 4) - 1 = 2 + 4 * ((byte p (c + 1) - 1) / 4) by omega]
    exact hrest.congr (by omega)

theorem exact_keep (hb : b ≤ p.length) (s : Route) (hi : 0 < i) :
    ∃ s', Exact (Below b W) (keep p s c i) (i < 40 → c + i ≤ b) s' := by
  unfold keep
  by_cases h : i < 40
  · rw [dif_pos h]
    exact ⟨_, ((exact_loads hb c i).map fun bytes => _).congr (by omega)⟩
  · rw [dif_neg h]
    exact ⟨_, (exact_pure _).congr (iff_true_intro fun hlt => absurd hlt h)⟩

theorem exact_again (flood : Bool) (hb : b ≤ p.length) (s : Route) (c : ℕ) :
    Exact (Below b W) (again p flood s c (recorded p c))
      (recorded p c = s.old_rrlen ∧ c + 2 = 20 + 2 → recorded p c = 0 ∨ c + 2 + recorded p c ≤ b)
      (decide (Same p flood s c)) := by
  unfold again
  by_cases hplace : recorded p c = s.old_rrlen ∧ c + 2 = 20 + 2
  · rw [if_pos hplace]
    refine (((exact_loads hb (c + 2) (recorded p c)).map fun bytes => _).congr ?_).value fun _ => ?_
    · exact forall_prop_of_true hplace
    · exact decide_eq_decide.2 ⟨fun h => ⟨hplace.1, hplace.2, h⟩, fun h => h.2.2⟩
  · have hsame : ¬ Same p flood s c := fun h => hplace ⟨h.1, h.2.1⟩
    rw [if_neg hplace, decide_eq_false hsame]
    exact (exact_pure _).congr (iff_true_intro fun h => absurd h hplace)

theorem exact_route (flood : Bool) (hb : b ≤ p.length) (s : Route) (hpos : 0 < recorded p c) :
    ∃ s', Exact (Below b W) (route p flood s c (recorded p c))
      (c + (if Same p flood s c then 2 + recorded p c
        else 3 + 4 * min ((recorded p c + 3) / 4) 10) ≤ b)
      (some (2 + 4 * min ((recorded p c + 3) / 4) 10, s')) := by
  have hagain := exact_again flood (W := W) hb s c
  have hlt := s.lt
  by_cases hsame : Same p flood s c
  · have hplace : recorded p c = s.old_rrlen ∧ c + 2 = 20 + 2 := ⟨hsame.1, hsame.2.1⟩
    have hfour : 2 + 4 * min ((recorded p c + 3) / 4) 10 = 2 +
      (recorded p c + 3) / 4 * 4 := by omega
    refine ⟨s, (hagain.bind (r := True) fun _ => ?_).congr ?_⟩
    · rw [decide_eq_true hsame, if_pos rfl, hfour]
      exact exact_pure _
    · rw [if_pos hsame, and_true, forall_prop_of_true hplace]
      omega
  · obtain ⟨s', hkeep⟩ := exact_keep (W := W) hb s (c := c + 2) hpos
    have hprint := (exact_rrLoop (W := W) hb (c := c + 2) (j := 0) hpos (by decide)).map fun k =>
      some (2 + k, s')
    have hrest := hkeep.bind
      (f := fun s => rrLoop p (c + 2) (recorded p c) 0 >>= fun k => pure (some (2 + k, s))) fun _ =>
        hprint
    refine ⟨s', (hagain.bind (r := (recorded p c < 40 → c + 2 + recorded p c ≤ b) ∧
      c + 2 + 4 * min ((recorded p c + 3) / 4) ((43 - 0) / 4) < b) fun _ => ?_).congr ?_⟩
    · rw [decide_eq_false hsame, if_neg Bool.false_ne_true]
      exact hrest
    · rw [if_neg hsame]
      omega

theorem exact_rr (flood : Bool) (hb : b ≤ p.length) (s : Route) (hc : byte p c = 7) :
    ∃ s', Exact (Below b W) (rr p flood s c) (c + 1 < b ∧ c + 2 < b ∧ c + looked p flood s c ≤ b)
      (some (step p c - 1, s')) := by
  have hne : byte p c ≠ 131 := by omega
  have hstep : step p c = 3 + 4 * min ((recorded p c + 3) / 4) 10 := (if_neg hne).trans (if_pos hc)
  have hlooked : looked p flood s c =
      if byte p c = 7 ∧ 0 < recorded p c ∧ Same p flood s c then 2 + recorded p c else step p c :=
    if_neg fun h => hne h.1
  have hrr {s' : Route} {q : Prop} {x : Run (Option (ℕ × Route))}
      (hx : (if recorded p c = 0 then pure (some (2, s)) else route p flood s c (recorded p c)) = x)
      (h : Exact (Below b W) x q (some (step p c - 1, s'))) :
      Exact (Below b W) (rr p flood s c) (c + 1 < b ∧ c + 2 < b ∧ q) (some (step p c - 1, s')) := by
    subst hx
    exact (exact_load hb (c + 1)).bind fun _ => (exact_load hb (c + 2)).bind fun _ => h
  by_cases h0 : recorded p c = 0
  · have hvalue : step p c - 1 = 2 := by
      rw [hstep, h0]
      rfl
    refine ⟨s, (hrr (if_pos h0) ((exact_pure _).value fun _ => by rw [hvalue])).congr ?_⟩
    rw [hlooked, if_neg (by omega), hstep, h0, and_true]
    omega
  · have hpos : 0 < recorded p c := Nat.pos_of_ne_zero h0
    obtain ⟨s', hroute⟩ := exact_route flood (W := W) hb s hpos
    have hvalue : step p c - 1 = 2 + 4 * min ((recorded p c + 3) / 4) 10 := by omega
    rw [← hvalue] at hroute
    refine ⟨s', (hrr (if_neg h0) hroute).congr ?_⟩
    rw [hlooked, hstep]
    simp only [hc, hpos, true_and]

theorem getD_eq {v : Byte} : p.getD i 0 = v ↔ byte p i = v.toNat := UInt8.toNat_inj.symm

/-- **One option**: how far it is read, and stepped over. -/
theorem exact_option (flood : Bool) (hb : b ≤ p.length) (s : Route) (c : ℕ) :
    ∃ s', Exact (Below b W) (option p flood s c) (c + looked p flood s c ≤ b)
      (if byte p c = 0 then none else some (step p c - 1, s')) := by
  by_cases h0 : byte p c = 0
  · refine ⟨s, ((exact_load hb c).bind (r := True) fun _ => ?_).congr ?_⟩
    · rw [if_pos (getD_eq.2 h0), if_pos h0]
      exact exact_pure none
    · rw [looked, if_neg (by omega), if_neg (by omega), step, if_neg (by omega),
        if_neg (by omega), and_true]
      exact Iff.rfl
  by_cases h131 : byte p c = 131
  · refine ⟨s,
      ((exact_load hb c).bind (r := c + 1 < b ∧ c + looked p flood s c ≤ b) fun _ => ?_).congr ?_⟩
    · rw [if_neg (fun h => h0 (getD_eq.1 h)), if_pos (getD_eq.2 h131), if_neg h0]
      exact exact_lsrr flood hb s h131
    · have htwo : 2 ≤ looked p flood s c := by
        unfold looked step
        split_ifs <;> omega
      omega
  by_cases h7 : byte p c = 7
  · obtain ⟨s', hrr⟩ := exact_rr flood (W := W) hb s h7
    refine ⟨s', ((exact_load hb c).bind (r := c + 1 < b ∧ c + 2 < b ∧ c + looked p flood s c ≤ b)
      fun _ => ?_).congr ?_⟩
    · rw [if_neg (fun h => h0 (getD_eq.1 h)), if_neg (fun h => h131 (getD_eq.1 h)),
        if_pos (getD_eq.2 h7), if_neg h0]
      exact hrr
    · have hthree : 3 ≤ looked p flood s c := by
        unfold looked step
        split_ifs <;> omega
      omega
  · refine ⟨s, ((exact_load hb c).bind (r := True) fun _ => ?_).congr ?_⟩
    · rw [if_neg (fun h => h0 (getD_eq.1 h)), if_neg (fun h => h131 (getD_eq.1 h)),
        if_neg (fun h => h7 (getD_eq.1 h)),
        if_neg h0, step, if_neg h131, if_neg h7]
      exact exact_pure _
    · rw [looked, if_neg (fun h => h131 h.1), if_neg (fun h => h7 h.1), step, if_neg h131,
        if_neg h7, and_true]
      exact Iff.rfl

/-! ### The places -/

def IsRead (e : Event) : Prop := ∃ i, e = .read i

theorem reads_load (i : ℕ) : Clear IsRead (load p i) := by
  refine (clear_emit_bind _ _).2 ⟨⟨i, rfl⟩, ?_⟩
  split_ifs
  · exact clear_pure _
  · exact clear_stop

section
variable {α β : Type}

theorem reads_bind {x : Run α} {f : α → Run β} (hx : Clear IsRead x)
    (hf : ∀ a, Clear IsRead (f a)) :
    Clear IsRead (x >>= f) :=
  (clear_bind x f).2 ⟨hx, fun a _ => hf a⟩

theorem visits_bind {x : Run α} {a : α} (hx : Clear IsRead x) (ha : x.value = some a)
    (f : α → Run β) :
    visits (x >>= f).trace = visits (f a).trace := by
  have hnone : visits x.trace = [] := by
    refine filterMap_eq_nil_iff.2 fun e he => ?_
    obtain ⟨i, rfl⟩ := hx e he
    rfl
  rw [bind_of_some ha]
  exact (filterMap_append ..).trans
    (by rw [show List.filterMap _ x.trace = [] from hnone, nil_append]; rfl)

end

theorem reads_loads (i n : ℕ) : Clear IsRead (loads p i n) := by
  induction n generalizing i with
  | zero => exact clear_pure _
  | succ n ih =>
    exact reads_bind (reads_load i) fun _ => reads_bind (ih (i + 1)) fun _ => clear_pure _

theorem reads_lsrrLoop (c j : ℕ) : Clear IsRead (lsrrLoop p c j) := by
  induction j using Nat.strong_induction_on generalizing c with
  | _ j ih =>
    rw [lsrrLoop]
    refine reads_bind (reads_loads _ _) fun _ => ?_
    split_ifs with h
    · exact clear_pure _
    · exact reads_bind (ih (j - 4) (by omega) _) fun _ => clear_pure _

theorem reads_rrLoop (c i j : ℕ) : Clear IsRead (rrLoop p c i j) := by
  induction i using Nat.strong_induction_on generalizing c j with
  | _ i ih =>
    rw [rrLoop]
    refine reads_bind (reads_loads _ _) fun _ => ?_
    split_ifs with h4 h40
    · exact clear_pure _
    · exact clear_pure _
    · exact reads_bind (ih (i - 4) (by omega) _ _) fun _ => clear_pure _

theorem reads_option (flood : Bool) (s : Route) (c : ℕ) : Clear IsRead (option p flood s c) := by
  refine reads_bind (reads_load c) fun _ => ?_
  split_ifs
  · exact clear_pure _
  · refine reads_bind (reads_load _) fun _ => ?_
    split_ifs
    · exact clear_pure _
    · exact reads_bind (reads_lsrrLoop _ _) fun _ => clear_pure _
  · refine reads_bind (reads_load _) fun _ => reads_bind (reads_load _) fun _ => ?_
    dsimp only
    split_ifs
    · exact clear_pure _
    · refine reads_bind ?_ fun _ => ?_
      · unfold again
        split_ifs
        · exact reads_bind (reads_loads _ _) fun _ => clear_pure _
        · exact clear_pure _
      · split_ifs
        · exact clear_pure _
        · refine reads_bind ?_ fun _ => reads_bind (reads_rrLoop _ _ _) fun _ => clear_pure _
          unfold keep
          split_ifs
          · exact reads_bind (reads_loads _ _) fun _ => clear_pure _
          · exact clear_pure _
  · exact clear_pure _

/-! ### The header -/

theorem next_le (h : c < hlen) : next p hlen c ≤ hlen := by
  unfold next
  split_ifs with h1 hwhole
  · exact h
  · exact hwhole.2.2
  · exact Nat.le_refl hlen

theorem head_options (hlen c : ℕ) :
    (options p hlen c).head? = if c < hlen then some c else none := by
  rw [options]
  split_ifs <;> rfl

theorem head_walk (s : Route) (hlen c : ℕ) :
    (visits (walk p flood s (hlen + 20 - c) c).trace).head? =
    if c < hlen then some c else none := by
  rw [walk]
  by_cases h : c < hlen
  · rw [dif_neg (by omega), if_pos h, trace_emit_bind]
    rfl
  · rw [dif_pos (by omega), if_neg h]
    rfl

theorem le_of_mem_options (h : c' ∈ options p hlen c) : c ≤ c' := by
  fun_induction options p hlen c with
  | case1 c hlt ih =>
    rcases mem_cons.1 h with rfl | hmem
    · exact le_rfl
    · split_ifs at hmem with h0
      · cases hmem
      · exact le_trans (le_of_lt (lt_next hlt)) (ih hmem)
  | case2 => cases h

theorem lt_of_mem_options (h : c' ∈ options p hlen c) : c' < hlen := by
  fun_induction options p hlen c with
  | case1 c hlt ih =>
    rcases mem_cons.1 h with rfl | hmem
    · exact hlt
    · split_ifs at hmem with h0
      · cases hmem
      · exact ih hmem
  | case2 => cases h

theorem stepped_congr {s' : Route} (h : 20 < c) :
    Stepped p flood s hlen c ↔ Stepped p flood s' hlen c := by
  have hsame (s : Route) : ¬ Same p flood s c := fun hs => absurd hs.2.1 (by omega)
  have hlooked : looked p flood s c = looked p flood s' c := by
    simp only [looked, hsame, and_false, if_false]
  rw [Stepped, Stepped, hlooked]

theorem step_pos (c : ℕ) : 0 < step p c := by
  unfold step
  split_ifs <;> omega

theorem options_min (hlen c : ℕ) : options p hlen (min c hlen) = options p hlen c := by
  rcases le_total c hlen with hle | hle
  · rw [min_eq_left hle]
  · rw [min_eq_right hle, options, dif_neg (lt_irrefl hlen), options, dif_neg (Nat.not_lt.2 hle)]

theorem min_eq_of_visits (h : c' ≤ hlen)
    (hvisits : visits (walk p flood s (hlen + 20 - c) c).trace = options p hlen c') :
    min c hlen = c' := by
  have hhead := congrArg List.head? hvisits
  rw [head_walk, head_options] at hhead
  split_ifs at hhead with h1 h2 h2
  · rw [Option.some_inj] at hhead
    omega
  · omega

/-- **The walk over the options**, from a place on. -/
theorem walk_iff (flood : Bool) (hle : hlen ≤ p.length) (s : Route) (hc : 20 ≤ c) :
    visits (walk p flood s (hlen + 20 - c) c).trace = options p hlen c ∧
        Clear (Below hlen W) (walk p flood s (hlen + 20 - c) c) ↔
      ∀ c' ∈ options p hlen c, Stepped p flood s hlen c' := by
  induction hk : hlen - c using Nat.strong_induction_on generalizing s c with
  | _ k ih =>
    by_cases hlt : c < hlen
    swap
    · rw [walk, options, dif_pos (by omega), dif_neg hlt]
      exact iff_of_true ⟨rfl, clear_pure s⟩ nofun
    obtain ⟨s', hoption⟩ := exact_option flood (W := W) hle s c
    have hreads := reads_option (p := p) flood s c
    have hpos := step_pos (p := p) c
    have hvisit (t : List Event) : visits (.visit c :: t) = c :: visits t := rfl
    rw [walk, options, dif_neg (by omega), dif_pos hlt, trace_emit_bind, clear_emit_bind, hvisit,
      List.cons.injEq, eq_self, true_and, forall_mem_cons]
    by_cases hlook : c + looked p flood s c ≤ hlen
    swap
    · refine iff_of_false (fun h => hlook (hoption.1.1 ((clear_bind _ _).1 h.2.2).1)) fun h => ?_
      rcases h.1 with h0 | hstepped
      · refine hlook ?_
        rw [looked, if_neg (by omega), if_neg (by omega), step, if_neg (by omega),
          if_neg (by omega)]
        exact hlt
      · exact hlook hstepped.1
    have hyields : Yields (Below hlen W) (option p flood s c) _ :=
      ⟨hoption.1.2 hlook, hoption.2 hlook⟩
    rw [visits_bind hreads hyields.2, clear_bind_iff hyields]
    by_cases h0 : byte p c = 0
    · rw [if_pos h0, if_pos h0]
      exact iff_of_true ⟨rfl, trivial, clear_pure s⟩ ⟨.inl h0, nofun⟩
    rw [if_neg h0, if_neg h0]
    have hmove : step p c - 1 + 1 = step p c := by omega
    have hhlen : hlen + 20 - c - (step p c - 1 + 1) = hlen + 20 - (c + step p c) := by omega
    dsimp only
    rw [hhlen, hmove]
    have hrest :=
      ih (hlen - (c + step p c)) (by omega) s' (Nat.le_trans hc (Nat.le_add_right c _)) rfl
    have hcongr (hnext : min (c + step p c) hlen = next p hlen c) :
        options p hlen (next p hlen c) =
        options p hlen (c + step p c) := by rw [← hnext, options_min]
    have hstatic : (∀ c' ∈ options p hlen (next p hlen c), Stepped p flood s hlen c') ↔
        ∀ c' ∈ options p hlen (next p hlen c), Stepped p flood s' hlen c' := by
      refine forall₂_congr fun c' hmem => stepped_congr ?_
      exact Nat.lt_of_le_of_lt hc (Nat.lt_of_lt_of_le (lt_next hlt) (le_of_mem_options hmem))
    rw [hstatic]
    constructor
    · rintro ⟨hvisits, -, hclear⟩
      have hnext := min_eq_of_visits (next_le hlt) hvisits
      refine ⟨.inr ⟨hlook, hnext⟩, ?_⟩
      rw [hcongr hnext] at hvisits ⊢
      exact hrest.1 ⟨hvisits, hclear⟩
    · rintro ⟨hstepped, hall⟩
      have hnext := (hstepped.resolve_left h0).2
      rw [hcongr hnext] at hall ⊢
      exact ⟨(hrest.2 hall).1, trivial, (hrest.2 hall).2⟩

/-- **When `print_ip_opt` visits the options and reads nothing behind the header**. -/
theorem walks_iff (hle : hlen ≤ p.length) (s : Route) :
    Walks p flood s hlen ↔ ∀ c ∈ options p hlen 20, Stepped p flood s hlen c := by
  have hwalk := walk_iff flood (W := fun _ _ => True) hle s (Nat.le_refl 20)
  rwa [Nat.add_sub_cancel] at hwalk

/-- **Which options are stepped over by their length**: of those of at least three bytes, the source
routes that end with an address, and the recorded ones that are full besides. -/
theorem stepped_iff (hwhole : Whole p hlen c) (hfour : hlen % 4 = 0) (hmax : hlen ≤ 60)
    (hc : 20 ≤ c) (h3 : 3 ≤ byte p (c + 1)) (h0 : byte p c ≠ 0) (h1 : byte p c ≠ 1) :
    Stepped p flood s hlen c ↔
      byte p (c + 1) % 4 = 3 ∧
        (byte p c = 131 ∨ byte p c = 7 ∧
          (byte p (c + 1) = 3 ∨ byte p (c + 1) ≤ byte p (c + 2) + 2)) := by
  have hnext : next p hlen c = c + byte p (c + 1) := by rw [next, if_neg h1, if_pos hwhole]
  obtain ⟨-, -, hend⟩ := hwhole
  rw [Stepped, or_iff_right h0, hnext]
  by_cases h131 : byte p c = 131
  · have hstep : step p c = 3 + 4 * ((byte p (c + 1) - 1) / 4) := if_pos h131
    have hlooked : looked p flood s c = if byte p (c + 1) ≤ 4 then 2 else step p c := by
      unfold looked
      simp only [h131, true_and, show ¬ (131 = 7) by decide, false_and, if_false]
    rw [hlooked, hstep, or_iff_left (by omega)]
    split_ifs <;> omega
  by_cases h7 : byte p c = 7
  · have hstep : step p c = 3 + 4 * min ((recorded p c + 3) / 4) 10 :=
      (if_neg h131).trans (if_pos h7)
    have hlooked : looked p flood s c = if 0 < recorded p c ∧ Same p flood s c then 2 + recorded p c
      else step p c := by
      unfold looked
      simp only [h7, show ¬ (7 = 131) by decide, false_and, if_false, true_and]
    have hrecorded : recorded p c = min (byte p (c + 2)) (byte p (c + 1)) - 4 := rfl
    rw [hlooked, hstep, or_iff_right h131]
    split_ifs with hsame
    · have hplace := hsame.2.2.1
      omega
    · omega
  · have hstep : step p c = 1 := (if_neg h131).trans (if_neg h7)
    omega

variable (p) in
/-- Each option is the end, a NOP or a whole one of at least three bytes. -/
def Formed (hlen : ℕ) : Prop :=
  ∀ c ∈ options p hlen 20, byte p c = 0 ∨ byte p c = 1 ∨ Whole p hlen c ∧ 3 ≤ byte p (c + 1)

theorem stepped_nop (h : byte p c = 1) (hlt : c < hlen) : Stepped p flood s hlen c := by
  have hstep : step p c = 1 := by simp [step, h]
  have hlooked : looked p flood s c = 1 := by simp [looked, h, hstep]
  rw [Stepped, hlooked, hstep, next, if_pos h]
  omega

/-- **The headers that are printed right**: of those whose options are formed, the ones that have no
other options than these routes. -/
theorem walks_formed_iff (hle : hlen ≤ p.length) (hfour : hlen % 4 = 0) (hmax : hlen ≤ 60)
    (h : Formed p hlen)
    (s : Route) : Walks p flood s hlen ↔ ∀ c ∈ options p hlen 20, byte p c = 0 ∨ byte p c = 1 ∨
      byte p (c + 1) % 4 = 3 ∧
        (byte p c = 131 ∨ byte p c = 7 ∧
          (byte p (c + 1) = 3 ∨ byte p (c + 1) ≤ byte p (c + 2) + 2)) := by
  rw [walks_iff hle]
  refine forall₂_congr fun c hc => ?_
  by_cases h0 : byte p c = 0
  · exact iff_of_true (.inl h0) (.inl h0)
  by_cases h1 : byte p c = 1
  · exact iff_of_true (stepped_nop h1 (lt_of_mem_options hc)) (.inr (.inl h1))
  obtain ⟨hwhole, h3⟩ := ((h c hc).resolve_left h0).resolve_left h1
  rw [or_iff_right h0, or_iff_right h1]
  exact stepped_iff hwhole hfour hmax (le_of_mem_options hc) h3 h0 h1

/-- Behind a NOP a source route without addresses. -/
theorem walks_formed_nop :
    Walks (List.replicate 20 0 ++ [1, 131, 3, 4]) false ⟨0, [], by decide⟩ 24 := by
  have hoptions : options (List.replicate 20 0 ++ [1, 131, 3, 4]) 24 20 = [20, 21] := by
    simp [options, next, Whole, byte, List.replicate]
  refine (walks_formed_iff (by decide) (by decide) (by decide) ?_ _).2 ?_
  · rw [Formed, hoptions]
    decide
  · rw [hoptions]
    decide

/-! ### What the options depend on -/

variable {q : List Byte} {hlen : ℕ}

theorem getD_of_take {n : ℕ} (h : q.take n = p.take n) (hi : i < n) : q.getD i 0 = p.getD i 0 := by
  have hget := congrArg (fun l => l[i]?) h
  simp only [getElem?_take, if_pos hi] at hget
  rw [getD_eq_getElem?_getD, getD_eq_getElem?_getD, hget]

theorem options_congr (h : q.take (hlen + 2) = p.take (hlen + 2)) (c : ℕ) :
    options q hlen c = options p hlen c := by
  have hbyte {i : ℕ} (hi : i < hlen + 2) : byte q i = byte p i :=
    congrArg UInt8.toNat (getD_of_take h hi)
  fun_induction options p hlen c with
  | case1 c hlt ih =>
    have hnext : next q hlen c = next p hlen c := by
      simp only [next, Whole, hbyte (show c < hlen + 2 by omega),
        hbyte (show c + 1 < hlen + 2 by omega)]
    rw [options, dif_pos hlt, hbyte (by omega), hnext, ih]
  | case2 c hlt => rw [options, dif_neg hlt]

theorem stepped_congr_take (h : q.take (hlen + 2) = p.take (hlen + 2)) (hmax : hlen ≤ 60)
    (hc : 20 ≤ c) (hlt : c < hlen) : Stepped q flood s hlen c ↔ Stepped p flood s hlen c := by
  have hbyte {i : ℕ} (hi : i < hlen + 2) : byte q i = byte p i :=
    congrArg UInt8.toNat (getD_of_take h hi)
  have h0 := hbyte (show c < hlen + 2 by omega)
  have h1 := hbyte (show c + 1 < hlen + 2 by omega)
  have h2 := hbyte (show c + 2 < hlen + 2 by omega)
  have hrecorded : recorded q c = recorded p c := by rw [recorded, recorded, h1, h2]
  have hstep : step q c = step p c := by simp only [step, h0, h1, hrecorded]
  have hnext : next q hlen c = next p hlen c := by simp only [next, Whole, h0, h1]
  have hlooked (p : List Byte) (h7 : byte p c = 7) (hlong : hlen - c < recorded p c) :
      ¬ c + looked p flood s c ≤ hlen := by
    unfold looked step
    split_ifs <;> omega
  by_cases hlong : byte p c = 7 ∧ hlen - c < recorded p c
  · have hp := hlooked p hlong.1 hlong.2
    have hq := hlooked q (h0.trans hlong.1) (hrecorded ▸ hlong.2)
    unfold Stepped
    rw [h0]
    exact or_congr Iff.rfl (iff_of_false (fun h => hq h.1) fun h => hp h.1)
  · have hsame : byte p c = 7 → (Same q flood s c ↔ Same p flood s c) := by
      intro h7
      have hshort : c + 2 + recorded p c ≤ hlen + 2 := by omega
      have hslice (p : List Byte) (hs : c + 2 + recorded p c ≤ hlen + 2) :
          (p.drop (c + 2)).take (recorded p c) =
          ((p.take (hlen + 2)).drop (c + 2)).take (recorded p c) := by
        rw [drop_take, take_take, min_eq_left (by omega)]
      unfold Same
      rw [hslice q (by rwa [hrecorded]), hslice p hshort, h, hrecorded]
    have hlooked : looked q flood s c = looked p flood s c := by
      unfold looked
      rw [h0, h1, hrecorded, hstep]
      by_cases h7 : byte p c = 7
      · simp only [hsame h7]
      · simp only [h7, false_and]
    rw [Stepped, Stepped, h0, hlooked, hstep, hnext]

end Inetutils.Ping.Options
