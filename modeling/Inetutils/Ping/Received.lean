import Inetutils.Libicmp.Cksum
import Inetutils.Ping.Options

/-! # What ping reads of a packet

`ping_recv` and `my_echo_reply` of `src/ping/libping.c`, with the handler of `src/ping/ping_echo.c`:
`print_echo` for a reply, and for an error `print_icmp_header`, which prints the header that is
quoted. The packet is what `recvfrom` has stored, and `icmp` is a place in it. -/

namespace Inetutils.Ping.Received

open Lib.Traced List
open Libicmp
open Options

/-! ### The functions -/

/-- The fields of `PING`, and the options. -/
structure PingData where
  order : Cksum.Order
  ident : ℕ
  dest : List Byte
  quiet : Bool
  flood : Bool
  verbose : Bool

/-- What `icmp_generic_decode` reads, and what it returns: the place of the message, and the packet
with the checksum stored again. -/
def decode (o : Cksum.Order) (p : List Byte) : Run (ℤ × ℕ × List Byte) := do
  let b ← load p 0
  let hlen := 4 * (b.toNat % 16)
  if p.length < hlen + 8 then pure (-1, hlen, p)
  else
    let _ ← loads p hlen (p.length - hlen)
    match Cksum.icmp_generic_decode o p with
    | some (rc, p) => pure (rc, hlen, p)
    | none => stop

/-- **`my_echo_reply`** -/
def my_echo_reply (P : PingData) (p : List Byte) (icmp : ℕ) : Run Bool := do
  let ip_dst ← loads p (icmp + 8 + 16) 4
  if ip_dst ≠ P.dest then pure false
  else
    let ip_p ← load p (icmp + 8 + 9)
    if ip_p ≠ 1 then pure false
    else
      let icmp_type ← load p (icmp + 8 + 20)
      if icmp_type ≠ 8 then pure false
      else
        let a ← load p (icmp + 8 + 20 + 4)
        let b ← load p (icmp + 8 + 20 + 5)
        pure (decide (P.order.word a b = P.ident))

/-- **`print_ip_header`** -/
def print_ip_header (p : List Byte) (ip : ℕ) : Run Unit := do
  let b ← load p ip
  let _ ← loads p ip 20
  let _ ← loads p (ip + 20) (4 * (b.toNat % 16) - 20)
  pure ()

/-- **`print_ip_data`** -/
def print_ip_data (p : List Byte) (icmp : ℕ) : Run Unit := do
  let _ ← print_ip_header p (icmp + 8)
  let b ← load p (icmp + 8)
  let ip_p ← load p (icmp + 8 + 9)
  if ip_p = 6 ∨ ip_p = 17 then
    let _ ← loads p (icmp + 8 + 4 * (b.toNat % 16)) 4
    pure ()
  else pure ()

def print_icmp (p : List Byte) (icmp : ℕ) : Run Unit := do
  let _ ← load p (icmp + 1)
  print_ip_data p icmp

def print_parameterprob (p : List Byte) (icmp : ℕ) : Run Unit := do
  let _ ← loads p (icmp + 4) 4
  print_ip_data p icmp

/-- The functions of `icmp_diag`; `none` is a type with a text. -/
def icmp_diag : List (ℕ × Option (List Byte → ℕ → Run Unit)) :=
  [(0, none), (3, some print_icmp), (4, some print_ip_data), (5, some print_icmp), (8, none),
    (11, some print_icmp), (12, some print_parameterprob), (13, none), (14, none), (15, none)]

def diag (type : ℕ) : Option (List Byte → ℕ → Run Unit) :=
  (icmp_diag.find? (·.1 = type)).bind Prod.snd

def shown (P : PingData) (p : List Byte) (icmp : ℕ) : Run Bool :=
  if P.verbose then pure true
  else do
    let ip_dst ← loads p (icmp + 8 + 16) 4
    pure (decide (ip_dst = P.dest))

def print_icmp_header (P : PingData) (p : List Byte) (icmp : ℕ) : Run Unit := do
  let _ ← load p 0
  let yes ← shown P p icmp
  if yes = false then pure ()
  else
    let icmp_type ← load p icmp
    match diag icmp_type.toNat with
    | some f => f p icmp
    | none => pure ()

/-- `print_echo`, with a `struct timeval` of 16 bytes. -/
def print_echo (P : PingData) (s : Route) (p : List Byte) (icmp : ℕ) : Run Route := do
  let b ← load p 0
  let hlen := 4 * (b.toNat % 16)
  let _ ← loads p (icmp + 8) (if 16 ≤ p.length - hlen - 8 then 16 else 0)
  if P.quiet || P.flood then pure s
  else
    let _ ← loads p (icmp + 6) 2
    let _ ← load p 8
    emit (.enter p hlen)
    print_ip_opt p P.flood s hlen

/-- The `switch` of `ping_recv`. -/
def receive (P : PingData) (s : Route) (p : List Byte) (icmp : ℕ) : Run (ℤ × Route) := do
  let icmp_type ← load p icmp
  if icmp_type = 0 ∨ icmp_type = 14 ∨ icmp_type = 18 then
    let a ← load p (icmp + 4)
    let b ← load p (icmp + 5)
    if P.order.word a b ≠ P.ident then pure (-1, s)
    else
      let _ ← loads p (icmp + 6) 2
      let s ← print_echo P s p icmp
      pure (0, s)
  else if icmp_type = 8 ∨ icmp_type = 13 ∨ icmp_type = 17 then pure (-1, s)
  else
    let mine ← my_echo_reply P p icmp
    if mine then
      let _ ← print_icmp_header P p icmp
      pure (0, s)
    else pure (-1, s)

/-- **`ping_recv`** of a packet that was received, with what is remembered of a route. -/
def ping_recv (P : PingData) (s : Route) (p : List Byte) : Run (ℤ × Route) := do
  let (rc, icmp, p) ← decode P.order p
  if rc < 0 then pure (-1, s) else receive P s p icmp

/-! ### What is to hold -/

/-- No byte behind the packet is read, and every call of `print_ip_opt` walks over the options of
the header. -/
def Safe (P : PingData) (s : Route) (p : List Byte) : Prop :=
  Clear (Below p.length fun packet hlen => Walks packet P.flood s hlen) (ping_recv P s p)

/-! ### When it holds -/

section
variable (P : PingData) (s : Route) (p : List Byte)

def icmp_id (i : ℕ) : ℕ := P.order.word (p.getD i 0) (p.getD (i + 1) 0)

def Quoting (type : ℕ) : Prop := type = 3 ∨ type = 4 ∨ type = 5 ∨ type = 11 ∨ type = 12

/-- A reply to us that is printed has its options stepped over. -/
def ReplyFits (icmp : ℕ) : Prop :=
  icmp_id P p (icmp + 4) = P.ident → P.quiet = false → P.flood = false →
    8 < p.length ∧ ∀ c ∈ options p icmp 20, Stepped p false s icmp c

/-- An error has the header of the packet it is about; of a request of ours it has the bytes up to
the identifier, and the whole header if that is printed. -/
def ErrorFits (icmp : ℕ) : Prop :=
  icmp + 28 ≤ p.length ∧
    ((p.drop (icmp + 24)).take 4 = P.dest → byte p (icmp + 17) = 1 →
      icmp + 28 < p.length ∧
        (byte p (icmp + 28) = 8 →
          icmp + 34 ≤ p.length ∧
            (icmp_id P p (icmp + 32) = P.ident → Quoting (byte p icmp) →
              icmp + 8 + 4 * (byte p (icmp + 8) % 16) ≤ p.length)))

def Fits (icmp : ℕ) : Prop :=
  if byte p icmp = 0 ∨ byte p icmp = 14 ∨ byte p icmp = 18 then ReplyFits P s p icmp
  else if byte p icmp = 8 ∨ byte p icmp = 13 ∨ byte p icmp = 17 then True
  else ErrorFits P p icmp

def Mine (icmp : ℕ) : Prop :=
  (p.drop (icmp + 24)).take 4 = P.dest ∧ byte p (icmp + 17) = 1 ∧ byte p (icmp + 28) = 8 ∧
    icmp_id P p (icmp + 32) = P.ident

instance (icmp : ℕ) : Decidable (Mine P p icmp) := by unfold Mine; infer_instance

end

variable {P : PingData} {s : Route} {p : List Byte} {icmp : ℕ} {W : List Byte → ℕ → Prop}

/-! ### A packet that is quoted -/

theorem exact_my_echo_reply :
    Exact (Below p.length W) (my_echo_reply P p icmp)
      (icmp + 28 ≤ p.length ∧
        ((p.drop (icmp + 24)).take 4 = P.dest → byte p (icmp + 17) = 1 →
          icmp + 28 < p.length ∧ (byte p (icmp + 28) = 8 → icmp + 34 ≤ p.length)))
      (decide (Mine P p icmp)) := by
  have hle := Nat.le_refl p.length
  have hload (i : ℕ) := exact_load (W := W) hle i
  have hfalse (h : ¬ Mine P p icmp) : decide (Mine P p icmp) = false := decide_eq_false h
  by_cases hdest : (p.drop (icmp + 24)).take 4 = P.dest
  swap
  · rw [hfalse fun h => hdest h.1]
    refine ((exact_loads hle (icmp + 8 + 16) 4).bind (r := True) fun _ => ?_).congr ?_
    · rw [if_pos hdest]
      exact exact_pure false
    · simp only [hdest, false_implies, and_true]
      omega
  by_cases hproto : byte p (icmp + 17) = 1
  swap
  · rw [hfalse fun h => hproto h.2.1]
    refine ((exact_loads hle (icmp + 8 + 16) 4).bind (r := icmp + 17 < p.length ∧ True) fun _ =>
      ?_).congr ?_
    · rw [if_neg (not_not.2 hdest)]
      refine (hload _).bind fun _ => ?_
      rw [if_pos fun h => hproto (getD_eq.1 h)]
      exact exact_pure false
    · simp only [hproto, false_implies, implies_true, and_true]
      omega
  by_cases htype : byte p (icmp + 28) = 8
  swap
  · rw [hfalse fun h => htype h.2.2.1]
    refine ((exact_loads hle (icmp + 8 + 16) 4).bind
      (r := icmp + 17 < p.length ∧ icmp + 28 < p.length ∧ True)
      fun _ => ?_).congr ?_
    · rw [if_neg (not_not.2 hdest)]
      refine (hload _).bind fun _ => ?_
      rw [if_neg (not_not.2 (getD_eq.2 hproto))]
      refine (hload _).bind fun _ => ?_
      rw [if_pos fun h => htype (getD_eq.1 h)]
      exact exact_pure false
    · simp only [hdest, hproto, htype, false_implies, forall_const, and_true]
      omega
  · refine ((exact_loads hle (icmp + 8 + 16) 4).bind
      (r := icmp + 17 < p.length ∧ icmp + 28 < p.length ∧
      icmp + 32 < p.length ∧ icmp + 33 < p.length ∧ True) fun _ => ?_).congr ?_
    · rw [if_neg (not_not.2 hdest)]
      refine (hload _).bind fun _ => ?_
      rw [if_neg (not_not.2 (getD_eq.2 hproto))]
      refine (hload _).bind fun _ => ?_
      rw [if_neg (not_not.2 (getD_eq.2 htype))]
      refine (hload _).bind fun _ => (hload _).bind fun _ => ?_
      refine (exact_pure _).value fun _ => decide_eq_decide.2 ?_
      exact ⟨fun h => ⟨hdest, hproto, htype, h⟩, fun h => h.2.2.2⟩
    · simp only [hdest, hproto, htype, forall_const, and_true]
      omega

theorem exact_print_ip_data (h : icmp + 34 ≤ p.length) (hproto : byte p (icmp + 17) = 1) :
    Exact (Below p.length W) (print_ip_data p icmp)
    (icmp + 8 + 4 * (byte p (icmp + 8) % 16) ≤ p.length) () := by
  have hle := Nat.le_refl p.length
  have hheader : Exact (Below p.length W) (print_ip_header p (icmp + 8))
      (icmp + 8 + 4 * (byte p (icmp + 8) % 16) ≤ p.length) () := by
    refine ((exact_load hle (icmp + 8)).bind (r := (20 = 0 ∨ icmp + 8 + 20 ≤ p.length) ∧ _) fun _ =>
      (exact_loads hle (icmp + 8) 20).bind fun _ => (exact_loads hle (icmp + 8 + 20) _).map fun _ =>
        ()).congr ?_
    have hbyte : (p.getD (icmp + 8) 0).toNat = byte p (icmp + 8) := rfl
    omega
  refine (hheader.bind (r := icmp + 8 < p.length ∧ icmp + 17 < p.length ∧ True) fun _ => ?_).congr
    ?_
  · refine (exact_load hle _).bind fun _ => (exact_load hle _).bind fun _ => ?_
    have hother {v : Byte} (hv : v.toNat ≠ 1) : p.getD (icmp + 8 + 9) 0 ≠ v :=
      fun h => hv ((getD_eq.1 h).symm.trans hproto)
    rw [if_neg (not_or.2 ⟨hother (by decide), hother (by decide)⟩)]
    exact exact_pure ()
  · rw [and_true]
    omega

theorem exact_shown (hdest : (p.drop (icmp + 24)).take 4 = P.dest) (h : icmp + 34 ≤ p.length) :
    Exact (Below p.length W) (shown P p icmp) True true := by
  unfold shown
  split_ifs
  · exact exact_pure true
  · have hloads := (exact_loads (W := W) (Nat.le_refl p.length) (icmp + 8 + 16) 4).map fun ip_dst =>
      decide (ip_dst = P.dest)
    exact (hloads.congr (iff_of_true trivial (by omega))).value fun _ => decide_eq_true hdest

theorem diag_eq (type : ℕ) :
    (∃ f, diag type = some f ∧ Quoting type ∧
      (f = print_icmp ∨ f = print_ip_data ∨ f = print_parameterprob)) ∨
      diag type = none ∧ ¬ Quoting type := by
  by_cases h : Quoting type
  · refine .inl ?_
    rcases h with rfl | rfl | rfl | rfl | rfl
    · exact ⟨_, rfl, .inl rfl, .inl rfl⟩
    · exact ⟨_, rfl, .inr (.inl rfl), .inr (.inl rfl)⟩
    · exact ⟨_, rfl, .inr (.inr (.inl rfl)), .inl rfl⟩
    · exact ⟨_, rfl, .inr (.inr (.inr (.inl rfl))), .inl rfl⟩
    · exact ⟨_, rfl, .inr (.inr (.inr (.inr rfl))), .inr (.inr rfl)⟩
  · refine .inr ⟨?_, h⟩
    unfold Quoting at h
    unfold diag icmp_diag
    cases hfind : List.find? _ _ with
    | none => rfl
    | some d =>
      have hmem := mem_of_find?_eq_some hfind
      have htype := find?_some hfind
      simp only [mem_cons, not_mem_nil, or_false] at hmem
      rcases hmem with rfl | rfl | rfl | rfl | rfl | rfl | rfl | rfl | rfl | rfl <;> simp_all

theorem exact_print_icmp_header (h : icmp + 34 ≤ p.length) (hmine : Mine P p icmp) :
    Exact (Below p.length W) (print_icmp_header P p icmp)
      (Quoting (byte p icmp) → icmp + 8 + 4 * (byte p (icmp + 8) % 16) ≤ p.length) () := by
  have hle := Nat.le_refl p.length
  obtain ⟨hdest, hproto, -, -⟩ := hmine
  have hdata := exact_print_ip_data (W := W) h hproto
  refine ((exact_load hle 0).bind (r := True ∧ icmp < p.length ∧ (Quoting (byte p icmp) →
    icmp + 8 + 4 * (byte p (icmp + 8) % 16) ≤ p.length)) fun _ =>
      (exact_shown hdest h).bind fun _ => ?_).congr ?_
  · rw [if_neg (by decide)]
    refine (exact_load hle icmp).bind fun _ => ?_
    change Exact _ (match diag (byte p icmp) with | some f => f p icmp | none => pure ()) _ _
    rcases diag_eq (byte p icmp) with ⟨f, hf, hquoting, rfl | rfl | rfl⟩ | ⟨hnone, hother⟩
    · rw [hf, forall_prop_of_true hquoting]
      exact ((exact_load hle (icmp + 1)).bind fun _ => hdata).congr (by omega)
    · rw [hf, forall_prop_of_true hquoting]
      exact hdata
    · rw [hf, forall_prop_of_true hquoting]
      exact ((exact_loads hle (icmp + 4) 4).bind fun _ => hdata).congr (by omega)
    · rw [hnone]
      exact (exact_pure ()).congr (iff_true_intro fun h => absurd h hother)
  · constructor
    · exact fun hq => ⟨by omega, trivial, by omega, hq⟩
    · exact fun hq => hq.2.2.2

/-! ### A reply -/

theorem clear_print_ip_opt {hlen : ℕ} (hwalks : Walks p P.flood s hlen) (hle : hlen ≤ p.length) :
    Clear (Below p.length W) (print_ip_opt p P.flood s hlen) := by
  have hwalk := (walk_iff P.flood (W := W) hle s (Nat.le_refl 20)).2 ((walks_iff hle s).1 hwalks)
  rw [Nat.add_sub_cancel] at hwalk
  refine hwalk.2.mono fun e he => ?_
  cases e with
  | read i => exact Nat.lt_of_lt_of_le he hle
  | visit c => trivial
  | enter q hlen => exact he

theorem clear_print_echo (h : icmp + 8 ≤ p.length) (hicmp : icmp = 4 * (byte p 0 % 16)) :
    Clear (Below p.length fun q hlen => Walks q P.flood s hlen) (print_echo P s p icmp) ↔
      (P.quiet = false → P.flood = false → 8 < p.length ∧ Walks p false s icmp) := by
  have hle := Nat.le_refl p.length
  have hload (i : ℕ) := exact_load (W := fun q hlen => Walks q P.flood s hlen) hle i
  have hloads (i n : ℕ) := exact_loads (W := fun q hlen => Walks q P.flood s hlen) hle i n
  have hhlen : 4 * ((p.getD 0 0).toNat % 16) = icmp := hicmp.symm
  rw [print_echo, (hload 0).clear_bind]
  have htiming : (if 16 ≤ p.length - icmp - 8 then 16 else 0) = 0 ∨
      icmp + 8 + (if 16 ≤ p.length - icmp - 8 then 16 else 0) ≤ p.length := by
    split_ifs <;> omega
  rw [hhlen, (hloads _ _).clear_bind, and_iff_right (by omega), and_iff_right htiming]
  by_cases hprint : P.quiet = false ∧ P.flood = false
  · obtain ⟨hquiet, hflood⟩ := hprint
    rw [if_neg (by rw [hquiet, hflood]; decide), (hloads _ _).clear_bind, (hload 8).clear_bind,
      clear_emit_bind, forall_prop_of_true hquiet, forall_prop_of_true hflood]
    constructor
    · rintro ⟨-, h8, hwalks, -⟩
      rw [hflood] at hwalks
      exact ⟨h8, hwalks⟩
    · rintro ⟨h8, hwalks⟩
      rw [← hflood] at hwalks
      exact ⟨by omega, h8, hwalks, clear_print_ip_opt hwalks (by omega)⟩
  · have hquiet : (P.quiet || P.flood) = true := by
      rw [Bool.or_eq_true, ← Bool.not_eq_false, ← Bool.not_eq_false]
      exact not_and_or.1 hprint
    rw [if_pos hquiet]
    exact iff_of_true (clear_pure s) fun hquiet hflood => absurd ⟨hquiet, hflood⟩ hprint

theorem clear_receive (h : icmp + 8 ≤ p.length) (hicmp : icmp = 4 * (byte p 0 % 16)) :
    Clear (Below p.length fun q hlen => Walks q P.flood s hlen) (receive P s p icmp) ↔
    Fits P s p icmp := by
  have hle := Nat.le_refl p.length
  have hload (i : ℕ) := exact_load (W := fun q hlen => Walks q P.flood s hlen) hle i
  have htypes (a b c : Byte) : (p.getD icmp 0 = a ∨ p.getD icmp 0 = b ∨ p.getD icmp 0 = c) ↔
      byte p icmp = a.toNat ∨ byte p icmp = b.toNat ∨ byte p icmp = c.toNat :=
    or_congr getD_eq (or_congr getD_eq getD_eq)
  rw [receive, (hload icmp).clear_bind, and_iff_right (by omega), Fits]
  by_cases hreply : byte p icmp = 0 ∨ byte p icmp = 14 ∨ byte p icmp = 18
  · rw [if_pos ((htypes 0 14 18).2 hreply), if_pos hreply, (hload _).clear_bind,
      (hload _).clear_bind, and_iff_right (by omega), and_iff_right (by omega), ReplyFits]
    by_cases hid : icmp_id P p (icmp + 4) = P.ident
    · have hword : P.order.word (p.getD (icmp + 4) 0) (p.getD (icmp + 5) 0) = P.ident := hid
      rw [if_neg (not_not.2 hword), (exact_loads hle _ _).clear_bind,
        and_iff_right (by omega), clear_bind,
        clear_print_echo h hicmp, forall_prop_of_true hid, walks_iff (by omega)]
      exact and_iff_left fun a _ => clear_pure _
    · have hword : P.order.word (p.getD (icmp + 4) 0) (p.getD (icmp + 5) 0) ≠ P.ident := hid
      rw [if_pos hword]
      exact iff_of_true (clear_pure _) fun h => absurd h hid
  by_cases hrequest : byte p icmp = 8 ∨ byte p icmp = 13 ∨ byte p icmp = 17
  · rw [if_neg (fun h => hreply ((htypes 0 14 18).1 h)), if_pos ((htypes 8 13 17).2 hrequest),
      if_neg hreply,
      if_pos hrequest]
    exact iff_of_true (clear_pure _) trivial
  · rw [if_neg (fun h => hreply ((htypes 0 14 18).1 h)),
      if_neg (fun h => hrequest ((htypes 8 13 17).1 h)),
      if_neg hreply, if_neg hrequest, exact_my_echo_reply.clear_bind, ErrorFits]
    by_cases hmine : Mine P p icmp
    · rw [decide_eq_true hmine, if_pos rfl, and_assoc]
      refine and_congr_right fun _ => ?_
      obtain ⟨hdest, hproto, htype, hid⟩ := id hmine
      rw [forall_prop_of_true hdest, forall_prop_of_true hproto, forall_prop_of_true hdest,
        forall_prop_of_true hproto,
        forall_prop_of_true htype, forall_prop_of_true htype, forall_prop_of_true hid, and_assoc]
      refine and_congr_right fun _ => and_congr_right fun hlen => ?_
      rw [(exact_print_icmp_header hlen hmine).clear_bind]
      exact and_iff_left (clear_pure _)
    · rw [decide_eq_false hmine, if_neg Bool.false_ne_true, and_iff_left (clear_pure _)]
      refine and_congr_right fun _ => forall₂_congr fun hdest hproto => and_congr_right fun _ => ?_
      refine forall_congr' fun htype => (and_iff_left fun hid => ?_).symm
      exact absurd ⟨hdest, hproto, htype, hid⟩ hmine

/-! ### The checksum that is stored again -/

/-- Two packets that differ in the checksum of the message. -/
structure SameBut (icmp : ℕ) (q p : List Byte) : Prop where
  length : q.length = p.length
  take : q.take (icmp + 2) = p.take (icmp + 2)
  drop : q.drop (icmp + 4) = p.drop (icmp + 4)

section
variable {q : List Byte}

theorem SameBut.getD (h : SameBut icmp q p) {i : ℕ} (hi : i < icmp + 2 ∨ icmp + 4 ≤ i) :
    q.getD i 0 = p.getD i 0 := by
  rcases hi with hlt | hge
  · exact getD_of_take h.take hlt
  · have hget := congrArg (fun l => l[i - (icmp + 4)]?) h.drop
    simp only [getElem?_drop, show icmp + 4 + (i - (icmp + 4)) = i by omega] at hget
    rw [getD_eq_getElem?_getD, getD_eq_getElem?_getD, hget]

theorem SameBut.slice (h : SameBut icmp q p) (i n : ℕ) (hi : icmp + 4 ≤ i) :
    (q.drop i).take n = (p.drop i).take n := by
  have hdrop (l : List Byte) : l.drop i = (l.drop (icmp + 4)).drop (i - (icmp + 4)) := by
    rw [drop_drop, show icmp + 4 + (i - (icmp + 4)) = i by omega]
  rw [hdrop q, hdrop p, h.drop]

theorem fits_congr (h : SameBut icmp q p) (hmax : icmp ≤ 60) : Fits P s q icmp ↔
    Fits P s p icmp := by
  have hbyte {i : ℕ} (hi : i < icmp + 2 ∨ icmp + 4 ≤ i) : byte q i = byte p i :=
    congrArg UInt8.toNat (h.getD hi)
  have hid {i : ℕ} (hi : icmp + 4 ≤ i) : icmp_id P q i = icmp_id P p i := by
    rw [icmp_id, icmp_id, h.getD (.inr hi), h.getD (.inr (Nat.le_succ_of_le hi))]
  have htype := hbyte (i := icmp) (by omega)
  have hoptions : (∀ c ∈ options q icmp 20, Stepped q false s icmp c) ↔
      ∀ c ∈ options p icmp 20, Stepped p false s icmp c := by
    rw [options_congr h.take]
    exact forall₂_congr fun c hc =>
      stepped_congr_take h.take hmax (le_of_mem_options hc) (lt_of_mem_options hc)
  have hreply : ReplyFits P s q icmp ↔ ReplyFits P s p icmp := by
    rw [ReplyFits, ReplyFits, hid le_rfl, h.length, hoptions]
  have herror : ErrorFits P q icmp ↔ ErrorFits P p icmp := by
    simp only [ErrorFits, h.length, h.slice (icmp + 24) 4 (by omega),
      hbyte (i := icmp + 17) (by omega),
      hbyte (i := icmp + 28) (by omega), hid (i := icmp + 32) (by omega), htype,
      hbyte (i := icmp + 8) (by omega)]
  unfold Fits
  rw [htype]
  split_ifs
  · exact hreply
  · exact Iff.rfl
  · exact herror

end

/-! ### A packet -/

theorem exact_decode_short (o : Cksum.Order) (hp : p ≠ []) (h : p.length < Cksum.hlen p + 8) :
    Exact (Below p.length W) (decode o p) True (-1, Cksum.hlen p, p) := by
  obtain ⟨b, p', rfl⟩ := exists_cons_of_ne_nil hp
  refine ((exact_load le_rfl 0).bind (r := True) fun _ => ?_).congr
    (iff_of_true trivial ⟨?_, trivial⟩)
  · change Exact _ (if (b :: p').length < Cksum.hlen (b :: p') + 8 then _ else _) _ _
    rw [if_pos h]
    exact exact_pure _
  · exact Nat.succ_pos _

theorem icmp_generic_decode_eq (o : Cksum.Order) (hp : p ≠ []) (h : Cksum.hlen p + 8 ≤ p.length)
    (hmax : p.length ≤ 65535) :
    ∃ rc q, Cksum.icmp_generic_decode o p = some (rc, q) ∧ 0 ≤ rc ∧ SameBut (Cksum.hlen p) q p := by
  have hicmp : (p.drop (Cksum.hlen p)).length = p.length - Cksum.hlen p := length_drop
  have hfour : 4 ≤ (p.drop (Cksum.hlen p)).length := by omega
  have hcksum := Cksum.icmp_cksum_eq o (m := Cksum.setField (p.drop (Cksum.hlen p)) [0, 0])
    (by rw [Cksum.length_setField hfour rfl]; omega)
  have hdecode := Cksum.decode_eq o hp (by omega)
  rw [hcksum, Option.map_some] at hdecode
  refine ⟨_, _, hdecode, ?_, ?_⟩
  · split_ifs <;> decide
  · obtain ⟨a, b, c, d, r, hm⟩ := Cksum.exists_cons hfour
    obtain ⟨e, f, hef⟩ := length_eq_two.1 (Cksum.length_bytes o
      (0xffff - Lib.OnesComplement.total 0xffff
        (Cksum.words o (Cksum.setField (p.drop (Cksum.hlen p)) [0, 0]))))
    have hl : (p.take (Cksum.hlen p)).length = Cksum.hlen p := by
      rw [length_take]
      omega
    rw [hef]
    have hsplit := take_append_drop (Cksum.hlen p) p
    rw [hm] at hsplit ⊢
    generalize p.take (Cksum.hlen p) = l at hl hsplit ⊢
    rw [← hl, ← hsplit]
    refine ⟨?_, ?_, ?_⟩
    · rw [length_append, length_append]
      rfl
    · rw [take_length_add_append, take_length_add_append]
      rfl
    · rw [drop_length_add_append, drop_length_add_append]
      rfl

theorem exact_decode (o : Cksum.Order) (hp : p ≠ []) (h : Cksum.hlen p + 8 ≤ p.length)
    (hmax : p.length ≤ 65535) :
    ∃ rc q, 0 ≤ rc ∧ SameBut (Cksum.hlen p) q p ∧
      Exact (Below p.length W) (decode o p) True (rc, Cksum.hlen p, q) := by
  obtain ⟨rc, q, hdecode, hrc, hsame⟩ := icmp_generic_decode_eq o hp h hmax
  refine ⟨rc, q, hrc, hsame, ?_⟩
  obtain ⟨b, p', rfl⟩ := exists_cons_of_ne_nil hp
  have hle := Nat.le_refl (b :: p').length
  have hpos : 0 < (b :: p').length := Nat.succ_pos _
  refine ((exact_load hle 0).bind (r := (b :: p').length - Cksum.hlen (b :: p') = 0 ∨
    Cksum.hlen (b :: p') + ((b :: p').length - Cksum.hlen (b :: p')) ≤ (b :: p').length) fun _ =>
      ?_).congr
    (iff_of_true trivial ⟨hpos, by omega⟩)
  change Exact _ (if (b :: p').length < Cksum.hlen (b :: p') + 8 then _ else _) _ _
  rw [if_neg (Nat.not_lt.2 h)]
  refine ((exact_loads hle _ _).bind (r := True) fun _ => ?_).congr (and_true _).to_iff.symm
  rw [hdecode]
  exact exact_pure _

abbrev Datagram := { p : List Byte // p.length ≤ 65535 }

/-- **When nothing behind a packet is read, and the options are those of the header**. -/
theorem safe_iff (P : PingData) (s : Route) (p : Datagram) :
    Safe P s p.1 ↔
    p.1 ≠ [] ∧ (p.1.length < Cksum.hlen p.1 + 8 ∨ Fits P s p.1 (Cksum.hlen p.1)) := by
  obtain ⟨p, hmax⟩ := p
  unfold Safe ping_recv
  dsimp only
  by_cases hp : p = []
  · subst hp
    refine iff_of_false (fun h => ?_) fun h => h.1 rfl
    have hdecode := ((clear_bind _ _).1 h).1
    have hlt : 0 < ([] : List Byte).length :=
      (exact_load le_rfl 0).1.1 ((clear_bind _ _).1 hdecode).1
    exact absurd hlt (lt_irrefl 0)
  rw [and_iff_right hp]
  rcases lt_or_ge p.length (Cksum.hlen p + 8) with hshort | hlong
  · rw [(exact_decode_short P.order hp hshort).clear_bind]
    exact iff_of_true ⟨trivial, clear_pure _⟩ (.inl hshort)
  · obtain ⟨rc, q, hrc, hsame, hdecode⟩ :=
      exact_decode (W := fun q hlen => Walks q P.flood s hlen) P.order hp hlong hmax
    rw [hdecode.clear_bind, and_iff_right trivial, or_iff_right (Nat.not_lt.2 hlong)]
    dsimp only
    rw [if_neg (Int.not_lt.2 hrc), ← hsame.length]
    have hhlen : Cksum.hlen p = 4 * (byte p 0 % 16) := by
      obtain ⟨b, p', rfl⟩ := exists_cons_of_ne_nil hp
      rfl
    have hicmp : Cksum.hlen p = 4 * (byte q 0 % 16) := by
      rw [byte, hsame.getD (.inl (Nat.succ_pos _))]
      exact hhlen
    rw [clear_receive (by rw [hsame.length]; omega) hicmp]
    exact fits_congr hsame (by omega)

/-- An unreachable host without the packet that did not reach it. -/
def unreachable : Datagram :=
  ⟨[0x45, 0, 0, 28, 0, 0, 0, 0, 64, 1, 0, 0, 127, 0, 0, 1, 127, 0, 0, 1, 3, 1, 0, 0, 0, 0, 0, 0],
    by decide +kernel⟩

theorem not_safe_unreachable : ¬ ∀ (P : PingData) (s : Route) (p : Datagram), Safe P s p.1 := by
  intro h
  have hread :
      Event.read 44 ∈
      (ping_recv ⟨.little, 0, [127, 0, 0, 1], false, false, false⟩ ⟨0, [], by decide⟩
      unreachable.1).trace := by decide +kernel
  have hlt : 44 < unreachable.1.length := h _ _ _ _ hread
  exact absurd hlt (by decide +kernel)

end Inetutils.Ping.Received
