import Inetutils.Lib.Runs
import Inetutils.Telnet.Network
import Inetutils.Telnet.Ring.Encrypt

/-! # Encrypted output

`netflush` of `telnet/network.c` and `net_encrypt` of `telnet/authenc.c` with `ENCRYPTION` compiled
in. Once output is encrypted, `netflush` has the ring encrypted before each call of `send`.

What was supplied before comes out in clear, what is supplied after should come out encrypted
(`Sealed`). It does unless a supply fills the ring to the last byte while `clearto` is left at the
bottom (`fillsStale`): `ring_encrypt` then takes all of it for done and it is sent in clear
(`refilled_ring_sent_in_clear`). In every run without such a supply all output is sealed
(`encrypted_before_sent`). -/

namespace Inetutils.Telnet.Encryption

open Lib.Runs Lib.Cyclic Lib.Mealy Ring.Model List
open Ring.Contents Ring.Marks Ring.Encrypt
open Network

variable {α κ : Type*}

/-- The output side of the connection: whether `encrypt_output` is set, what was supplied before it
was and what since, and what was sent. -/
structure Link (α κ : Type*) where
  crypt : Crypt α κ
  encryptOutput : Bool
  before : List α
  after : List α
  sent : List α

section
variable (enc : κ → α → κ × α)

def start (buf : ℕ → α) (size clock : ℕ) (key : κ) : Link α κ :=
  ⟨⟨ringInit buf size clock, key, [], []⟩, false, [], [], []⟩

def Link.encrypt (s : Link α κ) : Link α κ :=
  if s.encryptOutput then { s with crypt := ringEncrypt enc s.crypt } else s

/-- The link after a call of `send`. -/
def Link.setOut (s : Link α κ) (o : Out α) : Link α κ :=
  { s with crypt := { s.crypt with ring := o.ring }, sent := o.sent }

def Link.out (s : Link α κ) : Out α := ⟨s.crypt.ring, s.sent⟩

def Link.netflush : List SendResult → Link α κ → Link α κ
  | [], s => s.encrypt enc
  | x :: xs, s =>
    let s := s.encrypt enc
    if ringFullConsecutive s.crypt.ring ≤ 0 then s
    else if (s.out.send x).2 then Link.netflush xs (s.setOut (s.out.send x).1)
    else s.setOut (s.out.send x).1

def Link.netEncrypt (s : Link α κ) : Link α κ :=
  if s.encryptOutput then { s with crypt := ringEncrypt enc s.crypt }
  else { s with crypt := { s.crypt with ring := ringClearto s.crypt.ring } }

/-- `encrypt_start_output`, once its request is in the ring. -/
def Link.encryptStartOutput (s : Link α κ) : Link α κ :=
  { s.netEncrypt enc with encryptOutput := true }

def Link.supply (s : Link α κ) (l : List α) : Option (Link α κ) :=
  (ringSupplyData s.crypt.ring l).map fun r =>
    if s.encryptOutput then { s with crypt := { s.crypt with ring := r }, after := s.after ++ l }
    else { s with crypt := { s.crypt with ring := r }, before := s.before ++ l }

def Link.setneturg (s : Link α κ) : Link α κ :=
  { s with crypt := { s.crypt with ring := ringMark s.crypt.ring } }

inductive Op (α : Type*)
  | supply (l : List α)
  | setneturg
  | encryptStartOutput
  | netflush (results : List SendResult)

def step (s : Option (Link α κ)) (o : Op α) : Option (Link α κ) :=
  s.bind fun s => match o with
    | .supply l => s.supply l
    | .setneturg => some s.setneturg
    | .encryptStartOutput => some (s.encryptStartOutput enc)
    | .netflush xs => some (s.netflush enc xs)

def contract (r : RingBuffer α) : Op α → Prop
  | .supply l => (l.length : ℤ) ≤ ringEmptyCount r
  | .setneturg => ¬ ringEmpty r
  | _ => True

/-- The supply leaves no room, and `clearto` is where `consume` is. -/
def fillsStale (r : RingBuffer α) (l : List α) : Prop :=
  l ≠ [] ∧ (l.length : ℤ) = ringEmptyCount r ∧ r.clearto = some r.consume

/-- No supply fills a ring with a stale `clearto`, and the clock does not turn over. -/
def sound (r : RingBuffer α) : Op α → Prop
  | .supply l => ¬ fillsStale r l ∧ r.clock + 2 < ulongSize
  | .netflush xs => r.clock + xs.length < ulongSize
  | _ => True

def kept (s : Option (Link α κ)) (o : Op α) : Prop := ∃ u, s = some u ∧ contract u.crypt.ring o

def keptSound (s : Option (Link α κ)) (o : Op α) : Prop :=
  ∃ u, s = some u ∧ contract u.crypt.ring o ∧ sound u.crypt.ring o

/-- **What was supplied since encryption is on is passed to the encryptor once and in order, and
nothing else is sent than what came before and what the encryptor made.** -/
structure Sealed (key : κ) (s : Link α κ) : Prop where
  passed_prefix : s.crypt.passed <+: s.after
  produced_eq : s.crypt.produced = (feed (bytewise enc) key s.crypt.passed).2
  sent_prefix : s.sent <+: s.before ++ s.crypt.produced

end

/-! ### The invariant -/

/-- The ring holds `done`, which is ready to be sent, and `todo`, which is still to be encrypted, or
to be sent in clear as long as encryption is off. -/
structure Inv (enc : κ → α → κ × α) (key : κ) (s : Link α κ) (done todo : List α) : Prop where
  holds : Holds s.crypt.ring (done ++ todo)
  doneLen : Done s.crypt.ring (done ++ todo).length done.length
  markSafe : MarkSafe s.crypt.ring (done ++ todo).length
  feed_eq : feed (bytewise enc) key s.crypt.passed = (s.crypt.key, s.crypt.produced)
  on : s.encryptOutput = true →
    s.crypt.passed ++ todo = s.after ∧ s.sent ++ done = s.before ++ s.crypt.produced
  off : s.encryptOutput = false → done = [] ∧ s.crypt.ring.clearto = none ∧
    s.crypt.passed = [] ∧ s.after = [] ∧ s.sent ++ todo = s.before

section
variable {enc : κ → α → κ × α} {key : κ} {s : Link α κ} {done todo : List α}

theorem inv_start (buf : ℕ → α) {size clock : ℕ} (hs : 0 < size) (hc : clock < ulongSize) :
    Inv enc key (start buf size clock key) [] [] where
  holds := holds_ringInit buf hs hc
  doneLen := ⟨le_rfl, .inl ⟨rfl, rfl⟩⟩
  markSafe := (show MarkAt (ringInit buf size clock) _ none from rfl).safe
  feed_eq := rfl
  on h := by cases h
  off _ := ⟨rfl, rfl, rfl, rfl, rfl⟩

theorem Inv.sealed (h : Inv enc key s done todo) : Sealed enc key s := by
  have hf := h.feed_eq
  cases he : s.encryptOutput with
  | true =>
    obtain ⟨h1, h2⟩ := h.on he
    exact ⟨⟨_, h1⟩, (congrArg Prod.snd hf).symm, ⟨_, h2⟩⟩
  | false =>
    obtain ⟨-, -, h1, h2, h3⟩ := h.off he
    refine ⟨⟨[], by rw [h1, h2]; rfl⟩, (congrArg Prod.snd hf).symm, ⟨todo ++ s.crypt.produced, ?_⟩⟩
    rw [← append_assoc, h3]

theorem inv_ringEncrypt (h : Inv enc key s done todo) (he : s.encryptOutput = true) :
    ∃ done', Inv enc key { s with crypt := ringEncrypt enc s.crypt } done' [] ∧
      (ringEncrypt enc s.crypt).ring.clock = s.crypt.ring.clock := by
  obtain ⟨henc, hdone⟩ : Encrypted enc _ _ _ _ _ ∧ _ := ringEncrypt_spec h.holds h.doneLen
  have hframe := henc.frame
  have hlen : (feed (bytewise enc) s.crypt.key todo).2.length = todo.length := length_encrypted ..
  obtain ⟨h1, h2⟩ := h.on he
  have hl : (done ++ (feed (bytewise enc) s.crypt.key todo).2).length = (done ++ todo).length := by
    simp [hlen]
  refine ⟨done ++ (feed (bytewise enc) s.crypt.key todo).2,
    ⟨henc.holds, ?_, ?_, ?_, fun _ => ⟨?_, ?_⟩,
    fun h0 => by rw [he] at h0; cases h0⟩, by rw [hframe]⟩
  · rw [append_nil, hl]; exact hdone
  · rw [append_nil, hl]
    exact h.markSafe.congr (by rw [hframe]) (by rw [hframe]) (by rw [hframe]) le_rfl
  · show feed _ key (ringEncrypt enc s.crypt).passed = _
    rw [henc.passed_eq, feed_append, h.feed_eq, henc.key_eq, henc.produced_eq]
  · show (ringEncrypt enc s.crypt).passed ++ [] = s.after
    rw [henc.passed_eq, append_nil, h1]
  · show s.sent ++ (done ++ _) = s.before ++ (ringEncrypt enc s.crypt).produced
    rw [henc.produced_eq, ← append_assoc, h2, append_assoc]

theorem inv_encrypt (h : Inv enc key s done todo) :
    ∃ done' todo', Inv enc key (s.encrypt enc) done' todo' ∧
      (s.encryptOutput = true → todo' = []) ∧
      (s.encrypt enc).crypt.ring.clock = s.crypt.ring.clock ∧
      (s.encrypt enc).encryptOutput = s.encryptOutput := by
  unfold Link.encrypt
  split_ifs with he
  · obtain ⟨done', h1, h2⟩ := inv_ringEncrypt h he
    exact ⟨done', [], h1, fun _ => rfl, h2, rfl⟩
  · exact ⟨done, todo, h, fun h0 => absurd h0 he, rfl, rfl⟩

theorem inv_setOut (h : Inv enc key s done todo) (htodo : s.encryptOutput = true → todo = [])
    (hclock : s.crypt.ring.clock + 1 < ulongSize) {o : Out α} {n : ℕ}
    (hs : Sends s.out o (done ++ todo) n) :
    ∃ done' todo', Inv enc key (s.setOut o) done' todo' ∧
      o.ring.clock ≤ s.crypt.ring.clock + 1 := by
  obtain ⟨hh, hms, hck⟩ := hs.holds h.holds h.markSafe hclock
  have hsent : o.sent ++ (done ++ todo).drop n = s.sent ++ (done ++ todo) := by
    rw [hs.sent_eq, append_assoc, take_append_drop]; rfl
  cases he : s.encryptOutput with
  | true =>
    obtain rfl := htodo he
    obtain ⟨h1, h2⟩ := h.on he
    have hle := hs.le_length
    rw [append_nil] at hh hms hsent hle
    refine ⟨done.drop n, [], ⟨by rwa [append_nil], ?_, by rwa [append_nil], h.feed_eq,
      fun _ => ⟨h1, hsent.trans h2⟩, fun h0 => absurd (he.symm.trans h0) (by decide)⟩, hck⟩
    rcases hs.ring_eq with hr | ⟨rfl, hr⟩
    · have := h.doneLen.ringConsumed h.holds hle hs.end_le hclock
      rw [append_nil, ← length_drop] at this
      rw [append_nil]
      show Done o.ring _ _
      rw [hr]; exact this
    · show Done o.ring _ _
      rw [hr]; exact h.doneLen
  | false =>
    obtain ⟨rfl, hc, h1, h2, h3⟩ := h.off he
    have hc' : o.ring.clearto = none := by
      rcases hs.ring_eq with hr | ⟨-, hr⟩ <;> rw [hr]
      · exact ringConsumed_clearto_none hc n
      · exact hc
    exact ⟨[], todo.drop n, ⟨hh, ⟨Nat.zero_le _, .inl ⟨hc', rfl⟩⟩, hms, h.feed_eq,
      fun h0 => absurd (he.symm.trans h0) (by decide), fun _ => ⟨rfl, hc', h1, h2, hsent.trans h3⟩⟩,
      hck⟩

theorem inv_netflush : ∀ (xs : List SendResult) {s : Link α κ} {done todo : List α},
    Inv enc key s done todo → s.crypt.ring.clock + xs.length < ulongSize →
    ∃ done' todo', Inv enc key (s.netflush enc xs) done' todo'
  | [], s, done, todo, h, _ => by
    obtain ⟨done', todo', h1, -⟩ := inv_encrypt h
    exact ⟨done', todo', h1⟩
  | x :: xs, s, done, todo, h, hclock => by
    obtain ⟨done', todo', h1, htodo, hck, hon⟩ := inv_encrypt h
    rw [length_cons] at hclock
    rw [Link.netflush]
    split_ifs with h0 hagain
    · exact ⟨done', todo', h1⟩
    all_goals
      obtain ⟨n, hs⟩ := send_sends (o := (s.encrypt enc).out) h1.holds h1.markSafe h0 x
      obtain ⟨done2, todo2, h2, hck2⟩ := inv_setOut h1 (hon ▸ htodo) (by omega) hs
    · exact inv_netflush xs h2 (lt_of_le_of_lt (Nat.add_le_add_right hck2 _) (by omega))
    · exact ⟨done2, todo2, h2⟩

theorem inv_encryptStartOutput (h : Inv enc key s done todo) :
    ∃ done' todo', Inv enc key (s.encryptStartOutput enc) done' todo' := by
  unfold Link.encryptStartOutput Link.netEncrypt
  split_ifs with he
  · obtain ⟨done', h1, -⟩ := inv_ringEncrypt h he
    exact ⟨done', [], h1.holds, h1.doneLen, h1.markSafe, h1.feed_eq, fun _ => h1.on he,
      fun h0 => by cases h0⟩
  · obtain ⟨rfl, hc, h1, h2, h3⟩ := h.off (by simpa using he)
    refine ⟨todo, [], ?_, ?_, ?_, h.feed_eq, fun _ => ⟨by rw [h1, h2]; rfl, ?_⟩,
      fun h0 => by cases h0⟩
    · rw [append_nil]; exact h.holds.congr _ _
    · rw [append_nil]; exact done_ringClearto h.holds
    · rw [append_nil]; exact h.markSafe.congr rfl rfl rfl le_rfl
    · have hp : s.crypt.produced = [] := by
        have := h.feed_eq
        rw [h1, feed_nil] at this
        exact (congrArg Prod.snd this).symm
      rw [h3, hp, append_nil]

theorem inv_supply (h : Inv enc key s done todo) {l : List α}
    (hroom : (l.length : ℤ) ≤ ringEmptyCount s.crypt.ring) (hstale : ¬ fillsStale s.crypt.ring l)
    (hclock : s.crypt.ring.clock + 2 < ulongSize) :
    ∃ s' done' todo', s.supply l = some s' ∧ Inv enc key s' done' todo' := by
  obtain ⟨r, hr, hh, hf, -⟩ := h.holds.ringSupplyData hroom hclock
  rw [append_assoc] at hh
  have hle : (done ++ todo).length ≤ (done ++ (todo ++ l)).length := by simp
  have hdone : Done r (done ++ (todo ++ l)).length done.length := by
    refine h.doneLen.supplied hf hle (fun hc hne hfull => hstale ⟨?_, ?_, hc⟩) h.holds.consume_lt
    · rintro rfl; simp at hne
    · rw [h.holds.ringEmptyCount_eq, ← hfull]
      simp only [length_append]; omega
  have hmark := h.markSafe.congr hf.mark hf.size hf.consume hle
  rw [Link.supply, hr, Option.map_some]
  by_cases he : s.encryptOutput = true
  · obtain ⟨h1, h2⟩ := h.on he
    rw [if_pos he]
    exact ⟨_, done, todo ++ l, rfl, hh, hdone, hmark, h.feed_eq,
      fun _ => ⟨by rw [← append_assoc, h1], h2⟩, fun h0 => absurd (he.symm.trans h0) (by decide)⟩
  · obtain ⟨rfl, hc, h1, h2, h3⟩ := h.off (by simpa using he)
    rw [if_neg he]
    exact ⟨_, [], todo ++ l, rfl, hh, hdone, hmark, h.feed_eq, fun h0 => absurd h0 he,
      fun _ => ⟨rfl, hf.clearto.trans hc, h1, h2, by rw [← append_assoc, h3]⟩⟩

theorem inv_setneturg (h : Inv enc key s done todo) (hne : ¬ ringEmpty s.crypt.ring) :
    Inv enc key s.setneturg done todo :=
  ⟨h.holds.congr _ _, h.doneLen,
    markSafe_ringMark h.holds fun h0 => hne (h.holds.ringEmpty_iff.mpr h0), h.feed_eq, h.on, h.off⟩

theorem inv_step {o : Op α} (h : Inv enc key s done todo) (hk : contract s.crypt.ring o)
    (hs : sound s.crypt.ring o) :
    ∃ s' done' todo', step enc (some s) o = some s' ∧ Inv enc key s' done' todo' := by
  cases o with
  | supply l => exact inv_supply h hk hs.1 hs.2
  | setneturg => exact ⟨_, done, todo, rfl, inv_setneturg h hk⟩
  | encryptStartOutput =>
    obtain ⟨done', todo', h'⟩ := inv_encryptStartOutput h
    exact ⟨_, done', todo', rfl, h'⟩
  | netflush xs =>
    obtain ⟨done', todo', h'⟩ := inv_netflush xs h hs
    exact ⟨_, done', todo', rfl, h'⟩

end

/-! ### The runs -/

/-- **Every byte supplied since encryption is on is encrypted before it is sent**, in every sound
run. -/
theorem encrypted_before_sent (enc : κ → α → κ × α) (buf : ℕ → α) (size clock : ℕ) (key : κ)
    (hsize : 0 < size) (hclock : clock < ulongSize) (ops : List (Op α))
    (h : Allowed (step enc) keptSound (some (start buf size clock key)) ops) :
    ∃ s, run (step enc) (some (start buf size clock key)) ops = some s ∧ Sealed enc key s := by
  obtain ⟨s, done, todo, hrun, hinv⟩ :=
    run_inv (I := fun s => ∃ u done todo, s = some u ∧ Inv enc key u done todo)
      (fun s o ⟨u, done, todo, h0, hinv⟩ ⟨u', hu, hk, hs⟩ => by
        subst h0
        obtain rfl := Option.some.inj hu
        exact inv_step hinv hk hs) ⟨_, [], [], rfl, inv_start buf hsize hclock⟩ h
  exact ⟨s, hrun, hinv.sealed⟩

/-- A byte is encrypted by adding the key to it, and the key counts. -/
def addKey (k x : ℕ) : ℕ × ℕ := (k + 1, (x + k) % 256)

/-- Output in clear, then encrypted round the end of the ring, with partial sends. -/
def soundOps : List (Op ℕ) :=
  [.supply [1, 2], .encryptStartOutput, .supply [3], .netflush [.accepted 1], .supply [4],
    .netflush [.accepted 2, .wouldBlock], .setneturg, .netflush [.accepted 1]]

theorem encrypted_before_sent_soundOps :
    Allowed (step addKey) keptSound (some (start (fun _ => 0) 3 0 7)) soundOps ∧
      ∃ s, run (step addKey) (some (start (fun _ => 0) 3 0 7)) soundOps = some s ∧
        Sealed addKey 7 s :=
  have h : Allowed (step addKey) keptSound (some (start (fun _ => 0) 3 0 7)) soundOps := by
    refine ⟨⟨_, rfl, ?_, ?_⟩, ⟨_, rfl, ?_, ?_⟩, ⟨_, rfl, ?_, ?_⟩, ⟨_, rfl, ?_, ?_⟩,
      ⟨_, rfl, ?_, ?_⟩, ⟨_, rfl, ?_, ?_⟩, ⟨_, rfl, ?_, ?_⟩, ⟨_, rfl, ?_, ?_⟩, trivial⟩ <;>
      simp only [contract, sound, fillsStale] <;> decide
  ⟨h, encrypted_before_sent _ _ _ _ _ (by decide) (by decide) _ h⟩

/-! ### The ring filled twice -/

section
variable {enc : κ → α → κ × α} {buf : ℕ → α} {size : ℕ} {key : κ} {bs bs' : List α}

/-- Encryption is switched on, the ring is filled to the last byte and all of it is sent, twice. -/
def refill (bs bs' : List α) : List (Op α) :=
  [.encryptStartOutput, .supply bs, .netflush [.accepted bs.length], .supply bs',
    .netflush [.accepted bs'.length]]

/-- Encryption is on, there is no mark, and the ring holds `l` from the bottom on. -/
structure FromBottom (s : Link α κ) (l : List α) (size : ℕ) (c : Option ℕ) (clock : ℕ) : Prop where
  on : s.encryptOutput = true
  holds : Holds s.crypt.ring l
  consume : s.crypt.ring.consume = 0
  mark : s.crypt.ring.mark = none
  clearto : s.crypt.ring.clearto = c
  size_eq : s.crypt.ring.size = size
  clock_le : s.crypt.ring.clock ≤ clock

variable {c : Option ℕ} {clock : ℕ}

theorem fromBottom_room {s : Link α κ} (h : FromBottom s [] size c clock) :
    ringEmptyCount s.crypt.ring = size := by
  rw [h.holds.ringEmptyCount_eq, h.size_eq, length_nil, Nat.sub_zero]

theorem fromBottom_supply {s : Link α κ} (h : FromBottom s [] size c clock)
    (hlen : bs.length = size) (hclock : clock + 2 < ulongSize) :
    ∃ s', s.supply bs = some s' ∧ FromBottom s' bs size c (clock + 2) ∧ s'.before = s.before ∧
      s'.sent = s.sent ∧ s'.crypt.key = s.crypt.key ∧ s'.crypt.passed = s.crypt.passed ∧
      s'.crypt.produced = s.crypt.produced := by
  have hck := h.clock_le
  have hroom : (bs.length : ℤ) ≤ ringEmptyCount s.crypt.ring := by rw [fromBottom_room h, hlen]
  obtain ⟨r, hr, hh, hf, hc⟩ := h.holds.ringSupplyData hroom (by omega)
  refine ⟨{ s with crypt := { s.crypt with ring := r }, after := s.after ++ bs },
    by rw [Link.supply, hr, Option.map_some, if_pos h.on], ⟨h.on, hh, hf.consume.trans h.consume,
      hf.mark.trans h.mark, hf.clearto.trans h.clearto, hf.size.trans h.size_eq,
      hc.trans (Nat.add_le_add_right hck 2)⟩, rfl, rfl, rfl, rfl, rfl⟩

theorem fromBottom_encrypt {s : Link α κ} (h : FromBottom s bs size none clock)
    (hlen : bs.length = size) :
    FromBottom (s.encrypt enc) (feed (bytewise enc) s.crypt.key bs).2 size (some 0) clock ∧
      (s.encrypt enc).crypt.passed = s.crypt.passed ++ bs ∧
      (s.encrypt enc).crypt.produced =
      s.crypt.produced ++ (feed (bytewise enc) s.crypt.key bs).2 := by
  have h1 := h.holds.consume_lt
  obtain ⟨henc, hle, hd⟩ : Encrypted enc _ _ [] _ _ ∧ _ :=
    ringEncrypt_spec h.holds ⟨Nat.zero_le _, .inl ⟨h.clearto, rfl⟩⟩
  have hframe := henc.frame
  have hcons : (ringEncrypt enc s.crypt).ring.consume = 0 := by rw [hframe]; exact h.consume
  have hsize : (ringEncrypt enc s.crypt).ring.size = size := by rw [hframe]; exact h.size_eq
  have hhold := henc.holds
  rw [append_nil, nil_append] at hhold
  rw [Link.encrypt, if_pos h.on]
  refine ⟨⟨h.on, hhold, hcons, ?_, ?_, hsize, ?_⟩, henc.passed_eq, henc.produced_eq⟩
  · rw [hframe]; exact h.mark
  · rw [nil_append, hlen] at hd
    rcases hd with ⟨-, h0⟩ | ⟨hc, -⟩
    · have := h.size_eq; omega
    · exact hc.trans (by rw [hcons, hsize, Nat.zero_add, wrap_of_le le_rfl, Nat.sub_self])
  · rw [hframe]; exact h.clock_le

theorem fromBottom_encrypt_stale {s : Link α κ} (h : FromBottom s bs size (some 0) clock)
    (hlen : bs.length = size) : s.encrypt enc = s := by
  rw [Link.encrypt, if_pos h.on, ringEncrypt_full h.holds (hlen.trans h.size_eq.symm)
    (h.clearto.trans (by rw [h.consume]))]

theorem fromBottom_netflush {s : Link α κ} {l : List α}
    (h : FromBottom (s.encrypt enc) l size (some 0) clock) (hlen : l.length = size)
    (hclock : clock + 1 < ulongSize) :
    FromBottom (s.netflush enc [.accepted l.length]) [] size (some 0) (clock + 1) ∧
      s.netflush enc [.accepted l.length] = (s.encrypt enc).setOut
        ⟨ringConsumed (s.encrypt enc).crypt.ring l.length, (s.encrypt enc).sent ++ l⟩ := by
  have h1 := h.holds.consume_lt
  have hck := h.clock_le
  have hs := h.size_eq
  obtain ⟨hfull, hsend⟩ := send_all (o := (s.encrypt enc).out) h.holds h.mark h.consume
    (lt_of_le_of_lt (Nat.add_le_add_right hck 1) hclock)
  have hfull : ringFullConsecutive (s.encrypt enc).crypt.ring = l.length := hfull
  have heq : s.netflush enc [.accepted l.length] = (s.encrypt enc).setOut
      ⟨ringConsumed (s.encrypt enc).crypt.ring l.length, (s.encrypt enc).sent ++ l⟩ := by
    rw [Link.netflush, if_neg (by rw [hfull]; omega), hsend, if_neg Bool.false_ne_true]
    rfl
  have hrest := h.holds.ringConsumed (n := l.length) le_rfl (by omega)
  rw [drop_length] at hrest
  rw [heq]
  refine ⟨⟨h.on, hrest, (hrest.empty rfl).2, ?_, ?_, ?_, ?_⟩, rfl⟩
  · exact markAt_ringConsumed h.holds le_rfl (by omega) (j := none) h.mark
  · show (ringConsumed _ l.length).clearto = some 0
    rw [Holds.ringConsumed_clearto _ (by omega), clearedTo_eq h.clearto (by rw [h.consume]; omega),
      h.consume, if_neg (by omega)]
  · exact (Holds.ringConsumed_size ..).trans h.size_eq
  · exact (Holds.ringConsumed_clock ..).trans (Nat.add_le_add_right hck 1)

theorem encrypt_before (s : Link α κ) : (s.encrypt enc).before = s.before := by
  unfold Link.encrypt; split_ifs <;> rfl

theorem encrypt_sent (s : Link α κ) : (s.encrypt enc).sent = s.sent := by
  unfold Link.encrypt; split_ifs <;> rfl

/-- **A ring that is filled twice is sent in clear the second time.** -/
theorem refill_run (hs : 0 < size) (hlen : bs.length = size) (hlen' : bs'.length = size) :
    Allowed (step enc) kept (some (start buf size 0 key)) (refill bs bs') ∧
      ∃ s, run (step enc) (some (start buf size 0 key)) (refill bs bs') = some s ∧
        s.before = [] ∧ s.crypt.passed = bs ∧ s.crypt.produced = (feed (bytewise enc) key bs).2 ∧
        s.sent = (feed (bytewise enc) key bs).2 ++ bs' := by
  set s0 := (start buf size 0 key).encryptStartOutput enc with hs0
  have h0 : FromBottom s0 [] size none 0 :=
    ⟨rfl, (holds_ringInit buf hs (show 0 < ulongSize by decide)).congr _ _, rfl, rfl, rfl,
      rfl, le_rfl⟩
  obtain ⟨s1, e1, h1, b1, o1, k1, p1, q1⟩ := fromBottom_supply h0 hlen (by decide)
  obtain ⟨h2, p2, q2⟩ : FromBottom (s1.encrypt enc) _ _ _ _ ∧ _ := fromBottom_encrypt h1 hlen
  obtain ⟨h3, e3⟩ := fromBottom_netflush h2 (by rw [length_encrypted, hlen]) (by decide)
  rw [length_encrypted] at h3 e3
  set s3 := s1.netflush enc [.accepted bs.length] with hs3
  obtain ⟨s4, e4, h4, b4, o4, k4, p4, q4⟩ := fromBottom_supply h3 hlen' (by decide)
  have h5 : s4.encrypt enc = s4 := fromBottom_encrypt_stale h4 hlen'
  obtain ⟨-, e6⟩ := fromBottom_netflush (by rw [h5]; exact h4) hlen' (by decide)
  rw [h5] at e6
  have t0 : step enc (some (start buf size 0 key)) .encryptStartOutput = some s0 := rfl
  have t1 : step enc (some s0) (.supply bs) = some s1 := e1
  have t3 : step enc (some s1) (.netflush [.accepted bs.length]) = some s3 := rfl
  have t4 : step enc (some s3) (.supply bs') = some s4 := e4
  refine ⟨?_, s4.netflush enc [.accepted bs'.length], ?_, ?_, ?_, ?_, ?_⟩
  · simp only [refill, allowed_cons, t0, t1, t3, t4]
    exact ⟨⟨_, rfl, trivial⟩, ⟨_, rfl, (congrArg _ hlen).trans_le (fromBottom_room h0).ge⟩,
      ⟨_, rfl, trivial⟩, ⟨_, rfl, (congrArg _ hlen').trans_le (fromBottom_room h3).ge⟩,
      ⟨_, rfl, trivial⟩, trivial⟩
  · simp only [refill, run_cons, run_nil, t0, t1, t3, t4]; rfl
  all_goals rw [e6]
  · show s4.before = []
    rw [b4, e3]
    exact (encrypt_before s1).trans b1
  · show s4.crypt.passed = bs
    rw [p4, e3]
    exact p2.trans (by rw [p1]; rfl)
  · show s4.crypt.produced = _
    rw [q4, e3]
    exact q2.trans (by rw [q1, k1]; rfl)
  · show s4.sent ++ bs' = _
    rw [o4, e3]
    rw [encrypt_sent, o1, k1]; rfl

end

/-- **The output ring of the client filled twice**: the second time none of it is passed to the
encryptor, and it is sent all the same. -/
theorem refilled_ring_sent_in_clear :
    Allowed (step addKey) kept (some (start (fun _ => 0) 16384 0 7))
        (refill (List.replicate 16384 1) (List.replicate 16384 2)) ∧
      ∃ s, run (step addKey) (some (start (fun _ => 0) 16384 0 7))
          (refill (List.replicate 16384 1) (List.replicate 16384 2)) = some s ∧
        s.crypt.passed = List.replicate 16384 1 ∧ ¬ Sealed addKey 7 s := by
  obtain ⟨hk, s, hrun, hb, hp, hq, hsent⟩ := @refill_run _ _ addKey (fun _ => 0) 16384 7
    (List.replicate 16384 1) (List.replicate 16384 2) (by decide) length_replicate
    length_replicate
  refine ⟨hk, s, hrun, hp, fun h => ?_⟩
  have := h.sent_prefix.length_le
  rw [hsent, hb, hq, nil_append, length_append, length_encrypted, length_replicate,
    length_replicate] at this
  omega

end Inetutils.Telnet.Encryption
