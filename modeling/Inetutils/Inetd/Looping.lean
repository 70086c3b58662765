import Inetutils.Inetd.Sockets
import Inetutils.Lib.Bursts

/-! # Services that are looping

The limiter of the main loop of inetd, over the events of `Sockets`. A start of a service is
requested when its socket is readable and, where there is to be one, there is a connection; the
starts of a service are told by its key, as services come and go with the configuration. -/

namespace Inetutils.Inetd.Looping

open Table Sockets Lib.Bursts Lib.Runs List

variable {accepted : Bool}

abbrev Key : Type := Text × Text × Text × Bool

/-! ### Requests -/

/-- The service that `dispatch` is to start. -/
def asked (s : State) (i : ℕ) (accepted : Bool) : Option Servtab :=
  match s.servtab[i]? with
  | none => none
  | some sep =>
    match sep.fd with
    | none => none
    | some fd =>
      if fd ∉ s.allsock then none
      else if sep.wait = 0 ∧ sep.socktype = .stream ∧ ¬ accepted then none
      else if ¬ sep.dofork then none
      else some sep

def requested (key : Key) (s : State) : Event → Option ℕ
  | .dispatch i accepted now _ => (asked s i accepted).bind fun sep =>
    if sep.key = key then some now else none
  | _ => none

def started (toomany : ℕ) (key : Key) (s : State) : Event → Option ℕ
  | .dispatch i accepted now fork =>
    (asked s i accepted).bind fun sep =>
      if sep.key = key ∧ (counted toomany now sep).isSome ∧ fork.isSome then some now else none
  | _ => none

def notes (toomany : ℕ) (f : State → Event → Option ℕ) (s : State) : List Event → List ℕ
  | [] => []
  | e :: l => (f s e).toList ++ notes toomany f (step toomany s e) l

def Event.time? : Event → Option ℕ
  | .dispatch _ _ now _ => some now
  | _ => none

def times (l : List Event) : List ℕ := l.filterMap Event.time?

/-- The smaller one of the two limits, as far as they are set. -/
def limit (toomany max : ℕ) : ℕ := if max = 0 then toomany else min toomany (max + 1)

def Open (key : Key) (s : State) : Prop := ∃ sep ∈ s.servtab, sep.key = key ∧ sep.fd ≠ none

def counter (sep : Servtab) : Counter := ⟨sep.count, sep.time⟩

def withCounter (sep : Servtab) (c : Counter) : Servtab :=
  { sep with count := c.count, time := c.time }

variable (toomany : ℕ) {i : ℕ} {fork : Option Pid}

theorem counted_eq (now : ℕ) (sep : Servtab) :
    counted toomany now sep =
      (tick CNT_INTVL (limit toomany sep.max) (counter sep) now).map (withCounter sep) := by
  have hlim : (sep.max ≠ 0 ∧ sep.max < sep.count + 1) ∨ toomany ≤ sep.count + 1 ↔
      limit toomany sep.max ≤ sep.count + 1 := by
    rw [limit]
    split <;> omega
  rw [counted, tick, if_congr hlim rfl rfl]
  by_cases h0 : sep.count = 0
  · rw [if_pos h0, if_pos (show (counter sep).count = 0 from h0)]
    rfl
  · rw [if_neg h0, if_neg (show ¬ (counter sep).count = 0 from h0)]
    by_cases hl : limit toomany sep.max ≤ sep.count + 1
    · rw [if_pos hl, if_pos (show limit toomany sep.max ≤ (counter sep).count + 1 from hl)]
      by_cases ht : sep.time + CNT_INTVL < now
      · rw [if_pos ht, if_pos (show (counter sep).time + CNT_INTVL < now from ht)]
        rfl
      · rw [if_neg ht, if_neg (show ¬ (counter sep).time + CNT_INTVL < now from ht)]
        rfl
    · rw [if_neg hl, if_neg (show ¬ limit toomany sep.max ≤ (counter sep).count + 1 from hl)]
      rfl

theorem notes_append (f : State → Event → Option ℕ) (l l' : List Event) (s : State) :
    notes toomany f s (l ++ l') =
    notes toomany f s l ++ notes toomany f (run (step toomany) s l) l' := by
  induction l generalizing s with
  | nil => rfl
  | cons e l ih => rw [cons_append, notes, notes, ih, run_cons, append_assoc]

theorem length_started_le (key : Key) (l : List Event) (s : State) :
    (notes toomany (started toomany key) s l).length ≤
    (notes toomany (requested key) s l).length := by
  induction l generalizing s with
  | nil => exact le_rfl
  | cons e l ih =>
    have hone : (started toomany key s e).toList.length ≤ (requested key s e).toList.length := by
      rcases e with _ | ⟨cp, net⟩ | _ | net | ⟨i, accepted, now, fork⟩ | pid <;> try exact le_rfl
      rw [started, requested]
      rcases asked s i accepted with _ | sep
      · exact le_rfl
      · rw [Option.bind_some, Option.bind_some]
        by_cases hk : sep.key = key
        · rw [if_pos hk]
          exact Nat.le_of_lt_succ (by split <;> simp)
        · rw [if_neg hk, if_neg fun h => hk h.1]
    rw [notes, notes, length_append, length_append]
    exact Nat.add_le_add hone (ih _)

theorem mem_times_of_requested {toomany : ℕ} {key : Key} {l : List Event} {s : State} {t : ℕ}
    (h : t ∈ notes toomany (requested key) s l) : t ∈ times l := by
  induction l generalizing s with
  | nil => exact h
  | cons e l ih =>
    rw [notes, mem_append] at h
    rcases h with h | h
    · rcases e with _ | ⟨cp, net⟩ | _ | net | ⟨i, accepted, now, fork⟩ | pid <;>
        try exact absurd h not_mem_nil
      rw [Option.mem_toList, requested, Option.bind_eq_some_iff] at h
      obtain ⟨sep, -, hif⟩ := h
      split at hif
      · exact mem_filterMap.2 ⟨_, mem_cons_self, hif⟩
      · exact absurd hif.symm (Option.some_ne_none t)
    · obtain ⟨e', he', ht⟩ := mem_filterMap.1 (ih h)
      exact mem_filterMap.2 ⟨e', mem_cons_of_mem _ he', ht⟩

/-! ### The services behind an event -/

structure Mark where
  key : Key
  max : ℕ
  counter : Counter

def mark (sep : Servtab) : Mark := ⟨sep.key, sep.max, counter sep⟩

def marks (s : State) : List Mark := s.servtab.map mark

/-- A service is one that was there, or it is new and has not been started. -/
structure Evolves (l l' : List Mark) : Prop where
  origin : ∀ m' ∈ l', m' ∈ l ∨ m'.counter.count = 0 ∧ ∀ m ∈ l, m.key ≠ m'.key
  nodup : (l.map (·.key)).Nodup → (l'.map (·.key)).Nodup

variable {l l₁ l₂ : List Servtab} {k : Socks} {sep sep' : Servtab} {s : State}

theorem Evolves.refl (l : List Mark) : Evolves l l := ⟨fun _ h => .inl h, id⟩

theorem Evolves.of_sublist {l l' : List Mark} (h : l'.Sublist l) : Evolves l l' :=
  ⟨fun _ hm => .inl (h.subset hm), fun hn => hn.sublist (h.map _)⟩

theorem map_mark_set (h : l[i]? = some sep) (hm : mark sep' = mark sep) :
    (l.set i sep').map mark = l.map mark := by
  obtain ⟨l₁, l₂, rfl, hset⟩ := Lib.Tallies.exists_split h
  rw [hset, map_append, map_append, map_cons, map_cons, hm]

theorem marks_uncheck (s : State) : marks (uncheck s) = marks s := by
  rw [marks, uncheck, map_map]
  rfl

theorem marks_serventSetup (net : Net) (i : ℕ) (s : State) :
    marks (serventSetup net i s) = marks s := by
  rw [serventSetup]
  split
  next => rfl
  next sep hsep =>
    split
    next => exact map_mark_set hsep rfl
    next =>
      obtain ⟨family, hf⟩ := setup_spec net s.opened (sep.check true)
      rw [hf]
      exact map_mark_set hsep rfl

theorem map_mark_retryTab (net : ℕ → Net) : (retryTab net l k).1.map mark = l.map mark := by
  induction l generalizing k with
  | nil => rfl
  | cons sep l ih =>
    rw [retryTab]
    split
    next =>
      obtain ⟨family, hf⟩ := setup_spec (net l.length) k.opened sep
      rw [map_cons, map_cons, ih, hf]
      rfl
    next => exact congrArg (List.cons (mark sep)) ih

theorem map_mark_reapTab (pid : Pid) : (reapTab pid l k).1.map mark = l.map mark := by
  induction l generalizing k with
  | nil => rfl
  | cons sep l ih =>
    rw [reapTab]
    split
    next => exact congrArg (List.cons (mark sep)) ih
    next => exact congrArg (List.cons (mark sep)) ih

theorem purgeTab_sublist : (purgeTab l k).1.Sublist l := by
  induction l generalizing k with
  | nil => exact .slnil
  | cons sep l ih =>
    rw [purgeTab]
    split
    next => exact ih.cons_cons sep
    next => exact ih.cons sep

theorem evolves_enter (cp : Conf) (s : State) : Evolves (marks s) (marks (enter cp s).2.2) := by
  rw [enter]
  split
  next sep hsep =>
    have hm :
        marks
        { s with servtab := s.servtab.set (s.servtab.findIdx (·.key = cp.key)) (cp.redone sep) } =
        marks s :=
      map_mark_set hsep rfl
    rw [hm]
    exact .refl _
  next hnone =>
    -- no service has the key
    have hlen : s.servtab.length ≤ s.servtab.findIdx (·.key = cp.key) :=
      getElem?_eq_none_iff.1 hnone
    have hne : ∀ m ∈ marks s, m.key ≠ cp.key := by
      intro m hm
      obtain ⟨sep, hsep, rfl⟩ := mem_map.1 hm
      have hno := findIdx_eq_length.1 (le_antisymm findIdx_le_length hlen) sep hsep
      exact of_decide_eq_false hno
    refine ⟨fun m hm => ?_, fun hn => ?_⟩
    · rcases mem_cons.1 hm with rfl | hm
      · exact .inr ⟨rfl, hne⟩
      · exact .inl hm
    · refine nodup_cons.2 ⟨fun hmem => ?_, hn⟩
      obtain ⟨m, hm, hk⟩ := mem_map.1 hmem
      exact hne m hm hk

theorem evolves_enterSetup (cp : Conf) (net : Net) (s : State) :
    Evolves (marks s) (marks (enterSetup cp net s)) := by
  rw [enterSetup]
  split
  · exact evolves_enter cp s
  · rw [marks_serventSetup]
    exact evolves_enter cp s

/-! ### A start -/

/-- The service behind `close_sep`. -/
def closed (sep : Servtab) : Servtab :=
  { sep with fd := none, count := 0, wait := if 1 < sep.wait then 1 else sep.wait }

theorem dispatch_of_not_asked (h : asked s i accepted = none) (toomany now : ℕ)
    (fork : Option Pid) : dispatch toomany i accepted now fork s = s := by
  rw [asked] at h
  rw [dispatch]
  rcases hs : s.servtab[i]? with - | sep
  · rfl
  · rw [hs] at h
    dsimp only at h ⊢
    rcases hf : sep.fd with - | fd
    · rfl
    · rw [hf] at h
      dsimp only at h ⊢
      split at h
      next ha => rw [if_pos ha]
      next ha =>
        rw [if_neg ha]
        split at h
        next hw => rw [if_pos hw]
        next hw =>
          rw [if_neg hw]
          split at h
          next hd => rw [if_pos hd]
          next => exact absurd h (Option.some_ne_none sep)

theorem dispatch_of_asked (h : asked s i accepted = some sep) (toomany now : ℕ)
    (fork : Option Pid) : ∃ l₁ l₂, s.servtab = l₁ ++ sep :: l₂ ∧
      match counted toomany now sep with
      | none => (dispatch toomany i accepted now fork s).servtab = l₁ ++ closed sep :: l₂
      | some sep' => ∃ sep'', mark sep'' = mark sep' ∧
          (dispatch toomany i accepted now fork s).servtab = l₁ ++ sep'' :: l₂ := by
  rw [asked] at h
  split at h
  next => exact absurd h.symm (Option.some_ne_none sep)
  next sep₁ hs =>
    split at h
    next => exact absurd h.symm (Option.some_ne_none sep)
    next fd hf =>
      split at h
      next => exact absurd h.symm (Option.some_ne_none sep)
      next ha =>
        split at h
        next => exact absurd h.symm (Option.some_ne_none sep)
        next hw =>
          split at h
          next => exact absurd h.symm (Option.some_ne_none sep)
          next hd =>
            obtain rfl := Option.some.inj h
            obtain ⟨l₁, l₂, hl, hset⟩ := Lib.Tallies.exists_split hs
            refine ⟨l₁, l₂, hl, ?_⟩
            simp only [dispatch, hs, hf, if_neg ha, if_neg hw, if_neg hd]
            rcases counted toomany now sep₁ with _ | sep'
            · exact hset _
            · dsimp only
              rcases fork with _ | pid
              · exact ⟨sep', rfl, hset _⟩
              · dsimp only
                split
                · exact ⟨sep', rfl, hset _⟩
                · exact ⟨{ sep' with wait := pid, child := some pid }, rfl, hset _⟩

theorem dispatch_marks (h : asked s i accepted = some sep) (toomany now : ℕ) (fork : Option Pid) :
    ∃ l₁ l₂ : List Mark, marks s = l₁ ++ mark sep :: l₂ ∧
      ∃ c, marks (dispatch toomany i accepted now fork s) = l₁ ++ ⟨sep.key, sep.max, c⟩ :: l₂ ∧
        (tick CNT_INTVL (limit toomany sep.max) (counter sep) now = some c ∨
          c.count = 0 ∧ tick CNT_INTVL (limit toomany sep.max) (counter sep) now = none) := by
  obtain ⟨l₁, l₂, hl, hd⟩ := dispatch_of_asked h toomany now fork
  refine ⟨l₁.map mark, l₂.map mark, by rw [marks, hl, map_append, map_cons], ?_⟩
  rw [counted_eq] at hd
  rcases ht : tick CNT_INTVL (limit toomany sep.max) (counter sep) now with _ | c
  · rw [ht] at hd
    exact ⟨⟨0, sep.time⟩, by rw [marks, hd, map_append, map_cons]; rfl, .inr ⟨rfl, rfl⟩⟩
  · rw [ht] at hd
    obtain ⟨sep'', hm, hd⟩ := hd
    exact ⟨c, by rw [marks, hd, map_append, map_cons, hm]; rfl, .inl rfl⟩

theorem evolves_step (s : State) (e : Event) (h : ∀ key, requested key s e = none) :
    Evolves (marks s) (marks (step toomany s e)) := by
  rcases e with _ | ⟨cp, net⟩ | _ | net | ⟨i, accepted, now, fork⟩ | pid
  · exact marks_uncheck s ▸ .refl _
  · exact evolves_enterSetup cp net s
  · exact .of_sublist (purgeTab_sublist.map mark)
  · exact (show marks (retry net s) = marks s from map_mark_retryTab net) ▸ .refl _
  · rcases ha : asked s i accepted with _ | sep
    · rw [step, dispatch_of_not_asked ha]
      exact .refl _
    · have hreq := h sep.key
      rw [requested, ha, Option.bind_some, if_pos rfl] at hreq
      exact absurd hreq (Option.some_ne_none now)
  · exact (show marks (reapchild pid s) = marks s from map_mark_reapTab pid) ▸ .refl _

/-! ### What is counted -/

theorem requested_cases (s : State) (e : Event) :
    (∀ key, requested key s e = none) ∨
      ∃ i accepted now fork sep, e = .dispatch i accepted now fork ∧
      asked s i accepted = some sep := by
  rcases e with _ | ⟨cp, net⟩ | _ | net | ⟨i, accepted, now, fork⟩ | pid <;> try exact .inl fun _ =>
    rfl
  rcases ha : asked s i accepted with _ | sep
  · exact .inl fun _ => by rw [requested, ha, Option.bind_none]
  · exact .inr ⟨i, accepted, now, fork, sep, rfl, ha⟩

theorem requested_of_asked (h : asked s i accepted = some sep) (key : Key) (now : ℕ)
    (fork : Option Pid) :
    requested key s (.dispatch i accepted now fork) = if sep.key = key then some now else none := by
  rw [requested, h, Option.bind_some]

theorem times_append (l l' : List Event) : times (l ++ l') = times l ++ times l' :=
  filterMap_append ..

/-- The starts that are counted were requested, since the time that is noted. -/
def Tracked (toomany : ℕ) (l : List Event) (m : Mark) : Prop :=
  Backed m.counter (notes toomany (requested m.key) State.init l) ∧
    (m.counter.count ≠ 0 → m.counter.time ∈ times l)

variable {m : Mark}

theorem Tracked.append {toomany : ℕ} {l : List Event} (h : Tracked toomany l m) (l' : List Event) :
    Tracked toomany (l ++ l') m := by
  refine ⟨?_, fun h0 => ?_⟩
  · rw [notes_append]
    exact h.1.append _
  · rw [times_append]
    exact mem_append_left _ (h.2 h0)

theorem tracked {l : List Event} (hl : (times l).Pairwise (· ≤ ·)) :
    ∀ m ∈ marks (run (step toomany) State.init l), Tracked toomany l m := by
  induction l using List.reverseRecOn with
  | nil => exact fun m hm => absurd hm not_mem_nil
  | append_singleton l e ih =>
    rw [times_append] at hl
    have ih := ih (pairwise_append.1 hl).1
    rw [run_append, run_cons, run_nil]
    intro m' hm'
    rcases requested_cases (run (step toomany) State.init l) e with hno | ⟨i, accepted, now, fork,
      sep, rfl, ha⟩
    · rcases (evolves_step toomany _ e hno).origin m' hm' with hm | ⟨h0, -⟩
      · exact (ih m' hm).append [e]
      · exact ⟨(Nat.le_of_eq h0).trans (Nat.zero_le _), fun h => absurd h0 h⟩
    · obtain ⟨l₁, l₂, hold, c, hnew, hc⟩ := dispatch_marks ha toomany now fork
      rw [step, hnew] at hm'
      have hin : ∀ m ∈ l₁ ++ l₂, m ∈ marks (run (step toomany) State.init l) := by
        intro m hm
        rw [hold]
        simp only [mem_append, mem_cons] at hm ⊢
        tauto
      rw [mem_append, mem_cons] at hm'
      obtain hm | rfl | hm := hm'
      · exact (ih m' (hin _ (mem_append_left _ hm))).append _
      · have hsep : Tracked toomany l (mark sep) := ih _ (by rw [hold]; simp)
        have hlast : now ∈ times (l ++ [.dispatch i accepted now fork]) := by
          rw [times_append]
          exact mem_append_right _ mem_cons_self
        rcases hc with hc | ⟨h0, -⟩
        · refine ⟨?_, fun _ => ?_⟩
          · rw [notes_append, notes, notes, requested_of_asked ha, if_pos rfl, append_nil]
            refine hsep.1.tick (fun h0 => ?_) hc
            exact (pairwise_append.1 hl).2.2 _ (hsep.2 h0) now mem_cons_self
          · rcases tick_eq_some hc with ⟨rfl, -⟩ | ⟨rfl, h0, -⟩
            · exact hlast
            · rw [times_append]
              exact mem_append_left _ (hsep.2 h0)
        · exact ⟨(Nat.le_of_eq h0).trans (Nat.zero_le _), fun h => absurd h0 h⟩
      · exact (ih m' (hin _ (mem_append_right _ hm))).append _

theorem asked_of_closed {l : List Event} {now : ℕ}
    (hl : (times (l ++ [.dispatch i accepted now fork])).Pairwise (· ≤ ·))
    (ha : asked (run (step toomany) State.init l) i accepted = some sep)
    (hc : counted toomany now sep = none) :
    limit toomany sep.max ≤
      (notes toomany (requested sep.key) State.init (l ++ [.dispatch i accepted now fork])).countP
        fun t => t ≤ now ∧ now ≤ t + CNT_INTVL := by
  rw [times_append] at hl
  obtain ⟨hpre, -, hle⟩ := pairwise_append.1 hl
  obtain ⟨l₁, l₂, hold, -⟩ := dispatch_marks ha toomany now fork
  have hsep : Tracked toomany l (mark sep) := tracked toomany hpre _ (by rw [hold]; simp)
  rw [counted_eq, Option.map_eq_none_iff] at hc
  obtain ⟨hlim, hnow⟩ := tick_eq_none hc
  have hmono : (notes toomany (requested sep.key) State.init l).countP ((counter sep).time ≤ ·) ≤
      (notes toomany (requested sep.key) State.init l).countP fun t =>
        t ≤ now ∧ now ≤ t + CNT_INTVL := by
    refine countP_mono_left fun t ht htime => ?_
    have hbefore := hle t (mem_times_of_requested ht) now mem_cons_self
    have htime := of_decide_eq_true htime
    simp only [decide_eq_true_eq]
    omega
  have hback : (counter sep).count ≤
      (notes toomany (requested sep.key) State.init l).countP ((counter sep).time ≤ ·) := hsep.1
  rw [notes_append, notes, notes, requested_of_asked ha, if_pos rfl, append_nil, countP_append]
  have hone : ([now] : List ℕ).countP (fun t => t ≤ now ∧ now ≤ t + CNT_INTVL) = 1 := by simp
  rw [Option.toList, hone]
  omega

/-! ### What is granted -/

theorem nodup_keys (l : List Event) {s : State} (h : ((marks s).map (·.key)).Nodup) :
    ((marks (run (step toomany) s l)).map (·.key)).Nodup := by
  refine run_keeps (I := fun s => ((marks s).map (·.key)).Nodup) (fun s e hn => ?_) l h
  rcases requested_cases s e with hno | ⟨i, accepted, now, fork, sep, rfl, ha⟩
  · exact (evolves_step toomany s e hno).nodup hn
  · obtain ⟨l₁, l₂, hold, c, hnew, -⟩ := dispatch_marks ha toomany now fork
    rw [step, hnew]
    rw [hold] at hn
    simpa [mark] using hn

theorem mark_unique {l : List Mark} (h : (l.map (·.key)).Nodup) {m' : Mark} (hm : m ∈ l)
    (hm' : m' ∈ l) (hk : m'.key = m.key) : m' = m := inj_on_of_nodup_map h hm' hm hk

theorem not_open_closed {now toomany : ℕ} (hn : ((marks s).map (·.key)).Nodup)
    (ha : asked s i accepted = some sep) (hc : counted toomany now sep = none) :
    ¬ Open sep.key (dispatch toomany i accepted now fork s) := by
  obtain ⟨l₁, l₂, hl, hd⟩ := dispatch_of_asked ha toomany now fork
  rw [hc] at hd
  rintro ⟨sep', hsep', hk, hfd⟩
  rw [hd, mem_append, mem_cons] at hsep'
  have hother : sep' ∉ l₁ ++ l₂ := by
    intro hmem
    rw [marks, hl, map_map, map_append, map_cons] at hn
    refine (nodup_cons.1 (nodup_middle.1 hn)).1 ?_
    rw [← map_append]
    exact mem_map.2 ⟨sep', hmem, hk⟩
  rcases hsep' with h | rfl | h
  · exact hother (mem_append_left _ h)
  · exact hfd rfl
  · exact hother (mem_append_right _ h)

theorem tick_step {e : Event} (hn : ((marks s).map (·.key)).Nodup) (hm : m ∈ marks s)
    (ho : Open m.key (step toomany s e)) :
    ∃ c, ⟨m.key, m.max, c⟩ ∈ marks (step toomany s e) ∧
      ticks CNT_INTVL (limit toomany m.max) m.counter (requested m.key s e).toList = some c := by
  obtain ⟨sep', hsep', hk, hfd⟩ := id ho
  have hm' : mark sep' ∈ marks (step toomany s e) := mem_map.2 ⟨sep', hsep', rfl⟩
  rcases requested_cases s e with hno | ⟨i, accepted, now, fork, sep, rfl, ha⟩
  · rw [hno, Option.toList]
    refine ⟨m.counter, ?_, rfl⟩
    rcases (evolves_step toomany s e hno).origin _ hm' with h | ⟨-, hne⟩
    · rw [← mark_unique hn hm h hk]
      exact hm'
    · exact absurd hk.symm (hne m hm)
  · obtain ⟨l₁, l₂, hold, c, hnew, hc⟩ := dispatch_marks ha toomany now fork
    have hin : mark sep ∈ marks s := by rw [hold]; simp
    rw [requested_of_asked ha]
    by_cases hkey : sep.key = m.key
    · obtain rfl := mark_unique hn hin hm hkey.symm
      have hgrant : tick CNT_INTVL (limit toomany sep.max) (counter sep) now = some c := by
        refine hc.resolve_right fun ⟨_, hnone⟩ => ?_
        refine not_open_closed hn ha ?_ ho
        rw [counted_eq, hnone, Option.map_none]
      refine ⟨c, by rw [step, hnew]; exact mem_append_right _ mem_cons_self, ?_⟩
      rw [if_pos hkey, Option.toList, ticks]
      exact (congrArg (Option.bind · _) hgrant).trans rfl
    · refine ⟨m.counter, ?_, by rw [if_neg hkey]; rfl⟩
      have hmem : m ∈ l₁ ++ l₂ := by
        rw [hold, mem_append, mem_cons] at hm
        rcases hm with h | rfl | h
        · exact mem_append_left _ h
        · exact absurd rfl hkey
        · exact mem_append_right _ h
      rw [step, hnew, mem_append, mem_cons]
      exact (mem_append.1 hmem).imp id Or.inr

theorem ticks_run {l : List Event} {s : State} (hn : ((marks s).map (·.key)).Nodup)
    (hm : m ∈ marks s) (ho : ∀ l', l' <+: l → Open m.key (run (step toomany) s l')) :
    ∃ c, ticks CNT_INTVL (limit toomany m.max) m.counter (notes toomany (requested m.key) s l) =
    some c := by
  induction l generalizing s m with
  | nil => exact ⟨m.counter, rfl⟩
  | cons e l ih =>
    obtain ⟨c, hc, htick⟩ :=
      tick_step toomany hn hm (ho [e] ((prefix_cons_inj e).2 List.nil_prefix))
    obtain ⟨c', hrest⟩ := ih (nodup_keys toomany [e] hn) hc fun l' hl' =>
      ho (e :: l') ((prefix_cons_inj e).2 hl')
    exact ⟨c', by rw [notes, ticks_append, htick]; exact hrest⟩

/-- **The limiter**: a service is closed when `limit` starts were requested within `CNT_INTVL`, and
while it stays open not more than twice as many are performed in such an interval. -/
theorem limiter (toomany : ℕ) (l : List Event) (hl : (times l).Pairwise (· ≤ ·)) :
    (∀ l' i accepted now fork sep, l' ++ [.dispatch i accepted now fork] <+: l →
      asked (run (step toomany) State.init l') i accepted = some sep →
      counted toomany now sep = none → limit toomany sep.max ≤
          (notes toomany (requested sep.key) State.init
            (l' ++ [.dispatch i accepted now fork])).countP
            fun t => t ≤ now ∧ now ≤ t + CNT_INTVL) ∧
    ∀ l₁ l₂ a, l₁ ++ l₂ <+: l → (∀ t ∈ times l₂, a ≤ t ∧ t ≤ a + CNT_INTVL) →
      ∀ sep ∈ (run (step toomany) State.init l₁).servtab, 2 ≤ limit toomany sep.max →
        (∀ l', l' <+: l₂ → Open sep.key (run (step toomany) State.init (l₁ ++ l'))) →
          (notes toomany (started toomany sep.key) (run (step toomany) State.init l₁) l₂).length ≤
            2 * limit toomany sep.max := by
  constructor
  · intro l' i accepted now fork sep hpre ha hc
    exact asked_of_closed toomany (hl.sublist (hpre.sublist.filterMap _)) ha hc
  · intro l₁ l₂ a _ hin sep hsep h2 ho
    have hn : ((marks (run (step toomany) State.init l₁)).map (·.key)).Nodup :=
      nodup_keys toomany l₁ .nil
    obtain ⟨c, hc⟩ := ticks_run toomany hn (mem_map.2 ⟨sep, hsep, rfl⟩) fun l' hl' => by
      rw [← run_append]
      exact ho l' hl'
    have hlen := length_add_slack_le h2 hc fun t ht => hin t (mem_times_of_requested ht)
    have hslack := slack_le (limit toomany sep.max) a (counter sep)
    have hstart := length_started_le toomany sep.key l₂ (run (step toomany) State.init l₁)
    dsimp only [mark] at hlen
    omega

/-- A service that is started twice, and closed at the third request. -/
theorem limiter_thrice :
    let l : List Event := [.uncheck, .enter tcpmuxConf fun _ => .ok 3]
    let l' : List Event :=
      [.dispatch 0 true 0 (some ⟨7, by decide⟩), .dispatch 0 true 30 (some ⟨8, by decide⟩)]
    3 ≤ (notes 3 (requested tcpmuxConf.key) State.init
      (l ++ l' ++ [.dispatch 0 true 60 none])).countP
        (fun t => t ≤ 60 ∧ 60 ≤ t + CNT_INTVL) ∧
      (notes 3 (started 3 tcpmuxConf.key) (run (step 3) State.init l) l').length ≤ 6 := by
  intro l l'
  obtain ⟨h1, h2⟩ := limiter 3 (l ++ l' ++ [.dispatch 0 true 60 none]) (by decide)
  refine ⟨h1 _ 0 true 60 none _ prefix_rfl rfl rfl, ?_⟩
  refine h2 l l' 0 (prefix_append _ _) (by decide) _ mem_cons_self (by decide) fun p hp => ?_
  have hp := (mem_inits p l').2 hp
  simp only [l', List.inits, map_cons, map_nil, mem_cons, not_mem_nil, or_false] at hp
  rcases hp with rfl | rfl | rfl <;> exact ⟨_, mem_cons_self, rfl, Option.some_ne_none 3⟩

end Inetutils.Inetd.Looping
