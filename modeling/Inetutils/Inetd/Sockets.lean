import Inetutils.Inetd.Table
import Inetutils.Lib.Tallies

/-! # The sockets inetd waits on

The events of the main loop, with a configuration as the entries it is made of (`config_run`), and
what the set `allsock`, its size, `maxsock` and the sockets listened on are after them
(`bookkeeping`). -/

namespace Inetutils.Inetd.Sockets

open Table Lib.Tallies Lib.Runs List Option

/-- What happens: the parts of a configuration, the alarm, a socket that is readable, the end of a
child. -/
inductive Event
  | uncheck
  | enter (cp : Conf) (net : Net)
  | purge
  | retry (net : ℕ → Net)
  | dispatch (i : ℕ) (accepted : Bool) (now : ℕ) (fork : Option Pid)
  | reapchild (pid : Pid)

/-- `enter`, and `servent_setup` where it follows. -/
def enterSetup (cp : Conf) (net : Net) (s : State) : State :=
  if cp.isMux then (enter cp s).2.2 else serventSetup net (enter cp s).1 (enter cp s).2.2

def step (toomany : ℕ) (s : State) : Event → State
  | .uncheck => uncheck s
  | .enter cp net => enterSetup cp net s
  | .purge => purge s
  | .retry net => retry net s
  | .dispatch i accepted now fork => dispatch toomany i accepted now fork s
  | .reapchild pid => reapchild pid s

structure Booked (s : State) : Prop where
  allsock : ∀ fd, fd ∈ s.allsock ↔ ∃ sep ∈ s.servtab, sep.fd = some fd ∧ sep.child = none
  nsock : s.nsock = s.allsock.card
  maxsock : ∀ fd ∈ s.allsock, (fd : ℤ) ≤ s.maxsock
  listening : ∀ sep ∈ s.servtab, sep.socktype = .stream → ∀ fd, sep.fd = some fd → fd ∈ s.listening

/-! ### When the bookkeeping is kept -/

/-- The descriptor that `socket` and `bind` give, of either family. -/
def bound (net : Net) (e : Entry) : Option ℕ :=
  match net e.family with
  | .ok fd => some fd
  | .error again =>
    if again ∧ e.family = .inet6 ∧ e.v4mapped then
      match net .inet with
      | .ok fd => some fd
      | .error _ => none
    else none

def NoneBound (net : ℕ → Net) : List Servtab → Prop
  | [] => True
  | sep :: l =>
    (sep.fd = none → ¬ sep.isMux → bound (net l.length) sep.toEntry = none) ∧ NoneBound net l

/-- A service that is purged has no running wait child, `retry` gets no socket, and the child that
has ended is still noted in its service. -/
def Fit (s : State) : Event → Prop
  | .purge => ∀ sep ∈ s.servtab, sep.checked = false → sep.child = none
  | .retry net => NoneBound net s.servtab
  | .reapchild pid => ∀ sep ∈ s.servtab, sep.child = some pid → sep.wait = pid
  | _ => True

instance decidableNoneBound (net : ℕ → Net) : ∀ l, Decidable (NoneBound net l)
  | [] => inferInstanceAs (Decidable True)
  | _ :: l =>
    have := decidableNoneBound net l
    inferInstanceAs (Decidable (_ ∧ _))

instance decidableFit (s : State) : ∀ e, Decidable (Fit s e)
  | .uncheck => inferInstanceAs (Decidable True)
  | .enter _ _ => inferInstanceAs (Decidable True)
  | .purge =>
    inferInstanceAs (Decidable (∀ sep ∈ s.servtab, sep.checked = false → sep.child = none))
  | .retry net => decidableNoneBound net s.servtab
  | .dispatch _ _ _ _ => inferInstanceAs (Decidable True)
  | .reapchild pid =>
    inferInstanceAs (Decidable (∀ sep ∈ s.servtab, sep.child = some pid → sep.wait = pid))

/-! ### The invariant -/

def watched (sep : Servtab) : Option ℕ := if sep.child = none then sep.fd else none

structure Sane (k : Socks) (sep : Servtab) : Prop where
  maxsock : ∀ fd, sep.fd = some fd → (fd : ℤ) ≤ k.maxsock
  listening : sep.socktype = .stream → ∀ fd, sep.fd = some fd → fd ∈ k.listening
  idle : sep.child = none → sep.wait ≤ 1
  busy : ∀ pid, sep.child = some pid → (sep.wait = pid ∨ sep.wait = 0) ∧ sep.fd ≠ none

structure Kept (l : List Servtab) (k : Socks) : Prop where
  tally : Tally watched l k.allsock k.nsock
  sockets : ∃ n, Tally Servtab.fd l k.opened n
  sane : ∀ sep ∈ l, Sane k sep

variable {l l₁ l₂ : List Servtab} {k k' : Socks} {sep sep' : Servtab} {s : State} {fd : ℕ}

theorem watched_of_idle (h : sep.child = none) : watched sep = sep.fd := if_pos h

theorem watched_of_busy {pid : Pid} (h : sep.child = some pid) : watched sep = none :=
  if_neg (by rw [h]; exact some_ne_none pid)

theorem watched_of_none (h : sep.fd = none) : watched sep = none := by
  rw [watched, h, ite_self]

theorem Sane.child_of_wait (h : Sane k sep) {pid : Pid} (hw : sep.wait = pid) :
    sep.child = some pid := by
  rcases hc : sep.child with _ | p
  · have := h.idle hc
    omega
  · rcases (h.busy p hc).1 with hp | hp
    · exact congrArg some (Subtype.ext (hp.symm.trans hw))
    · omega

theorem Kept.booked (h : Kept s.servtab s.toSocks) : Booked s := by
  refine ⟨fun fd => ?_, h.tally.card, fun fd hfd => ?_, fun sep hsep => (h.sane sep hsep).listening⟩
  · rw [h.tally.mem]
    constructor
    · rintro ⟨sep, hsep, hw⟩
      rcases hc : sep.child with _ | pid
      · exact ⟨sep, hsep, (watched_of_idle hc).symm.trans hw, hc⟩
      · rw [watched_of_busy hc] at hw
        exact absurd hw (by simp)
    · rintro ⟨sep, hsep, hfd, hc⟩
      exact ⟨sep, hsep, (watched_of_idle hc).trans hfd⟩
  · obtain ⟨sep, hsep, hw⟩ := h.tally.mem.1 hfd
    refine (h.sane sep hsep).maxsock fd ?_
    rw [watched] at hw
    split at hw
    · exact hw
    · exact absurd hw (by simp)

theorem Kept.ne (h : Kept (l₁ ++ sep :: l₂) k) (hfd : sep.fd = some fd) (hs : sep' ∈ l₁ ++ l₂) :
    sep'.fd ≠ some fd := h.sockets.choose_spec.ne hfd hs

theorem mem_replace {P : Servtab → Prop} (h : ∀ x ∈ l₁ ++ l₂, P x) (hs : P sep) :
    ∀ x ∈ l₁ ++ sep :: l₂, P x := by
  intro x hx
  rcases mem_append.1 hx with hx | hx
  · exact h x (mem_append_left _ hx)
  · rcases mem_cons.1 hx with rfl | hx
    · exact hs
    · exact h x (mem_append_right _ hx)

theorem mem_others {x : Servtab} (hx : x ∈ l₁ ++ l₂) : x ∈ l₁ ++ sep :: l₂ := by
  rcases mem_append.1 hx with hx | hx
  · exact mem_append_left _ hx
  · exact mem_append_right _ (mem_cons_of_mem _ hx)

/-! ### One service changes -/

theorem Kept.keep (h : Kept (l₁ ++ sep :: l₂) k) (hfd : sep'.fd = sep.fd)
    (hc : sep'.child = sep.child) (hs : Sane k sep') : Kept (l₁ ++ sep' :: l₂) k := by
  obtain ⟨h1, ⟨n, h2⟩, h3⟩ := h
  refine ⟨h1.keep ?_, ⟨n, h2.keep hfd⟩, mem_replace (fun x hx => h3 x (mem_others hx)) hs⟩
  rw [watched, watched, hfd, hc]

theorem Kept.add (h : Kept (l₁ ++ l₂) k) (hfd : sep.fd = none) (hs : Sane k sep) :
    Kept (l₁ ++ sep :: l₂) k := by
  obtain ⟨h1, ⟨n, h2⟩, h3⟩ := h
  exact ⟨h1.insert_none (watched_of_none hfd), ⟨n, h2.insert_none hfd⟩, mem_replace h3 hs⟩

theorem Kept.register (h : Kept (l₁ ++ sep :: l₂) k) (hnone : sep.fd = none)
    (hfd : sep'.fd = some fd)
    (hc : sep.child = none) (hc' : sep'.child = none) (hw : sep'.wait = sep.wait)
    (ht : sep'.socktype = sep.socktype)
    (hnew : fd ∉ k.opened) :
    Kept (l₁ ++ sep' :: l₂) (k.register (sep.socktype = Socktype.stream) fd) := by
  obtain ⟨h1, ⟨n, h2⟩, h3⟩ := h
  have hall : fd ∉ k.allsock := fun hm => by
    obtain ⟨x, hx, hxw⟩ := h1.mem.1 hm
    refine hnew (h2.mem.2 ⟨x, hx, ?_⟩)
    rw [watched] at hxw
    split at hxw
    · exact hxw
    · exact absurd hxw (by simp)
  have hsep := h3 sep (mem_append_right _ mem_cons_self)
  refine ⟨h1.gain (watched_of_none hnone) ((watched_of_idle hc').trans hfd) hall,
    ⟨n + 1, h2.gain hnone hfd hnew⟩, mem_replace (fun x hx => ?_) ?_⟩
  · obtain ⟨s1, s2, s3, s4⟩ := h3 x (mem_others hx)
    refine ⟨fun fd' hfd' => (s1 fd' hfd').trans (le_max_left _ _), fun ht fd' hfd' => ?_, s3, s4⟩
    rw [Socks.register]
    split
    · exact Finset.mem_insert_of_mem (s2 ht fd' hfd')
    · exact s2 ht fd' hfd'
  · refine ⟨fun fd' hfd' => ?_, fun ht' fd' hfd' => ?_, fun _ => ?_, fun pid hpid => ?_⟩
    · obtain rfl := some.inj (hfd.symm.trans hfd')
      exact le_max_right _ _
    · obtain rfl := some.inj (hfd.symm.trans hfd')
      rw [Socks.register, ← ht, ht']
      exact Finset.mem_insert_self _ _
    · rw [hw]
      exact hsep.idle hc
    · exact absurd (hc'.symm.trans hpid) (by simp)

theorem Kept.close (h : Kept (l₁ ++ sep :: l₂) k) (hfd : sep.fd = some fd) (hc : sep.child = none) :
    Kept (l₁ ++ l₂) (k.close fd) := by
  have hne : ∀ x ∈ l₁ ++ l₂, x.fd ≠ some fd := fun x hx => h.ne hfd hx
  obtain ⟨h1, ⟨n, h2⟩, h3⟩ := h
  refine ⟨h1.delete_some ((watched_of_idle hc).trans hfd), ⟨n - 1, h2.delete_some hfd⟩,
    fun x hx => ?_⟩
  obtain ⟨s1, s2, s3, s4⟩ := h3 x (mem_others hx)
  refine ⟨s1, fun ht fd' hfd' => Finset.mem_erase.2 ⟨?_, s2 ht fd' hfd'⟩, s3, s4⟩
  rintro rfl
  exact hne x hx hfd'

/-! ### Configuration -/

theorem newFd_fresh (opened : Finset ℕ) (fd : ℕ) : newFd opened fd ∉ opened := by
  rw [newFd]
  split
  · intro hm
    have := Finset.le_sup (f := id) hm
    rw [id] at this
    omega
  · assumption

theorem setup_spec (net : Net) (opened : Finset ℕ) (sep : Servtab) :
    ∃ family,
    setup net opened sep = sep.bindTo family ((bound net sep.toEntry).map (newFd opened)) := by
  rw [setup, bound]
  rcases net sep.family with again | fd
  · dsimp only
    split
    · rcases net .inet with again | fd
      · exact ⟨_, rfl⟩
      · exact ⟨_, rfl⟩
    · exact ⟨sep.family, rfl⟩
  · exact ⟨sep.family, rfl⟩

theorem Sane.check (h : Sane k sep) (checked : Bool) : Sane k (sep.check checked) := by
  obtain ⟨s1, s2, s3, s4⟩ := h
  exact ⟨s1, s2, s3, s4⟩

theorem Sane.child_eq_none (h : Sane k sep) (hfd : sep.fd = none) : sep.child = none := by
  by_contra hc
  obtain ⟨pid, hpid⟩ := ne_none_iff_exists'.1 hc
  exact (h.busy pid hpid).2 hfd

theorem Sane.unbound (h : Sane k sep) (hfd : sep.fd = none) (family : Family) :
    Sane k (sep.bindTo family none) := by
  refine ⟨fun fd hfd => ?_, fun _ fd hfd => ?_, h.idle, fun pid hpid => ?_⟩
  · exact absurd hfd (some_ne_none fd).symm
  · exact absurd hfd (some_ne_none fd).symm
  · exact absurd hfd (h.busy pid hpid).2

theorem Kept.uncheck (h : Kept s.servtab s.toSocks) :
    Kept (uncheck s).servtab (uncheck s).toSocks := by
  obtain ⟨h1, ⟨n, h2⟩, h3⟩ := h
  refine ⟨h1.map fun sep => rfl, ⟨n, h2.map fun sep => rfl⟩, fun sep hsep => ?_⟩
  obtain ⟨x, hx, rfl⟩ := mem_map.1 hsep
  exact (h3 x hx).check false

theorem sane_redone (cp : Conf) (h : Sane k sep) : Sane k (cp.redone sep) := by
  obtain ⟨s1, s2, s3, s4⟩ := h
  refine ⟨s1, s2, fun hc => ?_, fun pid hpid => ?_⟩
  · rw [Conf.redone]
    split
    · exact Bool.toNat_le cp.wait
    · exact s3 hc
  · obtain ⟨hw, hfd⟩ := s4 pid hpid
    refine ⟨?_, hfd⟩
    rw [Conf.redone]
    split
    next hcp =>
      rcases hcp.2 with h1 | h0
      · rcases hw with hw | hw <;> omega
      · rw [h0]
        exact .inr rfl
    next => exact hw

theorem sane_added (cp : Conf) : Sane k cp.added := by
  refine ⟨fun fd hfd => ?_, fun _ fd hfd => ?_, fun _ => Bool.toNat_le cp.wait, fun pid hpid => ?_⟩
  · exact absurd hfd (some_ne_none fd).symm
  · exact absurd hfd (some_ne_none fd).symm
  · exact absurd hpid (some_ne_none pid).symm

theorem Kept.enter (h : Kept s.servtab s.toSocks) (cp : Conf) :
    Kept (enter cp s).2.2.servtab (enter cp s).2.2.toSocks := by
  rw [Table.enter]
  split
  next sep hsep =>
    obtain ⟨l₁, l₂, hl, hset⟩ := exists_split hsep
    rw [hset]
    rw [hl] at h
    exact h.keep rfl rfl (sane_redone cp (h.sane sep (mem_append_right _ mem_cons_self)))
  next => exact @Kept.add [] _ _ _ h rfl (sane_added cp)

theorem Kept.serventSetup (h : Kept s.servtab s.toSocks) (net : Net) (i : ℕ) :
    Kept (serventSetup net i s).servtab (serventSetup net i s).toSocks := by
  rw [Table.serventSetup]
  split
  next => exact h
  next sep hsep =>
    obtain ⟨l₁, l₂, hl, hset⟩ := exists_split hsep
    rw [hl] at h
    have hsane := h.sane sep (mem_append_right _ mem_cons_self)
    split
    next =>
      rw [hset]
      exact h.keep rfl rfl (hsane.check true)
    next hnone =>
      rw [not_not] at hnone
      have hc := hsane.child_eq_none hnone
      obtain ⟨family, hf⟩ := setup_spec net s.opened (sep.check true)
      dsimp only
      rw [hf, hset]
      rcases bound net (sep.check true).toEntry with _ | fd
      · exact h.keep hnone.symm rfl ((hsane.check true).unbound hnone family)
      · exact h.register hnone rfl hc hc rfl rfl (newFd_fresh _ _)

theorem Kept.enterSetup (h : Kept s.servtab s.toSocks) (cp : Conf) (net : Net) :
    Kept (enterSetup cp net s).servtab (enterSetup cp net s).toSocks := by
  rw [Sockets.enterSetup]
  split
  · exact h.enter cp
  · exact (h.enter cp).serventSetup net _

theorem Kept.purgeTab (h : Kept (l₁ ++ l) k)
    (hl : ∀ sep ∈ l, sep.checked = false → sep.child = none) :
    Kept (l₁ ++ (purgeTab l k).1) (purgeTab l k).2 := by
  induction l generalizing l₁ k with
  | nil => exact h
  | cons sep l ih =>
    rw [forall_mem_cons] at hl
    rw [Table.purgeTab]
    split
    next =>
      have hstep := @ih (l₁ ++ [sep]) _ (by rwa [append_assoc]) hl.2
      rwa [append_assoc] at hstep
    next hch =>
      refine ih ?_ hl.2
      have hc := hl.1 (by simpa using hch)
      rcases hfd : sep.fd with _ | fd
      · rw [if_neg (not_not.2 rfl)]
        obtain ⟨h1, ⟨n, h2⟩, h3⟩ := h
        exact ⟨h1.delete_none (watched_of_none hfd), ⟨n, h2.delete_none hfd⟩,
          fun x hx => h3 x (mem_others hx)⟩
      · rw [if_pos (some_ne_none fd), closeSep, hfd]
        exact h.close hfd hc

theorem Kept.retryTab {net : ℕ → Net} (h : Kept (l₁ ++ l) k) (hl : NoneBound net l) :
    Kept (l₁ ++ (retryTab net l k).1) (retryTab net l k).2 := by
  induction l generalizing l₁ k with
  | nil => exact h
  | cons sep l ih =>
    rw [Table.retryTab]
    split
    next hs =>
      obtain ⟨family, hf⟩ := setup_spec (net l.length) k.opened sep
      rw [hl.1 hs.1 hs.2] at hf
      rw [hf]
      have hsane := h.sane sep (mem_append_right _ mem_cons_self)
      have hkeep : Kept (l₁ ++ sep.bindTo family none :: l) k :=
        h.keep hs.1.symm rfl (hsane.unbound hs.1 family)
      have hstep := @ih (l₁ ++ [sep.bindTo family none]) _ (by rwa [append_assoc]) hl.2
      rwa [append_assoc] at hstep
    next =>
      have hstep := @ih (l₁ ++ [sep]) _ (by rwa [append_assoc]) hl.2
      rwa [append_assoc] at hstep

/-! ### Service and children -/

theorem counted_spec {toomany now : ℕ} (h : counted toomany now sep = some sep') :
    ∃ count time, sep' = { sep with count := count, time := time } := by
  rw [counted] at h
  split at h
  · exact ⟨1, now, (some.inj h).symm⟩
  · split at h
    · split at h
      · exact ⟨1, now, (some.inj h).symm⟩
      · exact absurd h (by simp)
    · exact ⟨sep.count + 1, sep.time, (some.inj h).symm⟩

theorem Kept.fork (h : Kept (l₁ ++ sep :: l₂) k) (hfd : sep.fd = some fd) (hc : sep.child = none)
    (pid : Pid) :
    Kept (l₁ ++ { sep with wait := pid, child := some pid } :: l₂)
      { k with allsock := k.allsock.erase fd, nsock := k.nsock - 1 } := by
  obtain ⟨h1, ⟨n, h2⟩, h3⟩ := h
  refine ⟨h1.lose ((watched_of_idle hc).trans hfd) (watched_of_busy rfl), ⟨n, h2.keep rfl⟩,
    mem_replace (fun x hx => ?_) ?_⟩
  · obtain ⟨s1, s2, s3, s4⟩ := h3 x (mem_others hx)
    exact ⟨s1, s2, s3, s4⟩
  · obtain ⟨s1, s2, s3, s4⟩ := h3 sep (mem_append_right _ mem_cons_self)
    refine ⟨s1, s2, fun hn => ?_, fun pid' hpid => ?_⟩
    · exact absurd hn (some_ne_none pid)
    · obtain rfl := some.inj hpid
      exact ⟨.inl rfl, by rw [hfd]; exact some_ne_none fd⟩

theorem Kept.child_eq_none (h : Kept (l₁ ++ sep :: l₂) k) (hfd : sep.fd = some fd)
    (hall : fd ∈ k.allsock) :
    sep.child = none := by
  obtain ⟨x, hx, hw⟩ := h.tally.mem.1 hall
  by_contra hc
  have hxfd : x.fd = some fd ∧ x.child = none := by
    rw [watched] at hw
    split at hw
    next hxc => exact ⟨hw, hxc⟩
    next => exact absurd hw (by simp)
  have hne : x ∉ l₁ ++ l₂ := fun hm => h.ne hfd hm hxfd.1
  rcases mem_append.1 hx with hm | hm
  · exact hne (mem_append_left _ hm)
  · rcases mem_cons.1 hm with rfl | hm
    · exact hc hxfd.2
    · exact hne (mem_append_right _ hm)

theorem sane_closed (hc : sep.child = none) : Sane k (closeSep sep k').1 := by
  rw [closeSep]
  refine ⟨fun fd hfd => ?_, fun _ fd hfd => ?_, fun _ => ?_, fun pid hpid => ?_⟩
  · exact absurd hfd (some_ne_none fd).symm
  · exact absurd hfd (some_ne_none fd).symm
  · dsimp only
    split <;> omega
  · exact absurd (hc.symm.trans hpid) (by simp)

theorem Kept.dispatch (h : Kept s.servtab s.toSocks) (toomany i : ℕ) (accepted : Bool) (now : ℕ)
    (fork : Option Pid) : Kept (dispatch toomany i accepted now fork s).servtab
      (dispatch toomany i accepted now fork s).toSocks := by
  rw [Table.dispatch]
  split
  next => exact h
  next sep hsep =>
    obtain ⟨l₁, l₂, hl, hset⟩ := exists_split hsep
    split
    next => exact h
    next fd hfd =>
      split
      next => exact h
      next hall =>
        rw [not_not] at hall
        split
        next => exact h
        next =>
          split
          next => exact h
          next =>
            have hk := h
            rw [hl] at hk
            have hc := hk.child_eq_none hfd hall
            have hsane := hk.sane sep (mem_append_right _ mem_cons_self)
            split
            next =>
              -- the service is looping
              have hclose := @Kept.add l₁ l₂ _ _ (hk.close hfd hc) rfl
                (@sane_closed _ s.toSocks { sep with count := sep.count + 1 } hc)
              dsimp only
              rw [hset]
              rw [closeSep] at hclose ⊢
              rw [hfd]
              exact hclose
            next sep' hcount =>
              obtain ⟨count, time, rfl⟩ := counted_spec hcount
              have hcounted :
                  Kept (l₁ ++ { sep with count := count, time := time } :: l₂) s.toSocks := by
                obtain ⟨s1, s2, s3, s4⟩ := hsane
                exact hk.keep rfl rfl ⟨s1, s2, s3, s4⟩
              rcases fork with _ | pid
              · dsimp only
                rw [hset]
                exact hcounted
              · dsimp only
                split
                · rw [hset]
                  exact hcounted
                · rw [hset]
                  exact hcounted.fork hfd hc pid

theorem Kept.restore (h : Kept (l₁ ++ sep :: l₂) k) {pid : Pid} (hfd : sep.fd = some fd)
    (hc : sep.child = some pid) :
    Kept (l₁ ++ { sep with wait := 1, child := none } :: l₂)
      { k with allsock := insert fd k.allsock, nsock := k.nsock + 1 } := by
  have hall : fd ∉ k.allsock := fun hm => by
    rw [h.child_eq_none hfd hm] at hc
    exact absurd hc (by simp)
  obtain ⟨h1, ⟨n, h2⟩, h3⟩ := h
  refine ⟨h1.gain (watched_of_busy hc) ?_ hall, ⟨n, h2.keep rfl⟩, mem_replace (fun x hx => ?_) ?_⟩
  · exact hfd
  · obtain ⟨s1, s2, s3, s4⟩ := h3 x (mem_others hx)
    exact ⟨s1, s2, s3, s4⟩
  · obtain ⟨s1, s2, s3, s4⟩ := h3 sep (mem_append_right _ mem_cons_self)
    exact ⟨s1, s2, fun _ => Nat.le_refl 1, fun pid hpid => absurd hpid (some_ne_none pid).symm⟩

theorem Kept.reapTab {pid : Pid} (h : Kept (l₁ ++ l) k)
    (hl : ∀ sep ∈ l, sep.child = some pid → sep.wait = pid) :
    Kept (l₁ ++ (reapTab pid l k).1) (reapTab pid l k).2 := by
  induction l generalizing l₁ k with
  | nil => exact h
  | cons sep l ih =>
    rw [forall_mem_cons] at hl
    rw [Table.reapTab]
    have hsane := h.sane sep (mem_append_right _ mem_cons_self)
    split
    next hw =>
      have hc := hsane.child_of_wait hw
      obtain ⟨fd, hfd⟩ := ne_none_iff_exists'.1 (hsane.busy pid hc).2
      have hended : { sep.ended pid with wait := 1 } = { sep with wait := 1, child := none } := by
        rw [Servtab.ended, if_pos hc]
      have hstep := @ih (l₁ ++ [{ sep with wait := 1, child := none }]) _
        (by rw [append_assoc]; exact h.restore hfd hc) hl.2
      rw [hfd, hended]
      rwa [append_assoc] at hstep
    next hw =>
      have hended : sep.ended pid = sep := by
        rw [Servtab.ended, if_neg fun hc => hw (hl.1 hc)]
      have hstep := @ih (l₁ ++ [sep]) _ (by rwa [append_assoc]) hl.2
      rw [hended]
      rwa [append_assoc] at hstep

/-! ### Runs -/

theorem kept_init : Kept State.init.servtab State.init.toSocks :=
  ⟨tally_nil _, ⟨0, tally_nil _⟩, fun _ hsep => absurd hsep not_mem_nil⟩

theorem Kept.step (toomany : ℕ) (s : State) (e : Event) (h : Kept s.servtab s.toSocks)
    (he : Fit s e) :
    Kept (step toomany s e).servtab (step toomany s e).toSocks := by
  rcases e with _ | ⟨cp, net⟩ | _ | net | ⟨i, accepted, now, fork⟩ | pid
  · exact h.uncheck
  · exact h.enterSetup cp net
  · exact @Kept.purgeTab _ [] _ h he
  · exact @Kept.retryTab _ [] _ _ h he
  · exact h.dispatch toomany i accepted now fork
  · exact @Kept.reapTab _ [] _ _ h he

/-- **The bookkeeping** is right in every state that is reached by events that fit. -/
theorem bookkeeping (toomany : ℕ) (events : List Event)
    (h : Allowed (step toomany) Fit State.init events) :
    Booked (run (step toomany) State.init events) :=
  (run_inv (I := fun s : State => Kept s.servtab s.toSocks) (Kept.step toomany) kept_init h).booked

/-- A service of which the socket is bound, a child that is waited for, its end. -/
theorem bookkeeping_wait :
    Booked (run (step 1000) State.init
      [.uncheck, .enter { tcpmuxConf with wait := true } (fun _ => .ok 3), .purge,
        .dispatch 0 true 0 (some ⟨7, by omega⟩), .reapchild ⟨7, by omega⟩]) :=
  bookkeeping 1000 _ (by decide)

/-- A service that gets its socket from `retry` is not waited on. -/
theorem retry_unregistered :
    ¬ Booked (run (step 1000) State.init
      [.uncheck, .enter tcpmuxConf (fun _ => .error false), .purge, .retry fun _ _ => .ok 3]) := by
  intro h
  have hmem := (h.allsock 3).2 (by decide)
  exact absurd hmem (by decide)

/-! ### A configuration is made of events -/

section
variable (toomany : ℕ)

/-- What a configuration does with the table and the sockets. -/
def Configures : Event → Prop
  | .uncheck => True
  | .enter _ _ => True
  | .purge => True
  | _ => False

def Reached (s s' : State) : Prop :=
  ∃ events, (∀ e ∈ events, Configures e) ∧ s' = run (step toomany) s events

variable {toomany} {s₁ s₂ s₃ : State}

theorem Reached.refl (s : State) : Reached toomany s s :=
  ⟨[], fun _ he => absurd he not_mem_nil, rfl⟩

theorem Reached.step (e : Event) (he : Configures e) (s : State) :
    Reached toomany s (Sockets.step toomany s e) :=
  ⟨[e], fun _ he' => mem_singleton.1 he' ▸ he, rfl⟩

theorem Reached.trans (h : Reached toomany s₁ s₂) (h' : Reached toomany s₂ s₃) :
    Reached toomany s₁ s₃ := by
  obtain ⟨e, he, rfl⟩ := h
  obtain ⟨e', he', rfl⟩ := h'
  exact ⟨e ++ e', forall_mem_append.2 ⟨he, he'⟩, (run_append s₁ e e').symm⟩

theorem enter_isMux (cp : Conf) (s : State) : (enter cp s).2.1.isMux = cp.isMux := by
  rw [enter]
  split <;> rfl

variable (w : World)

theorem enterAddrs_reached {cp : Conf} (hcp : cp.isMux = false) (l : List Text) (s : State) :
    Reached toomany s (l.foldl (enterAddr w) (cp, s)).2 := by
  induction l generalizing cp s with
  | nil => exact Reached.refl s
  | cons addr l ih =>
    have hmux : (cp.atAddr addr).isMux = false := hcp
    rw [foldl_cons]
    have hstep : Reached toomany s (enterAddr w (cp, s) addr).2 := by
      have henter : (enterAddr w (cp, s) addr).2 =
          Sockets.step toomany s (.enter (cp.atAddr addr) (w.net (cp.atAddr addr).toEntry)) := by
        rw [Sockets.step, enterSetup, hmux, if_neg Bool.false_ne_true]
        rfl
      rw [henter]
      exact Reached.step (.enter _ _) trivial s
    exact hstep.trans (ih ((enter_isMux _ s).trans hmux) _)

theorem expandEnter_reached {cp : Conf} (hcp : cp.isMux = false) (s : State) :
    Reached toomany s (expandEnter w cp s).2 := by
  have hmux : (cp.ofFamily (addresses w cp.query).1).isMux = false := hcp
  exact enterAddrs_reached w hmux _ s

theorem enterNode_reached (r : Conf × State) (node : Option Text) :
    Reached toomany r.2 (enterNode w r node).2 := by
  rw [enterNode]
  split
  · exact Reached.refl r.2
  · split
    next hmux =>
      have hmux' : ((r.1.atNode node).check true).isMux = true := hmux
      have henter : (enter ((r.1.atNode node).check true) r.2).2.2 =
          Sockets.step toomany r.2
          (.enter ((r.1.atNode node).check true) fun _ => .error false) := by
        rw [Sockets.step, enterSetup, if_pos hmux']
      rw [henter]
      exact Reached.step (.enter _ _) trivial r.2
    next hmux => exact expandEnter_reached w (by simpa using hmux) r.2

theorem enterLine_reached (s : State) (line : Line) : Reached toomany s (enterLine w s line) := by
  have h : ∀ (l : List (Option Text)) (r : Conf × State),
      Reached toomany r.2 (l.foldl (enterNode w) r).2 := by
    intro l
    induction l with
    | nil => exact fun r => Reached.refl r.2
    | cons node l ih => exact fun r => (enterNode_reached w r node).trans (ih _)
  exact h line.nodes (line.toConf, s)

theorem nextconfig_reached (s : State) (file : Option (List Line)) :
    Reached toomany s (nextconfig w s file) := by
  have h : ∀ (lines : List Line) (s : State), Reached toomany s (lines.foldl (enterLine w) s) := by
    intro lines
    induction lines with
    | nil => exact Reached.refl
    | cons line lines ih => exact fun s => (enterLine_reached w s line).trans (ih _)
  rcases file with _ | lines
  · exact Reached.refl s
  · exact (h lines s).trans (Reached.step .purge trivial _)

theorem config_reached (files : List (Option (List Line))) (s : State) :
    Reached toomany s (config w files s) := by
  have h : ∀ (files : List (Option (List Line))) (s : State),
      Reached toomany s (files.foldl (nextconfig w) s) := by
    intro files
    induction files with
    | nil => exact Reached.refl
    | cons file files ih => exact fun s => (nextconfig_reached w s file).trans (ih _)
  have hfix : ∀ s, Reached toomany s (fixTcpmux w s) := by
    intro s
    rw [fixTcpmux]
    split
    · exact expandEnter_reached w rfl s
    · exact Reached.refl s
  have huncheck : Reached toomany s (uncheck s) := Reached.step .uncheck trivial s
  exact huncheck.trans ((h files (uncheck s)).trans (hfix _))

/-- **A configuration is a run of the events that configure**, and keeps what these keep. -/
theorem config_run (files : List (Option (List Line))) (s : State) :
    (∃ events, (∀ e ∈ events, Configures e) ∧ config w files s = run (step toomany) s events) ∧
      ∀ I : State → Prop, (∀ s e, Configures e → I s → I (Sockets.step toomany s e)) → I s →
        I (config w files s) := by
  have hreached : Reached toomany s (config w files s) := config_reached w files s
  refine ⟨hreached, fun I hstep hs => ?_⟩
  obtain ⟨events, he, hrun⟩ := hreached
  rw [hrun]
  exact run_inv (fun s e hs he => hstep s e he hs) hs ((allowed_const_iff s events).2 he)

end

end Inetutils.Inetd.Sockets
