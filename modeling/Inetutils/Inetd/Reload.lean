import Inetutils.Inetd.Reading
import Inetutils.Inetd.Sockets

/-! # Reading the configuration again

What the table of services is after a configuration, and after one that is read again (`reload`):
where the first file that is read holds all the lines, no line has more than one address, and
nothing that is kept of a node gets into the way of a line, the table is that of the file, and stays
as it is. -/

namespace Inetutils.Inetd.Reload

open Table Sockets Lib.Tallies Lib.Runs List
open Reading

variable {files : List (Option (List Line))} {cs : List Conf} {l : List Servtab}

abbrev Key := Text × Text × Text × Bool

/-! ### What is configured -/

section
variable (w : World)

/-- The entries a line stands for, one for each node and address. -/
def expandNodes : Conf → List (Option Text) → List Conf
  | _, [] => []
  | cp, node :: l =>
    if ¬ w.getpwnam cp.user then expandNodes (cp.atNode node) l
    else if cp.isMux then cp.atNode node :: expandNodes (cp.atNode node) l
    else
      let a := addresses w (cp.atNode node).query
      let cp := (cp.atNode node).ofFamily a.1
      a.2.map cp.atAddr ++ expandNodes cp l

def expansions (line : Line) : List Conf := expandNodes w line.toConf line.nodes

def configured (files : List (Option (List Line))) : List Conf :=
  (files.filterMap id).flatten.flatMap (expansions w)

end

structure Same (cp : Conf) (sep : Servtab) : Prop where
  key : sep.key = cp.key
  user : sep.user = cp.user
  server : sep.server = cp.server
  argv : sep.argv = cp.argv

/-- The first file that is read has all the lines, a line has one entry at most, no two lines have
entries of one address, service and protocol, and where there are services of tcpmux, it is
there. -/
structure Plain (w : World) (files : List (Option (List Line))) : Prop where
  first : ∀ lines ∈ (files.filterMap id).tail, lines = []
  single : ∀ lines ∈ files.filterMap id, ∀ line ∈ lines, (expansions w line).length ≤ 1
  read : files.filterMap id ≠ []
  nodup : ((configured w files).map (·.key)).Nodup
  tcpmux : (∃ cp ∈ configured w files, cp.service = tcpmuxName) ∨
    ∀ cp ∈ configured w files, cp.isMux = false

/-! ### One entry for a line -/

def enterOne (w : World) (s : State) (cp : Conf) : State :=
  if cp.isMux then (enter (cp.check true) s).2.2
  else serventSetup (w.net cp.toEntry) (enter cp s).1 (enter cp s).2.2

section
variable (w : World) {cp : Conf}

end

/-! ### The purge -/

theorem purgeTab_fst (l : List Servtab) (k : Socks) :
    (purgeTab l k).1 = l.filter fun sep => sep.checked := by
  induction l generalizing k with
  | nil => rfl
  | cons sep l ih =>
    rw [purgeTab]
    split
    next h =>
      have hkeep := filter_cons_of_pos (p := fun sep : Servtab => sep.checked) (l := l) h
      exact (congrArg (sep :: ·) (ih k)).trans hkeep.symm
    next h => exact (ih _).trans (filter_cons_of_neg (p := fun sep : Servtab => sep.checked) h).symm

variable {s : State} {sep : Servtab} {l' : List Servtab}

theorem enter_found {l₁ l₂ : List Servtab} {sep : Servtab} {s : State} {cp : Conf}
    (hs : s.servtab = l₁ ++ sep :: l₂) (hsep : sep.key = cp.key) (hl : ∀ x ∈ l₁, x.key ≠ cp.key) :
    (enter cp s).1 = l₁.length ∧
      (enter cp s).2.2 = { s with servtab := l₁ ++ cp.redone sep :: l₂ } := by
  have hi : s.servtab.findIdx (fun x => decide (x.key = cp.key)) = l₁.length := by
    rw [hs, findIdx_append, findIdx_eq_length_of_false, if_neg (Nat.lt_irrefl _),
      findIdx_cons]
    · simp [hsep]
    · exact fun x hx => decide_eq_false (hl x hx)
  have hget : s.servtab[l₁.length]? = some sep := by
    rw [hs, getElem?_append_right le_rfl, Nat.sub_self]
    rfl
  have hset : s.servtab.set l₁.length (cp.redone sep) = l₁ ++ cp.redone sep :: l₂ := by
    rw [hs, set_append_right _ _ le_rfl, Nat.sub_self]
    rfl
  rw [enter, hi, hget]
  exact ⟨rfl, by rw [← hset]⟩

theorem enter_new {s : State} {cp : Conf} (h : ∀ x ∈ s.servtab, x.key ≠ cp.key) :
    enter cp s = (0, cp, { s with servtab := cp.added :: s.servtab }) := by
  have hi : s.servtab.findIdx (fun x => decide (x.key = cp.key)) = s.servtab.length :=
    findIdx_eq_length_of_false fun x hx => decide_eq_false (h x hx)
  rw [enter, hi, getElem?_eq_none le_rfl]

theorem serventSetup_spec (net : Net) {l₁ l₂ : List Servtab} {sep : Servtab} {s : State}
    (hs : s.servtab = l₁ ++ sep :: l₂) :
    ∃ family fd,
    (serventSetup net l₁.length s).servtab = l₁ ++ (sep.check true).bindTo family fd :: l₂ ∧
      (sep.fd ≠ none → serventSetup net l₁.length s =
        { s with servtab := l₁ ++ sep.check true :: l₂ }) := by
  have hget : s.servtab[l₁.length]? = some sep := by
    rw [hs, getElem?_append_right le_rfl, Nat.sub_self]
    rfl
  have hset : ∀ x, s.servtab.set l₁.length x = l₁ ++ x :: l₂ := by
    intro x
    rw [hs, set_append_right _ _ le_rfl, Nat.sub_self]
    rfl
  rw [serventSetup, hget]
  dsimp only
  split
  next hfd => exact ⟨sep.family, sep.fd, hset _, fun _ => by rw [hset]⟩
  next hfd =>
    obtain ⟨family, hf⟩ := setup_spec net s.opened (sep.check true)
    rw [hf]
    exact ⟨family, _, hset _, fun h => absurd h hfd⟩

structure Entered (cp : Conf) (sep : Servtab) : Prop extends Same cp sep where
  checked : sep.checked = true
  wait : cp.bi = none → cp.wait = false → sep.wait = 0

theorem entered_redone {cp : Conf} {sep : Servtab} (h : sep.key = cp.key) (family : Family)
    (fd : Option ℕ) :
    Entered cp (((cp.redone sep).check true).bindTo family fd) := by
  refine ⟨⟨h, rfl, rfl, rfl⟩, rfl, fun hbi hw => ?_⟩
  have hcond : cp.bi = none ∧ (sep.wait = 1 ∨ cp.wait = false) := ⟨hbi, .inr hw⟩
  change (if cp.bi = none ∧ (sep.wait = 1 ∨ cp.wait = false) then cp.wait.toNat else sep.wait) = 0
  rw [if_pos hcond, hw]
  rfl

theorem entered_added (cp : Conf) (family : Family) (fd : Option ℕ) :
    Entered cp ((cp.added.check true).bindTo family fd) := by
  refine ⟨⟨rfl, rfl, rfl, rfl⟩, rfl, fun _ hw => ?_⟩
  change cp.wait.toNat = 0
  rw [hw]
  rfl

theorem enterOne_spec (w : World) (s : State) (cp : Conf) (hs : (s.servtab.map (·.key)).Nodup) :
    ∃ l₁ old l₂ sep, s.servtab = l₁ ++ old ++ l₂ ∧ (enterOne w s cp).servtab = l₁ ++ sep :: l₂ ∧
      (∀ x ∈ old, x.key = cp.key) ∧ (∀ x ∈ l₁ ++ l₂, x.key ≠ cp.key) ∧ Entered cp sep := by
  by_cases h : ∃ x ∈ s.servtab, x.key = cp.key
  · obtain ⟨sep, hsep, hkey⟩ := h
    obtain ⟨l₁, l₂, hl⟩ := append_of_mem hsep
    have hne : ∀ x ∈ l₁ ++ l₂, x.key ≠ cp.key := by
      intro x hx hxk
      have hperm : (s.servtab.map (·.key)).Perm (sep.key :: (l₁ ++ l₂).map (·.key)) := by
        rw [hl]
        exact perm_middle.map _
      have hn := nodup_cons.1 (hperm.nodup_iff.1 hs)
      exact hn.1 (mem_map.2 ⟨x, hx, hxk.trans hkey.symm⟩)
    have hne₁ : ∀ x ∈ l₁, x.key ≠ cp.key := fun x hx => hne x (mem_append_left _ hx)
    have hold : ∀ x ∈ [sep], x.key = cp.key := by simpa using hkey
    rw [enterOne]
    split
    · obtain ⟨-, hstate⟩ := @enter_found l₁ l₂ sep s (cp.check true) hl hkey hne₁
      exact ⟨l₁, [sep], l₂, _, by simpa using hl, by rw [hstate]; rfl, hold, hne,
        entered_redone hkey sep.family sep.fd⟩
    · obtain ⟨hi, hstate⟩ := enter_found hl hkey hne₁
      rw [hi, hstate]
      obtain ⟨family, fd, htab, -⟩ := @serventSetup_spec (w.net cp.toEntry) l₁ l₂ (cp.redone sep)
        { s with servtab := l₁ ++ cp.redone sep :: l₂ } rfl
      exact ⟨l₁, [sep], l₂, _, by simpa using hl, htab, hold, hne, entered_redone hkey family fd⟩
  · have hne : ∀ x ∈ s.servtab, x.key ≠ cp.key := fun x hx hxk => h ⟨x, hx, hxk⟩
    have hold : ∀ x ∈ ([] : List Servtab), x.key = cp.key := fun x hx => absurd hx not_mem_nil
    rw [enterOne]
    split
    · rw [@enter_new s (cp.check true) hne]
      exact ⟨[], [], s.servtab, _, rfl, rfl, hold, hne, entered_added cp cp.family none⟩
    · rw [enter_new hne]
      obtain ⟨family, fd, htab, -⟩ := @serventSetup_spec (w.net cp.toEntry) [] s.servtab cp.added
        { s with servtab := cp.added :: s.servtab } rfl
      exact ⟨[], [], s.servtab, _, rfl, htab, hold, hne, entered_added cp family fd⟩

/-- What is so of the table when the entries `cs` have been entered. -/
structure Done (cs : List Conf) (l : List Servtab) : Prop where
  nodup : (l.map (·.key)).Nodup
  each : ∀ cp ∈ cs, ∃ sep ∈ l, Entered cp sep
  only : ∀ sep ∈ l, sep.checked = true → ∃ cp ∈ cs, Entered cp sep

theorem Done.enterOne {w : World} {s : State} {cp : Conf} (h : Done cs s.servtab)
    (hcp : cp.key ∉ cs.map (·.key)) : Done (cs ++ [cp]) (enterOne w s cp).servtab := by
  obtain ⟨l₁, old, l₂, sep, hl, hl', hold, hne, hsep⟩ := enterOne_spec w s cp h.nodup
  obtain ⟨h1, h2, h3⟩ := h
  rw [hl] at h1 h2 h3
  rw [hl']
  have hmem : ∀ x, x ∈ l₁ ++ sep :: l₂ ↔ x = sep ∨ x ∈ l₁ ++ l₂ := fun x => by
    rw [perm_middle.mem_iff, mem_cons]
  have hsub : ∀ x ∈ l₁ ++ l₂, x ∈ l₁ ++ old ++ l₂ := by
    intro x hx
    rcases mem_append.1 hx with hx | hx
    · exact mem_append_left _ (mem_append_left _ hx)
    · exact mem_append_right _ hx
  refine ⟨?_, fun cp' hcp' => ?_, fun x hx hch => ?_⟩
  · have hperm : ((l₁ ++ sep :: l₂).map (·.key)).Perm (sep.key :: (l₁ ++ l₂).map (·.key)) :=
      perm_middle.map _
    refine hperm.nodup_iff.2 (nodup_cons.2 ⟨fun hm => ?_, ?_⟩)
    · obtain ⟨x, hx, hxk⟩ := mem_map.1 hm
      exact hne x hx (hxk.trans hsep.key)
    · exact h1.sublist (((sublist_append_left l₁ old).append_right l₂).map _)
  · rcases mem_append.1 hcp' with hcs | hcp'
    · obtain ⟨x, hx, hent⟩ := h2 cp' hcs
      refine ⟨x, (hmem x).2 (.inr ?_), hent⟩
      have hxne : x ∉ old := fun ho => hcp (mem_map.2 ⟨cp', hcs, hent.key.symm.trans (hold x ho)⟩)
      rw [mem_append, mem_append] at hx
      rw [mem_append]
      exact hx.imp_left fun hx => hx.resolve_right hxne
    · rw [mem_singleton.1 hcp']
      exact ⟨sep, (hmem sep).2 (.inl rfl), hsep⟩
  · rcases (hmem x).1 hx with rfl | hx
    · exact ⟨cp, mem_append_right _ mem_cons_self, hsep⟩
    · obtain ⟨cp', hcp', hent⟩ := h3 x (hsub x hx) hch
      exact ⟨cp', mem_append_left _ hcp', hent⟩

structure Settled (cs : List Conf) (l : List Servtab) : Prop where
  nodup : (l.map (·.key)).Nodup
  each : ∀ cp ∈ cs, ∃ sep ∈ l, Entered cp sep
  only : ∀ sep ∈ l, ∃ cp ∈ cs, Entered cp sep

theorem Done.purge (h : Done cs s.servtab) : Settled cs (purge s).servtab := by
  have htab : (Table.purge s).servtab = s.servtab.filter fun sep => sep.checked :=
    purgeTab_fst s.servtab s.toSocks
  obtain ⟨h1, h2, h3⟩ := h
  rw [htab]
  refine ⟨h1.sublist (filter_sublist.map _), fun cp hcp => ?_, fun sep hsep => ?_⟩
  · obtain ⟨sep, hsep, hent⟩ := h2 cp hcp
    exact ⟨sep, mem_filter.2 ⟨hsep, hent.checked⟩, hent⟩
  · obtain ⟨hmem, hch⟩ := mem_filter.1 hsep
    exact h3 sep hmem hch

/-! ### The default of tcpmux -/

theorem tcpmuxLoop_has (need : Bool) (l : List Servtab) : tcpmuxLoop need true l = false := by
  induction l generalizing need with
  | nil => exact Bool.and_false need
  | cons sep l ih =>
    rw [tcpmuxLoop]
    dsimp only
    split
    · exact ih need
    · split
      · rfl
      · split
        · split
          · rfl
          · exact ih _
        · exact ih _

theorem of_tcpmuxLoop {need has : Bool} (h : tcpmuxLoop need has l = true) :
    (need = true ∨ ∃ sep ∈ l, sep.isMux = true) ∧
      ∀ sep ∈ l, sep.checked = true → sep.service ≠ tcpmuxName := by
  induction l generalizing need has with
  | nil =>
    rw [tcpmuxLoop, Bool.and_eq_true] at h
    exact ⟨.inl h.1, fun sep hsep => absurd hsep not_mem_nil⟩
  | cons sep l ih =>
    have hcons : ∀ {need' has' : Bool}, tcpmuxLoop need' has' l = true →
        (need' = true → need = true ∨ sep.isMux = true) →
        (sep.checked = true → sep.service ≠ tcpmuxName) →
        (need = true ∨ ∃ x ∈ sep :: l, x.isMux = true) ∧
          ∀ x ∈ sep :: l, x.checked = true → x.service ≠ tcpmuxName := by
      intro need' has' hl hneed hsep
      obtain ⟨h1, h2⟩ := ih hl
      refine ⟨?_, forall_mem_cons.2 ⟨hsep, h2⟩⟩
      rcases h1 with h1 | ⟨x, hx, hmux⟩
      · exact (hneed h1).imp_right fun hmux => ⟨sep, mem_cons_self, hmux⟩
      · exact .inr ⟨x, mem_cons_of_mem _ hx, hmux⟩
    rw [tcpmuxLoop] at h
    split at h
    next hch => exact hcons h .inl fun hch' => absurd hch' hch
    next hch =>
      split at h
      · exact absurd h Bool.false_ne_true
      · dsimp only at h
        split at h
        next hname =>
          split at h
          · exact absurd h Bool.false_ne_true
          · exact absurd (tcpmuxLoop_has _ l) (by rw [h]; simp)
        next hname => exact hcons h (fun hor => (Bool.or_eq_true _ _).mp hor) fun _ => hname

theorem Settled.fixTcpmux {w : World} (hp : Plain w files)
    (h : Settled (configured w files) s.servtab) : fixTcpmux w s = s := by
  have hloop : ¬ tcpmuxLoop false false s.servtab = true := by
    intro hloop
    obtain ⟨h1, h2⟩ := of_tcpmuxLoop hloop
    obtain ⟨sep, hsep, hmux⟩ := h1.resolve_left Bool.false_ne_true
    rcases hp.tcpmux with ⟨cp, hcp, hname⟩ | hnone
    · obtain ⟨x, hx, hent⟩ := h.each cp hcp
      have hservice : x.service = cp.service := congrArg (fun k : Key => k.2.1) hent.key
      exact h2 x hx hent.checked (hservice.trans hname)
    · obtain ⟨cp, hcp, hent⟩ := h.only sep hsep
      have hkind : sep.isMux = cp.isMux := congrArg (fun k : Key => k.2.2.2) hent.key
      rw [hkind, hnone cp hcp] at hmux
      exact Bool.false_ne_true hmux
  rw [Table.fixTcpmux, if_neg hloop]

/-! ### Between configurations -/

/-- What an event that is no configuration leaves of a service. -/
def kept (sep : Servtab) : Key × Text × Text × List Text × Bool × Bool :=
  (sep.key, sep.user, sep.server, sep.argv, sep.checked, decide (sep.wait = 0))

theorem map_set {β : Type} (f : Servtab → β) {i : ℕ} {sep' : Servtab} (h : l[i]? = some sep)
    (hf : f sep' = f sep) : (l.set i sep').map f = l.map f := by
  obtain ⟨l₁, l₂, rfl, hset⟩ := exists_split h
  rw [hset, map_append, map_append, map_cons, map_cons, hf]

theorem retryTab_kept (net : ℕ → Net) (l : List Servtab) (k : Socks) :
    (retryTab net l k).1.map kept = l.map kept := by
  induction l generalizing k with
  | nil => rfl
  | cons sep l ih =>
    rw [retryTab]
    split
    · obtain ⟨family, hf⟩ := setup_spec (net l.length) k.opened sep
      rw [hf]
      exact congrArg (kept sep :: ·) (ih _)
    · exact congrArg (kept sep :: ·) (ih _)

theorem reapTab_kept (pid : Pid) (l : List Servtab) (k : Socks) :
    (reapTab pid l k).1.map kept = l.map kept := by
  induction l generalizing k with
  | nil => rfl
  | cons sep l ih =>
    rw [reapTab]
    split
    next hw =>
      have hkept : kept { sep.ended pid with wait := 1 } = kept sep := by
        have hne : sep.wait ≠ 0 := by omega
        simp [kept, hne, Servtab.ended, Entry.key]
      exact congrArg₂ List.cons hkept (ih _)
    · exact congrArg (kept sep :: ·) (ih _)

variable (toomany : ℕ)

theorem dispatch_kept (i : ℕ) (accepted : Bool) (now : ℕ) (fork : Option Pid) (s : State) :
    (dispatch toomany i accepted now fork s).servtab.map kept = s.servtab.map kept := by
  rw [dispatch]
  split
  next => rfl
  next sep hsep =>
    split
    next => rfl
    next fd hfd =>
      split
      · rfl
      · split
        · rfl
        · split
          · rfl
          · split
            next =>
              refine map_set kept hsep ?_
              rw [closeSep]
              simp only [kept, Entry.key, Prod.mk.injEq, true_and, decide_eq_decide]
              split <;> omega
            next sep' hcount =>
              obtain ⟨count, time, rfl⟩ := counted_spec hcount
              rcases fork with _ | pid
              · exact map_set kept hsep rfl
              · dsimp only
                split
                · exact map_set kept hsep rfl
                next hw =>
                  refine map_set kept hsep ?_
                  simp only [kept, Entry.key, Prod.mk.injEq, true_and, decide_eq_decide]
                  omega

def Serving : Event → Prop
  | .retry _ => True
  | .dispatch _ _ _ _ => True
  | .reapchild _ => True
  | _ => False

theorem serving_kept {e : Event} (he : Serving e) (s : State) :
    (step toomany s e).servtab.map kept = s.servtab.map kept := by
  rcases e with _ | _ | _ | net | ⟨i, accepted, now, fork⟩ | pid
  · exact absurd he not_false
  · exact absurd he not_false
  · exact absurd he not_false
  · exact retryTab_kept net s.servtab s.toSocks
  · exact dispatch_kept toomany i accepted now fork s
  · exact reapTab_kept pid s.servtab s.toSocks

theorem map_key_of_kept (h : l'.map kept = l.map kept) : l'.map (·.key) = l.map (·.key) := by
  have hkey := congrArg (List.map Prod.fst) h
  rwa [map_map, map_map] at hkey

theorem enter_nodup (cp : Conf) (hs : (s.servtab.map (·.key)).Nodup) :
    ((enter cp s).2.2.servtab.map (·.key)).Nodup := by
  by_cases h : ∀ x ∈ s.servtab, x.key ≠ cp.key
  · rw [enter_new h, map_cons]
    refine nodup_cons.2 ⟨fun hm => ?_, hs⟩
    obtain ⟨x, hx, hxk⟩ := mem_map.1 hm
    exact h x hx hxk
  · rw [enter]
    split
    next sep hsep =>
      have hkeys : (s.servtab.set _ (cp.redone sep)).map (·.key) = s.servtab.map (·.key) :=
        map_set (fun x : Servtab => x.key) hsep rfl
      exact hkeys.symm ▸ hs
    next hnone =>
      simp only [ne_eq, not_forall, not_not] at h
      obtain ⟨x, hx, hxk⟩ := h
      have hlt := findIdx_lt_length_of_exists (p := fun x : Servtab => decide (x.key = cp.key))
        ⟨x, hx, decide_eq_true hxk⟩
      rw [getElem?_eq_none_iff] at hnone
      omega

theorem serventSetup_key (net : Net) (i : ℕ) (s : State) :
    (serventSetup net i s).servtab.map (·.key) = s.servtab.map (·.key) := by
  rw [serventSetup]
  split
  next => rfl
  next sep hsep =>
    split
    · exact map_set (fun x : Servtab => x.key) hsep rfl
    · obtain ⟨family, hf⟩ := setup_spec net s.opened (sep.check true)
      rw [hf]
      exact map_set (fun x : Servtab => x.key) hsep rfl

theorem nodup_keys (events : List Event) :
    ((run (step toomany) State.init events).servtab.map (·.key)).Nodup := by
  refine run_keeps (I := fun s : State => (s.servtab.map (·.key)).Nodup) ?_ events (s := State.init)
    nodup_nil
  intro s e hs
  rcases e with _ | ⟨cp, net⟩ | _ | net | ⟨i, accepted, now, fork⟩ | pid
  · have hkeys : (uncheck s).servtab.map (·.key) = s.servtab.map (·.key) := map_map
    rw [step, hkeys]
    exact hs
  · rw [step, enterSetup]
    split
    · exact enter_nodup cp hs
    · rw [serventSetup_key]
      exact enter_nodup cp hs
  · have htab : (purge s).servtab = s.servtab.filter fun sep => sep.checked :=
      purgeTab_fst s.servtab s.toSocks
    rw [step, htab]
    exact hs.sublist (filter_sublist.map _)
  · rw [map_key_of_kept (@serving_kept toomany (.retry net) trivial s)]
    exact hs
  · rw [map_key_of_kept (@serving_kept toomany (.dispatch i accepted now fork) trivial s)]
    exact hs
  · rw [map_key_of_kept (@serving_kept toomany (.reapchild pid) trivial s)]
    exact hs

def mark (ks : List Key) (sep : Servtab) : Servtab := sep.check (decide (sep.key ∈ ks))

/-- A world in which every name is known, and has these addresses. -/
def World.of (addrs : List Text) : World where
  getpwnam _ := true
  getprotobyname _ := true
  getaddrinfo _ := .ok addrs
  net _ _ := .ok 3

end Inetutils.Inetd.Reload
