import Inetutils.Ftpd.Commands

/-! # One reply to each line

A client waits for one final reply to a command. The lines that ftpd sends for a line come from the
reductions within it, from `yyerror` and from the command; this is about when there is one final
reply among them, and at the end. -/

namespace Inetutils.Ftpd.Replies

open List hiding lex
open Scanner Ftpd.Parser Commands
open Dataconn (Text upper)

variable {more : Bool} {out : List Out} {w : World}

/-! ### Final replies -/

def asksMore : Stop → Bool
  | .action (.user _) | .action (.rnfr _) | .action (.rest _) => true
  | _ => false

/-- A reply of 2xx, 4xx or 5xx, or of 3xx for some commands. -/
def Final (more : Bool) : Out → Prop
  | .reply code _ => 200 ≤ code ∧ code < 300 ∨ 400 ≤ code ∧ code < 600 ∨
    more = true ∧ 300 ≤ code ∧ code < 400
  | _ => False

def Preliminary : Out → Prop
  | .reply code _ => 100 ≤ code ∧ code < 200
  | _ => True

/-- One final reply, and nothing in front of it but preliminary ones and the lines of its own
block. -/
def OneReply (more : Bool) (out : List Out) : Prop :=
  ∃ pre last, out = pre ++ [last] ∧ Final more last ∧ ∀ o ∈ pre, Preliminary o

variable {o : Out} {code : ℕ} {f : String} {s : Text}

theorem Final.not_preliminary (h : Final more o) : ¬ Preliminary o := by
  rcases o with ⟨code, f⟩ | ⟨code, f⟩ | f
  · unfold Preliminary
    rcases h with h | h | h <;> omega
  · exact absurd h id
  · exact absurd h id

theorem not_one_nil (more : Bool) : ¬ OneReply more [] := by
  rintro ⟨pre, last, h, -⟩
  exact append_ne_nil_of_right_ne_nil _ (cons_ne_nil _ _) h.symm

theorem one_singleton (h : Final more o) : OneReply more [o] :=
  ⟨[], o, rfl, h, fun _ ho => absurd ho not_mem_nil⟩

theorem one_reply (h : 200 ≤ code ∧ code < 300 ∨ 400 ≤ code ∧ code < 600) :
    OneReply more [.reply code f] :=
  one_singleton (or_assoc.1 (.inl h))

theorem one_cons (ho : Preliminary o) : OneReply more (o :: out) ↔ OneReply more out := by
  constructor
  · rintro ⟨pre, last, h, hlast, hpre⟩
    rcases pre with - | ⟨p, pre⟩
    · obtain ⟨rfl, -⟩ := List.cons.inj h
      exact absurd ho hlast.not_preliminary
    · obtain ⟨-, rfl⟩ := List.cons.inj h
      exact ⟨pre, last, rfl, hlast, fun x hx => hpre x (mem_cons_of_mem _ hx)⟩
  · rintro ⟨pre, last, rfl, hlast, hpre⟩
    refine ⟨o :: pre, last, rfl, hlast, fun x hx => ?_⟩
    rcases mem_cons.1 hx with rfl | hx
    · exact ho
    · exact hpre x hx

theorem one_lreply : OneReply more (.lreply code f :: out) ↔ OneReply more out :=
  one_cons (show Preliminary (.lreply code f) from trivial)

theorem one_append {pre : List Out} (hpre : ∀ o ∈ pre, Preliminary o) :
    OneReply more (pre ++ out) ↔ OneReply more out := by
  induction pre with
  | nil => exact Iff.rfl
  | cons o pre ih =>
    rw [cons_append, one_cons (hpre o mem_cons_self)]
    exact ih fun x hx => hpre x (mem_cons_of_mem _ hx)

theorem one_final_cons (ho : Final more o) : OneReply more (o :: out) ↔ out = [] := by
  constructor
  · rintro ⟨pre, last, h, hlast, hpre⟩
    rcases pre with - | ⟨p, pre⟩
    · exact (List.cons.inj h).2
    · obtain ⟨rfl, -⟩ := List.cons.inj h
      exact absurd (hpre o mem_cons_self) ho.not_preliminary
  · rintro rfl
    exact one_singleton ho

/-! ### What is reduced within a line -/

def Quiet (w : World) : Reduction → Prop
  | .checkLogin => w.loggedIn = true
  | .hostPort h => w.getaddrinfo h = true
  | .pathname s => (w.pathname s).isSome = true

theorem reduction_cases (w : World) (r : Reduction) :
    Quiet w r ∧ reduction w r = [] ∨ ¬ Quiet w r ∧ ∃ o, reduction w r = [o] ∧ ∀ more,
    Final more o := by
  have hfive : ∀ f more, Final more (.reply 530 f) ∧ Final more (.reply 550 f) := fun f more =>
    ⟨.inr (.inl (by decide)), .inr (.inl (by decide))⟩
  rcases r with - | h | s
  · by_cases hq : w.loggedIn = true
    · exact .inl ⟨hq, if_pos hq⟩
    · exact .inr ⟨hq, _, if_neg hq, fun more => (hfive _ more).1⟩
  · by_cases hq : w.getaddrinfo h = true
    · exact .inl ⟨hq, if_pos hq⟩
    · exact .inr ⟨hq, _, if_neg hq, fun more => (hfive _ more).2⟩
  · by_cases hq : (w.pathname s).isSome = true
    · exact .inl ⟨hq, if_pos hq⟩
    · exact .inr ⟨hq, _, if_neg hq, fun more => (hfive _ more).2⟩

theorem reductions_quiet {rs : List Reduction} (h : ∀ r ∈ rs, Quiet w r) :
    rs.flatMap (reduction w) = [] := by
  rw [flatMap_eq_nil_iff]
  intro r hr
  rcases reduction_cases w r with ⟨-, hnil⟩ | ⟨hq, -⟩
  · exact hnil
  · exact absurd (h r hr) hq

theorem one_reductions_iff (ho : Final more o) (rs : List Reduction) :
    OneReply more (rs.flatMap (reduction w) ++ [o]) ↔ ∀ r ∈ rs, Quiet w r := by
  constructor
  · intro h
    by_contra hq
    have hne : rs.flatMap (reduction w) ≠ [] := by
      intro hnil
      refine hq fun r hr => ?_
      rcases reduction_cases w r with ⟨hq, -⟩ | ⟨-, o, hone, -⟩
      · exact hq
      · rw [flatMap_eq_nil_iff.1 hnil r hr] at hone
        cases hone
    obtain ⟨x, l, hxl⟩ := exists_cons_of_ne_nil hne
    have hx : Final more x := by
      have hmem : x ∈ rs.flatMap (reduction w) := by
        rw [hxl]
        exact mem_cons_self
      obtain ⟨r, -, hr⟩ := mem_flatMap.1 hmem
      rcases reduction_cases w r with ⟨-, hnil⟩ | ⟨-, y, hone, hy⟩
      · rw [hnil] at hr
        exact absurd hr not_mem_nil
      · rw [hone, mem_singleton] at hr
        rw [hr]
        exact hy more
    rw [hxl, cons_append, one_final_cons hx] at h
    exact append_ne_nil_of_right_ne_nil _ (cons_ne_nil _ _) h
  · intro hq
    rw [reductions_quiet hq, nil_append]
    exact one_singleton ho

theorem one_logged :
    OneReply more (reduction w .checkLogin ++ w.logged out) ↔
    (w.loggedIn = true → OneReply more out) := by
  unfold reduction World.logged
  by_cases hl : w.loggedIn = true
  · rw [if_pos hl, if_pos hl, nil_append]
    exact ⟨fun h _ => h, fun h => h hl⟩
  · rw [if_neg hl, if_neg hl, append_nil]
    exact iff_of_true (one_reply (by decide)) fun h => absurd h hl

theorem one_onPath {out : Text → List Out} :
    OneReply more ([Reduction.checkLogin, .pathname s].flatMap (reduction w) ++ w.onPath s out) ↔
      (w.loggedIn = true → ∀ path, w.pathname s = some path → OneReply more (out path)) := by
  have hflat : [Reduction.checkLogin, .pathname s].flatMap (reduction w) =
      reduction w .checkLogin ++ reduction w (.pathname s) := by
    rw [flatMap_cons, flatMap_singleton]
  rw [hflat]
  by_cases hl : w.loggedIn = true
  · have hlogin : reduction w .checkLogin = [] := if_pos hl
    unfold World.onPath World.logged
    rw [hlogin, if_pos hl, nil_append]
    rcases hpath : w.pathname s with - | path
    · have hnot : reduction w (.pathname s) = [.reply 550 "not found"] :=
        if_neg (by rw [hpath]; exact Bool.false_ne_true)
      rw [hnot, append_nil]
      exact iff_of_true (one_reply (by decide)) fun _ path h => by cases h
    · have hfound : reduction w (.pathname s) = [] := if_pos (by rw [hpath]; rfl)
      rw [hfound, nil_append]
      exact ⟨fun h _ path' heq => Option.some.inj heq ▸ h, fun h => h hl path rfl⟩
  · have hlogin : reduction w .checkLogin = [.reply 530 "Please login with USER and PASS."] :=
      if_neg hl
    have hpath : reduction w (.pathname s) = [] := by
      refine if_pos ?_
      unfold World.pathname
      rw [if_neg fun h => hl h.1]
      rfl
    unfold World.onPath World.logged
    rw [hlogin, hpath, if_neg hl]
    exact iff_of_true (one_reply (by decide)) fun h => absurd h hl

/-! ### The routines -/

theorem one_ite {c : Prop} [Decidable c] {x y : List Out} (hx : OneReply more x)
    (hy : OneReply more y) :
    OneReply more (if c then x else y) := by
  split
  · exact hx
  · exact hy

theorem one_ite_singleton {c : Prop} [Decidable c] {x y : Out} (hx : Final more x)
    (hy : Final more y) :
    OneReply more [if c then x else y] := by
  split
  · exact one_singleton hx
  · exact one_singleton hy

theorem final_reply (h : 200 ≤ code ∧ code < 300 ∨ 400 ≤ code ∧ code < 600) :
    Final more (.reply code f) :=
  or_assoc.1 (.inl h)

theorem one_completeLogin (more : Bool) (l : Login) : OneReply more (completeLogin l) := by
  refine one_ite (one_reply (by decide))
    (one_ite (one_reply (by decide)) (one_ite (one_reply (by decide))
    (one_ite (one_reply (by decide)) ?_)))
  have htail : OneReply more (if ¬ l.seteuid then [.reply 550 "Can't set uid."]
      else l.loginMessage.map (.lreply 230) ++
        [.reply 230 (if l.guest then "Guest login ok, access restrictions apply."
          else "User %s logged in.")]) := by
    refine one_ite (one_reply (by decide)) ((one_append fun o ho => ?_).2 (one_reply (by decide)))
    obtain ⟨f, -, rfl⟩ := mem_map.1 ho
    trivial
  split
  · exact one_lreply.2 htail
  · exact htail

theorem one_user (loggedIn : Bool) (l : Login) : OneReply true (user loggedIn l) :=
  one_ite (one_reply (by decide)) (one_ite (one_reply (by decide)) (one_ite (one_reply (by decide))
    (one_singleton (.inr (.inr (by decide))))))

theorem one_pass (more loggedIn : Bool) (l : Login) : OneReply more (pass loggedIn l) :=
  one_ite (one_reply (by decide)) (one_ite (one_reply (by decide)) (one_completeLogin more l))

/-- A socket that has been accepted, or was there before, becomes a stream. -/
def Whole (c : Conn) : Prop :=
  (c.pdata = true ∧ c.accept = true ∨ c.pdata = false ∧ c.data = true) → c.fdopen = true

/-- **The data connection**: 150 or 125 has been sent where `fdopen` fails. -/
theorem one_connected_iff {c : Conn} (hout : OneReply more out) :
    OneReply more (connected c out) ↔ Whole c := by
  have hopen : ∀ (f : String) (b : Bool) (code : ℕ), 100 ≤ code ∧ code < 200 →
      (OneReply more ([.reply code f] ++ if b then out else []) ↔ b = true) := by
    intro f b code hcode
    rw [singleton_append, one_cons (show Preliminary (.reply code f) from hcode)]
    by_cases hb : b = true
    · rw [if_pos hb]
      exact iff_of_true hout hb
    · rw [if_neg hb]
      exact iff_of_false (not_one_nil more) hb
  have hrefused : ∀ f : String, OneReply more ([.reply 425 f] ++ if false then out else []) :=
    fun f =>
    one_reply (by decide)
  unfold connected dataconn Whole
  rcases hp : c.pdata with - | -
  · rcases hd : c.data with - | -
    · refine iff_of_true ?_ fun h => ?_
      · rcases c.getdatasock with - | -
        · exact hrefused _
        · rcases c.connect with - | -
          · exact hrefused _
          · exact (hopen _ true 150 (by decide)).2 rfl
      · rcases h with h | h
        · exact absurd h.1 Bool.false_ne_true
        · exact absurd h.2 Bool.false_ne_true
    · refine (hopen _ c.fdopen 125 (by decide)).trans ⟨fun h _ => h, fun h => h (.inr ⟨rfl, rfl⟩)⟩
  · rcases ha : c.accept with - | -
    · refine iff_of_true (hrefused _) fun h => ?_
      rcases h with h | h
      · exact absurd h.2 Bool.false_ne_true
      · exact absurd h.1.symm Bool.false_ne_true
    · exact (hopen _ c.fdopen 150 (by decide)).trans ⟨fun h _ => h, fun h => h (.inl ⟨rfl, rfl⟩)⟩

theorem final_perror (h : 400 ≤ code ∧ code < 600) : Final more (perrorReply code) :=
  .inr (.inl h)

theorem final_complete (more : Bool) : Final more complete := .inl (by decide)

theorem one_sendData (more : Bool) (type : DataType) (t : Transfer) :
    OneReply more (sendData type t) := by
  have herr : ∀ code, 400 ≤ code ∧ code < 600 → OneReply more [perrorReply code] := fun code h =>
    one_singleton (final_perror h)
  have hdone : OneReply more [complete] := one_singleton (final_complete more)
  have hmapped := one_ite (c := t.dataError = true) (herr 426 (by decide)) hdone
  have hread := one_ite (c := t.fileError = true) (herr 551 (by decide)) hmapped
  rcases type with - | - | - | -
  · exact one_ite hmapped hread
  · exact one_reply (by decide)
  · exact one_ite hmapped (one_ite (herr 451 (by decide)) hread)
  · exact one_ite hmapped (one_ite (herr 451 (by decide)) hread)

theorem one_receiveData {done : Out} (hdone : Final more done) (type : DataType) (t : Transfer) :
    OneReply more ((receiveData type t).1 ++ if (receiveData type t).2 then [done] else []) := by
  have herr : ∀ o, Final more o → OneReply more ([o] ++ if false then [done] else []) :=
    fun o ho => one_singleton ho
  unfold receiveData
  rcases type with - | - | - | -
  · dsimp only
    split
    · exact herr _ (final_perror (by decide))
    · split
      · exact herr _ (final_perror (by decide))
      · refine (one_append fun o ho => ?_).2 (one_singleton hdone)
        split at ho
        · exact absurd ho not_mem_nil
        · rcases mem_cons.1 ho with rfl | ho
          · trivial
          · rw [mem_singleton.1 ho]
            trivial
  · exact herr _ (final_reply (by decide))
  all_goals
    dsimp only
    split
    · exact herr _ (final_perror (by decide))
    · split
      · exact herr _ (final_perror (by decide))
      · exact one_singleton hdone

theorem one_retrieve_iff {cmd : Bool} :
    OneReply more (retrieve cmd w) ↔ (retrieveOpens cmd w.files = true → Whole w.conn) := by
  unfold retrieve
  by_cases h : retrieveOpens cmd w.files = true
  · rw [if_pos h, one_connected_iff (one_sendData more w.type w.transfer)]
    exact ⟨fun hw _ => hw, fun hw => hw h⟩
  · rw [if_neg h]
    exact iff_of_true (one_ite (one_reply (by decide)) (one_singleton (final_perror (by decide))))
      fun h' => absurd h' h

/-- `store` comes to the data connection. -/
def storeOpens (unique : Bool) (f : Files) : Bool :=
  (!(unique && f.stat && !f.gunique)) && f.fopen && f.seek

theorem one_store_iff {unique : Bool} :
    OneReply more (store unique w) ↔ (storeOpens unique w.files = true → Whole w.conn) := by
  unfold store storeOpens
  by_cases hu : unique = true ∧ w.files.stat = true ∧ ¬ w.files.gunique = true
  · rw [if_pos hu]
    refine iff_of_true
      (one_ite (one_reply (by decide)) (one_singleton (final_perror (by decide)))) fun h => ?_
    simp [hu.1, hu.2.1, hu.2.2] at h
  · rw [if_neg hu]
    have hname : (!(unique && w.files.stat && !w.files.gunique)) = true := by
      rw [Bool.not_eq_true', Bool.eq_false_iff]
      intro h
      rw [Bool.and_eq_true, Bool.and_eq_true, Bool.not_eq_true'] at h
      exact hu ⟨h.1.1, h.1.2, by rw [h.2]; exact Bool.false_ne_true⟩
    rw [hname]
    unfold storeFile
    by_cases hf : w.files.fopen = true
    · by_cases hs : w.files.seek = true
      · rw [if_neg (not_not.2 hf), if_neg (not_not.2 hs),
          one_connected_iff (one_receiveData ?_ _ _), hf, hs]
        · exact ⟨fun h _ => h, fun h => h rfl⟩
        · split
          · exact final_reply (by decide)
          · exact final_complete more
      · rw [if_neg (not_not.2 hf), if_pos hs]
        refine iff_of_true (one_singleton (final_perror (by decide))) fun h => ?_
        rw [Bool.and_eq_true] at h
        exact absurd h.2 hs
    · rw [if_pos hf]
      refine iff_of_true (one_singleton (final_perror (by decide))) fun h => ?_
      rw [Bool.and_eq_true, Bool.and_eq_true] at h
      exact absurd h.1.2 hf

def listOpens (f : Files) : List Item → Bool
  | [] => false
  | .missing dash :: l => dash && l.isEmpty && retrieveOpens true f
  | .file :: _ => true
  | .special :: l => listOpens f l
  | .directory listed :: l => listed.any id || listOpens f l

theorem one_listFiles_open (more : Bool) (w : World) (l : List Item) :
    OneReply more (listFiles w true l) := by
  induction l with
  | nil =>
    unfold listFiles
    rw [if_neg (not_not.2 rfl)]
    exact one_ite (one_singleton (final_perror (by decide))) (one_singleton (final_complete more))
  | cons item l ih =>
    rcases item with dash | - | - | listed
    · unfold listFiles
      rw [if_neg fun h => h.2.2 rfl]
      exact one_singleton (final_perror (by decide))
    · exact ih
    · exact ih
    · unfold listFiles
      rw [if_neg fun h => h.2 rfl]
      exact ih

theorem one_listFiles_iff (l : List Item) :
    OneReply more (listFiles w false l) ↔ (listOpens w.files l = true → Whole w.conn) := by
  induction l with
  | nil => exact iff_of_true (one_reply (by decide)) nofun
  | cons item l ih =>
    rcases item with dash | - | - | listed
    · unfold listFiles listOpens
      by_cases h : dash = true ∧ l = [] ∧ ¬ (false = true)
      · rw [if_pos h, one_retrieve_iff, h.1, h.2.1]
        exact Iff.rfl
      · rw [if_neg h]
        refine iff_of_true (one_singleton (final_perror (by decide))) fun hopen => ?_
        rw [Bool.and_eq_true, Bool.and_eq_true, List.isEmpty_iff] at hopen
        exact absurd ⟨hopen.1.1, hopen.1.2, Bool.false_ne_true⟩ h
    · exact (one_connected_iff (one_listFiles_open more w l)).trans ⟨fun h _ => h, fun h => h rfl⟩
    · exact ih
    · unfold listFiles listOpens
      by_cases h : listed.any id = true
      · rw [if_pos ⟨h, Bool.false_ne_true⟩, one_connected_iff (one_listFiles_open more w l), h]
        exact ⟨fun hw _ => hw, fun hw => hw rfl⟩
      · rw [if_neg fun hand => h hand.1, ih, Bool.eq_false_iff.2 h]
        exact Iff.rfl

theorem one_sendFileList_iff :
    OneReply more (sendFileList w) ↔
      (w.files.globFiles = true → listOpens w.files w.files.items = true → Whole w.conn) := by
  unfold sendFileList
  by_cases h : w.files.globFiles = true
  · rw [if_pos h, one_listFiles_iff]
    exact ⟨fun hw _ => hw, fun hw => hw h⟩
  · rw [if_neg h]
    exact iff_of_true (one_reply (by decide)) fun h' => absurd h' h

theorem one_statfilecmd_iff {f : Files} : OneReply more (statfilecmd f) ↔ f.popen = true := by
  unfold statfilecmd
  rw [one_lreply]
  by_cases h : f.popen = true
  · rw [if_neg (not_not.2 h), one_append fun o ho => ?_]
    · exact iff_of_true (one_reply (by decide)) h
    · obtain ⟨x, -, rfl⟩ := mem_map.1 ho
      trivial
  · rw [if_pos h]
    exact iff_of_false (not_one_nil more) h

theorem one_mdtm_iff {f : Files} :
    OneReply more (mdtm f) ↔ (f.stat = true → f.isReg = true → f.gmtime = true) := by
  unfold mdtm
  by_cases hs : f.stat = true
  · rw [if_neg (not_not.2 hs)]
    by_cases hr : f.isReg = true
    · rw [if_neg (not_not.2 hr)]
      by_cases hg : f.gmtime = true
      · rw [if_neg (not_not.2 hg)]
        exact iff_of_true (one_reply (by decide)) fun _ _ => hg
      · rw [if_pos hg]
        exact iff_of_false (not_one_nil more) fun h => hg (h hs hr)
    · rw [if_pos hr]
      exact iff_of_true (one_reply (by decide)) fun _ h => absurd h hr
  · rw [if_pos hs]
    exact iff_of_true (one_reply (by decide)) fun h => absurd h hs

theorem one_statcmd (more : Bool) (w : World) : OneReply more (statcmd w) := by
  have htext : ∀ f out, OneReply more (.text f :: out) ↔ OneReply more out := fun f out =>
    one_cons (show Preliminary (.text f) from trivial)
  unfold statcmd
  rw [cons_append, one_lreply, one_append fun o ho => ?_, htext, htext, htext, htext]
  · exact one_reply (by decide)
  · split at ho
    · exact absurd ho not_mem_nil
    · rw [mem_singleton.1 ho]
      trivial

theorem one_help (more : Bool) (tabs : List Tab) (s : Option Text) :
    OneReply more (help tabs s) := by
  rcases s with - | s
  · refine one_lreply.2 ((one_append fun o ho => ?_).2 (one_reply (by decide)))
    rw [eq_of_mem_replicate ho]
    trivial
  · unfold help
    dsimp only
    split
    · exact one_reply (by decide)
    · exact one_reply (by decide)

theorem one_helpString (more : Bool) (s : Text) : OneReply more (helpString s) :=
  one_ite (one_ite (one_help more sitetab none) (one_help more sitetab _)) (one_help more cmdtab _)

theorem final_ack (more : Bool) : Final more ack := .inl (by decide)

theorem final_perror_550 (more : Bool) : Final more (perrorReply 550) := final_perror (by decide)

theorem one_delete (more : Bool) (f : Files) : OneReply more (delete f) :=
  one_ite (one_singleton (final_perror_550 more))
    (one_ite (one_ite_singleton (final_ack more) (final_perror_550 more))
      (one_ite_singleton (final_ack more) (final_perror_550 more)))

theorem one_makedir (more : Bool) (f : Files) (name : Text) : OneReply more (makedir f name) :=
  one_ite (one_singleton (final_perror_550 more))
    (one_ite (one_reply (by decide)) (one_ite (one_reply (by decide)) (one_reply (by decide))))

theorem one_sizecmd (more : Bool) (w : World) : OneReply more (sizecmd w) := by
  have hplain : OneReply more [if w.files.stat ∧ w.files.isReg then Out.reply 213 "%llu"
      else .reply 550 "%s: not a plain file."] :=
        one_ite_singleton (final_reply (by decide)) (final_reply (by decide))
  unfold sizecmd
  rcases w.type with - | - | - | -
  · exact one_ite (one_singleton (final_perror_550 more))
      (one_ite (one_reply (by decide)) (one_reply (by decide)))
  · exact one_reply (by decide)
  · exact hplain
  · exact hplain

theorem one_passive (more : Bool) (w : World) : OneReply more (passive w) :=
  one_ite (one_reply (by decide)) (one_ite (one_reply (by decide)) (one_reply (by decide)))

theorem one_typeCmd (more : Bool) (code : TypeCode) : OneReply more (typeCmd code) := by
  rcases code with form | form | - | size
  · exact one_ite_singleton (final_reply (by decide)) (final_reply (by decide))
  · exact one_reply (by decide)
  · exact one_reply (by decide)
  · exact one_ite_singleton (final_reply (by decide)) (final_reply (by decide))

theorem one_renamefrom (f : Files) : OneReply true (renamefrom f) :=
  one_ite_singleton (.inr (.inr (by decide))) (final_perror_550 true)

/-! ### The commands -/

def reductionsOf : Action → List Reduction
  | .port h => [.checkLogin, .hostPort h]
  | .pasv | .nlst | .nlstString _ | .list | .cwd | .pwd | .cdup | .siteUmask | .siteUmaskSet _ =>
    [.checkLogin]
  | .retr s | .stor s | .appe s | .listPath s | .statPath s | .dele s | .rnto s | .cwdPath
    s | .mkd s | .rmd s
  | .siteChmod _ s | .stou s | .size s | .mdtm s | .rnfr s => [.checkLogin, .pathname s]
  | _ => []

def OnFile (w : World) (s : Text) (p : Prop) : Prop :=
  w.loggedIn = true → (w.pathname s).isSome = true → p

def Answers (w : World) : Action → Prop
  | .port h => w.getaddrinfo h = true
  | .rnto s => w.loggedIn = true → (w.pathname s).isSome = true
  | .retr s => OnFile w s (retrieveOpens false w.files = true → Whole w.conn)
  | .list => w.loggedIn = true → retrieveOpens true w.files = true → Whole w.conn
  | .listPath s => OnFile w s (retrieveOpens true w.files = true → Whole w.conn)
  | .nlst | .nlstString _ =>
    w.loggedIn = true → w.files.globFiles = true → listOpens w.files w.files.items = true →
      Whole w.conn
  | .stor s | .appe s => OnFile w s (storeOpens false w.files = true → Whole w.conn)
  | .stou s => OnFile w s (storeOpens true w.files = true → Whole w.conn)
  | .statPath s => OnFile w s (w.files.popen = true)
  | .mdtm s => OnFile w s (w.files.stat = true → w.files.isReg = true → w.files.gmtime = true)
  | _ => True

theorem one_file_iff {out : Text → List Out} {p : Prop} (h : ∀ path, OneReply more (out path) ↔ p) :
    OneReply more ([Reduction.checkLogin, .pathname s].flatMap (reduction w) ++ w.onPath s out) ↔
    OnFile w s p := by
  rw [one_onPath]
  constructor
  · intro ho hl hs
    obtain ⟨path, hpath⟩ := Option.isSome_iff_exists.1 hs
    exact (h path).1 (ho hl path hpath)
  · intro hp hl path hpath
    exact (h path).2 (hp hl (by rw [hpath]; rfl))

theorem one_login_iff {p : Prop} (h : OneReply more out ↔ p) :
    OneReply more ([Reduction.checkLogin].flatMap (reduction w) ++ w.logged out) ↔
    (w.loggedIn = true → p) := by
  rw [flatMap_singleton, one_logged, h]

theorem one_login (h : OneReply more out) :
    OneReply more ([Reduction.checkLogin].flatMap (reduction w) ++ w.logged out) ↔ True :=
  (one_login_iff (iff_of_true h trivial)).trans (iff_of_true (fun _ => trivial) trivial)

theorem one_file {out : Text → List Out} (h : ∀ path, OneReply more (out path)) :
    OneReply more ([Reduction.checkLogin, .pathname s].flatMap (reduction w) ++ w.onPath s out) ↔
    True :=
  (one_file_iff fun path => iff_of_true (h path) trivial).trans
    (iff_of_true (fun _ _ => trivial) trivial)

/-- PORT replies twice when the address is refused: where it is reduced, and for the command or the
login. -/
theorem one_port_iff {h : List ℤ} (ho : Final more o) :
    OneReply more ([Reduction.checkLogin, .hostPort h].flatMap (reduction w) ++ w.logged [o]) ↔
      w.getaddrinfo h = true := by
  have hflat : [Reduction.checkLogin, .hostPort h].flatMap (reduction w) =
      reduction w .checkLogin ++ reduction w (.hostPort h) := by
    rw [flatMap_cons, flatMap_singleton]
  rw [hflat]
  by_cases ha : w.getaddrinfo h = true
  · have hquiet : reduction w (.hostPort h) = [] := if_pos ha
    rw [hquiet, append_nil, one_logged]
    exact iff_of_true (fun _ => one_singleton ho) ha
  · have hreply : reduction w (.hostPort h) = [.reply 550 "Address failure: %s,%s"] := if_neg ha
    rw [hreply]
    refine iff_of_false (fun hone => ?_) ha
    unfold reduction World.logged at hone
    by_cases hl : w.loggedIn = true
    · rw [if_pos hl, if_pos hl] at hone
      cases (one_final_cons (final_reply (by decide))).1 hone
    · rw [if_neg hl, if_neg hl] at hone
      cases (one_final_cons (final_reply (by decide))).1 hone

theorem one_rnto_iff (ho : Final more o) :
    OneReply more ([Reduction.checkLogin, .pathname s].flatMap (reduction w) ++ w.logged [o]) ↔
      (w.loggedIn = true → (w.pathname s).isSome = true) := by
  have hflat : [Reduction.checkLogin, .pathname s].flatMap (reduction w) =
      reduction w .checkLogin ++ reduction w (.pathname s) := by
    rw [flatMap_cons, flatMap_singleton]
  rw [hflat]
  by_cases hs : (w.pathname s).isSome = true
  · have hquiet : reduction w (.pathname s) = [] := if_pos hs
    rw [hquiet, append_nil, one_logged]
    exact iff_of_true (fun _ => one_singleton ho) fun _ => hs
  · have hl : w.loggedIn = true := by
      by_contra hl
      refine hs ?_
      unfold World.pathname
      rw [if_neg fun h => hl h.1]
      rfl
    have hreply : reduction w (.pathname s) = [.reply 550 "not found"] := if_neg hs
    have hlogin : reduction w .checkLogin = [] := if_pos hl
    refine iff_of_false (fun hone => ?_) fun h => hs (h hl)
    unfold World.logged at hone
    rw [hreply, hlogin, if_pos hl] at hone
    cases (one_final_cons (final_reply (by decide))).1 hone

/-- **Each command** answers once just when the condition holds. -/
theorem one_action_iff (w : World) (a : Action) :
    OneReply (asksMore (.action a)) ((reductionsOf a).flatMap (reduction w) ++ action w a) ↔
    Answers w a := by
  have hplain : ∀ {more out},
    OneReply more out → (OneReply more ([].flatMap (reduction w) ++ out) ↔ True) := fun h =>
    iff_of_true h trivial
  cases a
  case user name => exact hplain (one_user w.loggedIn w.login)
  case pass password => exact hplain (one_pass _ w.loggedIn w.login)
  case port h =>
    unfold action
    dsimp only
    split
    · exact one_port_iff (final_reply (by decide))
    · exact one_port_iff (final_reply (by decide))
  case pasv => exact one_login (one_passive _ w)
  case type code => exact hplain (one_typeCmd _ code)
  case stru code =>
    exact hplain (one_ite_singleton (final_reply (by decide)) (final_reply (by decide)))
  case mode code =>
    exact hplain (one_ite_singleton (final_reply (by decide)) (final_reply (by decide)))
  case allo => exact hplain (one_reply (by decide))
  case retr s => exact one_file_iff fun _ => one_retrieve_iff
  case stor s => exact one_file_iff fun _ => one_store_iff
  case appe s => exact one_file_iff fun _ => one_store_iff
  case nlst => exact one_login_iff one_sendFileList_iff
  case nlstString path => exact one_login_iff one_sendFileList_iff
  case list => exact one_login_iff one_retrieve_iff
  case listPath s => exact one_file_iff fun _ => one_retrieve_iff
  case statPath s => exact one_file_iff fun _ => one_statfilecmd_iff
  case stat => exact hplain (one_statcmd _ w)
  case dele s => exact one_file fun _ => one_delete _ w.files
  case rnto s =>
    unfold action
    dsimp only
    split
    · unfold renamecmd
      split
      · exact one_rnto_iff (final_ack _)
      · exact one_rnto_iff (final_perror_550 _)
    · exact one_rnto_iff (final_reply (by decide))
  case abor => exact hplain (one_reply (by decide))
  case cwd => exact one_login (one_ite_singleton (final_ack _) (final_perror_550 _))
  case cwdPath s => exact one_file fun _ => one_ite_singleton (final_ack _) (final_perror_550 _)
  case help => exact hplain (one_help _ cmdtab none)
  case helpString s => exact hplain (one_helpString _ s)
  case noop => exact hplain (one_reply (by decide))
  case mkd s => exact one_file fun path => one_makedir _ w.files path
  case rmd s => exact one_file fun _ => one_ite_singleton (final_ack _) (final_perror_550 _)
  case pwd =>
    exact one_login (one_ite_singleton (final_reply (by decide)) (final_reply (by decide)))
  case cdup => exact one_login (one_ite_singleton (final_ack _) (final_perror_550 _))
  case siteHelp => exact hplain (one_help _ sitetab none)
  case siteHelpString s => exact hplain (one_help _ sitetab (some s))
  case siteUmask => exact one_login (one_reply (by decide))
  case siteUmaskSet mask =>
    exact one_login (one_ite_singleton (final_reply (by decide)) (final_reply (by decide)))
  case siteChmod mode s =>
    refine one_file fun _ => ?_
    split
    · exact one_reply (by decide)
    · exact one_ite_singleton (final_reply (by decide)) (final_perror_550 _)
  case siteIdle => exact hplain (one_reply (by decide))
  case stou s => exact one_file_iff fun _ => one_store_iff
  case syst => exact hplain (one_reply (by decide))
  case size s => exact one_file fun _ => one_sizecmd _ w
  case mdtm s => exact one_file_iff fun _ => one_mdtm_iff
  case quit => exact hplain (one_reply (by decide))
  case rnfr s => exact one_file fun _ => one_renamefrom w.files
  case rest n => exact hplain (one_singleton (.inr (.inr ⟨rfl, by decide⟩)))

/-! ### The reductions of the grammar -/

/-- A rule that has reduced `pre` ends in commands with their reductions. -/
def Leads : List Reduction → Rule → Prop
  | pre, .done a => reductionsOf a = pre
  | _, .error => True
  | pre, .reduce r rule => Leads (pre ++ [r]) rule
  | pre, .shift next => ∀ t, Leads pre (next t)

section
variable {pre : List Reduction}

theorem leads_tok {t : Token} {r : Rule} (h : Leads pre r) : Leads pre (tok t r) := by
  intro t'
  dsimp only
  split
  · exact h
  · trivial

theorem leads_crlf {a : Action} (h : reductionsOf a = pre) : Leads pre (crlf a) := leads_tok h

theorem leads_string {k : Text → Rule} (h : ∀ s, Leads pre (k s)) : Leads pre (string k) := by
  intro t
  dsimp only
  split
  · exact h _
  · trivial

theorem leads_number {k : ℤ → Rule} (h : ∀ n, Leads pre (k n)) : Leads pre (number k) := by
  intro t
  dsimp only
  split
  · exact h _
  · trivial

theorem leads_crlfOr {a : Action} {r : Rule} (ha : reductionsOf a = pre) (hr : Leads pre r) :
    Leads pre (crlfOr a r) := by
  intro t
  dsimp only
  split
  · exact ha
  · exact hr
  · trivial

theorem leads_pathname {k : Text → Rule} (h : ∀ s, Leads (pre ++ [Reduction.pathname s]) (k s)) :
    Leads pre (pathname k) :=
  leads_string h

theorem leads_spPath {a : Text → Action}
    (h : ∀ s, reductionsOf (a s) = pre ++ [Reduction.pathname s]) :
    Leads pre (spPath a) := leads_tok (leads_pathname fun s => leads_crlf (h s))

end

theorem leads_hostPort : Leads [.checkLogin] (hostPort .port) :=
  leads_number fun _ =>
    leads_tok
    (leads_number fun _ => leads_tok (leads_number fun _ => leads_tok (leads_number fun _ =>
    leads_tok (leads_number fun _ => leads_tok (leads_number fun _ => leads_crlf rfl)))))

theorem leads_typeCode : Leads [] (typeCode .type) := by
  have hform : ∀ k : Letter → Rule, (∀ form, Leads [] (k form)) → Leads [] (formCode k) := by
    intro k hk t
    dsimp only
    split
    · exact hk _
    · exact hk _
    · exact hk _
    · trivial
  intro t
  dsimp only
  split
  · exact leads_crlfOr rfl (hform _ fun _ => leads_crlf rfl)
  · exact leads_crlfOr rfl (hform _ fun _ => leads_crlf rfl)
  · exact leads_crlf rfl
  · intro t
    dsimp only
    split
    · exact rfl
    · exact leads_number fun _ => leads_crlf rfl
    · exact leads_crlf rfl
    · trivial
  · trivial

theorem leads_site : Leads [] site := by
  intro t
  dsimp only
  split
  · exact leads_crlfOr rfl (leads_string fun _ => leads_crlf rfl)
  · exact leads_crlfOr rfl (leads_number fun _ => leads_crlf rfl)
  · exact leads_tok (leads_number fun _ => leads_tok (leads_pathname fun _ => leads_crlf rfl))
  · exact leads_crlf rfl
  · trivial

theorem leads_rule (k : Keyword) : Leads [] (rule k) := by
  cases k
  case user => exact leads_tok (leads_string fun _ => leads_crlf rfl)
  case pass =>
    refine leads_tok fun t => ?_
    dsimp only
    split
    · exact rfl
    · exact leads_crlf rfl
    · trivial
  case port => exact leads_tok leads_hostPort
  case type => exact leads_tok leads_typeCode
  case stru =>
    refine leads_tok fun t => ?_
    dsimp only
    split
    · exact leads_crlf rfl
    · exact leads_crlf rfl
    · exact leads_crlf rfl
    · trivial
  case mode =>
    refine leads_tok fun t => ?_
    dsimp only
    split
    · exact leads_crlf rfl
    · exact leads_crlf rfl
    · exact leads_crlf rfl
    · trivial
  case allo =>
    exact leads_tok
      (leads_number fun _ =>
        leads_crlfOr rfl (leads_tok (leads_tok (leads_number fun _ => leads_crlf rfl))))
  case stat =>
    intro t
    dsimp only
    split
    · exact rfl
    · exact leads_pathname fun _ => leads_crlf rfl
    · trivial
  case nlst => exact leads_crlfOr rfl (leads_string fun _ => leads_crlf rfl)
  case list => exact leads_crlfOr rfl (leads_pathname fun _ => leads_crlf rfl)
  case cwd => exact leads_crlfOr rfl (leads_pathname fun _ => leads_crlf rfl)
  case help => exact leads_crlfOr rfl (leads_string fun _ => leads_crlf rfl)
  case site => exact leads_tok leads_site
  case rest => exact leads_tok (leads_number fun _ => leads_crlf rfl)
  case pasv | pwd | cdup | abor | noop | syst | quit => exact leads_crlf rfl
  case retr | stor | appe | dele | rnto | mkd | rmd | stou | size | mdtm | rnfr =>
    exact leads_spPath fun _ => rfl
  all_goals trivial

/-! ### A line -/

def Ended (pre : List Reduction) (l : Line) : Prop :=
  match l.stop with
  | .action a => l.complained = false ∧ reductionsOf a = pre ++ l.reductions
  | .errorCrlf => l.complained = true
  | .notUnderstood => True
  | .unimplemented _ => False

theorem sitecmd_implemented (v : Text) (name : Text) (m : Move) :
    sitecmd v ≠ .unimplemented name m := by
  have htab : ∀ p ∈ sitetab, p.implemented = true := forall_iff_forall_mem.1 (by decide)
  intro h
  unfold sitecmd at h
  split at h
  · cases h
  · dsimp only at h
    split at h
    next p hp =>
      rw [if_pos (htab p (mem_of_find?_eq_some hp))] at h
      cases h
    · cases h

theorem yylex_implemented (s : Scan) (name : Text) (m : Move) :
    yylex s ≠ .unimplemented name m := by
  have hdostr1 : ∀ state v, dostr1 state v ≠ .unimplemented name m := by
    intro state v h
    unfold dostr1 at h
    split at h <;> cases h
  have hstr2 : ∀ v, str2 v ≠ .unimplemented name m := by
    intro v h
    unfold str2 at h
    split at h <;> cases h
  have hnumber : ∀ v state, Scanner.number v state ≠ .unimplemented name m := by
    intro v state h
    cases h
  have hargs : ∀ v, args v ≠ .unimplemented name m := by
    intro v h
    unfold args at h
    split at h
    · exact hnumber _ _ h
    · split at h
      · cases h
      · split at h
        · cases h
        · split at h
          · cases h
          · split at h <;> cases h
  unfold yylex lex
  split
  · intro h
    cases h
  · exact sitecmd_implemented _ _ _
  · split
    · intro h
      cases h
    · exact hdostr1 _ _
  · exact hdostr1 _ _
  · exact hdostr1 _ _
  · split
    · intro h
      cases h
    · exact hstr2 _
  · exact hstr2 _
  · split
    · intro h
      cases h
    · split
      · exact hnumber _ _
      · exact hdostr1 _ _
  · exact hargs _

theorem recover_stop (n : ℕ) (s : Scan) :
    (recover n s).stop = .errorCrlf ∨ (recover n s).stop = .notUnderstood := by
  induction n generalizing s with
  | zero => exact .inr rfl
  | succ n ih =>
    unfold recover
    split
    next t m hy =>
      split
      · exact .inl rfl
      · exact ih _
    · exact .inr rfl
    next name m hy => exact absurd hy (yylex_implemented s name m)

theorem ended_complain (pre : List Reduction) (t : Token) (s : Scan) :
    Ended pre (complain t s) := by
  unfold complain
  split
  · exact rfl
  · unfold Ended
    rcases recover_stop ((yyerror s).view.length + 1) (yyerror s) with h | h
    · have hstop :
          ((recover ((yyerror s).view.length + 1) (yyerror s)).complain).stop = .errorCrlf := h
      rw [hstop]
      exact rfl
    · have hstop :
          ((recover ((yyerror s).view.length + 1) (yyerror s)).complain).stop = .notUnderstood := h
      rw [hstop]
      trivial

theorem ended_parse {pre : List Reduction} (r : Rule) (h : Leads pre r) (t : Token) (s : Scan) :
    Ended pre (parse r t s) := by
  induction r generalizing pre t s with
  | done a => exact ⟨rfl, h.trans (append_nil pre).symm⟩
  | error => exact ended_complain pre t s
  | reduce r rule ih =>
    have hrule := ih h t s
    show match (parse rule t s).stop with
      | .action a => (parse rule t s).complained = false ∧
        reductionsOf a = pre ++ (r :: (parse rule t s).reductions)
      | .errorCrlf => (parse rule t s).complained = true
      | .notUnderstood => True
      | .unimplemented _ => False
    rw [append_cons]
    exact hrule
  | shift next ih =>
    unfold parse
    split
    next t m hy => exact ih t (h t) t _
    · trivial
    next name m hy => exact absurd hy (yylex_implemented s name m)

theorem leads_start (t : Token) : Leads [] (start t) := by
  unfold start
  split
  · exact leads_rule _
  · trivial

theorem OneReply.preliminary (h : OneReply more (out ++ [o])) : ∀ p ∈ out, Preliminary p := by
  obtain ⟨pre, last, heq, -, hpre⟩ := h
  rw [(append_inj' heq rfl).1]
  exact hpre

/-- The condition: a line with an error has no reply to a part of it and one to the error, and a
command answers once. -/
def InStep (w : World) (l : Line) : Prop :=
  match l.stop with
  | .action a => Answers w a
  | .errorCrlf => ∀ r ∈ l.reductions, Quiet w r
  | .notUnderstood => l.complained = false ∧ ∀ r ∈ l.reductions, Quiet w r
  | .unimplemented _ => True

theorem one_ended_iff (w : World) {l : Line} (h : Ended [] l) :
    OneReply (asksMore l.stop) (answer w l) ↔ InStep w l := by
  have h500 : ∀ more, Final more notUnderstood := fun more => .inr (.inl (by decide))
  unfold Ended at h
  unfold answer InStep
  rcases hstop : l.stop with a | - | - | name
  · rw [hstop] at h
    obtain ⟨hcomp, hred⟩ := h
    rw [nil_append] at hred
    rw [hcomp, ← hred, if_neg Bool.false_ne_true, append_nil]
    exact one_action_iff w a
  · rw [hstop] at h
    have hcomp : l.complained = true := h
    rw [hcomp, if_pos rfl]
    show OneReply _ (_ ++ [notUnderstood] ++ []) ↔ _
    rw [append_nil]
    exact one_reductions_iff (h500 _) l.reductions
  · show OneReply _ (_ ++ _ ++ [notUnderstood]) ↔ _
    rcases hcomp : l.complained with - | -
    · rw [if_neg Bool.false_ne_true, append_nil, one_reductions_iff (h500 _)]
      exact ⟨fun hq => ⟨rfl, hq⟩, fun hq => hq.2⟩
    · rw [if_pos rfl]
      refine iff_of_false (fun hone => ?_) fun hq => Bool.false_ne_true hq.1.symm
      exact (h500 false).not_preliminary (hone.preliminary _ (mem_append_right _ mem_cons_self))
  · rw [hstop] at h
    exact absurd h id

/-- **One line, one reply**, just when the condition holds. -/
theorem one_reply_iff (w : World) (s : Scan) (text : Text) :
    OneReply (asksMore (line s text).stop) (answer w (line s text)) ↔ InStep w (line s text) := by
  unfold line parseLine
  rcases command (s.read text) with ⟨t, m⟩ | ⟨m, back⟩ | ⟨name, m⟩
  · have hended := ended_parse (start t) (leads_start t) t ((s.read text).move m)
    exact one_ended_iff w
      (l := ((parse (start t) t ((s.read text).move m)).token t).visit (s.read text)) hended
  · exact one_ended_iff w
      (l := (Line.stopped .notUnderstood ((s.read text).leave m back)).visit (s.read text)) trivial
  · exact iff_of_true (one_reply (by decide)) trivial

/-- A NOOP with an argument is answered twice. -/
theorem noop_answered_twice :
    ¬ ∀ (w : World) (s : Scan) (text : Text),
    OneReply (asksMore (line s text).stop) (answer w (line s text)) := by
  have hstop : (line .start (ascii "NOOP x\r\n")).stop = .notUnderstood := by rfl
  have hcomp : (line .start (ascii "NOOP x\r\n")).complained = true := by rfl
  have hred : (line .start (ascii "NOOP x\r\n")).reductions = [] := by rfl
  intro h
  have hone := h default .start (ascii "NOOP x\r\n")
  unfold answer at hone
  rw [hstop, hcomp, hred] at hone
  have hone' : OneReply false ([notUnderstood] ++ [notUnderstood]) := hone
  have hpre := hone'.preliminary notUnderstood mem_cons_self
  exact absurd hpre (by unfold Preliminary notUnderstood; decide)

end Inetutils.Ftpd.Replies
