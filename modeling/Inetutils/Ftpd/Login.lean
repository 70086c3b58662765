import Inetutils.Lib.Runs
import Mathlib.Data.Int.Notation
import Mathlib.Tactic.ByContra

/-! # Logging in to ftpd

The commands USER and PASS, with passwords of the passwd file (`AUTH_TYPE_PASSWD`): `user`, `pass`,
`complete_login` and `end_login` of `src/ftpd.c`, `auth_user`, `auth_pass` and `sgetcred` of
`auth.c`. What the system answers comes with each command.

Beside the session it is kept which account the last USER command was accepted for, and whether the
PASS command after it proved it (`Granted`). `login_safe` says when the two agree. -/

namespace Inetutils.Ftpd.Login

open Lib.Runs Option

/-! ### The system -/

structure Passwd where
  name : String
  passwd : Option String
  uid : ℕ
  gid : ℕ
  dir : String
  shell : String

structure Spwd where
  expire : ℤ
  max : ℤ
  lstchg : ℤ
  pwdp : Option String

/-- What is looked up for USER: accounts, the day, the shells of `getusershell`, and the files of
names. -/
structure Host where
  getpwnam : String → Option Passwd
  getspnam : String → Option Spwd
  today : ℤ
  shells : List String
  ftpusers : String → Bool
  ftpchroot : String → Bool

/-- What is called for PASS; `true` is success. -/
structure Sys where
  crypt : String → String → Option String
  setegid : ℕ → Bool
  chroot : String → Bool
  chdir : String → Bool
  seteuid : ℕ → Bool

/-! ### The session -/

structure Cred where
  name : Option String
  homedir : Option String
  rootdir : Option String
  shell : Option String
  passwd : Option String
  message : Option String
  uid : ℕ
  gid : ℕ
  guest : Bool
  dochroot : Bool
  loggedIn : Bool

/-- `memset (pcred, 0, sizeof (*pcred))` -/
def Cred.zero : Cred := ⟨none, none, none, none, none, none, 0, 0, false, false, false⟩

structure Reply where
  code : ℕ
  text : String
  deriving DecidableEq

structure Session where
  cred : Cred
  askpasswd : Bool
  loginAttempts : ℕ
  exited : Bool

def Session.init : Session := ⟨Cred.zero, false, 0, false⟩

/-- The password of an account; an account that has expired has none. -/
def Host.password (host : Host) (p : Passwd) : Option String :=
  if p.passwd = none ∨ p.passwd.map String.utf8ByteSize = some 1 then
    match host.getspnam p.name with
    | none => p.passwd
    | some spw =>
      if (0 < spw.expire ∧ spw.expire < host.today) ∨
          (0 < spw.max ∧ 0 < spw.lstchg ∧ spw.lstchg + spw.max < host.today) then none
      else spw.pwdp
  else p.passwd

def sgetcred (host : Host) (name : String) (cred : Cred) : Option Cred :=
  (host.getpwnam name).map fun p =>
    { cred with
      uid := p.uid
      gid := p.gid
      name := some p.name
      passwd := some ((host.password p).getD "")
      rootdir := some p.dir
      homedir := some "/"
      shell := some p.shell }

/-- The shell of an account is one of those of `getusershell`. -/
def Host.shellOk (host : Host) (shell : String) : Bool :=
  (if shell = "" then "/bin/sh" else shell) ∈ host.shells

def isGuest (name : String) : Bool := name = "ftp" ∨ name = "anonymous"

/-- `auth_user`: whether it returns 0. -/
def authUser (host : Host) (name : String) (cred : Cred) : Bool × Cred :=
  let cred := { cred with guest := false }
  if isGuest name then
    if host.ftpusers "ftp" ∨ host.ftpusers "anonymous" then
      (false, { cred with message := some s!"User {name} access denied." })
    else match sgetcred host "ftp" cred with
      | some cred =>
        (true, { cred with
          guest := true, message := some "Guest login ok, type your name as password." })
      | none => (false, { cred with message := some s!"User {name} unknown." })
  else match sgetcred host name cred with
    | some cred =>
      if ¬ host.shellOk (cred.shell.getD "") ∨ host.ftpusers name then
        (false, { cred with message := some s!"User {name} access denied." })
      else
        let pwName := cred.name.getD ""
        (true, { cred with
          dochroot := host.ftpchroot pwName
          message := some s!"Password required for {pwName}." })
    | none => (false, { cred with message := none })

/-- `auth_pass` returns 0. -/
def authPass (sys : Sys) (passwd : String) (cred : Cred) : Bool :=
  match cred.passwd with
  | none => false
  | some salt => salt ≠ "" ∧ sys.crypt passwd salt = some salt

/-- `complete_login`, with the calls of `end_login` where it fails. -/
def completeLogin (sys : Sys) (cred : Cred) : Cred × List Reply :=
  let name := cred.name.getD ""
  let root := cred.rootdir.getD ""
  let home := cred.homedir.getD ""
  if ¬ sys.setegid cred.gid then (cred, [⟨550, "Can't set gid."⟩])
  else if cred.guest ∧ ¬ (sys.chroot root ∧ sys.chdir home) then
    (Cred.zero, [⟨550, "Can't set guest privileges."⟩])
  else if ¬ cred.guest ∧ cred.dochroot ∧ ¬ (sys.chroot root ∧ sys.chdir home) then
    (Cred.zero, [⟨550, "Can't change root."⟩])
  else if ¬ cred.guest ∧ ¬ cred.dochroot ∧ ¬ sys.chdir root ∧ ¬ sys.chdir "/" then
    (Cred.zero, [⟨530, s!"User {name}: can't change directory to {home}."⟩])
  else
    let noDir := if ¬ cred.guest ∧ ¬ cred.dochroot ∧ ¬ sys.chdir root then
        [⟨230, "No directory! Logging in with home=/"⟩]
      else []
    if ¬ sys.seteuid cred.uid then (Cred.zero, noDir ++ [⟨550, "Can't set uid."⟩])
    else if cred.guest then (cred, noDir ++ [⟨230, "Guest login ok, access restrictions apply."⟩])
    else (cred, noDir ++ [⟨230, s!"User {name} logged in."⟩])

section
variable (anonOnly : Bool)

/-- What `reply` is given when there is a message, and when there is none. -/
def withMessage (code : ℕ) (message : Option String) (other : String) : Reply :=
  ⟨code, message.getD other⟩

def user (host : Host) (name : String) (s : Session) : Session × List Reply :=
  if s.cred.loggedIn ∧ (s.cred.guest ∨ s.cred.dochroot) then
    (s, [⟨530, "Can't change user from guest login."⟩])
  else
    let r := authUser host name (if s.cred.loggedIn then Cred.zero else s.cred)
    if ¬ r.1 then
      ({ s with cred := { r.2 with message := none } },
        [withMessage 530 r.2.message s!"User {name} access denied."])
    else if anonOnly ∧ ¬ r.2.guest ∧ ¬ r.2.dochroot then
      ({ s with cred := r.2 }, [⟨530, "Sorry, only anonymous ftp allowed"⟩])
    else
      ({ s with cred := { r.2 with message := none }, askpasswd := true },
        [withMessage 331 r.2.message s!"Password required for {name}."])

def pass (sys : Sys) (passwd : String) (s : Session) : Session × List Reply :=
  if s.cred.loggedIn ∨ ¬ s.askpasswd then (s, [⟨503, "Login with USER first."⟩])
  else if ¬ s.cred.guest ∧ ¬ authPass sys passwd s.cred then
    ({ s with
        cred := { s.cred with message := none }
        askpasswd := false
        loginAttempts := s.loginAttempts + 1
        exited := decide (5 ≤ s.loginAttempts) },
      [withMessage 530 s.cred.message "Login incorrect."])
  else
    let r := completeLogin sys { s.cred with loggedIn := true }
    ({ s with cred := r.1, askpasswd := false, loginAttempts := 0 }, r.2)

inductive Command
  | user (host : Host) (name : String)
  | pass (sys : Sys) (passwd : String)
  | other

def command (s : Session) (c : Command) : Session × List Reply :=
  if s.exited then (s, [])
  else match c with
    | .user host name => user anonOnly host name s
    | .pass sys passwd => pass sys passwd s
    | .other => (s, [])

end

/-! ### What was granted -/

structure Account where
  name : String
  uid : ℕ
  gid : ℕ
  rootdir : String
  passwd : String
  guest : Bool
  dochroot : Bool

def granted (anonOnly : Bool) (host : Host) (name : String) : Option Account :=
  if isGuest name then
    if host.ftpusers "ftp" ∨ host.ftpusers "anonymous" then none
    else (host.getpwnam "ftp").map fun p =>
      ⟨p.name, p.uid, p.gid, p.dir, (host.password p).getD "", true, false⟩
  else (host.getpwnam name).bind fun p =>
    if ¬ host.shellOk p.shell ∨ host.ftpusers name ∨ (anonOnly ∧ ¬ host.ftpchroot p.name) then none
    else some ⟨p.name, p.uid, p.gid, p.dir, (host.password p).getD "", false, host.ftpchroot p.name⟩

def Account.proves (a : Account) (sys : Sys) (passwd : String) : Bool :=
  a.passwd ≠ "" ∧ sys.crypt passwd a.passwd = some a.passwd

def Account.placed (a : Account) (sys : Sys) : Bool :=
  sys.setegid a.gid ∧
    (if a.guest ∨ a.dochroot then sys.chroot a.rootdir ∧ sys.chdir "/"
      else sys.chdir a.rootdir ∨ sys.chdir "/") ∧
    sys.seteuid a.uid

/-- What the last USER command was given, that `auth_user` was asked about, and what the PASS
command that followed it showed. -/
structure Asked where
  account : Option Account
  proved : Bool
  placed : Bool

def observe (anonOnly : Bool) (s : Session) (g : Asked) : Command → Asked
  | .user host name =>
    if s.exited ∨ (s.cred.loggedIn ∧ (s.cred.guest ∨ s.cred.dochroot)) then g
    else ⟨granted anonOnly host name, false, false⟩
  | .pass sys passwd =>
    if s.exited ∨ s.cred.loggedIn ∨ ¬ s.askpasswd then g
    else match g.account with
      | none => g
      | some a => ⟨some a, a.proves sys passwd, a.placed sys⟩
  | .other => g

def step (anonOnly : Bool) (r : Session × Asked) (c : Command) : Session × Asked :=
  ((command anonOnly r.1 c).1, observe anonOnly r.1 r.2 c)

def init : Session × Asked := (Session.init, ⟨none, false, false⟩)

structure Held (cred : Cred) (a : Account) : Prop where
  name : cred.name = some a.name
  uid : cred.uid = a.uid
  gid : cred.gid = a.gid
  rootdir : cred.rootdir = some a.rootdir
  guest : cred.guest = a.guest
  dochroot : cred.dochroot = a.dochroot

/-- **Login safety**: who is logged in was let in by the last USER command, as the account it named,
is the guest or has shown the password, and nothing has failed in `complete_login`. -/
def Safe (r : Session × Asked) : Prop :=
  r.1.cred.loggedIn = true →
    ∃ a, r.2.account = some a ∧ Held r.1.cred a ∧ (a.guest = true ∨ r.2.proved = true) ∧
    r.2.placed = true

/-- When a PASS command is taken, the last USER command has been accepted, `dochroot` is not left
from a user before the guest, and `setegid` does not fail. -/
def Fit (r : Session × Asked) : Command → Prop
  | .pass sys _ => r.1.askpasswd = true →
      r.2.account.isSome ∧ ¬ (r.1.cred.guest ∧ r.1.cred.dochroot) ∧ sys.setegid r.1.cred.gid
  | _ => True

instance decidableFit (r : Session × Asked) : ∀ c, Decidable (Fit r c)
  | .user _ _ => inferInstanceAs (Decidable True)
  | .pass sys _ => inferInstanceAs (Decidable (r.1.askpasswd = true →
      r.2.account.isSome ∧ ¬ (r.1.cred.guest ∧ r.1.cred.dochroot) ∧ sys.setegid r.1.cred.gid))
  | .other => inferInstanceAs (Decidable True)

/-! ### The invariant -/

structure Filled (cred : Cred) (a : Account) : Prop where
  name : cred.name = some a.name
  uid : cred.uid = a.uid
  gid : cred.gid = a.gid
  rootdir : cred.rootdir = some a.rootdir
  homedir : cred.homedir = some "/"
  passwd : cred.passwd = some a.passwd
  guest : cred.guest = a.guest
  dochroot : a.guest = false → cred.dochroot = a.dochroot
  root : a.guest = true → a.dochroot = false

structure Inv (r : Session × Asked) : Prop where
  safe : Safe r
  asked : r.1.askpasswd = true → r.1.cred.loggedIn = false ∧ ∀ a,
    r.2.account = some a → Filled r.1.cred a

/-- **`auth_user` and the test for anonymous users let in the account that is granted.** -/
theorem authUser_spec (anonOnly : Bool) (host : Host) (name : String) (cred : Cred) :
    (authUser host name cred).2.loggedIn = cred.loggedIn ∧
      match granted anonOnly host name with
      | none => (authUser host name cred).1 = false ∨
          (anonOnly = true ∧ (authUser host name cred).2.guest = false ∧
            (authUser host name cred).2.dochroot = false)
      | some a => (authUser host name cred).1 = true ∧ Filled (authUser host name cred).2 a ∧
          ¬ (anonOnly = true ∧ (authUser host name cred).2.guest = false ∧
            (authUser host name cred).2.dochroot = false) := by
  rw [authUser, granted]
  split
  · split
    · exact ⟨rfl, .inl rfl⟩
    · rw [sgetcred]
      rcases host.getpwnam "ftp" with _ | p
      · exact ⟨rfl, .inl rfl⟩
      · refine ⟨rfl, rfl, ⟨rfl, rfl, rfl, rfl, rfl, rfl, rfl, fun h => ?_, fun _ => rfl⟩,
          fun h => ?_⟩
        · exact absurd h.symm Bool.false_ne_true
        · exact absurd h.2.1.symm Bool.false_ne_true
  · rw [sgetcred]
    rcases host.getpwnam name with _ | p
    · exact ⟨rfl, .inl rfl⟩
    · simp only [map_some, getD_some, bind_some]
      by_cases hrefused : ¬ host.shellOk p.shell ∨ host.ftpusers name
      · rw [if_pos hrefused, if_pos (hrefused.imp_right Or.inl)]
        exact ⟨rfl, .inl rfl⟩
      · rw [if_neg hrefused]
        rw [not_or] at hrefused
        by_cases hanon : anonOnly = true ∧ ¬ host.ftpchroot p.name = true
        · rw [if_pos (.inr (.inr hanon))]
          exact ⟨rfl, .inr ⟨hanon.1, rfl, by simpa using hanon.2⟩⟩
        · rw [if_neg (not_or.2 ⟨hrefused.1, not_or.2 ⟨hrefused.2, hanon⟩⟩)]
          refine ⟨rfl, rfl, ⟨rfl, rfl, rfl, rfl, rfl, rfl, rfl, fun _ => rfl, fun h => ?_⟩,
            fun h => hanon ⟨h.1, ?_⟩⟩
          · exact absurd h Bool.false_ne_true
          · exact fun hc => Bool.false_ne_true (h.2.2.symm.trans hc)

/-- **`complete_login`**, when `setegid` does not fail. -/
theorem completeLogin_spec {sys : Sys} {cred : Cred} {a : Account} (h : Filled cred a)
    (hd : cred.dochroot = a.dochroot) (hgid : sys.setegid cred.gid = true) :
    ((completeLogin sys cred).1 = cred ∧ a.placed sys = true) ∨
    (completeLogin sys cred).1 = Cred.zero := by
  obtain ⟨-, huid, hgid', hroot, hhome, -, hguest, -, -⟩ := h
  rw [hgid'] at hgid
  simp only [completeLogin, Account.placed, hgid', hgid, huid, hroot, hhome, hguest, hd, getD_some]
  grind

variable {r : Session × Asked}

theorem Inv.user (anonOnly : Bool) (host : Host) (name : String) (h : Inv r) :
    Inv (step anonOnly r (.user host name)) := by
  obtain ⟨s, g⟩ := r
  obtain ⟨hsafe, hasked⟩ := h
  rw [step, command, observe]
  by_cases hex : s.exited = true
  · rw [if_pos hex, if_pos (.inl hex)]
    exact ⟨hsafe, hasked⟩
  · rw [if_neg hex]
    by_cases hguard : s.cred.loggedIn = true ∧ (s.cred.guest = true ∨ s.cred.dochroot = true)
    · rw [if_pos (.inr hguard), Login.user, if_pos hguard]
      exact ⟨hsafe, hasked⟩
    · rw [if_neg (not_or.2 ⟨hex, hguard⟩), Login.user, if_neg hguard]
      -- whoever was logged in is not any more
      have hout : (if s.cred.loggedIn = true then Cred.zero else s.cred).loggedIn = false := by
        split
        · rfl
        next hin => simpa using hin
      obtain ⟨hin, hspec⟩ := authUser_spec anonOnly host name
        (if s.cred.loggedIn = true then Cred.zero else s.cred)
      generalize authUser host name (if s.cred.loggedIn = true then Cred.zero else s.cred) = u
        at hin hspec ⊢
      rw [hout] at hin
      dsimp only
      rcases hgr : granted anonOnly host name with _ | a
      · -- refused: `askpasswd` stays as it was
        rw [hgr] at hspec
        have hnone : ∀ s' : Session, s'.cred.loggedIn = false → Inv (s', ⟨none, false, false⟩) := by
          intro s' hs'
          refine ⟨fun hlog => absurd (hs'.symm.trans hlog) Bool.false_ne_true,
            fun _ => ⟨hs', fun a ha => ?_⟩⟩
          exact absurd ha (some_ne_none a).symm
        rcases hspec with href | ⟨h1, h2, h3⟩
        · rw [if_pos (by rw [href]; exact Bool.false_ne_true)]
          exact hnone _ hin
        · split
          · exact hnone _ hin
          · rw [if_pos
              ⟨h1, by rw [h2]; exact Bool.false_ne_true, by rw [h3]; exact Bool.false_ne_true⟩]
            exact hnone _ hin
      · rw [hgr] at hspec
        obtain ⟨hacc, ⟨f1, f2, f3, f4, f5, f6, f7, f8, f9⟩, hanon⟩ := hspec
        have hanon' : ¬ (anonOnly = true ∧ ¬ u.2.guest = true ∧ ¬ u.2.dochroot = true) := by
          rintro ⟨h1, h2, h3⟩
          exact hanon ⟨h1, by simpa using h2, by simpa using h3⟩
        rw [if_neg fun hrej => hrej hacc, if_neg hanon']
        refine ⟨fun hlog => absurd (hin.symm.trans hlog) Bool.false_ne_true,
          fun _ => ⟨hin, fun b hb => ?_⟩⟩
        obtain rfl := some.inj hb
        exact ⟨f1, f2, f3, f4, f5, f6, f7, f8, f9⟩

theorem inv_out {s : Session} {g : Asked} (hlog : s.cred.loggedIn = false)
    (hask : s.askpasswd = false) :
    Inv (s, g) :=
  ⟨fun h => absurd (hlog.symm.trans h) Bool.false_ne_true,
    fun h => absurd (hask.symm.trans h) Bool.false_ne_true⟩

theorem Inv.pass (anonOnly : Bool) (sys : Sys) (passwd : String) (h : Inv r)
    (hfit : Fit r (.pass sys passwd)) : Inv (step anonOnly r (.pass sys passwd)) := by
  obtain ⟨s, g⟩ := r
  obtain ⟨hsafe, hasked⟩ := h
  rw [step, command, observe]
  by_cases hex : s.exited = true
  · rw [if_pos hex, if_pos (.inl hex)]
    exact ⟨hsafe, hasked⟩
  · rw [if_neg hex]
    by_cases hout : s.cred.loggedIn = true ∨ ¬ s.askpasswd = true
    · rw [if_pos (.inr hout), Login.pass, if_pos hout]
      exact ⟨hsafe, hasked⟩
    · rw [if_neg (not_or.2 ⟨hex, hout⟩), Login.pass, if_neg hout]
      rw [not_or, Bool.not_eq_true, not_not] at hout
      obtain ⟨hlog, hask⟩ := hout
      obtain ⟨hsome, hroot, hgid⟩ := hfit hask
      obtain ⟨a, ha⟩ := isSome_iff_exists.1 hsome
      have hfill := (hasked hask).2 a ha
      have hg : g.account = some a := ha
      rw [hg]
      by_cases hfail : ¬ s.cred.guest = true ∧ ¬ authPass sys passwd s.cred = true
      · rw [if_pos hfail]
        exact inv_out hlog rfl
      · rw [if_neg hfail]
        -- the account is the guest's, or the password is its own
        have hdochroot : s.cred.dochroot = a.dochroot := by
          rcases hag : a.guest
          · exact hfill.dochroot hag
          · rw [hfill.root hag]
            have hcg : s.cred.guest = true := hfill.guest.trans hag
            have hcd : ¬ s.cred.dochroot = true := fun hc => hroot ⟨hcg, hc⟩
            simpa using hcd
        have hproved : a.guest = true ∨ a.proves sys passwd = true := by
          rcases hag : a.guest
          · have hcg : ¬ s.cred.guest = true := by
              rw [hfill.guest, hag]
              exact Bool.false_ne_true
            have hauth : authPass sys passwd s.cred = true := by
              by_contra hc
              exact hfail ⟨hcg, hc⟩
            rw [authPass, hfill.passwd] at hauth
            exact .inr hauth
          · exact .inl rfl
        obtain ⟨f1, f2, f3, f4, f5, f6, f7, f8, f9⟩ := hfill
        have hin : Filled { s.cred with loggedIn := true } a := ⟨f1, f2, f3, f4, f5, f6, f7, f8, f9⟩
        dsimp only
        rcases completeLogin_spec hin hdochroot hgid with ⟨hcred, hplaced⟩ | hzero
        · rw [hcred]
          refine ⟨fun _ => ⟨a, rfl, ⟨f1, f2, f3, f4, f7, hdochroot⟩, hproved, hplaced⟩,
            fun hc => ?_⟩
          exact absurd hc Bool.false_ne_true
        · rw [hzero]
          exact inv_out rfl rfl

/-- **Who is logged in was let in**, in every state that is reached by commands that fit. -/
theorem login_safe (anonOnly : Bool) (commands : List Command)
    (h : Allowed (step anonOnly) Fit init commands) : Safe (run (step anonOnly) init commands) := by
  have hstep : ∀ (r : Session × Asked) (c : Command),
    Inv r → Fit r c → Inv (step anonOnly r c) := by
    intro r c hr hc
    rcases c with ⟨host, name⟩ | ⟨sys, passwd⟩ | _
    · exact hr.user anonOnly host name
    · exact hr.pass anonOnly sys passwd hc
    · have hother : step anonOnly r .other = r := by
        rw [step, command]
        split <;> rfl
      rw [hother]
      exact hr
  exact (run_inv hstep (inv_out rfl rfl) h).safe

/-- A system with the accounts `alice` and `root`, of which `root` may not use FTP. -/
def exampleHost : Host where
  getpwnam name :=
    if name = "alice" then some ⟨"alice", some "a!", 7, 7, "/alice", "/bin/sh"⟩
    else if name = "root" then some ⟨"root", some "r!", 0, 0, "/", "/bin/sh"⟩
    else none
  getspnam _ := none
  today := 0
  shells := ["/bin/sh"]
  ftpusers name := name = "root"
  ftpchroot _ := false

/-- A password and a `!` is what `crypt` gives. -/
def exampleSys : Sys := ⟨fun passwd _ => some (passwd ++ "!"), fun _ => true, fun _ => true,
    fun _ => true, fun _ => true⟩

theorem login_safe_alice :
    Safe (run (step false) init
      [.user exampleHost "root", .user exampleHost "alice", .pass exampleSys "a", .other]) :=
  login_safe false _ (by decide)

/-- `root` is refused while the password of `alice` is asked for, and logs in. -/
theorem refused_user_logs_in :
    ¬ Safe (run (step false) init
      [.user exampleHost "alice", .user exampleHost "root", .pass exampleSys "r"]) := by
  intro h
  obtain ⟨a, ha, -⟩ := h (by decide)
  have hnone : (run (step false) init
      [.user exampleHost "alice", .user exampleHost "root",
        .pass exampleSys "r"]).2.account.isNone =
        true := by
    decide
  rw [ha] at hnone
  exact absurd hnone Bool.false_ne_true

end Inetutils.Ftpd.Login
