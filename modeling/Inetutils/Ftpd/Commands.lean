import Inetutils.Ftpd.Parser

/-! # What the commands of ftpd answer

The routines of `src/ftpd.c` and the actions of `src/ftpcmd.y`, with the lines they send on the
control connection. The results of the system calls are fields of `World`; of a name or a number in
a reply only the format is kept. A system call that fails sets `errno`. -/

namespace Inetutils.Ftpd.Commands

open Scanner Ftpd.Parser
open Dataconn (Text upper)

/-! ### Output and input -/

/-- A line to the client: the last of a reply, one with a hyphen, or a text between them. -/
inductive Out
  | reply (code : ℕ) (format : String)
  | lreply (code : ℕ) (format : String)
  | text (format : String)
  deriving DecidableEq

inductive DataType
  | a | e | i | l
  deriving DecidableEq, Inhabited

/-- `guest` and `dochroot` are those of `cred`, and `auth_user` sets them for the name that is
given. -/
structure Login where
  guest : Bool
  dochroot : Bool
  askpasswd : Bool
  anonOnly : Bool
  authUser : Bool
  authGuest : Bool
  authDochroot : Bool
  authPass : Bool
  message : Bool
  setegid : Bool
  chroot : Bool
  chdirRootdir : Bool
  chdirSlash : Bool
  seteuid : Bool
  loginMessage : List String
  deriving DecidableEq, Inhabited

/-- The data connection: whether `pdata` and `data` are open, and the results of `accept`,
`getdatasock`, `connect` and `fdopen`. -/
structure Conn where
  pdata : Bool
  data : Bool
  accept : Bool
  getdatasock : Bool
  connect : Bool
  fdopen : Bool
  deriving DecidableEq, Inhabited

/-- A transfer: whether the file is mapped, memory for a buffer is there, and whether the file or
the connection has an error; `bareLfs` are the linefeeds without a carriage return. -/
structure Transfer where
  mapped : Bool
  malloc : Bool
  fileError : Bool
  dataError : Bool
  bareLfs : ℕ
  deriving DecidableEq, Inhabited

/-- A name of the list for NLST. A directory has the entries that are listed, or cannot be
opened. -/
inductive Item
  | missing (dash : Bool)
  | file
  | special
  | directory (listed : List Bool)
  deriving DecidableEq

structure Files where
  stat : Bool
  isReg : Bool
  isDir : Bool
  fopen : Bool
  popen : Bool
  seek : Bool
  gunique : Bool
  guniqueDir : Bool
  ferror : Bool
  unlink : Bool
  rmdir : Bool
  mkdir : Bool
  chdir : Bool
  getcwd : Bool
  rename : Bool
  chmod : Bool
  gmtime : Bool
  listing : List String
  globFiles : Bool
  items : List Item
  deriving DecidableEq, Inhabited

/-- `bind` stands for `getsockname` and `listen` too. -/
structure World where
  loggedIn : Bool
  glob : Text → Option Text
  getaddrinfo : List ℤ → Bool
  login : Login
  fromname : Option Text
  type : DataType
  portAllowed : Bool
  usedefault : Bool
  noVersion : Bool
  socket : Bool
  bind : Bool
  ipv6 : Bool
  conn : Conn
  transfer : Transfer
  files : Files
  deriving Inhabited

/-! ### Logging in -/

def completeLogin (l : Login) : List Out :=
  if ¬ l.setegid then [.reply 550 "Can't set gid."]
  else if l.guest ∧ ¬ l.chroot then [.reply 550 "Can't set guest privileges."]
  else if ¬ l.guest ∧ l.dochroot ∧ ¬ l.chroot then [.reply 550 "Can't change root."]
  else if ¬ l.guest ∧ ¬ l.dochroot ∧ ¬ l.chdirRootdir ∧ ¬ l.chdirSlash then
    [.reply 530 "User %s: can't change directory to %s."]
  else
    (if ¬ l.guest ∧ ¬ l.dochroot ∧ ¬ l.chdirRootdir then
      [.lreply 230 "No directory! Logging in with home=/"] else []) ++
      if ¬ l.seteuid then [.reply 550 "Can't set uid."]
      else l.loginMessage.map (.lreply 230) ++
        [.reply 230 (if l.guest then "Guest login ok, access restrictions apply."
          else "User %s logged in.")]

def user (loggedIn : Bool) (l : Login) : List Out :=
  if loggedIn ∧ (l.guest ∨ l.dochroot) then [.reply 530 "Can't change user from guest login."]
  else if ¬ l.authUser then [.reply 530 (if l.message then "%s" else "User %s access denied.")]
  else if l.anonOnly ∧ ¬ l.authGuest ∧ ¬ l.authDochroot then
    [.reply 530 "Sorry, only anonymous ftp allowed"]
  else [.reply 331 (if l.message then "%s" else "Password required for %s.")]

def pass (loggedIn : Bool) (l : Login) : List Out :=
  if loggedIn ∨ ¬ l.askpasswd then [.reply 503 "Login with USER first."]
  else if ¬ l.guest ∧ ¬ l.authPass then
    [.reply 530 (if l.message then "%s" else "Login incorrect.")]
  else completeLogin l

/-! ### The data connection -/

def perrorReply (code : ℕ) : Out := .reply code "%s: %s."

/-- `dataconn`, and whether it returns a stream. -/
def dataconn (c : Conn) : List Out × Bool :=
  if c.pdata then
    if c.accept then ([.reply 150 "Opening %s mode data connection for '%s'%s."], c.fdopen)
    else ([.reply 425 "Can't open data connection."], false)
  else if c.data then ([.reply 125 "Using existing data connection for '%s'%s."], c.fdopen)
  else if ¬ c.getdatasock then ([.reply 425 "Can't create data socket (%s,%s): %s."], false)
  else if ¬ c.connect then ([perrorReply 425], false)
  else ([.reply 150 "Opening %s mode data connection for '%s'%s."], true)

def connected (c : Conn) (out : List Out) : List Out :=
  (dataconn c).1 ++ if (dataconn c).2 then out else []

def complete : Out := .reply 226 "Transfer complete."

def sendData (type : DataType) (t : Transfer) : List Out :=
  match type with
  | .a =>
    if t.mapped then if t.dataError then [perrorReply 426] else [complete]
    else if t.fileError then [perrorReply 551]
    else if t.dataError then [perrorReply 426]
    else [complete]
  | .e => [.reply 550 "Unimplemented TYPE %d in send_data"]
  | _ =>
    if t.mapped then if t.dataError then [perrorReply 426] else [complete]
    else if ¬ t.malloc then [perrorReply 451]
    else if t.fileError then [perrorReply 551]
    else if t.dataError then [perrorReply 426]
    else [complete]

/-- `receive_data`, and whether it returns 0. -/
def receiveData (type : DataType) (t : Transfer) : List Out × Bool :=
  match type with
  | .e => ([.reply 553 "TYPE E not implemented."], false)
  | .a =>
    if t.dataError then ([perrorReply 426], false)
    else if t.fileError then ([perrorReply 452], false)
    else (if t.bareLfs = 0 then []
      else [.lreply 226 "WARNING! %d bare linefeeds received in ASCII mode",
        .text "   File may not have transferred correctly."], true)
  | _ =>
    if t.fileError then ([perrorReply 452], false)
    else if t.dataError then ([perrorReply 426], false)
    else ([], true)

def passive (w : World) : List Out :=
  if ¬ w.socket ∨ ¬ w.bind then [.reply 425 "%s: %s."]
  else if w.ipv6 then [.reply 229 "Extended Passive Mode OK (|||%u|)"]
  else [.reply 227 "Entering Passive Mode (%d,%d,%d,%d,%d,%d)"]

/-! ### Transfers -/

/-- The calls of `retrieve` in front of `dataconn`; `cmd` says that the output of a program is
sent. -/
def retrieveOpens (cmd : Bool) (f : Files) : Bool :=
  if cmd then f.popen && f.seek else f.fopen && (f.stat && f.isReg) && f.seek

def retrieve (cmd : Bool) (w : World) : List Out :=
  if retrieveOpens cmd w.files then connected w.conn (sendData w.type w.transfer)
  else if ¬ cmd ∧ w.files.fopen ∧ ¬ (w.files.stat ∧ w.files.isReg) then
    [.reply 550 "%s: not a plain file."]
  else [perrorReply 550]

/-- `store`, once the name of the file is known. -/
def storeFile (unique : Bool) (w : World) : List Out :=
  if ¬ w.files.fopen then [perrorReply 553]
  else if ¬ w.files.seek then [perrorReply 550]
  else connected w.conn
    ((receiveData w.type w.transfer).1 ++ if (receiveData w.type w.transfer).2 then
    [if unique then .reply 226 "Transfer complete (unique file name:%s)." else complete] else [])

def store (unique : Bool) (w : World) : List Out :=
  if unique ∧ w.files.stat ∧ ¬ w.files.gunique then
    if w.files.guniqueDir then [.reply 452 "Unique file name cannot be created."]
    else [perrorReply 553]
  else storeFile unique w

/-- The loop of `send_file_list`; `dout` says that the data connection is open. -/
def listFiles (w : World) : Bool → List Item → List Out
  | dout, [] =>
    if ¬ dout then [.reply 550 "No files found."]
    else if w.files.ferror then [perrorReply 550]
    else [complete]
  | dout, .missing dash :: l =>
    if dash ∧ l = [] ∧ ¬ dout then retrieve true w else [perrorReply 550]
  | dout, .file :: l => if dout then listFiles w true l else connected w.conn (listFiles w true l)
  | dout, .special :: l => listFiles w dout l
  | dout, .directory listed :: l =>
    if listed.any id ∧ ¬ dout then connected w.conn (listFiles w true l) else listFiles w dout l

def sendFileList (w : World) : List Out :=
  if w.files.globFiles then listFiles w false w.files.items else [.reply 550 "not found"]

/-! ### The other commands -/

/-- `statfilecmd`: `getc` of a stream that is not there ends the server. `ferror` is only tested
where a newline has been read, so that an error ends the listing as its end does. -/
def statfilecmd (f : Files) : List Out :=
  .lreply 211 "status of %s:" ::
    if ¬ f.popen then [] else f.listing.map .text ++ [.reply 211 "End of Status"]

def statcmd (w : World) : List Out :=
  .lreply 211 "%s FTP server status:" :: (if w.noVersion then []
    else [.text "     ftpd (%s) %s"]) ++
    [.text "     Connected to %s",
      .text (if w.loggedIn then if w.login.guest then "     Logged in anonymously"
        else "     Logged in as %s"
        else if w.login.askpasswd then "     Waiting for password"
        else "     Waiting for user name"),
      .text "     TYPE: %s; STRUcture: %s; transfer MODE: %s",
      .text (if w.conn.data then "     Data connection open"
        else if w.conn.pdata then "     in Passive mode (%d,%d,%d,%d,%d,%d)"
        else if w.usedefault then "     No data connection" else "     PORT (%d,%d,%d,%d,%d,%d)"),
      .reply 211 "End of status"]

/-- The rows of the commands, as many as `columns` leaves. -/
def helpLines (tabs : List Tab) : ℕ :=
  let width := ((tabs.map fun c => c.name.length).foldl max 0 + 8) / 8 * 8
  let columns := if 76 / width = 0 then 1 else 76 / width
  (tabs.length + columns - 1) / columns

def help (tabs : List Tab) : Option Text → List Out
  | none => .lreply 214 "The following %scommands are recognized %s." ::
      (List.replicate (helpLines tabs) (.text "   %s%c") ++
        [.reply 214 "Direct comments to ftp-bugs@%s."])
  | some s =>
    match lookup tabs (s.map upper) with
    | none => [.reply 502 "Unknown command %s."]
    | some p =>
      [.reply 214 (if p.implemented then "Syntax: %s%s %s" else "%s%-*s\t%s; unimplemented.")]

def helpString (s : Text) : List Out :=
  if (s.take 4).map upper = ascii "SITE" then
    let cp := if (s.drop 4).head? = some 32 then s.drop 5 else s.drop 4
    if cp = [] then help sitetab none else help sitetab (some cp)
  else help cmdtab (some s)

def ack : Out := .reply 250 "%s command successful."

def delete (f : Files) : List Out :=
  if ¬ f.stat then [perrorReply 550]
  else if f.isDir then [if f.rmdir then ack else perrorReply 550]
  else [if f.unlink then ack else perrorReply 550]

def cwd (f : Files) : List Out := [if f.chdir then ack else perrorReply 550]

def makedir (f : Files) (name : Text) : List Out :=
  if ¬ f.mkdir then [perrorReply 550]
  else if name.head? = some 47 then [.reply 257 "\"%s\" new directory created."]
  else if f.getcwd then [.reply 257 "\"%s/%s\" new directory created."]
  else [.reply 257 "(unknown absolute name) new directory created."]

def removedir (f : Files) : List Out := [if f.rmdir then ack else perrorReply 550]

def pwd (f : Files) : List Out :=
  [if f.getcwd then .reply 257 "\"%s\" is current directory." else .reply 550 "%s."]

def renamefrom (f : Files) : List Out :=
  [if f.stat then .reply 350 "File exists, ready for destination name" else perrorReply 550]

/-- `rename` fails where the new name is NULL. -/
def renamecmd (f : Files) (name : Option Text) : List Out :=
  [if f.rename ∧ name.isSome then ack else perrorReply 550]

def sizecmd (w : World) : List Out :=
  match w.type with
  | .e => [.reply 504 "SIZE not implemented for Type %c."]
  | .a =>
    if ¬ w.files.fopen then [perrorReply 550]
    else if ¬ (w.files.stat ∧ w.files.isReg) then [.reply 550 "%s: not a plain file."]
    else [.reply 213 "%lld"]
  | _ =>
    [if w.files.stat ∧ w.files.isReg then .reply 213 "%llu" else .reply 550 "%s: not a plain file."]

/-- MDTM: a time that `gmtime` has no date for ends the server. -/
def mdtm (f : Files) : List Out :=
  if ¬ f.stat then [.reply 550 "%s: %s"]
  else if ¬ f.isReg then [.reply 550 "%s: not a plain file."]
  else if ¬ f.gmtime then []
  else [.reply 213 "%04d%02d%02d%02d%02d%02d"]

/-! ### The grammar -/

/-- The value of the symbol `pathname`. -/
def World.pathname (w : World) (s : Text) : Option Text :=
  if w.loggedIn ∧ s.head? = some 126 then w.glob s else some s

def reduction (w : World) : Reduction → List Out
  | .checkLogin => if w.loggedIn then [] else [.reply 530 "Please login with USER and PASS."]
  | .hostPort h => if w.getaddrinfo h then [] else [.reply 550 "Address failure: %s,%s"]
  | .pathname s => if (w.pathname s).isSome then [] else [.reply 550 "not found"]

def World.logged (w : World) (out : List Out) : List Out := if w.loggedIn then out else []

def World.onPath (w : World) (s : Text) (out : Text → List Out) : List Out :=
  w.logged (match w.pathname s with
    | some path => out path
    | none => [])

def typeCmd : TypeCode → List Out
  | .a form => [if form = .n then .reply 200 "Type set to A." else .reply 504 "Form must be N."]
  | .e _ => [.reply 504 "Type E not implemented."]
  | .i => [.reply 200 "Type set to I."]
  | .l size => [if size = 8 then .reply 200 "Type set to L (byte size 8)."
    else .reply 504 "Byte size must be 8."]

/-- `octal_number`: the digits that were read as a decimal number, read as an octal one; -1 for a
digit above 7. An `int` has ten digits at most. -/
def octal : ℕ → ℤ → ℤ → ℤ → ℤ
  | 0, _, _, ret => ret
  | digits + 1, dec, multby, ret =>
    if dec = 0 then ret
    else if 7 < dec.tmod 10 then -1
    else octal digits (dec.tdiv 10) (multby * 8) (ret + dec.tmod 10 * multby)

def octalNumber (n : ℤ) : ℤ := octal 10 n 1 0

def action (w : World) : Action → List Out
  | .user _ => user w.loggedIn w.login
  | .pass _ => pass w.loggedIn w.login
  | .port _ =>
    w.logged [if w.portAllowed then .reply 200 "PORT command successful."
      else .reply 500 "Illegal PORT Command"]
  | .pasv => w.logged (passive w)
  | .type code => typeCmd code
  | .stru code =>
    [if code = .f then .reply 200 "STRU F ok." else .reply 504 "Unimplemented STRU type."]
  | .mode code =>
    [if code = .s then .reply 200 "MODE S ok." else .reply 502 "Unimplemented MODE type."]
  | .allo => [.reply 202 "ALLO command ignored."]
  | .retr s => w.onPath s fun _ => retrieve false w
  | .stor s => w.onPath s fun _ => store false w
  | .appe s => w.onPath s fun _ => store false w
  | .nlst => w.logged (sendFileList w)
  | .nlstString _ => w.logged (sendFileList w)
  | .list => w.logged (retrieve true w)
  | .listPath s => w.onPath s fun _ => retrieve true w
  | .statPath s => w.onPath s fun _ => statfilecmd w.files
  | .stat => statcmd w
  | .dele s => w.onPath s fun _ => delete w.files
  | .rnto s =>
    w.logged (match w.fromname with
      | some _ => renamecmd w.files (w.pathname s)
      | none => [.reply 503 "Bad sequence of commands."])
  | .abor => [.reply 225 "ABOR command successful."]
  | .cwd => w.logged (cwd w.files)
  | .cwdPath s => w.onPath s fun _ => cwd w.files
  | .help => help cmdtab none
  | .helpString s => helpString s
  | .noop => [.reply 200 "NOOP command successful."]
  | .mkd s => w.onPath s fun path => makedir w.files path
  | .rmd s => w.onPath s fun _ => removedir w.files
  | .pwd => w.logged (pwd w.files)
  | .cdup => w.logged (cwd w.files)
  | .siteHelp => help sitetab none
  | .siteHelpString s => help sitetab (some s)
  | .siteUmask => w.logged [.reply 200 "Current UMASK is %03o"]
  | .siteUmaskSet mask =>
    w.logged [if octalNumber mask = -1 ∨ 511 < octalNumber mask then .reply 501 "Bad UMASK value"
      else .reply 200 "UMASK set to %03o (was %03o)"]
  | .siteChmod mode s =>
    w.onPath s fun _ =>
      [if 511 < octalNumber mode then .reply 501 "CHMOD: Mode value must be between 0 and 0777"
      else if w.files.chmod then .reply 200 "CHMOD command successful." else perrorReply 550]
  | .siteIdle => [.reply 200 "Current IDLE time limit is %d seconds; max %d"]
  | .stou s => w.onPath s fun _ => store true w
  | .syst => [.reply 215 "%s Type: L%d Version: %s"]
  | .size s => w.onPath s fun _ => sizecmd w
  | .mdtm s => w.onPath s fun _ => mdtm w.files
  | .quit => [.reply 221 "Goodbye."]
  | .rnfr s => w.onPath s fun _ => renamefrom w.files
  | .rest _ => [.reply 350 "Restarting at %ld. %s"]

/-! ### A line -/

/-- `yyerror`. -/
def notUnderstood : Out := .reply 500 "'%s': command not understood."

def ending (w : World) : Stop → List Out
  | .action a => action w a
  | .errorCrlf => []
  | .notUnderstood => [notUnderstood]
  | .unimplemented _ => [.reply 502 "%s command not implemented."]

/-- All that is sent while a line is processed: where parts of it are reduced, where the parser
finds an error, and at its end. -/
def answer (w : World) (l : Line) : List Out :=
  l.reductions.flatMap (reduction w) ++ (if l.complained then [notUnderstood] else []) ++
    ending w l.stop

end Inetutils.Ftpd.Commands
