import Inetutils.Telnetd.Login
import Inetutils.Syslogd.Repeats
import Inetutils.Syslogd.Forward
import Inetutils.Syslogd.Klog
import Inetutils.Tftp.Access
import Inetutils.Tftp.Numbers
import Inetutils.Telnet.Restart
import Inetutils.Telnet.Ring.Refine
import Inetutils.Telnet.Encryption
import Inetutils.Telnetd.Synch
import Inetutils.Session.PtyOutput
import Inetutils.Session.Characters
import Inetutils.Session.Environment
import Inetutils.Session.Negotiation
import Inetutils.Telnet.Overrun
import Inetutils.Inetd.Configured
import Inetutils.Ftpd.Login
import Inetutils.Ftp.Remglob
import Inetutils.Ftp.Domacro
import Inetutils.Ftp.Ruserpass
import Inetutils.Ftp.Quote
import Inetutils.Ping.Pattern
import Inetutils.Ping.Loop
import Inetutils.Ftp.Restart
import Inetutils.Ftpd.Urgent
import Inetutils.Ftpd.Sequence
import Inetutils.Ftpd.Replies
import Inetutils.Ftpd.Descriptors
import Inetutils.Rcp.Copy
import Inetutils.Rcp.Fidelity
import Inetutils.Ftp.Getreply
import Inetutils.Ftp.Transfers
import Inetutils.Libinetutils.Ttymsg
import Inetutils.Rlogin.Window
import Inetutils.Talkd.Process
import Inetutils.Telnet.Synchrony
import Inetutils.Syslogd.Printline
import Inetutils.Tftp.Request
import Inetutils.Tftp.FinalAck
import Inetutils.Telnetd.Auth
import Inetutils.Telnetd.Status
import Inetutils.Telnetd.Suboption
import Inetutils.Telnetd.ExpandText
import Inetutils.Ftp.Types
import Inetutils.Ftp.Newer
import Inetutils.Ftp.Mapping
import Inetutils.Ftpd.Conf
import Inetutils.Ftpd.Site
import Inetutils.Syslogd.Crunch
import Inetutils.Ftpd.Popen
import Inetutils.Syslogd.Users
import Inetutils.Syslogd.Meaning
import Inetutils.Syslogd.Init
import Inetutils.Libtelnet.Genget
import Inetutils.Talkd.Announce
import Inetutils.Libinetutils.Writev
import Inetutils.Libtelnet.EncDes
import Inetutils.Libtelnet.AuthSend
import Inetutils.Talkd.Netdef
import Inetutils.Libinetutils.Argcv
import Inetutils.Libinetutils.DesRw
import Inetutils.Ifconfig.PrintInterface
import Inetutils.Rshd.SourceRoute
import Inetutils.Ftpd.Gunique
import Inetutils.Talk.Transact
import Inetutils.Inetd.Looping
import Inetutils.Whois.Crsnic
import Inetutils.Libls.Columns
import Inetutils.Telnet.Makeargv
import Inetutils.Traceroute.Hops
import Inetutils.Session.Control
import Inetutils.Session.Terminals
