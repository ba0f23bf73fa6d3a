import MailServer.Lib.Nested
import MailServer.Lib.Bytes
import MailServer.Lib.Leb128
import MailServer.Store.Search.Filter
import MailServer.Store.Search.Local
import MailServer.Store.Search.Query
import MailServer.Store.Search.Split
import MailServer.Lib.Lex
import MailServer.Store.Dispatch.Search
import MailServer.Store.Dispatch.Destroy
import MailServer.Store.Dispatch.Lock
import MailServer.Store.Write.Blob
import MailServer.Store.Write.ChangeLog
import MailServer.Store.Write.Resolve
import MailServer.Jmap.Client
import MailServer.ImapProto.Limit
import MailServer.Imap.Allowed
import MailServer.Imap.Literal
import MailServer.Imap.Announce
import MailServer.Jmap.Email.Copy
import MailServer.Store.Registry.Runs
import MailServer.Store.Registry.Pages
import MailServer.Jmap.Mailbox.Concurrent
import MailServer.Imap.UnchangedSince
import MailServer.Jmap.CalendarEvent.Uids
import MailServer.Groupware.Cache
import MailServer.Dav.Disclosure
import MailServer.Store.Dispatch.Purge
import MailServer.Services.TaskManager
import MailServer.Utils.Topological
import MailServer.Email.MailboxCache
import MailServer.Imap.CopyMove
import MailServer.Email.Operations
import MailServer.Dav.CopyMove.Invariants
import MailServer.Common.Permissions
import MailServer.Groupware.Calendar.NextAlarm
import MailServer.Jmap.QueryChanges
import MailServer.Groupware.Scheduling.Notices
import MailServer.Groupware.Scheduling.Replies
import MailServer.Groupware.Scheduling.Ingest
import MailServer.Groupware.Scheduling.Requests
import MailServer.Smtp.Outbound.Deliver
import MailServer.Smtp.Queue.Locks
import MailServer.Smtp.Queue.Quotas
import MailServer.Smtp.Queue.Updates
import MailServer.Smtp.Queue.Reports
import MailServer.Dav.Locks.Runs
import MailServer.Imap.Upgrade
import MailServer.Smtp.Inbound.Runs
import MailServer.JmapProto.References.Resolve
import MailServer.Imap.Pattern
import MailServer.Jmap.Window
import MailServer.Lib.Slices
import MailServer.Lib.Base64
import MailServer.Store.Dispatch.Blob
import MailServer.Jmap.Blob
import MailServer.JmapProto.References.Cycles
import MailServer.Lib.Utf8
import MailServer.Smtp.Throttle
import MailServer.Smtp.Queue.HasQuota
import MailServer.Smtp.Inbound.Ingest
import MailServer.Smtp.Inbound.Chunks
import MailServer.Lib.Postfix
import MailServer.Common.Expr.Variable
import MailServer.Common.Expr.Parser
import MailServer.Common.Expr.Tree
import MailServer.Common.Expr.Parses
import MailServer.Common.Expr.Eval
import MailServer.Common.Expr.Correct
import MailServer.Types.Keyword
import MailServer.Email.MessageCache
import MailServer.Email.CachedMessages
import MailServer.Lib.Loop
import MailServer.Lib.Wildcards
import MailServer.Utils.Glob
import MailServer.Utils.GlobSet
import MailServer.Utils.Cron
import MailServer.Utils.SuffixList
import MailServer.Utils.Template
import MailServer.Utils.Template.Eval
import MailServer.Utils.Leb128
import MailServer.Common.Expr.Order
import MailServer.Store.Write.Serialize
import MailServer.Store.Write.Archive
import MailServer.Imap.Untagged
import MailServer.Store.Write.Empty
import MailServer.Imap.Search
import MailServer.ImapProto.Flag
import MailServer.Lib.Utf16
import MailServer.Types.Blob
import MailServer.ImapProto.Utf7
import MailServer.Groupware.FileHierarchy
