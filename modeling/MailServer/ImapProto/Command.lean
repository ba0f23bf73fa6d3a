import MailServer.ImapProto.Receiver

/-!
# The commands of IMAP (`imap-proto/src/lib.rs`, `imap-proto/src/parser/mod.rs`)
-/

namespace MailServer.ImapProto

/-- The flag of a command tells whether it came with `UID`. -/
inductive Command where
  | capability
  | noop
  | logout
  | startTls
  | authenticate
  | login
  | enable
  | select
  | examine
  | create
  | delete
  | rename
  | subscribe
  | unsubscribe
  | list
  | namespaces
  | status
  | append
  | idle
  | close
  | unselect
  | expunge (isUid : Bool)
  | search (isUid : Bool)
  | fetch (isUid : Bool)
  | store (isUid : Bool)
  | copy (isUid : Bool)
  | move (isUid : Bool)
  | lsub
  | check
  | sort (isUid : Bool)
  | thread (isUid : Bool)
  | setAcl
  | deleteAcl
  | getAcl
  | listRights
  | myRights
  | unauthenticate
  | id
  | getQuota
  | getQuotaRoot
  deriving DecidableEq

/-- The names of the commands, without and with `UID`. -/
def COMMANDS (uid : Bool) : List (String × Command) := [
  ("CAPABILITY", .capability),
  ("NOOP", .noop),
  ("LOGOUT", .logout),
  ("STARTTLS", .startTls),
  ("AUTHENTICATE", .authenticate),
  ("LOGIN", .login),
  ("ENABLE", .enable),
  ("SELECT", .select),
  ("EXAMINE", .examine),
  ("CREATE", .create),
  ("DELETE", .delete),
  ("RENAME", .rename),
  ("SUBSCRIBE", .subscribe),
  ("UNSUBSCRIBE", .unsubscribe),
  ("LIST", .list),
  ("NAMESPACE", .namespaces),
  ("STATUS", .status),
  ("APPEND", .append),
  ("IDLE", .idle),
  ("CLOSE", .close),
  ("UNSELECT", .unselect),
  ("EXPUNGE", .expunge uid),
  ("SEARCH", .search uid),
  ("FETCH", .fetch uid),
  ("STORE", .store uid),
  ("COPY", .copy uid),
  ("MOVE", .move uid),
  ("SORT", .sort uid),
  ("THREAD", .thread uid),
  ("LSUB", .lsub),
  ("CHECK", .check),
  ("SETACL", .setAcl),
  ("DELETEACL", .deleteAcl),
  ("GETACL", .getAcl),
  ("LISTRIGHTS", .listRights),
  ("MYRIGHTS", .myRights),
  ("UNAUTHENTICATE", .unauthenticate),
  ("ID", .id),
  ("GETQUOTA", .getQuota),
  ("GETQUOTAROOT", .getQuotaRoot)]

namespace Command

def parse (value : List UInt8) (uid : Bool) : Option Command :=
  ((COMMANDS uid).find? fun entry => ascii entry.1 == value).map Prod.snd

/-- Only the arguments of FETCH hold brackets. -/
def tokenizeBrackets : Command → Bool
  | .fetch _ => true
  | _ => false

instance : CommandParser Command where
  default := .noop
  parse := parse
  tokenizeBrackets := tokenizeBrackets

end Command

end MailServer.ImapProto
