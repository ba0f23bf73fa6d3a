import Mathlib.Tactic.Common

/-!
# Roles of mailboxes (`types/src/special_use.rs`)
-/

namespace MailServer.Types

inductive SpecialUse where
  | inbox | trash | junk | drafts | archive | sent | shared | important | none | memos | scheduled | snoozed
  deriving DecidableEq

def SpecialUse.asStr : SpecialUse → Option String
  | inbox => some "inbox"
  | trash => some "trash"
  | junk => some "junk"
  | drafts => some "drafts"
  | archive => some "archive"
  | sent => some "sent"
  | shared => some "shared"
  | important => some "important"
  | memos => some "memos"
  | scheduled => some "scheduled"
  | snoozed => some "snoozed"
  | none => Option.none

end MailServer.Types
