import Mathlib.Init

/-!
# Collections (`types/src/collection.rs`)

The collections of an account, the collections of its change log, and their one-byte codes.
-/

namespace MailServer.Types

inductive Collection where
  | email | mailbox | thread | identity | emailSubmission | sieveScript | pushSubscription | principal
  | calendar | calendarEvent | addressBook | contactCard | fileNode | calendarEventNotification | none
  deriving DecidableEq, Repr

inductive SyncCollection where
  | email | thread | calendar | addressBook | fileNode | identity | emailSubmission | sieveScript
  | calendarEventNotification | shareNotification | none
  deriving DecidableEq, Repr

inductive VanishedCollection where
  | email | calendar | addressBook | fileNode
  deriving DecidableEq, Repr

def Collection.toU8 : Collection → UInt8
  | email => 0
  | mailbox => 1
  | thread => 2
  | identity => 3
  | emailSubmission => 4
  | sieveScript => 5
  | pushSubscription => 6
  | principal => 7
  | calendar => 8
  | calendarEvent => 9
  | addressBook => 10
  | contactCard => 11
  | fileNode => 12
  | calendarEventNotification => 13
  | none => 14

def SyncCollection.toU8 : SyncCollection → UInt8
  | email => 0
  | thread => 1
  | calendar => 2
  | addressBook => 3
  | fileNode => 4
  | identity => 5
  | emailSubmission => 6
  | sieveScript => 7
  | calendarEventNotification => 8
  | shareNotification => 9
  | none => 10

def VanishedCollection.toU8 : VanishedCollection → UInt8
  | email => 251
  | calendar => 252
  | addressBook => 253
  | fileNode => 254

def Collection.mainCollection : Collection → Collection
  | email => mailbox
  | calendarEvent => calendar
  | contactCard => addressBook
  | c => c

def Collection.childCollection : Collection → Option Collection
  | mailbox => some email
  | calendar => some calendarEvent
  | addressBook => some contactCard
  | fileNode => some fileNode
  | calendarEventNotification => some calendarEventNotification
  | _ => Option.none

theorem SyncCollection.toU8_injective {c d : SyncCollection} (h : c.toU8 = d.toU8) : c = d := by
  cases c <;> cases d <;> first | rfl | exact absurd h (by decide)

theorem VanishedCollection.toU8_injective {c d : VanishedCollection} (h : c.toU8 = d.toU8) :
    c = d := by
  cases c <;> cases d <;> first | rfl | exact absurd h (by decide)

theorem SyncCollection.toU8_ne_vanished (c : SyncCollection) (d : VanishedCollection) :
    c.toU8 ≠ d.toU8 := by
  cases c <;> cases d <;> decide

end MailServer.Types
