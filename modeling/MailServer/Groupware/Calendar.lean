import MailServer.Common.Resources
import MailServer.Email.Mailbox

/-!
# Calendars and events of an account (`groupware/src/calendar`, `common/src/storage/index.rs`)

An event is linked to calendars, under a name in each, and the index has its UID.  The type of iCalendar objects is a
parameter, with the first UID in them.

* `Account.apply`: a write of an event, with what `ObjectIndexBuilder` makes of its UID.
* `Indexed`: the index has the UIDs that are not empty.
-/

namespace MailServer.Groupware

open MailServer.Common MailServer.Utils

structure DefaultAlert where
  offset : ℤ
  withTime : Bool
  relativeToEnd : Bool
  email : Bool

structure CalendarPreferences where
  accountId : UInt32
  defaultAlerts : List DefaultAlert

/-- A calendar, which has preferences of somebody. -/
structure Calendar where
  preference : CalendarPreferences
  preferences : List CalendarPreferences
  acls : List AclGrant

/-- `preferences`, `default_alerts`. -/
def Calendar.defaultAlerts (c : Calendar) (t : AccessToken) (withTime : Bool) : List DefaultAlert :=
  let preference := ((c.preference :: c.preferences).find? fun p => p.accountId = t.accountId).getD c.preference
  preference.defaultAlerts.filter fun a => a.withTime = withTime

def EVENT_INVITE_SELF : UInt16 := 1
def EVENT_INVITE_OTHERS : UInt16 := 2
def EVENT_HIDE_ATTENDEES : UInt16 := 4
def EVENT_DRAFT : UInt16 := 8

variable {I : Type}

structure CalendarEvent (I : Type) where
  names : List DavName
  event : I
  flags : UInt16
  size : ℕ
  scheduleTag : Option ℕ

namespace CalendarEvent

def calendarIds (e : CalendarEvent I) : List ℕ := e.names.map DavName.parentId

def addedCalendarIds (e prev : CalendarEvent I) : List ℕ := e.calendarIds.filter fun id => ¬ prev.calendarIds.contains id

def removedCalendarIds (e prev : CalendarEvent I) : List ℕ :=
  prev.calendarIds.filter fun id => ¬ e.calendarIds.contains id

def unchangedCalendarIds (e prev : CalendarEvent I) : List ℕ := e.calendarIds.filter prev.calendarIds.contains

end CalendarEvent

structure Account (I : Type) where
  calendars : HashMap ℕ Calendar
  events : HashMap ℕ (CalendarEvent I)
  /-- the UIDs in the index, with the documents that have them -/
  uidIndex : Finset (String × ℕ)
  /-- the counter of document ids of events -/
  nextEventId : ℕ

variable (uid : I → Option String)

/-- The value that the index has of a UID; an empty one is not put into it. -/
def indexItem (e : Option (CalendarEvent I)) : String := (e.bind fun e => uid e.event).getD ""

/-- `build_index`. -/
def buildIndex (index : Finset (String × ℕ)) (id : ℕ) (value : String) (set : Bool) : Finset (String × ℕ) :=
  if value = "" then index else if set then insert (value, id) index else index.erase (value, id)

/-- `merge_index`, which is `build_index` where there is no value before or after. -/
def mergeIndex (index : Finset (String × ℕ)) (id : ℕ) (current changes : String) : Finset (String × ℕ) :=
  if current = changes then index else buildIndex (buildIndex index id current false) id changes true

/-- A write of a batch.  An archive that is replaced or cleared is asserted to be the one that was read. -/
structure Op (I : Type) where
  id : ℕ
  current : Option (CalendarEvent I)
  changes : Option (CalendarEvent I)

variable (hash : CalendarEvent I → UInt32)

def Account.apply (a : Account I) (op : Op I) : Option (Account I) :=
  (Email.putArchive hash a.events op.id op.current op.changes).map fun events =>
    { a with events, uidIndex := mergeIndex a.uidIndex op.id (indexItem uid op.current) (indexItem uid op.changes) }

/-- `document_exists` of a UID. -/
def Account.documentExists (a : Account I) (value : String) : Bool := decide (∃ e ∈ a.uidIndex, e.1 = value)

/-! ## The index -/

/-- The index has the UIDs that are not empty. -/
def Indexed (a : Account I) : Prop :=
  ∀ value, value ≠ "" → ∀ id, (value, id) ∈ a.uidIndex ↔ indexItem uid a.events[id]? = value

variable {uid hash} {a b : Account I} {index : Finset (String × ℕ)}

/-- **What is written to the index.** -/
theorem mem_mergeIndex {id id' : ℕ} {value current changes : String} (hvalue : value ≠ "")
    (hcurrent : (value, id) ∈ index ↔ current = value) :
    (value, id') ∈ mergeIndex index id current changes ↔ if id' = id then changes = value else (value, id') ∈ index := by
  unfold mergeIndex buildIndex
  by_cases hid : id' = id
  · rw [if_pos rfl]
    split_ifs <;> grind
  · split_ifs <;> simp [hid]

theorem Indexed.apply (h : Indexed uid a) {op : Op I} (hcurrent : indexItem uid a.events[op.id]? = indexItem uid op.current)
    (happly : a.apply uid hash op = some b) : Indexed uid b := by
  obtain ⟨events, hevents, rfl⟩ := Option.map_eq_some_iff.mp happly
  intro value hvalue id
  rw [mem_mergeIndex hvalue ((h value hvalue op.id).trans (by rw [hcurrent])), Email.putArchive_eq hevents id]
  by_cases hid : op.id = id
  · rw [if_pos hid, if_pos hid.symm]
  · rw [if_neg hid, if_neg (Ne.symm hid)]
    exact h value hvalue id

theorem indexItem_eq {e : Option (CalendarEvent I)} {value : String} (hvalue : value ≠ "") :
    indexItem uid e = value ↔ ∃ c, e = some c ∧ uid c.event = some value := by
  unfold indexItem
  cases e with
  | none => simpa using hvalue.symm
  | some c =>
    cases hc : uid c.event with
    | none => simpa [hc] using hvalue.symm
    | some v => simp [hc]

theorem Indexed.documentExists (h : Indexed uid a) {value : String} (hvalue : value ≠ "") :
    a.documentExists value = true ↔
      ∃ (id : ℕ) (e : CalendarEvent I), a.events[id]? = some e ∧ uid e.event = some value := by
  unfold Account.documentExists
  rw [decide_eq_true_iff]
  constructor
  · rintro ⟨⟨v, id⟩, hmem, rfl⟩
    exact ⟨id, (indexItem_eq hvalue).mp ((h v hvalue id).mp hmem)⟩
  · rintro ⟨id, e, he⟩
    exact ⟨(value, id), (h value hvalue id).mpr ((indexItem_eq hvalue).mpr ⟨e, he⟩), rfl⟩

end MailServer.Groupware
