import MailServer.Groupware.ICalendar
import Mathlib.Data.Finset.Basic
import Mathlib.Data.List.AList
import Mathlib.Data.List.DropRight

/-!
# Scheduling messages (`scheduling/mod.rs`)

What is read of an event for scheduling, and the messages about it.  The lines of a message's summary, which are the text
of the e-mail that notifies a person, are left out, with the names of the participants that only they show.
-/

namespace MailServer.Groupware

/-- Which instance of an event a component is about.  The entry of a `RecurrenceId`, which its comparison does not look
at, is left out. -/
structure RecurrenceId where
  date : ℤ
  thisAndFuture : Bool
deriving DecidableEq

inductive InstanceId
  | main
  | recurrence (id : RecurrenceId)
deriving DecidableEq

/-- What scheduling takes from the iCalendar package, the time zone data, the clock, the hasher and Unicode. -/
structure Calcard where
  /-- `ICalendarComponentType::is_scheduling_object`. -/
  isSchedulingObject : ICalendarComponentType → Bool
  not_vCalendar : isSchedulingObject .vCalendar = false
  not_vTimezone : isSchedulingObject .vTimezone = false
  /-- `ICalendarEntry::tz_id`. -/
  tzId : ICalendarEntry → Option String
  /-- The time of a date in the zone that the object's resolver has for a name. -/
  timestamp : ICalendar → Option String → PartialDateTime → ℤ
  /-- `ICalendarComponent::status`. -/
  status : ICalendarComponent → Option ICalendarStatus
  now : PartialDateTime
  /-- `copy_timezones`: the message with the time zones of the object. -/
  copyTimezones : ICalendar → ICalendar → ICalendar
  /-- Time zones come in, with what stands in them, and the root lists them. -/
  mem_copyTimezones : ∀ message ical, ∀ c ∈ (copyTimezones message ical).components,
    c ∈ message.components ∨ c.componentType = .vCalendar ∨ c.componentType = .vTimezone ∨
      ∃ tz ∈ ical.components, tz.componentType = .vTimezone ∧ ∃ i ∈ tz.componentIds, ical.components[i]? = some c
  /-- Nothing else of the message changes. -/
  copyTimezones_kept : ∀ message ical, ∀ c ∈ message.components, c.componentType ≠ .vCalendar →
    c ∈ (copyTimezones message ical).components
  /-- `remove_component_ids`. -/
  removeComponentIds : ICalendar → List ℕ → ICalendar
  /-- `str::to_lowercase`. -/
  toLowercase : String → String
  /-- The order in which a hash table is iterated. -/
  iter {α : Type} : List α → List α
  iter_perm {α : Type} (l : List α) : (iter l).Perm l
  /-- `sort_unstable` and `dedup` on instances; the order, for which the entries of the ids count, is left open. -/
  sortInstances : List InstanceId → List InstanceId
  mem_sortInstances : ∀ l x, x ∈ sortInstances l ↔ x ∈ l

variable (C : Calcard)

structure Email where
  email : String
  isLocal : Bool
deriving DecidableEq

/-- `char::is_whitespace`. -/
def isWhitespace (c : Char) : Bool :=
  c.toNat ∈ [9, 10, 11, 12, 13, 32, 133, 160, 5760, 8192, 8193, 8194, 8195, 8196, 8197, 8198, 8199, 8200, 8201, 8202,
    8232, 8233, 8239, 8287, 12288]

/-- `str::trim`. -/
def trim (s : List Char) : List Char := (s.dropWhile isWhitespace).rdropWhile isWhitespace

/-- `str::trim_start_matches`, which takes the pattern off at most as often as there are characters. -/
def trimStartMatches (pattern : List Char) : ℕ → List Char → List Char
  | 0, s => s
  | n + 1, s => if pattern.isPrefixOf s then trimStartMatches pattern n (s.drop pattern.length) else s

/-- `Email::new`. -/
def Email.new (email : String) (localAddresses : List String) : Option Email :=
  if '@' ∈ email.toList then
    let trimmed := trim email.toList
    let email := C.toLowercase (String.ofList (trimStartMatches "mailto:".toList trimmed.length trimmed))
    some ⟨email, email ∈ localAddresses⟩
  else none

/-- `Email::from_uri`. -/
def Email.fromUri (uri : Uri) (localAddresses : List String) : Option Email :=
  match uri with
  | .location uri => Email.new C uri localAddresses
  | .data _ => none

/-- How an address is written in a property. -/
def Email.toUri (email : Email) : String := "mailto:" ++ email.email

structure Organizer where
  email : Email
  isServerScheduling : Bool
  forceSend : Option String
deriving DecidableEq

structure Attendee where
  entryId : ℕ
  email : Email
  partStat : Option ICalendarParticipationStatus
  delegatedFrom : List Email
  delegatedTo : List Email
  role : Option String
  cuType : Option String
  sentBy : Option Email
  rsvp : Option Bool
  isServerScheduling : Bool
  forceSend : Option String
deriving DecidableEq

/-- What two attendees are compared by. -/
structure AttendeeKey where
  email : String
  partStat : Option ICalendarParticipationStatus
  delegatedFrom : List String
  delegatedTo : List String
  role : Option String
  cuType : Option String
  sentBy : Option String
deriving DecidableEq

namespace Attendee

def key (a : Attendee) : AttendeeKey where
  email := a.email.email
  partStat := a.partStat
  delegatedFrom := a.delegatedFrom.map Email.email
  delegatedTo := a.delegatedTo.map Email.email
  role := a.role
  cuType := a.cuType
  sentBy := a.sentBy.map Email.email

def sendInviteMessages (a : Attendee) : Bool :=
  !a.email.isLocal && a.isServerScheduling && a.rsvp.getD true &&
    (a.forceSend.isSome || a.partStat.all (· = .needsAction))

def sendUpdateMessages (a : Attendee) : Bool :=
  !a.email.isLocal && a.isServerScheduling && a.rsvp.getD true &&
    (a.forceSend.isSome || a.partStat.all (· ≠ .declined))

theorem update_of_invite {a : Attendee} (h : a.sendInviteMessages = true) : a.sendUpdateMessages = true := by
  simp only [sendInviteMessages, sendUpdateMessages, Bool.and_eq_true, Bool.or_eq_true] at h ⊢
  refine ⟨h.1, h.2.imp_right fun hstat => ?_⟩
  cases hp : a.partStat with
  | none => rfl
  | some p =>
    rw [hp] at hstat
    have hneeds : p = .needsAction := of_decide_eq_true hstat
    rw [hneeds]
    rfl

end Attendee

/-- A value of a tracked property; dates are compared by their time. -/
inductive ItipEntryValue
  | dateTime (timestamp : ℤ)
  | period (p : ICalendarPeriod)
  | duration (d : ICalendarDuration)
  | status (s : ICalendarStatus)
  | rrule (r : ICalendarRecurrenceRule)
  | text (s : String)
  | integer (i : ℤ)
deriving DecidableEq

structure ItipEntry where
  name : ICalendarProperty
  value : ItipEntryValue
deriving DecidableEq

structure ItipSnapshot where
  compId : ℕ
  comp : ICalendarComponent
  attendees : List Attendee
  dtstamp : Option PartialDateTime
  entries : Finset ItipEntry
  sequence : Option ℤ
  requestStatus : List String
deriving DecidableEq

structure ItipSnapshots where
  organizer : Organizer
  uid : String
  components : AList fun _ : InstanceId => ItipSnapshot

inductive ItipError
  | noSchedulingInfo
  | otherSchedulingAgent
  | notOrganizer
  | notOrganizerNorAttendee
  | nothingToSend
  | missingUid
  | multipleUid
  | multipleOrganizer
  | multipleObjectTypes
  | multipleObjectInstances
  | cannotModifyProperty (property : ICalendarProperty)
  | cannotModifyInstance
  | cannotModifyAddress
  | organizerMismatch
  | missingMethod
  | invalidComponentType
  | outOfSequence
  | organizerIsLocalAddress
  | senderIsNotOrganizerNorAttendee
  | senderIsNotParticipant (participant : String)
  | unknownParticipant (participant : String)
  | unsupportedMethod (method : ICalendarMethod)
  | iCalendarParseError
  | eventNotFound
  | eventTooLarge
  | quotaExceeded
  | noDefaultCalendar
  | autoAddDisabled
deriving DecidableEq

inductive ItipSummary
  | invite
  | update (method : ICalendarMethod)
  | cancel
  | rsvp (partStat : ICalendarParticipationStatus)
deriving DecidableEq

/-- `ItipSummary::method`: the method of the message, as its e-mail names it. -/
def ItipSummary.method : ItipSummary → ICalendarMethod
  | .invite => .request
  | .update method => method
  | .cancel => .cancel
  | .rsvp _ => .reply

structure ItipMessage where
  «from» : String
  fromOrganizer : Bool
  «to» : List String
  summary : ItipSummary
  message : ICalendar
deriving DecidableEq

/-- A map in the order in which it is iterated. -/
def Calcard.entries {K V : Type} (m : AList fun _ : K => V) : List (K × V) :=
  C.iter (m.entries.map fun e => (e.1, e.2))

variable {C}

theorem Calcard.mem_iter {α : Type} {l : List α} {x : α} : x ∈ C.iter l ↔ x ∈ l := (C.iter_perm l).mem_iff

theorem Calcard.mem_entries {K V : Type} [DecidableEq K] {m : AList fun _ : K => V} {k : K} {v : V} :
    (k, v) ∈ C.entries m ↔ m.lookup k = some v := by
  rw [Calcard.entries, Calcard.mem_iter, List.mem_map]
  constructor
  · rintro ⟨⟨k', v'⟩, hmem, heq⟩
    obtain ⟨rfl, rfl⟩ := Prod.mk.inj heq
    exact AList.mem_lookup_iff.mpr hmem
  · intro h
    exact ⟨⟨k, v⟩, AList.mem_lookup_iff.mp h, rfl⟩

/-- The seconds since 1970 of the dates of January 2025 at nine o'clock. -/
def januaryTimestamp (date : PartialDateTime) : ℤ :=
  match date.text.toList with
  | ['2', '0', '2', '5', '0', '1', d, e, 'T', '0', '9', '0', '0', '0', '0', 'Z'] =>
    1735722000 + 86400 * (((d.toNat - 48) * 10 + (e.toNat - 48) : ℕ) - 1 : ℤ)
  | _ => 0

/-- The package on objects without time zones, whose dates are in January 2025 at nine o'clock. -/
def januaryCalcard : Calcard where
  isSchedulingObject
    | .vEvent | .vTodo | .vJournal | .vFreebusy => true
    | _ => false
  not_vCalendar := rfl
  not_vTimezone := rfl
  tzId entry := entry.params.findSome? fun param =>
    match param.name, param.value with
    | .tzid, .text id => some id
    | _, _ => none
  timestamp _ _ date := januaryTimestamp date
  status comp := comp.entries.findSome? fun entry =>
    match entry.name, entry.values with
    | .status, .status status :: _ => some status
    | _, _ => none
  now := ⟨"20250101T090000Z"⟩
  copyTimezones message _ := message
  mem_copyTimezones _ _ _ h := Or.inl h
  copyTimezones_kept _ _ _ h _ := h
  sortInstances l := l.dedup
  mem_sortInstances _ _ := List.mem_dedup
  removeComponentIds ical ids :=
    ⟨(ical.components.zipIdx.filter fun c => c.2 ∉ ids).map fun c =>
      { c.1 with componentIds := (c.1.componentIds.filter fun i => i ∉ ids).map fun i =>
        i - (ids.dedup.filter (· < i)).length }⟩
  toLowercase s := String.ofList (s.toList.map Char.toLower)
  iter l := l
  iter_perm _ := .rfl

/-- A meeting that `o@x` holds on the second of January, or the instance of it on another day. -/
def meetingOf (attendees : List ICalendarEntry) (location : String) (recurrenceId : Option String) :
    ICalendarComponent where
  componentType := .vEvent
  entries := [⟨.uid, [], [.text "u"]⟩, ⟨.organizer, [], [.text "mailto:o@x"]⟩] ++ attendees ++
    [⟨.dtstart, [], [.partialDateTime ⟨recurrenceId.getD "20250102T090000Z"⟩]⟩, ⟨.location, [], [.text location]⟩] ++
    recurrenceId.toList.map fun date => ⟨.recurrenceId, [], [.partialDateTime ⟨date⟩]⟩
  componentIds := []

def attendee (email : String) : ICalendarEntry := ⟨.attendee, [], [.text ("mailto:" ++ email)]⟩

/-- An object with one root. -/
def calendarOf (components : List ICalendarComponent) : ICalendar :=
  ⟨⟨.vCalendar, [], List.range' 1 components.length⟩ :: components⟩

end MailServer.Groupware
