import Mathlib.Data.Int.Notation
import Mathlib.Data.List.Basic

/-!
# iCalendar objects (`calcard::icalendar`)

The data of the iCalendar package, as far as the server reads it.  Dates, durations, periods and recurrence rules are
kept as their text; what the package makes of them is in `Calcard`.
-/

namespace MailServer.Groupware

inductive ICalendarComponentType
  | vCalendar | vEvent | vTodo | vJournal | vFreebusy | vTimezone | vAlarm | other (name : String)
deriving DecidableEq

inductive ICalendarProperty
  | organizer | attendee | uid | sequence | recurrenceId | requestStatus | dtstamp | dtstart | dtend | duration | due
  | rrule | rdate | exdate | status | location | summary | description | priority | percentComplete | completed
  | comment | created | lastModified | action | trigger | method | version | prodid
  /-- Any other property of the registry. -/
  | iana (name : String)
  /-- `X-` and unknown properties. -/
  | other (name : String)
deriving DecidableEq

inductive ICalendarMethod
  | publish | request | reply | add | cancel | refresh | counter | declineCounter | other (name : String)
deriving DecidableEq

inductive ICalendarStatus
  | tentative | confirmed | cancelled | needsAction | completed | inProcess | draft | final | other (name : String)
deriving DecidableEq

inductive ICalendarParticipationStatus
  | needsAction | accepted | declined | tentative | delegated | completed | inProcess | other (name : String)
deriving DecidableEq

inductive ICalendarScheduleAgentValue
  | server | client | none | other (name : String)
deriving DecidableEq

inductive ICalendarParameterName
  | scheduleAgent | scheduleForceSend | scheduleStatus | cn | rsvp | partstat | cutype | delegatedFrom | delegatedTo
  | role | sentBy | tzid | range | related | other (name : String)
deriving DecidableEq

structure PartialDateTime where
  text : String
deriving DecidableEq

structure ICalendarDuration where
  text : String
deriving DecidableEq

structure ICalendarPeriod where
  text : String
deriving DecidableEq

structure ICalendarRecurrenceRule where
  text : String
deriving DecidableEq

inductive Uri
  | location (uri : String)
  | data (text : String)
deriving DecidableEq

inductive ICalendarParameterValue
  | text (s : String)
  | bool (b : Bool)
  | uri (u : Uri)
  | scheduleAgent (v : ICalendarScheduleAgentValue)
  | scheduleForceSend (v : String)
  | partstat (v : ICalendarParticipationStatus)
  | cutype (v : String)
  | role (v : String)
  | relatedStart
  | relatedEnd
  | other (text : String)
deriving DecidableEq

structure ICalendarParameter where
  name : ICalendarParameterName
  value : ICalendarParameterValue
deriving DecidableEq

inductive ICalendarValue
  | text (s : String)
  | uri (u : Uri)
  | partialDateTime (d : PartialDateTime)
  | duration (d : ICalendarDuration)
  | period (p : ICalendarPeriod)
  | recurrenceRule (r : ICalendarRecurrenceRule)
  | integer (i : ℤ)
  | status (s : ICalendarStatus)
  | method (m : ICalendarMethod)
  | other (text : String)
deriving DecidableEq

structure ICalendarEntry where
  name : ICalendarProperty
  params : List ICalendarParameter
  values : List ICalendarValue
deriving DecidableEq

structure ICalendarComponent where
  componentType : ICalendarComponentType
  entries : List ICalendarEntry
  componentIds : List ℕ
deriving DecidableEq

structure ICalendar where
  components : List ICalendarComponent
deriving DecidableEq

/-- `as_integer`. -/
def ICalendarValue.asInteger : ICalendarValue → Option ℤ
  | .integer i => some i
  | _ => none

/-- `as_partial_date_time`. -/
def ICalendarValue.asPartialDateTime : ICalendarValue → Option PartialDateTime
  | .partialDateTime d => some d
  | _ => none

/-- `as_text`. -/
def ICalendarValue.asText : ICalendarValue → Option String
  | .text s => some s
  | .uri (.location s) => some s
  | _ => none

/-- `ICalendar::component_by_id`. -/
def ICalendar.componentById (ical : ICalendar) (id : ℕ) : Option ICalendarComponent := ical.components[id]?

end MailServer.Groupware
