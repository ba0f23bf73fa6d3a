import MailServer.Groupware.ICalendar
import MailServer.Lib.Earliest
import MailServer.Store.Write.Bitpack
import Mathlib.Data.List.Infix

/-!
# Alarms of stored events (`groupware/src/calendar/alarm.rs`)

A stored event keeps the starts of its instances as offsets from a base, one packed list for each component, duration
and pair of time zones.  Time zones and dates are those of the iCalendar package and of `chrono`: a parameter.

* `expandAlarm`: a `VALARM` component as an alarm.
* `nextAlarm`: the search over the stored instances.
-/

namespace MailServer.Groupware

open MailServer.Lib MailServer.Store.Write

inductive AlarmDelta
  | start (delta : ℤ) | «end» (delta : ℤ) | fixedUtc (timestamp : ℤ) | fixedFloating (timestamp : ℤ)
deriving DecidableEq

structure Alarm where
  id : ℕ
  parentId : ℕ
  delta : AlarmDelta
  isEmailAlert : Bool
deriving DecidableEq

inductive CalendarAlarmType
  | email (eventStart : ℤ) (eventStartTz : UInt16) (eventEnd : ℤ) (eventEndTz : UInt16)
  | display (recurrenceId : Option ℤ)
deriving DecidableEq

structure CalendarAlarm where
  alarmId : ℕ
  eventId : ℕ
  alarmTime : ℤ
  typ : CalendarAlarmType
deriving DecidableEq

structure ComponentTimeRange where
  id : ℕ
  startTz : UInt16
  endTz : UInt16
  duration : ℤ
  instances : List UInt8

structure CalendarEventData where
  event : ICalendar
  timeRanges : List ComponentTimeRange
  alarms : List Alarm
  baseOffset : ℤ
  baseTimeUtc : ℕ
  duration : ℕ

/-- Time zones (`Tz`) and what is read with them. -/
structure Zones (Tz : Type) where
  floating : Tz
  isFloating : Tz → Bool
  fromId : UInt16 → Option Tz
  asId : Tz → UInt16
  fromStr : String → Option Tz
  /-- The time of a local time, where there is exactly one: `from_local_datetime(..).single()`. -/
  localTimestamp : Tz → ℤ → Option ℤ
  /-- `to_date_time_with_tz`: the time, and the zone it is in. -/
  toDateTime : PartialDateTime → Tz → Option (ℤ × Tz)
  seconds : ICalendarDuration → ℤ
  isRecurrentOrOverride : ICalendarComponent → Bool

variable {Tz : Type} (Z : Zones Tz) (P : BitPacker)

/-- `AlarmDelta::to_timestamp`. -/
def AlarmDelta.toTimestamp (start «end» : ℤ) (defaultTz : Tz) : AlarmDelta → Option ℤ
  | .start delta => some (start + delta)
  | .end delta => some («end» + delta)
  | .fixedUtc timestamp => some timestamp
  | .fixedFloating timestamp => Z.localTimestamp defaultTz timestamp

section

/-- The parameters of a trigger: its zone, and whether it counts from the start. -/
def triggerParams (params : List ICalendarParameter) : Option Tz × Bool :=
  params.foldl (fun (tz, triggerStart) param =>
    match param.name, param.value with
    | .related, .relatedStart => (tz, true)
    | .related, .relatedEnd => (tz, false)
    | .tzid, .text tzId => (Z.fromStr tzId, triggerStart)
    | _, _ => (tz, triggerStart)) (none, true)

/-- `TRIGGER`. -/
def triggerDelta (params : List ICalendarParameter) : ICalendarValue → Option AlarmDelta
  | .partialDateTime dt =>
    (Z.toDateTime dt ((triggerParams Z params).1.getD Z.floating)).map fun dt =>
      if Z.isFloating dt.2 then .fixedFloating dt.1 else .fixedUtc dt.1
  | .duration duration =>
    some (if (triggerParams Z params).2 then .start (Z.seconds duration) else .end (Z.seconds duration))
  | _ => none

/-- One property of the component, which has no alarm where a trigger has no value. -/
def expandEntry (alarm : Option AlarmDelta × Bool) (entry : ICalendarEntry) : Option (Option AlarmDelta × Bool) :=
  let text := entry.values.head?.bind ICalendarValue.asText
  match entry.name with
  | .trigger => entry.values.head?.map fun value => (triggerDelta Z entry.params value, alarm.2)
  | .action => some (alarm.1, alarm.2 || text.any fun v => v.toList.map Char.toLower = "email".toList)
  | .summary | .description => some (alarm.1, alarm.2 || text.any fun v => "@email".toList <:+: v.toList)
  | _ => some alarm

/-- `expand_alarm`. -/
def expandAlarm (comp : ICalendarComponent) (id parentId : ℕ) : Option Alarm := do
  let (trigger, isEmailAlert) ← comp.entries.foldlM (expandEntry Z) (none, false)
  let delta ← trigger
  pure ⟨id, parentId, delta, isEmailAlert⟩

end

/-- A floating zone is replaced by the default one. -/
def Zones.orDefault (defaultTz tz : Tz) : Tz :=
  if Z.isFloating tz && !Z.isFloating defaultTz then defaultTz else tz

/-- The alarm of an instance: its time, and what it shows. -/
def Alarm.fire (event : ICalendar) (alarm : Alarm) (alarmTime start «end» : ℤ) (startTz endTz : UInt16) :
    CalendarAlarm where
  alarmId := alarm.id
  eventId := alarm.parentId
  alarmTime := alarmTime
  typ :=
    if alarm.isEmailAlert then .email start startTz «end» endTz
    else .display (if (event.componentById alarm.parentId).any Z.isRecurrentOrOverride then some start else none)

/-- The instance of a range at an offset: none stops the search, where a local time is not that of one instant. -/
def ComponentTimeRange.resolve (range : ComponentTimeRange) (baseOffset : ℤ) (startTz endTz : Tz) (offset : ℕ) :
    Option (ℤ × ℤ) := do
  let start ← Z.localTimestamp startTz (offset + baseOffset)
  let «end» ← Z.localTimestamp endTz (offset + baseOffset + range.duration)
  pure (start, «end»)

/-- The instances of a range up to the first whose alarm is after `startTime` and before the best one so far. -/
def ComponentTimeRange.scan (event : ICalendar) (baseOffset startTime : ℤ) (defaultTz : Tz) (range : ComponentTimeRange)
    (alarm : Alarm) (startTz endTz : Tz) (next : Option CalendarAlarm) : List ℕ → Option (Option CalendarAlarm)
  | [] => some next
  | offset :: offsets =>
    match range.resolve Z baseOffset startTz endTz offset with
    | none => none
    | some (start, «end») =>
      match alarm.delta.toTimestamp Z start «end» defaultTz with
      | none => range.scan event baseOffset startTime defaultTz alarm startTz endTz next offsets
      | some alarmTime =>
        let found := alarm.fire Z event alarmTime (offset + baseOffset) (offset + baseOffset + range.duration)
          (Z.asId startTz) (Z.asId endTz)
        if better CalendarAlarm.alarmTime startTime next found then some (some found)
        else range.scan event baseOffset startTime defaultTz alarm startTz endTz next offsets

/-- The offsets of a range: the packed list of a recurring event, or the only one. -/
def ComponentTimeRange.offsets (range : ComponentTimeRange) : Option (List ℕ) :=
  (readLeb128 32 5 0 0 range.instances).map fun (offsetOrCount, rest) =>
    if rest = [] then [offsetOrCount] else (BitpackIterator.new rest offsetOrCount).toList P

/-- A range: of the alarms of its component the first one that is stored. -/
def CalendarEventData.searchRange (data : CalendarEventData) (startTime : ℤ) (defaultTz : Tz)
    (next : Option CalendarAlarm) (range : ComponentTimeRange) : Option (Option CalendarAlarm) :=
  match data.alarms.find? fun alarm => alarm.parentId = range.id with
  | none => some next
  | some alarm => do
    let offsets ← range.offsets P
    let startTz ← Z.fromId range.startTz
    let endTz ← Z.fromId range.endTz
    range.scan Z data.event data.baseOffset startTime defaultTz alarm (Z.orDefault defaultTz startTz)
      (Z.orDefault defaultTz endTz) next offsets

/-- `ArchivedCalendarEventData::next_alarm`. -/
def CalendarEventData.nextAlarm (data : CalendarEventData) (startTime : ℤ) (defaultTz : Tz) : Option CalendarAlarm :=
  if data.alarms = [] then none
  else (data.timeRanges.foldlM (data.searchRange Z P startTime defaultTz) none).join

end MailServer.Groupware
