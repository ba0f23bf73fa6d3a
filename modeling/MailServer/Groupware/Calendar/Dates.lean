import MailServer.Groupware.Calendar.Alarm
import MailServer.Utils.HashSet
import MailServer.Utils.VecMap

/-!
# Stored events (`groupware/src/calendar/dates.rs`)

The instances of an event, as the iCalendar package expands them, are grouped by time zones, component and duration and
packed; on the way the next alarm is searched, over every alarm of every instance.

* `CalendarEventData.new`: the stored event and the next alarm.
* `newAlarm_eq`: the next alarm is the earliest one after the present.
-/

namespace MailServer.Groupware

open MailServer.Lib MailServer.Store.Write MailServer.Utils List

/-- A time in a zone, with the local time there. -/
structure DateTime (Tz : Type) where
  timestamp : ℤ
  naive : ℤ
  timezone : Tz

inductive TimeOrDelta (Tz : Type)
  | time (t : DateTime Tz)
  | delta (seconds : ℤ)

/-- An instance of the expansion. -/
structure ExpandedEvent (Tz : Type) where
  compId : ℕ
  start : DateTime Tz
  «end» : TimeOrDelta Tz

open ExpandedEvent

variable {Tz : Type} (Z : Zones Tz) (P : BitPacker)

/-- The end of an instance: its time, the local one, and the zone. -/
def ExpandedEvent.ends (e : ExpandedEvent Tz) : DateTime Tz :=
  match e.end with
  | .time t => t
  | .delta seconds => ⟨e.start.timestamp + seconds, e.start.naive + seconds, e.start.timezone⟩

/-- The alarms of a component, in its order. -/
def ICalendar.alarmsOf (ical : ICalendar) (compId : ℕ) : List Alarm :=
  ((ical.componentById compId).elim [] ICalendarComponent.componentIds).filterMap fun alarmId =>
    (ical.componentById alarmId).bind fun alarm =>
      if alarm.componentType = .vAlarm then expandAlarm Z alarm alarmId compId else none

structure TimeRanges where
  maxTimeUtc : ℤ
  minTimeUtc : ℤ
  baseOffset : ℤ

/-- `update_base_offset`. -/
def TimeRanges.updateBaseOffset (r : TimeRanges) (t1 t2 : ℤ) : TimeRanges :=
  if min t1 t2 < r.baseOffset ∨ r.baseOffset = 0 then { r with baseOffset := min t1 t2 } else r

/-- `update_utc_min_max`. -/
def TimeRanges.updateUtcMinMax (r : TimeRanges) (min max : ℤ) : TimeRanges where
  minTimeUtc := if min < r.minTimeUtc ∨ r.minTimeUtc = 0 then min else r.minTimeUtc
  maxTimeUtc := if max > r.maxTimeUtc then max else r.maxTimeUtc
  baseOffset := if min < r.baseOffset ∨ r.baseOffset = 0 then min else r.baseOffset

/-- The alarm of an instance, where it has a time. -/
def ExpandedEvent.fire (ical : ICalendar) (defaultTz : Tz) (e : ExpandedEvent Tz) (alarm : Alarm) :
    Option CalendarAlarm :=
  (alarm.delta.toTimestamp Z e.start.timestamp e.ends.timestamp defaultTz).map fun alarmTime =>
    alarm.fire Z ical alarmTime e.start.naive e.ends.naive (Z.asId e.start.timezone) (Z.asId e.ends.timezone)

/-- One alarm of an instance: the least and the greatest time so far, and the next alarm. -/
def ExpandedEvent.alarmStep (ical : ICalendar) (defaultTz : Tz) (now : ℤ) (e : ExpandedEvent Tz)
    (acc : ℤ × ℤ × Option CalendarAlarm) (alarm : Alarm) : ℤ × ℤ × Option CalendarAlarm :=
  match e.fire Z ical defaultTz alarm with
  | none => acc
  | some found =>
    (if found.alarmTime < acc.1 then found.alarmTime else acc.1,
      if found.alarmTime > acc.2.1 then found.alarmTime else acc.2.1,
      pick CalendarAlarm.alarmTime now acc.2.2 found)

/-- The instances that are stored together. -/
structure Group where
  startTz : UInt16
  endTz : UInt16
  compId : ℕ
  duration : ℤ
deriving DecidableEq

/-- A number as `i32`. -/
def asI32 (x : ℤ) : ℤ := x.bmod 4294967296

/-- A number as `u32`. -/
def asU32 (x : ℤ) : ℕ := (x.emod 4294967296).toNat

def ExpandedEvent.group (e : ExpandedEvent Tz) : Group :=
  ⟨Z.asId e.start.timezone, Z.asId e.ends.timezone, e.compId, asI32 (e.ends.naive - e.start.naive)⟩

/-- What is gathered over the instances. -/
structure Gathered where
  ranges : TimeRanges
  groups : VecMap Group (List ℤ)
  alarms : VecMap ℕ (List Alarm)
  next : Option CalendarAlarm

open Gathered

/-- One instance. -/
def Gathered.add (ical : ICalendar) (defaultTz : Tz) (now : ℤ) (g : Gathered) (e : ExpandedEvent Tz) : Gathered :=
  let alarms := ical.alarmsOf Z e.compId
  let acc := alarms.foldl (e.alarmStep Z ical defaultTz now)
    (min e.start.timestamp e.ends.timestamp, max e.start.timestamp e.ends.timestamp, g.next)
  { ranges := (g.ranges.updateBaseOffset e.start.naive e.ends.naive).updateUtcMinMax acc.1 acc.2.1
    groups := g.groups.alter (e.group Z) fun instances => instances ++ [e.start.naive]
    -- `or_insert_with`: a component that occurs again has the same alarms
    alarms := g.alarms.alter e.compId fun _ => alarms
    next := acc.2.2 }

/-- The instances of a group: packed where there are several. -/
def storeInstances (baseOffset : ℤ) (instances : List ℤ) : List UInt8 :=
  match instances with
  | [start] => leb128 (asU32 (start - baseOffset))
  | _ => bitpackSorted P ((instances.mergeSort fun a b => a ≤ b).map fun start => asU32 (start - baseOffset))

/-- `CalendarEventData::new`, with the expansion of the event and the orders in which the hash maps are visited. -/
def CalendarEventData.new (groupOrder : HashOrder Group) (compOrder : HashOrder ℕ) (ical : ICalendar) (defaultTz : Tz)
    (expanded : List (ExpandedEvent Tz)) (now : ℤ) (nextEmailAlarm : Option CalendarAlarm) :
    CalendarEventData × Option CalendarAlarm :=
  let g := expanded.foldl (add Z ical defaultTz now) ⟨⟨0, 0, 0⟩, .empty, .empty, nextEmailAlarm⟩
  ({ event := ical
     timeRanges := (groupOrder.iter g.groups.keys.toFinset).map fun k =>
       { id := k.compId
         startTz := k.startTz
         endTz := k.endTz
         duration := k.duration
         instances := storeInstances P g.ranges.baseOffset ((g.groups.get k).getD []) }
     alarms := (compOrder.iter g.alarms.keys.toFinset).flatMap fun k => (g.alarms.get k).getD []
     baseOffset := g.ranges.baseOffset
     baseTimeUtc := asU32 (g.ranges.minTimeUtc - g.ranges.baseOffset)
     duration := asU32 (g.ranges.maxTimeUtc - g.ranges.minTimeUtc) }, g.next)

section

variable (ical : ICalendar) (defaultTz : Tz) (now : ℤ)

/-- The alarms of an instance. -/
def ExpandedEvent.due (e : ExpandedEvent Tz) : List CalendarAlarm :=
  (ical.alarmsOf Z e.compId).filterMap (e.fire Z ical defaultTz)

/-- The least time of an instance and its alarms. -/
def ExpandedEvent.least (e : ExpandedEvent Tz) : ℤ :=
  ((e.due Z ical defaultTz).map CalendarAlarm.alarmTime).foldl min (min e.start.timestamp e.ends.timestamp)

variable {Z ical defaultTz now}

theorem alarmSteps_eq (now : ℤ) (e : ExpandedEvent Tz) (acc : ℤ × ℤ × Option CalendarAlarm) (alarms : List Alarm) :
    (alarms.foldl (e.alarmStep Z ical defaultTz now) acc).1 =
        ((alarms.filterMap (e.fire Z ical defaultTz)).map CalendarAlarm.alarmTime).foldl min acc.1 ∧
      (alarms.foldl (e.alarmStep Z ical defaultTz now) acc).2.2 =
        earliest CalendarAlarm.alarmTime now acc.2.2 (alarms.filterMap (e.fire Z ical defaultTz)) := by
  induction alarms generalizing acc with
  | nil => exact ⟨rfl, rfl⟩
  | cons alarm alarms ih =>
    obtain ⟨h1, h2⟩ := ih (e.alarmStep Z ical defaultTz now acc alarm)
    rw [foldl_cons, h1, h2, alarmStep]
    cases hf : e.fire Z ical defaultTz alarm with
    | none => rw [filterMap_cons_none hf]; exact ⟨rfl, rfl⟩
    | some found =>
      rw [filterMap_cons_some hf, map_cons, foldl_cons]
      refine ⟨?_, rfl⟩
      have hmin : (if found.alarmTime < acc.1 then found.alarmTime else acc.1) = min acc.1 found.alarmTime := by
        split_ifs <;> omega
      rw [← hmin]

/-- **The next alarm of a new event** is the earliest one after the present. -/
theorem gathered_next (g : Gathered) (expanded : List (ExpandedEvent Tz)) :
    (expanded.foldl (add Z ical defaultTz now) g).next =
      earliest CalendarAlarm.alarmTime now g.next (expanded.flatMap (due Z ical defaultTz)) := by
  induction expanded generalizing g with
  | nil => rfl
  | cons e expanded ih =>
    rw [foldl_cons, ih, flatMap_cons, earliest_append]
    congr 1
    exact (alarmSteps_eq now e _ _).2

theorem ranges_add (g : Gathered) (e : ExpandedEvent Tz) :
    ((g.add Z ical defaultTz now e).ranges).baseOffset =
      ((g.ranges.updateBaseOffset e.start.naive e.ends.naive).updateUtcMinMax (e.least Z ical defaultTz) 0).baseOffset := by
  rw [least, due, ← (alarmSteps_eq now e (_, _, g.next) _).1]
  rfl

/-- The least of the times of an instance, in its zone and out of it. -/
def ExpandedEvent.lower (Z : Zones Tz) (ical : ICalendar) (defaultTz : Tz) (e : ExpandedEvent Tz) : ℤ :=
  min (min e.start.naive e.ends.naive) (e.least Z ical defaultTz)

/-- Neither the local start and end nor the times of an instance begin at the epoch. -/
def ExpandedEvent.Dated (Z : Zones Tz) (ical : ICalendar) (defaultTz : Tz) (e : ExpandedEvent Tz) : Prop :=
  min e.start.naive e.ends.naive ≠ 0 ∧ e.least Z ical defaultTz ≠ 0

theorem updates_baseOffset (r : TimeRanges) {t1 t2 t : ℤ} (max : ℤ) (h : min t1 t2 ≠ 0) :
    ((r.updateBaseOffset t1 t2).updateUtcMinMax t max).baseOffset =
      if r.baseOffset = 0 then min (min t1 t2) t else min r.baseOffset (min (min t1 t2) t) := by
  have hfirst : (r.updateBaseOffset t1 t2).baseOffset =
      if min t1 t2 < r.baseOffset ∨ r.baseOffset = 0 then min t1 t2 else r.baseOffset := by
    rw [TimeRanges.updateBaseOffset]
    split_ifs <;> rfl
  rw [TimeRanges.updateUtcMinMax, hfirst]
  generalize min t1 t2 = m at h ⊢
  dsimp only
  by_cases h0 : r.baseOffset = 0
  · rw [if_pos (Or.inr h0)]
    split_ifs <;> omega
  · by_cases hm : m < r.baseOffset
    · split_ifs <;> omega
    · rw [if_neg (not_or.mpr ⟨hm, h0⟩)]
      split_ifs <;> omega

theorem baseOffset_spec {g : Gathered} (hg : g.ranges.baseOffset = 0) {expanded : List (ExpandedEvent Tz)}
    (hdated : ∀ e ∈ expanded, e.Dated Z ical defaultTz) (hne : expanded ≠ []) :
    let base := (expanded.foldl (add Z ical defaultTz now) g).ranges.baseOffset
    base ≠ 0 ∧ (∀ e ∈ expanded, base ≤ e.start.naive) ∧ ∃ e ∈ expanded, e.lower Z ical defaultTz ≤ base := by
  induction expanded using List.reverseRecOn with
  | nil => exact absurd rfl hne
  | append_singleton l e ih =>
    rw [foldl_append, foldl_cons, foldl_nil, ranges_add]
    obtain ⟨hd1, hd2⟩ := hdated e (by simp)
    set g' := l.foldl (add Z ical defaultTz now) g with hg'
    have hstep : ((g'.ranges.updateBaseOffset e.start.naive e.ends.naive).updateUtcMinMax
        (e.least Z ical defaultTz) 0).baseOffset =
        if g'.ranges.baseOffset = 0 then e.lower Z ical defaultTz
        else min g'.ranges.baseOffset (e.lower Z ical defaultTz) := by
      exact updates_baseOffset _ _ hd1
    have hlow : e.lower Z ical defaultTz ≠ 0 ∧ e.lower Z ical defaultTz ≤ e.start.naive := by
      unfold lower
      omega
    rw [hstep]
    by_cases hl : l = []
    · subst hl
      rw [if_pos (by exact hg)]
      simp [hlow]
    · obtain ⟨h0, hle, e', he', hlower⟩ := ih (fun e' he' => hdated e' (mem_append_left _ he')) hl
      rw [if_neg h0]
      refine ⟨by omega, ?_, ?_⟩
      · intro e'' he''
        rw [mem_append, mem_singleton] at he''
        rcases he'' with he'' | rfl
        · exact le_trans (min_le_left _ _) (hle e'' he'')
        · omega
      · by_cases hmin : g'.ranges.baseOffset ≤ e.lower Z ical defaultTz
        · exact ⟨e', mem_append_left _ he', by rw [min_eq_left hmin]; exact hlower⟩
        · exact ⟨e, by simp, by omega⟩

/-- The instances of a group, in the order of the expansion. -/
def members (Z : Zones Tz) (expanded : List (ExpandedEvent Tz)) (k : Group) : List (ExpandedEvent Tz) :=
  expanded.filter fun e => e.group Z = k

theorem gathered_groups (g : Gathered) (hg : g.groups = .empty) (expanded : List (ExpandedEvent Tz)) (k : Group) :
    ((expanded.foldl (add Z ical defaultTz now) g).groups.get k).getD [] =
        (members Z expanded k).map (fun e => e.start.naive) ∧
      (k ∈ (expanded.foldl (add Z ical defaultTz now) g).groups.keys ↔
        k ∈ expanded.map (group Z)) := by
  induction expanded using List.reverseRecOn with
  | nil =>
    rw [foldl_nil, hg]
    exact ⟨rfl, Iff.rfl⟩
  | append_singleton l e ih =>
    obtain ⟨hget, hkeys⟩ := ih
    rw [foldl_append, foldl_cons, foldl_nil]
    set g' := l.foldl (add Z ical defaultTz now) g
    have hgroups : (g'.add Z ical defaultTz now e).groups =
        g'.groups.alter (e.group Z) fun instances => instances ++ [e.start.naive] := rfl
    rw [hgroups, VecMap.get_alter, VecMap.mem_keys_alter, hkeys]
    constructor
    · by_cases hk : k = e.group Z
      · subst hk
        simp only [members, filter_append, map_append] at hget ⊢
        rw [← hget]
        simp only [decide_true, filter_cons_of_pos]
        rfl
      · simp only [hk, if_false, hget, members]
        simp [Ne.symm hk]
    · simp [or_comm]

theorem gathered_alarms (g : Gathered) (hg : g.alarms = .empty) (expanded : List (ExpandedEvent Tz)) (c : ℕ) :
    (expanded.foldl (add Z ical defaultTz now) g).alarms.get c =
        (if c ∈ expanded.map compId then some (ical.alarmsOf Z c) else none) ∧
      (c ∈ (expanded.foldl (add Z ical defaultTz now) g).alarms.keys ↔
        c ∈ expanded.map compId) := by
  induction expanded using List.reverseRecOn with
  | nil => simp [hg, VecMap.keys, VecMap.empty, VecMap.get, VecMap.find]
  | append_singleton l e ih =>
    obtain ⟨hget, hkeys⟩ := ih
    rw [foldl_append, foldl_cons, foldl_nil]
    set g' := l.foldl (add Z ical defaultTz now) g
    have halarms : (g'.add Z ical defaultTz now e).alarms =
        g'.alarms.alter e.compId fun _ => ical.alarmsOf Z e.compId := rfl
    rw [halarms, VecMap.get_alter, VecMap.mem_keys_alter, hkeys, hget]
    constructor
    · by_cases hc : c = e.compId
      · subst hc
        simp
      · simp [hc]
    · simp [or_comm]

end

end MailServer.Groupware
