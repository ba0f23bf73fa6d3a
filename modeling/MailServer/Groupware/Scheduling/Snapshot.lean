import MailServer.Lib.Except
import MailServer.Groupware.Scheduling.Types

/-!
# What is read of an event (`scheduling/snapshot.rs`)

* `snapshotOf`, `instanceOf`: what is read of one component.
-/

namespace MailServer.Groupware

open MailServer.Lib List

variable (C : Calcard)

/-- The address of a participant. -/
def addressOf (accountEmails : List String) (entry : ICalendarEntry) : Option Email :=
  (entry.values.head?.bind ICalendarValue.asText).bind fun v => Email.new C v accountEmails

def organizerParam (part : Organizer) (param : ICalendarParameter) : Organizer :=
  match param.name, param.value with
  | .scheduleAgent, .scheduleAgent .client => { part with isServerScheduling := false }
  | .scheduleAgent, .scheduleAgent .none => { part with isServerScheduling := false }
  | .scheduleForceSend, .scheduleForceSend forceSend => { part with forceSend := some forceSend }
  | _, _ => part

def attendeeParam (accountEmails : List String) (part : Attendee) (param : ICalendarParameter) : Attendee :=
  match param.name, param.value with
  | .scheduleAgent, .scheduleAgent agent => { part with isServerScheduling := agent = .server }
  | .rsvp, .bool rsvp => { part with rsvp := some rsvp }
  | .scheduleForceSend, .scheduleForceSend forceSend => { part with forceSend := some forceSend }
  | .partstat, .partstat value => { part with partStat := some value }
  | .cutype, .cutype value => { part with cuType := some value }
  | .delegatedFrom, .uri uri =>
    { part with delegatedFrom := part.delegatedFrom ++ (Email.fromUri C uri accountEmails).toList }
  | .delegatedTo, .uri uri =>
    { part with delegatedTo := part.delegatedTo ++ (Email.fromUri C uri accountEmails).toList }
  | .role, .role value => { part with role := some value }
  | .sentBy, .uri value => { part with sentBy := Email.fromUri C value accountEmails }
  | _, _ => part

def attendeeOf (accountEmails : List String) (entryId : ℕ) (entry : ICalendarEntry) : Option Attendee :=
  (addressOf C accountEmails entry).map fun email =>
    entry.params.foldl (attendeeParam C accountEmails)
      { entryId, email, partStat := none, delegatedFrom := [], delegatedTo := [], role := none, cuType := none,
        sentBy := none, rsvp := none, isServerScheduling := true, forceSend := none }

/-- `AHashSet::insert`, which keeps what it has. -/
def insertAttendee (attendees : List Attendee) (part : Attendee) : List Attendee :=
  if attendees.any fun a => a.key = part.key then attendees else attendees ++ [part]

/-- The properties whose changes are told to the participants. -/
def ICalendarProperty.isTracked : ICalendarProperty → Bool
  | .dtstart | .dtend | .duration | .due | .rrule | .rdate | .exdate | .status | .location | .summary | .description
  | .priority | .percentComplete | .completed => true
  | _ => false

def entryValue (ical : ICalendar) (tzId : Option String) : ICalendarValue → Option ItipEntryValue
  | .uri (.location v) => some (.text v)
  | .partialDateTime date => some (.dateTime (C.timestamp ical tzId date))
  | .duration v => some (.duration v)
  | .recurrenceRule v => some (.rrule v)
  | .period v => some (.period v)
  | .integer v => some (.integer v)
  | .text v => some (.text v)
  | .status v => some (.status v)
  | _ => none

/-- What a property adds to the tracked values. -/
def trackedValues (ical : ICalendar) (entry : ICalendarEntry) : Finset ItipEntry :=
  if entry.name.isTracked then
    ((entry.values.filterMap (entryValue C ical (C.tzId entry))).map (ItipEntry.mk entry.name)).toFinset
  else ∅

/-- What a property says about its component. -/
def ItipSnapshot.read (ical : ICalendar) (accountEmails : List String) (s : ItipSnapshot) (entry : ICalendarEntry)
    (entryId : ℕ) : ItipSnapshot :=
  match entry.name with
  | .attendee =>
    match attendeeOf C accountEmails entryId entry with
    | some part => { s with attendees := insertAttendee s.attendees part }
    | none => s
  | .sequence =>
    match entry.values.head?.bind ICalendarValue.asInteger with
    | some sequence => { s with sequence := some sequence }
    | none => s
  | .requestStatus =>
    match entry.values.head?.bind ICalendarValue.asText with
    | some value => { s with requestStatus := s.requestStatus ++ [value] }
    | none => s
  | .dtstamp => { s with dtstamp := entry.values.head?.bind ICalendarValue.asPartialDateTime }
  | _ => { s with entries := s.entries ∪ trackedValues C ical entry }

open ItipSnapshot

def recurrenceIdOf (ical : ICalendar) (entry : ICalendarEntry) (date : PartialDateTime) : RecurrenceId where
  date :=
    let tzId := entry.params.foldl (fun tzId param =>
      match param.name, param.value with
      | .tzid, .text id => some id
      | _, _ => tzId) none
    C.timestamp ical tzId date
  thisAndFuture := entry.params.any (·.name = .range)

/-- Which instance the component is about, after one more of its properties. -/
def InstanceId.read (ical : ICalendar) (instanceId : InstanceId) (entry : ICalendarEntry) : InstanceId :=
  if entry.name = .recurrenceId then
    match entry.values.head?.bind ICalendarValue.asPartialDateTime with
    | some date => .recurrence (recurrenceIdOf C ical entry date)
    | none => instanceId
  else instanceId

/-- What is read of a component. -/
def snapshotOf (ical : ICalendar) (accountEmails : List String) (comp : ICalendarComponent) (compId : ℕ) :
    ItipSnapshot :=
  let s := comp.entries.zipIdx.foldl (fun s e => read C ical accountEmails s e.1 e.2)
    { compId, comp, attendees := [], dtstamp := none, entries := ∅, sequence := none, requestStatus := [] }
  { s with attendees := C.iter s.attendees }

/-- The instance that a component is about. -/
def instanceOf (ical : ICalendar) (comp : ICalendarComponent) : InstanceId :=
  comp.entries.foldl (InstanceId.read C ical) .main

/-- What the components have said so far about the event. -/
structure Scan where
  organizer : Option Organizer
  uid : Option String
  components : AList fun _ : InstanceId => ItipSnapshot
  expectObjectType : Option ICalendarComponentType
  hasLocalEmails : Bool

open Scan

/-- What a property says about the event. -/
def Scan.read (accountEmails : List String) (forceAddClientScheduling : Bool) (s : Scan) (entry : ICalendarEntry) :
    Except ItipError Scan :=
  match entry.name with
  | .organizer =>
    match addressOf C accountEmails entry with
    | none => .ok s
    | some email =>
      let part := entry.params.foldl organizerParam ⟨email, true, none⟩
      let s := { s with hasLocalEmails := s.hasLocalEmails || part.email.isLocal }
      if !part.isServerScheduling && !forceAddClientScheduling then .error .otherSchedulingAgent
      else
        match s.organizer with
        | some existing => if existing.email.email ≠ part.email.email then .error .multipleOrganizer else .ok s
        | none => .ok { s with organizer := some part }
  | .attendee =>
    match attendeeOf C accountEmails 0 entry with
    | none => .ok s
    | some part =>
      .ok { s with
        hasLocalEmails := s.hasLocalEmails ||
          (part.email.isLocal && (forceAddClientScheduling || part.isServerScheduling)) }
  | .uid =>
    match (entry.values.head?.bind ICalendarValue.asText).map (fun v => String.ofList (trim v.toList)) with
    | none => .ok s
    | some uid =>
      if uid = "" then .ok s
      else
        match s.uid with
        | some existing => if existing ≠ uid then .error .multipleUid else .ok s
        | none => .ok { s with uid := some uid }
  | _ => .ok s

def Scan.component (ical : ICalendar) (accountEmails : List String) (forceAddClientScheduling : Bool) (s : Scan)
    (comp : ICalendarComponent × ℕ) : Except ItipError Scan :=
  if !C.isSchedulingObject comp.1.componentType then .ok s
  else if s.expectObjectType.any (· ≠ comp.1.componentType) then .error .multipleObjectTypes
  else do
    let s ← comp.1.entries.foldlM (read C accountEmails forceAddClientScheduling)
      { s with expectObjectType := some comp.1.componentType }
    if instanceOf C ical comp.1 ∈ s.components then .error .multipleObjectInstances
    else
      .ok { s with
        components := s.components.insert (instanceOf C ical comp.1) (snapshotOf C ical accountEmails comp.1 comp.2) }

def itipSnapshot (ical : ICalendar) (accountEmails : List String) (forceAddClientScheduling : Bool) :
    Except ItipError ItipSnapshots :=
  if !ical.components.any (fun comp =>
      C.isSchedulingObject comp.componentType && comp.entries.any (·.name = .organizer)) then
    .error .noSchedulingInfo
  else do
    let s ← ical.components.zipIdx.foldlM (component C ical accountEmails forceAddClientScheduling)
      ⟨none, none, ∅, none, false⟩
    if s.hasLocalEmails then
      match s.organizer, s.uid with
      | none, _ => .error .noSchedulingInfo
      | some _, none => .error .missingUid
      | some organizer, some uid => .ok ⟨organizer, uid, s.components⟩
    else .error .notOrganizerNorAttendee

namespace ItipSnapshots

/-- Somebody with the address takes part in an instance. -/
def senderIsOrganizerOrAttendee (s : ItipSnapshots) (email : String) : Bool :=
  s.organizer.email.email = email ||
    (C.entries s.components).any fun e => e.2.attendees.any fun attendee => attendee.email.email = email

end ItipSnapshots

namespace ItipSnapshot

def externalAttendees (s : ItipSnapshot) : List Attendee := s.attendees.filter fun a => !a.email.isLocal

def attendeeByEmail (s : ItipSnapshot) (email : String) : Option Attendee :=
  s.attendees.find? fun attendee => attendee.email.email = email

/-- `==` of two attendee sets. -/
def sameAttendees (s t : ItipSnapshot) : Prop :=
  (s.attendees.map Attendee.key).toFinset = (t.attendees.map Attendee.key).toFinset

instance (s t : ItipSnapshot) : Decidable (s.sameAttendees t) := inferInstanceAs (Decidable (_ = _))

end ItipSnapshot

/-! ## What is read of a component -/

/-- The number of a `SEQUENCE`. -/
def sequenceNumber (entry : ICalendarEntry) : Option ℤ :=
  if entry.name = .sequence then entry.values.head?.bind ICalendarValue.asInteger else none

/-- The last number of a `SEQUENCE` of the component. -/
def sequenceOf (comp : ICalendarComponent) : Option ℤ := (comp.entries.filterMap sequenceNumber).getLast?

/-- The participant of an `ATTENDEE`. -/
def attendeeAt (accountEmails : List String) (entry : ICalendarEntry × ℕ) : Option Attendee :=
  if entry.1.name = .attendee then attendeeOf C accountEmails entry.2 entry.1 else none

/-- The participants of a component, in the order of its properties. -/
def attendeesAt (accountEmails : List String) (comp : ICalendarComponent) : List Attendee :=
  comp.entries.zipIdx.filterMap (attendeeAt C accountEmails)

variable {C} {ical : ICalendar} {accountEmails : List String} {force : Bool} {comp : ICalendarComponent} {compId : ℕ}

theorem read_sequence (s : ItipSnapshot) (entry : ICalendarEntry) (i : ℕ) :
    (ItipSnapshot.read C ical accountEmails s entry i).sequence = (sequenceNumber entry).or s.sequence := by
  unfold ItipSnapshot.read sequenceNumber
  split <;> rename_i h
  · rw [h]
    split <;> rfl
  · rw [h]
    split <;> rename_i hv <;> rw [hv] <;> rfl
  · rw [h]
    split <;> rfl
  · rw [h]
    rfl
  · rw [if_neg ‹_›]
    rfl

theorem read_attendees (s : ItipSnapshot) (entry : ICalendarEntry) (i : ℕ) :
    (ItipSnapshot.read C ical accountEmails s entry i).attendees =
      (attendeeAt C accountEmails (entry, i)).elim s.attendees (insertAttendee s.attendees) := by
  unfold ItipSnapshot.read attendeeAt
  split <;> rename_i h
  · rw [if_pos h]
    split <;> rename_i hv <;> rw [hv] <;> rfl
  · rw [h]
    split <;> rfl
  · rw [h]
    split <;> rfl
  · rw [h]
    rfl
  · rw [if_neg ‹_›]
    rfl

section

variable (ical : ICalendar) (accountEmails : List String)

theorem read_comp (s : ItipSnapshot) (entry : ICalendarEntry) (i : ℕ) :
    (ItipSnapshot.read C ical accountEmails s entry i).comp = s.comp ∧ (ItipSnapshot.read C ical accountEmails s entry i).compId = s.compId := by
  unfold ItipSnapshot.read
  split <;> first | (split <;> exact ⟨rfl, rfl⟩) | exact ⟨rfl, rfl⟩

theorem foldl_read_comp (l : List (ICalendarEntry × ℕ)) (s : ItipSnapshot) :
    (l.foldl (fun s e => read C ical accountEmails s e.1 e.2) s).comp = s.comp ∧
      (l.foldl (fun s e => read C ical accountEmails s e.1 e.2) s).compId = s.compId := by
  induction l generalizing s with
  | nil => exact ⟨rfl, rfl⟩
  | cons e l ih =>
    obtain ⟨hcomp, hid⟩ := read_comp (C := C) ical accountEmails s e.1 e.2
    obtain ⟨hcomps, hids⟩ := ih (read C ical accountEmails s e.1 e.2)
    exact ⟨hcomps.trans hcomp, hids.trans hid⟩

theorem foldl_read_sequence (l : List (ICalendarEntry × ℕ)) (s : ItipSnapshot) :
    (l.foldl (fun s e => read C ical accountEmails s e.1 e.2) s).sequence =
      ((l.map Prod.fst).filterMap sequenceNumber).getLast?.or s.sequence := by
  induction l generalizing s with
  | nil => rfl
  | cons e l ih =>
    rw [foldl_cons, ih, read_sequence, map_cons, filterMap_cons]
    cases hnumber : sequenceNumber e.1 with
    | none => rfl
    | some n =>
      rw [getLast?_cons]
      cases (List.filterMap sequenceNumber (l.map Prod.fst)).getLast? with
      | none => rfl
      | some m => rfl

theorem foldl_read_attendees (l : List (ICalendarEntry × ℕ)) (s : ItipSnapshot) :
    (l.foldl (fun s e => read C ical accountEmails s e.1 e.2) s).attendees =
      (l.filterMap (attendeeAt C accountEmails)).foldl insertAttendee s.attendees := by
  induction l generalizing s with
  | nil => rfl
  | cons e l ih =>
    rw [foldl_cons, ih, read_attendees, filterMap_cons]
    cases attendeeAt C accountEmails e with
    | none => rfl
    | some a => rfl

end

theorem comp_snapshotOf : (snapshotOf C ical accountEmails comp compId).comp = comp := (foldl_read_comp ical accountEmails _ _).1

theorem compId_snapshotOf : (snapshotOf C ical accountEmails comp compId).compId = compId := (foldl_read_comp ical accountEmails _ _).2

theorem sequence_snapshotOf : (snapshotOf C ical accountEmails comp compId).sequence = sequenceOf comp := by
  have h := foldl_read_sequence (C := C) ical accountEmails comp.entries.zipIdx
    { compId, comp, attendees := [], dtstamp := none, entries := ∅, sequence := none, requestStatus := [] }
  rw [zipIdx_map_fst, Option.or_none] at h
  exact h

theorem mem_foldl_insertAttendee (l attendees : List Attendee) :
    (∀ a ∈ l.foldl insertAttendee attendees, a ∈ attendees ∨ a ∈ l) ∧
      ∀ k, (∃ a ∈ l.foldl insertAttendee attendees, a.key = k) ↔ (∃ a ∈ attendees, a.key = k) ∨ ∃ a ∈ l, a.key = k := by
  induction l generalizing attendees with
  | nil => simp
  | cons part l ih =>
    obtain ⟨hsub, hkey⟩ := ih (insertAttendee attendees part)
    rw [foldl_cons]
    by_cases hany : attendees.any (fun a => a.key = part.key) = true
    · have hsame : insertAttendee attendees part = attendees := by rw [insertAttendee, if_pos hany]
      rw [hsame] at hsub hkey ⊢
      obtain ⟨b, hb, hbkey⟩ := any_eq_true.mp hany
      refine ⟨fun a ha => (hsub a ha).imp_right (mem_cons_of_mem _), fun k => (hkey k).trans ?_⟩
      constructor
      · rintro (h | ⟨a, ha, hk⟩)
        · exact Or.inl h
        · exact Or.inr ⟨a, mem_cons_of_mem _ ha, hk⟩
      · rintro (h | ⟨a, ha, hk⟩)
        · exact Or.inl h
        · rcases mem_cons.mp ha with rfl | ha
          · exact Or.inl ⟨b, hb, (of_decide_eq_true hbkey).trans hk⟩
          · exact Or.inr ⟨a, ha, hk⟩
    · have hnew : insertAttendee attendees part = attendees ++ [part] := by rw [insertAttendee, if_neg hany]
      rw [hnew] at hsub hkey ⊢
      constructor
      · intro a ha
        rcases hsub a ha with h | h
        · rcases mem_append.mp h with h | h
          · exact Or.inl h
          · exact Or.inr (mem_cons.mpr (Or.inl (mem_singleton.mp h)))
        · exact Or.inr (mem_cons_of_mem _ h)
      · intro k
        rw [hkey k]
        simp [or_assoc]

theorem mem_attendees {a : Attendee} (h : a ∈ (snapshotOf C ical accountEmails comp compId).attendees) :
    a ∈ attendeesAt C accountEmails comp := by
  rw [snapshotOf, Calcard.mem_iter, foldl_read_attendees] at h
  exact ((mem_foldl_insertAttendee _ _).1 a h).resolve_left not_mem_nil

theorem exists_attendee_key {k : AttendeeKey} :
    (∃ a ∈ (snapshotOf C ical accountEmails comp compId).attendees, a.key = k) ↔
      ∃ a ∈ attendeesAt C accountEmails comp, a.key = k := by
  have h := (mem_foldl_insertAttendee (attendeesAt C accountEmails comp) []).2 k
  simp only [not_mem_nil, false_and, exists_false, false_or] at h
  rw [← h]
  simp [snapshotOf, Calcard.mem_iter, foldl_read_attendees, attendeesAt]

theorem exists_attendee_email {email : String} :
    (∃ a ∈ (snapshotOf C ical accountEmails comp compId).attendees, a.email.email = email) ↔
      ∃ a ∈ attendeesAt C accountEmails comp, a.email.email = email := by
  constructor
  · rintro ⟨a, ha, rfl⟩
    exact ⟨a, mem_attendees ha, rfl⟩
  · rintro ⟨a, ha, rfl⟩
    obtain ⟨b, hb, hkey⟩ := exists_attendee_key.2 ⟨a, ha, rfl⟩
    exact ⟨b, hb, congrArg AttendeeKey.email hkey⟩

/-! ## The instances of an object -/

variable {entry : ICalendarEntry} {l : List (ICalendarComponent × ℕ)} {c : ICalendarComponent × ℕ}
  {s : ItipSnapshots}

theorem components_read {s t : Scan} (h : s.read C accountEmails force entry = .ok t) :
    t.components = s.components := by
  unfold Scan.read at h
  split at h
  · split at h
    · exact (congrArg Scan.components (Except.ok.inj h)).symm
    · dsimp only at h
      split_ifs at h
      split at h
      · split_ifs at h
        exact (congrArg Scan.components (Except.ok.inj h)).symm
      · exact (congrArg Scan.components (Except.ok.inj h)).symm
  · split at h <;> exact (congrArg Scan.components (Except.ok.inj h)).symm
  · split at h
    · exact (congrArg Scan.components (Except.ok.inj h)).symm
    · split_ifs at h
      · exact (congrArg Scan.components (Except.ok.inj h)).symm
      · split at h
        · split_ifs at h
          exact (congrArg Scan.components (Except.ok.inj h)).symm
        · exact (congrArg Scan.components (Except.ok.inj h)).symm
  · exact (congrArg Scan.components (Except.ok.inj h)).symm

theorem components_foldlM_read {l : List ICalendarEntry} {s t : Scan}
    (h : l.foldlM (read C accountEmails force) s = .ok t) : t.components = s.components := by
  induction l generalizing s with
  | nil => exact (congrArg components (Except.ok.inj h)).symm
  | cons e l ih =>
    obtain ⟨u, hu, ht⟩ := bind_eq_ok h
    exact (ih ht).trans (components_read hu)

theorem lookup_component {s t : Scan} (h : s.component C ical accountEmails force c = .ok t)
    (id : InstanceId) (snapshot : ItipSnapshot) :
    t.components.lookup id = some snapshot ↔ s.components.lookup id = some snapshot ∨
      (C.isSchedulingObject c.1.componentType = true ∧ instanceOf C ical c.1 = id ∧
        snapshot = snapshotOf C ical accountEmails c.1 c.2) := by
  unfold component at h
  split_ifs at h with hsched hother
  · obtain rfl := Except.ok.inj h
    rw [Bool.not_eq_true'] at hsched
    simp [hsched]
  · obtain ⟨u, hu, ht⟩ := bind_eq_ok h
    have hcomponents := components_foldlM_read hu
    split_ifs at ht with hmem
    obtain rfl := Except.ok.inj ht
    have htrue : C.isSchedulingObject c.1.componentType = true := by simpa using hsched
    have hnone : s.components.lookup (instanceOf C ical c.1) = none := by
      rw [← show u.components = s.components from hcomponents]
      exact AList.lookup_eq_none.mpr hmem
    by_cases hid : instanceOf C ical c.1 = id
    · subst hid
      simp only [AList.lookup_insert, hnone, htrue, true_and, reduceCtorEq, false_or, Option.some.injEq]
      exact eq_comm
    · simp only [AList.lookup_insert_ne (Ne.symm hid), hid, false_and, and_false, or_false]
      rw [show u.components = s.components from hcomponents]

theorem lookup_foldlM_component {s t : Scan}
    (h : l.foldlM (component C ical accountEmails force) s = .ok t) (id : InstanceId)
    (snapshot : ItipSnapshot) :
    t.components.lookup id = some snapshot ↔ s.components.lookup id = some snapshot ∨
      ∃ c ∈ l, C.isSchedulingObject c.1.componentType = true ∧ instanceOf C ical c.1 = id ∧
        snapshot = snapshotOf C ical accountEmails c.1 c.2 := by
  induction l generalizing s with
  | nil =>
    obtain rfl := Except.ok.inj h
    simp
  | cons c l ih =>
    obtain ⟨u, hu, ht⟩ := bind_eq_ok h
    rw [ih ht, lookup_component hu, exists_mem_cons_iff, or_assoc]

/-- **The instances of a snapshot are those of the scheduling components.** -/
theorem lookup_itipSnapshot (h : itipSnapshot C ical accountEmails force = .ok s) (id : InstanceId)
    (snapshot : ItipSnapshot) : s.components.lookup id = some snapshot ↔
      ∃ (i : ℕ) (comp : ICalendarComponent), ical.components[i]? = some comp ∧
        C.isSchedulingObject comp.componentType = true ∧ instanceOf C ical comp = id ∧
        snapshot = snapshotOf C ical accountEmails comp i := by
  unfold itipSnapshot at h
  split_ifs at h
  obtain ⟨t, ht, hs⟩ := bind_eq_ok h
  have hcomponents : s.components = t.components := by
    split_ifs at hs
    split at hs
    · cases hs
    · cases hs
    · exact congrArg ItipSnapshots.components (Except.ok.inj hs).symm
  rw [hcomponents, lookup_foldlM_component ht]
  constructor
  · rintro (hempty | ⟨⟨comp, i⟩, hmem, hsched, hid, hsnapshot⟩)
    · cases hempty
    · exact ⟨i, comp, mem_zipIdx_iff_getElem?.mp hmem, hsched, hid, hsnapshot⟩
  · rintro ⟨i, comp, hi, hsched, hid, hsnapshot⟩
    exact Or.inr ⟨⟨comp, i⟩, mem_zipIdx_iff_getElem?.mpr hi, hsched, hid, hsnapshot⟩

/-! ## The organizer of an object -/

variable (C) in
/-- The address of an `ORGANIZER`, as it is compared. -/
def organizerAddress (entry : ICalendarEntry) : Option String :=
  if entry.name = .organizer then (addressOf C [] entry).map Email.email else none

variable (C) in
/-- The organizers that the scheduling components name. -/
def organizersOf (ical : ICalendar) : List String :=
  ical.components.flatMap fun comp =>
    if C.isSchedulingObject comp.componentType then comp.entries.filterMap (organizerAddress C) else []

theorem address_congr (emails emails' : List String) (entry : ICalendarEntry) :
    (addressOf C emails entry).map Email.email = (addressOf C emails' entry).map Email.email := by
  unfold addressOf
  cases entry.values.head?.bind ICalendarValue.asText with
  | none => rfl
  | some v =>
    simp only [Option.bind_some, Email.new]
    split_ifs <;> rfl

/-- The organizer of a scan is the one that all properties read so far name. -/
structure OrganizerRead (addresses : List String) (s t : Scan) : Prop where
  kept : ∀ o, s.organizer = some o → t.organizer = some o
  all : ∀ a ∈ addresses, ∃ o, t.organizer = some o ∧ o.email.email = a
  named : ∀ o, t.organizer = some o → s.organizer = some o ∨ o.email.email ∈ addresses

theorem OrganizerRead.of_eq {s t : Scan} (h : t.organizer = s.organizer) : OrganizerRead [] s t :=
  ⟨fun _ ho => h.trans ho, nofun, fun _ ho => Or.inl (h.symm.trans ho)⟩

theorem OrganizerRead.trans {l l' : List String} {s t u : Scan} (h : OrganizerRead l s t) (h' : OrganizerRead l' t u) :
    OrganizerRead (l ++ l') s u := by
  refine ⟨fun o ho => h'.kept o (h.kept o ho), fun a ha => ?_, fun o ho => ?_⟩
  · rcases mem_append.mp ha with ha | ha
    · obtain ⟨o, ho, hemail⟩ := h.all a ha
      exact ⟨o, h'.kept o ho, hemail⟩
    · exact h'.all a ha
  · rcases h'.named o ho with ho | ho
    · exact (h.named o ho).imp_right fun hmem => mem_append_left _ hmem
    · exact Or.inr (mem_append_right _ ho)

theorem organizerParam_email (part : Organizer) (param : ICalendarParameter) :
    (organizerParam part param).email = part.email := by
  unfold organizerParam
  split <;> rfl

theorem foldl_organizerParam_email (l : List ICalendarParameter) (part : Organizer) :
    (l.foldl organizerParam part).email = part.email := by
  induction l generalizing part with
  | nil => rfl
  | cons p l ih => exact (ih _).trans (organizerParam_email part p)

theorem organizer_read {s t : Scan} (h : s.read C accountEmails force entry = .ok t) :
    OrganizerRead (organizerAddress C entry).toList s t := by
  by_cases hname : entry.name = .organizer
  · have haddress : organizerAddress C entry = (addressOf C accountEmails entry).map Email.email := by
      rw [organizerAddress, if_pos hname, address_congr]
    rw [haddress]
    unfold Scan.read at h
    rw [hname] at h
    cases hemail : addressOf C accountEmails entry with
    | none =>
      rw [hemail] at h
      exact .of_eq (congrArg Scan.organizer (Except.ok.inj h)).symm
    | some email =>
      rw [hemail] at h
      dsimp only at h
      split_ifs at h
      have hpart : (entry.params.foldl organizerParam ⟨email, true, none⟩).email = email :=
        foldl_organizerParam_email entry.params ⟨email, true, none⟩
      cases ho : s.organizer with
      | some existing =>
        rw [ho] at h
        dsimp only at h
        split_ifs at h with hsame
        obtain rfl := Except.ok.inj h
        rw [hpart, not_not] at hsame
        refine ⟨fun o hs => ho.symm.trans hs, fun a ha => ⟨existing, rfl, ?_⟩, fun o hs => Or.inl (ho.trans hs)⟩
        obtain rfl := mem_singleton.mp ha
        exact hsame
      | none =>
        rw [ho] at h
        obtain rfl := Except.ok.inj h
        refine ⟨fun o hs => ?_, fun a ha => ⟨_, rfl, ?_⟩, fun o hs => Or.inr ?_⟩
        · rw [ho] at hs
          cases hs
        · obtain rfl := mem_singleton.mp ha
          rw [hpart]
        · rw [← Option.some.inj hs, hpart]
          exact mem_singleton_self _
  · rw [organizerAddress, if_neg hname]
    refine .of_eq ?_
    unfold Scan.read at h
    split at h
    · exact absurd ‹_› hname
    · split at h <;> exact (congrArg Scan.organizer (Except.ok.inj h)).symm
    · split at h
      · exact (congrArg Scan.organizer (Except.ok.inj h)).symm
      · split_ifs at h
        · exact (congrArg Scan.organizer (Except.ok.inj h)).symm
        · split at h
          · split_ifs at h
            exact (congrArg Scan.organizer (Except.ok.inj h)).symm
          · exact (congrArg Scan.organizer (Except.ok.inj h)).symm
    · exact (congrArg Scan.organizer (Except.ok.inj h)).symm

theorem organizer_foldlM_read {l : List ICalendarEntry} {s t : Scan}
    (h : l.foldlM (read C accountEmails force) s = .ok t) : OrganizerRead (l.filterMap (organizerAddress C)) s t := by
  induction l generalizing s with
  | nil => exact .of_eq (congrArg organizer (Except.ok.inj h)).symm
  | cons e l ih =>
    obtain ⟨u, hu, ht⟩ := bind_eq_ok h
    have hcons : (e :: l).filterMap (organizerAddress C) =
        (organizerAddress C e).toList ++ l.filterMap (organizerAddress C) := by
      rw [filterMap_cons]
      cases organizerAddress C e <;> rfl
    rw [hcons]
    exact (organizer_read hu).trans (ih ht)

theorem organizer_component {s t : Scan} (h : s.component C ical accountEmails force c = .ok t) :
    OrganizerRead (if C.isSchedulingObject c.1.componentType then c.1.entries.filterMap (organizerAddress C) else [])
      s t := by
  unfold component at h
  split_ifs at h with hsched hother
  · rw [Bool.not_eq_true'] at hsched
    rw [if_neg (by simp [hsched])]
    exact .of_eq (congrArg organizer (Except.ok.inj h)).symm
  · obtain ⟨u, hu, ht⟩ := bind_eq_ok h
    have htrue : C.isSchedulingObject c.1.componentType = true := by simpa using hsched
    rw [if_pos htrue]
    have hread := organizer_foldlM_read hu
    split_ifs at ht with hmem
    obtain rfl := Except.ok.inj ht
    exact ⟨hread.kept, hread.all, hread.named⟩

theorem organizer_foldlM_component {s t : Scan}
    (h : l.foldlM (component C ical accountEmails force) s = .ok t) :
    OrganizerRead (organizersOf C ⟨l.map Prod.fst⟩) s t := by
  induction l generalizing s with
  | nil => exact .of_eq (congrArg organizer (Except.ok.inj h)).symm
  | cons c l ih =>
    obtain ⟨u, hu, ht⟩ := bind_eq_ok h
    exact (organizer_component hu).trans (ih ht)

/-- **The organizer of a snapshot** is the one that every scheduling component names. -/
theorem organizer_itipSnapshot (h : itipSnapshot C ical accountEmails force = .ok s) :
    (∀ a ∈ organizersOf C ical, a = s.organizer.email.email) ∧ s.organizer.email.email ∈ organizersOf C ical := by
  unfold itipSnapshot at h
  split_ifs at h
  obtain ⟨t, ht, hs⟩ := bind_eq_ok h
  have hread := organizer_foldlM_component ht
  rw [zipIdx_map_fst] at hread
  split_ifs at hs
  split at hs
  · cases hs
  · cases hs
  · rename_i organizer uid ho _
    obtain rfl := Except.ok.inj hs
    refine ⟨fun a ha => ?_, ?_⟩
    · obtain ⟨o, ho', hemail⟩ := hread.all a ha
      rw [← hemail, Option.some.inj (ho'.symm.trans ho)]
    · exact (hread.named organizer ho).resolve_left (by simp)

end MailServer.Groupware
