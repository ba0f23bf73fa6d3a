import MailServer.Groupware.Scheduling.Snapshot

/-!
# Components of messages (`scheduling/itip.rs`, `build_cancel_component`)

* `instanceOf_export`, `sequenceOf_export`, `listed_export`: what a component that is sent says of its instance.
* `itipFinalize`: what is stored after the messages are made, with the sequence numbers of the components raised.
-/

namespace MailServer.Groupware

open MailServer.Lib List ICalendarComponent

def PROD_ID : String := "-//Stalwart Labs LLC//Stalwart Server//EN"

namespace ICalendarComponent

def addDtstamp (comp : ICalendarComponent) (dtStamp : PartialDateTime) : ICalendarComponent :=
  { comp with entries := comp.entries ++ [⟨.dtstamp, [], [.partialDateTime dtStamp]⟩] }

def addSequence (comp : ICalendarComponent) (sequence : ℤ) : ICalendarComponent :=
  { comp with entries := comp.entries ++ [⟨.sequence, [], [.integer sequence]⟩] }

def addUid (comp : ICalendarComponent) (uid : String) : ICalendarComponent :=
  { comp with entries := comp.entries ++ [⟨.uid, [], [.text uid]⟩] }

def addProperty (comp : ICalendarComponent) (name : ICalendarProperty) (value : ICalendarValue) : ICalendarComponent :=
  { comp with entries := comp.entries ++ [⟨name, [], [value]⟩] }

end ICalendarComponent

def itipBuildEnvelope (method : ICalendarMethod) : ICalendarComponent where
  componentType := .vCalendar
  entries := [⟨.version, [], [.text "2.0"]⟩, ⟨.prodid, [], [.text PROD_ID]⟩, ⟨.method, [], [.method method]⟩]
  componentIds := []

inductive ItipExportAs
  | organizer (partstat : ICalendarParticipationStatus)
  | attendee (attendeeEntryIds : List ℕ)

/-- The parameters that are between the server and its own user. -/
def ICalendarParameterName.isSchedule : ICalendarParameterName → Bool
  | .scheduleStatus | .scheduleAgent | .scheduleForceSend => true
  | _ => false

/-- A participant as the organizer tells of it. -/
def exportParticipant (partstat : ICalendarParticipationStatus) (entry : ICalendarEntry) : ICalendarEntry :=
  let params := entry.params.filter fun param => !param.name.isSchedule
  let hasPartstat := params.any fun param => param.name = .partstat
  let rsvp : Bool :=
    params.foldl (fun rsvp param => if param.name = .rsvp then decide (param.value ≠ .bool false) else rsvp) true
  { entry with
    params := if !hasPartstat && rsvp && entry.name = .attendee then params ++ [⟨.partstat, .partstat partstat⟩]
      else params }

/-- What is sent of a property. -/
def exportEntry (isTodo : Bool) (exportAs : ItipExportAs) (entry : ICalendarEntry) (entryId : ℕ) :
    Option ICalendarEntry :=
  match exportAs with
  | .organizer partstat =>
    match entry.name with
    | .organizer | .attendee => some (exportParticipant partstat entry)
    | .requestStatus | .dtstamp | .sequence | .uid => none
    | _ => some entry
  | .attendee attendeeEntryIds =>
    match entry.name with
    | .organizer => some { entry with params := entry.params.filter fun param => !param.name.isSchedule }
    | .attendee =>
      if entryId ∈ attendeeEntryIds then
        some { entry with params := entry.params.filter fun param => !param.name.isSchedule }
      else none
    | .recurrenceId | .dtstart | .dtend | .duration | .due | .description | .summary => some entry
    | .status | .percentComplete | .completed => if isTodo then some entry else none
    | _ => none

def itipExportComponent (component : ICalendarComponent) (uid : String) (dtStamp : PartialDateTime) (sequence : ℤ)
    (exportAs : ItipExportAs) : ICalendarComponent :=
  let isTodo := component.componentType = .vTodo
  let comp := ((ICalendarComponent.mk component.componentType [] []).addDtstamp dtStamp).addSequence sequence
  let comp := comp.addUid uid
  { comp with
    entries := comp.entries ++
      component.entries.zipIdx.filterMap (fun e => exportEntry isTodo exportAs e.1 e.2) ++
      match exportAs with
      | .organizer _ => []
      | .attendee _ => [⟨.requestStatus, [], [.text "2.0", .text "Success"]⟩] }

/-- The address ends with one of the recipients'. -/
def cancels (attendees : List String) (entry : ICalendarEntry) : Bool :=
  match entry.values.head?.bind ICalendarValue.asText with
  | none => false
  | some email => attendees.any fun attendee =>
    attendee.toList.isSuffixOf email.toList &&
      ((email.toList.rdrop attendee.length).getLast?.all (· = ':'))

def buildCancelComponent (component : ICalendarComponent) (sequence : ℤ) (dtStamp : PartialDateTime)
    (attendees : List String) : ICalendarComponent :=
  let cancelComp := (ICalendarComponent.mk component.componentType [] []).addProperty .status (.status .cancelled)
  let cancelComp := (cancelComp.addDtstamp dtStamp).addSequence sequence
  { cancelComp with
    entries := cancelComp.entries ++ component.entries.filter fun e =>
      match e.name with
      | .organizer | .uid | .summary | .dtstart | .dtend | .duration | .due | .recurrenceId | .created | .lastModified
      | .description | .location => true
      | .attendee => attendees.isEmpty || cancels attendees e
      | _ => false }

/-- The first `SEQUENCE` of the properties goes up by one. -/
def raiseSequence : List ICalendarEntry → List ICalendarEntry
  | [] => [⟨.sequence, [], [.integer 1]⟩]
  | entry :: entries =>
    if entry.name = .sequence then
      { entry with
        values := match entry.values with
          | .integer seq :: values => .integer (seq + 1) :: values
          | _ => [.integer 1] } :: entries
    else entry :: raiseSequence entries

/-- The participants without what forces a message to them. -/
def removeForceSend (entry : ICalendarEntry) : ICalendarEntry :=
  if entry.name = .organizer ∨ entry.name = .attendee then
    { entry with params := entry.params.filter fun param => param.name ≠ .scheduleForceSend }
  else entry

def itipFinalize (C : Calcard) (ical : ICalendar) (schedulingObjectIds : List ℕ) : ICalendar :=
  let ical : ICalendar := ⟨ical.components.map fun comp =>
    if C.isSchedulingObject comp.componentType then { comp with entries := comp.entries.map removeForceSend } else comp⟩
  schedulingObjectIds.foldl (fun ical compId =>
    ⟨ical.components.modify compId fun comp => { comp with entries := raiseSequence comp.entries }⟩) ical

/-- A component names a time zone before any of the zones stands in the message. -/
def needsTz : List ICalendarComponent → Bool
  | [] => false
  | c :: components =>
    if c.componentType = .vTimezone then false
    else (c.entries.any fun e => e.params.any fun p => p.name = .tzid) || needsTz components

def itipAddTz (C : Calcard) (message ical : ICalendar) : ICalendar :=
  if needsTz message.components then C.copyTimezones message ical else message

/-! ## What a component that is sent says -/

/-- The address of a participant, as it is compared. -/
def participant (C : Calcard) (entry : ICalendarEntry) : Option String :=
  if entry.name = .attendee then (addressOf C [] entry).map Email.email else none

/-- The participants that a component lists. -/
def listed (C : Calcard) (comp : ICalendarComponent) : List String := comp.entries.filterMap (participant C)

variable {C : Calcard} {ical : ICalendar} {comp : ICalendarComponent} {uid : String} {dtStamp : PartialDateTime}
  {sequence : ℤ} {partstat : ICalendarParticipationStatus} {attendees : List String}

theorem instanceOf_congr {comp' : ICalendarComponent}
    (h : comp.entries.filter (·.name = .recurrenceId) = comp'.entries.filter (·.name = .recurrenceId)) :
    instanceOf C ical comp = instanceOf C ical comp' := by
  have hfold (l : List ICalendarEntry) (id : InstanceId) :
      l.foldl (InstanceId.read C ical) id = (l.filter (·.name = .recurrenceId)).foldl (InstanceId.read C ical) id := by
    induction l generalizing id with
    | nil => rfl
    | cons e l ih =>
      by_cases he : e.name = .recurrenceId
      · rw [filter_cons_of_pos (by simpa using he), foldl_cons, foldl_cons, ih]
      · rw [filter_cons_of_neg (by simpa using he), foldl_cons, ← ih]
        rw [InstanceId.read, if_neg he]
  rw [instanceOf, instanceOf, hfold, h, ← hfold]

theorem exportEntry_organizer {isTodo : Bool} {entry entry' : ICalendarEntry} {i : ℕ}
    (h : exportEntry isTodo (.organizer partstat) entry i = some entry') :
    entry'.name = entry.name ∧ entry'.values = entry.values ∧
      (entry.name ≠ .organizer → entry.name ≠ .attendee → entry' = entry) := by
  unfold exportEntry at h
  dsimp only at h
  split at h
  · obtain rfl := Option.some.inj h
    exact ⟨rfl, rfl, fun hne => absurd ‹_› hne⟩
  · obtain rfl := Option.some.inj h
    exact ⟨rfl, rfl, fun _ hne => absurd ‹_› hne⟩
  · cases h
  · cases h
  · cases h
  · cases h
  · obtain rfl := Option.some.inj h
    exact ⟨rfl, rfl, fun _ _ => rfl⟩

theorem exportEntry_eq_none {isTodo : Bool} {entry : ICalendarEntry} {i : ℕ}
    (h : exportEntry isTodo (.organizer partstat) entry i = none) :
    entry.name ∈ [ICalendarProperty.requestStatus, .dtstamp, .sequence, .uid] := by
  unfold exportEntry at h
  dsimp only at h
  split at h <;> first | (rename_i hname; rw [hname]; decide) | cases h

theorem entries_export : (itipExportComponent comp uid dtStamp sequence (.organizer partstat)).entries =
    [⟨.dtstamp, [], [.partialDateTime dtStamp]⟩, ⟨.sequence, [], [.integer sequence]⟩, ⟨.uid, [], [.text uid]⟩] ++
      comp.entries.zipIdx.filterMap fun e =>
        exportEntry (decide (comp.componentType = .vTodo)) (.organizer partstat) e.1 e.2 := by
  simp [itipExportComponent, addDtstamp, addSequence, addUid]

theorem filterMap_export {α : Type} (f : ICalendarEntry → Option α)
    (hf : ∀ e e' : ICalendarEntry, e'.name = e.name → e'.values = e.values →
      (e.name ≠ .organizer → e.name ≠ .attendee → e' = e) → f e' = f e)
    (hnone : ∀ e : ICalendarEntry, e.name ∈ [ICalendarProperty.requestStatus, .dtstamp, .sequence, .uid] → f e = none) :
    (itipExportComponent comp uid dtStamp sequence (.organizer partstat)).entries.filterMap f =
      comp.entries.filterMap f := by
  have hmap (l : List (ICalendarEntry × ℕ)) (isTodo : Bool) :
      (l.filterMap fun e => exportEntry isTodo (.organizer partstat) e.1 e.2).filterMap f =
        (l.map Prod.fst).filterMap f := by
    induction l with
    | nil => rfl
    | cons e l ih =>
      cases he : exportEntry isTodo (.organizer partstat) e.1 e.2 with
      | none => simp [he, hnone _ (exportEntry_eq_none he), ih]
      | some entry' =>
        obtain ⟨hname, hvalues, hsame⟩ := exportEntry_organizer he
        simp [filterMap_cons, he, hf e.1 entry' hname hvalues hsame, ih]
  rw [entries_export, filterMap_append, hmap]
  simp [hnone]

theorem instanceOf_export :
    instanceOf C ical (itipExportComponent comp uid dtStamp sequence (.organizer partstat)) = instanceOf C ical comp := by
  apply instanceOf_congr
  rw [← filterMap_eq_filter]
  apply filterMap_export
  · intro e e' hname _ hsame
    by_cases he : e.name = .recurrenceId
    · rw [hsame (by rw [he]; decide) (by rw [he]; decide)]
    · simp [Option.guard, hname, he]
  · intro e he
    have hne : e.name ≠ .recurrenceId := by
      rintro h
      rw [h] at he
      exact absurd he (by decide)
    simp [hne]

theorem instanceOf_cancel :
    instanceOf C ical (buildCancelComponent comp sequence dtStamp attendees) = instanceOf C ical comp := by
  apply instanceOf_congr
  simp only [buildCancelComponent, filter_append, filter_filter]
  refine filter_congr fun e _ => ?_
  by_cases he : e.name = .recurrenceId
  · simp [he]
  · simp [he]

theorem sequenceOf_export :
    sequenceOf (itipExportComponent comp uid dtStamp sequence (.organizer partstat)) = some sequence := by
  have hmap (l : List (ICalendarEntry × ℕ)) (isTodo : Bool) :
      (l.filterMap fun e => exportEntry isTodo (.organizer partstat) e.1 e.2).filterMap sequenceNumber = [] := by
    rw [filterMap_filterMap, filterMap_eq_nil_iff]
    intro e _
    cases he : exportEntry isTodo (.organizer partstat) e.1 e.2 with
    | none => rfl
    | some entry' =>
      obtain ⟨hname, -, -⟩ := exportEntry_organizer he
      have hne : entry'.name ≠ .sequence := by
        intro h
        rw [exportEntry, ← hname, h] at he
        cases he
      exact if_neg hne
  rw [sequenceOf, entries_export, filterMap_append, hmap]
  rfl

theorem listed_export :
    listed C (itipExportComponent comp uid dtStamp sequence (.organizer partstat)) = listed C comp := by
  refine filterMap_export (participant C) (fun e e' hname hvalues _ => ?_) fun e he => ?_
  · rw [participant, participant, hname, addressOf, addressOf, hvalues]
  · refine if_neg fun h => ?_
    rw [h] at he
    exact absurd he (by decide)

/-! ## Participants that a component lists -/

variable {accountEmails : List String} {email : String}

theorem attendeeParam_email (a : Attendee) (param : ICalendarParameter) :
    (attendeeParam C accountEmails a param).email = a.email := by
  unfold attendeeParam
  split <;> rfl

theorem email_attendeeOf {i : ℕ} {entry : ICalendarEntry} {a : Attendee}
    (h : attendeeOf C accountEmails i entry = some a) : addressOf C accountEmails entry = some a.email := by
  obtain ⟨address, haddress, rfl⟩ := Option.map_eq_some_iff.mp h
  have hfold (l : List ICalendarParameter) (b : Attendee) :
      (l.foldl (attendeeParam C accountEmails) b).email = b.email := by
    induction l generalizing b with
    | nil => rfl
    | cons p l ih => exact (ih _).trans (attendeeParam_email b p)
  rw [haddress, hfold]

theorem mem_listed (accountEmails : List String) {comp : ICalendarComponent} :
    email ∈ listed C comp ↔ ∃ a ∈ attendeesAt C accountEmails comp, a.email.email = email := by
  have hat (entry : ICalendarEntry) (i : ℕ) :
      (attendeeAt C accountEmails (entry, i)).map (·.email.email) = participant C entry := by
    unfold attendeeAt participant
    split_ifs with hname
    · rw [address_congr [] accountEmails]
      cases ha : attendeeOf C accountEmails i entry with
      | none =>
        rw [Option.map_eq_none_iff.mp ha]
        rfl
      | some a =>
        rw [email_attendeeOf ha]
        rfl
    · rfl
  rw [listed, mem_filterMap]
  constructor
  · rintro ⟨entry, hentry, hparticipant⟩
    obtain ⟨i, hi⟩ := mem_iff_getElem?.mp hentry
    rw [← hat entry i, Option.map_eq_some_iff] at hparticipant
    obtain ⟨a, ha, hemail⟩ := hparticipant
    exact ⟨a, mem_filterMap.mpr ⟨(entry, i), mem_zipIdx_iff_getElem?.mpr hi, ha⟩, hemail⟩
  · rintro ⟨a, ha, hemail⟩
    obtain ⟨⟨entry, i⟩, hentry, hat'⟩ := mem_filterMap.mp ha
    refine ⟨entry, mem_of_getElem? (mem_zipIdx_iff_getElem?.mp hentry), ?_⟩
    rw [← hat entry i, hat', Option.map_some, hemail]

/-! ## What is stored -/

/-- The sequence number of a component; without a `SEQUENCE` it is zero. -/
def sequenceNumberOf (comp : ICalendarComponent) : ℤ := (sequenceOf comp).getD 0

/-- The numbers of the `SEQUENCE` properties after the first. -/
def laterNumbers (entries : List ICalendarEntry) : List ℤ :=
  ((entries.filter (·.name = .sequence)).drop 1).filterMap sequenceNumber

/-- A component as it is stored after the messages. -/
def finalized (C : Calcard) (comp : ICalendarComponent) : ICalendarComponent :=
  if C.isSchedulingObject comp.componentType then { comp with entries := comp.entries.map removeForceSend } else comp

def raised (comp : ICalendarComponent) : ICalendarComponent := { comp with entries := raiseSequence comp.entries }

theorem removeForceSend_same (entry : ICalendarEntry) :
    (removeForceSend entry).name = entry.name ∧ (removeForceSend entry).values = entry.values := by
  unfold removeForceSend
  split <;> exact ⟨rfl, rfl⟩

theorem sequenceNumber_congr {entry entry' : ICalendarEntry} (hname : entry'.name = entry.name)
    (hvalues : entry'.values = entry.values) : sequenceNumber entry' = sequenceNumber entry := by
  rw [sequenceNumber, sequenceNumber, hname, hvalues]

theorem sequenceOf_finalized : sequenceOf (finalized C comp) = sequenceOf comp := by
  unfold finalized
  split
  · have hmap (l : List ICalendarEntry) : (l.map removeForceSend).filterMap sequenceNumber = l.filterMap sequenceNumber := by
      rw [filterMap_map]
      refine filterMap_congr fun e _ => ?_
      exact sequenceNumber_congr (removeForceSend_same e).1 (removeForceSend_same e).2
    rw [sequenceOf, hmap]
    rfl
  · rfl

theorem laterNumbers_finalized : laterNumbers (finalized C comp).entries = laterNumbers comp.entries := by
  unfold finalized
  split
  · unfold laterNumbers
    rw [filter_map, ← map_drop, filterMap_map]
    have hfilter : (fun e : ICalendarEntry => decide (e.name = .sequence)) ∘ removeForceSend =
        fun e => decide (e.name = .sequence) := by
      ext e
      rw [Function.comp_apply, (removeForceSend_same e).1]
    rw [hfilter]
    refine filterMap_congr fun e _ => ?_
    exact sequenceNumber_congr (removeForceSend_same e).1 (removeForceSend_same e).2
  · rfl

theorem instanceOf_finalized : instanceOf C ical (finalized C comp) = instanceOf C ical comp := by
  unfold finalized
  split
  · apply instanceOf_congr
    rw [filter_map]
    have hfilter : (fun e : ICalendarEntry => decide (e.name = .recurrenceId)) ∘ removeForceSend =
        fun e => decide (e.name = .recurrenceId) := by
      ext e
      rw [Function.comp_apply, (removeForceSend_same e).1]
    rw [hfilter]
    refine (map_congr_left fun e he => ?_).trans (map_id _)
    have hname : e.name = .recurrenceId := of_decide_eq_true (mem_filter.mp he).2
    rw [removeForceSend, hname, if_neg (by decide), id]
  · rfl

theorem instanceOf_raised : instanceOf C ical (raised comp) = instanceOf C ical comp := by
  apply instanceOf_congr
  have h (l : List ICalendarEntry) : (raiseSequence l).filter (·.name = .recurrenceId) =
      l.filter (·.name = .recurrenceId) := by
    induction l with
    | nil => rfl
    | cons e l ih =>
      rw [raiseSequence]
      split_ifs with he
      · rw [filter_cons_of_neg (by simp [he]), filter_cons_of_neg (by simp [he])]
      · rw [filter_cons, filter_cons, ih]
  exact h comp.entries

theorem sequenceNumberOf_raised : sequenceNumberOf (raised comp) =
    if laterNumbers comp.entries = [] then sequenceNumberOf comp + 1 else sequenceNumberOf comp := by
  have h (l : List ICalendarEntry) : ((raiseSequence l).filterMap sequenceNumber).getLast?.getD 0 =
      if laterNumbers l = [] then (l.filterMap sequenceNumber).getLast?.getD 0 + 1
      else (l.filterMap sequenceNumber).getLast?.getD 0 := by
    induction l with
    | nil => rfl
    | cons e l ih =>
      rw [raiseSequence]
      by_cases he : e.name = .sequence
      · have hlater : laterNumbers (e :: l) = l.filterMap sequenceNumber := by
          rw [laterNumbers, filter_cons_of_pos (by simpa using he), drop_one, tail_cons,
            filterMap_filter]
          refine filterMap_congr fun e' _ => ?_
          by_cases he' : e'.name = .sequence
          · rw [if_pos (by simpa using he')]
          · rw [if_neg (by simpa using he'), sequenceNumber, if_neg he']
        rw [if_pos he, hlater]
        rcases hnil : l.filterMap sequenceNumber with _ | ⟨n, ns⟩
        · cases hvalues : e.values with
          | nil => simp [sequenceNumber, he, hvalues, hnil, ICalendarValue.asInteger]
          | cons v vs => cases v <;> simp [sequenceNumber, he, hvalues, hnil, ICalendarValue.asInteger]
        · rw [if_neg (cons_ne_nil _ _)]
          have hlast (entry : ICalendarEntry) : ((entry :: l).filterMap sequenceNumber).getLast? = (n :: ns).getLast? := by
            rw [filterMap_cons, hnil]
            cases sequenceNumber entry <;> simp [getLast?_cons_cons]
          rw [hlast, hlast]
      · have hnone : sequenceNumber e = none := if_neg he
        have hlater : laterNumbers (e :: l) = laterNumbers l := by
          rw [laterNumbers, filter_cons_of_neg (by simpa using he)]
          rfl
        rw [if_neg he, filterMap_cons_none hnone, filterMap_cons_none hnone, hlater, ih]
  exact h comp.entries

theorem getElem?_foldl_modify {α : Type} (f : α → α) {ids : List ℕ} (hids : ids.Nodup) (l : List α) (i : ℕ) :
    (ids.foldl (fun l id => l.modify id f) l)[i]? = l[i]?.map fun a => if i ∈ ids then f a else a := by
  induction ids generalizing l with
  | nil => simp
  | cons id ids ih =>
    obtain ⟨hid, hids⟩ := nodup_cons.mp hids
    rw [foldl_cons, ih hids, getElem?_modify, Option.map_eq_map, Option.map_map]
    congr 1
    ext a
    by_cases h : id = i
    · subst h
      simp [hid]
    · simp [h, Ne.symm h]

/-- **What is stored** of each component. -/
theorem getElem?_itipFinalize {ids : List ℕ} (hids : ids.Nodup) (i : ℕ) :
    (itipFinalize C ical ids).components[i]? =
      ical.components[i]?.map fun comp => if i ∈ ids then raised (finalized C comp) else finalized C comp := by
  have hfold (l : List ℕ) (components : List ICalendarComponent) :
      (l.foldl (fun ical compId => ICalendar.mk (ical.components.modify compId fun comp =>
        { comp with entries := raiseSequence comp.entries })) ⟨components⟩).components =
      l.foldl (fun components compId => components.modify compId raised) components := by
    induction l generalizing components with
    | nil => rfl
    | cons id l ih => exact ih _
  unfold itipFinalize
  rw [hfold, getElem?_foldl_modify raised hids, getElem?_map, Option.map_map]
  rfl

end MailServer.Groupware
