import MailServer.Groupware.Scheduling.Itip
import Mathlib.Data.List.Sort

/-!
# Messages of the organizer (`scheduling/organizer.rs`, `event_update.rs`, `event_create.rs`, `itip_cancel`)

An index that is out of range and a failed `unwrap` stop the request: `none`.
-/

namespace MailServer.Groupware

variable (C : Calcard)

/-- `organizer_request_full` while it goes over the components. -/
structure FullRequest where
  components : List ICalendarComponent
  recipients : List String
  copyComponents : List ℕ
  incremented : List ℕ

/-- `Vec::push` on the components that the first one lists. -/
def pushRoot (components : List ICalendarComponent) (compId : ℕ) : List ICalendarComponent :=
  components.modify 0 fun root => { root with componentIds := root.componentIds ++ [compId] }

def requestComponent (ical : ICalendar) (itip : ItipSnapshots) (increment isFirstRequest : Bool) (s : FullRequest)
    (comp : ItipSnapshot) : FullRequest :=
  -- Private components are not sent.
  if comp.attendees = [] then s
  else
    let sequence := if increment then comp.sequence.getD 0 + 1 else comp.sequence.getD 0
    let origComponent := (ical.components[comp.compId]?).getD ⟨.vCalendar, [], []⟩
    let component := itipExportComponent origComponent itip.uid C.now sequence (.organizer .needsAction)
    let alarms := if isFirstRequest then
        origComponent.componentIds.filter fun i => (ical.components[i]?).any (·.componentType = .vAlarm)
      else []
    { components := pushRoot (s.components.set comp.compId { component with componentIds := alarms }) comp.compId
      recipients := s.recipients ++ (comp.attendees.filter fun attendee =>
        (isFirstRequest && attendee.sendInviteMessages) || (!isFirstRequest && attendee.sendUpdateMessages)).map
          (·.email.email)
      copyComponents := s.copyComponents ++ alarms
      incremented := if increment then s.incremented ++ [comp.compId] else s.incremented }

/-- Time zones and alarms are copied as they are. -/
def copyComponent (s : FullRequest) (comp : ICalendarComponent × ℕ) : FullRequest :=
  if comp.1.componentType = .vTimezone then
    { s with
      components := (pushRoot s.components comp.2).set comp.2 comp.1
      copyComponents := s.copyComponents ++ comp.1.componentIds }
  else if comp.2 ∈ s.copyComponents then { s with components := s.components.set comp.2 comp.1 }
  else s

/-- The full request, and the components whose sequence numbers were raised in it. -/
def organizerRequestFull (ical : ICalendar) (itip : ItipSnapshots) (increment isFirstRequest : Bool) :
    Except ItipError (List ItipMessage) × List ℕ :=
  let components := (List.replicate ical.components.length ⟨.vCalendar, [], []⟩).set 0 (itipBuildEnvelope .request)
  let s := ((C.entries itip.components).map Prod.snd).foldl (requestComponent C ical itip increment isFirstRequest)
    ⟨components, [], [], []⟩
  let s := ical.components.zipIdx.foldl copyComponent s
  let message : ICalendar := ⟨s.components.modify 0 fun root =>
    { root with componentIds := root.componentIds.insertionSort (· ≤ ·) }⟩
  let recipients := C.iter s.recipients.dedup
  (if recipients ≠ [] then
      .ok [⟨itip.organizer.email.email, true, recipients, .invite, message⟩]
    else .error .nothingToSend, s.incremented)

/-- The changes that raise the sequence number. -/
def ICalendarProperty.raisesSequence : ICalendarProperty → Bool
  | .dtstart | .dtend | .duration | .due | .rrule | .rdate | .exdate | .status | .location => true
  | _ => false

/-- Who is told of which instance, and how, and whether the sequence numbers go up. -/
structure ChangedInstances where
  instances : List (InstanceId × String × ICalendarMethod)
  incrementSequence : Bool

/-- The participants of the old version of an instance that the new version does not have. -/
def removedAttendees (oldInstance newInstance : ItipSnapshot) : List String :=
  C.iter (((oldInstance.externalAttendees.filter Attendee.sendUpdateMessages).map (·.email.email)).dedup.filter
    fun email => email ∉ newInstance.externalAttendees.map (·.email.email))

def changedInstance (oldItip : ItipSnapshots) (s : ChangedInstances) (e : InstanceId × ItipSnapshot) :
    Except ItipError ChangedInstances :=
  match oldItip.components.lookup e.1 with
  | some oldInstance =>
    let changedEntries : Bool := e.2.entries ≠ oldInstance.entries
    let changedAttendees : Bool := ¬ e.2.sameAttendees oldInstance
    if changedEntries || changedAttendees then
      let s := if changedEntries then
          { s with incrementSequence := s.incrementSequence || decide (∃ entry ∈
            (e.2.entries \ oldInstance.entries) ∪ (oldInstance.entries \ e.2.entries), entry.name.raisesSequence) }
        else s
      let s := if changedAttendees then
          ⟨s.instances ++ (removedAttendees C oldInstance e.2).map fun email => (e.1, email, .cancel), true⟩
        else s
      .ok { s with
        instances := s.instances ++ (e.2.attendees.filter Attendee.sendUpdateMessages).map fun attendee =>
          (e.1, attendee.email.email, .request) }
    else .ok s
  | none =>
    if e.1 ≠ .main then
      let method : ICalendarMethod := if C.status e.2.comp = some .cancelled then .cancel else .add
      .ok ⟨s.instances ++ (e.2.attendees.filter Attendee.sendInviteMessages).map fun attendee =>
        (e.1, attendee.email.email, method), true⟩
    else .error .cannotModifyInstance

def removedInstance (newItip : ItipSnapshots) (s : ChangedInstances) (e : InstanceId × ItipSnapshot) :
    Except ItipError ChangedInstances :=
  if e.1 ∈ newItip.components then .ok s
  else if e.1 ≠ .main then
    .ok ⟨s.instances ++ (e.2.attendees.filter Attendee.sendUpdateMessages).map fun attendee =>
      (e.1, attendee.email.email, .cancel), true⟩
  else .error .cannotModifyInstance

def changedInstances (oldItip newItip : ItipSnapshots) : Except ItipError ChangedInstances := do
  let s ← (C.entries newItip.components).foldlM (changedInstance C oldItip) ⟨[], false⟩
  (C.entries oldItip.components).foldlM (removedInstance newItip) s

/-- Who gets the full update, and who is told of single instances, with which methods. -/
structure SendUpdates where
  sendFullUpdate : Finset String
  sendPartialUpdate : AList fun _ : String => AList fun _ : ICalendarMethod => List InstanceId

def sendUpdate (s : SendUpdates) (c : InstanceId × String × ICalendarMethod) : SendUpdates :=
  if c.1 = .main ∧ c.2.2 = .request then
    ⟨insert c.2.1 s.sendFullUpdate, s.sendPartialUpdate.erase c.2.1⟩
  else if c.2.1 ∉ s.sendFullUpdate then
    match s.sendPartialUpdate.lookup c.2.1 with
    | some entry =>
      match entry.lookup c.2.2 with
      | some instances =>
        { s with sendPartialUpdate := s.sendPartialUpdate.insert c.2.1 (entry.insert c.2.2 (instances ++ [c.1])) }
      | none =>
        if entry.entries.isEmpty then
          { s with sendPartialUpdate := s.sendPartialUpdate.insert c.2.1 (entry.insert c.2.2 [c.1]) }
        -- Switch to full update for this participant
        else ⟨insert c.2.1 s.sendFullUpdate, s.sendPartialUpdate.erase c.2.1⟩
    | none => { s with sendPartialUpdate := s.sendPartialUpdate.insert c.2.1 (AList.singleton c.2.2 [c.1]) }
  else s

/-- What a message is about, and the recipients that it is the same for. -/
abbrev Updates := AList fun _ : ICalendarMethod × List InstanceId => List String

def pushUpdate (updates : Updates) (e : (ICalendarMethod × List InstanceId) × String) : Updates :=
  updates.insert e.1 ((updates.lookup e.1).getD [] ++ [e.2])

/-- Group updates by email and method -/
def groupUpdates (sendPartialUpdate : AList fun _ : String => AList fun _ : ICalendarMethod => List InstanceId) :
    Updates :=
  ((C.entries sendPartialUpdate).flatMap fun e => (C.entries e.2).map fun u =>
    ((u.1, C.sortInstances u.2), e.1)).foldl pushUpdate ∅

/-- The version of the event that the instances of a message are taken from. -/
structure Version where
  ical : ICalendar
  itip : ItipSnapshots

/-- The components of a message; after one that is only in the new version they are all taken from there. -/
def partialComponents (new : Version) (incrementSequence isCancel : Bool) (emails : List String) :
    List InstanceId → Version → Option (List ICalendarComponent × Version)
  | [], version => some ([], version)
  | instanceId :: instances, version => do
    let version := if instanceId ∈ version.itip.components then version else new
    let comp ← version.itip.components.lookup instanceId
    let sequence := if incrementSequence then comp.sequence.getD 0 + 1 else comp.sequence.getD 0
    let component := if isCancel then buildCancelComponent comp.comp sequence C.now emails
      else itipExportComponent comp.comp version.itip.uid C.now sequence (.organizer .needsAction)
    let (components, version) ← partialComponents new incrementSequence isCancel emails instances version
    return (component :: components, version)

def partialMessage (old new : Version) (incrementSequence : Bool)
    (e : (ICalendarMethod × List InstanceId) × List String) : Option ItipMessage := do
  let isCancel : Bool := e.1.1 = .cancel
  let (components, version) ← partialComponents C new incrementSequence isCancel e.2 e.1.2 (if isCancel then old else new)
  let root := { itipBuildEnvelope e.1.1 with componentIds := List.range' 1 components.length }
  return ⟨version.itip.organizer.email.email, true, e.2,
    if e.1.1 = .cancel then .cancel else .update e.1.1, itipAddTz C ⟨root :: components⟩ version.ical⟩

/-- The messages, and the components whose sequence numbers are to be raised in the stored event. -/
def organizerHandleUpdate (oldIcal newIcal : ICalendar) (oldItip newItip : ItipSnapshots) :
    Option (Except ItipError (List ItipMessage × List ℕ)) :=
  match changedInstances C oldItip newItip with
  | .error e => some (.error e)
  | .ok changed =>
    if changed.instances = [] then some (.error .nothingToSend)
    else
      let s := changed.instances.foldl sendUpdate ⟨∅, ∅⟩
      -- Prepare full updates
      let (full, sequences) : Except ItipError (List ItipMessage) × List ℕ :=
        if s.sendFullUpdate ≠ ∅ then organizerRequestFull C newIcal newItip changed.incrementSequence false
        else (.ok [], [])
      match full with
      | .error e =>
        if s.sendPartialUpdate = ∅ then some (.error e)
        else
          -- Prepare partial updates; the components that they raise are not added to `sequences`.
          ((C.entries (groupUpdates C s.sendPartialUpdate)).mapM
            (partialMessage C ⟨oldIcal, oldItip⟩ ⟨newIcal, newItip⟩ changed.incrementSequence)).map fun messages =>
              .ok (messages, sequences)
      | .ok full =>
        ((C.entries (groupUpdates C s.sendPartialUpdate)).mapM
          (partialMessage C ⟨oldIcal, oldItip⟩ ⟨newIcal, newItip⟩ changed.incrementSequence)).map fun messages =>
            .ok (full.map (fun message => { message with summary := .update .request }) ++ messages, sequences)

/-- The messages of a participant who is not the organizer (`scheduling/attendee.rs`). -/
structure AttendeeScheduling where
  handleUpdate : ICalendar → ItipSnapshots → ItipSnapshots → Except ItipError (List ItipMessage)
  decline : ICalendar → ItipSnapshots → Bool → Except ItipError ItipMessage

variable (A : AttendeeScheduling)

def itipCancel (ical : ICalendar) (accountEmails : List String) (isDeletion : Bool) : Except ItipError ItipMessage := do
  let itip ← itipSnapshot C ical accountEmails false
  if itip.organizer.email.isLocal then
    let components := C.entries itip.components
    let recipients := C.iter ((components.flatMap fun e =>
      (e.2.attendees.filter Attendee.sendUpdateMessages).map (·.email.email)).dedup)
    let componentType := (components.getLast?.map (·.2.comp.componentType)).getD .vEvent
    let sequence := ((itip.components.lookup .main).map fun comp => comp.sequence.getD 0 + 1).getD 0
    match (itip.components.lookup .main).or (components.head?.map Prod.snd) with
    | none => .error .nothingToSend
    | some inst =>
      if recipients ≠ [] ∧ componentType ≠ .vFreebusy then
        let message : ICalendar := ⟨[{ itipBuildEnvelope .cancel with componentIds := [1] },
          buildCancelComponent inst.comp sequence C.now []]⟩
        .ok ⟨itip.organizer.email.email, true, recipients, .cancel, itipAddTz C message ical⟩
      else .error .nothingToSend
  else A.decline ical itip isDeletion

/-- The messages about a new version of an event, and the event as it is stored. -/
def itipUpdate (ical oldIcal : ICalendar) (accountEmails : List String) :
    Option (Except ItipError (List ItipMessage × ICalendar)) :=
  match itipSnapshot C oldIcal accountEmails false with
  | .error e => some (.error e)
  | .ok oldItip =>
    match itipSnapshot C ical accountEmails false with
    | .ok newItip =>
      -- RFC 6638 does not support replacing the organizer
      if oldItip.organizer.email.email ≠ newItip.organizer.email.email then some (.error .organizerMismatch)
      else if oldItip.organizer.email.isLocal then
        (organizerHandleUpdate C oldIcal ical oldItip newItip).map fun result =>
          result.map fun r => (r.1, itipFinalize C ical r.2)
      else
        some ((A.handleUpdate ical oldItip newItip).map fun messages => (messages, itipFinalize C ical []))
    | .error err =>
      if err ∈ [ItipError.noSchedulingInfo, .notOrganizer, .notOrganizerNorAttendee, .otherSchedulingAgent] then
        if oldItip.organizer.email.isLocal then
          -- RFC 6638 does not support replacing the organizer, so we cancel the event
          some ((itipCancel C A oldIcal accountEmails false).map fun message => ([message], ical))
        else some (.error .cannotModifyAddress)
      else some (.error err)

end MailServer.Groupware
