import MailServer.Groupware.Calendar
import MailServer.JmapProto.Set
import MailServer.Utils.HashSet

/-!
# `CalendarEvent/set` and `CalendarEvent/copy` (`jmap/src/calendar_event`)

The creates, updates and destroys of a request are checked one by one, all of them against what was stored before the
request, and committed together.  iCalendar and JSCalendar objects are those of another package.

* `patchParentIds`, `readProperty`, `updateCalendarEvent`: what a create or an update says.
* `createCalendarEvent`, `updateEvent`, `destroyEvent`: the checks of one of them.
* `calendarEventSet`, `calendarEventCopy`: the methods.
-/

namespace MailServer.Jmap.CalendarEvent

open MailServer.Types MailServer.Common MailServer.JmapProto MailServer.Groupware MailServer.Utils MailServer.Lib
open SetError

/-! ## The request -/

inductive JSCalendarProperty where
  | id | baseEventId | isOrigin | method | isDraft | mayInviteSelf | mayInviteOthers | hideAttendees
  | useDefaultAlerts | utcStart | utcEnd | calendarIds | locations | participants | links | blobId
  | showWithoutTime | timeZone | start | duration | uid
  | idValue (i : Id)
  | pointer (p : List (JsonPointerItem JSCalendarProperty))
  | other (name : String)

inductive Value where
  | null
  | bool (b : Bool)
  | str (s : String)
  | dateTime (timestamp : ℤ)
  | duration (seconds : ℤ)
  | object (entries : List (Key JSCalendarProperty × Value))
  | other

abbrev Properties := List (Key JSCalendarProperty × Value)

abbrev Error := SetError JSCalendarProperty

/-- A create or an update, with the random names that are drawn for its links. -/
structure EventObject where
  properties : Properties
  randName : ℕ → String

structure SetRequest where
  accountId : Id
  /-- how many objects it names, counted with the keys that are no ids -/
  numObjects : ℕ
  create : List (String × EventObject)
  update : List (Id × EventObject)
  destroy : List Id
  sendSchedulingMessages : Option Bool

/-- A request to copy events of another account. -/
structure CopyRequest where
  fromAccountId : Id
  accountId : Id
  create : List (Id × EventObject)
  onSuccessDestroyOriginal : Option Bool

structure SetResponse where
  created : List (String × Id)
  notCreated : List (String × Error)
  updated : List Id
  notUpdated : List (Id × Error)
  destroyed : List Id
  notDestroyed : List (Id × Error)

structure CopyResponse where
  created : List (Id × Id)
  notCreated : List (Id × Error)
  /-- the originals that are to be destroyed by a call that follows -/
  destroyIds : List Id

/-! ## The server -/

/-- What the package of calendar formats does, on iCalendar objects `I` and JSCalendar groups `G` with one event. -/
structure Calcard (I G : Type) where
  newGroup : G
  intoJscalendar : I → G
  intoIcalendar : G → Option I
  /-- `insert` into the event of a group -/
  insert : G → JSCalendarProperty → Value → G
  patchJptr : G → List (JsonPointerItem JSCalendarProperty) → Value → Option G
  /-- local time in the time zone of the event -/
  timeZone : G → Option (ℤ → ℤ)
  /-- `into_expanded_boolean_set` -/
  booleanSet : Properties → List (Key JSCalendarProperty)
  uids : I → List String
  size : I → ℕ
  eventRangeEnd : I → ℤ
  /-- alarms are added to the components -/
  addAlarms : I → List DefaultAlert → I

def Calcard.uid {I G : Type} (cal : Calcard I G) (ical : I) : Option String := (cal.uids ical).head?

structure ItipMessage where
  fromOrganizer : Bool
  recipients : List String

structure ItipError where
  isJmapError : Bool
  text : String

/-- The settings of the server, and what it uses of other parts. -/
structure Server (I G : Type) where
  cal : Calcard I G
  setMaxObjects : ℕ
  maxIcalSize : ℕ
  itipEnabled : Bool
  itipOutboundMaxRecipients : ℕ
  hash : Groupware.CalendarEvent I → UInt32
  order : HashOrder ℕ
  hasAvailableQuota : Account I → ℕ → Bool
  itipCreate : I → List String → I × Except ItipError (List ItipMessage)
  itipUpdate : I → I → List String → I × Except ItipError (List ItipMessage)

/-- Who asks and when, and what happens to the batch of the request. -/
structure Circumstances where
  accessToken : AccessToken
  addresses : List String
  /-- `Permission::CalendarSchedulingSend` -/
  maySchedule : Bool
  now : ℤ
  cuts : List ℕ

variable {I G : Type} (s : Server I G)

/-! ## What a create or an update says -/

/-- The names that are kept of those there are, and the calendars that are left. -/
def retainNames : List DavName → Finset ℕ → List DavName × Finset ℕ
  | [], newIds => ([], newIds)
  | name :: rest, newIds =>
    if name.parentId ∈ newIds then
      let r := retainNames rest (newIds.erase name.parentId)
      (name :: r.1, r.2)
    else retainNames rest newIds

def idValue : Key JSCalendarProperty → Option ℕ
  | .property (.idValue id) => some id.documentId.toNat
  | _ => none

def patchParentIds (randName : ℕ → String) (current : List DavName) :
    Option (JsonPointerItem JSCalendarProperty) → Value → Except Error (List DavName)
  | some (.key (.property (.idValue id))), .bool false | some (.key (.property (.idValue id))), .null =>
    .ok (current.filter fun name => name.parentId ≠ id.documentId.toNat)
  | some (.key (.property (.idValue id))), .bool true =>
    let id := id.documentId.toNat
    if current.any fun name => name.parentId = id then .ok current else .ok (current ++ [⟨randName id, id⟩])
  | none, .object object =>
    let r := retainNames current ((s.cal.booleanSet object).filterMap idValue).toFinset
    .ok (r.1 ++ (s.order.iter r.2).map fun id => ⟨randName id, id⟩)
  | _, _ =>
    .error ((invalidProperties.withProperty .calendarIds).withDescription
      "Invalid patch operation for calendarIds.")

/-- What was read so far. -/
structure Draft (G : Type) where
  names : List DavName
  flags : UInt16
  group : G
  utcStart : Option ℤ
  utcEnd : Option ℤ
  useDefaultAlerts : Bool
  showWithoutTime : Bool

def Draft.setFlag (d : Draft G) (flag : UInt16) (set : Bool) : Draft G :=
  { d with flags := if set then d.flags ||| flag else d.flags &&& ~~~ flag }

def hasBlobId : Value → Bool
  | .object o => o.any fun e => (e.1 matches .property .blobId)
  | _ => false

/-- There is a link with a blob id in one of the values. -/
def linksBlob (values : Properties) : Bool :=
  values.any fun e =>
    match e.2 with
    | .object o =>
      match o.find? fun e => (e.1 matches .property .links) with
      | some (_, .object links) => links.any fun e => hasBlobId e.2
      | _ => false
    | _ => false

/-- One property. -/
def readProperty (randName : ℕ → String) (d : Draft G) : Key JSCalendarProperty × Value → Except Error (Draft G)
  | (.text text, _) => .error ((invalidProperties.withKey (.text text)).withDescription "Invalid property.")
  | (.property property, value) =>
    match property, value with
    | .isDraft, .bool set => .ok (d.setFlag EVENT_DRAFT set)
    | .mayInviteSelf, .bool set => .ok (d.setFlag EVENT_INVITE_SELF set)
    | .mayInviteOthers, .bool set => .ok (d.setFlag EVENT_INVITE_OTHERS set)
    | .hideAttendees, .bool set => .ok (d.setFlag EVENT_HIDE_ATTENDEES set)
    | .useDefaultAlerts, .bool set => .ok { d with useDefaultAlerts := set }
    | .utcStart, .dateTime start => .ok { d with utcStart := some start }
    | .utcEnd, .dateTime end_ => .ok { d with utcEnd := some end_ }
    | .calendarIds, value =>
      (patchParentIds s randName d.names none value).map fun names => { d with names }
    | .pointer (.key (.property .calendarIds) :: pointer), value =>
      (patchParentIds s randName d.names pointer.head? value).map fun names => { d with names }
    | .pointer pointer, value =>
      match s.cal.patchJptr d.group pointer value with
      | some group => .ok { d with group }
      | none =>
        .error ((invalidProperties.withProperty (.pointer pointer)).withDescription
          "Patch operation failed.")
    | .id, _ | .baseEventId, _ | .isOrigin, _ | .method, _ =>
      .error ((invalidProperties.withProperty property).withDescription "This property is immutable.")
    | .isDraft, _ | .mayInviteSelf, _ | .mayInviteOthers, _ | .hideAttendees, _ | .useDefaultAlerts, _
    | .utcStart, _ | .utcEnd, _ =>
      .error ((invalidProperties.withProperty property).withDescription "Invalid value.")
    | .locations, .object values | .participants, .object values =>
      if linksBlob values then
        .error ((invalidProperties.withProperty property).withDescription
          "blobIds in links is not supported.")
      else .ok { d with group := s.cal.insert d.group property (.object values) }
    | .showWithoutTime, .bool set =>
      .ok { d with showWithoutTime := set, group := s.cal.insert d.group property (.bool set) }
    | property, value => .ok { d with group := s.cal.insert d.group property value }

def timesError (description : String) : Error :=
  { (invalidProperties : Error).withDescription description with
    properties := some [.property (.property .utcStart), .property (.property .utcEnd)] }

/-- Validate UTC start/end. -/
def readTimes (d : Draft G) : Except Error G :=
  match d.utcStart, d.utcEnd with
  | some start, some end_ =>
    if end_ ≤ start then .error (timesError "utcStart must be before utcEnd.")
    else
      let (start, end_, group) :=
        match s.cal.timeZone d.group with
        | some localTime => (localTime start, localTime end_, d.group)
        | none => (start, end_, s.cal.insert d.group .timeZone (.str "Etc/UTC"))
      .ok (s.cal.insert (s.cal.insert group .start (.dateTime start)) .duration (.duration (end_ - start)))
  | none, none => .ok d.group
  | _, _ => .error (timesError "Both utcStart and utcEnd must be provided.")

/-- `update_calendar_event`: what becomes of the names, the flags and the group. -/
def updateCalendarEvent (object : EventObject) (names : List DavName) (flags : UInt16) (group : G) :
    Except Error (Draft G) := do
  let d ← object.properties.foldlM (readProperty s object.randName) ⟨names, flags, group, none, none, false, false⟩
  let group ← readTimes s d
  -- Make sure the calendar_event belongs to at least one calendar
  if d.names.isEmpty then
    .error ((invalidProperties.withProperty .calendarIds).withDescription
      "Event has to belong to at least one calendar.")
  else .ok { d with group }

/-! ## The checks -/

def idOf (documentId : ℕ) : Id := .ofDocumentId (.ofNat documentId)

/-- A calendar that an event is added to. -/
def checkCalendar (a : Account I) (canAddCalendars : Option (List ℕ)) (calendarId : ℕ) : Except Error Unit :=
  if a.calendars[calendarId]?.isNone then
    .error ((invalidProperties.withProperty .calendarIds).withDescription
      s!"calendarId {(idOf calendarId).asString} does not exist.")
  else if canAddCalendars.any fun ids => ¬ ids.contains calendarId then
    .error (forbidden.withDescription
      s!"You are not allowed to add calendar events to calendar {(idOf calendarId).asString}.")
  else .ok ()

/-- A calendar that an event is removed from, or changed in. -/
def checkAllowed (allowed : Option (List ℕ)) (forbidden : String → String) (calendarId : ℕ) : Except Error Unit :=
  if allowed.any fun ids => ¬ ids.contains calendarId then
    .error (SetError.forbidden.withDescription (forbidden (idOf calendarId).asString))
  else .ok ()

def toIcalendar (group : G) : Except Error I :=
  match s.cal.intoIcalendar group with
  | some ical => .ok ical
  | none => .error (invalidProperties.withDescription "Failed to convert calendar event to iCalendar.")

def assertIsUniqueUid (a : Account I) (uid : Option String) : Except Error Unit :=
  match uid with
  | some uid =>
    if a.documentExists uid then
      .error ((invalidProperties.withProperty .uid).withDescription
        s!"An event with UID {uid} already exists.")
    else .ok ()
  | none => .ok ()

/-- Validate UID, of an event after and before an update. -/
def checkUid : (new old : Option String) → Except Error Unit
  | some new, some old => if new = old then .ok () else changed
  | none, none | none, some _ => .ok ()
  | some _, none => changed
where
  changed : Except Error Unit :=
    .error ((invalidProperties.withProperty .uid).withDescription
      "You cannot change the UID of a calendar event.")

def checkSize (size : ℕ) : Except Error Unit :=
  if s.maxIcalSize < size then
    .error (invalidProperties.withDescription
      s!"Event size {size} exceeds the maximum allowed size of {s.maxIcalSize} bytes.")
  else .ok ()

def checkQuota (a : Account I) (size : ℕ) : Except Error Unit :=
  if s.hasAvailableQuota a size then .ok () else .error .overQuota

/-- Whether scheduling messages are sent for an event. -/
def schedules (c : Circumstances) (sendSchedulingMessages : Bool) (ical : I) : Bool :=
  sendSchedulingMessages && s.itipEnabled && !c.addresses.isEmpty && c.maySchedule && c.now < s.cal.eventRangeEnd ical

/-- What scheduling makes of an event and its tag, by what it is when there are messages and when there are none. -/
def scheduled (r : I × Except ItipError (List ItipMessage)) (sent : List ItipMessage → Option ℕ) (unsent : Option ℕ) :
    Except Error (I × Option ℕ) :=
  match r.2 with
  | .ok messages =>
    if (messages.map fun m => m.recipients.length).sum < s.itipOutboundMaxRecipients then .ok (r.1, sent messages)
    else
      .error ((invalidProperties.withProperty .participants).withDescription
        "The number of scheduling message recipients exceeds the maximum allowed.")
  | .error err =>
    if err.isJmapError then
      .error ((invalidProperties.withProperty .participants).withDescription err.text)
    else .ok (r.1, unsent)

/-- The scheduling of a create. -/
def scheduleCreate (c : Circumstances) (sendSchedulingMessages : Bool) (ical : I) : Except Error (I × Option ℕ) :=
  if schedules s c sendSchedulingMessages ical then
    scheduled s (s.itipCreate ical c.addresses) (fun _ => some 1) none
  else .ok (ical, none)

/-- The scheduling of an update, with the tag and the object before it. -/
def scheduleUpdate (c : Circumstances) (sendSchedulingMessages : Bool) (old : I) (scheduleTag : Option ℕ) (ical : I) :
    Except Error (I × Option ℕ) :=
  if schedules s c sendSchedulingMessages ical then
    match scheduleTag with
    | some tag =>
      -- Only update schedule tag if the user is the organizer
      scheduled s (s.itipUpdate ical old c.addresses)
        (fun messages => some (if messages.getLast?.any ItipMessage.fromOrganizer then tag + 1 else tag)) (some (tag + 1))
    | none =>
      scheduled s (s.itipCreate ical c.addresses)
        (fun messages => if messages.getLast?.any ItipMessage.fromOrganizer then some 1 else none) none
  else .ok (ical, scheduleTag)

/-- Add default alarms. -/
def addDefaultAlerts (a : Account I) (t : AccessToken) (d : Draft G) (ical : I) : I :=
  let alerts := d.names.flatMap fun name =>
    (a.calendars[name.parentId]?.map fun k => k.defaultAlerts t (!d.showWithoutTime)).getD []
  if d.useDefaultAlerts && !alerts.isEmpty then s.cal.addAlarms ical alerts else ical

/-- `create_calendar_event`. -/
def createCalendarEvent (a : Account I) (c : Circumstances) (sendSchedulingMessages : Bool)
    (canAddCalendars : Option (List ℕ)) (group : G) (object : EventObject) :
    Except Error (Groupware.CalendarEvent I) := do
  let d ← updateCalendarEvent s object [] 0 group
  let ical ← toIcalendar s d.group
  d.names.forM fun name => checkCalendar a canAddCalendars name.parentId
  let ical := addDefaultAlerts s a c.accessToken d ical
  assertIsUniqueUid a (s.cal.uid ical)
  checkSize s (s.cal.size ical)
  let (event, scheduleTag) ← scheduleCreate s c sendSchedulingMessages ical
  checkQuota s a (s.cal.size ical)
  .ok ⟨d.names, event, d.flags, s.cal.size ical, scheduleTag⟩

/-- The calendars that a user may change in some way; `none` is all of them. -/
def allowedCalendars (a : Account I) (t : AccessToken) (accountId : UInt32) (acl : Acl) : Option (List ℕ) :=
  if t.isShared accountId then
    some ((a.calendars.toList.filter fun k => (effectiveAcl k.2.acls t).contains acl).map Prod.fst)
  else none

/-- One update of the loop, from the archive on. -/
def updateEvent (a : Account I) (c : Circumstances) (accountId : UInt32) (sendSchedulingMessages : Bool)
    (event : Groupware.CalendarEvent I) (object : EventObject) : Except Error (Groupware.CalendarEvent I) := do
  let d ← updateCalendarEvent s object event.names event.flags (s.cal.intoJscalendar event.event)
  let ical ← toIcalendar s d.group
  checkUid (s.cal.uid ical) (s.cal.uid event.event)
  let new := { event with names := d.names, flags := d.flags, event := ical }
  let allowed := allowedCalendars a c.accessToken accountId
  (new.addedCalendarIds event).forM (checkCalendar a (allowed .addItems))
  (new.removedCalendarIds event).forM
    (checkAllowed (allowed .removeItems) fun id => s!"You are not allowed to remove calendar events from calendar {id}.")
  (new.unchangedCalendarIds event).forM
    (checkAllowed (allowed .modifyItems) fun id => s!"You are not allowed to modify calendar {id}.")
  checkSize s (s.cal.size ical)
  let (event', scheduleTag) ← scheduleUpdate s c sendSchedulingMessages event.event event.scheduleTag ical
  if event.size < s.cal.size ical then checkQuota s a (s.cal.size ical - event.size)
  .ok { new with event := event', size := s.cal.size ical, scheduleTag }

def isSynthetic (id : Id) : Bool := 0 < id.prefixId.toNat

/-! ## The loops -/

/-- The loop over creates: those that are refused, and the events to create, under their document ids. -/
def createEach {K X : Type} (create : K → X → Except Error (Groupware.CalendarEvent I)) :
    List (K × X) → ℕ → List (K × ℕ) × List (K × Error) × List (ℕ × Groupware.CalendarEvent I)
  | [], _ => ([], [], [])
  | (id, object) :: rest, nextId =>
    match create id object with
    | .ok event =>
      let r := createEach create rest (nextId + 1)
      ((id, nextId) :: r.1, r.2.1, (nextId, event) :: r.2.2)
    | .error e =>
      let r := createEach create rest nextId
      (r.1, (id, e) :: r.2.1, r.2.2)

/-- An update that is accepted: what was read and what it becomes. -/
structure Update (I : Type) where
  id : Id
  current : Groupware.CalendarEvent I
  changes : Groupware.CalendarEvent I

/-- The checks of an update of the loop. -/
def checkUpdate (a : Account I) (c : Circumstances) (request : SetRequest) (id : Id) (object : EventObject) :
    Except Error (Update I) :=
  -- Make sure id won't be destroyed
  if request.destroy.contains id then .error .willDestroy
  else if isSynthetic id then
    .error ((invalidProperties.withProperty .id).withDescription
      "Updating synthetic ids is not yet supported.")
  else
    match a.events[id.documentId.toNat]? with
    | none => .error .notFound
    | some event =>
      (updateEvent s a c request.accountId.documentId (request.sendSchedulingMessages.getD false) event object).map
        fun changes => ⟨id, event, changes⟩

/-- The checks of a destroy of the loop: the event that is destroyed. -/
def checkDestroy (a : Account I) (c : Circumstances) (request : SetRequest) (id : Id) :
    Except Error (Groupware.CalendarEvent I) :=
  match a.events[id.documentId.toNat]? with
  | none => .error .notFound
  | some event =>
    if isSynthetic id then
      .error ((invalidProperties.withProperty .id).withDescription
        "Deleting synthetic ids is not yet supported.")
    else
      (event.names.forM fun name =>
        checkAllowed (allowedCalendars a c.accessToken request.accountId.documentId .removeItems)
          (fun id => s!"You are not allowed to remove events from calendar {id}.") name.parentId).map fun () => event

/-- A loop over updates or destroys: those that are accepted, and those that are refused. -/
def checkEach {X Y : Type} (check : X → Except Error Y) : List X → List Y × List (X × Error)
  | [] => ([], [])
  | x :: rest =>
    let r := checkEach check rest
    match check x with
    | .ok y => (y :: r.1, r.2)
    | .error e => (r.1, (x, e) :: r.2)

/-! ## The methods -/

inductive SetFailure where
  | requestTooLarge
  | invalidArguments (details : String)
  | stateMismatch
  | assertionFailed

def createOps (batch : List (ℕ × Groupware.CalendarEvent I)) : List (List (Op I)) :=
  batch.map fun b => [⟨b.1, none, some b.2⟩]

def updateOps (batch : List (Update I)) : List (List (Op I)) :=
  batch.map fun u => [⟨u.id.documentId.toNat, some u.current, some u.changes⟩]

/-- No commit point is set between the destroys of a batch. -/
def destroyOps (batch : List (Id × Groupware.CalendarEvent I)) : List (Op I) :=
  batch.map fun d => ⟨d.1.documentId.toNat, some d.2, none⟩

/-- The creates of a request. -/
def setCreates (a : Account I) (c : Circumstances) (request : SetRequest) :
    List (String × ℕ) × List (String × Error) × List (ℕ × Groupware.CalendarEvent I) :=
  createEach
    (fun _ object => createCalendarEvent s a c (request.sendSchedulingMessages.getD false)
      (allowedCalendars a c.accessToken request.accountId.documentId .addItems) s.cal.newGroup object)
    request.create a.nextEventId

/-- The updates of a request. -/
def setUpdates (a : Account I) (c : Circumstances) (request : SetRequest) :
    List (Update I) × List ((Id × EventObject) × Error) :=
  checkEach (fun u => checkUpdate s a c request u.1 u.2) request.update

/-- The destroys of a request. -/
def setDestroys (a : Account I) (c : Circumstances) (request : SetRequest) :
    List (Id × Groupware.CalendarEvent I) × List (Id × Error) :=
  checkEach (fun id => (checkDestroy a c request id).map fun event => (id, event)) request.destroy

/-- `calendar_event_set`. -/
def calendarEventSet (a : Account I) (c : Circumstances) (request : SetRequest) :
    Account I × Except SetFailure SetResponse :=
  if s.setMaxObjects < request.numObjects then (a, .error .requestTooLarge)
  else
    let created := setCreates s a c request
    let updated := setUpdates s a c request
    let destroyed := setDestroys a c request
    let r := commitGroups (Account.apply s.cal.uid s.hash) c.cuts
      (createOps created.2.2 ++ updateOps updated.1 ++ [destroyOps destroyed.1])
      { a with nextEventId := a.nextEventId + created.1.length }
    if r.2 then
      (r.1, .ok ⟨created.1.map fun e => (e.1, idOf e.2), created.2.1, updated.1.map Update.id,
        updated.2.map fun e => (e.1.1, e.2), destroyed.1.map Prod.fst, destroyed.2⟩)
    else (r.1, .error .assertionFailed)

/-- What the other account has of a copy: the events that the user may read, and their archives. -/
structure Source (I : Type) where
  calendarEventIds : List ℕ
  events : HashMap ℕ I

/-- One copy of the loop. -/
def copyEvent (a : Account I) (c : Circumstances) (source : Source I) (request : CopyRequest) (id : Id)
    (object : EventObject) : Except Error (Groupware.CalendarEvent I) :=
  let notFound : Except Error (Groupware.CalendarEvent I) :=
    .error (notFound.withDescription
      s!"Item {id.asString} not found in account {request.fromAccountId.asString}.")
  if ¬ source.calendarEventIds.contains id.documentId.toNat then notFound
  else if isSynthetic id then
    .error ((invalidProperties.withProperty .id).withDescription
      s!"Item {id.asString} is a synthetic id and cannot be copied.")
  else
    match source.events[id.documentId.toNat]? with
    | none => notFound
    | some ical =>
      createCalendarEvent s a c false (allowedCalendars a c.accessToken request.accountId.documentId .addItems)
        (s.cal.intoJscalendar ical) object

/-- The creates of a copy. -/
def copyCreates (a : Account I) (c : Circumstances) (source : Source I) (request : CopyRequest) :
    List (Id × ℕ) × List (Id × Error) × List (ℕ × Groupware.CalendarEvent I) :=
  createEach (copyEvent s a c source request) request.create a.nextEventId

/-- `calendar_event_copy`, on the account that is copied to. -/
def calendarEventCopy (a : Account I) (c : Circumstances) (stateMatches : Bool) (source : Source I)
    (request : CopyRequest) : Account I × Except SetFailure CopyResponse :=
  if request.accountId.documentId = request.fromAccountId.documentId then
    (a, .error (.invalidArguments "From accountId is equal to fromAccountId"))
  else if ¬ stateMatches then (a, .error .stateMismatch)
  else
    let created := copyCreates s a c source request
    let r := commitGroups (Account.apply s.cal.uid s.hash) c.cuts (createOps created.2.2)
      { a with nextEventId := a.nextEventId + created.1.length }
    if r.2 then
      (r.1, .ok ⟨created.1.map fun e => (e.1, idOf e.2), created.2.1,
        if request.onSuccessDestroyOriginal.getD false then created.1.map Prod.fst else []⟩)
    else (r.1, .error .assertionFailed)

end MailServer.Jmap.CalendarEvent
