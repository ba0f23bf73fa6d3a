import MailServer.Dav.CopyMove.Resources

/-!
# COPY and MOVE of calendars and events (`dav/src/calendar/copy_move.rs`)

* `plan`: what is to be done, from the paths.
* `copyEvent`, `moveEvent`, `renameEvent`, `copyContainer`, `renameContainer`: the writes.
-/

namespace MailServer.Dav.CopyMove

open MailServer.Common MailServer.Utils MailServer.Groupware MailServer.Lib

variable {I : Type}

inductive Depth where
  | zero | one | infinity
  deriving DecidableEq

inductive DavError where
  | notFound | badGateway | forbidden | conflict | preconditionFailed
  | defaultCalendarNeeded | noUidConflict | overQuota | assertionFailed
  deriving DecidableEq

inductive Status where
  | created | noContent
  deriving DecidableEq

structure Request where
  isMove : Bool
  depth : Depth
  fromAccountId : UInt32
  fromPath : Path
  toAccountId : UInt32
  toPath : Path
  ifScheduleTag : Option ℕ

inductive Action where
  | copyContainer (fromChildrenIds : List ℕ) (toDocumentId : Option ℕ) (toChildrenIds : List ℕ) (newName : String)
    (removeSource : Bool)
  | renameContainer (newName : String)
  | copyEvent (toDocumentId : Option ℕ) (toCalendarId : ℕ) (newName : String)
  | moveEvent (fromCalendarId : ℕ) (toDocumentId : Option ℕ) (toCalendarId : ℕ) (newName : String)
  | renameEvent (calendarId : ℕ) (newName : String)

/-- What the server has: the first UID of an event, the name of the default calendar, the quota, and what the checks of
rights and of headers answer, if they refuse. -/
structure Server (I : Type) where
  uid : I → Option String
  defaultCalendarName : Option String
  hasAvailableQuota : UInt32 → ℕ → Bool
  checks : Request → Resource → Option Resource → Option DavError

section

variable (r : Request) (s : Accounts I)

/-- The document of the source, and what is to be done with it. -/
def plan (server : Server I) : Except DavError (ℕ × Action) :=
  match (s r.fromAccountId).byPath r.fromPath with
  | none => .error .notFound
  | some fromResource =>
    if r.isMove ∧ fromResource.isContainer ∧ server.defaultCalendarName = some r.fromPath.calendar then
      .error .defaultCalendarNeeded
    else
      let toResource := (s r.toAccountId).byPath r.toPath
      match server.checks r fromResource toResource with
      | some e => .error e
      | none =>
        let fromChildrenIds := (s r.fromAccountId).subtree r.fromPath.calendar
        match toResource with
        | some toResource =>
          -- Same resource
          if r.fromPath = r.toPath then .error .badGateway
          else match fromResource.parentId, toResource.parentId with
          | none, none =>
            .ok (fromResource.documentId, .copyContainer fromChildrenIds (some toResource.documentId)
              ((s r.toAccountId).subtree r.toPath.calendar) r.toPath.calendar r.isMove)
          | some fromCalendarId, some toCalendarId =>
            let newName := r.toPath.item.getD r.toPath.calendar
            if r.isMove then .ok (fromResource.documentId, .moveEvent fromCalendarId (some toResource.documentId) toCalendarId newName)
            else .ok (fromResource.documentId, .copyEvent (some toResource.documentId) toCalendarId newName)
          | _, _ => .error .badGateway
        | none =>
          match r.toPath.item with
          | some newName =>
            match (s r.toAccountId).byPath ⟨r.toPath.calendar, none⟩ with
            | none => .error .conflict
            | some parent =>
              match fromResource.parentId with
              -- Copying/moving containers under a container is not allowed
              | none => .error .badGateway
              | some fromCalendarId =>
                if r.isMove then
                  if r.fromAccountId ≠ r.toAccountId ∨ parent.documentId ≠ fromCalendarId then
                    .ok (fromResource.documentId, .moveEvent fromCalendarId none parent.documentId newName)
                  else .ok (fromResource.documentId, .renameEvent fromCalendarId newName)
                else .ok (fromResource.documentId, .copyEvent none parent.documentId newName)
          | none =>
            let newName := r.toPath.calendar
            -- Copying/moving events to the root is not allowed
            if ¬ fromResource.isContainer then .error .badGateway
            else if r.isMove then
              if r.fromAccountId ≠ r.toAccountId then
                if r.depth ≠ .zero then .ok (fromResource.documentId, .copyContainer fromChildrenIds none [] newName true)
                else .error .badGateway
              else .ok (fromResource.documentId, .renameContainer newName)
            else
              .ok (fromResource.documentId,
                .copyContainer (if r.depth ≠ .zero then fromChildrenIds else []) none [] newName false)

end

/-! ## Writes -/

section

variable (server : Server I) (r : Request) (s : Accounts I)

/-- `assert_is_unique_uid`: whether another event with the UID is in the calendar. -/
def uidConflict (a : Account I) (calendarId : ℕ) : Option String → Bool
  | none => false
  -- the index has no empty UID
  | some uid => uid != "" && a.events.toList.any fun e =>
    server.uid e.2.event == some uid && e.2.names.any fun n => n.parentId == calendarId

def assignEventId (accountId : UInt32) : ℕ × Accounts I :=
  let id := (s accountId).nextEventId + 1
  (id, Function.update s accountId { s accountId with nextEventId := id })

def assignCalendarId (accountId : UInt32) : ℕ × Accounts I :=
  let id := (s accountId).nextCalendarId + 1
  (id, Function.update s accountId { s accountId with nextCalendarId := id })

/-- Overwrite event on destination. -/
def overwriteEvent (toCalendarId : ℕ) : Option ℕ → List (Op I)
  | none => []
  | some toDocumentId =>
    match (s r.toAccountId).events[toDocumentId]? with
    | none => []
    | some event => deleteEvent r.toAccountId toDocumentId event toCalendarId

def copyEvent (fromDocumentId : ℕ) (toDocumentId : Option ℕ) (toCalendarId : ℕ) (newName : String) :
    Except DavError (Accounts I × List (Op I)) :=
  match (s r.fromAccountId).events[fromDocumentId]? with
  | none => .error .notFound
  | some event =>
    if uidConflict server (s r.toAccountId) toCalendarId (server.uid event.event) then .error .noUidConflict
    else
      let overwrite := overwriteEvent r s toCalendarId toDocumentId
      if r.fromAccountId = r.toAccountId then
        .ok (s, .event r.fromAccountId fromDocumentId (some event)
          (some { event with names := event.names ++ [⟨newName, toCalendarId⟩] }) :: overwrite)
      else
        let (id, s) := assignEventId s r.toAccountId
        .ok (s, .event r.toAccountId id none (some { event with names := [⟨newName, toCalendarId⟩] }) :: overwrite)

def moveEvent (fromDocumentId fromCalendarId : ℕ) (toDocumentId : Option ℕ) (toCalendarId : ℕ) (newName : String) :
    Except DavError (Accounts I × List (Op I)) :=
  match (s r.fromAccountId).events[fromDocumentId]? with
  | none => .error .notFound
  | some event =>
    if r.ifScheduleTag.isSome ∧ event.scheduleTag ≠ r.ifScheduleTag then .error .preconditionFailed
    else if (r.fromAccountId ≠ r.toAccountId ∨ fromCalendarId ≠ toCalendarId ∨ toDocumentId = none) ∧
        uidConflict server (s r.toAccountId) toCalendarId (server.uid event.event) then
      .error .noUidConflict
    else
      let overwrite := overwriteEvent r s toCalendarId toDocumentId
      if r.fromAccountId = r.toAccountId then
        match event.names.findIdx? fun n => n.parentId == fromCalendarId with
        | none => .error .notFound
        | some nameIdx =>
          .ok (s, .event r.fromAccountId fromDocumentId (some event)
            (some { event with names := swapRemove event.names nameIdx ++ [⟨newName, toCalendarId⟩] }) :: overwrite)
      else
        let (id, s) := assignEventId s r.toAccountId
        .ok (s, deleteEvent r.fromAccountId fromDocumentId event fromCalendarId ++
          .event r.toAccountId id none (some { event with names := [⟨newName, toCalendarId⟩] }) :: overwrite)

def renameEvent (documentId calendarId : ℕ) (newName : String) : Except DavError (Accounts I × List (Op I)) :=
  match (s r.fromAccountId).events[documentId]? with
  | none => .error .notFound
  | some event =>
    match event.names.findIdx? fun n => n.parentId == calendarId with
    | none => .error .notFound
    | some nameIdx =>
      .ok (s, [.event r.fromAccountId documentId (some event)
        (some { event with names := event.names.modify nameIdx fun n => { n with name := newName } })])

/-- The name that an event has in the source; names in a calendar with the id of the destination are passed over. -/
def childName (fromDocumentId toDocumentId : ℕ) (names : List DavName) : Option String :=
  names.foldl (fun newName name =>
    if name.parentId = toDocumentId then newName
    else if name.parentId = fromDocumentId then some name.name
    else newName) none

/-- One event of a calendar that is copied or moved, with its size if it is for another account. -/
def copyChild (fromDocumentId toDocumentId : ℕ) (removeSource : Bool) (id : ℕ) : Accounts I × List (Op I) × ℕ :=
  match (s r.fromAccountId).events[id]? with
  | none => (s, [], 0)
  | some event =>
    match childName fromDocumentId toDocumentId event.names with
    | none => (s, [], 0)
    | some newName =>
      if r.fromAccountId = r.toAccountId then
        let names := if removeSource then event.names.filter fun n => n.parentId ≠ fromDocumentId else event.names
        (s, [.event r.fromAccountId id (some event) (some { event with names := names ++ [⟨newName, toDocumentId⟩] })], 0)
      else
        let (newId, s) := assignEventId s r.toAccountId
        (s, (if removeSource then deleteEvent r.fromAccountId id event fromDocumentId else []) ++
          [.event r.toAccountId newId none (some { event with names := [⟨newName, toDocumentId⟩] })], event.size)

def copyChildren (fromDocumentId toDocumentId : ℕ) (removeSource : Bool) :
    Accounts I → List ℕ → Accounts I × List (Op I) × ℕ
  | s, [] => (s, [], 0)
  | s, id :: ids =>
    let (s, ops, size) := copyChild r s fromDocumentId toDocumentId removeSource id
    let (s, rest, sizes) := copyChildren fromDocumentId toDocumentId removeSource s ids
    (s, ops ++ rest, size + sizes)

def copyContainer (fromDocumentId : ℕ) (fromChildrenIds : List ℕ) (toDocumentId : Option ℕ) (toChildrenIds : List ℕ)
    (newName : String) (removeSource : Bool) : Except DavError (Accounts I × List (Op I)) :=
  match (s r.fromAccountId).calendars[fromDocumentId]? with
  | none => .error .notFound
  | some calendar =>
    let remove := if removeSource then [.calendar r.fromAccountId fromDocumentId (some calendar) none] else []
    let (id, s', overwrite) : ℕ × Accounts I × List (Op I) := match toDocumentId with
      | some toDocumentId => (toDocumentId, s, match (s r.toAccountId).calendars[toDocumentId]? with
        | none => []
        | some calendar => deleteWithEvents (s r.toAccountId) r.toAccountId toDocumentId calendar toChildrenIds)
      | none =>
        let (id, s) := assignCalendarId s r.toAccountId
        (id, s, [])
    let newCalendar : Calendar :=
      { preference := { calendar.preference with accountId := r.toAccountId }
        preferences := []
        acls := []
        name := newName }
    let (s'', children, requiredSpace) := copyChildren r fromDocumentId id removeSource s' fromChildrenIds
    if r.fromAccountId ≠ r.toAccountId ∧ 0 < requiredSpace ∧ ¬ server.hasAvailableQuota r.toAccountId requiredSpace then
      .error .overQuota
    else
      .ok (s'', remove ++ overwrite ++ .calendar r.toAccountId id none (some newCalendar) :: children)

def renameContainer (documentId : ℕ) (newName : String) : Except DavError (Accounts I × List (Op I)) :=
  match (s r.fromAccountId).calendars[documentId]? with
  | none => .error .notFound
  | some calendar =>
    .ok (s, [.calendar r.fromAccountId documentId (some calendar) (some { calendar with name := newName })])

/-- The writes of an action; ids that are assigned stay so. -/
def Action.writes (documentId : ℕ) : Action → Except DavError (Accounts I × List (Op I))
  | .copyContainer fromChildrenIds toDocumentId toChildrenIds newName removeSource =>
    CopyMove.copyContainer server r s documentId fromChildrenIds toDocumentId toChildrenIds newName removeSource
  | .renameContainer newName => CopyMove.renameContainer r s documentId newName
  | .copyEvent toDocumentId toCalendarId newName => CopyMove.copyEvent server r s documentId toDocumentId toCalendarId newName
  | .moveEvent fromCalendarId toDocumentId toCalendarId newName =>
    CopyMove.moveEvent server r s documentId fromCalendarId toDocumentId toCalendarId newName
  | .renameEvent calendarId newName => CopyMove.renameEvent r s documentId calendarId newName

def Action.status : Action → Status
  | .copyContainer _ toDocumentId _ _ _ | .copyEvent toDocumentId _ _ | .moveEvent _ toDocumentId _ _ =>
    if toDocumentId.isSome then .noContent else .created
  | .renameContainer _ | .renameEvent _ _ => .created

/-- The request, when nothing else writes: each write is a group of its own. -/
def copyMove (h : ArchiveHash I) (cuts : List ℕ) : Accounts I × Except DavError Status :=
  match plan r s server with
  | .error e => (s, .error e)
  | .ok (documentId, action) =>
    match action.writes server r s documentId with
    | .error e => (s, .error e)
    | .ok (s', ops) =>
      let committed := commitGroups (apply h) cuts (ops.map fun op => [op]) s'
      (committed.1, if committed.2 then .ok action.status else .error .assertionFailed)

end

end MailServer.Dav.CopyMove
