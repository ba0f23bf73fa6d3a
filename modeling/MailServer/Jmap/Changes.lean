import MailServer.Common.Transaction

/-!
# The `changes` method (`jmap/src/changes/get.rs`)

A client names the state it knows and gets the ids that were created, updated and destroyed since, at
most so many at a time.  A state is a change id, or a range of the log with the number of changes of it
that were sent.

* `CacheIds.fetchMessages`, `CacheIds.fetchDavResources`: the change ids of a cache when it is read.
* `changes`: the method.
-/

namespace MailServer.Jmap

open MailServer.Types MailServer.Store.Query MailServer.Common

structure JMAPIntermediateState where
  fromId : ℕ
  toId : ℕ
  itemsSent : ℕ
  deriving DecidableEq

inductive State where
  | initial
  | exact (changeId : ℕ)
  | intermediate (s : JMAPIntermediateState)
  deriving DecidableEq

namespace State

def newExact (id : ℕ) : State := exact id

def newIntermediate (fromId toId itemsSent : ℕ) : State := intermediate ⟨fromId, toId, itemsSent⟩

def ofChangeId (changeId : ℕ) : State := exact changeId

/-- `From<Option<ChangeId>>`. -/
def ofLastChangeId : Option ℕ → State
  | some changeId => exact changeId
  | none => initial

def getChangeId : State → ℕ
  | exact id => id
  | intermediate s => s.toId
  | initial => u64Max

end State

/-! ## Caches -/

/-- The change ids of `MessageStoreCache` and `DavResources`. -/
structure CacheIds where
  item : ℕ
  container : ℕ
  highest : ℕ
  deriving DecidableEq

namespace CacheIds

/-- `full_cache_build`. -/
def build (log : Log) : CacheIds :=
  let lastChangeId := log.getLastChangeId.getD 0
  ⟨lastChangeId, lastChangeId, lastChangeId⟩

/-- The changes after the cache was last brought up to date; a cut log has it built anew. -/
def refresh (log : Log) (update : CacheIds → Changes → CacheIds) :
    Option CacheIds → Except Trc.Error CacheIds
  | none => .ok (build log)
  | some cache => do
    let changes ← log.changes false (.since cache.highest)
    .ok (if changes.isTruncated then build log
      else if changes.changes.isEmpty then cache
      else update cache changes)

/-- The change ids of an updated `MessageStoreCache`. -/
def updateMessages (cache : CacheIds) (changes : Changes) : CacheIds where
  item := if changes.changes.any Change.isItemChange then changes.itemChangeId.getD changes.toChangeId
    else cache.item
  container :=
    if changes.changes.any Change.isContainerChange then
      changes.containerChangeId.getD changes.toChangeId
    else cache.container
  highest := changes.toChangeId

/-- The change ids of updated `DavResources`. -/
def updateDavResources (cache : CacheIds) (changes : Changes) : CacheIds where
  item := changes.itemChangeId.getD cache.item
  container := changes.containerChangeId.getD cache.container
  highest := changes.toChangeId

/-- `get_cached_messages`. -/
def fetchMessages (log : Log) : Option CacheIds → Except Trc.Error CacheIds :=
  refresh log updateMessages

/-- `fetch_dav_resources`. -/
def fetchDavResources (log : Log) : Option CacheIds → Except Trc.Error CacheIds :=
  refresh log updateDavResources

/-- `get_state`. -/
def getState (cache : CacheIds) (isContainer : Bool) : State :=
  .ofChangeId (if isContainer then cache.container else cache.item)

end CacheIds

/-! ## The method -/

inductive MethodObject where
  | email | mailbox | core | blob | pushSubscription | thread | searchSnippet | identity
  | emailSubmission | vacationResponse | sieveScript | principal | quota | calendar | calendarEvent
  | calendarEventNotification | addressBook | contactCard | fileNode | participantIdentity
  | shareNotification | registry
  deriving DecidableEq

/-- The log of an object, and whether the object is its containers. -/
def MethodObject.collection : MethodObject → Option (SyncCollection × Bool)
  | email => some (.email, false)
  | mailbox => some (.email, true)
  | thread => some (.thread, true)
  | identity => some (.identity, false)
  | emailSubmission => some (.emailSubmission, false)
  | addressBook => some (.addressBook, true)
  | contactCard => some (.addressBook, false)
  | fileNode => some (.fileNode, false)
  | calendar => some (.calendar, true)
  | calendarEvent => some (.calendar, false)
  | calendarEventNotification => some (.calendarEventNotification, false)
  | shareNotification => some (.shareNotification, false)
  | _ => none

structure ChangesRequest where
  accountId : UInt32
  sinceState : State
  maxChanges : Option ℕ

structure ChangesResponse where
  accountId : UInt32
  oldState : State
  newState : State
  hasMoreChanges : Bool
  created : List UInt64
  updated : List UInt64
  destroyed : List UInt64

structure IntermediateChangesResponse where
  response : ChangesResponse
  object : MethodObject
  onlyContainerChanges : Bool

inductive Failure where
  | store (e : Trc.Error)
  | cannotCalculateChanges (details : Option String)

/-- A change is put in its list; the flag is `items_changed`. -/
def report (s : ChangesResponse × Bool) : Change → ChangesResponse × Bool
  | .insertContainer id | .insertItem id => ({ s.1 with created := s.1.created ++ [id] }, s.2)
  | .updateContainer id | .updateItem id => ({ s.1 with updated := s.1.updated ++ [id] }, true)
  | .deleteContainer id | .deleteItem id => ({ s.1 with destroyed := s.1.destroyed ++ [id] }, s.2)
  | .updateContainerProperty id => ({ s.1 with updated := s.1.updated ++ [id] }, s.2)

/-- The state of the cache of a collection, for those that keep one, and the cache as it is then. -/
def lastState (log : Log) (collection : SyncCollection) (isContainer : Bool) (cache : Option CacheIds) :
    Except Failure (Option State × Option CacheIds) :=
  match collection with
  | .calendar | .addressBook =>
    match CacheIds.fetchDavResources log cache with
    | .ok cache => .ok (some (cache.getState isContainer), some cache)
    | .error e => .error (.store e)
  | .email =>
    match CacheIds.fetchMessages log cache with
    | .ok cache => .ok (some (cache.getState isContainer), some cache)
    | .error e => .error (.store e)
  | _ => .ok (none, cache)

/-- The changes of a log, as the method asks for them. -/
def lookup (log : Log) (collection : SyncCollection) (query : LogQuery) : Except Failure Changes :=
  match log.changes (collection = .shareNotification) query with
  | .ok changelog => .ok changelog
  | .error e => .error (.store e)

/-- The part of `changes` behind the choice of the changelog. -/
def answer (request : ChangesRequest) (object : MethodObject) (isContainer : Bool) (maxChanges : ℕ)
    (newState : State) (itemsSent : ℕ) (changelog : Changes) :
    Except Failure IntermediateChangesResponse :=
  if (changelog.isTruncated ∨ changelog.fromChangeId = 0) ∧ request.sinceState ≠ .initial then
    .error (.cannotCalculateChanges (some
      (if changelog.isTruncated then "Change log is truncated" else "Since state is invalid")))
  else
    let changes := (changelog.changes.filter (Change.relevant isContainer)).drop itemsSent
    let start : ChangesResponse := ⟨request.accountId, request.sinceState, newState, false, [], [], []⟩
    let (response, itemsChanged) := (changes.take maxChanges).foldl report (start, false)
    let changeId := changelog.changeId isContainer
    let hasMoreChanges := decide (changes.drop maxChanges ≠ [])
    let newState :=
      if hasMoreChanges then
        .newIntermediate changelog.fromChangeId changeId (itemsSent + maxChanges)
      else if newState = .initial then .newExact changeId
      else newState
    .ok {
      response := { response with newState, hasMoreChanges }
      object
      onlyContainerChanges := isContainer && !response.updated.isEmpty && !itemsChanged }

/-- `Server::changes` on the log of the object and its cache, with the cache that it leaves behind. -/
def changes (changesMaxResults : ℕ) (log : Log) (cache : Option CacheIds) (request : ChangesRequest)
    (object : MethodObject) : Except Failure (IntermediateChangesResponse × Option CacheIds) := do
  let some (collection, isContainer) := object.collection
    | .error (.cannotCalculateChanges none)
  let maxChanges := min ((request.maxChanges.filter (· ≠ 0)).getD u64Max) changesMaxResults
  let unchanged (newState : State) : IntermediateChangesResponse :=
    ⟨⟨request.accountId, request.sinceState, newState, false, [], [], []⟩, object, false⟩
  match request.sinceState with
  | .initial =>
    let changelog ← lookup log collection .all
    if changelog.changes.isEmpty ∧ changelog.fromChangeId = 0 then .ok (unchanged .initial, cache)
    else
      let response ← answer request object isContainer maxChanges .initial 0 changelog
      .ok (response, cache)
  | .exact changeId =>
    let (state, cache) ← lastState log collection isContainer cache
    if state = some (.exact changeId) then .ok (unchanged (.exact changeId), cache)
    else
      let changelog ← lookup log collection (.since changeId)
      let response ← answer request object isContainer maxChanges (state.getD .initial) 0 changelog
      .ok (response, cache)
  | .intermediate s =>
    let changelog ← lookup log collection (.rangeInclusive s.fromId s.toId)
    let total := if isContainer then changelog.totalContainerChanges else changelog.totalItemChanges
    if total ≤ s.itemsSent then
      let changelog ← lookup log collection (.since s.toId)
      let response ← answer request object isContainer maxChanges .initial 0 changelog
      .ok (response, cache)
    else
      let response ← answer request object isContainer maxChanges .initial s.itemsSent changelog
      .ok (response, cache)

end MailServer.Jmap
