import MailServer.Store.Write.Log
import MailServer.Trc

/-!
# The batch builder (`store/src/write/batch.rs`)

A builder appends operations to one list.  It caches the account, collection and document of its
caller, keeps the change log apart until the next commit point, and remembers where the list may be
cut into pieces that are committed one by one.

* `BatchBuilder`: the builder and its functions.
* `Call`: a call of one of them; `build` runs a list of calls.
* `BatchBuilder.pieces`: the slices that `commit_points` and `build_one` hand to the store.
-/

namespace MailServer.Store.Write

open MailServer.Types MailServer.Utils

/-- `AssignedId`: what a write hands out. -/
inductive AssignedId where
  | counter (id : Int)
  | changeId (accountId : UInt32) (changeId : ℕ)
  deriving DecidableEq

structure AssignedIds where
  ids : List AssignedId
  currentChangeId : Option ℕ

instance : Inhabited AssignedIds := ⟨⟨[], none⟩⟩

inductive ArchiveVersion where
  | versioned (changeId : UInt64) (hash : UInt32)
  | hashed (hash : UInt32)
  | unversioned
  deriving DecidableEq

inductive AssertValue where
  | u32 (v : UInt32)
  | u64 (v : UInt64)
  | hash (v : UInt64)
  | archive (version : ArchiveVersion)
  | some
  | none
  deriving DecidableEq

inductive MergeResult where
  | update (value : List UInt8)
  | skip
  | delete

/-- `ValueOp`.  The functions come applied to their parameters. -/
inductive ValueOp where
  | set (value : List UInt8)
  | setFnc (fnc : AssignedIds → Except Trc.Error (List UInt8))
  | mergeFnc (fnc : AssignedIds → Option (List UInt8) → Except Trc.Error MergeResult)
  | atomicAdd (value : Int64)
  | addAndGet (value : Int64)
  | clear

inductive LogCollection where
  | sync (collection : SyncCollection)
  | vanished (collection : VanishedCollection)
  deriving DecidableEq

def LogCollection.toU8 : LogCollection → UInt8
  | sync c => c.toU8
  | vanished c => c.toU8

theorem LogCollection.toU8_injective {c d : LogCollection} (h : c.toU8 = d.toU8) : c = d := by
  rcases c with c | c <;> rcases d with d | d
  · rw [SyncCollection.toU8_injective h]
  · exact absurd h (c.toU8_ne_vanished d)
  · exact absurd h.symm (d.toU8_ne_vanished c)
  · rw [VanishedCollection.toU8_injective h]

inductive Operation where
  | accountId (accountId : UInt32)
  | collection (collection : Collection)
  | documentId (documentId : UInt32)
  | assertValue (valueClass : ValueClass) (assertValue : AssertValue)
  | value (valueClass : ValueClass) (op : ValueOp)
  | index (field : UInt8) (key : List UInt8) (set : Bool)
  | log (collection : LogCollection) (set : List UInt8)

/-- `ChangedCollection`. -/
structure ChangedCollection where
  changedContainers : Finset SyncCollection
  changedItems : Finset SyncCollection
  shareNotificationId : Option UInt64

instance : Inhabited ChangedCollection := ⟨⟨∅, ∅, none⟩⟩

structure BatchBuilder where
  currentAccountId : Option UInt32
  currentCollection : Option Collection
  currentDocumentId : Option UInt32
  changes : VecMap UInt32 ChangeLogBuilder
  changedCollections : VecMap UInt32 ChangedCollection
  hasAssertions : Bool
  batchSize : ℕ
  batchOps : ℕ
  commitPoints : List ℕ
  ops : List Operation

structure CommitPoint where
  offsetStart : ℕ
  offsetEnd : ℕ

/-- `CommitPointIterator::iter`. -/
def iterCommitPoints (last : ℕ) : ℕ → List ℕ → List CommitPoint
  | offsetStart, [] => [⟨offsetStart, last⟩]
  | offsetStart, offsetEnd :: points => ⟨offsetStart, offsetEnd⟩ :: iterCommitPoints last offsetEnd points

/-- `Batch`: what the store is asked to write. -/
structure Batch where
  changes : VecMap UInt32 ChangedCollection
  ops : List Operation

namespace BatchBuilder

def new : BatchBuilder where
  currentAccountId := none
  currentCollection := none
  currentDocumentId := none
  changes := .empty
  changedCollections := .empty
  hasAssertions := false
  batchSize := 0
  batchOps := 0
  commitPoints := []
  ops := []

/-- Appends an operation and counts it. -/
def push (b : BatchBuilder) (op : Operation) (size count : ℕ) : BatchBuilder :=
  { b with ops := b.ops ++ [op], batchSize := b.batchSize + size, batchOps := b.batchOps + count }

def withAccountId (b : BatchBuilder) (accountId : UInt32) : BatchBuilder :=
  if b.currentAccountId = some accountId then b
  else { b with currentAccountId := some accountId, ops := b.ops ++ [.accountId accountId] }

def withCollection (b : BatchBuilder) (collection : Collection) : BatchBuilder :=
  if b.currentCollection = some collection then b
  else { b with currentCollection := some collection, ops := b.ops ++ [.collection collection] }

def withDocument (b : BatchBuilder) (documentId : UInt32) : BatchBuilder :=
  { b with
    ops := b.ops ++ [.documentId documentId]
    currentDocumentId := some documentId
    hasAssertions := false }

/-! Operations on a value or an index entry. -/

def assertValue (b : BatchBuilder) (valueClass : ValueClass) (value : AssertValue) : BatchBuilder :=
  { b.push (.assertValue valueClass value) 0 1 with hasAssertions := true }

def index (b : BatchBuilder) (field : UInt8) (value : List UInt8) : BatchBuilder :=
  b.push (.index field value true) (U32_LEN * 3 + value.length) 1

def unindex (b : BatchBuilder) (field : UInt8) (value : List UInt8) : BatchBuilder :=
  b.push (.index field value false) (U32_LEN * 3 + value.length) 1

def tag (b : BatchBuilder) (field : UInt8) : BatchBuilder := b.index field []

def untag (b : BatchBuilder) (field : UInt8) : BatchBuilder := b.unindex field []

def add (b : BatchBuilder) (valueClass : ValueClass) (value : Int64) : BatchBuilder :=
  b.push (.value valueClass (.atomicAdd value)) (valueClass.serializedSize + 8) 1

def addAndGet (b : BatchBuilder) (valueClass : ValueClass) (value : Int64) : BatchBuilder :=
  b.push (.value valueClass (.addAndGet value)) (valueClass.serializedSize + 8 * 2) 1

def set (b : BatchBuilder) (valueClass : ValueClass) (value : List UInt8) : BatchBuilder :=
  b.push (.value valueClass (.set value)) (valueClass.serializedSize + value.length) 1

def setFnc (b : BatchBuilder) (valueClass : ValueClass)
    (fnc : AssignedIds → Except Trc.Error (List UInt8)) : BatchBuilder :=
  b.push (.value valueClass (.setFnc fnc)) 0 0

def mergeFnc (b : BatchBuilder) (valueClass : ValueClass)
    (fnc : AssignedIds → Option (List UInt8) → Except Trc.Error MergeResult) : BatchBuilder :=
  b.push (.value valueClass (.mergeFnc fnc)) 0 0

def clear (b : BatchBuilder) (valueClass : ValueClass) : BatchBuilder :=
  b.push (.value valueClass .clear) valueClass.serializedSize 1

def aclGrant (b : BatchBuilder) (grantAccountId : UInt32) (op : List UInt8) : BatchBuilder :=
  b.push (.value (.acl grantAccountId) (.set op)) (U32_LEN * 3 + op.length) 1

def aclRevoke (b : BatchBuilder) (grantAccountId : UInt32) : BatchBuilder :=
  b.push (.value (.acl grantAccountId) .clear) (U32_LEN * 3) 1

/-- `any_op` of a value operation. -/
def anyOp (b : BatchBuilder) (valueClass : ValueClass) (op : ValueOp) : BatchBuilder :=
  let size := match op with
    | .set value => value.length
    | _ => 0
  b.push (.value valueClass op) (valueClass.serializedSize + size) 1

/-- `schedule_task_with_id`, with the task and its type as they are stored. -/
def scheduleTaskWithId (b : BatchBuilder) (id due : UInt64) (task objectType : List UInt8) :
    BatchBuilder :=
  (b.set (.taskQueue (.task id)) task).set (.taskQueue (.due id due)) objectType

/-! The change log.  A change is dropped without an account or, but for those that name their
document, without a document. -/

/-- `changes.get_mut_or_insert(account_id)` and a call of the log found there. -/
def logWith (b : BatchBuilder) (f : ChangeLogBuilder → ChangeLogBuilder) : BatchBuilder :=
  match b.currentAccountId with
  | some accountId => { b with changes := b.changes.alter accountId f }
  | none => b

def logDocument (b : BatchBuilder) (f : UInt32 → ChangeLogBuilder → ChangeLogBuilder) : BatchBuilder :=
  match b.currentDocumentId with
  | some documentId => b.logWith (f documentId)
  | none => b

def logItemInsert (b : BatchBuilder) (collection : SyncCollection) (pre : Option UInt32) :
    BatchBuilder := b.logDocument fun id c => c.logItemInsert collection pre id

def logItemUpdate (b : BatchBuilder) (collection : SyncCollection) (pre : Option UInt32) :
    BatchBuilder := b.logDocument fun id c => c.logItemUpdate collection pre id

def logItemDelete (b : BatchBuilder) (collection : SyncCollection) (pre : Option UInt32) :
    BatchBuilder := b.logDocument fun id c => c.logItemDelete collection pre id

def logContainerInsert (b : BatchBuilder) (collection : SyncCollection) : BatchBuilder :=
  b.logDocument fun id c => c.logContainerInsert collection id

def logContainerUpdate (b : BatchBuilder) (collection : SyncCollection) : BatchBuilder :=
  b.logDocument fun id c => c.logContainerUpdate collection id

def logContainerDelete (b : BatchBuilder) (collection : SyncCollection) : BatchBuilder :=
  b.logDocument fun id c => c.logContainerDelete collection id

def logContainerPropertyChange (b : BatchBuilder) (collection : SyncCollection)
    (documentId : UInt32) : BatchBuilder :=
  b.logWith fun c => c.logContainerPropertyUpdate collection documentId

def logVanishedItem (b : BatchBuilder) (collection : VanishedCollection) (item : VanishedItem) :
    BatchBuilder :=
  match b.currentAccountId with
  | some _ =>
    { b with batchSize := b.batchSize + item.serializedSize }.logWith fun c =>
      c.logVanishedItem collection item
  | none => b

def logShareNotification (b : BatchBuilder) (notificationId : UInt64) (notifyAccountId : UInt32)
    (value : List UInt8) : BatchBuilder :=
  { b with
    changedCollections := b.changedCollections.alter notifyAccountId fun c =>
      { c with shareNotificationId := some notificationId } }.set
    (.shareNotification notificationId notifyAccountId) value

section

variable (o : HashOrder UInt32) (p : HashOrder UInt64)

/-- `cc.changed_containers.insert(..)` and `cc.changed_items.insert(..)`. -/
def ChangedCollection.mark (cc : ChangedCollection) (collection : SyncCollection) (changes : Changes) :
    ChangedCollection where
  changedContainers :=
    if changes.hasContainerChanges then insert collection cc.changedContainers else cc.changedContainers
  changedItems := if changes.hasItemChanges then insert collection cc.changedItems else cc.changedItems
  shareNotificationId := cc.shareNotificationId

/-- One record of a sync collection. -/
def serializeSync (accountId : UInt32) (b : BatchBuilder) (r : SyncCollection × Changes) :
    BatchBuilder :=
  { b with
    changedCollections := b.changedCollections.alter accountId fun cc =>
      ChangedCollection.mark cc r.1 r.2
    ops := b.ops ++ [.log (.sync r.1) (r.2.serialize o p)] }

/-- One record of vanished items. -/
def serializeVanished (b : BatchBuilder) (r : VanishedCollection × VanishedItems) : BatchBuilder :=
  { b with ops := b.ops ++ [.log (.vanished r.1) r.2.serialize] }

/-- The change log of one account. -/
def serializeAccount (b : BatchBuilder) (r : UInt32 × ChangeLogBuilder) : BatchBuilder :=
  r.2.vanished.inner.foldl serializeVanished
    (r.2.changes.inner.foldl (serializeSync o p r.1) (b.withAccountId r.1))

/-- `serialize_changes`. -/
def serializeChanges (b : BatchBuilder) : BatchBuilder :=
  if b.changes.isEmpty then b
  else b.changes.inner.foldl (serializeAccount o p) { b with changes := .empty }

def isLargeBatch (b : BatchBuilder) : Bool := b.batchSize > 5000000 ∨ b.batchOps > 1000

/-- What a commit point emits again for the next piece. -/
def contextOps (b : BatchBuilder) : List Operation :=
  (b.currentAccountId.map Operation.accountId).toList ++
    (b.currentCollection.map Operation.collection).toList

/-- `commit_point`. -/
def commitPoint (b : BatchBuilder) : BatchBuilder :=
  if b.isLargeBatch then
    let b := b.serializeChanges o p
    { b with
      commitPoints := b.commitPoints ++ [b.ops.length]
      batchOps := 0
      batchSize := 0
      ops := b.ops ++ b.contextOps }
  else b

def hasChanges (b : BatchBuilder) : Bool := !b.changedCollections.isEmpty

/-- `build_one`. -/
def buildOne (b : BatchBuilder) (point : CommitPoint) : Batch :=
  ⟨b.changedCollections, (b.ops.take point.offsetEnd).drop point.offsetStart⟩

/-- `build_all`. -/
def buildAll (b : BatchBuilder) : Batch :=
  let b := b.serializeChanges o p
  ⟨b.changedCollections, b.ops⟩

/-- `commit_points`: the builder with its log written, and where to cut. -/
def iter (b : BatchBuilder) : BatchBuilder × List CommitPoint :=
  let b := b.serializeChanges o p
  ({ b with commitPoints := [] }, iterCommitPoints b.ops.length 0 b.commitPoints)

/-- The batches of a piecewise commit. -/
def batches (b : BatchBuilder) : List Batch := (b.iter o p).2.map (b.iter o p).1.buildOne

end

end BatchBuilder

/-- A call of the builder. -/
inductive Call where
  | withAccountId (accountId : UInt32)
  | withCollection (collection : Collection)
  | withDocument (documentId : UInt32)
  | assertValue (valueClass : ValueClass) (value : AssertValue)
  | index (field : UInt8) (value : List UInt8)
  | unindex (field : UInt8) (value : List UInt8)
  | tag (field : UInt8)
  | untag (field : UInt8)
  | add (valueClass : ValueClass) (value : Int64)
  | addAndGet (valueClass : ValueClass) (value : Int64)
  | set (valueClass : ValueClass) (value : List UInt8)
  | setFnc (valueClass : ValueClass) (fnc : AssignedIds → Except Trc.Error (List UInt8))
  | mergeFnc (valueClass : ValueClass)
    (fnc : AssignedIds → Option (List UInt8) → Except Trc.Error MergeResult)
  | clear (valueClass : ValueClass)
  | aclGrant (grantAccountId : UInt32) (op : List UInt8)
  | aclRevoke (grantAccountId : UInt32)
  | anyOp (valueClass : ValueClass) (op : ValueOp)
  | scheduleTaskWithId (id due : UInt64) (task objectType : List UInt8)
  | logItemInsert (collection : SyncCollection) (pre : Option UInt32)
  | logItemUpdate (collection : SyncCollection) (pre : Option UInt32)
  | logItemDelete (collection : SyncCollection) (pre : Option UInt32)
  | logContainerInsert (collection : SyncCollection)
  | logContainerUpdate (collection : SyncCollection)
  | logContainerDelete (collection : SyncCollection)
  | logContainerPropertyChange (collection : SyncCollection) (documentId : UInt32)
  | logVanishedItem (collection : VanishedCollection) (item : VanishedItem)
  | logShareNotification (notificationId : UInt64) (notifyAccountId : UInt32) (value : List UInt8)
  | commitPoint

section

variable (o : HashOrder UInt32) (p : HashOrder UInt64)

def BatchBuilder.call (b : BatchBuilder) : Call → BatchBuilder
  | .withAccountId a => b.withAccountId a
  | .withCollection c => b.withCollection c
  | .withDocument d => b.withDocument d
  | .assertValue c v => b.assertValue c v
  | .index f v => b.index f v
  | .unindex f v => b.unindex f v
  | .tag f => b.tag f
  | .untag f => b.untag f
  | .add c v => b.add c v
  | .addAndGet c v => b.addAndGet c v
  | .set c v => b.set c v
  | .setFnc c f => b.setFnc c f
  | .mergeFnc c f => b.mergeFnc c f
  | .clear c => b.clear c
  | .aclGrant a v => b.aclGrant a v
  | .aclRevoke a => b.aclRevoke a
  | .anyOp c op => b.anyOp c op
  | .scheduleTaskWithId i u t y => b.scheduleTaskWithId i u t y
  | .logItemInsert c q => b.logItemInsert c q
  | .logItemUpdate c q => b.logItemUpdate c q
  | .logItemDelete c q => b.logItemDelete c q
  | .logContainerInsert c => b.logContainerInsert c
  | .logContainerUpdate c => b.logContainerUpdate c
  | .logContainerDelete c => b.logContainerDelete c
  | .logContainerPropertyChange c d => b.logContainerPropertyChange c d
  | .logVanishedItem c i => b.logVanishedItem c i
  | .logShareNotification n a v => b.logShareNotification n a v
  | .commitPoint => b.commitPoint o p

/-- A builder after a list of calls. -/
def build (calls : List Call) : BatchBuilder := calls.foldl (BatchBuilder.call o p) .new

theorem build_concat (calls : List Call) (c : Call) :
    build o p (calls ++ [c]) = (build o p calls).call o p c := by
  simp [build]

end

end MailServer.Store.Write
