import MailServer.Lib.Bytes
import MailServer.Types.Collection
import MailServer.Utils.CheekyHash

/-!
# Value classes (`store/src/write/mod.rs`, `store/src/write/key.rs`)

A value of the store is addressed by a `ValueClass` under an account, a collection and a document.
`ValueClass.serialize` lays the key out by hand; `ValueClass.subspace` picks the column family.
-/

namespace MailServer.Store.Write

open MailServer.Lib MailServer.Types MailServer.Utils

def U16_LEN : ℕ := 2
def U32_LEN : ℕ := 4
def U64_LEN : ℕ := 8
def BLOB_HASH_LEN : ℕ := 32

/-- `BlobHash`. -/
abbrev BlobHash := Bytes BLOB_HASH_LEN

inductive IndexPropertyClass where
  | hash (property : UInt8) (hash : CheekyHash)
  | integer (property : UInt8) (value : UInt64)
  deriving DecidableEq

/-- `SearchIndex`.  `InMemory` has no key: its `as_u8` is `unreachable!()`. -/
inductive SearchIndex where
  | email | calendar | contacts | file | tracing
  deriving DecidableEq, Repr

structure SearchIndexField where
  fieldId : UInt8
  data : List UInt8
  deriving DecidableEq

inductive SearchIndexType where
  | term (field : UInt8) (hash : CheekyHash)
  | index (field : SearchIndexField)
  | document
  deriving DecidableEq

inductive SearchIndexId where
  | account (accountId documentId : UInt32)
  | global (id : UInt64)
  deriving DecidableEq

structure SearchIndexClass where
  index : SearchIndex
  id : SearchIndexId
  typ : SearchIndexType
  deriving DecidableEq

inductive TaskQueueClass where
  | task (id : UInt64)
  | due (id due : UInt64)
  deriving DecidableEq

structure AnyClass where
  subspace : UInt8
  key : List UInt8
  deriving DecidableEq

inductive InMemoryClass where
  | key (key : List UInt8)
  | counter (key : List UInt8)
  deriving DecidableEq

inductive RegistryClass where
  | item (objectId : UInt16) (itemId : UInt64)
  | reference (toObjectId : UInt16) (toItemId : UInt64) (fromObjectId : UInt16) (fromItemId : UInt64)
  | index (indexId objectId : UInt16) (itemId : UInt64) (key : List UInt8)
  | indexId (objectId : UInt16) (itemId : UInt64)
  | primaryKey (objectId : Option UInt16) (indexId : UInt16) (key : List UInt8)
  | idCounter (objectId : UInt16)
  deriving DecidableEq

structure QueueEvent where
  due : UInt64
  queueId : UInt64
  queueName : Bytes 8
  deriving DecidableEq

inductive QueueClass where
  | message (queueId : UInt64)
  | messageEvent (event : QueueEvent)
  | quotaCount (key : List UInt8)
  | quotaSize (key : List UInt8)
  deriving DecidableEq

inductive TelemetryClass where
  | span (spanId : UInt64)
  | metric (metricId : UInt64)
  deriving DecidableEq

inductive BlobLink where
  | id (id : UInt64)
  | document
  | temporary («until» : UInt64)
  deriving DecidableEq

inductive BlobOp where
  | commit (hash : BlobHash)
  | link (hash : BlobHash) («to» : BlobLink)
  deriving DecidableEq

inductive ValueClass where
  | property (field : UInt8)
  | indexProperty (property : IndexPropertyClass)
  | acl (grantAccountId : UInt32)
  | inMemory (lookup : InMemoryClass)
  | taskQueue (task : TaskQueueClass)
  | blob (op : BlobOp)
  | registry (registry : RegistryClass)
  | queue (queue : QueueClass)
  | telemetry (telemetry : TelemetryClass)
  | searchIndex (index : SearchIndexClass)
  | any (any : AnyClass)
  | shareNotification (notificationId : UInt64) (notifyAccountId : UInt32)
  | documentId
  | changeId
  | quota
  | tenantQuota (tenantId : UInt32)
  | nodeId (nodeId : UInt16)
  deriving DecidableEq

/-! ## Subspaces -/

def SUBSPACE_ACL : UInt8 := 'a'.toUInt8
def SUBSPACE_TASK_QUEUE : UInt8 := 'f'.toUInt8
def SUBSPACE_INDEXES : UInt8 := 'i'.toUInt8
def SUBSPACE_BLOB_LINK : UInt8 := 'k'.toUInt8
def SUBSPACE_LOGS : UInt8 := 'l'.toUInt8
def SUBSPACE_COUNTER : UInt8 := 'n'.toUInt8
def SUBSPACE_IN_MEMORY_VALUE : UInt8 := 'm'.toUInt8
def SUBSPACE_IN_MEMORY_COUNTER : UInt8 := 'y'.toUInt8
def SUBSPACE_PROPERTY : UInt8 := 'p'.toUInt8
def SUBSPACE_REGISTRY : UInt8 := 's'.toUInt8
def SUBSPACE_REGISTRY_IDX : UInt8 := 'b'.toUInt8
def SUBSPACE_REGISTRY_PK : UInt8 := 'g'.toUInt8
def SUBSPACE_DIRECTORY : UInt8 := 'd'.toUInt8
def SUBSPACE_QUEUE_MESSAGE : UInt8 := 'e'.toUInt8
def SUBSPACE_QUEUE_EVENT : UInt8 := 'q'.toUInt8
def SUBSPACE_QUOTA : UInt8 := 'u'.toUInt8
def SUBSPACE_REPORT_OUT : UInt8 := 'h'.toUInt8
def SUBSPACE_REPORT_IN : UInt8 := 'r'.toUInt8
def SUBSPACE_TELEMETRY_SPAN : UInt8 := 'o'.toUInt8
def SUBSPACE_TELEMETRY_METRIC : UInt8 := 'x'.toUInt8
def SUBSPACE_SEARCH_INDEX : UInt8 := 'z'.toUInt8
def SUBSPACE_DELETED_ITEMS : UInt8 := 'j'.toUInt8
def SUBSPACE_SPAM_SAMPLES : UInt8 := 'w'.toUInt8

def MAILBOX_COLLECTION : UInt8 := Collection.mailbox.toU8
/-- `MailboxField::UidCounter`. -/
def MAILBOX_COUNTER_FIELD : UInt8 := 84

/-! The object types of the registry that have a subspace of their own. -/

def REG_ACCOUNT : UInt16 := 0
def REG_ARCHIVED_ITEM : UInt16 := 12
def REPORT_EXTERNAL_ARF : UInt16 := 13
def REPORT_EXTERNAL_DMARC : UInt16 := 32
def REPORT_INTERNAL_DMARC : UInt16 := 33
def REG_DOMAIN : UInt16 := 37
def REG_MAILING_LIST : UInt16 := 50
def REG_MASKED_EMAIL : UInt16 := 51
def REG_METRIC : UInt16 := 54
def REG_OAUTH_CLIENT : UInt16 := 78
def REG_PUBLIC_KEY : UInt16 := 80
def REG_ROLE : UInt16 := 83
def REG_SPAM_SAMPLE : UInt16 := 102
def REG_TENANT : UInt16 := 108
def REPORT_EXTERNAL_TLS : UInt16 := 109
def REPORT_INTERNAL_TLS : UInt16 := 110
def REG_TRACE : UInt16 := 112

/-- The subspace of a registry item. -/
def itemSubspace (objectId : UInt16) : UInt8 :=
  if objectId ∈ [REG_ACCOUNT, REG_DOMAIN, REG_TENANT, REG_ROLE, REG_OAUTH_CLIENT, REG_MAILING_LIST,
      REG_MASKED_EMAIL, REG_PUBLIC_KEY] then SUBSPACE_DIRECTORY
  else if objectId = REG_ARCHIVED_ITEM then SUBSPACE_DELETED_ITEMS
  else if objectId = REG_SPAM_SAMPLE then SUBSPACE_SPAM_SAMPLES
  else if objectId = REG_TRACE then SUBSPACE_TELEMETRY_SPAN
  else if objectId = REG_METRIC then SUBSPACE_TELEMETRY_METRIC
  else if objectId ∈ [REPORT_EXTERNAL_ARF, REPORT_EXTERNAL_DMARC, REPORT_EXTERNAL_TLS] then
    SUBSPACE_REPORT_IN
  else if objectId ∈ [REPORT_INTERNAL_DMARC, REPORT_INTERNAL_TLS] then SUBSPACE_REPORT_OUT
  else SUBSPACE_REGISTRY

/-- `ValueClass::subspace`. -/
def ValueClass.subspace (collection : UInt8) : ValueClass → UInt8
  | property field =>
    if collection = MAILBOX_COLLECTION ∧ field = MAILBOX_COUNTER_FIELD then SUBSPACE_COUNTER
    else SUBSPACE_PROPERTY
  | indexProperty _ => SUBSPACE_PROPERTY
  | acl _ => SUBSPACE_ACL
  | taskQueue _ => SUBSPACE_TASK_QUEUE
  | blob _ => SUBSPACE_BLOB_LINK
  | registry (.item objectId _) => itemSubspace objectId
  | registry (.indexId _ _) | registry (.index _ _ _ _) => SUBSPACE_REGISTRY_IDX
  | registry (.reference _ _ _ _) | registry (.primaryKey _ _ _) => SUBSPACE_REGISTRY_PK
  | registry (.idCounter _) => SUBSPACE_COUNTER
  | nodeId _ => SUBSPACE_REGISTRY_PK
  | inMemory (.key _) => SUBSPACE_IN_MEMORY_VALUE
  | inMemory (.counter _) => SUBSPACE_IN_MEMORY_COUNTER
  | queue (.message _) => SUBSPACE_QUEUE_MESSAGE
  | queue (.messageEvent _) => SUBSPACE_QUEUE_EVENT
  | queue (.quotaCount _) | queue (.quotaSize _) => SUBSPACE_QUOTA
  | telemetry (.span _) => SUBSPACE_TELEMETRY_SPAN
  | telemetry (.metric _) => SUBSPACE_TELEMETRY_METRIC
  | documentId | changeId | quota | tenantQuota _ => SUBSPACE_COUNTER
  | shareNotification _ _ => SUBSPACE_LOGS
  | searchIndex _ => SUBSPACE_SEARCH_INDEX
  | any v => v.subspace

/-! ## Keys -/

/-- `SearchIndex::as_u8`. -/
def SearchIndex.asU8 : SearchIndex → UInt8
  | email => 0
  | calendar => 1
  | contacts => 2
  | file => 3
  | tracing => 4

/-! `KeySerializer::write` of an integer: its bytes, most significant first. -/

def be16 (v : UInt16) : List UInt8 := beBytes U16_LEN v.toNat
def be32 (v : UInt32) : List UInt8 := beBytes U32_LEN v.toNat
def be64 (v : UInt64) : List UInt8 := beBytes U64_LEN v.toNat

/-- The key of a search index entry. -/
def SearchIndexClass.serialize (index : SearchIndexClass) : List UInt8 :=
  match index.typ with
  | .term field hash =>
    let tail := hash.payload ++ [hash.payloadLen] ++ [field]
    match index.id with
    | .account accountId documentId =>
      [index.index.asU8] ++ be32 accountId ++ tail ++ be32 documentId
    | .global id => [index.index.asU8] ++ tail ++ be64 id
  | .index field =>
    let tail := [field.fieldId] ++ field.data
    match index.id with
    | .account accountId documentId =>
      [index.index.asU8 ||| (1 : UInt8) <<< 6] ++ be32 accountId ++ tail ++ be32 documentId
    | .global id => [index.index.asU8 ||| (1 : UInt8) <<< 6] ++ tail ++ be64 id
  | .document =>
    match index.id with
    | .account accountId documentId =>
      [index.index.asU8 ||| (2 : UInt8) <<< 6] ++ be32 accountId ++ be32 documentId
    | .global id => [index.index.asU8 ||| (2 : UInt8) <<< 6] ++ be64 id

/-- `ValueClass::serialize` without flags. -/
def ValueClass.serialize (accountId : UInt32) (collection : UInt8) (documentId : UInt32) :
    ValueClass → List UInt8
  | .property field => be32 accountId ++ [collection] ++ [field] ++ be32 documentId
  | .indexProperty (.hash field hash) =>
    be32 accountId ++ [collection] ++ [field] ++ hash.asBytes ++ be32 documentId
  | .indexProperty (.integer field value) =>
    be32 accountId ++ [collection] ++ [field] ++ be64 value ++ be32 documentId
  | .acl grantAccountId => be32 grantAccountId ++ be32 accountId ++ [collection] ++ be32 documentId
  | .taskQueue (.task id) => be64 0 ++ be64 id
  | .taskQueue (.due id due) => be64 due ++ be64 id
  | .blob (.commit hash) => hash.val
  | .blob (.link hash (.id id)) => hash.val ++ be64 id
  | .blob (.link hash .document) => hash.val ++ be32 accountId ++ [collection] ++ be32 documentId
  | .blob (.link hash (.temporary «until»)) => hash.val ++ be32 accountId ++ be64 «until»
  | .inMemory (.key key) => key
  | .inMemory (.counter key) => key
  | .registry (.item objectId itemId) => be16 objectId ++ be64 itemId
  | .registry (.indexId objectId itemId) => be16 0xFFFF ++ be16 objectId ++ be64 itemId
  | .registry (.index indexId objectId itemId key) =>
    be16 objectId ++ be16 indexId ++ key ++ be64 itemId
  | .registry (.reference toObjectId toItemId fromObjectId fromItemId) =>
    be16 toObjectId ++ be64 toItemId ++ be16 fromObjectId ++ be64 fromItemId
  | .registry (.primaryKey objectId indexId key) =>
    be16 (objectId.getD 0xFFFF) ++ be16 indexId ++ key
  | .registry (.idCounter objectId) => be16 objectId
  | .queue (.message queueId) => be64 queueId
  | .queue (.messageEvent event) => be64 event.due ++ be64 event.queueId ++ event.queueName.val
  | .queue (.quotaCount key) => [0] ++ key
  | .queue (.quotaSize key) => [1] ++ key
  | .telemetry (.span spanId) => be64 spanId
  | .telemetry (.metric metricId) => be64 metricId
  | .documentId => be32 accountId ++ [collection]
  | .changeId => be32 accountId
  | .quota => be32 accountId ++ [0xFF]
  | .tenantQuota tenantId => be32 tenantId ++ [0xFE]
  | .nodeId id => be32 0xFFFFFFFF ++ be16 id
  | .shareNotification notificationId notifyAccountId =>
    be32 notifyAccountId ++ [SyncCollection.shareNotification.toU8] ++ be64 notificationId
  | .searchIndex index => index.serialize
  | .any v => v.key

/-- `ValueClass::serialized_size`, an estimate. -/
def ValueClass.serializedSize : ValueClass → ℕ
  | property _ => U32_LEN * 2 + 3
  | indexProperty (.hash _ hash) => U32_LEN * 2 + 3 + hash.len
  | indexProperty (.integer _ _) => U32_LEN * 2 + 3 + U64_LEN
  | acl _ => U32_LEN * 3 + 2
  | inMemory (.counter v) | inMemory (.key v) => v.length
  | registry (.item _ _) => U16_LEN + U64_LEN + 1
  | registry (.reference _ _ _ _) => (U16_LEN + U64_LEN) * 2 + 1
  | registry (.index _ _ _ key) => U16_LEN * 2 + U64_LEN + key.length + 1
  | registry (.primaryKey _ _ key) => U16_LEN * 2 + key.length + 1
  | registry (.indexId _ _) => U16_LEN + U64_LEN + 1
  | registry (.idCounter _) => U16_LEN + 1
  | blob (.commit _) => BLOB_HASH_LEN
  | blob (.link _ (.id _)) => BLOB_HASH_LEN + U64_LEN
  | blob (.link _ .document) => BLOB_HASH_LEN + (U32_LEN * 2 + 1)
  | blob (.link _ (.temporary _)) => BLOB_HASH_LEN + (U32_LEN + U64_LEN)
  | taskQueue _ => U64_LEN * 2 + 1
  | queue (.message _) => U64_LEN
  | queue (.messageEvent _) => U64_LEN * 3
  | queue (.quotaCount v) | queue (.quotaSize v) => v.length
  | telemetry _ => U64_LEN + 1
  | documentId | quota | tenantQuota _ => U32_LEN + 1
  | changeId => U32_LEN
  | shareNotification _ _ => U32_LEN + U64_LEN + 1
  | nodeId _ => U16_LEN * 3 + 1
  | searchIndex v =>
    match v.typ with
    | .term _ hash => U64_LEN + hash.len + 2
    | .index field => 1 + field.data.length + U64_LEN
    | .document =>
      match v.id with
      | .account _ _ => 1 + U32_LEN * 2
      | .global _ => 1 + U64_LEN
  | any v => v.key.length

end MailServer.Store.Write
