import MailServer.Store.Registry.Index

/-!
# Writing to the registry (`store/src/registry/write.rs`)

Objects are inserted, updated and deleted together with the keys of their index.

* `Op`, `commit`: the batch of a write, and what a transaction makes of it.
* `checkKeys`: the references and unique values of an object against the index.
* `linkedObjects`: the objects that refer to an object.
* `RegistryStore.write`: the three kinds of write.
-/

namespace MailServer.Store.Registry

open MailServer.Types MailServer.Utils MailServer.Store.Write

def OBJ_SINGLETON : UInt64 := 1
def OBJ_SEQ_ID : UInt64 := 2
def OBJ_FILTER_ACCOUNT : UInt64 := 4
def OBJ_FILTER_TENANT : UInt64 := 8

def MAX_OBJECT_PAYLOAD_SIZE : ℕ := 200000

inductive ValidationError where
  | invalid (property : Property) (value : String)
  | required (property : Property)
  | maxLength (property : Property) (required : ℕ)
  | minLength (property : Property) (required : ℕ)
  | maxValue (property : Property) (required : Int64)
  | minValue (property : Property) (required : Int64)
  deriving DecidableEq

/-- `ObjectInner`, as far as a write looks at it. -/
structure ObjectInner where
  objectType : ObjectType
  /-- what `index` adds to an `IndexBuilder`, in the order of its set -/
  keys : List IndexKey
  /-- what `validate` reports -/
  errors : List ValidationError
  /-- it is kept in a local file -/
  isDataStore : Bool
  memberTenantId : Option Id
  accountId : Option Id
  /-- `to_pickled_vec` -/
  pickled : List UInt8
  deriving DecidableEq

structure Object where
  inner : ObjectInner
  revision : UInt64
  deriving DecidableEq

inductive RegistryWriteResult where
  | success (id : Id)
  | cannotDeleteLinked (objectId : ObjectId) (linkedObjects : List ObjectId)
  | invalidSingletonId
  | cannotDeleteSingleton
  | notFound (objectId : ObjectId)
  | invalidForeignKey (objectId : ObjectId)
  | primaryKeyConflict (property : Property) (existingId : ObjectId)
  | validationError (errors : List ValidationError)
  | notSupported
  deriving DecidableEq

inductive WriteError where
  | assertValueFailed
  /-- a value that is not an object id -/
  | dataCorruption
  /-- a key whose object type is not known -/
  | deserialization
  deriving DecidableEq

inductive RegistryWrite where
  /-- `generated`: what the id generator answers, where it is asked -/
  | insert (object : Object) (id : Option Id) (generated : UInt64)
  | update (object : Object) (id : Id) (oldObject : Object)
  | delete (objectId : ObjectId) (object : Option Object) (allowedOrphanTypes : List ObjectType)

/-! ## Batches -/

inductive Op where
  | assertNone (key : List UInt8)
  | set (key : List UInt8) (value : Option ObjectId)
  | clear (key : List UInt8)

/-- One operation in a transaction, which sees what it wrote so far. -/
def Op.apply (index : Index) : Op → Option Index
  | .assertNone key => if index[key]? = none then some index else none
  | .set key value => some (index.insert key value)
  | .clear key => some (index.erase key)

def commit : Index → List Op → Option Index
  | index, [] => some index
  | index, op :: ops => (op.apply index).bind fun index => commit index ops

/-- `BatchBuilder::registry_index` for one key. -/
def IndexKey.ops (o : ObjectId) (isSet : Bool) (k : IndexKey) : List Op :=
  if isSet then
    (if k.isUnique then [.assertNone (k.storeKey o)] else []) ++ [.set (k.storeKey o) (k.entry o)]
  else [.clear (k.storeKey o)]

def registryIndex (o : ObjectId) (keys : List IndexKey) (isSet : Bool) : List Op :=
  keys.flatMap (IndexKey.ops o isSet)

/-! ## Checks -/

/-- Whether an object is indexed by a value. -/
def indexed (index : Index) (o : ObjectId) (property : Property) (value : IndexValue) : Bool :=
  (index[(IndexKey.search property value).storeKey o]?).isSome

/-- Whether the referenced object exists, and is of the type asked for. -/
def targetExists (index : Index) (foreignId : ObjectId) (typeFilter : IndexValue) : Bool :=
  if typeFilter ≠ .none then indexed index foreignId .type typeFilter
  else (index[indexIdKey foreignId]?).isSome

/-- The check of a reference. -/
def checkForeignKey (flags : ObjectType → UInt64) (index : Index) (tenantId accountId : Option Id)
    (foreignId : ObjectId) (typeFilter : IndexValue) : Option RegistryWriteResult :=
  let objectFlags := flags foreignId.object
  let sameTenant := tenantId.all fun id =>
    objectFlags &&& OBJ_FILTER_TENANT = 0 || indexed index foreignId .memberTenantId (.u64 id.id)
  let sameAccount := objectFlags &&& OBJ_FILTER_ACCOUNT = 0 || accountId.all fun id =>
    indexed index foreignId .accountId (.u64 id.id)
  if targetExists index foreignId typeFilter && sameTenant && sameAccount then none else some (.invalidForeignKey foreignId)

/-- The check of one index key of the object `o`: a result ends the write. -/
def checkKey (flags : ObjectType → UInt64) (index : Index) (tenantId accountId : Option Id) (o : ObjectId) :
    IndexKey → Except WriteError (Option RegistryWriteResult)
  | .foreignKey foreignId typeFilter =>
    .ok (checkForeignKey flags index tenantId accountId foreignId typeFilter)
  | .unique property value₁ value₂ isGlobal =>
    match index[(IndexKey.unique property value₁ value₂ isGlobal).storeKey o]? with
    | none => .ok none
    | some none => .error .dataCorruption
    | some (some existingId) =>
      .ok (if existingId = o then none else some (.primaryKeyConflict property existingId))
  | .search _ _ => .ok none

def checkKeys (flags : ObjectType → UInt64) (index : Index) (tenantId accountId : Option Id) (o : ObjectId) :
    List IndexKey → Except WriteError (Option RegistryWriteResult)
  | [] => .ok none
  | k :: keys =>
    match checkKey flags index tenantId accountId o k with
    | .ok none => checkKeys flags index tenantId accountId o keys
    | r => r

/-- The object that a reference comes from. -/
def fromObject (key : List UInt8) : Option ObjectId :=
  (ObjectType.fromId (.ofNat (Lib.ofBeBytes ((key.drop (1 + U64_LEN + U16_LEN)).take U16_LEN)))).map fun t =>
    ⟨t, ⟨.ofNat (Lib.ofBeBytes ((key.drop (1 + U64_LEN + U16_LEN + U16_LEN)).take U64_LEN))⟩⟩

/-- One key of the range. -/
def linkKey (fromKey toKey : List UInt8) (linked : List ObjectId) (key : List UInt8) :
    Except WriteError (List ObjectId) :=
  if ¬ key < fromKey ∧ ¬ toKey < key ∧ key.length = 1 + (U16_LEN * 2 + U64_LEN * 2) then
    match fromObject key with
    | some o => .ok (linked ++ [o])
    | none => .error .deserialization
  else .ok linked

/-- `linked_objects`: the references to an object, in the order of their keys. -/
def linkedObjects (index : Index) (o : ObjectId) : Except WriteError (List ObjectId) :=
  (index.toList.map Prod.fst).foldlM (linkKey (storeKeyOf (.reference o.object.toId o.id.id 0 0))
    (storeKeyOf (.reference o.object.toId o.id.id 0xFFFF 0xFFFFFFFFFFFFFFFF))) []

/-! ## The store -/

/-- The items, the index and the counters of ids. -/
structure RegistryStore where
  items : ObjectId → Option ObjectInner
  index : Index
  counters : ObjectType → UInt64

namespace RegistryStore

variable (flags : ObjectType → UInt64) (xxh3 : List UInt8 → UInt64) (s : RegistryStore)

/-- `Id::singleton`. -/
def singletonId : UInt64 := 20080258862541

/-- `RegistryStore::get`. -/
def get (o : ObjectId) : Option Object := (s.items o).map fun inner => ⟨inner, xxh3 inner.pickled⟩

def putItem (items : ObjectId → Option ObjectInner) (o : ObjectId) (inner : Option ObjectInner) :
    ObjectId → Option ObjectInner := Function.update items o inner

abbrev Answer := Except WriteError RegistryWriteResult

/-- The id, from the counter of the type where one is generated. -/
def assignId (objectType : ObjectType) (itemId : UInt64) (generateId : Bool) : RegistryStore × UInt64 :=
  if generateId then
    let counter := s.counters objectType + 1
    ({ s with counters := Function.update s.counters objectType counter }, counter)
  else (s, itemId)

/-- The batch of an object.  `revision` is the one that the stored value is asserted to have. -/
def put (object : ObjectInner) (o : ObjectId) (setKeys clearKeys : List IndexKey) (writeId : Bool)
    (revision : Option UInt64) : RegistryStore × Answer :=
  if MAX_OBJECT_PAYLOAD_SIZE < object.pickled.length then
    (s, .ok (.validationError [.invalid .id
      s!"Object size {object.pickled.length} exceeds maximum of {MAX_OBJECT_PAYLOAD_SIZE}"]))
  else if revision.any fun r => (s.get xxh3 o).map Object.revision ≠ some r then
    (s, .error .assertValueFailed)
  else
    match commit s.index ((if writeId then [.set (indexIdKey o) none] else []) ++
        registryIndex o setKeys true ++ registryIndex o clearKeys false) with
    | none => (s, .error .assertValueFailed)
    | some index =>
      (⟨putItem s.items o (some object), index, s.counters⟩, .ok (.success o.id))

/-- The account that references have to belong to. -/
def accountOf (object : ObjectInner) (itemId : UInt64) : Option Id :=
  object.accountId.or (if object.objectType.toId = REG_ACCOUNT then some ⟨itemId⟩ else none)

/-- An insertion and an update behind the match. -/
def store (object : ObjectInner) (setKeys clearKeys : List IndexKey) (itemId : UInt64)
    (writeId generateId : Bool) (revision : Option UInt64) : RegistryStore × Answer :=
  if object.errors ≠ [] then (s, .ok (.validationError object.errors))
  else if object.isDataStore then
    (s, .ok (if generateId then .notSupported else .success ⟨singletonId⟩))
  else
    match checkKeys flags s.index object.memberTenantId (accountOf object itemId)
        ⟨object.objectType, ⟨itemId⟩⟩ setKeys with
    | .error e => (s, .error e)
    | .ok (some result) => (s, .ok result)
    | .ok none =>
      let (s, itemId) := s.assignId object.objectType itemId generateId
      s.put xxh3 object ⟨object.objectType, ⟨itemId⟩⟩ setKeys clearKeys writeId revision

/-- `RegistryStore::delete`. -/
def delete (objectId : ObjectId) (object : Option Object) (allowedOrphanTypes : List ObjectType) :
    RegistryStore × Answer :=
  match object.or (s.get xxh3 objectId) with
  | none => (s, .ok (.notFound objectId))
  | some object =>
    match linkedObjects s.index objectId with
    | .error e => (s, .error e)
    | .ok linked =>
      let linked := linked.filter fun o => !allowedOrphanTypes.contains o.object
      if linked ≠ [] then (s, .ok (.cannotDeleteLinked objectId linked))
      else if (s.get xxh3 objectId).map Object.revision ≠ some object.revision then
        (s, .error .assertValueFailed)
      else
        match commit s.index ([.clear (indexIdKey objectId)] ++ registryIndex objectId object.inner.keys false) with
        | none => (s, .error .assertValueFailed)
        | some index => (⟨putItem s.items objectId none, index, s.counters⟩, .ok (.success objectId.id))

/-- `RegistryStore::write`. -/
def write : RegistryWrite → RegistryStore × Answer
  | .insert object id generated =>
    let objectFlags := flags object.inner.objectType
    let insert (itemId : UInt64) (writeId generateId : Bool) :=
      s.store flags xxh3 object.inner object.inner.keys [] itemId writeId generateId none
    match id with
    | some id => insert id.id true false
    | none =>
      if objectFlags &&& OBJ_SINGLETON ≠ 0 then insert singletonId false false
      else if objectFlags &&& OBJ_SEQ_ID ≠ 0 then insert 0xFFFFFFFFFFFFFFFF true true
      else insert generated true false
  | .update object id oldObject =>
    let setKeys := object.inner.keys.filter fun k => k ∉ oldObject.inner.keys
    let clearKeys := oldObject.inner.keys.filter fun k => k ∉ object.inner.keys
    if flags object.inner.objectType &&& OBJ_SINGLETON ≠ 0 ∧ id.id ≠ singletonId then
      (s, .ok .invalidSingletonId)
    else
      s.store flags xxh3 object.inner setKeys clearKeys id.id true false (some oldObject.revision)
  | .delete objectId object allowedOrphanTypes =>
    if flags objectId.object &&& OBJ_SINGLETON = 0 then s.delete xxh3 objectId object allowedOrphanTypes
    else (s, .ok .cannotDeleteSingleton)

end RegistryStore

end MailServer.Store.Registry
