import MailServer.Store.Write.Key
import MailServer.Types.Id
import MailServer.Utils.HashMap

/-!
# The index of the registry (`registry/src/types/index.rs`, `store/src/registry/write.rs`)

Every object of the registry says what it is indexed by: values to search for, values that only one object
may have, and the objects it refers to.  Each of these index keys becomes a key of the store.

* `IndexKey`: what an object is indexed by.  `IndexKey.storeKey`: its key in the store.
* `Index`: the entries of the store, with the owner of each unique value.
* `storeKey_unique_inj`, `storeKey_search_inj`: what a store key tells.
-/

namespace MailServer.Store.Registry

open MailServer.Types MailServer.Utils MailServer.Store.Write List

/-- `ObjectType::COUNT`. -/
def OBJECT_TYPES : ℕ := 117

/-- `ObjectType`, known by its id. -/
structure ObjectType where
  toId : UInt16
  lt : toId.toNat < OBJECT_TYPES
  deriving DecidableEq

/-- `ObjectType::from_id`. -/
def ObjectType.fromId (id : UInt16) : Option ObjectType :=
  if h : id.toNat < OBJECT_TYPES then some ⟨id, h⟩ else none

/-- `Property::COUNT`. -/
def PROPERTIES : ℕ := 910

/-- `Property`, known by its id. -/
structure Property where
  toId : UInt16
  lt : toId.toNat < PROPERTIES
  deriving DecidableEq

namespace Property

def type : Property := ⟨0, by decide⟩
def id : Property := ⟨1, by decide⟩
def memberTenantId : Property := ⟨19, by decide⟩
def accountId : Property := ⟨57, by decide⟩

end Property

/-- The object with an id, of one type. -/
structure ObjectId where
  object : ObjectType
  id : Id
  deriving DecidableEq

inductive IndexValue where
  | text (s : String)
  | bytes (l : List UInt8)
  | u64 (n : UInt64)
  | i64 (n : Int64)
  | u16 (n : UInt16)
  | none
  deriving DecidableEq

/-- The bytes of a value. -/
def IndexValue.serialize : IndexValue → List UInt8
  | text s => s.toUTF8.data.toList
  | bytes l => l
  | u64 n => be64 n
  | i64 n => be64 n.toUInt64
  | u16 n => be16 n
  | none => []

inductive IndexKey where
  | unique (property : Property) (value₁ value₂ : IndexValue) (isGlobal : Bool)
  | search (property : Property) (value : IndexValue)
  | foreignKey (objectId : ObjectId) (typeFilter : IndexValue)
  deriving DecidableEq

def IndexKey.isUnique : IndexKey → Bool
  | unique _ _ _ _ => true
  | _ => false

/-- Two values, one after the other. -/
def serializeCompositeKey (value₁ value₂ : IndexValue) : List UInt8 := value₁.serialize ++ value₂.serialize

/-- The class of an index key of the object `o`. -/
def IndexKey.registryClass (o : ObjectId) : IndexKey → RegistryClass
  | search property value => .index property.toId o.object.toId o.id.id value.serialize
  | unique property value₁ value₂ isGlobal =>
    .primaryKey (if isGlobal then Option.none else some o.object.toId) property.toId
      (serializeCompositeKey value₁ value₂)
  | foreignKey target _ => .reference target.object.toId target.id.id o.object.toId o.id.id

/-- The key of the store for a class, with its subspace in front. -/
def storeKeyOf (c : RegistryClass) : List UInt8 :=
  (ValueClass.registry c).subspace 0 :: (ValueClass.registry c).serialize 0 0 0

def IndexKey.storeKey (o : ObjectId) (k : IndexKey) : List UInt8 := storeKeyOf (k.registryClass o)

/-- The key that says that an object exists. -/
def indexIdKey (o : ObjectId) : List UInt8 := storeKeyOf (.indexId o.object.toId o.id.id)

/-- The entries of the index.  The value of a unique key is its owner; the others have no value. -/
abbrev Index := HashMap (List UInt8) (Option ObjectId)

/-- The value written for an index key: the owner of a unique value. -/
def IndexKey.entry (o : ObjectId) (k : IndexKey) : Option ObjectId := if k.isUnique then some o else none

/-! ## What a store key tells -/

section

variable {o o' : ObjectId}

theorem objectType_ne_max (t : ObjectType) : t.toId ≠ 0xFFFF := by
  intro h
  have := t.lt
  rw [h] at this
  simp [OBJECT_TYPES] at this

theorem ObjectType.toId_inj {t t' : ObjectType} : t.toId = t'.toId ↔ t = t' := by
  cases t
  cases t'
  simp

theorem ObjectId.eq_of {o o' : ObjectId} (ht : o.object.toId = o'.object.toId) (hi : o.id.id = o'.id.id) :
    o = o' := by
  obtain ⟨t, ⟨i⟩⟩ := o
  obtain ⟨t', ⟨i'⟩⟩ := o'
  obtain rfl := ObjectType.toId_inj.1 ht
  obtain rfl : i = i' := hi
  rfl

theorem storeKey_search (property : Property) (value : IndexValue) :
    (IndexKey.search property value).storeKey o = SUBSPACE_REGISTRY_IDX ::
      (be16 o.object.toId ++ be16 property.toId ++ value.serialize ++ be64 o.id.id) := rfl

theorem storeKey_unique (property : Property) (value₁ value₂ : IndexValue) (isGlobal : Bool) :
    (IndexKey.unique property value₁ value₂ isGlobal).storeKey o = SUBSPACE_REGISTRY_PK ::
      (be16 (if isGlobal then 0xFFFF else o.object.toId) ++ be16 property.toId ++
        serializeCompositeKey value₁ value₂) := by
  cases isGlobal <;> rfl

theorem storeKey_foreignKey (target : ObjectId) (typeFilter : IndexValue) :
    (IndexKey.foreignKey target typeFilter).storeKey o = SUBSPACE_REGISTRY_PK ::
      (be16 target.object.toId ++ be64 target.id.id ++ be16 o.object.toId ++ be64 o.id.id) := rfl

theorem indexIdKey_eq (o : ObjectId) : indexIdKey o = SUBSPACE_REGISTRY_IDX ::
    (be16 0xFFFF ++ be16 o.object.toId ++ be64 o.id.id) := rfl

theorem indexIdKey_inj : indexIdKey o = indexIdKey o' ↔ o = o' := by
  constructor
  · intro h
    rw [indexIdKey_eq, indexIdKey_eq, cons_inj_right, append_assoc, append_assoc,
      be16_append_inj, be16_append_inj, be64_inj] at h
    exact ObjectId.eq_of h.2.1 h.2.2
  · rintro rfl
    rfl

theorem storeKey_ne_indexIdKey (k : IndexKey) : k.storeKey o ≠ indexIdKey o' := by
  cases k with
  | search property value =>
    rw [storeKey_search, indexIdKey_eq, Ne, cons_inj_right, append_assoc, append_assoc,
      append_assoc, be16_append_inj]
    exact fun h => objectType_ne_max _ h.1
  | unique property value₁ value₂ isGlobal =>
    rw [storeKey_unique, indexIdKey_eq]
    exact fun h => absurd (List.cons.inj h).1 (by decide)
  | foreignKey target typeFilter =>
    rw [storeKey_foreignKey, indexIdKey_eq]
    exact fun h => absurd (List.cons.inj h).1 (by decide)

theorem storeKey_search_inj {property : Property} {value : IndexValue} {k : IndexKey}
    (h : (IndexKey.search property value).storeKey o = k.storeKey o') :
    o = o' ∧ ∃ value', k = .search property value' ∧ value'.serialize = value.serialize := by
  cases k with
  | search property' value' =>
    rw [storeKey_search, storeKey_search, cons_inj_right, append_be64_inj, append_assoc,
      append_assoc, be16_append_inj, be16_append_inj] at h
    obtain ⟨⟨ht, hp, hv⟩, hi⟩ := h
    refine ⟨ObjectId.eq_of ht hi, value', ?_, hv.symm⟩
    cases property
    simp_all
  | unique property' value₁ value₂ isGlobal =>
    rw [storeKey_search, storeKey_unique] at h
    exact absurd (List.cons.inj h).1 (by decide)
  | foreignKey target typeFilter =>
    rw [storeKey_search, storeKey_foreignKey] at h
    exact absurd (List.cons.inj h).1 (by decide)

theorem storeKey_unique_inj {property property' : Property} {value₁ value₂ value₁' value₂' : IndexValue}
    {isGlobal isGlobal' : Bool}
    (h : (IndexKey.unique property value₁ value₂ isGlobal).storeKey o =
      (IndexKey.unique property' value₁' value₂' isGlobal').storeKey o') :
    property = property' ∧ isGlobal = isGlobal' ∧ (isGlobal = true ∨ o.object = o'.object) ∧
      serializeCompositeKey value₁ value₂ = serializeCompositeKey value₁' value₂' := by
  rw [storeKey_unique, storeKey_unique, cons_inj_right, append_assoc, append_assoc,
    be16_append_inj, be16_append_inj] at h
  obtain ⟨hscope, hp, hv⟩ := h
  refine ⟨?_, ?_, ?_, hv⟩
  · cases property
    simp_all
  · cases isGlobal <;> cases isGlobal'
    · rfl
    · exact absurd hscope (objectType_ne_max _)
    · exact absurd hscope.symm (objectType_ne_max _)
    · rfl
  · cases isGlobal <;> cases isGlobal'
    · exact .inr (ObjectType.toId_inj.1 hscope)
    · exact absurd hscope (objectType_ne_max _)
    · exact .inl rfl
    · exact .inl rfl

end

end MailServer.Store.Registry
