import MailServer.Store.Write.Class

/-!
# Keys of values (`store/src/write/key.rs`)

When two values have the same key.  Keys are laid out by hand, in subspaces that several classes
share.

* `ValueKey.written`: the part of an address that its class writes into the key.
* `Clash`: the addresses of one subspace that differ in what they write and still get one key.
* `ValueKey.serialize_eq_iff`: there are no others.
-/

namespace MailServer.Store.Write

open MailServer.Lib MailServer.Types MailServer.Utils List

section

variable {l m : List UInt8}

@[simp] theorem length_be16 (v : UInt16) : (be16 v).length = 2 := beBytes_length _ _

@[simp] theorem length_be32 (v : UInt32) : (be32 v).length = 4 := beBytes_length _ _

@[simp] theorem length_be64 (v : UInt64) : (be64 v).length = 8 := beBytes_length _ _

@[simp] theorem be16_append_inj {v w : UInt16} : be16 v ++ l = be16 w ++ m ↔ v = w ∧ l = m := by
  rw [be16, be16, beBytes_append_inj v.toNat_lt w.toNat_lt, UInt16.toNat_inj]

@[simp] theorem be32_append_inj {v w : UInt32} : be32 v ++ l = be32 w ++ m ↔ v = w ∧ l = m := by
  rw [be32, be32, beBytes_append_inj v.toNat_lt w.toNat_lt, UInt32.toNat_inj]

@[simp] theorem be64_append_inj {v w : UInt64} : be64 v ++ l = be64 w ++ m ↔ v = w ∧ l = m := by
  rw [be64, be64, beBytes_append_inj v.toNat_lt w.toNat_lt, UInt64.toNat_inj]

theorem append_be32_inj {v w : UInt32} : l ++ be32 v = m ++ be32 w ↔ l = m ∧ v = w := by
  rw [be32, be32, append_beBytes_inj v.toNat_lt w.toNat_lt, UInt32.toNat_inj]

theorem append_be64_inj {v w : UInt64} : l ++ be64 v = m ++ be64 w ↔ l = m ∧ v = w := by
  rw [be64, be64, append_beBytes_inj v.toNat_lt w.toNat_lt, UInt64.toNat_inj]

@[simp] theorem be16_inj {v w : UInt16} : be16 v = be16 w ↔ v = w := by
  have h := be16_append_inj (v := v) (w := w) (l := []) (m := [])
  simpa using h

@[simp] theorem be32_inj {v w : UInt32} : be32 v = be32 w ↔ v = w := by
  have h := be32_append_inj (v := v) (w := w) (l := []) (m := [])
  simpa using h

@[simp] theorem be64_inj {v w : UInt64} : be64 v = be64 w ↔ v = w := by
  have h := be64_append_inj (v := v) (w := w) (l := []) (m := [])
  simpa using h

theorem ofBeBytes_be64 (v : UInt64) : UInt64.ofNat (ofBeBytes (be64 v)) = v := by
  rw [be64, ofBeBytes_beBytes v.toNat_lt, UInt64.ofNat_toNat]

end

/-- `ValueKey`: a class under an account, a collection and a document. -/
structure ValueKey where
  accountId : UInt32
  collection : UInt8
  documentId : UInt32
  valueClass : ValueClass
  deriving DecidableEq

def WITH_SUBSPACE : UInt32 := 1

namespace ValueKey

def subspace (k : ValueKey) : UInt8 := k.valueClass.subspace k.collection

/-- The key without its subspace. -/
def bytes (k : ValueKey) : List UInt8 :=
  k.valueClass.serialize k.accountId k.collection k.documentId

/-- `ValueKey::serialize`. -/
def serialize (k : ValueKey) (flags : UInt32) : List UInt8 :=
  if flags &&& WITH_SUBSPACE ≠ 0 then k.subspace :: k.bytes else k.bytes

/-- The address with what its class does not write set to zero. -/
def written (k : ValueKey) : ValueKey :=
  match k.valueClass with
  | .property _ | .indexProperty _ | .acl _ | .blob (.link _ .document) => k
  | .blob (.link _ (.temporary _)) => { k with collection := 0, documentId := 0 }
  | .documentId => { k with documentId := 0 }
  | .changeId | .quota => { k with collection := 0, documentId := 0 }
  | _ => { k with accountId := 0, collection := 0, documentId := 0 }

end ValueKey

/-- The two top bits of the class byte of a search index key. -/
def SearchIndexType.flag : SearchIndexType → UInt8
  | .term _ _ => 0
  | .index _ => (1 : UInt8) <<< 6
  | .document => (2 : UInt8) <<< 6

open SearchIndexType

/-- What a search index key holds besides the class and the id. -/
def SearchIndexType.tail : SearchIndexType → List UInt8
  | .term field hash => hash.payload ++ [hash.payloadLen] ++ [field]
  | .index field => [field.fieldId] ++ field.data
  | .document => []

/-- Two addresses that write different fields and get the same key. -/
inductive Clash : ValueKey → ValueKey → Prop
  /-- A task is stored where it would be due at time 0. -/
  | task (a a' : UInt32) (c c' : UInt8) (d d' : UInt32) (id : UInt64) :
    Clash ⟨a, c, d, .taskQueue (.task id)⟩ ⟨a', c', d', .taskQueue (.due id 0)⟩
  /-- The quota of an account and of a tenant sit in collections 255 and 254. -/
  | quota (a : UInt32) (c : UInt8) (d d' : UInt32) :
    Clash ⟨a, c, d, .quota⟩ ⟨a, 0xFF, d', .documentId⟩
  | tenantQuota (t a : UInt32) (c : UInt8) (d d' : UInt32) :
    Clash ⟨a, c, d, .tenantQuota t⟩ ⟨t, 0xFE, d', .documentId⟩
  /-- A hash of seven payload bytes reads as an integer. -/
  | indexProperty (a : UInt32) (c : UInt8) (d : UInt32) (property : UInt8) (hash : CheekyHash)
    (value : UInt64) (h : hash.asBytes = be64 value) :
    Clash ⟨a, c, d, .indexProperty (.hash property hash)⟩
      ⟨a, c, d, .indexProperty (.integer property value)⟩
  /-- The id index of an object is the index entry of object type 65535 with an empty key. -/
  | registryIndex (a a' : UInt32) (c c' : UInt8) (d d' : UInt32) (objectId : UInt16)
    (itemId : UInt64) :
    Clash ⟨a, c, d, .registry (.indexId objectId itemId)⟩
      ⟨a', c', d', .registry (.index objectId 0xFFFF itemId [])⟩
  /-- A primary key without an object type is one of object type 65535. -/
  | primaryKey (a a' : UInt32) (c c' : UInt8) (d d' : UInt32) (indexId : UInt16)
    (key : List UInt8) :
    Clash ⟨a, c, d, .registry (.primaryKey none indexId key)⟩
      ⟨a', c', d', .registry (.primaryKey (some 0xFFFF) indexId key)⟩
  /-- A primary key of sixteen bytes may spell a reference, one of two bytes a node. -/
  | reference (a a' : UInt32) (c c' : UInt8) (d d' : UInt32) (objectId : Option UInt16)
    (indexId : UInt16) (key : List UInt8) (toItemId : UInt64) (fromObjectId : UInt16)
    (fromItemId : UInt64) (h : be16 indexId ++ key = be64 toItemId ++ be16 fromObjectId ++ be64 fromItemId) :
    Clash ⟨a, c, d, .registry (.primaryKey objectId indexId key)⟩
      ⟨a', c', d', .registry (.reference (objectId.getD 0xFFFF) toItemId fromObjectId fromItemId)⟩
  | nodeId (a a' : UInt32) (c c' : UInt8) (d d' : UInt32) (objectId : Option UInt16)
    (node : UInt16) (h : objectId.getD 0xFFFF = 0xFFFF) :
    Clash ⟨a, c, d, .registry (.primaryKey objectId 0xFFFF (be16 node))⟩ ⟨a', c', d', .nodeId node⟩
  /-- An entry of an account and a global one of the same index. -/
  | searchIndex (a a' : UInt32) (c c' : UInt8) (d d' : UInt32) (index : SearchIndex)
    (accountId documentId : UInt32) (id : UInt64) (typ typ' : SearchIndexType)
    (hflag : typ.flag = typ'.flag)
    (h : be32 accountId ++ typ.tail ++ be32 documentId = typ'.tail ++ be64 id) :
    Clash ⟨a, c, d, .searchIndex ⟨index, .account accountId documentId, typ⟩⟩
      ⟨a', c', d', .searchIndex ⟨index, .global id, typ'⟩⟩
  /-- `Any` names a subspace and a key outright. -/
  | any (k : ValueKey) (a : UInt32) (c : UInt8) (d : UInt32) :
    Clash ⟨a, c, d, .any ⟨k.subspace, k.bytes⟩⟩ k

/-! ## Which classes share a subspace -/

/-- The groups of classes that share a subspace. -/
inductive Family where
  | property | acl | task | blob | item | index | primary | memoryValue | memoryCounter | message
  | event | quota | span | metric | counter | log | search | any
  deriving DecidableEq

open Family

def ValueClass.family (collection : UInt8) : ValueClass → Family
  | property field =>
    if collection = MAILBOX_COLLECTION ∧ field = MAILBOX_COUNTER_FIELD then .counter else .property
  | indexProperty _ => .property
  | acl _ => .acl
  | taskQueue _ => .task
  | blob _ => .blob
  | registry (.item _ _) => .item
  | registry (.indexId _ _) | registry (.index _ _ _ _) => .index
  | registry (.reference _ _ _ _) | registry (.primaryKey _ _ _) | nodeId _ => .primary
  | registry (.idCounter _) => .counter
  | inMemory (.key _) => .memoryValue
  | inMemory (.counter _) => .memoryCounter
  | queue (.message _) => .message
  | queue (.messageEvent _) => .event
  | queue (.quotaCount _) | queue (.quotaSize _) => .quota
  | telemetry (.span _) => .span
  | telemetry (.metric _) => .metric
  | documentId | changeId | quota | tenantQuota _ => .counter
  | shareNotification _ _ => .log
  | searchIndex _ => .search
  | any _ => .any

/-- The subspaces of a family; `Any` may name any. -/
def Family.subspaces : Family → List UInt8
  | property => [SUBSPACE_PROPERTY]
  | acl => [SUBSPACE_ACL]
  | task => [SUBSPACE_TASK_QUEUE]
  | blob => [SUBSPACE_BLOB_LINK]
  | item => [SUBSPACE_DIRECTORY, SUBSPACE_DELETED_ITEMS, SUBSPACE_SPAM_SAMPLES,
      SUBSPACE_TELEMETRY_SPAN, SUBSPACE_TELEMETRY_METRIC, SUBSPACE_REPORT_IN, SUBSPACE_REPORT_OUT,
      SUBSPACE_REGISTRY]
  | index => [SUBSPACE_REGISTRY_IDX]
  | primary => [SUBSPACE_REGISTRY_PK]
  | memoryValue => [SUBSPACE_IN_MEMORY_VALUE]
  | memoryCounter => [SUBSPACE_IN_MEMORY_COUNTER]
  | message => [SUBSPACE_QUEUE_MESSAGE]
  | event => [SUBSPACE_QUEUE_EVENT]
  | quota => [SUBSPACE_QUOTA]
  | span => [SUBSPACE_TELEMETRY_SPAN]
  | metric => [SUBSPACE_TELEMETRY_METRIC]
  | counter => [SUBSPACE_COUNTER]
  | log => [SUBSPACE_LOGS]
  | search => [SUBSPACE_SEARCH_INDEX]
  | any => []

/-- The families whose subspaces meet: a registry item may live beside spans or metrics. -/
def Family.Meets (f g : Family) : Prop :=
  f = g ∨ f = .item ∧ (g = .span ∨ g = .metric) ∨ g = .item ∧ (f = .span ∨ f = .metric)

instance (f g : Family) : Decidable (f.Meets g) := inferInstanceAs (Decidable (_ ∨ _))

theorem Family.meets_of_mem (f g : Family) (s : UInt8) (hf : s ∈ f.subspaces) (hg : s ∈ g.subspaces) :
    f.Meets g := by
  have htable : (f.subspaces.all fun s => !g.subspaces.contains s || decide (f.Meets g)) = true := by
    cases f <;> cases g <;> rfl
  have hs := all_eq_true.mp htable s hf
  have hmem : g.subspaces.contains s = true := contains_iff_mem.mpr hg
  rw [hmem] at hs
  exact of_decide_eq_true hs

theorem itemSubspace_mem (objectId : UInt16) :
    itemSubspace objectId ∈ item.subspaces := by
  unfold itemSubspace
  split_ifs <;> simp [subspaces]

theorem ValueClass.subspace_mem (c : UInt8) (v : ValueClass) (h : v.family c ≠ .any) :
    v.subspace c ∈ (v.family c).subspaces := by
  rcases v with f | p | g | (k | k) | t | b | (⟨o, i⟩ | _ | _ | _ | _ | _) | (_ | _ | _ | _) | (_ | _) |
    x | x | ⟨n, a⟩ | _ | _ | _ | t | n
  all_goals try (simp [ValueClass.family, ValueClass.subspace, subspaces]; done)
  · simp only [ValueClass.family, ValueClass.subspace]
    split_ifs <;> simp [subspaces]
  · exact itemSubspace_mem o
  · exact absurd rfl h

theorem ValueClass.family_meets {c c' : UInt8} {v v' : ValueClass} (h : v.subspace c = v'.subspace c')
    (hv : v.family c ≠ .any) (hv' : v'.family c' ≠ .any) : (v.family c).Meets (v'.family c') :=
  meets_of_mem _ _ _ (v.subspace_mem c hv) (h ▸ v'.subspace_mem c' hv')

/-! ## The keys of a family -/

/-- Two addresses that write the same, or clash. -/
def SameKey (k k' : ValueKey) : Prop := k.written = k'.written ∨ Clash k k' ∨ Clash k' k

theorem SameKey.symm {k k' : ValueKey} (h : SameKey k k') : SameKey k' k := by
  rcases h with h | h | h
  · exact Or.inl h.symm
  · exact Or.inr (Or.inr h)
  · exact Or.inr (Or.inl h)

/-- The classes of a family. -/
def Family.Forms : Family → ValueClass → Prop
  | property, v => (∃ f, v = .property f) ∨ (∃ f x, v = .indexProperty (.hash f x)) ∨
      ∃ f x, v = .indexProperty (.integer f x)
  | acl, v => ∃ g, v = .acl g
  | task, v => (∃ id, v = .taskQueue (.task id)) ∨ ∃ id due, v = .taskQueue (.due id due)
  | blob, v => (∃ h, v = .blob (.commit h)) ∨ (∃ h id, v = .blob (.link h (.id id))) ∨
      (∃ h, v = .blob (.link h .document)) ∨ ∃ h u, v = .blob (.link h (.temporary u))
  | item, v => ∃ o i, v = .registry (.item o i)
  | index, v => (∃ o i, v = .registry (.indexId o i)) ∨ ∃ x o i k, v = .registry (.index x o i k)
  | primary, v => (∃ o i o' i', v = .registry (.reference o i o' i')) ∨
      (∃ o x k, v = .registry (.primaryKey o x k)) ∨ ∃ n, v = .nodeId n
  | memoryValue, v => ∃ k, v = .inMemory (.key k)
  | memoryCounter, v => ∃ k, v = .inMemory (.counter k)
  | message, v => ∃ i, v = .queue (.message i)
  | event, v => ∃ e, v = .queue (.messageEvent e)
  | quota, v => (∃ k, v = .queue (.quotaCount k)) ∨ ∃ k, v = .queue (.quotaSize k)
  | span, v => ∃ i, v = .telemetry (.span i)
  | metric, v => ∃ i, v = .telemetry (.metric i)
  | counter, v => (∃ f, v = .property f) ∨ (∃ o, v = .registry (.idCounter o)) ∨ v = .documentId ∨
      v = .changeId ∨ v = .quota ∨ ∃ t, v = .tenantQuota t
  | log, v => ∃ n a, v = .shareNotification n a
  | search, v => ∃ x, v = .searchIndex x
  | any, v => ∃ x, v = .any x

theorem ValueClass.forms (c : UInt8) (v : ValueClass) : (v.family c).Forms v := by
  rcases v with f | (⟨f, x⟩ | ⟨f, x⟩) | g | (k | k) | (i | ⟨i, u⟩) | (b | ⟨b, (i | _ | u)⟩) |
    (_ | _ | _ | _ | _ | _) | (_ | _ | _ | _) | (_ | _) | x | x | ⟨n, a⟩ | _ | _ | _ | t | n
  all_goals try (simp [ValueClass.family, Family.Forms]; done)
  simp only [ValueClass.family]
  split_ifs <;> simp [Family.Forms]

theorem blobHash_append_inj {h h' : BlobHash} {l m : List UInt8} (e : h.val ++ l = h'.val ++ m) :
    h = h' ∧ l = m := by
  obtain ⟨h1, h2⟩ := append_inj e (h.property.trans h'.property.symm)
  exact ⟨Subtype.ext h1, h2⟩

/-! Search index keys: the class byte holds the index and the flag, the rest the id around the
tail. -/

def SearchIndexId.around (tail : List UInt8) : SearchIndexId → List UInt8
  | .account accountId documentId => be32 accountId ++ tail ++ be32 documentId
  | .global id => tail ++ be64 id

theorem SearchIndexClass.serialize_eq (x : SearchIndexClass) :
    x.serialize = (x.index.asU8 ||| x.typ.flag) :: x.id.around x.typ.tail := by
  rcases x with ⟨i, (⟨u, w⟩ | u), (⟨f, h⟩ | f | _)⟩ <;>
    simp [SearchIndexClass.serialize, SearchIndexType.flag, SearchIndexType.tail,
      SearchIndexId.around]

def SearchIndexType.flags : List UInt8 := [0, (1 : UInt8) <<< 6, (2 : UInt8) <<< 6]

theorem SearchIndexType.flag_mem (t : SearchIndexType) : t.flag ∈ flags := by
  cases t <;> simp [flag, flags]

theorem SearchIndex.asU8_or_inj (i j : SearchIndex) {f g : UInt8} (hf : f ∈ flags)
    (hg : g ∈ flags) (h : i.asU8 ||| f = j.asU8 ||| g) : i = j ∧ f = g := by
  have htable : (flags.all fun f => flags.all fun g =>
      decide (i.asU8 ||| f = j.asU8 ||| g → i = j ∧ f = g)) = true := by
    cases i <;> cases j <;> rfl
  have hrow := all_eq_true.mp (all_eq_true.mp htable f hf) g hg
  exact of_decide_eq_true hrow h

theorem SearchIndexType.eq_of_tail {t t' : SearchIndexType} (hflag : t.flag = t'.flag)
    (h : t.tail = t'.tail) : t = t' := by
  rcases t with ⟨f, x⟩ | ⟨f, l⟩ | _ <;> rcases t' with ⟨f', x'⟩ | ⟨f', l'⟩ | _
  case term.term =>
    obtain ⟨h, hf⟩ := append_inj' h rfl
    obtain ⟨hpay, hlen⟩ := append_inj' h rfl
    obtain rfl := singleton_inj.mp hf
    obtain rfl := CheekyHash.ext_iff.mpr ⟨singleton_inj.mp hlen, hpay⟩
    rfl
  case index.index =>
    obtain ⟨rfl, rfl⟩ := List.cons.inj h
    rfl
  case document.document => rfl
  all_goals simp +decide [flag] at hflag

section

variable {a a' : UInt32} {c c' : UInt8} {d d' : UInt32} {v v' : ValueClass}
  (e : v.serialize a c d = v'.serialize a' c' d')
include e

theorem sameKey_property (h : property.Forms v) (h' : property.Forms v') :
    SameKey ⟨a, c, d, v⟩ ⟨a', c', d', v'⟩ := by
  rcases h with ⟨f, rfl⟩ | ⟨f, x, rfl⟩ | ⟨f, x, rfl⟩ <;>
    rcases h' with ⟨f', rfl⟩ | ⟨f', x', rfl⟩ | ⟨f', x', rfl⟩ <;>
    simp only [ValueClass.serialize, append_assoc, be32_append_inj, cons_append,
      nil_append, List.cons.injEq] at e
  all_goals obtain ⟨rfl, rfl, rfl, e⟩ := e
  · obtain rfl := be32_inj.mp e
    exact Or.inl rfl
  · have := congrArg List.length e
    simp [CheekyHash.length_asBytes, CheekyHash.len] at this
  · have := congrArg List.length e
    simp at this
  · have := congrArg List.length e
    simp [CheekyHash.length_asBytes, CheekyHash.len] at this
  · obtain ⟨rfl, hd⟩ := CheekyHash.asBytes_append_inj e
    obtain rfl := be32_inj.mp hd
    exact Or.inl rfl
  · obtain ⟨hx, rfl⟩ := append_be32_inj.1 e
    exact Or.inr (Or.inl (.indexProperty _ _ _ _ _ _ hx))
  · have := congrArg List.length e
    simp at this
  · obtain ⟨hx, rfl⟩ := append_be32_inj.1 e
    exact Or.inr (Or.inr (.indexProperty _ _ _ _ _ _ hx.symm))
  · obtain ⟨rfl, hd⟩ := be64_append_inj.mp e
    obtain rfl := be32_inj.mp hd
    exact Or.inl rfl

theorem sameKey_task (h : task.Forms v) (h' : task.Forms v') :
    SameKey ⟨a, c, d, v⟩ ⟨a', c', d', v'⟩ := by
  rcases h with ⟨i, rfl⟩ | ⟨i, u, rfl⟩ <;> rcases h' with ⟨i', rfl⟩ | ⟨i', u', rfl⟩ <;>
    simp only [ValueClass.serialize, be64_append_inj, be64_inj] at e <;> obtain ⟨e, rfl⟩ := e
  · exact Or.inl rfl
  · subst e
    exact Or.inr (Or.inl (.task _ _ _ _ _ _ _))
  · subst e
    exact Or.inr (Or.inr (.task _ _ _ _ _ _ _))
  · subst e
    exact Or.inl rfl

theorem sameKey_blob (h : blob.Forms v) (h' : blob.Forms v') :
    SameKey ⟨a, c, d, v⟩ ⟨a', c', d', v'⟩ := by
  have hlen := congrArg List.length e
  rcases h with ⟨b, rfl⟩ | ⟨b, i, rfl⟩ | ⟨b, rfl⟩ | ⟨b, u, rfl⟩ <;>
    rcases h' with ⟨b', rfl⟩ | ⟨b', i', rfl⟩ | ⟨b', rfl⟩ | ⟨b', u', rfl⟩ <;>
    simp only [ValueClass.serialize, length_append, length_be32,
      length_be64, length_singleton] at hlen <;>
    try omega
  all_goals simp [ValueClass.serialize] at e
  · obtain rfl := Subtype.ext e
    exact Or.inl rfl
  · obtain ⟨rfl, hi⟩ := blobHash_append_inj e
    obtain rfl := be64_inj.mp hi
    exact Or.inl rfl
  · obtain ⟨rfl, hrest⟩ := blobHash_append_inj e
    simp only [be32_append_inj, List.cons.injEq, be32_inj] at hrest
    obtain ⟨rfl, rfl, rfl⟩ := hrest
    exact Or.inl rfl
  · obtain ⟨rfl, hrest⟩ := blobHash_append_inj e
    simp only [be32_append_inj, be64_inj] at hrest
    obtain ⟨rfl, rfl⟩ := hrest
    exact Or.inl rfl

theorem sameKey_index (h : index.Forms v) (h' : index.Forms v') :
    SameKey ⟨a, c, d, v⟩ ⟨a', c', d', v'⟩ := by
  rcases h with ⟨o, i, rfl⟩ | ⟨x, o, i, k, rfl⟩ <;> rcases h' with ⟨o', i', rfl⟩ | ⟨x', o', i', k', rfl⟩ <;>
    simp only [ValueClass.serialize, append_assoc, be16_append_inj] at e
  · obtain ⟨-, rfl, e⟩ := e
    obtain rfl := be64_inj.mp e
    exact Or.inl rfl
  · obtain ⟨rfl, rfl, e⟩ := e
    obtain ⟨rfl, rfl⟩ := append_be64_inj.1 ((nil_append _).trans e)
    exact Or.inr (Or.inl (.registryIndex _ _ _ _ _ _ _ _))
  · obtain ⟨rfl, rfl, e⟩ := e
    obtain ⟨rfl, rfl⟩ := append_be64_inj.1 (e.trans (nil_append _).symm)
    exact Or.inr (Or.inr (.registryIndex _ _ _ _ _ _ _ _))
  · obtain ⟨rfl, rfl, e⟩ := e
    obtain ⟨rfl, rfl⟩ := append_be64_inj.1 e
    exact Or.inl rfl

theorem sameKey_primary (h : primary.Forms v) (h' : primary.Forms v') :
    SameKey ⟨a, c, d, v⟩ ⟨a', c', d', v'⟩ := by
  have hnode : be32 0xFFFFFFFF = be16 0xFFFF ++ be16 0xFFFF := by decide
  rcases h with ⟨o, i, p, j, rfl⟩ | ⟨o, x, k, rfl⟩ | ⟨n, rfl⟩ <;>
    rcases h' with ⟨o', i', p', j', rfl⟩ | ⟨o', x', k', rfl⟩ | ⟨n', rfl⟩ <;>
    simp only [ValueClass.serialize, append_assoc, hnode, be16_append_inj] at e
  · obtain ⟨rfl, hrest⟩ := e
    simp only [be64_append_inj, be16_append_inj, be64_inj] at hrest
    obtain ⟨rfl, rfl, rfl⟩ := hrest
    exact Or.inl rfl
  · obtain ⟨rfl, hrest⟩ := e
    exact Or.inr (Or.inr (.reference _ _ _ _ _ _ _ _ _ _ _ _ (by simpa using hrest.symm)))
  · have := congrArg List.length e.2
    simp at this
  · obtain ⟨rfl, hrest⟩ := e
    exact Or.inr (Or.inl (.reference _ _ _ _ _ _ _ _ _ _ _ _ (by simpa using hrest)))
  · obtain ⟨ho, rfl, rfl⟩ := e
    rcases o with _ | o <;> rcases o' with _ | o'
    · exact Or.inl rfl
    · obtain rfl : o' = 0xFFFF := ho.symm
      exact Or.inr (Or.inl (.primaryKey _ _ _ _ _ _ _ _))
    · obtain rfl : o = 0xFFFF := ho
      exact Or.inr (Or.inr (.primaryKey _ _ _ _ _ _ _ _))
    · obtain rfl : o = o' := ho
      exact Or.inl rfl
  · obtain ⟨ho, rfl, rfl⟩ := e
    exact Or.inr (Or.inl (.nodeId _ _ _ _ _ _ _ _ ho))
  · have := congrArg List.length e.2
    simp at this
  · obtain ⟨ho, rfl, rfl⟩ := e
    exact Or.inr (Or.inr (.nodeId _ _ _ _ _ _ _ _ ho.symm))
  · obtain ⟨-, -, hn⟩ := e
    obtain rfl := be16_inj.mp hn
    exact Or.inl rfl

theorem sameKey_quota (h : quota.Forms v) (h' : quota.Forms v') :
    SameKey ⟨a, c, d, v⟩ ⟨a', c', d', v'⟩ := by
  rcases h with ⟨k, rfl⟩ | ⟨k, rfl⟩ <;> rcases h' with ⟨k', rfl⟩ | ⟨k', rfl⟩ <;>
    simp [ValueClass.serialize] at e
  · subst e
    exact Or.inl rfl
  · subst e
    exact Or.inl rfl

theorem sameKey_counter (h : counter.Forms v) (h' : counter.Forms v') :
    SameKey ⟨a, c, d, v⟩ ⟨a', c', d', v'⟩ := by
  have hlen := congrArg List.length e
  rcases h with ⟨f, rfl⟩ | ⟨o, rfl⟩ | rfl | rfl | rfl | ⟨t, rfl⟩ <;>
    rcases h' with ⟨f', rfl⟩ | ⟨o', rfl⟩ | rfl | rfl | rfl | ⟨t', rfl⟩ <;>
    simp only [ValueClass.serialize, length_append, length_be32, length_be16,
      length_singleton] at hlen <;>
    try omega
  all_goals
    simp only [ValueClass.serialize, append_assoc, be32_append_inj, cons_append,
      nil_append, List.cons.injEq, be32_inj, be16_inj, and_true] at e
  · obtain ⟨rfl, rfl, rfl, rfl⟩ := e
    exact Or.inl rfl
  · subst e
    exact Or.inl rfl
  · obtain ⟨rfl, rfl⟩ := e
    exact Or.inl rfl
  · obtain ⟨rfl, rfl⟩ := e
    exact Or.inr (Or.inr (.quota _ _ _ _))
  · obtain ⟨rfl, rfl⟩ := e
    exact Or.inr (Or.inr (.tenantQuota _ _ _ _ _))
  · subst e
    exact Or.inl rfl
  · obtain ⟨rfl, rfl⟩ := e
    exact Or.inr (Or.inl (.quota _ _ _ _))
  · subst e
    exact Or.inl rfl
  · exact absurd e.2 (by decide)
  · obtain ⟨rfl, rfl⟩ := e
    exact Or.inr (Or.inl (.tenantQuota _ _ _ _ _))
  · exact absurd e.2 (by decide)
  · subst e
    exact Or.inl rfl

theorem sameKey_search (h : search.Forms v) (h' : search.Forms v') :
    SameKey ⟨a, c, d, v⟩ ⟨a', c', d', v'⟩ := by
  obtain ⟨⟨i, u, t⟩, rfl⟩ := h
  obtain ⟨⟨i', u', t'⟩, rfl⟩ := h'
  simp only [ValueClass.serialize, SearchIndexClass.serialize_eq, List.cons.injEq] at e
  obtain ⟨hbyte, e⟩ := e
  obtain ⟨rfl, hflag⟩ := i.asU8_or_inj i' t.flag_mem t'.flag_mem hbyte
  rcases u with ⟨u, w⟩ | u <;> rcases u' with ⟨u', w'⟩ | u' <;>
    simp only [SearchIndexId.around] at e
  · obtain ⟨hfront, rfl⟩ := append_be32_inj.1 e
    obtain ⟨rfl, htail⟩ := be32_append_inj.mp hfront
    obtain rfl := eq_of_tail hflag htail
    exact Or.inl rfl
  · exact Or.inr (Or.inl (.searchIndex _ _ _ _ _ _ _ _ _ _ _ _ hflag e))
  · exact Or.inr (Or.inr (.searchIndex _ _ _ _ _ _ _ _ _ _ _ _ hflag.symm e.symm))
  · obtain ⟨htail, rfl⟩ := append_be64_inj.1 e
    obtain rfl := eq_of_tail hflag htail
    exact Or.inl rfl

theorem sameKey_single {f : Family}
    (hf : f ∈ [acl, .item, .memoryValue, .memoryCounter, .message, .event, .span, .metric, .log])
    (h : f.Forms v) (h' : f.Forms v') : SameKey ⟨a, c, d, v⟩ ⟨a', c', d', v'⟩ := by
  simp only [mem_cons, not_mem_nil, or_false] at hf
  rcases hf with rfl | rfl | rfl | rfl | rfl | rfl | rfl | rfl | rfl
  · obtain ⟨⟨g, rfl⟩, ⟨g', rfl⟩⟩ := And.intro h h'
    simp only [ValueClass.serialize, append_assoc, be32_append_inj, cons_append,
      nil_append, List.cons.injEq, be32_inj] at e
    obtain ⟨rfl, rfl, rfl, rfl⟩ := e
    exact Or.inl rfl
  · obtain ⟨⟨o, i, rfl⟩, ⟨o', i', rfl⟩⟩ := And.intro h h'
    simp only [ValueClass.serialize, be16_append_inj, be64_inj] at e
    obtain ⟨rfl, rfl⟩ := e
    exact Or.inl rfl
  · obtain ⟨⟨k, rfl⟩, ⟨k', rfl⟩⟩ := And.intro h h'
    obtain rfl : k = k' := e
    exact Or.inl rfl
  · obtain ⟨⟨k, rfl⟩, ⟨k', rfl⟩⟩ := And.intro h h'
    obtain rfl : k = k' := e
    exact Or.inl rfl
  · obtain ⟨⟨i, rfl⟩, ⟨i', rfl⟩⟩ := And.intro h h'
    obtain rfl := be64_inj.mp e
    exact Or.inl rfl
  · obtain ⟨⟨⟨u, q, n⟩, rfl⟩, ⟨⟨u', q', n'⟩, rfl⟩⟩ := And.intro h h'
    simp only [ValueClass.serialize, append_assoc, be64_append_inj] at e
    obtain ⟨rfl, rfl, hn⟩ := e
    obtain rfl := Subtype.ext hn
    exact Or.inl rfl
  · obtain ⟨⟨i, rfl⟩, ⟨i', rfl⟩⟩ := And.intro h h'
    obtain rfl := be64_inj.mp e
    exact Or.inl rfl
  · obtain ⟨⟨i, rfl⟩, ⟨i', rfl⟩⟩ := And.intro h h'
    obtain rfl := be64_inj.mp e
    exact Or.inl rfl
  · obtain ⟨⟨n, g, rfl⟩, ⟨n', g', rfl⟩⟩ := And.intro h h'
    simp only [ValueClass.serialize, append_assoc, be32_append_inj, cons_append,
      nil_append, List.cons.injEq, be64_inj] at e
    obtain ⟨rfl, -, rfl⟩ := e
    exact Or.inl rfl

theorem sameKey_family {f : Family} (hf : f ≠ .any) (h : f.Forms v) (h' : f.Forms v') :
    SameKey ⟨a, c, d, v⟩ ⟨a', c', d', v'⟩ := by
  rcases f
  case any => exact absurd rfl hf
  case property => exact sameKey_property e h h'
  case task => exact sameKey_task e h h'
  case blob => exact sameKey_blob e h h'
  case index => exact sameKey_index e h h'
  case primary => exact sameKey_primary e h h'
  case quota => exact sameKey_quota e h h'
  case counter => exact sameKey_counter e h h'
  case search => exact sameKey_search e h h'
  all_goals exact sameKey_single e (by decide) h h'

omit e in
theorem item_ne_telemetry (h : item.Forms v) {f : Family} (hf : f = .span ∨ f = .metric)
    (h' : f.Forms v') : v.serialize a c d ≠ v'.serialize a' c' d' := by
  intro e
  obtain ⟨o, i, rfl⟩ := h
  have hlen := congrArg List.length e
  rcases hf with rfl | rfl <;> obtain ⟨i', rfl⟩ := h' <;> simp [ValueClass.serialize] at hlen

end

/-! ## Equal keys -/

theorem ValueClass.eq_any_of_family {c : UInt8} {v : ValueClass} (h : v.family c = .any) :
    ∃ x, v = .any x := by
  have := v.forms c
  rwa [h] at this

namespace ValueKey

variable {k k' : ValueKey}

theorem bytes_written (k : ValueKey) : k.written.bytes = k.bytes := by
  rcases k with ⟨a, c, d, f | (⟨f, x⟩ | ⟨f, x⟩) | g | (k | k) | (i | ⟨i, u⟩) | (b | ⟨b, (i | _ | u)⟩) |
    (_ | _ | _ | _ | _ | _) | (_ | _ | _ | _) | (_ | _) | x | x | ⟨n, a⟩ | _ | _ | _ | t | n⟩ <;> rfl

theorem bytes_eq_of_clash (h : Clash k k') : k.bytes = k'.bytes := by
  rcases h
  case task | quota | tenantQuota | primaryKey | any => rfl
  case indexProperty h => simp [bytes, ValueClass.serialize, h]
  case registryIndex => simp [bytes, ValueClass.serialize]
  case reference h => simpa [bytes, ValueClass.serialize] using h
  case nodeId o n h =>
    have hnode : be32 0xFFFFFFFF = be16 0xFFFF ++ be16 0xFFFF := by decide
    simp [bytes, ValueClass.serialize, h, hnode]
  case searchIndex hflag h =>
    simp only [bytes, ValueClass.serialize, SearchIndexClass.serialize_eq, SearchIndexId.around, hflag]
    rw [h]

theorem bytes_eq_of_sameKey (h : SameKey k k') : k.bytes = k'.bytes := by
  rcases h with h | h | h
  · rw [← k.bytes_written, ← k'.bytes_written, h]
  · exact bytes_eq_of_clash h
  · exact (bytes_eq_of_clash h).symm

theorem sameKey_any {x : AnyClass} (hk : k.valueClass = .any x) (hs : k.subspace = k'.subspace)
    (e : k.bytes = k'.bytes) : SameKey k k' := by
  obtain ⟨a, c, d, v⟩ := k
  obtain rfl : v = .any x := hk
  obtain rfl : x = ⟨k'.subspace, k'.bytes⟩ := by
    rcases x with ⟨s, b⟩
    obtain rfl : s = k'.subspace := hs
    obtain rfl : b = k'.bytes := e
    rfl
  exact Or.inr (Or.inl (.any _ _ _ _))

theorem sameKey_of_bytes (hs : k.subspace = k'.subspace) (e : k.bytes = k'.bytes) : SameKey k k' := by
  by_cases hk : k.valueClass.family k.collection = .any
  · obtain ⟨x, hx⟩ := ValueClass.eq_any_of_family hk
    exact sameKey_any hx hs e
  by_cases hk' : k'.valueClass.family k'.collection = .any
  · obtain ⟨x, hx⟩ := ValueClass.eq_any_of_family hk'
    exact (sameKey_any hx hs.symm e.symm).symm
  have hforms := k.valueClass.forms k.collection
  have hforms' := k'.valueClass.forms k'.collection
  rcases ValueClass.family_meets hs hk hk' with hf | ⟨hi, ht⟩ | ⟨hi, ht⟩
  · rw [← hf] at hforms'
    exact sameKey_family e hk hforms hforms'
  · rw [hi] at hforms
    exact absurd e (item_ne_telemetry hforms ht hforms')
  · rw [hi] at hforms'
    exact absurd e.symm (item_ne_telemetry hforms' ht hforms)

/-- **Equal keys**: two addresses of one subspace get one key exactly when they write the same fields
or clash. -/
theorem serialize_eq_iff (flags : UInt32) (hs : k.subspace = k'.subspace) :
    k.serialize flags = k'.serialize flags ↔ k.written = k'.written ∨ Clash k k' ∨ Clash k' k := by
  have hbytes : k.serialize flags = k'.serialize flags ↔ k.bytes = k'.bytes := by
    unfold serialize
    split_ifs <;> simp [hs]
  rw [hbytes]
  exact ⟨sameKey_of_bytes hs, bytes_eq_of_sameKey⟩

theorem serialize_eq_iff_at :
    (⟨7, 0, 3, .quota⟩ : ValueKey).serialize 0 = (⟨7, 0xFF, 4, .documentId⟩ : ValueKey).serialize 0 ↔
      (⟨7, 0, 3, .quota⟩ : ValueKey).written = (⟨7, 0xFF, 4, .documentId⟩ : ValueKey).written ∨
        Clash ⟨7, 0, 3, .quota⟩ ⟨7, 0xFF, 4, .documentId⟩ ∨
        Clash ⟨7, 0xFF, 4, .documentId⟩ ⟨7, 0, 3, .quota⟩ :=
  serialize_eq_iff 0 rfl

/-- A task without a due time and one due at time 0 are different values under one key. -/
theorem serialize_not_injective :
    ¬ ∀ k k' : ValueKey, k ≠ k' → k.subspace = k'.subspace → k.serialize 0 ≠ k'.serialize 0 := by
  intro h
  exact h ⟨1, 0, 0, .taskQueue (.task 5)⟩ ⟨1, 0, 0, .taskQueue (.due 5 0)⟩ (by decide) rfl rfl

end ValueKey

end MailServer.Store.Write
