import MailServer.Lib.Leb128
import MailServer.Store.Write.Class
import MailServer.Utils.HashSet
import MailServer.Utils.VecMap

/-!
# The change log of a batch (`store/src/write/log.rs`)

Between two commit points a builder gathers, for every account and collection, the ids that were
inserted, updated and deleted.  A `Changes` is written as seven counts and the ids behind them.
-/

namespace MailServer.Store.Write

open MailServer.Lib MailServer.Types MailServer.Utils

inductive VanishedItem where
  | name (name : List UInt8)
  | id (id : UInt64)
  | idPair (a b : UInt32)
  deriving DecidableEq

abbrev VanishedItems := List VanishedItem

/-- `Changes` of one collection. -/
structure Changes where
  itemInserts : Finset UInt64
  itemUpdates : Finset UInt64
  itemDeletes : Finset UInt64
  containerInserts : Finset UInt32
  containerUpdates : Finset UInt32
  containerDeletes : Finset UInt32
  containerPropertyChanges : Finset UInt32
  deriving DecidableEq

instance : Inhabited Changes := ⟨⟨∅, ∅, ∅, ∅, ∅, ∅, ∅⟩⟩

/-- `ChangeLogBuilder`. -/
structure ChangeLogBuilder where
  changes : VecMap SyncCollection Changes
  vanished : VecMap VanishedCollection VanishedItems

instance : Inhabited ChangeLogBuilder := ⟨⟨.empty, .empty⟩⟩

/-- `build_id`. -/
def buildId (pre : Option UInt32) (documentId : UInt32) : UInt64 :=
  match pre with
  | some p => p.toUInt64 <<< 32 ||| documentId.toUInt64
  | none => documentId.toUInt64

namespace Changes

/-! What a call of the log changes in the record of its collection. -/

def insertContainer (c : Changes) (id : UInt32) : Changes :=
  if id ∈ c.containerDeletes then
    { c with
      containerDeletes := c.containerDeletes.erase id
      containerUpdates := insert id c.containerUpdates }
  else { c with containerInserts := insert id c.containerInserts }

def updateContainer (c : Changes) (id : UInt32) : Changes :=
  { c with containerUpdates := insert id c.containerUpdates }

def updateContainerProperty (c : Changes) (id : UInt32) : Changes :=
  { c with containerPropertyChanges := insert id c.containerPropertyChanges }

def deleteContainer (c : Changes) (id : UInt32) : Changes :=
  { c with
    containerUpdates := c.containerUpdates.erase id
    containerPropertyChanges := c.containerPropertyChanges.erase id
    containerDeletes := insert id c.containerDeletes }

def insertItem (c : Changes) (id : UInt64) : Changes :=
  if id ∈ c.itemDeletes then
    { c with
      itemDeletes := c.itemDeletes.erase id
      itemUpdates := insert id c.itemUpdates }
  else { c with itemInserts := insert id c.itemInserts }

def updateItem (c : Changes) (id : UInt64) : Changes :=
  { c with itemUpdates := insert id c.itemUpdates }

def deleteItem (c : Changes) (id : UInt64) : Changes :=
  { c with
    itemUpdates := c.itemUpdates.erase id
    itemDeletes := insert id c.itemDeletes }

def hasContainerChanges (c : Changes) : Bool :=
  c.containerInserts ≠ ∅ ∨ c.containerUpdates ≠ ∅ ∨ c.containerPropertyChanges ≠ ∅ ∨
    c.containerDeletes ≠ ∅

def hasItemChanges (c : Changes) : Bool :=
  c.itemInserts ≠ ∅ ∨ c.itemUpdates ≠ ∅ ∨ c.itemDeletes ≠ ∅

/-- `Changes::serialize`: the counts, then the members of the sets as the hasher orders them. -/
def serialize (o : HashOrder UInt32) (p : HashOrder UInt64) (c : Changes) : List UInt8 :=
  leb128 c.containerInserts.card ++ leb128 c.containerUpdates.card ++
    leb128 c.containerPropertyChanges.card ++ leb128 c.containerDeletes.card ++
    leb128 c.itemInserts.card ++ leb128 c.itemUpdates.card ++ leb128 c.itemDeletes.card ++
    [c.containerInserts, c.containerUpdates, c.containerPropertyChanges, c.containerDeletes].flatMap
      (fun s => (o.iter s).flatMap fun id => leb128 id.toNat) ++
    [c.itemInserts, c.itemUpdates, c.itemDeletes].flatMap
      (fun s => (p.iter s).flatMap fun id => leb128 id.toNat)

end Changes

/-- A change of the log as its caller announces it. -/
inductive LogChange where
  | insertContainer (id : UInt32)
  | updateContainer (id : UInt32)
  | updateContainerProperty (id : UInt32)
  | deleteContainer (id : UInt32)
  | insertItem (id : UInt64)
  | updateItem (id : UInt64)
  | deleteItem (id : UInt64)
  deriving DecidableEq

def Changes.log (c : Changes) : LogChange → Changes
  | .insertContainer id => c.insertContainer id
  | .updateContainer id => c.updateContainer id
  | .updateContainerProperty id => c.updateContainerProperty id
  | .deleteContainer id => c.deleteContainer id
  | .insertItem id => c.insertItem id
  | .updateItem id => c.updateItem id
  | .deleteItem id => c.deleteItem id

namespace ChangeLogBuilder

/-- `get_mut_or_insert(collection)` and the change of the record found there: the body shared by the
`log_` functions of items and containers. -/
def log (b : ChangeLogBuilder) (collection : SyncCollection) (c : LogChange) : ChangeLogBuilder :=
  { b with changes := b.changes.alter collection fun r => r.log c }

def logContainerInsert (b : ChangeLogBuilder) (collection : SyncCollection) (documentId : UInt32) :
    ChangeLogBuilder := b.log collection (.insertContainer documentId)

def logItemInsert (b : ChangeLogBuilder) (collection : SyncCollection) (pre : Option UInt32)
    (documentId : UInt32) : ChangeLogBuilder :=
  b.log collection (.insertItem (buildId pre documentId))

def logContainerUpdate (b : ChangeLogBuilder) (collection : SyncCollection) (documentId : UInt32) :
    ChangeLogBuilder := b.log collection (.updateContainer documentId)

def logContainerPropertyUpdate (b : ChangeLogBuilder) (collection : SyncCollection)
    (documentId : UInt32) : ChangeLogBuilder := b.log collection (.updateContainerProperty documentId)

def logItemUpdate (b : ChangeLogBuilder) (collection : SyncCollection) (pre : Option UInt32)
    (documentId : UInt32) : ChangeLogBuilder :=
  b.log collection (.updateItem (buildId pre documentId))

def logContainerDelete (b : ChangeLogBuilder) (collection : SyncCollection) (documentId : UInt32) :
    ChangeLogBuilder := b.log collection (.deleteContainer documentId)

def logItemDelete (b : ChangeLogBuilder) (collection : SyncCollection) (pre : Option UInt32)
    (documentId : UInt32) : ChangeLogBuilder :=
  b.log collection (.deleteItem (buildId pre documentId))

def logVanishedItem (b : ChangeLogBuilder) (collection : VanishedCollection) (item : VanishedItem) :
    ChangeLogBuilder :=
  { b with vanished := b.vanished.alter collection fun items => items ++ [item] }

end ChangeLogBuilder

namespace VanishedItem

def serializedSize : VanishedItem → ℕ
  | name n => n.length + 1
  | id _ | idPair _ _ => U64_LEN

def serialize : VanishedItem → List UInt8
  | name n => n ++ [0]
  | id i => be64 i
  | idPair a b => be32 a ++ be32 b

end VanishedItem

/-- `VanishedItems::serialize`. -/
def VanishedItems.serialize (items : VanishedItems) : List UInt8 := items.flatMap (·.serialize)

/-! ## What a record keeps -/

namespace Changes

/-- A record after a list of changes. -/
def ofLog (l : List LogChange) : Changes := l.foldl log default

theorem ofLog_concat (l : List LogChange) (c : LogChange) : ofLog (l ++ [c]) = (ofLog l).log c := by
  simp [ofLog]

/-- A change is recorded. -/
def Records (c : Changes) : LogChange → Prop
  | .insertContainer id => id ∈ c.containerInserts
  | .updateContainer id => id ∈ c.containerUpdates
  | .updateContainerProperty id => id ∈ c.containerPropertyChanges
  | .deleteContainer id => id ∈ c.containerDeletes
  | .insertItem id => id ∈ c.itemInserts
  | .updateItem id => id ∈ c.itemUpdates
  | .deleteItem id => id ∈ c.itemDeletes

/-- What a change counts as: an insert after a recorded delete is an update. -/
def effective (c : Changes) : LogChange → LogChange
  | .insertContainer id => if id ∈ c.containerDeletes then .updateContainer id else .insertContainer id
  | .insertItem id => if id ∈ c.itemDeletes then .updateItem id else .insertItem id
  | r => r

theorem records_log (c : Changes) (r : LogChange) : (c.log r).Records (c.effective r) := by
  cases r
  case insertContainer id =>
    simp only [log, insertContainer, effective]
    split_ifs <;> exact Finset.mem_insert_self _ _
  case insertItem id =>
    simp only [log, insertItem, effective]
    split_ifs <;> exact Finset.mem_insert_self _ _
  all_goals exact Finset.mem_insert_self _ _

end Changes

/-- A later change drops the record of an earlier one: a delete drops updates, an insert a delete. -/
def LogChange.absorbs : LogChange → LogChange → Bool
  | .deleteContainer i, .updateContainer j => i = j
  | .deleteContainer i, .updateContainerProperty j => i = j
  | .insertContainer i, .deleteContainer j => i = j
  | .deleteItem i, .updateItem j => i = j
  | .insertItem i, .deleteItem j => i = j
  | _, _ => false

namespace Changes

theorem records_of_not_absorbs {c : Changes} {r x : LogChange} (h : c.Records x)
    (hr : r.absorbs x = false) : (c.log r).Records x := by
  cases r
  case insertContainer i =>
    simp only [log, insertContainer]
    split_ifs with hd
    · cases x
      case updateContainer j => exact Finset.mem_insert_of_mem h
      case deleteContainer j =>
        have hne : j ≠ i := by simpa [LogChange.absorbs, eq_comm] using hr
        exact Finset.mem_erase.mpr ⟨hne, h⟩
      all_goals exact h
    · cases x
      case insertContainer j => exact Finset.mem_insert_of_mem h
      all_goals exact h
  case insertItem i =>
    simp only [log, insertItem]
    split_ifs with hd
    · cases x
      case updateItem j => exact Finset.mem_insert_of_mem h
      case deleteItem j =>
        have hne : j ≠ i := by simpa [LogChange.absorbs, eq_comm] using hr
        exact Finset.mem_erase.mpr ⟨hne, h⟩
      all_goals exact h
    · cases x
      case insertItem j => exact Finset.mem_insert_of_mem h
      all_goals exact h
  case deleteContainer i =>
    cases x
    case updateContainer j | updateContainerProperty j =>
      have hne : j ≠ i := by simpa [LogChange.absorbs, eq_comm] using hr
      exact Finset.mem_erase.mpr ⟨hne, h⟩
    case deleteContainer j => exact Finset.mem_insert_of_mem h
    all_goals exact h
  case deleteItem i =>
    cases x
    case updateItem j =>
      have hne : j ≠ i := by simpa [LogChange.absorbs, eq_comm] using hr
      exact Finset.mem_erase.mpr ⟨hne, h⟩
    case deleteItem j => exact Finset.mem_insert_of_mem h
    all_goals exact h
  case updateContainer i =>
    cases x
    case updateContainer j => exact Finset.mem_insert_of_mem h
    all_goals exact h
  case updateContainerProperty i =>
    cases x
    case updateContainerProperty j => exact Finset.mem_insert_of_mem h
    all_goals exact h
  case updateItem i =>
    cases x
    case updateItem j => exact Finset.mem_insert_of_mem h
    all_goals exact h

/-- **Compaction**: a change stays recorded, as what it counts as, unless a later one absorbs it. -/
theorem records_ofLog (before after : List LogChange) (x : LogChange)
    (h : ∀ r ∈ after, r.absorbs ((ofLog before).effective x) = false) :
    (ofLog (before ++ x :: after)).Records ((ofLog before).effective x) := by
  induction after using List.reverseRecOn with
  | nil =>
    rw [ofLog_concat]
    exact records_log _ x
  | append_singleton after r ih =>
    rw [← List.cons_append, ← List.append_assoc, ofLog_concat]
    refine records_of_not_absorbs (ih fun y hy => h y (List.mem_append_left _ hy)) ?_
    exact h r (by simp)

end Changes

end MailServer.Store.Write
