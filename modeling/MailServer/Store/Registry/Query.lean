import MailServer.Store.Registry.Index

/-!
# Queries of the registry (`store/src/registry/query.rs`)

A query is a list of filters on index or primary keys, with a page.  Each filter scans a range of keys; the
results of several filters are intersected.

* `ResultsPagination.push`, `finalize`: the page, while scanning or in the end.
* `indexRange`, `pkRange`: the scan of one filter.  `textMatches`: a scan for every word.
* `query`: the filters one after the other.
-/

namespace MailServer.Store.Registry

open MailServer.Types MailServer.Utils MailServer.Store.Write

inductive RegistryFilterOp where
  | equal | greaterThan | greaterEqualThan | lowerThan | lowerEqualThan | textMatch
  deriving DecidableEq

inductive RegistryFilterValue where
  | string (s : String)
  | bytes (l : List UInt8)
  | u64 (n : UInt64)
  | u16 (n : UInt16)
  | boolean (b : Bool)

structure RegistryFilter where
  property : Property
  op : RegistryFilterOp
  value : RegistryFilterValue
  isPk : Bool

inductive RegistryQueryStart where
  | index (index : ℕ)
  | anchor (anchor : Id)
  | none

structure RegistryQuery where
  objectType : ObjectType
  filters : List RegistryFilter
  start : RegistryQueryStart
  limit : Option ℕ

/-- What the standard library knows about characters. -/
structure Unicode where
  isAlphanumeric : Char → Bool
  isLowercase : Char → Bool
  isAlphabetic : Char → Bool
  toLowercase : String → String

inductive QueryError where
  /-- the operator takes strings only -/
  | notSupported (details : String)
  | corruptedKey
  /-- a value that is not an object id -/
  | dataCorruption
  deriving DecidableEq

/-! ## Results -/

/-- `RegistryQueryResults::intersect` for sorted vectors. -/
def intersect : List Id → List Id → List Id
  | [], _ => []
  | x :: a, b =>
    match b.dropWhile (· < x) with
    | [] => []
    | y :: b => if y = x then x :: intersect a b else intersect a (y :: b)

structure ResultsPagination where
  list : List Id
  offset : ℕ
  anchor : Option Id
  limit : Option ℕ
  deferredPagination : Bool

namespace ResultsPagination

/-- A text with a character that ends a word. -/
def manyWords (u : Unicode) (f : RegistryFilter) : Bool :=
  match f.op, f.value with
  | .textMatch, .string value => value.toList.any (fun c => !u.isAlphanumeric c) && 1 < value.utf8ByteSize
  | _, _ => false

def new (u : Unicode) (query : RegistryQuery) : ResultsPagination where
  list := []
  offset := match query.start with
    | .index index => index
    | _ => 0
  anchor := match query.start with
    | .anchor anchor => some anchor
    | _ => none
  limit := query.limit
  deferredPagination := 1 < query.filters.length || query.filters.head?.any (manyWords u)

/-- The answer says whether to go on. -/
def push (r : ResultsPagination) (id : Id) : ResultsPagination × Bool :=
  if ¬ r.deferredPagination then
    if 0 < r.offset then ({ r with offset := r.offset - 1 }, true)
    else
      match r.anchor with
      | some anchor => (if id = anchor then { r with anchor := none } else r, true)
      | none =>
        let r := { r with list := r.list ++ [id] }
        (r, r.limit.all fun limit => r.list.length < limit)
  else ({ r with list := r.list ++ [id] }, true)

def pushAll (r : ResultsPagination) : List Id → ResultsPagination
  | [] => r
  | id :: ids =>
    let (r, more) := r.push id
    if more then r.pushAll ids else r

def sort (r : ResultsPagination) : ResultsPagination := { r with list := r.list.insertionSort (· ≤ ·) }

def finalize (r : ResultsPagination) : List Id :=
  if r.deferredPagination ∧ r.list ≠ [] ∧ (r.limit.isSome ∨ r.anchor.isSome ∨ 0 < r.offset) then
    ({ r with list := [], deferredPagination := false }.pushAll r.list).list
  else r.list

end ResultsPagination

/-! ## Scans -/

/-- The entries between two keys, in the order of the keys. -/
def Index.range (index : Index) (begin_ end_ : List UInt8) : List (List UInt8 × Option ObjectId) :=
  index.toList.filter fun e => ¬ e.1 < begin_ ∧ ¬ end_ < e.1

/-- What the callback of `iterate` makes of an entry. -/
inductive Visit where
  | stop
  | skip
  | found (id : Id)

/-- `iterate`, with the results the callback pushes to. -/
def scan (visit : List UInt8 × Option ObjectId → Except QueryError Visit) :
    List (List UInt8 × Option ObjectId) → ResultsPagination → Except QueryError ResultsPagination
  | [], r => .ok r
  | e :: rest, r =>
    match visit e with
    | .error error => .error error
    | .ok .stop => .ok r
    | .ok .skip => scan visit rest r
    | .ok (.found id) =>
      let (r, more) := r.push id
      if more then scan visit rest r else .ok r

def RegistryFilterOp.holds (op : RegistryFilterOp) (value matchValue : List UInt8) : Bool :=
  match op with
  | .lowerThan => value < matchValue
  | .lowerEqualThan => ¬ matchValue < value
  | .greaterThan => matchValue < value
  | .greaterEqualThan => ¬ value < matchValue
  | .equal | .textMatch => value = matchValue

/-- The keys of a property: of the values to search for, and of the unique values. -/
def searchPrefix (object : ObjectType) (indexId : UInt16) : List UInt8 :=
  SUBSPACE_REGISTRY_IDX :: (be16 object.toId ++ be16 indexId)

def primaryPrefix (object : ObjectType) (indexId : UInt16) : List UInt8 :=
  SUBSPACE_REGISTRY_PK :: (be16 object.toId ++ be16 indexId)

/-- The first and the last key of `index_range`. -/
def searchBounds (object : ObjectType) (indexId : UInt16) (matchValue : List UInt8) :
    RegistryFilterOp → List UInt8 × List UInt8
  | .lowerThan => (searchPrefix object indexId ++ be64 0, searchPrefix object indexId ++ matchValue ++ be64 0)
  | .lowerEqualThan =>
    (searchPrefix object indexId ++ be64 0, searchPrefix object indexId ++ matchValue ++ be64 0xFFFFFFFFFFFFFFFF)
  | .greaterThan =>
    (searchPrefix object indexId ++ matchValue ++ be64 0xFFFFFFFFFFFFFFFF,
      searchPrefix object (indexId + 1) ++ be64 0xFFFFFFFFFFFFFFFF)
  | .greaterEqualThan =>
    (searchPrefix object indexId ++ matchValue ++ be64 0,
      searchPrefix object (indexId + 1) ++ be64 0xFFFFFFFFFFFFFFFF)
  | .equal | .textMatch =>
    (searchPrefix object indexId ++ matchValue ++ be64 0,
      searchPrefix object indexId ++ matchValue ++ be64 0xFFFFFFFFFFFFFFFF)

def visitSearch (pre : List UInt8) (matchValue : List UInt8) (op : RegistryFilterOp)
    (e : List UInt8 × Option ObjectId) : Except QueryError Visit :=
  let key := e.1
  if ¬ pre.isPrefixOf key then .ok .stop
  else
    let idPos := key.length - U64_LEN
    if idPos < pre.length then .error .corruptedKey
    else if op.holds ((key.take idPos).drop pre.length) matchValue then
      .ok (.found ⟨.ofNat (Lib.ofBeBytes (key.drop idPos))⟩)
    else .ok .skip

/-- `index_range`. -/
def indexRange (index : Index) (object : ObjectType) (indexId : UInt16) (matchValue : List UInt8)
    (op : RegistryFilterOp) (r : ResultsPagination) : Except QueryError ResultsPagination :=
  let (begin_, end_) := searchBounds object indexId matchValue op
  (scan (visitSearch (searchPrefix object indexId) matchValue op) (index.range begin_ end_) r).map
    ResultsPagination.sort

/-- The first and the last key of `pk_range`. -/
def primaryBounds (object : ObjectType) (indexId : UInt16) (matchValue : List UInt8) :
    RegistryFilterOp → List UInt8 × List UInt8
  | .lowerThan | .lowerEqualThan =>
    (primaryPrefix object indexId, primaryPrefix object indexId ++ matchValue)
  | .greaterThan | .greaterEqualThan =>
    (primaryPrefix object indexId ++ matchValue, primaryPrefix object (indexId + 1))
  | .equal | .textMatch =>
    (primaryPrefix object indexId ++ matchValue, primaryPrefix object indexId ++ matchValue)

def visitPrimary (pre : List UInt8) (matchValue : List UInt8) (op : RegistryFilterOp)
    (e : List UInt8 × Option ObjectId) : Except QueryError Visit :=
  if ¬ pre.isPrefixOf e.1 then .ok .stop
  else if op.holds (e.1.drop pre.length) matchValue then
    match e.2 with
    | some o => .ok (.found o.id)
    | none => .error .dataCorruption
  else .ok .skip

/-- `pk_range`. -/
def pkRange (index : Index) (object : ObjectType) (indexId : UInt16) (matchValue : List UInt8)
    (op : RegistryFilterOp) (r : ResultsPagination) : Except QueryError ResultsPagination :=
  let (begin_, end_) := primaryBounds object indexId matchValue op
  (scan (visitPrimary (primaryPrefix object indexId) matchValue op) (index.range begin_ end_) r).map
    ResultsPagination.sort

/-! ## Filters -/

/-- The words of a text that are looked up. -/
def words (u : Unicode) (text : String) : List (List UInt8) :=
  let parts := (text.toList.splitOnP fun c => !u.isAlphanumeric c).map String.ofList
  (parts.filter fun s => 1 < s.utf8ByteSize).map fun word =>
    (if word.toList.all fun ch => u.isLowercase ch || !u.isAlphabetic ch then word
      else u.toLowercase word).toUTF8.data.toList

/-- The bytes that a filter compares with. -/
def RegistryFilterValue.toBytes : RegistryFilterValue → List UInt8
  | string v => v.toUTF8.data.toList
  | bytes v => v
  | u64 v => be64 v
  | u16 v => be16 v
  | boolean v => [if v then 1 else 0]

section

variable (u : Unicode) (index : Index) (query : RegistryQuery)

/-- The loop over the words. -/
def textMatches (property : Property) : List (List UInt8) → ResultsPagination →
    Except QueryError ResultsPagination
  | [], found => .ok found
  | word :: rest, found => do
    let result ← indexRange index query.objectType property.toId word .equal (.new u query)
    if found.list = [] then textMatches property rest result
    else
      let found := { found with list := intersect found.list result.list }
      if found.list = [] then .ok found else textMatches property rest found

/-- The results of one filter. -/
def filterResults (f : RegistryFilter) : Except QueryError ResultsPagination :=
  if f.op = .textMatch then
    match f.value with
    | .string text => textMatches u index query f.property (words u text) (.new u query)
    | _ => .error (.notSupported "TextMatch operator only supports string values")
  else if ¬ f.isPk then
    indexRange index query.objectType f.property.toId f.value.toBytes f.op (.new u query)
  else pkRange index query.objectType f.property.toId f.value.toBytes f.op (.new u query)

/-- The loop over the filters. -/
def queryFilters : List RegistryFilter → ResultsPagination → Except QueryError ResultsPagination
  | [], results => .ok results
  | f :: rest, results => do
    let result ← filterResults u index query f
    let results :=
      if results.list = [] then result
      else { results with list := intersect results.list result.list }
    if results.list = [] then .ok results else queryFilters rest results

/-- One key of `all_ids`; the answer says whether to go on. -/
def allIdsStep (offset : ℕ) (ids : List Id) (key : List UInt8) : ℕ × List Id × Bool :=
  if offset = 0 then
    let ids := ids ++ [⟨.ofNat (Lib.ofBeBytes ((key.drop (1 + U16_LEN * 2)).take U64_LEN))⟩]
    (0, ids, query.limit.all fun limit => ids.length < limit)
  else (offset - 1, ids, true)

def allIdsLoop : List (List UInt8) → ℕ → List Id → List Id
  | [], _, ids => ids
  | key :: rest, offset, ids =>
    let (offset, ids, more) := allIdsStep query offset ids key
    if more then allIdsLoop rest offset ids else ids

/-- `all_ids`. -/
def allIds : List Id :=
  let (itemId, offset) : UInt64 × ℕ :=
    match query.start with
    | .index index => (0, index)
    | .anchor anchor => (anchor.id + 1, 0)
    | .none => (0, 0)
  let begin_ := storeKeyOf (.indexId query.objectType.toId itemId)
  let end_ := storeKeyOf (.indexId query.objectType.toId 0xFFFFFFFFFFFFFFFF)
  allIdsLoop query ((index.range begin_ end_).map Prod.fst) offset []

/-- `RegistryStore::query` for a vector of ids. -/
def RegistryQuery.run : Except QueryError (List Id) :=
  if query.filters = [] then .ok (allIds index query)
  else (queryFilters u index query query.filters (.new u query)).map ResultsPagination.finalize

end

end MailServer.Store.Registry
