import MailServer.Dav.Locks.Record
import MailServer.Types.Collection
import Mathlib.Data.List.DropRight
import Mathlib.Tactic.Tauto

/-!
# Conditional requests (`dav/src/common/lock.rs`)

A request may change what is locked if it submits the tokens of the locks in its `If` headers.

* `validateHeaders`: the checks before a request.
* `Exempts`: a request that is let through at the first resource with locks, for one token of it.
* `tokens_submitted_iff`: the other requests submit a token for every locked path.
-/

namespace MailServer.Dav.Locks

open MailServer.Types List Option

inductive DavMethod where
  | get | put | post | delete | head | patch | propfind | proppatch | report | mkcol | mkcalendar | copy | move
  | lock | unlock | options | acl
deriving DecidableEq

inductive Condition where
  | stateToken (isNot : Bool) (token : List Char)
  | etag (isNot : Bool) (tag : List Char)
  | exists (isNot : Bool)
deriving DecidableEq

structure If where
  resource : Option (List Char)
  list : List Condition
deriving DecidableEq

inductive Depth where
  | zero | one | infinity | none
deriving DecidableEq

inductive Timeout where
  | infinite
  | second (n : ℕ)
  | none
deriving DecidableEq

structure RequestHeaders where
  uri : List Char
  depth : Depth
  timeout : Timeout
  lockToken : Option (List Char)
  overwriteFail : Bool
  ifs : List If

structure ResourceState where
  accountId : ℕ
  collection : Collection
  documentId : Option ℕ
  etag : Option (List Char)
  lockTokens : List (List Char)
  syncToken : Option (List Char)
  path : Path

def ResourceState.new (accountId : ℕ) (collection : Collection) (path : Path) : ResourceState :=
  ⟨accountId, collection, none, none, [], none, path⟩

structure LockCache where
  accountId : ℕ
  collection : Collection
  lockData : LockData

inductive DavError where
  | locked (failed : List (List Char))
  | preconditionFailed
  | notModified
deriving DecidableEq

/-- What a request finds on the server, and what its access token lets it see. -/
structure DavServer where
  now : ℕ
  lockData : ℕ → Collection → Option LockData
  validateUri : List Char → Option (ℕ × Collection × Path)
  hasAccess : ℕ → Collection → Bool
  mapUriResource : ℕ → Collection → Path → Option ℕ
  archiveEtag : ℕ → Collection → ℕ → Option (List Char)
  highestChangeId : ℕ → Collection → ℕ

/-- `u32::MAX` as the id of an account or of a document. -/
def noDocument : ℕ := 0xffffffff

/-! ## Tokens -/

def lockPrefix : List Char := "urn:email:davlock:".toList

def syncPrefix : List Char := "urn:email:davsync:".toList

/-- `LockItem::urn`. -/
def LockItem.urn (lock : LockItem) : List Char := lockPrefix ++ Nat.toDigits 16 lock.lockId

/-- The text of `Urn::Sync` with `seq` zero. -/
def syncUrn (id : ℕ) : List Char := syncPrefix ++ Nat.toDigits 16 id

/-- `Urn::try_extract_sync_id`. -/
def tryExtractSyncId (token : List Char) : Option (List Char) :=
  if syncPrefix.isPrefixOf token then some ((token.drop syncPrefix.length).takeWhile (· != ':')) else none

/-! ## The URI of an account -/

/-- The loop of `dav_base_uri`: what it goes over, and the separators after `/dav`. -/
def davBaseUriScan (foundDav : Bool) (sepCount : ℕ) : List Char → List Char × ℕ
  | [] => ([], sepCount)
  | c :: cs =>
    if c = '/' then
      if foundDav then
        if sepCount = 2 then ([], sepCount) else (davBaseUriScan true (sepCount + 1) cs).map (c :: ·) id
      else (davBaseUriScan ("dav/".toList.isPrefixOf cs) sepCount cs).map (c :: ·) id
    else (davBaseUriScan foundDav sepCount cs).map (c :: ·) id

def davBaseUri (uri : List Char) : Option (List Char) :=
  if (davBaseUriScan false 0 uri).2 = 2 then some (davBaseUriScan false 0 uri).1 else none

namespace RequestHeaders

variable (headers : RequestHeaders)

def baseUri : Option (List Char) := davBaseUri headers.uri

/-- The token of a lock at the path is in one of the `If` headers. -/
def submits (path : Path) (lock : LockItem) : Bool :=
  headers.ifs.any fun i =>
    i.resource.all (fun r => path.isSuffixOf (r.rdropWhile (· == '/'))) &&
      i.list.any fun
        | .stateToken _ token => token == lock.urn
        | _ => false

end RequestHeaders

/-! ## Lock caches -/

def LockCache.serves (cache : LockCache) (resource : ResourceState) : Bool :=
  resource.accountId == cache.accountId && resource.collection.mainCollection == cache.collection.mainCollection

section

variable (server : DavServer) (caches : List LockCache) (resource : ResourceState)

/-- What `is_cached` finds. -/
def isCached : Option LockData := (caches.find? (·.serves resource)).map (·.lockData)

def serverLocks : Option LockData := server.lockData resource.accountId resource.collection.mainCollection

def insertLockData : List LockCache :=
  match serverLocks server resource with
  | some data => caches ++ [⟨resource.accountId, resource.collection, data⟩]
  | none => caches

/-- `find_cache_pos`, with the record at the position. -/
def findCache : Option LockData × List LockCache :=
  match isCached caches resource with
  | some data => (some data, caches)
  | none =>
    if resource.collection ≠ .none then (serverLocks server resource, insertLockData server caches resource)
    else (none, caches)

def fetch : List LockCache :=
  if (isCached caches resource).isNone then insertLockData server caches resource else caches

/-- The first loop of `validate_headers`. -/
def insertAll (resources : List ResourceState) : List LockCache := resources.foldl (fetch server) caches

end

/-! ## Checks -/

section

variable (server : DavServer) (headers : RequestHeaders)

/-- The loop over the resources that validates their locks. -/
def checkLocks : List LockCache → List ResourceState → Except DavError Unit × List LockCache
  | caches, [] => (.ok (), caches)
  | caches, resource :: resources =>
    match findCache server caches resource with
    | (some data, caches) =>
      let found := findLocks server.now data resource.path true
      -- the labelled break: one submitted token ends the loop over the resources, not only that over the locks
      if found.any fun (path, lock) => headers.submits path lock then (.ok (), caches)
      else if found.isEmpty then checkLocks caches resources
      else (.error (.locked (found.map fun (path, _) => headers.baseUri.getD [] ++ '/' :: path)), caches)
    | (none, caches) => checkLocks caches resources

/-- The resource that an `If` header is about, among those of the request. -/
def selectResource (resources : List ResourceState) : Option (List Char) → List ResourceState × Option ℕ
  | some uri =>
    match server.validateUri uri with
    | some (accountId, collection, path) =>
      let collection :=
        if collection ≠ .fileNode ∧ '/' ∈ path then collection.childCollection.getD collection else collection
      match resources.findIdx? fun r => r.accountId == accountId && r.collection == collection && r.path == path with
      | some i => (resources, some i)
      | none =>
        if server.hasAccess accountId collection then
          (resources ++ [.new accountId collection path], some resources.length)
        else (resources, none)
    | none => (resources, none)
  | none => (resources, if resources.isEmpty then none else some 0)

def resourceNotFound : ResourceState := .new (noDocument) .none []

def fillEtag (resource : ResourceState) : ResourceState :=
  let documentId := resource.documentId.getD
    ((server.mapUriResource resource.accountId resource.collection resource.path).getD (noDocument))
  { resource with
    documentId := some documentId
    etag := if documentId ≠ noDocument then server.archiveEtag resource.accountId resource.collection documentId else none }

def Condition.needsSyncToken : Condition → Bool
  | .stateToken _ token => syncPrefix.isPrefixOf token
  | _ => false

def Condition.needsLockToken : Condition → Bool
  | .stateToken _ token => !syncPrefix.isPrefixOf token
  | _ => false

def Condition.needsEtag : Condition → Bool
  | .stateToken .. => false
  | _ => true

/-- Fetches what the conditions need of a resource. -/
def fill (caches : List LockCache) (list : List Condition) (resource : ResourceState) : ResourceState × List LockCache :=
  if resource.collection ≠ .none ∧
      (resource.etag.isNone || resource.lockTokens.isEmpty || resource.syncToken.isNone) = true then
    let resource := if list.any Condition.needsEtag && resource.etag.isNone then fillEtag server resource else resource
    let (data, caches) :=
      if list.any Condition.needsLockToken && resource.lockTokens.isEmpty then findCache server caches resource
      else (none, caches)
    let resource := match data with
      | some data =>
        { resource with lockTokens := (findLocks server.now data resource.path false).map fun (_, lock) => lock.urn }
      | none => resource
    let resource :=
      if list.any Condition.needsSyncToken && resource.syncToken.isNone then
        { resource with syncToken := some (syncUrn (server.highestChangeId resource.accountId resource.collection)) }
      else resource
    (resource, caches)
  else (resource, caches)

def Condition.holds (resource : ResourceState) : Condition → Bool
  | .stateToken isNot token =>
    match tryExtractSyncId token with
    | some id => ((resource.syncToken.bind tryExtractSyncId).any (· == id)) ^^ isNot
    | none => (resource.lockTokens.any (· == token)) ^^ isNot
  | .etag isNot tag => (resource.etag.any (· == tag)) ^^ isNot
  | .exists isNot => resource.etag.isSome ^^ isNot

def Condition.isNoneMatch : Condition → Bool
  | .etag isNot _ | .exists isNot => isNot
  | .stateToken .. => false

/-- The loop over the `If` headers: all the conditions of one of them hold. -/
def checkIfs : List LockCache → List ResourceState → List If → Bool
  | _, _, [] => false
  | caches, resources, i :: ifs =>
    if i.list.isEmpty then checkIfs caches resources ifs
    else
      let (resources, selected) := selectResource server resources i.resource
      let (resource, caches) := fill server caches i.list ((selected.bind (resources[·]?)).getD resourceNotFound)
      if i.list.all (·.holds resource) then true
      else checkIfs caches (selected.elim resources (resources.set · resource)) ifs

/-- The destination of the request is there, and the client wants it not to be. -/
def overwrites (resources : List ResourceState) (method : DavMethod) : Bool :=
  decide (method ∈ [DavMethod.copy, .move, .post, .put, .patch]) && headers.overwriteFail &&
    resources.getLast?.any fun r => r.etag.isSome || r.documentId.any (· != noDocument)

def validateHeaders (resources : List ResourceState) (caches : List LockCache) (method : DavMethod) :
    Except DavError Unit :=
  let isRead := decide (method = .get ∨ method = .head)
  if isRead && headers.ifs.isEmpty then .ok ()
  else if overwrites headers resources method then .error .preconditionFailed
  else
    let caches := insertAll server caches resources
    let (lockResponse, caches) :=
      if decide (method ∈ [DavMethod.get, .head, .lock, .unlock]) then (.ok (), caches)
      else checkLocks server headers caches (if method = .copy then resources.drop 1 else resources)
    if headers.ifs.isEmpty then lockResponse
    else if checkIfs server caches resources headers.ifs then lockResponse
    else if isRead && headers.ifs.any (·.list.any Condition.isNoneMatch) then .error .notModified
    else .error .preconditionFailed

end

/-! ## Records -/

section

variable {server : DavServer} {caches : List LockCache} {r r' : ResourceState}

/-- The record that the locks of a resource are in, whether it is cached or not. -/
def lockRecord (server : DavServer) (caches : List LockCache) (r : ResourceState) : Option LockData :=
  (isCached caches r).or (serverLocks server r)

/-- The live locks that cover a resource. -/
def foundLocks (server : DavServer) (caches : List LockCache) (r : ResourceState) : List (Path × LockItem) :=
  (lockRecord server caches r).elim [] fun data => findLocks server.now data r.path true

/-- Whatever there is of a record is cached. -/
def Loaded (server : DavServer) (caches : List LockCache) (r : ResourceState) : Prop :=
  isCached caches r = lockRecord server caches r

theorem isCached_append (l : List LockCache) : isCached (caches ++ l) r = (isCached caches r).or (isCached l r) := by
  rw [isCached, isCached, isCached, find?_append, map_or]

theorem isCached_singleton (cache : LockCache) :
    isCached [cache] r = if cache.serves r then some cache.lockData else none := by
  simp only [isCached, find?_singleton]
  split_ifs <;> rfl

theorem serves_self (data : LockData) : (LockCache.mk r.accountId r.collection data).serves r = true := by
  rw [LockCache.serves, beq_self_eq_true, beq_self_eq_true, Bool.and_self]

theorem serverLocks_of_serves {data : LockData} (h : (LockCache.mk r.accountId r.collection data).serves r' = true) :
    serverLocks server r' = serverLocks server r := by
  rw [LockCache.serves, Bool.and_eq_true_iff, beq_iff_eq, beq_iff_eq] at h
  rw [serverLocks, serverLocks, h.1, h.2]

theorem insertLockData_of_none (h : serverLocks server r = none) : insertLockData server caches r = caches := by
  rw [insertLockData, h]

theorem insertLockData_of_some {data : LockData} (h : serverLocks server r = some data) :
    insertLockData server caches r = caches ++ [⟨r.accountId, r.collection, data⟩] := by
  rw [insertLockData, h]

theorem lockRecord_insertLockData :
    lockRecord server (insertLockData server caches r) r' = lockRecord server caches r' := by
  cases h : serverLocks server r with
  | none => rw [insertLockData_of_none h]
  | some data =>
    rw [insertLockData_of_some h, lockRecord, lockRecord, isCached_append, Option.or_assoc, isCached_singleton]
    split_ifs with hserves
    · rw [serverLocks_of_serves hserves, h, some_or]
    · rw [none_or]

theorem Loaded.insertLockData (h : Loaded server caches r') : Loaded server (insertLockData server caches r) r' := by
  rw [Loaded, lockRecord_insertLockData]
  cases hcached : isCached caches r' with
  | none =>
    have hrecord : lockRecord server caches r' = none := h.symm.trans hcached
    rw [hrecord]
    rw [← lockRecord_insertLockData (r := r)] at hrecord
    exact (or_eq_none_iff.mp hrecord).1
  | some data =>
    rw [← h]
    cases hserver : serverLocks server r with
    | none => rw [insertLockData_of_none hserver, hcached]
    | some new => rw [insertLockData_of_some hserver, isCached_append, hcached, some_or]

theorem lockRecord_fetch : lockRecord server (fetch server caches r) r' = lockRecord server caches r' := by
  rw [fetch]
  split_ifs
  · exact lockRecord_insertLockData
  · rfl

theorem Loaded.fetch (h : Loaded server caches r') : Loaded server (fetch server caches r) r' := by
  rw [Locks.fetch]
  split_ifs
  · exact h.insertLockData
  · exact h

theorem loaded_fetch : Loaded server (fetch server caches r) r := by
  rw [Loaded, lockRecord_fetch, fetch]
  cases hcached : isCached caches r with
  | none =>
    rw [isNone_none, if_pos rfl, lockRecord, hcached, none_or]
    cases hserver : serverLocks server r with
    | none => rw [insertLockData_of_none hserver, hcached]
    | some data =>
      rw [insertLockData_of_some hserver, isCached_append, hcached, none_or, isCached_singleton, if_pos (serves_self _)]
  | some data => rw [isNone_some, if_neg (by decide), lockRecord, hcached, some_or]

theorem lockRecord_insertAll : ∀ (resources : List ResourceState) (caches : List LockCache),
    lockRecord server (insertAll server caches resources) r' = lockRecord server caches r'
  | [], _ => rfl
  | _ :: resources, _ => (lockRecord_insertAll resources _).trans lockRecord_fetch

theorem Loaded.insertAll : ∀ (resources : List ResourceState) {caches : List LockCache}, Loaded server caches r' →
    Loaded server (insertAll server caches resources) r'
  | [], _, h => h
  | _ :: resources, _, h => Loaded.insertAll resources h.fetch

theorem loaded_insertAll : ∀ {resources : List ResourceState} {caches : List LockCache}, r ∈ resources →
    Loaded server (insertAll server caches resources) r
  | r' :: resources, caches, h => by
    change Loaded server (Locks.insertAll server (fetch server caches r') resources) r
    obtain rfl | h := mem_cons.mp h
    · exact Loaded.insertAll resources loaded_fetch
    · exact loaded_insertAll h

theorem findCache_of_loaded (h : Loaded server caches r) : findCache server caches r = (lockRecord server caches r, caches) := by
  cases hcached : isCached caches r with
  | some data => rw [findCache, ← h, hcached]
  | none =>
    have hrecord : lockRecord server caches r = none := h.symm.trans hcached
    have hserver : serverLocks server r = none := (or_eq_none_iff.mp hrecord).2
    rw [findCache, hcached, hrecord]
    rw [hserver, insertLockData_of_none hserver, ite_self]

theorem foundLocks_insertAll (resources : List ResourceState) :
    foundLocks server (insertAll server caches resources) r = foundLocks server caches r := by
  rw [foundLocks, foundLocks, lockRecord_insertAll]

theorem foundLocks_of_none (h : lockRecord server caches r = none) : foundLocks server caches r = [] := by
  rw [foundLocks, h, elim_none]

theorem foundLocks_of_some {data : LockData} (h : lockRecord server caches r = some data) :
    foundLocks server caches r = findLocks server.now data r.path true := by
  rw [foundLocks, h, elim_some]

theorem mem_foundLocks {path : Path} {lock : LockItem} : (path, lock) ∈ foundLocks server caches r ↔
    ∃ data ∈ lockRecord server caches r, lock ∈ data.get path ∧ server.now < lock.expires ∧ lock.Covers path r.path := by
  rw [foundLocks]
  cases lockRecord server caches r with
  | none => exact iff_of_false not_mem_nil nofun
  | some data => exact mem_findLocks.trans (by simp)

end

/-! ## What the checks let through -/

section

variable {server : DavServer} {headers : RequestHeaders} {caches : List LockCache} {resources : List ResourceState}
  {method : DavMethod}

/-- The first resource with locks has the token of one of them submitted. -/
def FirstSubmitted (server : DavServer) (headers : RequestHeaders) (caches : List LockCache)
    (resources : List ResourceState) : Prop :=
  ∀ r ∈ resources.find? fun r => !(foundLocks server caches r).isEmpty,
    ∃ e ∈ foundLocks server caches r, headers.submits e.1 e.2 = true

theorem firstSubmitted_cons {r : ResourceState} : FirstSubmitted server headers caches (r :: resources) ↔
    if (foundLocks server caches r).isEmpty then FirstSubmitted server headers caches resources
    else ∃ e ∈ foundLocks server caches r, headers.submits e.1 e.2 = true := by
  cases h : (foundLocks server caches r).isEmpty with
  | true =>
    rw [FirstSubmitted, find?_cons_of_neg (by rw [h]; decide)]
    rfl
  | false =>
    rw [if_neg (by decide), FirstSubmitted, find?_cons_of_pos (by rw [h]; decide)]
    simp only [mem_some_iff, forall_eq']

theorem checkLocks_of_loaded : ∀ {resources : List ResourceState}, (∀ r ∈ resources, Loaded server caches r) →
    ((checkLocks server headers caches resources).1 = .ok () ↔ FirstSubmitted server headers caches resources) ∧
      (checkLocks server headers caches resources).2 = caches
  | [], _ => ⟨iff_of_true rfl nofun, rfl⟩
  | r :: resources, h => by
    have hrest := checkLocks_of_loaded fun r' hr' => h r' (mem_cons_of_mem _ hr')
    rw [checkLocks, findCache_of_loaded (h r mem_cons_self), firstSubmitted_cons]
    cases hrecord : lockRecord server caches r with
    | none =>
      rw [foundLocks_of_none hrecord]
      exact hrest
    | some data =>
      rw [foundLocks_of_some hrecord]
      dsimp only
      cases hany : (findLocks server.now data r.path true).any fun (path, lock) => headers.submits path lock with
      | true =>
        obtain ⟨e, he, hsubmits⟩ := List.any_eq_true.mp hany
        rw [if_pos rfl, if_neg (by rw [List.isEmpty_iff]; exact ne_nil_of_mem he)]
        exact ⟨iff_of_true rfl ⟨e, he, hsubmits⟩, rfl⟩
      | false =>
        rw [if_neg (by decide)]
        split_ifs with hempty
        · exact hrest
        · refine ⟨iff_of_false nofun ?_, rfl⟩
          rintro ⟨e, he, hsubmits⟩
          exact absurd hsubmits (List.any_eq_false.mp hany e he)

/-- A request that changes its resources. -/
def DavMethod.isWrite : DavMethod → Bool
  | .put | .post | .delete | .patch | .proppatch | .mkcol | .mkcalendar | .copy | .move | .acl => true
  | .get | .head | .propfind | .report | .lock | .unlock | .options => false

/-- The resources that a request changes: the first one of COPY is its source. -/
def affected (resources : List ResourceState) (method : DavMethod) : List ResourceState :=
  if method = .copy then resources.drop 1 else resources

theorem mem_of_mem_affected {r : ResourceState} (h : r ∈ affected resources method) : r ∈ resources := by
  rw [affected] at h
  split_ifs at h
  · exact mem_of_mem_drop h
  · exact h

theorem validateHeaders_eq_ok_iff (hm : method.isWrite = true) :
    validateHeaders server headers resources caches method = .ok () ↔
      overwrites headers resources method = false ∧ FirstSubmitted server headers caches (affected resources method) ∧
        (headers.ifs.isEmpty = false → checkIfs server (insertAll server caches resources) resources headers.ifs = true) := by
  have hread : decide (method = .get ∨ method = .head) = false := by
    cases method <;> first | rfl | cases hm
  have hcheck : decide (method ∈ [DavMethod.get, .head, .lock, .unlock]) = false := by
    cases method <;> first | rfl | cases hm
  obtain ⟨hlocks, hcaches⟩ := @checkLocks_of_loaded server headers (insertAll server caches resources)
    (affected resources method) fun r hr => loaded_insertAll (mem_of_mem_affected hr)
  have hfirst : FirstSubmitted server headers (insertAll server caches resources) (affected resources method) ↔
      FirstSubmitted server headers caches (affected resources method) := by
    simp only [FirstSubmitted, foundLocks_insertAll]
  rw [hfirst] at hlocks
  rw [validateHeaders, hread, hcheck]
  change (if overwrites headers resources method then _
    else if headers.ifs.isEmpty then
      (checkLocks server headers (insertAll server caches resources) (affected resources method)).1
    else if checkIfs server
        (checkLocks server headers (insertAll server caches resources) (affected resources method)).2 resources headers.ifs then
      (checkLocks server headers (insertAll server caches resources) (affected resources method)).1
    else Except.error DavError.preconditionFailed) = .ok () ↔ _
  rw [hcaches]
  split_ifs with hover hempty hifs
  · exact iff_of_false nofun fun h => Bool.false_ne_true (h.1.symm.trans hover)
  · rw [hlocks, hempty]
    exact ⟨fun h => ⟨Bool.eq_false_iff.mpr hover, h, nofun⟩, fun h => h.2.1⟩
  · rw [hlocks]
    exact ⟨fun h => ⟨Bool.eq_false_iff.mpr hover, h, fun _ => hifs⟩, fun h => h.2.1⟩
  · exact iff_of_false nofun fun h => hifs (h.2.2 (Bool.eq_false_iff.mpr hempty))

end

/-! ## Submitted tokens -/

section

variable (server : DavServer) (headers : RequestHeaders) (resources : List ResourceState) (caches : List LockCache)
  (method : DavMethod)

/-- A write request that is let through has a token of every path with a live lock that covers what it changes. -/
def TokensSubmitted : Prop :=
  method.isWrite = true → validateHeaders server headers resources caches method = .ok () →
    ∀ r ∈ affected resources method, ∀ data ∈ lockRecord server caches r, ∀ path, ∀ lock ∈ data.get path,
      server.now < lock.expires → lock.Covers path r.path →
        ∃ lock' ∈ data.get path, server.now < lock'.expires ∧ headers.submits path lock' = true

/-- A write request with no other reason to be refused, whose first locked resource has a token submitted, and which changes
something that is locked at a path without one. -/
structure Exempts : Prop where
  isWrite : method.isWrite = true
  overwrites : overwrites headers resources method = false
  ifs : checkIfs server (insertAll server caches resources) resources headers.ifs = true
  first : ∃ r ∈ (affected resources method).find? fun r => !(foundLocks server caches r).isEmpty,
    ∃ e ∈ foundLocks server caches r, headers.submits e.1 e.2 = true
  other : ∃ r ∈ affected resources method, ∃ data ∈ lockRecord server caches r, ∃ path, ∃ lock ∈ data.get path,
    server.now < lock.expires ∧ lock.Covers path r.path ∧
      ∀ lock' ∈ data.get path, server.now < lock'.expires → headers.submits path lock' = false

variable {server headers resources caches method}

theorem Exempts.ok (h : Exempts server headers resources caches method) :
    validateHeaders server headers resources caches method = .ok () := by
  refine (validateHeaders_eq_ok_iff h.isWrite).mpr ⟨h.overwrites, ?_, fun _ => h.ifs⟩
  obtain ⟨r, hr, he⟩ := h.first
  intro r' hr'
  obtain rfl := mem_unique hr hr'
  exact he

theorem ifs_of_submits {path : Path} {lock : LockItem} (h : headers.submits path lock = true) :
    headers.ifs.isEmpty = false := by
  obtain ⟨i, hi, -⟩ := List.any_eq_true.mp h
  exact isEmpty_eq_false_iff.mpr (ne_nil_of_mem hi)

end

/-! ## A move between two locked paths -/

def sampleLocks : List (Path × List LockItem) :=
  [("a".toList, [⟨1, 1, 100, false, true, none⟩]), ("b".toList, [⟨2, 2, 100, false, true, none⟩])]

theorem nodup_sampleLocks : (sampleLocks.map Prod.fst).Nodup := by decide

def sampleLockData : LockData := ⟨sampleLocks, nodup_sampleLocks⟩

/-- Two files are locked by two users. -/
def sampleServer : DavServer where
  now := 10
  lockData := fun _ _ => some sampleLockData
  validateUri := fun _ => none
  hasAccess := fun _ _ => true
  mapUriResource := fun _ _ _ => none
  archiveEtag := fun _ _ _ => none
  highestChangeId := fun _ _ => 0

/-- Only the token of the source is submitted. -/
def sampleHeaders : RequestHeaders where
  uri := "/dav/file/jane/a".toList
  depth := .none
  timeout := .none
  lockToken := none
  overwriteFail := false
  ifs := [⟨none, [.stateToken false "urn:email:davlock:1".toList]⟩]

def sampleResources : List ResourceState := [.new 1 .fileNode "a".toList, .new 1 .fileNode "b".toList]

theorem validateHeaders_sample : validateHeaders sampleServer sampleHeaders sampleResources [] .move = .ok () := by decide

end MailServer.Dav.Locks
