import MailServer.Groupware.Cache
import MailServer.Store.Query.Changes

/-!
# PROPFIND and REPORT (`dav/src/common/propfind.rs`)

* `get`: the items of PROPFIND and of `sync-collection`, with what a page of the changes leaves of them.
* `multiget`: the items of `calendar-multiget` and `addressbook-multiget`.
* `handleDavQuery`: the answer to a query from its items.
-/

namespace MailServer.Dav

open MailServer.Common MailServer.Store

inductive StatusCode where
  | forbidden | notFound | methodNotAllowed | insufficientStorage
  deriving DecidableEq

/-- `Urn::Sync`. -/
structure SyncToken where
  id : ℕ
  seq : ℕ
  deriving DecidableEq

inductive SyncType where
  | none
  | initial
  | «from» (token : SyncToken)

structure PropFindItem where
  name : String
  accountId : UInt32
  documentId : ℕ
  parentId : Option ℕ
  isContainer : Bool
  deriving DecidableEq

/-- A response of a multi-status answer; the properties of an item come from what the store has of it. -/
inductive Response (Content : Type) where
  | status (href : String) (code : StatusCode)
  | propstat (item : PropFindItem) (content : Content)

/-- What a request reads of an account. -/
structure Account (Content : Type) where
  accountId : UInt32
  /-- the cache of a collection, and how far it has the log -/
  resources : DavResources
  highestChangeId : ℕ
  /-- the logs of the collection and of its vanished paths -/
  changes : Query.Log
  vanished : List (ℕ × List String)
  /-- the archives of the containers and of the items -/
  archives : Bool → ℕ → Option Content

/-- `DavQuery` on a URI. -/
structure DavQuery where
  uri : String
  resource : Option String
  depth : ℕ
  depthNoRoot : Bool
  syncType : SyncType
  limit : Option ℕ

/-! ## Paths -/

def slashes (name : List Char) : ℕ := name.count '/'

def subtreeWithDepth (c : DavResources) (searchPath : String) (depth : ℕ) : List (DavPath × DavResource) :=
  (c.paths.filter fun path =>
    ((path.path.toList.dropPrefix? (searchPath ++ "/").toList).any fun name => slashes name < depth) ||
      path.path = searchPath).filterMap fun path => c.resources[path.resourceIdx]?.map fun r => (path, r)

def treeWithDepth (c : DavResources) (depth : ℕ) : List (DavPath × DavResource) :=
  (c.paths.filter fun path => slashes path.path.toList ≤ depth).filterMap fun path =>
    c.resources[path.resourceIdx]?.map fun r => (path, r)

def formatResource (c : DavResources) (r : DavPath × DavResource) : String :=
  if r.2.isContainer then c.basePath ++ r.1.path ++ "/" else c.basePath ++ r.1.path

/-- `PropFindItem::new`. -/
def PropFindItem.new (name : String) (accountId : UInt32) (r : DavPath × DavResource) : PropFindItem :=
  ⟨name, accountId, r.2.documentId, r.1.parentId, r.2.isContainer⟩

section

variable {Content : Type} (a : Account Content) (t : AccessToken)

def Account.item (r : DavPath × DavResource) : PropFindItem := .new (formatResource a.resources r) a.accountId r

def Account.syncToken : SyncToken := ⟨a.highestChangeId, 0⟩

/-! ## What may be shown -/

/-- The containers and the items to show; all of them without a set. -/
structure Display where
  containers : Option (Finset ℕ)
  children : Option (Finset ℕ)

/-- The items with a link to one of some containers. -/
def linkedTo (c : DavResources) (containers : Finset ℕ) : Finset ℕ :=
  ((c.resources.filter fun r => r.childNames.any fun names => names.any fun name => decide (name.parentId ∈ containers)).map
    DavResource.documentId).toFinset

def displayed (containerHasChildren : Bool) : Display :=
  if t.isMember a.accountId then ⟨none, none⟩
  else
    let containers := a.resources.sharedContainers t [if containerHasChildren then .readItems else .read] true
    ⟨some containers, if containerHasChildren then some (linkedTo a.resources containers) else none⟩

def Display.shows (d : Display) (containerHasChildren : Bool) (r : DavPath × DavResource) : Bool :=
  d.containers.all fun containers =>
    if containerHasChildren && !r.2.isContainer then d.children.any fun children => decide (r.2.documentId ∈ children)
    else decide (r.2.documentId ∈ containers)

/-! ## Changes -/

/-- What the changes of the log say: the containers and the items to show, and that paths may be gone. -/
structure Merged where
  containers : Finset ℕ
  items : Finset ℕ
  maybeHasVanished : Bool

def Merged.add (m : Merged) : Query.Change → Merged
  | .insertItem id => { m with items := insert id.toUInt32.toNat m.items }
  | .updateItem id => { m with items := insert id.toUInt32.toNat m.items, maybeHasVanished := true }
  | .insertContainer id => { m with containers := insert id.toUInt32.toNat m.containers }
  | .updateContainer id => { m with containers := insert id.toUInt32.toNat m.containers, maybeHasVanished := true }
  | .deleteContainer _ | .deleteItem _ => { m with maybeHasVanished := true }
  | .updateContainerProperty _ => m

def merge (changes : List Query.Change) : Merged := changes.foldl Merged.add ⟨∅, ∅, false⟩

/-- `*document_ids &= changes`, or the changes where all are shown. -/
def narrow (changes : Finset ℕ) : Option (Finset ℕ) → Finset ℕ
  | some documentIds => documentIds ∩ changes
  | none => changes

/-- What is shown of the changes; files have one set for both. -/
def Display.narrow (d : Display) (containerHasChildren : Bool) (m : Merged) : Display :=
  if containerHasChildren then
    ⟨some (Dav.narrow m.containers d.containers), some (Dav.narrow m.items d.children)⟩
  else ⟨some (Dav.narrow (m.containers ∪ m.items) d.containers), d.children⟩

def Display.total (d : Display) : ℕ := (d.containers.map Finset.card).getD 0 + (d.children.map Finset.card).getD 0

/-- `Store::vanished`. -/
def vanishedSince (log : List (ℕ × List String)) (id : ℕ) : List String :=
  (log.filter fun entry => id < entry.1).flatMap Prod.snd

/-- How far a page of the changes is. -/
structure Page where
  offset : ℕ
  totalChanges : ℕ
  isSyncLimited : Bool

/-- What of a list comes on the page. -/
def Page.take {α : Type} (limit : ℕ) (p : Page) : List α → Page × List α
  | [] => (p, [])
  | x :: xs =>
    if 0 < p.offset then { p with offset := p.offset - 1 }.take limit xs
    else if p.totalChanges < limit then
      let r := { p with totalChanges := p.totalChanges + 1 }.take limit xs
      (r.1, x :: r.2)
    else { p with isSyncLimited := true }.take limit xs

/-- What comes on the page of a set of ids, which are in ascending order. -/
def Page.takeIds (limit : ℕ) (p : Page) : Option (Finset ℕ) → Page × Option (Finset ℕ)
  | some documentIds =>
    let r := p.take limit (documentIds.sort (· ≤ ·))
    (r.1, some r.2.toFinset)
  | none => (p, none)

/-- The vanished paths and what is shown of the changes, all of them or those of a page. -/
structure Changed where
  vanished : List String
  display : Display
  isSyncLimited : Bool

def truncate (limit seq : ℕ) (vanished : List String) (d : Display) : Changed :=
  if limit < d.total + vanished.length then
    let (page, vanished) := Page.take limit ⟨limit * seq, 0, false⟩ vanished
    let (page, containers) := page.takeIds limit d.containers
    let (page, children) := page.takeIds limit d.children
    ⟨vanished, ⟨containers, children⟩, page.isSyncLimited⟩
  else ⟨vanished, d, false⟩

/-- The changes since a token.  The logs of the calendars, address books and files have a log of vanished paths. -/
def changedSince (containerHasChildren : Bool) (limit : ℕ) (token : SyncToken) (d : Display) : Except Trc.Error Changed :=
  (a.changes.changes false (.since token.id)).map fun changes =>
    let merged := merge changes.changes
    truncate limit token.seq (if merged.maybeHasVanished then vanishedSince a.vanished token.id else [])
      (d.narrow containerHasChildren merged)

/-! ## The handlers -/

/-- An answer before the properties of its items. -/
structure Answer (Content : Type) where
  responses : List (Response Content)
  items : List PropFindItem
  isSyncLimited : Bool
  syncToken : Option SyncToken

def Response.gone {Content : Type} (href : String) : Response Content := .status href .notFound

/-- The items of a URI that are shown, without the listing of other accounts of the assisted discovery and without
the properties of the principal. -/
def listed (containerHasChildren : Bool) (query : DavQuery) (d : Display) : List PropFindItem :=
  match query.resource with
  | some resource =>
    ((subtreeWithDepth a.resources resource query.depth).filter fun r =>
      d.shows containerHasChildren r && (!query.depthNoRoot || r.1.path ≠ resource)).map a.item
  | none =>
    if query.depth = 0 then []
    else ((treeWithDepth a.resources (query.depth - 1)).filter fun r => d.shows containerHasChildren r).map a.item

def get (containerHasChildren : Bool) (limit : ℕ) (query : DavQuery) : Except Trc.Error (Answer Content) :=
  let d := displayed a t containerHasChildren
  match query.syncType with
  | .none => .ok ⟨[], listed a containerHasChildren query d, false, none⟩
  | .initial => .ok ⟨[], listed a containerHasChildren query d, false, some a.syncToken⟩
  | .from token =>
    (changedSince a containerHasChildren limit token d).map fun changed =>
      ⟨changed.vanished.map Response.gone, listed a containerHasChildren query changed.display, changed.isSyncLimited,
        some (if changed.isSyncLimited then ⟨token.id, token.seq + 1⟩ else a.syncToken)⟩

/-- One link of a multiget, with what `validate_uri` makes of it. -/
structure Href where
  text : String
  uri : Except StatusCode (UInt32 × Option String)

/-- One link of a multiget, in the account it names. -/
def multigetItem (containerHasChildren : Bool) (href : String) (resource : Option String) :
    Response Content ⊕ PropFindItem :=
  let documentIds :=
    if t.isMember a.accountId then none
    else some (a.resources.sharedContainers t [if !containerHasChildren then .readItems else .read] true)
  match resource.bind a.resources.byPath with
  | some r =>
    if !r.2.isContainer then
      if documentIds.all fun docs => r.1.parentId.any fun parentId => decide (parentId ∈ docs) then .inr (a.item r)
      else .inl (.status href .forbidden)
    else .inl (.status href .forbidden)
  | none => .inl (.status href .notFound)

def multiget (accounts : UInt32 → Account Content) (containerHasChildren : Bool) (hrefs : List Href) : Answer Content :=
  let results := hrefs.map fun href =>
    match href.uri with
    | .error code => .inl (.status href.text code)
    | .ok (accountId, resource) => multigetItem (accounts accountId) t containerHasChildren href.text resource
  ⟨results.filterMap Sum.getLeft?, results.filterMap Sum.getRight?, false, none⟩

/-- `limit -= 1`, of a machine word. -/
def decrement (limit : ℕ) : ℕ := (limit + (2 ^ 64 - 1)) % 2 ^ 64

/-- The responses of the items, until there are as many as the limit. -/
def respond (archives : PropFindItem → Option Content) (keeps : PropFindItem → Content → Bool) :
    ℕ → List PropFindItem → List (Response Content) × ℕ
  | limit, [] => ([], limit)
  | limit, item :: items =>
    match archives item with
    | none =>
      let r := respond archives keeps limit items
      (.status item.name .notFound :: r.1, r.2)
    | some content =>
      if keeps item content then
        if decrement limit = 0 then ([.propstat item content], 0)
        else
          let r := respond archives keeps (decrement limit) items
          (.propstat item content :: r.1, r.2)
      else respond archives keeps limit items

/-- `handle_dav_query`, from the answer of one of the handlers, for a limit of the query and one of the server.  The
filter of a query is a parameter, and the limit on expanded recurrences is left out. -/
def handleDavQuery (accounts : UInt32 → Account Content) (uri : String) (maxResults : ℕ) (limit : Option ℕ)
    (keeps : PropFindItem → Content → Bool) (answer : Answer Content) : List (Response Content) × Option SyncToken :=
  let r := respond (fun item => (accounts item.accountId).archives item.isContainer item.documentId) keeps
    (min (limit.getD (2 ^ 32 - 1)) maxResults) answer.items
  let limited := if r.2 = 0 || answer.isSyncLimited then [.status uri .insufficientStorage] else []
  (answer.responses ++ r.1 ++ limited, answer.syncToken)

end

end MailServer.Dav
