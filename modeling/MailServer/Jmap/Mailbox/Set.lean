import MailServer.Email.Destroy
import MailServer.JmapProto.Set

/-!
# `Mailbox/set` (`jmap/src/mailbox/set.rs`)

The creates of a request are checked one by one and committed together, then the updates, then mailboxes are
destroyed one by one.

* `readProperty`: one property of a create or an update.
* `checkParent`: the walk up from the parent.  `checkUnique`: the role and the name.
* `mailboxSetItem`: the checks of one create or update.
* `mailboxSet`: the method.
-/

namespace MailServer.Jmap.Mailbox

open MailServer.Types MailServer.Common MailServer.JmapProto MailServer.Email MailServer.Utils MailServer.Lib SetError

/-! ## The request -/

inductive MailboxRight where
  | mayReadItems | mayAddItems | mayRemoveItems | maySetSeen | maySetKeywords | mayCreateChild | mayRename
  | maySubmit | mayDelete | mayShare

inductive MailboxProperty where
  | id | name | parentId | role | sortOrder | totalEmails | unreadEmails | totalThreads | unreadThreads
  | shareWith | myRights | isSubscribed
  | idValue (i : Id)
  | rights (r : MailboxRight)
  | pointer (p : List (JsonPointerItem MailboxProperty))

inductive MailboxValue where
  | id (i : Id)
  | idReference (s : String)
  | role (r : SpecialUse)

/-- A JSON value; of an array, the elements that are found in it. -/
inductive Value where
  | null
  | bool (b : Bool)
  | str (s : String)
  | number (n : UInt64)
  | element (v : MailboxValue)
  | array (elements : List MailboxValue)
  | other

abbrev Properties := List (Key MailboxProperty × Value)

/-- A request, without the keys that are no ids; a value that is no object is `none`. -/
structure SetRequest where
  accountId : Id
  /-- how many objects it names, counted with those keys -/
  numObjects : ℕ
  create : List (String × Option Properties)
  update : List (Id × Option Properties)
  destroy : List Id
  onDestroyRemoveEmails : Option Bool

structure SetResponse where
  created : List (String × Id)
  notCreated : List (String × SetError MailboxProperty)
  updated : List Id
  notUpdated : List (Id × SetError MailboxProperty)
  destroyed : List Id
  notDestroyed : List (Id × SetError MailboxProperty)

/-- The last object that was created under a name. -/
def SetResponse.getCreatedId (r : SetResponse) (idRef : String) : Option Id :=
  (r.created.reverse.find? fun e => e.1 = idRef).map Prod.snd

structure SetContext where
  accountId : UInt32
  accessToken : AccessToken
  isShared : Bool
  response : SetResponse
  mailboxIds : List ℕ
  willDestroy : List Id

/-- The settings of the server, and what it uses of other parts: strings, hashes, and rights. -/
structure Server where
  setMaxObjects : ℕ
  mailboxNameMaxLen : ℕ
  mailboxMaxDepth : ℕ
  /-- `object_quota` of `MaxMailboxes` -/
  maxMailboxes : ℕ
  trim : String → String
  toLowercase : String → String
  hash : ArchiveHash
  aclSet : Value → Except (SetError MailboxProperty) (List AclGrant)
  aclPatch : List AclGrant → List (JsonPointerItem MailboxProperty) → Value →
    Except (SetError MailboxProperty) (List AclGrant)
  aclValidate : List AclGrant → Option (SetError MailboxProperty)

/-! ## One create or update -/

/-- `resolve_self_references` of an element. -/
def resolveElement (r : SetResponse) : MailboxValue → Except (SetError MailboxProperty) MailboxValue
  | .idReference idRef =>
    match r.getCreatedId idRef with
    | some id => .ok (.id id)
    | none => .error (notFound.withDescription s!"Id reference {idRef.quote} not found.")
  | v => .ok v

def resolveSelfReferences (r : SetResponse) : Value → Except (SetError MailboxProperty) Value
  | .element v => (resolveElement r v).map Value.element
  | .array elements => (elements.mapM (resolveElement r)).map Value.array
  | v => .ok v

variable (s : Server)

/-- One property, once its references are resolved; the flag says whether rights are changed. -/
def readProperty (ctx : SetContext) (changes : Mailbox) (hasAclChanges : Bool) :
    Key MailboxProperty → Value → Except (SetError MailboxProperty) (Mailbox × Bool)
  | .property .name, .str value =>
    let value := s.trim value
    if value ≠ "" ∧ value.utf8ByteSize < s.mailboxNameMaxLen then .ok ({ changes with name := value }, hasAclChanges)
    else .error ((invalidProperties.withProperty .name).withDescription
      (if value ≠ "" then "Mailbox name is too long." else "Mailbox name cannot be empty."))
  | .property .parentId, .element (.id value) =>
    let parentId := value.documentId.toNat
    if ctx.willDestroy.contains value then
      .error (willDestroy.withDescription "Parent ID will be destroyed.")
    else if ¬ ctx.mailboxIds.contains parentId then
      .error (invalidProperties.withDescription "Parent ID does not exist.")
    else .ok ({ changes with parentId := parentId + 1 }, hasAclChanges)
  | .property .parentId, .null => .ok ({ changes with parentId := 0 }, hasAclChanges)
  | .property .isSubscribed, .bool subscribe =>
    let accountId := ctx.accessToken.accountId
    .ok ({ changes with
      subscribers :=
        if subscribe then
          if changes.subscribers.contains accountId then changes.subscribers
          else changes.subscribers ++ [accountId]
        else changes.subscribers.filter fun id => id ≠ accountId }, hasAclChanges)
  | .property .role, .element (.role role) => .ok ({ changes with role }, hasAclChanges)
  | .property .role, .null => .ok ({ changes with role := .none }, hasAclChanges)
  | .property .sortOrder, .number value => .ok ({ changes with sortOrder := some value.toUInt32 }, hasAclChanges)
  | .property .shareWith, value => (s.aclSet value).map fun acls => ({ changes with acls }, true)
  | .property (.pointer (.key (.property .shareWith) :: pointer)), value =>
    (s.aclPatch changes.acls pointer value).map fun acls => ({ changes with acls }, true)
  | property, _ =>
    .error ((invalidProperties.withKey property).withDescription "Invalid property or value.")

/-- The loop over the properties. -/
def readProperties (ctx : SetContext) : Properties → Mailbox → Bool →
    Except (SetError MailboxProperty) (Mailbox × Bool)
  | [], changes, hasAclChanges => .ok (changes, hasAclChanges)
  | (property, value) :: rest, changes, hasAclChanges =>
    match resolveSelfReferences ctx.response value with
    | .error e => .error e
    | .ok value =>
      match readProperty s ctx changes hasAclChanges property value with
      | .error e => .error e
      | .ok r => readProperties ctx rest r.1 r.2

/-- Validate depth and circular parent-child relationship: the walk up from a parent, with so many steps left. -/
def checkParent (a : Account) (ctx : SetContext) (currentMailboxId : ℕ) :
    (steps depth mailboxParentId : ℕ) → Except (SetError MailboxProperty) Unit
  | 0, _, _ =>
    .error ((invalidProperties.withProperty .parentId).withDescription
      "Mailbox parent-child relationship is too deep.")
  | steps + 1, depth, mailboxParentId =>
    if mailboxParentId = currentMailboxId then
      .error ((invalidProperties.withProperty .parentId).withDescription
        "Mailbox cannot be a parent of itself.")
    else if mailboxParentId = 0 then
      if depth = 0 ∧ ctx.isShared then
        .error (forbidden.withDescription "You are not allowed to create root folders.")
      else .ok ()
    else
      match a.mailboxes[mailboxParentId - 1]? with
      | some mailbox =>
        if depth = 0 ∧ ctx.isShared ∧ ¬ (effectiveAcl mailbox.acls ctx.accessToken).contains .createChild then
          .error (forbidden.withDescription
            "You are not allowed to create sub mailboxes under this mailbox.")
        else checkParent a ctx currentMailboxId steps (depth + 1) mailbox.parentId
      | none =>
        -- Parent mailbox is probably created within the same request
        if ctx.mailboxIds.contains (mailboxParentId - 1) then .ok ()
        else .error ((invalidProperties.withProperty .parentId).withDescription
          "Mailbox parent does not exist.")

/-- The parent of a create, or of an update that changes it. -/
def checkHierarchy (a : Account) (ctx : SetContext) (update : Option (ℕ × Mailbox)) (changes : Mailbox) :
    Except (SetError MailboxProperty) Unit :=
  if update.all fun u => u.2.parentId ≠ changes.parentId then
    checkParent a ctx ((update.map fun u => u.1 + 1).getD 0xFFFFFFFF) s.mailboxMaxDepth 0 changes.parentId
  else .ok ()

/-- Verify that the mailbox role is unique. -/
def checkRole (a : Account) (update : Option (ℕ × Mailbox)) (changes : Mailbox) :
    Except (SetError MailboxProperty) Unit :=
  if update.all fun u => u.2.role ≠ changes.role then
    if changes.role ≠ .none ∧ a.mailboxes.toList.any fun m => m.2.role = changes.role then
      .error ((invalidProperties.withProperty .role).withDescription
        ("A mailbox with role '" ++ changes.role.asStr.getD "" ++ "' already exists."))
    -- Role of internal folders cannot be modified
    else if update.any fun u => u.1 = INBOX_ID || u.1 = TRASH_ID || u.1 = JUNK_ID then
      .error ((invalidProperties.withProperty .role).withDescription
        "You are not allowed to change the role of Inbox, Junk or Trash folders.")
    else .ok ()
  else .ok ()

/-- Verify that the mailbox name is unique. -/
def checkName (a : Account) (update : Option (ℕ × Mailbox)) (changes : Mailbox) :
    Except (SetError MailboxProperty) Unit :=
  if changes.name ≠ "" then
    if (update.all fun u => u.2.name ≠ changes.name) ∧
        a.mailboxes.toList.any fun m =>
          s.toLowercase m.2.name = s.toLowercase changes.name && m.2.parentId = changes.parentId then
      .error ((invalidProperties.withProperty .name).withDescription
        ("A mailbox with name '" ++ changes.name ++ "' already exists."))
    else .ok ()
  else
    .error ((invalidProperties.withProperty .name).withDescription "Mailbox name cannot be empty.")

/-- `mailbox_set_item`, of a create or of an update of a document: what it is to become. -/
def mailboxSetItem (a : Account) (ctx : SetContext) (changes_ : Properties) (update : Option (ℕ × Mailbox)) :
    Except (SetError MailboxProperty) Mailbox :=
  match readProperties s ctx changes_ ((update.map Prod.snd).getD (.new "")) false with
  | .error e => .error e
  | .ok (changes, hasAclChanges) =>
    match checkHierarchy s a ctx update changes with
    | .error e => .error e
    | .ok () =>
      match checkRole a update changes with
      | .error e => .error e
      | .ok () =>
        match checkName s a update changes with
        | .error e => .error e
        | .ok () =>
          if hasAclChanges ∧ ¬ changes.acls.isEmpty then
            match s.aclValidate changes.acls with
            | some e => .error e
            | none => .ok changes
          else .ok changes

/-! ## The method -/

def SetContext.notCreated (ctx : SetContext) (id : String) (e : SetError MailboxProperty) : SetContext :=
  { ctx with response := { ctx.response with notCreated := ctx.response.notCreated ++ [(id, e)] } }

def SetContext.notUpdated (ctx : SetContext) (id : Id) (e : SetError MailboxProperty) : SetContext :=
  { ctx with response := { ctx.response with notUpdated := ctx.response.notUpdated ++ [(id, e)] } }

/-- A mailbox that is created gets the next document id. -/
def SetContext.created (ctx : SetContext) (id : String) (documentId : ℕ) : SetContext :=
  { ctx with
    mailboxIds := ctx.mailboxIds ++ [documentId]
    response := { ctx.response with
      created := ctx.response.created ++ [(id, .ofDocumentId (.ofNat documentId))] } }

/-- A mailbox to write; the parent is asserted to be there. -/
def mailboxOps (documentId : ℕ) (current : Option Mailbox) (changes : Mailbox) : List Op :=
  (if 0 < changes.parentId then [.assertMailbox (changes.parentId - 1)] else []) ++
    [.mailbox documentId current (some changes)]

/-- The loop over the creates: the mailboxes to create, under their document ids. -/
def createEach (a : Account) : List (String × Option Properties) → SetContext → ℕ → List (ℕ × Mailbox) →
    SetContext × ℕ × List (ℕ × Mailbox)
  | [], ctx, nextId, batch => (ctx, nextId, batch)
  | (_, none) :: rest, ctx, nextId, batch => createEach a rest ctx nextId batch
  | (id, some object) :: rest, ctx, nextId, batch =>
    -- Validate quota
    if s.maxMailboxes ≤ ctx.mailboxIds.length then
      createEach a rest (ctx.notCreated id ((new .overQuota).withDescription
        "There are too many mailboxes, please delete some before adding a new one.")) nextId batch
    else
      match mailboxSetItem s a ctx object none with
      | .ok changes => createEach a rest (ctx.created id nextId) (nextId + 1) (batch ++ [(nextId, changes)])
      | .error e => createEach a rest (ctx.notCreated id e) nextId batch

/-- An update that is accepted: the document, what was read and what it becomes. -/
structure Update where
  id : Id
  current : Mailbox
  changes : Mailbox

def Update.documentId (u : Update) : ℕ := u.id.documentId.toNat

/-- The checks of an update before its properties are read. -/
def checkUpdate (ctx : SetContext) (mailbox : Mailbox) (object : Properties) :
    Option (SetError MailboxProperty) :=
  if ctx.isShared then
    let acl := effectiveAcl mailbox.acls ctx.accessToken
    if ¬ acl.contains .modify then
      some (forbidden.withDescription "You are not allowed to modify this mailbox.")
    else if (object.any fun p => p.1 matches .property .shareWith) ∧ ¬ acl.contains .share then
      some (forbidden.withDescription
        "You are not allowed to change the permissions of this mailbox.")
    else none
  else none

/-- The loop over the updates. -/
def updateEach (a : Account) : List (Id × Option Properties) → SetContext → List Update → SetContext × List Update
  | [], ctx, batch => (ctx, batch)
  | (id, object) :: rest, ctx, batch =>
    -- Make sure id won't be destroyed
    if ctx.willDestroy.contains id then updateEach a rest (ctx.notUpdated id .willDestroy) batch
    else
      match object with
      | none => updateEach a rest ctx batch
      | some object =>
        match a.mailboxes[id.documentId.toNat]? with
        | none => updateEach a rest (ctx.notUpdated id .notFound) batch
        | some mailbox =>
          match checkUpdate ctx mailbox object with
          | some e => updateEach a rest (ctx.notUpdated id e) batch
          | none =>
            match mailboxSetItem s a ctx object (some (id.documentId.toNat, mailbox)) with
            | .ok changes => updateEach a rest ctx (batch ++ [⟨id, mailbox, changes⟩])
            | .error e => updateEach a rest (ctx.notUpdated id e) batch

def destroyError : MailboxDestroyError → SetError MailboxProperty
  | .cannotDestroy =>
    forbidden.withDescription "You are not allowed to delete Inbox, Junk or Trash folders."
  | .forbidden => forbidden.withDescription "You are not allowed to delete this mailbox."
  | .hasChildren => (new .mailboxHasChild).withDescription "Mailbox has at least one children."
  | .hasEmails => (new .mailboxHasEmail).withDescription "Mailbox is not empty."
  | .notFound => notFound
  | .assertionFailed =>
    forbidden.withDescription
      "Another process modified a message in this mailbox while deleting it, please try again."

/-- The places where the batches of a request are cut, and whether its `ifInState` holds. -/
structure Circumstances where
  stateMatches : Bool
  createCuts : List ℕ
  updateCuts : List ℕ
  destroyCuts : List ℕ

/-- The loop over the mailboxes to destroy. -/
def destroyEach (c : Circumstances) (accountId : UInt32) (accessToken : AccessToken) (removeEmails : Bool) :
    List Id → Account → SetResponse → Account × SetResponse
  | [], a, response => (a, response)
  | id :: rest, a, response =>
    let r := mailboxDestroy s.hash accessToken accountId c.destroyCuts a id.documentId.toNat removeEmails
    destroyEach c accountId accessToken removeEmails rest r.1
      (match r.2 with
        | .ok () => { response with destroyed := response.destroyed ++ [id] }
        | .error e => { response with notDestroyed := response.notDestroyed ++ [(id, destroyError e)] })

inductive SetFailure where
  | requestTooLarge
  | stateMismatch
  | assertionFailed

/-- The context of a request before anything is done. -/
def SetContext.start (a : Account) (accessToken : AccessToken) (request : SetRequest) : SetContext where
  accountId := request.accountId.documentId
  accessToken := accessToken
  isShared := accessToken.isShared request.accountId.documentId
  response := ⟨[], [], [], [], [], []⟩
  mailboxIds := a.mailboxes.toList.map Prod.fst
  willDestroy := request.destroy

/-- What is left of the response to the updates when they are committed. -/
def SetContext.updatesDone (ctx : SetContext) (ids : List Id) (ok : Bool) : SetContext :=
  if ok then { ctx with response := { ctx.response with updated := ctx.response.updated ++ ids } }
  else
    ids.foldl (fun ctx id => ctx.notUpdated id (forbidden.withDescription
      "Another process modified this mailbox, please try again.")) ctx

/-- The creates, and the account that they are committed to. -/
def creates (a : Account) (accessToken : AccessToken) (request : SetRequest) :
    SetContext × ℕ × List (ℕ × Mailbox) :=
  createEach s a request.create (SetContext.start a accessToken request) a.nextMailboxId []

def commitCreates (a : Account) (c : Circumstances) (nextId : ℕ) (batch : List (ℕ × Mailbox)) : Account × Bool :=
  commitGroups (Account.apply s.hash) c.createCuts (batch.map fun b => mailboxOps b.1 none b.2)
    { a with nextMailboxId := nextId }

def commitUpdates (a : Account) (c : Circumstances) (batch : List Update) : Account × Bool :=
  commitGroups (Account.apply s.hash) c.updateCuts
    (batch.map fun u => mailboxOps u.documentId (some u.current) u.changes) a

/-- `mailbox_set`. -/
def mailboxSet (a : Account) (accessToken : AccessToken) (c : Circumstances) (request : SetRequest) :
    Account × Except SetFailure SetResponse :=
  if s.setMaxObjects < request.numObjects then
    (a, .error .requestTooLarge)
  else if ¬ c.stateMatches then (a, .error .stateMismatch)
  else
    -- Process creates
    let created := creates s a accessToken request
    let r := commitCreates s a c created.2.1 created.2.2
    if ¬ r.2 then (r.1, .error .assertionFailed)
    else
      -- Process updates
      let updated := updateEach s r.1 request.update created.1 []
      let r' := commitUpdates s r.1 c updated.2
      -- Process deletions
      let d := destroyEach s c request.accountId.documentId accessToken
        (request.onDestroyRemoveEmails.getD false) request.destroy r'.1
        (updated.1.updatesDone (updated.2.map Update.id) r'.2).response
      (d.1, .ok d.2)

end MailServer.Jmap.Mailbox
