import MailServer.Common.Auth
import MailServer.Jmap.Changes
import MailServer.JmapProto.Set

/-!
# Copying messages between accounts (`jmap/src/email/copy.rs`)

`Email/copy` copies messages of one account to another, and may have the originals destroyed by a call of
`Email/set` that follows it.

* `prepare`: the checks of one copy.  `copyEach`: the loop over the copies.
* `emailCopy`: the method.
* `copyEach_spec`: what is created and what is put on the list of originals to destroy.
-/

namespace MailServer.Jmap.Email

open MailServer.Types MailServer.Common MailServer.JmapProto

/-! ## The request -/

inductive HeaderForm where
  | raw | text | addresses | groupedAddresses | messageIds | date | urls

structure HeaderProperty where
  form : HeaderForm
  header : String
  all : Bool

/-- `EmailProperty`, over the keywords. -/
inductive EmailProperty (K : Type) where
  | id | blobId | threadId | mailboxIds | keywords | size | receivedAt
  | name | email | addresses
  | value
  | header (h : HeaderProperty)
  | messageId | inReplyTo | references | sender | «from» | to | cc | bcc | replyTo | subject | sentAt
  | textBody | htmlBody | attachments | partId | headers | type | charset | disposition | cid
  | language | location | subParts | bodyStructure | bodyValues | isEncodingProblem | isTruncated
  | hasAttachment | preview
  | keyword (k : K)
  | idValue (i : Id)
  | idReference (s : String)
  | pointer (p : List (JsonPointerItem (EmailProperty K)))

variable {K B : Type}

def EmailProperty.tryIntoId : EmailProperty K → Option Id
  | .idValue i => some i
  | _ => none

def EmailProperty.tryIntoKeyword : EmailProperty K → Option K
  | .keyword k => some k
  | _ => none

/-- `EmailValue`, of which only dates matter here. -/
inductive EmailValue where
  | date (timestamp : Int64)
  | other

/-- A JSON value; an object is the keys of its `into_expanded_boolean_set`. -/
inductive Value (K : Type) where
  | null
  | bool (b : Bool)
  | object (ids : List (Key (EmailProperty K)))
  | element (v : EmailValue)
  | other

inductive MaybeIdReference where
  | id (i : Id)
  | reference (s : String)
  | invalid (s : String)

def MaybeIdReference.tryUnwrap : MaybeIdReference → Option Id
  | .id i => some i
  | _ => none

/-- A copy to create: the members of its `into_expanded_object`. -/
abbrev Create (K : Type) := List (Key (EmailProperty K) × Value K)

structure CopyRequest (K : Type) where
  fromAccountId : Id
  accountId : Id
  ifInState : Option State
  create : List (MaybeIdReference × Create K)
  onSuccessDestroyOriginal : Option Bool
  destroyFromIfInState : Option State

/-- `self.create.into_valid()`. -/
def CopyRequest.intoValid (request : CopyRequest K) : List (Id × Create K) :=
  request.create.filterMap fun (k, v) => k.tryUnwrap.map fun id => (id, v)

/-! ## What the server answers -/

structure MessageCache where
  documentId : UInt32
  mailboxes : List UInt32

structure MailboxCache where
  documentId : UInt32
  acls : List AclGrant

structure MessageStoreCache where
  emails : List MessageCache
  mailboxes : List MailboxCache
  state : State

namespace MessageStoreCache

def hasMailboxId (cache : MessageStoreCache) (id : UInt32) : Bool :=
  cache.mailboxes.any fun m => m.documentId = id

def emailDocumentIds (cache : MessageStoreCache) : List UInt32 := cache.emails.map MessageCache.documentId

def sharedMailboxes (cache : MessageStoreCache) (t : AccessToken) (checkAcl : Acl) : List UInt32 :=
  (cache.mailboxes.filter fun m => (effectiveAcl m.acls t).contains checkAcl).map MailboxCache.documentId

def sharedMessages (cache : MessageStoreCache) (t : AccessToken) (checkAcl : Acl) : List UInt32 :=
  (cache.sharedMailboxes t checkAcl).flatMap fun mailboxId =>
    (cache.emails.filter fun m => m.mailboxes.contains mailboxId).map MessageCache.documentId

def assertState (cache : MessageStoreCache) (ifInState : Option State) : Option State :=
  if ifInState = none ∨ ifInState = some cache.state then some cache.state else none

end MessageStoreCache

inductive CopyMessageError where
  | notFound
  | overQuota
  deriving DecidableEq

structure IngestedEmail (B : Type) where
  documentId : UInt32
  threadId : UInt32
  blobId : B
  size : ℕ

/-- The arguments of `copy_message` that depend on the copy. -/
structure CopyMessage (K : Type) where
  fromMessageId : UInt32
  mailboxes : List UInt32
  keywords : List K
  receivedAt : Option UInt64

/-- What the method finds during a request.  A call of `copy_message` is known by the place of its copy
in the request: the accounts may change in between. -/
structure Server (K B : Type) where
  cache : MessageStoreCache
  fromCache : MessageStoreCache
  copyMessage : ℕ → CopyMessage K → Except Trc.Error (Except CopyMessageError (IngestedEmail B))
  /-- the state of the account behind the copies -/
  stateAfter : State

/-! ## One copy -/

section

variable [DecidableEq K]

inductive PatchResult (K : Type) where
  | setKeyword (k : K)
  | removeKeyword (k : K)
  | addMailbox (id : UInt32)
  | removeMailbox (id : UInt32)
  | invalid (e : SetError (EmailProperty K))

def invalidPatchValue (pointer : List (JsonPointerItem (EmailProperty K))) : PatchResult K :=
  .invalid ((SetError.invalidProperties.withProperty (.pointer pointer)).withDescription
    "Invalid patch value")

def handleEmailPatch (pointer : List (JsonPointerItem (EmailProperty K))) (v : Value K) : PatchResult K :=
  match pointer with
  | .key (.property .keywords) :: .key (.property (.keyword keyword)) :: _ =>
    match v with
    | .bool true => .setKeyword keyword
    | .bool false | .null => .removeKeyword keyword
    | _ => invalidPatchValue pointer
  | .key (.property .mailboxIds) :: .key (.property (.idValue id)) :: _ =>
    match v with
    | .bool true => .addMailbox id.documentId
    | .bool false | .null => .removeMailbox id.documentId
    | _ => invalidPatchValue pointer
  | _ => invalidPatchValue pointer

/-- `mailboxes`, `keywords` and `received_at` as the members are read. -/
structure Draft (K : Type) where
  mailboxes : List UInt32
  keywords : List K
  receivedAt : Option UInt64

def Key.tryIntoProperty {P : Type} : Key P → Option P
  | .property p => some p
  | .text _ => none

/-- One member of the copy. -/
def readMember (d : Draft K) : Key (EmailProperty K) × Value K →
    Except (SetError (EmailProperty K)) (Draft K)
  | (.property .mailboxIds, .object ids) =>
    .ok { d with mailboxes := ids.filterMap fun k =>
      (Key.tryIntoProperty k).bind fun p => p.tryIntoId.map Id.documentId }
  | (.property .keywords, .object keywords) =>
    .ok { d with keywords := keywords.filterMap fun k =>
      (Key.tryIntoProperty k).bind EmailProperty.tryIntoKeyword }
  | (.property (.pointer pointer), v) =>
    match handleEmailPatch pointer v with
    | .setKeyword k => .ok { d with keywords := if k ∈ d.keywords then d.keywords else d.keywords ++ [k] }
    | .removeKeyword k => .ok { d with keywords := d.keywords.filter (· ≠ k) }
    | .addMailbox id =>
      .ok { d with mailboxes := if id ∈ d.mailboxes then d.mailboxes else d.mailboxes ++ [id] }
    | .removeMailbox id => .ok { d with mailboxes := d.mailboxes.filter (· ≠ id) }
    | .invalid e => .error e
  | (.property .receivedAt, .element (.date timestamp)) =>
    .ok { d with receivedAt := some timestamp.toUInt64 }
  | (property, _) =>
    .error ((SetError.invalidProperties.withKey property).withDescription "Invalid property or value.")

/-- The mailboxes have to exist, and have to be open to the user. -/
def checkMailbox (cache : MessageStoreCache) (canAddMailboxIds : Option (List UInt32)) (mailboxId : UInt32) :
    Except (SetError (EmailProperty K)) Unit :=
  if ¬ cache.hasMailboxId mailboxId then
    .error ((SetError.invalidProperties.withProperty .mailboxIds).withDescription
      s!"mailboxId {mailboxId} does not exist.")
  else if canAddMailboxIds.any fun ids => ¬ ids.contains mailboxId then
    .error (SetError.forbidden.withDescription
      s!"You are not allowed to add messages to mailbox {mailboxId}.")
  else .ok ()

/-- The body of the loop up to the call of `copy_message`; an error is a `continue`. -/
def prepare (cache : MessageStoreCache) (fromMessageIds : List UInt32)
    (canAddMailboxIds : Option (List UInt32)) (fromAccountId : Id) (id : Id) (create : Create K) :
    Except (SetError (EmailProperty K)) (CopyMessage K) := do
  if ¬ fromMessageIds.contains id.documentId then
    .error (SetError.notFound.withDescription
      s!"Item {id.asString} not found in account {fromAccountId.asString}.")
  let d ← create.foldlM readMember ⟨[], [], none⟩
  -- Make sure message belongs to at least one mailbox
  if d.mailboxes.isEmpty then
    .error ((SetError.invalidProperties.withProperty .mailboxIds).withDescription
      "Message has to belong to at least one mailbox.")
  d.mailboxes.forM (checkMailbox cache canAddMailboxIds)
  .ok ⟨id.documentId, d.mailboxes, d.keywords, d.receivedAt⟩

end

/-! ## The method -/

/-- `ingested_into_object`. -/
structure EmailObject (B : Type) where
  id : Id
  threadId : Id
  blobId : B
  size : ℕ

def ingestedIntoObject (email : IngestedEmail B) : EmailObject B :=
  ⟨.fromParts email.threadId email.documentId, .ofDocumentId email.threadId, email.blobId, email.size⟩

structure CopyResponse (K B : Type) where
  fromAccountId : Id
  accountId : Id
  oldState : State
  newState : State
  created : List (Id × EmailObject B)
  notCreated : List (Id × SetError (EmailProperty K))

/-- The `Email/set` that `next_call` asks for. -/
structure SetRequest where
  accountId : Id
  ifInState : Option State
  destroy : List Id
  deriving DecidableEq

inductive CopyFailure where
  | invalidArguments (details : String)
  | stateMismatch
  | store (e : Trc.Error)

def CopyMessageError.setError : CopyMessageError → SetError (EmailProperty K)
  | .notFound => SetError.notFound.withDescription "Message not found in account."
  | .overQuota => SetError.overQuota

/-- The loop over the copies, with `destroy_ids`; `n` is the place of the first one. -/
def copyEach (check : Id → Create K → Except (SetError (EmailProperty K)) (CopyMessage K))
    (copyMessage : ℕ → CopyMessage K → Except Trc.Error (Except CopyMessageError (IngestedEmail B)))
    (onSuccessDelete : Bool) :
    ℕ → List (Id × Create K) → CopyResponse K B × List Id → Except Trc.Error (CopyResponse K B × List Id)
  | _, [], s => .ok s
  | n, (id, create) :: rest, (response, destroyIds) =>
    match check id create with
    | .error e =>
      copyEach check copyMessage onSuccessDelete (n + 1) rest
        ({ response with notCreated := response.notCreated ++ [(id, e)] }, destroyIds)
    | .ok message => do
      let response ← match ← copyMessage n message with
        | .ok email =>
          pure { response with created := response.created ++ [(id, ingestedIntoObject email)] }
        | .error err =>
          pure { response with notCreated := response.notCreated ++ [(id, err.setError)] }
      -- Add to destroy list
      copyEach check copyMessage onSuccessDelete (n + 1) rest
        (response, if onSuccessDelete then destroyIds ++ [id] else destroyIds)

section

variable [DecidableEq K] (s : Server K B) (accessToken : AccessToken) (request : CopyRequest K)

/-- The checks of one copy of the request. -/
def Server.check (id : Id) (create : Create K) : Except (SetError (EmailProperty K)) (CopyMessage K) :=
  let fromAccountId := request.fromAccountId.documentId
  let accountId := request.accountId.documentId
  let fromMessageIds :=
    if accessToken.isMember fromAccountId then s.fromCache.emailDocumentIds
    else s.fromCache.sharedMessages accessToken .readItems
  let canAddMailboxIds :=
    if accessToken.isShared accountId then some (s.cache.sharedMailboxes accessToken .addItems) else none
  prepare s.cache fromMessageIds canAddMailboxIds request.fromAccountId id create

def Server.emailCopy : Except CopyFailure (CopyResponse K B × Option SetRequest) :=
  if request.accountId.documentId = request.fromAccountId.documentId then
    .error (.invalidArguments "From accountId is equal to fromAccountId")
  else match s.cache.assertState request.ifInState with
  | none => .error .stateMismatch
  | some oldState =>
    let onSuccessDelete := request.onSuccessDestroyOriginal.getD false
    match copyEach (s.check accessToken request) s.copyMessage onSuccessDelete 0 request.intoValid
        (⟨request.fromAccountId, request.accountId, oldState, oldState, [], []⟩, []) with
    | .error e => .error (.store e)
    | .ok (response, destroyIds) =>
      .ok (if response.created.isEmpty then response else { response with newState := s.stateAfter },
        if onSuccessDelete ∧ ¬ destroyIds.isEmpty then
          some ⟨request.fromAccountId, request.destroyFromIfInState, destroyIds⟩
        else none)

end

/-! ## What is destroyed -/

section

variable {check : Id → Create K → Except (SetError (EmailProperty K)) (CopyMessage K)}
  {copyMessage : ℕ → CopyMessage K → Except Trc.Error (Except CopyMessageError (IngestedEmail B))}

/-- The copy at place `n` passes the checks, and `copy_message` does not copy. -/
def Fails (check : Id → Create K → Except (SetError (EmailProperty K)) (CopyMessage K))
    (copyMessage : ℕ → CopyMessage K → Except Trc.Error (Except CopyMessageError (IngestedEmail B)))
    (n : ℕ) (c : Id × Create K) : Prop :=
  ∃ message err, check c.1 c.2 = .ok message ∧ copyMessage n message = .ok (.error err)

/-- The ids `created` of the created copies and the ids `destroyed` put on the list while the copies from
place `n` on are made: a copy that fails makes the difference. -/
theorem copyEach_spec {copies : List (Id × Create K)} {n : ℕ} {r r' : CopyResponse K B} {d d' : List Id}
    (h : copyEach check copyMessage true n copies (r, d) = .ok (r', d')) :
    ∃ created destroyed, r'.created.map Prod.fst = r.created.map Prod.fst ++ created ∧
      d' = d ++ destroyed ∧ created.Sublist destroyed ∧
      (destroyed = created ↔ ∀ i c, copies[i]? = some c → ¬ Fails check copyMessage (n + i) c) := by
  induction copies generalizing n r d with
  | nil =>
    obtain ⟨rfl, rfl⟩ := Prod.mk.inj (Except.ok.inj h)
    exact ⟨[], [], by simp, by simp, List.Sublist.refl _, by simp⟩
  | cons c rest ih =>
    obtain ⟨id, create⟩ := c
    -- the copies behind the first one are counted from its place
    have hsplit : (∀ i c, ((id, create) :: rest)[i]? = some c → ¬ Fails check copyMessage (n + i) c) ↔
        ¬ Fails check copyMessage n (id, create) ∧
          ∀ i c, rest[i]? = some c → ¬ Fails check copyMessage (n + 1 + i) c := by
      constructor
      · intro hall
        refine ⟨hall 0 _ rfl, fun i c hc => ?_⟩
        have := hall (i + 1) c hc
        rwa [show n + (i + 1) = n + 1 + i by omega] at this
      · rintro ⟨h0, hrest⟩ i c hc
        cases i with
        | zero => exact Option.some.inj hc ▸ h0
        | succ i =>
          have := hrest i c hc
          rwa [show n + 1 + i = n + (i + 1) by omega] at this
    rw [copyEach] at h
    cases hcheck : check id create with
    | error e =>
      rw [hcheck] at h
      obtain ⟨created, destroyed, hc, hd, hsub, hiff⟩ := ih h
      have hnot : ¬ Fails check copyMessage n (id, create) := by
        rintro ⟨message, err, hm, -⟩
        cases hcheck.symm.trans hm
      exact ⟨created, destroyed, hc, hd, hsub, by rw [hsplit, hiff]; exact ⟨fun h => ⟨hnot, h⟩, And.right⟩⟩
    | ok message =>
      rw [hcheck] at h
      cases hcopy : copyMessage n message with
      | error e =>
        simp only [hcopy] at h
        cases h
      | ok outcome =>
        cases outcome with
        | ok email =>
          simp only [hcopy] at h
          obtain ⟨created, destroyed, hc, hd, hsub, hiff⟩ := ih h
          have hnot : ¬ Fails check copyMessage n (id, create) := by
            rintro ⟨message', err, hm, he⟩
            obtain rfl := Except.ok.inj (hcheck.symm.trans hm)
            cases Except.ok.inj (hcopy.symm.trans he)
          refine ⟨id :: created, id :: destroyed, by simpa using hc, by simpa using hd, hsub.cons_cons id, ?_⟩
          rw [hsplit, List.cons_inj_right, hiff]
          exact ⟨fun h => ⟨hnot, h⟩, And.right⟩
        | error err =>
          simp only [hcopy] at h
          obtain ⟨created, destroyed, hc, hd, hsub, -⟩ := ih h
          refine ⟨created, id :: destroyed, hc, by simpa using hd, hsub.cons id, ?_⟩
          rw [hsplit]
          constructor
          · intro heq
            have := hsub.length_le
            rw [← heq, List.length_cons] at this
            omega
          · intro hall
            exact absurd ⟨message, err, hcheck, hcopy⟩ hall.1

end

variable [DecidableEq K] {s : Server K B} {accessToken : AccessToken} {request : CopyRequest K}

/-- The ids that the call of `Email/set` destroys. -/
def destroyedBy (nextCall : Option SetRequest) : List Id := (nextCall.map SetRequest.destroy).getD []

theorem emailCopy_ok {response : CopyResponse K B} {nextCall : Option SetRequest}
    (hdestroy : request.onSuccessDestroyOriginal = some true)
    (h : s.emailCopy accessToken request = .ok (response, nextCall)) :
    ∃ r r' : CopyResponse K B, r.created = [] ∧ response.created = r'.created ∧
      copyEach (s.check accessToken request) s.copyMessage true 0 request.intoValid (r, []) =
        .ok (r', destroyedBy nextCall) := by
  simp only [Server.emailCopy, hdestroy] at h
  split at h
  · cases h
  split at h
  · cases h
  split at h
  · cases h
  · next r' destroyIds hloop =>
    obtain ⟨rfl, rfl⟩ := Prod.mk.inj (Except.ok.inj h)
    refine ⟨_, r', ?_, ?_, hloop.trans ?_⟩
    · rfl
    · split <;> rfl
    · cases destroyIds <;> rfl

/-- **The originals of the created copies are destroyed, one for each copy and no others**, exactly when
`copy_message` copies every message whose copy passes the checks. -/
theorem destroyedOriginals_iff {response : CopyResponse K B} {nextCall : Option SetRequest}
    (hdestroy : request.onSuccessDestroyOriginal = some true)
    (h : s.emailCopy accessToken request = .ok (response, nextCall)) :
    destroyedBy nextCall = response.created.map Prod.fst ↔
      ∀ n c, request.intoValid[n]? = some c → ¬ Fails (s.check accessToken request) s.copyMessage n c := by
  obtain ⟨r, r', hr, hcreated, hloop⟩ := emailCopy_ok hdestroy h
  obtain ⟨created, destroyed, hc, hd, -, hiff⟩ := copyEach_spec hloop
  rw [hr] at hc
  rw [hcreated, hc, hd, List.map_nil, List.nil_append, List.nil_append, hiff]
  simp only [Nat.zero_add]

/-! An account of which messages 5 and 6 are copied to an account with room for one of them. -/

/-- The copies of the messages `ids` to mailbox 0. -/
def copyOf (ids : List UInt32) : CopyRequest ℕ where
  fromAccountId := .ofDocumentId 2
  accountId := .ofDocumentId 1
  ifInState := none
  create := ids.map fun i =>
    (.id (.ofDocumentId i), [(.property .mailboxIds, .object [.property (.idValue (.ofDocumentId 0))])])
  onSuccessDestroyOriginal := some true
  destroyFromIfInState := none

def fullAccount : Server ℕ Unit where
  cache := ⟨[], [⟨0, []⟩], .exact 1⟩
  fromCache := ⟨[⟨5, [0]⟩, ⟨6, [0]⟩], [⟨0, []⟩], .exact 1⟩
  copyMessage n _ := .ok (if n = 0 then .ok ⟨9, 9, (), 100⟩ else .error .overQuota)
  stateAfter := .exact 2

def memberOfBoth : AccessToken := ⟨1, [2], [], false⟩

theorem destroyed_not_created :
    ∃ response : CopyResponse ℕ Unit, ∃ nextCall,
      fullAccount.emailCopy memberOfBoth (copyOf [5, 6]) = .ok (response, nextCall) ∧
        Id.ofDocumentId 6 ∈ destroyedBy nextCall ∧ Id.ofDocumentId 6 ∉ response.created.map Prod.fst :=
  ⟨_, _, rfl, by decide, by decide⟩

theorem destroyed_one : ∃ response : CopyResponse ℕ Unit, ∃ nextCall,
    fullAccount.emailCopy memberOfBoth (copyOf [5]) = .ok (response, nextCall) ∧
      (destroyedBy nextCall = response.created.map Prod.fst ↔ ∀ n c, (copyOf [5]).intoValid[n]? = some c →
        ¬ Fails (fullAccount.check memberOfBoth (copyOf [5])) fullAccount.copyMessage n c) :=
  ⟨_, _, rfl, destroyedOriginals_iff rfl rfl⟩

end MailServer.Jmap.Email
