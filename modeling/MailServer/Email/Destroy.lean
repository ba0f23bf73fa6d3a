import MailServer.Email.Mailbox

/-!
# Destroying a mailbox (`email/src/mailbox/destroy.rs`)

* `destroyMessages`: what becomes of the messages in the mailbox.
* `destroyBatch`: the checks and the batch, from what was read: the cache, the archives of the messages, and the
  archive of the mailbox.
* `mailboxDestroy`: all of it at one time.
-/

namespace MailServer.Email

open MailServer.Common MailServer.Types MailServer.Utils MailServer.Lib List

inductive MailboxDestroyError where
  | cannotDestroy | forbidden | hasChildren | hasEmails | notFound | assertionFailed
  deriving DecidableEq

/-- The messages in the mailbox lose it, or go with it; each is a group of writes of its own. -/
def destroyMessages (documentId : ℕ) (archives : List (ℕ × MessageData)) : List (List Op) :=
  archives.filterMap fun (messageId, prev) =>
    if ¬ prev.mailboxes.any fun m => m.mailboxId = documentId then none
    else if prev.mailboxes.length = 1 then some [.message messageId (some prev) none]
    else some [.message messageId (some prev)
      (some { prev with mailboxes := prev.mailboxes.filter fun m => m.mailboxId ≠ documentId })]

/-- The documents of the messages that the cache has in a mailbox. -/
def inMailbox (messages : HashMap ℕ MessageData) (documentId : ℕ) : List ℕ :=
  (messages.toList.filter fun e => e.2.mailboxes.any fun m => m.mailboxId = documentId).map Prod.fst

/-- What is checked in the cache; the messages to look at. -/
def destroyChecks (documentId : ℕ) (removeEmails : Bool) (cache : Account) :
    Except MailboxDestroyError (List ℕ) :=
  -- Internal folders cannot be deleted
  if documentId ∈ [INBOX_ID, TRASH_ID, JUNK_ID] then .error .cannotDestroy
  -- Verify that this mailbox does not have sub-mailboxes
  else if cache.mailboxes.toList.any fun item => item.2.parentId = documentId + 1 then .error .hasChildren
  else
    let messageIds := inMailbox cache.messages documentId
    if messageIds ≠ [] ∧ ¬ removeEmails then .error .hasEmails
    else .ok messageIds

/-- What is made of the archives that were read. -/
def destroyBatch (accessToken : AccessToken) (accountId : UInt32) (documentId : ℕ) (removeEmails : Bool)
    (archives : List (ℕ × MessageData)) (mailbox : Option Mailbox) :
    Except MailboxDestroyError (List (List Op)) :=
  match mailbox with
  | none => .error .notFound
  | some mailbox =>
    let acl := effectiveAcl mailbox.acls accessToken
    if accessToken.isShared accountId ∧
        (¬ acl.contains .delete ∨ (removeEmails ∧ ¬ acl.contains .removeItems)) then
      .error .forbidden
    else .ok (destroyMessages documentId archives ++ [[.mailbox documentId (some mailbox) none]])

/-- The archives that are there. -/
def Account.archives (a : Account) (ids : List ℕ) : List (ℕ × MessageData) :=
  a.messages.toList.filter fun e => ids.contains e.1

/-- `mailbox_destroy`, when nothing else writes. -/
def mailboxDestroy (h : ArchiveHash) (accessToken : AccessToken) (accountId : UInt32) (cuts : List ℕ)
    (a : Account) (documentId : ℕ) (removeEmails : Bool) : Account × Except MailboxDestroyError Unit :=
  match destroyChecks documentId removeEmails a with
  | .error e => (a, .error e)
  | .ok messageIds =>
    match destroyBatch accessToken accountId documentId removeEmails (a.archives messageIds)
        a.mailboxes[documentId]? with
    | .error e => (a, .error e)
    | .ok batch =>
      let r := commitGroups (Account.apply h) cuts batch a
      (r.1, if r.2 then .ok () else .error .assertionFailed)

/-! ## What is checked and what is written -/

theorem any_toList {mailboxes : HashMap ℕ Mailbox} {P : ℕ × Mailbox → Bool} :
    mailboxes.toList.any P = true ↔ ∃ id m, mailboxes[id]? = some m ∧ P (id, m) = true := by
  rw [any_eq_true]
  constructor
  · rintro ⟨⟨id, m⟩, he, hP⟩
    exact ⟨id, m, HashMap.mem_toList.mp he, hP⟩
  · rintro ⟨id, m, hm, hP⟩
    exact ⟨(id, m), HashMap.mem_toList.mpr hm, hP⟩

/-- The message is in the mailbox. -/
def MessageData.In (data : MessageData) (documentId : ℕ) : Prop := ∃ m ∈ data.mailboxes, m.mailboxId = documentId

variable {documentId : ℕ} {removeEmails : Bool} {archives : List (ℕ × MessageData)}

theorem mem_inMailbox {messages : HashMap ℕ MessageData} {id : ℕ} :
    id ∈ inMailbox messages documentId ↔ ∃ data : MessageData, messages[id]? = some data ∧ data.In documentId := by
  constructor
  · intro h
    obtain ⟨⟨id, data⟩, he, rfl⟩ := mem_map.mp h
    obtain ⟨he, hin⟩ := mem_filter.mp he
    exact ⟨data, HashMap.mem_toList.mp he, by simpa [MessageData.In] using hin⟩
  · rintro ⟨data, hm, hin⟩
    exact mem_map.mpr ⟨(id, data), mem_filter.mpr ⟨HashMap.mem_toList.mpr hm, by
      simpa [MessageData.In] using hin⟩, rfl⟩

theorem destroyChecks_spec {cache : Account} {messageIds : List ℕ}
    (h : destroyChecks documentId removeEmails cache = .ok messageIds) :
    (∀ (id : ℕ) (m : Mailbox), cache.mailboxes[id]? = some m → m.parentId ≠ documentId + 1) ∧
      messageIds = inMailbox cache.messages documentId := by
  unfold destroyChecks at h
  dsimp only at h
  split_ifs at h with hinternal hchildren hemails
  refine ⟨fun id m hm hparent => hchildren (any_toList.2 ⟨id, m, hm, by simpa⟩), (Except.ok.inj h).symm⟩

theorem mem_destroyMessages {group : List Op} (h : group ∈ destroyMessages documentId archives) :
    ∃ id prev changes, group = [.message id (some prev) changes] ∧ ∀ c ∈ changes, ¬ c.In documentId := by
  obtain ⟨⟨id, prev⟩, -, heq⟩ := mem_filterMap.mp h
  dsimp only at heq
  split_ifs at heq
  · obtain rfl := Option.some.inj heq
    exact ⟨id, prev, none, rfl, nofun⟩
  · obtain rfl := Option.some.inj heq
    refine ⟨id, prev, some _, rfl, ?_⟩
    rintro c ⟨⟩ ⟨m, hm, hid⟩
    simp [hid] at hm

theorem destroyMessages_covers {id : ℕ} {prev : MessageData} (h : (id, prev) ∈ archives)
    (hin : prev.In documentId) :
    ∃ changes, [.message id (some prev) changes] ∈ destroyMessages documentId archives := by
  have hany : (prev.mailboxes.any fun m => m.mailboxId = documentId) = true := by
    simpa [MessageData.In] using hin
  by_cases hlength : prev.mailboxes.length = 1
  · refine ⟨none, mem_filterMap.mpr ⟨_, h, ?_⟩⟩
    simp [hany, hlength]
  · refine ⟨some { prev with mailboxes := prev.mailboxes.filter fun m => m.mailboxId ≠ documentId },
      mem_filterMap.mpr ⟨_, h, ?_⟩⟩
    simp [hany, hlength]

theorem destroyBatch_spec {accessToken : AccessToken} {accountId : UInt32}
    {mailbox : Option Mailbox} {batch : List (List Op)}
    (h : destroyBatch accessToken accountId documentId removeEmails archives mailbox = .ok batch) :
    ∃ m, batch = destroyMessages documentId archives ++ [[.mailbox documentId (some m) none]] := by
  unfold destroyBatch at h
  cases mailbox with
  | none => cases h
  | some m =>
    dsimp only at h
    split_ifs at h
    exact ⟨m, (Except.ok.inj h).symm⟩

end MailServer.Email
