import MailServer.Email.Mailbox
import MailServer.Utils.Writes

/-!
# Mailboxes of a message (`email/src/message/metadata.rs`, `ingest.rs`, `copy.rs`)

A message is in mailboxes, in each of them under a UID.  A mailbox that it is newly put into has the UID zero until one is
assigned.

* `MessageData`: the operations of the builder.  `assignEmailIds`: the next UIDs.
* `copyMessage`: a copy of a message in another account.
-/

namespace MailServer.Email

open MailServer.Utils List

/-- The equality of `UidMailbox` is that of the mailboxes. -/
def UidMailbox.same (m m' : UidMailbox) : Bool := m.mailboxId == m'.mailboxId

def UidMailbox.newUnassigned (mailboxId : ℕ) : UidMailbox := ⟨mailboxId, 0⟩

namespace MessageData

variable (data prev : MessageData)

def setKeywords (keywords : List String) : MessageData := { data with keywords }

def addKeyword (keyword : String) : MessageData :=
  if data.keywords.contains keyword then data else { data with keywords := data.keywords ++ [keyword] }

def removeKeyword (keyword : String) : MessageData := { data with keywords := data.keywords.filter (· ≠ keyword) }

def setMailboxes (mailboxes : List UidMailbox) : MessageData := { data with mailboxes }

def addMailbox (mailbox : UidMailbox) : MessageData :=
  if data.mailboxes.any mailbox.same then data else { data with mailboxes := data.mailboxes ++ [mailbox] }

def removeMailbox (mailboxId : ℕ) : MessageData :=
  { data with mailboxes := data.mailboxes.filter fun m => m.mailboxId ≠ mailboxId }

def hasKeywordChanges : Bool :=
  data.keywords.length != prev.keywords.length || !data.keywords.all fun k => prev.keywords.any fun p => p == k

def addedKeywords : List String := data.keywords.filter fun k => prev.keywords.all fun p => p ≠ k

def removedKeywords : List String := prev.keywords.filter fun k => data.keywords.all fun p => p ≠ k

def addedMailboxes : List UidMailbox := data.mailboxes.filter fun m => prev.mailboxes.all fun p => p.mailboxId ≠ m.mailboxId

def removedMailboxes : List UidMailbox := prev.mailboxes.filter fun m => data.mailboxes.all fun p => p.mailboxId ≠ m.mailboxId

def hasMailboxChanges : Bool :=
  data.mailboxes.length != prev.mailboxes.length ||
    !data.mailboxes.all fun m => prev.mailboxes.any fun p => p.mailboxId == m.mailboxId

def hasMailboxId (mailboxId : ℕ) : Bool := data.mailboxes.any fun m => m.mailboxId == mailboxId

def messageUid (mailboxId : ℕ) : Option ℕ := (data.mailboxes.find? fun m => m.mailboxId == mailboxId).map UidMailbox.uid

/-- The mailboxes without a UID. -/
def unassigned : List ℕ := (data.mailboxes.filter fun m => m.uid == 0).map UidMailbox.mailboxId

/-- UIDs for the mailboxes that have none. -/
def assign : List UidMailbox → List ℕ → List UidMailbox
  | [], _ => []
  | m :: mailboxes, [] => m :: mailboxes
  | m :: mailboxes, uid :: uids =>
    if m.uid = 0 then { m with uid } :: assign mailboxes uids else m :: assign mailboxes (uid :: uids)

end MessageData

/-- The UID counters of the mailboxes of an account. -/
abbrev UidCounters := ℕ → ℕ

/-- `assign_email_ids` without a document id: each counter is incremented and read. -/
def assignEmailIds (counters : UidCounters) : List ℕ → UidCounters × List ℕ
  | [] => (counters, [])
  | mailboxId :: mailboxIds =>
    let uid := counters mailboxId + 1
    let (counters, uids) := assignEmailIds (Function.update counters mailboxId uid) mailboxIds
    (counters, uid :: uids)

/-! ## Copies -/

/-- What an account or a tenant may store, and stores; zero is no limit. -/
structure Quota where
  disk : ℕ
  used : ℕ

/-- `has_available_quota`, for an account and its tenant. -/
def hasAvailableQuota (quotas : List Quota) (size : ℕ) : Bool :=
  quotas.all fun q => q.disk == 0 || decide (q.used + size ≤ q.disk)

def useQuota (quotas : List Quota) (size : ℕ) : List Quota := quotas.map fun q => { q with used := q.used + size }

inductive CopyMessageError where
  | notFound | overQuota

structure IngestedEmail where
  documentId : ℕ
  imapUids : List ℕ

/-- An account that messages are copied to. -/
structure TargetAccount where
  messages : HashMap ℕ MessageData
  counters : UidCounters
  /-- the counter of document ids -/
  documentIds : ℕ
  quotas : List Quota

/-- `copy_message`, for a message whose metadata has a size, if it is there; `findThreadId` is the thread of the target
account that it belongs to, if there is one. -/
def copyMessage (findThreadId : Option ℕ) (size : Option ℕ) (mailboxes : List ℕ) (keywords : List String)
    (t : TargetAccount) : TargetAccount × Except CopyMessageError IngestedEmail :=
  match size with
  | none => (t, .error .notFound)
  | some size =>
    if ¬ hasAvailableQuota t.quotas size then (t, .error .overQuota)
    else
      let documentId := t.documentIds + 1
      let (counters, uids) := assignEmailIds t.counters mailboxes
      let data : MessageData :=
        { mailboxes := (uids.zip mailboxes).map fun e => ⟨e.2, e.1⟩
          keywords := keywords
          threadId := findThreadId.getD documentId
          size := size }
      ({ messages := t.messages.insert documentId data
         counters := counters
         documentIds := documentId
         quotas := useQuota t.quotas size }, .ok ⟨documentId, uids⟩)

/-! ## Writes -/

/-- One write: `none` for a message that is deleted. -/
def commitMessage (messages : HashMap ℕ MessageData) : ℕ × Option MessageData → HashMap ℕ MessageData
  | (id, some data) => messages.insert id data
  | (id, none) => messages.erase id

/-- The messages after a batch. -/
def commitMessages (messages : HashMap ℕ MessageData) (writes : List (ℕ × Option MessageData)) : HashMap ℕ MessageData :=
  writes.foldl commitMessage messages

theorem commitMessages_eq (messages : HashMap ℕ MessageData) (writes : List (ℕ × Option MessageData)) :
    commitMessages messages writes = messages.putAll writes := by
  have hput : commitMessage = HashMap.put := by
    funext m ⟨id, change⟩
    cases change <;> rfl
  rw [commitMessages, hput, HashMap.putAll]

variable {messages : HashMap ℕ MessageData} {writes : List (ℕ × Option MessageData)}

theorem commitMessages_of_notMem {id : ℕ}
    (h : id ∉ writes.map Prod.fst) : (commitMessages messages writes)[id]? = messages[id]? := by
  rw [commitMessages_eq, HashMap.getElem?_putAll_of_notMem h]

theorem commitMessages_of_mem (hnodup : (writes.map Prod.fst).Nodup) {w : ℕ × Option MessageData}
    (hw : w ∈ writes) : (commitMessages messages writes)[w.1]? = w.2 := by
  rw [commitMessages_eq, HashMap.getElem?_putAll_of_mem hnodup hw]

/-! ## UIDs that are assigned -/

theorem length_assignEmailIds (counters : UidCounters) (mailboxIds : List ℕ) :
    (assignEmailIds counters mailboxIds).2.length = mailboxIds.length := by
  induction mailboxIds generalizing counters with
  | nil => rfl
  | cons mailboxId mailboxIds ih =>
    show (_ :: (assignEmailIds _ mailboxIds).2).length = _
    rw [length_cons, length_cons, ih]

namespace MessageData

variable {mailboxes : List UidMailbox} {m : UidMailbox} {counters : UidCounters}

theorem assign_of_assigned (h : ∀ m ∈ mailboxes, m.uid ≠ 0) (uids : List ℕ)
    (rest : List UidMailbox) : assign (mailboxes ++ rest) uids = mailboxes ++ assign rest uids := by
  induction mailboxes with
  | nil => rfl
  | cons m mailboxes ih =>
    have hrest := ih fun m hm => h m (mem_cons_of_mem _ hm)
    cases uids with
    | nil =>
      cases rest with
      | nil =>
        rfl
      | cons => rfl
    | cons uid uids =>
      show (if m.uid = 0 then _ else m :: assign (mailboxes ++ rest) (uid :: uids)) = _
      rw [if_neg (h m mem_cons_self), hrest]
      rfl

theorem mem_assign_of_assigned (hm : m ∈ mailboxes) (hne : m.uid ≠ 0)
    (uids : List ℕ) : m ∈ assign mailboxes uids := by
  induction mailboxes generalizing uids with
  | nil => cases hm
  | cons m' mailboxes ih =>
    cases uids with
    | nil => exact hm
    | cons uid uids =>
      rw [assign]
      rcases mem_cons.mp hm with rfl | hm
      · rw [if_neg hne]
        exact mem_cons_self
      · split_ifs
        · exact mem_cons_of_mem _ (ih hm uids)
        · exact mem_cons_of_mem _ (ih hm (uid :: uids))

theorem mem_assign (hm : m ∈ assign mailboxes
      (assignEmailIds counters ((mailboxes.filter fun m => m.uid == 0).map UidMailbox.mailboxId)).2) :
    m ∈ mailboxes ∨ counters m.mailboxId < m.uid := by
  induction mailboxes generalizing counters with
  | nil => cases hm
  | cons m' mailboxes ih =>
    by_cases hzero : m'.uid = 0
    · rw [filter_cons_of_pos (by rw [hzero]; rfl), map_cons, assignEmailIds] at hm
      rw [assign, if_pos hzero] at hm
      rcases mem_cons.mp hm with rfl | hm
      · exact .inr (Nat.lt_succ_self _)
      · refine (ih hm).imp (mem_cons_of_mem _) fun hlt => lt_of_le_of_lt ?_ hlt
        rw [Function.update_apply]
        split_ifs with heq
        · rw [heq]
          exact Nat.le_succ _
        · exact le_rfl
    · rw [filter_cons_of_neg (by simpa using hzero)] at hm
      obtain ⟨uids, huids⟩ : ∃ uids,
          uids = (assignEmailIds counters ((mailboxes.filter fun m => m.uid == 0).map UidMailbox.mailboxId)).2 := ⟨_, rfl⟩
      have hrest := @ih counters
      rw [← huids] at hm hrest
      have hcons : assign (m' :: mailboxes) uids = m' :: assign mailboxes uids := by
        cases uids with
        | nil =>
          cases mailboxes with
          | nil => rfl
          | cons => rfl
        | cons uid uids => rw [assign, if_neg hzero]
      rw [hcons] at hm
      rcases mem_cons.mp hm with rfl | hm
      · exact .inl mem_cons_self
      · exact (hrest hm).imp_left (mem_cons_of_mem _)

theorem mem_assign_iff (hne : m.uid ≠ 0) (hle : m.uid ≤ counters m.mailboxId) :
    m ∈ assign mailboxes
      (assignEmailIds counters ((mailboxes.filter fun m => m.uid == 0).map UidMailbox.mailboxId)).2 ↔ m ∈ mailboxes :=
  ⟨fun hm => (mem_assign hm).resolve_right (Nat.not_lt.mpr hle), fun hm => mem_assign_of_assigned hm hne _⟩

end MessageData

theorem counters_le_assignEmailIds (counters : UidCounters) (mailboxIds : List ℕ) (mailboxId : ℕ) :
    counters mailboxId ≤ (assignEmailIds counters mailboxIds).1 mailboxId := by
  induction mailboxIds generalizing counters with
  | nil => exact le_rfl
  | cons m mailboxIds ih =>
    refine le_trans ?_ (ih (Function.update counters m (counters m + 1)))
    rw [Function.update_apply]
    split_ifs with heq
    · rw [heq]
      exact Nat.le_succ _
    · exact le_rfl

end MailServer.Email
