import MailServer.ImapProto.Sequence
import MailServer.Utils.HashMap

/-!
# The messages of a selected mailbox (`imap/src/core/message.rs`, `imap/src/core/mod.rs`)

A session numbers the messages of the selected mailbox from a snapshot of the cache.

* `fetchMessages`: numbers a snapshot.
* `synchronizeMessages`: takes a newer snapshot without telling the client.
* `writeMailboxChanges`: takes a newer snapshot, if any, and tells the client what changed.
* `appendMessages`: the messages of an APPEND into the mailbox itself.
* `sequenceToIds`, `mapResultId`: from the numbers of the client to messages, and back.
-/

namespace MailServer.Imap

open MailServer.ImapProto MailServer.Utils

structure MessageUidCache where
  mailboxId : ℕ
  uid : ℕ

structure MessageCache where
  documentId : ℕ
  mailboxes : List MessageUidCache

/-- A snapshot of the messages of an account.  `email_insert` keeps one item for a document. -/
structure MessagesCache where
  changeId : ℕ
  items : List MessageCache
  nodup : (items.map MessageCache.documentId).Nodup

structure ImapId where
  uid : ℕ
  seqnum : ℕ
  deriving DecidableEq

structure ImapUidToId where
  uid : ℕ
  id : ℕ

/-- A `MailboxState` less its `next_state`, which `fetch_messages` leaves empty. -/
structure Numbering where
  uidMax : ℕ
  idToImap : HashMap ℕ ImapId
  uidToId : HashMap ℕ ℕ
  totalMessages : ℕ
  modseq : ℕ

structure NextMailboxState where
  nextState : Numbering
  deletions : List ImapId

structure MailboxState extends Numbering where
  nextState : Option NextMailboxState

/-- The UID of a message in a mailbox, and its document. -/
def MessageCache.inMailbox (mailboxId : ℕ) (item : MessageCache) : Option (ℕ × ℕ) :=
  (item.mailboxes.find? fun m => m.mailboxId == mailboxId).map fun m => (m.uid, item.documentId)

/-- `uid_map`. -/
def MessagesCache.uidMap (mailboxId : ℕ) (cache : MessagesCache) : HashMap ℕ ℕ :=
  Std.TreeMap.ofList (cache.items.filterMap (MessageCache.inMailbox mailboxId)) compare

/-- The loop of `fetch_messages`. -/
def Numbering.assign (s : Numbering) : (ℕ × ℕ) × ℕ → Numbering
  | ((uid, messageId), seqnum) =>
    { s with
      uidMax := if uid > s.uidMax then uid else s.uidMax
      idToImap := s.idToImap.insert messageId ⟨uid, seqnum + 1⟩
      uidToId := s.uidToId.insert uid messageId }

/-- `fetch_messages`; nothing where the snapshot is the current one. -/
def fetchMessages (mailboxId : ℕ) (cache : MessagesCache) (currentState : Option ℕ) : Option Numbering :=
  if currentState = some cache.changeId then none
  else
    let s := (cache.uidMap mailboxId).toList.zipIdx.foldl Numbering.assign ⟨0, ∅, ∅, 0, cache.changeId⟩
    some { s with totalMessages := s.idToImap.size }

namespace MailboxState

/-- The pending deletions. -/
def deletions (m : MailboxState) : List ImapId := (m.nextState.map NextMailboxState.deletions).getD []

/-- The messages that are not in the new state. -/
def gone (newState : Numbering) (m : MailboxState) : List ImapId :=
  (m.idToImap.toList.filter fun e => !newState.uidToId.contains e.2.uid).map Prod.snd

/-- The part of `synchronize_messages` under the lock: the new state is kept aside. -/
def setNext (newState : Numbering) (m : MailboxState) : MailboxState :=
  { m with
    idToImap := m.idToImap.retain fun _ imapId => newState.uidToId.contains imapId.uid
    uidToId := (m.gone newState).foldl (fun uidToId imapId => uidToId.erase imapId.uid) m.uidToId
    modseq := newState.modseq
    nextState := some ⟨newState, m.deletions ++ m.gone newState⟩ }

/-- `synchronize_messages`: the `modseq` and the state.  `seen` is the `modseq` it read before it waited for the
snapshot. -/
def synchronizeMessages (mailboxId : ℕ) (cache : MessagesCache) (seen : ℕ) (m : MailboxState) :
    ℕ × MailboxState :=
  match fetchMessages mailboxId cache (some seen) with
  | none => (seen, m)
  | some newState => (newState.modseq, m.setNext newState)

end MailboxState

/-- What the client is told. -/
inductive Response where
  | expunge (isQresync : Bool) (ids : List ℕ)
  | «exists» (totalMessages : ℕ)
  deriving DecidableEq

namespace MailboxState

/-- The second half of `write_mailbox_changes`: the pending state becomes the current one. -/
def announce (isQresync : Bool) (m : MailboxState) : List Response × MailboxState :=
  match m.nextState with
  | none => ([], m)
  | some next =>
    let ids := next.deletions.map fun id => if isQresync then id.uid else id.seqnum
    let expunged := if next.deletions.isEmpty then [] else [.expunge isQresync (ids.insertionSort (· ≤ ·))]
    let buf :=
      if !expunged.isEmpty || next.nextState.uidMax - m.uidMax > 0 then
        expunged ++ [.exists next.nextState.totalMessages]
      else expunged
    (buf, { next.nextState with nextState := none })

/-- `write_mailbox_changes`: the responses, the `modseq` and the state. -/
def writeMailboxChanges (mailboxId : ℕ) (cache : MessagesCache) (seen : ℕ) (isQresync : Bool) (m : MailboxState) :
    List Response × ℕ × MailboxState :=
  let (modseq, m) := m.synchronizeMessages mailboxId cache seen
  let (buf, m) := m.announce isQresync
  (buf, modseq, m)

/-- The loop of `append_messages`.  The entry in `uid_to_id` maps the UID to itself. -/
def append (m : MailboxState) (id : ImapUidToId) : MailboxState :=
  let seqnum := m.totalMessages + 1
  { m with
    totalMessages := seqnum
    uidToId := m.uidToId.insert id.uid id.uid
    idToImap := m.idToImap.insert id.id ⟨id.uid, seqnum⟩ }

/-- What the loop leaves in `uid_max`. -/
def lastUid (uidMax : ℕ) (ids : List ImapUidToId) : ℕ := ids.foldl (fun _ id => id.uid) uidMax

/-- `append_messages`. -/
def appendMessages (ids : List ImapUidToId) (modseq : Option ℕ) (m : MailboxState) : MailboxState :=
  if modseq.getD 0 > m.modseq then
    { ids.foldl append m with uidMax := lastUid 0 ids }
  else m

/-- The numbers that `sequence_to_ids` goes by. -/
def view (m : MailboxState) : Numbering :=
  match m.nextState with
  | some next => next.nextState
  | none => m.toNumbering

/-- `sequence_to_ids`, given the result of `get_saved_search`. -/
def sequenceToIds (m : MailboxState) (savedSearch : Option (List ImapId)) (sequence : Sequence) (isUid : Bool) :
    Except String (HashMap ℕ ImapId) :=
  if !sequence.isSavedSearch then
    .ok <| m.view.idToImap.retain fun _ imapId =>
      if isUid then sequence.contains imapId.uid m.view.uidMax
      else sequence.contains imapId.seqnum m.view.totalMessages
  else
    match savedSearch with
    | none => .error "No saved search found."
    | some savedIds =>
      .ok <| savedIds.foldl
        (fun ids imapId =>
          match m.uidToId[imapId.uid]? with
          | some id => ids.insert id imapId
          | none => ids)
        ∅

/-- `map_result_id`. -/
def mapResultId (m : MailboxState) (documentId : ℕ) (isUid : Bool) : Option (ℕ × ImapId) :=
  match m.idToImap[documentId]? with
  | some imapId => some (if isUid then imapId.uid else imapId.seqnum, imapId)
  | none =>
    if isUid then
      m.nextState.bind fun next => next.nextState.idToImap[documentId]?.map fun imapId => (imapId.uid, imapId)
    else none

end MailboxState

end MailServer.Imap
