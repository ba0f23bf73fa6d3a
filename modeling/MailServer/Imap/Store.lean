import MailServer.Email.Versions
import MailServer.Imap.Message

/-!
# STORE (`imap/src/op/store.rs`)

The command reads the log, when it has UNCHANGEDSINCE, then the messages one by one, and then commits what it makes
of them.  Other writers of the account commit in between.

* `dropChanged`: the messages that the log has changes of are left out.
* `applyKeywords`: what becomes of the keywords of a message.
* `World`, `step`: the account and the command.
-/

namespace MailServer.Imap.Store

open MailServer.Email MailServer.Types MailServer.Utils MailServer.Store.Query

/-! ## The command and its answer -/

inductive Operation where
  | set | add | clear
  deriving DecidableEq

structure Arguments where
  operation : Operation
  isSilent : Bool
  keywords : List String
  unchangedSince : Option ℕ

/-- A STORE, with what the session makes of its sequence set: the messages, and the numbers that stand for none. -/
structure Command where
  arguments : Arguments
  isUid : Bool
  isCondstore : Bool
  ids : HashMap ℕ ImapId
  missing : List ℕ

/-- The number that the client knows a message by. -/
def Command.number (c : Command) (imapId : ImapId) : ℕ := if c.isUid then imapId.uid else imapId.seqnum

inductive ResponseType where
  | ok | no
  deriving DecidableEq

structure StatusResponse where
  rtype : ResponseType
  message : String
  /-- the numbers of the code MODIFIED -/
  code : Option (List ℕ)

inductive DataItem where
  | flags (flags : List String)
  | uid (uid : ℕ)
  | modSeq (modseq : ℕ)

structure FetchItem where
  id : ℕ
  items : List DataItem

structure Response where
  status : StatusResponse
  items : List FetchItem

def StatusResponse.completed (isUid : Bool) : StatusResponse :=
  ⟨.ok, if isUid then "UID STORE completed" else "STORE completed", none⟩

def noLongerExist : String := "Some of the messages no longer exist."

def otherProcess : String := "Some messages were modified by another process."

/-! ## Filter out unchanged since ids -/

/-- `Query::from_modseq`. -/
def fromModseq (modseq : ℕ) : LogQuery := if modseq > 0 then .since (modseq - 1) else .all

/-- `item_id`. -/
def itemId : Change → Option UInt64
  | .insertItem id | .updateItem id | .deleteItem id => some id
  | _ => none

def isDelete : Change → Bool
  | .deleteItem _ => true
  | _ => false

/-- What is left of the messages, the numbers of the others, and whether one of these was deleted. -/
structure Filtered where
  ids : HashMap ℕ ImapId
  modified : List ℕ
  unchangedFailed : Bool

/-- One change of the log. -/
def dropChange (c : Command) (f : Filtered) (change : Change) : Filtered :=
  match itemId change with
  | none => f
  | some item =>
    match f.ids[documentOf item]? with
    | none => f
    | some imapId =>
      ⟨f.ids.erase (documentOf item), f.modified ++ [c.number imapId],
        f.unchangedFailed || (!c.isUid && isDelete change)⟩

def dropChanged (c : Command) (changes : List Change) : Filtered :=
  changes.foldl (dropChange c) ⟨c.ids, c.missing, false⟩

/-- The status as far as the log decides it. -/
def Filtered.status (c : Command) (f : Filtered) : StatusResponse :=
  let response := if f.unchangedFailed then ⟨.no, noLongerExist, none⟩ else StatusResponse.completed c.isUid
  { response with code := if f.modified.isEmpty then none else some (f.modified.insertionSort (· ≤ ·)) }

/-! ## One message -/

def SEEN : String := "$seen"

/-- `add_keyword` of every keyword, and whether Seen was added. -/
def addKeywords (keywords : List String) (data : MessageData) : MessageData × Bool :=
  keywords.foldl
    (fun r keyword =>
      if r.1.keywords.contains keyword then r
      else ({ r.1 with keywords := r.1.keywords ++ [keyword] }, r.2 || keyword = SEEN))
    (data, false)

/-- `remove_keyword` of every keyword, and whether Seen was removed. -/
def removeKeywords (keywords : List String) (data : MessageData) : MessageData × Bool :=
  keywords.foldl
    (fun r keyword =>
      if r.1.keywords.contains keyword then
        ({ r.1 with keywords := r.1.keywords.filter fun k => k ≠ keyword }, r.2 || keyword = SEEN)
      else r)
    (data, false)

/-- Apply changes; the flag says whether the Seen tag changed. -/
def applyKeywords (a : Arguments) (data : MessageData) : MessageData × Bool :=
  match a.operation with
  | .set => ({ data with keywords := a.keywords }, a.keywords.contains SEEN != data.keywords.contains SEEN)
  | .add => addKeywords a.keywords data
  | .clear => removeKeywords a.keywords data

def hasKeywordChanges (data prev : MessageData) : Bool :=
  data.keywords.length ≠ prev.keywords.length || !data.keywords.all fun k => prev.keywords.any fun pk => pk = k

/-- What the client is told of a message that is changed. -/
def fetchItem (c : Command) (imapId : ImapId) (data : MessageData) : List FetchItem :=
  let uid := if c.isUid then [.uid imapId.uid] else []
  if !c.arguments.isSilent then [⟨imapId.seqnum, .flags data.keywords :: uid⟩]
  else if c.isCondstore then [⟨imapId.seqnum, uid⟩]
  else []

/-! ## The account and the command -/

/-- A message that was read and what it becomes. -/
structure Write where
  id : ℕ
  current : Archive
  changes : MessageData

inductive Phase where
  | start
  /-- the messages still to read, and what is left of the batch -/
  | reading (status : StatusResponse) (unread : List (ℕ × ImapId)) (batch : List Write) (items : List FetchItem)
    (changedMailboxes : List ℕ)
  | done (response : Response)
  | failed

structure World where
  emails : Emails
  phase : Phase
  /-- the messages that the command has modified, with the mod-sequences they had -/
  written : List (ℕ × ℕ)
  /-- the messages that it has found as they are to be -/
  asWanted : List ℕ

/-- The assertion on the archive of a message. -/
def Write.holds (hash : MessageData → UInt32) (messages : HashMap ℕ Archive) (w : Write) : Bool :=
  messages[w.id]?.any fun a => hash a.data = hash w.current.data

/-- The log of a piece of the batch. -/
def pieceLog (piece : List Write) (changedMailboxes : List ℕ) : List UInt8 :=
  (Store.Write.Changes.ofLog (piece.map (fun w => .updateItem
    (Id.fromParts (UInt32.ofNat w.current.data.threadId) (UInt32.ofNat w.id)).id) ++
    changedMailboxes.map fun id => .updateContainerProperty (UInt32.ofNat id))).serialize .u32 .u64

/-- A piece of the batch is written. -/
def writePiece (e : Emails) (piece : List Write) (changedMailboxes : List ℕ) : Emails :=
  let changeId := e.lastChangeId + 1
  ⟨piece.foldl (fun messages w => messages.insert w.id ⟨w.changes, changeId⟩) e.messages,
    e.log ++ [(changeId, pieceLog piece changedMailboxes)], changeId⟩

/-- The mod-sequence of a message. -/
def modseq (messages : HashMap ℕ Archive) (id : ℕ) : ℕ := (messages[id]?.map fun a => a.changeId + 1).getD 0

inductive Action where
  /-- another writer commits -/
  | other (batch : Store.Query.Entry) (data : UInt64 → MessageData)
  /-- the log is cut -/
  | truncate (maxEntries : ℕ)
  | readChanges
  | readMessage (id : ℕ)
  /-- a piece of so many messages and one is committed -/
  | commit (n : ℕ)

variable (hash : MessageData → UInt32) (c : Command)

/-- The log is read. -/
def readChanges (e : Emails) : Phase :=
  if c.ids.isEmpty then .done ⟨.completed c.isUid, []⟩
  else
    match c.arguments.unchangedSince with
    | none => .reading (.completed c.isUid) c.ids.toList [] [] []
    | some unchangedSince =>
      -- Obtain changes since the modseq.
      match e.log.changes false (fromModseq unchangedSince) with
      | .error _ => .failed
      | .ok changelog =>
        let f := dropChanged c changelog.changes
        if f.ids.isEmpty then .done ⟨f.status c, []⟩ else .reading (f.status c) f.ids.toList [] [] []

def step (w : World) : Action → Option World
  | .other batch data => (w.emails.commit batch data).map fun emails => { w with emails }
  | .truncate maxEntries =>
    some { w with emails := { w.emails with log := Common.truncate maxEntries w.emails.log } }
  | .readChanges =>
    match w.phase with
    | .start => some { w with phase := readChanges c w.emails }
    | _ => none
  | .readMessage id =>
    match w.phase with
    | .reading status unread batch items changedMailboxes =>
      (unread.find? fun u => u.1 = id).map fun u =>
        let unread := unread.filter fun u => u.1 ≠ id
        match w.emails.messages[id]? with
        | none => { w with phase := .reading status unread batch items changedMailboxes }
        | some data =>
          let (newData, seenChanged) := applyKeywords c.arguments data.data
          if !hasKeywordChanges newData data.data then
            { w with
              phase := .reading status unread batch items changedMailboxes
              asWanted := w.asWanted ++ [id] }
          else
            { w with
              phase := .reading status unread (batch ++ [⟨id, data, newData⟩]) (items ++ fetchItem c u.2 newData)
                (changedMailboxes ++ if seenChanged then newData.mailboxes.map UidMailbox.mailboxId else []) }
    | _ => none
  | .commit n =>
    match w.phase with
    | .reading status [] batch items changedMailboxes =>
      let piece := batch.take (n + 1)
      let rest := batch.drop (n + 1)
      if batch.isEmpty then some { w with phase := .done ⟨status, items⟩ }
      else if piece.all fun p => p.holds hash w.emails.messages then
        let emails := writePiece w.emails piece (if rest.isEmpty then changedMailboxes else [])
        let phase :=
          if rest.isEmpty then
            .done ⟨status, if c.isCondstore then
              items.map fun item => { item with items := item.items ++ [.modSeq (emails.lastChangeId + 1)] }
              else items⟩
          else .reading status [] rest items changedMailboxes
        some { w with
          emails
          phase
          written := w.written ++ piece.map fun p => (p.id, modseq w.emails.messages p.id) }
      else some { w with phase := .done ⟨{ status with rtype := .no, message := otherProcess }, []⟩ }
    | _ => none

end MailServer.Imap.Store
