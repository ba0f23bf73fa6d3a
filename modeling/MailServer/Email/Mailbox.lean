import MailServer.Common.Auth
import MailServer.Lib.Pieces
import MailServer.Types.SpecialUse
import MailServer.Utils.HashMap

/-!
# Mailboxes and messages of an account (`email/src/mailbox/mod.rs`, `email/src/message/metadata.rs`)

The archives of an account, and the writes that change them.  The parent of a mailbox is stored as its document
id plus one, with zero for none.

* `Account`: the archives.  `Op`, `Account.apply`: a write with what it asserts, as `ObjectIndexBuilder` builds
  it.
-/

namespace MailServer.Email

open MailServer.Common MailServer.Types MailServer.Utils

def INBOX_ID : ℕ := 0
def TRASH_ID : ℕ := 1
def JUNK_ID : ℕ := 2

structure Mailbox where
  name : String
  role : SpecialUse
  parentId : ℕ
  sortOrder : Option UInt32
  subscribers : List UInt32
  acls : List AclGrant

/-- `Mailbox::new`. -/
def Mailbox.new (name : String) : Mailbox := ⟨name, .none, 0, none, [], []⟩

structure UidMailbox where
  mailboxId : ℕ
  uid : ℕ

structure MessageData where
  mailboxes : List UidMailbox
  keywords : List String
  threadId : ℕ
  size : ℕ

structure Account where
  mailboxes : HashMap ℕ Mailbox
  messages : HashMap ℕ MessageData
  /-- the counter of document ids of mailboxes -/
  nextMailboxId : ℕ

/-- The hashes in the archives, which assertions compare. -/
structure ArchiveHash where
  mailbox : Mailbox → UInt32
  message : MessageData → UInt32

/-- A write of a batch.  An archive that is replaced or cleared is asserted to be the one that was read. -/
inductive Op where
  | assertMailbox (id : ℕ)
  | mailbox (id : ℕ) (current changes : Option Mailbox)
  | message (id : ℕ) (current changes : Option MessageData)

/-- `ObjectIndexBuilder::build` on the archive of a document. -/
def putArchive {V : Type*} (hash : V → UInt32) (m : HashMap ℕ V) (id : ℕ) (current changes : Option V) :
    Option (HashMap ℕ V) :=
  if current.any fun c => ¬ m[id]?.any fun stored => hash stored = hash c then none
  else match changes with
    | some v => some (m.insert id v)
    | none => some (m.erase id)

def Account.apply (h : ArchiveHash) (a : Account) : Op → Option Account
  | .assertMailbox id => if (a.mailboxes[id]?).isSome then some a else none
  | .mailbox id current changes =>
    (putArchive h.mailbox a.mailboxes id current changes).map fun m => { a with mailboxes := m }
  | .message id current changes =>
    (putArchive h.message a.messages id current changes).map fun m => { a with messages := m }

theorem putArchive_eq {V : Type*} {hash : V → UInt32} {m m' : HashMap ℕ V} {id : ℕ} {current changes : Option V}
    (h : putArchive hash m id current changes = some m') (k : ℕ) :
    m'[k]? = if id = k then changes else m[k]? := by
  unfold putArchive at h
  split_ifs at h
  cases changes with
  | none =>
    obtain rfl := Option.some.inj h
    exact HashMap.getElem?_erase
  | some v =>
    obtain rfl := Option.some.inj h
    exact HashMap.getElem?_insert

theorem putArchive_current {V : Type*} {hash : V → UInt32} {m m' : HashMap ℕ V} {id : ℕ} {c : V}
    {changes : Option V} (h : putArchive hash m id (some c) changes = some m') :
    ∃ stored, m[id]? = some stored ∧ hash stored = hash c := by
  unfold putArchive at h
  split_ifs at h with hassert
  cases hm : m[id]? with
  | none => simp [hm] at hassert
  | some stored => exact ⟨stored, rfl, by simpa [hm] using hassert⟩

end MailServer.Email
