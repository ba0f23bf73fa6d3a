import MailServer.Types.Id

/-!
# Set errors (`jmap-proto/src/error/set.rs`)

The errors that a method reports for single objects, with the texts and properties the code attaches,
and the keys and pointers of JSON objects that name properties.
-/

namespace MailServer.JmapProto

open MailServer.Types

/-- A key of an object: a property that was recognised, or any other text. -/
inductive Key (P : Type*) where
  | property (p : P)
  | text (s : String)
  deriving DecidableEq

/-- A part of a JSON pointer. -/
inductive JsonPointerItem (P : Type*) where
  | root
  | wildcard
  | key (k : Key P)
  | number (n : UInt64)

inductive SetErrorType where
  | forbidden | overQuota | tooLarge | rateLimit | notFound | invalidPatch | willDestroy
  | invalidProperties | singleton | mailboxHasChild | mailboxHasEmail | blobNotFound | tooManyKeywords
  | tooManyMailboxes | forbiddenFrom | invalidEmail | tooManyRecipients | noRecipients
  | invalidRecipients | forbiddenMailFrom | forbiddenToSend | cannotUnsend | alreadyExists
  | invalidScript | scriptIsActive | addressBookHasContents | nodeHasChildren | calendarHasEvent
  | objectIsLinked | invalidForeignKey | primaryKeyViolation | validationFailed
  deriving DecidableEq

inductive InvalidProperty (P : Type*) where
  | property (k : Key P)
  | path (ks : List (Key P))

structure SetError (P : Type*) where
  type_ : SetErrorType
  description : Option String
  properties : Option (List (InvalidProperty P))
  existingId : Option Id

namespace SetError

variable {P : Type*}

def new (type_ : SetErrorType) : SetError P := ⟨type_, none, none, none⟩

def withDescription (e : SetError P) (description : String) : SetError P :=
  { e with description := some description }

def withProperty (e : SetError P) (p : P) : SetError P :=
  { e with properties := some [.property (.property p)] }

/-- `with_property` on a key. -/
def withKey (e : SetError P) (k : Key P) : SetError P := { e with properties := some [.property k] }

def withExistingId (e : SetError P) (id : Id) : SetError P := { e with existingId := some id }

def invalidProperties : SetError P := new .invalidProperties

def invalidPatch : SetError P := new .invalidPatch

def forbidden : SetError P := new .forbidden

def notFound : SetError P := new .notFound

def overQuota : SetError P := (new .overQuota).withDescription "Account quota exceeded."

def willDestroy : SetError P := (new .willDestroy).withDescription "ID will be destroyed."

end SetError

end MailServer.JmapProto
