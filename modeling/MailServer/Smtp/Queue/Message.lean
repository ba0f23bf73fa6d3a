import Mathlib.Data.List.Dedup

/-!
# Queued messages (`smtp/src/queue/mod.rs`, `queue/manager.rs`)

A message waits with all its recipients in one record.  Each recipient belongs to one virtual queue, has its own status,
and is tried again, reported on and given up at its own times.

* `Status`, `Recipient`, `Message`: the record.
* `Message.setRcptStatus`: what an attempt does to a recipient.
-/

namespace MailServer.Smtp

open List

/-! ## Replies -/

inductive Severity where
  | positiveCompletion
  | positiveIntermediate
  | transientNegativeCompletion
  | permanentNegativeCompletion
  | invalid
deriving DecidableEq

structure Response where
  code : ℕ
  esc : ℕ × ℕ × ℕ
  message : String
deriving DecidableEq

def Response.severity (r : Response) : Severity :=
  match r.code / 100 with
  | 2 => .positiveCompletion
  | 3 => .positiveIntermediate
  | 4 => .transientNegativeCompletion
  | 5 => .permanentNegativeCompletion
  | _ => .invalid

structure UnexpectedResponse where
  command : String
  response : Response
deriving DecidableEq

inductive Error where
  | dnsError (details : String)
  | unexpectedResponse (response : UnexpectedResponse)
  | connectionError (details : String)
  | tlsError (details : String)
  | daneError (details : String)
  | mtaStsError (details : String)
  | rateLimited
  | concurrencyLimited
  | io (details : String)
deriving DecidableEq

structure ErrorDetails where
  entity : String
  details : Error
deriving DecidableEq

structure HostResponse where
  hostname : String
  response : Response
deriving DecidableEq

inductive Status where
  | scheduled
  | completed (response : HostResponse)
  | temporaryFailure (error : ErrorDetails)
  | permanentFailure (error : ErrorDetails)
deriving DecidableEq

namespace Status

/-- `Status::Scheduled | Status::TemporaryFailure(_)`: the recipient is still to be tried. -/
def isPending : Status → Bool
  | scheduled | temporaryFailure _ => true
  | completed _ | permanentFailure _ => false

/-- `Status::into_permanent`. -/
def intoPermanent : Status → Status
  | temporaryFailure error => permanentFailure error
  | status => status

end Status

/-! ## The record -/

/-- A virtual queue. -/
abbrev QueueName := String

structure Schedule where
  due : ℕ
  inner : ℕ
deriving DecidableEq

inductive QueueExpiry where
  | ttl (time : ℕ)
  | attempts (count : ℕ)
deriving DecidableEq

/-- The flags of a recipient that are read here, each of which is a bit. -/
structure RcptFlags where
  notifySuccess : Bool
  notifyFailure : Bool
  notifyDelay : Bool
  notifyNever : Bool
  /-- `RCPT_DSN_SENT` -/
  dsnSent : Bool
deriving DecidableEq

structure Recipient where
  address : String
  retry : Schedule
  notify : Schedule
  expires : QueueExpiry
  queue : QueueName
  status : Status
  flags : RcptFlags
deriving DecidableEq

inductive QuotaKey where
  | size (key : List UInt8) (id : ℕ)
  | count (key : List UInt8) (id : ℕ)
deriving DecidableEq

/-- The flags of a message that are read here. -/
structure MailFlags where
  requireTls : Bool
  smtpUtf8 : Bool
  retFull : Bool
  retHdrs : Bool
deriving DecidableEq

structure Message where
  created : ℕ
  blobHash : List UInt8
  returnPath : String
  recipients : List Recipient
  flags : MailFlags
  envId : Option String
  size : ℕ
  quotaKeys : List QuotaKey
deriving DecidableEq

namespace Recipient

def isPending (rcpt : Recipient) : Bool := rcpt.status.isPending

def expirationTime (rcpt : Recipient) (created : ℕ) : Option ℕ :=
  match rcpt.expires with
  | .ttl time => some (created + time)
  | .attempts _ => none

def isExpired (rcpt : Recipient) (created now : ℕ) : Bool :=
  match rcpt.expires with
  | .ttl time => created + time ≤ now
  | .attempts count => count ≤ rcpt.retry.inner

/-- When the recipient has to be looked at again. -/
def nextEvent (rcpt : Recipient) (created : ℕ) : ℕ :=
  match rcpt.expirationTime created with
  | some expires => min (min rcpt.retry.due rcpt.notify.due) expires
  | none => min rcpt.retry.due rcpt.notify.due

end Recipient

/-! ## Configuration -/

structure QueueStrategy where
  retry : List ℕ
  notify : List ℕ
  expiry : QueueExpiry
  virtualQueue : QueueName

/-- The wait before the next attempt, with the last of the list from then on. -/
def QueueStrategy.retryWait (queue : QueueStrategy) (attempts : ℕ) : ℕ :=
  queue.retry.getD (min attempts (queue.retry.length - 1)) 0

/-- The strategy that the expressions of the configuration choose for a recipient.  Of the rest of the message they see
only what an attempt leaves as it is. -/
abbrev QueueConfig := Recipient → QueueStrategy

/-! ## Attempts -/

/-- What a new status does to a recipient. -/
def Recipient.setStatus (config : QueueConfig) (now : ℕ) (rcpt : Recipient) (status : Status) : Recipient :=
  let rcpt := { rcpt with status }
  if status.isPending then
    let queue := config rcpt
    { rcpt with
      retry := ⟨now + queue.retryWait rcpt.retry.inner, rcpt.retry.inner + 1⟩
      expires := queue.expiry
      queue := queue.virtualQueue }
  else rcpt

/-- `set_rcpt_rate_limit`. -/
def Recipient.setRateLimit (rcpt : Recipient) (retryAt : ℕ) : Recipient :=
  { rcpt with
    retry := { rcpt.retry with due := retryAt }
    status := .temporaryFailure ⟨"localhost", .rateLimited⟩ }

namespace Message

def setRcptStatus (config : QueueConfig) (now : ℕ) (message : Message) (status : Status) (rcptIdx : ℕ) : Message :=
  { message with recipients := message.recipients.modify rcptIdx fun rcpt => rcpt.setStatus config now status }

def setRcptRateLimit (message : Message) (rcptIdx retryAt : ℕ) : Message :=
  { message with recipients := message.recipients.modify rcptIdx fun rcpt => rcpt.setRateLimit retryAt }

/-- The recipients of a virtual queue that are still to be tried, or those of all queues. -/
def pendingIn (message : Message) (queue : Option QueueName) : List Recipient :=
  message.recipients.filter fun rcpt => rcpt.isPending && queue.all fun q => rcpt.queue == q

def nextEvent (message : Message) (queue : Option QueueName) : Option ℕ :=
  ((message.pendingIn queue).map fun rcpt => rcpt.nextEvent message.created).min?

def nextDeliveryEvent (message : Message) (queue : Option QueueName) : Option ℕ :=
  ((message.pendingIn queue).map fun rcpt => rcpt.retry.due).min?

/-- When each virtual queue is to look at the message, for the queues that have to. -/
def nextEvents (message : Message) : List (QueueName × ℕ) :=
  ((message.pendingIn none).map (·.queue)).dedup.filterMap fun queue =>
    (message.nextEvent (some queue)).map fun due => (queue, due)

@[simp] theorem recipients_setRcptStatus (config : QueueConfig) (now : ℕ) (message : Message) (status : Status)
    (rcptIdx : ℕ) : (message.setRcptStatus config now status rcptIdx).recipients =
      message.recipients.modify rcptIdx fun rcpt => rcpt.setStatus config now status := rfl

@[simp] theorem recipients_setRcptRateLimit (message : Message) (rcptIdx retryAt : ℕ) :
    (message.setRcptRateLimit rcptIdx retryAt).recipients =
      message.recipients.modify rcptIdx fun rcpt => rcpt.setRateLimit retryAt := rfl

variable {message : Message} {queue : QueueName}

theorem mem_pendingIn {queue : Option QueueName} {rcpt : Recipient} :
    rcpt ∈ message.pendingIn queue ↔ rcpt ∈ message.recipients ∧ rcpt.isPending = true ∧ ∀ q ∈ queue, rcpt.queue = q := by
  rw [pendingIn, mem_filter, Bool.and_eq_true_iff, Option.all_eq_true]
  simp only [beq_iff_eq]
  rfl

theorem mem_nextEvents {due : ℕ} :
    (queue, due) ∈ message.nextEvents ↔ message.nextEvent (some queue) = some due := by
  rw [nextEvents, mem_filterMap]
  constructor
  · rintro ⟨q, -, h⟩
    obtain ⟨d, hd, heq⟩ := Option.map_eq_some_iff.mp h
    obtain ⟨rfl, rfl⟩ := Prod.mk.inj heq
    exact hd
  · intro h
    refine ⟨queue, ?_, by rw [h, Option.map_some]⟩
    obtain ⟨rcpt, hrcpt, -⟩ := mem_map.mp (min?_mem h)
    obtain ⟨hmem, hpending, hqueue⟩ := mem_pendingIn.1 hrcpt
    refine mem_dedup.mpr (mem_map.mpr ⟨rcpt, mem_pendingIn.2 ⟨hmem, hpending, nofun⟩, ?_⟩)
    exact hqueue queue rfl

theorem exists_nextEvent :
    (∃ due, message.nextEvent (some queue) = some due) ↔
      ∃ rcpt ∈ message.recipients, rcpt.isPending = true ∧ rcpt.queue = queue := by
  constructor
  · rintro ⟨due, h⟩
    obtain ⟨rcpt, hrcpt, -⟩ := mem_map.mp (min?_mem h)
    obtain ⟨hmem, hpending, hqueue⟩ := mem_pendingIn.1 hrcpt
    exact ⟨rcpt, hmem, hpending, hqueue queue rfl⟩
  · rintro ⟨rcpt, hmem, hpending, rfl⟩
    refine Option.isSome_iff_exists.mp (isSome_min?_of_mem (mem_map_of_mem (mem_pendingIn.2 ⟨hmem, hpending, ?_⟩)))
    rintro q hq
    exact Option.some.inj hq

end Message

end MailServer.Smtp
