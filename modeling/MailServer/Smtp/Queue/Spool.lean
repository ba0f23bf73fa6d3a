import MailServer.Smtp.Queue.Message
import Mathlib.Algebra.Order.BigOperators.Group.List
import Mathlib.Algebra.Ring.Int.Defs
import Mathlib.Data.Finset.Image

/-!
# The spool (`smtp/src/queue/spool.rs`, `queue/quota.rs`)

What the store holds for a queued message: its record, the events that make the virtual queues look at it, and the
counters of the quotas that it uses.  A worker takes a copy of the record, and in the end writes it back or removes it.

* `Spool`: the stored data.
* `releaseQuota`: the quota keys of the recipients that are settled.
* `mergeMessage`: what a worker writes back of a message that other queues have to do with.
* `MessageWrapper.saveChanges`, `MessageWrapper.remove`: the two batches.
-/

namespace MailServer.Smtp

open List

/-! ## Quotas -/

/-- `QueueClass::QuotaCount` and `QueueClass::QuotaSize`. -/
inductive QuotaClass where
  | count (key : List UInt8)
  | size (key : List UInt8)
deriving DecidableEq

namespace QuotaKey

def counter : QuotaKey → QuotaClass
  | .count key _ => .count key
  | .size key _ => .size key

def id : QuotaKey → ℕ
  | .count _ id | .size _ id => id

/-- What a message of some size adds to the counter. -/
def weight (size : ℕ) : QuotaKey → ℤ
  | .count _ _ => 1
  | .size _ _ => size

end QuotaKey

abbrev Counters := QuotaClass → ℤ

def Counters.add (counters : Counters) (quota : QuotaClass) (n : ℤ) : Counters :=
  Function.update counters quota (counters quota + n)

/-- `queue`: the reservation of the quotas. -/
def Counters.reserve (counters : Counters) (size : ℕ) (keys : List QuotaKey) : Counters :=
  keys.foldl (fun counters key => counters.add key.counter (key.weight size)) counters

def Counters.release (counters : Counters) (size : ℕ) (keys : List QuotaKey) : Counters :=
  keys.foldl (fun counters key => counters.add key.counter (-key.weight size)) counters

/-- `domain_part` -/
def Recipient.domainPart (rcpt : Recipient) : String :=
  if '@' ∈ rcpt.address.toList then String.ofList (rcpt.address.toList.reverse.takeWhile (· ≠ '@')).reverse else ""

namespace Message

/-- `release_quota`, the ids of the recipients that are settled, and of the domains at their first such recipient. -/
def settledQuotaIds (message : Message) : List ℕ :=
  (message.recipients.zipIdx.foldl (fun (acc : List String × List ℕ) (rcpt, pos) =>
    if rcpt.isPending then acc
    else if rcpt.domainPart ∈ acc.1 then (acc.1, acc.2 ++ [pos + 1])
    else (rcpt.domainPart :: acc.1, acc.2 ++ [(pos + 1) <<< 32, pos + 1])) ([], [])).2

/-- `release_quota`: the keys that are released, and the message without them. -/
def releaseQuota (message : Message) : List QuotaKey × Message :=
  let quotaIds := message.settledQuotaIds
  (message.quotaKeys.filter fun key => decide (key.id ∈ quotaIds),
    { message with quotaKeys := message.quotaKeys.filter fun key => !decide (key.id ∈ quotaIds) })

end Message

/-! ## The stored data -/

structure Spool where
  message : Option Message
  /-- `QueueClass::MessageEvent`, by due time and virtual queue -/
  events : Finset (ℕ × QueueName)
  counters : Counters

def Message.eventKeys (message : Message) : Finset (ℕ × QueueName) :=
  (message.nextEvents.map Prod.swap).toFinset

/-- `queue`: the message is new, and the counters are those before. -/
def Spool.queue (message : Message) (counters : Counters) : Spool :=
  ⟨some message, message.eventKeys, counters.reserve message.size message.quotaKeys⟩

structure MessageWrapper where
  queueName : QueueName
  isMultiQueue : Bool
  message : Message

def MessageWrapper.new (message : Message) (queueName : QueueName) : MessageWrapper :=
  ⟨queueName, message.recipients.any fun rcpt => rcpt.isPending && rcpt.queue != queueName, message⟩

/-- The merge function of `save_changes`: the recipients of the queue are taken from the new message. -/
def mergeMessage (queueName : QueueName) (new cur : Message) : Option Message :=
  if cur.blobHash = new.blobHash ∧ cur.recipients.length = new.recipients.length then
    some { cur with
      recipients := List.zipWith (fun cur new => if new.queue = queueName then new else cur) cur.recipients new.recipients }
  else none

namespace MessageWrapper

variable (wrapper : MessageWrapper) (prevEvent : Option ℕ) (spool : Spool)

/-- The batch fails if there is nothing to merge with. -/
def saveChanges : Option Spool :=
  let (released, message) := wrapper.message.releaseQuota
  let events := (match prevEvent with
    | some due => spool.events.erase (due, wrapper.queueName)
    | none => spool.events) ∪ message.eventKeys
  let counters := spool.counters.release message.size released
  if wrapper.isMultiQueue then
    (spool.message.bind (mergeMessage wrapper.queueName message)).map fun merged => ⟨some merged, events, counters⟩
  else some ⟨some message, events, counters⟩

def remove : Spool :=
  ⟨none,
    match prevEvent with
    | some due => spool.events.erase (due, wrapper.queueName)
    | none => spool.events \ wrapper.message.eventKeys,
    spool.counters.release wrapper.message.size wrapper.message.quotaKeys⟩

end MessageWrapper

/-! ## Counters -/

/-- What a list of quota keys adds to a counter. -/
def quotaTotal (size : ℕ) (keys : List QuotaKey) (quota : QuotaClass) : ℤ :=
  (keys.map fun key => if key.counter = quota then key.weight size else 0).sum

section

variable {size : ℕ} {keys keys' : List QuotaKey} {quota : QuotaClass}

@[simp] theorem quotaTotal_nil : quotaTotal size [] quota = 0 := rfl

theorem quotaTotal_cons (key : QuotaKey) : quotaTotal size (key :: keys) quota =
    (if key.counter = quota then key.weight size else 0) + quotaTotal size keys quota := rfl

theorem quotaTotal_append : quotaTotal size (keys ++ keys') quota = quotaTotal size keys quota + quotaTotal size keys' quota := by
  rw [quotaTotal, map_append, sum_append]
  rfl

theorem quotaTotal_of_perm (h : keys.Perm keys') : quotaTotal size keys quota = quotaTotal size keys' quota :=
  (h.map _).sum_eq

theorem quotaTotal_nonneg : 0 ≤ quotaTotal size keys quota := by
  refine sum_nonneg fun n hn => ?_
  obtain ⟨key, -, rfl⟩ := mem_map.mp hn
  split_ifs
  · cases key with
    | count key id => exact Int.one_nonneg
    | size key id => exact Int.natCast_nonneg size
  · exact le_rfl

theorem Counters.add_apply (counters : Counters) (q : QuotaClass) (n : ℤ) :
    counters.add q n quota = counters quota + if q = quota then n else 0 := by
  rw [Counters.add, Function.update_apply]
  by_cases h : quota = q
  · subst h
    rw [if_pos rfl, if_pos rfl]
  · rw [if_neg h, if_neg (Ne.symm h), add_zero]

theorem Counters.reserve_apply (counters : Counters) :
    counters.reserve size keys quota = counters quota + quotaTotal size keys quota := by
  induction keys generalizing counters with
  | nil => exact (add_zero _).symm
  | cons key keys ih =>
    show (counters.add key.counter (key.weight size)).reserve size keys quota = _
    rw [ih, Counters.add_apply, quotaTotal_cons]
    omega

theorem Counters.release_apply (counters : Counters) :
    counters.release size keys quota = counters quota - quotaTotal size keys quota := by
  induction keys generalizing counters with
  | nil => exact (sub_zero _).symm
  | cons key keys ih =>
    show (counters.add key.counter (-key.weight size)).release size keys quota = _
    rw [ih, Counters.add_apply, quotaTotal_cons]
    split_ifs <;> omega

end

/-! ## Records -/

theorem releaseQuota_perm (message : Message) :
    (message.releaseQuota.1 ++ message.releaseQuota.2.quotaKeys).Perm message.quotaKeys :=
  filter_append_perm ..

theorem mergeMessage_eq_some {queueName : QueueName} {new cur merged : Message}
    (h : mergeMessage queueName new cur = some merged) : cur.recipients.length = new.recipients.length ∧
      merged = { cur with
        recipients := List.zipWith (fun cur new => if new.queue = queueName then new else cur) cur.recipients
          new.recipients } := by
  rw [mergeMessage] at h
  split_ifs at h with hc
  exact ⟨hc.2, (Option.some.inj h).symm⟩

theorem getElem?_merged {cur new merged : Message} {queueName : QueueName}
    (h : mergeMessage queueName new cur = some merged) (i : ℕ) :
    (∀ rcpt, new.recipients[i]? = some rcpt → rcpt.queue = queueName → merged.recipients[i]? = some rcpt) ∧
    ((∀ rcpt, new.recipients[i]? = some rcpt → rcpt.queue ≠ queueName) →
      merged.recipients[i]? = cur.recipients[i]?) := by
  obtain ⟨hlen, rfl⟩ := mergeMessage_eq_some h
  rw [getElem?_zipWith]
  constructor
  · intro rcpt hrcpt hqueue
    obtain ⟨hlt, -⟩ := List.getElem?_eq_some_iff.mp hrcpt
    rw [getElem?_eq_getElem (hlen ▸ hlt), hrcpt]
    dsimp only
    rw [if_pos hqueue]
  · intro hne
    by_cases hlt : i < new.recipients.length
    · have hnew := getElem?_eq_getElem hlt
      rw [getElem?_eq_getElem (hlen ▸ hlt), hnew]
      dsimp only
      rw [if_neg (hne _ hnew)]
    · rw [getElem?_eq_none (by omega)]

theorem mem_eventKeys {message : Message} {queue : QueueName} {due : ℕ} :
    (due, queue) ∈ message.eventKeys ↔ message.nextEvent (some queue) = some due := by
  rw [Message.eventKeys, mem_toFinset, ← Message.mem_nextEvents]
  constructor
  · intro h
    obtain ⟨⟨q, d⟩, hmem, heq⟩ := mem_map.mp h
    obtain ⟨rfl, rfl⟩ := Prod.mk.inj heq
    exact hmem
  · exact fun h => mem_map.mpr ⟨(queue, due), h, rfl⟩

end MailServer.Smtp
