import MailServer.Smtp.Queue.Workers

/-!
# Quotas of a queued message

A queued message has the keys of the quotas that it uses in its record.  Whoever settles a recipient releases the keys of
the recipient and takes them out of its copy; who removes the message releases the rest.  What a worker writes back to a
message of several queues has the recipients of its own queue only, and leaves the keys in the record.

* `QuotasSettled`: no key is released twice, and all are once the message is gone.
* `Deliveries.KeepsQuotas`: the steps that leave it so.
* `quotas_settled`: runs of such steps.
-/

namespace MailServer.Smtp

open Option Deliveries

namespace Finished

/-- The keys that the batch of the worker releases. -/
def releasedKeys (f : Finished) : List QuotaKey :=
  if f.saved then
    match f.attempted.finish with
    | .save => f.attempted.message.releaseQuota.1
    | .remove => f.attempted.message.quotaKeys
  else []

theorem releasedKeys_of_save {worker : Worker} {attempted : Attempted} (h : attempted.finish = .save) :
    releasedKeys ⟨worker, attempted, true⟩ = attempted.message.releaseQuota.1 := by
  rw [releasedKeys, if_pos rfl, h]

theorem releasedKeys_of_remove {worker : Worker} {attempted : Attempted} (h : attempted.finish = .remove) :
    releasedKeys ⟨worker, attempted, true⟩ = attempted.message.quotaKeys := by
  rw [releasedKeys, if_pos rfl, h]

end Finished

namespace Deliveries

def released (s : Deliveries) : List QuotaKey := s.log.flatMap (·.releasedKeys)

theorem released_cons (spool : Spool) (workers : ℕ → Option Worker) (f : Finished) (log : List Finished) :
    released ⟨spool, workers, f :: log⟩ = f.releasedKeys ++ log.flatMap (·.releasedKeys) := rfl

def storedKeys (s : Deliveries) : List QuotaKey := s.spool.message.elim [] (·.quotaKeys)

/-- A worker that only merges its recipients releases nothing, and any other has all the keys that are in the record, and
no others. -/
def KeepsQuotas (s : Deliveries) : Action → Prop
  | .read _ _ _ => True
  | .finish w env => ∀ worker ∈ s.workers w,
    let attempted := deliverTask env worker.wrapper.queueName worker.wrapper.message
    if attempted.finish = .save ∧ worker.wrapper.isMultiQueue = true then
      s.spool.message = none ∨ attempted.message.releaseQuota.1 = []
    else worker.wrapper.message.quotaKeys = s.storedKeys

end Deliveries

/-- The message was queued with these counters. -/
structure QuotasSettled (message : Message) (counters : Counters) (s : Deliveries) : Prop where
  once : s.released.Subperm message.quotaKeys
  gone : s.spool.message = none → s.released.Perm message.quotaKeys ∧ s.spool.counters = counters
  floor : ∀ quota, counters quota ≤ s.spool.counters quota

/-- The keys that are not released are in the record. -/
structure QuotasKept (message : Message) (counters : Counters) (s : Deliveries) : Prop where
  keys : (s.released ++ s.storedKeys).Perm message.quotaKeys
  counters : ∀ quota, s.spool.counters quota = counters quota + quotaTotal message.size s.storedKeys quota
  stored : ∀ m ∈ s.spool.message, m.size = message.size
  read : ∀ w, ∀ worker ∈ s.workers w, worker.wrapper.message.size = message.size

section

variable {message : Message} {counters : Counters} {s s' : Deliveries}

theorem QuotasKept.settled (h : QuotasKept message counters s) : QuotasSettled message counters s where
  once := (List.sublist_append_left _ _).subperm.trans h.keys.subperm
  gone hnone := by
    have hkeys : s.storedKeys = [] := by
      rw [storedKeys, hnone]
      rfl
    refine ⟨?_, funext fun quota => ?_⟩
    · have hperm := h.keys
      rwa [hkeys, List.append_nil] at hperm
    · rw [h.counters, hkeys, quotaTotal_nil, add_zero]
  floor quota := by
    have hnonneg := @quotaTotal_nonneg message.size s.storedKeys quota
    rw [h.counters]
    omega

theorem quotasKept_queue (message : Message) (counters : Counters) :
    QuotasKept message counters (.queue message counters) where
  keys := .refl _
  counters _ := Counters.reserve_apply ..
  stored _ hm := some.inj hm ▸ rfl
  read _ _ h := by cases h

theorem quotasKept_read {w : ℕ} {queueName : QueueName} {due : ℕ} (hs : QuotasKept message counters s)
    (h : s.step (.read w queueName due) = some s') : QuotasKept message counters s' := by
  obtain ⟨-, ⟨m, hm, rfl⟩ | ⟨hm, rfl⟩⟩ := step_read h
  · refine ⟨hs.keys, hs.counters, hs.stored, fun w' worker hw' => ?_⟩
    obtain ⟨-, rfl⟩ | ⟨-, hw'⟩ := mem_workers_read hw'
    · exact hs.stored m hm
    · exact hs.read w' worker hw'
  · exact ⟨hs.keys, hs.counters, hs.stored, hs.read⟩

theorem quotasKept_finish {w : ℕ} {env : Attempt} (hs : QuotasKept message counters s)
    (hk : s.KeepsQuotas (.finish w env)) (h : s.step (.finish w env) = some s') : QuotasKept message counters s' := by
  obtain ⟨worker, hw, -, rfl⟩ := step_finish h
  have hread := hs.read w worker hw
  have hkeep := hk worker hw
  obtain ⟨recipients, hattempt, -⟩ := rest_deliverTask env worker.wrapper.queueName worker.wrapper.message
  have hsize : (deliverTask env worker.wrapper.queueName worker.wrapper.message).message.size = message.size := by
    rw [hattempt]
    exact hread
  have hkeys : (deliverTask env worker.wrapper.queueName worker.wrapper.message).message.quotaKeys =
      worker.wrapper.message.quotaKeys := by
    rw [hattempt]
  generalize deliverTask env worker.wrapper.queueName worker.wrapper.message = attempted at hkeep hsize hkeys ⊢
  have hother : ∀ w', ∀ other ∈ Function.update s.workers w none w', other.wrapper.message.size = message.size :=
    fun w' other hother => hs.read w' other (mem_workers_finish hother).2
  have hperm := releaseQuota_perm attempted.message
  rw [hkeys] at hperm
  cases hfinish : finish s.spool worker attempted with
  | none => exact ⟨hs.keys, hs.counters, hs.stored, hother⟩
  | some spool' =>
    dsimp only [getD_some, isSome_some]
    obtain ⟨hf, hmulti, cur, merged, hcur, hmerge, rfl⟩ | ⟨hf, hmulti, rfl⟩ | ⟨hf, rfl⟩ := finish_eq_some hfinish
    · -- The keys stay in the record, so nothing may be released.
      rw [if_pos ⟨hf, hmulti⟩, hcur] at hkeep
      obtain hnone | hnil := hkeep
      · cases hnone
      obtain ⟨-, rfl⟩ := mergeMessage_eq_some hmerge
      have hstored : s.storedKeys = cur.quotaKeys := by
        rw [storedKeys, hcur]
        rfl
      have hrel : (Finished.mk worker attempted true).releasedKeys = [] := (Finished.releasedKeys_of_save hf).trans hnil
      refine ⟨?_, fun quota => ?_, fun m hm => ?_, hother⟩
      · rw [released_cons, hrel]
        have hkeysnow := hs.keys
        rw [hstored] at hkeysnow
        exact hkeysnow
      · rw [hnil]
        have hcount := hs.counters quota
        rw [hstored] at hcount
        exact hcount
      · obtain rfl := some.inj hm
        exact hs.stored cur hcur
    · -- The copy has the keys of the record but for those that it releases.
      rw [if_neg (fun hc => by rw [hmulti] at hc; exact Bool.false_ne_true hc.2)] at hkeep
      rw [hkeep] at hperm
      refine ⟨?_, fun quota => ?_, fun m hm => ?_, hother⟩
      · rw [released_cons, Finished.releasedKeys_of_save hf]
        have hswap : ((attempted.message.releaseQuota.1 ++ s.released) ++ attempted.message.releaseQuota.2.quotaKeys).Perm
            (s.released ++ (attempted.message.releaseQuota.1 ++ attempted.message.releaseQuota.2.quotaKeys)) := by
          rw [← List.append_assoc]
          exact List.perm_append_comm.append_right _
        exact hswap.trans ((hperm.append_left s.released).trans hs.keys)
      · have htotal := @quotaTotal_of_perm message.size _ _ quota hperm
        rw [quotaTotal_append] at htotal
        dsimp only
        rw [Counters.release_apply, hs.counters, hsize]
        show _ = counters quota + quotaTotal message.size attempted.message.releaseQuota.2.quotaKeys quota
        omega
      · obtain rfl := some.inj hm
        exact hsize
    · rw [if_neg (fun hc => by rw [hf] at hc; cases hc.1)] at hkeep
      refine ⟨?_, fun quota => ?_, (fun _ h => by cases h), hother⟩
      · rw [released_cons, Finished.releasedKeys_of_remove hf, hkeys, hkeep]
        show ((s.storedKeys ++ s.released) ++ []).Perm message.quotaKeys
        rw [List.append_nil]
        exact List.perm_append_comm.trans hs.keys
      · dsimp only
        rw [Counters.release_apply, hs.counters, hsize, hkeys, hkeep]
        show _ = counters quota + 0
        omega

theorem quotasKept_step (s : Deliveries) (action : Deliveries.Action) (s' : Deliveries)
    (hs : QuotasKept message counters s) (hk : s.KeepsQuotas action) (h : s.step action = some s') :
    QuotasKept message counters s' := by
  cases action with
  | read w queueName due => exact quotasKept_read hs h
  | finish w env => exact quotasKept_finish hs hk h

end

/-! ## A message of two queues -/

def quotaSample : Message :=
  let rcpt (address : String) (queue : QueueName) : Recipient :=
    ⟨address, ⟨5, 0⟩, ⟨90, 0⟩, .ttl 100, queue, .scheduled, ⟨false, false, false, true, false⟩⟩
  ⟨0, [], "s@a.example", [rcpt "x@b.example" "local", rcpt "y@c.example" "remote"], ⟨false, false, false, false⟩, none, 1,
    [.count [1] 1]⟩

/-- The attempt at 10 that delivers to a recipient. -/
def quotaAttempt (i : ℕ) : Attempt :=
  ⟨fun _ => ⟨[60], [600], .ttl 100, "remote"⟩, 10, 10, 10, 10, none, 10,
    [.account (.completed ⟨"mx", ⟨250, (2, 0, 0), "ok"⟩⟩) i], 10, 10, 10⟩

/-- The quotas of a message are settled throughout every run of steps that keep them. -/
theorem quotas_settled (message : Message) (counters : Counters) (actions : List Deliveries.Action)
    (h : Lib.Run.Each step Deliveries.KeepsQuotas (.queue message counters) actions) :
    Lib.Run.Always step (QuotasSettled message counters) (.queue message counters) actions :=
  (Lib.Run.always_of_each quotasKept_step (quotasKept_queue message counters) h).mono fun _ hs => hs.settled

/-- A worker that is alone with the message, whose only recipient it delivers to. -/
theorem quotas_settled_alone : Lib.Run.Always step
    (QuotasSettled { quotaSample with recipients := quotaSample.recipients.take 1 } fun _ => 0)
    (.queue { quotaSample with recipients := quotaSample.recipients.take 1 } fun _ => 0)
    [.read 0 "local" 5, .finish 0 (quotaAttempt 0)] := by
  refine quotas_settled _ _ _ fun s hs => ⟨trivial, fun s' hs' => ⟨?_, trivial⟩⟩
  obtain rfl := some.inj hs
  rintro worker hworker
  obtain rfl := some.inj hworker
  decide

/-- The worker of the first queue releases the key of its recipient, which stays in the record, so that the worker of the
second queue releases it again. -/
theorem not_quotas_settled : ¬ Lib.Run.Always step (QuotasSettled quotaSample fun _ => 0)
    (.queue quotaSample fun _ => 0)
    [.read 0 "local" 5, .finish 0 (quotaAttempt 0), .read 1 "remote" 5, .finish 1 (quotaAttempt 1)] := by
  have hrun : (Lib.Run.run step (.queue quotaSample fun _ => 0)
      [.read 0 "local" 5, .finish 0 (quotaAttempt 0), .read 1 "remote" 5, .finish 1 (quotaAttempt 1)]).map
      (fun s => s.spool.counters (.count [1])) = some (-1) := by decide
  intro h
  obtain ⟨s, hs, hcount⟩ := map_eq_some_iff.mp hrun
  have hfloor := (h.last hs).floor (.count [1])
  rw [hcount] at hfloor
  exact absurd hfloor (by decide)

end MailServer.Smtp
