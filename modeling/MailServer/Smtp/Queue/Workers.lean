import MailServer.Lib.Run
import MailServer.Smtp.Outbound.Attempt

/-!
# The workers of a message

A message may be in several virtual queues at once, and each of them lets a worker attempt to deliver it.  A worker reads
the record, works on its copy, and writes it back or removes it, while others do the same.

* `Deliveries`: the spool, the workers that have read the message, and those that have finished.
* `Deliveries.step`: a worker reads the message, or finishes.
-/

namespace MailServer.Smtp

open Option Function

structure Worker where
  wrapper : MessageWrapper
  due : ℕ

/-- The recipient was in the worker's queue when the worker read the message. -/
def Worker.Owns (worker : Worker) (i : ℕ) : Prop :=
  ∃ rcpt, worker.wrapper.message.recipients[i]? = some rcpt ∧ rcpt.queue = worker.wrapper.queueName

instance (worker : Worker) (i : ℕ) : Decidable (worker.Owns i) :=
  decidable_of_iff ((worker.wrapper.message.recipients[i]?).any (·.queue == worker.wrapper.queueName) = true) <| by
    simp only [Option.any_eq_true, beq_iff_eq]
    rfl

/-- A worker that has finished: its copy, what it has made of it, and whether that is stored. -/
structure Finished where
  worker : Worker
  attempted : Attempted
  saved : Bool

structure Deliveries where
  spool : Spool
  workers : ℕ → Option Worker
  /-- the latest first -/
  log : List Finished

namespace Deliveries

/-- A message that has just been queued. -/
def queue (message : Message) (counters : Counters) : Deliveries := ⟨.queue message counters, fun _ => none, []⟩

inductive Action where
  | read (w : ℕ) (queueName : QueueName) (due : ℕ)
  | finish (w : ℕ) (env : Attempt)

/-- The end of `deliver_task`. -/
def finish (s : Spool) (worker : Worker) (attempted : Attempted) : Option Spool :=
  let wrapper := { worker.wrapper with message := attempted.message }
  match attempted.finish with
  | .save => wrapper.saveChanges (some worker.due) s
  | .remove => some (wrapper.remove (some worker.due) s)

/-- The event of a message that is gone is deleted.  A batch that fails leaves the spool as it is. -/
def step (s : Deliveries) : Action → Option Deliveries
  | .read w queueName due =>
    if (s.workers w).isSome then none
    else
      match s.spool.message with
      | some message => some { s with workers := update s.workers w (some ⟨.new message queueName, due⟩) }
      | none => some { s with spool := { s.spool with events := s.spool.events.erase (due, queueName) } }
  | .finish w env =>
    (s.workers w).bind fun worker =>
      if env.routed worker.wrapper.queueName worker.wrapper.message then
        let attempted := deliverTask env worker.wrapper.queueName worker.wrapper.message
        let saved := finish s.spool worker attempted
        some ⟨saved.getD s.spool, update s.workers w none, ⟨worker, attempted, saved.isSome⟩ :: s.log⟩
      else none

/-- There is one worker for each queue. -/
def Apart (s : Deliveries) : Prop :=
  ∀ w w', w ≠ w' → ∀ worker ∈ s.workers w, ∀ worker' ∈ s.workers w', worker.wrapper.queueName ≠ worker'.wrapper.queueName

/-- A worker starts only if its queue has none. -/
def StartsAlone (s : Deliveries) (queueName : QueueName) : Prop :=
  ∀ w, ∀ worker ∈ s.workers w, worker.wrapper.queueName ≠ queueName

/-! ## Steps -/

section

variable {s s' : Deliveries} {w : ℕ}

theorem step_read {queueName : QueueName} {due : ℕ} (h : s.step (.read w queueName due) = some s') : s.workers w = none ∧
    ((∃ message, s.spool.message = some message ∧
        s' = { s with workers := update s.workers w (some ⟨.new message queueName, due⟩) }) ∨
      s.spool.message = none ∧
        s' = { s with spool := { s.spool with events := s.spool.events.erase (due, queueName) } }) := by
  rw [step] at h
  split_ifs at h with hw
  refine ⟨not_isSome_iff_eq_none.mp hw, ?_⟩
  cases hm : s.spool.message with
  | some message =>
    rw [hm] at h
    exact .inl ⟨message, rfl, (some.inj h).symm⟩
  | none =>
    rw [hm] at h
    exact .inr ⟨rfl, (some.inj h).symm⟩

theorem step_finish {env : Attempt} (h : s.step (.finish w env) = some s') : ∃ worker, s.workers w = some worker ∧
    env.routed worker.wrapper.queueName worker.wrapper.message = true ∧
    s' = ⟨(finish s.spool worker (deliverTask env worker.wrapper.queueName worker.wrapper.message)).getD s.spool,
      update s.workers w none,
      ⟨worker, deliverTask env worker.wrapper.queueName worker.wrapper.message,
        (finish s.spool worker (deliverTask env worker.wrapper.queueName worker.wrapper.message)).isSome⟩ :: s.log⟩ := by
  obtain ⟨worker, hw, h⟩ := bind_eq_some_iff.mp h
  split_ifs at h with hrouted
  exact ⟨worker, hw, hrouted, (some.inj h).symm⟩

variable {worker : Worker} {attempted : Attempted}

theorem finish_eq_some {spool spool' : Spool} (h : finish spool worker attempted = some spool') :
    (attempted.finish = .save ∧ worker.wrapper.isMultiQueue = true ∧ ∃ cur merged, spool.message = some cur ∧
      mergeMessage worker.wrapper.queueName attempted.message.releaseQuota.2 cur = some merged ∧
      spool' = ⟨some merged, spool.events.erase (worker.due, worker.wrapper.queueName) ∪ attempted.message.eventKeys,
        spool.counters.release attempted.message.size attempted.message.releaseQuota.1⟩) ∨
    (attempted.finish = .save ∧ worker.wrapper.isMultiQueue = false ∧
      spool' = ⟨some attempted.message.releaseQuota.2,
        spool.events.erase (worker.due, worker.wrapper.queueName) ∪ attempted.message.eventKeys,
        spool.counters.release attempted.message.size attempted.message.releaseQuota.1⟩) ∨
    (attempted.finish = .remove ∧
      spool' = ⟨none, spool.events.erase (worker.due, worker.wrapper.queueName),
        spool.counters.release attempted.message.size attempted.message.quotaKeys⟩) := by
  rw [finish] at h
  dsimp only at h
  cases hf : attempted.finish with
  | remove =>
    rw [hf] at h
    exact .inr (.inr ⟨rfl, (some.inj h).symm⟩)
  | save =>
    rw [hf] at h
    cases hm : worker.wrapper.isMultiQueue with
    | false =>
      rw [hm] at h
      exact .inr (.inl ⟨rfl, rfl, (some.inj h).symm⟩)
    | true =>
      rw [hm] at h
      obtain ⟨merged, hmerged, rfl⟩ := map_eq_some_iff.mp h
      obtain ⟨cur, hcur, hmerge⟩ := bind_eq_some_iff.mp hmerged
      exact .inl ⟨rfl, rfl, cur, merged, hcur, hmerge, rfl⟩

theorem finish_eq_none {spool : Spool}
    (h : finish spool worker attempted = none) : ∀ cur ∈ spool.message,
      mergeMessage worker.wrapper.queueName attempted.message.releaseQuota.2 cur = none := by
  intro cur hcur
  rw [finish] at h
  cases hf : attempted.finish with
  | remove =>
    rw [hf] at h
    cases h
  | save =>
    rw [hf] at h
    dsimp only [MessageWrapper.saveChanges] at h
    split_ifs at h with hm
    rw [map_eq_none_iff, mem_def.mp hcur] at h
    exact h

theorem mem_workers_finish {w' : ℕ} (h : worker ∈ update s.workers w none w') :
    w' ≠ w ∧ worker ∈ s.workers w' := by
  by_cases hw : w' = w
  · subst hw
    rw [update_self] at h
    cases h
  · rw [update_of_ne hw] at h
    exact ⟨hw, h⟩

theorem mem_workers_read {w' : ℕ} {new : Worker}
    (h : worker ∈ update s.workers w (some new) w') :
    w' = w ∧ worker = new ∨ w' ≠ w ∧ worker ∈ s.workers w' := by
  by_cases hw : w' = w
  · subst hw
    rw [update_self] at h
    exact .inl ⟨rfl, (some.inj h).symm⟩
  · rw [update_of_ne hw] at h
    exact .inr ⟨hw, h⟩

theorem apart_finish (hs : s.Apart) (spool : Spool) (log : List Finished) :
    Apart ⟨spool, update s.workers w none, log⟩ :=
  fun w₁ w₂ hne worker₁ h₁ worker₂ h₂ =>
    hs w₁ w₂ hne worker₁ (mem_workers_finish h₁).2 worker₂ (mem_workers_finish h₂).2

theorem apart_read {new : Worker} (hs : s.Apart) (halone : s.StartsAlone new.wrapper.queueName) :
    Apart { s with workers := update s.workers w (some new) } := by
  intro w₁ w₂ hne worker₁ h₁ worker₂ h₂
  obtain ⟨rfl, rfl⟩ | ⟨-, hold₁⟩ := mem_workers_read h₁
  · obtain ⟨rfl, -⟩ | ⟨-, hold₂⟩ := mem_workers_read h₂
    · exact absurd rfl hne
    · exact (halone w₂ worker₂ hold₂).symm
  · obtain ⟨rfl, rfl⟩ | ⟨-, hold₂⟩ := mem_workers_read h₂
    · exact halone w₁ worker₁ hold₁
    · exact hs w₁ w₂ hne worker₁ hold₁ worker₂ hold₂

end

end Deliveries

theorem queue_deliverTask_of_not_owns {env : Attempt} {worker : Worker} {i : ℕ}
    (hrouted : env.routed worker.wrapper.queueName worker.wrapper.message = true) (hi : ¬ worker.Owns i) {rcpt : Recipient}
    (h : (deliverTask env worker.wrapper.queueName worker.wrapper.message).message.recipients[i]? = some rcpt) :
    rcpt.queue ≠ worker.wrapper.queueName := by
  obtain ⟨recipients, hattempt, hlen⟩ := rest_deliverTask env worker.wrapper.queueName worker.wrapper.message
  have hlt : i < worker.wrapper.message.recipients.length := by
    obtain ⟨hlt, -⟩ := List.getElem?_eq_some_iff.mp h
    rw [hattempt] at hlt
    exact hlen ▸ hlt
  have hbefore := List.getElem?_eq_getElem hlt
  have hne : worker.wrapper.message.recipients[i].queue ≠ worker.wrapper.queueName := fun hq => hi ⟨_, hbefore, hq⟩
  obtain ⟨rcpt', h', hsame⟩ := getElem?_deliverTask_of_other hrouted hbefore (.inr hne)
  obtain rfl := some.inj (h.symm.trans h')
  intro hq
  refine hne (Eq.trans ?_ hq)
  rw [hsame]
  exact (expire_kept ..).2.symm

end MailServer.Smtp
