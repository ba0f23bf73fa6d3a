import MailServer.Smtp.Queue.Workers

/-!
# Updates of the recipients

With one worker for each virtual queue, the recipients of a queue are its worker's.  What a worker makes of them gets into
the record by a merge or with the whole copy, and the merge goes by the queue that a recipient has after the attempt.

* `computed`: what the workers have made of each recipient, the last one that it belonged to.
* `UpdatesKept`: the record has just that, and every queue with a recipient to try has an event.
* `Deliveries.KeepsUpdates`: the steps that leave it so.
* `updates_kept`: runs of such steps.
-/

namespace MailServer.Smtp

open Option Deliveries

/-- Status, retries, expiry and queue. -/
structure Plan where
  status : Status
  retry : Schedule
  expires : QueueExpiry
  queue : QueueName
deriving DecidableEq

def Recipient.plan (rcpt : Recipient) : Plan := ⟨rcpt.status, rcpt.retry, rcpt.expires, rcpt.queue⟩

/-- The plan of a recipient after the workers of a log, the latest first: a worker whose batch is stored determines it for
the recipients that are its own. -/
def computed (initial : Message) : List Finished → ℕ → Option Plan
  | [], i => initial.recipients[i]?.map (·.plan)
  | f :: log, i =>
    if f.saved = true ∧ f.worker.Owns i ∧
        (computed initial log i).map (·.queue) = some f.worker.wrapper.queueName then
      f.attempted.message.recipients[i]?.map (·.plan)
    else computed initial log i

structure UpdatesKept (initial : Message) (s : Deliveries) : Prop where
  stored : ∀ message ∈ s.spool.message, ∀ i, message.recipients[i]?.map (·.plan) = computed initial s.log i
  gone : s.spool.message = none → ∀ i, ∀ plan ∈ computed initial s.log i, plan.status.isPending = false
  events : ∀ message ∈ s.spool.message, ∀ rcpt ∈ message.recipients, rcpt.isPending = true →
    ∃ due, (due, rcpt.queue) ∈ s.spool.events

namespace Deliveries

/-- The recipients of the worker stay in its queue.  For a recipient that has come into the queue since, there is an event
besides the one that the worker deletes, or the worker has a recipient to try itself. -/
def MergeKeeps (s : Deliveries) (worker : Worker) (attempted : Attempted) : Prop :=
  (∀ i, worker.Owns i → ∀ rcpt ∈ attempted.message.recipients[i]?, rcpt.queue = worker.wrapper.queueName) ∧
  ∀ message ∈ s.spool.message, ∀ i, ¬ worker.Owns i → ∀ rcpt ∈ message.recipients[i]?, rcpt.isPending = true →
    rcpt.queue = worker.wrapper.queueName → (∃ due, due ≠ worker.due ∧ (due, rcpt.queue) ∈ s.spool.events) ∨
      ∃ own ∈ attempted.message.recipients, own.isPending = true ∧ own.queue = rcpt.queue

/-- The record has the other recipients as the worker has them. -/
def SaveKeeps (s : Deliveries) (worker : Worker) (attempted : Attempted) : Prop :=
  ∃ message, s.spool.message = some message ∧ ∀ i, ¬ worker.Owns i →
    attempted.message.recipients[i]?.map (·.plan) = message.recipients[i]?.map (·.plan)

/-- The record has no other recipients that are still to be tried. -/
def RemoveKeeps (s : Deliveries) (worker : Worker) : Prop :=
  ∀ message ∈ s.spool.message, ∀ i, ¬ worker.Owns i → ∀ rcpt ∈ message.recipients[i]?, rcpt.isPending = false

/-- One worker for each queue, and conditions on what it writes. -/
def KeepsUpdates (s : Deliveries) : Action → Prop
  | .read _ queueName _ => s.StartsAlone queueName
  | .finish w env => ∀ worker ∈ s.workers w,
    let attempted := deliverTask env worker.wrapper.queueName worker.wrapper.message
    match attempted.finish, worker.wrapper.isMultiQueue with
    | .save, true => s.MergeKeeps worker attempted
    | .save, false => s.SaveKeeps worker attempted
    | .remove, _ => s.RemoveKeeps worker

end Deliveries

/-! ## Computed plans -/

section

variable {initial : Message} {worker : Worker} {attempted : Attempted} {log : List Finished} {i : ℕ}

theorem computed_failed : computed initial (⟨worker, attempted, false⟩ :: log) i = computed initial log i := by
  rw [computed, if_neg fun h => Bool.false_ne_true h.1]

theorem computed_other (h : ¬ worker.Owns i) {saved : Bool} :
    computed initial (⟨worker, attempted, saved⟩ :: log) i = computed initial log i := by
  rw [computed, if_neg fun hc => h hc.2.1]

theorem computed_own (h : worker.Owns i) {plan : Plan} (hplan : computed initial log i = some plan)
    (hqueue : plan.queue = worker.wrapper.queueName) :
    computed initial (⟨worker, attempted, true⟩ :: log) i = attempted.message.recipients[i]?.map (·.plan) := by
  rw [computed, if_pos ⟨rfl, h, by rw [hplan, ← hqueue]; rfl⟩]

theorem computed_elsewhere {saved : Bool} {plan : Plan} (hplan : computed initial log i = some plan)
    (hqueue : plan.queue ≠ worker.wrapper.queueName) :
    computed initial (⟨worker, attempted, saved⟩ :: log) i = some plan := by
  rw [computed, if_neg, hplan]
  rintro ⟨-, -, h⟩
  rw [hplan] at h
  exact hqueue (some.inj h)

end

/-! ## Steps -/

/-- The workers have their recipients as the last one before them has left them. -/
structure WorkersCurrent (initial : Message) (s : Deliveries) : Prop where
  own : ∀ w, ∀ worker ∈ s.workers w, ∀ i, ∀ rcpt ∈ worker.wrapper.message.recipients[i]?,
    rcpt.queue = worker.wrapper.queueName → computed initial s.log i = some rcpt.plan
  apart : s.Apart

structure UpdatesInv (initial : Message) (s : Deliveries) : Prop extends UpdatesKept initial s, WorkersCurrent initial s

section

variable {initial : Message} {s s' : Deliveries}

theorem exists_event_of_pending {message : Message} {rcpt : Recipient} (hmem : rcpt ∈ message.recipients)
    (hpending : rcpt.isPending = true) : ∃ due, (due, rcpt.queue) ∈ message.eventKeys := by
  obtain ⟨due, hdue⟩ := Message.exists_nextEvent.mpr ⟨rcpt, hmem, hpending, rfl⟩
  exact ⟨due, mem_eventKeys.mpr hdue⟩

theorem updatesInv_queue (message : Message) (counters : Counters) : UpdatesInv message (.queue message counters) where
  stored _ hm _ := some.inj hm ▸ rfl
  gone h := by cases h
  events m hm rcpt hmem hpending := by
    obtain rfl := some.inj hm
    exact exists_event_of_pending hmem hpending
  own _ _ h := by cases h
  apart _ _ _ _ h := by cases h

theorem updatesInv_read {w : ℕ} {queueName : QueueName} {due : ℕ} (hs : UpdatesInv initial s)
    (hk : s.KeepsUpdates (.read w queueName due)) (h : s.step (.read w queueName due) = some s') :
    UpdatesInv initial s' := by
  obtain ⟨-, ⟨m, hm, rfl⟩ | ⟨hm, rfl⟩⟩ := step_read h
  · refine ⟨⟨hs.stored, hs.gone, hs.events⟩, ⟨fun w' worker hw' i rcpt hrcpt hqueue => ?_, apart_read hs.apart hk⟩⟩
    obtain ⟨-, rfl⟩ | ⟨-, hw'⟩ := mem_workers_read hw'
    · rw [← hs.stored m hm i, show m.recipients[i]? = some rcpt from hrcpt]
      rfl
    · exact hs.own w' worker hw' i rcpt hrcpt hqueue
  · refine ⟨⟨fun m' hm' => ?_, fun _ => hs.gone hm, fun m' hm' => ?_⟩, ⟨hs.own, hs.apart⟩⟩
    · rw [hm] at hm'
      cases hm'
    · rw [hm] at hm'
      cases hm'

theorem updatesInv_finish {w : ℕ} {env : Attempt} (hs : UpdatesInv initial s) (hk : s.KeepsUpdates (.finish w env))
    (h : s.step (.finish w env) = some s') : UpdatesInv initial s' := by
  obtain ⟨worker, hw, hrouted, rfl⟩ := step_finish h
  have hkeep := hk worker hw
  dsimp only at hkeep
  have hstay := fun i (hi : ¬ worker.Owns i) rcpt => @queue_deliverTask_of_not_owns env worker i hrouted hi rcpt
  have hsettled := @settled_of_remove env worker.wrapper.queueName worker.wrapper.message
  generalize deliverTask env worker.wrapper.queueName worker.wrapper.message = attempted at hkeep hstay hsettled ⊢
  -- Its own recipients are as the worker has read them.
  have hown : ∀ i, worker.Owns i →
      computed initial (⟨worker, attempted, true⟩ :: s.log) i = attempted.message.recipients[i]?.map (·.plan) := by
    rintro i ⟨rcpt, hrcpt, hqueue⟩
    exact computed_own ⟨rcpt, hrcpt, hqueue⟩ (hs.own w worker hw i rcpt hrcpt hqueue) hqueue
  have hcurrent : ∀ saved, WorkersCurrent initial ⟨s.spool, Function.update s.workers w none,
      ⟨worker, attempted, saved⟩ :: s.log⟩ := by
    refine fun saved => ⟨fun w' worker' hw' i rcpt hrcpt hqueue => ?_, apart_finish hs.apart _ _⟩
    obtain ⟨hne, hin⟩ := mem_workers_finish hw'
    refine computed_elsewhere (hs.own w' worker' hin i rcpt hrcpt hqueue) ?_
    show rcpt.queue ≠ worker.wrapper.queueName
    rw [hqueue]
    exact hs.apart w' w hne worker' hin worker hw
  cases hfinish : finish s.spool worker attempted with
  | none =>
    refine ⟨⟨fun m hm i => ?_, fun hnone i => ?_, hs.events⟩, hcurrent false⟩
    · exact (hs.stored m hm i).trans computed_failed.symm
    · exact hs.gone hnone i
  | some spool' =>
    refine ⟨?_, ⟨(hcurrent true).own, (hcurrent true).apart⟩⟩
    dsimp only [isSome_some]
    obtain ⟨hf, hmulti, cur, merged, hcur, hmerge, rfl⟩ | ⟨hf, hmulti, rfl⟩ | ⟨hf, rfl⟩ := finish_eq_some hfinish
    · rw [hf, hmulti] at hkeep
      obtain ⟨hleave, hevent⟩ := hkeep
      have hmerged := getElem?_merged hmerge
      have hforeign : ∀ i, ¬ worker.Owns i → merged.recipients[i]? = cur.recipients[i]? :=
        fun i hi => (hmerged i).2 fun rcpt hrcpt => hstay i hi rcpt hrcpt
      have hmine : ∀ i, worker.Owns i → merged.recipients[i]? = attempted.message.recipients[i]? := by
        intro i hi
        cases hnew : attempted.message.recipients[i]? with
        | some rcpt => exact (hmerged i).1 rcpt hnew (hleave i hi rcpt hnew)
        | none =>
          refine ((hmerged i).2 fun rcpt hrcpt => absurd (hnew.symm.trans hrcpt) nofun).trans ?_
          have hlen := (mergeMessage_eq_some hmerge).1
          rw [List.getElem?_eq_none_iff] at hnew ⊢
          exact hlen ▸ hnew
      refine ⟨fun m hm i => ?_, (fun h => by cases h), fun m hm rcpt hmem hpending => ?_⟩
      · obtain rfl := some.inj hm
        by_cases hi : worker.Owns i
        · rw [hown i hi, hmine i hi]
        · rw [computed_other hi, hforeign i hi]
          exact hs.stored cur hcur i
      · obtain rfl := some.inj hm
        obtain ⟨i, hrcpt⟩ := List.mem_iff_getElem?.mp hmem
        by_cases hi : worker.Owns i
        · rw [hmine i hi] at hrcpt
          obtain ⟨due, hdue⟩ := @exists_event_of_pending attempted.message rcpt (List.mem_of_getElem? hrcpt) hpending
          exact ⟨due, Finset.mem_union_right _ hdue⟩
        · rw [hforeign i hi] at hrcpt
          -- The event that the worker deletes may be one of this recipient's queue.
          by_cases hqueue : rcpt.queue = worker.wrapper.queueName
          · obtain ⟨due, hne, hdue⟩ | ⟨own, hown, hp, hq⟩ := hevent cur hcur i hi rcpt hrcpt hpending hqueue
            · exact ⟨due, Finset.mem_union_left _
                (Finset.mem_erase.mpr ⟨fun heq => hne (congrArg Prod.fst heq), hdue⟩)⟩
            · obtain ⟨due, hdue⟩ := exists_event_of_pending hown hp
              exact ⟨due, Finset.mem_union_right _ (hq ▸ hdue)⟩
          · obtain ⟨due, hdue⟩ := hs.events cur hcur rcpt (List.mem_of_getElem? hrcpt) hpending
            exact ⟨due, Finset.mem_union_left _
              (Finset.mem_erase.mpr ⟨fun heq => hqueue (congrArg Prod.snd heq), hdue⟩)⟩
    · rw [hf, hmulti] at hkeep
      obtain ⟨cur, hcur, hsame⟩ := hkeep
      refine ⟨fun m hm i => ?_, (fun h => by cases h), fun m hm rcpt hmem hpending => ?_⟩
      · obtain rfl := some.inj hm
        by_cases hi : worker.Owns i
        · exact (hown i hi).symm
        · rw [computed_other hi, ← hs.stored cur hcur i, ← hsame i hi]
          rfl
      · obtain rfl := some.inj hm
        obtain ⟨due, hdue⟩ := @exists_event_of_pending attempted.message rcpt hmem hpending
        exact ⟨due, Finset.mem_union_right _ hdue⟩
    · rw [hf] at hkeep
      refine ⟨(fun _ h => by cases h), fun _ i plan hplan => ?_, fun _ h => by cases h⟩
      by_cases hi : worker.Owns i
      · rw [hown i hi] at hplan
        obtain ⟨rcpt, hrcpt, rfl⟩ := map_eq_some_iff.mp hplan
        exact hsettled hf (List.mem_of_getElem? hrcpt)
      · rw [computed_other hi] at hplan
        cases hstored : s.spool.message with
        | none => exact hs.gone hstored i plan hplan
        | some cur =>
          rw [← hs.stored cur hstored i] at hplan
          obtain ⟨rcpt, hrcpt, rfl⟩ := map_eq_some_iff.mp hplan
          exact hkeep cur hstored i hi rcpt hrcpt

theorem updatesInv_step (s : Deliveries) (action : Deliveries.Action) (s' : Deliveries) (hs : UpdatesInv initial s)
    (hk : s.KeepsUpdates action) (h : s.step action = some s') : UpdatesInv initial s' := by
  cases action with
  | read w queueName due => exact updatesInv_read hs hk h
  | finish w env => exact updatesInv_finish hs hk h

end

/-! ## A recipient that changes its queue -/

def updateSample : Message :=
  let rcpt (address : String) (queue : QueueName) : Recipient :=
    ⟨address, ⟨5, 0⟩, ⟨90, 0⟩, .ttl 100, queue, .scheduled, ⟨false, false, false, true, false⟩⟩
  ⟨0, [], "s@a.example", [rcpt "x@b.example" "local", rcpt "y@c.example" "remote"], ⟨false, false, false, false⟩, none, 1, []⟩

/-- An attempt at 10 in which the first recipient is put off. -/
def updateAttempt (virtualQueue : QueueName) : Attempt :=
  ⟨fun _ => ⟨[60], [600], .ttl 100, virtualQueue⟩, 10, 10, 10, 10, none, 10,
    [.account (.temporaryFailure ⟨"mx", .rateLimited⟩) 0], 10, 10, 10⟩

/-- No update of a recipient is lost, and none waits without an event, throughout every run of steps that keep them. -/
theorem updates_kept (message : Message) (counters : Counters) (actions : List Deliveries.Action)
    (h : Lib.Run.Each step Deliveries.KeepsUpdates (.queue message counters) actions) :
    Lib.Run.Always step (UpdatesKept message) (.queue message counters) actions :=
  (Lib.Run.always_of_each updatesInv_step (updatesInv_queue message counters) h).mono fun _ hs => hs.toUpdatesKept

/-- The first worker puts its recipient off, and keeps it in its queue. -/
theorem updates_kept_local : Lib.Run.Always step (UpdatesKept updateSample) (.queue updateSample fun _ => 0)
    [.read 0 "local" 5, .finish 0 (updateAttempt "local")] := by
  refine updates_kept _ _ _ fun s hs => ⟨(fun _ _ h => by cases h), fun s' hs' => ⟨?_, trivial⟩⟩
  obtain rfl := some.inj hs
  rintro worker hworker
  obtain rfl := some.inj hworker
  refine ⟨fun i hi rcpt hrcpt => ?_, fun m hm i hi rcpt hrcpt hp hq => ?_⟩
  · match i with
    | 0 =>
      obtain rfl := some.inj hrcpt
      decide
    | 1 => exact absurd hi (by decide)
    | i + 2 => cases hrcpt
  · obtain rfl := some.inj hm
    match i with
    | 0 => exact absurd (by decide) hi
    | 1 =>
      obtain rfl := some.inj hrcpt
      exact absurd hq (by decide)
    | i + 2 => cases hrcpt

/-- The worker moves its recipient to a slower queue, which the merge leaves out: the record still has the recipient as it
was, and there is no event for it. -/
theorem not_updates_kept : ¬ Lib.Run.Always step (UpdatesKept updateSample) (.queue updateSample fun _ => 0)
    [.read 0 "local" 5, .finish 0 (updateAttempt "slow")] := by
  have hrun : (Lib.Run.run step (.queue updateSample fun _ => 0)
      [.read 0 "local" 5, .finish 0 (updateAttempt "slow")]).map (fun s =>
        s.spool.message.any fun m => m.recipients[0]?.map (·.plan) ≠ computed updateSample s.log 0) = some true := by
    decide
  intro h
  obtain ⟨s, hs, hlost⟩ := map_eq_some_iff.mp hrun
  obtain ⟨m, hm, hne⟩ := (Option.any_eq_true ..).mp hlost
  exact of_decide_eq_true hne ((h.last hs).stored m hm 0)

end MailServer.Smtp
