import MailServer.Smtp.Outbound.Deliver
import MailServer.Smtp.Queue.Dsn
import MailServer.Smtp.Queue.Spool

/-!
# Delivery attempts (`smtp/src/outbound/delivery.rs`)

What a worker does with its copy of a message: it gives up the recipients whose time is over, tells the sender, delivers
to the recipients of its queue that are due, tells the sender again, and finally saves or removes the message.

* `Message.hasPendingDelivery`: the recipients that are given up.
* `Attempt`: what an attempt depends on besides the message.
* `deliverTask`: the attempt.
* `Recipient.Kept`: what happens to the recipients that are not the worker's.
-/

namespace MailServer.Smtp

open List

inductive PendingDelivery where
  | yes (matchesQueue : Bool)
  | no
deriving DecidableEq

/-- `has_pending_delivery`, for one recipient. -/
def Recipient.expire (created now : ℕ) (rcpt : Recipient) : Recipient :=
  if rcpt.isExpired created now then
    match rcpt.status with
    | .temporaryFailure _ => { rcpt with status := rcpt.status.intoPermanent }
    | .scheduled =>
      { rcpt with
        status := .permanentFailure ⟨rcpt.domainPart, .io "Message expired without any delivery attempts made."⟩ }
    | .completed _ | .permanentFailure _ => rcpt
  else rcpt

open Recipient

namespace Message

def expire (now : ℕ) (message : Message) : Message :=
  { message with recipients := message.recipients.map (Recipient.expire message.created now) }

def hasPendingDelivery (queueName : QueueName) (now : ℕ) (message : Message) : Message × PendingDelivery :=
  let message := message.expire now
  (message,
    if message.recipients.any (·.isPending) then
      .yes (message.recipients.any fun rcpt => rcpt.isPending && rcpt.queue == queueName)
    else .no)

/-- `deliver_task`, the throttling of the sender. -/
def throttle (queueName : QueueName) (retryAt now : ℕ) (message : Message) : Message :=
  { message with recipients := message.recipients.map fun rcpt =>
      if rcpt.isPending = true ∧ rcpt.retry.due ≤ now ∧ rcpt.queue = queueName then rcpt.setRateLimit retryAt else rcpt }

end Message

def DeliveryResult.rcptIdxs : DeliveryResult → List ℕ
  | .domain _ rcptIdxs | .rateLimited rcptIdxs _ => rcptIdxs
  | .account _ rcptIdx => [rcptIdx]

/-! ## Attempts -/

/-- The configuration, the clock at each reading, the time for the next try if the sender is throttled, and the results
of the deliveries. -/
structure Attempt where
  config : QueueConfig
  pendingAt : ℕ
  builtAt : ℕ
  updatedAt : ℕ
  dueAt : ℕ
  throttled : Option (ℕ × ℕ)
  routedAt : ℕ
  results : List DeliveryResult
  appliedAt : ℕ
  rebuiltAt : ℕ
  reupdatedAt : ℕ

inductive Finish where
  | save
  | remove
deriving DecidableEq

structure Attempted where
  message : Message
  finish : Finish
  /-- for every notification, what it reports of each recipient -/
  reports : List (List (Option Report))

namespace Attempt

variable (env : Attempt) (queueName : QueueName) (message : Message)

/-- The message after the first notification. -/
def notified : Message × List (Option Report) :=
  (message.expire env.pendingAt).sendDsn env.config env.builtAt env.updatedAt

/-- The message after the second notification. -/
def delivered : Message × List (Option Report) :=
  (applyResults env.config env.appliedAt (env.notified message).1 env.results).sendDsn env.config env.rebuiltAt
    env.reupdatedAt

/-- Results are about recipients that are grouped by route: those of the queue that are due. -/
def routed : Bool :=
  env.results.all fun result => result.rcptIdxs.all fun i => ((env.notified message).1.recipients[i]?).any fun rcpt =>
    rcpt.isPending && decide (rcpt.retry.due ≤ env.routedAt) && rcpt.queue == queueName

/-- The recipients of the queue have to be tried now. -/
def isDue : Bool :=
  (message.hasPendingDelivery queueName env.pendingAt).2 == .yes true &&
    ((env.notified message).1.nextDeliveryEvent (some queueName)).any (· ≤ env.dueAt)

end Attempt

def deliverTask (env : Attempt) (queueName : QueueName) (message : Message) : Attempted :=
  let (notified, reports) := env.notified message
  if env.isDue queueName message then
    match env.throttled with
    | some (retryAt, now) => ⟨notified.throttle queueName retryAt now, .save, [reports]⟩
    | none =>
      let (delivered, reports') := env.delivered message
      ⟨delivered, if (delivered.nextEvent none).isSome then .save else .remove, [reports, reports']⟩
  else if (message.hasPendingDelivery queueName env.pendingAt).2 = .no then ⟨notified, .remove, [reports]⟩
  else ⟨notified, .save, [reports]⟩

/-- What a notification reports of a recipient, if it is final. -/
def finalReport (sent : List (Option Report)) (i : ℕ) : Option Report := ((sent[i]?).join).filter (·.isFinal)

def Attempted.finals (attempted : Attempted) (i : ℕ) : List Report :=
  attempted.reports.filterMap fun sent => finalReport sent i

/-! ## What results change -/

section

variable {config : QueueConfig} {now : ℕ} {message : Message} {results : List DeliveryResult}

theorem applyResults_induction {P : Message → Prop} (h : P message)
    (hstatus : ∀ m status i, i ∈ results.flatMap (·.rcptIdxs) → P m → P (m.setRcptStatus config now status i))
    (hlimit : ∀ m i retryAt, i ∈ results.flatMap (·.rcptIdxs) → P m → P (m.setRcptRateLimit i retryAt)) :
    P (applyResults config now message results) := by
  induction results generalizing message with
  | nil => exact h
  | cons result results ih =>
    have hmem : ∀ i ∈ result.rcptIdxs, i ∈ (result :: results).flatMap (·.rcptIdxs) :=
      fun i hi => mem_flatMap.mpr ⟨result, mem_cons_self, hi⟩
    have hrest : ∀ i ∈ results.flatMap (·.rcptIdxs), i ∈ (result :: results).flatMap (·.rcptIdxs) := by
      intro i hi
      obtain ⟨r, hr, hir⟩ := mem_flatMap.mp hi
      exact mem_flatMap.mpr ⟨r, mem_cons_of_mem _ hr, hir⟩
    refine ih ?_ (fun m status i hi => hstatus m status i (hrest i hi)) fun m i retryAt hi => hlimit m i retryAt (hrest i hi)
    cases result with
    | domain status idxs =>
      exact List.foldlRecOn idxs _ h fun m hm i hi => hstatus m status i (hmem i hi) hm
    | account status i => exact hstatus message status i (hmem i mem_cons_self) h
    | rateLimited idxs retryAt =>
      exact List.foldlRecOn idxs _ h fun m hm i hi => hlimit m i retryAt (hmem i hi) hm

theorem getElem?_applyResults_of_notMem {i : ℕ} (hi : i ∉ results.flatMap (·.rcptIdxs)) :
    (applyResults config now message results).recipients[i]? = message.recipients[i]? := by
  refine applyResults_induction (P := fun m => m.recipients[i]? = message.recipients[i]?) rfl ?_ ?_
  · intro m status j hj hm
    have hne : j ≠ i := fun h => hi (h ▸ hj)
    rw [Message.recipients_setRcptStatus, getElem?_modify_ne _ _ hne, hm]
  · intro m j retryAt hj hm
    have hne : j ≠ i := fun h => hi (h ▸ hj)
    rw [Message.recipients_setRcptRateLimit, getElem?_modify_ne _ _ hne, hm]

theorem map_modify_of_comp {α β : Type*} {f : α → α} {g : α → β} (h : ∀ a, g (f a) = g a) (l : List α) (i : ℕ) :
    (l.modify i f).map g = l.map g := by
  refine ext_getElem? fun j => ?_
  rw [getElem?_map, getElem?_map, getElem?_modify]
  cases l[j]? with
  | none => rfl
  | some a =>
    show some (g (if i = j then f a else a)) = some (g a)
    split_ifs
    · rw [h]
    · rfl

theorem flags_setStatus (status : Status) (rcpt : Recipient) : (rcpt.setStatus config now status).flags = rcpt.flags := by
  cases status <;> rfl

theorem flags_applyResults :
    (applyResults config now message results).recipients.map (·.flags) = message.recipients.map (·.flags) ∧
    ∃ recipients, applyResults config now message results = { message with recipients } := by
  refine applyResults_induction (P := fun m => m.recipients.map (·.flags) = message.recipients.map (·.flags) ∧
    ∃ recipients, m = { message with recipients }) ⟨rfl, _, rfl⟩ ?_ ?_
  · rintro m status i - ⟨hm, recipients, rfl⟩
    refine ⟨?_, _, rfl⟩
    rw [← hm]
    exact map_modify_of_comp (flags_setStatus status) ..
  · rintro m i retryAt - ⟨hm, recipients, rfl⟩
    refine ⟨?_, _, rfl⟩
    rw [← hm]
    exact map_modify_of_comp (f := fun rcpt : Recipient => rcpt.setRateLimit retryAt) (g := fun rcpt => rcpt.flags)
      (fun _ => rfl) ..

end

/-! ## What an attempt changes -/

theorem expire_kept (created now : ℕ) (rcpt : Recipient) :
    (rcpt.expire created now).flags = rcpt.flags ∧ (rcpt.expire created now).queue = rcpt.queue := by
  by_cases h : rcpt.isExpired created now = true
  · rw [expire, if_pos h]
    cases rcpt.status <;> exact ⟨rfl, rfl⟩
  · rw [expire, if_neg h]
    exact ⟨rfl, rfl⟩

theorem status_expire_ne_completed {created now : ℕ} {rcpt : Recipient} {response : HostResponse}
    (h : rcpt.isPending = true) : (rcpt.expire created now).status ≠ .completed response := by
  intro hcompleted
  rw [isPending] at h
  by_cases hexp : rcpt.isExpired created now = true
  · rw [expire, if_pos hexp] at hcompleted
    cases hs : rcpt.status with
    | completed _ | permanentFailure _ =>
      rw [hs] at h
      cases h
    | scheduled | temporaryFailure _ =>
      rw [hs] at hcompleted
      cases hcompleted
  · rw [expire, if_neg hexp] at hcompleted
    rw [hcompleted] at h
    cases h

theorem expire_of_settled {created now : ℕ} {rcpt : Recipient} (h : rcpt.isPending = false) :
    rcpt.expire created now = rcpt := by
  by_cases hexp : rcpt.isExpired created now = true
  · rw [expire, if_pos hexp]
    cases hs : rcpt.status with
    | completed _ | permanentFailure _ => rfl
    | scheduled | temporaryFailure _ =>
      rw [isPending, hs] at h
      cases h
  · rw [expire, if_neg hexp]

section

variable {env : Attempt} {queueName : QueueName} {message : Message} {i : ℕ}

theorem getElem?_sendDsn (config : QueueConfig) (builtAt updatedAt : ℕ) (message : Message) (i : ℕ) :
    (message.sendDsn config builtAt updatedAt).1.recipients[i]? = message.recipients[i]?.map
      (fun rcpt => (rcpt.sendDsn config message.created message.returnPath builtAt updatedAt).1) ∧
    (message.sendDsn config builtAt updatedAt).2[i]? = message.recipients[i]?.map
      fun rcpt => (rcpt.sendDsn config message.created message.returnPath builtAt updatedAt).2 := by
  rw [Message.sendDsn]
  simp only [getElem?_map, Option.map_map]
  exact ⟨rfl, rfl⟩

variable {rcpt : Recipient} {config : QueueConfig} {report : Report}

theorem getElem?_notified (h : message.recipients[i]? = some rcpt) :
    ∃ rcpt', (env.notified message).1.recipients[i]? = some rcpt' ∧
      (rcpt.expire message.created env.pendingAt).SameBut rcpt' := by
  have hexp : (message.expire env.pendingAt).recipients[i]? = some (rcpt.expire message.created env.pendingAt) := by
    rw [Message.expire, getElem?_map, h]
    rfl
  exact ⟨_, (getElem?_sendDsn ..).1.trans (by rw [hexp]; rfl), sameBut_sendDsn ..⟩

theorem notMem_results (hrouted : env.routed queueName message = true)
    (h : (env.notified message).1.recipients[i]? = some rcpt)
    (hother : rcpt.isPending = false ∨ rcpt.queue ≠ queueName) :
    i ∉ env.results.flatMap (·.rcptIdxs) := by
  intro hi
  obtain ⟨result, hresult, hi⟩ := mem_flatMap.mp hi
  have hall := all_eq_true.mp (all_eq_true.mp hrouted result hresult) i hi
  rw [h, Option.any_some, Bool.and_eq_true_iff, Bool.and_eq_true_iff, beq_iff_eq] at hall
  obtain hset | hne := hother
  · rw [hall.1.1] at hset
    cases hset
  · exact hne hall.2

theorem deliverTask_cases (env : Attempt) (queueName : QueueName) (message : Message) :
    (∃ retryAt now, deliverTask env queueName message =
      ⟨(env.notified message).1.throttle queueName retryAt now, .save, [(env.notified message).2]⟩) ∨
    (deliverTask env queueName message = ⟨(env.delivered message).1,
      if ((env.delivered message).1.nextEvent none).isSome then .save else .remove,
      [(env.notified message).2, (env.delivered message).2]⟩) ∨
    ((message.hasPendingDelivery queueName env.pendingAt).2 = .no ∧
      deliverTask env queueName message = ⟨(env.notified message).1, .remove, [(env.notified message).2]⟩) ∨
    deliverTask env queueName message = ⟨(env.notified message).1, .save, [(env.notified message).2]⟩ := by
  rw [deliverTask]
  dsimp only
  by_cases hdue : env.isDue queueName message = true
  · rw [if_pos hdue]
    cases env.throttled with
    | none => exact .inr (.inl rfl)
    | some t => exact .inl ⟨t.1, t.2, rfl⟩
  · rw [if_neg hdue]
    by_cases hno : (message.hasPendingDelivery queueName env.pendingAt).2 = .no
    · rw [if_pos hno]
      exact .inr (.inr (.inl ⟨hno, rfl⟩))
    · rw [if_neg hno]
      exact .inr (.inr (.inr rfl))

theorem getElem?_throttle {retryAt now : ℕ} (h : message.recipients[i]? = some rcpt) :
    (message.throttle queueName retryAt now).recipients[i]? =
      some (if rcpt.isPending = true ∧ rcpt.retry.due ≤ now ∧ rcpt.queue = queueName then rcpt.setRateLimit retryAt
        else rcpt) := by
  rw [Message.throttle, getElem?_map, h]
  rfl

theorem getElem?_deliverTask_of_other (hrouted : env.routed queueName message = true)
    (h : message.recipients[i]? = some rcpt)
    (hother : rcpt.isPending = false ∨ rcpt.queue ≠ queueName) :
    ∃ rcpt', (deliverTask env queueName message).message.recipients[i]? = some rcpt' ∧
      (rcpt.expire message.created env.pendingAt).SameBut rcpt' := by
  obtain ⟨rcpt', h', hsame⟩ := @getElem?_notified env _ _ _ h
  have hpending : rcpt'.isPending = (rcpt.expire message.created env.pendingAt).isPending := by rw [hsame]; rfl
  have hqueue : rcpt'.queue = rcpt.queue := by
    rw [← (expire_kept message.created env.pendingAt rcpt).2, hsame]
  have hother' : rcpt'.isPending = false ∨ rcpt'.queue ≠ queueName := by
    rw [hpending, hqueue]
    refine hother.imp_left fun hset => ?_
    rw [expire_of_settled hset]
    exact hset
  obtain ⟨retryAt, now, heq⟩ | heq | ⟨-, heq⟩ | heq := deliverTask_cases env queueName message <;> rw [heq]
  · refine ⟨rcpt', ?_, hsame⟩
    rw [getElem?_throttle h', if_neg]
    rintro ⟨hp, -, hq⟩
    obtain hset | hne := hother'
    · rw [hp] at hset
      cases hset
    · exact hne hq
  · have hresults := @getElem?_applyResults_of_notMem env.config env.appliedAt (env.notified message).1 _ _
      (notMem_results hrouted h' hother')
    rw [h'] at hresults
    exact ⟨_, (getElem?_sendDsn ..).1.trans (by rw [hresults]; rfl), hsame.trans (sameBut_sendDsn ..)⟩
  · exact ⟨rcpt', h', hsame⟩
  · exact ⟨rcpt', h', hsame⟩

theorem rest_sendDsn (config : QueueConfig) (builtAt updatedAt : ℕ) (message : Message) :
    ∃ recipients, (message.sendDsn config builtAt updatedAt).1 = { message with recipients } ∧
      recipients.length = message.recipients.length := by
  refine ⟨_, rfl, ?_⟩
  rw [length_map, length_map]

theorem rest_notified (env : Attempt) (message : Message) :
    ∃ recipients, (env.notified message).1 = { message with recipients } ∧
      recipients.length = message.recipients.length := by
  obtain ⟨recipients, heq, hlen⟩ := rest_sendDsn env.config env.builtAt env.updatedAt (message.expire env.pendingAt)
  refine ⟨recipients, heq, hlen.trans ?_⟩
  rw [Message.expire, length_map]

theorem rest_deliverTask (env : Attempt) (queueName : QueueName) (message : Message) :
    ∃ recipients, (deliverTask env queueName message).message = { message with recipients } ∧
      recipients.length = message.recipients.length := by
  obtain ⟨notified, hnotified, hlen⟩ := rest_notified env message
  obtain ⟨retryAt, now, heq⟩ | heq | ⟨-, heq⟩ | heq := deliverTask_cases env queueName message <;> rw [heq]
  · refine ⟨_, by rw [hnotified]; rfl, ?_⟩
    rw [length_map]
    exact hlen
  · obtain ⟨hflags, applied, happlied⟩ :=
      @flags_applyResults env.config env.appliedAt (env.notified message).1 env.results
    obtain ⟨recipients, hsent, hlen'⟩ := rest_sendDsn env.config env.rebuiltAt env.reupdatedAt
      (applyResults env.config env.appliedAt (env.notified message).1 env.results)
    refine ⟨recipients, by dsimp only [Attempt.delivered]; rw [hsent, happlied, hnotified], hlen'.trans ?_⟩
    have hmap := congrArg List.length hflags
    rw [length_map, length_map] at hmap
    refine hmap.trans ?_
    rw [hnotified]
    exact hlen
  · exact ⟨notified, hnotified, hlen⟩
  · exact ⟨notified, hnotified, hlen⟩

theorem settled_of_remove (h : (deliverTask env queueName message).finish = .remove)
    (hmem : rcpt ∈ (deliverTask env queueName message).message.recipients) : rcpt.isPending = false := by
  obtain ⟨retryAt, now, heq⟩ | heq | ⟨hno, heq⟩ | heq := deliverTask_cases env queueName message <;> rw [heq] at h hmem
  · cases h
  · by_contra hp
    have hin : rcpt ∈ (env.delivered message).1.pendingIn none :=
      Message.mem_pendingIn.mpr ⟨hmem, Bool.eq_true_of_not_eq_false hp, nofun⟩
    have hsome : ((env.delivered message).1.nextEvent none).isSome = true := isSome_min?_of_mem (mem_map_of_mem hin)
    rw [if_pos hsome] at h
    cases h
  · obtain ⟨i, hi⟩ := mem_iff_getElem?.mp hmem
    rw [Attempt.notified, (getElem?_sendDsn ..).1] at hi
    obtain ⟨expired, hexp, rfl⟩ := Option.map_eq_some_iff.mp hi
    have hsame := sameBut_sendDsn env.config (message.expire env.pendingAt).created
      (message.expire env.pendingAt).returnPath env.builtAt env.updatedAt expired
    have hpending : (expired.sendDsn env.config (message.expire env.pendingAt).created
        (message.expire env.pendingAt).returnPath env.builtAt env.updatedAt).1.isPending = expired.isPending := by
      rw [hsame]
      rfl
    rw [hpending]
    by_contra hp
    have hany : (message.expire env.pendingAt).recipients.any (·.isPending) = true :=
      any_eq_true.mpr ⟨expired, mem_of_getElem? hexp, Bool.eq_true_of_not_eq_false hp⟩
    rw [Message.hasPendingDelivery] at hno
    rw [if_pos hany] at hno
    cases hno
  · cases h

/-! ### Reports -/

theorem finals_singleton (m : Message) (finish : Finish) (sent : List (Option Report)) (i : ℕ) :
    (Attempted.mk m finish [sent]).finals i = (finalReport sent i).toList := by
  cases h : finalReport sent i <;> simp [Attempted.finals, h]

theorem finals_pair (m : Message) (finish : Finish) (sent sent' : List (Option Report)) (i : ℕ) :
    (Attempted.mk m finish [sent, sent']).finals i = (finalReport sent i).toList ++ (finalReport sent' i).toList := by
  cases h : finalReport sent i <;> cases h' : finalReport sent' i <;> simp [Attempted.finals, h, h']

theorem finalReport_eq_none_of_dsnSent {builtAt updatedAt : ℕ}
    (h : message.recipients[i]? = some rcpt) (hsent : rcpt.flags.dsnSent = true) :
    finalReport (message.sendDsn config builtAt updatedAt).2 i = none := by
  rw [finalReport, (getElem?_sendDsn ..).2, h, Option.map_some, (dsnSent_sendDsn hsent).2]
  rfl

theorem finalReport_eq_some {builtAt updatedAt : ℕ}
    (h : finalReport (message.sendDsn config builtAt updatedAt).2 i = some report) :
    ∃ rcpt rcpt', message.recipients[i]? = some rcpt ∧ rcpt.flags.dsnSent = false ∧
      (message.sendDsn config builtAt updatedAt).1.recipients[i]? = some rcpt' ∧ rcpt.SameBut rcpt' ∧
      rcpt'.flags.dsnSent = true ∧ rcpt'.status.outcome = some report := by
  obtain ⟨hjoin, hfinal⟩ := Option.filter_eq_some_iff.mp h
  rw [(getElem?_sendDsn ..).2] at hjoin
  cases hrcpt : message.recipients[i]? with
  | none =>
    rw [hrcpt] at hjoin
    cases hjoin
  | some rcpt =>
    rw [hrcpt] at hjoin
    obtain ⟨hout, hunsent, hsent⟩ := sendDsn_final hjoin hfinal
    have hsame := sameBut_sendDsn config message.created message.returnPath builtAt updatedAt rcpt
    refine ⟨rcpt, _, rfl, hunsent, (getElem?_sendDsn ..).1.trans (by rw [hrcpt]; rfl), hsame, hsent, ?_⟩
    rw [hsame]
    exact hout

theorem getElem?_expire {now : ℕ} : (message.expire now).recipients[i]? = some rcpt ↔
    ∃ r, message.recipients[i]? = some r ∧ r.expire message.created now = rcpt := by
  rw [Message.expire, getElem?_map, Option.map_eq_some_iff]

theorem dsnSent_notified (h : message.recipients[i]? = some rcpt)
    (hsent : rcpt.flags.dsnSent = true) :
    ∃ rcpt', (env.notified message).1.recipients[i]? = some rcpt' ∧ rcpt'.flags.dsnSent = true := by
  have hexp : (message.expire env.pendingAt).recipients[i]? = some _ :=
    getElem?_expire.mpr ⟨rcpt, h, rfl⟩
  refine ⟨_, (getElem?_sendDsn ..).1.trans (by rw [hexp]; rfl), (dsnSent_sendDsn ?_).1⟩
  rw [(expire_kept ..).1]
  exact hsent

theorem dsnSent_results (h : (env.notified message).1.recipients[i]? = some rcpt)
    (hsent : rcpt.flags.dsnSent = true) : ∃ rcpt',
      (applyResults env.config env.appliedAt (env.notified message).1 env.results).recipients[i]? = some rcpt' ∧
      rcpt'.flags.dsnSent = true := by
  have hflags := congrArg (·[i]?) (@flags_applyResults env.config env.appliedAt (env.notified message).1 env.results).1
  rw [getElem?_map, getElem?_map, h] at hflags
  obtain ⟨rcpt', hrcpt', heq⟩ := Option.map_eq_some_iff.mp hflags
  exact ⟨rcpt', hrcpt', by rw [heq]; exact hsent⟩

theorem dsnSent_delivered (h : (env.notified message).1.recipients[i]? = some rcpt)
    (hsent : rcpt.flags.dsnSent = true) :
    ∃ rcpt', (env.delivered message).1.recipients[i]? = some rcpt' ∧ rcpt'.flags.dsnSent = true := by
  obtain ⟨applied, happlied, hsent'⟩ := dsnSent_results h hsent
  exact ⟨_, (getElem?_sendDsn ..).1.trans (by rw [happlied]; rfl), (dsnSent_sendDsn hsent').1⟩

theorem dsnSent_deliverTask (h : message.recipients[i]? = some rcpt)
    (hsent : rcpt.flags.dsnSent = true) :
    ∃ rcpt', (deliverTask env queueName message).message.recipients[i]? = some rcpt' ∧ rcpt'.flags.dsnSent = true := by
  obtain ⟨notified, hnotified, hsent'⟩ := @dsnSent_notified env _ _ _ h hsent
  obtain ⟨retryAt, now, heq⟩ | heq | ⟨-, heq⟩ | heq := deliverTask_cases env queueName message <;> rw [heq]
  · refine ⟨_, getElem?_throttle hnotified, ?_⟩
    split_ifs <;> exact hsent'
  · exact dsnSent_delivered hnotified hsent'
  · exact ⟨notified, hnotified, hsent'⟩
  · exact ⟨notified, hnotified, hsent'⟩

/-- The final report about a recipient was not sent before, says what the recipient has come to, and is the last. -/
structure FinalReport (before after : Option Recipient) (report : Report) : Prop where
  unsent : ∃ rcpt, before = some rcpt ∧ rcpt.flags.dsnSent = false
  sent : ∃ rcpt, after = some rcpt ∧ rcpt.flags.dsnSent = true ∧ rcpt.status.outcome = some report

theorem finalReport_notified (h : finalReport (env.notified message).2 i = some report) :
    FinalReport message.recipients[i]? (env.notified message).1.recipients[i]? report := by
  obtain ⟨expired, sent, hexp, hunsent, hsent, -, hflag, hout⟩ := finalReport_eq_some h
  obtain ⟨rcpt, hrcpt, rfl⟩ := getElem?_expire.1 hexp
  rw [(expire_kept ..).1] at hunsent
  exact ⟨⟨rcpt, hrcpt, hunsent⟩, ⟨sent, hsent, hflag, hout⟩⟩

theorem isPending_of_outcome (h : rcpt.status.outcome = some report) : rcpt.isPending = false := by
  rw [isPending]
  cases hs : rcpt.status with
  | completed _ | permanentFailure _ => rfl
  | scheduled | temporaryFailure _ =>
    rw [hs] at h
    cases h

theorem finals_deliverTask (hrouted : env.routed queueName message = true) (i : ℕ) :
    (deliverTask env queueName message).finals i = [] ∨ ∃ report, (deliverTask env queueName message).finals i = [report] ∧
      FinalReport message.recipients[i]? (deliverTask env queueName message).message.recipients[i]? report := by
  -- A report of the first notification stands: the recipient is settled, and no result is about it.
  obtain ⟨retryAt, now, heq⟩ | heq | ⟨-, heq⟩ | heq := deliverTask_cases env queueName message <;> rw [heq]
  · rw [finals_singleton]
    cases hfirst : finalReport (env.notified message).2 i with
    | none => exact .inl rfl
    | some report =>
      obtain ⟨hunsent, sent, hsent, hflag, hout⟩ := finalReport_notified hfirst
      refine .inr ⟨report, rfl, hunsent, sent, ?_, hflag, hout⟩
      rw [getElem?_throttle hsent, if_neg fun h => Bool.false_ne_true ((isPending_of_outcome hout).symm.trans h.1)]
  · rw [finals_pair]
    cases hfirst : finalReport (env.notified message).2 i with
    | some report =>
      obtain ⟨hunsent, sent, hsent, hflag, hout⟩ := finalReport_notified hfirst
      have hkept := @getElem?_applyResults_of_notMem env.config env.appliedAt (env.notified message).1 _ _
        (notMem_results hrouted hsent (.inl (isPending_of_outcome hout)))
      rw [hsent] at hkept
      have hsecond : finalReport (env.delivered message).2 i = none := finalReport_eq_none_of_dsnSent hkept hflag
      refine .inr ⟨report, by rw [hsecond]; rfl, hunsent, _, (getElem?_sendDsn ..).1.trans (by rw [hkept]; rfl),
        (dsnSent_sendDsn hflag).1, ?_⟩
      rw [sameBut_sendDsn]
      exact hout
    | none =>
      cases hsecond : finalReport (env.delivered message).2 i with
      | none => exact .inl rfl
      | some report =>
        obtain ⟨applied, sent, happlied, hunsent, hsent, -, hflag, hout⟩ := finalReport_eq_some hsecond
        refine .inr ⟨report, rfl, ?_, sent, hsent, hflag, hout⟩
        -- The flag was not set before the results, so it was not at the start.
        cases hrcpt : message.recipients[i]? with
        | none =>
          obtain ⟨recipients, hrest, hlen⟩ := rest_notified env message
          obtain ⟨hlt, -⟩ := List.getElem?_eq_some_iff.mp happlied
          have hlength := congrArg List.length
            (@flags_applyResults env.config env.appliedAt (env.notified message).1 env.results).1
          rw [length_map, length_map] at hlength
          rw [hlength, hrest] at hlt
          rw [List.getElem?_eq_none_iff] at hrcpt
          exact absurd (hlen ▸ hlt) (Nat.not_lt.mpr hrcpt)
        | some rcpt =>
          refine ⟨rcpt, rfl, ?_⟩
          by_contra hflagged
          obtain ⟨notified, hnotified, hflag'⟩ := @dsnSent_notified env _ _ _ hrcpt (Bool.eq_true_of_not_eq_false hflagged)
          obtain ⟨applied', happlied', hflag''⟩ := dsnSent_results hnotified hflag'
          obtain rfl := Option.some.inj (happlied.symm.trans happlied')
          rw [hunsent] at hflag''
          cases hflag''
  · rw [finals_singleton]
    cases hfirst : finalReport (env.notified message).2 i with
    | none => exact .inl rfl
    | some report => exact .inr ⟨report, rfl, finalReport_notified hfirst⟩
  · rw [finals_singleton]
    cases hfirst : finalReport (env.notified message).2 i with
    | none => exact .inl rfl
    | some report => exact .inr ⟨report, rfl, finalReport_notified hfirst⟩

end

end MailServer.Smtp
