import MailServer.Smtp.Queue.Workers

/-!
# Reports about the recipients

An attempt gives up the recipients of every queue whose time is over, and tells the sender about all that are settled and
not reported.  What a worker merges has only the recipients of its queue, so that the record still has the others as they
were.

* `ReportedOnce`: one final report of a recipient at most, and none of a failure of one that is delivered.
* `Closes`: an attempt settles a recipient, or reports it.
* `Deliveries.KeepsReports`: the steps that leave it so.
* `reported_once`: runs of such steps.
-/

namespace MailServer.Smtp

open List Option Deliveries

/-- The attempt settles the recipient, or has a final report about it. -/
def Closes (worker : Worker) (attempted : Attempted) (i : ℕ) : Prop :=
  attempted.finals i ≠ [] ∨ (∃ rcpt ∈ worker.wrapper.message.recipients[i]?, rcpt.isPending = true) ∧
    ∃ rcpt ∈ attempted.message.recipients[i]?, rcpt.isPending = false

namespace Finished

def Delivers (f : Finished) (i : ℕ) : Prop :=
  (∃ rcpt ∈ f.worker.wrapper.message.recipients[i]?, rcpt.isPending = true) ∧
    ∃ rcpt ∈ f.attempted.message.recipients[i]?, ∃ response, rcpt.status = .completed response

/-- The recipient is settled as the worker has left it, and if the worker has reported it, that is noted. -/
def Stands (f : Finished) (i : ℕ) (rcpt : Recipient) : Prop :=
  ∃ left, f.attempted.message.recipients[i]? = some left ∧ left.isPending = false ∧ rcpt.status = left.status ∧
    (f.attempted.finals i ≠ [] → rcpt.flags.dsnSent = true)

end Finished

structure ReportedOnce (s : Deliveries) : Prop where
  once : ∀ i, (s.log.flatMap fun f => f.attempted.finals i).length ≤ 1
  agree : ∀ i, ∀ f ∈ s.log, ∀ f' ∈ s.log, Report.failure ∈ f.attempted.finals i → ¬ f'.Delivers i

namespace Deliveries

/-- The recipient is the worker's own, or nobody else's and in the record as the worker knows it.  If the worker merges, the
recipient has stayed in its queue. -/
def MayClose (s : Deliveries) (w : ℕ) (worker : Worker) (attempted : Attempted) (i : ℕ) : Prop :=
  (attempted.finish = .save → worker.wrapper.isMultiQueue = true → ∀ rcpt ∈ attempted.message.recipients[i]?,
    rcpt.queue = worker.wrapper.queueName) ∧
  (worker.Owns i ∨ (∀ w', w' ≠ w → ∀ worker' ∈ s.workers w', ¬ worker'.Owns i) ∧
    ∃ message ∈ s.spool.message, ∃ rcpt ∈ message.recipients[i]?, rcpt.flags.dsnSent = false ∧
      (rcpt.isPending = false → ∀ left ∈ attempted.message.recipients[i]?, rcpt.status = left.status))

/-- The worker has the other recipients in the queues of the record, and settled and reported if they are in the record. -/
def SaveStands (s : Deliveries) (worker : Worker) (attempted : Attempted) : Prop :=
  ∃ message ∈ s.spool.message, ∀ i, ¬ worker.Owns i → ∀ rcpt ∈ message.recipients[i]?,
    ∀ left ∈ attempted.message.recipients[i]?, left.queue = rcpt.queue ∧
      (rcpt.isPending = false → left.status = rcpt.status) ∧ (rcpt.flags.dsnSent = true → left.flags.dsnSent = true)

/-- One worker for each queue, and conditions on what it settles and saves. -/
def KeepsReports (s : Deliveries) : Action → Prop
  | .read _ queueName _ => s.StartsAlone queueName
  | .finish w env => ∀ worker ∈ s.workers w,
    let attempted := deliverTask env worker.wrapper.queueName worker.wrapper.message
    (∀ i, Closes worker attempted i → s.MayClose w worker attempted i) ∧
      (attempted.finish = .save → worker.wrapper.isMultiQueue = false → s.SaveStands worker attempted)

end Deliveries

/-! ## Closed recipients -/

/-- What a worker has closed stays so, in the record and in the copies of the workers whose recipient it is. -/
structure ReportsInv (initial : Message) (s : Deliveries) : Prop extends ReportedOnce s where
  stored : ∀ f ∈ s.log, ∀ i, Closes f.worker f.attempted i → ∀ message ∈ s.spool.message,
    ∀ rcpt ∈ message.recipients[i]?, f.Stands i rcpt
  read : ∀ f ∈ s.log, ∀ i, Closes f.worker f.attempted i → ∀ w, ∀ worker ∈ s.workers w, worker.Owns i →
    ∀ rcpt ∈ worker.wrapper.message.recipients[i]?, f.Stands i rcpt
  queue : ∀ w, ∀ worker ∈ s.workers w, ∀ i, worker.Owns i → ∀ message ∈ s.spool.message,
    ∀ rcpt ∈ message.recipients[i]?, rcpt.queue = worker.wrapper.queueName
  disjoint : ∀ w w', w ≠ w' → ∀ worker ∈ s.workers w, ∀ worker' ∈ s.workers w', ∀ i, worker.Owns i → ¬ worker'.Owns i
  apart : s.Apart
  mergeable : ∀ message ∈ s.spool.message, message.blobHash = initial.blobHash ∧
    message.recipients.length = initial.recipients.length
  copies : ∀ w, ∀ worker ∈ s.workers w, worker.wrapper.message.blobHash = initial.blobHash ∧
    worker.wrapper.message.recipients.length = initial.recipients.length

section

variable {initial : Message} {s s' : Deliveries}

theorem reportsInv_queue (message : Message) (counters : Counters) : ReportsInv message (.queue message counters) where
  once _ := Nat.zero_le 1
  agree _ _ hf := absurd hf not_mem_nil
  stored _ hf := absurd hf not_mem_nil
  read _ hf := absurd hf not_mem_nil
  queue _ _ hw := nomatch hw
  disjoint _ _ _ _ hw := nomatch hw
  apart _ _ _ _ hw := nomatch hw
  mergeable _ hm := some.inj hm ▸ ⟨rfl, rfl⟩
  copies _ _ hw := nomatch hw

theorem reportsInv_read {w : ℕ} {queueName : QueueName} {due : ℕ} (hs : ReportsInv initial s)
    (halone : s.StartsAlone queueName) (h : s.step (.read w queueName due) = some s') : ReportsInv initial s' := by
  obtain ⟨-, ⟨m, hm, rfl⟩ | ⟨hm, rfl⟩⟩ := step_read h
  · -- The new worker's recipients are in its queue, and those of the others are in theirs.
    have hapart : ∀ w', ∀ worker ∈ s.workers w', ∀ i, worker.Owns i →
        ¬ (Worker.mk (.new m queueName) due).Owns i := by
      rintro w' worker hw' i hi ⟨rcpt, hrcpt, hqueue⟩
      refine halone w' worker hw' ?_
      rw [← hs.queue w' worker hw' i hi m hm rcpt hrcpt]
      exact hqueue
    refine ⟨⟨hs.once, hs.agree⟩, hs.stored, ?_, ?_, ?_, apart_read hs.apart halone, hs.mergeable, ?_⟩
    · intro f hf i hcloses w' worker hw' hi rcpt hrcpt
      obtain ⟨-, rfl⟩ | ⟨-, hold⟩ := mem_workers_read hw'
      · exact hs.stored f hf i hcloses m hm rcpt hrcpt
      · exact hs.read f hf i hcloses w' worker hold hi rcpt hrcpt
    · intro w' worker hw' i hi m' hm' rcpt hrcpt
      obtain ⟨-, rfl⟩ | ⟨-, hold⟩ := mem_workers_read hw'
      · obtain rfl := some.inj (hm.symm.trans hm')
        obtain ⟨rcpt', hrcpt', hqueue⟩ := hi
        obtain rfl := some.inj (hrcpt.symm.trans hrcpt')
        exact hqueue
      · exact hs.queue w' worker hold i hi m' hm' rcpt hrcpt
    · intro w₁ w₂ hne worker₁ h₁ worker₂ h₂ i hi
      obtain ⟨rfl, rfl⟩ | ⟨-, hold₁⟩ := mem_workers_read h₁
      · obtain ⟨rfl, -⟩ | ⟨-, hold₂⟩ := mem_workers_read h₂
        · exact absurd rfl hne
        · exact fun hi' => hapart w₂ worker₂ hold₂ i hi' hi
      · obtain ⟨rfl, rfl⟩ | ⟨-, hold₂⟩ := mem_workers_read h₂
        · exact hapart w₁ worker₁ hold₁ i hi
        · exact hs.disjoint w₁ w₂ hne worker₁ hold₁ worker₂ hold₂ i hi
    · intro w' worker hw'
      obtain ⟨-, rfl⟩ | ⟨-, hold⟩ := mem_workers_read hw'
      · exact hs.mergeable m hm
      · exact hs.copies w' worker hold
  · exact ⟨⟨hs.once, hs.agree⟩, hs.stored, hs.read, hs.queue, hs.disjoint, hs.apart, hs.mergeable, hs.copies⟩

section

variable {env : Attempt} {worker : Worker} {i : ℕ}

variable {f : Finished} {saved : Bool}

section

variable (hrouted : env.routed worker.wrapper.queueName worker.wrapper.message = true)
include hrouted

theorem stands_deliverTask
    (h : ∀ rcpt ∈ worker.wrapper.message.recipients[i]?, f.Stands i rcpt) {left : Recipient}
    (hleft : (deliverTask env worker.wrapper.queueName worker.wrapper.message).message.recipients[i]? = some left) :
    f.Stands i left := by
  obtain ⟨recipients, hattempt, hlen⟩ := rest_deliverTask env worker.wrapper.queueName worker.wrapper.message
  have hlt : i < worker.wrapper.message.recipients.length := by
    obtain ⟨hlt, -⟩ := List.getElem?_eq_some_iff.mp hleft
    rw [hattempt] at hlt
    exact hlen ▸ hlt
  have hbefore := getElem?_eq_getElem hlt
  obtain ⟨past, hpast, hsettled, hstatus, hsent⟩ := h _ hbefore
  have hpending : worker.wrapper.message.recipients[i].isPending = false := by
    rw [Recipient.isPending, hstatus]
    exact hsettled
  obtain ⟨left', hleft', hsame⟩ := getElem?_deliverTask_of_other hrouted hbefore (.inl hpending)
  obtain rfl := some.inj (hleft.symm.trans hleft')
  rw [expire_of_settled hpending] at hsame
  refine ⟨past, hpast, hsettled, ?_, fun hfinals => ?_⟩
  · rw [hsame]
    exact hstatus
  · obtain ⟨left'', hleft'', hflag⟩ := @dsnSent_deliverTask env worker.wrapper.queueName _ _ _ hbefore (hsent hfinals)
    obtain rfl := some.inj (hleft.symm.trans hleft'')
    exact hflag

theorem exists_stands_of_closes
    (h : Closes worker (deliverTask env worker.wrapper.queueName worker.wrapper.message) i) : ∃ left,
      (deliverTask env worker.wrapper.queueName worker.wrapper.message).message.recipients[i]? = some left ∧
      (Finished.mk worker (deliverTask env worker.wrapper.queueName worker.wrapper.message) saved).Stands i left := by
  obtain hnil | ⟨report, hreport, -, left, hleft, hflag, hout⟩ := finals_deliverTask hrouted i
  · obtain hne | ⟨-, left, hleft, hsettled⟩ := h
    · exact absurd hnil hne
    · exact ⟨left, hleft, left, hleft, hsettled, rfl, fun hne => absurd hnil hne⟩
  · exact ⟨left, hleft, left, hleft, isPending_of_outcome hout, rfl, fun _ => hflag⟩

theorem owns_of_delivers
    (h : (Finished.mk worker (deliverTask env worker.wrapper.queueName worker.wrapper.message) saved).Delivers i) :
    worker.Owns i := by
  obtain ⟨⟨rcpt, hrcpt, hpending⟩, left, hleft, response, hstatus⟩ := h
  by_contra hi
  have hne : rcpt.queue ≠ worker.wrapper.queueName := fun hq => hi ⟨rcpt, hrcpt, hq⟩
  obtain ⟨left', hleft', hsame⟩ := getElem?_deliverTask_of_other hrouted hrcpt (.inr hne)
  obtain rfl := some.inj (hleft.symm.trans hleft')
  rw [hsame] at hstatus
  exact status_expire_ne_completed hpending hstatus

end

/-- What is needed of an attempt. -/
structure Sane (worker : Worker) (attempted : Attempted) : Prop where
  stay : ∀ i, ¬ worker.Owns i → ∀ rcpt ∈ attempted.message.recipients[i]?, rcpt.queue ≠ worker.wrapper.queueName
  kept : ∀ i f, (∀ rcpt ∈ worker.wrapper.message.recipients[i]?, Finished.Stands f i rcpt) →
    ∀ left ∈ attempted.message.recipients[i]?, f.Stands i left
  closed : ∀ i saved, Closes worker attempted i → ∃ left, attempted.message.recipients[i]? = some left ∧
    (Finished.mk worker attempted saved).Stands i left
  finals : ∀ i, attempted.finals i = [] ∨ ∃ report, attempted.finals i = [report] ∧
    FinalReport worker.wrapper.message.recipients[i]? attempted.message.recipients[i]? report
  delivers : ∀ i saved, (Finished.mk worker attempted saved).Delivers i → worker.Owns i
  blobHash : attempted.message.blobHash = worker.wrapper.message.blobHash
  length : attempted.message.recipients.length = worker.wrapper.message.recipients.length

theorem sane_deliverTask (hrouted : env.routed worker.wrapper.queueName worker.wrapper.message = true) :
    Sane worker (deliverTask env worker.wrapper.queueName worker.wrapper.message) := by
  obtain ⟨recipients, hattempt, hlen⟩ := rest_deliverTask env worker.wrapper.queueName worker.wrapper.message
  exact ⟨fun _ hi _ h => queue_deliverTask_of_not_owns hrouted hi h, fun _ _ h _ hleft => stands_deliverTask hrouted h hleft,
    fun _ _ h => exists_stands_of_closes hrouted h, finals_deliverTask hrouted, fun _ _ h => owns_of_delivers hrouted h,
    by rw [hattempt], by rw [hattempt]; exact hlen⟩

variable {attempted : Attempted} {w : ℕ}

section

variable (ha : Sane worker attempted) (hs : ReportsInv initial s) (hw : worker ∈ s.workers w)
include ha hs hw

theorem Sane.own (hi : worker.Owns i) (hf : f ∈ s.log)
    (hcloses : Closes f.worker f.attempted i) {left : Recipient}
    (hleft : left ∈ attempted.message.recipients[i]?) : f.Stands i left :=
  ha.kept i f (hs.read f hf i hcloses w worker hw hi) left hleft

theorem Sane.once
    (hclose : ∀ i, Closes worker attempted i → s.MayClose w worker attempted i) (i : ℕ) :
    (attempted.finals i ++ s.log.flatMap fun f => f.attempted.finals i).length ≤ 1 := by
  obtain hnil | ⟨report, hreport, ⟨rcpt, hrcpt, hunsent⟩, -⟩ := ha.finals i
  · rw [hnil]
    exact hs.once i
  · have hcloses : Closes worker attempted i := .inl (by rw [hreport]; exact cons_ne_nil _ _)
    have hnew : ∀ f ∈ s.log, f.attempted.finals i = [] := by
      intro f hf
      by_contra hne
      obtain ⟨-, hi | ⟨-, m, hm, stored, hstored, hunsent', -⟩⟩ := hclose i hcloses
      · obtain ⟨-, -, -, -, hflag⟩ := hs.read f hf i (.inl hne) w worker hw hi rcpt hrcpt
        rw [hflag hne] at hunsent
        cases hunsent
      · obtain ⟨-, -, -, -, hflag⟩ := hs.stored f hf i (.inl hne) m hm stored hstored
        rw [hflag hne] at hunsent'
        cases hunsent'
    rw [hreport, flatMap_eq_nil_iff.mpr hnew]
    exact le_rfl

theorem Sane.not_delivered
    (hclose : ∀ i, Closes worker attempted i → s.MayClose w worker attempted i)
    (hfailure : Report.failure ∈ attempted.finals i) (hf : f ∈ s.log) : ¬ f.Delivers i := by
  rintro ⟨hpending, left, hleft, response, hcompleted⟩
  have hsettled : left.isPending = false := by
    rw [Recipient.isPending, hcompleted]
    rfl
  have hcloses : Closes f.worker f.attempted i := .inr ⟨hpending, left, hleft, hsettled⟩
  obtain hnil | ⟨report, hreport, -, last, hlast, -, hout⟩ := ha.finals i
  · rw [hnil] at hfailure
    cases hfailure
  rw [hreport] at hfailure
  obtain rfl := mem_singleton.mp hfailure
  -- Either way the attempt has left the recipient as delivered.
  have hstatus : last.status = left.status := by
    obtain ⟨-, hi | ⟨-, m, hm, stored, hstored, -, hknown⟩⟩ :=
      hclose i (.inl (by rw [hreport]; exact cons_ne_nil _ _))
    · obtain ⟨left', hleft', -, heq, -⟩ := ha.own hs hw hi hf hcloses hlast
      obtain rfl := some.inj (hleft.symm.trans hleft')
      exact heq
    · obtain ⟨left', hleft', -, heq, -⟩ := hs.stored f hf i hcloses m hm stored hstored
      obtain rfl := some.inj (hleft.symm.trans hleft')
      have hp : stored.isPending = false := by
        rw [Recipient.isPending, heq]
        exact hsettled
      exact (hknown hp last hlast).symm.trans heq
  rw [hstatus, hcompleted] at hout
  cases hout

theorem Sane.not_failed (hdelivers : (Finished.mk worker attempted saved).Delivers i)
    (hf : f ∈ s.log) : Report.failure ∉ f.attempted.finals i := by
  intro hfailure
  obtain ⟨rcpt, hrcpt, hpending⟩ := hdelivers.1
  obtain ⟨left, -, hsettled, hstatus, -⟩ := hs.read f hf i (.inl (ne_nil_of_mem hfailure)) w worker hw
    (ha.delivers i saved hdelivers) rcpt hrcpt
  rw [Recipient.isPending, hstatus] at hpending
  rw [Recipient.isPending, hpending] at hsettled
  cases hsettled

end

theorem Sane.agree (ha : Sane worker attempted) (hfailure : Report.failure ∈ attempted.finals i) :
    ¬ (Finished.mk worker attempted saved).Delivers i := by
  rintro ⟨-, left, hleft, response, hcompleted⟩
  obtain hnil | ⟨report, hreport, -, last, hlast, -, hout⟩ := ha.finals i
  · rw [hnil] at hfailure
    cases hfailure
  rw [hreport] at hfailure
  obtain rfl := mem_singleton.mp hfailure
  obtain rfl := some.inj (mem_def.mp hleft |>.symm.trans hlast)
  rw [hcompleted] at hout
  cases hout

/-- The record after a batch has the worker's copy or the record before it, recipient by recipient: the former only for what
the worker may write, the latter only for what it has not closed. -/
structure Rewritten (s : Deliveries) (worker : Worker) (attempted : Attempted) (spool : Spool) : Prop where
  recipients : ∀ message ∈ spool.message, ∃ cur ∈ s.spool.message, message.blobHash = cur.blobHash ∧
    message.recipients.length = cur.recipients.length ∧ ∀ i, ∀ rcpt ∈ message.recipients[i]?,
      (rcpt ∈ attempted.message.recipients[i]? ∧ (¬ worker.Owns i → ∃ old ∈ cur.recipients[i]?, rcpt.queue = old.queue ∧
        (old.isPending = false → rcpt.status = old.status) ∧ (old.flags.dsnSent = true → rcpt.flags.dsnSent = true))) ∨
      (rcpt ∈ cur.recipients[i]? ∧ ¬ Closes worker attempted i)

theorem rewritten_finish (ha : Sane worker attempted) (hs : ReportsInv initial s) (hw : worker ∈ s.workers w)
    (hclose : ∀ i, Closes worker attempted i → s.MayClose w worker attempted i)
    (hsave : attempted.finish = .save → worker.wrapper.isMultiQueue = false → s.SaveStands worker attempted) :
    Rewritten s worker attempted ((finish s.spool worker attempted).getD s.spool) := by
  cases hfinish : finish s.spool worker attempted with
  | none =>
    refine ⟨fun message hm => ?_⟩
    have hnone := finish_eq_none hfinish message hm
    obtain ⟨hhash, hlen⟩ := hs.mergeable message hm
    obtain ⟨hhash', hlen'⟩ := hs.copies w worker hw
    rw [mergeMessage, if_pos ⟨hhash.trans (hhash'.symm.trans ha.blobHash.symm), hlen.trans (hlen'.symm.trans ha.length.symm)⟩]
      at hnone
    cases hnone
  | some spool =>
    obtain ⟨hf, hmulti, cur, merged, hcur, hmerge, rfl⟩ | ⟨hf, hmulti, rfl⟩ | ⟨hf, rfl⟩ := finish_eq_some hfinish
    · refine ⟨fun message hm => ?_⟩
      obtain rfl := some.inj hm
      have hmerged := getElem?_merged hmerge
      obtain ⟨hlen, heq⟩ := mergeMessage_eq_some hmerge
      refine ⟨cur, hcur, by rw [heq], by rw [heq, length_zipWith, hlen, Nat.min_self], fun i rcpt hrcpt => ?_⟩
      by_cases hmine : ∃ left ∈ attempted.message.recipients[i]?, left.queue = worker.wrapper.queueName
      · obtain ⟨left, hleft, hqueue⟩ := hmine
        obtain rfl := some.inj (hrcpt.symm.trans ((hmerged i).1 left hleft hqueue))
        exact .inl ⟨hleft, fun hi => absurd hqueue (ha.stay i hi _ hleft)⟩
      · have hother := (hmerged i).2 fun left hleft hqueue => hmine ⟨left, hleft, hqueue⟩
        refine .inr ⟨hother.symm.trans hrcpt, fun hcloses => hmine ?_⟩
        obtain ⟨left, hleft, -⟩ := ha.closed i true hcloses
        exact ⟨left, hleft, (hclose i hcloses).1 hf hmulti left hleft⟩
    · refine ⟨fun message hm => ?_⟩
      obtain rfl := some.inj hm
      obtain ⟨cur, hcur, hother⟩ := hsave hf hmulti
      obtain ⟨hhash, hlen⟩ := hs.mergeable cur hcur
      obtain ⟨hhash', hlen'⟩ := hs.copies w worker hw
      have hlength : attempted.message.recipients.length = cur.recipients.length :=
        ha.length.trans (hlen'.trans hlen.symm)
      refine ⟨cur, hcur, ha.blobHash.trans (hhash'.trans hhash.symm), hlength, fun i rcpt hrcpt => .inl ⟨hrcpt, fun hi => ?_⟩⟩
      obtain ⟨hlt, -⟩ := List.getElem?_eq_some_iff.mp hrcpt
      have hold := getElem?_eq_getElem (hlength ▸ hlt : i < cur.recipients.length)
      exact ⟨_, hold, hother i hi _ hold rcpt hrcpt⟩
    · refine ⟨fun message hm => ?_⟩
      cases hm

theorem reportsInv_finish (hs : ReportsInv initial s) (hk : s.KeepsReports (.finish w env))
    (h : s.step (.finish w env) = some s') : ReportsInv initial s' := by
  obtain ⟨worker, hw, hrouted, rfl⟩ := step_finish h
  obtain ⟨hclose, hsave⟩ := hk worker hw
  have ha := sane_deliverTask hrouted
  have hspool := rewritten_finish ha hs hw hclose hsave
  generalize deliverTask env worker.wrapper.queueName worker.wrapper.message = attempted at ha hclose hsave hspool ⊢
  generalize (finish s.spool worker attempted).isSome = saved
  have hothers := fun w' worker' => @mem_workers_finish s w worker' w'
  refine ⟨⟨fun i => ha.once hs hw hclose i, ?_⟩, ?_, ?_, ?_, ?_, apart_finish hs.apart _ _, ?_, ?_⟩
  · intro i f hf f' hf' hfailure
    obtain rfl | hf := mem_cons.mp hf
    · obtain rfl | hf' := mem_cons.mp hf'
      · exact ha.agree hfailure
      · exact ha.not_delivered hs hw hclose hfailure hf'
    · obtain rfl | hf' := mem_cons.mp hf'
      · exact fun hdelivers => ha.not_failed hs hw hdelivers hf hfailure
      · exact hs.agree i f hf f' hf' hfailure
  · intro f hf i hcloses message hm rcpt hrcpt
    obtain ⟨cur, hcur, -, -, hrecipients⟩ := hspool.recipients message hm
    obtain rfl | hf := mem_cons.mp hf
    · obtain ⟨hleft, -⟩ | ⟨-, hopen⟩ := hrecipients i rcpt hrcpt
      · obtain ⟨left, hleft', hstands⟩ := ha.closed i saved hcloses
        obtain rfl := some.inj (hleft.symm.trans hleft')
        exact hstands
      · exact absurd hcloses hopen
    · obtain ⟨hleft, hother⟩ | ⟨hold, -⟩ := hrecipients i rcpt hrcpt
      · by_cases hi : worker.Owns i
        · exact ha.own hs hw hi hf hcloses hleft
        · obtain ⟨old, hold, -, hstatus, hflag⟩ := hother hi
          obtain ⟨left, hleft', hsettled, heq, hsent⟩ := hs.stored f hf i hcloses cur hcur old hold
          have hp : old.isPending = false := by
            rw [Recipient.isPending, heq]
            exact hsettled
          exact ⟨left, hleft', hsettled, (hstatus hp).trans heq, fun hne => hflag (hsent hne)⟩
      · exact hs.stored f hf i hcloses cur hcur rcpt hold
  · intro f hf i hcloses w' worker' hw' hi rcpt hrcpt
    obtain ⟨hne, hin⟩ := hothers w' worker' hw'
    obtain rfl | hf := mem_cons.mp hf
    · obtain ⟨-, hi' | ⟨hnobody, -⟩⟩ := hclose i hcloses
      · exact absurd hi' (hs.disjoint w' w hne worker' hin worker hw i hi)
      · exact absurd hi (hnobody w' hne worker' hin)
    · exact hs.read f hf i hcloses w' worker' hin hi rcpt hrcpt
  · intro w' worker' hw' i hi message hm rcpt hrcpt
    obtain ⟨hne, hin⟩ := hothers w' worker' hw'
    obtain ⟨cur, hcur, -, -, hrecipients⟩ := hspool.recipients message hm
    obtain ⟨-, hother⟩ | ⟨hold, -⟩ := hrecipients i rcpt hrcpt
    · obtain ⟨old, hold, hqueue, -⟩ := hother (hs.disjoint w' w hne worker' hin worker hw i hi)
      exact hqueue.trans (hs.queue w' worker' hin i hi cur hcur old hold)
    · exact hs.queue w' worker' hin i hi cur hcur rcpt hold
  · intro w₁ w₂ hne worker₁ h₁ worker₂ h₂
    exact hs.disjoint w₁ w₂ hne worker₁ (hothers w₁ worker₁ h₁).2 worker₂ (hothers w₂ worker₂ h₂).2
  · intro message hm
    obtain ⟨cur, hcur, hhash, hlen, -⟩ := hspool.recipients message hm
    obtain ⟨hhash', hlen'⟩ := hs.mergeable cur hcur
    exact ⟨hhash.trans hhash', hlen.trans hlen'⟩
  · exact fun w' worker' hw' => hs.copies w' worker' (hothers w' worker' hw').2

theorem reportsInv_step (s : Deliveries) (action : Deliveries.Action) (s' : Deliveries) (hs : ReportsInv initial s)
    (hk : s.KeepsReports action) (h : s.step action = some s') : ReportsInv initial s' := by
  cases action with
  | read w queueName due => exact reportsInv_read hs hk h
  | finish w env => exact reportsInv_finish hs hk h

end

end

/-! ## A recipient whose time is over -/

/-- The second recipient expires at 100, and the first does not. -/
def reportSample : Message :=
  let rcpt (address : String) (queue : QueueName) (ttl : ℕ) : Recipient :=
    ⟨address, ⟨5, 0⟩, ⟨900, 0⟩, .ttl ttl, queue, .scheduled, ⟨false, true, false, false, false⟩⟩
  ⟨0, [], "s@a.example", [rcpt "x@b.example" "local" 1000, rcpt "y@c.example" "remote" 100], ⟨false, false, false, false⟩, none,
    1, []⟩

/-- An attempt at 200. -/
def reportAttempt (results : List DeliveryResult) : Attempt :=
  ⟨fun _ => ⟨[60], [600], .ttl 1000, "local"⟩, 200, 200, 200, 200, none, 200, results, 200, 200, 200⟩

/-- Final reports are made once throughout every run of steps that keep them. -/
theorem reported_once (message : Message) (counters : Counters) (actions : List Deliveries.Action)
    (h : Lib.Run.Each step Deliveries.KeepsReports (.queue message counters) actions) :
    Lib.Run.Always step ReportedOnce (.queue message counters) actions :=
  (Lib.Run.always_of_each reportsInv_step (reportsInv_queue message counters) h).mono fun _ hs => hs.toReportedOnce

/-- A worker that is alone with the message, whose only recipient is refused. -/
theorem reported_once_alone : Lib.Run.Always step ReportedOnce
    (.queue { reportSample with recipients := reportSample.recipients.take 1 } fun _ => 0)
    [.read 0 "local" 5, .finish 0 (reportAttempt [.account (.permanentFailure ⟨"mx", .rateLimited⟩) 0])] := by
  refine reported_once _ _ _ fun s hs => ⟨(fun _ _ h => by cases h), fun s' hs' => ⟨?_, trivial⟩⟩
  obtain rfl := some.inj hs
  rintro worker hworker
  obtain rfl := some.inj hworker
  refine ⟨fun i hi => ?_, nofun⟩
  match i with
  | 0 => exact ⟨nofun, .inl (by decide)⟩
  | i + 1 =>
    obtain hne | ⟨⟨_, hrcpt, -⟩, -⟩ := hi
    · exact absurd rfl hne
    · cases hrcpt

/-- The worker of the first queue reports that the second recipient has failed, which the merge leaves out, so that the
worker of the second queue reports it again. -/
theorem not_reported_once : ¬ Lib.Run.Always step ReportedOnce (.queue reportSample fun _ => 0)
    [.read 0 "local" 5, .finish 0 (reportAttempt [.account (.temporaryFailure ⟨"mx", .rateLimited⟩) 0]),
      .read 1 "remote" 5, .finish 1 (reportAttempt [])] := by
  have hrun : (Lib.Run.run step (.queue reportSample fun _ => 0)
      [.read 0 "local" 5, .finish 0 (reportAttempt [.account (.temporaryFailure ⟨"mx", .rateLimited⟩) 0]),
        .read 1 "remote" 5, .finish 1 (reportAttempt [])]).map
      (fun s => (s.log.flatMap fun f => f.attempted.finals 1).length) = some 2 := by decide
  intro h
  obtain ⟨s, hs, htwice⟩ := map_eq_some_iff.mp hrun
  have honce := (h.last hs).once 1
  rw [htwice] at honce
  exact absurd honce (by decide)

end MailServer.Smtp
