import MailServer.Smtp.Queue.Message

/-!
# Delivery status notifications (`smtp/src/queue/dsn.rs`)

Before and after an attempt the sender is told about the recipients that are settled or late.  A flag of the recipient
says that there is nothing more to tell.

* `Recipient.buildDsn`, `Recipient.handleDoubleBounce`, `Recipient.updateNextDsn`: what happens to one recipient.
* `Message.sendDsn`: what happens to a message, with the recipients that the notification reports.
-/

namespace MailServer.Smtp

def u64Max : ℕ := 18446744073709551615

inductive Report where
  | success
  | delay
  | failure
deriving DecidableEq

namespace Recipient

def setDsnSent (rcpt : Recipient) : Recipient := { rcpt with flags := { rcpt.flags with dsnSent := true } }

/-- `build_dsn`, for one recipient. -/
def buildDsn (now : ℕ) (rcpt : Recipient) : Recipient × Option Report :=
  if rcpt.flags.dsnSent || rcpt.flags.notifyNever then (rcpt, none)
  else
    match rcpt.status with
    | .completed _ => (rcpt.setDsnSent, if rcpt.flags.notifySuccess then some .success else none)
    | .permanentFailure _ => (rcpt.setDsnSent, if rcpt.flags.notifyFailure then some .failure else none)
    | .temporaryFailure _ | .scheduled =>
      (rcpt, if rcpt.notify.due ≤ now ∧ rcpt.flags.notifyDelay then some .delay else none)

/-- `handle_double_bounce`, the flag of a recipient whose failure has nobody to be reported to. -/
def markBounced (rcpt : Recipient) : Recipient :=
  if rcpt.flags.dsnSent || rcpt.flags.notifyNever then rcpt
  else
    match rcpt.status with
    | .permanentFailure _ => rcpt.setDsnSent
    | _ => rcpt

/-- `handle_double_bounce`, for one recipient of a message without a sender. -/
def handleDoubleBounce (created now : ℕ) (rcpt : Recipient) : Recipient :=
  let bounced := rcpt.markBounced
  if bounced.notify.due ≤ now then
    { bounced with notify := { bounced.notify with due := ((bounced.expirationTime created).map (· + 10)).getD u64Max } }
  else bounced

/-- `update_next_dsn`, for one recipient. -/
def updateNextDsn (config : QueueConfig) (now : ℕ) (rcpt : Recipient) : Recipient :=
  if rcpt.isPending = true ∧ rcpt.notify.due ≤ now then
    match (config rcpt).notify[rcpt.notify.inner + 1]? with
    | some next => { rcpt with notify := ⟨now + next, rcpt.notify.inner + 1⟩ }
    | none => { rcpt with notify := { rcpt.notify with due := u64Max } }
  else rcpt

/-- `send_dsn`, for one recipient. -/
def sendDsn (config : QueueConfig) (created : ℕ) (returnPath : String) (builtAt updatedAt : ℕ) (rcpt : Recipient) :
    Recipient × Option Report :=
  let sent := if returnPath = "" then (rcpt.handleDoubleBounce created builtAt, none) else rcpt.buildDsn builtAt
  (sent.1.updateNextDsn config updatedAt, sent.2)

end Recipient

namespace Message

/-- `send_dsn`: the message as it leaves it, and what it reports of each recipient. -/
def sendDsn (config : QueueConfig) (builtAt updatedAt : ℕ) (message : Message) : Message × List (Option Report) :=
  let sent := message.recipients.map (Recipient.sendDsn config message.created message.returnPath builtAt updatedAt)
  ({ message with recipients := sent.map Prod.fst }, sent.map Prod.snd)

end Message

/-! ## What a notification changes -/

namespace Recipient

/-- Everything but the flags and the time of the next notification. -/
def SameBut (rcpt rcpt' : Recipient) : Prop :=
  rcpt' = { rcpt with notify := rcpt'.notify, flags := rcpt'.flags }

theorem SameBut.refl (rcpt : Recipient) : rcpt.SameBut rcpt := rfl

theorem SameBut.trans {a b c : Recipient} (hab : a.SameBut b) (hbc : b.SameBut c) : a.SameBut c := by
  rw [SameBut] at hab hbc ⊢
  rw [hbc, hab]

theorem sameBut_buildDsn (now : ℕ) (rcpt : Recipient) : rcpt.SameBut (rcpt.buildDsn now).1 := by
  by_cases h : (rcpt.flags.dsnSent || rcpt.flags.notifyNever) = true
  · rw [buildDsn, if_pos h]
    exact .refl rcpt
  · rw [buildDsn, if_neg h]
    cases rcpt.status <;> rfl

theorem sameBut_markBounced (rcpt : Recipient) : rcpt.SameBut rcpt.markBounced := by
  by_cases h : (rcpt.flags.dsnSent || rcpt.flags.notifyNever) = true
  · rw [markBounced, if_pos h]
    exact .refl rcpt
  · rw [markBounced, if_neg h]
    cases rcpt.status <;> rfl

theorem sameBut_handleDoubleBounce (created now : ℕ) (rcpt : Recipient) :
    rcpt.SameBut (rcpt.handleDoubleBounce created now) := by
  by_cases h : rcpt.markBounced.notify.due ≤ now
  · rw [handleDoubleBounce, if_pos h]
    exact (sameBut_markBounced rcpt).trans rfl
  · rw [handleDoubleBounce, if_neg h]
    exact sameBut_markBounced rcpt

theorem updateNextDsn_kept (config : QueueConfig) (now : ℕ) (rcpt : Recipient) :
    rcpt.SameBut (rcpt.updateNextDsn config now) ∧ (rcpt.updateNextDsn config now).flags = rcpt.flags := by
  rw [updateNextDsn]
  split_ifs
  · cases (config rcpt).notify[rcpt.notify.inner + 1]? <;> exact ⟨rfl, rfl⟩
  · exact ⟨rfl, rfl⟩

variable (config : QueueConfig) (created : ℕ) (returnPath : String) (builtAt updatedAt : ℕ) (rcpt : Recipient)

theorem sameBut_sendDsn : rcpt.SameBut (rcpt.sendDsn config created returnPath builtAt updatedAt).1 := by
  rw [sendDsn]
  split_ifs
  · exact (sameBut_handleDoubleBounce ..).trans (updateNextDsn_kept ..).1
  · exact (sameBut_buildDsn ..).trans (updateNextDsn_kept ..).1

end Recipient

/-! ## Final reports -/

/-- What there is to tell of a recipient that is settled. -/
def Status.outcome : Status → Option Report
  | .completed _ => some .success
  | .permanentFailure _ => some .failure
  | .scheduled | .temporaryFailure _ => none

def Report.isFinal : Report → Bool
  | .success | .failure => true
  | .delay => false

namespace Recipient

variable {config : QueueConfig} {created : ℕ} {returnPath : String} {builtAt updatedAt : ℕ} {rcpt : Recipient}

theorem dsnSent_handleDoubleBounce (now : ℕ) (h : rcpt.flags.dsnSent = true) :
    (rcpt.handleDoubleBounce created now).flags.dsnSent = true := by
  have hmark : rcpt.markBounced = rcpt := by
    rw [markBounced, if_pos (by rw [h]; rfl)]
  rw [handleDoubleBounce, hmark]
  split_ifs <;> exact h

theorem dsnSent_buildDsn (now : ℕ) (h : rcpt.flags.dsnSent = true) : rcpt.buildDsn now = (rcpt, none) := by
  rw [buildDsn, if_pos (by rw [h]; rfl)]

theorem buildDsn_final {now : ℕ} {report : Report} (h : (rcpt.buildDsn now).2 = some report) (hfinal : report.isFinal = true) :
    rcpt.status.outcome = some report ∧ rcpt.flags.dsnSent = false ∧ (rcpt.buildDsn now).1.flags.dsnSent = true := by
  by_cases hflags : (rcpt.flags.dsnSent || rcpt.flags.notifyNever) = true
  · rw [buildDsn, if_pos hflags] at h
    cases h
  have hunsent : rcpt.flags.dsnSent = false := by
    cases hs : rcpt.flags.dsnSent with
    | false => rfl
    | true => exact absurd (by rw [hs]; rfl) hflags
  rw [buildDsn, if_neg hflags] at h ⊢
  cases hstatus : rcpt.status with
  | completed response =>
    rw [hstatus] at h
    dsimp only at h
    split_ifs at h
    obtain rfl := Option.some.inj h
    exact ⟨rfl, hunsent, rfl⟩
  | permanentFailure error =>
    rw [hstatus] at h
    dsimp only at h
    split_ifs at h
    obtain rfl := Option.some.inj h
    exact ⟨rfl, hunsent, rfl⟩
  | scheduled | temporaryFailure error =>
    rw [hstatus] at h
    dsimp only at h
    split_ifs at h
    obtain rfl := Option.some.inj h
    cases hfinal

theorem dsnSent_sendDsn (h : rcpt.flags.dsnSent = true) :
    (rcpt.sendDsn config created returnPath builtAt updatedAt).1.flags.dsnSent = true ∧
    (rcpt.sendDsn config created returnPath builtAt updatedAt).2 = none := by
  rw [sendDsn]
  split_ifs
  · exact ⟨by rw [(updateNextDsn_kept ..).2]; exact dsnSent_handleDoubleBounce _ h, rfl⟩
  · rw [dsnSent_buildDsn _ h]
    exact ⟨by rw [(updateNextDsn_kept ..).2]; exact h, rfl⟩

theorem sendDsn_final {report : Report} (h : (rcpt.sendDsn config created returnPath builtAt updatedAt).2 = some report)
    (hfinal : report.isFinal = true) : rcpt.status.outcome = some report ∧ rcpt.flags.dsnSent = false ∧
      (rcpt.sendDsn config created returnPath builtAt updatedAt).1.flags.dsnSent = true := by
  rw [sendDsn] at h ⊢
  by_cases hpath : returnPath = ""
  · rw [if_pos hpath] at h
    cases h
  · rw [if_neg hpath] at h ⊢
    obtain ⟨hout, hunsent, hsent⟩ := buildDsn_final h hfinal
    exact ⟨hout, hunsent, by rw [(updateNextDsn_kept ..).2]; exact hsent⟩

end Recipient

end MailServer.Smtp
