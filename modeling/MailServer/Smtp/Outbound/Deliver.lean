import MailServer.Lib.Except
import MailServer.Smtp.Queue.Message
import Mathlib.Data.List.TakeWhile

/-!
# Delivery to a host (`smtp/src/outbound/session.rs`, `outbound/delivery.rs`)

A worker hands the recipients of one route to one host.  What comes of it is a list of results, some for one recipient
and some for the whole route, which are then applied to the message one after the other.

* `deliver`: the dialogue with the host, and its results.
* `applyResults`: what the results do to the message.
* `settled_iff`: when every recipient gets this status, once.
-/

namespace MailServer.Smtp

open MailServer.Lib List

inductive ClientError where
  /-- Errors of the connection and of the dialogue after which the host is tried again. -/
  | temporary (text : String)
  | unexpectedReply (response : Response)
  /-- Errors after which it is not. -/
  | permanent (text : String)
deriving DecidableEq

namespace Status

def fromSmtpError (hostname command : String) : ClientError → Status
  | .temporary text => .temporaryFailure ⟨hostname, .connectionError text⟩
  | .unexpectedReply response =>
    if response.severity = .permanentNegativeCompletion then
      .permanentFailure ⟨hostname, .unexpectedResponse ⟨command.trimAscii.toString, response⟩⟩
    else .temporaryFailure ⟨hostname, .unexpectedResponse ⟨command.trimAscii.toString, response⟩⟩
  | .permanent text => .permanentFailure ⟨hostname, .connectionError text⟩

def timeout (hostname stage : String) : Status :=
  .temporaryFailure ⟨hostname, .connectionError ("Timeout while " ++ stage)⟩

end Status

inductive DeliveryResult where
  | domain (status : Status) (rcptIdxs : List ℕ)
  | account (status : Status) (rcptIdx : ℕ)
  | rateLimited (rcptIdxs : List ℕ) (retryAt : ℕ)
deriving DecidableEq

/-! ## The dialogue -/

structure Capabilities where
  size : Bool
  requireTls : Bool
  smtpUtf8 : Bool
  dsn : Bool
  chunking : Bool

/-- What is read from the host within the time there is for it. -/
inductive Reading (α : Type) where
  | received (value : α)
  | failed (error : ClientError)
  | timedOut

/-- What comes of sending the message: the blob may not be there. -/
inductive Sending where
  | sent
  | failed (error : ClientError)
  | timedOut
  | queueError

/-- The host and what it answers. -/
structure Dialogue where
  hostname : String
  localHostname : String
  isSmtp : Bool
  /-- the capabilities, when they are known already -/
  capabilities : Option Capabilities
  helo : Reading Capabilities
  /-- the end of the authentication, when there are credentials -/
  auth : Option (Except ClientError Unit)
  mail : Except ClientError Response
  /-- the answer to the RCPT of a recipient -/
  rcpt : ℕ → Except ClientError Response
  send : Sending
  dataResponse : Reading Response
  /-- the answers to the message, one for each of so many recipients -/
  lmtpResponses : (n : ℕ) → Reading (List Response)
  lmtp_length : ∀ n responses, lmtpResponses n = .received responses → responses.length = n

open Dialogue

variable (message : Message) (d : Dialogue)

/-- `say_helo`, unless the capabilities are known. -/
def Dialogue.sayHelo : Except Status Capabilities :=
  match d.capabilities with
  | some capabilities => .ok capabilities
  | none =>
    match d.helo with
    | .received capabilities => .ok capabilities
    | .failed error =>
      .error (.fromSmtpError d.hostname ((if d.isSmtp then "EHLO " else "LHLO ") ++ d.localHostname ++ "\r\n") error)
    | .timedOut => .error (.timeout d.hostname "reading EHLO response")

def buildMailFrom (capabilities : Capabilities) : String :=
  "MAIL FROM:<" ++ message.returnPath ++ ">" ++
    (if capabilities.size then " SIZE=" ++ toString message.size else "") ++
    (if message.flags.requireTls && capabilities.requireTls then " REQUIRETLS" else "") ++
    (if message.flags.smtpUtf8 && capabilities.smtpUtf8 then " SMTPUTF8" else "") ++
    (if capabilities.dsn then
      (if message.flags.retFull then " RET=FULL" else if message.flags.retHdrs then " RET=HDRS" else "") ++
        match message.envId with
        | some envId => " ENVID=" ++ envId
        | none => ""
    else "") ++ "\r\n"

def buildRcptTo (rcpt : Recipient) (capabilities : Capabilities) : String :=
  "RCPT TO:<" ++ rcpt.address ++ ">" ++
    (if capabilities.dsn then
      let notify := (if rcpt.flags.notifySuccess then ["SUCCESS"] else []) ++
        (if rcpt.flags.notifyDelay then ["DELAY"] else []) ++ (if rcpt.flags.notifyFailure then ["FAILURE"] else [])
      if notify ≠ [] then " NOTIFY=" ++ ",".intercalate notify
      else if rcpt.flags.notifyNever then " NOTIFY=NEVER" else ""
    else "") ++ "\r\n"

def bdatCmd (capabilities : Capabilities) : Option String :=
  if capabilities.chunking then some ("BDAT " ++ toString message.size ++ " LAST\r\n") else none

/-- `send_message`. -/
def Dialogue.sendMessage (bdat : Option String) : Except Status Unit :=
  match d.send with
  | .sent => .ok ()
  | .failed error => .error (.fromSmtpError d.hostname (bdat.getD "DATA") error)
  | .timedOut => .error (.timeout d.hostname "sending message")
  | .queueError => .error (.temporaryFailure ⟨"localhost", .io "Queue system error."⟩)

def Dialogue.readSmtpDataResponse (bdat : Option String) : Except Status Response :=
  match d.dataResponse with
  | .received response => .ok response
  | .failed error => .error (.fromSmtpError d.hostname (bdat.getD "DATA") error)
  | .timedOut => .error (.timeout d.hostname "reading SMTP DATA response")

def Dialogue.readLmtpDataResponse (n : ℕ) : Except Status (List Response) :=
  match d.lmtpResponses n with
  | .received responses => .ok responses
  | .failed error => .error (.fromSmtpError d.hostname "" error)
  | .timedOut => .error (.timeout d.hostname "reading LMTP DATA responses")

/-- The status for a reply that is not positive. -/
def refusal (hostname command : String) (response : Response) : Status :=
  if response.severity = .permanentNegativeCompletion then
    .permanentFailure ⟨hostname, .unexpectedResponse ⟨command, response⟩⟩
  else .temporaryFailure ⟨hostname, .unexpectedResponse ⟨command, response⟩⟩

/-- The RCPT commands: the results so far, the recipients that were accepted, and the error that ended the dialogue. -/
structure RcptPhase where
  statuses : List DeliveryResult
  accepted : List (ℕ × Status)
  error : Option ClientError

def rcptTo (capabilities : Capabilities) : List ℕ → RcptPhase
  | [] => ⟨[], [], none⟩
  | rcptIdx :: rcptIdxs =>
    match message.recipients[rcptIdx]? with
    | none => rcptTo capabilities rcptIdxs
    | some rcpt =>
      if rcpt.isPending then
        match d.rcpt rcptIdx with
        | .ok response =>
          let rest := rcptTo capabilities rcptIdxs
          if response.severity = .positiveCompletion then
            { rest with accepted := (rcptIdx, .completed ⟨d.hostname, response⟩) :: rest.accepted }
          else
            { rest with
              statuses := .account (refusal d.hostname (buildRcptTo rcpt capabilities).trimAscii.toString response) rcptIdx ::
                rest.statuses }
        | .error error => ⟨[], [], some error⟩
      else rcptTo capabilities rcptIdxs

/-- What the host makes of the message: a status for the whole route, or one for each recipient that was accepted. -/
def dataPhase (capabilities : Capabilities) (accepted : List (ℕ × Status)) : Except Status (List DeliveryResult) := do
  let bdat := bdatCmd message capabilities
  d.sendMessage bdat
  if d.isSmtp then
    let response ← d.readSmtpDataResponse bdat
    if response.code = 250 then return accepted.map fun a => .account a.2 a.1
    else throw (.fromSmtpError d.hostname (bdat.getD "DATA") (.unexpectedReply response))
  else
    let responses ← d.readLmtpDataResponse accepted.length
    return List.zipWith (fun a response =>
      .account (if response.severity = .positiveCompletion then .completed ⟨d.hostname, response⟩
        else refusal d.hostname (bdat.getD "DATA") response) a.1) accepted responses

/-- The part before the first RCPT. -/
def greet : Except Status Capabilities := do
  let capabilities ← d.sayHelo
  match d.auth with
  | some (.error error) => throw (.fromSmtpError d.hostname "AUTH ..." error)
  | _ => pure ()
  let cmd := buildMailFrom message capabilities
  match d.mail with
  | .ok response =>
    if response.severity = .positiveCompletion then return capabilities
    else throw (.fromSmtpError d.hostname cmd (.unexpectedReply response))
  | .error error => throw (.fromSmtpError d.hostname cmd error)

/-- The results of the dialogue, in the order in which they are pushed. -/
def deliver (rcptIdxs : List ℕ) : List DeliveryResult :=
  match greet message d with
  | .error status => [.domain status rcptIdxs]
  | .ok capabilities =>
    let phase := rcptTo message d capabilities rcptIdxs
    match phase.error with
    | some error => phase.statuses ++ [.domain (.fromSmtpError d.hostname "" error) rcptIdxs]
    | none =>
      if phase.accepted = [] then phase.statuses
      else
        match dataPhase message d capabilities phase.accepted with
        | .error status => phase.statuses ++ [.domain status rcptIdxs]
        | .ok results => phase.statuses ++ results

/-! ## The results, applied -/

def applyResult (config : QueueConfig) (now : ℕ) (message : Message) : DeliveryResult → Message
  | .domain status rcptIdxs => rcptIdxs.foldl (fun message rcptIdx => message.setRcptStatus config now status rcptIdx) message
  | .account status rcptIdx => message.setRcptStatus config now status rcptIdx
  | .rateLimited rcptIdxs retryAt =>
    rcptIdxs.foldl (fun message rcptIdx => message.setRcptRateLimit rcptIdx retryAt) message

/-- `deliver_task`, the status changes. -/
def applyResults (config : QueueConfig) (now : ℕ) (message : Message) (results : List DeliveryResult) : Message :=
  results.foldl (applyResult config now) message

/-- The statuses that a result has for a recipient. -/
def DeliveryResult.statusesOf (i : ℕ) : DeliveryResult → List Status
  | .domain status rcptIdxs => List.replicate (rcptIdxs.count i) status
  | .account status rcptIdx => if rcptIdx = i then [status] else []
  | .rateLimited _ _ => []

def DeliveryResult.isRateLimited : DeliveryResult → Bool
  | .rateLimited _ _ => true
  | _ => false

def statusUpdates (i : ℕ) (results : List DeliveryResult) : List Status := results.flatMap (·.statusesOf i)

/-! ## What the replies determine -/

def Dialogue.answers (i : ℕ) : Bool := (d.rcpt i).isOk

def Dialogue.accepts (i : ℕ) : Bool :=
  match d.rcpt i with
  | .ok response => response.severity = .positiveCompletion
  | .error _ => false

/-- The RCPT commands that were answered: those before the first error. -/
def Dialogue.answered (rcptIdxs : List ℕ) : List ℕ := rcptIdxs.takeWhile d.answers

/-- The error that ended the RCPT commands. -/
def Dialogue.rcptError (rcptIdxs : List ℕ) : Option ClientError :=
  rcptIdxs.findSome? fun i =>
    match d.rcpt i with
    | .ok _ => none
    | .error error => some error

/-- The status for the answer to the RCPT of a recipient, if it is not positive. -/
def rcptRefusal (capabilities : Capabilities) (i : ℕ) : Status :=
  match message.recipients[i]?, d.rcpt i with
  | some rcpt, .ok response => refusal d.hostname (buildRcptTo rcpt capabilities).trimAscii.toString response
  | _, _ => .scheduled

/-- The status for the answer to the RCPT of a recipient, if it is positive and so is all that follows. -/
def rcptCompletion (i : ℕ) : Status :=
  match d.rcpt i with
  | .ok response => .completed ⟨d.hostname, response⟩
  | .error _ => .scheduled

/-- The recipients that were accepted. -/
def Dialogue.acceptedRcpts (rcptIdxs : List ℕ) : List (ℕ × Status) :=
  ((d.answered rcptIdxs).filter d.accepts).map fun i => (i, rcptCompletion d i)

/-- **The status that the replies about a recipient determine**: that of its refusal, if its RCPT was refused; otherwise
that of the error that ended the dialogue, or that of the data phase. -/
def verdict (rcptIdxs : List ℕ) (i : ℕ) : Status :=
  match greet message d with
  | .error status => status
  | .ok capabilities =>
    if i ∈ d.answered rcptIdxs ∧ d.accepts i = false then rcptRefusal message d capabilities i
    else
      match d.rcptError rcptIdxs with
      | some error => .fromSmtpError d.hostname "" error
      | none =>
        match dataPhase message d capabilities (d.acceptedRcpts rcptIdxs) with
        | .error status => status
        | .ok results => (statusUpdates i results).headD .scheduled

/-- A recipient is refused, and after that the dialogue ends with a status for the whole route. -/
def Overruled (rcptIdxs : List ℕ) : Prop :=
  ∃ capabilities, greet message d = .ok capabilities ∧ (∃ i ∈ d.answered rcptIdxs, d.accepts i = false) ∧
    ((d.rcptError rcptIdxs).isSome ∨ d.acceptedRcpts rcptIdxs ≠ [] ∧
      ∃ status, dataPhase message d capabilities (d.acceptedRcpts rcptIdxs) = .error status)

/-! ## Applying results -/

section

variable (config : QueueConfig) (now : ℕ)

theorem getElem?_foldl_setRcptStatus (status : Status) (rcptIdxs : List ℕ) (message : Message) (i : ℕ) :
    (rcptIdxs.foldl (fun message rcptIdx => message.setRcptStatus config now status rcptIdx) message).recipients[i]? =
      message.recipients[i]?.map fun rcpt =>
        (List.replicate (rcptIdxs.count i) status).foldl (Recipient.setStatus config now) rcpt := by
  induction rcptIdxs generalizing message with
  | nil => simp
  | cons rcptIdx rcptIdxs ih =>
    rw [foldl_cons, ih, Message.recipients_setRcptStatus, getElem?_modify]
    by_cases h : rcptIdx = i
    · subst h
      cases message.recipients[rcptIdx]? <;> simp [replicate_succ]
    · cases message.recipients[i]? <;> simp [h]

theorem getElem?_applyResult {result : DeliveryResult} (hresult : result.isRateLimited = false) (message : Message) (i : ℕ) :
    (applyResult config now message result).recipients[i]? =
      message.recipients[i]?.map fun rcpt => (result.statusesOf i).foldl (Recipient.setStatus config now) rcpt := by
  cases result with
  | domain status rcptIdxs => exact getElem?_foldl_setRcptStatus config now status rcptIdxs message i
  | account status rcptIdx =>
    show (message.setRcptStatus config now status rcptIdx).recipients[i]? = _
    rw [Message.recipients_setRcptStatus, getElem?_modify]
    by_cases h : rcptIdx = i
    · cases message.recipients[i]? <;> simp [DeliveryResult.statusesOf, h]
    · cases message.recipients[i]? <;> simp [DeliveryResult.statusesOf, h]
  | rateLimited rcptIdxs retryAt => cases hresult

theorem getElem?_applyResults {results : List DeliveryResult} (hresults : ∀ r ∈ results, r.isRateLimited = false)
    (message : Message) (i : ℕ) : (applyResults config now message results).recipients[i]? =
      message.recipients[i]?.map fun rcpt => (statusUpdates i results).foldl (Recipient.setStatus config now) rcpt := by
  induction results generalizing message with
  | nil => simp [applyResults, statusUpdates]
  | cons result results ih =>
    show (applyResults config now (applyResult config now message result) results).recipients[i]? = _
    rw [ih (fun r hr => hresults r (mem_cons_of_mem _ hr)), getElem?_applyResult config now (hresults _ mem_cons_self)]
    cases message.recipients[i]? <;> simp [statusUpdates]

end

/-! ## The RCPT commands -/

variable {message d} {capabilities : Capabilities} {rcptIdxs : List ℕ}

theorem rcptTo_eq (h : ∀ i ∈ rcptIdxs, ∃ rcpt, message.recipients[i]? = some rcpt ∧ rcpt.isPending = true) :
    rcptTo message d capabilities rcptIdxs =
      ⟨((d.answered rcptIdxs).filter fun i => !d.accepts i).map fun i => .account (rcptRefusal message d capabilities i) i,
        d.acceptedRcpts rcptIdxs, d.rcptError rcptIdxs⟩ := by
  induction rcptIdxs with
  | nil => rfl
  | cons i rcptIdxs ih =>
    obtain ⟨rcpt, hrcpt, hpending⟩ := h i mem_cons_self
    have hrest := ih fun j hj => h j (mem_cons_of_mem _ hj)
    rw [rcptTo, hrcpt]
    dsimp only
    rw [if_pos hpending, hrest]
    cases hreply : d.rcpt i with
    | error error =>
      have hanswers : d.answers i = false := by rw [answers, hreply]; rfl
      have hanswered : d.answered (i :: rcptIdxs) = [] := takeWhile_cons_of_neg (by simp [hanswers])
      simp [acceptedRcpts, hanswered, rcptError, hreply]
    | ok response =>
      have hanswers : d.answers i = true := by rw [answers, hreply]; rfl
      have hanswered : d.answered (i :: rcptIdxs) = i :: d.answered rcptIdxs := takeWhile_cons_of_pos hanswers
      have herror : d.rcptError (i :: rcptIdxs) = d.rcptError rcptIdxs := by simp [rcptError, hreply]
      have hcompletion : rcptCompletion d i = .completed ⟨d.hostname, response⟩ := by rw [rcptCompletion, hreply]
      simp only [herror, acceptedRcpts, hanswered]
      by_cases hpositive : response.severity = .positiveCompletion
      · have haccepts : d.accepts i = true := by rw [accepts, hreply]; exact decide_eq_true hpositive
        simp [hpositive, haccepts, hcompletion]
      · have haccepts : d.accepts i = false := by rw [accepts, hreply]; exact decide_eq_false hpositive
        simp [hpositive, haccepts, rcptRefusal, hrcpt, hreply]

/-! ## The updates of a recipient -/

@[simp] theorem statusUpdates_append (i : ℕ) (results results' : List DeliveryResult) :
    statusUpdates i (results ++ results') = statusUpdates i results ++ statusUpdates i results' :=
  flatMap_append

@[simp] theorem statusUpdates_domain (i : ℕ) (status : Status) (rcptIdxs : List ℕ) :
    statusUpdates i [.domain status rcptIdxs] = List.replicate (rcptIdxs.count i) status :=
  append_nil _

theorem statusUpdates_accounts {l : List ℕ} (hl : l.Nodup) (f : ℕ → Status) (i : ℕ) :
    statusUpdates i (l.map fun j => .account (f j) j) = if i ∈ l then [f i] else [] := by
  induction l with
  | nil => rfl
  | cons j l ih =>
    obtain ⟨hj, hl⟩ := nodup_cons.mp hl
    have hcons : statusUpdates i ((j :: l).map fun j => DeliveryResult.account (f j) j) =
        (if j = i then [f j] else []) ++ statusUpdates i (l.map fun j => .account (f j) j) := rfl
    rw [hcons, ih hl]
    by_cases h : j = i
    · subst h
      simp [hj]
    · simp [h, Ne.symm h]

variable {results : List DeliveryResult} {accepted : List (ℕ × Status)}

theorem length_statusUpdates {l : List ℕ}
    (h : List.Forall₂ (fun result j => ∃ status, result = .account status j) results l) (i : ℕ) :
    (statusUpdates i results).length = l.count i := by
  induction h with
  | nil => rfl
  | @cons result j results l hresult h ih =>
    obtain ⟨status, rfl⟩ := hresult
    show (((if j = i then [status] else []) ++ statusUpdates i results).length) = _
    rw [length_append, ih]
    by_cases hj : j = i <;> simp [hj, Nat.add_comm]

theorem forall₂_zipWith (f : Response → Status) {responses : List Response}
    (h : responses.length = accepted.length) :
    List.Forall₂ (fun result j => ∃ status, result = .account status j)
      (List.zipWith (fun a response => DeliveryResult.account (f response) a.1) accepted responses)
      (accepted.map Prod.fst) := by
  induction accepted generalizing responses with
  | nil => exact .nil
  | cons a accepted ih =>
    cases responses with
    | nil => cases h
    | cons response responses => exact .cons ⟨_, rfl⟩ (ih (Nat.succ.inj h))

theorem forall₂_dataPhase (h : dataPhase message d capabilities accepted = .ok results) :
    List.Forall₂ (fun result j => ∃ status, result = .account status j) results (accepted.map Prod.fst) := by
  obtain ⟨-, -, h⟩ := bind_eq_ok h
  by_cases hsmtp : d.isSmtp = true
  · rw [if_pos hsmtp] at h
    obtain ⟨response, -, h⟩ := bind_eq_ok h
    split_ifs at h
    obtain rfl := Except.ok.inj h
    exact forall₂_map_left_iff.mpr (forall₂_map_right_iff.mpr (forall₂_same.mpr fun a _ => ⟨a.2, rfl⟩))
  · rw [if_neg hsmtp] at h
    obtain ⟨responses, hresponses, h⟩ := bind_eq_ok h
    obtain rfl := Except.ok.inj h
    have hlength : responses.length = accepted.length := by
      unfold readLmtpDataResponse at hresponses
      split at hresponses <;> rename_i hread
      · obtain rfl := Except.ok.inj hresponses
        exact d.lmtp_length _ _ hread
      · cases hresponses
      · cases hresponses
    exact forall₂_zipWith _ hlength

variable (hpending : ∀ i ∈ rcptIdxs, ∃ rcpt, message.recipients[i]? = some rcpt ∧ rcpt.isPending = true)

include hpending in
theorem statusUpdates_deliver (hnodup : rcptIdxs.Nodup) (hgreet : greet message d = .ok capabilities) (i : ℕ) :
    statusUpdates i (deliver message d rcptIdxs) =
      (if i ∈ d.answered rcptIdxs ∧ d.accepts i = false then [rcptRefusal message d capabilities i] else []) ++
        match d.rcptError rcptIdxs with
        | some error => List.replicate (rcptIdxs.count i) (.fromSmtpError d.hostname "" error)
        | none =>
          if d.acceptedRcpts rcptIdxs = [] then []
          else
            match dataPhase message d capabilities (d.acceptedRcpts rcptIdxs) with
            | .error status => List.replicate (rcptIdxs.count i) status
            | .ok results => statusUpdates i results := by
  have hanswered : (d.answered rcptIdxs).Nodup := hnodup.sublist (takeWhile_sublist _)
  have hrefused : statusUpdates i (((d.answered rcptIdxs).filter fun i => !d.accepts i).map fun i =>
      .account (rcptRefusal message d capabilities i) i) =
      if i ∈ d.answered rcptIdxs ∧ d.accepts i = false then [rcptRefusal message d capabilities i] else [] := by
    rw [statusUpdates_accounts (hanswered.filter _)]
    simp only [mem_filter, Bool.not_eq_true']
  unfold deliver
  rw [hgreet]
  dsimp only
  rw [rcptTo_eq hpending]
  cases d.rcptError rcptIdxs with
  | some error => rw [statusUpdates_append, statusUpdates_domain, hrefused]
  | none =>
    dsimp only
    by_cases haccepted : d.acceptedRcpts rcptIdxs = []
    · rw [if_pos haccepted, if_pos haccepted, hrefused, append_nil]
    · rw [if_neg haccepted, if_neg haccepted]
      cases dataPhase message d capabilities (d.acceptedRcpts rcptIdxs) with
      | error status =>
        dsimp only
        rw [statusUpdates_append, statusUpdates_domain, hrefused]
      | ok results =>
        dsimp only
        rw [statusUpdates_append, hrefused]

theorem mem_answered {i : ℕ} (h : i ∈ d.answered rcptIdxs) : i ∈ rcptIdxs := takeWhile_subset _ h

theorem map_fst_acceptedRcpts (d : Dialogue) (rcptIdxs : List ℕ) :
    (d.acceptedRcpts rcptIdxs).map Prod.fst = (d.answered rcptIdxs).filter d.accepts := by
  rw [acceptedRcpts, map_map]
  exact map_id _

theorem mem_acceptedRcpts {i : ℕ} :
    i ∈ (d.acceptedRcpts rcptIdxs).map Prod.fst ↔ i ∈ d.answered rcptIdxs ∧ d.accepts i = true := by
  rw [map_fst_acceptedRcpts, mem_filter]

theorem answered_of_rcptError (h : d.rcptError rcptIdxs = none) : d.answered rcptIdxs = rcptIdxs := by
  refine takeWhile_eq_self_iff.mpr fun i hi => ?_
  have hnone := findSome?_eq_none_iff.mp h i hi
  unfold answers
  cases hreply : d.rcpt i with
  | ok response => rfl
  | error error =>
    rw [hreply] at hnone
    cases hnone

theorem isRateLimited_deliver (message : Message) (d : Dialogue) (rcptIdxs : List ℕ)
    (hpending : ∀ i ∈ rcptIdxs, ∃ rcpt, message.recipients[i]? = some rcpt ∧ rcpt.isPending = true) :
    ∀ r ∈ deliver message d rcptIdxs, r.isRateLimited = false := by
  have hone (r : DeliveryResult) (status : Status) (hr : r ∈ [DeliveryResult.domain status rcptIdxs]) :
      r.isRateLimited = false := by
    obtain rfl := mem_singleton.mp hr
    rfl
  intro r hr
  unfold deliver at hr
  cases hgreet : greet message d with
  | error status =>
    rw [hgreet] at hr
    exact hone r _ hr
  | ok capabilities =>
    have hrefused : ∀ r ∈ (rcptTo message d capabilities rcptIdxs).statuses, r.isRateLimited = false := by
      rw [rcptTo_eq hpending]
      intro r hr
      obtain ⟨j, -, rfl⟩ := mem_map.mp hr
      rfl
    rw [hgreet] at hr
    dsimp only at hr
    split at hr
    · rcases mem_append.mp hr with hr | hr
      · exact hrefused r hr
      · exact hone r _ hr
    · split_ifs at hr
      · exact hrefused r hr
      · split at hr <;> rename_i hdata
        · rcases mem_append.mp hr with hr | hr
          · exact hrefused r hr
          · exact hone r _ hr
        · rcases mem_append.mp hr with hr | hr
          · exact hrefused r hr
          · obtain ⟨k, hk, rfl⟩ := mem_iff_getElem.mp hr
            obtain ⟨status, h⟩ := (forall₂_dataPhase hdata).get hk (by rw [← (forall₂_dataPhase hdata).length_eq]; exact hk)
            rw [get_eq_getElem] at h
            rw [h]
            rfl

include hpending in
theorem statusUpdates_of_notMem (hnodup : rcptIdxs.Nodup) {i : ℕ} (hi : i ∉ rcptIdxs) :
    statusUpdates i (deliver message d rcptIdxs) = [] := by
  have hcount : rcptIdxs.count i = 0 := count_eq_zero.mpr hi
  cases hgreet : greet message d with
  | error status =>
    unfold deliver
    rw [hgreet]
    show statusUpdates i [.domain status rcptIdxs] = []
    rw [statusUpdates_domain, hcount, replicate_zero]
  | ok capabilities =>
    rw [statusUpdates_deliver hpending hnodup hgreet, if_neg fun h => hi (mem_answered h.1), nil_append, hcount]
    cases d.rcptError rcptIdxs with
    | some error => rfl
    | none =>
      dsimp only
      split_ifs
      · rfl
      · split
        · rfl
        · rename_i hdata
          refine eq_nil_of_length_eq_zero ?_
          rw [length_statusUpdates (forall₂_dataPhase hdata)]
          exact count_eq_zero.mpr fun h => hi (mem_answered (mem_acceptedRcpts.1 h).1)

include hpending in
theorem statusUpdates_of_mem (hnodup : rcptIdxs.Nodup) (hover : ¬ Overruled message d rcptIdxs) {i : ℕ} (hi : i ∈ rcptIdxs) :
    statusUpdates i (deliver message d rcptIdxs) = [verdict message d rcptIdxs i] := by
  have hcount : rcptIdxs.count i = 1 := count_eq_one_of_mem hnodup hi
  unfold verdict
  cases hgreet : greet message d with
  | error status =>
    unfold deliver
    rw [hgreet]
    show statusUpdates i [.domain status rcptIdxs] = _
    rw [statusUpdates_domain, hcount, replicate_one]
  | ok capabilities =>
    dsimp only
    have hwhole (h : (d.rcptError rcptIdxs).isSome ∨ d.acceptedRcpts rcptIdxs ≠ [] ∧
        ∃ status, dataPhase message d capabilities (d.acceptedRcpts rcptIdxs) = .error status) :
        ¬ (i ∈ d.answered rcptIdxs ∧ d.accepts i = false) := fun hrefused =>
      hover ⟨capabilities, hgreet, ⟨i, hrefused⟩, h⟩
    rw [statusUpdates_deliver hpending hnodup hgreet, hcount]
    cases herror : d.rcptError rcptIdxs with
    | some error =>
      have hnot := hwhole (Or.inl (by rw [herror]; rfl))
      rw [if_neg hnot, if_neg hnot]
      rfl
    | none =>
      dsimp only
      have hanswered := answered_of_rcptError herror
      by_cases hnil : d.acceptedRcpts rcptIdxs = []
      · have hrefused : i ∈ d.answered rcptIdxs ∧ d.accepts i = false := by
          refine ⟨by rw [hanswered]; exact hi, Bool.eq_false_iff.mpr fun haccepts => ?_⟩
          have hmem := mem_acceptedRcpts.2 ⟨by rw [hanswered]; exact hi, haccepts⟩
          rw [hnil] at hmem
          cases hmem
        rw [if_pos hnil, if_pos hrefused, if_pos hrefused, append_nil]
      · rw [if_neg hnil]
        cases hdata : dataPhase message d capabilities (d.acceptedRcpts rcptIdxs) with
        | error status =>
          have hnot := hwhole (Or.inr ⟨hnil, status, hdata⟩)
          rw [if_neg hnot, if_neg hnot]
          rfl
        | ok results =>
          have hlength := length_statusUpdates (forall₂_dataPhase hdata) i
          by_cases hrefused : i ∈ d.answered rcptIdxs ∧ d.accepts i = false
          · have hnone : i ∉ (d.acceptedRcpts rcptIdxs).map Prod.fst := fun h => by
              rw [(mem_acceptedRcpts.1 h).2] at hrefused
              cases hrefused.2
            rw [count_eq_zero.mpr hnone] at hlength
            dsimp only
            rw [if_pos hrefused, if_pos hrefused, eq_nil_of_length_eq_zero hlength, append_nil]
          · have haccepts : d.accepts i = true := by
              by_contra h
              exact hrefused ⟨by rw [hanswered]; exact hi, Bool.eq_false_iff.mpr h⟩
            have hmem := mem_acceptedRcpts.2 ⟨by rw [hanswered]; exact hi, haccepts⟩
            have haccepted : ((d.acceptedRcpts rcptIdxs).map Prod.fst).Nodup := by
              rw [map_fst_acceptedRcpts, hanswered]
              exact hnodup.filter _
            rw [count_eq_one_of_mem haccepted hmem] at hlength
            obtain ⟨status, hstatus⟩ := length_eq_one_iff.mp hlength
            dsimp only
            rw [if_neg hrefused, if_neg hrefused, hstatus]
            rfl

include hpending in
theorem length_statusUpdates_of_overruled (hnodup : rcptIdxs.Nodup) (hover : Overruled message d rcptIdxs) :
    ∃ i ∈ rcptIdxs, (statusUpdates i (deliver message d rcptIdxs)).length = 2 := by
  obtain ⟨capabilities, hgreet, ⟨i, hanswered, hrefused⟩, hwhole⟩ := hover
  have hi := mem_answered hanswered
  refine ⟨i, hi, ?_⟩
  rw [statusUpdates_deliver hpending hnodup hgreet, if_pos ⟨hanswered, hrefused⟩, count_eq_one_of_mem hnodup hi]
  cases herror : d.rcptError rcptIdxs with
  | some error => rfl
  | none =>
    rw [herror] at hwhole
    obtain ⟨hnil, status, hdata⟩ := hwhole.resolve_left nofun
    dsimp only
    rw [if_neg hnil, hdata]
    rfl

/-- **Every recipient of the attempt is updated once, with the status that its own replies determine**, and the other
recipients not at all. -/
def Settled (config : QueueConfig) (now : ℕ) (message : Message) (d : Dialogue) (rcptIdxs : List ℕ) : Prop :=
  (∀ i ∈ rcptIdxs, statusUpdates i (deliver message d rcptIdxs) = [verdict message d rcptIdxs i]) ∧
  ∀ i : ℕ, (applyResults config now message (deliver message d rcptIdxs)).recipients[i]? =
    message.recipients[i]?.map fun rcpt =>
      if i ∈ rcptIdxs then rcpt.setStatus config now (verdict message d rcptIdxs i) else rcpt

/-- **When the recipients of an attempt are settled**: unless a refusal is followed by a status for the whole route. -/
theorem settled_iff (config : QueueConfig) (now : ℕ) {message : Message} (d : Dialogue) {rcptIdxs : List ℕ}
    (hnodup : rcptIdxs.Nodup)
    (hpending : ∀ i ∈ rcptIdxs, ∃ rcpt, message.recipients[i]? = some rcpt ∧ rcpt.isPending = true) :
    Settled config now message d rcptIdxs ↔ ¬ Overruled message d rcptIdxs := by
  constructor
  · rintro ⟨hone, -⟩ hover
    obtain ⟨i, hi, htwo⟩ := length_statusUpdates_of_overruled hpending hnodup hover
    rw [hone i hi] at htwo
    cases htwo
  · intro hover
    have hone := fun i (hi : i ∈ rcptIdxs) => statusUpdates_of_mem hpending hnodup hover hi
    refine ⟨hone, fun i => ?_⟩
    rw [getElem?_applyResults config now (isRateLimited_deliver message d rcptIdxs hpending)]
    by_cases hi : i ∈ rcptIdxs
    · rw [hone i hi]
      simp only [if_pos hi]
      rfl
    · rw [statusUpdates_of_notMem hpending hnodup hi]
      simp only [if_neg hi]
      rfl

section

/-- Every hour, for five days. -/
def hourly : QueueConfig := fun _ => ⟨[3600], [86400], .ttl 432000, "default"⟩

def rcptNamed (address : String) : Recipient :=
  ⟨address, ⟨0, 0⟩, ⟨86400, 0⟩, .ttl 432000, "default", .scheduled, ⟨false, true, true, false, false⟩⟩

/-- A message to two recipients. -/
def toBoth : Message :=
  ⟨0, [], "s@y", [rcptNamed "a@x", rcptNamed "b@x"], ⟨false, false, false, false⟩, none, 10, []⟩

/-- A host that answers with some codes to the two RCPT commands and to the message. -/
def hostAnswering (first second message : ℕ) : Dialogue where
  hostname := "mx.x"
  localHostname := "mx.y"
  isSmtp := true
  capabilities := some ⟨false, false, false, false, false⟩
  helo := .timedOut
  auth := none
  mail := .ok ⟨250, (2, 1, 0), "OK"⟩
  rcpt i := .ok ⟨if i = 0 then first else second, (0, 0, 0), ""⟩
  send := .sent
  dataResponse := .received ⟨message, (0, 0, 0), ""⟩
  lmtpResponses _ := .timedOut
  lmtp_length _ _ h := by cases h

theorem pending_toBoth : ∀ i ∈ [0, 1], ∃ rcpt, toBoth.recipients[i]? = some rcpt ∧ rcpt.isPending = true :=
  forall_mem_cons.mpr ⟨⟨_, rfl, rfl⟩, forall_mem_singleton.mpr ⟨_, rfl, rfl⟩⟩

/-- The message is refused for both. -/
theorem settled_refused : Settled hourly 100 toBoth (hostAnswering 250 250 451) [0, 1] := by
  refine (settled_iff hourly 100 (hostAnswering 250 250 451) (by decide) pending_toBoth).mpr ?_
  rintro ⟨capabilities, -, ⟨i, -, hrefused⟩, -⟩
  have haccepts : (hostAnswering 250 250 451).accepts i = true := by
    by_cases h : i = 0 <;> simp [accepts, hostAnswering, Response.severity]
  rw [haccepts] at hrefused
  cases hrefused

/-- One recipient is refused for good, and the message temporarily: the refusal is lost. -/
theorem not_settled : ¬ ∀ (config : QueueConfig) (now : ℕ) (message : Message) (d : Dialogue) (rcptIdxs : List ℕ),
    rcptIdxs.Nodup → (∀ i ∈ rcptIdxs, ∃ rcpt, message.recipients[i]? = some rcpt ∧ rcpt.isPending = true) →
    Settled config now message d rcptIdxs := by
  intro h
  have hone := (h hourly 100 toBoth (hostAnswering 550 250 451) [0, 1] (by decide) pending_toBoth).1 0 (by decide)
  have htwo : (statusUpdates 0 (deliver toBoth (hostAnswering 550 250 451) [0, 1])).length = 2 := rfl
  rw [hone] at htwo
  cases htwo

end

end MailServer.Smtp
