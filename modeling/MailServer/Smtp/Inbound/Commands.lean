import MailServer.Smtp.Inbound.Envelope

/-!
# Messages, and the commands of a session (`smtp/src/inbound/data.rs`, `inbound/session.rs`)

* `SessionData.queueMessage`: what becomes of a message, with the two places where the sender is taken for granted.
* `step`: one command after the other, until the session ends.
-/

namespace MailServer.Smtp.Inbound

/-! ## Messages -/

inductive SpamFilterAction where
  | allow (results : List Bool)
  | discard
  | reject
  | disabled
deriving DecidableEq

/-- What milters and hooks change of the envelope, with the parameters where they give any that can be read. -/
inductive Modification where
  | changeFrom (sender : String) (parameters : Option (MailFlags × Option String))
  | addRcpt (recipient : String) (parameters : Option (RcptFlags × Option String))
  | deleteRcpt (recipient : String)
deriving DecidableEq

/-- What the configuration says about a message and what its checks find. -/
structure DataChecks where
  maxMessages : ℕ
  parsed : Bool
  looping : Bool
  /-- the replies of strict checks that do not pass -/
  dkim : Option String
  arc : Option String
  dmarcVerify : Bool
  dmarc : Option String
  /-- A recipient is an address for reports. -/
  isReport : Bool
  forwardReports : Bool
  spam : SpamFilterAction
  /-- the reply where a filter rejects the message, and what it changes where none does -/
  milters : Except String (List Modification)
  hooks : Except String (List Modification)
  script : Option ScriptResult
  hasQuota : Bool
  /-- The message is written to the store, and has this number there. -/
  queueId : Option String

/-- What a message that is queued has from the transaction. -/
structure Queued where
  mailFrom : Given Sender
  rcptTo : List (Given Rcpt)
  priority : Given ℤ
  deliveryBy : Given ℤ
  futureRelease : Given ℕ
  spfMailFrom : Option (Given SpfResult)
deriving DecidableEq

/-- Where `queue_message` stops before a message is queued: at an `unwrap` of no sender, or with a reply. -/
inductive Stop where
  | panic
  | exit (exit : Exit)

/-- An address without what is around it in angle brackets. -/
def stripBrackets (S : Strings) (address : String) : String :=
  match (S.trim address).toList with
  | '<' :: rest =>
    S.trim (String.ofList (if '>' ∈ rest then (rest.reverse.dropWhile (· ≠ '>')).tail.reverse else rest))
  | _ => S.trim address

/-- The recipients that the spam filter has found the message to be spam for. -/
def markSpam : List Bool → List (Given Rcpt) → List (Given Rcpt)
  | isSpam :: results, rcpt :: rcpts =>
    (if isSpam then rcpt.map fun r => { r with flags := { r.flags with spamPayload := true } } else rcpt) ::
      markSpam results rcpts
  | _, rcpts => rcpts

namespace SessionData

variable (S : Strings) (n : ℕ) (checks : DataChecks) (d : SessionData)

/-- One turn of `apply_milter_modifications`. -/
def applyMilterModification (d : SessionData) : Modification → SessionData
  | .changeFrom sender parameters =>
    let address := stripBrackets S sender
    let mailFrom : Sender :=
      ⟨address, S.toLowercase address, (parameters.map Prod.fst).getD .none, parameters.bind Prod.snd⟩
    { d with mailFrom := some ⟨mailFrom, (d.mailFrom.map Given.command).getD n⟩ }
  | .addRcpt recipient parameters =>
    let address := stripBrackets S recipient
    let rcpt : Rcpt := ⟨address, S.toLowercase address, (parameters.map Prod.fst).getD .none, parameters.bind Prod.snd⟩
    if '@' ∈ address.toList ∧ containsRcpt d.rcptTo rcpt = false then d.pushRcpt n rcpt else d
  | .deleteRcpt recipient =>
    { d with rcptTo := d.rcptTo.filter fun r => r.value.addressLcase != stripBrackets S recipient }

def refuse {α : Type} (reply : String) : Except Stop α := .error (.exit (d, .refused reply))

def verifyDmarc : Except Stop SessionData :=
  if d.spfMailFrom.isSome && checks.dmarcVerify then
    match checks.dmarc with
    | some reply => d.refuse reply
    | none => .ok d
  else .ok d

def analyzeReport : Except Stop SessionData :=
  if d.authenticatedAs.isNone && checks.isReport && !checks.forwardReports then
    .error (.exit ({ d with messagesSent := d.messagesSent + 1 },
      .accepted "250 2.0.0 Message queued for delivery.\r\n"))
  else .ok d

def spamClassify : Except Stop SessionData :=
  match checks.spam with
  | .allow results => .ok { d with rcptTo := markSpam results d.rcptTo }
  | .discard =>
    .error (.exit ({ d with messagesSent := d.messagesSent + 1 },
      .accepted "250 2.0.0 Message queued for delivery.\r\n"))
  | .reject =>
    .error (.exit ({ d with messagesSent := d.messagesSent + 1 },
      .refused "550 5.7.1 Message rejected due to excessive spam score.\r\n"))
  | .disabled => .ok d

def filterMessage : Except Stop SessionData :=
  match checks.milters, checks.hooks with
  | .error reply, _ => d.refuse reply
  | .ok _, .error reply => d.refuse reply
  | .ok modifications, .ok modifications' =>
    .ok ((modifications ++ modifications').foldl (applyMilterModification S n) d)

def runScript : Except Stop SessionData :=
  match checks.script with
  | some (.accept modifications) | some (.replace modifications) => .ok (d.applyModifications S n modifications)
  | some (.reject message) => d.refuse message
  | some .discard => .error (.exit (d, .accepted "250 2.0.0 Message queued for delivery.\r\n"))
  | none => .ok d

/-- The message is built for the sender and the recipients, and written where the quotas allow it. -/
def writeMessage : Except Stop (SessionData × Queued) :=
  match d.mailFrom with
  | none => .error .panic
  | some mailFrom =>
    let queued := ⟨mailFrom, d.rcptTo, d.priority, d.deliveryBy, d.futureRelease, d.spfMailFrom⟩
    let d := { d with rcptTo := [] }
    if checks.hasQuota then
      if checks.queueId.isSome then .ok ({ d with messagesSent := d.messagesSent + 1 }, queued)
      else d.refuse "451 4.3.5 Unable to accept message at this time.\r\n"
    else d.refuse "452 4.3.1 Mail system full, try again later.\r\n"

/-- The checks before the sender is looked at. -/
def checkMessage : Except Stop SessionData :=
  if checks.parsed then
    if checks.looping then d.refuse "450 4.4.6 Too many Received headers. Possible loop detected.\r\n"
    else
      match checks.dkim <|> checks.arc with
      | some reply => d.refuse reply
      | none => .ok d
  else d.refuse "550 5.7.7 Failed to parse message.\r\n"

/-- The headers name the sender. -/
def authResults : Except Stop SessionData := if d.mailFrom.isSome then .ok d else .error .panic

def queueMessage : Except Stop (SessionData × Queued) :=
  (checkMessage checks { d with message := [] }).bind fun d =>
    d.authResults.bind fun d =>
      (d.verifyDmarc checks).bind fun d =>
        (d.analyzeReport checks).bind fun d =>
          (d.spamClassify checks).bind fun d =>
            (d.filterMessage S n checks).bind fun d => (d.runScript S n checks).bind fun d => d.writeMessage checks

/-- `can_send_data`, with the reply where it returns `false`. -/
def canSendData : Option String :=
  if d.rcptTo = [] then some "503 5.5.1 RCPT is required first.\r\n"
  else if d.messagesSent < checks.maxMessages then none
  else some "452 4.4.5 Maximum number of messages per session exceeded.\r\n"

end SessionData

/-! ## Commands -/

structure Session where
  params : SessionParameters
  rcptParams : RcptParameters
  data : SessionData
  isTls : Bool
  /-- The session has not ended. -/
  connected : Bool
  /-- An `unwrap` has failed. -/
  crashed : Bool
  /-- how many commands there have been, and the numbers of the accepted ones -/
  commands : ℕ
  accepted : List ℕ
  queued : List Queued

/-- A session at its greeting. -/
def Session.new (params : SessionParameters) (rcptParams : RcptParameters) (isTls : Bool) : Session where
  params := params
  rcptParams := rcptParams
  data := .new
  isTls := isTls
  connected := true
  crashed := false
  commands := 0
  accepted := []
  queued := []

inductive Verb where
  | helo
  | ehlo
  | lhlo
deriving DecidableEq

/-- What comes of the credentials of an AUTH. -/
inductive AuthOutcome where
  | succeeded (account : AccountInfo)
  | failed
  | unavailable
  | banned

/-- A command, or a line in the place of one, with all that is found out about it. -/
inductive Event where
  | hello (verb : Verb) (domain : String) (checks : EhloChecks)
  | syntaxError (isEhlo : Bool) (checks : EhloChecks)
  | mail (from_ : MailFrom) (checks : MailChecks)
  | rcpt (to_ : RcptTo) (checks : RcptChecks)
  | data (tooLarge : Bool) (checks : DataChecks)
  | bdat (chunk : List UInt8) (isLast : Bool) (checks : DataChecks)
  | rset
  | auth (outcome : AuthOutcome)
  | startTls (isAvailable : Bool)
  | noop
  | quit

namespace Session

variable (S : Strings) (s : Session)

/-- The session after a command, which is the next one, and its answer. -/
def answered (exit : Exit) : Session :=
  match exit.2 with
  | .accepted _ => { s with data := exit.1, commands := s.commands + 1, accepted := s.accepted ++ [s.commands + 1] }
  | .refused _ => { s with data := exit.1, commands := s.commands + 1 }
  | .closed _ => { s with data := exit.1, commands := s.commands + 1, connected := false }

/-- A command for the other protocol. -/
def wrongVerb : ServerProtocol → Verb → Option String
  | .smtp, .lhlo => some "502 5.5.1 Invalid command: EHLO expected.\r\n"
  | .lmtp, .helo => some "500 5.5.1 Invalid command: LHLO expected.\r\n"
  | .lmtp, .ehlo => some "500 5.5.1 Invalid command.\r\n"
  | .smtp, .helo | .smtp, .ehlo | .lmtp, .lhlo => none

/-- What follows the end of a message.  An empty reply ends the session. -/
def received : Except Stop (SessionData × Queued) → Session
  | .error .panic => { s with commands := s.commands + 1, connected := false, crashed := true }
  | .error (.exit (d, answer)) =>
    if answer = .refused "" then s.answered (d, .closed "") else s.answered (d.reset, answer)
  | .ok (d, queued) =>
    { s.answered (d.reset, .accepted "250 2.0.0 Message queued.\r\n") with queued := s.queued ++ [queued] }

/-- DATA, with the message that follows it. -/
def handleData (tooLarge : Bool) (checks : DataChecks) : Session :=
  match s.data.canSendData checks with
  | some reply => s.answered (s.data, .refused reply)
  | none =>
    if tooLarge then s.answered ({ s.data with message := [] }, .refused "552 5.3.4 Message too big for system.\r\n")
    else s.received (s.data.queueMessage S (s.commands + 1) checks)

def handleBdat (chunk : List UInt8) (isLast : Bool) (checks : DataChecks) : Session :=
  if chunk.length + s.data.message.length < s.rcptParams.maxMessageSize then
    let d := { s.data with message := s.data.message ++ chunk }
    match d.canSendData checks with
    | some reply => s.answered ({ d with message := [] }, .refused reply)
    | none =>
      if isLast then s.received (d.queueMessage S (s.commands + 1) checks)
      else s.answered (d, .accepted "250 2.6.0 Chunk accepted.\r\n")
  else s.answered ({ s.data with message := [] }, .refused "552 5.3.4 Message too big for system.\r\n")

def handleAuth : AuthOutcome → Exit
  | outcome =>
    if s.data.authenticatedAs.isSome then (s.data, .refused "503 5.5.1 Already authenticated.\r\n")
    else
      match outcome with
      | .succeeded account =>
        ({ s.data with authenticatedAs := some account }, .accepted "235 2.7.0 Authentication succeeded.\r\n")
      | .failed =>
        let d := { s.data with authErrors := s.data.authErrors + 1 }
        if d.authErrors < s.params.authErrorsMax then
          (d, .refused "535 5.7.8 Authentication credentials invalid.\r\n")
        else (d, .closed "455 4.3.0 Too many authentication errors, disconnecting.\r\n")
      | .unavailable => (s.data, .refused "454 4.7.0 Temporary authentication failure\r\n")
      | .banned => (s.data, .closed "")

def handle : Event → Session
  | .hello verb domain checks =>
    match wrongVerb s.params.protocol verb with
    | some reply => s.answered (s.data, .refused reply)
    | none => s.answered (s.data.handleEhlo S s.params domain checks)
  | .syntaxError isEhlo checks =>
    if isEhlo && !s.params.ehloRejectNonFqdn then s.answered (s.data.handleEhlo S s.params "null" checks)
    else s.answered (s.data, .refused "501 5.5.2 Syntax error.\r\n")
  | .mail from_ checks =>
    let exit := s.data.handleMailFrom S s.params (s.commands + 1) from_ checks
    match exit.2 with
    | .accepted _ => { s.answered exit with rcptParams := checks.rcptParams }
    | _ => s.answered exit
  | .rcpt to_ checks => s.answered (s.data.handleRcptTo S s.rcptParams (s.commands + 1) checks to_)
  | .data tooLarge checks => s.handleData S tooLarge checks
  | .bdat chunk isLast checks => s.handleBdat S chunk isLast checks
  | .rset => s.answered (s.data.reset, .accepted "250 2.0.0 OK\r\n")
  | .auth outcome => s.answered (s.handleAuth outcome)
  | .startTls isAvailable =>
    if s.isTls then s.answered (s.data, .refused "504 5.7.4 Already in TLS mode.\r\n")
    else if isAvailable then
      { s.answered (s.data, .accepted "220 2.0.0 Ready to start TLS.\r\n") with isTls := true }
    else s.answered (s.data, .refused "502 5.7.0 TLS not available.\r\n")
  | .noop => s.answered (s.data, .accepted "250 2.0.0 OK\r\n")
  | .quit => s.answered (s.data, .closed "221 2.0.0 Bye.\r\n")

end Session

/-- The next command, while the session lasts. -/
def step (S : Strings) (s : Session) (event : Event) : Option Session :=
  if s.connected then some (s.handle S event) else none

end MailServer.Smtp.Inbound
