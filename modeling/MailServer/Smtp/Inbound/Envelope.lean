import MailServer.Lib.Except
import MailServer.Smtp.Inbound.Session

/-!
# MAIL and RCPT (`smtp/src/inbound/mail.rs`, `inbound/rcpt.rs`)

* `Stage`: one check of a MAIL, and what the session notes where the check passes.
* `SessionData.handleMailFrom`: the checks of a MAIL in their order.
* `SessionData.handleRcptTo`: a recipient is added, then checked, and taken back where a check fails.
-/

namespace MailServer.Smtp.Inbound

/-! ## MAIL -/

structure MailFrom where
  address : String
  flags : MailFlags
  envId : Option String
  /-- the parameter BY -/
  deliverBy : ℤ
  mtPriority : ℤ
  size : ℕ
  holdFor : ℕ
  holdUntil : ℕ
deriving DecidableEq

namespace MailFrom

def hasBy (from_ : MailFrom) : Bool := from_.flags.byNotify || from_.flags.byReturn

def hasHold (from_ : MailFrom) : Bool := from_.holdFor != 0 || from_.holdUntil != 0

/-- `checked_abs` of an `i64`, which the least of them has not. -/
def absBy (from_ : MailFrom) : ℕ := if from_.deliverBy = -0x8000000000000000 then 0 else from_.deliverBy.natAbs

def hold (from_ : MailFrom) (now : ℕ) : ℕ := if from_.holdFor ≠ 0 then from_.holdFor else from_.holdUntil - now

end MailFrom

/-- What the configuration says about a MAIL and what its checks find. -/
structure MailChecks where
  iprev : IprevResult
  isAllowed : Bool
  script : Option ScriptResult
  /-- the replies of the milters and hooks that reject the command -/
  milters : Option String
  hooks : Option String
  rewrite : Option String
  mustMatchSender : Bool
  requireTls : Bool
  deliverBy : Option ℕ
  mtPriority : Bool
  maxMessageSize : ℕ
  now : ℕ
  futureRelease : Option ℕ
  dsn : Bool
  /-- `is_allowed`: no limit on the rate is exceeded. -/
  withinRate : Bool
  spf : SpfResult
  rcptParams : RcptParameters

/-- A check after the sender is set: the reply where it fails, and what the session notes where it does not. -/
structure Stage where
  objection : SessionData → Option String
  effect : SessionData → SessionData

def Stage.check (objection : Option String) : Stage := ⟨fun _ => objection, id⟩

/-- The stages in their order.  The first objection drops the sender. -/
def runStages : SessionData → List Stage → Except Exit SessionData
  | d, [] => .ok d
  | d, stage :: stages =>
    match stage.objection d with
    | some reply => .error ({ d with mailFrom := none }, .refused reply)
    | none => runStages (stage.effect d) stages

section

variable (S : Strings) (params : SessionParameters) (n : ℕ) (from_ : MailFrom) (checks : MailChecks)

def scriptStage : Stage where
  objection _ :=
    match checks.script with
    | some (.reject message) => some message
    | _ => none
  effect d :=
    match checks.script with
    | some (.accept modifications) => d.applyModifications S n modifications
    | _ => d

def rewriteStage : Stage where
  objection _ := none
  effect d :=
    match checks.rewrite.bind (envelopeSender S) with
    | some (address, addressLcase) => d.modifySender fun m => { m with address := address, addressLcase := addressLcase }
    | none => d

def senderStage : Stage where
  objection d :=
    match d.authenticatedAs, d.mailFrom with
    | some account, some mailFrom =>
      if checks.mustMatchSender && mailFrom.value.addressLcase != account.name &&
          !account.addresses.contains mailFrom.value.addressLcase then
        some "501 5.5.4 You are not allowed to send from this address.\r\n"
      else none
    | _, _ => none
  effect d := d

def requireTlsStage : Stage :=
  .check (if from_.flags.requireTls && !checks.requireTls then some "501 5.5.4 REQUIRETLS has been disabled.\r\n"
    else none)

def deliverByStage : Stage where
  objection _ :=
    if from_.hasBy then
      match checks.deliverBy with
      | some max =>
        if from_.absBy ≤ max ∧ (0 < from_.deliverBy ∨ from_.flags.byNotify = true) then none
        else some ("501 5.5.4 BY parameter exceeds maximum of " ++ toString max ++ " seconds.\r\n")
      | none => some "501 5.5.4 DELIVERBY extension has been disabled.\r\n"
    else none
  effect d := if from_.hasBy then { d with deliveryBy := ⟨from_.deliverBy, n⟩ } else d

def priorityStage : Stage where
  objection _ :=
    if from_.mtPriority ≠ 0 then
      if checks.mtPriority then
        if -6 ≤ from_.mtPriority ∧ from_.mtPriority < 6 then none
        else some "501 5.5.4 Invalid priority value.\r\n"
      else some "501 5.5.4 MT-PRIORITY extension has been disabled.\r\n"
    else none
  effect d := if from_.mtPriority ≠ 0 then { d with priority := ⟨from_.mtPriority, n⟩ } else d

def sizeStage : Stage :=
  .check (if 0 < from_.size ∧ checks.maxMessageSize < from_.size then some "552 5.3.4 Message too big for system.\r\n"
    else none)

def holdStage : Stage where
  objection _ :=
    if from_.hasHold then
      match checks.futureRelease with
      | some max =>
        if from_.hold checks.now ≤ max then none
        else some ("501 5.5.4 Requested hold time exceeds maximum of " ++ toString max ++ " seconds.\r\n")
      | none => some "501 5.5.4 FUTURERELEASE extension has been disabled.\r\n"
    else none
  effect d := if from_.hasHold then { d with futureRelease := ⟨from_.hold checks.now, n⟩ } else d

def dsnStage : Stage :=
  .check (if from_.envId.isSome && !checks.dsn then some "501 5.5.4 DSN extension has been disabled.\r\n" else none)

def spfStage : Stage where
  objection _ := if params.spfMailFrom.verify then handleSpf S checks.spf params.spfMailFrom.isStrict else none
  effect d := if params.spfMailFrom.verify then { d with spfMailFrom := some ⟨checks.spf, n⟩ } else d

/-- Whether the sender is allowed, what the filters make of it, and its rewriting. -/
def addressStages : List Stage :=
  [.check (if checks.isAllowed then none else some "550 5.7.1 Sender address not allowed.\r\n"), scriptStage S n checks,
    .check checks.milters, .check checks.hooks, rewriteStage S checks]

/-- The checks of the sender that this leaves, and of the parameters. -/
def parameterStages : List Stage :=
  [senderStage checks, requireTlsStage from_ checks, deliverByStage n from_ checks, priorityStage n from_ checks,
    sizeStage from_ checks, holdStage n from_ checks, dsnStage from_ checks,
    .check (if checks.withinRate then none else some "452 4.4.5 Rate limit exceeded, try again later.\r\n"),
    spfStage S params n checks]

/-- What `handle_mail_from` checks between setting the sender and accepting it. -/
def mailStages : List Stage := addressStages S n checks ++ parameterStages S params n from_ checks

namespace SessionData

variable (d : SessionData)

/-- The guards of MAIL, with the reply where one of them holds. -/
def mailGuard : Option String :=
  if d.heloDomain = "" ∧ (params.ehloRequire || params.spfEhlo.verify || params.spfMailFrom.verify) = true then
    some "503 5.5.1 Polite people say EHLO first.\r\n"
  else if d.mailFrom.isSome then some "503 5.5.1 Multiple MAIL commands not allowed.\r\n"
  else if params.authRequire && d.authenticatedAs.isNone then some "503 5.5.1 You must authenticate first.\r\n"
  else none

/-- The reverse DNS lookup, which is made once. -/
def verifyIprev : SessionData :=
  if d.iprev = none ∧ params.iprev.verify = true then { d with iprev := some checks.iprev } else d

def iprevGuard : Option String :=
  if params.iprev.isStrict && d.iprev != some .pass then
    some (if d.iprev = some .tempError then "451 4.7.25 Temporary error validating reverse DNS.\r\n"
      else "550 5.7.25 Reverse DNS validation failed.\r\n")
  else none

def setMailFrom : SessionData :=
  { d with
    mailFrom := some ⟨⟨from_.address, if from_.address = "" then "" else S.toLowercase from_.address, from_.flags,
      from_.envId⟩, n⟩ }

def handleMailFrom : Exit :=
  match d.mailGuard params with
  | some reply => (d, .refused reply)
  | none =>
    match (d.verifyIprev params checks).iprevGuard params with
    | some reply => (d.verifyIprev params checks, .refused reply)
    | none =>
      finish (fun d : SessionData => (d, .accepted "250 2.1.0 OK\r\n"))
        (runStages ((d.verifyIprev params checks).setMailFrom S n from_) (mailStages S params n from_ checks))

end SessionData

end

/-! ## RCPT -/

structure RcptTo where
  address : String
  flags : RcptFlags
  orcpt : Option String
deriving DecidableEq

inductive RcptResolution where
  | accept
  | expand (members : List String)
  | rewrite (address : String)
  | unknownRecipient
  | unknownDomain
deriving DecidableEq

/-- What the configuration says about a RCPT and what its checks find. -/
structure RcptChecks where
  script : Option ScriptResult
  /-- there is a rule to rewrite recipients, or a milter or a hook for RCPT -/
  filtered : Bool
  milters : Option String
  hooks : Option String
  rewrite : Option String
  /-- `rcpt_resolve`, which may fail -/
  resolution : Option RcptResolution
  relay : Bool
  withinRate : Bool
  /-- Greylisting is on, and the store has just noted the sender and the recipient for the first time. -/
  greylisted : Bool
deriving DecidableEq

section

variable (S : Strings) (params : RcptParameters) (n : ℕ) (checks : RcptChecks)

/-- Addresses are equal when they are so in lower case. -/
def containsRcpt (rcpts : List (Given Rcpt)) (rcpt : Rcpt) : Bool :=
  rcpts.any fun r => r.value.addressLcase == rcpt.addressLcase

/-- The members of a list that are not among the recipients yet. -/
def expandMembers (list : Rcpt) : List (Given Rcpt) → List String → List (Given Rcpt)
  | rcpts, [] => rcpts
  | rcpts, member :: members =>
    let rcpt := Rcpt.new S member
    if containsRcpt rcpts rcpt || rcpt.addressLcase == list.addressLcase then
      expandMembers list rcpts members
    else
      expandMembers list
        (rcpts ++ [⟨{ rcpt with dsnInfo := some ("rfc822;" ++ list.addressLcase), flags := list.flags }, n⟩]) members

namespace SessionData

variable (d : SessionData)

def pushRcpt (rcpt : Rcpt) : SessionData := { d with rcptTo := d.rcptTo ++ [⟨rcpt, n⟩] }

def popRcpt : SessionData := { d with rcptTo := d.rcptTo.dropLast }

/-- The answer to a recipient that is there already. -/
def duplicate (d : SessionData) : Exit := ({ d with rcptOks := d.rcptOks + 1 }, .accepted "250 2.1.5 OK\r\n")

def addRcpt (to_ : RcptTo) : Except Exit SessionData :=
  if d.mailFrom = none then .error (d, .refused "503 5.5.1 MAIL is required first.\r\n")
  else if params.rcptMax ≤ min d.rcptTo.length d.rcptOks then .error (d, .refused "455 4.5.3 Too many recipients.\r\n")
  else if (to_.flags.anyNotify || to_.orcpt.isSome) && !params.rcptDsn then
    .error (d, .refused "501 5.5.4 DSN extension has been disabled.\r\n")
  else
    let rcpt : Rcpt := ⟨to_.address, S.toLowercase to_.address, to_.flags, to_.orcpt⟩
    if containsRcpt d.rcptTo rcpt then .error d.duplicate else .ok (d.pushRcpt n rcpt)

def rcptScript : Except Exit SessionData :=
  match checks.script with
  | some (.accept modifications) => .ok (d.applyModifications S n modifications)
  | some (.reject message) => .error (d.popRcpt, .refused message)
  | _ => .ok d

def rcptFilters : Except Exit SessionData :=
  match checks.milters <|> checks.hooks with
  | some message => .error (d.popRcpt, .refused message)
  | none => .ok d

def rcptRewrite : SessionData :=
  match checks.rewrite with
  | some address =>
    if '@' ∈ address.toList then
      d.modifyLastRcpt fun r => { r with address := address, addressLcase := S.toLowercase address }
    else d
  | none => d

def rcptDuplicates : Except Exit SessionData :=
  match d.rcptTo.getLast? with
  | some rcpt =>
    if 1 < d.rcptTo.countP fun r => r.value.addressLcase == rcpt.value.addressLcase then .error d.popRcpt.duplicate
    else .ok d
  | none => .ok d

/-- Sieve filtering and rewriting, where anything is configured for them. -/
def filterRcpt : Except Exit SessionData :=
  if checks.script.isSome || checks.filtered then
    (d.rcptScript S n checks).bind fun d =>
      (d.rcptFilters checks).bind fun d => (d.rcptRewrite S checks).rcptDuplicates
  else .ok d

def rcptError (reply : String) : Exit :=
  let d := { d.popRcpt with rcptErrors := d.rcptErrors + 1 }
  if d.rcptErrors < params.rcptErrorsMax then (d, .refused reply)
  else (d, .closed "451 4.3.0 Too many errors, disconnecting.\r\n")

/-- What the address stands for, with the members where it is a list. -/
def resolveRcpt : Except Exit (SessionData × Option (List String)) :=
  match checks.resolution with
  | some .accept => .ok (d, none)
  | some (.rewrite address) =>
    match d.rcptTo.getLast? with
    | some orig =>
      let rcpt := Rcpt.new S address
      if containsRcpt d.rcptTo.dropLast rcpt then .error d.popRcpt.duplicate
      else
        .ok (d.popRcpt.pushRcpt n
          { rcpt with dsnInfo := some ("rfc822;" ++ orig.value.addressLcase), flags := orig.value.flags }, none)
    | none => .ok (d, none)
  | some (.expand members) => .ok (d, some members)
  | some .unknownRecipient => .error (d.rcptError params "550 5.1.2 Mailbox does not exist.\r\n")
  | some .unknownDomain =>
    if checks.relay then .ok (d, none) else .error (d.rcptError params "550 5.1.2 Relay not allowed.\r\n")
  | none => .error (d.popRcpt, .refused "451 4.4.3 Unable to verify address at this time.\r\n")

def limitRcpt : Except Exit SessionData :=
  if checks.withinRate then
    if d.authenticatedAs = none ∧ checks.greylisted = true then
      .error (d.popRcpt, .refused "452 4.2.2 Greylisted, please try again in a few moments.\r\n")
    else .ok d
  else .error (d.popRcpt, .refused "452 4.4.5 Rate limit exceeded, try again later.\r\n")

def expandRcpt (members : Option (List String)) : SessionData :=
  match members, d.rcptTo.getLast? with
  | some members, some list => { d with rcptTo := expandMembers S n list.value d.rcptTo.dropLast members }
  | _, _ => d

def handleRcptTo (to_ : RcptTo) : Exit :=
  finish duplicate
    ((d.addRcpt S params n to_).bind fun d =>
      (d.filterRcpt S n checks).bind fun d =>
        (d.resolveRcpt S params n checks).bind fun resolved =>
          (resolved.1.limitRcpt checks).bind fun d => .ok (d.expandRcpt S n resolved.2))

end SessionData

end

end MailServer.Smtp.Inbound
