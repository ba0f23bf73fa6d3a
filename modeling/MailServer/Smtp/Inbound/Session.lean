import Mathlib.Algebra.Ring.Int.Defs
import Mathlib.Data.List.ModifyLast

/-!
# The session of a mail client (`smtp/src/core/mod.rs`, `inbound/ehlo.rs`, `inbound/session.rs`, `scripts/envelope.rs`)

A session keeps one transaction at a time: the sender that MAIL names, the recipients that RCPT adds and the parameters of
MAIL, until a message is queued for them or RSET drops them.

* `SessionData`: the state of a session.
* `SessionData.reset`: the end of a transaction.
* `SessionData.applyModifications`: what a Sieve script makes of the envelope.
* `SessionData.handleEhlo`: EHLO, HELO and LHLO.
-/

namespace MailServer.Smtp.Inbound

inductive SpfResult where
  | pass
  | fail
  | softFail
  | neutral
  | tempError
  | permError
  | none
deriving DecidableEq

/-- The functions on strings of the standard library that are used here, and the text of a result of SPF. -/
structure Strings where
  toLowercase : String → String
  trim : String → String
  spfResult : SpfResult → String

/-! ## State -/

/-- The flags of a sender that are read here, each of which is a bit. -/
structure MailFlags where
  byNotify : Bool
  byReturn : Bool
  byTrace : Bool
  retFull : Bool
  retHdrs : Bool
  requireTls : Bool
deriving DecidableEq

/-- The flags of a recipient that are read here. -/
structure RcptFlags where
  notifySuccess : Bool
  notifyFailure : Bool
  notifyDelay : Bool
  notifyNever : Bool
  spamPayload : Bool
deriving DecidableEq

namespace MailFlags

def none : MailFlags := ⟨false, false, false, false, false, false⟩

end MailFlags

namespace RcptFlags

def none : RcptFlags := ⟨false, false, false, false, false⟩

/-- Whether the client asks for reports, or for none. -/
def anyNotify (flags : RcptFlags) : Bool :=
  flags.notifyDelay || flags.notifyNever || flags.notifySuccess || flags.notifyFailure

end RcptFlags

structure SessionAddress (Flags : Type) where
  address : String
  addressLcase : String
  flags : Flags
  dsnInfo : Option String
deriving DecidableEq

abbrev Sender := SessionAddress MailFlags

abbrev Rcpt := SessionAddress RcptFlags

/-- `SessionAddress::new`. -/
def Rcpt.new (S : Strings) (address : String) : Rcpt := ⟨address, S.toLowercase address, .none, none⟩

/-- A value of a transaction, with the number of the command that gave it: a ghost, which the code does not keep. -/
structure Given (α : Type) where
  value : α
  command : ℕ
deriving DecidableEq

namespace Given

variable {α β : Type}

def map (f : α → β) (g : Given α) : Given β := ⟨f g.value, g.command⟩

@[simp] theorem map_command (f : α → β) (g : Given α) : (g.map f).command = g.command := rfl

end Given

inductive IprevResult where
  | pass
  | fail
  | tempError
  | permError
  | none
deriving DecidableEq

inductive VerifyStrategy where
  | relaxed
  | strict
  | disable
deriving DecidableEq

namespace VerifyStrategy

def verify : VerifyStrategy → Bool
  | strict | relaxed => true
  | disable => false

def isStrict : VerifyStrategy → Bool
  | strict => true
  | relaxed | disable => false

end VerifyStrategy

structure AccountInfo where
  name : String
  addresses : List String
deriving DecidableEq

structure SessionData where
  heloDomain : String
  mailFrom : Option (Given Sender)
  rcptTo : List (Given Rcpt)
  rcptErrors : ℕ
  rcptOks : ℕ
  message : List UInt8
  authenticatedAs : Option AccountInfo
  authErrors : ℕ
  priority : Given ℤ
  deliveryBy : Given ℤ
  futureRelease : Given ℕ
  messagesSent : ℕ
  iprev : Option IprevResult
  spfEhlo : Option SpfResult
  spfMailFrom : Option (Given SpfResult)
deriving DecidableEq

inductive ServerProtocol where
  | smtp
  | lmtp
deriving DecidableEq

/-- What `eval_session_params` reads from the configuration, when the connection is accepted. -/
structure SessionParameters where
  protocol : ServerProtocol
  ehloRequire : Bool
  ehloRejectNonFqdn : Bool
  authRequire : Bool
  authErrorsMax : ℕ
  spfEhlo : VerifyStrategy
  spfMailFrom : VerifyStrategy
  iprev : VerifyStrategy

/-- What `eval_rcpt_params` reads from it, after every MAIL that is accepted. -/
structure RcptParameters where
  rcptErrorsMax : ℕ
  rcptMax : ℕ
  rcptDsn : Bool
  maxMessageSize : ℕ

/-- What a command is answered. -/
inductive Answer where
  | accepted (reply : String)
  | refused (reply : String)
  /-- The session ends with the reply. -/
  | closed (reply : String)
deriving DecidableEq

/-- A command is done with: the state that it leaves, and its answer. -/
abbrev Exit := SessionData × Answer

/-- What comes of a command of which nothing is left to be done. -/
def finish {α : Type} (done : α → Exit) : Except Exit α → Exit
  | .ok a => done a
  | .error exit => exit

namespace SessionData

/-- `SessionData::new`. -/
def new : SessionData where
  heloDomain := ""
  mailFrom := none
  rcptTo := []
  rcptErrors := 0
  rcptOks := 0
  message := []
  authenticatedAs := none
  authErrors := 0
  priority := ⟨0, 0⟩
  deliveryBy := ⟨0, 0⟩
  futureRelease := ⟨0, 0⟩
  messagesSent := 0
  iprev := none
  spfEhlo := none
  spfMailFrom := none

/-- `Session::reset`. -/
def reset (d : SessionData) : SessionData :=
  { d with
    mailFrom := none
    spfMailFrom := none
    rcptTo := []
    message := []
    priority := ⟨0, 0⟩
    deliveryBy := ⟨0, 0⟩
    futureRelease := ⟨0, 0⟩
    rcptOks := 0 }

end SessionData

/-! ## Sieve scripts -/

inductive Envelope where
  | from
  | to
  | byMode
  | byTrace
  | notify
  | ret
  | orcpt
  | envid
  | byTimeAbsolute
  | byTimeRelative
deriving DecidableEq

inductive ScriptModification where
  | setEnvelope (name : Envelope) (value : String)
  | addHeader (name value : String)
deriving DecidableEq

/-- What a script decides.  The message that it may put in the place of the client's is not kept. -/
inductive ScriptResult where
  | accept (modifications : List ScriptModification)
  | replace (modifications : List ScriptModification)
  | reject (message : String)
  | discard
deriving DecidableEq

/-- The notifications of an `Envelope::Notify`. -/
def RcptFlags.setNotify (S : Strings) (value : String) (flags : RcptFlags) : RcptFlags :=
  if value = "NEVER" then
    { flags with notifySuccess := false, notifyFailure := false, notifyDelay := false, notifyNever := true }
  else
    let values := (value.toList.splitOn ',').map fun v => S.trim (String.ofList v)
    { flags with
      notifySuccess := values.contains "SUCCESS"
      notifyFailure := values.contains "FAILURE"
      notifyDelay := values.contains "DELAY"
      notifyNever := false }

/-- The addresses that an `Envelope::From` stands for. -/
def envelopeSender (S : Strings) (value : String) : Option (String × String) :=
  if '@' ∈ value.toList then some (value, S.toLowercase value)
  else if value = "" then some ("", "")
  else none

namespace SessionData

section

variable (S : Strings) (n : ℕ) (d : SessionData)

/-- Changes the sender, if there is one. -/
def modifySender (f : Sender → Sender) : SessionData := { d with mailFrom := d.mailFrom.map (Given.map f) }

/-- Changes the last recipient, if there is one. -/
def modifyLastRcpt (f : Rcpt → Rcpt) : SessionData := { d with rcptTo := d.rcptTo.modifyLast (Given.map f) }

/-- `apply_envelope_modification`, for the command with the number `n`. -/
def applyEnvelopeModification (envelope : Envelope) (value : String) : SessionData :=
  match envelope with
  | .from =>
    match envelopeSender S value with
    | none => d
    | some (address, addressLcase) =>
      match d.mailFrom with
      | some mailFrom =>
        { d with mailFrom := some (mailFrom.map fun m => { m with address := address, addressLcase := addressLcase }) }
      | none => { d with mailFrom := some ⟨⟨address, addressLcase, .none, none⟩, n⟩ }
  | .to =>
    if '@' ∈ value.toList then
      if d.rcptTo = [] then { d with rcptTo := [⟨⟨value, S.toLowercase value, .none, none⟩, n⟩] }
      else d.modifyLastRcpt fun r => { r with address := value, addressLcase := S.toLowercase value }
    else d
  | .byMode =>
    d.modifySender fun m =>
      { m with flags := { m.flags with byNotify := decide (value = "N"), byReturn := decide (value = "R") } }
  | .byTrace => d.modifySender fun m => { m with flags := { m.flags with byTrace := decide (value = "T") } }
  | .notify => d.modifyLastRcpt fun r => { r with flags := r.flags.setNotify S value }
  | .ret =>
    d.modifySender fun m =>
      { m with flags := { m.flags with retFull := decide (value = "FULL"), retHdrs := decide (value = "HDRS") } }
  | .orcpt => d.modifyLastRcpt fun r => { r with dsnInfo := some value }
  | .envid => d.modifySender fun m => { m with dsnInfo := some value }
  | .byTimeAbsolute | .byTimeRelative => d

/-- The modifications that concern the envelope, one after the other. -/
def applyModifications : SessionData → List ScriptModification → SessionData
  | d, [] => d
  | d, .setEnvelope name value :: modifications =>
    applyModifications (d.applyEnvelopeModification S n name value) modifications
  | d, .addHeader _ _ :: modifications => applyModifications d modifications

end

end SessionData

/-! ## EHLO -/

/-- What the checks of an EHLO find: whether the domain has a dot, the result of SPF, and the replies of the filters that
reject it.  `reply` lists the extensions, when none does. -/
structure EhloChecks where
  hasValidLabels : Bool
  spf : SpfResult
  script : Option String
  milters : Option String
  hooks : Option String
  reply : String

/-- The first reply of a filter. -/
def EhloChecks.filters (checks : EhloChecks) : Option String :=
  checks.script <|> checks.milters <|> checks.hooks

/-- The reply of `handle_spf`, where it returns `false`. -/
def handleSpf (S : Strings) (result : SpfResult) (strict : Bool) : Option String :=
  if result = .pass ∨ strict = false then none
  else if result = .tempError then some "451 4.7.24 Temporary SPF validation error.\r\n"
  else some ("550 5.7.23 SPF validation failed, status: " ++ S.spfResult result ++ ".\r\n")

namespace SessionData

variable (S : Strings) (params : SessionParameters)

/-- The checks of a domain that differs from the last one. -/
def checkEhlo (d : SessionData) (domain : String) (checks : EhloChecks) : Except Exit SessionData :=
  if params.ehloRejectNonFqdn && !checks.hasValidLabels then .error (d, .refused "550 5.5.0 Invalid EHLO domain.\r\n")
  else
    match if params.spfEhlo.verify then handleSpf S checks.spf params.spfEhlo.isStrict else none with
    | some reply => .error ({ d with mailFrom := none }, .refused reply)
    | none =>
      match checks.filters with
      | some reply => .error ({ d with mailFrom := none, spfEhlo := none }, .refused reply)
      | none =>
        .ok { d with
          heloDomain := domain
          spfEhlo := if params.spfEhlo.verify then some checks.spf else d.spfEhlo }

def handleEhlo (d : SessionData) (domain : String) (checks : EhloChecks) : Exit :=
  finish (fun d : SessionData => (if d.mailFrom.isSome then d.reset else d, .accepted checks.reply))
    (if domain = d.heloDomain then .ok d else checkEhlo S params d domain checks)

end SessionData

end MailServer.Smtp.Inbound
