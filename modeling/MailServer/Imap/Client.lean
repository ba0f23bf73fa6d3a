import MailServer.ImapProto.Command

/-!
# IMAP sessions (`imap/src/core/client.rs`)

A session reads a segment of bytes, checks every command in it with `is_allowed`, and then runs those allowed.

* `State` and its accessors, each of which ends in `unreachable!()` for some states.
* `isAllowed`: the states in which a command may run.
* `handle`: what running a command does to the session.  What a handler makes of the mailboxes is left out.
* `Session.ingest`: one segment; first all of it is received, then the queue is executed.
-/

namespace MailServer.Imap

open MailServer.ImapProto

/-- The state of a session, less the data of the account and the mailbox. -/
inductive State where
  | notAuthenticated (authFailures : ℕ)
  | authenticated
  | selected (isSelect : Bool)
  deriving DecidableEq

namespace State

/-! The accessors; `none` where they are `unreachable!()`. -/

def authFailures : State → Option ℕ
  | .notAuthenticated n => some n
  | _ => none

def sessionData : State → Option Unit
  | .authenticated | .selected _ => some ()
  | _ => none

/-- `mailbox_state` and `select_data`. -/
def selectData : State → Option Bool
  | .selected isSelect => some isSelect
  | _ => none

def sessionMailboxState : State → Option (Option Bool)
  | .authenticated => some none
  | .selected isSelect => some (some isSelect)
  | _ => none

end State

structure Config where
  acceptorIsTls : Bool
  allowPlainAuth : Bool
  maxAuthFailures : ℕ

/-- `is_allowed`, past the rate limiter: a command may run, or is refused with a text. -/
def isAllowed (C : Config) (isTls : Bool) (state : State) (command : Command) : Except String Unit :=
  match command with
  | .capability | .noop | .logout | .id => .ok ()
  | .startTls =>
    if !isTls then
      if C.acceptorIsTls then .ok () else .error "TLS is not available."
    else
      .error "Already in TLS mode."
  | .authenticate =>
    match state with
    | .notAuthenticated _ => .ok ()
    | _ => .error "Already authenticated."
  | .login =>
    match state with
    | .notAuthenticated _ =>
      if isTls || C.allowPlainAuth then .ok () else .error "LOGIN is disabled on the clear-text port."
    | _ => .error "Already authenticated."
  | .enable | .select | .examine | .create | .delete | .rename | .subscribe | .unsubscribe | .list | .lsub
  | .namespaces | .status | .append | .idle | .setAcl | .deleteAcl | .getAcl | .listRights | .myRights
  | .unauthenticate | .getQuota | .getQuotaRoot =>
    match state with
    | .authenticated | .selected _ => .ok ()
    | _ => .error "Not authenticated."
  | .close | .unselect | .expunge _ | .search _ | .fetch _ | .store _ | .copy _ | .move _ | .check | .sort _
  | .thread _ =>
    match state with
    | .selected isSelect =>
      if isSelect || !(match command with | .store _ | .expunge _ | .move _ => true | _ => false) then .ok ()
      else .error "Not permitted in EXAMINE state."
    | .authenticated => .error "No mailbox is selected."
    | .notAuthenticated _ => .error "Not authenticated."

/-- What a handler takes from the state before it does its work. -/
def access (command : Command) (state : State) : Option Unit :=
  match command with
  | .list | .lsub | .select | .examine | .create | .delete | .rename | .status | .subscribe | .unsubscribe
  | .namespaces | .setAcl | .deleteAcl | .getAcl | .myRights | .getQuota | .getQuotaRoot | .unselect | .idle =>
    state.sessionData
  | .append => state.sessionMailboxState.map fun _ => ()
  | .close | .expunge _ | .fetch _ | .store _ | .search _ | .copy _ | .move _ | .sort _ | .thread _ =>
    state.selectData.map fun _ => ()
  | _ => some ()

/-- What comes of a command in its handler. -/
inductive Outcome where
  | done
  /-- The handler ends before it takes anything from the state: a permission or an argument is wrong. -/
  | refused
  /-- An error after it. -/
  | failed
  /-- The credentials are wrong. -/
  | authFailed
  /-- AUTHENTICATE without an initial response. -/
  | challenge (mechanism : List UInt8)
  deriving DecidableEq

/-- `SessionResult`, and the end of a task that reached `unreachable!()`. -/
inductive Status where
  | continues
  | close
  | upgradeTls
  | panicked
  deriving DecidableEq

/-- What a byte leads to while a segment is received. -/
inductive Event where
  | quiet
  | accepted (request : Request Command)
  | rejected (request : Request Command) (details : String)
  | literal (size : ℕ)
  | syntaxError (error : Error)
  deriving DecidableEq

/-- A byte that was read, the state of the receiver it was read in, and what it led to. -/
structure Entry where
  state : ImapProto.State
  ch : UInt8
  event : Event
  deriving DecidableEq

/-- A command that was run, and the session it was run in. -/
structure Run where
  isTls : Bool
  state : State
  request : Request Command
  deriving DecidableEq

/-- A session, with a record of what it has read and run so far. -/
structure Session where
  receiver : Receiver Command
  state : State
  isTls : Bool
  status : Status
  /-- The number of commands received. -/
  commands : ℕ
  log : List Entry
  executed : List Run
  deriving DecidableEq

/-- `AUTHENTICATE` without an initial response: the next line is to be its second argument. -/
def challengeReceiver (r : Receiver Command) (tag : String) (mechanism : List UInt8) : Receiver Command :=
  { r with request := ⟨tag, .authenticate, [.argument mechanism]⟩, state := .argument SP }

/-- `authenticate`. -/
def authenticate (C : Config) (s : Session) : Outcome → Session
  | .done => { s with state := .authenticated }
  | .authFailed =>
    match s.state.authFailures with
    | none => { s with status := .panicked }
    | some n =>
      if n < C.maxAuthFailures then { s with state := .notAuthenticated (n + 1) }
      else { s with status := .close }
  | _ => s

/-- A handler that takes something from the state, and changes the state when it is done. -/
def accessing (s : Session) (command : Command) (target : State) : Outcome → Session
  | .refused => s
  | outcome =>
    match access command s.state with
    | none => { s with status := .panicked }
    | some () => if outcome = .done then { s with state := target } else s

/-- The handlers. -/
def handle (C : Config) (s : Session) (request : Request Command) (outcome : Outcome) : Session :=
  match request.command with
  | .logout => { s with status := .close }
  | .startTls => { s with status := .upgradeTls }
  | .unauthenticate => { s with state := .notAuthenticated 0 }
  | .login => authenticate C s outcome
  | .authenticate =>
    match outcome with
    | .challenge mechanism => { s with receiver := challengeReceiver s.receiver request.tag mechanism }
    | _ => authenticate C s outcome
  | .select => accessing s .select (.selected true) outcome
  | .examine => accessing s .examine (.selected false) outcome
  | .close => accessing s .close .authenticated outcome
  | .unselect => accessing s .unselect .authenticated .done
  | command => accessing s command s.state outcome

namespace Session

variable (C : Config) (E : ℕ → Outcome)

/-- The session a client finds. -/
def new (maxRequestSize : ℕ) (isTls : Bool) : Session :=
  ⟨.withMaxRequestSize maxRequestSize, .notAuthenticated 0, isTls, .continues, 0, [], []⟩

/-- A byte has been read. -/
def read (s : Session) (ch : UInt8) (r : Receiver Command) (event : Event) : Session :=
  { s with receiver := r, log := s.log ++ [⟨s.receiver.state, ch, event⟩] }

/-- A command has been received. -/
def receiveCommand (s : Session) (ch : UInt8) (r : Receiver Command) (request : Request Command) :
    Session × List (ℕ × Request Command) :=
  match isAllowed C s.isTls s.state request.command with
  | .ok () => ({ s.read ch r (.accepted request) with commands := s.commands + 1 }, [(s.commands, request)])
  | .error details => ({ s.read ch r (.rejected request details) with commands := s.commands + 1 }, [])

/-- The first loop of `ingest`: the session, and the commands that may run.  It ends with the segment, or with
the first syntax error or literal in it. -/
def receive (s : Session) (requests : List (ℕ × Request Command)) :
    List UInt8 → Session × List (ℕ × Request Command)
  | [] => (s, requests)
  | ch :: bytes =>
    match s.receiver.parseByte ch with
    | .ok (.next r) => receive (s.read ch r .quiet) requests bytes
    | .ok (.done request r) =>
      receive (s.receiveCommand C ch r request).1 (requests ++ (s.receiveCommand C ch r request).2) bytes
    | .error (.needsLiteral size, r) => (s.read ch r (.literal size), requests)
    | .error (error, r) => (s.read ch r (.syntaxError error), requests)

/-- A command comes to run. -/
def record (s : Session) (request : Request Command) : Session :=
  { s with executed := s.executed ++ [⟨s.isTls, s.state, request⟩] }

/-- The second loop of `ingest`.  Commands that `group_requests` hands to one handler run one after the other
there, in a state that none of them changes. -/
def execute (s : Session) : List (ℕ × Request Command) → Session
  | [] => s
  | (n, request) :: requests =>
    let s' := handle C (s.record request) request (E n)
    if s'.status = .continues then s'.execute requests else s'

def ingest (s : Session) (bytes : List UInt8) : Session :=
  execute C E (receive C s [] bytes).1 (receive C s [] bytes).2

/-- `handle_conn`: the session that receives the next segment.  After `UpgradeTls` it goes on over TLS. -/
def arrive (s : Session) : Option Session :=
  match s.status with
  | .continues => some s
  | .upgradeTls => some { s with isTls := true, status := .continues }
  | .close | .panicked => none

/-- A segment comes in. -/
def step (s : Session) (bytes : List UInt8) : Option Session := s.arrive.map (ingest C E · bytes)

/-! ## What receiving leaves alone -/

variable {C}

/-- Nothing but the receiver and the record changes. -/
structure Receives (s s' : Session) : Prop where
  state : s'.state = s.state
  isTls : s'.isTls = s.isTls
  status : s'.status = s.status
  executed : s'.executed = s.executed

theorem receiveCommand_receives (s : Session) (ch : UInt8) (r : Receiver Command) (request : Request Command) :
    Receives s (s.receiveCommand C ch r request).1 ∧
      ∀ q ∈ (s.receiveCommand C ch r request).2, q = (s.commands, request) ∧
        isAllowed C s.isTls s.state request.command = .ok () := by
  unfold receiveCommand
  cases h : isAllowed C s.isTls s.state request.command with
  | error details => exact ⟨⟨rfl, rfl, rfl, rfl⟩, fun q hq => by cases hq⟩
  | ok u =>
    refine ⟨⟨rfl, rfl, rfl, rfl⟩, fun q hq => ?_⟩
    exact ⟨List.mem_singleton.mp hq, rfl⟩

theorem receive_receives (bytes : List UInt8) : ∀ (s : Session) (requests : List (ℕ × Request Command)),
    (∀ q ∈ requests, isAllowed C s.isTls s.state q.2.command = .ok ()) →
    Receives s (receive C s requests bytes).1 ∧
      ∀ q ∈ (receive C s requests bytes).2, isAllowed C s.isTls s.state q.2.command = .ok () := by
  induction bytes with
  | nil => exact fun s requests h => ⟨⟨rfl, rfl, rfl, rfl⟩, h⟩
  | cons ch bytes ih =>
    intro s requests h
    unfold receive
    split
    · rename_i r _
      obtain ⟨hr, hq⟩ := ih (s.read ch r .quiet) requests h
      exact ⟨⟨hr.state, hr.isTls, hr.status, hr.executed⟩, hq⟩
    · rename_i request r _
      obtain ⟨hone, hnew⟩ := receiveCommand_receives (C := C) s ch r request
      obtain ⟨hr, hq⟩ := ih (s.receiveCommand C ch r request).1
        (requests ++ (s.receiveCommand C ch r request).2) (by
          rw [hone.state, hone.isTls]
          intro q hq
          rcases List.mem_append.mp hq with hq | hq
          · exact h q hq
          · obtain ⟨rfl, hallowed⟩ := hnew q hq
            exact hallowed)
      rw [hone.state, hone.isTls] at hq
      exact ⟨⟨hr.state.trans hone.state, hr.isTls.trans hone.isTls, hr.status.trans hone.status,
        hr.executed.trans hone.executed⟩, hq⟩
    · exact ⟨⟨rfl, rfl, rfl, rfl⟩, h⟩
    · exact ⟨⟨rfl, rfl, rfl, rfl⟩, h⟩

end Session

end MailServer.Imap
