import MailServer.Smtp.Inbound.Runs

/-!
# Messages in parts (`smtp/src/inbound/session.rs`)

The bytes of a DATA or BDAT command come in any number of buffers, and are added to the message of the session as they
come.  A message is handed over at the end of DATA, or at the end of the last chunk.

* `Ingest.step`: one command, or the bytes that a receiver takes of one buffer.
* `Sound`: what is handed over is what the client has sent for it.
* `handle_message`: what the other commands do to the message.
-/

namespace MailServer.Smtp.Inbound

open MailServer.Lib

/-- Where the bytes that come next belong; of a chunk, how many are left. -/
inductive State where
  | request
  | data
  | bdat (left : ℕ) (isLast : Bool)
  | dataTooLarge (left : Option ℕ)
deriving DecidableEq

/-- A message that is handed to `queue_message`, and what the client has sent for it. -/
structure Handed where
  message : List UInt8
  sent : List UInt8
  /-- A chunk of the transaction had been refused. -/
  refused : Bool
deriving DecidableEq

/-- A session that reads.  From `overflowed` on there are ghosts: what is sent by the current DATA, and by all chunks of
the transaction, whether one of them was refused, and whether a DATA came after them. -/
structure Ingest where
  session : Session
  state : State
  overflowed : Bool
  content : List UInt8
  chunks : List UInt8
  refused : Bool
  replaced : Bool
  handed : List Handed

/-- A command, DATA and BDAT apart, or what a receiver takes of a buffer of some length.  Only the receivers of DATA
find the end in what they take. -/
inductive Input where
  | command (event : Event)
  | data (checks : DataChecks)
  | bdat (chunkSize : ℕ) (isLast : Bool)
  | bytes (piece : List UInt8) (isEnd : Bool) (buffer : ℕ) (checks : DataChecks)

/-- The commands that are followed by a message. -/
def Event.isTransfer : Event → Bool
  | .data _ _ | .bdat _ _ _ => true
  | _ => false

/-- The sum of two `usize`. -/
def usizeAdd (m n : ℕ) : ℕ := (m + n) % 0x10000000000000000

namespace Session

variable (S : Strings) (s : Session)

def setMessage (message : List UInt8) : Session := { s with data := { s.data with message } }

/-- The command is accepted, and a transaction ends or begins with it. -/
def turns (event : Event) : Bool :=
  let accepted := decide ((s.handle S event).accepted ≠ s.accepted)
  match event with
  | .rset => true
  | .mail _ _ => accepted
  | .hello _ _ _ | .syntaxError _ _ => s.data.mailFrom.isSome && accepted
  | _ => false

end Session

namespace Ingest

variable (S : Strings) (c : Ingest)

def new (session : Session) : Ingest := ⟨session, .request, false, [], [], false, false, []⟩

/-- A transaction has ended or begun. -/
def turn : Ingest := { c with content := [], chunks := [], refused := false, replaced := false }

def command (event : Event) : Ingest :=
  let next := { c with session := c.session.handle S event }
  if c.session.turns S event then next.turn else next

def refuse (reply : String) : Ingest :=
  { c with
    session := c.session.answered ({ c.session.data with message := [] }, .refused reply)
    state := .request }

def tooLarge : Ingest := c.refuse "552 5.3.4 Message too big for system.\r\n"

/-- The message is handed over, and the transaction ends. -/
def queueMessage (sent : List UInt8) (checks : DataChecks) : Ingest :=
  { c.turn with
    session := c.session.received (c.session.data.queueMessage S (c.session.commands + 1) checks)
    state := .request
    handed := c.handed ++ [⟨c.session.data.message, sent, c.refused⟩] }

def data (checks : DataChecks) : Ingest :=
  match c.session.data.canSendData checks with
  | some reply => { c with session := c.session.answered (c.session.data, .refused reply) }
  | none =>
    { c with
      session := c.session.setMessage []
      state := .data
      content := []
      replaced := c.replaced || decide (c.chunks ≠ []) }

/-- More than `isize::MAX` bytes cannot be reserved. -/
def bdat (chunkSize : ℕ) (isLast : Bool) : Ingest :=
  let len := c.session.data.message.length
  let next := { c with overflowed := c.overflowed || decide (0x10000000000000000 ≤ chunkSize + len) }
  if usizeAdd chunkSize len < c.session.rcptParams.maxMessageSize then
    if 0x7FFFFFFFFFFFFFFF < chunkSize + len then
      { next with session := { c.session with connected := false, crashed := true } }
    else { next with state := .bdat chunkSize isLast }
  else { next with state := .dataTooLarge (some chunkSize), refused := true }

def dataTooLargeBytes (isEnd : Bool) : Ingest :=
  if isEnd then c.tooLarge else { c with state := .dataTooLarge none }

def dataBytes (piece : List UInt8) (isEnd : Bool) (buffer : ℕ) (checks : DataChecks) : Ingest :=
  if c.session.data.message.length + buffer < c.session.rcptParams.maxMessageSize then
    let next :=
      { c with session := c.session.setMessage (c.session.data.message ++ piece), content := c.content ++ piece }
    if isEnd then next.queueMessage S next.content checks else next
  else c.dataTooLargeBytes isEnd

/-- The end of a chunk. -/
def chunk (isLast : Bool) (checks : DataChecks) : Ingest :=
  match c.session.data.canSendData checks with
  | some reply => { c.refuse reply with refused := true }
  | none =>
    if isLast then c.queueMessage S c.chunks checks
    else
      { c with
        session := c.session.answered (c.session.data, .accepted "250 2.6.0 Chunk accepted.\r\n")
        state := .request }

def bdatBytes (left : ℕ) (isLast : Bool) (piece : List UInt8) (checks : DataChecks) : Ingest :=
  let next :=
    { c with
      session := c.session.setMessage (c.session.data.message ++ piece)
      state := .bdat (left - piece.length) isLast
      chunks := c.chunks ++ piece }
  if piece.length = left then next.chunk S isLast checks else next

def bdatTooLargeBytes (left : ℕ) (piece : List UInt8) : Ingest :=
  let next := { c with state := .dataTooLarge (some (left - piece.length)), chunks := c.chunks ++ piece }
  if piece.length = left then next.tooLarge else next

/-- What comes next, while the session lasts.  The receivers of a chunk take no more than is left of it. -/
def step (input : Input) : Option Ingest :=
  if c.session.connected then
    match c.state, input with
    | .request, .command event => if event.isTransfer then none else some (c.command S event)
    | .request, .data checks => some (c.data checks)
    | .request, .bdat chunkSize isLast => some (c.bdat chunkSize isLast)
    | .data, .bytes piece isEnd buffer checks => some (c.dataBytes S piece isEnd buffer checks)
    | .bdat left isLast, .bytes piece _ _ checks =>
      if piece.length ≤ left then some (c.bdatBytes S left isLast piece checks) else none
    | .dataTooLarge none, .bytes _ isEnd _ _ => some (c.dataTooLargeBytes isEnd)
    | .dataTooLarge (some left), .bytes piece _ _ _ =>
      if piece.length ≤ left then some (c.bdatTooLargeBytes left piece) else none
    | _, _ => none
  else none

end Ingest

/-! ## Sound runs -/

namespace Ingest

/-- Only what the client has sent is handed over, all of it, and nothing where a chunk was refused. -/
structure Sound (c : Ingest) : Prop where
  whole : ∀ h ∈ c.handed, h.message = h.sent ∧ h.refused = false
  fits : c.overflowed = false

/-- After a chunk that is refused there is neither a DATA nor a last chunk in its transaction, and no last chunk either
where a DATA came after other chunks; MAIL does not come after a chunk; and sizes stay in range. -/
def Meets (c : Ingest) : Input → Prop
  | .command (.mail _ _) => c.session.data.message = []
  | .data _ => c.refused = false
  | .bdat chunkSize isLast =>
    chunkSize + c.session.data.message.length < 0x10000000000000000 ∧
      (isLast = true → c.refused = false ∧ c.replaced = false)
  | _ => True

end Ingest

/-! ## Commands leave the message -/

section

variable {S : Strings} {n : ℕ} {m : List UInt8}

namespace SessionData

variable {d : SessionData}

theorem applyEnvelopeModification_message (h : d.message = m) (envelope : Envelope) (value : String) :
    (d.applyEnvelopeModification S n envelope value).message = m := by
  cases envelope
  case «from» =>
    simp only [applyEnvelopeModification]
    cases envelopeSender S value with
    | none => exact h
    | some p => cases d.mailFrom <;> exact h
  case «to» =>
    simp only [applyEnvelopeModification]
    split_ifs <;> exact h
  all_goals exact h

theorem applyModifications_message : ∀ (modifications : List ScriptModification) {d : SessionData}, d.message = m →
    (d.applyModifications S n modifications).message = m
  | [], _, h => h
  | .setEnvelope name value :: modifications, _, h =>
    applyModifications_message modifications (applyEnvelopeModification_message h name value)
  | .addHeader _ _ :: modifications, _, h => applyModifications_message modifications h

end SessionData

theorem mailStages_message {params : SessionParameters} {from_ : MailFrom} {checks : MailChecks} {stage : Stage}
    (hstage : stage ∈ mailStages S params n from_ checks) {d : SessionData} (h : d.message = m) :
    (stage.effect d).message = m := by
  simp only [mailStages, addressStages, parameterStages, List.cons_append, List.nil_append, List.mem_cons,
    List.not_mem_nil, or_false] at hstage
  rcases hstage with rfl | rfl | rfl | rfl | rfl | rfl | rfl | rfl | rfl | rfl | rfl | rfl | rfl | rfl
  case inr.inl =>
    simp only [scriptStage]
    split
    · exact SessionData.applyModifications_message _ h
    · exact h
  case inr.inr.inr.inr.inl =>
    simp only [rewriteStage]
    split <;> exact h
  all_goals
    simp only [senderStage, requireTlsStage, deliverByStage, priorityStage, sizeStage, holdStage, dsnStage, spfStage,
      Stage.check]
    try split_ifs
    all_goals exact h

namespace SessionData

variable {d : SessionData}

theorem handleMailFrom_message (params : SessionParameters) (from_ : MailFrom) (checks : MailChecks) :
    (d.handleMailFrom S params n from_ checks).1.message = d.message := by
  have hiprev : (d.verifyIprev params checks).message = d.message := by
    unfold verifyIprev
    split_ifs <;> rfl
  unfold handleMailFrom
  split
  · rfl
  · split
    · exact hiprev
    · have hpost := runStages_post (P := fun d' : SessionData => d'.message = d.message)
        (fun stage (hstage : stage ∈ mailStages S params n from_ checks) _ => mailStages_message hstage)
        (d := (d.verifyIprev params checks).setMailFrom S n from_) hiprev
      refine finish_post (R := fun exit => exit.1.message = d.message) hpost (fun _ h => h) ?_
      rintro _ ⟨d', h, reply, rfl⟩
      exact h

theorem handleEhlo_message (params : SessionParameters) (domain : String) (checks : EhloChecks) :
    (d.mailFrom.isSome = true ∧ (∃ reply, (d.handleEhlo S params domain checks).2 = .accepted reply) ∧
      (d.handleEhlo S params domain checks).1.message = []) ∨
    ¬ (d.mailFrom.isSome = true ∧ ∃ reply, (d.handleEhlo S params domain checks).2 = .accepted reply) ∧
      (d.handleEhlo S params domain checks).1.message = d.message := by
  have hcheck : Post (fun d' : SessionData => d'.message = d.message ∧ d'.mailFrom = d.mailFrom)
      (fun exit => (∃ reply, exit.2 = .refused reply) ∧ exit.1.message = d.message)
      (if domain = d.heloDomain then .ok d else checkEhlo S params d domain checks) := by
    refine Post.ite (fun _ => ⟨rfl, rfl⟩) fun _ => Post.ite (fun _ => ⟨⟨_, rfl⟩, rfl⟩) fun _ => ?_
    split
    · exact ⟨⟨_, rfl⟩, rfl⟩
    · split
      · exact ⟨⟨_, rfl⟩, rfl⟩
      · exact ⟨rfl, rfl⟩
  refine finish_post (R := fun exit => (d.mailFrom.isSome = true ∧ (∃ reply, exit.2 = .accepted reply) ∧
    exit.1.message = []) ∨ ¬ (d.mailFrom.isSome = true ∧ ∃ reply, exit.2 = .accepted reply) ∧
      exit.1.message = d.message) hcheck ?_ ?_
  · rintro d' ⟨hmessage, hmail⟩
    rw [hmail]
    split_ifs with hsome
    · exact .inl ⟨hsome, ⟨_, rfl⟩, rfl⟩
    · exact .inr ⟨fun h => hsome h.1, hmessage⟩
  · rintro exit ⟨⟨reply, hreply⟩, hmessage⟩
    refine .inr ⟨?_, hmessage⟩
    rintro ⟨-, reply', hreply'⟩
    rw [hreply] at hreply'
    cases hreply'

theorem filterRcpt_message {checks : RcptChecks} (h : d.message = m) :
    Post (fun d' : SessionData => d'.message = m) (fun exit => exit.1.message = m) (d.filterRcpt S n checks) := by
  refine Post.ite (fun _ => ?_) fun _ => h
  refine Post.bind (Q := fun d' : SessionData => d'.message = m) ?_ fun d h =>
    Post.bind (Q := fun d' : SessionData => d'.message = m) ?_ fun d h => ?_
  · unfold rcptScript
    split
    · exact applyModifications_message _ h
    · exact h
    · exact h
  · unfold rcptFilters
    split <;> exact h
  · have hrewrite : (d.rcptRewrite S checks).message = m := by
      unfold rcptRewrite
      split
      · split_ifs <;> exact h
      · exact h
    unfold rcptDuplicates
    split
    · exact Post.ite (fun _ => hrewrite) fun _ => hrewrite
    · exact hrewrite

theorem resolveRcpt_message {params : RcptParameters} {checks : RcptChecks} (h : d.message = m) :
    Post (fun resolved : SessionData × Option (List String) => resolved.1.message = m)
      (fun exit => exit.1.message = m) (d.resolveRcpt S params n checks) := by
  have herror : ∀ reply, (d.rcptError params reply).1.message = m := by
    intro reply
    simp only [rcptError]
    split_ifs <;> exact h
  unfold resolveRcpt
  split
  · exact h
  · split
    · exact Post.ite (fun _ => h) fun _ => h
    · exact h
  · exact h
  · exact herror _
  · exact Post.ite (fun _ => h) fun _ => herror _
  · exact h

theorem handleRcptTo_message (params : RcptParameters) (checks : RcptChecks) (to_ : RcptTo) :
    (d.handleRcptTo S params n checks to_).1.message = d.message := by
  have hadd : Post (fun d' : SessionData => d'.message = d.message) (fun exit => exit.1.message = d.message)
      (d.addRcpt S params n to_) := by
    refine Post.ite (fun _ => rfl) fun _ => Post.ite (fun _ => rfl) fun _ => Post.ite (fun _ => rfl) fun _ =>
      Post.ite (fun _ => rfl) fun _ => rfl
  have hlimit : ∀ {d' : SessionData}, d'.message = d.message →
      Post (fun d' : SessionData => d'.message = d.message) (fun exit => exit.1.message = d.message)
        (d'.limitRcpt checks) :=
    fun h => Post.ite (fun _ => Post.ite (fun _ => h) fun _ => h) fun _ => h
  have hexpand : ∀ {d' : SessionData} (members : Option (List String)), d'.message = d.message →
      (d'.expandRcpt S n members).message = d.message := by
    intro d' members h
    unfold expandRcpt
    split <;> exact h
  have hpost : Post (fun d' : SessionData => d'.message = d.message) (fun exit => exit.1.message = d.message)
      ((d.addRcpt S params n to_).bind fun d => (d.filterRcpt S n checks).bind fun d =>
        (d.resolveRcpt S params n checks).bind fun resolved =>
          (resolved.1.limitRcpt checks).bind fun d => .ok (d.expandRcpt S n resolved.2)) :=
    hadd.bind fun _ h => (filterRcpt_message h).bind fun _ h => (resolveRcpt_message h).bind fun resolved h =>
      (hlimit h).bind fun _ h => hexpand resolved.2 h
  exact finish_post (R := fun exit => exit.1.message = d.message) hpost (fun _ h => h) fun _ h => h

end SessionData

namespace Session

variable {s : Session}

theorem accepted_ne_iff (exit : Exit) :
    (s.answered exit).accepted ≠ s.accepted ↔ ∃ reply, exit.2 = .accepted reply := by
  constructor
  · intro hne
    unfold answered at hne
    split at hne
    next reply hreply => exact ⟨reply, hreply⟩
    all_goals exact absurd rfl hne
  · intro h heq
    have hlen := congrArg List.length ((accepted_answered h).symm.trans heq)
    rw [List.length_append, List.length_singleton] at hlen
    omega

theorem greeted {event : Event}
    (hturns : s.turns S event = (s.data.mailFrom.isSome && decide ((s.handle S event).accepted ≠ s.accepted)))
    (h : (∃ domain checks, s.handle S event = s.answered (s.data.handleEhlo S s.params domain checks)) ∨
      ∃ reply, s.handle S event = s.answered (s.data, .refused reply)) :
    (s.handle S event).data.message = s.data.message ∧ s.turns S event = false ∨
      (s.handle S event).data.message = [] ∧ s.turns S event = true := by
  rw [hturns, ← Bool.not_eq_true, Bool.and_eq_true, decide_eq_true_iff]
  rcases h with ⟨domain, checks, h⟩ | ⟨reply, h⟩
  · rw [h, answered_data, accepted_ne_iff]
    rcases s.data.handleEhlo_message (S := S) s.params domain checks with ⟨hsome, hreply, hmessage⟩ | ⟨hnot, hmessage⟩
    · exact .inr ⟨hmessage, hsome, hreply⟩
    · exact .inl ⟨hmessage, hnot⟩
  · rw [h, accepted_ne_iff]
    refine .inl ⟨rfl, ?_⟩
    rintro ⟨-, reply', h'⟩
    cases h'

theorem handle_message {event : Event} (h : event.isTransfer = false) :
    (s.handle S event).data.message = s.data.message ∧
        (s.turns S event = false ∨ ∃ from_ checks, event = .mail from_ checks) ∨
      (s.handle S event).data.message = [] ∧ s.turns S event = true := by
  have hsame : ∀ {exit : Exit}, exit.1.message = s.data.message → (s.answered exit).data.message = s.data.message := by
    intro exit hexit
    rw [answered_data]
    exact hexit
  cases event with
  | data tooLarge checks => cases h
  | bdat chunk isLast checks => cases h
  | hello verb domain checks =>
    refine (greeted rfl ?_).imp_left (And.imp_right Or.inl)
    simp only [handle]
    split
    · exact .inr ⟨_, rfl⟩
    · exact .inl ⟨domain, checks, rfl⟩
  | syntaxError isEhlo checks =>
    refine (greeted rfl ?_).imp_left (And.imp_right Or.inl)
    simp only [handle]
    split_ifs
    · exact .inl ⟨_, checks, rfl⟩
    · exact .inr ⟨_, rfl⟩
  | mail from_ checks =>
    refine .inl ⟨?_, .inr ⟨from_, checks, rfl⟩⟩
    have hmessage : (s.data.handleMailFrom S s.params (s.commands + 1) from_ checks).1.message = s.data.message :=
      SessionData.handleMailFrom_message s.params from_ checks
    simp only [handle]
    split
    · exact hsame hmessage
    · exact hsame hmessage
  | rcpt to_ checks => exact .inl ⟨hsame (SessionData.handleRcptTo_message ..), .inl rfl⟩
  | rset => exact .inr ⟨congrArg SessionData.message answered_data, rfl⟩
  | auth outcome =>
    refine .inl ⟨hsame ?_, .inl rfl⟩
    unfold handleAuth
    split_ifs
    · rfl
    · cases outcome with
      | failed =>
        dsimp only
        split_ifs <;> rfl
      | _ => rfl
  | startTls isAvailable =>
    refine .inl ⟨?_, .inl rfl⟩
    simp only [handle]
    split_ifs <;> exact hsame rfl
  | noop => exact .inl ⟨hsame rfl, .inl rfl⟩
  | quit => exact .inl ⟨hsame rfl, .inl rfl⟩

theorem received_message {x : Except Stop (SessionData × Queued)} (h : (s.received x).connected = true) :
    (s.received x).data.message = [] := by
  unfold received at h ⊢
  split at h
  · cases h
  next d answer =>
    by_cases hempty : answer = .refused ""
    · rw [if_pos hempty] at h
      cases h
    · rw [if_neg hempty, answered_data]
      rfl
  · exact congrArg SessionData.message answered_data

end Session

end

end MailServer.Smtp.Inbound
