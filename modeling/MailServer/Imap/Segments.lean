import MailServer.Imap.Client
import MailServer.Lib.Run

/-!
# One stream, cut in different ways (`imap/src/core/client.rs`)

`ingest` receives a whole segment before it runs a command of it, and leaves the segment at the first error or
literal.  How far does the way a stream is cut show?

* `Session.bytewise`: the same bytes, each received and run on its own.
* `Orderly`: no byte of a segment is dropped, and none would be read in another state, or answered otherwise, if
  the commands before it had run.
* `ingest_of_orderly`, `ingest_of_not_orderly`: orderly segments, and no others, are read as byte by byte.
* `dispatched_iff`: whole runs.
-/

namespace MailServer.Imap

open MailServer.ImapProto MailServer.Lib List Option

/-- AUTHENTICATE is answered with a challenge, and its handler sets the receiver. -/
def Challenged (request : Request Command) (outcome : Outcome) : Prop :=
  request.command = .authenticate ∧ ∃ mechanism, outcome = .challenge mechanism

/-! ## Handlers and what is read meanwhile -/

namespace Session

variable {C : Config} {E : ℕ → Outcome}

/-- The session, having read what another has. -/
def reads (x y : Session) : Session := { x with receiver := y.receiver, commands := y.commands, log := y.log }

theorem authenticate_reads (x y : Session) (outcome : Outcome) :
    authenticate C (x.reads y) outcome = (authenticate C x outcome).reads y := by
  cases outcome with
  | authFailed =>
    cases hx : x.state with
    | notAuthenticated n =>
      simp only [authenticate, reads, hx, State.authFailures]
      split <;> rfl
    | _ => simp [authenticate, reads, hx, State.authFailures]
  | _ => rfl

theorem accessing_reads (x y : Session) (command : Command) (state : State) (outcome : Outcome) :
    accessing (x.reads y) command state outcome = (accessing x command state outcome).reads y := by
  have hstate : (x.reads y).state = x.state := rfl
  cases outcome
  case refused => rfl
  all_goals
    simp only [accessing, hstate]
    cases access command x.state <;> rfl

variable {request : Request Command} {outcome : Outcome} {s : Session} {ch : UInt8}
  {r : Receiver Command} {error : Error}

/-- **Frame**: a handler that issues no challenge works on what the session has read neither way. -/
theorem handle_reads (x y : Session) (h : ¬ Challenged request outcome) :
    handle C (x.reads y) request outcome = (handle C x request outcome).reads y := by
  cases hc : request.command
  case authenticate =>
    simp only [handle, hc]
    cases outcome with
    | challenge mechanism => exact absurd ⟨hc, mechanism, rfl⟩ h
    | _ => exact authenticate_reads x y _
  case login =>
    simp only [handle, hc]
    exact authenticate_reads x y outcome
  case logout | startTls | unauthenticate =>
    simp only [handle, hc]
    rfl
  all_goals
    simp only [handle, hc]
    exact accessing_reads x y _ _ _

theorem handle_receiver (x : Session)
    (h : ¬ Challenged request outcome) : (handle C x request outcome).receiver = x.receiver := by
  rw [show x = x.reads x from rfl, handle_reads x x h]
  rfl

theorem handle_log (x : Session) (request : Request Command) (outcome : Outcome) :
    (handle C x request outcome).log = x.log ∧ (handle C x request outcome).commands = x.commands := by
  by_cases h : Challenged request outcome
  · obtain ⟨hc, mechanism, rfl⟩ := h
    simp [handle, hc]
  · rw [show x = x.reads x from rfl, handle_reads x x h]
    exact ⟨rfl, rfl⟩

theorem execute_nil (s : Session) : execute C E s [] = s := rfl

theorem execute_cons (s : Session) (q : ℕ × Request Command) (requests : List (ℕ × Request Command)) :
    execute C E s (q :: requests) =
      if (handle C (s.record q.2) q.2 (E q.1)).status = .continues then
        execute C E (handle C (s.record q.2) q.2 (E q.1)) requests
      else handle C (s.record q.2) q.2 (E q.1) := rfl

theorem execute_reads (y : Session) : ∀ (requests : List (ℕ × Request Command)) (x : Session),
    (∀ q ∈ requests, ¬ Challenged q.2 (E q.1)) →
    execute C E (x.reads y) requests = (execute C E x requests).reads y
  | [], _, _ => rfl
  | (n, request) :: requests, x, h => by
    have hhandle : handle C ((x.record request).reads y) request (E n) =
        (handle C (x.record request) request (E n)).reads y := handle_reads _ y (h _ mem_cons_self)
    have hrecord : (x.reads y).record request = (x.record request).reads y := rfl
    have ih := execute_reads y requests (handle C (x.record request) request (E n)) fun q hq =>
      h q (mem_cons_of_mem _ hq)
    simp only [execute_cons, hrecord, hhandle]
    by_cases hs : (handle C (x.record request) request (E n)).status = .continues
    · rw [if_pos hs, if_pos (show ((handle C (x.record request) request (E n)).reads y).status = _ from hs)]
      exact ih
    · rw [if_neg hs, if_neg (show ¬ ((handle C (x.record request) request (E n)).reads y).status = _ from hs)]

theorem execute_append (requests requests' : List (ℕ × Request Command)) : ∀ s : Session,
    (execute C E s requests).status = .continues → s.status = .continues →
    execute C E s (requests ++ requests') = execute C E (execute C E s requests) requests' := by
  induction requests with
  | nil => exact fun _ _ _ => rfl
  | cons q requests ih =>
    intro s h _
    simp only [execute_cons, cons_append] at h ⊢
    split at h
    · rename_i hq
      rw [if_pos hq, if_pos hq]
      exact ih _ h hq
    · rename_i hq
      exact absurd h hq

theorem execute_log (requests : List (ℕ × Request Command)) : ∀ s : Session,
    (execute C E s requests).log = s.log ∧ (execute C E s requests).commands = s.commands := by
  induction requests with
  | nil => exact fun _ => ⟨rfl, rfl⟩
  | cons q requests ih =>
    intro s
    obtain ⟨hlog, hcommands⟩ := handle_log (C := C) (s.record q.2) q.2 (E q.1)
    simp only [execute_cons]
    split
    · exact ⟨(ih _).1.trans hlog, (ih _).2.trans hcommands⟩
    · exact ⟨hlog, hcommands⟩

/-! ## A segment and its bytes -/

variable (C E) in
/-- The bytes of a segment, each as a segment of its own, as long as the session goes on. -/
def bytewise (s : Session) : List UInt8 → Session
  | [] => s
  | ch :: bytes =>
    if (ingest C E s [ch]).status = .continues then (ingest C E s [ch]).bytewise bytes
    else ingest C E s [ch]

variable (C E) in
/-- The session goes on behind a command, and its handler does not set the receiver. -/
def GoesOn (s : Session) (ch : UInt8) (request : Request Command) : Prop :=
  (ingest C E s [ch]).status = .continues ∧
    (isAllowed C s.isTls s.state request.command = .ok () → ¬ Challenged request (E s.commands))

variable (C E) in
/-- A segment is in order for the session `d` that receives it, where `m` is the same session with the commands
run that have been received so far: an error or a literal comes last, and a command is answered by `is_allowed` as
if those before it had run, and comes last too unless the session just goes on behind it. -/
def Orderly (d m : Session) : List UInt8 → Prop
  | [] => True
  | ch :: bytes =>
    match d.receiver.parseByte ch with
    | .ok (.next r) => Orderly (d.read ch r .quiet) (m.read ch r .quiet) bytes
    | .ok (.done request r) =>
      isAllowed C d.isTls d.state request.command = isAllowed C m.isTls m.state request.command ∧
        (bytes ≠ [] → GoesOn C E m ch request ∧
          Orderly (d.receiveCommand C ch r request).1 (ingest C E m [ch]) bytes)
    | .error _ => bytes = []

/-- The event of a byte at which `parse` returns an error. -/
def errorEvent : Error → Event
  | .needsLiteral size => .literal size
  | error => .syntaxError error

theorem receive_next (h : s.receiver.parseByte ch = .ok (.next r))
    (requests : List (ℕ × Request Command)) (bytes : List UInt8) :
    receive C s requests (ch :: bytes) = receive C (s.read ch r .quiet) requests bytes := by
  simp [receive, h]

theorem receive_done (h : s.receiver.parseByte ch = .ok (.done request r))
    (requests : List (ℕ × Request Command)) (bytes : List UInt8) :
    receive C s requests (ch :: bytes) =
      receive C (s.receiveCommand C ch r request).1 (requests ++ (s.receiveCommand C ch r request).2) bytes := by
  simp [receive, h]

theorem receive_error (h : s.receiver.parseByte ch = .error (error, r))
    (requests : List (ℕ × Request Command)) (bytes : List UInt8) :
    receive C s requests (ch :: bytes) = (s.read ch r (errorEvent error), requests) := by
  cases error <;> simp [receive, h, errorEvent]

theorem ingest_quiet
    (h : s.receiver.parseByte ch = .ok (.next r)) : ingest C E s [ch] = s.read ch r .quiet := by
  simp [ingest, receive, h, execute_nil]

theorem ingest_done (h : s.receiver.parseByte ch = .ok (.done request r)) :
    ingest C E s [ch] =
      execute C E (s.receiveCommand C ch r request).1 (s.receiveCommand C ch r request).2 := by
  simp [ingest, receive, h]

theorem ingest_error (h : s.receiver.parseByte ch = .error (error, r)) :
    ingest C E s [ch] = s.read ch r (errorEvent error) := by
  simp [ingest, receive_error h, execute_nil]

theorem bytewise_single (s : Session) (ch : UInt8) : bytewise C E s [ch] = ingest C E s [ch] := by
  simp [bytewise]

theorem bytewise_cons (h : (ingest C E s [ch]).status = .continues)
    (bytes : List UInt8) : bytewise C E s (ch :: bytes) = bytewise C E (ingest C E s [ch]) bytes := by
  simp [bytewise, h]

/-! ## The session that lags behind -/

variable (C E) in
/-- `d` has received the commands of a queue and not run them; `m` is what it becomes when it does. -/
structure Lags (d : Session) (requests : List (ℕ × Request Command)) (m : Session) : Prop where
  run : execute C E d requests = m
  settled : ∀ q ∈ requests, ¬ Challenged q.2 (E q.1)
  before : d.status = .continues
  after : m.status = .continues

variable {d m : Session} {requests : List (ℕ × Request Command)}

section

variable (h : Lags C E d requests m)
include h

theorem Lags.execute_reads (y : Session) :
    execute C E (d.reads y) requests = m.reads y := by
  rw [Session.execute_reads y requests d h.settled, h.run]

theorem Lags.reads : m = m.reads d := by
  rw [← h.execute_reads d]
  exact h.run.symm

theorem Lags.receiver : m.receiver = d.receiver := by
  rw [h.reads]
  rfl

theorem Lags.read (ch : UInt8) (r : Receiver Command) (event : Event) :
    Lags C E (d.read ch r event) requests (m.read ch r event) where
  run := by
    rw [h.reads]
    exact h.execute_reads (d.read ch r event)
  settled := h.settled
  before := h.before
  after := h.after

theorem Lags.receiveCommand
    (ha : isAllowed C d.isTls d.state request.command = isAllowed C m.isTls m.state request.command)
    (ch : UInt8) (r : Receiver Command) :
    m.receiveCommand C ch r request =
      (m.reads (d.receiveCommand C ch r request).1, (d.receiveCommand C ch r request).2) := by
  rw [h.reads]
  unfold Session.receiveCommand
  have hm : isAllowed C (m.reads d).isTls (m.reads d).state request.command =
      isAllowed C d.isTls d.state request.command := ha.symm
  rw [hm]
  cases isAllowed C d.isTls d.state request.command <;> rfl

theorem Lags.execute_done
    (hparse : m.receiver.parseByte ch = .ok (.done request r))
    (ha : isAllowed C d.isTls d.state request.command = isAllowed C m.isTls m.state request.command) :
    execute C E (d.receiveCommand C ch r request).1 (requests ++ (d.receiveCommand C ch r request).2) =
      ingest C E m [ch] := by
  have hreads : (d.receiveCommand C ch r request).1 = d.reads (d.receiveCommand C ch r request).1 := by
    unfold Session.receiveCommand
    split <;> rfl
  have hrun := h.execute_reads (d.receiveCommand C ch r request).1
  rw [← hreads] at hrun
  rw [ingest_done hparse, h.receiveCommand ha, execute_append _ _ _ (by rw [hrun]; exact h.after)
    (by rw [hreads]; exact h.before), hrun]

theorem Lags.done
    (hparse : m.receiver.parseByte ch = .ok (.done request r))
    (ha : isAllowed C d.isTls d.state request.command = isAllowed C m.isTls m.state request.command)
    (hgoes : GoesOn C E m ch request) :
    Lags C E (d.receiveCommand C ch r request).1 (requests ++ (d.receiveCommand C ch r request).2)
      (ingest C E m [ch]) := by
  obtain ⟨hone, hnew⟩ := receiveCommand_receives (C := C) d ch r request
  refine ⟨h.execute_done hparse ha, fun q hq => ?_, hone.status.trans h.before, hgoes.1⟩
  rcases mem_append.mp hq with hq | hq
  · exact h.settled q hq
  · obtain ⟨rfl, hallowed⟩ := hnew q hq
    rw [← show m.commands = d.commands by rw [h.reads]; rfl]
    exact hgoes.2 (ha ▸ hallowed)

end

/-- **Orderly segments**: what has been put off, done at the end, comes to the same as each command at once. -/
theorem Lags.ingest_of_orderly : ∀ {bytes : List UInt8} {d m : Session} {requests : List (ℕ × Request Command)},
    Lags C E d requests m → Orderly C E d m bytes →
    execute C E (receive C d requests bytes).1 (receive C d requests bytes).2 = bytewise C E m bytes
  | [], _, _, _, h, _ => h.run
  | ch :: bytes, d, m, requests, h, horder => by
    unfold Orderly at horder
    cases hparse : d.receiver.parseByte ch with
    | error e =>
      obtain ⟨error, r⟩ := e
      simp only [hparse] at horder
      subst horder
      rw [receive_error hparse, bytewise_single, ingest_error (h.receiver ▸ hparse)]
      exact (h.read ch r _).run
    | ok flow =>
      cases flow with
      | next r =>
        simp only [hparse] at horder
        have hm : ingest C E m [ch] = m.read ch r .quiet := ingest_quiet (h.receiver ▸ hparse)
        rw [bytewise_cons (by rw [hm]; exact h.after), hm, ← (h.read ch r .quiet).ingest_of_orderly horder,
          receive_next hparse]
      | done request r =>
        simp only [hparse] at horder
        obtain ⟨ha, hrest⟩ := horder
        rw [receive_done hparse]
        by_cases hbytes : bytes = []
        · subst hbytes
          rw [bytewise_single, ← h.execute_done (h.receiver ▸ hparse) ha]
          rfl
        · obtain ⟨hgoes, horder⟩ := hrest hbytes
          rw [bytewise_cons hgoes.1]
          exact (h.done (h.receiver ▸ hparse) ha hgoes).ingest_of_orderly horder

/-! ## What the record shows -/

/-- The event of a command. -/
def verdict (C : Config) (s : Session) (request : Request Command) : Event :=
  match isAllowed C s.isTls s.state request.command with
  | .ok () => .accepted request
  | .error details => .rejected request details

theorem isAllowed_of_verdict (h : verdict C d request = verdict C m request) :
    isAllowed C d.isTls d.state request.command = isAllowed C m.isTls m.state request.command := by
  unfold verdict at h
  cases hd : isAllowed C d.isTls d.state request.command <;>
    cases hm : isAllowed C m.isTls m.state request.command <;> simp_all

theorem receiveCommand_log (s : Session) (ch : UInt8) (r : Receiver Command) (request : Request Command) :
    (s.receiveCommand C ch r request).1.log = s.log ++ [⟨s.receiver.state, ch, verdict C s request⟩] ∧
      (s.receiveCommand C ch r request).1.receiver = r := by
  unfold receiveCommand verdict
  cases isAllowed C s.isTls s.state request.command <;> exact ⟨rfl, rfl⟩

theorem receive_extends (bytes : List UInt8) : ∀ (s : Session) (requests : List (ℕ × Request Command)),
    s.log <+: (receive C s requests bytes).1.log := by
  induction bytes with
  | nil => exact fun s _ => prefix_rfl
  | cons ch bytes ih =>
    intro s requests
    unfold receive
    split
    · rename_i r _
      exact (prefix_append _ _).trans (ih (s.read ch r .quiet) requests)
    · rename_i request r _
      refine .trans ?_ (ih _ _)
      rw [(receiveCommand_log s ch r request).1]
      exact prefix_append _ _
    · exact prefix_append _ _
    · exact prefix_append _ _

theorem ingest_log (s : Session) (bytes : List UInt8) :
    (ingest C E s bytes).log = (receive C s [] bytes).1.log := (execute_log _ _).1

theorem bytewise_extends (bytes : List UInt8) : ∀ s : Session, s.log <+: (bytewise C E s bytes).log := by
  induction bytes with
  | nil => exact fun s => prefix_rfl
  | cons ch bytes ih =>
    intro s
    have hone : s.log <+: (ingest C E s [ch]).log := ingest_log (E := E) s [ch] ▸ receive_extends [ch] s []
    unfold bytewise
    split
    · exact hone.trans (ih _)
    · exact hone

theorem receive_first (s : Session) (requests : List (ℕ × Request Command)) (ch : UInt8) (bytes : List UInt8) :
    ∃ event, s.log ++ [⟨s.receiver.state, ch, event⟩] <+: (receive C s requests (ch :: bytes)).1.log := by
  cases h : s.receiver.parseByte ch with
  | error e =>
    rw [receive_error h]
    exact ⟨_, prefix_rfl⟩
  | ok flow =>
    cases flow with
    | next r =>
      rw [receive_next h]
      exact ⟨.quiet, receive_extends bytes (s.read ch r .quiet) requests⟩
    | done request r =>
      refine ⟨verdict C s request, ?_⟩
      rw [receive_done h, ← (receiveCommand_log s ch r request).1]
      exact receive_extends _ _ _

theorem ingest_extends (s : Session) (ch : UInt8) (bytes : List UInt8) :
    (ingest C E s [ch]).log <+: (bytewise C E s (ch :: bytes)).log := by
  unfold bytewise
  split
  · exact bytewise_extends bytes _
  · exact prefix_rfl

theorem bytewise_first (s : Session) (ch : UInt8) (bytes : List UInt8) :
    ∃ event, s.log ++ [⟨s.receiver.state, ch, event⟩] <+: (bytewise C E s (ch :: bytes)).log := by
  obtain ⟨event, h⟩ := receive_first (C := C) s [] ch []
  rw [← ingest_log (E := E)] at h
  exact ⟨event, h.trans (ingest_extends s ch bytes)⟩

theorem ingest_done_log (h : s.receiver.parseByte ch = .ok (.done request r)) :
    (ingest C E s [ch]).log = s.log ++ [⟨s.receiver.state, ch, verdict C s request⟩] := by
  rw [ingest_done h, (execute_log _ _).1, (receiveCommand_log s ch r request).1]

theorem ingest_challenged (h : s.receiver.parseByte ch = .ok (.done request r))
    (ha : isAllowed C s.isTls s.state request.command = .ok ())
    (hc : Challenged request (E s.commands)) :
    (ingest C E s [ch]).receiver.state = .argument SP := by
  obtain ⟨hcommand, mechanism, henv⟩ := hc
  rw [ingest_done h]
  unfold receiveCommand
  rw [ha]
  simp only [execute_cons, handle, hcommand, henv]
  split <;> rfl

theorem entry_unique {α : Type*} {l t : List α} {a b : α} (ha : l ++ [a] <+: t) (hb : l ++ [b] <+: t) : a = b := by
  obtain ⟨u, rfl⟩ := ha
  obtain ⟨v, hv⟩ := hb
  simp only [append_assoc, append_cancel_left_eq, cons_append, List.cons.injEq] at hv
  exact hv.1.symm

theorem not_snoc_of_self {α : Type*} {l : List α} {a : α} : ¬ l ++ [a] <+: l := fun h => by
  have hlen := h.length_le
  simp only [length_append, length_singleton] at hlen
  omega

theorem Lags.log (h : Lags C E d requests m) : m.log = d.log := by
  rw [h.reads]
  rfl

theorem Lags.log_ne_of_error (h : Lags C E d requests m)
    (hparse : d.receiver.parseByte ch = .error (error, r)) {bytes : List UInt8}
    (hbytes : bytes ≠ []) :
    (receive C d requests (ch :: bytes)).1.log ≠ (bytewise C E m (ch :: bytes)).log := by
  obtain ⟨next, bytes, rfl⟩ := exists_cons_of_ne_nil hbytes
  have hm : ingest C E m [ch] = m.read ch r (errorEvent error) := ingest_error (h.receiver ▸ hparse)
  rw [receive_error hparse, bytewise_cons (by rw [hm]; exact h.after), hm]
  intro heq
  obtain ⟨event, hfirst⟩ := bytewise_first (C := C) (E := E) (m.read ch r (errorEvent error)) next bytes
  rw [← heq, (h.read ch r (errorEvent error)).reads] at hfirst
  exact not_snoc_of_self hfirst

section

variable {request : Request Command} {ch : UInt8} {r : Receiver Command}

theorem Lags.done_log (h : Lags C E d requests m) (hparse : d.receiver.parseByte ch = .ok (.done request r)) :
    (ingest C E m [ch]).log = d.log ++ [⟨d.receiver.state, ch, verdict C m request⟩] := by
  rw [ingest_done_log (h.receiver ▸ hparse), h.log, h.receiver]

theorem Lags.log_ne_of_answer (h : Lags C E d requests m) (hparse : d.receiver.parseByte ch = .ok (.done request r))
    (ha : isAllowed C d.isTls d.state request.command ≠ isAllowed C m.isTls m.state request.command)
    (bytes : List UInt8) :
    (receive C d requests (ch :: bytes)).1.log ≠ (bytewise C E m (ch :: bytes)).log := by
  intro heq
  rw [receive_done hparse] at heq
  have hleft := receive_extends (C := C) bytes (d.receiveCommand C ch r request).1
    (requests ++ (d.receiveCommand C ch r request).2)
  have hright := ingest_extends (C := C) (E := E) m ch bytes
  rw [(receiveCommand_log d ch r request).1, heq] at hleft
  rw [h.done_log hparse] at hright
  have hentry := entry_unique hleft hright
  exact ha (isAllowed_of_verdict (Entry.mk.inj hentry).2.2)

theorem Lags.log_ne_of_stop (h : Lags C E d requests m) (hstart : d.receiver.startState = .start)
    (hparse : d.receiver.parseByte ch = .ok (.done request r))
    (ha : isAllowed C d.isTls d.state request.command = isAllowed C m.isTls m.state request.command)
    (hgoes : ¬ GoesOn C E m ch request) {bytes : List UInt8} (hbytes : bytes ≠ []) :
    (receive C d requests (ch :: bytes)).1.log ≠ (bytewise C E m (ch :: bytes)).log := by
  obtain ⟨next, bytes, rfl⟩ := exists_cons_of_ne_nil hbytes
  intro heq
  have hparse' := h.receiver ▸ hparse
  have hsame := Receiver.parseByte_same d.receiver ch
  rw [hparse] at hsame
  obtain ⟨hread, hreceiver⟩ := receiveCommand_log (C := C) d ch r request
  have hm := h.done_log hparse
  rw [show verdict C m request = verdict C d request by unfold verdict; rw [ha], ← hread] at hm
  obtain ⟨event, hfirst⟩ := receive_first (C := C) (d.receiveCommand C ch r request).1
    (requests ++ (d.receiveCommand C ch r request).2) next bytes
  rw [← receive_done hparse, heq, ← hm] at hfirst
  by_cases hstatus : (ingest C E m [ch]).status = .continues
  · -- the next byte belongs to the answer of a challenge
    obtain ⟨hallowed, hc⟩ : isAllowed C m.isTls m.state request.command = .ok () ∧
        Challenged request (E m.commands) := by
      by_contra hn
      exact hgoes ⟨hstatus, fun hallowed hc => hn ⟨hallowed, hc⟩⟩
    obtain ⟨event', hfirst'⟩ := bytewise_first (C := C) (E := E) (ingest C E m [ch]) next bytes
    rw [bytewise_cons hstatus] at hfirst
    have hentry := entry_unique hfirst hfirst'
    have hstate := (Entry.mk.inj hentry).1
    rw [ingest_challenged hparse' hallowed hc, hreceiver, hsame.2, hstart] at hstate
    cases hstate
  · -- the session does not go on
    rw [bytewise, if_neg hstatus] at hfirst
    exact not_snoc_of_self hfirst

end

/-- **Other segments**: the record tells that the bytes did not come one by one. -/
theorem Lags.log_ne : ∀ {bytes : List UInt8} {d m : Session} {requests : List (ℕ × Request Command)},
    Lags C E d requests m → d.receiver.startState = .start → ¬ Orderly C E d m bytes →
    (receive C d requests bytes).1.log ≠ (bytewise C E m bytes).log
  | [], _, _, _, _, _, horder => absurd trivial horder
  | ch :: bytes, d, m, requests, h, hstart, horder => by
    have hsame := Receiver.parseByte_same d.receiver ch
    unfold Orderly at horder
    cases hparse : d.receiver.parseByte ch with
    | error e =>
      simp only [hparse] at horder
      exact h.log_ne_of_error hparse horder
    | ok flow =>
      rw [hparse] at hsame
      cases flow with
      | next r =>
        simp only [hparse] at horder
        have hm : ingest C E m [ch] = m.read ch r .quiet := ingest_quiet (h.receiver ▸ hparse)
        rw [receive_next hparse, bytewise_cons (by rw [hm]; exact h.after), hm]
        exact (h.read ch r .quiet).log_ne (hsame.1.trans hstart) horder
      | done request r =>
        simp only [hparse] at horder
        by_cases ha : isAllowed C d.isTls d.state request.command = isAllowed C m.isTls m.state request.command
        case neg => exact h.log_ne_of_answer hparse ha bytes
        have hbytes : bytes ≠ [] := fun hnil => horder ⟨ha, fun hne => absurd hnil hne⟩
        by_cases hgoes : GoesOn C E m ch request
        · rw [receive_done hparse, bytewise_cons hgoes.1]
          refine (h.done (h.receiver ▸ hparse) ha hgoes).log_ne ?_ fun hrest => horder ⟨ha, fun _ => ⟨hgoes, hrest⟩⟩
          rw [(receiveCommand_log d ch r request).2]
          exact hsame.1.1.trans hstart
        · exact h.log_ne_of_stop hstart hparse ha hgoes hbytes

/-! ## Whole runs -/

theorem receive_startState (bytes : List UInt8) : ∀ (s : Session) (requests : List (ℕ × Request Command)),
    (receive C s requests bytes).1.receiver.startState = s.receiver.startState := by
  induction bytes with
  | nil => exact fun _ _ => rfl
  | cons ch bytes ih =>
    intro s requests
    have hsame := Receiver.parseByte_same s.receiver ch
    cases h : s.receiver.parseByte ch with
    | error e =>
      rw [h] at hsame
      rw [receive_error h]
      exact hsame.1
    | ok flow =>
      rw [h] at hsame
      cases flow with
      | next r =>
        rw [receive_next h]
        exact (ih _ _).trans hsame.1
      | done request r =>
        rw [receive_done h, ih, (receiveCommand_log s ch r request).2]
        exact hsame.1.1

theorem handle_startState (x : Session) (request : Request Command) (outcome : Outcome) :
    (handle C x request outcome).receiver.startState = x.receiver.startState := by
  by_cases h : Challenged request outcome
  · obtain ⟨hc, mechanism, rfl⟩ := h
    simp only [handle, hc]
    rfl
  · rw [handle_receiver x h]

theorem execute_startState (requests : List (ℕ × Request Command)) : ∀ s : Session,
    (execute C E s requests).receiver.startState = s.receiver.startState := by
  induction requests with
  | nil => exact fun _ => rfl
  | cons q requests ih =>
    intro s
    simp only [execute_cons]
    split
    · exact (ih _).trans (handle_startState _ _ _)
    · exact handle_startState _ _ _

theorem arrive_some {s' : Session} (h : s.arrive = some s') :
    s'.status = .continues ∧ s'.receiver = s.receiver ∧ s'.log = s.log := by
  unfold arrive at h
  split at h
  · obtain rfl := some.inj h
    exact ⟨‹_›, rfl, rfl⟩
  · obtain rfl := some.inj h
    exact ⟨rfl, rfl, rfl⟩
  all_goals cases h

theorem lags_self (h : d.status = .continues) : Lags C E d [] d :=
  ⟨rfl, fun _ hq => (not_mem_nil hq).elim, h, h⟩

variable (C E) in
/-- Two sessions get the same segments, the second byte by byte. -/
def compare (pair : Session × Session) (bytes : List UInt8) : Option (Session × Session) :=
  pair.1.arrive.bind fun d => pair.2.arrive.map fun m => (d.ingest C E bytes, m.bytewise C E bytes)

/-- They have read the same bytes, each in the same state and with the same answer, and run the same commands. -/
def Agree (pair : Session × Session) : Prop := pair.1.log = pair.2.log ∧ pair.1.executed = pair.2.executed

variable (C E) in
/-- The segment is orderly for the session that receives it. -/
def ReceivesOrderly (s : Session) (bytes : List UInt8) : Prop :=
  ∀ s', s.arrive = some s' → Orderly C E s' s' bytes

/-- **One stream, any cut**: throughout a run a session has read and run what it would have read and run byte by
byte, exactly when every segment is orderly. -/
theorem dispatched_iff (C : Config) (E : ℕ → Outcome) (maxRequestSize : ℕ) (isTls : Bool)
    (segments : List (List UInt8)) :
    Run.Always (compare C E) Agree (new maxRequestSize isTls, new maxRequestSize isTls) segments ↔
      Run.Each (compare C E) (fun pair bytes => ReceivesOrderly C E pair.1 bytes)
        (new maxRequestSize isTls, new maxRequestSize isTls) segments := by
  refine Run.always_iff_each (I := fun pair => pair.1 = pair.2 ∧ pair.1.receiver.startState = .start)
    ?_ ?_ ?_ ⟨rfl, rfl⟩
  · rintro ⟨d, m⟩ ⟨heq, -⟩
    obtain rfl : d = m := heq
    exact ⟨rfl, rfl⟩
  · rintro ⟨d, m⟩ bytes pair ⟨heq, hstart⟩ horder hstep
    obtain rfl : d = m := heq
    obtain ⟨t, ht, hpair⟩ := bind_eq_some_iff.mp hstep
    simp only [ht, map_some, some.injEq] at hpair
    subst hpair
    obtain ⟨hstatus, hreceiver, -⟩ := arrive_some ht
    refine ⟨(lags_self hstatus).ingest_of_orderly (horder t ht), ?_⟩
    exact ((execute_startState _ _).trans (receive_startState bytes t [])).trans (hreceiver ▸ hstart)
  · rintro ⟨d, m⟩ bytes pair ⟨heq, hstart⟩ horder hstep ⟨hlog, -⟩
    obtain rfl : d = m := heq
    obtain ⟨t, ht, hpair⟩ := bind_eq_some_iff.mp hstep
    simp only [ht, map_some, some.injEq] at hpair
    subst hpair
    obtain ⟨hstatus, hreceiver, -⟩ := arrive_some ht
    refine (lags_self hstatus).log_ne (hreceiver ▸ hstart) (fun h => horder fun t' ht' => ?_)
      ((ingest_log (E := E) t bytes).symm.trans hlog)
    exact some.inj (ht.symm.trans ht') ▸ h

/-- **A syntax error and a command in one segment**: the command is dropped.  In the next segment it would run. -/
theorem noop_dropped : ¬ ∀ segments segments' : List (List UInt8), segments.flatten = segments'.flatten →
    (Run.run (step ⟨true, false, 3⟩ fun _ => .done) (new 1000 true) segments).map executed =
      (Run.run (step ⟨true, false, 3⟩ fun _ => .done) (new 1000 true) segments').map executed := by
  intro h
  have hcuts := h [ascii "a BOGUS\nb NOOP\n"] [ascii "a BOGUS\n", ascii "b NOOP\n"] rfl
  have hone : (Run.run (step ⟨true, false, 3⟩ fun _ => .done) (new 1000 true)
      [ascii "a BOGUS\nb NOOP\n"]).map executed = some [] := rfl
  rw [hone] at hcuts
  cases hcuts

end Session

end MailServer.Imap
