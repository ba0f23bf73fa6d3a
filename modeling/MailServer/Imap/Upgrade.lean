import MailServer.Imap.Segments
import MailServer.ImapProto.Rest

/-!
# STARTTLS (`imap/src/core/session.rs`)

`into_tls` hands the receiver and the state of a plaintext session on to the session inside TLS.

* `Session.intoTls`, `Session.inside`: that session, and what it does with the segments that come in.
* `Uninfluenced`: it runs what a session would that has seen no plaintext.
* `uninfluenced_iff`: so it is exactly where no request has been begun, and nobody has tried to log in.
-/

namespace MailServer.Imap

open MailServer.ImapProto MailServer.Lib List Receiver

namespace Session

/-- `into_tls`, with a new record of what is read and run. -/
def intoTls (s : Session) : Session :=
  { s with isTls := true, status := .continues, commands := 0, log := [], executed := [] }

/-- The session after some segments, or where it has ended among them. -/
def inside (C : Config) (E : ℕ → Outcome) (s : Session) : List (List UInt8) → Session
  | [] => s
  | bytes :: segments =>
    match s.step C E bytes with
    | some s' => s'.inside C E segments
    | none => s

/-- The commands that have been run. -/
def ran (s : Session) : List (Request Command) := s.executed.map Run.request

/-- After the upgrade the session runs what one would that was inside TLS from the beginning, whatever comes in and whatever
the handlers make of it. -/
def Uninfluenced (C : Config) (maxRequestSize : ℕ) (s : Session) : Prop :=
  ∀ (E : ℕ → Outcome) (segments : List (List UInt8)),
    (s.intoTls.inside C E segments).ran = ((new maxRequestSize true).inside C E segments).ran

/-! ## What plaintext leaves -/

section

variable {C : Config} {E : ℕ → Outcome} {max : ℕ} {s s' : Session}

structure Carried (C : Config) (max : ℕ) (s : Session) : Prop where
  clean : s.receiver.Clean
  limit : s.receiver.maxRequestSize = max
  failures : ∀ n, s.state = .notAuthenticated n → n ≤ C.maxAuthFailures

theorem receive_clean (bytes : List UInt8) : ∀ (s : Session) (requests : List (ℕ × Request Command)),
    s.receiver.Clean ∧ s.receiver.maxRequestSize = max →
    (receive C s requests bytes).1.receiver.Clean ∧ (receive C s requests bytes).1.receiver.maxRequestSize = max := by
  induction bytes with
  | nil => exact fun _ _ h => h
  | cons ch bytes ih =>
    intro s requests h
    have hsame := parseByte_same s.receiver ch
    have hclean := parseByte_clean h.1 ch
    cases hparse : s.receiver.parseByte ch with
    | error e =>
      rw [hparse] at hsame hclean
      rw [receive_error hparse]
      exact ⟨hclean, hsame.2.trans h.2⟩
    | ok flow =>
      rw [hparse] at hsame hclean
      cases flow with
      | next r =>
        rw [receive_next hparse]
        exact ih _ _ ⟨hclean, hsame.2.trans h.2⟩
      | done request r =>
        rw [receive_done hparse]
        refine ih _ _ ?_
        rw [(receiveCommand_log s ch r request).2]
        exact ⟨hclean, hsame.1.2.trans h.2⟩

theorem authenticate_failures (h : ∀ n, s.state = .notAuthenticated n → n ≤ C.maxAuthFailures) (outcome : Outcome) :
    ∀ n, (authenticate C s outcome).state = .notAuthenticated n → n ≤ C.maxAuthFailures := by
  intro n hn
  cases outcome with
  | done => cases hn
  | authFailed =>
    cases hstate : s.state with
    | notAuthenticated m =>
      simp only [authenticate, hstate, State.authFailures] at hn
      split_ifs at hn with hlt
      · obtain rfl := State.notAuthenticated.inj hn
        exact hlt
      · exact h n (hstate.trans hn)
    | authenticated | selected =>
      simp only [authenticate, hstate] at hn
      exact h n (hstate.trans hn)
  | refused | failed | challenge => exact h n hn

theorem accessing_failures (h : ∀ n, s.state = .notAuthenticated n → n ≤ C.maxAuthFailures) (command : Command)
    {target : State} (ht : ∀ n, target = .notAuthenticated n → n ≤ C.maxAuthFailures) (outcome : Outcome) :
    ∀ n, (accessing s command target outcome).state = .notAuthenticated n → n ≤ C.maxAuthFailures := by
  intro n hn
  unfold accessing at hn
  split at hn
  · exact h n hn
  · split at hn
    · exact h n hn
    · split_ifs at hn
      · exact ht n hn
      · exact h n hn

theorem handle_carried (h : Carried C max s) (request : Request Command) (outcome : Outcome) :
    Carried C max (handle C s request outcome) := by
  have hstate : ∀ n, (handle C s request outcome).state = .notAuthenticated n → n ≤ C.maxAuthFailures := by
    have hauth := authenticate_failures h.failures outcome
    cases hc : request.command
    case logout | startTls =>
      simp only [handle, hc]
      exact h.failures
    case unauthenticate =>
      simp only [handle, hc]
      intro n hn
      obtain rfl := State.notAuthenticated.inj hn
      exact Nat.zero_le _
    case login =>
      simp only [handle, hc]
      exact hauth
    case authenticate =>
      simp only [handle, hc]
      cases outcome with
      | challenge mechanism => exact h.failures
      | done | refused | failed | authFailed => exact hauth
    case select | examine | close | unselect =>
      simp only [handle, hc]
      exact accessing_failures h.failures _ (fun n hn => by cases hn) _
    all_goals
      simp only [handle, hc]
      exact accessing_failures h.failures _ h.failures _
  by_cases hc : Challenged request outcome
  · obtain ⟨hc, mechanism, rfl⟩ := hc
    simp only [handle, hc]
    exact ⟨⟨h.clean.start, trivial⟩, h.limit, h.failures⟩
  · have hr := handle_receiver (C := C) s hc
    exact ⟨hr ▸ h.clean, hr ▸ h.limit, hstate⟩

theorem execute_carried : ∀ (requests : List (ℕ × Request Command)) {s : Session}, Carried C max s →
    Carried C max (execute C E s requests)
  | [], _, h => h
  | (n, request) :: requests, s, h => by
    have hhandle := handle_carried (C := C) (s := s.record request) ⟨h.clean, h.limit, h.failures⟩ request (E n)
    simp only [execute]
    split
    · exact execute_carried requests hhandle
    · exact hhandle

theorem step_carried {bytes : List UInt8} (h : Carried C max s) (hstep : s.step C E bytes = some s') : Carried C max s' := by
  obtain ⟨t, ht, rfl⟩ := Option.map_eq_some_iff.mp hstep
  have hcarried : Carried C max t := by
    unfold arrive at ht
    split at ht
    · obtain rfl := Option.some.inj ht
      exact h
    · obtain rfl := Option.some.inj ht
      exact ⟨h.clean, h.limit, h.failures⟩
    all_goals cases ht
  obtain ⟨hclean, hlimit⟩ := receive_clean (C := C) bytes t [] ⟨hcarried.clean, hcarried.limit⟩
  have hreceives := (receive_receives (C := C) bytes t [] nofun).1
  exact execute_carried _ ⟨hclean, hlimit, hreceives.state ▸ hcarried.failures⟩

theorem carried_new (isTls : Bool) : Carried C max (new max isTls) where
  clean := ⟨rfl, rfl, rfl, rfl⟩
  limit := rfl
  failures := fun n hn => by
    obtain rfl := State.notAuthenticated.inj hn
    exact Nat.zero_le _

end

/-! ## What runs is what was read -/

section

variable {C : Config} {E : ℕ → Outcome}

theorem receive_emits (bytes : List UInt8) : ∀ (s : Session) (requests : List (ℕ × Request Command)),
    ∀ q ∈ (receive C s requests bytes).2, q ∈ requests ∨ q.2 ∈ s.receiver.emits bytes := by
  induction bytes with
  | nil => exact fun _ _ _ hq => .inl hq
  | cons ch bytes ih =>
    intro s requests q hq
    rw [emits]
    cases hparse : s.receiver.parseByte ch with
    | error e =>
      rw [receive_error hparse] at hq
      exact .inl hq
    | ok flow =>
      cases flow with
      | next r =>
        rw [receive_next hparse] at hq
        exact ih _ _ q hq
      | done request r =>
        rw [receive_done hparse] at hq
        obtain hq | hq := ih _ _ q hq
        · obtain hq | hq := mem_append.mp hq
          · exact .inl hq
          · obtain ⟨rfl, -⟩ := (receiveCommand_receives (C := C) s ch r request).2 q hq
            exact .inr mem_cons_self
        · rw [(receiveCommand_log s ch r request).2] at hq
          exact .inr (mem_cons_of_mem _ hq)

theorem authenticate_executed (s : Session) (outcome : Outcome) :
    (authenticate C s outcome).executed = s.executed := by
  cases outcome with
  | authFailed =>
    rw [authenticate]
    cases s.state.authFailures with
    | none => rfl
    | some n =>
      dsimp only
      split_ifs <;> rfl
  | done | refused | failed | challenge => rfl

theorem accessing_executed (s : Session) (command : Command) (target : State) (outcome : Outcome) :
    (accessing s command target outcome).executed = s.executed := by
  unfold accessing
  split
  · rfl
  · split
    · rfl
    · split_ifs <;> rfl

theorem handle_executed (s : Session) (request : Request Command) (outcome : Outcome) :
    (handle C s request outcome).executed = s.executed := by
  cases hc : request.command
  case logout | startTls | unauthenticate => simp [handle, hc]
  case login =>
    simp only [handle, hc]
    exact authenticate_executed s outcome
  case authenticate =>
    simp only [handle, hc]
    cases outcome with
    | challenge mechanism => rfl
    | done | refused | failed | authFailed => exact authenticate_executed s _
  all_goals
    simp only [handle, hc]
    exact accessing_executed s _ _ _

theorem execute_executed : ∀ (requests : List (ℕ × Request Command)) (s : Session),
    ∀ run ∈ (execute C E s requests).executed, run ∈ s.executed ∨ ∃ q ∈ requests, q.2 = run.request
  | [], _, _, hrun => .inl hrun
  | (n, request) :: requests, s, run, hrun => by
    have hrecord : run ∈ (handle C (s.record request) request (E n)).executed →
        run ∈ s.executed ∨ ∃ q ∈ (n, request) :: requests, q.2 = run.request := by
      rw [handle_executed]
      intro hmem
      obtain hmem | hmem := mem_append.mp hmem
      · exact .inl hmem
      · obtain rfl := mem_singleton.mp hmem
        exact .inr ⟨(n, request), mem_cons_self, rfl⟩
    simp only [execute] at hrun
    split at hrun
    · obtain hrun | ⟨q, hq, heq⟩ := execute_executed requests _ run hrun
      · exact hrecord hrun
      · exact .inr ⟨q, mem_cons_of_mem _ hq, heq⟩
    · exact hrecord hrun

theorem mem_emits_of_ran {s : Session} {bytes : List UInt8} {request : Request Command}
    (h : request ∈ (s.intoTls.inside C E [bytes]).ran) : request ∈ s.receiver.emits bytes := by
  obtain ⟨run, hrun, rfl⟩ := mem_map.mp h
  have hreceives := (receive_receives (C := C) bytes s.intoTls [] nofun).1
  obtain hrun | ⟨q, hq, heq⟩ := execute_executed (C := C) (E := E) _ _ run hrun
  · rw [hreceives.executed] at hrun
    exact absurd hrun not_mem_nil
  · obtain hq | hq := receive_emits (C := C) bytes s.intoTls [] q hq
    · exact absurd hq not_mem_nil
    · exact heq ▸ hq

end

/-! ## Two sessions side by side -/

section

variable {C : Config} {E : ℕ → Outcome} {max : ℕ} {s : Session}

/-- A session inside TLS that waits for a command. -/
def awaiting (max : ℕ) (state : State) (commands : ℕ) (log : List Entry) (executed : List Run) : Session :=
  ⟨.withMaxRequestSize max, state, true, .continues, commands, log, executed⟩

/-- It has read the tag. -/
def tagged (max : ℕ) (state : State) (commands : ℕ) (log : List Entry) (executed : List Run) : Session :=
  ⟨⟨[], ⟨"a", .noop, []⟩, .command false, max, 0, .start⟩, state, true, .continues, commands, log, executed⟩

theorem parseByte_tag : (⟨[97], default, .tag, max, 0, .start⟩ : Receiver Command).parseByte SP =
    .ok (.next ⟨[], ⟨"a", .noop, []⟩, .command false, max, 0, .start⟩) := by
  have htag : fromUtf8 [97] = some "a" := rfl
  rw [parseByte]
  rw [parseTag, htag]
  rfl

theorem step_line (state : State) (commands : ℕ) (log : List Entry) (executed : List Run) (name : List UInt8) : ∃ log',
    (awaiting max state commands log executed).step C E (97 :: SP :: name) =
      (tagged max state commands log' executed).step C E name := by
  have hstart : (withMaxRequestSize max : Receiver Command).parseByte 97 =
      .ok (.next ⟨[97], default, .tag, max, 0, .start⟩) := rfl
  refine ⟨log ++ [⟨.start, 97, .quiet⟩] ++ [⟨.tag, SP, .quiet⟩], ?_⟩
  change some (ingest C E (awaiting max state commands log executed) (97 :: SP :: name)) =
    some (ingest C E (tagged max state commands _ executed) name)
  rw [ingest, receive_next hstart, receive_next parseByte_tag]
  rfl

theorem intoTls_of_rest (h : Carried C max s) (hs : s.receiver.state = .start) :
    s.intoTls = awaiting max s.state 0 [] [] := by
  have hreceiver := h.clean.eq_of_start hs
  rw [h.limit] at hreceiver
  rw [intoTls, hreceiver]
  rfl

theorem start_of_uninfluenced (h : Carried C max s) (hu : Uninfluenced C max s) : s.receiver.state = .start := by
  by_contra hs
  have hfresh : ((new max true).inside C (fun _ => .done) [noopLine]).ran = [noopRequest] := by
    obtain ⟨log, hstep⟩ := @step_line C (fun _ => .done) max (.notAuthenticated 0) 0 [] [] [78, 79, 79, 80, LF]
    change (match (awaiting max (.notAuthenticated 0) 0 [] []).step C (fun _ => .done) noopLine with
      | some s' => s'.inside C (fun _ => .done) []
      | none => awaiting max (.notAuthenticated 0) 0 [] []).ran = _
    rw [noopLine, hstep]
    rfl
  have hmem : noopRequest ∈ (s.intoTls.inside C (fun _ => .done) [noopLine]).ran := by
    rw [hu, hfresh]
    exact mem_singleton_self _
  exact not_mem_emits h.clean hs (mem_emits_of_ran hmem)

theorem notAuthenticated_of_uninfluenced (h : Carried C max s) (hs : s.receiver.state = .start)
    (hu : Uninfluenced C max s) : ∃ n, s.state = .notAuthenticated n := by
  have hline : ∀ state, ∃ log, ((awaiting max state 0 [] []).inside C (fun _ => .done)
      [[97, SP, 69, 78, 65, 66, 76, 69, LF]]).ran =
        (ingest C (fun _ => .done) (tagged max state 0 log []) [69, 78, 65, 66, 76, 69, LF]).ran := by
    intro state
    obtain ⟨log, hstep⟩ := @step_line C (fun _ => .done) max state 0 [] [] [69, 78, 65, 66, 76, 69, LF]
    refine ⟨log, ?_⟩
    rw [inside, hstep]
    rfl
  have hsame := hu (fun _ => .done) [[97, SP, 69, 78, 65, 66, 76, 69, LF]]
  rw [intoTls_of_rest h hs] at hsame
  obtain ⟨log, hleft⟩ := hline s.state
  obtain ⟨log', hright⟩ := hline (.notAuthenticated 0)
  rw [hleft] at hsame
  have hfresh := hsame.trans hright
  cases hstate : s.state with
  | notAuthenticated n => exact ⟨n, rfl⟩
  | authenticated =>
    rw [hstate] at hfresh
    cases hfresh
  | selected isSelect =>
    rw [hstate] at hfresh
    cases hfresh

def loginLine : List UInt8 := [97, SP, 76, 79, 71, 73, 78, LF]

theorem step_login (n commands : ℕ) (log : List Entry) (executed : List Run) : ∃ log' run,
    (awaiting max (.notAuthenticated n) commands log executed).step C (fun _ => .authFailed) loginLine =
      some (if n < C.maxAuthFailures then awaiting max (.notAuthenticated (n + 1)) (commands + 1) log' (executed ++ [run])
        else { awaiting max (.notAuthenticated n) (commands + 1) log' (executed ++ [run]) with status := .close }) := by
  obtain ⟨log', hstep⟩ := @step_line C (fun _ => .authFailed) max (.notAuthenticated n) commands log executed
    [76, 79, 71, 73, 78, LF]
  rw [loginLine, hstep]
  refine ⟨(receive C (tagged max (.notAuthenticated n) commands log' executed) [] [76, 79, 71, 73, 78, LF]).1.log,
    ⟨true, .notAuthenticated n, ⟨"a", .login, []⟩⟩, ?_⟩
  change some (execute C (fun _ => .authFailed) (awaiting max (.notAuthenticated n) (commands + 1) _ executed)
    [(commands, ⟨"a", .login, []⟩)]) = _
  simp only [execute, handle, authenticate, record, awaiting, State.authFailures]
  split_ifs <;> rfl

theorem length_attempts : ∀ (k n commands : ℕ) (log : List Entry) (executed : List Run), n ≤ C.maxAuthFailures →
    ((awaiting max (.notAuthenticated n) commands log executed).inside C (fun _ => .authFailed)
      (List.replicate k loginLine)).executed.length = executed.length + min k (C.maxAuthFailures + 1 - n)
  | 0, n, _, _, executed, _ => by
    rfl
  | k + 1, n, commands, log, executed, hn => by
    obtain ⟨log', run, hstep⟩ := @step_login C max n commands log executed
    rw [replicate_succ, inside, hstep]
    dsimp only
    split_ifs with hlt
    · rw [length_attempts k (n + 1) (commands + 1) log' (executed ++ [run]) hlt, length_append,
        length_singleton]
      omega
    · -- the session is over, whatever else comes in
      have hended : ∀ segments, ({ awaiting max (.notAuthenticated n) (commands + 1) log' (executed ++ [run]) with
          status := .close } : Session).inside C (fun _ => .authFailed) segments =
            { awaiting max (.notAuthenticated n) (commands + 1) log' (executed ++ [run]) with status := .close } := by
        intro segments
        cases segments <;> rfl
      rw [hended]
      change (executed ++ [run]).length = _
      rw [length_append, length_singleton]
      omega

theorem failures_of_uninfluenced {n : ℕ} (h : Carried C max s) (hs : s.receiver.state = .start)
    (hn : s.state = .notAuthenticated n) (hu : Uninfluenced C max s) : n = 0 := by
  have hsame := congrArg List.length (hu (fun _ => .authFailed) (List.replicate (C.maxAuthFailures + 1) loginLine))
  rw [intoTls_of_rest h hs, hn, ran, ran, length_map, length_map,
    length_attempts _ n 0 [] [] (h.failures n hn)] at hsame
  have hfresh := @length_attempts C max (C.maxAuthFailures + 1) 0 0 [] [] (Nat.zero_le _)
  have heq := hsame.trans hfresh
  omega

end

/-- What runs after STARTTLS does not depend on the plaintext before it exactly when that has left no request begun, no
login, and no attempt at one. -/
theorem uninfluenced_iff {C : Config} {E : ℕ → Outcome} {maxRequestSize : ℕ} {segments : List (List UInt8)} {s : Session}
    (h : Run.run (step C E) (new maxRequestSize false) segments = some s) :
    Uninfluenced C maxRequestSize s ↔ s.receiver.state = .start ∧ s.state = .notAuthenticated 0 := by
  have hcarried : Carried C maxRequestSize s :=
    (Run.always_of_step (fun _ _ _ => step_carried) (carried_new false)).last h
  constructor
  · intro hu
    have hs := start_of_uninfluenced hcarried hu
    obtain ⟨n, hn⟩ := notAuthenticated_of_uninfluenced hcarried hs hu
    obtain rfl := failures_of_uninfluenced hcarried hs hn hu
    exact ⟨hs, hn⟩
  · rintro ⟨hs, hn⟩ E' segments'
    rw [intoTls_of_rest hcarried hs, hn]
    rfl

/-- The session after STARTTLS, with a line behind it in plaintext. -/
def upgradeSample (behind : String) : Option Session :=
  Run.run (step ⟨true, false, 3⟩ fun _ => .done) (new 1000 false) [ascii "a STARTTLS\n" ++ ascii behind]

theorem uninfluenced_starttls : ∃ s, upgradeSample "" = some s ∧ s.status = .upgradeTls ∧
    (Uninfluenced ⟨true, false, 3⟩ 1000 s ↔ s.receiver.state = .start ∧ s.state = .notAuthenticated 0) :=
  ⟨_, rfl, rfl, @uninfluenced_iff _ (fun _ => .done) 1000 [ascii "a STARTTLS\n" ++ ascii ""] _ rfl⟩

/-- Half a command behind STARTTLS is completed by the first line inside TLS. -/
theorem not_uninfluenced : ¬∀ behind behind' s s', upgradeSample behind = some s → s.status = .upgradeTls →
    upgradeSample behind' = some s' → s'.status = .upgradeTls → ∀ (E : ℕ → Outcome) (segments : List (List UInt8)),
      (s.intoTls.inside ⟨true, false, 3⟩ E segments).ran = (s'.intoTls.inside ⟨true, false, 3⟩ E segments).ran := by
  intro h
  have hsame := h "" "b NOOP " _ _ rfl rfl rfl rfl (fun _ => .done) [ascii "c NOOP\n"]
  revert hsame
  decide

end Session

end MailServer.Imap
