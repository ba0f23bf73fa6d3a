import MailServer.Imap.Client
import MailServer.Lib.Run

/-!
# Commands and the states they run in (`imap/src/core/client.rs`)

`is_allowed` looks at a command when it is received; the command runs after those received with it.

* `Session.Safe`: every command has run in a state that `is_allowed` accepts, and no `unreachable!()` was reached.
* `target`: the state that a command leads to.  `InOrder`: no command of a segment leads to a state in which one
  behind it may not run.
* `safe_of_inOrder`: segments in order keep a session safe.
-/

namespace MailServer.Imap

open MailServer.ImapProto MailServer.Lib List

/-- The state a command leads to when it succeeds, if it leads to one. -/
def target : Command → Option State
  | .login | .authenticate | .close | .unselect => some .authenticated
  | .unauthenticate => some (.notAuthenticated 0)
  | .select => some (.selected true)
  | .examine => some (.selected false)
  | _ => none

/-- The rest of the queue is dropped behind these. -/
def ends : Command → Bool
  | .logout | .startTls => true
  | _ => false

/-- The commands of a queue that come to run. -/
def runnable : List Command → List Command
  | [] => []
  | c :: cs => if ends c then [c] else c :: runnable cs

/-- The second command may run in the state that the first leads to. -/
def Undisturbed (C : Config) (isTls : Bool) (c d : Command) : Prop :=
  ∀ state ∈ target c, isAllowed C isTls state d = .ok ()

instance (C : Config) (isTls : Bool) : DecidableRel (Undisturbed C isTls) := fun c d =>
  inferInstanceAs (Decidable (∀ state ∈ target c, isAllowed C isTls state d = .ok ()))

def InOrder (C : Config) (isTls : Bool) (commands : List Command) : Prop :=
  (runnable commands).Pairwise (Undisturbed C isTls)

instance (C : Config) (isTls : Bool) (commands : List Command) : Decidable (InOrder C isTls commands) :=
  inferInstanceAs (Decidable ((runnable commands).Pairwise (Undisturbed C isTls)))

/-! ## What is allowed -/

variable {C : Config} {state : State} {c : Command} {s : Session}

theorem access_of_isAllowed {isTls : Bool}
    (h : isAllowed C isTls state c = .ok ()) : access c state = some () := by
  cases c
  all_goals first
    | rfl
    | (cases state <;> first | rfl | (simp [isAllowed] at h))

theorem isAllowed_notAuthenticated (C : Config) (isTls : Bool) (m n : ℕ) (c : Command) :
    isAllowed C isTls (.notAuthenticated m) c = isAllowed C isTls (.notAuthenticated n) c := by
  cases c <;> rfl

theorem notAuthenticated_of_isAllowed {isTls : Bool} (hc : c = .login ∨ c = .authenticate)
    (h : isAllowed C isTls state c = .ok ()) : ∃ n, state = .notAuthenticated n := by
  rcases hc with rfl | rfl <;> cases state <;> first | exact ⟨_, rfl⟩ | simp [isAllowed] at h

/-- What is left alone by a command that may run, and where it may lead. -/
structure Moves (C : Config) (c : Command) (s s' : Session) : Prop where
  status : s'.status ≠ .panicked
  isTls : s'.isTls = s.isTls
  executed : s'.executed = s.executed
  /-- A command behind it that was allowed still is, if it may run in the target. -/
  state : ∀ d, isAllowed C s.isTls s.state d = .ok () → Undisturbed C s.isTls c d →
    isAllowed C s'.isTls s'.state d = .ok ()

theorem moves_self (h : s.status ≠ .panicked) : Moves C c s s :=
  ⟨h, rfl, rfl, fun _ hd _ => hd⟩

theorem moves_target (h : s.status ≠ .panicked)
    (ht : target c = some state) : Moves C c s { s with state := state } :=
  ⟨h, rfl, rfl, fun _ _ hd => hd state ht⟩

theorem authenticate_moves (hc : c = .login ∨ c = .authenticate) (h : s.status ≠ .panicked)
    (ha : isAllowed C s.isTls s.state c = .ok ()) (outcome : Outcome) :
    Moves C c s (authenticate C s outcome) := by
  cases outcome with
  | done =>
    refine moves_target h ?_
    rcases hc with rfl | rfl <;> rfl
  | authFailed =>
    obtain ⟨n, hn⟩ := notAuthenticated_of_isAllowed hc ha
    simp only [authenticate, hn, State.authFailures]
    split
    · refine ⟨h, rfl, rfl, fun d hd _ => ?_⟩
      rw [hn] at hd
      rw [← hd]
      exact isAllowed_notAuthenticated C _ _ _ d
    · exact ⟨by simp, rfl, rfl, fun d hd _ => hn ▸ hd⟩
  | refused | failed | challenge mechanism => exact moves_self h

theorem accessing_moves (h : s.status ≠ .panicked) (ha : isAllowed C s.isTls s.state c = .ok ())
    (ht : target c = some state ∨ state = s.state)
    (outcome : Outcome) : Moves C c s (accessing s c state outcome) := by
  have haccess := access_of_isAllowed ha
  have hmove : Moves C c s (if outcome = .done then { s with state := state } else s) := by
    split
    · rcases ht with ht | rfl
      · exact moves_target h ht
      · exact moves_self h
    · exact moves_self h
  cases outcome with
  | refused => exact moves_self h
  | done | failed | authFailed | challenge mechanism => simpa only [accessing, haccess] using hmove

/-- **One command**: in a state that allows it, a handler never panics, and disturbs only what its target does. -/
theorem handle_moves {request : Request Command} (h : s.status ≠ .panicked)
    (ha : isAllowed C s.isTls s.state request.command = .ok ()) (outcome : Outcome) :
    Moves C request.command s (handle C s request outcome) := by
  cases hc : request.command
  case logout | startTls =>
    simp only [handle, hc]
    exact ⟨by simp, rfl, rfl, fun _ hd _ => hd⟩
  case unauthenticate =>
    simp only [handle, hc]
    exact moves_target h rfl
  case login =>
    simp only [handle, hc]
    exact authenticate_moves (.inl rfl) h (hc ▸ ha) outcome
  case authenticate =>
    have hauth := authenticate_moves (.inr rfl) h (hc ▸ ha) outcome
    simp only [handle, hc]
    cases outcome with
    | challenge mechanism => exact ⟨h, rfl, rfl, fun _ hd _ => hd⟩
    | done | refused | failed | authFailed => exact hauth
  case select | examine | close | unselect =>
    simp only [handle, hc]
    exact accessing_moves h (hc ▸ ha) (.inl rfl) _
  all_goals
    simp only [handle, hc]
    exact accessing_moves h (hc ▸ ha) (.inr rfl) _

/-! ## Segments -/

namespace Session

variable {C : Config} {E : ℕ → Outcome}

/-- Every command has run where it is allowed, and the task has not panicked. -/
def Safe (C : Config) (s : Session) : Prop :=
  s.status ≠ .panicked ∧ ∀ run ∈ s.executed, isAllowed C run.isTls run.state run.request.command = .ok ()

/-- The commands of a segment are in order, in the session that receives it. -/
def ReceivesInOrder (C : Config) (s : Session) (bytes : List UInt8) : Prop :=
  ∀ s', s.arrive = some s' → InOrder C s'.isTls ((receive C s' [] bytes).2.map fun r => r.2.command)

/-- **A queue in order**: if all of it that comes to run is allowed to begin with, each command is when its turn
comes. -/
theorem execute_safe : ∀ (requests : List (ℕ × Request Command)) (s : Session), Safe C s →
    (∀ c ∈ runnable (requests.map fun r => r.2.command), isAllowed C s.isTls s.state c = .ok ()) →
    InOrder C s.isTls (requests.map fun r => r.2.command) → Safe C (execute C E s requests)
  | [], s, hs, _, _ => hs
  | (n, request) :: requests, s, hs, hq, horder => by
    have hnow : isAllowed C s.isTls s.state request.command = .ok () := by
      refine hq _ ?_
      simp only [map_cons, runnable]
      split <;> exact mem_cons_self
    have hmoves := handle_moves (s := s.record request) hs.1 hnow (E n)
    have hsafe : Safe C (handle C (s.record request) request (E n)) := by
      refine ⟨hmoves.status, fun run hrun => ?_⟩
      rw [hmoves.executed] at hrun
      rcases mem_append.mp hrun with hrun | hrun
      · exact hs.2 run hrun
      · obtain rfl := mem_singleton.mp hrun
        exact hnow
    simp only [execute]
    split
    · -- the queue goes on, so the command is none of those that end it
      rename_i hcontinues
      have hends : ends request.command = false := by
        cases hc : request.command <;> first | rfl | (simp [handle, hc] at hcontinues)
      simp only [InOrder, runnable, map_cons, hends] at horder hq
      obtain ⟨hfirst, hrest⟩ := pairwise_cons.mp horder
      refine execute_safe requests _ hsafe (fun c hc => ?_) ?_
      · exact hmoves.state c (hq c (mem_cons_of_mem _ hc)) (hfirst c hc)
      · rw [hmoves.isTls]
        exact hrest
    · exact hsafe

theorem runnable_subset : ∀ {commands : List Command} {c : Command}, c ∈ runnable commands → c ∈ commands
  | d :: commands, c, h => by
    unfold runnable at h
    split at h
    · exact mem_singleton.mp h ▸ mem_cons_self
    · rcases mem_cons.mp h with rfl | h
      · exact mem_cons_self
      · exact mem_cons_of_mem _ (runnable_subset h)

theorem arrive_safe {s s' : Session} (h : s.arrive = some s') (hs : Safe C s) : Safe C s' := by
  unfold arrive at h
  split at h
  · obtain rfl := Option.some.inj h
    exact hs
  · obtain rfl := Option.some.inj h
    exact ⟨by simp, hs.2⟩
  all_goals cases h

/-- **One segment**: a segment in order keeps a session safe. -/
theorem step_safe {s s' : Session} {bytes : List UInt8} (hs : Safe C s) (horder : ReceivesInOrder C s bytes)
    (h : s.step C E bytes = some s') : Safe C s' := by
  obtain ⟨t, ht, rfl⟩ := Option.map_eq_some_iff.mp h
  have hsafe := arrive_safe ht hs
  obtain ⟨hr, hq⟩ := receive_receives (C := C) bytes t [] (fun q hq => by cases hq)
  refine execute_safe _ _ ⟨hr.status ▸ hsafe.1, hr.executed ▸ hsafe.2⟩ (fun c hc => ?_) ?_
  · obtain ⟨q, hmem, rfl⟩ := mem_map.mp (runnable_subset hc)
    rw [hr.isTls, hr.state]
    exact hq q hmem
  · rw [hr.isTls]
    exact horder t ht

/-- **Safety of sessions**: in a run whose segments are all in order, every command runs in a state that allows it,
and no `unreachable!()` is reached. -/
theorem safe_of_inOrder (C : Config) (E : ℕ → Outcome) (maxRequestSize : ℕ) (isTls : Bool)
    {segments : List (List UInt8)}
    (h : Run.Each (step C E) (ReceivesInOrder C) (new maxRequestSize isTls) segments) :
    Run.Always (step C E) (Safe C) (new maxRequestSize isTls) segments :=
  Run.always_of_each (fun _ _ _ hs horder hstep => step_safe hs horder hstep)
    ⟨by simp [new], fun run hrun => by cases hrun⟩ h
/-- Every handler does its work: a client logs in, selects, and then sends four commands at once. -/
theorem safe_pipelined :
    Run.Always (step ⟨true, false, 3⟩ fun _ => .done) (Safe ⟨true, false, 3⟩) (new 1000 true)
      [ascii "a LOGIN u p\n", ascii "b SELECT x\nc NOOP\n", ascii "d FETCH 1 UID\ne CHECK\nf CLOSE\ng LIST x y\n"] := by
  refine safe_of_inOrder _ _ _ _ ?_
  refine (Run.each_cons rfl).mpr ⟨fun s hs => ?_, (Run.each_cons rfl).mpr ⟨fun s hs => ?_,
    (Run.each_cons rfl).mpr ⟨fun s hs => ?_, trivial⟩⟩⟩
  all_goals
    cases hs
    decide

/-- **UNSELECT and FETCH in one segment**: FETCH is allowed before UNSELECT runs, and the task panics. -/
theorem fetch_after_unselect :
    ¬ Run.Always (step ⟨true, false, 3⟩ fun _ => .done) (Safe ⟨true, false, 3⟩) (new 1000 true)
      [ascii "a LOGIN u p\n", ascii "b SELECT x\n", ascii "c UNSELECT\nd FETCH 1 UID\n"] := by
  intro h
  have hpanic : (Run.run (step ⟨true, false, 3⟩ fun _ => .done) (new 1000 true)
      [ascii "a LOGIN u p\n", ascii "b SELECT x\n", ascii "c UNSELECT\nd FETCH 1 UID\n"]).map Session.status =
      some .panicked := rfl
  obtain ⟨s, hs, hstatus⟩ := Option.map_eq_some_iff.mp hpanic
  exact (h.last hs).1 hstatus

end Session

end MailServer.Imap
