import Mathlib.Data.List.Nodup

/-!
# The task manager (`services/src/task_manager/manager.rs`)

A worker runs a batch of tasks and writes all their outcomes in one transaction.  A task that failed is written again
only if it is still there.

* `updateTasks`: the transaction.  `nextRetryTime`: when a task is tried again.
* `recorded_iff`: when that is so of all tasks of a batch.
-/

namespace MailServer.Services

open List Option

def u64Max : ℕ := 18446744073709551615

def saturatingAdd (a b : ℕ) : ℕ := min (a + b) u64Max

/-! ## Tasks -/

inductive TaskStatus where
  | pending (createdAt due : ℕ)
  | retry (createdAt due attemptNumber : ℕ) (failureReason : String)
  | failed (createdAt failedAt failedAttemptNumber : ℕ) (failureReason : String)

def TaskStatus.createdAt : TaskStatus → ℕ
  | pending createdAt _ | retry createdAt .. | failed createdAt .. => createdAt

/-- A task, with the id of its type and whatever else there is of it. -/
structure Task (D : Type) where
  status : TaskStatus
  typ : UInt16
  data : D

namespace Task

variable {D : Type} (t : Task D)

def setStatus (status : TaskStatus) : Task D := { t with status := status }

def attemptNumber : ℕ :=
  match t.status with
  | .pending .. => 0
  | .retry _ _ attemptNumber _ => attemptNumber
  | .failed _ _ failedAttemptNumber _ => failedAttemptNumber

def dueTimestamp : ℕ :=
  match t.status with
  | .pending _ due | .retry _ due _ _ => due
  | .failed .. => u64Max

end Task

structure TaskJob where
  id : UInt64
  due : ℕ
  typ : UInt16

inductive TaskFailureType where
  | retry (retryAt : ℕ)
  | temporary
  | permanent

/-- `TaskResult`; the tasks to schedule come with the ids that are generated for them. -/
inductive TaskResult (D : Type) where
  | success (tasks : List (UInt64 × Task D))
  | update (id : UInt64) (due : ℕ) (typ : UInt16) (task : Task D)
  | failure (typ : TaskFailureType) (message : String) (maxAttempts : Option ℕ)
  | ignored

/-- The delays of the backoff are computed in floating point, with a random factor. -/
inductive TaskRetryStrategy where
  | fixedDelay (delay : ℕ)
  | exponentialBackoff (delay : ℕ → ℕ)

def TaskRetryStrategy.delaySecs : TaskRetryStrategy → ℕ → ℕ
  | fixedDelay delay, _ => delay
  | exponentialBackoff delay, attempt => delay attempt

structure TaskManager where
  maxAttempts : ℕ
  strategy : TaskRetryStrategy
  totalDeadline : ℕ

def nextRetryTime (manager : TaskManager) (maxAttemptsOverride : Option ℕ) (createTime attempt now : ℕ) : Option ℕ :=
  if attempt ≥ maxAttemptsOverride.getD manager.maxAttempts then none
  else
    let nextTime := saturatingAdd now (manager.strategy.delaySecs attempt)
    if nextTime > saturatingAdd createTime manager.totalDeadline then none else some nextTime

/-! ## The queue -/

structure TaskQueue (D : Type) where
  task : UInt64 → Option (Task D)
  due : UInt64 → ℕ → Option UInt16

inductive Op (D : Type) where
  | assertTask (id : UInt64)
  | setTask (id : UInt64) (task : Task D)
  | clearTask (id : UInt64)
  | setDue (id : UInt64) (due : ℕ) (typ : UInt16)
  | clearDue (id : UInt64) (due : ℕ)

namespace TaskQueue

variable {D : Type}

def putTask (s : TaskQueue D) (id : UInt64) (task : Option (Task D)) : TaskQueue D :=
  { s with task := Function.update s.task id task }

def putDue (s : TaskQueue D) (id : UInt64) (due : ℕ) (typ : Option UInt16) : TaskQueue D :=
  { s with due := Function.update s.due id (Function.update (s.due id) due typ) }

def apply (s : TaskQueue D) : Op D → Option (TaskQueue D)
  | .assertTask id => if (s.task id).isSome then some s else none
  | .setTask id task => some (s.putTask id (some task))
  | .clearTask id => some (s.putTask id none)
  | .setDue id due typ => some (s.putDue id due (some typ))
  | .clearDue id due => some (s.putDue id due none)

end TaskQueue

/-! ## Outcomes -/

/-- A task that was run, with its result and the time at which it is written. -/
structure Processed (D : Type) where
  task : Task D
  info : TaskJob
  result : TaskResult D
  now : ℕ

open Processed

namespace Processed

variable {D : Type} (manager : TaskManager) (p : Processed D)

/-- `created_at` of the code: of a task that has failed before, when it failed. -/
def createdAt : ℕ :=
  match p.task.status with
  | .pending createdAt _ | .retry createdAt .. => createdAt
  | .failed _ failedAt .. => failedAt

/-- When a task that failed is tried again. -/
def retryAt (typ : TaskFailureType) (maxAttempts : Option ℕ) : Option ℕ :=
  match typ with
  | .retry retryAt =>
    if p.task.attemptNumber < maxAttempts.getD manager.maxAttempts ∧ retryAt < saturatingAdd retryAt manager.totalDeadline
    then some retryAt else none
  | .temporary => nextRetryTime manager maxAttempts p.createdAt p.task.attemptNumber p.now
  | .permanent => none

/-- A failed task with its new status, and when it is due. -/
def failed (typ : TaskFailureType) (message : String) (maxAttempts : Option ℕ) : ℕ × Task D :=
  match p.retryAt manager typ maxAttempts with
  | some retryAt => (retryAt, p.task.setStatus (.retry p.createdAt retryAt (p.task.attemptNumber + 1) message))
  | none => (u64Max, p.task.setStatus (.failed p.createdAt p.now p.task.attemptNumber message))

/-- The operations of one task of the batch. -/
def ops : List (Op D) :=
  .clearDue p.info.id p.info.due ::
    match p.result with
    | .success tasks =>
      (tasks.flatMap fun t => [.setTask t.1 t.2, .setDue t.1 t.2.dueTimestamp t.2.typ]) ++ [.clearTask p.info.id]
    | .ignored => [.clearTask p.info.id]
    | .update id due typ task => [.setDue id due typ, .setTask id task]
    | .failure typ message maxAttempts =>
      let (due, task) := p.failed manager typ message maxAttempts
      [.assertTask p.info.id, .setDue p.info.id due p.info.typ, .setTask p.info.id task]

end Processed

/-- `update_tasks`: nothing is written where an assertion fails. -/
def updateTasks {D : Type} (manager : TaskManager) (ps : List (Processed D)) (s : TaskQueue D) : TaskQueue D :=
  ((ps.flatMap (ops manager)).foldlM TaskQueue.apply s).getD s

/-! ## What should be in the queue -/

section

variable {D : Type} (manager : TaskManager)

/-- One due entry and no other. -/
def OnlyDue (s : TaskQueue D) (id : UInt64) (due : ℕ) (typ : UInt16) : Prop :=
  s.due id due = some typ ∧ ∀ d, d ≠ due → s.due id d = none

/-- Nothing is left of a task. -/
def Gone (s : TaskQueue D) (id : UInt64) : Prop := s.task id = none ∧ ∀ d, s.due id d = none

/-- The task is tried again, when it asked for that and there are attempts and time left, or it has failed. -/
def RecordedFailure (s : TaskQueue D) (p : Processed D) (typ : TaskFailureType) (message : String) (maxAttempts : Option ℕ) :
    Prop :=
  ∃ due createdAt, OnlyDue s p.info.id due p.info.typ ∧
    ((typ ≠ .permanent ∧ (∀ retryAt, typ = .retry retryAt → due = retryAt) ∧
        p.task.attemptNumber < maxAttempts.getD manager.maxAttempts ∧
        due ≤ p.task.status.createdAt + manager.totalDeadline ∧
        s.task p.info.id = some (p.task.setStatus (.retry createdAt due (p.task.attemptNumber + 1) message))) ∨
      (due = u64Max ∧
        s.task p.info.id = some (p.task.setStatus (.failed createdAt p.now p.task.attemptNumber message))))

/-- The outcome of a task is in the queue. -/
def Recorded (s : TaskQueue D) (p : Processed D) : Prop :=
  match p.result with
  | .success _ | .ignored => Gone s p.info.id
  | .update _ due typ task => s.task p.info.id = some task ∧ OnlyDue s p.info.id due typ
  | .failure typ message maxAttempts => RecordedFailure manager s p typ message maxAttempts

/-- The outcomes of the tasks that were there are recorded, and no other task is back. -/
def AllRecorded (ps : List (Processed D)) (s s' : TaskQueue D) : Prop :=
  ∀ p ∈ ps, if (s.task p.info.id).isSome then Recorded manager s' p else Gone s' p.info.id

end

/-! ## One task -/

section

variable {D : Type} {manager : TaskManager}

namespace Processed

variable (p : Processed D)

/-- The ids of the tasks that it schedules. -/
def scheduled : List UInt64 :=
  match p.result with
  | .success tasks => tasks.map Prod.fst
  | _ => []

def fails : Bool :=
  match p.result with
  | .failure .. => true
  | _ => false

def updates : Bool :=
  match p.result with
  | .update .. => true
  | _ => false

/-- What is written of it. -/
def entry (manager : TaskManager) : Option (ℕ × UInt16 × Task D) :=
  match p.result with
  | .success _ | .ignored => none
  | .update _ due typ task => some (due, typ, task)
  | .failure typ message maxAttempts =>
    let (due, task) := p.failed manager typ message maxAttempts
    some (due, p.info.typ, task)

end Processed

/-- The queue has of a task exactly what the batch writes of it, and the due entries of before but for its own. -/
structure Written (manager : TaskManager) (p : Processed D) (s s' : TaskQueue D) : Prop where
  task : s'.task p.info.id = (p.entry manager).map fun e => e.2.2
  due : ∀ d, s'.due p.info.id d =
    if (p.entry manager).any fun e => e.1 = d then (p.entry manager).map fun e => e.2.1
    else if d = p.info.due then none else s.due p.info.id d

/-- The entries of an id are the same. -/
def SameAt (s s' : TaskQueue D) (id : UInt64) : Prop := s'.task id = s.task id ∧ s'.due id = s.due id

namespace TaskQueue

variable (s : TaskQueue D) {id id' : UInt64}

theorem sameAt_putTask (h : id ≠ id') (task : Option (Task D)) : SameAt s (s.putTask id' task) id :=
  ⟨Function.update_of_ne h _ _, rfl⟩

theorem sameAt_putDue (h : id ≠ id') (due : ℕ) (typ : Option UInt16) : SameAt s (s.putDue id' due typ) id :=
  ⟨rfl, Function.update_of_ne h _ _⟩

@[simp] theorem task_putTask (task : Option (Task D)) : (s.putTask id task).task id = task := Function.update_self _ _ _

@[simp] theorem due_putTask (task : Option (Task D)) : (s.putTask id task).due = s.due := rfl

@[simp] theorem due_putDue (due d : ℕ) (typ : Option UInt16) :
    (s.putDue id due typ).due id d = if due = d then typ else s.due id d := by
  unfold putDue
  simp [Function.update_apply, eq_comm]

end TaskQueue

theorem SameAt.trans {s s' s'' : TaskQueue D} {id : UInt64} (h : SameAt s s' id) (h' : SameAt s' s'' id) :
    SameAt s s'' id := ⟨h'.1.trans h.1, h'.2.trans h.2⟩

theorem foldlM_schedule (tasks : List (UInt64 × Task D)) : ∀ s : TaskQueue D,
    ∃ s', (tasks.flatMap fun t => [Op.setTask t.1 t.2, .setDue t.1 t.2.dueTimestamp t.2.typ]).foldlM TaskQueue.apply s =
      some s' ∧ ∀ id, id ∉ tasks.map Prod.fst → SameAt s s' id := by
  induction tasks with
  | nil => exact fun s => ⟨s, rfl, fun _ _ => ⟨rfl, rfl⟩⟩
  | cons t tasks ih =>
    intro s
    obtain ⟨s', hs', hsame⟩ := ih ((s.putTask t.1 (some t.2)).putDue t.1 t.2.dueTimestamp (some t.2.typ))
    refine ⟨s', by exact hs', fun id hid => ?_⟩
    rw [map_cons, mem_cons, not_or] at hid
    have htask := s.sameAt_putTask hid.1 (some t.2)
    have hdue := (s.putTask t.1 (some t.2)).sameAt_putDue hid.1 t.2.dueTimestamp (some t.2.typ)
    exact (htask.trans hdue).trans (hsame id hid.2)

theorem foldlM_ops_of_gone {p : Processed D} {s : TaskQueue D} (hfails : p.fails = true) (hgone : s.task p.info.id = none) :
    (p.ops manager).foldlM TaskQueue.apply s = none := by
  unfold fails at hfails
  unfold ops
  cases hresult : p.result with
  | failure typ message maxAttempts =>
    show ((if (s.task p.info.id).isSome then some _ else none) >>= _ : Option (TaskQueue D)) = none
    rw [hgone]
    rfl
  | success | update | ignored =>
    rw [hresult] at hfails
    cases hfails

theorem foldlM_ops {p : Processed D} {s : TaskQueue D} (hthere : p.fails = true → s.task p.info.id ≠ none)
    (hupdate : ∀ id due typ task, p.result = .update id due typ task → id = p.info.id)
    (hscheduled : p.info.id ∉ p.scheduled) : ∃ s', (p.ops manager).foldlM TaskQueue.apply s = some s' ∧
      Written manager p s s' ∧ ∀ id, id ≠ p.info.id → id ∉ p.scheduled → SameAt s s' id := by
  have hfirst {id : UInt64} (hid : id ≠ p.info.id) : SameAt s (s.putDue p.info.id p.info.due none) id :=
    s.sameAt_putDue hid p.info.due none
  unfold ops
  cases hresult : p.result with
  | success tasks =>
    have hentry : p.entry manager = none := by rw [entry, hresult]
    have hids : p.scheduled = tasks.map Prod.fst := by rw [scheduled, hresult]
    rw [hids] at hscheduled ⊢
    obtain ⟨s', hs', hsame⟩ := foldlM_schedule tasks (s.putDue p.info.id p.info.due none)
    refine ⟨s'.putTask p.info.id none, ?_, ⟨by simp [hentry], fun d => ?_⟩, fun id hid hnot => ?_⟩
    · show List.foldlM TaskQueue.apply (s.putDue p.info.id p.info.due none) (_ ++ [_]) = _
      rw [foldlM_append, hs']
      rfl
    · rw [hentry, TaskQueue.due_putTask, (hsame _ hscheduled).2]
      simp [eq_comm]
    · exact ((hfirst hid).trans (hsame id hnot)).trans (s'.sameAt_putTask hid none)
  | ignored =>
    have hentry : p.entry manager = none := by rw [entry, hresult]
    refine ⟨(s.putDue p.info.id p.info.due none).putTask p.info.id none, rfl, ⟨by simp [hentry], fun d => ?_⟩,
      fun id hid _ => (hfirst hid).trans (TaskQueue.sameAt_putTask _ hid none)⟩
    rw [hentry]
    simp [eq_comm]
  | update id due typ task =>
    have hentry : p.entry manager = some (due, typ, task) := by rw [entry, hresult]
    obtain rfl := hupdate id due typ task hresult
    refine ⟨((s.putDue p.info.id p.info.due none).putDue p.info.id due (some typ)).putTask p.info.id (some task), rfl,
      ⟨by simp [hentry], fun d => ?_⟩, fun id hid _ => ?_⟩
    · rw [hentry]
      simp [eq_comm]
    · exact ((hfirst hid).trans (TaskQueue.sameAt_putDue _ hid _ _)).trans (TaskQueue.sameAt_putTask _ hid _)
  | failure typ message maxAttempts =>
    obtain ⟨due, task, hfailed⟩ : ∃ due task, p.failed manager typ message maxAttempts = (due, task) := ⟨_, _, rfl⟩
    have hentry : p.entry manager = some (due, p.info.typ, task) := by
      rw [entry, hresult]
      dsimp only
      rw [hfailed]
    have hfails : p.fails = true := by rw [fails, hresult]
    obtain ⟨t, ht⟩ := ne_none_iff_exists'.mp (hthere hfails)
    refine ⟨((s.putDue p.info.id p.info.due none).putDue p.info.id due (some p.info.typ)).putTask p.info.id (some task), ?_,
      ⟨by simp [hentry], fun d => ?_⟩, fun id hid _ => ?_⟩
    · dsimp only
      rw [hfailed]
      show ((if (s.task p.info.id).isSome then some _ else none) >>= _ : Option (TaskQueue D)) = _
      rw [ht]
      rfl
    · rw [hentry]
      simp [eq_comm]
    · exact ((hfirst hid).trans (TaskQueue.sameAt_putDue _ hid _ _)).trans (TaskQueue.sameAt_putTask _ hid _)

end

/-! ## A batch -/

section

variable {D : Type} {manager : TaskManager} {ps : List (Processed D)} {s : TaskQueue D}

/-- What a batch of a worker is like: one job for a task, new ids for what is scheduled; an update (the next alarm of an
event) is of the task itself and due at another time. -/
structure Proper (ps : List (Processed D)) : Prop where
  ids : (ps.map fun p => p.info.id).Nodup
  scheduled : ∀ p ∈ ps, ∀ q ∈ ps, q.info.id ∉ p.scheduled
  updates : ∀ p ∈ ps, ∀ id due typ task, p.result = .update id due typ task → id = p.info.id ∧ due ≠ p.info.due
  due : ∀ p ∈ ps, p.info.due ≠ u64Max

/-- The only due entry is the one that the job was found by. -/
def DueAtJob (s : TaskQueue D) (p : Processed D) : Prop := ∀ d, (s.due p.info.id d).isSome = true ↔ d = p.info.due

/-- The tasks of a batch are as they were when they were read, or deleted. -/
def Meanwhile (ps : List (Processed D)) (s : TaskQueue D) : Prop :=
  ∀ p ∈ ps, (s.task p.info.id = some p.task ∧ DueAtJob s p) ∨ Gone s p.info.id

theorem foldlM_of_gone (hproper : Proper ps) {p : Processed D} (hp : p ∈ ps) (hfails : p.fails = true)
    (hgone : s.task p.info.id = none) : (ps.flatMap (ops manager)).foldlM TaskQueue.apply s = none := by
  induction ps generalizing s with
  | nil => cases hp
  | cons q ps ih =>
    rw [flatMap_cons, foldlM_append]
    have hrest : Proper ps :=
      ⟨(nodup_cons.mp hproper.ids).2, fun p hp q hq => hproper.scheduled p (.tail _ hp) q (.tail _ hq),
        fun p hp => hproper.updates p (.tail _ hp), fun p hp => hproper.due p (.tail _ hp)⟩
    by_cases hq : q.fails = true ∧ s.task q.info.id = none
    · rw [foldlM_ops_of_gone hq.1 hq.2]
      rfl
    · rcases mem_cons.mp hp with rfl | hp
      · exact absurd ⟨hfails, hgone⟩ hq
      · obtain ⟨s', hs', -, hsame⟩ := foldlM_ops (fun hf hnone => hq ⟨hf, hnone⟩)
          (fun id due typ task h => (hproper.updates q mem_cons_self id due typ task h).1)
          (hproper.scheduled q mem_cons_self q mem_cons_self)
        have hne : p.info.id ≠ q.info.id := fun heq =>
          (nodup_cons.mp hproper.ids).1 (List.mem_map.mpr ⟨p, hp, heq⟩)
        have hid := hsame _ hne (hproper.scheduled q mem_cons_self p (mem_cons_of_mem _ hp))
        rw [hs']
        exact ih hrest hp (hid.1.trans hgone)

theorem foldlM_batch (hproper : Proper ps) (hthere : ∀ p ∈ ps, p.fails = true → s.task p.info.id ≠ none) :
    ∃ s', (ps.flatMap (ops manager)).foldlM TaskQueue.apply s = some s' ∧
      (∀ p ∈ ps, Written manager p s s') ∧
      ∀ id, (∀ p ∈ ps, id ≠ p.info.id ∧ id ∉ p.scheduled) → SameAt s s' id := by
  induction ps generalizing s with
  | nil => exact ⟨s, rfl, (fun _ h => by cases h), fun _ _ => ⟨rfl, rfl⟩⟩
  | cons q ps ih =>
    obtain ⟨hnot, hids⟩ := nodup_cons.mp hproper.ids
    have hrest : Proper ps :=
      ⟨hids, fun p hp q hq => hproper.scheduled p (.tail _ hp) q (.tail _ hq),
        fun p hp => hproper.updates p (.tail _ hp), fun p hp => hproper.due p (.tail _ hp)⟩
    have hne {p : Processed D} (hp : p ∈ ps) : p.info.id ≠ q.info.id :=
      fun heq => hnot (List.mem_map.mpr ⟨p, hp, heq⟩)
    obtain ⟨s', hs', hwritten, hsame⟩ := foldlM_ops (hthere q mem_cons_self)
      (fun id due typ task h => (hproper.updates q mem_cons_self id due typ task h).1)
      (hproper.scheduled q mem_cons_self q mem_cons_self)
    have hsame' {p : Processed D} (hp : p ∈ ps) : SameAt s s' p.info.id :=
      hsame _ (hne hp) (hproper.scheduled q mem_cons_self p (mem_cons_of_mem _ hp))
    obtain ⟨s'', hs'', hwritten', hsame''⟩ := ih hrest (s := s') fun p hp hf => by
      rw [(hsame' hp).1]
      exact hthere p (mem_cons_of_mem _ hp) hf
    refine ⟨s'', by rw [flatMap_cons, foldlM_append, hs']; exact hs'', fun p hp => ?_, fun id hid => ?_⟩
    · rcases mem_cons.mp hp with rfl | hp
      · have hlater := hsame'' p.info.id fun r hr =>
          ⟨(hne hr).symm, hproper.scheduled r (mem_cons_of_mem _ hr) p mem_cons_self⟩
        exact ⟨hlater.1.trans hwritten.task, fun d => by rw [hlater.2]; exact hwritten.due d⟩
      · have h := hwritten' p hp
        exact ⟨h.task, fun d => by rw [h.due, (hsame' hp).2]⟩
    · obtain ⟨hq, hnot⟩ := hid q mem_cons_self
      exact (hsame id hq hnot).trans (hsame'' id fun p hp => hid p (mem_cons_of_mem _ hp))

/-! ## Deadlines -/

/-- A retry is due before the deadline that counts from the creation of the task: one at a given time, and one of a task
that has failed before, of which the code takes the time of that failure for its creation. -/
def InTime (manager : TaskManager) (p : Processed D) : Prop :=
  match p.result with
  | .failure (.retry retryAt) _ maxAttempts =>
    p.task.attemptNumber < maxAttempts.getD manager.maxAttempts →
      retryAt < saturatingAdd retryAt manager.totalDeadline →
        retryAt ≤ p.task.status.createdAt + manager.totalDeadline
  | .failure .temporary _ maxAttempts =>
    ∀ createdAt failedAt attempt reason, p.task.status = .failed createdAt failedAt attempt reason →
      attempt < maxAttempts.getD manager.maxAttempts →
        saturatingAdd p.now (manager.strategy.delaySecs attempt) ≤ saturatingAdd failedAt manager.totalDeadline →
          saturatingAdd p.now (manager.strategy.delaySecs attempt) ≤ createdAt + manager.totalDeadline
  | _ => True

section

variable {p : Processed D} {typ : TaskFailureType} {message : String} {maxAttempts : Option ℕ}

theorem nextRetryTime_eq_some {createTime attempt now next : ℕ} :
    nextRetryTime manager maxAttempts createTime attempt now = some next ↔
      attempt < maxAttempts.getD manager.maxAttempts ∧ next ≤ saturatingAdd createTime manager.totalDeadline ∧
        next = saturatingAdd now (manager.strategy.delaySecs attempt) := by
  unfold nextRetryTime
  by_cases hattempt : attempt ≥ maxAttempts.getD manager.maxAttempts
  · rw [if_pos hattempt]
    exact ⟨nofun, fun h => absurd h.1 (by omega)⟩
  · dsimp only
    split_ifs with hlate
    · refine ⟨nofun, fun ⟨_, hle, heq⟩ => ?_⟩
      omega
    · refine ⟨fun h => ?_, fun h => by rw [h.2.2]⟩
      obtain rfl := some.inj h
      exact ⟨by omega, by omega, rfl⟩

theorem saturatingAdd_le (a b : ℕ) : saturatingAdd a b ≤ a + b := Nat.min_le_left _ _

theorem retryAt_eq_some {due : ℕ} (h : p.retryAt manager typ maxAttempts = some due) :
    typ ≠ .permanent ∧ (∀ retryAt, typ = .retry retryAt → due = retryAt) ∧
      p.task.attemptNumber < maxAttempts.getD manager.maxAttempts := by
  unfold retryAt at h
  cases typ with
  | retry retryAt =>
    dsimp only at h
    split_ifs at h with hin
    obtain rfl := some.inj h
    exact ⟨nofun, fun _ heq => by injection heq, hin.1⟩
  | temporary => exact ⟨nofun, nofun, (nextRetryTime_eq_some.1 h).1⟩
  | permanent => cases h

theorem inTime_iff (hresult : p.result = .failure typ message maxAttempts) :
    InTime manager p ↔
      ∀ due, p.retryAt manager typ maxAttempts = some due → due ≤ p.task.status.createdAt + manager.totalDeadline := by
  unfold InTime
  rw [hresult]
  cases typ with
  | retry retryAt =>
    unfold Processed.retryAt
    dsimp only
    constructor
    · intro h due hdue
      split_ifs at hdue with hin
      obtain rfl := some.inj hdue
      exact h hin.1 hin.2
    · intro h hattempt hlt
      exact h retryAt (if_pos ⟨hattempt, hlt⟩)
  | temporary =>
    show (∀ _, _) ↔ ∀ due, nextRetryTime manager maxAttempts p.createdAt p.task.attemptNumber p.now = some due → _
    simp only [nextRetryTime_eq_some]
    unfold Processed.createdAt Task.attemptNumber
    have hle (createdAt : ℕ) := saturatingAdd_le createdAt manager.totalDeadline
    cases hstatus : p.task.status with
    | pending createdAt due => exact ⟨fun _ d h => Nat.le_trans h.2.1 (hle _), fun _ => nofun⟩
    | retry createdAt due attempt reason => exact ⟨fun _ d h => Nat.le_trans h.2.1 (hle _), fun _ => nofun⟩
    | failed createdAt failedAt attempt reason =>
      constructor
      · rintro h _ ⟨hattempt, hdue, rfl⟩
        exact h _ _ _ _ rfl hattempt hdue
      · intro h _ _ _ _ heq hattempt hdue
        injection heq with hcreated hfailed hnumber
        subst hcreated hfailed hnumber
        exact h _ ⟨hattempt, hdue, rfl⟩
  | permanent => exact ⟨fun _ _ => nofun, fun _ => trivial⟩

end

/-! ## What is recorded -/

section

variable {p : Processed D} {s' : TaskQueue D}

theorem Written.gone (h : Written manager p s s') (hentry : p.entry manager = none)
    (hdue : ∀ d, d ≠ p.info.due → s.due p.info.id d = none) : Gone s' p.info.id := by
  refine ⟨by rw [h.task, hentry]; rfl, fun d => ?_⟩
  rw [h.due, hentry]
  show (if d = p.info.due then none else s.due p.info.id d) = none
  split_ifs with hd
  · rfl
  · exact hdue d hd

theorem DueAtJob.eq_none (h : DueAtJob s p) {d : ℕ} (hd : d ≠ p.info.due) : s.due p.info.id d = none := by
  by_contra hsome
  exact hd ((h d).mp (isSome_iff_ne_none.mpr hsome))

theorem Written.onlyDue (h : Written manager p s s') {due : ℕ} {typ : UInt16} {task : Task D}
    (hentry : p.entry manager = some (due, typ, task)) (hdue : DueAtJob s p) : OnlyDue s' p.info.id due typ := by
  refine ⟨?_, fun d hd => ?_⟩
  · rw [h.due, hentry]
    simp
  · rw [h.due, hentry, if_neg (by simpa using hd.symm)]
    split_ifs with heq
    · rfl
    · exact hdue.eq_none heq

theorem Written.recorded_iff_inTime (h : Written manager p s s') (hdue : DueAtJob s p) :
    Recorded manager s' p ↔ InTime manager p := by
  cases hresult : p.result with
  | success tasks =>
    have hentry : p.entry manager = none := by rw [entry, hresult]
    rw [Recorded, InTime, hresult]
    exact ⟨fun _ => trivial, fun _ => h.gone hentry fun d => hdue.eq_none⟩
  | ignored =>
    have hentry : p.entry manager = none := by rw [entry, hresult]
    rw [Recorded, InTime, hresult]
    exact ⟨fun _ => trivial, fun _ => h.gone hentry fun d => hdue.eq_none⟩
  | update id due typ task =>
    have hentry : p.entry manager = some (due, typ, task) := by rw [entry, hresult]
    rw [Recorded, InTime, hresult]
    exact ⟨fun _ => trivial, fun _ => ⟨by rw [h.task, hentry]; rfl, h.onlyDue hentry hdue⟩⟩
  | failure typ message maxAttempts =>
    rw [inTime_iff hresult, Recorded, hresult]
    have hfailed : p.entry manager = some ((p.failed manager typ message maxAttempts).1, p.info.typ,
        (p.failed manager typ message maxAttempts).2) := by rw [entry, hresult]
    have htask := h.task
    unfold failed at hfailed
    cases hretry : p.retryAt manager typ maxAttempts with
    | none =>
      rw [hretry] at hfailed
      rw [hfailed] at htask
      exact ⟨fun _ => nofun, fun _ => ⟨u64Max, _, h.onlyDue hfailed hdue, .inr ⟨rfl, htask⟩⟩⟩
    | some retryAt =>
      rw [hretry] at hfailed
      rw [hfailed] at htask
      obtain ⟨hpermanent, hat, hattempt⟩ := retryAt_eq_some hretry
      constructor
      · rintro ⟨due, createdAt, -, ⟨-, -, -, hle, hsome⟩ | ⟨-, hsome⟩⟩ d hd
        · obtain rfl := some.inj hd
          have heq := congrArg Task.status (some.inj (htask.symm.trans hsome))
          injection heq with _ hdue
          omega
        · have heq := congrArg Task.status (some.inj (htask.symm.trans hsome))
          injection heq
      · exact fun hle => ⟨retryAt, _, h.onlyDue hfailed hdue, .inl ⟨hpermanent, hat, hattempt, hle retryAt rfl, htask⟩⟩

end

theorem not_recorded {p : Processed D} (hproper : Proper ps) (hp : p ∈ ps) (htask : s.task p.info.id = some p.task)
    (hdue : DueAtJob s p) : ¬ Recorded manager s p := by
  unfold Recorded
  cases hresult : p.result with
  | success tasks => exact fun h => some_ne_none _ (htask.symm.trans h.1)
  | ignored => exact fun h => some_ne_none _ (htask.symm.trans h.1)
  | update id due typ task =>
    rintro ⟨-, hat, -⟩
    exact (hproper.updates p hp id due typ task hresult).2 ((hdue due).mp (by rw [hat]; rfl))
  | failure typ message maxAttempts =>
    rintro ⟨due, createdAt, ⟨hat, -⟩, ⟨-, -, -, -, hsome⟩ | ⟨rfl, -⟩⟩
    · have heq := congrArg Task.attemptNumber (some.inj (htask.symm.trans hsome))
      have hnext : (p.task.setStatus (.retry createdAt due (p.task.attemptNumber + 1) message)).attemptNumber =
        p.task.attemptNumber + 1 := rfl
      omega
    · exact hproper.due p hp ((hdue u64Max).mp (by rw [hat]; rfl)).symm

theorem Processed.entry_eq_none {p : Processed D} :
    p.entry manager = none ↔ p.fails = false ∧ p.updates = false := by
  unfold entry fails updates
  cases p.result <;> simp

/-- The outcomes of a batch are recorded where no task that was deleted failed or is updated and retries are in time; where
a task that failed was deleted nothing is written, which is right if no task is left. -/
theorem recorded_iff (hproper : Proper ps) (hmeanwhile : Meanwhile ps s) :
    AllRecorded manager ps s (updateTasks manager ps s) ↔
      ((∀ p ∈ ps, s.task p.info.id = none → p.fails = false ∧ p.updates = false) ∧
        ∀ p ∈ ps, (s.task p.info.id).isSome = true → InTime manager p) ∨
      ((∃ p ∈ ps, p.fails = true ∧ s.task p.info.id = none) ∧ ∀ p ∈ ps, s.task p.info.id = none) := by
  have hcases {p : Processed D} (hp : p ∈ ps) (hsome : (s.task p.info.id).isSome = true) :
      s.task p.info.id = some p.task ∧ DueAtJob s p :=
    (hmeanwhile p hp).resolve_right fun h => by rw [h.1] at hsome; cases hsome
  have hgone {p : Processed D} (hp : p ∈ ps) (hnone : s.task p.info.id = none) : Gone s p.info.id :=
    (hmeanwhile p hp).resolve_left fun h => some_ne_none _ (h.1.symm.trans hnone)
  by_cases hstops : ∃ p ∈ ps, p.fails = true ∧ s.task p.info.id = none
  · -- the assertion of the task fails and the queue is as before
    obtain ⟨p, hp, hfails, hnone⟩ := hstops
    have hsame : updateTasks manager ps s = s := by rw [updateTasks, foldlM_of_gone hproper hp hfails hnone]; rfl
    rw [hsame]
    constructor
    · intro h
      refine .inr ⟨⟨p, hp, hfails, hnone⟩, fun q hq => ?_⟩
      by_contra hthere
      have hsome := isSome_iff_ne_none.mpr hthere
      have hrecorded := h q hq
      rw [if_pos hsome] at hrecorded
      exact not_recorded hproper hq (hcases hq hsome).1 (hcases hq hsome).2 hrecorded
    · rintro (⟨hnot, -⟩ | ⟨-, hall⟩) q hq
      · exact absurd hfails (by rw [(hnot p hp hnone).1]; nofun)
      · rw [hall q hq]
        exact hgone hq (hall q hq)
  · obtain ⟨s', hs', hwritten, -⟩ := foldlM_batch hproper fun p hp hfails hnone =>
      hstops ⟨p, hp, hfails, hnone⟩
    have hresult : updateTasks manager ps s = s' := by rw [updateTasks, hs']; rfl
    rw [hresult]
    constructor
    · intro h
      refine .inl ⟨fun p hp hnone => ?_, fun p hp hsome => ?_⟩
      · have hback := h p hp
        rw [hnone] at hback
        have hentry := (hwritten p hp).task.symm.trans hback.1
        exact entry_eq_none.1 (map_eq_none_iff.mp hentry)
      · have hrecorded := h p hp
        rw [if_pos hsome] at hrecorded
        exact ((hwritten p hp).recorded_iff_inTime (hcases hp hsome).2).mp hrecorded
    · rintro (⟨hnot, hin⟩ | ⟨hex, -⟩) p hp
      · split_ifs with hsome
        · exact ((hwritten p hp).recorded_iff_inTime (hcases hp hsome).2).mpr (hin p hp hsome)
        · have hnone : s.task p.info.id = none := by simpa using hsome
          exact (hwritten p hp).gone (entry_eq_none.2 (hnot p hp hnone)) fun d _ => (hgone hp hnone).2 d
      · exact absurd hex hstops

/-! ### Two tasks of a batch -/

def threeAttempts : TaskManager := ⟨3, .fixedDelay 60, 600⟩

def pendingTask : Task Unit := ⟨.pending 100 100, 7, ()⟩

/-- A task that is done and one that could not be done now. -/
def twoProcessed : List (Processed Unit) :=
  [⟨pendingTask, ⟨1, 100, 7⟩, .success [], 110⟩, ⟨pendingTask, ⟨2, 100, 7⟩, .failure .temporary "timeout" none, 110⟩]

def oneQueued : TaskQueue Unit :=
  ⟨fun id => if id = 1 then some pendingTask else none, fun id due => if id = 1 ∧ due = 100 then some 7 else none⟩

def bothQueued : TaskQueue Unit :=
  ⟨fun id => if id = 1 ∨ id = 2 then some pendingTask else none,
    fun id due => if (id = 1 ∨ id = 2) ∧ due = 100 then some 7 else none⟩

theorem proper_twoProcessed : Proper twoProcessed := by
  refine ⟨by decide, ?_, ?_, ?_⟩ <;> simp [twoProcessed, scheduled, u64Max]

theorem recorded_bothQueued : AllRecorded threeAttempts twoProcessed bothQueued
    (updateTasks threeAttempts twoProcessed bothQueued) := by
  refine (recorded_iff proper_twoProcessed ?_).mpr (.inl ⟨?_, ?_⟩)
  · simp [Meanwhile, DueAtJob, twoProcessed, bothQueued]
  · simp [twoProcessed, bothQueued]
  · simp [twoProcessed, InTime, pendingTask]

/-- A task that was deleted while it failed keeps the other one from being finished: it is run again. -/
theorem lost_oneQueued : ¬ ∀ (manager : TaskManager) (ps : List (Processed Unit)) (s : TaskQueue Unit),
    Proper ps → Meanwhile ps s → AllRecorded manager ps s (updateTasks manager ps s) := by
  intro h
  have hmeanwhile : Meanwhile twoProcessed oneQueued := by simp [Meanwhile, DueAtJob, Gone, twoProcessed, oneQueued]
  have hfirst := h threeAttempts twoProcessed oneQueued proper_twoProcessed hmeanwhile _ mem_cons_self
  exact absurd hfirst.1 nofun

end

end MailServer.Services
