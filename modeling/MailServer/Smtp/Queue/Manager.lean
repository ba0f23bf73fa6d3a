import Mathlib.Data.List.Induction
import MailServer.Lib.Run
import MailServer.Smtp.Queue.Message

/-!
# The queue manager (`smtp/src/queue/manager.rs`, `spool.rs`)

One task starts a delivery worker for every event that is due and keeps a lock for it until the worker reports.  The
locks are stamped with the number of the scan that last came across their events, and each scan ends with a sweep of
those that it has not stamped.

* `Queue`: the state of the manager, with the workers that were started and have not reported.
* `nextEvent`, `deliver`, `sweep`: the three parts of a scan.
* `Queue.step`: a scan, or an event of the channel.
* `visitedTo_foldl`: what the iteration does to the locks, and what it returns.
-/

namespace MailServer.Smtp

open List Function

/-! ## State -/

/-- `LOCK_EXPIRY` -/
def lockExpiry : ℕ := 10 * 60

/-- `INFINITE_LOCK` -/
def infiniteLock : ℕ := 60 * 60 * 24 * 365

structure QueueStats where
  inFlight : ℕ
  maxInFlight : ℕ
deriving DecidableEq

def QueueStats.new (maxInFlight : ℕ) : QueueStats := ⟨0, maxInFlight⟩

def QueueStats.hasCapacity (stats : QueueStats) : Bool := stats.inFlight < stats.maxInFlight

structure LockedMessage where
  expires : ℕ
  revision : ℕ
deriving DecidableEq

/-- The id of a message and the virtual queue that delivers it. -/
abbrev QueueKey := ℕ × QueueName

/-- `QueuedMessage`, which is also what the store keeps under `QueueClass::MessageEvent`. -/
structure QueuedMessage where
  due : ℕ
  key : QueueKey
deriving DecidableEq

structure Queue where
  locked : QueueKey → Option LockedMessage
  lockedRevision : ℕ
  stats : QueueName → Option QueueStats
  isPaused : Bool
  /-- The workers that were started and have not reported. -/
  started : List QueueKey
  /-- An `unwrap` or a subtraction of `handle_event` has failed. -/
  failed : Bool

open Queue

namespace Queue

def new : Queue := ⟨fun _ => none, 0, fun _ => none, false, [], false⟩

def setLock (q : Queue) (key : QueueKey) (expires : ℕ) : Queue :=
  { q with locked := update q.locked key (some ⟨expires, q.lockedRevision⟩) }

def removeLock (q : Queue) (key : QueueKey) : Queue :=
  { q with locked := update q.locked key none }

def setStats (q : Queue) (name : QueueName) (stats : QueueStats) : Queue :=
  { q with stats := update q.stats name (some stats) }

@[simp] theorem locked_setLock (q : Queue) (key : QueueKey) (expires : ℕ) :
    (q.setLock key expires).locked = update q.locked key (some ⟨expires, q.lockedRevision⟩) := rfl

end Queue

/-! ## Scans -/

/-- What a scan depends on: the clock, the events that the iteration of the store comes to, the order after the shuffle,
the threads of the virtual queues, and the clock at its end. -/
structure Scan where
  now : ℕ
  events : List QueuedMessage
  messages : List QueuedMessage
  threads : QueueName → ℕ
  sweptAt : ℕ

/-- The iteration ends with the first event that is not due. -/
def Scan.read (scan : Scan) : List QueuedMessage := scan.events.takeWhile (·.due ≤ scan.now)

/-- One due event of `next_event`. -/
def visit (now : ℕ) (acc : Queue × List QueuedMessage) (event : QueuedMessage) : Queue × List QueuedMessage :=
  if (acc.1.stats event.key.2).all (·.hasCapacity) then
    match acc.1.locked event.key with
    | some locked =>
      if locked.expires ≤ now then (acc.1.setLock event.key (now + infiniteLock), acc.2 ++ [event])
      else (acc.1.setLock event.key locked.expires, acc.2)
    | none => (acc.1.setLock event.key (now + infiniteLock), acc.2 ++ [event])
  else acc

def nextEvent (now : ℕ) (q : Queue) (due : List QueuedMessage) : Queue × List QueuedMessage :=
  due.foldl (visit now) ({ q with lockedRevision := q.lockedRevision + 1 }, [])

/-- One message of the list that `next_event` returns. -/
def Queue.deliver (threads : QueueName → ℕ) (q : Queue) (message : QueuedMessage) : Queue :=
  let name := message.key.2
  let stats := (q.stats name).getD (.new (threads name))
  let q := q.setStats name stats
  if stats.hasCapacity then
    { q.setStats name { stats with inFlight := stats.inFlight + 1 } with started := message.key :: q.started }
  else q.removeLock message.key

def sweep (now : ℕ) (q : Queue) : Queue :=
  { q with locked := fun key => (q.locked key).filter fun l => now < l.expires ∧ l.revision = q.lockedRevision }

/-! ## Events of the channel -/

inductive QueueEventStatus where
  | completed
  | locked (now jitter : ℕ)
  | deferred

inductive QueueEvent where
  | refresh
  | workerDone (key : QueueKey) (status : QueueEventStatus)
  | paused (paused : Bool)
  | reloadSettings (threads : QueueName → Option ℕ)
  | stop

namespace Queue

def handleEvent (q : Queue) : QueueEvent → Queue
  | .refresh => q
  | .workerDone key status =>
    match q.stats key.2 with
    | none => { q with failed := true }
    | some stats =>
      if stats.inFlight = 0 then { q with failed := true }
      else
        let q := { q.setStats key.2 { stats with inFlight := stats.inFlight - 1 } with started := q.started.erase key }
        match status with
        | .completed | .deferred => q.removeLock key
        | .locked now jitter => q.setLock key (now + (lockExpiry + jitter))
  | .paused paused => { q with isPaused := paused }
  | .reloadSettings threads =>
    { q with stats := fun name =>
        match threads name with
        | some n => some ((q.stats name).elim (.new n) fun stats => { stats with maxInFlight := n })
        | none => q.stats name }
  | .stop => { q with isPaused := true }

/-! ## Runs -/

inductive Action where
  | scan (scan : Scan)
  | event (event : QueueEvent)

/-- A worker reports once, and a paused manager does not scan.  The scan takes the messages in any order. -/
def step (q : Queue) : Action → Option Queue
  | .scan scan =>
    let found := nextEvent scan.now q scan.read
    if q.isPaused = false ∧ scan.messages.Perm found.2 then
      some (sweep scan.sweptAt (scan.messages.foldl (deliver scan.threads) found.1))
    else none
  | .event (.workerDone key status) =>
    if key ∈ q.started then some (q.handleEvent (.workerDone key status)) else none
  | .event event => some (q.handleEvent event)

end Queue

/-! ## What a scan reads -/

/-- The lock is missing or has expired, so that a scan takes it over. -/
def Idle (now : ℕ) (locked : Option LockedMessage) : Prop := ∀ l ∈ locked, l.expires ≤ now

/-- The expiry of a lock that the scan stamps. -/
def heldUntil (now : ℕ) : Option LockedMessage → ℕ
  | some l => if l.expires ≤ now then now + infiniteLock else l.expires
  | none => now + infiniteLock

theorem lt_heldUntil (now : ℕ) (locked : Option LockedMessage) : now < heldUntil now locked := by
  have hpos : 0 < infiniteLock := by decide
  cases locked with
  | none => show now < now + infiniteLock; omega
  | some l =>
    show now < if l.expires ≤ now then now + infiniteLock else l.expires
    split_ifs with h <;> omega

theorem heldUntil_of_idle {now : ℕ} {locked : Option LockedMessage} (h : Idle now locked) :
    heldUntil now locked = now + infiniteLock := by
  cases locked with
  | none => rfl
  | some l => rw [heldUntil, if_pos (h l rfl)]

theorem heldUntil_of_lt {now : ℕ} {l : LockedMessage} (h : now < l.expires) : heldUntil now (some l) = l.expires := by
  rw [heldUntil, if_neg (by omega)]

theorem visit_of_capacity {now : ℕ} {acc : Queue × List QueuedMessage} {event : QueuedMessage}
    (h : (acc.1.stats event.key.2).all (·.hasCapacity) = true) :
    (visit now acc event).1 = acc.1.setLock event.key (heldUntil now (acc.1.locked event.key)) ∧
    (Idle now (acc.1.locked event.key) → (visit now acc event).2 = acc.2 ++ [event]) ∧
    (¬ Idle now (acc.1.locked event.key) → (visit now acc event).2 = acc.2) := by
  rw [visit, if_pos h]
  cases hl : acc.1.locked event.key with
  | none => exact ⟨rfl, fun _ => rfl, fun hn => absurd nofun hn⟩
  | some l =>
    by_cases hexp : l.expires ≤ now
    · have hidle : Idle now (some l) := fun _ hl' => Option.some.inj hl' ▸ hexp
      dsimp only [heldUntil]
      rw [if_pos hexp, if_pos hexp]
      exact ⟨rfl, fun _ => rfl, fun hn => absurd hidle hn⟩
    · dsimp only [heldUntil]
      rw [if_neg hexp, if_neg hexp]
      exact ⟨rfl, fun hi => absurd (hi l rfl) hexp, fun _ => rfl⟩

/-- The key has an event on the list, and its queue has capacity. -/
def Reached (q : Queue) (due : List QueuedMessage) (key : QueueKey) : Prop :=
  (q.stats key.2).all (·.hasCapacity) = true ∧ ∃ event ∈ due, event.key = key

theorem reached_concat {q : Queue} {due : List QueuedMessage} {event : QueuedMessage} {key : QueueKey} :
    Reached q (due ++ [event]) key ↔
      Reached q due key ∨ (q.stats key.2).all (·.hasCapacity) = true ∧ event.key = key := by
  simp only [Reached, mem_append, mem_singleton]
  constructor
  · rintro ⟨hcap, e, he | rfl, hkey⟩
    · exact .inl ⟨hcap, e, he, hkey⟩
    · exact .inr ⟨hcap, hkey⟩
  · rintro (⟨hcap, e, he, hkey⟩ | ⟨hcap, hkey⟩)
    · exact ⟨hcap, e, .inl he, hkey⟩
    · exact ⟨hcap, event, .inr rfl, hkey⟩

/-- The locks and the messages after a part of the iteration. -/
structure VisitedTo (now : ℕ) (q : Queue) (due : List QueuedMessage) (acc : Queue × List QueuedMessage) : Prop where
  rest : ∃ locked, acc.1 = { q with locked }
  reached : ∀ key, Reached q due key → acc.1.locked key = some ⟨heldUntil now (q.locked key), q.lockedRevision⟩
  other : ∀ key, ¬ Reached q due key → acc.1.locked key = q.locked key
  messages : ∀ key, (∃ m ∈ acc.2, m.key = key) ↔ Reached q due key ∧ Idle now (q.locked key)
  nodup : (acc.2.map (·.key)).Nodup

theorem visitedTo_foldl (now : ℕ) (q : Queue) (due : List QueuedMessage) :
    VisitedTo now q due (due.foldl (visit now) (q, [])) := by
  induction due using List.reverseRecOn with
  | nil =>
    refine ⟨⟨q.locked, rfl⟩, ?_, fun _ _ => rfl, ?_, nodup_nil⟩
    · rintro key ⟨-, e, he, -⟩
      exact absurd he not_mem_nil
    · intro key
      constructor
      · rintro ⟨m, hm, -⟩
        exact absurd hm not_mem_nil
      · rintro ⟨⟨-, e, he, -⟩, -⟩
        exact absurd he not_mem_nil
  | append_singleton due event ih =>
    rw [foldl_append, foldl_cons, foldl_nil]
    generalize due.foldl (visit now) (q, []) = acc at ih ⊢
    obtain ⟨locked, hrest⟩ := ih.rest
    have hstats : acc.1.stats = q.stats := by rw [hrest]
    have hrev : acc.1.lockedRevision = q.lockedRevision := by rw [hrest]
    by_cases hcap : (q.stats event.key.2).all (·.hasCapacity) = true
    swap
    · -- Nothing of a queue without capacity is reached.
      have hsame : ∀ key, Reached q (due ++ [event]) key ↔ Reached q due key := by
        intro key
        rw [reached_concat]
        refine or_iff_left ?_
        rintro ⟨h, rfl⟩
        exact hcap h
      have hvisit : visit now acc event = acc := by rw [visit, hstats, if_neg hcap]
      rw [hvisit]
      exact ⟨ih.rest, fun key h => ih.reached key ((hsame key).mp h), fun key h => ih.other key (mt (hsame key).mpr h),
        fun key => by rw [hsame]; exact ih.messages key, ih.nodup⟩
    obtain ⟨hfst, hidle, hbusy⟩ := @visit_of_capacity now acc event (hstats ▸ hcap)
    -- A second event of the key finds the lock that the first has stamped.
    have hlock : heldUntil now (acc.1.locked event.key) = heldUntil now (q.locked event.key) := by
      by_cases hr : Reached q due event.key
      · rw [ih.reached _ hr, heldUntil_of_lt (lt_heldUntil ..)]
      · rw [ih.other _ hr]
    have hreached : Reached q (due ++ [event]) event.key := reached_concat.2 (.inr ⟨hcap, rfl⟩)
    have hne : ∀ key, key ≠ event.key → (Reached q (due ++ [event]) key ↔ Reached q due key) := by
      intro key hkey
      rw [reached_concat]
      exact or_iff_left fun h => hkey h.2.symm
    have hpast : Idle now (acc.1.locked event.key) ↔ ¬ Reached q due event.key ∧ Idle now (q.locked event.key) := by
      by_cases hr : Reached q due event.key
      · have hlt := lt_heldUntil now (q.locked event.key)
        rw [ih.reached _ hr]
        exact iff_of_false (fun h => absurd (h _ rfl) (Nat.not_le.mpr hlt)) fun h => h.1 hr
      · rw [ih.other _ hr]
        exact ⟨fun h => ⟨hr, h⟩, And.right⟩
    have hmem : ∀ key, key ≠ event.key → ((∃ m ∈ (visit now acc event).2, m.key = key) ↔ ∃ m ∈ acc.2, m.key = key) := by
      intro key hkey
      by_cases hi : Idle now (acc.1.locked event.key)
      · rw [hidle hi]
        simp only [mem_append, mem_singleton]
        constructor
        · rintro ⟨m, hm | rfl, hm'⟩
          · exact ⟨m, hm, hm'⟩
          · exact absurd hm'.symm hkey
        · rintro ⟨m, hm, hm'⟩
          exact ⟨m, .inl hm, hm'⟩
      · rw [hbusy hi]
    refine ⟨⟨_, by rw [hfst, hrest]; rfl⟩, fun key hr => ?_, fun key hr => ?_, fun key => ?_, ?_⟩
    · rw [hfst, locked_setLock]
      by_cases hkey : key = event.key
      · subst hkey
        rw [update_self, hlock, hrev]
      · rw [update_of_ne hkey]
        exact ih.reached key ((hne key hkey).mp hr)
    · have hkey : key ≠ event.key := fun h => hr (h ▸ hreached)
      rw [hfst, locked_setLock, update_of_ne hkey]
      exact ih.other key (mt (hne key hkey).mpr hr)
    · by_cases hkey : key = event.key
      · subst hkey
        by_cases hi : Idle now (acc.1.locked event.key)
        · rw [hidle hi]
          exact iff_of_true ⟨event, mem_append_right _ (mem_singleton_self _), rfl⟩
            ⟨hreached, (hpast.mp hi).2⟩
        · rw [hbusy hi, ih.messages]
          constructor
          · exact fun h => ⟨hreached, h.2⟩
          · intro h
            by_contra hn
            exact hi (hpast.mpr ⟨fun hr => hn ⟨hr, h.2⟩, h.2⟩)
      · rw [hmem key hkey, ih.messages, hne key hkey]
    · by_cases hi : Idle now (acc.1.locked event.key)
      · rw [hidle hi, map_append]
        refine nodup_append.mpr ⟨ih.nodup, nodup_singleton _, ?_⟩
        rintro key hk _ hk' rfl
        obtain rfl := mem_singleton.mp hk'
        exact (hpast.mp hi).1 ((ih.messages _).mp (mem_map.mp hk)).1
      · rw [hbusy hi]
        exact ih.nodup

/-! ## Workers that a scan starts -/

section

variable {threads : QueueName → ℕ} {q : Queue} {message : QueuedMessage}

theorem deliver_of_capacity (h : ((q.stats message.key.2).getD (.new (threads message.key.2))).hasCapacity = true) :
    Queue.deliver threads q message = { q with
      stats := update q.stats message.key.2
        (some ⟨((q.stats message.key.2).elim 0 QueueStats.inFlight) + 1,
          ((q.stats message.key.2).getD (.new (threads message.key.2))).maxInFlight⟩)
      started := message.key :: q.started } := by
  rw [Queue.deliver, if_pos h, setStats, setStats, update_idem]
  cases q.stats message.key.2 <;> rfl

theorem deliver_of_full (h : ((q.stats message.key.2).getD (.new (threads message.key.2))).hasCapacity = false) :
    Queue.deliver threads q message = { q with
      stats := update q.stats message.key.2 (some ((q.stats message.key.2).getD (.new (threads message.key.2))))
      locked := update q.locked message.key none } := by
  rw [Queue.deliver, if_neg (by rw [h]; decide)]
  rfl

variable (threads q message)

theorem lockedRevision_deliver : (Queue.deliver threads q message).lockedRevision = q.lockedRevision := by
  cases h : ((q.stats message.key.2).getD (.new (threads message.key.2))).hasCapacity with
  | true => rw [deliver_of_capacity h]
  | false => rw [deliver_of_full h]

theorem started_suffix_deliver : q.started <:+ (Queue.deliver threads q message).started := by
  cases h : ((q.stats message.key.2).getD (.new (threads message.key.2))).hasCapacity with
  | true =>
    rw [deliver_of_capacity h]
    exact suffix_cons ..
  | false =>
    simp [deliver_of_full h]

theorem locked_deliver (key : QueueKey) : (Queue.deliver threads q message).locked key = none ∧ message.key = key ∨
    (Queue.deliver threads q message).locked key = q.locked key := by
  cases h : ((q.stats message.key.2).getD (.new (threads message.key.2))).hasCapacity with
  | true =>
    rw [deliver_of_capacity h]
    exact .inr rfl
  | false =>
    rw [deliver_of_full h]
    by_cases hkey : key = message.key
    · subst hkey
      exact .inl ⟨update_self .., rfl⟩
    · exact .inr (update_of_ne hkey ..)

variable {threads q message}

theorem hasCapacity_of_deliver {name : QueueName}
    (h : (((Queue.deliver threads q message).stats name).getD (.new (threads name))).hasCapacity = true) :
    ((q.stats name).getD (.new (threads name))).hasCapacity = true := by
  by_cases hname : name = message.key.2
  · subst hname
    cases hcap : ((q.stats message.key.2).getD (.new (threads message.key.2))).hasCapacity with
    | true => rfl
    | false =>
      rw [deliver_of_full hcap] at h
      dsimp only at h
      rw [update_self, Option.getD_some, hcap] at h
      exact h
  · have hstats : (Queue.deliver threads q message).stats name = q.stats name := by
      cases hcap : ((q.stats message.key.2).getD (.new (threads message.key.2))).hasCapacity with
      | true =>
        rw [deliver_of_capacity hcap]
        exact update_of_ne hname ..
      | false =>
        rw [deliver_of_full hcap]
        exact update_of_ne hname ..
    rw [hstats] at h
    exact h

variable {messages : List QueuedMessage}

variable (threads q messages)

theorem lockedRevision_foldl_deliver : (messages.foldl (Queue.deliver threads) q).lockedRevision = q.lockedRevision := by
  induction messages generalizing q with
  | nil => rfl
  | cons m ms ih => exact (ih _).trans (lockedRevision_deliver ..)

theorem started_suffix_foldl_deliver : q.started <:+ (messages.foldl (Queue.deliver threads) q).started := by
  induction messages generalizing q with
  | nil => exact suffix_rfl
  | cons m ms ih => exact (started_suffix_deliver ..).trans (ih _)

theorem locked_foldl_deliver (key : QueueKey) : (messages.foldl (Queue.deliver threads) q).locked key = none ∨
    (messages.foldl (Queue.deliver threads) q).locked key = q.locked key := by
  induction messages generalizing q with
  | nil => exact .inr rfl
  | cons m ms ih =>
    obtain h | h := ih (q := Queue.deliver threads q m)
    · exact .inl h
    · obtain ⟨hnone, -⟩ | hsame := locked_deliver threads q m key
      · exact .inl (h.trans hnone)
      · exact .inr (h.trans hsame)

variable {threads q messages}

theorem foldl_deliver_of_new (hnodup : (messages.map (·.key)).Nodup) (hnew : ∀ m ∈ messages, m.key ∉ q.started)
    (honce : q.started.Nodup) :
    (messages.foldl (Queue.deliver threads) q).started.Nodup ∧
    ∀ key ∈ (messages.foldl (Queue.deliver threads) q).started,
      (key ∈ q.started ∨ (∃ m ∈ messages, m.key = key) ∧
        ((q.stats key.2).getD (.new (threads key.2))).hasCapacity = true) ∧
      (messages.foldl (Queue.deliver threads) q).locked key = q.locked key := by
  induction messages generalizing q with
  | nil => exact ⟨honce, fun key hkey => ⟨.inl hkey, rfl⟩⟩
  | cons m ms ih =>
    rw [map_cons, nodup_cons] at hnodup
    obtain ⟨hm, hnodup⟩ := hnodup
    have hmnew : m.key ∉ q.started := hnew m mem_cons_self
    rw [foldl_cons]
    cases hcap : ((q.stats m.key.2).getD (.new (threads m.key.2))).hasCapacity with
    | true =>
      have hstarted : (Queue.deliver threads q m).started = m.key :: q.started := by rw [deliver_of_capacity hcap]
      have hlocked : (Queue.deliver threads q m).locked = q.locked := by rw [deliver_of_capacity hcap]
      obtain ⟨h1, h2⟩ := ih (q := Queue.deliver threads q m) hnodup
        (by
          rintro m' hm' hin
          rw [hstarted, mem_cons] at hin
          obtain heq | hin := hin
          · exact hm (heq ▸ mem_map_of_mem hm')
          · exact hnew m' (mem_cons_of_mem _ hm') hin)
        (by rw [hstarted]; exact nodup_cons.mpr ⟨hmnew, honce⟩)
      refine ⟨h1, fun key hkey => ?_⟩
      obtain ⟨hfrom, hlock⟩ := h2 key hkey
      refine ⟨?_, by rw [hlock, hlocked]⟩
      rw [hstarted, mem_cons] at hfrom
      obtain (rfl | hin) | ⟨⟨m', hm', hk⟩, hkcap⟩ := hfrom
      · exact .inr ⟨⟨m, mem_cons_self, rfl⟩, hcap⟩
      · exact .inl hin
      · exact .inr ⟨⟨m', mem_cons_of_mem _ hm', hk⟩, hasCapacity_of_deliver hkcap⟩
    | false =>
      have hstarted : (Queue.deliver threads q m).started = q.started := by rw [deliver_of_full hcap]
      obtain ⟨h1, h2⟩ := ih (q := Queue.deliver threads q m) hnodup
        (by rw [hstarted]; exact fun m' hm' => hnew m' (mem_cons_of_mem _ hm')) (by rw [hstarted]; exact honce)
      refine ⟨h1, fun key hkey => ?_⟩
      obtain ⟨hfrom, hlock⟩ := h2 key hkey
      rw [hstarted] at hfrom
      have hne : m.key ≠ key := by
        rintro rfl
        obtain hin | ⟨⟨m', hm', hk⟩, -⟩ := hfrom
        · exact hmnew hin
        · exact hm (hk ▸ mem_map_of_mem hm')
      refine ⟨hfrom.imp_right fun ⟨⟨m', hm', hk⟩, hkcap⟩ =>
        ⟨⟨m', mem_cons_of_mem _ hm', hk⟩, hasCapacity_of_deliver hkcap⟩, hlock.trans ?_⟩
      exact (locked_deliver threads q m key).resolve_left fun h => hne h.2

theorem foldl_deliver_of_started (hm : message ∈ messages) (hstarted : message.key ∈ q.started) :
    ¬ (messages.foldl (Queue.deliver threads) q).started.Nodup ∨
      (messages.foldl (Queue.deliver threads) q).locked message.key = none := by
  induction messages generalizing q with
  | nil => exact absurd hm not_mem_nil
  | cons m ms ih =>
    obtain rfl | hm := mem_cons.mp hm
    swap
    · exact ih hm ((started_suffix_deliver ..).subset hstarted)
    cases hcap : ((q.stats message.key.2).getD (.new (threads message.key.2))).hasCapacity with
    | true =>
      left
      intro hnodup
      have hsub := (started_suffix_foldl_deliver threads (Queue.deliver threads q message) ms).sublist
      have hcons := hnodup.sublist hsub
      rw [deliver_of_capacity hcap] at hcons
      exact (nodup_cons.mp hcons).1 hstarted
    | false =>
      right
      have hnone : (Queue.deliver threads q message).locked message.key = none := by
        rw [deliver_of_full hcap]
        exact update_self ..
      obtain h | h := locked_foldl_deliver threads (Queue.deliver threads q message) ms message.key
      · exact h
      · exact h.trans hnone

theorem exists_started_foldl_deliver (hm : message ∈ messages)
    (hcap : ((q.stats message.key.2).getD (.new (threads message.key.2))).hasCapacity = true) :
    ∃ m ∈ messages, m.key ∈ (messages.foldl (Queue.deliver threads) q).started := by
  induction messages generalizing q with
  | nil => exact absurd hm not_mem_nil
  | cons m ms ih =>
    rw [foldl_cons]
    cases hm' : ((q.stats m.key.2).getD (.new (threads m.key.2))).hasCapacity with
    | true =>
      refine ⟨m, mem_cons_self, (started_suffix_foldl_deliver ..).subset ?_⟩
      rw [deliver_of_capacity hm']
      exact mem_cons_self
    | false =>
      have hne : message.key.2 ≠ m.key.2 := by
        intro heq
        rw [heq, hm'] at hcap
        exact Bool.false_ne_true hcap
      obtain rfl | hmem := mem_cons.mp hm
      · exact absurd rfl hne
      have hstats : (Queue.deliver threads q m).stats message.key.2 = q.stats message.key.2 := by
        rw [deliver_of_full hm']
        exact update_of_ne hne ..
      obtain ⟨m'', hm'', hin⟩ := ih (q := Queue.deliver threads q m) hmem (by rw [hstats]; exact hcap)
      exact ⟨m'', mem_cons_of_mem _ hm'', hin⟩

end

end MailServer.Smtp
