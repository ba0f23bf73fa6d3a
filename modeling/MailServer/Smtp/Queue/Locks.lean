import Mathlib.Data.List.Count
import MailServer.Smtp.Queue.Manager

/-!
# The locks of the queue manager

What keeps a worker from being started twice is its lock, and what keeps the lock is that every scan comes across the
event of the worker again.  A queue without capacity is not looked at, so that its workers lose their locks.

* `Guarded`: every worker has a lock and is the only one for its key, and the counters count them.
* `Scan.Keeps`: the scans that leave the manager guarded.
* `always_guarded_iff`: the runs that are guarded throughout.
-/

namespace MailServer.Smtp

open Option Function

/-! ## Properties -/

/-- The counter of each virtual queue is the number of its workers, and no step has failed. -/
structure Accounted (q : Queue) : Prop where
  inFlight : ∀ name, (q.stats name).elim 0 QueueStats.inFlight = q.started.countP (·.2 = name)
  sound : q.failed = false

/-- In addition, every worker has a lock, and no key has two of them. -/
structure Guarded (q : Queue) : Prop extends Accounted q where
  locked : ∀ key ∈ q.started, (q.locked key).isSome = true
  once : q.started.Nodup

/-- The scan comes across an event of every worker in a queue that has capacity, while the lock of the worker has not
expired and does not expire before the sweep.  If the scan has a worker to start, it takes less than a year. -/
structure Scan.Keeps (q : Queue) (scan : Scan) : Prop where
  seen : ∀ key ∈ q.started, (q.stats key.2).all (·.hasCapacity) = true ∧ ∃ event ∈ scan.read, event.key = key
  live : ∀ key ∈ q.started, ∀ l ∈ q.locked key, scan.now < l.expires ∧ scan.sweptAt < l.expires
  quick : ∀ event ∈ scan.read, ((q.stats event.key.2).getD (.new (scan.threads event.key.2))).hasCapacity = true →
    (∀ l ∈ q.locked event.key, l.expires ≤ scan.now) → scan.sweptAt < scan.now + infiniteLock

def Queue.Keeps (q : Queue) : Queue.Action → Prop
  | .scan scan => scan.Keeps q
  | .event _ => True

open Queue

section

variable {threads : QueueName → ℕ} {q : Queue} {message : QueuedMessage} {messages : List QueuedMessage}

theorem accounted_deliver (h : Accounted q) : Accounted (Queue.deliver threads q message) := by
  cases hcap : ((q.stats message.key.2).getD (.new (threads message.key.2))).hasCapacity with
  | true =>
    rw [deliver_of_capacity hcap]
    refine ⟨fun name => ?_, h.sound⟩
    dsimp only
    rw [List.countP_cons, ← h.inFlight]
    by_cases hname : name = message.key.2
    · subst hname
      rw [update_self, if_pos (by simp)]
      rfl
    · rw [update_of_ne hname, if_neg (by simpa using Ne.symm hname), Nat.add_zero]
  | false =>
    rw [deliver_of_full hcap]
    refine ⟨fun name => ?_, h.sound⟩
    dsimp only
    rw [← h.inFlight]
    by_cases hname : name = message.key.2
    · subst hname
      rw [update_self]
      cases q.stats message.key.2 <;> rfl
    · rw [update_of_ne hname]

theorem accounted_foldl_deliver (h : Accounted q) : Accounted (messages.foldl (Queue.deliver threads) q) := by
  induction messages generalizing q with
  | nil => exact h
  | cons m ms ih => exact ih (accounted_deliver h)

end

/-! ## Steps -/

theorem mem_locked_sweep {now : ℕ} {q : Queue} {key : QueueKey} {l : LockedMessage} :
    l ∈ (sweep now q).locked key ↔ l ∈ q.locked key ∧ now < l.expires ∧ l.revision = q.lockedRevision := by
  rw [sweep]
  simp [mem_def]

/-- A guarded manager, in which no lock has a stamp of a scan to come. -/
structure Sound (q : Queue) : Prop extends Guarded q where
  revision : ∀ key, ∀ l ∈ q.locked key, l.revision ≤ q.lockedRevision

theorem sound_new : Sound .new :=
  ⟨⟨⟨fun _ => rfl, rfl⟩, nofun, List.nodup_nil⟩, nofun⟩

section

variable {q q' : Queue} {scan : Scan}

theorem step_scan (h : q.step (.scan scan) = some q') : scan.messages.Perm (nextEvent scan.now q scan.read).2 ∧
    q' = sweep scan.sweptAt (scan.messages.foldl (Queue.deliver scan.threads) (nextEvent scan.now q scan.read).1) := by
  simp only [step] at h
  split_ifs at h with hc
  exact ⟨hc.2, (some.inj h).symm⟩

theorem visitedTo_nextEvent (q : Queue) (scan : Scan) :
    VisitedTo scan.now { q with lockedRevision := q.lockedRevision + 1 } scan.read (nextEvent scan.now q scan.read) :=
  visitedTo_foldl ..

theorem accounted_scan (hq : Accounted q) (h : q.step (.scan scan) = some q') : Accounted q' := by
  obtain ⟨-, rfl⟩ := step_scan h
  obtain ⟨locked, hrest⟩ := (visitedTo_nextEvent q scan).rest
  have hfound : Accounted (nextEvent scan.now q scan.read).1 := by
    rw [hrest]
    exact ⟨hq.inFlight, hq.sound⟩
  have hall := @accounted_foldl_deliver scan.threads _ scan.messages hfound
  exact ⟨hall.inFlight, hall.sound⟩

theorem started_found : (nextEvent scan.now q scan.read).1.started = q.started := by
  obtain ⟨locked, hrest⟩ := (visitedTo_nextEvent q scan).rest
  rw [hrest]

theorem stats_found : (nextEvent scan.now q scan.read).1.stats = q.stats := by
  obtain ⟨locked, hrest⟩ := (visitedTo_nextEvent q scan).rest
  rw [hrest]

theorem lockedRevision_found : (nextEvent scan.now q scan.read).1.lockedRevision = q.lockedRevision + 1 := by
  obtain ⟨locked, hrest⟩ := (visitedTo_nextEvent q scan).rest
  rw [hrest]

theorem mem_locked_scan (h : q.step (.scan scan) = some q') {key : QueueKey} {l : LockedMessage} (hl : l ∈ q'.locked key) :
    (nextEvent scan.now q scan.read).1.locked key = some l ∧ scan.sweptAt < l.expires ∧
      l.revision = q.lockedRevision + 1 := by
  obtain ⟨-, rfl⟩ := step_scan h
  obtain ⟨hmem, hexp, hrev⟩ := mem_locked_sweep.1 hl
  rw [lockedRevision_foldl_deliver, lockedRevision_found] at hrev
  refine ⟨?_, hexp, hrev⟩
  obtain hnone | hsame := locked_foldl_deliver scan.threads (nextEvent scan.now q scan.read).1 scan.messages key
  · rw [hnone] at hmem
    cases hmem
  · exact hsame.symm.trans hmem

theorem lockedRevision_scan (h : q.step (.scan scan) = some q') : q'.lockedRevision = q.lockedRevision + 1 := by
  obtain ⟨-, rfl⟩ := step_scan h
  rw [sweep, lockedRevision_foldl_deliver, lockedRevision_found]

theorem mem_messages (h : q.step (.scan scan) = some q') {key : QueueKey} :
    (∃ m ∈ scan.messages, m.key = key) ↔ Reached q scan.read key ∧ Idle scan.now (q.locked key) := by
  simp only [(step_scan h).1.mem_iff]
  exact (visitedTo_nextEvent q scan).messages key

theorem sound_scan (hq : Sound q) (hk : scan.Keeps q) (h : q.step (.scan scan) = some q') : Sound q' := by
  have hv := visitedTo_nextEvent q scan
  have hacc := accounted_scan hq.toAccounted h
  have hmem := fun key => @mem_messages _ _ _ h key
  have hrevision : ∀ key, ∀ l ∈ q'.locked key, l.revision ≤ q'.lockedRevision := by
    intro key l hl
    exact Nat.le_of_eq ((mem_locked_scan h hl).2.2.trans (lockedRevision_scan h).symm)
  obtain ⟨hperm, rfl⟩ := step_scan h
  have hnew : ∀ m ∈ scan.messages, m.key ∉ (nextEvent scan.now q scan.read).1.started := by
    intro m hm hin
    rw [started_found] at hin
    obtain ⟨l, hl⟩ := isSome_iff_exists.mp (hq.locked m.key hin)
    have hidle := ((hmem m.key).mp ⟨m, hm, rfl⟩).2 l hl
    have hlive := (hk.live m.key hin l hl).1
    omega
  obtain ⟨honce, hkeys⟩ := @foldl_deliver_of_new scan.threads _ _ ((hperm.map _).nodup_iff.mpr hv.nodup) hnew
    (by rw [started_found]; exact hq.once)
  refine ⟨⟨hacc, fun key hkey => ?_, honce⟩, hrevision⟩
  obtain ⟨hfrom, hsame⟩ := hkeys key hkey
  rw [started_found, stats_found] at hfrom
  -- The lock as the iteration has stamped it, which has to outlast the sweep.
  have hstamped : ∀ expires, (nextEvent scan.now q scan.read).1.locked key = some ⟨expires, q.lockedRevision + 1⟩ →
      scan.sweptAt < expires → ((sweep scan.sweptAt (scan.messages.foldl (Queue.deliver scan.threads)
        (nextEvent scan.now q scan.read).1)).locked key).isSome = true := by
    intro expires hl hlt
    refine isSome_iff_exists.mpr ⟨_, mem_locked_sweep.2 ⟨hsame.trans hl, hlt, ?_⟩⟩
    rw [lockedRevision_foldl_deliver, lockedRevision_found]
  obtain hin | ⟨hm, hroom⟩ := hfrom
  · obtain ⟨l, hl⟩ := isSome_iff_exists.mp (hq.locked key hin)
    obtain ⟨hnow, hswept⟩ := hk.live key hin l hl
    refine hstamped _ (hv.reached key (hk.seen key hin)) ?_
    rw [hl, heldUntil_of_lt hnow]
    exact hswept
  · obtain ⟨⟨hcap, hev⟩, hidle⟩ := (hmem key).mp hm
    refine hstamped _ (hv.reached key ⟨hcap, hev⟩) ?_
    rw [heldUntil_of_idle hidle]
    obtain ⟨event, hread, rfl⟩ := hev
    exact hk.quick event hread hroom hidle

theorem keeps_of_guarded (hq : Sound q) (h : q.step (.scan scan) = some q') (hq' : Guarded q') : scan.Keeps q := by
  have hv := visitedTo_nextEvent q scan
  have hstarted : ∀ key ∈ q.started, key ∈ q'.started := by
    intro key hkey
    obtain ⟨-, rfl⟩ := step_scan h
    exact (started_suffix_foldl_deliver ..).subset (by rw [started_found]; exact hkey)
  have hlocked : ∀ key ∈ q'.started, ∃ l, (nextEvent scan.now q scan.read).1.locked key = some l ∧
      scan.sweptAt < l.expires ∧ l.revision = q.lockedRevision + 1 := by
    intro key hkey
    obtain ⟨l, hl⟩ := isSome_iff_exists.mp (hq'.locked key hkey)
    exact ⟨l, mem_locked_scan h hl⟩
  have hseen : ∀ key ∈ q.started, Reached q scan.read key := by
    intro key hkey
    by_contra hn
    obtain ⟨l, hl, -, hrev⟩ := hlocked key (hstarted key hkey)
    have hold := hq.revision key l ((hv.other key hn).symm.trans hl)
    omega
  have hnow : ∀ key ∈ q.started, ∀ l ∈ q.locked key, scan.now < l.expires := by
    intro key hkey l hl
    by_contra hn
    have hidle : Idle scan.now (q.locked key) := by
      intro l' hl'
      obtain rfl := some.inj (hl.symm.trans hl')
      omega
    obtain ⟨m, hm, rfl⟩ := (mem_messages h).mpr ⟨hseen key hkey, hidle⟩
    have hloss := @foldl_deliver_of_started scan.threads (nextEvent scan.now q scan.read).1 m _ hm
      (by rw [started_found]; exact hkey)
    obtain ⟨l', hl'⟩ := isSome_iff_exists.mp (hq'.locked _ (hstarted _ hkey))
    obtain ⟨-, rfl⟩ := step_scan h
    obtain htwice | hnone := hloss
    · exact htwice hq'.once
    · rw [(mem_locked_sweep.1 hl').1] at hnone
      cases hnone
  refine ⟨fun key hkey => hseen key hkey, fun key hkey l hl => ⟨hnow key hkey l hl, ?_⟩, fun event hread hroom hidle => ?_⟩
  · obtain ⟨l', hl', hlt, -⟩ := hlocked key (hstarted key hkey)
    rw [hv.reached key (hseen key hkey)] at hl'
    obtain rfl := some.inj hl'
    rwa [hl, heldUntil_of_lt (hnow key hkey l hl)] at hlt
  · have hcap : (q.stats event.key.2).all (·.hasCapacity) = true := by
      cases hs : q.stats event.key.2 with
      | none => rfl
      | some stats =>
        rw [hs] at hroom
        exact hroom
    obtain ⟨m, hm, hkey⟩ := (mem_messages h).mpr ⟨⟨hcap, event, hread, rfl⟩, hidle⟩
    obtain ⟨m', hm', hin⟩ := @exists_started_foldl_deliver scan.threads (nextEvent scan.now q scan.read).1 m _ hm
      (by rw [stats_found, hkey]; exact hroom)
    obtain ⟨hreached, hidle'⟩ := (mem_messages h).mp ⟨m', hm', rfl⟩
    obtain ⟨l', hl', hlt, -⟩ := hlocked m'.key (by obtain ⟨-, rfl⟩ := step_scan h; exact hin)
    rw [hv.reached m'.key hreached] at hl'
    obtain rfl := some.inj hl'
    rwa [heldUntil_of_idle hidle'] at hlt

end

section

variable {q : Queue} {key : QueueKey} {status : QueueEventStatus}

theorem exists_stats_of_started (h : Accounted q) (hkey : key ∈ q.started) :
    ∃ stats, q.stats key.2 = some stats ∧ 0 < stats.inFlight := by
  have hpos : 0 < q.started.countP (·.2 = key.2) := List.countP_pos_iff.mpr ⟨key, hkey, decide_eq_true rfl⟩
  rw [← h.inFlight] at hpos
  cases hs : q.stats key.2 with
  | none =>
    rw [hs] at hpos
    exact absurd hpos (Nat.lt_irrefl 0)
  | some stats =>
    rw [hs] at hpos
    exact ⟨stats, rfl, hpos⟩

theorem handleEvent_workerDone (h : Accounted q) (hkey : key ∈ q.started) : ∃ lock : Option ℕ,
    (∃ stats, q.stats key.2 = some stats ∧ 0 < stats.inFlight ∧
      (q.handleEvent (.workerDone key status)).stats =
        update q.stats key.2 (some { stats with inFlight := stats.inFlight - 1 })) ∧
    (q.handleEvent (.workerDone key status)).started = q.started.erase key ∧
    (q.handleEvent (.workerDone key status)).failed = q.failed ∧
    (q.handleEvent (.workerDone key status)).lockedRevision = q.lockedRevision ∧
    (q.handleEvent (.workerDone key status)).locked =
      update q.locked key (lock.map fun expires => ⟨expires, q.lockedRevision⟩) := by
  obtain ⟨stats, hs, hpos⟩ := exists_stats_of_started h hkey
  rw [handleEvent, hs]
  dsimp only
  rw [if_neg (by omega)]
  cases status with
  | completed => exact ⟨none, ⟨stats, rfl, hpos, rfl⟩, rfl, rfl, rfl, rfl⟩
  | deferred => exact ⟨none, ⟨stats, rfl, hpos, rfl⟩, rfl, rfl, rfl, rfl⟩
  | locked now jitter => exact ⟨some (now + (lockExpiry + jitter)), ⟨stats, rfl, hpos, rfl⟩, rfl, rfl, rfl, rfl⟩

theorem accounted_workerDone (h : Accounted q) (hkey : key ∈ q.started) :
    Accounted (q.handleEvent (.workerDone key status)) := by
  obtain ⟨-, ⟨stats, hs, hpos, hstats⟩, hstarted, hfailed, -, -⟩ := @handleEvent_workerDone _ _ status h hkey
  refine ⟨fun name => ?_, hfailed.trans h.sound⟩
  have hcount := h.inFlight name
  rw [hstats, hstarted, List.countP_erase]
  by_cases hname : name = key.2
  · subst hname
    rw [hs] at hcount
    rw [update_self, if_pos ⟨hkey, decide_eq_true rfl⟩, ← hcount]
    rfl
  · rw [update_of_ne hname, if_neg fun hc => hname (of_decide_eq_true hc.2).symm]
    exact hcount

end

theorem accounted_step (q : Queue) (action : Queue.Action) (q' : Queue) (hq : Accounted q)
    (h : q.step action = some q') : Accounted q' := by
  cases action with
  | scan scan => exact accounted_scan hq h
  | event event =>
    cases event with
    | workerDone key status =>
      simp only [step] at h
      split_ifs at h with hkey
      obtain rfl := some.inj h
      exact accounted_workerDone hq hkey
    | reloadSettings threads =>
      obtain rfl := some.inj h
      refine ⟨fun name => ?_, hq.sound⟩
      have hcount := hq.inFlight name
      dsimp only [handleEvent]
      cases threads name with
      | none => exact hcount
      | some n => cases hs : q.stats name with
        | none => rwa [hs] at hcount
        | some stats => rwa [hs] at hcount
    | refresh | paused _ | stop =>
      obtain rfl := some.inj h
      exact ⟨hq.inFlight, hq.sound⟩

theorem sound_event {q q' : Queue} {event : QueueEvent} (hq : Sound q) (h : q.step (.event event) = some q') :
    Sound q' := by
  have hacc := accounted_step q _ q' hq.toAccounted h
  cases event with
  | workerDone key status =>
    simp only [step] at h
    split_ifs at h with hkey
    obtain rfl := some.inj h
    obtain ⟨lock, -, hstarted, -, hrev, hlocked⟩ := @handleEvent_workerDone _ _ status hq.toAccounted hkey
    refine ⟨⟨hacc, fun k hk => ?_, by rw [hstarted]; exact hq.once.erase key⟩, fun k l hl => ?_⟩
    · rw [hstarted, hq.once.mem_erase_iff] at hk
      rw [hlocked, update_of_ne hk.1]
      exact hq.locked k hk.2
    · rw [hrev]
      rw [hlocked] at hl
      by_cases hk : k = key
      · subst hk
        rw [update_self] at hl
        obtain ⟨expires, -, rfl⟩ := map_eq_some_iff.mp hl
        exact Nat.le_refl _
      · rw [update_of_ne hk] at hl
        exact hq.revision k l hl
  | refresh | paused _ | reloadSettings _ | stop =>
    obtain rfl := some.inj h
    exact ⟨⟨hacc, hq.locked, hq.once⟩, hq.revision⟩

/-! ## Runs -/

/-- The workers of a run have their locks, and no key has two workers, exactly as long as every scan keeps the locks. -/
theorem always_guarded_iff (actions : List Queue.Action) :
    Lib.Run.Always step Guarded .new actions ↔ Lib.Run.Each step Queue.Keeps .new actions := by
  refine Lib.Run.always_iff_each (I := Sound) (fun _ hq => hq.toGuarded) ?_ ?_ sound_new
  · intro q action q' hq hk h
    cases action with
    | scan scan => exact sound_scan hq hk h
    | event event => exact sound_event hq h
  · intro q action q' hq hk h hq'
    cases action with
    | scan scan => exact hk (keeps_of_guarded hq h hq')
    | event event => exact hk trivial

/-- A queue of one thread: the second scan does not reach the event of the worker that the first has started.  With a
second thread the third scan starts another worker for it. -/
def overbooked : List Queue.Action :=
  let event : QueuedMessage := ⟨5, (7, "remote")⟩
  [.scan ⟨10, [event], [event], fun _ => 1, 11⟩, .event .refresh, .scan ⟨20, [event], [], fun _ => 1, 21⟩,
    .event (.reloadSettings fun _ => some 2), .scan ⟨30, [event], [event], fun _ => 2, 31⟩]

theorem not_always_guarded : ¬ Lib.Run.Always step Guarded .new overbooked := by
  have hrun : (Lib.Run.run step .new overbooked).map started = some [(7, "remote"), (7, "remote")] := by
    decide
  intro h
  obtain ⟨q, hq, hstarted⟩ := map_eq_some_iff.mp hrun
  have honce := (h.last hq).once
  rw [hstarted] at honce
  exact absurd honce (by decide)

end MailServer.Smtp
