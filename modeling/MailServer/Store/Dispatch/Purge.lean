import MailServer.Store.Dispatch.Lock
import MailServer.Utils.HashMap

/-!
# Purging the in-memory store (`store/src/dispatch/lookup.rs`)

Keys, locks and counters are kept with the time at which they expire.  A purge reads them all and then deletes those
that it has found expired, in batches; in between other callers write.

* `Memory`: the keys and the counters.  `scan`, `deletions`: what a purge finds, and the batches that delete it.
* `World.step`: one step of a caller or of the purge, or an advance of the clock.
* `Harmless`: a batch deletes nothing that has not expired.
* `harmless_run`: the runs whose purges are harmless.
-/

namespace MailServer.Store.Dispatch.InMemory

open MailServer.Lib MailServer.Utils MailServer.Store.Write List Option

/-! ## Values -/

/-- `deserialize_be_u64`. -/
def deserializeBeU64 (bytes : List UInt8) (index : ℕ) : Option UInt64 :=
  if index + U64_LEN ≤ bytes.length then some (UInt64.ofNat (ofBeBytes ((bytes.drop index).take U64_LEN))) else none

/-- When a value expires: that of a counter comes after a zero. -/
def expiry (value : List UInt8) : Option UInt64 :=
  (deserializeBeU64 value 0).bind fun expiry => if expiry = 0 then deserializeBeU64 value U64_LEN else some expiry

def Expired (value : List UInt8) (now : UInt64) : Prop := ∃ e, expiry value = some e ∧ e ≤ now

/-- The value says when a counter expires. -/
def IsMarker (value : List UInt8) : Prop := deserializeBeU64 value 0 = some 0

/-- The in-memory store, kept in a key-value store. -/
structure Memory where
  keys : HashMap (List UInt8) (List UInt8)
  counters : HashMap (List UInt8) Int64

namespace Memory

/-- One operation of a write. -/
def apply (xxh3 : List UInt8 → UInt64) (m : Memory) : Operation → Option Memory
  | .assertValue (.inMemory (.key key)) assertion => if assertion.holds xxh3 m.keys[key]? then some m else none
  | .value (.inMemory (.key key)) (.set value) => some { m with keys := m.keys.insert key value }
  | .value (.inMemory (.key key)) .clear => some { m with keys := m.keys.erase key }
  | .value (.inMemory (.counter key)) (.atomicAdd value) | .value (.inMemory (.counter key)) (.addAndGet value) =>
    some { m with counters := m.counters.insert key (m.counters[key]?.getD 0 + value) }
  | .value (.inMemory (.counter key)) .clear => some { m with counters := m.counters.erase key }
  | _ => some m

/-- A write, of all its operations or of none. -/
def write (xxh3 : List UInt8 → UInt64) (m : Memory) (ops : List Operation) : Option Memory := ops.foldlM (apply xxh3) m

end Memory

/-! ## Purging -/

structure Found where
  expiredKeys : List (List UInt8)
  expiredCounters : List (List UInt8)

/-- The body of the iteration over the keys. -/
def Found.visit (currentTime : UInt64) (f : Found) (e : List UInt8 × List UInt8) : Option Found :=
  (deserializeBeU64 e.2 0).bind fun expiry =>
    if expiry = 0 then
      (deserializeBeU64 e.2 U64_LEN).map fun expiry =>
        if expiry ≤ currentTime then { f with expiredCounters := f.expiredCounters ++ [e.1] } else f
    else some (if expiry ≤ currentTime then { f with expiredKeys := f.expiredKeys ++ [e.1] } else f)

/-- The keys between those of the iteration. -/
def inRange (key : List UInt8) : Bool := ¬ key < [0] ∧ ¬ List.replicate 10 255 < key

/-- What has expired; nothing where a value is corrupt. -/
def scan (currentTime : UInt64) (m : Memory) : Option Found :=
  (m.keys.toList.filter fun e => inRange e.1).foldlM (Found.visit currentTime) ⟨[], []⟩

/-- The batches for some keys, a new one after each that is large. -/
def inBatches (add : BatchBuilder → List UInt8 → BatchBuilder) : BatchBuilder → List (List UInt8) → List (List Operation)
  | batch, [] => if batch.ops.isEmpty then [] else [batch.ops]
  | batch, key :: keys =>
    if (add batch key).isLargeBatch then (add batch key).ops :: inBatches add .new keys
    else inBatches add (add batch key) keys

def clearKey (batch : BatchBuilder) (key : List UInt8) : BatchBuilder := batch.anyOp (.inMemory (.key key)) .clear

def clearCounter (batch : BatchBuilder) (key : List UInt8) : BatchBuilder :=
  clearKey (batch.anyOp (.inMemory (.counter key)) .clear) key

def deletions (f : Found) : List (List Operation) :=
  inBatches clearKey .new f.expiredKeys ++ inBatches clearCounter .new f.expiredCounters

/-- How far `purge_in_memory_store` is. -/
inductive Purge where
  | idle
  /-- it knows the time -/
  | scanning (currentTime : UInt64)
  /-- it has batches to write -/
  | deleting (batches : List (List Operation))

/-! ## Callers -/

/-- Where a caller is in `key_set`, `counter_incr` or `try_lock`. -/
inductive Caller where
  | idle
  /-- it has a batch to write -/
  | writing (ops : List Operation)
  /-- `try_lock` is called, -/
  | reading (key : List UInt8) (duration : UInt64)
  /-- the value is corrupt, -/
  | clearing (key : List UInt8) (duration : UInt64)
  /-- or `lock_expiry` is known -/
  | checking (key : List UInt8) (duration : UInt64) (lockExpiry : Option UInt64)

def keySet (now : UInt64) (key value : List UInt8) (expires : Option UInt64) : List Operation :=
  (BatchBuilder.new.anyOp (.inMemory (.key key)) (.set (be64 ((expires.map (now + ·)).getD (-1)) ++ value))).ops

def counterIncr (now : UInt64) (key : List UInt8) (value : Int64) (expires : Option UInt64) (returnValue : Bool) :
    List Operation :=
  let batch := match expires with
    | some expires => BatchBuilder.new.anyOp (.inMemory (.key key)) (.set (be64 0 ++ be64 (now + expires)))
    | none => .new
  (batch.anyOp (.inMemory (.counter key)) (if returnValue then .addAndGet value else .atomicAdd value)).ops

/-- The write of `try_lock`. -/
def lock (now : UInt64) (key : List UInt8) (duration : UInt64) (lockExpiry : Option UInt64) : List Operation :=
  ((BatchBuilder.new.assertValue (.inMemory (.key key)) (lockAssertion lockExpiry)).set (.inMemory (.key key))
    (be64 (now + duration))).ops

structure World (C : Type*) where
  clock : UInt64
  memory : Memory
  callers : C → Caller
  purge : Purge

inductive Action (C : Type*) where
  | advance (now : UInt64)
  | keySet (c : C) (key value : List UInt8) (expires : Option UInt64)
  | counterIncr (c : C) (key : List UInt8) (value : Int64) (expires : Option UInt64) (returnValue : Bool)
  | tryLock (c : C) (key : List UInt8) (duration : UInt64)
  /-- A caller takes its next step. -/
  | next (c : C)
  /-- The purge does. -/
  | purge

namespace World

variable {C : Type*} [DecidableEq C] (xxh3 : List UInt8 → UInt64)

def setCaller (w : World C) (c : C) (caller : Caller) : World C :=
  { w with callers := Function.update w.callers c caller }

/-- A caller begins. -/
def call (w : World C) (c : C) (caller : Caller) : Option (World C) :=
  match w.callers c with
  | .idle => some (w.setCaller c caller)
  | _ => none

def next (w : World C) (c : C) : Option (World C) :=
  match w.callers c with
  | .idle => none
  | .writing ops => some ({ w with memory := (w.memory.write xxh3 ops).getD w.memory }.setCaller c .idle)
  | .reading key duration =>
    some (w.setCaller c (match w.memory.keys[key]? with
      | none => .checking key duration none
      | some bytes =>
        match deserializeU64 bytes with
        | some lockExpiry => .checking key duration (some lockExpiry)
        | none => .clearing key duration))
  | .clearing key duration =>
    some ({ w with memory := { w.memory with keys := w.memory.keys.erase key } }.setCaller c (.checking key duration none))
  | .checking key duration lockExpiry =>
    if lockExpiry.any (fun expiry => expiry > w.clock) then some (w.setCaller c .idle)
    else some (w.setCaller c (.writing (lock w.clock key duration lockExpiry)))

/-- The purge reads the clock, scans, or writes a batch. -/
def purgeNext (w : World C) : World C :=
  match w.purge with
  | .idle => { w with purge := .scanning w.clock }
  | .scanning currentTime =>
    match scan currentTime w.memory with
    | some found => { w with purge := .deleting (deletions found) }
    | none => { w with purge := .idle }
  | .deleting [] => { w with purge := .idle }
  | .deleting (batch :: batches) =>
    { w with memory := (w.memory.write xxh3 batch).getD w.memory, purge := .deleting batches }

def step (w : World C) : Action C → Option (World C)
  | .advance now => if w.clock ≤ now then some { w with clock := now } else none
  | .keySet c key value expires => w.call c (.writing (InMemory.keySet w.clock key value expires))
  | .counterIncr c key value expires returnValue =>
    w.call c (.writing (InMemory.counterIncr w.clock key value expires returnValue))
  | .tryLock c key duration => w.call c (.reading key duration)
  | .next c => w.next xxh3 c
  | .purge => some (w.purgeNext xxh3)

end World

/-! ## What a scan finds -/

def isExpiredKey (now : UInt64) (e : List UInt8 × List UInt8) : Bool :=
  (deserializeBeU64 e.2 0).any fun expiry => expiry ≠ 0 && expiry ≤ now

def isExpiredCounter (now : UInt64) (e : List UInt8 × List UInt8) : Bool :=
  ((deserializeBeU64 e.2 0).any fun expiry => expiry = 0) && (deserializeBeU64 e.2 U64_LEN).any fun expiry => expiry ≤ now

theorem visit_eq {now : UInt64} {f f' : Found} {e : List UInt8 × List UInt8} (h : f.visit now e = some f') :
    f' = ⟨f.expiredKeys ++ (if isExpiredKey now e then [e.1] else []),
      f.expiredCounters ++ (if isExpiredCounter now e then [e.1] else [])⟩ := by
  obtain ⟨x, hx, h⟩ := bind_eq_some_iff.mp h
  unfold isExpiredKey isExpiredCounter
  rw [hx]
  by_cases hzero : x = 0
  · rw [if_pos hzero] at h
    obtain ⟨y, hy, rfl⟩ := map_eq_some_iff.mp h
    rw [hy]
    by_cases hle : y ≤ now <;> simp [hzero, hle]
  · rw [if_neg hzero] at h
    obtain rfl := some.inj h
    by_cases hle : x ≤ now <;> simp [hzero, hle]

theorem foldlM_visit {now : UInt64} {l : List (List UInt8 × List UInt8)} : ∀ {f f' : Found},
    l.foldlM (Found.visit now) f = some f' →
      f' = ⟨f.expiredKeys ++ (l.filter (isExpiredKey now)).map Prod.fst,
        f.expiredCounters ++ (l.filter (isExpiredCounter now)).map Prod.fst⟩ := by
  induction l with
  | nil =>
    intro f f' h
    obtain rfl := some.inj h
    simp
  | cons e l ih =>
    intro f f' h
    obtain ⟨f'', hvisit, hrest⟩ := bind_eq_some_iff.mp h
    obtain rfl := visit_eq hvisit
    obtain rfl := ih hrest
    rw [filter_cons, filter_cons]
    split_ifs <;> simp

/-- What is found was in the store, and expired, and nothing is found twice. -/
structure Found.Right (now : UInt64) (m : Memory) (f : Found) : Prop where
  nodup : (f.expiredKeys ++ f.expiredCounters).Nodup
  keys : ∀ k ∈ f.expiredKeys, ∃ v, m.keys[k]? = some v ∧ Expired v now
  counters : ∀ k ∈ f.expiredCounters, ∃ v, m.keys[k]? = some v ∧ Expired v now ∧ IsMarker v

theorem scan_right {now : UInt64} {m : Memory} {f : Found} (h : scan now m = some f) : f.Right now m := by
  obtain rfl := foldlM_visit h
  have hkeys : ((m.keys.toList.filter fun e => inRange e.1).map Prod.fst).Nodup :=
    (HashMap.nodup_map_fst_toList m.keys).sublist (filter_sublist.map _)
  have hmem {p : List UInt8 × List UInt8 → Bool} {k : List UInt8}
      (hk : k ∈ ((m.keys.toList.filter fun e => inRange e.1).filter p).map Prod.fst) :
      ∃ v, m.keys[k]? = some v ∧ p (k, v) = true := by
    obtain ⟨⟨k, v⟩, he, rfl⟩ := List.mem_map.mp hk
    obtain ⟨he, hp⟩ := mem_filter.mp he
    exact ⟨v, HashMap.mem_toList.mp (mem_filter.mp he).1, hp⟩
  have hexpired {v k : List UInt8} (hv : isExpiredKey now (k, v) = true) :
      ∃ x, deserializeBeU64 v 0 = some x ∧ x ≠ 0 ∧ x ≤ now := by
    obtain ⟨x, hx, hle⟩ := Option.any_eq_true _ _ |>.mp hv
    exact ⟨x, hx, by simpa using hle⟩
  have hmarker {v k : List UInt8} (hv : isExpiredCounter now (k, v) = true) :
      deserializeBeU64 v 0 = some 0 ∧ ∃ y, deserializeBeU64 v U64_LEN = some y ∧ y ≤ now := by
    obtain ⟨hzero, hle⟩ := Bool.and_eq_true_iff.mp hv
    obtain ⟨x, hx, hzero⟩ := Option.any_eq_true _ _ |>.mp hzero
    obtain ⟨y, hy, hle⟩ := Option.any_eq_true _ _ |>.mp hle
    obtain rfl := of_decide_eq_true hzero
    exact ⟨hx, y, hy, of_decide_eq_true hle⟩
  refine ⟨?_, fun k hk => ?_, fun k hk => ?_⟩
  · rw [nodup_append]
    refine ⟨hkeys.sublist (filter_sublist.map _), hkeys.sublist (filter_sublist.map _), ?_⟩
    rintro k hk k' hk' rfl
    obtain ⟨v, hv, hkey⟩ := hmem hk
    obtain ⟨v', hv', hcounter⟩ := hmem hk'
    obtain rfl := some.inj (hv.symm.trans hv')
    obtain ⟨x, hx, hne, -⟩ := hexpired hkey
    exact hne (some.inj (hx.symm.trans (hmarker hcounter).1))
  · obtain ⟨v, hv, hkey⟩ := hmem hk
    obtain ⟨x, hx, hne, hle⟩ := hexpired hkey
    exact ⟨v, hv, x, by rw [expiry, hx, bind_some, if_neg hne], hle⟩
  · obtain ⟨v, hv, hcounter⟩ := hmem hk
    obtain ⟨hzero, y, hy, hle⟩ := hmarker hcounter
    exact ⟨v, hv, ⟨y, by rw [expiry, hzero, bind_some, if_pos rfl, hy], hle⟩, hzero⟩

/-! ## The batches -/

def keyOps (key : List UInt8) : List Operation := [.value (.inMemory (.key key)) .clear]

def counterOps (key : List UInt8) : List Operation :=
  [.value (.inMemory (.counter key)) .clear, .value (.inMemory (.key key)) .clear]

theorem inBatches_eq {add : BatchBuilder → List UInt8 → BatchBuilder} {opsOf : List UInt8 → List Operation}
    (hadd : ∀ b k, (add b k).ops = b.ops ++ opsOf k) (hne : ∀ k, opsOf k ≠ []) {keys : List (List UInt8)} :
    ∀ {batch : BatchBuilder} {first : List (List UInt8)}, batch.ops = first.flatMap opsOf →
      ∃ groups : List (List (List UInt8)), inBatches add batch keys = groups.map (List.flatMap opsOf) ∧
        groups.flatten = first ++ keys := by
  induction keys with
  | nil =>
    intro batch first hfirst
    unfold inBatches
    split_ifs with hempty
    · have hnil : first = [] := by
        cases first with
        | nil => rfl
        | cons k first =>
          rw [hfirst, List.isEmpty_iff] at hempty
          exact absurd (append_eq_nil_iff.mp hempty).1 (hne k)
      exact ⟨[], rfl, by rw [hnil]; rfl⟩
    · exact ⟨[first], by rw [hfirst]; rfl, by simp⟩
  | cons key keys ih =>
    intro batch first hfirst
    have hnext : (add batch key).ops = (first ++ [key]).flatMap opsOf := by
      rw [hadd, hfirst, flatMap_append, flatMap_singleton]
    unfold inBatches
    split_ifs
    · obtain ⟨groups, hgroups, hflat⟩ : ∃ groups : List (List (List UInt8)),
          inBatches add .new keys = groups.map (List.flatMap opsOf) ∧ groups.flatten = [] ++ keys := ih rfl
      exact ⟨(first ++ [key]) :: groups, by rw [map_cons, hgroups, hnext], by simp [hflat]⟩
    · obtain ⟨groups, hgroups, hflat⟩ := ih hnext
      exact ⟨groups, hgroups, by simp [hflat]⟩

/-- What batches delete, as groups of keys and groups of counters. -/
structure Groups where
  keys : List (List (List UInt8))
  counters : List (List (List UInt8))

def Groups.batches (g : Groups) : List (List Operation) :=
  g.keys.map (List.flatMap keyOps) ++ g.counters.map (List.flatMap counterOps)

theorem deletions_eq (f : Found) : ∃ g : Groups, deletions f = g.batches ∧ g.keys.flatten = f.expiredKeys ∧
    g.counters.flatten = f.expiredCounters := by
  have hkey (b : BatchBuilder) (k : List UInt8) : (clearKey b k).ops = b.ops ++ keyOps k := rfl
  have hcounter (b : BatchBuilder) (k : List UInt8) : (clearCounter b k).ops = b.ops ++ counterOps k := by
    show (b.ops ++ [_]) ++ [_] = _
    rw [append_assoc]
    rfl
  obtain ⟨keys, hkeys, hflat⟩ : ∃ groups : List (List (List UInt8)),
      inBatches clearKey .new f.expiredKeys = groups.map (List.flatMap keyOps) ∧ groups.flatten = [] ++ f.expiredKeys :=
    inBatches_eq hkey (fun k => cons_ne_nil _ _) rfl
  obtain ⟨counters, hcounters, hflat'⟩ : ∃ groups : List (List (List UInt8)),
      inBatches clearCounter .new f.expiredCounters = groups.map (List.flatMap counterOps) ∧
        groups.flatten = [] ++ f.expiredCounters :=
    inBatches_eq hcounter (fun k => cons_ne_nil _ _) rfl
  exact ⟨⟨keys, counters⟩, by rw [deletions, hkeys, hcounters]; rfl, hflat, hflat'⟩

/-! ## Writing a batch -/

namespace Memory

variable (xxh3 : List UInt8 → UInt64)

theorem write_keyOps (m : Memory) (ks : List (List UInt8)) : ∃ m', m.write xxh3 (ks.flatMap keyOps) = some m' ∧
    m'.counters = m.counters ∧ ∀ k, m'.keys[k]? = if k ∈ ks then none else m.keys[k]? := by
  induction ks generalizing m with
  | nil => exact ⟨m, rfl, rfl, fun k => by simp⟩
  | cons key ks ih =>
    obtain ⟨m', hm', hcounters, hkeys⟩ := ih { m with keys := m.keys.erase key }
    refine ⟨m', ?_, hcounters, fun k => ?_⟩
    · exact hm'
    · rw [hkeys, HashMap.getElem?_erase]
      by_cases hk : k = key
      · simp [hk]
      · simp [hk, Ne.symm hk]

theorem write_counterOps (m : Memory) (ks : List (List UInt8)) : ∃ m', m.write xxh3 (ks.flatMap counterOps) = some m' ∧
    (∀ k, m'.counters[k]? = if k ∈ ks then none else m.counters[k]?) ∧
      ∀ k, m'.keys[k]? = if k ∈ ks then none else m.keys[k]? := by
  induction ks generalizing m with
  | nil => exact ⟨m, rfl, fun k => by simp, fun k => by simp⟩
  | cons key ks ih =>
    obtain ⟨m', hm', hcounters, hkeys⟩ := ih ⟨m.keys.erase key, m.counters.erase key⟩
    refine ⟨m', ?_, fun k => ?_, fun k => ?_⟩
    · exact hm'
    · rw [hcounters, HashMap.getElem?_erase]
      by_cases hk : k = key
      · simp [hk]
      · simp [hk, Ne.symm hk]
    · rw [hkeys, HashMap.getElem?_erase]
      by_cases hk : k = key
      · simp [hk]
      · simp [hk, Ne.symm hk]

end Memory

/-! ## Runs -/

section

variable {C : Type*} [DecidableEq C] (xxh3 : List UInt8 → UInt64)

/-- The key that an operation takes away. -/
def clearedKey : Operation → Option (List UInt8)
  | .value (.inMemory (.key key)) .clear => some key
  | _ => none

/-- The keys that a purge has found and not deleted yet. -/
def World.pending (w : World C) : List (List UInt8) :=
  match w.purge with
  | .deleting batches => batches.flatten.filterMap clearedKey
  | _ => []

/-- A caller leaves alone what a purge has found. -/
def Keeps (w : World C) : Action C → Prop
  | .next c => ∀ w', w.next xxh3 c = some w' → ∀ k ∈ w.pending, w'.memory.keys[k]? = w.memory.keys[k]?
  | _ => True

/-- What one memory has and the next has not is expired: a key or a lock, or a counter with its marker. -/
structure Memory.Loses (now : UInt64) (m m' : Memory) : Prop where
  keys : ∀ (k : List UInt8) v, m.keys[k]? = some v → m'.keys[k]? = none → Expired v now
  counters : ∀ (k : List UInt8) n, m.counters[k]? = some n → m'.counters[k]? = none →
    m'.keys[k]? = none ∧ ∃ v, m.keys[k]? = some v ∧ Expired v now ∧ IsMarker v

/-- A purge deletes only what has expired. -/
def Harmless (w : World C) : Action C → Prop
  | .purge => w.memory.Loses w.clock (w.purgeNext xxh3).memory
  | _ => True

/-- No purge is under way. -/
def World.Initial (w : World C) : Prop := w.purge = .idle

/-- What a purge is going to delete is in the store and has expired. -/
structure Sound (now : UInt64) (m : Memory) (g : Groups) : Prop where
  nodup : (g.keys.flatten ++ g.counters.flatten).Nodup
  keys : ∀ k ∈ g.keys.flatten, ∃ v, m.keys[k]? = some v ∧ Expired v now
  counters : ∀ k ∈ g.counters.flatten, ∃ v, m.keys[k]? = some v ∧ Expired v now ∧ IsMarker v

/-- The purge of a world is sound. -/
def Inv (w : World C) : Prop :=
  match w.purge with
  | .idle => True
  | .scanning currentTime => currentTime ≤ w.clock
  | .deleting batches => ∃ g : Groups, batches = g.batches ∧ Sound w.clock w.memory g

variable {xxh3} {w w' : World C}

omit [DecidableEq C] in
theorem Expired.mono {v : List UInt8} {now now' : UInt64} (h : Expired v now) (hle : now ≤ now') : Expired v now' := by
  obtain ⟨e, he, hnow⟩ := h
  exact ⟨e, he, UInt64.le_trans hnow hle⟩

theorem Sound.mono {now now' : UInt64} {m : Memory} {g : Groups} (h : Sound now m g) (hle : now ≤ now') :
    Sound now' m g where
  nodup := h.nodup
  keys k hk := by
    obtain ⟨v, hv, hexpired⟩ := h.keys k hk
    exact ⟨v, hv, hexpired.mono hle⟩
  counters k hk := by
    obtain ⟨v, hv, hexpired, hmarker⟩ := h.counters k hk
    exact ⟨v, hv, hexpired.mono hle, hmarker⟩

theorem Sound.sub {now : UInt64} {m m' : Memory} {g g' : Groups} (h : Sound now m g)
    (hkeys : g'.keys.flatten.Sublist g.keys.flatten) (hcounters : g'.counters.flatten.Sublist g.counters.flatten)
    (hsame : ∀ k ∈ g'.keys.flatten ++ g'.counters.flatten, m'.keys[k]? = m.keys[k]?) : Sound now m' g' where
  nodup := h.nodup.sublist (hkeys.append hcounters)
  keys k hk := by
    rw [hsame k (mem_append_left _ hk)]
    exact h.keys k (hkeys.subset hk)
  counters k hk := by
    rw [hsame k (mem_append_right _ hk)]
    exact h.counters k (hcounters.subset hk)

theorem filterMap_clearedKey (g : Groups) :
    g.batches.flatten.filterMap clearedKey = g.keys.flatten ++ g.counters.flatten := by
  have hkeys (ks : List (List UInt8)) : (ks.flatMap keyOps).filterMap clearedKey = ks := by
    induction ks with
    | nil => rfl
    | cons k ks ih =>
      rw [flatMap_cons, filterMap_append, ih]
      rfl
  have hcounters (ks : List (List UInt8)) : (ks.flatMap counterOps).filterMap clearedKey = ks := by
    induction ks with
    | nil => rfl
    | cons k ks ih =>
      rw [flatMap_cons, filterMap_append, ih]
      rfl
  have hgroups {f : List UInt8 → List Operation} (hf : ∀ ks : List (List UInt8), (ks.flatMap f).filterMap clearedKey = ks)
      (groups : List (List (List UInt8))) : (groups.map (List.flatMap f)).flatten.filterMap clearedKey = groups.flatten := by
    induction groups with
    | nil => rfl
    | cons ks groups ih => rw [map_cons, flatten_cons, filterMap_append, hf, ih, flatten_cons]
  unfold Groups.batches
  rw [flatten_append, filterMap_append, hgroups hkeys, hgroups hcounters]

/-! ### One step -/

theorem next_frame {c : C} (h : w.next xxh3 c = some w') : w'.clock = w.clock ∧ w'.purge = w.purge := by
  unfold World.next at h
  cases hcaller : w.callers c with
  | idle =>
    rw [hcaller] at h
    cases h
  | checking key duration lockExpiry =>
    rw [hcaller] at h
    dsimp only at h
    split_ifs at h <;> (obtain rfl := some.inj h; exact ⟨rfl, rfl⟩)
  | writing | reading | clearing =>
    rw [hcaller] at h
    obtain rfl := some.inj h
    exact ⟨rfl, rfl⟩

theorem call_frame {c : C} {caller : Caller} (h : w.call c caller = some w') :
    w'.clock = w.clock ∧ w'.purge = w.purge ∧ w'.memory = w.memory := by
  unfold World.call at h
  split at h
  · obtain rfl := some.inj h
    exact ⟨rfl, rfl, rfl⟩
  · cases h

theorem Inv.next (h : Inv w) {c : C} (hkeeps : Keeps xxh3 w (.next c)) (hnext : w.next xxh3 c = some w') : Inv w' := by
  obtain ⟨hclock, hpurge⟩ := next_frame hnext
  unfold Inv at h ⊢
  rw [hclock, hpurge]
  cases hw : w.purge with
  | idle => trivial
  | scanning currentTime =>
    rw [hw] at h
    exact h
  | deleting batches =>
    rw [hw] at h
    obtain ⟨g, rfl, hsound⟩ := h
    refine ⟨g, rfl, hsound.sub (List.Sublist.refl _) (List.Sublist.refl _) fun k hk => hkeeps w' hnext k ?_⟩
    have hpending : w.pending = g.keys.flatten ++ g.counters.flatten := by
      unfold World.pending
      rw [hw]
      exact filterMap_clearedKey g
    rw [hpending]
    exact hk

theorem Sound.batch {now : UInt64} {m : Memory} {g : Groups} {batch : List Operation} {batches : List (List Operation)}
    (h : Sound now m g) (hg : batch :: batches = g.batches) : ∃ m', m.write xxh3 batch = some m' ∧ m.Loses now m' ∧
      ∃ g' : Groups, batches = g'.batches ∧ Sound now m' g' := by
  obtain ⟨keys, counters⟩ := g
  cases keys with
  | cons ks keys =>
    obtain ⟨rfl, rfl⟩ := List.cons.inj hg
    obtain ⟨m', hm', hcounters, hkeys⟩ := m.write_keyOps xxh3 ks
    obtain ⟨-, -, hdisjoint⟩ := nodup_append.mp (append_assoc ks _ _ ▸ h.nodup)
    refine ⟨m', hm', ⟨fun k v hv hnone => ?_, fun k n hn hnone => ?_⟩, ⟨keys, counters⟩, rfl, ?_⟩
    · rw [hkeys] at hnone
      by_cases hk : k ∈ ks
      · obtain ⟨v', hv', hexpired⟩ := h.keys k (mem_append_left _ hk)
        rw [some.inj (hv.symm.trans hv')]
        exact hexpired
      · rw [if_neg hk, hv] at hnone
        cases hnone
    · rw [hcounters, hn] at hnone
      cases hnone
    · refine h.sub (sublist_append_right _ _) (List.Sublist.refl _) fun k hk => ?_
      rw [hkeys, if_neg fun hks => hdisjoint k hks k hk rfl]
  | nil =>
    cases counters with
    | nil => cases hg
    | cons ks counters =>
      obtain ⟨rfl, rfl⟩ := List.cons.inj hg
      obtain ⟨m', hm', hcounters, hkeys⟩ := m.write_counterOps xxh3 ks
      have hnodup : (ks ++ counters.flatten).Nodup := h.nodup
      obtain ⟨-, -, hdisjoint⟩ := nodup_append.mp hnodup
      refine ⟨m', hm', ⟨fun k v hv hnone => ?_, fun k n hn hnone => ?_⟩, ⟨[], counters⟩, rfl, ?_⟩
      · rw [hkeys] at hnone
        by_cases hk : k ∈ ks
        · obtain ⟨v', hv', hexpired, -⟩ := h.counters k (mem_append_left _ hk)
          rw [some.inj (hv.symm.trans hv')]
          exact hexpired
        · rw [if_neg hk, hv] at hnone
          cases hnone
      · rw [hcounters] at hnone
        by_cases hk : k ∈ ks
        · exact ⟨by rw [hkeys, if_pos hk], h.counters k (mem_append_left _ hk)⟩
        · rw [if_neg hk, hn] at hnone
          cases hnone
      · refine h.sub (List.Sublist.refl _) (sublist_append_right _ _) fun k hk => ?_
        rw [hkeys, if_neg fun hks => hdisjoint k hks k hk rfl]

omit [DecidableEq C] in
theorem Inv.purge (h : Inv w) : Inv (w.purgeNext xxh3) ∧ w.memory.Loses w.clock (w.purgeNext xxh3).memory := by
  have hsame : w.memory.Loses w.clock w.memory :=
    ⟨fun _ _ hv hnone => absurd (hv.symm.trans hnone) nofun, fun _ _ hn hnone => absurd (hn.symm.trans hnone) nofun⟩
  unfold World.purgeNext
  unfold Inv at h
  cases hpurge : w.purge with
  | idle => exact ⟨UInt64.le_refl _, hsame⟩
  | scanning currentTime =>
    rw [hpurge] at h
    dsimp only
    cases hscan : scan currentTime w.memory with
    | none => exact ⟨trivial, hsame⟩
    | some found =>
      obtain ⟨g, hg, hkeys, hcounters⟩ := deletions_eq found
      have hright := scan_right hscan
      have hsound : Sound currentTime w.memory g :=
        ⟨hkeys ▸ hcounters ▸ hright.nodup, hkeys ▸ hright.keys, hcounters ▸ hright.counters⟩
      exact ⟨⟨g, hg, hsound.mono h⟩, hsame⟩
  | deleting batches =>
    rw [hpurge] at h
    obtain ⟨g, hg, hsound⟩ := h
    cases batches with
    | nil => exact ⟨trivial, hsame⟩
    | cons batch batches =>
      obtain ⟨m', hm', hloses, hrest⟩ := hsound.batch hg
      dsimp only
      rw [hm']
      exact ⟨hrest, hloses⟩

theorem Inv.step (h : Inv w) {a : Action C} (hkeeps : Keeps xxh3 w a) (hstep : w.step xxh3 a = some w') :
    Inv w' ∧ Harmless xxh3 w a := by
  cases a with
  | advance now =>
    unfold World.step at hstep
    dsimp only at hstep
    split_ifs at hstep with hle
    obtain rfl := some.inj hstep
    refine ⟨?_, trivial⟩
    unfold Inv at h ⊢
    cases hpurge : w.purge with
    | idle => trivial
    | scanning currentTime =>
      rw [hpurge] at h
      exact UInt64.le_trans h hle
    | deleting batches =>
      rw [hpurge] at h
      obtain ⟨g, hg, hsound⟩ := h
      exact ⟨g, hg, hsound.mono hle⟩
  | keySet | counterIncr | tryLock =>
    obtain ⟨hclock, hpurge, hmemory⟩ := call_frame hstep
    refine ⟨?_, trivial⟩
    unfold Inv at h ⊢
    rw [hclock, hpurge, hmemory]
    exact h
  | next c => exact ⟨h.next hkeeps hstep, trivial⟩
  | purge =>
    obtain rfl := some.inj hstep
    exact h.purge

/-- **Purges are harmless** in every run in which no caller writes a key that a purge has found expired and not deleted
yet. -/
theorem harmless_run (hinit : w.Initial) {steps : List (Action C)}
    (hkeeps : Run.Each (World.step xxh3) (Keeps xxh3) w steps) : Run.Each (World.step xxh3) (Harmless xxh3) w steps := by
  have hinv : Inv w := by
    unfold Inv
    rw [hinit]
    trivial
  exact Run.each_of_each (fun w a w' h hkeeps hstep => h.step hkeeps hstep) hinv hkeeps

/-! ### A key that was renewed -/

end

/-! ## A lock that is taken again -/

/-- A lock that has expired at five. -/
def oneLock : World Unit where
  clock := 10
  memory := ⟨Std.TreeMap.empty.insert [1] (be64 5), Std.TreeMap.empty⟩
  callers _ := .idle
  purge := .idle

/-- Another lock is taken between the scan and the batch. -/
theorem harmless_other : Run.Each (World.step fun _ => 0) (Harmless fun _ => 0) oneLock
    [.purge, .purge, .tryLock () [2] 60, .next (), .next (), .next (), .purge] := by
  have hinit : oneLock.Initial := rfl
  have hkeeps : Run.Each (World.step fun _ => 0) (Keeps fun _ => 0) oneLock
      [.purge, .purge, .tryLock () [2] 60, .next (), .next (), .next (), .purge] := by
    refine (Run.each_cons rfl).mpr ⟨trivial, (Run.each_cons rfl).mpr ⟨trivial, (Run.each_cons rfl).mpr ⟨trivial,
      (Run.each_cons rfl).mpr ⟨?_, (Run.each_cons rfl).mpr ⟨?_, (Run.each_cons rfl).mpr ⟨?_,
        (Run.each_cons rfl).mpr ⟨trivial, trivial⟩⟩⟩⟩⟩⟩⟩
    · intro w' h k hk
      obtain rfl := some.inj h
      rfl
    · intro w' h k hk
      obtain rfl := some.inj h
      rfl
    · intro w' h k hk
      obtain rfl := some.inj h
      obtain rfl : k = [1] := mem_singleton.mp hk
      rfl
  exact harmless_run hinit hkeeps

/-- The lock is taken again between the scan and the batch. -/
theorem harmful_between : ¬ Run.Each (World.step fun _ => 0) (Harmless fun _ => 0) oneLock
    [.purge, .purge, .tryLock () [1] 60, .next (), .next (), .next (), .purge] := by
  intro h
  have hlast := ((Run.each_cons rfl).mp ((Run.each_cons rfl).mp ((Run.each_cons rfl).mp ((Run.each_cons rfl).mp
    ((Run.each_cons rfl).mp ((Run.each_cons rfl).mp ((Run.each_cons rfl).mp h).2).2).2).2).2).2).1
  obtain ⟨e, he, hle⟩ := hlast.keys [1] (be64 70) rfl rfl
  have hexpiry : expiry (be64 70) = some 70 := by decide
  obtain rfl := some.inj (hexpiry.symm.trans he)
  exact absurd hle (by decide)

end MailServer.Store.Dispatch.InMemory
