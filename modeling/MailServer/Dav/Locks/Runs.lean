import MailServer.Dav.Locks.Requests

/-!
# Clients that lock (`dav/src/common/lock.rs`)

The locks of a collection are one value of the in-memory store, which every LOCK, refresh and UNLOCK reads, changes and
writes back, with nothing between the read and the write that keeps others out.

* `Locking`: the record, the requests under way, and the locks that have been granted.
* `LocksSound`, `RefreshExtends`: exclusive locks are alone, granted ones recorded, and a refresh does nothing else.
* `Locking.KeepsLocks`: the writes that leave it so.
* `locks_sound`: runs of such writes.
-/

namespace MailServer.Dav.Locks

open MailServer.Types MailServer.Lib List Option

/-- A request between its read of the record and its write. -/
structure Pending where
  request : Request
  read : Option LockData
  checked : Bool

structure Locking where
  now : ℕ
  /-- the record and when the store forgets it -/
  stored : Option (LockData × ℕ)
  pending : ℕ → Option Pending
  /-- the locks granted in answers and not unlocked since, with the expiry that their holders have been told last -/
  granted : List (Path × LockItem)

open Locking

inductive LockingAction where
  | tick (seconds : ℕ)
  | read (slot : ℕ) (request : Request)
  | check (slot : ℕ) (server : DavServer)
  | write (slot random : ℕ)

namespace Locking

def start : Locking := ⟨0, none, fun _ => none, []⟩

/-- What `key_get` returns. -/
def record (s : Locking) : Option LockData := (s.stored.filter fun e => decide (s.now < e.2)).map Prod.fst

def entries (s : Locking) : List (Path × LockItem) := s.record.elim [] LockData.entries

def finish (s : Locking) (slot : ℕ) : Locking := { s with pending := Function.update s.pending slot none }

/-- What holders know after an answer. -/
def grantedAfter (granted : List (Path × LockItem)) (request : Request) : LockResponse → List (Path × LockItem)
  | .active _ item =>
    match request.kind with
    | .lock .. => (request.path, item) :: granted
    | _ => granted.map fun e => if e.2.lockId = item.lockId then (e.1, { e.2 with expires := item.expires }) else e
  | .noContent => granted.filter fun e => decide (request.headers.lockToken.bind parseLock ≠ some e.2.lockId)

/-- The record goes back to the store without what has expired; the time given to the store is relative. -/
def store (s : Locking) (data : LockData) : Option (LockData × ℕ) :=
  let data := data.removeExpired s.now
  if 0 < data.maxExpire then some (data, s.now + data.maxExpire) else none

variable (config : GroupwareConfig) (accountId : ℕ) (collection : Collection)

def step (s : Locking) : LockingAction → Option Locking
  | .tick seconds => some { s with now := s.now + seconds }
  | .read slot request =>
    match s.pending slot with
    | none => some { s with pending := Function.update s.pending slot (some ⟨request, s.record, false⟩) }
    | some _ => none
  | .check slot server =>
    match s.pending slot with
    | some ⟨request, read, false⟩ =>
      match checkRequest config accountId collection request { server with now := s.now } read with
      | .ok _ => some { s with pending := Function.update s.pending slot (some ⟨request, read, true⟩) }
      | .error _ => some (s.finish slot)
    | _ => none
  | .write slot random =>
    match s.pending slot with
    | some ⟨request, read, true⟩ =>
      match applyRequest config request s.now random (read.getD .empty) with
      | .ok (response, data) =>
        some { s.finish slot with stored := s.store data, granted := grantedAfter s.granted request response }
      | .error _ => some (s.finish slot)
    | _ => none

end Locking

/-! ## What the locks are for -/

structure LocksSound (s : Locking) : Prop where
  /-- no live exclusive lock is together with another live one whose scope meets its own -/
  exclusive : s.entries.Pairwise fun e e' => s.now < e.2.expires → s.now < e'.2.expires → Compatible e e'
  /-- a granted lock is recorded while its holder may think so -/
  recorded : ∀ e ∈ s.granted, s.now < e.2.expires → e ∈ s.entries

/-- After the write of a refresh, whatever is recorded was there at the same path with the same scope, owner and id; if
its expiry is another one, it is a later one, and the token of the lock was submitted. -/
def RefreshExtends (config : GroupwareConfig) (accountId : ℕ) (collection : Collection) (s : Locking) : LockingAction → Prop
  | .write slot random =>
    ∀ p, s.pending slot = some p → (∀ exclusive owner, p.request.kind ≠ .lock exclusive owner) → p.request.kind ≠ .unlock →
      ∀ s', s.step config accountId collection (.write slot random) = some s' → ∀ e ∈ s'.entries, ∃ old ∈ s.entries,
        old.2.expires ≤ e.2.expires ∧ e = (old.1, { old.2 with expires := e.2.expires }) ∧
          (old = e ∨ old.2.lockId = p.request.ifLockToken)
  | _ => True

namespace Locking

/-- The request writes to the record that it has read.  A LOCK submits no token of a recorded lock and gets an id that is
not in use; a refresh submits a token, and its lock does not expire earlier for it. -/
def KeepsLocks (config : GroupwareConfig) (s : Locking) : LockingAction → Prop
  | .write slot random =>
    ∀ p, s.pending slot = some p → p.read = s.record ∧
      match p.request.kind with
      | .lock .. =>
        (∀ e ∈ s.entries, e.2.lockId ≠ p.request.ifLockToken) ∧
          (random ^^^ (s.now + p.request.timeout config)) ≠ 0 ∧
            ∀ e ∈ s.granted, e.2.lockId ≠ random ^^^ (s.now + p.request.timeout config)
      | .refresh =>
        p.request.ifLockToken ≠ 0 ∧
          ∀ e ∈ s.entries, e.2.lockId = p.request.ifLockToken → e.2.expires ≤ s.now + p.request.timeout config
      | .unlock => True
  | _ => True

end Locking

/-! ## The invariant -/

structure LocksInv (s : Locking) : Prop where
  compatible : ∀ e ∈ s.stored, e.1.entries.Pairwise Compatible
  granted : ∀ e ∈ s.stored, ∀ x ∈ e.1.entries, x ∈ s.granted
  kept : ∀ e ∈ s.stored, ∀ x ∈ e.1.entries, x.2.expires ≤ e.2
  recordIds : ∀ e ∈ s.stored, (e.1.entries.map (·.2.lockId)).Nodup
  ids : (s.granted.map (·.2.lockId)).Nodup
  nonzero : ∀ e ∈ s.granted, e.2.lockId ≠ 0
  recorded : ∀ x ∈ s.granted, s.now < x.2.expires → ∃ e ∈ s.stored, x ∈ e.1.entries
  checked : ∀ slot p, s.pending slot = some p → p.checked = true → ∀ exclusive owner,
    p.request.kind = .lock exclusive owner → ∀ data ∈ p.read, ∀ e ∈ data.entries, s.now < e.2.expires →
      e.2.Covers e.1 p.request.path → p.request.conflicts exclusive e.1 e.2 = false

section

variable {s s' : Locking} {config : GroupwareConfig} {accountId : ℕ} {collection : Collection}

theorem mem_stored_of_mem_record {data : LockData} (h : data ∈ s.record) : ∃ e ∈ s.stored, e.1 = data := by
  obtain ⟨e, he, rfl⟩ := map_eq_some_iff.mp h
  exact ⟨e, (filter_eq_some_iff.mp he).1, rfl⟩

theorem entries_of_record {data : LockData} (h : s.record = some data) : s.entries = data.entries := by
  rw [entries, h, elim_some]

variable {e x : Path × LockItem} {granted : List (Path × LockItem)} {slot : ℕ}
  {owner : Option DeadProperty} {a : LockingAction}

theorem mem_record_of_mem_entries (h : e ∈ s.entries) : ∃ data ∈ s.record, e ∈ data.entries := by
  cases hrecord : s.record with
  | none =>
    rw [entries, hrecord] at h
    exact absurd h not_mem_nil
  | some data => exact ⟨data, rfl, entries_of_record hrecord ▸ h⟩

theorem LocksInv.mem_entries (hs : LocksInv s) (hx : x ∈ s.granted) (hlive : s.now < x.2.expires) :
    x ∈ s.entries := by
  obtain ⟨e, he, hmem⟩ := hs.recorded x hx hlive
  have hrecord : s.record = some e.1 := by
    rw [record, he, filter_some, if_pos, map_some]
    exact decide_eq_true (hlive.trans_le (hs.kept e he x hmem))
  rwa [entries_of_record hrecord]

theorem LocksInv.sound (hs : LocksInv s) : LocksSound s := by
  refine ⟨?_, fun e he hlive => hs.mem_entries he hlive⟩
  cases hrecord : s.record with
  | none =>
    rw [entries, hrecord]
    exact List.Pairwise.nil
  | some data =>
    obtain ⟨e, he, rfl⟩ := mem_stored_of_mem_record hrecord
    rw [entries_of_record hrecord]
    exact (hs.compatible e he).imp fun h _ _ => h

theorem locksInv_start : LocksInv .start where
  compatible := fun _ h => by cases h
  granted := fun _ h => by cases h
  kept := fun _ h => by cases h
  recordIds := fun _ h => by cases h
  ids := nodup_nil
  nonzero := fun _ h => by cases h
  recorded := fun _ h => by cases h
  checked := fun _ _ h => by cases h

theorem LocksInv.tick (hs : LocksInv s) (seconds : ℕ) : LocksInv { s with now := s.now + seconds } where
  __ := hs
  recorded := fun x hx hlive => hs.recorded x hx (Nat.lt_of_le_of_lt (Nat.le_add_right _ _) hlive)
  checked := fun slot p hp hc exclusive owner hk data hd e he hlive =>
    hs.checked slot p hp hc exclusive owner hk data hd e he (Nat.lt_of_le_of_lt (Nat.le_add_right _ _) hlive)

theorem LocksInv.pending (hs : LocksInv s) (slot : ℕ) {q : Option Pending}
    (hq : ∀ p ∈ q, p.checked = true → ∀ exclusive owner, p.request.kind = .lock exclusive owner → ∀ data ∈ p.read,
      ∀ e ∈ data.entries, s.now < e.2.expires → e.2.Covers e.1 p.request.path →
        p.request.conflicts exclusive e.1 e.2 = false) :
    LocksInv { s with pending := Function.update s.pending slot q } where
  __ := hs
  checked := fun slot' p hp => by
    have hp : Function.update s.pending slot q slot' = some p := hp
    by_cases hslot : slot' = slot
    · subst hslot
      rw [Function.update_self] at hp
      exact hq p hp
    · rw [Function.update_of_ne hslot] at hp
      exact hs.checked slot' p hp

theorem LocksInv.finish (hs : LocksInv s) (slot : ℕ) : LocksInv (s.finish slot) :=
  hs.pending slot fun _ h => by cases h

/-! ### Writes -/

theorem mem_store {data : LockData} {e : LockData × ℕ} (h : e ∈ s.store data) :
    e.1 = data.removeExpired s.now ∧ e.2 = s.now + (data.removeExpired s.now).maxExpire := by
  rw [store] at h
  split_ifs at h
  · obtain rfl := some.inj h
    exact ⟨rfl, rfl⟩
  · exact absurd h (not_mem_none e)

theorem store_of_live {data : LockData} (hx : x ∈ data.entries) (hlive : s.now < x.2.expires) :
    ∃ e ∈ s.store data, x ∈ e.1.entries := by
  have hmem : x ∈ (data.removeExpired s.now).entries := by
    rw [LockData.entries_removeExpired]
    exact mem_filter.mpr ⟨hx, decide_eq_true hlive⟩
  have hpos : 0 < (data.removeExpired s.now).maxExpire :=
    (Nat.zero_le _).trans_lt (hlive.trans_le (LockData.le_maxExpire hmem))
  exact ⟨(data.removeExpired s.now, s.now + (data.removeExpired s.now).maxExpire), if_pos hpos, hmem⟩

theorem LocksInv.write (hs : LocksInv s) (slot : ℕ) {data : LockData}
    (hcompatible : (data.entries.filter fun e => decide (s.now < e.2.expires)).Pairwise Compatible)
    (hgranted : ∀ x ∈ data.entries, x ∈ granted)
    (hrecordIds : (data.entries.map (·.2.lockId)).Nodup) (hids : (granted.map (·.2.lockId)).Nodup)
    (hnonzero : ∀ e ∈ granted, e.2.lockId ≠ 0)
    (hrecorded : ∀ x ∈ granted, s.now < x.2.expires → x ∈ data.entries) :
    LocksInv { s.finish slot with stored := s.store data, granted } where
  compatible := fun e he => by
    rw [(mem_store he).1, LockData.entries_removeExpired]
    exact hcompatible
  granted := fun e he x hx => by
    rw [(mem_store he).1, LockData.entries_removeExpired] at hx
    exact hgranted x (mem_of_mem_filter hx)
  kept := fun e he x hx => by
    rw [(mem_store he).2]
    rw [(mem_store he).1] at hx
    exact (LockData.le_maxExpire hx).trans (Nat.le_add_left _ _)
  recordIds := fun e he => by
    rw [(mem_store he).1, LockData.entries_removeExpired]
    exact hrecordIds.sublist (filter_sublist.map _)
  ids := hids
  nonzero := hnonzero
  recorded := fun x hx hlive => store_of_live (hrecorded x hx hlive) hlive
  checked := (hs.finish slot).checked

/-! ### Recorded locks -/

theorem LocksInv.of_mem_entries (hs : LocksInv s) (hx : x ∈ s.entries) : x ∈ s.granted := by
  obtain ⟨data, hdata, hmem⟩ := mem_record_of_mem_entries hx
  obtain ⟨e, he, rfl⟩ := mem_stored_of_mem_record hdata
  exact hs.granted e he x hmem

theorem LocksInv.entries_compatible (hs : LocksInv s) : s.entries.Pairwise Compatible := by
  cases hrecord : s.record with
  | none =>
    rw [entries, hrecord]
    exact List.Pairwise.nil
  | some data =>
    obtain ⟨e, he, rfl⟩ := mem_stored_of_mem_record hrecord
    rw [entries_of_record hrecord]
    exact hs.compatible e he

theorem LocksInv.entries_ids (hs : LocksInv s) : (s.entries.map (·.2.lockId)).Nodup := by
  cases hrecord : s.record with
  | none =>
    rw [entries, hrecord]
    exact nodup_nil
  | some data =>
    obtain ⟨e, he, rfl⟩ := mem_stored_of_mem_record hrecord
    rw [entries_of_record hrecord]
    exact hs.recordIds e he

theorem entries_getD : (s.record.getD .empty).entries = s.entries := by
  cases hrecord : s.record with
  | none =>
    rw [entries, hrecord]
    rfl
  | some data => rw [entries_of_record hrecord, getD_some]

/-! ### LOCK -/

theorem locksInv_lock (hs : LocksInv s) {lockId expires : ℕ} {request : Request} {exclusive : Bool}
    (hp : s.pending slot = some ⟨request, s.record, true⟩)
    (hkind : request.kind = .lock exclusive owner)
    (htoken : ∀ e ∈ s.entries, e.2.lockId ≠ request.ifLockToken) (hzero : lockId ≠ 0)
    (hfresh : ∀ e ∈ s.granted, e.2.lockId ≠ lockId) :
    LocksInv { s.finish slot with
      stored := s.store ((s.record.getD .empty).push request.path (request.touch expires lockId .default))
      granted := (request.path, request.touch expires lockId .default) :: s.granted } := by
  have hitem : request.touch expires lockId .default =
      { lockId, owner := request.accountId, expires, depthInfinity := request.isInfinity, exclusive, ownerDav := owner } := by
    rw [Request.touch, hkind]
  have hperm := @LockData.entries_push (s.record.getD .empty) request.path (request.touch expires lockId .default)
  rw [entries_getD] at hperm
  have hid : (request.touch expires lockId .default).lockId = lockId := by rw [hitem]
  refine hs.write slot ?_ ?_ ?_ ?_ ?_ ?_
  · refine ((hperm.filter _).pairwise_iff fun h => h.symm).mpr ?_
    have hold := hs.entries_compatible.sublist (filter_sublist (p := fun e => decide (s.now < e.2.expires)))
    rw [filter_cons]
    split_ifs
    · refine pairwise_cons.mpr ⟨fun e he => ?_, hold⟩
      obtain ⟨he, hlive⟩ := mem_filter.mp he
      obtain ⟨data, hdata, hmem⟩ := mem_record_of_mem_entries he
      exact compatible_of_not_conflicts (by rw [hitem]) (by rw [hitem]) (htoken e he)
        (hs.checked slot _ hp rfl exclusive owner hkind data hdata e hmem (of_decide_eq_true hlive))
    · exact hold
  · intro x hx
    obtain rfl | hx := mem_cons.mp (hperm.mem_iff.mp hx)
    · exact mem_cons_self
    · exact mem_cons_of_mem _ (hs.of_mem_entries hx)
  · rw [(hperm.map _).nodup_iff, map_cons, nodup_cons, hid]
    refine ⟨fun hmem => ?_, hs.entries_ids⟩
    obtain ⟨e, he, heq⟩ := List.mem_map.mp hmem
    exact hfresh e (hs.of_mem_entries he) heq
  · rw [map_cons, nodup_cons, hid]
    refine ⟨fun hmem => ?_, hs.ids⟩
    obtain ⟨e, he, heq⟩ := List.mem_map.mp hmem
    exact hfresh e he heq
  · intro e he
    obtain rfl | he := mem_cons.mp he
    · rw [hid]
      exact hzero
    · exact hs.nonzero e he
  · intro x hx hlive
    rw [hperm.mem_iff]
    obtain rfl | hx := mem_cons.mp hx
    · exact mem_cons_self
    · exact mem_cons_of_mem _ (hs.mem_entries hx hlive)

/-! ### Refresh -/

/-- What a refresh does to a lock. -/
def extend (token expires : ℕ) (e : Path × LockItem) : Path × LockItem :=
  if e.2.lockId = token then (e.1, { e.2 with expires := expires }) else e

section

variable {token expires : ℕ} {e e' : Path × LockItem}

theorem extend_lockId : (extend token expires e).2.lockId = e.2.lockId := by
  rw [extend]
  split_ifs <;> rfl

theorem map_extend_lockId (l : List (Path × LockItem)) :
    (l.map (extend token expires)).map (·.2.lockId) = l.map (·.2.lockId) := by
  rw [List.map_map]
  exact map_congr_left fun e _ => extend_lockId

theorem extend_compatible (h : Compatible e e') : Compatible (extend token expires e) (extend token expires e') := by
  rw [extend, extend]
  split_ifs <;> exact h

theorem extend_of_ne (h : e.2.lockId ≠ token) : extend token expires e = e := if_neg h

theorem map_extend_of_ne {l : List (Path × LockItem)} (h : ∀ e ∈ l, e.2.lockId ≠ token) : l.map (extend token expires) = l := by
  conv_rhs => rw [← List.map_id l]
  exact map_congr_left fun e he => extend_of_ne (h e he)

end

theorem entries_refresh {data data' : LockData} {request : Request} {token expires lockId : ℕ}
    (hids : (data.entries.map (·.2.lockId)).Nodup) (hkind : request.kind = .refresh)
    (h : data.update token (request.touch expires lockId) = some data') :
    data'.entries = data.entries.map (extend token expires) := by
  obtain ⟨l₁, p, lock, l₂, heq, hid, heq'⟩ := LockData.entries_update h
  rw [heq, map_append] at hids
  obtain ⟨-, hcons, hdisjoint⟩ := nodup_append.mp hids
  have hleft : ∀ e ∈ l₁, e.2.lockId ≠ token := fun e he =>
    hid ▸ hdisjoint _ (List.mem_map_of_mem he) _ mem_cons_self
  have hright : ∀ e ∈ l₂, e.2.lockId ≠ token := fun e he heq =>
    (nodup_cons.mp hcons).1 (List.mem_map.mpr ⟨e, he, heq.trans hid.symm⟩)
  rw [heq', heq, map_append, map_cons, map_extend_of_ne hleft, map_extend_of_ne hright, extend, if_pos hid,
    Request.touch, hkind]

theorem locksInv_refresh (hs : LocksInv s) {token expires : ℕ} {data : LockData}
    (hfound : ∃ e ∈ s.entries, e.2.lockId = token)
    (hdata : data.entries = s.entries.map (extend token expires)) :
    LocksInv { s.finish slot with stored := s.store data, granted := s.granted.map (extend token expires) } := by
  refine hs.write slot ?_ ?_ ?_ ?_ ?_ ?_
  · rw [hdata]
    exact ((pairwise_map.mpr (hs.entries_compatible.imp extend_compatible))).sublist filter_sublist
  · rw [hdata]
    intro x hx
    obtain ⟨e, he, rfl⟩ := List.mem_map.mp hx
    exact List.mem_map_of_mem (hs.of_mem_entries he)
  · rw [hdata, map_extend_lockId]
    exact hs.entries_ids
  · rw [map_extend_lockId]
    exact hs.ids
  · intro e he
    obtain ⟨x, hx, rfl⟩ := List.mem_map.mp he
    rw [extend_lockId]
    exact hs.nonzero x hx
  · intro x hx hlive
    obtain ⟨e, he, rfl⟩ := List.mem_map.mp hx
    rw [hdata]
    refine List.mem_map_of_mem ?_
    by_cases htoken : e.2.lockId = token
    · -- the token's lock may have expired since, and is recorded still
      obtain ⟨e', he', hid⟩ := hfound
      rwa [inj_on_of_nodup_map hs.ids he (hs.of_mem_entries he') (htoken.trans hid.symm)]
    · rw [extend_of_ne htoken] at hlive
      exact hs.mem_entries he hlive

/-! ### UNLOCK -/

theorem locksInv_unlock (hs : LocksInv s) {lockId : ℕ} {data : LockData} {path : Path}
    {lock : LockItem} (hid : lock.lockId = lockId)
    (hperm : s.entries.Perm ((path, lock) :: data.entries)) :
    LocksInv { s.finish slot with
      stored := s.store data
      granted := s.granted.filter fun e => decide (some lockId ≠ some e.2.lockId) } := by
  have hids := hs.entries_ids
  rw [(hperm.map _).nodup_iff, map_cons, nodup_cons] at hids
  refine hs.write slot ?_ ?_ ?_ ?_ ?_ ?_
  · exact ((hperm.pairwise_iff fun h => h.symm).mp hs.entries_compatible).of_cons.sublist filter_sublist
  · intro x hx
    refine mem_filter.mpr ⟨hs.of_mem_entries (hperm.mem_iff.mpr (mem_cons_of_mem _ hx)), decide_eq_true fun heq => ?_⟩
    exact hids.1 (List.mem_map.mpr ⟨x, hx, (some.inj heq).symm.trans hid.symm⟩)
  · exact hids.2
  · exact hs.ids.sublist (filter_sublist.map _)
  · exact fun e he => hs.nonzero e (mem_of_mem_filter he)
  · intro x hx hlive
    obtain ⟨hx, hne⟩ := mem_filter.mp hx
    obtain rfl | hmem := mem_cons.mp (hperm.mem_iff.mp (hs.mem_entries hx hlive))
    · exact absurd (congrArg some hid.symm) (of_decide_eq_true hne)
    · exact hmem

/-! ### Steps -/

theorem step_write {random : ℕ}
    (h : s.step config accountId collection (.write slot random) = some s') :
    ∃ request read, s.pending slot = some ⟨request, read, true⟩ ∧
      (s' = s.finish slot ∨ ∃ response data, applyRequest config request s.now random (read.getD .empty) = .ok (response, data) ∧
        s' = { s.finish slot with
          stored := s.store data, granted := grantedAfter s.granted request response }) := by
  rw [step] at h
  split at h
  · next request read hp =>
    refine ⟨request, read, hp, ?_⟩
    split at h
    · next response data happly =>
      obtain rfl := some.inj h
      exact .inr ⟨response, data, happly, rfl⟩
    · obtain rfl := some.inj h
      exact .inl rfl
  · cases h

variable {request : Request} {data data' : LockData} {random expires lockId : ℕ} {response : LockResponse}

theorem apply_refresh (hkind : request.kind = .refresh) (htoken : request.ifLockToken ≠ 0)
    (h : applyRequest config request s.now random data = .ok (response, data')) :
    ∃ e ∈ data.entries, e.2.lockId = request.ifLockToken ∧
      response = .active false { e.2 with expires := s.now + request.timeout config } ∧
      data.update request.ifLockToken (request.touch (s.now + request.timeout config)
        (random ^^^ (s.now + request.timeout config))) = some data' := by
  rw [applyRequest, hkind] at h
  dsimp only at h
  rw [Request.grant, if_pos (Nat.pos_of_ne_zero htoken)] at h
  split at h
  · next path lock new hfind hupdate =>
    split_ifs at h
    obtain ⟨rfl, rfl⟩ := Prod.mk.inj (Except.ok.inj h)
    have hid := find?_some hfind
    refine ⟨(path, lock), mem_of_find?_eq_some hfind, beq_iff_eq.mp hid, ?_, hupdate⟩
    rw [Request.touch, hkind]
  · cases h

theorem apply_lock {exclusive : Bool} (hkind : request.kind = .lock exclusive owner)
    (htoken : ∀ e ∈ data.entries, e.2.lockId ≠ request.ifLockToken)
    (h : applyRequest config request s.now random data = .ok (response, data')) :
    response = .active true (request.touch (s.now + request.timeout config)
        (random ^^^ (s.now + request.timeout config)) .default) ∧
      data' = data.push request.path (request.touch (s.now + request.timeout config)
        (random ^^^ (s.now + request.timeout config)) .default) := by
  rw [applyRequest, hkind] at h
  dsimp only at h
  rw [Request.grant] at h
  by_cases hpos : 0 < request.ifLockToken
  · rw [if_pos hpos] at h
    split at h
    · next path lock new hfind hupdate =>
      have hid := find?_some hfind
      exact absurd (beq_iff_eq.mp hid) (htoken _ (mem_of_find?_eq_some hfind))
    · cases h
  · split_ifs at h
    obtain ⟨rfl, rfl⟩ := Prod.mk.inj (Except.ok.inj h)
    exact ⟨rfl, rfl⟩

theorem apply_unlock (hkind : request.kind = .unlock)
    (h : applyRequest config request s.now random data = .ok (response, data')) :
    ∃ lockId, request.headers.lockToken.bind parseLock = some lockId ∧ response = .noContent ∧
      data.removeLock lockId = some data' := by
  rw [applyRequest, hkind] at h
  dsimp only at h
  split at h
  · cases h
  · next lockId hid =>
    split at h
    · next new hremove =>
      obtain ⟨rfl, rfl⟩ := Prod.mk.inj (Except.ok.inj h)
      exact ⟨lockId, hid, rfl, hremove⟩
    · cases h

theorem entries_applied_refresh (hs : LocksInv s) (hkind : request.kind = .refresh)
    (hupdate : (s.record.getD .empty).update request.ifLockToken (request.touch expires lockId) = some data') :
    data'.entries = s.entries.map (extend request.ifLockToken expires) := by
  rw [entries_refresh (by rw [entries_getD]; exact hs.entries_ids) hkind hupdate, entries_getD]

theorem locksInv_write (hs : LocksInv s) (hk : s.KeepsLocks config (.write slot random))
    (h : s.step config accountId collection (.write slot random) = some s') : LocksInv s' := by
  obtain ⟨request, read, hp, rfl | ⟨response, data, happly, rfl⟩⟩ := step_write h
  · exact hs.finish slot
  · obtain ⟨hread, hcond⟩ := hk _ hp
    obtain rfl : read = s.record := hread
    cases hkind : request.kind with
    | lock exclusive owner =>
      rw [hkind] at hcond
      obtain ⟨htoken, hzero, hfresh⟩ := hcond
      obtain ⟨rfl, rfl⟩ := apply_lock hkind (by rw [entries_getD]; exact htoken) happly
      rw [grantedAfter, hkind]
      exact locksInv_lock hs hp hkind htoken hzero hfresh
    | refresh =>
      rw [hkind] at hcond
      obtain ⟨e, he, hid, rfl, hupdate⟩ := apply_refresh hkind hcond.1 happly
      rw [entries_getD] at he
      rw [grantedAfter, hkind]
      rw [hid]
      exact locksInv_refresh hs ⟨e, he, hid⟩ (entries_applied_refresh hs hkind hupdate)
    | unlock =>
      obtain ⟨lockId, hlock, rfl, hremove⟩ := apply_unlock hkind happly
      obtain ⟨path, lock, hid, hperm⟩ := LockData.entries_removeLock hremove
      rw [entries_getD] at hperm
      rw [grantedAfter, hlock]
      exact locksInv_unlock hs hid hperm

theorem mem_entries_store
    (h : e ∈ ({ s.finish slot with stored := s.store data, granted } : Locking).entries) : e ∈ data.entries := by
  obtain ⟨new, hnew, hmem⟩ := mem_record_of_mem_entries h
  obtain ⟨stored, hstored, rfl⟩ := mem_stored_of_mem_record hnew
  rw [(mem_store hstored).1, LockData.entries_removeExpired] at hmem
  exact mem_of_mem_filter hmem

theorem refreshExtends_of_keepsLocks (hs : LocksInv s) (hk : s.KeepsLocks config a) :
    RefreshExtends config accountId collection s a := by
  cases a with
  | tick | read | check => trivial
  | write slot random =>
    intro p hp hnot hnot' s' h e he
    obtain ⟨request, read, hp', hs'⟩ := step_write h
    obtain rfl := some.inj (hp'.symm.trans hp)
    have hkind : request.kind = .refresh := by
      cases hkind : request.kind with
      | lock exclusive owner => exact absurd hkind (hnot exclusive owner)
      | unlock => exact absurd hkind hnot'
      | refresh => rfl
    obtain rfl | ⟨response, data, happly, rfl⟩ := hs'
    · exact ⟨e, he, le_rfl, rfl, .inl rfl⟩
    · obtain ⟨hread, hcond⟩ := hk _ hp
      obtain rfl : read = s.record := hread
      rw [hkind] at hcond
      obtain ⟨-, -, -, -, hupdate⟩ := apply_refresh hkind hcond.1 happly
      have hmem := mem_entries_store he
      rw [entries_applied_refresh hs hkind hupdate] at hmem
      obtain ⟨old, hold, rfl⟩ := List.mem_map.mp hmem
      refine ⟨old, hold, ?_⟩
      rw [extend]
      split_ifs with hid
      · exact ⟨hcond.2 old hold hid, rfl, .inr hid⟩
      · exact ⟨le_rfl, rfl, .inl rfl⟩

theorem locksInv_step (hs : LocksInv s) (hk : s.KeepsLocks config a)
    (h : s.step config accountId collection a = some s') : LocksInv s' := by
  cases a with
  | tick seconds =>
    obtain rfl := some.inj h
    exact hs.tick seconds
  | read slot request =>
    rw [step] at h
    split at h
    · obtain rfl := some.inj h
      refine hs.pending slot fun p hp hc => ?_
      obtain rfl := some.inj hp
      cases hc
    · cases h
  | check slot server =>
    rw [step] at h
    split at h
    · next request read hp =>
      split at h
      · next hcheck =>
        obtain rfl := some.inj h
        refine hs.pending slot fun p hp _ exclusive owner hkind data hdata e he hlive hcovers => ?_
        obtain rfl := some.inj hp
        obtain rfl : read = some data := hdata
        exact not_conflicts_of_check hkind hcheck he hlive hcovers
      · obtain rfl := some.inj h
        exact hs.finish slot
    · cases h
  | write slot random => exact locksInv_write hs hk h

end

/-- Where every request writes to the record that it has read, with a fresh id for a new lock and a token for a refresh, no
live exclusive lock is together with another in its scope, no granted lock is lost, and a refresh only extends its own. -/
theorem locks_sound {config : GroupwareConfig} {accountId : ℕ} {collection : Collection} {actions : List LockingAction}
    (h : Run.Each (step config accountId collection) (Locking.KeepsLocks config) .start actions) :
    Run.Always (step config accountId collection) LocksSound .start actions ∧
      Run.Each (step config accountId collection) (RefreshExtends config accountId collection) .start actions := by
  refine ⟨(Run.always_of_each (fun _ _ _ => locksInv_step) locksInv_start h).mono fun _ hs => hs.sound, ?_⟩
  exact Run.each_of_each (fun _ _ _ hs hk h => ⟨locksInv_step hs hk h, refreshExtends_of_keepsLocks hs hk⟩) locksInv_start h

/-! ## Two clients -/

/-- A LOCK of a user for a minute, with no `If` header. -/
def lockSample (accountId : ℕ) : Request where
  headers := { uri := "/dav/file/jane/a".toList, depth := .zero, timeout := .second 60, lockToken := none,
               overwriteFail := false, ifs := [] }
  path := "a".toList
  accountId := accountId
  kind := .lock true none

/-- A refresh of the lock with the id 61. -/
def refreshSample : Request where
  headers := { uri := "/dav/file/jane/a".toList, depth := .none, timeout := .second 60, lockToken := none,
               overwriteFail := false, ifs := [⟨none, [.stateToken false "urn:email:davlock:3d".toList]⟩] }
  path := "a".toList
  accountId := 1
  kind := .refresh

def lockingConfig : GroupwareConfig := ⟨none, 10, 3600⟩

def lockingServer : DavServer := { sampleServer with lockData := fun _ _ => none }

/-- One user locks a file, and makes the lock last longer. -/
theorem locks_sound_alone :
    Run.Always (step lockingConfig 1 .fileNode) LocksSound .start
        [.read 0 (lockSample 1), .check 0 lockingServer, .write 0 1, .tick 5, .read 0 refreshSample, .check 0 lockingServer,
          .write 0 0] ∧
      Run.Each (step lockingConfig 1 .fileNode) (RefreshExtends lockingConfig 1 .fileNode) .start
        [.read 0 (lockSample 1), .check 0 lockingServer, .write 0 1, .tick 5, .read 0 refreshSample, .check 0 lockingServer,
          .write 0 0] := by
  apply locks_sound
  intro s hs
  refine ⟨trivial, fun t ht => ⟨trivial, fun u hu => ⟨?_, fun v hv => ⟨trivial, fun w hw => ⟨trivial, fun x hx =>
    ⟨trivial, fun y hy => ⟨?_, trivial⟩⟩⟩⟩⟩⟩⟩
  · obtain rfl := some.inj hs
    obtain rfl := some.inj ht
    intro p hp
    obtain rfl := some.inj hp
    exact ⟨rfl, nofun, by decide, nofun⟩
  · obtain rfl := some.inj hs
    obtain rfl := some.inj ht
    obtain rfl := some.inj hu
    obtain rfl := some.inj hv
    obtain rfl := some.inj hw
    obtain rfl := some.inj hx
    intro p hp
    obtain rfl := some.inj hp
    exact ⟨rfl, by decide, by decide⟩

/-- Two users read before either writes: the file is locked for both, and the record has the second lock only. -/
theorem not_locks_sound : ¬(Run.Always (step lockingConfig 1 .fileNode) LocksSound .start
      [.read 0 (lockSample 1), .read 1 (lockSample 2), .check 0 lockingServer, .check 1 lockingServer, .write 0 1, .write 1 2] ∧
    Run.Each (step lockingConfig 1 .fileNode) (RefreshExtends lockingConfig 1 .fileNode) .start
      [.read 0 (lockSample 1), .read 1 (lockSample 2), .check 0 lockingServer, .check 1 lockingServer, .write 0 1,
        .write 1 2]) := by
  have hrun : (Run.run (step lockingConfig 1 .fileNode) .start
      [.read 0 (lockSample 1), .read 1 (lockSample 2), .check 0 lockingServer, .check 1 lockingServer, .write 0 1,
        .write 1 2]).map (fun s => s.granted.any fun e => decide (s.now < e.2.expires ∧ e ∉ s.entries)) = some true := by
    decide
  rintro ⟨h, -⟩
  obtain ⟨s, hs, hlost⟩ := map_eq_some_iff.mp hrun
  obtain ⟨e, he, hgone⟩ := List.any_eq_true.mp hlost
  obtain ⟨hlive, hnot⟩ := of_decide_eq_true hgone
  exact hnot ((h.last hs).recorded e he hlive)

end MailServer.Dav.Locks
