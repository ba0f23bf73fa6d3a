import MailServer.Dav.CopyMove.Edits
import MailServer.Dav.Locks.Headers
import Mathlib.Data.Nat.Bitwise

/-!
# LOCK and UNLOCK (`dav/src/common/lock.rs`)

A request reads the record of its collection, checks itself against it, changes its copy and writes that back without what
has expired.

* `checkRequest`, `applyRequest`: the two halves of `handle_lock_request`.
* `LockData.entries`: the locks of a record with their paths, and what the changes of a record do to them.
* `Overlaps`: the scopes of two locks meet.
-/

namespace MailServer.Dav.Locks

open MailServer.Types List Option
open MailServer.Dav.CopyMove (swapRemove swapRemove_perm)

inductive LockRequest where
  | lock (exclusive : Bool) (owner : Option DeadProperty)
  | unlock
  | refresh

/-- A request of a member of the account, whose URI has a resource. -/
structure Request where
  headers : RequestHeaders
  path : Path
  accountId : ℕ
  kind : LockRequest

structure GroupwareConfig where
  deadPropertySize : Option ℕ
  maxLocksPerUser : ℕ
  maxLockTimeout : ℕ

inductive LockError where
  | headers (error : DavError)
  | locked (failed : List (List Char))
  | payloadTooLarge
  | tooManyRequests
  | lockTokenMatchesRequestUri
  | preconditionFailed
  | badRequest
deriving DecidableEq

/-- The active lock of an answer, or that it is gone. -/
inductive LockResponse where
  | active (created : Bool) (item : LockItem)
  | noContent

/-! ## Lock tokens -/

def hexDigit (c : Char) : Option ℕ :=
  if '0' ≤ c ∧ c ≤ '9' then some (c.toNat - '0'.toNat)
  else if 'a' ≤ c ∧ c ≤ 'f' then some (c.toNat - 'a'.toNat + 10)
  else if 'A' ≤ c ∧ c ≤ 'F' then some (c.toNat - 'A'.toNat + 10)
  else none

/-- `u64::from_str_radix` of base 16. -/
def fromStrRadix16 (s : List Char) : Option ℕ :=
  let digits := if s.head? = some '+' then s.tail else s
  if digits.isEmpty then none
  else digits.foldlM (fun n c => (hexDigit c).bind fun d =>
    if n * 16 + d ≤ 0xffffffffffffffff then some (n * 16 + d) else none) 0

/-- The lock id of a token that `Urn::parse` takes for a lock. -/
def parseLock (token : List Char) : Option ℕ :=
  if lockPrefix.isPrefixOf token then fromStrRadix16 (token.drop lockPrefix.length) else none

namespace Request

variable (request : Request)

/-- The first lock token of the `If` headers, wherever its list is. -/
def ifLockToken : ℕ :=
  ((request.headers.ifs.flatMap (·.list)).findSome? fun
    | .stateToken _ token => parseLock token
    | _ => none).getD 0

def isInfinity : Bool := request.headers.depth == .infinity

/-- A lock that was found stands in the way of the one asked for.  The paths of the two are equal, or one is above the
other, which their lengths tell. -/
def conflicts (exclusive : Bool) (path : Path) (lock : LockItem) : Bool :=
  request.ifLockToken != lock.lockId && (lock.exclusive || exclusive) &&
    (path.length == request.path.length || lock.depthInfinity && decide (path.length < request.path.length) ||
      request.isInfinity && decide (request.path.length < path.length))

def timeout (config : GroupwareConfig) : ℕ :=
  match request.headers.timeout with
  | .second seconds => min seconds config.maxLockTimeout
  | _ => config.maxLockTimeout

end Request

/-! ## Changes of a record -/

/-- The entry of a path gets one more lock. -/
def pushItem (path : Path) (lock : LockItem) : List (Path × List LockItem) → List (Path × List LockItem)
  | [] => [(path, [lock])]
  | (p, locks) :: rest => if p = path then (p, locks ++ [lock]) :: rest else (p, locks) :: pushItem path lock rest

def updateFirst (lockId : ℕ) (f : LockItem → LockItem) : List LockItem → Option (List LockItem)
  | [] => none
  | lock :: locks =>
    if lock.lockId = lockId then some (f lock :: locks) else (updateFirst lockId f locks).map (lock :: ·)

/-- The first lock with the id is changed in place, at whatever path it is. -/
def updateItem (lockId : ℕ) (f : LockItem → LockItem) :
    List (Path × List LockItem) → Option (List (Path × List LockItem))
  | [] => none
  | (p, locks) :: rest =>
    match updateFirst lockId f locks with
    | some locks => some ((p, locks) :: rest)
    | none => (updateItem lockId f rest).map ((p, locks) :: ·)

/-- The loop of `LockData::remove_lock`. -/
def removeItem (lockId : ℕ) : List (Path × List LockItem) → Option (List (Path × List LockItem))
  | [] => none
  | (p, locks) :: rest =>
    match locks.findIdx? (·.lockId == lockId) with
    | some i => some (if (swapRemove locks i).isEmpty then rest else (p, swapRemove locks i) :: rest)
    | none => (removeItem lockId rest).map ((p, locks) :: ·)

def retainLive (now : ℕ) (locks : List (Path × List LockItem)) : List (Path × List LockItem) :=
  (locks.map fun (p, items) => (p, items.filter fun lock => decide (now < lock.expires))).filter fun e => !e.2.isEmpty

/-- The locks with their paths. -/
def entriesOf (locks : List (Path × List LockItem)) : List (Path × LockItem) :=
  locks.flatMap fun (p, items) => items.map (p, ·)

/-! ## Keys -/

def keys (locks : List (Path × List LockItem)) : List Path := locks.map Prod.fst

theorem keys_cons (e : Path × List LockItem) (rest : List (Path × List LockItem)) : keys (e :: rest) = e.1 :: keys rest := rfl

theorem keys_pushItem {path : Path} {lock : LockItem} : ∀ {locks : List (Path × List LockItem)},
    keys (pushItem path lock locks) = if path ∈ keys locks then keys locks else keys locks ++ [path]
  | [] => rfl
  | (p, items) :: rest => by
    rw [pushItem]
    by_cases hp : p = path
    · subst hp
      rw [if_pos rfl, keys_cons, keys_cons, if_pos mem_cons_self]
    · rw [if_neg hp, keys_cons, keys_cons, keys_pushItem]
      have hmem : path ∈ p :: keys rest ↔ path ∈ keys rest := by
        rw [mem_cons, or_iff_right (Ne.symm hp)]
      by_cases hrest : path ∈ keys rest
      · rw [if_pos hrest, if_pos (hmem.mpr hrest)]
      · rw [if_neg hrest, if_neg (mt hmem.mp hrest), cons_append]

variable {lock : LockItem} {locks : List (Path × List LockItem)}

theorem nodup_pushItem {path : Path} (h : (keys locks).Nodup) :
    (keys (pushItem path lock locks)).Nodup := by
  rw [keys_pushItem]
  split_ifs with hmem
  · exact h
  · exact nodup_append.mpr ⟨h, nodup_singleton _, fun p hp q hq => by
      obtain rfl := mem_singleton.mp hq
      exact fun heq => hmem (heq ▸ hp)⟩

theorem keys_updateItem {lockId : ℕ} {f : LockItem → LockItem} : ∀ {locks locks' : List (Path × List LockItem)},
    updateItem lockId f locks = some locks' → keys locks' = keys locks
  | [], _, h => by cases h
  | (p, items) :: rest, locks', h => by
    rw [updateItem] at h
    cases hfirst : updateFirst lockId f items with
    | some items' =>
      rw [hfirst] at h
      obtain rfl := some.inj h
      rfl
    | none =>
      rw [hfirst] at h
      obtain ⟨rest', hrest, rfl⟩ := map_eq_some_iff.mp h
      rw [keys_cons, keys_cons, keys_updateItem hrest]

theorem sublist_keys_removeItem {lockId : ℕ} : ∀ {locks locks' : List (Path × List LockItem)},
    removeItem lockId locks = some locks' → (keys locks').Sublist (keys locks)
  | [], _, h => by cases h
  | (p, items) :: rest, locks', h => by
    rw [removeItem] at h
    cases hidx : items.findIdx? (·.lockId == lockId) with
    | some i =>
      rw [hidx] at h
      obtain rfl := some.inj h
      split_ifs
      · exact sublist_cons_self _ _
      · exact List.Sublist.refl _
    | none =>
      rw [hidx] at h
      obtain ⟨rest', hrest, rfl⟩ := map_eq_some_iff.mp h
      exact (sublist_keys_removeItem hrest).cons_cons p

theorem sublist_keys_retainLive {now : ℕ} : (keys (retainLive now locks)).Sublist (keys locks) := by
  have h := (filter_sublist (p := fun e : Path × List LockItem => !e.2.isEmpty)
    (l := locks.map fun (p, items) => (p, items.filter fun lock => decide (now < lock.expires)))).map Prod.fst
  rwa [List.map_map] at h

namespace LockData

def empty : LockData := ⟨[], nodup_nil⟩

def push (data : LockData) (path : Path) (lock : LockItem) : LockData :=
  ⟨pushItem path lock data.locks, nodup_pushItem data.nodup⟩

def update (data : LockData) (lockId : ℕ) (f : LockItem → LockItem) : Option LockData :=
  (updateItem lockId f data.locks).attach.map fun locks =>
    ⟨locks.1, (congrArg List.Nodup (keys_updateItem locks.2)).mpr data.nodup⟩

def removeLock (data : LockData) (lockId : ℕ) : Option LockData :=
  (removeItem lockId data.locks).attach.map fun locks => ⟨locks.1, data.nodup.sublist (sublist_keys_removeItem locks.2)⟩

def removeExpired (data : LockData) (now : ℕ) : LockData :=
  ⟨retainLive now data.locks, data.nodup.sublist sublist_keys_retainLive⟩

def entries (data : LockData) : List (Path × LockItem) := entriesOf data.locks

/-- What `remove_expired` returns. -/
def maxExpire (data : LockData) : ℕ := (data.entries.map (·.2.expires)).foldr max 0

end LockData

/-! ## Entries -/

theorem entriesOf_cons (p : Path) (items : List LockItem) (rest : List (Path × List LockItem)) :
    entriesOf ((p, items) :: rest) = items.map (p, ·) ++ entriesOf rest := flatMap_cons

theorem entriesOf_pushItem {path : Path} : ∀ {locks : List (Path × List LockItem)},
    (entriesOf (pushItem path lock locks)).Perm ((path, lock) :: entriesOf locks)
  | [] => List.Perm.refl _
  | (p, items) :: rest => by
    rw [pushItem]
    split_ifs with hp
    · subst hp
      rw [entriesOf_cons, map_append, append_assoc]
      exact perm_middle
    · exact (entriesOf_pushItem.append_left _).trans perm_middle

theorem updateFirst_eq_some {lockId : ℕ} {f : LockItem → LockItem} : ∀ {items items' : List LockItem},
    updateFirst lockId f items = some items' →
      ∃ l₁ lock l₂, items = l₁ ++ lock :: l₂ ∧ lock.lockId = lockId ∧ items' = l₁ ++ f lock :: l₂
  | [], _, h => by cases h
  | item :: items, items', h => by
    rw [updateFirst] at h
    split_ifs at h with hid
    · obtain rfl := some.inj h
      exact ⟨[], item, items, rfl, hid, rfl⟩
    · obtain ⟨rest, hrest, rfl⟩ := map_eq_some_iff.mp h
      obtain ⟨l₁, lock, l₂, rfl, hlock, rfl⟩ := updateFirst_eq_some hrest
      exact ⟨item :: l₁, lock, l₂, rfl, hlock, rfl⟩

theorem entriesOf_updateItem {lockId : ℕ} {f : LockItem → LockItem} : ∀ {locks locks' : List (Path × List LockItem)},
    updateItem lockId f locks = some locks' →
      ∃ l₁ p lock l₂, entriesOf locks = l₁ ++ (p, lock) :: l₂ ∧ lock.lockId = lockId ∧
        entriesOf locks' = l₁ ++ (p, f lock) :: l₂
  | [], _, h => by cases h
  | (p, items) :: rest, locks', h => by
    rw [updateItem] at h
    cases hfirst : updateFirst lockId f items with
    | some items' =>
      rw [hfirst] at h
      obtain rfl := some.inj h
      obtain ⟨l₁, lock, l₂, rfl, hlock, rfl⟩ := updateFirst_eq_some hfirst
      refine ⟨l₁.map (p, ·), p, lock, l₂.map (p, ·) ++ entriesOf rest, ?_, hlock, ?_⟩
      · rw [entriesOf_cons, map_append, map_cons, append_assoc, cons_append]
      · rw [entriesOf_cons, map_append, map_cons, append_assoc, cons_append]
    | none =>
      rw [hfirst] at h
      obtain ⟨rest', hrest, rfl⟩ := map_eq_some_iff.mp h
      obtain ⟨l₁, q, lock, l₂, heq, hlock, heq'⟩ := entriesOf_updateItem hrest
      refine ⟨items.map (p, ·) ++ l₁, q, lock, l₂, ?_, hlock, ?_⟩
      · rw [entriesOf_cons, heq, append_assoc]
      · rw [entriesOf_cons, heq', append_assoc]

theorem entriesOf_removeItem {lockId : ℕ} : ∀ {locks locks' : List (Path × List LockItem)},
    removeItem lockId locks = some locks' →
      ∃ p lock, lock.lockId = lockId ∧ (entriesOf locks).Perm ((p, lock) :: entriesOf locks')
  | [], _, h => by cases h
  | (p, items) :: rest, locks', h => by
    rw [removeItem] at h
    cases hidx : items.findIdx? (·.lockId == lockId) with
    | some i =>
      rw [hidx] at h
      obtain rfl := some.inj h
      obtain ⟨hlt, hid, -⟩ := findIdx?_eq_some_iff_getElem.mp hidx
      have hperm := swapRemove_perm (getElem?_eq_getElem hlt)
      refine ⟨p, items[i], beq_iff_eq.mp hid, ?_⟩
      have hentries : entriesOf (if (swapRemove items i).isEmpty then rest else (p, swapRemove items i) :: rest) =
          (swapRemove items i).map (p, ·) ++ entriesOf rest := by
        split_ifs with hempty
        · rw [List.isEmpty_iff.mp hempty, map_nil, nil_append]
        · rw [entriesOf_cons]
      rw [hentries]
      exact (hperm.symm.map _).append_right _
    | none =>
      rw [hidx] at h
      obtain ⟨rest', hrest, rfl⟩ := map_eq_some_iff.mp h
      obtain ⟨q, lock, hid, hperm⟩ := entriesOf_removeItem hrest
      refine ⟨q, lock, hid, ?_⟩
      exact (hperm.append_left _).trans perm_middle

theorem entriesOf_retainLive {now : ℕ} : ∀ {locks : List (Path × List LockItem)},
    entriesOf (retainLive now locks) = (entriesOf locks).filter fun e => decide (now < e.2.expires)
  | [] => rfl
  | (p, items) :: rest => by
    have hhead : ((items.map ((p, ·) : LockItem → Path × LockItem)).filter fun e => decide (now < e.2.expires)) =
        (items.filter fun lock => decide (now < lock.expires)).map (p, ·) := List.filter_map
    rw [entriesOf_cons, filter_append, hhead, ← entriesOf_retainLive, retainLive, map_cons, filter_cons]
    split_ifs with hempty
    · exact entriesOf_cons ..
    · rw [Bool.not_eq_true, Bool.not_eq_false'] at hempty
      have hnone : (items.filter fun lock => decide (now < lock.expires)) = [] := List.isEmpty_iff.mp hempty
      rw [hnone]
      rfl

namespace LockData

variable {data data' : LockData} {path : Path} {lock : LockItem} {lockId now : ℕ}

theorem entries_push : (data.push path lock).entries.Perm ((path, lock) :: data.entries) := entriesOf_pushItem

theorem entries_update {f : LockItem → LockItem} (h : data.update lockId f = some data') :
    ∃ l₁ p lock l₂, data.entries = l₁ ++ (p, lock) :: l₂ ∧ lock.lockId = lockId ∧
      data'.entries = l₁ ++ (p, f lock) :: l₂ := by
  obtain ⟨locks, -, rfl⟩ := map_eq_some_iff.mp h
  exact entriesOf_updateItem locks.2

theorem entries_removeLock (h : data.removeLock lockId = some data') :
    ∃ p lock, lock.lockId = lockId ∧ data.entries.Perm ((p, lock) :: data'.entries) := by
  obtain ⟨locks, -, rfl⟩ := map_eq_some_iff.mp h
  exact entriesOf_removeItem locks.2

theorem entries_removeExpired :
    (data.removeExpired now).entries = data.entries.filter fun e => decide (now < e.2.expires) := entriesOf_retainLive

theorem mem_entries : (path, lock) ∈ data.entries ↔ lock ∈ data.get path := by
  rw [entries, entriesOf, mem_flatMap]
  constructor
  · rintro ⟨⟨p, items⟩, hmem, hlock⟩
    obtain ⟨l, hl, heq⟩ := List.mem_map.mp hlock
    obtain ⟨rfl, rfl⟩ := Prod.mk.inj heq
    rwa [get_eq_of_mem hmem]
  · intro h
    exact ⟨_, mem_of_mem_get h, List.mem_map.mpr ⟨lock, h, rfl⟩⟩

theorem le_maxExpire {e : Path × LockItem} (h : e ∈ data.entries) : e.2.expires ≤ data.maxExpire := by
  rw [maxExpire]
  revert h
  generalize data.entries = l
  induction l with
  | nil => exact fun h => absurd h not_mem_nil
  | cons x l ih =>
    intro h
    obtain rfl | h := mem_cons.mp h
    · exact Nat.le_max_left _ _
    · exact (ih h).trans (Nat.le_max_right _ _)

end LockData

/-! ## Requests -/

section

variable (config : GroupwareConfig) (accountId : ℕ) (collection : Collection) (request : Request)

def ownerTooLarge (owner : Option DeadProperty) : Bool := owner.any fun o => decide (config.deadPropertySize.getD 512 < o.size)

/-- The checks of a request against the record that it has read. -/
def checkRequest (server : DavServer) : Option LockData → Except LockError Unit
  | some data =>
    match validateHeaders server request.headers [.new accountId collection request.path] [⟨accountId, collection, data⟩]
        (match request.kind with
          | .unlock => .unlock
          | _ => .lock) with
    | .error e => .error (.headers e)
    | .ok _ =>
      match request.kind with
      | .lock exclusive owner =>
        let failed := (findLocks server.now data request.path true).filter fun (path, lock) =>
          request.conflicts exclusive path lock
        if !failed.isEmpty then
          .error (.locked (failed.map fun (path, _) => request.headers.baseUri.getD [] ++ '/' :: path))
        else if ownerTooLarge config owner then .error .payloadTooLarge
        else if 0 < config.maxLocksPerUser ∧
            config.maxLocksPerUser ≤ data.entries.countP fun e => e.2.owner == request.accountId then
          .error .tooManyRequests
        else .ok ()
      | _ => .ok ()
  | none =>
    match request.kind with
    | .unlock => .error .lockTokenMatchesRequestUri
    | _ =>
      match validateHeaders server request.headers [.new accountId collection request.path] [] .lock with
      | .error e => .error (.headers e)
      | .ok _ => .ok ()

/-- What a request makes of the lock that it has chosen: LOCK writes all of it, a refresh its expiry. -/
def Request.touch (expires lockId : ℕ) (lock : LockItem) : LockItem :=
  match request.kind with
  | .lock exclusive owner =>
    { lockId, owner := request.accountId, expires, depthInfinity := request.isInfinity, exclusive, ownerDav := owner }
  | _ => { lock with expires }

def Request.tooLarge : Bool :=
  match request.kind with
  | .lock _ owner => ownerTooLarge config owner
  | _ => false

/-- `LockItem::default`. -/
def LockItem.default : LockItem := ⟨0, 0, 0, false, false, none⟩

/-- A request that chooses a lock by its token, or else makes a new one, and changes it. -/
def Request.grant (expires lockId : ℕ) (data : LockData) : Except LockError (LockResponse × LockData) :=
  if 0 < request.ifLockToken then
    match data.entries.find? (·.2.lockId == request.ifLockToken),
      data.update request.ifLockToken (request.touch expires lockId) with
    | some (_, lock), some data =>
      if request.tooLarge config then .error .payloadTooLarge
      else .ok (.active false (request.touch expires lockId lock), data)
    | _, _ => .error .preconditionFailed
  else if request.tooLarge config then .error .payloadTooLarge
  else
    .ok (.active true (request.touch expires lockId .default), data.push request.path (request.touch expires lockId .default))

/-- The change of a record by a request that has been checked; `random` is the number that a new lock id is made from. -/
def applyRequest (now random : ℕ) (data : LockData) : Except LockError (LockResponse × LockData) :=
  match request.kind with
  | .unlock =>
    match request.headers.lockToken.bind parseLock with
    | none => .error .badRequest
    | some lockId =>
      match data.removeLock lockId with
      | some data => .ok (.noContent, data)
      | none => .error .lockTokenMatchesRequestUri
  | _ => request.grant config (now + request.timeout config) (random ^^^ (now + request.timeout config)) data

end

/-! ## Scopes -/

/-- The paths are the same, or one is below the other, whose lock has infinite depth. -/
def Overlaps (e e' : Path × LockItem) : Prop :=
  e.1 = e'.1 ∨ (e.2.depthInfinity = true ∧ e.1 ++ ['/'] <+: e'.1) ∨ (e'.2.depthInfinity = true ∧ e'.1 ++ ['/'] <+: e.1)

/-- Two locks may be there together. -/
def Compatible (e e' : Path × LockItem) : Prop :=
  e.2.exclusive = true ∨ e'.2.exclusive = true → ¬Overlaps e e'

theorem Overlaps.symm {e e' : Path × LockItem} (h : Overlaps e e') : Overlaps e' e := by
  obtain h | h | h := h
  · exact .inl h.symm
  · exact .inr (.inr h)
  · exact .inr (.inl h)

theorem Compatible.symm {e e' : Path × LockItem} (h : Compatible e e') : Compatible e' e :=
  fun hexclusive hoverlaps => h hexclusive.symm hoverlaps.symm

theorem length_lt_of_below {p q : Path} (h : p ++ ['/'] <+: q) : p.length < q.length := by
  have := h.length_le
  rw [length_append, length_singleton] at this
  omega

theorem compatible_of_not_conflicts {request : Request} {exclusive : Bool} {e : Path × LockItem}
    (hexclusive : lock.exclusive = exclusive) (hdepth : lock.depthInfinity = request.isInfinity)
    (htoken : e.2.lockId ≠ request.ifLockToken)
    (h : e.2.Covers e.1 request.path → request.conflicts exclusive e.1 e.2 = false) :
    Compatible (request.path, lock) e := by
  intro hany hoverlaps
  have hconflicts : e.2.Covers e.1 request.path ∧ request.conflicts exclusive e.1 e.2 = true := by
    have hhead : (request.ifLockToken != e.2.lockId && (e.2.exclusive || exclusive)) = true := by
      rw [Bool.and_eq_true_iff, bne_iff_ne, Bool.or_eq_true_iff, ← hexclusive]
      exact ⟨htoken.symm, hany.symm⟩
    rw [Request.conflicts, hhead, Bool.true_and]
    obtain heq | ⟨hinf, hbelow⟩ | ⟨hinf, hbelow⟩ := hoverlaps
    · refine ⟨.inl heq.symm, ?_⟩
      rw [← heq, beq_self_eq_true, Bool.true_or, Bool.true_or]
    · refine ⟨.inr (.inr hbelow), ?_⟩
      rw [← hdepth, hinf, decide_eq_true (length_lt_of_below hbelow), Bool.true_and, Bool.or_true]
    · refine ⟨.inr (.inl ⟨hinf, hbelow⟩), ?_⟩
      rw [hinf, decide_eq_true (length_lt_of_below hbelow), Bool.true_and, Bool.or_true, Bool.true_or]
  exact Bool.false_ne_true ((h hconflicts.1).symm.trans hconflicts.2)

section

variable {config : GroupwareConfig} {accountId : ℕ} {collection : Collection} {request : Request} {server : DavServer}
  {data : LockData} {exclusive : Bool} {owner : Option DeadProperty}

theorem not_conflicts_of_check (hkind : request.kind = .lock exclusive owner)
    (h : checkRequest config accountId collection request server (some data) = .ok ()) {e : Path × LockItem}
    (he : e ∈ data.entries) (hlive : server.now < e.2.expires) (hcovers : e.2.Covers e.1 request.path) :
    request.conflicts exclusive e.1 e.2 = false := by
  rw [checkRequest] at h
  split at h
  · cases h
  · rw [hkind] at h
    dsimp only at h
    split_ifs at h with hfailed
    rw [Bool.not_eq_true, Bool.not_eq_false', List.isEmpty_iff] at hfailed
    have hfound : e ∈ findLocks server.now data request.path true :=
      mem_findLocks.mpr ⟨LockData.mem_entries.1 he, hlive, hcovers⟩
    exact Bool.eq_false_iff.mpr (filter_eq_nil_iff.mp hfailed e hfound)

end

end MailServer.Dav.Locks
