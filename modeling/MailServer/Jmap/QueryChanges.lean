import MailServer.Jmap.Client
import MailServer.Jmap.Query
import MailServer.Lib.Patch

/-!
# The `queryChanges` method (`jmap/src/changes/query.rs`)

A client that has the whole result of a query asks what it has to take out and to put in where.  The ids are those that
`changes` names; the places are those of the query as it is evaluated now, without a position or a limit.

* `queryChanges`: the method.
* `Patchable`: when the answer makes the new result of the old one.
* `patches_iff`: the answer makes the new result iff it is patchable.
-/

namespace MailServer.Jmap

open MailServer.Lib MailServer.Store.Query MailServer.Types List

inductive EmailFilter
  | inMailbox | inMailboxOtherThan | before | after | minSize | maxSize | allInThreadHaveKeyword
  | someInThreadHaveKeyword | noneInThreadHaveKeyword | hasKeyword | notKeyword | hasAttachment | «from» | «to» | cc | bcc
  | subject | body | header | text | sentBefore | sentAfter | inThread | id | unsupported
deriving DecidableEq

inductive Filter
  | property (f : EmailFilter) | and | or | not | close
deriving DecidableEq

inductive EmailComparator
  | receivedAt | size | «from» | «to» | subject | cc | sentAt | threadId | hasKeyword | allInThreadHaveKeyword
  | someInThreadHaveKeyword | unsupported
deriving DecidableEq

def EmailFilter.isImmutable : EmailFilter → Bool
  | before | after | minSize | maxSize | hasAttachment | «from» | «to» | cc | bcc | subject | body | header | text | id
  | sentBefore | sentAfter => true
  | _ => false

def Filter.isImmutable : Filter → Bool
  | property f => f.isImmutable
  | _ => true

def EmailComparator.isImmutable : EmailComparator → Bool
  | receivedAt | size | «from» | «to» | subject | cc | sentAt => true
  | _ => false

structure QueryChangesRequest where
  accountId : UInt32
  filter : List Filter
  sort : Option (List EmailComparator)
  sinceQueryState : State
  maxChanges : Option ℕ
  upToId : Option UInt64
  calculateTotal : Option Bool

structure AddedItem where
  id : UInt64
  index : ℕ
deriving DecidableEq

structure QueryChangesResponse where
  accountId : UInt32
  oldQueryState : State
  newQueryState : State
  total : Option ℕ
  removed : List UInt64
  added : List AddedItem

/-- Only the properties of messages are told apart. -/
def QueryChangesRequest.isMutable (request : QueryChangesRequest) : MethodObject → Bool
  | .email =>
    request.filter.any (fun f => !f.isImmutable) || request.sort.any fun sort => sort.any fun s => !s.isImmutable
  | _ => true

/-- `build_changes_request`. -/
def QueryChangesRequest.changes (request : QueryChangesRequest) : ChangesRequest :=
  ⟨request.accountId, request.sinceQueryState, request.maxChanges⟩

def ChangesResponse.hasChanges (r : ChangesResponse) : Bool :=
  !r.created.isEmpty || !r.updated.isEmpty || !r.destroyed.isEmpty

/-- The results that are reported, with their places, up to one that ends the loop. -/
def collectAdded (reported stop : UInt64 → Bool) : ℕ → List UInt64 → List AddedItem
  | _, [] => []
  | index, id :: ids =>
    let rest := if stop id then [] else collectAdded reported stop (index + 1) ids
    if reported id then ⟨id, index⟩ :: rest else rest

/-- The ids whose places are told. -/
def reported (isMutable : Bool) (changes : ChangesResponse) (id : UInt64) : Bool :=
  changes.created.contains id || (isMutable && changes.updated.contains id)

/-- `upToId` ends the loop where the order cannot change. -/
def stops (isMutable : Bool) (upToId : Option UInt64) (id : UInt64) : Bool := !isMutable && upToId = some id

/-- The ids that the client takes out. -/
def removed (isMutable : Bool) (changes : ChangesResponse) : List UInt64 :=
  (if isMutable then changes.updated else []) ++ changes.destroyed

/-- The answer to what changed, with the page of the query. -/
def queryChangesResponse (request : QueryChangesRequest) (isMutable : Bool) (changes : ChangesResponse)
    (results : QueryResponse) : QueryChangesResponse where
  accountId := request.accountId
  oldQueryState := changes.oldState
  newQueryState := changes.newState
  total := results.total
  removed := if changes.hasChanges then removed isMutable changes else []
  added :=
    if changes.hasChanges then
      collectAdded (reported isMutable changes) (stops isMutable request.upToId) 0 results.ids
    else []

/-- `query_changes` of an object of the account, whose query has `results` now, `totalResults` before threads are
collapsed. -/
def queryChanges (changesMaxResults queryMaxResults : ℕ) (log : Log) (cache : Option CacheIds)
    (request : QueryChangesRequest) (object : MethodObject) (results : List UInt64) (totalResults : ℕ) :
    Except Failure QueryChangesResponse := do
  let (changes, _) ← changes changesMaxResults log cache request.changes object
  let changes := changes.response
  if !changes.hasChanges && !request.calculateTotal.getD false then
    .ok ⟨request.accountId, changes.oldState, changes.newState, none, [], []⟩
  else
    match queryPage results totalResults queryMaxResults changes.newState (.all request.accountId request.calculateTotal) with
    | some results => .ok (queryChangesResponse request (request.isMutable object) changes results)
    | none => .error (.cannotCalculateChanges none)

/-- The results that are looked at. -/
def seen (stop : UInt64 → Bool) : List UInt64 → List UInt64
  | [] => []
  | id :: ids => id :: if stop id then [] else seen stop ids

section

variable {rep stop : UInt64 → Bool}

theorem mem_collectAdded {k i : ℕ} {x : UInt64} {ids : List UInt64} :
    ⟨x, i⟩ ∈ collectAdded rep stop k ids ↔ k ≤ i ∧ (seen stop ids)[i - k]? = some x ∧ rep x = true := by
  induction ids generalizing k with
  | nil => simp [collectAdded, seen]
  | cons id ids ih =>
    have hrest : (⟨x, i⟩ ∈ if stop id then [] else collectAdded rep stop (k + 1) ids) ↔
        k + 1 ≤ i ∧ (if stop id then [] else seen stop ids)[i - (k + 1)]? = some x ∧ rep x = true := by
      split_ifs
      · simp
      · exact ih
    have hplace : k ≤ i → k ≠ i → (seen stop (id :: ids))[i - k]? =
        (if stop id then [] else seen stop ids)[i - (k + 1)]? := by
      intro hle hne
      rw [seen, show i - k = (i - (k + 1)) + 1 by omega, getElem?_cons_succ]
    have hmem : ⟨x, i⟩ ∈ collectAdded rep stop k (id :: ids) ↔
        ((x, i) = (id, k) ∧ rep id = true) ∨ ⟨x, i⟩ ∈ if stop id then [] else collectAdded rep stop (k + 1) ids := by
      rw [collectAdded]
      by_cases hrep : rep id = true
      · simp [hrep]
      · simp [hrep]
    rw [hmem, hrest]
    by_cases hik : i = k
    · subst hik
      rw [Nat.sub_self]
      constructor
      · rintro (⟨heq, hrep⟩ | ⟨hlt, -⟩)
        · obtain ⟨rfl, -⟩ := Prod.mk.inj heq
          exact ⟨le_rfl, rfl, hrep⟩
        · omega
      · rintro ⟨-, heq, hrep⟩
        obtain rfl := Option.some.inj heq
        exact Or.inl ⟨rfl, hrep⟩
    · constructor
      · rintro (⟨heq, -⟩ | ⟨hlt, hget, hrep⟩)
        · exact absurd (Prod.mk.inj heq).2 hik
        · exact ⟨by omega, by rw [hplace (by omega) (Ne.symm hik)]; exact hget, hrep⟩
      · rintro ⟨hle, hget, hrep⟩
        exact Or.inr ⟨by omega, by rw [← hplace hle (Ne.symm hik)]; exact hget, hrep⟩

theorem pairwise_collectAdded (k : ℕ) (ids : List UInt64) :
    (collectAdded rep stop k ids).Pairwise (fun a b => a.index < b.index) ∧
      ∀ a ∈ collectAdded rep stop k ids, k ≤ a.index ∧ rep a.id = true := by
  have hbound : ∀ a ∈ collectAdded rep stop k ids, k ≤ a.index ∧ rep a.id = true := by
    intro a ha
    have hmem : (⟨a.id, a.index⟩ : AddedItem) ∈ collectAdded rep stop k ids := ha
    obtain ⟨hle, -, hrep⟩ := mem_collectAdded.1 hmem
    exact ⟨hle, hrep⟩
  refine ⟨?_, hbound⟩
  clear hbound
  induction ids generalizing k with
  | nil => exact List.Pairwise.nil
  | cons id ids ih =>
    have hrest : ((if stop id then [] else collectAdded rep stop (k + 1) ids).Pairwise
        fun a b => a.index < b.index) ∧
        ∀ a ∈ (if stop id then [] else collectAdded rep stop (k + 1) ids), k < a.index := by
      split_ifs
      · exact ⟨List.Pairwise.nil, fun a ha => absurd ha not_mem_nil⟩
      · refine ⟨ih (k + 1), fun a ha => ?_⟩
        have hmem : (⟨a.id, a.index⟩ : AddedItem) ∈ collectAdded rep stop (k + 1) ids := ha
        exact (mem_collectAdded.1 hmem).1
    rw [collectAdded]
    by_cases hrep : rep id = true
    · rw [if_pos hrep]
      exact pairwise_cons.mpr ⟨fun a ha => hrest.2 a ha, hrest.1⟩
    · rw [if_neg hrep]
      exact hrest.1

end

/-- The old result without what is removed, with what is added at its places; none where a place is beyond the end. -/
def QueryChangesResponse.patch (r : QueryChangesResponse) (old : List UInt64) : Option (List UInt64) :=
  insertAll (old.filter fun id => !r.removed.contains id) (r.added.map fun a => (a.id, a.index))

/-- The answer tells the difference between the results of the states: those that are reported are at the places where
the query has them among its first results now, and the others are those that are not removed. -/
structure Patchable (queryMaxResults : ℕ) (request : QueryChangesRequest) (isMutable : Bool) (results : List UInt64)
    (changes : ChangesResponse) (old new : List UInt64) : Prop where
  placed : ∀ (i : ℕ) (id : UInt64), reported isMutable changes id = true →
    ((seen (stops isMutable request.upToId)
        (if queryMaxResults = 0 then results else results.take queryMaxResults))[i]? = some id ↔ new[i]? = some id)
  kept : (old.filter fun id => !(removed isMutable changes).contains id) =
    new.filter fun id => !reported isMutable changes id

section

variable {changesMaxResults queryMaxResults : ℕ} {log : Log} {cache : Option CacheIds} {request : QueryChangesRequest}
  {object : MethodObject} {results : List UInt64} {totalResults : ℕ}

theorem collectAdded_of_none {rep stop : UInt64 → Bool} (h : ∀ id, rep id = false) (k : ℕ) (ids : List UInt64) :
    collectAdded rep stop k ids = [] := by
  refine eq_nil_iff_forall_not_mem.mpr fun a ha => ?_
  have hrep := ((pairwise_collectAdded k ids).2 a ha).2
  rw [h] at hrep
  exact Bool.false_ne_true hrep

theorem no_changes {c : ChangesResponse} (h : c.hasChanges = false) (isMutable : Bool) :
    (∀ id, reported isMutable c id = false) ∧ removed isMutable c = [] := by
  simp only [ChangesResponse.hasChanges, Bool.or_eq_false_iff, Bool.not_eq_false', List.isEmpty_iff] at h
  obtain ⟨⟨hcreated, hupdated⟩, hdestroyed⟩ := h
  constructor
  · intro id
    rw [reported, hcreated, hupdated]
    simp
  · rw [removed, hupdated, hdestroyed, ite_self, nil_append]

/-- **What is answered.** -/
theorem queryChanges_eq (queryMaxResults : ℕ) (htotal : results.length ≤ totalResults) {c : IntermediateChangesResponse}
    {cache' : Option CacheIds} (hc : changes changesMaxResults log cache request.changes object = .ok (c, cache')) :
    ∃ r, queryChanges changesMaxResults queryMaxResults log cache request object results totalResults = .ok r ∧
      r.newQueryState = c.response.newState ∧ r.removed = removed (request.isMutable object) c.response ∧
      r.added = collectAdded (reported (request.isMutable object) c.response)
        (stops (request.isMutable object) request.upToId) 0
        (if queryMaxResults = 0 then results else results.take queryMaxResults) := by
  obtain ⟨p, hp, hids, -⟩ := queryPage_ids queryMaxResults htotal c.response.newState request.accountId
    request.calculateTotal
  have hrun : queryChanges changesMaxResults queryMaxResults log cache request object results totalResults =
      if !c.response.hasChanges && !request.calculateTotal.getD false then
        .ok ⟨request.accountId, c.response.oldState, c.response.newState, none, [], []⟩
      else .ok (queryChangesResponse request (request.isMutable object) c.response p) := by
    rw [queryChanges, hc]
    dsimp only [bind, Except.bind]
    rw [hp]
  rw [hrun]
  cases hhas : c.response.hasChanges with
  | false =>
    obtain ⟨hreported, hremoved⟩ := no_changes hhas (request.isMutable object)
    rw [hremoved, collectAdded_of_none hreported]
    split_ifs with hcalc
    · exact ⟨_, rfl, rfl, rfl, rfl⟩
    · refine ⟨_, rfl, rfl, ?_, ?_⟩
      · rw [queryChangesResponse, hhas]
        rfl
      · rw [queryChangesResponse, hhas]
        rfl
  | true =>
    refine ⟨_, rfl, rfl, ?_, ?_⟩
    · rw [queryChangesResponse, hhas]
      rfl
    · rw [queryChangesResponse, hhas, ← hids]
      rfl

/-- The old result, patched with the answer, is the result at the new state. -/
def Patches (changesMaxResults queryMaxResults : ℕ) (log : Log) (cache : Option CacheIds) (request : QueryChangesRequest)
    (object : MethodObject) (results : List UInt64) (totalResults : ℕ) (listAt : State → List UInt64) : Prop :=
  ∀ r, queryChanges changesMaxResults queryMaxResults log cache request object results totalResults = .ok r →
    r.patch (listAt request.sinceQueryState) = some (listAt r.newQueryState)

/-- **The answer makes the new result of the old one iff it tells their difference.** -/
theorem patches_iff (changesMaxResults queryMaxResults : ℕ) (log : Log) (cache : Option CacheIds)
    (request : QueryChangesRequest) (object : MethodObject) (results : List UInt64) (totalResults : ℕ)
    (listAt : State → List UInt64) (htotal : results.length ≤ totalResults)
    (hnew : ∀ c cache', changes changesMaxResults log cache request.changes object = .ok (c, cache') →
      ∀ id ∈ c.response.created, id ∉ listAt request.sinceQueryState) :
    Patches changesMaxResults queryMaxResults log cache request object results totalResults listAt ↔
      ∀ c cache', changes changesMaxResults log cache request.changes object = .ok (c, cache') →
        Patchable queryMaxResults request (request.isMutable object) results c.response
          (listAt request.sinceQueryState) (listAt c.response.newState) := by
  have hstep : ∀ c cache', changes changesMaxResults log cache request.changes object = .ok (c, cache') →
      ∀ r, queryChanges changesMaxResults queryMaxResults log cache request object results totalResults = .ok r →
        (r.patch (listAt request.sinceQueryState) = some (listAt r.newQueryState) ↔
          Patchable queryMaxResults request (request.isMutable object) results c.response
            (listAt request.sinceQueryState) (listAt c.response.newState)) := by
    intro c cache' hc r hr
    obtain ⟨r', hr', hstate, hremoved, hadded⟩ := queryChanges_eq queryMaxResults htotal hc
    obtain rfl := Except.ok.inj (hr.symm.trans hr')
    set isMutable := request.isMutable object
    set page := if queryMaxResults = 0 then results else results.take queryMaxResults
    have hkept : ∀ x ∈ (listAt request.sinceQueryState).filter fun id => !r.removed.contains id,
        reported isMutable c.response x = false := by
      intro x hx
      obtain ⟨hold, hnot⟩ := mem_filter.mp hx
      have hcreated : x ∉ c.response.created := fun hin => hnew c cache' hc x hin hold
      rw [hremoved] at hnot
      simp only [removed, Bool.not_eq_true', contains_eq_mem, decide_eq_false_iff_not, mem_append,
        not_or] at hnot
      rw [reported]
      cases hm : isMutable with
      | false => simpa using hcreated
      | true =>
        rw [hm] at hnot
        simpa [hcreated] using hnot.1
    have hsorted : (r.added.map fun a => (a.id, a.index)).Pairwise fun a b => a.2 < b.2 := by
      rw [pairwise_map, hadded]
      exact (pairwise_collectAdded 0 page).1
    have hreported : ∀ a ∈ r.added.map fun a => (a.id, a.index), reported isMutable c.response a.1 = true := by
      intro a ha
      obtain ⟨b, hb, rfl⟩ := mem_map.mp ha
      rw [hadded] at hb
      exact ((pairwise_collectAdded 0 page).2 b hb).2
    have hplaces : ∀ i id, ((id, i) ∈ r.added.map fun a => (a.id, a.index)) ↔
        (seen (stops isMutable request.upToId) page)[i]? = some id ∧ reported isMutable c.response id = true := by
      intro i id
      have hmem := @mem_collectAdded (reported isMutable c.response) (stops isMutable request.upToId) 0 i id page
      rw [← hadded] at hmem
      constructor
      · intro h
        obtain ⟨⟨id', i'⟩, hb, heq⟩ := mem_map.mp h
        obtain ⟨rfl, rfl⟩ := Prod.mk.inj heq
        exact (hmem.mp hb).2
      · intro h
        exact mem_map.mpr ⟨⟨id, i⟩, hmem.mpr ⟨Nat.zero_le i, h⟩, rfl⟩
    rw [QueryChangesResponse.patch, insertAll_eq_some hsorted hreported hkept, hstate, hremoved]
    constructor
    · rintro ⟨hplaced, hrest⟩
      refine ⟨fun i id hid => ?_, hrest⟩
      rw [← hplaced i id hid, hplaces]
      exact (and_iff_left hid).symm
    · rintro ⟨hplaced, hrest⟩
      refine ⟨fun i id hid => ?_, hrest⟩
      rw [← hplaced i id hid, hplaces]
      exact and_iff_left hid
  constructor
  · intro h c cache' hc
    obtain ⟨r, hr, -⟩ := queryChanges_eq queryMaxResults htotal hc
    exact (hstep c cache' hc r hr).mp (h r hr)
  · intro h r hr
    cases hc : changes changesMaxResults log cache request.changes object with
    | error e =>
      rw [queryChanges, hc] at hr
      exact absurd hr nofun
    | ok c => exact (hstep c.1 c.2 hc r hr).mpr (h c.1 c.2 hc)

end

theorem seen_of_no_stop {stop : UInt64 → Bool} (h : ∀ id, stop id = false) (ids : List UInt64) : seen stop ids = ids := by
  induction ids with
  | nil => rfl
  | cons id ids ih => rw [seen, h id, if_neg Bool.false_ne_true, ih]

/-- Where the page has all results, and the loop over it does not end early, the answer to a client that is told of all
changes is right iff an object that is not reported keeps its place among the others. -/
theorem patchable_iff_kept {queryMaxResults : ℕ} {request : QueryChangesRequest} {isMutable : Bool}
    {results old : List UInt64} {changes : ChangesResponse}
    (hfits : queryMaxResults = 0 ∨ results.length ≤ queryMaxResults) (hstop : isMutable = true ∨ request.upToId = none) :
    Patchable queryMaxResults request isMutable results changes old results ↔
      (old.filter fun id => !(removed isMutable changes).contains id) =
        results.filter fun id => !reported isMutable changes id := by
  have hpage : (if queryMaxResults = 0 then results else results.take queryMaxResults) = results := by
    rcases hfits with h | h
    · rw [if_pos h]
    · rw [take_of_length_le h, ite_self]
  have hseen : seen (stops isMutable request.upToId) results = results := by
    refine seen_of_no_stop (fun id => ?_) results
    rcases hstop with h | h
    · rw [h]
      rfl
    · rw [stops, h]
      simp
  refine ⟨Patchable.kept, fun h => ⟨fun i id _ => ?_, h⟩⟩
  rw [hpage, hseen]

section

/-- Two messages were submitted. -/
def submissions : Log := [first.entry, second.entry]

theorem changes_submissions : submissions.changes false (.since 1) = .ok ⟨[.insertItem 2], 2, 2, none, some 2, false⟩ := by
  have hsecond : Changes.visit false false 1 { (default : Changes) with fromChangeId := 1, toChangeId := 1 } second.entry =
      .ok (Changes.add { (default : Changes) with fromChangeId := 1, toChangeId := 1 } second) :=
    visit_entry _ second (.inr (by decide))
  show List.foldlM (Changes.visit false false 1) { (default : Changes) with fromChangeId := 1, toChangeId := 1 }
    [second.entry] = _
  rw [foldlM_cons, hsecond, add_second rfl]
  rfl

/-- A client that knows the first submission asks. -/
def sinceFirst : QueryChangesRequest := ⟨0, [], none, .exact 1, none, none, none⟩

theorem changes_sinceFirst : changes 500 submissions none sinceFirst.changes .emailSubmission =
    .ok (⟨⟨0, .exact 1, .exact 2, false, [2], [], []⟩, .emailSubmission, false⟩, none) := by
  have hlookup : lookup submissions .emailSubmission (.since 1) =
      .ok ⟨[.insertItem 2], 2, 2, none, some 2, false⟩ := by
    unfold lookup
    have hshare : decide (SyncCollection.emailSubmission = .shareNotification) = false := rfl
    rw [hshare, changes_submissions]
  unfold changes
  simp only [MethodObject.collection, sinceFirst, QueryChangesRequest.changes, hlookup]
  rfl

/-- The submissions at a state. -/
def submissionsAt (state : State) : List UInt64 := if state = .exact 2 then [1, 2] else [1]

theorem fresh_submissions : ∀ c cache', changes 500 submissions none sinceFirst.changes .emailSubmission =
    .ok (c, cache') → ∀ id ∈ c.response.created, id ∉ submissionsAt sinceFirst.sinceQueryState := by
  intro c cache' hc id hid
  rw [changes_sinceFirst] at hc
  obtain ⟨rfl, -⟩ := Prod.mk.inj (Except.ok.inj hc)
  obtain rfl : id = 2 := mem_singleton.mp hid
  exact mt mem_singleton.mp (by decide)

theorem patches_submissions :
    Patches 500 5000 submissions none sinceFirst .emailSubmission [1, 2] 2 submissionsAt := by
  refine (patches_iff 500 5000 submissions none sinceFirst .emailSubmission [1, 2] 2 submissionsAt (by decide)
    fresh_submissions).mpr fun c cache' hc => ?_
  rw [changes_sinceFirst] at hc
  obtain ⟨rfl, -⟩ := Prod.mk.inj (Except.ok.inj hc)
  exact (patchable_iff_kept (Or.inr (by decide)) (Or.inl rfl)).mpr (by decide)

/-- The second submission comes after the last result that a query may have: the client is not told of it. -/
theorem not_patches_beyond : ¬ ∀ (changesMaxResults queryMaxResults : ℕ) (log : Log) (cache : Option CacheIds)
    (request : QueryChangesRequest) (object : MethodObject) (results : List UInt64) (totalResults : ℕ)
    (listAt : State → List UInt64), results.length ≤ totalResults →
    (∀ c cache', changes changesMaxResults log cache request.changes object = .ok (c, cache') →
      (∀ id ∈ c.response.created, id ∉ listAt request.sinceQueryState) ∧
        (c.response.hasMoreChanges = false → listAt c.response.newState = results)) →
    Patches changesMaxResults queryMaxResults log cache request object results totalResults listAt := by
  intro h
  have hp := h 500 1 submissions none sinceFirst .emailSubmission [1, 2] 2 submissionsAt (by decide) (by
    intro c cache' hc
    refine ⟨fresh_submissions c cache' hc, fun _ => ?_⟩
    rw [changes_sinceFirst] at hc
    obtain ⟨rfl, -⟩ := Prod.mk.inj (Except.ok.inj hc)
    rfl)
  have htotal : [(1 : UInt64), 2].length ≤ 2 := by decide
  obtain ⟨r, hr, hstate, hremoved, hadded⟩ := queryChanges_eq 1 htotal changes_sinceFirst
  have hpatch := hp r hr
  rw [QueryChangesResponse.patch, hstate, hremoved, hadded] at hpatch
  revert hpatch
  decide

end

end MailServer.Jmap
