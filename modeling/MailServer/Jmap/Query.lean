import MailServer.Jmap.Changes

/-!
# Pages of query results (`jmap/src/api/query.rs`)

The results of a query go one by one into the response, which takes those of the page that was asked for and says when
it has enough.

* `QueryResponseBuilder.addId`, `QueryResponseBuilder.build`: one result, and the response.
* `queryPage_ids`: without a position, an anchor or a limit the page is the first results.
-/

namespace MailServer.Jmap

open List

structure QueryRequest where
  accountId : UInt32
  position : Option ℤ
  anchor : Option UInt64
  anchorOffset : Option ℤ
  limit : Option ℕ
  calculateTotal : Option Bool

structure QueryResponse where
  accountId : UInt32
  queryState : State
  canCalculateChanges : Bool
  position : ℤ
  ids : List UInt64
  total : Option ℕ
  limit : Option ℕ

structure QueryResponseBuilder where
  requestedPosition : ℤ
  position : ℤ
  limit : ℕ
  anchor : UInt64
  anchorOffset : ℤ
  hasAnchor : Bool
  anchorFound : Bool
  response : QueryResponse

namespace QueryResponseBuilder

def new (totalResults maxResults : ℕ) (queryState : State) (request : QueryRequest) : QueryResponseBuilder :=
  let (limitTotal, limit) : ℕ × ℕ :=
    match request.limit with
    | some limit => if 0 < limit then (min (min limit maxResults) totalResults, min limit maxResults) else (0, 0)
    | none => (min maxResults totalResults, maxResults)
  { requestedPosition := request.position.getD 0
    position := request.position.getD 0
    limit := limitTotal
    hasAnchor := request.anchor.isSome
    anchor := request.anchor.getD 0
    anchorOffset := request.anchorOffset.getD 0
    anchorFound := false
    response :=
      { accountId := request.accountId
        queryState
        canCalculateChanges := true
        position := 0
        ids := []
        total := if request.calculateTotal.getD false then some totalResults else none
        limit := if totalResults > limit then some limit else none } }

/-- The id is part of the page. -/
def push (b : QueryResponseBuilder) (id : UInt64) : QueryResponseBuilder :=
  { b with response := { b.response with ids := b.response.ids ++ [id] } }

/-- The id is part of the page, which may be full then. -/
def pushChecked (b : QueryResponseBuilder) (id : UInt64) : Bool × QueryResponseBuilder :=
  let b := b.push id
  (!(b.response.ids.length = b.limit), b)

/-- `add_id`: false where the page has all it can have. -/
def addId (b : QueryResponseBuilder) (id : UInt64) : Bool × QueryResponseBuilder :=
  if !b.hasAnchor then
    if 0 ≤ b.position then
      if 0 < b.position then (true, { b with position := b.position - 1 }) else b.pushChecked id
    else (true, b.push id)
  else if 0 ≤ b.anchorOffset then
    if !b.anchorFound && id ≠ b.anchor then (true, b)
    else
      let b := { b with anchorFound := true }
      if 0 < b.anchorOffset then (true, { b with anchorOffset := b.anchorOffset - 1 }) else b.pushChecked id
  else
    let b := { b.push id with anchorFound := id = b.anchor }
    if b.anchorFound then (false, { b with position := b.anchorOffset }) else (true, b)

/-- The results go in until the page is full. -/
def addAll (b : QueryResponseBuilder) : List UInt64 → QueryResponseBuilder
  | [] => b
  | id :: ids =>
    match b.addId id with
    | (true, b) => b.addAll ids
    | (false, b) => b

/-- `build`: none where the anchor is not among the results. -/
def build (b : QueryResponseBuilder) : Option QueryResponse :=
  if !b.hasAnchor || b.anchorFound then
    some (
      if !b.hasAnchor && 0 ≤ b.requestedPosition then
        { b.response with position := if b.position = 0 then b.requestedPosition else 0 }
      else if 0 ≤ b.position then { b.response with position := b.position }
      else
        let position := b.position.natAbs
        let startOffset := if position < b.response.ids.length then b.response.ids.length - position else 0
        let endOffset :=
          if 0 < b.limit then min (startOffset + b.limit) b.response.ids.length else b.response.ids.length
        { b.response with
          position := startOffset
          ids := (b.response.ids.take endOffset).drop startOffset })
  else none

/-- A page from the first result on. -/
def Plain (b : QueryResponseBuilder) : Prop := b.hasAnchor = false ∧ b.position = 0 ∧ b.requestedPosition = 0

theorem addId_plain {b : QueryResponseBuilder} (hb : b.Plain) (id : UInt64) : b.addId id = b.pushChecked id := by
  obtain ⟨hanchor, hposition, -⟩ := hb
  simp [addId, hanchor, hposition]

theorem addAll_plain {b : QueryResponseBuilder} (hb : b.Plain) (ids : List UInt64) :
    (b.addAll ids).Plain ∧ (b.addAll ids).response.total = b.response.total ∧
      (b.addAll ids).response.ids = b.response.ids ++
        if b.response.ids.length < b.limit then ids.take (b.limit - b.response.ids.length) else ids := by
  induction ids generalizing b with
  | nil => exact ⟨hb, rfl, by rw [take_nil, ite_self, append_nil]; rfl⟩
  | cons id ids ih =>
    have hpush : (b.push id).Plain := hb
    have hids : (b.push id).response.ids = b.response.ids ++ [id] := rfl
    have hlen : (b.push id).response.ids.length = b.response.ids.length + 1 := by rw [hids, length_append]; rfl
    have hlimit : (b.push id).limit = b.limit := rfl
    rw [addAll, addId_plain hb, pushChecked]
    by_cases hfull : (b.push id).response.ids.length = b.limit
    · have hdec : (!decide ((b.push id).response.ids.length = (b.push id).limit)) = false := by
        rw [hlimit, hfull]
        simp
      rw [hdec]
      have hone : b.limit - b.response.ids.length = 1 := by omega
      refine ⟨hpush, rfl, ?_⟩
      rw [if_pos (by omega), hone]
      exact hids
    · have hdec : (!decide ((b.push id).response.ids.length = (b.push id).limit)) = true := by
        rw [hlimit]
        simpa using hfull
      rw [hdec]
      obtain ⟨h1, h2, h3⟩ := ih hpush
      refine ⟨h1, h2, h3.trans ?_⟩
      rw [hlen, hlimit, hids, append_assoc, singleton_append]
      by_cases hlt : b.response.ids.length < b.limit
      · have hrest : b.limit - b.response.ids.length = (b.limit - (b.response.ids.length + 1)) + 1 := by omega
        rw [if_pos hlt, if_pos (by omega), hrest, take_succ_cons]
      · rw [if_neg hlt, if_neg (by omega)]

end QueryResponseBuilder

/-- The page of a query: its results in order, and how many there are before threads are collapsed. -/
def queryPage (results : List UInt64) (totalResults maxResults : ℕ) (queryState : State) (request : QueryRequest) :
    Option QueryResponse :=
  ((QueryResponseBuilder.new totalResults maxResults queryState request).addAll results).build

/-- The request of a query for everything. -/
def QueryRequest.all (accountId : UInt32) (calculateTotal : Option Bool) : QueryRequest :=
  ⟨accountId, none, none, none, none, calculateTotal⟩

/-- **The page of a query for everything** ends with the greatest number of results, where there is one. -/
theorem queryPage_ids (maxResults : ℕ) {results : List UInt64} {totalResults : ℕ}
    (htotal : results.length ≤ totalResults) (queryState : State) (accountId : UInt32) (calculateTotal : Option Bool) :
    ∃ r, queryPage results totalResults maxResults queryState (.all accountId calculateTotal) = some r ∧
      r.ids = (if maxResults = 0 then results else results.take maxResults) ∧
      r.total = if calculateTotal.getD false then some totalResults else none := by
  set b := QueryResponseBuilder.new totalResults maxResults queryState (.all accountId calculateTotal) with hb
  have hplain : b.Plain := ⟨rfl, rfl, rfl⟩
  obtain ⟨⟨hanchor, hposition, hrequested⟩, htot, hids⟩ := b.addAll_plain hplain results
  refine ⟨{ (b.addAll results).response with position := 0 }, ?_, ?_, htot⟩
  · rw [queryPage, ← hb, QueryResponseBuilder.build]
    simp [hanchor, hrequested]
  · refine hids.trans ?_
    have hnil : b.response.ids = [] := rfl
    have hlimit : b.limit = min maxResults totalResults := rfl
    rw [hnil, nil_append, length_nil, Nat.sub_zero, hlimit]
    by_cases hmax : maxResults = 0
    · rw [if_neg (by omega), if_pos hmax]
    · rw [if_neg hmax]
      by_cases hempty : totalResults = 0
      · rw [if_neg (by omega), length_eq_zero_iff.mp (by omega : results.length = 0), take_nil]
      · rw [if_pos (by omega)]
        by_cases hle : maxResults ≤ totalResults
        · rw [min_eq_left hle]
        · rw [min_eq_right (by omega), take_of_length_le htotal, take_of_length_le (by omega)]

end MailServer.Jmap
