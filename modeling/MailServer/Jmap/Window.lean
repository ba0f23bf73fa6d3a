import MailServer.Jmap.Query
import Mathlib.Tactic.Linarith

/-!
# Windows of query results (`jmap/src/api/query.rs`)

A request asks for a window of the results: from a position on, which counts from the end where it is negative, or
from a distance before or behind an anchor, and of a greatest length.

* `queryWindow`: the response, with its position as a number of 32 bits.
* `Prescribed`: the response that is asked for.
* `Served`: the requests that get it.
-/

namespace MailServer.Jmap

open List QueryResponseBuilder

namespace QueryResponseBuilder

/-! ## What the builder takes -/

def withIds (b : QueryResponseBuilder) (ids : List UInt64) : QueryResponseBuilder :=
  { b with response := { b.response with ids } }

/-- What there is after further results: all of them where the builder had its limit before. -/
def fill (limit : ℕ) (taken ids : List UInt64) : List UInt64 :=
  taken ++ if taken.length < limit then ids.take (limit - taken.length) else ids

theorem fill_nil (limit : ℕ) (ids : List UInt64) : fill limit [] ids = if 0 < limit then ids.take limit else ids := by
  rw [fill, nil_append, length_nil, Nat.sub_zero]

variable {ids : List UInt64} {b : QueryResponseBuilder}

theorem fill_eq_take_iff {limit total : ℕ} (h : ids.length ≤ total) :
    fill (min limit total) [] ids = ids.take limit ↔ 0 < limit ∨ ids = [] := by
  rw [fill_nil]
  by_cases hlimit : 0 < limit
  · refine iff_of_true ?_ (Or.inl hlimit)
    by_cases htotal : 0 < total
    · rw [if_pos (by omega)]
      by_cases hle : limit ≤ total
      · rw [min_eq_left hle]
      · rw [min_eq_right (by omega), take_of_length_le h, take_of_length_le (by omega)]
    · rw [if_neg (by omega), eq_nil_of_length_eq_zero (by omega : ids.length = 0), take_nil]
  · rw [show limit = 0 by omega]
    exact ⟨Or.inr, fun h => h.resolve_left (Nat.lt_irrefl 0)⟩

theorem fill_eq_nil_iff {limit : ℕ} : fill limit [] ids = [] ↔ ids = [] := by
  rw [fill_nil]
  split_ifs with hlimit
  · rw [take_eq_nil_iff]
    exact or_iff_right (by omega)
  · exact Iff.rfl

/-- From now on each result is taken until the page is full. -/
def Filling (b : QueryResponseBuilder) : Prop := ∀ ids id, (b.withIds ids).addId id = (b.withIds ids).pushChecked id

theorem addAll_filling (hb : b.Filling) (ids : List UInt64) :
    ∀ taken, (b.withIds taken).addAll ids = b.withIds (fill b.limit taken ids) := by
  induction ids with
  | nil =>
    intro taken
    rw [fill, take_nil, ite_self, append_nil]
    rfl
  | cons id ids ih =>
    intro taken
    rw [addAll, hb]
    have hchecked : (b.withIds taken).pushChecked id =
        (!decide ((taken ++ [id]).length = b.limit), b.withIds (taken ++ [id])) := rfl
    rw [hchecked]
    have hlen : (taken ++ [id]).length = taken.length + 1 := by rw [length_append, length_singleton]
    by_cases hfull : (taken ++ [id]).length = b.limit
    · rw [decide_eq_true hfull]
      have hone : b.limit - taken.length = 1 := by omega
      rw [fill, if_pos (by omega), hone]
      rfl
    · rw [decide_eq_false hfull]
      refine (ih (taken ++ [id])).trans (congrArg b.withIds ?_)
      unfold fill
      rw [hlen, append_assoc, singleton_append]
      by_cases hlt : taken.length < b.limit
      · have hrest : b.limit - taken.length = (b.limit - (taken.length + 1)) + 1 := by omega
        rw [if_pos hlt, if_pos (by omega), hrest, take_succ_cons]
      · rw [if_neg hlt, if_neg (by omega)]

/-- A builder that skips a result as long as a count of it is not down to zero. -/
theorem addAll_countdown {c : ℕ → QueryResponseBuilder} (hstep : ∀ n id, (c (n + 1)).addId id = (true, c n))
    (ids : List UInt64) : ∀ n, (c n).addAll ids = (c (n - ids.length)).addAll (ids.drop n) := by
  induction ids with
  | nil =>
    intro n
    rw [drop_nil, length_nil, Nat.sub_zero]
  | cons id ids ih =>
    intro n
    cases n with
    | zero => rw [drop_zero, Nat.zero_sub]
    | succ n =>
      rw [addAll, hstep]
      refine (ih n).trans ?_
      rw [drop_succ_cons, length_cons, Nat.add_sub_add_right]

theorem addAll_position (hanchor : b.hasAnchor = false) (ids : List UInt64) :
    ∀ position : ℕ, ({ b with position := (position : ℤ) } : QueryResponseBuilder).addAll ids =
        ({ b with position := ((position - ids.length : ℕ) : ℤ) } : QueryResponseBuilder).addAll
          (ids.drop position) :=
  addAll_countdown (c := fun n => { b with position := (n : ℤ) })
    (fun n _ => by simp [addId, hanchor, show (0 : ℤ) ≤ (n : ℤ) + 1 by omega]) ids

theorem addAll_negative (hanchor : b.hasAnchor = false) (hposition : b.position < 0)
    (ids : List UInt64) : ∀ taken, (b.withIds taken).addAll ids = b.withIds (taken ++ ids) := by
  induction ids with
  | nil =>
    intro taken
    rw [append_nil]
    rfl
  | cons id ids ih =>
    intro taken
    have hstep : (b.withIds taken).addId id = (true, b.withIds (taken ++ [id])) := by
      simp [addId, withIds, push, hanchor, show ¬ 0 ≤ b.position by omega]
    rw [addAll, hstep]
    refine (ih (taken ++ [id])).trans ?_
    rw [append_assoc, singleton_append]

section

variable {b : QueryResponseBuilder} (hanchor : b.hasAnchor = true)
include hanchor

theorem addAll_offset (hfound : b.anchorFound = true) (ids : List UInt64) :
    ∀ offset : ℕ, ({ b with anchorOffset := (offset : ℤ) } : QueryResponseBuilder).addAll ids =
        ({ b with anchorOffset := ((offset - ids.length : ℕ) : ℤ) } : QueryResponseBuilder).addAll
          (ids.drop offset) :=
  addAll_countdown (c := fun n => { b with anchorOffset := (n : ℤ) })
    (fun n _ => by simp [addId, hanchor, hfound, show (0 : ℤ) ≤ (n : ℤ) + 1 by omega]) ids

theorem addAll_anchor (hoffset : 0 ≤ b.anchorOffset) (hfound : b.anchorFound = false) (ids : List UInt64) :
    b.addAll ids = match ids.idxOf? b.anchor with
      | none => b
      | some k => ({ b with anchorFound := true } : QueryResponseBuilder).addAll (ids.drop k) := by
  induction ids with
  | nil => rfl
  | cons id ids ih =>
    rw [idxOf?_cons]
    by_cases hid : id = b.anchor
    · subst hid
      rw [beq_self_eq_true]
      have hstep : b.addId b.anchor = ({ b with anchorFound := true } : QueryResponseBuilder).addId b.anchor := by
        simp [addId, hanchor, hoffset]
      show b.addAll (b.anchor :: ids) = ({ b with anchorFound := true } : QueryResponseBuilder).addAll (b.anchor :: ids)
      rw [addAll, addAll, hstep]
    · rw [beq_eq_false_iff_ne.mpr hid]
      have hstep : b.addId id = (true, b) := by simp [addId, hanchor, hoffset, hfound, hid]
      rw [addAll, hstep]
      refine ih.trans ?_
      cases ids.idxOf? b.anchor with
      | none => rfl
      | some k => rfl

theorem addAll_before (hoffset : b.anchorOffset < 0) (hfound : b.anchorFound = false) (ids : List UInt64) :
    ∀ taken, (b.withIds taken).addAll ids = match ids.idxOf? b.anchor with
      | none => b.withIds (taken ++ ids)
      | some k => { b.withIds (taken ++ ids.take (k + 1)) with anchorFound := true, position := b.anchorOffset } := by
  induction ids with
  | nil =>
    intro taken
    rw [append_nil]
    rfl
  | cons id ids ih =>
    intro taken
    rw [idxOf?_cons]
    by_cases hid : id = b.anchor
    · subst hid
      rw [beq_self_eq_true]
      have hstep : (b.withIds taken).addId b.anchor =
          (false, { b.withIds (taken ++ [b.anchor]) with anchorFound := true, position := b.anchorOffset }) := by
        simp [addId, withIds, push, hanchor, show ¬ 0 ≤ b.anchorOffset by omega]
      rw [addAll, hstep]
      rfl
    · rw [beq_eq_false_iff_ne.mpr hid]
      have hstep : (b.withIds taken).addId id = (true, b.withIds (taken ++ [id])) := by
        simp [addId, withIds, push, hanchor, hid, hfound, show ¬ 0 ≤ b.anchorOffset by omega]
      rw [addAll, hstep]
      refine (ih (taken ++ [id])).trans ?_
      cases ids.idxOf? b.anchor with
      | none => simp
      | some k => simp

end

end QueryResponseBuilder

/-! ## The window that is asked for -/

/-- A number as one of 32 bits with a sign. -/
def asI32 (x : ℤ) : ℤ := Int.bmod x 0x100000000

theorem asI32_eq_self_iff {x : ℤ} : asI32 x = x ↔ -0x80000000 ≤ x ∧ x < 0x80000000 := by
  unfold asI32 Int.bmod
  dsimp only
  split_ifs <;> omega

theorem asI32_succ_ne (x : ℤ) : asI32 (x + 1) ≠ x := by
  unfold asI32 Int.bmod
  dsimp only
  split_ifs <;> omega

/-- `QueryResponseBuilder` over all results: `build` gives a position of 32 bits. -/
def queryWindow (results : List UInt64) (totalResults maxResults : ℕ) (queryState : State) (request : QueryRequest) :
    Option QueryResponse :=
  (queryPage results totalResults maxResults queryState request).map fun r => { r with position := asI32 r.position }

/-- The greatest number of results of a page. -/
def pageLimit (maxResults : ℕ) (request : QueryRequest) : ℕ :=
  match request.limit with
  | some limit => min limit maxResults
  | none => maxResults

/-- The index of the first result that is asked for, where the anchor is among the results. -/
def windowStart (results : List UInt64) (request : QueryRequest) : Option ℕ :=
  match request.anchor with
  | none => some (
      if 0 ≤ request.position.getD 0 then (request.position.getD 0).toNat
      else (results.length + request.position.getD 0).toNat)
  | some anchor => (results.idxOf? anchor).map fun k => (k + request.anchorOffset.getD 0).toNat

/-- The response is the window that is asked for, or there is none since the anchor is not found. -/
def Prescribed (results : List UInt64) (maxResults : ℕ) (request : QueryRequest) (answer : Option QueryResponse) :
    Prop :=
  match windowStart results request with
  | none => answer = none
  | some start => ∃ r, answer = some r ∧ r.ids = (results.drop start).take (pageLimit maxResults request) ∧
      (r.ids ≠ [] → r.position = start)

/-- A page has room for a result, and from an anchor on: the requested position is that of the first result, and no
result before the anchor is asked for, or only results up to the anchor from the first one on. -/
def Served (results : List UInt64) (maxResults : ℕ) (request : QueryRequest) : Prop :=
  let position := request.position.getD 0
  let offset := request.anchorOffset.getD 0
  let limit := pageLimit maxResults request
  match request.anchor with
  | none =>
    if 0 ≤ position then 0 < limit ∨ results.length ≤ position
    else results.length = 0 ∨ 0 < limit ∧ results.length + position < 0x80000000
  | some anchor =>
    match results.idxOf? anchor with
    | none => True
    | some k =>
      if 0 ≤ offset then
        results.length ≤ k + offset ∨ 0 < limit ∧
          (0 ≤ position ∧ position = k + offset ∨
            position < 0 ∧ k + offset = 0 ∧ (min results.length limit : ℕ) ≤ -position)
      else k < -offset ∧ 0 < limit ∧ (limit ≤ k + 1 ∨ results.length = k + 1)

/-! ## The windows that there are -/

namespace QueryResponseBuilder

theorem build_cut {b : QueryResponseBuilder} (hdone : b.hasAnchor = false ∨ b.anchorFound = true)
    (hrequested : b.hasAnchor = true ∨ b.requestedPosition < 0) (hposition : b.position < 0) :
    ∃ r, b.build = some r ∧
      r.ids = fill b.limit [] (b.response.ids.drop (b.response.ids.length - b.position.natAbs)) ∧
      r.position = (b.response.ids.length - b.position.natAbs : ℕ) := by
  set start := b.response.ids.length - b.position.natAbs
  have hbuild : b.build = some { b.response with
      position := start
      ids := (b.response.ids.take
        (if 0 < b.limit then min (start + b.limit) b.response.ids.length else b.response.ids.length)).drop start } := by
    have hcond : (!b.hasAnchor || b.anchorFound) = true := by simpa using hdone
    have hbranch : ¬ (!b.hasAnchor && decide (0 ≤ b.requestedPosition)) = true := by
      simp
      intro hanchor
      exact hrequested.resolve_left (by rw [hanchor]; decide)
    have hsame : (if b.position.natAbs < b.response.ids.length then b.response.ids.length - b.position.natAbs else 0) =
        start := by
      split_ifs <;> omega
    rw [build, if_pos hcond, if_neg hbranch, if_neg (by omega)]
    simp [hsame]
  refine ⟨_, hbuild, ?_, rfl⟩
  rw [fill_nil, drop_take]
  split_ifs with hlimit
  · by_cases hle : start + b.limit ≤ b.response.ids.length
    · rw [min_eq_left hle, Nat.add_sub_cancel_left]
    · rw [min_eq_right (by omega), take_of_length_le (by rw [length_drop]),
        take_of_length_le (by rw [length_drop]; omega)]
  · exact take_of_length_le (by rw [length_drop])

end QueryResponseBuilder

section

variable {results : List UInt64} {totalResults maxResults : ℕ} (queryState : State) {request : QueryRequest}

theorem new_limit : (new totalResults maxResults queryState request).limit =
    min (pageLimit maxResults request) totalResults := by
  unfold new pageLimit
  cases request.limit with
  | none => rfl
  | some limit =>
    by_cases hlimit : 0 < limit
    · simp [hlimit]
    · simp [show limit = 0 by omega]

variable {b : QueryResponseBuilder}

theorem filling_position (hanchor : b.hasAnchor = false) (hposition : b.position = 0) :
    b.Filling := by
  intro ids id
  simp [addId, withIds, hanchor, hposition]

theorem filling_anchor (hanchor : b.hasAnchor = true) (hfound : b.anchorFound = true)
    (hoffset : b.anchorOffset = 0) : b.Filling := by
  intro ids id
  cases b
  subst hanchor hfound hoffset
  rfl

theorem queryPage_position (hanchor : request.anchor = none) (hposition : 0 ≤ request.position.getD 0) :
    ∃ r, queryPage results totalResults maxResults queryState request = some r ∧
      r.ids = fill (min (pageLimit maxResults request) totalResults) []
        (results.drop (request.position.getD 0).toNat) ∧
      ((request.position.getD 0).toNat ≤ results.length → r.position = request.position.getD 0) := by
  set b := new totalResults maxResults queryState request
  set p := (request.position.getD 0).toNat
  have hhas : b.hasAnchor = false := congrArg Option.isSome hanchor
  have hstart : ({ b with position := (p : ℤ) } : QueryResponseBuilder) = b := by
    rw [Int.toNat_of_nonneg hposition]
    rfl
  have hall := addAll_position hhas results p
  rw [hstart] at hall
  have hbuild : ∀ c : QueryResponseBuilder, c.hasAnchor = false → c.requestedPosition = request.position.getD 0 →
      c.build = some { c.response with position := if c.position = 0 then request.position.getD 0 else 0 } := by
    intro c hc hrequested
    simp [build, hc, hrequested, hposition]
  by_cases hle : p ≤ results.length
  · rw [Nat.sub_eq_zero_of_le hle] at hall
    have hfill : b.addAll results = ({ b with position := 0 } : QueryResponseBuilder).withIds
        (fill b.limit [] (results.drop p)) :=
      hall.trans (addAll_filling
        (@filling_position ({ b with position := 0 } : QueryResponseBuilder) hhas rfl) _ [])
    refine ⟨_, (congrArg build hfill).trans (hbuild _ hhas rfl), ?_, fun _ => rfl⟩
    rw [← new_limit queryState]
    rfl
  · rw [drop_eq_nil_of_le (by omega)] at hall ⊢
    refine ⟨_, (congrArg build hall).trans (hbuild _ hhas rfl), ?_, fun h => absurd h hle⟩
    rw [fill_eq_nil_iff.2 rfl]
    rfl

theorem queryPage_negative (hanchor : request.anchor = none) (hposition : request.position.getD 0 < 0) :
    ∃ r, queryPage results totalResults maxResults queryState request = some r ∧
      r.ids = fill (min (pageLimit maxResults request) totalResults) []
        (results.drop (results.length - (request.position.getD 0).natAbs)) ∧
      r.position = (results.length - (request.position.getD 0).natAbs : ℕ) := by
  set b := new totalResults maxResults queryState request
  have hhas : b.hasAnchor = false := congrArg Option.isSome hanchor
  have hall : b.addAll results = b.withIds results := b.addAll_negative hhas hposition results []
  obtain ⟨r, hr, hids, hpos⟩ := @build_cut (b.withIds results) (Or.inl hhas) (Or.inr hposition)
    hposition
  refine ⟨r, ?_, ?_, hpos⟩
  · rw [queryPage, hall]
    exact hr
  · rw [← new_limit queryState]
    exact hids

section

variable {anchor : UInt64} {k : ℕ} (hanchor : request.anchor = some anchor)
include hanchor

theorem queryPage_missing (hmissing : results.idxOf? anchor = none) :
    queryPage results totalResults maxResults queryState request = none := by
  set b := new totalResults maxResults queryState request
  have hhas : b.hasAnchor = true := congrArg Option.isSome hanchor
  have hindex : results.idxOf? b.anchor = none := by
    rwa [show b.anchor = anchor from congrArg (Option.getD · 0) hanchor]
  have hnone : ∀ c : QueryResponseBuilder, c.hasAnchor = true → c.anchorFound = false → c.build = none := by
    intro c hc hfound
    simp [build, hc, hfound]
  rw [queryPage]
  by_cases hoffset : 0 ≤ b.anchorOffset
  · have hall := addAll_anchor hhas hoffset rfl results
    rw [hindex] at hall
    rw [hall]
    exact hnone b hhas rfl
  · have hall := addAll_before hhas (by omega) rfl results []
    rw [hindex] at hall
    rw [show b.addAll results = _ from hall]
    exact hnone _ hhas rfl

variable (hfound : results.idxOf? anchor = some k)
include hfound

/-- Where the window starts behind the anchor or with it, the builder has its results after the last one, and keeps the
position that was requested. -/
theorem addAll_behind (hoffset : 0 ≤ request.anchorOffset.getD 0) :
    ∃ c : QueryResponseBuilder,
      (new totalResults maxResults queryState request).addAll results = c ∧
      c.response.ids = fill (min (pageLimit maxResults request) totalResults) []
        (results.drop (k + (request.anchorOffset.getD 0).toNat)) ∧
      c.hasAnchor = true ∧ c.anchorFound = true ∧ c.position = request.position.getD 0 ∧
      c.limit = min (pageLimit maxResults request) totalResults := by
  set b := new totalResults maxResults queryState request
  set o := (request.anchorOffset.getD 0).toNat
  have hhas : b.hasAnchor = true := congrArg Option.isSome hanchor
  have hindex : results.idxOf? b.anchor = some k := by
    rwa [show b.anchor = anchor from congrArg (Option.getD · 0) hanchor]
  have hall := addAll_anchor hhas hoffset rfl results
  rw [hindex] at hall
  have hbehind := @addAll_offset { b with anchorFound := true } hhas rfl (results.drop k) o
  rw [Int.toNat_of_nonneg hoffset, drop_drop] at hbehind
  have hboth := hall.trans hbehind
  by_cases hle : o ≤ (results.drop k).length
  · rw [Nat.sub_eq_zero_of_le hle] at hboth
    refine ⟨_, hboth.trans (addAll_filling
      (@filling_anchor ({ b with anchorOffset := 0, anchorFound := true } : QueryResponseBuilder) hhas rfl rfl) _ []),
      ?_, hhas, rfl, rfl, new_limit queryState⟩
    rw [← new_limit queryState]
    rfl
  · have hnil : results.drop (k + o) = [] := by
      rw [← drop_drop]
      exact drop_eq_nil_of_le (by omega)
    rw [hnil] at hboth ⊢
    refine ⟨_, hboth, ?_, hhas, rfl, rfl, new_limit queryState⟩
    rw [fill_eq_nil_iff.2 rfl]
    rfl

theorem queryPage_ahead (hoffset : request.anchorOffset.getD 0 < 0) :
    ∃ r, queryPage results totalResults maxResults queryState request = some r ∧
      r.ids = fill (min (pageLimit maxResults request) totalResults) []
        ((results.take (k + 1)).drop ((results.take (k + 1)).length - (request.anchorOffset.getD 0).natAbs)) ∧
      r.position = ((results.take (k + 1)).length - (request.anchorOffset.getD 0).natAbs : ℕ) := by
  set b := new totalResults maxResults queryState request
  have hhas : b.hasAnchor = true := congrArg Option.isSome hanchor
  have hindex : results.idxOf? b.anchor = some k := by
    rwa [show b.anchor = anchor from congrArg (Option.getD · 0) hanchor]
  have hall := addAll_before hhas hoffset rfl results []
  rw [hindex] at hall
  obtain ⟨r, hr, hids, hpos⟩ := @build_cut
    { b.withIds (results.take (k + 1)) with anchorFound := true, position := b.anchorOffset } (Or.inr rfl) (Or.inl hhas)
    hoffset
  refine ⟨r, (congrArg build hall).trans hr, ?_, hpos⟩
  rw [← new_limit queryState]
  exact hids

end

theorem prescribed_iff {start : ℕ} {r : QueryResponse} (hstart : windowStart results request = some start)
    (hr : queryPage results totalResults maxResults queryState request = some r) :
    Prescribed results maxResults request (queryWindow results totalResults maxResults queryState request) ↔
      r.ids = (results.drop start).take (pageLimit maxResults request) ∧ (r.ids ≠ [] → asI32 r.position = start) := by
  unfold Prescribed queryWindow
  rw [hstart, hr]
  constructor
  · rintro ⟨_, hsome, hids, hpos⟩
    obtain rfl := Option.some.inj hsome
    exact ⟨hids, hpos⟩
  · rintro ⟨hids, hpos⟩
    exact ⟨_, rfl, hids, hpos⟩

/-! ## When the window is the one that is asked for -/

open QueryResponseBuilder

theorem prescribed_position (htotal : results.length ≤ totalResults) (hanchor : request.anchor = none)
    (hposition : 0 ≤ request.position.getD 0) (hrange : request.position.getD 0 < 0x80000000) :
    Prescribed results maxResults request (queryWindow results totalResults maxResults queryState request) ↔
      0 < pageLimit maxResults request ∨ results.length ≤ request.position.getD 0 := by
  obtain ⟨r, hr, hids, hpos⟩ := queryPage_position queryState hanchor hposition
  set p := (request.position.getD 0).toNat with hp
  have hstart : windowStart results request = some p := by
    rw [windowStart, hanchor]
    simp [hposition, hp]
  rw [prescribed_iff queryState hstart hr, hids, fill_eq_take_iff (by rw [length_drop]; omega), ne_eq,
    fill_eq_nil_iff, drop_eq_nil_iff]
  have hindex : ¬ results.length ≤ p → asI32 r.position = p := by
    intro hlt
    rw [asI32_eq_self_iff.2 (by omega)]
    omega
  rw [and_iff_left hindex]
  exact or_congr_right (by omega)

theorem prescribed_negative (htotal : results.length ≤ totalResults) (hanchor : request.anchor = none)
    (hposition : request.position.getD 0 < 0) :
    Prescribed results maxResults request (queryWindow results totalResults maxResults queryState request) ↔
      results.length = 0 ∨
        0 < pageLimit maxResults request ∧ results.length + request.position.getD 0 < 0x80000000 := by
  obtain ⟨r, hr, hids, hpos⟩ := queryPage_negative queryState hanchor hposition
  set start := results.length - (request.position.getD 0).natAbs
  have hstart : windowStart results request = some start := by
    rw [windowStart, hanchor]
    simp only [if_neg (show ¬ 0 ≤ request.position.getD 0 by omega)]
    exact congrArg some (by omega)
  rw [prescribed_iff queryState hstart hr, hids, fill_eq_take_iff (by rw [length_drop]; omega), ne_eq,
    fill_eq_nil_iff, drop_eq_nil_iff, hpos, asI32_eq_self_iff]
  omega

section

variable {anchor : UInt64} {k : ℕ} (hanchor : request.anchor = some anchor) (hfound : results.idxOf? anchor = some k)
include hanchor hfound

theorem windowStart_found : windowStart results request = some (k + request.anchorOffset.getD 0).toNat := by
  rw [windowStart, hanchor]
  simp [hfound]

theorem prescribed_behind (htotal : results.length ≤ totalResults) (hoffset : 0 ≤ request.anchorOffset.getD 0)
    (hposition : 0 ≤ request.position.getD 0) (hrange : request.position.getD 0 < 0x80000000) :
    Prescribed results maxResults request (queryWindow results totalResults maxResults queryState request) ↔
      results.length ≤ k + request.anchorOffset.getD 0 ∨
        0 < pageLimit maxResults request ∧ request.position.getD 0 = k + request.anchorOffset.getD 0 := by
  obtain ⟨c, hall, hids, hhas, hdone, hpos, hlimit⟩ :=
    @addAll_behind results totalResults maxResults queryState request anchor k hanchor hfound hoffset
  set o := (request.anchorOffset.getD 0).toNat
  have hbuild : c.build = some { c.response with position := c.position } := by
    simp [build, hhas, hdone, hpos, hposition]
  have hpage : queryPage results totalResults maxResults queryState request =
      some { c.response with position := c.position } := (congrArg build hall).trans hbuild
  have hstart : windowStart results request = some (k + o) :=
    (windowStart_found hanchor hfound).trans (congrArg some (by omega))
  rw [prescribed_iff queryState hstart hpage]
  show c.response.ids = _ ∧ (c.response.ids ≠ [] → asI32 c.position = _) ↔ _
  rw [hids, fill_eq_take_iff (by rw [length_drop]; omega), ne_eq, fill_eq_nil_iff, drop_eq_nil_iff, asI32_eq_self_iff.2 (by omega)]
  omega

theorem prescribed_cut (htotal : results.length ≤ totalResults) (hoffset : 0 ≤ request.anchorOffset.getD 0)
    (hposition : request.position.getD 0 < 0) :
    Prescribed results maxResults request (queryWindow results totalResults maxResults queryState request) ↔
      results.length ≤ k + request.anchorOffset.getD 0 ∨
        0 < pageLimit maxResults request ∧ k + request.anchorOffset.getD 0 = 0 ∧
          (min results.length (pageLimit maxResults request) : ℕ) ≤ -request.position.getD 0 := by
  obtain ⟨c, hall, htaken, hhas, hdone, hpos, hlimit⟩ :=
    @addAll_behind results totalResults maxResults queryState request anchor k hanchor hfound hoffset
  set o := (request.anchorOffset.getD 0).toNat
  obtain ⟨r, hr, hids, hposr⟩ := @build_cut c (Or.inr hdone) (Or.inl hhas) (by omega)
  have hstart : windowStart results request = some (k + o) :=
    (windowStart_found hanchor hfound).trans (congrArg some (by omega))
  rw [prescribed_iff queryState hstart ((congrArg build hall).trans hr), hposr]
  set taken := c.response.ids
  set p := c.position.natAbs
  set limit := pageLimit maxResults request
  rw [hlimit] at hids
  have hlen : (results.drop (k + o)).length = results.length - (k + o) := length_drop
  have htakenLen : taken.length ≤ totalResults := by
    rw [htaken, fill_nil]
    split_ifs with h
    · rw [length_take]
      omega
    · omega
  have hidsNil : r.ids = [] ↔ taken = [] := by
    rw [hids, fill_eq_nil_iff, drop_eq_nil_iff]
    constructor
    · intro h
      exact eq_nil_of_length_eq_zero (by omega)
    · intro h
      rw [h]
      exact Nat.zero_le _
  by_cases hbehind : results.length ≤ k + o
  · have hnil : taken = [] := by
      rw [htaken, fill_eq_nil_iff, drop_eq_nil_iff]
      exact hbehind
    refine iff_of_true ⟨?_, fun h => absurd (hidsNil.mpr hnil) h⟩ (Or.inl (by omega))
    rw [hidsNil.mpr hnil, drop_eq_nil_of_le hbehind, take_nil]
  have hne : taken ≠ [] := by
    rw [htaken, ne_eq, fill_eq_nil_iff, drop_eq_nil_iff]
    exact hbehind
  by_cases hroom : 0 < limit
  · have hfull : taken = (results.drop (k + o)).take limit := by
      rw [htaken]
      exact (fill_eq_take_iff (by omega)).mpr (Or.inl hroom)
    have hcut : r.ids = taken.drop (taken.length - p) := by
      rw [hids, (fill_eq_take_iff (by rw [length_drop]; omega)).mpr (Or.inl hroom)]
      refine take_of_length_le ?_
      rw [length_drop, hfull, length_take]
      omega
    have hmin : taken.length = min limit (results.length - (k + o)) := by rw [hfull, length_take, hlen]
    have hsame : r.ids = (results.drop (k + o)).take limit ↔ taken.length ≤ p := by
      rw [← hfull, hcut]
      constructor
      · intro h
        have hdrop := congrArg List.length h
        rw [length_drop] at hdrop
        omega
      · intro h
        rw [Nat.sub_eq_zero_of_le h, drop_zero]
    rw [hsame, forall_prop_of_true (mt hidsNil.mp hne)]
    constructor
    · rintro ⟨hle, hindex⟩
      rw [Nat.sub_eq_zero_of_le hle] at hindex
      have hzero : asI32 (0 : ℕ) = 0 := rfl
      exact Or.inr ⟨hroom, by omega, by omega⟩
    · rintro (h | ⟨-, hfirst, hle⟩)
      · exact absurd h (by omega)
      · have hshort : taken.length ≤ p := by omega
        refine ⟨hshort, ?_⟩
        rw [Nat.sub_eq_zero_of_le hshort, show k + o = 0 by omega]
        rfl
  · refine iff_of_false ?_ (by omega)
    rintro ⟨h, -⟩
    rw [show limit = 0 by omega] at h
    exact hne (hidsNil.mp h)

theorem prescribed_ahead (htotal : results.length ≤ totalResults) (hoffset : request.anchorOffset.getD 0 < 0) :
    Prescribed results maxResults request (queryWindow results totalResults maxResults queryState request) ↔
      k < -request.anchorOffset.getD 0 ∧ 0 < pageLimit maxResults request ∧
        (pageLimit maxResults request ≤ k + 1 ∨ results.length = k + 1) := by
  obtain ⟨r, hr, hids, hposr⟩ := queryPage_ahead queryState hanchor hfound hoffset
  rw [prescribed_iff queryState (windowStart_found hanchor hfound) hr, hposr]
  set limit := pageLimit maxResults request
  set o := (request.anchorOffset.getD 0).natAbs
  have hk : k < results.length := by
    obtain ⟨h, -⟩ := findIdx?_eq_some_iff_getElem.mp hfound
    exact h
  have hlen : (results.take (k + 1)).length = k + 1 := by
    rw [length_take]
    omega
  rw [hlen] at hids ⊢
  have hne : r.ids ≠ [] := by
    rw [hids, ne_eq, fill_eq_nil_iff, drop_eq_nil_iff]
    omega
  rw [forall_prop_of_true hne]
  by_cases hfar : k < o
  · rw [show k + 1 - o = 0 by omega, show (k + request.anchorOffset.getD 0).toNat = 0 by omega, drop_zero]
    rw [show k + 1 - o = 0 by omega, drop_zero] at hids
    have hzero : asI32 (0 : ℕ) = (0 : ℕ) := rfl
    rw [and_iff_left hzero, and_iff_right (by omega), hids]
    by_cases hroom : 0 < limit
    · rw [(fill_eq_take_iff (by omega)).mpr (Or.inl hroom), take_take, and_iff_right hroom]
      constructor
      · intro h
        have htake := congrArg List.length h
        rw [length_take, length_take] at htake
        omega
      · rintro (h | h)
        · rw [min_eq_left h]
        · by_cases hle : limit ≤ k + 1
          · rw [min_eq_left hle]
          · rw [take_of_length_le (by omega), take_of_length_le (by omega)]
    · refine iff_of_false ?_ (fun h => hroom h.1)
      rw [← hids, show limit = 0 by omega]
      exact hne
  · refine iff_of_false ?_ (by omega)
    rintro ⟨-, hindex⟩
    rw [show ((k + 1 - o : ℕ) : ℤ) = ((k + request.anchorOffset.getD 0).toNat : ℤ) + 1 by omega] at hindex
    exact asI32_succ_ne _ hindex

end

/-- **Where a page has room for a result, the builder answers with the window that is asked for** if there is no anchor
or the anchor is not found, and otherwise where the window starts at the position that was requested too, or with the
first result and ends no later than with the anchor. -/
theorem queryWindow_iff (htotal : results.length ≤ totalResults) (hposition : request.position.getD 0 < 0x80000000) :
    Prescribed results maxResults request (queryWindow results totalResults maxResults queryState request) ↔
      Served results maxResults request := by
  unfold Served
  cases hanchor : request.anchor with
  | none =>
    dsimp only
    split_ifs with hp
    · exact prescribed_position queryState htotal hanchor hp hposition
    · exact prescribed_negative queryState htotal hanchor (by omega)
  | some anchor =>
    dsimp only
    cases hfound : results.idxOf? anchor with
    | none =>
      refine iff_of_true ?_ trivial
      have hstart : windowStart results request = none := by
        rw [windowStart, hanchor]
        simp [hfound]
      unfold Prescribed queryWindow
      rw [hstart, queryPage_missing queryState hanchor hfound]
      rfl
    | some k =>
      split_ifs with ho
      · by_cases hp : 0 ≤ request.position.getD 0
        · rw [prescribed_behind queryState hanchor hfound htotal ho hp hposition]
          omega
        · rw [prescribed_cut queryState hanchor hfound htotal ho (by omega)]
          omega
      · exact prescribed_ahead queryState hanchor hfound htotal (by omega)

end

/-- The requests of the windows of `[10, 11, 12, 13]`. -/
def sampleWindow (position : ℤ) (anchor : Option UInt64) (anchorOffset : ℤ) (limit : Option ℕ) : QueryRequest :=
  ⟨1, some position, anchor, some anchorOffset, limit, none⟩

theorem queryWindow_last_two :
    Prescribed [10, 11, 12, 13] 100 (sampleWindow (-2) none 0 (some 5))
      (queryWindow [10, 11, 12, 13] 4 100 .initial (sampleWindow (-2) none 0 (some 5))) :=
  (queryWindow_iff .initial (by decide) (by decide)).mpr (by simp [Served, sampleWindow, pageLimit])

/-- The window that starts one result before an anchor starts with the anchor and ends with it; the one that starts with
the anchor is said to start with the first result; and a page of no results has all of them. -/
theorem queryWindow_not_prescribed :
    ((queryWindow [10, 11, 12, 13] 4 100 .initial (sampleWindow 0 (some 12) (-1) none)).map fun r =>
        (r.position, r.ids)) = some (2, [12]) ∧
      ((queryWindow [10, 11, 12, 13] 4 100 .initial (sampleWindow 0 (some 12) 0 none)).map fun r =>
        (r.position, r.ids)) = some (0, [12, 13]) ∧
      ((queryWindow [10, 11, 12, 13] 4 100 .initial (sampleWindow 0 none 0 (some 0))).map fun r =>
        (r.position, r.ids)) = some (0, [10, 11, 12, 13]) ∧
      ¬ ∀ (results : List UInt64) (totalResults maxResults : ℕ) (queryState : State) (request : QueryRequest),
        results.length ≤ totalResults → request.position.getD 0 < 0x80000000 →
          Prescribed results maxResults request (queryWindow results totalResults maxResults queryState request) := by
  refine ⟨by decide, by decide, by decide, fun hall => ?_⟩
  obtain ⟨r, hr, hids, -⟩ := hall [10, 11, 12, 13] 4 100 .initial (sampleWindow 0 (some 12) (-1) none) (by decide)
    (by decide)
  have htaken : (queryWindow [10, 11, 12, 13] 4 100 .initial (sampleWindow 0 (some 12) (-1) none)).map
      QueryResponse.ids = some [12] := by decide
  rw [hr] at htaken
  obtain htaken : r.ids = [12] := Option.some.inj htaken
  rw [htaken] at hids
  exact absurd hids (by decide)

end MailServer.Jmap
