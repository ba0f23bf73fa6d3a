import MailServer.Store.Query.Net
import MailServer.Trc

/-!
# A range of the change log (`Store::changes`)

The log of an account and collection is a list of entries by change id.  An empty value marks the place
where the log was cut.

* `Log.changes`: the changes of a range, with the ids of its first and last entries.
* `Stored`: an entry whose value was written for it.
* `Changes.add`: what a stored entry adds to the changes read so far.
-/

namespace MailServer.Store.Query

open MailServer.Lib MailServer.Utils MailServer.Store.Write List

/-- The entries of one account and collection, oldest first. -/
abbrev Log := List (ℕ × List UInt8)

/-- `Query`. -/
inductive LogQuery where
  | all
  | since (changeId : ℕ)
  | sinceInclusive (changeId : ℕ)
  | rangeInclusive (fromChangeId toChangeId : ℕ)
  deriving DecidableEq

def u64Max : ℕ := 2 ^ 64 - 1

/-- `(is_inclusive, from_change_id, to_change_id)`. -/
def LogQuery.bounds : LogQuery → Bool × ℕ × ℕ
  | all => (true, 0, u64Max)
  | since changeId => (false, changeId, u64Max)
  | sinceInclusive changeId => (true, changeId, u64Max)
  | rangeInclusive fromChangeId toChangeId => (true, fromChangeId, toChangeId)

/-- The body of the iteration over the entries of a range. -/
def Changes.visit (isShareLog isInclusive : Bool) (fromChangeId : ℕ) (c : Changes)
    (entry : ℕ × List UInt8) : Except Trc.Error Changes :=
  let (changeId, value) := entry
  if isInclusive || changeId != fromChangeId then
    if value.isEmpty then .ok { c with isTruncated := true }
    else
      let c := if c.changes.isEmpty then { c with fromChangeId := changeId } else c
      let c := { c with toChangeId := changeId }
      if isShareLog then .ok { c with changes := c.changes ++ [.insertItem (UInt64.ofNat changeId)] }
      else
        match c.deserialize value with
        | none => .error ⟨.dataCorruption, ""⟩
        | some (c, hasContainerChanges, hasItemChanges) =>
          let c := if hasContainerChanges then { c with containerChangeId := some changeId } else c
          .ok (if hasItemChanges then { c with itemChangeId := some changeId } else c)
  else .ok { c with fromChangeId := changeId, toChangeId := changeId }

open Changes

namespace Log

/-- The entries between two change ids, both included. -/
def range (log : Log) (fromChangeId toChangeId : ℕ) : Log :=
  log.filter fun e => fromChangeId ≤ e.1 ∧ e.1 ≤ toChangeId

/-- `Store::changes`. -/
def changes (log : Log) (isShareLog : Bool) (query : LogQuery) : Except Trc.Error Changes :=
  let (isInclusive, fromChangeId, toChangeId) := query.bounds
  (log.range fromChangeId toChangeId).foldlM (visit isShareLog isInclusive fromChangeId) default

/-- `Store::get_last_change_id`. -/
def getLastChangeId (log : Log) : Option ℕ := log.getLast?.map Prod.fst

end Log

namespace Changes

def totalContainerChanges (c : Changes) : ℕ := (c.changes.filter Change.isContainerChange).length

def totalItemChanges (c : Changes) : ℕ := (c.changes.filter Change.isItemChange).length

end Changes

/-! ## Stored entries -/

/-- What is logged under one change id: a batch, or a share notification. -/
inductive Content where
  | sync (batch : Entry)
  | share (notification : List UInt8) (ne_nil : notification ≠ [])

def Content.isShare : Content → Bool
  | sync _ => false
  | share _ _ => true

def Content.value : Content → List UInt8
  | sync batch => batch.bytes
  | share notification _ => notification

/-- An entry of a log. -/
structure Stored (isShareLog : Bool) where
  id : ℕ
  content : Content
  pos : 0 < id
  le : id ≤ u64Max
  isShare : content.isShare = isShareLog

open Stored

namespace Stored

variable {share : Bool} (e : Stored share)

def entry : ℕ × List UInt8 := (e.id, e.content.value)

/-- The changes announced with an entry: a share notification is a new item. -/
def log : List LogChange :=
  match e.content with
  | .sync batch => batch.log
  | .share _ _ => [.insertItem (UInt64.ofNat e.id)]

/-- The changes read so far, with those of an entry. -/
def absorb (l : List Change) : List Change :=
  match e.content with
  | .sync batch => Query.absorb batch.containers batch.items l (ofLog batch.log)
  | .share _ _ => l ++ [.insertItem (UInt64.ofNat e.id)]

/-- The entry counts container changes or item changes. -/
def hasChanges (isContainer : Bool) : Bool :=
  match e.content with
  | .sync batch =>
    if isContainer then (ofLog batch.log).hasContainerChanges
    else (ofLog batch.log).hasItemChanges
  | .share _ _ => false

theorem value_ne_nil : e.content.value ≠ [] := by
  rcases hc : e.content with batch | ⟨notification, hne⟩
  · intro hnil
    have hlength : 0 < (leb128 (ofLog batch.log).containerInserts.card).length := by
      rw [leb128]
      split_ifs <;> simp
    have := congrArg List.length hnil
    simp only [Content.value, Entry.bytes, Write.Changes.serialize, length_append,
      length_nil] at this
    omega
  · exact hne

end Stored

/-- What a stored entry adds. -/
def Changes.add {share : Bool} (c : Changes) (e : Stored share) : Changes where
  changes := e.absorb c.changes
  fromChangeId := if c.changes.isEmpty then e.id else c.fromChangeId
  toChangeId := e.id
  containerChangeId := if e.hasChanges true then some e.id else c.containerChangeId
  itemChangeId := if e.hasChanges false then some e.id else c.itemChangeId
  isTruncated := c.isTruncated

variable {share : Bool} {fromChangeId : ℕ}

/-- **A visit of a stored entry** adds its changes. -/
theorem visit_entry {isInclusive : Bool} (c : Changes) (e : Stored share)
    (h : isInclusive = true ∨ e.id ≠ fromChangeId) :
    c.visit share isInclusive fromChangeId e.entry = .ok (c.add e) := by
  have hvisited : (isInclusive || e.id != fromChangeId) = true := by
    rcases h with h | h
    · simp [h]
    · simp [h]
  have hvalue : e.content.value.isEmpty = false := by
    rw [isEmpty_eq_false_iff]
    exact e.value_ne_nil
  unfold visit
  simp only [Stored.entry, hvisited, hvalue]
  have hshare := e.isShare
  rcases hc : e.content with batch | ⟨notification, hne⟩
  · rw [hc] at hshare
    obtain rfl : share = false := hshare.symm
    simp only [Content.value, Entry.bytes, deserialize_serialize _ _ _ batch.fits]
    cases c with
    | mk changes fromId toId container item truncated =>
      cases changes <;> cases h1 : (ofLog batch.log).hasContainerChanges <;>
        cases h2 : (ofLog batch.log).hasItemChanges <;>
        simp [add, Stored.absorb, Stored.hasChanges, hc, h1, h2]
  · rw [hc] at hshare
    obtain rfl : share = true := hshare.symm
    cases c with
    | mk changes fromId toId container item truncated =>
      cases changes <;> simp [add, Stored.absorb, Stored.hasChanges, hc]

/-- Adding stored entries one after the other. -/
def Changes.addAll {share : Bool} (c : Changes) (es : List (Stored share)) : Changes :=
  es.foldl add c

theorem Changes.addAll_concat (c : Changes) (es : List (Stored share)) (e : Stored share) :
    c.addAll (es ++ [e]) = (c.addAll es).add e :=
  foldl_concat _ _ _ _

theorem Changes.isTruncated_addAll (c : Changes) (es : List (Stored share)) :
    (c.addAll es).isTruncated = c.isTruncated := by
  induction es using List.reverseRecOn with
  | nil => rfl
  | append_singleton es e ih =>
    rw [addAll_concat]
    exact ih

theorem foldlM_visit {isInclusive : Bool} (c : Changes) (es : List (Stored share))
    (h : isInclusive = true ∨ ∀ e ∈ es, e.id ≠ fromChangeId) :
    (es.map entry).foldlM (visit share isInclusive fromChangeId) c =
      .ok (c.addAll es) := by
  induction es generalizing c with
  | nil => rfl
  | cons e es ih =>
    have hhead : isInclusive = true ∨ e.id ≠ fromChangeId :=
      h.imp_right fun hne => hne e mem_cons_self
    have htail : isInclusive = true ∨ ∀ e ∈ es, e.id ≠ fromChangeId :=
      h.imp_right fun hne e' he' => hne e' (mem_cons_of_mem _ he')
    rw [map_cons, foldlM_cons, visit_entry c e hhead]
    exact ih (c.add e) htail

/-! ## A log that was cut -/

section

variable {share : Bool}

/-- Change ids grow. -/
def Ascending (h : List (Stored share)) : Prop := h.Pairwise fun a b => a.id < b.id

/-- The entry that marks a cut; there is none at `0`. -/
def marker (cut : ℕ) : Log := if cut = 0 then [] else [(cut, [])]

/-- The log holds what came after a cut. -/
structure Kept (h : List (Stored share)) (cut : ℕ) (log : Log) : Prop where
  log_eq : log = marker cut ++ (h.filter fun e => cut < e.id).map entry
  cut_mem : cut = 0 ∨ ∃ e ∈ h, e.id = cut

variable {cut : ℕ} {h : List (Stored share)} {log : Log} {q : LogQuery}

theorem range_marker_of_mem {a b : ℕ} (hcut : cut ≠ 0) (ha : a ≤ cut) (hb : cut ≤ b) :
    (marker cut).range a b = [(cut, [])] := by
  simp [marker, hcut, Log.range, ha, hb]

theorem range_marker_of_notMem {a b : ℕ} (h : ¬ (cut ≠ 0 ∧ a ≤ cut ∧ cut ≤ b)) :
    (marker cut).range a b = [] := by
  by_cases hcut : cut = 0
  · simp [marker, hcut, Log.range]
  · simp [marker, Log.range]
    omega

theorem range_map_entry (h : List (Stored share)) (a b : ℕ) :
    Log.range (h.map entry) a b =
      (h.filter fun e => a ≤ e.id ∧ e.id ≤ b).map entry := by
  unfold Log.range
  rw [filter_map]
  rfl

theorem Kept.range (hk : Kept h cut log) (a b : ℕ) :
    log.range a b = (marker cut).range a b ++
      (h.filter fun e => cut < e.id ∧ a ≤ e.id ∧ e.id ≤ b).map entry := by
  have happend (l m : Log) : Log.range (l ++ m) a b = l.range a b ++ m.range a b := filter_append _ _
  rw [hk.log_eq, happend, range_map_entry, filter_filter]
  congr 2
  apply filter_congr
  intro e _
  rw [Bool.eq_iff_iff]
  simp only [Bool.and_eq_true, decide_eq_true_eq]
  tauto

theorem visit_marker {isInclusive : Bool} {fromChangeId : ℕ} (c : Changes)
    (h : isInclusive = true ∨ cut ≠ fromChangeId) :
    c.visit share isInclusive fromChangeId (cut, []) = .ok { c with isTruncated := true } := by
  have hvisited : (isInclusive || cut != fromChangeId) = true := by
    rcases h with h | h
    · simp [h]
    · simp [h]
  unfold visit
  simp [hvisited]

theorem visit_from (c : Changes) (fromChangeId : ℕ) (value : List UInt8) :
    c.visit share false fromChangeId (fromChangeId, value) =
      .ok { c with fromChangeId := fromChangeId, toChangeId := fromChangeId } := by
  unfold visit
  simp

theorem Kept.changes_of_marker (hk : Kept h cut log) (hcut : cut ≠ 0) (hfrom : q.bounds.2.1 ≤ cut)
    (hto : cut ≤ q.bounds.2.2) (hvisit : q.bounds.1 = true ∨ cut ≠ q.bounds.2.1) :
    ∃ r, log.changes share q = .ok r ∧ r.isTruncated = true := by
  have hne : q.bounds.1 = true ∨ ∀ e ∈ h.filter fun e => cut < e.id ∧ q.bounds.2.1 ≤ e.id ∧
      e.id ≤ q.bounds.2.2, e.id ≠ q.bounds.2.1 := by
    refine hvisit.imp_right fun hcutne e he => ?_
    have := (mem_filter.mp he).2
    simp only [decide_eq_true_eq] at this
    omega
  have hchanges : log.changes share q = .ok (addAll { (default : Changes) with isTruncated := true }
      (h.filter fun e => cut < e.id ∧ q.bounds.2.1 ≤ e.id ∧ e.id ≤ q.bounds.2.2)) := by
    unfold Log.changes
    simp only
    rw [hk.range, range_marker_of_mem hcut hfrom hto, singleton_append, foldlM_cons,
      visit_marker _ hvisit]
    exact foldlM_visit _ _ hne
  exact ⟨_, hchanges, isTruncated_addAll _ _⟩

/-- The entries of a history in a range. -/
def between (h : List (Stored share)) (a b : ℕ) : List (Stored share) :=
  h.filter fun e => a ≤ e.id ∧ e.id ≤ b

theorem mem_between {a b : ℕ} {e : Stored share} :
    e ∈ between h a b ↔ e ∈ h ∧ a ≤ e.id ∧ e.id ≤ b := by
  simp [between]

theorem Kept.changes_inclusive (hk : Kept h cut log) (hq : q.bounds.1 = true)
    (hcut : cut = 0 ∨ cut < q.bounds.2.1) :
    log.changes share q =
      .ok ((default : Changes).addAll (between h q.bounds.2.1 q.bounds.2.2)) := by
  have hfilter : (h.filter fun e => cut < e.id ∧ q.bounds.2.1 ≤ e.id ∧ e.id ≤ q.bounds.2.2) =
      between h q.bounds.2.1 q.bounds.2.2 := by
    apply filter_congr
    intro e _
    have := e.pos
    rw [Bool.eq_iff_iff, decide_eq_true_iff, decide_eq_true_iff]
    omega
  have hmarker : ¬ (cut ≠ 0 ∧ q.bounds.2.1 ≤ cut ∧ cut ≤ q.bounds.2.2) := by omega
  unfold Log.changes
  simp only
  rw [hk.range, range_marker_of_notMem hmarker, hfilter]
  exact foldlM_visit _ _ (.inl hq)

theorem Kept.changes_below (hk : Kept h cut log)
    (hcut : q.bounds.2.2 < cut) : log.changes share q = .ok default := by
  have hfilter : (h.filter fun e => cut < e.id ∧ q.bounds.2.1 ≤ e.id ∧ e.id ≤ q.bounds.2.2) = [] := by
    rw [filter_eq_nil_iff]
    intro e _
    rw [decide_eq_true_iff]
    omega
  have hmarker : ¬ (cut ≠ 0 ∧ q.bounds.2.1 ≤ cut ∧ cut ≤ q.bounds.2.2) := by omega
  unfold Log.changes
  simp only
  rw [hk.range, range_marker_of_notMem hmarker, hfilter]
  rfl

/-- The state of a query that starts after a change id: none yet, or the id itself. -/
def FromBase (changeId : ℕ) (c : Changes) : Prop :=
  c = default ∨ c = { (default : Changes) with fromChangeId := changeId, toChangeId := changeId }

theorem filter_from (hasc : Ascending h) (c : ℕ) :
    (h.filter fun e => c ≤ e.id) = (h.filter fun e => c < e.id) ∨
      ∃ e, e.id = c ∧ (h.filter fun e => c ≤ e.id) = e :: h.filter fun e => c < e.id := by
  by_cases hmem : ∃ e ∈ h, e.id = c
  · obtain ⟨e, he, hid⟩ := hmem
    obtain ⟨before, after, rfl⟩ := append_of_mem he
    obtain ⟨-, hafter, hbefore⟩ := pairwise_append.mp hasc
    have hlt : ∀ x ∈ before, x.id < c := fun x hx => hid ▸ hbefore x hx e mem_cons_self
    have hgt : ∀ x ∈ after, c < x.id := fun x hx => hid ▸ (pairwise_cons.mp hafter).1 x hx
    have hnil (P : Stored share → Bool) (hP : ∀ x ∈ before, ¬ P x) : before.filter P = [] :=
      filter_eq_nil_iff.mpr hP
    have hself (P : Stored share → Bool) (hP : ∀ x ∈ after, P x) : after.filter P = after :=
      filter_eq_self.mpr hP
    rw [filter_append, filter_append,
      hnil _ (fun x hx => by have := hlt x hx; simp; omega),
      hnil _ (fun x hx => by have := hlt x hx; simp; omega), filter_cons, filter_cons,
      hself _ (fun x hx => by have := hgt x hx; simp; omega),
      hself _ (fun x hx => by have := hgt x hx; simp; omega)]
    simp [hid]
  · refine .inl (filter_congr fun e he => ?_)
    have hne : e.id ≠ c := fun heq => hmem ⟨e, he, heq⟩
    rw [Bool.eq_iff_iff, decide_eq_true_iff, decide_eq_true_iff]
    omega

theorem Kept.cut_le (hk : Kept h cut log) : cut ≤ u64Max := by
  rcases hk.cut_mem with rfl | ⟨e, -, rfl⟩
  · exact Nat.zero_le _
  · exact e.le

theorem Kept.range_since (hk : Kept h cut log) (hasc : Ascending h) {c : ℕ} (hge : cut ≤ c) :
    log.range c u64Max = (h.filter fun e => c < e.id).map entry ∨
      ∃ value, log.range c u64Max = (c, value) :: (h.filter fun e => c < e.id).map entry := by
  rw [hk.range]
  rcases Nat.lt_or_eq_of_le hge with hlt | rfl
  · have hmarker : ¬ (cut ≠ 0 ∧ c ≤ cut ∧ cut ≤ u64Max) := by omega
    have hafter : (h.filter fun e => cut < e.id ∧ c ≤ e.id ∧ e.id ≤ u64Max) = h.filter fun e => c ≤ e.id := by
      apply filter_congr
      intro e _
      have := e.le
      rw [Bool.eq_iff_iff, decide_eq_true_iff, decide_eq_true_iff]
      omega
    rw [range_marker_of_notMem hmarker, nil_append, hafter]
    rcases filter_from hasc c with heq | ⟨e, rfl, heq⟩
    · exact .inl (congrArg _ heq)
    · exact .inr ⟨e.content.value, congrArg _ heq⟩
  · have hafter : (h.filter fun e => cut < e.id ∧ cut ≤ e.id ∧ e.id ≤ u64Max) = h.filter fun e => cut < e.id := by
      apply filter_congr
      intro e _
      have := e.le
      rw [Bool.eq_iff_iff, decide_eq_true_iff, decide_eq_true_iff]
      omega
    rw [hafter]
    by_cases hzero : cut = 0
    · have hmarker : ¬ (cut ≠ 0 ∧ cut ≤ cut ∧ cut ≤ u64Max) := by omega
      rw [range_marker_of_notMem hmarker]
      exact .inl rfl
    · rw [range_marker_of_mem hzero le_rfl hk.cut_le]
      exact .inr ⟨[], rfl⟩

/-- **A query for what came after a change id** meets the marker or reads the history. -/
theorem Kept.changes_since (hk : Kept h cut log) (hasc : Ascending h) (c : ℕ) :
    ∃ r, log.changes share (.since c) = .ok r ∧ (c < cut → r.isTruncated = true) ∧
      (cut ≤ c → ∃ base, FromBase c base ∧ r = base.addAll (h.filter fun e => c < e.id)) := by
  by_cases hcut : c < cut
  · obtain ⟨r, hr, htruncated⟩ := hk.changes_of_marker (q := .since c) (by omega) hcut.le hk.cut_le
      (.inr (by show cut ≠ c; omega))
    exact ⟨r, hr, fun _ => htruncated, fun hge => absurd hge (by omega)⟩
  · have hne : ∀ e ∈ h.filter fun e => c < e.id, e.id ≠ c := by
      intro e he
      have := (mem_filter.mp he).2
      rw [decide_eq_true_iff] at this
      omega
    have hread (base : Changes) :
        ((h.filter fun e => c < e.id).map entry).foldlM (visit share false c) base =
          .ok (base.addAll (h.filter fun e => c < e.id)) := foldlM_visit base _ (.inr hne)
    have hfrom (value : List UInt8) (es : Log) :
        List.foldlM (visit share false c) default ((c, value) :: es) =
          es.foldlM (visit share false c)
            { (default : Changes) with fromChangeId := c, toChangeId := c } := by
      rw [foldlM_cons, visit_from]
      rfl
    have hchanges : log.changes share (.since c) =
        (log.range c u64Max).foldlM (visit share false c) default := rfl
    rcases hk.range_since hasc (Nat.not_lt.mp hcut) with hr | ⟨value, hr⟩
    · refine ⟨_, ?_, fun hlt => absurd hlt hcut, fun _ => ⟨default, .inl rfl, rfl⟩⟩
      rw [hchanges, hr, hread]
    · refine ⟨_, ?_, fun hlt => absurd hlt hcut, fun _ => ⟨_, .inr rfl, rfl⟩⟩
      rw [hchanges, hr, hfrom, hread]

end

end MailServer.Store.Query
