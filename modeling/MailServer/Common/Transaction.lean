import MailServer.Store.Query.Version

/-!
# Cutting the change log (`common/src/storage/transaction.rs`)

* `deleteChanges`: what `delete_changes` does to the log of one collection.
* `Kept.truncate`: a log that was cut is the end of its history behind a marker.
-/

namespace MailServer.Common

open MailServer.Types MailServer.Store.Query List

/-- The descending iteration: the last change id it visits, and how many it visits. -/
def scanBack (maxEntries : ℕ) : ℕ × ℕ → Log → ℕ × ℕ
  | s, [] => s
  | (_, numChanges), e :: rest =>
    if numChanges + 1 ≤ maxEntries then scanBack maxEntries (e.1, numChanges + 1) rest
    else (e.1, numChanges + 1)

/-- Entries below the first change id that is kept go, and its own value is emptied. -/
def truncate (maxEntries : ℕ) (log : Log) : Log :=
  let (firstChangeId, numChanges) := scanBack maxEntries (0, 0) log.reverse
  if maxEntries < numChanges then
    (log.filter fun e => firstChangeId ≤ e.1).map fun e =>
      if e.1 = firstChangeId then (firstChangeId, []) else e
  else log

/-- The collections whose logs are cut by their number of entries. -/
def truncatedCollections : List SyncCollection :=
  [.email, .thread, .identity, .emailSubmission, .sieveScript, .fileNode, .addressBook, .calendar,
    .calendarEventNotification]

/-- The part of `delete_changes` that cuts by number. -/
def truncateChanges (collection : SyncCollection) (log : Log) : Option ℕ → Log
  | some maxEntries => if collection ∈ truncatedCollections then truncate maxEntries log else log
  | none => log

/-- The part of `delete_changes` that lets share notifications go by age. -/
def expireChanges (collection : SyncCollection) (log : Log) : Option ℕ → Log
  | some changeId =>
    if collection = .shareNotification then log.filter fun e => changeId ≤ e.1 else log
  | none => log

/-- `delete_changes` on the log of a collection; `expireBefore` is the change id of the age. -/
def deleteChanges (collection : SyncCollection) (maxEntries expireBefore : Option ℕ) (log : Log) : Log :=
  expireChanges collection (truncateChanges collection log maxEntries) expireBefore

theorem scanBack_spec (maxEntries : ℕ) (log : Log) (first num : ℕ) (hnum : num ≤ maxEntries) :
    ((scanBack maxEntries (first, num) log).2 ≤ maxEntries) ∨
      ∃ newer e older, log = newer ++ e :: older ∧
        scanBack maxEntries (first, num) log = (e.1, maxEntries + 1) := by
  induction log generalizing first num with
  | nil => exact .inl hnum
  | cons e rest ih =>
    rw [scanBack]
    split_ifs with hlt
    · rcases ih e.1 (num + 1) hlt with hle | ⟨newer, x, older, rfl, hx⟩
      · exact .inl hle
      · exact .inr ⟨e :: newer, x, older, rfl, hx⟩
    · have heq : num = maxEntries := by omega
      exact .inr ⟨[], e, rest, rfl, by rw [heq]⟩

section

variable {share : Bool} {h : List (Stored share)} {cut : ℕ} {log : Log}

theorem Kept.lt_of_mem (hk : Kept h cut log) {before after : Log} {e : ℕ × List UInt8}
    (hlog : log = before ++ e :: after) (hasc : Ascending h) :
    (∀ x ∈ before, x.1 < e.1) ∧ ∀ x ∈ after, e.1 < x.1 := by
  have hpair : log.Pairwise fun a b => a.1 < b.1 := by
    rw [hk.log_eq, pairwise_append]
    refine ⟨?_, ?_, ?_⟩
    · unfold marker
      split_ifs <;> simp
    · rw [pairwise_map]
      exact List.Pairwise.filter _ hasc
    · intro a ha b hb
      obtain ⟨x, hx, rfl⟩ := mem_map.mp hb
      have hgt := (mem_filter.mp hx).2
      rw [decide_eq_true_iff] at hgt
      unfold marker at ha
      split_ifs at ha
      · exact absurd ha not_mem_nil
      · obtain rfl := mem_singleton.mp ha
        exact hgt
  rw [hlog] at hpair
  obtain ⟨-, htail, hbefore⟩ := pairwise_append.mp hpair
  exact ⟨fun x hx => hbefore x hx e mem_cons_self, (pairwise_cons.mp htail).1⟩

theorem Kept.id_mem (hk : Kept h cut log) {e : ℕ × List UInt8} (he : e ∈ log) :
    cut ≤ e.1 ∧ ∃ x ∈ h, x.id = e.1 := by
  rw [hk.log_eq] at he
  rcases mem_append.mp he with he | he
  · unfold marker at he
    split_ifs at he with hzero
    · exact absurd he not_mem_nil
    · obtain rfl := mem_singleton.mp he
      exact ⟨le_rfl, hk.cut_mem.resolve_left hzero⟩
  · obtain ⟨x, hx, rfl⟩ := mem_map.mp he
    obtain ⟨hmem, hgt⟩ := mem_filter.mp hx
    rw [decide_eq_true_iff] at hgt
    exact ⟨hgt.le, x, hmem, rfl⟩

/-- **A truncation** moves the cut up, or does nothing. -/
theorem Kept.truncate (hk : Kept h cut log) (hasc : Ascending h) (maxEntries : ℕ) :
    ∃ cut', cut ≤ cut' ∧ Kept h cut' (truncate maxEntries log) := by
  unfold Common.truncate
  simp only
  rcases scanBack_spec maxEntries log.reverse 0 0 (Nat.zero_le _) with hle | ⟨newer, e, older, hrev, hscan⟩
  · rw [if_neg (by omega)]
    exact ⟨cut, le_rfl, hk⟩
  · have hlog : log = older.reverse ++ e :: newer.reverse := by
      rw [← reverse_reverse log, hrev]
      simp
    obtain ⟨hbefore, hafter⟩ := Kept.lt_of_mem hk hlog hasc
    obtain ⟨hcut, x, hx, hid⟩ := Kept.id_mem hk (e := e) (by rw [hlog]; simp)
    have hpos := x.pos
    rw [hscan, if_pos (Nat.lt_succ_self _)]
    refine ⟨e.1, hcut, ⟨?_, .inr ⟨x, hx, hid⟩⟩⟩
    have hkeep : (h.filter fun y => e.1 < y.id).map Stored.entry = log.filter fun y => e.1 < y.1 := by
      have hmarker : (marker cut).filter (fun y => e.1 < y.1) = [] := by
        unfold marker
        split_ifs with hzero
        · rfl
        · have : ¬ e.1 < cut := by omega
          simp [this]
      rw [hk.log_eq, filter_append, hmarker, filter_map, filter_filter]
      congr 1
      apply filter_congr
      intro y _
      rw [Bool.eq_iff_iff]
      simp only [Bool.and_eq_true, decide_eq_true_eq]
      exact ⟨fun hlt => ⟨decide_eq_true hlt, hcut.trans_lt hlt⟩, fun hlt => of_decide_eq_true hlt.1⟩
    have hold (P : ℕ × List UInt8 → Bool) (hP : ∀ y ∈ older.reverse, ¬ P y) :
        older.reverse.filter P = [] := filter_eq_nil_iff.mpr hP
    have hnew (P : ℕ × List UInt8 → Bool) (hP : ∀ y ∈ newer.reverse, P y) :
        newer.reverse.filter P = newer.reverse := filter_eq_self.mpr hP
    have hgt : (log.filter fun y => e.1 < y.1) = newer.reverse := by
      rw [hlog, filter_append, hold _ (fun y hy => by have := hbefore y hy; simp; omega),
        nil_append, filter_cons_of_neg (by simp), hnew _ (fun y hy => by simpa using hafter y hy)]
    have hge : (log.filter fun y => e.1 ≤ y.1) = e :: newer.reverse := by
      rw [hlog, filter_append, hold _ (fun y hy => by have := hbefore y hy; simp; omega),
        nil_append, filter_cons_of_pos (by simp),
        hnew _ (fun y hy => by have := hafter y hy; simp; omega)]
    have hmap : newer.reverse.map (fun y => if y.1 = e.1 then (e.1, []) else y) = newer.reverse := by
      conv_rhs => rw [← map_id newer.reverse]
      apply map_congr_left
      intro y hy
      have := hafter y hy
      rw [if_neg (by omega)]
      rfl
    have hzero : e.1 ≠ 0 := by omega
    rw [hkeep, hgt, hge, map_cons, if_pos rfl, hmap, marker, if_neg hzero]
    rfl

end

end MailServer.Common
