import MailServer.Lib.Lex
import MailServer.Lib.Sorted
import MailServer.Store.Registry.Query

/-!
# What a scan finds

* `page`: the part of a list of ids that is asked for.  `pushAll_eq`: what pushing leaves of a list.
* `scan_range`: over a range of the index, up to the last key with the prefix.
-/

namespace MailServer.Store.Registry

open MailServer.Types MailServer.Utils MailServer.Store.Write MailServer.Lib List

/-! ## Pages -/

/-- How many ids a page leaves out. -/
def RegistryQueryStart.skipped : RegistryQueryStart → ℕ
  | index n => n
  | _ => 0

/-- The id behind which a page starts. -/
def RegistryQueryStart.awaited : RegistryQueryStart → Option Id
  | anchor a => some a
  | _ => Option.none

/-- At most so many ids. -/
def upTo : Option ℕ → List Id → List Id
  | some n, ids => ids.take n
  | none, ids => ids

/-- The page of the ids in increasing order. -/
def page (start : RegistryQueryStart) (limit : Option ℕ) (full : List Id) : List Id :=
  upTo limit (match start with
    | .index n => full.drop n
    | .anchor a => full.filter (a < ·)
    | .none => full)

/-- What `push` leaves of the ids as they come: an anchor is waited for, and one id passes any limit. -/
def pushed (start : RegistryQueryStart) (limit : Option ℕ) (ids : List Id) : List Id :=
  upTo (limit.map (max 1)) (match start with
    | .index n => ids.drop n
    | .anchor a => (ids.dropWhile (· ≠ a)).tail
    | .none => ids)

theorem upTo_nil (limit : Option ℕ) : upTo limit [] = [] := by
  cases limit with
  | none => rfl
  | some n => exact take_nil

theorem upTo_sublist (limit : Option ℕ) (ids : List Id) : (upTo limit ids).Sublist ids := by
  cases limit with
  | none => exact List.Sublist.refl ids
  | some n => exact take_sublist n ids

theorem pushed_sublist (start : RegistryQueryStart) (limit : Option ℕ) (ids : List Id) :
    (pushed start limit ids).Sublist ids := by
  refine (upTo_sublist _ _).trans ?_
  cases start with
  | index n => exact drop_sublist n ids
  | anchor a => exact (tail_sublist _).trans (dropWhile_sublist _)
  | none => exact List.Sublist.refl ids

namespace ResultsPagination

variable {r : ResultsPagination}

theorem pushAll_started (hd : r.deferredPagination = false) (ho : r.offset = 0)
    (ha : r.anchor = none) (ids : List Id) :
    (r.pushAll ids).list = r.list ++ upTo (r.limit.map fun n => max 1 (n - r.list.length)) ids := by
  induction ids generalizing r with
  | nil => simp [pushAll, upTo_nil]
  | cons id ids ih =>
    have hpush : r.push id = ({ r with list := r.list ++ [id] },
        r.limit.all fun limit => (r.list ++ [id]).length < limit) := by
      simp [push, hd, ho, ha]
    have ih := ih (r := { r with list := r.list ++ [id] }) hd ho ha
    rw [pushAll, hpush]
    cases hl : r.limit with
    | none =>
      simp only [hl, Option.map_none] at ih
      simp [ih, upTo]
    | some n =>
      simp only [hl, Option.map_some, upTo, length_append, length_singleton] at ih
      simp only [Option.all_some, Option.map_some, upTo, length_append, length_singleton,
        decide_eq_true_eq]
      split_ifs with hmore
      · rw [ih, append_assoc, singleton_append]
        rw [show max 1 (n - r.list.length) = max 1 (n - (r.list.length + 1)) + 1 by omega, take_succ_cons]
      · rw [show max 1 (n - r.list.length) = 1 by omega]
        simp

theorem pushAll_offset (hd : r.deferredPagination = false) (ids : List Id) :
    r.pushAll ids = { r with offset := r.offset - ids.length }.pushAll (ids.drop r.offset) := by
  induction ids generalizing r with
  | nil =>
    simp
  | cons id ids ih =>
    by_cases ho : r.offset = 0
    · have hzero : { r with offset := r.offset - (id :: ids).length } = r := by
        cases r
        simp_all
      rw [hzero, ho, drop_zero]
    · have hpush : r.push id = ({ r with offset := r.offset - 1 }, true) := by
        simp [push, hd, Nat.pos_of_ne_zero ho]
      obtain ⟨n, hn⟩ := Nat.exists_eq_succ_of_ne_zero ho
      have ih := ih (r := { r with offset := r.offset - 1 }) hd
      rw [pushAll, hpush]
      dsimp only
      rw [if_pos rfl, ih]
      simp only [hn, drop_succ_cons, length_cons, Nat.succ_eq_add_one, Nat.add_sub_cancel,
        Nat.add_sub_add_right]

theorem pushAll_anchor (hd : r.deferredPagination = false) (ho : r.offset = 0) {a : Id}
    (ha : r.anchor = some a) (ids : List Id) :
    (r.pushAll ids).list = ({ r with anchor := none }.pushAll (ids.dropWhile (· ≠ a)).tail).list := by
  induction ids generalizing r with
  | nil => rfl
  | cons id ids ih =>
    by_cases hid : id = a
    · have hpush : r.push id = ({ r with anchor := none }, true) := by simp [push, hd, ho, ha, hid]
      rw [pushAll, hpush]
      simp [hid]
    · have hpush : r.push id = (r, true) := by simp [push, hd, ho, ha, hid]
      rw [pushAll, hpush, dropWhile_cons_of_pos (by simpa using hid)]
      exact ih hd ho ha

theorem pushAll_deferred (hd : r.deferredPagination = true) (ids : List Id) :
    r.pushAll ids = { r with list := r.list ++ ids } := by
  induction ids generalizing r with
  | nil => simp [pushAll]
  | cons id ids ih =>
    have hpush : r.push id = ({ r with list := r.list ++ [id] }, true) := by simp [push, hd]
    have ih := ih (r := { r with list := r.list ++ [id] }) hd
    rw [pushAll, hpush]
    dsimp only
    rw [if_pos rfl, ih, append_assoc, singleton_append]

/-- A page that was asked for, before anything is pushed. -/
structure Fresh (start : RegistryQueryStart) (limit : Option ℕ) (r : ResultsPagination) : Prop where
  list : r.list = []
  limit : r.limit = limit
  offset : r.offset = start.skipped
  anchor : r.anchor = start.awaited

theorem fresh_new (u : Unicode) (query : RegistryQuery) :
    Fresh query.start query.limit (ResultsPagination.new u query) := by
  obtain ⟨object, filters, start, limit⟩ := query
  cases start <;> exact ⟨rfl, rfl, rfl, rfl⟩

/-- **Pushing without delay.** -/
theorem pushAll_eq {start : RegistryQueryStart} {limit : Option ℕ} (hr : Fresh start limit r)
    (hd : r.deferredPagination = false) (ids : List Id) :
    (r.pushAll ids).list = pushed start limit ids := by
  have hstarted : ∀ r' : ResultsPagination, r'.deferredPagination = false → r'.offset = 0 → r'.anchor = none →
      r'.list = [] → r'.limit = limit → ∀ ids, (r'.pushAll ids).list = upTo (limit.map (max 1)) ids := by
    intro r' h1 h2 h3 h4 h5 ids
    rw [pushAll_started h1 h2 h3, h4, h5]
    rfl
  cases start with
  | none => exact hstarted r hd hr.offset hr.anchor hr.list hr.limit ids
  | anchor a =>
    rw [pushAll_anchor hd hr.offset hr.anchor]
    exact hstarted { r with anchor := none } hd hr.offset rfl hr.list hr.limit _
  | index n =>
    have hoff : r.offset = n := hr.offset
    rw [pushAll_offset hd, hoff]
    by_cases hn : n ≤ ids.length
    · exact hstarted { r with offset := n - ids.length } hd (Nat.sub_eq_zero_of_le hn) hr.anchor hr.list
        hr.limit _
    · have hdrop : ids.drop n = [] := drop_of_length_le (by omega)
      rw [pushed, hdrop, upTo_nil]
      exact hr.list

end ResultsPagination

/-! ## Scans -/

section

/-- The id that the callback finds in an entry. -/
def Visit.hit (v : Except QueryError Visit) : Option Id :=
  match v with
  | .ok (.found id) => some id
  | _ => none

variable {visit : List UInt8 × Option ObjectId → Except QueryError Visit}

/-- **A scan pushes what its callback finds**, up to the entries at which the callback stops. -/
theorem scan_append {l rest : List (List UInt8 × Option ObjectId)}
    (hl : ∀ e ∈ l, visit e = .ok .skip ∨ ∃ id, visit e = .ok (.found id))
    (hrest : ∀ e ∈ rest, visit e = .ok .stop) (r : ResultsPagination) :
    scan visit (l ++ rest) r = .ok (r.pushAll (l.filterMap fun e => Visit.hit (visit e))) := by
  induction l generalizing r with
  | nil =>
    cases rest with
    | nil => rfl
    | cons e rest =>
      rw [nil_append, scan, hrest e mem_cons_self]
      rfl
  | cons e l ih =>
    have ih := ih fun e' he' => hl e' (mem_cons_of_mem e he')
    rw [cons_append, scan]
    rcases hl e mem_cons_self with he | ⟨id, he⟩
    · rw [he, ih, filterMap_cons_none (by simp [he, Visit.hit])]
    · rw [he, filterMap_cons_some (by simp [he, Visit.hit] : _ = some id), ResultsPagination.pushAll]
      dsimp only
      split_ifs with hmore
      · exact ih _
      · rfl

theorem Index.pairwise_toList (index : Index) : index.toList.Pairwise (fun e e' => e.1 < e'.1) :=
  (Std.TreeMap.ordered_keys_toList (t := index)).imp fun h => Lib.compare_eq_lt_iff.mp h

theorem isPrefixOf_of_lt {pre k k' : List UInt8} (hle : ¬ k < pre) (hlt : k < k') (h : pre.isPrefixOf k' = true) :
    pre.isPrefixOf k = true := by
  rw [List.isPrefixOf_iff_prefix] at h ⊢
  obtain ⟨m, rfl⟩ := h
  induction pre generalizing k with
  | nil => exact nil_prefix
  | cons b pre ih =>
    cases k with
    | nil => exact absurd (nil_lt_cons b pre) hle
    | cons a k =>
      rw [cons_append, cons_lt_cons_iff] at hlt
      rw [cons_lt_cons_iff] at hle
      push Not at hle
      rcases hlt with hab | ⟨rfl, hlt⟩
      · exact absurd hab hle.1
      · exact cons_prefix_cons.mpr ⟨rfl, ih (hle.2 rfl) hlt⟩

/-- **The scan of a range that starts behind a prefix** pushes what its callback finds in the whole index, when
all of it lies in the range. -/
theorem scan_range {index : Index} {pre begin_ end_ : List UInt8} (hpre : ¬ begin_ < pre)
    (hstop : ∀ e, pre.isPrefixOf e.1 = false → visit e = .ok .stop)
    (hvisit : ∀ e ∈ index.toList, pre.isPrefixOf e.1 = true →
      visit e = .ok .skip ∨ ∃ id, visit e = .ok (.found id) ∧ ¬ e.1 < begin_ ∧ ¬ end_ < e.1)
    (r : ResultsPagination) :
    scan visit (index.range begin_ end_) r =
      .ok (r.pushAll (index.toList.filterMap fun e => Visit.hit (visit e))) := by
  have hsorted : (index.range begin_ end_).Pairwise (fun e e' => e.1 < e'.1 ∧ ¬ e.1 < pre) := by
    have hlt : (index.range begin_ end_).Pairwise (fun e e' => e.1 < e'.1) :=
      index.pairwise_toList.sublist filter_sublist
    refine hlt.imp_of_mem fun {e e'} he _ h => ⟨h, fun hlow => ?_⟩
    have hbegin : ¬ e.1 < begin_ := by
      have := (mem_filter.mp he).2
      simp only [decide_eq_true_eq] at this
      exact this.1
    exact List.le_trans hpre hbegin hlow
  have hsplit := filter_append_filter_not (p := fun e => pre.isPrefixOf e.1) hsorted
    fun e e' h he' => isPrefixOf_of_lt h.2 h.1 he'
  rw [← hsplit, scan_append]
  · congr 2
    rw [Index.range, filter_filter, filterMap_filter]
    refine filterMap_congr fun e he => ?_
    cases hp : pre.isPrefixOf e.1 with
    | false => simp [hstop e hp, Visit.hit]
    | true =>
      rcases hvisit e he hp with hv | ⟨id, hv, hb⟩
      · simp [hv, Visit.hit]
      · simp [hb]
  · intro e he
    obtain ⟨he, hp⟩ := mem_filter.mp he
    exact (hvisit e (mem_of_mem_filter he) hp).imp_right fun ⟨id, hv, _⟩ => ⟨id, hv⟩
  · intro e he
    obtain ⟨_, hp⟩ := mem_filter.mp he
    exact hstop e (by simpa using hp)

end

end MailServer.Store.Registry
