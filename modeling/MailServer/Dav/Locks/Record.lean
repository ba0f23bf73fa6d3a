import Mathlib.Data.List.Infix
import Mathlib.Data.List.Nodup
import Mathlib.Data.List.Lookmap

/-!
# Locks (`dav/src/common/lock.rs`)

The locks of an account's collection are kept in one record, by path.  A lock covers its own path, what is below it if its
depth is infinite, and whatever it is below of.

* `LockData`: the record.
* `findLocks`: the live locks that a resource is concerned with.
* `mem_findLocks`: these are the ones that cover it.
-/

namespace MailServer.Dav.Locks

open List

/-- A path below the collection. -/
abbrev Path := List Char

structure DeadProperty where
  text : String
  size : ℕ
deriving DecidableEq

structure LockItem where
  lockId : ℕ
  owner : ℕ
  expires : ℕ
  depthInfinity : Bool
  exclusive : Bool
  ownerDav : Option DeadProperty
deriving DecidableEq

/-- `LockData`, whose order is that of the iteration of the map. -/
structure LockData where
  locks : List (Path × List LockItem)
  nodup : (locks.map Prod.fst).Nodup

def LockData.get (data : LockData) (path : Path) : List LockItem := (data.locks.lookup path).getD []

/-! ## Lookup -/

/-- `str::rsplit_once`. -/
def rsplitOnce (c : Char) : List Char → Option (List Char × List Char)
  | [] => none
  | x :: xs =>
    match rsplitOnce c xs with
    | some (a, b) => some (x :: a, b)
    | none => if x = c then some ([], xs) else none

/-- The loop of `find_locks` over a path and its ancestors. -/
def ancestorsFrom : ℕ → Path → List Path
  | 0, _ => []
  | n + 1, part =>
    part :: match rsplitOnce '/' part with
      | some (parent, _) => ancestorsFrom n parent
      | none => []

/-- Every round shortens the path. -/
def ancestors (resource : Path) : List Path := ancestorsFrom (resource.length + 1) resource

def findLocks (now : ℕ) (data : LockData) (resource : Path) (includeChildren : Bool) : List (Path × LockItem) :=
  (ancestors resource).flatMap (fun part =>
    ((data.get part).filter fun lock => decide (now < lock.expires) && (resource == part || lock.depthInfinity)).map
      fun lock => (part, lock)) ++
  if includeChildren then
    data.locks.flatMap fun (part, locks) =>
      if (resource ++ ['/']).isPrefixOf part then
        (locks.filter fun lock => decide (now < lock.expires)).map fun lock => (part, lock)
      else []
  else []

/-- The lock at a path concerns a resource. -/
def LockItem.Covers (lock : LockItem) (path resource : Path) : Prop :=
  path = resource ∨ (lock.depthInfinity = true ∧ path ++ ['/'] <+: resource) ∨ resource ++ ['/'] <+: path

/-! ## Ancestors -/

theorem rsplitOnce_eq_none {c : Char} : ∀ {s : List Char}, rsplitOnce c s = none → c ∉ s
  | [], _ => not_mem_nil
  | x :: xs, h => by
    rw [rsplitOnce] at h
    cases hxs : rsplitOnce c xs with
    | some ab =>
      rw [hxs] at h
      cases h
    | none =>
      rw [hxs] at h
      split_ifs at h with hx
      rw [mem_cons, not_or]
      exact ⟨Ne.symm hx, rsplitOnce_eq_none hxs⟩

theorem rsplitOnce_eq_some {c : Char} : ∀ {s a b : List Char}, rsplitOnce c s = some (a, b) →
    s = a ++ c :: b ∧ c ∉ b
  | [], _, _, h => by cases h
  | x :: xs, a, b, h => by
    rw [rsplitOnce] at h
    cases hxs : rsplitOnce c xs with
    | some ab =>
      rw [hxs] at h
      obtain ⟨rfl, rfl⟩ := Prod.mk.inj (Option.some.inj h)
      obtain ⟨heq, hnot⟩ := rsplitOnce_eq_some hxs
      exact ⟨by rw [heq, cons_append], hnot⟩
    | none =>
      rw [hxs] at h
      split_ifs at h with hx
      obtain ⟨rfl, rfl⟩ := Prod.mk.inj (Option.some.inj h)
      exact ⟨by rw [hx, nil_append], rsplitOnce_eq_none hxs⟩

theorem prefix_split {c : Char} {q a b : List Char} (hb : c ∉ b) :
    q ++ [c] <+: a ++ c :: b ↔ q = a ∨ q ++ [c] <+: a := by
  constructor
  · rintro ⟨t, ht⟩
    rw [append_assoc] at ht
    obtain ⟨u, rfl, hu⟩ | ⟨u, rfl, hu⟩ := append_eq_append_iff.mp ht
    · cases u with
      | nil =>
        rw [append_nil]
        exact .inl rfl
      | cons x u =>
        obtain ⟨rfl, -⟩ := cons_eq_cons.mp hu
        exact .inr ⟨u, by rw [append_assoc, singleton_append]⟩
    · cases u with
      | nil =>
        rw [append_nil]
        exact .inl rfl
      | cons x u =>
        obtain ⟨-, rfl⟩ := cons_eq_cons.mp hu
        exact absurd (mem_append_right u mem_cons_self) hb
  · rintro (rfl | ⟨t, rfl⟩)
    · exact ⟨b, by rw [append_assoc, singleton_append]⟩
    · exact ⟨t ++ c :: b, by rw [append_assoc, append_assoc, append_assoc]⟩

theorem mem_ancestorsFrom {q : Path} : ∀ {n : ℕ} {p : Path}, p.length < n →
    (q ∈ ancestorsFrom n p ↔ q = p ∨ q ++ ['/'] <+: p)
  | 0, _, h => absurd h (Nat.not_lt_zero _)
  | n + 1, p, h => by
    rw [ancestorsFrom, mem_cons]
    refine or_congr_right ?_
    cases hsplit : rsplitOnce '/' p with
    | none =>
      refine iff_of_false not_mem_nil ?_
      rintro ⟨t, rfl⟩
      exact rsplitOnce_eq_none hsplit (mem_append_left _ (mem_append_right _ (mem_singleton_self _)))
    | some ab =>
      obtain ⟨rfl, hb⟩ := rsplitOnce_eq_some hsplit
      rw [mem_ancestorsFrom, prefix_split hb]
      rw [length_append, length_cons] at h
      omega

theorem mem_ancestors {q p : Path} : q ∈ ancestors p ↔ q = p ∨ q ++ ['/'] <+: p :=
  mem_ancestorsFrom (Nat.lt_succ_self _)

/-! ## Covering locks -/

theorem LockData.get_eq_of_mem {data : LockData} {path : Path} {items : List LockItem} (h : (path, items) ∈ data.locks) :
    data.get path = items := by
  have hlookup : data.locks.lookup path = some items := by
    have hnodup := data.nodup
    revert h hnodup
    generalize data.locks = locks
    intro h hnodup
    induction locks with
    | nil => exact absurd h not_mem_nil
    | cons e locks ih =>
      obtain ⟨p, l⟩ := e
      rw [map_cons, nodup_cons] at hnodup
      obtain heq | hmem := mem_cons.mp h
      · obtain ⟨rfl, rfl⟩ := Prod.mk.inj heq
        exact lookup_cons_self
      · have hne : path ≠ p := by
          rintro rfl
          exact hnodup.1 (mem_map.mpr ⟨_, hmem, rfl⟩)
        rw [lookup_cons, beq_eq_false_iff_ne.mpr hne]
        exact ih hmem hnodup.2
  rw [LockData.get, hlookup]
  rfl

theorem LockData.mem_of_mem_get {data : LockData} {path : Path} {lock : LockItem} (h : lock ∈ data.get path) :
    (path, data.get path) ∈ data.locks := by
  cases hlookup : data.locks.lookup path with
  | none =>
    rw [LockData.get, hlookup] at h
    exact absurd h not_mem_nil
  | some items =>
    rw [LockData.get, hlookup]
    obtain ⟨l₁, l₂, heq, -⟩ := lookup_eq_some_iff.mp hlookup
    rw [heq]
    exact mem_append_right _ mem_cons_self

theorem mem_findLocks {now : ℕ} {data : LockData} {resource path : Path} {lock : LockItem} :
    (path, lock) ∈ findLocks now data resource true ↔
      lock ∈ data.get path ∧ now < lock.expires ∧ lock.Covers path resource := by
  have habove : (path, lock) ∈ (ancestors resource).flatMap (fun part =>
      ((data.get part).filter fun lock => decide (now < lock.expires) && (resource == part || lock.depthInfinity)).map
        fun lock => (part, lock)) ↔
      lock ∈ data.get path ∧ now < lock.expires ∧
        (path = resource ∨ lock.depthInfinity = true ∧ path ++ ['/'] <+: resource) := by
    rw [mem_flatMap]
    constructor
    · rintro ⟨part, hpart, hmem⟩
      obtain ⟨l, hl, heq⟩ := mem_map.mp hmem
      obtain ⟨rfl, rfl⟩ := Prod.mk.inj heq
      obtain ⟨hget, hcond⟩ := mem_filter.mp hl
      rw [Bool.and_eq_true_iff, Bool.or_eq_true_iff, decide_eq_true_eq, beq_iff_eq] at hcond
      refine ⟨hget, hcond.1, ?_⟩
      obtain rfl | hprefix := mem_ancestors.1 hpart
      · exact .inl rfl
      · exact hcond.2.imp Eq.symm fun h => ⟨h, hprefix⟩
    · rintro ⟨hget, hlive, hscope⟩
      refine ⟨path, mem_ancestors.2 (hscope.imp_right And.right), mem_map.mpr ⟨lock, mem_filter.mpr ⟨hget, ?_⟩, rfl⟩⟩
      rw [Bool.and_eq_true_iff, Bool.or_eq_true_iff, decide_eq_true_eq, beq_iff_eq]
      exact ⟨hlive, hscope.imp Eq.symm And.left⟩
  have hbelow : (path, lock) ∈ (data.locks.flatMap fun (part, locks) =>
      if (resource ++ ['/']).isPrefixOf part then
        (locks.filter fun lock => decide (now < lock.expires)).map fun lock => (part, lock)
      else []) ↔ lock ∈ data.get path ∧ now < lock.expires ∧ resource ++ ['/'] <+: path := by
    rw [mem_flatMap]
    constructor
    · rintro ⟨⟨part, items⟩, hpart, hmem⟩
      dsimp only at hmem
      split_ifs at hmem with hprefix
      · obtain ⟨l, hl, heq⟩ := mem_map.mp hmem
        obtain ⟨rfl, rfl⟩ := Prod.mk.inj heq
        obtain ⟨hitems, hlive⟩ := mem_filter.mp hl
        rw [LockData.get_eq_of_mem hpart]
        exact ⟨hitems, of_decide_eq_true hlive, isPrefixOf_iff_prefix.mp hprefix⟩
      · exact absurd hmem not_mem_nil
    · rintro ⟨hget, hlive, hprefix⟩
      refine ⟨_, LockData.mem_of_mem_get hget, ?_⟩
      dsimp only
      rw [if_pos (List.isPrefixOf_iff_prefix.mpr hprefix)]
      exact mem_map.mpr ⟨lock, mem_filter.mpr ⟨hget, decide_eq_true hlive⟩, rfl⟩
  rw [findLocks, mem_append, LockItem.Covers]
  tauto

end MailServer.Dav.Locks
