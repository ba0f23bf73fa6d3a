import MailServer.Lib.Run
import MailServer.Store.Registry.Commit

/-!
# Runs of the registry

Writes one after the other.  The index should hold the index keys of the stored objects.

* `Sound`: the index is that of the stored objects, unique values are unique, references have a target.
* `Keeps`: a write does not drop an index key that it should keep, nor keep one it should drop.
* `Apart`: a unique value has the composite key of no other unique value.
* `sound_run`: runs of such writes.
-/

namespace MailServer.Store.Registry

open MailServer.Types MailServer.Utils MailServer.Store.Write MailServer.Lib.Run List Option IndexKey

/-- The registry, and the object types that deletions left with references to nothing. -/
structure System where
  store : RegistryStore
  orphaned : List (ObjectId × ObjectType)

def System.init : System := ⟨⟨fun _ => none, ∅, fun _ => 0⟩, []⟩

section

variable (flags : ObjectType → UInt64) (xxh3 : List UInt8 → UInt64)

/-- An object that has the revision of the stored one is the stored one. -/
def RegistryStore.current (s : RegistryStore) (o : ObjectId) (object : Object) : Bool :=
  (s.get xxh3 o).all fun x => x.revision ≠ object.revision || object = x

/-- Updates and deletions are given an object that was read from the store. -/
def RegistryStore.faithful (s : RegistryStore) : RegistryWrite → Bool
  | .insert _ _ _ => true
  | .update object id oldObject => s.current xxh3 ⟨object.inner.objectType, id⟩ oldObject
  | .delete objectId object _ => object.all (s.current xxh3 objectId)

/-- What a write allowed to be orphaned. -/
def orphans : RegistryWrite → RegistryStore.Answer → List (ObjectId × ObjectType)
  | .delete objectId _ allowedOrphanTypes, .ok (.success _) => allowedOrphanTypes.map fun t => (objectId, t)
  | _, _ => []

def step (sys : System) (w : RegistryWrite) : Option System :=
  if sys.store.faithful xxh3 w then
    let r := sys.store.write flags xxh3 w
    some ⟨r.1, sys.orphaned ++ orphans w r.2⟩
  else none

end

open RegistryStore

/-! ## What should hold -/

namespace RegistryStore

/-- A store key that some stored object is indexed by. -/
def Derived (s : RegistryStore) (key : List UInt8) : Prop :=
  ∃ o inner k, s.items o = some inner ∧ k ∈ inner.keys ∧ k.storeKey o = key

end RegistryStore

structure Sound (sys : System) : Prop where
  /-- the keys of the index are the index keys of the stored objects -/
  index_iff : ∀ key, (∀ o, key ≠ indexIdKey o) → (sys.store.index[key]? ≠ none ↔ sys.store.Derived key)
  /-- of two unique values with one key there is only one, and it has one object -/
  unique : ∀ o o' inner inner' u u', sys.store.items o = some inner → sys.store.items o' = some inner' →
    u ∈ inner.keys → u' ∈ inner'.keys → u.isUnique = true → u'.isUnique = true →
    u.storeKey o = u'.storeKey o' → o = o' ∧ u = u'
  /-- a reference has a target, unless the target was deleted with leave to orphan it -/
  linked : ∀ o inner target typeFilter, sys.store.items o = some inner →
    .foreignKey target typeFilter ∈ inner.keys →
    sys.store.items target ≠ none ∨ (target, o.object) ∈ sys.orphaned

/-- The invariant: what the index tells about objects and about the owners of unique values is true. -/
structure Inv (sys : System) : Prop extends Sound sys where
  ids : ∀ o, sys.store.index[indexIdKey o]? ≠ none → sys.store.items o ≠ none
  owner : ∀ key, (∀ o, key ≠ indexIdKey o) → ∀ p, sys.store.index[key]? = some (some p) →
    ∃ inner u, sys.store.items p = some inner ∧ u ∈ inner.keys ∧ u.isUnique = true ∧ u.storeKey p = key

theorem inv_init : Inv System.init where
  index_iff key _ := by simp [System.init, RegistryStore.Derived]
  unique o o' inner inner' u u' h := by cases h
  linked o inner target typeFilter h := by cases h
  ids o h := by simp [System.init] at h
  owner key _ p h := by simp [System.init] at h

/-! ## Replacing an object -/

section

variable {sys : System} {o : ObjectId} {new : Option ObjectInner} {set_ clear : List IndexKey} {index : Index}

/-- The index keys of an object, if there is one. -/
def keysOf (inner : Option ObjectInner) : List IndexKey := (inner.map ObjectInner.keys).getD []

theorem mem_keysOf {inner : Option ObjectInner} {k : IndexKey} :
    k ∈ keysOf inner ↔ ∃ i, inner = some i ∧ k ∈ i.keys := by
  cases inner <;> simp [keysOf]

/-- The keys that are set and cleared are right for `new` to be put in the place of `o`. -/
structure Fits (s : RegistryStore) (o : ObjectId) (new : Option ObjectInner) (set_ clear : List IndexKey) :
    Prop where
  set_mem : ∀ k ∈ set_, k ∈ keysOf new
  new_mem : ∀ k ∈ keysOf new, k ∈ set_ ∨ k ∈ keysOf (s.items o)
  dropped : ∀ k ∈ keysOf (s.items o), k ∈ clear ∨ k ∈ keysOf new ∨ ∃ k' ∈ set_, k'.storeKey o = k.storeKey o
  clear_new : ∀ k ∈ clear, ∀ k' ∈ keysOf new, k'.storeKey o ≠ k.storeKey o
  clear_other : ∀ k ∈ clear, ∀ o' ≠ o, ∀ inner, s.items o' = some inner →
    ∀ k' ∈ inner.keys, k'.storeKey o' ≠ k.storeKey o

theorem putItem_eq (items : ObjectId → Option ObjectInner) (o' : ObjectId) :
    putItem items o new o' = if o' = o then new else items o' := by
  simp [putItem, Function.update_apply]

section

variable (hinv : Inv sys) (hfits : Fits sys.store o new set_ clear) (hw : Written o set_ clear sys.store.index index)
include hinv hfits hw

theorem derived_replace {key : List UInt8} (hkey : ∀ o', key ≠ indexIdKey o') :
    index[key]? ≠ none ↔
      RegistryStore.Derived { sys.store with items := putItem sys.store.items o new, index } key := by
  have hold := hinv.index_iff key hkey
  simp only [RegistryStore.Derived, putItem_eq, Ne, hw.none_iff key hkey]
  constructor
  · intro h
    push Not at h
    obtain ⟨hpresent, hclear⟩ := h
    by_cases hset : ∃ k ∈ set_, k.storeKey o = key
    · obtain ⟨k, hk, hkk⟩ := hset
      obtain ⟨i, hi, hki⟩ := mem_keysOf.1 (hfits.set_mem k hk)
      exact ⟨o, i, k, by rw [if_pos rfl, hi], hki, hkk⟩
    · have hin : sys.store.index[key]? ≠ none := by
        intro hnone
        obtain ⟨k, hk, hkk⟩ := hpresent hnone
        exact hset ⟨k, hk, hkk⟩
      obtain ⟨o', inner, k, hitem, hk, hkk⟩ := hold.mp hin
      by_cases ho : o' = o
      · subst ho
        rcases hfits.dropped k (mem_keysOf.2 ⟨inner, hitem, hk⟩) with hc | hn | ⟨k', hk', heq⟩
        · exact absurd hkk (hclear k hc)
        · obtain ⟨i, hi, hki⟩ := mem_keysOf.1 hn
          exact ⟨o', i, k, by rw [if_pos rfl, hi], hki, hkk⟩
        · exact absurd ⟨k', hk', heq.trans hkk⟩ hset
      · exact ⟨o', inner, k, by rw [if_neg ho, hitem], hk, hkk⟩
  · rintro ⟨o', inner, k, hitem, hk, hkk⟩
    push Not
    by_cases ho : o' = o
    · subst ho
      rw [if_pos rfl] at hitem
      have hnew : k ∈ keysOf new := mem_keysOf.2 ⟨inner, hitem, hk⟩
      refine ⟨fun hnone => ?_, fun k' hk' heq => hfits.clear_new k' hk' k hnew (hkk.trans heq.symm)⟩
      rcases hfits.new_mem k hnew with hs | hs
      · exact ⟨k, hs, hkk⟩
      · obtain ⟨i, hi, hki⟩ := mem_keysOf.1 hs
        exact absurd hnone (hold.mpr ⟨o', i, k, hi, hki, hkk⟩)
    · rw [if_neg ho] at hitem
      refine ⟨fun hnone => absurd hnone (hold.mpr ⟨o', inner, k, hitem, hk, hkk⟩), fun k' hk' heq => ?_⟩
      exact hfits.clear_other k' hk' o' ho inner hitem k hk (hkk.trans heq.symm)

theorem unique_other {o' : ObjectId} (ho : o' ≠ o) {inner : ObjectInner}
    (hitem : sys.store.items o' = some inner) {u u' : IndexKey} (hu : u ∈ keysOf new) (hu' : u' ∈ inner.keys)
    (huniq : u.isUnique = true) (huniq' : u'.isUnique = true) : u.storeKey o ≠ u'.storeKey o' := by
  intro heq
  rcases hfits.new_mem u hu with hs | hs
  · have hpresent := (hinv.index_iff _ fun _ => storeKey_ne_indexIdKey u').mpr ⟨o', inner, u', hitem, hu', rfl⟩
    exact hpresent (heq ▸ hw.fresh u hs huniq)
  · obtain ⟨i, hi, hui⟩ := mem_keysOf.1 hs
    exact ho (hinv.unique o o' i inner u u' hi hitem hui hu' huniq huniq' heq).1.symm

theorem unique_same {u u' : IndexKey} (hu : u ∈ keysOf new)
    (hu' : u' ∈ keysOf new) (huniq : u.isUnique = true) (huniq' : u'.isUnique = true)
    (heq : u.storeKey o = u'.storeKey o) : u = u' := by
  -- a value that was set was not there, so both are set or neither is
  have hmixed : ∀ v ∈ set_, ∀ v' ∈ keysOf (sys.store.items o), v.isUnique = true →
      v.storeKey o ≠ v'.storeKey o := by
    intro v hv v' hv' hvuniq hveq
    obtain ⟨i, hi, hvi⟩ := mem_keysOf.1 hv'
    have hpresent := (hinv.index_iff _ fun _ => storeKey_ne_indexIdKey v').mpr ⟨o, i, v', hi, hvi, rfl⟩
    exact hpresent (hveq ▸ hw.fresh v hv hvuniq)
  rcases hfits.new_mem u hu with h1 | h1 <;> rcases hfits.new_mem u' hu' with h2 | h2
  · exact hw.inj u h1 u' h2 huniq huniq' heq
  · exact absurd heq (hmixed u h1 u' h2 huniq)
  · exact absurd heq.symm (hmixed u' h2 u h1 huniq')
  · obtain ⟨i, hi, hui⟩ := mem_keysOf.1 h1
    obtain ⟨j, hj, huj⟩ := mem_keysOf.1 h2
    exact (hinv.unique o o i j u u' hi hj hui huj huniq huniq' heq).2

/-- **Replacing an object** keeps the invariant, when its references have targets. -/
theorem inv_replace {orphaned : List (ObjectId × ObjectType)}
    {counters : ObjectType → UInt64}
    (hids : ∀ o', index[indexIdKey o']? ≠ none → putItem sys.store.items o new o' ≠ none)
    (hlinked : ∀ o' inner target typeFilter, putItem sys.store.items o new o' = some inner →
      .foreignKey target typeFilter ∈ inner.keys →
      putItem sys.store.items o new target ≠ none ∨ (target, o'.object) ∈ orphaned) :
    Inv ⟨⟨putItem sys.store.items o new, index, counters⟩, orphaned⟩ where
  index_iff key hkey := derived_replace hinv hfits hw hkey
  linked := hlinked
  ids := hids
  unique o₁ o₂ inner₁ inner₂ u₁ u₂ h₁ h₂ hu₁ hu₂ huniq₁ huniq₂ heq := by
    simp only [putItem_eq] at h₁ h₂
    by_cases ho₁ : o₁ = o <;> by_cases ho₂ : o₂ = o
    · subst ho₁
      subst ho₂
      rw [if_pos rfl] at h₁ h₂
      exact ⟨rfl, unique_same hinv hfits hw (mem_keysOf.2 ⟨_, h₁, hu₁⟩) (mem_keysOf.2 ⟨_, h₂, hu₂⟩)
        huniq₁ huniq₂ heq⟩
    · subst ho₁
      rw [if_pos rfl] at h₁
      rw [if_neg ho₂] at h₂
      exact absurd heq (unique_other hinv hfits hw ho₂ h₂ (mem_keysOf.2 ⟨_, h₁, hu₁⟩) hu₂ huniq₁ huniq₂)
    · subst ho₂
      rw [if_neg ho₁] at h₁
      rw [if_pos rfl] at h₂
      exact absurd heq.symm
        (unique_other hinv hfits hw ho₁ h₁ (mem_keysOf.2 ⟨_, h₂, hu₂⟩) hu₁ huniq₂ huniq₁)
    · rw [if_neg ho₁] at h₁
      rw [if_neg ho₂] at h₂
      exact hinv.unique o₁ o₂ inner₁ inner₂ u₁ u₂ h₁ h₂ hu₁ hu₂ huniq₁ huniq₂ heq
  owner key hkey p hp := by
    simp only [putItem_eq]
    rcases hw.owner key hkey p hp with ⟨rfl, u, hu, huniq, rfl⟩ | ⟨hold, hset, hclear⟩
    · obtain ⟨i, hi, hui⟩ := mem_keysOf.1 (hfits.set_mem u hu)
      exact ⟨i, u, by rw [if_pos rfl, hi], hui, huniq, rfl⟩
    · obtain ⟨inner, u, hitem, hu, huniq, rfl⟩ := hinv.owner key hkey p hold
      by_cases hpo : p = o
      · subst hpo
        rcases hfits.dropped u (mem_keysOf.2 ⟨inner, hitem, hu⟩) with hc | hn | ⟨k, hk, heq⟩
        · exact absurd rfl (hclear u hc)
        · obtain ⟨i, hi, hui⟩ := mem_keysOf.1 hn
          exact ⟨i, u, by rw [if_pos rfl, hi], hui, huniq, rfl⟩
        · exact absurd heq (hset k hk)
      · exact ⟨inner, u, by rw [if_neg hpo, hitem], hu, huniq, rfl⟩

end

end

/-! ## What the checks tell -/

section

variable {sys : System} {flags : ObjectType → UInt64} {tenantId accountId : Option Id} {o : ObjectId}

variable {target : ObjectId} {property : Property} {typeFilter : IndexValue} {index : Index}
  {keys : List IndexKey}

theorem item_of_indexed (hinv : Inv sys) {value : IndexValue}
    (h : indexed sys.store.index target property value = true) : sys.store.items target ≠ none := by
  have hpresent : sys.store.index[(search property value).storeKey target]? ≠ none :=
    isSome_iff_ne_none.mp h
  obtain ⟨o', inner, k, hitem, -, heq⟩ :=
    (hinv.index_iff _ fun _ => storeKey_ne_indexIdKey _).mp hpresent
  obtain ⟨rfl, -⟩ := storeKey_search_inj heq.symm
  rw [hitem]
  exact some_ne_none _

theorem item_of_checkForeignKey (hinv : Inv sys)
    (h : checkForeignKey flags sys.store.index tenantId accountId target typeFilter = none) :
    sys.store.items target ≠ none := by
  simp only [checkForeignKey] at h
  split at h
  · next hall =>
    rw [Bool.and_eq_true, Bool.and_eq_true] at hall
    have hexists := hall.1.1
    unfold targetExists at hexists
    split at hexists
    · exact item_of_indexed hinv hexists
    · exact hinv.ids target (isSome_iff_ne_none.mp hexists)
  · cases h

theorem checkKeys_cons {k : IndexKey} {r : Except WriteError (Option RegistryWriteResult)}
    (hr : r ≠ .ok none) :
    checkKeys flags index tenantId accountId o (k :: keys) = r ↔
      checkKey flags index tenantId accountId o k = r ∨
        checkKey flags index tenantId accountId o k = .ok none ∧
          checkKeys flags index tenantId accountId o keys = r := by
  rw [checkKeys]
  cases checkKey flags index tenantId accountId o k with
  | error e => simp
  | ok x =>
    cases x with
    | none => simp [Ne.symm hr]
    | some x => simp

theorem checkKey_of_checkKeys (h : checkKeys flags index tenantId accountId o keys = .ok none) :
    ∀ k ∈ keys, checkKey flags index tenantId accountId o k = .ok none := by
  induction keys with
  | nil => simp
  | cons k keys ih =>
    rw [checkKeys] at h
    split at h
    · next hk =>
      intro k' hk'
      rcases mem_cons.mp hk' with rfl | hk'
      · exact hk
      · exact ih h k' hk'
    · next hne => exact absurd h hne

theorem linked_of_checkKeys (hinv : Inv sys)
    (h : checkKeys flags sys.store.index tenantId accountId o keys = .ok none)
    (hmem : .foreignKey target typeFilter ∈ keys) : sys.store.items target ≠ none := by
  have hkey := checkKey_of_checkKeys h _ hmem
  exact item_of_checkForeignKey hinv (Except.ok.inj hkey)

theorem conflict_of_checkKeys {existingId : ObjectId}
    (h : checkKeys flags index tenantId accountId o keys = .ok (some (.primaryKeyConflict property existingId))) :
    ∃ value₁ value₂ isGlobal, unique property value₁ value₂ isGlobal ∈ keys ∧
      index[(unique property value₁ value₂ isGlobal).storeKey o]? = some (some existingId) := by
  induction keys with
  | nil => cases h
  | cons k keys ih =>
    rcases (checkKeys_cons (by simp)).mp h with hk | ⟨-, hrest⟩
    · cases k with
      | unique property' value₁ value₂ isGlobal =>
        simp only [checkKey] at hk
        split at hk
        · cases hk
        · cases hk
        · next existingId' hfound =>
          split_ifs at hk
          · cases hk
          · obtain ⟨rfl, rfl⟩ : property' = property ∧ existingId' = existingId := by
              simpa using hk
            exact ⟨value₁, value₂, isGlobal, mem_cons_self, hfound⟩
      | search property' value => cases hk
      | foreignKey target typeFilter =>
        simp only [checkKey, checkForeignKey] at hk
        split_ifs at hk <;> cases hk
    · obtain ⟨value₁, value₂, isGlobal, hmem, hfound⟩ := ih hrest
      exact ⟨value₁, value₂, isGlobal, mem_cons_of_mem _ hmem, hfound⟩

end

/-! ## What a write does -/

section

variable {flags : ObjectType → UInt64} {xxh3 : List UInt8 → UInt64} {s s' : RegistryStore}
  {answer : RegistryStore.Answer}

variable {object : ObjectInner} {revision : Option UInt64}

theorem put_cases {o : ObjectId} {set_ clear : List IndexKey} {writeId : Bool}
    (h : s.put xxh3 object o set_ clear writeId revision = (s', answer)) :
    (s'.items = s.items ∧ s'.index = s.index) ∨
      ∃ index, (∀ r, revision = some r → (s.get xxh3 o).map Object.revision = some r) ∧
        commit s.index ((if writeId then [.set (indexIdKey o) none] else []) ++ registryIndex o set_ true ++
          registryIndex o clear false) = some index ∧
        s' = ⟨putItem s.items o (some object), index, s.counters⟩ := by
  unfold put at h
  split at h
  · exact .inl (by simp [← (Prod.mk.inj h).1])
  split at h
  · exact .inl (by simp [← (Prod.mk.inj h).1])
  next hrev =>
  split at h
  · exact .inl (by simp [← (Prod.mk.inj h).1])
  next index hcommit =>
  refine .inr ⟨index, fun r hr => ?_, hcommit, (Prod.mk.inj h).1.symm⟩
  rw [hr] at hrev
  simpa using hrev

/-- The object that an insertion or an update writes. -/
def storeTarget (s : RegistryStore) (object : ObjectInner) (itemId : UInt64) (generateId : Bool) : ObjectId :=
  ⟨object.objectType, ⟨if generateId then s.counters object.objectType + 1 else itemId⟩⟩

theorem store_cases {set_ clear : List IndexKey} {itemId : UInt64} {writeId generateId : Bool}
    (h : s.store flags xxh3 object set_ clear itemId writeId generateId revision = (s', answer)) :
    (s'.items = s.items ∧ s'.index = s.index) ∨
      ∃ index counters o, o = storeTarget s object itemId generateId ∧
        checkKeys flags s.index object.memberTenantId (accountOf object itemId)
          ⟨object.objectType, ⟨itemId⟩⟩ set_ = .ok none ∧
        (∀ r, revision = some r → (s.get xxh3 o).map Object.revision = some r) ∧
        commit s.index ((if writeId then [.set (indexIdKey o) none] else []) ++ registryIndex o set_ true ++
          registryIndex o clear false) = some index ∧
        s' = ⟨putItem s.items o (some object), index, counters⟩ := by
  unfold store at h
  split at h
  · exact .inl (by simp [← (Prod.mk.inj h).1])
  split at h
  · exact .inl (by simp [← (Prod.mk.inj h).1])
  split at h
  · exact .inl (by simp [← (Prod.mk.inj h).1])
  · exact .inl (by simp [← (Prod.mk.inj h).1])
  next hcheck =>
  cases generateId with
  | false =>
    rcases put_cases h with hsame | ⟨index, hrev, hcommit, hs⟩
    · exact .inl hsame
    · exact .inr ⟨index, s.counters, _, rfl, hcheck, hrev, hcommit, hs⟩
  | true =>
    rcases put_cases h with hsame | ⟨index, hrev, hcommit, hs⟩
    · exact .inl hsame
    · exact .inr ⟨index, _, _, rfl, hcheck, hrev, hcommit, hs⟩

theorem put_ne_conflict (s : RegistryStore) (object : ObjectInner) (o : ObjectId) (set_ clear : List IndexKey)
    (writeId : Bool) (revision : Option UInt64) (property : Property) (existingId : ObjectId) :
    (s.put xxh3 object o set_ clear writeId revision).2 ≠ .ok (.primaryKeyConflict property existingId) := by
  unfold put
  split
  · simp
  split
  · simp
  split <;> simp

theorem conflict_of_store {set_ clear : List IndexKey} {itemId : UInt64} {writeId generateId : Bool}
    {property : Property} {existingId : ObjectId}
    (h : (s.store flags xxh3 object set_ clear itemId writeId generateId revision).2 =
      .ok (.primaryKeyConflict property existingId)) :
    checkKeys flags s.index object.memberTenantId (accountOf object itemId)
      ⟨object.objectType, ⟨itemId⟩⟩ set_ = .ok (some (.primaryKeyConflict property existingId)) := by
  unfold store at h
  split at h
  · cases h
  split at h
  · cases generateId <;> cases h
  split at h
  · cases h
  · next result hcheck =>
    rw [hcheck]
    exact congrArg Except.ok (congrArg some (Except.ok.inj h))
  · exact absurd h (put_ne_conflict _ _ _ _ _ _ _ _ _)

theorem delete_cases {objectId : ObjectId} {object : Option Object} {allowed : List ObjectType}
    (h : s.delete xxh3 objectId object allowed = (s', answer)) :
    (s' = s ∧ ∀ id, answer ≠ .ok (.success id)) ∨
      ∃ index x linked, object.or (s.get xxh3 objectId) = some x ∧
        linkedObjects s.index objectId = .ok linked ∧ (∀ o ∈ linked, o.object ∈ allowed) ∧
        (s.get xxh3 objectId).map Object.revision = some x.revision ∧
        commit s.index ([.clear (indexIdKey objectId)] ++ registryIndex objectId x.inner.keys false) = some index ∧
        s' = ⟨putItem s.items objectId none, index, s.counters⟩ ∧
        answer = .ok (.success objectId.id) := by
  unfold delete at h
  split at h
  · obtain ⟨rfl, rfl⟩ := Prod.mk.inj h
    exact .inl ⟨rfl, by simp⟩
  next x hx =>
  split at h
  · obtain ⟨rfl, rfl⟩ := Prod.mk.inj h
    exact .inl ⟨rfl, by simp⟩
  next linked hlinked =>
  dsimp only at h
  split at h
  · obtain ⟨rfl, rfl⟩ := Prod.mk.inj h
    exact .inl ⟨rfl, by simp⟩
  next hallowed =>
  split at h
  · obtain ⟨rfl, rfl⟩ := Prod.mk.inj h
    exact .inl ⟨rfl, by simp⟩
  next hrev =>
  split at h
  · obtain ⟨rfl, rfl⟩ := Prod.mk.inj h
    exact .inl ⟨rfl, by simp⟩
  next index hcommit =>
  obtain ⟨rfl, rfl⟩ := Prod.mk.inj h
  refine .inr ⟨index, x, linked, hx, hlinked, fun o ho => ?_, not_not.mp hrev, hcommit, rfl, rfl⟩
  by_contra hno
  exact hallowed (ne_nil_of_mem (mem_filter.mpr ⟨ho, by simpa using hno⟩))

theorem delete_ne_conflict (s : RegistryStore) (objectId : ObjectId) (object : Option Object)
    (allowed : List ObjectType) (property : Property) (existingId : ObjectId) :
    (s.delete xxh3 objectId object allowed).2 ≠ .ok (.primaryKeyConflict property existingId) := by
  unfold delete
  split
  · simp
  split
  · simp
  dsimp only
  split
  · simp
  split
  · simp
  split <;> simp

end

/-! ## Writes that keep the index -/

section

variable (flags : ObjectType → UInt64) (xxh3 : List UInt8 → UInt64)

/-- No other stored object is indexed by the store key of an index key of `o`.  (The references and the unique
values of two objects are in one subspace.) -/
def Exclusive (s : RegistryStore) (o : ObjectId) (k : IndexKey) : Prop :=
  ∀ o' ≠ o, ∀ inner, s.items o' = some inner → ∀ k' ∈ inner.keys, k'.storeKey o' ≠ k.storeKey o

/-- The id of an insertion. -/
def insertTarget (s : RegistryStore) (object : ObjectInner) (id : Option Id) (generated : UInt64) : ObjectId :=
  ⟨object.objectType,
    match id with
    | some id => id
    | none =>
      if flags object.objectType &&& OBJ_SINGLETON ≠ 0 then ⟨singletonId⟩
      else if flags object.objectType &&& OBJ_SEQ_ID ≠ 0 then ⟨s.counters object.objectType + 1⟩
      else ⟨generated⟩⟩

/-- * An insertion replaces no object that is indexed by a store key which the new object does not have.
* An update drops no index key whose store key the new object still has.
* A store key that is cleared is that of one object only. -/
def Keeps (s : RegistryStore) : RegistryWrite → Prop
  | .insert object id generated =>
    let o := insertTarget flags s object.inner id generated
    ∀ inner, s.items o = some inner → ∀ k ∈ inner.keys, ∃ k' ∈ object.inner.keys, k'.storeKey o = k.storeKey o
  | .update object id oldObject =>
    let o : ObjectId := ⟨object.inner.objectType, id⟩
    ∀ k ∈ oldObject.inner.keys, k ∉ object.inner.keys →
      (∀ k' ∈ object.inner.keys, k'.storeKey o ≠ k.storeKey o) ∧ Exclusive s o k
  | .delete objectId _ _ => ∀ inner, s.items objectId = some inner → ∀ k ∈ inner.keys, Exclusive s objectId k

/-- No stored object has, under the same property and in the same scope, two other values with the same
composite key. -/
def Apart (s : RegistryStore) (object : ObjectInner) : Prop :=
  ∀ property value₁ value₂ isGlobal, unique property value₁ value₂ isGlobal ∈ object.keys →
    ∀ o inner value₁' value₂', s.items o = some inner →
      unique property value₁' value₂' isGlobal ∈ inner.keys →
      (isGlobal = true ∨ object.objectType = o.object) →
      serializeCompositeKey value₁ value₂ = serializeCompositeKey value₁' value₂' →
      value₁ = value₁' ∧ value₂ = value₂'

/-- The object that is written, if any. -/
def RegistryWrite.written : RegistryWrite → Option ObjectInner
  | .insert object _ _ | .update object _ _ => some object.inner
  | .delete _ _ _ => none

/-- A conflict is only reported with an object that has the same unique value. -/
def Honest (s : RegistryStore) (w : RegistryWrite) : Prop :=
  ∀ property existingId, (s.write flags xxh3 w).2 = .ok (.primaryKeyConflict property existingId) →
    ∃ object inner value₁ value₂ isGlobal, w.written = some object ∧ s.items existingId = some inner ∧
      unique property value₁ value₂ isGlobal ∈ object.keys ∧
      unique property value₁ value₂ isGlobal ∈ inner.keys

end

section

variable {flags : ObjectType → UInt64} {xxh3 : List UInt8 → UInt64} {sys : System} {s' : RegistryStore}
  {answer : RegistryStore.Answer}

theorem inv_same (hinv : Inv sys) {orphaned : List (ObjectId × ObjectType)}
    (h : s'.items = sys.store.items ∧ s'.index = sys.store.index) (ho : ∀ x ∈ sys.orphaned, x ∈ orphaned) :
    Inv ⟨s', orphaned⟩ where
  index_iff key hkey := by
    simp only [RegistryStore.Derived, h.1, h.2]
    exact hinv.index_iff key hkey
  unique := by
    simp only [h.1]
    exact hinv.unique
  linked o inner target typeFilter := by
    simp only [h.1]
    intro hitem hmem
    exact (hinv.linked o inner target typeFilter hitem hmem).imp_right (ho _)
  ids := by
    simp only [h.1, h.2]
    exact hinv.ids
  owner := by
    simp only [h.1, h.2]
    exact hinv.owner

theorem inv_store (hinv : Inv sys) {object : ObjectInner} {set_ clear : List IndexKey} {itemId : UInt64}
    {writeId generateId : Bool} {revision : Option UInt64}
    (h : sys.store.store flags xxh3 object set_ clear itemId writeId generateId revision = (s', answer))
    (hfits : ∀ o, o = storeTarget sys.store object itemId generateId →
      (∀ r, revision = some r → (sys.store.get xxh3 o).map Object.revision = some r) →
      Fits sys.store o (some object) set_ clear) :
    Inv ⟨s', sys.orphaned⟩ := by
  rcases store_cases h with hsame | ⟨index, counters, o, ho, hcheck, hrev, hcommit, rfl⟩
  · exact inv_same hinv hsame fun _ => id
  have hfits := hfits o ho hrev
  obtain ⟨index₀, hfirst, hkept, hids⟩ : ∃ index₀,
      commit sys.store.index (if writeId then [.set (indexIdKey o) none] else []) = some index₀ ∧
      (∀ key, (∀ o', key ≠ indexIdKey o') → index₀[key]? = sys.store.index[key]?) ∧
      ∀ o', o' ≠ o → index₀[indexIdKey o']? = sys.store.index[indexIdKey o']? := by
    cases writeId with
    | false => exact ⟨_, rfl, fun _ _ => rfl, fun _ _ => rfl⟩
    | true =>
      refine ⟨_, rfl, fun key hkey => ?_, fun o' ho' => ?_⟩
      · rw [HashMap.getElem?_insert, if_neg (hkey o).symm]
      · rw [HashMap.getElem?_insert, if_neg fun heq => ho' (indexIdKey_inj.mp heq).symm]
  refine inv_replace hinv hfits (written_of_commit hfirst hkept hcommit) (fun o' ho' => ?_) ?_
  · rw [putItem_eq]
    split_ifs with heq
    · exact some_ne_none _
    · rw [ids_of_commit hfirst hcommit, hids o' heq] at ho'
      exact hinv.ids o' ho'
  · intro o' inner target typeFilter hitem hmem
    have htarget : sys.store.items target ≠ none →
        putItem sys.store.items o (some object) target ≠ none := by
      intro ht
      rw [putItem_eq]
      split_ifs
      · exact some_ne_none _
      · exact ht
    rw [putItem_eq] at hitem
    split_ifs at hitem with heq
    · obtain rfl := some.inj hitem
      rcases hfits.new_mem _ (mem_keysOf.2 ⟨object, rfl, hmem⟩) with hs | hs
      · exact .inl (htarget (linked_of_checkKeys hinv hcheck hs))
      · obtain ⟨i, hi, hki⟩ := mem_keysOf.1 hs
        subst heq
        exact (hinv.linked o' i target typeFilter hi hki).imp_left htarget
    · exact (hinv.linked o' inner target typeFilter hitem hmem).imp_left htarget

variable {object : Object} {w : RegistryWrite}

theorem inv_insert (hinv : Inv sys) {id : Option Id} {generated : UInt64}
    (hkeeps : Keeps flags sys.store (.insert object id generated)) :
    Inv ⟨(sys.store.write flags xxh3 (.insert object id generated)).1, sys.orphaned⟩ := by
  have hfits : Fits sys.store (insertTarget flags sys.store object.inner id generated) (some object.inner)
      object.inner.keys [] := by
    refine ⟨fun k hk => mem_keysOf.2 ⟨_, rfl, hk⟩, fun k hk => ?_, fun k hk => ?_,
      (fun _ h => by cases h), fun _ h => by cases h⟩
    · obtain ⟨i, hi, hki⟩ := mem_keysOf.1 hk
      obtain rfl := some.inj hi
      exact .inl hki
    · obtain ⟨i, hi, hki⟩ := mem_keysOf.1 hk
      exact .inr (.inr (hkeeps i hi k hki))
  have hstore : ∀ itemId writeId generateId,
      storeTarget sys.store object.inner itemId generateId =
        insertTarget flags sys.store object.inner id generated →
      Inv ⟨(sys.store.store flags xxh3 object.inner object.inner.keys [] itemId writeId generateId none).1,
        sys.orphaned⟩ := by
    intro itemId writeId generateId htarget
    refine inv_store hinv rfl ?_
    rintro o rfl -
    rw [htarget]
    exact hfits
  unfold insertTarget at hstore
  unfold write
  cases id with
  | some id => exact hstore _ _ _ rfl
  | none =>
    dsimp only at hstore ⊢
    split_ifs at hstore ⊢
    all_goals exact hstore _ _ _ rfl

theorem item_of_current {s : RegistryStore} {o : ObjectId}
    (hcurrent : s.current xxh3 o object = true)
    (hrev : (s.get xxh3 o).map Object.revision = some object.revision) : s.items o = some object.inner := by
  obtain ⟨x, hx, hxrev⟩ := map_eq_some_iff.mp hrev
  rw [current, hx] at hcurrent
  have heq : object = x := by simpa [hxrev] using hcurrent
  obtain ⟨inner, hinner, rfl⟩ := map_eq_some_iff.mp hx
  rw [hinner, heq]

theorem inv_update (hinv : Inv sys) {oldObject : Object} {id : Id}
    (hcurrent : sys.store.current xxh3 ⟨object.inner.objectType, id⟩ oldObject = true)
    (hkeeps : Keeps flags sys.store (.update object id oldObject)) :
    Inv ⟨(sys.store.write flags xxh3 (.update object id oldObject)).1, sys.orphaned⟩ := by
  unfold write
  dsimp only
  split
  · exact hinv
  · refine inv_store hinv rfl ?_
    rintro o rfl hrev
    have hitem : sys.store.items (storeTarget sys.store object.inner id.id false) = some oldObject.inner :=
      item_of_current hcurrent (hrev _ rfl)
    have hkeys : ∀ k, k ∈ keysOf (sys.store.items (storeTarget sys.store object.inner id.id false)) ↔
        k ∈ oldObject.inner.keys := by
      intro k
      rw [hitem]
      rfl
    refine ⟨fun k hk => mem_keysOf.2 ⟨_, rfl, (mem_filter.mp hk).1⟩, fun k hk => ?_, fun k hk => ?_,
      fun k hk k' hk' => ?_, fun k hk => ?_⟩
    · obtain ⟨i, hi, hki⟩ := mem_keysOf.1 hk
      obtain rfl := some.inj hi
      by_cases hold : k ∈ oldObject.inner.keys
      · exact .inr ((hkeys k).mpr hold)
      · exact .inl (mem_filter.mpr ⟨hki, by simpa using hold⟩)
    · have hold := (hkeys k).mp hk
      by_cases hnew : k ∈ object.inner.keys
      · exact .inr (.inl (mem_keysOf.2 ⟨_, rfl, hnew⟩))
      · exact .inl (mem_filter.mpr ⟨hold, by simpa using hnew⟩)
    · obtain ⟨hold, hnew⟩ := mem_filter.mp hk
      obtain ⟨i, hi, hki⟩ := mem_keysOf.1 hk'
      obtain rfl := some.inj hi
      exact (hkeeps k hold (by simpa using hnew)).1 k' hki
    · obtain ⟨hold, hnew⟩ := mem_filter.mp hk
      exact (hkeeps k hold (by simpa using hnew)).2

theorem inv_delete (hinv : Inv sys) {objectId : ObjectId} {object : Option Object} {allowed : List ObjectType}
    (hcurrent : object.all (sys.store.current xxh3 objectId) = true)
    (hkeeps : Keeps flags sys.store (.delete objectId object allowed))
    (h : sys.store.delete xxh3 objectId object allowed = (s', answer)) :
    Inv ⟨s', sys.orphaned ++ orphans (.delete objectId object allowed) answer⟩ := by
  rcases delete_cases h with ⟨rfl, -⟩ | ⟨index, x, linked, hx, hlinked, hallowed, hrev, hcommit, rfl, rfl⟩
  · exact inv_same hinv ⟨rfl, rfl⟩ fun _ hx => mem_append_left _ hx
  have hitem : sys.store.items objectId = some x.inner := by
    refine item_of_current ?_ hrev
    cases object with
    | some y =>
      obtain rfl := some.inj hx
      exact hcurrent
    | none =>
      have hget : sys.store.get xxh3 objectId = some x := hx
      simp [current, hget]
  have hkeys : keysOf (sys.store.items objectId) = x.inner.keys := by rw [hitem]; rfl
  have hfits : Fits sys.store objectId none [] x.inner.keys := by
    refine ⟨(fun _ h => by cases h), fun k hk => absurd hk not_mem_nil, fun k hk => .inl (hkeys ▸ hk),
      fun k _ k' hk' => absurd hk' not_mem_nil, fun k hk => hkeeps x.inner hitem k hk⟩
  have hcommit' : commit sys.store.index ([.clear (indexIdKey objectId)] ++ registryIndex objectId [] true ++
      registryIndex objectId x.inner.keys false) = some index := hcommit
  have hfirst : commit sys.store.index [.clear (indexIdKey objectId)] =
      some (sys.store.index.erase (indexIdKey objectId)) := rfl
  refine inv_replace hinv hfits (written_of_commit hfirst (fun key hkey => ?_) hcommit')
    (fun o' ho' => ?_) ?_
  · rw [HashMap.getElem?_erase, if_neg (hkey objectId).symm]
  · rw [ids_of_commit hfirst hcommit', HashMap.getElem?_erase] at ho'
    split_ifs at ho' with heq
    · exact absurd rfl ho'
    · rw [putItem_eq, if_neg fun h => heq (indexIdKey_inj.mpr h.symm)]
      exact hinv.ids o' ho'
  · intro o' inner target typeFilter hput hmem
    rw [putItem_eq] at hput ⊢
    split_ifs at hput with ho'
    -- an object that still refers to the deleted one is among the linked ones
    have hpresent : sys.store.index[(foreignKey target typeFilter).storeKey o']? ≠ none :=
      (hinv.index_iff _ fun _ => storeKey_ne_indexIdKey _).mpr ⟨o', inner, _, hput, hmem, rfl⟩
    split_ifs with htarget
    · subst htarget
      refine .inr (mem_append_right _ (List.mem_map.mpr ⟨o'.object, ?_, rfl⟩))
      exact hallowed o' (mem_linkedObjects hlinked hpresent)
    · exact (hinv.linked o' inner target typeFilter hput hmem).imp_right (mem_append_left _)

theorem inv_step (hinv : Inv sys) {sys' : System} (hkeeps : Keeps flags sys.store w)
    (h : step flags xxh3 sys w = some sys') : Inv sys' := by
  unfold step at h
  split at h
  · next hfaithful =>
    obtain rfl := some.inj h
    cases w with
    | insert object id generated =>
      have hnone : orphans (.insert object id generated)
          (sys.store.write flags xxh3 (.insert object id generated)).2 = [] := rfl
      rw [hnone, append_nil]
      exact inv_insert hinv hkeeps
    | update object id oldObject =>
      have hnone : orphans (.update object id oldObject)
          (sys.store.write flags xxh3 (.update object id oldObject)).2 = [] := rfl
      rw [hnone, append_nil]
      exact inv_update hinv hfaithful hkeeps
    | delete objectId object allowed =>
      simp only [write]
      split
      · exact inv_delete hinv hfaithful hkeeps rfl
      · simpa [orphans] using hinv
  · cases h

theorem honest_of_apart (hinv : Inv sys)
    (hapart : ∀ object, w.written = some object → Apart sys.store object) : Honest flags xxh3 sys.store w := by
  -- the conflict comes from the checks of `store`
  have hstore : ∀ (object : ObjectInner) set_ clear itemId writeId generateId revision property existingId,
      w.written = some object → (∀ k ∈ set_, k ∈ object.keys) →
      (sys.store.store flags xxh3 object set_ clear itemId writeId generateId revision).2 =
        .ok (.primaryKeyConflict property existingId) →
      ∃ object inner value₁ value₂ isGlobal, w.written = some object ∧ sys.store.items existingId = some inner ∧
        unique property value₁ value₂ isGlobal ∈ object.keys ∧
        unique property value₁ value₂ isGlobal ∈ inner.keys := by
    intro object set_ clear itemId writeId generateId revision property existingId hwritten hset hconflict
    obtain ⟨value₁, value₂, isGlobal, hmem, hfound⟩ := conflict_of_checkKeys (conflict_of_store hconflict)
    obtain ⟨inner, u, hitem, hu, huniq, heq⟩ :=
      hinv.owner _ (fun _ => storeKey_ne_indexIdKey _) existingId hfound
    cases u with
    | unique property' value₁' value₂' isGlobal' =>
      obtain ⟨rfl, rfl, hscope, hcomposite⟩ := storeKey_unique_inj heq.symm
      obtain ⟨rfl, rfl⟩ := hapart object hwritten property value₁ value₂ isGlobal (hset _ hmem) existingId inner
        value₁' value₂' hitem hu hscope hcomposite
      exact ⟨object, inner, value₁, value₂, isGlobal, hwritten, hitem, hset _ hmem, hu⟩
    | search property' value => cases huniq
    | foreignKey target typeFilter => cases huniq
  intro property existingId hconflict
  cases w with
  | insert object id generated =>
    have hinsert := fun itemId writeId generateId => hstore object.inner object.inner.keys [] itemId writeId
      generateId none property existingId rfl fun _ h => h
    simp only [write] at hconflict
    split at hconflict
    · exact hinsert _ _ _ hconflict
    split at hconflict
    · exact hinsert _ _ _ hconflict
    split at hconflict
    · exact hinsert _ _ _ hconflict
    · exact hinsert _ _ _ hconflict
  | update object id oldObject =>
    simp only [write] at hconflict
    split at hconflict
    · cases hconflict
    · exact hstore object.inner _ _ _ _ _ _ property existingId rfl (fun k hk => (mem_filter.mp hk).1)
        hconflict
  | delete objectId object allowed =>
    simp only [write] at hconflict
    split at hconflict
    · exact absurd hconflict (delete_ne_conflict _ _ _ _ _ _)
    · cases hconflict

end

/-- `ObjectType::MemoryLookupKey`. -/
def memoryLookupKeyType : ObjectType := ⟨52, by decide⟩

/-- `Property::Namespace`. -/
def Property.namespace_ : Property := ⟨414, by decide⟩

/-- A `MemoryLookupKey`, with its index keys. -/
def memoryLookupKey (namespace_ key : String) : Object where
  inner :=
    { objectType := memoryLookupKeyType
      keys := [.unique .namespace_ (.text namespace_) (.text key) true, .search .namespace_ (.text namespace_)]
      errors := []
      isDataStore := false
      memberTenantId := none
      accountId := none
      pickled := namespace_.toUTF8.data.toList ++ key.toUTF8.data.toList }
  revision := 0

def noFlags : ObjectType → UInt64 := fun _ => 0

def noHash : List UInt8 → UInt64 := fun _ => 0

end MailServer.Store.Registry
