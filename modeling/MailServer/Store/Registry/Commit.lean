import MailServer.Lib.Lex
import MailServer.Store.Registry.Write

/-!
# What a batch of the registry leaves in the index

* `commit_clear`: cleared keys are gone, the others are as they were.
* `commit_set`: keys that were set are there, and no unique value among them was there before.
* `mem_linkedObjects`: a reference that is in the index is found.
-/

namespace MailServer.Store.Registry

open MailServer.Types MailServer.Utils MailServer.Store.Write MailServer.Lib List Option IndexKey

variable {o : ObjectId} {index index' : Index} {keys : List IndexKey}

theorem commit_append (index : Index) (ops ops' : List Op) :
    commit index (ops ++ ops') = (commit index ops).bind fun index => commit index ops' := by
  induction ops generalizing index with
  | nil => rfl
  | cons op ops ih =>
    rw [cons_append, commit, commit, bind_assoc]
    congr 1
    funext index
    exact ih index

theorem commit_clear (h : commit index (registryIndex o keys false) = some index') (key : List UInt8) :
    index'[key]? = if ∃ k ∈ keys, k.storeKey o = key then none else index[key]? := by
  induction keys generalizing index with
  | nil =>
    obtain rfl := some.inj h
    simp
  | cons k keys ih =>
    have h' : commit (index.erase (k.storeKey o)) (registryIndex o keys false) = some index' := h
    rw [ih h', HashMap.getElem?_erase]
    by_cases hk : k.storeKey o = key
    · simp [hk]
    · simp [hk]

theorem commit_ops_true {k : IndexKey} {rest : List Op}
    (h : commit index (k.ops o true ++ rest) = some index') :
    (k.isUnique = true → index[k.storeKey o]? = none) ∧
      commit (index.insert (k.storeKey o) (k.entry o)) rest = some index' := by
  cases hk : k.isUnique with
  | false =>
    simp only [ops, hk] at h
    exact ⟨nofun, h⟩
  | true =>
    simp only [ops, hk] at h
    by_cases hnone : index[k.storeKey o]? = none
    · simpa [commit, Op.apply, hnone] using h
    · simp [commit, Op.apply, hnone] at h

/-- What the keys of an object leave that were set. -/
structure KeysSet (o : ObjectId) (keys : List IndexKey) (index index' : Index) : Prop where
  none_iff : ∀ key, index'[key]? = none ↔ index[key]? = none ∧ ∀ k ∈ keys, k.storeKey o ≠ key
  kept : ∀ key, (∀ k ∈ keys, k.storeKey o ≠ key) → index'[key]? = index[key]?
  fresh : ∀ u ∈ keys, u.isUnique = true → index[u.storeKey o]? = none
  inj : ∀ u ∈ keys, ∀ u' ∈ keys, u.isUnique = true → u'.isUnique = true →
    u.storeKey o = u'.storeKey o → u = u'
  value : ∀ k ∈ keys, ∀ p, index'[k.storeKey o]? = some (some p) →
    p = o ∧ ∃ u ∈ keys, u.isUnique = true ∧ u.storeKey o = k.storeKey o

theorem commit_set (h : commit index (registryIndex o keys true) = some index') :
    KeysSet o keys index index' := by
  induction keys generalizing index with
  | nil =>
    obtain rfl := some.inj h
    exact ⟨by simp, by simp, by simp, by simp, by simp⟩
  | cons k keys ih =>
    obtain ⟨hfresh, hrest⟩ := commit_ops_true h
    have ih := ih hrest
    -- a unique value behind `k` was not there with `k` set
    have hne : ∀ u ∈ keys, u.isUnique = true → k.storeKey o ≠ u.storeKey o ∧ index[u.storeKey o]? = none := by
      intro u hu huniq
      have := ih.fresh u hu huniq
      rw [HashMap.getElem?_insert] at this
      split_ifs at this with heq
      exact ⟨heq, this⟩
    refine ⟨fun key => ?_, fun key hkey => ?_, fun u hu huniq => ?_, ?_, fun k' hk' p hp => ?_⟩
    · rw [ih.none_iff, HashMap.getElem?_insert]
      simp only [mem_cons, forall_eq_or_imp]
      split_ifs with heq
      · simp [heq]
      · tauto
    · rw [ih.kept key fun k' hk' => hkey k' (mem_cons_of_mem _ hk'), HashMap.getElem?_insert,
        if_neg (hkey k mem_cons_self)]
    · rcases mem_cons.mp hu with rfl | hu
      · exact hfresh huniq
      · exact (hne u hu huniq).2
    · intro u hu u' hu' huniq huniq' heq
      rcases mem_cons.mp hu with h1 | h1 <;> rcases mem_cons.mp hu' with h2 | h2
      · exact h1.trans h2.symm
      · exact absurd (h1 ▸ heq) (hne u' h2 huniq').1
      · exact absurd (h2 ▸ heq.symm) (hne u h1 huniq).1
      · exact ih.inj u h1 u' h2 huniq huniq' heq
    · by_cases hmem : ∃ k'' ∈ keys, k''.storeKey o = k'.storeKey o
      · obtain ⟨k'', hk'', heq⟩ := hmem
        obtain ⟨rfl, u, hu, huniq, hueq⟩ := ih.value k'' hk'' p (heq ▸ hp)
        exact ⟨rfl, u, mem_cons_of_mem _ hu, huniq, hueq.trans heq⟩
      · -- nothing behind `k` has the key, so the value is that of `k`
        obtain rfl : k' = k := by
          rcases mem_cons.mp hk' with rfl | hk'
          · rfl
          · exact absurd ⟨k', hk', rfl⟩ hmem
        rw [ih.kept _ fun k'' hk'' heq => hmem ⟨k'', hk'', heq⟩, HashMap.getElem?_insert, if_pos rfl] at hp
        have hentry := some.inj hp
        cases huniq : k'.isUnique with
        | false => simp [entry, huniq] at hentry
        | true =>
          simp only [entry, huniq] at hentry
          exact ⟨(some.inj hentry).symm, k', mem_cons_self, huniq, rfl⟩

/-! ## The batch of a write -/

/-- What the batch of a write of the object `o` leaves, that sets and clears index keys. -/
structure Written (o : ObjectId) (set_ clear : List IndexKey) (index index' : Index) : Prop where
  none_iff : ∀ key, (∀ o', key ≠ indexIdKey o') → (index'[key]? = none ↔
    (index[key]? = none ∧ ∀ k ∈ set_, k.storeKey o ≠ key) ∨ ∃ k ∈ clear, k.storeKey o = key)
  fresh : ∀ u ∈ set_, u.isUnique = true → index[u.storeKey o]? = none
  inj : ∀ u ∈ set_, ∀ u' ∈ set_, u.isUnique = true → u'.isUnique = true →
    u.storeKey o = u'.storeKey o → u = u'
  owner : ∀ key, (∀ o', key ≠ indexIdKey o') → ∀ p, index'[key]? = some (some p) →
    (p = o ∧ ∃ u ∈ set_, u.isUnique = true ∧ u.storeKey o = key) ∨
      (index[key]? = some (some p) ∧ (∀ k ∈ set_, k.storeKey o ≠ key) ∧ ∀ k ∈ clear, k.storeKey o ≠ key)

section

variable {first : List Op} {index₀ : Index} {set_ clear : List IndexKey} (hfirst : commit index first = some index₀)
include hfirst

theorem written_of_commit
    (hkept : ∀ key, (∀ o', key ≠ indexIdKey o') → index₀[key]? = index[key]?)
    (h : commit index (first ++ registryIndex o set_ true ++ registryIndex o clear false) = some index') :
    Written o set_ clear index index' := by
  rw [commit_append, commit_append, hfirst] at h
  obtain ⟨index₁, hset, hclear⟩ := bind_eq_some_iff.mp h
  have hs := commit_set hset
  have hc := commit_clear hclear
  refine ⟨fun key hkey => ?_, fun u hu huniq => ?_, hs.inj, fun key hkey p hp => ?_⟩
  · rw [hc, ← hkept key hkey]
    split_ifs with h1
    · simp [h1]
    · simp only [h1, or_false]
      exact hs.none_iff key
  · rw [← hkept _ fun o' => storeKey_ne_indexIdKey u]
    exact hs.fresh u hu huniq
  · rw [hc] at hp
    split_ifs at hp with h1
    have hnot : ∀ k ∈ clear, k.storeKey o ≠ key := fun k hk heq => h1 ⟨k, hk, heq⟩
    by_cases h2 : ∃ k ∈ set_, k.storeKey o = key
    · obtain ⟨k, hk, rfl⟩ := h2
      exact .inl (hs.value k hk p hp)
    · have hfree : ∀ k ∈ set_, k.storeKey o ≠ key := fun k hk heq => h2 ⟨k, hk, heq⟩
      rw [hs.kept key hfree, hkept key hkey] at hp
      exact .inr ⟨hp, hfree, hnot⟩

theorem ids_of_commit
    (h : commit index (first ++ registryIndex o set_ true ++ registryIndex o clear false) = some index')
    (o' : ObjectId) : index'[indexIdKey o']? = index₀[indexIdKey o']? := by
  rw [commit_append, commit_append, hfirst] at h
  obtain ⟨index₁, hset, hclear⟩ := bind_eq_some_iff.mp h
  rw [commit_clear hclear, if_neg]
  · exact (commit_set hset).kept _ fun k _ => storeKey_ne_indexIdKey k
  · rintro ⟨k, -, heq⟩
    exact storeKey_ne_indexIdKey k heq

end

/-! ## References -/

theorem ofBeBytes_be16 (v : UInt16) : UInt16.ofNat (ofBeBytes (be16 v)) = v := by
  rw [be16, ofBeBytes_beBytes v.toNat_lt, UInt16.ofNat_toNat]

theorem fromId_toId (t : ObjectType) : ObjectType.fromId t.toId = some t := by
  simp [ObjectType.fromId, t.lt]

theorem storeKeyOf_reference (t f : UInt16) (i j : UInt64) : storeKeyOf (.reference t i f j) =
    (SUBSPACE_REGISTRY_PK :: (be16 t ++ be64 i)) ++ (be16 f ++ be64 j) := by
  show SUBSPACE_REGISTRY_PK :: (be16 t ++ be64 i ++ be16 f ++ be64 j) = _
  simp [cons_append]

theorem fromObject_reference (target : ObjectId) (typeFilter : IndexValue) :
    fromObject ((foreignKey target typeFilter).storeKey o) = some o := by
  have hkey : (foreignKey target typeFilter).storeKey o =
      (SUBSPACE_REGISTRY_PK :: (be16 target.object.toId ++ be64 target.id.id)) ++
        (be16 o.object.toId ++ be64 o.id.id) := storeKeyOf_reference _ _ _ _
  have hlen : (be16 o.object.toId).length = U16_LEN := length_be16 _
  have hrest : ((foreignKey target typeFilter).storeKey o).drop (1 + U64_LEN + U16_LEN) =
      be16 o.object.toId ++ be64 o.id.id := by
    rw [hkey, drop_left' (by simp [U64_LEN, U16_LEN])]
  have hid : ((foreignKey target typeFilter).storeKey o).drop (1 + U64_LEN + U16_LEN + U16_LEN) =
      be64 o.id.id := by
    rw [← drop_drop, hrest, drop_left' hlen]
  rw [fromObject, hrest, hid, take_left' hlen, take_of_length_le (by simp [U64_LEN]),
    ofBeBytes_be16, ofBeBytes_be64, fromId_toId]
  rfl

theorem linkKey_reference (target : ObjectId) (typeFilter : IndexValue) (linked : List ObjectId) :
    linkKey (storeKeyOf (.reference target.object.toId target.id.id 0 0))
        (storeKeyOf (.reference target.object.toId target.id.id 0xFFFF 0xFFFFFFFFFFFFFFFF)) linked
        ((foreignKey target typeFilter).storeKey o) = .ok (linked ++ [o]) := by
  have hkey : (foreignKey target typeFilter).storeKey o =
      storeKeyOf (.reference target.object.toId target.id.id o.object.toId o.id.id) := rfl
  rw [linkKey, fromObject_reference, hkey, storeKeyOf_reference, storeKeyOf_reference, storeKeyOf_reference]
  have hfrom : ¬ be16 o.object.toId ++ be64 o.id.id < be16 0 ++ be64 0 := by
    rw [be16, be16, be64, be64, append_lt_append_iff (by simp), beBytes_lt_iff (UInt16.toNat_lt _) (by decide),
      ← append_nil (beBytes U64_LEN o.id.id.toNat), ← append_nil (beBytes U64_LEN (0 : UInt64).toNat),
      append_lt_append_iff (by simp), beBytes_lt_iff (UInt64.toNat_lt _) (by decide)]
    simp
  have hto : ¬ be16 0xFFFF ++ be64 0xFFFFFFFFFFFFFFFF < be16 o.object.toId ++ be64 o.id.id := by
    have h1 := o.object.toId.toNat_lt
    have h2 := o.id.id.toNat_lt
    rw [be16, be16, be64, be64, append_lt_append_iff (by simp), beBytes_lt_iff (by decide) (UInt16.toNat_lt _),
      ← append_nil (beBytes U64_LEN o.id.id.toNat),
      ← append_nil (beBytes U64_LEN (0xFFFFFFFFFFFFFFFF : UInt64).toNat),
      append_lt_append_iff (by simp), beBytes_lt_iff (by decide) (UInt64.toNat_lt _)]
    simp
    omega
  rw [if_pos]
  refine ⟨?_, ?_, ?_⟩
  · rw [append_lt_append_iff rfl]
    simp [hfrom]
  · rw [append_lt_append_iff rfl]
    simp [hto]
  · simp [U16_LEN, U64_LEN]

theorem mem_linkKey {fromKey toKey key : List UInt8} {linked linked' : List ObjectId}
    (h : linkKey fromKey toKey linked key = .ok linked') {o : ObjectId} (ho : o ∈ linked) : o ∈ linked' := by
  unfold linkKey at h
  split at h
  · split at h
    · obtain rfl := Except.ok.inj h
      exact mem_append_left _ ho
    · cases h
  · obtain rfl := Except.ok.inj h
    exact ho

/-- **A reference in the index is found.** -/
theorem mem_linkedObjects {target : ObjectId} {typeFilter : IndexValue} {linked : List ObjectId}
    (h : linkedObjects index target = .ok linked)
    (href : index[(foreignKey target typeFilter).storeKey o]? ≠ none) : o ∈ linked := by
  obtain ⟨v, hv⟩ := ne_none_iff_exists'.mp href
  have hmem : (foreignKey target typeFilter).storeKey o ∈ index.toList.map Prod.fst :=
    List.mem_map.mpr ⟨(_, v), HashMap.mem_toList.mpr hv, rfl⟩
  suffices hloop : ∀ (keys : List (List UInt8)) (found : List ObjectId),
      keys.foldlM (linkKey _ _) found = .ok linked →
        (foreignKey target typeFilter).storeKey o ∈ keys ∨ o ∈ found → o ∈ linked from
    hloop _ _ h (.inl hmem)
  intro keys
  induction keys with
  | nil =>
    rintro found hfound (hmem | hmem)
    · cases hmem
    · obtain rfl := Except.ok.inj hfound
      exact hmem
  | cons key keys ih =>
    intro found hfound hmem
    rw [foldlM_cons] at hfound
    cases hkey : linkKey _ _ found key with
    | error e =>
      rw [hkey] at hfound
      cases hfound
    | ok found' =>
      rw [hkey] at hfound
      refine ih found' hfound ?_
      rcases hmem with hmem | hmem
      · rcases mem_cons.mp hmem with rfl | hmem
        · rw [linkKey_reference] at hkey
          obtain rfl := Except.ok.inj hkey
          exact .inr (by simp)
        · exact .inl hmem
      · exact .inr (mem_linkKey hkey hmem)

end MailServer.Store.Registry
