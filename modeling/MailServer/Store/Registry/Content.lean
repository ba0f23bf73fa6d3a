import MailServer.Store.Registry.Scan

/-!
# The content of the index

The entries of the index are index keys of objects that exist.  A filter is satisfied by the objects that have
an entry with a value as asked for.

* `Content`: an index as the registry writes it.
* `Satisfies`: what a filter asks of an object.
* `indexRange_eq`, `pkRange_eq`: what a scan pushes.  `mem_searchHits`, `mem_primaryHits`: whom it finds.
-/

namespace MailServer.Store.Registry

open MailServer.Types MailServer.Utils MailServer.Store.Write MailServer.Lib List

/-- The index, with the objects of one type counted by their ids. -/
structure Content (index : Index) (object : ObjectType) : Prop where
  written : ∀ key v, index[key]? = some v →
    (∃ o, key = indexIdKey o) ∨ ∃ o k, key = IndexKey.storeKey o k ∧ v = IndexKey.entry o k
  known : ∀ id k, index[IndexKey.storeKey ⟨object, id⟩ k]? = some (IndexKey.entry ⟨object, id⟩ k) →
    index[indexIdKey ⟨object, id⟩]? ≠ none

section

variable (u : Unicode) (index : Index) (object : ObjectType)

/-- The object is indexed by the value. -/
def HasValue (property : Property) (id : Id) (value : List UInt8) : Prop :=
  index[searchPrefix object property.toId ++ value ++ be64 id.id]? ≠ none

/-- The object owns the unique value. -/
def Owns (property : Property) (id : Id) (value : List UInt8) : Prop :=
  ∃ owner, index[primaryPrefix object property.toId ++ value]? = some (some owner) ∧ owner.id = id

def Satisfies (f : RegistryFilter) (id : Id) : Prop :=
  match f.op, f.isPk with
  | .textMatch, _ =>
    ∃ text, f.value = .string text ∧ ∀ word ∈ words u text, HasValue index object f.property id word
  | op, false => ∃ value, HasValue index object f.property id value ∧ op.holds value f.value.toBytes = true
  | op, true => ∃ value, Owns index object f.property id value ∧ op.holds value f.value.toBytes = true

end

variable {index : Index} {object : ObjectType} {property : Property} {op : RegistryFilterOp}
  {matchValue : List UInt8}

/-! ## Keys -/

theorem search_form (hcontent : Content index object) {key : List UInt8} {v : Option ObjectId}
    (hkey : index[key]? = some v) (hpre : (searchPrefix object property.toId).isPrefixOf key = true) :
    ∃ value id, key = searchPrefix object property.toId ++ value ++ be64 id.id ∧
      index[indexIdKey ⟨object, id⟩]? ≠ none := by
  obtain ⟨m, rfl⟩ := isPrefixOf_iff_prefix.mp hpre
  rw [searchPrefix, cons_append] at hkey
  rcases hcontent.written _ _ hkey with ⟨o, ho⟩ | ⟨o, k, hk, hv⟩
  · rw [indexIdKey_eq, cons_inj_right, append_assoc, append_assoc, be16_append_inj] at ho
    exact absurd ho.1 (objectType_ne_max object)
  · cases k with
    | search property' value =>
      have hk' := hk
      rw [storeKey_search, cons_inj_right, append_assoc, append_assoc, append_assoc,
        be16_append_inj, be16_append_inj] at hk
      obtain ⟨ho, hp, rfl⟩ := hk
      obtain ⟨object', id⟩ := o
      obtain rfl : object = object' := ObjectType.toId_inj.mp ho
      refine ⟨value.serialize, id, by simp, ?_⟩
      rw [hk', hv] at hkey
      exact hcontent.known id _ hkey
    | unique property' value₁ value₂ isGlobal =>
      rw [storeKey_unique] at hk
      exact absurd (List.cons.inj hk).1 (by decide)
    | foreignKey target typeFilter =>
      rw [storeKey_foreignKey] at hk
      exact absurd (List.cons.inj hk).1 (by decide)

variable {id : Id} {value : List UInt8} {e : List UInt8 × Option ObjectId} {r : Id → Id → Prop}

theorem known_of_owns (hcontent : Content index object)
    (h : Owns index object property id value) : index[indexIdKey ⟨object, id⟩]? ≠ none := by
  obtain ⟨owner, hkey, rfl⟩ := h
  rw [primaryPrefix, cons_append] at hkey
  rcases hcontent.written _ _ hkey with ⟨o, ho⟩ | ⟨o, k, hk, hv⟩
  · rw [indexIdKey_eq] at ho
    exact absurd (List.cons.inj ho).1 (by decide)
  · cases k with
    | search property' value =>
      rw [storeKey_search] at hk
      exact absurd (List.cons.inj hk).1 (by decide)
    | foreignKey target typeFilter => exact absurd hv (by simp [IndexKey.entry, IndexKey.isUnique])
    | unique property' value₁ value₂ isGlobal =>
      obtain rfl : owner = o := by simpa [IndexKey.entry, IndexKey.isUnique] using hv
      have hk' := hk
      rw [storeKey_unique, cons_inj_right, append_assoc, append_assoc, be16_append_inj] at hk
      obtain ⟨object', id⟩ := owner
      cases isGlobal with
      | true => exact absurd hk.1 (objectType_ne_max object)
      | false =>
        obtain rfl : object = object' := ObjectType.toId_inj.mp hk.1
        rw [hk'] at hkey
        exact hcontent.known id _ hkey

theorem known_of_hasValue (hcontent : Content index object)
    (h : HasValue index object property id value) : index[indexIdKey ⟨object, id⟩]? ≠ none := by
  obtain ⟨v, hv⟩ := Option.ne_none_iff_exists'.mp h
  have hpre : (searchPrefix object property.toId).isPrefixOf
      (searchPrefix object property.toId ++ value ++ be64 id.id) = true := by
    rw [List.isPrefixOf_iff_prefix]
    exact prefix_append _ _
  obtain ⟨value', id', hkey, hknown⟩ := search_form hcontent hv hpre
  obtain ⟨-, hid⟩ := append_be64_inj.mp hkey
  have hid : id = id' := by
    exact congrArg Id.mk hid
  rw [hid]
  exact hknown

/-! ## What the callbacks find -/

theorem visitSearch_stop {pre : List UInt8} (h : pre.isPrefixOf e.1 = false) :
    visitSearch pre matchValue op e = .ok .stop := by
  simp [visitSearch, h]

theorem visitPrimary_stop {pre : List UInt8} (h : pre.isPrefixOf e.1 = false) :
    visitPrimary pre matchValue op e = .ok .stop := by
  simp [visitPrimary, h]

theorem visitSearch_eq (pre value : List UInt8) (id : Id) (v : Option ObjectId) :
    visitSearch pre matchValue op (pre ++ value ++ be64 id.id, v) =
      if op.holds value matchValue then .ok (.found id) else .ok .skip := by
  have hpre : pre.isPrefixOf (pre ++ value ++ be64 id.id) = true := by
    rw [List.isPrefixOf_iff_prefix, append_assoc]
    exact prefix_append _ _
  have hlen : (pre ++ value ++ be64 id.id).length - U64_LEN = (pre ++ value).length := by
    rw [length_append, be64, beBytes_length, Nat.add_sub_cancel]
  have hid : (⟨.ofNat (ofBeBytes (be64 id.id))⟩ : Id) = id := by
    rw [be64, ofBeBytes_beBytes id.id.toNat_lt, UInt64.ofNat_toNat]
  unfold visitSearch
  simp only [hpre, not_true_eq_false, if_false, hlen, drop_left, take_left, hid]
  rw [if_neg (by simp)]

theorem visitPrimary_eq (pre value : List UInt8) (v : Option ObjectId) :
    visitPrimary pre matchValue op (pre ++ value, v) =
      if op.holds value matchValue then
        match v with
        | some o => .ok (.found o.id)
        | none => .error .dataCorruption
      else .ok .skip := by
  cases v <;> simp [visitPrimary]

/-- The ids that a scan finds when it sees every entry, in the order of the keys. -/
def searchHits (index : Index) (object : ObjectType) (indexId : UInt16) (matchValue : List UInt8)
    (op : RegistryFilterOp) : List Id :=
  index.toList.filterMap fun e => Visit.hit (visitSearch (searchPrefix object indexId) matchValue op e)

def primaryHits (index : Index) (object : ObjectType) (indexId : UInt16) (matchValue : List UInt8)
    (op : RegistryFilterOp) : List Id :=
  index.toList.filterMap fun e => Visit.hit (visitPrimary (primaryPrefix object indexId) matchValue op e)

theorem search_of_hit (hcontent : Content index object) (he : e ∈ index.toList)
    (hhit : Visit.hit (visitSearch (searchPrefix object property.toId) matchValue op e) = some id) :
    ∃ value, e.1 = searchPrefix object property.toId ++ (value ++ be64 id.id) ∧
      HasValue index object property id value ∧ op.holds value matchValue = true := by
  obtain ⟨key, v⟩ := e
  cases hpre : (searchPrefix object property.toId).isPrefixOf key with
  | false =>
    rw [visitSearch_stop (e := (key, v)) hpre] at hhit
    cases hhit
  | true =>
    have hkey := HashMap.mem_toList.mp he
    obtain ⟨value, id', rfl, -⟩ := search_form hcontent hkey hpre
    rw [visitSearch_eq] at hhit
    split_ifs at hhit with hholds
    · obtain rfl : id' = id := by simpa [Visit.hit] using hhit
      exact ⟨value, append_assoc _ _ _, by rw [HasValue, hkey]; simp, hholds⟩
    · simp [Visit.hit] at hhit

theorem primary_of_hit (he : e ∈ index.toList)
    (hhit : Visit.hit (visitPrimary (primaryPrefix object property.toId) matchValue op e) = some id) :
    ∃ value, e.1 = primaryPrefix object property.toId ++ value ∧
      Owns index object property id value ∧ op.holds value matchValue = true := by
  obtain ⟨key, v⟩ := e
  cases hpre : (primaryPrefix object property.toId).isPrefixOf key with
  | false =>
    rw [visitPrimary_stop (e := (key, v)) hpre] at hhit
    cases hhit
  | true =>
    have hkey := HashMap.mem_toList.mp he
    obtain ⟨value, rfl⟩ := isPrefixOf_iff_prefix.mp hpre
    rw [visitPrimary_eq] at hhit
    split_ifs at hhit with hholds
    · cases v with
      | none => simp [Visit.hit] at hhit
      | some owner => exact ⟨value, rfl, ⟨owner, hkey, by simpa [Visit.hit] using hhit⟩, hholds⟩
    · simp [Visit.hit] at hhit

theorem mem_searchHits (hcontent : Content index object) :
    id ∈ searchHits index object property.toId matchValue op ↔
      ∃ value, HasValue index object property id value ∧ op.holds value matchValue = true := by
  rw [searchHits, mem_filterMap]
  constructor
  · rintro ⟨e, he, hhit⟩
    obtain ⟨value, -, hhas, hholds⟩ := search_of_hit hcontent he hhit
    exact ⟨value, hhas, hholds⟩
  · rintro ⟨value, hhas, hholds⟩
    obtain ⟨v, hv⟩ := Option.ne_none_iff_exists'.mp hhas
    refine ⟨_, HashMap.mem_toList.mpr hv, ?_⟩
    rw [visitSearch_eq, if_pos hholds]
    rfl

theorem mem_primaryHits :
    id ∈ primaryHits index object property.toId matchValue op ↔
      ∃ value, Owns index object property id value ∧ op.holds value matchValue = true := by
  rw [primaryHits, mem_filterMap]
  constructor
  · rintro ⟨e, he, hhit⟩
    obtain ⟨value, -, howns, hholds⟩ := primary_of_hit he hhit
    exact ⟨value, howns, hholds⟩
  · rintro ⟨value, ⟨owner, hkey, rfl⟩, hholds⟩
    refine ⟨_, HashMap.mem_toList.mpr hkey, ?_⟩
    rw [visitPrimary_eq, if_pos hholds]
    rfl

theorem pairwise_searchHits (hcontent : Content index object)
    (h : ∀ id value id' value', HasValue index object property id value → HasValue index object property id' value' →
      op.holds value matchValue = true → op.holds value' matchValue = true →
      value ++ be64 id.id < value' ++ be64 id'.id → r id id') :
    (searchHits index object property.toId matchValue op).Pairwise r := by
  rw [searchHits, pairwise_filterMap]
  refine index.pairwise_toList.imp_of_mem fun {e e'} he he' hlt id hid id' hid' => ?_
  obtain ⟨value, hkey, hhas, hholds⟩ := search_of_hit hcontent he hid
  obtain ⟨value', hkey', hhas', hholds'⟩ := search_of_hit hcontent he' hid'
  rw [hkey, hkey', append_left_lt_iff] at hlt
  exact h id value id' value' hhas hhas' hholds hholds' hlt

theorem pairwise_primaryHits
    (h : ∀ id value id' value', Owns index object property id value → Owns index object property id' value' →
      op.holds value matchValue = true → op.holds value' matchValue = true → value < value' → r id id') :
    (primaryHits index object property.toId matchValue op).Pairwise r := by
  rw [primaryHits, pairwise_filterMap]
  refine index.pairwise_toList.imp_of_mem fun {e e'} he he' hlt id hid id' hid' => ?_
  obtain ⟨value, hkey, howns, hholds⟩ := primary_of_hit he hid
  obtain ⟨value', hkey', howns', hholds'⟩ := primary_of_hit he' hid'
  rw [hkey, hkey', append_left_lt_iff] at hlt
  exact h id value id' value' howns howns' hholds hholds' hlt

theorem searchHits_equal (hcontent : Content index object) :
    (searchHits index object property.toId matchValue .equal).Pairwise (· < ·) := by
  refine pairwise_searchHits hcontent fun id value id' value' _ _ hholds hholds' hlt => ?_
  simp only [RegistryFilterOp.holds, decide_eq_true_eq] at hholds hholds'
  rw [hholds, hholds', append_left_lt_iff, be64, be64, beBytes_lt_iff id.id.toNat_lt id'.id.toNat_lt] at hlt
  exact Id.lt_iff.mpr hlt

/-! ## Ranges -/

/-- The entry lies between the keys from which and to which a filter scans.  An id stands behind the value, so a
value that goes on like the one compared with may lie on the wrong side. -/
def Scanned (op : RegistryFilterOp) (matchValue value : List UInt8) (id : Id) : Prop :=
  match op with
  | .lowerThan => ¬ matchValue ++ be64 0 < value ++ be64 id.id
  | .lowerEqualThan => ¬ matchValue ++ be64 0xFFFFFFFFFFFFFFFF < value ++ be64 id.id
  | .greaterThan => ¬ value ++ be64 id.id < matchValue ++ be64 0xFFFFFFFFFFFFFFFF
  | .greaterEqualThan => ¬ value ++ be64 id.id < matchValue ++ be64 0
  | .equal | .textMatch => True

theorem not_lt_be64_zero (value : List UInt8) (id : Id) : ¬ value ++ be64 id.id < be64 0 :=
  not_lt_replicate_zero (n := 8) (by simp)

theorem not_be64_max_lt (id : Id) : ¬ be64 0xFFFFFFFFFFFFFFFF < be64 id.id := by
  have hlt := id.id.toNat_lt
  rw [be64, be64, beBytes_lt_iff (by decide) hlt]
  exact Nat.not_lt.mpr (Nat.le_of_lt_succ hlt)

theorem be16_lt_succ (property : Property) : be16 property.toId < be16 (property.toId + 1) := by
  have hlt := property.lt
  have hsucc : (property.toId + 1).toNat = property.toId.toNat + 1 := by
    exact Nat.mod_eq_of_lt (by simp [PROPERTIES] at hlt ⊢; omega)
  rw [be16, be16, beBytes_lt_iff property.toId.toNat_lt (UInt16.toNat_lt _)]
  omega

theorem prefix_lt_succ (b : UInt8) (l m : List UInt8) : b :: (be16 object.toId ++ be16 property.toId) ++ l <
    b :: (be16 object.toId ++ be16 (property.toId + 1)) ++ m := by
  rw [append_lt_append_iff (by simp), cons_lt_cons_iff, append_left_lt_iff]
  exact .inl (.inr ⟨rfl, be16_lt_succ property⟩)

theorem searchBounds_of_scanned (hholds : op.holds value matchValue = true)
    (h : Scanned op matchValue value id) :
    ¬ searchPrefix object property.toId ++ value ++ be64 id.id <
        (searchBounds object property.toId matchValue op).1 ∧
      ¬ (searchBounds object property.toId matchValue op).2 <
        searchPrefix object property.toId ++ value ++ be64 id.id := by
  have hlow := not_lt_be64_zero value id
  cases op <;>
    simp only [RegistryFilterOp.holds, decide_eq_true_eq, searchBounds, append_assoc,
      append_left_lt_iff] at hholds h ⊢
  case lowerThan | lowerEqualThan => exact ⟨hlow, h⟩
  case greaterThan | greaterEqualThan => exact ⟨h, List.lt_asymm (prefix_lt_succ _ _ _)⟩
  case equal | textMatch =>
    subst hholds
    rw [append_left_lt_iff, append_left_lt_iff]
    exact ⟨not_lt_be64_zero [] id, not_be64_max_lt id⟩

theorem primaryBounds_of_holds (hholds : op.holds value matchValue = true) :
    ¬ primaryPrefix object property.toId ++ value < (primaryBounds object property.toId matchValue op).1 ∧
      ¬ (primaryBounds object property.toId matchValue op).2 < primaryPrefix object property.toId ++ value := by
  have hhigh : ¬ primaryPrefix object (property.toId + 1) < primaryPrefix object property.toId ++ value := by
    have h : primaryPrefix object property.toId ++ value < primaryPrefix object (property.toId + 1) ++ [] :=
      prefix_lt_succ _ value []
    exact List.lt_asymm h
  cases op <;> simp only [RegistryFilterOp.holds, decide_eq_true_eq, primaryBounds, append_left_lt_iff] at hholds ⊢
  case lowerThan => exact ⟨not_append_lt, List.lt_asymm hholds⟩
  case lowerEqualThan => exact ⟨not_append_lt, hholds⟩
  case greaterThan => exact ⟨List.lt_asymm hholds, hhigh⟩
  case greaterEqualThan => exact ⟨hholds, hhigh⟩
  case equal | textMatch =>
    subst hholds
    exact ⟨List.lt_irrefl _, List.lt_irrefl _⟩

theorem begin_not_lt_searchPrefix :
    ¬ (searchBounds object property.toId matchValue op).1 < searchPrefix object property.toId := by
  cases op <;> simp only [searchBounds, append_assoc] <;> exact not_append_lt

theorem begin_not_lt_primaryPrefix :
    ¬ (primaryBounds object property.toId matchValue op).1 < primaryPrefix object property.toId := by
  cases op
  case lowerThan | lowerEqualThan => exact List.lt_irrefl _
  case greaterThan | greaterEqualThan | equal | textMatch => exact not_append_lt

/-- **The scan of an index**, when every entry asked for lies in the range. -/
theorem indexRange_eq (hcontent : Content index object)
    (hscanned : ∀ id value, HasValue index object property id value → op.holds value matchValue = true →
      Scanned op matchValue value id) (r : ResultsPagination) :
    indexRange index object property.toId matchValue op r =
      .ok (r.pushAll (searchHits index object property.toId matchValue op)).sort := by
  have hvisit : ∀ e ∈ index.toList, (searchPrefix object property.toId).isPrefixOf e.1 = true →
      visitSearch (searchPrefix object property.toId) matchValue op e = .ok .skip ∨
        ∃ id, visitSearch (searchPrefix object property.toId) matchValue op e = .ok (.found id) ∧
          ¬ e.1 < (searchBounds object property.toId matchValue op).1 ∧
          ¬ (searchBounds object property.toId matchValue op).2 < e.1 := by
    rintro ⟨key, v⟩ he hpre
    have hkey := HashMap.mem_toList.mp he
    obtain ⟨value, id, rfl, -⟩ := search_form hcontent hkey hpre
    rw [visitSearch_eq]
    split_ifs with hholds
    · have hhas : HasValue index object property id value := by
        rw [HasValue, hkey]
        simp
      exact .inr ⟨id, rfl, searchBounds_of_scanned hholds (hscanned id value hhas hholds)⟩
    · exact .inl rfl
  rw [indexRange]
  dsimp only
  rw [scan_range begin_not_lt_searchPrefix (fun e => visitSearch_stop) hvisit]
  rfl

/-- **The scan of the unique values**, when every value asked for has an owner. -/
theorem pkRange_eq (howner : ∀ value, op.holds value matchValue = true →
      index[primaryPrefix object property.toId ++ value]? ≠ some none) (r : ResultsPagination) :
    pkRange index object property.toId matchValue op r =
      .ok (r.pushAll (primaryHits index object property.toId matchValue op)).sort := by
  have hvisit : ∀ e ∈ index.toList, (primaryPrefix object property.toId).isPrefixOf e.1 = true →
      visitPrimary (primaryPrefix object property.toId) matchValue op e = .ok .skip ∨
        ∃ id, visitPrimary (primaryPrefix object property.toId) matchValue op e = .ok (.found id) ∧
          ¬ e.1 < (primaryBounds object property.toId matchValue op).1 ∧
          ¬ (primaryBounds object property.toId matchValue op).2 < e.1 := by
    rintro ⟨key, v⟩ he hpre
    have hkey := HashMap.mem_toList.mp he
    obtain ⟨value, rfl⟩ := isPrefixOf_iff_prefix.mp hpre
    rw [visitPrimary_eq]
    split_ifs with hholds
    · cases v with
      | none => exact absurd hkey (howner value hholds)
      | some owner => exact .inr ⟨owner.id, rfl, primaryBounds_of_holds hholds⟩
    · exact .inl rfl
  rw [pkRange]
  dsimp only
  rw [scan_range begin_not_lt_primaryPrefix (fun e => visitPrimary_stop) hvisit]
  rfl

end MailServer.Store.Registry
