import MailServer.Lib.Lex
import MailServer.Store.Write.Key

/-!
# Destroying an account (`store/src/dispatch/store.rs`)

An account is destroyed by ranges of raw keys, from its id to the next one.

* `dangerDestroyAccount`: the ranges, one after the other.
* `ValueKey.Foreign`: the values that are not the account's.
* `frame_iff`: when all of these are left alone.
-/

namespace MailServer.Store.Dispatch

open MailServer.Lib MailServer.Store.Write List ValueClass

/-- The tables of the store, one for each subspace. -/
abbrev Tables (V : Type*) := UInt8 → List UInt8 → Option V

structure AnyKey where
  subspace : UInt8
  key : List UInt8

/-- Where a value lies. -/
def raw (k : ValueKey) : AnyKey := ⟨k.subspace, k.serialize 0⟩

/-- `delete_range`: the keys from the first one on and before the second one, in its subspace. -/
def Covers (r : AnyKey × AnyKey) (x : AnyKey) : Prop :=
  x.subspace = r.1.subspace ∧ ¬ x.key < r.1.key ∧ x.key < r.2.key

instance (r : AnyKey × AnyKey) (x : AnyKey) : Decidable (Covers r x) :=
  inferInstanceAs (Decidable (_ ∧ _))

section

variable {V : Type*}

def Tables.get (s : Tables V) (k : ValueKey) : Option V := s k.subspace (k.serialize 0)

def deleteRange (s : Tables V) (r : AnyKey × AnyKey) : Tables V := fun subspace key =>
  if Covers r ⟨subspace, key⟩ then none else s subspace key

/-- The ranges of an account.  The id of the next account wraps around. -/
def destroyRanges (accountId : UInt32) : List (AnyKey × AnyKey) :=
  [SUBSPACE_LOGS, SUBSPACE_INDEXES, SUBSPACE_COUNTER].map (fun subspace =>
    (⟨subspace, be32 accountId⟩, ⟨subspace, be32 (accountId + 1)⟩)) ++
  [(raw ⟨0, 0, 0, .acl accountId⟩, raw ⟨0, 0, 0, .acl (accountId + 1)⟩),
    (raw ⟨accountId, 0, 0, .property 0⟩, raw ⟨accountId + 1, 0, 0, .property 0⟩)]

/-- `danger_destroy_account`. -/
def dangerDestroyAccount (s : Tables V) (accountId : UInt32) : Tables V :=
  (destroyRanges accountId).foldl deleteRange s

/-- The keys of some range of an account. -/
def Destroyed (accountId : UInt32) (x : AnyKey) : Prop := ∃ r ∈ destroyRanges accountId, Covers r x

theorem foldl_deleteRange (rs : List (AnyKey × AnyKey)) (s : Tables V) (x : AnyKey) :
    rs.foldl deleteRange s x.subspace x.key =
      if rs.any (fun r => Covers r x) then none else s x.subspace x.key := by
  induction rs generalizing s with
  | nil => rfl
  | cons r rs ih =>
    rw [foldl_cons, ih, any_cons]
    by_cases hr : Covers r x
    · simp [deleteRange, hr]
    · rw [decide_eq_false hr, Bool.false_or]
      simp [deleteRange, hr]

theorem dangerDestroyAccount_of_destroyed {s : Tables V} {a : UInt32} {x : AnyKey}
    (h : Destroyed a x) : dangerDestroyAccount s a x.subspace x.key = none := by
  have hany : (destroyRanges a).any (fun r => Covers r x) = true := by simpa [Destroyed] using h
  rw [dangerDestroyAccount, foldl_deleteRange, hany]
  rfl

theorem dangerDestroyAccount_of_not {s : Tables V} {a : UInt32} {x : AnyKey} (h : ¬ Destroyed a x) :
    dangerDestroyAccount s a x.subspace x.key = s x.subspace x.key := by
  have hany : (destroyRanges a).any (fun r => Covers r x) = false := by
    rw [Bool.eq_false_iff]
    intro hr
    exact h (by simpa [Destroyed] using hr)
  rw [dangerDestroyAccount, foldl_deleteRange, hany]
  rfl

end

/-! ## Whose a value is -/

/-- Whom a value belongs to. -/
inductive Owner where
  | account (accountId : UInt32)
  | tenant (tenantId : UInt32)
  | global
  deriving DecidableEq

/-- The owners of a value.  A grant belongs to both of its accounts; `Any` names a raw key, which may be
anybody's. -/
def owners (k : ValueKey) : List Owner :=
  match k.valueClass with
  | .property _ | .indexProperty _ | .documentId | .changeId | .quota => [.account k.accountId]
  | .blob (.link _ .document) | .blob (.link _ (.temporary _)) => [.account k.accountId]
  | .acl grantAccountId => [.account grantAccountId, .account k.accountId]
  | .shareNotification _ notifyAccountId => [.account notifyAccountId]
  | .searchIndex ⟨_, .account accountId _, _⟩ => [.account accountId]
  | .searchIndex ⟨_, .global _, _⟩ => [.global]
  | .tenantQuota tenantId => [.tenant tenantId]
  | .taskQueue _ | .blob _ | .inMemory _ | .registry _ | .queue _ | .telemetry _ | .nodeId _ => [.global]
  | .any _ => []

/-- The value belongs to others. -/
def Foreign (accountId : UInt32) (k : ValueKey) : Prop :=
  owners k ≠ [] ∧ Owner.account accountId ∉ owners k

/-! ## The ranges -/

theorem raw_key (k : ValueKey) : (raw k).key = k.bytes := rfl

theorem between_accounts {a b : UInt32} (ha : a.toNat + 1 < 2 ^ 32) {k l : List UInt8}
    (hl : ¬ k < l) :
    (¬ be32 b ++ k < be32 a ++ l ∧ be32 b ++ k < be32 (a + 1) ++ l) ↔ b = a := by
  have hnext : (a + 1).toNat = a.toNat + 1 := by
    simpa using Nat.mod_eq_of_lt ha
  rw [be32, be32, be32, hnext, between_iff b.toNat_lt ha, ← UInt32.toNat_inj]
  simp [hl]

theorem not_destroyed_last (x : AnyKey) : ¬ Destroyed 0xFFFFFFFF x := by
  rintro ⟨r, hr, -, hlo, hhi⟩
  have hback : r.2.key < r.1.key := by
    have htable : (destroyRanges 0xFFFFFFFF).all (fun r => r.2.key < r.1.key) = true := by decide
    simpa using all_eq_true.mp htable r hr
  exact hlo (List.lt_trans hhi hback)

section

variable {a b : UInt32} {k : List UInt8}

theorem destroyed_iff (a : UInt32) (x : AnyKey) :
    Destroyed a x ↔
      ((x.subspace = SUBSPACE_LOGS ∨ x.subspace = SUBSPACE_INDEXES ∨ x.subspace = SUBSPACE_COUNTER) ∧
        ¬ x.key < be32 a ∧ x.key < be32 (a + 1)) ∨
      (x.subspace = SUBSPACE_ACL ∧ ¬ x.key < be32 a ++ List.replicate 9 0 ∧
        x.key < be32 (a + 1) ++ List.replicate 9 0) ∨
      (x.subspace = SUBSPACE_PROPERTY ∧ ¬ x.key < be32 a ++ List.replicate 6 0 ∧
        x.key < be32 (a + 1) ++ List.replicate 6 0) := by
  have hacl : ∀ g : UInt32, (raw ⟨0, 0, 0, .acl g⟩).key = be32 g ++ List.replicate 9 0 := by
    intro g
    simp only [raw_key, ValueKey.bytes, serialize, append_assoc]
    rfl
  have hproperty : ∀ g : UInt32, (raw ⟨g, 0, 0, .property 0⟩).key = be32 g ++ List.replicate 6 0 := by
    intro g
    simp only [raw_key, ValueKey.bytes]
    rfl
  have hs : (raw ⟨0, 0, 0, .acl a⟩).subspace = SUBSPACE_ACL := rfl
  have hs' : (raw ⟨a, 0, 0, .property 0⟩).subspace = SUBSPACE_PROPERTY := rfl
  simp only [Destroyed, destroyRanges, Covers, map_cons, map_nil, cons_append,
    nil_append, mem_cons, not_mem_nil, or_false, exists_eq_or_imp, exists_eq_left, hacl,
    hproperty, hs, hs']
  rw [or_and_right, or_and_right, or_assoc, or_assoc]

theorem not_destroyed_of_subspace {x : AnyKey} (h : x.subspace ∉ [SUBSPACE_LOGS, SUBSPACE_INDEXES,
    SUBSPACE_COUNTER, SUBSPACE_ACL, SUBSPACE_PROPERTY]) : ¬ Destroyed a x := by
  simp only [mem_cons, not_mem_nil, or_false, not_or] at h
  rw [destroyed_iff]
  rintro (⟨hs, -⟩ | ⟨hs, -⟩ | ⟨hs, -⟩)
  · tauto
  · exact h.2.2.2.1 hs
  · exact h.2.2.2.2 hs

theorem destroyed_account_iff (ha : a.toNat + 1 < 2 ^ 32) {s : UInt8}
    (hs : s = SUBSPACE_LOGS ∨ s = SUBSPACE_COUNTER) : Destroyed a ⟨s, be32 b ++ k⟩ ↔ b = a := by
  have hrange := between_accounts (b := b) (k := k) (l := []) ha (by simp)
  rw [append_nil, append_nil] at hrange
  rw [destroyed_iff, hrange]
  rcases hs with rfl | rfl <;> simp +decide

theorem destroyed_padded_iff (ha : a.toNat + 1 < 2 ^ 32) {s : UInt8}
    (h : s = SUBSPACE_ACL ∧ 9 ≤ k.length ∨ s = SUBSPACE_PROPERTY ∧ 6 ≤ k.length) :
    Destroyed a ⟨s, be32 b ++ k⟩ ↔ b = a := by
  rcases h with ⟨rfl, hk⟩ | ⟨rfl, hk⟩ <;> rw [destroyed_iff, between_accounts ha (not_lt_replicate_zero hk)] <;> simp +decide

/-- The id counter of an object type is a key of two bytes.  It lies in the range of the last account
before those whose ids begin with these bytes. -/
theorem destroyed_idCounter_iff (ha : a.toNat + 1 < 2 ^ 32) (o : UInt16) :
    Destroyed a ⟨SUBSPACE_COUNTER, be16 o⟩ ↔ o.toNat * 65536 = a.toNat + 1 := by
  have hsplit : ∀ g : UInt32, be32 g = beBytes 2 (g.toNat / 65536) ++ beBytes 2 g.toNat := fun g =>
    beBytes_add 2 2 g.toNat
  have hlow : ∀ g : UInt32, be16 o < be32 g ↔ o.toNat ≤ g.toNat / 65536 := by
    intro g
    have hg : g.toNat / 65536 < 256 ^ 2 := by
      have := g.toNat_lt
      omega
    have ho : o.toNat < 256 ^ 2 := o.toNat_lt
    have hlt := append_lt_append_iff (p := beBytes 2 o.toNat) (q := beBytes 2 (g.toNat / 65536))
      (by simp) (l := []) (m := beBytes 2 g.toNat)
    have hfront : beBytes 2 o.toNat = beBytes 2 (g.toNat / 65536) ↔ o.toNat = g.toNat / 65536 :=
      ⟨beBytes_inj ho hg, fun h => by rw [h]⟩
    have hrest : [] < beBytes 2 g.toNat := by
      cases h : beBytes 1 (g.toNat / 256) <;> exact nil_lt_cons _ _
    rw [append_nil, beBytes_lt_iff ho hg, hfront] at hlt
    rw [hsplit, be16, U16_LEN, hlt]
    simp only [hrest, and_true]
    omega
  have hnext : (a + 1).toNat = a.toNat + 1 := by
    simpa using Nat.mod_eq_of_lt ha
  have hacl : SUBSPACE_COUNTER ≠ SUBSPACE_ACL := by decide
  have hproperty : SUBSPACE_COUNTER ≠ SUBSPACE_PROPERTY := by decide
  rw [destroyed_iff]
  simp only [hacl, hproperty, or_true, true_and, false_and, or_false, hlow]
  omega

end

/-! ## What is lost -/

/-- The values of others that lie in the ranges of an account: the quota of the tenant with the same id
and the id counter of an object type. -/
def Lost (accountId : UInt32) (v : ValueClass) : Prop :=
  v = .tenantQuota accountId ∨
    ∃ objectId, v = .registry (.idCounter objectId) ∧ objectId.toNat * 65536 = accountId.toNat + 1

theorem Lost.family {a : UInt32} {c : UInt8} {v : ValueClass} (h : Lost a v) : v.family c = .counter := by
  rcases h with rfl | ⟨o, rfl, -⟩ <;> rfl

theorem not_destroyed_of_family {a : UInt32} {k : ValueKey}
    (h : k.valueClass.family k.collection ∉ [.property, .acl, .counter, .log, .any]) :
    ¬ Destroyed a (raw k) := by
  have htable : ∀ f : Family, f ∉ [Family.property, .acl, .counter, .log, .any] →
      (f.subspaces.all fun s => !([SUBSPACE_LOGS, SUBSPACE_INDEXES, SUBSPACE_COUNTER, SUBSPACE_ACL,
        SUBSPACE_PROPERTY].contains s)) = true := by
    intro f hf
    cases f <;> first | rfl | simp at hf
  have hany : k.valueClass.family k.collection ≠ .any := fun he => h (by simp [he])
  have hs := all_eq_true.mp (htable _ h) k.subspace
    (k.valueClass.subspace_mem k.collection hany)
  have hnot : k.subspace ∉ [SUBSPACE_LOGS, SUBSPACE_INDEXES, SUBSPACE_COUNTER, SUBSPACE_ACL,
      SUBSPACE_PROPERTY] := by simpa using hs
  exact not_destroyed_of_subspace hnot

section

variable {a : UInt32} {k : ValueKey}

section

variable (ha : a.toNat + 1 < 2 ^ 32)
include ha

theorem not_destroyed_of_account {b : UInt32} {l : List UInt8} {s : UInt8}
    (hs : s = SUBSPACE_LOGS ∨ s = SUBSPACE_COUNTER ∨ s = SUBSPACE_ACL ∧ 9 ≤ l.length ∨
      s = SUBSPACE_PROPERTY ∧ 6 ≤ l.length) (hb : b ≠ a) (hk : k.subspace = s)
    (hbytes : k.bytes = be32 b ++ l) : ¬ Destroyed a (raw k) := by
  have hraw : raw k = ⟨s, be32 b ++ l⟩ := by
    rw [← hk, ← hbytes]
    rfl
  rw [hraw]
  rcases hs with rfl | rfl | ⟨rfl, hl⟩ | ⟨rfl, hl⟩
  · rwa [destroyed_account_iff ha (Or.inl rfl)]
  · rwa [destroyed_account_iff ha (Or.inr rfl)]
  · rwa [destroyed_padded_iff ha (.inl ⟨rfl, hl⟩)]
  · rwa [destroyed_padded_iff ha (.inr ⟨rfl, hl⟩)]

theorem destroyed_counter_iff (hk : Foreign a k)
    (hf : k.valueClass.family k.collection = .counter) :
    Destroyed a (raw k) ↔ Lost a k.valueClass := by
  have hforms := k.valueClass.forms k.collection
  have hmem := k.valueClass.subspace_mem k.collection (by simp [hf])
  rw [hf] at hforms hmem
  have hs : k.subspace = SUBSPACE_COUNTER := mem_singleton.mp hmem
  obtain ⟨b, c, d, v⟩ := k
  rcases hforms with ⟨f, hv⟩ | ⟨o, hv⟩ | hv | hv | hv | ⟨t, hv⟩ <;> obtain rfl : v = _ := hv
  · have hb : b ≠ a := fun h => hk.2 (by simp [owners, h])
    have hbytes : (⟨b, c, d, .property f⟩ : ValueKey).bytes = be32 b ++ ([c] ++ [f] ++ be32 d) := by
      simp [ValueKey.bytes, serialize]
    simpa [Lost] using not_destroyed_of_account ha (Or.inr (Or.inl rfl)) hb hs hbytes
  · have hraw : raw ⟨b, c, d, .registry (.idCounter o)⟩ = ⟨SUBSPACE_COUNTER, be16 o⟩ := rfl
    rw [hraw, destroyed_idCounter_iff ha]
    simp [Lost]
  · have hb : b ≠ a := fun h => hk.2 (by simp [owners, h])
    simpa [Lost] using not_destroyed_of_account ha (Or.inr (Or.inl rfl)) hb hs rfl
  · have hb : b ≠ a := fun h => hk.2 (by simp [owners, h])
    have hbytes : (⟨b, c, d, .changeId⟩ : ValueKey).bytes = be32 b ++ [] := by
      simp [ValueKey.bytes, serialize]
    simpa [Lost] using not_destroyed_of_account ha (Or.inr (Or.inl rfl)) hb hs hbytes
  · have hb : b ≠ a := fun h => hk.2 (by simp [owners, h])
    simpa [Lost] using not_destroyed_of_account ha (Or.inr (Or.inl rfl)) hb hs rfl
  · have hraw : raw ⟨b, c, d, .tenantQuota t⟩ = ⟨SUBSPACE_COUNTER, be32 t ++ [0xFE]⟩ := rfl
    rw [hraw, destroyed_account_iff ha (Or.inr rfl)]
    simp [Lost]

theorem not_destroyed_property (hk : Foreign a k)
    (hf : k.valueClass.family k.collection = .property) : ¬ Destroyed a (raw k) := by
  have hforms := k.valueClass.forms k.collection
  have hmem := k.valueClass.subspace_mem k.collection (by simp [hf])
  rw [hf] at hforms hmem
  have hs : k.subspace = SUBSPACE_PROPERTY := mem_singleton.mp hmem
  obtain ⟨b, c, d, v⟩ := k
  have hlaid : ∃ l, (⟨b, c, d, v⟩ : ValueKey).bytes = be32 b ++ l ∧ 6 ≤ l.length ∧
      owners ⟨b, c, d, v⟩ = [.account b] := by
    rcases hforms with ⟨f, hv⟩ | ⟨f, x, hv⟩ | ⟨f, x, hv⟩ <;> obtain rfl : v = _ := hv
    · exact ⟨[c] ++ [f] ++ be32 d, by simp [ValueKey.bytes, serialize], by simp, rfl⟩
    · refine ⟨[c] ++ [f] ++ x.asBytes ++ be32 d, ?_, ?_, rfl⟩
      · simp [ValueKey.bytes, serialize]
      · simp only [length_append, length_singleton, length_be32]
        omega
    · exact ⟨[c] ++ [f] ++ be64 x ++ be32 d, by simp [ValueKey.bytes, serialize], by simp, rfl⟩
  obtain ⟨l, hbytes, hl, howner⟩ := hlaid
  have hb : b ≠ a := by
    rintro rfl
    exact hk.2 (howner ▸ mem_singleton_self _)
  exact not_destroyed_of_account ha (Or.inr (Or.inr (Or.inr ⟨rfl, hl⟩))) hb hs hbytes

theorem not_destroyed_acl (hk : Foreign a k)
    (hf : k.valueClass.family k.collection = .acl) : ¬ Destroyed a (raw k) := by
  have hforms := k.valueClass.forms k.collection
  rw [hf] at hforms
  obtain ⟨b, c, d, v⟩ := k
  obtain ⟨g, hv⟩ := hforms
  obtain rfl : v = _ := hv
  have hg : g ≠ a := fun h => hk.2 (by simp [owners, h])
  have hbytes : (⟨b, c, d, .acl g⟩ : ValueKey).bytes = be32 g ++ (be32 b ++ [c] ++ be32 d) := by
    simp [ValueKey.bytes, serialize]
  exact not_destroyed_of_account ha (Or.inr (Or.inr (Or.inl ⟨rfl, by simp⟩))) hg rfl hbytes

theorem not_destroyed_log (hk : Foreign a k)
    (hf : k.valueClass.family k.collection = .log) : ¬ Destroyed a (raw k) := by
  have hforms := k.valueClass.forms k.collection
  rw [hf] at hforms
  obtain ⟨b, c, d, v⟩ := k
  obtain ⟨n, g, hv⟩ := hforms
  obtain rfl : v = _ := hv
  have hg : g ≠ a := fun h => hk.2 (by simp [owners, h])
  have hbytes : (⟨b, c, d, .shareNotification n g⟩ : ValueKey).bytes =
      be32 g ++ ([Types.SyncCollection.shareNotification.toU8] ++ be64 n) := by
    simp [ValueKey.bytes, serialize]
  exact not_destroyed_of_account ha (Or.inl rfl) hg rfl hbytes

theorem destroyed_foreign_iff (hk : Foreign a k) :
    Destroyed a (raw k) ↔ Lost a k.valueClass := by
  by_cases hc : k.valueClass.family k.collection = .counter
  · exact destroyed_counter_iff ha hk hc
  refine iff_of_false ?_ fun h => hc h.family
  by_cases hf : k.valueClass.family k.collection ∈ [.property, .acl, .counter, .log, .any]
  · simp only [mem_cons, not_mem_nil, or_false] at hf
    rcases hf with hf | hf | hf | hf | hf
    · exact not_destroyed_property ha hk hf
    · exact not_destroyed_acl ha hk hf
    · exact absurd hf hc
    · exact not_destroyed_log ha hk hf
    · obtain ⟨x, hx⟩ := eq_any_of_family hf
      exact absurd (by simp [owners, hx]) hk.1
  · exact not_destroyed_of_family hf

end

end

/-- **The frame** of a destroyed account: the values of all others are left as they are exactly when the
account is the last one, or the store holds neither a quota of the tenant with its id nor the id counter
of the object type whose two bytes begin the ids after it. -/
theorem frame_iff {V : Type*} (s : Tables V) (accountId : UInt32) :
    (∀ k, Foreign accountId k → (dangerDestroyAccount s accountId).get k = s.get k) ↔
      accountId = 0xFFFFFFFF ∨ ∀ k : ValueKey, Lost accountId k.valueClass → s.get k = none := by
  by_cases ha : accountId = 0xFFFFFFFF
  · subst ha
    refine iff_of_true (fun k _ => ?_) (Or.inl rfl)
    exact dangerDestroyAccount_of_not (x := raw k) (not_destroyed_last _)
  have hlt : accountId.toNat + 1 < 2 ^ 32 := by
    have hne : accountId.toNat ≠ (0xFFFFFFFF : UInt32).toNat := fun h => ha (UInt32.toNat_inj.mp h)
    have := accountId.toNat_lt
    simp only [UInt32.reduceToNat] at hne
    omega
  constructor
  · intro h
    refine Or.inr fun k hk => ?_
    have hforeign : Foreign accountId k := by
      obtain ⟨b, c, d, v⟩ := k
      rcases hk with hv | ⟨o, hv, -⟩ <;> obtain rfl : v = _ := hv <;> simp [Foreign, owners]
    rw [← h k hforeign]
    exact dangerDestroyAccount_of_destroyed (x := raw k) ((destroyed_foreign_iff hlt hforeign).mpr hk)
  · intro h k hk
    have hnone := h.resolve_left ha k
    by_cases hd : Destroyed accountId (raw k)
    · rw [hnone ((destroyed_foreign_iff hlt hk).mp hd)]
      exact dangerDestroyAccount_of_destroyed (x := raw k) hd
    · exact dangerDestroyAccount_of_not (x := raw k) hd

/-- Tenant 7 loses its quota with account 7. -/
theorem frame_lost : ¬ ∀ (s : Tables ℕ) (accountId : UInt32) (k : ValueKey), Foreign accountId k →
    (dangerDestroyAccount s accountId).get k = s.get k := by
  intro h
  have hlost := h (fun _ _ => some 0) 7 ⟨0, 0, 0, .tenantQuota 7⟩
    ⟨by simp [owners], by simp [owners]⟩
  exact absurd hlost (by decide)

end MailServer.Store.Dispatch
