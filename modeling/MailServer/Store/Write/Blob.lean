import MailServer.Lib.Lex
import MailServer.Store.Write.Key

/-!
# Purging blobs (`store/src/write/blob.rs`)

The keys of a blob begin with its hash: one for the blob itself, one for every link.  A purge reads the
keys of a shard in order, once, and decides about a blob when the next one begins.

* `BlobPurgeState`, `purgeScan`: the scan and what it marks.
* `Shard`: the keys of a shard, in order.
* `purgeScan_spec`: what is marked.
-/

namespace MailServer.Store.Write

open MailServer.Lib List

/-- `BlobHash::default`. -/
def BlobHash.default : BlobHash := ⟨List.replicate BLOB_HASH_LEN 0, length_replicate⟩

/-- The type and the id of a registry object. -/
structure ObjectId where
  objectId : ℕ
  itemId : ℕ
  deriving DecidableEq

/-- Why a scan stops. -/
inductive PurgeError where
  | corruptedKey
  | dataCorruption
  | deserialization
  deriving DecidableEq

/-- `deserialize_be_u16`, `deserialize_be_u32` and `deserialize_be_u64`: a number of `n` bytes at an index. -/
def deserializeBe (n : ℕ) (bytes : List UInt8) (index : ℕ) : Except PurgeError ℕ :=
  if index + n ≤ bytes.length then .ok (ofBeBytes ((bytes.drop index).take n))
  else .error .dataCorruption

/-- `ObjectType::COUNT`: `ObjectType::from_id` knows the ids below. -/
def OBJECT_TYPES : ℕ := 117

/-- `ObjectId::deserialize`. -/
def ObjectId.deserialize (bytes : List UInt8) : Except PurgeError ObjectId := do
  let objectId ← deserializeBe U16_LEN bytes 0
  let itemId ← deserializeBe U64_LEN bytes U16_LEN
  if objectId < OBJECT_TYPES then .ok ⟨objectId, itemId⟩ else .error .deserialization

structure BlobPurgeState where
  lastHash : BlobHash
  lastHashIsLinked : Bool
  deleteKeys : List (Option UInt32 × BlobOp)
  deleteRegistry : List (UInt32 × ObjectId)
  now : UInt64
  totalDeleted : ℕ
  totalActive : ℕ

open BlobPurgeState

namespace BlobPurgeState

/-- The first hash counts as linked, so that it is not deleted when the first key comes. -/
def new (now : UInt64) : BlobPurgeState where
  lastHash := .default
  lastHashIsLinked := true
  deleteKeys := []
  deleteRegistry := []
  now := now
  totalDeleted := 0
  totalActive := 0

def finalize (s : BlobPurgeState) (newHash : BlobHash) : BlobPurgeState :=
  if !s.lastHashIsLinked then
    { s with
      totalDeleted := s.totalDeleted + 1
      deleteKeys := s.deleteKeys ++ [(none, .commit s.lastHash)]
      lastHash := newHash }
  else { s with totalActive := s.totalActive + 1, lastHash := newHash }

def updateHash (s : BlobPurgeState) (hash : BlobHash) : BlobPurgeState :=
  if s.lastHash ≠ hash then { s.finalize hash with lastHashIsLinked := false } else s

def TEMP_LINK : ℕ := BLOB_HASH_LEN + U32_LEN + U64_LEN
def DOC_LINK : ℕ := BLOB_HASH_LEN + U64_LEN + 1
def ID_LINK : ℕ := BLOB_HASH_LEN + U64_LEN

/-- A temporary link that has expired: it is marked, with the registry object its value may name. -/
def expire (s : BlobPurgeState) (accountId : UInt32) («until» : UInt64) (value : List UInt8) :
    Except PurgeError BlobPurgeState :=
  let s := { s with
    deleteKeys := s.deleteKeys ++ [(some accountId, .link s.lastHash (.temporary «until»))] }
  if value.length = U16_LEN + U64_LEN then do
    let object ← ObjectId.deserialize value
    .ok { s with deleteRegistry := s.deleteRegistry ++ [(accountId, object)] }
  else .ok s

def processKey (s : BlobPurgeState) (key value : List UInt8) : Except PurgeError BlobPurgeState :=
  if key.length = BLOB_HASH_LEN then .ok s
  else if key.length = TEMP_LINK then do
    let «until» := UInt64.ofNat (← deserializeBe U64_LEN key (BLOB_HASH_LEN + U32_LEN))
    if «until» ≤ s.now then do
      let accountId := UInt32.ofNat (← deserializeBe U32_LEN key BLOB_HASH_LEN)
      s.expire accountId «until» value
    else .ok { s with lastHashIsLinked := true }
  else if key.length = DOC_LINK ∨ key.length = ID_LINK then .ok { s with lastHashIsLinked := true }
  else .error .corruptedKey

/-- One row of the iteration. -/
def row (s : BlobPurgeState) (r : List UInt8 × List UInt8) : Except PurgeError BlobPurgeState :=
  if h : BLOB_HASH_LEN ≤ r.1.length then
    (s.updateHash ⟨r.1.take BLOB_HASH_LEN, by simp [h]⟩).processKey r.1 r.2
  else .error .corruptedKey

end BlobPurgeState

/-- The scan of `purge_blobs`. -/
def purgeScan (now : UInt64) (rows : List (List UInt8 × List UInt8)) : Except PurgeError BlobPurgeState := do
  let s ← rows.foldlM row (.new now)
  .ok (s.finalize .default)

/-! ## The keys of a shard -/

namespace BlobOp

def hash : BlobOp → BlobHash
  | commit h => h
  | link h _ => h

/-- What follows the hash in the key. -/
def rest (accountId : UInt32) (collection : UInt8) (documentId : UInt32) : BlobOp → List UInt8
  | commit _ => []
  | link _ (.id id) => be64 id
  | link _ .document => be32 accountId ++ [collection] ++ be32 documentId
  | link _ (.temporary «until») => be32 accountId ++ be64 «until»

/-- A link that holds at a time. -/
def live (now : UInt64) : BlobOp → Bool
  | commit _ => false
  | link _ (.temporary «until») => now < «until»
  | link _ _ => true

/-- A temporary link that does not hold any more. -/
def expired (now : UInt64) : BlobOp → Bool
  | link _ (.temporary «until») => «until» ≤ now
  | _ => false

end BlobOp

/-- A row of the blob links. -/
structure BlobRow where
  accountId : UInt32
  collection : UInt8
  documentId : UInt32
  op : BlobOp
  value : List UInt8

namespace BlobRow

def key (r : BlobRow) : ValueKey := ⟨r.accountId, r.collection, r.documentId, .blob r.op⟩

def raw (r : BlobRow) : List UInt8 × List UInt8 := (r.key.bytes, r.value)

theorem bytes_key (r : BlobRow) :
    r.key.bytes = r.op.hash.val ++ r.op.rest r.accountId r.collection r.documentId := by
  rcases r with ⟨a, c, d, (h | ⟨h, (i | _ | u)⟩), v⟩ <;>
    simp [key, ValueKey.bytes, ValueClass.serialize, BlobOp.hash, BlobOp.rest]

end BlobRow

/-- The rows of a shard in the order of their keys.  A value of ten bytes names a registry object. -/
structure Shard where
  rows : List BlobRow
  sorted : rows.Pairwise fun r r' => r.key.bytes < r'.key.bytes
  objects : ∀ r ∈ rows, r.value.length = U16_LEN + U64_LEN → ∃ x, ObjectId.deserialize r.value = .ok x

/-! ## One row -/

theorem deserializeBe_append {n v : ℕ} (hv : v < 256 ^ n) {l m k : List UInt8} {index : ℕ}
    (hl : l.length = index) : deserializeBe n (l ++ (beBytes n v ++ (m ++ k))) index = .ok v := by
  subst hl
  have hlen : l.length + n ≤ (l ++ (beBytes n v ++ (m ++ k))).length := by
    simp only [length_append, beBytes_length]
    omega
  rw [deserializeBe, if_pos hlen, drop_left]
  have htake : (beBytes n v ++ (m ++ k)).take n = beBytes n v := by
    rw [take_append_of_le_length (by simp), take_of_length_le (by simp)]
  rw [htake, ofBeBytes_beBytes hv]

namespace BlobPurgeState

variable (s : BlobPurgeState)

theorem updateHash_spec (hash : BlobHash) :
    (s.updateHash hash).now = s.now ∧ (s.updateHash hash).lastHash = hash ∧
      ((s.updateHash hash).lastHashIsLinked = true ↔ s.lastHash = hash ∧ s.lastHashIsLinked = true) ∧
      (s.updateHash hash).deleteKeys = s.deleteKeys ++
        if s.lastHash ≠ hash ∧ s.lastHashIsLinked = false then [(none, .commit s.lastHash)] else [] := by
  unfold updateHash finalize
  by_cases hh : s.lastHash = hash
  · simp [hh]
  · cases hl : s.lastHashIsLinked <;> simp [hh]

theorem expire_spec (r : BlobRow) («until» : UInt64) (hash : BlobHash)
    (hop : r.op = .link hash (.temporary «until»)) (hlast : s.lastHash = hash)
    (hobj : r.value.length = U16_LEN + U64_LEN → ∃ x, ObjectId.deserialize r.value = .ok x) :
    ∃ s', s.expire r.accountId «until» r.value = .ok s' ∧ s'.now = s.now ∧ s'.lastHash = s.lastHash ∧
      s'.lastHashIsLinked = s.lastHashIsLinked ∧
      s'.deleteKeys = s.deleteKeys ++ [(some r.accountId, r.op)] := by
  have hkey : BlobOp.link s.lastHash (.temporary «until») = r.op := by rw [hlast, hop]
  unfold expire
  by_cases hv : r.value.length = U16_LEN + U64_LEN
  · obtain ⟨x, hx⟩ := hobj hv
    rw [if_pos hv, hx, ← hkey]
    exact ⟨_, rfl, rfl, rfl, rfl, rfl⟩
  · rw [if_neg hv, ← hkey]
    exact ⟨_, rfl, rfl, rfl, rfl, rfl⟩

theorem processKey_spec (r : BlobRow) (hlast : s.lastHash = r.op.hash)
    (hobj : r.value.length = U16_LEN + U64_LEN → ∃ x, ObjectId.deserialize r.value = .ok x) :
    ∃ s', s.processKey r.key.bytes r.value = .ok s' ∧ s'.now = s.now ∧ s'.lastHash = s.lastHash ∧
      s'.lastHashIsLinked = (s.lastHashIsLinked || r.op.live s.now) ∧
      s'.deleteKeys = s.deleteKeys ++ if r.op.expired s.now then [(some r.accountId, r.op)] else [] := by
  have hlen := congrArg List.length r.bytes_key
  have hhash : r.op.hash.val.length = 32 := r.op.hash.property
  unfold processKey
  rcases hop : r.op with h | ⟨h, (i | _ | u)⟩
  · have hkey : r.key.bytes.length = BLOB_HASH_LEN := by
      rw [hlen, hop]
      simp [BlobOp.rest, h.property, BlobOp.hash]
    rw [if_pos hkey]
    exact ⟨s, rfl, rfl, rfl, by simp [BlobOp.live], by simp [BlobOp.expired]⟩
  · have hkey : r.key.bytes.length = 40 := by
      rw [hlen, length_append, hhash, hop]
      simp [BlobOp.rest]
    simp only [hkey]
    exact ⟨_, rfl, rfl, rfl, by simp [BlobOp.live], by simp [BlobOp.expired]⟩
  · have hkey : r.key.bytes.length = 41 := by
      rw [hlen, length_append, hhash, hop]
      simp [BlobOp.rest]
    simp only [hkey]
    exact ⟨_, rfl, rfl, rfl, by simp [BlobOp.live], by simp [BlobOp.expired]⟩
  · have hkey : r.key.bytes.length = 44 := by
      rw [hlen, length_append, hhash, hop]
      simp [BlobOp.rest]
    have hraw : r.key.bytes = h.val ++ (be32 r.accountId ++ be64 u) := by
      rw [r.bytes_key, hop]
      rfl
    have huntil : deserializeBe U64_LEN r.key.bytes (BLOB_HASH_LEN + U32_LEN) = .ok u.toNat := by
      have hsplit : r.key.bytes = (h.val ++ be32 r.accountId) ++ (beBytes U64_LEN u.toNat ++ ([] ++ [])) := by
        rw [hraw, be64]
        simp
      rw [hsplit]
      exact deserializeBe_append u.toNat_lt (by simp [h.property, U32_LEN])
    have haccount : deserializeBe U32_LEN r.key.bytes BLOB_HASH_LEN = .ok r.accountId.toNat := by
      have hsplit : r.key.bytes = h.val ++ (beBytes U32_LEN r.accountId.toNat ++ (be64 u ++ [])) := by
        rw [hraw, be32]
        simp
      rw [hsplit]
      exact deserializeBe_append r.accountId.toNat_lt h.property
    have hne : r.key.bytes.length ≠ BLOB_HASH_LEN := by
      rw [hkey]
      decide
    rw [if_neg hne, if_pos (show r.key.bytes.length = TEMP_LINK from hkey), huntil, haccount]
    simp only [bind, Except.bind, UInt64.ofNat_toNat, UInt32.ofNat_toNat]
    by_cases hu : u ≤ s.now
    · rw [if_pos hu]
      obtain ⟨s', hs', hnow, hl, hlinked, hkeys⟩ :=
        s.expire_spec r u h hop (by rw [hlast, hop]; rfl) hobj
      refine ⟨s', hs', hnow, hl, ?_, ?_⟩
      · have hlive : ¬ s.now < u := UInt64.not_lt.mpr hu
        simp [hlinked, BlobOp.live, hlive]
      · rw [hkeys, hop]
        simp [BlobOp.expired, hu]
    · rw [if_neg hu]
      have hlive : s.now < u := UInt64.not_le.mp hu
      exact ⟨_, rfl, rfl, rfl, by simp [BlobOp.live, hlive], by simp [BlobOp.expired, hu]⟩

/-- **One row** of the scan. -/
theorem row_spec (r : BlobRow)
    (hobj : r.value.length = U16_LEN + U64_LEN → ∃ x, ObjectId.deserialize r.value = .ok x) :
    ∃ s', s.row r.raw = .ok s' ∧ s'.now = s.now ∧ s'.lastHash = r.op.hash ∧
      s'.lastHashIsLinked = ((s.updateHash r.op.hash).lastHashIsLinked || r.op.live s.now) ∧
      s'.deleteKeys = (s.updateHash r.op.hash).deleteKeys ++
        if r.op.expired s.now then [(some r.accountId, r.op)] else [] := by
  have hlen : BLOB_HASH_LEN ≤ r.key.bytes.length := by
    rw [r.bytes_key, length_append, r.op.hash.property]
    omega
  have htake : r.key.bytes.take BLOB_HASH_LEN = r.op.hash.val := by
    rw [r.bytes_key, take_left' r.op.hash.property]
  obtain ⟨hnow, hlast, -, -⟩ := s.updateHash_spec r.op.hash
  obtain ⟨s', hs', hnow', hlast', hlinked, hkeys⟩ :=
    (s.updateHash r.op.hash).processKey_spec r hlast hobj
  refine ⟨s', ?_, hnow'.trans hnow, hlast'.trans hlast, by rw [hlinked, hnow], by rw [hkeys, hnow]⟩
  unfold row
  have hhash : (⟨r.key.bytes.take BLOB_HASH_LEN, by simp [hlen]⟩ : BlobHash) = r.op.hash :=
    Subtype.ext htake
  rw [dif_pos (show BLOB_HASH_LEN ≤ r.raw.1.length from hlen)]
  show (s.updateHash ⟨r.key.bytes.take BLOB_HASH_LEN, _⟩).processKey r.key.bytes r.value = .ok s'
  rw [hhash, hs']

end BlobPurgeState

/-! ## A whole scan -/

/-- A hash has rows, and none of them is a link that holds. -/
def Unlinked (now : UInt64) (rows : List BlobRow) (hash : BlobHash) : Prop :=
  (∃ r ∈ rows, r.op.hash = hash) ∧ ∀ r ∈ rows, r.op.hash = hash → r.op.live now = false

/-- The scan after some rows: the links that have expired are marked, and the unlinked hashes but for the
last one.  The default hash, the least of all, counts as linked from the start. -/
structure Scanned (now : UInt64) (done : List BlobRow) (s : BlobPurgeState) : Prop where
  clock : s.now = now
  last : s.lastHash = (done.getLast?.map fun r => r.op.hash).getD .default
  linked : s.lastHashIsLinked = true ↔
    s.lastHash = .default ∨ ∃ r ∈ done, r.op.hash = s.lastHash ∧ r.op.live now = true
  marked : ∀ x, x ∈ s.deleteKeys ↔
    (∃ r ∈ done, r.op.expired now = true ∧ x = (some r.accountId, r.op)) ∨
      ∃ h, x = (none, .commit h) ∧ h ≠ .default ∧ h ≠ s.lastHash ∧ Unlinked now done h

section

variable {now : UInt64} {done : List BlobRow} {s : BlobPurgeState}

theorem Scanned.start (now : UInt64) : Scanned now [] (.new now) := by
  refine ⟨rfl, rfl, by simp [new], fun x => ?_⟩
  simp [new, Unlinked]

theorem Scanned.unlinked_last (h : Scanned now done s) :
    s.lastHash ≠ .default ∧ Unlinked now done s.lastHash ↔ s.lastHashIsLinked = false := by
  rw [← Bool.not_eq_true, h.linked, not_or]
  refine and_congr_right fun hne => ?_
  constructor
  · rintro ⟨-, hall⟩ ⟨r, hr, hh, hlive⟩
    rw [hall r hr hh] at hlive
    exact Bool.false_ne_true hlive
  · intro hnone
    refine ⟨?_, fun r hr hh => ?_⟩
    · rcases hl : done.getLast? with _ | r
      · rw [h.last, hl] at hne
        exact absurd rfl hne
      · refine ⟨r, mem_of_getLast? hl, ?_⟩
        rw [h.last, hl]
        rfl
    · rw [← Bool.not_eq_true]
      exact fun hlive => hnone ⟨r, hr, hh, hlive⟩

theorem unlinked_concat {r : BlobRow} {h : BlobHash} (hne : h ≠ r.op.hash) :
    Unlinked now (done ++ [r]) h ↔ Unlinked now done h := by
  simp only [Unlinked, mem_append, mem_singleton, or_imp, forall_and, forall_eq, or_and_right,
    exists_or, exists_eq_left, hne.symm, or_false, false_imp_iff, and_true]

/-- **A row** is scanned, where the rows of a hash are next to each other and the default hash comes
first. -/
theorem Scanned.row (h : Scanned now done s) {r : BlobRow} {s' : BlobPurgeState}
    (hnew : s.lastHash ≠ r.op.hash → r.op.hash ≠ .default ∧ ∀ r' ∈ done, r'.op.hash ≠ r.op.hash)
    (hnow : s'.now = s.now) (hlast : s'.lastHash = r.op.hash)
    (hlinked : s'.lastHashIsLinked = ((s.updateHash r.op.hash).lastHashIsLinked || r.op.live s.now))
    (hkeys : s'.deleteKeys = (s.updateHash r.op.hash).deleteKeys ++
      if r.op.expired s.now then [(some r.accountId, r.op)] else []) :
    Scanned now (done ++ [r]) s' := by
  obtain ⟨-, -, hupLinked, hupKeys⟩ := s.updateHash_spec r.op.hash
  refine ⟨hnow.trans h.clock, ?_, ?_, ?_⟩
  · rw [hlast]
    simp
  · rw [hlinked, Bool.or_eq_true, hupLinked, h.linked, h.clock, hlast]
    simp only [mem_append, mem_singleton, or_and_right, exists_or, exists_eq_left, true_and,
      ← or_assoc]
    refine or_congr_left ?_
    constructor
    · rintro ⟨hh, hd | ⟨r', hr', hr'h, hlive⟩⟩
      · exact Or.inl (hh.symm.trans hd)
      · exact Or.inr ⟨r', hr', hr'h.trans hh, hlive⟩
    · intro hlive
      by_cases hh : s.lastHash = r.op.hash
      · rw [hh]
        exact ⟨rfl, hlive⟩
      · obtain ⟨hd, hr⟩ := hnew hh
        rcases hlive with hlive | ⟨r', hr', hr'h, -⟩
        · exact absurd hlive hd
        · exact absurd hr'h (hr r' hr')
  · intro x
    have hcommit : (x ∈ s.deleteKeys ∨ (s.lastHash ≠ r.op.hash ∧ s.lastHashIsLinked = false) ∧
        x = (none, .commit s.lastHash)) ↔
        (∃ r' ∈ done, r'.op.expired now = true ∧ x = (some r'.accountId, r'.op)) ∨
          ∃ h', x = (none, .commit h') ∧ h' ≠ .default ∧ h' ≠ r.op.hash ∧
            Unlinked now (done ++ [r]) h' := by
      rw [h.marked, or_assoc]
      refine or_congr_right ⟨?_, ?_⟩
      · rintro (⟨h', rfl, hd, hne, hun⟩ | ⟨⟨hne, hl⟩, rfl⟩)
        · have hne' : h' ≠ r.op.hash := by
            rintro rfl
            obtain ⟨r', hr', hr'h⟩ := hun.1
            exact (hnew hne.symm).2 r' hr' hr'h
          exact ⟨h', rfl, hd, hne', (unlinked_concat hne').mpr hun⟩
        · obtain ⟨hd, hun⟩ := h.unlinked_last.2 hl
          exact ⟨s.lastHash, rfl, hd, hne, (unlinked_concat hne).mpr hun⟩
      · rintro ⟨h', rfl, hd, hne, hun⟩
        have hun' := (unlinked_concat hne).mp hun
        by_cases hl : h' = s.lastHash
        · subst hl
          exact Or.inr ⟨⟨hne, h.unlinked_last.1 ⟨hd, hun'⟩⟩, rfl⟩
        · exact Or.inl ⟨h', rfl, hd, hl, hun'⟩
    have hmem : x ∈ s'.deleteKeys ↔
        (x ∈ s.deleteKeys ∨ (s.lastHash ≠ r.op.hash ∧ s.lastHashIsLinked = false) ∧
          x = (none, .commit s.lastHash)) ∨
        (r.op.expired now = true ∧ x = (some r.accountId, r.op)) := by
      rw [hkeys, hupKeys, mem_append, mem_append, h.clock]
      refine or_congr (or_congr_right ?_) ?_ <;> split_ifs with hc <;> simp [hc]
    rw [hmem, hcommit, hlast]
    simp only [mem_append, mem_singleton, or_and_right, exists_or, exists_eq_left]
    exact or_right_comm

end

namespace Shard

theorem hash_le {r r' : BlobRow} (h : r.key.bytes < r'.key.bytes) :
    r.op.hash.val < r'.op.hash.val ∨ r.op.hash = r'.op.hash := by
  rw [r.bytes_key, r'.bytes_key, append_lt_append_iff
    (r.op.hash.property.trans r'.op.hash.property.symm)] at h
  exact h.imp_right fun h => Subtype.ext h.1

theorem contiguous {before : List BlobRow} {l r : BlobRow}
    (h : (before ++ [l] ++ [r]).Pairwise fun r r' => r.key.bytes < r'.key.bytes)
    (hne : l.op.hash ≠ r.op.hash) :
    r.op.hash ≠ .default ∧ ∀ r' ∈ before ++ [l], r'.op.hash ≠ r.op.hash := by
  obtain ⟨hfront, -, hlast⟩ := pairwise_append.mp h
  have hlr := (hash_le (hlast l (by simp) r (by simp))).resolve_right hne
  refine ⟨fun hd => ?_, fun r' hr' => ?_⟩
  · rw [hd] at hlr
    exact not_lt_replicate_zero l.op.hash.property.ge hlr
  rcases mem_append.mp hr' with hr' | hr'
  · obtain ⟨-, -, hl⟩ := pairwise_append.mp hfront
    intro hh
    rcases hash_le (hl r' hr' l (by simp)) with hlt | heq
    · rw [hh] at hlt
      exact List.lt_irrefl _ (List.lt_trans hlt hlr)
    · exact hne (heq.symm.trans hh)
  · rwa [mem_singleton.mp hr']

/-- **The scan** of ordered rows. -/
theorem scanned (now : UInt64) {rows : List BlobRow}
    (hsorted : rows.Pairwise fun r r' => r.key.bytes < r'.key.bytes)
    (hobjects : ∀ r ∈ rows, r.value.length = U16_LEN + U64_LEN →
      ∃ x, ObjectId.deserialize r.value = .ok x) :
    ∃ s, (rows.map BlobRow.raw).foldlM row (.new now) = .ok s ∧ Scanned now rows s := by
  induction rows using List.reverseRecOn with
  | nil => exact ⟨.new now, rfl, .start now⟩
  | append_singleton done r ih =>
    have hmem : ∀ {r'}, r' ∈ done → r' ∈ done ++ [r] := fun h => mem_append_left _ h
    obtain ⟨s, hs, hscan⟩ := ih (pairwise_append.mp hsorted).1
      (fun r' hr' => hobjects r' (hmem hr'))
    obtain ⟨s', hs', hnow, hlast, hlinked, hkeys⟩ := s.row_spec r (hobjects r (by simp))
    refine ⟨s', ?_, hscan.row (fun hne => ?_) hnow hlast hlinked hkeys⟩
    · rw [map_append, foldlM_append, hs]
      show ([r].map BlobRow.raw).foldlM row s = .ok s'
      simp [hs']
    · rcases eq_nil_or_concat' done with rfl | ⟨before, l, rfl⟩
      · rw [hscan.last] at hne
        exact ⟨Ne.symm hne, fun r' hr' => absurd hr' not_mem_nil⟩
      · have hl : s.lastHash = l.op.hash := by
          rw [hscan.last]
          simp
        rw [hl] at hne
        exact contiguous hsorted hne

end Shard

/-! ## What is deleted -/

/-- The keys that a purge clears.  A blob's own key names no account. -/
def BlobPurgeState.clearedKeys (s : BlobPurgeState) : List (List UInt8) :=
  s.deleteKeys.map fun x => (⟨x.1.getD 0, 0, 0, .blob x.2⟩ : ValueKey).bytes

/-- The blobs whose content a purge deletes. -/
def BlobPurgeState.deletedBlobs (s : BlobPurgeState) : List BlobHash :=
  s.deleteKeys.filterMap fun x =>
    match x.2 with
    | .commit hash => some hash
    | _ => none

theorem purgeScan_marked (now : UInt64) (shard : Shard) :
    ∃ s, purgeScan now (shard.rows.map BlobRow.raw) = .ok s ∧ ∀ x, x ∈ s.deleteKeys ↔
      (∃ r ∈ shard.rows, r.op.expired now = true ∧ x = (some r.accountId, r.op)) ∨
        ∃ h, x = (none, .commit h) ∧ h ≠ .default ∧ Unlinked now shard.rows h := by
  obtain ⟨s, hs, hscan⟩ := Shard.scanned now shard.sorted shard.objects
  refine ⟨s.finalize .default, ?_, fun x => ?_⟩
  · rw [purgeScan, hs]
    rfl
  have hkeys : x ∈ (s.finalize .default).deleteKeys ↔
      x ∈ s.deleteKeys ∨ x = (none, .commit s.lastHash) ∧ s.lastHashIsLinked = false := by
    unfold finalize
    cases s.lastHashIsLinked <;> simp
  rw [hkeys, hscan.marked, ← hscan.unlinked_last, or_assoc]
  refine or_congr_right ⟨?_, ?_⟩
  · rintro (⟨h, rfl, hd, -, hun⟩ | ⟨rfl, hd, hun⟩)
    · exact ⟨h, rfl, hd, hun⟩
    · exact ⟨_, rfl, hd, hun⟩
  · rintro ⟨h, rfl, hd, hun⟩
    by_cases hl : h = s.lastHash
    · subst hl
      exact Or.inr ⟨rfl, hd, hun⟩
    · exact Or.inl ⟨h, rfl, hd, hl, hun⟩

theorem BlobRow.length_of_expired {now : UInt64} {r : BlobRow} (h : r.op.expired now = true) :
    r.key.bytes.length = BlobPurgeState.TEMP_LINK ∧
      r.key.bytes = (⟨r.accountId, 0, 0, .blob r.op⟩ : ValueKey).bytes := by
  have hhash := r.op.hash.property
  have hlen := congrArg List.length r.bytes_key
  rw [length_append, hhash] at hlen
  rcases r with ⟨a, c, d, (h' | ⟨h', (i | _ | u)⟩), v⟩ <;> simp [BlobOp.expired] at h
  exact ⟨by rw [hlen]; simp [BlobOp.rest, BlobPurgeState.TEMP_LINK, U32_LEN, U64_LEN], rfl⟩

/-- **Purging a shard.**  Among the keys of links, a purge clears those of the temporary links that have
expired.  It clears the key of a blob, and deletes its content, exactly when the blob is unlinked. -/
theorem purgeScan_spec (now : UInt64) (shard : Shard) :
    ∃ s, purgeScan now (shard.rows.map BlobRow.raw) = .ok s ∧
      (∀ key, key.length ≠ BLOB_HASH_LEN →
        (key ∈ s.clearedKeys ↔ ∃ r ∈ shard.rows, r.op.expired now = true ∧ key = r.key.bytes)) ∧
      ∀ hash : BlobHash, hash ≠ .default →
        (hash.val ∈ s.clearedKeys ↔ Unlinked now shard.rows hash) ∧
        (hash ∈ s.deletedBlobs ↔ Unlinked now shard.rows hash) := by
  obtain ⟨s, hs, hmem⟩ := purgeScan_marked now shard
  have hcleared : ∀ key, key ∈ s.clearedKeys ↔
      (∃ r ∈ shard.rows, r.op.expired now = true ∧ key = r.key.bytes) ∨
        ∃ h : BlobHash, key = h.val ∧ h ≠ .default ∧ Unlinked now shard.rows h := by
    intro key
    simp only [clearedKeys, mem_map, hmem]
    constructor
    · rintro ⟨x, ⟨r, hr, hexp, rfl⟩ | ⟨h, rfl, hd, hun⟩, rfl⟩
      · exact Or.inl ⟨r, hr, hexp, (BlobRow.length_of_expired hexp).2.symm⟩
      · exact Or.inr ⟨h, rfl, hd, hun⟩
    · rintro (⟨r, hr, hexp, rfl⟩ | ⟨h, rfl, hd, hun⟩)
      · exact ⟨_, Or.inl ⟨r, hr, hexp, rfl⟩, (BlobRow.length_of_expired hexp).2.symm⟩
      · exact ⟨_, Or.inr ⟨h, rfl, hd, hun⟩, rfl⟩
  refine ⟨s, hs, fun key hkey => ?_, fun hash hd => ⟨?_, ?_⟩⟩
  · rw [hcleared]
    refine or_iff_left ?_
    rintro ⟨h, rfl, -⟩
    exact hkey h.property
  · rw [hcleared]
    constructor
    · rintro (⟨r, -, hexp, hr⟩ | ⟨h, hh, -, hun⟩)
      · have hlen := (BlobRow.length_of_expired hexp).1
        rw [← hr, hash.property] at hlen
        exact absurd hlen (by decide)
      · rwa [Subtype.ext hh]
    · exact fun hun => Or.inr ⟨hash, rfl, hd, hun⟩
  · simp only [deletedBlobs, mem_filterMap, hmem]
    constructor
    · rintro ⟨x, ⟨r, hr, hexp, rfl⟩ | ⟨h, rfl, -, hun⟩, hx⟩
      · rcases r with ⟨a, c, d, (h | ⟨h, l⟩), v⟩
        · simp [BlobOp.expired] at hexp
        · cases hx
      · obtain rfl : h = hash := Option.some.inj hx
        exact hun
    · exact fun hun => ⟨_, Or.inr ⟨hash, rfl, hd, hun⟩, rfl⟩

section

/-- A blob that was reserved and never committed; its reservation ended at time 5. -/
def reserved : BlobHash := ⟨1 :: List.replicate 31 0, rfl⟩

def reservedShard : Shard where
  rows := [⟨7, 0, 0, .link reserved (.temporary 5), []⟩]
  sorted := pairwise_singleton _ _
  objects := by simp [U16_LEN, U64_LEN]

/-- Its content is deleted though it has no key of its own. -/
theorem purgeScan_uncommitted : ¬ ∀ (now : UInt64) (shard : Shard) (s : BlobPurgeState),
    purgeScan now (shard.rows.map BlobRow.raw) = .ok s → ∀ hash, hash ∈ s.deletedBlobs ↔
      (∃ r ∈ shard.rows, r.op = .commit hash) ∧ Unlinked now shard.rows hash := by
  intro h
  have hblob := (h 10 reservedShard _ rfl reserved).mp (by decide)
  obtain ⟨⟨r, hr, hop⟩, -⟩ := hblob
  rw [mem_singleton.mp hr] at hop
  cases hop

end

end MailServer.Store.Write
