import MailServer.Lib.Lex
import MailServer.Store.Write.Serialize

/-!
# Archives that are read again (`store/src/write/serialize.rs`, `store/src/write/assert.rs`)

* `roundTrips_iff`: the payloads that come back from the archives made of them.
* `readsAgain_iff`: the archives that come back from `into_inner`.
* `guarded_iff`: the bytes on which no length is exceeded, and the values on which a stale read is noticed.
-/

namespace MailServer.Store.Write

open MailServer.Lib List Option Archiver

/-! ## What the encoders write -/

/-- The archives that are written: the last with the change id of the batch. -/
inductive ArchiveKind where
  | untrusted
  | hashed
  | versioned (changeId : UInt64)

def ArchiveKind.version (hash : UInt32) : ArchiveKind → ArchiveVersion
  | .untrusted => .unversioned
  | .hashed => .hashed hash
  | .versioned changeId => .versioned changeId hash

def ArchiveKind.flags : ArchiveKind → UInt8
  | .untrusted => MAGIC_MARKER
  | .hashed => MAGIC_MARKER ||| HASHED
  | .versioned _ => MAGIC_MARKER ||| HASHED ||| VERSIONED

section

variable (xxh3 : List UInt8 → UInt64) (lz4 : Lz4)

/-- The bytes in the store. -/
def ArchiveKind.stored (kind : ArchiveKind) (payload : List UInt8) : List UInt8 :=
  match kind with
  | .untrusted => (new payload).untrusted.serialize xxh3 lz4
  | .hashed => (new payload).serialize xxh3 lz4
  | .versioned changeId =>
    versionedArchive ((new payload).serializeVersioned xxh3 lz4).1
      ((new payload).serializeVersioned xxh3 lz4).2 changeId

/-- The payload is long, and its block is shorter. -/
def Compressed (payload : List UInt8) : Prop :=
  COMPRESS_WATERMARK < payload.length ∧ (lz4.compressInto payload).length < payload.length

/-- A block with the length of the payload in front. -/
def block (payload : List UInt8) : List UInt8 :=
  (be32 (UInt32.ofNat payload.length)).reverse ++ lz4.compressInto payload

instance (payload : List UInt8) : Decidable (Compressed lz4 payload) :=
  inferInstanceAs (Decidable (_ ∧ _))

/-- What stands before the trailer. -/
def storedContents (payload : List UInt8) : List UInt8 :=
  if Compressed lz4 payload then block lz4 payload else payload

/-- The marker, from the flags of the archiver. -/
def flagsOf (flags : UInt8) (payload : List UInt8) : UInt8 :=
  if Compressed lz4 payload then flags ||| LZ4_COMPRESSED else flags

variable {xxh3 lz4}

theorem serialize_compressed {a : Archiver} (h : Compressed lz4 a.inner) :
    a.serialize xxh3 lz4 =
      if a.flags &&& HASHED ≠ 0 then
        block lz4 a.inner ++ be32 (hash32 xxh3 (block lz4 a.inner)) ++
          List.replicate (a.versionOffset + 1) (a.flags ||| LZ4_COMPRESSED)
      else block lz4 a.inner ++ [a.flags ||| LZ4_COMPRESSED] := by
  unfold serialize
  rw [if_pos h.1]
  exact if_pos h.2

theorem serialize_plain {a : Archiver} (h : ¬ Compressed lz4 a.inner) :
    a.serialize xxh3 lz4 = a.serializePlain xxh3 := by
  unfold serialize
  by_cases hlong : COMPRESS_WATERMARK < a.inner.length
  · rw [if_pos hlong]
    exact if_neg fun hshort => h ⟨hlong, hshort⟩
  · rw [if_neg hlong]

variable (xxh3 lz4) in
theorem serialize_hashed (a : Archiver) (hhashed : a.flags &&& HASHED ≠ 0) :
    ∃ filler, filler.length = a.versionOffset ∧ a.serialize xxh3 lz4 =
      storedContents lz4 a.inner ++ be32 (hash32 xxh3 (storedContents lz4 a.inner)) ++ filler ++
        [flagsOf lz4 a.flags a.inner] := by
  unfold storedContents flagsOf
  by_cases h : Compressed lz4 a.inner
  · refine ⟨List.replicate a.versionOffset (a.flags ||| LZ4_COMPRESSED), length_replicate, ?_⟩
    rw [if_pos h, if_pos h, serialize_compressed h, if_pos hhashed, replicate_succ', ← append_assoc]
  · refine ⟨if a.versionOffset ≠ 0 then be64 0 else [], ?_, ?_⟩
    · unfold versionOffset
      by_cases hversioned : a.flags &&& VERSIONED ≠ 0
      · rw [if_pos hversioned, if_pos (show U64_LEN ≠ 0 by decide)]
        exact be64_length 0
      · rw [if_neg hversioned]
        rfl
    · rw [if_neg h, if_neg h, serialize_plain h, serializePlain, if_pos hhashed]

variable (xxh3 lz4) in
theorem serialize_unhashed (a : Archiver) (hhashed : ¬ a.flags &&& HASHED ≠ 0) (hversioned : ¬ a.versionOffset ≠ 0) :
    a.serialize xxh3 lz4 = storedContents lz4 a.inner ++ [flagsOf lz4 a.flags a.inner] := by
  unfold storedContents flagsOf
  by_cases h : Compressed lz4 a.inner
  · rw [if_pos h, if_pos h, serialize_compressed h, if_neg hhashed]
  · rw [if_neg h, if_neg h, serialize_plain h, serializePlain, if_neg hhashed, if_neg hversioned,
      append_nil, append_nil]

theorem versionedArchive_eq {front filler : List UInt8} {marker : UInt8} (h : filler.length = U64_LEN)
    (changeId : UInt64) :
    versionedArchive ((front ++ filler ++ [marker]).length - U64_LEN - 1) (front ++ filler ++ [marker]) changeId =
      front ++ be64 changeId ++ [marker] := by
  have hoffset : (front ++ filler ++ [marker]).length - U64_LEN - 1 = front.length := by
    rw [length_append, length_append, length_singleton]
    omega
  unfold versionedArchive
  rw [hoffset, getLast?_concat, append_assoc front filler, take_left]
  rfl

theorem stored_eq (kind : ArchiveKind) (payload : List UInt8) :
    kind.stored xxh3 lz4 payload = storedContents lz4 payload ++
      (kind.version (hash32 xxh3 (storedContents lz4 payload))).trailer ++ [flagsOf lz4 kind.flags payload] := by
  cases kind with
  | untrusted =>
    have hserialize := serialize_unhashed xxh3 lz4 (new payload).untrusted
      (show ¬ MAGIC_MARKER &&& HASHED ≠ 0 by decide)
      (show ¬ (if MAGIC_MARKER &&& VERSIONED ≠ 0 then U64_LEN else 0) ≠ 0 by decide)
    rw [ArchiveKind.version, ArchiveVersion.trailer, append_nil]
    exact hserialize
  | hashed =>
    obtain ⟨filler, hfiller, hserialize⟩ := serialize_hashed xxh3 lz4 (new payload)
      (show (MAGIC_MARKER ||| HASHED) &&& HASHED ≠ 0 by decide)
    have hunversioned : ¬ (MAGIC_MARKER ||| HASHED) &&& VERSIONED ≠ 0 := by decide
    obtain rfl := length_eq_zero_iff.mp (hfiller.trans (if_neg hunversioned))
    rw [append_nil] at hserialize
    exact hserialize
  | versioned changeId =>
    obtain ⟨filler, hfiller, hserialize⟩ := serialize_hashed xxh3 lz4 (new payload).withVersion
      (show (MAGIC_MARKER ||| HASHED ||| VERSIONED) &&& HASHED ≠ 0 by decide)
    show versionedArchive (((new payload).withVersion.serialize xxh3 lz4).length - U64_LEN - 1)
      ((new payload).withVersion.serialize xxh3 lz4) changeId = _
    have hoffset : filler.length = U64_LEN :=
      hfiller.trans (if_pos (show (MAGIC_MARKER ||| HASHED ||| VERSIONED) &&& VERSIONED ≠ 0 by decide))
    rw [hserialize, versionedArchive_eq hoffset, append_assoc (storedContents lz4 _)]
    rfl

theorem ArchiveKind.flags_cases (kind : ArchiveKind) :
    (kind.flags = MAGIC_MARKER ∧ ∀ hash, kind.version hash = .unversioned) ∨
      (kind.flags = MAGIC_MARKER ||| HASHED ∧ ∀ hash, kind.version hash = .hashed hash) ∨
      kind.flags = MAGIC_MARKER ||| HASHED ||| VERSIONED ∧
        ∃ changeId, ∀ hash, kind.version hash = .versioned changeId hash := by
  cases kind with
  | untrusted => exact .inl ⟨rfl, fun _ => rfl⟩
  | hashed => exact .inr (.inl ⟨rfl, fun _ => rfl⟩)
  | versioned changeId => exact .inr (.inr ⟨rfl, changeId, fun _ => rfl⟩)

variable (xxh3 lz4) in
theorem layout_stored (kind : ArchiveKind) (payload : List UInt8) :
    Layout xxh3 (flagsOf lz4 kind.flags payload) (storedContents lz4 payload)
      (kind.version (hash32 xxh3 (storedContents lz4 payload))) (kind.stored xxh3 lz4 payload) := by
  have hflags : ∀ marker, marker = kind.flags ∨ marker = kind.flags ||| LZ4_COMPRESSED →
      marker &&& MAGIC_MARKER ≠ 0 ∧ ∀ hash, (kind.version hash).Marked marker := by
    intro marker hmarker
    rcases kind.flags_cases with ⟨hflags, hversion⟩ | ⟨hflags, hversion⟩ | ⟨hflags, changeId, hversion⟩ <;>
      rw [hflags] at hmarker <;> rcases hmarker with rfl | rfl <;> refine ⟨by decide, fun hash => ?_⟩ <;>
      rw [hversion hash]
    · exact ⟨by decide, by decide⟩
    · exact ⟨by decide, by decide⟩
    · exact ⟨by decide, by decide⟩
    · exact ⟨by decide, by decide⟩
    · exact show (MAGIC_MARKER ||| HASHED ||| VERSIONED) &&& VERSIONED ≠ 0 by decide
    · exact show (MAGIC_MARKER ||| HASHED ||| VERSIONED ||| LZ4_COMPRESSED) &&& VERSIONED ≠ 0 by decide
  have hmarker : flagsOf lz4 kind.flags payload = kind.flags ∨
      flagsOf lz4 kind.flags payload = kind.flags ||| LZ4_COMPRESSED := by
    unfold flagsOf
    split_ifs
    · exact .inr rfl
    · exact .inl rfl
  obtain ⟨hmagic, hmarked⟩ := hflags _ hmarker
  refine ⟨stored_eq kind payload, hmagic, hmarked _, ?_⟩
  intro hash hhash
  cases kind with
  | untrusted => cases hhash
  | hashed => exact (some.inj hhash).symm
  | versioned changeId => exact (some.inj hhash).symm

theorem uncompressedSize_block (payload : List UInt8) :
    uncompressedSize (block lz4 payload) = some (payload.length % 0x100000000, lz4.compressInto payload) := by
  have hlen : (be32 (UInt32.ofNat payload.length)).reverse.length = U32_LEN := by
    rw [length_reverse, be32_length]
  have hsize : ofBeBytes (be32 (UInt32.ofNat payload.length)) = payload.length % 0x100000000 := by
    rw [be32, ofBeBytes_beBytes (UInt32.toNat_lt _), UInt32.toNat_ofNat']
  unfold uncompressedSize block
  rw [if_pos (by rw [length_append]; omega), take_left' hlen, drop_left' hlen,
    reverse_reverse, hsize]

variable (xxh3 lz4) in
theorem reads_stored_iff (kind : ArchiveKind) (payload : List UInt8) :
    Reads xxh3 lz4 (kind.stored xxh3 lz4 payload) payload (kind.version (hash32 xxh3 (storedContents lz4 payload))) ↔
      (Compressed lz4 payload →
        lz4.decompressInto (lz4.compressInto payload) (payload.length % 0x100000000) = some payload) := by
  have hlayout := layout_stored xxh3 lz4 kind payload
  have hunpacks : Unpacks lz4 (flagsOf lz4 kind.flags payload) (storedContents lz4 payload) payload ↔
      (Compressed lz4 payload →
        lz4.decompressInto (lz4.compressInto payload) (payload.length % 0x100000000) = some payload) := by
    unfold Unpacks flagsOf storedContents
    by_cases h : Compressed lz4 payload
    · have hmarker : ¬ (kind.flags ||| LZ4_COMPRESSED) &&& LZ4_COMPRESSED = 0 := by
        rcases kind.flags_cases with ⟨hflags, -⟩ | ⟨hflags, -⟩ | ⟨hflags, -⟩ <;> rw [hflags] <;> decide
      rw [if_pos h, if_pos h, if_neg hmarker, uncompressedSize_block, imp_iff_right h]
      rfl
    · have hmarker : kind.flags &&& LZ4_COMPRESSED = 0 := by
        rcases kind.flags_cases with ⟨hflags, -⟩ | ⟨hflags, -⟩ | ⟨hflags, -⟩ <;> rw [hflags] <;> decide
      rw [if_neg h, if_neg h, if_pos hmarker]
      exact iff_of_true rfl fun hc => absurd hc h
  rw [reads_iff, ← hunpacks]
  constructor
  · rintro ⟨marker, contents, hlayout', hunpacks'⟩
    obtain ⟨rfl, rfl, -⟩ := hlayout.unique hlayout'
    exact hunpacks'
  · exact fun h => ⟨_, _, hlayout, h⟩

variable (xxh3 lz4) in
/-- What comes back from the store is what was archived. -/
def RoundTrips (kind : ArchiveKind) (payload : List UInt8) : Prop :=
  Reads xxh3 lz4 (kind.stored xxh3 lz4 payload) payload (kind.version (hash32 xxh3 (storedContents lz4 payload)))

variable (xxh3 lz4) in
/-- Neither decoder takes contents with another hash behind them. -/
def RejectsHashes : Prop :=
  ∀ (contents : List UInt8) (hash : UInt32) (version : ArchiveVersion) (marker : UInt8), version.hash = some hash →
    marker &&& MAGIC_MARKER ≠ 0 → version.Marked marker → hash ≠ hash32 xxh3 contents →
    ∀ build isAligned,
      deserialize xxh3 lz4 build (contents ++ version.trailer ++ [marker]) = some (.error .dataCorruption) ∧
        deserializeOwned xxh3 lz4 build isAligned (contents ++ version.trailer ++ [marker]) =
          some (.error .dataCorruption)

theorem checkHash_ne {build : Build} {contents : List UInt8} {hash : UInt32} (h : hash ≠ hash32 xxh3 contents) :
    checkHash xxh3 build (contents ++ be32 hash) = some none := by
  have hsplit : splitEnd build (contents ++ be32 hash) U32_LEN = _ :=
    (splitEnd_eq_some (by decide)).2 ⟨rfl, be32_length hash⟩
  unfold checkHash
  rw [hsplit]
  exact congrArg some (if_neg fun heq => h (be32_inj.mp heq).symm)

theorem rejectsHashes : RejectsHashes xxh3 lz4 := by
  intro contents hash version marker hversion hmagic hmarked hne build isAligned
  have hvalidate : validateMarkerAndContents xxh3 build (contents ++ version.trailer ++ [marker]) = some none := by
    rw [validate_concat hmagic]
    cases version with
    | unversioned => cases hversion
    | hashed hash' =>
      obtain rfl := some.inj hversion
      rw [if_neg (not_not.mpr hmarked.1), if_pos hmarked.2, ArchiveVersion.trailer, checkHash_ne hne]
      rfl
    | versioned changeId hash' =>
      obtain rfl := some.inj hversion
      have hsplit : splitEnd build (contents ++ (be32 hash' ++ be64 changeId)) U64_LEN = _ :=
        (splitEnd_eq_some (by decide)).2 ⟨(append_assoc _ _ _).symm, be64_length changeId⟩
      have hversioned : marker &&& VERSIONED ≠ 0 := hmarked
      rw [if_pos hversioned, ArchiveVersion.trailer, hsplit, bind_some]
      simp [checkHash_ne hne]
  constructor
  · unfold deserialize
    rw [hvalidate]
    rfl
  · unfold deserializeOwned
    rw [hvalidate]
    rfl

end

/-- A block that names a run of zeros by its length. -/
def runs : Lz4 where
  compressInto payload :=
    if payload = List.replicate payload.length 0 ∧ payload.length < 256 ^ 8 then 1 :: beBytes 8 payload.length
    else 0 :: payload
  decompressInto block size :=
    match block with
    | [] => none
    | kind :: rest =>
      if kind = 0 then if size = rest.length then some rest else none
      else if size = ofBeBytes rest then some (List.replicate size 0) else none

theorem decompressInto_runs (payload : List UInt8) (size : ℕ) :
    runs.decompressInto (runs.compressInto payload) size = if size = payload.length then some payload else none := by
  show runs.decompressInto (if _ then _ else _) size = _
  split_ifs with hrun hsize hsize
  · show (if size = ofBeBytes (beBytes 8 payload.length) then some (List.replicate size 0) else none) = some payload
    rw [ofBeBytes_beBytes hrun.2, if_pos hsize, hsize, ← hrun.1]
  · show (if size = ofBeBytes (beBytes 8 payload.length) then some (List.replicate size 0) else none) = none
    rw [ofBeBytes_beBytes hrun.2, if_neg hsize]
  · exact if_pos hsize
  · exact if_neg hsize

theorem compressInto_zeros {n : ℕ} (h : n < 256 ^ 8) : (runs.compressInto (List.replicate n 0)).length = 9 := by
  show (if _ then _ else _ : List UInt8).length = 9
  rw [if_pos (by rw [length_replicate]; exact ⟨rfl, h⟩), length_cons, beBytes_length]

section

variable {xxh3 : List UInt8 → UInt64} {lz4 : Lz4}

/-- The hash is that of the payload as it is held, and a change id is the hash twice. -/
def Archive.Again (xxh3 : List UInt8 → UInt64) (a : Archive) : Prop :=
  match a.version with
  | .versioned changeId hash => hash = hash32 xxh3 a.asBytes ∧ changeId.toNat = hash.toNat * 0x100000001
  | .hashed hash => hash = hash32 xxh3 a.asBytes
  | .unversioned => True

theorem swapped_iff {changeId : UInt64} {hash : UInt32} :
    be64 changeId ++ be32 hash = be32 hash ++ be64 changeId ↔ changeId.toNat = hash.toNat * 0x100000001 := by
  have hid := changeId.toNat_lt
  have hlt := hash.toNat_lt
  have hhigh : changeId.toNat / 256 ^ 4 < 256 ^ 4 := by omega
  have hlow : changeId.toNat % 256 ^ 4 < 256 ^ 4 := by omega
  have hhalves : be64 changeId = beBytes 4 (changeId.toNat / 256 ^ 4) ++ beBytes 4 (changeId.toNat % 256 ^ 4) := by
    rw [beBytes_mod, ← beBytes_add]
    rfl
  have hsame : beBytes 4 hash.toNat = beBytes 4 (changeId.toNat % 256 ^ 4) ↔ hash.toNat = changeId.toNat % 256 ^ 4 :=
    ⟨beBytes_inj hlt hlow, congrArg _⟩
  rw [hhalves, be32, show U32_LEN = 4 from rfl, append_assoc, beBytes_append_inj hhigh hlt,
    beBytes_append_inj hlow hhigh, hsame]
  omega

/-- **The archives that come back from `into_inner`.** -/
theorem readsAgain_iff (a : Archive) :
    Reads xxh3 lz4 a.intoInner a.asBytes a.version ↔ a.Again xxh3 := by
  rw [reads_iff]
  unfold Archive.intoInner Archive.Again
  cases hversion : a.version with
  | unversioned =>
    have hlayout : Layout xxh3 MAGIC_MARKER a.asBytes .unversioned (a.asBytes ++ [MAGIC_MARKER]) :=
      ⟨by rw [ArchiveVersion.trailer, append_nil], by decide, ⟨by decide, by decide⟩, fun hash h => by cases h⟩
    exact iff_of_true ⟨MAGIC_MARKER, a.asBytes, hlayout, (if_pos (by decide)).mpr rfl⟩ trivial
  | hashed hash =>
    constructor
    · rintro ⟨marker, contents, hlayout, -⟩
      have hbytes : a.asBytes ++ be32 hash ++ [MAGIC_MARKER ||| HASHED] = contents ++ be32 hash ++ [marker] :=
        hlayout.bytes_eq
      obtain ⟨hfront, -⟩ := append_inj' hbytes rfl
      obtain ⟨rfl, -⟩ := append_be32_inj.mp hfront
      exact hlayout.hash_eq hash rfl
    · intro h
      refine ⟨MAGIC_MARKER ||| HASHED, a.asBytes, ⟨rfl, by decide, ⟨by decide, by decide⟩, ?_⟩, ?_⟩
      · rintro hash' ⟨⟩
        exact h
      · exact (if_pos (by decide)).mpr rfl
  | versioned changeId hash =>
    constructor
    · rintro ⟨marker, contents, hlayout, -⟩
      have hbytes : a.asBytes ++ be64 changeId ++ be32 hash ++ [MAGIC_MARKER ||| VERSIONED ||| HASHED] =
          contents ++ (be32 hash ++ be64 changeId) ++ [marker] := hlayout.bytes_eq
      rw [append_assoc a.asBytes] at hbytes
      obtain ⟨hfront, -⟩ := append_inj' hbytes rfl
      obtain ⟨rfl, hswap⟩ := append_inj' hfront (by rw [length_append, length_append, Nat.add_comm])
      exact ⟨hlayout.hash_eq hash rfl, swapped_iff.1 hswap⟩
    · rintro ⟨hhash, hid⟩
      refine ⟨MAGIC_MARKER ||| VERSIONED ||| HASHED, a.asBytes, ⟨?_, by decide, ?_, ?_⟩, (if_pos (by decide)).mpr rfl⟩
      · show a.asBytes ++ be64 changeId ++ be32 hash ++ [MAGIC_MARKER ||| VERSIONED ||| HASHED] =
          a.asBytes ++ (be32 hash ++ be64 changeId) ++ [MAGIC_MARKER ||| VERSIONED ||| HASHED]
        rw [append_assoc a.asBytes, swapped_iff.2 hid]
      · exact show (MAGIC_MARKER ||| VERSIONED ||| HASHED) &&& VERSIONED ≠ 0 by decide
      · rintro hash' ⟨⟩
        exact hhash

end

/-- The archive of an empty payload with the change id 1 does not come back. -/
theorem not_readsAgain : ∃ a,
    deserialize (fun _ => 0) runs .wrapping (ArchiveKind.stored (fun _ => 0) runs (.versioned 1) []) = some (.ok a) ∧
      ¬ Reads (fun _ => 0) runs a.intoInner a.asBytes a.version := by
  refine ⟨⟨.aligned [], .versioned 1 0⟩, rfl, fun h => ?_⟩
  obtain ⟨marker, contents, hlayout, -⟩ := reads_iff.1 h
  have hbytes : be64 1 ++ be32 0 ++ [MAGIC_MARKER ||| VERSIONED ||| HASHED] =
      contents ++ (be32 0 ++ be64 1) ++ [marker] := hlayout.bytes_eq
  obtain ⟨hfront, -⟩ := append_inj' hbytes rfl
  obtain ⟨-, hswap⟩ := @append_inj' _ [] _ _ _ hfront rfl
  exact absurd (swapped_iff.1 hswap) (by decide)

/-! ## Assertions on archives -/

/-- `bytes.get(i..)` -/
def getFrom (bytes : List UInt8) (i : ℕ) : Option (List UInt8) :=
  if i ≤ bytes.length then some (bytes.drop i) else none

/-- `bytes.get(i..j)` -/
def getRange (bytes : List UInt8) (i j : ℕ) : Option (List UInt8) :=
  if i ≤ j ∧ j ≤ bytes.length then some ((bytes.take j).drop i) else none

/-- `AssertValue::matches` with its subtractions of lengths, where the outer `none` is a panic. -/
def AssertValue.matchesIn (xxh3 : List UInt8 → UInt64) (build : Build) (v : AssertValue) (bytes : List UInt8) :
    Option Bool :=
  match v with
  | .u32 v => (build.sub bytes.length U32_LEN).map fun i => decide (getFrom bytes i = Option.some (be32 v))
  | .u64 v => (build.sub bytes.length U64_LEN).map fun i => decide (getFrom bytes i = Option.some (be64 v))
  | .hash v => Option.some (decide (xxh3 bytes = v))
  | .archive (.versioned _ h) =>
    (build.sub bytes.length U32_LEN).bind fun i => (build.sub i U64_LEN).bind fun i => (build.sub i 1).bind fun i =>
      (build.sub bytes.length U64_LEN).bind fun j => (build.sub j 1).map fun j =>
        decide (getRange bytes i j = Option.some (be32 h))
  | .archive (.hashed h) =>
    (build.sub bytes.length U32_LEN).bind fun i => (build.sub i 1).bind fun i =>
      (build.sub bytes.length 1).map fun j => decide (getRange bytes i j = Option.some (be32 h))
  | .archive .unversioned => Option.some false
  | .none => Option.some false
  | .some => Option.some true

/-- How many bytes an assertion counts back. -/
def AssertValue.needs : AssertValue → ℕ
  | .u32 _ => U32_LEN
  | .u64 _ => U64_LEN
  | .archive (.versioned _ _) => U32_LEN + U64_LEN + 1
  | .archive (.hashed _) => U32_LEN + 1
  | _ => 0

section

variable {xxh3 : List UInt8 → UInt64} {lz4 : Lz4} {bytes : List UInt8}

theorem sub_of_le (build : Build) {a b : ℕ} (h : b ≤ a) : build.sub a b = some (a - b) := by
  cases build with
  | checked => exact if_pos h
  | wrapping => exact congrArg some (if_pos h)

theorem sub_checked_of_lt {a b : ℕ} (h : a < b) : Build.checked.sub a b = none := if_neg (not_le.mpr h)

theorem sub_wrapping_of_lt {a b : ℕ} (h : a < b) : Build.wrapping.sub a b = some (a + 0x10000000000000000 - b) :=
  congrArg some (if_neg (not_le.mpr h))

theorem checked_sub_sub {α : Type} {a b c : ℕ} {f : ℕ → Option α} :
    ((Build.checked.sub a b).bind fun i => (Build.checked.sub i c).bind f) =
      (Build.checked.sub a (b + c)).bind f := by
  rcases Nat.lt_or_ge a b with h | h
  · rw [sub_checked_of_lt h, sub_checked_of_lt (Nat.lt_add_right c h)]
    rfl
  · rw [sub_of_le .checked h, bind_some, Build.sub, Nat.sub_sub]
    exact congrArg (Option.bind · f) (ite_congr (by rw [Nat.le_sub_iff_add_le' h]) (fun _ => rfl) fun _ => rfl)

theorem matchesIn_of_le (build : Build) {v : AssertValue} (h : v.needs ≤ bytes.length) :
    v.matchesIn xxh3 build bytes = some (v.matchesBytes xxh3 bytes) := by
  have hfrom {n : ℕ} (hn : n ≤ bytes.length) : getFrom bytes (bytes.length - n) = lastBytes n bytes := by
    rw [getFrom, lastBytes, if_pos (Nat.sub_le _ _), if_pos hn]
  have hrange {n : ℕ} (hn : U32_LEN + n ≤ bytes.length) :
      getRange bytes (bytes.length - (U32_LEN + n)) (bytes.length - n) =
        (lastBytes (U32_LEN + n) bytes).map (List.take U32_LEN) := by
    rw [getRange, lastBytes, if_pos (by omega), if_pos hn, drop_take]
    congr 2
    omega
  cases v with
  | u32 v =>
    have hneeds : U32_LEN ≤ bytes.length := h
    rw [AssertValue.matchesIn, sub_of_le build hneeds, map_some, hfrom hneeds]
    rfl
  | u64 v =>
    have hneeds : U64_LEN ≤ bytes.length := h
    rw [AssertValue.matchesIn, sub_of_le build hneeds, map_some, hfrom hneeds]
    rfl
  | archive version =>
    cases version with
    | unversioned => rfl
    | hashed hash =>
      have hneeds : U32_LEN + 1 ≤ bytes.length := h
      simp (disch := omega) only [AssertValue.matchesIn, sub_of_le, bind_some, map_some, Nat.sub_sub,
        hrange]
      rfl
    | versioned changeId hash =>
      have hneeds : U32_LEN + (U64_LEN + 1) ≤ bytes.length := h
      simp (disch := omega) only [AssertValue.matchesIn, sub_of_le, bind_some, map_some, Nat.sub_sub,
        Nat.add_assoc, hrange]
      rfl
  | _ => rfl

variable (xxh3) in
theorem matchesIn_of_lt {v : AssertValue} (h : bytes.length < v.needs) :
    v.matchesIn xxh3 .checked bytes = none ∧ v.matchesIn xxh3 .wrapping bytes = some false := by
  have hfrom {i : ℕ} (hi : bytes.length < i) : getFrom bytes i = none := if_neg (by omega)
  have hrange {i j : ℕ} (hij : j < i ∨ bytes.length < j) : getRange bytes i j = none := if_neg (by omega)
  have h4 : U32_LEN = 4 := rfl
  have h8 : U64_LEN = 8 := rfl
  cases v with
  | u32 v =>
    have hlt : bytes.length < U32_LEN := h
    rw [AssertValue.matchesIn, AssertValue.matchesIn, sub_checked_of_lt hlt, sub_wrapping_of_lt hlt, map_some,
      hfrom (by omega)]
    exact ⟨rfl, rfl⟩
  | u64 v =>
    have hlt : bytes.length < U64_LEN := h
    rw [AssertValue.matchesIn, AssertValue.matchesIn, sub_checked_of_lt hlt, sub_wrapping_of_lt hlt, map_some,
      hfrom (by omega)]
    exact ⟨rfl, rfl⟩
  | archive version =>
    cases version with
    | unversioned => exact absurd h (Nat.not_lt_zero _)
    | hashed hash =>
      have hlt : bytes.length < U32_LEN + 1 := h
      constructor
      · rw [AssertValue.matchesIn, checked_sub_sub, sub_checked_of_lt hlt]
        rfl
      · simp only [AssertValue.matchesIn, Build.sub, bind_some, map_some]
        rw [hrange (by split_ifs <;> omega)]
        rfl
    | versioned changeId hash =>
      have hlt : bytes.length < U32_LEN + U64_LEN + 1 := h
      constructor
      · rw [AssertValue.matchesIn, checked_sub_sub, checked_sub_sub, sub_checked_of_lt hlt]
        rfl
      · simp only [AssertValue.matchesIn, Build.sub, bind_some, map_some]
        rw [hrange (by split_ifs <;> omega)]
        rfl
  | _ => exact absurd h (Nat.not_lt_zero _)

theorem matchesIn_ne_none {v : AssertValue} :
    (∀ build, v.matchesIn xxh3 build bytes ≠ none) ↔ v.needs ≤ bytes.length := by
  constructor
  · intro h
    by_contra hlt
    exact h .checked (matchesIn_of_lt xxh3 (not_le.mp hlt)).1
  · intro h build hnone
    rw [matchesIn_of_le build h] at hnone
    cases hnone

theorem lastBytes_eq_be32 {n : ℕ} {hash : UInt32} :
    (lastBytes (U32_LEN + n) bytes).map (List.take U32_LEN) = some (be32 hash) ↔
      ∃ front tail, bytes = front ++ be32 hash ++ tail ∧ tail.length = n := by
  constructor
  · intro h
    obtain ⟨last, hlast, htake⟩ := map_eq_some_iff.mp h
    unfold lastBytes at hlast
    split_ifs at hlast with hle
    obtain rfl := some.inj hlast
    have hsplit : bytes.drop (bytes.length - (U32_LEN + n)) = be32 hash ++ bytes.drop (bytes.length - n) := by
      have hdrop : (bytes.drop (bytes.length - (U32_LEN + n))).drop U32_LEN = bytes.drop (bytes.length - n) := by
        rw [drop_drop]
        congr 1
        omega
      rw [← htake, ← hdrop, take_append_drop]
    refine ⟨bytes.take (bytes.length - (U32_LEN + n)), bytes.drop (bytes.length - n), ?_, ?_⟩
    · rw [append_assoc, ← hsplit, take_append_drop]
    · rw [length_drop]
      omega
  · rintro ⟨front, tail, rfl, rfl⟩
    have hlen : (front ++ be32 hash ++ tail).length - (U32_LEN + tail.length) = front.length := by
      rw [length_append, length_append, be32_length]
      omega
    unfold lastBytes
    rw [if_pos (by rw [length_append, length_append, be32_length]; omega), map_some, hlen,
      append_assoc, drop_left, take_left' (be32_length hash)]

theorem concat_tail {l : List UInt8} {n : ℕ} (h : l.length = n + 1) :
    ∃ tail marker, l = tail ++ [marker] ∧ tail.length = n := by
  rcases eq_nil_or_concat l with rfl | ⟨tail, marker, rfl⟩
  · cases h
  rw [length_concat] at h
  exact ⟨tail, marker, concat_eq_append, Nat.succ.inj h⟩

/-- An archive of the same kind with the same hash. -/
def Carries (xxh3 : List UInt8 → UInt64) (version : ArchiveVersion) (bytes : List UInt8) : Prop :=
  match version with
  | .versioned _ hash => ∃ marker contents changeId, Layout xxh3 marker contents (.versioned changeId hash) bytes
  | .hashed hash => ∃ marker contents, Layout xxh3 marker contents (.hashed hash) bytes
  | .unversioned => False

/-- A hash at the place where an archive of the kind has it. -/
structure Placed (version : ArchiveVersion) (bytes contents tail : List UInt8) (marker : UInt8) (hash : UInt32) :
    Prop where
  hash_eq : version.hash = some hash
  tail_length : U32_LEN + tail.length = version.trailer.length
  bytes_eq : bytes = contents ++ be32 hash ++ (tail ++ [marker])

/-- What stands at the place of the hash is the hash only in an archive of the kind. -/
def Fits (xxh3 : List UInt8 → UInt64) (version : ArchiveVersion) (bytes : List UInt8) : Prop :=
  ∀ contents tail marker hash, Placed version bytes contents tail marker hash →
    marker &&& MAGIC_MARKER ≠ 0 ∧ version.Marked marker ∧ hash = hash32 xxh3 contents

section

variable {version : ArchiveVersion} {contents tail contents' tail' : List UInt8} {marker marker' : UInt8}
  {hash hash' : UInt32}

theorem Placed.unique (h : Placed version bytes contents tail marker hash)
    (h' : Placed version bytes contents' tail' marker' hash') :
    contents = contents' ∧ marker = marker' ∧ hash = hash' := by
  have htail : (tail ++ [marker]).length = (tail' ++ [marker']).length := by
    have hlen := h.tail_length.trans h'.tail_length.symm
    rw [length_append, length_append, length_singleton, length_singleton]
    omega
  obtain ⟨hfront, hback⟩ := append_inj' (h.bytes_eq.symm.trans h'.bytes_eq) htail
  obtain ⟨rfl, rfl⟩ := append_be32_inj.mp hfront
  exact ⟨rfl, singleton_inj.mp (append_inj' hback rfl).2, rfl⟩

theorem matchesIn_archive {build : Build} : (AssertValue.archive version).matchesIn xxh3 build bytes = some true ↔
    ∃ contents tail marker hash, Placed version bytes contents tail marker hash := by
  have hback {n : ℕ} {hash : UInt32} (hhash : version.hash = some hash) (hn : U32_LEN + n = version.trailer.length) :
      (∃ front back, bytes = front ++ be32 hash ++ back ∧ back.length = n + 1) ↔
        ∃ contents tail marker hash, Placed version bytes contents tail marker hash := by
    constructor
    · rintro ⟨front, back, hbytes, hlen⟩
      obtain ⟨tail, marker, rfl, rfl⟩ := concat_tail hlen
      exact ⟨front, tail, marker, hash, hhash, hn, hbytes⟩
    · rintro ⟨contents, tail, marker, hash', hplaced⟩
      obtain rfl := some.inj (hhash.symm.trans hplaced.hash_eq)
      refine ⟨contents, tail ++ [marker], hplaced.bytes_eq, ?_⟩
      have hlen := hplaced.tail_length
      rw [length_append, length_singleton]
      omega
  have hmatches : (AssertValue.archive version).matchesIn xxh3 build bytes = some true ↔
      (AssertValue.archive version).matchesBytes xxh3 bytes = true := by
    rcases Nat.lt_or_ge bytes.length (AssertValue.archive version).needs with h | h
    · obtain ⟨hchecked, hwrapping⟩ := matchesIn_of_lt xxh3 h
      have hfalse : (AssertValue.archive version).matchesBytes xxh3 bytes = false := by
        have hlast {n : ℕ} (hn : bytes.length < n) : lastBytes n bytes = none := if_neg (not_le.mpr hn)
        cases version with
        | unversioned => rfl
        | hashed hash =>
          rw [AssertValue.matchesBytes, hlast (show bytes.length < U32_LEN + 1 from h)]
          rfl
        | versioned changeId hash =>
          rw [AssertValue.matchesBytes, hlast (show bytes.length < U32_LEN + U64_LEN + 1 from h)]
          rfl
      rw [hfalse]
      cases build with
      | checked => simp [hchecked]
      | wrapping => simp [hwrapping]
    · rw [matchesIn_of_le build h, some_inj]
  rw [hmatches]
  cases version with
  | unversioned =>
    refine iff_of_false (fun h => by cases h) ?_
    rintro ⟨_, _, _, _, h⟩
    cases h.hash_eq
  | hashed hash =>
    rw [← hback (n := 0) rfl (be32_length hash).symm, ← lastBytes_eq_be32]
    exact decide_eq_true_iff
  | versioned changeId hash =>
    rw [← hback (n := U64_LEN) rfl (by rw [ArchiveVersion.trailer, length_append, be32_length, be64_length]),
      ← lastBytes_eq_be32]
    exact decide_eq_true_iff

theorem carries_iff : Carries xxh3 version bytes ↔ ∃ contents tail marker hash,
    Placed version bytes contents tail marker hash ∧
      marker &&& MAGIC_MARKER ≠ 0 ∧ version.Marked marker ∧ hash = hash32 xxh3 contents := by
  cases version with
  | unversioned => exact iff_of_false id fun ⟨_, _, _, _, h, _⟩ => by cases h.hash_eq
  | hashed hash =>
    constructor
    · rintro ⟨marker, contents, h⟩
      refine ⟨contents, [], marker, hash, ⟨rfl, (be32_length hash).symm, h.bytes_eq⟩, h.magic, h.marked, ?_⟩
      exact h.hash_eq hash rfl
    · rintro ⟨contents, tail, marker, hash', hplaced, hmagic, hmarked, hhash⟩
      obtain rfl := some.inj hplaced.hash_eq
      have htail : tail = [] := by
        have hlen := hplaced.tail_length
        rw [ArchiveVersion.trailer, be32_length] at hlen
        exact length_eq_zero_iff.mp (by omega)
      subst htail
      refine ⟨marker, contents, hplaced.bytes_eq, hmagic, hmarked, ?_⟩
      rintro hash'' ⟨⟩
      exact hhash
  | versioned changeId hash =>
    constructor
    · rintro ⟨marker, contents, changeId', h⟩
      refine ⟨contents, be64 changeId', marker, hash, ⟨rfl, ?_, ?_⟩, h.magic, h.marked, h.hash_eq hash rfl⟩
      · rw [ArchiveVersion.trailer, length_append, be32_length, be64_length, be64_length]
      · rw [h.bytes_eq, ArchiveVersion.trailer]
        simp [append_assoc]
    · rintro ⟨contents, tail, marker, hash', hplaced, hmagic, hmarked, hhash⟩
      obtain rfl := some.inj hplaced.hash_eq
      have htail : tail.length = U64_LEN := by
        have hlen := hplaced.tail_length
        rw [ArchiveVersion.trailer, length_append, be32_length, be64_length] at hlen
        omega
      refine ⟨marker, contents, UInt64.ofNat (ofBeBytes tail), ?_, hmagic, hmarked, ?_⟩
      · rw [hplaced.bytes_eq, ArchiveVersion.trailer, be64_ofBeBytes htail]
        simp [append_assoc]
      · rintro hash'' ⟨⟩
        exact hhash

theorem accepts_iff {build : Build} :
    ((AssertValue.archive version).matchesIn xxh3 build bytes = some true ↔ Carries xxh3 version bytes) ↔
      Fits xxh3 version bytes := by
  rw [matchesIn_archive, carries_iff]
  constructor
  · rintro h contents tail marker hash hplaced
    obtain ⟨contents', tail', marker', hash', hplaced', hgood⟩ := h.1 ⟨contents, tail, marker, hash, hplaced⟩
    obtain ⟨rfl, rfl, rfl⟩ := hplaced.unique hplaced'
    exact hgood
  · intro h
    constructor
    · rintro ⟨contents, tail, marker, hash, hplaced⟩
      exact ⟨contents, tail, marker, hash, hplaced, h _ _ _ _ hplaced⟩
    · rintro ⟨contents, tail, marker, hash, hplaced, -⟩
      exact ⟨contents, tail, marker, hash, hplaced⟩

end

/-! ## Lengths of archives -/

/-- A marker with its magic promises a hash, or a version and a hash, and so many bytes are in front of it. -/
def Whole (bytes : List UInt8) : Prop :=
  ∀ front marker, bytes = front ++ [marker] → marker &&& MAGIC_MARKER ≠ 0 →
    (marker &&& VERSIONED ≠ 0 → U64_LEN + U32_LEN ≤ front.length) ∧
      (marker &&& VERSIONED = 0 → marker &&& HASHED ≠ 0 → U32_LEN ≤ front.length)

theorem splitEnd_checked_of_lt {n : ℕ} (h : bytes.length < n) : splitEnd .checked bytes n = none := by
  rw [splitEnd, sub_checked_of_lt h]
  rfl

theorem splitEnd_of_le {n : ℕ} (build : Build) (h : n ≤ bytes.length) :
    splitEnd build bytes n = some (some (bytes.take (bytes.length - n), bytes.drop (bytes.length - n))) := by
  rw [splitEnd, sub_of_le build h, map_some, splitAtChecked, if_pos (Nat.sub_le _ _)]

theorem checkHash_ne_none : checkHash xxh3 .checked bytes ≠ none ↔ U32_LEN ≤ bytes.length := by
  unfold checkHash
  rcases Nat.lt_or_ge bytes.length U32_LEN with h | h
  · rw [splitEnd_checked_of_lt h]
    exact iff_of_false (fun hne => hne rfl) (not_le.mpr h)
  · rw [splitEnd_of_le .checked h]
    exact iff_of_true (fun h => by cases h) h

theorem validate_ne_none : validateMarkerAndContents xxh3 .checked bytes ≠ none ↔ Whole bytes := by
  rcases eq_nil_or_concat bytes with rfl | ⟨front, marker, rfl⟩
  · exact iff_of_true (fun h => by cases h) fun front marker h => absurd h (by simp)
  rw [concat_eq_append]
  have hwhole : Whole (front ++ [marker]) ↔ (marker &&& MAGIC_MARKER ≠ 0 →
      (marker &&& VERSIONED ≠ 0 → U64_LEN + U32_LEN ≤ front.length) ∧
        (marker &&& VERSIONED = 0 → marker &&& HASHED ≠ 0 → U32_LEN ≤ front.length)) := by
    constructor
    · exact fun h => h front marker rfl
    · intro h front' marker' hbytes
      obtain ⟨rfl, hmarker⟩ := append_inj' hbytes rfl
      obtain rfl := singleton_inj.mp hmarker
      exact h
  rw [hwhole]
  by_cases hmagic : marker &&& MAGIC_MARKER = 0
  · have hvalidate : validateMarkerAndContents xxh3 .checked (front ++ [marker]) = some none := by
      unfold validateMarkerAndContents
      rw [getLast?_concat]
      exact if_pos hmagic
    rw [hvalidate]
    exact iff_of_true (fun h => by cases h) fun h => absurd hmagic h
  rw [validate_concat hmagic, imp_iff_right hmagic]
  by_cases hversioned : marker &&& VERSIONED = 0
  · rw [if_neg (not_not.mpr hversioned)]
    by_cases hhashed : marker &&& HASHED = 0
    · rw [if_neg (not_not.mpr hhashed)]
      exact iff_of_true (fun h => by cases h) ⟨fun h => absurd hversioned h, fun _ h => absurd hhashed h⟩
    · rw [if_pos hhashed, ne_eq, map_eq_none_iff, ← ne_eq, checkHash_ne_none]
      exact ⟨fun h => ⟨fun hne => absurd hversioned hne, fun _ _ => h⟩, fun h => h.2 hversioned hhashed⟩
  · rw [if_pos hversioned]
    have hrest : (U64_LEN + U32_LEN ≤ front.length) ↔ (marker &&& VERSIONED ≠ 0 → U64_LEN + U32_LEN ≤ front.length) ∧
        (marker &&& VERSIONED = 0 → marker &&& HASHED ≠ 0 → U32_LEN ≤ front.length) :=
      ⟨fun h => ⟨fun _ => h, fun h' => absurd h' hversioned⟩, fun h => h.1 hversioned⟩
    rw [← hrest]
    rcases Nat.lt_or_ge front.length U64_LEN with h | h
    · rw [splitEnd_checked_of_lt h]
      exact iff_of_false (fun hne => hne rfl) (by omega)
    · rw [splitEnd_of_le .checked h, bind_some]
      simp only [ne_eq, map_eq_none_iff]
      rw [← ne_eq, checkHash_ne_none, length_take]
      omega

theorem validate_wrapping : validateMarkerAndContents xxh3 .wrapping bytes ≠ none := by
  rcases eq_nil_or_concat bytes with rfl | ⟨front, marker, rfl⟩
  · exact fun h => by cases h
  rw [concat_eq_append]
  by_cases hmagic : marker &&& MAGIC_MARKER = 0
  · unfold validateMarkerAndContents
    simp [hmagic]
  rw [validate_concat hmagic]
  split_ifs with hversioned hhashed
  · obtain ⟨split, hsplit⟩ : ∃ split, splitEnd .wrapping front U64_LEN = some split := ⟨_, rfl⟩
    rw [hsplit]
    rcases split with _ | ⟨contents, tail⟩
    · exact fun h => by cases h
    · simp [show checkHash xxh3 .wrapping contents = some _ from rfl]
  · simp [show checkHash xxh3 .wrapping front = some _ from rfl]
  · exact fun h => by cases h

variable (xxh3 lz4) in
/-- No length is exceeded, and the assertion of an archive tells the later bytes that are like it from all others. -/
structure Guarded (bytes : List UInt8) (v : AssertValue) (later : List UInt8) : Prop where
  in_range : ∀ build isAligned, deserialize xxh3 lz4 build bytes ≠ none ∧
    deserializeOwned xxh3 lz4 build isAligned bytes ≠ none ∧ v.matchesIn xxh3 build bytes ≠ none
  tells : ∀ build isAligned a hash, deserialize xxh3 lz4 build bytes = some (.ok a) ∨
      deserializeOwned xxh3 lz4 build isAligned bytes = some (.ok a) → a.version.hash = some hash →
    ∀ build', (AssertValue.archive a.version).matchesIn xxh3 build' later = some true ↔ Carries xxh3 a.version later

/-- **Every length is checked, and a stale read noticed**, if the bytes are as long as their marker and the assertion
say, and the later bytes have the hash only where it is that of an archive of the kind. -/
theorem guarded_iff (xxh3 : List UInt8 → UInt64) (lz4 : Lz4) (bytes : List UInt8) (v : AssertValue)
    (later : List UInt8) : Guarded xxh3 lz4 bytes v later ↔
      Whole bytes ∧ v.needs ≤ bytes.length ∧
        ∀ payload version, Stored xxh3 lz4 bytes payload version → Fits xxh3 version later := by
  have hstored {build : Build} {isAligned : Bool} {a : Archive} (h : deserialize xxh3 lz4 build bytes = some (.ok a) ∨
      deserializeOwned xxh3 lz4 build isAligned bytes = some (.ok a)) : Stored xxh3 lz4 bytes a.asBytes a.version := by
    rcases h with h | h
    · exact deserialize_iff.1 ⟨a, h, rfl, rfl⟩
    · exact deserialize_iff.1 (deserializeOwned_iff.1 ⟨a, h, rfl, rfl⟩)
  constructor
  · rintro ⟨hrange, htells⟩
    have hvalidate : validateMarkerAndContents xxh3 .checked bytes ≠ none := by
      intro h
      apply (hrange .checked true).1
      rw [deserialize, h]
      rfl
    refine ⟨validate_ne_none.1 hvalidate, matchesIn_ne_none.1 fun build => (hrange build true).2.2, ?_⟩
    intro payload version hpayload contents tail marker hash hplaced
    obtain ⟨a, ha, -, rfl⟩ : ∃ a, deserialize xxh3 lz4 .checked bytes = _ ∧ _ ∧ _ := deserialize_iff.2 hpayload
    exact accepts_iff.1 (htells .checked true a hash (.inl ha) hplaced.hash_eq .checked) _ _ _ _ hplaced
  · rintro ⟨hwhole, hneeds, hfits⟩
    refine ⟨fun build isAligned => ?_, fun build isAligned a hash ha _ build' => ?_⟩
    · have hvalidate : validateMarkerAndContents xxh3 build bytes ≠ none := by
        cases build with
        | checked => exact validate_ne_none.2 hwhole
        | wrapping => exact validate_wrapping
      refine ⟨fun h => hvalidate (map_eq_none_iff.mp h), fun h => hvalidate (map_eq_none_iff.mp h), ?_⟩
      exact matchesIn_ne_none.2 hneeds build
    · exact accepts_iff.2 (hfits _ _ (hstored ha))

end

/-- One byte that says there is a version panics; nothing is too short for a number; and five zeros pass for an archive
with the hash 0. -/
theorem not_guarded :
    ¬ Guarded (fun _ => 0) runs [0xC0] .some [] ∧ ¬ Guarded (fun _ => 0) runs [] (.u32 0) [] ∧
      ¬ Guarded (fun _ => 0) runs [0, 0, 0, 0, 0xA0] .some [0, 0, 0, 0, 0] := by
  refine ⟨fun h => ?_, fun h => ?_, fun h => ?_⟩
  · exact (h.in_range .checked true).1 rfl
  · exact (h.in_range .checked true).2.2 rfl
  · have hread : deserialize (fun _ => 0) runs .checked [0, 0, 0, 0, 0xA0] = some (.ok ⟨.aligned [], .hashed 0⟩) := rfl
    have haccepts : (AssertValue.archive (.hashed 0)).matchesIn (fun _ => 0) .checked [0, 0, 0, 0, 0] = some true := rfl
    obtain ⟨marker, contents, hlayout⟩ := (h.tells .checked true _ 0 (.inl hread) rfl .checked).1 haccepts
    have hbytes : [0, 0, 0, 0] ++ [0] = (contents ++ be32 0) ++ [marker] := hlayout.bytes_eq
    obtain rfl := singleton_inj.mp (append_inj' hbytes rfl).2
    exact hlayout.magic rfl

end MailServer.Store.Write
