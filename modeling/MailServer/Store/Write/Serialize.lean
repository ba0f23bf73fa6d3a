import MailServer.Store.Write.Assert

/-!
# Archives (`store/src/write/serialize.rs`)

An archive is a payload with a trailer behind it: the hash, the version, and a marker that says which of the two there
are and whether the payload is compressed.

* `Archiver.serialize` and `versionedArchive`: what is stored.
* `deserialize` and `deserializeOwned`: the two decoders, with the subtractions of lengths as a build compiles them.
* `Archive.intoInner`: an archive back in bytes.
* `Layout`: what the trailer has to be; `validate_iff`: the decoders accept that and nothing else.
-/

namespace MailServer.Store.Write

open MailServer.Lib List Option

/-! ## Lengths -/

/-- How a subtraction of lengths is compiled: with a check that panics, or so that it wraps. -/
inductive Build where
  | checked
  | wrapping

def Build.sub : Build → ℕ → ℕ → Option ℕ
  | .checked, a, b => if b ≤ a then some (a - b) else none
  | .wrapping, a, b => some (if b ≤ a then a - b else a + 0x10000000000000000 - b)

/-- `split_at_checked` -/
def splitAtChecked (l : List UInt8) (mid : ℕ) : Option (List UInt8 × List UInt8) :=
  if mid ≤ l.length then some (l.take mid, l.drop mid) else none

/-- `contents.split_at_checked(contents.len() - n)`, where the outer `none` is a panic. -/
def splitEnd (build : Build) (l : List UInt8) (n : ℕ) : Option (Option (List UInt8 × List UInt8)) :=
  (build.sub l.length n).map (splitAtChecked l)

/-! ## Markers -/

def MAGIC_MARKER : UInt8 := (1 : UInt8) <<< 7
def VERSIONED : UInt8 := (1 : UInt8) <<< 6
def HASHED : UInt8 := (1 : UInt8) <<< 5
def LZ4_COMPRESSED : UInt8 := (1 : UInt8) <<< 4

def COMPRESS_WATERMARK : ℕ := 8192

/-- The version that a marker announces. -/
def ArchiveVersion.Marked (marker : UInt8) : ArchiveVersion → Prop
  | .versioned _ _ => marker &&& VERSIONED ≠ 0
  | .hashed _ => marker &&& VERSIONED = 0 ∧ marker &&& HASHED ≠ 0
  | .unversioned => marker &&& VERSIONED = 0 ∧ marker &&& HASHED = 0

def ArchiveVersion.hash : ArchiveVersion → Option UInt32
  | .versioned _ hash => some hash
  | .hashed hash => some hash
  | .unversioned => none

/-! ## The decoders -/

/-- `AlignedBytes` -/
inductive AlignedBytes where
  | aligned (bytes : List UInt8)
  | vec (bytes : List UInt8)

structure Archive where
  inner : AlignedBytes
  version : ArchiveVersion

def Archive.asBytes (a : Archive) : List UInt8 :=
  match a.inner with
  | .vec bytes => bytes
  | .aligned bytes => bytes

/-- The block format of `lz4_flex`: the block of some bytes, and what a block leaves in a buffer of a given size. -/
structure Lz4 where
  compressInto : List UInt8 → List UInt8
  decompressInto : List UInt8 → ℕ → Option (List UInt8)

/-- `StoreEvent::DataCorruption` ("Archive integrity compromised") and `StoreEvent::DecompressError`. -/
inductive ArchiveError where
  | dataCorruption
  | decompressError
  deriving DecidableEq

section

variable (xxh3 : List UInt8 → UInt64) (lz4 : Lz4)

/-- `xxh3_64(contents) as u32` -/
def hash32 (contents : List UInt8) : UInt32 := (xxh3 contents).toUInt32

/-- What has its hash behind it. -/
def checkHash (build : Build) (contents : List UInt8) : Option (Option (List UInt8 × UInt32)) :=
  (splitEnd build contents U32_LEN).map fun split =>
    split.bind fun (contents, archiveHash) =>
      if be32 (hash32 xxh3 contents) = archiveHash then some (contents, hash32 xxh3 contents) else none

/-- The outer `none` is a panic. -/
def validateMarkerAndContents (build : Build) (bytes : List UInt8) :
    Option (Option (Bool × List UInt8 × ArchiveVersion)) :=
  match bytes.getLast? with
  | none => some none
  | some marker =>
    if marker &&& MAGIC_MARKER = 0 then some none
    else if marker &&& VERSIONED ≠ 0 then
      (splitEnd build bytes.dropLast U64_LEN).bind fun
        | none => some none
        | some (contents, changeId) =>
          (checkHash xxh3 build contents).map fun checked =>
            checked.map fun (contents, hash) =>
              (decide (marker &&& LZ4_COMPRESSED = 0), contents, .versioned (UInt64.ofNat (ofBeBytes changeId)) hash)
    else if marker &&& HASHED ≠ 0 then
      (checkHash xxh3 build bytes.dropLast).map fun checked =>
        checked.map fun (contents, hash) => (decide (marker &&& LZ4_COMPRESSED = 0), contents, .hashed hash)
    else some (some (decide (marker &&& LZ4_COMPRESSED = 0), bytes.dropLast, .unversioned))

/-- `lz4_flex::block::uncompressed_size` -/
def uncompressedSize (input : List UInt8) : Option (ℕ × List UInt8) :=
  if U32_LEN ≤ input.length then some (ofBeBytes (input.take U32_LEN).reverse, input.drop U32_LEN) else none

def alignedLz4Deflate (archive : List UInt8) : Except ArchiveError AlignedBytes :=
  match (uncompressedSize archive).bind fun (size, archive) => lz4.decompressInto archive size with
  | some bytes => .ok (.aligned bytes)
  | none => .error .decompressError

def deserialize (build : Build) (bytes : List UInt8) : Option (Except ArchiveError Archive) :=
  (validateMarkerAndContents xxh3 build bytes).map fun
    | none => .error .dataCorruption
    | some (isUncompressed, contents, version) =>
      if isUncompressed then .ok ⟨.aligned contents, version⟩
      else (alignedLz4Deflate lz4 contents).map fun inner => ⟨inner, version⟩

/-- `isAligned`: the vector happens to lie at an aligned address. -/
def deserializeOwned (build : Build) (isAligned : Bool) (bytes : List UInt8) : Option (Except ArchiveError Archive) :=
  (validateMarkerAndContents xxh3 build bytes).map fun
    | none => .error .dataCorruption
    | some (isUncompressed, contents, version) =>
      if isUncompressed then
        let bytes := bytes.take contents.length
        if isAligned then .ok ⟨.vec bytes, version⟩ else .ok ⟨.aligned bytes, version⟩
      else (alignedLz4Deflate lz4 contents).map fun inner => ⟨inner, version⟩

end

/-! ## The encoders -/

/-- A value, as the bytes that `rkyv` makes of it, and the flags of its archive. -/
structure Archiver where
  inner : List UInt8
  flags : UInt8

namespace Archiver

def new (inner : List UInt8) : Archiver := ⟨inner, MAGIC_MARKER ||| HASHED⟩

def withVersion (a : Archiver) : Archiver := { a with flags := a.flags ||| VERSIONED }

def untrusted (a : Archiver) : Archiver := { a with flags := MAGIC_MARKER }

variable (xxh3 : List UInt8 → UInt64) (lz4 : Lz4)

def versionOffset (a : Archiver) : ℕ := if a.flags &&& VERSIONED ≠ 0 then U64_LEN else 0

def serializePlain (a : Archiver) : List UInt8 :=
  a.inner ++ (if a.flags &&& HASHED ≠ 0 then be32 (hash32 xxh3 a.inner) else []) ++
    (if a.versionOffset ≠ 0 then be64 0 else []) ++ [a.flags]

/-- The bytes behind what is written are those that the buffer was filled with. -/
def serialize (a : Archiver) : List UInt8 :=
  if COMPRESS_WATERMARK < a.inner.length then
    let compressed := lz4.compressInto a.inner
    if compressed.length < a.inner.length then
      let block := (be32 (UInt32.ofNat a.inner.length)).reverse ++ compressed
      if a.flags &&& HASHED ≠ 0 then
        block ++ be32 (hash32 xxh3 block) ++ List.replicate (a.versionOffset + 1) (a.flags ||| LZ4_COMPRESSED)
      else block ++ [a.flags ||| LZ4_COMPRESSED]
    else a.serializePlain xxh3
  else a.serializePlain xxh3

/-- Where the version goes, and the archive. -/
def serializeVersioned (a : Archiver) : ℕ × List UInt8 :=
  let bytes := a.withVersion.serialize xxh3 lz4
  (bytes.length - U64_LEN - 1, bytes)

end Archiver

/-- The function that a batch sets an archive with: the change id replaces what stands for it. -/
def versionedArchive (offset : ℕ) (archive : List UInt8) (changeId : UInt64) : List UInt8 :=
  archive.take offset ++ be64 changeId ++ archive.getLast?.toList

def Archive.intoInner (a : Archive) : List UInt8 :=
  match a.version with
  | .versioned changeId hash => a.asBytes ++ be64 changeId ++ be32 hash ++ [MAGIC_MARKER ||| VERSIONED ||| HASHED]
  | .hashed hash => a.asBytes ++ be32 hash ++ [MAGIC_MARKER ||| HASHED]
  | .unversioned => a.asBytes ++ [MAGIC_MARKER]

/-! ## The trailer -/

def ArchiveVersion.trailer : ArchiveVersion → List UInt8
  | .versioned changeId hash => be32 hash ++ be64 changeId
  | .hashed hash => be32 hash
  | .unversioned => []

section

variable {xxh3 : List UInt8 → UInt64} {build : Build} {bytes contents front tail : List UInt8} {n : ℕ}
  {marker : UInt8} {version : ArchiveVersion}

/-- Contents, a trailer with their hash, and the marker that goes with it. -/
structure Layout (xxh3 : List UInt8 → UInt64) (marker : UInt8) (contents : List UInt8) (version : ArchiveVersion)
    (bytes : List UInt8) : Prop where
  bytes_eq : bytes = contents ++ version.trailer ++ [marker]
  magic : marker &&& MAGIC_MARKER ≠ 0
  marked : version.Marked marker
  hash_eq : ∀ hash, version.hash = some hash → hash = hash32 xxh3 contents

theorem splitEnd_eq_some (hn : n < 0x10000000000000000) :
    splitEnd build bytes n = some (some (front, tail)) ↔ bytes = front ++ tail ∧ tail.length = n := by
  have hshort (h : ¬ n ≤ bytes.length) : ¬ (bytes = front ++ tail ∧ tail.length = n) := by
    rintro ⟨rfl, hlen⟩
    rw [length_append] at h
    omega
  have hlong (h : n ≤ bytes.length) :
      splitAtChecked bytes (bytes.length - n) = some (front, tail) ↔ bytes = front ++ tail ∧ tail.length = n := by
    rw [splitAtChecked, if_pos (by omega), some_inj, Prod.mk.injEq]
    constructor
    · rintro ⟨rfl, rfl⟩
      refine ⟨(take_append_drop _ _).symm, ?_⟩
      rw [length_drop]
      omega
    · rintro ⟨rfl, rfl⟩
      rw [length_append, Nat.add_sub_cancel]
      exact ⟨take_left, drop_left⟩
  unfold splitEnd
  by_cases h : n ≤ bytes.length
  · cases build with
    | checked => rw [Build.sub, if_pos h, map_some, some_inj, hlong h]
    | wrapping => rw [Build.sub, if_pos h, map_some, some_inj, hlong h]
  · refine iff_of_false ?_ (hshort h)
    cases build with
    | checked =>
      rw [Build.sub, if_neg h]
      exact fun h => by cases h
    | wrapping =>
      -- The difference has wrapped to a place behind the end.
      rw [Build.sub, if_neg h, map_some, splitAtChecked, if_neg (by omega)]
      exact fun h => by cases h

@[simp] theorem be32_length (v : UInt32) : (be32 v).length = U32_LEN := beBytes_length _ _

@[simp] theorem be64_length (v : UInt64) : (be64 v).length = U64_LEN := beBytes_length _ _

theorem checkHash_eq_some {hash : UInt32} : checkHash xxh3 build bytes = some (some (contents, hash)) ↔
    bytes = contents ++ be32 hash ∧ hash = hash32 xxh3 contents := by
  unfold checkHash
  rw [map_eq_some_iff]
  constructor
  · rintro ⟨split, hsplit, hbind⟩
    obtain ⟨⟨front, tail⟩, rfl, hif⟩ := bind_eq_some_iff.mp hbind
    obtain ⟨rfl, -⟩ := (splitEnd_eq_some (by decide)).1 hsplit
    simp only at hif
    split_ifs at hif with htail
    obtain ⟨rfl, rfl⟩ := Prod.mk.inj (some.inj hif)
    exact ⟨by rw [htail], rfl⟩
  · rintro ⟨rfl, rfl⟩
    refine ⟨_, (splitEnd_eq_some (by decide)).2 ⟨rfl, be32_length _⟩, ?_⟩
    exact if_pos rfl

theorem validate_concat (hmagic : marker &&& MAGIC_MARKER ≠ 0) :
    validateMarkerAndContents xxh3 build (front ++ [marker]) =
      if marker &&& VERSIONED ≠ 0 then
        (splitEnd build front U64_LEN).bind fun
          | none => some none
          | some (contents, changeId) =>
            (checkHash xxh3 build contents).map fun checked =>
              checked.map fun (contents, hash) =>
                (decide (marker &&& LZ4_COMPRESSED = 0), contents, .versioned (UInt64.ofNat (ofBeBytes changeId)) hash)
      else if marker &&& HASHED ≠ 0 then
        (checkHash xxh3 build front).map fun checked =>
          checked.map fun (contents, hash) => (decide (marker &&& LZ4_COMPRESSED = 0), contents, .hashed hash)
      else some (some (decide (marker &&& LZ4_COMPRESSED = 0), front, .unversioned)) := by
  unfold validateMarkerAndContents
  rw [getLast?_concat]
  simp only [dropLast_concat]
  rw [if_neg hmagic]

theorem be64_ofBeBytes (h : tail.length = U64_LEN) : be64 (UInt64.ofNat (ofBeBytes tail)) = tail := by
  have hlt : ofBeBytes tail < 256 ^ U64_LEN := h ▸ ofBeBytes_lt tail
  rw [be64, UInt64.toNat_ofNat_of_lt' hlt, ← h, beBytes_ofBeBytes]

/-- **The decoders accept what is laid out as an archive**, and nothing else. -/
theorem validate_iff {isUncompressed : Bool} :
    validateMarkerAndContents xxh3 build bytes = some (some (isUncompressed, contents, version)) ↔
      ∃ marker, Layout xxh3 marker contents version bytes ∧ isUncompressed = decide (marker &&& LZ4_COMPRESSED = 0) := by
  constructor
  · intro h
    rcases eq_nil_or_concat bytes with rfl | ⟨front, marker, rfl⟩
    · cases h
    rw [concat_eq_append] at h ⊢
    by_cases hmagic : marker &&& MAGIC_MARKER = 0
    · unfold validateMarkerAndContents at h
      rw [getLast?_concat] at h
      simp only [if_pos hmagic] at h
      cases h
    rw [validate_concat hmagic] at h
    split_ifs at h with hversioned hhashed
    · obtain ⟨split, hsplit, hbind⟩ := bind_eq_some_iff.mp h
      rcases split with _ | ⟨front', tail⟩
      · cases hbind
      obtain ⟨hfront, htail⟩ := (splitEnd_eq_some (by decide)).1 hsplit
      obtain ⟨checked, hchecked, hmap⟩ := map_eq_some_iff.mp hbind
      obtain ⟨⟨contents', hash⟩, rfl, heq⟩ := map_eq_some_iff.mp hmap
      obtain ⟨hcontents, hhash⟩ := checkHash_eq_some.1 hchecked
      obtain ⟨hflag, hrest⟩ := Prod.mk.inj heq
      obtain ⟨rfl, rfl⟩ := Prod.mk.inj hrest
      subst hfront hcontents hflag
      refine ⟨marker, ⟨?_, hmagic, hversioned, ?_⟩, rfl⟩
      · rw [ArchiveVersion.trailer, be64_ofBeBytes htail, append_assoc contents']
      · intro hash' h
        exact (some.inj h).symm.trans hhash
    · obtain ⟨checked, hchecked, hmap⟩ := map_eq_some_iff.mp h
      obtain ⟨⟨contents', hash⟩, rfl, heq⟩ := map_eq_some_iff.mp hmap
      obtain ⟨hcontents, hhash⟩ := checkHash_eq_some.1 hchecked
      obtain ⟨hflag, hrest⟩ := Prod.mk.inj heq
      obtain ⟨rfl, rfl⟩ := Prod.mk.inj hrest
      subst hcontents hflag
      refine ⟨marker, ⟨rfl, hmagic, ⟨not_not.mp hversioned, hhashed⟩, ?_⟩, rfl⟩
      intro hash' h
      exact (some.inj h).symm.trans hhash
    · obtain ⟨hflag, hrest⟩ := Prod.mk.inj (some.inj (some.inj h))
      obtain ⟨rfl, rfl⟩ := Prod.mk.inj hrest
      subst hflag
      refine ⟨marker, ⟨?_, hmagic, ⟨not_not.mp hversioned, not_not.mp hhashed⟩, ?_⟩, rfl⟩
      · rw [ArchiveVersion.trailer, append_nil]
      · intro hash' h
        cases h
  · rintro ⟨marker, ⟨rfl, hmagic, hmarked, hhash⟩, rfl⟩
    rw [validate_concat hmagic]
    cases version with
    | versioned changeId hash =>
      have hsplit : splitEnd build (contents ++ (be32 hash ++ be64 changeId)) U64_LEN =
          some (some (contents ++ be32 hash, be64 changeId)) :=
        (splitEnd_eq_some (by decide)).2 ⟨(append_assoc _ _ _).symm, be64_length _⟩
      have hversioned : marker &&& VERSIONED ≠ 0 := hmarked
      rw [if_pos hversioned, ArchiveVersion.trailer, hsplit, bind_some]
      simp [checkHash_eq_some.2 ⟨rfl, hhash hash rfl⟩, ofBeBytes_be64]
    | hashed hash =>
      rw [if_neg (not_not.mpr hmarked.1), if_pos hmarked.2, ArchiveVersion.trailer,
        checkHash_eq_some.2 ⟨rfl, hhash hash rfl⟩]
      rfl
    | unversioned =>
      rw [if_neg (not_not.mpr hmarked.1), if_neg (not_not.mpr hmarked.2), ArchiveVersion.trailer, append_nil]

/-- What the contents stand for. -/
def Unpacks (lz4 : Lz4) (marker : UInt8) (contents payload : List UInt8) : Prop :=
  if marker &&& LZ4_COMPRESSED = 0 then payload = contents
  else ((uncompressedSize contents).bind fun (size, block) => lz4.decompressInto block size) = some payload

/-- An archive in bytes. -/
def Stored (xxh3 : List UInt8 → UInt64) (lz4 : Lz4) (bytes payload : List UInt8) (version : ArchiveVersion) : Prop :=
  ∃ marker contents, Layout xxh3 marker contents version bytes ∧ Unpacks lz4 marker contents payload

/-- Both decoders read the payload and the version. -/
def Reads (xxh3 : List UInt8 → UInt64) (lz4 : Lz4) (bytes payload : List UInt8) (version : ArchiveVersion) : Prop :=
  ∀ build isAligned,
    (∃ a, deserialize xxh3 lz4 build bytes = some (.ok a) ∧ a.asBytes = payload ∧ a.version = version) ∧
      ∃ a, deserializeOwned xxh3 lz4 build isAligned bytes = some (.ok a) ∧ a.asBytes = payload ∧ a.version = version

variable {lz4 : Lz4} {payload : List UInt8}

theorem alignedLz4Deflate_eq_ok {inner : AlignedBytes} : alignedLz4Deflate lz4 contents = .ok inner ↔
    ∃ payload, ((uncompressedSize contents).bind fun (size, block) => lz4.decompressInto block size) = some payload ∧
      inner = .aligned payload := by
  unfold alignedLz4Deflate
  cases (uncompressedSize contents).bind fun (size, block) => lz4.decompressInto block size with
  | none => exact iff_of_false (fun h => by cases h) (fun ⟨_, h, _⟩ => by cases h)
  | some payload =>
    constructor
    · intro h
      exact ⟨payload, rfl, (Except.ok.inj h).symm⟩
    · rintro ⟨_, hsome, rfl⟩
      rw [some.inj hsome]

theorem deserialize_iff : (∃ a, deserialize xxh3 lz4 build bytes = some (.ok a) ∧ a.asBytes = payload ∧
    a.version = version) ↔ Stored xxh3 lz4 bytes payload version := by
  constructor
  · rintro ⟨a, ha, rfl, rfl⟩
    obtain ⟨validated, hvalidate, hread⟩ := map_eq_some_iff.mp ha
    rcases validated with _ | ⟨isUncompressed, contents, version⟩
    · cases hread
    obtain ⟨marker, hlayout, rfl⟩ := validate_iff.1 hvalidate
    by_cases hmarker : marker &&& LZ4_COMPRESSED = 0
    · simp only [hmarker] at hread
      obtain rfl := Except.ok.inj hread
      exact ⟨marker, contents, hlayout, (if_pos hmarker).mpr rfl⟩
    · simp only [hmarker] at hread
      cases hdeflate : alignedLz4Deflate lz4 contents with
      | error e =>
        rw [hdeflate] at hread
        cases hread
      | ok inner =>
        rw [hdeflate] at hread
        obtain rfl := Except.ok.inj hread
        obtain ⟨payload, hpayload, rfl⟩ := alignedLz4Deflate_eq_ok.1 hdeflate
        exact ⟨marker, contents, hlayout, (if_neg hmarker).mpr hpayload⟩
  · rintro ⟨marker, contents, hlayout, hunpacks⟩
    have hvalidate : validateMarkerAndContents xxh3 build bytes = _ := validate_iff.2 ⟨marker, hlayout, rfl⟩
    unfold deserialize
    rw [hvalidate]
    by_cases hmarker : marker &&& LZ4_COMPRESSED = 0
    · obtain rfl := (if_pos hmarker).mp hunpacks
      simp only [hmarker]
      exact ⟨_, rfl, rfl, rfl⟩
    · have hdeflate := alignedLz4Deflate_eq_ok.2 ⟨payload, (if_neg hmarker).mp hunpacks, rfl⟩
      simp only [hmarker, map_some, hdeflate]
      exact ⟨_, rfl, rfl, rfl⟩

theorem deserializeOwned_iff {isAligned : Bool} : (∃ a, deserializeOwned xxh3 lz4 build isAligned bytes = some (.ok a) ∧
    a.asBytes = payload ∧ a.version = version) ↔
      ∃ a, deserialize xxh3 lz4 build bytes = some (.ok a) ∧ a.asBytes = payload ∧ a.version = version := by
  unfold deserializeOwned deserialize
  cases hvalidate : validateMarkerAndContents xxh3 build bytes with
  | none => exact Iff.rfl
  | some validated =>
    rcases validated with _ | ⟨isUncompressed, contents, version'⟩
    · exact Iff.rfl
    cases isUncompressed with
    | false => exact Iff.rfl
    | true =>
      obtain ⟨marker, hlayout, -⟩ := validate_iff.1 hvalidate
      have htake : bytes.take contents.length = contents := by
        rw [hlayout.bytes_eq, append_assoc, take_left]
      simp only [map_some, htake]
      cases isAligned with
      | false => exact Iff.rfl
      | true =>
        constructor
        · rintro ⟨a, ha, hbytes, hversion⟩
          obtain rfl := Except.ok.inj (some.inj ha)
          exact ⟨_, rfl, hbytes, hversion⟩
        · rintro ⟨a, ha, hbytes, hversion⟩
          obtain rfl := Except.ok.inj (some.inj ha)
          exact ⟨_, rfl, hbytes, hversion⟩

theorem reads_iff : Reads xxh3 lz4 bytes payload version ↔ Stored xxh3 lz4 bytes payload version := by
  constructor
  · intro h
    exact deserialize_iff.1 (h .checked true).1
  · intro h build isAligned
    have hread : ∃ a, deserialize xxh3 lz4 build bytes = _ ∧ _ ∧ _ := deserialize_iff.2 h
    exact ⟨hread, deserializeOwned_iff.2 hread⟩

theorem Layout.unique {marker' : UInt8} {contents' : List UInt8} {version' : ArchiveVersion}
    (h : Layout xxh3 marker contents version bytes) (h' : Layout xxh3 marker' contents' version' bytes) :
    marker = marker' ∧ contents = contents' ∧ version = version' := by
  have hmarker : marker = marker' := by
    have hlast := h.bytes_eq.symm.trans h'.bytes_eq
    exact singleton_inj.mp (append_inj' hlast rfl).2
  have hv : validateMarkerAndContents xxh3 .wrapping bytes = _ := validate_iff.2 ⟨marker, h, rfl⟩
  have hv' : validateMarkerAndContents xxh3 .wrapping bytes = _ := validate_iff.2 ⟨marker', h', rfl⟩
  obtain ⟨-, hrest⟩ := Prod.mk.inj (some.inj (some.inj (hv.symm.trans hv')))
  exact ⟨hmarker, Prod.mk.inj hrest⟩

end

end MailServer.Store.Write
