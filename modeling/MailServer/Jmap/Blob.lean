import MailServer.Lib.Base64
import MailServer.Store.Dispatch.Blob

/-!
# Ranges of blobs (`jmap/src/blob/get.rs`, `jmap/src/blob/upload.rs`, `jmap/src/blob/download.rs`)

`Blob/get` gives a range of a blob, and `Blob/upload` puts ranges of blobs together to another one.  Both say by the
greatest number that a range has no end.

* `blobObject`: the object of a blob.  `uploadData`: the bytes of an upload.
* `Readable`, `Joined`: the ranges that each of them gets right.
-/

namespace MailServer.Jmap.Blob

open MailServer.Lib MailServer.Types MailServer.Store MailServer.Store.Write List

/-! ## Downloads -/

inductive BlobClass where
  | reserved (accountId : UInt32) (expires : UInt64)
  | linked (accountId : UInt32) (collection : UInt8) (documentId : UInt32)

structure BlobId where
  hash : BlobHash
  «class» : BlobClass
  part : Option BlobSection

/-- What the metadata of a message says about the blob it came with. -/
structure MessageParts where
  blobBodyOffset : ℕ
  rootOffsetBody : ℕ
  rawHeaders : List UInt8

/-- The blobs, the metadata of the messages of an account, and who may read what. -/
structure BlobServer where
  store : BlobStore
  metadata : UInt32 → UInt32 → Option MessageParts
  hasAccessBlob : BlobId → Bool

namespace BlobServer

variable (server : BlobServer)

/-- The blob of a message, with the headers it has been given since. -/
def withHeaders (blobClass : BlobClass) (data : List UInt8) : List UInt8 :=
  match blobClass with
  | .linked accountId collection documentId =>
    if collection = Collection.email.toU8 then
      match server.metadata accountId documentId with
      | none => data
      | some m =>
        if m.rootOffsetBody ≠ m.blobBodyOffset then m.rawHeaders ++ data.drop m.blobBodyOffset else data
    else data
  | .reserved .. => data

def blobDownload (blobId : BlobId) : Except BlobError (Option (List UInt8)) :=
  if server.hasAccessBlob blobId then
    match blobId.part with
    | some part => server.store.getBlobSection blobId.hash part
    | none => (server.store.getBlob blobId.hash 0 usizeMax).map fun blob =>
        blob.map (server.withHeaders blobId.class)
  else .ok none

end BlobServer

/-! ## `Blob/get` -/

inductive DigestProperty where
  | sha | sha256 | sha512
  deriving DecidableEq

inductive DataProperty where
  | asText | asBase64 | default
  deriving DecidableEq

inductive BlobProperty where
  | id | blobId | type | size | isEncodingProblem | isTruncated
  | digest (digest : DigestProperty)
  | data (data : DataProperty)
  deriving DecidableEq

inductive BlobValue where
  | null
  | bool (value : Bool)
  | number (value : ℕ)
  | string (value : String)
  | blobId (id : BlobId)

/-- The digests, and the text of bytes that are UTF-8. -/
structure Encodings where
  digest : DigestProperty → List UInt8 → List UInt8
  fromUtf8 : List UInt8 → Option String

/-- One property of an object: what goes before it, its name and its value. -/
def blobProperty (e : Encodings) (blobId : BlobId) (bytes bytesRange : List UInt8) :
    BlobProperty → List (BlobProperty × BlobValue)
  | .id => [(.id, .blobId blobId)]
  | .size => [(.size, .number bytes.length)]
  | .digest digest => [(.digest digest, .string (base64Encode (e.digest digest bytesRange)))]
  | .data .asText =>
    match e.fromUtf8 bytesRange with
    | some text => [(.data .asText, .string text)]
    | none => [(.isEncodingProblem, .bool true), (.data .asText, .null)]
  | .data .asBase64 => [(.data .asBase64, .string (base64Encode bytesRange))]
  | .data .default =>
    match e.fromUtf8 bytesRange with
    | some text => [(.data .asText, .string text)]
    | none => [(.isEncodingProblem, .bool true), (.data .asBase64, .string (base64Encode bytesRange))]
  | property => [(property, .null)]

/-- The object of a blob, with the bytes of a range of it. -/
def objectOfRange (e : Encodings) (blobId : BlobId) (bytes : List UInt8) (isTruncated : Bool) (bytesRange : List UInt8)
    (properties : List BlobProperty) : List (BlobProperty × BlobValue) :=
  (if isTruncated then [(.isTruncated, .bool true)] else []) ++
    properties.flatMap (blobProperty e blobId bytes bytesRange)

/-- The range of a blob that was asked for, and whether it is said to be cut. -/
def bytesRange (bytes : List UInt8) (offset length : Option ℕ) : Bool × List UInt8 :=
  let rangeFrom := offset.getD 0
  let rangeTo := (length.map fun length => usizeSaturatingAdd rangeFrom length).getD usizeMax
  if rangeFrom = 0 ∧ rangeTo = usizeMax then (false, bytes)
  else
    let (isTruncated, rangeTo) : Bool × ℕ :=
      if rangeTo ≠ usizeMax ∧ bytes.length < rangeTo then (true, bytes.length) else (false, rangeTo)
    (isTruncated, (sliceGet bytes rangeFrom rangeTo).getD [])

def blobObject (e : Encodings) (blobId : BlobId) (bytes : List UInt8) (offset length : Option ℕ)
    (properties : List BlobProperty) : List (BlobProperty × BlobValue) :=
  objectOfRange e blobId bytes (bytesRange bytes offset length).1 (bytesRange bytes offset length).2 properties

/-- The request with its ids and properties as they have been read. -/
structure BlobGetRequest where
  ids : List BlobId
  properties : List BlobProperty
  offset : Option ℕ
  length : Option ℕ

structure BlobGetResponse where
  list : List (List (BlobProperty × BlobValue))
  notFound : List BlobId

def blobGet (e : Encodings) (server : BlobServer) (request : BlobGetRequest) : Except BlobError BlobGetResponse :=
  request.ids.foldlM (fun response blobId => do
    match ← server.blobDownload blobId with
    | some bytes =>
      return { response with
        list := response.list ++ [blobObject e blobId bytes request.offset request.length request.properties] }
    | none => return { response with notFound := response.notFound ++ [blobId] }) ⟨[], []⟩

/-! ## `Blob/upload` -/

inductive MaybeIdReference where
  | id (id : BlobId)
  | reference (reference : String)
  | invalid (id : String)

inductive DataSourceObject where
  | id (id : MaybeIdReference) (length offset : Option ℕ)
  | value (bytes : List UInt8)
  | null

/-- Why there is no upload: the store failed, or the error of the object. -/
inductive UploadError where
  | store (error : BlobError)
  | referenceNotFound (reference : String)
  | invalidBlobId (id : String)
  | forbidden (id : BlobId)
  | blobNotFound (id : BlobId)
  | invalidDataSource
  | tooLarge (maxSize : ℕ)
  | noDataSource

/-- The bytes of a range of a blob. -/
def readRange (server : BlobServer) (id : BlobId) (offset length : Option ℕ) : Except BlobError (Option (List UInt8)) :=
  let offset := offset.getD 0
  let length := (length.map fun length => usizeSaturatingAdd length offset).getD usizeMax
  match id.part with
  | some part => (server.store.getBlobSection id.hash part).map fun bytes => bytes.map fun bytes =>
      if offset = 0 ∧ length = usizeMax then bytes
      else (sliceGet bytes offset (min length bytes.length)).getD []
  | none => server.store.getBlob id.hash offset length

def readSource (server : BlobServer) (created : String → Option BlobId) :
    DataSourceObject → Except UploadError (List UInt8)
  | .id id length offset =>
    let id? : Except UploadError BlobId :=
      match id with
      | .id id => .ok id
      | .reference reference =>
        match created reference with
        | some id => .ok id
        | none => .error (.referenceNotFound reference)
      | .invalid id => .error (.invalidBlobId id)
    id?.bind fun id =>
      if server.hasAccessBlob id then
        match readRange server id offset length with
        | .ok (some bytes) => .ok bytes
        | .ok none => .error (.blobNotFound id)
        | .error error => .error (.store error)
      else .error (.forbidden id)
  | .value bytes => .ok bytes
  | .null => .error .invalidDataSource

/-- The bytes of an upload, one source after the other. -/
def uploadData (server : BlobServer) (created : String → Option BlobId) (uploadMaxSize : ℕ) :
    List UInt8 → List DataSourceObject → Except UploadError (List UInt8)
  | data, [] => if data = [] then .error .noDataSource else .ok data
  | data, source :: sources =>
    (readSource server created source).bind fun bytes =>
      if bytes.length + data.length < uploadMaxSize then
        uploadData server created uploadMaxSize (data ++ bytes) sources
      else .error (.tooLarge uploadMaxSize)

/-! ## The ranges that are right -/

/-- The range that was asked for goes past the end. -/
def pastEnd (bytes : List UInt8) (offset length : Option ℕ) : Bool :=
  length.any fun length => bytes.length < offset.getD 0 + length

/-- A range with an end has one below the greatest number; one without starts with the first byte, or behind the last. -/
def Readable (bytes : List UInt8) (offset length : Option ℕ) : Prop :=
  match length with
  | some length => offset.getD 0 + length < usizeMax
  | none => offset.getD 0 = 0 ∨ bytes.length ≤ offset.getD 0

/-- The blob store has the range: it starts with the first byte or behind the last, or has an end that is in bounds. -/
def Stored (bytes : List UInt8) (offset length : Option ℕ) : Prop :=
  offset.getD 0 = 0 ∨ bytes.length ≤ offset.getD 0 ∨ ∃ n ∈ length, offset.getD 0 + n ≤ bytes.length

variable {bytes : List UInt8} {offset length : Option ℕ}

theorem bytesRange_none (hsize : bytes.length < usizeMax) :
    bytesRange bytes offset none = (false, if offset.getD 0 = 0 then bytes else []) := by
  by_cases hoffset : offset.getD 0 = 0
  · rw [if_pos hoffset]
    exact if_pos ⟨hoffset, rfl⟩
  · rw [if_neg hoffset]
    refine (if_neg fun h => hoffset h.1).trans ?_
    show (false, (sliceGet bytes (offset.getD 0) usizeMax).getD []) = _
    rw [sliceGet_of_lt (Or.inr hsize)]
    rfl

theorem bytesRange_some {n : ℕ} (hend : offset.getD 0 + n < usizeMax) :
    bytesRange bytes offset (some n) =
      (decide (bytes.length < offset.getD 0 + n), portion bytes (offset.getD 0) (some n)) := by
  have hsum : usizeSaturatingAdd (offset.getD 0) n = offset.getD 0 + n := min_eq_left (by omega)
  unfold bytesRange
  simp only [Option.map_some, Option.getD_some, hsum]
  rw [if_neg (by omega)]
  by_cases hpast : bytes.length < offset.getD 0 + n
  · rw [if_pos ⟨by omega, hpast⟩, decide_eq_true hpast]
    by_cases hin : offset.getD 0 ≤ bytes.length
    · rw [sliceGet_of_le hin le_rfl, portion_of_le (by omega), portion_of_le (by omega)]
      rfl
    · rw [sliceGet_of_lt (Or.inl (by omega)), portion_eq_nil_iff.mpr (Or.inl (by omega))]
      rfl
  · rw [if_neg (by omega), decide_eq_false hpast]
    rw [sliceGet_of_le (by omega) (by omega), Nat.add_sub_cancel_left]
    rfl

theorem bytesRange_iff (hsize : bytes.length < usizeMax) :
    bytesRange bytes offset length = (pastEnd bytes offset length, portion bytes (offset.getD 0) length) ↔
      Readable bytes offset length := by
  cases length with
  | none =>
    rw [bytesRange_none hsize]
    show (false, _) = (false, _) ↔ offset.getD 0 = 0 ∨ bytes.length ≤ offset.getD 0
    rw [Prod.mk.injEq, and_iff_right rfl]
    by_cases hoffset : offset.getD 0 = 0
    · rw [hoffset, portion_none]
      simp
    · rw [if_neg hoffset, eq_comm, portion_eq_nil_iff]
      simp [hoffset]
  | some n =>
    show _ = (decide (bytes.length < offset.getD 0 + n), _) ↔ offset.getD 0 + n < usizeMax
    by_cases hend : offset.getD 0 + n < usizeMax
    · exact iff_of_true (bytesRange_some hend) hend
    · refine iff_of_false ?_ hend
      -- The end is the number that says there is none, and nothing is said to be cut.
      have hsum : usizeSaturatingAdd (offset.getD 0) n = usizeMax := min_eq_right (by omega)
      have hmark : (bytesRange bytes offset (some n)).1 = false := by
        unfold bytesRange
        simp only [Option.map_some, hsum]
        split_ifs with hwhole hcut
        · rfl
        · exact absurd rfl hcut.1
        · rfl
      intro h
      rw [h] at hmark
      exact absurd hmark (by simp; omega)

/-! ### Sources of an upload -/

variable {server : BlobServer} {id : BlobId}

theorem readRange_part {part : BlobSection} (hpart : id.part = some part)
    (hread : server.store.getBlobSection id.hash part = .ok (some bytes)) (hsize : bytes.length < usizeMax) :
    readRange server id offset length = .ok (some (portion bytes (offset.getD 0) length)) := by
  unfold readRange
  rw [hpart]
  dsimp only
  rw [hread]
  refine congrArg (fun b => Except.ok (some b)) ?_
  cases length with
  | none =>
    show (if offset.getD 0 = 0 ∧ usizeMax = usizeMax then bytes else
      (sliceGet bytes (offset.getD 0) (min usizeMax bytes.length)).getD []) = _
    rw [min_eq_right (by omega)]
    split_ifs with hzero
    · rw [hzero.1, portion_none, drop_zero]
    · by_cases hin : offset.getD 0 ≤ bytes.length
      · rw [sliceGet_of_le hin le_rfl, portion_of_le (by omega)]
        rfl
      · rw [sliceGet_of_lt (Or.inl (by omega)), portion_eq_nil_iff.mpr (Or.inl (by omega))]
        rfl
  | some n =>
    show (if offset.getD 0 = 0 ∧ usizeSaturatingAdd n (offset.getD 0) = usizeMax then bytes else
      (sliceGet bytes (offset.getD 0) (min (usizeSaturatingAdd n (offset.getD 0)) bytes.length)).getD []) = _
    unfold usizeSaturatingAdd
    split_ifs with hzero
    · rw [hzero.1, portion_of_le (by omega), portion_none, drop_zero]
    · by_cases hin : offset.getD 0 ≤ bytes.length
      · rw [sliceGet_of_le (by omega) (by omega)]
        by_cases hpast : bytes.length ≤ offset.getD 0 + n
        · rw [portion_of_le (by omega), portion_of_le (by omega)]
          rfl
        · rw [show min (min (n + offset.getD 0) usizeMax) bytes.length - offset.getD 0 = n by omega]
          rfl
      · rw [sliceGet_of_lt (Or.inl (by omega)), portion_eq_nil_iff.mpr (Or.inl (by omega))]
        rfl

section

variable {stored : List UInt8} (hpart : id.part = none)
  (hread : server.store.getBlob id.hash 0 usizeMax = .ok (some stored)) (hsize : stored.length < usizeMax)
include hpart hread hsize

theorem readRange_whole : readRange server id offset length =
    .ok (some (cutRange stored (offset.getD 0)
      ((length.map fun length => usizeSaturatingAdd length (offset.getD 0)).getD usizeMax))) := by
  unfold readRange
  rw [hpart]
  exact BlobStore.getBlob_cut hread hsize _ _

theorem readRange_stored (hstored : Stored stored offset length) :
    readRange server id offset length = .ok (some (portion stored (offset.getD 0) length)) := by
  rw [readRange_whole hpart hread hsize]
  refine congrArg (fun b => Except.ok (some b)) ?_
  unfold cutRange
  by_cases hzero : offset.getD 0 = 0
  · rw [hzero]
    cases length with
    | none =>
      exact if_pos hsize
    | some n =>
      show (if stored.length < usizeSaturatingAdd n 0 then stored else stored.take (usizeSaturatingAdd n 0)) = _
      unfold usizeSaturatingAdd
      rw [portion_some, drop_zero]
      split_ifs with hpast
      · rw [take_of_length_le (by omega)]
      · rw [show min (n + 0) usizeMax = n by omega]
  · rw [if_neg hzero]
    rcases hstored with h | h | ⟨n, hn, h⟩
    · exact absurd h hzero
    · rw [portion_eq_nil_iff.mpr (Or.inl h)]
      generalize (length.map fun length => usizeSaturatingAdd length (offset.getD 0)).getD usizeMax = stop
      by_cases hin : offset.getD 0 ≤ stop ∧ stop ≤ stored.length
      · rw [sliceGet_of_le hin.1 hin.2, Option.getD_some, portion_eq_nil_iff.mpr (Or.inl h)]
      · rw [sliceGet_of_lt (by omega)]
        rfl
    · obtain rfl := Option.mem_def.mp hn
      have hsum : usizeSaturatingAdd n (offset.getD 0) = n + offset.getD 0 := min_eq_left (by omega)
      show (sliceGet stored (offset.getD 0) (usizeSaturatingAdd n (offset.getD 0))).getD [] = _
      rw [hsum, sliceGet_of_le (by omega) (by omega), Nat.add_sub_cancel]
      rfl

theorem readRange_not_stored (hstored : ¬ Stored stored offset length) :
    readRange server id offset length = .ok (some []) := by
  rw [readRange_whole hpart hread hsize]
  unfold Stored at hstored
  push Not at hstored
  obtain ⟨hzero, hin, hend⟩ := hstored
  unfold cutRange
  rw [if_neg hzero, sliceGet_of_lt (Or.inr ?_)]
  · rfl
  · cases length with
    | none => exact hsize
    | some n =>
      have hpast := hend n rfl
      show stored.length < min (n + offset.getD 0) usizeMax
      omega

end

/-! ## When they are right -/

/-- The object of a range is the one that was asked for. -/
def GetsRange (e : Encodings) (server : BlobServer) (id : BlobId) (bytes : List UInt8) (offset length : Option ℕ) :
    Prop :=
  ∀ properties, blobGet e server ⟨[id], properties, offset, length⟩ =
    .ok ⟨[objectOfRange e id bytes (pastEnd bytes offset length) (portion bytes (offset.getD 0) length) properties],
      []⟩

/-- To name the range of a blob among the sources of an upload is to give its bytes. -/
def UploadsRange (server : BlobServer) (id : BlobId) (bytes : List UInt8) (offset length : Option ℕ) : Prop :=
  ∀ (created : String → Option BlobId) (uploadMaxSize : ℕ) (before after : List DataSourceObject),
    uploadData server created uploadMaxSize [] (before ++ .id (.id id) length offset :: after) =
      uploadData server created uploadMaxSize [] (before ++ .value (portion bytes (offset.getD 0) length) :: after)

/-- Only a part of a blob is read without regard to where it ends; of a whole one the store must have the range, and it
must be the same where the headers have changed since. -/
def Joined (server : BlobServer) (id : BlobId) (bytes : List UInt8) (offset length : Option ℕ) : Prop :=
  id.part = none → ∃ stored, server.store.getBlob id.hash 0 usizeMax = .ok (some stored) ∧
    (Stored stored offset length ∧ portion stored (offset.getD 0) length = portion bytes (offset.getD 0) length ∨
      ¬ Stored stored offset length ∧ portion bytes (offset.getD 0) length = [])

theorem uploadData_congr {created : String → Option BlobId} {source source' : DataSourceObject}
    (h : readSource server created source = readSource server created source') (uploadMaxSize : ℕ)
    (after : List DataSourceObject) : ∀ (before : List DataSourceObject) (data : List UInt8),
      uploadData server created uploadMaxSize data (before ++ source :: after) =
        uploadData server created uploadMaxSize data (before ++ source' :: after)
  | [], data => by rw [nil_append, nil_append, uploadData, uploadData, h]
  | first :: before, data => by
    rw [cons_append, cons_append]
    refine congrArg (Except.bind _) (funext fun bytes => ?_)
    rw [uploadData_congr h uploadMaxSize after before]

theorem uploadsRange_iff {got : List UInt8} (haccess : server.hasAccessBlob id = true)
    (hread : readRange server id offset length = .ok (some got)) :
    UploadsRange server id bytes offset length ↔ got = portion bytes (offset.getD 0) length := by
  have hsource : ∀ created, readSource server created (.id (.id id) length offset) = .ok got := by
    intro created
    simp [readSource, Except.bind, haccess, hread]
  constructor
  · intro h
    have hone := h (fun _ => none) (got.length + (portion bytes (offset.getD 0) length).length + 1) [] []
    have hsingle : ∀ (source : DataSourceObject) (b : List UInt8), readSource server (fun _ => none) source = .ok b →
        ∀ n, b.length < n → uploadData server (fun _ => none) n [] ([] ++ [source]) =
          if b = [] then .error .noDataSource else .ok b := by
      intro source b hb n hn
      rw [nil_append, uploadData, hb]
      exact if_pos hn
    rw [hsingle _ got (hsource _) _ (by omega), hsingle _ (portion bytes (offset.getD 0) length) rfl _ (by omega)] at hone
    split_ifs at hone with h1 h2 h2
    · rw [h1, h2]
    · exact Except.ok.inj hone
  · intro h created uploadMaxSize before after
    refine uploadData_congr ((hsource created).trans ?_) uploadMaxSize after before []
    rw [h]
    rfl

theorem getsRange_iff {e : Encodings}
    (hdownload : server.blobDownload id = .ok (some bytes)) :
    GetsRange e server id bytes offset length ↔
      bytesRange bytes offset length = (pastEnd bytes offset length, portion bytes (offset.getD 0) length) := by
  have hget : ∀ properties, blobGet e server ⟨[id], properties, offset, length⟩ =
      .ok ⟨[blobObject e id bytes offset length properties], []⟩ := by
    intro properties
    simp [blobGet, hdownload, bind, Except.bind, pure, Except.pure]
  constructor
  · intro h
    have hone := h [.data .asBase64]
    rw [hget] at hone
    have hobject := (List.cons.inj (BlobGetResponse.mk.inj (Except.ok.inj hone)).1).1
    have hlast := (append_inj' hobject rfl).2
    have hmark := (append_inj' hobject rfl).1
    obtain hvalue := congrArg Prod.snd (List.cons.inj hlast).1
    have hrange := base64Encode_injective (BlobValue.string.inj hvalue)
    refine Prod.ext ?_ hrange
    split_ifs at hmark with h1 h2 h2
    · rw [h1, h2]
    · rw [Bool.not_eq_true] at h1 h2
      rw [h1, h2]
  · intro h properties
    rw [hget, blobObject, h]

/-- **Blob/get gives the range that was asked for** where its end is below the greatest number, or there is none and it
starts with the first byte or behind the last; **Blob/upload** where it refers to a part of a blob, and of a whole one
where the store has the range. -/
theorem ranges_iff (e : Encodings)
    (hdownload : server.blobDownload id = .ok (some bytes)) (hsize : bytes.length < usizeMax)
    (hstored : ∀ stored, server.store.getBlob id.hash 0 usizeMax = .ok (some stored) → stored.length < usizeMax) :
    (GetsRange e server id bytes offset length ↔ Readable bytes offset length) ∧
      (UploadsRange server id bytes offset length ↔ Joined server id bytes offset length) := by
  refine ⟨(getsRange_iff hdownload).trans (bytesRange_iff hsize), ?_⟩
  unfold BlobServer.blobDownload at hdownload
  split_ifs at hdownload with haccess
  · cases hpart : id.part with
    | some part =>
      rw [hpart] at hdownload
      rw [uploadsRange_iff haccess (readRange_part hpart hdownload hsize)]
      exact iff_of_true rfl fun h => absurd h (by rw [hpart]; simp)
    | none =>
      rw [hpart] at hdownload
      cases hget : server.store.getBlob id.hash 0 usizeMax with
      | error _ =>
        rw [hget] at hdownload
        cases hdownload
      | ok blob =>
        cases blob with
        | none =>
          rw [hget] at hdownload
          cases hdownload
        | some stored =>
          have hshort := hstored stored hget
          have hone : Joined server id bytes offset length ↔
              Stored stored offset length ∧
                  portion stored (offset.getD 0) length = portion bytes (offset.getD 0) length ∨
                ¬ Stored stored offset length ∧ portion bytes (offset.getD 0) length = [] := by
            constructor
            · intro h
              obtain ⟨stored', hget', h⟩ := h hpart
              obtain rfl := Option.some.inj (Except.ok.inj (hget.symm.trans hget'))
              exact h
            · intro h _
              exact ⟨stored, hget, h⟩
          rw [hone]
          by_cases hrange : Stored stored offset length
          · rw [uploadsRange_iff haccess (readRange_stored hpart hget hshort hrange)]
            simp [hrange]
          · rw [uploadsRange_iff haccess (readRange_not_stored hpart hget hshort hrange)]
            exact ⟨fun h => Or.inr ⟨hrange, h.symm⟩, fun h => (h.resolve_left fun h => hrange h.1).2.symm⟩
  · cases hdownload

/-- A blob of four bytes. -/
def sampleBlob : BlobId := ⟨⟨List.replicate BLOB_HASH_LEN 7, length_replicate⟩, .reserved 1 0, none⟩

def sampleBlobServer : BlobServer where
  store := ⟨fun _ => some [1, 2, 3, 4, NONE_MARKER], fun _ => none, fun _ data => some data⟩
  metadata _ _ := none
  hasAccessBlob _ := true

theorem getBlob_sample : sampleBlobServer.store.getBlob sampleBlob.hash 0 usizeMax = .ok (some [1, 2, 3, 4]) := rfl

def sampleEncodings : Encodings := ⟨fun _ data => data, fun data => String.fromUTF8? ⟨data.toArray⟩⟩

theorem ranges_middle :
    (GetsRange sampleEncodings sampleBlobServer sampleBlob [1, 2, 3, 4] (some 1) (some 2) ↔
      Readable [1, 2, 3, 4] (some 1) (some 2)) ∧
    (UploadsRange sampleBlobServer sampleBlob [1, 2, 3, 4] (some 1) (some 2) ↔
      Joined sampleBlobServer sampleBlob [1, 2, 3, 4] (some 1) (some 2)) :=
  ranges_iff sampleEncodings rfl (by decide) fun stored h => by
    obtain rfl := Option.some.inj (Except.ok.inj (getBlob_sample.symm.trans h))
    decide

/-- From the second byte on there is nothing, and neither is there for an upload where the range goes past the end. -/
theorem not_ranges :
    bytesRange [1, 2, 3, 4] (some 1) none = (false, []) ∧
      readRange sampleBlobServer sampleBlob (some 1) (some 9) = .ok (some []) ∧
      ¬ ∀ (e : Encodings) (server : BlobServer) (id : BlobId) (bytes : List UInt8) (offset length : Option ℕ),
        server.blobDownload id = .ok (some bytes) → bytes.length < usizeMax →
          GetsRange e server id bytes offset length ∧ UploadsRange server id bytes offset length := by
  refine ⟨by decide, rfl, fun hall => ?_⟩
  have hget := (hall sampleEncodings sampleBlobServer sampleBlob [1, 2, 3, 4] (some 1) none rfl
    (by decide)).1
  have hrange := (getsRange_iff rfl).mp hget
  exact absurd hrange (by decide)

end MailServer.Jmap.Blob
