import MailServer.Store.Write.Blob
import MailServer.Utils.Base32
import MailServer.Utils.Leb128

/-!
# Blob ids (`types/src/blob.rs`)

* `BlobId.serializeAs`: a marker with the class and the encoding, the hash, and the numbers.
* `BlobId.fromIter`: reads them back.
* `fromBase32_display`: the text of such an id is read as the id.
-/

namespace MailServer.Types

open MailServer.Lib MailServer.Utils MailServer.Store.Write List

def B_LINKED : UInt8 := 0x10
def B_RESERVED : UInt8 := 0x20

inductive BlobClass where
  | reserved (accountId : UInt32) (expires : UInt64)
  | linked (accountId : UInt32) (collection : UInt8) (documentId : UInt32)

structure BlobSection where
  offsetStart : UInt64
  size : UInt64
  encoding : UInt8

/-- `BlobSection::default` -/
def BlobSection.default : BlobSection := ⟨0, 0, 0⟩

structure BlobId where
  hash : BlobHash
  blobClass : BlobClass
  blobSection : Option BlobSection

section

/-- `it.next()?` -/
def next : StateT (List UInt8) Option UInt8
  | [] => none
  | byte :: it => some (byte, it)

/-- The loop over the bytes of a hash. -/
def nextHash : StateT (List UInt8) Option BlobHash := fun it =>
  if h : BLOB_HASH_LEN ≤ it.length then some (⟨it.take BLOB_HASH_LEN, length_take_of_le h⟩, it.drop BLOB_HASH_LEN)
  else none

/-- `it.next_leb128()?` -/
def nextLeb128 (t : IntType) : StateT (List UInt8) Option ℕ := fun it =>
  match fromLeb128It t.bits t.shifts 0 it with
  | (some v, it) => some (v, it)
  | (none, _) => none

end

namespace BlobId

def new (hash : BlobHash) (blobClass : BlobClass) : BlobId := ⟨hash, blobClass, none⟩

def newSection (hash : BlobHash) (blobClass : BlobClass) (offsetStart offsetEnd : UInt64) (encoding : UInt8) : BlobId :=
  ⟨hash, blobClass, some ⟨offsetStart, offsetEnd - offsetStart, encoding⟩⟩

def withSectionSize (b : BlobId) (size : UInt64) : BlobId :=
  { b with blobSection := some { b.blobSection.getD .default with size } }

def nextClass (marker : UInt8) : StateT (List UInt8) Option BlobClass := do
  let accountId ← nextLeb128 .u32
  if marker &&& B_LINKED ≠ 0 then
    let collection ← next
    let documentId ← nextLeb128 .u32
    pure (.linked (.ofNat accountId) collection (.ofNat documentId))
  else
    let expires ← nextLeb128 .u64
    pure (.reserved (.ofNat accountId) (.ofNat expires))

def nextSection (encoding : UInt8) : StateT (List UInt8) Option (Option BlobSection) := do
  if encoding ≠ 0 then
    let offsetStart ← nextLeb128 .usize
    let size ← nextLeb128 .usize
    pure (some ⟨.ofNat offsetStart, .ofNat size, encoding - 1⟩)
  else pure none

def fromIter : StateT (List UInt8) Option BlobId := do
  let marker ← next
  let hash ← nextHash
  let blobClass ← nextClass marker
  let blobSection ← nextSection (marker &&& 0x0F)
  pure ⟨hash, blobClass, blobSection⟩

def fromBase32 (value : List UInt8) : Option BlobId := (fromIter (Base32Reader.new value).toList).map Prod.fst

def mark : BlobClass → UInt8
  | .linked .. => B_LINKED
  | .reserved .. => B_RESERVED

def marker (b : BlobId) : UInt8 := (b.blobSection.map fun part => part.encoding + 1).getD 0 ||| mark b.blobClass

def classBytes : BlobClass → List UInt8
  | .reserved accountId expires => leb128 accountId.toNat ++ leb128 expires.toNat
  | .linked accountId collection documentId => leb128 accountId.toNat ++ collection :: leb128 documentId.toNat

def sectionBytes : Option BlobSection → List UInt8
  | some part => leb128 part.offsetStart.toNat ++ leb128 part.size.toNat
  | none => []

/-- The bytes that are written, one call after the other. -/
def serializeAs (b : BlobId) : List UInt8 :=
  b.marker :: (b.hash.1 ++ (classBytes b.blobClass ++ sectionBytes b.blobSection))

/-- `Display` -/
def display (b : BlobId) : List UInt8 := (Base32Writer.new.write b.serializeAs).finalize

/-- The ids that the constructors give.  `new_section` is called with the encodings of a message part: none,
quoted-printable and base64; `blob/copy.rs` sets another class. -/
inductive Made : BlobId → Prop
  | new (hash : BlobHash) (blobClass : BlobClass) : Made (.new hash blobClass)
  | newSection (hash : BlobHash) (blobClass : BlobClass) (offsetStart offsetEnd : UInt64) {encoding : UInt8} :
    encoding ≤ 2 → Made (.newSection hash blobClass offsetStart offsetEnd encoding)
  | withSectionSize {b : BlobId} (size : UInt64) : Made b → Made (b.withSectionSize size)
  | copy {b : BlobId} (blobClass : BlobClass) : Made b → Made { b with blobClass }
  | read {b : BlobId} {it rest : List UInt8} : fromIter it = some (b, rest) → Made b

end BlobId

/-! ## What is written is read -/

theorem next_cons (byte : UInt8) (it : List UInt8) : next.run (byte :: it) = some (byte, it) := rfl

theorem nextHash_append (hash : BlobHash) (it : List UInt8) : nextHash.run (hash.1 ++ it) = some (hash, it) := by
  have hle : BLOB_HASH_LEN ≤ (hash.1 ++ it).length := by
    rw [length_append]
    omega
  have htake : (hash.1 ++ it).take BLOB_HASH_LEN = hash.1 := take_left' hash.2
  have hdrop : (hash.1 ++ it).drop BLOB_HASH_LEN = it := drop_left' hash.2
  simp only [StateT.run, nextHash, dif_pos hle, htake, hdrop]

theorem nextLeb128_append (t : IntType) {v : ℕ} (hv : v < 2 ^ t.bits) (it : List UInt8) :
    (nextLeb128 t).run (leb128 v ++ it) = some (v, it) := by
  have h := agree t.bits t.shifts 0 (leb128 v ++ it)
  rw [Agree, fromLeb128BytesPos_leb128 t ⟨v, hv⟩ it] at h
  simp [StateT.run, nextLeb128, h.1]

namespace BlobId

/-- The encodings that fit beside the marks of the classes. -/
def Fits (b : BlobId) : Prop := ∀ part ∈ b.blobSection, part.encoding.toNat < 15

theorem bits_of_lt {e : UInt8} (h : e.toNat < 15) (blobClass : BlobClass) :
    (e + 1 ||| mark blobClass) &&& 0x0F = e + 1 ∧ (e + 1 ||| mark blobClass) &&& B_LINKED = mark blobClass &&& B_LINKED ∧
      e + 1 ≠ 0 := by
  have hall : ∀ n < 15, ∀ m ∈ [B_LINKED, B_RESERVED], (UInt8.ofNat n + 1 ||| m) &&& 0x0F = .ofNat n + 1 ∧
      (UInt8.ofNat n + 1 ||| m) &&& B_LINKED = m &&& B_LINKED ∧ UInt8.ofNat n + 1 ≠ 0 := by
    decide +kernel
  have he := hall e.toNat h (mark blobClass) (by cases blobClass <;> simp [mark])
  rwa [UInt8.ofNat_toNat] at he

theorem fits_of_fromIter {b : BlobId} {it rest : List UInt8} (h : fromIter.run it = some (b, rest)) : b.Fits := by
  simp only [fromIter, nextSection, StateT.run_bind, Option.bind_eq_bind, Option.bind_eq_some_iff] at h
  obtain ⟨⟨marker, _⟩, -, _, -, _, -, ⟨blobSection, _⟩, hpart, heq⟩ := h
  obtain ⟨rfl, -⟩ := Prod.mk.inj (Option.some.inj heq)
  rintro part hmem
  split_ifs at hpart with hne
  · simp only [StateT.run_bind, Option.bind_eq_bind, Option.bind_eq_some_iff] at hpart
    obtain ⟨_, -, _, -, hpart⟩ := hpart
    obtain ⟨rfl, -⟩ := Prod.mk.inj (Option.some.inj hpart)
    obtain rfl := Option.some.inj hmem
    have hall : ∀ e : Fin 256, UInt8.ofFin e &&& 0x0F ≠ 0 → ((UInt8.ofFin e &&& 0x0F) - 1).toNat < 15 := by
      decide +kernel
    exact hall marker.toFin hne
  · obtain ⟨rfl, -⟩ := Prod.mk.inj (Option.some.inj hpart)
    cases hmem

theorem Made.fits {b : BlobId} (h : Made b) : b.Fits := by
  induction h with
  | new hash blobClass => exact fun part hpart => absurd hpart (by simp [BlobId.new])
  | newSection hash blobClass offsetStart offsetEnd hle =>
    rintro _ ⟨⟩
    exact Nat.lt_of_le_of_lt (UInt8.le_iff_toNat_le.mp hle) (by decide)
  | @withSectionSize b size _ ih =>
    rintro _ ⟨⟩
    cases hpart : b.blobSection with
    | none => exact Nat.zero_lt_succ _
    | some part => exact ih part hpart
  | copy blobClass _ ih => exact ih
  | read hread => exact fits_of_fromIter hread

theorem nextClass_append {marker : UInt8} {blobClass : BlobClass}
    (h : marker &&& B_LINKED = mark blobClass &&& B_LINKED) (it : List UInt8) :
    (nextClass marker).run (classBytes blobClass ++ it) = some (blobClass, it) := by
  have h32 (v : UInt32) (it : List UInt8) := nextLeb128_append .u32 v.toNat_lt it
  have h64 (v : UInt64) (it : List UInt8) := nextLeb128_append .u64 v.toNat_lt it
  cases blobClass with
  | reserved accountId expires =>
    have hzero : marker &&& B_LINKED = 0 := h.trans (by decide : B_RESERVED &&& B_LINKED = 0)
    simp [nextClass, hzero, classBytes, h32, h64]
  | linked accountId collection documentId =>
    have hne : marker &&& B_LINKED ≠ 0 := h ▸ (by decide : B_LINKED &&& B_LINKED ≠ 0)
    simp [nextClass, hne, classBytes, h32, next_cons]

theorem fromIter_append {marker : UInt8} (hash : BlobHash) {blobClass : BlobClass} {blobSection : Option BlobSection}
    {it it' rest : List UInt8} (hclass : (nextClass marker).run it = some (blobClass, it'))
    (hsection : (nextSection (marker &&& 0x0F)).run it' = some (blobSection, rest)) :
    fromIter.run (marker :: (hash.1 ++ it)) = some (⟨hash, blobClass, blobSection⟩, rest) := by
  simp only [fromIter, StateT.run_bind, next_cons, Option.bind_eq_bind, Option.bind_some, nextHash_append, hclass,
    hsection]
  rfl

theorem fromIter_serializeAs {b : BlobId} (h : b.Fits) : fromIter.run b.serializeAs = some (b, []) := by
  obtain ⟨hash, blobClass, blobSection⟩ := b
  cases blobSection with
  | none =>
    have hlow : marker ⟨hash, blobClass, none⟩ &&& 0x0F = 0 := by
      cases blobClass <;> simp only [marker, mark] <;> decide
    refine fromIter_append hash (nextClass_append (congrArg (· &&& B_LINKED) UInt8.zero_or) []) ?_
    rw [hlow]
    rfl
  | some part =>
    obtain ⟨hlow, hmark, hne⟩ := bits_of_lt (h part rfl) blobClass
    have hread (v : UInt64) (it : List UInt8) := nextLeb128_append .usize v.toNat_lt it
    have hlast := hread part.size []
    rw [append_nil] at hlast
    refine fromIter_append hash (nextClass_append hmark (sectionBytes (some part))) ?_
    rw [marker, Option.map_some, Option.getD_some, hlow]
    simp [nextSection, hne, sectionBytes, hread, hlast]

/-- **Round trip.** -/
theorem fromBase32_display {b : BlobId} (h : Made b) : fromBase32 b.display = some b := by
  have hread : (Base32Reader.new b.display).toList = b.serializeAs := by
    rw [display, finalize_write _ rfl]
    exact toList_text _ 0 rfl
  have hiter := fromIter_serializeAs h.fits
  rw [StateT.run] at hiter
  rw [fromBase32, hread, hiter, Option.map_some]

theorem fromBase32_display_half : fromBase32 (BlobId.newSection BlobHash.default (.linked 1 0 7) 20 300 2).display =
    some (.newSection BlobHash.default (.linked 1 0 7) 20 300 2) :=
  fromBase32_display (.newSection _ _ _ _ (by decide))

end BlobId

end MailServer.Types
