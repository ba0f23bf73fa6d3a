import MailServer.Lib.Slices
import MailServer.Store.Write.Class

/-!
# The blob store (`store/src/dispatch/blob.rs`, `common/src/storage/blob.rs`)

A blob is stored whole, with a marker behind it that says whether it is compressed.  A range of it is cut from what has
been read.

* `BlobStore.getBlob`: a range of a blob.  `BlobStore.getBlobSection`: a part of it, decoded.
* `getBlob_cut`: every range is cut from the same bytes.
-/

namespace MailServer.Store

open MailServer.Lib MailServer.Store.Write

def usizeMax : ℕ := 0xffffffffffffffff

/-- `usize::saturating_add`. -/
def usizeSaturatingAdd (a b : ℕ) : ℕ := min (a + b) usizeMax

def LZ4_MARKER : UInt8 := 0xa1
def NONE_MARKER : UInt8 := 0x00

inductive BlobError where
  | decompressError
  deriving DecidableEq

/-- The objects of the backend, and what takes them apart: the decompression and the transfer encodings. -/
structure BlobStore where
  objects : BlobHash → Option (List UInt8)
  decompressSizePrepended : List UInt8 → Option (List UInt8)
  decode : UInt8 → List UInt8 → Option (List UInt8)

structure BlobSection where
  offsetStart : ℕ
  size : ℕ
  encoding : UInt8

/-- The bytes of a range: from the first byte on cut to what there is, and elsewhere none unless it is in bounds. -/
def cutRange (data : List UInt8) (start stop : ℕ) : List UInt8 :=
  if start = 0 then if data.length < stop then data else data.take stop
  else (sliceGet data start stop).getD []

namespace BlobStore

variable (store : BlobStore)

def getBlob (key : BlobHash) (start stop : ℕ) : Except BlobError (Option (List UInt8)) :=
  match store.objects key with
  | none => .ok none
  | some data =>
    match data.getLast? with
    | none => .ok (some data)
    | some marker =>
      if marker = LZ4_MARKER then
        match store.decompressSizePrepended data.dropLast with
        | some data => .ok (some (cutRange data start stop))
        | none => .error .decompressError
      else if marker = NONE_MARKER then .ok (some (cutRange data.dropLast start stop))
      else .ok (some (cutRange data start stop))

def getBlobSection (key : BlobHash) (part : BlobSection) : Except BlobError (Option (List UInt8)) := do
  let bytes ← store.getBlob key part.offsetStart (usizeSaturatingAdd part.offsetStart part.size)
  return bytes.bind (store.decode part.encoding)

end BlobStore

theorem cutRange_nil (start stop : ℕ) : cutRange [] start stop = [] := by
  unfold cutRange sliceGet
  split_ifs <;> simp

theorem eq_of_cutRange {data bytes : List UInt8} (h : cutRange data 0 usizeMax = bytes) (hsize : bytes.length < usizeMax) :
    data = bytes := by
  rw [cutRange, if_pos rfl] at h
  split_ifs at h with hlt
  · exact h
  · rw [← h, List.length_take] at hsize
    omega

theorem BlobStore.getBlob_cut {store : BlobStore} {key : BlobHash} {bytes : List UInt8}
    (h : store.getBlob key 0 usizeMax = .ok (some bytes)) (hsize : bytes.length < usizeMax) (start stop : ℕ) :
    store.getBlob key start stop = .ok (some (cutRange bytes start stop)) := by
  unfold BlobStore.getBlob at h ⊢
  cases hobject : store.objects key with
  | none =>
    rw [hobject] at h
    cases h
  | some data =>
    rw [hobject] at h
    dsimp only at h ⊢
    cases hlast : data.getLast? with
    | none =>
      obtain rfl : data = [] := List.getLast?_eq_none_iff.mp hlast
      obtain rfl : [] = bytes := Option.some.inj (Except.ok.inj h)
      rw [cutRange_nil]
    | some marker =>
      rw [hlast] at h
      dsimp only at h ⊢
      split_ifs at h ⊢ with hlz4 hnone
      · cases hdata : store.decompressSizePrepended data.dropLast with
        | none =>
          rw [hdata] at h
          cases h
        | some data' =>
          rw [hdata] at h
          rw [eq_of_cutRange (Option.some.inj (Except.ok.inj h)) hsize]
      · rw [eq_of_cutRange (Option.some.inj (Except.ok.inj h)) hsize]
      · rw [eq_of_cutRange (Option.some.inj (Except.ok.inj h)) hsize]

end MailServer.Store
