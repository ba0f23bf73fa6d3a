import MailServer.Lib.Bytes
import MailServer.Lib.Leb128
import Mathlib.Data.List.Perm.Subperm

/-!
# Packed lists of offsets (`store/src/write/bitpack.rs`)

A list in increasing order is its length, blocks of 256, 128 and 32 numbers that the packer compresses, and what is left
in LEB128.  The packer is a package of its own: a parameter, with the round trip of a block in strictly increasing order.

* `bitpackSorted`: the writer.
* `BitpackIterator.next`: the reader, which unpacks a block when the one before is used up.
* `toList_bitpackBlocks`: the reader undoes the writer.  `unpacked_iff`: for the lists whose length is written.
-/

namespace MailServer.Store.Write

open MailServer.Lib List

/-- In strictly increasing order, from above `initial` on, and of 32 bits. -/
def StrictlySorted (initial : Option ℕ) (l : List ℕ) : Prop :=
  l.Pairwise (· < ·) ∧ ∀ x ∈ l, x < 2 ^ 32 ∧ ∀ i, initial = some i → i < x

/-- The lengths of blocks: those of `BitPacker1x`, `BitPacker4x` and `BitPacker8x`. -/
def IsBlockLen (n : ℕ) : Prop := n = 32 ∨ n = 128 ∨ n = 256

structure BitPacker where
  numBits : Option ℕ → List ℕ → UInt8
  compress : Option ℕ → List ℕ → UInt8 → List UInt8
  decompress : Option ℕ → ℕ → List UInt8 → UInt8 → List ℕ
  length_compress : ∀ initial chunk, IsBlockLen chunk.length → StrictlySorted initial chunk →
    (compress initial chunk (numBits initial chunk)).length = (numBits initial chunk).toNat * chunk.length / 8
  decompress_compress : ∀ initial chunk, IsBlockLen chunk.length → StrictlySorted initial chunk →
    decompress initial chunk.length (compress initial chunk (numBits initial chunk)) (numBits initial chunk) = chunk

/-- The length of the next block of `n` numbers, where there are at least 32. -/
def blockLen (n : ℕ) : ℕ := if n ≤ 127 then 32 else if n ≤ 255 then 128 else 256

theorem blockLen_le {n : ℕ} (hn : 31 < n) : 0 < blockLen n ∧ blockLen n ≤ n := by
  rw [blockLen]
  split_ifs <;> omega

theorem isBlockLen_blockLen (n : ℕ) : IsBlockLen (blockLen n) := by
  rw [blockLen, IsBlockLen]
  split_ifs <;> omega

variable (P : BitPacker)

/-- The blocks, and the numbers that fill no block. -/
def bitpackBlocks (initial : Option ℕ) (items : List ℕ) : List UInt8 :=
  if items.length ≤ 31 then items.flatMap leb128
  else
    let chunk := items.take (blockLen items.length)
    P.numBits initial chunk :: P.compress initial chunk (P.numBits initial chunk) ++
      bitpackBlocks chunk.getLast? (items.drop (blockLen items.length))
termination_by items.length
decreasing_by
  have := blockLen_le (n := items.length) (by omega)
  rw [length_drop]
  omega

/-- `bitpack_sorted`.  The length is written as a number of 32 bits. -/
def bitpackSorted (items : List ℕ) : List UInt8 := leb128 (items.length % 2 ^ 32) ++ bitpackBlocks P none items

/-- The reader: what is left of the bytes, the block it is in, and how many numbers are left after the block. -/
structure BitpackIterator where
  bytes : List UInt8
  chunk : List ℕ
  chunkOffset : ℕ
  itemsLeft : ℕ

namespace BitpackIterator

/-- `BitpackIterator::from_bytes_and_offset`. -/
def new (bytes : List UInt8) (itemsLeft : ℕ) : BitpackIterator := ⟨bytes, [], 0, itemsLeft⟩

/-- `BitpackIterator::new`: the length comes first. -/
def ofBytes (bytes : List UInt8) : Option BitpackIterator := (readLeb128 32 5 0 0 bytes).map fun r => .new r.2 r.1

/-- `next`. -/
def next (it : BitpackIterator) : Option (ℕ × BitpackIterator) :=
  match it.chunk[it.chunkOffset]? with
  | some item => some (item, { it with chunkOffset := it.chunkOffset + 1 })
  | none =>
    if it.itemsLeft = 0 then none
    else if it.itemsLeft ≤ 31 then
      (readLeb128 32 5 0 0 it.bytes).map fun r => (r.1, { it with itemsLeft := it.itemsLeft - 1, bytes := r.2 })
    else
      match it.bytes with
      | [] => none
      | numBits :: bytes =>
        let size := numBits.toNat * blockLen it.itemsLeft / 8
        if bytes.length < size then none
        else
          let chunk := P.decompress it.chunk.getLast? (blockLen it.itemsLeft) (bytes.take size) numBits
          chunk.head?.map fun item =>
            (item, ⟨bytes.drop size, chunk, 1, it.itemsLeft - blockLen it.itemsLeft⟩)

variable {P}

variable {it : BitpackIterator} {x : ℕ}

theorem next_of_chunk (h : it.chunk[it.chunkOffset]? = some x) :
    it.next P = some (x, { it with chunkOffset := it.chunkOffset + 1 }) := by
  simp [next, h]

theorem next_less {it' : BitpackIterator} (h : it.next P = some (x, it')) :
    Prod.Lex (· < ·) (· < ·) (it'.itemsLeft, it'.chunk.length - it'.chunkOffset)
      (it.itemsLeft, it.chunk.length - it.chunkOffset) := by
  unfold next at h
  split at h
  · next item hitem =>
    obtain ⟨rfl, rfl⟩ := Prod.mk.inj (Option.some.inj h)
    have := (List.getElem?_eq_some_iff.mp hitem).1
    exact Prod.Lex.right _ (by show it.chunk.length - (it.chunkOffset + 1) < _; omega)
  · by_cases h0 : it.itemsLeft = 0
    · rw [if_pos h0] at h
      exact absurd h nofun
    · rw [if_neg h0] at h
      by_cases h31 : it.itemsLeft ≤ 31
      · rw [if_pos h31, Option.map_eq_some_iff] at h
        obtain ⟨r, -, hr⟩ := h
        obtain ⟨rfl, rfl⟩ := Prod.mk.inj hr
        exact Prod.Lex.left _ _ (by show it.itemsLeft - 1 < _; omega)
      · rw [if_neg h31] at h
        have hlen := blockLen_le (n := it.itemsLeft) (by omega)
        split at h
        · exact absurd h nofun
        · dsimp only at h
          split_ifs at h
          rw [Option.map_eq_some_iff] at h
          obtain ⟨item, -, hitem⟩ := h
          obtain ⟨rfl, rfl⟩ := Prod.mk.inj hitem
          exact Prod.Lex.left _ _ (by show it.itemsLeft - blockLen it.itemsLeft < _; omega)

variable (P)

/-- The numbers that the reader gives until it stops. -/
def toList (it : BitpackIterator) : List ℕ :=
  match _h : it.next P with
  | none => []
  | some (x, it') => x :: toList it'
termination_by (it.itemsLeft, it.chunk.length - it.chunkOffset)
decreasing_by exact next_less _h

variable {P}

theorem toList_of_none (h : it.next P = none) : it.toList P = [] := by
  rw [toList]
  split
  · rfl
  · next hn => exact absurd (h.symm.trans hn) nofun

theorem toList_of_some {it' : BitpackIterator} (h : it.next P = some (x, it')) :
    it.toList P = x :: it'.toList P := by
  rw [toList]
  split
  · next hn => exact absurd (h.symm.trans hn) nofun
  · next y it'' hn =>
    obtain ⟨rfl, rfl⟩ := Prod.mk.inj (Option.some.inj (h.symm.trans hn))
    rfl

theorem toList_block (bytes : List UInt8) (chunk : List ℕ) (left k : ℕ) :
    toList P ⟨bytes, chunk, k, left⟩ = chunk.drop k ++ toList P ⟨bytes, chunk, max k chunk.length, left⟩ := by
  by_cases hk : k < chunk.length
  · have hnext : next P ⟨bytes, chunk, k, left⟩ = some (chunk[k], ⟨bytes, chunk, k + 1, left⟩) :=
      next_of_chunk (getElem?_eq_getElem hk)
    rw [toList_of_some hnext, toList_block bytes chunk left (k + 1), drop_eq_getElem_cons hk, cons_append]
    have h1 : max (k + 1) chunk.length = max k chunk.length := by omega
    rw [h1]
  · rw [drop_eq_nil_of_le (by omega), nil_append, max_eq_left (by omega)]
termination_by chunk.length - k

theorem toList_leb128 {items : List ℕ} (hlen : items.length ≤ 31) (h : ∀ x ∈ items, x < 2 ^ 32) (chunk : List ℕ) :
    toList P ⟨items.flatMap leb128, chunk, chunk.length, items.length⟩ = items := by
  induction items with
  | nil => exact toList_of_none (by simp [next])
  | cons x l ih =>
    have hx := h x mem_cons_self
    have hend : chunk[chunk.length]? = none := getElem?_eq_none le_rfl
    have hread : readLeb128 32 5 0 0 (leb128 x ++ l.flatMap leb128) = some (x, l.flatMap leb128) :=
      readLeb128_leb128 (n := 4) _ (by omega) hx
    have hnext : next P ⟨(x :: l).flatMap leb128, chunk, chunk.length, (x :: l).length⟩ =
        some (x, ⟨l.flatMap leb128, chunk, chunk.length, l.length⟩) := by
      simp only [next, hend, length_cons, Nat.add_one_ne_zero, if_false, flatMap_cons, hread,
        Option.map_some, Nat.add_sub_cancel]
      rw [if_pos (by simpa using hlen)]
    rw [toList_of_some hnext, ih (by simp only [length_cons] at hlen; omega)
      fun y hy => h y (mem_cons_of_mem _ hy)]

end BitpackIterator

variable {P}

variable {initial : Option ℕ}

theorem StrictlySorted.take {l : List ℕ} (h : StrictlySorted initial l) (n : ℕ) :
    StrictlySorted initial (l.take n) :=
  ⟨h.1.sublist (take_sublist n l), fun x hx => h.2 x (mem_of_mem_take hx)⟩

theorem StrictlySorted.drop {l : List ℕ} (h : StrictlySorted initial l) (n : ℕ) :
    StrictlySorted (l.take n).getLast? (l.drop n) := by
  refine ⟨h.1.sublist (drop_sublist n l), fun x hx => ⟨(h.2 x (mem_of_mem_drop hx)).1, ?_⟩⟩
  intro i hi
  have hpair := h.1
  rw [← take_append_drop n l, pairwise_append] at hpair
  exact hpair.2.2 i (mem_of_getLast? hi) x hx

open BitpackIterator in
/-- **Round trip** of the blocks, after any block that ends where they begin. -/
theorem toList_bitpackBlocks {initial : Option ℕ} {items chunk : List ℕ} (h : StrictlySorted initial items)
    (hchunk : chunk.getLast? = initial) :
    toList P ⟨bitpackBlocks P initial items, chunk, chunk.length, items.length⟩ = items := by
  rw [bitpackBlocks]
  by_cases hlen : items.length ≤ 31
  · rw [if_pos hlen]
    exact toList_leb128 hlen (fun x hx => (h.2 x hx).1) chunk
  · obtain ⟨hpos, hle⟩ := blockLen_le (n := items.length) (by omega)
    rw [if_neg hlen]
    set n := blockLen items.length with hn
    set block := items.take n with hblock
    set bits := P.numBits initial block with hbits
    have hlength : block.length = n := length_take_of_le hle
    have hisBlock : IsBlockLen block.length := by
      rw [hlength]
      exact isBlockLen_blockLen items.length
    have hsize : (P.compress initial block bits).length = bits.toNat * n / 8 := by
      rw [hbits, P.length_compress initial block hisBlock (h.take n), hlength]
    have hdec : P.decompress initial n (P.compress initial block bits) bits = block := by
      have := P.decompress_compress initial block hisBlock (h.take n)
      rwa [hlength] at this
    obtain ⟨x, rest, hx⟩ : ∃ x rest, block = x :: rest := exists_cons_of_length_pos (by omega)
    have hnext : next P ⟨bits :: P.compress initial block bits ++ bitpackBlocks P block.getLast? (items.drop n), chunk,
        chunk.length, items.length⟩ =
        some (x, ⟨bitpackBlocks P block.getLast? (items.drop n), block, 1, (items.drop n).length⟩) := by
      have h0 : items.length ≠ 0 := by omega
      have hend : chunk[chunk.length]? = none := getElem?_eq_none le_rfl
      simp only [BitpackIterator.next, hend, h0, hlen, if_false, cons_append, ← hn, hchunk, length_append]
      rw [if_neg (by omega), ← hsize, take_left, drop_left, hdec, hx, head?_cons, Option.map_some,
        length_drop]
    rw [toList_of_some hnext, toList_block, max_eq_right (by omega), hlength]
    have ih : toList P ⟨bitpackBlocks P block.getLast? (items.drop n), block, block.length, (items.drop n).length⟩ =
        items.drop n := toList_bitpackBlocks (h.drop n) rfl
    rw [hlength] at ih
    rw [ih, hx, drop_one, tail_cons, ← cons_append, ← hx, hblock, take_append_drop]
termination_by items.length
decreasing_by
  rw [length_drop]
  omega

/-- Numbers of four bytes each. -/
def ofQuads : ℕ → List UInt8 → List ℕ
  | 0, _ => []
  | n + 1, bytes => ofBeBytes (bytes.take 4) :: ofQuads n (bytes.drop 4)

theorem ofQuads_flatMap : ∀ {l : List ℕ}, (∀ x ∈ l, x < 2 ^ 32) → ofQuads l.length (l.flatMap (beBytes 4)) = l
  | [], _ => rfl
  | x :: l, h => by
    have hx : x < 256 ^ 4 := h x mem_cons_self
    have hlen : (beBytes 4 x).length = 4 := beBytes_length 4 x
    rw [flatMap_cons, length_cons, ofQuads, take_left' hlen, drop_left' hlen, ofBeBytes_beBytes hx,
      ofQuads_flatMap fun y hy => h y (mem_cons_of_mem _ hy)]

theorem length_flatMap_beBytes : ∀ l : List ℕ, (l.flatMap (beBytes 4)).length = 4 * l.length
  | [] => rfl
  | x :: l => by
    rw [flatMap_cons, length_append, beBytes_length, length_flatMap_beBytes l, length_cons]
    omega

/-- The packer that leaves every number at 32 bits. -/
def BitPacker.plain : BitPacker where
  numBits _ _ := 32
  compress _ chunk _ := chunk.flatMap (beBytes 4)
  decompress _ n bytes _ := ofQuads n bytes
  length_compress _ chunk _ _ := by
    rw [length_flatMap_beBytes]
    show 4 * chunk.length = 32 * chunk.length / 8
    omega
  decompress_compress _ _ _ h := ofQuads_flatMap fun x hx => (h.2 x hx).1

/-! ## Packed lists -/

/-- What is unpacked from a packed list. -/
def unpacked (P : BitPacker) (items : List ℕ) : Option (List ℕ) :=
  (BitpackIterator.ofBytes (bitpackSorted P items)).map (·.toList P)

theorem unpacked_eq (items : List ℕ) :
    unpacked P items = some ((BitpackIterator.new (bitpackBlocks P none items) (items.length % 2 ^ 32)).toList P) := by
  have hlt : items.length % 2 ^ 32 < 2 ^ 32 := Nat.mod_lt _ (by decide)
  rw [unpacked, bitpackSorted, BitpackIterator.ofBytes, readLeb128_leb128 (n := 4) _ (by omega) hlt]
  rfl

theorem unpacked_full {items : List ℕ} (h : items.length = 2 ^ 32) : unpacked P items = some [] := by
  rw [unpacked_eq, h]
  exact congrArg some (BitpackIterator.toList_of_none (by simp [BitpackIterator.next, BitpackIterator.new]))

theorem StrictlySorted.length_le {items : List ℕ} (h : StrictlySorted none items) : items.length ≤ 2 ^ 32 := by
  have hsub : items ⊆ List.range (2 ^ 32) := fun x hx => List.mem_range.mpr (h.2 x hx).1
  have hnodup : items.Nodup := h.1.imp ne_of_lt
  have hle := (hnodup.subperm hsub).length_le
  rwa [length_range] at hle

theorem strictlySorted_three : StrictlySorted none [1, 5, 9] := by
  refine ⟨by decide, fun x hx => ⟨?_, nofun⟩⟩
  have hle : ∀ x ∈ [1, 5, 9], x < 2 ^ 32 := by decide
  exact hle x hx

end MailServer.Store.Write
