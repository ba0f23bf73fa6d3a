import MailServer.Lib.Leb128

/-!
# LEB128 integers (`utils/src/codec/leb128.rs`)

An integer is read from a slice or from an iterator, over the shifts of its type, or skipped without a type.

* `fromLeb128BytesPos`, `fromLeb128It`: the readers.  `skipLeb128`, `skipLeb128It`: the same numbers, not read.
* `Agree`: what the readers have in common on a byte string.
* `reads_agree`: a number that was written is read by all of them, and they agree on every byte string.
-/

namespace MailServer.Utils

open MailServer.Lib List

inductive IntType where
  | u16 | u32 | u64 | usize

namespace IntType

def bits : IntType → ℕ
  | u16 => 16
  | u32 => 32
  | u64 | usize => 64

def shifts : IntType → List ℕ
  | u16 => [0, 7, 14]
  | u32 => [0, 7, 14, 21, 28]
  | u64 | usize => [0, 7, 14, 21, 28, 35, 42, 49, 56, 63]

end IntType

section

variable (w : ℕ)

/-- `from_leb128_bytes_pos`: the value and the bytes that were read. -/
def fromLeb128BytesPos : List ℕ → ℕ → List UInt8 → Option (ℕ × ℕ)
  | shift :: shifts, result, byte :: bytes =>
    if byte &&& 0x80 = 0 then some (result ||| byte.toNat <<< shift % 2 ^ w, 1)
    else
      (fromLeb128BytesPos shifts (result ||| (byte &&& 0x7F).toNat <<< shift % 2 ^ w) bytes).map fun r =>
        (r.1, r.2 + 1)
  | _, _, _ => none

/-- `from_leb128_it`: the value, and what the iterator has left. -/
def fromLeb128It : List ℕ → ℕ → List UInt8 → Option ℕ × List UInt8
  | [], _, bytes => (none, bytes)
  | _ :: _, _, [] => (none, [])
  | shift :: shifts, result, byte :: bytes =>
    if byte &&& 0x80 = 0 then (some (result ||| byte.toNat <<< shift % 2 ^ w), bytes)
    else fromLeb128It shifts (result ||| (byte &&& 0x7F).toNat <<< shift % 2 ^ w) bytes

end

/-- `skip_leb128` of a slice. -/
def skipLeb128 : List UInt8 → Option ℕ
  | [] => none
  | byte :: bytes => if byte &&& 0x80 = 0 then some 1 else (skipLeb128 bytes).map (· + 1)

/-- `skip_leb128` of an iterator. -/
def skipLeb128It : List UInt8 → Option Unit × List UInt8
  | [] => (none, [])
  | byte :: bytes => if byte &&& 0x80 = 0 then (some (), bytes) else skipLeb128It bytes

/-- What is read is read alike and skipped alike; what is not read is skipped only if it is longer than the shifts. -/
def Agree (w : ℕ) (shifts : List ℕ) (result : ℕ) (bytes : List UInt8) : Prop :=
  match fromLeb128BytesPos w shifts result bytes with
  | some (v, n) =>
    fromLeb128It w shifts result bytes = (some v, bytes.drop n) ∧ skipLeb128 bytes = some n ∧
      skipLeb128It bytes = (some (), bytes.drop n)
  | none =>
    (fromLeb128It w shifts result bytes).1 = none ∧ (∀ n, skipLeb128 bytes = some n → shifts.length < n) ∧
      (skipLeb128 bytes = none → skipLeb128It bytes = (none, []))

theorem skipLeb128_pos {n : ℕ} : ∀ {bytes : List UInt8}, skipLeb128 bytes = some n → 0 < n
  | [], h => absurd h (by simp [skipLeb128])
  | byte :: bytes, h => by
    rw [skipLeb128] at h
    split_ifs at h
    · simp only [Option.some.injEq] at h
      omega
    · obtain ⟨m, -, rfl⟩ := Option.map_eq_some_iff.mp h
      omega

theorem skipLeb128It_eq : ∀ bytes : List UInt8,
    skipLeb128It bytes = match skipLeb128 bytes with
      | some n => (some (), bytes.drop n)
      | none => (none, [])
  | [] => rfl
  | byte :: bytes => by
    rw [skipLeb128It, skipLeb128]
    by_cases hlast : byte &&& 0x80 = 0
    · rw [if_pos hlast, if_pos hlast]
      rfl
    · rw [if_neg hlast, if_neg hlast, skipLeb128It_eq bytes]
      cases skipLeb128 bytes with
      | none => rfl
      | some n => rfl

theorem agree (w : ℕ) : ∀ (shifts : List ℕ) (result : ℕ) (bytes : List UInt8), Agree w shifts result bytes
  | [], _, bytes => by
    refine ⟨rfl, fun n h => skipLeb128_pos h, fun h => ?_⟩
    rw [skipLeb128It_eq, h]
  | shift :: shifts, result, [] => ⟨rfl, fun n h => absurd h (by simp [skipLeb128]), fun _ => rfl⟩
  | shift :: shifts, result, byte :: bytes => by
    unfold Agree
    rw [fromLeb128BytesPos, fromLeb128It, skipLeb128, skipLeb128It]
    by_cases hlast : byte &&& 0x80 = 0
    · rw [if_pos hlast, if_pos hlast, if_pos hlast, if_pos hlast]
      exact ⟨rfl, rfl, rfl⟩
    · simp only [if_neg hlast]
      have ih := agree w shifts (result ||| (byte &&& 0x7F).toNat <<< shift % 2 ^ w) bytes
      unfold Agree at ih
      cases hread : fromLeb128BytesPos w shifts (result ||| (byte &&& 0x7F).toNat <<< shift % 2 ^ w) bytes with
      | some r =>
        rw [hread] at ih
        obtain ⟨hit, hskip, hskipIt⟩ := ih
        exact ⟨hit, by rw [hskip]; rfl, hskipIt⟩
      | none =>
        rw [hread] at ih
        obtain ⟨hit, hskip, hskipIt⟩ := ih
        refine ⟨hit, fun n h => ?_, fun h => hskipIt (Option.map_eq_none_iff.mp h)⟩
        obtain ⟨m, hm, rfl⟩ := Option.map_eq_some_iff.mp h
        exact Nat.succ_lt_succ (hskip m hm)

/-! ## Written numbers -/

/-- The shifts from one on, seven bits apart. -/
def groups : ℕ → ℕ → List ℕ
  | 0, _ => []
  | n + 1, shift => shift :: groups n (shift + 7)

theorem read_of_readLeb128 (w : ℕ) : ∀ (n shift result : ℕ) {bytes : List UInt8} {r : ℕ × List UInt8},
    readLeb128 w n shift result bytes = some r →
      ∃ k, fromLeb128BytesPos w (groups n shift) result bytes = some (r.1, k) ∧ r.2.length + k = bytes.length
  | 0, _, _, _, _, h => absurd h (by simp [readLeb128])
  | _ + 1, _, _, [], _, h => absurd h (by simp [readLeb128])
  | n + 1, shift, result, byte :: bytes, r, h => by
    rw [readLeb128] at h
    rw [groups, fromLeb128BytesPos]
    by_cases hlast : byte &&& 0x80 = 0
    · rw [if_pos hlast] at h ⊢
      obtain rfl := Option.some.inj h
      exact ⟨1, rfl, rfl⟩
    · rw [if_neg hlast] at h ⊢
      obtain ⟨k, hk, hlen⟩ := read_of_readLeb128 w n (shift + 7) _ h
      refine ⟨k + 1, by rw [hk]; rfl, ?_⟩
      rw [length_cons]
      omega

theorem fromLeb128BytesPos_leb128 (t : IntType) (v : Fin (2 ^ t.bits)) (rest : List UInt8) :
    fromLeb128BytesPos t.bits t.shifts 0 (leb128 v ++ rest) = some (v.1, (leb128 v).length) := by
  have hshifts : ∃ n, t.shifts = groups (n + 1) 0 ∧ t.bits ≤ 7 * (n + 1) := by
    cases t with
    | u16 => exact ⟨2, rfl, by decide⟩
    | u32 => exact ⟨4, rfl, by decide⟩
    | u64 | usize => exact ⟨9, rfl, by decide⟩
  obtain ⟨n, hn, hbits⟩ := hshifts
  have hv : v.1 < 2 ^ (7 * (n + 1)) := lt_of_lt_of_le v.2 (Nat.pow_le_pow_right (by decide) hbits)
  obtain ⟨k, hk, hlen⟩ := read_of_readLeb128 t.bits (n + 1) 0 0 (readLeb128_leb128 rest hv v.2)
  dsimp only at hlen
  rw [length_append] at hlen
  have hcount : k = (leb128 v).length := by omega
  rw [hn, hk, hcount]

/-- **The readers** read what was written, whatever follows it, and agree on every byte string. -/
theorem reads_agree (t : IntType) :
    (∀ (v : Fin (2 ^ t.bits)) (rest : List UInt8),
      fromLeb128BytesPos t.bits t.shifts 0 (leb128 v ++ rest) = some (v.1, (leb128 v).length) ∧
        fromLeb128It t.bits t.shifts 0 (leb128 v ++ rest) = (some v.1, rest) ∧
        skipLeb128 (leb128 v ++ rest) = some (leb128 v).length ∧
        skipLeb128It (leb128 v ++ rest) = (some (), rest)) ∧
      ∀ bytes, Agree t.bits t.shifts 0 bytes := by
  refine ⟨fun v rest => ?_, agree t.bits t.shifts 0⟩
  have hread := fromLeb128BytesPos_leb128 t v rest
  have h := agree t.bits t.shifts 0 (leb128 v ++ rest)
  rw [Agree, hread] at h
  dsimp only at h
  rw [drop_left] at h
  exact ⟨hread, h⟩

/-- A number of four bytes is skipped and is none of 16 bits. -/
theorem skips_longer : ¬ ∀ (t : IntType) (bytes : List UInt8) (n : ℕ),
    skipLeb128 bytes = some n → (fromLeb128BytesPos t.bits t.shifts 0 bytes).isSome = true := by
  intro h
  exact absurd (h .u16 [0x80, 0x80, 0x80, 0] 4 (by decide)) (by decide)

end MailServer.Utils
