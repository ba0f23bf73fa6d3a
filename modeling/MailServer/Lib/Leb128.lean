import Mathlib.Tactic.Ring

/-!
# LEB128 numbers

A number in groups of seven bits, lowest first; every byte but the last has its high bit set.

* `leb128 v`: the bytes of `v`.
* `readLeb128 w n`: the reader of a `w`-bit integer in at most `n` bytes.
* `readLeb128_leb128`: the reader undoes the writer and leaves what follows.
-/

namespace MailServer.Lib

/-- The bytes of a number. -/
def leb128 (v : ℕ) : List UInt8 :=
  if v < 0x80 then [UInt8.ofNat v] else UInt8.ofNat (v &&& 0x7F ||| 0x80) :: leb128 (v >>> 7)
termination_by v
decreasing_by
  rw [Nat.shiftRight_eq_div_pow]
  omega

/-- Reads a `w`-bit number of at most `n` more bytes, the next of which goes to bit `shift`. -/
def readLeb128 (w : ℕ) : ℕ → ℕ → ℕ → List UInt8 → Option (ℕ × List UInt8)
  | 0, _, _, _ => none
  | _ + 1, _, _, [] => none
  | n + 1, shift, result, byte :: bytes =>
    if byte &&& 0x80 = 0 then some (result ||| byte.toNat <<< shift % 2 ^ w, bytes)
    else readLeb128 w n (shift + 7) (result ||| (byte &&& 0x7F).toNat <<< shift % 2 ^ w) bytes

theorem low_byte {v : ℕ} (hv : v < 0x80) :
    UInt8.ofNat v &&& 0x80 = 0 ∧ (UInt8.ofNat v).toNat = v := by
  refine ⟨?_, ?_⟩
  · have : ∀ v < 0x80, UInt8.ofNat v &&& 0x80 = 0 := by decide
    exact this v hv
  · rw [UInt8.toNat_ofNat']
    omega

theorem high_byte (v : ℕ) :
    UInt8.ofNat (v &&& 0x7F ||| 0x80) &&& 0x80 ≠ 0 ∧
      (UInt8.ofNat (v &&& 0x7F ||| 0x80) &&& 0x7F).toNat = v % 128 := by
  have hlow : v &&& 0x7F = v % 128 := Nat.and_two_pow_sub_one_eq_mod v 7
  have : ∀ r < 128, UInt8.ofNat (r ||| 0x80) &&& 0x80 ≠ 0 ∧
      (UInt8.ofNat (r ||| 0x80) &&& 0x7F).toNat = r := by decide
  rw [hlow]
  exact this _ (Nat.mod_lt v (by decide))

/-- A group of bits set above a smaller number is added to it. -/
theorem or_group {w shift result r : ℕ} (hres : result < 2 ^ shift) (hw : r * 2 ^ shift < 2 ^ w) :
    result ||| r <<< shift % 2 ^ w = result + r * 2 ^ shift := by
  rw [Nat.shiftLeft_eq, Nat.mod_eq_of_lt hw, Nat.or_comm, Nat.mul_comm r,
    ← Nat.two_pow_add_eq_or_of_lt hres, Nat.add_comm]

theorem readLeb128_leb128_from (w n : ℕ) : ∀ (shift result : ℕ) {v : ℕ} (rest : List UInt8),
    v < 2 ^ (7 * (n + 1)) → result < 2 ^ shift → v * 2 ^ shift < 2 ^ w →
      readLeb128 w (n + 1) shift result (leb128 v ++ rest) = some (result + v * 2 ^ shift, rest) := by
  induction n with
  | zero =>
    intro shift result v rest hv hres hw
    have hsmall : v < 0x80 := by omega
    obtain ⟨hbit, hval⟩ := low_byte hsmall
    rw [leb128, if_pos hsmall, List.singleton_append, readLeb128, if_pos hbit, hval, or_group hres hw]
  | succ n ih =>
    intro shift result v rest hv hres hw
    rw [leb128]
    by_cases hsmall : v < 0x80
    · obtain ⟨hbit, hval⟩ := low_byte hsmall
      rw [if_pos hsmall, List.singleton_append, readLeb128, if_pos hbit, hval, or_group hres hw]
    · obtain ⟨hbit, hval⟩ := high_byte v
      have hdiv : v >>> 7 = v / 128 := Nat.shiftRight_eq_div_pow v 7
      have hsplit : v % 128 * 2 ^ shift + v / 128 * 2 ^ (shift + 7) = v * 2 ^ shift := by
        conv_rhs => rw [← Nat.mod_add_div v 128]
        ring
      have hlow : v % 128 * 2 ^ shift < 2 ^ w := by omega
      have hnext : result + v % 128 * 2 ^ shift < 2 ^ (shift + 7) := by
        have hr : v % 128 + 1 ≤ 128 := Nat.mod_lt v (by decide)
        have hmul := Nat.mul_le_mul_right (2 ^ shift) hr
        rw [Nat.add_mul] at hmul
        rw [pow_add]
        omega
      have hrest : v / 128 < 2 ^ (7 * (n + 1)) := by
        rw [Nat.mul_succ, pow_add] at hv
        exact Nat.div_lt_of_lt_mul (by omega)
      rw [if_neg hsmall, List.cons_append, readLeb128, if_neg hbit, hval, or_group hres hlow, hdiv,
        ih _ _ rest hrest hnext (by omega), ← hsplit, Nat.add_assoc]

/-- **Round trip.** -/
theorem readLeb128_leb128 {w n v : ℕ} (rest : List UInt8) (hn : v < 2 ^ (7 * (n + 1)))
    (hw : v < 2 ^ w) : readLeb128 w (n + 1) 0 0 (leb128 v ++ rest) = some (v, rest) := by
  have h := readLeb128_leb128_from w n 0 0 rest hn (by simp) (by simpa using hw)
  simpa using h

end MailServer.Lib
