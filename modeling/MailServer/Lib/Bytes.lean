import Mathlib.Data.List.Induction
import Mathlib.Data.Nat.ModEq

/-!
# Big-endian byte strings

`beBytes n v` is the number `v` in `n` bytes, most significant first: `to_be_bytes` of an unsigned
integer of `n` bytes.

* `beBytes_length`: the width is fixed.
* `beBytes_inj`: over one width the encoding is injective below `256 ^ n`.
* `ofBeBytes`: the number back from its bytes.
* `Bytes n`: byte strings of length `n`.
-/

namespace MailServer.Lib

open List

/-- The low `n` bytes of `v`, most significant first. -/
def beBytes : ℕ → ℕ → List UInt8
  | 0, _ => []
  | n + 1, v => beBytes n (v / 256) ++ [UInt8.ofNat v]

@[simp] theorem beBytes_length : ∀ n v : ℕ, (beBytes n v).length = n
  | 0, _ => rfl
  | n + 1, v => by simp [beBytes, beBytes_length n]

theorem beBytes_inj : ∀ {n v w : ℕ}, v < 256 ^ n → w < 256 ^ n → beBytes n v = beBytes n w → v = w
  | 0, v, w, hv, hw, _ => by
    omega
  | n + 1, v, w, hv, hw, h => by
    obtain ⟨h1, h2⟩ := append_inj' h rfl
    have hdiv : v / 256 = w / 256 :=
      beBytes_inj (Nat.div_lt_of_lt_mul (by omega)) (Nat.div_lt_of_lt_mul (by omega)) h1
    have hmod : v % 256 = w % 256 := by
      have := congrArg UInt8.toNat (singleton_inj.mp h2)
      simpa using this
    omega

/-- What does not fit is cut off. -/
theorem beBytes_mod : ∀ n v : ℕ, beBytes n (v % 256 ^ n) = beBytes n v
  | 0, _ => rfl
  | n + 1, v => by
    have hmod : UInt8.ofNat (v % (256 * 256 ^ n)) = UInt8.ofNat v := by
      apply UInt8.toNat_inj.mp
      rw [UInt8.toNat_ofNat', UInt8.toNat_ofNat', Nat.mod_mul_right_mod]
    rw [beBytes, beBytes, pow_succ', Nat.mod_mul_right_div_self, beBytes_mod n, hmod]

/-- A number in front of two strings. -/
theorem beBytes_append_inj {n v w : ℕ} (hv : v < 256 ^ n) (hw : w < 256 ^ n) {l m : List UInt8} :
    beBytes n v ++ l = beBytes n w ++ m ↔ v = w ∧ l = m := by
  refine ⟨fun h => ?_, fun ⟨hv, hl⟩ => by rw [hv, hl]⟩
  obtain ⟨h1, h2⟩ := append_inj h (by simp)
  exact ⟨beBytes_inj hv hw h1, h2⟩

/-- A number behind two strings. -/
theorem append_beBytes_inj {n v w : ℕ} (hv : v < 256 ^ n) (hw : w < 256 ^ n) {l m : List UInt8} :
    l ++ beBytes n v = m ++ beBytes n w ↔ l = m ∧ v = w := by
  refine ⟨fun h => ?_, fun ⟨hl, hv⟩ => by rw [hv, hl]⟩
  obtain ⟨h1, h2⟩ := append_inj' h (by simp)
  exact ⟨h1, beBytes_inj hv hw h2⟩

/-- The number that a string spells: `from_be_bytes`. -/
def ofBeBytes (l : List UInt8) : ℕ := l.foldl (fun n b => n * 256 + b.toNat) 0

theorem ofBeBytes_beBytes : ∀ {n v : ℕ}, v < 256 ^ n → ofBeBytes (beBytes n v) = v
  | 0, v, hv => by
    obtain rfl : v = 0 := by omega
    rfl
  | n + 1, v, hv => by
    have ih := ofBeBytes_beBytes (n := n) (v := v / 256) (Nat.div_lt_of_lt_mul (by omega))
    unfold ofBeBytes at ih ⊢
    rw [beBytes, foldl_append]
    simp only [foldl_cons, foldl_nil, UInt8.toNat_ofNat']
    omega

theorem ofBeBytes_concat (l : List UInt8) (b : UInt8) : ofBeBytes (l ++ [b]) = ofBeBytes l * 256 + b.toNat :=
  foldl_append

theorem ofBeBytes_lt (l : List UInt8) : ofBeBytes l < 256 ^ l.length := by
  induction l using List.reverseRecOn with
  | nil => exact Nat.one_pos
  | append_singleton l b ih =>
    have hb := b.toNat_lt
    rw [ofBeBytes_concat, length_append, length_singleton]
    omega

/-- A string is the number it spells. -/
theorem beBytes_ofBeBytes (l : List UInt8) : beBytes l.length (ofBeBytes l) = l := by
  induction l using List.reverseRecOn with
  | nil => rfl
  | append_singleton l b ih =>
    have hb := b.toNat_lt
    have hdiv : (ofBeBytes l * 256 + b.toNat) / 256 = ofBeBytes l := by omega
    have hmod : UInt8.ofNat (ofBeBytes l * 256 + b.toNat) = b := by
      apply UInt8.toNat_inj.mp
      rw [UInt8.toNat_ofNat']
      omega
    rw [length_append, length_singleton, ofBeBytes_concat, beBytes, hdiv, ih, hmod]

/-- Byte strings of one length. -/
abbrev Bytes (n : ℕ) := { l : List UInt8 // l.length = n }

end MailServer.Lib
