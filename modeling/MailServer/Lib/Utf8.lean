import Mathlib.Tactic.Common

/-!
# The bytes of strings

`utf8Bytes l` are the bytes of the characters of a string, one after the other.

* `utf8Bytes_inj`: bytes are those of one string.
* `exists_of_utf8Bytes_append`: what follows the bytes of a string in those of another is itself a string.
-/

namespace MailServer.Lib

open List

def utf8Bytes (l : List Char) : List UInt8 := l.flatMap String.utf8EncodeChar

@[simp] theorem utf8Bytes_nil : utf8Bytes [] = [] := rfl

theorem utf8Bytes_cons (c : Char) (l : List Char) : utf8Bytes (c :: l) = String.utf8EncodeChar c ++ utf8Bytes l := rfl

theorem utf8Bytes_append (l m : List Char) : utf8Bytes (l ++ m) = utf8Bytes l ++ utf8Bytes m := flatMap_append

/-- The bytes tell what the first character is. -/
theorem eq_of_utf8EncodeChar_append {c d : Char} {l m : List UInt8}
    (h : String.utf8EncodeChar c ++ l = String.utf8EncodeChar d ++ m) : c = d := by
  have hc := @ByteArray.utf8DecodeChar?_utf8EncodeChar_append l.toByteArray c
  have hd := @ByteArray.utf8DecodeChar?_utf8EncodeChar_append m.toByteArray d
  rw [← toByteArray_append, h, toByteArray_append, hd] at hc
  exact (Option.some.inj hc).symm

theorem exists_of_utf8Bytes_append : ∀ {l m : List Char} {p : List UInt8}, utf8Bytes l ++ p = utf8Bytes m →
    ∃ u, m = l ++ u ∧ p = utf8Bytes u
  | [], m, _, h => ⟨m, rfl, h⟩
  | c :: l, [], p, h => by
    rw [utf8Bytes_cons, append_assoc] at h
    exact absurd (append_eq_nil_iff.mp h).1 String.utf8EncodeChar_ne_nil
  | c :: l, d :: m, p, h => by
    rw [utf8Bytes_cons, append_assoc] at h
    obtain rfl := eq_of_utf8EncodeChar_append h
    obtain ⟨u, rfl, hp⟩ := exists_of_utf8Bytes_append (append_cancel_left h)
    exact ⟨u, rfl, hp⟩

theorem utf8Bytes_eq_nil_iff {l : List Char} : utf8Bytes l = [] ↔ l = [] := by
  cases l with
  | nil => simp
  | cons c l => simp [utf8Bytes_cons]

theorem utf8Bytes_inj {l m : List Char} : utf8Bytes l = utf8Bytes m ↔ l = m := by
  constructor
  · intro h
    obtain ⟨u, rfl, hu⟩ := @exists_of_utf8Bytes_append l m [] (by rw [append_nil]; exact h)
    rw [utf8Bytes_eq_nil_iff.1 hu.symm, append_nil]
  · intro h
    rw [h]

theorem length_utf8Bytes_le (l : List Char) : (utf8Bytes l).length ≤ 4 * l.length := by
  induction l with
  | nil => exact Nat.zero_le _
  | cons c l ih =>
    have hc := c.utf8Size_le_four
    rw [utf8Bytes_cons, length_append, String.length_utf8EncodeChar, length_cons]
    omega

end MailServer.Lib
