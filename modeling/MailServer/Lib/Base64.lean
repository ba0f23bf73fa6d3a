import Mathlib.Data.List.GetD
import Mathlib.Data.List.Nodup

/-!
# Base64

Three bytes are written as four letters, and what is missing of the last three is padded.

* `base64Encode`: the text.  `base64Encode_injective`: it has one meaning.
-/

namespace MailServer.Lib

def base64Alphabet : List Char := "ABCDEFGHIJKLMNOPQRSTUVWXYZabcdefghijklmnopqrstuvwxyz0123456789+/".toList

def base64Letter (n : ℕ) : Char := base64Alphabet.getD n '='

def base64Letters : List UInt8 → List Char
  | [] => []
  | [a] => [base64Letter (a.toNat / 4), base64Letter (a.toNat % 4 * 16), '=', '=']
  | [a, b] =>
    [base64Letter (a.toNat / 4), base64Letter (a.toNat % 4 * 16 + b.toNat / 16), base64Letter (b.toNat % 16 * 4), '=']
  | a :: b :: c :: rest =>
    base64Letter (a.toNat / 4) :: base64Letter (a.toNat % 4 * 16 + b.toNat / 16) ::
      base64Letter (b.toNat % 16 * 4 + c.toNat / 64) :: base64Letter (c.toNat % 64) :: base64Letters rest

def base64Encode (bytes : List UInt8) : String := String.ofList (base64Letters bytes)

theorem base64Letter_inj {m n : ℕ} (hm : m < 64) (hn : n < 64) (h : base64Letter m = base64Letter n) : m = n := by
  have hlen : base64Alphabet.length = 64 := by decide
  have hnodup : base64Alphabet.Nodup := by decide
  unfold base64Letter at h
  rw [List.getD_eq_getElem _ _ (by omega), List.getD_eq_getElem _ _ (by omega)] at h
  exact (hnodup.getElem_inj_iff).mp h

theorem base64Letter_ne {n : ℕ} (hn : n < 64) : base64Letter n ≠ '=' := by
  have hlen : base64Alphabet.length = 64 := by decide
  have hpad : '=' ∉ base64Alphabet := by decide
  unfold base64Letter
  rw [List.getD_eq_getElem _ _ (by omega)]
  intro h
  exact hpad (h ▸ List.getElem_mem _)

theorem base64Letters_inj : ∀ {x y : List UInt8}, base64Letters x = base64Letters y → x = y
  | [], [], _ => rfl
  | [], [_], h => by simp [base64Letters] at h
  | [], [_, _], h => by simp [base64Letters] at h
  | [], _ :: _ :: _ :: _, h => by simp [base64Letters] at h
  | [_], [], h => by simp [base64Letters] at h
  | [a], [b], h => by
    simp only [base64Letters, List.cons.injEq, and_true] at h
    have ha := a.toNat_lt
    have hb := b.toNat_lt
    have h1 := base64Letter_inj (by omega) (by omega) h.1
    have h2 := base64Letter_inj (by omega) (by omega) h.2
    rw [UInt8.toNat_inj.mp (by omega : a.toNat = b.toNat)]
  | [_], [_, d], h => by
    simp only [base64Letters, List.cons.injEq] at h
    exact absurd h.2.2.1.symm (base64Letter_ne (by omega))
  | [_], _ :: d :: e :: _, h => by
    simp only [base64Letters, List.cons.injEq] at h
    exact absurd h.2.2.1.symm (base64Letter_ne (by have := e.toNat_lt; omega))
  | [_, _], [], h => by simp [base64Letters] at h
  | [_, b], [_], h => by
    simp only [base64Letters, List.cons.injEq] at h
    exact absurd h.2.2.1 (base64Letter_ne (by omega))
  | [a, b], [d, e], h => by
    simp only [base64Letters, List.cons.injEq, and_true] at h
    have ha := a.toNat_lt
    have hb := b.toNat_lt
    have hd := d.toNat_lt
    have he := e.toNat_lt
    have h1 := base64Letter_inj (by omega) (by omega) h.1
    have h2 := base64Letter_inj (by omega) (by omega) h.2.1
    have h3 := base64Letter_inj (by omega) (by omega) h.2.2
    rw [UInt8.toNat_inj.mp (by omega : a.toNat = d.toNat), UInt8.toNat_inj.mp (by omega : b.toNat = e.toNat)]
  | [_, _], _ :: _ :: f :: _, h => by
    simp only [base64Letters, List.cons.injEq] at h
    exact absurd h.2.2.2.1.symm (base64Letter_ne (by omega))
  | _ :: _ :: _ :: _, [], h => by simp [base64Letters] at h
  | _ :: b :: c :: _, [_], h => by
    simp only [base64Letters, List.cons.injEq] at h
    exact absurd h.2.2.1 (base64Letter_ne (by have := c.toNat_lt; omega))
  | _ :: _ :: _ :: _, [_, _], h => by
    simp only [base64Letters, List.cons.injEq] at h
    exact absurd h.2.2.2.1 (base64Letter_ne (by omega))
  | a :: b :: c :: x, d :: e :: f :: y, h => by
    simp only [base64Letters, List.cons.injEq] at h
    have ha := a.toNat_lt
    have hb := b.toNat_lt
    have hc := c.toNat_lt
    have hd := d.toNat_lt
    have he := e.toNat_lt
    have hf := f.toNat_lt
    have h1 := base64Letter_inj (by omega) (by omega) h.1
    have h2 := base64Letter_inj (by omega) (by omega) h.2.1
    have h3 := base64Letter_inj (by omega) (by omega) h.2.2.1
    have h4 := base64Letter_inj (by omega) (by omega) h.2.2.2.1
    rw [UInt8.toNat_inj.mp (by omega : a.toNat = d.toNat), UInt8.toNat_inj.mp (by omega : b.toNat = e.toNat),
      UInt8.toNat_inj.mp (by omega : c.toNat = f.toNat), base64Letters_inj h.2.2.2.2]

theorem base64Encode_injective : Function.Injective base64Encode := by
  intro x y h
  exact base64Letters_inj (String.ofList_injective h)

example : base64Encode [77, 97, 110, 33] = "TWFuIQ==" := by decide

end MailServer.Lib
