import MailServer.Lib.Bytes

/-!
# Ranges of byte strings

Strings are ordered byte by byte, a prefix before what extends it.

* `append_lt_append_iff`: two fronts of one length decide before what follows them.
* `beBytes_lt_iff`: over one width the order of the strings is the order of the numbers.
* `between_iff`: the strings between the numbers `v` and `v + 1`, with what follows either.
-/

namespace MailServer.Lib

open List

section

variable {α : Type*} [LT α] [Std.Irrefl (α := α) (· < ·)]

theorem append_lt_append_iff : ∀ {p q : List α} (_ : p.length = q.length) {l m : List α},
    p ++ l < q ++ m ↔ p < q ∨ p = q ∧ l < m
  | [], [], _, l, m => by simp [List.lt_irrefl]
  | a :: p, b :: q, h, l, m => by
    have ih := append_lt_append_iff (p := p) (q := q) (Nat.succ.inj h) (l := l) (m := m)
    rw [cons_append, cons_append, cons_lt_cons_iff, cons_lt_cons_iff, ih,
      List.cons.injEq]
    tauto

theorem append_left_lt_iff {p l m : List α} : p ++ l < p ++ m ↔ l < m := by
  rw [append_lt_append_iff rfl]
  simp [List.lt_irrefl]

theorem not_append_lt {p l : List α} : ¬ p ++ l < p := by
  have h := append_left_lt_iff (p := p) (l := l) (m := [])
  rw [append_nil] at h
  simp [h]

end

/-- Nothing as long as a string of zeros comes before it. -/
theorem not_lt_replicate_zero : ∀ {n : ℕ} {l : List UInt8}, n ≤ l.length →
    ¬ l < List.replicate n 0
  | 0, l, _ => by simp
  | n + 1, [], h => absurd h (by simp)
  | n + 1, a :: l, h => by
    rw [replicate_succ, cons_lt_cons_iff]
    rintro (ha | ⟨-, hl⟩)
    · exact absurd ha (by simp)
    · exact not_lt_replicate_zero (Nat.le_of_succ_le_succ h) hl

theorem beBytes_lt_iff : ∀ {n v w : ℕ}, v < 256 ^ n → w < 256 ^ n →
    (beBytes n v < beBytes n w ↔ v < w)
  | 0, v, w, hv, hw => by
    rw [pow_zero] at hv hw
    have hvw : ¬ v < w := by omega
    simp [beBytes, hvw]
  | n + 1, v, w, hv, hw => by
    rw [pow_succ] at hv hw
    have hv' : v / 256 < 256 ^ n := Nat.div_lt_of_lt_mul (by omega)
    have hw' : w / 256 < 256 ^ n := Nat.div_lt_of_lt_mul (by omega)
    have hlast : [UInt8.ofNat v] < [UInt8.ofNat w] ↔ v % 256 < w % 256 := by
      rw [cons_lt_cons_iff, UInt8.lt_iff_toNat_lt]
      simp
    have hfront : beBytes n (v / 256) = beBytes n (w / 256) ↔ v / 256 = w / 256 :=
      ⟨beBytes_inj hv' hw', fun h => by rw [h]⟩
    rw [beBytes, beBytes, append_lt_append_iff (by simp), beBytes_lt_iff hv' hw', hfront, hlast]
    omega

/-- A number in front, between `v` followed by `l` and `v + 1` followed by `m`: it is `v` and what
follows is not before `l`, or it is `v + 1` and what follows is before `m`. -/
theorem between_iff {n u v : ℕ} (hu : u < 256 ^ n) (hv : v + 1 < 256 ^ n) {k l m : List UInt8} :
    (¬ beBytes n u ++ k < beBytes n v ++ l ∧ beBytes n u ++ k < beBytes n (v + 1) ++ m) ↔
      (u = v ∧ ¬ k < l) ∨ (u = v + 1 ∧ k < m) := by
  have hfront : ∀ w, w < 256 ^ n → (beBytes n u = beBytes n w ↔ u = w) := fun w hw =>
    ⟨beBytes_inj hu hw, fun h => by rw [h]⟩
  have hv' : v < 256 ^ n := by omega
  rw [append_lt_append_iff (by simp), append_lt_append_iff (by simp), beBytes_lt_iff hu hv',
    beBytes_lt_iff hu hv, hfront v hv', hfront (v + 1) hv]
  by_cases hk : k < l <;> by_cases hm : k < m <;>
    simp only [hk, hm, and_true, and_false, or_false, false_or, iff_false, not_true_eq_false,
      not_false_eq_true] <;>
    omega

/-- A number of two widths: its high part in front of its low part. -/
theorem beBytes_add (i : ℕ) : ∀ (j v : ℕ), beBytes (i + j) v = beBytes i (v / 256 ^ j) ++ beBytes j v
  | 0, v => by simp [beBytes]
  | j + 1, v => by
    rw [← Nat.add_assoc, beBytes, beBytes, beBytes_add i j, Nat.div_div_eq_div_mul, pow_succ',
      append_assoc]

/-- The comparison of byte strings is that of their order. -/
theorem compare_eq_lt_iff : ∀ {l m : List UInt8}, compare l m = .lt ↔ l < m
  | [], [] => by simp
  | [], b :: m => by simp [compare, List.compareLex]
  | a :: l, [] => by simp [compare, List.compareLex]
  | a :: l, b :: m => by
    have hcons : compare (a :: l) (b :: m) = (compare a b).then (compare l m) := List.compareLex_cons_cons
    have ih := compare_eq_lt_iff (l := l) (m := m)
    rw [hcons, Ordering.then_eq_lt, ih, cons_lt_cons_iff]
    simp [Std.compare_eq_lt]

end MailServer.Lib
