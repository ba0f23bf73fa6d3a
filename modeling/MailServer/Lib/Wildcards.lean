import Mathlib.Data.List.Basic

/-!
# Patterns with wildcards

A pattern is a list of tokens over any alphabet: a letter, a place for one letter, or a place for any word.

* `Covers.skip`: what comes before a place for any word may be longer than it is.
* `covers_chars_append`: letters stand for themselves.
* `least`: a shortest word; `Covers.letters`: every word has the letters of the pattern.
-/

namespace MailServer.Lib

open List

inductive Token (α : Type*)
  | many
  | one
  | char (a : α)
deriving DecidableEq

namespace Token

variable {α : Type*} {ts : List (Token α)} {w : List α}

/-- The words of a pattern. -/
def Covers : List (Token α) → List α → Prop
  | [], w => w = []
  | many :: ts, w => ∃ v w', w = v ++ w' ∧ Covers ts w'
  | one :: ts, w => ∃ a w', w = a :: w' ∧ Covers ts w'
  | char a :: ts, w => ∃ w', w = a :: w' ∧ Covers ts w'

@[simp] theorem covers_nil : Covers [] w ↔ w = [] := Iff.rfl

@[simp] theorem covers_char_cons {a b : α} : Covers (char a :: ts) (b :: w) ↔ a = b ∧ Covers ts w := by
  constructor
  · rintro ⟨w', heq, h⟩
    obtain ⟨rfl, rfl⟩ := List.cons.inj heq
    exact ⟨rfl, h⟩
  · rintro ⟨rfl, h⟩
    exact ⟨w, rfl, h⟩

@[simp] theorem covers_one_cons {b : α} : Covers (one :: ts) (b :: w) ↔ Covers ts w := by
  constructor
  · rintro ⟨a, w', heq, h⟩
    obtain ⟨rfl, rfl⟩ := List.cons.inj heq
    exact h
  · exact fun h => ⟨b, w, rfl, h⟩

@[simp] theorem not_covers_one_nil : ¬ Covers (one :: ts) ([] : List α) := by
  rintro ⟨a, w', heq, -⟩
  cases heq

/-- Letters may be put before a word that a place for any word begins. -/
theorem Covers.skip (h : Covers (many :: ts) w) (v : List α) : Covers (many :: ts) (v ++ w) := by
  obtain ⟨u, w', rfl, h⟩ := h
  exact ⟨v ++ u, w', (append_assoc ..).symm, h⟩

theorem Covers.many (h : Covers ts w) : Covers (many :: ts) w := ⟨[], w, rfl, h⟩

/-- A place for any word is left empty, or takes the first letter. -/
theorem covers_many_iff : Covers (many :: ts) w ↔ Covers ts w ∨ (w ≠ [] ∧ Covers (many :: ts) w.tail) := by
  constructor
  · rintro ⟨v, w', rfl, h⟩
    match v with
    | [] => exact .inl h
    | _ :: v => exact .inr ⟨cons_ne_nil _ _, v, w', rfl, h⟩
  · rintro (h | ⟨hne, h⟩)
    · exact h.many
    · obtain ⟨a, w, rfl⟩ := exists_cons_of_ne_nil hne
      exact h.skip [a]

variable {fixed : List (Token α)} {p : List α}

/-- A part without places for any word takes as many letters as it has tokens. -/
theorem Covers.drop_fixed (hfixed : Token.many ∉ fixed) (h : Covers (fixed ++ ts) w) :
    fixed.length ≤ w.length ∧ Covers ts (w.drop fixed.length) := by
  induction fixed generalizing w with
  | nil => exact ⟨Nat.zero_le _, h⟩
  | cons t fixed ih =>
    rw [mem_cons, not_or] at hfixed
    obtain ⟨ht, hrest⟩ := hfixed
    have hcons : ∃ a w', w = a :: w' ∧ Covers (fixed ++ ts) w' := by
      cases t with
      | many => exact absurd rfl ht
      | one => exact h
      | char a =>
        obtain ⟨w', heq, h⟩ := h
        exact ⟨a, w', heq, h⟩
    obtain ⟨a, w, rfl, h'⟩ := hcons
    obtain ⟨hlen, hcovers⟩ := ih hrest h'
    exact ⟨Nat.succ_le_succ hlen, hcovers⟩

/-- **Earlier places need not be tried again:** a word that is covered from a place for any word on, over a part without
such places, is covered from the next one on, as soon as that part has been passed. -/
theorem Covers.later (hfixed : Token.many ∉ fixed)
    (h : Covers (Token.many :: (fixed ++ Token.many :: ts)) w) :
    Covers (Token.many :: ts) (w.drop fixed.length) := by
  obtain ⟨v, w', rfl, h⟩ := h
  obtain ⟨hlen, h⟩ := h.drop_fixed hfixed
  have hsuffix : w'.drop fixed.length <:+ (v ++ w').drop fixed.length := by
    refine suffix_of_suffix_length_le ((drop_suffix _ w').trans (suffix_append v w'))
      (drop_suffix _ _) ?_
    rw [length_drop, length_drop, length_append]
    omega
  obtain ⟨u, hu⟩ := hsuffix
  rw [← hu]
  exact h.skip u

theorem covers_many_congr {ts' : List (Token α)} (h : ∀ w, Covers ts w ↔ Covers ts' w) (w : List α) :
    Covers (many :: ts) w ↔ Covers (many :: ts') w :=
  exists_congr fun _ => exists_congr fun w' => and_congr_right fun _ => h w'

/-- Of two places for any word one would do. -/
theorem covers_many_many : Covers (many :: many :: ts) w ↔ Covers (many :: ts) w := by
  constructor
  · rintro ⟨v, w', rfl, h⟩
    exact h.skip v
  · exact Covers.many

theorem covers_chars_append : Covers (p.map char ++ ts) w ↔ ∃ w', w = p ++ w' ∧ Covers ts w' := by
  induction p generalizing w with
  | nil => simp
  | cons a p ih =>
    show (∃ w', w = a :: w' ∧ Covers (p.map char ++ ts) w') ↔ _
    simp only [ih]
    constructor
    · rintro ⟨-, rfl, w', rfl, h⟩
      exact ⟨w', rfl, h⟩
    · rintro ⟨w', rfl, h⟩
      exact ⟨p ++ w', rfl, w', rfl, h⟩

/-- The word of a pattern without places. -/
theorem covers_chars : Covers (p.map char) w ↔ w = p := by
  rw [← append_nil (p.map char), covers_chars_append]
  simp

/-- A place for any word behind letters. -/
theorem covers_chars_many : Covers (p.map char ++ [many]) w ↔ p <+: w := by
  rw [covers_chars_append]
  constructor
  · rintro ⟨w', rfl, -⟩
    exact prefix_append p w'
  · rintro ⟨w', rfl⟩
    exact ⟨w', rfl, w', [], (append_nil w').symm, rfl⟩

/-- A place for any word before letters. -/
theorem covers_many_chars : Covers (many :: p.map char) w ↔ p <:+ w := by
  constructor
  · rintro ⟨v, w', rfl, h⟩
    rw [covers_chars.1 h]
    exact suffix_append v p
  · rintro ⟨v, rfl⟩
    exact ⟨v, p, rfl, covers_chars.2 rfl⟩

/-- A shortest word, with `x` for the single letters. -/
def least (x : α) : List (Token α) → List α
  | [] => []
  | many :: ts => least x ts
  | one :: ts => x :: least x ts
  | char a :: ts => a :: least x ts

theorem covers_least (x : α) (ts : List (Token α)) : Covers ts (least x ts) := by
  induction ts with
  | nil => rfl
  | cons t ts ih =>
    cases t with
    | many => exact ih.many
    | one => exact ⟨x, _, rfl, ih⟩
    | char a => exact ⟨_, rfl, ih⟩

/-- The letters of a pattern. -/
def letters : List (Token α) → List α
  | [] => []
  | char a :: ts => a :: letters ts
  | _ :: ts => letters ts

/-- **Every word has the letters of the pattern**, in their order. -/
theorem Covers.letters (h : Covers ts w) : (Token.letters ts).Sublist w := by
  induction ts generalizing w with
  | nil => exact nil_sublist w
  | cons t ts ih =>
    cases t with
    | many =>
      obtain ⟨v, w', rfl, h⟩ := h
      exact (ih h).trans (sublist_append_right v w')
    | one =>
      obtain ⟨a, w', rfl, h⟩ := h
      exact (ih h).trans (sublist_cons_self a w')
    | char a =>
      obtain ⟨w', rfl, h⟩ := h
      exact (ih h).cons_cons a

end Token

end MailServer.Lib
