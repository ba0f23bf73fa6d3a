import MailServer.Lib.Loop
import MailServer.Lib.Wildcards
import Mathlib.Algebra.Order.Ring.Nat
import Mathlib.Data.List.TakeWhile

/-!
# Glob patterns (`utils/src/glob.rs`)

* `GlobPattern.compile`, `GlobPattern.tryCompile`: a pattern from its text, in which `\` takes the next character
  literally.
* `GlobPattern.step`, `GlobPattern.matches`: the test.  It keeps one place to go back to, the last `*` it has seen.
* `Scan.Inv`: what the places say of the answer at any point.
* `GlobPattern.matches_iff`: the test is that of the pattern's language, and it ends.
-/

namespace MailServer.Utils

open List

open MailServer.Lib (Token loop loop_of_rank)
open MailServer.Lib.Token (Covers)

/-- `char::is_uppercase`, `char::to_lowercase` and `str::to_lowercase`. -/
structure Casing where
  isUppercase : Char → Bool
  toLowercase : Char → List Char
  strToLowercase : List Char → List Char

inductive PatternChar where
  | wildcardMany (num matchPos : ℕ)
  | wildcardSingle (matchPos : ℕ)
  | char (char : Char) (matchPos : ℕ)
  deriving DecidableEq

structure GlobPattern where
  pattern : List PatternChar
  toLower : Bool
  deriving DecidableEq

namespace GlobPattern

/-! ## Compiling -/

/-- The loop of `compile`, from a character on. -/
def compileFrom (cs : Casing) (toLower : Bool) : Bool → List Char → List PatternChar
  | _, [] => []
  | isEscaped, ch :: str =>
    if ch = '*' ∧ !isEscaped then
      have : (str.dropWhile (· == '*')).length < str.length + 1 :=
        Nat.lt_succ_of_le (dropWhile_suffix _).length_le
      -- the inner loop takes the whole run
      .wildcardMany (1 + (str.takeWhile (· == '*')).length) 0 ::
        compileFrom cs toLower isEscaped (str.dropWhile (· == '*'))
    else if ch = '?' ∧ !isEscaped then .wildcardSingle 0 :: compileFrom cs toLower isEscaped str
    else if ch = '\\' ∧ !isEscaped then compileFrom cs toLower true str
    else
      (if toLower && cs.isUppercase ch then (cs.toLowercase ch).map (.char · 0) else [.char ch 0]) ++
        compileFrom cs toLower false str
termination_by _ str => str.length

def compile (cs : Casing) (pattern : List Char) (toLower : Bool) : GlobPattern where
  pattern := compileFrom cs toLower false pattern
  toLower := toLower

/-- What `try_compile` knows of the characters so far. -/
structure Detected where
  lastCh : Char
  hasEscape : Bool
  isGlob : Bool

def detect (d : Detected) (ch : Char) : Detected where
  lastCh := ch
  hasEscape := d.hasEscape || ch == '\\'
  isGlob := d.isGlob || (ch == '*' || ch == '?') && d.lastCh != '\\'

def detected (pattern : List Char) : Detected :=
  pattern.foldl detect ⟨'\x00', false, false⟩

/-- A pattern, or the text of an entry. -/
def tryCompile (cs : Casing) (pattern : List Char) (toLower : Bool) : Except (List Char) GlobPattern :=
  if (detected pattern).isGlob then .ok (compile cs pattern toLower)
  else .error (if (detected pattern).hasEscape then pattern.filter (· != '\\') else pattern)

/-! ## The test -/

/-- The variables of the loop. -/
structure Scan where
  px : ℕ
  nx : ℕ
  nextPx : ℕ
  nextNx : ℕ

/-- Back to the last `*`, which takes one character more. -/
def retry (value : List Char) (s : Scan) : Scan ⊕ Bool :=
  if 0 < s.nextNx ∧ s.nextNx ≤ value.length then .inl { s with px := s.nextPx, nx := s.nextNx } else .inr false

def step (pattern : List PatternChar) (value : List Char) (s : Scan) : Scan ⊕ Bool :=
  if s.px < pattern.length ∨ s.nx < value.length then
    match pattern[s.px]? with
    | some (.char ch _) =>
      if value[s.nx]? = some ch then .inl { s with px := s.px + 1, nx := s.nx + 1 } else retry value s
    | some (.wildcardSingle _) =>
      if s.nx < value.length then .inl { s with px := s.px + 1, nx := s.nx + 1 } else retry value s
    | some (.wildcardMany _ _) => .inl { px := s.px + 1, nx := s.nx, nextPx := s.px, nextNx := s.nx + 1 }
    | none => retry value s
  else .inr true

variable (cs : Casing) (g : GlobPattern) (value : List Char)

/-- The characters that the test looks at. -/
def chars : List Char :=
  if g.toLower then cs.strToLowercase value else value

/-- The test, if it ends within so many turns of the loop. -/
def run (fuel : ℕ) : Option Bool :=
  loop (step g.pattern (g.chars cs value)) fuel ⟨0, 0, 0, 0⟩

/-- As many turns as the loop can take. -/
def turns : ℕ :=
  (2 * (g.chars cs value).length + 4) * (g.pattern.length + 2)

def «matches» : Bool :=
  g.run cs value (g.turns cs value) == some true

end GlobPattern

/-! ## The language of a pattern -/

def PatternChar.token : PatternChar → Token Char
  | .wildcardMany _ _ => .many
  | .wildcardSingle _ => .one
  | .char ch _ => .char ch

def GlobPattern.tokens (pattern : List PatternChar) : List (Token Char) :=
  pattern.map PatternChar.token

namespace GlobPattern

variable {pattern : List PatternChar} {value : List Char} {s : Scan}

theorem drop_of_getElem? {α : Type*} {l : List α} {i : ℕ} {a : α} (h : l[i]? = some a) :
    l.drop i = a :: l.drop (i + 1) := by
  obtain ⟨hi, rfl⟩ := List.getElem?_eq_some_iff.mp h
  exact drop_eq_getElem_cons hi

theorem drop_tokens {i : ℕ} {pc : PatternChar} (h : pattern[i]? = some pc) :
    (tokens pattern).drop i = pc.token :: (tokens pattern).drop (i + 1) := by
  refine drop_of_getElem? ?_
  rw [tokens, getElem?_map, h, Option.map_some]

/-- Where the scan is since the last `*`: it goes back there, or everything behind it has taken one character. -/
def Scan.Since (ts : List (Token Char)) (s : Scan) : Prop :=
  (s.px = s.nextPx ∧ s.nx = s.nextNx ∧ ∃ rest, ts.drop s.px = .many :: rest) ∨
    ∃ fixed, ts.drop s.nextPx = .many :: (fixed ++ ts.drop s.px) ∧ .many ∉ fixed ∧
      s.px = s.nextPx + 1 + fixed.length ∧ s.nx + 1 = s.nextNx + fixed.length

/-- The answer is yes if it is yes from here, or from the last `*` with one character more. -/
structure Scan.Inv (ts : List (Token Char)) (w : List Char) (s : Scan) : Prop where
  px_le : s.px ≤ ts.length
  nx_le : s.nx ≤ w.length
  decides : Covers ts w ↔ Covers (ts.drop s.px) (w.drop s.nx) ∨
    (0 < s.nextNx ∧ s.nextNx ≤ w.length) ∧ Covers (ts.drop s.nextPx) (w.drop s.nextNx)
  since : 0 < s.nextNx → s.Since ts

/-- Twice the ways to go back that are left, and one until the last is taken. -/
def Scan.tries (w : List Char) (s : Scan) : ℕ :=
  2 * (w.length + 1 - s.nextNx) + if s.nextNx = 0 ∨ s.nextPx < s.px then 1 else 0

def Scan.rank (ts : List (Token Char)) (w : List Char) (s : Scan) : ℕ :=
  s.tries w * (ts.length + 2) + (ts.length + 1 - s.px)

variable {ts : List (Token Char)} {w : List Char} {t : Token Char}

theorem rank_lt_of_tries {s' : Scan} (h : s'.tries w < s.tries w) : s'.rank ts w < s.rank ts w := by
  have hmul : (s'.tries w + 1) * (ts.length + 2) ≤ s.tries w * (ts.length + 2) := Nat.mul_le_mul_right _ h
  rw [Nat.add_mul] at hmul
  show s'.tries w * (ts.length + 2) + (ts.length + 1 - s'.px) < s.tries w * (ts.length + 2) + (ts.length + 1 - s.px)
  omega

theorem rank_lt_of_px {s' : Scan} (h : s'.tries w ≤ s.tries w) (hpx : s.px < s'.px) (hle : s'.px ≤ ts.length) :
    s'.rank ts w < s.rank ts w := by
  have hmul : s'.tries w * (ts.length + 2) ≤ s.tries w * (ts.length + 2) := Nat.mul_le_mul_right _ h
  show s'.tries w * (ts.length + 2) + (ts.length + 1 - s'.px) < s.tries w * (ts.length + 2) + (ts.length + 1 - s.px)
  omega

theorem px_lt_of_drop {rest : List (Token Char)} (h : ts.drop s.px = t :: rest) : s.px < ts.length := by
  by_contra hge
  rw [drop_eq_nil_of_le (by omega)] at h
  cases h

theorem Scan.Inv.advance (hs : s.Inv ts w) (ht : ts.drop s.px = t :: ts.drop (s.px + 1)) (hmany : t ≠ .many)
    (hnx : s.nx < w.length)
    (hcovers : Covers (ts.drop s.px) (w.drop s.nx) ↔ Covers (ts.drop (s.px + 1)) (w.drop (s.nx + 1))) :
    ({ s with px := s.px + 1, nx := s.nx + 1 } : Scan).Inv ts w ∧
      ({ s with px := s.px + 1, nx := s.nx + 1 } : Scan).rank ts w < s.rank ts w := by
  have hpx := px_lt_of_drop ht
  have hsince : 0 < s.nextNx → ∃ fixed, ts.drop s.nextPx = .many :: (fixed ++ ts.drop s.px) ∧ .many ∉ fixed ∧
      s.px = s.nextPx + 1 + fixed.length ∧ s.nx + 1 = s.nextNx + fixed.length := by
    intro hpos
    rcases hs.since hpos with ⟨-, -, rest, hrest⟩ | h
    · exact absurd (List.cons.inj (ht.symm.trans hrest)).1 hmany
    · exact h
  refine ⟨⟨hpx, hnx, hs.decides.trans (or_congr_left hcovers), fun hpos => ?_⟩, rank_lt_of_px ?_ (Nat.lt_succ_self _) hpx⟩
  · obtain ⟨fixed, hdrop, hfixed, hlen, hnum⟩ := hsince hpos
    refine .inr ⟨fixed ++ [t], ?_, ?_, ?_, ?_⟩
    · rw [hdrop, ht, append_assoc, singleton_append]
    · rw [mem_append, mem_singleton, not_or]
      exact ⟨hfixed, hmany.symm⟩
    · rw [length_append]
      show s.px + 1 = s.nextPx + 1 + (fixed.length + 1)
      omega
    · rw [length_append]
      show s.nx + 1 + 1 = s.nextNx + (fixed.length + 1)
      omega
  · show 2 * (w.length + 1 - s.nextNx) + (if s.nextNx = 0 ∨ s.nextPx < s.px + 1 then 1 else 0) ≤
      2 * (w.length + 1 - s.nextNx) + (if s.nextNx = 0 ∨ s.nextPx < s.px then 1 else 0)
    rcases Nat.eq_zero_or_pos s.nextNx with h0 | hpos
    · rw [if_pos (.inl h0), if_pos (.inl h0)]
    · rw [if_pos (.inr (by omega)), if_pos (.inr (by omega))]

/-- **Earlier places are never needed again:** from the next `*` on, everything that the last one could still give is
among what the next one gives. -/
theorem Scan.Inv.covers_of_next (hs : s.Inv ts w) (ht : ts.drop s.px = .many :: ts.drop (s.px + 1)) :
    Covers ts w ↔ Covers (ts.drop s.px) (w.drop s.nx) := by
  refine hs.decides.trans ⟨?_, .inl⟩
  rintro (h | ⟨⟨hpos, hle⟩, h⟩)
  · exact h
  · rcases hs.since hpos with ⟨hpx, hnx, -⟩ | ⟨fixed, hdrop, hfixed, -, hnum⟩
    · rw [hpx, hnx]
      exact h
    · rw [hdrop, ht] at h
      have hlater := h.later hfixed
      rw [drop_drop, ← hnum] at hlater
      rw [ht]
      -- the character that the next place gives back
      have hsuffix : w.drop (s.nx + 1) <:+ w.drop s.nx := by
        rw [← drop_drop]
        exact drop_suffix _ _
      obtain ⟨v, hv⟩ := hsuffix
      rw [← hv]
      exact hlater.skip v

theorem Scan.Inv.star (hs : s.Inv ts w) (ht : ts.drop s.px = .many :: ts.drop (s.px + 1)) :
    (⟨s.px + 1, s.nx, s.px, s.nx + 1⟩ : Scan).Inv ts w ∧
      (⟨s.px + 1, s.nx, s.px, s.nx + 1⟩ : Scan).rank ts w < s.rank ts w := by
  have hpx := px_lt_of_drop ht
  have hnx := hs.nx_le
  refine ⟨⟨hpx, hnx, ?_, fun _ => .inr ⟨[], ?_, not_mem_nil, rfl, rfl⟩⟩, ?_⟩
  · rw [hs.covers_of_next ht, ht, Token.covers_many_iff, tail_drop]
    refine or_congr_right (and_congr_left fun _ => ?_)
    rw [ne_eq, drop_eq_nil_iff]
    show ¬ w.length ≤ s.nx ↔ 0 < s.nx + 1 ∧ s.nx + 1 ≤ w.length
    omega
  · exact ht
  · have hnew : (⟨s.px + 1, s.nx, s.px, s.nx + 1⟩ : Scan).tries w = 2 * (w.length - s.nx) + 1 := by
      rw [Scan.tries, if_pos (.inr (Nat.lt_succ_self _))]
      show 2 * (w.length + 1 - (s.nx + 1)) + 1 = _
      omega
    rcases Nat.eq_zero_or_pos s.nextNx with h0 | hpos
    · refine rank_lt_of_tries ?_
      rw [hnew, Scan.tries]
      omega
    · rcases hs.since hpos with ⟨hpx', hnx', -⟩ | ⟨fixed, -, -, hlen, hnum⟩
      · refine rank_lt_of_tries ?_
        rw [hnew, Scan.tries]
        omega
      · refine rank_lt_of_px ?_ (Nat.lt_succ_self _) hpx
        rw [hnew, Scan.tries, if_pos (.inr (by omega))]
        omega

theorem Scan.Inv.retry (hs : s.Inv ts w) (hmany : ∀ rest, ts.drop s.px ≠ .many :: rest)
    (hno : ¬ Covers (ts.drop s.px) (w.drop s.nx)) (hnext : 0 < s.nextNx ∧ s.nextNx ≤ w.length) :
    ({ s with px := s.nextPx, nx := s.nextNx } : Scan).Inv ts w ∧
      ({ s with px := s.nextPx, nx := s.nextNx } : Scan).rank ts w < s.rank ts w := by
  rcases hs.since hnext.1 with ⟨-, -, rest, hrest⟩ | ⟨fixed, hdrop, -, hlen, -⟩
  · exact absurd hrest (hmany rest)
  · have hpx := hs.px_le
    refine ⟨⟨?_, hnext.2, ?_, fun _ => .inl ⟨rfl, rfl, _, hdrop⟩⟩, rank_lt_of_tries ?_⟩
    · show s.nextPx ≤ ts.length
      omega
    · refine hs.decides.trans ?_
      rw [or_iff_right hno, and_iff_right hnext, or_self]
    · show 2 * (w.length + 1 - s.nextNx) + (if s.nextNx = 0 ∨ s.nextPx < s.nextPx then 1 else 0) <
        2 * (w.length + 1 - s.nextNx) + (if s.nextNx = 0 ∨ s.nextPx < s.px then 1 else 0)
      rw [if_neg (by omega), if_pos (.inr (by omega))]
      omega

theorem Scan.Inv.fail (hs : s.Inv ts w) (hno : ¬ Covers (ts.drop s.px) (w.drop s.nx))
    (hnext : ¬ (0 < s.nextNx ∧ s.nextNx ≤ w.length)) : ¬ Covers ts w := by
  rw [hs.decides]
  rintro (h | ⟨h, -⟩)
  · exact hno h
  · exact hnext h

theorem Scan.Inv.of_retry (hs : s.Inv (tokens pattern) value) {r : Scan ⊕ Bool}
    (hmany : ∀ rest, (tokens pattern).drop s.px ≠ .many :: rest)
    (hno : ¬ Covers ((tokens pattern).drop s.px) (value.drop s.nx)) (hr : GlobPattern.retry value s = r) :
    (∀ s', r = .inl s' → s'.Inv (tokens pattern) value ∧ s'.rank (tokens pattern) value < s.rank (tokens pattern) value) ∧
      ∀ b, r = .inr b → (b = true ↔ Covers (tokens pattern) value) := by
  subst hr
  unfold GlobPattern.retry
  by_cases hnext : 0 < s.nextNx ∧ s.nextNx ≤ value.length
  · rw [if_pos hnext]
    refine ⟨fun s' h => ?_, fun b h => by cases h⟩
    obtain rfl := Sum.inl.inj h
    exact hs.retry hmany hno hnext
  · rw [if_neg hnext]
    refine ⟨fun s' h => by (cases h), fun b h => ?_⟩
    obtain rfl := Sum.inr.inj h
    exact iff_of_false Bool.false_ne_true (hs.fail hno hnext)

/-- **One turn of the loop.** -/
theorem Scan.Inv.step (hs : s.Inv (tokens pattern) value) :
    (∀ s', GlobPattern.step pattern value s = .inl s' →
      s'.Inv (tokens pattern) value ∧ s'.rank (tokens pattern) value < s.rank (tokens pattern) value) ∧
      ∀ b, GlobPattern.step pattern value s = .inr b → (b = true ↔ Covers (tokens pattern) value) := by
  unfold GlobPattern.step
  by_cases hmore : s.px < pattern.length ∨ s.nx < value.length
  · rw [if_pos hmore]
    cases hpc : pattern[s.px]? with
    | none =>
      -- the pattern has ended before the text
      have hend : (tokens pattern).drop s.px = [] := by
        rw [tokens, drop_eq_nil_iff, length_map]
        exact List.getElem?_eq_none_iff.mp hpc
      have hlen := List.getElem?_eq_none_iff.mp hpc
      refine hs.of_retry (fun rest h => ?_) ?_ rfl
      · rw [hend] at h
        cases h
      · rw [hend, Token.covers_nil, drop_eq_nil_iff]
        omega
    | some pc =>
      have hdrop := drop_tokens hpc
      cases pc with
      | wildcardMany num matchPos =>
        refine ⟨fun s' h => ?_, fun b h => by cases h⟩
        obtain rfl := Sum.inl.inj h
        exact hs.star hdrop
      | wildcardSingle matchPos =>
        have hne : PatternChar.token (.wildcardSingle matchPos) ≠ .many := by intro h; cases h
        by_cases hlt : s.nx < value.length
        · rw [if_pos hlt]
          refine ⟨fun s' h => ?_, fun b h => by cases h⟩
          obtain rfl := Sum.inl.inj h
          refine hs.advance hdrop hne hlt ?_
          rw [hdrop, drop_eq_getElem_cons hlt]
          exact Token.covers_one_cons
        · rw [if_neg hlt]
          refine hs.of_retry (fun rest h => hne (List.cons.inj (hdrop.symm.trans h)).1) ?_ rfl
          rw [hdrop, drop_eq_nil_of_le (show value.length ≤ s.nx by omega)]
          exact Token.not_covers_one_nil
      | char ch matchPos =>
        have hne : PatternChar.token (.char ch matchPos) ≠ .many := by intro h; cases h
        dsimp only
        by_cases hch : value[s.nx]? = some ch
        · rw [if_pos hch]
          refine ⟨fun s' h => ?_, fun b h => by cases h⟩
          obtain rfl := Sum.inl.inj h
          refine hs.advance hdrop hne (List.getElem?_eq_some_iff.mp hch).1 ?_
          rw [hdrop, drop_of_getElem? hch]
          exact Token.covers_char_cons.trans (and_iff_right rfl)
        · rw [if_neg hch]
          refine hs.of_retry (fun rest h => hne (List.cons.inj (hdrop.symm.trans h)).1) ?_ rfl
          rw [hdrop]
          rintro ⟨w', hw, -⟩
          refine hch ?_
          rw [← head?_drop, hw, head?_cons]
  · rw [if_neg hmore]
    refine ⟨fun s' h => by (cases h), fun b h => ?_⟩
    obtain rfl := Sum.inr.inj h
    refine iff_of_true rfl (hs.decides.mpr (.inl ?_))
    rw [tokens, drop_eq_nil_of_le (by rw [length_map]; omega), drop_eq_nil_of_le (by omega)]
    rfl

theorem Scan.inv_start (ts : List (Token Char)) (w : List Char) : Scan.Inv ts w ⟨0, 0, 0, 0⟩ where
  px_le := Nat.zero_le _
  nx_le := Nat.zero_le _
  decides := (or_iff_left fun h => Nat.lt_irrefl 0 h.1.1).symm
  since h := absurd h (Nat.lt_irrefl 0)

variable (cs : Casing) (g : GlobPattern) (value : List Char)

/-- **The test ends, and decides the language of the pattern.** -/
theorem run_spec : ∃ b, (∀ fuel, g.turns cs value ≤ fuel → g.run cs value fuel = some b) ∧
    (b = true ↔ Covers (tokens g.pattern) (g.chars cs value)) := by
  obtain ⟨b, hb, hloop⟩ := loop_of_rank (fun b => b = true ↔ Covers (tokens g.pattern) (g.chars cs value))
    (fun s s' hs h => (Scan.Inv.step hs).1 s' h) (fun s b hs h => (Scan.Inv.step hs).2 b h)
    (Scan.inv_start (tokens g.pattern) (g.chars cs value))
  have hturn (a p : ℕ) : a * (p + 2) + (p + 1) < (a + 1) * (p + 2) := by
    rw [Nat.succ_mul]
    omega
  refine ⟨b, fun fuel hfuel => hloop fuel (Nat.lt_of_lt_of_le ?_ hfuel), hb⟩
  have hlen : (tokens g.pattern).length = g.pattern.length := length_map _
  show (2 * ((g.chars cs value).length + 1) + 1) * ((tokens g.pattern).length + 2) + ((tokens g.pattern).length + 1) <
    (2 * ((g.chars cs value).length + 1) + 1 + 1) * (g.pattern.length + 2)
  rw [hlen]
  exact hturn _ _

theorem matches_iff : g.matches cs value = true ↔ Covers (tokens g.pattern) (g.chars cs value) := by
  obtain ⟨b, hb, hiff⟩ := run_spec cs g value
  rw [GlobPattern.matches, hb _ (Nat.le_refl _), beq_iff_eq, Option.some.injEq]
  exact hiff

/-- **The test of any pattern ends on any text, with the answer of the pattern's language:** `*` for any text, `?` for
one character, every other character for itself. -/
theorem decides_language : (∃ least, ∀ fuel, least ≤ fuel → g.run cs value fuel = some (g.matches cs value)) ∧
    (g.matches cs value = true ↔ Covers (tokens g.pattern) (g.chars cs value)) := by
  obtain ⟨b, hb, -⟩ := run_spec cs g value
  refine ⟨⟨g.turns cs value, fun fuel hfuel => ?_⟩, matches_iff cs g value⟩
  rw [hb fuel hfuel, GlobPattern.matches, hb _ (Nat.le_refl _)]
  cases b <;> rfl

/-! ## What compiling reads -/

/-- The tokens of a text, a run of `*` not yet taken together. -/
def reads : Bool → List Char → List (Token Char)
  | _, [] => []
  | isEscaped, ch :: str =>
    if ch = '*' ∧ !isEscaped then .many :: reads isEscaped str
    else if ch = '?' ∧ !isEscaped then .one :: reads isEscaped str
    else if ch = '\\' ∧ !isEscaped then reads true str
    else .char ch :: reads false str

theorem reads_star (str : List Char) : reads false ('*' :: str) = .many :: reads false str := rfl

theorem reads_escape (str : List Char) : reads false ('\\' :: str) = reads true str := rfl

theorem reads_escaped (ch : Char) (str : List Char) : reads true (ch :: str) = .char ch :: reads false str := by
  rw [reads, if_neg (by simp), if_neg (by simp), if_neg (by simp)]

theorem reads_char {ch : Char} (hstar : ch ≠ '*') (hany : ch ≠ '?') (hescape : ch ≠ '\\') (str : List Char) :
    reads false (ch :: str) = .char ch :: reads false str := by
  rw [reads, if_neg (by simp [hstar]), if_neg (by simp [hany]), if_neg (by simp [hescape])]

theorem covers_run (str : List Char) (w : List Char) :
    Covers (.many :: reads false (str.dropWhile (· == '*'))) w ↔ Covers (.many :: reads false str) w := by
  induction str with
  | nil => rfl
  | cons ch str ih =>
    by_cases hch : ch = '*'
    · subst hch
      rw [reads_star, Token.covers_many_many]
      exact ih
    · rw [dropWhile_cons_of_neg (by simpa using hch)]

theorem covers_compileFrom (isEscaped : Bool) (p : List Char) (w : List Char) :
    Covers (tokens (compileFrom cs false isEscaped p)) w ↔ Covers (reads isEscaped p) w := by
  induction isEscaped, p using compileFrom.induct generalizing w with
  | case1 => rw [compileFrom]; rfl
  | case2 isEscaped ch str h _ ih =>
    obtain ⟨rfl, hesc⟩ := h
    obtain rfl : isEscaped = false := by simpa using hesc
    rw [compileFrom]
    exact (Token.covers_many_congr ih w).trans (covers_run str w)
  | case3 isEscaped ch str h1 h ih =>
    obtain ⟨rfl, hesc⟩ := h
    obtain rfl : isEscaped = false := by simpa using hesc
    rw [compileFrom]
    exact exists_congr fun _ => exists_congr fun w' => and_congr_right fun _ => ih w'
  | case4 isEscaped ch str h1 h2 h ih =>
    obtain ⟨rfl, hesc⟩ := h
    obtain rfl : isEscaped = false := by simpa using hesc
    rw [compileFrom]
    exact ih w
  | case5 isEscaped ch str h1 h2 h3 ih =>
    rw [compileFrom, if_neg h1, if_neg h2, if_neg h3, reads, if_neg h1, if_neg h2, if_neg h3]
    exact exists_congr fun w' => and_congr_right fun _ => ih w'

theorem matches_compile (p v : List Char) : (compile cs p false).matches cs v = true ↔ Covers (reads false p) v :=
  (matches_iff cs _ v).trans (covers_compileFrom cs false p v)

end GlobPattern

end MailServer.Utils
