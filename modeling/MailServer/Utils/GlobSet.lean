import MailServer.Utils.Glob
import MailServer.Utils.HashMap

/-!
# Shortcuts for glob patterns (`utils/src/glob.rs`)

* `GlobSet`, `GlobMap`: patterns with a wildcard are compiled, the others are kept as texts.
* `MatchType`: patterns with one `*` at an end are tests for a prefix or a suffix.
* `insertPattern_iff`, `parse_iff`: the patterns for which the shortcuts agree with the language.
-/

namespace MailServer.Utils

open List GlobPattern

open MailServer.Lib (Token)
open MailServer.Lib.Token (Covers)
open GlobPattern (tokens reads compile tryCompile detect detected)

structure GlobSet where
  entries : Finset (List Char)
  patterns : List GlobPattern

structure GlobMap (V : Type*) where
  entries : HashMap (List Char) V
  patterns : List (GlobPattern × V)

namespace GlobSet

def new : GlobSet := ⟨∅, []⟩

variable (cs : Casing) (s : GlobSet)

def insertPattern (pattern : List Char) : GlobSet :=
  match tryCompile cs pattern false with
  | .ok glob => { s with patterns := s.patterns ++ [glob] }
  | .error entry => { s with entries := insert entry s.entries }

def insertEntry (entry : List Char) : GlobSet :=
  { s with entries := insert entry s.entries }

def contains (key : List Char) : Bool :=
  key ∈ s.entries || s.patterns.any fun pattern => pattern.matches cs key

end GlobSet

namespace GlobMap

variable {V : Type*}

def new : GlobMap V := ⟨∅, []⟩

variable (cs : Casing) (m : GlobMap V)

def insertPattern (pattern : List Char) (value : V) : GlobMap V :=
  match tryCompile cs pattern false with
  | .ok glob => { m with patterns := m.patterns ++ [(glob, value)] }
  | .error entry => { m with entries := m.entries.insert entry value }

def insertEntry (entry : List Char) (value : V) : GlobMap V :=
  { m with entries := m.entries.insert entry value }

def get (key : List Char) : Option V :=
  m.entries[key]?.or (m.patterns.findSome? fun e => if e.1.matches cs key then some e.2 else none)

end GlobMap

inductive MatchType where
  | equal (pattern : List Char)
  | startsWith (pattern : List Char)
  | endsWith (pattern : List Char)
  | glob (pattern : GlobPattern)
  | all
  deriving DecidableEq

namespace MatchType

def stripSuffix (ch : Char) (value : List Char) : Option (List Char) :=
  if value.getLast? = some ch then some value.dropLast else none

def stripPrefix (ch : Char) (value : List Char) : Option (List Char) :=
  if value.head? = some ch then some value.tail else none

variable (cs : Casing)

def parse (value : List Char) : MatchType :=
  if value = ['*'] then .all
  else
    match stripSuffix '*' value with
    | some value => .startsWith value
    | none =>
      match stripPrefix '*' value with
      | some value => .endsWith value
      | none => if '*' ∈ value then .glob (compile cs value false) else .equal value

def «matches» (value : List Char) : MatchType → Bool
  | .equal pattern => value == pattern
  | .startsWith pattern => pattern.isPrefixOf value
  | .endsWith pattern => pattern.isSuffixOf value
  | .glob pattern => pattern.matches cs value
  | .all => true

end MatchType

/-! ## Sets and maps -/

/-- A character after which `try_compile` sees a wildcard. -/
def globFrom : Char → List Char → Bool
  | _, [] => false
  | lastCh, ch :: pattern => (ch == '*' || ch == '?') && lastCh != '\\' || globFrom ch pattern

/-- Does the pattern have a `*` or `?` that is not directly behind a backslash? -/
def isGlob (pattern : List Char) : Bool :=
  globFrom '\x00' pattern

/-- Does a backslash escape another one? -/
def escapesBackslash : Bool → List Char → Bool
  | _, [] => false
  | isEscaped, ch :: pattern =>
    if ch = '\\' then isEscaped || escapesBackslash true pattern else escapesBackslash false pattern

theorem foldl_detect (d : GlobPattern.Detected) (p : List Char) :
    (p.foldl detect d).isGlob = (d.isGlob || globFrom d.lastCh p) ∧
      (p.foldl detect d).hasEscape = (d.hasEscape || p.contains '\\') := by
  induction p generalizing d with
  | nil => simp [globFrom]
  | cons ch p ih =>
    obtain ⟨hglob, hescape⟩ := ih (detect d ch)
    rw [foldl_cons, hglob, hescape]
    constructor
    · rw [globFrom, ← Bool.or_assoc]
      rfl
    · rw [contains_cons, ← Bool.or_assoc, Bool.beq_comm]
      rfl

theorem tryCompile_eq (cs : Casing) (p : List Char) : tryCompile cs p false =
    if isGlob p then .ok (compile cs p false) else .error (p.filter (· != '\\')) := by
  obtain ⟨hglob, hescape⟩ := foldl_detect ⟨'\x00', false, false⟩ p
  rw [tryCompile, detected, hglob, hescape, Bool.false_or, Bool.false_or]
  refine ite_congr rfl (fun _ => rfl) fun _ => congrArg Except.error ?_
  split_ifs with h
  · rfl
  · rw [filter_eq_self.mpr]
    intro a ha
    rw [contains_iff_mem] at h
    exact bne_iff_ne.mpr fun heq => h (heq ▸ ha)

variable {p : List Char}

theorem reads_of_not_glob (lastCh : Char) (hglob : globFrom lastCh p = false)
    (hescape : escapesBackslash (lastCh == '\\') p = false) :
    reads (lastCh == '\\') p = (p.filter (· != '\\')).map .char := by
  induction p generalizing lastCh with
  | nil => rfl
  | cons ch p ih =>
    rw [globFrom, Bool.or_eq_false_iff] at hglob
    rw [escapesBackslash] at hescape
    have ih := ih ch hglob.2
    by_cases hch : ch = '\\'
    · subst hch
      rw [if_pos rfl, Bool.or_eq_false_iff] at hescape
      rw [hescape.1]
      exact ih hescape.2
    · have hbeq : (ch == '\\') = false := beq_eq_false_iff_ne.mpr hch
      rw [if_neg hch] at hescape
      rw [hbeq] at ih
      have hkept : (ch :: p).filter (· != '\\') = ch :: p.filter (· != '\\') :=
        filter_cons_of_pos (bne_iff_ne.mpr hch)
      rw [hkept, map_cons, ← ih hescape]
      by_cases hlast : lastCh = '\\'
      · rw [beq_iff_eq.mpr hlast]
        exact reads_escaped ch p
      · have hplain : (ch == '*' || ch == '?') = false := by
          simpa [hlast] using hglob.1
        rw [Bool.or_eq_false_iff, beq_eq_false_iff_ne, beq_eq_false_iff_ne] at hplain
        rw [beq_eq_false_iff_ne.mpr hlast]
        exact reads_char hplain.1 hplain.2 hch p

theorem mem_letters_of_escapes {isEscaped : Bool} (h : escapesBackslash isEscaped p = true) :
    '\\' ∈ Token.letters (reads isEscaped p) := by
  induction p generalizing isEscaped with
  | nil => cases h
  | cons ch p ih =>
    rw [escapesBackslash] at h
    cases isEscaped with
    | true =>
      rw [reads_escaped]
      by_cases hch : ch = '\\'
      · exact hch ▸ mem_cons_self
      · rw [if_neg hch] at h
        exact mem_cons_of_mem _ (ih h)
    | false =>
      by_cases hescape : ch = '\\'
      · subst hescape
        exact ih h
      · rw [if_neg hescape] at h
        by_cases hstar : ch = '*'
        · subst hstar
          exact ih h
        · by_cases hany : ch = '?'
          · subst hany
            exact ih h
          · rw [reads_char hstar hany hescape]
            exact mem_cons_of_mem _ (ih h)

/-- **When a text stands for a pattern:** unless a backslash escapes another one. -/
theorem entry_iff (cs : Casing) (hglob : isGlob p = false) :
    (∀ v, v = p.filter (· != '\\') ↔ (compile cs p false).matches cs v = true) ↔ escapesBackslash false p = false := by
  constructor
  · intro h
    by_contra hescape
    rw [Bool.not_eq_false] at hescape
    have hmem := ((matches_compile cs p _).1 ((h _).1 rfl)).letters.mem (mem_letters_of_escapes hescape)
    rw [mem_filter] at hmem
    exact absurd hmem.2 (by decide)
  · intro hescape v
    have hreads : reads false p = _ := reads_of_not_glob '\x00' hglob hescape
    rw [matches_compile, hreads]
    exact Token.covers_chars.symm

/-- The patterns that sets and maps keep as they should. -/
def Kept (p : List Char) : Prop :=
  isGlob p = true ∨ escapesBackslash false p = false

instance (p : List Char) : Decidable (Kept p) := inferInstanceAs (Decidable (_ ∨ _))

variable (cs : Casing)

theorem GlobSet.contains_insertPattern (s : GlobSet) (p v : List Char) :
    (s.insertPattern cs p).contains cs v = true ↔ s.contains cs v = true ∨
      if isGlob p then (compile cs p false).matches cs v = true else v = p.filter (· != '\\') := by
  rw [insertPattern, tryCompile_eq]
  cases isGlob p with
  | true => simp [contains, or_assoc]
  | false =>
    simp only [contains, Finset.mem_insert, Bool.or_eq_true, decide_eq_true_eq, Bool.false_eq_true, if_false]
    rw [or_assoc, or_comm]

theorem GlobMap.isSome_get_insertPattern {V : Type*} (m : GlobMap V) (p : List Char) (value : V) (v : List Char) :
    ((m.insertPattern cs p value).get cs v).isSome ↔ (m.get cs v).isSome ∨
      if isGlob p then (compile cs p false).matches cs v = true else v = p.filter (· != '\\') := by
  rw [insertPattern, tryCompile_eq]
  cases isGlob p with
  | true => simp [get, or_assoc]
  | false =>
    by_cases h : v = p.filter (· != '\\')
    · simp [get, ← h]
    · simp [get, h, Ne.symm h]

/-- **A set contains what its patterns match**, for the kept patterns alone. -/
theorem GlobSet.insertPattern_iff (p : List Char) :
    (∀ (s : GlobSet) v, (s.insertPattern cs p).contains cs v = true ↔
      s.contains cs v = true ∨ (compile cs p false).matches cs v = true) ↔ Kept p := by
  simp only [contains_insertPattern]
  cases hglob : isGlob p with
  | true => exact iff_of_true (fun s v => by rw [if_pos rfl]) (.inl hglob)
  | false =>
    rw [Kept, hglob, or_iff_right Bool.false_ne_true, ← entry_iff cs hglob]
    constructor
    · intro h v
      simpa [contains, new] using h new v
    · intro h s v
      rw [if_neg Bool.false_ne_true, h v]

theorem GlobMap.insertPattern_iff {V : Type*} (p : List Char) (value : V) :
    (∀ (m : GlobMap V) v, ((m.insertPattern cs p value).get cs v).isSome ↔
      (m.get cs v).isSome ∨ (compile cs p false).matches cs v = true) ↔ Kept p := by
  simp only [isSome_get_insertPattern]
  cases hglob : isGlob p with
  | true => exact iff_of_true (fun s v => by rw [if_pos rfl]) (.inl hglob)
  | false =>
    rw [Kept, hglob, or_iff_right Bool.false_ne_true, ← entry_iff cs hglob]
    constructor
    · intro h v
      simpa [get, new] using h new v
    · intro h s v
      rw [if_neg Bool.false_ne_true, h v]

/-! ## Tests for a prefix or a suffix -/

/-- The pattern with `*` for any text and every other character for itself. -/
def stars (p : List Char) : List (Token Char) :=
  p.map fun ch => if ch = '*' then .many else .char ch

theorem letters_stars (p : List Char) :
    Token.letters (stars p) = p.filter (· != '*') ∧ Token.least 'a' (stars p) = p.filter (· != '*') := by
  induction p with
  | nil => exact ⟨rfl, rfl⟩
  | cons ch p ih =>
    by_cases hch : ch = '*'
    · subst hch
      exact ih
    · have hkept : (ch :: p).filter (· != '*') = ch :: p.filter (· != '*') :=
        filter_cons_of_pos (bne_iff_ne.mpr hch)
      rw [hkept, stars, map_cons, if_neg hch]
      exact ih.imp (congrArg (cons ch)) (congrArg (cons ch))

theorem covers_stars_filter (p : List Char) : Covers (stars p) (p.filter (· != '*')) :=
  (letters_stars p).2 ▸ Token.covers_least 'a' (stars p)

theorem stars_plain (h : '*' ∉ p) : stars p = p.map .char :=
  map_congr_left fun ch hch => if_neg fun heq : ch = '*' => h (heq ▸ hch)

/-- The patterns that `MatchType::parse` reads as they should: one `*` at most, and that at an end, or a text with `*`
at neither end whose other characters the compiler takes as they are. -/
def Read (p : List Char) : Prop :=
  '*' ∉ p ∨ (p.getLast? = some '*' ∧ '*' ∉ p.dropLast) ∨ (p.head? = some '*' ∧ '*' ∉ p.tail) ∨
    (p.head? ≠ some '*' ∧ p.getLast? ≠ some '*' ∧ '?' ∉ p ∧ '\\' ∉ p)

instance (p : List Char) : Decidable (Read p) := inferInstanceAs (Decidable (_ ∨ _))

theorem length_least_le (isEscaped : Bool) (p : List Char) :
    (Token.least 'a' (reads isEscaped p)).length ≤ (p.filter (· != '*')).length + isEscaped.toNat := by
  induction p generalizing isEscaped with
  | nil => exact Nat.zero_le _
  | cons ch p ih =>
    have hle : (p.filter (· != '*')).length ≤ ((ch :: p).filter (· != '*')).length :=
      ((sublist_cons_self ch p).filter _).length_le
    cases isEscaped with
    | true =>
      rw [reads_escaped]
      have := ih false
      show (Token.least 'a' (reads false p)).length + 1 ≤ _ + 1
      rw [Bool.toNat_false] at this
      omega
    | false =>
      by_cases hstar : ch = '*'
      · subst hstar
        exact ih false
      · have hkept : ((ch :: p).filter (· != '*')).length = (p.filter (· != '*')).length + 1 := by
          rw [filter_cons_of_pos (by simpa using hstar), length_cons]
        rw [hkept]
        by_cases hany : ch = '?'
        · subst hany
          exact Nat.succ_le_succ (ih false)
        · by_cases hescape : ch = '\\'
          · subst hescape
            exact ih true
          · rw [reads_char hstar hany hescape]
            exact Nat.succ_le_succ (ih false)

theorem plain_of_least (h : Token.least 'a' (reads false p) = p.filter (· != '*')) :
    '?' ∉ p ∧ '\\' ∉ p := by
  induction p with
  | nil => exact ⟨not_mem_nil, not_mem_nil⟩
  | cons ch p ih =>
    by_cases hstar : ch = '*'
    · subst hstar
      obtain ⟨hany, hescape⟩ := ih h
      exact ⟨not_mem_cons_of_ne_of_not_mem (by decide) hany,
        not_mem_cons_of_ne_of_not_mem (by decide) hescape⟩
    · have hkept : (ch :: p).filter (· != '*') = ch :: p.filter (· != '*') :=
        filter_cons_of_pos (bne_iff_ne.mpr hstar)
      rw [hkept] at h
      by_cases hany : ch = '?'
      · subst hany
        exact absurd (List.cons.inj h).1 (by decide)
      · by_cases hescape : ch = '\\'
        · -- the escaped character would have to be a backslash, and the rest is too short for it
          subst hescape
          rw [reads_escape] at h
          cases p with
          | nil => cases h
          | cons d p =>
            rw [reads_escaped] at h
            obtain ⟨hd, h⟩ := List.cons.inj h
            have hlen := length_least_le false p
            rw [h, hd, filter_cons_of_pos (by decide), length_cons, Bool.toNat_false] at hlen
            omega
        · rw [reads_char hstar hany hescape] at h
          obtain ⟨h1, h2⟩ := ih (List.cons.inj h).2
          exact ⟨not_mem_cons_of_ne_of_not_mem (Ne.symm hany) h1,
            not_mem_cons_of_ne_of_not_mem (Ne.symm hescape) h2⟩

theorem reads_plain (hany : '?' ∉ p) (hescape : '\\' ∉ p) : reads false p = stars p := by
  induction p with
  | nil => rfl
  | cons ch p ih =>
    rw [mem_cons, not_or] at hany hescape
    have ih := ih hany.2 hescape.2
    by_cases hstar : ch = '*'
    · subst hstar
      rw [reads_star, ih]
      rfl
    · rw [reads_char hstar (Ne.symm hany.1) (Ne.symm hescape.1), ih, stars, stars, map_cons,
        if_neg hstar]

theorem length_filter_lt (h : '*' ∈ p) : (p.filter (· != '*')).length < p.length := by
  rw [length_filter_lt_length_iff_exists]
  exact ⟨'*', h, by decide⟩

namespace MatchType

theorem parse_last (q : List Char) (h : q ≠ []) : parse cs (q ++ ['*']) = .startsWith q := by
  have hne : q ++ ['*'] ≠ ['*'] := fun heq => h (append_left_eq_self.mp heq)
  rw [parse, if_neg hne, stripSuffix, getLast?_concat, if_pos rfl, dropLast_concat]

theorem parse_first {q : List Char} (h : ('*' :: q).getLast? ≠ some '*') : parse cs ('*' :: q) = .endsWith q := by
  have hne : '*' :: q ≠ ['*'] := by
    intro heq
    rw [heq] at h
    exact h rfl
  rw [parse, if_neg hne, stripSuffix, if_neg h, stripPrefix, head?_cons, if_pos rfl, tail_cons]

theorem parse_inner {p : List Char} (hlast : p.getLast? ≠ some '*') (hhead : p.head? ≠ some '*') :
    parse cs p = if '*' ∈ p then .glob (compile cs p false) else .equal p := by
  have hne : p ≠ ['*'] := by
    rintro rfl
    exact hhead rfl
  rw [parse, if_neg hne, stripSuffix, if_neg hlast, stripPrefix, if_neg hhead]

theorem last_iff (q : List Char) : (∀ v, q <+: v ↔ Covers (stars (q ++ ['*'])) v) ↔ '*' ∉ q := by
  constructor
  · intro h hq
    have hprefix := (h _).2 (covers_stars_filter (q ++ ['*']))
    have hlen := hprefix.length_le
    rw [filter_append, show ['*'].filter (· != '*') = [] from rfl, append_nil] at hlen
    exact absurd hlen (Nat.not_le.mpr (length_filter_lt hq))
  · intro hq v
    have hstars : stars (q ++ ['*']) = q.map .char ++ [.many] := by
      rw [← stars_plain hq, stars, map_append]
      rfl
    rw [hstars, Token.covers_chars_many]

theorem first_iff (q : List Char) : (∀ v, q <:+ v ↔ Covers (stars ('*' :: q)) v) ↔ '*' ∉ q := by
  constructor
  · intro h hq
    have hsuffix := (h _).2 (covers_stars_filter ('*' :: q))
    exact absurd hsuffix.length_le (Nat.not_le.mpr (length_filter_lt hq))
  · intro hq v
    have hstars : stars ('*' :: q) = .many :: q.map .char := by
      rw [← stars_plain hq]
      rfl
    rw [hstars, Token.covers_many_chars]

theorem compile_iff (p : List Char) : (∀ v, (compile cs p false).matches cs v = true ↔ Covers (stars p) v) ↔
    '?' ∉ p ∧ '\\' ∉ p := by
  constructor
  · intro h
    -- a shortest word of the compiled pattern has every character of the text
    have hcovers := (matches_compile cs p _).2 (Token.covers_least 'a' (reads false p))
    have hletters := ((h _).1 hcovers).letters
    rw [(letters_stars _).1] at hletters
    exact plain_of_least (hletters.eq_of_length_le (length_least_le false p)).symm
  · rintro ⟨hany, hescape⟩ v
    rw [matches_compile, reads_plain hany hescape]

/-- **A pattern matches what its `*` stand for**, for the patterns that are read as they should be alone. -/
theorem parse_iff (p : List Char) : (∀ v, (parse cs p).matches cs v = true ↔ Covers (stars p) v) ↔ Read p := by
  by_cases hlast : p.getLast? = some '*'
  · obtain ⟨q, rfl⟩ := getLast?_eq_some_iff.mp hlast
    by_cases hq : q = []
    · subst hq
      refine iff_of_true (fun v => iff_of_true rfl ⟨v, [], (append_nil v).symm, rfl⟩) (.inr (.inl ⟨rfl, ?_⟩))
      exact not_mem_nil
    · have hread : Read (q ++ ['*']) ↔ '*' ∉ q := by
        have hmem : '*' ∈ (q ++ ['*']).tail := by
          rw [tail_append_of_ne_nil hq]
          exact mem_append_right _ mem_cons_self
        rw [Read, dropLast_concat]
        constructor
        · rintro (h | h | h | h)
          · exact absurd (mem_append_right _ mem_cons_self) h
          · exact h.2
          · exact absurd hmem h.2
          · exact absurd hlast h.2.1
        · exact fun h => .inr (.inl ⟨hlast, h⟩)
      rw [hread, ← last_iff, parse_last cs q hq]
      simp [MatchType.matches]
  · by_cases hhead : p.head? = some '*'
    · obtain ⟨q, rfl⟩ := head?_eq_some_iff.mp hhead
      have hread : Read ('*' :: q) ↔ '*' ∉ q := by
        constructor
        · rintro (h | h | h | h)
          · exact absurd mem_cons_self h
          · exact absurd h.1 hlast
          · exact h.2
          · exact absurd hhead h.1
        · exact fun h => .inr (.inr (.inl ⟨hhead, h⟩))
      rw [hread, ← first_iff, parse_first cs hlast]
      simp [MatchType.matches]
    · rw [parse_inner cs hlast hhead]
      by_cases hmem : '*' ∈ p
      · have hread : Read p ↔ '?' ∉ p ∧ '\\' ∉ p := by
          constructor
          · rintro (h | h | h | h)
            · exact absurd hmem h
            · exact absurd h.1 hlast
            · exact absurd h.1 hhead
            · exact h.2.2
          · exact fun h => .inr (.inr (.inr ⟨hhead, hlast, h⟩))
        rw [hread, ← compile_iff cs, if_pos hmem]
        rfl
      · refine iff_of_true (fun v => ?_) (.inl hmem)
        rw [if_neg hmem, stars_plain hmem, Token.covers_chars]
        exact beq_iff_eq

end MatchType

/-- **When the shortcuts agree with the full matcher:** for the test of one pattern, for sets and for maps. -/
theorem shortcuts_iff {V : Type*} (p : List Char) (value : V) :
    ((∀ v, (MatchType.parse cs p).matches cs v = true ↔ Covers (stars p) v) ↔ Read p) ∧
    ((∀ (s : GlobSet) v, (s.insertPattern cs p).contains cs v = true ↔
      s.contains cs v = true ∨ (compile cs p false).matches cs v = true) ↔ Kept p) ∧
    ((∀ (m : GlobMap V) v, ((m.insertPattern cs p value).get cs v).isSome ↔
      (m.get cs v).isSome ∨ (compile cs p false).matches cs v = true) ↔ Kept p) :=
  ⟨MatchType.parse_iff cs p, GlobSet.insertPattern_iff cs p, GlobMap.insertPattern_iff cs p value⟩

/-- Letters without cases. -/
def Casing.plain : Casing := ⟨fun _ => false, fun ch => [ch], id⟩

/-- `**` is read as the texts that begin with `*`, and `\\*`, a backslash and any text, is kept as the text `*`. -/
theorem not_shortcuts :
    (¬ ∀ v, (MatchType.parse .plain ['*', '*']).matches .plain v = true ↔ Covers (stars ['*', '*']) v) ∧
    ¬ ∀ v, (GlobSet.new.insertPattern .plain ['\\', '\\', '*']).contains .plain v = true ↔
      (compile .plain ['\\', '\\', '*'] false).matches .plain v = true := by
  constructor
  · intro h
    exact absurd ((h []).2 (covers_stars_filter _)) (by decide)
  · intro h
    have hentry : (GlobSet.new.insertPattern .plain ['\\', '\\', '*']).contains .plain ['*'] = true := by decide
    rw [h, matches_compile] at hentry
    have hmem : '\\' ∈ ['*'] := hentry.letters.mem (by decide)
    exact absurd hmem (by decide)

end MailServer.Utils
