import Mathlib.Data.List.Infix

/-!
# Patterns of mailbox names (`imap/src/op/list.rs`)

`LIST` matches the name of a mailbox against patterns in which `*` stands for any text and `%` for any text without
the hierarchy separator `/`.

* `segments`: the text before the first wildcard, and each wildcard with the text behind it.
* `matchesPattern`: the test.  The text behind a wildcard is looked for with one counter, which goes back to zero.
  The source compares bytes: no character of UTF-8 begins inside another, so characters give the same answers.
* `Matches`: what the test is to decide.
* `simple`: the patterns for which it does.
-/

namespace MailServer.Imap.Pattern

open List

def slash : Char := '/'

inductive Wildcard where
  | star
  | percent
  deriving DecidableEq

/-- `*` and `%` -/
def wildcard (ch : Char) : Option Wildcard :=
  if ch = '*' then some .star else if ch = '%' then some .percent else none

/-! ## The test -/

/-- A pattern as the test reads it: single characters up to the first wildcard, then each wildcard with all up to the
next. -/
def segments : List Char → List Char × List (Wildcard × List Char)
  | [] => ([], [])
  | ch :: pattern =>
    match wildcard ch with
    | some w => ([], (w, (segments pattern).1) :: (segments pattern).2)
    | none => (ch :: (segments pattern).1, (segments pattern).2)

/-- The name behind the text that is looked for, of which `count` characters have been seen.  At the end of the
pattern (`eof`) it has to be the end of the name. -/
def scan (literal : List Char) (eof : Bool) : ℕ → List Char → Option (List Char)
  | _, [] => none
  | count, ch :: name =>
    if literal[count]? = some ch then
      if count + 1 = literal.length then
        if !eof || name.isEmpty then some name else scan literal eof 0 name
      else scan literal eof (count + 1) name
    else scan literal eof 0 name

def matchesSegments : List (Wildcard × List Char) → List Char → Bool
  | [], name => name.isEmpty
  | (w, literal) :: rest, name =>
    if literal.isEmpty then w = .star || !name.any (· == slash)
    else
      match scan literal rest.isEmpty 0 name with
      | some name => matchesSegments rest name
      | none => false

def matchesLiteral : List Char → List (Wildcard × List Char) → List Char → Bool
  | [], rest, name => matchesSegments rest name
  | _ :: _, _, [] => false
  | ch :: literal, rest, mch :: name => if mch = ch then matchesLiteral literal rest name else false

def matchesOne (pattern name : List Char) : Bool :=
  matchesLiteral (segments pattern).1 (segments pattern).2 name

def matchesPattern (patterns : List String) (mailboxName : String) : Bool :=
  patterns.isEmpty || patterns.any fun pattern => matchesOne pattern.toList mailboxName.toList

/-! ## What a pattern stands for -/

def Wildcard.Covers : Wildcard → List Char → Prop
  | .star, _ => True
  | .percent, text => slash ∉ text

/-- The whole name matches the pattern. -/
inductive Matches : List Char → List Char → Prop where
  | nil : Matches [] []
  | wildcard {ch : Char} {w : Wildcard} {text pattern name : List Char} (hch : wildcard ch = some w)
      (htext : w.Covers text) (h : Matches pattern name) : Matches (ch :: pattern) (text ++ name)
  | char {ch : Char} {pattern name : List Char} (hch : wildcard ch = none) (h : Matches pattern name) :
      Matches (ch :: pattern) (ch :: name)

/-- The same for the part of a pattern from a wildcard on. -/
def MatchesSegments : List (Wildcard × List Char) → List Char → Prop
  | [], name => name = []
  | (w, literal) :: rest, name =>
    ∃ text name', name = text ++ literal ++ name' ∧ w.Covers text ∧ MatchesSegments rest name'

variable {w : Wildcard} {name literal : List Char} {rest : List (Wildcard × List Char)}

theorem segments_wildcard {ch : Char} (h : wildcard ch = some w) (pattern : List Char) :
    segments (ch :: pattern) = ([], (w, (segments pattern).1) :: (segments pattern).2) := by
  rw [segments, h]

theorem segments_char {ch : Char} (h : wildcard ch = none) (pattern : List Char) :
    segments (ch :: pattern) = (ch :: (segments pattern).1, (segments pattern).2) := by
  rw [segments, h]

theorem matches_iff (pattern name : List Char) :
    Matches pattern name ↔
      ∃ name', name = (segments pattern).1 ++ name' ∧ MatchesSegments (segments pattern).2 name' := by
  induction pattern generalizing name with
  | nil =>
    refine ⟨?_, ?_⟩
    · rintro ⟨⟩
      exact ⟨[], rfl, rfl⟩
    · rintro ⟨_, rfl, rfl⟩
      exact .nil
  | cons ch pattern ih =>
    cases hch : wildcard ch with
    | some w =>
      rw [segments_wildcard hch]
      refine ⟨?_, ?_⟩
      · intro h
        cases h with
        | wildcard hch' htext h =>
          obtain rfl := Option.some.inj (hch.symm.trans hch')
          obtain ⟨name', rfl, hrest⟩ := (ih _).mp h
          exact ⟨_, rfl, _, name', (append_assoc _ _ _).symm, htext, hrest⟩
        | char hch' _ =>
          rw [hch] at hch'
          cases hch'
      · rintro ⟨_, rfl, text, name', rfl, htext, hrest⟩
        rw [append_assoc]
        exact .wildcard hch htext ((ih _).mpr ⟨name', rfl, hrest⟩)
    | none =>
      rw [segments_char hch]
      refine ⟨?_, ?_⟩
      · intro h
        cases h with
        | wildcard hch' _ _ =>
          rw [hch] at hch'
          cases hch'
        | char _ h =>
          obtain ⟨name', rfl, hrest⟩ := (ih _).mp h
          exact ⟨name', rfl, hrest⟩
      · rintro ⟨name', rfl, hrest⟩
        exact .char hch ((ih _).mpr ⟨name', rfl, hrest⟩)

theorem matchesLiteral_iff (literal : List Char) (rest : List (Wildcard × List Char)) (name : List Char) :
    matchesLiteral literal rest name = true ↔ ∃ name', name = literal ++ name' ∧ matchesSegments rest name' = true := by
  induction literal generalizing name with
  | nil =>
    refine ⟨fun h => ⟨name, rfl, h⟩, ?_⟩
    rintro ⟨_, rfl, h⟩
    exact h
  | cons ch literal ih =>
    cases name with
    | nil => simp [matchesLiteral]
    | cons mch name =>
      unfold matchesLiteral
      split_ifs with hch
      · rw [ih, hch]
        simp
      · simp [hch]

theorem matchesOne_iff {pattern : List Char} (h : ∀ name', name = (segments pattern).1 ++ name' →
      (matchesSegments (segments pattern).2 name' = true ↔ MatchesSegments (segments pattern).2 name')) :
    matchesOne pattern name = true ↔ Matches pattern name := by
  unfold matchesOne
  rw [matchesLiteral_iff, matches_iff]
  refine exists_congr ?_
  intro name'
  exact and_congr_right fun hname => h name' hname

/-! ## What the counter finds -/

theorem scan_last (c : Char) (name : List Char) :
    scan [c] true 0 name = if name.getLast? = some c then some [] else none := by
  induction name with
  | nil => rfl
  | cons ch name ih =>
    cases name with
    | nil =>
      by_cases h : c = ch
      · simp [scan, h]
      · simp [scan, h, Ne.symm h]
    | cons ch' name =>
      rw [getLast?_cons_cons, ← ih]
      by_cases h : c = ch
      · simp [scan]
      · simp [scan]

theorem scan_slash {name' : List Char} :
    scan [slash] false 0 name = some name' ↔ ∃ text, slash ∉ text ∧ name = text ++ slash :: name' := by
  induction name with
  | nil => simp [scan]
  | cons ch name ih =>
    by_cases h : slash = ch
    · subst h
      refine ⟨?_, ?_⟩
      · intro hscan
        refine ⟨[], not_mem_nil, ?_⟩
        simpa [scan] using hscan
      · rintro ⟨text, htext, hname⟩
        cases text with
        | nil => simpa [scan] using hname
        | cons t text =>
          obtain ⟨rfl, -⟩ := List.cons.inj hname
          exact absurd mem_cons_self htext
    · have hstep : scan [slash] false 0 (ch :: name) = scan [slash] false 0 name := by simp [scan, h]
      rw [hstep, ih]
      refine ⟨?_, ?_⟩
      · rintro ⟨text, htext, rfl⟩
        exact ⟨ch :: text, by simp [h, htext], rfl⟩
      · rintro ⟨text, htext, hname⟩
        cases text with
        | nil => exact absurd (List.cons.inj hname).1.symm h
        | cons t text =>
          obtain ⟨rfl, rfl⟩ := List.cons.inj hname
          exact ⟨text, fun hmem => htext (mem_cons_of_mem _ hmem), rfl⟩

section

variable {c : Char} {k : ℕ}

variable {j : ℕ}

theorem scan_uniform_self (hj : j < k) (name : List Char) :
    scan (List.replicate k c) false j (c :: name) =
      if j + 1 = k then some name else scan (List.replicate k c) false (j + 1) name := by
  simp [scan, hj]

theorem scan_uniform_other {ch : Char} (h : c ≠ ch) (j : ℕ) (name : List Char) :
    scan (List.replicate k c) false j (ch :: name) = scan (List.replicate k c) false 0 name := by
  by_cases hj : j < k
  · simp [scan, hj, h]
  · simp [scan, hj]

theorem of_scan_uniform (hj : j < k) {name name' : List Char}
    (h : scan (List.replicate k c) false j name = some name') :
    ∃ text, List.replicate j c ++ name = text ++ List.replicate k c ++ name' := by
  induction name generalizing j with
  | nil => cases h
  | cons ch name ih =>
    by_cases hch : c = ch
    · subst hch
      rw [scan_uniform_self hj] at h
      have hcons : List.replicate j c ++ c :: name = List.replicate (j + 1) c ++ name := by
        rw [replicate_succ', append_assoc, singleton_append]
      split_ifs at h with hk
      · obtain rfl := Option.some.inj h
        exact ⟨[], by rw [hcons, hk]; rfl⟩
      · rw [hcons]
        exact ih (by omega) h
    · rw [scan_uniform_other hch] at h
      obtain ⟨text, htext⟩ := ih (by omega) h
      refine ⟨List.replicate j c ++ ch :: text, ?_⟩
      rw [show name = text ++ List.replicate k c ++ name' from htext]
      simp [append_assoc]

theorem scan_uniform_of (hj : j < k) {name text name' : List Char}
    (h : List.replicate j c ++ name = text ++ List.replicate k c ++ name') :
    ∃ found, scan (List.replicate k c) false j name = some found ∧ name' <:+ found := by
  induction name generalizing j text with
  | nil =>
    have hlen := congrArg List.length h
    simp only [length_append, length_replicate, length_nil] at hlen
    omega
  | cons ch name ih =>
    by_cases hch : c = ch
    · subst hch
      have hcons : List.replicate j c ++ c :: name = List.replicate (j + 1) c ++ name := by
        rw [replicate_succ', append_assoc, singleton_append]
      rw [scan_uniform_self hj]
      rw [hcons] at h
      split_ifs with hk
      · refine ⟨name, rfl, ?_⟩
        have hlen := congrArg List.length h
        simp only [length_append, length_replicate] at hlen
        refine suffix_of_suffix_length_le ?_ (suffix_append (List.replicate (j + 1) c) name) (by omega)
        rw [h]
        exact suffix_append _ _
      · exact ih (by omega) h
    · rw [scan_uniform_other hch]
      -- The character that differs is before the text that is looked for.
      have hlong : j + 1 ≤ text.length := by
        by_contra hshort
        have hget := congrArg (fun l => l[j]?) h
        have hin : j - text.length < k := by omega
        simp [getElem?_append, hin, show ¬ j < text.length by omega] at hget
        exact hch hget.symm
      have htake : text.take (j + 1) = List.replicate j c ++ [ch] := by
        have htake := congrArg (List.take (j + 1)) h
        rw [append_assoc, take_append_of_le_length hlong] at htake
        rw [← htake]
        simp [take_append]
      rw [← take_append_drop (j + 1) text, htake] at h
      have hbehind : List.replicate 0 c ++ name = text.drop (j + 1) ++ List.replicate k c ++ name' := by simpa using h
      exact ih (by omega) hbehind

end

/-! ## The patterns for which the first place found is enough -/

/-- One character, any number of times. -/
def uniform : List Char → Bool
  | [] => true
  | ch :: literal => literal.all (· == ch)

/-- Patterns that match a name if they match its end. -/
def opens : List (Wildcard × List Char) → Bool
  | [] => false
  | (.star, _) :: _ => true
  | (.percent, literal) :: rest => literal == [slash] && opens rest

/-- The wildcard is followed by nothing but wildcards of which none stands for more; or it is `*` and one character
ends the pattern; or the text behind it is found in the right place: one character repeated behind `*`, where what
follows does not depend on the place, and a separator behind `%`. -/
def simple : List (Wildcard × List Char) → Bool
  | [] => true
  | (w, literal) :: rest =>
    if literal.isEmpty then rest.all fun segment => segment.2.isEmpty && (w == .star || segment.1 == .percent)
    else if rest.isEmpty then w == .star && literal.length == 1
    else
      match w with
      | .star => uniform literal && opens rest && simple rest
      | .percent => literal == [slash] && simple rest

theorem eq_replicate_of_uniform (h : uniform literal = true) (hne : literal ≠ []) :
    ∃ c k, 0 < k ∧ literal = List.replicate k c := by
  cases literal with
  | nil => exact absurd rfl hne
  | cons c literal =>
    refine ⟨c, literal.length + 1, Nat.succ_pos _, ?_⟩
    rw [replicate_succ, List.cons.injEq]
    refine ⟨rfl, eq_replicate_iff.mpr ⟨rfl, ?_⟩⟩
    intro x hx
    exact beq_iff_eq.mp (all_eq_true.mp h x hx)

theorem MatchesSegments.of_suffix {segments : List (Wildcard × List Char)}
    (hopen : opens segments = true) {name' : List Char} (h : MatchesSegments segments name')
    (hsuffix : name' <:+ name) : MatchesSegments segments name := by
  induction segments generalizing name name' with
  | nil => cases hopen
  | cons segment rest ih =>
    obtain ⟨w, literal⟩ := segment
    obtain ⟨before, rfl⟩ := hsuffix
    obtain ⟨text, name'', rfl, htext, hrest⟩ := h
    cases w with
    | star => exact ⟨before ++ text, name'', by simp [append_assoc], trivial, hrest⟩
    | percent =>
      obtain ⟨hliteral, hopen⟩ := Bool.and_eq_true_iff.mp hopen
      obtain rfl := beq_iff_eq.mp hliteral
      by_cases hbefore : slash ∈ before
      · obtain ⟨l₁, l₂, rfl, hl₁⟩ := eq_append_cons_of_mem hbefore
        refine ⟨l₁, l₂ ++ text ++ [slash] ++ name'', ?_, hl₁, ?_⟩
        · simp [append_assoc]
        exact ih hopen hrest (suffix_append _ _)
      · refine ⟨before ++ text, name'', by simp [append_assoc], ?_, hrest⟩
        intro hmem
        exact (mem_append.mp hmem).elim hbefore htext

theorem matchesSegments_nil (h : ∀ segment ∈ rest, segment.2 = []) : MatchesSegments rest [] := by
  induction rest with
  | nil => rfl
  | cons segment rest ih =>
    obtain ⟨w, literal⟩ := segment
    obtain ⟨rfl, hrest⟩ := forall_mem_cons.mp h
    refine ⟨[], [], rfl, ?_, ih hrest⟩
    cases w with
    | star => trivial
    | percent => exact not_mem_nil

theorem not_slash_of_matches (h : ∀ segment ∈ rest, segment.2 = [] ∧ segment.1 = .percent)
    (hname : MatchesSegments rest name) : slash ∉ name := by
  induction rest generalizing name with
  | nil =>
    obtain rfl : name = [] := hname
    exact not_mem_nil
  | cons segment rest ih =>
    obtain ⟨w, literal⟩ := segment
    obtain ⟨⟨rfl, rfl⟩, hrest⟩ := forall_mem_cons.mp h
    obtain ⟨text, name', rfl, htext, hname'⟩ := hname
    rw [append_nil]
    intro hmem
    exact (mem_append.mp hmem).elim htext (ih hrest hname')

theorem matchesSegments_wildcards
    (h : (rest.all fun segment => segment.2.isEmpty && (w == .star || segment.1 == .percent)) = true)
    (name : List Char) :
    matchesSegments ((w, []) :: rest) name = true ↔ MatchesSegments ((w, []) :: rest) name := by
  have hempty : ∀ segment ∈ rest, segment.2 = [] := by
    intro segment hmem
    have := all_eq_true.mp h segment hmem
    exact List.isEmpty_iff.mp (Bool.and_eq_true_iff.mp this).1
  have hnil := matchesSegments_nil hempty
  cases w with
  | star =>
    refine iff_of_true rfl ⟨name, [], ?_, trivial, hnil⟩
    rw [append_nil, append_nil]
  | percent =>
    have hpercent : ∀ segment ∈ rest, segment.2 = [] ∧ segment.1 = .percent := by
      intro segment hmem
      refine ⟨hempty segment hmem, ?_⟩
      have := all_eq_true.mp h segment hmem
      simpa using (Bool.and_eq_true_iff.mp this).2
    have hstep : matchesSegments ((.percent, []) :: rest) name = !name.any (· == slash) := by simp [matchesSegments]
    have hany : (!name.any (· == slash)) = true ↔ slash ∉ name := by
      rw [Bool.not_eq_true', any_eq_false]
      exact ⟨fun h hmem => h slash hmem (beq_self_eq_true slash), fun h x hx hxs => h (beq_iff_eq.mp hxs ▸ hx)⟩
    rw [hstep, hany]
    refine ⟨?_, ?_⟩
    · intro hname
      refine ⟨name, [], ?_, hname, hnil⟩
      rw [append_nil, append_nil]
    · intro hname
      have hall : ∀ segment ∈ (Wildcard.percent, []) :: rest, segment.2 = [] ∧ segment.1 = .percent :=
        forall_mem_cons.mpr ⟨⟨rfl, rfl⟩, hpercent⟩
      exact not_slash_of_matches hall hname

theorem matchesSegments_found (hne : literal ≠ []) (rest : List (Wildcard × List Char))
    (name : List Char) :
    matchesSegments ((w, literal) :: rest) name = true ↔
      ∃ name', scan literal rest.isEmpty 0 name = some name' ∧ matchesSegments rest name' = true := by
  have hempty : literal.isEmpty = false := by simpa using hne
  rw [matchesSegments, hempty]
  cases scan literal rest.isEmpty 0 name with
  | none => simp
  | some name' => simp

theorem matchesSegments_iff {segments : List (Wildcard × List Char)} (h : simple segments = true) (name : List Char) :
    matchesSegments segments name = true ↔ MatchesSegments segments name := by
  induction segments generalizing name with
  | nil => exact List.isEmpty_iff
  | cons segment rest ih =>
    obtain ⟨w, literal⟩ := segment
    unfold simple at h
    split_ifs at h with hliteral hrest
    · obtain rfl := List.isEmpty_iff.mp hliteral
      exact matchesSegments_wildcards h name
    · obtain rfl := List.isEmpty_iff.mp hrest
      obtain ⟨hw, hlen⟩ := Bool.and_eq_true_iff.mp h
      obtain rfl := beq_iff_eq.mp hw
      obtain ⟨c, rfl⟩ := length_eq_one_iff.mp (beq_iff_eq.mp hlen)
      rw [matchesSegments_found (cons_ne_nil c []), isEmpty_nil, scan_last]
      split_ifs with hlast
      · refine iff_of_true ⟨[], rfl, rfl⟩ ?_
        obtain ⟨text, rfl⟩ := getLast?_eq_some_iff.mp hlast
        exact ⟨text, [], (append_nil _).symm, trivial, rfl⟩
      · refine iff_of_false (fun h => nomatch h.choose_spec.1) ?_
        rintro ⟨text, name', rfl, -, hname'⟩
        obtain rfl : name' = [] := hname'
        simp at hlast
    · have hne : literal ≠ [] := by simpa using hliteral
      have hfalse : rest.isEmpty = false := by simpa using hrest
      rw [matchesSegments_found hne, hfalse]
      cases w with
      | star =>
        obtain ⟨h, hsimple⟩ := Bool.and_eq_true_iff.mp h
        obtain ⟨huniform, hopen⟩ := Bool.and_eq_true_iff.mp h
        obtain ⟨c, k, hk, rfl⟩ := eq_replicate_of_uniform huniform hne
        refine ⟨?_, ?_⟩
        · rintro ⟨name', hscan, hname'⟩
          obtain ⟨text, htext⟩ := of_scan_uniform hk hscan
          exact ⟨text, name', htext, trivial, (ih hsimple name').mp hname'⟩
        · rintro ⟨text, name', hname, -, hrest⟩
          obtain ⟨found, hscan, hsuffix⟩ := scan_uniform_of (j := 0) hk hname
          exact ⟨found, hscan, (ih hsimple found).mpr (hrest.of_suffix hopen hsuffix)⟩
      | percent =>
        obtain ⟨hliteral, hsimple⟩ := Bool.and_eq_true_iff.mp h
        obtain rfl := beq_iff_eq.mp hliteral
        refine ⟨?_, ?_⟩
        · rintro ⟨name', hscan, hname'⟩
          obtain ⟨text, htext, rfl⟩ := scan_slash.1 hscan
          exact ⟨text, name', by simp, htext, (ih hsimple name').mp hname'⟩
        · rintro ⟨text, name', rfl, htext, hrest⟩
          exact ⟨name', scan_slash.2 ⟨text, htext, by simp⟩, (ih hsimple name').mpr hrest⟩

/-! ## Patterns with one wildcard -/

theorem length_of_scan {count : ℕ} {name' : List Char}
    (h : scan literal true count name = some name') :
    count + name.length = literal.length ∨ literal.length < name.length ∨
      (count = 0 ∧ literal.length ≤ name.length) := by
  induction name generalizing count with
  | nil => cases h
  | cons ch name ih =>
    rw [length_cons]
    unfold scan at h
    split_ifs at h with hch hcount hend
    · have hname : name.length = 0 := by simpa using hend
      omega
    · have := ih h
      omega
    · have := ih h
      omega
    · have := ih h
      omega

theorem scan_rest (literal : List Char) {count : ℕ} (h : count < literal.length) :
    scan literal true count (literal.drop count) = some [] := by
  induction hn : literal.length - count generalizing count with
  | zero => omega
  | succ n ih =>
    rw [drop_eq_getElem_cons h, scan, if_pos (getElem?_eq_getElem h)]
    split_ifs with hcount hend
    · exact congrArg some (drop_eq_nil_of_le (by omega))
    · rw [drop_eq_nil_of_le (show literal.length ≤ count + 1 by omega)] at hend
      exact absurd rfl hend
    · exact ih (by omega) (by omega)

theorem exists_other (a b : Char) : ∃ ch : Char, ch ≠ slash ∧ ch ≠ a ∧ ch ≠ b := by
  by_contra h
  have hall (ch : Char) (hs : ch ≠ slash) : ch = a ∨ ch = b := by
    by_contra hne
    exact h ⟨ch, hs, fun ha => hne (Or.inl ha), fun hb => hne (Or.inr hb)⟩
  rcases hall 'x' (by decide) with hx | hx <;> rcases hall 'y' (by decide) with hy | hy <;>
    rcases hall 'z' (by decide) with hz | hz <;>
    first
    | exact absurd (hx.trans hy.symm) (by decide)
    | exact absurd (hx.trans hz.symm) (by decide)
    | exact absurd (hy.trans hz.symm) (by decide)

theorem percent_skips (hne : literal ≠ []) :
    ∃ name, matchesSegments [(.percent, literal)] name = true ∧ ¬ MatchesSegments [(.percent, literal)] name := by
  obtain ⟨ch, hslash, h₀, h₁⟩ := exists_other (literal[0]?.getD slash) (literal[1]?.getD slash)
  have hfirst : literal[0]? ≠ some ch := fun h => h₀ (by rw [h]; rfl)
  have hsecond : literal[1]? ≠ some ch := fun h => h₁ (by rw [h]; rfl)
  refine ⟨slash :: ch :: literal, ?_, ?_⟩
  · refine (matchesSegments_found hne [] _).mpr ⟨[], ?_, rfl⟩
    have hrest : scan literal true 0 (ch :: literal) = some [] := by
      rw [scan, if_neg hfirst]
      exact scan_rest literal (length_pos_iff.mpr hne)
    unfold scan
    split_ifs with hs hlen hend
    · cases hend
    · exact hrest
    · rw [scan, if_neg hsecond]
      exact scan_rest literal (length_pos_iff.mpr hne)
    · exact hrest
  · rintro ⟨text, name', hname, htext, rfl⟩
    rw [append_nil] at hname
    have : text = [slash, ch] :=
      (append_cancel_right (show [slash, ch] ++ literal = text ++ literal from hname)).symm
    exact htext (this ▸ mem_cons_self)

theorem star_misses (hlen : 2 ≤ literal.length) :
    ∃ name, matchesSegments [(.star, literal)] name = false ∧ MatchesSegments [(.star, literal)] name := by
  obtain ⟨ch, literal', rfl⟩ := exists_cons_of_length_pos (show 0 < literal.length by omega)
  refine ⟨ch :: ch :: literal', ?_, [ch], [], by simp, trivial, rfl⟩
  rw [Bool.eq_false_iff]
  intro hmatch
  obtain ⟨name', hscan, -⟩ := (matchesSegments_found (cons_ne_nil ch literal') [] _).mp hmatch
  have hstep : scan (ch :: literal') true 0 (ch :: ch :: literal') = scan (ch :: literal') true 1 (ch :: literal') := by
    rw [scan, if_pos (show (ch :: literal')[0]? = some ch from rfl), if_neg (by omega)]
  rw [isEmpty_nil, hstep] at hscan
  have := length_of_scan hscan
  omega

theorem simple_of_iff {segment : Wildcard × List Char}
    (h : ∀ name, matchesSegments [segment] name = true ↔ MatchesSegments [segment] name) : simple [segment] = true := by
  obtain ⟨w, literal⟩ := segment
  unfold simple
  split_ifs with hliteral hrest
  · rfl
  · have hne : literal ≠ [] := by simpa using hliteral
    cases w with
    | percent =>
      obtain ⟨name, hmatch, hnot⟩ := percent_skips hne
      exact absurd ((h name).mp hmatch) hnot
    | star =>
      rw [beq_self_eq_true, Bool.true_and, beq_iff_eq]
      by_contra hlen
      have := length_pos_iff.mpr hne
      obtain ⟨name, hmatch, hspec⟩ := star_misses (show 2 ≤ literal.length by omega)
      rw [(h name).mpr hspec] at hmatch
      cases hmatch
  · exact absurd rfl hrest

/-! ## Lists of patterns -/

end MailServer.Imap.Pattern
