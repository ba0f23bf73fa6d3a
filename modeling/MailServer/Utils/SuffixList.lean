import Mathlib.Order.Lattice.Nat

/-!
# Public suffixes (`utils/src/suffixlist.rs`)

* `PublicSuffix.contains`, `PublicSuffix.domainPart`: the list, and the walk over a name from its right end.  The
  source scans bytes; the dot is one byte, so characters give the same answers.
* `PublicSuffix.publicLabels`, `PublicSuffix.registrable`: what the rules of a list say of a name.
* `PublicSuffix.domainPart_iff`: the names for which that is the registrable domain.
-/

namespace MailServer.Utils

/-- `str::trim` and `str::to_lowercase`. -/
structure TextCasing where
  trim : List Char → List Char
  toLowercase : List Char → List Char

structure PublicSuffix where
  suffixes : Finset (List Char)
  exceptions : Finset (List Char)
  wildcards : List (List Char)

inductive DomainPart where
  | sld
  | tld
  | host
  deriving DecidableEq

namespace PublicSuffix

variable (tc : TextCasing) (ps : PublicSuffix)

def contains (suffix : List Char) : Bool :=
  suffix ∈ ps.suffixes || (!(suffix ∈ ps.exceptions : Bool) && ps.wildcards.any fun w => w.isSuffixOf suffix)

/-- The loop over the characters from the last one on: those before, the last of them first, and those behind. -/
def scan (part : DomainPart) : Bool → List Char → List Char → Option (List Char)
  | seenDot, [], d =>
    if seenDot then if part = .sld then some d else none else if part = .host then some d else none
  | seenDot, ch :: before, behind =>
    if ch = '.' then
      if seenDot then
        if !ps.contains behind then some (if part = .sld then behind else before.reverse)
        else scan part seenDot before (ch :: behind)
      else if part = .tld then some behind
      else scan part true before (ch :: behind)
    else scan part seenDot before (ch :: behind)

def domainPart (domain : List Char) (part : DomainPart) : Option (List Char) :=
  ps.scan part false (tc.toLowercase (tc.trim domain)).reverse []

def addLine (line : List Char) : PublicSuffix :=
  let line := tc.toLowercase (tc.trim line)
  if ['/', '/'].isPrefixOf line then ps
  else
    match line with
    | '*' :: domain => { ps with wildcards := ps.wildcards ++ [domain] }
    | '!' :: domain => { ps with exceptions := insert domain ps.exceptions }
    | line => { ps with suffixes := insert line ps.suffixes }

/-- `PublicSuffix::from`, on the lines of a list. -/
def ofLines (lines : List (List Char)) : PublicSuffix :=
  let ps := lines.foldl (addLine tc) ⟨∅, ∅, []⟩
  { ps with suffixes := insert "onion".toList ps.suffixes }

/-! ## The rules -/

abbrev Label := List Char

def labels (domain : List Char) : List Label :=
  domain.splitOn '.'

def join (ls : List Label) : List Char :=
  ['.'].intercalate ls

/-- The last `k` labels. -/
def last (k : ℕ) (ls : List Label) : List Label :=
  ls.drop (ls.length - k)

/-- A label of a rule: `*` stands for any one label. -/
def labelMatches (rule label : Label) : Bool :=
  rule = ['*'] || rule = label

def ruleMatches (rule ls : List Label) : Bool :=
  rule.length ≤ ls.length && (rule.zip (last rule.length ls)).all fun e => labelMatches e.1 e.2

/-- The most labels of a matching rule. -/
def longest (rules : Finset (List Char)) (ls : List Label) : ℕ :=
  (rules.filter fun rule => ruleMatches (labels rule) ls).sup fun rule => (labels rule).length

/-- How many labels the public suffix of a name has: without an exception rule those of the longest rule, or one; with
one, those behind its first. -/
def publicLabels (ls : List Label) : ℕ :=
  if longest ps.exceptions ls ≠ 0 then longest ps.exceptions ls - 1
  else max 1 (longest (ps.suffixes ∪ (ps.wildcards.map ('*' :: ·)).toFinset) ls)

/-- The public suffix and one label more, if the name has one. -/
def registrable (domain : List Char) : Option (List Char) :=
  if ps.publicLabels (labels domain) < (labels domain).length then
    some (join (last (ps.publicLabels (labels domain) + 1) (labels domain)))
  else none

/-- The names on which the walk stops where it should: all suffixes of two labels and more up to the public suffix are
in the list, and the registrable domain is not, or is the whole name. -/
def Walked (ls : List Label) : Prop :=
  ps.publicLabels ls < ls.length → 1 ≤ ps.publicLabels ls ∧
    (∀ k, 2 ≤ k → k < ps.publicLabels ls + 1 → ps.contains (join (last k ls)) = true) ∧
    (ps.publicLabels ls + 1 = ls.length ∨ ps.contains (join (last (ps.publicLabels ls + 1) ls)) = false)

/-! ## The walk -/

variable {ps} {part : DomainPart} {seenDot : Bool} {l : Label} {pre post ls : List Label}

theorem not_mem_of_mem_labels (d : List Char) : ∀ l ∈ labels d, '.' ∉ l := by
  induction d with
  | nil =>
    intro l hl
    rw [labels, List.splitOn_nil, List.mem_singleton] at hl
    exact hl ▸ List.not_mem_nil
  | cons ch d ih =>
    intro l hl
    rw [labels, List.splitOn_cons_eq_if_modifyHead] at hl
    split_ifs at hl with hch
    · rcases List.mem_cons.mp hl with rfl | hl
      · exact List.not_mem_nil
      · exact ih l hl
    · obtain ⟨a, as, heq⟩ := List.exists_cons_of_ne_nil (List.splitOn_ne_nil '.' d)
      rw [heq, List.modifyHead_cons, List.mem_cons] at hl
      rw [labels, heq] at ih
      rcases hl with rfl | hl
      · rw [List.mem_cons, not_or]
        exact ⟨fun h => hch (beq_iff_eq.mpr h.symm), ih a List.mem_cons_self⟩
      · exact ih l (List.mem_cons_of_mem a hl)

theorem join_labels (d : List Char) : join (labels d) = d :=
  List.intercalate_splitOn '.'

theorem join_cons (h : post ≠ []) : join (l :: post) = l ++ '.' :: join post := by
  obtain ⟨a, as, rfl⟩ := List.exists_cons_of_ne_nil h
  rfl

theorem join_inj {ls' : List Label} (h : ∀ l ∈ ls, '.' ∉ l) (h' : ∀ l ∈ ls', '.' ∉ l) (hne : ls ≠ []) (hne' : ls' ≠ [])
    (heq : join ls = join ls') : ls = ls' := by
  rw [← List.splitOn_intercalate '.' h hne, ← List.splitOn_intercalate '.' h' hne']
  exact congrArg (List.splitOn '.') heq

theorem scan_label (h : '.' ∉ l) (before behind : List Char) :
    ps.scan part seenDot (l ++ before) behind = ps.scan part seenDot before (l.reverse ++ behind) := by
  induction l generalizing behind with
  | nil => rfl
  | cons ch l ih =>
    rw [List.mem_cons, not_or] at h
    rw [List.cons_append, scan, if_neg (Ne.symm h.1), ih h.2, List.reverse_cons, List.append_assoc, List.singleton_append]

/-- The labels before, the last of them first, as the characters to come. -/
def pending : List Label → List Char
  | [] => []
  | l :: pre => '.' :: (l.reverse ++ pending pre)

/-- The labels that the walk ends with. -/
def walk (ps : PublicSuffix) : List Label → List Label → List Label
  | [], post => post
  | l :: pre, post => if ps.contains (join post) then walk ps pre (l :: post) else post

theorem scan_eq_walk (hpre : ∀ l ∈ pre, '.' ∉ l) (hpost : post ≠ []) :
    ps.scan .sld true (pending pre) (join post) = some (join (walk ps pre post)) := by
  induction pre generalizing post with
  | nil => rfl
  | cons l pre ih =>
    rw [pending, scan, if_pos rfl, if_pos rfl, walk]
    by_cases hc : ps.contains (join post) = true
    · have hl : '.' ∉ l.reverse := by
        rw [List.mem_reverse]
        exact hpre l List.mem_cons_self
      rw [hc, scan_label hl, List.reverse_reverse, ← join_cons hpost]
      exact ih (fun a ha => hpre a (List.mem_cons_of_mem l ha)) (List.cons_ne_nil l post)
    · rw [if_neg hc, Bool.eq_false_iff.mpr hc, Bool.not_false, if_pos rfl, if_pos rfl]

theorem reverse_join (pre : List Label) (l : Label) : (join (pre.reverse ++ [l])).reverse = l.reverse ++ pending pre := by
  induction pre using List.reverseRecOn with
  | nil =>
    rw [pending, List.append_nil]
    exact congrArg List.reverse List.intercalate_singleton
  | append_singleton pre a ih =>
    have hpending (b : List Label) : pending (b ++ [a]) = pending b ++ '.' :: a.reverse := by
      induction b with
      | nil => simp [pending]
      | cons c b ihb => simp [pending, ihb]
    rw [List.reverse_append, List.reverse_singleton, List.singleton_append, List.cons_append,
      join_cons (List.append_ne_nil_of_right_ne_nil _ (List.cons_ne_nil l [])), List.reverse_append, List.reverse_cons,
      ih, hpending]
    simp [List.append_assoc]

theorem domainPart_eq (tc : TextCasing) (domain : List Char) :
    ps.domainPart tc domain .sld =
      match (labels (tc.toLowercase (tc.trim domain))).reverse with
      | l :: l' :: pre => some (join (walk ps pre [l', l]))
      | _ => none := by
  have hdot := not_mem_of_mem_labels (tc.toLowercase (tc.trim domain))
  have hjoin := join_labels (tc.toLowercase (tc.trim domain))
  rw [domainPart]
  generalize tc.toLowercase (tc.trim domain) = d at hdot hjoin
  have hrev : labels d = (labels d).reverse.reverse := (List.reverse_reverse _).symm
  have hdot' : ∀ l ∈ (labels d).reverse, '.' ∉ l := fun l hl => hdot l (List.mem_reverse.mp hl)
  generalize (labels d).reverse = rev at hrev hdot'
  rw [← hjoin, hrev]
  match rev with
  | [] => rfl
  | l :: pre =>
    have hl : '.' ∉ l.reverse := by
      rw [List.mem_reverse]
      exact hdot' l List.mem_cons_self
    rw [List.reverse_cons, reverse_join, scan_label hl, List.reverse_reverse, List.append_nil]
    match pre with
    | [] => rfl
    | l' :: pre =>
      have hl' : '.' ∉ l'.reverse := by
        rw [List.mem_reverse]
        exact hdot' l' (List.mem_cons_of_mem l List.mem_cons_self)
      have htwo : l' ++ '.' :: l = join [l', l] := by
        exact congrArg (l' ++ '.' :: ·) List.intercalate_singleton.symm
      rw [pending, scan, if_neg Bool.false_ne_true, scan_label hl', List.reverse_reverse,
        htwo]
      exact scan_eq_walk (fun a ha => hdot' a (List.mem_cons_of_mem l (List.mem_cons_of_mem l' ha)))
        (List.cons_ne_nil l' _)

theorem last_append (a b : List Label) : last b.length (a ++ b) = b := by
  rw [last, List.length_append, Nat.add_sub_cancel, List.drop_left]

theorem length_last {k : ℕ} (h : k ≤ ls.length) : (last k ls).length = k := by
  rw [last, List.length_drop]
  omega

theorem eq_last_of_suffix (h : post <:+ ls) : post = last post.length ls := by
  obtain ⟨a, rfl⟩ := h
  exact (last_append a post).symm

theorem walk_suffix (ps : PublicSuffix) (pre post : List Label) : walk ps pre post <:+ pre.reverse ++ post := by
  induction pre generalizing post with
  | nil => exact List.suffix_rfl
  | cons l pre ih =>
    rw [walk, List.reverse_cons, List.append_assoc]
    split_ifs with hc
    · exact ih (l :: post)
    · exact (List.suffix_cons l post).trans (List.suffix_append _ _)

theorem length_le_walk (ps : PublicSuffix) (pre post : List Label) : post.length ≤ (walk ps pre post).length := by
  induction pre generalizing post with
  | nil => exact Nat.le_refl _
  | cons l pre ih =>
    rw [walk]
    split_ifs with hc
    · exact (Nat.le_succ _).trans (ih (l :: post))
    · exact Nat.le_refl _

/-- **Where the walk stops:** at the first number of labels, from those it begins with on, that are not in the list. -/
theorem walk_iff (ps : PublicSuffix) (pre post : List Label) {j : ℕ} (hj : j ≤ pre.length + post.length) :
    (walk ps pre post).length = j ↔ post.length ≤ j ∧
      (∀ k, post.length ≤ k → k < j → ps.contains (join (last k (pre.reverse ++ post))) = true) ∧
      (j = pre.length + post.length ∨ ps.contains (join (last j (pre.reverse ++ post))) = false) := by
  induction pre generalizing post with
  | nil =>
    rw [List.length_nil, Nat.zero_add] at hj ⊢
    show post.length = j ↔ _
    constructor
    · rintro rfl
      exact ⟨Nat.le_refl _, fun k hk hlt => absurd hk (by omega), .inl rfl⟩
    · rintro ⟨hle, -⟩
      omega
  | cons l pre ih =>
    have hhere : last post.length ((l :: pre).reverse ++ post) = post := last_append _ post
    rw [walk]
    by_cases hc : ps.contains (join post) = true
    · rw [if_pos hc]
      have hfull : (l :: pre).reverse ++ post = pre.reverse ++ (l :: post) := by
        rw [List.reverse_cons, List.append_assoc, List.singleton_append]
      have hlen : (l :: pre).length + post.length = pre.length + (l :: post).length := by
        rw [List.length_cons, List.length_cons]
        omega
      rw [hlen] at hj ⊢
      rw [ih (l :: post) hj, ← hfull, List.length_cons]
      constructor
      · rintro ⟨hle, hall, hend⟩
        refine ⟨by omega, fun k hk hlt => ?_, hend⟩
        rcases Nat.eq_or_lt_of_le hk with rfl | hk
        · rw [hhere]
          exact hc
        · exact hall k hk hlt
      · rintro ⟨hle, hall, hend⟩
        refine ⟨?_, fun k hk hlt => hall k (by omega) hlt, hend⟩
        by_contra hlt
        obtain rfl : j = post.length := by omega
        rw [hhere, hc] at hend
        rcases hend with hend | hend
        · omega
        · cases hend
    · rw [if_neg hc]
      constructor
      · rintro rfl
        refine ⟨Nat.le_refl _, fun k hk hlt => absurd hk (by omega), .inr ?_⟩
        rw [hhere]
        exact Bool.eq_false_iff.mpr hc
      · rintro ⟨hle, hall, -⟩
        by_contra hne
        refine hc ?_
        have := hall post.length (Nat.le_refl _) (by omega)
        rwa [hhere] at this

theorem join_last_inj {d : List Char} {j k : ℕ} (hj : j ≤ (labels d).length) (hk : k ≤ (labels d).length) (hpos : 0 < j)
    (hpos' : 0 < k) (h : join (last j (labels d)) = join (last k (labels d))) : j = k := by
  have hdot (i : ℕ) : ∀ l ∈ last i (labels d), '.' ∉ l :=
    fun l hl => not_mem_of_mem_labels d l (List.mem_of_mem_drop hl)
  have hne {i : ℕ} (hi : i ≤ (labels d).length) (hpos : 0 < i) : last i (labels d) ≠ [] := by
    rw [← List.length_pos_iff, length_last hi]
    exact hpos
  have heq := congrArg List.length (join_inj (hdot j) (hdot k) (hne hj hpos) (hne hk hpos') h)
  rwa [length_last hj, length_last hk] at heq

/-- **When `domain_part` returns the registrable domain:** if all suffixes of two labels and more up to the public
suffix are in the list, and the registrable domain itself is not, or is the whole name. -/
theorem domainPart_iff (ps : PublicSuffix) (tc : TextCasing) (domain : List Char) :
    (∀ name, ps.registrable (tc.toLowercase (tc.trim domain)) = some name → ps.domainPart tc domain .sld = some name) ↔
      ps.Walked (labels (tc.toLowercase (tc.trim domain))) := by
  rw [domainPart_eq]
  generalize tc.toLowercase (tc.trim domain) = d
  unfold registrable Walked
  by_cases hlt : ps.publicLabels (labels d) < (labels d).length
  · rw [if_pos hlt]
    simp only [Option.some.injEq, forall_eq', hlt, true_imp_iff]
    generalize ps.publicLabels (labels d) = m at hlt
    match hrev : (labels d).reverse with
    | [] =>
      rw [List.reverse_eq_nil_iff.mp hrev] at hlt
      cases hlt
    | [l] =>
      have hlen : (labels d).length = 1 := by rw [← List.length_reverse, hrev, List.length_singleton]
      refine iff_of_false (fun h => by cases h) fun h => ?_
      omega
    | l :: l' :: pre =>
      have hlabels : labels d = pre.reverse ++ [l', l] := by
        rw [← List.reverse_reverse (labels d), hrev, List.reverse_cons, List.reverse_cons, List.append_assoc]
        rfl
      have hlen : (labels d).length = pre.length + [l', l].length := by
        rw [hlabels, List.length_append, List.length_reverse]
      have hwalk : walk ps pre [l', l] = last (walk ps pre [l', l]).length (labels d) := by
        rw [hlabels]
        exact eq_last_of_suffix (walk_suffix ps pre [l', l])
      have hle : (walk ps pre [l', l]).length ≤ (labels d).length := by
        rw [hlabels]
        exact (walk_suffix ps pre [l', l]).length_le
      have htwo : 2 ≤ (walk ps pre [l', l]).length := length_le_walk ps pre [l', l]
      have hstop := walk_iff ps pre [l', l] (hlen ▸ Nat.succ_le_of_lt hlt)
      rw [← hlabels, ← hlen] at hstop
      have hname : some (join (walk ps pre [l', l])) = some (join (last (m + 1) (labels d))) ↔
          (walk ps pre [l', l]).length = m + 1 := by
        rw [Option.some.injEq]
        constructor
        · intro h
          rw [hwalk] at h
          exact join_last_inj hle (Nat.succ_le_of_lt hlt) (by omega) (Nat.succ_pos m) h
        · intro h
          rw [hwalk, h]
      rw [hname, hstop]
      refine and_congr_left' ?_
      show 2 ≤ m + 1 ↔ 1 ≤ m
      omega
  · rw [if_neg hlt]
    exact iff_of_true (fun name h => by cases h) fun h => absurd h hlt

/-- Lower case without blanks around. -/
def plain : TextCasing := ⟨id, id⟩

/-- A rule below a name that is no suffix itself. -/
def deep : PublicSuffix := ofLines plain ["com".toList, "b.c.com".toList]

/-- A wildcard. -/
def wild : PublicSuffix := ofLines plain ["ck".toList, "*.ck".toList]

/-- With the rule `b.c.com` the walk stops at `c.com`, and with `*.ck` it does not stop behind one label. -/
theorem not_domainPart :
    deep.registrable "x.a.b.c.com".toList = some "a.b.c.com".toList ∧
    deep.domainPart plain "x.a.b.c.com".toList .sld = some "c.com".toList ∧
    wild.registrable "a.b.c.ck".toList = some "b.c.ck".toList ∧
    wild.domainPart plain "a.b.c.ck".toList .sld = some "a.b.c.ck".toList := by
  refine ⟨?_, ?_, ?_, ?_⟩ <;> decide

end PublicSuffix

end MailServer.Utils
