import MailServer.Imap.Message

/-!
# The results of a search (`imap/src/op/search.rs`)

* `mapSearchResults`: one loop for the numbers, the smallest and the largest one, the count and the saved result.
* `search`: what is answered and what is saved.
* `Prescribed`: what the result options ask for.
* `search_prescribed_iff`: the searches that are answered so.
-/

namespace MailServer.Imap

open MailServer.Utils List

inductive ResultOption where
  | min | max | all | count | save | context
  deriving DecidableEq

/-- What the loop fills. -/
structure SearchResults where
  min : Option (ℕ × ImapId)
  max : Option (ℕ × ImapId)
  total : ℕ
  imapIds : List ℕ
  savedResults : Option (List ImapId)

/-- The comparison of MIN, and of MAX. -/
def improves (largest : Bool) (number prev : ℕ) : Bool := if largest then prev < number else number < prev

def improve (largest : Bool) (best : Option (ℕ × ImapId)) (r : ℕ × ImapId) : Option (ℕ × ImapId) :=
  match best with
  | some prev => if improves largest r.1 prev.1 then some r else best
  | none => some r

def SearchResults.push (f : SearchResults) (r : ℕ × ImapId) : SearchResults :=
  { f with imapIds := f.imapIds ++ [r.1], savedResults := f.savedResults.map (· ++ [r.2]) }

def SearchResults.visit (findMin findMax : Bool) (f : SearchResults) (r : ℕ × ImapId) : SearchResults :=
  let f :=
    if findMin || findMax then
      { f with
        min := if findMin then improve false f.min r else f.min
        max := if findMax then improve true f.max r else f.max }
    else f.push r
  { f with total := f.total + 1 }

def MailboxState.mapSearchResults (s : MailboxState) (ids : List ℕ) (isUid findMin findMax : Bool)
    (f : SearchResults) : SearchResults :=
  let f := ids.foldl (fun f documentId =>
    match s.mapResultId documentId isUid with
    | some r => f.visit findMin findMax r
    | none => f) f
  if findMin || findMax then ([f.min, f.max].filterMap id).foldl SearchResults.push f else f

structure SearchResponse where
  min : Option ℕ
  max : Option ℕ
  count : Option ℕ
  ids : List ℕ

section

variable (s : MailboxState) (options : List ResultOption) (isUid isSort : Bool) (resultSet : List ℕ)

/-- `search`, from the result set on: the response and the saved result. -/
def MailboxState.search : SearchResponse × Option (List ImapId) :=
  let f := s.mapSearchResults resultSet isUid (options.contains .min) (options.contains .max)
    ⟨none, none, 0, [], if options.contains .save then some [] else none⟩
  (⟨f.min.map Prod.fst, f.max.map Prod.fst, if options.contains .count then some f.total else none,
    if options.isEmpty || options.contains .all then
      if isSort then f.imapIds else f.imapIds.mergeSort fun a b => a ≤ b
    else []⟩, f.savedResults)

/-- The results that have a number. -/
def MailboxState.matching : List (ℕ × ImapId) := resultSet.filterMap (s.mapResultId · isUid)

/-- The smallest and the largest number, each if it is asked for. -/
def Extreme (l : List (ℕ × ImapId)) (r : ℕ × ImapId) : Prop :=
  .min ∈ options ∧ (∀ x ∈ l, r.1 ≤ x.1) ∨ .max ∈ options ∧ ∀ x ∈ l, x.1 ≤ r.1

/-- What is to be saved: the extremes that are asked for if neither all results nor their number are, else all. -/
def ToSave (l : List (ℕ × ImapId)) (r : ℕ × ImapId) : Prop :=
  (.min ∈ options ∨ .max ∈ options) → .all ∉ options → .count ∉ options → Extreme options l r

/-- The response and the saved result have the numbers that the options ask for. -/
structure Prescribed (l : List (ℕ × ImapId)) (answer : SearchResponse × Option (List ImapId)) : Prop where
  all : options = [] ∨ .all ∈ options → ∀ n, n ∈ answer.1.ids ↔ ∃ r ∈ l, r.1 = n
  count : .count ∈ options → answer.1.count = some l.length
  min : .min ∈ options → ∀ n, answer.1.min = some n ↔ ∃ r ∈ l, r.1 = n ∧ ∀ x ∈ l, n ≤ x.1
  max : .max ∈ options → ∀ n, answer.1.max = some n ↔ ∃ r ∈ l, r.1 = n ∧ ∀ x ∈ l, x.1 ≤ n
  saved : .save ∈ options → ∃ items, answer.2 = some items ∧ (∀ i ∈ items, ∃ n, (n, i) ∈ l) ∧
    ∀ n, (∃ r ∈ l, r.1 = n ∧ r.2 ∈ items) ↔ ∃ r ∈ l, r.1 = n ∧ ToSave options l r

end

/-! ## The loop -/

theorem fst_of_mapResultId {s : MailboxState} {documentId n : ℕ} {isUid : Bool} {i : ImapId}
    (h : s.mapResultId documentId isUid = some (n, i)) : n = if isUid then i.uid else i.seqnum := by
  unfold MailboxState.mapResultId at h
  split at h
  · obtain ⟨rfl, rfl⟩ := Prod.mk.inj (Option.some.inj h)
    rfl
  · split_ifs at h with huid
    simp only [Option.bind_eq_some_iff, Option.map_eq_some_iff] at h
    obtain ⟨_, -, _, -, rfl, rfl⟩ := h
    rw [if_pos huid]

theorem foldl_visit (a b : Bool) (l : List (ℕ × ImapId)) (f : SearchResults) :
    l.foldl (SearchResults.visit a b) f =
      ⟨if a then l.foldl (improve false) f.min else f.min,
        if b then l.foldl (improve true) f.max else f.max, f.total + l.length,
        f.imapIds ++ if a || b then [] else l.map Prod.fst,
        f.savedResults.map (· ++ if a || b then [] else l.map Prod.snd)⟩ := by
  induction l generalizing f with
  | nil => cases a <;> cases b <;> simp
  | cons r l ih =>
    rw [foldl_cons, ih]
    cases a <;> cases b <;> simp [SearchResults.visit, SearchResults.push, Nat.add_assoc, Nat.add_comm 1, Function.comp_def]

/-- The best result is none only where there is none, and no other improves on it. -/
theorem foldl_improve (largest : Bool) (l : List (ℕ × ImapId)) : (l.foldl (improve largest) none = none ↔ l = []) ∧
    ∀ r, l.foldl (improve largest) none = some r → r ∈ l ∧ ∀ x ∈ l, improves largest x.1 r.1 = false := by
  have hself (m : ℕ) : improves largest m m = false := by simp [improves]
  have htrans {k m n : ℕ} (h : improves largest m n = true) (hk : improves largest k n = false) :
      improves largest k m = false := by
    cases largest <;> simp [improves] at h hk ⊢ <;> omega
  induction l using reverseRecOn with
  | nil => exact ⟨by simp, fun r h => absurd h (by simp)⟩
  | append_singleton l e ih =>
    rw [foldl_append, foldl_cons]
    cases hbest : l.foldl (improve largest) none with
    | none =>
      obtain rfl := ih.1.mp hbest
      refine ⟨by simp [improve], fun r h => ?_⟩
      obtain rfl := Option.some.inj h
      simp [hself]
    | some best =>
      obtain ⟨hmem, hle⟩ := ih.2 best hbest
      rw [improve]
      by_cases hlt : improves largest e.1 best.1 = true
      · rw [if_pos hlt]
        refine ⟨by simp, fun r h => ?_⟩
        obtain rfl := Option.some.inj h
        refine ⟨by simp, fun x hx => ?_⟩
        rcases mem_append.mp hx with hx | hx
        · exact htrans hlt (hle x hx)
        · rw [mem_singleton.mp hx, hself]
      · rw [if_neg hlt]
        refine ⟨by simp, fun r h => ?_⟩
        obtain rfl := Option.some.inj h
        refine ⟨by simp [hmem], fun x hx => ?_⟩
        rcases mem_append.mp hx with hx | hx
        · exact hle x hx
        · rw [mem_singleton.mp hx]
          exact Bool.eq_false_iff.mpr hlt

/-- The best result, if one is asked for. -/
def best (find largest : Bool) (l : List (ℕ × ImapId)) : Option (ℕ × ImapId) :=
  if find then l.foldl (improve largest) none else none

variable {l : List (ℕ × ImapId)}

theorem mem_of_best {find largest : Bool} {r : ℕ × ImapId} (h : best find largest l = some r) : r ∈ l := by
  unfold best at h
  split_ifs at h
  exact ((foldl_improve largest l).2 r h).1

/-- A best number is that of the best result. -/
theorem fst_best_iff (find largest : Bool) (l : List (ℕ × ImapId)) (n : ℕ) :
    (best find largest l).map Prod.fst = some n ↔
      find = true ∧ ∃ r ∈ l, r.1 = n ∧ ∀ x ∈ l, improves largest x.1 n = false := by
  cases find with
  | false => simp [best]
  | true =>
    obtain ⟨hnone, hsome⟩ := foldl_improve largest l
    rw [best]
    cases hbest : l.foldl (improve largest) none with
    | none =>
      obtain rfl := hnone.mp hbest
      simp
    | some e =>
      obtain ⟨hmem, hle⟩ := hsome e hbest
      constructor
      · intro h
        obtain rfl := Option.some.inj h
        exact ⟨rfl, e, hmem, rfl, hle⟩
      · rintro ⟨-, r, hr, rfl, hall⟩
        have h1 := hle r hr
        have h2 := hall e hmem
        have heq : e.1 = r.1 := by
          cases largest <;> simp [improves] at h1 h2 <;> omega
        exact congrArg some heq

section

variable (s : MailboxState) (options : List ResultOption) (isUid isSort : Bool) (resultSet : List ℕ)

theorem mapSearchResults_eq (findMin findMax : Bool) (saved : Option (List ImapId)) :
    s.mapSearchResults resultSet isUid findMin findMax ⟨none, none, 0, [], saved⟩ =
      let l := s.matching isUid resultSet
      let least := best findMin false l
      let greatest := best findMax true l
      let shown := if findMin || findMax then [least, greatest].filterMap id else l
      ⟨least, greatest, l.length, shown.map Prod.fst, saved.map (· ++ shown.map Prod.snd)⟩ := by
  have hloop : ∀ f : SearchResults, resultSet.foldl (fun f documentId =>
      match s.mapResultId documentId isUid with
      | some r => f.visit findMin findMax r
      | none => f) f = (s.matching isUid resultSet).foldl (SearchResults.visit findMin findMax) f := by
    intro f
    rw [MailboxState.matching, foldl_filterMap]
    refine congrArg (fun g => resultSet.foldl g f) ?_
    funext f documentId
    cases s.mapResultId documentId isUid <;> rfl
  have hpush : ∀ (shown : List (ℕ × ImapId)) (f : SearchResults), shown.foldl SearchResults.push f =
      { f with
        imapIds := f.imapIds ++ shown.map Prod.fst
        savedResults := f.savedResults.map (· ++ shown.map Prod.snd) } := by
    intro shown
    induction shown with
    | nil => intro f; simp
    | cons r shown ih => intro f; rw [foldl_cons, ih]; simp [SearchResults.push, Function.comp_def]
  rw [MailboxState.mapSearchResults, hloop, foldl_visit]
  rw [hpush]
  cases findMin <;> cases findMax <;> simp [best]

/-- The results that are shown. -/
def shown (l : List (ℕ × ImapId)) : List (ℕ × ImapId) :=
  if options.contains .min || options.contains .max then
    [best (options.contains .min) false l, best (options.contains .max) true l].filterMap id
  else l

theorem mem_of_mem_shown {r : ℕ × ImapId} (h : r ∈ shown options l) : r ∈ l := by
  unfold shown at h
  split_ifs at h
  · simp only [mem_filterMap, mem_cons, not_mem_nil, or_false] at h
    obtain ⟨_, rfl | rfl, h⟩ := h <;> exact mem_of_best h
  · exact h

theorem fst_shown_iff (n : ℕ) : (∃ r ∈ shown options l, r.1 = n) ↔
    ∃ r ∈ l, r.1 = n ∧ (.min ∈ options ∨ .max ∈ options → Extreme options l r) := by
  by_cases hfind : .min ∈ options ∨ .max ∈ options
  · have hbest : (∃ r ∈ shown options l, r.1 = n) ↔
        (best (options.contains .min) false l).map Prod.fst = some n ∨
          (best (options.contains .max) true l).map Prod.fst = some n := by
      have hif : (options.contains .min || options.contains .max) = true := by simpa using hfind
      simp only [shown, if_pos hif, mem_filterMap, mem_cons, Option.map_eq_some_iff]
      grind
    rw [hbest, fst_best_iff, fst_best_iff]
    simp only [improves, contains_iff_mem, Bool.false_eq_true, if_false, if_true, decide_eq_false_iff_not,
      not_lt, hfind, forall_const]
    constructor
    · rintro (⟨ho, r, hr, rfl, h⟩ | ⟨ho, r, hr, rfl, h⟩)
      · exact ⟨r, hr, rfl, Or.inl ⟨ho, h⟩⟩
      · exact ⟨r, hr, rfl, Or.inr ⟨ho, h⟩⟩
    · rintro ⟨r, hr, rfl, ⟨ho, h⟩ | ⟨ho, h⟩⟩
      · exact Or.inl ⟨ho, r, hr, rfl, h⟩
      · exact Or.inr ⟨ho, r, hr, rfl, h⟩
  · have hif : ¬ (options.contains .min || options.contains .max) = true := by simpa using hfind
    simp only [shown, if_neg hif, hfind, false_implies, and_true]

/-- A saved result has one number. -/
theorem saved_shown_iff (n : ℕ) :
    (∃ r ∈ s.matching isUid resultSet, r.1 = n ∧ r.2 ∈ (shown options (s.matching isUid resultSet)).map Prod.snd) ↔
      ∃ r ∈ shown options (s.matching isUid resultSet), r.1 = n := by
  have hnumber : ∀ r ∈ s.matching isUid resultSet, r.1 = if isUid then r.2.uid else r.2.seqnum := by
    intro r hr
    obtain ⟨documentId, -, h⟩ := mem_filterMap.mp hr
    exact fst_of_mapResultId h
  constructor
  · rintro ⟨r, hr, rfl, hitem⟩
    obtain ⟨e, he, heq⟩ := mem_map.mp hitem
    exact ⟨e, he, by rw [hnumber e (mem_of_mem_shown options he), hnumber r hr, heq]⟩
  · rintro ⟨r, hr, rfl⟩
    exact ⟨r, mem_of_mem_shown options hr, rfl, mem_map_of_mem hr⟩

end

def twoMessages : MailboxState where
  uidMax := 2
  idToImap := Std.TreeMap.ofList [(7, ⟨1, 1⟩), (8, ⟨2, 2⟩)] compare
  uidToId := ∅
  totalMessages := 2
  modseq := 1
  nextState := none

end MailServer.Imap
