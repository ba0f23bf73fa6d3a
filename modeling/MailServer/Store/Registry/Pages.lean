import Mathlib.Data.List.TakeWhile
import MailServer.Store.Registry.Content

/-!
# The answer to a query

A query answers with a page of the objects that satisfy all of its filters, in the order of their ids.

* `Fine`: the conditions of a query.  `Answers`, `IsPage`: what it is to answer.
* `filterResults_deferred`, `queryFilters_deferred`: the filters, when the page is cut in the end.
-/

namespace MailServer.Store.Registry

open MailServer.Types MailServer.Utils MailServer.Store.Write MailServer.Lib List ResultsPagination

/-! ## What is asked for -/

section

variable (u : Unicode) (index : Index) (query : RegistryQuery)

/-- The object is there and satisfies all filters. -/
def Answers (id : Id) : Prop :=
  index[indexIdKey ⟨query.objectType, id⟩]? ≠ none ∧
    ∀ f ∈ query.filters, Satisfies u index query.objectType f id

/-- The page of the answers in increasing order. -/
def IsPage (ids : List Id) : Prop :=
  ∃ full : List Id, full.Pairwise (· < ·) ∧ (∀ id, id ∈ full ↔ Answers u index query id) ∧
    ids = page query.start query.limit full

/-- No object has the words behind a word that no object has. -/
def LeadingWords (object : ObjectType) (property : Property) (words : List (List UInt8)) : Prop :=
  ∀ unmatched rest, words = unmatched ++ rest → unmatched ≠ [] → rest ≠ [] →
    (∀ word ∈ unmatched, ∀ id, ¬ HasValue index object property id word) →
    ∀ id, ¬ ∀ word ∈ rest, HasValue index object property id word

/-- What an object is found by: the bytes of a value, with its key behind the prefix. -/
def FoundBy (object : ObjectType) (f : RegistryFilter) (id : Id) (value key : List UInt8) : Prop :=
  f.op.holds value f.value.toBytes = true ∧
    if f.isPk then Owns index object f.property id value ∧ key = value
    else HasValue index object f.property id value ∧ key = value ++ be64 id.id

/-- The scan of a filter finds whom the filter asks for. -/
def Exact (object : ObjectType) (f : RegistryFilter) : Prop :=
  if f.op = .textMatch then
    ∃ text, f.value = .string text ∧ words u text ≠ [] ∧ LeadingWords index object f.property (words u text)
  else
    (∀ id value value' key key', FoundBy index object f id value key → FoundBy index object f id value' key' →
      value = value') ∧
    if f.isPk then
      ∀ value, f.op.holds value f.value.toBytes = true →
        index[primaryPrefix object f.property.toId ++ value]? ≠ some none
    else
      ∀ id value, HasValue index object f.property id value → f.op.holds value f.value.toBytes = true →
        Scanned f.op f.value.toBytes value id

/-- The keys stand in the order of the ids. -/
def InOrder (object : ObjectType) (f : RegistryFilter) : Prop :=
  ∀ id value key id' value' key', FoundBy index object f id value key →
    FoundBy index object f id' value' key' → key < key' → id < id'

/-- The conditions under which a query answers with its page. -/
structure Fine : Prop where
  exact : ∀ f ∈ query.filters, Exact u index query.objectType f
  /-- a filter that stands alone is cut while it is scanned -/
  order : ∀ f, query.filters = [f] → f.op ≠ .textMatch →
    (query.start = .none ∧ query.limit = none) ∨ InOrder index query.objectType f
  limit : query.limit ≠ some 0
  anchor : ∀ a, query.start = .anchor a →
    if query.filters = [] then a.id ≠ 0xFFFFFFFFFFFFFFFF
    else Answers u index query a ∨ ∀ id, Answers u index query id → id ≤ a

end

variable {u : Unicode} {index : Index} {query : RegistryQuery} {object : ObjectType} {f : RegistryFilter}

/-! ## Pages -/

/-- **Pushing cuts a page**, when the anchor is found. -/
theorem pushed_eq_page {start : RegistryQueryStart} {limit : Option ℕ} {full : List Id}
    (hfull : full.Pairwise (· < ·)) (hlimit : limit ≠ some 0)
    (hanchor : ∀ a, start = .anchor a → a ∈ full ∨ ∀ id ∈ full, id ≤ a) :
    pushed start limit full = page start limit full := by
  have hmax : limit.map (max 1) = limit := by
    cases limit with
    | none => rfl
    | some n =>
      have hn : n ≠ 0 := fun h => hlimit (congrArg some h)
      rw [Option.map_some, max_eq_right (Nat.one_le_iff_ne_zero.mpr hn)]
  unfold pushed page
  congr 1
  cases start with
  | none => rfl
  | index n => rfl
  | anchor a =>
    by_cases ha : a ∈ full
    · convert tail_dropWhile_ne hfull ha
    · have hle := (hanchor a rfl).resolve_left ha
      have hdrop : full.dropWhile (· ≠ a) = [] := by
        rw [dropWhile_eq_nil_iff]
        intro id hid
        exact decide_eq_true fun h => ha (h ▸ hid)
      have hfilter : full.filter (a < ·) = [] := by
        rw [filter_eq_nil_iff]
        intro id hid
        simpa using hle id hid
      dsimp only
      rw [hdrop, hfilter]
      rfl

theorem ResultsPagination.finalize_eq {l : List Id} (hd : (new u query).deferredPagination = true)
    (hl : l.Pairwise (· < ·)) (hlimit : query.limit ≠ some 0)
    (hanchor : ∀ a, query.start = .anchor a → a ∈ l ∨ ∀ id ∈ l, id ≤ a) :
    ({ new u query with list := l }).finalize = page query.start query.limit l := by
  rw [← pushed_eq_page hl hlimit hanchor, finalize]
  have hfresh := fresh_new u query
  split_ifs with h
  · exact pushAll_eq (r := { new u query with list := [], deferredPagination := false })
      ⟨rfl, hfresh.limit, hfresh.offset, hfresh.anchor⟩ rfl l
  · have hnot : l = [] ∨ query.limit = none ∧ (new u query).anchor = none ∧
        (new u query).offset = 0 := by
      by_contra hcon
      refine h ⟨hd, ?_, ?_⟩
      · exact fun hnil => hcon (.inl hnil)
      · by_contra hpage
        simp only [not_or, Option.not_isSome_iff_eq_none, Nat.not_lt, Nat.le_zero] at hpage
        exact hcon (.inr ⟨hpage.1, hpage.2.1, hpage.2.2⟩)
    have ho := hfresh.offset
    have ha := hfresh.anchor
    unfold pushed
    rcases hnot with rfl | ⟨h1, h2, h3⟩
    · cases query.start <;> simp [upTo_nil]
    · rw [h1]
      cases hs : query.start with
      | none => rfl
      | index n =>
        rw [hs, h3] at ho
        subst ho
        rfl
      | anchor a =>
        rw [hs, h2] at ha
        cases ha

/-! ## Filters -/

theorem intersect_spec : ∀ {a b : List Id}, a.Pairwise (· < ·) → b.Pairwise (· < ·) →
    (intersect a b).Pairwise (· < ·) ∧ ∀ id, id ∈ intersect a b ↔ id ∈ a ∧ id ∈ b
  | [], b, _, _ => by simp [intersect]
  | x :: a, b, ha, hb => by
    obtain ⟨hxa, ha⟩ := pairwise_cons.mp ha
    -- what comes before `x` is not in `a`
    have hdrop : b.dropWhile (· < x) = b.filter (fun y => !decide (y < x)) := by
      refine dropWhile_eq_filter hb fun c d hcd hd => ?_
      simp only [decide_eq_true_eq] at hd ⊢
      exact hcd.trans hd
    have hb' : (b.dropWhile (· < x)).Pairwise (· < ·) := by
      rw [hdrop]
      exact hb.sublist filter_sublist
    have hmem : ∀ id, id ∈ b.dropWhile (· < x) ↔ id ∈ b ∧ ¬ id < x := by
      intro id
      rw [hdrop]
      simp
    rw [intersect]
    cases hrest : b.dropWhile (· < x) with
    | nil =>
      rw [hrest] at hmem
      refine ⟨List.Pairwise.nil, fun id => ?_⟩
      have hnot : ¬ (id ∈ b ∧ ¬ id < x) := fun h => not_mem_nil ((hmem id).mpr h)
      simp only [not_mem_nil, false_iff, mem_cons, not_and]
      rintro (rfl | hid) hidb
      · exact hnot ⟨hidb, lt_irrefl id⟩
      · exact hnot ⟨hidb, lt_asymm (hxa id hid)⟩
    | cons y rest =>
      rw [hrest] at hmem hb'
      have hrest' := (pairwise_cons.mp hb').2
      dsimp only
      split_ifs with hy
      · obtain ⟨hsorted, hiff⟩ := intersect_spec ha hrest'
        refine ⟨pairwise_cons.mpr ⟨fun id hid => hxa id ((hiff id).mp hid).1, hsorted⟩, fun id => ?_⟩
        rw [mem_cons, hiff]
        have hid := hmem id
        rw [mem_cons, hy] at hid
        constructor
        · rintro (rfl | ⟨ha', hr⟩)
          · exact ⟨mem_cons_self, (hid.mp (.inl rfl)).1⟩
          · exact ⟨mem_cons_of_mem x ha', (hid.mp (.inr hr)).1⟩
        · rintro ⟨ha', hidb⟩
          rcases mem_cons.mp ha' with rfl | ha'
          · exact .inl rfl
          · exact .inr ⟨ha', (hid.mpr ⟨hidb, lt_asymm (hxa id ha')⟩).resolve_left (hxa id ha').ne'⟩
      · obtain ⟨hsorted, hiff⟩ := intersect_spec ha hb'
        refine ⟨hsorted, fun id => ?_⟩
        rw [hiff, hmem]
        constructor
        · rintro ⟨ha', hidb, -⟩
          exact ⟨mem_cons_of_mem x ha', hidb⟩
        · rintro ⟨ha', hidb⟩
          rcases mem_cons.mp ha' with rfl | ha'
          · -- the first element that is left is `x` only if it is `y`
            have hx := (hmem id).mpr ⟨hidb, lt_irrefl id⟩
            have hlt := (pairwise_cons.mp hb').1 id ((mem_cons.mp hx).resolve_left fun h => hy h.symm)
            exact absurd hlt ((hmem y).mp mem_cons_self).2
          · exact ⟨ha', hidb, lt_asymm (hxa id ha')⟩

theorem filterResults_range (hcontent : Content index query.objectType) (hop : f.op ≠ .textMatch)
    (hexact : Exact u index query.objectType f) :
    ∃ hits : List Id, filterResults u index query f = .ok ((new u query).pushAll hits).sort ∧
      hits.Nodup ∧ (InOrder index query.objectType f → hits.Pairwise (· < ·)) ∧
      ∀ id, id ∈ hits ↔ Satisfies u index query.objectType f id := by
  obtain ⟨property, op, value, isPk⟩ := f
  obtain ⟨hone, hrest⟩ := (if_neg hop).mp hexact
  have hsat : ∀ id, Satisfies u index query.objectType ⟨property, op, value, isPk⟩ id ↔
      if isPk then ∃ v, Owns index query.objectType property id v ∧ op.holds v value.toBytes = true
      else ∃ v, HasValue index query.objectType property id v ∧ op.holds v value.toBytes = true := by
    intro id
    cases op <;> cases isPk <;> first | exact Iff.rfl | exact absurd rfl hop
  cases isPk with
  | false =>
    refine ⟨searchHits index query.objectType property.toId value.toBytes op, ?_, ?_, fun hin => ?_, fun id => ?_⟩
    · rw [filterResults, if_neg hop]
      exact indexRange_eq hcontent hrest (.new u query)
    · refine pairwise_searchHits hcontent fun id v id' v' hhas hhas' hholds hholds' hlt heq => ?_
      subst heq
      obtain rfl := hone id v v' _ _ ⟨hholds, hhas, rfl⟩ ⟨hholds', hhas', rfl⟩
      exact List.lt_irrefl _ hlt
    · exact pairwise_searchHits hcontent fun id v id' v' hhas hhas' hholds hholds' hlt =>
        hin id v _ id' v' _ ⟨hholds, hhas, rfl⟩ ⟨hholds', hhas', rfl⟩ hlt
    · rw [mem_searchHits hcontent, hsat]
      simp
  | true =>
    refine ⟨primaryHits index query.objectType property.toId value.toBytes op, ?_, ?_, fun hin => ?_, fun id => ?_⟩
    · rw [filterResults, if_neg hop]
      exact pkRange_eq hrest (.new u query)
    · refine pairwise_primaryHits fun id v id' v' howns howns' hholds hholds' hlt heq => ?_
      subst heq
      obtain rfl := hone id v v' _ _ ⟨hholds, howns, rfl⟩ ⟨hholds', howns', rfl⟩
      exact List.lt_irrefl _ hlt
    · exact pairwise_primaryHits fun id v id' v' howns howns' hholds hholds' hlt =>
        hin id v _ id' v' _ ⟨hholds, howns, rfl⟩ ⟨hholds', howns', rfl⟩ hlt
    · rw [mem_primaryHits, hsat]
      simp

section

variable (hd : (new u query).deferredPagination = true)

/-- The results of a filter, as a page that is cut later. -/
def Found (u : Unicode) (query : RegistryQuery) (p : Id → Prop) (r : Except QueryError ResultsPagination) : Prop :=
  ∃ l : List Id, r = .ok { new u query with list := l } ∧ l.Pairwise (· < ·) ∧ ∀ id, id ∈ l ↔ p id

include hd

theorem found_of_hits {hits : List Id} (hnodup : hits.Nodup) {p : Id → Prop} (hp : ∀ id, id ∈ hits ↔ p id) :
    Found u query p (.ok ((new u query).pushAll hits).sort) := by
  refine ⟨hits.insertionSort (· ≤ ·), ?_, pairwise_lt_sort hnodup, fun id => ?_⟩
  · rw [pushAll_deferred hd]
    rfl
  · rw [mem_insertionSort, hp]

section

variable (hcontent : Content index query.objectType)
include hcontent

theorem indexRange_equal_deferred (property : Property)
    (word : List UInt8) :
    Found u query (fun id => HasValue index query.objectType property id word)
      (indexRange index query.objectType property.toId word .equal (.new u query)) := by
  rw [indexRange_eq hcontent fun _ _ _ _ => by exact trivial]
  refine found_of_hits hd ((searchHits_equal hcontent).imp ne_of_lt) fun id => ?_
  rw [mem_searchHits hcontent]
  simp [RegistryFilterOp.holds]

theorem textMatches_found (property : Property)
    (words : List (List UInt8)) {l : List Id} (hne : l ≠ []) (hl : l.Pairwise (· < ·)) :
    Found u query (fun id => id ∈ l ∧ ∀ word ∈ words, HasValue index query.objectType property id word)
      (textMatches u index query property words { new u query with list := l }) := by
  induction words generalizing l with
  | nil => exact ⟨l, rfl, hl, fun id => by simp⟩
  | cons word words ih =>
    obtain ⟨l', hrange, hl', hmem⟩ := indexRange_equal_deferred hd hcontent property word
    obtain ⟨hsorted, hiff⟩ := intersect_spec hl hl'
    rw [textMatches, hrange]
    simp only [bind, Except.bind, hne, if_false]
    split_ifs with hempty
    · refine ⟨intersect l l', rfl, hsorted, fun id => ?_⟩
      rw [hempty] at hiff ⊢
      simp only [not_mem_nil, false_iff, mem_cons, forall_eq_or_imp, not_and] at hiff ⊢
      exact fun hid hword => absurd ((hmem id).mpr hword) (hiff id hid)
    · obtain ⟨m, hm, hmsorted, hmmem⟩ := ih hempty hsorted
      refine ⟨m, hm, hmsorted, fun id => ?_⟩
      rw [hmmem]
      simp [hiff, hmem, and_assoc]

/-- **The loop over the words**: the leading words that no object has are passed over. -/
theorem textMatches_deferred (property : Property)
    (words : List (List UInt8)) :
    Found u query (fun id => ∃ unmatched rest, words = unmatched ++ rest ∧ rest ≠ [] ∧
        (∀ word ∈ unmatched, ∀ id, ¬ HasValue index query.objectType property id word) ∧
        ∀ word ∈ rest, HasValue index query.objectType property id word)
      (textMatches u index query property words (.new u query)) := by
  induction words with
  | nil =>
    refine ⟨[], rfl, List.Pairwise.nil, fun id => ?_⟩
    simp only [not_mem_nil, false_iff]
    rintro ⟨unmatched, rest, hnil, hrest, -⟩
    exact hrest (append_eq_nil_iff.mp hnil.symm).2
  | cons word words ih =>
    obtain ⟨l, hrange, hl, hmem⟩ := indexRange_equal_deferred hd hcontent property word
    rw [textMatches, hrange]
    by_cases hempty : l = []
    · have hnone : ∀ id, ¬ HasValue index query.objectType property id word := by
        intro id hid
        have := (hmem id).mpr hid
        rw [hempty] at this
        cases this
      obtain ⟨m, hm, hmsorted, hmmem⟩ := ih
      rw [hempty]
      refine ⟨m, hm, hmsorted, fun id => (hmmem id).trans ⟨?_, ?_⟩⟩
      · rintro ⟨unmatched, rest, rfl, hrest, hun, hall⟩
        refine ⟨word :: unmatched, rest, rfl, hrest, ?_, hall⟩
        rintro w (_ | ⟨_, hw⟩)
        · exact hnone
        · exact hun w hw
      · rintro ⟨_ | ⟨w, unmatched⟩, rest, heq, hrest, hun, hall⟩
        · rw [nil_append] at heq
          exact absurd (hall word (heq ▸ mem_cons_self)) (hnone id)
        · obtain ⟨-, heq⟩ := List.cons.inj heq
          exact ⟨unmatched, rest, heq, hrest, fun w hw => hun w (mem_cons_of_mem _ hw), hall⟩
    · obtain ⟨m, hm, hmsorted, hmmem⟩ := textMatches_found hd hcontent property words hempty hl
      refine ⟨m, hm, hmsorted, fun id => (hmmem id).trans ⟨?_, ?_⟩⟩
      · rintro ⟨hid, hall⟩
        refine ⟨[], word :: words, rfl, cons_ne_nil _ _, by simp, ?_⟩
        rintro w (_ | ⟨_, hw⟩)
        · exact (hmem id).mp hid
        · exact hall w hw
      · rintro ⟨_ | ⟨w, unmatched⟩, rest, heq, hrest, hun, hall⟩
        · subst heq
          exact ⟨(hmem id).mpr (hall word mem_cons_self), fun w hw => hall w (mem_cons_of_mem _ hw)⟩
        · obtain ⟨rfl, -⟩ := List.cons.inj heq
          obtain ⟨id', hid'⟩ := exists_mem_of_ne_nil l hempty
          exact absurd ((hmem id').mp hid') (hun word mem_cons_self id')

theorem filterResults_deferred
    (hexact : Exact u index query.objectType f) :
    Found u query (Satisfies u index query.objectType f) (filterResults u index query f) := by
  obtain ⟨property, op, value, isPk⟩ := f
  by_cases hop : op = .textMatch
  · subst hop
    obtain ⟨text, rfl, hne, hleading⟩ : ∃ text, value = .string text ∧ words u text ≠ [] ∧
        LeadingWords index query.objectType property (words u text) := hexact
    obtain ⟨l, hl, hsorted, hmem⟩ := textMatches_deferred hd hcontent property (words u text)
    refine ⟨l, hl, hsorted, fun id => (hmem id).trans ⟨?_, ?_⟩⟩
    · rintro ⟨unmatched, rest, heq, hrest, hun, hall⟩
      by_cases hnil : unmatched = []
      · rw [hnil] at heq
        exact ⟨text, rfl, heq ▸ hall⟩
      · exact absurd hall (hleading unmatched rest heq hnil hrest hun id)
    · rintro ⟨text', heq, hall⟩
      obtain rfl := RegistryFilterValue.string.inj heq
      exact ⟨[], words u text, rfl, hne, by simp, hall⟩
  · obtain ⟨hits, hresults, hnodup, -, hmem⟩ := filterResults_range hcontent hop hexact
    rw [hresults]
    exact found_of_hits hd hnodup hmem

theorem queryFilters_found (filters : List RegistryFilter)
    (hexact : ∀ f ∈ filters, Exact u index query.objectType f) {l : List Id} (hne : l ≠ [])
    (hl : l.Pairwise (· < ·)) :
    Found u query (fun id => id ∈ l ∧ ∀ f ∈ filters, Satisfies u index query.objectType f id)
      (queryFilters u index query filters { new u query with list := l }) := by
  induction filters generalizing l with
  | nil => exact ⟨l, rfl, hl, fun id => by simp⟩
  | cons f filters ih =>
    obtain ⟨l', hresults, hl', hmem⟩ := filterResults_deferred hd hcontent (hexact f mem_cons_self)
    obtain ⟨hsorted, hiff⟩ := intersect_spec hl hl'
    rw [queryFilters, hresults]
    simp only [bind, Except.bind, hne, if_false]
    split_ifs with hempty
    · refine ⟨intersect l l', rfl, hsorted, fun id => ?_⟩
      rw [hempty] at hiff ⊢
      simp only [not_mem_nil, false_iff, mem_cons, forall_eq_or_imp, not_and] at hiff ⊢
      exact fun hid hf => absurd ((hmem id).mpr hf) (hiff id hid)
    · obtain ⟨m, hm, hmsorted, hmmem⟩ := ih (fun f hf => hexact f (mem_cons_of_mem _ hf)) hempty hsorted
      refine ⟨m, hm, hmsorted, fun id => ?_⟩
      rw [hmmem]
      simp [hiff, hmem, and_assoc]

/-- **The loop over the filters**: the objects that satisfy all of them. -/
theorem queryFilters_deferred {filters : List RegistryFilter}
    (hne : filters ≠ []) (hexact : ∀ f ∈ filters, Exact u index query.objectType f) :
    Found u query (fun id => ∀ f ∈ filters, Satisfies u index query.objectType f id)
      (queryFilters u index query filters (.new u query)) := by
  cases filters with
  | nil => exact absurd rfl hne
  | cons f filters =>
    obtain ⟨l, hresults, hl, hmem⟩ := filterResults_deferred hd hcontent (hexact f mem_cons_self)
    have hnew : (new u query).list = [] := rfl
    rw [queryFilters, hresults]
    simp only [bind, Except.bind, hnew, if_true]
    split_ifs with hempty
    · refine ⟨l, rfl, hl, fun id => ?_⟩
      rw [hempty] at hmem ⊢
      simp only [not_mem_nil, false_iff, mem_cons, forall_eq_or_imp, not_and] at hmem ⊢
      exact fun hf => absurd hf (hmem id)
    · obtain ⟨m, hm, hmsorted, hmmem⟩ := queryFilters_found hd hcontent filters
        (fun f hf => hexact f (mem_cons_of_mem _ hf)) hempty hl
      refine ⟨m, hm, hmsorted, fun id => ?_⟩
      rw [hmmem]
      simp [hmem]

end

end

/-! ## One filter -/

theorem length_le_utf8ByteSize (l : List Char) : l.length ≤ (String.ofList l).utf8ByteSize := by
  induction l with
  | nil => simp
  | cons c l ih =>
    have hcons : String.ofList (c :: l) = String.singleton c ++ String.ofList l := by
      simp
    have hc := c.utf8Size_pos
    rw [hcons, String.utf8ByteSize_append, String.utf8ByteSize_singleton, length_cons]
    omega

theorem words_length {text : String}
    (h : (text.toList.any (fun c => !u.isAlphanumeric c) && decide (1 < text.utf8ByteSize)) = false) :
    (words u text).length ≤ 1 := by
  rw [words, length_map]
  by_cases hany : ∀ c ∈ text.toList, (!u.isAlphanumeric c) = false
  · rw [splitOnP_eq_singleton hany]
    exact length_filter_le _ _
  · have hsize : text.utf8ByteSize ≤ 1 := by
      by_contra hsize
      refine hany fun c hc => ?_
      simp only [Bool.and_eq_false_iff, decide_eq_false_iff_not] at h
      have hany := h.resolve_right (not_not.mpr (not_le.mp hsize))
      simpa using any_eq_false.mp hany c hc
    have hlen := length_le_utf8ByteSize text.toList
    rw [String.ofList_toList] at hlen
    match htext : text.toList, hany with
    | [], _ => simp
    | [c], hany =>
      have hc : (!u.isAlphanumeric c) = true := by simpa using hany
      rw [splitOnP_cons_eq_if_modifyHead, if_pos hc]
      simp
    | c :: d :: l, _ =>
      rw [htext] at hlen
      simp only [length_cons] at hlen
      omega

theorem ResultsPagination.pushAll_deferredPagination (r : ResultsPagination) (ids : List Id) :
    (r.pushAll ids).deferredPagination = r.deferredPagination := by
  induction ids generalizing r with
  | nil => rfl
  | cons id ids ih =>
    have hpush : (r.push id).1.deferredPagination = r.deferredPagination := by
      unfold push
      by_cases hd : r.deferredPagination = true
      · simp [hd]
      · by_cases ho : 0 < r.offset
        · simp [hd, ho]
        · cases r.anchor with
          | none => simp [hd, ho]
          | some a => by_cases hid : id = a <;> simp [hd, ho, hid]
    rw [pushAll]
    dsimp only
    split_ifs
    · rw [ih, hpush]
    · exact hpush

/-- **A page that is cut while it is scanned** is the page, when the hits come in the order of the ids or all of
them are asked for. -/
theorem sort_pushAll_eq_page {hits : List Id} (hd : (new u query).deferredPagination = false)
    (horder : (query.start = .none ∧ query.limit = none) ∧ hits.Nodup ∨ hits.Pairwise (· < ·))
    (hlimit : query.limit ≠ some 0) (hanchor : ∀ a, query.start = .anchor a → a ∈ hits ∨ ∀ id ∈ hits, id ≤ a) :
    (((new u query).pushAll hits).sort).list =
      page query.start query.limit (hits.insertionSort (· ≤ ·)) := by
  have hpushed := pushAll_eq (fresh_new u query) hd hits
  rw [sort, hpushed]
  rcases horder with ⟨⟨hstart, hnone⟩, -⟩ | hsorted
  · rw [hstart, hnone]
    rfl
  · rw [sort_eq_self (hsorted.sublist (pushed_sublist _ _ _)), sort_eq_self hsorted,
      pushed_eq_page hsorted hlimit hanchor]

theorem filterResults_single (hcontent : Content index query.objectType) (hfilters : query.filters = [f])
    (hd : (new u query).deferredPagination = false)
    (hexact : Exact u index query.objectType f)
    (horder : f.op ≠ .textMatch →
      (query.start = .none ∧ query.limit = none) ∨ InOrder index query.objectType f) :
    ∃ hits : List Id, filterResults u index query f = .ok ((new u query).pushAll hits).sort ∧
      ((query.start = .none ∧ query.limit = none) ∧ hits.Nodup ∨ hits.Pairwise (· < ·)) ∧
      ∀ id, id ∈ hits ↔ Satisfies u index query.objectType f id := by
  obtain ⟨property, op, value, isPk⟩ := f
  by_cases hop : op = .textMatch
  · subst hop
    obtain ⟨text, rfl, hne, hleading⟩ : ∃ text, value = .string text ∧ words u text ≠ [] ∧
        LeadingWords index query.objectType property (words u text) := hexact
    have hlength : (words u text).length ≤ 1 := by
      refine words_length ?_
      simpa [new, hfilters, manyWords] using hd
    obtain ⟨word, hword⟩ : ∃ word, words u text = [word] := by
      match hwords : words u text, hne, hlength with
      | [word], _, _ => exact ⟨word, rfl⟩
    have hnew : (new u query).list = [] := rfl
    refine ⟨searchHits index query.objectType property.toId word .equal, ?_, .inr (searchHits_equal hcontent),
      fun id => ?_⟩
    · rw [filterResults]
      dsimp only
      rw [hword, textMatches, indexRange_eq hcontent fun _ _ _ _ => by exact trivial]
      simp [bind, Except.bind, hnew, textMatches]
    · rw [mem_searchHits hcontent]
      simp [Satisfies, RegistryFilterOp.holds, hword]
  · obtain ⟨hits, hresults, hnodup, hsorted, hmem⟩ := filterResults_range hcontent hop hexact
    exact ⟨hits, hresults, (horder hop).imp (fun hall => ⟨hall, hnodup⟩) hsorted, hmem⟩

/-! ## No filter -/

/-- The id in the key of an object. -/
def keyId (key : List UInt8) : Id := ⟨.ofNat (ofBeBytes ((key.drop (1 + U16_LEN * 2)).take U64_LEN))⟩

theorem keyId_indexIdKey (o : ObjectId) : keyId (indexIdKey o) = o.id := by
  have hdrop : (indexIdKey o).drop (1 + U16_LEN * 2) = be64 o.id.id := by
    exact drop_left' (by simp)
  have htake : (be64 o.id.id).take U64_LEN = be64 o.id.id := take_of_length_le (by simp [be64])
  rw [keyId, hdrop, htake, be64, ofBeBytes_beBytes o.id.id.toNat_lt, UInt64.ofNat_toNat]

theorem allIdsLoop_eq (keys : List (List UInt8)) (offset : ℕ) (ids : List Id) :
    allIdsLoop query keys offset ids =
      ((⟨ids, offset, none, query.limit, false⟩ : ResultsPagination).pushAll (keys.map keyId)).list := by
  induction keys generalizing offset ids with
  | nil => rfl
  | cons key keys ih =>
    by_cases ho : offset = 0
    · subst ho
      simp only [allIdsLoop, allIdsStep, if_true, map_cons, pushAll,
        push, Bool.false_eq_true, not_false_eq_true, Nat.lt_irrefl, if_false, ih, keyId]
      split_ifs <;> rfl
    · have hpos : 0 < offset := Nat.pos_of_ne_zero ho
      simp [allIdsLoop, allIdsStep, ho, pushAll,
        push, hpos, ih]

theorem known_of_satisfies (hcontent : Content index object) (hexact : Exact u index object f) {id : Id}
    (h : Satisfies u index object f id) : index[indexIdKey ⟨object, id⟩]? ≠ none := by
  obtain ⟨property, op, value, isPk⟩ := f
  by_cases hop : op = .textMatch
  · subst hop
    obtain ⟨text, rfl, hne, -⟩ : ∃ text, value = .string text ∧ words u text ≠ [] ∧
        LeadingWords index object property (words u text) := hexact
    obtain ⟨text', heq, hall⟩ := h
    obtain rfl := RegistryFilterValue.string.inj heq
    obtain ⟨word, hword⟩ := exists_mem_of_ne_nil _ hne
    exact known_of_hasValue hcontent (hall word hword)
  · cases op <;> cases isPk <;> first
      | exact absurd rfl hop
      | exact h.elim fun v hv => known_of_hasValue hcontent hv.1
      | exact h.elim fun v hv => known_of_owns hcontent hv.1

theorem indexId_of_range (hcontent : Content index object) {itemId : UInt64} {e : List UInt8 × Option ObjectId}
    (he : e ∈ index.range (storeKeyOf (.indexId object.toId itemId))
      (storeKeyOf (.indexId object.toId 0xFFFFFFFFFFFFFFFF))) :
    ∃ id : Id, e.1 = indexIdKey ⟨object, id⟩ := by
  obtain ⟨key, v⟩ := e
  obtain ⟨hmem, hrange⟩ := mem_filter.mp he
  obtain ⟨hlow, hhigh⟩ := of_decide_eq_true hrange
  have hkey : ∀ item : UInt64, storeKeyOf (.indexId object.toId item) =
      SUBSPACE_REGISTRY_IDX :: (be16 0xFFFF ++ (be16 object.toId ++ be64 item)) := fun _ => rfl
  rw [hkey] at hlow hhigh
  rcases hcontent.written _ _ (HashMap.mem_toList.mp hmem) with ⟨o, rfl⟩ | ⟨o, k, rfl, -⟩
  · rw [indexIdKey_eq, append_assoc, cons_lt_cons_iff, append_left_lt_iff,
      append_lt_append_iff (by simp [be16])] at hlow hhigh
    have hlt : ∀ v w : UInt16, be16 v < be16 w ↔ v.toNat < w.toNat := fun v w =>
      beBytes_lt_iff v.toNat_lt w.toNat_lt
    have hge : ¬ be16 o.object.toId < be16 object.toId := fun h => hlow (.inr ⟨rfl, .inl h⟩)
    have hle : ¬ be16 object.toId < be16 o.object.toId := fun h => hhigh (.inr ⟨rfl, .inl h⟩)
    rw [hlt] at hge hle
    have heq : o.object.toId.toNat = object.toId.toNat := by omega
    obtain ⟨object', id⟩ := o
    obtain rfl : object' = object := ObjectType.toId_inj.mp (UInt16.toNat_inj.mp heq)
    exact ⟨id, rfl⟩
  · cases k with
    | search property value =>
      have hlt : be16 o.object.toId < be16 0xFFFF := by
        rw [be16, be16, beBytes_lt_iff o.object.toId.toNat_lt (UInt16.toNat_lt _)]
        have := o.object.lt
        exact this.trans (by decide)
      rw [storeKey_search, append_assoc, append_assoc, cons_lt_cons_iff,
        append_lt_append_iff (by simp [be16])] at hlow
      exact absurd (.inr ⟨rfl, .inl hlt⟩) hlow
    | unique property value₁ value₂ isGlobal =>
      rw [storeKey_unique, cons_lt_cons_iff] at hhigh
      exact absurd (.inl (by decide)) hhigh
    | foreignKey target typeFilter =>
      rw [storeKey_foreignKey, cons_lt_cons_iff] at hhigh
      exact absurd (.inl (by decide)) hhigh

theorem range_indexId (hcontent : Content index object) (itemId : UInt64) :
    ∃ ids : List Id, ((index.range (storeKeyOf (.indexId object.toId itemId))
        (storeKeyOf (.indexId object.toId 0xFFFFFFFFFFFFFFFF))).map Prod.fst).map keyId = ids ∧
      ids.Pairwise (· < ·) ∧
      ∀ id, id ∈ ids ↔ index[indexIdKey ⟨object, id⟩]? ≠ none ∧ itemId.toNat ≤ id.id.toNat := by
  have hlt : ∀ v w : UInt64, storeKeyOf (.indexId object.toId v) < storeKeyOf (.indexId object.toId w) ↔
      v.toNat < w.toNat := fun v w => by
    have hkey : ∀ item : UInt64, storeKeyOf (.indexId object.toId item) =
        (SUBSPACE_REGISTRY_IDX :: (be16 0xFFFF ++ be16 object.toId)) ++ be64 item := fun _ => rfl
    rw [hkey, hkey, append_left_lt_iff, be64, be64, beBytes_lt_iff v.toNat_lt w.toNat_lt]
  refine ⟨_, rfl, ?_, fun id => ?_⟩
  · rw [pairwise_map, pairwise_map]
    have hsorted : (index.range (storeKeyOf (.indexId object.toId itemId))
        (storeKeyOf (.indexId object.toId 0xFFFFFFFFFFFFFFFF))).Pairwise (fun e e' => e.1 < e'.1) :=
      index.pairwise_toList.sublist filter_sublist
    refine hsorted.imp_of_mem fun {e e'} he he' h => ?_
    obtain ⟨id, hid⟩ := indexId_of_range hcontent he
    obtain ⟨id', hid'⟩ := indexId_of_range hcontent he'
    rw [hid, hid'] at h
    rw [hid, hid', keyId_indexIdKey, keyId_indexIdKey]
    exact Id.lt_iff.mpr ((hlt id.id id'.id).mp h)
  · rw [map_map, mem_map]
    constructor
    · rintro ⟨e, he, rfl⟩
      obtain ⟨id, hid⟩ := indexId_of_range hcontent he
      obtain ⟨hmem, hrange⟩ := mem_filter.mp he
      have hlow := (of_decide_eq_true hrange).1
      rw [hid] at hlow
      rw [Function.comp_apply, hid, keyId_indexIdKey]
      refine ⟨?_, Nat.not_lt.mp ((hlt id.id itemId).not.mp hlow)⟩
      have hkey : index[e.1]? = some e.2 := HashMap.mem_toList.mp hmem
      rw [← hid, hkey]
      simp
    · rintro ⟨hknown, hle⟩
      obtain ⟨v, hv⟩ := Option.ne_none_iff_exists'.mp hknown
      refine ⟨(indexIdKey ⟨object, id⟩, v), mem_filter.mpr ⟨HashMap.mem_toList.mpr hv, ?_⟩,
        keyId_indexIdKey _⟩
      refine decide_eq_true ⟨(hlt id.id itemId).not.mpr (Nat.not_lt.mpr hle), (hlt _ id.id).not.mpr ?_⟩
      exact Nat.not_lt.mpr (Nat.le_of_lt_succ id.id.toNat_lt)

/-- **Without filters** the page of all objects. -/
theorem allIds_eq (hcontent : Content index query.objectType) (hlimit : query.limit ≠ some 0)
    (hanchor : ∀ a, query.start = .anchor a → a.id ≠ 0xFFFFFFFFFFFFFFFF) :
    ∃ full : List Id, full.Pairwise (· < ·) ∧
      (∀ id, id ∈ full ↔ index[indexIdKey ⟨query.objectType, id⟩]? ≠ none) ∧
      allIds index query = page query.start query.limit full := by
  have hmax : query.limit.map (max 1) = query.limit := by
    cases hl : query.limit with
    | none => rfl
    | some n =>
      have hn : n ≠ 0 := fun h => hlimit (hl.trans (congrArg some h))
      rw [Option.map_some, max_eq_right (Nat.one_le_iff_ne_zero.mpr hn)]
  -- the page that starts at an offset of the objects from one id on
  have hpage : ∀ (itemId : UInt64) (n : ℕ) (ids : List Id),
      ((index.range (storeKeyOf (.indexId query.objectType.toId itemId))
        (storeKeyOf (.indexId query.objectType.toId 0xFFFFFFFFFFFFFFFF))).map Prod.fst).map keyId = ids →
      allIdsLoop query ((index.range (storeKeyOf (.indexId query.objectType.toId itemId))
        (storeKeyOf (.indexId query.objectType.toId 0xFFFFFFFFFFFFFFFF))).map Prod.fst) n [] =
        upTo query.limit (ids.drop n) := by
    intro itemId n ids hids
    have hfresh : ResultsPagination.Fresh (.index n) query.limit ⟨[], n, none, query.limit, false⟩ :=
      ⟨rfl, rfl, rfl, rfl⟩
    rw [allIdsLoop_eq, hids, pushAll_eq hfresh rfl, pushed, hmax]
  obtain ⟨full, hfull, hsorted, hmem⟩ := range_indexId hcontent 0
  refine ⟨full, hsorted, fun id => by simp [hmem], ?_⟩
  unfold allIds page
  cases hstart : query.start with
  | none => exact hpage 0 0 full hfull
  | index n => exact hpage 0 n full hfull
  | anchor a =>
    obtain ⟨ids, hids, hidsorted, hidmem⟩ := range_indexId hcontent (a.id + 1)
    dsimp only
    rw [hpage _ 0 ids hids, drop_zero]
    congr 1
    have hsucc : (a.id + 1).toNat = a.id.toNat + 1 := by
      have hne := hanchor a hstart
      have hlt := a.id.toNat_lt
      have : a.id.toNat ≠ 0xFFFFFFFFFFFFFFFF := fun h => hne (UInt64.toNat_inj.mp h)
      exact Nat.mod_eq_of_lt (by simp; omega)
    refine eq_of_mem_iff hidsorted (hsorted.sublist filter_sublist) fun id => ?_
    rw [hidmem, mem_filter, hmem, hsucc, decide_eq_true_eq, Id.lt_iff, Nat.succ_le_iff]
    simp

/-! ## Queries -/

/-- The characters of ASCII. -/
def ascii : Unicode where
  isAlphanumeric c := c.isAlphanum
  isLowercase c := c.isLower
  isAlphabetic c := c.isAlpha
  toLowercase s := s

def accountType : ObjectType := ⟨0, by decide⟩

def textProperty : Property := ⟨2, by decide⟩

/-- One account, with one word. -/
def oneWord : Index :=
  Std.TreeMap.ofList [(indexIdKey ⟨accountType, ⟨5⟩⟩, none),
    ((IndexKey.search textProperty (.text "foo")).storeKey ⟨accountType, ⟨5⟩⟩, none)] compare

def textQuery (text : String) : RegistryQuery :=
  ⟨accountType, [⟨textProperty, .textMatch, .string text, false⟩], .none, none⟩

theorem content_oneWord : Content oneWord accountType where
  written key v h := by
    have hmem := HashMap.mem_of_getElem?_ofList h
    simp only [mem_cons, not_mem_nil, or_false] at hmem
    rcases hmem with ⟨rfl, -⟩ | ⟨rfl, rfl⟩
    · exact .inl ⟨_, rfl⟩
    · exact .inr ⟨_, _, rfl, rfl⟩
  known id k h := by
    have hmem := HashMap.mem_of_getElem?_ofList h
    simp only [mem_cons, Prod.mk.injEq, not_mem_nil, or_false] at hmem
    rcases hmem with ⟨hkey, -⟩ | ⟨hkey, -⟩
    · exact absurd hkey (storeKey_ne_indexIdKey k)
    · obtain ⟨ho, -⟩ := storeKey_search_inj hkey.symm
      rw [← ho]
      decide

end MailServer.Store.Registry
