import MailServer.Email.Mailbox
import MailServer.Lib.Indexed
import MailServer.Types.Keyword
import Mathlib.Data.Nat.Bitwise

/-!
# The cache of messages (`email/src/cache/email.rs`)

The keywords of a message are the bits of a number.  Custom keywords get theirs from a table of the cache, as long as
there are bits left.

* `updateEmailCache`, `fullEmailCacheBuild`: the two ways to build a cache.
* `expandKeywords`, `hasKeyword`: the keywords of a message.
* `Marks`: the bits of some keywords, of which those without a place in the table are missing.
-/

namespace MailServer.Email.Cache

open MailServer.Types MailServer.Utils MailServer.Lib List Option

/-- `Archive<MessageData>`: a message with the change that wrote it. -/
structure MessageRecord where
  mailboxes : List UidMailbox
  keywords : List Keyword
  threadId : ℕ
  size : ℕ
  changeId : ℕ

structure MessageCache where
  mailboxes : List UidMailbox
  keywords : ℕ
  threadId : ℕ
  changeId : ℕ
  documentId : ℕ
  size : ℕ

open MessageCache

/-- `MessagesCacheBuilder`, which becomes the `MessagesCache`. -/
structure MessagesCache where
  items : List MessageCache
  index : HashMap ℕ ℕ
  keywords : List String

/-- The custom keywords that there are bits for. -/
def maxOthers : ℕ := 128 - Keyword.firstOther

/-! ## Bits -/

/-- A keyword of a message, with the table and the bits so far. -/
def insertKeyword (s : List String × ℕ) (keyword : Keyword) : List String × ℕ :=
  match keyword.id with
  | .ok id => (s.1, s.2 ||| 1 <<< id)
  | .error custom =>
    match s.1.idxOf? custom with
    | some idx => (s.1, s.2 ||| 1 <<< (Keyword.firstOther + idx))
    | none =>
      if s.1.length < maxOthers then (s.1 ++ [custom], s.2 ||| 1 <<< (Keyword.firstOther + s.1.length)) else s

theorem testBit_bit (i j : ℕ) : (1 <<< i).testBit j = decide (i = j) := by
  rw [Nat.one_shiftLeft, Nat.testBit_two_pow]

theorem xor_log2_lt {bits : ℕ} (h : bits ≠ 0) : bits ^^^ 1 <<< bits.log2 < bits := by
  refine (Nat.lt_pow_two_of_testBit _ fun i hi => ?_).trans_le (Nat.log2_self_le h)
  rw [Nat.testBit_xor, testBit_bit]
  rcases Nat.lt_or_eq_of_le hi with hlt | rfl
  · have hhigh : bits < 2 ^ i := Nat.lt_log2_self.trans_le (Nat.pow_le_pow_right Nat.two_pos hlt)
    rw [Nat.testBit_lt_two_pow hhigh, decide_eq_false hlt.ne]
    rfl
  · rw [Nat.testBit_log2 h, decide_eq_true rfl]
    rfl

/-- `KeywordsIter`: the bits from the highest on. -/
def keywordsIter (bits : ℕ) : List ℕ :=
  if _h : bits = 0 then [] else bits.log2 :: keywordsIter (bits ^^^ 1 <<< bits.log2)
termination_by bits
decreasing_by
  exact xor_log2_lt _h

def keywordToId (table : List String) (keyword : Keyword) : Option ℕ :=
  match keyword.id with
  | .ok id => some id
  | .error name => (table.idxOf? name).map (Keyword.firstOther + ·)

/-- The place of a custom keyword is never missing. -/
def expandKeywords (table : List String) (bits : ℕ) : List Keyword :=
  (keywordsIter bits).map fun id =>
    match Keyword.tryFromId id with
    | .ok keyword => keyword
    | .error id => .other (table[id - Keyword.firstOther]?.getD "")

def hasKeyword (table : List String) (bits : ℕ) (keyword : Keyword) : Bool :=
  match keywordToId table keyword with
  | some id => bits &&& 1 <<< id ≠ 0
  | none => false

namespace MessagesCache

variable (cache : MessagesCache)

def emailById (id : ℕ) : Option MessageCache := cache.index[id]?.bind fun idx => cache.items[idx]?

def emailInsert (item : MessageCache) : MessagesCache :=
  match cache.index[item.documentId]? with
  | some idx => { cache with items := cache.items.set idx item }
  | none =>
    { cache with items := cache.items ++ [item], index := cache.index.insert item.documentId cache.items.length }

def insertItem (documentId : ℕ) (message : MessageRecord) : MessagesCache :=
  let (keywords, bits) := message.keywords.foldl insertKeyword (cache.keywords, 0)
  { cache with keywords }.emailInsert
    { message with keywords := bits, documentId }

def empty : MessagesCache := ⟨[], ∅, []⟩

end MessagesCache

/-- A changed id: the archive as it is now, if it is there. -/
def insertChanged (messages : HashMap ℕ MessageRecord) (cache : MessagesCache) (change : ℕ × Bool) : MessagesCache :=
  if change.2 then
    match messages[change.1]? with
    | some message => cache.insertItem change.1 message
    | none => cache
  else cache

/-- An item of the old cache. -/
def insertUnchanged (changedIds : HashMap ℕ Bool) (cache : MessagesCache) (item : MessageCache) : MessagesCache :=
  if changedIds[item.documentId]?.isSome then cache else cache.emailInsert item

/-- `update_email_cache`, with the changed ids in the order of the hash map. -/
def updateEmailCache (messages : HashMap ℕ MessageRecord) (changedIds : HashMap ℕ Bool) (order : List (ℕ × Bool))
    (storeCache : MessagesCache) : MessagesCache :=
  let cache := order.foldl (insertChanged messages) { MessagesCache.empty with keywords := storeCache.keywords }
  storeCache.items.foldl (insertUnchanged changedIds) cache

/-- `full_email_cache_build`, which reads the archives in the order of their ids. -/
def fullEmailCacheBuild (messages : HashMap ℕ MessageRecord) : MessagesCache :=
  messages.toList.foldl (fun cache (documentId, message) => cache.insertItem documentId message) .empty

/-! ## Marks -/

theorem mem_keywordsIter {bits i : ℕ} : i ∈ keywordsIter bits ↔ bits.testBit i = true := by
  induction bits using keywordsIter.induct with
  | case1 =>
    rw [keywordsIter]
    simp
  | case2 bits h ih =>
    rw [keywordsIter, dif_neg h, mem_cons, ih, Nat.testBit_xor, testBit_bit]
    by_cases hi : bits.log2 = i
    · subst hi
      simp [Nat.testBit_log2 h]
    · simp [hi, Ne.symm hi]

variable {table : List String} {k : Keyword} {id : ℕ}

theorem hasKeyword_iff {bits : ℕ} :
    hasKeyword table bits k = true ↔ ∃ id, keywordToId table k = some id ∧ bits.testBit id = true := by
  unfold hasKeyword
  cases keywordToId table k with
  | none => simp
  | some id =>
    have hand : bits &&& 1 <<< id ≠ 0 ↔ bits.testBit id = true := by
      rw [Nat.one_shiftLeft, Nat.and_two_pow]
      cases bits.testBit id <;> simp
    simpa using hand

theorem keywordToId_of_id {i : ℕ} (h : k.id = .ok i) : keywordToId table k = some i := by
  rw [keywordToId, h]

theorem keywordToId_other (table : List String) (name : String) :
    keywordToId table (.other name) = (table.idxOf? name).map (Keyword.firstOther + ·) := rfl

theorem getElem?_of_idxOf? {name : String} {idx : ℕ} (h : table.idxOf? name = some idx) :
    table[idx]? = some name := by
  obtain ⟨hlt, heq, -⟩ := idxOf?_eq_some_iff.mp h
  rw [getElem?_eq_getElem hlt, heq]

theorem idxOf?_of_getElem? (hnodup : table.Nodup) {name : String} {idx : ℕ}
    (h : table[idx]? = some name) : table.idxOf? name = some idx := by
  obtain ⟨hlt, heq⟩ := List.getElem?_eq_some_iff.mp h
  refine idxOf?_eq_some_iff.mpr ⟨hlt, heq, fun j hj hname => ?_⟩
  exact hj.ne ((hnodup.getElem_inj_iff).mp (hname.trans heq.symm))

theorem keywordToId_lt (h : keywordToId table k = some id) :
    id < Keyword.firstOther + table.length := by
  cases hk : k.id with
  | ok i =>
    rw [keywordToId_of_id hk] at h
    obtain rfl := some.inj h
    exact Nat.lt_add_right _ (Keyword.lt_of_id hk)
  | error name =>
    obtain rfl := Keyword.id_eq_error.mp hk
    obtain ⟨idx, hidx, rfl⟩ := map_eq_some_iff.mp h
    exact Nat.add_lt_add_left (idxOf?_eq_some_iff.mp hidx).1 _

theorem keywordToId_inj {k' : Keyword} (h : keywordToId table k = some id)
    (h' : keywordToId table k' = some id) : k = k' := by
  cases hk : k.id with
  | ok i =>
    rw [keywordToId_of_id hk] at h
    obtain rfl := some.inj h
    cases hk' : k'.id with
    | ok i' =>
      rw [keywordToId_of_id hk'] at h'
      obtain rfl := some.inj h'
      exact Except.ok.inj ((Keyword.tryFromId_eq_ok.mpr hk).symm.trans (Keyword.tryFromId_eq_ok.mpr hk'))
    | error name =>
      obtain rfl := Keyword.id_eq_error.mp hk'
      obtain ⟨idx, -, hid⟩ := map_eq_some_iff.mp h'
      have := Keyword.lt_of_id hk
      omega
  | error name =>
    obtain rfl := Keyword.id_eq_error.mp hk
    obtain ⟨idx, hidx, rfl⟩ := map_eq_some_iff.mp h
    cases hk' : k'.id with
    | ok i' =>
      rw [keywordToId_of_id hk'] at h'
      have := Keyword.lt_of_id hk'
      have := some.inj h'
      omega
    | error name' =>
      obtain rfl := Keyword.id_eq_error.mp hk'
      obtain ⟨idx', hidx', heq⟩ := map_eq_some_iff.mp h'
      obtain rfl : idx' = idx := by omega
      rw [some.inj ((getElem?_of_idxOf? hidx).symm.trans (getElem?_of_idxOf? hidx'))]

/-- The keyword has a bit. -/
def Held (table : List String) (k : Keyword) : Prop := ∀ name, k = .other name → name ∈ table

theorem held_of_id (h : keywordToId table k = some id) : Held table k := by
  rintro name rfl
  obtain ⟨idx, hidx, -⟩ := map_eq_some_iff.mp h
  exact mem_of_getElem? (getElem?_of_idxOf? hidx)

/-- The bits of some keywords: those of them that have a bit.  No keyword is left out as long as there is room. -/
structure Marks (table : List String) (bits : ℕ) (ks : List Keyword) : Prop where
  bound : ∀ i, bits.testBit i = true → i < Keyword.firstOther + table.length
  marked : ∀ k, hasKeyword table bits k = true ↔ k ∈ ks ∧ Held table k
  room : table.length < maxOthers → ∀ k ∈ ks, Held table k

theorem marks_zero (table : List String) : Marks table 0 [] where
  bound i hi := by simp at hi
  marked k := by simp [hasKeyword_iff]
  room _ k hk := absurd hk not_mem_nil

section

variable {table : List String} {bits : ℕ} {ks : List Keyword}

variable {k : Keyword} {seen : Finset String}

theorem Marks.mark (h : Marks table bits ks) {id : ℕ} (hid : keywordToId table k = some id) :
    Marks table (bits ||| 1 <<< id) (ks ++ [k]) := by
  have hbit : ∀ i, (bits ||| 1 <<< id).testBit i = true ↔ bits.testBit i = true ∨ id = i := by
    intro i
    rw [Nat.testBit_or, testBit_bit, Bool.or_eq_true, decide_eq_true_iff]
  refine ⟨fun i hi => ?_, fun k' => ?_, fun hroom k' hk' => ?_⟩
  · rcases (hbit i).mp hi with hi | rfl
    · exact h.bound i hi
    · exact keywordToId_lt hid
  · have hhas : hasKeyword table (bits ||| 1 <<< id) k' = true ↔ hasKeyword table bits k' = true ∨ k' = k := by
      rw [hasKeyword_iff, hasKeyword_iff]
      constructor
      · rintro ⟨id', hid', hi⟩
        rcases (hbit id').mp hi with hi | rfl
        · exact .inl ⟨id', hid', hi⟩
        · exact .inr (keywordToId_inj hid' hid)
      · rintro (⟨id', hid', hi⟩ | rfl)
        · exact ⟨id', hid', (hbit id').mpr (.inl hi)⟩
        · exact ⟨id, hid, (hbit id).mpr (.inr rfl)⟩
    rw [hhas, h.marked, mem_append, mem_singleton, or_and_right]
    refine or_congr_right ⟨?_, fun hk => hk.1⟩
    rintro rfl
    exact ⟨rfl, held_of_id hid⟩
  · rcases mem_append.mp hk' with hk' | hk'
    · exact h.room hroom k' hk'
    · obtain rfl := mem_singleton.mp hk'
      exact held_of_id hid

theorem keywordToId_append {name : String} (hname : name ∉ table) (k : Keyword) :
    keywordToId (table ++ [name]) k =
      if k = .other name then some (Keyword.firstOther + table.length) else keywordToId table k := by
  cases hk : k.id with
  | ok i =>
    rw [keywordToId_of_id hk, keywordToId_of_id hk, if_neg]
    rintro rfl
    cases hk
  | error name' =>
    obtain rfl := Keyword.id_eq_error.mp hk
    rw [keywordToId_other, keywordToId_other]
    have happend : (table ++ [name]).idxOf? name' =
        (table.idxOf? name').or (([name].idxOf? name').map (· + table.length)) := findIdx?_append
    rw [happend]
    by_cases heq : name' = name
    · subst heq
      rw [idxOf?_eq_none_iff.mpr hname]
      simp
    · have hne : ¬ Keyword.other name' = .other name := fun h => heq (Keyword.other.inj h)
      rw [if_neg hne]
      simp [Ne.symm heq]

theorem Marks.push (h : Marks table bits ks) {name : String} (hname : name ∉ table) (hlen : table.length < maxOthers) :
    Marks (table ++ [name]) bits ks := by
  refine ⟨fun i hi => ?_, fun k => ?_, fun _ k hk name' heq => mem_append_left _ (h.room hlen k hk name' heq)⟩
  · rw [length_append, ← Nat.add_assoc]
    exact Nat.lt_add_right _ (h.bound i hi)
  · have hhas : hasKeyword (table ++ [name]) bits k = true ↔ _ := hasKeyword_iff
    rw [keywordToId_append hname] at hhas
    by_cases hk : k = .other name
    · subst hk
      rw [if_pos rfl] at hhas
      rw [hhas]
      constructor
      · rintro ⟨id, hid, hi⟩
        obtain rfl := some.inj hid
        exact absurd (h.bound _ hi) (lt_irrefl _)
      · rintro ⟨hmem, -⟩
        exact absurd (h.room hlen _ hmem name rfl) hname
    · rw [if_neg hk, ← hasKeyword_iff] at hhas
      rw [hhas, h.marked]
      refine and_congr_right fun _ => ⟨fun hheld name' heq => mem_append_left _ (hheld name' heq), ?_⟩
      rintro hheld name' rfl
      rcases mem_append.mp (hheld name' rfl) with hmem | hmem
      · exact hmem
      · exact absurd (congrArg _ (mem_singleton.mp hmem)) hk

theorem insertKeyword_cases (table : List String) (bits : ℕ) (k : Keyword) :
    (∃ id, keywordToId table k = some id ∧ insertKeyword (table, bits) k = (table, bits ||| 1 <<< id)) ∨
    (∃ name, k = .other name ∧ name ∉ table ∧ table.length < maxOthers ∧
      insertKeyword (table, bits) k = (table ++ [name], bits ||| 1 <<< (Keyword.firstOther + table.length))) ∨
    (∃ name, k = .other name ∧ name ∉ table ∧ ¬ table.length < maxOthers ∧
      insertKeyword (table, bits) k = (table, bits)) := by
  cases hk : k.id with
  | ok id => exact .inl ⟨id, keywordToId_of_id hk, by rw [insertKeyword, hk]⟩
  | error name =>
    obtain rfl := Keyword.id_eq_error.mp hk
    cases hidx : table.idxOf? name with
    | some idx =>
      refine .inl ⟨Keyword.firstOther + idx, ?_, ?_⟩
      · rw [keywordToId_other, hidx, map_some]
      · simp [insertKeyword, hk, hidx]
    | none =>
      have hname := idxOf?_eq_none_iff.mp hidx
      by_cases hlen : table.length < maxOthers
      · refine .inr (.inl ⟨name, rfl, hname, hlen, ?_⟩)
        simp [insertKeyword, hk, hidx, if_pos hlen]
      · refine .inr (.inr ⟨name, rfl, hname, hlen, ?_⟩)
        simp [insertKeyword, hk, hidx, if_neg hlen]

theorem Marks.insertKeyword (h : Marks table bits ks) (k : Keyword) :
    Marks (insertKeyword (table, bits) k).1 (insertKeyword (table, bits) k).2 (ks ++ [k]) := by
  rcases insertKeyword_cases table bits k with
    ⟨id, hid, heq⟩ | ⟨name, rfl, hname, hlen, heq⟩ | ⟨name, rfl, hname, hlen, heq⟩
  · rw [heq]
    exact h.mark hid
  · rw [heq]
    refine (h.push hname hlen).mark ?_
    rw [keywordToId_append hname, if_pos rfl]
  · rw [heq]
    refine ⟨h.bound, fun k' => ?_, fun hroom => absurd hroom hlen⟩
    rw [h.marked, mem_append, mem_singleton, or_and_right]
    refine (or_iff_left ?_).symm
    rintro ⟨rfl, hheld⟩
    exact hname (hheld name rfl)

/-- Marks stay what they are when the table grows. -/
def Extends (table table' : List String) : Prop := ∀ bits ks, Marks table bits ks → Marks table' bits ks

theorem extends_insertKeyword (table : List String) (bits : ℕ) (k : Keyword) :
    Extends table (insertKeyword (table, bits) k).1 := by
  intro bits' ks' h
  rcases insertKeyword_cases table bits k with ⟨id, -, heq⟩ | ⟨name, -, hname, hlen, heq⟩ | ⟨name, -, -, -, heq⟩
  · rw [heq]
    exact h
  · rw [heq]
    exact h.push hname hlen
  · rw [heq]
    exact h

/-- The places of different keywords, of which there are not too many, and which are those of a set. -/
structure Table (seen : Finset String) (table : List String) : Prop where
  nodup : table.Nodup
  le : table.length ≤ maxOthers
  subset : ∀ name ∈ table, name ∈ seen

theorem Table.insertKeyword (h : Table seen table) (bits : ℕ)
    (hk : ∀ name, k = .other name → name ∈ seen) : Table seen (insertKeyword (table, bits) k).1 := by
  rcases insertKeyword_cases table bits k with ⟨id, -, heq⟩ | ⟨name, rfl, hname, hlen, heq⟩ | ⟨name, -, -, -, heq⟩
  · rw [heq]
    exact h
  · rw [heq]
    refine ⟨?_, ?_, fun name' hname' => ?_⟩
    · exact nodup_append.mpr ⟨h.nodup, nodup_singleton _, fun a ha b hb hab =>
        hname (mem_singleton.mp hb ▸ hab ▸ ha)⟩
    · rw [length_append]
      exact hlen
    · rcases mem_append.mp hname' with hname' | hname'
      · exact h.subset name' hname'
      · exact hk name' (congrArg _ (mem_singleton.mp hname').symm)
  · rw [heq]
    exact h

theorem foldl_insertKeyword (htable : Table seen table) (h : Marks table bits ks)
    (ks' : List Keyword) (hseen : ∀ name, Keyword.other name ∈ ks' → name ∈ seen) :
    Table seen (ks'.foldl insertKeyword (table, bits)).1 ∧ Extends table (ks'.foldl insertKeyword (table, bits)).1 ∧
      Marks (ks'.foldl insertKeyword (table, bits)).1 (ks'.foldl insertKeyword (table, bits)).2 (ks ++ ks') := by
  induction ks' generalizing table bits ks with
  | nil =>
    rw [append_nil]
    exact ⟨htable, fun _ _ h => h, h⟩
  | cons k ks' ih =>
    have hk : ∀ name, k = .other name → name ∈ seen := fun name heq => hseen name (heq ▸ mem_cons_self)
    have hextends := extends_insertKeyword table bits k
    obtain ⟨htable', hextends', hmarks'⟩ := ih (htable.insertKeyword bits hk) (h.insertKeyword k)
      fun name hname => hseen name (mem_cons_of_mem _ hname)
    rw [append_assoc] at hmarks'
    exact ⟨htable', fun bits ks h => hextends' bits ks (hextends bits ks h), hmarks'⟩

theorem mem_expandKeywords (hnodup : table.Nodup)
    (hbound : ∀ i, bits.testBit i = true → i < Keyword.firstOther + table.length) :
    k ∈ expandKeywords table bits ↔ hasKeyword table bits k = true := by
  rw [expandKeywords, List.mem_map, hasKeyword_iff]
  have hexpand : ∀ id, bits.testBit id = true → ∀ k, keywordToId table k = some id ↔
      (match Keyword.tryFromId id with
        | .ok keyword => keyword
        | .error id => .other (table[id - Keyword.firstOther]?.getD "")) = k := by
    intro id hid k
    by_cases hlt : id < Keyword.firstOther
    · obtain ⟨k', hk'⟩ := Keyword.exists_id hlt
      rw [Keyword.tryFromId_eq_ok.mpr hk']
      exact ⟨fun h => keywordToId_inj (keywordToId_of_id hk') h, fun h => h ▸ keywordToId_of_id hk'⟩
    · obtain ⟨idx, rfl⟩ := Nat.exists_eq_add_of_le (Nat.not_lt.mp hlt)
      have hidx : idx < table.length := Nat.lt_of_add_lt_add_left (hbound _ hid)
      have hplace := keywordToId_other table table[idx]
      rw [idxOf?_of_getElem? hnodup (getElem?_eq_getElem hidx)] at hplace
      rw [Keyword.tryFromId_of_le (Nat.not_lt.mp hlt)]
      simp only [Nat.add_sub_cancel_left, getElem?_eq_getElem hidx]
      exact ⟨fun h => keywordToId_inj hplace h, fun h => h ▸ hplace⟩
  constructor
  · rintro ⟨id, hid, hk⟩
    have hbit := mem_keywordsIter.1 hid
    exact ⟨id, (hexpand id hbit k).mpr hk, hbit⟩
  · rintro ⟨id, hid, hbit⟩
    exact ⟨id, mem_keywordsIter.2 hbit, (hexpand id hbit k).mp hid⟩

end

/-! ## Items -/

/-- The item of a message. -/
structure Reports (table : List String) (item : MessageCache) (documentId : ℕ) (message : MessageRecord) : Prop where
  documentId : item.documentId = documentId
  mailboxes : item.mailboxes = message.mailboxes
  threadId : item.threadId = message.threadId
  changeId : item.changeId = message.changeId
  size : item.size = message.size
  marks : Marks table item.keywords message.keywords

theorem Reports.extends {table' : List String} (hextends : Extends table table')
    {item : MessageCache} {message : MessageRecord}
    (h : Reports table item id message) : Reports table' item id message :=
  { h with marks := hextends _ _ h.marks }

namespace MessagesCache

variable {cache : MessagesCache}

theorem emailInsert_spec (h : Indexed documentId (cache.index[·]?) cache.items) (item : MessageCache) :
    Indexed documentId ((cache.emailInsert item).index[·]?) (cache.emailInsert item).items ∧
      (cache.emailInsert item).keywords = cache.keywords ∧
      ∀ id, (cache.emailInsert item).emailById id = if item.documentId = id then some item else cache.emailById id := by
  cases hidx : cache.index[item.documentId]? with
  | some idx =>
    have heq : cache.emailInsert item = { cache with items := cache.items.set idx item } := by
      simp [emailInsert, hidx]
    obtain ⟨hindexed, hitem⟩ := h.set hidx
    rw [heq]
    exact ⟨hindexed, rfl, hitem⟩
  | none =>
    have heq : cache.emailInsert item =
        ⟨cache.items ++ [item], cache.index.insert item.documentId cache.items.length, cache.keywords⟩ := by
      simp [emailInsert, hidx]
    have hindex : ∀ k, (cache.index.insert item.documentId cache.items.length)[k]? =
        if item.documentId = k then some cache.items.length else cache.index[k]? := fun k => HashMap.getElem?_insert
    obtain ⟨hindexed, hitem⟩ := h.append hidx hindex
    rw [heq]
    exact ⟨hindexed, rfl, hitem⟩

/-- The cache has the items of some messages, and no others; `seen` are the custom keywords of all that were there. -/
structure Holds (seen : Finset String) (cache : MessagesCache) (messages : ℕ → Option MessageRecord) : Prop where
  indexed : Indexed documentId (cache.index[·]?) cache.items
  table : Table seen cache.keywords
  items : ∀ id, Option.Rel (Reports cache.keywords · id) (cache.emailById id) (messages id)

theorem rel_extends {table table' : List String} (hextends : Extends table table') {id : ℕ} {item : Option MessageCache}
    {message : Option MessageRecord} (h : Option.Rel (Reports table · id) item message) :
    Option.Rel (Reports table' · id) item message := by
  cases h with
  | none => exact .none
  | some h => exact .some (h.extends hextends)

section

variable {seen : Finset String} {known : ℕ → Option MessageRecord}

theorem holds_empty {table : List String} (h : Table seen table) :
    Holds seen { empty with keywords := table } fun _ => none where
  indexed := by
    exact indexed_nil
  table := h
  items id := by
    exact .none

variable {id : ℕ} {message : MessageRecord} {known' : ℕ → Option MessageRecord}
  {messages : HashMap ℕ MessageRecord}

section

variable (h : Holds seen cache known)
include h

theorem Holds.reports {item : MessageCache}
    (hitem : cache.emailById id = some item) :
    ∃ message, known id = some message ∧ Reports cache.keywords item id message := by
  have hrel := h.items id
  rw [hitem] at hrel
  cases hmessage : known id with
  | none =>
    rw [hmessage] at hrel
    cases hrel
  | some message =>
    rw [hmessage] at hrel
    cases hrel with
    | some hreports => exact ⟨message, rfl, hreports⟩

theorem Holds.item (hmessage : known id = some message) :
    ∃ item, cache.emailById id = some item ∧ Reports cache.keywords item id message := by
  have hrel := h.items id
  rw [hmessage] at hrel
  cases hitem : cache.emailById id with
  | none =>
    rw [hitem] at hrel
    cases hrel
  | some item =>
    rw [hitem] at hrel
    cases hrel with
    | some hreports => exact ⟨item, rfl, hreports⟩

theorem Holds.congr
    (heq : ∀ id, known' id = known id) : Holds seen cache known' := by
  rwa [show known' = known from funext heq]

theorem Holds.emailInsert {item : MessageCache}
    (hitem : Reports cache.keywords item id message) :
    Holds seen (cache.emailInsert item) (Function.update known id (some message)) := by
  obtain ⟨hindexed, hkeywords, hbyId⟩ := emailInsert_spec h.indexed item
  refine ⟨hindexed, hkeywords ▸ h.table, fun id' => ?_⟩
  rw [hbyId, hkeywords, hitem.documentId]
  split_ifs with hid
  · subst hid
    rw [Function.update_self]
    exact .some hitem
  · rw [Function.update_of_ne (Ne.symm hid)]
    exact h.items id'

theorem Holds.insertItem (id : ℕ)
    (hseen : ∀ name, Keyword.other name ∈ message.keywords → name ∈ seen) :
    Holds seen (cache.insertItem id message) (Function.update known id (some message)) ∧
      Extends cache.keywords (cache.insertItem id message).keywords := by
  obtain ⟨htable, hextends, hmarks⟩ := foldl_insertKeyword h.table (marks_zero _) message.keywords hseen
  let grown : MessagesCache := { cache with keywords := (message.keywords.foldl insertKeyword (cache.keywords, 0)).1 }
  let item : MessageCache :=
    { message with keywords := (message.keywords.foldl insertKeyword (cache.keywords, 0)).2, documentId := id }
  have hgrown : Holds seen grown known := ⟨h.indexed, htable, fun id => rel_extends hextends (h.items id)⟩
  have hitem : Reports grown.keywords item id message := ⟨rfl, rfl, rfl, rfl, rfl, hmarks⟩
  refine ⟨hgrown.emailInsert hitem, ?_⟩
  have hkeywords := (emailInsert_spec hgrown.indexed item).2.1
  show Extends cache.keywords (grown.emailInsert item).keywords
  rw [hkeywords]
  exact hextends

end

/-- **A cache that is built from the archives** has their messages. -/
theorem holds_fullEmailCacheBuild
    (hseen : ∀ (id : ℕ) (message : MessageRecord), messages[id]? = some message →
      ∀ name, Keyword.other name ∈ message.keywords → name ∈ seen) :
    Holds seen (fullEmailCacheBuild messages) (messages[·]?) := by
  have hread : ∀ entries : List (ℕ × MessageRecord), (∀ e ∈ entries, messages[e.1]? = some e.2) →
      Holds seen (entries.foldl (fun cache (documentId, message) => cache.insertItem documentId message) .empty)
        fun id => if id ∈ entries.map Prod.fst then messages[id]? else none := by
    intro entries
    induction entries using List.reverseRecOn with
    | nil =>
      intro _
      have htable : Table seen [] := ⟨nodup_nil, Nat.zero_le _, fun _ h => absurd h not_mem_nil⟩
      exact (holds_empty htable).congr fun id => rfl
    | append_singleton entries e ih =>
      intro hentries
      obtain ⟨id, message⟩ := e
      have hmessage : messages[id]? = some message := hentries (id, message) (by simp)
      rw [foldl_append]
      refine ((ih fun e he => hentries e (mem_append_left _ he)).insertItem id
        (hseen id message hmessage)).1.congr fun id' => ?_
      by_cases hid : id' = id
      · subst hid
        simp [hmessage]
      · have hmem : id' ∈ (entries ++ [(id, message)]).map Prod.fst ↔ id' ∈ entries.map Prod.fst := by
          simp [hid]
        rw [Function.update_of_ne hid]
        exact if_congr hmem rfl rfl
  refine (hread messages.toList fun e he => HashMap.mem_toList.mp he).congr fun id => ?_
  split_ifs with hid
  · rfl
  · cases hmessage : messages[id]? with
    | none => rfl
    | some message => exact absurd (List.mem_map_of_mem (HashMap.mem_toList.mpr hmessage)) hid

theorem Holds.insertChanged (h : Holds seen cache known)
    (hseen : ∀ (id : ℕ) (message : MessageRecord), messages[id]? = some message →
      ∀ name, Keyword.other name ∈ message.keywords → name ∈ seen) (order : List (ℕ × Bool)) :
    Holds seen (order.foldl (insertChanged messages) { empty with keywords := cache.keywords })
        (fun id => if (id, true) ∈ order then messages[id]? else none) ∧
      Extends cache.keywords
        (order.foldl (insertChanged messages) { empty with keywords := cache.keywords }).keywords := by
  induction order using List.reverseRecOn with
  | nil => exact ⟨(holds_empty h.table).congr fun id => rfl, fun _ _ h => h⟩
  | append_singleton order e ih =>
    obtain ⟨hholds, hextends⟩ := ih
    obtain ⟨id, isUpdate⟩ := e
    rw [foldl_append, foldl_cons]
    cases isUpdate with
    | false =>
      refine ⟨hholds.congr fun id' => ?_, hextends⟩
      simp
    | true =>
      unfold Cache.insertChanged
      cases hmessage : messages[id]? with
      | none =>
        refine ⟨hholds.congr fun id' => ?_, hextends⟩
        by_cases hid : id' = id
        · subst hid
          simp [hmessage]
        · simp [hid]
      | some message =>
        obtain ⟨hholds', hextends'⟩ := hholds.insertItem id (hseen id message hmessage)
        refine ⟨hholds'.congr fun id' => ?_, fun bits ks h => hextends' bits ks (hextends bits ks h)⟩
        by_cases hid : id' = id
        · subst hid
          simp [hmessage]
        · simp [hid]

theorem Holds.insertUnchanged {cache' : MessagesCache} (h : Holds seen cache known)
    (changedIds : HashMap ℕ Bool)
    (h' : Holds seen cache' known' ∧ Extends cache.keywords cache'.keywords)
    (items : List MessageCache) (hitems : ∀ item ∈ items, item ∈ cache.items) :
    Holds seen (items.foldl (insertUnchanged changedIds) cache')
        (fun id => if changedIds[id]? = none ∧ id ∈ items.map documentId then known id else known' id) ∧
      Extends cache.keywords (items.foldl (insertUnchanged changedIds) cache').keywords := by
  induction items using List.reverseRecOn with
  | nil => exact ⟨h'.1.congr fun id => by simp, h'.2⟩
  | append_singleton items item ih =>
    obtain ⟨hholds, hextends⟩ := ih fun item hitem => hitems item (mem_append_left _ hitem)
    rw [foldl_append, foldl_cons]
    have hmem : ∀ id, id ∈ (items ++ [item]).map documentId ↔
        id ∈ items.map documentId ∨ id = item.documentId := by
      intro id
      simp
    unfold Cache.insertUnchanged
    cases hchanged : changedIds[item.documentId]? with
    | some isUpdate =>
      refine ⟨hholds.congr fun id => ?_, hextends⟩
      refine if_congr (and_congr_right fun hnone => ?_) rfl rfl
      rw [hmem, or_iff_left]
      rintro rfl
      rw [hchanged] at hnone
      cases hnone
    | none =>
      have hbyId : cache.emailById item.documentId = some item :=
        h.indexed.itemAt_eq_some.mpr ⟨hitems item (by simp), rfl⟩
      obtain ⟨message, hmessage, hreports⟩ := h.reports hbyId
      have hkeywords := (emailInsert_spec hholds.indexed item).2.1
      refine ⟨(hholds.emailInsert (hreports.extends hextends)).congr fun id => ?_, hkeywords ▸ hextends⟩
      by_cases hid : id = item.documentId
      · subst hid
        rw [if_pos ⟨hchanged, (hmem _).mpr (.inr rfl)⟩, Function.update_self, hmessage]
      · rw [Function.update_of_ne hid]
        refine if_congr (and_congr_right fun _ => ?_) rfl rfl
        rw [hmem, or_iff_left hid]

section

variable (h : Holds seen cache known)
  (hseen : ∀ (id : ℕ) (message : MessageRecord), messages[id]? = some message → ∀ name, Keyword.other name ∈ message.keywords → name ∈ seen)
include h hseen

/-- **A cache that is updated** has the messages of the archives where they changed, and its own elsewhere. -/
theorem Holds.updateEmailCache {changedIds : HashMap ℕ Bool}
    {order : List (ℕ × Bool)} (horder : ∀ e, e ∈ order ↔ changedIds[e.1]? = some e.2) :
    Holds seen (updateEmailCache messages changedIds order cache) fun id =>
      match changedIds[id]? with
      | some true => messages[id]?
      | some false => none
      | none => known id := by
  have hkept := (h.insertUnchanged changedIds (h.insertChanged hseen order) cache.items fun _ hitem => hitem).1
  refine hkept.congr fun id => ?_
  have htrue := horder (id, true)
  cases hchanged : changedIds[id]? with
  | some isUpdate =>
    rw [hchanged, some_inj] at htrue
    have hsome : ¬ (some isUpdate = none ∧ id ∈ cache.items.map documentId) :=
      fun hnone => some_ne_none _ hnone.1
    rw [if_neg hsome]
    cases isUpdate with
    | true => rw [if_pos (htrue.mpr rfl)]
    | false => rw [if_neg fun hmem => Bool.false_ne_true (htrue.mp hmem)]
  | none =>
    rw [hchanged] at htrue
    by_cases hid : id ∈ cache.items.map documentId
    · rw [if_pos ⟨rfl, hid⟩]
    · have hnone : known id = none := by
        cases hmessage : known id with
        | none => rfl
        | some message =>
          obtain ⟨item, hitem, -⟩ := h.item hmessage
          obtain ⟨hmem, hitem⟩ := h.indexed.itemAt_eq_some.mp hitem
          exact absurd (List.mem_map.mpr ⟨item, hmem, hitem⟩) hid
      have hfalse : (id, true) ∉ order := fun hmem => some_ne_none _ (htrue.mp hmem).symm
      rw [if_neg fun hmem => hid hmem.2, if_neg hfalse]
      exact hnone

theorem Holds.extends_updateEmailCache (changedIds : HashMap ℕ Bool)
    (order : List (ℕ × Bool)) :
    Extends cache.keywords (Cache.updateEmailCache messages changedIds order cache).keywords :=
  (h.insertUnchanged changedIds (h.insertChanged hseen order) cache.items fun _ hitem => hitem).2

end

theorem Holds.mono {seen' : Finset String} (h : Holds seen cache known) (hsub : seen ⊆ seen') :
    Holds seen' cache known :=
  { h with table := { h.table with subset := fun name hname => hsub (h.table.subset name hname) } }

/-- What is known of a message apart from its keywords. -/
def content (item : MessageCache) : ℕ × ℕ × ℕ × ℕ × List UidMailbox :=
  (item.documentId, item.threadId, item.size, item.changeId, item.mailboxes)

theorem Holds.nodup_content (h : Holds seen cache known) : (cache.items.map content).Nodup := by
  have hnodup := h.indexed.nodup
  have hfst : cache.items.map documentId = (cache.items.map content).map Prod.fst := by
    rw [List.map_map]
    rfl
  rw [hfst] at hnodup
  exact hnodup.of_map

theorem Holds.mem_content (h : Holds seen cache known) {x : ℕ × ℕ × ℕ × ℕ × List UidMailbox} :
    x ∈ cache.items.map content ↔ ∃ id message, known id = some message ∧
      x = (id, message.threadId, message.size, message.changeId, message.mailboxes) := by
  have hcontent : ∀ {item id message}, Reports cache.keywords item id message →
      content item = (id, message.threadId, message.size, message.changeId, message.mailboxes) := by
    intro item id message hreports
    rw [content, hreports.documentId, hreports.threadId, hreports.size, hreports.changeId, hreports.mailboxes]
  rw [List.mem_map]
  constructor
  · rintro ⟨item, hitem, rfl⟩
    obtain ⟨message, hmessage, hreports⟩ := h.reports (h.indexed.itemAt_eq_some.mpr ⟨hitem, rfl⟩)
    exact ⟨item.documentId, message, hmessage, hcontent hreports⟩
  · rintro ⟨id, message, hmessage, rfl⟩
    obtain ⟨item, hitem, hreports⟩ := h.item hmessage
    exact ⟨item, (h.indexed.itemAt_eq_some.mp hitem).1, hcontent hreports⟩

theorem Holds.held (h : Holds seen cache known) (hcard : seen.card ≤ maxOthers)
    (hmessage : known id = some message)
    (hseen : ∀ name, Keyword.other name ∈ message.keywords → name ∈ seen) {k : Keyword}
    (hk : k ∈ message.keywords) : Held cache.keywords k := by
  obtain ⟨item, -, hreports⟩ := h.item hmessage
  rcases Nat.lt_or_ge cache.keywords.length maxOthers with hlt | hge
  · exact hreports.marks.room hlt k hk
  · rintro name rfl
    have hsubset : cache.keywords.toFinset ⊆ seen := fun name hname => h.table.subset name (List.mem_toFinset.mp hname)
    have hall : cache.keywords.toFinset = seen := by
      refine Finset.eq_of_subset_of_card_le hsubset ?_
      rw [toFinset_card_of_nodup h.table.nodup]
      exact hcard.trans hge
    exact List.mem_toFinset.mp (hall ▸ hseen name hk)

end

end MessagesCache

end MailServer.Email.Cache
