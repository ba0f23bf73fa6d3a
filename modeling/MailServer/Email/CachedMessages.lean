import MailServer.Email.MessageCache
import MailServer.Email.Versions
import MailServer.Jmap.Sync

/-!
# Caches that follow the change log (`email/src/cache/mod.rs`)

A cache is built from the archives when there is none or when the log has been cut, and else takes over what has changed
since by the log.

* `getCachedMessages`: the cache of an account, brought up to date.
* `Step`, `Run`: the account over time: what is committed, how its log is cut, and when its cache is dropped or read.
* `Snapshot`: what a cache knows of the messages, by the last change id it has read.
* `Run.cached`: it has the messages as they are stored.
-/

namespace MailServer.Email.Cache

open MailServer.Common MailServer.Types MailServer.Utils MailServer.Store.Query MailServer.Store.Write
open List Option
open MailServer.Jmap (CacheIds)
open MessagesCache

/-! ## The store -/

structure Mailstore where
  messages : HashMap ℕ MessageRecord
  log : Log
  /-- the last change id of the account -/
  lastChangeId : ℕ

/-- The message has the thread of an item of the log. -/
def hasItem (messages : HashMap ℕ MessageRecord) (item : UInt64) : Bool :=
  (messages[documentOf item]?).any fun m => m.threadId = threadOf item

/-- One change of a batch, with what is written of the messages. -/
def applyChange (changeId : ℕ) (data : UInt64 → MessageRecord) (messages : HashMap ℕ MessageRecord) :
    LogChange → Option (HashMap ℕ MessageRecord)
  | .insertItem item =>
    if messages[documentOf item]?.isNone then
      some (messages.insert (documentOf item) { data item with threadId := threadOf item, changeId })
    else none
  | .updateItem item =>
    if hasItem messages item then
      some (messages.insert (documentOf item) { data item with threadId := threadOf item, changeId })
    else none
  | .deleteItem item => if hasItem messages item then some (messages.erase (documentOf item)) else none
  | _ => some messages

def applyLog (changeId : ℕ) (data : UInt64 → MessageRecord) : List LogChange → HashMap ℕ MessageRecord →
    Option (HashMap ℕ MessageRecord)
  | [], messages => some messages
  | r :: rest, messages => (applyChange changeId data messages r).bind (applyLog changeId data rest)

/-- A batch of some writer, unless it does not fit the messages or change ids have run out. -/
def Mailstore.commit (s : Mailstore) (batch : Entry) (data : UInt64 → MessageRecord) : Option Mailstore :=
  if s.lastChangeId + 1 ≤ u64Max then
    (applyLog (s.lastChangeId + 1) data batch.log s.messages).map fun messages =>
      ⟨messages, s.log ++ [(s.lastChangeId + 1, batch.bytes)], s.lastChangeId + 1⟩
  else none

/-! ## The cache -/

structure MessageStoreCache where
  emails : MessagesCache
  ids : CacheIds

/-- The change of a message: whether it is to be read. -/
def changedItem (changedItems : HashMap ℕ Bool) : Change → HashMap ℕ Bool
  | .insertItem id | .updateItem id => changedItems.insert (documentOf id) true
  -- a message that was already there has got another thread
  | .deleteItem id => changedItems.insert (documentOf id) changedItems[documentOf id]?.isSome
  | _ => changedItems

def changedItems (changes : List Change) : HashMap ℕ Bool := changes.foldl changedItem ∅

/-- The orders in which hash maps are iterated. -/
structure MapOrder where
  iter : HashMap ℕ Bool → List (ℕ × Bool)
  perm : ∀ m, (iter m).Perm m.toList

inductive CacheEvent where
  | cacheMiss | cacheStale | cacheHit | cacheUpdate
  deriving DecidableEq

def fullCacheBuild (s : Mailstore) : MessageStoreCache := ⟨fullEmailCacheBuild s.messages, .build s.log⟩

/-- `get_cached_messages`, with the event that is reported. -/
def getCachedMessages (o : MapOrder) (s : Mailstore) : Option MessageStoreCache →
    Except Trc.Error (MessageStoreCache × CacheEvent)
  | none => .ok (fullCacheBuild s, .cacheMiss)
  | some cache => do
    let changes ← s.log.changes false (.since cache.ids.highest)
    if changes.isTruncated then .ok (fullCacheBuild s, .cacheStale)
    else if changes.changes.isEmpty then .ok (cache, .cacheHit)
    else
      let changed := changedItems changes.changes
      let emails := if changed.isEmpty then cache.emails
        else updateEmailCache s.messages changed (o.iter changed) cache.emails
      .ok (⟨emails, cache.ids.updateMessages changes⟩, .cacheUpdate)

/-! ## Runs -/

/-- The custom keywords of the messages. -/
def customKeywords (messages : HashMap ℕ MessageRecord) : Finset String :=
  (messages.toList.flatMap fun e => e.2.keywords.filterMap fun k =>
    match k with
    | .other name => some name
    | _ => none).toFinset

/-- An account and its cache; `seen` are the custom keywords that messages had when the cache was read, since it was
built. -/
structure State where
  store : Mailstore
  cache : Option MessageStoreCache
  seen : Finset String

def State.initial : State := ⟨⟨∅, [], 0⟩, none, ∅⟩

/-- The cache is read. -/
def State.Reads (s : State) (cache : MessageStoreCache) (s' : State) : Prop :=
  ∃ o event, getCachedMessages o s.store s.cache = .ok (cache, event) ∧
    s' = { s with
      cache := some cache
      seen := (if event = .cacheMiss ∨ event = .cacheStale then ∅ else s.seen) ∪ customKeywords s.store.messages }

inductive Step : State → State → Prop
  | commit {s batch data store} (h : s.store.commit batch data = some store) : Step s { s with store }
  /-- changes of other collections -/
  | other (s : State) (n : ℕ) : Step s { s with store := { s.store with lastChangeId := s.store.lastChangeId + n } }
  | truncate (s : State) (maxEntries : ℕ) :
    Step s { s with store := { s.store with log := truncate maxEntries s.store.log } }
  | evict (s : State) : Step s { s with cache := none }
  | read {s cache s'} (h : s.Reads cache s') : Step s s'

/-- What can be reached. -/
inductive Run : State → Prop
  | initial : Run .initial
  | step {s s'} (h : Run s) (hs : Step s s') : Run s'

/-! ## The archives with the names of keywords -/

/-- The archive of a message, of whose keywords the names are left. -/
def MessageRecord.archive (m : MessageRecord) : Archive :=
  ⟨⟨m.mailboxes, m.keywords.map Keyword.display, m.threadId, m.size⟩, m.changeId⟩

open MessageRecord

/-- The store, with those archives. -/
structure Views (s : Mailstore) (e : Emails) : Prop where
  messages : ∀ id : ℕ, e.messages[id]? = s.messages[id]?.map archive
  log : e.log = s.log
  lastChangeId : e.lastChangeId = s.lastChangeId

/-- The version of a message under the key of an item. -/
def storedIn (known : ℕ → Option MessageRecord) (item : UInt64) : Option ℕ :=
  (known (documentOf item)).bind fun m => if m.threadId = threadOf item then some m.changeId else none

variable {messages : HashMap ℕ MessageRecord} {archives : HashMap ℕ Archive}
  {data : UInt64 → MessageRecord} {r : Store.Query.Changes} {cache : MessageStoreCache}

theorem stored_eq (h : ∀ id : ℕ, archives[id]? = messages[id]?.map archive)
    (item : UInt64) : stored archives item = storedIn (messages[·]?) item := by
  show _ = (messages[documentOf item]?).bind _
  rw [stored, h]
  cases messages[documentOf item]? <;> rfl

theorem hasItem_eq (h : ∀ id : ℕ, archives[id]? = messages[id]?.map archive)
    (item : UInt64) : (stored archives item).isSome = hasItem messages item := by
  rw [stored_eq h]
  show ((messages[documentOf item]?).bind _).isSome = _
  unfold hasItem
  cases messages[documentOf item]? with
  | none => rfl
  | some m =>
    show (if m.threadId = threadOf item then some m.changeId else none).isSome = decide (m.threadId = threadOf item)
    split_ifs with hthread
    · exact (decide_eq_true hthread).symm
    · exact (decide_eq_false hthread).symm

theorem views_applyChange {changeId : ℕ} {messages' : HashMap ℕ MessageRecord}
    (h : ∀ id : ℕ, archives[id]? = messages[id]?.map archive) {r : LogChange}
    (hr : applyChange changeId data messages r = some messages') :
    ∃ archives', Email.applyChange changeId (fun item => (data item).archive.data) archives r = some archives' ∧
      ∀ id : ℕ, archives'[id]? = messages'[id]?.map archive := by
  have hinsert : ∀ (item : UInt64) (id : ℕ), (archives.insert (documentOf item)
      ⟨{ (data item).archive.data with threadId := threadOf item }, changeId⟩)[id]? =
      ((messages.insert (documentOf item) { data item with threadId := threadOf item, changeId })[id]?).map
        archive := by
    intro item id
    rw [HashMap.getElem?_insert, HashMap.getElem?_insert]
    split_ifs
    · rfl
    · exact h id
  cases r with
  | insertContainer id | updateContainer id | updateContainerProperty id | deleteContainer id =>
    obtain rfl := some.inj hr
    exact ⟨archives, rfl, h⟩
  | insertItem item =>
    rw [applyChange] at hr
    split_ifs at hr with hnew
    obtain rfl := some.inj hr
    refine ⟨_, ?_, hinsert item⟩
    have hnone : archives[documentOf item]?.isNone = true := by
      rw [h, isNone_map]
      exact hnew
    rw [Email.applyChange, if_pos hnone]
  | updateItem item =>
    rw [applyChange] at hr
    split_ifs at hr with hthere
    obtain rfl := some.inj hr
    refine ⟨_, ?_, hinsert item⟩
    rw [Email.applyChange, if_pos ((hasItem_eq h item).trans hthere)]
  | deleteItem item =>
    rw [applyChange] at hr
    split_ifs at hr with hthere
    obtain rfl := some.inj hr
    refine ⟨archives.erase (documentOf item), ?_, fun id => ?_⟩
    · rw [Email.applyChange, if_pos ((hasItem_eq h item).trans hthere)]
    · rw [HashMap.getElem?_erase, HashMap.getElem?_erase]
      split_ifs
      · rfl
      · exact h id

theorem views_applyLog {changeId : ℕ} {data : UInt64 → MessageRecord} : ∀ {log : List LogChange}
    {messages messages' : HashMap ℕ MessageRecord} {archives : HashMap ℕ Archive},
    (∀ id : ℕ, archives[id]? = messages[id]?.map archive) →
    applyLog changeId data log messages = some messages' →
    ∃ archives', Email.applyLog changeId (fun item => (data item).archive.data) log archives = some archives' ∧
      ∀ id : ℕ, archives'[id]? = messages'[id]?.map archive
  | [], messages, messages', archives, h, hlog => by
    obtain rfl := some.inj hlog
    exact ⟨archives, rfl, h⟩
  | r :: log, messages, messages', archives, h, hlog => by
    obtain ⟨between, hr, hrest⟩ := bind_eq_some_iff.mp hlog
    obtain ⟨archives₁, hr', h₁⟩ := views_applyChange h hr
    obtain ⟨archives₂, hrest', h₂⟩ := views_applyLog h₁ hrest
    refine ⟨archives₂, ?_, h₂⟩
    rw [Email.applyLog, hr']
    exact hrest'

theorem Views.commit {s s' : Mailstore} {e : Emails} (h : Views s e) {batch : Entry}
    (hs : s.commit batch data = some s') :
    ∃ e', e.commit batch (fun item => (data item).archive.data) = some e' ∧ Views s' e' := by
  unfold Mailstore.commit at hs
  split_ifs at hs with hle
  obtain ⟨messages, happly, rfl⟩ := map_eq_some_iff.mp hs
  obtain ⟨archives, happly', hviews⟩ := views_applyLog h.messages happly
  refine ⟨⟨archives, e.log ++ [(e.lastChangeId + 1, batch.bytes)], e.lastChangeId + 1⟩, ?_, hviews, ?_, ?_⟩
  · rw [Emails.commit, h.lastChangeId, if_pos hle, happly']
    rfl
  · rw [h.log, h.lastChangeId]
  · rw [h.lastChangeId]

theorem changeId_of_applyChange {changeId : ℕ} {messages' : HashMap ℕ MessageRecord} {r : LogChange}
    (hr : applyChange changeId data messages r = some messages') {id : ℕ} {m : MessageRecord}
    (hm : messages'[id]? = some m) : m.changeId = changeId ∨ messages[id]? = some m := by
  have hinsert : ∀ item : UInt64,
      (messages.insert (documentOf item) { data item with threadId := threadOf item, changeId })[id]? = some m →
      m.changeId = changeId ∨ messages[id]? = some m := by
    intro item hm
    rw [HashMap.getElem?_insert] at hm
    split_ifs at hm
    · exact .inl (some.inj hm ▸ rfl)
    · exact .inr hm
  cases r with
  | insertContainer _ | updateContainer _ | updateContainerProperty _ | deleteContainer _ =>
    obtain rfl := some.inj hr
    exact .inr hm
  | insertItem item =>
    rw [applyChange] at hr
    split_ifs at hr
    obtain rfl := some.inj hr
    exact hinsert item hm
  | updateItem item =>
    rw [applyChange] at hr
    split_ifs at hr
    obtain rfl := some.inj hr
    exact hinsert item hm
  | deleteItem item =>
    rw [applyChange] at hr
    split_ifs at hr
    obtain rfl := some.inj hr
    rw [HashMap.getElem?_erase] at hm
    split_ifs at hm
    exact .inr hm

theorem changeId_of_applyLog {changeId : ℕ} {data : UInt64 → MessageRecord} : ∀ {log : List LogChange}
    {messages messages' : HashMap ℕ MessageRecord}, applyLog changeId data log messages = some messages' →
    ∀ {id : ℕ} {m : MessageRecord}, messages'[id]? = some m → m.changeId = changeId ∨ messages[id]? = some m
  | [], messages, messages', hlog, id, m, hm => by
    obtain rfl := some.inj hlog
    exact .inr hm
  | r :: log, messages, messages', hlog, id, m, hm => by
    obtain ⟨between, hr, hrest⟩ := bind_eq_some_iff.mp hlog
    rcases changeId_of_applyLog hrest hm with hid | hbetween
    · exact .inl hid
    · exact changeId_of_applyChange hr hbetween

/-! ## What the log says -/

/-- The document of a change of a message. -/
def documentOfChange : Change → Option ℕ
  | .insertItem id | .updateItem id | .deleteItem id => some (documentOf id)
  | _ => none

/-- The changes of one document. -/
def changesOf (id : ℕ) (l : List Change) : List Change := l.filter fun c => documentOfChange c = some id

/-- Whether a document is to be read, by its changes: not if all that is said is that it has been deleted. -/
def readFlag (l : List Change) : Option Bool :=
  match l with
  | [] => none
  | [.deleteItem _] => some false
  | _ => some true

theorem changedItems_getElem? (l : List Change) (id : ℕ) : (changedItems l)[id]? = readFlag (changesOf id l) := by
  induction l using List.reverseRecOn with
  | nil => exact Std.TreeMap.getElem?_emptyc
  | append_singleton l c ih =>
    have hstep : changedItems (l ++ [c]) = changedItem (changedItems l) c := by
      rw [changedItems, foldl_append]
      rfl
    have hin : documentOfChange c = some id → changesOf id (l ++ [c]) = changesOf id l ++ [c] := by
      intro hc
      simp [changesOf, hc]
    have hout : documentOfChange c ≠ some id → changesOf id (l ++ [c]) = changesOf id l := by
      intro hc
      simp [changesOf, hc]
    have hwrite : ∀ c, (∀ i, c ≠ .deleteItem i) → readFlag (changesOf id l ++ [c]) = some true := by
      intro c hc
      cases hl : changesOf id l with
      | nil => cases c <;> first | rfl | exact absurd rfl (hc _)
      | cons c' l' => cases l' <;> cases c' <;> rfl
    have hdelete : ∀ i, readFlag (changesOf id l ++ [.deleteItem i]) = some (readFlag (changesOf id l)).isSome := by
      intro i
      cases hl : changesOf id l with
      | nil => rfl
      | cons c' l' => cases l' <;> cases c' <;> rfl
    rw [hstep]
    cases c with
    | insertContainer _ | updateContainer _ | updateContainerProperty _ | deleteContainer _ =>
      rw [hout (by simp [documentOfChange])]
      exact ih
    | insertItem i | updateItem i =>
      rw [changedItem, HashMap.getElem?_insert]
      by_cases hid : documentOf i = id
      · rw [if_pos hid, hin (congrArg some hid), hwrite _ (by simp)]
      · rw [if_neg hid, hout fun h => hid (some.inj h)]
        exact ih
    | deleteItem i =>
      rw [changedItem, HashMap.getElem?_insert]
      by_cases hid : documentOf i = id
      · rw [if_pos hid, hin (congrArg some hid), hdelete, hid, ih]
      · rw [if_neg hid, hout fun h => hid (some.inj h)]
        exact ih

theorem kinds_changesOf (item : UInt64) (l : List Change) :
    kinds (.item item) (changesOf (documentOf item) l) = kinds (.item item) l := by
  unfold kinds changesOf
  rw [filterMap_filter]
  apply filterMap_congr
  intro c _
  by_cases hk : c.key = .item item
  · have hdocument : documentOfChange c = some (documentOf item) := by
      cases c <;> cases hk <;> rfl
    simp [hdocument]
  · simp [hk]

theorem changedItems_cases (l : List Change) (id : ℕ) :
    ((changedItems l)[id]? = none ∧ ∀ item, documentOf item = id → kinds (.item item) l = []) ∨
    ((changedItems l)[id]? = some false ∧ ∃ item, documentOf item = id ∧ kinds (.item item) l = [.delete] ∧
      ∀ item', documentOf item' = id → item' ≠ item → kinds (.item item') l = []) ∨
    (changedItems l)[id]? = some true := by
  rw [changedItems_getElem?]
  have hkinds : ∀ item, documentOf item = id → kinds (.item item) l = kinds (.item item) (changesOf id l) := by
    rintro item rfl
    exact (kinds_changesOf item l).symm
  have hmem : ∀ c ∈ changesOf id l, documentOfChange c = some id := by
    intro c hc
    simpa using (mem_filter.mp hc).2
  cases hl : changesOf id l with
  | nil =>
    rw [hl] at hkinds
    exact .inl ⟨rfl, hkinds⟩
  | cons c rest =>
    rw [hl] at hkinds hmem
    cases rest with
    | cons _ _ => cases c <;> exact .inr (.inr rfl)
    | nil =>
      cases c with
      | deleteItem item =>
        have hdocument := some.inj (hmem _ (mem_singleton.mpr rfl))
        refine .inr (.inl ⟨rfl, item, hdocument, ?_, fun item' hitem' hne => ?_⟩)
        · rw [hkinds item hdocument]
          simp [kinds, Change.key, Change.kind]
        · rw [hkinds item' hitem']
          simp [kinds, Change.key, Ne.symm hne]
      | _ => exact .inr (.inr rfl)

/-! ## Snapshots -/

/-- What the history up to a change id has made of the messages. -/
structure Snapshot (s : Mailstore) (h : List (Store.Query.Stored false)) (c : ℕ)
    (known : ℕ → Option MessageRecord) : Prop where
  versions : ∀ item, version (.item item) none (h.filter fun e => e.id ≤ c) = storedIn known item
  items : ∀ id m, known id = some m → ∃ item, documentOf item = id ∧ threadOf item = m.threadId
  /-- what has not been written since is as it was -/
  same : ∀ (id : ℕ) m, s.messages[id]? = some m → m.changeId ≤ c → known id = some m
  le : c ≤ Jmap.lastId h

section

variable {s : Mailstore} {e : Emails} {h : List (Store.Query.Stored false)} {cut c : ℕ} {known : ℕ → Option MessageRecord}

theorem snapshot_now (hviews : Views s e) (hc : Consistent e h cut) (hlast : Jmap.lastId h = c) :
    Snapshot s h c (s.messages[·]?) where
  versions item := by
    have hall : version (keyOf false item) none (h.filter fun e => e.id ≤ c) = version (keyOf false item) none h :=
      Jmap.versionsAt_of_le hc.ascending hlast.le item
    exact hall.trans ((hc.versions item).trans (stored_eq hviews.messages item))
  items id m hm := hc.items id m.archive (by rw [hviews.messages, show s.messages[id]? = some m from hm]; rfl)
  same _ _ hm _ := hm
  le := hlast.ge

variable {r : Store.Query.Changes}

theorem Snapshot.item (hs : Snapshot s h c known) (hviews : Views s e) (hc : Consistent e h cut)
    (hr : s.log.changes false (.since c) = .ok r) (hwhole : r.isTruncated = false) (item : UInt64) :
    (kinds (.item item) r.changes = [] → storedIn (s.messages[·]?) item = storedIn known item) ∧
      (kinds (.item item) r.changes = [.delete] →
        (storedIn known item).isSome ∧ storedIn (s.messages[·]?) item = none) := by
  rw [← hviews.log] at hr
  obtain ⟨r', hr', htruncated, hread⟩ := hc.kept.changes_since hc.ascending c
  obtain rfl := Except.ok.inj (hr.symm.trans hr')
  have hcut : cut ≤ c := by
    by_contra hlt
    rw [htruncated (not_le.mp hlt)] at hwhole
    cases hwhole
  obtain ⟨base, hbase, rfl⟩ := hread hcut
  rw [changes_addAll, hbase.changes_eq, kinds_read, ← stored_eq hviews.messages, ← hc.versions, ← hs.versions]
  have hsplit := filter_le_append hc.ascending c
  have halt := hc.alternates item
  have hversion : version (.item item) none h = version (.item item)
      (version (.item item) none (h.filter fun e => e.id ≤ c)) (h.filter fun e => c < e.id) := by
    conv_lhs => rw [hsplit, version_append]
  rw [hsplit, seen_append, flatten_append, alternates_append] at halt
  have hpresent := isSome_version (.item item) none (h.filter fun e => e.id ≤ c)
  rw [isSome_none] at hpresent
  have halt' := halt.2
  rw [← hpresent] at halt'
  rw [hversion]
  refine ⟨version_of_run_nil halt', fun hdelete => ?_⟩
  have hthere : (version (.item item) none (h.filter fun e => e.id ≤ c)).isSome = true := by
    by_contra habsent
    rw [Bool.eq_false_iff.mpr habsent] at halt'
    rw [run_of_absent halt'] at hdelete
    unfold net at hdelete
    cases hafter : presentAfter false (seen (.item item) (h.filter fun e => c < e.id)).flatten <;>
      rw [hafter] at hdelete <;> cases hdelete
  refine ⟨hthere, ?_⟩
  have hgone : presentAfter true (seen (.item item) (h.filter fun e => c < e.id)).flatten = false := by
    by_contra hstays
    rw [hthere] at halt'
    exact getLast?_run halt' (Bool.not_eq_false _ ▸ hstays) (by rw [hdelete]; rfl)
  have hafter := isSome_version (.item item) (version (.item item) none (h.filter fun e => e.id ≤ c))
    (h.filter fun e => c < e.id)
  rw [hthere, hgone] at hafter
  exact isNone_iff_eq_none.mp (isSome_eq_false_iff.mp hafter)

theorem storedIn_eq_some {known : ℕ → Option MessageRecord} {item : UInt64} {v : ℕ} :
    storedIn known item = some v ↔
      ∃ m, known (documentOf item) = some m ∧ m.threadId = threadOf item ∧ m.changeId = v := by
  unfold storedIn
  rw [bind_eq_some_iff]
  simp only [ite_none_right_eq_some, some.injEq]

/-- **The log says what to read**: what it does not name is as it was, and what it only deletes is gone. -/
theorem Snapshot.read (hs : Snapshot s h c known) (hviews : Views s e) (hc : Consistent e h cut)
    (hr : s.log.changes false (.since c) = .ok r) (hwhole : r.isTruncated = false) (id : ℕ) :
    s.messages[id]? =
      match (changedItems r.changes)[id]? with
      | some true => s.messages[id]?
      | some false => none
      | none => known id := by
  have hitem := hs.item hviews hc hr hwhole
  have hitems : ∀ m, s.messages[id]? = some m → ∃ item, documentOf item = id ∧ threadOf item = m.threadId := by
    intro m hm
    exact hc.items id m.archive (by rw [hviews.messages, hm]; rfl)
  rcases changedItems_cases r.changes id with ⟨hflag, hunread⟩ | ⟨hflag, item, hdocument, hdelete, hothers⟩ | hflag
  · rw [hflag]
    cases hm : s.messages[id]? with
    | some m =>
      obtain ⟨item, rfl, hthread⟩ := hitems m hm
      have hnow : storedIn (s.messages[·]?) item = some m.changeId := storedIn_eq_some.2 ⟨m, hm, hthread.symm, rfl⟩
      rw [(hitem item).1 (hunread item rfl), ← hs.versions] at hnow
      obtain ⟨x, hx, hid⟩ := version_mem hnow
      have hle : m.changeId ≤ c := hid ▸ (by simpa using (mem_filter.mp hx).2)
      exact (hs.same _ m hm hle).symm
    | none =>
      cases hknown : known id with
      | none => rfl
      | some m =>
        obtain ⟨item, rfl, hthread⟩ := hs.items id m hknown
        have hthen : storedIn known item = some m.changeId := storedIn_eq_some.2 ⟨m, hknown, hthread.symm, rfl⟩
        rw [← (hitem item).1 (hunread item rfl)] at hthen
        obtain ⟨m', hm', -⟩ := storedIn_eq_some.1 hthen
        rw [hm] at hm'
        cases hm'
  · rw [hflag]
    cases hm : s.messages[id]? with
    | none => rfl
    | some m =>
      obtain ⟨item', hdocument', hthread'⟩ := hitems m hm
      have hnow : storedIn (s.messages[·]?) item' = some m.changeId :=
        storedIn_eq_some.2 ⟨m, hdocument'.symm ▸ hm, hthread'.symm, rfl⟩
      obtain ⟨hthen, hgone⟩ := (hitem item).2 hdelete
      by_cases heq : item' = item
      · rw [heq, hgone] at hnow
        cases hnow
      · -- both items would have been the document's
        rw [(hitem item').1 (hothers item' hdocument' heq)] at hnow
        obtain ⟨m', hm', hthread₁, -⟩ := storedIn_eq_some.1 hnow
        obtain ⟨v, hv⟩ := isSome_iff_exists.mp hthen
        obtain ⟨m'', hm'', hthread₂, -⟩ := storedIn_eq_some.1 hv
        rw [hdocument'] at hm'
        rw [hdocument, hm'] at hm''
        obtain rfl := some.inj hm''
        exact absurd (eq_of_parts (hdocument'.trans hdocument.symm) (hthread₁.symm.trans hthread₂)) heq
  · rw [hflag]

theorem Snapshot.commit (hs : Snapshot s h c known) {s' : Mailstore} {batch : Entry} {data : UInt64 → MessageRecord}
    (hcommit : s.commit batch data = some s') (hle : Jmap.lastId h ≤ s.lastChangeId) {x : Store.Query.Stored false}
    (hx : Jmap.lastId h < x.id) : Snapshot s' (h ++ [x]) c known := by
  unfold Mailstore.commit at hcommit
  split_ifs at hcommit
  obtain ⟨messages, happly, rfl⟩ := map_eq_some_iff.mp hcommit
  have hgt : ¬ x.id ≤ c := not_le.mpr (hs.le.trans_lt hx)
  have hfilter : (h ++ [x]).filter (fun e => e.id ≤ c) = h.filter fun e => e.id ≤ c := by
    rw [filter_append, filter_cons_of_neg (by simpa using hgt), filter_nil, append_nil]
  refine ⟨fun item => hfilter ▸ hs.versions item, hs.items, fun id m hm hmc => ?_, ?_⟩
  · rcases changeId_of_applyLog happly hm with hid | hm
    · have := hs.le
      omega
    · exact hs.same id m hm hmc
  · have hlast : Jmap.lastId (h ++ [x]) = x.id := by simp [Jmap.lastId]
    rw [hlast]
    exact hs.le.trans hx.le

end

/-! ## Every run -/

theorem mem_customKeywords {name : String} :
    name ∈ customKeywords messages ↔
      ∃ (id : ℕ) (m : MessageRecord), messages[id]? = some m ∧ Keyword.other name ∈ m.keywords := by
  have hname : ∀ k : Keyword, (match k with
      | .other name => some name
      | _ => none) = some name ↔ k = .other name := by
    intro k
    cases k <;> simp
  simp only [customKeywords, List.mem_toFinset, mem_flatMap, mem_filterMap, hname, Prod.exists,
    HashMap.mem_toList]
  constructor
  · rintro ⟨id, m, hm, k, hk, rfl⟩
    exact ⟨id, m, hm, hk⟩
  · rintro ⟨id, m, hm, hk⟩
    exact ⟨id, m, hm, _, hk, rfl⟩

/-- The messages are those of the log, and the cache is a snapshot of them. -/
def Sound (s : State) : Prop :=
  ∃ e h cut, Views s.store e ∧ Consistent e h cut ∧ ∀ cache, s.cache = some cache →
    ∃ known, Snapshot s.store h cache.ids.highest known ∧ Holds s.seen cache.emails known

theorem lastId_le {e : Emails} {h : List (Store.Query.Stored false)} {cut : ℕ} (hc : Consistent e h cut) :
    Jmap.lastId h ≤ e.lastChangeId := by
  unfold Jmap.lastId
  cases hlast : h.getLast? with
  | none => exact Nat.zero_le _
  | some x => exact hc.le x (mem_of_getLast? hlast)

theorem getCachedMessages_some (o : MapOrder) {s : Mailstore} {old : MessageStoreCache}
    (hr : s.log.changes false (.since old.ids.highest) = .ok r) :
    getCachedMessages o s (some old) = .ok (
      if r.isTruncated then (fullCacheBuild s, .cacheStale)
      else if r.changes.isEmpty then (old, .cacheHit)
      else (⟨if (changedItems r.changes).isEmpty then old.emails
        else updateEmailCache s.messages (changedItems r.changes) (o.iter (changedItems r.changes)) old.emails,
        old.ids.updateMessages r⟩, .cacheUpdate)) := by
  unfold getCachedMessages
  simp only [hr]
  show (if r.isTruncated then _ else _) = _
  split_ifs <;> rfl

theorem extends_getCachedMessages {o : MapOrder} {s : Mailstore} {old : MessageStoreCache}
    {event : CacheEvent} (hget : getCachedMessages o s (some old) = .ok (cache, event))
    (hr : s.log.changes false (.since old.ids.highest) = .ok r) (hwhole : r.isTruncated = false)
    {seen : Finset String} {known : ℕ → Option MessageRecord} (hold : Holds seen old.emails known)
    (hseen : ∀ (id : ℕ) (message : MessageRecord), s.messages[id]? = some message →
      ∀ name, Keyword.other name ∈ message.keywords → name ∈ seen) :
    Extends old.emails.keywords cache.emails.keywords := by
  rw [getCachedMessages_some o hr, hwhole, if_neg Bool.false_ne_true] at hget
  have hanswer := Except.ok.inj hget
  split_ifs at hanswer with hempty hnone
  · obtain ⟨rfl, -⟩ := Prod.mk.inj hanswer
    exact fun _ _ h => h
  · obtain ⟨rfl, -⟩ := Prod.mk.inj hanswer
    exact fun _ _ h => h
  · obtain ⟨rfl, -⟩ := Prod.mk.inj hanswer
    exact hold.extends_updateEmailCache hseen _ _

/-- **The cache is read**: it has the messages as they are. -/
theorem Sound.reads {s s' : State} (hs : Sound s) (hr : s.Reads cache s') :
    Holds s'.seen cache.emails (s.store.messages[·]?) ∧ Sound s' := by
  obtain ⟨e, h, cut, hviews, hc, hcache⟩ := hs
  obtain ⟨o, event, hget, rfl⟩ := hr
  have hstored : ∀ (id : ℕ) (message : MessageRecord), s.store.messages[id]? = some message →
      ∀ name, Keyword.other name ∈ message.keywords → ∀ seen : Finset String,
        name ∈ seen ∪ customKeywords s.store.messages := by
    intro id message hm name hname seen
    exact Finset.mem_union_right _ (mem_customKeywords.2 ⟨id, message, hm, hname⟩)
  have hkept : Kept h cut s.store.log := hviews.log ▸ hc.kept
  have hbuilt : ∀ seen : Finset String, Holds (seen ∪ customKeywords s.store.messages) (fullCacheBuild s.store).emails
        (s.store.messages[·]?) ∧
      Snapshot s.store h (fullCacheBuild s.store).ids.highest (s.store.messages[·]?) := by
    intro seen
    refine ⟨holds_fullEmailCacheBuild fun id m hm name hname => hstored id m hm name hname seen, ?_⟩
    exact snapshot_now hviews hc (Jmap.fresh_build hkept hc.ascending).2.symm
  -- the answer is the state's cache, and a snapshot of the messages
  suffices hgoal : ∀ seen : Finset String, (seen = if event = .cacheMiss ∨ event = .cacheStale then ∅ else s.seen) →
      Holds (seen ∪ customKeywords s.store.messages) cache.emails (s.store.messages[·]?) ∧
        ∃ known, Snapshot s.store h cache.ids.highest known ∧
          Holds (seen ∪ customKeywords s.store.messages) cache.emails known by
    obtain ⟨hholds, hknown⟩ := hgoal _ rfl
    refine ⟨hholds, e, h, cut, hviews, hc, fun cache' hcache' => ?_⟩
    obtain rfl := some.inj hcache'
    exact hknown
  intro seen hseen
  cases hold : s.cache with
  | none =>
    rw [hold] at hget
    obtain ⟨rfl, rfl⟩ := Prod.mk.inj (Except.ok.inj hget)
    exact ⟨(hbuilt seen).1, _, (hbuilt seen).2, (hbuilt seen).1⟩
  | some old =>
    obtain ⟨known, hsnapshot, hholds⟩ := hcache old hold
    obtain ⟨r, hr, hcut, hread⟩ := hkept.changes_since hc.ascending old.ids.highest
    rw [hold, getCachedMessages_some o hr] at hget
    have hanswer := Except.ok.inj hget
    by_cases htruncated : r.isTruncated = true
    · rw [if_pos htruncated] at hanswer
      obtain ⟨rfl, rfl⟩ := Prod.mk.inj hanswer
      exact ⟨(hbuilt seen).1, _, (hbuilt seen).2, (hbuilt seen).1⟩
    rw [if_neg htruncated] at hanswer
    have hnow := hsnapshot.read hviews hc hr (Bool.eq_false_iff.mpr htruncated)
    by_cases hempty : r.changes.isEmpty = true
    · -- nothing has changed
      rw [if_pos hempty] at hanswer
      obtain ⟨rfl, rfl⟩ := Prod.mk.inj hanswer
      rw [List.isEmpty_iff.mp hempty] at hnow
      have hholds' : Holds (seen ∪ customKeywords s.store.messages) old.emails known :=
        hholds.mono (hseen ▸ Finset.subset_union_left)
      exact ⟨hholds'.congr hnow, known, hsnapshot, hholds'⟩
    · rw [if_neg hempty] at hanswer
      obtain ⟨rfl, rfl⟩ := Prod.mk.inj hanswer
      have hholds' : Holds (seen ∪ customKeywords s.store.messages) old.emails known :=
        hholds.mono (hseen ▸ Finset.subset_union_left)
      have hlast : Jmap.lastId h = (old.ids.updateMessages r).highest := by
        obtain ⟨base, hbase, rfl⟩ := hread (Nat.not_lt.mp fun hlt => htruncated (hcut hlt))
        refine (Jmap.toChangeId_since (filter_le_append hc.ascending _) (fun hnil => hempty ?_) base).symm
        rw [changes_addAll, hbase.changes_eq, hnil]
        rfl
      have hupdated : Holds (seen ∪ customKeywords s.store.messages)
          (if (changedItems r.changes).isEmpty then old.emails
            else updateEmailCache s.store.messages (changedItems r.changes) (o.iter (changedItems r.changes)) old.emails)
          (s.store.messages[·]?) := by
        split_ifs with hnone
        · refine hholds'.congr fun id => ?_
          have hunchanged : (changedItems r.changes)[id]? = none := Std.TreeMap.getElem?_of_isEmpty hnone
          rw [hnow id, hunchanged]
        · exact (hholds'.updateEmailCache (fun id m hm name hname => hstored id m hm name hname seen)
            fun change => (o.perm _).mem_iff.trans HashMap.mem_toList).congr hnow
      exact ⟨hupdated, _, snapshot_now hviews hc hlast, hupdated⟩

theorem Sound.step {s s' : State} (hs : Sound s) (hstep : Step s s') : Sound s' := by
  cases hstep with
  | read hr => exact (hs.reads hr).2
  | commit hcommit =>
    obtain ⟨e, h, cut, hviews, hc, hcache⟩ := hs
    obtain ⟨e', he', hviews'⟩ := hviews.commit hcommit
    obtain ⟨x, hc'⟩ := hc.commit he'
    have hle : Jmap.lastId h ≤ s.store.lastChangeId := hviews.lastChangeId ▸ lastId_le hc
    have hx : Jmap.lastId h < x.id := by
      rcases eq_nil_or_concat' h with rfl | ⟨fs, y, rfl⟩
      · exact x.pos
      · have hpair := (pairwise_append.mp hc'.ascending).2.2 y (by simp) x (by simp)
        simpa [Jmap.lastId] using hpair
    refine ⟨e', h ++ [x], cut, hviews', hc', fun cache heq => ?_⟩
    obtain ⟨known, hsnapshot, hholds⟩ := hcache cache heq
    exact ⟨known, hsnapshot.commit hcommit hle hx, hholds⟩
  | other n =>
    obtain ⟨e, h, cut, hviews, hc, hcache⟩ := hs
    refine ⟨{ e with lastChangeId := e.lastChangeId + n }, h, cut, ⟨hviews.messages, hviews.log, ?_⟩,
      ⟨hc.ascending, hc.kept, fun x hx => Nat.le_add_right_of_le (hc.le x hx), hc.alternates, hc.versions, hc.items⟩,
      fun cache heq => ?_⟩
    · rw [hviews.lastChangeId]
    · obtain ⟨known, hsnapshot, hholds⟩ := hcache cache heq
      exact ⟨known, ⟨hsnapshot.versions, hsnapshot.items, hsnapshot.same, hsnapshot.le⟩, hholds⟩
  | truncate maxEntries =>
    obtain ⟨e, h, cut, hviews, hc, hcache⟩ := hs
    obtain ⟨cut', hc'⟩ := hc.truncate maxEntries
    refine ⟨{ e with log := truncate maxEntries e.log }, h, cut', ⟨hviews.messages, ?_, hviews.lastChangeId⟩, hc',
      fun cache heq => ?_⟩
    · rw [hviews.log]
    · obtain ⟨known, hsnapshot, hholds⟩ := hcache cache heq
      exact ⟨known, ⟨hsnapshot.versions, hsnapshot.items, hsnapshot.same, hsnapshot.le⟩, hholds⟩
  | evict =>
    obtain ⟨e, h, cut, hviews, hc, -⟩ := hs
    refine ⟨e, h, cut, hviews, hc, fun cache heq => ?_⟩
    cases heq

theorem views_initial : Views State.initial.store ⟨∅, [], 0⟩ := by
  refine ⟨fun id => ?_, rfl, rfl⟩
  rfl

theorem Run.sound {s : State} (hs : Run s) : Sound s := by
  induction hs with
  | initial =>
    refine ⟨⟨∅, [], 0⟩, [], 0, views_initial, consistent_empty, fun cache heq => ?_⟩
    cases heq
  | step _ hstep ih => exact ih.step hstep

/-! ## The contents of caches -/

/-- The keywords that are reported of a message. -/
def reported (cache : MessagesCache) (id : ℕ) : List Keyword :=
  ((cache.emailById id).map fun item => expandKeywords cache.keywords item.keywords).getD []

/-- The same messages, with the same keywords from a set. -/
structure SameContent (cache fresh : MessagesCache) (keywords : Set Keyword) : Prop where
  content : (cache.items.map content).Perm (fresh.items.map content)
  reported : ∀ id, ∀ k ∈ keywords, k ∈ reported cache id ↔ k ∈ reported fresh id
  hasKeyword : ∀ id item item', cache.emailById id = some item → fresh.emailById id = some item' → ∀ k ∈ keywords,
    hasKeyword cache.keywords item.keywords k = hasKeyword fresh.keywords item'.keywords k

section

variable {seen : Finset String} {cache : MessagesCache} {known : ℕ → Option MessageRecord}

theorem mem_reported (h : Holds seen cache known) {id : ℕ} {message : MessageRecord}
    (hmessage : known id = some message) {k : Keyword} :
    k ∈ reported cache id ↔ k ∈ message.keywords ∧ Held cache.keywords k := by
  obtain ⟨item, hitem, hreports⟩ := h.item hmessage
  rw [reported, hitem, map_some, getD_some, mem_expandKeywords h.table.nodup hreports.marks.bound]
  exact hreports.marks.marked k

theorem reported_of_none (h : Holds seen cache known) {id : ℕ} (hnone : known id = none) : reported cache id = [] := by
  cases hitem : cache.emailById id with
  | none =>
    rw [reported, hitem]
    rfl
  | some item =>
    obtain ⟨message, hmessage, -⟩ := h.reports hitem
    rw [hnone] at hmessage
    cases hmessage

end

theorem State.Reads.seen {s s' : State} (hr : s.Reads cache s') (id : ℕ) (message : MessageRecord)
    (hmessage : s.store.messages[id]? = some message) (name : String)
    (hname : Keyword.other name ∈ message.keywords) : name ∈ s'.seen := by
  obtain ⟨o, event, -, rfl⟩ := hr
  exact Finset.mem_union_right _ (mem_customKeywords.2 ⟨id, message, hmessage, hname⟩)

/-- **Caches that are read**: one that has followed the log is like one that is built anew, up to keywords without a
bit. -/
theorem Run.same_content {s s' : State} (hs : Run s) {cache : MessageStoreCache} (hr : s.Reads cache s') :
    SameContent cache.emails (fullEmailCacheBuild s.store.messages)
      {k | (∃ i, k.id = .ok i) ∨ s'.seen.card ≤ maxOthers} ∧
    ∀ (id : ℕ) message, s.store.messages[id]? = some message →
      ∀ k ∈ reported cache.emails id, k ∈ message.keywords := by
  obtain ⟨hcache, -⟩ := hs.sound.reads hr
  have hfresh := holds_fullEmailCacheBuild hr.seen
  have hheld : ∀ {c : MessagesCache}, Holds s'.seen c (s.store.messages[·]?) → ∀ {id : ℕ} {message : MessageRecord},
      s.store.messages[id]? = some message → ∀ {k : Keyword}, ((∃ i, k.id = .ok i) ∨ s'.seen.card ≤ maxOthers) →
      k ∈ message.keywords → Held c.keywords k := by
    rintro c hc id message hmessage k (⟨i, hi⟩ | hcard) hk
    · exact held_of_id (keywordToId_of_id hi)
    · exact hc.held hcard hmessage (hr.seen id message hmessage) hk
  refine ⟨⟨?_, fun id k hk => ?_, fun id item item' hitem hitem' k hk => ?_⟩, fun id message hmessage k hk => ?_⟩
  · refine (perm_ext_iff_of_nodup hcache.nodup_content hfresh.nodup_content).mpr fun x => ?_
    rw [hcache.mem_content, hfresh.mem_content]
  · cases hmessage : s.store.messages[id]? with
    | none => rw [reported_of_none hcache hmessage, reported_of_none hfresh hmessage]
    | some message =>
      rw [mem_reported hcache hmessage, mem_reported hfresh hmessage]
      refine and_congr_right fun hmem => ?_
      exact iff_of_true (hheld hcache hmessage hk hmem) (hheld hfresh hmessage hk hmem)
  · obtain ⟨message, hmessage, hreports⟩ := hcache.reports hitem
    obtain ⟨message', hmessage', hreports'⟩ := hfresh.reports hitem'
    obtain rfl := some.inj (hmessage.symm.trans hmessage')
    rw [Bool.eq_iff_iff, hreports.marks.marked, hreports'.marks.marked]
    refine and_congr_right fun hmem => ?_
    exact iff_of_true (hheld hcache hmessage hk hmem) (hheld hfresh hmessage hk hmem)
  · exact ((mem_reported hcache hmessage).mp hk).1

theorem Sound.exists_reads {s : State} (hs : Sound s) (o : MapOrder) : ∃ cache s', s.Reads cache s' := by
  obtain ⟨e, h, cut, hviews, hc, -⟩ := hs
  cases hcache : s.cache with
  | none => exact ⟨_, _, o, .cacheMiss, by rw [hcache]; rfl, rfl⟩
  | some old =>
    obtain ⟨r, hr, -⟩ := (hviews.log ▸ hc.kept : Kept h cut s.store.log).changes_since hc.ascending old.ids.highest
    exact ⟨_, _, o, _, by rw [hcache, getCachedMessages_some o hr], rfl⟩

/-! ## A message that gets other keywords -/

section

def fromLeast : MapOrder := ⟨fun m => m.toList, fun _ => .rfl⟩

/-- A message, under item `1`. -/
def withKeywords (keywords : List Keyword) (changeId : ℕ) : MessageRecord := ⟨[⟨0, 1⟩], keywords, 0, 10, changeId⟩

def delivery : Entry := ⟨[.insertItem 1], .u32, .u64, by decide⟩

def flagging : Entry := ⟨[.updateItem 1], .u32, .u64, by decide⟩

def delivered (keywords : List Keyword) : Mailstore :=
  ⟨(∅ : HashMap ℕ MessageRecord).insert 1 (withKeywords keywords 1), [(1, delivery.bytes)], 1⟩

def flagged (keywords keywords' : List Keyword) : Mailstore :=
  ⟨((∅ : HashMap ℕ MessageRecord).insert 1 (withKeywords keywords 1)).insert 1 (withKeywords keywords' 2),
    [(1, delivery.bytes), (2, flagging.bytes)], 2⟩

theorem commit_delivery (keywords : List Keyword) :
    State.initial.store.commit delivery (fun _ => withKeywords keywords 0) = some (delivered keywords) := by
  rfl

theorem commit_flagging (keywords keywords' : List Keyword) :
    (delivered keywords).commit flagging (fun _ => withKeywords keywords' 0) = some (flagged keywords keywords') := by
  rfl

/-- The message has been delivered, the cache been built, and then the keywords have been replaced. -/
def beforeRead (keywords keywords' : List Keyword) : State :=
  ⟨flagged keywords keywords', some (fullCacheBuild (delivered keywords)),
    ∅ ∪ customKeywords (delivered keywords).messages⟩

theorem run_beforeRead (keywords keywords' : List Keyword) : Run (beforeRead keywords keywords') := by
  have hdelivered := Run.initial.step (.commit (commit_delivery keywords))
  have hread := hdelivered.step (.read ⟨fromLeast, .cacheMiss, rfl, rfl⟩)
  exact hread.step (.commit (commit_flagging keywords keywords'))

theorem same_content_flagged : ∃ cache s',
    (beforeRead [.seen, .other "work"] [.flagged, .other "home"]).Reads cache s' ∧
      (SameContent cache.emails
          (fullEmailCacheBuild (beforeRead [.seen, .other "work"] [.flagged, .other "home"]).store.messages)
          {k | (∃ i, k.id = .ok i) ∨ s'.seen.card ≤ maxOthers} ∧
        ∀ (id : ℕ) message,
          (beforeRead [.seen, .other "work"] [.flagged, .other "home"]).store.messages[id]? = some message →
          ∀ k ∈ reported cache.emails id, k ∈ message.keywords) := by
  have hrun := run_beforeRead [.seen, .other "work"] [.flagged, .other "home"]
  obtain ⟨cache, s', hr⟩ := hrun.sound.exists_reads fromLeast
  exact ⟨cache, s', hr, hrun.same_content hr⟩

/-- A name of its own for every number. -/
def label (n : ℕ) : String := String.ofList (List.replicate n 'a')

theorem label_injective : Function.Injective label := by
  intro m n h
  have hlist := congrArg String.toList h
  rw [label, label] at hlist
  simpa using congrArg List.length hlist

/-- As many custom keywords as there are bits for. -/
def labels : List Keyword := (List.range maxOthers).map fun n => .other (label n)

def labelSet : Finset String := (Finset.range maxOthers).image label

theorem mem_labels {name : String} : Keyword.other name ∈ labels ↔ name ∈ labelSet := by
  simp [labels, labelSet]

theorem not_held_of_full {seen : Finset String} {table : List String} (htable : Table seen table)
    (hfull : maxOthers ≤ table.length) {name : String} (hname : name ∉ seen) {table' : List String}
    (hextends : Extends table table') : ¬ Held table' (.other name) := by
  have hnot : ¬ Held table (.other name) := fun hheld => hname (htable.subset name (hheld name rfl))
  have hmarks : Marks table 0 [.other name] := by
    refine ⟨(marks_zero table).bound, fun k => ?_, fun hlt => absurd hlt (Nat.not_lt.mpr hfull)⟩
    rw [(marks_zero table).marked, mem_singleton]
    simp only [not_mem_nil, false_and, false_iff, not_and]
    rintro rfl
    exact hnot
  intro hheld
  have hmarked := ((hextends 0 _ hmarks).marked (.other name)).mpr ⟨mem_singleton.mpr rfl, hheld⟩
  rw [hasKeyword_iff] at hmarked
  obtain ⟨id, -, hbit⟩ := hmarked
  simp at hbit

variable {message : MessageRecord}

theorem eq_of_delivered {keywords : List Keyword} {id : ℕ}
    (h : (delivered keywords).messages[id]? = some message) : message = withKeywords keywords 1 := by
  have hget : (delivered keywords).messages[id]? = if 1 = id then some (withKeywords keywords 1)
      else (∅ : HashMap ℕ MessageRecord)[id]? := HashMap.getElem?_insert
  rw [hget] at h
  split_ifs at h
  · exact (some.inj h).symm
  · cases h

theorem eq_of_flagged {keywords keywords' : List Keyword} {id : ℕ}
    (h : (flagged keywords keywords').messages[id]? = some message) : message = withKeywords keywords' 2 := by
  have hget : (flagged keywords keywords').messages[id]? = if 1 = id then some (withKeywords keywords' 2)
      else (delivered keywords).messages[id]? := HashMap.getElem?_insert
  have hdelivered : (delivered keywords).messages[id]? = if 1 = id then some (withKeywords keywords 1)
      else (∅ : HashMap ℕ MessageRecord)[id]? := HashMap.getElem?_insert
  rw [hget] at h
  split_ifs at h hdelivered with hid
  · exact (some.inj h).symm
  · rw [hdelivered] at h
    cases h

theorem holds_labels :
    Holds labelSet (fullEmailCacheBuild (delivered labels).messages) ((delivered labels).messages[·]?) ∧
      maxOthers ≤ (fullEmailCacheBuild (delivered labels).messages).keywords.length := by
  have hseen : ∀ (id : ℕ) (message : MessageRecord), (delivered labels).messages[id]? = some message →
      ∀ name, Keyword.other name ∈ message.keywords → name ∈ labelSet := by
    intro id message hmessage name hname
    obtain rfl := eq_of_delivered hmessage
    exact mem_labels.1 hname
  have hold := holds_fullEmailCacheBuild hseen
  have hcard : labelSet.card = maxOthers := by
    rw [labelSet, Finset.card_image_of_injective _ label_injective, Finset.card_range]
  have hsubset : labelSet ⊆ (fullEmailCacheBuild (delivered labels).messages).keywords.toFinset := by
    intro name hname
    have hmessage : (delivered labels).messages[1]? = some (withKeywords labels 1) := Std.TreeMap.getElem?_insert_self
    exact List.mem_toFinset.mpr
      (hold.held hcard.le hmessage (hseen 1 _ hmessage) (mem_labels.2 hname) name rfl)
  refine ⟨hold, ?_⟩
  rw [← hcard]
  exact (Finset.card_le_card hsubset).trans (toFinset_card_le _)

theorem not_same_content : ¬ ∀ (s s' : State) (cache : MessageStoreCache), Run s → s.Reads cache s' →
    SameContent cache.emails (fullEmailCacheBuild s.store.messages) Set.univ := by
  intro hclaim
  have hrun := run_beforeRead labels [.other (label maxOthers)]
  have hnew : label maxOthers ∉ labelSet := by
    simp [labelSet, label_injective.eq_iff]
  obtain ⟨hold, hfull⟩ := holds_labels
  -- the log of the two commits has not been cut
  obtain ⟨e₁, he₁, hviews₁⟩ := views_initial.commit (commit_delivery labels)
  obtain ⟨x, hc₁⟩ := consistent_empty.commit he₁
  obtain ⟨e₂, he₂, hviews₂⟩ := hviews₁.commit (commit_flagging labels [.other (label maxOthers)])
  obtain ⟨y, hc₂⟩ := hc₁.commit he₂
  have hkept : Kept _ 0 (flagged labels [.other (label maxOthers)]).log := hviews₂.log ▸ hc₂.kept
  obtain ⟨r, hr, -, hread⟩ := hkept.changes_since hc₂.ascending (fullCacheBuild (delivered labels)).ids.highest
  obtain ⟨base, hbase, heq⟩ := hread (Nat.zero_le _)
  have hwhole : r.isTruncated = false := by
    rw [heq, Changes.isTruncated_addAll]
    exact Jmap.isTruncated_of_fromBase hbase
  have hseen : ∀ (id : ℕ) (message : MessageRecord),
      (flagged labels [.other (label maxOthers)]).messages[id]? = some message →
      ∀ name, Keyword.other name ∈ message.keywords → name ∈ ({label maxOthers} : Finset String) := by
    intro id message hmessage name hname
    obtain rfl := eq_of_flagged hmessage
    exact Finset.mem_singleton.mpr (Keyword.other.inj (mem_singleton.mp hname))
  obtain ⟨cache, s', hreads⟩ := hrun.sound.exists_reads fromLeast
  obtain ⟨o, event, hget, -⟩ := id hreads
  have hextends := extends_getCachedMessages hget hr hwhole (hold.mono Finset.subset_union_left)
    fun id message hmessage name hname => Finset.mem_union_right labelSet (hseen id message hmessage name hname)
  have hsame := (hclaim _ _ _ hrun hreads).reported 1 (.other (label maxOthers)) trivial
  have hmessage : (flagged labels [.other (label maxOthers)]).messages[1]? =
      some (withKeywords [.other (label maxOthers)] 2) := Std.TreeMap.getElem?_insert_self
  have hfresh := holds_fullEmailCacheBuild hseen
  have hmem := mem_singleton.mpr (rfl : Keyword.other (label maxOthers) = .other (label maxOthers))
  have hcard : ({label maxOthers} : Finset String).card ≤ maxOthers := (Finset.card_singleton _).trans_le (by decide)
  have hheld := hfresh.held hcard hmessage (hseen 1 _ hmessage) hmem
  have hreported := hsame.mpr ((mem_reported hfresh hmessage).mpr ⟨hmem, hheld⟩)
  exact not_held_of_full hold.table hfull hnew hextends
    ((mem_reported (hrun.sound.reads hreads).1 hmessage).mp hreported).2

end

end MailServer.Email.Cache
