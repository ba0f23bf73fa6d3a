import MailServer.Common.Transaction
import MailServer.Email.Mailbox
import MailServer.Types.Id

/-!
# Messages and the log of their changes

The archive of a message holds the id of the change that wrote it, and the log has an entry for that change.

* `Emails.commit`: what a writer commits, by what it logs of each message.
* `Consistent`: the version of a message is the last change of it in the history of the log.
* `changeId_le_of_unread`, `not_stored_of_unread`: what is known of a message that a query does not return.
-/

namespace MailServer.Email

open MailServer.Common MailServer.Types MailServer.Utils MailServer.Store.Query MailServer.Store.Write
open List Option

/-- The archive of a message, with the change that wrote it. -/
structure Archive where
  data : MessageData
  changeId : ℕ

structure Emails where
  messages : HashMap ℕ Archive
  log : Log
  /-- the last change id of the account -/
  lastChangeId : ℕ

/-- The document of an item in the log. -/
def documentOf (item : UInt64) : ℕ := (Id.mk item).documentId.toNat

/-- The thread of an item in the log. -/
def threadOf (item : UInt64) : ℕ := (Id.mk item).prefixId.toNat

/-- The version of a message under the key of an item. -/
def stored (messages : HashMap ℕ Archive) (item : UInt64) : Option ℕ :=
  messages[documentOf item]?.bind fun a => if a.data.threadId = threadOf item then some a.changeId else none

/-- One change of a batch.  `data` is what is written of the messages. -/
def applyChange (changeId : ℕ) (data : UInt64 → MessageData) (messages : HashMap ℕ Archive) :
    LogChange → Option (HashMap ℕ Archive)
  | .insertItem item =>
    if messages[documentOf item]?.isNone then
      some (messages.insert (documentOf item) ⟨{ data item with threadId := threadOf item }, changeId⟩)
    else none
  | .updateItem item =>
    if (stored messages item).isSome then
      some (messages.insert (documentOf item) ⟨{ data item with threadId := threadOf item }, changeId⟩)
    else none
  | .deleteItem item => if (stored messages item).isSome then some (messages.erase (documentOf item)) else none
  | _ => some messages

def applyLog (changeId : ℕ) (data : UInt64 → MessageData) : List LogChange → HashMap ℕ Archive →
    Option (HashMap ℕ Archive)
  | [], messages => some messages
  | r :: rest, messages => (applyChange changeId data messages r).bind (applyLog changeId data rest)

/-- A batch of some writer, unless it does not fit the messages or change ids have run out. -/
def Emails.commit (e : Emails) (batch : Entry) (data : UInt64 → MessageData) : Option Emails :=
  if e.lastChangeId + 1 ≤ u64Max then
    (applyLog (e.lastChangeId + 1) data batch.log e.messages).map fun messages =>
      ⟨messages, e.log ++ [(e.lastChangeId + 1, batch.bytes)], e.lastChangeId + 1⟩
  else none

/-! ## Versions -/

theorem documentOf_eq (item : UInt64) : documentOf item = item.toNat % 2 ^ 32 := UInt64.toNat_toUInt32 item

theorem threadOf_eq (item : UInt64) : threadOf item = item.toNat / 2 ^ 32 := by
  have hlt := item.toNat_lt
  show (item.toNat >>> 32) % 2 ^ 32 = _
  omega

theorem eq_of_parts {item item' : UInt64} (hdocument : documentOf item = documentOf item')
    (hthread : threadOf item = threadOf item') : item = item' := by
  rw [documentOf_eq, documentOf_eq] at hdocument
  rw [threadOf_eq, threadOf_eq] at hthread
  apply UInt64.toNat_inj.mp
  omega

section

variable {changeId : ℕ} {data : UInt64 → MessageData} {messages messages' : HashMap ℕ Archive}

theorem stored_insert {item item' : UInt64} {m : MessageData} :
    stored (messages.insert (documentOf item) ⟨{ m with threadId := threadOf item }, changeId⟩) item' =
      if item' = item then some changeId
      else if documentOf item = documentOf item' then none else stored messages item' := by
  unfold stored
  rw [HashMap.getElem?_insert]
  by_cases hdocument : documentOf item = documentOf item'
  · rw [if_pos hdocument, if_pos hdocument, bind_some]
    by_cases hthread : threadOf item = threadOf item'
    · rw [if_pos hthread, if_pos (eq_of_parts hdocument hthread).symm]
    · rw [if_neg hthread, if_neg]
      rintro rfl
      exact hthread rfl
  · rw [if_neg hdocument, if_neg hdocument, if_neg]
    rintro rfl
    exact hdocument rfl

theorem stored_erase {document : ℕ} {item : UInt64} :
    stored (messages.erase document) item = if document = documentOf item then none else stored messages item := by
  unfold stored
  rw [HashMap.getElem?_erase]
  split_ifs <;> rfl

theorem stored_of_ne {item item' : UInt64} {v : ℕ} (h : stored messages item = some v) (hne : item' ≠ item)
    (hdocument : documentOf item = documentOf item') : stored messages item' = none := by
  unfold stored at h ⊢
  rw [← hdocument]
  cases hm : messages[documentOf item]? with
  | none => rfl
  | some a =>
    rw [hm, bind_some] at h
    rw [bind_some]
    split_ifs at h ⊢ with hthread' hthread
    · exact absurd (eq_of_parts hdocument (hthread.symm.trans hthread')).symm hne
    · rfl

theorem stored_written {item item' : UInt64} {m : MessageData}
    (hother : ∀ k, k ≠ item → documentOf item = documentOf k → stored messages k = none) :
    stored (messages.insert (documentOf item) ⟨{ m with threadId := threadOf item }, changeId⟩) item' =
      if item = item' then some changeId else stored messages item' := by
  rw [stored_insert]
  by_cases heq : item = item'
  · rw [if_pos heq, if_pos heq.symm]
  · rw [if_neg (Ne.symm heq)]
    split_ifs with hdocument
    · exact (hother item' (Ne.symm heq) hdocument).symm
    · rfl

theorem stored_applyChange {r : LogChange} (h : applyChange changeId data messages r = some messages')
    (item : UInt64) :
    if changeKey r = .item item then
      (stored messages item).isSome = decide (changeKind r ≠ .insert) ∧
        stored messages' item = if changeKind r = .delete then none else some changeId
    else stored messages' item = stored messages item := by
  cases r with
  | insertContainer id | updateContainer id | updateContainerProperty id | deleteContainer id =>
    obtain rfl := some.inj h
    rw [if_neg nofun]
  | insertItem item₀ =>
    rw [applyChange] at h
    split_ifs at h with hnew
    obtain rfl := some.inj h
    have hnone : ∀ k, documentOf item₀ = documentOf k → stored messages k = none := by
      intro k hk
      rw [stored, ← hk, isNone_iff_eq_none.mp hnew]
      rfl
    rw [stored_written fun k _ => hnone k]
    by_cases heq : item₀ = item
    · subst heq
      simp [changeKey, changeKind, hnone item₀ rfl]
    · simp [changeKey, heq]
  | updateItem item₀ =>
    rw [applyChange] at h
    split_ifs at h with hthere
    obtain rfl := some.inj h
    obtain ⟨v, hv⟩ := isSome_iff_exists.mp hthere
    rw [stored_written fun k hne hk => stored_of_ne hv hne hk]
    by_cases heq : item₀ = item
    · subst heq
      simp [changeKey, changeKind, hv]
    · simp [changeKey, heq]
  | deleteItem item₀ =>
    rw [applyChange] at h
    split_ifs at h with hthere
    obtain rfl := some.inj h
    obtain ⟨v, hv⟩ := isSome_iff_exists.mp hthere
    rw [stored_erase]
    by_cases heq : item₀ = item
    · subst heq
      simp [changeKey, changeKind, hv]
    · rw [if_neg (by simpa [changeKey] using heq)]
      split_ifs with hdocument
      · exact (stored_of_ne hv (Ne.symm heq) hdocument).symm
      · rfl

/-- **What a batch makes of the version of an item** is what its log says. -/
theorem stored_applyLog : ∀ {log : List LogChange} {messages messages' : HashMap ℕ Archive},
    applyLog changeId data log messages = some messages' → ∀ item : UInt64,
      Alternates (stored messages item).isSome (events (.item item) log) ∧
        stored messages' item = touch (stored messages item) changeId (events (.item item) log)
  | [], messages, messages', h, item => by
    obtain rfl := some.inj h
    exact ⟨trivial, rfl⟩
  | r :: log, messages, messages', h, item => by
    obtain ⟨between, hr, hrest⟩ := bind_eq_some_iff.mp h
    have hstep := stored_applyChange hr item
    obtain ⟨halt, htouch⟩ := stored_applyLog hrest item
    have hevents : events (.item item) (r :: log) =
        if changeKey r = .item item then changeKind r :: events (.item item) log else events (.item item) log := by
      unfold events
      split_ifs with hkey <;> simp [hkey]
    rw [hevents]
    by_cases hkey : changeKey r = .item item
    · rw [if_pos hkey] at hstep ⊢
      obtain ⟨hpresent, hbetween⟩ := hstep
      have hafter : (stored between item).isSome = (changeKind r).after (stored messages item).isSome := by
        rw [hbetween, hpresent]
        cases changeKind r <;> simp [Kind.after]
      refine ⟨⟨hpresent, hafter ▸ halt⟩, ?_⟩
      have hall : presentAfter (stored messages item).isSome (changeKind r :: events (.item item) log) =
          presentAfter (stored between item).isSome (events (.item item) log) := by
        rw [hafter]
        rfl
      rw [htouch, touch, touch, hall, if_neg (cons_ne_nil _ _)]
      by_cases hnil : events (.item item) log = []
      · rw [hnil, hbetween]
        cases changeKind r <;> simp [presentAfter]
      · rw [if_neg hnil]
    · rw [if_neg hkey] at hstep ⊢
      rw [← hstep]
      exact ⟨halt, htouch⟩

theorem items_applyChange {r : LogChange} (h : applyChange changeId data messages r = some messages')
    (hitems : ∀ (id : ℕ) (a : Archive), messages[id]? = some a →
      ∃ item, documentOf item = id ∧ threadOf item = a.data.threadId) (id : ℕ) (a : Archive)
    (ha : messages'[id]? = some a) : ∃ item, documentOf item = id ∧ threadOf item = a.data.threadId := by
  have hinsert : ∀ (item : UInt64) (m : MessageData),
      (messages.insert (documentOf item) ⟨{ m with threadId := threadOf item }, changeId⟩)[id]? = some a →
      ∃ item, documentOf item = id ∧ threadOf item = a.data.threadId := by
    intro item m hm
    rw [HashMap.getElem?_insert] at hm
    split_ifs at hm with hid
    · obtain rfl := some.inj hm
      exact ⟨item, hid, rfl⟩
    · exact hitems id a hm
  cases r with
  | insertContainer id | updateContainer id | updateContainerProperty id | deleteContainer id =>
    obtain rfl := some.inj h
    exact hitems _ a ha
  | insertItem item =>
    rw [applyChange] at h
    split_ifs at h
    obtain rfl := some.inj h
    exact hinsert item _ ha
  | updateItem item =>
    rw [applyChange] at h
    split_ifs at h
    obtain rfl := some.inj h
    exact hinsert item _ ha
  | deleteItem item =>
    rw [applyChange] at h
    split_ifs at h
    obtain rfl := some.inj h
    rw [HashMap.getElem?_erase] at ha
    split_ifs at ha
    exact hitems id a ha

theorem items_applyLog : ∀ {log : List LogChange} {messages messages' : HashMap ℕ Archive},
    applyLog changeId data log messages = some messages' →
    (∀ (id : ℕ) (a : Archive), messages[id]? = some a →
      ∃ item, documentOf item = id ∧ threadOf item = a.data.threadId) →
    ∀ (id : ℕ) (a : Archive), messages'[id]? = some a →
      ∃ item, documentOf item = id ∧ threadOf item = a.data.threadId
  | [], messages, messages', h, hitems => by
    obtain rfl := some.inj h
    exact hitems
  | r :: log, messages, messages', h, hitems => by
    obtain ⟨between, hr, hrest⟩ := bind_eq_some_iff.mp h
    exact items_applyLog hrest (items_applyChange hr hitems)

end

/-! ## Histories -/

/-- The log is the end of a history, and the messages are what the history made of them. -/
structure Consistent (e : Emails) (h : List (Stored false)) (cut : ℕ) : Prop where
  ascending : Ascending h
  kept : Kept h cut e.log
  le : ∀ x ∈ h, x.id ≤ e.lastChangeId
  alternates : ∀ item, Alternates false (seen (.item item) h).flatten
  versions : ∀ item, version (.item item) none h = stored e.messages item
  items : ∀ (id : ℕ) (a : Archive), e.messages[id]? = some a →
    ∃ item, documentOf item = id ∧ threadOf item = a.data.threadId

theorem consistent_empty : Consistent ⟨∅, [], 0⟩ [] 0 where
  ascending := .nil
  kept := ⟨rfl, .inl rfl⟩
  le := nofun
  alternates _ := trivial
  versions _ := rfl
  items id a ha := by cases (Std.TreeMap.getElem?_emptyc (a := id)).symm.trans ha

variable {e e' : Emails} {h : List (Stored false)} {cut : ℕ}

theorem Consistent.cut_le (hc : Consistent e h cut) : cut ≤ e.lastChangeId := by
  rcases hc.kept.cut_mem with rfl | ⟨x, hx, rfl⟩
  · exact Nat.zero_le _
  · exact hc.le x hx

/-- **A commit** adds its entry to the history. -/
theorem Consistent.commit (hc : Consistent e h cut) {batch : Entry} {data : UInt64 → MessageData}
    (he : e.commit batch data = some e') : ∃ x, Consistent e' (h ++ [x]) cut := by
  unfold Emails.commit at he
  split_ifs at he with hle
  obtain ⟨messages, happly, rfl⟩ := map_eq_some_iff.mp he
  let x : Stored false := ⟨e.lastChangeId + 1, .sync batch, Nat.succ_pos _, hle, rfl⟩
  have hx : ∀ item, Alternates (stored e.messages item).isSome (events (.item item) x.log) ∧
      stored messages item = touch (stored e.messages item) x.id (events (.item item) x.log) :=
    fun item => stored_applyLog happly item
  refine ⟨x, ⟨?_, ?_, ?_, fun item => ?_, fun item => ?_, items_applyLog happly hc.items⟩⟩
  · refine pairwise_append.mpr ⟨hc.ascending, pairwise_singleton _ _, fun a ha b hb => ?_⟩
    obtain rfl := mem_singleton.mp hb
    exact Nat.lt_succ_of_le (hc.le a ha)
  · refine ⟨?_, hc.kept.cut_mem.imp_right fun ⟨y, hy, hid⟩ => ⟨y, mem_append_left _ hy, hid⟩⟩
    have hlt : cut < x.id := Nat.lt_succ_of_le hc.cut_le
    rw [filter_append, filter_cons_of_pos (by simpa using hlt), map_append, ← append_assoc,
      ← hc.kept.log_eq]
    rfl
  · intro y hy
    rcases mem_append.mp hy with hy | hy
    · exact Nat.le_succ_of_le (hc.le y hy)
    · obtain rfl := mem_singleton.mp hy
      exact le_rfl
  · rw [seen_append, flatten_append]
    refine alternates_append.mpr ⟨hc.alternates item, ?_⟩
    have hpresent := isSome_version (.item item) none h
    rw [hc.versions, isSome_none] at hpresent
    rw [← hpresent]
    simpa [seen] using (hx item).1
  · rw [version_append, hc.versions]
    exact (hx item).2.symm

theorem Consistent.truncate (hc : Consistent e h cut) (maxEntries : ℕ) :
    ∃ cut', Consistent { e with log := truncate maxEntries e.log } h cut' := by
  obtain ⟨cut', -, hkept⟩ := Common.Kept.truncate hc.kept hc.ascending maxEntries
  exact ⟨cut', hc.ascending, hkept, hc.le, hc.alternates, hc.versions, hc.items⟩

theorem version_mem {k : Key} {v : ℕ} {es : List (Stored false)} (hv : version k none es = some v) :
    ∃ x ∈ es, x.id = v := by
  induction es using List.reverseRecOn with
  | nil => cases hv
  | append_singleton es x ih =>
    rw [version_append] at hv
    have hv : touch (version k none es) x.id (events k x.log) = some v := hv
    unfold touch at hv
    split_ifs at hv
    · obtain ⟨y, hy, hid⟩ := ih hv
      exact ⟨y, mem_append_left _ hy, hid⟩
    · exact ⟨x, by simp, some.inj hv⟩

/-- **A message that is not returned** by a query for what came after a change id has not changed after it. -/
theorem changeId_le_of_unread (hc : Consistent e h cut) {c v : ℕ} {r : Store.Query.Changes} {item : UInt64}
    (hr : e.log.changes false (.since c) = .ok r) (hwhole : r.isTruncated = false)
    (hunread : kinds (.item item) r.changes = []) (hv : stored e.messages item = some v) : v ≤ c := by
  obtain ⟨r', hr', htruncated, hread⟩ := hc.kept.changes_since hc.ascending c
  obtain rfl := Except.ok.inj (hr.symm.trans hr')
  have hcut : cut ≤ c := by
    by_contra hlt
    rw [htruncated (not_le.mp hlt)] at hwhole
    cases hwhole
  obtain ⟨base, hbase, rfl⟩ := hread hcut
  rw [changes_addAll, hbase.changes_eq, kinds_read] at hunread
  have hsplit := filter_le_append hc.ascending c
  have halt := hc.alternates item
  rw [hsplit, seen_append, flatten_append, alternates_append] at halt
  have hversion := hc.versions item
  rw [hsplit, version_append, version_of_run_nil ?_ hunread, hv] at hversion
  · obtain ⟨x, hx, rfl⟩ := version_mem hversion
    simpa using (mem_filter.mp hx).2
  · rw [isSome_version]
    exact halt.2

theorem not_stored_of_unread (hc : Consistent e h cut) {r : Store.Query.Changes} {item : UInt64}
    (hr : e.log.changes false .all = .ok r) (hwhole : r.isTruncated = false)
    (hunread : kinds (.item item) r.changes = []) : stored e.messages item = none := by
  by_cases hcut : cut = 0
  · have hread := hc.kept.changes_inclusive (q := .all) rfl (.inl hcut)
    obtain rfl := Except.ok.inj (hr.symm.trans hread)
    have hall : between h (LogQuery.all.bounds.2.1) (LogQuery.all.bounds.2.2) = h :=
      filter_eq_self.mpr fun x _ => by simpa [LogQuery.bounds] using x.le
    rw [hall, changes_addAll] at hunread
    have hunread : run (seen (.item item) h) = [] := (kinds_read _ _).symm.trans hunread
    rw [← hc.versions]
    exact version_of_run_nil (hc.alternates item) hunread
  · obtain ⟨r', hr', htruncated⟩ := hc.kept.changes_of_marker (q := .all) hcut (Nat.zero_le _) hc.kept.cut_le
      (.inl rfl)
    obtain rfl := Except.ok.inj (hr.symm.trans hr')
    rw [htruncated] at hwhole
    cases hwhole

end MailServer.Email
