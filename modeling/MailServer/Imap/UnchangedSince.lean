import MailServer.Imap.Store

/-!
# STORE with UNCHANGEDSINCE

* `Sound`: what is claimed of a command: it modifies no message that changed since, and its answer is right.
* `Fine`: nobody changes a message behind its back.
* `dropChanged_spec`: which messages the log leaves.  `inv_step`: what a step keeps.
* `unchangedSince_run`: runs.
-/

namespace MailServer.Imap.Store

open MailServer.Email MailServer.Types MailServer.Utils MailServer.Store.Query MailServer.Lib List

variable {hash : MessageData → UInt32} {c : Command}

/-! ## What is claimed -/

/-- The answer of a command. -/
structure Answers (c : Command) (w : World) (r : Response) : Prop where
  /-- a message that is reported as updated was modified -/
  items : ∀ i ∈ r.items, ∃ (id : ℕ) (imapId : ImapId), c.ids[id]? = some imapId ∧ i.id = imapId.seqnum ∧
    id ∈ w.written.map Prod.fst
  /-- a message was modified, or there was nothing to modify, or it is reported in MODIFIED -/
  all : r.status.message ≠ otherProcess → ∀ (id : ℕ) (imapId : ImapId), c.ids[id]? = some imapId →
    id ∈ w.written.map Prod.fst ∨ id ∈ w.asWanted ∨ ∃ ids, r.status.code = some ids ∧ c.number imapId ∈ ids
  /-- a command that failed has modified nothing -/
  failed : r.status.message = otherProcess → w.written = []

structure Sound (c : Command) (w : World) : Prop where
  unchanged : ∀ m, c.arguments.unchangedSince = some m → ∀ e ∈ w.written, e.2 ≤ m
  answer : ∀ r, w.phase = .done r → Answers c w r

/-! ## What is assumed of the others -/

/-- A commit of another writer changes no message that the command has still to read, and brings back none that it has
read, unless it is not yet above the mod-sequence. -/
def OtherFine (hash : MessageData → UInt32) (c : Command) (phase : Phase) (before after : Emails) : Prop :=
  match phase with
  | .reading _ unread batch _ _ => ∀ m, c.arguments.unchangedSince = some m →
      ∀ (id : ℕ) (a : Archive), after.messages[id]? = some a → before.messages[id]? ≠ some a →
        (id ∈ unread.map Prod.fst ∨ ∃ p ∈ batch, p.id = id ∧ hash a.data = hash p.current.data) → a.changeId + 1 ≤ m
  | _ => True

/-- The log reaches back, the messages are there, and others leave them alone. -/
def Fine (hash : MessageData → UInt32) (c : Command) (w : World) : Action → Prop
  | .other batch data => ∀ emails, w.emails.commit batch data = some emails → OtherFine hash c w.phase w.emails emails
  | .truncate _ => True
  -- the log reaches back
  | .readChanges => ∀ m changelog, c.arguments.unchangedSince = some m →
      w.emails.log.changes false (fromModseq m) = .ok changelog → changelog.isTruncated = false
  -- the message is there
  | .readMessage id => w.emails.messages[id]? ≠ none
  -- a piece whose assertions fail is the first one
  | .commit n => ∀ status batch items changedMailboxes,
      w.phase = .reading status [] batch items changedMailboxes →
      ((batch.take (n + 1)).all fun p => p.holds hash w.emails.messages) = false → w.written = []

/-! ## What the log leaves -/

theorem itemId_eq_some {change : Change} {item : UInt64} : itemId change = some item ↔ change.key = .item item := by
  cases change <;> simp [itemId, Change.key]

theorem foldl_dropChange (changes : List Change) (f : Filtered) :
    (∀ (id : ℕ) (imapId : ImapId), (changes.foldl (dropChange c) f).ids[id]? = some imapId →
      f.ids[id]? = some imapId ∧ ∀ change ∈ changes, ∀ item, itemId change = some item → documentOf item ≠ id) ∧
    (∀ (id : ℕ) (imapId : ImapId), f.ids[id]? = some imapId →
      (changes.foldl (dropChange c) f).ids[id]? = some imapId ∨
        c.number imapId ∈ (changes.foldl (dropChange c) f).modified) ∧
    ∀ n ∈ f.modified, n ∈ (changes.foldl (dropChange c) f).modified := by
  induction changes generalizing f with
  | nil => exact ⟨fun id imapId h => ⟨h, nofun⟩, fun _ _ h => .inl h, fun _ h => h⟩
  | cons change changes ih =>
    obtain ⟨hleft, hgone, hmodified⟩ := ih (dropChange c f change)
    rw [foldl_cons]
    have hsame : (∀ item, itemId change = some item → f.ids[documentOf item]? = none) → dropChange c f change = f := by
      intro h
      unfold dropChange
      cases hitem : itemId change with
      | none => rfl
      | some item =>
        dsimp only
        rw [h item hitem]
    by_cases hdrops : ∃ item imapId, itemId change = some item ∧ f.ids[documentOf item]? = some imapId
    · obtain ⟨item, imapId, hitem, himap⟩ := hdrops
      have hdrop : dropChange c f change = ⟨f.ids.erase (documentOf item), f.modified ++ [c.number imapId],
          f.unchangedFailed || (!c.isUid && isDelete change)⟩ := by
        unfold dropChange
        rw [hitem]
        dsimp only
        rw [himap]
      rw [hdrop] at hleft hgone hmodified ⊢
      refine ⟨fun id imapId' h => ?_, fun id imapId' h => ?_, fun n hn => hmodified n (mem_append_left _ hn)⟩
      · obtain ⟨hid, hrest⟩ := hleft id imapId' h
        rw [HashMap.getElem?_erase] at hid
        split_ifs at hid with hne
        refine ⟨hid, fun change' hchange' item' hitem' => ?_⟩
        rcases mem_cons.mp hchange' with rfl | hchange'
        · obtain rfl := Option.some.inj (hitem.symm.trans hitem')
          exact hne
        · exact hrest change' hchange' item' hitem'
      · by_cases hid : documentOf item = id
        · subst hid
          obtain rfl := Option.some.inj (himap.symm.trans h)
          exact .inr (hmodified _ (by simp))
        · refine hgone id imapId' ?_
          rwa [HashMap.getElem?_erase, if_neg hid]
    · have hnone : ∀ item, itemId change = some item → f.ids[documentOf item]? = none := by
        intro item hitem
        by_contra hne
        obtain ⟨imapId, himap⟩ := Option.ne_none_iff_exists'.mp hne
        exact hdrops ⟨item, imapId, hitem, himap⟩
      rw [hsame hnone] at hleft hgone hmodified ⊢
      refine ⟨fun id imapId h => ?_, hgone, hmodified⟩
      obtain ⟨hid, hrest⟩ := hleft id imapId h
      refine ⟨hid, fun change' hchange' item hitem => ?_⟩
      rcases mem_cons.mp hchange' with rfl | hchange'
      · rintro rfl
        rw [hnone item hitem] at hid
        cases hid
      · exact hrest change' hchange' item hitem

variable {id : ℕ} {w : World} {status : StatusResponse} {ids : HashMap ℕ ImapId}
  {items : List FetchItem}

/-- **A message that the log leaves** has not changed since. -/
theorem modseq_le_of_left {e : Emails} {h : List (Stored false)} {cut m : ℕ}
    (hc : Consistent e h cut) {changelog : Changes}
    (hread : e.log.changes false (fromModseq m) = .ok changelog)
    (hwhole : changelog.isTruncated = false) {imapId : ImapId}
    (hleft : (dropChanged c changelog.changes).ids[id]? = some imapId) {a : Archive}
    (ha : e.messages[id]? = some a) : a.changeId + 1 ≤ m := by
  obtain ⟨item, hdocument, hthread⟩ := hc.items id a ha
  have hunread : kinds (.item item) changelog.changes = [] := by
    refine filterMap_eq_nil_iff.mpr fun change hchange => if_neg fun hkey => ?_
    exact ((foldl_dropChange _ _).1 id imapId hleft).2 change hchange item (itemId_eq_some.2 hkey) hdocument
  have hstored : stored e.messages item = some a.changeId := by
    rw [stored, hdocument, ha, Option.bind_some, if_pos hthread.symm]
  unfold fromModseq at hread
  split_ifs at hread with hm
  · have := changeId_le_of_unread hc hread hwhole hunread hstored
    omega
  · rw [not_stored_of_unread hc hread hwhole hunread] at hstored
    cases hstored

/-! ## The invariant -/

/-- A command that has still to read messages or to commit. -/
structure Reading (hash : MessageData → UInt32) (c : Command) (w : World) (status : StatusResponse)
    (unread : List (ℕ × ImapId)) (batch : List Write) (items : List FetchItem) : Prop where
  nodup : (unread.map Prod.fst ++ batch.map Write.id).Nodup
  ids : ∀ u ∈ unread, c.ids[u.1]? = some u.2
  old : ∀ m, c.arguments.unchangedSince = some m → ∀ u ∈ unread, ∀ a : Archive,
    w.emails.messages[u.1]? = some a → a.changeId + 1 ≤ m
  /-- an archive that passes the assertion has not changed since -/
  same : ∀ m, c.arguments.unchangedSince = some m → ∀ p ∈ batch, ∀ a : Archive,
    w.emails.messages[p.id]? = some a → hash a.data = hash p.current.data → a.changeId + 1 ≤ m
  told : ∀ i ∈ items, ∃ (id : ℕ) (imapId : ImapId), c.ids[id]? = some imapId ∧ i.id = imapId.seqnum ∧
    (id ∈ batch.map Write.id ∨ id ∈ w.written.map Prod.fst)
  all : ∀ (id : ℕ) (imapId : ImapId), c.ids[id]? = some imapId →
    id ∈ unread.map Prod.fst ∨ id ∈ batch.map Write.id ∨ id ∈ w.written.map Prod.fst ∨ id ∈ w.asWanted ∨
      ∃ ids, status.code = some ids ∧ c.number imapId ∈ ids
  message : status.message ≠ otherProcess

structure Inv (hash : MessageData → UInt32) (c : Command) (w : World) : Prop extends Sound c w where
  start : w.phase = .start → w.written = [] ∧ ∃ h cut, Consistent w.emails h cut
  reading : ∀ status unread batch items changedMailboxes,
    w.phase = .reading status unread batch items changedMailboxes → Reading hash c w status unread batch items

theorem status_message (f : Filtered) : (f.status c).message ≠ otherProcess := by
  unfold Filtered.status StatusResponse.completed
  split_ifs
  all_goals first
    | show noLongerExist ≠ otherProcess; decide
    | show "UID STORE completed" ≠ otherProcess; decide
    | show "STORE completed" ≠ otherProcess; decide

theorem completed_message : (StatusResponse.completed c.isUid).message ≠ otherProcess := by
  unfold StatusResponse.completed
  split_ifs <;> decide

theorem mem_code {f : Filtered} {n : ℕ} (h : n ∈ f.modified) : ∃ ids, (f.status c).code = some ids ∧ n ∈ ids := by
  refine ⟨f.modified.insertionSort (· ≤ ·), ?_, (mem_insertionSort _).mpr h⟩
  have hne : f.modified.isEmpty = false := isEmpty_eq_false_iff.mpr (ne_nil_of_mem h)
  simp [Filtered.status, hne]

theorem reading_begin
    (hids : ∀ (id : ℕ) (imapId : ImapId), ids[id]? = some imapId → c.ids[id]? = some imapId)
    (hunread : ∀ m, c.arguments.unchangedSince = some m → ∀ (id : ℕ) (imapId : ImapId), ids[id]? = some imapId →
      ∀ a : Archive, w.emails.messages[id]? = some a → a.changeId + 1 ≤ m)
    (hall : ∀ (id : ℕ) (imapId : ImapId), c.ids[id]? = some imapId → ids[id]? = some imapId ∨
      ∃ ids, status.code = some ids ∧ c.number imapId ∈ ids)
    (hmessage : status.message ≠ otherProcess) : Reading hash c w status ids.toList [] [] where
  nodup := by
    rw [map_nil, append_nil]
    exact HashMap.nodup_map_fst_toList ids
  ids u hu := hids u.1 u.2 (HashMap.mem_toList.mp hu)
  old m hm u hu a ha := hunread m hm u.1 u.2 (HashMap.mem_toList.mp hu) a ha
  same := nofun
  told := nofun
  all id imapId h := by
    rcases hall id imapId h with hid | hcode
    · exact .inl (mem_map.mpr ⟨(id, imapId), HashMap.mem_toList.mpr hid, rfl⟩)
    · exact .inr (.inr (.inr (.inr hcode)))
  message := hmessage

theorem getElem?_of_isEmpty (h : ids.isEmpty) (id : ℕ) : ids[id]? = none := by
  cases hid : ids[id]? with
  | none => rfl
  | some imapId =>
    have hmem := HashMap.mem_toList.mpr hid
    rw [Std.TreeMap.isEmpty_toList.symm] at h
    rw [List.isEmpty_iff.mp h] at hmem
    cases hmem

/-- **The log is read.** -/
theorem inv_readChanges (hinv : Inv hash c w) (hphase : w.phase = .start)
    (hfine : Fine hash c w .readChanges) : Inv hash c { w with phase := readChanges c w.emails } := by
  obtain ⟨hwritten, h, cut, hc⟩ := hinv.start hphase
  have hdone : ∀ status : StatusResponse, status.message ≠ otherProcess →
      (∀ (id : ℕ) (imapId : ImapId), c.ids[id]? = some imapId →
        ∃ ids, status.code = some ids ∧ c.number imapId ∈ ids) →
      Inv hash c { w with phase := .done ⟨status, []⟩ } := by
    intro status hmessage hcode
    refine ⟨⟨hinv.unchanged, ?_⟩, nofun, nofun⟩
    rintro r ⟨⟩
    exact ⟨nofun, fun _ id imapId hid => .inr (.inr (hcode id imapId hid)), fun hfailed => absurd hfailed hmessage⟩
  have hreading : ∀ {status : StatusResponse} {ids : HashMap ℕ ImapId},
      Reading hash c w status ids.toList [] [] →
      Inv hash c { w with phase := .reading status ids.toList [] [] [] } := by
    intro status ids hreads
    refine ⟨⟨hinv.unchanged, nofun⟩, nofun, ?_⟩
    rintro _ _ _ _ _ ⟨⟩
    exact { hreads with }
  unfold readChanges
  split_ifs with hempty
  · refine hdone _ completed_message fun id imapId hid => ?_
    rw [getElem?_of_isEmpty hempty] at hid
    cases hid
  · cases hsince : c.arguments.unchangedSince with
    | none =>
      refine hreading (reading_begin (fun _ _ h => h) ?_ (fun _ _ h => .inl h) completed_message)
      intro m hm
      rw [hsince] at hm
      cases hm
    | some m =>
      dsimp only
      cases hread : w.emails.log.changes false (fromModseq m) with
      | error e => exact ⟨⟨hinv.unchanged, nofun⟩, nofun, nofun⟩
      | ok changelog =>
        have hwhole := hfine m changelog hsince hread
        obtain ⟨hleft, hgone, -⟩ := foldl_dropChange (c := c) changelog.changes ⟨c.ids, c.missing, false⟩
        dsimp only
        split_ifs with hnone
        · refine hdone _ (status_message _) fun id imapId hid => ?_
          rcases hgone id imapId hid with hid | hmodified
          · rw [show (changelog.changes.foldl (dropChange c) _).ids[id]? = none from
              getElem?_of_isEmpty hnone id] at hid
            cases hid
          · exact mem_code hmodified
        · refine hreading (reading_begin (fun id imapId hid => (hleft id imapId hid).1) ?_ ?_ (status_message _))
          · intro m' hm' id imapId hid a ha
            obtain rfl := Option.some.inj (hsince.symm.trans hm')
            exact modseq_le_of_left hc hread hwhole hid ha
          · exact fun id imapId hid => (hgone id imapId hid).imp_right mem_code

theorem Answers.congr {w' : World} {r : Response} (h : Answers c w r)
    (hwritten : w'.written = w.written) (hasWanted : w'.asWanted = w.asWanted) : Answers c w' r :=
  ⟨by rw [hwritten]; exact h.items, by rw [hwritten, hasWanted]; exact h.all, by rw [hwritten]; exact h.failed⟩

/-- **Another writer commits.** -/
theorem inv_other (hinv : Inv hash c w) {batch : Store.Query.Entry} {data : UInt64 → MessageData}
    {emails : Emails} (hcommit : w.emails.commit batch data = some emails)
    (hfine : OtherFine hash c w.phase w.emails emails) : Inv hash c { w with emails } := by
  refine ⟨⟨hinv.unchanged, fun r hr => (hinv.answer r hr).congr rfl rfl⟩, fun hstart => ?_, ?_⟩
  · obtain ⟨hwritten, h, cut, hc⟩ := hinv.start hstart
    obtain ⟨x, hc'⟩ := hc.commit hcommit
    exact ⟨hwritten, _, _, hc'⟩
  · intro status unread pending items changedMailboxes hphase
    have hreads := hinv.reading _ _ _ _ _ hphase
    rw [hphase] at hfine
    have hold : ∀ m, c.arguments.unchangedSince = some m → ∀ (id : ℕ) (a : Archive), emails.messages[id]? = some a →
        (id ∈ unread.map Prod.fst ∨ ∃ p ∈ pending, p.id = id ∧ hash a.data = hash p.current.data) →
        (w.emails.messages[id]? = some a → a.changeId + 1 ≤ m) → a.changeId + 1 ≤ m := by
      intro m hm id a ha hwhere hbefore
      by_cases heq : w.emails.messages[id]? = some a
      · exact hbefore heq
      · exact hfine m hm id a ha heq hwhere
    refine { hreads with old := fun m hm u hu a ha => ?_, same := fun m hm p hp a ha hhash => ?_ }
    · exact hold m hm _ a ha (.inl (mem_map_of_mem hu)) (hreads.old m hm u hu a)
    · exact hold m hm _ a ha (.inr ⟨p, hp, rfl, hhash⟩) fun ha => hreads.same m hm p hp a ha hhash

theorem inv_truncate (hinv : Inv hash c w) (maxEntries : ℕ) :
    Inv hash c { w with emails := { w.emails with log := Common.truncate maxEntries w.emails.log } } := by
  refine ⟨⟨hinv.unchanged, fun r hr => (hinv.answer r hr).congr rfl rfl⟩, fun hstart => ?_, ?_⟩
  · obtain ⟨hwritten, h, cut, hc⟩ := hinv.start hstart
    obtain ⟨cut', hc'⟩ := hc.truncate maxEntries
    exact ⟨hwritten, h, cut', hc'⟩
  · intro status unread pending items changedMailboxes hphase
    exact { hinv.reading _ _ _ _ _ hphase with }

theorem id_fetchItem {imapId : ImapId} {data : MessageData} {i : FetchItem} (h : i ∈ fetchItem c imapId data) :
    i.id = imapId.seqnum := by
  unfold fetchItem at h
  split_ifs at h
  all_goals first
    | rw [mem_singleton.mp h]
    | cases h

section

variable {w : World} {status : StatusResponse} {unread : List (ℕ × ImapId)} {batch : List Write}
  {items : List FetchItem} {u : ℕ × ImapId}

theorem mem_unread_filter (id : ℕ) {id' : ℕ} (h : id' ∈ unread.map Prod.fst) :
    id' = id ∨ id' ∈ (unread.filter fun u => u.1 ≠ id).map Prod.fst := by
  obtain ⟨v, hv, rfl⟩ := mem_map.mp h
  by_cases hid : v.1 = id
  · exact .inl hid
  · exact .inr (mem_map.mpr ⟨v, mem_filter.mpr ⟨hv, by simpa using hid⟩, rfl⟩)

theorem Reading.skip (h : Reading hash c w status unread batch items) (id : ℕ) :
    Reading hash c { w with asWanted := w.asWanted ++ [id] } status (unread.filter fun u => u.1 ≠ id) batch items where
  nodup := h.nodup.sublist ((filter_sublist.map Prod.fst).append_right _)
  ids v hv := h.ids v (mem_of_mem_filter hv)
  old m hm v hv := h.old m hm v (mem_of_mem_filter hv)
  same := h.same
  told := h.told
  all id' imapId hid := by
    rcases h.all id' imapId hid with hunread | hbatch | hwritten | hasWanted | hcode
    · rcases mem_unread_filter id hunread with rfl | hunread
      · exact .inr (.inr (.inr (.inl (by simp))))
      · exact .inl hunread
    · exact .inr (.inl hbatch)
    · exact .inr (.inr (.inl hwritten))
    · exact .inr (.inr (.inr (.inl (mem_append_left _ hasWanted))))
    · exact .inr (.inr (.inr (.inr hcode)))
  message := h.message

theorem Reading.change (h : Reading hash c w status unread batch items) (hu : u ∈ unread) (a : Archive)
    (newData : MessageData) :
    Reading hash c w status (unread.filter fun v => v.1 ≠ u.1) (batch ++ [⟨u.1, a, newData⟩])
      (items ++ fetchItem c u.2 newData) where
  nodup := by
    obtain ⟨hunread, hbatch, hdisjoint⟩ := nodup_append.mp h.nodup
    rw [map_append]
    refine nodup_append.mpr ⟨hunread.sublist (filter_sublist.map Prod.fst), ?_, fun x hx y hy => ?_⟩
    · refine nodup_append.mpr ⟨hbatch, nodup_singleton _, fun x hx y hy => ?_⟩
      obtain rfl := mem_singleton.mp hy
      exact (hdisjoint _ (mem_map_of_mem hu) x hx).symm
    · obtain ⟨v, hv, rfl⟩ := mem_map.mp hx
      rcases mem_append.mp hy with hy | hy
      · exact hdisjoint _ (mem_map_of_mem (mem_of_mem_filter hv)) y hy
      · obtain rfl := mem_singleton.mp hy
        simpa using (mem_filter.mp hv).2
  ids v hv := h.ids v (mem_of_mem_filter hv)
  old m hm v hv := h.old m hm v (mem_of_mem_filter hv)
  same m hm p hp b hb hhash := by
    rcases mem_append.mp hp with hp | hp
    · exact h.same m hm p hp b hb hhash
    · obtain rfl := mem_singleton.mp hp
      exact h.old m hm u hu b hb
  told i hi := by
    rcases mem_append.mp hi with hi | hi
    · obtain ⟨id, imapId, hid, hseqnum, hwhere⟩ := h.told i hi
      refine ⟨id, imapId, hid, hseqnum, hwhere.imp_left fun hbatch => ?_⟩
      rw [map_append]
      exact mem_append_left _ hbatch
    · exact ⟨u.1, u.2, h.ids u hu, id_fetchItem hi, .inl (by simp)⟩
  all id imapId hid := by
    rcases h.all id imapId hid with hunread | hbatch | hrest
    · rcases mem_unread_filter u.1 hunread with rfl | hunread
      · exact .inr (.inl (by simp))
      · exact .inl hunread
    · refine .inr (.inl ?_)
      rw [map_append]
      exact mem_append_left _ hbatch
    · exact .inr (.inr hrest)
  message := h.message

end

/-- **A message is read.** -/
theorem inv_readMessage {w' : World} (hinv : Inv hash c w) (hfine : Fine hash c w (.readMessage id))
    (h : step hash c w (.readMessage id) = some w') : Inv hash c w' := by
  rw [step] at h
  split at h
  · rename_i status unread batch items changedMailboxes hphase
    have hreads := hinv.reading _ _ _ _ _ hphase
    obtain ⟨u, hu, rfl⟩ := Option.map_eq_some_iff.mp h
    obtain rfl : u.1 = id := by simpa using find?_some hu
    have hmem := mem_of_find?_eq_some hu
    cases hm : w.emails.messages[u.1]? with
    | none => exact absurd hm hfine
    | some a =>
      dsimp only
      by_cases hsame : (!hasKeywordChanges (applyKeywords c.arguments a.data).1 a.data) = true
      · rw [if_pos hsame]
        refine ⟨⟨hinv.unchanged, nofun⟩, nofun, ?_⟩
        rintro _ _ _ _ _ ⟨⟩
        exact { hreads.skip u.1 with }
      · rw [if_neg hsame]
        refine ⟨⟨hinv.unchanged, nofun⟩, nofun, ?_⟩
        rintro _ _ _ _ _ ⟨⟩
        exact { hreads.change hmem a _ with }
  · cases h

theorem getElem?_writePiece {e : Emails} {piece : List Write} {changedMailboxes : List ℕ}
    (h : id ∉ piece.map Write.id) : (writePiece e piece changedMailboxes).messages[id]? = e.messages[id]? := by
  unfold writePiece
  dsimp only
  induction piece using List.reverseRecOn with
  | nil => rfl
  | append_singleton piece p ih =>
    rw [map_append, mem_append, not_or] at h
    rw [foldl_append, foldl_cons, foldl_nil, HashMap.getElem?_insert,
      if_neg fun heq => h.2 (mem_singleton.mpr heq.symm)]
    exact ih h.1

theorem Reading.le_of_holds {batch piece : List Write} (h : Reading hash c w status [] batch items)
    (hpiece : ∀ p ∈ piece, p ∈ batch)
    (hholds : (piece.all fun p => p.holds hash w.emails.messages) = true) {m : ℕ}
    (hm : c.arguments.unchangedSince = some m) :
    ∀ e ∈ piece.map fun p => (p.id, modseq w.emails.messages p.id), e.2 ≤ m := by
  intro e he
  obtain ⟨p, hp, rfl⟩ := mem_map.mp he
  have hassert := all_eq_true.mp hholds p hp
  unfold Write.holds at hassert
  cases ha : w.emails.messages[p.id]? with
  | none =>
    rw [ha] at hassert
    cases hassert
  | some a =>
    rw [ha] at hassert
    have hhash : hash a.data = hash p.current.data := of_decide_eq_true hassert
    rw [modseq, ha]
    exact h.same m hm p (hpiece p hp) a ha hhash

theorem Reading.rest {batch : List Write} (h : Reading hash c w status [] batch items) (n : ℕ)
    (changedMailboxes : List ℕ) (phase : Phase) :
    Reading hash c { w with
      emails := writePiece w.emails (batch.take n) changedMailboxes
      phase
      written := w.written ++ (batch.take n).map fun p => (p.id, modseq w.emails.messages p.id) }
      status [] (batch.drop n) items := by
  have hsplit : batch.map Write.id = (batch.take n).map Write.id ++ (batch.drop n).map Write.id := by
    rw [← map_append, take_append_drop]
  have hnodup : (batch.map Write.id).Nodup := by simpa using h.nodup
  rw [hsplit] at hnodup
  obtain ⟨-, hrest, hdisjoint⟩ := nodup_append.mp hnodup
  have hwhere : ∀ id ∈ batch.map Write.id, id ∈ (batch.drop n).map Write.id ∨
      id ∈ (w.written ++ (batch.take n).map fun p => (p.id, modseq w.emails.messages p.id)).map Prod.fst := by
    intro id hid
    rw [hsplit] at hid
    rcases mem_append.mp hid with hid | hid
    · obtain ⟨p, hp, rfl⟩ := mem_map.mp hid
      exact .inr (mem_map.mpr ⟨_, mem_append_right _ (mem_map_of_mem hp), rfl⟩)
    · exact .inl hid
  have hwritten : ∀ id ∈ w.written.map Prod.fst,
      id ∈ (w.written ++ (batch.take n).map fun p => (p.id, modseq w.emails.messages p.id)).map Prod.fst := by
    intro id hid
    rw [map_append]
    exact mem_append_left _ hid
  refine ⟨by simpa using hrest, nofun, nofun, ?_, ?_, ?_, h.message⟩
  · intro m hm p hp a ha hhash
    have hout : p.id ∉ (batch.take n).map Write.id :=
      fun hin => hdisjoint _ hin _ (mem_map_of_mem hp) rfl
    rw [getElem?_writePiece hout] at ha
    exact h.same m hm p (mem_of_mem_drop hp) a ha hhash
  · intro i hi
    obtain ⟨id, imapId, hid, hseqnum, hbatch | hdone⟩ := h.told i hi
    · exact ⟨id, imapId, hid, hseqnum, hwhere id hbatch⟩
    · exact ⟨id, imapId, hid, hseqnum, .inr (hwritten id hdone)⟩
  · intro id imapId hid
    rcases h.all id imapId hid with hunread | hbatch | hdone | hrest
    · cases hunread
    · exact .inr ((hwhere id hbatch).imp_right .inl)
    · exact .inr (.inr (.inl (hwritten id hdone)))
    · exact .inr (.inr (.inr hrest))

theorem Reading.answers (h : Reading hash c w status [] [] items) {items' : List FetchItem}
    (hitems : ∀ i ∈ items', ∃ i₀ ∈ items, i.id = i₀.id) : Answers c w ⟨status, items'⟩ where
  items i hi := by
    obtain ⟨i₀, hi₀, heq⟩ := hitems i hi
    obtain ⟨id, imapId, hid, hseqnum, hwhere⟩ := h.told i₀ hi₀
    exact ⟨id, imapId, hid, heq.trans hseqnum, hwhere.resolve_left not_mem_nil⟩
  all _ id imapId hid := ((h.all id imapId hid).resolve_left not_mem_nil).resolve_left not_mem_nil
  failed hfailed := absurd hfailed h.message

/-- **A piece is committed.** -/
theorem inv_commit {w' : World} (hinv : Inv hash c w) {n : ℕ} (hfine : Fine hash c w (.commit n))
    (h : step hash c w (.commit n) = some w') : Inv hash c w' := by
  rw [step] at h
  split at h
  · rename_i status batch items changedMailboxes hphase
    have hreads := hinv.reading _ _ _ _ _ hphase
    by_cases hempty : batch.isEmpty
    · rw [if_pos hempty] at h
      obtain rfl := Option.some.inj h
      obtain rfl := List.isEmpty_iff.mp hempty
      refine ⟨⟨hinv.unchanged, ?_⟩, nofun, nofun⟩
      rintro _ ⟨⟩
      exact (hreads.answers fun i hi => ⟨i, hi, rfl⟩).congr rfl rfl
    rw [if_neg hempty] at h
    by_cases hholds : (batch.take (n + 1)).all fun p => p.holds hash w.emails.messages
    · rw [if_pos hholds] at h
      obtain rfl := Option.some.inj h
      have hunchanged : ∀ m, c.arguments.unchangedSince = some m →
          ∀ e ∈ w.written ++ (batch.take (n + 1)).map fun p => (p.id, modseq w.emails.messages p.id), e.2 ≤ m := by
        intro m hm e he
        rcases mem_append.mp he with he | he
        · exact hinv.unchanged m hm e he
        · exact hreads.le_of_holds (fun p => mem_of_mem_take) hholds hm e he
      by_cases hlast : (batch.drop (n + 1)).isEmpty = true
      · rw [if_pos hlast, if_pos hlast]
        have hrest := hreads.rest (n + 1) changedMailboxes .start
        rw [List.isEmpty_iff.mp hlast] at hrest
        refine ⟨⟨hunchanged, ?_⟩, nofun, nofun⟩
        rintro _ ⟨⟩
        refine (hrest.answers fun i hi => ?_).congr rfl rfl
        -- the mod-sequence that is added leaves the number
        split_ifs at hi
        · obtain ⟨i₀, hi₀, rfl⟩ := mem_map.mp hi
          exact ⟨i₀, hi₀, rfl⟩
        · exact ⟨i, hi, rfl⟩
      · rw [if_neg hlast, if_neg hlast]
        refine ⟨⟨hunchanged, nofun⟩, nofun, ?_⟩
        rintro _ _ _ _ _ ⟨⟩
        exact hreads.rest (n + 1) [] _
    · rw [if_neg hholds] at h
      obtain rfl := Option.some.inj h
      have hwritten := hfine _ _ _ _ hphase (Bool.eq_false_iff.mpr hholds)
      refine ⟨⟨hinv.unchanged, ?_⟩, nofun, nofun⟩
      rintro _ ⟨⟩
      exact ⟨nofun, fun hok => absurd rfl hok, fun _ => hwritten⟩
  · cases h

/-- **What a step keeps.** -/
theorem inv_step {w' : World} (hinv : Inv hash c w) {a : Action} (hfine : Fine hash c w a)
    (h : step hash c w a = some w') : Inv hash c w' := by
  cases a with
  | other batch data =>
    obtain ⟨emails, hcommit, rfl⟩ := Option.map_eq_some_iff.mp h
    exact inv_other hinv hcommit (hfine emails hcommit)
  | truncate maxEntries =>
    obtain rfl := Option.some.inj h
    exact inv_truncate hinv maxEntries
  | readChanges =>
    rw [step] at h
    split at h
    · rename_i hphase
      obtain rfl := Option.some.inj h
      exact inv_readChanges hinv hphase hfine
    · cases h
  | readMessage id => exact inv_readMessage hinv hfine h
  | commit n => exact inv_commit hinv hfine h

/-- A command that has not begun, on an account without messages; other writers come first. -/
def World.begin : World := ⟨⟨∅, [], 0⟩, .start, [], []⟩

theorem inv_begin : Inv hash c .begin where
  unchanged := nofun
  answer := nofun
  start _ := ⟨rfl, [], 0, consistent_empty⟩
  reading := nofun

/-- **While nobody changes a message behind the back of a command**, it modifies no message that changed since, and its
answer is right. -/
theorem unchangedSince_run {actions : List Action} (hfine : Run.Each (step hash c) (Fine hash c) .begin actions) :
    Run.Always (step hash c) (Sound c) .begin actions :=
  (Run.always_of_each (fun _ _ _ hinv hfine h => inv_step hinv hfine h) inv_begin hfine).mono
    fun _ hinv => hinv.toSound

/-! ## A message that changes after the log was read -/

/-- The message zero gets keywords. -/
def delivers : Store.Query.Entry := ⟨[.insertItem 0], .u32, .u64, by decide⟩

def updates : Store.Query.Entry := ⟨[.updateItem 0], .u32, .u64, by decide⟩

def withKeywords (keywords : List String) (_ : UInt64) : MessageData := ⟨[⟨0, 1⟩], keywords, 0, 100⟩

/-- What stands for the hash of an archive. -/
def keywordLengths (data : MessageData) : UInt32 := UInt32.ofNat (data.keywords.map String.length).sum

/-- `UID STORE 1 (UNCHANGEDSINCE 2) +FLAGS (\Flagged)`. -/
def flagUnchanged : Command := ⟨⟨.add, false, ["$flagged"], some 2⟩, true, true, Std.TreeMap.empty.insert 0 ⟨1, 1⟩, []⟩

/-- Nobody else writes. -/
theorem unchangedSince_alone : Run.Always (step keywordLengths flagUnchanged) (Sound flagUnchanged) .begin
    [.other delivers (withKeywords []), .readChanges, .readMessage 0, .commit 0] := by
  refine unchangedSince_run ((Run.each_cons rfl).mpr ⟨fun _ _ => trivial, (Run.each_cons rfl).mpr ⟨?_, ?_⟩⟩)
  · intro m changelog hm hread
    obtain rfl := Option.some.inj hm
    obtain rfl := Except.ok.inj hread
    rfl
  · refine (Run.each_cons rfl).mpr ⟨nofun, (Run.each_cons rfl).mpr ⟨?_, trivial⟩⟩
    rintro _ _ _ _ ⟨⟩ hfails
    cases hfails

/-- Another writer changes the message between the read of the log and the read of the message. -/
theorem unchangedSince_raced : ¬ Run.Always (step keywordLengths flagUnchanged) (Sound flagUnchanged) .begin
    [.other delivers (withKeywords []), .readChanges, .other updates (withKeywords ["$seen"]), .readMessage 0,
      .commit 0] := by
  intro h
  exact absurd ((h.last rfl).unchanged 2 rfl (0, 3) (by decide)) (by decide)

end MailServer.Imap.Store
