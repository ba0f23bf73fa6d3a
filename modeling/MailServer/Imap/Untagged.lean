import MailServer.Imap.Selected
import MailServer.Lib.Sorted

/-!
# What a client makes of the untagged responses (`imap/src/core/message.rs`, `imap-proto/src/protocol/expunge.rs`)

* `Response.lines`: what is written of a response.  `Line.apply`: what a client does with a line.
* `client_follows`: the client has the messages of the state that was announced.
-/

namespace MailServer.Imap

open MailServer.Utils MailServer.Utils.HashMap MailServer.Lib MailServer.Lib.Rank List

/-! ## Lines -/

/-- An untagged response, with its numbers. -/
inductive Line where
  | expunge (seqnum : ℕ)
  | vanished (uids : List (ℕ × ℕ))
  | «exists» (totalMessages : ℕ)

/-- `serialize_sequence`, in the range from `id` to `rangeId`. -/
def serializeRange (id rangeId : ℕ) : List ℕ → List (ℕ × ℕ)
  | [] => [(id, rangeId)]
  | nextId :: ids =>
    if nextId = rangeId + 1 then serializeRange id (rangeId + 1) ids
    else (id, rangeId) :: serializeRange nextId nextId ids

def serializeSequence : List ℕ → List (ℕ × ℕ)
  | [] => []
  | id :: ids => serializeRange id id ids

/-- `expunge::Response::serialize_to` and `Exists::serialize`. -/
def Response.lines : Response → List Line
  | .expunge false ids => ids.zipIdx.map fun e => .expunge (e.1 - e.2)
  | .expunge true ids => [.vanished (serializeSequence ids)]
  | .exists totalMessages => [.exists totalMessages]

def inRange (uids : List (ℕ × ℕ)) (uid : ℕ) : Bool := uids.any fun range => range.1 ≤ uid && uid ≤ range.2

/-- What a client does.  Of messages beyond its own it asks for the UIDs, in the newer state. -/
def Line.apply (newer messages : List ℕ) : Line → List ℕ
  | .expunge seqnum => eraseNth messages seqnum
  | .vanished uids => messages.filter fun uid => !inRange uids uid
  | .exists totalMessages => messages ++ (newer.drop messages.length).take (totalMessages - messages.length)

/-- The UIDs of the messages by their numbers. -/
def Numbering.messages (s : Numbering) : List ℕ :=
  ((s.idToImap.toList.map Prod.snd).insertionSort (·.seqnum ≤ ·.seqnum)).map ImapId.uid

theorem inRange_serializeRange {uid : ℕ} : ∀ {ids : List ℕ} {id rangeId : ℕ}, id ≤ rangeId →
    (inRange (serializeRange id rangeId ids) uid = true ↔ id ≤ uid ∧ uid ≤ rangeId ∨ uid ∈ ids)
  | [], id, rangeId, _ => by simp [serializeRange, inRange]
  | nextId :: ids, id, rangeId, h => by
    unfold serializeRange
    split_ifs with hnext
    · rw [inRange_serializeRange (h.trans (Nat.le_succ _)), mem_cons, ← or_assoc]
      exact or_congr_left (by omega)
    · have hrest := @inRange_serializeRange uid ids nextId nextId le_rfl
      unfold inRange at hrest ⊢
      rw [any_cons, Bool.or_eq_true, hrest, mem_cons, Bool.and_eq_true, decide_eq_true_iff, decide_eq_true_iff]
      exact or_congr_right (or_congr_left (by omega))

theorem inRange_serializeSequence {ids : List ℕ} {uid : ℕ} : inRange (serializeSequence ids) uid = true ↔ uid ∈ ids := by
  cases ids with
  | nil => simp [serializeSequence, inRange]
  | cons id ids =>
    rw [serializeSequence, inRange_serializeRange le_rfl, mem_cons]
    exact or_congr_left (by omega)

theorem Numbering.Ranked.messages {s : Numbering} {uids : Finset ℕ} (h : s.Ranked uids) :
    s.messages = uids.sort (· ≤ ·) := by
  have hmem (i : ImapId) : i ∈ s.idToImap.toList.map Prod.snd ↔ ∃ id : ℕ, s.idToImap[id]? = some i := by
    simp only [mem_map, Prod.exists, mem_toList, exists_eq_right]
  have hsorted := pairwise_insertionSort (fun i j : ImapId => i.seqnum ≤ j.seqnum) (s.idToImap.toList.map Prod.snd)
  have hnodup : ((s.idToImap.toList.map Prod.snd).map ImapId.uid).Nodup := by
    rw [map_map]
    refine (nodup_toList _).map_on ?_
    rintro ⟨id, i⟩ he ⟨id', i'⟩ he' huid
    have hi := mem_toList.mp he
    have hi' := mem_toList.mp he'
    have hid := (h.inverse i.uid id).mpr ⟨i.seqnum, hi⟩
    have hid' := (h.inverse i.uid id').mpr ⟨i'.seqnum, by rw [show i.uid = i'.uid from huid]; exact hi'⟩
    obtain rfl := Option.some.inj (hid.symm.trans hid')
    rw [Option.some.inj (hi.symm.trans hi')]
  have hunique := pairwise_map.mp
    (((perm_insertionSort (fun i j : ImapId => i.seqnum ≤ j.seqnum) _).map ImapId.uid).nodup_iff.mpr hnodup)
  rw [Numbering.messages]
  refine eq_sort (pairwise_map.mpr ((hsorted.and hunique).imp_of_mem fun {i j} hi hj hij => ?_)) fun uid => ?_
  · rw [mem_insertionSort, hmem] at hi hj
    obtain ⟨id, hi⟩ := hi
    obtain ⟨id', hj⟩ := hj
    refine lt_of_le_of_ne (not_lt.mp fun hlt => ?_) hij.2
    have hrank := rank_lt (h.mem hi) hlt
    rw [← h.seqnum id i hi, ← h.seqnum id' j hj] at hrank
    exact absurd hij.1 (not_le.mpr hrank)
  · rw [← h.uids, mem_uidsOf, mem_map]
    constructor
    · rintro ⟨i, hi, rfl⟩
      obtain ⟨id, hi⟩ := (hmem i).mp ((mem_insertionSort _).mp hi)
      exact ⟨id, i.seqnum, hi⟩
    · rintro ⟨id, n, hi⟩
      exact ⟨⟨uid, n⟩, (mem_insertionSort _).mpr ((hmem _).mpr ⟨id, hi⟩), rfl⟩

/-! ## Pending changes -/

/-- What waits to be announced: the messages that are left of those the client has been told of, and new ones. -/
structure Pending (m : MailboxState) (told uids : Finset ℕ) : Prop where
  numbered : m.Numbered ∅
  base : m.base = told
  view : m.view.Ranked uids
  kept : uidsOf m.idToImap ⊆ uids
  fresh : ∀ uid ∈ uids, uid ∈ uidsOf m.idToImap ∨ told.sup id < uid

variable {m : MailboxState} {told uids : Finset ℕ} {mailboxId seen : ℕ} {cache : MessagesCache}

theorem pending_announced (h : m.Ranked told) (hnext : m.nextState = none) : Pending m told told := by
  obtain ⟨s, next⟩ := m
  obtain rfl : next = none := hnext
  exact ⟨h.numbered, (base_fetched s).trans h.uids, h, h.uids.le, fun uid huid => .inl (h.uids.symm ▸ huid)⟩

theorem Pending.synchronize (h : Pending m told uids)
    (hnew : cache.changeId ≠ seen → ∀ uid ∈ cache.uids mailboxId, uid ∈ uids ∨ told.sup id < uid) :
    Pending (m.synchronizeMessages mailboxId cache seen).2 told
      (if cache.changeId = seen then uids else cache.uids mailboxId) := by
  unfold MailboxState.synchronizeMessages
  cases hf : fetchMessages mailboxId cache (some seen) with
  | none =>
    rw [if_pos (Option.some.inj (fetchMessages_eq_none.mp hf)).symm]
    exact h
  | some newState =>
    have hseen : cache.changeId ≠ seen := fun heq => by
      rw [fetchMessages_eq_none.mpr (congrArg some heq.symm)] at hf
      cases hf
    have hr := fetchMessages_ranked hf
    rw [if_neg hseen]
    refine ⟨h.numbered.setNext hr, MailboxState.base_setNext.trans h.base, hr, fun uid huid => ?_, fun uid huid => ?_⟩
    · exact hr.mem_uidToId.mp (MailboxState.mem_uidsOf_setNext.mp huid).2
    · rcases hnew hseen uid huid with hold | hlt
      · refine (h.fresh uid hold).imp_left fun hmem => ?_
        exact MailboxState.mem_uidsOf_setNext.mpr ⟨hmem, hr.mem_uidToId.mpr huid⟩
      · exact .inr hlt

/-! ## Announcements -/

/-- The messages that are gone, by their UIDs or by their numbers, are taken out one by one. -/
theorem foldl_expunge {ids : List ImapId} (hnodup : (ids.map ImapId.uid).Nodup)
    (hids : ∀ i ∈ ids, i.uid ∈ told ∧ i.seqnum = rank told i.uid) (newer : List ℕ) (isQresync : Bool) :
    (Response.lines (.expunge isQresync
      ((ids.map fun i => if isQresync then i.uid else i.seqnum).insertionSort (· ≤ ·)))).foldl (Line.apply newer)
        (told.sort (· ≤ ·)) = (told \ (ids.map ImapId.uid).toFinset).sort (· ≤ ·) := by
  set gone := (ids.map ImapId.uid).toFinset
  have hmem {uid : ℕ} : uid ∈ gone ↔ uid ∈ ids.map ImapId.uid := mem_toFinset
  have hsub {uid : ℕ} (h : uid ∈ gone) : uid ∈ told := by
    obtain ⟨i, hi, rfl⟩ := mem_map.mp (hmem.mp h)
    exact (hids i hi).1
  cases isQresync with
  | true =>
    show (told.sort (· ≤ ·)).filter _ = _
    rw [filter_sort]
    congr 1
    ext uid
    rw [Finset.mem_filter, Finset.mem_sdiff, hmem, Bool.not_eq_true', ← Bool.not_eq_true, inRange_serializeSequence,
      mem_insertionSort]
    rfl
  | false =>
    have hranks : ids.map ImapId.seqnum = (ids.map ImapId.uid).map (rank told) := by
      rw [map_map]
      exact map_congr_left fun i hi => (hids i hi).2
    have hranked : ((ids.map ImapId.uid).map (rank told)).Nodup :=
      hnodup.map_on fun a ha b hb h => rank_injOn (hsub (hmem.mpr ha)) (hsub (hmem.mpr hb)) h
    have hsorted : ((gone.sort (· ≤ ·)).map (rank told)).Pairwise (· < ·) := by
      refine pairwise_map.mpr ((Finset.sortedLT_sort gone).pairwise.imp_of_mem fun _ hb hlt => ?_)
      exact rank_lt (hsub ((Finset.mem_sort _).mp hb)) hlt
    have hnumbers : (ids.map ImapId.seqnum).insertionSort (· ≤ ·) = (gone.sort (· ≤ ·)).map (rank told) := by
      rw [hranks]
      refine (pairwise_lt_sort hranked).eq_of_mem_iff hsorted fun n => ?_
      rw [mem_insertionSort, mem_map, mem_map]
      exact exists_congr fun uid => and_congr_left fun _ => by rw [Finset.mem_sort, hmem]
    show (((ids.map ImapId.seqnum).insertionSort (· ≤ ·)).zipIdx.map _).foldl _ _ = _
    rw [hnumbers, foldl_map]
    refine (foldl_eraseNth (rank told) _ told 0 (Finset.sortedLT_sort gone).pairwise fun uid huid => ?_).trans ?_
    · exact ⟨hsub ((Finset.mem_sort _).mp huid), rfl⟩
    · rw [Finset.sort_toFinset]

/-- The messages behind those that are left are asked for. -/
theorem exists_apply {left : Finset ℕ} (hsub : left ⊆ uids) (hlt : ∀ uid ∈ left, ∀ uid' ∈ uids \ left, uid < uid') :
    Line.apply (uids.sort (· ≤ ·)) (left.sort (· ≤ ·)) (.exists uids.card) = uids.sort (· ≤ ·) := by
  have hsplit := sort_union hlt
  rw [Finset.union_sdiff_of_subset hsub] at hsplit
  show _ ++ List.take _ (List.drop _ _) = _
  rw [← hsplit, drop_left, take_of_length_le]
  rw [Finset.length_sort, Finset.length_sort, Finset.card_sdiff_of_subset hsub]

theorem Pending.announce (h : Pending m told uids) (isQresync : Bool) :
    ((m.announce isQresync).1.flatMap Response.lines).foldl (Line.apply (m.announce isQresync).2.messages)
      (told.sort (· ≤ ·)) = (m.announce isQresync).2.messages ∧
      (m.announce isQresync).2.messages = uids.sort (· ≤ ·) := by
  have hview := h.view
  cases hn : m.nextState with
  | none =>
    rw [MailboxState.view, hn] at hview
    have htold : told = uids := by
      rw [← h.base, MailboxState.base, MailboxState.deletions, hn, ← hview.uids]
      exact Finset.union_empty _
    simp only [MailboxState.announce, hn]
    rw [hview.messages, htold]
    exact ⟨rfl, rfl⟩
  | some next =>
    replace hview : next.nextState.Ranked uids := by rwa [MailboxState.view, hn] at hview
    have hdeletions : m.deletions = next.deletions := by rw [MailboxState.deletions, hn]; rfl
    set gone := (next.deletions.map ImapId.uid).toFinset with hgone
    have hbase : told = uidsOf m.idToImap ∪ gone := by rw [← h.base, MailboxState.base, hdeletions]
    have hleft : told \ gone = uidsOf m.idToImap := by
      rw [hbase, Finset.union_sdiff_right, Finset.sdiff_eq_self_iff_disjoint, Finset.disjoint_right]
      intro uid huid
      obtain ⟨i, hi, rfl⟩ := mem_map.mp (mem_toFinset.mp huid)
      exact h.numbered.disjoint i (hdeletions ▸ hi)
    have hbehind : ∀ uid ∈ uidsOf m.idToImap, ∀ uid' ∈ uids \ uidsOf m.idToImap, uid < uid' := by
      intro uid huid uid' huid'
      obtain ⟨huid', hnot⟩ := Finset.mem_sdiff.mp huid'
      have hle : uid ≤ told.sup id := Finset.le_sup (f := id) (hbase ▸ Finset.mem_union_left _ huid)
      exact hle.trans_lt ((h.fresh uid' huid').resolve_left hnot)
    set newer := (m.announce isQresync).2.messages with hnewer
    have hmessages : newer = uids.sort (· ≤ ·) := by
      rw [hnewer, MailboxState.announce, hn]
      exact hview.messages
    set expunged : List Response := if next.deletions.isEmpty then [] else
      [.expunge isQresync
        ((next.deletions.map fun i => if isQresync then i.uid else i.seqnum).insertionSort (· ≤ ·))] with hexpunged
    have hgone' : (expunged.flatMap Response.lines).foldl (Line.apply newer) (told.sort (· ≤ ·)) =
        (uidsOf m.idToImap).sort (· ≤ ·) := by
      rw [← hleft]
      by_cases hempty : next.deletions = []
      · rw [hexpunged, hgone, hempty]
        exact congrArg (Finset.sort · _) Finset.sdiff_empty.symm
      · rw [hexpunged, if_neg (by rwa [List.isEmpty_iff]), flatMap_singleton]
        refine foldl_expunge (hdeletions ▸ h.numbered.nodup) (fun i hi => ⟨?_, ?_⟩) newer isQresync
        · exact hbase ▸ Finset.mem_union_right _ (mem_toFinset.mpr (mem_map_of_mem hi))
        · exact h.base ▸ h.numbered.deleted i (hdeletions ▸ hi)
    have hbuf : (m.announce isQresync).1 =
        if !expunged.isEmpty || decide (next.nextState.uidMax - m.uidMax > 0) then
          expunged ++ [.exists next.nextState.totalMessages] else expunged := by
      rw [MailboxState.announce, hn]
    rw [hbuf]
    refine ⟨?_, hmessages⟩
    split_ifs with hexists
    · rw [flatMap_append, foldl_append, hgone', hmessages, hview.totalMessages]
      exact exists_apply h.kept hbehind
    · rw [hgone', hmessages]
      congr 1
      refine h.kept.antisymm fun uid huid => (h.fresh uid huid).resolve_right fun hlt => hexists ?_
      have hle : uid ≤ uids.sup id := Finset.le_sup (f := id) huid
      rw [← hview.uidMax] at hle
      rw [← h.base, ← h.numbered.uidMax] at hlt
      rw [Bool.or_eq_true, decide_eq_true_iff]
      exact .inr (by omega)

/-! ## Synchronizations -/

/-- Each snapshot that is taken has no UID that the one before it had not, but for UIDs greater than those announced. -/
def Newer (mailboxId : ℕ) (told : Finset ℕ) : Finset ℕ → List (MessagesCache × ℕ) → Prop
  | _, [] => True
  | uids, (cache, seen) :: snapshots =>
    (cache.changeId ≠ seen → ∀ uid ∈ cache.uids mailboxId, uid ∈ uids ∨ told.sup id < uid) ∧
      Newer mailboxId told (if cache.changeId = seen then uids else cache.uids mailboxId) snapshots

/-- The UIDs of the last snapshot that was taken. -/
def latest (mailboxId : ℕ) (uids : Finset ℕ) (snapshots : List (MessagesCache × ℕ)) : Finset ℕ :=
  snapshots.foldl (fun uids snapshot =>
    if snapshot.1.changeId = snapshot.2 then uids else snapshot.1.uids mailboxId) uids

/-- The state after some synchronizations, each with the `modseq` that it has read. -/
def synchronized (mailboxId : ℕ) (m : MailboxState) (snapshots : List (MessagesCache × ℕ)) : MailboxState :=
  snapshots.foldl (fun m snapshot => (m.synchronizeMessages mailboxId snapshot.1 snapshot.2).2) m

theorem Pending.synchronized {snapshots : List (MessagesCache × ℕ)} (h : Pending m told uids)
    (hnewer : Newer mailboxId told uids snapshots) :
    Pending (synchronized mailboxId m snapshots) told (latest mailboxId uids snapshots) := by
  induction snapshots generalizing m uids with
  | nil => exact h
  | cons snapshot snapshots ih => exact ih (h.synchronize hnewer.1) hnewer.2

/-- What is announced turns the messages of a client into those of the last state that was fetched. -/
def Follows (mailboxId : ℕ) (m : MailboxState) (uids : Finset ℕ) (snapshots : List (MessagesCache × ℕ))
    (cache : MessagesCache) (seen : ℕ) (isQresync : Bool) : Prop :=
  let announced := (synchronized mailboxId m snapshots).writeMailboxChanges mailboxId cache seen isQresync
  (announced.1.flatMap Response.lines).foldl (Line.apply announced.2.2.messages) m.messages = announced.2.2.messages ∧
    announced.2.2.messages = (latest mailboxId uids (snapshots ++ [(cache, seen)])).sort (· ≤ ·)

/-- **The client follows**, after any number of synchronizations. -/
theorem client_follows {m : MailboxState} {uids : Finset ℕ} (mailboxId : ℕ) (hannounced : m.Ranked uids)
    (hnext : m.nextState = none) (snapshots : List (MessagesCache × ℕ)) (cache : MessagesCache) (seen : ℕ)
    (hnewer : Newer mailboxId uids uids (snapshots ++ [(cache, seen)])) (isQresync : Bool) :
    Follows mailboxId m uids snapshots cache seen isQresync := by
  have h := (pending_announced hannounced hnext).synchronized hnewer
  have hsynchronized : synchronized mailboxId m (snapshots ++ [(cache, seen)]) =
      ((synchronized mailboxId m snapshots).synchronizeMessages mailboxId cache seen).2 := foldl_concat _ _ _ _
  rw [hsynchronized] at h
  unfold Follows
  rw [hannounced.messages]
  exact h.announce isQresync

/-- A snapshot of messages whose documents are their UIDs. -/
def sampleSnapshot (changeId : ℕ) (documents : List ℕ) (h : documents.Nodup) : MessagesCache :=
  ⟨changeId, documents.map fun id => ⟨id, [⟨0, id⟩]⟩, by rwa [map_map, show _ ∘ _ = @id ℕ from rfl, map_id]⟩

def sampleFirst : MessagesCache := sampleSnapshot 1 [1, 2, 3] (by decide)

def sampleSecond : MessagesCache := sampleSnapshot 2 [2, 3] (by decide)

def sampleThird : MessagesCache := sampleSnapshot 3 [3, 4] (by decide)

def sampleAnnounced : MailboxState := ⟨(fetchMessages 0 sampleFirst none).getD ⟨0, ∅, ∅, 0, 0⟩, none⟩

/-- The first of three messages goes, then the second, and a fourth one comes. -/
theorem client_follows_fourth :
    Follows 0 sampleAnnounced (sampleFirst.uids 0) [(sampleSecond, 1)] sampleThird 2 false := by
  have hfetch : fetchMessages 0 sampleFirst none = some sampleAnnounced.toNumbering := rfl
  refine client_follows 0 (fetchMessages_ranked hfetch) rfl _ _ _ ?_ false
  exact ⟨fun _ => by decide, fun _ => by decide, trivial⟩

end MailServer.Imap
