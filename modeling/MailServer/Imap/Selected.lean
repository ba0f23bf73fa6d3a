import MailServer.Imap.Numbering
import MailServer.Lib.Run

/-!
# A selected mailbox over a session

Between two announcements the client goes by the old numbers: a message that is gone stays counted as a pending
deletion.

* `MailboxState.base`: the UIDs that have a number, pending deletions included.
* `MailboxState.Numbered`: their numbers are their ranks.  One lemma for each operation says that it stays so.
* `Selected`, `Selected.step`: the operations of a session, with snapshots and new messages of any kind.
* `kept_of_run`: what holds of the state after every operation.
-/

namespace MailServer.Imap

open MailServer.Utils MailServer.Utils.HashMap MailServer.Lib MailServer.Lib.Rank List MailboxState

namespace MailboxState

/-- The UIDs that have a number. -/
def base (m : MailboxState) : Finset ℕ := uidsOf m.idToImap ∪ (m.deletions.map ImapId.uid).toFinset

theorem mem_base {m : MailboxState} {uid : ℕ} :
    uid ∈ m.base ↔ uid ∈ uidsOf m.idToImap ∨ ∃ i ∈ m.deletions, i.uid = uid := by
  simp [base]

theorem mem_base_of_idToImap {m : MailboxState} {id : ℕ} {i : ImapId} (h : m.idToImap[id]? = some i) :
    i.uid ∈ m.base :=
  mem_base.2 (.inl (mem_uidsOf.mpr ⟨id, i.seqnum, h⟩))

/-- The numbers are the ranks among the numbered UIDs.  A UID in `appended` may lead elsewhere in `uid_to_id`. -/
structure Numbered (m : MailboxState) (appended : Finset ℕ) : Prop where
  seqnum : ∀ (id : ℕ) i, m.idToImap[id]? = some i → i.seqnum = rank m.base i.uid
  deleted : ∀ i ∈ m.deletions, i.seqnum = rank m.base i.uid
  totalMessages : m.totalMessages = m.base.card
  uidMax : m.uidMax = m.base.sup id
  uidToId : ∀ uid : ℕ, uid ∈ m.uidToId ↔ uid ∈ uidsOf m.idToImap
  unique : ∀ (id id' : ℕ) (i i' : ImapId),
    m.idToImap[id]? = some i → m.idToImap[id']? = some i' → i.uid = i'.uid → id = id'
  inverse : ∀ (id : ℕ) i, m.idToImap[id]? = some i → i.uid ∉ appended → m.uidToId[i.uid]? = some id
  nodup : (m.deletions.map ImapId.uid).Nodup
  disjoint : ∀ i ∈ m.deletions, i.uid ∉ uidsOf m.idToImap
  next : ∀ next, m.nextState = some next → ∃ uids, next.nextState.Ranked uids

end MailboxState

theorem base_fetched (s : Numbering) : base { s with nextState := none } = uidsOf s.idToImap := by
  simp [base, deletions]

theorem Numbering.Ranked.numbered {s : Numbering} {uids : Finset ℕ} (h : s.Ranked uids) :
    MailboxState.Numbered { s with nextState := none } ∅ where
  seqnum id i hi := by
    rw [base_fetched, h.uids]
    exact h.seqnum id i hi
  deleted i hi := by simp [deletions] at hi
  totalMessages := by
    rw [base_fetched, h.uids]
    exact h.totalMessages
  uidMax := by
    rw [base_fetched, h.uids]
    exact h.uidMax
  uidToId uid := by rw [h.mem_uidToId, h.uids]
  unique id id' i i' hi hi' he := by
    have hid := (h.inverse i.uid id).mpr ⟨i.seqnum, hi⟩
    have hid' := (h.inverse i'.uid id').mpr ⟨i'.seqnum, hi'⟩
    rw [he] at hid
    exact Option.some.inj (hid.symm.trans hid')
  inverse id i hi _ := (h.inverse i.uid id).mpr ⟨i.seqnum, hi⟩
  nodup := nodup_nil
  disjoint i hi := by simp [deletions] at hi
  next next hnext := by simp at hnext

namespace MailboxState

/-! ### Synchronising -/

theorem getElem?_foldl_erase (l : List ImapId) (u : HashMap ℕ ℕ) (uid : ℕ) :
    (l.foldl (fun u i => u.erase i.uid) u)[uid]? = if uid ∈ l.map ImapId.uid then none else u[uid]? := by
  induction l generalizing u with
  | nil => simp
  | cons i l ih =>
    rw [foldl_cons, ih, getElem?_erase]
    by_cases hi : i.uid = uid
    · simp [hi]
    · simp [hi, Ne.symm hi]

section

variable {m : MailboxState} {newState : Numbering} {appended uids : Finset ℕ}

theorem mem_gone {i : ImapId} :
    i ∈ m.gone newState ↔ ∃ id : ℕ, m.idToImap[id]? = some i ∧ i.uid ∉ newState.uidToId := by
  simp only [gone, mem_map, mem_filter, Prod.exists, mem_toList, exists_eq_right, Bool.not_eq_true',
    ← Bool.not_eq_true, Std.TreeMap.contains_iff_mem]

theorem idToImap_setNext {id : ℕ} {i : ImapId} :
    (m.setNext newState).idToImap[id]? = some i ↔ m.idToImap[id]? = some i ∧ i.uid ∈ newState.uidToId := by
  rw [setNext, getElem?_retain, Std.TreeMap.contains_iff_mem]

theorem mem_uidsOf_setNext {uid : ℕ} :
    uid ∈ uidsOf (m.setNext newState).idToImap ↔ uid ∈ uidsOf m.idToImap ∧ uid ∈ newState.uidToId := by
  simp [mem_uidsOf, idToImap_setNext]

theorem deletions_setNext : (m.setNext newState).deletions = m.deletions ++ m.gone newState := rfl

theorem mem_map_gone {uid : ℕ} :
    uid ∈ (m.gone newState).map ImapId.uid ↔ uid ∈ uidsOf m.idToImap ∧ uid ∉ newState.uidToId := by
  simp only [mem_map, mem_gone, mem_uidsOf]
  constructor
  · rintro ⟨i, ⟨id, hi, hnot⟩, rfl⟩
    exact ⟨⟨id, i.seqnum, hi⟩, hnot⟩
  · rintro ⟨⟨id, n, hi⟩, hnot⟩
    exact ⟨⟨uid, n⟩, ⟨id, hi, hnot⟩, rfl⟩

theorem uidToId_setNext {uid : ℕ} :
    (m.setNext newState).uidToId[uid]? = if uid ∈ (m.gone newState).map ImapId.uid then none else m.uidToId[uid]? :=
  getElem?_foldl_erase _ _ _

theorem base_setNext : (m.setNext newState).base = m.base := by
  ext uid
  have hgone : (∃ i ∈ m.gone newState, i.uid = uid) ↔ uid ∈ uidsOf m.idToImap ∧ uid ∉ newState.uidToId := by
    rw [← mem_map_gone, mem_map]
  simp only [mem_base, mem_uidsOf_setNext, deletions_setNext, mem_append, or_and_right, exists_or, hgone]
  by_cases hnew : uid ∈ newState.uidToId
  · simp [hnew]
  · simp [hnew, or_comm]

theorem nodup_gone (h : m.Numbered appended) : ((m.gone newState).map ImapId.uid).Nodup := by
  rw [gone, map_map]
  refine ((nodup_toList _).sublist filter_sublist).map_on ?_
  rintro ⟨id, i⟩ he ⟨id', i'⟩ he' huid
  have hi := mem_toList.mp (mem_filter.mp he).1
  have hi' := mem_toList.mp (mem_filter.mp he').1
  obtain rfl := h.unique id id' i i' hi hi' huid
  rw [Option.some.inj (hi.symm.trans hi')]

/-- **A newer snapshot leaves the numbers alone.** -/
theorem Numbered.setNext (h : m.Numbered appended) (hnew : newState.Ranked uids) :
    (m.setNext newState).Numbered appended where
  seqnum id i hi := by
    rw [base_setNext]
    exact h.seqnum id i (idToImap_setNext.1 hi).1
  deleted i hi := by
    rw [base_setNext]
    rcases mem_append.mp hi with hi | hi
    · exact h.deleted i hi
    · obtain ⟨id, hi, -⟩ := mem_gone.1 hi
      exact h.seqnum id i hi
  totalMessages := by
    rw [base_setNext]
    exact h.totalMessages
  uidMax := by
    rw [base_setNext]
    exact h.uidMax
  uidToId uid := by
    rw [Std.TreeMap.mem_iff_isSome_getElem?, uidToId_setNext, mem_uidsOf_setNext, ← h.uidToId]
    split_ifs with hgone
    · have hnot := (mem_map_gone.1 hgone).2
      simp [hnot]
    · rw [mem_map_gone, ← h.uidToId] at hgone
      rw [← Std.TreeMap.mem_iff_isSome_getElem?]
      tauto
  unique id id' i i' hi hi' := h.unique id id' i i' (idToImap_setNext.1 hi).1 (idToImap_setNext.1 hi').1
  inverse id i hi happ := by
    obtain ⟨hi, hmem⟩ := idToImap_setNext.1 hi
    rw [uidToId_setNext, if_neg fun hgone => (mem_map_gone.1 hgone).2 hmem]
    exact h.inverse id i hi happ
  nodup := by
    rw [deletions_setNext, map_append]
    refine h.nodup.append (nodup_gone h) fun uid hdel hgone => ?_
    obtain ⟨i, hi, rfl⟩ := mem_map.mp hdel
    exact h.disjoint i hi (mem_map_gone.1 hgone).1
  disjoint i hi hmem := by
    rw [mem_uidsOf_setNext] at hmem
    rcases mem_append.mp hi with hi | hi
    · exact h.disjoint i hi hmem.1
    · obtain ⟨id, -, hnot⟩ := mem_gone.1 hi
      exact hnot hmem.2
  next next hnext := by
    obtain rfl := Option.some.inj hnext
    exact ⟨uids, hnew⟩

end

/-! ### Appending -/

section

variable {m : MailboxState} {appended : Finset ℕ}

/-- One message of an APPEND, with the UID it leaves in `uid_max`. -/
def appendNext (m : MailboxState) (id : ImapUidToId) : MailboxState := { m.append id with uidMax := id.uid }

theorem foldl_append_uidMax (ids : List ImapUidToId) (m : MailboxState) (uid : ℕ) :
    ids.foldl append { m with uidMax := uid } = { ids.foldl append m with uidMax := uid } := by
  induction ids generalizing m with
  | nil => rfl
  | cons id ids ih => exact ih (m.append id)

theorem foldl_appendNext (ids : List ImapUidToId) (m : MailboxState) :
    ids.foldl appendNext m = { ids.foldl append m with uidMax := lastUid m.uidMax ids } := by
  induction ids generalizing m with
  | nil => rfl
  | cons id ids ih =>
    rw [foldl_cons, ih, appendNext, foldl_append_uidMax]
    rfl

theorem appendMessages_eq {ids : List ImapUidToId} {modseq : Option ℕ} (hids : ids ≠ [])
    (h : modseq.getD 0 > m.modseq) : m.appendMessages ids modseq = ids.foldl appendNext m := by
  rw [appendMessages, if_pos h, foldl_appendNext]
  cases ids with
  | nil => exact absurd rfl hids
  | cons id ids => rfl

variable {e : ImapUidToId}

theorem idToImap_appendNext {d : ℕ} :
    (m.appendNext e).idToImap[d]? = if e.id = d then some ⟨e.uid, m.totalMessages + 1⟩ else m.idToImap[d]? :=
  getElem?_insert

theorem uidToId_appendNext {uid : ℕ} :
    (m.appendNext e).uidToId[uid]? = if e.uid = uid then some e.uid else m.uidToId[uid]? :=
  getElem?_insert

theorem mem_uidsOf_appendNext (hid : e.id ∉ m.idToImap) {uid : ℕ} :
    uid ∈ uidsOf (m.appendNext e).idToImap ↔ uid = e.uid ∨ uid ∈ uidsOf m.idToImap := by
  have hnone : m.idToImap[e.id]? = none := Std.TreeMap.getElem?_eq_none hid
  simp only [mem_uidsOf, idToImap_appendNext]
  constructor
  · rintro ⟨d, n, h⟩
    split_ifs at h with hd
    · exact .inl (congrArg ImapId.uid (Option.some.inj h)).symm
    · exact .inr ⟨d, n, h⟩
  · rintro (rfl | ⟨d, n, h⟩)
    · exact ⟨e.id, m.totalMessages + 1, if_pos rfl⟩
    · refine ⟨d, n, (if_neg ?_).trans h⟩
      rintro rfl
      simp [hnone] at h

theorem base_appendNext (hid : e.id ∉ m.idToImap) : (m.appendNext e).base = insert e.uid m.base := by
  ext uid
  have hdel : (m.appendNext e).deletions = m.deletions := rfl
  rw [mem_base, mem_uidsOf_appendNext hid, Finset.mem_insert, mem_base, hdel, or_assoc]

/-- **A new message with a greater UID takes the next number.** -/
theorem Numbered.appendNext (h : m.Numbered appended) (huid : ∀ uid ∈ m.base, uid < e.uid)
    (hid : e.id ∉ m.idToImap) : (m.appendNext e).Numbered (insert e.uid appended) where
  seqnum d i hi := by
    rw [base_appendNext hid]
    rw [idToImap_appendNext] at hi
    split_ifs at hi with hd
    · obtain rfl := Option.some.inj hi
      rw [rank_insert_self huid, h.totalMessages]
    · rw [h.seqnum d i hi, rank_insert_of_mem huid]
      exact mem_base_of_idToImap hi
  deleted i hi := by
    rw [base_appendNext hid, h.deleted i hi, rank_insert_of_mem huid]
    exact mem_base.2 (.inr ⟨i, hi, rfl⟩)
  totalMessages := by
    rw [base_appendNext hid, Finset.card_insert_of_notMem fun hm => (huid _ hm).false, ← h.totalMessages]
    rfl
  uidMax := by
    have hle : m.base.sup id ≤ e.uid := Finset.sup_le fun uid hm => (huid uid hm).le
    rw [base_appendNext hid, Finset.sup_insert]
    exact (max_eq_left hle).symm
  uidToId uid := by
    rw [mem_uidsOf_appendNext hid, ← h.uidToId, Std.TreeMap.mem_iff_isSome_getElem?, uidToId_appendNext]
    by_cases hu : e.uid = uid
    · simp [hu]
    · simp [hu, Ne.symm hu]
  unique d d' i i' hi hi' he := by
    rw [idToImap_appendNext] at hi hi'
    split_ifs at hi hi' with hd hd' hd'
    · exact hd.symm.trans hd'
    · obtain rfl := Option.some.inj hi
      exact absurd he (huid _ (mem_base_of_idToImap hi')).ne'
    · obtain rfl := Option.some.inj hi'
      exact absurd he (huid _ (mem_base_of_idToImap hi)).ne
    · exact h.unique d d' i i' hi hi' he
  inverse d i hi happ := by
    rw [Finset.mem_insert, not_or] at happ
    rw [idToImap_appendNext] at hi
    rw [uidToId_appendNext, if_neg (Ne.symm happ.1)]
    split_ifs at hi with hd
    · obtain rfl := Option.some.inj hi
      exact absurd rfl happ.1
    · exact h.inverse d i hi happ.2
  nodup := h.nodup
  disjoint i hi hmem := by
    rcases (mem_uidsOf_appendNext hid).mp hmem with he | hmem
    · exact (huid i.uid (mem_base.2 (.inr ⟨i, hi, rfl⟩))).ne he
    · exact h.disjoint i hi hmem
  next := h.next

end

/-! ### Announcing -/

theorem Numbered.announce {m : MailboxState} {appended : Finset ℕ} (h : m.Numbered appended) (isQresync : Bool) :
    (m.announce isQresync).2.Numbered (if m.nextState.isSome then ∅ else appended) := by
  cases hn : m.nextState with
  | none => simpa [MailboxState.announce, hn] using h
  | some next =>
    obtain ⟨uids, hnext⟩ := h.next next hn
    simpa [MailboxState.announce, hn] using hnext.numbered

/-! ### Counters -/

/-- The UIDs and the documents have been handed out by the counters. -/
structure Bounded (m : MailboxState) (uidCounter idCounter : ℕ) : Prop where
  uid : ∀ uid ∈ m.base, uid ≤ uidCounter
  id : ∀ (d : ℕ) i, m.idToImap[d]? = some i → d ≤ idCounter
  next : ∀ next, m.nextState = some next →
    ∀ (d : ℕ) i, next.nextState.idToImap[d]? = some i → i.uid ≤ uidCounter ∧ d ≤ idCounter

theorem bounded_fetched {s : Numbering} {u i : ℕ}
    (h : ∀ (d : ℕ) e, s.idToImap[d]? = some e → e.uid ≤ u ∧ d ≤ i) :
    Bounded { s with nextState := none } u i where
  uid uid huid := by
    rw [base_fetched] at huid
    obtain ⟨d, n, hd⟩ := mem_uidsOf.mp huid
    exact (h d _ hd).1
  id d e hd := (h d e hd).2
  next next hnext := by simp at hnext

namespace Bounded

variable {m : MailboxState} {u u' i i' : ℕ}

theorem mono (h : m.Bounded u i) (hu : u ≤ u') (hi : i ≤ i') : m.Bounded u' i' where
  uid uid huid := (h.uid uid huid).trans hu
  id d e hd := (h.id d e hd).trans hi
  next next hnext d e hd := ⟨(h.next next hnext d e hd).1.trans hu, (h.next next hnext d e hd).2.trans hi⟩

theorem setNext {newState : Numbering} (h : m.Bounded u i)
    (hnew : ∀ (d : ℕ) e, newState.idToImap[d]? = some e → e.uid ≤ u ∧ d ≤ i) : (m.setNext newState).Bounded u i where
  uid uid huid := h.uid uid (base_setNext ▸ huid)
  id d e hd := h.id d e (idToImap_setNext.1 hd).1
  next next hnext := by
    obtain rfl := Option.some.inj hnext
    exact hnew

theorem announce (h : m.Bounded u i) (isQresync : Bool) : (m.announce isQresync).2.Bounded u i := by
  cases hn : m.nextState with
  | none => simpa [MailboxState.announce, hn] using h
  | some next => simpa [MailboxState.announce, hn] using bounded_fetched (h.next next hn)

theorem appendNext {e : ImapUidToId} (h : m.Bounded u i) (hu : u < e.uid) (hi : i < e.id) :
    (m.appendNext e).Bounded e.uid e.id where
  uid uid huid := by
    have hnot : e.id ∉ m.idToImap := by
      intro hm
      obtain ⟨j, hj⟩ := Option.isSome_iff_exists.mp (Std.TreeMap.isSome_getElem?_iff_mem.mpr hm)
      exact absurd (h.id e.id j hj) (not_le.mpr hi)
    rw [base_appendNext hnot, Finset.mem_insert] at huid
    rcases huid with rfl | huid
    · exact le_rfl
    · exact (h.uid uid huid).trans hu.le
  id d j hd := by
    rw [idToImap_appendNext] at hd
    split_ifs at hd with he
    · exact he.ge
    · exact (h.id d j hd).trans hi.le
  next := (h.mono hu.le hi.le).next

end Bounded

theorem numbered_foldl_appendNext {ids : List ImapUidToId} {m : MailboxState} {appended : Finset ℕ} {u i : ℕ}
    (h : m.Numbered appended) (hb : m.Bounded u i) (hu : (u :: ids.map ImapUidToId.uid).Pairwise (· < ·))
    (hi : (i :: ids.map ImapUidToId.id).Pairwise (· < ·)) :
    (ids.foldl appendNext m).Numbered (appended ∪ (ids.map ImapUidToId.uid).toFinset) ∧
      (ids.foldl appendNext m).Bounded ((ids.map ImapUidToId.uid).getLastD u)
        ((ids.map ImapUidToId.id).getLastD i) := by
  induction ids generalizing m appended u i with
  | nil => simpa using ⟨h, hb⟩
  | cons e ids ih =>
    rw [pairwise_cons] at hu hi
    have hlt : u < e.uid := hu.1 _ mem_cons_self
    have hlt' : i < e.id := hi.1 _ mem_cons_self
    have hnot : e.id ∉ m.idToImap := by
      intro hm
      obtain ⟨j, hj⟩ := Option.isSome_iff_exists.mp (Std.TreeMap.isSome_getElem?_iff_mem.mpr hm)
      exact absurd (hb.id e.id j hj) (not_le.mpr hlt')
    have hnext := h.appendNext (fun uid huid => (hb.uid uid huid).trans_lt hlt) hnot
    have happ : appended ∪ ((e :: ids).map ImapUidToId.uid).toFinset =
        insert e.uid appended ∪ (ids.map ImapUidToId.uid).toFinset := by
      rw [map_cons, toFinset_cons, Finset.insert_union, Finset.union_insert]
    rw [happ, map_cons, getLastD_cons, map_cons, getLastD_cons]
    exact ih hnext (hb.appendNext hlt hlt') hu.2 hi.2

end MailboxState

/-- A selected mailbox, with what the client was told and what the counters have handed out. -/
structure Selected where
  state : MailboxState
  /-- The UIDs last announced.  The client's number for one is its rank. -/
  told : Finset ℕ
  /-- The UIDs that `append_messages` put in since the state was last taken from a snapshot. -/
  appended : Finset ℕ
  uidCounter : ℕ
  idCounter : ℕ

inductive Action where
  /-- Others take UIDs and document ids. -/
  | assign (uids ids : ℕ)
  /-- SELECT. -/
  | fetch (cache : MessagesCache)
  /-- A command that may not announce anything. -/
  | synchronize (cache : MessagesCache) (seen : ℕ)
  | writeMailboxChanges (cache : MessagesCache) (seen : ℕ) (isQresync : Bool)
  | append (ids : List ImapUidToId) (modseq : Option ℕ)

namespace Selected

def init (uidCounter idCounter : ℕ) : Selected := ⟨⟨⟨0, ∅, ∅, 0, 0⟩, none⟩, ∅, ∅, uidCounter, idCounter⟩

section

variable (mailboxId : ℕ)

/-- What a snapshot shows has been handed out. -/
def Handed (s : Selected) (cache : MessagesCache) : Prop :=
  ∀ e ∈ cache.entries mailboxId, e.1 ≤ s.uidCounter ∧ e.2 ≤ s.idCounter

instance (s : Selected) (cache : MessagesCache) : Decidable (s.Handed mailboxId cache) := by
  unfold Handed
  infer_instance

/-- The messages that an APPEND has just created: `append_messages` is called with one at least. -/
def Created (s : Selected) (ids : List ImapUidToId) : Prop :=
  ids ≠ [] ∧ (s.uidCounter :: ids.map ImapUidToId.uid).Pairwise (· < ·) ∧
    (s.idCounter :: ids.map ImapUidToId.id).Pairwise (· < ·)

def fetch (cache : MessagesCache) (s : Selected) : Selected :=
  match fetchMessages mailboxId cache none with
  | none => s
  | some state =>
    { s with state := { state with nextState := none }, told := uidsOf state.idToImap, appended := ∅ }

def synchronize (cache : MessagesCache) (seen : ℕ) (s : Selected) : Selected :=
  { s with state := (s.state.synchronizeMessages mailboxId cache seen).2 }

def announce (isQresync : Bool) (s : Selected) : Selected :=
  let (buf, state) := s.state.announce isQresync
  { s with
    state := state
    told := if buf.isEmpty then s.told else uidsOf state.idToImap
    appended := if s.state.nextState.isSome then ∅ else s.appended }

def append (ids : List ImapUidToId) (modseq : Option ℕ) (s : Selected) : Selected :=
  { state := s.state.appendMessages ids modseq
    told := s.told
    appended :=
      if modseq.getD 0 > s.state.modseq then s.appended ∪ (ids.map ImapUidToId.uid).toFinset else s.appended
    uidCounter := (ids.map ImapUidToId.uid).getLastD s.uidCounter
    idCounter := (ids.map ImapUidToId.id).getLastD s.idCounter }

instance (s : Selected) (ids : List ImapUidToId) : Decidable (s.Created ids) :=
  decidable_of_iff (ids.isEmpty = false ∧ (s.uidCounter :: ids.map ImapUidToId.uid).Pairwise (· < ·) ∧
    (s.idCounter :: ids.map ImapUidToId.id).Pairwise (· < ·)) (by rw [Created, isEmpty_eq_false_iff])

def step (s : Selected) : Action → Option Selected
  | .assign uids ids => some { s with uidCounter := s.uidCounter + uids, idCounter := s.idCounter + ids }
  | .fetch cache => if s.Handed mailboxId cache then some (s.fetch mailboxId cache) else none
  | .synchronize cache seen => if s.Handed mailboxId cache then some (s.synchronize mailboxId cache seen) else none
  | .writeMailboxChanges cache seen isQresync =>
    if s.Handed mailboxId cache then some ((s.synchronize mailboxId cache seen).announce isQresync) else none
  | .append ids modseq => if s.Created ids then some (s.append ids modseq) else none

end

theorem step_cases {mailboxId : ℕ} {s s' : Selected} {a : Action} (h : s.step mailboxId a = some s') :
    (∃ uids ids, a = .assign uids ids ∧
      s' = { s with uidCounter := s.uidCounter + uids, idCounter := s.idCounter + ids }) ∨
    (∃ cache, a = .fetch cache ∧ s.Handed mailboxId cache ∧ s' = s.fetch mailboxId cache) ∨
    (∃ cache seen, a = .synchronize cache seen ∧ s.Handed mailboxId cache ∧
      s' = s.synchronize mailboxId cache seen) ∨
    (∃ cache seen isQresync, a = .writeMailboxChanges cache seen isQresync ∧ s.Handed mailboxId cache ∧
      s' = (s.synchronize mailboxId cache seen).announce isQresync) ∨
    (∃ ids modseq, a = .append ids modseq ∧ s.Created ids ∧ s' = s.append ids modseq) := by
  cases a with
  | assign uids ids => exact .inl ⟨uids, ids, rfl, (Option.some.inj h).symm⟩
  | fetch cache =>
    obtain ⟨hc, hs⟩ := Option.ite_none_right_eq_some.mp h
    exact .inr (.inl ⟨cache, rfl, hc, (Option.some.inj hs).symm⟩)
  | synchronize cache seen =>
    obtain ⟨hc, hs⟩ := Option.ite_none_right_eq_some.mp h
    exact .inr (.inr (.inl ⟨cache, seen, rfl, hc, (Option.some.inj hs).symm⟩))
  | writeMailboxChanges cache seen isQresync =>
    obtain ⟨hc, hs⟩ := Option.ite_none_right_eq_some.mp h
    exact .inr (.inr (.inr (.inl ⟨cache, seen, isQresync, rfl, hc, (Option.some.inj hs).symm⟩)))
  | append ids modseq =>
    obtain ⟨hc, hs⟩ := Option.ite_none_right_eq_some.mp h
    exact .inr (.inr (.inr (.inr ⟨ids, modseq, rfl, hc, (Option.some.inj hs).symm⟩)))

theorem le_getLastD {u : ℕ} {us : List ℕ} (h : (u :: us).Pairwise (· < ·)) : u ≤ us.getLastD u := by
  rcases mem_cons.mp getLastD_mem_cons with he | hm
  · exact he.ge
  · exact (rel_of_pairwise_cons h hm).le

/-! ### The invariant -/

structure Inv (s : Selected) : Prop where
  numbered : s.state.Numbered s.appended
  bounded : s.state.Bounded s.uidCounter s.idCounter

theorem inv_init (uidCounter idCounter : ℕ) : (init uidCounter idCounter).Inv where
  numbered := by
    have h : Numbering.Ranked ⟨0, ∅, ∅, 0, 0⟩ ∅ := (Numbering.assigned_nil 0 0).ranked nodup_nil
    exact h.numbered
  bounded := by
    refine bounded_fetched fun d e hd => ?_
    simp at hd

namespace Inv

variable {mailboxId : ℕ} {cache : MessagesCache} {s : Selected}

theorem fetch (h : s.Inv) (hc : s.Handed mailboxId cache) : (s.fetch mailboxId cache).Inv := by
  rw [Selected.fetch]
  cases hf : fetchMessages mailboxId cache none with
  | none => exact h
  | some state =>
    exact ⟨(fetchMessages_ranked hf).numbered,
      bounded_fetched fun d e hd => hc _ (fetchMessages_entries hf hd)⟩

theorem synchronize (h : s.Inv) (hc : s.Handed mailboxId cache) (seen : ℕ) :
    (s.synchronize mailboxId cache seen).Inv := by
  rw [Selected.synchronize, synchronizeMessages]
  cases hf : fetchMessages mailboxId cache (some seen) with
  | none => exact h
  | some newState =>
    exact ⟨h.numbered.setNext (fetchMessages_ranked hf),
      h.bounded.setNext fun d e hd => hc _ (fetchMessages_entries hf hd)⟩

theorem announce (h : s.Inv) (isQresync : Bool) : (s.announce isQresync).Inv :=
  ⟨h.numbered.announce isQresync, h.bounded.announce isQresync⟩

theorem append {ids : List ImapUidToId} (h : s.Inv) (hc : s.Created ids) (modseq : Option ℕ) :
    (s.append ids modseq).Inv := by
  obtain ⟨hids, hu, hi⟩ := hc
  by_cases hm : modseq.getD 0 > s.state.modseq
  · have hall := numbered_foldl_appendNext h.numbered h.bounded hu hi
    constructor
    · simpa only [Selected.append, appendMessages_eq hids hm, if_pos hm] using hall.1
    · simpa only [Selected.append, appendMessages_eq hids hm] using hall.2
  · constructor
    · simpa only [Selected.append, appendMessages, if_neg hm] using h.numbered
    · simpa only [Selected.append, appendMessages, if_neg hm] using
        h.bounded.mono (le_getLastD hu) (le_getLastD hi)

theorem step {a : Action} {s' : Selected} (h : s.Inv) (hs : s.step mailboxId a = some s') : s'.Inv := by
  obtain ⟨uids, ids, rfl, rfl⟩ | ⟨cache, rfl, hc, rfl⟩ | ⟨cache, seen, rfl, hc, rfl⟩ |
    ⟨cache, seen, isQresync, rfl, hc, rfl⟩ | ⟨ids, modseq, rfl, hc, rfl⟩ := step_cases hs
  · exact ⟨h.numbered, h.bounded.mono (Nat.le_add_right _ _) (Nat.le_add_right _ _)⟩
  · exact h.fetch hc
  · exact h.synchronize hc seen
  · exact (h.synchronize hc seen).announce isQresync
  · exact h.append hc modseq

end Inv

/-! ### What is kept -/

/-- A message that has a number, gone or not. -/
def Counted (m : MailboxState) (i : ImapId) : Prop := (∃ id : ℕ, m.idToImap[id]? = some i) ∨ i ∈ m.deletions

theorem mem_base_iff_counted {m : MailboxState} {uid : ℕ} : uid ∈ m.base ↔ ∃ i, Counted m i ∧ i.uid = uid := by
  rw [mem_base, mem_uidsOf]
  constructor
  · rintro (⟨id, n, hi⟩ | ⟨i, hi, rfl⟩)
    · exact ⟨⟨uid, n⟩, .inl ⟨id, hi⟩, rfl⟩
    · exact ⟨i, .inr hi, rfl⟩
  · rintro ⟨i, ⟨id, hi⟩ | hi, rfl⟩
    · exact .inl ⟨id, i.seqnum, hi⟩
    · exact .inr ⟨i, hi, rfl⟩

/-- What holds of the state throughout a session. -/
structure Kept (s : Selected) : Prop where
  uids : ∀ uid : ℕ, uid ∈ s.state.uidToId ↔ ∃ id n : ℕ, s.state.idToImap[id]? = some ⟨uid, n⟩
  unique : ∀ (id id' : ℕ) (i i' : ImapId),
    s.state.idToImap[id]? = some i → s.state.idToImap[id']? = some i' → i.uid = i'.uid → id = id'
  inverse : ∀ (id : ℕ) i, s.state.idToImap[id]? = some i → i.uid ∉ s.appended → s.state.uidToId[i.uid]? = some id
  /-- No message is gone twice, or both gone and there. -/
  deletions : (s.state.deletions.map ImapId.uid).Nodup ∧ ∀ i ∈ s.state.deletions, i.uid ∉ s.state.uidToId
  numbers : ∀ n, (∃ i, Counted s.state i ∧ i.seqnum = n) ↔ 1 ≤ n ∧ n ≤ s.state.totalMessages
  increasing : ∀ i i', Counted s.state i → Counted s.state i' → i.uid < i'.uid → i.seqnum < i'.seqnum
  uidMax_ge : ∀ i, Counted s.state i → i.uid ≤ s.state.uidMax
  uidMax_mem : ∀ i, Counted s.state i → ∃ i', Counted s.state i' ∧ i'.uid = s.state.uidMax
  next : ∀ next, s.state.nextState = some next → next.nextState.Representation
  /-- With no message gone and none appended, the state is one such as `fetch_messages` builds. -/
  settled : s.state.deletions = [] → s.appended = ∅ → s.state.Representation

theorem Inv.seqnum {s : Selected} (h : s.Inv) {i : ImapId} (hi : Counted s.state i) :
    i.uid ∈ s.state.base ∧ i.seqnum = rank s.state.base i.uid := by
  refine ⟨mem_base_iff_counted.2 ⟨i, hi, rfl⟩, ?_⟩
  rcases hi with ⟨id, hi⟩ | hi
  · exact h.numbered.seqnum id i hi
  · exact h.numbered.deleted i hi

theorem Inv.settled {s : Selected} (h : s.Inv) (hdel : s.state.deletions = []) (happ : s.appended = ∅) :
    s.state.Ranked s.state.base := by
  have hbase : s.state.base = uidsOf s.state.idToImap := by
    simp [base, hdel]
  refine ⟨fun uid id => ?_, h.numbered.seqnum, h.numbered.totalMessages, h.numbered.uidMax, hbase.symm⟩
  have hinv : ∀ (id : ℕ) i, s.state.idToImap[id]? = some i → s.state.uidToId[i.uid]? = some id :=
    fun id i hi => h.numbered.inverse id i hi (happ ▸ Finset.notMem_empty i.uid)
  constructor
  · intro hid
    have hmem : uid ∈ s.state.uidToId := Std.TreeMap.isSome_getElem?_iff_mem.mp (hid ▸ rfl)
    obtain ⟨id', n, hi⟩ := mem_uidsOf.mp ((h.numbered.uidToId uid).mp hmem)
    obtain rfl := Option.some.inj (hid.symm.trans (hinv id' _ hi))
    exact ⟨n, hi⟩
  · rintro ⟨n, hi⟩
    exact hinv id _ hi

theorem Inv.kept {s : Selected} (h : s.Inv) : s.Kept where
  uids uid := (h.numbered.uidToId uid).trans mem_uidsOf
  unique := h.numbered.unique
  inverse := h.numbered.inverse
  deletions := ⟨h.numbered.nodup, fun i hi hm => h.numbered.disjoint i hi ((h.numbered.uidToId i.uid).mp hm)⟩
  numbers n := by
    rw [h.numbered.totalMessages, ← exists_rank_iff]
    constructor
    · rintro ⟨i, hi, rfl⟩
      exact ⟨i.uid, (h.seqnum hi).1, (h.seqnum hi).2.symm⟩
    · rintro ⟨uid, huid, rfl⟩
      obtain ⟨i, hi, rfl⟩ := mem_base_iff_counted.1 huid
      exact ⟨i, hi, (h.seqnum hi).2⟩
  increasing i i' hi hi' hlt := by
    rw [(h.seqnum hi).2, (h.seqnum hi').2]
    exact rank_lt (h.seqnum hi').1 hlt
  uidMax_ge i hi := by
    rw [h.numbered.uidMax]
    exact Finset.le_sup (f := id) (h.seqnum hi).1
  uidMax_mem i hi := by
    obtain ⟨uid, huid, hmax⟩ := Finset.exists_mem_eq_sup s.state.base ⟨i.uid, (h.seqnum hi).1⟩ id
    rw [h.numbered.uidMax, hmax]
    exact mem_base_iff_counted.1 huid
  next next hnext := by
    obtain ⟨uids, hr⟩ := h.numbered.next next hnext
    exact hr.representation
  settled hdel happ := (h.settled hdel happ).representation

/-- **A session keeps its numbers**, whatever its operations and whatever the snapshots show. -/
theorem kept_of_run (mailboxId uidCounter idCounter : ℕ) (as : List Action) :
    Run.Always (Selected.step mailboxId) Kept (init uidCounter idCounter) as :=
  (Run.always_of_step (fun _ _ _ h hs => h.step hs) (inv_init uidCounter idCounter)).mono fun _ h => h.kept

/-- While a message is gone and the client has not been told, the numbers of the others leave a gap. -/
theorem gap_before_announcement : ¬ ∀ (mailboxId uidCounter idCounter : ℕ) (as : List Action),
    Run.Always (Selected.step mailboxId) (fun s => s.state.Representation) (init uidCounter idCounter) as := by
  intro h
  let before : MessagesCache := ⟨1, [⟨1, [⟨0, 1⟩]⟩, ⟨2, [⟨0, 2⟩]⟩], by decide⟩
  let after : MessagesCache := ⟨2, [⟨2, [⟨0, 2⟩]⟩], by decide⟩
  let last : Selected := ((init 2 2).fetch 0 before).synchronize 0 after 1
  have hlast : last.state.Representation := (h 0 2 2 [.fetch before, .synchronize after 1]).last rfl
  obtain ⟨id, uid, hi⟩ := (hlast.numbers 1).mpr (by decide)
  have hlist : last.state.idToImap.toList = [(2, ⟨2, 2⟩)] := by decide
  have hmem : (id, (⟨uid, 1⟩ : ImapId)) ∈ last.state.idToImap.toList := mem_toList.mpr hi
  rw [hlist] at hmem
  simp at hmem

end Selected

end MailServer.Imap
