import MailServer.Imap.Message
import MailServer.Lib.Rank
import Mathlib.Order.Lattice.Nat

/-!
# The numbers of a snapshot

`fetch_messages` numbers the messages of a mailbox in the order of their UIDs.

* `MessagesCache.uids`: the UIDs of a mailbox in a snapshot.
* `fetchMessages_ranked`: so does `fetch_messages` number them.
* `Numbering.Representation`, `Numbering.Ranked.representation`: the same without ranks.
-/

namespace MailServer.Imap

open MailServer.Utils MailServer.Utils.HashMap MailServer.Lib.Rank List

/-- The UIDs of the messages of a map. -/
def uidsOf (m : HashMap ℕ ImapId) : Finset ℕ := (m.toList.map fun e => e.2.uid).toFinset

theorem mem_uidsOf {m : HashMap ℕ ImapId} {uid : ℕ} : uid ∈ uidsOf m ↔ ∃ (id n : ℕ), m[id]? = some ⟨uid, n⟩ := by
  simp only [uidsOf, mem_toFinset, mem_map, Prod.exists, mem_toList]
  constructor
  · rintro ⟨id, i, h, rfl⟩
    exact ⟨id, i.seqnum, h⟩
  · rintro ⟨id, n, h⟩
    exact ⟨id, ⟨uid, n⟩, h, rfl⟩

namespace MessagesCache

/-- The messages of a mailbox in a snapshot, by UID. -/
def entries (mailboxId : ℕ) (cache : MessagesCache) : List (ℕ × ℕ) :=
  cache.items.filterMap (MessageCache.inMailbox mailboxId)

def uids (mailboxId : ℕ) (cache : MessagesCache) : Finset ℕ := ((cache.entries mailboxId).map Prod.fst).toFinset

variable {mailboxId : ℕ} {cache : MessagesCache}

theorem snd_of_inMailbox {item : MessageCache} {e : ℕ × ℕ} (h : item.inMailbox mailboxId = some e) :
    e.2 = item.documentId := by
  obtain ⟨m, -, rfl⟩ := Option.map_eq_some_iff.mp h
  rfl

theorem entries_inj {e e' : ℕ × ℕ} (h : e ∈ cache.entries mailboxId) (h' : e' ∈ cache.entries mailboxId)
    (hid : e.2 = e'.2) : e = e' := by
  obtain ⟨item, hitem, he⟩ := mem_filterMap.mp h
  obtain ⟨item', hitem', he'⟩ := mem_filterMap.mp h'
  have hdoc : item.documentId = item'.documentId := by
    rw [← snd_of_inMailbox he, ← snd_of_inMailbox he', hid]
  obtain rfl := inj_on_of_nodup_map cache.nodup hitem hitem' hdoc
  exact Option.some.inj (he.symm.trans he')

theorem mem_entries_of_mem {e : ℕ × ℕ} (h : e ∈ (cache.uidMap mailboxId).toList) : e ∈ cache.entries mailboxId :=
  mem_of_getElem?_ofList (mem_toList.mp h)

theorem sorted_uidMap : ((cache.uidMap mailboxId).toList.map Prod.fst).Pairwise (· < ·) :=
  pairwise_map.mpr ((cache.uidMap mailboxId).ordered_keys_toList.imp Nat.compare_eq_lt.mp)

theorem nodup_uidMap : ((cache.uidMap mailboxId).toList.map Prod.snd).Nodup :=
  (nodup_toList _).map_on fun _ h _ h' => entries_inj (mem_entries_of_mem h) (mem_entries_of_mem h')

theorem uids_uidMap : ((cache.uidMap mailboxId).toList.map Prod.fst).toFinset = cache.uids mailboxId := by
  ext uid
  rw [uids, mem_toFinset, mem_toFinset]
  constructor
  · intro h
    obtain ⟨e, he, rfl⟩ := mem_map.mp h
    exact mem_map_of_mem (mem_entries_of_mem he)
  · intro h
    have hmem : uid ∈ cache.uidMap mailboxId :=
      Std.TreeMap.mem_ofList.mpr (contains_iff_mem.mpr h)
    obtain ⟨id, hid⟩ := Option.isSome_iff_exists.mp (Std.TreeMap.isSome_getElem?_iff_mem.mpr hmem)
    exact mem_map.mpr ⟨(uid, id), mem_toList.mpr hid, rfl⟩

end MessagesCache

namespace Numbering

/-- The messages of `l` are numbered from 1 on, in this order. -/
structure Assigned (s : Numbering) (l : List (ℕ × ℕ)) : Prop where
  idToImap : ∀ id i,
    s.idToImap[id]? = some i ↔ (i.uid, id) ∈ l ∧ i.seqnum = rank (l.map Prod.fst).toFinset i.uid
  uidToId : ∀ uid id, s.uidToId[uid]? = some id ↔ (uid, id) ∈ l
  uidMax : s.uidMax = (l.map Prod.fst).toFinset.sup id
  size : s.idToImap.size = l.length

theorem assigned_nil (totalMessages modseq : ℕ) : Assigned ⟨0, ∅, ∅, totalMessages, modseq⟩ [] where
  idToImap := by simp
  uidToId := by simp
  uidMax := by simp
  size := by simp

variable {s : Numbering} {l : List (ℕ × ℕ)} {uids : Finset ℕ}

theorem Assigned.assign {uid messageId : ℕ} (h : s.Assigned l) (huid : ∀ e ∈ l, e.1 < uid)
    (hid : ∀ e ∈ l, e.2 ≠ messageId) (hnodup : (l.map Prod.fst).Nodup) :
    (s.assign ((uid, messageId), l.length)).Assigned (l ++ [(uid, messageId)]) := by
  have hset : ((l ++ [(uid, messageId)]).map Prod.fst).toFinset = insert uid (l.map Prod.fst).toFinset := by
    simp
  have hgreater : ∀ x ∈ (l.map Prod.fst).toFinset, x < uid := by
    intro x hx
    obtain ⟨e, he, rfl⟩ := mem_map.mp (mem_toFinset.mp hx)
    exact huid e he
  have hcard : (l.map Prod.fst).toFinset.card = l.length := by
    rw [toFinset_card_of_nodup hnodup, length_map]
  constructor
  · intro id i
    rw [hset]
    simp only [Numbering.assign, HashMap.getElem?_insert, mem_append, mem_singleton, Prod.mk.injEq]
    split_ifs with hk
    · subst hk
      have hnot : (i.uid, messageId) ∉ l := fun hm => hid _ hm rfl
      simp only [hnot, false_or, and_true, Option.some.injEq]
      constructor
      · rintro rfl
        exact ⟨rfl, by rw [rank_insert_self hgreater, hcard]⟩
      · rintro ⟨rfl, hn⟩
        rw [rank_insert_self hgreater, hcard] at hn
        rw [← hn]
    · have hne : ¬ (i.uid = uid ∧ id = messageId) := fun h => hk h.2.symm
      rw [h.idToImap, or_iff_left hne]
      refine and_congr_right fun hm => ?_
      rw [rank_insert_of_mem hgreater (mem_toFinset.mpr (mem_map_of_mem hm))]
  · intro u id
    simp only [Numbering.assign, HashMap.getElem?_insert, mem_append, mem_singleton, Prod.mk.injEq]
    split_ifs with hk
    · subst hk
      have hnot : (uid, id) ∉ l := fun hm => (huid _ hm).false
      simp [hnot, eq_comm]
    · rw [h.uidToId, or_iff_left fun h => hk h.1.symm]
  · rw [hset, Finset.sup_insert, ← h.uidMax]
    simp only [Numbering.assign]
    split_ifs with hlt
    · exact (max_eq_left hlt.le).symm
    · exact (max_eq_right (not_lt.mp hlt)).symm
  · have hnew : messageId ∉ s.idToImap := by
      intro hm
      obtain ⟨i, hi⟩ := Option.isSome_iff_exists.mp (Std.TreeMap.isSome_getElem?_iff_mem.mpr hm)
      exact hid _ ((h.idToImap messageId i).mp hi).1 rfl
    simp [Numbering.assign, Std.TreeMap.size_insert, hnew, h.size]

theorem assigned_foldl (totalMessages modseq : ℕ) (hsorted : (l.map Prod.fst).Pairwise (· < ·))
    (hnodup : (l.map Prod.snd).Nodup) :
    (l.zipIdx.foldl Numbering.assign ⟨0, ∅, ∅, totalMessages, modseq⟩).Assigned l := by
  induction l using List.reverseRecOn with
  | nil => exact assigned_nil totalMessages modseq
  | append_singleton l e ih =>
    simp only [map_append] at hsorted hnodup
    rw [pairwise_append] at hsorted
    rw [nodup_append] at hnodup
    have hl := ih hsorted.1 hnodup.1
    rw [zipIdx_append, foldl_append, Nat.zero_add]
    refine hl.assign ?_ ?_ (hsorted.1.imp fun h => h.ne)
    · exact fun e' he' => hsorted.2.2 _ (mem_map_of_mem he') _ mem_cons_self
    · exact fun e' he' => hnodup.2.2 _ (mem_map_of_mem he') _ mem_cons_self

/-- Every message has the rank of its UID for a number. -/
structure Ranked (s : Numbering) (uids : Finset ℕ) : Prop where
  inverse : ∀ uid id : ℕ, s.uidToId[uid]? = some id ↔ ∃ n, s.idToImap[id]? = some ⟨uid, n⟩
  seqnum : ∀ (id : ℕ) i, s.idToImap[id]? = some i → i.seqnum = rank uids i.uid
  totalMessages : s.totalMessages = uids.card
  uidMax : s.uidMax = uids.sup id
  uids : uidsOf s.idToImap = uids

theorem Assigned.ranked (h : s.Assigned l) (hnodup : (l.map Prod.fst).Nodup) :
    Ranked { s with totalMessages := s.idToImap.size } (l.map Prod.fst).toFinset where
  inverse uid id := by
    simp [h.uidToId, h.idToImap]
  uids := by
    ext uid
    simp only [mem_uidsOf, h.idToImap, mem_toFinset, mem_map, Prod.exists]
    constructor
    · rintro ⟨id, n, hm, -⟩
      exact ⟨uid, id, hm, rfl⟩
    · rintro ⟨uid, id, hm, rfl⟩
      exact ⟨id, _, hm, rfl⟩
  seqnum id i hi := ((h.idToImap id i).mp hi).2
  totalMessages := by rw [h.size, toFinset_card_of_nodup hnodup, length_map]
  uidMax := h.uidMax

/-- What a numbering represents: two inverse maps, numbers from 1 on that increase with the UIDs, and the
largest UID. -/
structure Representation (s : Numbering) : Prop where
  inverse : ∀ uid id : ℕ, s.uidToId[uid]? = some id ↔ ∃ n, s.idToImap[id]? = some ⟨uid, n⟩
  numbers : ∀ n : ℕ, (∃ id uid : ℕ, s.idToImap[id]? = some ⟨uid, n⟩) ↔ 1 ≤ n ∧ n ≤ s.totalMessages
  increasing : ∀ (id id' : ℕ) (i i' : ImapId), s.idToImap[id]? = some i → s.idToImap[id']? = some i' →
    i.uid < i'.uid → i.seqnum < i'.seqnum
  uidMax_ge : ∀ (id : ℕ) i, s.idToImap[id]? = some i → i.uid ≤ s.uidMax
  uidMax_mem : s.idToImap.isEmpty = false → ∃ id n : ℕ, s.idToImap[id]? = some ⟨s.uidMax, n⟩

theorem Ranked.mem (h : s.Ranked uids) {id : ℕ} {i : ImapId}
    (hi : s.idToImap[id]? = some i) : i.uid ∈ uids :=
  h.uids ▸ mem_uidsOf.2 ⟨id, i.seqnum, hi⟩

theorem Ranked.mem_uidToId (h : s.Ranked uids) {uid : ℕ} : uid ∈ s.uidToId ↔ uid ∈ uids := by
  rw [← h.uids, mem_uidsOf, Std.TreeMap.mem_iff_isSome_getElem?, Option.isSome_iff_exists]
  exact exists_congr (h.inverse uid)

theorem Ranked.representation (h : s.Ranked uids) : s.Representation where
  inverse := h.inverse
  numbers n := by
    rw [h.totalMessages, ← exists_rank_iff]
    constructor
    · rintro ⟨id, uid, hi⟩
      exact ⟨uid, h.mem hi, (h.seqnum id _ hi).symm⟩
    · rintro ⟨uid, huid, rfl⟩
      rw [← h.uids] at huid
      obtain ⟨id, n, hi⟩ := mem_uidsOf.1 huid
      exact ⟨id, uid, h.seqnum id _ hi ▸ hi⟩
  increasing id id' i i' hi hi' hlt := by
    rw [h.seqnum id i hi, h.seqnum id' i' hi']
    exact rank_lt (h.mem hi') hlt
  uidMax_ge _ i hi := by
    rw [h.uidMax]
    exact Finset.le_sup (f := id) (h.mem hi)
  uidMax_mem hne := by
    obtain ⟨d, hd⟩ := Std.TreeMap.isEmpty_eq_false_iff_exists_mem.mp hne
    obtain ⟨i, hi⟩ := Option.isSome_iff_exists.mp (Std.TreeMap.isSome_getElem?_iff_mem.mpr hd)
    obtain ⟨uid, huid, hmax⟩ := Finset.exists_mem_eq_sup uids ⟨i.uid, h.mem hi⟩ id
    rw [h.uidMax, hmax, ← mem_uidsOf, h.uids]
    exact huid

end Numbering

section

variable {mailboxId : ℕ} {cache : MessagesCache} {currentState : Option ℕ} {s : Numbering}

theorem fetchMessages_eq_none : fetchMessages mailboxId cache currentState = none ↔ currentState = some cache.changeId := by
  rw [fetchMessages]
  split_ifs with h <;> simp [h]

theorem assigned_uidMap (cache : MessagesCache) (mailboxId : ℕ) :
    ((cache.uidMap mailboxId).toList.zipIdx.foldl Numbering.assign ⟨0, ∅, ∅, 0, cache.changeId⟩).Assigned
      (cache.uidMap mailboxId).toList :=
  Numbering.assigned_foldl 0 cache.changeId MessagesCache.sorted_uidMap MessagesCache.nodup_uidMap

/-- **The numbers of a snapshot are the ranks of its UIDs.** -/
theorem fetchMessages_ranked (h : fetchMessages mailboxId cache currentState = some s) :
    s.Ranked (cache.uids mailboxId) := by
  rw [fetchMessages] at h
  split_ifs at h
  obtain rfl := Option.some.inj h
  rw [← MessagesCache.uids_uidMap]
  exact (assigned_uidMap cache mailboxId).ranked (MessagesCache.sorted_uidMap.imp fun h => h.ne)

theorem fetchMessages_entries (h : fetchMessages mailboxId cache currentState = some s) {id : ℕ} {i : ImapId}
    (hi : s.idToImap[id]? = some i) : (i.uid, id) ∈ cache.entries mailboxId := by
  rw [fetchMessages] at h
  split_ifs at h
  obtain rfl := Option.some.inj h
  exact MessagesCache.mem_entries_of_mem (((assigned_uidMap cache mailboxId).idToImap id i).mp hi).1

end

end MailServer.Imap
