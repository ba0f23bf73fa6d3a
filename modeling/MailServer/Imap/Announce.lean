import MailServer.Imap.Selected

/-!
# Which numbers a client goes by

A sequence number is good where it was announced for the message that it leads to.  `sequence_to_ids` goes by the
pending state when there is one, `map_result_id` by the current one, and `append_messages` gives out numbers that
nobody announced.

* `Selected.Orderly`: the operations after which it stays so.
* `faithful_iff`: it holds throughout a session exactly when every operation is orderly.
-/

namespace MailServer.Imap

open MailServer.ImapProto MailServer.Utils MailServer.Utils.HashMap MailServer.Lib MailServer.Lib.Rank MailboxState

/-- Whether `n` was announced for the message with this UID. -/
def Denotes (told : Finset ℕ) (n uid : ℕ) : Prop := uid ∈ told ∧ rank told uid = n

namespace MailboxState

/-- Every number given by the client leads to the message it was announced for. -/
def Given (m : MailboxState) (told : Finset ℕ) : Prop :=
  ∀ (savedSearch : Option (List ImapId)) (sequence : Sequence) (isUid : Bool) (ids : HashMap ℕ ImapId),
    sequence.isSavedSearch = false → m.sequenceToIds savedSearch sequence isUid = .ok ids →
    ∀ (id : ℕ) i, ids[id]? = some i →
      Denotes told i.seqnum i.uid ∧ (isUid = false → sequence.contains i.seqnum told.card = true)

/-- Every number returned to the client was announced for its message. -/
def Returned (m : MailboxState) (told : Finset ℕ) : Prop :=
  ∀ (id n : ℕ) i, m.mapResultId id false = some (n, i) → Denotes told n i.uid

variable {m : MailboxState} {told uids : Finset ℕ}

theorem sequenceToIds_eq {savedSearch : Option (List ImapId)} {sequence : Sequence} {isUid : Bool}
    (h : sequence.isSavedSearch = false) :
    m.sequenceToIds savedSearch sequence isUid = .ok (m.view.idToImap.retain fun _ i =>
      if isUid then sequence.contains i.uid m.view.uidMax
      else sequence.contains i.seqnum m.view.totalMessages) := by
  unfold sequenceToIds
  rw [h]
  rfl

theorem given_of_eq (h : m.view.Ranked told) : m.Given told := by
  intro savedSearch sequence isUid ids hsaved hids id i hi
  rw [sequenceToIds_eq hsaved] at hids
  obtain rfl := Except.ok.inj hids
  obtain ⟨hview, htest⟩ := getElem?_retain.mp hi
  refine ⟨⟨h.mem hview, (h.seqnum id i hview).symm⟩, ?_⟩
  rintro rfl
  rwa [h.totalMessages] at htest

theorem given_of_empty (h : m.view.Ranked ∅) : m.Given told := by
  intro savedSearch sequence isUid ids hsaved hids id i hi
  rw [sequenceToIds_eq hsaved] at hids
  obtain rfl := Except.ok.inj hids
  exact absurd (h.mem (getElem?_retain.mp hi).1) (Finset.notMem_empty i.uid)

theorem eq_of_given (h : m.view.Ranked uids) (hne : uids.Nonempty) (hgiven : m.Given told) : uids = told := by
  have hmem : ∀ uid ∈ uids, ∃ id : ℕ, m.view.idToImap[id]? = some ⟨uid, rank uids uid⟩ := by
    intro uid huid
    rw [← h.uids] at huid
    obtain ⟨id, n, hi⟩ := mem_uidsOf.mp huid
    exact ⟨id, h.seqnum id _ hi ▸ hi⟩
  have hcard : uids.card = told.card := by
    obtain ⟨uid, huid, hrank⟩ := exists_rank_iff.mpr ⟨hne.card_pos, le_refl uids.card⟩
    obtain ⟨id, hi⟩ := hmem uid huid
    have hstar := (hgiven none (.range none none) false _ rfl (sequenceToIds_eq rfl) id _
      (getElem?_retain.mpr ⟨hi, by simp [Sequence.contains, h.totalMessages, hrank]⟩)).2 rfl
    simpa [Sequence.contains, hrank] using hstar
  refine Finset.eq_of_subset_of_card_le (fun uid huid => ?_) hcard.ge
  obtain ⟨id, hi⟩ := hmem uid huid
  exact (hgiven none (.number (rank uids uid)) false _ rfl (sequenceToIds_eq rfl) id _
    (getElem?_retain.mpr ⟨hi, by simp [Sequence.contains]⟩)).1.1

end MailboxState

namespace Selected

/-- Every number the client may give or be given was announced for its message. -/
structure Faithful (s : Selected) : Prop where
  given : s.state.Given s.told
  returned : s.state.Returned s.told

/-- The operations after which the numbers are still those announced.  A snapshot that is not announced has the UIDs
last announced, or none; one that `write_mailbox_changes` announces is only passed over when it has neither lost
one nor brought a greater one, and then it has no other; and `append_messages` does nothing. -/
def Orderly (mailboxId : ℕ) (s : Selected) : Action → Prop
  | .synchronize cache seen =>
    cache.changeId = seen ∨ cache.uids mailboxId = ∅ ∨ cache.uids mailboxId = s.told
  | .writeMailboxChanges cache seen _ =>
    cache.changeId = seen ∨ cache.uids mailboxId = s.told ∨
      ¬ (s.state.deletions = [] ∧ s.told ⊆ cache.uids mailboxId ∧ (cache.uids mailboxId).sup id ≤ s.told.sup id)
  | .append _ modseq => modseq.getD 0 ≤ s.state.modseq
  | _ => True

/-- The numbers are those announced, in the current state and in a pending one, which may also be empty. -/
structure Current (s : Selected) : Prop where
  inv : s.Inv
  base : s.state.base = s.told
  appended : s.appended = ∅
  next : ∀ next, s.state.nextState = some next →
    ∃ uids, next.nextState.Ranked uids ∧ (uids = s.told ∨ uids = ∅) ∧ uidsOf s.state.idToImap ⊆ uids

theorem current_init (uidCounter idCounter : ℕ) : (init uidCounter idCounter).Current where
  inv := inv_init uidCounter idCounter
  base := rfl
  appended := rfl
  next next hnext := by simp [init] at hnext

theorem Current.faithful {s : Selected} (h : s.Current) : s.Faithful where
  given := by
    cases hn : s.state.nextState with
    | none =>
      have hview : s.state.view = s.state.toNumbering := by rw [view, hn]
      apply given_of_eq
      rw [hview, ← h.base]
      exact h.inv.settled (by rw [deletions, hn]; rfl) h.appended
    | some next =>
      have hview : s.state.view = next.nextState := by rw [view, hn]
      obtain ⟨uids, hr, rfl | rfl, -⟩ := h.next next hn
      · exact given_of_eq (hview ▸ hr)
      · exact given_of_empty (hview ▸ hr)
  returned id n i hi := by
    have hfound : s.state.idToImap[id]? = some i ∧ n = i.seqnum := by
      rw [mapResultId] at hi
      cases hid : s.state.idToImap[id]? with
      | none => simp [hid] at hi
      | some j =>
        simp only [hid] at hi
        obtain ⟨rfl, rfl⟩ := hi
        exact ⟨rfl, rfl⟩
    obtain ⟨hid, rfl⟩ := hfound
    obtain ⟨hmem, hseq⟩ := h.inv.seqnum (.inl ⟨id, hid⟩)
    rw [h.base] at hmem hseq
    exact ⟨hmem, hseq.symm⟩

section

variable {mailboxId : ℕ} {cache : MessagesCache} {s : Selected} {seen : ℕ}

theorem synchronize_of_none (hf : fetchMessages mailboxId cache (some seen) = none) :
    s.synchronize mailboxId cache seen = s := by
  rw [synchronize, synchronizeMessages, hf]

variable {newState : Numbering} {next : NextMailboxState} {uids : Finset ℕ}

theorem synchronize_of_some (hf : fetchMessages mailboxId cache (some seen) = some newState) :
    s.synchronize mailboxId cache seen = { s with state := s.state.setNext newState } := by
  rw [synchronize, synchronizeMessages, hf]

/-- Nothing is announced. -/
def Silent (m : MailboxState) (next : NextMailboxState) : Prop :=
  next.deletions = [] ∧ next.nextState.uidMax ≤ m.uidMax

theorem announce_of_none (hn : s.state.nextState = none) (isQresync : Bool) : s.announce isQresync = s := by
  simp [announce, MailboxState.announce, hn]

theorem announce_of_silent (hn : s.state.nextState = some next) (hs : Silent s.state next)
    (isQresync : Bool) :
    s.announce isQresync = { s with state := { next.nextState with nextState := none }, appended := ∅ } := by
  have hle : next.nextState.uidMax - s.state.uidMax = 0 := Nat.sub_eq_zero_of_le hs.2
  simp [announce, MailboxState.announce, hn, hs.1, hle]

theorem announce_of_not_silent (hn : s.state.nextState = some next) (hs : ¬ Silent s.state next)
    (isQresync : Bool) :
    s.announce isQresync = { s with
      state := { next.nextState with nextState := none }
      told := uidsOf next.nextState.idToImap
      appended := ∅ } := by
  rw [Silent, not_and_or, not_le] at hs
  rcases hs with hs | hs
  · simp [announce, MailboxState.announce, hn, hs]
  · have hlt : 0 < next.nextState.uidMax - s.state.uidMax := Nat.sub_pos_of_lt hs
    by_cases hdel : next.deletions = []
    · simp [announce, MailboxState.announce, hn, hlt]
    · simp [announce, MailboxState.announce, hn, hdel]

theorem gone_eq_nil_iff {m : MailboxState} (hr : newState.Ranked uids) :
    m.gone newState = [] ↔ uidsOf m.idToImap ⊆ uids := by
  rw [← List.map_eq_nil_iff (f := ImapId.uid), List.eq_nil_iff_forall_not_mem]
  refine forall_congr' fun uid => ?_
  rw [mem_map_gone, hr.mem_uidToId, not_and_not_right]

theorem silent_setNext (h : s.Current) (hr : newState.Ranked uids) :
    Silent (s.state.setNext newState) ⟨newState, s.state.deletions ++ s.state.gone newState⟩ ↔
      s.state.deletions = [] ∧ s.told ⊆ uids ∧ uids.sup id ≤ s.told.sup id := by
  have hmax : (s.state.setNext newState).uidMax = s.told.sup id := h.base ▸ h.inv.numbered.uidMax
  rw [Silent, List.append_eq_nil_iff, gone_eq_nil_iff hr, hr.uidMax, hmax, and_assoc]
  refine and_congr_right fun hdel => and_congr_left fun _ => ?_
  rw [← h.base, base, hdel]
  simp

theorem current_announced {next : Numbering} {told : Finset ℕ} {uidCounter idCounter : ℕ}
    (hr : next.Ranked uids) (htold : uids = told)
    (hinv : Inv ⟨{ next with nextState := none }, told, ∅, uidCounter, idCounter⟩) :
    Current ⟨{ next with nextState := none }, told, ∅, uidCounter, idCounter⟩ where
  inv := hinv
  base := by rw [base_fetched, hr.uids, htold]
  appended := rfl
  next next hnext := by simp at hnext

namespace Current

theorem fetch (h : s.Current) (hc : s.Handed mailboxId cache) : (s.fetch mailboxId cache).Current := by
  have hinv := h.inv.fetch hc
  rw [Selected.fetch] at hinv ⊢
  cases hf : fetchMessages mailboxId cache none with
  | none => exact h
  | some state =>
    rw [hf] at hinv
    exact current_announced (fetchMessages_ranked hf) (fetchMessages_ranked hf).uids.symm hinv

theorem synchronize (h : s.Current) (hc : s.Handed mailboxId cache)
    (ho : s.Orderly mailboxId (.synchronize cache seen)) : (s.synchronize mailboxId cache seen).Current := by
  have hinv := h.inv.synchronize hc seen
  cases hf : fetchMessages mailboxId cache (some seen) with
  | none => rwa [synchronize_of_none hf]
  | some newState =>
    have hr := fetchMessages_ranked hf
    rw [synchronize_of_some hf] at hinv ⊢
    refine ⟨hinv, base_setNext.trans h.base, h.appended, ?_⟩
    intro next hnext
    obtain rfl := Option.some.inj hnext
    refine ⟨_, hr, ?_, fun uid huid => hr.mem_uidToId.mp (mem_uidsOf_setNext.mp huid).2⟩
    rcases ho with hseen | hempty | hsame
    · rw [fetchMessages_eq_none.mpr (congrArg some hseen.symm)] at hf
      cases hf
    · exact .inr hempty
    · exact .inl hsame

theorem announce {t : Selected} {next : NextMailboxState} {uids : Finset ℕ} (h : t.Inv)
    (hn : t.state.nextState = some next) (hr : next.nextState.Ranked uids)
    (hsilent : Silent t.state next → uids = t.told) (isQresync : Bool) : (t.announce isQresync).Current := by
  have hinv := h.announce isQresync
  by_cases hs : Silent t.state next
  · rw [announce_of_silent hn hs] at hinv ⊢
    exact current_announced hr (hsilent hs) hinv
  · rw [announce_of_not_silent hn hs] at hinv ⊢
    exact current_announced hr hr.uids.symm hinv

theorem writeMailboxChanges (h : s.Current) (hc : s.Handed mailboxId cache) {isQresync : Bool}
    (ho : s.Orderly mailboxId (.writeMailboxChanges cache seen isQresync)) :
    ((s.synchronize mailboxId cache seen).announce isQresync).Current := by
  have hinv := h.inv.synchronize hc seen
  cases hf : fetchMessages mailboxId cache (some seen) with
  | none =>
    rw [synchronize_of_none hf]
    cases hn : s.state.nextState with
    | none => rwa [announce_of_none hn]
    | some next =>
      obtain ⟨uids, hr, huids, hsub⟩ := h.next next hn
      refine announce h.inv hn hr (fun hs => ?_) isQresync
      rcases huids with rfl | rfl
      · rfl
      · -- every message is gone, and still none is to be announced as such: there was none
        have hdel : s.state.deletions = [] := by rw [MailboxState.deletions, hn]; exact hs.1
        rw [← h.base, MailboxState.base, hdel, Finset.subset_empty.mp hsub]
        rfl
  | some newState =>
    have hr := fetchMessages_ranked hf
    rw [synchronize_of_some hf] at hinv ⊢
    refine announce hinv rfl hr (fun hs => ?_) isQresync
    rcases ho with hseen | hsame | hnot
    · rw [fetchMessages_eq_none.mpr (congrArg some hseen.symm)] at hf
      cases hf
    · exact hsame
    · exact absurd ((silent_setNext h hr).mp hs) hnot

variable {ids : List ImapUidToId} {modseq : Option ℕ}

theorem append (h : s.Current) (hc : s.Created ids)
    (ho : s.Orderly mailboxId (.append ids modseq)) : (s.append ids modseq).Current := by
  have hinv := h.inv.append hc modseq
  have hm : ¬ modseq.getD 0 > s.state.modseq := not_lt.mpr ho
  rw [Selected.append, appendMessages, if_neg hm, if_neg hm] at hinv ⊢
  exact ⟨hinv, h.base, h.appended, h.next⟩

theorem step {a : Action} {s' : Selected} (h : s.Current) (ho : s.Orderly mailboxId a)
    (hs : s.step mailboxId a = some s') : s'.Current := by
  have hinv := h.inv.step hs
  obtain ⟨uids, ids, rfl, rfl⟩ | ⟨cache, rfl, hc, rfl⟩ | ⟨cache, seen, rfl, hc, rfl⟩ |
    ⟨cache, seen, isQresync, rfl, hc, rfl⟩ | ⟨ids, modseq, rfl, hc, rfl⟩ := step_cases hs
  · exact ⟨hinv, h.base, h.appended, h.next⟩
  · exact h.fetch hc
  · exact h.synchronize hc ho
  · exact h.writeMailboxChanges hc ho
  · exact h.append hc ho

/-! ### Any other operation -/

theorem not_given {m : MailboxState} {told uids : Finset ℕ} (hr : m.view.Ranked uids) (hne : uids ≠ ∅)
    (hother : uids ≠ told) : ¬ m.Given told :=
  fun hg => hother (eq_of_given hr (Finset.nonempty_iff_ne_empty.mpr hne) hg)

theorem not_faithful_synchronize (ho : ¬ s.Orderly mailboxId (.synchronize cache seen)) :
    ¬ (s.synchronize mailboxId cache seen).Faithful := by
  intro hf
  obtain ⟨hseen, hne, hother⟩ : cache.changeId ≠ seen ∧ cache.uids mailboxId ≠ ∅ ∧ cache.uids mailboxId ≠ s.told := by
    simpa [Orderly] using ho
  cases hfetch : fetchMessages mailboxId cache (some seen) with
  | none => exact hseen (Option.some.inj (fetchMessages_eq_none.mp hfetch)).symm
  | some newState =>
    rw [synchronize_of_some hfetch] at hf
    exact not_given (fetchMessages_ranked hfetch) hne hother hf.given

theorem not_faithful_writeMailboxChanges (h : s.Current) {isQresync : Bool}
    (ho : ¬ s.Orderly mailboxId (.writeMailboxChanges cache seen isQresync)) :
    ¬ ((s.synchronize mailboxId cache seen).announce isQresync).Faithful := by
  intro hf
  simp only [Orderly, not_or, not_not] at ho
  obtain ⟨hseen, hother, hquiet⟩ := ho
  cases hfetch : fetchMessages mailboxId cache (some seen) with
  | none => exact hseen (Option.some.inj (fetchMessages_eq_none.mp hfetch)).symm
  | some newState =>
    have hr := fetchMessages_ranked hfetch
    have hne : cache.uids mailboxId ≠ ∅ := by
      intro hempty
      rw [hempty] at hquiet hother
      exact hother (Finset.subset_empty.mp hquiet.2.1).symm
    have hpending : ({ s with state := s.state.setNext newState } : Selected).state.nextState =
        some ⟨newState, s.state.deletions ++ s.state.gone newState⟩ := rfl
    rw [synchronize_of_some hfetch, announce_of_silent hpending ((silent_setNext h hr).mpr hquiet)] at hf
    refine not_given ?_ hne hother hf.given
    exact hr

theorem not_faithful_append (h : s.Current) (hc : s.Created ids)
    (ho : ¬ s.Orderly mailboxId (.append ids modseq)) : ¬ (s.append ids modseq).Faithful := by
  intro hf
  have hm : modseq.getD 0 > s.state.modseq := not_le.mp ho
  obtain ⟨hids, hu, -⟩ := hc
  obtain ⟨front, e, rfl⟩ := (List.eq_nil_or_concat' ids).resolve_left hids
  have hstate : (s.append (front ++ [e]) modseq).state = (front.foldl appendNext s.state).appendNext e := by
    rw [Selected.append, appendMessages_eq hids hm, List.foldl_append]
    rfl
  have hreturned := hf.returned e.id _ _ (by
    rw [hstate, mapResultId, idToImap_appendNext, if_pos rfl])
  have hle : e.uid ≤ s.uidCounter := h.inv.bounded.uid e.uid (h.base ▸ hreturned.1)
  have hlt : s.uidCounter < e.uid := List.rel_of_pairwise_cons hu (by simp)
  exact absurd hle (not_le.mpr hlt)

theorem not_faithful {a : Action} {s' : Selected} (h : s.Current) (ho : ¬ s.Orderly mailboxId a)
    (hs : s.step mailboxId a = some s') : ¬ s'.Faithful := by
  obtain ⟨uids, ids, rfl, rfl⟩ | ⟨cache, rfl, hc, rfl⟩ | ⟨cache, seen, rfl, hc, rfl⟩ |
    ⟨cache, seen, isQresync, rfl, hc, rfl⟩ | ⟨ids, modseq, rfl, hc, rfl⟩ := step_cases hs
  · exact absurd trivial ho
  · exact absurd trivial ho
  · exact not_faithful_synchronize ho
  · exact h.not_faithful_writeMailboxChanges ho
  · exact h.not_faithful_append hc ho

end Current

end

/-- **The numbers of a session are those announced** exactly when every operation is orderly. -/
theorem faithful_iff (mailboxId uidCounter idCounter : ℕ) (as : List Action) :
    Run.Always (Selected.step mailboxId) Faithful (init uidCounter idCounter) as ↔
      Run.Each (Selected.step mailboxId) (Orderly mailboxId) (init uidCounter idCounter) as :=
  Run.always_iff_each (fun _ h => h.faithful) (fun _ _ _ h ho hs => h.step ho hs)
    (fun _ _ _ h ho hs => h.not_faithful ho hs) (current_init uidCounter idCounter)

/-- Another session expunges the first of two messages.  The next command finds that out, and from then on the
client's number 1 leads to the message announced as 2. -/
theorem number_moves_unannounced : ¬ ∀ (mailboxId uidCounter idCounter : ℕ) (as : List Action),
    Run.Always (Selected.step mailboxId) Faithful (init uidCounter idCounter) as := by
  intro h
  let before : MessagesCache := ⟨1, [⟨1, [⟨0, 1⟩]⟩, ⟨2, [⟨0, 2⟩]⟩], by decide⟩
  let after : MessagesCache := ⟨2, [⟨2, [⟨0, 2⟩]⟩], by decide⟩
  let last : Selected := ((init 2 2).fetch 0 before).synchronize 0 after 1
  have hlast : last.Faithful := (h 0 2 2 [.fetch before, .synchronize after 1]).last rfl
  have hone : Denotes last.told 1 2 := (hlast.given none (.number 1) false _ rfl rfl 2 ⟨2, 1⟩ (by decide)).1
  exact absurd hone.2 (by decide)

end Selected

end MailServer.Imap
