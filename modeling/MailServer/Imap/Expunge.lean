import MailServer.Email.Vanished
import MailServer.Imap.CopyMove

/-!
# Messages that leave a mailbox (`imap/src/op/expunge.rs`, `imap/src/op/copy_move.rs`)

EXPUNGE and MOVE log the mailbox and the UID of each message that they take out of it.  EXPUNGE reads the UID of the
message; MOVE within an account has it from the session.

* `exact_emailUntagOrDelete`: EXPUNGE, and MOVE to another account, log what is lost.
* `exact_copyMove_iff`: COPY and MOVE within an account do if the session has the UIDs of the messages.
-/

namespace MailServer.Imap.CopyMove

open MailServer.Utils MailServer.Email List

variable {messages : HashMap ℕ MessageData}

/-! ## Removing from a mailbox -/

theorem lost_untagOrDelete_iff {data : MessageData} (hnodup : (data.mailboxes.map UidMailbox.mailboxId).Nodup)
    {mailboxId uid : ℕ} {change : Option MessageData} (h : untagOrDelete mailboxId data = some (uid, change))
    (pair : ℕ × ℕ) :
    (pair ∈ data.pairs ∧ ∀ data', change = some data' → pair ∉ data'.pairs) ↔ pair = (mailboxId, uid) := by
  obtain ⟨uid', huid, heq⟩ := Option.map_eq_some_iff.mp h
  obtain ⟨rfl, rfl⟩ := Prod.mk.inj heq
  have hremove : (pair ∈ data.pairs ∧ pair ∉ (data.removeMailbox mailboxId).pairs) ↔ _ :=
    lost_removeMailbox_iff hnodup mailboxId
  rw [huid] at hremove
  have hpair : (pair.1 = mailboxId ∧ some uid' = some pair.2) ↔ pair = (mailboxId, uid') := by
    rw [Prod.ext_iff, Option.some_inj, eq_comm (a := uid')]
  rw [← hpair, ← hremove]
  refine and_congr_right fun hmem => ?_
  split_ifs with hlength
  · refine iff_of_true nofun ?_
    obtain ⟨m, hm⟩ := length_eq_one_iff.mp hlength
    have hone : pair = (m.mailboxId, m.uid) := by
      unfold MessageData.pairs at hmem
      rw [hm] at hmem
      exact mem_singleton.mp hmem
    rw [mem_pairs_removeMailbox, not_and, not_not]
    intro
    obtain ⟨m', hfind, -⟩ := Option.map_eq_some_iff.mp huid
    have hm' := mem_of_find?_eq_some hfind
    rw [hm] at hm'
    obtain rfl := mem_singleton.mp hm'
    rw [hone]
    exact beq_iff_eq.mp (find?_some hfind : _)
  · constructor
    · exact fun hgone => hgone ((data.removeMailbox mailboxId).removeKeyword "$deleted") rfl
    · intro hgone data' hdata'
      obtain rfl := Option.some.inj hdata'
      exact hgone

/-- **EXPUNGE** logs what is lost. -/
theorem exact_emailUntagOrDelete {counters : UidCounters} (hn : Numbered messages counters) (mailboxId : ℕ)
    (deletedIds : List ℕ) :
    Exact messages (commitMessages messages (emailUntagOrDelete messages mailboxId deletedIds).writes)
      (emailUntagOrDelete messages mailboxId deletedIds).vanished := by
  obtain ⟨removed, hremoved⟩ : ∃ removed, removed =
      (messages.toList.filter fun e => deletedIds.contains e.1).filterMap fun e =>
        (untagOrDelete mailboxId e.2).map fun r => (e.1, r) := ⟨_, rfl⟩
  have hmem (r : ℕ × ℕ × Option MessageData) (hr : r ∈ removed) :
      ∃ data : MessageData, messages[r.1]? = some data ∧ untagOrDelete mailboxId data = some r.2 := by
    rw [hremoved] at hr
    obtain ⟨⟨id, data⟩, he, heq⟩ := mem_filterMap.mp hr
    obtain ⟨r', hr', rfl⟩ := Option.map_eq_some_iff.mp heq
    exact ⟨data, (mem_archivesOf.mp he).1, hr'⟩
  have hnodup : (removed.map Prod.fst).Nodup := by
    have hsub : (removed.map Prod.fst).Sublist
        ((archivesOf messages deletedIds).map Prod.fst) := by
      rw [hremoved, map_filterMap]
      show (List.filterMap _ (archivesOf messages deletedIds)).Sublist _
      induction archivesOf messages deletedIds with
      | nil => exact List.Sublist.refl _
      | cons e l ih =>
        rw [filterMap_cons]
        cases huntag : untagOrDelete mailboxId e.2 with
        | none => exact ih.cons _
        | some r => exact ih.cons_cons _
    exact (nodup_archivesOf messages deletedIds).sublist hsub
  intro pair
  show pair ∈ (List.filterMap _ _).map _ ↔ Lost messages (commitMessages messages ((List.filterMap _ _).map _)) pair
  rw [← hremoved, lost_commit (by rw [map_map]; exact hnodup)]
  constructor
  · intro hpair
    obtain ⟨r, hr, rfl⟩ := mem_map.mp hpair
    obtain ⟨data, hdata, huntag⟩ := hmem r hr
    have hlost := (lost_untagOrDelete_iff (hn.mailboxes _ _ hdata) huntag (mailboxId, r.2.1)).mpr rfl
    exact ⟨_, mem_map_of_mem hr, data, hdata, hlost⟩
  · rintro ⟨w, hw, data, hdata, hlost⟩
    obtain ⟨r, hr, rfl⟩ := mem_map.mp hw
    obtain ⟨data', hdata', huntag⟩ := hmem r hr
    obtain rfl := Option.some.inj (hdata'.symm.trans hdata)
    rw [(lost_untagOrDelete_iff (hn.mailboxes _ _ hdata) huntag pair).mp hlost]
    exact mem_map_of_mem hr

/-! ## Within an account -/

namespace Same

variable {c : Command} {counters : UidCounters}

/-- What has been written and logged after some messages of the loop. -/
structure Moves (c : Command) (messages : HashMap ℕ MessageData) (l : List (ℕ × ℕ)) (changes : Changes) : Prop where
  sublist : (changes.writes.map Prod.fst).Sublist (l.map Prod.fst)
  write : ∀ w ∈ changes.writes, ∃ data new : MessageData, messages[w.1]? = some data ∧ w.2 = some new ∧
    ∀ pair ∈ data.pairs, pair ∈ new.pairs ↔ ¬ (c.isMove = true ∧ pair.1 = c.src)
  moved : c.isMove = true → ∀ e ∈ l, inSource c messages e = true → e.1 ∈ changes.writes.map Prod.fst
  vanished : changes.vanished =
    if c.isMove then (l.filter (inSource c messages)).map fun e => (c.src, e.2) else []

variable {l : List (ℕ × ℕ)} {changes : Changes} {data : MessageData}

theorem Moves.snoc (h : Moves c messages l changes) {e : ℕ × ℕ} (new : MessageData)
    (hdata : messages[e.1]? = some data) (hsrc : data.hasMailboxId c.src = true)
    (hnew : ∀ pair ∈ data.pairs, pair ∈ new.pairs ↔ ¬ (c.isMove = true ∧ pair.1 = c.src)) :
    Moves c messages (l ++ [e]) ⟨changes.writes ++ [(e.1, some new)],
      if c.isMove then changes.vanished ++ [(c.src, e.2)] else changes.vanished⟩ := by
  have hin : inSource c messages e = true := inSource_iff.mpr ⟨data, hdata, hsrc⟩
  refine ⟨?_, ?_, ?_, ?_⟩
  · rw [map_append, map_append]
    exact h.sublist.append (List.Sublist.refl _)
  · intro w hw
    rcases mem_append.mp hw with hw | hw
    · exact h.write w hw
    · obtain rfl := mem_singleton.mp hw
      exact ⟨data, new, hdata, rfl, hnew⟩
  · intro hmove e' he' hin'
    rw [map_append, mem_append]
    rcases mem_append.mp he' with he' | he'
    · exact .inl (h.moved hmove e' he' hin')
    · obtain rfl := mem_singleton.mp he'
      exact .inr (mem_singleton.mpr rfl)
  · rw [h.vanished]
    split_ifs
    · rw [filter_append, map_append, filter_cons_of_pos hin]
      rfl
    · rfl

theorem Moves.skip (h : Moves c messages l changes) {e : ℕ × ℕ}
    (hskip : inSource c messages e = false ∨ c.isMove = false) : Moves c messages (l ++ [e]) changes := by
  refine ⟨?_, h.write, ?_, ?_⟩
  · rw [map_append]
    exact h.sublist.trans (sublist_append_left _ _)
  · intro hmove e' he' hin'
    rcases mem_append.mp he' with he' | he'
    · exact h.moved hmove e' he' hin'
    · obtain rfl := mem_singleton.mp he'
      rcases hskip with hskip | hskip
      · rw [hskip] at hin'
        cases hin'
      · rw [hskip] at hmove
        cases hmove
  · rw [h.vanished]
    rcases hskip with hskip | hskip
    · rw [filter_append, filter_cons_of_neg (by rw [hskip]; exact Bool.false_ne_true), filter_nil,
        append_nil]
    · rw [hskip]
      rfl

theorem mem_pairs_newData {pair : ℕ × ℕ} (hpair : pair ∈ data.pairs) :
    pair ∈ (newData c data).pairs ↔ ¬ (c.isMove = true ∧ pair.1 = c.src) := by
  have hadd : pair ∈ (data.addMailbox (.newUnassigned c.dest)).pairs := by
    unfold MessageData.addMailbox
    split_ifs
    · exact hpair
    · rw [mem_pairs] at hpair ⊢
      exact mem_append_left _ hpair
  unfold newData
  split_ifs with hmove
  · rw [mem_pairs_removeMailbox]
    exact ⟨fun h ⟨_, heq⟩ => h.2 heq, fun h => ⟨hadd, fun heq => h ⟨hmove, heq⟩⟩⟩
  · exact ⟨fun _ h => hmove h.1, fun _ => hadd⟩

/-- **The loop** writes the messages of the source mailbox, and logs those that are moved. -/
theorem moves (hn : Numbered messages counters) (l : List (ℕ × ℕ)) :
    Moves c messages l (l.foldl (visit c messages) ⟨counters, ⟨[], []⟩, []⟩).changes ∧
      ∀ mailboxId, counters mailboxId ≤ (l.foldl (visit c messages) ⟨counters, ⟨[], []⟩, []⟩).counters mailboxId := by
  induction l using List.reverseRecOn with
  | nil => exact ⟨⟨List.Sublist.refl _, nofun, nofun, by split_ifs <;> rfl⟩, fun _ => le_rfl⟩
  | append_singleton l e ih =>
    rw [foldl_concat]
    obtain ⟨p, hp⟩ : ∃ p, p = l.foldl (visit c messages) ⟨counters, ⟨[], []⟩, []⟩ := ⟨_, rfl⟩
    rw [← hp] at ih ⊢
    obtain ⟨hmoves, hle⟩ := ih
    by_cases hin : inSource c messages e = true
    · obtain ⟨data, hdata, hsrc⟩ := inSource_iff.mp hin
      unfold visit
      rw [hdata]
      dsimp only
      rw [if_neg (not_not.mpr hsrc)]
      cases hfind : data.mailboxes.find? fun m => m.mailboxId == c.dest with
      | some mailbox =>
        refine ⟨?_, hle⟩
        by_cases hmove : c.isMove = true
        · have hsnoc := hmoves.snoc (data.removeMailbox c.src) hdata hsrc fun pair hpair => by
            rw [mem_pairs_removeMailbox, and_iff_right hpair, and_iff_right hmove]
          rw [if_pos hmove] at hsnoc
          rw [if_pos hmove]
          exact hsnoc
        · rw [if_neg hmove]
          exact hmoves.skip (.inr (by simpa using hmove))
      | none =>
        refine ⟨hmoves.snoc _ hdata hsrc fun pair hpair => ?_, fun mailboxId => ?_⟩
        · have hassigned := hn.assigned e.1 data hdata _ (mem_pairs.mp hpair)
          rw [← mem_pairs_newData hpair, mem_pairs, mem_pairs]
          exact MessageData.mem_assign_iff hassigned.1 (hassigned.2.trans (hle _))
        · exact (hle mailboxId).trans (counters_le_assignEmailIds _ _ mailboxId)
    · rw [visit_of_not_inSource (by simpa using hin)]
      exact ⟨hmoves.skip (.inl (by simpa using hin)), hle⟩

/-- The UIDs that the session has for the messages to move are those that they have. -/
def UidsKnown (c : Command) (messages : HashMap ℕ MessageData) : Prop :=
  ∀ uid, (∃ e ∈ c.ids, inSource c messages e = true ∧ e.2 = uid) ↔
    ∃ e ∈ c.ids, ∃ data : MessageData, messages[e.1]? = some data ∧ data.messageUid c.src = some uid

theorem lost_moves_iff (hn : Numbered messages counters) (hids : (c.ids.map Prod.fst).Nodup)
    (hmoves : Moves c messages c.ids changes) (pair : ℕ × ℕ) :
    Lost messages (commitMessages messages changes.writes) pair ↔ c.isMove = true ∧ pair.1 = c.src ∧
      ∃ e ∈ c.ids, ∃ data : MessageData, messages[e.1]? = some data ∧ data.messageUid c.src = some pair.2 := by
  have hnodup := hids.sublist hmoves.sublist
  rw [lost_commit hnodup]
  constructor
  · rintro ⟨w, hw, data, hdata, hpair, hgone⟩
    obtain ⟨data', new, hdata', hnew, hiff⟩ := hmoves.write w hw
    obtain rfl := Option.some.inj (hdata'.symm.trans hdata)
    obtain ⟨hmove, hsrc⟩ := not_not.mp ((hiff pair hpair).not.mp (hgone new hnew))
    obtain ⟨e, he, hfst⟩ := mem_map.mp (hmoves.sublist.subset (mem_map_of_mem hw))
    have huid := (lost_removeMailbox_iff (hn.mailboxes _ _ hdata) c.src).mp
      ⟨hpair, fun hmem => (mem_pairs_removeMailbox.mp hmem).2 hsrc⟩
    exact ⟨hmove, hsrc, e, he, data', by rw [hfst]; exact hdata, huid.2⟩
  · rintro ⟨hmove, hsrc, e, he, data, hdata, huid⟩
    obtain ⟨hpair, -⟩ := (lost_removeMailbox_iff (hn.mailboxes _ _ hdata) c.src).mpr ⟨hsrc, huid⟩
    have hin : inSource c messages e = true := by
      unfold inSource
      rw [hdata, Option.any_some, ← messageUid_isSome, huid]
      rfl
    obtain ⟨w, hw, hfst⟩ := mem_map.mp (hmoves.moved hmove e he hin)
    obtain ⟨data', new, hdata', hnew, hiff⟩ := hmoves.write w hw
    rw [hfst] at hdata'
    obtain rfl := Option.some.inj (hdata'.symm.trans hdata)
    refine ⟨w, hw, data', by rw [hfst]; exact hdata, hpair, fun new' hnew' => ?_⟩
    obtain rfl := Option.some.inj (hnew.symm.trans hnew')
    exact fun hmem => (hiff pair hpair).mp hmem ⟨hmove, hsrc⟩

/-- **COPY and MOVE within an account** log what is lost if and only if nothing is moved or the session has the UIDs. -/
theorem exact_copyMove_iff (hn : Numbered messages counters) (hids : (c.ids.map Prod.fst).Nodup) :
    Exact messages (commitMessages messages (copyMove c messages counters).1.writes) (copyMove c messages counters).1.vanished ↔
      c.src = c.dest ∨ c.isMove = false ∨ UidsKnown c messages := by
  unfold copyMove
  by_cases heq : c.src = c.dest
  · rw [if_pos heq]
    refine iff_of_true (fun pair => ?_) (.inl heq)
    refine iff_of_false not_mem_nil ?_
    rintro ⟨id, data, hdata, hpair, hgone⟩
    exact hgone data hdata hpair
  · rw [if_neg heq, or_iff_right heq]
    obtain ⟨hmoves, -⟩ := moves (c := c) hn c.ids
    have hvanished := hmoves.vanished
    unfold progress
    unfold Exact
    simp only [lost_moves_iff hn hids hmoves]
    rw [hvanished]
    cases hmove : c.isMove with
    | false => simp
    | true =>
      rw [if_pos rfl, or_iff_right Bool.noConfusion]
      have hlogged (pair : ℕ × ℕ) : (pair ∈ (c.ids.filter (inSource c messages)).map fun e => (c.src, e.2)) ↔
          pair.1 = c.src ∧ ∃ e ∈ c.ids, inSource c messages e = true ∧ e.2 = pair.2 := by
        rw [mem_map]
        constructor
        · rintro ⟨e, he, rfl⟩
          exact ⟨rfl, e, (mem_filter.mp he).1, (mem_filter.mp he).2, rfl⟩
        · rintro ⟨hsrc, e, he, hin, huid⟩
          exact ⟨e, mem_filter.mpr ⟨he, hin⟩, Prod.ext hsrc.symm huid⟩
      simp only [hlogged, true_and, and_congr_right_iff]
      exact ⟨fun h uid => h (c.src, uid) rfl, fun h pair _ => h pair.2⟩

end Same

end MailServer.Imap.CopyMove
