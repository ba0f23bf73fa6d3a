import MailServer.Common.Archives
import MailServer.Email.Destroy
import MailServer.Email.MessageData

/-!
# Vanished messages (`email/src/message/delete.rs`, `email/src/mailbox/destroy.rs`)

A commit that takes messages out of mailboxes logs the mailbox and the UID of each of them, so that sessions can report
it.

* `Lost`: the pairs of mailbox and UID that a message had and no longer has.  `Exact`: these are logged, and no others.
* `emailsDelete`, `destroyVanished`: what is logged when messages are deleted and when a mailbox is destroyed.
* `exact_emailsDelete`, `exact_mailboxDestroy_iff`: when that is exact.
-/

namespace MailServer.Email

open MailServer.Common MailServer.Types MailServer.Utils MailServer.Lib List

def MessageData.pairs (data : MessageData) : List (ℕ × ℕ) := data.mailboxes.map fun m => (m.mailboxId, m.uid)

/-- The pair of a mailbox and a UID that a message had and no longer has. -/
def Lost (before after : HashMap ℕ MessageData) (pair : ℕ × ℕ) : Prop :=
  ∃ (id : ℕ) (data : MessageData), before[id]? = some data ∧ pair ∈ data.pairs ∧
    ∀ data' : MessageData, after[id]? = some data' → pair ∉ data'.pairs

/-- What is logged is what is lost. -/
def Exact (before after : HashMap ℕ MessageData) (vanished : List (ℕ × ℕ)) : Prop :=
  ∀ pair, pair ∈ vanished ↔ Lost before after pair

/-- Messages are in different mailboxes, under UIDs that the counters have given, each to one of them. -/
structure Numbered (messages : HashMap ℕ MessageData) (counters : UidCounters) : Prop where
  mailboxes : ∀ (id : ℕ) (data : MessageData), messages[id]? = some data → (data.mailboxes.map UidMailbox.mailboxId).Nodup
  assigned : ∀ (id : ℕ) (data : MessageData), messages[id]? = some data →
    ∀ m ∈ data.mailboxes, m.uid ≠ 0 ∧ m.uid ≤ counters m.mailboxId
  unique : ∀ (id id' : ℕ) (data data' : MessageData) (pair : ℕ × ℕ), messages[id]? = some data →
    messages[id']? = some data' → pair ∈ data.pairs → pair ∈ data'.pairs → id = id'

section

variable {before after : HashMap ℕ MessageData} {pair : ℕ × ℕ} {data : MessageData}

theorem mem_pairs : pair ∈ data.pairs ↔ (⟨pair.1, pair.2⟩ : UidMailbox) ∈ data.mailboxes := by
  unfold MessageData.pairs
  rw [mem_map]
  constructor
  · rintro ⟨m, hm, rfl⟩
    exact hm
  · exact fun h => ⟨_, h, rfl⟩

theorem lost_commit {writes : List (ℕ × Option MessageData)} (hnodup : (writes.map Prod.fst).Nodup) :
    Lost before (commitMessages before writes) pair ↔
      ∃ w ∈ writes, ∃ data : MessageData, before[w.1]? = some data ∧ pair ∈ data.pairs ∧
        ∀ data', w.2 = some data' → pair ∉ data'.pairs := by
  constructor
  · rintro ⟨id, data, hdata, hpair, hlost⟩
    by_cases hid : id ∈ writes.map Prod.fst
    · obtain ⟨w, hw, rfl⟩ := mem_map.mp hid
      rw [commitMessages_of_mem hnodup hw] at hlost
      exact ⟨w, hw, data, hdata, hpair, hlost⟩
    · rw [commitMessages_of_notMem hid] at hlost
      exact absurd hpair (hlost data hdata)
  · rintro ⟨w, hw, data, hdata, hpair, hlost⟩
    refine ⟨w.1, data, hdata, hpair, ?_⟩
    rw [commitMessages_of_mem hnodup hw]
    exact hlost

theorem mem_pairs_removeMailbox {mailboxId : ℕ} :
    pair ∈ (data.removeMailbox mailboxId).pairs ↔ pair ∈ data.pairs ∧ pair.1 ≠ mailboxId := by
  rw [mem_pairs, mem_pairs]
  show _ ∈ data.mailboxes.filter _ ↔ _
  simp

theorem lost_congr {after' : HashMap ℕ MessageData} (h : ∀ id : ℕ, after[id]? = after'[id]?) :
    Lost before after pair ↔ Lost before after' pair := by
  unfold Lost
  simp only [h]

theorem lost_removeMailbox_iff (hnodup : (data.mailboxes.map UidMailbox.mailboxId).Nodup) (mailboxId : ℕ) :
    (pair ∈ data.pairs ∧ pair ∉ (data.removeMailbox mailboxId).pairs) ↔
      pair.1 = mailboxId ∧ data.messageUid mailboxId = some pair.2 := by
  rw [mem_pairs_removeMailbox, not_and, not_not]
  unfold MessageData.messageUid
  constructor
  · rintro ⟨hpair, hid⟩
    have heq := hid hpair
    refine ⟨heq, ?_⟩
    cases hfind : data.mailboxes.find? fun m => m.mailboxId == mailboxId with
    | none =>
      have hnot := find?_eq_none.mp hfind _ (mem_pairs.1 hpair)
      exact absurd (beq_iff_eq.mpr heq) hnot
    | some m =>
      have hm : m.mailboxId = mailboxId := beq_iff_eq.mp (find?_some hfind : _)
      have hsame : m = ⟨pair.1, pair.2⟩ :=
        inj_on_of_nodup_map hnodup (mem_of_find?_eq_some hfind) (mem_pairs.1 hpair) (hm.trans heq.symm)
      rw [hsame]
      rfl
  · rintro ⟨heq, huid⟩
    obtain ⟨m, hfind, hm⟩ := Option.map_eq_some_iff.mp huid
    have hid : m.mailboxId = mailboxId := beq_iff_eq.mp (find?_some hfind : _)
    refine ⟨mem_pairs.2 ?_, fun _ => heq⟩
    rw [heq, ← hid, ← hm]
    exact mem_of_find?_eq_some hfind

end

/-! ## Deleting messages -/

/-- The archives of some documents. -/
def archivesOf (messages : HashMap ℕ MessageData) (documentIds : List ℕ) : List (ℕ × MessageData) :=
  messages.toList.filter fun e => documentIds.contains e.1

theorem mem_archivesOf {messages : HashMap ℕ MessageData} {documentIds : List ℕ} {id : ℕ} {data : MessageData} :
    (id, data) ∈ archivesOf messages documentIds ↔ messages[id]? = some data ∧ id ∈ documentIds := by
  unfold archivesOf
  rw [mem_filter, HashMap.mem_toList, contains_iff_mem]

theorem nodup_archivesOf (messages : HashMap ℕ MessageData) (documentIds : List ℕ) :
    ((archivesOf messages documentIds).map Prod.fst).Nodup :=
  (HashMap.nodup_map_fst_toList messages).sublist (filter_sublist.map _)

/-- `emails_delete`: what is written and what is logged. -/
def emailsDelete (messages : HashMap ℕ MessageData) (documentIds : List ℕ) :
    List (ℕ × Option MessageData) × List (ℕ × ℕ) :=
  let archives := archivesOf messages documentIds
  (archives.map fun e => (e.1, none), archives.flatMap fun e => e.2.pairs)

theorem exact_emailsDelete (messages : HashMap ℕ MessageData) (documentIds : List ℕ) :
    Exact messages (commitMessages messages (emailsDelete messages documentIds).1) (emailsDelete messages documentIds).2 := by
  intro pair
  have hnodup : ((emailsDelete messages documentIds).1.map Prod.fst).Nodup := by
    show (((archivesOf messages documentIds).map _).map Prod.fst).Nodup
    rw [map_map]
    exact nodup_archivesOf messages documentIds
  rw [lost_commit hnodup]
  show pair ∈ (archivesOf messages documentIds).flatMap _ ↔ _
  rw [mem_flatMap]
  constructor
  · rintro ⟨⟨id, data⟩, he, hpair⟩
    exact ⟨(id, none), mem_map.mpr ⟨_, he, rfl⟩, data, (mem_archivesOf.1 he).1, hpair, nofun⟩
  · rintro ⟨w, hw, data, hdata, hpair, -⟩
    obtain ⟨⟨id, data'⟩, he, rfl⟩ := mem_map.mp hw
    obtain rfl := Option.some.inj ((mem_archivesOf.1 he).1.symm.trans hdata)
    exact ⟨_, he, hpair⟩

/-! ## Destroying a mailbox -/

/-- What is logged for the messages of a mailbox that is destroyed: the pairs of those that go with it. -/
def destroyVanished (documentId : ℕ) (archives : List (ℕ × MessageData)) : List (ℕ × ℕ) :=
  archives.flatMap fun e =>
    if ¬ e.2.mailboxes.any fun m => m.mailboxId = documentId then []
    else if e.2.mailboxes.length = 1 then e.2.pairs
    else []

/-- What operations write of messages. -/
def opWrites (ops : List Op) : List (ℕ × Option MessageData) :=
  ops.filterMap fun
    | .message id _ changes => some (id, changes)
    | _ => none

variable {h : ArchiveHash} {documentId : ℕ} {accessToken : AccessToken} {accountId : UInt32}
  {removeEmails : Bool}

/-- The messages of an account. -/
def messageArchives (h : ArchiveHash) : Archives (Account.apply h) h.message where
  docs := Account.messages
  write
    | .message id current changes => some (id, current, changes)
    | _ => none
  of_write a op a' id current changes hop hwrite := by
    cases op with
    | message id' current' changes' =>
      obtain ⟨rfl, rfl, rfl⟩ : id' = id ∧ current' = current ∧ changes' = changes := by simpa using hwrite
      obtain ⟨m, hm, rfl⟩ := Option.map_eq_some_iff.mp hop
      exact hm
    | _ => cases hwrite
  of_none a op a' hop hwrite := by
    cases op with
    | assertMailbox id =>
      rw [Account.apply] at hop
      split_ifs at hop
      obtain rfl := Option.some.inj hop
      rfl
    | mailbox id current changes =>
      obtain ⟨m, -, rfl⟩ := Option.map_eq_some_iff.mp hop
      rfl
    | message => cases hwrite

theorem writes_messageArchives (ops : List Op) : (messageArchives h).writes ops = opWrites ops :=
  filterMap_congr fun op _ => by cases op <;> rfl

theorem messages_of_applyAll {ops : List Op} {a a' : Account}
    (hops : applyAll (Account.apply h) ops a = some a') (id : ℕ) :
    a'.messages[id]? = (commitMessages a.messages (opWrites ops))[id]? := by
  rw [commitMessages_eq, ← writes_messageArchives (h := h)]
  exact (messageArchives h).getElem?_of_applyAll hops id

theorem any_eq_hasMailboxId (data : MessageData) (documentId : ℕ) :
    (data.mailboxes.any fun m => decide (m.mailboxId = documentId)) = data.hasMailboxId documentId := by
  congr 1

theorem opWrites_destroyMessages (documentId : ℕ) (archives : List (ℕ × MessageData)) (mailbox : Op)
    (hmailbox : opWrites [mailbox] = []) :
    opWrites ((destroyMessages documentId archives ++ [[mailbox]]).flatten) =
      (archives.filter fun e => e.2.hasMailboxId documentId).map fun e =>
        (e.1, if e.2.mailboxes.length = 1 then none else some (e.2.removeMailbox documentId)) := by
  induction archives with
  | nil => exact hmailbox
  | cons e archives ih =>
    obtain ⟨id, prev⟩ := e
    have hcons : destroyMessages documentId ((id, prev) :: archives) =
        (if ¬ prev.hasMailboxId documentId then [] else
          [[.message id (some prev) (if prev.mailboxes.length = 1 then none else some (prev.removeMailbox documentId))]]) ++
            destroyMessages documentId archives := by
      unfold destroyMessages
      rw [filterMap_cons]
      dsimp only
      rw [any_eq_hasMailboxId]
      split_ifs <;> rfl
    rw [hcons]
    by_cases hin : prev.hasMailboxId documentId = true
    · rw [if_neg (not_not.mpr hin), filter_cons_of_pos (p := fun e : ℕ × MessageData => e.2.hasMailboxId documentId) hin,
        map_cons, ← ih]
      rfl
    · rw [if_pos hin, filter_cons_of_neg (p := fun e : ℕ × MessageData => e.2.hasMailboxId documentId) hin, ← ih]
      rfl

/-- The messages of a mailbox are in no other. -/
def OnlyIn (messages : HashMap ℕ MessageData) (documentId : ℕ) : Prop :=
  ∀ (id : ℕ) (data : MessageData), messages[id]? = some data → data.hasMailboxId documentId = true →
    data.mailboxes.length = 1

theorem mem_destroyVanished {archives : List (ℕ × MessageData)} {pair : ℕ × ℕ} :
    pair ∈ destroyVanished documentId archives ↔
      ∃ e ∈ archives, e.2.hasMailboxId documentId = true ∧ e.2.mailboxes.length = 1 ∧ pair ∈ e.2.pairs := by
  unfold destroyVanished
  rw [mem_flatMap]
  refine exists_congr fun e => and_congr_right fun _ => ?_
  split_ifs with hin hlength
  · exact ⟨fun h => ⟨hin, hlength, h⟩, fun h => h.2.2⟩
  · exact ⟨fun h => absurd h not_mem_nil, fun h => absurd h.2.1 hlength⟩
  · exact ⟨fun h => absurd h not_mem_nil, fun h => absurd h.1 hin⟩

theorem messages_of_mailboxDestroy {cuts : List ℕ} {a a' : Account}
    (hok : mailboxDestroy h accessToken accountId cuts a documentId removeEmails = (a', .ok ()))
    (id : ℕ) :
    a'.messages[id]? = (commitMessages a.messages
      (((a.archives (inMailbox a.messages documentId)).filter fun e => e.2.hasMailboxId documentId).map fun e =>
        (e.1, if e.2.mailboxes.length = 1 then none else some (e.2.removeMailbox documentId))))[id]? := by
  unfold mailboxDestroy at hok
  cases hchecks : destroyChecks documentId removeEmails a with
  | error e => rw [hchecks] at hok; cases hok
  | ok messageIds =>
    obtain ⟨-, rfl⟩ := destroyChecks_spec hchecks
    rw [hchecks] at hok
    dsimp only at hok
    cases hbatch : destroyBatch accessToken accountId documentId removeEmails
        (a.archives (inMailbox a.messages documentId)) a.mailboxes[documentId]? with
    | error e => rw [hbatch] at hok; cases hok
    | ok batch =>
      rw [hbatch] at hok
      obtain ⟨hstate, hresult⟩ := Prod.mk.inj hok
      obtain ⟨m, rfl⟩ := destroyBatch_spec hbatch
      obtain ⟨k, hk, hall⟩ := commitGroups_spec (Account.apply h) cuts
        (destroyMessages documentId (a.archives (inMailbox a.messages documentId)) ++
          [[.mailbox documentId (some m) none]]) a
      split_ifs at hresult with hwritten
      rw [hall hwritten, hstate] at hk
      rw [messages_of_applyAll hk, opWrites_destroyMessages _ _ _ rfl]

/-- **Destroying a mailbox** logs what is lost if and only if its messages are in no other. -/
theorem exact_mailboxDestroy_iff {cuts : List ℕ} {a a' : Account} {counters : UidCounters}
    (hn : Numbered a.messages counters)
    (hok : mailboxDestroy h accessToken accountId cuts a documentId removeEmails = (a', .ok ())) :
    Exact a.messages a'.messages (destroyVanished documentId (a.archives (inMailbox a.messages documentId))) ↔
      OnlyIn a.messages documentId := by
  obtain ⟨archives, harchives⟩ : ∃ archives, archives = a.archives (inMailbox a.messages documentId) := ⟨_, rfl⟩
  have hmem (id : ℕ) (data : MessageData) : (id, data) ∈ archives ∧ data.hasMailboxId documentId = true ↔
      a.messages[id]? = some data ∧ data.hasMailboxId documentId = true := by
    rw [harchives]
    show (id, data) ∈ archivesOf _ _ ∧ _ ↔ _
    rw [mem_archivesOf, mem_inMailbox, and_assoc]
    refine and_congr_right fun hdata => ⟨And.right, fun hin => ⟨⟨data, hdata, ?_⟩, hin⟩⟩
    obtain ⟨m, hm, hid⟩ := any_eq_true.mp hin
    exact ⟨m, hm, beq_iff_eq.mp hid⟩
  have hvanished (pair : ℕ × ℕ) : pair ∈ destroyVanished documentId archives ↔
      ∃ (id : ℕ) (data : MessageData), (a.messages[id]? = some data ∧ data.hasMailboxId documentId = true) ∧
        data.mailboxes.length = 1 ∧ pair ∈ data.pairs := by
    rw [mem_destroyVanished]
    constructor
    · rintro ⟨⟨id, data⟩, he, hin, hrest⟩
      exact ⟨id, data, (hmem id data).mp ⟨he, hin⟩, hrest⟩
    · rintro ⟨id, data, hdata, hrest⟩
      exact ⟨(id, data), ((hmem id data).mpr hdata).1, hdata.2, hrest⟩
  have hlost (pair : ℕ × ℕ) : Lost a.messages a'.messages pair ↔
      ∃ (id : ℕ) (data : MessageData), (a.messages[id]? = some data ∧ data.hasMailboxId documentId = true) ∧
        pair ∈ data.pairs ∧ (data.mailboxes.length = 1 ∨ pair.1 = documentId) := by
    rw [lost_congr (messages_of_mailboxDestroy hok), ← harchives, lost_commit]
    · constructor
      · rintro ⟨w, hw, data, hdata, hpair, hgone⟩
        obtain ⟨⟨id, data'⟩, he, rfl⟩ := mem_map.mp hw
        have hin := (hmem id data').mp (mem_filter.mp he)
        obtain rfl := Option.some.inj (hin.1.symm.trans hdata)
        refine ⟨id, data', hin, hpair, ?_⟩
        by_contra hnot
        rw [not_or] at hnot
        exact hgone _ (if_neg hnot.1) (mem_pairs_removeMailbox.2 ⟨hpair, hnot.2⟩)
      · rintro ⟨id, data, hin, hpair, hgone⟩
        refine ⟨_, mem_map.mpr ⟨(id, data), mem_filter.mpr ((hmem id data).mpr hin), rfl⟩, data, hin.1, hpair, ?_⟩
        intro data' hdata' hpair'
        split_ifs at hdata' with hlength
        obtain rfl := Option.some.inj hdata'
        exact (mem_pairs_removeMailbox.1 hpair').2 (hgone.resolve_left hlength)
    · rw [map_map, harchives]
      exact (nodup_archivesOf a.messages _).sublist (filter_sublist.map _)
  rw [← harchives]
  constructor
  · intro hexact id data hdata hin
    by_contra hlength
    obtain ⟨m, hm, hid⟩ := any_eq_true.mp hin
    have hpair : (m.mailboxId, m.uid) ∈ data.pairs := mem_map_of_mem hm
    have hlogged := (hexact _).mpr ((hlost _).mpr ⟨id, data, ⟨hdata, hin⟩, hpair, .inr (beq_iff_eq.mp hid)⟩)
    obtain ⟨id', data', ⟨hdata', -⟩, hlength', hpair'⟩ := (hvanished _).mp hlogged
    obtain rfl := hn.unique id id' data data' _ hdata hdata' hpair hpair'
    obtain rfl := Option.some.inj (hdata.symm.trans hdata')
    exact hlength hlength'
  · intro honly pair
    rw [hvanished, hlost]
    constructor
    · rintro ⟨id, data, hin, hlength, hpair⟩
      exact ⟨id, data, hin, hpair, .inl hlength⟩
    · rintro ⟨id, data, hin, hpair, -⟩
      exact ⟨id, data, hin, honly id data hin.1 hin.2, hpair⟩

end MailServer.Email
