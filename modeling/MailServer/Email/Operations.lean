import MailServer.Imap.Expunge
import MailServer.Jmap.Email.Update

/-!
# Operations that take messages out of mailboxes

* `Operation`: the requests and commands that do.  `Operation.commit`: the messages after one, and what it logs.
* `vanished_iff`: when that is what is lost.
-/

namespace MailServer.Email

open Option

open MailServer.Common MailServer.Types MailServer.Utils MailServer.Jmap.Email MailServer.Imap.CopyMove
  MailServer.JmapProto

inductive Operation where
  | emailSet (ctx : UpdateContext) (updates : List (Id × Create String))
  | emailsDelete (documentIds : List ℕ)
  | mailboxDestroy (accessToken : AccessToken) (accountId : UInt32) (documentId : ℕ) (removeEmails : Bool)
  | expunge (mailboxId : ℕ) (deletedIds : List ℕ)
  /-- COPY and MOVE within the account, of the messages of a map -/
  | copyMove (c : Command) (nodup : (c.ids.map Prod.fst).Nodup)
  /-- COPY and MOVE to another account -/
  | copyMoveTo (c : Command) (source : Other.Source) (target : TargetAccount)

namespace Operation

variable (h : ArchiveHash) (cuts : List ℕ) (counters : UidCounters) (a : Account)

/-- The messages of the account and what is logged, when the operation is committed. -/
def commit : Operation → Option (HashMap ℕ MessageData × List (ℕ × ℕ))
  | .emailSet ctx updates =>
    let r := emailSetUpdates h cuts ctx counters a updates
    r.2.vanished.map fun vanished => (r.1.messages, vanished)
  | .emailsDelete documentIds =>
    let r := Email.emailsDelete a.messages documentIds
    some (commitMessages a.messages r.1, r.2)
  | .mailboxDestroy accessToken accountId documentId removeEmails =>
    let r := Email.mailboxDestroy h accessToken accountId cuts a documentId removeEmails
    match r.2 with
    | .error _ => none
    | .ok () => some (r.1.messages, destroyVanished documentId (a.archives (inMailbox a.messages documentId)))
  | .expunge mailboxId deletedIds =>
    let changes := emailUntagOrDelete a.messages mailboxId deletedIds
    some (commitMessages a.messages changes.writes, changes.vanished)
  | .copyMove c _ =>
    let changes := (Same.copyMove c a.messages counters).1
    some (commitMessages a.messages changes.writes, changes.vanished)
  | .copyMoveTo c source target =>
    let changes := (Other.copyMove c source a.messages target).1
    some (commitMessages a.messages changes.writes, changes.vanished)

/-- Whether the hashes that are asserted tell what is written from what was read. -/
def HashesTell : Operation → Prop
  | .emailSet ctx updates => Jmap.Email.HashesTell h (processUpdates ctx a.messages counters updates).writes
  | _ => True

/-- The updates of a request are in order, in terms of what they collect and take if several are for one message; the
messages of a mailbox that is destroyed are in no other; a session that moves messages has their UIDs. -/
def InOrder : Operation → Prop
  | .emailSet ctx updates =>
    let visits := updates.map (visit ctx a.messages)
    ((visits.map Visit.documentId).Nodup → Orderly visits) ∧ (¬ (visits.map Visit.documentId).Nodup → Reported visits)
  | .mailboxDestroy _ _ documentId _ => OnlyIn a.messages documentId
  | .copyMove c _ => c.src = c.dest ∨ c.isMove = false ∨ Same.UidsKnown c a.messages
  | _ => True

end Operation

variable {h : ArchiveHash} {cuts : List ℕ} {counters : UidCounters} {a : Account}

/-- **What an operation logs** is what is lost if and only if the operation is in order. -/
theorem vanished_iff (hn : Numbered a.messages counters) (op : Operation) (htell : op.HashesTell h counters a)
    {messages : HashMap ℕ MessageData} {vanished : List (ℕ × ℕ)}
    (hcommit : op.commit h cuts counters a = some (messages, vanished)) :
    Exact a.messages messages vanished ↔ op.InOrder a := by
  cases op with
  | emailSet ctx updates =>
    obtain ⟨vanished, hvanished, heq⟩ := map_eq_some_iff.mp hcommit
    obtain ⟨rfl, rfl⟩ := Prod.mk.inj heq
    rw [exact_emailSetUpdates_iff hn htell hvanished]
    by_cases hdocs : ((updates.map (visit ctx a.messages)).map Visit.documentId).Nodup
    · rw [reported_iff_orderly hdocs]
      exact ⟨fun h => ⟨fun _ => h, absurd hdocs⟩, fun h => h.1 hdocs⟩
    · exact ⟨fun h => ⟨fun hd => absurd hd hdocs, fun _ => h⟩, fun h => h.2 hdocs⟩
  | emailsDelete documentIds =>
    obtain ⟨rfl, rfl⟩ := Prod.mk.inj (some.inj hcommit)
    exact iff_of_true (exact_emailsDelete a.messages documentIds) trivial
  | mailboxDestroy accessToken accountId documentId removeEmails =>
    unfold Operation.commit at hcommit
    dsimp only at hcommit
    rcases hr : mailboxDestroy h accessToken accountId cuts a documentId removeEmails with ⟨a', e | ⟨⟩⟩
    · rw [hr] at hcommit
      cases hcommit
    · rw [hr] at hcommit
      obtain ⟨rfl, rfl⟩ := Prod.mk.inj (some.inj hcommit)
      exact exact_mailboxDestroy_iff hn hr
  | expunge mailboxId deletedIds =>
    obtain ⟨rfl, rfl⟩ := Prod.mk.inj (some.inj hcommit)
    exact iff_of_true (exact_emailUntagOrDelete hn mailboxId deletedIds) trivial
  | copyMove c hids =>
    obtain ⟨rfl, rfl⟩ := Prod.mk.inj (some.inj hcommit)
    exact Same.exact_copyMove_iff hn hids
  | copyMoveTo c source target =>
    obtain ⟨rfl, rfl⟩ := Prod.mk.inj (some.inj hcommit)
    exact iff_of_true (exact_emailUntagOrDelete hn c.src _) trivial

/-! ### One message -/

def mailboxHash : ArchiveHash :=
  ⟨fun _ => 0, fun data => UInt32.ofNat (data.mailboxes.map UidMailbox.mailboxId).sum⟩

/-- An account with one message. -/
def filed (mailboxes : List UidMailbox) : Account where
  mailboxes := (∅ : HashMap ℕ Mailbox).insert 5 (.new "Work")
  messages := (∅ : HashMap ℕ MessageData).insert 1 ⟨mailboxes, [], 1, 100⟩
  nextMailboxId := 8

def owner : AccessToken := ⟨1, [], [], false⟩

/-- The message is put into the mailbox 7, and so taken out of the mailbox 5. -/
def refile : Operation :=
  .emailSet ⟨⟨[], [⟨5, []⟩, ⟨7, []⟩], .initial⟩, owner, 1, [], .ok⟩
    [(⟨1⟩, [(.property .mailboxIds, .object [.property (.idValue ⟨7⟩)])])]

theorem filed_messages {mailboxes : List UidMailbox} {id : ℕ} {data : MessageData}
    (h : (filed mailboxes).messages[id]? = some data) : id = 1 ∧ data = ⟨mailboxes, [], 1, 100⟩ := by
  unfold filed at h
  rw [HashMap.getElem?_insert] at h
  split_ifs at h with hid
  · exact ⟨hid.symm, (some.inj h).symm⟩
  · cases h

theorem numbered_filed {mailboxes : List UidMailbox} (hnodup : (mailboxes.map UidMailbox.mailboxId).Nodup)
    (hassigned : ∀ m ∈ mailboxes, m.uid ≠ 0 ∧ m.uid ≤ 10) : Numbered (filed mailboxes).messages fun _ => 10 := by
  refine ⟨fun id data h => ?_, fun id data h => ?_, fun id id' data data' pair h h' _ _ => ?_⟩
  · obtain ⟨-, rfl⟩ := filed_messages h
    exact hnodup
  · obtain ⟨-, rfl⟩ := filed_messages h
    exact hassigned
  · exact (filed_messages h).1.trans (filed_messages h').1.symm

theorem exact_refile : ∃ messages, refile.commit mailboxHash [] (fun _ => 10) (filed [⟨5, 10⟩]) = some (messages, [(5, 10)]) ∧
    Exact (filed [⟨5, 10⟩]).messages messages [(5, 10)] := by
  have hcommit : (refile.commit mailboxHash [] (fun _ => 10) (filed [⟨5, 10⟩])).map Prod.snd = some [(5, 10)] := by decide
  obtain ⟨⟨messages, vanished⟩, hcommit, rfl⟩ := map_eq_some_iff.mp hcommit
  refine ⟨messages, hcommit, (vanished_iff (numbered_filed (by decide) (by decide)) refile ?_ hcommit).mpr
    ⟨fun _ => ?_, fun h => absurd (List.nodup_singleton _) h⟩⟩
  · intro w hw
    obtain rfl := List.mem_singleton.mp (hw : w ∈ [(1, ⟨[⟨5, 10⟩], [], 1, 100⟩, ⟨[⟨7, 11⟩], [], 1, 100⟩)])
    decide
  · refine orderly_singleton fun pair => ⟨fun hpair => ?_, ?_⟩
    · obtain rfl := List.mem_singleton.mp (hpair : pair ∈ [(5, 10)])
      exact ⟨⟨[⟨5, 10⟩], [], 1, 100⟩, ⟨[⟨7, 0⟩], [], 1, 100⟩, rfl, by decide, by decide⟩
    · rintro ⟨data, newData, hout, hpair, -⟩
      obtain ⟨rfl, rfl⟩ := Outcome.changed.inj hout
      exact hpair

/-- A message that is in another mailbox too loses its UID in a mailbox that is destroyed, and nothing is logged. -/
theorem not_exact_shared : ¬ ∀ (h : ArchiveHash) (cuts : List ℕ) (counters : UidCounters) (a : Account) (op : Operation)
    (messages : HashMap ℕ MessageData) (vanished : List (ℕ × ℕ)), Numbered a.messages counters → op.HashesTell h counters a →
    op.commit h cuts counters a = some (messages, vanished) → Exact a.messages messages vanished := by
  intro h
  have hcommit : ((Operation.mailboxDestroy owner 1 5 true).commit mailboxHash [] (fun _ => 10)
      (filed [⟨5, 10⟩, ⟨7, 3⟩])).map (fun r => (r.2, (r.1[1]?).map MessageData.pairs)) = some ([], some [(7, 3)]) := by
    decide
  obtain ⟨⟨messages, vanished⟩, hcommit, hresult⟩ := map_eq_some_iff.mp hcommit
  obtain ⟨rfl, hpairs⟩ := Prod.mk.inj hresult
  obtain ⟨data', hdata', hpairs⟩ := map_eq_some_iff.mp hpairs
  have hexact := h _ _ _ _ (.mailboxDestroy owner 1 5 true) messages [] (numbered_filed (by decide) (by decide)) trivial hcommit
  refine List.not_mem_nil ((hexact (5, 10)).mpr ⟨1, ⟨[⟨5, 10⟩, ⟨7, 3⟩], [], 1, 100⟩, rfl, by decide, ?_⟩)
  intro data hdata hpair
  obtain rfl := some.inj (hdata'.symm.trans hdata)
  rw [hpairs] at hpair
  revert hpair
  decide

end MailServer.Email
