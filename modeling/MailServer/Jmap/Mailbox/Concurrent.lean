import MailServer.Jmap.Mailbox.Forest

/-!
# Writers side by side

Everybody who changes mailboxes or messages reads first and commits later.  In between others commit.

* `Writer`: what a writer has read, or what it is going to write.  `World`: the account and the writers under way.
* `Gone`: nothing is left of a mailbox that was destroyed.
* `Fine`: nothing is put into a mailbox behind the back of those who destroy it.
* `gone_run`: runs.
-/

namespace MailServer.Jmap.Mailbox.Concurrent

open MailServer.Types MailServer.Common MailServer.JmapProto MailServer.Email MailServer.Utils MailServer.Lib
open List Option Account

/-! ## Writers -/

/-- A call of `mailbox_destroy`. -/
structure DestroyJob where
  documentId : ℕ
  removeEmails : Bool
  accessToken : AccessToken
  accountId : UInt32

inductive Writer where
  /-- it has read the cache and some of the archives -/
  | reading (job : DestroyJob) (unread : List ℕ) (archives : List (ℕ × MessageData))
  /-- what is left of the batch -/
  | destroying (documentId : ℕ) (batch : List (List Op))
  /-- a mailbox of `mailbox_set` to write -/
  | mailbox (id : ℕ) (current : Option Mailbox) (changes : Mailbox)
  /-- somebody who is going to put messages into mailboxes has read which ones there are -/
  | lookup (mailboxIds : List ℕ)
  /-- a message to write -/
  | message (id : ℕ) (current changes : Option MessageData)

structure World where
  account : Account
  writers : ℕ → Option Writer
  /-- the mailboxes that were destroyed -/
  destroyed : List ℕ

def World.set (w : World) (k : ℕ) (writer : Option Writer) : World :=
  { w with writers := Function.update w.writers k writer }

/-- A new writer, or none when the request is refused. -/
def World.begin (w : World) (k : ℕ) (writer : Option Writer) : Option World :=
  if (w.writers k).isSome then none else some (w.set k writer)

/-- Writes that go to the store together are the last ones of a writer. -/
def World.commit (s : Server) (w : World) (k : ℕ) (ops : List Op) : World :=
  match applyAll (apply s.hash) ops w.account with
  | none => w.set k none
  | some a => { w.set k none with account := a }

/-- A destroy after a piece of its batch. -/
def World.advance (w : World) (k documentId : ℕ) (rest : List (List Op)) (a : Account) : World :=
  match rest with
  | [] => { w.set k none with account := a, destroyed := w.destroyed ++ [documentId] }
  | _ :: _ => { w.set k (some (.destroying documentId rest)) with account := a }

inductive Action where
  /-- `mailbox_destroy` reads the cache, -/
  | destroy (k : ℕ) (job : DestroyJob)
  /-- the archive of a message, -/
  | readArchive (k : ℕ)
  /-- the archive of the mailbox, -/
  | readMailbox (k : ℕ)
  /-- and commits so many groups of its batch. -/
  | commitPiece (k n : ℕ)
  /-- `mailbox_set` checks a create, -/
  | create (k : ℕ) (ctx : SetContext) (object : Properties)
  /-- or an update. -/
  | update (k : ℕ) (ctx : SetContext) (id : Id) (object : Properties)
  /-- Those who put messages into mailboxes look the mailboxes up, -/
  | lookup (k : ℕ)
  /-- make a message, as `email_ingest` and `copy_message` do, -/
  | insertMessage (k id : ℕ) (data : MessageData)
  /-- or read one and change it, as `Email/set` and the commands of IMAP do. -/
  | editMessage (k id : ℕ) (changes : Option MessageData)
  /-- A mailbox or a message is committed. -/
  | commit (k : ℕ)

variable (s : Server)

/-- One read or one commit.  A batch of several mailboxes or messages is a writer for each of them; the groups of a
batch are all committed before the next one when they go to the store in one piece. -/
def step (w : World) : Action → Option World
  | .destroy k job =>
    w.begin k (match destroyChecks job.documentId job.removeEmails w.account with
      | .error _ => none
      | .ok messageIds => some (.reading job messageIds []))
  | .readArchive k =>
    match w.writers k with
    | some (.reading job (id :: unread) archives) =>
      some (w.set k (some (.reading job unread
        (archives ++ (w.account.messages[id]?.map fun data => (id, data)).toList))))
    | _ => none
  | .readMailbox k =>
    match w.writers k with
    | some (.reading job [] archives) =>
      some (w.set k (match destroyBatch job.accessToken job.accountId job.documentId job.removeEmails archives
          w.account.mailboxes[job.documentId]? with
        | .error _ => none
        | .ok batch => some (.destroying job.documentId batch)))
    | _ => none
  | .commitPiece k n =>
    match w.writers k with
    | some (.destroying documentId batch) =>
      some (match applyAll (apply s.hash) (batch.take n).flatten w.account with
        | none => w.set k none
        | some a => w.advance k documentId (batch.drop n) a)
    | _ => none
  | .create k ctx object =>
    match mailboxSetItem s w.account ctx object none with
    | .error _ => w.begin k none
    | .ok changes =>
      { w with account := { w.account with nextMailboxId := w.account.nextMailboxId + 1 } }.begin k
        (some (.mailbox w.account.nextMailboxId none changes))
  | .update k ctx id object =>
    w.begin k (match (updateEach s w.account [(id, some object)] ctx []).2 with
      | u :: _ => some (.mailbox u.documentId (some u.current) u.changes)
      | [] => none)
  | .lookup k => w.begin k (some (.lookup (w.account.mailboxes.toList.map Prod.fst)))
  | .insertMessage k id data =>
    match w.writers k with
    | some (.lookup mailboxIds) =>
      -- Verify that the mailboxIds are valid
      some (w.set k (if data.mailboxes.all fun m => mailboxIds.contains m.mailboxId then
        some (.message id none (some data)) else none))
    | _ => none
  | .editMessage k id changes =>
    match w.writers k with
    | some (.lookup mailboxIds) =>
      some (w.set k (match w.account.messages[id]? with
        | none => none
        | some current =>
          -- Make sure all new mailboxIds are valid
          if changes.all fun data => data.mailboxes.all fun m =>
              mailboxIds.contains m.mailboxId || current.mailboxes.any fun c => c.mailboxId = m.mailboxId then
            some (.message id (some current) changes) else none))
    | _ => none
  | .commit k =>
    match w.writers k with
    | some (.mailbox id current changes) => some (w.commit s k (mailboxOps id current changes))
    | some (.message id current changes) => some (w.commit s k [.message id current changes])
    | _ => none

/-! ## What is claimed of runs -/

/-- Nothing is left of a mailbox but messages that are named. -/
structure Empties (a : Account) (d : ℕ) (S : ℕ → Prop) : Prop where
  children : ∀ (id : ℕ) (m : Mailbox), a.mailboxes[id]? = some m → parentOf m.parentId ≠ some d
  messages : ∀ (id : ℕ) (data : MessageData), a.messages[id]? = some data → data.In d → S id

/-- No mailbox has it as parent and no message lists it. -/
def Gone (a : Account) (d : ℕ) : Prop := Empties a d fun _ => False

/-- The writer is about to destroy the mailbox. -/
def Writer.Destroys (d : ℕ) : Writer → Prop
  | .reading job _ _ => job.documentId = d
  | .destroying documentId _ => documentId = d
  | _ => False

/-- The writer is about to destroy the mailbox, and does not read the message any more. -/
def Writer.Passed (d id : ℕ) : Writer → Prop
  | .reading job unread _ => job.documentId = d ∧ id ∉ unread
  | .destroying documentId _ => documentId = d
  | _ => False

/-- What is put into a mailbox, or below one, is not put there behind the back of those who destroy it. -/
def OpFine (w : World) (a : Account) : Op → Prop
  | .message id _ (some data) =>
    ∀ d, data.In d → (∀ m : MessageData, a.messages[id]? = some m → ¬ m.In d) →
      d ∉ w.destroyed ∧ ∀ k writer, w.writers k = some writer → ¬ writer.Passed d id
  | .mailbox id _ (some m) =>
    ∀ d, parentOf m.parentId = some d → up a.mailboxes id ≠ some d →
      ∀ k writer, w.writers k = some writer → ¬ writer.Destroys d
  | _ => True

/-- The writes of an action. -/
def World.ops (w : World) : Action → List Op
  | .commitPiece k n =>
    match w.writers k with
    | some (.destroying _ batch) => (batch.take n).flatten
    | _ => []
  | .commit k =>
    match w.writers k with
    | some (.mailbox id current changes) => mailboxOps id current changes
    | some (.message id current changes) => [.message id current changes]
    | _ => []
  | _ => []

def Fine (w : World) (x : Action) : Prop := Run.Each (apply s.hash) (OpFine w) w.account (w.ops x)

/-! ## The invariant -/

variable {s : Server}

/-- What is known of a writer. -/
def WriterOk (a : Account) (destroyed : List ℕ) : Writer → Prop
  | .reading job unread archives =>
    Empties a job.documentId fun id =>
      id ∈ unread ∨ ∃ prev : MessageData, (id, prev) ∈ archives ∧ prev.In job.documentId
  | .destroying d batch =>
    ∃ groups m, batch = groups ++ [[.mailbox d (some m) none]] ∧
      (∀ group ∈ groups, ∃ id prev changes, group = [.message id (some prev) changes] ∧ ∀ c ∈ changes, ¬ c.In d) ∧
      Empties a d fun id => ∃ prev changes, [.message id (some prev) changes] ∈ groups
  | .mailbox id none _ => id < a.nextMailboxId ∧ ¬ Stored a.mailboxes id ∧ id ∉ destroyed
  | _ => True

structure Inv (w : World) : Prop where
  fresh : Fresh w.account
  destroyed : ∀ d ∈ w.destroyed, d < w.account.nextMailboxId ∧ ¬ Stored w.account.mailboxes d ∧ Gone w.account d
  writers : ∀ k writer, w.writers k = some writer → WriterOk w.account w.destroyed writer
  /-- nobody else creates a mailbox under this id -/
  distinct : ∀ k k' id m m', w.writers k = some (.mailbox id none m) → w.writers k' = some (.mailbox id none m') →
    k = k'

variable {a b : Account} {d id k : ℕ} {S : ℕ → Prop} {m : Mailbox} {w : World}
  {writer : Option Writer} {current : Option Mailbox} {rest : List (List Op)} {op : Op}

theorem Empties.mono {S' : ℕ → Prop} (h : Empties a d S) (hS : ∀ id, S id → S' id) :
    Empties a d S' := ⟨h.children, fun id data hm hin => hS id (h.messages id data hm hin)⟩

theorem Empties.congr (h : Empties a d S) (hmailboxes : b.mailboxes = a.mailboxes)
    (hmessages : b.messages = a.messages) : Empties b d S :=
  ⟨by rw [hmailboxes]; exact h.children, by rw [hmessages]; exact h.messages⟩

theorem Empties.message {current changes : Option MessageData} (h : Empties a d S)
    (hb : a.apply s.hash (.message id current changes) = some b)
    (hput : ∀ data ∈ changes, data.In d → (∀ m : MessageData, a.messages[id]? = some m → ¬ m.In d) → S id) :
    Empties b d S := by
  rw [apply] at hb
  cases hm : putArchive s.hash.message a.messages id current changes with
  | none => rw [hm] at hb; cases hb
  | some messages =>
    rw [hm] at hb
    obtain rfl := some.inj hb
    refine ⟨h.children, fun k data hk hin => ?_⟩
    rw [putArchive_eq hm k] at hk
    split_ifs at hk with hid
    · subst hid
      by_cases hwas : ∃ m : MessageData, a.messages[id]? = some m ∧ m.In d
      · obtain ⟨m, hm, hin'⟩ := hwas
        exact h.messages id m hm hin'
      · exact hput data hk hin fun m hm hin' => hwas ⟨m, hm, hin'⟩
    · exact h.messages k data hk hin

theorem Empties.mailbox (h : Empties a d S) (hput : parentOf m.parentId ≠ some d) :
    Empties { a with mailboxes := a.mailboxes.insert id m } d S := by
  refine ⟨fun k m' hk => ?_, h.messages⟩
  rw [getElem?_put] at hk
  split_ifs at hk
  · obtain rfl := some.inj hk
    exact hput
  · exact h.children k m' hk

theorem Empties.written {current changes : Option MessageData} (h : Empties a d S)
    (hb : a.apply s.hash (.message id current changes) = some b)
    (hchanges : ∀ c ∈ changes, ¬ c.In d) : Empties b d fun k => S k ∧ k ≠ id := by
  have hkept := h.message hb fun data hdata hin _ => absurd hin (hchanges data hdata)
  refine ⟨hkept.children, fun k data hk hin => ⟨hkept.messages k data hk hin, ?_⟩⟩
  rintro rfl
  rw [apply] at hb
  cases hm : putArchive s.hash.message a.messages k current changes with
  | none => rw [hm] at hb; cases hb
  | some messages =>
    rw [hm] at hb
    obtain rfl := some.inj hb
    rw [putArchive_eq hm k, if_pos rfl] at hk
    exact hchanges data hk hin

/-! ## What a step keeps -/

theorem writers_set {k' : ℕ} :
    (w.set k writer).writers k' = if k' = k then writer else w.writers k' := Function.update_apply _ _ _ _

theorem Inv.set (hinv : Inv w) (hok : ∀ wr ∈ writer, WriterOk w.account w.destroyed wr)
    (hnew : ∀ id m, writer = some (.mailbox id none m) → ∀ k' m', w.writers k' ≠ some (.mailbox id none m')) :
    Inv (w.set k writer) := by
  refine ⟨hinv.fresh, hinv.destroyed, fun k' wr h => ?_, fun k₁ k₂ id m m' h₁ h₂ => ?_⟩
  · rw [writers_set] at h
    split_ifs at h
    · exact hok wr h
    · exact hinv.writers k' wr h
  · rw [writers_set] at h₁ h₂
    split_ifs at h₁ h₂ with hk₁ hk₂ hk₂
    · rw [hk₁, hk₂]
    · exact absurd h₂ (hnew id m h₁ k₂ m')
    · exact absurd h₁ (hnew id m' h₂ k₁ m)
    · exact hinv.distinct k₁ k₂ id m m' h₁ h₂

theorem Inv.drop (hinv : Inv w) (k : ℕ) : Inv (w.set k none) :=
  hinv.set (fun _ h => by cases h) fun _ _ h => by cases h

theorem WriterOk.change {destroyed destroyed' : List ℕ} {writer : Writer}
    (hok : WriterOk a destroyed writer)
    (hempties : ∀ d S, writer.Destroys d → (∀ id, ¬ writer.Passed d id → S id) → Empties a d S → Empties b d S)
    (hnew : ∀ id m, writer = .mailbox id none m → id < a.nextMailboxId → ¬ Stored a.mailboxes id → id ∉ destroyed →
      id < b.nextMailboxId ∧ ¬ Stored b.mailboxes id ∧ id ∉ destroyed') : WriterOk b destroyed' writer := by
  cases writer with
  | reading job unread archives =>
    refine hempties _ _ rfl (fun id hid => .inl ?_) hok
    by_contra hnot
    exact hid ⟨rfl, hnot⟩
  | destroying d batch =>
    obtain ⟨groups, m, hbatch, hgroups, hempty⟩ := hok
    exact ⟨groups, m, hbatch, hgroups, hempties _ _ rfl (fun id hid => absurd rfl hid) hempty⟩
  | mailbox id current m =>
    cases current with
    | none => exact hnew id m rfl hok.1 hok.2.1 hok.2.2
    | some current => trivial
  | lookup mailboxIds => trivial
  | message id current changes => trivial

/-- **The archives change**: what is stored was stored or created, and nothing is put behind the back of a destroy. -/
theorem Inv.change (hinv : Inv w) (hnext : b.nextMailboxId = w.account.nextMailboxId)
    (hstored : ∀ id, Stored b.mailboxes id → Stored w.account.mailboxes id ∨ id < w.account.nextMailboxId ∧
      id ∉ w.destroyed ∧ ∀ k m, w.writers k ≠ some (.mailbox id none m))
    (hgone : ∀ d ∈ w.destroyed, Gone w.account d → Gone b d)
    (hempties : ∀ k writer d S, w.writers k = some writer → writer.Destroys d → (∀ id, ¬ writer.Passed d id → S id) →
      Empties w.account d S → Empties b d S) : Inv { w with account := b } := by
  refine ⟨fun id hid => ?_, fun d hd => ?_, fun k writer hk => ?_, hinv.distinct⟩
  · rw [hnext]
    rcases hstored id hid with h | h
    · exact hinv.fresh id h
    · exact h.1
  · obtain ⟨hlt, hnot, hempty⟩ := hinv.destroyed d hd
    refine ⟨?_, fun hstored' => ?_, hgone d hd hempty⟩
    · rwa [hnext]
    · rcases hstored d hstored' with h | h
      · exact hnot h
      · exact h.2.1 hd
  · refine (hinv.writers k writer hk).change (fun d S => hempties k writer d S hk) ?_
    rintro id m rfl hlt hnot hd
    refine ⟨?_, fun hstored' => ?_, hd⟩
    · rwa [hnext]
    · rcases hstored id hstored' with h | h
      · exact hnot h
      · exact h.2.2 k m hk

theorem apply_message_eq {current changes : Option MessageData}
    (hb : a.apply s.hash (.message id current changes) = some b) :
    b.mailboxes = a.mailboxes ∧ b.nextMailboxId = a.nextMailboxId := by
  obtain ⟨messages, -, rfl⟩ := map_eq_some_iff.mp hb
  exact ⟨rfl, rfl⟩

/-- **A message is written.** -/
theorem Inv.message (hinv : Inv w) {current changes : Option MessageData}
    (hb : w.account.apply s.hash (.message id current changes) = some b)
    (hfine : OpFine w w.account (.message id current changes)) : Inv { w with account := b } := by
  obtain ⟨hmailboxes, hnext⟩ := apply_message_eq hb
  refine hinv.change hnext (fun k hk => .inl (hmailboxes ▸ hk)) (fun d hd h => ?_) fun k writer d S hk _ hS h => ?_
  · refine h.message hb fun data hdata hin hnot => ?_
    cases hdata
    exact (hfine d hin hnot).1 hd
  · refine h.message hb fun data hdata hin hnot => hS id ?_
    cases hdata
    exact (hfine d hin hnot).2 k writer hk

/-- **A mailbox is written**, under an id that nobody else creates. -/
theorem Inv.mailbox (hinv : Inv w)
    (hb : applyAll (apply s.hash) (mailboxOps id current m) w.account = some b)
    (hfine : OpFine w w.account (.mailbox id current (some m)))
    (hid : current = none → id < w.account.nextMailboxId ∧ id ∉ w.destroyed ∧
      ∀ k m', w.writers k ≠ some (.mailbox id none m')) : Inv { w with account := b } := by
  obtain ⟨rfl, hparent, hread⟩ := applyAll_mailboxOps hb
  refine hinv.change rfl (fun k hk => ?_) (fun d hd h => h.mailbox fun hp => ?_) fun k writer d S hk hdestroys _ h =>
    h.mailbox fun hp => ?_
  · rcases stored_put.mp hk with rfl | hk
    · cases current with
      | none => exact .inr (hid rfl)
      | some c =>
        obtain ⟨stored, hstored, -⟩ := hread c rfl
        exact .inl (stored_iff.mpr ⟨stored, hstored⟩)
    · exact .inl hk
  · -- the parent is asserted to be there
    exact (hinv.destroyed d hd).2.1 (hparent d hp)
  · by_cases hup : up w.account.mailboxes id = some d
    · cases hm : w.account.mailboxes[id]? with
      | none => rw [up, hm] at hup; cases hup
      | some m' => exact h.children id m' hm (up_eq hm ▸ hup)
    · exact hfine d hp hup k writer hk hdestroys

/-- **The mailbox goes**, and nothing was left in it. -/
theorem Inv.clear (hinv : Inv w) (hb : w.account.apply s.hash (.mailbox d (some m) none) = some b)
    (hgone : Gone w.account d) : Inv { w with account := b, destroyed := w.destroyed ++ [d] } := by
  obtain ⟨mailboxes, hput, rfl⟩ := map_eq_some_iff.mp hb
  obtain ⟨stored, hd, -⟩ := putArchive_current hput
  have hget := putArchive_eq hput
  have hstored : ∀ id, Stored mailboxes id → Stored w.account.mailboxes id := by
    intro id hid
    rw [Stored, hget] at hid
    split_ifs at hid
    · exact absurd rfl hid
    · exact hid
  have hempties : ∀ {d' : ℕ} {S : ℕ → Prop}, Empties w.account d' S →
      Empties { w.account with mailboxes := mailboxes } d' S := by
    refine fun h => ⟨fun id m' hm => ?_, h.messages⟩
    rw [hget] at hm
    split_ifs at hm
    exact h.children id m' hm
  have hlt : d < w.account.nextMailboxId := hinv.fresh d (stored_iff.mpr ⟨stored, hd⟩)
  refine ⟨fun id hid => hinv.fresh id (hstored id hid), fun d' hd' => ?_, fun k writer hk => ?_, hinv.distinct⟩
  · rcases mem_append.mp hd' with hd' | hd'
    · obtain ⟨hlt', hnot, hempty⟩ := hinv.destroyed d' hd'
      exact ⟨hlt', fun h => hnot (hstored d' h), hempties hempty⟩
    · obtain rfl := mem_singleton.mp hd'
      refine ⟨hlt, fun h => h ?_, hempties hgone⟩
      rw [hget, if_pos rfl]
  · refine (hinv.writers k writer hk).change (fun _ _ _ _ h => hempties h) ?_
    rintro id m' rfl hid hnot hmem
    refine ⟨hid, fun h => hnot (hstored id h), fun h => ?_⟩
    rcases mem_append.mp h with h | h
    · exact hmem h
    · obtain rfl := mem_singleton.mp h
      exact hnot (stored_iff.mpr ⟨stored, hd⟩)

theorem advance_of_ne_nil (h : rest ≠ []) :
    w.advance k d rest a = { w.set k (some (.destroying d rest)) with account := a } := by
  cases rest with
  | nil => exact absurd rfl h
  | cons g rest => rfl

theorem opFine_mailbox
    (hfine : Run.Each (apply s.hash) (OpFine w) a (mailboxOps id current m))
    (hb : applyAll (apply s.hash) (mailboxOps id current m) a = some b) :
    OpFine w a (.mailbox id current (some m)) := by
  unfold mailboxOps at hfine hb
  rw [applyAll_append] at hb
  obtain ⟨c, hc, hlast⟩ := bind_eq_some_iff.mp hb
  have hmailbox := (hfine.of_append (applyAll_eq_run ▸ hc)).2
  obtain rfl : c = a := by
    split_ifs at hc with hpos
    · have hc := applyAll_singleton hc
      rw [apply] at hc
      split_ifs at hc
      exact (some.inj hc).symm
    · exact (some.inj hc).symm
  exact (hmailbox b (applyAll_singleton hlast)).1

/-- **One group of the batch of a destroy.** -/
theorem Inv.group (hinv : Inv w) {g : List Op} (hk : w.writers k = some (.destroying d (g :: rest)))
    (hfine : Run.Each (apply s.hash) (OpFine w) w.account g)
    (ha : applyAll (apply s.hash) g w.account = some a) : Inv (w.advance k d rest a) := by
  obtain ⟨groups, m, hbatch, hgroups, hempty⟩ := hinv.writers k _ hk
  cases groups with
  | nil =>
    obtain ⟨rfl, rfl⟩ := List.cons.inj hbatch
    have ha := applyAll_singleton ha
    exact (hinv.drop k).clear ha (hempty.mono fun id ⟨prev, changes, h⟩ => by cases h)
  | cons g' gs =>
    obtain ⟨rfl, rfl⟩ := List.cons.inj hbatch
    obtain ⟨id, prev, changes, rfl, hchanges⟩ := hgroups _ mem_cons_self
    have ha := applyAll_singleton ha
    rw [advance_of_ne_nil (by simp)]
    refine (hinv.message ha (hfine a ha).1).set (k := k) ?_ fun _ _ h => by cases h
    rintro _ ⟨⟩
    refine ⟨gs, m, rfl, fun group hgroup => hgroups group (mem_cons_of_mem _ hgroup), ?_⟩
    refine (hempty.written ha hchanges).mono ?_
    rintro id' ⟨⟨prev', changes', hmem⟩, hne⟩
    rcases mem_cons.mp hmem with heq | hmem
    · injection heq with heq
      injection heq with heq
      exact absurd heq hne
    · exact ⟨prev', changes', hmem⟩

theorem OpFine.of_writers {w' : World} (h : OpFine w a op) (hdestroyed : w'.destroyed = w.destroyed)
    (hwriters : ∀ k writer, w'.writers k = some writer → ∃ writer', w.writers k = some writer' ∧
      (∀ d, writer.Destroys d → writer'.Destroys d) ∧ ∀ d id, writer.Passed d id → writer'.Passed d id) :
    OpFine w' a op := by
  cases op with
  | assertMailbox id => trivial
  | mailbox id current changes =>
    cases changes with
    | none => trivial
    | some m =>
      intro d hp hup k writer hk hdestroys
      obtain ⟨writer', hk', hd, -⟩ := hwriters k writer hk
      exact h d hp hup k writer' hk' (hd d hdestroys)
  | message id current changes =>
    cases changes with
    | none => trivial
    | some data =>
      intro d hin hnot
      refine ⟨hdestroyed ▸ (h d hin hnot).1, fun k writer hk hpassed => ?_⟩
      obtain ⟨writer', hk', -, hp⟩ := hwriters k writer hk
      exact (h d hin hnot).2 k writer' hk' (hp d id hpassed)

theorem OpFine.drop (h : OpFine w a op) : OpFine (w.set k none) a op := by
  refine h.of_writers rfl fun k' writer hk' => ?_
  rw [writers_set] at hk'
  split_ifs at hk'
  exact ⟨writer, hk', fun _ h => h, fun _ _ h => h⟩

theorem OpFine.advance {batch : List (List Op)} (h : OpFine w b op)
    (hk : w.writers k = some (.destroying d batch)) (hrest : rest ≠ []) :
    OpFine (w.advance k d rest a) b op := by
  rw [advance_of_ne_nil hrest]
  refine h.of_writers rfl fun k' writer hwriter => ?_
  have hset : (w.set k (some (.destroying d rest))).writers k' = some writer := hwriter
  rw [writers_set] at hset
  by_cases heq : k' = k
  · rw [if_pos heq] at hset
    obtain rfl := some.inj hset
    exact ⟨.destroying d batch, heq ▸ hk, fun _ h => h, fun _ _ h => h⟩
  · rw [if_neg heq] at hset
    exact ⟨writer, hset, fun _ h => h, fun _ _ h => h⟩

/-- **A piece of the batch of a destroy.** -/
theorem Inv.piece {k d : ℕ} : ∀ (n : ℕ) {w : World} {batch : List (List Op)} {a : Account}, Inv w →
    w.writers k = some (.destroying d batch) →
    Run.Each (apply s.hash) (OpFine w) w.account (batch.take n).flatten →
    applyAll (apply s.hash) (batch.take n).flatten w.account = some a → Inv (w.advance k d (batch.drop n) a)
  | 0, w, batch, a, hinv, hk, _, ha => by
    obtain rfl := some.inj ha
    obtain ⟨groups, m, hbatch, -, -⟩ := hinv.writers k _ hk
    rw [drop_zero, advance_of_ne_nil (by rw [hbatch]; simp), World.set, ← hk, Function.update_eq_self]
    exact hinv
  | n + 1, w, batch, a, hinv, hk, hfine, ha => by
    cases batch with
    | nil =>
      obtain ⟨groups, m, hbatch, -, -⟩ := hinv.writers k _ hk
      exact absurd hbatch (by simp)
    | cons g rest =>
      rw [take_succ_cons, flatten_cons] at hfine ha
      rw [applyAll_append] at ha
      obtain ⟨b, hb, ha⟩ := bind_eq_some_iff.mp ha
      obtain ⟨hg, hrest⟩ := hfine.of_append (applyAll_eq_run ▸ hb)
      have hstep := hinv.group hk hg hb
      rw [drop_succ_cons]
      by_cases hnil : rest = []
      · subst hnil
        rw [take_nil] at ha
        obtain rfl := some.inj ha
        rwa [drop_nil]
      · have hadvance := advance_of_ne_nil (w := w) (k := k) (d := d) (a := b) hnil
        have hk' : (w.advance k d rest b).writers k = some (.destroying d rest) := by
          rw [hadvance]
          exact Function.update_self _ _ _
        have haccount : (w.advance k d rest b).account = b := by rw [hadvance]
        have hfine' : Run.Each (apply s.hash) (OpFine (w.advance k d rest b)) b (rest.take n).flatten :=
          hrest.mono fun _ _ h => h.advance hk hnil
        have hpiece := Inv.piece n hstep hk' (by rw [haccount]; exact hfine') (by rw [haccount]; exact ha)
        have hsame : (w.advance k d rest b).advance k d (rest.drop n) a = w.advance k d (rest.drop n) a := by
          rw [hadvance]
          cases rest.drop n with
          | nil => simp [World.advance, World.set]
          | cons g' rest' => simp [World.advance, World.set]
        rwa [hsame] at hpiece

theorem Inv.begin {w' : World} (hinv : Inv w) (h : w.begin k writer = some w')
    (hok : ∀ wr ∈ writer, WriterOk w.account w.destroyed wr)
    (hnew : ∀ id m, writer = some (.mailbox id none m) → ∀ k' m', w.writers k' ≠ some (.mailbox id none m')) :
    Inv w' := by
  unfold World.begin at h
  split_ifs at h
  obtain rfl := some.inj h
  exact hinv.set hok hnew

theorem Inv.nextId (hinv : Inv w) :
    Inv { w with account := { w.account with nextMailboxId := w.account.nextMailboxId + 1 } } := by
  refine ⟨fun id hid => Nat.lt_succ_of_lt (hinv.fresh id hid), fun d hd => ?_, fun k writer hk => ?_, hinv.distinct⟩
  · obtain ⟨hlt, hnot, hgone⟩ := hinv.destroyed d hd
    exact ⟨Nat.lt_succ_of_lt hlt, hnot, hgone.congr rfl rfl⟩
  · exact (hinv.writers k writer hk).change (fun _ _ _ _ h => h.congr rfl rfl)
      fun _ _ _ hlt hnot hd => ⟨Nat.lt_succ_of_lt hlt, hnot, hd⟩

/-- **One step.** -/
theorem inv_step {w' : World} {x : Action} (hinv : Inv w) (hfine : Fine s w x)
    (h : step s w x = some w') : Inv w' := by
  cases x with
  | destroy k job =>
    refine hinv.begin h ?_ ?_
    · intro writer hwriter
      cases hchecks : destroyChecks job.documentId job.removeEmails w.account with
      | error e => rw [hchecks] at hwriter; cases hwriter
      | ok messageIds =>
        rw [hchecks] at hwriter
        obtain rfl := some.inj hwriter
        obtain ⟨hleaf, rfl⟩ := destroyChecks_spec hchecks
        refine ⟨fun id m hm hp => hleaf id m hm (parentOf_eq_some.mp hp), fun id data hm hin => .inl ?_⟩
        exact mem_inMailbox.mpr ⟨data, hm, hin⟩
    · intro id m hwriter
      cases hchecks : destroyChecks job.documentId job.removeEmails w.account with
      | error e => rw [hchecks] at hwriter; cases hwriter
      | ok messageIds => rw [hchecks] at hwriter; cases hwriter
  | readArchive k =>
    rw [step] at h
    split at h
    · rename_i job id unread archives hk
      obtain rfl := some.inj h
      have hok := hinv.writers k _ hk
      refine hinv.set ?_ fun _ _ h => by cases h
      rintro _ ⟨⟩
      refine ⟨hok.children, fun id' data hm hin => ?_⟩
      rcases hok.messages id' data hm hin with hunread | ⟨prev, hprev, hin'⟩
      · rcases mem_cons.mp hunread with rfl | hunread
        · exact .inr ⟨data, mem_append_right _ (by simp [hm]), hin⟩
        · exact .inl hunread
      · exact .inr ⟨prev, mem_append_left _ hprev, hin'⟩
    · cases h
  | readMailbox k =>
    rw [step] at h
    split at h
    · rename_i job archives hk
      obtain rfl := some.inj h
      have hok := hinv.writers k _ hk
      cases hbatch : destroyBatch job.accessToken job.accountId job.documentId job.removeEmails archives
          w.account.mailboxes[job.documentId]? with
      | error e => exact hinv.drop k
      | ok batch =>
        refine hinv.set ?_ fun _ _ h => by cases h
        rintro _ ⟨⟩
        obtain ⟨m, hm⟩ := destroyBatch_spec hbatch
        refine ⟨_, m, hm, fun group hgroup => mem_destroyMessages hgroup, hok.mono ?_⟩
        rintro id (hid | ⟨prev, hprev, hin⟩)
        · cases hid
        · exact ⟨prev, destroyMessages_covers hprev hin⟩
    · cases h
  | commitPiece k n =>
    rw [step] at h
    split at h
    · rename_i d batch hk
      obtain rfl := some.inj h
      have hops : w.ops (.commitPiece k n) = (batch.take n).flatten := by simp [World.ops, hk]
      rw [Fine, hops] at hfine
      cases ha : applyAll (apply s.hash) (batch.take n).flatten w.account with
      | none => exact hinv.drop k
      | some a => exact hinv.piece n hk hfine ha
    · cases h
  | create k ctx object =>
    rw [step] at h
    cases hitem : mailboxSetItem s w.account ctx object none with
    | error e =>
      rw [hitem] at h
      exact hinv.begin h (fun _ h => by cases h) fun _ _ h => by cases h
    | ok changes =>
      rw [hitem] at h
      have hunused : ∀ k' m', w.writers k' ≠ some (.mailbox w.account.nextMailboxId none m') :=
        fun k' m' hk' => absurd (hinv.writers k' _ hk').1 (lt_irrefl _)
      refine hinv.nextId.begin h ?_ ?_
      · rintro _ ⟨⟩
        refine ⟨Nat.lt_succ_self _, fun hstored => absurd (hinv.fresh _ hstored) (lt_irrefl _), fun hd => ?_⟩
        exact absurd (hinv.destroyed _ hd).1 (lt_irrefl _)
      · rintro _ _ ⟨⟩
        exact hunused
  | update k ctx id object =>
    rw [step] at h
    cases hbatch : (updateEach s w.account [(id, some object)] ctx []).2 with
    | nil =>
      rw [hbatch] at h
      exact hinv.begin h (fun _ h => by cases h) fun _ _ h => by cases h
    | cons u batch =>
      rw [hbatch] at h
      refine hinv.begin h ?_ fun _ _ h => by cases h
      rintro _ ⟨⟩
      trivial
  | lookup k =>
    refine hinv.begin h ?_ fun _ _ h => by cases h
    rintro _ ⟨⟩
    trivial
  | insertMessage k id data =>
    rw [step] at h
    split at h
    · obtain rfl := some.inj h
      split_ifs
      · refine hinv.set ?_ fun _ _ h => by cases h
        rintro _ ⟨⟩
        trivial
      · exact hinv.drop k
    · cases h
  | editMessage k id changes =>
    rw [step] at h
    split at h
    · obtain rfl := some.inj h
      cases w.account.messages[id]? with
      | none => exact hinv.drop k
      | some current =>
        dsimp only
        split_ifs
        · refine hinv.set ?_ fun _ _ h => by cases h
          rintro _ ⟨⟩
          trivial
        · exact hinv.drop k
    · cases h
  | commit k =>
    rw [step] at h
    split at h
    · rename_i id current changes hk
      obtain rfl := some.inj h
      have hops : w.ops (.commit k) = mailboxOps id current changes := by simp [World.ops, hk]
      rw [Fine, hops] at hfine
      unfold World.commit
      cases ha : applyAll (apply s.hash) (mailboxOps id current changes) w.account with
      | none => exact hinv.drop k
      | some a =>
        refine (hinv.drop k).mailbox ha (opFine_mailbox hfine ha).drop ?_
        rintro rfl
        obtain ⟨hlt, -, hd⟩ := hinv.writers k _ hk
        refine ⟨hlt, hd, fun k' m' hk' => ?_⟩
        rw [writers_set] at hk'
        split_ifs at hk' with hne
        exact hne (hinv.distinct k' k id m' changes hk' hk)
    · rename_i id current changes hk
      obtain rfl := some.inj h
      have hops : w.ops (.commit k) = [.message id current changes] := by simp [World.ops, hk]
      rw [Fine, hops] at hfine
      unfold World.commit
      cases ha : applyAll (apply s.hash) [.message id current changes] w.account with
      | none => exact hinv.drop k
      | some a =>
        have ha := applyAll_singleton ha
        exact (hinv.drop k).message ha (hfine a ha).1.drop
    · cases h

/-- A world before anything is under way. -/
def World.start (a : Account) : World := ⟨a, fun _ => none, []⟩

theorem inv_start (h : Fresh a) : Inv (.start a) :=
  ⟨h, (fun _ h => by cases h), (fun _ _ h => by cases h), fun _ _ _ _ _ h => by cases h⟩

/-- **Once a mailbox has been destroyed nothing is left of it**, when nothing is put there behind the back of those who
destroy it. -/
theorem gone_run {a : Account} {actions : List Action} (ha : Fresh a)
    (hfine : Run.Each (step s) (Fine s) (.start a) actions) :
    Run.Always (step s) (fun w => ∀ d ∈ w.destroyed, Gone w.account d) (.start a) actions :=
  (Run.always_of_each (fun _ _ _ hinv hfine h => inv_step hinv hfine h) (inv_start ha) hfine).mono
    fun _ hinv d hd => (hinv.destroyed d hd).2.2

/-! ## A mailbox that is destroyed while it is used -/

/-- The mailbox `a` at the top, under the id five. -/
def oneMailbox : Account := ⟨Std.TreeMap.empty.insert 5 (.new "a"), ∅, 6⟩

theorem fresh_oneMailbox : Fresh oneMailbox := by
  intro id hid
  rw [Stored, oneMailbox, HashMap.getElem?_insert] at hid
  split_ifs at hid with h
  · subst h
    decide
  · exact absurd Std.TreeMap.getElem?_emptyc hid

def owner : AccessToken := ⟨0, [], [], false⟩

/-- A message in the mailbox. -/
def delivered : MessageData := ⟨[⟨5, 1⟩], [], 7, 100⟩

/-- The context of a request that creates a mailbox below `a`. -/
def creating : SetContext := ⟨0, owner, false, ⟨[], [], [], [], [], []⟩, [5], []⟩

/-- A message comes in before the mailbox is destroyed. -/
theorem gone_delivered : Run.Always (step .plain) (fun w => ∀ d ∈ w.destroyed, Gone w.account d) (.start oneMailbox)
    [.lookup 0, .insertMessage 0 7 delivered, .commit 0, .destroy 1 ⟨5, true, owner, 0⟩, .readArchive 1,
      .readMailbox 1, .commitPiece 1 2] := by
  refine gone_run fresh_oneMailbox ?_
  refine (Run.each_cons rfl).mpr ⟨trivial, (Run.each_cons rfl).mpr ⟨trivial, (Run.each_cons rfl).mpr ⟨?_, ?_⟩⟩⟩
  · refine fun _ _ => ⟨fun d _ _ => ⟨not_mem_nil, fun k writer hk => ?_⟩, trivial⟩
    cases k with
    | zero =>
      obtain rfl := some.inj hk
      exact id
    | succ k => cases hk
  · refine (Run.each_cons rfl).mpr ⟨trivial, (Run.each_cons rfl).mpr ⟨trivial, (Run.each_cons rfl).mpr ⟨trivial, ?_⟩⟩⟩
    exact (Run.each_cons rfl).mpr ⟨fun _ _ => ⟨trivial, fun _ _ => ⟨trivial, trivial⟩⟩, trivial⟩

/-- A mailbox is created and a message comes in between the checks and the commit of a destroy. -/
theorem gone_raced : ¬ Run.Always (step .plain) (fun w => ∀ d ∈ w.destroyed, Gone w.account d) (.start oneMailbox)
    [.destroy 0 ⟨5, false, owner, 0⟩,
      .create 1 creating [(.property .name, .str "b"), (.property .parentId, .element (.id ⟨5⟩))], .commit 1,
      .lookup 2, .insertMessage 2 7 delivered, .commit 2, .readMailbox 0, .commitPiece 0 1] := by
  intro h
  have hgone := h.last rfl 5 (by decide)
  exact hgone.children 6 _ rfl rfl

end MailServer.Jmap.Mailbox.Concurrent
