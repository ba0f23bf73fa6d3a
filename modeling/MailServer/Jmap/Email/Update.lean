import MailServer.Email.Vanished
import MailServer.Jmap.Email.Copy

/-!
# Updating messages (`jmap/src/email/set.rs`)

`Email/set` reads each message that it is to update, and writes all of them in one batch.  The UIDs that messages lose are
collected for each mailbox in a map that the updates share, and logged when something is written.

* `updateMessage`: the members of an update.  `visit`: what becomes of an update, and what it does to the map.
* `emailSetUpdates`: the updates of a request.
* `Reported`: what the updates collect is what they take.
* `exact_emailSetUpdates_iff`: what is logged is what is lost if and only if it is.
-/

namespace MailServer.Jmap.Email

open MailServer.Types MailServer.Common MailServer.JmapProto MailServer.Utils MailServer.Lib MailServer.Email
open List

/-- What does not change while the updates are processed; `resolve` is `resolve_self_references`. -/
structure UpdateContext where
  cache : MessageStoreCache
  accessToken : AccessToken
  accountId : UInt32
  willDestroy : List Id
  resolve : Value String → Except (SetError (EmailProperty String)) (Value String)

namespace UpdateContext

variable (ctx : UpdateContext)

def hasMailboxId (mailboxId : ℕ) : Bool := ctx.cache.mailboxes.any fun m => m.documentId.toNat == mailboxId

/-- Whether the user may do something in a mailbox: nothing is asked of members of the account. -/
def may (acl : Acl) (mailboxId : ℕ) : Bool :=
  !ctx.accessToken.isShared ctx.accountId ||
    (ctx.cache.sharedMailboxes ctx.accessToken acl).any fun id => id.toNat == mailboxId

end UpdateContext

/-! ## One update -/

/-- One member of an update. -/
def updateMember (data : MessageData) :
    Key (EmailProperty String) × Value String → Except (SetError (EmailProperty String)) MessageData
  | (.property .mailboxIds, .object ids) =>
    .ok (data.setMailboxes (ids.filterMap fun k =>
      (Key.tryIntoProperty k).bind fun p => p.tryIntoId.map fun id => .newUnassigned id.documentId.toNat))
  | (.property .keywords, .object keywords) =>
    .ok (data.setKeywords (keywords.filterMap fun k =>
      (Key.tryIntoProperty k).bind EmailProperty.tryIntoKeyword))
  | (.property (.pointer pointer), v) =>
    match handleEmailPatch pointer v with
    | .setKeyword k => .ok (data.addKeyword k)
    | .removeKeyword k => .ok (data.removeKeyword k)
    | .addMailbox id => .ok (data.addMailbox (.newUnassigned id.toNat))
    | .removeMailbox id => .ok (data.removeMailbox id.toNat)
    | .invalid e => .error e
  | (property, _) =>
    .error ((SetError.invalidProperties.withKey property).withDescription "Invalid property or value.")

def updateMessage (resolve : Value String → Except (SetError (EmailProperty String)) (Value String))
    (data : MessageData) : Create String → Except (SetError (EmailProperty String)) MessageData
  | [] => .ok data
  | (property, v) :: object =>
    match resolve v with
    | .error e => .error e
    | .ok v =>
      match updateMember data (property, v) with
      | .error e => .error e
      | .ok data => updateMessage resolve data object

inductive Outcome where
  | refused (e : SetError (EmailProperty String))
  | unchanged
  /-- the message before and after, without new UIDs -/
  | changed (data newData : MessageData)

/-- An update of a message: the mailboxes whose entry of the map is made empty, then the UIDs that are added to it. -/
structure Visit where
  documentId : ℕ
  resets : List ℕ
  pushes : List (ℕ × ℕ)
  outcome : Outcome

section

variable (ctx : UpdateContext) (data newData : MessageData)

/-- Set all current mailboxes as changed if the Seen tag changed. -/
def visitKeywords : Except (SetError (EmailProperty String)) (List ℕ) :=
  if ¬ newData.hasKeywordChanges data then .ok []
  else if ctx.accessToken.isShared ctx.accountId ∧ ¬ newData.mailboxes.any fun m => ctx.may .modifyItems m.mailboxId then
    .error (SetError.forbidden.withDescription "You are not allowed to modify keywords.")
  else if (newData.addedKeywords data).contains "$seen" ∨ (newData.removedKeywords data).contains "$seen" then
    .ok (newData.mailboxes.map UidMailbox.mailboxId)
  else .ok []

/-- Make sure all new mailboxIds are valid. -/
def visitAdded : List UidMailbox → List ℕ × Option (SetError (EmailProperty String))
  | [] => ([], none)
  | m :: mailboxes =>
    if ¬ ctx.hasMailboxId m.mailboxId then
      ([], some ((SetError.invalidProperties.withProperty .mailboxIds).withDescription
        s!"mailboxId {(Id.ofDocumentId (UInt32.ofNat m.mailboxId)).asString} does not exist."))
    else if ¬ ctx.may .addItems m.mailboxId then
      ([], some (SetError.forbidden.withDescription
        s!"You are not allowed to add messages to mailbox {(Id.ofDocumentId (UInt32.ofNat m.mailboxId)).asString}."))
    else
      let (resets, e) := visitAdded mailboxes
      (m.mailboxId :: resets, e)

/-- Add all removed mailboxes to change list. -/
def visitRemoved : List UidMailbox → List (ℕ × ℕ) × Option (SetError (EmailProperty String))
  | [] => ([], none)
  | m :: mailboxes =>
    if ¬ ctx.may .removeItems m.mailboxId then
      ([], some (SetError.forbidden.withDescription
        s!"You are not allowed to delete messages from mailbox {m.mailboxId}."))
    else
      let (pushes, e) := visitRemoved mailboxes
      ((m.mailboxId, m.uid) :: pushes, e)

def visitMailboxes : List ℕ × List (ℕ × ℕ) × Option (SetError (EmailProperty String)) :=
  if ¬ newData.hasMailboxChanges data then ([], [], none)
  else if newData.mailboxes.isEmpty then
    ([], [], some ((SetError.invalidProperties.withProperty .mailboxIds).withDescription
      "Message has to belong to at least one mailbox."))
  else
    match visitAdded ctx (newData.addedMailboxes data) with
    | (resets, some e) => (resets, [], some e)
    | (resets, none) => (resets, visitRemoved ctx (newData.removedMailboxes data))

/-- The body of the loop up to the UIDs. -/
def visit (messages : HashMap ℕ MessageData) (update : Id × Create String) : Visit :=
  let documentId := update.1.documentId.toNat
  -- Make sure id won't be destroyed
  if ctx.willDestroy.contains update.1 then ⟨documentId, [], [], .refused .willDestroy⟩
  else match messages[documentId]? with
  | none => ⟨documentId, [], [], .refused .notFound⟩
  | some data =>
    match updateMessage ctx.resolve data update.2 with
    | .error e => ⟨documentId, [], [], .refused e⟩
    | .ok newData =>
      if ¬ newData.hasKeywordChanges data ∧ ¬ newData.hasMailboxChanges data then ⟨documentId, [], [], .unchanged⟩
      else match visitKeywords ctx data newData with
      | .error e => ⟨documentId, [], [], .refused e⟩
      | .ok seen =>
        let (resets, pushes, e) := visitMailboxes ctx data newData
        ⟨documentId, seen ++ resets, pushes, match e with
          | some e => .refused e
          | none => .changed data newData⟩

end

/-! ## The loop -/

/-- `changed_mailboxes` after an update. -/
def changeMailboxes (changedMailboxes : HashMap ℕ (List ℕ)) (v : Visit) : HashMap ℕ (List ℕ) :=
  v.pushes.foldl (fun m e => m.insert e.1 ((m[e.1]?).getD [] ++ [e.2]))
    (v.resets.foldl (fun m mailboxId => m.insert mailboxId []) changedMailboxes)

structure UpdateProgress where
  counters : UidCounters
  changedMailboxes : HashMap ℕ (List ℕ)
  /-- documents with their archives as they were read and as they are to be -/
  writes : List (ℕ × MessageData × MessageData)
  willUpdate : List Id
  updated : List Id
  notUpdated : List (Id × SetError (EmailProperty String))

/-- UIDs for mailboxes that are new. -/
def assignUids (counters : UidCounters) (data newData : MessageData) : UidCounters × MessageData :=
  if ¬ newData.hasMailboxChanges data then (counters, newData)
  else
    let (counters, uids) := assignEmailIds counters newData.unassigned
    (counters, newData.setMailboxes (MessageData.assign newData.mailboxes uids))

section

variable (ctx : UpdateContext) (messages : HashMap ℕ MessageData)

def processUpdate (p : UpdateProgress) (update : Id × Create String) : UpdateProgress :=
  let v := visit ctx messages update
  let p := { p with changedMailboxes := changeMailboxes p.changedMailboxes v }
  match v.outcome with
  | .refused e => { p with notUpdated := p.notUpdated ++ [(update.1, e)] }
  | .unchanged => { p with updated := p.updated ++ [update.1] }
  | .changed data newData =>
    let (counters, newData) := assignUids p.counters data newData
    { p with
      counters := counters
      writes := p.writes ++ [(v.documentId, data, newData)]
      willUpdate := p.willUpdate ++ [update.1] }

def processUpdates (counters : UidCounters) (updates : List (Id × Create String)) : UpdateProgress :=
  updates.foldl (processUpdate ctx messages) ⟨counters, ∅, [], [], [], []⟩

end

/-- The write of an update: the archive that was read is asserted. -/
def writeOp (w : ℕ × MessageData × MessageData) : Op := .message w.1 (some w.2.1) (some w.2.2)

/-- What is answered, and what is logged when the batch is written. -/
structure UpdateResponse where
  updated : List Id
  notUpdated : List (Id × SetError (EmailProperty String))
  vanished : Option (List (ℕ × ℕ))

/-- The updates of `email_set`, when nothing else writes. -/
def emailSetUpdates (h : ArchiveHash) (cuts : List ℕ) (ctx : UpdateContext) (counters : UidCounters) (a : Account)
    (updates : List (Id × Create String)) : Account × UpdateResponse :=
  let p := processUpdates ctx a.messages counters updates
  if p.writes = [] then (a, ⟨p.updated, p.notUpdated, none⟩)
  else
    let r := commitGroups (Account.apply h) cuts (p.writes.map fun w => [writeOp w]) a
    (r.1, if r.2 then
        ⟨p.updated ++ p.willUpdate, p.notUpdated, some (p.changedMailboxes.toList.flatMap fun e => e.2.map fun uid => (e.1, uid))⟩
      else
        ⟨p.updated, p.notUpdated ++ p.willUpdate.map fun id =>
          (id, SetError.forbidden.withDescription "Another process modified this message, please try again."), none⟩)

/-! ## What is collected -/

/-- An update of the document adds the pair to the map, and no later one empties the entry of its mailbox. -/
def Collected (visits : List Visit) (documentId : ℕ) (pair : ℕ × ℕ) : Prop :=
  ∃ earlier v later, visits = earlier ++ v :: later ∧ v.documentId = documentId ∧ pair ∈ v.pushes ∧
    ∀ w ∈ later, pair.1 ∉ w.resets

section

variable {visits : List Visit} {v : Visit} {documentId : ℕ} {pair : ℕ × ℕ}

theorem collected_concat : Collected (visits ++ [v]) documentId pair ↔
    (v.documentId = documentId ∧ pair ∈ v.pushes) ∨ (Collected visits documentId pair ∧ pair.1 ∉ v.resets) := by
  constructor
  · rintro ⟨earlier, w, later, heq, hdoc, hpair, hlater⟩
    rcases eq_nil_or_concat later with rfl | ⟨later, x, rfl⟩
    · obtain ⟨-, hw⟩ := append_inj' heq rfl
      obtain rfl := singleton_inj.mp hw
      exact .inl ⟨hdoc, hpair⟩
    · rw [concat_eq_append, ← cons_append, ← append_assoc] at heq
      obtain ⟨hvisits, hx⟩ := append_inj' heq rfl
      obtain rfl := singleton_inj.mp hx
      rw [concat_eq_append] at hlater
      exact .inr ⟨⟨earlier, w, later, hvisits, hdoc, hpair, fun y hy => hlater y (mem_append_left _ hy)⟩,
        hlater v (mem_append_right _ mem_cons_self)⟩
  · rintro (⟨hdoc, hpair⟩ | ⟨⟨earlier, w, later, rfl, hdoc, hpair, hlater⟩, hreset⟩)
    · exact ⟨visits, v, [], rfl, hdoc, hpair, fun _ h => by cases h⟩
    · refine ⟨earlier, w, later ++ [v], by rw [append_assoc, cons_append], hdoc, hpair, fun y hy => ?_⟩
      rcases mem_append.mp hy with hy | hy
      · exact hlater y hy
      · obtain rfl := mem_singleton.mp hy
        exact hreset

variable {m : HashMap ℕ (List ℕ)}

theorem mem_foldl_reset {resets : List ℕ} {mailboxId : ℕ} :
    ((resets.foldl (fun m mailboxId => m.insert mailboxId []) m)[mailboxId]?).getD [] =
      if mailboxId ∈ resets then [] else (m[mailboxId]?).getD [] := by
  induction resets using List.reverseRecOn with
  | nil => rfl
  | append_singleton resets r ih =>
    rw [foldl_concat, HashMap.getElem?_insert]
    by_cases heq : r = mailboxId
    · rw [if_pos heq, if_pos (mem_append_right _ (mem_singleton.mpr heq.symm))]
      rfl
    · rw [if_neg heq, ih]
      simp [Ne.symm heq]

theorem mem_foldl_push {pushes : List (ℕ × ℕ)} :
    pair.2 ∈ ((pushes.foldl (fun m e => m.insert e.1 ((m[e.1]?).getD [] ++ [e.2])) m)[pair.1]?).getD [] ↔
      pair ∈ pushes ∨ pair.2 ∈ (m[pair.1]?).getD [] := by
  induction pushes using List.reverseRecOn with
  | nil => exact (or_iff_right not_mem_nil).symm
  | append_singleton pushes e ih =>
    rw [foldl_concat, HashMap.getElem?_insert, mem_append, mem_singleton]
    by_cases heq : e.1 = pair.1
    · rw [if_pos heq, Option.getD_some, mem_append, heq, ih, mem_singleton, Prod.ext_iff, eq_comm (b := e.1),
        and_iff_right heq, or_right_comm]
    · have hne : pair ≠ e := fun h => heq (h ▸ rfl)
      rw [if_neg heq, ih, or_iff_left (b := pair = e) hne]

theorem mem_changeMailboxes :
    pair.2 ∈ ((changeMailboxes m v)[pair.1]?).getD [] ↔
      pair ∈ v.pushes ∨ pair.1 ∉ v.resets ∧ pair.2 ∈ (m[pair.1]?).getD [] := by
  unfold changeMailboxes
  rw [mem_foldl_push, mem_foldl_reset]
  split_ifs with hreset
  · simp [hreset]
  · simp [hreset]

/-- **The map** has the pairs that stay collected. -/
theorem mem_changedMailboxes : pair.2 ∈ ((visits.foldl changeMailboxes ∅)[pair.1]?).getD [] ↔
    ∃ documentId, Collected visits documentId pair := by
  induction visits using List.reverseRecOn with
  | nil =>
    refine iff_of_false ?_ ?_
    · exact not_mem_nil
    · rintro ⟨_, earlier, v, later, heq, -⟩
      exact append_ne_nil_of_right_ne_nil _ (cons_ne_nil _ _) heq.symm
  | append_singleton visits v ih =>
    rw [foldl_concat, mem_changeMailboxes, ih]
    simp only [collected_concat]
    constructor
    · rintro (hpair | ⟨hreset, documentId, h⟩)
      · exact ⟨v.documentId, .inl ⟨rfl, hpair⟩⟩
      · exact ⟨documentId, .inr ⟨h, hreset⟩⟩
    · rintro ⟨documentId, ⟨-, hpair⟩ | ⟨h, hreset⟩⟩
      · exact .inl hpair
      · exact .inr ⟨hreset, documentId, h⟩

end

/-! ## What is taken -/

/-- The update is carried out, and its message has not the pair any more. -/
def Visit.Takes (v : Visit) (pair : ℕ × ℕ) : Prop :=
  ∃ data newData : MessageData, v.outcome = .changed data newData ∧ pair ∈ data.pairs ∧ pair ∉ newData.pairs

section

variable {ctx : UpdateContext} {messages : HashMap ℕ MessageData} {update : Id × Create String} {pair : ℕ × ℕ}

theorem mem_removedMailboxes {data newData : MessageData} :
    (⟨pair.1, pair.2⟩ : UidMailbox) ∈ newData.removedMailboxes data ↔
      pair ∈ data.pairs ∧ newData.hasMailboxId pair.1 = false := by
  unfold MessageData.removedMailboxes MessageData.hasMailboxId
  rw [mem_filter, mem_pairs, any_eq_false, all_eq_true]
  simp only [decide_eq_true_eq, beq_iff_eq]

variable {removed : List UidMailbox}

theorem mem_visitRemoved (h : pair ∈ (visitRemoved ctx removed).1) :
    (⟨pair.1, pair.2⟩ : UidMailbox) ∈ removed := by
  induction removed with
  | nil => cases h
  | cons m removed ih =>
    rw [visitRemoved] at h
    split_ifs at h
    · rcases mem_cons.mp h with rfl | h
      · exact mem_cons_self
      · exact mem_cons_of_mem _ (ih h)
    · cases h

theorem mem_visitRemoved_of_none (h : (visitRemoved ctx removed).2 = none) :
    pair ∈ (visitRemoved ctx removed).1 ↔ (⟨pair.1, pair.2⟩ : UidMailbox) ∈ removed := by
  refine ⟨mem_visitRemoved, fun hmem => ?_⟩
  induction removed with
  | nil => cases hmem
  | cons m removed ih =>
    rw [visitRemoved] at h ⊢
    split_ifs at h ⊢ with hmay
    rcases mem_cons.mp hmem with rfl | hmem
    · exact mem_cons_self
    · exact mem_cons_of_mem _ (ih h hmem)

/-- What an update does: it adds pairs that its message has in mailboxes that it is taken out of, all of them when it is
carried out. -/
structure VisitSpec (messages : HashMap ℕ MessageData) (v : Visit) : Prop where
  pushes : ∀ pair ∈ v.pushes, ∃ data, messages[v.documentId]? = some data ∧ pair ∈ data.pairs
  changed : ∀ data newData, v.outcome = .changed data newData → messages[v.documentId]? = some data ∧
    ∀ pair, pair ∈ v.pushes ↔
      newData.hasMailboxChanges data = true ∧ pair ∈ data.pairs ∧ newData.hasMailboxId pair.1 = false

theorem mem_visitMailboxes {data newData : MessageData} (h : pair ∈ (visitMailboxes ctx data newData).2.1) :
    pair ∈ data.pairs := by
  unfold visitMailboxes at h
  split_ifs at h with hchanges hempty
  · cases h
  · rcases hadded : visitAdded ctx (newData.addedMailboxes data) with ⟨resets, none | e⟩
    · rw [hadded] at h
      exact (mem_removedMailboxes.1 (mem_visitRemoved h)).1
    · rw [hadded] at h
      cases h
  · cases h

theorem mem_visitMailboxes_of_none {data newData : MessageData} (h : (visitMailboxes ctx data newData).2.2 = none) :
    pair ∈ (visitMailboxes ctx data newData).2.1 ↔
      newData.hasMailboxChanges data = true ∧ pair ∈ data.pairs ∧ newData.hasMailboxId pair.1 = false := by
  unfold visitMailboxes at h ⊢
  split_ifs at h ⊢ with hchanges hempty
  · rcases hadded : visitAdded ctx (newData.addedMailboxes data) with ⟨resets, none | e⟩
    · rw [hadded] at h
      rw [mem_visitRemoved_of_none h, mem_removedMailboxes]
      exact (and_iff_right hchanges).symm
    · rw [hadded] at h
      cases h
  · exact iff_of_false not_mem_nil fun h => hchanges h.1

theorem visit_spec (ctx : UpdateContext) (messages : HashMap ℕ MessageData) (update : Id × Create String) :
    VisitSpec messages (visit ctx messages update) := by
  have hrefused (documentId : ℕ) (e : SetError (EmailProperty String)) :
      VisitSpec messages ⟨documentId, [], [], .refused e⟩ := ⟨nofun, nofun⟩
  unfold visit
  dsimp only
  split_ifs
  · exact hrefused _ _
  · cases hdata : messages[update.1.documentId.toNat]? with
    | none => exact hrefused _ _
    | some data =>
      dsimp only
      cases hupdate : updateMessage ctx.resolve data update.2 with
      | error e => exact hrefused _ _
      | ok newData =>
        dsimp only
        split_ifs
        · exact ⟨nofun, nofun⟩
        · cases hkeywords : visitKeywords ctx data newData with
          | error e => exact hrefused _ _
          | ok seen =>
            refine ⟨fun pair hpair => ⟨data, hdata, mem_visitMailboxes hpair⟩, fun data' newData' hout => ?_⟩
            cases hmailboxes : (visitMailboxes ctx data newData).2.2 with
            | some e => rw [hmailboxes] at hout; cases hout
            | none =>
              rw [hmailboxes] at hout
              obtain ⟨rfl, rfl⟩ := Outcome.changed.inj hout
              exact ⟨hdata, fun pair => mem_visitMailboxes_of_none hmailboxes⟩

end

/-! ## What is written -/

section

variable {ctx : UpdateContext} {messages : HashMap ℕ MessageData} {counters : UidCounters}
  {updates : List (Id × Create String)} {pair : ℕ × ℕ}

theorem counters_le_assignUids (counters : UidCounters) (data newData : MessageData) (mailboxId : ℕ) :
    counters mailboxId ≤ (assignUids counters data newData).1 mailboxId := by
  unfold assignUids
  split_ifs
  · exact counters_le_assignEmailIds _ _ _
  · exact le_rfl

theorem mem_pairs_assignUids {data newData : MessageData} (hne : pair.2 ≠ 0) (hle : pair.2 ≤ counters pair.1) :
    pair ∈ (assignUids counters data newData).2.pairs ↔ pair ∈ newData.pairs := by
  unfold assignUids
  split_ifs
  · rw [mem_pairs, mem_pairs]
    exact MessageData.mem_assign_iff hne hle
  · rfl

/-- What is to be written after some updates. -/
structure Carried (ctx : UpdateContext) (messages : HashMap ℕ MessageData) (updates : List (Id × Create String))
    (p : UpdateProgress) : Prop where
  map : p.changedMailboxes = (updates.map (visit ctx messages)).foldl changeMailboxes ∅
  write : ∀ w ∈ p.writes, messages[w.1]? = some w.2.1 ∧ ∃ update ∈ updates, ∃ newData,
    (visit ctx messages update).documentId = w.1 ∧ (visit ctx messages update).outcome = .changed w.2.1 newData ∧
      ∀ pair ∈ w.2.1.pairs, pair ∈ w.2.2.pairs ↔ pair ∈ newData.pairs
  carried : ∀ update ∈ updates, ∀ data newData, (visit ctx messages update).outcome = .changed data newData →
    ∃ new, ((visit ctx messages update).documentId, data, new) ∈ p.writes ∧
      ∀ pair ∈ data.pairs, pair ∈ new.pairs ↔ pair ∈ newData.pairs

variable {update : Id × Create String}

theorem Carried.skip {p p' : UpdateProgress} (h : Carried ctx messages updates p)
    (hmap : p'.changedMailboxes = changeMailboxes p.changedMailboxes (visit ctx messages update))
    (hwrites : p'.writes = p.writes)
    (hout : ∀ data newData, (visit ctx messages update).outcome ≠ .changed data newData) :
    Carried ctx messages (updates ++ [update]) p' := by
  refine ⟨?_, ?_, ?_⟩
  · rw [hmap, h.map, map_append, foldl_append]
    rfl
  · intro w hw
    rw [hwrites] at hw
    obtain ⟨hdata, u, hu, hrest⟩ := h.write w hw
    exact ⟨hdata, u, mem_append_left _ hu, hrest⟩
  · intro u hu data newData houtcome
    rw [hwrites]
    rcases mem_append.mp hu with hu | hu
    · exact h.carried u hu data newData houtcome
    · obtain rfl := mem_singleton.mp hu
      exact absurd houtcome (hout data newData)

theorem Carried.snoc {p p' : UpdateProgress} {data newData new : MessageData}
    (h : Carried ctx messages updates p)
    (hmap : p'.changedMailboxes = changeMailboxes p.changedMailboxes (visit ctx messages update))
    (hwrites : p'.writes = p.writes ++ [((visit ctx messages update).documentId, data, new)])
    (hout : (visit ctx messages update).outcome = .changed data newData)
    (hnew : ∀ pair ∈ data.pairs, pair ∈ new.pairs ↔ pair ∈ newData.pairs) :
    Carried ctx messages (updates ++ [update]) p' := by
  refine ⟨?_, ?_, ?_⟩
  · rw [hmap, h.map, map_append, foldl_append]
    rfl
  · intro w hw
    rw [hwrites] at hw
    rcases mem_append.mp hw with hw | hw
    · obtain ⟨hdata, u, hu, hrest⟩ := h.write w hw
      exact ⟨hdata, u, mem_append_left _ hu, hrest⟩
    · obtain rfl := mem_singleton.mp hw
      exact ⟨((visit_spec ctx messages update).changed data newData hout).1, update,
        mem_append_right _ mem_cons_self, newData, rfl, hout, hnew⟩
  · intro u hu data' newData' hout'
    rw [hwrites]
    rcases mem_append.mp hu with hu | hu
    · obtain ⟨new', hmem, hrest⟩ := h.carried u hu data' newData' hout'
      exact ⟨new', mem_append_left _ hmem, hrest⟩
    · obtain rfl := mem_singleton.mp hu
      obtain ⟨rfl, rfl⟩ := Outcome.changed.inj (hout.symm.trans hout')
      exact ⟨new, mem_append_right _ mem_cons_self, hnew⟩

/-- **The loop** writes what the updates change. -/
theorem carried_processUpdates (hn : Numbered messages counters) (updates : List (Id × Create String)) :
    Carried ctx messages updates (processUpdates ctx messages counters updates) ∧
      ∀ mailboxId, counters mailboxId ≤ (processUpdates ctx messages counters updates).counters mailboxId := by
  unfold processUpdates
  induction updates using List.reverseRecOn with
  | nil => exact ⟨⟨rfl, nofun, nofun⟩, fun _ => le_rfl⟩
  | append_singleton updates update ih =>
    rw [foldl_concat]
    obtain ⟨p, hp⟩ : ∃ p, p = updates.foldl (processUpdate ctx messages) ⟨counters, ∅, [], [], [], []⟩ := ⟨_, rfl⟩
    rw [← hp] at ih ⊢
    obtain ⟨hcarried, hle⟩ := ih
    unfold processUpdate
    dsimp only
    cases hout : (visit ctx messages update).outcome with
    | refused e => exact ⟨hcarried.skip rfl rfl fun _ _ h => Outcome.noConfusion (hout.symm.trans h), hle⟩
    | unchanged => exact ⟨hcarried.skip rfl rfl fun _ _ h => Outcome.noConfusion (hout.symm.trans h), hle⟩
    | changed data newData =>
      refine ⟨hcarried.snoc rfl rfl hout fun pair hpair => ?_, fun mailboxId => ?_⟩
      · obtain ⟨hdata, -⟩ := (visit_spec ctx messages update).changed data newData hout
        obtain ⟨hne, huid⟩ := hn.assigned _ data hdata _ (mem_pairs.mp hpair)
        exact mem_pairs_assignUids hne (huid.trans (hle _))
      · exact (hle mailboxId).trans (counters_le_assignUids _ _ _ mailboxId)

/-- Whether the hashes tell the messages that are written from those that were read. -/
def HashesTell (h : ArchiveHash) (writes : List (ℕ × MessageData × MessageData)) : Prop :=
  ∀ w ∈ writes, h.message w.2.2 ≠ h.message w.2.1

theorem opWrites_writeOps (writes : List (ℕ × MessageData × MessageData)) :
    opWrites (writes.map writeOp) = writes.map fun w => (w.1, some w.2.2) := by
  induction writes with
  | nil => rfl
  | cons w writes ih =>
    rw [map_cons, map_cons, ← ih]
    rfl

/-- A batch that writes a document twice is not written: the second write asserts the archive that the first one
replaced. -/
theorem nodup_of_applyAll {h : ArchiveHash} {a a' : Account} {writes : List (ℕ × MessageData × MessageData)}
    (read : ℕ → Option MessageData) (hread : ∀ w ∈ writes, read w.1 = some w.2.1) (htell : HashesTell h writes)
    (hok : applyAll (Account.apply h) (writes.map writeOp) a = some a') : (writes.map Prod.fst).Nodup := by
  have hfst : ((messageArchives h).writes (writes.map writeOp)).map Prod.fst = writes.map Prod.fst := by
    rw [writes_messageArchives, opWrites_writeOps, map_map]
    rfl
  rw [← hfst]
  refine (@Archives.nodup_of_applyAll _ _ _ _ _ (messageArchives h) _ _ _ read ?_ ?_ hok).1
  · intro op hop id current changes hwrite
    obtain ⟨w, hw, rfl⟩ := mem_map.mp hop
    cases hwrite
    exact ⟨_, rfl, hread w hw⟩
  · intro op hop id e e' hwrite
    obtain ⟨w, hw, rfl⟩ := mem_map.mp hop
    cases hwrite
    exact htell w hw

theorem lost_writes_iff {p : UpdateProgress} (hcarried : Carried ctx messages updates p)
    (hnodup : (p.writes.map Prod.fst).Nodup) :
    Lost messages (commitMessages messages (p.writes.map fun w => (w.1, some w.2.2))) pair ↔
      ∃ update ∈ updates, (visit ctx messages update).Takes pair := by
  rw [lost_commit (by rw [map_map]; exact hnodup)]
  constructor
  · rintro ⟨w', hw', data, hdata, hpair, hgone⟩
    obtain ⟨w, hw, rfl⟩ := mem_map.mp hw'
    obtain ⟨hread, update, hupdate, newData, -, hout, hiff⟩ := hcarried.write w hw
    obtain rfl := Option.some.inj (hread.symm.trans hdata)
    exact ⟨update, hupdate, w.2.1, newData, hout, hpair, fun hmem => hgone w.2.2 rfl ((hiff pair hpair).mpr hmem)⟩
  · rintro ⟨update, hupdate, data, newData, hout, hpair, hgone⟩
    obtain ⟨new, hmem, hiff⟩ := hcarried.carried update hupdate data newData hout
    refine ⟨_, mem_map_of_mem hmem, data, (hcarried.write _ hmem).1, hpair, ?_⟩
    rintro new' heq
    obtain rfl := Option.some.inj heq
    exact fun hpair' => hgone ((hiff pair hpair).mp hpair')

/-! ## When what is logged is what is lost -/

/-- The updates of a message collect a pair that stays in the map if and only if one of them takes it. -/
def Reported (visits : List Visit) : Prop :=
  ∀ documentId pair, Collected visits documentId pair ↔ ∃ v ∈ visits, v.documentId = documentId ∧ v.Takes pair

/-- The updates of a request for different messages are in order. -/
structure Orderly (visits : List Visit) : Prop where
  /-- no mailbox that a message keeps is given to it anew -/
  kept : ∀ v ∈ visits, ∀ pair, v.Takes pair → pair ∈ v.pushes
  /-- no message is taken out of a mailbox whose entry a later update empties -/
  order : ∀ earlier v later, visits = earlier ++ v :: later → ∀ pair, v.Takes pair → ∀ w ∈ later, pair.1 ∉ w.resets
  /-- what a refused update has collected is emptied by a later one -/
  refused : ∀ earlier v later, visits = earlier ++ v :: later → ∀ pair ∈ v.pushes, ¬ v.Takes pair →
    ∃ w ∈ later, pair.1 ∈ w.resets

theorem orderly_singleton {v : Visit} (h : ∀ pair, pair ∈ v.pushes ↔ v.Takes pair) : Orderly [v] := by
  have hsplit {earlier w later} (hvisits : [v] = earlier ++ w :: later) : w = v ∧ later = [] := by
    cases earlier with
    | nil =>
      obtain ⟨rfl, rfl⟩ := List.cons.inj hvisits
      exact ⟨rfl, rfl⟩
    | cons x earlier =>
      obtain ⟨-, hnil⟩ := List.cons.inj hvisits
      exact absurd hnil.symm (append_ne_nil_of_right_ne_nil _ (cons_ne_nil _ _))
  refine ⟨fun w hw pair ht => ?_, fun earlier w later hvisits pair _ x hx => ?_, fun earlier w later hvisits pair hpair hnot => ?_⟩
  · obtain rfl := mem_singleton.mp hw
    exact (h pair).mpr ht
  · rw [(hsplit hvisits).2] at hx
    cases hx
  · obtain ⟨rfl, -⟩ := hsplit hvisits
    exact absurd ((h pair).mp hpair) hnot

theorem reported_iff_orderly {visits : List Visit} (hdocs : (visits.map Visit.documentId).Nodup) :
    Reported visits ↔ Orderly visits := by
  have hinj {v w : Visit} (hv : v ∈ visits) (hw : w ∈ visits) (heq : v.documentId = w.documentId) : v = w :=
    inj_on_of_nodup_map hdocs hv hw heq
  constructor
  · intro h
    -- the only update of the message is where it is collected
    have htakes (earlier : List Visit) (v : Visit) (later : List Visit) (hvisits : visits = earlier ++ v :: later)
        (pair : ℕ × ℕ) (ht : v.Takes pair) : pair ∈ v.pushes ∧ ∀ w ∈ later, pair.1 ∉ w.resets := by
      have hv : v ∈ visits := by rw [hvisits]; exact mem_append_right _ mem_cons_self
      obtain ⟨earlier', w, later', hvisits', hdoc, hpair, hlater⟩ := (h v.documentId pair).mpr ⟨v, hv, rfl, ht⟩
      have hw : w ∈ visits := by rw [hvisits']; exact mem_append_right _ mem_cons_self
      obtain rfl := hinj hw hv hdoc
      have hnodup : (earlier' ++ w :: later').Nodup := hvisits' ▸ hdocs.of_map
      rw [nodup_middle, nodup_cons, mem_append, not_or] at hnodup
      obtain ⟨-, -, rfl⟩ := (append_cons_inj_of_notMem hnodup.1.1 hnodup.1.2).mp (hvisits'.symm.trans hvisits)
      exact ⟨hpair, hlater⟩
    refine ⟨fun v hv pair ht => ?_, fun earlier v later hvisits pair ht => (htakes earlier v later hvisits pair ht).2, ?_⟩
    · obtain ⟨earlier, later, hvisits⟩ := append_of_mem hv
      exact (htakes earlier v later hvisits pair ht).1
    · intro earlier v later hvisits pair hpair hnot
      by_contra hnone
      rw [not_exists] at hnone
      obtain ⟨w, hw, hdoc, ht⟩ := (h v.documentId pair).mp
        ⟨earlier, v, later, hvisits, rfl, hpair, fun w hw hreset => hnone w ⟨hw, hreset⟩⟩
      have hv : v ∈ visits := by rw [hvisits]; exact mem_append_right _ mem_cons_self
      exact hnot (hinj hw hv hdoc ▸ ht)
  · intro h documentId pair
    constructor
    · rintro ⟨earlier, v, later, hvisits, hdoc, hpair, hlater⟩
      have hv : v ∈ visits := by rw [hvisits]; exact mem_append_right _ mem_cons_self
      refine ⟨v, hv, hdoc, ?_⟩
      by_contra hnot
      obtain ⟨w, hw, hreset⟩ := h.refused earlier v later hvisits pair hpair hnot
      exact hlater w hw hreset
    · rintro ⟨v, hv, hdoc, ht⟩
      obtain ⟨earlier, later, hvisits⟩ := append_of_mem hv
      exact ⟨earlier, v, later, hvisits, hdoc, h.kept v hv pair ht, h.order earlier v later hvisits pair ht⟩

theorem reported_iff (hn : Numbered messages counters) :
    (∀ pair, (∃ documentId, Collected (updates.map (visit ctx messages)) documentId pair) ↔
        ∃ update ∈ updates, (visit ctx messages update).Takes pair) ↔
      Reported (updates.map (visit ctx messages)) := by
  have hread (v : Visit) (hv : v ∈ updates.map (visit ctx messages)) : VisitSpec messages v := by
    obtain ⟨update, -, rfl⟩ := mem_map.mp hv
    exact visit_spec ctx messages update
  have htakes (pair : ℕ × ℕ) : (∃ update ∈ updates, (visit ctx messages update).Takes pair) ↔
      ∃ v ∈ updates.map (visit ctx messages), v.Takes pair := by
    simp only [mem_map, exists_exists_and_eq_and]
  -- the message that a pair is collected of is the one that it is taken from
  have hsame {documentId : ℕ} {pair : ℕ × ℕ} {v : Visit} (hc : Collected (updates.map (visit ctx messages)) documentId pair)
      (hv : v ∈ updates.map (visit ctx messages)) (ht : v.Takes pair) : v.documentId = documentId := by
    obtain ⟨earlier, w, later, hvisits, rfl, hpair, -⟩ := hc
    have hw : w ∈ updates.map (visit ctx messages) := by
      rw [hvisits]
      exact mem_append_right _ mem_cons_self
    obtain ⟨data, hdata, hmem⟩ := (hread w hw).pushes pair hpair
    obtain ⟨data', newData, hout, hmem', -⟩ := ht
    exact hn.unique _ _ _ _ pair ((hread v hv).changed _ _ hout).1 hdata hmem' hmem
  constructor
  · intro h documentId pair
    constructor
    · intro hc
      obtain ⟨v, hv, ht⟩ := (htakes pair).mp ((h pair).mp ⟨documentId, hc⟩)
      exact ⟨v, hv, hsame hc hv ht, ht⟩
    · rintro ⟨v, hv, rfl, ht⟩
      obtain ⟨documentId, hc⟩ := (h pair).mpr ((htakes pair).mpr ⟨v, hv, ht⟩)
      rw [hsame hc hv ht]
      exact hc
  · intro h pair
    rw [htakes]
    constructor
    · rintro ⟨documentId, hc⟩
      obtain ⟨v, hv, -, ht⟩ := (h documentId pair).mp hc
      exact ⟨v, hv, ht⟩
    · rintro ⟨v, hv, ht⟩
      exact ⟨v.documentId, (h _ pair).mpr ⟨v, hv, rfl, ht⟩⟩

theorem mem_vanished {m : HashMap ℕ (List ℕ)} :
    (pair ∈ m.toList.flatMap fun e => e.2.map fun uid => (e.1, uid)) ↔ pair.2 ∈ (m[pair.1]?).getD [] := by
  rw [mem_flatMap]
  constructor
  · rintro ⟨⟨mailboxId, uids⟩, he, hpair⟩
    obtain ⟨uid, huid, rfl⟩ := mem_map.mp hpair
    rw [HashMap.mem_toList.mp he]
    exact huid
  · intro h
    cases huids : m[pair.1]? with
    | none => rw [huids] at h; cases h
    | some uids =>
      rw [huids] at h
      exact ⟨(pair.1, uids), HashMap.mem_toList.mpr huids, mem_map.mpr ⟨pair.2, h, rfl⟩⟩

/-- **A request** logs what is lost if and only if the pairs that its updates collect are those that they take. -/
theorem exact_emailSetUpdates_iff {h : ArchiveHash} {cuts : List ℕ} {a : Account} {vanished : List (ℕ × ℕ)}
    (hn : Numbered a.messages counters) (htell : HashesTell h (processUpdates ctx a.messages counters updates).writes)
    (hvanished : (emailSetUpdates h cuts ctx counters a updates).2.vanished = some vanished) :
    Exact a.messages (emailSetUpdates h cuts ctx counters a updates).1.messages vanished ↔
      Reported (updates.map (visit ctx a.messages)) := by
  rcases hok : emailSetUpdates h cuts ctx counters a updates with ⟨a', r⟩
  rw [hok] at hvanished
  obtain ⟨p, hp⟩ : ∃ p, p = processUpdates ctx a.messages counters updates := ⟨_, rfl⟩
  obtain ⟨hcarried, -⟩ : Carried ctx a.messages updates (processUpdates ctx a.messages counters updates) ∧ _ :=
    carried_processUpdates hn updates
  unfold emailSetUpdates at hok
  dsimp only at hok
  rw [← hp] at hok htell hcarried
  split_ifs at hok with hnil hwritten
  · obtain ⟨-, rfl⟩ := Prod.mk.inj hok
    cases hvanished
  · obtain ⟨rfl, rfl⟩ := Prod.mk.inj hok
    have hk := applyAll_of_commitGroups hwritten
    have hread (w : ℕ × MessageData × MessageData) (hw : w ∈ p.writes) : a.messages[w.1]? = some w.2.1 :=
      (hcarried.write w hw).1
    have hnodup := nodup_of_applyAll (fun id => a.messages[id]?) hread htell hk
    obtain rfl := Option.some.inj hvanished
    rw [← reported_iff hn]
    unfold Exact
    simp only [mem_vanished, hcarried.map, mem_changedMailboxes, lost_congr (messages_of_applyAll hk), opWrites_writeOps,
      lost_writes_iff hcarried hnodup]
  · obtain ⟨-, rfl⟩ := Prod.mk.inj hok
    cases hvanished

end

end MailServer.Jmap.Email
