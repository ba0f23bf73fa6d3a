import MailServer.Email.MessageData

/-!
# IMAP COPY and MOVE (`imap/src/op/copy_move.rs`, `imap/src/op/expunge.rs`)

A session has an id for every message of the selected mailbox, and its UID there.  The messages that a command is about
come in the order of a hash map.

* `Same.copyMove`: within an account, where a message is put into another mailbox.  `Other.copyMove`: to another account,
  where a copy is made.  Nothing else writes the messages meanwhile: the batch would fail, and there is no response code.
* `CopyUid`: the lists of the response.  `Faithful`: they say which message got which UID.
* `copyUid_iff`: when they do.
-/

namespace MailServer.Imap.CopyMove

open MailServer.Utils MailServer.Email List MessageData

/-- What is written of messages, and the entries of the log of vanished ones. -/
structure Changes where
  writes : List (ℕ × Option MessageData)
  vanished : List (ℕ × ℕ)

/-! ## Removing from a mailbox -/

/-- What becomes of a message that is removed from a mailbox, and its UID there. -/
def untagOrDelete (mailboxId : ℕ) (data : MessageData) : Option (ℕ × Option MessageData) :=
  (data.messageUid mailboxId).map fun uid =>
    (uid, if data.mailboxes.length = 1 then none else some ((data.removeMailbox mailboxId).removeKeyword "$deleted"))

/-- `email_untag_or_delete`. -/
def emailUntagOrDelete (messages : HashMap ℕ MessageData) (mailboxId : ℕ) (deletedIds : List ℕ) : Changes :=
  let archives := messages.toList.filter fun e => deletedIds.contains e.1
  let removed := archives.filterMap fun e => (untagOrDelete mailboxId e.2).map fun r => (e.1, r)
  { writes := removed.map fun r => (r.1, r.2.2)
    vanished := removed.map fun r => (mailboxId, r.2.1) }

/-! ## Commands -/

/-- The response code, without the UID validity. -/
structure CopyUid where
  srcUids : List ℕ
  destUids : List ℕ

/-- The pairs of UIDs are split and sorted; without pairs there is no response code. -/
def CopyUid.ofCopied (copiedIds : List (ℕ × ℕ)) : CopyUid where
  srcUids := (copiedIds.map Prod.fst).mergeSort
  destUids := (copiedIds.map Prod.snd).mergeSort

structure Command where
  isMove : Bool
  src : ℕ
  dest : ℕ
  /-- document ids with the UIDs that the session has -/
  ids : List (ℕ × ℕ)

namespace Same

structure Progress where
  counters : UidCounters
  changes : Changes
  copiedIds : List (ℕ × ℕ)

variable (c : Command)

/-- The message in the destination mailbox, without a UID, and in the source mailbox unless it is moved. -/
def newData (data : MessageData) : MessageData :=
  let data := data.addMailbox (.newUnassigned c.dest)
  if c.isMove then data.removeMailbox c.src else data

/-- One message of the loop. -/
def visit (messages : HashMap ℕ MessageData) (p : Progress) (e : ℕ × ℕ) : Progress :=
  match messages[e.1]? with
  | none => p
  | some data =>
    -- Make sure the message still belongs to this mailbox
    if ¬ data.hasMailboxId c.src then p
    else match data.mailboxes.find? fun m => m.mailboxId == c.dest with
    -- If the message is already in the destination mailbox, skip it.
    | some mailbox =>
      { p with
        copiedIds := p.copiedIds ++ [(e.2, mailbox.uid)]
        changes := if c.isMove then
            ⟨p.changes.writes ++ [(e.1, some (data.removeMailbox c.src))], p.changes.vanished ++ [(c.src, e.2)]⟩
          else p.changes }
    | none =>
      let data := newData c data
      let (counters, uids) := assignEmailIds p.counters data.unassigned
      { counters := counters
        copiedIds := p.copiedIds ++ uids.map fun uid => (e.2, uid)
        changes := ⟨p.changes.writes ++ [(e.1, some (data.setMailboxes (assign data.mailboxes uids)))],
          if c.isMove then p.changes.vanished ++ [(c.src, e.2)] else p.changes.vanished⟩ }

def progress (messages : HashMap ℕ MessageData) (counters : UidCounters) : Progress :=
  c.ids.foldl (visit c messages) ⟨counters, ⟨[], []⟩, []⟩

/-- The command within an account: what is written and what is answered.  A mailbox is not copied to itself. -/
def copyMove (messages : HashMap ℕ MessageData) (counters : UidCounters) : Changes × CopyUid :=
  if c.src = c.dest then (⟨[], []⟩, .ofCopied [])
  else
    let p := progress c messages counters
    (p.changes, .ofCopied p.copiedIds)

end Same

namespace Other

/-- What is known of the messages of the source account: the size in the metadata, the keywords in the cache, and the
thread that a copy belongs to. -/
structure Source where
  size : ℕ → Option ℕ
  keywords : ℕ → List String
  findThreadId : TargetAccount → ℕ → Option ℕ

structure Progress where
  target : TargetAccount
  copiedIds : List (ℕ × ℕ)
  destroyIds : List ℕ
  /-- messages with the documents that are their copies -/
  created : List (ℕ × ℕ)

variable (c : Command) (source : Source)

def visit (p : Progress) (e : ℕ × ℕ) : Progress :=
  match copyMessage (source.findThreadId p.target e.1) (source.size e.1) [c.dest] (source.keywords e.1) p.target with
  | (target, .error _) => { p with target }
  | (target, .ok email) =>
    { target := target
      copiedIds := p.copiedIds ++ email.imapUids.head?.toList.map fun uid => (e.2, uid)
      destroyIds := if c.isMove then p.destroyIds ++ [e.1] else p.destroyIds
      created := p.created ++ [(e.1, email.documentId)] }

def progress (target : TargetAccount) : Progress := c.ids.foldl (visit c source) ⟨target, [], [], []⟩

/-- The command for another account: what is written in the source account, and what is answered. -/
def copyMove (messages : HashMap ℕ MessageData) (target : TargetAccount) : Changes × CopyUid :=
  let p := progress c source target
  (emailUntagOrDelete messages c.src p.destroyIds, .ofCopied p.copiedIds)

end Other

/-! ## What the response should say -/

/-- Each UID of the one list is that of a message whose UID in the destination is at the same place of the other list, and
the messages are those that were not in the destination and are. -/
structure Faithful (ids : List (ℕ × ℕ)) (wasIn : ℕ → Prop) (placed : ℕ → Option ℕ) (r : CopyUid) : Prop where
  length : r.srcUids.length = r.destUids.length
  nodup : r.srcUids.Nodup
  pair : ∀ i s : ℕ, r.srcUids[i]? = some s → ∃ e ∈ ids, e.2 = s ∧ placed e.1 = r.destUids[i]?
  mem : ∀ e ∈ ids, e.2 ∈ r.srcUids ↔ ¬ wasIn e.1 ∧ (placed e.1).isSome = true

/-- The messages of a session: one entry for a document, and for a UID. -/
structure Session (ids : List (ℕ × ℕ)) : Prop where
  documents : (ids.map Prod.fst).Nodup
  uids : (ids.map Prod.snd).Nodup

/-! ## Sorting pairs -/

section

variable {ids es : List (ℕ × ℕ)} {uids : List ℕ} {placed : ℕ → Option ℕ}

variable {l : List ℕ}

theorem sorted_of_pairwise_lt (h : l.Pairwise (· < ·)) : l.mergeSort = l :=
  mergeSort_of_pairwise (h.imp fun hlt => by simpa using hlt.le)

theorem nodup_of_pairwise_lt (h : l.Pairwise (· < ·)) : l.Nodup := h.imp Nat.ne_of_lt

theorem pairwise_lt_of_sorted (hsorted : l.mergeSort = l)
    (hnodup : l.Nodup) : l.Pairwise (· < ·) := by
  have hle : l.Pairwise (· ≤ ·) := by
    have h : (l.mergeSort fun a b => decide (a ≤ b)).Pairwise fun a b => decide (a ≤ b) = true :=
      pairwise_mergeSort (by simpa using fun a b c => Nat.le_trans) (by simpa using Nat.le_total) l
    rw [hsorted] at h
    exact h.imp fun hab => by simpa using hab
  exact (hle.and hnodup).imp fun hab => lt_of_le_of_ne hab.1 hab.2

/-- **Sorting both lists** keeps the pairs together if and only if the source UIDs ascend, when the new UIDs do. -/
theorem pairs_iff (hids : Session ids) (hes : es.Sublist ids) (huids : uids.Pairwise (· < ·)) (hlen : uids.length = es.length)
    (hplaced : ∀ (i : ℕ) (e : ℕ × ℕ), es[i]? = some e → placed e.1 = uids[i]?) :
    (∀ i s : ℕ, (es.map Prod.snd).mergeSort[i]? = some s → ∃ e ∈ ids, e.2 = s ∧ placed e.1 = uids.mergeSort[i]?) ↔
      (es.map Prod.snd).Pairwise (· < ·) := by
  have hnodup : (es.map Prod.snd).Nodup := hids.uids.sublist (hes.map _)
  rw [sorted_of_pairwise_lt huids]
  constructor
  · intro h
    refine pairwise_lt_of_sorted ?_ hnodup
    refine ext_getElem? fun i => ?_
    cases hs : (es.map Prod.snd).mergeSort[i]? with
    | none =>
      have hlong := List.getElem?_eq_none_iff.mp hs
      rw [length_mergeSort] at hlong
      exact (getElem?_eq_none hlong).symm
    | some s =>
      obtain ⟨e, he, rfl, hpair⟩ := h i s hs
      have hmem : e.2 ∈ es.map Prod.snd := mem_mergeSort.mp (mem_of_getElem? hs)
      obtain ⟨e', he', heq⟩ := mem_map.mp hmem
      obtain rfl : e' = e := inj_on_of_nodup_map hids.uids (hes.subset he') he heq
      obtain ⟨j, hj⟩ := mem_iff_getElem?.mp he'
      have hi : i < uids.length := by
        rw [hlen, ← length_map (f := Prod.snd), ← length_mergeSort]
        exact (List.getElem?_eq_some_iff.mp hs).1
      have hij : uids[i]? = uids[j]? := hpair.symm.trans (hplaced j e' hj)
      have hsame : i = j := (getElem?_inj hi (nodup_of_pairwise_lt huids)).mp hij
      rw [hsame, getElem?_map, hj]
      rfl
  · intro h i s hs
    rw [sorted_of_pairwise_lt h, getElem?_map] at hs
    obtain ⟨e, he, rfl⟩ := Option.map_eq_some_iff.mp hs
    exact ⟨e, hes.subset (mem_of_getElem? he), rfl, hplaced i e he⟩

end

/-! ## Within an account -/

namespace Same

variable {c : Command} {messages : HashMap ℕ MessageData} {counters : UidCounters}

/-- The message is still in the source mailbox. -/
def inSource (c : Command) (messages : HashMap ℕ MessageData) (e : ℕ × ℕ) : Bool :=
  (messages[e.1]?).any fun data => data.hasMailboxId c.src

def wasIn (c : Command) (messages : HashMap ℕ MessageData) (id : ℕ) : Prop :=
  ((messages[id]?).any fun data => data.hasMailboxId c.dest) = true

/-- The UID of a message in the destination when the changes are written. -/
def placed (c : Command) (messages : HashMap ℕ MessageData) (changes : Changes) (id : ℕ) : Option ℕ :=
  ((commitMessages messages changes.writes)[id]?).bind fun data => data.messageUid c.dest

/-- The messages to copy are not in the destination, and that is their only mailbox without a UID; they come in the order
of their UIDs. -/
structure Orderly (c : Command) (messages : HashMap ℕ MessageData) : Prop where
  new : ∀ e ∈ c.ids, ∀ data, messages[e.1]? = some data → data.hasMailboxId c.src = true →
    data.hasMailboxId c.dest = false ∧ (newData c data).unassigned = [c.dest]
  ascending : ((c.ids.filter (inSource c messages)).map Prod.snd).Pairwise (· < ·)

/-- How many pairs are collected for a message. -/
def pairsOf (c : Command) (messages : HashMap ℕ MessageData) (e : ℕ × ℕ) : ℕ :=
  match messages[e.1]? with
  | none => 0
  | some data =>
    if ¬ data.hasMailboxId c.src then 0
    else match data.mailboxes.find? fun m => m.mailboxId == c.dest with
    | some _ => 1
    | none => (newData c data).unassigned.length

theorem map_fst_visit (p : Progress) (e : ℕ × ℕ) :
    (visit c messages p e).copiedIds.map Prod.fst =
      p.copiedIds.map Prod.fst ++ List.replicate (pairsOf c messages e) e.2 := by
  unfold visit pairsOf
  cases messages[e.1]? with
  | none => exact (append_nil _).symm
  | some data =>
    dsimp only
    by_cases hsrc : data.hasMailboxId c.src = true
    · rw [if_neg (not_not.mpr hsrc), if_neg (not_not.mpr hsrc)]
      cases data.mailboxes.find? fun m => m.mailboxId == c.dest with
      | some mailbox => exact map_append
      | none =>
        rw [map_append, map_map]
        congr 1
        rw [← length_assignEmailIds p.counters]
        exact map_const'
    · rw [if_pos hsrc, if_pos hsrc]
      exact (append_nil _).symm

theorem map_fst_foldl (l : List (ℕ × ℕ)) (p : Progress) :
    (l.foldl (visit c messages) p).copiedIds.map Prod.fst =
      p.copiedIds.map Prod.fst ++ l.flatMap fun e => List.replicate (pairsOf c messages e) e.2 := by
  induction l generalizing p with
  | nil => exact (append_nil _).symm
  | cons e l ih => rw [foldl_cons, ih, map_fst_visit, flatMap_cons, append_assoc]

variable {data : MessageData} {e : ℕ × ℕ}

theorem find?_eq_none_iff {mailboxId : ℕ} :
    data.mailboxes.find? (fun m => m.mailboxId == mailboxId) = none ↔ data.hasMailboxId mailboxId = false := by
  unfold hasMailboxId
  rw [find?_eq_none, any_eq_false]

theorem messageUid_isSome {mailboxId : ℕ} :
    (data.messageUid mailboxId).isSome = data.hasMailboxId mailboxId := by
  unfold messageUid
  rw [Option.isSome_map]
  cases hhas : data.hasMailboxId mailboxId with
  | false => rw [find?_eq_none_iff.2 hhas]; rfl
  | true =>
    rw [Option.isSome_iff_ne_none]
    intro hnone
    rw [find?_eq_none_iff.1 hnone] at hhas
    cases hhas

theorem newData_mailboxes (hne : c.src ≠ c.dest) (hdest : data.hasMailboxId c.dest = false) :
    (newData c data).mailboxes =
      (if c.isMove then data.mailboxes.filter fun m => m.mailboxId ≠ c.src else data.mailboxes) ++
        [UidMailbox.newUnassigned c.dest] := by
  have hadd : data.addMailbox (.newUnassigned c.dest) =
      { data with mailboxes := data.mailboxes ++ [.newUnassigned c.dest] } := by
    unfold addMailbox
    rw [if_neg]
    unfold hasMailboxId at hdest
    rw [any_eq_false] at hdest
    intro hany
    obtain ⟨m, hm, hsame⟩ := any_eq_true.mp hany
    refine hdest m hm ?_
    unfold UidMailbox.same at hsame
    rw [beq_iff_eq] at hsame ⊢
    exact hsame.symm
  unfold newData
  rw [hadd]
  split_ifs
  · show (data.mailboxes ++ [_]).filter _ = _
    simp [UidMailbox.newUnassigned, hne.symm]
  · rfl

/-- The message with its UID in the destination. -/
def written (c : Command) (data : MessageData) (uid : ℕ) : MessageData :=
  (newData c data).setMailboxes (assign (newData c data).mailboxes [uid])

theorem messageUid_written (hne : c.src ≠ c.dest) (hdest : data.hasMailboxId c.dest = false)
    (hnew : (newData c data).unassigned = [c.dest])
    (uid : ℕ) : (written c data uid).messageUid c.dest = some uid := by
  obtain ⟨rest, hrest, hsub⟩ : ∃ rest : List UidMailbox, (newData c data).mailboxes = rest ++ [.newUnassigned c.dest] ∧
      ∀ m ∈ rest, m ∈ data.mailboxes := by
    refine ⟨_, newData_mailboxes hne hdest, ?_⟩
    split_ifs
    · exact fun m hm => (mem_filter.mp hm).1
    · exact fun m hm => hm
  have hassigned : ∀ m ∈ rest, m.uid ≠ 0 := by
    unfold unassigned at hnew
    rw [hrest, filter_append, map_append] at hnew
    have hnil : (rest.filter fun m => m.uid == 0).map UidMailbox.mailboxId = [] :=
      append_left_eq_self.mp (hnew : _ ++ [c.dest] = [c.dest])
    rw [map_eq_nil_iff, filter_eq_nil_iff] at hnil
    exact fun m hm hzero => hnil m hm (by rw [hzero]; rfl)
  have hnone : rest.find? (fun m => m.mailboxId == c.dest) = none := by
    rw [find?_eq_none]
    exact fun m hm => find?_eq_none.mp (find?_eq_none_iff.2 hdest) m (hsub m hm)
  show (((assign (newData c data).mailboxes [uid]).find? fun m => m.mailboxId == c.dest).map _) = _
  rw [hrest, assign_of_assigned hassigned, find?_append, hnone]
  simp [assign, UidMailbox.newUnassigned]

theorem inSource_iff : inSource c messages e = true ↔
    ∃ data, messages[e.1]? = some data ∧ data.hasMailboxId c.src = true :=
  Option.any_eq_true _ _

theorem visit_of_not_inSource {p : Progress} (h : inSource c messages e = false) :
    visit c messages p e = p := by
  unfold inSource at h
  unfold visit
  cases hdata : messages[e.1]? with
  | none => rfl
  | some data =>
    rw [hdata] at h
    dsimp only
    rw [if_pos (by simpa using h)]

theorem visit_of_new {p : Progress} (hdata : messages[e.1]? = some data)
    (hsrc : data.hasMailboxId c.src = true) (hdest : data.hasMailboxId c.dest = false)
    (hnew : (newData c data).unassigned = [c.dest]) :
    visit c messages p e =
      { counters := Function.update p.counters c.dest (p.counters c.dest + 1)
        copiedIds := p.copiedIds ++ [(e.2, p.counters c.dest + 1)]
        changes := ⟨p.changes.writes ++ [(e.1, some (written c data (p.counters c.dest + 1)))],
          if c.isMove then p.changes.vanished ++ [(c.src, e.2)] else p.changes.vanished⟩ } := by
  unfold visit
  rw [hdata]
  dsimp only
  rw [if_neg (not_not.mpr hsrc), find?_eq_none_iff.2 hdest]
  rw [hnew]
  rfl

/-- What is written for messages that take the UIDs from `n` on. -/
def writesFrom (c : Command) (messages : HashMap ℕ MessageData) : ℕ → List (ℕ × ℕ) → List (ℕ × Option MessageData)
  | _, [] => []
  | n, e :: es => (e.1, (messages[e.1]?).map fun data => written c data n) :: writesFrom c messages (n + 1) es

theorem map_fst_writesFrom (n : ℕ) (es : List (ℕ × ℕ)) :
    (writesFrom c messages n es).map Prod.fst = es.map Prod.fst := by
  induction es generalizing n with
  | nil => rfl
  | cons e es ih => rw [writesFrom, map_cons, ih, map_cons]

theorem mem_writesFrom {n i : ℕ} {es : List (ℕ × ℕ)} (h : es[i]? = some e) :
    (e.1, (messages[e.1]?).map fun data => written c data (n + i)) ∈ writesFrom c messages n es := by
  induction es generalizing n i with
  | nil => cases h
  | cons e' es ih =>
    cases i with
    | zero =>
      obtain rfl := Option.some.inj h
      exact mem_cons_self
    | succ i =>
      have hmem := ih (n := n + 1) (i := i) h
      rw [Nat.add_right_comm] at hmem
      exact mem_cons_of_mem _ hmem

/-- **The loop** when all messages are new: they take UIDs in the order in which they come. -/
theorem foldl_visit {l : List (ℕ × ℕ)} (hnew : ∀ e ∈ l, ∀ data, messages[e.1]? = some data →
    data.hasMailboxId c.src = true → data.hasMailboxId c.dest = false ∧ (newData c data).unassigned = [c.dest])
    (p : Progress) :
    (l.foldl (visit c messages) p).copiedIds = p.copiedIds ++
        ((l.filter (inSource c messages)).map Prod.snd).zip
          (List.range' (p.counters c.dest + 1) (l.filter (inSource c messages)).length) ∧
      (l.foldl (visit c messages) p).changes.writes = p.changes.writes ++
        writesFrom c messages (p.counters c.dest + 1) (l.filter (inSource c messages)) := by
  induction l generalizing p with
  | nil => exact ⟨(append_nil _).symm, (append_nil _).symm⟩
  | cons e l ih =>
    have hrest := ih fun e he => hnew e (mem_cons_of_mem _ he)
    rw [foldl_cons]
    by_cases hin : inSource c messages e = true
    · obtain ⟨data, hdata, hsrc⟩ := inSource_iff.mp hin
      obtain ⟨hdest, hunassigned⟩ := hnew e mem_cons_self data hdata hsrc
      obtain ⟨hcopied, hwrites⟩ := hrest (visit c messages p e)
      rw [visit_of_new hdata hsrc hdest hunassigned] at hcopied hwrites ⊢
      dsimp only at hcopied hwrites
      rw [Function.update_self] at hcopied hwrites
      rw [filter_cons_of_pos hin]
      refine ⟨?_, ?_⟩
      · rw [hcopied, append_assoc]
        rfl
      · rw [hwrites, append_assoc, writesFrom, hdata]
        rfl
    · rw [Bool.not_eq_true] at hin
      rw [visit_of_not_inSource hin, filter_cons_of_neg (by rw [hin]; nofun)]
      exact hrest p

theorem placed_eq (hids : Session c.ids) (hne : c.src ≠ c.dest) (hnew : ∀ e ∈ c.ids, ∀ data, messages[e.1]? = some data →
    data.hasMailboxId c.src = true → data.hasMailboxId c.dest = false ∧ (newData c data).unassigned = [c.dest]) :
    (∀ (i : ℕ) (e : ℕ × ℕ), (c.ids.filter (inSource c messages))[i]? = some e →
      placed c messages (progress c messages counters).changes e.1 = some (counters c.dest + 1 + i)) ∧
      ∀ e ∈ c.ids, inSource c messages e = false →
        (placed c messages (progress c messages counters).changes e.1).isSome = true → wasIn c messages e.1 := by
  have hwrites : (progress c messages counters).changes.writes =
      writesFrom c messages (counters c.dest + 1) (c.ids.filter (inSource c messages)) :=
    (foldl_visit hnew _).2
  have hnodup : ((writesFrom c messages (counters c.dest + 1) (c.ids.filter (inSource c messages))).map Prod.fst).Nodup := by
    rw [map_fst_writesFrom]
    exact hids.documents.sublist (filter_sublist.map _)
  unfold placed
  rw [hwrites]
  constructor
  · intro i e he
    obtain ⟨hmem, hin⟩ := mem_filter.mp (mem_of_getElem? he)
    rw [commitMessages_of_mem hnodup (mem_writesFrom he)]
    obtain ⟨data, hdata, hsrc⟩ := inSource_iff.mp hin
    obtain ⟨hdest, hunassigned⟩ := hnew e hmem data hdata hsrc
    rw [hdata]
    exact messageUid_written hne hdest hunassigned _
  · intro e he hin hsome
    have hnot : e.1 ∉ (writesFrom c messages (counters c.dest + 1) (c.ids.filter (inSource c messages))).map Prod.fst := by
      rw [map_fst_writesFrom]
      intro hmem
      obtain ⟨e', he', heq⟩ := mem_map.mp hmem
      obtain ⟨hmem', hin'⟩ := mem_filter.mp he'
      obtain rfl := inj_on_of_nodup_map hids.documents hmem' he heq
      rw [hin] at hin'
      cases hin'
    rw [commitMessages_of_notMem hnot] at hsome
    unfold wasIn
    cases hdata : messages[e.1]? with
    | none => rw [hdata] at hsome; cases hsome
    | some data =>
      rw [hdata, Option.bind_some, messageUid_isSome] at hsome
      exact hsome

theorem new_of_faithful (hne : c.src ≠ c.dest) {placed : ℕ → Option ℕ}
    (h : Faithful c.ids (wasIn c messages) placed (.ofCopied (progress c messages counters).copiedIds)) :
    ∀ e ∈ c.ids, ∀ data, messages[e.1]? = some data → data.hasMailboxId c.src = true →
      data.hasMailboxId c.dest = false ∧ (newData c data).unassigned = [c.dest] := by
  intro e he data hdata hsrc
  have hfst : (progress c messages counters).copiedIds.map Prod.fst =
      c.ids.flatMap fun e => List.replicate (pairsOf c messages e) e.2 := map_fst_foldl c.ids _
  have hnodup := h.nodup
  unfold CopyUid.ofCopied at hnodup
  rw [(mergeSort_perm _ _).nodup_iff, hfst, nodup_flatMap] at hnodup
  have hone := nodup_replicate.mp (hnodup.1 e he)
  have hpairs : pairsOf c messages e =
      match data.mailboxes.find? fun m => m.mailboxId == c.dest with
      | some _ => 1
      | none => (newData c data).unassigned.length := by
    unfold pairsOf
    rw [hdata]
    exact if_neg (not_not.mpr hsrc)
  have hdest : data.hasMailboxId c.dest = false := by
    by_contra hwas
    rw [Bool.not_eq_false] at hwas
    -- a pair is collected, though the message was there before
    have hlisted : e.2 ∈ (CopyUid.ofCopied (progress c messages counters).copiedIds).srcUids := by
      unfold CopyUid.ofCopied
      rw [mem_mergeSort, hfst]
      refine mem_flatMap.mpr ⟨e, he, ?_⟩
      rw [hpairs]
      cases hfind : data.mailboxes.find? fun m => m.mailboxId == c.dest with
      | none =>
        rw [find?_eq_none_iff.1 hfind] at hwas
        cases hwas
      | some m => exact mem_replicate.mpr ⟨nofun, rfl⟩
    have hnot := ((h.mem e he).mp hlisted).1
    unfold wasIn at hnot
    rw [hdata] at hnot
    exact hnot hwas
  rw [find?_eq_none_iff.2 hdest] at hpairs
  refine ⟨hdest, ?_⟩
  have hmem : c.dest ∈ (newData c data).unassigned := by
    unfold unassigned
    rw [newData_mailboxes hne hdest]
    simp [UidMailbox.newUnassigned]
  have hlength : (newData c data).unassigned.length = 1 := by
    have hpos := length_pos_of_mem hmem
    rw [hpairs] at hone
    dsimp only at hone
    omega
  obtain ⟨x, hx⟩ := length_eq_one_iff.mp hlength
  rw [hx] at hmem ⊢
  rw [mem_singleton.mp hmem]

/-- **Within an account** the response is faithful if and only if the messages are orderly. -/
theorem response_iff (hids : Session c.ids) (hne : c.src ≠ c.dest) :
    Faithful c.ids (wasIn c messages) (placed c messages (copyMove c messages counters).1) (copyMove c messages counters).2 ↔
      Orderly c messages := by
  unfold copyMove
  rw [if_neg hne]
  obtain ⟨es, hes⟩ : ∃ es, es = c.ids.filter (inSource c messages) := ⟨_, rfl⟩
  have hsub : es.Sublist c.ids := hes ▸ filter_sublist
  have hnew_iff (hnew : ∀ e ∈ c.ids, ∀ data, messages[e.1]? = some data → data.hasMailboxId c.src = true →
      data.hasMailboxId c.dest = false ∧ (newData c data).unassigned = [c.dest]) :
      Faithful c.ids (wasIn c messages) (placed c messages (progress c messages counters).changes)
        (.ofCopied (progress c messages counters).copiedIds) ↔ (es.map Prod.snd).Pairwise (· < ·) := by
    obtain ⟨hplaced, hother⟩ := @placed_eq c messages counters hids hne hnew
    have hcopied : (progress c messages counters).copiedIds =
        (es.map Prod.snd).zip (List.range' (counters c.dest + 1) es.length) := by
      rw [hes]
      exact (foldl_visit hnew _).1
    have hlen : (List.range' (counters c.dest + 1) es.length).length = es.length := length_range'
    rw [← hes] at hplaced
    have hat (i : ℕ) (e : ℕ × ℕ) (he : es[i]? = some e) :
        placed c messages (progress c messages counters).changes e.1 =
          (List.range' (counters c.dest + 1) es.length)[i]? := by
      rw [hplaced i e he, getElem?_range' (List.getElem?_eq_some_iff.mp he).1, Nat.one_mul]
    have hpairs := pairs_iff hids hsub pairwise_lt_range' hlen hat
    have hfst : (progress c messages counters).copiedIds.map Prod.fst = es.map Prod.snd := by
      rw [hcopied, map_fst_zip (by rw [length_map, hlen])]
    have hsnd : (progress c messages counters).copiedIds.map Prod.snd = List.range' (counters c.dest + 1) es.length := by
      rw [hcopied, map_snd_zip (by rw [length_map, hlen])]
    unfold CopyUid.ofCopied
    rw [hfst, hsnd]
    constructor
    · exact fun h => hpairs.mp h.pair
    · intro h
      refine ⟨by simp [length_mergeSort], ?_, hpairs.mpr h, fun e he => ?_⟩
      · exact (mergeSort_perm _ _).nodup_iff.mpr (hids.uids.sublist (hsub.map _))
      · rw [mem_mergeSort]
        constructor
        · intro hmem
          obtain ⟨e', he', heq⟩ := mem_map.mp hmem
          obtain rfl := inj_on_of_nodup_map hids.uids (hsub.subset he') he heq
          obtain ⟨i, hi⟩ := mem_iff_getElem?.mp he'
          refine ⟨?_, by rw [hplaced i e' hi]; rfl⟩
          have hin : inSource c messages e' = true := (mem_filter.mp (hes ▸ he')).2
          obtain ⟨data, hdata, hsrc⟩ := inSource_iff.mp hin
          unfold wasIn
          rw [hdata, Option.any_some, (hnew e' he data hdata hsrc).1]
          nofun
        · rintro ⟨hwas, hsome⟩
          by_contra hnot
          refine hwas (hother e he ?_ hsome)
          by_contra hin
          rw [Bool.not_eq_false] at hin
          exact hnot (mem_map_of_mem (hes ▸ mem_filter.mpr ⟨he, hin⟩))
  constructor
  · intro h
    have hnew := new_of_faithful hne h
    exact ⟨hnew, hes ▸ (hnew_iff hnew).mp h⟩
  · exact fun h => (hnew_iff h.new).mpr (hes ▸ h.ascending)

end Same

/-! ## To another account -/

namespace Other

variable {c : Command} {source : Source}

/-- The messages that can be copied: they are there, and the quota has room for them after those before. -/
def accepted (source : Source) : List Quota → List (ℕ × ℕ) → List (ℕ × ℕ)
  | _, [] => []
  | quotas, e :: ids =>
    match source.size e.1 with
    | none => accepted source quotas ids
    | some size =>
      if hasAvailableQuota quotas size then e :: accepted source (useQuota quotas size) ids else accepted source quotas ids

/-- The UID of the copy of a message. -/
def placed (c : Command) (p : Progress) (id : ℕ) : Option ℕ :=
  (p.created.find? fun e => e.1 == id).bind fun e => (p.target.messages[e.2]?).bind fun data => data.messageUid c.dest

theorem accepted_sublist (quotas : List Quota) (ids : List (ℕ × ℕ)) : (accepted source quotas ids).Sublist ids := by
  induction ids generalizing quotas with
  | nil => exact .slnil
  | cons e ids ih =>
    unfold accepted
    cases source.size e.1 with
    | none => exact (ih quotas).cons _
    | some size =>
      dsimp only
      split_ifs
      · exact (ih _).cons_cons _
      · exact (ih quotas).cons _

/-- The loop over messages: copies take the next UIDs and document ids. -/
structure Copied (c : Command) (es : List (ℕ × ℕ)) (p p' : Progress) : Prop where
  copiedIds : p'.copiedIds = p.copiedIds ++ (es.map Prod.snd).zip (List.range' (p.target.counters c.dest + 1) es.length)
  created : p'.created = p.created ++ (es.map Prod.fst).zip (List.range' (p.target.documentIds + 1) es.length)
  uid : ∀ i < es.length, ((p'.target.messages[p.target.documentIds + 1 + i]?).bind fun data => data.messageUid c.dest) =
    some (p.target.counters c.dest + 1 + i)
  frame : ∀ doc ≤ p.target.documentIds, p'.target.messages[doc]? = p.target.messages[doc]?

theorem foldl_visit (l : List (ℕ × ℕ)) (p : Progress) :
    Copied c (accepted source p.target.quotas l) p (l.foldl (visit c source) p) := by
  induction l generalizing p with
  | nil => exact ⟨(append_nil _).symm, (append_nil _).symm, nofun, fun _ _ => rfl⟩
  | cons e l ih =>
    rw [foldl_cons]
    unfold accepted
    cases hsize : source.size e.1 with
    | none =>
      have hvisit : visit c source p e = p := by
        unfold visit copyMessage
        rw [hsize]
      rw [hvisit]
      exact ih p
    | some size =>
      dsimp only
      by_cases hquota : hasAvailableQuota p.target.quotas size = true
      · rw [if_pos hquota]
        obtain ⟨p', hp', hcounter, hdocs, hquotas, hcopied, hcreated, hmessages⟩ : ∃ p', visit c source p e = p' ∧
            p'.target.counters c.dest = p.target.counters c.dest + 1 ∧
            p'.target.documentIds = p.target.documentIds + 1 ∧ p'.target.quotas = useQuota p.target.quotas size ∧
            p'.copiedIds = p.copiedIds ++ [(e.2, p.target.counters c.dest + 1)] ∧
            p'.created = p.created ++ [(e.1, p.target.documentIds + 1)] ∧
            ∃ data : MessageData, data.mailboxes = [⟨c.dest, p.target.counters c.dest + 1⟩] ∧
              p'.target.messages = p.target.messages.insert (p.target.documentIds + 1) data := by
          unfold visit copyMessage
          rw [hsize]
          dsimp only
          rw [if_neg (not_not.mpr hquota)]
          exact ⟨_, rfl, Function.update_self _ _ _, rfl, rfl, rfl, rfl, _, rfl, rfl⟩
        obtain ⟨data, hdata, hmessages⟩ := hmessages
        have h := ih p'
        rw [hquotas] at h
        rw [hp']
        refine ⟨?_, ?_, fun i hi => ?_, fun doc hdoc => ?_⟩
        · rw [h.copiedIds, hcopied, hcounter, append_assoc]
          rfl
        · rw [h.created, hcreated, hdocs, append_assoc]
          rfl
        · cases i with
          | zero =>
            rw [h.frame _ (by omega), hmessages, HashMap.getElem?_insert, if_pos (by omega), Option.bind_some,
              messageUid, hdata]
            simp
          | succ i =>
            have huid := h.uid i (by rw [length_cons] at hi; omega)
            rw [hdocs, hcounter] at huid
            rw [← Nat.add_assoc, Nat.add_right_comm _ i 1, ← Nat.add_assoc, Nat.add_right_comm _ i 1]
            exact huid
        · rw [h.frame doc (by omega), hmessages, HashMap.getElem?_insert, if_neg (by omega)]
      · have hvisit : visit c source p e = p := by
          unfold visit copyMessage
          rw [hsize]
          dsimp only
          rw [if_pos hquota]
        rw [if_neg hquota, hvisit]
        exact ih p

theorem find?_zip {l r : List ℕ} (hnodup : l.Nodup) (hlen : r.length = l.length) {i a b : ℕ} (ha : l[i]? = some a)
    (hb : r[i]? = some b) : (l.zip r).find? (fun e => e.1 == a) = some (a, b) := by
  induction l generalizing r i with
  | nil => cases ha
  | cons x l ih =>
    cases r with
    | nil => cases hlen
    | cons y r =>
      rw [zip_cons_cons]
      cases i with
      | zero =>
        obtain rfl := Option.some.inj ha
        obtain rfl := Option.some.inj hb
        exact find?_cons_of_pos (by simp)
      | succ i =>
        have hne : x ≠ a := fun heq => (nodup_cons.mp hnodup).1 (heq ▸ mem_of_getElem? ha)
        rw [find?_cons_of_neg (by simpa using hne)]
        exact ih (nodup_cons.mp hnodup).2 (Nat.succ.inj hlen) ha hb

/-- **To another account** the response is faithful if and only if the messages that can be copied ascend. -/
theorem response_iff (hids : Session c.ids) (messages : HashMap ℕ MessageData) (target : TargetAccount) :
    Faithful c.ids (fun _ => False) (placed c (progress c source target)) (copyMove c source messages target).2 ↔
      ((accepted source target.quotas c.ids).map Prod.snd).Pairwise (· < ·) := by
  obtain ⟨es, hes⟩ : ∃ es, es = accepted source target.quotas c.ids := ⟨_, rfl⟩
  have hsub : es.Sublist c.ids := hes ▸ accepted_sublist _ _
  have h : Copied c es ⟨target, [], [], []⟩ (progress c source target) := by
    rw [hes]
    exact foldl_visit c.ids ⟨target, [], [], []⟩
  have hcopied := h.copiedIds
  have hcreated := h.created
  have hlen (n : ℕ) : (List.range' n es.length).length = es.length := length_range'
  rw [nil_append] at hcopied hcreated
  have hat (i : ℕ) (e : ℕ × ℕ) (he : es[i]? = some e) :
      placed c (progress c source target) e.1 = (List.range' (target.counters c.dest + 1) es.length)[i]? := by
    have hi := (List.getElem?_eq_some_iff.mp he).1
    have hdoc : (List.range' (target.documentIds + 1) es.length)[i]? = some (target.documentIds + 1 + i) := by
      rw [getElem?_range' hi, Nat.one_mul]
    unfold placed
    rw [hcreated, find?_zip (hids.documents.sublist (hsub.map _)) (by rw [hlen, length_map])
      (by rw [getElem?_map, he]; rfl) hdoc, Option.bind_some, h.uid i hi, getElem?_range' hi, Nat.one_mul]
  have hnone (e : ℕ × ℕ) (he : e ∈ c.ids) (hnot : e ∉ es) : placed c (progress c source target) e.1 = none := by
    have hfind : (progress c source target).created.find? (fun d => d.1 == e.1) = none := by
      rw [hcreated, find?_eq_none]
      intro d hd heq
      rw [beq_iff_eq] at heq
      obtain ⟨e', he', hfst⟩ := mem_map.mp (of_mem_zip (a := d.1) (b := d.2) hd).1
      exact hnot (inj_on_of_nodup_map hids.documents (hsub.subset he') he (hfst.trans heq) ▸ he')
    unfold placed
    rw [hfind]
    rfl
  have hpairs := pairs_iff hids hsub pairwise_lt_range' (hlen _) hat
  rw [← hes]
  unfold copyMove CopyUid.ofCopied
  dsimp only
  rw [hcopied, map_fst_zip (by rw [length_map, hlen]), map_snd_zip (by rw [length_map, hlen])]
  constructor
  · exact fun hf => hpairs.mp hf.pair
  · intro hasc
    refine ⟨by simp [length_mergeSort], ?_, hpairs.mpr hasc, fun e he => ?_⟩
    · exact (mergeSort_perm _ _).nodup_iff.mpr (hids.uids.sublist (hsub.map _))
    · rw [mem_mergeSort]
      constructor
      · intro hmem
        obtain ⟨e', he', heq⟩ := mem_map.mp hmem
        obtain rfl := inj_on_of_nodup_map hids.uids (hsub.subset he') he heq
        obtain ⟨i, hi⟩ := mem_iff_getElem?.mp he'
        refine ⟨id, ?_⟩
        rw [hat i e' hi, getElem?_range' (List.getElem?_eq_some_iff.mp hi).1]
        rfl
      · rintro ⟨-, hsome⟩
        by_contra hnot
        rw [hnone e he fun hmem => hnot (mem_map_of_mem hmem)] at hsome
        cases hsome

end Other

/-! ## Both -/

/-- Whether the destination is in the account of the source, and what is known of it. -/
inductive Destination where
  | same (counters : UidCounters)
  | other (source : Other.Source) (target : TargetAccount)

section

variable (c : Command) (messages : HashMap ℕ MessageData)

def copyMove : Destination → Changes × CopyUid
  | .same counters => Same.copyMove c messages counters
  | .other source target => Other.copyMove c source messages target

/-- The message, or its copy, is in the destination before the command: no copy is. -/
def Destination.wasIn : Destination → ℕ → Prop
  | .same _ => Same.wasIn c messages
  | .other .. => fun _ => False

def Destination.placed : Destination → ℕ → Option ℕ
  | .same counters => Same.placed c messages (Same.copyMove c messages counters).1
  | .other source target => Other.placed c (Other.progress c source target)

/-- Within an account, that the messages are orderly, if there is something to do; to another account, that those that can
be copied come in the order of their UIDs. -/
def Destination.Orderly : Destination → Prop
  | .same _ => c.src = c.dest ∨ Same.Orderly c messages
  | .other source target => ((Other.accepted source target.quotas c.ids).map Prod.snd).Pairwise (· < ·)

theorem Same.faithful_of_eq {counters : UidCounters} (h : c.src = c.dest) :
    Faithful c.ids (Same.wasIn c messages) (Same.placed c messages (Same.copyMove c messages counters).1)
      (Same.copyMove c messages counters).2 := by
  unfold Same.copyMove
  rw [if_pos h]
  have hsrc : (CopyUid.ofCopied []).srcUids = [] := mergeSort_nil
  have hdest : (CopyUid.ofCopied []).destUids = [] := mergeSort_nil
  refine ⟨by rw [hsrc, hdest], by rw [hsrc]; exact nodup_nil, ?_, fun e _ => ?_⟩
  · intro i s hs
    rw [hsrc] at hs
    cases hs
  · rw [hsrc]
    refine ⟨fun hmem => absurd hmem not_mem_nil, fun ⟨hnot, hsome⟩ => absurd ?_ hnot⟩
    unfold Same.wasIn
    change ((messages[e.1]?).bind fun data => data.messageUid c.dest).isSome = true at hsome
    cases hdata : messages[e.1]? with
    | none => rw [hdata] at hsome; cases hsome
    | some data =>
      rw [hdata, Option.bind_some, Same.messageUid_isSome] at hsome
      exact hsome

/-- **The response of COPY and MOVE** says which message got which UID if and only if the command is orderly. -/
theorem copyUid_iff (hids : Session c.ids) (d : Destination) :
    Faithful c.ids (d.wasIn c messages) (d.placed c messages) (copyMove c messages d).2 ↔ d.Orderly c messages := by
  cases d with
  | same counters =>
    by_cases heq : c.src = c.dest
    · exact iff_of_true (Same.faithful_of_eq c messages heq) (.inl heq)
    · exact (Same.response_iff hids heq).trans (or_iff_right heq).symm
  | other source target => exact Other.response_iff hids messages target

end

/-! ### Two messages -/

/-- Two messages of the mailbox 5, to be copied to the mailbox 7. -/
def twoMessages : HashMap ℕ MessageData :=
  ((∅ : HashMap ℕ MessageData).insert 1 ⟨[⟨5, 10⟩], [], 1, 100⟩).insert 2 ⟨[⟨5, 11⟩], [], 2, 100⟩

def copyOf (ids : List (ℕ × ℕ)) : Command := ⟨false, 5, 7, ids⟩

theorem faithful_ascending : Faithful [(1, 10), (2, 11)] ((Destination.same fun _ => 0).wasIn (copyOf [(1, 10), (2, 11)]) twoMessages)
    ((Destination.same fun _ => 0).placed (copyOf [(1, 10), (2, 11)]) twoMessages)
    (copyMove (copyOf [(1, 10), (2, 11)]) twoMessages (.same fun _ => 0)).2 := by
  refine (copyUid_iff (copyOf [(1, 10), (2, 11)]) twoMessages ⟨by decide, by decide⟩ _).mpr (.inr ⟨?_, by decide⟩)
  intro e he data hdata _
  have hcases : data = ⟨[⟨5, 10⟩], [], 1, 100⟩ ∨ data = ⟨[⟨5, 11⟩], [], 2, 100⟩ := by
    unfold twoMessages at hdata
    rw [HashMap.getElem?_insert, HashMap.getElem?_insert] at hdata
    split_ifs at hdata
    · exact .inr (Option.some.inj hdata).symm
    · exact .inl (Option.some.inj hdata).symm
    · cases hdata
  rcases hcases with rfl | rfl <;> decide

/-- When the hash map has the second message first, it gets the lower UID, and the response says that the first one has. -/
theorem not_faithful_descending : ¬ ∀ (c : Command) (messages : HashMap ℕ MessageData) (d : Destination), Session c.ids →
    Faithful c.ids (d.wasIn c messages) (d.placed c messages) (copyMove c messages d).2 := by
  intro h
  have hanswer : (copyMove (copyOf [(2, 11), (1, 10)]) twoMessages (.same fun _ => 0)).2 = ⟨[10, 11], [1, 2]⟩ := by
    have hcopied : (Same.progress (copyOf [(2, 11), (1, 10)]) twoMessages fun _ => 0).copiedIds = [(11, 1), (10, 2)] := by
      decide
    show CopyUid.ofCopied (Same.progress (copyOf [(2, 11), (1, 10)]) twoMessages fun _ => 0).copiedIds = _
    rw [hcopied]
    simp [CopyUid.ofCopied, List.mergeSort]
  have hfaithful := h (copyOf [(2, 11), (1, 10)]) twoMessages (.same fun _ => 0) ⟨by decide, by decide⟩
  rw [hanswer] at hfaithful
  obtain ⟨e, he, huid, hplaced⟩ := hfaithful.pair 0 10 rfl
  have hfirst : e = (1, 10) := by
    rcases mem_cons.mp he with rfl | he
    · exact absurd huid (by decide)
    · exact mem_singleton.mp he
  subst hfirst
  exact absurd hplaced (by decide)

end MailServer.Imap.CopyMove
