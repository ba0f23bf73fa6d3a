import MailServer.Dav.CopyMove.Children

/-!
# Requests of a calendar

* `ContainerWrites`: what is written for a calendar that is copied or moved.
* `Destination`: the calendar that it becomes, and the events that are there.
* `copyContainer_done_iff`, `renameContainer_done`: the two actions.
-/

namespace MailServer.Dav.CopyMove

open MailServer.Common MailServer.Utils MailServer.Groupware MailServer.Lib List Account

variable {I : Type} {h : ArchiveHash I} {r : Request} {s s₁ s' : Accounts I} {documentId toDocumentId : ℕ}
  {overwritten : List ℕ} {ops childOps : List (Op I)} {copies : List (Copy I)} {newCalendar : Calendar}

/-! ## Writes -/

theorem writes_calendar (h : ArchiveHash I) (a accountId : UInt32) (id : ℕ) (current changes : Option Calendar)
    (ops : List (Op I)) : (calendars h accountId).writes (.calendar a id current changes :: ops) =
      (if a = accountId then [(id, changes)] else []) ++ (calendars h accountId).writes ops := by
  unfold Archives.writes calendars
  by_cases heq : a = accountId
  · simp [heq]
  · simp [heq]

theorem events_calendar (h : ArchiveHash I) (a accountId : UInt32) (id : ℕ) (current changes : Option Calendar)
    (ops : List (Op I)) :
    (events h accountId).writes (.calendar a id current changes :: ops) = (events h accountId).writes ops := rfl

/-- What is written for a calendar: events of the destination are deleted, and those of the source are copied. -/
structure ContainerWrites (h : ArchiveHash I) (r : Request) (s : Accounts I) (documentId toDocumentId : ℕ)
    (newCalendar : Calendar) (overwritten : List ℕ) (ops childOps : List (Op I)) : Prop where
  events : ∀ accountId, (events h accountId).writes ops =
    (events h accountId).writes (deleteEvents (s r.toAccountId) r.toAccountId overwritten toDocumentId) ++
      (events h accountId).writes childOps
  calendars : ∀ accountId (m : HashMap ℕ Calendar) (id : ℕ), (m.putAll ((calendars h accountId).writes ops))[id]? =
    if accountId = r.toAccountId ∧ id = toDocumentId then some newCalendar
    else if r.isMove = true ∧ accountId = r.fromAccountId ∧ id = documentId then none
    else m[id]?
  reads : ∀ read : ℕ → Option (CalendarEvent I),
    (CopyMove.events h r.toAccountId).Reads read (deleteEvents (s r.toAccountId) r.toAccountId overwritten toDocumentId) →
      (CopyMove.events h r.toAccountId).Reads read childOps → (CopyMove.events h r.toAccountId).Reads read ops

theorem reads_calendar {accountId a : UInt32} {id : ℕ} {current changes : Option Calendar}
    {read : ℕ → Option (CalendarEvent I)} (hread : (events h accountId).Reads read ops) :
    (events h accountId).Reads read (.calendar a id current changes :: ops) := by
  intro op hop id' current' changes' hwrite
  rcases mem_cons.mp hop with rfl | hop
  · cases hwrite
  · exact hread op hop id' current' changes' hwrite

theorem containerWrites_of_parts (hs : ∀ accountId, Consistent (s accountId)) (calendar : Calendar) (delete : Option Calendar)
    (hchildren : ∀ accountId, (calendars h accountId).writes childOps = []) :
    ContainerWrites h r s documentId toDocumentId newCalendar overwritten
      ((if r.isMove then [.calendar r.fromAccountId documentId (some calendar) none] else []) ++
        (deleteEvents (s r.toAccountId) r.toAccountId overwritten toDocumentId ++
          delete.toList.map fun c => .calendar r.toAccountId toDocumentId (some c) none) ++
        .calendar r.toAccountId toDocumentId none (some newCalendar) :: childOps) childOps := by
  refine ⟨fun accountId => ?_, fun accountId m id => ?_, fun read hdelete hchild => ?_⟩
  · rw [Archives.writes_append, Archives.writes_append, Archives.writes_append, events_calendar]
    have hremove : (events h accountId).writes (if r.isMove then
        [.calendar r.fromAccountId documentId (some calendar) none] else []) = [] := by
      split_ifs <;> rfl
    have hold : (events h accountId).writes
        (delete.toList.map fun c => .calendar r.toAccountId toDocumentId (some c) none) = [] := by
      cases delete <;> rfl
    rw [hremove, hold, append_nil, nil_append]
  · rw [Archives.writes_append, Archives.writes_append, Archives.writes_append, writes_calendar, hchildren,
      calendars_deleteEvents (hs _), append_nil, nil_append]
    have hremove : (calendars h accountId).writes (if r.isMove then
        [.calendar r.fromAccountId documentId (some calendar) none] else []) =
          if r.isMove = true ∧ r.fromAccountId = accountId then [(documentId, none)] else [] := by
      by_cases hmove : r.isMove = true
      · rw [if_pos hmove, writes_calendar]
        simp only [hmove, true_and]
        exact append_nil _
      · rw [if_neg hmove, if_neg fun h => hmove h.1]
        rfl
    have hold : (calendars h accountId).writes
        (delete.toList.map fun c => .calendar r.toAccountId toDocumentId (some c) none) =
          if r.toAccountId = accountId then delete.toList.map fun _ => (toDocumentId, none) else [] := by
      cases delete with
      | none => exact (ite_self _).symm
      | some c => exact (writes_calendar h _ _ _ _ _ []).trans (append_nil _)
    have hremoved : ((if r.isMove = true ∧ r.fromAccountId = accountId then [(documentId, none)] else []).foldl
        HashMap.put m)[id]? = if r.isMove = true ∧ accountId = r.fromAccountId ∧ id = documentId then none else m[id]? := by
      by_cases hfrom : r.isMove = true ∧ r.fromAccountId = accountId
      · rw [if_pos hfrom, foldl_cons, foldl_nil, HashMap.getElem?_put]
        refine if_congr ?_ rfl rfl
        exact ⟨fun heq => ⟨hfrom.1, hfrom.2.symm, heq.symm⟩, fun h => h.2.2.symm⟩
      · rw [if_neg hfrom, if_neg fun h => hfrom ⟨h.1, h.2.1.symm⟩]
        rfl
    have hskip (m' : HashMap ℕ Calendar) (hid : toDocumentId ≠ id) :
        ((delete.toList.map fun _ => (toDocumentId, none)).foldl HashMap.put m')[id]? = m'[id]? := by
      cases delete with
      | none => rfl
      | some c =>
        show (m'.put (toDocumentId, none))[id]? = _
        rw [HashMap.getElem?_put, if_neg hid]
    rw [hremove, hold, HashMap.putAll, foldl_append, foldl_append]
    by_cases hto : r.toAccountId = accountId
    · rw [if_pos hto, if_pos hto, foldl_cons, foldl_nil, HashMap.getElem?_put]
      by_cases hid : toDocumentId = id
      · rw [if_pos hid, if_pos ⟨hto.symm, hid.symm⟩]
      · rw [if_neg hid, hskip _ hid, hremoved]
        exact (if_neg fun h => hid h.2.symm).symm
    · rw [if_neg hto, if_neg hto, foldl_nil, foldl_nil, hremoved]
      exact (if_neg fun h => hto h.1.symm).symm
  · have hnil : (events h r.toAccountId).Reads read [] := fun _ => nofun
    refine reads_append (reads_append ?_ (reads_append hdelete ?_)) (reads_calendar hchild)
    · split_ifs
      · exact reads_calendar hnil
      · exact hnil
    · cases delete with
      | none => exact hnil
      | some c => exact reads_calendar hnil

/-- The id of a calendar that is there, or the next one. -/
def destinationId (a : Account I) (toDocumentId : Option ℕ) : ℕ := toDocumentId.getD (a.nextCalendarId + 1)

variable {server : Server I} {fromChildrenIds toChildrenIds : List ℕ} {newName : String}

/-- **What is written** when a calendar is copied or moved. -/
theorem copyContainer_writes {toDocumentId : Option ℕ} (h : ArchiveHash I)
    (hs : ∀ accountId, Consistent (s accountId))
    (hplan : ContainerPlan r s documentId fromChildrenIds toDocumentId toChildrenIds newName)
    (hwrites : copyContainer server r s documentId fromChildrenIds toDocumentId toChildrenIds newName r.isMove =
      .ok (s₁, ops)) :
    ∃ newCalendar childOps copies, newCalendar.name = r.toPath.calendar ∧ Same s s₁ ∧
      ContainerWrites h r s documentId (destinationId (s r.toAccountId) toDocumentId) newCalendar toChildrenIds ops childOps ∧
      ChildrenCopied h r s documentId (destinationId (s r.toAccountId) toDocumentId) (s r.toAccountId).nextEventId
        fromChildrenIds childOps copies := by
  obtain ⟨calendar, hcalendar, -⟩ := isNamed_iff.mp hplan.source
  unfold copyContainer at hwrites
  rw [hcalendar] at hwrites
  cases toDocumentId with
  | some toDocumentId =>
    obtain ⟨hnamed, -⟩ := hplan.overwritten toDocumentId rfl
    obtain ⟨old, hold, -⟩ := isNamed_iff.mp hnamed
    dsimp only at hwrites
    rw [hold] at hwrites
    obtain ⟨copies, hsame, hcopied⟩ := copyChildren_copied (r := r) h hs (.refl s) documentId toDocumentId fromChildrenIds
    split at hwrites
    · cases hwrites
    obtain ⟨rfl, rfl⟩ := Prod.mk.inj (Except.ok.inj hwrites)
    exact ⟨_, _, copies, hplan.name, hsame, containerWrites_of_parts hs calendar (some old) hcopied.others, hcopied⟩
  | none =>
    have hassign := same_assignCalendarId s r.toAccountId
    obtain ⟨copies, hsame, hcopied⟩ := copyChildren_copied (r := r) h hs hassign documentId
      (assignCalendarId s r.toAccountId).1 fromChildrenIds
    dsimp only at hwrites
    split at hwrites
    · cases hwrites
    obtain ⟨rfl, rfl⟩ := Prod.mk.inj (Except.ok.inj hwrites)
    have hnext : ((assignCalendarId s r.toAccountId).2 r.toAccountId).nextEventId = (s r.toAccountId).nextEventId := by
      unfold assignCalendarId
      dsimp only
      rw [Function.update_self]
    rw [hnext] at hcopied
    rw [(hplan.vacant rfl).2]
    exact ⟨_, _, copies, hplan.name, hsame, containerWrites_of_parts hs calendar none hcopied.others, hcopied⟩

theorem davName_eq {n m : DavName} (hname : n.name = m.name) (hparent : n.parentId = m.parentId) : n = m := by
  rw [DavName.mk.injEq]
  exact ⟨hname, hparent⟩

/-! ## Destination -/

/-- The calendar that is to be at the destination, and the events that are in it. -/
structure Destination (r : Request) (s : Accounts I) (documentId toDocumentId : ℕ) (overwritten : List ℕ) : Prop where
  linked : ∀ id, id ∈ overwritten ↔ ∃ n ∈ (s r.toAccountId).names id, n.parentId = toDocumentId
  named : ∀ name, (s r.toAccountId).isNamed toDocumentId name = true → name = r.toPath.calendar
  only : ∀ id, (s r.toAccountId).isNamed id r.toPath.calendar = true → id = toDocumentId
  nodup : overwritten.Nodup
  apart : r.fromAccountId = r.toAccountId → documentId ≠ toDocumentId

theorem destination_of_plan {toDocumentId : Option ℕ} (hs : ∀ accountId, Consistent (s accountId))
    (hcounted : ∀ accountId, Counted (s accountId))
    (hplan : ContainerPlan r s documentId fromChildrenIds toDocumentId toChildrenIds newName) :
    Destination r s documentId (destinationId (s r.toAccountId) toDocumentId) toChildrenIds := by
  cases toDocumentId with
  | some toDocumentId =>
    obtain ⟨hnamed, rfl⟩ := hplan.overwritten toDocumentId rfl
    refine ⟨fun id => ?_, fun name hname => isNamed_inj hname hnamed, fun id hid => (hs _).eq_of_isNamed hid hnamed,
      nodup_subtree _ _, fun hto heq => hplan.paths hto ?_⟩
    · rw [mem_subtree]
      refine exists_congr fun n => and_congr_right fun _ => ⟨fun h => (hs _).eq_of_isNamed h hnamed, fun h => ?_⟩
      rw [h]
      exact hnamed
    · have hsource := hplan.source
      rw [hto, heq] at hsource
      exact isNamed_inj hsource hnamed
  | none =>
    obtain ⟨hvacant, rfl⟩ := hplan.vacant rfl
    have hfresh : (s r.toAccountId).calendars[destinationId (s r.toAccountId) none]? = none := by
      cases hc : (s r.toAccountId).calendars[destinationId (s r.toAccountId) none]? with
      | none => rfl
      | some c => exact absurd ((hcounted _).calendars _ c hc) (Nat.not_succ_le_self _)
    refine ⟨fun id => iff_of_false not_mem_nil ?_, fun name hname => ?_, fun id hid => ?_, nodup_nil,
      fun hto heq => ?_⟩
    · rintro ⟨n, hn, hparent⟩
      obtain ⟨c, hc⟩ := (hs _).exist id n hn
      rw [hparent, hfresh] at hc
      cases hc
    · obtain ⟨c, hc, -⟩ := isNamed_iff.mp hname
      rw [hfresh] at hc
      cases hc
    · rw [hvacant] at hid
      cases hid
    · obtain ⟨c, hc, -⟩ := isNamed_iff.mp hplan.source
      rw [hto, heq, hfresh] at hc
      cases hc

section

variable {fromChildrenIds : List ℕ} (hs : ∀ accountId, Consistent (s accountId))
  (hsource : (s r.fromAccountId).isNamed documentId r.fromPath.calendar = true)
  (hd : Destination r s documentId toDocumentId overwritten)
  (hcopied : ChildrenCopied h r s documentId toDocumentId (s r.toAccountId).nextEventId fromChildrenIds childOps copies)

include hs hd hcopied in
theorem copies_of_children (hcounted : ∀ accountId, Counted (s accountId)) (hnodup : fromChildrenIds.Nodup) :
    Copies r s copies overwritten documentId toDocumentId := by
  have hsources := hnodup.sublist hcopied.sources
  refine ⟨hcopied.event, fun c hc => ⟨(hcopied.name c hc).1, (hcopied.name c hc).2.1⟩, fun c hc => ⟨?_, ?_⟩, hsources, ?_, ?_,
    fun c hc id hn => (hd.linked id).mpr ⟨c.targetName, hn, ?_⟩⟩
  · rw [(hcopied.name c hc).2.2]
  · have htarget := hcopied.target c hc
    split_ifs at htarget ⊢
    · exact htarget
    · exact (hcounted _).fresh htarget
  · by_cases hto : r.fromAccountId = r.toAccountId
    · have heq : copies.map Copy.target = copies.map Copy.source := by
        refine map_congr_left fun c hc => ?_
        have htarget := hcopied.target c hc
        rw [if_pos hto] at htarget
        exact htarget
      rw [heq]
      exact hsources
    · exact hcopied.targets hto
  · refine (nodup_map_iff_inj_on (List.Nodup.of_map _ hsources)).mpr fun c hc c' hc' heq => ?_
    obtain ⟨hn, hparent, hname⟩ := hcopied.name c hc
    obtain ⟨hn', hparent', hname'⟩ := hcopied.name c' hc'
    rw [hname, hname', DavName.mk.injEq] at heq
    have hsame : c.sourceName = c'.sourceName := davName_eq heq.1 (hparent.trans hparent'.symm)
    refine inj_on_of_nodup_map hsources hc hc' ((hs r.fromAccountId).unique _ _ c.sourceName ?_ ?_)
    · rw [names_eq (hcopied.event c hc)]
      exact hn
    · rw [names_eq (hcopied.event c' hc'), hsame]
      exact hn'
  · rw [(hcopied.name c hc).2.2]

/-! ## Names and calendars -/

/-- Where calendars are afterwards. -/
def Replaced (r : Request) (s s' : Accounts I) (documentId toDocumentId : ℕ) (newCalendar : Calendar) : Prop :=
  ∀ accountId (id : ℕ), (s' accountId).calendars[id]? =
    if accountId = r.toAccountId ∧ id = toDocumentId then some newCalendar
    else if r.isMove = true ∧ accountId = r.fromAccountId ∧ id = documentId then none
    else (s accountId).calendars[id]?

variable (hcalendars : Replaced r s s' documentId toDocumentId newCalendar) (hname : newCalendar.name = r.toPath.calendar)

include hcalendars hname

theorem isNamed_replaced (accountId : UInt32) (id : ℕ) (name : String) : (s' accountId).isNamed id name = true ↔
    (accountId = r.toAccountId ∧ id = toDocumentId ∧ name = r.toPath.calendar) ∨
      ¬ (accountId = r.toAccountId ∧ id = toDocumentId) ∧
        ¬ (r.isMove = true ∧ accountId = r.fromAccountId ∧ id = documentId) ∧ (s accountId).isNamed id name = true := by
  rw [isNamed_iff, isNamed_iff, hcalendars]
  by_cases hto : accountId = r.toAccountId ∧ id = toDocumentId
  · rw [if_pos hto]
    constructor
    · rintro ⟨c, hc, rfl⟩
      obtain rfl := Option.some.inj hc
      exact .inl ⟨hto.1, hto.2, hname⟩
    · rintro (⟨-, -, rfl⟩ | ⟨hnot, -⟩)
      · exact ⟨newCalendar, rfl, hname⟩
      · exact absurd hto hnot
  · rw [if_neg hto]
    by_cases hmoved : r.isMove = true ∧ accountId = r.fromAccountId ∧ id = documentId
    · rw [if_pos hmoved]
      constructor
      · rintro ⟨c, hc, -⟩
        cases hc
      · rintro (⟨ha, hid, -⟩ | ⟨-, hnot, -⟩)
        · exact absurd ⟨ha, hid⟩ hto
        · exact absurd hmoved hnot
    · rw [if_neg hmoved]
      constructor
      · exact fun h => .inr ⟨hto, hmoved, h⟩
      · rintro (⟨ha, hid, -⟩ | ⟨-, -, h⟩)
        · exact absurd ⟨ha, hid⟩ hto
        · exact h

include hs hsource hd

theorem places_of_replaced {newName : String} {toDocument : Option ℕ} {toChildrenIds : List ℕ}
    (hplan : ContainerPlan r s documentId fromChildrenIds toDocument toChildrenIds newName)
    (hnames : ∀ c ∈ copies, c.targetName = ⟨c.sourceName.name, toDocumentId⟩)
    (hcomplete : r.isMove = true → ∀ id, ∀ n ∈ (s r.fromAccountId).names id, n.parentId = documentId →
      ∃ c ∈ copies, c.source = id ∧ c.sourceName = n)
    (hapart : ∀ c ∈ copies, c.target ∉ overwritten) : Places r s s' copies overwritten documentId toDocumentId := by
  have hnamed := isNamed_replaced hcalendars hname
  refine ⟨hsource, (hnamed _ _ _).mpr (.inl ⟨rfl, rfl, rfl⟩), fun hmove name id _ hn => ?_, fun hmove id hid => ?_,
    fun hto name _ c hc heq => ?_, fun hcopy id c hc => ?_, fun _ hto name id _ _ heq => absurd heq (hd.apart hto),
    fun accountId calendar hfrom hto id => ?_, fun id n calendarId hid hn _ => ?_⟩
  · obtain ⟨c, hc, hid, hsourceName⟩ := hcomplete hmove id _ hn rfl
    refine ⟨c, hc, hid, hsourceName, ?_⟩
    rw [hnames c hc, hsourceName, hplan.toItem]
    rfl
  · rcases (hnamed _ _ _).mp hid with ⟨hto, -, heq⟩ | ⟨-, hnot, hid⟩
    · exact absurd heq (hplan.paths hto)
    · exact absurd ⟨hmove, rfl, (hs _).eq_of_isNamed hid hsource⟩ hnot
  · rw [hnames c hc, DavName.mk.injEq] at heq
    exact hd.apart hto heq.2.symm
  · rw [hcalendars]
    by_cases hto : r.fromAccountId = r.toAccountId ∧ id = toDocumentId
    · rw [if_pos hto]
      constructor
      · intro h
        obtain rfl := Option.some.inj h
        exact absurd (hc.symm.trans hname) (hplan.paths hto.1)
      · intro h
        rw [hto.1, hto.2] at h
        have hnamed' := hd.named c.name (isNamed_iff.mpr ⟨c, h, rfl⟩)
        exact absurd (hc.symm.trans hnamed') (hplan.paths hto.1)
    · rw [if_neg hto, if_neg fun h => by rw [hcopy] at h; exact Bool.false_ne_true h.1]
  · rw [Bool.eq_iff_iff, hnamed]
    constructor
    · rintro (⟨rfl, -, rfl⟩ | ⟨-, -, h⟩)
      · exact absurd rfl hto
      · exact h
    · intro h
      refine .inr ⟨fun heq => hto ?_, fun heq => hfrom ?_, h⟩
      · rw [heq.1, heq.2] at h
        rw [heq.1, hd.named calendar h]
      · rw [heq.2.1, heq.2.2] at h
        rw [heq.2.1, isNamed_inj h hsource]
  · obtain rfl := hd.only calendarId hid
    have hover := (hd.linked id).mpr ⟨_, hn, rfl⟩
    exact ⟨rfl, hover, fun c hc heq => hapart c hc (heq ▸ hover)⟩

omit hsource in
/-- **Names stay consistent** when all the events of a calendar that is moved go with it. -/
theorem consistent_of_replaced (hc : Copies r s copies overwritten documentId toDocumentId)
    (hcomplete : r.isMove = true → ∀ id, ∀ n ∈ (s r.fromAccountId).names id, n.parentId = documentId →
      ∃ c ∈ copies, c.source = id ∧ c.sourceName = n)
    (hapart : ∀ c ∈ copies, c.target ∉ overwritten)
    (he : ∀ accountId, Edits (s accountId) (s' accountId) (kept r copies overwritten toDocumentId accountId)
      (added r copies accountId)) (accountId : UInt32) : Consistent (s' accountId) := by
  refine consistent_of_edits hc (fun hto c hmem m hm hparent => ?_) (hs accountId) (he accountId) (fun id n hn => ?_)
    fun id id' c c' h h' heq => ?_
  · -- an event of both calendars would be overwritten
    have htarget := (hc.target c hmem).2
    rw [if_pos hto] at htarget
    refine absurd ((hd.linked c.target).mpr ⟨m, ?_, hparent⟩) (hapart c hmem)
    rw [htarget, ← hto, names_eq (hc.event c hmem)]
    exact hm
  · rw [hcalendars]
    by_cases hto : accountId = r.toAccountId ∧ n.parentId = toDocumentId
    · rw [if_pos hto]
      exact ⟨newCalendar, rfl⟩
    · rw [if_neg hto]
      rcases (he accountId).mem.mp hn with ⟨hn, hkeep⟩ | ⟨ev, hadd⟩
      · rw [if_neg]
        · exact (hs accountId).exist id n hn
        · rintro ⟨hmove, rfl, hparent⟩
          obtain ⟨c, hmem, hid, hsourceName⟩ := hcomplete hmove id n hn hparent
          exact kept_iff.mp hkeep (.inl ⟨hmove, rfl, c, hmem, hid, hsourceName⟩)
      · obtain ⟨ha, c, hmem, -, rfl, -⟩ := (added_eq_some hc).mp hadd
        exact absurd ⟨ha, (hc.target c hmem).1⟩ hto
  · have hnamed := isNamed_replaced hcalendars hname
    have hid := (hnamed accountId id c.name).mp (isNamed_iff.mpr ⟨c, h, rfl⟩)
    have hid' := (hnamed accountId id' c.name).mp (isNamed_iff.mpr ⟨c', h', heq.symm⟩)
    rcases hid with ⟨ha, rfl, hto⟩ | ⟨hnot, -, hold⟩
    · rcases hid' with ⟨-, rfl, -⟩ | ⟨hnot', -, hold'⟩
      · rfl
      · rw [ha, hto] at hold'
        exact absurd ⟨ha, hd.only id' hold'⟩ hnot'
    · rcases hid' with ⟨ha, rfl, hto⟩ | ⟨hnot', -, hold'⟩
      · rw [ha, hto] at hold
        exact absurd ⟨ha, hd.only id hold⟩ hnot
      · exact (hs accountId).eq_of_isNamed hold hold'

end

/-! ## Actions -/

/-- **COPY and MOVE of a calendar** do what they should when a calendar with events is not moved to its own id in another
account. -/
theorem copyContainer_done_iff {toDocumentId : Option ℕ}
    (hs : ∀ accountId, Consistent (s accountId)) (hcounted : ∀ accountId, Counted (s accountId))
    (hplan : ContainerPlan r s documentId fromChildrenIds toDocumentId toChildrenIds newName)
    (hwrites : copyContainer server r s documentId fromChildrenIds toDocumentId toChildrenIds newName r.isMove =
      .ok (s₁, ops)) (htell : (events h r.toAccountId).HashesTell ops)
    (hok : applyAll (apply h) ops s₁ = some s') :
    Done r s s' ↔ (r.isMove = true → r.fromAccountId ≠ r.toAccountId →
      documentId = destinationId (s r.toAccountId) toDocumentId →
        ∀ id, ∀ n ∈ (s r.fromAccountId).names id, n.parentId ≠ documentId) := by
  obtain ⟨newCalendar, childOps, copies, hname, hsame, hw, hcopied⟩ := copyContainer_writes h hs hplan hwrites
  have hd := destination_of_plan hs hcounted hplan
  have hnodup : fromChildrenIds.Nodup := by
    rcases hplan.children with rfl | ⟨-, rfl⟩
    · exact nodup_subtree _ _
    · exact nodup_nil
  have hc := copies_of_children hs hd hcopied hcounted hnodup
  have hperm (accountId : UInt32) := List.Perm.of_eq (hw.events accountId)
  have honce (accountId : UInt32) : (((events h accountId).writes ops).map Prod.fst).Nodup := by
    by_cases hto : r.fromAccountId = r.toAccountId
    · exact nodup_same hto hcopied.writes (hs _) hperm (hw.reads _ (reads_deleteEvents (hs _)) (hcopied.reads hto)) htell hok
        accountId
    · exact nodup_other hto hs hcopied.writes hc hperm hd.nodup accountId
  have hall := writes_of_perm hs hcopied.writes hperm (fun id hid => (hd.linked id).mp hid) honce
  have hedits := edits_of_writes hok hsame.events hs hc hall
  have hcalendars : Replaced r s s' documentId (destinationId (s r.toAccountId) toDocumentId) newCalendar := by
    intro accountId id
    refine ((calendars h accountId).getElem?_of_applyAll hok id).trans ((hw.calendars accountId _ id).trans ?_)
    rw [← hsame.calendars accountId]
    rfl
  constructor
  · intro hdone hmove hto heq id n hn hparent
    have hkept : kept r copies toChildrenIds (destinationId (s r.toAccountId) toDocumentId) r.fromAccountId id n = true := by
      rw [kept_iff, hcopied.skipped heq]
      rintro (⟨-, -, c, hmem, -⟩ | ⟨hsame', -⟩)
      · cases hmem
      · exact hto hsame'
    obtain ⟨calendar, hcalendar⟩ := (hdone.consistent _).exist id n ((hedits _).mem.mpr (.inl ⟨hn, hkept⟩))
    rw [hcalendars, if_neg fun h => hto h.1, if_pos ⟨hmove, rfl, hparent⟩] at hcalendar
    cases hcalendar
  · intro hfits
    have hcomplete (hmove : r.isMove = true) (id : ℕ) (n : DavName) (hn : n ∈ (s r.fromAccountId).names id)
        (hparent : n.parentId = documentId) : ∃ c ∈ copies, c.source = id ∧ c.sourceName = n := by
      have hne : documentId ≠ destinationId (s r.toAccountId) toDocumentId := by
        intro heq
        by_cases hto : r.fromAccountId = r.toAccountId
        · exact hd.apart hto heq
        · exact hfits hmove hto heq id n hn hparent
      refine hcopied.complete hne id ?_ n hn hparent
      rcases hplan.children with rfl | ⟨hcopy, -⟩
      · exact mem_subtree.mpr ⟨n, hn, hparent ▸ hplan.source⟩
      · rw [hmove] at hcopy
        cases hcopy
    refine done_of_edits hs (consistent_of_replaced hs hd hcalendars hname hc hcomplete hall.apart hedits) hc ?_ hedits
    exact places_of_replaced hs hplan.source hd hcalendars hname hplan (fun c hmem => (hcopied.name c hmem).2.2) hcomplete
      hall.apart

/-- **MOVE of a calendar within its account** does what it should. -/
theorem renameContainer_done (hs : ∀ accountId, Consistent (s accountId)) (hmove : r.isMove = true)
    (hto : r.fromAccountId = r.toAccountId)
    (hplan : ContainerPlan r s documentId fromChildrenIds none toChildrenIds newName)
    (hwrites : renameContainer r s documentId newName = .ok (s₁, ops))
    (hok : applyAll (apply h) ops s₁ = some s') : Done r s s' := by
  obtain ⟨calendar, hcalendar, -⟩ := isNamed_iff.mp hplan.source
  unfold renameContainer at hwrites
  rw [hcalendar] at hwrites
  obtain ⟨rfl, rfl⟩ := Prod.mk.inj (Except.ok.inj hwrites)
  have hevents (accountId : UInt32) (id : ℕ) : (s' accountId).events[id]? = (s accountId).events[id]? :=
    (events h accountId).getElem?_of_applyAll hok id
  have hnames (accountId : UInt32) (id : ℕ) : (s' accountId).names id = (s accountId).names id := by
    unfold names
    rw [hevents]
  have hcontent (accountId : UInt32) (id : ℕ) : (s' accountId).content id = (s accountId).content id := by
    unfold content
    rw [hevents]
  have hcalendars : Replaced r s s' documentId documentId { calendar with name := newName } := by
    intro accountId id
    refine ((calendars h accountId).getElem?_of_applyAll hok id).trans ?_
    rw [writes_calendar]
    by_cases ha : r.fromAccountId = accountId
    · rw [if_pos ha]
      show ((s accountId).calendars.put (documentId, some { calendar with name := newName }))[id]? = _
      rw [HashMap.getElem?_put]
      by_cases hid : documentId = id
      · rw [if_pos hid, if_pos ⟨ha.symm.trans hto, hid.symm⟩]
      · rw [if_neg hid, if_neg fun h => hid h.2.symm, if_neg fun h => hid h.2.2.symm]
    · rw [if_neg ha, if_neg fun h => ha (hto.trans h.1.symm), if_neg fun h => ha h.2.1.symm]
      rfl
  obtain ⟨hvacant, -⟩ := hplan.vacant rfl
  have hnamed (accountId : UInt32) (id : ℕ) (name : String) : (s' accountId).isNamed id name = true ↔
      (accountId = r.toAccountId ∧ id = documentId ∧ name = r.toPath.calendar) ∨
        ¬ (accountId = r.toAccountId ∧ id = documentId) ∧ (s accountId).isNamed id name = true := by
    rw [isNamed_replaced hcalendars hplan.name, ← hto]
    exact or_congr_right (and_congr_right fun hnot => and_iff_right fun h => hnot h.2)
  have hsource := hplan.source
  rw [hto] at hsource
  refine ⟨fun accountId => ⟨fun id id' n hn hn' => ?_, fun id => ?_, fun id n hn => ?_, fun id id' c c' hc hc' heq => ?_⟩,
    fun _ name ev _ h => ?_, fun _ => ?_, fun hcopy => ?_, fun accountId calendar hfrom hdest name ev => ?_,
    fun id n calendarId hid => ?_⟩
  · rw [hnames] at hn hn'
    exact (hs accountId).unique id id' n hn hn'
  · rw [hnames]
    exact (hs accountId).once id
  · rw [hnames] at hn
    obtain ⟨c, hc⟩ := (hs accountId).exist id n hn
    have hold := isNamed_iff.mpr ⟨c, hc, rfl⟩
    by_cases hid : accountId = r.toAccountId ∧ n.parentId = documentId
    · obtain ⟨c', hc', -⟩ := isNamed_iff.mp ((hnamed _ _ _).mpr (.inl ⟨hid.1, hid.2, rfl⟩))
      exact ⟨c', hc'⟩
    · obtain ⟨c', hc', -⟩ := isNamed_iff.mp ((hnamed _ _ _).mpr (.inr ⟨hid, hold⟩))
      exact ⟨c', hc'⟩
  · have hid := (hnamed accountId id c.name).mp (isNamed_iff.mpr ⟨c, hc, rfl⟩)
    have hid' := (hnamed accountId id' c.name).mp (isNamed_iff.mpr ⟨c', hc', heq.symm⟩)
    rcases hid with ⟨ha, rfl, hcal⟩ | ⟨-, hold⟩
    · rcases hid' with ⟨-, rfl, -⟩ | ⟨-, hold'⟩
      · rfl
      · rw [ha, hcal, hvacant] at hold'
        cases hold'
    · rcases hid' with ⟨ha, -, hcal⟩ | ⟨-, hold'⟩
      · rw [ha, hcal, hvacant] at hold
        cases hold
      · exact (hs accountId).eq_of_isNamed hold hold'
  · obtain ⟨id, calendarId, hn, hid, hev⟩ := h
    rw [hto] at hn hid hev
    obtain rfl := (hs _).eq_of_isNamed hid hsource
    rw [hplan.toItem]
    refine ⟨id, calendarId, ?_, (hnamed _ _ _).mpr (.inl ⟨rfl, rfl, rfl⟩), ?_⟩
    · rw [hnames]
      exact hn
    · rw [hcontent]
      exact hev
  · have hpath : r.fromPath = ⟨r.fromPath.calendar, none⟩ := by rw [← hplan.fromItem]
    rw [hpath, hto]
    refine byPath_calendar_none.mpr fun id => ?_
    rw [← Bool.not_eq_true, hnamed]
    rintro (⟨-, -, heq⟩ | ⟨hnot, hold⟩)
    · exact hplan.paths hto heq
    · exact hnot ⟨rfl, (hs _).eq_of_isNamed hold hsource⟩
  · rw [hmove] at hcopy
    cases hcopy
  · refine exists_congr fun id => exists_congr fun calendarId => ?_
    rw [hnames, hcontent, hnamed]
    refine and_congr_right fun _ => and_congr_left fun _ => ⟨?_, fun hid => ?_⟩
    · rintro (⟨rfl, -, rfl⟩ | ⟨-, hold⟩)
      · exact absurd rfl hdest
      · exact hold
    · refine .inr ⟨?_, hid⟩
      rintro ⟨rfl, rfl⟩
      rw [isNamed_inj hid hsource] at hfrom
      exact hfrom (by rw [hto])
  · rw [hvacant] at hid
    cases hid

end MailServer.Dav.CopyMove
