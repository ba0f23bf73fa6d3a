import MailServer.Dav.CopyMove.Events
import MailServer.Dav.CopyMove.Plan

/-!
# Requests of one event

* `copyEvent_done_iff`, `moveEvent_done_iff`, `renameEvent_done`: the three actions.
-/

namespace MailServer.Dav.CopyMove

open MailServer.Common MailServer.Utils MailServer.Groupware MailServer.Lib List Option Account

variable {I : Type}

/-! ## Documents that are assigned -/

/-- The same calendars and events; the counters may have grown. -/
structure Same (s s₁ : Accounts I) : Prop where
  calendars : ∀ accountId, (s₁ accountId).calendars = (s accountId).calendars
  events : ∀ accountId, (s₁ accountId).events = (s accountId).events
  next : ∀ accountId, (s accountId).nextEventId ≤ (s₁ accountId).nextEventId

theorem Same.refl (s : Accounts I) : Same s s := ⟨fun _ => rfl, fun _ => rfl, fun _ => le_rfl⟩

theorem Same.trans {s s₁ s₂ : Accounts I} (h : Same s s₁) (h' : Same s₁ s₂) : Same s s₂ :=
  ⟨fun a => (h'.calendars a).trans (h.calendars a), fun a => (h'.events a).trans (h.events a),
    fun a => (h.next a).trans (h'.next a)⟩

theorem same_assignEventId (s : Accounts I) (accountId : UInt32) : Same s (assignEventId s accountId).2 := by
  refine ⟨fun a => ?_, fun a => ?_, fun a => ?_⟩ <;> simp only [assignEventId, Function.update_apply] <;> split_ifs with heq
  · rw [heq]
  · rfl
  · rw [heq]
  · rfl
  · rw [heq]
    exact Nat.le_succ _
  · exact le_rfl

theorem same_assignCalendarId (s : Accounts I) (accountId : UInt32) : Same s (assignCalendarId s accountId).2 := by
  refine ⟨fun a => ?_, fun a => ?_, fun a => ?_⟩ <;> simp only [assignCalendarId, Function.update_apply] <;>
    split_ifs with heq
  · rw [heq]
  · rfl
  · rw [heq]
  · rfl
  · rw [heq]
  · exact le_rfl

theorem Counted.fresh {a : Account I} (ha : Counted a) {id : ℕ} (hid : a.nextEventId < id) : a.events[id]? = none := by
  cases he : a.events[id]? with
  | none => rfl
  | some e =>
    have hle := ha.events id e he
    omega

section

variable {h : ArchiveHash I} {r : Request} {s s₁ s' : Accounts I} {documentId fromCalendarId toCalendarId : ℕ}
  {toDocumentId : Option ℕ} {newName : String} {ops copyOps : List (Op I)} {c : Copy I}

/-! ## Names and calendars -/

/-- Where the copy of an event is from, and what it is. -/
structure IsItem (r : Request) (c : Copy I) (documentId fromCalendarId toCalendarId : ℕ) (newName : String) : Prop where
  source : c.source = documentId
  sourceName : r.fromPath.item = some c.sourceName.name ∧ c.sourceName.parentId = fromCalendarId
  targetName : c.targetName = ⟨newName, toCalendarId⟩

section

variable (hs : ∀ accountId, Consistent (s accountId))
  (hplan : EventPlan r s documentId fromCalendarId toDocumentId toCalendarId newName)
  (hc : IsItem r c documentId fromCalendarId toCalendarId newName)
include hs hplan hc

theorem copies_of_plan
    (hevent : (s r.fromAccountId).events[documentId]? = some c.event)
    (htarget : if r.fromAccountId = r.toAccountId then c.target = c.source else (s r.toAccountId).events[c.target]? = none) :
    Copies r s [c] toDocumentId.toList fromCalendarId toCalendarId := by
  obtain ⟨item, hitem, hn⟩ := hplan.item
  rw [names_eq hevent] at hn
  have hname : c.sourceName = ⟨item, fromCalendarId⟩ := by
    rcases hsource : c.sourceName with ⟨name, parentId⟩
    have hsourceName := hc.sourceName
    rw [hsource, hitem] at hsourceName
    rw [some.inj hsourceName.1, ← hsourceName.2]
  refine ⟨fun c' hc' => ?_, fun c' hc' => ?_, fun c' hc' => ?_, nodup_singleton _, nodup_singleton _,
    nodup_singleton _, fun c' hc' id hid => ?_⟩ <;> obtain rfl := mem_singleton.mp hc'
  · rw [hc.source]
    exact hevent
  · rw [hname]
    exact ⟨hn, rfl⟩
  · exact ⟨by rw [hc.targetName], htarget⟩
  · rw [hc.targetName] at hid
    cases toDocumentId with
    | none => exact absurd hid (hplan.vacant rfl id)
    | some o =>
      rw [(hs _).unique id o _ hid (hplan.overwritten o rfl)]
      exact mem_singleton.mpr rfl

theorem places_of_plan
    (htarget : r.fromAccountId = r.toAccountId → c.target = c.source) (hapart : c.target ∉ toDocumentId.toList)
    (hsame : ∀ accountId (id : ℕ), (s' accountId).calendars[id]? = (s accountId).calendars[id]?) :
    Places r s s' [c] toDocumentId.toList fromCalendarId toCalendarId := by
  have hnamed (accountId : UInt32) (id : ℕ) (name : String) : (s' accountId).isNamed id name = (s accountId).isNamed id name := by
    unfold isNamed
    rw [hsame]
  obtain ⟨item, hitem, hn⟩ := hplan.item
  have hitem' := some.inj (hitem.symm.trans hc.sourceName.1)
  have hcovers {name : String} (h : r.fromPath.covers name) : name = item := by
    rcases h with h | h
    · rw [hitem] at h
      cases h
    · exact some.inj (h.symm.trans hitem)
  have hsource {id : ℕ} (h : ⟨item, fromCalendarId⟩ ∈ (s r.fromAccountId).names id) : c.source = id := by
    rw [hc.source]
    exact (hs _).unique documentId id _ hn h
  refine ⟨hplan.source, (hnamed _ _ _).trans hplan.dest, fun _ name id hname hid => ?_, fun _ id hid => ?_,
    fun hto name hname c' hc' heq => ?_, fun _ id c' _ => by rw [hsame], fun _ hto name id hname hid _ => ?_,
    fun accountId calendar _ _ id => hnamed _ _ _, fun id n calendarId hid hn' hto => ?_⟩
  · obtain rfl := hcovers hname
    refine ⟨c, mem_singleton.mpr rfl, hsource hid, ?_, ?_⟩
    · rw [hitem', ← hc.sourceName.2]
    · rw [hplan.toItem]
      exact hc.targetName
  · rw [hnamed] at hid
    exact ⟨(hs _).eq_of_isNamed hid hplan.source, by rw [hitem]; nofun⟩
  · obtain rfl := hcovers hname
    obtain rfl := mem_singleton.mp hc'
    obtain ⟨rfl, rfl⟩ := DavName.mk.inj (hc.targetName.symm.trans heq)
    have hcalendar := hplan.source
    rw [hto] at hcalendar
    exact hplan.paths hto (Path.ext (isNamed_inj hcalendar hplan.dest) (hitem.trans hplan.toItem.symm))
  · obtain rfl := hcovers hname
    rw [← hsource hid, ← htarget hto]
    exact hapart
  · obtain rfl := (hs _).eq_of_isNamed hid hplan.dest
    have hname : n = newName := by
      rcases hto with h | h
      · rw [hplan.toItem] at h
        cases h
      · exact some.inj (h.symm.trans hplan.toItem)
    subst hname
    cases toDocumentId with
    | none => exact absurd hn' (hplan.vacant rfl id)
    | some o =>
      obtain rfl := (hs _).unique id o _ hn' (hplan.overwritten o rfl)
      refine ⟨rfl, mem_singleton.mpr rfl, fun c' hc' heq => hapart ?_⟩
      obtain rfl := mem_singleton.mp hc'
      exact mem_singleton.mpr heq

end

theorem calendars_of_events (hok : applyAll (apply h) ops s₁ = some s') (hsame : Same s s₁)
    (hops : ∀ accountId, (calendars h accountId).writes ops = []) (accountId : UInt32) (id : ℕ) :
    (s' accountId).calendars[id]? = (s accountId).calendars[id]? := by
  have hget := (calendars h accountId).getElem?_of_applyAll hok id
  rw [hops] at hget
  rw [← hsame.calendars]
  exact hget

/-- **A batch that copies or moves an event** does what it should exactly when the event has no other name in the
destination. -/
theorem done_iff_single (hs : ∀ accountId, Consistent (s accountId))
    (hplan : EventPlan r s documentId fromCalendarId toDocumentId toCalendarId newName)
    (hc : IsItem r c documentId fromCalendarId toCalendarId newName)
    (hevent : (s r.fromAccountId).events[documentId]? = some c.event)
    (htarget : if r.fromAccountId = r.toAccountId then c.target = c.source else (s r.toAccountId).events[c.target]? = none)
    (hw : Writes h r s ops [c] toDocumentId.toList toCalendarId) (hok : applyAll (apply h) ops s₁ = some s')
    (hsame : Same s s₁) (hops : ∀ accountId, (calendars h accountId).writes ops = []) :
    Done r s s' ↔ Single r [c] toCalendarId := by
  have hcopies := copies_of_plan hs hplan hc hevent htarget
  have hcalendars := calendars_of_events hok hsame hops
  have hplaces := places_of_plan hs hplan hc (fun hto => by rw [if_pos hto] at htarget; exact htarget)
    (hw.apart c (mem_singleton.mpr rfl)) hcalendars
  have hedits := edits_of_writes hok hsame.events hs hcopies hw
  constructor
  · exact fun hdone => single_of_consistent hcopies hw.apart (hedits _) (hdone.consistent _)
  · intro hsingle
    refine done_of_edits hs (fun accountId => ?_) hcopies hplaces hedits
    refine consistent_of_edits hcopies hsingle (hs accountId) (hedits accountId) (fun id n hn => ?_) fun id id' c c' h h' => ?_
    · rw [hcalendars]
      rcases (hedits accountId).mem.mp hn with ⟨hn, -⟩ | ⟨ev, hadd⟩
      · exact (hs accountId).exist id n hn
      · obtain ⟨rfl, c', hc', -, rfl, -⟩ := (added_eq_some hcopies).mp hadd
        rw [(hcopies.target c' hc').1]
        obtain ⟨calendar, hcalendar, -⟩ := isNamed_iff.mp hplan.dest
        exact ⟨calendar, hcalendar⟩
    · rw [hcalendars] at h h'
      exact (hs accountId).named id id' c c' h h'

/-! ## Writes -/

theorem overwriteEvent_eq : overwriteEvent r s toCalendarId toDocumentId =
    deleteEvents (s r.toAccountId) r.toAccountId toDocumentId.toList toCalendarId := by
  cases toDocumentId with
  | none => rfl
  | some id => exact (append_nil _).symm

theorem calendars_deleteEvents {a : Account I} (ha : Consistent a) (accountId accountId' : UInt32) (ids : List ℕ)
    (calendarId : ℕ) : (calendars h accountId').writes (deleteEvents a accountId ids calendarId) = [] := by
  refine eq_nil_iff_forall_not_mem.mpr fun w hw => ?_
  obtain ⟨op, hop, current, hwrite⟩ := (Archives.mem_writes _).mp hw
  obtain ⟨id, event, changes, -, -, rfl⟩ := mem_deleteEvents ha hop
  cases hwrite

theorem reads_deleteEvents {a : Account I} (ha : Consistent a) {accountId : UInt32} {ids : List ℕ} {calendarId : ℕ} :
    (events h accountId).Reads (fun id => a.events[id]?) (deleteEvents a accountId ids calendarId) := by
  intro op hop id current changes hwrite
  obtain ⟨id', event, changes', -, hevent, rfl⟩ := mem_deleteEvents ha hop
  dsimp only [events] at hwrite
  obtain ⟨rfl, rfl, rfl⟩ : id' = id ∧ some event = current ∧ changes' = changes := by simpa using hwrite
  exact ⟨event, rfl, hevent⟩

theorem reads_append {accountId : UInt32} {read : ℕ → Option (CalendarEvent I)}
    (hread : (events h accountId).Reads read ops) (hread' : (events h accountId).Reads read copyOps) :
    (events h accountId).Reads read (ops ++ copyOps) :=
  fun op hop => (mem_append.mp hop).elim (hread op) (hread' op)

theorem calendars_event (accountId a : UInt32) (id : ℕ) (current changes : Option (CalendarEvent I)) (ops : List (Op I)) :
    (calendars h accountId).writes (.event a id current changes :: ops) = (calendars h accountId).writes ops := rfl

/-- **Within an account** a copy and the event that it overwrites. -/
theorem done_same_iff (hs : ∀ accountId, Consistent (s accountId)) (hto : r.fromAccountId = r.toAccountId)
    (hplan : EventPlan r s documentId fromCalendarId toDocumentId toCalendarId newName)
    (hc : IsItem r c documentId fromCalendarId toCalendarId newName) {changes : Option (CalendarEvent I)}
    (hsource : c.target = c.source) (hcopy : IsCopy r c changes)
    (hevent : (s r.fromAccountId).events[documentId]? = some c.event)
    (hops : ops = .event r.fromAccountId c.source (some c.event) changes :: overwriteEvent r s toCalendarId toDocumentId)
    (htell : (events h r.toAccountId).HashesTell ops) (hok : applyAll (apply h) ops s = some s') :
    Done r s s' ↔ Single r [c] toCalendarId := by
  rw [overwriteEvent_eq, ← singleton_append] at hops
  have hperm : Replaces h r s ops [.event r.fromAccountId c.source (some c.event) changes] toDocumentId.toList
      toCalendarId := hops ▸ replaces_append
  have hcopies := copyWrites_same (h := h) hto hsource hcopy
  have hread : (events h r.toAccountId).Reads (fun id => (s r.toAccountId).events[id]?) ops := by
    rw [hops]
    refine reads_append (fun op hop id current changes' hwrite => ?_) (reads_deleteEvents (hs _))
    rw [mem_singleton.mp hop] at hwrite
    dsimp only [events] at hwrite
    rw [if_pos hto] at hwrite
    obtain ⟨rfl, rfl, -⟩ : c.source = id ∧ some c.event = current ∧ changes = changes' := by simpa using hwrite
    exact ⟨c.event, rfl, by rw [← hto, hc.source, hevent]⟩
  have hw : Writes h r s ops [c] toDocumentId.toList toCalendarId :=
    writes_of_perm hs hcopies hperm (fun id hid => ⟨_, hplan.overwritten id (mem_toList.mp hid), rfl⟩)
      (nodup_same hto hcopies (hs _) hperm hread htell hok)
  refine done_iff_single hs hplan hc hevent (by rw [if_pos hto, hsource]) hw hok (.refl s) fun accountId => ?_
  rw [hops, singleton_append, calendars_event, calendars_deleteEvents (hs _)]

/-- **To another account** a copy, the original if it is moved, and the event that is overwritten. -/
theorem done_other (hs : ∀ accountId, Consistent (s accountId)) (hcounted : ∀ accountId, Counted (s accountId))
    (hto : r.fromAccountId ≠ r.toAccountId)
    (hplan : EventPlan r s documentId fromCalendarId toDocumentId toCalendarId newName) {item : String}
    {event : CalendarEvent I} (hitem : r.fromPath.item = some item)
    (hevent : (s r.fromAccountId).events[documentId]? = some event) (hn : ⟨item, fromCalendarId⟩ ∈ event.names)
    (hops : ops = (if r.isMove then deleteEvent r.fromAccountId documentId event fromCalendarId else []) ++
      .event r.toAccountId (assignEventId s r.toAccountId).1 none (some { event with names := [⟨newName, toCalendarId⟩] }) ::
        overwriteEvent r s toCalendarId toDocumentId)
    (hok : applyAll (apply h) ops (assignEventId s r.toAccountId).2 = some s') : Done r s s' := by
  let c : Copy I := ⟨documentId, ⟨item, fromCalendarId⟩, event, (assignEventId s r.toAccountId).1, ⟨newName, toCalendarId⟩⟩
  have hnodup := (hs r.fromAccountId).once documentId
  rw [names_eq hevent] at hnodup
  have htarget : if r.fromAccountId = r.toAccountId then c.target = c.source else
      (s r.toAccountId).events[c.target]? = none := by
    rw [if_neg hto]
    exact (hcounted _).fresh (Nat.lt_succ_self _)
  have hc := copies_of_plan (c := c) hs hplan ⟨rfl, ⟨hitem, rfl⟩, rfl⟩ hevent htarget
  have hcopy := copyWrites_other (h := h) (r := r) (c := c)
    { event with names := [⟨newName, toCalendarId⟩] } hto hnodup hn rfl rfl
  rw [overwriteEvent_eq, ← singleton_append, ← append_assoc] at hops
  have hids : toDocumentId.toList.Nodup := by
    cases toDocumentId with
    | none => exact nodup_nil
    | some id => exact nodup_singleton id
  have hperm : Replaces h r s ops _ toDocumentId.toList toCalendarId := hops ▸ replaces_append
  have hw : Writes h r s ops [c] toDocumentId.toList toCalendarId :=
    writes_of_perm hs hcopy hperm (fun id hid => ⟨_, hplan.overwritten id (mem_toList.mp hid), rfl⟩)
      (nodup_other hto hs hcopy hc hperm hids)
  refine (done_iff_single hs hplan ⟨rfl, ⟨hitem, rfl⟩, rfl⟩ hevent htarget hw hok (same_assignEventId s _)
    fun accountId => ?_).mpr fun h => absurd h hto
  have hdelete : deleteEvent r.fromAccountId documentId event fromCalendarId =
      deleteEvents (s r.fromAccountId) r.fromAccountId [documentId] fromCalendarId := by
    rw [deleteEvents, flatMap_singleton, hevent]
  rw [hops, Archives.writes_append, Archives.writes_append, calendars_deleteEvents (hs _)]
  split_ifs
  · rw [hdelete, calendars_deleteEvents (hs _)]
    rfl
  · rfl

/-! ## Actions -/

section

variable {server : Server I} (hs : ∀ accountId, Consistent (s accountId))
  (hcounted : ∀ accountId, Counted (s accountId))
include hs hcounted

/-- **COPY of an event** does what it should when the event is not copied to a calendar of its own. -/
theorem copyEvent_done_iff (hcopy : r.isMove = false)
    (hplan : EventPlan r s documentId fromCalendarId toDocumentId toCalendarId newName)
    (hwrites : copyEvent server r s documentId toDocumentId toCalendarId newName = .ok (s₁, ops))
    (htell : (events h r.toAccountId).HashesTell ops) (hok : applyAll (apply h) ops s₁ = some s') :
    Done r s s' ↔
      (r.fromAccountId = r.toAccountId → ∀ m ∈ (s r.fromAccountId).names documentId, m.parentId ≠ toCalendarId) := by
  obtain ⟨item, hitem, hn⟩ := hplan.item
  obtain ⟨event, hevent, hn⟩ := mem_names.mp hn
  unfold copyEvent at hwrites
  rw [hevent] at hwrites
  dsimp only at hwrites
  rw [names_eq hevent]
  split_ifs at hwrites with huid hto
  · obtain ⟨rfl, rfl⟩ := Prod.mk.inj (Except.ok.inj hwrites)
    let c : Copy I := ⟨documentId, ⟨item, fromCalendarId⟩, event, documentId, ⟨newName, toCalendarId⟩⟩
    have hiscopy : IsCopy r c (some { event with names := event.names ++ [⟨newName, toCalendarId⟩] }) := by
      refine ⟨?_, fun e he => by rw [← some.inj he]⟩
      rw [if_pos hto, filter_eq_self.mpr fun n _ => by simp [hcopy]]
      exact List.Perm.refl _
    rw [done_same_iff (c := c) hs hto hplan ⟨rfl, ⟨hitem, rfl⟩, rfl⟩ rfl hiscopy hevent rfl htell hok]
    refine imp_congr_right fun _ => ⟨fun h m hm heq => ?_, fun h c' hc' m hm heq => ?_⟩
    · have hmove := (h c (mem_singleton.mpr rfl) m hm heq).1
      rw [hcopy] at hmove
      cases hmove
    · obtain rfl := mem_singleton.mp hc'
      exact absurd heq (h m hm)
  · obtain ⟨rfl, rfl⟩ := Prod.mk.inj (Except.ok.inj hwrites)
    exact iff_of_true (done_other hs hcounted hto hplan hitem hevent hn (by rw [hcopy]; rfl) hok) fun h => absurd h hto

/-- **MOVE of an event** does what it should when the event is not moved to another calendar of its own. -/
theorem moveEvent_done_iff (hmove : r.isMove = true)
    (hplan : EventPlan r s documentId fromCalendarId toDocumentId toCalendarId newName)
    (hwrites : moveEvent server r s documentId fromCalendarId toDocumentId toCalendarId newName = .ok (s₁, ops))
    (htell : (events h r.toAccountId).HashesTell ops) (hok : applyAll (apply h) ops s₁ = some s') :
    Done r s s' ↔ (r.fromAccountId = r.toAccountId → fromCalendarId = toCalendarId ∨
      ∀ m ∈ (s r.fromAccountId).names documentId, m.parentId ≠ toCalendarId) := by
  obtain ⟨item, hitem, hn⟩ := hplan.item
  obtain ⟨event, hevent, hn⟩ := mem_names.mp hn
  have hnodup := (hs r.fromAccountId).once documentId
  rw [names_eq hevent] at hnodup
  unfold moveEvent at hwrites
  rw [hevent] at hwrites
  dsimp only at hwrites
  rw [names_eq hevent]
  split_ifs at hwrites with htag huid hto
  · cases hidx : event.names.findIdx? fun n => n.parentId == fromCalendarId with
    | none => rw [hidx] at hwrites; cases hwrites
    | some nameIdx =>
      rw [hidx] at hwrites
      obtain ⟨rfl, rfl⟩ := Prod.mk.inj (Except.ok.inj hwrites)
      let c : Copy I := ⟨documentId, ⟨item, fromCalendarId⟩, event, documentId, ⟨newName, toCalendarId⟩⟩
      have hiscopy : IsCopy r c
          (some { event with names := swapRemove event.names nameIdx ++ [⟨newName, toCalendarId⟩] }) := by
        refine ⟨?_, fun e he => by rw [← some.inj he]⟩
        rw [if_pos hto]
        refine ((swapRemove_filter hnodup hidx).trans (List.Perm.of_eq ?_)).append_right _
        exact filter_congr fun n _ => by simp [hmove, c]
      rw [done_same_iff (c := c) hs hto hplan ⟨rfl, ⟨hitem, rfl⟩, rfl⟩ rfl hiscopy hevent rfl htell hok]
      refine imp_congr_right fun _ => ⟨fun h => ?_, fun h c' hc' m hm heq => ?_⟩
      · by_cases hids : fromCalendarId = toCalendarId
        · exact .inl hids
        · refine .inr fun m hm heq => hids ?_
          rw [(h c (mem_singleton.mpr rfl) m hm heq).2] at heq
          exact heq
      · obtain rfl := mem_singleton.mp hc'
        rcases h with hids | hnone
        · exact ⟨hmove, (eq_of_parentId hnodup hm hn).mp (heq.trans hids.symm)⟩
        · exact absurd heq (hnone m hm)
  · obtain ⟨rfl, rfl⟩ := Prod.mk.inj (Except.ok.inj hwrites)
    exact iff_of_true (done_other hs hcounted hto hplan hitem hevent hn (by rw [hmove]; rfl) hok) fun h => absurd h hto

end

theorem modify_perm {names : List DavName} {i : ℕ} (hnodup : (names.map DavName.parentId).Nodup)
    (hidx : names.findIdx? (fun n => n.parentId == fromCalendarId) = some i) (newName : String) :
    (names.modify i fun n => { n with name := newName }).Perm
      (names.filter (fun n => n.parentId ≠ fromCalendarId) ++ [⟨newName, fromCalendarId⟩]) := by
  obtain ⟨x, hx, hid⟩ := getElem?_of_findIdx? hidx
  obtain ⟨hi, hget⟩ := List.getElem?_eq_some_iff.mp hx
  have herase : (names.eraseIdx i).Perm (swapRemove names i) := by
    have hperm := getElem_cons_eraseIdx_perm hi
    rw [hget] at hperm
    exact (hperm.trans (swapRemove_perm hx).symm).cons_inv
  have hlen : i < (names.modify i fun n => { n with name := newName }).length := by
    rw [length_modify]
    exact hi
  have hperm := getElem_cons_eraseIdx_perm hlen
  rw [getElem_modify_eq, eraseIdx_modify_of_eq, hget, hid] at hperm
  calc (names.modify i fun n => { n with name := newName }).Perm (⟨newName, fromCalendarId⟩ :: names.eraseIdx i) := hperm.symm
    _ |>.Perm (⟨newName, fromCalendarId⟩ :: names.filter fun n => n.parentId ≠ fromCalendarId) :=
        (herase.trans (swapRemove_filter hnodup hidx)).cons _
    _ |>.Perm _ := (perm_append_singleton _ _).symm

/-- **MOVE of an event within a calendar** does what it should. -/
theorem renameEvent_done (hs : ∀ accountId, Consistent (s accountId)) (hmove : r.isMove = true)
    (hto : r.fromAccountId = r.toAccountId) (hplan : EventPlan r s documentId fromCalendarId none fromCalendarId newName)
    (hwrites : renameEvent r s documentId fromCalendarId newName = .ok (s₁, ops))
    (htell : (events h r.toAccountId).HashesTell ops) (hok : applyAll (apply h) ops s₁ = some s') : Done r s s' := by
  obtain ⟨item, hitem, hn⟩ := hplan.item
  obtain ⟨event, hevent, hn⟩ := mem_names.mp hn
  have hnodup := (hs r.fromAccountId).once documentId
  rw [names_eq hevent] at hnodup
  unfold renameEvent at hwrites
  rw [hevent] at hwrites
  dsimp only at hwrites
  cases hidx : event.names.findIdx? fun n => n.parentId == fromCalendarId with
  | none => rw [hidx] at hwrites; cases hwrites
  | some nameIdx =>
    rw [hidx] at hwrites
    obtain ⟨rfl, rfl⟩ := Prod.mk.inj (Except.ok.inj hwrites)
    let c : Copy I := ⟨documentId, ⟨item, fromCalendarId⟩, event, documentId, ⟨newName, fromCalendarId⟩⟩
    have hiscopy : IsCopy r c
        (some { event with names := event.names.modify nameIdx fun n => { n with name := newName } }) := by
      refine ⟨?_, fun e he => by rw [← some.inj he]⟩
      rw [if_pos hto]
      refine (modify_perm hnodup hidx newName).trans (List.Perm.append_right _ (List.Perm.of_eq ?_))
      exact filter_congr fun n _ => by simp [hmove, c]
    refine (done_same_iff (c := c) hs hto hplan ⟨rfl, ⟨hitem, rfl⟩, rfl⟩ rfl hiscopy hevent rfl htell hok).mpr
      fun _ c' hc' m hm heq => ?_
    obtain rfl := mem_singleton.mp hc'
    exact ⟨hmove, (eq_of_parentId hnodup hm hn).mp heq⟩

end

end MailServer.Dav.CopyMove
