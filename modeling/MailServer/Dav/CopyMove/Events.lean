import MailServer.Dav.CopyMove.Transfer

/-!
# Events that are copied and moved

* `writes_same`, `writes_other`: what is written for an event, within an account and to another one.
-/

namespace MailServer.Dav.CopyMove

open MailServer.Common MailServer.Utils MailServer.Groupware MailServer.Lib List Archives

variable {I : Type}

/-! ## Events that are deleted -/

section

variable {h : ArchiveHash I} {a accountId : UInt32} {id : ℕ} {event : CalendarEvent I} {calendarId : ℕ}

theorem deleteEvent_cases (a : UInt32) (id : ℕ) (hnodup : (event.names.map DavName.parentId).Nodup) :
    (deleteEvent a id event calendarId = [] ∧ ∀ n ∈ event.names, n.parentId ≠ calendarId) ∨
      ∃ changes, deleteEvent a id event calendarId = [.event a id (some event) changes] ∧
        IsDelete event calendarId changes := by
  unfold deleteEvent
  cases hidx : event.names.findIdx? fun n => n.parentId == calendarId with
  | none =>
    refine .inl ⟨rfl, fun n hn heq => ?_⟩
    have hnone := findIdx?_eq_none_iff.mp hidx n hn
    rw [heq, beq_self_eq_true] at hnone
    cases hnone
  | some deleteIdx =>
    have hperm := swapRemove_filter hnodup hidx
    split_ifs with hlen
    · refine .inr ⟨_, rfl, hperm, fun e he => ?_⟩
      obtain rfl := Option.some.inj he
      rfl
    · refine .inr ⟨_, rfl, ?_, nofun⟩
      obtain ⟨x, hx, hid⟩ := getElem?_of_findIdx? hidx
      have hone : event.names = [x] := by
        have hmem := mem_of_getElem? hx
        obtain ⟨y, hy⟩ := length_eq_one_iff.mp (show event.names.length = 1 by
          have := length_pos_of_mem hmem
          omega)
        rw [hy] at hmem ⊢
        rw [mem_singleton.mp hmem]
      rw [hone, filter_cons_of_neg (by simp [hid])]
      exact List.Perm.refl _

theorem writes_event (h : ArchiveHash I) (a accountId : UInt32) (id : ℕ) (current changes : Option (CalendarEvent I)) :
    (events h accountId).writes [.event a id current changes] = if a = accountId then [(id, changes)] else [] := by
  unfold writes events
  by_cases heq : a = accountId
  · simp [heq]
  · simp [heq]

section

variable (hnodup : (event.names.map DavName.parentId).Nodup)
include hnodup

theorem mem_writes_deleteEvent {id' : ℕ}
    {changes : Option (CalendarEvent I)}
    (hmem : (id', changes) ∈ (events h accountId).writes (deleteEvent a id event calendarId)) :
    a = accountId ∧ id' = id ∧ IsDelete event calendarId changes := by
  rcases deleteEvent_cases a id hnodup with ⟨hnil, -⟩ | ⟨changes', hops, hdelete⟩
  · rw [hnil] at hmem
    cases hmem
  · rw [hops, writes_event] at hmem
    split_ifs at hmem with heq
    · obtain ⟨rfl, rfl⟩ := Prod.mk.inj (mem_singleton.mp hmem)
      exact ⟨heq, rfl, hdelete⟩
    · cases hmem

theorem writes_deleteEvent {n : DavName} (hn : n ∈ event.names)
    (hparent : n.parentId = calendarId) :
    id ∈ ((events h a).writes (deleteEvent a id event calendarId)).map Prod.fst := by
  rcases deleteEvent_cases a id hnodup with ⟨-, hnone⟩ | ⟨changes, hops, -⟩
  · exact absurd hparent (hnone n hn)
  · rw [hops, writes_event, if_pos rfl]
    exact mem_singleton.mpr rfl

theorem nodup_writes_deleteEvent :
    (((events h accountId).writes (deleteEvent a id event calendarId)).map Prod.fst).Nodup := by
  rcases deleteEvent_cases a id hnodup with ⟨hnil, -⟩ | ⟨changes, hops, -⟩
  · rw [hnil]
    exact nodup_nil
  · rw [hops, writes_event]
    split_ifs
    · exact nodup_singleton _
    · exact nodup_nil

theorem mem_deleteEvent {op : Op I}
    (hop : op ∈ deleteEvent a id event calendarId) : ∃ changes, op = .event a id (some event) changes := by
  rcases deleteEvent_cases a id hnodup with ⟨hnil, -⟩ | ⟨changes, hops, -⟩
  · rw [hnil] at hop
    cases hop
  · rw [hops] at hop
    exact ⟨changes, mem_singleton.mp hop⟩

end

end

/-- The deletes of some events. -/
def deleteEvents (a : Account I) (accountId : UInt32) (ids : List ℕ) (calendarId : ℕ) : List (Op I) :=
  ids.flatMap fun id =>
    match a.events[id]? with
    | none => []
    | some event => deleteEvent accountId id event calendarId

section

variable {h : ArchiveHash I} {a : Account I} {accountId accountId' : UInt32} {ids : List ℕ} {calendarId : ℕ}

theorem mem_deleteEvents (ha : Consistent a) {op : Op I} (hop : op ∈ deleteEvents a accountId ids calendarId) :
    ∃ id event changes, id ∈ ids ∧ a.events[id]? = some event ∧ op = .event accountId id (some event) changes := by
  obtain ⟨id, hid, hop⟩ := mem_flatMap.mp hop
  cases hevent : a.events[id]? with
  | none => rw [hevent] at hop; cases hop
  | some event =>
    rw [hevent] at hop
    have hnodup := ha.once id
    rw [Account.names_eq hevent] at hnodup
    obtain ⟨changes, rfl⟩ := mem_deleteEvent hnodup hop
    exact ⟨id, event, changes, hid, hevent, rfl⟩

theorem mem_writes_deleteEvents (ha : Consistent a) {id : ℕ} {changes : Option (CalendarEvent I)}
    (hmem : (id, changes) ∈ (events h accountId').writes (deleteEvents a accountId ids calendarId)) :
    accountId = accountId' ∧ id ∈ ids ∧ ∃ event, a.events[id]? = some event ∧ IsDelete event calendarId changes := by
  obtain ⟨op, hop, current, hwrite⟩ := (mem_writes _).mp hmem
  obtain ⟨id', hid, hop⟩ := mem_flatMap.mp hop
  cases hevent : a.events[id']? with
  | none => rw [hevent] at hop; cases hop
  | some event =>
    rw [hevent] at hop
    have hnodup := ha.once id'
    rw [Account.names_eq hevent] at hnodup
    obtain ⟨rfl, rfl, hdelete⟩ := mem_writes_deleteEvent hnodup ((mem_writes _).mpr ⟨op, hop, current, hwrite⟩)
    exact ⟨rfl, hid, event, hevent, hdelete⟩

theorem writes_deleteEvents (ha : Consistent a) {id : ℕ} (hid : id ∈ ids) {n : DavName} (hn : n ∈ a.names id)
    (hparent : n.parentId = calendarId) :
    id ∈ ((events h accountId).writes (deleteEvents a accountId ids calendarId)).map Prod.fst := by
  obtain ⟨event, hevent, hn⟩ := Account.mem_names.mp hn
  have hnodup := ha.once id
  rw [Account.names_eq hevent] at hnodup
  obtain ⟨w, hw, heq⟩ := mem_map.mp (writes_deleteEvent (h := h) (a := accountId) hnodup hn hparent)
  obtain ⟨op, hop, current, hwrite⟩ := (mem_writes _).mp hw
  refine mem_map.mpr ⟨w, (mem_writes _).mpr ⟨op, mem_flatMap.mpr ⟨id, hid, ?_⟩, current, hwrite⟩, heq⟩
  rw [hevent]
  exact hop

theorem nodup_writes_deleteEvents (ha : Consistent a) (hids : ids.Nodup) :
    (((events h accountId').writes (deleteEvents a accountId ids calendarId)).map Prod.fst).Nodup := by
  induction ids with
  | nil => exact nodup_nil
  | cons id ids ih =>
    obtain ⟨hid, hids⟩ := nodup_cons.mp hids
    show (((events h accountId').writes ((match a.events[id]? with
      | none => []
      | some event => deleteEvent accountId id event calendarId) ++ deleteEvents a accountId ids calendarId)).map
        Prod.fst).Nodup
    rw [writes_append, map_append]
    cases hevent : a.events[id]? with
    | none => exact ih hids
    | some event =>
      have hnodup := ha.once id
      rw [Account.names_eq hevent] at hnodup
      refine nodup_append.mpr ⟨nodup_writes_deleteEvent hnodup, ih hids, fun x hx y hy heq => ?_⟩
      obtain ⟨w, hw, rfl⟩ := mem_map.mp hx
      obtain ⟨w', hw', rfl⟩ := mem_map.mp hy
      obtain ⟨-, hsame, -⟩ := mem_writes_deleteEvent hnodup hw
      obtain ⟨-, hmem, -⟩ := mem_writes_deleteEvents ha hw'
      rw [← heq, hsame] at hmem
      exact hid hmem

end

/-! ## Events that are copied -/

/-- What is written of events that are copied. -/
structure CopyWrites (h : ArchiveHash I) (r : Request) (ops : List (Op I)) (copies : List (Copy I)) : Prop where
  targets : ((events h r.toAccountId).writes ops).map Prod.fst = copies.map Copy.target
  dest : ∀ id changes, (id, changes) ∈ (events h r.toAccountId).writes ops → ∃ c ∈ copies, c.target = id ∧ IsCopy r c changes
  sources : r.fromAccountId ≠ r.toAccountId →
    ((events h r.fromAccountId).writes ops).map Prod.fst = if r.isMove then copies.map Copy.source else []
  source : r.fromAccountId ≠ r.toAccountId → ∀ id changes, (id, changes) ∈ (events h r.fromAccountId).writes ops →
    ∃ c ∈ copies, c.source = id ∧ IsDelete c.event c.sourceName.parentId changes
  other : ∀ accountId, accountId ≠ r.fromAccountId → accountId ≠ r.toAccountId → (events h accountId).writes ops = []

section

variable {h : ArchiveHash I} {r : Request} {s : Accounts I} {ops copyOps : List (Op I)} {copies : List (Copy I)}
  {overwritten : List ℕ} {fromCalendarId toCalendarId : ℕ}

variable (h r s ops copyOps overwritten toCalendarId) in
/-- Every account is written what is deleted to make room, and the copies. -/
def Replaces : Prop :=
  ∀ accountId, ((events h accountId).writes ops).Perm
    ((events h accountId).writes (deleteEvents (s r.toAccountId) r.toAccountId overwritten toCalendarId) ++
      (events h accountId).writes copyOps)

theorem replaces_append : Replaces h r s (copyOps ++ deleteEvents (s r.toAccountId) r.toAccountId overwritten toCalendarId)
    copyOps overwritten toCalendarId := by
  intro accountId
  rw [writes_append]
  exact perm_append_comm

/-- **A batch** of copies and deletes. -/
theorem writes_of_perm (hs : ∀ accountId, Consistent (s accountId)) (hcopy : CopyWrites h r copyOps copies)
    (hperm : Replaces h r s ops copyOps overwritten toCalendarId)
    (hlinked : ∀ id ∈ overwritten, ∃ n ∈ (s r.toAccountId).names id, n.parentId = toCalendarId)
    (hnodup : ∀ accountId, (((events h accountId).writes ops).map Prod.fst).Nodup) :
    Writes h r s ops copies overwritten toCalendarId := by
  have hdelete (id : ℕ) (hid : id ∈ overwritten) : id ∈ ((events h r.toAccountId).writes
      (deleteEvents (s r.toAccountId) r.toAccountId overwritten toCalendarId)).map Prod.fst := by
    obtain ⟨n, hn, hparent⟩ := hlinked id hid
    exact writes_deleteEvents (hs _) hid hn hparent
  have hcopied (c : Copy I) (hc : c ∈ copies) : c.target ∈ ((events h r.toAccountId).writes copyOps).map Prod.fst := by
    rw [hcopy.targets]
    exact mem_map_of_mem hc
  have hall (accountId : UInt32) (id : ℕ) : id ∈ ((events h accountId).writes ops).map Prod.fst ↔
      id ∈ ((events h accountId).writes (deleteEvents (s r.toAccountId) r.toAccountId overwritten toCalendarId)).map Prod.fst ∨
        id ∈ ((events h accountId).writes copyOps).map Prod.fst := by
    rw [((hperm accountId).map Prod.fst).mem_iff, map_append, mem_append]
  refine ⟨fun id changes hmem => ?_, fun c hc => (hall _ _).mpr (.inr (hcopied c hc)),
    fun id hid _ _ _ => (hall _ _).mpr (.inl (hdelete id hid)), fun hto id changes hmem => ?_, fun hto hmove c hc => ?_,
    fun accountId hfrom hto => ?_, hnodup, fun c hc hover => ?_⟩
  · rcases mem_append.mp ((hperm _).mem_iff.mp hmem) with hmem | hmem
    · exact .inr (mem_writes_deleteEvents (hs _) hmem).2
    · exact .inl (hcopy.dest id changes hmem)
  · rcases mem_append.mp ((hperm _).mem_iff.mp hmem) with hmem | hmem
    · exact absurd (mem_writes_deleteEvents (hs _) hmem).1 (Ne.symm hto)
    · refine ⟨?_, hcopy.source hto id changes hmem⟩
      have hid := mem_map_of_mem (f := Prod.fst) hmem
      rw [hcopy.sources hto] at hid
      split_ifs at hid with hmove
      · exact hmove
      · cases hid
  · refine (hall _ _).mpr (.inr ?_)
    rw [hcopy.sources hto, if_pos hmove]
    exact mem_map_of_mem hc
  · refine eq_nil_iff_forall_not_mem.mpr fun w hw => ?_
    rcases mem_append.mp ((hperm _).mem_iff.mp hw) with hw | hw
    · exact hto (mem_writes_deleteEvents (hs _) hw).1.symm
    · rw [hcopy.other accountId hfrom hto] at hw
      cases hw
  · have hdisjoint := ((hperm r.toAccountId).map Prod.fst).nodup_iff.mp (hnodup _)
    rw [map_append] at hdisjoint
    exact disjoint_of_nodup_append hdisjoint (hdelete _ hover) (hcopied c hc)

theorem CopyWrites.nil (h : ArchiveHash I) (r : Request) : CopyWrites h r [] [] :=
  ⟨rfl, nofun, fun _ => by split_ifs <;> rfl, fun _ => nofun, fun _ _ _ => rfl⟩

theorem CopyWrites.append {ops' : List (Op I)} {copies' : List (Copy I)} (hw : CopyWrites h r ops copies)
    (hw' : CopyWrites h r ops' copies') : CopyWrites h r (ops ++ ops') (copies ++ copies') := by
  refine ⟨?_, fun id changes hmem => ?_, fun hto => ?_, fun hto id changes hmem => ?_, fun accountId hfrom hto => ?_⟩
  · rw [writes_append, map_append, hw.targets, hw'.targets, map_append]
  · rw [writes_append] at hmem
    rcases mem_append.mp hmem with hmem | hmem
    · obtain ⟨c, hc, hrest⟩ := hw.dest id changes hmem
      exact ⟨c, mem_append_left _ hc, hrest⟩
    · obtain ⟨c, hc, hrest⟩ := hw'.dest id changes hmem
      exact ⟨c, mem_append_right _ hc, hrest⟩
  · rw [writes_append, map_append, hw.sources hto, hw'.sources hto]
    split_ifs
    · rw [map_append]
    · rfl
  · rw [writes_append] at hmem
    rcases mem_append.mp hmem with hmem | hmem
    · obtain ⟨c, hc, hrest⟩ := hw.source hto id changes hmem
      exact ⟨c, mem_append_left _ hc, hrest⟩
    · obtain ⟨c, hc, hrest⟩ := hw'.source hto id changes hmem
      exact ⟨c, mem_append_right _ hc, hrest⟩
  · rw [writes_append, hw.other accountId hfrom hto, hw'.other accountId hfrom hto]
    rfl

theorem copyWrites_same {c : Copy I} {changes : Option (CalendarEvent I)} (hto : r.fromAccountId = r.toAccountId)
    (htarget : c.target = c.source) (hcopy : IsCopy r c changes) :
    CopyWrites h r [.event r.fromAccountId c.source (some c.event) changes] [c] := by
  refine ⟨?_, fun id changes' hmem => ?_, fun hne => absurd hto hne, fun hne => absurd hto hne, fun accountId hfrom _ => ?_⟩
  · rw [writes_event, if_pos hto]
    show [c.source] = [c.target]
    rw [htarget]
  · rw [writes_event, if_pos hto] at hmem
    obtain ⟨rfl, rfl⟩ := Prod.mk.inj (mem_singleton.mp hmem)
    exact ⟨c, mem_singleton.mpr rfl, htarget, hcopy⟩
  · rw [writes_event, if_neg (Ne.symm hfrom)]

theorem copyWrites_other {c : Copy I} (changes : CalendarEvent I) (hto : r.fromAccountId ≠ r.toAccountId)
    (hnodup : (c.event.names.map DavName.parentId).Nodup) (hname : c.sourceName ∈ c.event.names)
    (hnames : changes.names = [c.targetName]) (hevent : changes.event = c.event.event) :
    CopyWrites h r ((if r.isMove then deleteEvent r.fromAccountId c.source c.event c.sourceName.parentId else []) ++
      [.event r.toAccountId c.target none (some changes)]) [c] := by
  have hcopy : IsCopy r c (some changes) := by
    refine ⟨?_, fun e he => ?_⟩
    · rw [if_neg hto]
      exact List.Perm.of_eq hnames
    · obtain rfl := Option.some.inj he
      exact hevent
  have hdelete {accountId : UInt32} (hne : r.fromAccountId ≠ accountId) : (events h accountId).writes
      (if r.isMove then deleteEvent r.fromAccountId c.source c.event c.sourceName.parentId else []) = [] := by
    refine eq_nil_iff_forall_not_mem.mpr fun w hw => ?_
    split_ifs at hw
    · exact hne (mem_writes_deleteEvent hnodup hw).1
    · cases hw
  refine ⟨?_, fun id changes' hmem => ?_, fun _ => ?_, fun _ id changes' hmem => ?_, fun accountId hfrom hne => ?_⟩
  · rw [writes_append, hdelete hto, writes_event, if_pos rfl]
    rfl
  · rw [writes_append, hdelete hto, writes_event, if_pos rfl] at hmem
    obtain ⟨rfl, rfl⟩ := Prod.mk.inj (mem_singleton.mp hmem)
    exact ⟨c, mem_singleton.mpr rfl, rfl, hcopy⟩
  · rw [writes_append, writes_event, if_neg (Ne.symm hto)]
    split_ifs
    · rcases deleteEvent_cases r.fromAccountId c.source hnodup with ⟨-, hnone⟩ | ⟨changes', hops, -⟩
      · exact absurd rfl (hnone _ hname)
      · rw [hops, writes_event, if_pos rfl]
        rfl
    · rfl
  · rw [writes_append, writes_event, if_neg (Ne.symm hto), append_nil] at hmem
    split_ifs at hmem
    · obtain ⟨-, rfl, hdelete⟩ := mem_writes_deleteEvent hnodup hmem
      exact ⟨c, mem_singleton.mpr rfl, rfl, hdelete⟩
    · cases hmem
  · rw [writes_append, hdelete (Ne.symm hfrom), writes_event, if_neg (Ne.symm hne)]
    rfl

theorem nodup_same {s₁ s' : Accounts I} {read : ℕ → Option (CalendarEvent I)} (hto : r.fromAccountId = r.toAccountId)
    (hcopy : CopyWrites h r copyOps copies) (hs : Consistent (s r.toAccountId))
    (hperm : Replaces h r s ops copyOps overwritten toCalendarId)
    (hread : (events h r.toAccountId).Reads read ops) (htell : (events h r.toAccountId).HashesTell ops)
    (hok : applyAll (apply h) ops s₁ = some s') (accountId : UInt32) :
    (((events h accountId).writes ops).map Prod.fst).Nodup := by
  by_cases heq : accountId = r.toAccountId
  · rw [heq]
    exact (nodup_of_applyAll hread htell hok).1
  · have hnil : (events h accountId).writes ops = [] := by
      refine eq_nil_iff_forall_not_mem.mpr fun w hw => ?_
      rcases mem_append.mp ((hperm _).mem_iff.mp hw) with hw | hw
      · exact heq (mem_writes_deleteEvents hs hw).1.symm
      · rw [hcopy.other accountId (by rw [hto]; exact heq) heq] at hw
        cases hw
    rw [hnil]
    exact nodup_nil

theorem nodup_other (hto : r.fromAccountId ≠ r.toAccountId) (hs : ∀ accountId, Consistent (s accountId))
    (hcopy : CopyWrites h r copyOps copies) (hc : Copies r s copies overwritten fromCalendarId toCalendarId)
    (hperm : Replaces h r s ops copyOps overwritten toCalendarId)
    (hids : overwritten.Nodup) (accountId : UInt32) : (((events h accountId).writes ops).map Prod.fst).Nodup := by
  rw [((hperm accountId).map Prod.fst).nodup_iff, map_append, nodup_append]
  refine ⟨nodup_writes_deleteEvents (hs _) hids, ?_, fun x hx y hy heq => ?_⟩
  · by_cases heq : accountId = r.toAccountId
    · rw [heq, hcopy.targets]
      exact hc.targets
    · by_cases hfrom : accountId = r.fromAccountId
      · rw [hfrom, hcopy.sources hto]
        split_ifs
        · exact hc.sources
        · exact nodup_nil
      · rw [hcopy.other accountId hfrom heq]
        exact nodup_nil
  · obtain ⟨w, hw, rfl⟩ := mem_map.mp hx
    obtain ⟨rfl, -, event, hevent, -⟩ := mem_writes_deleteEvents (hs _) hw
    rw [heq, hcopy.targets] at *
    obtain ⟨c, hmem, rfl⟩ := mem_map.mp hy
    have htarget := (hc.target c hmem).2
    rw [if_neg hto, hevent] at htarget
    cases htarget

end

end MailServer.Dav.CopyMove
