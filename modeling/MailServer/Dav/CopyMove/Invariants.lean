import MailServer.Dav.CopyMove.Containers

/-!
# COPY and MOVE in any account

* `Fits`: the requests that the writes are right for.
* `done_iff`: what a request should do is done exactly by these.
* `not_done_skipped`: a calendar with the id that it gets in the other account loses its events.
-/

namespace MailServer.Dav.CopyMove

open MailServer.Common MailServer.Utils MailServer.Groupware MailServer.Lib List Option

variable {I : Type}

/-- The id of a calendar, which is the next one if it is not there. -/
def Account.calendarIdFor (a : Account I) (calendar : String) : ℕ :=
  ((a.byPath ⟨calendar, none⟩).map Resource.documentId).getD (a.nextCalendarId + 1)

/-- A request that its writes are right for. -/
structure Fits (r : Request) (s : Accounts I) : Prop where
  /-- an event has no other name in a calendar that it is copied or moved to in its account -/
  event : r.fromAccountId = r.toAccountId → ∀ id item fromCalendarId toCalendarId, r.fromPath.item = some item →
    ⟨item, fromCalendarId⟩ ∈ (s r.fromAccountId).names id →
    (s r.fromAccountId).isNamed fromCalendarId r.fromPath.calendar = true →
    (s r.toAccountId).isNamed toCalendarId r.toPath.calendar = true →
      (r.isMove = true ∧ fromCalendarId = toCalendarId) ∨ ∀ n ∈ (s r.fromAccountId).names id, n.parentId ≠ toCalendarId
  /-- a calendar with events gets another id in another account that it is moved to -/
  container : r.fromPath.item = none → r.isMove = true → r.fromAccountId ≠ r.toAccountId → ∀ fromCalendarId,
    (s r.fromAccountId).isNamed fromCalendarId r.fromPath.calendar = true →
    fromCalendarId = (s r.toAccountId).calendarIdFor r.toPath.calendar →
      ∀ id, ∀ n ∈ (s r.fromAccountId).names id, n.parentId ≠ fromCalendarId

section

variable {r : Request} {s : Accounts I} {documentId fromCalendarId toCalendarId : ℕ} {toDocumentId : Option ℕ}
  {newName : String}

theorem calendarIdFor_eq {fromChildrenIds toChildrenIds : List ℕ} (hs : ∀ accountId, Consistent (s accountId))
    (hplan : ContainerPlan r s documentId fromChildrenIds toDocumentId toChildrenIds newName) :
    (s r.toAccountId).calendarIdFor r.toPath.calendar = destinationId (s r.toAccountId) toDocumentId := by
  unfold Account.calendarIdFor
  cases toDocumentId with
  | none =>
    rw [byPath_calendar_none.mpr (hplan.vacant rfl).1]
    rfl
  | some toDocumentId =>
    obtain ⟨hnamed, -⟩ := hplan.overwritten toDocumentId rfl
    cases hfound : (s r.toAccountId).byPath ⟨r.toPath.calendar, none⟩ with
    | none =>
      rw [byPath_calendar_none.mp hfound] at hnamed
      cases hnamed
    | some found => exact (hs _).eq_of_isNamed (byPath_calendar hfound).2 hnamed

theorem fits_event_iff (hs : ∀ accountId, Consistent (s accountId))
    (hplan : EventPlan r s documentId fromCalendarId toDocumentId toCalendarId newName) :
    Fits r s ↔ (r.fromAccountId = r.toAccountId → (r.isMove = true ∧ fromCalendarId = toCalendarId) ∨
      ∀ n ∈ (s r.fromAccountId).names documentId, n.parentId ≠ toCalendarId) := by
  obtain ⟨item, hitem, hn⟩ := hplan.item
  constructor
  · exact fun h hto => h.event hto documentId item fromCalendarId toCalendarId hitem hn hplan.source hplan.dest
  · intro h
    refine ⟨fun hto id item' from' to' hitem' hn' hsource hdest => ?_, fun hnone => ?_⟩
    · obtain rfl := some.inj (hitem.symm.trans hitem')
      obtain rfl := (hs _).eq_of_isNamed hsource hplan.source
      obtain rfl := (hs _).eq_of_isNamed hdest hplan.dest
      obtain rfl := (hs _).unique id documentId _ hn' hn
      exact h hto
    · rw [hitem] at hnone
      cases hnone

theorem fits_container_iff {fromChildrenIds toChildrenIds : List ℕ} (hs : ∀ accountId, Consistent (s accountId))
    (hplan : ContainerPlan r s documentId fromChildrenIds toDocumentId toChildrenIds newName) :
    Fits r s ↔ (r.isMove = true → r.fromAccountId ≠ r.toAccountId →
      documentId = destinationId (s r.toAccountId) toDocumentId →
        ∀ id, ∀ n ∈ (s r.fromAccountId).names id, n.parentId ≠ documentId) := by
  rw [← calendarIdFor_eq hs hplan]
  constructor
  · exact fun h hmove hto => h.container hplan.fromItem hmove hto documentId hplan.source
  · intro h
    refine ⟨fun _ id item _ _ hitem => ?_, fun _ hmove hto from' hsource => ?_⟩
    · rw [hplan.fromItem] at hitem
      cases hitem
    · obtain rfl := (hs _).eq_of_isNamed hsource hplan.source
      exact h hmove hto

end

/-- The hashes tell the events that a request writes from those that it read. -/
def HashesTell (h : ArchiveHash I) (server : Server I) (r : Request) (s : Accounts I) : Prop :=
  ∀ documentId action s₁ ops, plan r s server = .ok (documentId, action) →
    action.writes server r s documentId = .ok (s₁, ops) → (events h r.toAccountId).HashesTell ops

/-- **What a request should do** is done if and only if it fits. -/
theorem done_iff {h : ArchiveHash I} {server : Server I} {r : Request} {s s' : Accounts I} {cuts : List ℕ} {status : Status}
    (hs : ∀ accountId, Consistent (s accountId)) (hcounted : ∀ accountId, Counted (s accountId))
    (htell : HashesTell h server r s) (hok : copyMove server r s h cuts = (s', .ok status)) : Done r s s' ↔ Fits r s := by
  unfold copyMove at hok
  cases hp : plan r s server with
  | error e => rw [hp] at hok; cases (Prod.mk.inj hok).2
  | ok planned =>
    obtain ⟨documentId, action⟩ := planned
    rw [hp] at hok
    dsimp only at hok
    cases hw : action.writes server r s documentId with
    | error e => rw [hw] at hok; cases (Prod.mk.inj hok).2
    | ok written =>
      obtain ⟨s₁, ops⟩ := written
      rw [hw] at hok
      obtain ⟨hstate, hstatus⟩ := Prod.mk.inj hok
      have hcommitted : (commitGroups (apply h) cuts (ops.map fun op => [op]) s₁).2 = true := by
        by_contra hfailed
        rw [if_neg hfailed] at hstatus
        cases hstatus
      have hall := applyAll_of_commitGroups (f := fun op => op) hcommitted
      rw [List.map_id', hstate] at hall
      have htold := htell documentId action s₁ ops hp hw
      cases planned_of_plan hp with
      | copyContainer hplan =>
        rw [fits_container_iff hs hplan]
        exact copyContainer_done_iff hs hcounted hplan hw htold hall
      | renameContainer hmove hto hplan =>
        rw [fits_container_iff hs hplan]
        exact iff_of_true (renameContainer_done hs hmove hto hplan hw hall) fun _ hne => absurd hto hne
      | copyEvent hcopy hplan =>
        rw [fits_event_iff hs hplan, copyEvent_done_iff hs hcounted hcopy hplan hw htold hall]
        refine imp_congr_right fun _ => (or_iff_right ?_).symm
        rintro ⟨hmove, -⟩
        rw [hcopy] at hmove
        cases hmove
      | moveEvent hmove hplan =>
        rw [fits_event_iff hs hplan, moveEvent_done_iff hs hcounted hmove hplan hw htold hall]
        exact imp_congr_right fun _ => or_congr_left (and_iff_right hmove).symm
      | renameEvent hmove hto hplan =>
        rw [fits_event_iff hs hplan]
        exact iff_of_true (renameEvent_done hs hmove hto hplan hw htold hall) fun _ => .inl ⟨hmove, rfl⟩

/-! ### One event -/

def archiveHash : ArchiveHash Unit :=
  ⟨fun _ => UInt32.ofNat 0, fun e => UInt32.ofNat ((e.names.head?.map DavName.parentId).getD 0)⟩

def server : Server Unit := ⟨fun _ => none, none, fun _ _ => true, fun _ _ _ => none⟩

def unnamed (name : String) : Calendar := ⟨⟨⟨0, []⟩, [], []⟩, name⟩

/-- Two calendars, with an event in the first one. -/
def home : Account Unit where
  calendars := ((∅ : HashMap ℕ Calendar).insert 1 (unnamed "a")).insert 2 (unnamed "b")
  events := (∅ : HashMap ℕ (CalendarEvent Unit)).insert 1 ⟨[⟨"e", 1⟩], (), 0, 10, none⟩
  nextCalendarId := 2
  nextEventId := 1

def empty : Account Unit := ⟨∅, ∅, 0, 0⟩

def moveOf (fromPath : Path) (toAccountId : UInt32) (toPath : Path) : Request :=
  ⟨true, .infinity, 1, fromPath, toAccountId, toPath, none⟩

variable {id : ℕ} {e : CalendarEvent Unit}

theorem home_events (h : home.events[id]? = some e) :
    id = 1 ∧ e = ⟨[⟨"e", 1⟩], (), 0, 10, none⟩ := by
  unfold home at h
  rw [HashMap.getElem?_insert] at h
  split_ifs at h with hid
  · exact ⟨hid.symm, (some.inj h).symm⟩
  · cases h

theorem home_calendars {c : Calendar} (h : home.calendars[id]? = some c) :
    (id = 1 ∧ c = unnamed "a") ∨ (id = 2 ∧ c = unnamed "b") := by
  unfold home at h
  rw [HashMap.getElem?_insert, HashMap.getElem?_insert] at h
  split_ifs at h with htwo hone
  · exact .inr ⟨htwo.symm, (some.inj h).symm⟩
  · exact .inl ⟨hone.symm, (some.inj h).symm⟩
  · cases h

theorem home_names {n : DavName} (h : n ∈ home.names id) : id = 1 ∧ n = ⟨"e", 1⟩ := by
  obtain ⟨e, he, hn⟩ := Account.mem_names.mp h
  obtain ⟨hid, rfl⟩ := home_events he
  exact ⟨hid, mem_singleton.mp hn⟩

theorem consistent_home : Consistent home := by
  refine ⟨fun id id' n hn hn' => (home_names hn).1.trans (home_names hn').1.symm, fun id => ?_, fun id n hn => ?_,
    fun id id' c c' h h' heq => ?_⟩
  · cases he : home.events[id]? with
    | none =>
      rw [Account.names_of_none he]
      exact nodup_nil
    | some e =>
      obtain ⟨-, rfl⟩ := home_events he
      rw [Account.names_eq he]
      exact nodup_singleton _
  · obtain ⟨-, rfl⟩ := home_names hn
    exact ⟨unnamed "a", rfl⟩
  · rcases home_calendars h with ⟨rfl, rfl⟩ | ⟨rfl, rfl⟩ <;> rcases home_calendars h' with ⟨rfl, rfl⟩ | ⟨rfl, rfl⟩
    · rfl
    · exact absurd heq (by decide)
    · exact absurd heq (by decide)
    · rfl

theorem counted_home : Counted home := by
  refine ⟨fun id c h => ?_, fun id e h => ?_⟩
  · rcases home_calendars h with ⟨rfl, -⟩ | ⟨rfl, -⟩ <;> decide
  · exact (home_events h).1.le

theorem empty_events (h : empty.events[id]? = some e) : False := by
  cases h

theorem empty_calendars {c : Calendar} (h : empty.calendars[id]? = some c) : False := by
  cases h

theorem consistent_empty : Consistent empty := by
  refine ⟨fun id id' n hn => ?_, fun id => ?_, fun id n hn => ?_, fun id id' c c' h => (empty_calendars h).elim⟩
  · cases hn
  · exact nodup_nil
  · cases hn

/-- The event is moved to the other calendar. -/
theorem done_move : ∃ s', copyMove server (moveOf ⟨"a", some "e"⟩ 1 ⟨"b", some "e"⟩) (fun _ => home) archiveHash [] =
    (s', .ok .created) ∧ Done (moveOf ⟨"a", some "e"⟩ 1 ⟨"b", some "e"⟩) (fun _ => home) s' := by
  have hok : copyMove server (moveOf ⟨"a", some "e"⟩ 1 ⟨"b", some "e"⟩) (fun _ => home) archiveHash [] =
      (_, .ok .created) := Prod.ext rfl (by decide)
  refine ⟨_, hok, (done_iff (fun _ => consistent_home) (fun _ => counted_home) ?_ hok).mpr ⟨?_, ?_⟩⟩
  · intro documentId action s₁ ops hplan hwrites op hop id e e' hwrite
    have hplanned : plan (moveOf ⟨"a", some "e"⟩ 1 ⟨"b", some "e"⟩) (fun _ => home) server =
        .ok (1, .moveEvent 1 none 2 "e") := rfl
    obtain ⟨rfl, rfl⟩ := Prod.mk.inj (Except.ok.inj (hplanned.symm.trans hplan))
    obtain ⟨rfl, rfl⟩ := Prod.mk.inj (Except.ok.inj hwrites)
    obtain rfl := mem_singleton.mp hop
    obtain ⟨-, hevents⟩ := Prod.mk.inj (some.inj (show some (1, some ⟨[⟨"e", 1⟩], (), 0, 10, none⟩,
      some ⟨[⟨"e", 2⟩], (), 0, 10, none⟩) = some (id, some e, some e') from hwrite))
    obtain ⟨he, he'⟩ := Prod.mk.inj hevents
    rw [← some.inj he, ← some.inj he']
    decide
  · intro _ id item fromCalendarId toCalendarId hitem hn hfrom hto
    refine .inr fun n hn' heq => ?_
    obtain ⟨rfl, rfl⟩ := home_names hn'
    rw [← heq] at hto
    revert hto
    decide
  · nofun

/-- A calendar is moved to an account without calendars, where it gets its id again: its event is passed over, and is left in
a calendar that is gone. -/
theorem not_done_skipped : ¬ ∀ (h : ArchiveHash Unit) (server : Server Unit) (r : Request) (s s' : Accounts Unit)
    (cuts : List ℕ) (status : Status), (∀ accountId, Consistent (s accountId)) → (∀ accountId, Counted (s accountId)) →
    HashesTell h server r s → copyMove server r s h cuts = (s', .ok status) → Done r s s' := by
  intro h
  let s : Accounts Unit := fun accountId => if accountId = 1 then home else empty
  have hok : copyMove server (moveOf ⟨"a", none⟩ 2 ⟨"a", none⟩) s archiveHash [] = (_, .ok .created) := Prod.ext rfl (by decide)
  have hdone := h archiveHash server (moveOf ⟨"a", none⟩ 2 ⟨"a", none⟩) s _ [] .created ?_ ?_ ?_ hok
  · obtain ⟨c, hc⟩ := (hdone.consistent 1).exist 1 ⟨"e", 1⟩ (by decide)
    cases hc
  · intro accountId
    show Consistent (if accountId = 1 then home else empty)
    split_ifs
    · exact consistent_home
    · exact consistent_empty
  · intro accountId
    show Counted (if accountId = 1 then home else empty)
    split_ifs
    · exact counted_home
    · exact ⟨fun id c hc => (empty_calendars hc).elim, fun id e he => (empty_events he).elim⟩
  · intro documentId action s₁ ops hplan hwrites op hop id e e' hwrite
    have hplanned : plan (moveOf ⟨"a", none⟩ 2 ⟨"a", none⟩) s server = .ok (1, .copyContainer [1] none [] "a" true) := rfl
    obtain ⟨rfl, rfl⟩ := Prod.mk.inj (Except.ok.inj (hplanned.symm.trans hplan))
    obtain ⟨rfl, rfl⟩ := Prod.mk.inj (Except.ok.inj hwrites)
    rcases mem_cons.mp hop with rfl | hop
    · cases hwrite
    · obtain rfl := mem_singleton.mp hop
      cases hwrite

end MailServer.Dav.CopyMove
