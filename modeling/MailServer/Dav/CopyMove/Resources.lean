import MailServer.Groupware.Calendar
import MailServer.Utils.Writes

/-!
# Calendars and events as resources (`common/src/storage/dav.rs`, `groupware/src/calendar/storage.rs`)

An event is found below the calendars that it is linked to, under a name in each.  Names have no slash: a path is that of
a calendar, or of an event below it.

* `Account`: what is stored.  `byPath`, `subtree`: what the cache finds.
* `Op`, `apply`: a write of a batch.  `deleteEvent`, `deleteWithEvents`: the writes of the destroyed archives.
* `Consistent`: the names denote one event each, of a calendar that is there.
-/

namespace MailServer.Dav.CopyMove

open MailServer.Common MailServer.Utils MailServer.Groupware MailServer.Email List

structure Calendar extends Groupware.Calendar where
  name : String

variable {I : Type}

structure Account (I : Type) where
  calendars : HashMap ℕ Calendar
  events : HashMap ℕ (CalendarEvent I)
  /-- the counters of document ids -/
  nextCalendarId : ℕ
  nextEventId : ℕ

open Account

abbrev Accounts (I : Type) := UInt32 → Account I

/-! ## Paths -/

/-- The path of a calendar, or of an item in it. -/
@[ext]
structure Path where
  calendar : String
  item : Option String
  deriving DecidableEq

/-- `DavResourcePath`: an event has the calendar of the path as its parent. -/
structure Resource where
  documentId : ℕ
  parentId : Option ℕ

def Resource.isContainer (r : Resource) : Bool := r.parentId.isNone

namespace Account

variable (a : Account I)

/-- The calendar has the name. -/
def isNamed (calendarId : ℕ) (name : String) : Bool := (a.calendars[calendarId]?).any fun c => c.name == name

def byPath (path : Path) : Option Resource :=
  match path.item with
  | none => (a.calendars.toList.find? fun e => e.2.name == path.calendar).map fun e => ⟨e.1, none⟩
  | some item => a.events.toList.findSome? fun e =>
    (e.2.names.find? fun n => n.name == item && a.isNamed n.parentId path.calendar).map fun n => ⟨e.1, some n.parentId⟩

/-- The events in the subtree of a calendar. -/
def subtree (calendar : String) : List ℕ :=
  (a.events.toList.filter fun e => e.2.names.any fun n => a.isNamed n.parentId calendar).map Prod.fst

/-- The names of an event, of which there are none if it is not there. -/
def names (id : ℕ) : List DavName := ((a.events[id]?).map CalendarEvent.names).getD []

def content (id : ℕ) : Option I := (a.events[id]?).map CalendarEvent.event

end Account

/-! ## Writes -/

/-- A write.  An archive that is replaced or cleared is asserted to be the one that was read. -/
inductive Op (I : Type) where
  | calendar (accountId : UInt32) (id : ℕ) (current changes : Option Calendar)
  | event (accountId : UInt32) (id : ℕ) (current changes : Option (CalendarEvent I))

structure ArchiveHash (I : Type) where
  calendar : Calendar → UInt32
  event : CalendarEvent I → UInt32

def apply (h : ArchiveHash I) (s : Accounts I) : Op I → Option (Accounts I)
  | .calendar accountId id current changes =>
    (putArchive h.calendar (s accountId).calendars id current changes).map fun calendars =>
      Function.update s accountId { s accountId with calendars }
  | .event accountId id current changes =>
    (putArchive h.event (s accountId).events id current changes).map fun events =>
      Function.update s accountId { s accountId with events }

/-- `Vec::swap_remove`. -/
def swapRemove {α : Type*} (l : List α) (i : ℕ) : List α :=
  match l.getLast? with
  | none => []
  | some x => (l.set i x).dropLast

/-- `DestroyArchive::delete` of an event: it loses its name in a calendar, or goes with it. -/
def deleteEvent (accountId : UInt32) (documentId : ℕ) (event : CalendarEvent I) (calendarId : ℕ) : List (Op I) :=
  match event.names.findIdx? fun n => n.parentId == calendarId with
  | none => []
  | some deleteIdx =>
    if 1 < event.names.length then
      [.event accountId documentId (some event) (some { event with names := swapRemove event.names deleteIdx })]
    else [.event accountId documentId (some event) none]

/-- `delete_with_events`. -/
def deleteWithEvents (a : Account I) (accountId : UInt32) (documentId : ℕ) (calendar : Calendar) (childrenIds : List ℕ) :
    List (Op I) :=
  (childrenIds.flatMap fun id =>
    match a.events[id]? with
    | none => []
    | some event => deleteEvent accountId id event documentId) ++
  [.calendar accountId documentId (some calendar) none]

/-! ## Content -/

/-- Each name denotes one event, an event has one name in a calendar, which is there, and calendars have different
names. -/
structure Consistent (a : Account I) : Prop where
  unique : ∀ id id' n, n ∈ a.names id → n ∈ a.names id' → id = id'
  once : ∀ id, ((a.names id).map DavName.parentId).Nodup
  exist : ∀ id, ∀ n ∈ a.names id, ∃ c, a.calendars[n.parentId]? = some c
  named : ∀ (id id' : ℕ) (c c' : Calendar), a.calendars[id]? = some c → a.calendars[id']? = some c' → c.name = c'.name → id = id'

/-- Document ids have been given by the counters. -/
structure Counted (a : Account I) : Prop where
  calendars : ∀ (id : ℕ) (c : Calendar), a.calendars[id]? = some c → id ≤ a.nextCalendarId
  events : ∀ (id : ℕ) (e : CalendarEvent I), a.events[id]? = some e → id ≤ a.nextEventId

/-- An event is found under a name below a calendar. -/
def Account.Reaches (a : Account I) (calendar name : String) (ev : I) : Prop :=
  ∃ id calendarId, ⟨name, calendarId⟩ ∈ a.names id ∧ a.isNamed calendarId calendar = true ∧ a.content id = some ev

/-! ## What is found -/

variable {a : Account I} {id : ℕ} {name : String} {e : CalendarEvent I}

theorem Account.isNamed_iff :
    a.isNamed id name = true ↔ ∃ c, a.calendars[id]? = some c ∧ c.name = name := by
  unfold isNamed
  rw [Option.any_eq_true]
  simp [beq_iff_eq]

theorem Consistent.eq_of_isNamed (h : Consistent a) {id' : ℕ} (hid : a.isNamed id name = true)
    (hid' : a.isNamed id' name = true) : id = id' := by
  obtain ⟨c, hc, rfl⟩ := isNamed_iff.1 hid
  obtain ⟨c', hc', hname⟩ := isNamed_iff.1 hid'
  exact h.named id id' c c' hc hc' hname.symm

theorem Account.names_eq (h : a.events[id]? = some e) : a.names id = e.names := by
  unfold names
  rw [h]
  rfl

theorem Account.content_eq (h : a.events[id]? = some e) : a.content id = some e.event := by
  unfold content
  rw [h]
  rfl

theorem Account.names_of_none (h : a.events[id]? = none) : a.names id = [] := by
  unfold names
  rw [h]
  rfl

theorem Account.isNamed_inj {name' : String} (h : a.isNamed id name = true)
    (h' : a.isNamed id name' = true) : name = name' := by
  obtain ⟨c, hc, rfl⟩ := isNamed_iff.1 h
  obtain ⟨c', hc', rfl⟩ := isNamed_iff.1 h'
  rw [Option.some.inj (hc.symm.trans hc')]

theorem Account.mem_names {n : DavName} :
    n ∈ a.names id ↔ ∃ e, a.events[id]? = some e ∧ n ∈ e.names := by
  constructor
  · intro h
    cases he : a.events[id]? with
    | none =>
      rw [names_of_none he] at h
      cases h
    | some e =>
      rw [names_eq he] at h
      exact ⟨e, rfl, h⟩
  · rintro ⟨e, he, h⟩
    rw [names_eq he]
    exact h

section

variable {a : Account I} {calendar item : String} {found : Resource}

theorem byPath_calendar (h : a.byPath ⟨calendar, none⟩ = some found) :
    found.parentId = none ∧ a.isNamed found.documentId calendar = true := by
  obtain ⟨⟨id, c⟩, hfind, rfl⟩ := Option.map_eq_some_iff.mp h
  refine ⟨rfl, isNamed_iff.2 ⟨c, HashMap.mem_toList.mp (mem_of_find?_eq_some hfind), ?_⟩⟩
  exact beq_iff_eq.mp (find?_some hfind : _)

theorem byPath_calendar_none : a.byPath ⟨calendar, none⟩ = none ↔ ∀ id, a.isNamed id calendar = false := by
  show Option.map _ _ = none ↔ _
  rw [Option.map_eq_none_iff, find?_eq_none]
  constructor
  · intro h id
    rw [← Bool.not_eq_true, isNamed_iff]
    rintro ⟨c, hc, hname⟩
    exact h (id, c) (HashMap.mem_toList.mpr hc) (beq_iff_eq.mpr hname)
  · rintro h ⟨id, c⟩ hmem hname
    have hnamed := isNamed_iff.2 ⟨c, HashMap.mem_toList.mp hmem, beq_iff_eq.mp hname⟩
    rw [h id] at hnamed
    cases hnamed

theorem byPath_item (h : a.byPath ⟨calendar, some item⟩ = some found) :
    ∃ calendarId, found.parentId = some calendarId ∧ ⟨item, calendarId⟩ ∈ a.names found.documentId ∧
      a.isNamed calendarId calendar = true := by
  obtain ⟨⟨id, e⟩, hmem, hfound⟩ := exists_of_findSome?_eq_some h
  obtain ⟨n, hfind, rfl⟩ := Option.map_eq_some_iff.mp hfound
  have hn := find?_some hfind
  rw [Bool.and_eq_true, beq_iff_eq] at hn
  refine ⟨n.parentId, rfl, mem_names.2 ⟨e, HashMap.mem_toList.mp hmem, ?_⟩, hn.2⟩
  rw [← hn.1]
  exact mem_of_find?_eq_some hfind

theorem byPath_item_none : a.byPath ⟨calendar, some item⟩ = none ↔
    ∀ id calendarId, a.isNamed calendarId calendar = true → ⟨item, calendarId⟩ ∉ a.names id := by
  show List.findSome? _ _ = none ↔ _
  rw [findSome?_eq_none_iff]
  constructor
  · intro h id calendarId hnamed hn
    obtain ⟨e, he, hn⟩ := mem_names.1 hn
    have hnone := Option.map_eq_none_iff.mp (h (id, e) (HashMap.mem_toList.mpr he))
    refine find?_eq_none.mp hnone _ hn ?_
    rw [Bool.and_eq_true]
    exact ⟨beq_self_eq_true _, hnamed⟩
  · rintro h ⟨id, e⟩ hmem
    refine Option.map_eq_none_iff.mpr (find?_eq_none.mpr fun n hn htrue => ?_)
    rw [Bool.and_eq_true, beq_iff_eq] at htrue
    refine h id n.parentId htrue.2 (mem_names.2 ⟨e, HashMap.mem_toList.mp hmem, ?_⟩)
    rw [← htrue.1]
    exact hn

theorem mem_subtree {id : ℕ} : id ∈ a.subtree calendar ↔ ∃ n ∈ a.names id, a.isNamed n.parentId calendar = true := by
  constructor
  · intro h
    obtain ⟨⟨id, e⟩, he, rfl⟩ := mem_map.mp h
    obtain ⟨hmem, hany⟩ := mem_filter.mp he
    obtain ⟨n, hn, hnamed⟩ := any_eq_true.mp hany
    exact ⟨n, mem_names.2 ⟨e, HashMap.mem_toList.mp hmem, hn⟩, hnamed⟩
  · rintro ⟨n, hn, hnamed⟩
    obtain ⟨e, he, hn⟩ := mem_names.1 hn
    exact mem_map.mpr ⟨(id, e), mem_filter.mpr ⟨HashMap.mem_toList.mpr he, any_eq_true.mpr ⟨n, hn, hnamed⟩⟩, rfl⟩

theorem nodup_subtree (a : Account I) (calendar : String) : (a.subtree calendar).Nodup :=
  (HashMap.nodup_map_fst_toList a.events).sublist (filter_sublist.map _)

end

end MailServer.Dav.CopyMove
