import MailServer.Groupware.Calendar
import MailServer.Groupware.Scheduling.Notices
import MailServer.Groupware.Scheduling.Replies

/-!
# Scheduling messages by e-mail (`calendar/itip.rs`)

* `itipIngest`: what the server does with a message for one of its accounts.
* `OrganizedBy`: what the actions of a message keep, so that the organizer of an event stays the same.
* `changed_by_participant`: over any run, who can change an event.
-/

namespace MailServer.Groupware

open MailServer.Lib List

inductive ChangedBy
  | principalId (id : ℕ)
  | calendarAddress (address : String)
deriving DecidableEq

structure CalendarEventNotification where
  event : ICalendar
  changedBy : ChangedBy
  eventId : Option ℕ
  isChange : Bool
  size : ℕ
deriving DecidableEq

abbrev StoredEvents := AList fun _ : ℕ => CalendarEvent ICalendar

/-- The calendar of an account. -/
structure ItipStore where
  events : StoredEvents
  notifications : List CalendarEventNotification

open ItipStore

/-- What the ingest takes from the rest of the server while it handles one message. -/
structure ItipServer where
  accountIdFromEmail : String → Option ℕ
  /-- The first document that the index has for an UID. -/
  documentMatching : StoredEvents → String → Option ℕ
  contactExists : String → Bool
  itipAutoAdd : Bool
  /-- The length of the text of an object. -/
  icalSize : ICalendar → ℕ
  maxIcalSize : ℕ
  hasAvailableQuota : ℕ → Bool
  defaultCalendar : Option ℕ
  eventName : String
  assignDocumentId : StoredEvents → ℕ
  assignDocumentId_fresh : ∀ events, assignDocumentId events ∉ events

/-- A message as it is delivered; the object is absent if its text cannot be parsed. -/
structure Delivery where
  server : ItipServer
  sender : String
  recipient : String
  parsed : Option ICalendar
  length : ℕ

variable (C : Calcard) (accountEmails : List String)

/-- Parse and validate the iTIP message -/
def Delivery.parse (m : Delivery) : Except ItipError ICalendar :=
  match m.parsed with
  | none => .error .iCalendarParseError
  | some ical =>
    if 1 < ical.components.length ∧ ical.components.head?.any (·.componentType = .vCalendar) then .ok ical
    else .error .iCalendarParseError

/-- Microsoft Exchange does not include the organizer in REPLY, assume it is the recipient. -/
def assumeOrganizer (recipient : String) (itip : ICalendar) : ICalendar :=
  let method := itip.components.head?.bind fun comp =>
    (comp.entries.find? (·.name = .method)).bind fun entry => entry.values.head?
  if method = some (.method .reply) ∨ method = some (.method .request) then
    ⟨itip.components.map fun comp =>
      if C.isSchedulingObject comp.componentType ∧ comp.entries.any (·.name = .attendee) ∧
          ¬ comp.entries.any (·.name = .organizer) then
        { comp with entries := comp.entries ++ [⟨.organizer, [], [.text ("mailto:" ++ recipient)]⟩] }
      else comp⟩
  else itip

/-- The object of a message, with what is read of it, if the sender takes part in it. -/
def Delivery.read (m : Delivery) : Except ItipError (ICalendar × ItipSnapshots) := do
  let itip := assumeOrganizer C m.recipient (← m.parse)
  let itipSnapshots ← itipSnapshot C itip accountEmails false
  if !itipSnapshots.senderIsOrganizerOrAttendee C m.sender then .error .senderIsNotOrganizerNorAttendee
  else return (itip, itipSnapshots)

def Delivery.changedBy (m : Delivery) : ChangedBy :=
  match m.server.accountIdFromEmail m.sender with
  | some id => .principalId id
  | none => .calendarAddress m.sender

/-- A message about an event that is stored. -/
def updateEvent (store : ItipStore) (m : Delivery) (itip : ICalendar) (itipSnapshots : ItipSnapshots) (documentId : ℕ)
    (event : CalendarEvent ICalendar) : Except ItipError (ItipStore × Option ItipMessage) := do
  let snapshots ← itipSnapshot C event.event accountEmails false
  match ← itipProcessMessage C event.event snapshots itip itipSnapshots m.sender with
  | .actions changes =>
    -- Merge changes
    let ical := itipMergeChanges C event.event changes
    let size := m.server.icalSize ical
    if m.server.maxIcalSize < size then .error .eventTooLarge
    -- Validate quota
    else if 0 < size - event.size ∧ !m.server.hasAvailableQuota (size - event.size) then .error .quotaExceeded
    else
      let scheduleTag := if !itipSnapshots.organizer.email.isLocal then some (event.scheduleTag.elim 1 (· + 1))
        else event.scheduleTag
      return ({ events := store.events.insert documentId { event with event := ical, size, scheduleTag }
                notifications := store.notifications ++ [⟨itip, m.changedBy, some documentId, true, m.length⟩] }, none)
  | .message itipMessage => return (store, some itipMessage)
  | .none => return (store, none)

/-- A message about an event that is not stored. -/
def importEvent (store : ItipStore) (m : Delivery) (itip : ICalendar) :
    Except ItipError (ItipStore × Option ItipMessage) := do
  -- Verify that auto-adding invitations is allowed
  if !m.server.itipAutoAdd ∧ (m.server.accountIdFromEmail m.sender).isNone ∧ !m.server.contactExists m.sender then
    .error .autoAddDisabled
  else if (← itipMethod itip) ≠ .request then .error .eventNotFound
  else
    -- Import the iTIP message
    let ical ← itipImportMessage C itip
    if !m.server.hasAvailableQuota m.length then .error .quotaExceeded
    else
      -- Obtain parent calendar
      match m.server.defaultCalendar with
      | none => .error .noDefaultCalendar
      | some parentId =>
        let documentId := m.server.assignDocumentId store.events
        let event : CalendarEvent ICalendar :=
          { names := [⟨m.server.eventName, parentId⟩], event := ical, flags := 0, size := m.length, scheduleTag := some 1 }
        return ({ events := store.events.insert documentId event
                  notifications := store.notifications ++ [⟨itip, m.changedBy, some documentId, false, m.length⟩] }, none)

def itipIngest (store : ItipStore) (m : Delivery) : Except ItipError (ItipStore × Option ItipMessage) := do
  let (itip, itipSnapshots) ← m.read C accountEmails
  -- Find event by UID
  match m.server.documentMatching store.events itipSnapshots.uid with
  | some documentId =>
    match store.events.lookup documentId with
    | some event => updateEvent C accountEmails store m itip itipSnapshots documentId event
    | none => .error .eventNotFound
  | none => importEvent C store m itip

/-- The calendar after a message; one that is refused changes nothing. -/
def ItipStore.receive (store : ItipStore) (m : Delivery) : ItipStore :=
  match itipIngest C accountEmails store m with
  | .ok r => r.1
  | .error _ => store

/-- What the package leaves of the events of an object when it takes components out. -/
def RemovesComponents : Prop :=
  ∀ ical ids componentType entries, C.isSchedulingObject componentType = true →
    ((∃ c ∈ (C.removeComponentIds ical ids).components, contents c = (componentType, entries)) ↔
      ∃ (i : ℕ) (c : ICalendarComponent), ical.components[i]? = some c ∧ i ∉ ids ∧ contents c = (componentType, entries))

/-! ## The organizer stays -/

section

variable (o : String)

/-- Properties that name no other organizer. -/
def NamesOnly (entries : List ICalendarEntry) : Prop := ∀ e ∈ entries, ∀ a, organizerAddress C e = some a → a = o

/-- An event that names no other organizer. -/
def OrganizedBy (components : List ICalendarComponent) : Prop :=
  ∀ c ∈ components, C.isSchedulingObject c.componentType = true → NamesOnly C o c.entries

/-- An action that brings no other organizer. -/
def BringsOnly : MergeAction → Prop
  | .addEntries _ entries => NamesOnly C o entries
  | .addComponent component => NamesOnly C o component.entries
  | .removeEntries _ _ | .addParameters _ _ _ | .removeParameters _ _ _ | .removeComponent _ => True

variable {C o} {components : List ICalendarComponent} {ical itip : ICalendar} {snapshots itipSnapshots : ItipSnapshots}
  {id : InstanceId} {s : ItipSnapshot} {sender : String}

theorem organizedBy_iff : OrganizedBy C o ical.components ↔ ∀ a ∈ organizersOf C ical, a = o := by
  constructor
  · intro h a ha
    obtain ⟨c, hc, ha⟩ := mem_flatMap.mp ha
    split_ifs at ha with hsched
    · obtain ⟨e, he, hea⟩ := mem_filterMap.mp ha
      exact h c hc hsched e he a hea
    · cases ha
  · intro h c hc hsched e he a hea
    refine h a (mem_flatMap.mpr ⟨c, hc, ?_⟩)
    rw [if_pos hsched]
    exact mem_filterMap.mpr ⟨e, he, hea⟩

theorem mem_of_mem_modify {α : Type} {l : List α} {i : ℕ} {f : α → α} {x : α} (h : x ∈ l.modify i f) :
    x ∈ l ∨ ∃ y ∈ l, x = f y := by
  obtain ⟨j, hj⟩ := mem_iff_getElem?.mp h
  rw [getElem?_modify, Option.map_eq_map, Option.map_eq_some_iff] at hj
  obtain ⟨y, hy, rfl⟩ := hj
  split
  · exact Or.inr ⟨y, mem_of_getElem? hy, rfl⟩
  · exact Or.inl (mem_of_getElem? hy)

theorem organizerAddress_congr {e e' : ICalendarEntry} (hname : e'.name = e.name) (hvalues : e'.values = e.values) :
    organizerAddress C e' = organizerAddress C e := by
  rw [organizerAddress, organizerAddress, addressOf, addressOf, hname, hvalues]

variable {l : List ICalendarEntry} {actions : List MergeAction}

theorem NamesOnly.append {l' : List ICalendarEntry} (h : NamesOnly C o l) (h' : NamesOnly C o l') :
    NamesOnly C o (l ++ l') := by
  intro e he
  rcases mem_append.mp he with he | he
  · exact h e he
  · exact h' e he

theorem NamesOnly.filter (h : NamesOnly C o l) (p : ICalendarEntry → Bool) :
    NamesOnly C o (l.filter p) := fun e he => h e (mem_filter.mp he).1

theorem NamesOnly.modify (h : NamesOnly C o l) (i : ℕ)
    (f : List ICalendarParameter → List ICalendarParameter) :
    NamesOnly C o (l.modify i fun entry => { entry with params := f entry.params }) := by
  intro e he a ha
  rcases mem_of_mem_modify he with he | ⟨y, hy, rfl⟩
  · exact h e he a ha
  · exact h y hy a ((organizerAddress_congr rfl rfl).symm.trans ha)

theorem namesOnly_cancelledStatus : NamesOnly C o [cancelledStatus] := by
  intro e he a ha
  obtain rfl := mem_singleton.mp he
  cases ha

theorem NamesOnly.edit (h : NamesOnly C o l) {a : MergeAction} (ha : BringsOnly C o a) :
    NamesOnly C o (a.edit l) := by
  cases a with
  | addEntries id entries => exact h.append ha
  | removeEntries id names => exact h.filter _
  | addParameters id entryId parameters => exact h.modify entryId (· ++ parameters)
  | removeParameters id entryId names => exact h.modify entryId (List.filter (·.name ∉ names))
  | addComponent component => exact h
  | removeComponent id => exact h

theorem OrganizedBy.mergeAction (h : OrganizedBy C o components) {a : MergeAction} (ha : BringsOnly C o a) :
    OrganizedBy C o (mergeAction components a) := by
  intro c hc hsched
  cases ht : a.target with
  | some i =>
    rw [mergeAction_of_target ht] at hc
    rcases mem_of_mem_modify hc with hc | ⟨c', hc', rfl⟩
    · exact h c hc hsched
    · exact (h c' hc' hsched).edit ha
  | none =>
    cases a with
    | addComponent component =>
      unfold MailServer.Groupware.mergeAction at hc
      dsimp only at hc
      split at hc
      · rcases mem_append.mp hc with hc | hc
        · rcases mem_of_mem_modify hc with hc | ⟨c', hc', rfl⟩
          · exact h c hc hsched
          · exact h c' hc' hsched
        · obtain rfl := mem_singleton.mp hc
          exact ha
      · exact h c hc hsched
    | removeComponent id => exact h c hc hsched
    | _ => cases ht

theorem OrganizedBy.foldl (h : OrganizedBy C o components)
    (hactions : ∀ a ∈ actions, BringsOnly C o a) :
    OrganizedBy C o (actions.foldl MailServer.Groupware.mergeAction components) := by
  induction actions generalizing components with
  | nil => exact h
  | cons a actions ih =>
    exact ih (h.mergeAction (hactions a mem_cons_self)) fun b hb => hactions b (mem_cons_of_mem _ hb)

/-- **Merging** brings no other organizer. -/
theorem OrganizedBy.itipMergeChanges (hlaw : RemovesComponents C)
    (h : OrganizedBy C o ical.components) (hactions : ∀ a ∈ actions, BringsOnly C o a) :
    OrganizedBy C o (itipMergeChanges C ical actions).components := by
  have hmerged := h.foldl hactions
  unfold MailServer.Groupware.itipMergeChanges
  split
  · intro c hc hsched
    obtain ⟨i, c', hi, -, hcontents⟩ := (hlaw _ _ _ _ hsched).mp ⟨c, hc, rfl⟩
    obtain ⟨htype, hentries⟩ := Prod.mk.inj hcontents
    rw [← hentries]
    exact hmerged c' (mem_of_getElem? hi) (by rw [htype]; exact hsched)
  · exact hmerged

/-! ## What a message brings -/

variable {accountEmails : List String} (hi : itipSnapshot C itip accountEmails false = .ok itipSnapshots)

include hi in
theorem namesOnly_instance (h : itipSnapshots.components.lookup id = some s) :
    NamesOnly C itipSnapshots.organizer.email.email s.comp.entries := by
  obtain ⟨hcomp, -, hsched, -⟩ := snapshot_eq hi h
  exact organizedBy_iff.2 (organizer_itipSnapshot hi).1 s.comp (mem_of_getElem? hcomp) hsched

theorem NamesOnly.subset {l' : List ICalendarEntry} (h : NamesOnly C o l)
    (hsub : ∀ e ∈ l', e ∈ l) : NamesOnly C o l' :=
  fun e he => h e (hsub e he)

theorem NamesOnly.cancelEntries {comp : ICalendarComponent} (h : NamesOnly C o comp.entries) :
    NamesOnly C o (cancelEntries comp) := (h.filter _).append namesOnly_cancelledStatus

theorem bringsOnly_replace {i : ℕ} {names : Finset ICalendarProperty} {entries : List ICalendarEntry}
    (h : NamesOnly C o entries) : ∀ a ∈ [.removeEntries i names, .addEntries i entries], BringsOnly C o a :=
  forall_mem_cons.mpr ⟨trivial, forall_mem_singleton.mpr h⟩

theorem bringsOnly_parameters {i j : ℕ} {names : List ICalendarParameterName} {parameters : List ICalendarParameter} :
    ∀ a ∈ [.removeParameters i j names, .addParameters i j parameters], BringsOnly C o a :=
  forall_mem_cons.mpr ⟨trivial, forall_mem_singleton.mpr trivial⟩

theorem bringsOnly_reply {l : List MergeAction} (hs : NamesOnly C o s.comp.entries)
    (h : replyActions snapshots sender id s = .ok l) : ∀ a ∈ l, BringsOnly C o a := by
  rcases replyActions_eq_ok h with ⟨snapshot, attendee, updated, -, -, -, rfl⟩ | ⟨-, rfl⟩
  · intro a ha
    rcases mem_append.mp ha with ha | ha
    · unfold participantActions at ha
      dsimp only at ha
      split_ifs at ha
      · rcases mem_append.mp ha with ha | ha
        · exact bringsOnly_parameters a ha
        · obtain ⟨d, -, hd⟩ := mem_flatMap.mp ha
          unfold delegateActions at hd
          split at hd
          · cases hd
          · split at hd
            · split_ifs at hd
              · exact bringsOnly_parameters a hd
              · cases hd
            · obtain rfl := mem_singleton.mp hd
              exact hs.subset fun e he => mem_of_getElem? (Option.mem_toList.mp he)
      · cases ha
    · unfold progressActions at ha
      dsimp only at ha
      split_ifs at ha
      · exact bringsOnly_replace (hs.filter _) a ha
      · cases ha
  · exact forall_mem_singleton.mpr (hs.filter _)

theorem getD_instance {d : ICalendarComponent} (hi : itipSnapshot C itip accountEmails false = .ok itipSnapshots)
    (h : itipSnapshots.components.lookup id = some s) : (itip.components[s.compId]?).getD d = s.comp := by
  rw [(snapshot_eq hi h).1]
  rfl

include hi in
theorem bringsOnly_instance {l : List MergeAction} (hlookup : itipSnapshots.components.lookup id = some s)
    (h : requestActions itip snapshots id s = .ok l ∨ addActions itip snapshots id s = .ok l ∨
      cancelActions snapshots id s = .ok l) : ∀ a ∈ l, BringsOnly C itipSnapshots.organizer.email.email a := by
  have hs := namesOnly_instance hi hlookup
  rcases h with h | h | h
  · unfold requestActions at h
    rw [getD_instance hi hlookup] at h
    dsimp only at h
    split at h
    · split_ifs at h
      obtain rfl := Except.ok.inj h
      exact bringsOnly_replace (hs.filter _)
    · obtain rfl := Except.ok.inj h
      exact forall_mem_singleton.mpr (hs.filter _)
  · unfold addActions at h
    rw [getD_instance hi hlookup] at h
    split_ifs at h
    · obtain rfl := Except.ok.inj h
      nofun
    · obtain rfl := Except.ok.inj h
      exact forall_mem_singleton.mpr (hs.filter _)
  · unfold cancelActions at h
    split at h
    · split_ifs at h
      obtain rfl := Except.ok.inj h
      exact bringsOnly_replace hs.cancelEntries
    · obtain rfl := Except.ok.inj h
      exact forall_mem_singleton.mpr ((hs.filter _).append namesOnly_cancelledStatus)

include hi in
theorem bringsOnly_cancelled : ∀ a ∈ cancelledActions C snapshots itipSnapshots,
    BringsOnly C itipSnapshots.organizer.email.email a := by
  intro a ha
  unfold cancelledActions at ha
  split_ifs at ha
  · split at ha
    · rename_i itipMain hmain
      obtain ⟨e, -, ha⟩ := mem_flatMap.mp ha
      exact bringsOnly_replace (namesOnly_instance hi hmain).cancelEntries a ha
    · cases ha
  · cases ha

theorem bringsOnly_instanceActions
    {f : InstanceId → ItipSnapshot → Except ItipError (List MergeAction)}
    (h : instanceActions C itipSnapshots.components f = .ok actions)
    (hf : ∀ id s l, itipSnapshots.components.lookup id = some s → f id s = .ok l → ∀ a ∈ l, BringsOnly C o a) :
    ∀ a ∈ actions, BringsOnly C o a := by
  intro a ha
  obtain ⟨id, s, l, hlookup, hl, hmem⟩ := (mem_instanceActions h).mp ha
  exact hf id s l hlookup hl a hmem

include hi in
theorem bringsOnly_handleReply {actions : List MergeAction} (h : handleReply C snapshots itipSnapshots sender = .ok actions) :
    ∀ a ∈ actions, BringsOnly C itipSnapshots.organizer.email.email a :=
  bringsOnly_instanceActions h fun _ _ _ hlookup hl => bringsOnly_reply (namesOnly_instance hi hlookup) hl

include hi in
theorem bringsOnly_organizerActions {method : ICalendarMethod} {actions : List MergeAction}
    (h : organizerActions C snapshots itip itipSnapshots sender method = .ok actions) :
    ∀ a ∈ actions, BringsOnly C itipSnapshots.organizer.email.email a := by
  unfold organizerActions at h
  split at h
  · obtain ⟨l, hl, h⟩ := bind_eq_ok h
    obtain rfl := Except.ok.inj h
    intro a ha
    rcases mem_append.mp ha with ha | ha
    · exact bringsOnly_instanceActions hl (fun _ _ _ hlookup hl => bringsOnly_instance hi hlookup (.inl hl)) a ha
    · unfold removedActions at ha
      split_ifs at ha
      · obtain ⟨e, -, rfl⟩ := mem_map.mp ha
        trivial
      · cases ha
  · exact bringsOnly_instanceActions h fun _ _ _ hlookup hl => bringsOnly_instance hi hlookup (.inr (.inl hl))
  · obtain ⟨l, hl, h⟩ := bind_eq_ok h
    obtain rfl := Except.ok.inj h
    intro a ha
    rcases mem_append.mp ha with ha | ha
    · exact bringsOnly_instanceActions hl (fun _ _ _ hlookup hl => bringsOnly_instance hi hlookup (.inr (.inr hl))) a ha
    · exact bringsOnly_cancelled hi a ha
  · split_ifs at h
    exact bringsOnly_handleReply hi h
  · cases h

/-- **A message** names the organizer of the event, and brings no other. -/
theorem bringsOnly_process (hi : itipSnapshot C itip accountEmails false = .ok itipSnapshots)
    (h : itipProcessMessage C ical snapshots itip itipSnapshots sender = .ok (.actions actions)) :
    snapshots.organizer.email.email = itipSnapshots.organizer.email.email ∧
      ∀ a ∈ actions, BringsOnly C itipSnapshots.organizer.email.email a := by
  unfold itipProcessMessage at h
  by_cases hmismatch : snapshots.organizer.email.email ≠ itipSnapshots.organizer.email.email
  · rw [if_pos hmismatch] at h
    cases h
  rw [if_neg hmismatch] at h
  refine ⟨not_not.mp hmismatch, ?_⟩
  obtain ⟨method, -, h⟩ := bind_eq_ok h
  by_cases hlocal : snapshots.organizer.email.isLocal = true
  · rw [if_pos hlocal] at h
    by_cases hsender : snapshots.organizer.email.email = sender
    · rw [if_pos hsender] at h
      cases h
    rw [if_neg hsender] at h
    split at h
    · cases hreply : handleReply C snapshots itipSnapshots sender with
      | error e =>
        rw [hreply] at h
        cases h
      | ok l =>
        rw [hreply] at h
        obtain rfl := mergeResult_eq_actions (Except.ok.inj h)
        exact bringsOnly_handleReply hi hreply
    · cases hmessage : refreshMessage C ical snapshots sender with
      | error e =>
        rw [hmessage] at h
        cases h
      | ok m =>
        rw [hmessage] at h
        cases h
    · cases h
  · rw [if_neg hlocal] at h
    cases hactions : organizerActions C snapshots itip itipSnapshots sender method with
    | error e =>
      rw [hactions] at h
      cases h
    | ok l =>
      rw [hactions] at h
      obtain rfl := mergeResult_eq_actions (Except.ok.inj h)
      exact bringsOnly_organizerActions hi hactions

end

/-! ## Runs -/

section

variable {C accountEmails} {store : ItipStore} {m : Delivery} {itip : ICalendar} {itipSnapshots : ItipSnapshots} {d : ℕ}
  {o : String}

theorem read_eq_ok (h : m.read C accountEmails = .ok (itip, itipSnapshots)) :
    itipSnapshot C itip accountEmails false = .ok itipSnapshots ∧
      (m.sender = itipSnapshots.organizer.email.email ∨ ∃ id, Attends itipSnapshots id m.sender) := by
  obtain ⟨parsed, -, h⟩ := bind_eq_ok h
  obtain ⟨s, hs, h⟩ := bind_eq_ok h
  split_ifs at h with hsender
  obtain ⟨rfl, rfl⟩ := Prod.mk.inj (Except.ok.inj h)
  refine ⟨hs, ?_⟩
  rw [Bool.not_eq_true', Bool.not_eq_false, ItipSnapshots.senderIsOrganizerOrAttendee, Bool.or_eq_true,
    any_eq_true] at hsender
  rcases hsender with horganizer | ⟨⟨id, inst⟩, he, hany⟩
  · exact Or.inl (of_decide_eq_true horganizer).symm
  · obtain ⟨a, ha, hemail⟩ := any_eq_true.mp hany
    exact Or.inr ⟨id, inst, Calcard.mem_entries.mp he, a, ha, of_decide_eq_true hemail⟩

variable (C o d) in
/-- The event is stored and names no other organizer. -/
def Records (store : ItipStore) : Prop :=
  ∃ event, store.events.lookup d = some event ∧ OrganizedBy C o event.event.components

variable {r : ItipStore × Option ItipMessage}

theorem importEvent_eq_ok (h : importEvent C store m itip = .ok r) :
    ∃ event, r.1.events = store.events.insert (m.server.assignDocumentId store.events) event := by
  unfold importEvent at h
  by_cases hauto : !m.server.itipAutoAdd ∧ (m.server.accountIdFromEmail m.sender).isNone ∧
      !m.server.contactExists m.sender
  · rw [if_pos hauto] at h
    cases h
  rw [if_neg hauto] at h
  obtain ⟨method, -, h⟩ := bind_eq_ok h
  by_cases hmethod : method ≠ .request
  · rw [if_pos hmethod] at h
    cases h
  rw [if_neg hmethod] at h
  obtain ⟨ical, -, h⟩ := bind_eq_ok h
  split_ifs at h
  split at h
  · cases h
  · obtain rfl := Except.ok.inj h
    exact ⟨_, rfl⟩

theorem itipIngest_eq_ok (h : itipIngest C accountEmails store m = .ok r) :
    ∃ itip itipSnapshots, m.read C accountEmails = .ok (itip, itipSnapshots) ∧
      (r.1.events = store.events ∨
        (∃ documentId event, documentId ∉ store.events ∧ r.1.events = store.events.insert documentId event) ∨
        ∃ documentId event event' snapshots changes, store.events.lookup documentId = some event ∧
          itipSnapshot C event.event accountEmails false = .ok snapshots ∧
          itipProcessMessage C event.event snapshots itip itipSnapshots m.sender = .ok (.actions changes) ∧
          r.1.events = store.events.insert documentId event' ∧ event'.event = itipMergeChanges C event.event changes) := by
  obtain ⟨⟨itip, itipSnapshots⟩, hread, h⟩ := bind_eq_ok h
  refine ⟨itip, itipSnapshots, hread, ?_⟩
  dsimp only at h
  split at h
  · rename_i documentId _
    split at h
    · rename_i event hevent
      obtain ⟨snapshots, hs, h⟩ := bind_eq_ok h
      obtain ⟨result, hresult, h⟩ := bind_eq_ok h
      split at h
      · rename_i changes
        dsimp only at h
        split_ifs at h
        · obtain rfl := Except.ok.inj h
          exact Or.inr (Or.inr ⟨documentId, event, _, snapshots, changes, hevent, hs, hresult, rfl, rfl⟩)
        · obtain rfl := Except.ok.inj h
          exact Or.inr (Or.inr ⟨documentId, event, _, snapshots, changes, hevent, hs, hresult, rfl, rfl⟩)
      · obtain rfl := Except.ok.inj h
        exact Or.inl rfl
      · obtain rfl := Except.ok.inj h
        exact Or.inl rfl
    · cases h
  · obtain ⟨event, hr⟩ := importEvent_eq_ok h
    exact Or.inr (Or.inl ⟨_, event, m.server.assignDocumentId_fresh store.events, hr⟩)

/-- **One message**: the event names no other organizer after it, and it only changes by one that names this organizer. -/
theorem records_receive (hlaw : RemovesComponents C) (h : Records C d o store) (m : Delivery) :
    Records C d o (store.receive C accountEmails m) ∧
      ((store.receive C accountEmails m).events.lookup d ≠ store.events.lookup d →
        ∃ itip itipSnapshots, m.read C accountEmails = .ok (itip, itipSnapshots) ∧
          itipSnapshots.organizer.email.email = o) := by
  obtain ⟨event, hevent, horganized⟩ := h
  unfold receive
  cases hingest : itipIngest C accountEmails store m with
  | error e => exact ⟨⟨event, hevent, horganized⟩, fun hne => absurd rfl hne⟩
  | ok r =>
    obtain ⟨itip, itipSnapshots, hread, hr⟩ := itipIngest_eq_ok hingest
    have hsame (hlookup : r.1.events.lookup d = store.events.lookup d) : Records C d o r.1 ∧
        (r.1.events.lookup d ≠ store.events.lookup d → ∃ itip itipSnapshots,
          m.read C accountEmails = .ok (itip, itipSnapshots) ∧ itipSnapshots.organizer.email.email = o) :=
      ⟨⟨event, hlookup.trans hevent, horganized⟩, fun hne => absurd hlookup hne⟩
    rcases hr with hr | ⟨documentId, added, hfresh, hr⟩ |
      ⟨documentId, old, event', snapshots, changes, hold, hs, hprocess, hr, hmerged⟩
    · exact hsame (by rw [hr])
    · refine hsame ?_
      rw [hr, AList.lookup_insert_ne]
      rintro rfl
      exact hfresh (AList.lookup_isSome.mp (Option.isSome_iff_exists.mpr ⟨event, hevent⟩))
    · by_cases hd : documentId = d
      · subst hd
        obtain rfl : old = event := Option.some.inj (hold.symm.trans hevent)
        obtain ⟨hi, -⟩ := read_eq_ok hread
        obtain ⟨horganizer, hbrings⟩ := bringsOnly_process hi hprocess
        have ho : itipSnapshots.organizer.email.email = o :=
          horganizer.symm.trans (organizedBy_iff.1 horganized _ (organizer_itipSnapshot hs).2)
        rw [ho] at hbrings
        refine ⟨⟨event', ?_, ?_⟩, fun _ => ⟨itip, itipSnapshots, hread, ho⟩⟩
        · rw [hr, AList.lookup_insert]
        · rw [hmerged]
          exact horganized.itipMergeChanges hlaw hbrings
      · refine hsame ?_
        rw [hr, AList.lookup_insert_ne (Ne.symm hd)]

/-- **Any run.** -/
theorem records_foldl (hlaw : RemovesComponents C) (h : Records C d o store) (deliveries : List Delivery) :
    Records C d o (deliveries.foldl (receive C accountEmails) store) := by
  induction deliveries generalizing store with
  | nil => exact h
  | cons m deliveries ih => exact ih (records_receive hlaw h m).1

end

/-- **Over any run** the organizer of an event stays the same, and only a message that names this organizer, from the
organizer or from somebody whom the message itself names as a participant, changes the event. -/
theorem changed_by_participant {C : Calcard} (hlaw : RemovesComponents C) {accountEmails : List String}
    {store : ItipStore} {d : ℕ} {event : CalendarEvent ICalendar} {snapshots : ItipSnapshots}
    (hevent : store.events.lookup d = some event) (hs : itipSnapshot C event.event accountEmails false = .ok snapshots)
    (deliveries : List Delivery) (m : Delivery) :
    (∃ event', (deliveries.foldl (receive C accountEmails) store).events.lookup d = some event' ∧
      ∀ s, itipSnapshot C event'.event accountEmails false = .ok s →
        s.organizer.email.email = snapshots.organizer.email.email) ∧
    (((deliveries.foldl (receive C accountEmails) store).receive C accountEmails m).events.lookup d ≠
        (deliveries.foldl (receive C accountEmails) store).events.lookup d →
      ∃ itip itipSnapshots, m.read C accountEmails = .ok (itip, itipSnapshots) ∧
        itipSnapshots.organizer.email.email = snapshots.organizer.email.email ∧
        (m.sender = snapshots.organizer.email.email ∨ ∃ id, Attends itipSnapshots id m.sender)) := by
  have hrecords : Records C d snapshots.organizer.email.email (deliveries.foldl (receive C accountEmails) store) :=
    records_foldl hlaw ⟨event, hevent, organizedBy_iff.2 (organizer_itipSnapshot hs).1⟩ deliveries
  constructor
  · obtain ⟨event', hevent', horganized⟩ := hrecords
    exact ⟨event', hevent', fun s hs' => organizedBy_iff.1 horganized _ (organizer_itipSnapshot hs').2⟩
  · intro hchanged
    obtain ⟨itip, itipSnapshots, hread, horganizer⟩ := (records_receive hlaw hrecords m).2 hchanged
    refine ⟨itip, itipSnapshots, hread, horganizer, ?_⟩
    rw [← horganizer]
    exact (read_eq_ok hread).2

section

theorem removes_january : RemovesComponents januaryCalcard := by
  intro ical ids componentType entries _
  constructor
  · rintro ⟨c, hc, hcontents⟩
    obtain ⟨⟨c', i⟩, hc', rfl⟩ := mem_map.mp hc
    obtain ⟨hmem, hi⟩ := mem_filter.mp hc'
    exact ⟨i, c', mem_zipIdx_iff_getElem?.mp hmem, of_decide_eq_true hi, hcontents⟩
  · rintro ⟨i, c, hi, hnot, hcontents⟩
    refine ⟨_, mem_map.mpr ⟨(c, i), mem_filter.mpr ⟨mem_zipIdx_iff_getElem?.mpr hi, ?_⟩, rfl⟩, hcontents⟩
    exact decide_eq_true hnot

/-- An id above some others. -/
def nextId : List ℕ → ℕ
  | [] => 0
  | id :: ids => id + 1 + nextId ids

theorem lt_nextId {id : ℕ} : ∀ {ids : List ℕ}, id ∈ ids → id < nextId ids
  | i :: ids, h => by
    rw [nextId]
    rcases mem_cons.mp h with rfl | h
    · omega
    · have := lt_nextId h
      omega

/-- A server whose index has one event, and which has room for every other. -/
def roomyServer : ItipServer where
  accountIdFromEmail _ := none
  documentMatching events _ := events.keys.head?
  contactExists _ := true
  itipAutoAdd := true
  icalSize _ := 0
  maxIcalSize := 1
  hasAvailableQuota _ := true
  defaultCalendar := some 0
  eventName := "event"
  assignDocumentId events := nextId events.keys
  assignDocumentId_fresh _ h := Nat.lt_irrefl _ (lt_nextId (AList.mem_keys.mp h))

/-- The copy of `a@x`, with `b@x` as another participant. -/
def copied : ItipStore where
  events := AList.singleton 1
    { names := [], event := calendarOf [meetingOf [participating "a@x" [], participating "b@x" []] "here" none], flags := 0,
      size := 0, scheduleTag := none }
  notifications := []

/-- A message about the meeting, to the two. -/
def deliveryOf (sender : String) (method : ICalendarMethod) (location : String) : Delivery where
  server := roomyServer
  sender
  recipient := "a@x"
  parsed := some ⟨[⟨.vCalendar, [⟨.method, [], [.method method]⟩], [1]⟩,
    meetingOf [participating "a@x" [], participating "b@x" []] location none]⟩
  length := 0

/-- The event of the copy after a message, if it differs. -/
def changedCopy (m : Delivery) : Except ItipError (Bool × String) := do
  let snapshots ← itipSnapshot januaryCalcard
    (calendarOf [meetingOf [participating "a@x" [], participating "b@x" []] "here" none]) ["a@x"] false
  return (!snapshots.organizer.email.isLocal && decide
    (((copied.receive januaryCalcard ["a@x"] m).events.lookup 1).map (·.event) ≠ (copied.events.lookup 1).map (·.event)),
      snapshots.organizer.email.email)

theorem exists_of_changedCopy {m : Delivery} (h : changedCopy m = .ok (true, "o@x")) : ∃ snapshots,
    itipSnapshot januaryCalcard (calendarOf [meetingOf [participating "a@x" [], participating "b@x" []] "here" none])
      ["a@x"] false = .ok snapshots ∧ snapshots.organizer.email.isLocal = false ∧
    snapshots.organizer.email.email = "o@x" ∧
    (copied.receive januaryCalcard ["a@x"] m).events.lookup 1 ≠ copied.events.lookup 1 := by
  obtain ⟨snapshots, hs, h⟩ := bind_eq_ok h
  obtain ⟨hchanged, horganizer⟩ := Prod.mk.inj (Except.ok.inj h)
  obtain ⟨hlocal, hne⟩ := Bool.and_eq_true_iff.mp hchanged
  refine ⟨snapshots, hs, ?_, horganizer, fun heq => of_decide_eq_true hne (by rw [heq])⟩
  simpa using hlocal

theorem changed_by_organizer : ∃ itip itipSnapshots,
    (deliveryOf "o@x" .request "there").read januaryCalcard ["a@x"] = .ok (itip, itipSnapshots) ∧
      itipSnapshots.organizer.email.email = "o@x" := by
  obtain ⟨snapshots, hs, -, horganizer, hchanged⟩ :=
    exists_of_changedCopy (show changedCopy (deliveryOf "o@x" .request "there") = _ by decide)
  obtain ⟨itip, itipSnapshots, hread, hsame, -⟩ :=
    (changed_by_participant removes_january (show copied.events.lookup 1 = some _ from rfl) hs [] _).2 hchanged
  exact ⟨itip, itipSnapshots, hread, hsame.trans horganizer⟩

/-- A participant cancels the meeting of the organizer. -/
theorem not_organizer_cancels : ¬ ∀ (C : Calcard) (accountEmails : List String) (store : ItipStore) (d : ℕ)
    (event : CalendarEvent ICalendar) (snapshots : ItipSnapshots), RemovesComponents C →
    store.events.lookup d = some event → itipSnapshot C event.event accountEmails false = .ok snapshots →
    snapshots.organizer.email.isLocal = false → ∀ (deliveries : List Delivery) (m : Delivery),
    (∃ ical, m.parsed = some ical ∧ itipMethod ical ∈
      [Except.ok ICalendarMethod.request, Except.ok ICalendarMethod.add, Except.ok ICalendarMethod.cancel]) →
    ((deliveries.foldl (receive C accountEmails) store).receive C accountEmails m).events.lookup d ≠
      (deliveries.foldl (receive C accountEmails) store).events.lookup d →
    m.sender = snapshots.organizer.email.email := by
  intro h
  obtain ⟨snapshots, hs, hforeign, horganizer, hchanged⟩ :=
    exists_of_changedCopy (show changedCopy (deliveryOf "b@x" .cancel "here") = _ by decide)
  have hsender := h januaryCalcard ["a@x"] copied 1 _ snapshots removes_january rfl hs hforeign []
    (deliveryOf "b@x" .cancel "here") ⟨_, rfl, by simp [itipMethod]⟩ hchanged
  rw [horganizer] at hsender
  exact absurd hsender (by decide)

end

end MailServer.Groupware
