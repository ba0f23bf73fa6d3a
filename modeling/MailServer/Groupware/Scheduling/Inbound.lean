import MailServer.Groupware.Scheduling.Organizer
import Mathlib.Data.Finset.Image

/-!
# Messages that come in (`scheduling/inbound.rs`)

* `itipProcessMessage`: what a message asks to change in the stored event.
* `itipMergeChanges`: the event with these changes.
* `getElem?_foldl_mergeAction`: a component changes by the actions about it, in their order.
-/

namespace MailServer.Groupware

open MailServer.Lib List Calcard

inductive MergeAction
  | addEntries (componentId : ℕ) (entries : List ICalendarEntry)
  | removeEntries (componentId : ℕ) (entries : Finset ICalendarProperty)
  | addParameters (componentId entryId : ℕ) (parameters : List ICalendarParameter)
  | removeParameters (componentId entryId : ℕ) (parameters : List ICalendarParameterName)
  | addComponent (component : ICalendarComponent)
  | removeComponent (componentId : ℕ)
deriving DecidableEq

inductive MergeResult
  | actions (actions : List MergeAction)
  | message (message : ItipMessage)
  | none
deriving DecidableEq

variable (C : Calcard)

/-- The method of a message. -/
def itipMethod (ical : ICalendar) : Except ItipError ICalendarMethod :=
  match ical.components.head?.bind fun comp => comp.entries.findSome? fun entry =>
    if entry.name = .method then
      match entry.values.head? with
      | some (.method method) => some method
      | _ => none
    else none with
  | some method => .ok method
  | none => .error .missingMethod

/-- The actions for the instances of a message, one instance after the other. -/
def instanceActions (components : AList fun _ : InstanceId => ItipSnapshot)
    (f : InstanceId → ItipSnapshot → Except ItipError (List MergeAction)) : Except ItipError (List MergeAction) :=
  ((C.entries components).mapM fun e => f e.1 e.2).map List.flatten

/-! ## Replies -/

/-- The parameters that a reply sets for a delegate. -/
def ICalendarParameterName.isDelegation : ICalendarParameterName → Bool
  | .delegatedTo | .delegatedFrom | .partstat | .rsvp | .scheduleStatus | .role => true
  | _ => false

def delegationParameters : List ICalendarParameterName :=
  [.delegatedTo, .delegatedFrom, .partstat, .rsvp, .scheduleStatus, .role]

/-- The properties of a task that a reply sets. -/
def ICalendarProperty.isProgress : ICalendarProperty → Bool
  | .percentComplete | .status | .completed => true
  | _ => false

/-- What the sender says of themselves: the parameters to take out, and those to put in. -/
def participantParameters (attendee updated : Attendee) (requestStatus : List String) :
    List ICalendarParameterName × List ICalendarParameter :=
  let changedDelegatedTo : Bool := attendee.delegatedTo.map Email.email ≠ updated.delegatedTo.map Email.email
  ((if attendee.partStat ≠ updated.partStat then [.partstat] else []) ++
      (if attendee.rsvp ≠ updated.rsvp then [.rsvp] else []) ++
      (if changedDelegatedTo then [.delegatedTo] else []) ++ (if requestStatus ≠ [] then [.scheduleStatus] else []),
    (if attendee.partStat ≠ updated.partStat then updated.partStat.toList.map fun v => ⟨.partstat, .partstat v⟩ else []) ++
      (if attendee.rsvp ≠ updated.rsvp then updated.rsvp.toList.map fun v => ⟨.rsvp, .bool v⟩ else []) ++
      (if changedDelegatedTo then
        updated.delegatedTo.map fun email => ⟨.delegatedTo, .uri (.location email.toUri)⟩ else []) ++
      if requestStatus ≠ [] then [⟨.scheduleStatus, .text (",".intercalate requestStatus)⟩] else [])

/-- A delegate that the sender names. -/
def delegateActions (snapshot itipSnapshot : ItipSnapshot) (delegatedTo : Email) : List MergeAction :=
  match itipSnapshot.attendeeByEmail delegatedTo.email with
  | none => []
  | some itipDelegated =>
    match snapshot.attendeeByEmail delegatedTo.email with
    | some delegated =>
      if delegated.key ≠ itipDelegated.key then
        [.removeParameters snapshot.compId delegated.entryId delegationParameters,
          .addParameters snapshot.compId delegated.entryId
            (((itipSnapshot.comp.entries[itipDelegated.entryId]?).elim [] ICalendarEntry.params).filter
              (·.name.isDelegation))]
      else []
    | none => [.addEntries snapshot.compId (itipSnapshot.comp.entries[itipDelegated.entryId]?).toList]

/-- The sender's participation in an instance that the event has. -/
def participantActions (snapshot itipSnapshot : ItipSnapshot) (attendee updated : Attendee) : List MergeAction :=
  let parameters := participantParameters attendee updated itipSnapshot.requestStatus
  if parameters.1 ≠ [] then
    [.removeParameters snapshot.compId attendee.entryId parameters.1,
      .addParameters snapshot.compId attendee.entryId parameters.2] ++
      updated.delegatedTo.flatMap (delegateActions snapshot itipSnapshot)
  else []

/-- Add changed properties for VTODO -/
def progressActions (snapshot itipSnapshot : ItipSnapshot) : List MergeAction :=
  let entries := itipSnapshot.comp.entries.filter (·.name.isProgress)
  if snapshot.comp.componentType = .vTodo ∧ entries ≠ [] then
    [.removeEntries snapshot.compId (entries.map ICalendarEntry.name).toFinset, .addEntries snapshot.compId entries]
  else []

/-- An instance that the event does not have, as a reply adds it. -/
def repliedComponent (comp : ICalendarComponent) : ICalendarComponent where
  componentType := comp.componentType
  entries := comp.entries.filter fun entry =>
    match entry.name with
    | .organizer | .attendee | .uid | .dtstamp | .sequence | .recurrenceId => true
    | name => decide (comp.componentType = .vTodo) && name.isProgress
  componentIds := []

def replyActions (snapshots : ItipSnapshots) (sender : String) (instanceId : InstanceId) (itipSnapshot : ItipSnapshot) :
    Except ItipError (List MergeAction) :=
  match snapshots.components.lookup instanceId with
  | some snapshot =>
    match snapshot.attendeeByEmail sender, itipSnapshot.attendeeByEmail sender with
    | some attendee, some updated =>
      .ok (participantActions snapshot itipSnapshot attendee updated ++ progressActions snapshot itipSnapshot)
    | _, _ => .error (.senderIsNotParticipant sender)
  | none =>
    match itipSnapshot.attendeeByEmail sender with
    | some _ => .ok [.addComponent (repliedComponent itipSnapshot.comp)]
    | none => .error (.senderIsNotParticipant sender)

def handleReply (snapshots itipSnapshots : ItipSnapshots) (sender : String) : Except ItipError (List MergeAction) :=
  instanceActions C itipSnapshots.components (replyActions snapshots sender)

/-! ## Requests and cancellations -/

/-- An instance that the event does not have, as the organizer adds it. -/
def addedComponent (comp : ICalendarComponent) : ICalendarComponent where
  componentType := comp.componentType
  entries := comp.entries.filter fun entry =>
    match entry.name with
    | .other _ => false
    | _ => true
  componentIds := []

/-- The properties in which a request differs from what is stored. -/
def changedProperties (snapshot itipSnapshot : ItipSnapshot) : Finset ICalendarProperty :=
  insert .sequence
    (((itipSnapshot.entries \ snapshot.entries) ∪ (snapshot.entries \ itipSnapshot.entries)).image ItipEntry.name ∪
      (if itipSnapshot.sameAttendees snapshot then ∅ else {.attendee}) ∪
      if itipSnapshot.dtstamp.isSome ∧ itipSnapshot.dtstamp ≠ snapshot.dtstamp then {.dtstamp} else ∅)

def requestActions (itip : ICalendar) (snapshots : ItipSnapshots) (instanceId : InstanceId) (itipSnapshot : ItipSnapshot) :
    Except ItipError (List MergeAction) :=
  let itipComponent := (itip.components[itipSnapshot.compId]?).getD ⟨.vCalendar, [], []⟩
  match snapshots.components.lookup instanceId with
  | some snapshot =>
    -- Merge instances
    if snapshot.sequence.getD 0 ≤ itipSnapshot.sequence.getD 0 then
      let changed := changedProperties snapshot itipSnapshot
      .ok [.removeEntries snapshot.compId changed,
        .addEntries snapshot.compId (itipComponent.entries.filter (·.name ∈ changed))]
    else .error .outOfSequence
  -- Add instance
  | none => .ok [.addComponent (addedComponent itipComponent)]

/-- Remove instance -/
def removedActions (snapshots itipSnapshots : ItipSnapshots) : List MergeAction :=
  if InstanceId.main ∈ itipSnapshots.components then
    ((C.entries snapshots.components).filter (·.1 ∉ itipSnapshots.components)).map fun e => .removeComponent e.2.compId
  else []

def addActions (itip : ICalendar) (snapshots : ItipSnapshots) (instanceId : InstanceId) (itipSnapshot : ItipSnapshot) :
    Except ItipError (List MergeAction) :=
  if instanceId ∈ snapshots.components then .ok []
  else .ok [.addComponent (addedComponent ((itip.components[itipSnapshot.compId]?).getD ⟨.vCalendar, [], []⟩))]

def cancelledStatus : ICalendarEntry := ⟨.status, [], [.status .cancelled]⟩

/-- The organizer and the participants of a cancelled instance. -/
def cancelEntries (comp : ICalendarComponent) : List ICalendarEntry :=
  comp.entries.filter (fun entry => entry.name = .organizer ∨ entry.name = .attendee) ++ [cancelledStatus]

def cancelActions (snapshots : ItipSnapshots) (instanceId : InstanceId) (itipSnapshot : ItipSnapshot) :
    Except ItipError (List MergeAction) :=
  match snapshots.components.lookup instanceId with
  | some snapshot =>
    if snapshot.sequence.getD 0 ≤ itipSnapshot.sequence.getD 0 then
      -- Cancel instance
      .ok [.removeEntries snapshot.compId {.organizer, .attendee, .status, .sequence},
        .addEntries snapshot.compId (cancelEntries itipSnapshot.comp)]
    else .error .outOfSequence
  | none =>
    .ok [.addComponent
      { componentType := itipSnapshot.comp.componentType
        entries := itipSnapshot.comp.entries.filter (fun entry =>
          match entry.name with
          | .status | .other _ => false
          | _ => true) ++ [cancelledStatus]
        componentIds := [] }]

/-- Remove all instances -/
def cancelledActions (snapshots itipSnapshots : ItipSnapshots) : List MergeAction :=
  if InstanceId.main ∈ snapshots.components then
    match itipSnapshots.components.lookup .main with
    | some itipMain =>
      ((C.entries snapshots.components).filter (·.1 ∉ itipSnapshots.components)).flatMap fun e =>
        [.removeEntries e.2.compId {.organizer, .attendee, .status}, .addEntries e.2.compId (cancelEntries itipMain.comp)]
    | none => []
  else []

/-! ## A message -/

/-- A participant that a local one delegated to. -/
def delegatedFromLocal (itipSnapshots : ItipSnapshots) (sender : String) : Bool :=
  (C.entries itipSnapshots.components).any fun e => e.2.externalAttendees.any fun a =>
    a.email.email = sender && a.delegatedFrom.any (·.isLocal)

/-- The actions of a message to an event of somebody else. -/
def organizerActions (snapshots : ItipSnapshots) (itip : ICalendar) (itipSnapshots : ItipSnapshots) (sender : String) :
    ICalendarMethod → Except ItipError (List MergeAction)
  | .request => do
    let actions ← instanceActions C itipSnapshots.components (requestActions itip snapshots)
    return actions ++ removedActions C snapshots itipSnapshots
  | .add => instanceActions C itipSnapshots.components (addActions itip snapshots)
  | .cancel => do
    let actions ← instanceActions C itipSnapshots.components (cancelActions snapshots)
    return actions ++ cancelledActions C snapshots itipSnapshots
  | .reply =>
    if delegatedFromLocal C itipSnapshots sender then handleReply C snapshots itipSnapshots sender
    else .error (.unsupportedMethod .reply)
  | method => .error (.unsupportedMethod method)

/-- The first message of a full request, to whoever asks for it. -/
def refreshMessage (ical : ICalendar) (snapshots : ItipSnapshots) (sender : String) : Except ItipError ItipMessage := do
  match (← (organizerRequestFull C ical snapshots false false).1) with
  | message :: _ => return { message with «to» := [sender] }
  | [] => .error .nothingToSend

def mergeResult (actions : List MergeAction) : MergeResult := if actions ≠ [] then .actions actions else .none

def itipProcessMessage (ical : ICalendar) (snapshots : ItipSnapshots) (itip : ICalendar) (itipSnapshots : ItipSnapshots)
    (sender : String) : Except ItipError MergeResult :=
  if snapshots.organizer.email.email ≠ itipSnapshots.organizer.email.email then .error .organizerMismatch
  else do
    let method ← itipMethod itip
    if snapshots.organizer.email.isLocal then
      -- Handle attendee updates
      if snapshots.organizer.email.email = sender then .error .organizerIsLocalAddress
      else
        match method with
        | .reply => (handleReply C snapshots itipSnapshots sender).map mergeResult
        | .refresh => (refreshMessage C ical snapshots sender).map MergeResult.message
        | method => .error (.unsupportedMethod method)
    -- Handle organizer and attendees updates
    else (organizerActions C snapshots itip itipSnapshots sender method).map mergeResult

/-- What is stored of a request for an event that is new. -/
def itipImportMessage (ical : ICalendar) : Except ItipError ICalendar := do
  let s ← ical.components.foldlM (fun (s : Option ICalendarComponentType × List ICalendarComponent) comp =>
    if C.isSchedulingObject comp.componentType then
      match s.1 with
      | some expected =>
        if expected ≠ comp.componentType then .error .multipleObjectTypes else .ok (s.1, s.2 ++ [comp])
      | none => .ok (some comp.componentType, s.2 ++ [comp])
    else if comp.componentType = .vCalendar then
      .ok (s.1, s.2 ++ [{ comp with entries := comp.entries.filter (·.name ≠ .method) }])
    else .ok (s.1, s.2 ++ [comp])) (none, [])
  return ⟨s.2⟩

/-! ## Merging -/

def mergeAction (components : List ICalendarComponent) : MergeAction → List ICalendarComponent
  | .addEntries id entries => components.modify id fun c => { c with entries := c.entries ++ entries }
  | .removeEntries id names => components.modify id fun c => { c with entries := c.entries.filter (·.name ∉ names) }
  | .addParameters id entryId parameters => components.modify id fun c =>
    { c with entries := c.entries.modify entryId fun entry => { entry with params := entry.params ++ parameters } }
  | .removeParameters id entryId names => components.modify id fun c =>
    { c with entries := c.entries.modify entryId fun entry =>
      { entry with params := entry.params.filter (·.name ∉ names) } }
  | .addComponent component =>
    if components.head?.any (·.componentType = .vCalendar) then pushRoot components components.length ++ [component]
    else components
  | .removeComponent _ => components

/-- The components that are taken out at the end. -/
def removeComponentIds (changes : List MergeAction) : List ℕ :=
  changes.filterMap fun
    | .removeComponent id => some id
    | _ => none

def itipMergeChanges (ical : ICalendar) (changes : List MergeAction) : ICalendar :=
  let merged : ICalendar := ⟨changes.foldl mergeAction ical.components⟩
  if removeComponentIds changes ≠ [] then C.removeComponentIds merged (removeComponentIds changes) else merged

/-! ## What the actions do -/

namespace MergeAction

/-- The component that an action is about. -/
def target : MergeAction → Option ℕ
  | .addEntries id _ | .removeEntries id _ | .addParameters id _ _ | .removeParameters id _ _ => some id
  | .addComponent _ | .removeComponent _ => none

/-- The properties of this component after the action. -/
def edit (entries : List ICalendarEntry) : MergeAction → List ICalendarEntry
  | .addEntries _ added => entries ++ added
  | .removeEntries _ names => entries.filter (·.name ∉ names)
  | .addParameters _ entryId parameters => entries.modify entryId fun entry =>
    { entry with params := entry.params ++ parameters }
  | .removeParameters _ entryId names => entries.modify entryId fun entry =>
    { entry with params := entry.params.filter (·.name ∉ names) }
  | .addComponent _ | .removeComponent _ => entries

end MergeAction

/-- The properties that a component has after the actions about it. -/
def editedEntries (actions : List MergeAction) (i : ℕ) (entries : List ICalendarEntry) : List ICalendarEntry :=
  (actions.filter (·.target = some i)).foldl MergeAction.edit entries

variable {C} {components : List ICalendarComponent} {c : ICalendarComponent} {i : ℕ}

theorem mergeAction_of_target {a : MergeAction} (h : a.target = some i) :
    mergeAction components a = components.modify i fun c => { c with entries := a.edit c.entries } := by
  cases a <;> cases h <;> rfl

theorem getElem?_mergeAction (a : MergeAction) (h : components[i]? = some c) :
    ∃ c', (mergeAction components a)[i]? = some c' ∧ c'.componentType = c.componentType ∧
      c'.entries = editedEntries [a] i c.entries := by
  cases ht : a.target with
  | some j =>
    refine ⟨if j = i then { c with entries := a.edit c.entries } else c, ?_, ?_, ?_⟩
    · rw [mergeAction_of_target ht, getElem?_modify, h]
      split <;> rfl
    · split <;> rfl
    · by_cases hj : j = i
      · simp [editedEntries, ht, hj]
      · simp [editedEntries, ht, hj]
  | none =>
    cases a with
    | addComponent component =>
      have hlt : i < components.length := (List.getElem?_eq_some_iff.mp h).1
      unfold mergeAction
      dsimp only
      split
      · rw [getElem?_append_left (by rw [pushRoot, length_modify]; exact hlt), pushRoot, getElem?_modify, h]
        refine ⟨_, rfl, ?_, ?_⟩
        · split <;> rfl
        · split <;> rfl
      · exact ⟨c, h, rfl, rfl⟩
    | removeComponent id => exact ⟨c, h, rfl, rfl⟩
    | _ => cases ht

/-- **All actions**: a component keeps its type, and its properties change by the actions about it. -/
theorem getElem?_foldl_mergeAction (actions : List MergeAction) (h : components[i]? = some c) :
    ∃ c', (actions.foldl mergeAction components)[i]? = some c' ∧ c'.componentType = c.componentType ∧
      c'.entries = editedEntries actions i c.entries := by
  induction actions generalizing components c with
  | nil => exact ⟨c, h, rfl, rfl⟩
  | cons a actions ih =>
    obtain ⟨c₁, h₁, htype₁, hentries₁⟩ := getElem?_mergeAction a h
    obtain ⟨c₂, h₂, htype₂, hentries₂⟩ := ih h₁
    refine ⟨c₂, h₂, htype₂.trans htype₁, ?_⟩
    rw [hentries₂, hentries₁, editedEntries, editedEntries, ← foldl_append, ← filter_append]
    rfl

variable {actions : List MergeAction}

theorem getElem?_foldl_of_target (h : ∀ a ∈ actions, a.target.isSome) (i : ℕ) :
    (actions.foldl mergeAction components)[i]? =
      components[i]?.map fun c => { c with entries := editedEntries actions i c.entries } := by
  induction actions generalizing components with
  | nil => simp [editedEntries]
  | cons a actions ih =>
    obtain ⟨j, hj⟩ := Option.isSome_iff_exists.mp (h a mem_cons_self)
    rw [foldl_cons, ih fun b hb => h b (mem_cons_of_mem _ hb), mergeAction_of_target hj, getElem?_modify]
    cases components[i]? with
    | none => rfl
    | some c =>
      by_cases hji : j = i
      · simp [editedEntries, hj, hji]
      · simp [editedEntries, hj, hji]

theorem itipMergeChanges_of_noRemoval {ical : ICalendar} (h : removeComponentIds actions = []) :
    itipMergeChanges C ical actions = ⟨actions.foldl mergeAction ical.components⟩ := by
  rw [itipMergeChanges, if_neg (not_not_intro h)]

/-! ## The actions of a message -/

section

variable {m : AList fun _ : InstanceId => ItipSnapshot}
  {f : InstanceId → ItipSnapshot → Except ItipError (List MergeAction)} {actions : List MergeAction}

/-- The actions for an instance, if it is not refused. -/
def chunk (x : Except ItipError (List MergeAction)) : List MergeAction :=
  match x with
  | .ok actions => actions
  | .error _ => []

theorem mapM_eq_ok {l : List (InstanceId × ItipSnapshot)} {chunks : List (List MergeAction)}
    (h : l.mapM (fun e => f e.1 e.2) = .ok chunks) :
    (∀ e ∈ l, f e.1 e.2 = .ok (chunk (f e.1 e.2))) ∧ chunks = l.map fun e => chunk (f e.1 e.2) := by
  induction l generalizing chunks with
  | nil =>
    exact ⟨(fun _ h => by cases h), (Except.ok.inj h).symm⟩
  | cons e l ih =>
    rw [mapM_cons] at h
    obtain ⟨first, hfirst, h⟩ := bind_eq_ok h
    obtain ⟨rest, hrest, h⟩ := bind_eq_ok h
    obtain ⟨hall, rfl⟩ := ih hrest
    have hchunk : f e.1 e.2 = .ok (chunk (f e.1 e.2)) := by rw [hfirst]; rfl
    refine ⟨forall_mem_cons.mpr ⟨hchunk, hall⟩, ?_⟩
    rw [← Except.ok.inj h, map_cons, hfirst]
    rfl

theorem instanceActions_eq_ok (h : instanceActions C m f = .ok actions) :
    (∀ id s, m.lookup id = some s → f id s = .ok (chunk (f id s))) ∧
      actions = (C.entries m).flatMap fun e => chunk (f e.1 e.2) := by
  unfold instanceActions at h
  cases hmap : (C.entries m).mapM fun e => f e.1 e.2 with
  | error e =>
    rw [hmap] at h
    cases h
  | ok chunks =>
    rw [hmap] at h
    obtain ⟨hall, rfl⟩ := mapM_eq_ok hmap
    refine ⟨fun id s hs => hall _ (mem_entries.mpr hs), ?_⟩
    rw [← Except.ok.inj h, flatMap_def]

theorem mem_instanceActions (h : instanceActions C m f = .ok actions) {a : MergeAction} :
    a ∈ actions ↔ ∃ id s l, m.lookup id = some s ∧ f id s = .ok l ∧ a ∈ l := by
  obtain ⟨hall, rfl⟩ := instanceActions_eq_ok h
  rw [mem_flatMap]
  constructor
  · rintro ⟨⟨id, s⟩, he, ha⟩
    exact ⟨id, s, _, mem_entries.mp he, hall id s (mem_entries.mp he), ha⟩
  · rintro ⟨id, s, l, hs, hl, ha⟩
    refine ⟨(id, s), mem_entries.mpr hs, ?_⟩
    rw [hl]
    exact ha

theorem nodup_entries (m : AList fun _ : InstanceId => ItipSnapshot) : (C.entries m).Nodup := by
  rw [entries, (C.iter_perm _).nodup_iff]
  refine List.Nodup.map ?_ (List.NodupKeys.nodup m.nodupKeys)
  rintro ⟨a, b⟩ ⟨a', b'⟩ h
  obtain ⟨rfl, rfl⟩ := Prod.mk.inj h
  rfl

theorem filter_flatMap_of_unique {α β : Type} [DecidableEq α] {l : List α} (hl : l.Nodup) {g : α → List β} {p : β → Bool}
    {x : α} (hx : x ∈ l) (hother : ∀ y ∈ l, y ≠ x → (g y).filter p = []) :
    (l.flatMap g).filter p = (g x).filter p := by
  obtain ⟨l₁, l₂, rfl⟩ := append_of_mem hx
  have hnotMem : x ∉ l₁ ++ l₂ := (nodup_cons.mp (nodup_middle.mp hl)).1
  have hnil (k : List α) (hk : ∀ y ∈ k, y ∈ l₁ ++ l₂) : (k.flatMap g).filter p = [] := by
    rw [filter_flatMap]
    refine flatMap_eq_nil_iff.mpr fun y hy => ?_
    have hy' := hk y hy
    refine hother y ?_ fun h => hnotMem (h ▸ hy')
    rcases mem_append.mp hy' with h | h
    · exact mem_append_left _ h
    · exact mem_append_right _ (mem_cons_of_mem _ h)
  rw [flatMap_append, flatMap_cons, filter_append, filter_append,
    hnil l₁ fun y hy => mem_append_left _ hy, hnil l₂ fun y hy => mem_append_right _ hy]
  simp

/-- An instance has actions about one component of the event only, which is that of the same instance. -/
def TargetsInstance (snapshots : ItipSnapshots) (f : InstanceId → ItipSnapshot → Except ItipError (List MergeAction)) :
    Prop :=
  ∀ id s l, f id s = .ok l → ∀ a ∈ l, ∀ i, a.target = some i →
    ∃ snapshot, snapshots.components.lookup id = some snapshot ∧ snapshot.compId = i

/-- Two instances of an event are two components. -/
def OneEach (snapshots : ItipSnapshots) : Prop :=
  ∀ id id' snapshot snapshot', snapshots.components.lookup id = some snapshot →
    snapshots.components.lookup id' = some snapshot' → snapshot'.compId = snapshot.compId → id' = id

variable {snapshots : ItipSnapshots} {id : InstanceId} {snapshot : ItipSnapshot}

theorem editedEntries_instanceActions (hone : OneEach snapshots) (hf : TargetsInstance snapshots f)
    (h : instanceActions C m f = .ok actions) (hid : snapshots.components.lookup id = some snapshot)
    (entries : List ICalendarEntry) : editedEntries actions snapshot.compId entries =
      editedEntries (((m.lookup id).map fun s => chunk (f id s)).getD []) snapshot.compId entries := by
  obtain ⟨hall, rfl⟩ := instanceActions_eq_ok h
  have hother (id' : InstanceId) (s : ItipSnapshot) (hs : m.lookup id' = some s) (hne : id' ≠ id) :
      (chunk (f id' s)).filter (·.target = some snapshot.compId) = [] := by
    refine filter_eq_nil_iff.mpr fun a ha => ?_
    intro htarget
    obtain ⟨snapshot', hid', hi⟩ := hf id' s _ (hall id' s hs) a ha _ (of_decide_eq_true htarget)
    exact hne (hone id id' snapshot snapshot' hid hid' hi)
  unfold editedEntries
  cases hm : m.lookup id with
  | some s =>
    rw [filter_flatMap_of_unique (nodup_entries m) (mem_entries.mpr hm)]
    · rfl
    · rintro ⟨id', s'⟩ hs' hne
      have hlookup := mem_entries.mp hs'
      refine hother id' s' hlookup fun hid' => hne ?_
      subst hid'
      rw [Option.some.inj (hm.symm.trans hlookup)]
  | none =>
    rw [filter_flatMap, flatMap_eq_nil_iff.mpr]
    · rfl
    · rintro ⟨id', s'⟩ hs'
      refine hother id' s' (mem_entries.mp hs') fun hid' => ?_
      subst hid'
      rw [mem_entries.mp hs'] at hm
      cases hm

theorem editedEntries_of_not_instance (hf : TargetsInstance snapshots f) (h : instanceActions C m f = .ok actions)
    (hi : ∀ id snapshot, snapshots.components.lookup id = some snapshot → snapshot.compId ≠ i)
    (entries : List ICalendarEntry) : editedEntries actions i entries = entries := by
  unfold editedEntries
  rw [filter_eq_nil_iff.mpr]
  · rfl
  · intro a ha htarget
    obtain ⟨id, s, l, -, hl, hmem⟩ := (mem_instanceActions h).mp ha
    obtain ⟨snapshot, hid, hcomp⟩ := hf id s l hl a hmem _ (of_decide_eq_true htarget)
    exact hi id snapshot hid hcomp

theorem exists_instanceActions :
    (∃ actions, instanceActions C m f = .ok actions) ↔ ∀ id s, m.lookup id = some s → ∃ l, f id s = .ok l := by
  constructor
  · rintro ⟨actions, h⟩ id s hs
    exact ⟨_, (instanceActions_eq_ok h).1 id s hs⟩
  · intro h
    have hlist (l : List (InstanceId × ItipSnapshot)) (hl : ∀ e ∈ l, ∃ k, f e.1 e.2 = .ok k) :
        ∃ chunks, l.mapM (fun e => f e.1 e.2) = .ok chunks := by
      induction l with
      | nil => exact ⟨[], rfl⟩
      | cons e l ih =>
        obtain ⟨k, hk⟩ := hl e mem_cons_self
        obtain ⟨chunks, hchunks⟩ := ih fun e' he' => hl e' (mem_cons_of_mem _ he')
        refine ⟨k :: chunks, ?_⟩
        rw [mapM_cons, hk, hchunks]
        rfl
    obtain ⟨chunks, hchunks⟩ := hlist (C.entries m) fun e he => h e.1 e.2 (mem_entries.mp he)
    refine ⟨chunks.flatten, ?_⟩
    rw [instanceActions, hchunks]
    rfl

end

theorem editedEntries_of_targets (h : ∀ a ∈ actions, a.target = some i)
    (entries : List ICalendarEntry) : editedEntries actions i entries = actions.foldl MergeAction.edit entries := by
  rw [editedEntries, filter_eq_self.mpr fun a ha => by simpa using h a ha]

theorem removeComponentIds_of_target
    (h : ∀ a ∈ actions, a.target.isSome ∨ ∃ component, a = .addComponent component) : removeComponentIds actions = [] := by
  refine filterMap_eq_nil_iff.mpr fun a ha => ?_
  rcases h a ha with htarget | ⟨component, rfl⟩
  · cases a <;> first | rfl | cases htarget
  · rfl

end MailServer.Groupware
