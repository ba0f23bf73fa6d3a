import MailServer.Groupware.Scheduling.Messages

/-!
# Sequence numbers that were sent are stored

* `InStep`: what was sent of the event is not ahead of what is stored.
* `inStep_iff`: when that is.
-/

namespace MailServer.Groupware

open MailServer.Lib List

variable (C : Calcard)

/-- Every component sent in a `REQUEST` or an `ADD` is stored with the same sequence number. -/
def InStep (ical : ICalendar) (messages : List ItipMessage) (stored : ICalendar) : Prop :=
  ∀ m ∈ messages, m.summary.method = .request ∨ m.summary.method = .add → ∀ c ∈ m.message.components,
    C.isSchedulingObject c.componentType = true → ∃ d ∈ stored.components,
      C.isSchedulingObject d.componentType = true ∧ instanceOf C ical d = instanceOf C ical c ∧
        sequenceNumberOf d = sequenceNumberOf c

/-- When the numbers go up, either somebody gets the full update, and no instance with participants has a number in a
second `SEQUENCE`, or nothing but cancellations is sent. -/
def Stepwise (old new : ItipSnapshots) : Prop :=
  SequenceRaised old new →
    ((∀ email, ¬ GetsFull C old new email) → ∀ id email method, Notified C old new id email method → method = .cancel) ∧
      ((∃ email, GetsFull C old new email) → ∀ id inst, new.components.lookup id = some inst → inst.attendees ≠ [] →
        laterNumbers inst.comp.entries = [])

variable {C} {A : AttendeeScheduling} {oldIcal ical stored : ICalendar} {old new : ItipSnapshots}
  {accountEmails : List String} {messages : List ItipMessage} {sequences : List ℕ} {id : InstanceId} {inst : ItipSnapshot}

theorem Notified.method_cases {email : String} {method : ICalendarMethod} (h : Notified C old new id email method) :
    method = .cancel ∨ method = .request ∨ method = .add := by
  cases h with
  | changed => exact Or.inr (Or.inl rfl)
  | removed => exact Or.inl rfl
  | dropped => exact Or.inl rfl
  | added =>
    split_ifs
    · exact Or.inl rfl
    · exact Or.inr (Or.inr rfl)

theorem instance_itipSnapshot (hnew : itipSnapshot C ical accountEmails false = .ok new)
    (h : new.components.lookup id = some inst) : ical.components[inst.compId]? = some inst.comp ∧
      C.isSchedulingObject inst.comp.componentType = true ∧ instanceOf C ical inst.comp = id ∧
      inst.sequence.getD 0 = sequenceNumberOf inst.comp := by
  obtain ⟨i, comp, hget, hsched, hid, rfl⟩ := (lookup_itipSnapshot hnew id inst).mp h
  rw [compId_snapshotOf, comp_snapshotOf, sequence_snapshotOf]
  exact ⟨hget, hsched, hid, rfl⟩

/-- The number that an instance is stored with. -/
def storedNumber (sequences : List ℕ) (inst : ItipSnapshot) : ℤ :=
  if inst.compId ∈ sequences ∧ laterNumbers inst.comp.entries = [] then sequenceNumberOf inst.comp + 1
  else sequenceNumberOf inst.comp

theorem sequenceNumberOf_stored (comp : ICalendarComponent) (p : Prop) [Decidable p] :
    sequenceNumberOf (if p then raised (finalized C comp) else finalized C comp) =
      if p ∧ laterNumbers comp.entries = [] then sequenceNumberOf comp + 1 else sequenceNumberOf comp := by
  have hsame : sequenceNumberOf (finalized C comp) = sequenceNumberOf comp := by
    rw [sequenceNumberOf, sequenceOf_finalized]
    rfl
  by_cases hp : p
  · rw [if_pos hp, sequenceNumberOf_raised, laterNumbers_finalized, hsame]
    simp [hp]
  · rw [if_neg hp, hsame, if_neg fun h => hp h.1]

theorem instanceOf_stored (comp : ICalendarComponent) (p : Prop) [Decidable p] :
    instanceOf C ical (if p then raised (finalized C comp) else finalized C comp) = instanceOf C ical comp := by
  split_ifs
  · rw [instanceOf_raised, instanceOf_finalized]
  · exact instanceOf_finalized

theorem componentType_stored (comp : ICalendarComponent) (p : Prop) [Decidable p] :
    (if p then raised (finalized C comp) else finalized C comp).componentType = comp.componentType := by
  have hsame : (finalized C comp).componentType = comp.componentType := by
    unfold finalized
    split_ifs <;> rfl
  split_ifs
  · exact hsame
  · exact hsame

/-- **A number is stored for an instance** iff it is the one that the instance is stored with. -/
theorem stored_iff (hnew : itipSnapshot C ical accountEmails false = .ok new) (hnodup : sequences.Nodup)
    (h : new.components.lookup id = some inst) (n : ℤ) :
    (∃ d ∈ (itipFinalize C ical sequences).components, C.isSchedulingObject d.componentType = true ∧
      instanceOf C ical d = id ∧ sequenceNumberOf d = n) ↔ storedNumber sequences inst = n := by
  obtain ⟨hget, hsched, hid, -⟩ := instance_itipSnapshot hnew h
  constructor
  · rintro ⟨d, hd, hdsched, hdid, rfl⟩
    obtain ⟨j, hj⟩ := mem_iff_getElem?.mp hd
    rw [getElem?_itipFinalize hnodup, Option.map_eq_some_iff] at hj
    obtain ⟨comp, hcomp, rfl⟩ := hj
    rw [componentType_stored] at hdsched
    rw [instanceOf_stored] at hdid
    have hlookup := (lookup_itipSnapshot hnew id _).mpr ⟨j, comp, hcomp, hdsched, hdid, rfl⟩
    obtain rfl := Option.some.inj (h.symm.trans hlookup)
    rw [sequenceNumberOf_stored, storedNumber, compId_snapshotOf, comp_snapshotOf]
  · rintro rfl
    refine ⟨if inst.compId ∈ sequences then raised (finalized C inst.comp) else finalized C inst.comp, ?_, ?_, ?_, ?_⟩
    · refine mem_of_getElem? (i := inst.compId) ?_
      rw [getElem?_itipFinalize hnodup, hget]
      rfl
    · rw [componentType_stored, hsched]
    · rw [instanceOf_stored, hid]
    · rw [sequenceNumberOf_stored, storedNumber]

/-- The number that an instance is sent with. -/
def sentNumber (inc : Bool) (inst : ItipSnapshot) : ℤ :=
  if inc then sequenceNumberOf inst.comp + 1 else sequenceNumberOf inst.comp

variable {inc : Bool} {c : ICalendarComponent} {message : ItipMessage}

theorem sent_component (hnew : itipSnapshot C ical accountEmails false = .ok new)
    (h : new.components.lookup id = some inst)
    (hc : contents c = contents (fullComponent C new inc inst)) :
    C.isSchedulingObject c.componentType = true ∧ instanceOf C ical c = id ∧ sequenceNumberOf c = sentNumber inc inst := by
  obtain ⟨-, hsched, hid, hnumber⟩ := instance_itipSnapshot hnew h
  obtain ⟨htype, hentries⟩ := Prod.mk.inj hc
  refine ⟨htype ▸ hsched, ?_, ?_⟩
  · have hsame : instanceOf C ical c = instanceOf C ical (fullComponent C new inc inst) :=
      instanceOf_congr (congrArg (List.filter _) hentries)
    rw [hsame, fullComponent, instanceOf_export, hid]
  · have hsame : sequenceOf c = sequenceOf (fullComponent C new inc inst) :=
      congrArg (fun l => (List.filterMap _ l).getLast?) hentries
    rw [sequenceNumberOf, hsame, fullComponent, sequenceOf_export, hnumber]
    rfl

/-- **What is sent and what is stored** of an instance have one number, or the component is not in step. -/
theorem component_inStep_iff (hnew : itipSnapshot C ical accountEmails false = .ok new)
    (hnodup : sequences.Nodup) (h : new.components.lookup id = some inst)
    (hc : contents c = contents (fullComponent C new inc inst)) :
    (∃ d ∈ (itipFinalize C ical sequences).components, C.isSchedulingObject d.componentType = true ∧
      instanceOf C ical d = instanceOf C ical c ∧ sequenceNumberOf d = sequenceNumberOf c) ↔
      storedNumber sequences inst = sentNumber inc inst := by
  obtain ⟨-, hid, hnumber⟩ := sent_component hnew h hc
  rw [hid, hnumber]
  exact stored_iff hnew hnodup h _

theorem partial_components {oldVersion newVersion : Version} {k : ICalendarMethod × List InstanceId}
    {emails : List String} (hold : PlainZones C oldVersion.ical)
    (hnew : PlainZones C newVersion.ical) (hk : k.1 ≠ .cancel)
    (h : partialMessage C oldVersion newVersion inc (k, emails) = some message) :
    (∀ c ∈ message.message.components, C.isSchedulingObject c.componentType = true → ∃ id ∈ k.2, ∃ inst,
      newVersion.itip.components.lookup id = some inst ∧ c = fullComponent C newVersion.itip inc inst) ∧
      ∀ id ∈ k.2, ∃ inst, newVersion.itip.components.lookup id = some inst ∧
        (C.isSchedulingObject inst.comp.componentType = true →
          fullComponent C newVersion.itip inc inst ∈ message.message.components) := by
  obtain ⟨-, -, components, hmem, hall⟩ := partialMessage_spec hold hnew h
  have hfull {id : InstanceId} {c : ICalendarComponent}
      (hc : ∃ w inst, (w = (if k.1 = .cancel then oldVersion else newVersion) ∨ w = newVersion) ∧
        w.itip.components.lookup id = some inst ∧ c = partialComponent C inc (decide (k.1 = .cancel)) emails w inst) :
      ∃ inst, newVersion.itip.components.lookup id = some inst ∧ c = fullComponent C newVersion.itip inc inst := by
    obtain ⟨w, inst, hw, hlookup, rfl⟩ := hc
    rw [if_neg hk, or_self] at hw
    subst hw
    refine ⟨inst, hlookup, ?_⟩
    rw [decide_eq_false hk]
    rfl
  constructor
  · intro c hc hsched
    obtain ⟨id, hid, hpair⟩ := (exists_of_forall₂ hall).1 c ((hmem c hsched).mp hc)
    exact ⟨id, hid, hfull hpair⟩
  · intro id hid
    obtain ⟨c, hc, hpair⟩ := (exists_of_forall₂ hall).2 id hid
    obtain ⟨inst, hlookup, rfl⟩ := hfull hpair
    exact ⟨inst, hlookup, fun hsched =>
      (hmem (fullComponent C newVersion.itip inc inst) hsched).mpr hc⟩

/-- **The messages about a new version are in step with what is stored** iff the numbers go up stepwise. -/
theorem handleUpdate_inStep_iff (hnew : itipSnapshot C ical accountEmails false = .ok new)
    (hplainOld : PlainZones C oldIcal) (hplain : PlainZones C ical)
    (h : organizerHandleUpdate C oldIcal ical old new = some (.ok (messages, sequences))) :
    InStep C ical messages (itipFinalize C ical sequences) ↔ Stepwise C old new := by
  obtain ⟨inc, l, full, partials, hraised, hnotified, rfl, hnone, hsome, hpartials⟩ :=
    organizerHandleUpdate_spec hnew hplain h
  have hsorted : Sorted l (l.foldl sendUpdate ⟨∅, ∅⟩) := sorted_foldl l
  obtain ⟨hfullSpec, -, hnodupFull, hmemFull⟩ := organizerRequestFull_spec hnew hplain inc
  have hnodup : sequences.Nodup := by
    by_cases hex : ∃ email, GetsFull C old new email
    · rw [(hsome hex).2]
      exact hnodupFull
    · rw [(hnone (not_exists.mp hex)).2]
      exact nodup_nil
  -- What the numbers of an instance have to be.
  have hstored {id : InstanceId} {inst : ItipSnapshot} (hlookup : new.components.lookup id = some inst)
      (hne : inst.attendees ≠ []) : storedNumber sequences inst = sentNumber inc inst ↔
        (inc = true → (∃ email, GetsFull C old new email) ∧ laterNumbers inst.comp.entries = []) := by
    by_cases hex : ∃ email, GetsFull C old new email
    · have hmem : inst.compId ∈ sequences ↔ inc = true := by
        rw [(hsome hex).2, hmemFull id inst hlookup]
        exact and_iff_left hne
      unfold storedNumber sentNumber
      simp only [hmem]
      cases inc with
      | false => simp
      | true =>
        by_cases hlater : laterNumbers inst.comp.entries = []
        · simp [hlater, hex]
        · rw [if_neg fun hand => hlater hand.2, if_pos rfl]
          exact iff_of_false (by omega) fun hand => hlater (hand rfl).2
    · have hmem : inst.compId ∉ sequences := by
        rw [(hnone (not_exists.mp hex)).2]
        exact not_mem_nil
      unfold storedNumber sentNumber
      rw [if_neg fun hand => hmem hand.1]
      cases inc with
      | false => simp
      | true =>
        rw [if_pos rfl]
        exact iff_of_false (by omega) fun hand => hex (hand rfl).1
  -- A component that is sent is that of an instance with participants, and it is in step iff its numbers are.
  have hcomponent {id : InstanceId} {inst : ItipSnapshot} {c : ICalendarComponent}
      (hlookup : new.components.lookup id = some inst) (hne : inst.attendees ≠ [])
      (hc : contents c = contents (fullComponent C new inc inst)) :=
    (component_inStep_iff hnew hnodup hlookup hc).trans (hstored hlookup hne)
  have hpartial {m : ItipMessage} (hm : m ∈ partials) (hmethod : m.summary.method ≠ .cancel) :
      ∃ k emails, (k, emails) ∈ C.entries (groupUpdates C (l.foldl sendUpdate ⟨∅, ∅⟩).sendPartialUpdate) ∧
        k.1 ≠ .cancel ∧ partialMessage C ⟨oldIcal, old⟩ ⟨ical, new⟩ inc (k, emails) = some m := by
    obtain ⟨⟨k, emails⟩, hk, hmessage⟩ := (exists_of_forall₂ hpartials).1 m hm
    refine ⟨k, emails, hk, ?_, hmessage⟩
    rw [← (partialMessage_spec hplainOld hplain hmessage).2.1]
    exact hmethod
  -- What a message about single instances is about was noticed of somebody.
  have hnoticed {k : ICalendarMethod × List InstanceId} {emails : List String}
      (hk : (k, emails) ∈ C.entries (groupUpdates C (l.foldl sendUpdate ⟨∅, ∅⟩).sendPartialUpdate))
      {id : InstanceId} (hid : id ∈ k.2) : ∃ email, Notified C old new id email k.1 := by
    obtain ⟨email, hemail⟩ := exists_mem_of_ne_nil _ (groupUpdates_ne_nil hk)
    obtain ⟨-, -, ids, hids, -, hmem⟩ := hsorted.told_iff.mp ((mem_groupUpdates hk email).mp hemail)
    rw [hids, C.mem_sortInstances, hmem, hnotified] at hid
    exact ⟨email, hid⟩
  constructor
  · intro hstep hseq
    have hinc : inc = true := hraised.mpr hseq
    constructor
    · intro hno id email method hnotice
      by_contra hmethod
      have hnot : ¬ FullUpdate l email := mt (fullUpdate_iff hnotified).mp (hno email)
      obtain ⟨ids, htold, hid⟩ := hsorted.exists_told (C := C) ((hnotified id email method).mpr hnotice) hnot
      obtain ⟨emails, hk⟩ := exists_groupUpdates htold
      obtain ⟨m, hm, hmessage⟩ := (exists_of_forall₂ hpartials).2 _ hk
      obtain ⟨inst, hlookup, hsent⟩ := (partial_components hplainOld hplain hmethod hmessage).2 id hid
      obtain ⟨inst', hlookup', a, ha, -⟩ := hnotice.participant hmethod
      obtain rfl := Option.some.inj (hlookup.symm.trans hlookup')
      have hsched := (instance_itipSnapshot hnew hlookup).2.1
      have hmessageMethod := (partialMessage_spec hplainOld hplain hmessage).2.1
      have hd := hstep m (mem_append_right _ hm) (by
        rw [hmessageMethod]
        exact hnotice.method_cases.resolve_left hmethod) _ (hsent hsched) hsched
      obtain ⟨email', he⟩ := (((hcomponent hlookup (ne_nil_of_mem ha) rfl).mp hd) hinc).1
      exact hno email' he
    · intro hex id inst hlookup hne
      obtain ⟨m, rfl, -, -, hsends⟩ := hfullSpec full (hsome hex).1
      obtain ⟨c, hc, hcontents⟩ := hsends id inst hlookup hne
      have hd := hstep _ (mem_append_left _ mem_cons_self) (Or.inl rfl) c hc
        (sent_component hnew hlookup hcontents).1
      exact (((hcomponent hlookup hne hcontents).mp hd) hinc).2
  · intro hstepwise m hm hmethod c hc hsched
    have hcancel : m.summary.method ≠ .cancel := by
      rcases hmethod with h | h <;> rw [h] <;> decide
    rcases mem_append.mp hm with hm | hm
    · obtain ⟨f, hf, rfl⟩ := mem_map.mp hm
      have hex : ∃ email, GetsFull C old new email := by
        by_contra hno
        rw [(hnone (not_exists.mp hno)).1] at hf
        exact not_mem_nil hf
      obtain ⟨m, rfl, -, hsent, -⟩ := hfullSpec full (hsome hex).1
      rw [mem_singleton.mp hf] at hc
      obtain ⟨id, inst, hlookup, hne, hcontents⟩ := hsent c hc hsched
      refine (hcomponent hlookup hne hcontents).mpr fun hinc => ⟨hex, ?_⟩
      exact (hstepwise (hraised.mp hinc)).2 hex id inst hlookup hne
    · obtain ⟨k, emails, hk, hkcancel, hmessage⟩ := hpartial hm hcancel
      obtain ⟨id, hid, inst, hlookup, rfl⟩ := (partial_components hplainOld hplain hkcancel hmessage).1 c hc hsched
      obtain ⟨email, hnotice⟩ := hnoticed hk hid
      obtain ⟨inst', hlookup', a, ha, -⟩ := hnotice.participant hkcancel
      obtain rfl := Option.some.inj (hlookup.symm.trans hlookup')
      have hne : inst.attendees ≠ [] := ne_nil_of_mem ha
      refine (hcomponent hlookup hne rfl).mpr fun hinc => ?_
      by_cases hex : ∃ email, GetsFull C old new email
      · exact ⟨hex, (hstepwise (hraised.mp hinc)).2 hex id inst hlookup hne⟩
      · exact absurd ((hstepwise (hraised.mp hinc)).1 (not_exists.mp hex) id email k.1 hnotice) hkcancel

theorem inStep_cancel (h : itipCancel C A oldIcal accountEmails false = .ok message)
    (hold : itipSnapshot C oldIcal accountEmails false = .ok old)
    (hlocal : old.organizer.email.isLocal = true) : InStep C ical [message] stored := by
  have hsummary : message.summary = .cancel := by
    obtain ⟨itip, hitip, h⟩ := bind_eq_ok h
    obtain rfl := Except.ok.inj (hold.symm.trans hitip)
    rw [if_pos hlocal] at h
    dsimp only at h
    split at h
    · cases h
    · split_ifs at h
      rw [← Except.ok.inj h]
  intro m hm hmethod
  rw [mem_singleton.mp hm, hsummary] at hmethod
  rcases hmethod with h | h <;> cases h

/-- **No attendee is sent a sequence number that is not stored** iff the numbers of the new version go up stepwise. -/
theorem inStep_iff (C : Calcard) (A : AttendeeScheduling) (oldIcal ical : ICalendar) (accountEmails : List String)
    {old : ItipSnapshots} {messages : List ItipMessage} {stored : ICalendar}
    (hold : itipSnapshot C oldIcal accountEmails false = .ok old) (hlocal : old.organizer.email.isLocal = true)
    (hplainOld : PlainZones C oldIcal) (hplain : PlainZones C ical)
    (h : itipUpdate C A ical oldIcal accountEmails = some (.ok (messages, stored))) :
    InStep C ical messages stored ↔
      ∀ new, itipSnapshot C ical accountEmails false = .ok new → Stepwise C old new := by
  unfold itipUpdate at h
  rw [hold] at h
  cases hnew : itipSnapshot C ical accountEmails false with
  | error e =>
    rw [hnew] at h
    dsimp only at h
    refine iff_of_true ?_ nofun
    split_ifs at h
    · cases hcancel : itipCancel C A oldIcal accountEmails false with
      | error e =>
        rw [hcancel] at h
        cases h
      | ok message =>
        rw [hcancel] at h
        obtain ⟨rfl, rfl⟩ := Prod.mk.inj (Except.ok.inj (Option.some.inj h))
        exact inStep_cancel hcancel hold hlocal
    all_goals cases h
  | ok new =>
    rw [hnew] at h
    dsimp only at h
    split_ifs at h
    · cases h
    · obtain ⟨result, hresult, h⟩ := Option.map_eq_some_iff.mp h
      cases result with
      | error e => cases h
      | ok r =>
        obtain ⟨rfl, rfl⟩ := Prod.mk.inj (Except.ok.inj h)
        rw [handleUpdate_inStep_iff hnew hplainOld hplain hresult]
        constructor
        · rintro hstep new' hnew'
          rwa [← Except.ok.inj hnew']
        · exact fun hstep => hstep new rfl

section

/-- Nothing is sent for a participant. -/
def noAttendeeScheduling : AttendeeScheduling := ⟨fun _ _ _ => .ok [], fun _ _ _ => .error .nothingToSend⟩

/-- The meeting and one of its instances. -/
def series (location instanceLocation : String) : ICalendar :=
  calendarOf [meetingOf [attendee "a@x"] location none, meetingOf [attendee "a@x"] instanceLocation (some "20250109T090000Z")]

instance (C : Calcard) (ical : ICalendar) (messages : List ItipMessage) (stored : ICalendar) :
    Decidable (InStep C ical messages stored) := by
  unfold InStep
  infer_instance

/-- The messages about a new version of an event of `o@x` are made, and it is decided whether they are in step. -/
def sentInStep (ical oldIcal : ICalendar) : Option (Except ItipError Bool) :=
  (itipUpdate januaryCalcard noAttendeeScheduling ical oldIcal ["o@x"]).map fun result =>
    result.map fun r => decide (InStep januaryCalcard ical r.1 r.2)

theorem exists_of_sentInStep (ical oldIcal : ICalendar) (b : Bool) (h : sentInStep ical oldIcal = some (.ok b)) :
    ∃ messages stored, itipUpdate januaryCalcard noAttendeeScheduling ical oldIcal ["o@x"] =
      some (.ok (messages, stored)) ∧ decide (InStep januaryCalcard ical messages stored) = b := by
  obtain ⟨result, hresult, hsome⟩ := Option.map_eq_some_iff.mp h
  cases result with
  | error e => cases hsome
  | ok r => exact ⟨r.1, r.2, hresult, Except.ok.inj hsome⟩

theorem exists_local (ical : ICalendar) (h : (itipSnapshot januaryCalcard ical ["o@x"] false).map
    (fun old => old.organizer.email.isLocal) = .ok true) :
    ∃ old, itipSnapshot januaryCalcard ical ["o@x"] false = .ok old ∧ old.organizer.email.isLocal = true := by
  cases hold : itipSnapshot januaryCalcard ical ["o@x"] false with
  | error e =>
    rw [hold] at h
    cases h
  | ok old =>
    rw [hold] at h
    exact ⟨old, rfl, Except.ok.inj h⟩

/-- The meeting itself moves: its participants get the full update. -/
theorem stepwise_moved : ∃ old, itipSnapshot januaryCalcard (series "here" "here") ["o@x"] false = .ok old ∧
    ∀ new, itipSnapshot januaryCalcard (series "there" "there") ["o@x"] false = .ok new →
      Stepwise januaryCalcard old new := by
  obtain ⟨old, hold, hlocal⟩ := exists_local (series "here" "here") (by decide)
  obtain ⟨messages, stored, hsent, hstep⟩ := exists_of_sentInStep (series "there" "there")
    (series "here" "here") true (by decide)
  exact ⟨old, hold, (inStep_iff januaryCalcard noAttendeeScheduling _ _ _ hold hlocal (plainZones_of_none (by decide))
    (plainZones_of_none (by decide)) hsent).mp (of_decide_eq_true hstep)⟩

/-- The place of one instance changes: it is sent with the number one, and stored with none. -/
theorem not_inStep_instance : ¬ ∀ (C : Calcard) (A : AttendeeScheduling) (oldIcal ical : ICalendar)
    (accountEmails : List String) (old : ItipSnapshots) (messages : List ItipMessage) (stored : ICalendar),
    itipSnapshot C oldIcal accountEmails false = .ok old → old.organizer.email.isLocal = true →
    PlainZones C oldIcal → PlainZones C ical →
    itipUpdate C A ical oldIcal accountEmails = some (.ok (messages, stored)) → InStep C ical messages stored := by
  intro h
  obtain ⟨old, hold, hlocal⟩ := exists_local (series "here" "here") (by decide)
  obtain ⟨messages, stored, hsent, hstep⟩ := exists_of_sentInStep (series "here" "there")
    (series "here" "here") false (by decide)
  exact of_decide_eq_false hstep (h _ _ _ _ _ old messages stored hold hlocal (plainZones_of_none (by decide))
    (plainZones_of_none (by decide)) hsent)

end

end MailServer.Groupware
