import MailServer.Groupware.Scheduling.Inbound

/-!
# What a reply can change

* `Isolated`: of the participants, only the sender and the delegates that they name have other parameters than before,
  and only such delegates join.
* `SameReply`: two replies say the same of the sender and of the delegates that they name.
-/

namespace MailServer.Groupware

open MailServer.Lib List Option

variable (C : Calcard)

/-- The properties about participants. -/
def attendeeEntries (entries : List ICalendarEntry) : List ICalendarEntry := entries.filter (·.name = .attendee)

/-- Only parameters about the participation differ. -/
structure SameButParticipation (e e' : ICalendarEntry) : Prop where
  name : e'.name = e.name
  values : e'.values = e.values
  params : e'.params.filter (!·.name.isDelegation) = e.params.filter (!·.name.isDelegation)

/-- A property of a participant who may not be changed stays as it is. -/
def KeptEntry (allowed : String → Prop) (e e' : ICalendarEntry) : Prop :=
  e' = e ∨ (SameButParticipation e e' ∧ ∃ email, participant C e = some email ∧ allowed email)

/-- A property of a delegate who was no participant. -/
def JoinedEntry (delegate : String → Prop) (reply before : List ICalendarEntry) (e : ICalendarEntry) : Prop :=
  e ∈ reply ∧ ∃ email, participant C e = some email ∧ delegate email ∧ email ∉ before.filterMap (participant C)

/-- The sender's entry in a reply names a delegate. -/
def Delegates (itip : ItipSnapshots) (id : InstanceId) (sender email : String) : Prop :=
  ∃ s a, itip.components.lookup id = some s ∧ a ∈ s.attendees ∧ a.email.email = sender ∧
    ∃ d ∈ a.delegatedTo, d.email = email

/-- The properties of an instance that the message has. -/
def saidEntries (itip : ItipSnapshots) (id : InstanceId) : List ICalendarEntry :=
  ((itip.components.lookup id).map fun s => s.comp.entries).getD []

/-- What a reply leaves of the participants of an instance. -/
structure Isolated (itip : ItipSnapshots) (id : InstanceId) (sender : String) (before after : List ICalendarEntry) :
    Prop where
  entries : ∃ kept joined, attendeeEntries after = kept ++ joined ∧
    List.Forall₂ (KeptEntry C fun email => email = sender ∨ Delegates itip id sender email)
      (attendeeEntries before) kept ∧
    ∀ e ∈ joined, JoinedEntry C (Delegates itip id sender) (saidEntries itip id) before e

/-- The property of a participant in the reply. -/
def ItipSnapshot.entryOf (s : ItipSnapshot) (email : String) : Option (Option ICalendarEntry) :=
  (s.attendeeByEmail email).map fun a => s.comp.entries[a.entryId]?

/-- Two replies say the same of an instance, except of participants who are neither the sender nor their delegates. -/
structure SameReply (sender : String) (s t : ItipSnapshot) : Prop where
  participant : s.entryOf sender = t.entryOf sender
  delegates : ∀ a, s.attendeeByEmail sender = some a → ∀ d ∈ a.delegatedTo, s.entryOf d.email = t.entryOf d.email
  requestStatus : s.requestStatus = t.requestStatus
  progress : s.comp.entries.filter (·.name.isProgress) = t.comp.entries.filter (·.name.isProgress)

/-- Two replies say the same of every instance, except of participants who are neither the sender nor their delegates. -/
structure SameReplies (sender : String) (itip itip' : ItipSnapshots) : Prop where
  organizer : itip.organizer.email.email = itip'.organizer.email.email
  instances : ∀ id, Option.Rel (SameReply sender) (itip.components.lookup id) (itip'.components.lookup id)

/-- The event after a message. -/
def mergedEvent (ical : ICalendar) : Except ItipError MergeResult → ICalendar
  | .ok (.actions actions) => itipMergeChanges C ical actions
  | _ => ical

variable {C} {ical itip : ICalendar} {accountEmails : List String} {force : Bool} {comp : ICalendarComponent} {compId : ℕ}
  {snapshots itipSnapshots : ItipSnapshots} {sender email : String} {id : InstanceId} {snapshot s : ItipSnapshot}

/-! ## The property of a participant -/

theorem attendeeParam_entryId (j : ℕ) (a : Attendee) (param : ICalendarParameter) :
    attendeeParam C accountEmails { a with entryId := j } param =
      { attendeeParam C accountEmails a param with entryId := j } := by
  unfold attendeeParam
  split <;> rfl

theorem attendeeOf_entryId (i j : ℕ) (entry : ICalendarEntry) :
    attendeeOf C accountEmails j entry = (attendeeOf C accountEmails i entry).map fun a => { a with entryId := j } := by
  have hfold (l : List ICalendarParameter) (a : Attendee) :
      l.foldl (attendeeParam C accountEmails) { a with entryId := j } =
        { l.foldl (attendeeParam C accountEmails) a with entryId := j } := by
    induction l generalizing a with
    | nil => rfl
    | cons p l ih => rw [foldl_cons, attendeeParam_entryId, ih, foldl_cons]
  unfold attendeeOf
  rw [Option.map_map]
  refine congrArg (Option.map · _) ?_
  ext1 address
  exact hfold entry.params
    { entryId := i, email := address, partStat := none, delegatedFrom := [], delegatedTo := [], role := none,
      cuType := none, sentBy := none, rsvp := none, isServerScheduling := true, forceSend := none }

variable {i : ℕ} {entry : ICalendarEntry} {a : Attendee} {actions : List MergeAction}

theorem entryId_attendeeOf (h : attendeeOf C accountEmails i entry = some a) : a.entryId = i := by
  have hi := @attendeeOf_entryId C accountEmails i i entry
  rw [h] at hi
  exact congrArg Attendee.entryId (some.inj hi)

theorem exists_entry (h : a ∈ (snapshotOf C ical accountEmails comp compId).attendees) :
    ∃ entry, comp.entries[a.entryId]? = some entry ∧ entry.name = .attendee ∧
      attendeeOf C accountEmails a.entryId entry = some a := by
  obtain ⟨⟨entry, i⟩, hentry, hat⟩ := mem_filterMap.mp (mem_attendees h)
  unfold attendeeAt at hat
  split_ifs at hat with hname
  have hi : a.entryId = i := entryId_attendeeOf hat
  refine ⟨entry, ?_, hname, ?_⟩
  · rw [hi]
    exact mem_zipIdx_iff_getElem?.mp hentry
  · rw [hi]
    exact hat

theorem participant_of_attendeeOf (hname : entry.name = .attendee)
    (h : attendeeOf C accountEmails i entry = some a) : participant C entry = some a.email.email := by
  rw [participant, if_pos hname, address_congr [] accountEmails, email_attendeeOf h]
  rfl

theorem attendeeByEmail_eq_some (h : s.attendeeByEmail email = some a) :
    a ∈ s.attendees ∧ a.email.email = email :=
  ⟨mem_of_find?_eq_some h, by simpa using find?_some h⟩

theorem snapshot_eq (hs : itipSnapshot C ical accountEmails force = .ok snapshots)
    (h : snapshots.components.lookup id = some snapshot) :
    ical.components[snapshot.compId]? = some snapshot.comp ∧ instanceOf C ical snapshot.comp = id ∧
      C.isSchedulingObject snapshot.comp.componentType = true ∧
      snapshot = snapshotOf C ical accountEmails snapshot.comp snapshot.compId := by
  obtain ⟨i, comp, hi, hsched, hid, rfl⟩ := (lookup_itipSnapshot hs id snapshot).mp h
  rw [comp_snapshotOf, compId_snapshotOf]
  exact ⟨hi, hid, hsched, rfl⟩

theorem id_eq_of_compId {id' : InstanceId} {snapshot' : ItipSnapshot}
    (hs : itipSnapshot C ical accountEmails force = .ok snapshots)
    (h : snapshots.components.lookup id = some snapshot) (h' : snapshots.components.lookup id' = some snapshot')
    (hi : snapshot'.compId = snapshot.compId) : id' = id := by
  obtain ⟨hcomp, hid, -⟩ := snapshot_eq hs h
  obtain ⟨hcomp', hid', -⟩ := snapshot_eq hs h'
  rw [hi, hcomp] at hcomp'
  rw [← hid, ← hid', some.inj hcomp']

theorem exists_entry_of_attendeeByEmail
    (hs : itipSnapshot C ical accountEmails force = .ok snapshots)
    (h : snapshots.components.lookup id = some snapshot)
    (ha : snapshot.attendeeByEmail email = some a) :
    ∃ entry, snapshot.comp.entries[a.entryId]? = some entry ∧ attendeeOf C accountEmails a.entryId entry = some a ∧
      participant C entry = some email := by
  obtain ⟨hmem, hemail⟩ := attendeeByEmail_eq_some ha
  obtain ⟨-, -, -, hsnapshot⟩ := snapshot_eq hs h
  rw [hsnapshot] at hmem
  obtain ⟨entry, hentry, hname, hattendee⟩ := exists_entry hmem
  exact ⟨entry, hentry, hattendee, (participant_of_attendeeOf hname hattendee).trans (congrArg some hemail)⟩

/-! ## What is done to one instance -/

section

variable (C) (allowed delegate : String → Prop) (reply before : List ICalendarEntry)

/-- The properties before, some of them changed, and those of delegates behind them. -/
def Reached (after : List ICalendarEntry) : Prop :=
  ∃ kept joined, after = kept ++ joined ∧ List.Forall₂ (KeptEntry C allowed) before kept ∧
    ∀ e ∈ joined, JoinedEntry C delegate reply before e

/-- The property is that of a participant who may be changed. -/
def ChangeableAt (entryId : ℕ) : Prop :=
  ∃ e email, before[entryId]? = some e ∧ participant C e = some email ∧ allowed email

/-- An action on participants who may be changed, or one that adds delegates. -/
def OfParticipants : MergeAction → Prop
  | .removeParameters _ entryId names => (∀ name ∈ names, name.isDelegation = true) ∧ ChangeableAt C allowed before entryId
  | .addParameters _ entryId parameters =>
    (∀ param ∈ parameters, param.name.isDelegation = true) ∧ ChangeableAt C allowed before entryId
  | .addEntries _ entries => ∀ e ∈ entries, JoinedEntry C delegate reply before e
  | .removeEntries _ _ | .addComponent _ | .removeComponent _ => False

variable {C allowed delegate reply before} {after : List ICalendarEntry}

theorem SameButParticipation.refl (e : ICalendarEntry) : SameButParticipation e e := ⟨rfl, rfl, rfl⟩

theorem KeptEntry.same {e e' : ICalendarEntry} (h : KeptEntry C allowed e e') : SameButParticipation e e' := by
  rcases h with rfl | ⟨h, -⟩
  · exact .refl _
  · exact h

theorem KeptEntry.edit {e e' : ICalendarEntry} (h : KeptEntry C allowed e e') (he : participant C e = some email)
    (hallowed : allowed email) {params : List ICalendarParameter}
    (hparams : params.filter (!·.name.isDelegation) = e'.params.filter (!·.name.isDelegation)) :
    KeptEntry C allowed e { e' with params } :=
  Or.inr ⟨⟨h.same.name, h.same.values, hparams.trans h.same.params⟩, email, he, hallowed⟩

theorem forall₂_modify {R : ICalendarEntry → ICalendarEntry → Prop} {kept joined : List ICalendarEntry} {k : ℕ}
    {e : ICalendarEntry} {f : ICalendarEntry → ICalendarEntry} (h : List.Forall₂ R before kept)
    (hk : before[k]? = some e) (hf : ∀ e', R e e' → R e (f e')) :
    ∃ kept', (kept ++ joined).modify k f = kept' ++ joined ∧ List.Forall₂ R before kept' := by
  induction h generalizing k with
  | nil => cases hk
  | @cons b b' before kept hb hrest ih =>
    cases k with
    | zero =>
      obtain rfl : b = e := some.inj hk
      exact ⟨f b' :: kept, rfl, .cons (hf b' hb) hrest⟩
    | succ k =>
      obtain ⟨kept', hmodify, hkept'⟩ := ih hk
      refine ⟨b' :: kept', ?_, .cons hb hkept'⟩
      rw [cons_append, modify_succ_cons, hmodify, cons_append]

theorem Reached.edit (h : Reached C allowed delegate reply before after) {a : MergeAction}
    (ha : OfParticipants C allowed delegate reply before a) : Reached C allowed delegate reply before (a.edit after) := by
  obtain ⟨kept, joined, rfl, hkept, hjoined⟩ := h
  cases a with
  | addEntries id entries =>
    refine ⟨kept, joined ++ entries, append_assoc _ _ _, hkept, fun e he => ?_⟩
    rcases mem_append.mp he with he | he
    · exact hjoined e he
    · exact ha e he
  | addParameters id entryId parameters =>
    obtain ⟨hnames, e, email, he, hemail, hallowed⟩ := ha
    obtain ⟨kept', hmodify, hkept'⟩ := @forall₂_modify before _ kept joined entryId e
      (fun entry => { entry with params := entry.params ++ parameters }) hkept he fun e' he' => by
        refine he'.edit hemail hallowed ?_
        have hnil : parameters.filter (!·.name.isDelegation) = [] :=
          filter_eq_nil_iff.mpr fun param hparam => by simp [hnames param hparam]
        rw [filter_append, hnil, append_nil]
    exact ⟨kept', joined, hmodify, hkept', hjoined⟩
  | removeParameters id entryId names =>
    obtain ⟨hnames, e, email, he, hemail, hallowed⟩ := ha
    obtain ⟨kept', hmodify, hkept'⟩ := @forall₂_modify before _ kept joined entryId e
      (fun entry => { entry with params := entry.params.filter (·.name ∉ names) }) hkept he fun e' he' => by
        refine he'.edit hemail hallowed ?_
        rw [List.filter_filter]
        refine filter_congr fun param _ => ?_
        by_cases hmem : param.name ∈ names
        · simp [hnames param.name hmem]
        · simp [hmem]
    exact ⟨kept', joined, hmodify, hkept', hjoined⟩
  | _ => exact absurd ha id

theorem Reached.foldl {actions : List MergeAction} (h : Reached C allowed delegate reply before after)
    (hactions : ∀ a ∈ actions, OfParticipants C allowed delegate reply before a) :
    Reached C allowed delegate reply before (actions.foldl MergeAction.edit after) := by
  induction actions generalizing after with
  | nil => exact h
  | cons a actions ih =>
    exact ih (h.edit (hactions a mem_cons_self)) fun b hb => hactions b (mem_cons_of_mem _ hb)

theorem Reached.refl : Reached C allowed delegate reply before before :=
  ⟨before, [], (append_nil _).symm, forall₂_same.mpr fun _ _ => Or.inl rfl, nofun⟩

end

theorem participantParameters_isDelegation (attendee updated : Attendee) (requestStatus : List String) :
    (∀ name ∈ (participantParameters attendee updated requestStatus).1, name.isDelegation = true) ∧
      ∀ param ∈ (participantParameters attendee updated requestStatus).2, param.name.isDelegation = true := by
  constructor
  · intro name hname
    simp only [participantParameters, mem_append, mem_ite_nil_right, mem_singleton] at hname
    rcases hname with ((⟨-, rfl⟩ | ⟨-, rfl⟩) | ⟨-, rfl⟩) | ⟨-, rfl⟩ <;> rfl
  · intro param hparam
    simp only [participantParameters, mem_append, mem_ite_nil_right, mem_singleton, List.mem_map] at hparam
    rcases hparam with ((⟨-, v, -, rfl⟩ | ⟨-, v, -, rfl⟩) | ⟨-, v, -, rfl⟩) | ⟨-, rfl⟩ <;> rfl

variable {attendee updated : Attendee}

theorem ofParticipants_of_mem (hs : itipSnapshot C ical accountEmails force = .ok snapshots)
    (hi : itipSnapshot C itip accountEmails force = .ok itipSnapshots)
    (h : snapshots.components.lookup id = some snapshot) (h' : itipSnapshots.components.lookup id = some s)
    (ha : snapshot.attendeeByEmail sender = some attendee) (hu : s.attendeeByEmail sender = some updated) :
    ∀ a ∈ participantActions snapshot s attendee updated,
      OfParticipants C (fun email => email = sender ∨ Delegates itipSnapshots id sender email)
        (Delegates itipSnapshots id sender) s.comp.entries snapshot.comp.entries a := by
  intro a hmem
  unfold participantActions at hmem
  dsimp only at hmem
  split_ifs at hmem
  · obtain ⟨hnames, hparams⟩ := participantParameters_isDelegation attendee updated s.requestStatus
    have hat : ChangeableAt C (fun email => email = sender ∨ Delegates itipSnapshots id sender email)
        snapshot.comp.entries attendee.entryId := by
      obtain ⟨entry, hentry, -, hparticipant⟩ := exists_entry_of_attendeeByEmail hs h ha
      exact ⟨entry, sender, hentry, hparticipant, Or.inl rfl⟩
    rcases mem_append.mp hmem with hmem | hmem
    · rcases mem_pair.mp hmem with rfl | rfl
      · exact ⟨hnames, hat⟩
      · exact ⟨hparams, hat⟩
    · obtain ⟨d, hd, hmem⟩ := mem_flatMap.mp hmem
      obtain ⟨humem, huemail⟩ := attendeeByEmail_eq_some hu
      have hdelegate : Delegates itipSnapshots id sender d.email := ⟨s, updated, h', humem, huemail, d, hd, rfl⟩
      unfold delegateActions at hmem
      cases hreply : s.attendeeByEmail d.email with
      | none =>
        rw [hreply] at hmem
        cases hmem
      | some itipDelegated =>
        obtain ⟨entry, hentry, -, hparticipant⟩ := exists_entry_of_attendeeByEmail hi h' hreply
        rw [hreply] at hmem
        cases hstored : snapshot.attendeeByEmail d.email with
        | some delegated =>
          rw [hstored] at hmem
          dsimp only at hmem
          split_ifs at hmem
          · obtain ⟨old, hold, -, hparticipant'⟩ := exists_entry_of_attendeeByEmail hs h hstored
            have hat' : ChangeableAt C (fun email => email = sender ∨ Delegates itipSnapshots id sender email)
                snapshot.comp.entries delegated.entryId := ⟨old, d.email, hold, hparticipant', Or.inr hdelegate⟩
            rcases mem_pair.mp hmem with rfl | rfl
            · exact ⟨by decide, hat'⟩
            · exact ⟨fun param hparam => (mem_filter.mp hparam).2, hat'⟩
          · cases hmem
        | none =>
          rw [hstored] at hmem
          obtain rfl := mem_singleton.mp hmem
          intro e he
          rw [hentry] at he
          obtain rfl := mem_singleton.mp he
          refine ⟨mem_of_getElem? hentry, d.email, hparticipant, hdelegate, fun hlisted => ?_⟩
          obtain ⟨-, -, -, hsnapshot⟩ := snapshot_eq hs h
          obtain ⟨b, hb, hemail⟩ := exists_attendee_email.mpr ((mem_listed accountEmails).mp hlisted)
          rw [← hsnapshot] at hb
          exact absurd hemail (by simpa using find?_eq_none.mp hstored b hb)
  · cases hmem

theorem attendeeEntries_progress (entries : List ICalendarEntry) :
    attendeeEntries ((progressActions snapshot s).foldl MergeAction.edit entries) = attendeeEntries entries := by
  unfold progressActions
  dsimp only
  split_ifs
  · have hnil : (s.comp.entries.filter (·.name.isProgress)).filter (·.name = .attendee) = [] := by
      refine filter_eq_nil_iff.mpr fun e he => ?_
      have hprogress : e.name.isProgress = true := (mem_filter.mp he).2
      intro hname
      rw [of_decide_eq_true hname] at hprogress
      cases hprogress
    have hnot : ICalendarProperty.attendee ∉
        ((s.comp.entries.filter (·.name.isProgress)).map ICalendarEntry.name).toFinset := by
      intro hmem
      obtain ⟨e, he, hname⟩ := List.mem_map.mp (List.mem_toFinset.mp hmem)
      have hprogress : e.name.isProgress = true := (mem_filter.mp he).2
      rw [hname] at hprogress
      cases hprogress
    show attendeeEntries (entries.filter _ ++ _) = _
    rw [attendeeEntries, filter_append, hnil, append_nil, List.filter_filter]
    refine filter_congr fun e _ => ?_
    by_cases he : e.name = .attendee
    · simpa [he] using hnot
    · simp [he]
  · rfl

/-! ## A reply -/

theorem target_delegateActions {d : Email} {a : MergeAction} (h : a ∈ delegateActions snapshot s d) :
    a.target = some snapshot.compId := by
  unfold delegateActions at h
  cases hreply : s.attendeeByEmail d.email with
  | none =>
    rw [hreply] at h
    cases h
  | some itipDelegated =>
    rw [hreply] at h
    dsimp only at h
    split at h
    · split_ifs at h
      · rcases mem_pair.mp h with rfl | rfl <;> rfl
      · cases h
    · obtain rfl := mem_singleton.mp h
      rfl

theorem target_known {a : MergeAction}
    (h : a ∈ participantActions snapshot s attendee updated ++ progressActions snapshot s) :
    a.target = some snapshot.compId := by
  rcases mem_append.mp h with h | h
  · unfold participantActions at h
    dsimp only at h
    split_ifs at h
    · rcases mem_append.mp h with h | h
      · rcases mem_pair.mp h with rfl | rfl <;> rfl
      · obtain ⟨d, -, hd⟩ := mem_flatMap.mp h
        exact target_delegateActions hd
    · cases h
  · unfold progressActions at h
    dsimp only at h
    split_ifs at h
    · rcases mem_pair.mp h with rfl | rfl <;> rfl
    · cases h

theorem replyActions_eq_ok {l : List MergeAction} (h : replyActions snapshots sender id s = .ok l) :
    (∃ snapshot attendee updated, snapshots.components.lookup id = some snapshot ∧
      snapshot.attendeeByEmail sender = some attendee ∧ s.attendeeByEmail sender = some updated ∧
      l = participantActions snapshot s attendee updated ++ progressActions snapshot s) ∨
    (snapshots.components.lookup id = none ∧ l = [.addComponent (repliedComponent s.comp)]) := by
  unfold replyActions at h
  cases hid : snapshots.components.lookup id with
  | some snapshot =>
    rw [hid] at h
    dsimp only at h
    cases ha : snapshot.attendeeByEmail sender with
    | none =>
      rw [ha] at h
      cases h
    | some attendee =>
      cases hu : s.attendeeByEmail sender with
      | none =>
        rw [ha, hu] at h
        cases h
      | some updated =>
        rw [ha, hu] at h
        exact Or.inl ⟨snapshot, attendee, updated, rfl, ha, rfl, (Except.ok.inj h).symm⟩
  | none =>
    rw [hid] at h
    cases hu : s.attendeeByEmail sender with
    | none =>
      rw [hu] at h
      cases h
    | some updated =>
      rw [hu] at h
      exact Or.inr ⟨rfl, (Except.ok.inj h).symm⟩

theorem targetsInstance_reply : TargetsInstance snapshots (replyActions snapshots sender) := by
  intro id s l hl a ha i hi
  rcases replyActions_eq_ok hl with ⟨snapshot, attendee, updated, hid, -, -, rfl⟩ | ⟨-, rfl⟩
  · exact ⟨snapshot, hid, some.inj ((target_known ha).symm.trans hi)⟩
  · obtain rfl := mem_singleton.mp ha
    cases hi

theorem oneEach (hs : itipSnapshot C ical accountEmails force = .ok snapshots) : OneEach snapshots :=
  fun _ _ _ _ h h' hi => id_eq_of_compId hs h h' hi

/-- **One instance**: only the sender's participation and that of the delegates changes. -/
theorem isolated_known (hs : itipSnapshot C ical accountEmails force = .ok snapshots)
    (hi : itipSnapshot C itip accountEmails force = .ok itipSnapshots)
    (h : snapshots.components.lookup id = some snapshot) (h' : itipSnapshots.components.lookup id = some s)
    (ha : snapshot.attendeeByEmail sender = some attendee) (hu : s.attendeeByEmail sender = some updated) :
    Isolated C itipSnapshots id sender snapshot.comp.entries
      ((participantActions snapshot s attendee updated ++ progressActions snapshot s).foldl MergeAction.edit
        snapshot.comp.entries) := by
  obtain ⟨kept, joined, hafter, hkept, hjoined⟩ := Reached.refl.foldl (ofParticipants_of_mem hs hi h h' ha hu)
  have hsaid : saidEntries itipSnapshots id = s.comp.entries := by rw [saidEntries, h']; rfl
  refine ⟨⟨attendeeEntries kept, attendeeEntries joined, ?_, ?_, fun e he => ?_⟩⟩
  · rw [foldl_append, attendeeEntries_progress, hafter, attendeeEntries, filter_append]
    rfl
  · refine rel_filter (fun e e' he => ?_) hkept
    show decide (e.name = .attendee) = true ↔ decide (e'.name = .attendee) = true
    rw [he.same.name]
  · rw [hsaid]
    exact hjoined e (mem_filter.mp he).1

theorem Isolated.refl {before : List ICalendarEntry} : Isolated C itipSnapshots id sender before before :=
  ⟨attendeeEntries before, [], (append_nil _).symm, forall₂_same.mpr fun _ _ => Or.inl rfl, nofun⟩

theorem removeComponentIds_reply
    (h : handleReply C snapshots itipSnapshots sender = .ok actions) : removeComponentIds actions = [] := by
  refine removeComponentIds_of_target fun a ha => ?_
  obtain ⟨id, s, l, -, hl, hmem⟩ := (mem_instanceActions h).mp ha
  rcases replyActions_eq_ok hl with ⟨snapshot, attendee, updated, -, -, -, rfl⟩ | ⟨-, rfl⟩
  · exact Or.inl (isSome_iff_exists.mpr ⟨_, target_known hmem⟩)
  · exact Or.inr ⟨_, mem_singleton.mp hmem⟩

theorem handleReply_of_process {r : MergeResult} (hlocal : snapshots.organizer.email.isLocal = true)
    (hreply : itipMethod itip = .ok .reply)
    (h : itipProcessMessage C ical snapshots itip itipSnapshots sender = .ok r) :
    ∃ actions, handleReply C snapshots itipSnapshots sender = .ok actions ∧ r = mergeResult actions := by
  unfold itipProcessMessage at h
  by_cases hmismatch : snapshots.organizer.email.email ≠ itipSnapshots.organizer.email.email
  · rw [if_pos hmismatch] at h
    cases h
  rw [if_neg hmismatch] at h
  obtain ⟨method, hmethod, h⟩ := bind_eq_ok h
  obtain rfl := Except.ok.inj (hreply.symm.trans hmethod)
  split_ifs at h
  cases hactions : handleReply C snapshots itipSnapshots sender with
  | error e =>
    rw [hactions] at h
    cases h
  | ok actions =>
    rw [hactions] at h
    exact ⟨actions, rfl, (Except.ok.inj h).symm⟩

theorem mergeResult_eq_actions {actions' : List MergeAction}
    (h : mergeResult actions = .actions actions') : actions = actions' := by
  unfold mergeResult at h
  split_ifs at h
  exact MergeResult.actions.inj h

theorem isolated_of_handleReply (hs : itipSnapshot C ical accountEmails force = .ok snapshots)
    (hi : itipSnapshot C itip accountEmails force = .ok itipSnapshots)
    (h : handleReply C snapshots itipSnapshots sender = .ok actions)
    (hcomp : ical.components[i]? = some comp) :
    ∃ c, (itipMergeChanges C ical actions).components[i]? = some c ∧ c.entries = editedEntries actions i comp.entries ∧
      Isolated C itipSnapshots (instanceOf C ical comp) sender comp.entries c.entries := by
  rw [itipMergeChanges_of_noRemoval (removeComponentIds_reply h)]
  obtain ⟨c, hc, -, hentries⟩ := getElem?_foldl_mergeAction actions hcomp
  refine ⟨c, hc, hentries, ?_⟩
  rw [hentries]
  by_cases hinst : ∃ id snapshot, snapshots.components.lookup id = some snapshot ∧ snapshot.compId = i
  · obtain ⟨id, snapshot, hid, rfl⟩ := hinst
    obtain ⟨hcomp', hinst', -, -⟩ := snapshot_eq hs hid
    obtain rfl : snapshot.comp = comp := some.inj (hcomp'.symm.trans hcomp)
    rw [editedEntries_instanceActions (oneEach hs) targetsInstance_reply h hid, hinst']
    cases hm : itipSnapshots.components.lookup id with
    | none => exact .refl
    | some s =>
      have hok := (instanceActions_eq_ok h).1 id s hm
      rcases replyActions_eq_ok hok with ⟨snapshot', attendee, updated, hid', ha, hu, hchunk⟩ | ⟨hnone, -⟩
      · obtain rfl : snapshot = snapshot' := some.inj (hid.symm.trans hid')
        simp only [map_some, getD_some, hchunk]
        rw [editedEntries_of_targets fun a ha => target_known ha]
        exact isolated_known hs hi hid hm ha hu
      · rw [hid] at hnone
        cases hnone
  · rw [editedEntries_of_not_instance targetsInstance_reply h fun id snapshot hid hi => hinst ⟨id, snapshot, hid, hi⟩]
    exact .refl

/-! ## Two replies -/

section

variable {itip' : ICalendar} {itipSnapshots' : ItipSnapshots} {t : ItipSnapshot}

section

variable (hi : itipSnapshot C itip accountEmails force = .ok itipSnapshots)
  (hi' : itipSnapshot C itip' accountEmails force = .ok itipSnapshots')
  (h : itipSnapshots.components.lookup id = some s) (h' : itipSnapshots'.components.lookup id = some t)

include hi hi' h h'

theorem attendeeByEmail_congr (he : s.entryOf email = t.entryOf email) :
    (s.attendeeByEmail email = none ∧ t.attendeeByEmail email = none) ∨
      ∃ a j, s.attendeeByEmail email = some a ∧ t.attendeeByEmail email = some { a with entryId := j } ∧
        t.comp.entries[j]? = s.comp.entries[a.entryId]? := by
  unfold ItipSnapshot.entryOf at he
  cases ha : s.attendeeByEmail email with
  | none =>
    rw [ha] at he
    exact Or.inl ⟨rfl, map_eq_none_iff.mp he.symm⟩
  | some a =>
    rw [ha] at he
    obtain ⟨b, hb, hentries⟩ := map_eq_some_iff.mp he.symm
    obtain ⟨entry, hentry, hattendee, -⟩ := exists_entry_of_attendeeByEmail hi h ha
    obtain ⟨entry', hentry', hattendee', -⟩ := exists_entry_of_attendeeByEmail hi' h' hb
    obtain rfl : entry' = entry := some.inj (hentry'.symm.trans (hentries.trans hentry))
    refine Or.inr ⟨a, b.entryId, rfl, ?_, hentries⟩
    rw [attendeeOf_entryId a.entryId, hattendee] at hattendee'
    rw [hb, ← hattendee']
    rfl

theorem delegateActions_congr {d : Email} (he : s.entryOf d.email = t.entryOf d.email) :
    delegateActions snapshot s d = delegateActions snapshot t d := by
  unfold delegateActions
  rcases attendeeByEmail_congr hi hi' h h' he with ⟨hs, ht⟩ | ⟨a, j, hs, ht, hentry⟩
  · rw [hs, ht]
  · rw [hs, ht]
    dsimp only
    rw [hentry]
    rfl

theorem replyActions_congr (hid : snapshots.components.lookup id = some snapshot) (hsame : SameReply sender s t) :
    replyActions snapshots sender id s = replyActions snapshots sender id t := by
  unfold replyActions
  rw [hid]
  dsimp only
  cases hsender : snapshot.attendeeByEmail sender with
  | none => rfl
  | some attendee =>
    rcases attendeeByEmail_congr hi hi' h h' hsame.participant with ⟨hs, ht⟩ | ⟨a, j, hs, ht, -⟩
    · rw [hs, ht]
    · rw [hs, ht]
      dsimp only
      have hdelegates : a.delegatedTo.flatMap (delegateActions snapshot s) =
          a.delegatedTo.flatMap (delegateActions snapshot t) :=
        flatMap_congr fun d hd => delegateActions_congr hi hi' h h' (hsame.delegates a hs d hd)
      have hparticipant : participantActions snapshot s attendee a =
          participantActions snapshot t attendee { a with entryId := j } := by
        show (if (participantParameters attendee a s.requestStatus).1 ≠ [] then _ else _) = _
        rw [hdelegates, hsame.requestStatus]
        rfl
      have hprogress : progressActions snapshot s = progressActions snapshot t := by
        unfold progressActions
        rw [hsame.progress]
      rw [hparticipant, hprogress]

end

theorem SameReplies.lookup (h : SameReplies sender itipSnapshots itipSnapshots') (id : InstanceId) :
    (itipSnapshots.components.lookup id = none ∧ itipSnapshots'.components.lookup id = none) ∨
      ∃ s t, itipSnapshots.components.lookup id = some s ∧ itipSnapshots'.components.lookup id = some t ∧
        SameReply sender s t := by
  have hrel := h.instances id
  generalize itipSnapshots.components.lookup id = x at hrel ⊢
  generalize itipSnapshots'.components.lookup id = y at hrel ⊢
  rcases hrel with ⟨hsame⟩ | _
  · exact .inr ⟨_, _, rfl, rfl, hsame⟩
  · exact .inl ⟨rfl, rfl⟩

theorem editedEntries_reply (hs : itipSnapshot C ical accountEmails force = .ok snapshots)
    (hi : itipSnapshot C itip accountEmails force = .ok itipSnapshots)
    (hi' : itipSnapshot C itip' accountEmails force = .ok itipSnapshots')
    (hsame : SameReplies sender itipSnapshots itipSnapshots') {actions actions' : List MergeAction}
    (h : handleReply C snapshots itipSnapshots sender = .ok actions)
    (h' : handleReply C snapshots itipSnapshots' sender = .ok actions') (i : ℕ) (entries : List ICalendarEntry) :
    editedEntries actions i entries = editedEntries actions' i entries := by
  by_cases hinst : ∃ id snapshot, snapshots.components.lookup id = some snapshot ∧ snapshot.compId = i
  · obtain ⟨id, snapshot, hid, rfl⟩ := hinst
    rw [editedEntries_instanceActions (oneEach hs) targetsInstance_reply h hid,
      editedEntries_instanceActions (oneEach hs) targetsInstance_reply h' hid]
    rcases hsame.lookup id with ⟨hm, hm'⟩ | ⟨s, t, hm, hm', hreply⟩
    · rw [hm, hm']
    · rw [hm, hm']
      simp [replyActions_congr hi hi' hm hm' hid hreply]
  · have hnot : ∀ id snapshot, snapshots.components.lookup id = some snapshot → snapshot.compId ≠ i :=
      fun id snapshot hid hcomp => hinst ⟨id, snapshot, hid, hcomp⟩
    rw [editedEntries_of_not_instance targetsInstance_reply h hnot,
      editedEntries_of_not_instance targetsInstance_reply h' hnot]

theorem exists_handleReply_congr (hi : itipSnapshot C itip accountEmails force = .ok itipSnapshots)
    (hi' : itipSnapshot C itip' accountEmails force = .ok itipSnapshots')
    (hsame : SameReplies sender itipSnapshots itipSnapshots')
    (hknown : ∀ id ∈ itipSnapshots.components, id ∈ snapshots.components) :
    (∃ actions, handleReply C snapshots itipSnapshots sender = .ok actions) ↔
      ∃ actions, handleReply C snapshots itipSnapshots' sender = .ok actions := by
  have hpair {id : InstanceId} {s t : ItipSnapshot} (hm : itipSnapshots.components.lookup id = some s)
      (hm' : itipSnapshots'.components.lookup id = some t) (hreply : SameReply sender s t) :
      replyActions snapshots sender id s = replyActions snapshots sender id t := by
    obtain ⟨snapshot, hid⟩ := isSome_iff_exists.mp (AList.lookup_isSome.mpr
      (hknown id (AList.lookup_isSome.mp (isSome_iff_exists.mpr ⟨s, hm⟩))))
    exact replyActions_congr hi hi' hm hm' hid hreply
  unfold handleReply
  rw [exists_instanceActions, exists_instanceActions]
  refine forall_congr' fun id => ?_
  rcases hsame.lookup id with ⟨hm, hm'⟩ | ⟨s, t, hm, hm', hreply⟩
  · rw [hm, hm']
  · rw [hm, hm']
    simp [hpair hm hm' hreply]

theorem mergedEvent_reply (hlocal : snapshots.organizer.email.isLocal = true) (hreply : itipMethod itip = .ok .reply) :
    mergedEvent C ical (itipProcessMessage C ical snapshots itip itipSnapshots sender) =
      if snapshots.organizer.email.email ≠ itipSnapshots.organizer.email.email ∨
          snapshots.organizer.email.email = sender then ical
      else itipMergeChanges C ical (chunk (handleReply C snapshots itipSnapshots sender)) := by
  unfold itipProcessMessage
  by_cases hmismatch : snapshots.organizer.email.email ≠ itipSnapshots.organizer.email.email
  · rw [if_pos hmismatch, if_pos (Or.inl hmismatch)]
    rfl
  rw [if_neg hmismatch, hreply]
  show mergedEvent C ical (if snapshots.organizer.email.isLocal = true then _ else _) = _
  rw [if_pos hlocal]
  by_cases hsender : snapshots.organizer.email.email = sender
  · rw [if_pos hsender, if_pos (Or.inr hsender)]
    rfl
  rw [if_neg hsender, if_neg (not_or.mpr ⟨hmismatch, hsender⟩)]
  cases handleReply C snapshots itipSnapshots sender with
  | error e => rfl
  | ok actions =>
    by_cases hnil : actions = []
    · subst hnil
      rfl
    · show mergedEvent C ical (.ok (mergeResult actions)) = _
      rw [mergeResult, if_pos hnil]
      rfl

theorem mergedEvent_congr (hs : itipSnapshot C ical accountEmails force = .ok snapshots)
    (hi : itipSnapshot C itip accountEmails force = .ok itipSnapshots)
    (hi' : itipSnapshot C itip' accountEmails force = .ok itipSnapshots')
    (hlocal : snapshots.organizer.email.isLocal = true) (hreply : itipMethod itip = .ok .reply)
    (hreply' : itipMethod itip' = .ok .reply) (hsame : SameReplies sender itipSnapshots itipSnapshots')
    (hknown : ∀ id ∈ itipSnapshots.components, id ∈ snapshots.components) :
    mergedEvent C ical (itipProcessMessage C ical snapshots itip itipSnapshots sender) =
      mergedEvent C ical (itipProcessMessage C ical snapshots itip' itipSnapshots' sender) := by
  rw [mergedEvent_reply hlocal hreply, mergedEvent_reply hlocal hreply', hsame.organizer]
  have hchunk : itipMergeChanges C ical (chunk (handleReply C snapshots itipSnapshots sender)) =
      itipMergeChanges C ical (chunk (handleReply C snapshots itipSnapshots' sender)) := by
    have hexists := exists_handleReply_congr hi hi' hsame hknown
    have htargets (m : ItipSnapshots) (hm : ∀ id ∈ m.components, id ∈ snapshots.components) (actions : List MergeAction)
        (h : handleReply C snapshots m sender = .ok actions) : ∀ a ∈ actions, a.target.isSome := by
      intro a ha
      obtain ⟨id, s, l, hlookup, hl, hmem⟩ := (mem_instanceActions h).mp ha
      rcases replyActions_eq_ok hl with ⟨snapshot, attendee, updated, -, -, -, rfl⟩ | ⟨hnone, -⟩
      · exact isSome_iff_exists.mpr ⟨_, target_known hmem⟩
      · exact absurd (hm id (AList.lookup_isSome.mp (isSome_iff_exists.mpr ⟨s, hlookup⟩)))
          (AList.lookup_eq_none.mp hnone)
    have hknown' : ∀ id ∈ itipSnapshots'.components, id ∈ snapshots.components := by
      intro id hid
      obtain ⟨t, ht⟩ := isSome_iff_exists.mp (AList.lookup_isSome.mpr hid)
      rcases hsame.lookup id with ⟨-, hm'⟩ | ⟨s, -, hm, -⟩
      · rw [hm'] at ht
        cases ht
      · exact hknown id (AList.lookup_isSome.mp (isSome_iff_exists.mpr ⟨s, hm⟩))
    cases h : handleReply C snapshots itipSnapshots sender with
    | error e =>
      cases h' : handleReply C snapshots itipSnapshots' sender with
      | error e' => rfl
      | ok actions' =>
        obtain ⟨actions, hactions⟩ := hexists.mpr ⟨actions', h'⟩
        rw [hactions] at h
        cases h
    | ok actions =>
      obtain ⟨actions', h'⟩ := hexists.mp ⟨actions, h⟩
      rw [h']
      show itipMergeChanges C ical actions = itipMergeChanges C ical actions'
      rw [itipMergeChanges_of_noRemoval (removeComponentIds_reply h),
        itipMergeChanges_of_noRemoval (removeComponentIds_reply h')]
      refine congrArg ICalendar.mk (ext_getElem? fun i => ?_)
      rw [getElem?_foldl_of_target (htargets _ hknown _ h), getElem?_foldl_of_target (htargets _ hknown' _ h')]
      refine congrArg (Option.map · _) ?_
      ext1 c
      rw [editedEntries_reply hs hi hi' hsame h h']
  rw [hchunk]

end

/-- **A reply changes the sender's participation and that of the delegates that the sender names**, adds only such
delegates, and what it says of others does not matter. -/
theorem reply_isolated (C : Calcard) {ical itip : ICalendar} {accountEmails : List String} {force : Bool}
    {snapshots itipSnapshots : ItipSnapshots} (sender : String)
    (hs : itipSnapshot C ical accountEmails force = .ok snapshots)
    (hi : itipSnapshot C itip accountEmails force = .ok itipSnapshots)
    (hlocal : snapshots.organizer.email.isLocal = true) (hreply : itipMethod itip = .ok .reply) :
    (∀ actions, itipProcessMessage C ical snapshots itip itipSnapshots sender = .ok (.actions actions) →
      ∀ (i : ℕ) comp, ical.components[i]? = some comp → ∃ c, (itipMergeChanges C ical actions).components[i]? = some c ∧
        Isolated C itipSnapshots (instanceOf C ical comp) sender comp.entries c.entries) ∧
    ∀ itip' itipSnapshots', itipSnapshot C itip' accountEmails force = .ok itipSnapshots' →
      itipMethod itip' = .ok .reply → SameReplies sender itipSnapshots itipSnapshots' →
        (∀ actions actions', itipProcessMessage C ical snapshots itip itipSnapshots sender = .ok (.actions actions) →
          itipProcessMessage C ical snapshots itip' itipSnapshots' sender = .ok (.actions actions') →
          ∀ (i : ℕ) comp, ical.components[i]? = some comp →
            ∃ c c', (itipMergeChanges C ical actions).components[i]? = some c ∧
              (itipMergeChanges C ical actions').components[i]? = some c' ∧ c.entries = c'.entries) ∧
        ((∀ id ∈ itipSnapshots.components, id ∈ snapshots.components) →
          mergedEvent C ical (itipProcessMessage C ical snapshots itip itipSnapshots sender) =
            mergedEvent C ical (itipProcessMessage C ical snapshots itip' itipSnapshots' sender)) := by
  constructor
  · intro actions h i comp hcomp
    obtain ⟨actions', hhandle, hresult⟩ := handleReply_of_process hlocal hreply h
    obtain rfl := mergeResult_eq_actions hresult.symm
    obtain ⟨c, hc, -, hisolated⟩ := isolated_of_handleReply hs hi hhandle hcomp
    exact ⟨c, hc, hisolated⟩
  · intro itip' itipSnapshots' hi' hreply' hsame
    refine ⟨fun actions actions' h h' i comp hcomp => ?_, fun hknown =>
      mergedEvent_congr hs hi hi' hlocal hreply hreply' hsame hknown⟩
    obtain ⟨l, hhandle, hresult⟩ := handleReply_of_process hlocal hreply h
    obtain ⟨l', hhandle', hresult'⟩ := handleReply_of_process hlocal hreply' h'
    obtain rfl := mergeResult_eq_actions hresult.symm
    obtain rfl := mergeResult_eq_actions hresult'.symm
    obtain ⟨c, hc, hentries, -⟩ := isolated_of_handleReply hs hi hhandle hcomp
    obtain ⟨c', hc', hentries', -⟩ := isolated_of_handleReply hs hi' hhandle' hcomp
    refine ⟨c, c', hc, hc', ?_⟩
    rw [hentries, hentries', editedEntries_reply hs hi hi' hsame hhandle hhandle']

section

def participating (email : String) (params : List ICalendarParameter) : ICalendarEntry :=
  ⟨.attendee, params, [.text ("mailto:" ++ email)]⟩

/-- `b@x` accepted. -/
def accepted : ICalendar :=
  calendarOf [meetingOf [participating "a@x" [], participating "b@x" [⟨.partstat, .partstat .accepted⟩]] "here" none]

/-- `a@x` delegates to `b@x`, and declines for them. -/
def delegating : ICalendar :=
  ⟨[⟨.vCalendar, [⟨.method, [], [.method .reply]⟩], [1]⟩,
    meetingOf [participating "a@x" [⟨.delegatedTo, .uri (.location "mailto:b@x")⟩],
      participating "b@x" [⟨.partstat, .partstat .declined⟩]] "here" none]⟩

/-- The entry of `b@x` is not there after the reply of `a@x`. -/
def overruled : Except ItipError Bool := do
  let snapshots ← itipSnapshot januaryCalcard accepted ["o@x"] false
  let itipSnapshots ← itipSnapshot januaryCalcard delegating ["o@x"] false
  let result ← itipProcessMessage januaryCalcard accepted snapshots delegating itipSnapshots "a@x"
  match result with
  | .actions actions =>
    return snapshots.organizer.email.isLocal && (itipMergeChanges januaryCalcard accepted actions).components[1]?.all fun c =>
      participating "b@x" [⟨.partstat, .partstat .accepted⟩] ∉ c.entries
  | _ => return false

theorem exists_overruled : ∃ snapshots itipSnapshots actions,
    itipSnapshot januaryCalcard accepted ["o@x"] false = .ok snapshots ∧
    itipSnapshot januaryCalcard delegating ["o@x"] false = .ok itipSnapshots ∧
    snapshots.organizer.email.isLocal = true ∧
    itipProcessMessage januaryCalcard accepted snapshots delegating itipSnapshots "a@x" = .ok (.actions actions) ∧
    ∀ c, (itipMergeChanges januaryCalcard accepted actions).components[1]? = some c →
      participating "b@x" [⟨.partstat, .partstat .accepted⟩] ∉ c.entries := by
  have h : overruled = .ok true := by decide
  obtain ⟨snapshots, hs, h⟩ := bind_eq_ok h
  obtain ⟨itipSnapshots, hi, h⟩ := bind_eq_ok h
  obtain ⟨result, hresult, h⟩ := bind_eq_ok h
  cases result with
  | actions actions =>
    obtain ⟨hlocal, hall⟩ := Bool.and_eq_true_iff.mp (Except.ok.inj h)
    refine ⟨snapshots, itipSnapshots, actions, hs, hi, hlocal, hresult, fun c hc => ?_⟩
    rw [hc] at hall
    exact of_decide_eq_true hall
  | message m => cases h
  | none => cases h

theorem isolated_delegating : ∃ snapshots itipSnapshots actions c,
    itipProcessMessage januaryCalcard accepted snapshots delegating itipSnapshots "a@x" = .ok (.actions actions) ∧
    (itipMergeChanges januaryCalcard accepted actions).components[1]? = some c ∧
      ∃ comp, accepted.components[1]? = some comp ∧
        Isolated januaryCalcard itipSnapshots (instanceOf januaryCalcard accepted comp) "a@x" comp.entries c.entries := by
  obtain ⟨snapshots, itipSnapshots, actions, hs, hi, hlocal, hresult, -⟩ := exists_overruled
  obtain ⟨c, hc, hisolated⟩ := (reply_isolated januaryCalcard "a@x" hs hi hlocal rfl).1 actions hresult 1 _ rfl
  exact ⟨snapshots, itipSnapshots, actions, c, hresult, hc, _, rfl, hisolated⟩

/-- What a reply says of a delegate who already takes part replaces what is stored. -/
theorem not_untouched_delegating : ¬ ∀ (C : Calcard) (ical itip : ICalendar) (accountEmails : List String)
    (snapshots itipSnapshots : ItipSnapshots) (sender : String) (actions : List MergeAction),
    itipSnapshot C ical accountEmails false = .ok snapshots → itipSnapshot C itip accountEmails false = .ok itipSnapshots →
    snapshots.organizer.email.isLocal = true → itipMethod itip = .ok .reply →
    itipProcessMessage C ical snapshots itip itipSnapshots sender = .ok (.actions actions) →
    ∀ (i : ℕ) comp, ical.components[i]? = some comp → ∀ e ∈ attendeeEntries comp.entries,
      participant C e ≠ some sender → ∃ c, (itipMergeChanges C ical actions).components[i]? = some c ∧ e ∈ c.entries := by
  intro h
  obtain ⟨snapshots, itipSnapshots, actions, hs, hi, hlocal, hresult, hno⟩ := exists_overruled
  obtain ⟨c, hc, hmem⟩ := h _ _ _ _ _ _ _ _ hs hi hlocal rfl hresult 1 _ rfl
    (participating "b@x" [⟨.partstat, .partstat .accepted⟩]) (by decide) (by decide)
  exact hno c hc hmem

end

end MailServer.Groupware
