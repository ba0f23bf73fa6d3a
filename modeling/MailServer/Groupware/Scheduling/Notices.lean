import MailServer.Groupware.Scheduling.Sequence

/-!
# Who gets which message

* `Addressed`: what the organizer's messages keep of it.
* `addressed`: they do.
-/

namespace MailServer.Groupware

open MailServer.Lib List

/-- Somebody takes part in an instance. -/
def Attends (s : ItipSnapshots) (id : InstanceId) (email : String) : Prop :=
  ∃ inst, s.components.lookup id = some inst ∧ ∃ a ∈ inst.attendees, a.email.email = email

/-- An instance is in one version only, or differs between the two. -/
def ChangedAt (old new : ItipSnapshots) (id : InstanceId) : Prop :=
  ∀ o n, old.components.lookup id = some o → new.components.lookup id = some n →
    n.entries ≠ o.entries ∨ ¬ n.sameAttendees o

variable (C : Calcard) (oldIcal newIcal : ICalendar) (old new : ItipSnapshots) (messages : List ItipMessage)

/-- A component is about an instance, as one of the versions dates it. -/
def Names (c : ICalendarComponent) (id : InstanceId) : Prop :=
  C.isSchedulingObject c.componentType = true ∧ (instanceOf C oldIcal c = id ∨ instanceOf C newIcal c = id)

/-- Somebody learns that they are no longer part of an instance. -/
def ToldOfRemoval (id : InstanceId) (email : String) : Prop :=
  ∃ m ∈ messages, email ∈ m.to ∧
    ((m.summary.method = .cancel ∧ ∃ c ∈ m.message.components, Names C oldIcal newIcal c id) ∨
      (m.summary.method = .request ∧ ∀ c ∈ m.message.components, C.isSchedulingObject c.componentType = true →
        instanceOf C newIcal c = id → email ∉ listed C c))

/-- No two messages go to one person. -/
def Once : Prop := messages.Pairwise fun m m' => ∀ email ∈ m.to, email ∉ m'.to

/-- Who gets a message takes part in an instance that changed. -/
def OfChanges : Prop := ∀ m ∈ messages, ∀ email ∈ m.to, ∃ id, (Attends old id email ∨ Attends new id email) ∧
  ChangedAt old new id

/-- Who takes part in single instances only is sent no others. -/
def Invited : Prop := ∀ m ∈ messages, ∀ email ∈ m.to, ¬ Attends old .main email → ¬ Attends new .main email →
  ∀ c ∈ m.message.components, C.isSchedulingObject c.componentType = true →
    ∃ id, Names C oldIcal newIcal c id ∧ (Attends old id email ∨ Attends new id email)

/-- Every participant gets the messages that concern them, once, and no others. -/
structure Consistent : Prop where
  once : Once messages
  changed : OfChanges old new messages
  told : ∀ id email, Attends old id email → ¬ Attends new id email → ToldOfRemoval C oldIcal newIcal messages id email
  invited : Invited C oldIcal newIcal old new messages

/-- A message about single instances goes to whom they concern, and to nobody who is to get the full update. -/
structure Single (m : ItipMessage) : Prop where
  notFull : ∀ email ∈ m.to, ¬ GetsFull C old new email
  noticed : ∀ email ∈ m.to, ∃ id, Notified C old new id email m.summary.method
  instances : ∀ email ∈ m.to, ∀ c ∈ m.message.components, C.isSchedulingObject c.componentType = true →
    ∃ id, Names C oldIcal newIcal c id ∧ Notified C old new id email m.summary.method

/-- What the organizer's messages keep: there is one full update if somebody is to get it, the other messages go to the
others, and who was removed and gets updates learns of it. -/
structure Addressed : Prop where
  parts : ∃ full partials, messages = full ++ partials ∧ full.length ≤ 1 ∧
    (full = [] ↔ ∀ email, ¬ GetsFull C old new email) ∧
    (∀ m ∈ full, m.summary.method = .request ∧ ∀ email, GetsFull C old new email → email ∈ m.to) ∧
    Once partials ∧ ∀ m ∈ partials, Single C oldIcal newIcal old new m
  told : ∀ id o a, old.components.lookup id = some o → a ∈ o.attendees → a.sendUpdateMessages = true →
    ¬ Attends new id a.email.email → ToldOfRemoval C oldIcal newIcal messages id a.email.email
  /-- Without a full update no message is about anything else. -/
  alone : (∀ email, ¬ GetsFull C old new email) →
    Once messages ∧ OfChanges old new messages ∧ Invited C oldIcal newIcal old new messages

variable {C oldIcal newIcal old new messages} {accountEmails : List String} {id : InstanceId} {email : String}
  {method : ICalendarMethod} {inst : ItipSnapshot}

/-! ## Notices -/

theorem Notified.attends (h : Notified C old new id email method) : Attends old id email ∨ Attends new id email := by
  cases h with
  | changed _ hn _ ha => exact Or.inr ⟨_, hn, _, ha, rfl⟩
  | removed ho _ _ ha => exact Or.inl ⟨_, ho, _, ha, rfl⟩
  | added _ hn ha => exact Or.inr ⟨_, hn, _, ha, rfl⟩
  | dropped ho _ ha => exact Or.inl ⟨_, ho, _, ha, rfl⟩

theorem Notified.changedAt (h : Notified C old new id email method) : ChangedAt old new id := by
  intro o' n' ho' hn'
  cases h with
  | changed ho hn hdiff =>
    obtain rfl := Option.some.inj (ho.symm.trans ho')
    obtain rfl := Option.some.inj (hn.symm.trans hn')
    exact hdiff
  | removed ho hn hdiff =>
    obtain rfl := Option.some.inj (ho.symm.trans ho')
    obtain rfl := Option.some.inj (hn.symm.trans hn')
    exact Or.inr hdiff
  | added ho => exact absurd (ho.symm.trans ho') (by simp)
  | dropped _ hn => exact absurd (hn.symm.trans hn') (by simp)

theorem notified_removal {o : ItipSnapshot} {a : Attendee} (ho : old.components.lookup id = some o) (ha : a ∈ o.attendees)
    (hsend : a.sendUpdateMessages = true) (hgone : ¬ Attends new id a.email.email) :
    Notified C old new id a.email.email .cancel := by
  cases hn : new.components.lookup id with
  | none => exact .dropped ho hn ha hsend
  | some n =>
    have hnot : ∀ b ∈ n.attendees, b.email.email ≠ a.email.email := fun b hb h => hgone ⟨n, hn, b, hb, h⟩
    refine .removed ho hn (fun hsame => ?_) ha hsend fun b hb _ => hnot b hb
    have hkey : a.key ∈ (n.attendees.map Attendee.key).toFinset := by
      rw [show (n.attendees.map Attendee.key).toFinset = _ from hsame, mem_toFinset]
      exact mem_map_of_mem ha
    obtain ⟨b, hb, hbkey⟩ := mem_map.mp (mem_toFinset.mp hkey)
    exact hnot b hb (congrArg AttendeeKey.email hbkey)

/-! ## Participants that a component lists -/

theorem attends_iff_listed (hnew : itipSnapshot C newIcal accountEmails false = .ok new)
    (h : new.components.lookup id = some inst) : Attends new id email ↔ email ∈ listed C inst.comp := by
  obtain ⟨i, comp, -, -, -, rfl⟩ := (lookup_itipSnapshot hnew id inst).mp h
  rw [comp_snapshotOf, mem_listed accountEmails, ← @exists_attendee_email C newIcal accountEmails comp i]
  constructor
  · rintro ⟨inst', hlookup, hattendee⟩
    rwa [← Option.some.inj (h.symm.trans hlookup)] at hattendee
  · exact fun hattendee => ⟨_, h, hattendee⟩

/-! ## The messages -/

theorem names_of_partialMessage {inc : Bool} {m : ItipMessage} {k : ICalendarMethod × List InstanceId} {emails : List String}
    (hold : itipSnapshot C oldIcal accountEmails false = .ok old)
    (hnew : itipSnapshot C newIcal accountEmails false = .ok new) (hplainOld : PlainZones C oldIcal)
    (hplain : PlainZones C newIcal)
    (h : partialMessage C ⟨oldIcal, old⟩ ⟨newIcal, new⟩ inc (k, emails) = some m) :
    (∀ c ∈ m.message.components, C.isSchedulingObject c.componentType = true →
      ∃ id ∈ k.2, Names C oldIcal newIcal c id) ∧
      ∀ id ∈ k.2, ∃ c ∈ m.message.components, Names C oldIcal newIcal c id := by
  obtain ⟨-, -, components, hmem, hall⟩ := partialMessage_spec hplainOld hplain h
  have hnames {id : InstanceId} {c : ICalendarComponent}
      (hc : ∃ w inst, (w = (if k.1 = .cancel then Version.mk oldIcal old else ⟨newIcal, new⟩) ∨ w = ⟨newIcal, new⟩) ∧
        w.itip.components.lookup id = some inst ∧
        c = partialComponent C inc (decide (k.1 = .cancel)) emails w inst) : Names C oldIcal newIcal c id := by
    obtain ⟨w, inst, hw, hlookup, rfl⟩ := hc
    rw [Names, componentType_partialComponent, instanceOf_partialComponent, instanceOf_partialComponent]
    have hversion : w = ⟨oldIcal, old⟩ ∨ w = ⟨newIcal, new⟩ := by
      rcases hw with rfl | rfl
      · split_ifs
        · exact Or.inl rfl
        · exact Or.inr rfl
      · exact Or.inr rfl
    rcases hversion with rfl | rfl
    · obtain ⟨-, hsched, hid, -⟩ := instance_itipSnapshot hold hlookup
      exact ⟨hsched, Or.inl hid⟩
    · obtain ⟨-, hsched, hid, -⟩ := instance_itipSnapshot hnew hlookup
      exact ⟨hsched, Or.inr hid⟩
  constructor
  · intro c hc hsched
    obtain ⟨id, hid, hpair⟩ := (exists_of_forall₂ hall).1 c ((hmem c hsched).mp hc)
    exact ⟨id, hid, hnames hpair⟩
  · intro id hid
    obtain ⟨c, hc, hpair⟩ := (exists_of_forall₂ hall).2 id hid
    exact ⟨c, (hmem c (hnames hpair).1).mpr hc, hnames hpair⟩

theorem Single.changed {m : ItipMessage} (h : Single C oldIcal newIcal old new m) (hm : email ∈ m.to) :
    ∃ id, (Attends old id email ∨ Attends new id email) ∧ ChangedAt old new id := by
  obtain ⟨id, hnotice⟩ := h.noticed email hm
  exact ⟨id, hnotice.attends, hnotice.changedAt⟩

theorem Single.invited {m : ItipMessage} (h : Single C oldIcal newIcal old new m) (hm : email ∈ m.to)
    {c : ICalendarComponent} (hc : c ∈ m.message.components) (hsched : C.isSchedulingObject c.componentType = true) :
    ∃ id, Names C oldIcal newIcal c id ∧ (Attends old id email ∨ Attends new id email) := by
  obtain ⟨id, hnames, hnotice⟩ := h.instances email hm c hc hsched
  exact ⟨id, hnames, hnotice.attends⟩

/-- **The organizer's messages are addressed** as the changes of the event ask. -/
theorem addressed (hold : itipSnapshot C oldIcal accountEmails false = .ok old)
    (hnew : itipSnapshot C newIcal accountEmails false = .ok new) (hplainOld : PlainZones C oldIcal)
    (hplain : PlainZones C newIcal) {sequences : List ℕ}
    (h : organizerHandleUpdate C oldIcal newIcal old new = some (.ok (messages, sequences))) :
    Addressed C oldIcal newIcal old new messages := by
  obtain ⟨inc, l, full, partials, -, hnotified, rfl, hnone, hsome, hpartials⟩ := organizerHandleUpdate_spec hnew hplain h
  have hsorted : Sorted l (l.foldl sendUpdate ⟨∅, ∅⟩) := sorted_foldl l
  obtain ⟨hfullSpec, -⟩ := organizerRequestFull_spec hnew hplain inc
  set updates := C.entries (groupUpdates C (l.foldl sendUpdate ⟨∅, ∅⟩).sendPartialUpdate)
  have htold {k : ICalendarMethod × List InstanceId} {emails : List String} {m : ItipMessage} (hk : (k, emails) ∈ updates)
      (hm : partialMessage C ⟨oldIcal, old⟩ ⟨newIcal, new⟩ inc (k, emails) = some m) {email : String} (he : email ∈ m.to) :
      Told C (l.foldl sendUpdate ⟨∅, ∅⟩) email k := by
    rw [(partialMessage_spec hplainOld hplain hm).1] at he
    exact (mem_groupUpdates hk email).mp he
  have honce : Once partials :=
    pairwise_of_forall₂ hpartials (pairwise_entries _) fun e he e' he' m m' hm hm' hne email hto hto' =>
      hne (hsorted.told_unique (htold he hm hto) (htold he' hm' hto'))
  have hsingle : ∀ m ∈ partials, Single C oldIcal newIcal old new m := by
    intro m hm
    obtain ⟨⟨k, emails⟩, hk, hmessage⟩ := (exists_of_forall₂ hpartials).1 m hm
    have hmethod : m.summary.method = k.1 := (partialMessage_spec hplainOld hplain hmessage).2.1
    have hnotice {email : String} (he : email ∈ m.to) : ¬ GetsFull C old new email ∧
        (∃ id, Notified C old new id email k.1) ∧ ∀ id ∈ k.2, Notified C old new id email k.1 := by
      obtain ⟨hnot, ⟨id, hid⟩, ids, hids, -, hmem⟩ := hsorted.told_iff.mp (htold hk hmessage he)
      refine ⟨mt (fullUpdate_iff hnotified).mpr hnot, ⟨id, (hnotified _ _ _).mp hid⟩, fun id hid => ?_⟩
      rwa [hids, C.mem_sortInstances, hmem, hnotified] at hid
    refine ⟨fun email he => (hnotice he).1, fun email he => ?_, fun email he c hc hsched => ?_⟩
    · rw [hmethod]
      exact (hnotice he).2.1
    · obtain ⟨id, hid, hnames⟩ := (names_of_partialMessage hold hnew hplainOld hplain hmessage).1 c hc hsched
      rw [hmethod]
      exact ⟨id, hnames, (hnotice he).2.2 id hid⟩
  refine ⟨⟨_, partials, rfl, ?_, ?_, ?_, honce, hsingle⟩, ?_, ?_⟩
  · by_cases hex : ∃ email, GetsFull C old new email
    · obtain ⟨f, rfl, -⟩ := hfullSpec full (hsome hex).1
      exact le_rfl
    · rw [(hnone (not_exists.mp hex)).1]
      exact Nat.zero_le 1
  · constructor
    · intro hnil email he
      obtain ⟨f, rfl, -⟩ := hfullSpec full (hsome ⟨email, he⟩).1
      exact cons_ne_nil _ _ hnil
    · intro hno
      rw [(hnone hno).1]
      rfl
  · intro m hm
    obtain ⟨f, hf, rfl⟩ := mem_map.mp hm
    refine ⟨rfl, fun email he => ?_⟩
    obtain ⟨f', rfl, hto, -⟩ := hfullSpec full (hsome ⟨email, he⟩).1
    obtain rfl := mem_singleton.mp hf
    exact (hto email).mpr he.participant
  · intro id o a ho ha hsend hgone
    have hnotice : Notified C old new id a.email.email .cancel := notified_removal ho ha hsend hgone
    by_cases hfull : GetsFull C old new a.email.email
    · obtain ⟨f, rfl, hto, hsent, -⟩ := hfullSpec full (hsome ⟨_, hfull⟩).1
      refine ⟨_, mem_append_left _ mem_cons_self, (hto _).mpr hfull.participant,
        Or.inr ⟨rfl, fun c hc hsched hid hlisted => ?_⟩⟩
      obtain ⟨id', inst, hlookup, -, hcontents⟩ := hsent c hc hsched
      have hsame : id' = id := (sent_component hnew hlookup hcontents).2.1.symm.trans hid
      subst hsame
      refine hgone ((attends_iff_listed hnew hlookup).mpr ?_)
      have hlist : listed C c = listed C (fullComponent C new inc inst) :=
        congrArg (List.filterMap _) (Prod.mk.inj hcontents).2
      rwa [hlist, fullComponent, listed_export] at hlisted
    · have hnot : ¬ FullUpdate l a.email.email := mt (fullUpdate_iff hnotified).mp hfull
      obtain ⟨ids, htold', hid⟩ := hsorted.exists_told (C := C) ((hnotified _ _ _).mpr hnotice) hnot
      obtain ⟨emails, hk⟩ := exists_groupUpdates htold'
      obtain ⟨m, hm, hmessage⟩ := (exists_of_forall₂ hpartials).2 _ hk
      obtain ⟨hto, hmethod, -⟩ := partialMessage_spec hplainOld hplain hmessage
      refine ⟨m, mem_append_right _ hm, ?_, Or.inl ⟨hmethod, ?_⟩⟩
      · rw [hto]
        exact (mem_groupUpdates hk _).mpr htold'
      · exact (names_of_partialMessage hold hnew hplainOld hplain hmessage).2 id hid
  · intro hno
    rw [(hnone hno).1]
    exact ⟨honce, fun m hm email he => (hsingle m hm).changed he,
      fun m hm email he _ _ c hc hsched => (hsingle m hm).invited he hc hsched⟩

section

/-- A participant who declined. -/
def declined (email : String) : ICalendarEntry :=
  ⟨.attendee, [⟨.partstat, .partstat .declined⟩], [.text ("mailto:" ++ email)]⟩

/-- The meeting before and after somebody who declined is taken off it. -/
def attended : ICalendar := calendarOf [meetingOf [attendee "a@x", declined "d@x"] "here" none]

def parted : ICalendar := calendarOf [meetingOf [attendee "a@x"] "here" none]

/-- `d@x` is in the first version only, and gets no message. -/
def unnoticed : Except ItipError (Option (Except ItipError Bool)) := do
  let old ← itipSnapshot januaryCalcard attended ["o@x"] false
  let new ← itipSnapshot januaryCalcard parted ["o@x"] false
  let takesPart (s : ItipSnapshots) : Bool :=
    (s.components.lookup .main).any fun inst => inst.attendees.any fun a => a.email.email = "d@x"
  return (organizerHandleUpdate januaryCalcard attended parted old new).map fun result => result.map fun r =>
    takesPart old && !takesPart new && r.1.all fun m => "d@x" ∉ m.to

theorem attends_iff_any {s : ItipSnapshots} {id : InstanceId} {email : String} :
    ((s.components.lookup id).any fun inst => inst.attendees.any fun a => a.email.email = email) = true ↔
      Attends s id email := by
  cases hlookup : s.components.lookup id <;> simp [Attends, hlookup]

theorem exists_unnoticed : ∃ old new messages sequences,
    itipSnapshot januaryCalcard attended ["o@x"] false = .ok old ∧
    itipSnapshot januaryCalcard parted ["o@x"] false = .ok new ∧
    organizerHandleUpdate januaryCalcard attended parted old new = some (.ok (messages, sequences)) ∧
    Attends old .main "d@x" ∧ ¬ Attends new .main "d@x" ∧ ∀ m ∈ messages, "d@x" ∉ m.to := by
  have h : unnoticed = .ok (some (.ok true)) := by decide
  obtain ⟨old, hold, h⟩ := bind_eq_ok h
  obtain ⟨new, hnew, h⟩ := bind_eq_ok h
  obtain ⟨result, hresult, h⟩ := Option.map_eq_some_iff.mp (Except.ok.inj h)
  cases result with
  | error e => cases h
  | ok r =>
    have hall := Except.ok.inj h
    rw [Bool.and_eq_true, Bool.and_eq_true, Bool.not_eq_true'] at hall
    obtain ⟨⟨hin, hout⟩, hno⟩ := hall
    refine ⟨old, new, r.1, r.2, hold, hnew, hresult, attends_iff_any.1 hin, fun hattends => ?_, fun m hm => ?_⟩
    · exact Bool.false_ne_true (hout.symm.trans (attends_iff_any.2 hattends))
    · exact of_decide_eq_true (all_eq_true.mp hno m hm)

theorem addressed_parted : ∃ old new messages sequences,
    organizerHandleUpdate januaryCalcard attended parted old new = some (.ok (messages, sequences)) ∧
      Addressed januaryCalcard attended parted old new messages := by
  obtain ⟨old, new, messages, sequences, hold, hnew, hmessages, -⟩ := exists_unnoticed
  exact ⟨old, new, messages, sequences, hmessages, addressed hold hnew (plainZones_of_none (by decide)) (plainZones_of_none (by decide))
    hmessages⟩

/-- Who declined is not told that they are removed. -/
theorem not_consistent_declined : ¬ ∀ (C : Calcard) (oldIcal newIcal : ICalendar) (accountEmails : List String)
    (old new : ItipSnapshots) (messages : List ItipMessage) (sequences : List ℕ),
    itipSnapshot C oldIcal accountEmails false = .ok old → itipSnapshot C newIcal accountEmails false = .ok new →
    PlainZones C oldIcal → PlainZones C newIcal →
    organizerHandleUpdate C oldIcal newIcal old new = some (.ok (messages, sequences)) →
    Consistent C oldIcal newIcal old new messages := by
  intro h
  obtain ⟨old, new, messages, sequences, hold, hnew, hmessages, hin, hout, hno⟩ := exists_unnoticed
  obtain ⟨m, hm, hto, -⟩ := (h _ _ _ _ old new messages sequences hold hnew (plainZones_of_none (by decide))
    (plainZones_of_none (by decide)) hmessages).told .main "d@x" hin hout
  exact hno m hm hto

end

end MailServer.Groupware
