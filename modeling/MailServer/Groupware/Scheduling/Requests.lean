import MailServer.Groupware.Scheduling.Ingest

/-!
# Requests in any order

* `Carried`: what a copy of an event says of an instance, as far as requests are told apart.
* `requests_replayed`: any sequence of requests.
-/

namespace MailServer.Groupware

open MailServer.Lib List

/-- The tracked properties, the participants and the number of an instance. -/
structure Carried where
  entries : Finset ItipEntry
  attendees : Finset AttendeeKey
  sequence : ℤ
deriving DecidableEq

def ItipSnapshot.carried (s : ItipSnapshot) : Carried :=
  ⟨s.entries, (s.attendees.map Attendee.key).toFinset, s.sequence.getD 0⟩

variable (C : Calcard) (accountEmails : List String)

/-- What the components of an object say of an instance. -/
def saidBy (ical : ICalendar) (id : InstanceId) : Set Carried :=
  { c | ∃ comp ∈ ical.components, C.isSchedulingObject comp.componentType = true ∧ instanceOf C ical comp = id ∧
    (snapshotOf C ical accountEmails comp 0).carried = c }

/-- The copy after a message that is accepted. -/
def itipApply (copy itip : ICalendar) (sender : String) : Except ItipError ICalendar := do
  let snapshots ← itipSnapshot C copy accountEmails false
  let itipSnapshots ← itipSnapshot C itip accountEmails false
  let result ← itipProcessMessage C copy snapshots itip itipSnapshots sender
  return mergedEvent C copy (.ok result)

/-- The copy after a message; one that is refused leaves it. -/
def itipReceive (sender : String) (copy itip : ICalendar) : ICalendar :=
  match itipApply C accountEmails copy itip sender with
  | .ok c => c
  | .error _ => copy

variable {C accountEmails} {ical ical' itip : ICalendar} {comp comp' : ICalendarComponent} {compId : ℕ} {k : AttendeeKey}
  {x : ItipEntry} {snapshot s : ItipSnapshot} {snapshots itipSnapshots : ItipSnapshots} {id : InstanceId}

/-! ## What is read of a component -/

theorem name_of_mem_trackedValues {entry : ICalendarEntry} (h : x ∈ trackedValues C ical entry) :
    x.name = entry.name ∧ entry.name.isTracked = true := by
  unfold trackedValues at h
  split_ifs at h with htracked
  · obtain ⟨v, -, rfl⟩ := mem_map.mp (mem_toFinset.mp h)
    exact ⟨rfl, htracked⟩
  · cases h

theorem read_entries (s : ItipSnapshot) (entry : ICalendarEntry) (i : ℕ) :
    (ItipSnapshot.read C ical accountEmails s entry i).entries = s.entries ∪ trackedValues C ical entry := by
  have hskip (h : entry.name.isTracked = false) : s.entries = s.entries ∪ trackedValues C ical entry := by
    rw [trackedValues, if_neg (by simp [h]), Finset.union_empty]
  unfold ItipSnapshot.read
  split <;> rename_i hname
  · split <;> exact hskip (by rw [hname]; rfl)
  · split <;> exact hskip (by rw [hname]; rfl)
  · split <;> exact hskip (by rw [hname]; rfl)
  · exact hskip (by rw [hname]; rfl)
  · rfl

theorem mem_foldl_read_entries (l : List (ICalendarEntry × ℕ)) (s : ItipSnapshot) :
    x ∈ (l.foldl (fun s e => ItipSnapshot.read C ical accountEmails s e.1 e.2) s).entries ↔
      x ∈ s.entries ∨ ∃ e ∈ l.map Prod.fst, x ∈ trackedValues C ical e := by
  induction l generalizing s with
  | nil => simp
  | cons e l ih =>
    rw [foldl_cons, ih, read_entries, Finset.mem_union, map_cons, exists_mem_cons_iff, or_assoc]

theorem mem_entries_snapshotOf : x ∈ (snapshotOf C ical accountEmails comp compId).entries ↔
    ∃ e ∈ comp.entries, x ∈ trackedValues C ical e := by
  have h := @mem_foldl_read_entries C accountEmails ical x comp.entries.zipIdx
    { compId, comp, attendees := [], dtstamp := none, entries := ∅, sequence := none, requestStatus := [] }
  rw [zipIdx_map_fst] at h
  exact h.trans (or_iff_right (Finset.notMem_empty x))

theorem mem_keys_snapshotOf : k ∈ ((snapshotOf C ical accountEmails comp compId).attendees.map Attendee.key).toFinset ↔
    ∃ e ∈ comp.entries, e.name = .attendee ∧ ∃ a, attendeeOf C accountEmails 0 e = some a ∧ a.key = k := by
  rw [mem_toFinset, mem_map, exists_attendee_key]
  constructor
  · rintro ⟨a, ha, hk⟩
    obtain ⟨⟨e, i⟩, he, hat⟩ := mem_filterMap.mp ha
    unfold attendeeAt at hat
    split_ifs at hat with hname
    refine ⟨e, mem_of_getElem? (mem_zipIdx_iff_getElem?.mp he), hname, { a with entryId := 0 }, ?_, hk⟩
    rw [attendeeOf_entryId i, hat]
    rfl
  · rintro ⟨e, he, hname, a, ha, hk⟩
    obtain ⟨i, hi⟩ := mem_iff_getElem?.mp he
    refine ⟨{ a with entryId := i }, mem_filterMap.mpr ⟨(e, i), mem_zipIdx_iff_getElem?.mpr hi, ?_⟩, hk⟩
    rw [attendeeAt, if_pos hname, attendeeOf_entryId 0, ha]
    rfl

theorem carried_congr {d : Carried}
    (hentries : ∀ x, (∃ e ∈ comp.entries, x ∈ trackedValues C ical e) ↔ x ∈ d.entries)
    (hkeys : ∀ k, (∃ e ∈ comp.entries, e.name = .attendee ∧ ∃ a, attendeeOf C accountEmails 0 e = some a ∧ a.key = k) ↔
      k ∈ d.attendees)
    (hsequence : (sequenceOf comp).getD 0 = d.sequence) : (snapshotOf C ical accountEmails comp compId).carried = d := by
  unfold ItipSnapshot.carried
  congr
  · ext x
    exact mem_entries_snapshotOf.trans (hentries x)
  · ext k
    exact mem_keys_snapshotOf.trans (hkeys k)
  · rw [sequence_snapshotOf]
    exact hsequence

/-- A component reads the same in two objects: its time zones are the same in both. -/
structure ReadAlike (C : Calcard) (ical ical' : ICalendar) (comp : ICalendarComponent) : Prop where
  values : ∀ e ∈ comp.entries, trackedValues C ical e = trackedValues C ical' e
  instances : ∀ e ∈ comp.entries, ∀ id, InstanceId.read C ical id e = InstanceId.read C ical' id e

open ReadAlike

theorem ReadAlike.of_timestamp (h : C.timestamp ical = C.timestamp ical') (comp : ICalendarComponent) :
    ReadAlike C ical ical' comp := by
  have hvalue (tzId : Option String) : entryValue C ical tzId = entryValue C ical' tzId := by
    ext1 v
    cases v <;> simp [entryValue, h]
  refine ⟨fun e _ => ?_, fun e _ id => ?_⟩
  · rw [trackedValues, trackedValues, hvalue]
  · simp [InstanceId.read, recurrenceIdOf, h]

theorem ReadAlike.symm (h : ReadAlike C ical ical' comp) : ReadAlike C ical' ical comp :=
  ⟨fun e he => (h.values e he).symm, fun e he id => (h.instances e he id).symm⟩

theorem ReadAlike.trans {ical₁ ical₂ ical₃ : ICalendar} (h : ReadAlike C ical₁ ical₂ comp)
    (h' : ReadAlike C ical₂ ical₃ comp) : ReadAlike C ical₁ ical₃ comp :=
  ⟨fun e he => (h.values e he).trans (h'.values e he), fun e he id => (h.instances e he id).trans (h'.instances e he id)⟩

theorem ReadAlike.of_subset (h : ReadAlike C ical ical' comp) (hsub : comp'.entries ⊆ comp.entries) :
    ReadAlike C ical ical' comp' :=
  ⟨fun e he => h.values e (hsub he), fun e he => h.instances e (hsub he)⟩

theorem instanceOf_alike (h : ReadAlike C ical ical' comp) : instanceOf C ical comp = instanceOf C ical' comp := by
  have hfold (l : List ICalendarEntry) (hl : ∀ e ∈ l, e ∈ comp.entries) (id : InstanceId) :
      l.foldl (InstanceId.read C ical) id = l.foldl (InstanceId.read C ical') id := by
    induction l generalizing id with
    | nil => rfl
    | cons e l ih =>
      rw [foldl_cons, h.instances e (hl e mem_cons_self)]
      exact ih (fun e he => hl e (mem_cons_of_mem _ he)) _
  exact hfold comp.entries (fun e he => he) .main

theorem exists_values_alike (h : ReadAlike C ical ical' comp) :
    (∃ e ∈ comp.entries, x ∈ trackedValues C ical e) ↔ ∃ e ∈ comp.entries, x ∈ trackedValues C ical' e := by
  constructor
  · rintro ⟨e, he, hx⟩
    exact ⟨e, he, (h.values e he) ▸ hx⟩
  · rintro ⟨e, he, hx⟩
    exact ⟨e, he, (h.values e he).symm ▸ hx⟩

theorem carried_alike (h : ReadAlike C ical ical' comp) (i j : ℕ) (hsame : comp'.entries = comp.entries) :
    (snapshotOf C ical accountEmails comp' i).carried = (snapshotOf C ical' accountEmails comp j).carried := by
  refine carried_congr (fun x => ?_) (fun k => ?_) ?_
  · rw [hsame, exists_values_alike h]
    exact mem_entries_snapshotOf.symm
  · rw [hsame]
    exact mem_keys_snapshotOf.symm
  · rw [sequenceOf, hsame]
    show _ = (snapshotOf C ical' accountEmails comp j).sequence.getD 0
    rw [sequence_snapshotOf]
    rfl

theorem carried_timestamp (h : C.timestamp ical = C.timestamp ical') (i j : ℕ) (hsame : comp'.entries = comp.entries) :
    (snapshotOf C ical accountEmails comp' i).carried = (snapshotOf C ical' accountEmails comp j).carried :=
  carried_alike (of_timestamp h comp) i j hsame

theorem snapshot_carried (hs : itipSnapshot C ical accountEmails false = .ok snapshots)
    (h : snapshots.components.lookup id = some snapshot) (i : ℕ) :
    snapshot.carried = (snapshotOf C ical accountEmails snapshot.comp i).carried := by
  obtain ⟨-, -, -, hsnapshot⟩ := snapshot_eq hs h
  conv_lhs => rw [hsnapshot]
  exact carried_timestamp rfl _ _ rfl

theorem saidBy_itipSnapshot (hs : itipSnapshot C ical accountEmails false = .ok snapshots) (id : InstanceId) (c : Carried) :
    c ∈ saidBy C accountEmails ical id ↔ (snapshots.components.lookup id).map ItipSnapshot.carried = some c := by
  constructor
  · rintro ⟨comp, hcomp, hsched, hid, rfl⟩
    obtain ⟨i, hi⟩ := mem_iff_getElem?.mp hcomp
    have hlookup := (lookup_itipSnapshot hs id _).mpr ⟨i, comp, hi, hsched, hid, rfl⟩
    rw [hlookup]
    exact congrArg some (carried_timestamp rfl _ _ rfl)
  · intro h
    obtain ⟨snapshot, hlookup, rfl⟩ := Option.map_eq_some_iff.mp h
    obtain ⟨hcomp, hid, hsched, -⟩ := snapshot_eq hs hlookup
    exact ⟨snapshot.comp, mem_of_getElem? hcomp, hsched, hid, (snapshot_carried hs hlookup 0).symm⟩

/-- The events of a message read the same in another object. -/
def ZonesAlike (C : Calcard) (itip copy : ICalendar) : Prop :=
  ∀ comp ∈ itip.components, C.isSchedulingObject comp.componentType = true → ReadAlike C itip copy comp

theorem ZonesAlike.congr {copy copy' : ICalendar} (h : ZonesAlike C itip copy) (hzone : C.timestamp copy' = C.timestamp copy) :
    ZonesAlike C itip copy' :=
  fun comp hcomp hsched => (h comp hcomp hsched).trans (of_timestamp hzone.symm comp)

theorem alike_of_lookup {copy : ICalendar} (hi : itipSnapshot C itip accountEmails false = .ok itipSnapshots)
    (hlookup : itipSnapshots.components.lookup id = some s) (h : ZonesAlike C itip copy) : ReadAlike C itip copy s.comp := by
  obtain ⟨hcomp, -, hsched, -⟩ := snapshot_eq hi hlookup
  exact h s.comp (mem_of_getElem? hcomp) hsched

/-! ## The components after merging -/

/-- The components that actions add. -/
def addedComponents (actions : List MergeAction) : List ICalendarComponent :=
  actions.filterMap fun
    | .addComponent component => some component
    | _ => none

section

variable {components : List ICalendarComponent} {actions : List MergeAction} {n : ℕ}

theorem root_mergeAction (h : components.head?.any (·.componentType = .vCalendar) = true) (a : MergeAction) :
    (mergeAction components a).head?.any (·.componentType = .vCalendar) = true := by
  rw [head?_eq_getElem?] at h ⊢
  cases hroot : components[0]? with
  | none =>
    rw [hroot] at h
    cases h
  | some root =>
    obtain ⟨root', hroot', htype, -⟩ := getElem?_mergeAction a hroot
    rw [hroot] at h
    rw [hroot', Option.any_some, htype]
    exact h

theorem drop_foldl_mergeAction (hn : 0 < n) (hle : n ≤ components.length)
    (hroot : components.head?.any (·.componentType = .vCalendar) = true)
    (htargets : ∀ a ∈ actions, ∀ i, a.target = some i → i < n) :
    (actions.foldl mergeAction components).drop n = components.drop n ++ addedComponents actions := by
  induction actions generalizing components with
  | nil => exact (append_nil _).symm
  | cons a actions ih =>
    have hrest : ∀ b ∈ actions, ∀ i, b.target = some i → i < n := fun b hb => htargets b (mem_cons_of_mem _ hb)
    cases ht : a.target with
    | some i =>
      have hlt := htargets a mem_cons_self i ht
      have hadded : addedComponents (a :: actions) = addedComponents actions := by
        cases a <;> first | rfl | cases ht
      have hlen : n ≤ (mergeAction components a).length := by
        rw [mergeAction_of_target ht, length_modify]
        exact hle
      rw [foldl_cons, ih hlen (root_mergeAction hroot a) hrest, hadded, mergeAction_of_target ht]
      refine congrArg (· ++ _) (ext_getElem? fun j => ?_)
      rw [getElem?_drop, getElem?_drop, getElem?_modify_ne _ _ (by omega)]
    | none =>
      cases a with
      | addComponent component =>
        have hstep : mergeAction components (.addComponent component) =
            pushRoot components components.length ++ [component] := if_pos hroot
        have hlen : n ≤ (mergeAction components (.addComponent component)).length := by
          rw [hstep, length_append, pushRoot, length_modify]
          omega
        have hdrop : (pushRoot components components.length).drop n = components.drop n := by
          refine ext_getElem? fun j => ?_
          rw [getElem?_drop, getElem?_drop, pushRoot, getElem?_modify_ne _ _ (by omega)]
        rw [foldl_cons, ih hlen (root_mergeAction hroot _) hrest, hstep, drop_append_of_le_length, hdrop,
          append_assoc]
        · rfl
        · rw [pushRoot, length_modify]
          exact hle
      | removeComponent id => exact ih hle hroot hrest
      | _ => cases ht

/-- **The scheduling components after merging**: those that stay, and those that are added. -/
theorem exists_merged (hlaw : RemovesComponents C) (hroot : ical.components.head?.any (·.componentType = .vCalendar) = true)
    (htargets : ∀ a ∈ actions, ∀ i, a.target = some i → i < ical.components.length)
    (hremoved : ∀ i ∈ removeComponentIds actions, i < ical.components.length) {componentType : ICalendarComponentType}
    (hsched : C.isSchedulingObject componentType = true) (entries : List ICalendarEntry) :
    (∃ c ∈ (itipMergeChanges C ical actions).components, contents c = (componentType, entries)) ↔
      (∃ (i : ℕ) (comp : ICalendarComponent), ical.components[i]? = some comp ∧ i ∉ removeComponentIds actions ∧
        comp.componentType = componentType ∧ editedEntries actions i comp.entries = entries) ∨
      ∃ c ∈ addedComponents actions, contents c = (componentType, entries) := by
  have hpos : 0 < ical.components.length := by
    cases hnil : ical.components with
    | nil =>
      rw [hnil] at hroot
      cases hroot
    | cons c l => exact Nat.succ_pos _
  have hdrop := drop_foldl_mergeAction hpos le_rfl hroot htargets
  rw [drop_length, nil_append] at hdrop
  have hmerged : (∃ (i : ℕ) (c : ICalendarComponent), (actions.foldl mergeAction ical.components)[i]? = some c ∧
      i ∉ removeComponentIds actions ∧ contents c = (componentType, entries)) ↔
      (∃ (i : ℕ) (comp : ICalendarComponent), ical.components[i]? = some comp ∧ i ∉ removeComponentIds actions ∧
        comp.componentType = componentType ∧ editedEntries actions i comp.entries = entries) ∨
      ∃ c ∈ addedComponents actions, contents c = (componentType, entries) := by
    constructor
    · rintro ⟨i, c, hi, hnot, hcontents⟩
      by_cases hlt : i < ical.components.length
      · obtain ⟨c', hc', htype, hentries⟩ := getElem?_foldl_mergeAction actions (getElem?_eq_getElem hlt)
        obtain rfl : c' = c := Option.some.inj (hc'.symm.trans hi)
        obtain ⟨hctype, hcentries⟩ := Prod.mk.inj hcontents
        exact Or.inl ⟨i, _, getElem?_eq_getElem hlt, hnot, htype.symm.trans hctype, hentries.symm.trans hcentries⟩
      · refine Or.inr ⟨c, ?_, hcontents⟩
        rw [← hdrop]
        refine mem_of_getElem? (i := i - ical.components.length) ?_
        rw [getElem?_drop, Nat.add_sub_cancel' (not_lt.mp hlt)]
        exact hi
    · rintro (⟨i, comp, hi, hnot, htype, hentries⟩ | ⟨c, hc, hcontents⟩)
      · obtain ⟨c, hc, hctype, hcentries⟩ := getElem?_foldl_mergeAction actions hi
        exact ⟨i, c, hc, hnot, Prod.ext (hctype.trans htype) (hcentries.trans hentries)⟩
      · rw [← hdrop] at hc
        obtain ⟨j, hj⟩ := mem_iff_getElem?.mp hc
        rw [getElem?_drop] at hj
        exact ⟨_, c, hj, fun hmem => absurd (hremoved _ hmem) (by omega), hcontents⟩
  rw [← hmerged]
  unfold itipMergeChanges
  split
  · exact hlaw _ _ _ _ hsched
  · rename_i hnone
    rw [not_not.mp hnone]
    constructor
    · rintro ⟨c, hc, hcontents⟩
      obtain ⟨i, hi⟩ := mem_iff_getElem?.mp hc
      exact ⟨i, c, hi, not_mem_nil, hcontents⟩
    · rintro ⟨i, c, hi, -, hcontents⟩
      exact ⟨c, mem_of_getElem? hi, hcontents⟩

end

/-! ## The actions of a request -/

theorem requestActions_eq_ok (hi : itipSnapshot C itip accountEmails false = .ok itipSnapshots)
    (hlookup : itipSnapshots.components.lookup id = some s) {l : List MergeAction}
    (h : requestActions itip snapshots id s = .ok l) :
    (∃ snapshot, snapshots.components.lookup id = some snapshot ∧ snapshot.carried.sequence ≤ s.carried.sequence ∧
      l = [.removeEntries snapshot.compId (changedProperties snapshot s),
        .addEntries snapshot.compId (s.comp.entries.filter (·.name ∈ changedProperties snapshot s))]) ∨
    (snapshots.components.lookup id = none ∧ l = [.addComponent (addedComponent s.comp)]) := by
  unfold requestActions at h
  rw [getD_instance hi hlookup] at h
  split at h
  · rename_i snapshot hid
    split_ifs at h with hle
    exact Or.inl ⟨snapshot, hid, hle, (Except.ok.inj h).symm⟩
  · rename_i hid
    exact Or.inr ⟨hid, (Except.ok.inj h).symm⟩

theorem targetsInstance_request : TargetsInstance snapshots (requestActions itip snapshots) := by
  intro id s l h a ha i hi
  unfold requestActions at h
  split at h
  · rename_i snapshot hid
    split_ifs at h
    obtain rfl := Except.ok.inj h
    refine ⟨snapshot, hid, ?_⟩
    rcases mem_cons.mp ha with rfl | ha
    · exact Option.some.inj hi
    · obtain rfl := mem_singleton.mp ha
      exact Option.some.inj hi
  · obtain rfl := Except.ok.inj h
    obtain rfl := mem_singleton.mp ha
    cases hi

variable {actions : List MergeAction}

theorem mem_addedComponents {c : ICalendarComponent} : c ∈ addedComponents actions ↔ .addComponent c ∈ actions := by
  rw [addedComponents, mem_filterMap]
  constructor
  · rintro ⟨a, ha, hc⟩
    cases a <;> cases hc
    exact ha
  · exact fun h => ⟨_, h, rfl⟩

theorem mem_removeComponentIds {i : ℕ} : i ∈ removeComponentIds actions ↔ .removeComponent i ∈ actions := by
  rw [removeComponentIds, mem_filterMap]
  constructor
  · rintro ⟨a, ha, hi⟩
    cases a <;> cases hi
    exact ha
  · exact fun h => ⟨_, h, rfl⟩

/-! ## The properties that a request replaces -/

theorem isTracked_of_mem (hs : itipSnapshot C ical accountEmails false = .ok snapshots)
    (h : snapshots.components.lookup id = some snapshot) (hx : x ∈ snapshot.entries) : x.name.isTracked = true := by
  obtain ⟨-, -, -, hsnapshot⟩ := snapshot_eq hs h
  rw [hsnapshot] at hx
  obtain ⟨e, -, hmem⟩ := mem_entries_snapshotOf.1 hx
  obtain ⟨hname, htracked⟩ := name_of_mem_trackedValues hmem
  rw [hname]
  exact htracked

theorem sequence_changed : ICalendarProperty.sequence ∈ changedProperties snapshot s := Finset.mem_insert_self _ _

theorem mem_entries_of_unchanged (h : x.name ∉ changedProperties snapshot s) : x ∈ snapshot.entries ↔ x ∈ s.entries := by
  have hnot : x ∉ (s.entries \ snapshot.entries) ∪ (snapshot.entries \ s.entries) := fun hmem =>
    h (Finset.mem_insert_of_mem (Finset.mem_union_left _ (Finset.mem_union_left _ (Finset.mem_image_of_mem _ hmem))))
  rw [Finset.mem_union, Finset.mem_sdiff, Finset.mem_sdiff, not_or, not_and, not_and, not_not, not_not] at hnot
  exact ⟨hnot.2, hnot.1⟩

theorem sameAttendees_of_unchanged (h : ICalendarProperty.attendee ∉ changedProperties snapshot s) :
    s.sameAttendees snapshot := by
  by_contra hdiffer
  refine h (Finset.mem_insert_of_mem (Finset.mem_union_left _ (Finset.mem_union_right _ ?_)))
  rw [if_neg hdiffer]
  exact Finset.mem_singleton_self _

theorem recurrenceId_unchanged (htracked : ∀ x ∈ s.entries, x.name.isTracked = true)
    (htracked' : ∀ x ∈ snapshot.entries, x.name.isTracked = true) :
    ICalendarProperty.recurrenceId ∉ changedProperties snapshot s := by
  intro hmem
  rcases Finset.mem_insert.mp hmem with h | h
  · cases h
  rcases Finset.mem_union.mp h with h | h
  · rcases Finset.mem_union.mp h with h | h
    · obtain ⟨x, hx, hname⟩ := Finset.mem_image.mp h
      have hx' : x.name.isTracked = true := by
        rcases Finset.mem_union.mp hx with hx | hx
        · exact htracked x (Finset.mem_sdiff.mp hx).1
        · exact htracked' x (Finset.mem_sdiff.mp hx).1
      rw [hname] at hx'
      cases hx'
    · split_ifs at h
      · cases h
      · cases Finset.mem_singleton.mp h
  · split_ifs at h
    · cases Finset.mem_singleton.mp h
    · cases h

section

variable {copy : ICalendar} (hs : itipSnapshot C copy accountEmails false = .ok snapshots)
  (hi : itipSnapshot C itip accountEmails false = .ok itipSnapshots)
  (hlookup : itipSnapshots.components.lookup id = some s)

/-- The properties of an instance after a request. -/
def replacedEntries (snapshot s : ItipSnapshot) : List ICalendarEntry :=
  snapshot.comp.entries.filter (·.name ∉ changedProperties snapshot s) ++
    s.comp.entries.filter (·.name ∈ changedProperties snapshot s)

include hs hi hlookup in
theorem instanceOf_replaced (hid : snapshots.components.lookup id = some snapshot)
    (hentries : comp.entries = replacedEntries snapshot s) (hzone : C.timestamp ical = C.timestamp copy) :
    instanceOf C ical comp = id := by
  obtain ⟨-, hinstance, -, -⟩ := snapshot_eq hs hid
  rw [instanceOf_alike (of_timestamp hzone comp), ← hinstance]
  have hnot := recurrenceId_unchanged (fun x hx => isTracked_of_mem hi hlookup hx) (fun x hx => isTracked_of_mem hs hid hx)
  apply instanceOf_congr
  rw [hentries, replacedEntries, filter_append, filter_filter, filter_filter]
  have hnil : s.comp.entries.filter (fun e =>
      decide (e.name = .recurrenceId) && decide (e.name ∈ changedProperties snapshot s)) = [] := by
    refine filter_eq_nil_iff.mpr fun e _ h => ?_
    obtain ⟨hname, hmem⟩ := Bool.and_eq_true_iff.mp h
    rw [of_decide_eq_true hname] at hmem
    exact hnot (of_decide_eq_true hmem)
  rw [hnil, append_nil]
  refine filter_congr fun e _ => ?_
  by_cases hname : e.name = .recurrenceId
  · simp [hname, hnot]
  · simp [hname]

include hs hi hlookup in
/-- **An instance that the copy has** carries what the request says. -/
theorem carried_replaced (hid : snapshots.components.lookup id = some snapshot)
    (hentries : comp.entries = replacedEntries snapshot s) (hzone : C.timestamp ical = C.timestamp copy)
    (halike : ReadAlike C itip copy s.comp) : (snapshotOf C ical accountEmails comp compId).carried = s.carried := by
  obtain ⟨-, -, -, hsnapshot⟩ := snapshot_eq hs hid
  obtain ⟨-, -, -, hs'⟩ := snapshot_eq hi hlookup
  refine carried_congr (fun x => ?_) (fun k => ?_) ?_
  · have hold : (∃ e ∈ snapshot.comp.entries, x ∈ trackedValues C ical e) ↔ x ∈ snapshot.entries := by
      conv_rhs => rw [hsnapshot]
      rw [exists_values_alike (of_timestamp hzone snapshot.comp)]
      exact mem_entries_snapshotOf.symm
    have hnew : (∃ e ∈ s.comp.entries, x ∈ trackedValues C ical e) ↔ x ∈ s.entries := by
      conv_rhs => rw [hs']
      rw [exists_values_alike ((of_timestamp hzone s.comp).trans halike.symm)]
      exact mem_entries_snapshotOf.symm
    show _ ↔ x ∈ s.entries
    rw [hentries, replacedEntries]
    constructor
    · rintro ⟨e, he, hx⟩
      obtain ⟨hname, -⟩ := name_of_mem_trackedValues hx
      rcases mem_append.mp he with he | he
      · obtain ⟨he, hnot⟩ := mem_filter.mp he
        rw [← hname, decide_eq_true_eq] at hnot
        exact (mem_entries_of_unchanged hnot).mp (hold.mp ⟨e, he, hx⟩)
      · exact hnew.mp ⟨e, (mem_filter.mp he).1, hx⟩
    · intro hx
      by_cases hchanged : x.name ∈ changedProperties snapshot s
      · obtain ⟨e, he, hxe⟩ := hnew.mpr hx
        refine ⟨e, mem_append_right _ (mem_filter.mpr ⟨he, ?_⟩), hxe⟩
        rw [← (name_of_mem_trackedValues hxe).1]
        exact decide_eq_true hchanged
      · obtain ⟨e, he, hxe⟩ := hold.mpr ((mem_entries_of_unchanged hchanged).mpr hx)
        refine ⟨e, mem_append_left _ (mem_filter.mpr ⟨he, ?_⟩), hxe⟩
        rw [← (name_of_mem_trackedValues hxe).1]
        exact decide_eq_true hchanged
  · have hkeys (t : ItipSnapshot) : k ∈ t.carried.attendees ↔ k ∈ (t.attendees.map Attendee.key).toFinset := Iff.rfl
    have hnew : (∃ e ∈ s.comp.entries, e.name = .attendee ∧ ∃ a, attendeeOf C accountEmails 0 e = some a ∧ a.key = k) ↔
        k ∈ s.carried.attendees := by
      rw [hkeys, hs', comp_snapshotOf]
      exact mem_keys_snapshotOf.symm
    have hold : (∃ e ∈ snapshot.comp.entries, e.name = .attendee ∧
        ∃ a, attendeeOf C accountEmails 0 e = some a ∧ a.key = k) ↔ k ∈ snapshot.carried.attendees := by
      rw [hkeys, hsnapshot, comp_snapshotOf]
      exact mem_keys_snapshotOf.symm
    rw [hentries, replacedEntries]
    by_cases hchanged : ICalendarProperty.attendee ∈ changedProperties snapshot s
    · rw [← hnew]
      constructor
      · rintro ⟨e, he, hname, ha⟩
        rcases mem_append.mp he with he | he
        · obtain ⟨-, hnot⟩ := mem_filter.mp he
          rw [hname, decide_eq_true_eq] at hnot
          exact absurd hchanged hnot
        · exact ⟨e, (mem_filter.mp he).1, hname, ha⟩
      · rintro ⟨e, he, hname, ha⟩
        refine ⟨e, mem_append_right _ (mem_filter.mpr ⟨he, ?_⟩), hname, ha⟩
        rw [hname]
        exact decide_eq_true hchanged
    · have hsame : s.carried.attendees = snapshot.carried.attendees := sameAttendees_of_unchanged hchanged
      rw [hsame, ← hold]
      constructor
      · rintro ⟨e, he, hname, ha⟩
        rcases mem_append.mp he with he | he
        · exact ⟨e, (mem_filter.mp he).1, hname, ha⟩
        · obtain ⟨-, hmem⟩ := mem_filter.mp he
          rw [hname, decide_eq_true_eq] at hmem
          exact absurd hmem hchanged
      · rintro ⟨e, he, hname, ha⟩
        refine ⟨e, mem_append_left _ (mem_filter.mpr ⟨he, ?_⟩), hname, ha⟩
        rw [hname]
        exact decide_eq_true hchanged
  · have hnumber : s.carried.sequence = (sequenceOf s.comp).getD 0 := by
      show s.sequence.getD 0 = _
      rw [hs', sequence_snapshotOf, comp_snapshotOf]
    have hold : (snapshot.comp.entries.filter (·.name ∉ changedProperties snapshot s)).filterMap sequenceNumber = [] := by
      refine filterMap_eq_nil_iff.mpr fun e he => if_neg fun hname => ?_
      obtain ⟨-, hnot⟩ := mem_filter.mp he
      rw [hname, decide_eq_true_eq] at hnot
      exact hnot sequence_changed
    have hnew : (s.comp.entries.filter (·.name ∈ changedProperties snapshot s)).filterMap sequenceNumber =
        s.comp.entries.filterMap sequenceNumber := by
      rw [filterMap_filter]
      refine filterMap_congr fun e _ => ?_
      by_cases hname : e.name = .sequence
      · rw [if_pos (by rw [hname]; exact decide_eq_true sequence_changed)]
      · rw [sequenceNumber, if_neg hname, ite_self]
    rw [hnumber, sequenceOf, hentries, replacedEntries, filterMap_append, hold, hnew]
    rfl

include hi hlookup in
/-- **An instance that the copy does not have** comes in as the request says. -/
theorem added_replaced (hentries : comp.entries = (addedComponent s.comp).entries) (halike : ReadAlike C ical itip s.comp) :
    (snapshotOf C ical accountEmails comp compId).carried = s.carried ∧ instanceOf C ical comp = id := by
  obtain ⟨-, hinstance, -, hs'⟩ := snapshot_eq hi hlookup
  have hkept (p : ICalendarEntry → Prop) (hp : ∀ e, p e → ∀ name, e.name ≠ .other name) :
      (∃ e ∈ comp.entries, p e) ↔ ∃ e ∈ s.comp.entries, p e := by
    rw [hentries]
    constructor
    · rintro ⟨e, he, hpe⟩
      exact ⟨e, (mem_filter.mp he).1, hpe⟩
    · rintro ⟨e, he, hpe⟩
      refine ⟨e, mem_filter.mpr ⟨he, ?_⟩, hpe⟩
      split
      · rename_i name hname
        exact absurd hname (hp e hpe name)
      · rfl
  refine ⟨carried_congr (fun x => ?_) (fun k => ?_) ?_, ?_⟩
  · rw [hkept (fun e => x ∈ trackedValues C ical e)]
    · rw [exists_values_alike halike]
      show _ ↔ x ∈ s.entries
      conv_rhs => rw [hs']
      exact mem_entries_snapshotOf.symm
    · intro e hx name hname
      obtain ⟨-, htracked⟩ := name_of_mem_trackedValues hx
      rw [hname] at htracked
      cases htracked
  · rw [hkept (fun e => e.name = .attendee ∧ ∃ a, attendeeOf C accountEmails 0 e = some a ∧ a.key = k)]
    · show _ ↔ k ∈ (s.attendees.map Attendee.key).toFinset
      rw [hs', comp_snapshotOf]
      exact mem_keys_snapshotOf.symm
    · rintro e ⟨hname, -⟩ name h
      rw [hname] at h
      cases h
  · show _ = s.sequence.getD 0
    rw [hs', sequence_snapshotOf, sequenceOf, sequenceOf, hentries]
    have hfilter : (addedComponent s.comp).entries.filterMap sequenceNumber = s.comp.entries.filterMap sequenceNumber := by
      rw [addedComponent, filterMap_filter]
      refine filterMap_congr fun e _ => ?_
      split
      · rename_i name hname
        rw [if_neg Bool.false_ne_true, sequenceNumber, hname]
        exact (if_neg (by simp)).symm
      · exact if_pos rfl
    rw [hfilter]
  · have hsub : comp.entries ⊆ s.comp.entries := by
      rw [hentries]
      exact filter_subset_self _
    rw [instanceOf_alike (halike.of_subset hsub), ← hinstance]
    apply instanceOf_congr
    rw [hentries, addedComponent, filter_filter]
    refine filter_congr fun e _ => ?_
    by_cases hname : e.name = .recurrenceId
    · simp [hname]
    · simp [hname]

end

/-! ## One request -/

/-- What a request that is accepted makes of what is said of the instances: those that it has are as it says, and the
others go if it has the event itself. -/
def overwrite (m : ItipSnapshots) (said : InstanceId → Set Carried) (id : InstanceId) : Set Carried :=
  match m.components.lookup id with
  | some s => {s.carried}
  | none => if .main ∈ m.components then ∅ else said id

section

variable {copy : ICalendar} {sender : String} (hs : itipSnapshot C copy accountEmails false = .ok snapshots)
  (hi : itipSnapshot C itip accountEmails false = .ok itipSnapshots)
  (h : organizerActions C snapshots itip itipSnapshots sender .request = .ok actions)

include h in
theorem request_actions : ∃ l, instanceActions C itipSnapshots.components (requestActions itip snapshots) = .ok l ∧
    actions = l ++ removedActions C snapshots itipSnapshots := by
  obtain ⟨l, hl, h⟩ := bind_eq_ok h
  exact ⟨l, hl, (Except.ok.inj h).symm⟩

theorem mem_removedActions {a : MergeAction} : a ∈ removedActions C snapshots itipSnapshots ↔
    .main ∈ itipSnapshots.components ∧ ∃ id snapshot, snapshots.components.lookup id = some snapshot ∧
      id ∉ itipSnapshots.components ∧ a = .removeComponent snapshot.compId := by
  unfold removedActions
  split_ifs with hmain
  · rw [mem_map]
    constructor
    · rintro ⟨⟨id, snapshot⟩, he, rfl⟩
      obtain ⟨he, hnot⟩ := mem_filter.mp he
      exact ⟨hmain, id, snapshot, Calcard.mem_entries.mp he, of_decide_eq_true hnot, rfl⟩
    · rintro ⟨-, id, snapshot, hid, hnot, rfl⟩
      exact ⟨(id, snapshot), mem_filter.mpr ⟨Calcard.mem_entries.mpr hid, decide_eq_true hnot⟩, rfl⟩
  · exact ⟨nofun, fun hmem => absurd hmem.1 hmain⟩

include hi in
theorem action_cases {l : List MergeAction}
    (hl : instanceActions C itipSnapshots.components (requestActions itip snapshots) = .ok l) {a : MergeAction}
    (ha : a ∈ l) : ∃ id s, itipSnapshots.components.lookup id = some s ∧
      ((∃ snapshot, snapshots.components.lookup id = some snapshot ∧ a.target = some snapshot.compId) ∨
        (snapshots.components.lookup id = none ∧ a = .addComponent (addedComponent s.comp))) := by
  obtain ⟨id, s, k, hlookup, hk, hmem⟩ := (mem_instanceActions hl).mp ha
  refine ⟨id, s, hlookup, ?_⟩
  rcases requestActions_eq_ok hi hlookup hk with ⟨snapshot, hid, -, rfl⟩ | ⟨hnone, rfl⟩
  · refine Or.inl ⟨snapshot, hid, ?_⟩
    rcases mem_cons.mp hmem with rfl | hmem
    · rfl
    · obtain rfl := mem_singleton.mp hmem
      rfl
  · exact Or.inr ⟨hnone, mem_singleton.mp hmem⟩

include hi h in
theorem mem_removed {i : ℕ} : i ∈ removeComponentIds actions ↔ .main ∈ itipSnapshots.components ∧
    ∃ id snapshot, snapshots.components.lookup id = some snapshot ∧ id ∉ itipSnapshots.components ∧
      snapshot.compId = i := by
  obtain ⟨l, hl, rfl⟩ := request_actions h
  rw [mem_removeComponentIds, mem_append, mem_removedActions]
  constructor
  · rintro (hmem | ⟨hmain, id, snapshot, hid, hnot, heq⟩)
    · obtain ⟨id, s, -, ⟨snapshot, -, htarget⟩ | ⟨-, heq⟩⟩ := action_cases hi hl hmem
      · cases htarget
      · cases heq
    · exact ⟨hmain, id, snapshot, hid, hnot, (MergeAction.removeComponent.inj heq).symm⟩
  · rintro ⟨hmain, id, snapshot, hid, hnot, rfl⟩
    exact Or.inr ⟨hmain, id, snapshot, hid, hnot, rfl⟩

include hi h in
theorem mem_added {c : ICalendarComponent} : c ∈ addedComponents actions ↔
    ∃ id s, itipSnapshots.components.lookup id = some s ∧ snapshots.components.lookup id = none ∧
      c = addedComponent s.comp := by
  obtain ⟨l, hl, rfl⟩ := request_actions h
  rw [mem_addedComponents, mem_append, mem_removedActions]
  constructor
  · rintro (hmem | ⟨-, id, snapshot, -, -, heq⟩)
    · obtain ⟨id, s, hlookup, ⟨snapshot, -, htarget⟩ | ⟨hnone, heq⟩⟩ := action_cases hi hl hmem
      · cases htarget
      · exact ⟨id, s, hlookup, hnone, MergeAction.addComponent.inj heq⟩
    · cases heq
  · rintro ⟨id, s, hlookup, hnone, rfl⟩
    refine Or.inl ((mem_instanceActions hl).mpr ⟨id, s, _, hlookup, (instanceActions_eq_ok hl).1 id s hlookup, ?_⟩)
    rcases requestActions_eq_ok hi hlookup ((instanceActions_eq_ok hl).1 id s hlookup) with ⟨snapshot, hid, -⟩ | ⟨-, hchunk⟩
    · rw [hnone] at hid
      cases hid
    · rw [hchunk]
      exact mem_singleton_self _

include h in
theorem editedEntries_request (i : ℕ) (entries : List ICalendarEntry) : ∃ l,
    instanceActions C itipSnapshots.components (requestActions itip snapshots) = .ok l ∧
      editedEntries actions i entries = editedEntries l i entries := by
  obtain ⟨l, hl, rfl⟩ := request_actions h
  refine ⟨l, hl, ?_⟩
  have hnil : (removedActions C snapshots itipSnapshots).filter (·.target = some i) = [] := by
    refine filter_eq_nil_iff.mpr fun a ha htarget => ?_
    obtain ⟨-, id, snapshot, -, -, rfl⟩ := mem_removedActions.1 ha
    cases of_decide_eq_true htarget
  rw [editedEntries, filter_append, hnil, append_nil]
  rfl

include hs hi h in
theorem editedEntries_replaced {snapshot s : ItipSnapshot} (hid : snapshots.components.lookup id = some snapshot)
    (hlookup : itipSnapshots.components.lookup id = some s) :
    editedEntries actions snapshot.compId snapshot.comp.entries = replacedEntries snapshot s := by
  obtain ⟨l, hl, hedited⟩ := editedEntries_request h snapshot.compId snapshot.comp.entries
  rw [hedited, editedEntries_instanceActions (oneEach hs) targetsInstance_request hl hid, hlookup, Option.map_some,
    Option.getD_some]
  rcases requestActions_eq_ok hi hlookup ((instanceActions_eq_ok hl).1 id s hlookup) with
    ⟨snapshot', hid', -, hchunk⟩ | ⟨hnone, -⟩
  · obtain rfl : snapshot = snapshot' := Option.some.inj (hid.symm.trans hid')
    rw [hchunk, editedEntries_of_targets]
    · rfl
    · intro a ha
      rcases mem_cons.mp ha with rfl | ha
      · rfl
      · obtain rfl := mem_singleton.mp ha
        rfl
  · rw [hid] at hnone
    cases hnone

include hs h in
theorem editedEntries_kept {snapshot : ItipSnapshot} (hid : snapshots.components.lookup id = some snapshot)
    (hlookup : itipSnapshots.components.lookup id = none) (entries : List ICalendarEntry) :
    editedEntries actions snapshot.compId entries = entries := by
  obtain ⟨l, hl, hedited⟩ := editedEntries_request h snapshot.compId entries
  rw [hedited, editedEntries_instanceActions (oneEach hs) targetsInstance_request hl hid, hlookup]
  rfl

include hs hi h in
/-- **One request that is accepted.** -/
theorem saidBy_merged (hlaw : RemovesComponents C)
    (hroot : copy.components.head?.any (·.componentType = .vCalendar) = true)
    (hzone : C.timestamp (itipMergeChanges C copy actions) = C.timestamp copy) (halike : ZonesAlike C itip copy) :
    saidBy C accountEmails (itipMergeChanges C copy actions) =
      overwrite itipSnapshots (saidBy C accountEmails copy) := by
  have hlt {id : InstanceId} {snapshot : ItipSnapshot} (hid : snapshots.components.lookup id = some snapshot) :
      snapshot.compId < copy.components.length := (List.getElem?_eq_some_iff.mp (snapshot_eq hs hid).1).1
  have htargets : ∀ a ∈ actions, ∀ i, a.target = some i → i < copy.components.length := by
    obtain ⟨l, hl, rfl⟩ := request_actions h
    intro a ha i htarget
    rcases mem_append.mp ha with ha | ha
    · obtain ⟨id, s, -, ⟨snapshot, hid, htarget'⟩ | ⟨-, rfl⟩⟩ := action_cases hi hl ha
      · rw [← Option.some.inj (htarget'.symm.trans htarget)]
        exact hlt hid
      · cases htarget
    · obtain ⟨-, id, snapshot, -, -, rfl⟩ := mem_removedActions.1 ha
      cases htarget
  have hremoved : ∀ i ∈ removeComponentIds actions, i < copy.components.length := by
    intro i hmem
    obtain ⟨-, id, snapshot, hid, -, rfl⟩ := (mem_removed hi h).mp hmem
    exact hlt hid
  have hmerged {componentType : ICalendarComponentType} (hsched : C.isSchedulingObject componentType = true)
      (entries : List ICalendarEntry) := exists_merged hlaw hroot htargets hremoved hsched entries
  ext id c
  unfold overwrite
  constructor
  · rintro ⟨comp, hcomp, hsched, rfl, rfl⟩
    rcases (hmerged hsched comp.entries).mp ⟨comp, hcomp, rfl⟩ with ⟨i, old, hold, hnot, htype, hentries⟩ | ⟨c, hc, hcontents⟩
    · have hid := (lookup_itipSnapshot hs (instanceOf C copy old) _).mpr ⟨i, old, hold, by rw [htype]; exact hsched, rfl, rfl⟩
      cases hlookup : itipSnapshots.components.lookup (instanceOf C copy old) with
      | some s =>
        have hreplaced := editedEntries_replaced hs hi h hid hlookup
        rw [compId_snapshotOf, comp_snapshotOf, hentries] at hreplaced
        rw [instanceOf_replaced hs hi hlookup hid hreplaced hzone, hlookup]
        exact carried_replaced hs hi hlookup hid hreplaced hzone (alike_of_lookup hi hlookup halike)
      | none =>
        have hkept := editedEntries_kept hs h hid hlookup old.entries
        rw [compId_snapshotOf, hentries] at hkept
        have hinstance : instanceOf C (itipMergeChanges C copy actions) comp = instanceOf C copy old := by
          rw [instanceOf_alike (of_timestamp hzone comp), instanceOf, hkept]
          rfl
        rw [hinstance, hlookup]
        have hmain : InstanceId.main ∉ itipSnapshots.components := by
          intro hmain
          refine hnot ((mem_removed hi h).mpr ⟨hmain, _, _, hid, AList.lookup_eq_none.mp hlookup, compId_snapshotOf⟩)
        dsimp only
        rw [if_neg hmain]
        exact ⟨old, mem_of_getElem? hold, by rw [htype]; exact hsched, rfl, (carried_timestamp hzone 0 0 hkept).symm⟩
    · obtain ⟨id, s, hlookup, hnone, rfl⟩ := (mem_added hi h).mp hc
      obtain ⟨hcarried, hinstance⟩ := @added_replaced C accountEmails _ itip comp 0 s itipSnapshots id hi hlookup
        (Prod.mk.inj hcontents).2.symm
        ((of_timestamp hzone s.comp).trans (alike_of_lookup hi hlookup halike).symm)
      rw [hinstance, hlookup]
      exact hcarried
  · cases hlookup : itipSnapshots.components.lookup id with
    | some s =>
      rintro rfl
      cases hid : snapshots.components.lookup id with
      | some snapshot =>
        obtain ⟨hcomp, -, hsched, -⟩ := snapshot_eq hs hid
        have hreplaced := editedEntries_replaced hs hi h hid hlookup
        have hstays : snapshot.compId ∉ removeComponentIds actions := by
          intro hrem
          obtain ⟨-, id', snapshot', hid', hnot, hi'⟩ := (mem_removed hi h).mp hrem
          rw [id_eq_of_compId hs hid hid' hi'] at hnot
          exact hnot (AList.lookup_isSome.mp (Option.isSome_iff_exists.mpr ⟨s, hlookup⟩))
        obtain ⟨comp, hmem, hcontents⟩ := (hmerged hsched (replacedEntries snapshot s)).mpr
          (Or.inl ⟨snapshot.compId, snapshot.comp, hcomp, hstays, rfl, hreplaced⟩)
        obtain ⟨htype, hentries⟩ := Prod.mk.inj hcontents
        exact ⟨comp, hmem, by rw [htype]; exact hsched, instanceOf_replaced hs hi hlookup hid hentries hzone,
          carried_replaced hs hi hlookup hid hentries hzone (alike_of_lookup hi hlookup halike)⟩
      | none =>
        obtain ⟨-, -, hsched, -⟩ := snapshot_eq hi hlookup
        obtain ⟨comp, hmem, hcontents⟩ := (hmerged hsched (addedComponent s.comp).entries).mpr
          (Or.inr ⟨_, (mem_added hi h).mpr ⟨id, s, hlookup, hid, rfl⟩, rfl⟩)
        obtain ⟨htype, hentries⟩ := Prod.mk.inj hcontents
        obtain ⟨hcarried, hinstance⟩ := @added_replaced C accountEmails _ itip comp 0 s itipSnapshots id hi hlookup
          hentries ((of_timestamp hzone s.comp).trans (alike_of_lookup hi hlookup halike).symm)
        exact ⟨comp, hmem, by rw [htype]; exact hsched, hinstance, hcarried⟩
    | none =>
      dsimp only
      split_ifs with hmain
      · exact False.elim
      · rintro ⟨old, hmem, hsched, rfl, rfl⟩
        obtain ⟨i, hold⟩ := mem_iff_getElem?.mp hmem
        have hid := (lookup_itipSnapshot hs (instanceOf C copy old) _).mpr ⟨i, old, hold, hsched, rfl, rfl⟩
        have hkept := editedEntries_kept hs h hid hlookup old.entries
        rw [compId_snapshotOf] at hkept
        obtain ⟨comp, hcomp, hcontents⟩ := (hmerged hsched old.entries).mpr
          (Or.inl ⟨i, old, hold, fun hrem => hmain ((mem_removed hi h).mp hrem).1, rfl, hkept⟩)
        obtain ⟨htype, hentries⟩ := Prod.mk.inj hcontents
        refine ⟨comp, hcomp, by rw [htype]; exact hsched, ?_, carried_timestamp hzone 0 0 hentries⟩
        rw [instanceOf_alike (of_timestamp hzone comp), instanceOf, hentries]
        rfl

end

/-! ## Any sequence of requests -/

variable (C accountEmails)

/-- A message says something of an instance. -/
def Mentions (itip : ICalendar) (id : InstanceId) (s : ItipSnapshot) : Prop :=
  ∃ itipSnapshots, itipSnapshot C itip accountEmails false = .ok itipSnapshots ∧
    itipSnapshots.components.lookup id = some s

/-- For some instance that both have, the first message has a lower number. -/
def Older (itip' itip : ICalendar) : Prop :=
  ∃ id s' s, Mentions C accountEmails itip' id s' ∧ Mentions C accountEmails itip id s ∧
    s'.carried.sequence < s.carried.sequence

/-- The copy and the request can be read, are of one organizer, who is somewhere else, and the copy has no higher number
for an instance that both have. -/
def Acceptable (copy itip : ICalendar) : Prop :=
  ∃ snapshots itipSnapshots, itipSnapshot C copy accountEmails false = .ok snapshots ∧
    itipSnapshot C itip accountEmails false = .ok itipSnapshots ∧
    snapshots.organizer.email.email = itipSnapshots.organizer.email.email ∧ snapshots.organizer.email.isLocal = false ∧
    ∀ id snapshot s, snapshots.components.lookup id = some snapshot → itipSnapshots.components.lookup id = some s →
      snapshot.carried.sequence ≤ s.carried.sequence

/-- What a request makes of what is said. -/
def overwriteBy (said : InstanceId → Set Carried) (itip : ICalendar) : InstanceId → Set Carried :=
  match itipSnapshot C itip accountEmails false with
  | .ok itipSnapshots => overwrite itipSnapshots said
  | .error _ => said

/-- The requests that are applied, one after the other. -/
def appliedRequests (sender : String) : ICalendar → List ICalendar → List ICalendar
  | _, [] => []
  | copy, itip :: rest =>
    match itipApply C accountEmails copy itip sender with
    | .ok c => itip :: appliedRequests sender c rest
    | .error _ => appliedRequests sender copy rest

variable {C accountEmails}

/-- An action about the events of an object. -/
structure AboutEvents (C : Calcard) (ical : ICalendar) (a : MergeAction) : Prop where
  about : ∀ i, a.target = some i ∨ a = .removeComponent i →
    ∃ c, ical.components[i]? = some c ∧ C.isSchedulingObject c.componentType = true
  added : ∀ c, a = .addComponent c → C.isSchedulingObject c.componentType = true

/-- What the package does with the root and the time zones of an object. -/
structure RequestLaws (C : Calcard) : Prop where
  removes : RemovesComponents C
  root : ∀ ical ids, 0 ∉ ids → ical.components.head?.any (·.componentType = .vCalendar) = true →
    (C.removeComponentIds ical ids).components.head?.any (·.componentType = .vCalendar) = true
  /-- Time zones are looked up among the components that define them. -/
  zones : ∀ ical actions, (∀ a ∈ actions, AboutEvents C ical a) →
    C.timestamp (itipMergeChanges C ical actions) = C.timestamp ical

variable {copy : ICalendar} {sender : String}

theorem itipApply_eq_ok (hmethod : itipMethod itip = .ok .request) {c : ICalendar}
    (h : itipApply C accountEmails copy itip sender = .ok c) :
    ∃ snapshots itipSnapshots actions, itipSnapshot C copy accountEmails false = .ok snapshots ∧
      itipSnapshot C itip accountEmails false = .ok itipSnapshots ∧
      organizerActions C snapshots itip itipSnapshots sender .request = .ok actions ∧
      c = itipMergeChanges C copy actions ∧
      snapshots.organizer.email.email = itipSnapshots.organizer.email.email ∧ snapshots.organizer.email.isLocal = false := by
  obtain ⟨snapshots, hs, h⟩ := bind_eq_ok h
  obtain ⟨itipSnapshots, hi, h⟩ := bind_eq_ok h
  obtain ⟨result, hresult, h⟩ := bind_eq_ok h
  obtain rfl := Except.ok.inj h
  unfold itipProcessMessage at hresult
  by_cases hmismatch : snapshots.organizer.email.email ≠ itipSnapshots.organizer.email.email
  · rw [if_pos hmismatch] at hresult
    cases hresult
  rw [if_neg hmismatch] at hresult
  obtain ⟨method, hm, hresult⟩ := bind_eq_ok hresult
  obtain rfl := Except.ok.inj (hmethod.symm.trans hm)
  by_cases hlocal : snapshots.organizer.email.isLocal = true
  · split_ifs at hresult
  rw [if_neg hlocal] at hresult
  cases hactions : organizerActions C snapshots itip itipSnapshots sender .request with
  | error e =>
    rw [hactions] at hresult
    cases hresult
  | ok actions =>
    rw [hactions] at hresult
    obtain rfl := Except.ok.inj hresult
    refine ⟨snapshots, itipSnapshots, actions, hs, hi, hactions, ?_, not_not.mp hmismatch, Bool.eq_false_iff.mpr hlocal⟩
    by_cases hnil : actions = []
    · subst hnil
      rfl
    · rw [mergeResult, if_pos hnil]
      rfl

/-- **Which requests are accepted.** -/
theorem exists_itipApply (hmethod : itipMethod itip = .ok .request) :
    (∃ c, itipApply C accountEmails copy itip sender = .ok c) ↔ Acceptable C accountEmails copy itip := by
  constructor
  · rintro ⟨c, h⟩
    obtain ⟨snapshots, itipSnapshots, actions, hs, hi, hactions, -, horganizer, hlocal⟩ := itipApply_eq_ok hmethod h
    refine ⟨snapshots, itipSnapshots, hs, hi, horganizer, hlocal, fun id snapshot s hid hlookup => ?_⟩
    obtain ⟨l, hl, -⟩ := request_actions hactions
    rcases requestActions_eq_ok hi hlookup ((instanceActions_eq_ok hl).1 id s hlookup) with
      ⟨snapshot', hid', hle, -⟩ | ⟨hnone, -⟩
    · rwa [Option.some.inj (hid.symm.trans hid')]
    · rw [hid] at hnone
      cases hnone
  · rintro ⟨snapshots, itipSnapshots, hs, hi, horganizer, hlocal, hsequence⟩
    have hok : ∃ l, instanceActions C itipSnapshots.components (requestActions itip snapshots) = .ok l := by
      refine exists_instanceActions.mpr fun id s hlookup => ?_
      unfold requestActions
      split
      · rename_i snapshot hid
        rw [if_pos (show snapshot.sequence.getD 0 ≤ s.sequence.getD 0 from hsequence id snapshot s hid hlookup)]
        exact ⟨_, rfl⟩
      · exact ⟨_, rfl⟩
    obtain ⟨l, hl⟩ := hok
    have hactions : organizerActions C snapshots itip itipSnapshots sender .request =
        .ok (l ++ removedActions C snapshots itipSnapshots) := by
      unfold organizerActions
      rw [hl]
      rfl
    have hprocess : itipProcessMessage C copy snapshots itip itipSnapshots sender =
        .ok (mergeResult (l ++ removedActions C snapshots itipSnapshots)) := by
      unfold itipProcessMessage
      rw [if_neg (not_not_intro horganizer), hmethod]
      show (if snapshots.organizer.email.isLocal = true then _ else _) = _
      rw [hlocal, hactions]
      rfl
    refine ⟨mergedEvent C copy (.ok (mergeResult (l ++ removedActions C snapshots itipSnapshots))), ?_⟩
    unfold itipApply
    rw [hs, hi]
    show (itipProcessMessage C copy snapshots itip itipSnapshots sender >>= _) = _
    rw [hprocess]
    rfl

/-- The root and the time zones of the copy. -/
def Rooted (copy : ICalendar) : Prop := copy.components.head?.any (·.componentType = .vCalendar) = true

theorem root_foldl {components : List ICalendarComponent} {actions : List MergeAction}
    (h : components.head?.any (·.componentType = .vCalendar) = true) :
    (actions.foldl mergeAction components).head?.any (·.componentType = .vCalendar) = true := by
  induction actions generalizing components with
  | nil => exact h
  | cons a actions ih => exact ih (root_mergeAction h a)

/-- **One request**: what is said after it, with the root and the time zones as they were. -/
theorem itipApply_said (hlaw : RequestLaws C) (hmethod : itipMethod itip = .ok .request) (hroot : Rooted copy)
    (hzone : ZonesAlike C itip copy) {c : ICalendar} (h : itipApply C accountEmails copy itip sender = .ok c) :
    Rooted c ∧ C.timestamp c = C.timestamp copy ∧
      saidBy C accountEmails c = overwriteBy C accountEmails (saidBy C accountEmails copy) itip := by
  obtain ⟨snapshots, itipSnapshots, actions, hs, hi, hactions, rfl, -, -⟩ := itipApply_eq_ok hmethod h
  have habout : ∀ a ∈ actions, AboutEvents C copy a := by
    obtain ⟨l, hl, rfl⟩ := request_actions hactions
    intro a ha
    rcases mem_append.mp ha with ha | ha
    · obtain ⟨id, s, hlookup, ⟨snapshot, hid, htarget⟩ | ⟨-, rfl⟩⟩ := action_cases hi hl ha
      · obtain ⟨hcomp, -, hsched, -⟩ := snapshot_eq hs hid
        refine ⟨fun i h => ?_, fun c hc => ?_⟩
        · rcases h with h | rfl
          · rw [← Option.some.inj (htarget.symm.trans h)]
            exact ⟨_, hcomp, hsched⟩
          · cases htarget
        · subst hc
          cases htarget
      · obtain ⟨-, -, hsched, -⟩ := snapshot_eq hi hlookup
        refine ⟨fun i h => ?_, fun c hc => ?_⟩
        · rcases h with h | h <;> cases h
        · rw [← MergeAction.addComponent.inj hc]
          exact hsched
    · obtain ⟨-, id, snapshot, hid, -, rfl⟩ := mem_removedActions.1 ha
      obtain ⟨hcomp, -, hsched, -⟩ := snapshot_eq hs hid
      refine ⟨fun i h => ?_, fun c hc => ?_⟩
      · rcases h with h | h
        · cases h
        · rw [← MergeAction.removeComponent.inj h]
          exact ⟨_, hcomp, hsched⟩
      · cases hc
  have hzones := hlaw.zones copy actions habout
  refine ⟨?_, hzones, ?_⟩
  · have hmerged := @root_foldl _ actions hroot
    unfold Rooted itipMergeChanges
    split
    · refine hlaw.root _ _ (fun h0 => ?_) hmerged
      obtain ⟨c, hc, hsched⟩ := (habout _ (mem_removeComponentIds.1 h0)).about 0 (Or.inr rfl)
      unfold Rooted at hroot
      rw [head?_eq_getElem?, hc] at hroot
      rw [of_decide_eq_true hroot, C.not_vCalendar] at hsched
      cases hsched
    · exact hmerged
  · rw [saidBy_merged hs hi hactions hlaw.removes hroot hzones hzone, overwriteBy, hi]

theorem itipReceive_rooted (hlaw : RequestLaws C) (hmethod : itipMethod itip = .ok .request) (hroot : Rooted copy)
    (hzone : ZonesAlike C itip copy) :
    Rooted (itipReceive C accountEmails sender copy itip) ∧
      C.timestamp (itipReceive C accountEmails sender copy itip) = C.timestamp copy := by
  unfold itipReceive
  cases h : itipApply C accountEmails copy itip sender with
  | error e => exact ⟨hroot, rfl⟩
  | ok c =>
    obtain ⟨hc, hzones, -⟩ := itipApply_said hlaw hmethod hroot hzone h
    exact ⟨hc, hzones⟩

section

variable (hlaw : RequestLaws C) {requests : List ICalendar}
  (hmethods : ∀ itip ∈ requests, itipMethod itip = .ok .request) (hroot : Rooted copy)
  (hzones : ∀ itip ∈ requests, ZonesAlike C itip copy)
include hlaw hmethods hroot hzones

/-- **Any sequence**: what is said at the end is what the applied requests make of it. -/
theorem saidBy_foldl :
    saidBy C accountEmails (requests.foldl (itipReceive C accountEmails sender) copy) =
      (appliedRequests C accountEmails sender copy requests).foldl (overwriteBy C accountEmails)
        (saidBy C accountEmails copy) := by
  induction requests generalizing copy with
  | nil => rfl
  | cons itip rest ih =>
    have hmethod := hmethods itip mem_cons_self
    have hzone := hzones itip mem_cons_self
    obtain ⟨hroot', hzone'⟩ := @itipReceive_rooted C accountEmails itip copy sender hlaw hmethod hroot hzone
    rw [foldl_cons, ih (fun m hm => hmethods m (mem_cons_of_mem _ hm)) hroot'
      fun m hm => (hzones m (mem_cons_of_mem _ hm)).congr hzone']
    unfold itipReceive
    rw [appliedRequests]
    cases h : itipApply C accountEmails copy itip sender with
    | error e => rfl
    | ok c =>
      obtain ⟨-, -, hsaid⟩ := itipApply_said hlaw hmethod hroot hzone h
      rw [foldl_cons, hsaid]

theorem rooted_foldl :
    Rooted (requests.foldl (itipReceive C accountEmails sender) copy) ∧
      C.timestamp (requests.foldl (itipReceive C accountEmails sender) copy) = C.timestamp copy := by
  induction requests generalizing copy with
  | nil => exact ⟨hroot, rfl⟩
  | cons itip rest ih =>
    obtain ⟨hroot', hzone'⟩ := @itipReceive_rooted C accountEmails itip copy sender hlaw
      (hmethods itip mem_cons_self) hroot (hzones itip mem_cons_self)
    obtain ⟨hroot'', hzone''⟩ := ih (fun m hm => hmethods m (mem_cons_of_mem _ hm)) hroot'
      fun m hm => (hzones m (mem_cons_of_mem _ hm)).congr hzone'
    exact ⟨hroot'', hzone''.trans hzone'⟩

end

/-! ## Older requests and repetitions -/

theorem itipReceive_of_older (hmethod : itipMethod itip = .ok .request) {c : Carried}
    (hs : Mentions C accountEmails itip id s) (hc : c ∈ saidBy C accountEmails copy id)
    (hlt : s.carried.sequence < c.sequence) : itipReceive C accountEmails sender copy itip = copy := by
  unfold itipReceive
  cases h : itipApply C accountEmails copy itip sender with
  | error e => rfl
  | ok c' =>
    obtain ⟨snapshots, itipSnapshots, hsnap, hi, -, -, hsequence⟩ := (exists_itipApply hmethod).mp ⟨c', h⟩
    obtain ⟨itipSnapshots', hi', hlookup⟩ := hs
    obtain rfl := Except.ok.inj (hi.symm.trans hi')
    obtain ⟨snapshot, hid, rfl⟩ := Option.map_eq_some_iff.mp ((saidBy_itipSnapshot hsnap id c).mp hc)
    exact absurd (hsequence id snapshot s hid hlookup) (not_le.mpr hlt)

theorem overwrite_overwrite (m : ItipSnapshots) (said : InstanceId → Set Carried) :
    overwrite m (overwrite m said) = overwrite m said := by
  ext1 id
  unfold overwrite
  cases m.components.lookup id with
  | some s => rfl
  | none =>
    split_ifs <;> rfl

theorem overwriteBy_twice (said : InstanceId → Set Carried) (itip : ICalendar) :
    overwriteBy C accountEmails (overwriteBy C accountEmails said itip) itip = overwriteBy C accountEmails said itip := by
  unfold overwriteBy
  cases itipSnapshot C itip accountEmails false with
  | error e => rfl
  | ok m => exact overwrite_overwrite m said

theorem itipReceive_said (hlaw : RequestLaws C) (hmethod : itipMethod itip = .ok .request) (hroot : Rooted copy)
    (hzone : ZonesAlike C itip copy) :
    (∃ c, itipApply C accountEmails copy itip sender = .ok c) ∧
      saidBy C accountEmails (itipReceive C accountEmails sender copy itip) =
        overwriteBy C accountEmails (saidBy C accountEmails copy) itip ∨
    itipReceive C accountEmails sender copy itip = copy := by
  cases h : itipApply C accountEmails copy itip sender with
  | error e =>
    refine Or.inr ?_
    unfold itipReceive
    rw [h]
  | ok c =>
    refine Or.inl ⟨⟨c, rfl⟩, ?_⟩
    unfold itipReceive
    rw [h]
    exact (itipApply_said hlaw hmethod hroot hzone h).2.2

theorem itipReceive_twice (hlaw : RequestLaws C) (hmethod : itipMethod itip = .ok .request) (hroot : Rooted copy)
    (hzone : ZonesAlike C itip copy) :
    saidBy C accountEmails (itipReceive C accountEmails sender (itipReceive C accountEmails sender copy itip) itip) =
      saidBy C accountEmails (itipReceive C accountEmails sender copy itip) := by
  obtain ⟨hroot', hzone'⟩ := @itipReceive_rooted C accountEmails itip copy sender hlaw hmethod hroot hzone
  rcases @itipReceive_said C accountEmails itip copy sender hlaw hmethod hroot hzone with ⟨-, hsaid⟩ | hsame
  · rcases @itipReceive_said C accountEmails itip (itipReceive C accountEmails sender copy itip) sender hlaw hmethod hroot'
      (hzone.congr hzone') with ⟨-, hsaid'⟩ | hsame'
    · rw [hsaid', hsaid, overwriteBy_twice]
    · rw [hsame']
  · rw [hsame, hsame]

theorem overwriteBy_of_mentions (said : InstanceId → Set Carried) (h : Mentions C accountEmails itip id s) :
    overwriteBy C accountEmails said itip id = {s.carried} := by
  obtain ⟨itipSnapshots, hi, hlookup⟩ := h
  rw [overwriteBy, hi]
  dsimp only
  rw [overwrite, hlookup]

theorem saidBy_of_older (hlaw : RequestLaws C) {requests : List ICalendar} (hmethod : itipMethod itip = .ok .request)
    (hmethods : ∀ m ∈ requests, itipMethod m = .ok .request) (hroot : Rooted copy)
    (hzone : ZonesAlike C itip copy) (hzones : ∀ m ∈ requests, ZonesAlike C m copy)
    (holder : ∀ m ∈ requests, m = itip ∨ Older C accountEmails m itip)
    (hsaid : ∀ id s, Mentions C accountEmails itip id s → saidBy C accountEmails copy id = {s.carried}) :
    ∀ id s, Mentions C accountEmails itip id s →
      saidBy C accountEmails (requests.foldl (itipReceive C accountEmails sender) copy) id = {s.carried} := by
  induction requests generalizing copy with
  | nil => exact hsaid
  | cons m rest ih =>
    obtain ⟨hroot', hzone'⟩ := @itipReceive_rooted C accountEmails m copy sender hlaw (hmethods m mem_cons_self) hroot
      (hzones m mem_cons_self)
    refine ih (fun m' hm => hmethods m' (mem_cons_of_mem _ hm)) hroot' (hzone.congr hzone')
      (fun m' hm => (hzones m' (mem_cons_of_mem _ hm)).congr hzone')
      (fun m' hm => holder m' (mem_cons_of_mem _ hm)) fun id s hmentions => ?_
    rcases holder m mem_cons_self with rfl | ⟨id', s₁, s₂, hs₁, hs₂, hlt⟩
    · rcases @itipReceive_said C accountEmails m copy sender hlaw hmethod hroot hzone with ⟨-, hsaid'⟩ | hsame
      · rw [hsaid']
        exact overwriteBy_of_mentions _ hmentions
      · rw [hsame]
        exact hsaid id s hmentions
    · have hmem : s₂.carried ∈ saidBy C accountEmails copy id' := by
        rw [hsaid id' s₂ hs₂]
        exact Set.mem_singleton _
      rw [itipReceive_of_older (hmethods m mem_cons_self) hs₁ hmem hlt]
      exact hsaid id s hmentions

/-- **Any sequence of requests, with any repetitions.** What the copy carries at the end is what the requests that are
applied make of it, each overwriting the instances it has; a request is applied when the copy has no higher number for an
instance that both have, and the same request again changes nothing. A request that is applied has the last word while
only itself and older ones follow. -/
theorem requests_replayed {C : Calcard} (hlaw : RequestLaws C) (accountEmails : List String) (sender : String)
    {copy : ICalendar} {requests : List ICalendar} (hroot : Rooted copy)
    (hmethods : ∀ m ∈ requests, itipMethod m = .ok .request) (hzones : ∀ m ∈ requests, ZonesAlike C m copy) :
    saidBy C accountEmails (requests.foldl (itipReceive C accountEmails sender) copy) =
      (appliedRequests C accountEmails sender copy requests).foldl (overwriteBy C accountEmails)
        (saidBy C accountEmails copy) ∧
    ∀ pre m post, requests = pre ++ m :: post →
      let before := pre.foldl (itipReceive C accountEmails sender) copy
      let after := itipReceive C accountEmails sender before m
      ((∃ c, itipApply C accountEmails before m sender = .ok c) ↔ Acceptable C accountEmails before m) ∧
      (∀ id s, Mentions C accountEmails m id s → ∀ c ∈ saidBy C accountEmails before id,
        s.carried.sequence < c.sequence → after = before) ∧
      saidBy C accountEmails (itipReceive C accountEmails sender after m) = saidBy C accountEmails after ∧
      (Acceptable C accountEmails before m → (∀ m' ∈ post, m' = m ∨ Older C accountEmails m' m) →
        ∀ id s, Mentions C accountEmails m id s →
          saidBy C accountEmails (requests.foldl (itipReceive C accountEmails sender) copy) id = {s.carried}) := by
  refine ⟨saidBy_foldl hlaw hmethods hroot hzones, ?_⟩
  rintro pre m post rfl before after
  have hpre : ∀ m' ∈ pre, m' ∈ pre ++ m :: post := fun m' hm => mem_append_left _ hm
  have hm : m ∈ pre ++ m :: post := mem_append_right _ mem_cons_self
  have hpost : ∀ m' ∈ post, m' ∈ pre ++ m :: post := fun m' hm =>
    mem_append_right _ (mem_cons_of_mem _ hm)
  have hmethod := hmethods m hm
  obtain ⟨hroot', hzone'⟩ := @rooted_foldl C accountEmails copy sender hlaw pre (fun m' h => hmethods m' (hpre m' h)) hroot
    fun m' h => hzones m' (hpre m' h)
  have hzone : ZonesAlike C m before := (hzones m hm).congr hzone'
  refine ⟨exists_itipApply hmethod, fun id s hs c hc hlt => itipReceive_of_older hmethod hs hc hlt,
    itipReceive_twice hlaw hmethod hroot' hzone, fun haccept holder => ?_⟩
  obtain ⟨c, hc⟩ := (@exists_itipApply C accountEmails m before sender hmethod).mpr haccept
  obtain ⟨hrooted, hsame, hsaid⟩ := itipApply_said hlaw hmethod hroot' hzone hc
  have hafter : after = c := by
    show itipReceive C accountEmails sender before m = c
    rw [itipReceive, hc]
  rw [foldl_append]
  show ∀ id s, _ → saidBy C accountEmails (post.foldl _ after) id = _
  rw [hafter]
  refine saidBy_of_older hlaw hmethod (fun m' h => hmethods m' (hpost m' h)) hrooted (hzone.congr hsame)
    (fun m' h => (hzones m' (hpost m' h)).congr (hsame.trans hzone')) holder fun id s hs => ?_
  rw [hsaid]
  exact overwriteBy_of_mentions _ hs

section

theorem requestLaws_january : RequestLaws januaryCalcard where
  removes := removes_january
  root := by
    rintro ⟨components⟩ ids h0 hroot
    cases components with
    | nil => cases hroot
    | cons c l =>
      have hfilter : ((c, 0) :: l.zipIdx 1).filter (fun c => decide (c.2 ∉ ids)) =
          (c, 0) :: (l.zipIdx 1).filter fun c => decide (c.2 ∉ ids) := filter_cons_of_pos (decide_eq_true h0)
      show (((((c, 0) :: l.zipIdx 1).filter fun c => decide (c.2 ∉ ids)).map _).head?.any _) = true
      rw [hfilter]
      exact hroot
  zones _ _ _ := rfl

/-- A request about the meeting, made at some time. -/
def requestOf (location stamp : String) : ICalendar :=
  ⟨[⟨.vCalendar, [⟨.method, [], [.method .request]⟩], [1]⟩,
    meetingOf [participating "a@x" [], ⟨.dtstamp, [], [.partialDateTime ⟨stamp⟩]⟩] location none]⟩

/-- The copy. -/
def firstRequest : ICalendar := requestOf "nowhere" "20250101T090000Z"

def olderRequest : ICalendar := requestOf "here" "20250103T090000Z"

def newerRequest : ICalendar := requestOf "there" "20250105T090000Z"

/-- When the organizer wrote what the message says of an instance. -/
def stampOf (C : Calcard) (itip : ICalendar) (s : ItipSnapshot) : ℤ :=
  (s.dtstamp.map (C.timestamp itip none)).getD 0

theorem zonesAlike_january (itip copy : ICalendar) : ZonesAlike januaryCalcard itip copy :=
  fun comp _ _ => @of_timestamp januaryCalcard itip copy rfl comp

/-- The request of the fifth of January arrives first, and then that of the third. -/
def overtaken : Except ItipError Bool := do
  let newer ← itipSnapshot januaryCalcard newerRequest ["a@x"] false
  let older ← itipSnapshot januaryCalcard olderRequest ["a@x"] false
  let last ← itipSnapshot januaryCalcard ([newerRequest, olderRequest].foldl
    (itipReceive januaryCalcard ["a@x"] "o@x") firstRequest) ["a@x"] false
  return (newer.components.lookup .main).any fun s => (older.components.lookup .main).any fun s' =>
    (last.components.lookup .main).any fun t => decide (s'.carried.sequence = s.carried.sequence ∧
      stampOf januaryCalcard olderRequest s' ≤ stampOf januaryCalcard newerRequest s ∧ t.carried ≠ s.carried)

theorem exists_overtaken : ∃ newer older last s s',
    itipSnapshot januaryCalcard newerRequest ["a@x"] false = .ok newer ∧
    itipSnapshot januaryCalcard olderRequest ["a@x"] false = .ok older ∧
    itipSnapshot januaryCalcard
      ([newerRequest, olderRequest].foldl (itipReceive januaryCalcard ["a@x"] "o@x") firstRequest) ["a@x"] false = .ok last ∧
    newer.components.lookup .main = some s ∧ older.components.lookup .main = some s' ∧
    s'.carried.sequence = s.carried.sequence ∧
    stampOf januaryCalcard olderRequest s' ≤ stampOf januaryCalcard newerRequest s ∧
    (last.components.lookup .main).map ItipSnapshot.carried ≠ some s.carried := by
  have h : overtaken = .ok true := by decide
  obtain ⟨newer, hn, h⟩ := bind_eq_ok h
  obtain ⟨older, ho, h⟩ := bind_eq_ok h
  obtain ⟨last, hl, h⟩ := bind_eq_ok h
  obtain ⟨s, hs, h⟩ := (Option.any_eq_true _ _).mp (Except.ok.inj h)
  obtain ⟨s', hs', h⟩ := (Option.any_eq_true _ _).mp h
  obtain ⟨t, ht, h⟩ := (Option.any_eq_true _ _).mp h
  obtain ⟨hsequence, hstamp, hne⟩ := of_decide_eq_true h
  refine ⟨newer, older, last, s, s', hn, ho, hl, hs, hs', hsequence, hstamp, ?_⟩
  rw [ht]
  exact fun heq => hne (Option.some.inj heq)

theorem replayed_overtaken : ∃ s, Mentions januaryCalcard ["a@x"] olderRequest .main s ∧
    saidBy januaryCalcard ["a@x"] ([newerRequest, olderRequest].foldl
      (itipReceive januaryCalcard ["a@x"] "o@x") firstRequest) .main = {s.carried} := by
  obtain ⟨-, older, -, -, s', -, ho, -, -, hs', -⟩ := exists_overtaken
  have hmentions : Mentions januaryCalcard ["a@x"] olderRequest .main s' := ⟨older, ho, hs'⟩
  refine ⟨s', hmentions, ?_⟩
  obtain ⟨haccept, -, -, hlast⟩ := (@requests_replayed _ requestLaws_january ["a@x"] "o@x" firstRequest
    [newerRequest, olderRequest] rfl (forall_mem_cons.mpr ⟨rfl, forall_mem_singleton.mpr rfl⟩)
    fun m _ => zonesAlike_january m _).2 [newerRequest] _ [] rfl
  refine hlast (haccept.mp ?_) nofun .main s' hmentions
  have hok : (itipApply januaryCalcard ["a@x"] (itipReceive januaryCalcard ["a@x"] "o@x" firstRequest newerRequest)
      olderRequest "o@x").toOption.isSome = true := by decide
  show ∃ c, itipApply januaryCalcard ["a@x"] (itipReceive januaryCalcard ["a@x"] "o@x" firstRequest newerRequest)
    olderRequest "o@x" = .ok c
  cases h : itipApply januaryCalcard ["a@x"] (itipReceive januaryCalcard ["a@x"] "o@x" firstRequest newerRequest)
      olderRequest "o@x" with
  | error e =>
    rw [h] at hok
    cases hok
  | ok c => exact ⟨c, rfl⟩

/-- Two requests of one number: the one that arrives last stays, whenever it was written. -/
theorem not_latest_request : ¬ ∀ (C : Calcard) (accountEmails : List String) (sender : String) (copy : ICalendar)
    (requests : List ICalendar), RequestLaws C → Rooted copy → (∀ m ∈ requests, itipMethod m = .ok .request) →
    (∀ m ∈ requests, ZonesAlike C m copy) → ∀ m ∈ requests, ∀ id s, Mentions C accountEmails m id s →
    (∀ m' ∈ requests, ∀ s', Mentions C accountEmails m' id s' → s'.carried.sequence < s.carried.sequence ∨
      s'.carried.sequence = s.carried.sequence ∧ stampOf C m' s' ≤ stampOf C m s) →
    saidBy C accountEmails (requests.foldl (itipReceive C accountEmails sender) copy) id = {s.carried} := by
  intro h
  obtain ⟨newer, older, last, s, s', hn, ho, hl, hs, hs', hsequence, hstamp, hne⟩ := exists_overtaken
  have hsaid := h januaryCalcard ["a@x"] "o@x" firstRequest [newerRequest, olderRequest] requestLaws_january rfl
    (forall_mem_cons.mpr ⟨rfl, forall_mem_singleton.mpr rfl⟩) (fun m _ => zonesAlike_january m _)
    newerRequest mem_cons_self .main s ⟨newer, hn, hs⟩ fun m' hm' t ht => ?_
  · have hmem := (Set.ext_iff.mp hsaid s.carried).mpr (Set.mem_singleton s.carried)
    exact hne ((saidBy_itipSnapshot hl .main s.carried).mp hmem)
  · obtain ⟨read, hread, ht⟩ := ht
    rcases mem_cons.mp hm' with rfl | hm'
    · obtain rfl := Except.ok.inj (hn.symm.trans hread)
      obtain rfl := Option.some.inj (hs.symm.trans ht)
      exact Or.inr ⟨rfl, le_rfl⟩
    · obtain rfl := mem_singleton.mp hm'
      obtain rfl := Except.ok.inj (ho.symm.trans hread)
      obtain rfl := Option.some.inj (hs'.symm.trans ht)
      exact Or.inr ⟨hsequence, hstamp⟩

end

end MailServer.Groupware
