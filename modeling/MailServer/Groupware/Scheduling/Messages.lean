import MailServer.Groupware.Scheduling.Recipients

/-!
# What the organizer's messages hold

* `Told`: the update that somebody gets, when it is not the full one.
* `partialMessage_spec`: the components of a message about single instances.
* `organizerRequestFull_spec`: the components and the recipients of the full update.
-/

namespace MailServer.Groupware

open MailServer.Lib List Option Calcard

variable {C : Calcard}

/-! ## Updates by what they are about -/

theorem lookup_foldl_pushUpdate (l : List ((ICalendarMethod × List InstanceId) × String)) (updates : Updates)
    (k : ICalendarMethod × List InstanceId) : (l.foldl pushUpdate updates).lookup k =
      if (l.filter (·.1 = k)).map Prod.snd = [] then updates.lookup k
      else some ((updates.lookup k).getD [] ++ (l.filter (·.1 = k)).map Prod.snd) := by
  induction l generalizing updates with
  | nil => rfl
  | cons e l ih =>
    rw [foldl_cons, ih]
    by_cases hk : e.1 = k
    · have hlookup : (pushUpdate updates e).lookup k = some ((updates.lookup k).getD [] ++ [e.2]) := by
        rw [pushUpdate, hk]
        exact AList.lookup_insert _
      rw [filter_cons_of_pos (by simpa using hk), hlookup, map_cons, if_neg (cons_ne_nil _ _)]
      split_ifs with hnil
      · rw [hnil]
      · rw [getD_some, append_assoc, singleton_append]
    · have hlookup : (pushUpdate updates e).lookup k = updates.lookup k := AList.lookup_insert_ne (Ne.symm hk)
      rw [filter_cons_of_neg (by simpa using hk), hlookup]

/-- The update about single instances that somebody gets. -/
def Told (C : Calcard) (s : SendUpdates) (email : String) (k : ICalendarMethod × List InstanceId) : Prop :=
  ∃ updates ids, s.sendPartialUpdate.lookup email = some updates ∧ updates.lookup k.1 = some ids ∧
    k.2 = C.sortInstances ids

variable {s : SendUpdates} {l : List (InstanceId × String × ICalendarMethod)} {email : String}
  {k : ICalendarMethod × List InstanceId} {emails : List String}

theorem mem_updates : (k, email) ∈ ((C.entries s.sendPartialUpdate).flatMap fun e => (C.entries e.2).map fun u =>
    ((u.1, C.sortInstances u.2), e.1)) ↔ Told C s email k := by
  rw [mem_flatMap]
  constructor
  · rintro ⟨e, he, hmem⟩
    obtain ⟨u, hu, heq⟩ := List.mem_map.mp hmem
    obtain ⟨rfl, rfl⟩ := Prod.mk.inj heq
    exact ⟨e.2, u.2, mem_entries.mp he, mem_entries.mp hu, rfl⟩
  · rintro ⟨updates, ids, hupdates, hids, hk⟩
    refine ⟨(email, updates), mem_entries.mpr hupdates, ?_⟩
    refine List.mem_map.mpr ⟨(k.1, ids), mem_entries.mpr hids, ?_⟩
    rw [← hk]

theorem mem_groupUpdates (h : (k, emails) ∈ C.entries (groupUpdates C s.sendPartialUpdate)) (email : String) :
    email ∈ emails ↔ Told C s email k := by
  rw [mem_entries, groupUpdates, lookup_foldl_pushUpdate] at h
  split_ifs at h
  · cases h
  · obtain rfl := some.inj h
    rw [← mem_updates, AList.lookup_empty, getD_none, nil_append, List.mem_map]
    constructor
    · rintro ⟨e, he, rfl⟩
      obtain ⟨he, hk⟩ := mem_filter.mp he
      rw [← of_decide_eq_true hk]
      exact he
    · intro hmem
      exact ⟨(k, email), mem_filter.mpr ⟨hmem, decide_eq_true rfl⟩, rfl⟩

theorem groupUpdates_ne_nil (h : (k, emails) ∈ C.entries (groupUpdates C s.sendPartialUpdate)) : emails ≠ [] := by
  rw [mem_entries, groupUpdates, lookup_foldl_pushUpdate] at h
  split_ifs at h with hnil
  · cases h
  · rw [← some.inj h]
    exact hnil

theorem exists_groupUpdates (h : Told C s email k) :
    ∃ emails, (k, emails) ∈ C.entries (groupUpdates C s.sendPartialUpdate) := by
  simp only [mem_entries, groupUpdates, lookup_foldl_pushUpdate]
  rw [if_neg]
  · exact ⟨_, rfl⟩
  · intro hnil
    have hmem := List.mem_map_of_mem (f := Prod.snd)
      (mem_filter_of_mem (p := fun e => decide (e.1 = k)) (mem_updates.2 h) (decide_eq_true rfl))
    rw [hnil] at hmem
    exact not_mem_nil hmem

theorem pairwise_entries {K V : Type} (m : AList fun _ : K => V) :
    (C.entries m).Pairwise fun e e' => e.1 ≠ e'.1 := by
  have hmap : (m.entries.map fun e => (e.1, e.2)).Pairwise fun e e' : K × V => e.1 ≠ e'.1 := by
    rw [pairwise_map]
    exact pairwise_map.mp m.nodupKeys
  exact hmap.perm (C.iter_perm _).symm fun h => h.symm

theorem Sorted.told_iff (h : Sorted l s) : Told C s email k ↔ ¬ FullUpdate l email ∧
    (∃ id, (id, email, k.1) ∈ l) ∧ ∃ ids, k.2 = C.sortInstances ids ∧
      s.sendPartialUpdate.lookup email = some (AList.singleton k.1 ids) ∧ ∀ id, id ∈ ids ↔ (id, email, k.1) ∈ l := by
  constructor
  · rintro ⟨updates, ids, hupdates, hids, hk⟩
    have hnot : ¬ FullUpdate l email := by
      intro hfull
      rw [h.erased email hfull] at hupdates
      cases hupdates
    obtain ⟨c, hc, rfl⟩ : ∃ c ∈ l, c.2.1 = email := by
      by_contra hno
      push Not at hno
      rw [h.absent email hno] at hupdates
      cases hupdates
    obtain ⟨ids', hlookup, hmem⟩ := h.single c hc hnot
    obtain rfl := some.inj (hupdates.symm.trans hlookup)
    have hin : Sigma.mk k.1 ids ∈ (AList.singleton c.2.2 ids' : AList fun _ : ICalendarMethod => List InstanceId).entries :=
      AList.mem_lookup_iff.mp hids
    obtain ⟨hmethod, hsame⟩ := Sigma.mk.inj (mem_singleton.mp hin)
    obtain rfl := eq_of_heq hsame
    rw [hmethod]
    exact ⟨hnot, ⟨c.1, hc⟩, ids, hk, hlookup, hmem⟩
  · rintro ⟨-, -, ids, hk, hlookup, -⟩
    exact ⟨_, ids, hlookup, AList.mem_lookup_iff.mpr mem_cons_self, hk⟩

theorem Sorted.exists_told (h : Sorted l s) {c : InstanceId × String × ICalendarMethod} (hc : c ∈ l)
    (hnot : ¬ FullUpdate l c.2.1) : ∃ ids, Told C s c.2.1 (c.2.2, ids) ∧ c.1 ∈ ids := by
  obtain ⟨ids, hlookup, hmem⟩ := h.single c hc hnot
  refine ⟨C.sortInstances ids, h.told_iff.2 ⟨hnot, ⟨c.1, hc⟩, ids, rfl, hlookup, hmem⟩, ?_⟩
  exact (C.mem_sortInstances _ _).mpr ((hmem c.1).mpr hc)

theorem Sorted.told_unique (h : Sorted l s) {k' : ICalendarMethod × List InstanceId} (hk : Told C s email k)
    (hk' : Told C s email k') : k = k' := by
  obtain ⟨-, -, ids, hids, hlookup, -⟩ := h.told_iff.1 hk
  obtain ⟨-, -, ids', hids', hlookup', -⟩ := h.told_iff.1 hk'
  have hentries := congrArg AList.entries (some.inj (hlookup.symm.trans hlookup'))
  obtain ⟨hmethod, hsame⟩ := Sigma.mk.inj (singleton_injective hentries)
  exact Prod.ext hmethod (by rw [hids, hids', eq_of_heq hsame])

/-! ## Messages about single instances -/

/-- What stands in the time zones of the object is nothing that is scheduled. -/
def PlainZones (C : Calcard) (ical : ICalendar) : Prop :=
  ∀ tz ∈ ical.components, tz.componentType = .vTimezone → ∀ i ∈ tz.componentIds, ∀ c : ICalendarComponent,
    ical.components[i]? = some c → C.isSchedulingObject c.componentType = false

theorem plainZones_of_none {ical : ICalendar} (h : ∀ c ∈ ical.components, c.componentType ≠ .vTimezone) :
    PlainZones C ical := fun tz htz htype => absurd htype (h tz htz)

theorem mem_itipAddTz {message ical : ICalendar} (hplain : PlainZones C ical) {c : ICalendarComponent}
    (hc : C.isSchedulingObject c.componentType = true) :
    c ∈ (itipAddTz C message ical).components ↔ c ∈ message.components := by
  unfold itipAddTz
  split_ifs
  · constructor
    · intro hmem
      rcases C.mem_copyTimezones message ical c hmem with h | h | h | ⟨tz, htz, htype, i, hi, hget⟩
      · exact h
      · rw [h, C.not_vCalendar] at hc
        cases hc
      · rw [h, C.not_vTimezone] at hc
        cases hc
      · rw [hplain tz htz htype i hi c hget] at hc
        cases hc
    · intro hmem
      refine C.copyTimezones_kept message ical c hmem fun h => ?_
      rw [h, C.not_vCalendar] at hc
      cases hc
  · exact Iff.rfl

/-- A component of a message about single instances. -/
def partialComponent (C : Calcard) (incrementSequence isCancel : Bool) (emails : List String) (version : Version)
    (comp : ItipSnapshot) : ICalendarComponent :=
  let sequence := if incrementSequence then comp.sequence.getD 0 + 1 else comp.sequence.getD 0
  if isCancel then buildCancelComponent comp.comp sequence C.now emails
  else itipExportComponent comp.comp version.itip.uid C.now sequence (.organizer .needsAction)

variable {new version version' : Version} {inc isCancel : Bool} {ids : List InstanceId}
  {components : List ICalendarComponent}

theorem instanceOf_partialComponent (ical : ICalendar) (comp : ItipSnapshot) :
    instanceOf C ical (partialComponent C inc isCancel emails version comp) = instanceOf C ical comp.comp := by
  cases isCancel
  · exact instanceOf_export
  · exact instanceOf_cancel

theorem componentType_partialComponent (comp : ItipSnapshot) :
    (partialComponent C inc isCancel emails version comp).componentType = comp.comp.componentType := by
  cases isCancel <;> rfl

theorem partialComponents_spec
    (h : partialComponents C new inc isCancel emails ids version = some (components, version')) :
    (version' = version ∨ version' = new) ∧ List.Forall₂ (fun id c => ∃ w inst, (w = version ∨ w = new) ∧
      w.itip.components.lookup id = some inst ∧ c = partialComponent C inc isCancel emails w inst) ids components := by
  induction ids generalizing version components with
  | nil =>
    obtain ⟨rfl, rfl⟩ := Prod.mk.inj (some.inj h)
    exact ⟨Or.inl rfl, .nil⟩
  | cons id ids ih =>
    obtain ⟨inst, hinst, h⟩ := bind_eq_some_iff.mp h
    obtain ⟨⟨rest, last⟩, hrest, h⟩ := bind_eq_some_iff.mp h
    obtain ⟨rfl, rfl⟩ := Prod.mk.inj (some.inj h)
    obtain ⟨hlast, hcomponents⟩ := ih hrest
    have hsel : (if id ∈ version.itip.components then version else new) = version ∨
        (if id ∈ version.itip.components then version else new) = new := by
      split_ifs
      · exact Or.inl rfl
      · exact Or.inr rfl
    set w := if id ∈ version.itip.components then version else new
    refine ⟨hlast.elim (fun h => h ▸ hsel) Or.inr, .cons ⟨w, inst, hsel, hinst, rfl⟩ (hcomponents.imp ?_)⟩
    rintro id' c ⟨w', inst', hw', hinst', rfl⟩
    exact ⟨w', inst', hw'.elim (fun h => h ▸ hsel) Or.inr, hinst', rfl⟩

theorem partialMessage_spec {old : Version} {message : ItipMessage} (hold : PlainZones C old.ical)
    (hnew : PlainZones C new.ical) (h : partialMessage C old new inc (k, emails) = some message) :
    message.to = emails ∧ message.summary.method = k.1 ∧ ∃ components,
      (∀ c, C.isSchedulingObject c.componentType = true → (c ∈ message.message.components ↔ c ∈ components)) ∧
      List.Forall₂ (fun id c => ∃ w inst, (w = (if k.1 = .cancel then old else new) ∨ w = new) ∧
        w.itip.components.lookup id = some inst ∧
        c = partialComponent C inc (decide (k.1 = .cancel)) emails w inst) k.2 components := by
  obtain ⟨⟨components, version⟩, hcomponents, h⟩ := bind_eq_some_iff.mp h
  obtain rfl := some.inj h
  obtain ⟨hversion, hall⟩ := partialComponents_spec hcomponents
  simp only [decide_eq_true_eq] at hversion hall
  have hplain : PlainZones C version.ical := by
    rcases hversion with rfl | rfl
    · split_ifs
      · exact hold
      · exact hnew
    · exact hnew
  refine ⟨rfl, ?_, components, fun c hc => ?_, hall⟩
  · by_cases hk : k.1 = .cancel
    · simp [hk, ItipSummary.method]
    · simp [hk, ItipSummary.method]
  · rw [mem_itipAddTz hplain hc, mem_cons, or_iff_right]
    rintro rfl
    exact absurd (C.not_vCalendar.symm.trans hc) (by decide)

/-! ## The full update -/

/-- What a component says, whatever stands in it. -/
def contents (c : ICalendarComponent) : ICalendarComponentType × List ICalendarEntry := (c.componentType, c.entries)

/-- A component of the full update. -/
def fullComponent (C : Calcard) (itip : ItipSnapshots) (inc : Bool) (inst : ItipSnapshot) : ICalendarComponent :=
  itipExportComponent inst.comp itip.uid C.now (if inc then inst.sequence.getD 0 + 1 else inst.sequence.getD 0)
    (.organizer .needsAction)

theorem contents_modify (components : List ICalendarComponent) (f : List ℕ → List ℕ) (j : ℕ) :
    (components.modify 0 fun root => { root with componentIds := f root.componentIds })[j]?.map contents =
      components[j]?.map contents := by
  rw [getElem?_modify]
  cases components[j]? with
  | none => rfl
  | some c => by_cases h : 0 = j <;> simp [h, contents]

/-- The components sent so far are those of the instances with participants. -/
structure FullRequest.Sends (C : Calcard) (ical : ICalendar) (itip : ItipSnapshots) (inc : Bool) (l : List ItipSnapshot)
    (s : FullRequest) : Prop where
  length : s.components.length = ical.components.length
  sent : ∀ (i : ℕ) p, s.components[i]?.map contents = some p → C.isSchedulingObject p.1 = true →
    ∃ inst ∈ l, inst.attendees ≠ [] ∧ p = contents (fullComponent C itip inc inst)
  sends : ∀ inst ∈ l, inst.attendees ≠ [] →
    s.components[inst.compId]?.map contents = some (contents (fullComponent C itip inc inst))
  recipients : ∀ r, r ∈ s.recipients ↔
    ∃ inst ∈ l, ∃ a ∈ inst.attendees, a.sendUpdateMessages = true ∧ a.email.email = r
  incremented : s.incremented = if inc then (l.filter fun inst => inst.attendees ≠ []).map ItipSnapshot.compId else []
  copied : ∀ i ∈ s.copyComponents, ∃ tz ∈ ical.components, tz.componentType = .vTimezone ∧ i ∈ tz.componentIds

variable {ical : ICalendar} {itip : ItipSnapshots} {insts : List ItipSnapshot} {r : FullRequest}

theorem FullRequest.Sends.concat (h : r.Sends C ical itip inc insts) {inst : ItipSnapshot}
    (hinst : ical.components[inst.compId]? = some inst.comp) (hnew : inst.compId ∉ insts.map ItipSnapshot.compId) :
    (requestComponent C ical itip inc false r inst).Sends C ical itip inc (insts ++ [inst]) := by
  unfold requestComponent
  by_cases hnil : inst.attendees = []
  · rw [if_pos hnil]
    refine ⟨h.length, fun i p hp hsched => ?_, fun inst' hmem hne => ?_, fun e => ?_, ?_, h.copied⟩
    · obtain ⟨inst', hmem, hrest⟩ := h.sent i p hp hsched
      exact ⟨inst', mem_append_left _ hmem, hrest⟩
    · rcases mem_append.mp hmem with hmem | hmem
      · exact h.sends inst' hmem hne
      · rw [mem_singleton.mp hmem] at hne
        exact absurd hnil hne
    · rw [h.recipients]
      constructor
      · rintro ⟨inst', hmem, ha⟩
        exact ⟨inst', mem_append_left _ hmem, ha⟩
      · rintro ⟨inst', hmem, a, ha, hsend⟩
        rcases mem_append.mp hmem with hmem | hmem
        · exact ⟨inst', hmem, a, ha, hsend⟩
        · rw [mem_singleton.mp hmem, hnil] at ha
          exact absurd ha not_mem_nil
    · rw [h.incremented, filter_append, filter_cons_of_neg (by simp [hnil]), filter_nil, append_nil]
  · rw [if_neg hnil]
    have horig : (ical.components[inst.compId]?).getD ⟨.vCalendar, [], []⟩ = inst.comp := by rw [hinst]; rfl
    have hlt : inst.compId < r.components.length := by
      rw [h.length]
      exact (List.getElem?_eq_some_iff.mp hinst).1
    dsimp only
    rw [horig, if_neg Bool.false_ne_true]
    have hget (j : ℕ) : (pushRoot (r.components.set inst.compId
        { fullComponent C itip inc inst with componentIds := [] }) inst.compId)[j]?.map contents =
        if inst.compId = j then some (contents (fullComponent C itip inc inst)) else r.components[j]?.map contents := by
      refine (contents_modify _ (fun ids => ids ++ [inst.compId]) j).trans ?_
      rw [getElem?_set]
      split_ifs with hj
      · rfl
      · rfl
    refine ⟨?_, fun i p hp hsched => ?_, fun inst' hmem hne => ?_, fun e => ?_, ?_, ?_⟩
    · simp [pushRoot, h.length]
    · have hp' := (hget i).symm.trans hp
      split_ifs at hp' with hi
      · exact ⟨inst, mem_append_right _ mem_cons_self, hnil, (some.inj hp').symm⟩
      · obtain ⟨inst', hmem, hrest⟩ := h.sent i p hp' hsched
        exact ⟨inst', mem_append_left _ hmem, hrest⟩
    · refine (hget inst'.compId).trans ?_
      rcases mem_append.mp hmem with hmem | hmem
      · rw [if_neg fun heq => hnew (List.mem_map.mpr ⟨inst', hmem, heq.symm⟩)]
        exact h.sends inst' hmem hne
      · rw [mem_singleton.mp hmem, if_pos rfl]
    · rw [mem_append, h.recipients, List.mem_map]
      constructor
      · rintro (⟨inst', hmem, ha⟩ | ⟨a, ha, rfl⟩)
        · exact ⟨inst', mem_append_left _ hmem, ha⟩
        · obtain ⟨ha, hsend⟩ := mem_filter.mp ha
          exact ⟨inst, mem_append_right _ mem_cons_self, a, ha, by simpa using hsend, rfl⟩
      · rintro ⟨inst', hmem, a, ha, hsend, rfl⟩
        rcases mem_append.mp hmem with hmem | hmem
        · exact Or.inl ⟨inst', hmem, a, ha, hsend, rfl⟩
        · rw [mem_singleton.mp hmem] at ha
          exact Or.inr ⟨a, mem_filter.mpr ⟨ha, by simpa using hsend⟩, rfl⟩
    · rw [h.incremented, filter_append, filter_cons_of_pos (by simpa using hnil)]
      split_ifs <;> simp
    · intro i hi
      rw [append_nil] at hi
      exact h.copied i hi

theorem FullRequest.Sends.foldl {l : List ItipSnapshot} (h : r.Sends C ical itip inc insts)
    (hl : ∀ inst ∈ l, ical.components[inst.compId]? = some inst.comp)
    (hnodup : ((insts ++ l).map ItipSnapshot.compId).Nodup) :
    (l.foldl (requestComponent C ical itip inc false) r).Sends C ical itip inc (insts ++ l) := by
  induction l generalizing insts r with
  | nil =>
    rw [append_nil]
    exact h
  | cons inst l ih =>
    have hnew : inst.compId ∉ insts.map ItipSnapshot.compId := by
      rw [map_append] at hnodup
      exact fun hmem => (nodup_append.mp hnodup).2.2 _ hmem _ mem_cons_self rfl
    have hall := ih (h.concat (hl inst mem_cons_self) hnew) (fun i hi => hl i (mem_cons_of_mem _ hi))
      (by rwa [append_assoc])
    rwa [append_assoc] at hall

theorem sends_init : (FullRequest.mk ((List.replicate ical.components.length ⟨.vCalendar, [], []⟩).set 0
    (itipBuildEnvelope .request)) [] [] []).Sends C ical itip inc [] where
  length := by simp
  sent i p hp hsched := by
    rw [map_eq_some_iff] at hp
    obtain ⟨c, hc, rfl⟩ := hp
    have htype : c.componentType = .vCalendar := by
      rw [getElem?_set] at hc
      split_ifs at hc with hi
      · rw [← some.inj hc]
        rfl
      · rw [(mem_replicate.mp (mem_of_getElem? hc)).2]
    rw [contents, htype, C.not_vCalendar] at hsched
    cases hsched
  sends _ h := absurd h not_mem_nil
  recipients r := by simp
  incremented := by simp
  copied _ h := absurd h not_mem_nil

section

variable (h : r.Sends C ical itip inc insts) (hplain : PlainZones C ical)
  (hl : ∀ inst ∈ insts, ical.components[inst.compId]? = some inst.comp ∧ C.isSchedulingObject inst.comp.componentType = true)
include h hplain hl

theorem FullRequest.Sends.copy {comp : ICalendarComponent × ℕ}
    (hcomp : ical.components[comp.2]? = some comp.1) : (copyComponent r comp).Sends C ical itip inc insts := by
  have hset {components : List ICalendarComponent} (hsame : ∀ j : ℕ, components[j]?.map contents =
      r.components[j]?.map contents) (hnot : C.isSchedulingObject comp.1.componentType = false) :
      (∀ (i : ℕ) p, (components.set comp.2 comp.1)[i]?.map contents = some p → C.isSchedulingObject p.1 = true →
        ∃ inst ∈ insts, inst.attendees ≠ [] ∧ p = contents (fullComponent C itip inc inst)) ∧
      ∀ inst ∈ insts, inst.attendees ≠ [] →
        (components.set comp.2 comp.1)[inst.compId]?.map contents = some (contents (fullComponent C itip inc inst)) := by
    constructor
    · intro i p hp hsched
      rw [getElem?_set] at hp
      split_ifs at hp with hi hlt
      · rw [← some.inj hp] at hsched
        exact absurd (hnot.symm.trans hsched) (by decide)
      · cases hp
      · rw [hsame] at hp
        exact h.sent i p hp hsched
    · intro inst hinst hne
      have hplace : comp.2 ≠ inst.compId := by
        intro heq
        obtain ⟨hget, hsched⟩ := hl inst hinst
        rw [← heq, hcomp] at hget
        rw [← some.inj hget, hnot] at hsched
        cases hsched
      rw [getElem?_set_ne hplace, hsame]
      exact h.sends inst hinst hne
  unfold copyComponent
  split_ifs with htype hmem
  · have hnot : C.isSchedulingObject comp.1.componentType = false := by rw [htype, C.not_vTimezone]
    obtain ⟨hsent, hsends⟩ := hset (contents_modify r.components (fun ids => ids ++ [comp.2])) hnot
    refine ⟨by simp [pushRoot, h.length], hsent, hsends, h.recipients, h.incremented, fun i hi => ?_⟩
    rcases mem_append.mp hi with hi | hi
    · exact h.copied i hi
    · exact ⟨comp.1, mem_of_getElem? hcomp, htype, hi⟩
  · obtain ⟨tz, htz, htztype, hi⟩ := h.copied comp.2 hmem
    obtain ⟨hsent, hsends⟩ := hset (fun _ => rfl) (hplain tz htz htztype comp.2 hi comp.1 hcomp)
    exact ⟨by simp [h.length], hsent, hsends, h.recipients, h.incremented, h.copied⟩
  · exact h

theorem FullRequest.Sends.copies {l : List (ICalendarComponent × ℕ)}
    (hcomps : ∀ comp ∈ l, ical.components[comp.2]? = some comp.1) :
    (l.foldl copyComponent r).Sends C ical itip inc insts := by
  induction l generalizing r with
  | nil => exact h
  | cons comp l ih =>
    exact ih (h.copy hplain hl (hcomps comp mem_cons_self)) fun c hc => hcomps c (mem_cons_of_mem _ hc)

end

theorem entries_itipSnapshot {accountEmails : List String} {force : Bool}
    (h : itipSnapshot C ical accountEmails force = .ok itip) :
    (∀ inst ∈ (C.entries itip.components).map Prod.snd, ical.components[inst.compId]? = some inst.comp ∧
      C.isSchedulingObject inst.comp.componentType = true) ∧
      (((C.entries itip.components).map Prod.snd).map ItipSnapshot.compId).Nodup := by
  have hread (e : InstanceId × ItipSnapshot) (he : e ∈ C.entries itip.components) :
      ical.components[e.2.compId]? = some e.2.comp ∧ C.isSchedulingObject e.2.comp.componentType = true ∧
        instanceOf C ical e.2.comp = e.1 := by
    obtain ⟨i, comp, hget, hsched, hid, hinst⟩ := (lookup_itipSnapshot h e.1 e.2).mp (mem_entries.mp he)
    rw [hinst, compId_snapshotOf, comp_snapshotOf]
    exact ⟨hget, hsched, hid⟩
  constructor
  · intro inst hinst
    obtain ⟨e, he, rfl⟩ := List.mem_map.mp hinst
    exact ⟨(hread e he).1, (hread e he).2.1⟩
  · rw [List.map_map, nodup_map_iff_inj_on]
    · intro e he e' he' heq
      obtain ⟨hget, -, hid⟩ := hread e he
      obtain ⟨hget', -, hid'⟩ := hread e' he'
      have hcompId : e.2.compId = e'.2.compId := heq
      rw [hcompId, hget'] at hget
      rw [some.inj hget, hid] at hid'
      have hlookup := mem_entries.mp he
      have hlookup' := mem_entries.mp he'
      rw [hid', hlookup'] at hlookup
      exact Prod.ext hid' (some.inj hlookup).symm
    · exact (pairwise_entries itip.components).imp fun hne heq => hne (congrArg Prod.fst heq)

theorem exists_mem_entries {P : ItipSnapshot → Prop} : (∃ inst ∈ (C.entries itip.components).map Prod.snd, P inst) ↔
    ∃ id inst, itip.components.lookup id = some inst ∧ P inst := by
  constructor
  · rintro ⟨inst, hinst, hP⟩
    obtain ⟨e, he, rfl⟩ := List.mem_map.mp hinst
    exact ⟨e.1, e.2, mem_entries.mp he, hP⟩
  · rintro ⟨id, inst, hlookup, hP⟩
    exact ⟨inst, List.mem_map.mpr ⟨(id, inst), mem_entries.mpr hlookup, rfl⟩, hP⟩

/-- **The full update** holds every instance with participants and goes to all of them that get updates. -/
theorem organizerRequestFull_spec {accountEmails : List String} {force : Bool}
    (h : itipSnapshot C ical accountEmails force = .ok itip) (hplain : PlainZones C ical) (inc : Bool) :
    (∀ messages, (organizerRequestFull C ical itip inc false).1 = .ok messages → ∃ m, messages = [m] ∧
      (∀ r, r ∈ m.to ↔ ∃ id inst, itip.components.lookup id = some inst ∧
        ∃ a ∈ inst.attendees, a.sendUpdateMessages = true ∧ a.email.email = r) ∧
      (∀ c ∈ m.message.components, C.isSchedulingObject c.componentType = true → ∃ id inst,
        itip.components.lookup id = some inst ∧ inst.attendees ≠ [] ∧
          contents c = contents (fullComponent C itip inc inst)) ∧
      ∀ id inst, itip.components.lookup id = some inst → inst.attendees ≠ [] →
        ∃ c ∈ m.message.components, contents c = contents (fullComponent C itip inc inst)) ∧
    ((∃ id inst, itip.components.lookup id = some inst ∧ ∃ a ∈ inst.attendees, a.sendUpdateMessages = true) →
      ∃ messages, (organizerRequestFull C ical itip inc false).1 = .ok messages) ∧
    (organizerRequestFull C ical itip inc false).2.Nodup ∧
    ∀ id inst, itip.components.lookup id = some inst →
      (inst.compId ∈ (organizerRequestFull C ical itip inc false).2 ↔ inc = true ∧ inst.attendees ≠ []) := by
  obtain ⟨hread, hnodup⟩ := entries_itipSnapshot h
  set insts := (C.entries itip.components).map Prod.snd
  set s := ical.components.zipIdx.foldl copyComponent (insts.foldl (requestComponent C ical itip inc false)
    ⟨(List.replicate ical.components.length ⟨.vCalendar, [], []⟩).set 0 (itipBuildEnvelope .request), [], [], []⟩) with hs
  have hsends : s.Sends C ical itip inc insts :=
    (sends_init.foldl (fun inst hinst => (hread inst hinst).1) hnodup).copies hplain hread fun comp hcomp =>
      mem_zipIdx_iff_getElem?.mp hcomp
  have hfull : organizerRequestFull C ical itip inc false =
      (if C.iter s.recipients.dedup ≠ [] then
          .ok [⟨itip.organizer.email.email, true, C.iter s.recipients.dedup, .invite, ⟨s.components.modify 0 fun root =>
            { root with componentIds := root.componentIds.insertionSort (· ≤ ·) }⟩⟩]
        else .error .nothingToSend, s.incremented) := rfl
  have hto (r : String) : r ∈ C.iter s.recipients.dedup ↔ ∃ id inst, itip.components.lookup id = some inst ∧
      ∃ a ∈ inst.attendees, a.sendUpdateMessages = true ∧ a.email.email = r := by
    rw [mem_iter, mem_dedup, hsends.recipients, exists_mem_entries]
  rw [hfull]
  refine ⟨fun messages hmessages => ?_, fun ⟨id, inst, hlookup, a, ha, hsend⟩ => ?_, ?_, fun id inst hlookup => ?_⟩
  · split_ifs at hmessages with hne
    refine ⟨_, (Except.ok.inj hmessages).symm, hto, fun c hc hsched => ?_, fun id inst hlookup hne => ?_⟩
    · obtain ⟨i, hi⟩ := mem_iff_getElem?.mp hc
      have hcontents : s.components[i]?.map contents = some (contents c) := by
        rw [← contents_modify s.components (fun ids => ids.insertionSort (· ≤ ·)) i]
        exact congrArg (Option.map contents) hi
      have hsent := hsends.sent i (contents c) hcontents hsched
      rw [exists_mem_entries] at hsent
      exact hsent
    · have hmem : inst ∈ insts := List.mem_map.mpr ⟨(id, inst), mem_entries.mpr hlookup, rfl⟩
      have hcontents := hsends.sends inst hmem hne
      rw [← contents_modify s.components (fun ids => ids.insertionSort (· ≤ ·)) inst.compId,
        map_eq_some_iff] at hcontents
      obtain ⟨c, hc, hsame⟩ := hcontents
      exact ⟨c, mem_of_getElem? hc, hsame⟩
  · have hne : C.iter s.recipients.dedup ≠ [] := by
      have hmem := (hto a.email.email).mpr ⟨id, inst, hlookup, a, ha, hsend, rfl⟩
      exact ne_nil_of_mem hmem
    rw [if_pos hne]
    exact ⟨_, rfl⟩
  · show s.incremented.Nodup
    rw [hsends.incremented]
    split_ifs
    · exact hnodup.sublist (filter_sublist.map _)
    · exact nodup_nil
  · have hmem : inst ∈ insts := List.mem_map.mpr ⟨(id, inst), mem_entries.mpr hlookup, rfl⟩
    show inst.compId ∈ s.incremented ↔ _
    rw [hsends.incremented]
    split_ifs with hinc
    · rw [List.mem_map]
      constructor
      · rintro ⟨inst', hinst', heq⟩
        obtain ⟨hinst', hne⟩ := mem_filter.mp hinst'
        obtain rfl := inj_on_of_nodup_map hnodup hinst' hmem heq
        exact ⟨hinc, of_decide_eq_true hne⟩
      · rintro ⟨-, hne⟩
        exact ⟨inst, mem_filter.mpr ⟨hmem, decide_eq_true hne⟩, rfl⟩
    · exact iff_of_false not_mem_nil fun hand => hinc hand.1

/-! ## All messages about a new version -/

/-- Somebody is told of the main instance, or in two ways. -/
def GetsFull (C : Calcard) (old new : ItipSnapshots) (email : String) : Prop :=
  Notified C old new .main email .request ∨ ∃ id id' method method', Notified C old new id email method ∧
    Notified C old new id' email method' ∧ method ≠ method'

section

variable {oldIcal newIcal : ICalendar} {oldItip newItip : ItipSnapshots} {accountEmails : List String}
  {messages : List ItipMessage} {sequences : List ℕ}

theorem Notified.participant {id : InstanceId} {email : String} {method : ICalendarMethod}
    (h : Notified C oldItip newItip id email method) (hmethod : method ≠ .cancel) :
    ∃ inst, newItip.components.lookup id = some inst ∧
      ∃ a ∈ inst.attendees, a.sendUpdateMessages = true ∧ a.email.email = email := by
  cases h with
  | @changed o n a _ hn _ ha hsend => exact ⟨n, hn, a, ha, hsend, rfl⟩
  | removed => exact absurd rfl hmethod
  | @added n a _ hn ha hsend => exact ⟨n, hn, a, ha, Attendee.update_of_invite hsend, rfl⟩
  | dropped => exact absurd rfl hmethod

theorem GetsFull.participant {email : String} (h : GetsFull C oldItip newItip email) :
    ∃ id inst, newItip.components.lookup id = some inst ∧
      ∃ a ∈ inst.attendees, a.sendUpdateMessages = true ∧ a.email.email = email := by
  rcases h with hmain | ⟨id, id', method, method', hnotified, hnotified', hne⟩
  · exact ⟨_, hmain.participant (by decide)⟩
  · by_cases hcancel : method = .cancel
    · exact ⟨id', hnotified'.participant fun h => hne (hcancel.trans h.symm)⟩
    · exact ⟨id, hnotified.participant hcancel⟩

theorem fullUpdate_iff {l : List (InstanceId × String × ICalendarMethod)}
    (hl : ∀ id email method, (id, email, method) ∈ l ↔ Notified C oldItip newItip id email method) {email : String} :
    FullUpdate l email ↔ GetsFull C oldItip newItip email := by
  constructor
  · rintro (hmain | ⟨⟨id, e, method⟩, hc, ⟨id', e', method'⟩, hc', rfl, rfl, hne⟩)
    · exact Or.inl ((hl _ _ _).mp hmain)
    · exact Or.inr ⟨id, id', method, method', (hl _ _ _).mp hc, (hl _ _ _).mp hc', hne⟩
  · rintro (hmain | ⟨id, id', method, method', hc, hc', hne⟩)
    · exact Or.inl ((hl _ _ _).mpr hmain)
    · exact Or.inr ⟨_, (hl _ _ _).mpr hc, _, (hl _ _ _).mpr hc', rfl, rfl, hne⟩

theorem forall₂_of_mapM {α β : Type} {f : α → Option β} {l : List α} {l' : List β} (h : l.mapM f = some l') :
    List.Forall₂ (fun a b => f a = some b) l l' := by
  induction l generalizing l' with
  | nil =>
    obtain rfl := some.inj h
    exact .nil
  | cons a l ih =>
    rw [mapM_cons] at h
    obtain ⟨b, hb, h⟩ := bind_eq_some_iff.mp h
    obtain ⟨rest, hrest, h⟩ := bind_eq_some_iff.mp h
    obtain rfl := some.inj h
    exact .cons hb (ih hrest)

theorem exists_of_forall₂ {α β : Type} {R : α → β → Prop} {l : List α} {l' : List β} (h : List.Forall₂ R l l') :
    (∀ b ∈ l', ∃ a ∈ l, R a b) ∧ ∀ a ∈ l, ∃ b ∈ l', R a b := by
  induction h with
  | nil => simp
  | cons hab _ ih =>
    simp only [mem_cons, forall_eq_or_imp, exists_eq_or_imp]
    exact ⟨⟨.inl hab, fun b hb => .inr (ih.1 b hb)⟩, .inl hab, fun a ha => .inr (ih.2 a ha)⟩

theorem pairwise_of_forall₂ {α β : Type} {R : α → β → Prop} {S : α → α → Prop} {T : β → β → Prop} {l : List α}
    {l' : List β} (h : List.Forall₂ R l l') (hl : l.Pairwise S)
    (hT : ∀ a ∈ l, ∀ a' ∈ l, ∀ b b', R a b → R a' b' → S a a' → T b b') : l'.Pairwise T := by
  induction h with
  | nil => exact .nil
  | @cons a b l l' hab hrest ih =>
    obtain ⟨ha, hl⟩ := pairwise_cons.mp hl
    refine pairwise_cons.mpr ⟨fun b' hb' => ?_, ih hl fun x hx y hy => hT x (mem_cons_of_mem _ hx) y
      (mem_cons_of_mem _ hy)⟩
    obtain ⟨a', ha', hab'⟩ := (exists_of_forall₂ hrest).1 b' hb'
    exact hT a mem_cons_self a' (mem_cons_of_mem _ ha') b b' hab hab' (ha a' ha')

/-- **The messages about a new version**: a full update if somebody gets one, and those about single instances. -/
theorem organizerHandleUpdate_spec (hnew : itipSnapshot C newIcal accountEmails false = .ok newItip)
    (hplain : PlainZones C newIcal)
    (h : organizerHandleUpdate C oldIcal newIcal oldItip newItip = some (.ok (messages, sequences))) :
    ∃ (inc : Bool) (l : List (InstanceId × String × ICalendarMethod)) (full partials : List ItipMessage),
      (inc = true ↔ SequenceRaised oldItip newItip) ∧
      (∀ id email method, (id, email, method) ∈ l ↔ Notified C oldItip newItip id email method) ∧
      messages = full.map (fun message => { message with summary := .update .request }) ++ partials ∧
      ((∀ email, ¬ GetsFull C oldItip newItip email) → full = [] ∧ sequences = []) ∧
      ((∃ email, GetsFull C oldItip newItip email) →
        (organizerRequestFull C newIcal newItip inc false).1 = .ok full ∧
          sequences = (organizerRequestFull C newIcal newItip inc false).2) ∧
      List.Forall₂ (fun e m => partialMessage C ⟨oldIcal, oldItip⟩ ⟨newIcal, newItip⟩ inc e = some m)
        (C.entries (groupUpdates C (l.foldl sendUpdate ⟨∅, ∅⟩).sendPartialUpdate)) partials := by
  unfold organizerHandleUpdate at h
  cases hchanged : changedInstances C oldItip newItip with
  | error e =>
    rw [hchanged] at h
    cases h
  | ok changed =>
    rw [hchanged] at h
    dsimp only at h
    obtain ⟨hnotified, hraised⟩ := changedInstances_spec hchanged
    have hfull (email : String) : FullUpdate changed.instances email ↔ GetsFull C oldItip newItip email :=
      fullUpdate_iff hnotified
    by_cases hnil : changed.instances = []
    · rw [if_pos hnil] at h
      cases h
    rw [if_neg hnil] at h
    set s := changed.instances.foldl sendUpdate ⟨∅, ∅⟩
    have hsorted : Sorted changed.instances s := sorted_foldl _
    have hempty : s.sendFullUpdate = ∅ ↔ ∀ email, ¬ GetsFull C oldItip newItip email := by
      rw [Finset.eq_empty_iff_forall_notMem]
      exact forall_congr' fun email => not_congr ((hsorted.full email).trans (hfull email))
    by_cases hnone : s.sendFullUpdate = ∅
    · rw [if_neg (not_not_intro hnone)] at h
      obtain ⟨partials, hpartials, h⟩ := map_eq_some_iff.mp h
      obtain ⟨rfl, rfl⟩ := Prod.mk.inj (Except.ok.inj h)
      refine ⟨_, _, [], partials, hraised, hnotified, rfl, fun _ => ⟨rfl, rfl⟩, fun ⟨email, he⟩ => ?_,
        forall₂_of_mapM hpartials⟩
      exact absurd he (hempty.mp hnone email)
    · rw [if_pos hnone] at h
      obtain ⟨email, he⟩ : ∃ email, GetsFull C oldItip newItip email := by
        by_contra hno
        exact hnone (hempty.mpr (not_exists.mp hno))
      obtain ⟨-, hsent, -⟩ := organizerRequestFull_spec hnew hplain changed.incrementSequence
      obtain ⟨id, inst, hlookup, a, ha, hsend, -⟩ := he.participant
      obtain ⟨full, hok⟩ := hsent ⟨id, inst, hlookup, a, ha, hsend⟩
      rw [hok] at h
      obtain ⟨partials, hpartials, h⟩ := map_eq_some_iff.mp h
      obtain ⟨rfl, rfl⟩ := Prod.mk.inj (Except.ok.inj h)
      refine ⟨_, _, full, partials, hraised, hnotified, rfl, fun hno => ?_, fun _ => ⟨hok, rfl⟩,
        forall₂_of_mapM hpartials⟩
      exact absurd he (hno email)

end

end MailServer.Groupware
