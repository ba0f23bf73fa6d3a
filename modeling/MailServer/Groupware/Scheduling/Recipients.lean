import MailServer.Groupware.Scheduling.Organizer

/-!
# Who is told of a new version

* `Notified`: what participants are to be told, from the two versions of the event.
* `mem_changedInstances`: the organizer's search finds that.
-/

namespace MailServer.Groupware

open MailServer.Lib List AList

variable (C : Calcard)

/-- Somebody is to be told of an instance, with a method. -/
inductive Notified (old new : ItipSnapshots) : InstanceId → String → ICalendarMethod → Prop
  /-- The instance has changed. -/
  | changed {id : InstanceId} {o n : ItipSnapshot} {a : Attendee} : old.components.lookup id = some o →
      new.components.lookup id = some n → n.entries ≠ o.entries ∨ ¬ n.sameAttendees o → a ∈ n.attendees →
      a.sendUpdateMessages = true → Notified old new id a.email.email .request
  /-- The participant is no longer one of the instance. -/
  | removed {id : InstanceId} {o n : ItipSnapshot} {a : Attendee} : old.components.lookup id = some o →
      new.components.lookup id = some n → ¬ n.sameAttendees o → a ∈ o.attendees → a.sendUpdateMessages = true →
      (∀ b ∈ n.attendees, b.email.isLocal = false → b.email.email ≠ a.email.email) →
      Notified old new id a.email.email .cancel
  /-- The instance is new. -/
  | added {id : InstanceId} {n : ItipSnapshot} {a : Attendee} : old.components.lookup id = none →
      new.components.lookup id = some n → a ∈ n.attendees → a.sendInviteMessages = true →
      Notified old new id a.email.email (if C.status n.comp = some .cancelled then .cancel else .add)
  /-- The instance is gone. -/
  | dropped {id : InstanceId} {o : ItipSnapshot} {a : Attendee} : old.components.lookup id = some o →
      new.components.lookup id = none → a ∈ o.attendees → a.sendUpdateMessages = true →
      Notified old new id a.email.email .cancel

/-- An instance changed so that the sequence numbers go up. -/
def RaisedAt (old new : ItipSnapshots) (id : InstanceId) : Prop :=
  (id ∈ new.components ∧ id ∉ old.components) ∨ (id ∈ old.components ∧ id ∉ new.components) ∨
    ∃ o n, old.components.lookup id = some o ∧ new.components.lookup id = some n ∧
      ((∃ entry ∈ (n.entries \ o.entries) ∪ (o.entries \ n.entries), entry.name.raisesSequence = true) ∨
        ¬ n.sameAttendees o)

def SequenceRaised (old new : ItipSnapshots) : Prop := ∃ id, RaisedAt old new id

variable {C} {old new : ItipSnapshots} {s t : ChangedInstances} {e : InstanceId × ItipSnapshot}

theorem isLocal_of_sendUpdateMessages {a : Attendee} (h : a.sendUpdateMessages = true) : a.email.isLocal = false := by
  simp only [Attendee.sendUpdateMessages, Bool.and_eq_true, Bool.not_eq_true'] at h
  exact h.1.1.1

variable {email : String} {l : List (InstanceId × String × ICalendarMethod)}
  {c : InstanceId × String × ICalendarMethod}

theorem mem_removedAttendees {o n : ItipSnapshot} : email ∈ removedAttendees C o n ↔
    ∃ a ∈ o.attendees, a.sendUpdateMessages = true ∧ a.email.email = email ∧
      ∀ b ∈ n.attendees, b.email.isLocal = false → b.email.email ≠ email := by
  have hext {x : ItipSnapshot} {a : Attendee} :
      a ∈ x.externalAttendees ↔ a ∈ x.attendees ∧ a.email.isLocal = false := by
    rw [ItipSnapshot.externalAttendees, mem_filter, Bool.not_eq_true']
  rw [removedAttendees, Calcard.mem_iter, mem_filter, mem_dedup, mem_map]
  constructor
  · rintro ⟨⟨a, ha, rfl⟩, hnot⟩
    obtain ⟨ha, hsend⟩ := mem_filter.mp ha
    refine ⟨a, (hext.mp ha).1, hsend, rfl, fun b hb hlocal h => ?_⟩
    exact of_decide_eq_true hnot (mem_map.mpr ⟨b, hext.mpr ⟨hb, hlocal⟩, h⟩)
  · rintro ⟨a, ha, hsend, rfl, hnot⟩
    refine ⟨⟨a, mem_filter.mpr ⟨hext.mpr ⟨ha, isLocal_of_sendUpdateMessages hsend⟩, hsend⟩, rfl⟩, ?_⟩
    refine decide_eq_true fun hmem => ?_
    obtain ⟨b, hb, h⟩ := mem_map.mp hmem
    exact hnot b (hext.mp hb).1 (hext.mp hb).2 h

theorem changedInstance_spec (h : changedInstance C old s e = .ok t) (he : new.components.lookup e.1 = some e.2) :
    (∀ x, x ∈ t.instances ↔ x ∈ s.instances ∨ (x.1 = e.1 ∧ Notified C old new x.1 x.2.1 x.2.2)) ∧
      (t.incrementSequence = true ↔ s.incrementSequence = true ∨ RaisedAt old new e.1) := by
  obtain ⟨id, n⟩ := e
  dsimp only at he
  have hmem : id ∈ new.components := lookup_isSome.mp (by rw [he]; rfl)
  unfold changedInstance at h
  cases ho : old.components.lookup id with
  | none =>
    rw [ho] at h
    by_cases hmain : id = .main
    · rw [if_neg (not_not_intro hmain)] at h
      cases h
    rw [if_pos hmain] at h
    obtain rfl := Except.ok.inj h
    have hnot : id ∉ old.components := lookup_eq_none.mp ho
    refine ⟨fun x => ?_, ⟨fun _ => Or.inr (Or.inl ⟨hmem, hnot⟩), fun _ => rfl⟩⟩
    rw [mem_append, mem_map]
    refine or_congr_right ⟨?_, ?_⟩
    · rintro ⟨a, ha, rfl⟩
      obtain ⟨ha, hsend⟩ := mem_filter.mp ha
      exact ⟨rfl, .added ho he ha hsend⟩
    · obtain ⟨id', email, method⟩ := x
      rintro ⟨hid, hnotified⟩
      subst hid
      cases hnotified with
      | changed ho' => exact absurd (ho.symm.trans ho') (by simp)
      | removed ho' => exact absurd (ho.symm.trans ho') (by simp)
      | dropped ho' => exact absurd (ho.symm.trans ho') (by simp)
      | @added _ a _ hn' ha hsend =>
        obtain rfl := Option.some.inj (he.symm.trans hn')
        exact ⟨a, mem_filter.mpr ⟨ha, hsend⟩, rfl⟩
  | some o =>
    rw [ho] at h
    have hold : id ∈ old.components := lookup_isSome.mp (by rw [ho]; rfl)
    have hraised : RaisedAt old new id ↔
        ((∃ entry ∈ (n.entries \ o.entries) ∪ (o.entries \ n.entries), entry.name.raisesSequence = true) ∨
          ¬ n.sameAttendees o) := by
      constructor
      · rintro (⟨-, hno⟩ | ⟨-, hno⟩ | ⟨o', n', ho', hn', hr⟩)
        · exact absurd hold hno
        · exact absurd hmem hno
        · obtain rfl := Option.some.inj (ho.symm.trans ho')
          obtain rfl := Option.some.inj (he.symm.trans hn')
          exact hr
      · exact fun hr => Or.inr (Or.inr ⟨o, n, ho, he, hr⟩)
    have hnotified (x : InstanceId × String × ICalendarMethod) :
        (x.1 = id ∧ Notified C old new x.1 x.2.1 x.2.2) ↔
          (¬ n.sameAttendees o ∧ ∃ email ∈ removedAttendees C o n, (id, email, ICalendarMethod.cancel) = x) ∨
            ((n.entries ≠ o.entries ∨ ¬ n.sameAttendees o) ∧
              ∃ a ∈ n.attendees.filter Attendee.sendUpdateMessages, (id, a.email.email, ICalendarMethod.request) = x) := by
      constructor
      · obtain ⟨id', email, method⟩ := x
        rintro ⟨hid, hnotified⟩
        subst hid
        cases hnotified with
        | @changed o' n' a ho' hn' hdiff ha hsend =>
          obtain rfl := Option.some.inj (ho.symm.trans ho')
          obtain rfl := Option.some.inj (he.symm.trans hn')
          exact Or.inr ⟨hdiff, a, mem_filter.mpr ⟨ha, hsend⟩, rfl⟩
        | @removed o' n' a ho' hn' hdiff ha hsend hgone =>
          obtain rfl := Option.some.inj (ho.symm.trans ho')
          obtain rfl := Option.some.inj (he.symm.trans hn')
          exact Or.inl ⟨hdiff, _, mem_removedAttendees.2 ⟨a, ha, hsend, rfl, hgone⟩, rfl⟩
        | added ho' => exact absurd (ho'.symm.trans ho) (by simp)
        | dropped _ hn' => exact absurd (hn'.symm.trans he) (by simp)
      · rintro (⟨hdiff, email, hemail, rfl⟩ | ⟨hdiff, a, ha, rfl⟩)
        · obtain ⟨a, ha, hsend, rfl, hgone⟩ := mem_removedAttendees.1 hemail
          exact ⟨rfl, .removed ho he hdiff ha hsend hgone⟩
        · obtain ⟨ha, hsend⟩ := mem_filter.mp ha
          exact ⟨rfl, .changed ho he hdiff ha hsend⟩
    rw [hraised]
    simp only [hnotified]
    by_cases hentries : n.entries = o.entries <;> by_cases hattendees : n.sameAttendees o <;>
      simp only [ne_eq, hentries, hattendees] at h <;>
      obtain rfl := Except.ok.inj h
    · simp [hentries, hattendees]
    · simp [hattendees]
    · simp [hentries, hattendees]
    · simp [hattendees]

theorem removedInstance_spec (h : removedInstance new s e = .ok t) (he : old.components.lookup e.1 = some e.2) :
    (∀ x, x ∈ t.instances ↔ x ∈ s.instances ∨
      (x.1 = e.1 ∧ e.1 ∉ new.components ∧ Notified C old new x.1 x.2.1 x.2.2)) ∧
      (t.incrementSequence = true ↔ s.incrementSequence = true ∨ (e.1 ∉ new.components ∧ RaisedAt old new e.1)) := by
  obtain ⟨id, o⟩ := e
  have hold : id ∈ old.components := lookup_isSome.mp (by rw [he]; rfl)
  unfold removedInstance at h
  split_ifs at h with hnew hmain
  · obtain rfl := Except.ok.inj h
    simp [hnew]
  · obtain rfl := Except.ok.inj h
    refine ⟨fun x => ?_, ⟨fun _ => Or.inr ⟨hnew, Or.inr (Or.inl ⟨hold, hnew⟩)⟩, fun _ => rfl⟩⟩
    have hnone : new.components.lookup id = none := lookup_eq_none.mpr hnew
    rw [mem_append, mem_map]
    refine or_congr_right ⟨?_, ?_⟩
    · rintro ⟨a, ha, rfl⟩
      obtain ⟨ha, hsend⟩ := mem_filter.mp ha
      exact ⟨rfl, hnew, .dropped he hnone ha hsend⟩
    · obtain ⟨id', email, method⟩ := x
      rintro ⟨hid, -, hnotified⟩
      subst hid
      cases hnotified with
      | changed _ hn' => exact absurd (hnone.symm.trans hn') (by simp)
      | removed _ hn' => exact absurd (hnone.symm.trans hn') (by simp)
      | added ho' => exact absurd (he.symm.trans ho') (by simp)
      | @dropped o' a ho' _ ha hsend =>
        obtain rfl := Option.some.inj (he.symm.trans ho')
        exact ⟨a, mem_filter.mpr ⟨ha, hsend⟩, rfl⟩

/-- A loop over instances tells what its steps tell. -/
theorem foldlM_instances {step : ChangedInstances → InstanceId × ItipSnapshot → Except ItipError ChangedInstances}
    {P : InstanceId × ItipSnapshot → InstanceId × String × ICalendarMethod → Prop}
    {Q : InstanceId × ItipSnapshot → Prop} {l : List (InstanceId × ItipSnapshot)}
    (hstep : ∀ {s t}, ∀ e ∈ l, step s e = .ok t → (∀ x, x ∈ t.instances ↔ x ∈ s.instances ∨ P e x) ∧
      (t.incrementSequence = true ↔ s.incrementSequence = true ∨ Q e)) (h : l.foldlM step s = .ok t) :
    (∀ x, x ∈ t.instances ↔ x ∈ s.instances ∨ ∃ e ∈ l, P e x) ∧
      (t.incrementSequence = true ↔ s.incrementSequence = true ∨ ∃ e ∈ l, Q e) := by
  induction l generalizing s with
  | nil =>
    obtain rfl := Except.ok.inj h
    simp
  | cons e l ih =>
    obtain ⟨u, hu, ht⟩ := bind_eq_ok h
    obtain ⟨hmem, hraised⟩ := hstep e mem_cons_self hu
    obtain ⟨hmems, hraiseds⟩ := ih (fun e' he' => hstep e' (mem_cons_of_mem _ he')) ht
    constructor
    · intro x
      rw [hmems, hmem, exists_mem_cons_iff, or_assoc]
    · rw [hraiseds, hraised, exists_mem_cons_iff, or_assoc]

theorem Notified.mem {id : InstanceId} {method : ICalendarMethod}
    (h : Notified C old new id email method) :
    (∃ n, new.components.lookup id = some n) ∨ ((∃ o, old.components.lookup id = some o) ∧ id ∉ new.components) := by
  cases h with
  | changed _ hn => exact Or.inl ⟨_, hn⟩
  | removed _ hn => exact Or.inl ⟨_, hn⟩
  | added _ hn => exact Or.inl ⟨_, hn⟩
  | dropped ho hn => exact Or.inr ⟨⟨_, ho⟩, lookup_eq_none.mp hn⟩

theorem exists_lookup_of_mem {m : AList fun _ : InstanceId => ItipSnapshot} {id : InstanceId} (h : id ∈ m) :
    ∃ inst, m.lookup id = some inst := Option.isSome_iff_exists.mp (lookup_isSome.mpr h)

/-- **What is told** of a new version, and when its sequence numbers go up. -/
theorem changedInstances_spec {changed : ChangedInstances} (h : changedInstances C old new = .ok changed) :
    (∀ id email method, (id, email, method) ∈ changed.instances ↔ Notified C old new id email method) ∧
      (changed.incrementSequence = true ↔ SequenceRaised old new) := by
  obtain ⟨u, hu, ht⟩ := bind_eq_ok h
  obtain ⟨hnew, hraisedNew⟩ := foldlM_instances (fun e he hs => changedInstance_spec hs (Calcard.mem_entries.mp he)) hu
  obtain ⟨hold, hraisedOld⟩ := 
    foldlM_instances (fun e he hs => removedInstance_spec (C := C) hs (Calcard.mem_entries.mp he)) ht
  constructor
  · intro id email method
    rw [hold, hnew]
    constructor
    · rintro ((hnil | ⟨e, -, -, hnotified⟩) | ⟨e, -, -, -, hnotified⟩)
      · exact absurd hnil not_mem_nil
      · exact hnotified
      · exact hnotified
    · intro hnotified
      rcases hnotified.mem with ⟨n, hn⟩ | ⟨⟨o, ho⟩, hnot⟩
      · exact Or.inl (Or.inr ⟨(id, n), Calcard.mem_entries.mpr hn, rfl, hnotified⟩)
      · exact Or.inr ⟨(id, o), Calcard.mem_entries.mpr ho, rfl, hnot, hnotified⟩
  · rw [hraisedOld, hraisedNew]
    constructor
    · rintro ((hfalse | ⟨e, -, hraised⟩) | ⟨e, -, -, hraised⟩)
      · exact absurd hfalse (by decide)
      · exact ⟨e.1, hraised⟩
      · exact ⟨e.1, hraised⟩
    · rintro ⟨id, hraised⟩
      by_cases hmem : id ∈ new.components
      · obtain ⟨n, hn⟩ := exists_lookup_of_mem hmem
        exact Or.inl (Or.inr ⟨(id, n), Calcard.mem_entries.mpr hn, hraised⟩)
      · have hold : id ∈ old.components := by
          rcases hraised with ⟨hnew, -⟩ | ⟨hold, -⟩ | ⟨o, n, ho, -⟩
          · exact absurd hnew hmem
          · exact hold
          · exact lookup_isSome.mp (by rw [ho]; rfl)
        obtain ⟨o, ho⟩ := exists_lookup_of_mem hold
        exact Or.inr ⟨(id, o), Calcard.mem_entries.mpr ho, hmem, hraised⟩

/-! ## Full and partial updates -/

/-- Somebody is told of the main instance, or in two ways. -/
def FullUpdate (l : List (InstanceId × String × ICalendarMethod)) (email : String) : Prop :=
  (InstanceId.main, email, ICalendarMethod.request) ∈ l ∨
    ∃ c ∈ l, ∃ c' ∈ l, c.2.1 = email ∧ c'.2.1 = email ∧ c.2.2 ≠ c'.2.2

theorem fullUpdate_concat : FullUpdate (l ++ [c]) email ↔ FullUpdate l email ∨
      (c.2.1 = email ∧ ((c.1 = .main ∧ c.2.2 = .request) ∨ ∃ c' ∈ l, c'.2.1 = email ∧ c'.2.2 ≠ c.2.2)) := by
  constructor
  · rintro (hmain | ⟨c₁, h₁, c₂, h₂, hto₁, hto₂, hne⟩)
    · rcases mem_append.mp hmain with h | h
      · exact Or.inl (Or.inl h)
      · obtain rfl := mem_singleton.mp h
        exact Or.inr ⟨rfl, Or.inl ⟨rfl, rfl⟩⟩
    · rcases mem_append.mp h₁ with g₁ | g₁ <;> rcases mem_append.mp h₂ with g₂ | g₂
      · exact Or.inl (Or.inr ⟨c₁, g₁, c₂, g₂, hto₁, hto₂, hne⟩)
      · rw [mem_singleton.mp g₂] at hto₂ hne
        exact Or.inr ⟨hto₂, Or.inr ⟨c₁, g₁, hto₁, hne⟩⟩
      · rw [mem_singleton.mp g₁] at hto₁ hne
        exact Or.inr ⟨hto₁, Or.inr ⟨c₂, g₂, hto₂, hne.symm⟩⟩
      · rw [mem_singleton.mp g₁, mem_singleton.mp g₂] at hne
        exact absurd rfl hne
  · rintro ((hmain | ⟨c₁, h₁, c₂, h₂, h⟩) | ⟨hto, ⟨hid, hmethod⟩ | ⟨c', h', hto', hne⟩⟩)
    · exact Or.inl (mem_append_left _ hmain)
    · exact Or.inr ⟨c₁, mem_append_left _ h₁, c₂, mem_append_left _ h₂, h⟩
    · obtain ⟨id, email', method⟩ := c
      subst hid hmethod hto
      exact Or.inl (mem_append_right _ mem_cons_self)
    · exact Or.inr ⟨c', mem_append_left _ h', c, mem_append_right _ mem_cons_self, hto', hto, hne⟩

/-- The updates to be sent are sorted as the notices ask. -/
structure Sorted (l : List (InstanceId × String × ICalendarMethod)) (s : SendUpdates) : Prop where
  full : ∀ email, email ∈ s.sendFullUpdate ↔ FullUpdate l email
  erased : ∀ email, FullUpdate l email → s.sendPartialUpdate.lookup email = none
  absent : ∀ email, (∀ c ∈ l, c.2.1 ≠ email) → s.sendPartialUpdate.lookup email = none
  single : ∀ c ∈ l, ¬ FullUpdate l c.2.1 → ∃ ids, s.sendPartialUpdate.lookup c.2.1 = some (singleton c.2.2 ids) ∧
    ∀ id, id ∈ ids ↔ (id, c.2.1, c.2.2) ∈ l

theorem sorted_nil : Sorted [] ⟨∅, ∅⟩ where
  full email := by simp [FullUpdate]
  erased _ _ := rfl
  absent _ _ := rfl
  single _ hc := absurd hc not_mem_nil

theorem sendUpdate_other {s : SendUpdates}
    (h : c.2.1 ≠ email) : (email ∈ (sendUpdate s c).sendFullUpdate ↔ email ∈ s.sendFullUpdate) ∧
      (sendUpdate s c).sendPartialUpdate.lookup email = s.sendPartialUpdate.lookup email := by
  unfold sendUpdate
  split_ifs
  · exact ⟨by simp [Ne.symm h], lookup_erase_ne (Ne.symm h)⟩
  · exact ⟨Iff.rfl, rfl⟩
  · split
    · split
      · exact ⟨Iff.rfl, lookup_insert_ne (Ne.symm h)⟩
      · split_ifs
        · exact ⟨Iff.rfl, lookup_insert_ne (Ne.symm h)⟩
        · exact ⟨by simp [Ne.symm h], lookup_erase_ne (Ne.symm h)⟩
    · exact ⟨Iff.rfl, lookup_insert_ne (Ne.symm h)⟩

theorem Sorted.self {s : SendUpdates} (h : Sorted l s) :
    (c.2.1 ∈ (sendUpdate s c).sendFullUpdate ↔ FullUpdate (l ++ [c]) c.2.1) ∧
      (FullUpdate (l ++ [c]) c.2.1 → (sendUpdate s c).sendPartialUpdate.lookup c.2.1 = none) ∧
      (¬ FullUpdate (l ++ [c]) c.2.1 → (∀ c' ∈ l, c'.2.1 = c.2.1 → c'.2.2 = c.2.2) ∧
        ∃ ids, (sendUpdate s c).sendPartialUpdate.lookup c.2.1 = some (AList.singleton c.2.2 ids) ∧
          ∀ id, id ∈ ids ↔ (id, c.2.1, c.2.2) ∈ l ++ [c]) := by
  have hids (ids : List InstanceId) (hl : ∀ id, id ∈ ids ↔ (id, c.2.1, c.2.2) ∈ l) (id : InstanceId) :
      id ∈ ids ++ [c.1] ↔ (id, c.2.1, c.2.2) ∈ l ++ [c] := by
    rw [mem_append, mem_append, hl, mem_singleton, mem_singleton]
    exact or_congr_right ⟨fun h => by rw [h], fun h => congrArg Prod.fst h⟩
  have hnew : FullUpdate (l ++ [c]) c.2.1 ↔ FullUpdate l c.2.1 ∨
      ((c.1 = .main ∧ c.2.2 = .request) ∨ ∃ c' ∈ l, c'.2.1 = c.2.1 ∧ c'.2.2 ≠ c.2.2) := by
    rw [fullUpdate_concat]
    simp only [true_and]
  unfold sendUpdate
  by_cases hmain : c.1 = .main ∧ c.2.2 = .request
  · have hfull : FullUpdate (l ++ [c]) c.2.1 := hnew.mpr (Or.inr (Or.inl hmain))
    rw [if_pos hmain]
    exact ⟨iff_of_true (Finset.mem_insert_self _ _) hfull, fun _ => AList.lookup_erase _ _, fun hno => absurd hfull hno⟩
  rw [if_neg hmain]
  by_cases hin : c.2.1 ∈ s.sendFullUpdate
  · have hfull : FullUpdate (l ++ [c]) c.2.1 := hnew.mpr (Or.inl ((h.full _).mp hin))
    rw [if_neg (not_not_intro hin)]
    exact ⟨iff_of_true hin hfull, fun _ => h.erased _ ((h.full _).mp hin), fun hno => absurd hfull hno⟩
  have hnot : ¬ FullUpdate l c.2.1 := mt (h.full _).mpr hin
  rw [if_pos hin]
  cases hlookup : s.sendPartialUpdate.lookup c.2.1 with
  | none =>
    have hnone : ∀ c' ∈ l, c'.2.1 ≠ c.2.1 := by
      intro c' hc' hto
      obtain ⟨ids, hsome, -⟩ := h.single c' hc' (hto ▸ hnot)
      rw [hto, hlookup] at hsome
      cases hsome
    have hpartial : ¬ FullUpdate (l ++ [c]) c.2.1 := by
      rw [hnew]
      rintro (hfull | hfull | ⟨c', hc', hto, -⟩)
      · exact hnot hfull
      · exact hmain hfull
      · exact hnone c' hc' hto
    refine ⟨iff_of_false hin hpartial, fun hfull => absurd hfull hpartial, fun _ => ?_⟩
    refine ⟨fun c' hc' hto => absurd hto (hnone c' hc'), [c.1], AList.lookup_insert _, hids [] fun id => ?_⟩
    exact iff_of_false not_mem_nil fun hmem => hnone _ hmem rfl
  | some entry =>
    obtain ⟨c₀, hc₀, hto₀⟩ : ∃ c₀ ∈ l, c₀.2.1 = c.2.1 := by
      by_contra hno
      push Not at hno
      rw [h.absent c.2.1 hno] at hlookup
      cases hlookup
    obtain ⟨ids, hsome, hmem⟩ := h.single c₀ hc₀ (hto₀ ▸ hnot)
    rw [hto₀, hlookup] at hsome
    obtain rfl := Option.some.inj hsome
    have hsame : ∀ c' ∈ l, c'.2.1 = c.2.1 → c'.2.2 = c₀.2.2 := by
      intro c' hc' hto
      by_contra hne
      exact hnot (Or.inr ⟨c', hc', c₀, hc₀, hto, hto₀, hne⟩)
    dsimp only
    by_cases hmethod : c₀.2.2 = c.2.2
    · have hentry : (AList.singleton c₀.2.2 ids : AList fun _ : ICalendarMethod => List InstanceId).lookup c.2.2 =
          some ids := by
        rw [← hmethod]
        exact AList.mem_lookup_iff.mpr mem_cons_self
      have hpartial : ¬ FullUpdate (l ++ [c]) c.2.1 := by
        rw [hnew]
        rintro (hfull | hfull | ⟨c', hc', hto, hne⟩)
        · exact hnot hfull
        · exact hmain hfull
        · exact hne ((hsame c' hc' hto).trans hmethod)
      rw [hentry]
      refine ⟨iff_of_false hin hpartial, fun hfull => absurd hfull hpartial, fun _ => ?_⟩
      refine ⟨fun c' hc' hto => (hsame c' hc' hto).trans hmethod, ids ++ [c.1], ?_, hids ids fun id => ?_⟩
      · rw [AList.lookup_insert, hmethod, AList.insert_singleton_eq]
      · rw [hmem, hto₀, hmethod]
    · have hentry : (AList.singleton c₀.2.2 ids : AList fun _ : ICalendarMethod => List InstanceId).lookup c.2.2 =
          none := by
        rw [AList.lookup_eq_none, AList.mem_keys, AList.keys_singleton, mem_singleton]
        exact Ne.symm hmethod
      have hfull : FullUpdate (l ++ [c]) c.2.1 := hnew.mpr (Or.inr (Or.inr ⟨c₀, hc₀, hto₀, hmethod⟩))
      rw [hentry]
      exact ⟨iff_of_true (Finset.mem_insert_self _ _) hfull, fun _ => AList.lookup_erase _ _,
        fun hno => absurd hfull hno⟩

theorem Sorted.concat {s : SendUpdates} (h : Sorted l s) : Sorted (l ++ [c]) (sendUpdate s c) := by
  obtain ⟨hfull, herased, hsingle⟩ := h.self (c := c)
  have hother {email : String} (hne : c.2.1 ≠ email) : FullUpdate (l ++ [c]) email ↔ FullUpdate l email := by
    rw [fullUpdate_concat, or_iff_left]
    exact fun hto => hne hto.1
  refine ⟨fun email => ?_, fun email hf => ?_, fun email hno => ?_, fun c' hc' hnot => ?_⟩
  · by_cases hto : c.2.1 = email
    · exact hto ▸ hfull
    · rw [(sendUpdate_other hto).1, h.full, hother hto]
  · by_cases hto : c.2.1 = email
    · subst hto
      exact herased hf
    · rw [(sendUpdate_other hto).2]
      exact h.erased email ((hother hto).mp hf)
  · have hto := hno c (mem_append_right _ mem_cons_self)
    rw [(sendUpdate_other hto).2]
    exact h.absent email fun c' hc' => hno c' (mem_append_left _ hc')
  · by_cases hto : c.2.1 = c'.2.1
    · rw [← hto] at hnot ⊢
      obtain ⟨hsame, ids, hlookup, hids⟩ := hsingle hnot
      have hmethod : c'.2.2 = c.2.2 := by
        rcases mem_append.mp hc' with hc' | hc'
        · exact hsame c' hc' hto.symm
        · rw [mem_singleton.mp hc']
      rw [hmethod]
      exact ⟨ids, hlookup, hids⟩
    · have hc' : c' ∈ l := by
        rcases mem_append.mp hc' with hc' | hc'
        · exact hc'
        · exact absurd (congrArg (·.2.1) (mem_singleton.mp hc')).symm hto
      obtain ⟨ids, hlookup, hids⟩ := h.single c' hc' (mt (hother hto).mpr hnot)
      refine ⟨ids, (sendUpdate_other hto).2.trans hlookup, fun id => (hids id).trans ?_⟩
      rw [mem_append, or_iff_left]
      intro hmem
      exact hto (congrArg (·.2.1) (mem_singleton.mp hmem)).symm

theorem sorted_foldl (l : List (InstanceId × String × ICalendarMethod)) : Sorted l (l.foldl sendUpdate ⟨∅, ∅⟩) := by
  induction l using List.reverseRecOn with
  | nil => exact sorted_nil
  | append_singleton l c ih =>
    rw [foldl_append]
    exact ih.concat

end MailServer.Groupware
