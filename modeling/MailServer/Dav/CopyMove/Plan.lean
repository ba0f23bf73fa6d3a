import MailServer.Dav.CopyMove.Calendar

/-!
# What is planned

* `EventPlan`, `ContainerPlan`: the documents that the paths of a request are of.
* `planned_of_plan`: what each action is planned for.
-/

namespace MailServer.Dav.CopyMove

open MailServer.Common MailServer.Utils MailServer.Groupware MailServer.Lib

variable {I : Type} (r : Request) (s : Accounts I)

/-- An event and its calendar, the calendar that it is for, and the event with the name there, if there is one. -/
structure EventPlan (documentId fromCalendarId : ℕ) (toDocumentId : Option ℕ) (toCalendarId : ℕ) (newName : String) : Prop where
  item : ∃ item, r.fromPath.item = some item ∧ ⟨item, fromCalendarId⟩ ∈ (s r.fromAccountId).names documentId
  source : (s r.fromAccountId).isNamed fromCalendarId r.fromPath.calendar = true
  toItem : r.toPath.item = some newName
  dest : (s r.toAccountId).isNamed toCalendarId r.toPath.calendar = true
  overwritten : ∀ id, toDocumentId = some id → ⟨newName, toCalendarId⟩ ∈ (s r.toAccountId).names id
  vacant : toDocumentId = none → ∀ id, ⟨newName, toCalendarId⟩ ∉ (s r.toAccountId).names id
  paths : r.fromAccountId = r.toAccountId → r.fromPath ≠ r.toPath

/-- A calendar and its events, and the calendar with the new name and the events there, if there is one. -/
structure ContainerPlan (documentId : ℕ) (fromChildrenIds : List ℕ) (toDocumentId : Option ℕ) (toChildrenIds : List ℕ)
    (newName : String) : Prop where
  fromItem : r.fromPath.item = none
  toItem : r.toPath.item = none
  source : (s r.fromAccountId).isNamed documentId r.fromPath.calendar = true
  name : newName = r.toPath.calendar
  children : fromChildrenIds = (s r.fromAccountId).subtree r.fromPath.calendar ∨ r.isMove = false ∧ fromChildrenIds = []
  overwritten : ∀ id, toDocumentId = some id → (s r.toAccountId).isNamed id r.toPath.calendar = true ∧
    toChildrenIds = (s r.toAccountId).subtree r.toPath.calendar
  vacant : toDocumentId = none → (∀ id, (s r.toAccountId).isNamed id r.toPath.calendar = false) ∧ toChildrenIds = []
  paths : r.fromAccountId = r.toAccountId → r.fromPath.calendar ≠ r.toPath.calendar

inductive Planned (documentId : ℕ) : Action → Prop where
  | copyContainer {fromChildrenIds : List ℕ} {toDocumentId : Option ℕ} {toChildrenIds : List ℕ} {newName : String}
      (h : ContainerPlan r s documentId fromChildrenIds toDocumentId toChildrenIds newName) :
      Planned documentId (.copyContainer fromChildrenIds toDocumentId toChildrenIds newName r.isMove)
  | renameContainer {newName : String} (hmove : r.isMove = true) (hsame : r.fromAccountId = r.toAccountId)
      (h : ContainerPlan r s documentId ((s r.fromAccountId).subtree r.fromPath.calendar) none [] newName) :
      Planned documentId (.renameContainer newName)
  | copyEvent {fromCalendarId : ℕ} {toDocumentId : Option ℕ} {toCalendarId : ℕ} {newName : String} (hcopy : r.isMove = false)
      (h : EventPlan r s documentId fromCalendarId toDocumentId toCalendarId newName) :
      Planned documentId (.copyEvent toDocumentId toCalendarId newName)
  | moveEvent {fromCalendarId : ℕ} {toDocumentId : Option ℕ} {toCalendarId : ℕ} {newName : String} (hmove : r.isMove = true)
      (h : EventPlan r s documentId fromCalendarId toDocumentId toCalendarId newName) :
      Planned documentId (.moveEvent fromCalendarId toDocumentId toCalendarId newName)
  | renameEvent {calendarId : ℕ} {newName : String} (hmove : r.isMove = true) (hsame : r.fromAccountId = r.toAccountId)
      (h : EventPlan r s documentId calendarId none calendarId newName) :
      Planned documentId (.renameEvent calendarId newName)

variable {r s} {found found' : Resource}

theorem byPath_of_parentId {a : Account I} {path : Path} (h : a.byPath path = some found) :
    match found.parentId with
    | none => path.item = none ∧ a.isNamed found.documentId path.calendar = true
    | some calendarId => ∃ item, path.item = some item ∧ ⟨item, calendarId⟩ ∈ a.names found.documentId ∧
        a.isNamed calendarId path.calendar = true := by
  obtain ⟨calendar, _ | item⟩ := path
  · obtain ⟨hnone, hnamed⟩ := byPath_calendar h
    rw [hnone]
    exact ⟨rfl, hnamed⟩
  · obtain ⟨calendarId, hsome, hn, hnamed⟩ := byPath_item h
    rw [hsome]
    exact ⟨item, rfl, hn, hnamed⟩

section

variable (hfrom : (s r.fromAccountId).byPath r.fromPath = some found)

include hfrom

theorem eventPlan_of_found {fromCalendarId toCalendarId : ℕ} (hto : (s r.toAccountId).byPath r.toPath = some found')
    (hpaths : r.fromPath ≠ r.toPath) (hparent : found.parentId = some fromCalendarId)
    (hparent' : found'.parentId = some toCalendarId) :
    EventPlan r s found.documentId fromCalendarId (some found'.documentId) toCalendarId
      (r.toPath.item.getD r.toPath.calendar) := by
  have hsource := byPath_of_parentId hfrom
  rw [hparent] at hsource
  obtain ⟨item, hitem, hn, hnamed⟩ := hsource
  have hdest := byPath_of_parentId hto
  rw [hparent'] at hdest
  obtain ⟨newName, hname, hn', hnamed'⟩ := hdest
  rw [hname]
  refine ⟨⟨item, hitem, hn⟩, hnamed, hname, hnamed', fun id hid => ?_, nofun, fun _ => hpaths⟩
  obtain rfl := Option.some.inj hid
  exact hn'

theorem eventPlan_of_parent {fromCalendarId : ℕ} {newName : String}
    (hto : (s r.toAccountId).byPath r.toPath = none) (hname : r.toPath.item = some newName)
    (hparent : (s r.toAccountId).byPath ⟨r.toPath.calendar, none⟩ = some found')
    (hcalendar : found.parentId = some fromCalendarId) :
    EventPlan r s found.documentId fromCalendarId none found'.documentId newName := by
  have hsource := byPath_of_parentId hfrom
  rw [hcalendar] at hsource
  obtain ⟨item, hitem, hn, hnamed⟩ := hsource
  have hnamed' := (byPath_calendar hparent).2
  refine ⟨⟨item, hitem, hn⟩, hnamed, hname, hnamed', nofun, fun _ id hn' => ?_, fun hsame hpath => ?_⟩
  · have hpath : r.toPath = ⟨r.toPath.calendar, some newName⟩ := by rw [← hname]
    rw [hpath] at hto
    exact byPath_item_none.mp hto id _ hnamed' hn'
  · rw [← hsame, ← hpath, hfrom] at hto
    cases hto

theorem containerPlan_of_none {fromChildrenIds : List ℕ}
    (hchildren : fromChildrenIds = (s r.fromAccountId).subtree r.fromPath.calendar ∨ r.isMove = false ∧ fromChildrenIds = [])
    (hto : (s r.toAccountId).byPath r.toPath = none) (hitem : r.toPath.item = none) (hparent : found.parentId = none) :
    ContainerPlan r s found.documentId fromChildrenIds none [] r.toPath.calendar := by
  have hsource := byPath_of_parentId hfrom
  rw [hparent] at hsource
  have hfree (id : ℕ) : (s r.toAccountId).isNamed id r.toPath.calendar = false := by
    have hpath : r.toPath = ⟨r.toPath.calendar, none⟩ := by rw [← hitem]
    rw [hpath] at hto
    exact byPath_calendar_none.mp hto id
  refine ⟨hsource.1, hitem, hsource.2, rfl, hchildren, nofun, fun _ => ⟨hfree, rfl⟩, fun hsame hcalendar => ?_⟩
  have hnamed := hsource.2
  rw [hsame, hcalendar, hfree] at hnamed
  cases hnamed

theorem containerPlan_of_found (hto : (s r.toAccountId).byPath r.toPath = some found') (hpaths : r.fromPath ≠ r.toPath)
    (hparent : found.parentId = none) (hparent' : found'.parentId = none) :
    ContainerPlan r s found.documentId ((s r.fromAccountId).subtree r.fromPath.calendar) (some found'.documentId)
      ((s r.toAccountId).subtree r.toPath.calendar) r.toPath.calendar := by
  have hsource := byPath_of_parentId hfrom
  rw [hparent] at hsource
  have hdest := byPath_of_parentId hto
  rw [hparent'] at hdest
  refine ⟨hsource.1, hdest.1, hsource.2, rfl, .inl rfl, fun id hid => ?_, nofun, fun _ hcalendar =>
    hpaths (Path.ext hcalendar (hsource.1.trans hdest.1.symm))⟩
  obtain rfl := Option.some.inj hid
  exact ⟨hdest.2, rfl⟩

end

/-- **What is planned** is of the paths. -/
theorem planned_of_plan {server : Server I} {documentId : ℕ} {action : Action}
    (h : plan r s server = .ok (documentId, action)) : Planned r s documentId action := by
  unfold plan at h
  cases hfrom : (s r.fromAccountId).byPath r.fromPath with
  | none => rw [hfrom] at h; cases h
  | some found =>
    rw [hfrom] at h
    dsimp only at h
    by_cases hdefault : r.isMove ∧ found.isContainer ∧ server.defaultCalendarName = some r.fromPath.calendar
    · rw [if_pos hdefault] at h
      cases h
    rw [if_neg hdefault] at h
    cases hto : (s r.toAccountId).byPath r.toPath with
    | some found' =>
      rw [hto] at h
      dsimp only at h
      split at h
      · cases h
      by_cases hpaths : r.fromPath = r.toPath
      · rw [if_pos hpaths] at h
        cases h
      rw [if_neg hpaths] at h
      cases hparent : found.parentId with
      | none =>
        cases hparent' : found'.parentId with
        | none =>
          rw [hparent, hparent'] at h
          obtain ⟨rfl, rfl⟩ := Prod.mk.inj (Except.ok.inj h)
          exact .copyContainer (containerPlan_of_found hfrom hto hpaths hparent hparent')
        | some toCalendarId => rw [hparent, hparent'] at h; cases h
      | some fromCalendarId =>
        cases hparent' : found'.parentId with
        | none => rw [hparent, hparent'] at h; cases h
        | some toCalendarId =>
          have hplan := eventPlan_of_found hfrom hto hpaths hparent hparent'
          rw [hparent, hparent'] at h
          split_ifs at h with hmove
          · obtain ⟨rfl, rfl⟩ := Prod.mk.inj (Except.ok.inj h)
            exact .moveEvent hmove hplan
          · obtain ⟨rfl, rfl⟩ := Prod.mk.inj (Except.ok.inj h)
            exact .copyEvent (Bool.not_eq_true _ ▸ hmove) hplan
    | none =>
      rw [hto] at h
      split at h
      · cases h
      cases hitem : r.toPath.item with
      | some newName =>
        rw [hitem] at h
        cases hcalendar : (s r.toAccountId).byPath ⟨r.toPath.calendar, none⟩ with
        | none => rw [hcalendar] at h; cases h
        | some parent =>
          rw [hcalendar] at h
          cases hparent : found.parentId with
          | none => rw [hparent] at h; cases h
          | some fromCalendarId =>
            have hplan := eventPlan_of_parent hfrom hto hitem hcalendar hparent
            rw [hparent] at h
            dsimp only at h
            split_ifs at h with hmove hother
            · obtain ⟨rfl, rfl⟩ := Prod.mk.inj (Except.ok.inj h)
              exact .moveEvent hmove hplan
            · obtain ⟨rfl, rfl⟩ := Prod.mk.inj (Except.ok.inj h)
              obtain ⟨hsame, hid⟩ := not_or.mp hother
              rw [not_not.mp hid] at hplan
              exact .renameEvent hmove (not_not.mp hsame) hplan
            · obtain ⟨rfl, rfl⟩ := Prod.mk.inj (Except.ok.inj h)
              exact .copyEvent (Bool.not_eq_true _ ▸ hmove) hplan
      | none =>
        rw [hitem] at h
        dsimp only at h
        unfold Resource.isContainer at h
        cases hparent : found.parentId with
        | some => simp [hparent] at h
        | none =>
          have hplan := containerPlan_of_none hfrom (.inl rfl) hto hitem hparent
          rw [hparent] at h
          cases hmove : r.isMove with
          | true =>
            rw [hmove, if_pos rfl] at h
            by_cases hother : r.fromAccountId ≠ r.toAccountId
            · split_ifs at h
              obtain ⟨rfl, rfl⟩ := Prod.mk.inj (Except.ok.inj h)
              exact hmove ▸ .copyContainer hplan
            · rw [if_neg hother] at h
              obtain ⟨rfl, rfl⟩ := Prod.mk.inj (Except.ok.inj h)
              exact .renameContainer hmove (not_not.mp hother) hplan
          | false =>
            rw [hmove] at h
            obtain ⟨rfl, rfl⟩ := Prod.mk.inj (Except.ok.inj h)
            refine hmove ▸ .copyContainer (containerPlan_of_none hfrom ?_ hto hitem hparent)
            split_ifs
            · exact .inl rfl
            · exact .inr ⟨hmove, rfl⟩

end MailServer.Dav.CopyMove
