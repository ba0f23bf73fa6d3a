import MailServer.Common.Resources
import MailServer.Utils.HashMap

/-!
# The cache of calendars and address books (`groupware/src/cache/calcard.rs`)

* `buildCalcard`: the cache of the containers and items that are stored.
* `Cached`: what the shared sets need of a cache.  `cached_buildCalcard`: a cache that is built has it.
* `sharedItems_iff`: when the shared items are those of the shared containers.
-/

namespace MailServer.Groupware

open MailServer.Common MailServer.Common.DavResources MailServer.Utils List

/-! ## The cache -/

structure CachedContainer where
  name : String
  acls : List AclGrant

structure CachedItem where
  names : List DavName
  start : ℤ
  duration : ℕ

/-- What is stored: calendars and events, or address books and cards. -/
structure Archives where
  isCalendar : Bool
  containers : HashMap ℕ CachedContainer
  items : HashMap ℕ CachedItem

namespace Archives

variable (a : Archives)

/-- `resource_from_calendar`, `resource_from_addressbook`. -/
def containerResource (e : ℕ × CachedContainer) : DavResource :=
  ⟨e.1, if a.isCalendar then .calendar e.2.name e.2.acls else .addressBook e.2.name e.2.acls⟩

/-- `resource_from_event`, `resource_from_card`. -/
def itemResource (e : ℕ × CachedItem) : DavResource :=
  ⟨e.1, if a.isCalendar then .calendarEvent e.2.names e.2.start e.2.duration else .contactCard e.2.names⟩

def resources : List DavResource := a.containers.toList.map a.containerResource ++ a.items.toList.map a.itemResource

/-- The paths of the containers. -/
def containerPaths : List DavPath :=
  a.containers.toList.zipIdx.map fun e => ⟨e.1.2.name, none, 1, e.2⟩

/-- The paths of the links of the items to containers that exist. -/
def itemPaths : List DavPath :=
  (a.items.toList.zipIdx a.containers.toList.length).flatMap fun e =>
    e.1.2.names.filterMap fun name =>
      a.containers[name.parentId]?.map fun parent =>
        ⟨parent.name ++ "/" ++ name.name, some name.parentId, 0, e.2⟩

end Archives

/-- `AHashSet::insert`, of a path unless there is one that is equal. -/
def insertPath (paths : List DavPath) (path : DavPath) : List DavPath :=
  if paths.any fun p => p.path = path.path then paths else paths ++ [path]

theorem distinct_resources (a : Archives) :
    (a.resources.filter fun r => r.acls.isSome).Pairwise fun r r' => r.documentId ≠ r'.documentId := by
  have hcontainers : ((a.containers.toList.map a.containerResource).filter fun r => r.acls.isSome) =
      a.containers.toList.map a.containerResource := by
    refine filter_eq_self.mpr fun r hr => ?_
    obtain ⟨e, -, rfl⟩ := mem_map.mp hr
    unfold Archives.containerResource
    split_ifs <;> rfl
  have hitems : ((a.items.toList.map a.itemResource).filter fun r => r.acls.isSome) = [] := by
    refine filter_eq_nil_iff.mpr fun r hr => ?_
    obtain ⟨e, -, rfl⟩ := mem_map.mp hr
    unfold Archives.itemResource
    split_ifs <;> exact Bool.false_ne_true
  unfold Archives.resources
  rw [filter_append, hcontainers, hitems, append_nil, pairwise_map]
  exact pairwise_map.mp (HashMap.nodup_map_fst_toList a.containers)

/-- `build_calcard_resources`. -/
def buildCalcard (basePath : String) (a : Archives) : DavResources where
  basePath := basePath
  paths := (a.containerPaths ++ a.itemPaths).foldl insertPath []
  resources := a.resources
  distinct := distinct_resources a

/-! ## What the shared sets need -/

/-- A resource with an id has grants. -/
def HasGrants (c : DavResources) (k : ℕ) : Prop := ∃ r ∈ c.resources, r.documentId = k ∧ r.acls.isSome = true

structure Cached (c : DavResources) : Prop where
  /-- containers have different ids, and so do items -/
  ids : ∀ r ∈ c.resources, ∀ r' ∈ c.resources, r.isContainer = r'.isContainer → r.documentId = r'.documentId → r = r'
  /-- folders of files have the ids of no files -/
  folders : ∀ r ∈ c.resources, ∀ r' ∈ c.resources, ∀ k, r.isContainer = true → r.isChildOf k = true → HasGrants c k →
    r.documentId = r'.documentId → r = r'
  /-- what something is below is a container -/
  parents : ∀ r ∈ c.resources, ∀ p ∈ c.resources, r.isChildOf p.documentId = true → p.acls.isSome = true →
    p.isContainer = true
  /-- the paths are those of the links -/
  paths : ∀ r ∈ c.resources, ∀ k, HasGrants c k → (r.isChildOf k = true ↔
    ∃ path ∈ c.paths, path.parentId = some k ∧ c.resources[path.resourceIdx]? = some r)

theorem foldl_insertPath : ∀ {paths acc : List DavPath}, ((acc ++ paths).map DavPath.path).Nodup →
    paths.foldl insertPath acc = acc ++ paths
  | [], acc, _ => (append_nil acc).symm
  | path :: paths, acc, h => by
    have hinsert : insertPath acc path = acc ++ [path] := by
      refine if_neg fun hany => ?_
      obtain ⟨p, hp, heq⟩ := any_eq_true.mp hany
      rw [map_append] at h
      have hne := (nodup_append.mp h).2.2 _ (mem_map_of_mem hp) path.path (by simp)
      exact hne (by simpa using heq)
    rw [foldl_cons, hinsert, foldl_insertPath (by simpa using h), append_assoc, singleton_append]

section

variable {a : Archives} {basePath : String}

theorem isContainer_containerResource (e : ℕ × CachedContainer) : (a.containerResource e).isContainer = true := by
  unfold Archives.containerResource
  split_ifs <;> rfl

theorem isContainer_itemResource (e : ℕ × CachedItem) : (a.itemResource e).isContainer = false := by
  unfold Archives.itemResource
  split_ifs <;> rfl

theorem isChildOf_containerResource (e : ℕ × CachedContainer) (k : ℕ) :
    (a.containerResource e).isChildOf k = false := by
  unfold Archives.containerResource
  split_ifs <;> rfl

theorem isChildOf_itemResource (e : ℕ × CachedItem) (k : ℕ) :
    (a.itemResource e).isChildOf k = true ↔ ∃ name ∈ e.2.names, name.parentId = k := by
  unfold Archives.itemResource
  split_ifs <;> simp [DavResource.isChildOf]

theorem acls_itemResource (e : ℕ × CachedItem) : (a.itemResource e).acls = none := by
  unfold Archives.itemResource
  split_ifs <;> rfl

theorem mem_resources {r : DavResource} :
    r ∈ a.resources ↔ (∃ e ∈ a.containers.toList, a.containerResource e = r) ∨ ∃ e ∈ a.items.toList, a.itemResource e = r := by
  unfold Archives.resources
  rw [mem_append, mem_map, mem_map]

theorem eq_of_key {V : Type} {m : HashMap ℕ V} {e e' : ℕ × V} (he : e ∈ m.toList) (he' : e' ∈ m.toList)
    (hkey : e.1 = e'.1) : e = e' := by
  have hv := HashMap.mem_toList.mp he
  have hv' := HashMap.mem_toList.mp he'
  rw [hkey] at hv
  exact Prod.ext hkey (Option.some.inj (hv.symm.trans hv'))

theorem mem_itemPaths {path : DavPath} {k : ℕ} :
    (path ∈ a.itemPaths ∧ path.parentId = some k) ↔
      ∃ i e name parent, a.items.toList[i]? = some e ∧ name ∈ e.2.names ∧ name.parentId = k ∧
        a.containers[k]? = some parent ∧
        path = ⟨parent.name ++ "/" ++ name.name, some k, 0, a.containers.toList.length + i⟩ := by
  unfold Archives.itemPaths
  rw [mem_flatMap]
  constructor
  · rintro ⟨⟨⟨e, n⟩, he, hpath⟩, hk⟩
    obtain ⟨name, hname, hpath⟩ := mem_filterMap.mp hpath
    obtain ⟨parent, hparent, rfl⟩ := Option.map_eq_some_iff.mp hpath
    obtain rfl := Option.some.inj hk
    obtain ⟨hle, hget⟩ := mem_zipIdx_iff_le_and_getElem?_sub.mp he
    refine ⟨n - a.containers.toList.length, e, name, parent, hget, hname, rfl, hparent, ?_⟩
    rw [Nat.add_sub_of_le hle]
  · rintro ⟨i, e, name, parent, he, hname, rfl, hparent, rfl⟩
    refine ⟨⟨(e, a.containers.toList.length + i), ?_, ?_⟩, rfl⟩
    · refine mem_zipIdx_iff_le_and_getElem?_sub.mpr ⟨Nat.le_add_right _ _, ?_⟩
      rw [Nat.add_sub_cancel_left]
      exact he
    · exact mem_filterMap.mpr ⟨name, hname, by rw [hparent]; rfl⟩

theorem eq_of_documentId {r r' : DavResource} (hr : r ∈ a.resources) (hr' : r' ∈ a.resources)
    (hcontainer : r.isContainer = r'.isContainer) (hid : r.documentId = r'.documentId) : r = r' := by
  rcases mem_resources.1 hr with ⟨e, he, rfl⟩ | ⟨e, he, rfl⟩ <;>
    rcases mem_resources.1 hr' with ⟨e', he', rfl⟩ | ⟨e', he', rfl⟩
  · rw [eq_of_key he he' hid]
  · rw [isContainer_containerResource, isContainer_itemResource] at hcontainer
    cases hcontainer
  · rw [isContainer_containerResource, isContainer_itemResource] at hcontainer
    cases hcontainer
  · rw [eq_of_key he he' hid]

theorem getElem?_resources (i : ℕ) :
    a.resources[a.containers.toList.length + i]? = (a.items.toList[i]?).map a.itemResource := by
  unfold Archives.resources
  rw [getElem?_append_right (by simp), length_map, Nat.add_sub_cancel_left, getElem?_map]

/-- **A cache that is built** from items whose paths are different. -/
theorem cached_buildCalcard (hpaths : ((a.containerPaths ++ a.itemPaths).map DavPath.path).Nodup) :
    Cached (buildCalcard basePath a) where
  ids r hr r' hr' hcontainer hid := eq_of_documentId hr hr' hcontainer hid
  folders r hr r' hr' k hfolder hchild := by
    rcases mem_resources.1 hr with ⟨e, he, rfl⟩ | ⟨e, he, rfl⟩
    · rw [isChildOf_containerResource] at hchild
      cases hchild
    · rw [isContainer_itemResource] at hfolder
      cases hfolder
  parents r hr p hp hchild hacls := by
    rcases mem_resources.1 hp with ⟨e, he, rfl⟩ | ⟨e, he, rfl⟩
    · exact isContainer_containerResource e
    · rw [acls_itemResource] at hacls
      cases hacls
  paths r hr k hk := by
    obtain ⟨p, hp, rfl, hacls⟩ := hk
    have hmem (path : DavPath) : path ∈ (buildCalcard basePath a).paths ↔
        path ∈ a.containerPaths ∨ path ∈ a.itemPaths := by
      have hfold : (a.containerPaths ++ a.itemPaths).foldl insertPath [] = [] ++ (a.containerPaths ++ a.itemPaths) :=
        foldl_insertPath hpaths
      show path ∈ (a.containerPaths ++ a.itemPaths).foldl insertPath [] ↔ _
      rw [hfold, nil_append, mem_append]
    constructor
    · intro hchild
      rcases mem_resources.1 hr with ⟨e, he, rfl⟩ | ⟨e, he, rfl⟩
      · rw [isChildOf_containerResource] at hchild
        cases hchild
      · obtain ⟨name, hname, hparent⟩ := (isChildOf_itemResource e _).mp hchild
        rcases mem_resources.1 hp with ⟨parent, hmemp, rfl⟩ | ⟨parent, hmemp, rfl⟩
        · obtain ⟨i, hi⟩ := mem_iff_getElem?.mp he
          have hcontainer : a.containers[parent.1]? = some parent.2 := HashMap.mem_toList.mp hmemp
          obtain ⟨hpath, hk⟩ := mem_itemPaths.2 ⟨i, e, name, parent.2, hi, hname, hparent, hcontainer, rfl⟩
          refine ⟨_, (hmem _).mpr (.inr hpath), hk, ?_⟩
          exact (getElem?_resources i).trans (by rw [hi]; rfl)
        · rw [acls_itemResource] at hacls
          cases hacls
    · rintro ⟨path, hpath, hparent, hres⟩
      rcases (hmem path).mp hpath with hpath | hpath
      · obtain ⟨e, -, rfl⟩ := mem_map.mp hpath
        cases hparent
      · obtain ⟨i, e, name, parent, hi, hname, hid, -, rfl⟩ := mem_itemPaths.1 ⟨hpath, hparent⟩
        have heq : some (a.itemResource e) = some r := by
          rw [← hres, ← Option.map_some, ← hi]
          exact (getElem?_resources i).symm
        obtain rfl := Option.some.inj heq
        exact (isChildOf_itemResource e _).mpr ⟨name, hname, hid⟩

end

/-! ## Shared items -/

section

variable {c : DavResources} {t : AccessToken} {checkAcls : List Acl} {matchAny : Bool}

/-- The grants to the principals of the token have the rights, taken together. -/
def UnionGrants (t : AccessToken) (acls : List AclGrant) (checkAcls : List Acl) (matchAny : Bool) : Prop :=
  (∃ acl ∈ acls, t.isMember acl.accountId = true) ∧ rightsMatch (unionAcl t acls) (bitmap checkAcls) matchAny = true

/-- An item of a container whose grants have the rights, or with grants of its own that have. -/
def Shared (c : DavResources) (t : AccessToken) (checkAcls : List Acl) (matchAny : Bool) (r : DavResource) : Prop :=
  r.isContainer = false ∧
    ((∃ p ∈ c.resources, p.isContainer = true ∧ r.isChildOf p.documentId = true ∧
        ∃ acls, p.acls = some acls ∧ UnionGrants t acls checkAcls matchAny) ∨
      ∃ acls, r.acls = some acls ∧ UnionGrants t acls checkAcls matchAny)

/-- The shared items are exactly those of the shared containers. -/
def ReturnsShared (c : DavResources) (t : AccessToken) (checkAcls : List Acl) (matchAny : Bool) : Prop :=
  ∀ id, id ∈ c.sharedItems t checkAcls matchAny ↔ ∃ r ∈ c.resources, r.documentId = id ∧ Shared c t checkAcls matchAny r

/-- What makes the shared items right. -/
structure SharedFine (c : DavResources) (t : AccessToken) (checkAcls : List Acl) (matchAny : Bool) : Prop where
  /-- an item that is not shared does not have the id of something that is -/
  ids : ∀ r ∈ c.resources, r.isContainer = false → r.documentId ∈ c.sharedContainers t checkAcls matchAny →
    Shared c t checkAcls matchAny r
  /-- there are no folders in a shared folder -/
  folders : ∀ r ∈ c.resources, r.isContainer = true → ∀ k ∈ c.sharedContainers t checkAcls matchAny,
    r.isChildOf k = false
  /-- where the grants have the rights one of them has -/
  single : ∀ r ∈ c.resources, Shared c t checkAcls matchAny r →
    r.documentId ∈ c.sharedContainers t checkAcls matchAny ∨
      ∃ k ∈ c.sharedContainers t checkAcls matchAny, r.isChildOf k = true

theorem rightsMatch_mono {grants grants' rights : Finset Acl} (hsub : grants ⊆ grants')
    (h : rightsMatch grants rights matchAny = true) : rightsMatch grants' rights matchAny = true := by
  unfold rightsMatch at h ⊢
  rw [Bool.or_eq_true, Bool.and_eq_true, decide_eq_true_iff, decide_eq_true_iff] at h ⊢
  refine h.imp (fun hall => ?_) fun ⟨hany, hne⟩ => ⟨hany, fun hempty => hne ?_⟩
  · exact Finset.inter_eq_right.mpr ((Finset.inter_eq_right.mp hall).trans hsub)
  · exact Finset.subset_empty.mp (hempty ▸ Finset.inter_subset_inter_right hsub)

theorem unionGrants_of_oneGrants {acls : List AclGrant} (h : oneGrants t acls (bitmap checkAcls) matchAny = true) :
    UnionGrants t acls checkAcls matchAny := by
  obtain ⟨acl, hacl, hgrants⟩ := any_eq_true.mp h
  obtain ⟨hmember, hmatch⟩ := Bool.and_eq_true_iff.mp hgrants
  exact ⟨⟨acl, hacl, hmember⟩, rightsMatch_mono (fun right hright => mem_unionAcl.mpr ⟨acl, hacl, hmember, hright⟩) hmatch⟩

theorem mem_below (h : Cached c) {containers : Finset ℕ} (hcontainers : ∀ k ∈ containers, HasGrants c k) {id : ℕ} :
    id ∈ c.below containers ↔ ∃ r ∈ c.resources, r.documentId = id ∧ ∃ k ∈ containers, r.isChildOf k = true := by
  unfold below
  rw [mem_toFinset, mem_filterMap]
  constructor
  · rintro ⟨path, hpath, hid⟩
    split_ifs at hid with hparent
    obtain ⟨k, hk, hmem⟩ := any_iff.mp hparent
    obtain ⟨r, hr, rfl⟩ := Option.map_eq_some_iff.mp hid
    have hmem := of_decide_eq_true hmem
    have hres := mem_of_getElem? hr
    exact ⟨r, hres, rfl, k, hmem, (h.paths r hres k (hcontainers k hmem)).mpr ⟨path, hpath, hk, hr⟩⟩
  · rintro ⟨r, hr, rfl, k, hmem, hchild⟩
    obtain ⟨path, hpath, hk, hres⟩ := (h.paths r hr k (hcontainers k hmem)).mp hchild
    refine ⟨path, hpath, ?_⟩
    rw [if_pos (any_iff.mpr ⟨k, hk, decide_eq_true hmem⟩), hres]
    rfl

/-- **What the code returns.** -/
theorem mem_sharedItems (h : Cached c) {id : ℕ} :
    id ∈ c.sharedItems t checkAcls matchAny ↔ ∃ r ∈ c.resources, r.documentId = id ∧
      ((r.isContainer = false ∧ r.documentId ∈ c.sharedContainers t checkAcls matchAny) ∨
        ∃ k ∈ c.sharedContainers t checkAcls matchAny, r.isChildOf k = true) := by
  have hcontainers : ∀ k ∈ c.sharedContainers t checkAcls matchAny, HasGrants c k := by
    intro k hk
    obtain ⟨r, hr, hid, acls, hacls, -⟩ := mem_sharedContainers.mp hk
    exact ⟨r, hr, hid, by rw [hacls]; rfl⟩
  unfold sharedItems
  by_cases hempty : c.sharedContainers t checkAcls matchAny ≠ ∅
  · rw [if_pos hempty, Finset.mem_union, mem_toFinset, mem_map, mem_below h hcontainers]
    constructor
    · rintro (⟨r, hr, rfl⟩ | ⟨r, hr, hid, hchild⟩)
      · obtain ⟨hmem, hshared⟩ := mem_filter.mp hr
        exact ⟨r, hmem, rfl, .inl (by simpa using hshared)⟩
      · exact ⟨r, hr, hid, .inr hchild⟩
    · rintro ⟨r, hr, hid, hshared | hchild⟩
      · exact .inl ⟨r, mem_filter.mpr ⟨hr, by simpa using hshared⟩, hid⟩
      · exact .inr ⟨r, hr, hid, hchild⟩
  · rw [not_not] at hempty
    simp [hempty]

/-- **The shared items are those of the shared containers** exactly when the ids, the folders and the grants do not
mislead the code. -/
theorem sharedItems_iff (h : Cached c) : ReturnsShared c t checkAcls matchAny ↔ SharedFine c t checkAcls matchAny := by
  constructor
  · intro heq
    refine ⟨fun r hr hitem hid => ?_, fun r hr hfolder k hk => ?_, fun r hr hshared => ?_⟩
    · obtain ⟨r', hr', hid', hshared⟩ := (heq _).mp ((mem_sharedItems h).mpr ⟨r, hr, rfl, .inl ⟨hitem, hid⟩⟩)
      obtain rfl := h.ids r hr r' hr' (hitem.trans hshared.1.symm) hid'.symm
      exact hshared
    · by_contra hchild
      have hchild := Bool.not_eq_false _ ▸ hchild
      obtain ⟨r', hr', hid', hshared⟩ := (heq _).mp ((mem_sharedItems h).mpr ⟨r, hr, rfl, .inr ⟨k, hk, hchild⟩⟩)
      obtain ⟨p, hp, hpid, acls, hacls, -⟩ := mem_sharedContainers.mp hk
      obtain rfl := h.folders r hr r' hr' k hfolder hchild ⟨p, hp, hpid, by rw [hacls]; rfl⟩ hid'.symm
      exact Bool.false_ne_true (hshared.1.symm.trans hfolder)
    · obtain ⟨r', hr', hid', hcode⟩ := (mem_sharedItems h).mp ((heq _).mpr ⟨r, hr, rfl, hshared⟩)
      rcases hcode with ⟨-, hid⟩ | ⟨k, hk, hchild⟩
      · exact .inl (hid' ▸ hid)
      · have hsame : r' = r := by
          by_cases hfolder : r'.isContainer = true
          · obtain ⟨p, hp, hpid, acls, hacls, -⟩ := mem_sharedContainers.mp hk
            exact h.folders r' hr' r hr k hfolder hchild ⟨p, hp, hpid, by rw [hacls]; rfl⟩ hid'
          · exact h.ids r' hr' r hr ((Bool.not_eq_true _ ▸ hfolder).trans hshared.1.symm) hid'
        exact .inr ⟨k, hk, hsame ▸ hchild⟩
  · intro hfine id
    rw [mem_sharedItems h]
    constructor
    · rintro ⟨r, hr, hid, ⟨hitem, hmem⟩ | ⟨k, hk, hchild⟩⟩
      · exact ⟨r, hr, hid, hfine.ids r hr hitem hmem⟩
      · have hitem : r.isContainer = false := by
          by_contra hfolder
          have hnone := hfine.folders r hr (Bool.not_eq_false _ ▸ hfolder) k hk
          exact Bool.false_ne_true (hnone.symm.trans hchild)
        obtain ⟨p, hp, rfl, acls, hacls, hgrants⟩ := mem_sharedContainers.mp hk
        have hcontainer := h.parents r hr p hp hchild (by rw [hacls]; rfl)
        exact ⟨r, hr, hid, hitem, .inl ⟨p, hp, hcontainer, hchild, acls, hacls, unionGrants_of_oneGrants hgrants⟩⟩
    · rintro ⟨r, hr, hid, hshared⟩
      exact ⟨r, hr, hid, (hfine.single r hr hshared).imp_left fun hmem => ⟨hshared.1, hmem⟩⟩

end

/-! ## An event with the id of a shared calendar -/

/-- The user seven may read what is in the calendar five, and not what is in six. -/
def twoCalendars (eventId calendarId : ℕ) : Archives where
  isCalendar := true
  containers := (Std.TreeMap.empty.insert 5 ⟨"work", [⟨7, [.readItems]⟩]⟩).insert 6 ⟨"home", []⟩
  items := Std.TreeMap.empty.insert eventId ⟨[⟨"event", calendarId⟩], 0, 0⟩

def guest : AccessToken := ⟨7, [], [1], false⟩

theorem resources_twoCalendars {eventId calendarId : ℕ} {r : DavResource}
    (h : r ∈ (buildCalcard "/dav/cal/jane/" (twoCalendars eventId calendarId)).resources) :
    r = ⟨5, .calendar "work" [⟨7, [.readItems]⟩]⟩ ∨ r = ⟨6, .calendar "home" []⟩ ∨
      r = ⟨eventId, .calendarEvent [⟨"event", calendarId⟩] 0 0⟩ := by
  have hres : (buildCalcard "/dav/cal/jane/" (twoCalendars eventId calendarId)).resources =
      [⟨5, .calendar "work" [⟨7, [.readItems]⟩]⟩, ⟨6, .calendar "home" []⟩,
        ⟨eventId, .calendarEvent [⟨"event", calendarId⟩] 0 0⟩] := rfl
  simpa [hres] using h

theorem sharedItems_linked :
    ReturnsShared (buildCalcard "/dav/cal/jane/" (twoCalendars 0 5)) guest [.readItems] false := by
  have hshared : (buildCalcard "/dav/cal/jane/" (twoCalendars 0 5)).sharedContainers guest [.readItems] false = {5} := by
    decide
  refine (sharedItems_iff (cached_buildCalcard (by decide))).mpr ⟨fun r hr hitem hid => ?_, fun r hr hfolder k hk => ?_,
    fun r hr h => .inr ⟨5, by exact Finset.mem_singleton_self 5, ?_⟩⟩
  · rw [hshared, Finset.mem_singleton] at hid
    rcases resources_twoCalendars hr with rfl | rfl | rfl
    · cases hitem
    · cases hitem
    · cases hid
  · rcases resources_twoCalendars hr with rfl | rfl | rfl
    · rfl
    · rfl
    · cases hfolder
  · rcases resources_twoCalendars hr with rfl | rfl | rfl
    · cases h.1
    · cases h.1
    · rfl

theorem sharedItems_coincide :
    ¬ ReturnsShared (buildCalcard "/dav/cal/jane/" (twoCalendars 5 6)) guest [.readItems] false := by
  intro h
  obtain ⟨r, hr, -, hitem, hshared⟩ := (h 5).mp (by decide)
  rcases resources_twoCalendars hr with rfl | rfl | rfl
  · cases hitem
  · cases hitem
  · rcases hshared with ⟨p, hp, -, hchild, acls, hacls, ⟨acl, hacl, -⟩, -⟩ | ⟨acls, hacls, -⟩
    · rcases resources_twoCalendars hp with rfl | rfl | rfl
      · cases hchild
      · obtain rfl := Option.some.inj hacls
        cases hacl
      · cases hacls
    · cases hacls

end MailServer.Groupware
