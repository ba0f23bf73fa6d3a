import MailServer.Common.Auth
import Mathlib.Data.Finset.Lattice.Fold

/-!
# Cached resources of an account (`common/src/storage/dav.rs`, `common/src/sharing/resources.rs`)

The cache of a collection has its containers and items in one list, and the paths under which they are found.  The
ids of containers and those of items come from separate counters, except for files.

* `sharedContainers`, `sharedItems`, `sharedDocuments`, `hasAccessToContainer`, `containerAcl`: what a user who is not
  a member of the account has access to.
* `agree_iff`: when these answer alike.
-/

namespace MailServer.Common

open List

structure DavName where
  name : String
  parentId : ℕ
  deriving DecidableEq

def SCHEDULE_INBOX_ID : ℕ := 2 ^ 32 - 2

inductive Metadata where
  | file (name : String) (size : Option ℕ) (parentId : Option ℕ) (acls : List AclGrant)
  | calendar (name : String) (acls : List AclGrant)
  | calendarEvent (names : List DavName) (start : ℤ) (duration : ℕ)
  | calendarEventNotification (names : List DavName)
  | addressBook (name : String) (acls : List AclGrant)
  | contactCard (names : List DavName)

structure DavResource where
  documentId : ℕ
  data : Metadata

open DavResource

namespace DavResource

def acls (r : DavResource) : Option (List AclGrant) :=
  match r.data with
  | .file _ _ _ acls | .calendar _ acls | .addressBook _ acls => some acls
  | _ => none

def isContainer (r : DavResource) : Bool :=
  match r.data with
  | .file _ size _ _ => size.isNone
  | .calendar .. | .addressBook .. => true
  | .calendarEventNotification names => names.isEmpty
  | _ => false

def isChildOf (r : DavResource) (parentId : ℕ) : Bool :=
  match r.data with
  | .file _ _ id _ => id = some parentId
  | .calendarEvent names .. | .contactCard names => names.any fun name => name.parentId = parentId
  | .calendarEventNotification names => names.isEmpty && parentId = SCHEDULE_INBOX_ID
  | _ => false

def childNames (r : DavResource) : Option (List DavName) :=
  match r.data with
  | .calendarEvent names .. | .contactCard names => some names
  | .calendarEventNotification names => if names.isEmpty then none else some names
  | _ => none

def containerName (r : DavResource) : Option String :=
  match r.data with
  | .file name .. | .calendar name _ | .addressBook name _ => some name
  | .calendarEventNotification names =>
    if names.isEmpty then some (if r.documentId = SCHEDULE_INBOX_ID then "inbox" else "outbox") else none
  | _ => none

/-- The resource with other grants. -/
def withAcls (r : DavResource) (acls : List AclGrant) : DavResource :=
  match r.data with
  | .file name size parentId _ => { r with data := .file name size parentId acls }
  | .calendar name _ => { r with data := .calendar name acls }
  | .addressBook name _ => { r with data := .addressBook name acls }
  | _ => r

theorem acls_withAcls (r : DavResource) (acls : List AclGrant) : (r.withAcls acls).acls = r.acls.map fun _ => acls := by
  obtain ⟨id, data⟩ := r
  cases data <;> rfl

@[simp] theorem documentId_withAcls (r : DavResource) (acls : List AclGrant) :
    (r.withAcls acls).documentId = r.documentId := by
  obtain ⟨id, data⟩ := r
  cases data <;> rfl

end DavResource

structure DavPath where
  path : String
  parentId : Option ℕ
  hierarchySeq : ℕ
  resourceIdx : ℕ

/-- The cache.  Of the resources with grants, which are of one collection, no two have one id. -/
structure DavResources where
  basePath : String
  paths : List DavPath
  resources : List DavResource
  distinct : (resources.filter fun r => r.acls.isSome).Pairwise fun r r' => r.documentId ≠ r'.documentId

/-! ## Rights -/

/-- A bitmap of rights. -/
def bitmap (rights : List Acl) : Finset Acl := (rights.filter (· ≠ .none)).toFinset

/-- `grants == check_acls || (match_any && !grants.is_empty())`, of the rights that are asked for. -/
def rightsMatch (grants checkAcls : Finset Acl) (matchAny : Bool) : Bool :=
  let grants := grants ∩ checkAcls
  grants = checkAcls || (matchAny && grants ≠ ∅)

namespace DavResources

variable (c : DavResources) (t : AccessToken)

/-- One of the grants has the rights. -/
def oneGrants (acls : List AclGrant) (checkAcls : Finset Acl) (matchAny : Bool) : Bool :=
  acls.any fun acl => t.isMember acl.accountId && rightsMatch (bitmap acl.grants) checkAcls matchAny

def sharedContainers (checkAcls : List Acl) (matchAny : Bool) : Finset ℕ :=
  ((c.resources.filter fun r => r.acls.any fun acls => oneGrants t acls (bitmap checkAcls) matchAny).map
    documentId).toFinset

/-- The resources below one of some containers. -/
def below (containers : Finset ℕ) : Finset ℕ :=
  (c.paths.filterMap fun path =>
    if path.parentId.any fun parentId => decide (parentId ∈ containers) then
      c.resources[path.resourceIdx]?.map documentId
    else none).toFinset

def sharedItems (checkAcls : List Acl) (matchAny : Bool) : Finset ℕ :=
  let sharedContainers := c.sharedContainers t checkAcls matchAny
  if sharedContainers ≠ ∅ then
    ((c.resources.filter fun r => !r.isContainer && decide (r.documentId ∈ sharedContainers)).map
      documentId).toFinset ∪ c.below sharedContainers
  else sharedContainers

def sharedDocuments (checkAcls : List Acl) (matchAny : Bool) : Finset ℕ :=
  let sharedContainers := c.sharedContainers t checkAcls matchAny
  if sharedContainers ≠ ∅ then sharedContainers ∪ c.below sharedContainers else sharedContainers

/-- The grants of the first resource with an id that has any. -/
def aclsOf (documentId : ℕ) : Option (List AclGrant) :=
  c.resources.findSome? fun r => if r.documentId = documentId then r.acls else none

def hasAccessToContainer (documentId : ℕ) (checkAcls : Finset Acl) : Bool :=
  match c.aclsOf documentId with
  | some acls =>
    match acls.find? fun acl => t.isMember acl.accountId with
    | some acl => bitmap acl.grants ∩ checkAcls ≠ ∅
    | none => false
  | none => false

/-- The union of the grants of every principal that the token is a member of. -/
def unionAcl (acls : List AclGrant) : Finset Acl :=
  acls.foldl (fun accountAcls acl => if t.isMember acl.accountId then accountAcls ∪ bitmap acl.grants else accountAcls) ∅

def containerAcl (documentId : ℕ) : Finset Acl := ((c.aclsOf documentId).map (unionAcl t)).getD ∅

def byPath (name : String) : Option (DavPath × DavResource) :=
  (c.paths.find? fun path => path.path = name).bind fun path =>
    c.resources[path.resourceIdx]?.map fun r => (path, r)

def children (parentId : ℕ) : List (DavPath × DavResource) :=
  (c.paths.filter fun path => path.parentId = some parentId).filterMap fun path =>
    c.resources[path.resourceIdx]?.map fun r => (path, r)

def hasContainerId (id : ℕ) : Bool := c.resources.any fun r => r.documentId = id && r.isContainer

def hasItemId (id : ℕ) : Bool := c.resources.any fun r => r.documentId = id && !r.isContainer

/-! ## Agreement -/

variable {c t}

/-- The right is granted to one of the principals of the token. -/
def Granted (t : AccessToken) (acls : List AclGrant) (right : Acl) : Prop :=
  ∃ acl ∈ acls, t.isMember acl.accountId = true ∧ right ∈ bitmap acl.grants

variable {acls : List AclGrant} {right : Acl} {r : DavResource} {checkAcls : List Acl}
  {matchAny : Bool} {id : ℕ}

theorem mem_unionAcl : right ∈ unionAcl t acls ↔ Granted t acls right := by
  have hfold : ∀ (acls : List AclGrant) (s : Finset Acl),
      right ∈ acls.foldl (fun accountAcls acl =>
        if t.isMember acl.accountId then accountAcls ∪ bitmap acl.grants else accountAcls) s ↔
        right ∈ s ∨ Granted t acls right := by
    intro acls
    induction acls with
    | nil => simp [Granted]
    | cons acl acls ih =>
      intro s
      rw [foldl_cons, ih]
      unfold Granted
      by_cases hmember : t.isMember acl.accountId = true
      · simp [hmember, or_assoc]
      · simp [hmember]
  unfold unionAcl
  rw [hfold]
  simp

theorem mem_bitmap
    {rights : List Acl} : right ∈ bitmap rights ↔ right ∈ rights ∧ right ≠ .none := by
  simp [bitmap]

theorem oneGrants_iff (hright : right ≠ .none) (matchAny : Bool) :
    oneGrants t acls (bitmap [right]) matchAny = true ↔ Granted t acls right := by
  have hbitmap : bitmap [right] = {right} := by
    ext r
    rw [mem_bitmap, Finset.mem_singleton, mem_singleton]
    exact and_iff_left_of_imp fun h => h ▸ hright
  have hmatch (grants : Finset Acl) : rightsMatch grants {right} matchAny = true ↔ right ∈ grants := by
    unfold rightsMatch
    by_cases hmem : right ∈ grants
    · simp [hmem]
    · simp [hmem]
  unfold oneGrants Granted
  rw [hbitmap]
  simp [hmatch]

theorem aclsOf_eq (hr : r ∈ c.resources) (hacls : r.acls = some acls) :
    c.aclsOf r.documentId = some acls := by
  have hdistinct := c.distinct
  unfold aclsOf
  generalize c.resources = resources at hr hdistinct
  induction resources with
  | nil => cases hr
  | cons r' resources ih =>
    rw [findSome?_cons]
    rcases mem_cons.mp hr with rfl | hr
    · rw [if_pos rfl, hacls]
    · by_cases hsome : r'.acls.isSome = true
      · rw [filter_cons, if_pos hsome, pairwise_cons] at hdistinct
        have hne := hdistinct.1 r (mem_filter.mpr ⟨hr, by rw [hacls]; rfl⟩)
        rw [if_neg hne]
        exact ih hr hdistinct.2
      · rw [filter_cons, if_neg hsome] at hdistinct
        rw [Option.not_isSome_iff_eq_none.mp hsome, ite_self]
        exact ih hr hdistinct

theorem any_iff {α : Type} {o : Option α} {p : α → Bool} : o.any p = true ↔ ∃ a, o = some a ∧ p a = true := by
  cases o <;> simp

theorem mem_sharedContainers :
    id ∈ c.sharedContainers t checkAcls matchAny ↔ ∃ r ∈ c.resources, r.documentId = id ∧
      ∃ acls, r.acls = some acls ∧ oneGrants t acls (bitmap checkAcls) matchAny = true := by
  unfold sharedContainers
  rw [mem_toFinset, mem_map]
  constructor
  · rintro ⟨r, hr, rfl⟩
    obtain ⟨hmem, hany⟩ := mem_filter.mp hr
    obtain ⟨acls, hacls, hgrants⟩ := any_iff.1 hany
    exact ⟨r, hmem, rfl, acls, hacls, hgrants⟩
  · rintro ⟨r, hmem, rfl, acls, hacls, hgrants⟩
    exact ⟨r, mem_filter.mpr ⟨hmem, any_iff.2 ⟨acls, hacls, hgrants⟩⟩, rfl⟩

theorem mem_sharedContainers_iff (hr : r ∈ c.resources) (hacls : r.acls = some acls) :
    r.documentId ∈ c.sharedContainers t checkAcls matchAny ↔ oneGrants t acls (bitmap checkAcls) matchAny = true := by
  rw [mem_sharedContainers]
  constructor
  · rintro ⟨r', hr', hid, acls', hacls', hgrants⟩
    have heq := (aclsOf_eq hr' hacls').symm.trans (hid ▸ aclsOf_eq hr hacls)
    obtain rfl := Option.some.inj heq
    exact hgrants
  · exact fun hgrants => ⟨r, hr, rfl, acls, hacls, hgrants⟩

theorem mem_sharedContainers_acl (hright : right ≠ .none) :
    id ∈ c.sharedContainers t [right] matchAny ↔ right ∈ c.containerAcl t id := by
  unfold containerAcl
  constructor
  · intro hid
    obtain ⟨r, hr, rfl, acls, hacls, hgrants⟩ := mem_sharedContainers.1 hid
    rw [aclsOf_eq hr hacls]
    exact mem_unionAcl.2 ((oneGrants_iff hright matchAny).mp hgrants)
  · intro hmem
    cases hacls : c.aclsOf id with
    | none =>
      rw [hacls] at hmem
      exact absurd hmem (Finset.notMem_empty right)
    | some acls =>
      rw [hacls] at hmem
      obtain ⟨r, hr, hsome⟩ := exists_of_findSome?_eq_some hacls
      split_ifs at hsome with hid
      have hgranted : Granted t acls right := mem_unionAcl.1 hmem
      exact mem_sharedContainers.2 ⟨r, hr, hid, acls, hsome, (oneGrants_iff hright matchAny).mpr hgranted⟩

/-- The cache with other grants of an id. -/
def withAcls (c : DavResources) (id : ℕ) (acls : List AclGrant) : DavResources where
  basePath := c.basePath
  paths := c.paths
  resources := c.resources.map fun r => if r.documentId = id then r.withAcls acls else r
  distinct := by
    have hsome (r : DavResource) :
        (if r.documentId = id then r.withAcls acls else r).acls.isSome = r.acls.isSome := by
      split_ifs
      · rw [acls_withAcls, Option.isSome_map]
      · rfl
    have hid (r : DavResource) : (if r.documentId = id then r.withAcls acls else r).documentId = r.documentId := by
      split_ifs <;> simp
    rw [filter_map, pairwise_map]
    simp only [Function.comp_def, hsome, hid]
    exact c.distinct

/-- What a user may do to a container, by each of the three. -/
structure Decisions (c : DavResources) (t : AccessToken) (id : ℕ) (acls : List AclGrant) (right : Acl) : Prop where
  access : c.hasAccessToContainer t id {right} = true ↔ Granted t acls right
  shared : ∀ matchAny, id ∈ c.sharedContainers t [right] matchAny ↔ Granted t acls right
  acl : right ∈ c.containerAcl t id ↔ Granted t acls right

/-- They answer by the union of the grants, in whatever order these are. -/
def Agree (c : DavResources) (t : AccessToken) (id : ℕ) (acls : List AclGrant) (right : Acl) : Prop :=
  ∀ acls' : List AclGrant, acls'.Perm acls → Decisions (c.withAcls id acls') t id acls right

/-- The grants to the principals of a token. -/
def applicable (t : AccessToken) (acls : List AclGrant) : List AclGrant := acls.filter fun acl => t.isMember acl.accountId

theorem Granted.perm {acls' : List AclGrant} (h : acls'.Perm acls) :
    Granted t acls' right ↔ Granted t acls right :=
  ⟨fun ⟨acl, hacl, hgrants⟩ => ⟨acl, h.subset hacl, hgrants⟩,
    fun ⟨acl, hacl, hgrants⟩ => ⟨acl, h.symm.subset hacl, hgrants⟩⟩

theorem of_find {acl : AclGrant} (h : (acls.find? fun acl => t.isMember acl.accountId) = some acl) :
    acl ∈ acls ∧ t.isMember acl.accountId = true :=
  ⟨mem_of_find?_eq_some h, by simpa using find?_some h⟩

theorem hasAccessToContainer_eq (h : c.aclsOf id = some acls) :
    c.hasAccessToContainer t id {right} = true ↔
      ∃ acl, (acls.find? fun acl => t.isMember acl.accountId) = some acl ∧ right ∈ bitmap acl.grants := by
  unfold hasAccessToContainer
  rw [h]
  dsimp only
  cases acls.find? fun acl => t.isMember acl.accountId with
  | none => simp
  | some acl => simp [Finset.inter_singleton]

theorem containerAcl_of_hasAccess (h : c.hasAccessToContainer t id {right} = true) :
    right ∈ c.containerAcl t id := by
  cases hacls : c.aclsOf id with
  | none =>
    unfold hasAccessToContainer at h
    rw [hacls] at h
    cases h
  | some acls =>
    obtain ⟨acl, hfind, hright⟩ := (hasAccessToContainer_eq hacls).mp h
    obtain ⟨hacl, hmember⟩ := of_find hfind
    unfold containerAcl
    rw [hacls]
    exact mem_unionAcl.2 ⟨acl, hacl, hmember, hright⟩

/-- **Of some container** two answers are right, and the third is when the first grant has the right or none has. -/
theorem decisions_iff (hr : r ∈ c.resources) {acls' : List AclGrant} (hacls : r.acls = some acls)
    (hperm : acls'.Perm acls) (hright : right ≠ .none) :
    Decisions (c.withAcls r.documentId acls') t r.documentId acls right ↔
      ((∃ acl, (acls'.find? fun acl => t.isMember acl.accountId) = some acl ∧ right ∈ bitmap acl.grants) ↔
        Granted t acls right) := by
  have hmem : r.withAcls acls' ∈ (c.withAcls r.documentId acls').resources :=
    mem_map.mpr ⟨r, hr, if_pos rfl⟩
  have hacls' : (r.withAcls acls').acls = some acls' := by
    rw [acls_withAcls, hacls]
    rfl
  have hof : (c.withAcls r.documentId acls').aclsOf r.documentId = some acls' := by
    rw [← aclsOf_eq hmem hacls', documentId_withAcls]
  constructor
  · intro h
    rw [← h.access, hasAccessToContainer_eq hof]
  · intro h
    refine ⟨by rw [hasAccessToContainer_eq hof, h], fun matchAny => ?_, ?_⟩
    · have hshared : (r.withAcls acls').documentId ∈
          (c.withAcls r.documentId acls').sharedContainers t [right] matchAny ↔ Granted t acls right := by
        rw [mem_sharedContainers_iff hmem hacls', oneGrants_iff hright, Granted.perm hperm]
      rwa [documentId_withAcls] at hshared
    · unfold containerAcl
      rw [hof, Option.map_some, Option.getD_some, mem_unionAcl, Granted.perm hperm]

/-- **The decisions agree** on a right exactly when the grants to the principals of the token all have it, or none has
it. -/
theorem agree_iff {r : DavResource} (hr : r ∈ c.resources) {acls : List AclGrant} (hacls : r.acls = some acls)
    {right : Acl} (hright : right ≠ .none) :
    Agree c t r.documentId acls right ↔
      (∀ acl ∈ applicable t acls, right ∈ bitmap acl.grants) ∨ ∀ acl ∈ applicable t acls, right ∉ bitmap acl.grants := by
  have happlicable (acl : AclGrant) : acl ∈ applicable t acls ↔ acl ∈ acls ∧ t.isMember acl.accountId = true :=
    mem_filter
  constructor
  · intro hagree
    by_contra hneither
    rw [not_or] at hneither
    obtain ⟨hlacks, hhas⟩ := hneither
    obtain ⟨b, hb, hlacks⟩ : ∃ b ∈ applicable t acls, right ∉ bitmap b.grants := by simpa using hlacks
    obtain ⟨a, ha, hhas⟩ : ∃ a ∈ applicable t acls, right ∈ bitmap a.grants := by simpa using hhas
    -- the grant without the right comes first
    obtain ⟨before, after, hsplit⟩ := append_of_mem ((happlicable b).mp hb).1
    have hperm : (b :: (before ++ after)).Perm acls := by
      rw [hsplit]
      exact perm_middle.symm
    have hgranted : Granted t acls right := ⟨a, ((happlicable a).mp ha).1, ((happlicable a).mp ha).2, hhas⟩
    obtain ⟨acl, hfind, hright⟩ := ((decisions_iff hr hacls hperm hright).mp (hagree _ hperm)).mpr hgranted
    rw [find?_cons, ((happlicable b).mp hb).2] at hfind
    obtain rfl := Option.some.inj hfind
    exact hlacks hright
  · intro h acls' hperm
    rw [decisions_iff hr hacls hperm hright]
    constructor
    · rintro ⟨acl, hfind, hright⟩
      obtain ⟨hacl, hmember⟩ := of_find hfind
      exact ⟨acl, hperm.subset hacl, hmember, hright⟩
    · rintro ⟨acl, hacl, hmember, hgrants⟩
      obtain ⟨first, hfind⟩ : ∃ first, (acls'.find? fun acl => t.isMember acl.accountId) = some first := by
        refine Option.isSome_iff_exists.mp (find?_isSome.mpr ⟨acl, hperm.symm.subset hacl, hmember⟩)
      rcases h with hall | hnone
      · obtain ⟨hfirst, hmember'⟩ := of_find hfind
        exact ⟨first, hfind, hall first ((happlicable first).mpr ⟨hperm.subset hfirst, hmember'⟩)⟩
      · exact absurd hgrants (hnone acl ((happlicable acl).mpr ⟨hacl, hmember⟩))

/-- A calendar with the given grants. -/
def oneCalendar (acls : List AclGrant) : DavResources where
  basePath := "/dav/cal/jane/"
  paths := [⟨"work", none, 1, 0⟩]
  resources := [⟨0, .calendar "work" acls⟩]
  distinct := pairwise_singleton _ _

/-- The user seven, of the group nine. -/
def groupMember : AccessToken := ⟨7, [9], [1], false⟩

def bothGrants : List AclGrant := [⟨9, [.readItems, .read]⟩, ⟨7, [.readItems]⟩]

/-- The group and its member have one right and another besides. -/
theorem agree_both : Agree (oneCalendar bothGrants) groupMember 0 bothGrants .readItems := by
  have hmem : (⟨0, .calendar "work" bothGrants⟩ : DavResource) ∈ (oneCalendar bothGrants).resources :=
    mem_singleton_self _
  have hright : Acl.readItems ≠ .none := by decide
  exact (agree_iff hmem rfl hright).mpr (.inl (by decide))

/-- The group may read the calendar, its member the events. -/
theorem agree_mixed : ¬ Agree (oneCalendar [⟨9, [.read]⟩, ⟨7, [.readItems]⟩]) groupMember 0
    [⟨9, [.read]⟩, ⟨7, [.readItems]⟩] .readItems := by
  intro h
  have haccess := (h _ (List.Perm.refl _)).access
  exact absurd (haccess.mpr ⟨⟨7, [.readItems]⟩, by simp, by decide, by decide⟩) (by decide)

end DavResources

end MailServer.Common
