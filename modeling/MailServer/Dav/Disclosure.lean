import MailServer.Dav.Reads
import MailServer.Lib.Except

/-!
# What reading discloses

* `path_cases`: the paths of a cache that is built.
* `Unrevealed`: nothing lets a user see the items of a container whose items he may not read.
* `discreet_iff`: that is when the answers are discreet.
-/

namespace MailServer.Dav

open MailServer.Lib MailServer.Common MailServer.Common.DavResources MailServer.Groupware List

/-! ## The paths of a cache that is built -/

section

variable {s : Archives} {basePath : String}

variable {path : DavPath}

theorem nodup_insertPath {paths : List DavPath} (h : (paths.map DavPath.path).Nodup) :
    ((insertPath paths path).map DavPath.path).Nodup := by
  unfold insertPath
  split_ifs with hany
  · exact h
  · rw [map_append]
    refine nodup_append.mpr ⟨h, nodup_singleton _, ?_⟩
    rintro name hname name' hname' rfl
    obtain ⟨p, hp, hpath⟩ := mem_map.mp hname
    rw [mem_singleton.mp hname'] at hpath
    exact hany (any_eq_true.mpr ⟨p, hp, decide_eq_true hpath⟩)

theorem nodup_paths : ((buildCalcard basePath s).paths.map DavPath.path).Nodup := by
  have hfold : ∀ (paths acc : List DavPath), (acc.map DavPath.path).Nodup →
      ((paths.foldl insertPath acc).map DavPath.path).Nodup := by
    intro paths
    induction paths with
    | nil => exact fun acc h => h
    | cons path paths ih => exact fun acc h => ih _ (nodup_insertPath h)
  exact hfold _ [] nodup_nil

theorem of_mem_foldl_insertPath {paths acc : List DavPath} (h : path ∈ paths.foldl insertPath acc) :
    path ∈ acc ∨ path ∈ paths := by
  induction paths generalizing acc with
  | nil => exact .inl h
  | cons p paths ih =>
    rcases ih h with h | h
    · unfold insertPath at h
      split_ifs at h
      · exact .inl h
      · rcases mem_append.mp h with h | h
        · exact .inl h
        · exact .inr (mem_singleton.mp h ▸ mem_cons_self)
    · exact .inr (mem_cons_of_mem _ h)

theorem eq_of_path {p p' : DavPath} (hp : p ∈ (buildCalcard basePath s).paths)
    (hp' : p' ∈ (buildCalcard basePath s).paths) (h : p.path = p'.path) : p = p' :=
  inj_on_of_nodup_map nodup_paths hp hp' h

theorem find_path (hpath : path ∈ (buildCalcard basePath s).paths) :
    ((buildCalcard basePath s).paths.find? fun p => p.path = path.path) = some path := by
  have hsome : ((buildCalcard basePath s).paths.find? fun p => p.path = path.path).isSome = true :=
    find?_isSome.mpr ⟨path, hpath, decide_eq_true rfl⟩
  obtain ⟨p, hp⟩ := Option.isSome_iff_exists.mp hsome
  have hname : p.path = path.path := by simpa using find?_some hp
  rw [hp, eq_of_path (mem_of_find?_eq_some hp) hpath hname]

theorem childNames_itemResource (e : ℕ × CachedItem) : (s.itemResource e).childNames = some e.2.names := by
  unfold Archives.itemResource
  split_ifs <;> rfl

theorem childNames_containerResource (e : ℕ × CachedContainer) : (s.containerResource e).childNames = none := by
  unfold Archives.containerResource
  split_ifs <;> rfl

theorem path_cases (hpath : path ∈ (buildCalcard basePath s).paths) {r : DavResource}
    (hr : (buildCalcard basePath s).resources[path.resourceIdx]? = some r) :
    r.isContainer = true ∧ path.parentId = none ∨
      r.isContainer = false ∧ ∃ k names, path.parentId = some k ∧ r.childNames = some names ∧
        ∃ name ∈ names, name.parentId = k := by
  rcases mem_append.mp ((of_mem_foldl_insertPath hpath).resolve_left not_mem_nil) with h | h
  · obtain ⟨⟨e, i⟩, he, rfl⟩ := mem_map.mp h
    have hget : s.containers.toList[i]? = some e := mk_mem_zipIdx_iff_getElem?.mp he
    have hlt : i < (s.containers.toList.map s.containerResource).length := by
      rw [length_map]
      exact (List.getElem?_eq_some_iff.mp hget).1
    have hr' : (s.containers.toList.map s.containerResource ++ s.items.toList.map s.itemResource)[i]? = some r := hr
    rw [getElem?_append_left hlt, getElem?_map, hget] at hr'
    obtain rfl := Option.some.inj hr'
    exact .inl ⟨isContainer_containerResource e, rfl⟩
  · have hparent : ∃ k, path.parentId = some k := by
      obtain ⟨e, -, hname⟩ := mem_flatMap.mp h
      obtain ⟨name, -, hpath⟩ := List.mem_filterMap.1 hname
      obtain ⟨parent, -, rfl⟩ := Option.map_eq_some_iff.mp hpath
      exact ⟨_, rfl⟩
    obtain ⟨k, hk⟩ := hparent
    obtain ⟨i, e, name, parent, hi, hname, hid, -, rfl⟩ := mem_itemPaths.mp ⟨h, hk⟩
    have hr' : (s.items.toList[i]?).map s.itemResource = some r := (getElem?_resources i).symm.trans hr
    rw [hi] at hr'
    obtain rfl := Option.some.inj hr'
    exact .inr ⟨isContainer_itemResource e, k, e.2.names, rfl, childNames_itemResource e, name, hname, hid⟩

theorem isContainer_of_childNames {r : DavResource} (hr : r ∈ s.resources) {names : List DavName}
    (hnames : r.childNames = some names) : r.isContainer = false := by
  rcases mem_resources.mp hr with ⟨e, -, rfl⟩ | ⟨e, -, rfl⟩
  · rw [childNames_containerResource] at hnames
    cases hnames
  · exact isContainer_itemResource e

end

/-! ## What is disclosed -/

section

variable {Content : Type} {a : Account Content} {t : AccessToken}

/-- The store has an item under a path where the user may not read the items. -/
structure Hidden (a : Account Content) (t : AccessToken) (path : DavPath) (r : DavResource) (k : ℕ) : Prop where
  found : path ∈ a.resources.paths
  resource : a.resources.resources[path.resourceIdx]? = some r
  item : r.isContainer = false
  stored : (a.archives false r.documentId).isSome = true
  container : path.parentId = some k
  right : Acl.readItems ∉ a.resources.containerAcl t k

/-- Nothing else lets the user see such an item. -/
structure Unrevealed (a : Account Content) (t : AccessToken) : Prop where
  /-- its container may not even be read -/
  read : ∀ path r k, Hidden a t path r k → Acl.read ∉ a.resources.containerAcl t k
  /-- it is linked to no container whose items the user may read -/
  links : ∀ path r k, Hidden a t path r k → ∀ names, r.childNames = some names → ∀ name ∈ names,
    Acl.readItems ∉ a.resources.containerAcl t name.parentId
  /-- where its container is found, it has not the id of a container whose items the user may read -/
  ids : ∀ path r k, Hidden a t path r k →
    (∃ path' ∈ a.resources.paths, ∃ p, a.resources.resources[path'.resourceIdx]? = some p ∧ p.isContainer = true ∧
      p.documentId = k) → Acl.readItems ∉ a.resources.containerAcl t r.documentId

theorem mem_acl {right : Acl} {matchAny : Bool} (hright : right ≠ .none) {id : ℕ} :
    id ∈ a.resources.sharedContainers t [right] matchAny ↔ right ∈ a.resources.containerAcl t id :=
  mem_sharedContainers_acl hright

variable {r : DavPath × DavResource} {paths : List DavPath} {limit k : ℕ} {containers : Finset ℕ}
  {item : PropFindItem} {resource : Option String} {path : DavPath}

theorem byPath_eq_some {name : String} (h : a.resources.byPath name = some r) :
    r.1 ∈ a.resources.paths ∧ a.resources.resources[r.1.resourceIdx]? = some r.2 := by
  obtain ⟨path, hpath, h⟩ := Option.bind_eq_some_iff.mp h
  obtain ⟨res, hres, rfl⟩ := Option.map_eq_some_iff.mp h
  exact ⟨mem_of_find?_eq_some hpath, hres⟩

theorem of_mem_filterMap
    (h : r ∈ paths.filterMap fun path => a.resources.resources[path.resourceIdx]?.map fun r => (path, r)) :
    r.1 ∈ paths ∧ a.resources.resources[r.1.resourceIdx]? = some r.2 := by
  obtain ⟨path, hpath, h⟩ := List.mem_filterMap.1 h
  obtain ⟨res, hres, rfl⟩ := Option.map_eq_some_iff.mp h
  exact ⟨hpath, hres⟩

theorem mem_filterMap (hpath : r.1 ∈ paths)
    (hres : a.resources.resources[r.1.resourceIdx]? = some r.2) :
    r ∈ paths.filterMap fun path => a.resources.resources[path.resourceIdx]?.map fun r => (path, r) :=
  List.mem_filterMap.2 ⟨r.1, hpath, by rw [hres]; rfl⟩

/-! ### The changes show no more than there is to show -/

theorem Page.take_sublist {α : Type} (l : List α) : ∀ p : Page, (p.take limit l).2.Sublist l := by
  induction l with
  | nil => exact fun p => List.Sublist.refl []
  | cons x l ih =>
    intro p
    unfold Page.take
    split_ifs
    · exact (ih _).cons x
    · exact (ih _).cons_cons x
    · exact (ih _).cons x

theorem Page.takeIds_subset {p : Page} {documentIds ids : Finset ℕ}
    (h : (p.takeIds limit (some documentIds)).2 = some ids) : ids ⊆ documentIds := by
  obtain rfl := Option.some.inj h
  intro id hid
  have hmem := (Page.take_sublist _ _).subset (mem_toFinset.mp hid)
  exact (Finset.mem_sort _).mp hmem

theorem shows_item {children : Finset ℕ} (hitem : r.2.isContainer = false) :
    Display.shows ⟨some containers, some children⟩ true r = true ↔ r.2.documentId ∈ children := by
  simp [Display.shows, hitem]

theorem display_truncate {seq : ℕ} {vanished : List String} {children : Finset ℕ} :
    ∃ cs ids, (truncate limit seq vanished ⟨some containers, some children⟩).display = ⟨some cs, some ids⟩ ∧
      ids ⊆ children := by
  unfold truncate
  split_ifs
  · exact ⟨_, _, rfl, Page.takeIds_subset rfl⟩
  · exact ⟨containers, children, rfl, Finset.Subset.refl _⟩

theorem shows_of_changedSince {token : SyncToken} {children : Finset ℕ} :
    Post (fun changed : Changed => ∀ r : DavPath × DavResource, r.2.isContainer = false →
        changed.display.shows true r = true → r.2.documentId ∈ children) (fun _ => True)
      (changedSince a true limit token ⟨some containers, some children⟩) := by
  refine (post_true _).map fun changes _ r hitem hshows => ?_
  obtain ⟨cs, ids, hdisplay, hsub⟩ : ∃ cs ids, (truncate limit token.seq
      (if (merge changes.changes).maybeHasVanished then vanishedSince a.vanished token.id else [])
      (Display.narrow ⟨some containers, some children⟩ true (merge changes.changes))).display = ⟨some cs, some ids⟩ ∧
        ids ⊆ narrow (merge changes.changes).items (some children) := display_truncate
  rw [hdisplay, shows_item hitem] at hshows
  exact (Finset.mem_inter.mp (hsub hshows)).1

theorem of_mem_listed {query : DavQuery} {d : Display} (h : item ∈ listed a true query d) :
    ∃ r, item = a.item r ∧ r.1 ∈ a.resources.paths ∧ a.resources.resources[r.1.resourceIdx]? = some r.2 ∧
      d.shows true r = true := by
  unfold listed at h
  cases hres : query.resource with
  | some resource =>
    rw [hres] at h
    obtain ⟨r, hr, rfl⟩ := mem_map.mp h
    obtain ⟨hr, hshows⟩ := mem_filter.mp hr
    obtain ⟨hpath, hget⟩ := of_mem_filterMap hr
    exact ⟨r, rfl, (mem_filter.mp hpath).1, hget, (Bool.and_eq_true_iff.mp hshows).1⟩
  | none =>
    rw [hres] at h
    split_ifs at h
    · cases h
    · obtain ⟨r, hr, rfl⟩ := mem_map.mp h
      obtain ⟨hr, hshows⟩ := mem_filter.mp hr
      obtain ⟨hpath, hget⟩ := of_mem_filterMap hr
      exact ⟨r, rfl, (mem_filter.mp hpath).1, hget, hshows⟩

/-! ### Each way of reading -/

variable (a t) in
/-- The container of an item lets the user read its items. -/
def Readable (item : PropFindItem) : Prop := ∃ k, item.parentId = some k ∧ Acl.readItems ∈ a.resources.containerAcl t k

theorem readable_get (hmember : t.isMember a.accountId = false) {d : PropFindItem × Content}
    (h : handleGetRequest a t resource = .ok d) : Readable a t d.1 := by
  have hbitmap : bitmap [Acl.readItems] = {.readItems} := by decide
  unfold handleGetRequest at h
  cases resource with
  | none => cases h
  | some name =>
    dsimp only at h
    cases hpath : a.resources.byPath name with
    | none =>
      rw [hpath] at h
      cases h
    | some r =>
      rw [hpath, hmember, hbitmap] at h
      dsimp only at h
      by_cases hcontainer : r.2.isContainer = true
      · rw [if_pos hcontainer] at h
        cases h
      · rw [if_neg hcontainer] at h
        cases haccess : r.1.parentId.any fun parentId => a.resources.hasAccessToContainer t parentId {.readItems} with
        | false =>
          rw [haccess] at h
          cases h
        | true =>
          obtain ⟨k, hk, haccess'⟩ := any_iff.mp haccess
          rw [haccess] at h
          cases harchive : a.archives false r.2.documentId with
          | none =>
            rw [harchive] at h
            cases h
          | some content =>
            rw [harchive] at h
            obtain rfl := Except.ok.inj h
            exact ⟨k, hk, containerAcl_of_hasAccess haccess'⟩

section

variable {s : Archives} {basePath : String} (ha : a.resources = buildCalcard basePath s)
include ha

theorem readable_or_hidden (hpath : r.1 ∈ a.resources.paths)
    (hres : a.resources.resources[r.1.resourceIdx]? = some r.2) (hitem : r.2.isContainer = false)
    (hstored : (a.archives false r.2.documentId).isSome = true) :
    ∃ k names, r.1.parentId = some k ∧ r.2.childNames = some names ∧
      (Acl.readItems ∈ a.resources.containerAcl t k ∨ Hidden a t r.1 r.2 k) := by
  rcases path_cases (ha ▸ hpath) (ha ▸ hres) with ⟨hcontainer, -⟩ | ⟨-, k, names, hk, hnames, -⟩
  · rw [hitem] at hcontainer
    cases hcontainer
  · by_cases hright : Acl.readItems ∈ a.resources.containerAcl t k
    · exact ⟨k, names, hk, hnames, .inl hright⟩
    · exact ⟨k, names, hk, hnames, .inr ⟨hpath, hres, hitem, hstored, hk, hright⟩⟩

theorem eq_of_cached {r r' : DavResource}
    (hr : r ∈ a.resources.resources) (hr' : r' ∈ a.resources.resources) (hcontainer : r.isContainer = r'.isContainer)
    (hid : r.documentId = r'.documentId) : r = r' := by
  rw [ha] at hr hr'
  exact eq_of_documentId hr hr' hcontainer hid

theorem exists_name_of_mem_linkedTo {r : DavResource} (hr : r ∈ a.resources.resources)
    (hitem : r.isContainer = false) (h : r.documentId ∈ linkedTo a.resources containers) :
    ∃ names, r.childNames = some names ∧ ∃ name ∈ names, name.parentId ∈ containers := by
  obtain ⟨r', hr', hid⟩ := mem_map.mp (mem_toFinset.mp h)
  obtain ⟨hr', hnames⟩ := mem_filter.mp hr'
  obtain ⟨names, hnames, hany⟩ := any_iff.mp hnames
  obtain ⟨name, hname, hmem⟩ := any_eq_true.mp hany
  have hitem' : r'.isContainer = false := by
    rw [ha] at hr'
    exact isContainer_of_childNames hr' hnames
  obtain rfl := eq_of_cached ha hr' hr (hitem'.trans hitem.symm) hid
  exact ⟨names, hnames, name, hname, of_decide_eq_true hmem⟩

theorem of_mem_sharedItems
    {rights : List Acl} {matchAny : Bool} {r : DavResource} (hr : r ∈ a.resources.resources) (hitem : r.isContainer = false)
    (h : r.documentId ∈ a.resources.sharedItems t rights matchAny) :
    r.documentId ∈ a.resources.sharedContainers t rights matchAny ∨ ∃ names, r.childNames = some names ∧
      ∃ name ∈ names, name.parentId ∈ a.resources.sharedContainers t rights matchAny := by
  unfold DavResources.sharedItems at h
  dsimp only at h
  split_ifs at h
  · rcases Finset.mem_union.mp h with h | h
    · obtain ⟨r', hr', hid⟩ := mem_map.mp (mem_toFinset.mp h)
      have hshared := (Bool.and_eq_true_iff.mp (mem_filter.mp hr').2).2
      exact .inl (hid ▸ of_decide_eq_true hshared)
    · right
      obtain ⟨path, hpath, hid⟩ := List.mem_filterMap.1 (mem_toFinset.mp h)
      split_ifs at hid with hparent
      obtain ⟨k, hk, hmem⟩ := any_iff.mp hparent
      obtain ⟨r', hres, hid⟩ := Option.map_eq_some_iff.mp hid
      rcases path_cases (ha ▸ hpath) (ha ▸ hres) with ⟨-, hnone⟩ | ⟨hitem', k', names, hk', hnames, name, hname, hparent⟩
      · rw [hk] at hnone
        cases hnone
      · obtain rfl := Option.some.inj (hk.symm.trans hk')
        obtain rfl := eq_of_cached ha (mem_of_getElem? hres) hr (hitem'.trans hitem.symm) hid
        exact ⟨names, hnames, name, hname, hparent ▸ of_decide_eq_true hmem⟩
  · exact .inl h

theorem readable_propfind (hmember : t.isMember a.accountId = false)
    (hsafe : Unrevealed a t) {query : DavQuery} :
    Post (fun answer : Answer Content => disclosed answer.responses = [] ∧ ∀ item ∈ answer.items, item.isContainer = false →
      (a.archives item.isContainer item.documentId).isSome = true → Readable a t item) (fun _ => True)
      (get a t true limit query) := by
  have hdisplayed : displayed a t true = ⟨some (a.resources.sharedContainers t [.readItems] true),
      some (linkedTo a.resources (a.resources.sharedContainers t [.readItems] true))⟩ := by
    unfold displayed
    rw [hmember]
    rfl
  -- an item that is shown is linked to a shared container
  have hlisted {d : Display} (hd : ∀ r : DavPath × DavResource, r.2.isContainer = false → d.shows true r = true →
      r.2.documentId ∈ linkedTo a.resources (a.resources.sharedContainers t [.readItems] true)) {item : PropFindItem}
      (hlisted : item ∈ listed a true query d) (hitem : item.isContainer = false)
      (hstored : (a.archives item.isContainer item.documentId).isSome = true) : Readable a t item := by
    obtain ⟨r, rfl, hpath, hres, hshows⟩ := of_mem_listed hlisted
    have hitem : r.2.isContainer = false := hitem
    have hstored : (a.archives r.2.isContainer r.2.documentId).isSome = true := hstored
    rw [hitem] at hstored
    obtain ⟨k, names, hk, hnames, hright | hhidden⟩ := readable_or_hidden (t := t) ha hpath hres hitem hstored
    · exact ⟨k, hk, hright⟩
    · obtain ⟨names', hnames', name, hname, hmem⟩ :=
        exists_name_of_mem_linkedTo ha (mem_of_getElem? hres) hitem (hd r hitem hshows)
      exact absurd ((mem_acl (by decide)).mp hmem) (hsafe.links _ _ _ hhidden names' hnames' name hname)
  have hgone (vanished : List String) : disclosed (vanished.map (Response.gone : String → Response Content)) = [] := by
    refine filterMap_eq_nil_iff.mpr fun response hresponse => ?_
    obtain ⟨href, -, rfl⟩ := mem_map.mp hresponse
    rfl
  unfold get
  rw [hdisplayed]
  cases query.syncType with
  | none => exact ⟨rfl, fun item => hlisted fun r hitem hshows => (shows_item hitem).mp hshows⟩
  | initial => exact ⟨rfl, fun item => hlisted fun r hitem hshows => (shows_item hitem).mp hshows⟩
  | «from» token => exact shows_of_changedSince.map fun changed hchanged => ⟨hgone _, fun item => hlisted hchanged⟩

end

theorem multiget_ids (hmember : t.isMember a.accountId = false) :
    (if t.isMember a.accountId = true then none
      else some (a.resources.sharedContainers t [if (!true) = true then .readItems else .read] true)) =
        some (a.resources.sharedContainers t [Acl.read] true) := by
  rw [hmember]
  rfl

theorem multigetItem_inl {href : String} {response : Response Content}
    (h : multigetItem a t true href resource = .inl response) : ∃ code, response = .status href code := by
  unfold multigetItem at h
  generalize (if t.isMember a.accountId = true then none else some _) = documentIds at h
  cases hpath : resource.bind a.resources.byPath with
  | none =>
    rw [hpath] at h
    exact ⟨_, (Sum.inl.inj h).symm⟩
  | some r =>
    rw [hpath] at h
    dsimp only at h
    split_ifs at h
    · exact ⟨_, (Sum.inl.inj h).symm⟩
    · exact ⟨_, (Sum.inl.inj h).symm⟩

theorem multiget_responses (hrefs : List (String × Option String)) :
    disclosed (multiget t (fun _ => a) true (hrefs.map fun href => ⟨href.1, .ok (a.accountId, href.2)⟩)).responses = [] := by
  refine filterMap_eq_nil_iff.mpr fun response hresponse => ?_
  obtain ⟨result, hresult, hleft⟩ := List.mem_filterMap.1 hresponse
  obtain ⟨href, hhref, rfl⟩ := mem_map.mp hresult
  obtain ⟨href, -, rfl⟩ := mem_map.mp hhref
  obtain ⟨code, rfl⟩ := multigetItem_inl (Sum.getLeft?_eq_some_iff.mp hleft)
  rfl

section

variable {s : Archives} {basePath : String} (ha : a.resources = buildCalcard basePath s)
  (hmember : t.isMember a.accountId = false) (hsafe : Unrevealed a t)
include ha hmember hsafe

theorem readable_multiget {href : String} (h : multigetItem a t true href resource = .inr item)
    (hstored : (a.archives item.isContainer item.documentId).isSome = true) : Readable a t item := by
  unfold multigetItem at h
  rw [multiget_ids hmember] at h
  cases hpath : resource.bind a.resources.byPath with
  | none =>
    rw [hpath] at h
    cases h
  | some r =>
    rw [hpath] at h
    obtain ⟨name, -, hname⟩ := Option.bind_eq_some_iff.mp hpath
    obtain ⟨hmem, hres⟩ := byPath_eq_some hname
    dsimp only at h
    split_ifs at h with hcontainer hshared
    · obtain rfl := Sum.inr.inj h
      have hitem : r.2.isContainer = false := by simpa using hcontainer
      have hstored : (a.archives r.2.isContainer r.2.documentId).isSome = true := hstored
      rw [hitem] at hstored
      obtain ⟨k, names, hk, -, hright | hhidden⟩ := readable_or_hidden (t := t) ha hmem hres hitem hstored
      · exact ⟨k, hk, hright⟩
      · obtain ⟨k', hk', hmem⟩ := any_iff.mp hshared
        obtain rfl := Option.some.inj (hk.symm.trans hk')
        exact absurd ((mem_acl (by decide)).mp (of_decide_eq_true hmem)) (hsafe.read _ _ _ hhidden)

theorem readable_query {filterRange : Option TimeRange} {p : DavResource}
    (hpath : path ∈ a.resources.paths) (hp : a.resources.resources[path.resourceIdx]? = some p)
    (hcontainer : p.isContainer = true) (h : item ∈ queryItems a t filterRange p.documentId)
    (hstored : (a.archives item.isContainer item.documentId).isSome = true) : Readable a t item := by
  unfold queryItems at h
  rw [hmember] at h
  obtain ⟨r, hr, rfl⟩ := mem_map.mp h
  obtain ⟨hr, hshared⟩ := mem_filter.mp hr
  obtain ⟨hrpath, hres⟩ := of_mem_filterMap hr
  obtain ⟨hrpath, hparent⟩ := mem_filter.mp hrpath
  have hk : r.1.parentId = some p.documentId := of_decide_eq_true hparent
  have hitem : r.2.isContainer = false := by
    rcases path_cases (ha ▸ hrpath) (ha ▸ hres) with ⟨-, hnone⟩ | ⟨hitem, -⟩
    · rw [hk] at hnone
      cases hnone
    · exact hitem
  have hstored : (a.archives r.2.isContainer r.2.documentId).isSome = true := hstored
  rw [hitem] at hstored
  obtain ⟨k, names, hk', hnames, hright | hhidden⟩ := readable_or_hidden (t := t) ha hrpath hres hitem hstored
  · exact ⟨k, hk', hright⟩
  · obtain rfl := Option.some.inj (hk.symm.trans hk')
    have hid : r.2.documentId ∈ a.resources.sharedItems t [.readItems] false :=
      of_decide_eq_true (Bool.and_eq_true_iff.mp hshared).1
    rcases of_mem_sharedItems ha (mem_of_getElem? hres) hitem hid with hmem | ⟨names', hnames', name, hname, hmem⟩
    · exact absurd ((mem_acl (by decide)).mp hmem) (hsafe.ids _ _ _ hhidden ⟨path, hpath, p, hp, hcontainer, rfl⟩)
    · exact absurd ((mem_acl (by decide)).mp hmem) (hsafe.links _ _ _ hhidden names' hnames' name hname)

end

/-! ### What is found -/

variable {s : Archives} {basePath : String}

theorem byPath_path (ha : a.resources = buildCalcard basePath s) (hpath : path ∈ a.resources.paths)
    {r : DavResource} (hres : a.resources.resources[path.resourceIdx]? = some r) :
    a.resources.byPath path.path = some (path, r) := by
  have hfind : (a.resources.paths.find? fun p => p.path = path.path) = some path := by
    rw [ha] at hpath ⊢
    exact find_path hpath
  unfold DavResources.byPath
  rw [hfind, Option.bind_some, hres]
  rfl

theorem Hidden.archive {r : DavResource} (h : Hidden a t path r k) :
    ∃ content, a.archives (a.item (path, r)).isContainer (a.item (path, r)).documentId = some content := by
  have hitem : (a.item (path, r)).isContainer = false := h.item
  rw [hitem]
  exact Option.isSome_iff_exists.mp h.stored

section

variable (ha : a.resources = buildCalcard basePath s) (hmember : t.isMember a.accountId = false) {r : DavResource}
  (h : Hidden a t path r k)
include ha hmember h

theorem disclosed_multiget
    (hread : Acl.read ∈ a.resources.containerAcl t k) :
    ∃ content, (a.item (path, r), content) ∈ a.read t 1 (.multiget "" [("", some path.path)]) := by
  obtain ⟨content, hcontent⟩ := h.archive
  have hitem : multigetItem a t true "" (some path.path) = .inr (a.item (path, r)) := by
    unfold multigetItem
    rw [multiget_ids hmember, Option.bind_some, byPath_path ha h.found h.resource]
    dsimp only
    rw [h.item, h.container]
    simpa using (mem_acl (by decide)).mpr hread
  have hitems : (multiget t (fun _ => a) true [⟨"", .ok (a.accountId, some path.path)⟩]).items =
      [] ++ a.item (path, r) :: [] := by
    unfold multiget
    simp only [map_cons, hitem]
    rfl
  exact ⟨content, mem_handleDavQuery hcontent rfl hitems nofun⟩

theorem disclosed_propfind
    {names : List DavName} (hnames : r.childNames = some names) {name : DavName}
    (hname : name ∈ names) (hread : Acl.readItems ∈ a.resources.containerAcl t name.parentId) :
    ∃ content, (a.item (path, r), content) ∈ a.read t 1 (.propfind ⟨"", some path.path, 0, false, .none, none⟩) := by
  obtain ⟨content, hcontent⟩ := h.archive
  have hlinked : r.documentId ∈ linkedTo a.resources (a.resources.sharedContainers t [.readItems] true) := by
    refine mem_toFinset.mpr (mem_map_of_mem (mem_filter.mpr ⟨mem_of_getElem? h.resource, ?_⟩))
    refine any_iff.mpr ⟨names, hnames, any_eq_true.mpr ⟨name, hname, ?_⟩⟩
    exact decide_eq_true ((mem_acl (by decide)).mpr hread)
  have hshows : (displayed a t true).shows true (path, r) = true := by
    unfold displayed
    rw [hmember]
    exact (shows_item h.item).mpr hlinked
  have hmem : a.item (path, r) ∈ listed a true ⟨"", some path.path, 0, false, .none, none⟩ (displayed a t true) := by
    refine mem_map_of_mem (mem_filter.mpr ⟨?_, by rw [hshows]; rfl⟩)
    exact mem_filterMap (mem_filter.mpr ⟨h.found, by simp⟩) h.resource
  -- no other path is that one
  have honly : ∀ item ∈ listed a true ⟨"", some path.path, 0, false, .none, none⟩ (displayed a t true),
      item = a.item (path, r) := by
    intro item hitem
    obtain ⟨r', hr', rfl⟩ := mem_map.mp hitem
    obtain ⟨hpath', hres'⟩ := of_mem_filterMap (mem_filter.mp hr').1
    obtain ⟨hpath', hname'⟩ := mem_filter.mp hpath'
    have hsame : r'.1 = path := by
      refine eq_of_path (ha ▸ hpath') (ha ▸ h.found) ?_
      simpa using hname'
    rw [hsame, h.resource] at hres'
    rw [← hsame, Option.some.inj hres']
  obtain ⟨item, items, hlist⟩ := exists_cons_of_ne_nil (ne_nil_of_mem hmem)
  have hitems : listed a true ⟨"", some path.path, 0, false, .none, none⟩ (displayed a t true) =
      [] ++ a.item (path, r) :: items := by
    rw [hlist, honly item (hlist ▸ mem_cons_self), nil_append]
  refine ⟨content, ?_⟩
  exact mem_handleDavQuery hcontent rfl hitems nofun

theorem disclosed_query
    {path' : DavPath} {p : DavResource} (hpath' : path' ∈ a.resources.paths)
    (hp : a.resources.resources[path'.resourceIdx]? = some p) (hcontainer : p.isContainer = true)
    (hk : p.documentId = k) (hread : Acl.readItems ∈ a.resources.containerAcl t r.documentId) :
    ∃ content, (a.item (path, r), content) ∈
      a.read t 1 (.query "" none none (fun item _ => item = a.item (path, r)) (some path'.path)) := by
  obtain ⟨content, hcontent⟩ := h.archive
  have hshared : r.documentId ∈ a.resources.sharedItems t [.readItems] false := by
    have hmem : r.documentId ∈ a.resources.sharedContainers t [.readItems] false := (mem_acl (by decide)).mpr hread
    unfold DavResources.sharedItems
    rw [if_pos (Finset.ne_empty_of_mem hmem)]
    refine Finset.mem_union_left _ (mem_toFinset.mpr (mem_map_of_mem (mem_filter.mpr ?_)))
    exact ⟨mem_of_getElem? h.resource, by simp [h.item, hmem]⟩
  have hmem : a.item (path, r) ∈ queryItems a t none p.documentId := by
    unfold queryItems
    rw [hmember]
    refine mem_map_of_mem (mem_filter.mpr ⟨?_, ?_⟩)
    · exact mem_filterMap (mem_filter.mpr ⟨h.found, by simp [h.container, hk]⟩) h.resource
    · simpa using hshared
  obtain ⟨before, after, hsplit, hbefore⟩ := eq_append_cons_of_mem hmem
  refine ⟨content, ?_⟩
  unfold Account.read handleQueryRequest
  dsimp only
  rw [byPath_path ha hpath' hp]
  dsimp only
  rw [hcontainer]
  refine mem_handleDavQuery hcontent (by simp) hsplit fun i hi c => ?_
  exact decide_eq_false fun heq => hbefore (heq ▸ hi)

end

/-- **The answers are discreet** exactly when nothing reveals an item where the user may not read the items. -/
theorem discreet_iff (ha : a.resources = buildCalcard basePath s) (hmember : t.isMember a.accountId = false) :
    Discreet a t ↔ Unrevealed a t := by
  constructor
  · intro h
    have hreadable {path : DavPath} {r : DavResource} {k : ℕ} (hhidden : Hidden a t path r k) {maxResults : ℕ}
        {request : ReadRequest Content} (hd : ∃ content, (a.item (path, r), content) ∈ a.read t maxResults request) :
        False := by
      obtain ⟨content, hd⟩ := hd
      obtain ⟨k', hk', hright⟩ := h maxResults request _ hd hhidden.item
      obtain rfl := Option.some.inj (hhidden.container.symm.trans hk')
      exact hhidden.right hright
    refine ⟨fun path r k hhidden hread => ?_, fun path r k hhidden names hnames name hname hread => ?_,
      fun path r k hhidden ⟨path', hpath', p, hp, hcontainer, hk⟩ hread => ?_⟩
    · exact hreadable hhidden (disclosed_multiget ha hmember hhidden hread)
    · exact hreadable hhidden (disclosed_propfind ha hmember hhidden hnames hname hread)
    · exact hreadable hhidden (disclosed_query ha hmember hhidden hpath' hp hcontainer hk hread)
  · intro hsafe maxResults request d hd hitem
    have hstored {items : List PropFindItem} (h : d.1 ∈ items ∧ a.archives d.1.isContainer d.1.documentId = some d.2) :
        (a.archives d.1.isContainer d.1.documentId).isSome = true := by rw [h.2]; rfl
    unfold Account.read at hd
    cases request with
    | get resource =>
      dsimp only at hd
      cases hget : handleGetRequest a t resource with
      | error e =>
        rw [hget] at hd
        cases hd
      | ok r =>
        rw [hget] at hd
        obtain rfl := mem_singleton.mp hd
        exact readable_get hmember hget
    | propfind query =>
      dsimp only at hd
      cases hget : get a t true (min (query.limit.getD (2 ^ 32 - 1)) maxResults) query with
      | error e =>
        rw [hget] at hd
        cases hd
      | ok answer =>
        rw [hget] at hd
        obtain ⟨hresponses, hitems⟩ := (readable_propfind ha hmember hsafe).of_eq_ok hget
        have hmem := of_mem_handleDavQuery hresponses hd
        exact hitems d.1 hmem.1 hitem (hstored hmem)
    | multiget uri hrefs =>
      have hmem := of_mem_handleDavQuery (multiget_responses _) hd
      obtain ⟨result, hresult, hright⟩ := List.mem_filterMap.1 hmem.1
      obtain ⟨href, hhref, rfl⟩ := mem_map.mp hresult
      obtain ⟨href, -, rfl⟩ := mem_map.mp hhref
      exact readable_multiget ha hmember hsafe (Sum.getRight?_eq_some_iff.mp hright) (hstored hmem)
    | query uri limit filterRange keeps resource =>
      dsimp only at hd
      cases hquery : handleQueryRequest a t uri maxResults limit filterRange keeps resource with
      | error e =>
        rw [hquery] at hd
        cases hd
      | ok responses =>
        rw [hquery] at hd
        unfold handleQueryRequest at hquery
        cases resource with
        | none => cases hquery
        | some name =>
          dsimp only at hquery
          cases hpath : a.resources.byPath name with
          | none =>
            rw [hpath] at hquery
            obtain rfl := Except.ok.inj hquery
            cases hd
          | some r =>
            rw [hpath] at hquery
            dsimp only at hquery
            split_ifs at hquery with hcontainer
            · obtain rfl := Except.ok.inj hquery
              obtain ⟨hrpath, hres⟩ := byPath_eq_some hpath
              have hmem := of_mem_handleDavQuery rfl hd
              exact readable_query ha hmember hsafe hrpath hres (by simpa using hcontainer) hmem.1 (hstored hmem)

end

/-! ## A calendar that may be read, and its events not -/

/-- The calendar six with an event, beside the calendar five whose events the user seven may read. -/
def jane (grants : List Acl) : Archives where
  isCalendar := true
  containers := (Std.TreeMap.empty.insert 5 ⟨"work", [⟨7, [.readItems]⟩]⟩).insert 6 ⟨"home", [⟨7, grants⟩]⟩
  items := Std.TreeMap.empty.insert 0 ⟨[⟨"event", 6⟩], 0, 0⟩

def janesAccount (grants : List Acl) : Account Unit where
  accountId := 1
  resources := buildCalcard "/dav/cal/jane/" (jane grants)
  highestChangeId := 0
  changes := []
  vanished := []
  archives _ _ := some ()

theorem hidden_jane {grants : List Acl} {path : DavPath} {r : DavResource} {k : ℕ}
    (h : Hidden (janesAccount grants) guest path r k) : k = 6 ∧ r = ⟨0, .calendarEvent [⟨"event", 6⟩] 0 0⟩ := by
  have hpaths : (janesAccount grants).resources.paths =
      [⟨"work", none, 1, 0⟩, ⟨"home", none, 1, 1⟩, ⟨"home/event", some 6, 0, 2⟩] := rfl
  have hpath := h.found
  have hk := h.container
  have hres := h.resource
  rw [hpaths] at hpath
  rcases mem_cons.mp hpath with rfl | hpath
  · cases hk
  · rcases mem_cons.mp hpath with rfl | hpath
    · cases hk
    · obtain rfl := mem_singleton.mp hpath
      exact ⟨(Option.some.inj hk).symm, (Option.some.inj hres).symm⟩

theorem discreet_private : Discreet (janesAccount [.schedulingReadFreeBusy]) guest := by
  have hresources : (janesAccount [.schedulingReadFreeBusy]).resources =
      buildCalcard "/dav/cal/jane/" (jane [.schedulingReadFreeBusy]) := rfl
  refine (discreet_iff hresources (by decide)).mpr
    ⟨fun path r k h => ?_, fun path r k h names hnames name hname => ?_, fun path r k h _ => ?_⟩
  · obtain ⟨rfl, rfl⟩ := hidden_jane h
    decide
  · obtain ⟨rfl, rfl⟩ := hidden_jane h
    obtain rfl := Option.some.inj hnames
    obtain rfl := mem_singleton.mp hname
    decide
  · obtain ⟨rfl, rfl⟩ := hidden_jane h
    decide

/-- The event of a calendar that the user may read, but not its events, in a multiget. -/
theorem discreet_multiget : ¬ Discreet (janesAccount [.read]) guest := by
  intro h
  have hread : (janesAccount [.read]).read guest 1 (.multiget "" [("", some "home/event")]) =
      [(⟨"/dav/cal/jane/home/event", 1, 0, some 6, false⟩, ())] := by decide
  obtain ⟨k, hk, hright⟩ := h 1 _ _ (hread ▸ mem_singleton_self _) rfl
  obtain rfl := Option.some.inj hk
  exact absurd hright (by decide)

end MailServer.Dav
