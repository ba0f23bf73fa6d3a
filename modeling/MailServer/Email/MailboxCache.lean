import MailServer.Email.Mailbox
import MailServer.Lib.Address
import MailServer.Lib.Indexed
import MailServer.Utils.Topological

/-!
# The paths of mailboxes (`email/src/cache/mailbox.rs`)

The cache of an account has all its mailboxes, each with the path that IMAP clients see.  It is built from the archives
or from an older cache and what has changed since; then the paths are made, those of parents first.

* `buildTree`: the paths.  `updateMailboxCache`, `fullMailboxCacheBuild`: the two ways to build a cache.
* `Built`: what may be in the cache when the archives are a given map.  `Announced`: all such caches have the same paths,
  and no two of one are equal up to the case of ASCII letters.
* `announced_iff`: which mailboxes that holds of.
-/

namespace MailServer.Email.Cache

open MailServer.Common MailServer.Types MailServer.Utils MailServer.Lib List Option TopologicalSort

def u32Max : ℕ := 4294967295

structure MailboxCache where
  documentId : ℕ
  name : String
  path : String
  role : SpecialUse
  parentId : ℕ
  sortOrder : UInt32
  subscribers : List UInt32
  acls : List AclGrant

open MailboxCache

namespace MailboxCache

variable (m : MailboxCache)

/-- `parent_id()`. -/
def parent : Option ℕ := if m.parentId ≠ u32Max then some m.parentId else none

def isRoot : Bool := m.parentId == u32Max

end MailboxCache

structure MailboxesCacheBuilder where
  index : HashMap ℕ ℕ
  items : List MailboxCache

def toAsciiLowercase (s : String) : List Char := s.toList.map Char.toLower

def eqIgnoreAsciiCase (s t : String) : Bool := toAsciiLowercase s == toAsciiLowercase t

namespace MailboxesCacheBuilder

variable (cache : MailboxesCacheBuilder)

def byId (id : ℕ) : Option MailboxCache := cache.index[id]?.bind fun idx => cache.items[idx]?

def mailboxInsert (item : MailboxCache) : MailboxesCacheBuilder :=
  match cache.index[item.documentId]? with
  | some idx => { cache with items := cache.items.set idx item }
  | none =>
    { index := cache.index.insert item.documentId cache.items.length
      items := cache.items ++ [item] }

/-- The item of an archive, as `insert_item` makes it. -/
def itemOf (documentId : ℕ) (mailbox : Mailbox) : MailboxCache where
  documentId := documentId
  name := mailbox.name
  path := ""
  role := mailbox.role
  parentId := if mailbox.parentId > 0 then mailbox.parentId - 1 else u32Max
  sortOrder := mailbox.sortOrder.getD 4294967295
  subscribers := mailbox.subscribers
  acls := mailbox.acls

def insertItem (documentId : ℕ) (mailbox : Mailbox) : MailboxesCacheBuilder :=
  cache.mailboxInsert (itemOf documentId mailbox)

/-- What a path ends with. -/
def label (idx : ℕ) (mailbox : MailboxCache) : String :=
  if mailbox.role = .inbox then "INBOX"
  else if mailbox.isRoot && eqIgnoreAsciiCase mailbox.name "inbox" then "INBOX " ++ toString (idx + 1)
  else mailbox.name

/-- What is inserted into the sort for a mailbox. -/
def edge (mailbox : MailboxCache) : ℕ × ℕ :=
  (if mailbox.parentId = u32Max then 0 else mailbox.parentId + 1, mailbox.documentId + 1)

/-- A new path, for the mailbox that is `by_id_mut`. -/
def setPath (id : ℕ) (path : String) : MailboxesCacheBuilder :=
  match cache.index[id]? with
  | some idx => { cache with items := cache.items.modify idx fun m => { m with path } }
  | none => cache

/-- The path of the parent comes before that of the mailbox. -/
def attach (folderId : ℕ) : MailboxesCacheBuilder :=
  if folderId ≠ 0 then
    let folderId := folderId - 1
    match (cache.byId folderId).bind fun folder =>
      folder.parent.bind fun parentId => (cache.byId parentId).map fun parent => (folder.path, parent.path) with
    | some (path, parentPath) => cache.setPath folderId (parentPath ++ "/" ++ path)
    | none => cache
  else cache

def buildTree : MailboxesCacheBuilder :=
  let sort := ofEdges (cache.items.map edge)
  let items := cache.items.mapIdx fun idx mailbox => { mailbox with path := label idx mailbox }
  sort.toList.foldl attach { cache with items }

def empty : MailboxesCacheBuilder := ⟨∅, []⟩

end MailboxesCacheBuilder

open MailboxesCacheBuilder

/-- `update_mailbox_cache`, with the changed ids in the order of the hash map and whether they are updates. -/
def updateMailboxCache (mailboxes : HashMap ℕ Mailbox) (changedIds : List (ℕ × Bool)) (storeCache : MailboxesCacheBuilder) :
    MailboxesCacheBuilder :=
  let newCache := changedIds.foldl (fun cache e =>
    match mailboxes[e.1]? with
    | some mailbox => if e.2 then cache.insertItem e.1 mailbox else cache
    | none => cache) empty
  buildTree <| storeCache.items.foldl (fun cache item =>
    if (changedIds.map Prod.fst).contains item.documentId then cache else cache.mailboxInsert item) newCache

/-- `full_mailbox_cache_build`, with what `create_system_folders` makes of an account without mailboxes, and the archives
that are there then. -/
def fullMailboxCacheBuild (createSystemFolders : HashMap ℕ Mailbox → HashMap ℕ Mailbox) (mailboxes : HashMap ℕ Mailbox) :
    HashMap ℕ Mailbox × MailboxesCacheBuilder :=
  let build (mailboxes : HashMap ℕ Mailbox) := mailboxes.toList.foldl (fun cache e => cache.insertItem e.1 e.2) empty
  if (build mailboxes).items.isEmpty then
    (createSystemFolders mailboxes, (build (createSystemFolders mailboxes)).buildTree)
  else (mailboxes, (build mailboxes).buildTree)

def mailboxByPath (cache : MailboxesCacheBuilder) (path : String) : Option MailboxCache :=
  cache.items.find? fun m => eqIgnoreAsciiCase m.path path

/-! ## Caches of an account -/

/-- A change of the archives as an update sees it: mailboxes that are not among the changed ids are as they were, and one
that is deleted is no longer there. -/
structure Changed (mailboxes mailboxes' : HashMap ℕ Mailbox) (changedIds : List (ℕ × Bool)) : Prop where
  nodup : (changedIds.map Prod.fst).Nodup
  same : ∀ id, id ∉ changedIds.map Prod.fst → mailboxes'[id]? = mailboxes[id]?
  deleted : ∀ id, (id, false) ∈ changedIds → mailboxes'[id]? = none

/-- The caches that may be there for the archives of an account. -/
inductive Built : HashMap ℕ Mailbox → MailboxesCacheBuilder → Prop
  | full (createSystemFolders : HashMap ℕ Mailbox → HashMap ℕ Mailbox) (mailboxes : HashMap ℕ Mailbox) :
    Built (fullMailboxCacheBuild createSystemFolders mailboxes).1 (fullMailboxCacheBuild createSystemFolders mailboxes).2
  | update {mailboxes mailboxes' : HashMap ℕ Mailbox} {cache : MailboxesCacheBuilder} (changedIds : List (ℕ × Bool)) :
    Built mailboxes cache → Changed mailboxes mailboxes' changedIds →
      Built mailboxes' (updateMailboxCache mailboxes' changedIds cache)

/-- Every cache gives the mailboxes the same paths, and a path is that of one mailbox, which it is resolved to. -/
def Announced (mailboxes : HashMap ℕ Mailbox) : Prop :=
  (∀ cache cache', Built mailboxes cache → Built mailboxes cache' →
    ∀ id, (cache.byId id).map path = (cache'.byId id).map path) ∧
  ∀ cache, Built mailboxes cache →
    (∀ m ∈ cache.items, ∀ m' ∈ cache.items, eqIgnoreAsciiCase m.path m'.path = true → m = m') ∧
      ∀ m ∈ cache.items, mailboxByPath cache m.path = some m

/-! ## Spelling -/

/-- The pieces of a path between the separators, in lower case. -/
def segments (path : String) : List (List Char) := (toAsciiLowercase path).splitOn '/'

theorem segments_ne_nil (path : String) : segments path ≠ [] := splitOn_ne_nil _ _

theorem segments_join (parent path : String) : segments (parent ++ "/" ++ path) = segments parent ++ segments path := by
  have hchars : toAsciiLowercase (parent ++ "/" ++ path) =
      toAsciiLowercase parent ++ '/' :: toAsciiLowercase path := by
    unfold toAsciiLowercase
    rw [String.toList_append, String.toList_append, map_append, map_append, append_assoc]
    rfl
  unfold segments
  rw [hchars, splitOn_append_cons_self]

theorem eqIgnoreAsciiCase_iff {path path' : String} :
    eqIgnoreAsciiCase path path' = true ↔ segments path = segments path' := by
  have hback (path : String) : ['/'].intercalate ((toAsciiLowercase path).splitOn '/') = toAsciiLowercase path :=
    intercalate_splitOn '/'
  unfold eqIgnoreAsciiCase segments
  rw [beq_iff_eq]
  constructor
  · exact fun h => by rw [h]
  · intro h
    rw [← hback path, h, hback]

/-! ## The index -/

section

variable {cache : MailboxesCacheBuilder}

/-- The index has the place of every item. -/
def Indexed (cache : MailboxesCacheBuilder) : Prop :=
  ∀ id i, cache.index[id]? = some i ↔ ∃ m : MailboxCache, cache.items[i]? = some m ∧ m.documentId = id

theorem indexed_iff : Indexed cache ↔ Lib.Indexed documentId (cache.index[·]?) cache.items := by
  simp only [Indexed, Lib.Indexed, map_eq_some_iff]

theorem Indexed.byId_eq_some (h : Indexed cache) {id : ℕ} {m : MailboxCache} :
    cache.byId id = some m ↔ m ∈ cache.items ∧ m.documentId = id :=
  (indexed_iff.1 h).itemAt_eq_some

theorem Indexed.eq_of_id (h : Indexed cache) {m m' : MailboxCache} (hm : m ∈ cache.items) (hm' : m' ∈ cache.items)
    (hid : m.documentId = m'.documentId) : m = m' := by
  have hfirst := h.byId_eq_some.2 ⟨hm, hid⟩
  exact some.inj (hfirst.symm.trans (h.byId_eq_some.2 ⟨hm', rfl⟩))

theorem Indexed.insert (h : Indexed cache) {item : MailboxCache} (hnew : item.documentId ∉ cache.items.map (·.documentId)) :
    (cache.mailboxInsert item).items = cache.items ++ [item] ∧ Indexed (cache.mailboxInsert item) := by
  have hnone : cache.index[item.documentId]? = none := by
    by_contra hsome
    obtain ⟨i, hi⟩ := ne_none_iff_exists'.mp hsome
    obtain ⟨m, hm, hid⟩ := (h _ i).mp hi
    exact hnew (List.mem_map.mpr ⟨m, mem_of_getElem? hm, hid⟩)
  unfold mailboxInsert
  rw [hnone]
  exact ⟨rfl, indexed_iff.2 ((indexed_iff.1 h).append hnone fun k => HashMap.getElem?_insert).1⟩

theorem indexed_empty : Indexed empty := indexed_iff.2 indexed_nil

/-- The cache of items with different ids. -/
def ofItems (items : List MailboxCache) : MailboxesCacheBuilder := items.foldl mailboxInsert empty

theorem ofItems_spec {items : List MailboxCache} (hnodup : (items.map (·.documentId)).Nodup) :
    (ofItems items).items = items ∧ Indexed (ofItems items) := by
  induction items using List.reverseRecOn with
  | nil => exact ⟨rfl, indexed_empty⟩
  | append_singleton items item ih =>
    rw [map_append, nodup_append] at hnodup
    obtain ⟨hitems, hindexed⟩ := ih hnodup.1
    have hnew : item.documentId ∉ (ofItems items).items.map (·.documentId) := by
      rw [hitems]
      exact fun hmem => hnodup.2.2 _ hmem _ (mem_singleton_self _) rfl
    have hinsert := hindexed.insert hnew
    rw [hitems] at hinsert
    unfold ofItems
    rw [foldl_append]
    exact hinsert

end

/-! ## The tree -/

section

variable {cache : MailboxesCacheBuilder}

/-- A mailbox without its path. -/
def MailboxCache.forget (m : MailboxCache) : MailboxCache := { m with path := "" }

@[simp] theorem forget_setPath (cache : MailboxesCacheBuilder) (id : ℕ) (path : String) :
    (cache.setPath id path).items.map forget = cache.items.map forget := by
  unfold setPath
  cases cache.index[id]? with
  | none => rfl
  | some idx =>
    apply ext_getElem?
    intro i
    rw [getElem?_map, getElem?_map, getElem?_modify]
    cases cache.items[i]? with
    | none => rfl
    | some m =>
      split_ifs <;> rfl

@[simp] theorem index_setPath (cache : MailboxesCacheBuilder) (id : ℕ) (path : String) :
    (cache.setPath id path).index = cache.index := by
  unfold setPath
  cases cache.index[id]? <;> rfl

theorem attach_cases (cache : MailboxesCacheBuilder) (folderId : ℕ) :
    cache.attach folderId = cache ∨ ∃ path, cache.attach folderId = cache.setPath (folderId - 1) path := by
  unfold MailboxesCacheBuilder.attach
  by_cases hzero : folderId ≠ 0
  · rw [if_pos hzero]
    dsimp only
    split
    · exact .inr ⟨_, rfl⟩
    · exact .inl rfl
  · rw [if_neg hzero]
    exact .inl rfl

theorem forget_foldl_attach (ids : List ℕ) (cache : MailboxesCacheBuilder) :
    (ids.foldl attach cache).items.map forget = cache.items.map forget := by
  induction ids generalizing cache with
  | nil => rfl
  | cons id ids ih =>
    rw [foldl_cons, ih]
    rcases attach_cases cache id with h | ⟨path, h⟩
    · rw [h]
    · rw [h, forget_setPath]

theorem forget_buildTree (cache : MailboxesCacheBuilder) :
    cache.buildTree.items.map forget = cache.items.map forget := by
  unfold buildTree
  rw [forget_foldl_attach]
  apply ext_getElem?
  intro i
  simp only [getElem?_map, getElem?_mapIdx, Option.map_map]
  rfl

variable {cache' : MailboxesCacheBuilder} {m : MailboxCache} {index : HashMap ℕ ℕ}

theorem Indexed.congr (h : Indexed cache) (hindex : cache'.index = cache.index)
    (hitems : cache'.items.map forget = cache.items.map forget) : Indexed cache' := by
  have hids := congrArg (List.map documentId) hitems
  rw [List.map_map, List.map_map] at hids
  rw [indexed_iff] at h ⊢
  intro id i
  rw [hindex, h id i, ← getElem?_map, ← getElem?_map]
  exact iff_of_eq (congrArg (fun l => l[i]? = some id) hids.symm)

theorem Indexed.byId_setPath (h : Indexed cache) {id : ℕ} (hm : cache.byId id = some m)
    (path : String)
    (other : ℕ) : (cache.setPath id path).byId other = if other = id then some { m with path } else cache.byId other := by
  unfold byId at hm ⊢
  obtain ⟨idx, hidx, hmidx⟩ := bind_eq_some_iff.mp hm
  unfold setPath
  rw [hidx]
  split_ifs with hother
  · subst hother
    rw [hidx]
    show (cache.items.modify idx _)[idx]? = _
    rw [getElem?_modify_eq, hmidx]
    rfl
  · cases hi : cache.index[other]? with
    | none => rfl
    | some i =>
      show (cache.items.modify idx _)[i]? = cache.items[i]?
      have hne : idx ≠ i := by
        rintro rfl
        have hplace := indexed_iff.1 h
        exact hother (some.inj (((hplace _ _).mp hi).symm.trans ((hplace _ _).mp hidx)))
      rw [getElem?_modify_ne _ _ hne]

/-- The parent of a mailbox is in the cache. -/
def Closed (cache : MailboxesCacheBuilder) : Prop :=
  ∀ id m p, cache.byId id = some m → m.parent = some p → (cache.byId p).isSome = true

/-- The paths are made of the folders that are done, which come after their parents. -/
structure Attaching (index : HashMap ℕ ℕ) (done : List ℕ) (cache : MailboxesCacheBuilder) : Prop where
  index : cache.index = index
  indexed : Indexed cache
  closed : Closed cache
  waiting : ∀ id i m, cache.index[id]? = some i → cache.byId id = some m → id + 1 ∉ done → m.path = label i m
  root : ∀ id i m, cache.index[id]? = some i → cache.byId id = some m → m.parent = none → m.path = label i m
  child : ∀ id i m p, cache.index[id]? = some i → cache.byId id = some m → id + 1 ∈ done → m.parent = some p →
    p + 1 ∈ done ∧ ∃ parent, cache.byId p = some parent ∧ m.path = parent.path ++ "/" ++ label i m

theorem parent_eq_some {p : ℕ} (h : m.parent = some p) : (edge m).1 = p + 1 := by
  unfold parent at h
  unfold edge
  split_ifs at h with hroot
  obtain rfl := some.inj h
  rw [if_neg hroot]

theorem Attaching.attach {done : List ℕ} {folderId : ℕ} (h : Attaching index done cache)
    (hnot : folderId ∉ done)
    (hpred : ∀ m ∈ cache.items, (edge m).2 = folderId → (edge m).1 ∈ done) :
    Attaching index (folderId :: done) (cache.attach folderId) := by
  -- a folder that is no mailbox, or one at the top, keeps its path
  have hsame (hnone : ∀ m p, cache.byId (folderId - 1) = some m → folderId ≠ 0 → m.parent ≠ some p) :
      Attaching index (folderId :: done) cache := by
    refine ⟨h.index, h.indexed, h.closed, fun id i m hi hm hid => ?_, h.root, fun id i m p hi hm hid hp => ?_⟩
    · exact h.waiting id i m hi hm fun hmem => hid (mem_cons_of_mem _ hmem)
    · rcases mem_cons.mp hid with heq | hid
      · subst heq
        exact absurd hp (hnone m p hm (Nat.succ_ne_zero id))
      · obtain ⟨hdone, hparent⟩ := h.child id i m p hi hm hid hp
        exact ⟨mem_cons_of_mem _ hdone, hparent⟩
  cases folderId with
  | zero => exact hsame fun _ _ _ hne => absurd rfl hne
  | succ id =>
    unfold MailboxesCacheBuilder.attach
    rw [if_pos (Nat.succ_ne_zero id)]
    dsimp only
    rw [Nat.add_sub_cancel]
    cases hm : cache.byId id with
    | none => exact hsame fun m p hsome => absurd (hm.symm.trans hsome) nofun
    | some m =>
      cases hp : m.parent with
      | none =>
        rw [bind_some, hp]
        exact hsame fun m' p hm' _ hp' => by
          obtain rfl := some.inj (hm.symm.trans hm')
          rw [hp] at hp'
          cases hp'
      | some p =>
        obtain ⟨parent, hparent⟩ := isSome_iff_exists.mp (h.closed id m p hm hp)
        obtain ⟨hmem, hid⟩ := h.indexed.byId_eq_some.1 hm
        have hpdone : p + 1 ∈ done := by
          rw [← parent_eq_some hp]
          exact hpred m hmem (congrArg (· + 1) hid)
        have hne : p ≠ id := by rintro rfl; exact hnot hpdone
        simp only [bind_some, hp, hparent, map_some]
        have hby := h.indexed.byId_setPath hm (parent.path ++ "/" ++ m.path)
        generalize hset : cache.setPath id (parent.path ++ "/" ++ m.path) = cache' at hby
        have hindex : cache'.index = cache.index := by rw [← hset, index_setPath]
        have hindexed : Indexed cache' := h.indexed.congr hindex (by rw [← hset, forget_setPath])
        refine ⟨hindex.trans h.index, hindexed, fun id' m' p' hm' hp' => ?_, fun id' i m' hi hm' hid' => ?_,
          fun id' i m' hi hm' hp' => ?_, fun id' i m' p' hi hm' hid' hp' => ?_⟩
        · have hclosed : (cache.byId p').isSome = true := by
            rw [hby] at hm'
            split_ifs at hm' with heq
            · obtain rfl := some.inj hm'
              exact h.closed id m p' hm hp'
            · exact h.closed id' m' p' hm' hp'
          rw [hby]
          split_ifs
          · rfl
          · exact hclosed
        · rw [mem_cons, not_or] at hid'
          rw [hby, if_neg fun heq => hid'.1 (congrArg (· + 1) heq)] at hm'
          exact h.waiting id' i m' (hindex ▸ hi) hm' hid'.2
        · rw [hby] at hm'
          split_ifs at hm' with heq
          · obtain rfl := some.inj hm'
            exact absurd (hp.symm.trans hp') nofun
          · exact h.root id' i m' (hindex ▸ hi) hm' hp'
        · by_cases heq : id' = id
          · subst heq
            rw [hby, if_pos rfl] at hm'
            obtain rfl := some.inj hm'
            obtain rfl : p = p' := some.inj (hp.symm.trans hp')
            refine ⟨mem_cons_of_mem _ hpdone, parent, ?_, ?_⟩
            · rw [hby, if_neg hne, hparent]
            · rw [h.waiting id' i m (hindex ▸ hi) hm hnot]
              rfl
          · rw [hby, if_neg heq] at hm'
            have hold : id' + 1 ∈ done := (mem_cons.mp hid').resolve_left fun h => heq (Nat.succ.inj h)
            obtain ⟨hdone, parent', hparent', hpath⟩ := h.child id' i m' p' (hindex ▸ hi) hm' hold hp'
            have hne' : p' ≠ id := by rintro rfl; exact hnot hdone
            exact ⟨mem_cons_of_mem _ hdone, parent', by rw [hby, if_neg hne', hparent'], hpath⟩

theorem byId_congr (hindex : cache'.index = cache.index)
    (hitems : cache'.items.map forget = cache.items.map forget) (id : ℕ) :
    (cache'.byId id).map forget = (cache.byId id).map forget := by
  unfold byId
  rw [hindex]
  cases cache.index[id]? with
  | none => rfl
  | some i =>
    show (cache'.items[i]?).map forget = (cache.items[i]?).map forget
    rw [← getElem?_map, hitems, getElem?_map]

theorem Closed.congr (h : Closed cache) (hindex : cache'.index = cache.index)
    (hitems : cache'.items.map forget = cache.items.map forget) : Closed cache' := by
  intro id m p hm hp
  have hmap := byId_congr hindex hitems
  have hid := hmap id
  rw [hm] at hid
  obtain ⟨m', hm', heq⟩ := map_eq_some_iff.mp hid.symm
  have hparent : m'.parent = some p := (congrArg parent heq).trans hp
  have hsome := h id m' p hm' hparent
  rw [← isSome_map (f := forget)] at hsome ⊢
  rwa [hmap p]

theorem map_edge_congr {items items' : List MailboxCache}
    (hitems : items'.map forget = items.map forget) : items'.map edge = items.map edge := by
  have h := congrArg (List.map edge) hitems
  rw [List.map_map, List.map_map] at h
  exact h

theorem Attaching.foldl {done ids : List ℕ} {es : List (ℕ × ℕ)} (h : Attaching index done cache)
    (hes : cache.items.map edge = es) (horder : InOrder es done ids) :
    ∃ done', Attaching index done' (ids.foldl MailboxesCacheBuilder.attach cache) ∧ ∀ v ∈ ids, v ∈ done' := by
  suffices hall : ∃ done', Attaching index done' (ids.foldl MailboxesCacheBuilder.attach cache) ∧
      ∀ v, v ∈ done ∨ v ∈ ids → v ∈ done' from
    hall.imp fun done' hdone => ⟨hdone.1, fun v hv => hdone.2 v (.inr hv)⟩
  induction ids generalizing done cache with
  | nil => exact ⟨done, h, fun v hv => hv.resolve_right not_mem_nil⟩
  | cons id ids ih =>
    obtain ⟨hnot, hpred, horder⟩ := horder
    have hstep := h.attach hnot fun m hm heq => hpred (edge m) (hes ▸ List.mem_map_of_mem hm) heq
    have hes' : (cache.attach id).items.map edge = es := by
      rw [← hes]
      apply map_edge_congr
      rcases attach_cases cache id with heq | ⟨path, heq⟩
      · rw [heq]
      · rw [heq, forget_setPath]
    obtain ⟨done', hdone', hmem⟩ := ih hstep hes' horder
    refine ⟨done', hdone', fun v hv => hmem v ?_⟩
    rcases hv with hv | hv
    · exact .inl (mem_cons_of_mem _ hv)
    · rcases mem_cons.mp hv with rfl | hv
      · exact .inl mem_cons_self
      · exact .inr hv

/-- The parent of a mailbox of the cache. -/
def parentIn (cache : MailboxesCacheBuilder) (id : ℕ) : Option ℕ := (cache.byId id).bind parent

theorem mem_toList_of_depth (h : Indexed cache) (hclosed : Closed cache) {n : ℕ} {o : Option ℕ}
    (hn : Depth (parentIn cache) o n) : ∀ id, o = some id → (cache.byId id).isSome = true →
      id + 1 ∈ (ofEdges (cache.items.map edge)).toList := by
  induction hn with
  | top => exact nofun
  | @node id n _ ih =>
    rintro _ ⟨⟩ hsome
    obtain ⟨m, hm⟩ := isSome_iff_exists.mp hsome
    obtain ⟨hmem, hid⟩ := h.byId_eq_some.1 hm
    by_contra hnot
    have hedge : edge m ∈ cache.items.map edge := List.mem_map_of_mem hmem
    have htarget : id + 1 = (edge m).2 := by rw [← hid]; rfl
    -- the parent would not be visited either
    obtain ⟨e, he, heq, hsource⟩ := exists_edge_of_notMem hedge (.inr htarget) hnot
    obtain ⟨m', hm', rfl⟩ := List.mem_map.mp he
    obtain rfl : m' = m := h.eq_of_id hm' hmem ((Nat.succ.inj heq).trans hid.symm)
    cases hp : m'.parent with
    | none =>
      have hzero : (edge m').1 = 0 := by
        unfold parent at hp
        unfold edge
        split_ifs at hp with hroot
        rw [if_pos (not_not.mp hroot)]
      obtain ⟨e, he, heq, -⟩ := exists_edge_of_notMem hedge (.inl rfl) hsource
      obtain ⟨m'', -, rfl⟩ := List.mem_map.mp he
      rw [hzero] at heq
      exact Nat.succ_ne_zero _ heq
    | some p =>
      rw [parent_eq_some hp] at hsource
      exact hsource (ih p (by rw [parentIn, hm]; exact hp) (hclosed id m' p hm hp))

theorem index_foldl_attach (ids : List ℕ) (cache : MailboxesCacheBuilder) :
    (ids.foldl MailboxesCacheBuilder.attach cache).index = cache.index := by
  induction ids generalizing cache with
  | nil => rfl
  | cons id ids ih =>
    rw [foldl_cons, ih]
    rcases attach_cases cache id with h | ⟨path, h⟩
    · rw [h]
    · rw [h, index_setPath]

theorem index_buildTree (cache : MailboxesCacheBuilder) : cache.buildTree.index = cache.index := by
  exact index_foldl_attach _ _

/-- **The tree**: the path of a mailbox is that of its parent, if any, and its own label. -/
theorem buildTree_spec (h : Indexed cache) (hclosed : Closed cache)
    (hrooted : ∀ id, (cache.byId id).isSome = true → ∃ n, Depth (parentIn cache) (some id) n)
    {id i : ℕ} (hi : cache.index[id]? = some i) (hm : cache.buildTree.byId id = some m) :
    (m.parent = none → m.path = label i m) ∧
      ∀ p, m.parent = some p → ∃ parent, cache.buildTree.byId p = some parent ∧ m.path = parent.path ++ "/" ++ label i m := by
  obtain ⟨start, hstart⟩ : ∃ start : MailboxesCacheBuilder,
      start = { cache with items := cache.items.mapIdx fun idx mailbox => { mailbox with path := label idx mailbox } } :=
    ⟨_, rfl⟩
  have hindex : start.index = cache.index := by rw [hstart]
  have hforget : start.items.map forget = cache.items.map forget := by
    rw [hstart]
    apply ext_getElem?
    intro i
    simp only [getElem?_map, getElem?_mapIdx, Option.map_map]
    rfl
  have hlabel {id i : ℕ} {m : MailboxCache} (hi : start.index[id]? = some i) (hm : start.byId id = some m) :
      m.path = label i m := by
    unfold byId at hm
    rw [hi, hstart] at hm
    simp only [getElem?_mapIdx] at hm
    obtain ⟨m', -, rfl⟩ := map_eq_some_iff.mp hm
    rfl
  have hattaching : Attaching cache.index [] start :=
    ⟨hindex, h.congr hindex hforget, hclosed.congr hindex hforget, fun _ _ _ hi hm _ => hlabel hi hm,
      fun _ _ _ hi hm _ => hlabel hi hm, fun _ _ _ _ _ _ hmem => absurd hmem not_mem_nil⟩
  obtain ⟨done, hdone, hall⟩ := hattaching.foldl (map_edge_congr hforget)
    (inOrder_toList (cache.items.map edge))
  have htree : cache.buildTree =
      (ofEdges (cache.items.map edge)).toList.foldl MailboxesCacheBuilder.attach start := by
    rw [hstart]
    rfl
  rw [htree] at hm ⊢
  have hin : id + 1 ∈ done := by
    have hsome : (cache.byId id).isSome = true := by
      obtain ⟨m', hm', hid⟩ := (h id i).mp hi
      exact isSome_iff_exists.mpr ⟨m', h.byId_eq_some.2 ⟨mem_of_getElem? hm', hid⟩⟩
    obtain ⟨n, hn⟩ := hrooted id hsome
    exact hall _ (mem_toList_of_depth h hclosed hn id rfl hsome)
  rw [← hdone.index] at hi
  exact ⟨hdone.root id i m hi hm, fun p hp => (hdone.child id i m p hi hm hin hp).2⟩

end

/-! ## The caches that may be there -/

section

variable {mailboxes mailboxes' : HashMap ℕ Mailbox} {cache : MailboxesCacheBuilder}

/-- The items of all archives. -/
def itemsOf (mailboxes : HashMap ℕ Mailbox) : List MailboxCache := mailboxes.toList.map fun e => itemOf e.1 e.2

theorem mem_itemsOf {m : MailboxCache} :
    m ∈ itemsOf mailboxes ↔ ∃ mailbox, mailboxes[m.documentId]? = some mailbox ∧ m = itemOf m.documentId mailbox := by
  unfold itemsOf
  rw [List.mem_map]
  constructor
  · rintro ⟨⟨id, mailbox⟩, hmem, rfl⟩
    exact ⟨mailbox, HashMap.mem_toList.mp hmem, rfl⟩
  · rintro ⟨mailbox, hmailbox, heq⟩
    exact ⟨(m.documentId, mailbox), HashMap.mem_toList.mpr hmailbox, heq.symm⟩

theorem nodup_itemsOf (mailboxes : HashMap ℕ Mailbox) : ((itemsOf mailboxes).map (·.documentId)).Nodup := by
  unfold itemsOf
  rw [List.map_map]
  exact HashMap.nodup_map_fst_toList mailboxes

/-- The items that an update starts with, and then those it takes over. -/
def updatedItems (mailboxes : HashMap ℕ Mailbox) (changedIds : List (ℕ × Bool)) (items : List MailboxCache) :
    List MailboxCache :=
  changedIds.filterMap (fun e => (mailboxes[e.1]?).bind fun mailbox => if e.2 then some (itemOf e.1 mailbox) else none) ++
    items.filter fun item => !(changedIds.map Prod.fst).contains item.documentId

theorem updateMailboxCache_eq (mailboxes : HashMap ℕ Mailbox) (changedIds : List (ℕ × Bool)) (cache : MailboxesCacheBuilder) :
    updateMailboxCache mailboxes changedIds cache = (ofItems (updatedItems mailboxes changedIds cache.items)).buildTree := by
  have hfirst (start : MailboxesCacheBuilder) : changedIds.foldl (fun cache e =>
      match mailboxes[e.1]? with
      | some mailbox => if e.2 then cache.insertItem e.1 mailbox else cache
      | none => cache) start =
      (changedIds.filterMap fun e => (mailboxes[e.1]?).bind fun mailbox =>
        if e.2 then some (itemOf e.1 mailbox) else none).foldl mailboxInsert start := by
    induction changedIds generalizing start with
    | nil => rfl
    | cons e changedIds ih =>
      rw [foldl_cons, filterMap_cons, ih]
      cases mailboxes[e.1]? with
      | none => rfl
      | some mailbox =>
        split_ifs <;> rfl
  unfold updateMailboxCache ofItems updatedItems
  dsimp only
  rw [foldl_append, foldl_filter, hfirst]
  congr 2
  funext cache item
  cases (changedIds.map Prod.fst).contains item.documentId <;> rfl

/-- Whether all mailboxes of the archives are among the items, and no others. -/
def Complete (mailboxes : HashMap ℕ Mailbox) (items : List MailboxCache) : Prop :=
  (items.map forget).Perm (itemsOf mailboxes)

variable {items : List MailboxCache}

theorem Complete.nodup (h : Complete mailboxes items) : (items.map (·.documentId)).Nodup := by
  have hids := h.map (·.documentId)
  rw [List.map_map] at hids
  exact hids.nodup_iff.mpr (nodup_itemsOf mailboxes)

theorem Complete.update (h : Complete mailboxes items) {changedIds : List (ℕ × Bool)}
    (hchanged : Changed mailboxes mailboxes' changedIds) :
    Complete mailboxes' (updatedItems mailboxes' changedIds items) := by
  have hmem (m : MailboxCache) : m ∈ (updatedItems mailboxes' changedIds items).map forget ↔
      m ∈ itemsOf mailboxes' := by
    unfold updatedItems
    rw [map_append, mem_append, mem_itemsOf]
    constructor
    · rintro (hnew | hold)
      · obtain ⟨m', hm', rfl⟩ := List.mem_map.mp hnew
        obtain ⟨⟨id, isUpdate⟩, -, hitem⟩ := mem_filterMap.mp hm'
        obtain ⟨mailbox, hmailbox, hitem⟩ := bind_eq_some_iff.mp hitem
        split_ifs at hitem
        obtain rfl := some.inj hitem
        exact ⟨mailbox, hmailbox, rfl⟩
      · obtain ⟨m', hm', rfl⟩ := List.mem_map.mp hold
        obtain ⟨hm', hnot⟩ := mem_filter.mp hm'
        obtain ⟨mailbox, hmailbox, heq⟩ := mem_itemsOf.1 (h.mem_iff.mp (List.mem_map_of_mem hm'))
        have hid : m'.documentId ∉ changedIds.map Prod.fst := by simpa using hnot
        exact ⟨mailbox, (hchanged.same _ hid).trans hmailbox, heq⟩
    · rintro ⟨mailbox, hmailbox, heq⟩
      by_cases hid : m.documentId ∈ changedIds.map Prod.fst
      · obtain ⟨⟨id, isUpdate⟩, he, hid⟩ := List.mem_map.mp hid
        subst hid
        have hupdate : isUpdate = true := by
          by_contra hnot
          rw [Bool.not_eq_true] at hnot
          subst hnot
          rw [hchanged.deleted _ he] at hmailbox
          cases hmailbox
        refine .inl (List.mem_map.mpr ⟨m, mem_filterMap.mpr ⟨_, he, ?_⟩, ?_⟩)
        · rw [hmailbox, bind_some, if_pos hupdate, ← heq]
        · rw [heq]
          rfl
      · have hold : m ∈ itemsOf mailboxes := mem_itemsOf.2 ⟨mailbox, (hchanged.same _ hid).symm.trans hmailbox, heq⟩
        obtain ⟨m', hm', rfl⟩ := List.mem_map.mp (h.mem_iff.mpr hold)
        refine .inr (List.mem_map.mpr ⟨m', mem_filter.mpr ⟨hm', ?_⟩, rfl⟩)
        simpa [forget] using hid
  have hnew {e : ℕ × Bool} {m : MailboxCache} (hm : ((mailboxes'[e.1]?).bind fun mailbox =>
      if e.2 then some (itemOf e.1 mailbox) else none) = some m) : m.documentId = e.1 := by
    obtain ⟨mailbox, -, hitem⟩ := bind_eq_some_iff.mp hm
    split_ifs at hitem
    obtain rfl := some.inj hitem
    rfl
  have hids : ((updatedItems mailboxes' changedIds items).map (·.documentId)).Nodup := by
    unfold updatedItems
    rw [map_append, nodup_append]
    refine ⟨?_, (h.nodup).sublist (filter_sublist.map _), ?_⟩
    · refine pairwise_map.mpr (pairwise_filterMap.mpr ((pairwise_map.mp hchanged.nodup).imp ?_))
      intro e e' hne m hm m' hm'
      rw [hnew hm, hnew hm']
      exact hne
    · intro id hid id' hid'
      obtain ⟨m, hm, rfl⟩ := List.mem_map.mp hid
      obtain ⟨m', hm', rfl⟩ := List.mem_map.mp hid'
      obtain ⟨e, he, hm⟩ := mem_filterMap.mp hm
      have hnot : m'.documentId ∉ changedIds.map Prod.fst := by simpa using (mem_filter.mp hm').2
      rw [hnew hm]
      exact fun heq => hnot (heq ▸ List.mem_map_of_mem he)
  refine (perm_ext_iff_of_nodup ?_ ?_).mpr hmem
  · exact List.Nodup.of_map (·.documentId) (by rw [List.map_map]; exact hids)
  · exact List.Nodup.of_map _ (nodup_itemsOf mailboxes')

theorem Complete.spec (h : Complete mailboxes items) :
    (ofItems items).items = items ∧ Indexed (ofItems items) := ofItems_spec h.nodup

theorem Complete.buildTree (h : Complete mailboxes items) :
    Complete mailboxes (ofItems items).buildTree.items := by
  unfold Complete
  rw [forget_buildTree, h.spec.1]
  exact h

theorem foldl_insertItem (mailboxes : HashMap ℕ Mailbox) :
    mailboxes.toList.foldl (fun cache e => cache.insertItem e.1 e.2) empty = ofItems (itemsOf mailboxes) := by
  unfold ofItems itemsOf
  rw [foldl_map]
  rfl

theorem complete_itemsOf (mailboxes : HashMap ℕ Mailbox) : Complete mailboxes (itemsOf mailboxes) := by
  have hsame : (itemsOf mailboxes).map forget = itemsOf mailboxes := by
    unfold itemsOf
    rw [List.map_map]
    rfl
  unfold Complete
  rw [hsame]

theorem Built.exists_items (h : Built mailboxes cache) :
    ∃ items, cache = (ofItems items).buildTree ∧ Complete mailboxes items := by
  induction h with
  | full createSystemFolders mailboxes =>
    unfold fullMailboxCacheBuild
    simp only [foldl_insertItem]
    split_ifs
    · exact ⟨_, rfl, complete_itemsOf _⟩
    · exact ⟨_, rfl, complete_itemsOf _⟩
  | update changedIds _ hchanged ih =>
    obtain ⟨items, rfl, hcomplete⟩ := ih
    exact ⟨_, updateMailboxCache_eq _ _ _, hcomplete.buildTree.update hchanged⟩

theorem exists_built (h : ∃ id : ℕ, (mailboxes[id]?).isSome = true) : ∃ cache, Built mailboxes cache := by
  have hfull := Built.full id mailboxes
  obtain ⟨i, hi⟩ := h
  obtain ⟨mailbox, hmailbox⟩ := isSome_iff_exists.mp hi
  have hmem : itemOf i mailbox ∈ itemsOf mailboxes := mem_itemsOf.2 ⟨mailbox, hmailbox, rfl⟩
  have hne : (ofItems (itemsOf mailboxes)).items.isEmpty = false := by
    rw [(complete_itemsOf mailboxes).spec.1]
    exact isEmpty_eq_false_iff.mpr (ne_nil_of_mem hmem)
  unfold fullMailboxCacheBuild at hfull
  simp only [foldl_insertItem, hne] at hfull
  exact ⟨_, hfull⟩

/-! ## Mailboxes and their labels -/

def Stored (mailboxes : HashMap ℕ Mailbox) (id : ℕ) : Prop := (mailboxes[id]?).isSome = true

/-- The parent of a mailbox, whose id is stored plus one. -/
def parentOf (mailbox : Mailbox) : Option ℕ := if mailbox.parentId > 0 then some (mailbox.parentId - 1) else none

def up (mailboxes : HashMap ℕ Mailbox) (id : ℕ) : Option ℕ := mailboxes[id]?.bind parentOf

/-- A forest of mailboxes, with ids of 32 bits, the last of which stands for none. -/
structure MailboxForest (mailboxes : HashMap ℕ Mailbox) : Prop where
  forest : Forest (Stored mailboxes) (up mailboxes)
  ids : ∀ id, Stored mailboxes id → id < u32Max

/-- A mailbox at the top that is called like the inbox and is not. -/
def ResemblesInbox (mailbox : Mailbox) : Prop :=
  mailbox.role ≠ .inbox ∧ mailbox.parentId = 0 ∧ eqIgnoreAsciiCase mailbox.name "inbox" = true

/-- The name of a mailbox, or that of the inbox. -/
def plainLabel (mailbox : Mailbox) : String := if mailbox.role = .inbox then "INBOX" else mailbox.name

/-- The pieces of the name of a mailbox. -/
def spelled (mailboxes : HashMap ℕ Mailbox) (id : ℕ) : List (List Char) :=
  segments ((mailboxes[id]?).elim "" plainLabel)

theorem byId_ofItems (h : Complete mailboxes items) (id : ℕ) :
    ((ofItems items).byId id).map forget = (mailboxes[id]?).map (itemOf id) := by
  obtain ⟨hitems, hindexed⟩ := h.spec
  cases hm : (ofItems items).byId id with
  | some m =>
    obtain ⟨hmem, rfl⟩ := hindexed.byId_eq_some.1 hm
    rw [hitems] at hmem
    obtain ⟨mailbox, hmailbox, heq⟩ := mem_itemsOf.1 (h.mem_iff.mp (List.mem_map_of_mem hmem))
    have hstored : mailboxes[m.documentId]? = some mailbox := hmailbox
    rw [hstored, map_some, heq]
    rfl
  | none =>
    cases hmailbox : mailboxes[id]? with
    | none => rfl
    | some mailbox =>
      have hmem : itemOf id mailbox ∈ itemsOf mailboxes := mem_itemsOf.2 ⟨mailbox, hmailbox, rfl⟩
      obtain ⟨m, hm', heq⟩ := List.mem_map.mp (h.mem_iff.mpr hmem)
      have hid : m.documentId = id := (congrArg documentId heq : m.forget.documentId = _)
      have hsome := hindexed.byId_eq_some.2 ⟨hitems.symm ▸ hm', hid⟩
      exact absurd (hm.symm.trans hsome) nofun

theorem byId_buildTree (h : Complete mailboxes items) (id : ℕ) :
    ((ofItems items).buildTree.byId id).map forget = (mailboxes[id]?).map (itemOf id) :=
  (byId_congr (index_buildTree _) (forget_buildTree _) id).trans (byId_ofItems h id)

theorem MailboxForest.parent_itemOf (h : MailboxForest mailboxes) {id : ℕ} {mailbox : Mailbox}
    (hmailbox : mailboxes[id]? = some mailbox) : (itemOf id mailbox).parent = parentOf mailbox := by
  unfold parent itemOf parentOf
  dsimp only
  by_cases hzero : mailbox.parentId > 0
  · have hstored : Stored mailboxes (mailbox.parentId - 1) := by
      refine h.forest.parent id _ (by rw [Stored, hmailbox]; rfl) ?_
      rw [up, hmailbox, bind_some, parentOf, if_pos hzero]
    have hlt := h.ids _ hstored
    rw [if_pos hzero, if_pos (by omega), if_pos hzero]
  · rw [if_neg hzero, if_neg (by omega), if_neg hzero]

end

/-! ## Paths -/

section

variable {mailboxes : HashMap ℕ Mailbox} {items : List MailboxCache} {id i : ℕ} {mailbox : Mailbox}

instance (mailbox : Mailbox) : Decidable (ResemblesInbox mailbox) := inferInstanceAs (Decidable (_ ∧ _ ∧ _))

/-- What the path of a mailbox ends with when it has a given place in the cache. -/
def labelAt (idx : ℕ) (mailbox : Mailbox) : String :=
  if ResemblesInbox mailbox then "INBOX " ++ toString (idx + 1) else plainLabel mailbox

def pathIn (cache : MailboxesCacheBuilder) (id : ℕ) : String := ((cache.byId id).map path).getD ""

variable {m : MailboxCache} {cache : MailboxesCacheBuilder}

theorem MailboxForest.label_eq (h : MailboxForest mailboxes)
    (hmailbox : mailboxes[id]? = some mailbox)
    (hm : m.forget = itemOf id mailbox) : label i m = labelAt i mailbox := by
  have hlabel : label i m.forget = label i (itemOf id mailbox) := congrArg (label i) hm
  have hroot : (itemOf id mailbox).isRoot = true ↔ mailbox.parentId = 0 := by
    have hparent := h.parent_itemOf hmailbox
    have hnone : (itemOf id mailbox).isRoot = true ↔ (itemOf id mailbox).parent = none := by
      unfold isRoot parent
      rw [beq_iff_eq]
      split_ifs with hne
      · exact ⟨fun heq => absurd heq hne, nofun⟩
      · exact ⟨fun _ => rfl, fun _ => not_not.mp hne⟩
    rw [hnone, hparent, parentOf]
    split_ifs with hpos
    · exact ⟨nofun, fun hzero => by omega⟩
    · exact ⟨fun _ => by omega, fun _ => rfl⟩
  have hlike : ((itemOf id mailbox).isRoot && eqIgnoreAsciiCase (itemOf id mailbox).name "inbox") = true ↔
      mailbox.parentId = 0 ∧ eqIgnoreAsciiCase mailbox.name "inbox" = true := by
    rw [Bool.and_eq_true, hroot]
    rfl
  show label i m.forget = _
  rw [hlabel]
  unfold label labelAt plainLabel
  by_cases hrole : mailbox.role = .inbox
  · have hrole' : (itemOf id mailbox).role = .inbox := hrole
    rw [if_pos hrole', if_neg (fun h : ResemblesInbox mailbox => h.1 hrole), if_pos hrole]
  · have hrole' : (itemOf id mailbox).role ≠ .inbox := hrole
    rw [if_neg hrole']
    by_cases hodd : mailbox.parentId = 0 ∧ eqIgnoreAsciiCase mailbox.name "inbox" = true
    · rw [if_pos (show ResemblesInbox mailbox from ⟨hrole, hodd⟩), if_pos (hlike.mpr hodd)]
    · rw [if_neg fun h : ResemblesInbox mailbox => hodd h.2, if_neg hrole, if_neg fun h => hodd (hlike.mp h)]
      rfl

/-- **The path of a mailbox**: that of its parent, if any, and its label. -/
theorem MailboxForest.pathIn_eq (h : MailboxForest mailboxes) (hcomplete : Complete mailboxes items)
    (hmailbox : mailboxes[id]? = some mailbox) : ∃ i, (ofItems items).index[id]? = some i ∧
      pathIn (ofItems items).buildTree id = (parentOf mailbox).elim (labelAt i mailbox)
        fun p => pathIn (ofItems items).buildTree p ++ "/" ++ labelAt i mailbox := by
  obtain ⟨-, hindexed⟩ := hcomplete.spec
  have hby := byId_ofItems hcomplete
  have hsome {id : ℕ} : ((ofItems items).byId id).isSome = true ↔ Stored mailboxes id := by
    rw [← isSome_map (f := forget), hby, isSome_map]
    rfl
  have hparent (id : ℕ) : parentIn (ofItems items) id = up mailboxes id := by
    unfold parentIn up
    have hbind : ((ofItems items).byId id).bind parent =
        (((ofItems items).byId id).map forget).bind parent := by
      rw [bind_map]
      rfl
    rw [hbind, hby]
    cases hstored : mailboxes[id]? with
    | none => rfl
    | some mailbox => exact h.parent_itemOf hstored
  have hclosed : Closed (ofItems items) := by
    intro id m p hm hp
    have hid : Stored mailboxes id := hsome.mp (by rw [hm]; rfl)
    exact hsome.mpr (h.forest.parent id p hid (by rw [← hparent, parentIn, hm]; exact hp))
  have hrooted (id : ℕ) (hid : ((ofItems items).byId id).isSome = true) :
      ∃ n, Depth (parentIn (ofItems items)) (some id) n := by
    rw [funext hparent]
    exact h.forest.rooted id (hsome.mp hid)
  obtain ⟨m, hm, hforget⟩ := map_eq_some_iff.mp ((byId_buildTree hcomplete id).trans (by rw [hmailbox]; rfl))
  obtain ⟨i, hi⟩ : ∃ i, (ofItems items).index[id]? = some i := by
    unfold byId at hm
    rw [index_buildTree] at hm
    obtain ⟨i, hi, -⟩ := bind_eq_some_iff.mp hm
    exact ⟨i, hi⟩
  have hmparent : m.parent = parentOf mailbox :=
    (congrArg parent hforget : m.forget.parent = _).trans (h.parent_itemOf hmailbox)
  obtain ⟨hroot, hchild⟩ := buildTree_spec hindexed hclosed hrooted hi hm
  rw [h.label_eq hmailbox hforget, hmparent] at hroot
  rw [h.label_eq hmailbox hforget, hmparent] at hchild
  refine ⟨i, hi, ?_⟩
  unfold pathIn
  rw [hm]
  cases hp : parentOf mailbox with
  | none => exact hroot hp
  | some p =>
    obtain ⟨parent, hparent, hpath⟩ := hchild p hp
    show m.path = (((ofItems items).buildTree.byId p).map path).getD "" ++ "/" ++ labelAt i mailbox
    rw [hparent]
    exact hpath

/-- No mailbox resembles the inbox, or it is the only one. -/
def OnlyInbox (mailboxes : HashMap ℕ Mailbox) : Prop :=
  ∀ id mailbox, mailboxes[id]? = some mailbox → ResemblesInbox mailbox → ∀ other, Stored mailboxes other → other = id

theorem stored_of_mem (hcomplete : Complete mailboxes items) (hm : m ∈ items) :
    Stored mailboxes m.documentId := by
  obtain ⟨mailbox, hmailbox, -⟩ := mem_itemsOf.1 (hcomplete.mem_iff.mp (List.mem_map_of_mem hm))
  have hstored : mailboxes[m.documentId]? = some mailbox := hmailbox
  rw [Stored, hstored]
  rfl

theorem OnlyInbox.labelAt_eq (h : OnlyInbox mailboxes) (hcomplete : Complete mailboxes items)
    (hmailbox : mailboxes[id]? = some mailbox) (hi : (ofItems items).index[id]? = some i) :
    labelAt i mailbox = labelAt 0 mailbox := by
  by_cases hodd : ResemblesInbox mailbox
  · -- it is the first one, since there are no others
    obtain ⟨hitems, hindexed⟩ := hcomplete.spec
    obtain ⟨m, hm, hid⟩ := (hindexed id i).mp hi
    rw [hitems] at hm
    have hlt : 0 < items.length := length_pos_of_mem (mem_of_getElem? hm)
    have hfirst : items[0]? = some items[0] := getElem?_eq_getElem hlt
    have honly := h id mailbox hmailbox hodd _ (stored_of_mem hcomplete (mem_of_getElem? hfirst))
    have hzero : (ofItems items).index[id]? = some 0 := (hindexed id 0).mpr ⟨_, by rw [hitems, hfirst], honly⟩
    rw [some.inj (hi.symm.trans hzero)]
  · unfold labelAt
    rw [if_neg hodd, if_neg hodd]

theorem OnlyInbox.pathIn_eq (h : OnlyInbox mailboxes) (hforest : MailboxForest mailboxes)
    (hcomplete : Complete mailboxes items) (hmailbox : mailboxes[id]? = some mailbox) :
    pathIn (ofItems items).buildTree id = (parentOf mailbox).elim (labelAt 0 mailbox)
      fun p => pathIn (ofItems items).buildTree p ++ "/" ++ labelAt 0 mailbox := by
  obtain ⟨i, hi, hpath⟩ := hforest.pathIn_eq hcomplete hmailbox
  rw [hpath, h.labelAt_eq hcomplete hmailbox hi]

theorem OnlyInbox.pathIn_congr (h : OnlyInbox mailboxes) (hforest : MailboxForest mailboxes) {items' : List MailboxCache}
    (hcomplete : Complete mailboxes items) (hcomplete' : Complete mailboxes items') {n : ℕ} {o : Option ℕ}
    (hn : Depth (up mailboxes) o n) : ∀ id, o = some id → Stored mailboxes id →
      pathIn (ofItems items).buildTree id = pathIn (ofItems items').buildTree id := by
  induction hn with
  | top => exact nofun
  | @node id n _ ih =>
    rintro _ ⟨⟩ hstored
    obtain ⟨mailbox, hmailbox⟩ := isSome_iff_exists.mp hstored
    rw [h.pathIn_eq hforest hcomplete hmailbox, h.pathIn_eq hforest hcomplete' hmailbox]
    cases hp : parentOf mailbox with
    | none => rw [elim_none, elim_none]
    | some p =>
      have hup : up mailboxes id = some p := by rw [up, hmailbox]; exact hp
      rw [elim_some, elim_some, ih p hup (hforest.forest.parent id p hstored hup)]

theorem addressed_pathIn (hforest : MailboxForest mailboxes) (hcomplete : Complete mailboxes items)
    (hnone : ∀ (id : ℕ) (mailbox : Mailbox), mailboxes[id]? = some mailbox → ¬ ResemblesInbox mailbox) :
    Addressed (Stored mailboxes) (up mailboxes) (spelled mailboxes)
      fun id => segments (pathIn (ofItems items).buildTree id) := by
  intro id hstored
  obtain ⟨mailbox, hmailbox⟩ := isSome_iff_exists.mp hstored
  have honly : OnlyInbox mailboxes := fun id mailbox hmailbox hodd => absurd hodd (hnone id mailbox hmailbox)
  have hlabel : segments (labelAt 0 mailbox) = spelled mailboxes id := by
    rw [labelAt, if_neg (hnone id mailbox hmailbox), spelled, hmailbox]
    rfl
  have hup : up mailboxes id = parentOf mailbox := by rw [up, hmailbox]; rfl
  show segments _ = _
  rw [honly.pathIn_eq hforest hcomplete hmailbox, hup]
  cases parentOf mailbox with
  | none =>
    rw [elim_none, hlabel]
    exact (nil_append _).symm
  | some p => rw [elim_some, elim_some, segments_join, hlabel]

theorem Complete.byId_iff (hcomplete : Complete mailboxes items) :
    (∃ m, (ofItems items).buildTree.byId id = some m) ↔ Stored mailboxes id := by
  rw [← isSome_iff_exists, ← isSome_map (f := forget), byId_buildTree hcomplete,
    isSome_map]
  rfl

theorem Complete.indexed (hcomplete : Complete mailboxes items) : Indexed (ofItems items).buildTree :=
  hcomplete.spec.2.congr (index_buildTree _) (forget_buildTree _)

theorem pathIn_eq_path (hm : cache.byId id = some m) : pathIn cache id = m.path := by
  unfold pathIn
  rw [hm]
  rfl

theorem Announced.onlyInbox (h : Announced mailboxes) (hforest : MailboxForest mailboxes) : OnlyInbox mailboxes := by
  intro id mailbox hmailbox hodd other hother
  by_contra hne
  have hid : Stored mailboxes id := by rw [Stored, hmailbox]; rfl
  obtain ⟨cache, hbuilt⟩ := exists_built ⟨id, hid⟩
  obtain ⟨items, rfl, hcomplete⟩ := hbuilt.exists_items
  obtain ⟨omailbox, homailbox⟩ := isSome_iff_exists.mp hother
  -- updates of this mailbox, and of another one before it
  have hchanged (changedIds : List (ℕ × Bool)) (hnodup : (changedIds.map Prod.fst).Nodup)
      (hall : ∀ e ∈ changedIds, e.2 = true) : Changed mailboxes mailboxes changedIds :=
    ⟨hnodup, fun _ _ => rfl, fun _ he => absurd (hall _ he) nofun⟩
  have hpath {changedIds : List (ℕ × Bool)} (hc : Changed mailboxes mailboxes changedIds) {k : ℕ}
      (hk : (updatedItems mailboxes changedIds (ofItems items).buildTree.items)[k]? = some (itemOf id mailbox)) :
      pathIn (updateMailboxCache mailboxes changedIds (ofItems items).buildTree) id = "INBOX " ++ toString (k + 1) := by
    have hupdated := hcomplete.buildTree.update hc
    obtain ⟨hitems, hindexed⟩ := hupdated.spec
    obtain ⟨i, hi, heq⟩ := hforest.pathIn_eq hupdated hmailbox
    have hik : i = k := some.inj (hi.symm.trans ((hindexed id k).mpr ⟨_, by rw [hitems, hk], rfl⟩))
    rw [updateMailboxCache_eq, heq, parentOf, if_neg (by rw [hodd.2.1]; omega), elim_none, labelAt, if_pos hodd, hik]
  have hone := hchanged [(id, true)] (nodup_singleton _) (by simp)
  have htwo := hchanged [(other, true), (id, true)] (by simpa using hne) (by simp)
  have hfirst := hpath (k := 0) hone (by simp [updatedItems, hmailbox])
  have hsecond := hpath (k := 1) htwo (by simp [updatedItems, hmailbox, homailbox])
  have hsame := h.1 _ _ (.update _ hbuilt hone) (.update _ hbuilt htwo) id
  have hpaths : pathIn (updateMailboxCache mailboxes [(id, true)] (ofItems items).buildTree) id =
      pathIn (updateMailboxCache mailboxes [(other, true), (id, true)] (ofItems items).buildTree) id :=
    congrArg (fun path => path.getD "") hsame
  rw [hfirst, hsecond] at hpaths
  exact absurd hpaths (by decide)

theorem distinct_iff_paths (hforest : MailboxForest mailboxes) (hcomplete : Complete mailboxes items)
    (hnone : ∀ (id : ℕ) (mailbox : Mailbox), mailboxes[id]? = some mailbox → ¬ ResemblesInbox mailbox) :
    Distinct (Stored mailboxes) (up mailboxes) (spelled mailboxes) ↔
      ∀ m ∈ (ofItems items).buildTree.items, ∀ m' ∈ (ofItems items).buildTree.items,
        eqIgnoreAsciiCase m.path m'.path = true → m = m' := by
  have hindexed := hcomplete.indexed
  rw [hforest.forest.distinct_iff (addressed_pathIn hforest hcomplete hnone) fun id => segments_ne_nil _]
  constructor
  · intro h m hm m' hm' heq
    have hby := hindexed.byId_eq_some.2 ⟨hm, rfl⟩
    have hby' := hindexed.byId_eq_some.2 ⟨hm', rfl⟩
    refine hindexed.eq_of_id hm hm' (h _ _ (hcomplete.byId_iff.1 ⟨m, hby⟩) (hcomplete.byId_iff.1 ⟨m', hby'⟩) ?_)
    rw [pathIn_eq_path hby, pathIn_eq_path hby']
    exact eqIgnoreAsciiCase_iff.1 heq
  · intro h x y hx hy heq
    obtain ⟨m, hm⟩ := hcomplete.byId_iff.2 hx
    obtain ⟨m', hm'⟩ := hcomplete.byId_iff.2 hy
    rw [pathIn_eq_path hm, pathIn_eq_path hm'] at heq
    obtain ⟨hmem, rfl⟩ := hindexed.byId_eq_some.1 hm
    obtain ⟨hmem', rfl⟩ := hindexed.byId_eq_some.1 hm'
    rw [h m hmem m' hmem' (eqIgnoreAsciiCase_iff.2 heq)]

theorem OnlyInbox.cases (h : OnlyInbox mailboxes) :
    (∀ (id : ℕ) (mailbox : Mailbox), mailboxes[id]? = some mailbox → ¬ ResemblesInbox mailbox) ∨
      ∀ u v, Stored mailboxes u → Stored mailboxes v → u = v := by
  by_cases hodd : ∃ (id : ℕ) (mailbox : Mailbox), mailboxes[id]? = some mailbox ∧ ResemblesInbox mailbox
  · obtain ⟨id, mailbox, hmailbox, hodd⟩ := hodd
    exact .inr fun u v hu hv => (h id mailbox hmailbox hodd u hu).trans (h id mailbox hmailbox hodd v hv).symm
  · exact .inl fun id mailbox hmailbox hres => hodd ⟨id, mailbox, hmailbox, hres⟩

theorem mailboxByPath_path (hm : m ∈ cache.items)
    (hinj : ∀ m' ∈ cache.items, eqIgnoreAsciiCase m'.path m.path = true → m' = m) : mailboxByPath cache m.path = some m := by
  unfold mailboxByPath
  cases hfind : cache.items.find? fun m' => eqIgnoreAsciiCase m'.path m.path with
  | none =>
    have hself := find?_eq_none.mp hfind m hm
    exact absurd (eqIgnoreAsciiCase_iff.2 rfl) hself
  | some m' =>
    have heq := find?_some hfind
    rw [hinj m' (mem_of_find?_eq_some hfind) heq]

/-- **Paths of mailboxes**: they do not depend on the order of the cache and are different up to the case of letters, if
and only if a mailbox that resembles the inbox is the only one and no two siblings can be followed down by the same names,
where a name with separators is as many names and that of the inbox is `INBOX`. -/
theorem announced_iff (hforest : MailboxForest mailboxes) :
    Announced mailboxes ↔ OnlyInbox mailboxes ∧ Distinct (Stored mailboxes) (up mailboxes) (spelled mailboxes) := by
  constructor
  · intro h
    have honly := h.onlyInbox hforest
    refine ⟨honly, fun u v hu hv huv => ?_⟩
    rcases honly.cases with hnone | hsingle
    · obtain ⟨cache, hbuilt⟩ := exists_built ⟨u, hu⟩
      obtain ⟨items, rfl, hcomplete⟩ := hbuilt.exists_items
      exact (distinct_iff_paths hforest hcomplete hnone).mpr (h.2 _ hbuilt).1 u v hu hv huv
    · exact absurd (hsingle u v hu hv) huv
  · rintro ⟨honly, hdistinct⟩
    refine ⟨fun cache cache' hbuilt hbuilt' id => ?_, fun cache hbuilt => ?_⟩
    · obtain ⟨items, rfl, hcomplete⟩ := hbuilt.exists_items
      obtain ⟨items', rfl, hcomplete'⟩ := hbuilt'.exists_items
      by_cases hid : Stored mailboxes id
      · obtain ⟨n, hn⟩ := hforest.forest.rooted id hid
        obtain ⟨m, hm⟩ := hcomplete.byId_iff.2 hid
        obtain ⟨m', hm'⟩ := hcomplete'.byId_iff.2 hid
        have hpaths := honly.pathIn_congr hforest hcomplete hcomplete' hn id rfl hid
        rw [pathIn_eq_path hm, pathIn_eq_path hm'] at hpaths
        rw [hm, hm', map_some, map_some, hpaths]
      · have hnone {items : List MailboxCache} (hcomplete : Complete mailboxes items) :
            (ofItems items).buildTree.byId id = none := by
          by_contra hsome
          exact hid (hcomplete.byId_iff.1 (ne_none_iff_exists'.mp hsome))
        rw [hnone hcomplete, hnone hcomplete']
    · obtain ⟨items, rfl, hcomplete⟩ := hbuilt.exists_items
      have hinj : ∀ m ∈ (ofItems items).buildTree.items, ∀ m' ∈ (ofItems items).buildTree.items,
          eqIgnoreAsciiCase m.path m'.path = true → m = m' := by
        rcases honly.cases with hnone | hsingle
        · exact (distinct_iff_paths hforest hcomplete hnone).mp hdistinct
        · intro m hm m' hm' _
          exact hcomplete.indexed.eq_of_id hm hm' (hsingle _ _
            (hcomplete.byId_iff.1 ⟨m, hcomplete.indexed.byId_eq_some.2 ⟨hm, rfl⟩⟩)
            (hcomplete.byId_iff.1 ⟨m', hcomplete.indexed.byId_eq_some.2 ⟨hm', rfl⟩⟩))
      exact ⟨hinj, fun m hm => mailboxByPath_path hm fun m' hm' => hinj m' hm' m hm⟩

/-! ### Names without separators -/

theorem eq_of_toLower_eq_separator {c : Char} (h : c.toLower = '/') : c = '/' := by
  unfold Char.toLower at h
  split_ifs at h with hupper
  · have hval := congrArg Char.val h
    have hnat := congrArg UInt32.toNat hval
    have hle : c.val.toNat ≤ 90 := hupper.2
    have hge : 65 ≤ c.val.toNat := hupper.1
    simp only [UInt32.toNat_add] at hnat
    have hslash : ('/' : Char).val.toNat = 47 := rfl
    have hdiff : (('a' : Char).val - ('A' : Char).val).toNat = 32 := rfl
    omega
  · exact h

theorem distinct_of_labels
    (hseparator : ∀ (id : ℕ) (mailbox : Mailbox), mailboxes[id]? = some mailbox → '/' ∉ (plainLabel mailbox).toList)
    (hlabels : ∀ (u v : ℕ) (m m' : Mailbox), mailboxes[u]? = some m → mailboxes[v]? = some m' →
      up mailboxes u = up mailboxes v → eqIgnoreAsciiCase (plainLabel m) (plainLabel m') = true → u = v) :
    Distinct (Stored mailboxes) (up mailboxes) (spelled mailboxes) := by
  have hsingle {id : ℕ} {mailbox : Mailbox} (hmailbox : mailboxes[id]? = some mailbox) :
      spelled mailboxes id = [toAsciiLowercase (plainLabel mailbox)] := by
    unfold spelled segments
    rw [hmailbox]
    refine splitOn_eq_singleton fun hmem => ?_
    obtain ⟨c, hc, heq⟩ := List.mem_map.mp hmem
    exact hseparator id mailbox hmailbox (eq_of_toLower_eq_separator heq ▸ hc)
  intro u v hu hv huv hup s t o o' _ _ heq
  obtain ⟨m, hm⟩ := isSome_iff_exists.mp hu
  obtain ⟨m', hm'⟩ := isSome_iff_exists.mp hv
  rw [hsingle hm, hsingle hm'] at heq
  exact huv (hlabels u v m m' hm hm' hup (beq_iff_eq.mpr (List.cons.inj heq).1))

/-! ### Accounts -/

/-- An inbox with a folder. -/
def inboxAndFolder : HashMap ℕ Mailbox :=
  ((∅ : HashMap ℕ Mailbox).insert 0 { Mailbox.new "Inbox" with role := .inbox }).insert 1
    { Mailbox.new "Work" with parentId := 1 }

/-- An inbox, and a mailbox that is called like one. -/
def twoInboxes : HashMap ℕ Mailbox :=
  ((∅ : HashMap ℕ Mailbox).insert 0 { Mailbox.new "Posteingang" with role := .inbox }).insert 1 (Mailbox.new "Inbox")

/-- The names of siblings are different. -/
def UniqueNames (mailboxes : HashMap ℕ Mailbox) : Prop :=
  ∀ (id id' : ℕ) (m m' : Mailbox), mailboxes[id]? = some m → mailboxes[id']? = some m' → m.parentId = m'.parentId →
    eqIgnoreAsciiCase m.name m'.name = true → id = id'

theorem getElem?_two (m m' : Mailbox) (id : ℕ) : (((∅ : HashMap ℕ Mailbox).insert 0 m).insert 1 m')[id]? =
    if id = 1 then some m' else if id = 0 then some m else none := by
  rw [HashMap.getElem?_insert, HashMap.getElem?_insert, Std.TreeMap.getElem?_emptyc]
  simp [eq_comm]

theorem forest_two {m m' : Mailbox} (hm : m.parentId = 0) (hm' : m'.parentId ≤ 1) :
    MailboxForest (((∅ : HashMap ℕ Mailbox).insert 0 m).insert 1 m') := by
  have hup (id : ℕ) : up (((∅ : HashMap ℕ Mailbox).insert 0 m).insert 1 m') id =
      if id = 1 ∧ m'.parentId = 1 then some 0 else none := by
    unfold up parentOf
    rw [getElem?_two]
    split_ifs <;> simp_all
    omega
  have hstored (id : ℕ) : Stored (((∅ : HashMap ℕ Mailbox).insert 0 m).insert 1 m') id ↔ id = 1 ∨ id = 0 := by
    unfold Stored
    rw [getElem?_two]
    split_ifs <;> simp_all
  have htop : Depth (up (((∅ : HashMap ℕ Mailbox).insert 0 m).insert 1 m')) (some 0) 1 := by
    refine .node ?_
    rw [hup]
    exact .top
  refine ⟨⟨fun a p _ hp => ?_, fun a ha => ?_⟩, fun id hid => ?_⟩
  · rw [hup] at hp
    split_ifs at hp
    obtain rfl := some.inj hp
    exact (hstored 0).mpr (.inr rfl)
  · rcases (hstored a).mp ha with rfl | rfl
    · by_cases hbelow : m'.parentId = 1
      · exact ⟨2, .node (by rw [hup, if_pos ⟨rfl, hbelow⟩]; exact htop)⟩
      · exact ⟨1, .node (by rw [hup, if_neg fun h => hbelow h.2]; exact .top)⟩
    · exact ⟨1, htop⟩
  · have hu32 : u32Max = 4294967295 := rfl
    rcases (hstored id).mp hid with rfl | rfl <;> omega

theorem announced_inboxAndFolder : Announced inboxAndFolder := by
  have hlookup (id : ℕ) (mailbox : Mailbox) (h : inboxAndFolder[id]? = some mailbox) :
      (id = 1 ∧ mailbox = { Mailbox.new "Work" with parentId := 1 }) ∨
        (id = 0 ∧ mailbox = { Mailbox.new "Inbox" with role := .inbox }) := by
    unfold inboxAndFolder at h
    rw [getElem?_two] at h
    split_ifs at h with hone hzero
    · exact .inl ⟨hone, (some.inj h).symm⟩
    · exact .inr ⟨hzero, (some.inj h).symm⟩
  refine (announced_iff (forest_two rfl (by decide))).mpr ⟨fun id mailbox h hodd => ?_, distinct_of_labels ?_ ?_⟩
  · rcases hlookup id mailbox h with ⟨-, rfl⟩ | ⟨-, rfl⟩
    · exact absurd hodd.2.1 (by decide)
    · exact absurd rfl hodd.1
  · intro id mailbox h
    rcases hlookup id mailbox h with ⟨-, rfl⟩ | ⟨-, rfl⟩ <;> decide
  · intro u v m m' hm hm' _ heq
    rcases hlookup u m hm with ⟨rfl, rfl⟩ | ⟨rfl, rfl⟩ <;> rcases hlookup v m' hm' with ⟨rfl, rfl⟩ | ⟨rfl, rfl⟩ <;>
      first | rfl | exact absurd heq (by decide)

/-- The mailbox that is called like an inbox is `INBOX 1` or `INBOX 2`, as the cache has it. -/
theorem not_announced_twoInboxes :
    ¬ ∀ mailboxes : HashMap ℕ Mailbox, MailboxForest mailboxes → UniqueNames mailboxes → Announced mailboxes := by
  intro h
  have hforest : MailboxForest twoInboxes := forest_two rfl (by decide)
  have hlookup (id : ℕ) : twoInboxes[id]? = if id = 1 then some (Mailbox.new "Inbox")
      else if id = 0 then some { Mailbox.new "Posteingang" with role := .inbox } else none := getElem?_two _ _ id
  have hunique : UniqueNames twoInboxes := by
    intro id id' m m' hm hm' _ heq
    rw [hlookup] at hm hm'
    split_ifs at hm hm'
    · omega
    · obtain rfl := some.inj hm
      obtain rfl := some.inj hm'
      exact absurd heq (by decide)
    · obtain rfl := some.inj hm
      obtain rfl := some.inj hm'
      exact absurd heq (by decide)
    · omega
  have honly := (h twoInboxes hforest hunique).onlyInbox hforest 1 (Mailbox.new "Inbox") (hlookup 1)
    ⟨by decide, rfl, by decide⟩ 0 (by rfl)
  exact absurd honly (by decide)

end

end MailServer.Email.Cache
